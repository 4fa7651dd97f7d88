import TableFS.Lib.Owners
import TableFS.DiskSteps

/-! Who owns the descriptors of the data files. An open handle owns its fd_, and Read, Write and
Release keep to it. Truncate hands MigrateToDiskFile a local variable that was never set, which is
closed if it is not negative, be it that of a handle or one that the process holds for something
else; and when the copy fails, it does not close what was opened for it. -/
namespace TableFS
open Slots Owners Runs

/-- The open descriptors. -/
def Disk.live (d : Disk) : Set Nat := {n | slot d.fds n ≠ none}

namespace Disk

@[simp] theorem fds_pwrite (d : Disk) (n : Nat) (buf : List UInt8) (offset : Nat) (io : IoResult) :
    (d.pwrite n buf offset io).1.fds = d.fds := by
  unfold pwrite
  dsimp only
  repeat' split
  all_goals rfl

@[simp] theorem fds_ftruncate (d : Disk) (n size : Nat) (io : IoResult) : (d.ftruncate n size io).1.fds = d.fds := by
  unfold ftruncate
  repeat' split
  all_goals rfl

@[simp] theorem fds_truncateFile (d : Disk) (path : DiskPath) (size : Nat) (io : IoResult) :
    (d.truncateFile path size io).1.fds = d.fds := by
  unfold truncateFile
  repeat' split
  all_goals rfl

private theorem live_congr {d d' : Disk} (h : d'.fds = d.fds) : d'.live = d.live := by rw [live, h, live]

private theorem live_closeFile (d : Disk) (n : Nat) : (d.closeFile n).1.live = without d.live (some n) := by
  ext m
  unfold closeFile
  split
  · simp [live, without, slot_clear, and_comm, eq_comm]
  · rename_i hn
    refine ⟨fun hm => ⟨hm, fun he => hm ?_⟩, And.left⟩
    rwa [← Option.some.inj he]

private theorem live_put {d e : Disk} {x : Descriptor} (h : e.fds = put d.fds x) :
    e.live = insert (free d.fds) d.live ∧ free d.fds ∉ d.live := by
  refine ⟨?_, fun hlive => hlive (slot_free d.fds)⟩
  ext n
  by_cases hn : n = free d.fds <;> simp [live, h, slot_put, hn]

private theorem live_openFile (d : Disk) (path : DiskPath) (flags : OpenFlags) :
    (d.openFile path flags).1.live = insert (d.openFile path flags).2 d.live ∧ (d.openFile path flags).2 ∉ d.live := by
  rw [openFile_snd]
  unfold openFile
  split <;> exact live_put rfl

private theorem live_migrateDiskFileToBuffer (env : Env) (d : Disk) (inode_id : UInt64) (size : Nat) :
    (migrateDiskFileToBuffer env d inode_id size).1.live = d.live := by
  cases hn : d.names.lookup (getDiskFilePath inode_id) with
  | none =>
    simp only [migrateDiskFileToBuffer, openRead, hn]
    exact live_congr rfl
  | some f =>
    obtain ⟨hopen, hfree⟩ := live_put (d := d) (e := { d with fds := put d.fds ⟨f, {}⟩ }) rfl
    simp only [migrateDiskFileToBuffer, openRead, hn]
    exact (live_closeFile _ _).trans (hopen ▸ without_insert hfree)

private theorem live_closeDescriptor (d : Disk) (fd : Option Nat) (errno : Nat) :
    (closeDescriptor d fd errno).1.live = without d.live fd := by
  cases fd with
  | none => exact (without_none _).symm
  | some n => exact d.live_closeFile n

private theorem live_closeHandle (d : Disk) (fd : Option Nat) : (closeHandle d fd).1.live = without d.live fd := by
  cases fd with
  | none => exact (without_none _).symm
  | some n => exact d.live_closeFile n

private theorem live_migrateToDiskFile (env : Env) (d : Disk) (v : Value) (fd : Option Nat) (flags : OpenFlags) :
    (migrateToDiskFile env d v fd flags).1.live =
      insert (migrateToDiskFile env d v fd flags).2.2.1 (without d.live fd) ∧
      (migrateToDiskFile env d v fd flags).2.2.1 ∉ without d.live fd := by
  have hopen := live_openFile (closeDescriptor d fd env.errno).1 (getDiskFilePath v.header.fstat.st_ino) flags
  rw [live_closeDescriptor] at hopen
  unfold migrateToDiskFile openDiskFile
  dsimp only
  split
  · exact ⟨(live_congr (fds_pwrite ..)).trans hopen.1, hopen.2⟩
  · exact hopen

end Disk

/-- The new size takes data that is stored inline to disk. -/
def Spills (threshold : Nat) (v : Value) (new_size : Nat) : Prop := v.header.has_blob = 0 ∧ threshold < new_size

instance (threshold : Nat) (v : Value) (new_size : Nat) : Decidable (Spills threshold v new_size) :=
  inferInstanceAs (Decidable (_ ∧ _))

/-- A handle's descriptor stays, or is opened now. -/
inductive Lazily (d : Disk) (fd : Option Nat) (d' : Disk) : Option Nat → Prop where
  | kept : d'.live = d.live → Lazily d fd d' fd
  | opened {n : Nat} : fd = none → n ∉ d.live → d'.live = insert n d.live → Lazily d fd d' (some n)

theorem Lazily.congr {d d' d'' : Disk} {fd fd' : Option Nat} (h : Lazily d fd d' fd') (hfds : d''.fds = d'.fds) :
    Lazily d fd d'' fd' := by
  cases h with
  | kept hlive => exact .kept ((Disk.live_congr hfds).trans hlive)
  | opened hfd hn hlive => exact .opened hfd hn ((Disk.live_congr hfds).trans hlive)

private theorem lazily_lazyOpen (d : Disk) (iheader : Header) (fd : Option Nat) (flags : OpenFlags) :
    Lazily d fd (lazyOpen d iheader fd flags).1 (some (lazyOpen d iheader fd flags).2) := by
  cases fd with
  | some n => exact .kept rfl
  | none =>
    have hopen := d.live_openFile (getDiskFilePath iheader.fstat.st_ino) flags
    exact .opened rfl hopen.2 hopen.1

private theorem lazily_readValue (env : Env) (d : Disk) (v : Value) (fd : Option Nat) (flags : OpenFlags)
    (size offset : Nat) :
    Lazily d fd (readValue env d v fd flags size offset).1 (readValue env d v fd flags size offset).2.1 := by
  unfold readValue
  split
  · exact lazily_lazyOpen d v.header fd flags
  · exact .kept rfl

section
variable {env : Env} {threshold : Nat} {d : Disk} {v : Value} {fd : Option Nat} {flags fi_flags : OpenFlags}
  {buf : List UInt8} {offset : Nat}

private theorem lazily_writeValue (h : ¬ Spills threshold v (offset + buf.length)) :
    Lazily d fd (writeValue env threshold d v fd flags fi_flags buf offset).1
      (writeValue env threshold d v fd flags fi_flags buf offset).2.2.1 := by
  unfold writeValue
  dsimp only
  split
  · exact (lazily_lazyOpen d v.header fd flags).congr (Disk.fds_pwrite ..)
  · rename_i hblob
    rw [if_neg fun hlt => h ⟨Nat.eq_zero_of_not_pos hblob, hlt⟩]
    exact .kept rfl

private theorem live_writeValue (env : Env) (d : Disk) (fd : Option Nat) (flags fi_flags : OpenFlags)
    (h : Spills threshold v (offset + buf.length)) :
    ∃ n, (writeValue env threshold d v fd flags fi_flags buf offset).2.2.1 = some n ∧ n ∉ without d.live fd ∧
      (writeValue env threshold d v fd flags fi_flags buf offset).1.live = insert n (without d.live fd) := by
  obtain ⟨hlive, hn⟩ := d.live_migrateToDiskFile env v fd fi_flags
  simp only [writeValue, h.1, h.2, Nat.lt_irrefl, if_false, if_true]
  split
  · exact ⟨_, rfl, hn, (Disk.live_congr (Disk.fds_pwrite ..)).trans hlive⟩
  · exact ⟨_, rfl, hn, hlive⟩

end

/-- MigrateToDiskFile, as Truncate calls it, returns 0. -/
def Copies (env : Env) (d : Disk) (v : Value) : Prop :=
  (migrateToDiskFile env d v env.fd { trunc := true, wronly := true }).2.2.2 = 0

instance (env : Env) (d : Disk) (v : Value) : Decidable (Copies env d v) := inferInstanceAs (Decidable (_ = _))

private theorem fds_truncateValue (env : Env) (threshold : Nat) (d : Disk) (v : Value) (new_size : Nat) :
    (truncateValue env threshold d v new_size).1 = (truncateData env threshold d v new_size).1 := by
  unfold truncateValue
  dsimp only
  split <;> rfl

section
variable {env : Env} {threshold : Nat} {d : Disk} {v : Value} {new_size : Nat}

private theorem live_truncateValue (h : ¬ Spills threshold v new_size) :
    (truncateValue env threshold d v new_size).1.live = d.live := by
  rw [fds_truncateValue]
  unfold truncateData
  split
  · split
    · exact Disk.live_congr (Disk.fds_truncateFile ..)
    · exact d.live_migrateDiskFileToBuffer env v.fstat.st_ino new_size
  · rename_i hblob
    rw [if_neg fun hlt => h ⟨Nat.eq_zero_of_not_pos hblob, hlt⟩]

private theorem live_truncateValue_copied (h : Spills threshold v new_size) (hcopy : Copies env d v) :
    (truncateValue env threshold d v new_size).1.live = without d.live env.fd := by
  obtain ⟨hlive, hn⟩ := d.live_migrateToDiskFile env v env.fd { trunc := true, wronly := true }
  have hclosed := (Disk.live_congr (Disk.fds_ftruncate (migrateToDiskFile env d v env.fd { trunc := true, wronly := true }).1
    (migrateToDiskFile env d v env.fd { trunc := true, wronly := true }).2.2.1 new_size env.resize)).trans hlive
  rw [Copies] at hcopy
  simp only [fds_truncateValue, truncateData, h.1, h.2, hcopy, Nat.lt_irrefl, if_false, if_true]
  rw [Disk.live_closeFile, hclosed, without_insert hn]

private theorem live_truncateValue_failed (h : Spills threshold v new_size) (hcopy : ¬ Copies env d v) :
    ∃ n, n ∉ without d.live env.fd ∧
      (truncateValue env threshold d v new_size).1.live = insert n (without d.live env.fd) := by
  obtain ⟨hlive, hn⟩ := d.live_migrateToDiskFile env v env.fd { trunc := true, wronly := true }
  rw [Copies] at hcopy
  simp only [fds_truncateValue, truncateData, h.1, h.2, hcopy, Nat.lt_irrefl, if_false, if_true]
  exact ⟨_, hn, hlive⟩

end

namespace State

/-- The descriptor of an open file. -/
def fdOf (s : State) (fh : Nat) : Option Nat := (slot s.files fh).bind FileHandle.fd_

/-- The descriptor that a request passes to close, other than one it opened itself. -/
def closes (s : State) : Env × Op → Option Nat
  | (_, .write fh _ buf offset) => (s.fileOf fh).bind fun x =>
    if Spills s.threshold_ x.2.2.value_ (offset + buf.length) then x.1.fd_ else none
  | (_, .release fh) => (s.fileOf fh).bind fun x => x.1.fd_
  | (env, .truncate path new_size) => (s.acquire path .write).2.bind fun x =>
    if Spills s.threshold_ x.2.2 new_size then env.fd else none
  | _ => none

/-- The descriptor of the handle that a request is given. -/
def ownFd (s : State) : Env × Op → Option Nat
  | (_, .read fh _ _) => s.fdOf fh
  | (_, .write fh _ _ _) => s.fdOf fh
  | (_, .release fh) => s.fdOf fh
  | _ => none

/-- The open descriptors are those of the open files, each of one, and those that the process
holds for something else. -/
def OwnsFds (s : State) (others : Set Nat) : Prop := Owned others s.disk.live s.fdOf

/-- A request closes no descriptor but its handle's and what it opened itself. -/
def ClosesOwn (s : State) (c : Env × Op) : Prop := ∀ n ∈ s.closes c, n ∈ s.disk.live → s.ownFd c = some n

/-- A Truncate that takes inline data to disk finds no open descriptor in its local, and copies
the data. -/
def TruncatesTidily (s : State) : Env × Op → Prop
  | (env, .truncate path new_size) => ∀ x ∈ (s.acquire path .write).2, Spills s.threshold_ x.2.2 new_size →
    (∀ n ∈ env.fd, n ∉ s.disk.live) ∧ Copies env s.disk x.2.2
  | _ => True

end State

section
variable {files : List (Option FileHandle)} {fh : Nat} {f : FileHandle}

private theorem fds_push (files : List (Option FileHandle)) (f : FileHandle) :
    (fun j => (slot (push files f) j).bind FileHandle.fd_) =
      Function.update (fun j => (slot files j).bind FileHandle.fd_) files.length f.fd_ := by
  funext j
  by_cases hj : j = files.length <;> simp [slot_push, hj]

private theorem fds_replace (h : slot files fh = some f) (g : FileHandle) :
    (fun j => (slot (replace files fh g) j).bind FileHandle.fd_) =
      Function.update (fun j => (slot files j).bind FileHandle.fd_) fh g.fd_ := by
  funext j
  by_cases hj : j = fh <;> simp [slot_replace (lt_of_slot h), hj]

private theorem fds_clear (files : List (Option FileHandle)) (fh : Nat) :
    (fun j => (slot (clear files fh) j).bind FileHandle.fd_) =
      Function.update (fun j => (slot files j).bind FileHandle.fd_) fh none := by
  funext j
  by_cases hj : j = fh <;> simp [slot_clear, hj]

end

/-- What a request does to the descriptors and their owners. -/
inductive FdStep (s : State) (c : Env × Op) (s' : State) : Prop where
  | same : s.TruncatesTidily c → s.closes c = none → s'.disk.live = s.disk.live → s'.fdOf = s.fdOf → FdStep s c s'
  | opened {i n : Nat} : s.TruncatesTidily c → s.closes c = none → s.fdOf i = none → n ∉ s.disk.live →
      s'.disk.live = insert n s.disk.live → s'.fdOf = Function.update s.fdOf i (some n) → FdStep s c s'
  | swapped {i n : Nat} : s.TruncatesTidily c → s.closes c = s.fdOf i → s.ownFd c = s.fdOf i →
      n ∉ without s.disk.live (s.fdOf i) → s'.disk.live = insert n (without s.disk.live (s.fdOf i)) →
      s'.fdOf = Function.update s.fdOf i (some n) → FdStep s c s'
  | closed {i : Nat} : s.TruncatesTidily c → s.closes c = s.fdOf i → s.ownFd c = s.fdOf i →
      s'.disk.live = without s.disk.live (s.fdOf i) → s'.fdOf = Function.update s.fdOf i none → FdStep s c s'
  | spilled : s.ownFd c = none → s'.disk.live = without s.disk.live (s.closes c) → s'.fdOf = s.fdOf →
      (s.TruncatesTidily c ↔ ∀ n ∈ s.closes c, n ∉ s.disk.live) → FdStep s c s'
  | leaked {n : Nat} : n ∉ without s.disk.live (s.closes c) →
      s'.disk.live = insert n (without s.disk.live (s.closes c)) →
      s'.fdOf = s.fdOf → s.ownFd c = none → ¬ s.TruncatesTidily c → FdStep s c s'

section
variable {s s' : State} {c : Env × Op} {others : Set Nat}

/-- The request leaves every descriptor with one owner, and closes its own, exactly if it is no
Truncate that closes another's or leaves one behind. -/
theorem FdStep.owns_iff (h : FdStep s c s') (hs : s.OwnsFds others) :
    s'.OwnsFds others ∧ s.ClosesOwn c ↔ s.TruncatesTidily c := by
  unfold State.OwnsFds State.ClosesOwn at *
  cases h with
  | same ht hc hl ho =>
    rw [hl, ho, hc]
    exact iff_of_true ⟨hs, by simp⟩ ht
  | opened ht hc hi hn hl ho =>
    rw [hl, ho, hc]
    exact iff_of_true ⟨hs.acquire hn hi, by simp⟩ ht
  | swapped ht hc hown hn hl ho =>
    rw [hl, ho, hc, hown]
    exact iff_of_true ⟨hs.exchange hn, fun _ h _ => h⟩ ht
  | closed ht hc hown hl ho =>
    rw [hl, ho, hc, hown]
    exact iff_of_true ⟨hs.discard _, fun _ h _ => h⟩ ht
  | spilled hown hl ho ht =>
    rw [hl, ho, ht, hown]
    constructor
    · rintro ⟨_, hclose⟩ n hn hlive
      cases hclose n hn hlive
    · intro hnone
      rw [without_of_notMem hnone]
      exact ⟨hs, fun n hn hlive => absurd hlive (hnone n hn)⟩
  | leaked hn hl ho hown ht =>
    rw [hl, ho, hown]
    refine iff_of_false (fun ⟨howned, hclose⟩ => ?_) ht
    have hnone : ∀ m ∈ s.closes c, m ∉ s.disk.live := fun m hm hlive => nomatch hclose m hm hlive
    rw [without_of_notMem hnone] at hn howned
    exact hs.not_insert hn howned

end

/-- The open handles and the disk's descriptors stay as they are. -/
structure Quiet (s s' : State) : Prop where
  files : s'.files = s.files
  fds : s'.disk.fds = s.disk.fds
  dirs : s'.dirs = s.dirs

/-- Requests that use no open handle, and are no Open, OpenDir or Truncate. -/
def Op.quiet : Op → Bool
  | .openFile _ _ => false
  | .read _ _ _ => false
  | .write _ _ _ _ => false
  | .release _ => false
  | .truncate _ _ => false
  | .openDir _ => false
  | .releaseDir _ => false
  | _ => true

section
variable {s s' : State}

theorem Quiet.refl (s : State) : Quiet s s := ⟨rfl, rfl, rfl⟩

theorem CachesOnly.quiet (h : CachesOnly s s') : Quiet s s' := ⟨h.files, congrArg Disk.fds h.disk, h.dirs⟩

private theorem quiet_unlink (s : State) (path : CString) : Quiet s (s.unlink path).1 := by
  unfold State.unlink
  split
  · rename_i heq
    exact (cachesOnly_acquire heq).quiet
  · rename_i heq
    have hq := (cachesOnly_acquire heq).quiet
    refine { hq with fds := Eq.trans ?_ hq.fds }
    simp only [State.dropInode]
    split <;> rfl

theorem quiet_step (s : State) (env : Env) {op : Op} (h : op.quiet = true) : Quiet s (step s (env, op)).1 := by
  cases op with
  | unlink path => exact quiet_unlink s path
  | getAttr | chmod | chown | updateTimens | readlink | makeNode | makeDir | symlink | removeDir | rename | readDir =>
    exact (cachesOnly_step s env rfl).quiet
  | openFile | read | write | release | truncate | openDir | releaseDir => cases h

theorem FdStep.of_eq {c : Env × Op} (hfiles : s'.files = s.files) (hfds : s'.disk.fds = s.disk.fds)
    (ht : s.TruncatesTidily c) (hc : s.closes c = none) : FdStep s c s' := by
  refine .same ht hc (Disk.live_congr hfds) ?_
  funext fh
  rw [State.fdOf, hfiles, State.fdOf]

private theorem Quiet.fdStep {c : Env × Op} (h : Quiet s s') (ht : s.TruncatesTidily c) (hc : s.closes c = none) :
    FdStep s c s' :=
  .of_eq h.files h.fds ht hc

theorem fdOf_of_fileOf {fh : Nat} {f : FileHandle} {x : MetaKey × InodeCacheHandle} (h : s.fileOf fh = some (f, x)) :
    slot s.files fh = some f ∧ s.fdOf fh = f.fd_ := by
  have hf := (State.fileOf_some.mp h).1
  exact ⟨hf, by rw [State.fdOf, hf, Option.bind_some]⟩

private theorem fdOf_replace {fh : Nat} {f : FileHandle} {fd : Option Nat} (hf : slot s.files fh = some f)
    (hfiles : s'.files = replace s.files fh { f with fd_ := fd }) : s'.fdOf = Function.update s.fdOf fh fd := by
  unfold State.fdOf
  rw [hfiles, fds_replace hf]

private theorem Lazily.fdStep {c : Env × Op} {fh : Nat} {f : FileHandle} {fd : Option Nat}
    (hf : slot s.files fh = some f) (hd : Lazily s.disk f.fd_ s'.disk fd)
    (hfiles : s'.files = replace s.files fh { f with fd_ := fd }) (ht : s.TruncatesTidily c)
    (hc : s.closes c = none) : FdStep s c s' := by
  have hfd : s.fdOf fh = f.fd_ := by rw [State.fdOf, hf, Option.bind_some]
  have hfun := fdOf_replace hf hfiles
  cases hd with
  | kept hlive =>
    refine .same ht hc hlive (hfun.trans ?_)
    rw [← hfd, Function.update_eq_self]
  | opened hnone hn hlive => exact .opened ht hc (hfd.trans hnone) hn hlive hfun

private theorem fdStep_openFile (s : State) (env : Env) (path : CString) (flags : OpenFlags) :
    FdStep s (env, .openFile path flags) (s.openFile path flags).1 := by
  unfold State.openFile
  split
  · rename_i heq
    exact (cachesOnly_acquire heq).quiet.fdStep trivial rfl
  · rename_i s' key handle value heq
    obtain ⟨_, hdisk, hfiles, _⟩ := cachesOnly_acquire heq
    have hnone : s.fdOf s.files.length = none := by simp [State.fdOf, slot]
    have hfun (d : Disk) (fd : Option Nat) :
        State.fdOf { s' with disk := d, files := push s'.files ⟨handle, flags, fd⟩ } =
          Function.update s.fdOf s.files.length fd := by
      unfold State.fdOf
      rw [hfiles, fds_push]
    dsimp only
    rw [hdisk]
    split
    · obtain ⟨hlive, hn⟩ := s.disk.live_openFile (getDiskFilePath value.header.fstat.st_ino) flags
      exact .opened trivial rfl hnone hn hlive (hfun _ _)
    · refine .same trivial rfl rfl ((hfun _ _).trans ?_)
      rw [← hnone, Function.update_eq_self]

private theorem fdStep_write (s : State) (env : Env) (fh : Nat) (flags : OpenFlags) (buf : List UInt8) (offset : Nat) :
    FdStep s (env, .write fh flags buf offset) (s.write env fh flags buf offset).1 := by
  unfold State.write
  split
  · rename_i heq
    exact (Quiet.refl s).fdStep trivial (by simp [State.closes, heq])
  · rename_i f key handle heq
    obtain ⟨hslot, hfd⟩ := fdOf_of_fileOf heq
    by_cases hspill : Spills s.threshold_ handle.value_ (offset + buf.length)
    · obtain ⟨n, hnew, hn, hlive⟩ := live_writeValue env s.disk f.fd_ f.flags_ flags hspill
      rw [← hfd] at hn
      have hcloses : s.closes (env, .write fh flags buf offset) = s.fdOf fh := by
        rw [State.closes, heq, Option.bind_some, if_pos hspill, hfd]
      exact .swapped trivial hcloses rfl hn (hlive.trans (by rw [hfd])) ((fdOf_replace hslot rfl).trans (by rw [hnew]))
    · exact Lazily.fdStep hslot (lazily_writeValue hspill) rfl trivial (by simp [State.closes, heq, hspill])

private theorem fdStep_release (s : State) (env : Env) (fh : Nat) :
    FdStep s (env, .release fh) (s.release env fh).1 := by
  unfold State.release
  split
  · rename_i heq
    exact (Quiet.refl s).fdStep trivial (by simp [State.closes, heq])
  · rename_i f key handle heq
    obtain ⟨_, hfd⟩ := fdOf_of_fileOf heq
    refine .closed trivial ?_ rfl (hfd ▸ s.disk.live_closeHandle f.fd_) (fds_clear s.files fh)
    rw [State.closes, heq, Option.bind_some, hfd]

private theorem fdStep_truncate (s : State) (env : Env) (path : CString) (new_size : Nat) :
    FdStep s (env, .truncate path new_size) (s.truncate env path new_size).1 := by
  unfold State.truncate
  split
  · rename_i heq
    exact (cachesOnly_acquire heq).quiet.fdStep (by simp [State.TruncatesTidily, heq]) (by simp [State.closes, heq])
  · rename_i s' key handle value heq
    obtain ⟨hthreshold, hdisk, hfiles, _⟩ := cachesOnly_acquire heq
    have hfun : s'.fdOf = s.fdOf := by
      funext fh
      rw [State.fdOf, hfiles, State.fdOf]
    dsimp only
    rw [hthreshold, hdisk]
    by_cases hspill : Spills s.threshold_ value new_size
    · have hcloses : s.closes (env, .truncate path new_size) = env.fd := by
        rw [State.closes, heq, Option.bind_some, if_pos hspill]
      have htidy : s.TruncatesTidily (env, .truncate path new_size) ↔
          (∀ n ∈ env.fd, n ∉ s.disk.live) ∧ Copies env s.disk value := by
        simp [State.TruncatesTidily, heq, hspill]
      by_cases hcopy : Copies env s.disk value
      · refine .spilled rfl (hcloses ▸ live_truncateValue_copied hspill hcopy) hfun ?_
        rw [htidy, hcloses, and_iff_left hcopy]
      · obtain ⟨n, hn, hlive⟩ := live_truncateValue_failed hspill hcopy
        exact .leaked (hcloses ▸ hn) (hcloses ▸ hlive) hfun rfl fun ht => hcopy (htidy.mp ht).2
    · refine .same ?_ ?_ (live_truncateValue hspill) hfun
      · simp [State.TruncatesTidily, heq, hspill]
      · simp [State.closes, heq, hspill]

theorem step_fds (s : State) (env : Env) (op : Op) : FdStep s (env, op) (step s (env, op)).1 := by
  cases op with
  | openFile path flags => exact fdStep_openFile s env path flags
  | read fh size offset =>
    simp only [step, State.read]
    split
    · exact (Quiet.refl s).fdStep trivial rfl
    · rename_i f key handle heq
      exact Lazily.fdStep (fdOf_of_fileOf heq).1
        (lazily_readValue env s.disk handle.value_ f.fd_ f.flags_ size offset) rfl
        trivial rfl
  | write fh flags buf offset => exact fdStep_write s env fh flags buf offset
  | release fh => exact fdStep_release s env fh
  | truncate path new_size => exact fdStep_truncate s env path new_size
  | openDir path =>
    obtain ⟨_, hdisk, hfiles⟩ := openDir_frame s env path
    exact .of_eq hfiles (congrArg Disk.fds hdisk) trivial rfl
  | releaseDir fh =>
    simp only [step, State.releaseDir]
    split <;> exact .of_eq rfl rfl trivial rfl
  | getAttr | chmod | chown | updateTimens | readlink | makeNode | makeDir | symlink | unlink | removeDir | rename
  | readDir => exact (quiet_step s env rfl).fdStep trivial rfl

end

private theorem ownsFds_of_closed {s : State} (hfiles : s.files = []) : s.OwnsFds s.disk.live := by
  have hfd : s.fdOf = fun _ => none := by
    funext fh
    simp [State.fdOf, hfiles, slot]
  rw [State.OwnsFds, hfd]
  exact owned_none _

theorem ownsFds_of_nil {s : State} (hfds : s.disk.fds = []) (hfiles : s.files = []) : s.OwnsFds ∅ := by
  have hlive : s.disk.live = ∅ := by
    ext n
    simp [Disk.live, hfds, slot]
  rw [← hlive]
  exact ownsFds_of_closed hfiles

/-- The state in a process that holds other descriptors: the standard streams, the files of the
store. -/
def State.beside (s : State) (fds : List (Option Descriptor)) : State := { s with disk := { s.disk with fds := fds } }

/-- Along any requests to a new file system in a process with any other descriptors, the open
descriptors are these and those of the open files, one each, and no request closes another's,
exactly if no Truncate that takes inline data to disk finds an open descriptor of the process in
its local variable or fails to copy the data. -/
theorem descriptors_owned_iff (config : Config) (env : Env) (mode : UInt32) (dev : Nat)
    (fds : List (Option Descriptor)) (calls : List (Env × Op)) :
    let s₀ := (State.init config env mode dev).beside fds
    Allowed step (fun s c => (step s c).1.OwnsFds s₀.disk.live ∧ s.ClosesOwn c) s₀ calls ↔
      Allowed step State.TruncatesTidily s₀ calls := by
  intro s₀
  exact allowed_iff_of_step (fun s => s.OwnsFds s₀.disk.live) State.ClosesOwn State.TruncatesTidily
    (fun s c hs => (step_fds s c.1 c.2).owns_iff hs) (ownsFds_of_closed rfl) calls

/-- /f is open with descriptor 0, and /g is empty. -/
def oneOpenFile : List (Env × Op) :=
  calmly [.makeNode (inRoot [102]) 0 0, .openFile (inRoot [102]) O_RDWR, .write 0 O_RDWR [1, 2] 0,
    .makeNode (inRoot [103]) 0 0]

/-- /g holds one byte inline, and no file is open. -/
def oneInlineByte : List (Env × Op) :=
  calmly [.makeNode (inRoot [103]) 0 0, .openFile (inRoot [103]) O_RDWR, .write 0 O_RDWR [1] 0, .release 0]

/-- The three standard streams. -/
def standardStreams : List (Option Descriptor) := [some ⟨0, {}⟩, some ⟨1, {}⟩, some ⟨2, {}⟩]

/-- A Truncate of /g whose local variable holds 0 closes the descriptor of /f's handle; one that
fails to copy the byte leaves a descriptor that no handle owns; and one whose local variable holds
1 closes the standard output. -/
theorem descriptors_taken :
    let s := (run step (State.fresh 1) oneOpenFile).1
    let s' := (step s ({ Env.calm with fd := some 0 }, .truncate (inRoot [103]) 2)).1
    let t := (run step (State.fresh 1) oneInlineByte).1
    let t' := (step t ({ Env.calm with migrate := .fail 5 (by decide) }, .truncate (inRoot [103]) 2)).1
    let u := (run step ((State.fresh 1).beside standardStreams) oneInlineByte).1
    let u' := (step u ({ Env.calm with fd := some 1 }, .truncate (inRoot [103]) 2)).1
    (s.fdOf 0 = some 0 ∧ slot s.disk.fds 0 ≠ none ∧ s'.fdOf 0 = some 0 ∧ slot s'.disk.fds 0 = none) ∧
      (slot t.disk.fds 0 = none ∧ slot t'.disk.fds 0 ≠ none ∧ t'.files = [none]) ∧
      slot u.disk.fds 1 ≠ none ∧ slot u'.disk.fds 1 = none := by
  decide +kernel

end TableFS
