import TableFS.FileScan
import TableFS.Descriptors

/-! The descriptor table of the wrapper. Every slot that is taken belongs to a caller and stands for
an open file of its own, whatever calls were made; but Open goes on with -1 when no slot is free,
and so does the filler of Scanfile when a name cannot be opened. -/
namespace TableFS
open Scripts Script Slots Runs

namespace State

def openFiles (s : State) : Nat := count (fun _ => true) s.files

def openDirs (s : State) : Nat := count (fun _ => true) s.dirs

/-- References and descriptors are accounted for. -/
structure Sane (s : State) : Prop where
  counted : s.Counted
  owns : s.OwnsFds ∅

/-- No file was opened or closed. -/
structure KeepsFiles (s s' : State) : Prop where
  slots : ∀ fh, slot s.files fh ≠ none → slot s'.files fh ≠ none
  openFiles : s'.openFiles = s.openFiles

/-- No handle was opened or closed. -/
structure Stays (s s' : State) : Prop extends KeepsFiles s s' where
  openDirs : s'.openDirs = s.openDirs

end State

/-- Requests that may use a handle, but open and close none. -/
def Op.still : Op → Bool
  | .read _ _ _ => true
  | .write _ _ _ _ => true
  | op => op.quiet

section
variable {s s' : State}

private theorem keepsFiles_of_eq (hf : s'.files = s.files) : s.KeepsFiles s' :=
  ⟨fun fh h => by rwa [hf], by rw [State.openFiles, hf, State.openFiles]⟩

private theorem stays_of_eq (hf : s'.files = s.files) (hd : s'.dirs = s.dirs) : s.Stays s' :=
  ⟨keepsFiles_of_eq hf, by rw [State.openDirs, hd, State.openDirs]⟩

private theorem stays_replace {fh : Nat} {f f' : FileHandle} (h : slot s.files fh = some f)
    (hf : s'.files = replace s.files fh f') (hd : s'.dirs = s.dirs) : s.Stays s' := by
  refine ⟨⟨fun j hj => ?_, ?_⟩, by rw [State.openDirs, hd, State.openDirs]⟩
  · rw [hf, slot_replace (lt_of_slot h)]
    split
    · simp
    · exact hj
  · rw [State.openFiles, hf, State.openFiles]
    exact count_replace _ h rfl

private theorem Op.still_or (op : Op) (h : op.still = true) :
    op.quiet = true ∨ (∃ fh size offset, op = .read fh size offset) ∨ ∃ fh flags buf offset, op = .write fh flags buf offset := by
  cases op with
  | read fh size offset => exact .inr (.inl ⟨fh, size, offset, rfl⟩)
  | write fh flags buf offset => exact .inr (.inr ⟨fh, flags, buf, offset, rfl⟩)
  | _ => exact .inl h

private theorem stays_step (s : State) (env : Env) {op : Op} (h : op.still = true) : s.Stays (step s (env, op)).1 := by
  rcases op.still_or h with hq | ⟨fh, size, offset, rfl⟩ | ⟨fh, flags, buf, offset, rfl⟩
  · exact stays_of_eq (quiet_step s env hq).files (quiet_step s env hq).dirs
  · simp only [step, State.read]
    split
    · exact stays_of_eq rfl rfl
    · rename_i heq
      exact stays_replace (fdOf_of_fileOf heq).1 rfl rfl
  · simp only [step, State.write]
    split
    · exact stays_of_eq rfl rfl
    · rename_i heq
      exact stays_replace (fdOf_of_fileOf heq).1 rfl rfl

/-- Of all requests, only Truncate can upset the accounts, and the wrapper has none. -/
theorem State.Sane.step (hs : s.Sane) {c : Env × Op} (hc : ∀ path new_size, c.2 ≠ .truncate path new_size) :
    (TableFS.step s c).1.Sane := by
  refine ⟨(step_deed hs.counted c.1 c.2).counted hs.counted, (((step_fds s c.1 c.2).owns_iff hs.owns).mpr ?_).1⟩
  rcases c with ⟨env, op⟩
  cases op with
  | truncate path new_size => exact absurd rfl (hc path new_size)
  | _ => trivial

private theorem openFile_cases (hs : s.Counted) (path : CString) (flags : OpenFlags) :
    (¬ s.Leads path ∧ (s.openFile path flags).2.ret ≠ 0 ∧ s.Stays (s.openFile path flags).1) ∨
    (s.Leads path ∧ (s.openFile path flags).2.ret = 0 ∧ (s.openFile path flags).2.fh = some s.files.length ∧
      ∃ f, (s.openFile path flags).1.files = push s.files f ∧ (s.openFile path flags).1.dirs = s.dirs) := by
  rw [← State.acquire_isSome_iff s path flags.mode]
  unfold State.openFile
  rcases State.acquire_spec hs path flags.mode with ⟨ha, _⟩ | ⟨key, name, ic, i, h, _, ha, _, _, _⟩
  · rw [ha]
    exact .inl ⟨Bool.false_ne_true, show (fsError ENOENT).ret ≠ 0 by decide, stays_of_eq rfl rfl⟩
  · rw [ha]
    exact .inr ⟨rfl, rfl, rfl, _, rfl, rfl⟩

private theorem release_open (hs : s.Sane) (env : Env) {fh : Nat} (h : slot s.files fh ≠ none) :
    (s.release env fh).2.ret = 0 ∧ (s.release env fh).1.files = clear s.files fh ∧
      (s.release env fh).1.dirs = s.dirs := by
  obtain ⟨f, hf⟩ := Option.ne_none_iff_exists'.mp h
  obtain ⟨key, hd, hh⟩ := hs.counted.handle_of_file hf
  have hfile : s.fileOf fh = some (f, key, hd) := State.fileOf_some.mpr ⟨hf, hh⟩
  unfold State.release
  rw [hfile]
  refine ⟨?_, rfl, rfl⟩
  dsimp only
  cases hfd : f.fd_ with
  | none => rfl
  | some n =>
    have hlive : n ∈ s.disk.live := (hs.owns.mem_iff n).mpr (.inr ⟨fh, (fdOf_of_fileOf hfile).2.trans hfd⟩)
    obtain ⟨x, hx⟩ := Option.ne_none_iff_exists'.mp hlive
    simp only [closeHandle, Disk.closeFile, hx]

/-- OpenDir opens a directory if its path leads to an inode. If not, it gives no handle, but may
return 0. -/
private theorem openDir_cases (hs : s.Counted) (env : Env) (path : CString) :
    (¬ s.Leads path ∧ (s.openDir env path).2.fh = none ∧ s.Stays (s.openDir env path).1) ∨
    (s.Leads path ∧ (s.openDir env path).2.ret = 0 ∧ (s.openDir env path).2.fh ≠ none ∧
      (s.openDir env path).1.files = s.files ∧ (s.openDir env path).1.openDirs = s.openDirs + 1) := by
  unfold State.openDir
  rw [State.lookup_eq, State.Leads]
  rcases s.found path with _ | ⟨key, name⟩
  · exact .inl ⟨by simp, rfl, stays_of_eq rfl rfl⟩
  · dsimp only
    have hvisible : _ = (s.visible key).isSome := State.getInode_isSome { s with dentry_cache := s.looked path } key .read
    rcases State.getInode_spec (s := { s with dentry_cache := s.looked path }) hs key .read with
      ⟨hg, _, _⟩ | ⟨ic, i, h, hg, _, _, _⟩
    · rw [hg] at hvisible ⊢
      exact .inl ⟨by simp [← hvisible], rfl, stays_of_eq rfl rfl⟩
    · rw [hg] at hvisible ⊢
      exact .inr ⟨⟨_, rfl, hvisible.symm⟩, rfl, by simp, rfl, count_push _ s.dirs i⟩

end

/-- The slots that are taken are those of the descriptors that callers hold, and each stands for an
open file of its own. -/
structure Wired (w : Wrapper) (opened : List Int) : Prop where
  nodup : opened.Nodup
  mem_iff : ∀ fd, fd ∈ opened ↔ w.Allocated fd
  file : ∀ fd ∈ opened, ∃ fh, (w.fis fd.toNat).fh = some fh ∧ slot w.fs.files fh ≠ none
  apart : ∀ fd ∈ opened, ∀ fd' ∈ opened, (w.fis fd.toNat).fh = (w.fis fd'.toNat).fh → fd = fd'
  count : w.fs.openFiles = opened.length
  sane : w.fs.Sane

/-- A call in progress. -/
structure Fine (opened : List Int) (dirs : Nat) (s : Scene) : Prop where
  wired : Wired s.wrapper opened
  dirs : s.wrapper.fs.openDirs = dirs

/-- A stop at no bad index. -/
def Calm (e : Stop) (_ : Scene) : Prop := ∀ fd, e ≠ .badIndex fd

/-- A stop at the index -1. -/
def Astray (e : Stop) (_ : Scene) : Prop := e = .badIndex (-1)

/-- What the requests of a call work on. -/
def Scene.behind (s : Scene) : State × List Env := (s.wrapper.fs, s.envs)

/-- The call stops at no bad index, and the requests that it stands for end with the surroundings. -/
def Halted (e : Stop) (e' : ScanStop) : Prop := (∀ fd, e ≠ .badIndex fd) ∧ e' = .cut

section
variable {w w' : Wrapper} {opened : List Int} {dirs : Nat} {fd : Int} {s : Scene}

/-- A change that leaves the descriptors, their handles and the open files. -/
theorem Wired.congr (h : Wired w opened) (hfree : w'.freefd = w.freefd)
    (hfis : ∀ fd ∈ opened, (w'.fis fd.toNat).fh = (w.fis fd.toNat).fh) (hstay : w.fs.KeepsFiles w'.fs)
    (hsane : w'.fs.Sane) :
    Wired w' opened where
  nodup := h.nodup
  mem_iff fd := by
    rw [h.mem_iff, Wrapper.Allocated, Wrapper.Allocated, hfree]
  file fd hfd := by
    obtain ⟨fh, hfh, hslot⟩ := h.file fd hfd
    exact ⟨fh, (hfis fd hfd).trans hfh, hstay.slots fh hslot⟩
  apart fd hfd fd' hfd' he := by
    rw [hfis fd hfd, hfis fd' hfd'] at he
    exact h.apart fd hfd fd' hfd' he
  count := hstay.openFiles.trans h.count
  sane := hsane

private theorem triple_request_of {op : Op} {P : Scene → Prop} {Q : Env × Result → Scene → Prop}
    (h : ∀ s env envs, P s → Q (env, (step s.wrapper.fs (env, op)).2)
      { s with wrapper.fs := (step s.wrapper.fs (env, op)).1, envs := envs }) :
    Triple Calm P (Wrapper.request op) Q := by
  refine ⟨fun s hs => ?_⟩
  unfold Wrapper.request
  cases s.envs with
  | nil => exact nofun
  | cons env envs => exact h s env envs hs

private theorem mirrors_request {op : Op} {P : Scene → Prop} {Q : Env × Result → Scene → Prop}
    (h : Triple Calm P (Wrapper.request op) Q) :
    Mirrors Scene.behind Halted P (Wrapper.request op) (Requests.ask op) fun x y s => y = x ∧ Q x s := by
  refine ⟨fun s hs => ?_⟩
  have hout := h.ends s hs
  unfold Wrapper.request Requests.ask Scene.behind at *
  cases henvs : s.envs with
  | nil => exact ⟨nofun, rfl⟩
  | cons env envs =>
    rw [henvs] at hout
    exact ⟨rfl, rfl, hout⟩

theorem Fine.step (hs : Fine opened dirs s) {op : Op} (hop : op.still = true) (env : Env) (envs : List Env) :
    Fine opened dirs { s with wrapper.fs := (TableFS.step s.wrapper.fs (env, op)).1, envs := envs } := by
  have hstay := stays_step s.wrapper.fs env hop
  have hsane : (TableFS.step s.wrapper.fs (env, op)).1.Sane := hs.wired.sane.step fun _ _ he => by
    subst he
    cases hop
  exact ⟨hs.wired.congr rfl (fun _ _ => rfl) hstay.toKeepsFiles hsane, hstay.openDirs.trans hs.dirs⟩

private theorem triple_request {op : Op} (hop : op.still = true) :
    Triple Calm (Fine opened dirs) (Wrapper.request op) fun _ => Fine opened dirs :=
  triple_request_of fun _ env envs hs => hs.step hop env envs

private theorem Fine.allocated (hs : Fine opened dirs s) (h : fd ∈ opened) :
    s.wrapper.Allocated fd := (hs.wired.mem_iff fd).mp h

private theorem triple_use {E : Stop → Scene → Prop} {P : Scene → Prop} (h : ∀ s, P s → s.wrapper.Allocated fd) :
    Triple E P (Wrapper.use fd) fun i s => i = fd.toNat ∧ P s := by
  refine ⟨fun s hs => ?_⟩
  rw [Wrapper.use, if_pos (h s hs)]
  exact ⟨rfl, hs⟩

private theorem triple_use_bad {P : Scene → Prop} {Q : Nat → Scene → Prop} : Triple Astray P (Wrapper.use (-1)) Q := by
  refine ⟨fun s _ => ?_⟩
  rw [Wrapper.use, if_neg fun h => absurd h.1 (by decide)]
  exact rfl

private theorem behind_use (fd : Int) (s : Scene) : (Wrapper.use fd s).2.behind = s.behind := by
  unfold Wrapper.use
  split <;> rfl

private theorem behind_report (fd : Int) (s : Scene) : (Wrapper.report fd s).2.behind = s.behind := by
  refine view_bind (fun _ => rfl) (fun s s' => ?_) s
  split
  · exact view_bind (behind_use fd) (fun _ _ => rfl) s'
  · rfl

private theorem behind_releaseFileDescriptor (fd : Int) (s : Scene) :
    (Wrapper.releaseFileDescriptor fd s).2.behind = s.behind :=
  view_bind (behind_use fd) (fun _ _ => rfl) s

private theorem behind_getFileDescriptor (s : Scene) : (Wrapper.getFileDescriptor s).2.behind = s.behind := by
  refine view_bind (fun _ => rfl) (fun s s' => ?_) s
  cases (List.range FDLIMIT).find? (fun i => !s.wrapper.freefd i) <;> rfl

private theorem triple_stat (path : CString) :
    Triple Calm (Fine opened dirs) (Wrapper.stat path) fun _ => Fine opened dirs :=
  triple_bind (triple_request rfl) fun _ => triple_pure fun _ hs => hs

private theorem triple_report {E : Stop → Scene → Prop} {P : Scene → Prop} (h : ∀ s, P s → s.wrapper.Allocated fd) :
    Triple E P (Wrapper.report fd) fun _ => P := by
  refine triple_get fun s hs => ?_
  split
  · exact triple_bind ((triple_use h).start hs) fun _ => triple_pure fun _ hs => hs.2
  · exact triple_pure fun _ he => he ▸ hs

private theorem Fine.set_offsets (hs : Fine opened dirs s) (offsets : Nat → Int) :
    Fine opened dirs { s with wrapper.offsets := offsets } := ⟨{ hs.wired with mem_iff := hs.wired.mem_iff }, hs.dirs⟩

private theorem triple_seek (h : fd ∈ opened) (offset : Int) :
    Triple Calm (Fine opened dirs) (Wrapper.seek fd offset) fun _ => Fine opened dirs :=
  triple_bind (triple_use fun _ hs => hs.allocated h) fun _ =>
    triple_bind (triple_modify fun _ hs => hs.2.set_offsets _) fun _ => triple_pure fun _ hs => hs

/-- The slot of an open file whose next byte is at an offset. -/
structure Positioned (opened : List Int) (dirs : Nat) (fd : Int) (fh offset : Nat) (s : Scene) :
    Prop extends Fine opened dirs s where
  handle : (s.wrapper.fis fd.toNat).fh = some fh
  offset : s.wrapper.offsets fd.toNat = offset

private theorem mirrors_transfer (h : fd ∈ opened) {op : FileInfo → Nat → Nat → Op}
    (hop : ∀ fi fh offset, (op fi fh offset).still = true) {fh offset : Nat}
    (hs : Positioned opened dirs fd fh offset s) :
    Mirrors Scene.behind Halted (fun s' => s' = s) (Wrapper.transfer fd op)
      (Requests.ask (op (s.wrapper.fis fd.toNat) fh offset)) fun ret x s' =>
        ret = x.2.ret ∧ Positioned opened dirs fd fh (offset + ret.toNat) s' := by
  have halloc : ∀ s', s' = s → s'.wrapper.Allocated fd := fun _ he => he ▸ hs.allocated h
  refine mirrors_skip (triple_use halloc) (behind_use fd) fun i => mirrors_get_left fun s' hs' => ?_
  obtain ⟨rfl, he⟩ := hs'
  subst he
  rw [hs.handle, hs.offset]
  dsimp only
  rw [if_neg (Int.not_lt.mpr (Int.natCast_nonneg offset)), Int.toNat_natCast]
  have hrequest : Triple Calm (fun s => s = s') (Wrapper.request (op (s'.wrapper.fis fd.toNat) fh offset)) fun _ =>
      Positioned opened dirs fd fh offset := by
    refine triple_request_of fun s1 env envs he => ?_
    subst he
    exact ⟨hs.step (hop _ _ _) env envs, hs.handle, hs.offset⟩
  refine (mirrors_request hrequest).followed (fun x y => ?_) fun x s => ?_
  · split
    · rename_i hret
      refine triple_bind (triple_report fun s hs => hs.2.allocated h) fun _ => triple_pure fun s hs => ?_
      rw [Int.toNat_of_nonpos (Int.le_of_lt hret), hs.1]
      exact ⟨rfl, hs.2⟩
    · rename_i hret
      refine triple_bind (Q := fun _ s => y = x ∧ Positioned opened dirs fd fh (offset + x.2.ret.toNat) s)
        (triple_modify fun s hs => ?_)
        fun _ => triple_pure fun s hs => ⟨by rw [hs.1], hs.2⟩
      refine ⟨hs.1, hs.2.set_offsets _, hs.2.handle, ?_⟩
      dsimp only
      rw [Function.update_self, hs.2.offset, Int.natCast_add, Int.toNat_of_nonneg (Int.not_lt.mp hret)]
  · split
    · exact view_bind (behind_report fd) (fun _ _ => rfl) s
    · rfl

theorem Halted.calm {e : Stop} {s : Scene} (h : ∃ e', Halted e e') : Calm e s := h.elim fun _ h => h.1

private theorem triple_transfer (h : fd ∈ opened) {op : FileInfo → Nat → Nat → Op}
    (hop : ∀ fi fh offset, (op fi fh offset).still = true) :
    Triple Calm (Fine opened dirs) (Wrapper.transfer fd op) fun _ => Fine opened dirs := by
  refine triple_of_forall fun s hs => ?_
  obtain ⟨fh, hfh, _⟩ := hs.wired.file fd h
  by_cases hoffset : s.wrapper.offsets fd.toNat < 0
  · refine triple_bind (triple_use fun _ he => he ▸ hs.allocated h) fun i => triple_get fun s' hs' => ?_
    obtain ⟨rfl, rfl⟩ := hs'
    rw [hfh]
    dsimp only
    rw [if_pos hoffset]
    exact triple_stop fun _ _ => nofun
  · obtain ⟨offset, hoffset⟩ := Int.eq_ofNat_of_zero_le (Int.not_lt.mp hoffset)
    exact ((mirrors_transfer h hop ⟨hs, hfh, hoffset⟩).triple.relax fun _ _ => Halted.calm).post
      fun _ _ ⟨_, hs⟩ => hs.2.toFine

private theorem triple_write (h : fd ∈ opened) (buf : List UInt8) :
    Triple Calm (Fine opened dirs) (Wrapper.write fd buf) fun _ => Fine opened dirs :=
  triple_transfer h fun _ _ _ => rfl

private theorem triple_read (h : fd ∈ opened) (size : Nat) :
    Triple Calm (Fine opened dirs) (Wrapper.read fd size) fun _ => Fine opened dirs :=
  triple_transfer h fun _ _ _ => rfl

/-- A slot that Open took for a descriptor that no caller holds yet. -/
structure Reserved (opened : List Int) (dirs i : Nat) (s : Scene) : Prop where
  lt : i < FDLIMIT
  taken : s.wrapper.freefd i = true
  fine : Fine opened dirs { s with wrapper.freefd := Function.update s.wrapper.freefd i false }

private theorem Wired.nonneg (h : Wired w opened) (hfd : fd ∈ opened) : 0 ≤ fd := ((h.mem_iff fd).mp hfd).1

private theorem allocated_update {i : Nat} {b : Bool} (h : w'.freefd = Function.update w.freefd i b) (fd : Int) :
    w'.Allocated fd ↔ if fd = i then i < FDLIMIT ∧ b = true else w.Allocated fd := by
  unfold Wrapper.Allocated
  rw [h]
  split
  · subst fd
    simp
  · rename_i hne
    refine and_congr_right fun h0 => ?_
    rw [Function.update_of_ne (by omega)]

private theorem Wired.openSlot {i : Nat} {f : FileHandle} (h : Wired w opened) (hi : i < FDLIMIT)
    (hfresh : (i : Int) ∉ opened) (hfiles : w'.fs.files = push w.fs.files f) (hsane : w'.fs.Sane)
    (hfree : w'.freefd = Function.update w.freefd i true)
    (hfis : w'.fis = Function.update w.fis i ⟨(w.fis i).flags, some w.fs.files.length⟩) :
    Wired w' (i :: opened) := by
  have hself : (w'.fis i).fh = some w.fs.files.length := by rw [hfis, Function.update_self]
  have hold : ∀ fd ∈ opened, (w'.fis fd.toNat).fh = (w.fis fd.toNat).fh := fun fd hfd => by
    have hne : fd.toNat ≠ i := fun he => hfresh (by rwa [← he, Int.toNat_of_nonneg (h.nonneg hfd)])
    rw [hfis, Function.update_of_ne hne]
  -- the handles of the others are older than the new one
  have hlt : ∀ fd ∈ opened, (w'.fis fd.toNat).fh ≠ some w.fs.files.length := fun fd hfd he => by
    obtain ⟨fh, hfh, hslot⟩ := h.file fd hfd
    obtain ⟨g, hg⟩ := Option.ne_none_iff_exists'.mp hslot
    rw [hold fd hfd, hfh] at he
    exact Nat.ne_of_lt (lt_of_slot hg) (Option.some.inj he)
  refine ⟨List.nodup_cons.mpr ⟨hfresh, h.nodup⟩, fun fd => ?_, fun fd hfd => ?_, fun fd hfd fd' hfd' he => ?_, ?_,
    hsane⟩
  · rw [List.mem_cons, h.mem_iff, allocated_update hfree]
    split <;> simp [*]
  · rcases List.mem_cons.mp hfd with rfl | hfd
    · exact ⟨_, hself, by simp [hfiles, slot_push]⟩
    · obtain ⟨fh, hfh, hslot⟩ := h.file fd hfd
      refine ⟨fh, (hold fd hfd).trans hfh, ?_⟩
      rw [hfiles, slot_push]
      split
      · simp
      · exact hslot
  · rcases List.mem_cons.mp hfd with rfl | hfd <;> rcases List.mem_cons.mp hfd' with rfl | hfd'
    · rfl
    · exact absurd (he.symm.trans hself) (hlt fd' hfd')
    · exact absurd (he.trans hself) (hlt fd hfd)
    · rw [hold fd hfd, hold fd' hfd'] at he
      exact h.apart fd hfd fd' hfd' he
  · rw [State.openFiles, hfiles, count_push]
    exact congrArg (· + 1) h.count

private theorem Wired.closeSlot {fh : Nat} (h : Wired w opened) (hfd : fd ∈ opened)
    (hfh : (w.fis fd.toNat).fh = some fh) (hfiles : w'.fs.files = clear w.fs.files fh) (hsane : w'.fs.Sane)
    (hfree : w'.freefd = Function.update w.freefd fd.toNat false) (hfis : w'.fis = w.fis) :
    Wired w' (opened.erase fd) := by
  have herase : ∀ fd', fd' ∈ opened.erase fd ↔ fd' ≠ fd ∧ fd' ∈ opened := fun fd' => h.nodup.mem_erase_iff
  have hcast : (fd.toNat : Int) = fd := Int.toNat_of_nonneg (h.nonneg hfd)
  refine ⟨h.nodup.erase fd, fun fd' => ?_, fun fd' hfd' => ?_, fun fd' hfd' fd'' hfd'' he => ?_, ?_, hsane⟩
  · rw [herase, h.mem_iff, allocated_update hfree, hcast]
    split <;> simp [*]
  · obtain ⟨hne, hfd'⟩ := (herase fd').mp hfd'
    obtain ⟨fh', hfh', hslot⟩ := h.file fd' hfd'
    refine ⟨fh', hfis ▸ hfh', ?_⟩
    rw [hfiles, slot_clear, if_neg fun he => hne (h.apart fd' hfd' fd hfd ?_)]
    · exact hslot
    · rw [hfh', hfh, he]
  · rw [hfis] at he
    exact h.apart fd' ((herase fd').mp hfd').2 fd'' ((herase fd'').mp hfd'').2 he
  · obtain ⟨fh', hfh', hslot⟩ := h.file fd hfd
    obtain rfl := Option.some.inj (hfh.symm.trans hfh')
    obtain ⟨f, hf⟩ := Option.ne_none_iff_exists'.mp hslot
    rw [State.openFiles, hfiles, count_clear _ hf, List.length_erase_of_mem hfd]
    exact congrArg (· - 1) h.count

private theorem triple_getFileDescriptor {E : Stop → Scene → Prop} {i : Nat} (hi : i < FDLIMIT) :
    Triple E (fun s => Fine opened dirs s ∧ s.wrapper.freefd i = false) Wrapper.getFileDescriptor fun fd s =>
      ∃ i : Nat, fd = i ∧ Reserved opened dirs i s := by
  refine triple_get fun s hs => ?_
  split
  · rename_i i hfind
    have hfree : s.wrapper.freefd i = false := by simpa using List.find?_some hfind
    refine triple_bind (triple_modify fun _ he => ?_) fun _ => triple_pure fun _ hs => ⟨i, rfl, hs⟩
    subst he
    refine ⟨List.mem_range.mp (List.mem_of_find?_eq_some hfind), Function.update_self .., ?_⟩
    dsimp only
    rw [Function.update_idem, Function.update_eq_self_iff.mpr hfree.symm]
    exact hs.1
  · rename_i hfind
    have := List.find?_eq_none.mp hfind i (List.mem_range.mpr hi)
    simp [hs.2] at this

/-- No slot is free. -/
def Wrapper.Full (w : Wrapper) : Prop := ∀ i < FDLIMIT, w.freefd i = true

instance (w : Wrapper) : Decidable w.Full := inferInstanceAs (Decidable (∀ i < _, _))

private theorem Wrapper.exists_free (h : ¬ w.Full) : ∃ i < FDLIMIT, w.freefd i = false := by
  simpa [Wrapper.Full] using h

private theorem Wired.full_iff (h : Wired w opened) : w.Full ↔ ∀ i < FDLIMIT, (i : Int) ∈ opened := by
  refine forall₂_congr fun i hi => ?_
  rw [h.mem_iff, Wrapper.Allocated, Int.toNat_natCast]
  exact ⟨fun ht => ⟨Int.natCast_nonneg i, Int.ofNat_lt.mpr hi, ht⟩, fun ht => ht.2.2⟩

private theorem triple_getFileDescriptor_full {E : Stop → Scene → Prop} :
    Triple E (fun s => s.wrapper.Full) Wrapper.getFileDescriptor fun fd _ => fd = -1 := by
  refine triple_get fun s hs => ?_
  split
  · rename_i i hfind
    have hfree := List.find?_some hfind
    simp [hs i (List.mem_range.mp (List.mem_of_find?_eq_some hfind))] at hfree
  · exact triple_pure fun _ _ => rfl

theorem Reserved.fresh {i : Nat} (h : Reserved opened dirs i s) : (i : Int) ∉ opened := fun hmem => by
  have hfree : Function.update s.wrapper.freefd i false i = true := ((h.fine.wired.mem_iff i).mp hmem).2.2
  rw [Function.update_self] at hfree
  cases hfree

private theorem Reserved.allocated {i : Nat} (h : Reserved opened dirs i s) : s.wrapper.Allocated i :=
  ⟨Int.natCast_nonneg i, Int.ofNat_lt.mpr h.lt, h.taken⟩

private theorem triple_request_open {i : Nat} (hs : Reserved opened dirs i s) (hoffset : s.wrapper.offsets i = 0)
    (path : CString) (flags : OpenFlags) :
    Triple Calm (fun s' => s' = s) (Wrapper.request (.openFile path flags)) fun x s' =>
      (¬ s.wrapper.fs.Leads path ∧ x.2.ret ≠ 0 ∧ Reserved opened dirs i s') ∨
      (s.wrapper.fs.Leads path ∧ x.2.ret = 0 ∧ Positioned (i :: opened) dirs i s.wrapper.fs.files.length 0
        { s' with wrapper.fis := Function.update s'.wrapper.fis i { s'.wrapper.fis i with fh := x.2.fh } }) := by
  refine triple_request_of fun s' env _ he => ?_
  subst he
  have hsane : (step s'.wrapper.fs (env, .openFile path flags)).1.Sane := hs.fine.wired.sane.step fun _ _ => nofun
  have hfree : s'.wrapper.freefd = Function.update (Function.update s'.wrapper.freefd i false) i true := by
    rw [Function.update_idem, Function.update_eq_self_iff.mpr hs.taken.symm]
  rcases openFile_cases hs.fine.wired.sane.counted path flags with
    ⟨hleads, hret, hstay⟩ | ⟨hleads, hret, hfh, f, hfiles, hdirs⟩
  · exact .inl ⟨hleads, hret, hs.lt, hs.taken, hs.fine.wired.congr rfl (fun _ _ => rfl) hstay.toKeepsFiles hsane,
      hstay.openDirs.trans hs.fine.dirs⟩
  · refine .inr ⟨hleads, hret, ⟨hs.fine.wired.openSlot hs.lt hs.fresh hfiles hsane hfree ?_, ?_⟩, ?_, hoffset⟩
    · exact congrArg (fun fh => Function.update s'.wrapper.fis i { s'.wrapper.fis i with fh := fh }) hfh
    · exact (congrArg (count fun _ => true) hdirs).trans hs.fine.dirs
    · exact (congrArg FileInfo.fh (Function.update_self ..)).trans hfh

private theorem triple_release_reserved {E : Stop → Scene → Prop} (i : Nat) :
    Triple E (Reserved opened dirs i) (Wrapper.releaseFileDescriptor i) fun _ => Fine opened dirs := by
  unfold Wrapper.releaseFileDescriptor
  refine triple_bind (triple_use fun _ hs => hs.allocated) fun j => triple_modify fun s hs => ?_
  obtain ⟨rfl, hs⟩ := hs
  exact hs.fine

private theorem fh_setFlags (fis : Nat → FileInfo) (i : Nat) (flags : OpenFlags) (j : Nat) :
    (Function.update fis i { fis i with flags := flags } j).fh = (fis j).fh := by
  by_cases h : j = i
  · rw [h, Function.update_self]
  · rw [Function.update_of_ne h]

/-- Setting the path, the offset and the flags of the slot. -/
theorem Reserved.set {i : Nat} (h : Reserved opened dirs i s) {w : Wrapper} (hfs : w.fs = s.wrapper.fs)
    (hfree : w.freefd = s.wrapper.freefd) (hfis : ∀ j, (w.fis j).fh = (s.wrapper.fis j).fh) :
    Reserved opened dirs i { s with wrapper := w } := by
  refine ⟨h.lt, hfree ▸ h.taken, h.fine.wired.congr ?_ (fun fd _ => hfis fd.toNat) ?_ ?_, ?_⟩
  · exact congrArg (fun f => Function.update f i false) hfree
  · exact keepsFiles_of_eq (congrArg State.files hfs)
  · exact hfs ▸ h.fine.wired.sane
  · exact hfs ▸ h.fine.dirs

/-- Open stands for one request. It gives a descriptor that no one holds if the path leads to an
inode, or -1 and leaves the table as it was. -/
private theorem mirrors_openFile (hs : Fine opened dirs s) (hfree : ¬ s.wrapper.Full) (path : CString)
    (flags : OpenFlags) :
    Mirrors Scene.behind Halted (fun s' => s' = s) (Wrapper.openFile path flags)
      (Requests.ask (.openFile path flags)) fun fd _ s' =>
      (¬ s.wrapper.fs.Leads path ∧ fd = -1 ∧ Fine opened dirs s') ∨
      (s.wrapper.fs.Leads path ∧ fd ≠ -1 ∧ Positioned (fd :: opened) dirs fd s.wrapper.fs.files.length 0 s') := by
  unfold Wrapper.openFile
  obtain ⟨i, hi, hfree⟩ := Wrapper.exists_free hfree
  have htriple : Triple (fun _ _ => False) (fun s => Fine opened dirs s ∧ s.wrapper.freefd i = false)
      Wrapper.getFileDescriptor fun fd s => ∃ i : Nat, fd = i ∧ Reserved opened dirs i s := triple_getFileDescriptor hi
  have hreserve := htriple.keep behind_getFileDescriptor (t := s.behind)
  refine mirrors_skip (hreserve.start ⟨⟨hs, hfree⟩, rfl⟩) behind_getFileDescriptor fun fd =>
    mirrors_of_forall fun s1 hs1 => ?_
  obtain ⟨⟨i, rfl, hr⟩, hbehind⟩ := hs1
  have hfs : s1.wrapper.fs = s.wrapper.fs := congrArg Prod.fst hbehind
  refine mirrors_skip (triple_use fun _ he => he ▸ hr.allocated) (behind_use i) fun j => ?_
  refine mirrors_of_forall fun s2 hs2 => ?_
  obtain ⟨hj, he⟩ := hs2
  obtain rfl : j = i := hj
  subst he
  refine mirrors_skip (Q := fun _ s' => Reserved opened dirs j s' ∧ s'.wrapper.offsets j = 0 ∧
    s'.wrapper.fs = s.wrapper.fs)
    (triple_modify fun s' he => ?_) (fun _ => rfl) fun _ => mirrors_of_forall fun s' hs' => ?_
  · subst he
    exact ⟨hr.set rfl rfl (fh_setFlags s'.wrapper.fis j flags), Function.update_self .., hfs⟩
  obtain ⟨hr, hoffset, hfs⟩ := hs'
  rw [← hfs]
  refine (mirrors_request (triple_request_open hr hoffset path flags)).followed (fun x _ => ?_) fun x s => ?_
  · split
    · rename_i hret
      refine triple_of_forall fun s hs => ?_
      obtain ⟨hleads, _, hs⟩ := hs.2.resolve_right fun h => hret h.2.1
      exact triple_bind ((triple_release_reserved j).start hs) fun _ => triple_pure fun _ hs => .inl ⟨hleads, rfl, hs⟩
    · rename_i hret
      refine triple_of_forall fun s hs => ?_
      obtain ⟨hleads, _, hs⟩ := hs.2.resolve_left fun h => hret h.2.1
      refine triple_bind (Q := fun _ => Positioned (j :: opened) dirs j s'.wrapper.fs.files.length 0)
        (triple_modify fun _ he => he ▸ hs) fun _ => triple_pure fun _ hs => .inr ⟨hleads, by omega, hs⟩
  · split
    · exact view_bind (behind_releaseFileDescriptor j) (fun _ _ => rfl) s
    · rfl

private theorem triple_openFile (hs : Fine opened dirs s) (hfree : ¬ s.wrapper.Full) (path : CString)
    (flags : OpenFlags) :
    Triple Calm (fun s' => s' = s) (Wrapper.openFile path flags) fun fd s' =>
      (fd = -1 ∧ Fine opened dirs s') ∨ (fd ≠ -1 ∧ Fine (fd :: opened) dirs s') :=
  ((mirrors_openFile hs hfree path flags).triple.relax fun _ _ => Halted.calm).post fun _ _ ⟨_, h⟩ =>
    h.imp And.right fun h => ⟨h.2.1, h.2.2.toFine⟩

private theorem triple_openFile_full {Q : Int → Scene → Prop} (path : CString) (flags : OpenFlags) :
    Triple Astray (fun s => s.wrapper.Full) (Wrapper.openFile path flags) Q := by
  unfold Wrapper.openFile
  refine triple_bind triple_getFileDescriptor_full fun fd => triple_of_forall fun s hs => ?_
  subst hs
  exact triple_use_bad.stops_bind

private theorem triple_request_release (dirs fh : Nat) (h : fd ∈ opened) :
    Triple Calm (fun s => Fine opened dirs s ∧ (s.wrapper.fis fd.toNat).fh = some fh) (Wrapper.request (.release fh))
      fun x s => x.2.ret = 0 ∧ s.wrapper.Allocated fd ∧ Fine (opened.erase fd) dirs
        { s with wrapper.freefd := Function.update s.wrapper.freefd fd.toNat false } := by
  refine triple_request_of fun s env _ ⟨hs, hfh⟩ => ?_
  have hsane : (step s.wrapper.fs (env, .release fh)).1.Sane := hs.wired.sane.step fun _ _ => nofun
  obtain ⟨fh', hfh', hslot⟩ := hs.wired.file fd h
  obtain rfl := Option.some.inj (hfh.symm.trans hfh')
  obtain ⟨hret, hfiles, hdirs⟩ := release_open hs.wired.sane env hslot
  exact ⟨hret, hs.allocated h, hs.wired.closeSlot h hfh hfiles hsane rfl rfl,
    (congrArg (count fun _ => true) hdirs).trans hs.dirs⟩

/-- Close stands for one request and takes the descriptor back; its message, which would name a slot
just freed, is not reached. -/
private theorem mirrors_close {fh : Nat} (h : fd ∈ opened) (hs : Fine opened dirs s)
    (hfh : (s.wrapper.fis fd.toNat).fh = some fh) :
    Mirrors Scene.behind Halted (fun s' => s' = s) (Wrapper.close fd) (Requests.ask (.release fh)) fun _ _ =>
      Fine (opened.erase fd) dirs := by
  refine mirrors_skip (triple_use fun _ he => he ▸ hs.allocated h) (behind_use fd) fun i =>
    mirrors_get_left fun s' hs' => ?_
  obtain ⟨rfl, he⟩ := hs'
  subst he
  rw [hfh]
  dsimp only
  refine (mirrors_request ((triple_request_release dirs fh h).start ⟨hs, hfh⟩)).followed (fun x _ => ?_) fun x s => ?_
  · refine triple_of_forall fun s hs => ?_
    obtain ⟨_, hret, halloc, hs⟩ := hs
    refine triple_bind (Q := fun _ => Fine (opened.erase fd) dirs) ?_ fun _ => ?_
    · refine triple_bind (triple_use fun _ he => he ▸ halloc) fun j => triple_modify fun s' hs' => ?_
      obtain ⟨rfl, he⟩ := hs'
      exact he ▸ hs
    · rw [if_neg (not_not_intro hret)]
      exact triple_pure fun _ hs => hs
  · refine view_bind (behind_releaseFileDescriptor fd) (fun _ s => ?_) s
    split
    · exact view_bind (behind_report fd) (fun _ _ => rfl) s
    · rfl

private theorem triple_close (h : fd ∈ opened) :
    Triple Calm (Fine opened dirs) (Wrapper.close fd) fun _ => Fine (opened.erase fd) dirs := by
  refine triple_of_forall fun s hs => ?_
  obtain ⟨fh, hfh, _⟩ := hs.wired.file fd h
  exact ((mirrors_close h hs hfh).triple.relax fun _ _ => Halted.calm).post fun _ _ ⟨_, hs⟩ => hs

private theorem mirrors_scanLoop (h : fd ∈ opened) (st_size rounds fh : Nat) (read_size : Int) (offset : Nat) :
    Mirrors Scene.behind Halted (Positioned opened dirs fd fh offset) (Wrapper.scanLoop fd st_size rounds read_size)
      (Requests.readThrough fh st_size rounds read_size offset) fun _ _ s => ∃ offset,
        Positioned opened dirs fd fh offset s := by
  induction rounds generalizing read_size offset with
  | zero => exact mirrors_stop ⟨nofun, rfl⟩
  | succ n ih =>
    unfold Wrapper.scanLoop Requests.readThrough
    split
    · refine mirrors_bind (mirrors_of_forall fun s hs => mirrors_transfer h (fun _ _ _ => rfl) hs) fun ret x => ?_
      refine mirrors_of_forall fun s hs => ?_
      obtain ⟨rfl, hs⟩ := hs
      split
      · exact mirrors_pure fun _ he => ⟨_, he ▸ hs⟩
      · exact (ih _ _).start hs
    · exact mirrors_pure fun _ hs => ⟨offset, hs⟩

private theorem triple_scan_bad {P : Scene → Prop} {Q : Unit → Scene → Prop} (st_size rounds : Nat) (read_size : Int) :
    Triple Astray P
      (Wrapper.scanLoop (-1) st_size (rounds + 1) read_size >>= fun _ => Wrapper.close (-1) >>= fun _ => pure ())
        Q := by
  refine triple_bind (Q := fun _ _ => True) ?_ fun _ => Triple.stops_bind ?_
  · unfold Wrapper.scanLoop
    split
    · exact triple_use_bad.stops_bind.stops_bind
    · exact triple_pure fun _ _ => trivial
  · exact triple_use_bad.stops_bind

/-- The call stops at the index -1 just where its requests come to a name that cannot be read. -/
def Matched (e : Stop) (e' : ScanStop) : Prop := Halted e e' ∨ e = .badIndex (-1) ∧ e' = .unreadable

private theorem mirrors_stat (path : CString) :
    Mirrors Scene.behind Halted (Fine opened dirs) (Wrapper.stat path) (Requests.sizeOf path) fun st st_size s =>
      st_size = st.2.st_size ∧ Fine opened dirs s := by
  refine mirrors_bind (mirrors_request (triple_request rfl)) fun x y => mirrors_pure fun s hs => ?_
  obtain ⟨rfl, hs⟩ := hs
  exact ⟨rfl, hs⟩

private theorem mirrors_scanfileFiller {slotFree : Bool}
    (hslot : slotFree = true ↔ ¬ ∀ i < FDLIMIT, (i : Int) ∈ opened) (path : CString) :
    Mirrors Scene.behind Matched (Fine opened dirs) (Wrapper.scanfileFiller path)
      (Requests.readName slotFree path) fun _ _ =>
      Fine opened dirs := by
  unfold Wrapper.scanfileFiller Requests.readName
  refine mirrors_bind ((mirrors_stat path).relax fun _ _ => .inl) fun st st_size => mirrors_get_right fun s hs => ?_
  obtain ⟨rfl, hs⟩ := hs
  by_cases hfull : s.wrapper.Full
  · have hslot : slotFree = false := Bool.eq_false_iff.mpr fun ht => hslot.mp ht (hs.wired.full_iff.mp hfull)
    rw [if_pos hslot]
    exact mirrors_stops (((triple_openFile_full path {}).start hfull).stops_bind.relax fun _ _ he => .inr ⟨he, rfl⟩)
  · have hslot : slotFree = true := hslot.mpr fun h => hfull (hs.wired.full_iff.mpr h)
    rw [if_neg (by simp [hslot])]
    refine mirrors_bind ((mirrors_openFile hs hfull path {}).relax fun _ _ => .inl) fun fd _ =>
      mirrors_of_forall fun s' hs' => ?_
    rcases hs' with ⟨hleads, rfl, _⟩ | ⟨hleads, _, hs'⟩
    · have hbehind : ¬ s.behind.1.Leads path := hleads
      rw [if_pos hbehind]
      exact mirrors_stops ((triple_get fun s _ => triple_scan_bad _ _ _).relax fun _ _ he => .inr ⟨he, rfl⟩)
    · have hbehind : ¬ ¬ s.behind.1.Leads path := not_not_intro hleads
      rw [if_neg hbehind]
      refine mirrors_get_left fun s1 he => mirrors_get_right fun _ he' => ?_
      subst he he'
      have hmem : fd ∈ fd :: opened := List.mem_cons_self
      have hclose : Mirrors Scene.behind Halted
          (fun s1 => ∃ offset, Positioned (fd :: opened) dirs fd s.wrapper.fs.files.length offset s1)
          (Wrapper.close fd) (Requests.ask (.release s.wrapper.fs.files.length)) fun _ _ => Fine opened dirs := by
        refine mirrors_of_forall fun s1 ⟨_, hs1⟩ => ?_
        have hout := mirrors_close hmem hs1.toFine hs1.handle
        rwa [List.erase_cons_head] at hout
      exact Mirrors.relax (mirrors_bind ((mirrors_scanLoop hmem _ _ _ _ _).start hs') fun _ _ =>
        mirrors_bind hclose fun _ _ => mirrors_pure fun _ hs => hs) fun _ _ => .inl

private theorem triple_request_openDir (hs : Fine opened dirs s) (path : CString) :
    Triple Calm (fun s' => s' = s) (Wrapper.request (.openDir path)) fun x s' =>
      (¬ s.wrapper.fs.Leads path ∧ x.2.fh = none ∧ Fine opened dirs s') ∨
      (s.wrapper.fs.Leads path ∧ x.2.ret = 0 ∧ x.2.fh ≠ none ∧ Fine opened (dirs + 1) s') := by
  refine triple_request_of fun s' env _ he => ?_
  subst he
  have hsane : (step s'.wrapper.fs (env, .openDir path)).1.Sane := hs.wired.sane.step fun _ _ => nofun
  rcases openDir_cases hs.wired.sane.counted env path with ⟨hleads, hfh, hstay⟩ | ⟨hleads, hret, hfh, hfiles, hdirs⟩
  · exact .inl ⟨hleads, hfh, hs.wired.congr rfl (fun _ _ => rfl) hstay.toKeepsFiles hsane, hstay.openDirs.trans hs.dirs⟩
  · exact .inr ⟨hleads, hret, hfh, hs.wired.congr rfl (fun _ _ => rfl) (keepsFiles_of_eq hfiles) hsane,
      hdirs.trans (congrArg (· + 1) hs.dirs)⟩

private theorem triple_listing {E : Stop → Scene → Prop} (hE : ∀ e s, Calm e s → E e s) (hs : Fine opened dirs s)
    (path : CString) {filler : List UInt8 → Call Unit}
    (hfiller : s.wrapper.fs.Leads path → ∀ name, Triple E (Fine opened (dirs + 1)) (filler name) fun _ => Fine opened (dirs + 1)) :
    Triple E (fun s' => s' = s) (Wrapper.listing path filler) fun _ s' =>
      (s.wrapper.fs.Leads path → Fine opened (dirs + 1) s') ∧ (¬ s.wrapper.fs.Leads path → Fine opened dirs s') := by
  unfold Wrapper.listing
  refine triple_bind ((triple_request_openDir hs path).relax hE) fun x => triple_of_forall fun s' hs' => ?_
  rcases hs' with ⟨hleads, hfh, hs'⟩ | ⟨hleads, hret, hfh, hs'⟩
  · split
    · exact triple_pure fun _ he => ⟨fun h => absurd h hleads, fun _ => he ▸ hs'⟩
    · rw [hfh]
      exact triple_stop fun _ _ => hE _ _ nofun
  · obtain ⟨fh, hfh⟩ := Option.ne_none_iff_exists'.mp hfh
    rw [if_neg (not_not_intro hret), hfh]
    dsimp only
    refine triple_bind (((triple_request rfl).start hs').relax hE) fun y =>
      triple_bind (triple_forEach fun name _ => hfiller hleads name) fun _ => ?_
    split <;> exact triple_pure fun _ hs => ⟨fun _ => hs, fun h => absurd hleads h⟩

private theorem mirrors_scanfile (hs : Fine opened dirs s) {slotFree : Bool}
    (hslot : slotFree = true ↔ ¬ s.wrapper.Full) {path : CString} (hleads : s.wrapper.fs.Leads path) :
    Mirrors Scene.behind Matched (fun s' => s' = s) (Wrapper.scanfile path)
      (Requests.readNames slotFree path) fun _ _ =>
      Fine opened (dirs + 1) := by
  rw [hs.wired.full_iff] at hslot
  unfold Wrapper.scanfile Wrapper.listing Requests.readNames
  refine mirrors_bind ((mirrors_request (triple_request_openDir hs path)).relax fun _ _ => .inl) fun x y =>
    mirrors_of_forall fun s' hs' => ?_
  obtain ⟨rfl, hs'⟩ := hs'
  obtain ⟨_, hret, hfh, hs'⟩ := hs'.resolve_left fun h => h.1 hleads
  obtain ⟨fh, hfh⟩ := Option.ne_none_iff_exists'.mp hfh
  rw [if_neg (not_not_intro hret), hfh]
  dsimp only
  refine mirrors_bind (((mirrors_request (triple_request rfl)).start hs').relax fun _ _ => .inl) fun y y' =>
    mirrors_of_forall fun s1 hs1 => ?_
  obtain ⟨rfl, hs1⟩ := hs1
  refine Mirrors.followed (Q := fun _ _ => Fine opened (dirs + 1)) ?_ (fun _ _ => ?_) fun _ s => ?_
  · exact (mirrors_forEach fun name _ => mirrors_scanfileFiller hslot (Wrapper.under path name)).start hs1
  · split <;> exact triple_pure fun _ hs => hs
  · split <;> rfl

private theorem alike_unreadable_iff {α β : Type} {Q : α → β → Scene → Prop} {o : Except Stop α × Scene}
    {o' : Except ScanStop β × (State × List Env)} (h : Alike Scene.behind Matched Q o o') :
    (∃ fd, o.1 = .error (.badIndex fd)) ↔ o'.1 = .error .unreadable := by
  rcases o with ⟨e | a, s⟩ <;> rcases o' with ⟨e' | b, t⟩
  · rcases h with ⟨hne, rfl⟩ | ⟨rfl, rfl⟩
    · exact iff_of_false (fun ⟨fd, he⟩ => hne fd (Except.error.inj he)) nofun
    · exact iff_of_true ⟨-1, rfl⟩ rfl
  · exact h.elim
  · exact h.elim
  · exact iff_of_false nofun nofun

private theorem not_unreadable {fs : State} (hs : fs.Counted) {path : CString} (hleads : ¬ fs.Leads path)
    (envs : List Env) (slotFree : Bool) :
    ¬ fs.Unreadable envs slotFree path := by
  unfold State.Unreadable Requests.readNames
  change (andThen (Requests.ask (.openDir path)) _ (fs, envs)).1 ≠ _
  unfold andThen Requests.ask
  cases envs with
  | nil => exact nofun
  | cons env envs =>
    obtain ⟨_, hfh, _⟩ := (openDir_cases hs env path).resolve_right fun h => hleads h.1
    dsimp only [step]
    rw [hfh]
    exact nofun

private theorem use_unheld {α : Type} {f : Nat → Call α} (h : Wired s.wrapper opened) (hfd : fd ∉ opened) :
    (Wrapper.use fd >>= f) s = (.error (.badIndex fd), s) := by
  change andThen (Wrapper.use fd) f s = _
  rw [andThen, Wrapper.use, if_neg fun ha => hfd ((h.mem_iff fd).mpr ha)]

/-- The call lists a directory that is there: its path leads to an inode before the call. -/
def WrapperCall.Lists (c : WrapperCall) (fs : State) : Prop := ∃ path, c.listed = some path ∧ fs.Leads path

/-- What a call that returns leaves behind. -/
structure Served (opened : List Int) (dirs : Nat) (c : WrapperCall) (s : Scene) (ret : Int) (s' : Scene) : Prop where
  listed : c.Lists s.wrapper.fs → Fine (c.held opened ret) (dirs + 1) s'
  unlisted : ¬ c.Lists s.wrapper.fs → Fine (c.held opened ret) dirs s'

private theorem Served.of_fine {c : WrapperCall} {ret : Int} {s' : Scene} (hlisted : c.listed = none)
    (h : Fine (c.held opened ret) dirs s') : Served opened dirs c s ret s' :=
  ⟨fun hc => by simp [WrapperCall.Lists, hlisted] at hc, fun _ => h⟩

private theorem Served.of_listing {c : WrapperCall} {ret : Int} {s' : Scene} {path : CString}
    (hlisted : c.listed = some path) (hheld : c.held opened ret = opened)
    (h : (s.wrapper.fs.Leads path → Fine opened (dirs + 1) s') ∧ (¬ s.wrapper.fs.Leads path → Fine opened dirs s')) :
    Served opened dirs c s ret s' := by
  have hiff : c.Lists s.wrapper.fs ↔ s.wrapper.fs.Leads path := by simp [WrapperCall.Lists, hlisted]
  refine ⟨fun hc => ?_, fun hc => ?_⟩
  · rw [hheld]
    exact h.1 (hiff.mp hc)
  · rw [hheld]
    exact h.2 fun ho => hc (hiff.mpr ho)

/-- Callers give only descriptors that they hold. -/
def WrapperCall.Minds (c : WrapperCall) (opened : List Int) : Prop := ∀ fd, c.given = some fd → fd ∈ opened

/-- The calls that open no file themselves. -/
def WrapperCall.plain : WrapperCall → Bool
  | .openFile _ _ => false
  | .scanfile _ => false
  | _ => true

private theorem triple_create (path : CString) {op : Op} (hop : op.still = true) :
    Triple Calm (Fine opened dirs) (Wrapper.create path op) fun _ => Fine opened dirs := by
  refine triple_bind (triple_stat path) fun st => ?_
  split
  · exact triple_pure fun _ hs => hs
  · exact triple_bind (triple_request hop) fun _ => triple_bind (triple_stat path) fun _ => triple_pure fun _ hs => hs

private theorem triple_plain {c : WrapperCall} (hs : Fine opened dirs s) (hc : c.plain = true)
    (hminds : c.Minds opened) :
    Triple Calm (fun s' => s' = s) c.program (Served opened dirs c s) := by
  cases c with
  | mknod path mode dev => exact ((triple_create path rfl).start hs).post fun _ _ h => .of_fine rfl h
  | mkdir path mode => exact ((triple_create path rfl).start hs).post fun _ _ h => .of_fine rfl h
  | utime path actime modtime nsec =>
    exact triple_bind ((triple_request rfl).start hs) fun _ => triple_pure fun _ h => .of_fine rfl h
  | chmod path mode =>
    exact triple_bind ((triple_stat path).start hs) fun _ => triple_bind (triple_request rfl) fun _ =>
      triple_bind (triple_stat path) fun _ => triple_pure fun _ h => .of_fine rfl h
  | stat path => exact triple_bind ((triple_stat path).start hs) fun _ => triple_pure fun _ h => .of_fine rfl h
  | seek fd offset =>
    exact ((triple_seek (hminds fd rfl) offset).start hs).post fun _ _ h => .of_fine rfl h
  | write fd buf =>
    exact ((triple_write (hminds fd rfl) buf).start hs).post fun _ _ h => .of_fine rfl h
  | read fd size =>
    exact ((triple_read (hminds fd rfl) size).start hs).post fun _ _ h => .of_fine rfl h
  | listdir path =>
    exact (triple_listing (fun _ _ h => h) hs path fun _ _ => triple_pure fun _ h => h).post
      fun _ _ h => .of_listing rfl rfl h
  | lsstat path =>
    exact (triple_listing (fun _ _ h => h) hs path fun _ name =>
      triple_bind (triple_stat _) fun _ => triple_pure fun _ h => h).post fun _ _ h => .of_listing rfl rfl h
  | rename old_path new_path =>
    exact triple_bind ((triple_request rfl).start hs) fun _ => triple_pure fun _ h => .of_fine rfl h
  | unlink path => exact triple_bind ((triple_request rfl).start hs) fun _ => triple_pure fun _ h => .of_fine rfl h
  | close fd => exact ((triple_close (hminds fd rfl)).start hs).post fun _ _ h => .of_fine rfl h
  | openFile path flags => cases hc
  | scanfile path => cases hc

private theorem triple_open_call (hs : Fine opened dirs s) (path : CString) (flags : OpenFlags)
    (hfree : ¬ s.wrapper.Full) :
    Triple Calm (fun s' => s' = s) (WrapperCall.openFile path flags).program
      (Served opened dirs (.openFile path flags) s) := by
  refine (triple_openFile hs hfree path flags).post fun fd s' h => .of_fine rfl ?_
  rw [WrapperCall.held]
  rcases h with ⟨rfl, h⟩ | ⟨hne, h⟩
  · exact h
  · rwa [if_neg hne]

/-- A stop at the index -1 or at no bad index. -/
def Stopped (e : Stop) (s : Scene) : Prop := Calm e s ∨ Astray e s

private theorem triple_scanfile (hs : Fine opened dirs s) (path : CString) :
    Triple Stopped (fun s' => s' = s) (WrapperCall.scanfile path).program (Served opened dirs (.scanfile path) s) := by
  refine (triple_listing (fun _ _ => .inl) hs path fun _ name => ?_).post fun _ _ h => .of_listing rfl rfl h
  refine Triple.post (Triple.relax (mirrors_scanfileFiller decide_eq_true_iff _).triple fun e s h => ?_) fun _ _ ⟨_, h⟩ => h
  obtain ⟨_, h | h⟩ := h
  · exact .inl h.1
  · exact .inr h.1

section
variable {α : Type} {Q : α → Scene → Prop} {o : Except Stop α × Scene}

private theorem ne_badIndex_of_calm (h : Ends Calm Q o) (fd : Int) : o.1 ≠ .error (.badIndex fd) := by
  rcases o with ⟨e | a, s⟩
  · exact fun he => h fd (Except.error.inj he)
  · exact nofun

private theorem badIndex_of_astray (h : Ends Astray (fun _ _ => False) o) : o.1 = .error (.badIndex (-1)) := by
  rcases o with ⟨e | a, s⟩
  · exact congrArg Except.error h
  · exact h.elim

end

private theorem program_unheld {c : WrapperCall} (hs : Wired s.wrapper opened) (hgiven : c.given = some fd)
    (hfd : fd ∉ opened) :
    (c.program s).1 = .error (.badIndex fd) := by
  cases c with
  | seek | write | read | close =>
    cases hgiven
    exact congrArg Prod.fst (use_unheld hs hfd)
  | mknod | mkdir | utime | chmod | stat | openFile | listdir | lsstat | scanfile | rename | unlink => cases hgiven

private theorem triple_program {c : WrapperCall} (hs : Fine opened dirs s) (hminds : c.Minds opened) :
    Triple Stopped (fun s' => s' = s) c.program (Served opened dirs c s) := by
  cases hc : c.plain with
  | true => exact (triple_plain hs hc hminds).relax fun _ _ => .inl
  | false =>
    cases c with
    | openFile path flags =>
      by_cases hfull : s.wrapper.Full
      · exact ((triple_openFile_full path flags).start hfull).relax fun _ _ => .inr
      · exact (triple_open_call hs path flags hfull).relax fun _ _ => .inl
    | scanfile path => exact triple_scanfile hs path
    | _ => cases hc

end

namespace Session

/-- The call needs a slot and none is free, or it lists a directory with a name that cannot be read. -/
def Troubled (s : Session) (c : List Env × WrapperCall) : Prop :=
  match c.2 with
  | .openFile _ _ => s.wrapper.Full
  | .scanfile path => s.wrapper.fs.Unreadable c.1 (decide (¬ s.wrapper.Full)) path
  | _ => False

def Returns (s : Session) (c : List Env × WrapperCall) : Prop := (s.serve c).2.isOk = true

instance (s : Session) (c : List Env × WrapperCall) : Decidable (s.Returns c) := inferInstanceAs (Decidable (_ = _))

/-- The call uses an index that is out of bounds or of a free slot. -/
def Strays (s : Session) (c : List Env × WrapperCall) : Prop := ∃ fd, (s.serve c).2 = .error (.badIndex fd)

variable {s : Session} {c : List Env × WrapperCall}

private theorem serve_snd (s : Session) (c : List Env × WrapperCall) :
    (s.serve c).2 = (c.2.program (s.scene c.1)).1 := by
  unfold serve
  rcases c.2.program (s.scene c.1) with ⟨_ | ret, s'⟩ <;> rfl

private theorem fine (hs : Wired s.wrapper s.opened) (envs : List Env) :
    Fine s.opened s.wrapper.fs.openDirs (s.scene envs) :=
  ⟨hs, rfl⟩

instance (s : Session) (envs : List Env) (path : CString) : Decidable (s.Troubled (envs, .scanfile path)) :=
  inferInstanceAs (Decidable (State.Unreadable ..))

private theorem troubled_plain (hc : c.2.plain = true) : ¬ s.Troubled c := by
  rcases c with ⟨envs, call⟩
  cases call with
  | openFile | scanfile => cases hc
  | _ => exact id

private theorem strays_iff (hs : Wired s.wrapper s.opened) (hminds : c.2.Minds s.opened) :
    s.Strays c ↔ s.Troubled c := by
  unfold Strays
  rw [serve_snd]
  have hfine := fine hs c.1
  cases hc : c.2.plain with
  | true =>
    have hout := (triple_plain hfine hc hminds).ends _ rfl
    exact iff_of_false (fun ⟨fd, he⟩ => ne_badIndex_of_calm hout fd he) (troubled_plain hc)
  | false =>
    rcases c with ⟨envs, call⟩
    cases call with
    | openFile path flags =>
      by_cases hfull : s.wrapper.Full
      · have hout := (triple_openFile_full (Q := fun _ _ => False) path flags).ends (s.scene envs) hfull
        exact iff_of_true ⟨-1, badIndex_of_astray hout⟩ hfull
      · have hout := (triple_open_call hfine path flags hfull).ends _ rfl
        exact iff_of_false (fun ⟨fd, he⟩ => ne_badIndex_of_calm hout fd he) hfull
    | scanfile path =>
      by_cases hleads : s.wrapper.fs.Leads path
      · exact alike_unreadable_iff ((mirrors_scanfile hfine decide_eq_true_iff hleads).alike _ rfl)
      · have hout : Ends Calm _ (Wrapper.scanfile path (s.scene envs)) :=
          (triple_listing (fun _ _ h => h) hfine path fun h => absurd h hleads).ends _ rfl
        exact iff_of_false (fun ⟨fd, he⟩ => ne_badIndex_of_calm hout fd he)
          (not_unreadable hs.sane.counted hleads envs _)
    | _ => cases hc

private theorem Returns.minds (h : s.Returns c) (hs : Wired s.wrapper s.opened) : c.2.Minds s.opened := by
  intro fd hgiven
  by_contra hfd
  have hbad := program_unheld (s := s.scene c.1) hs hgiven hfd
  rw [Returns, serve_snd, hbad] at h
  cases h

/-- What a call that returns leaves behind. -/
theorem serve_served (hs : Wired s.wrapper s.opened) (hr : s.Returns c) :
    ∃ ret s', s.serve c = (⟨s'.wrapper, c.2.held s.opened ret⟩, .ok ret) ∧
      Served s.opened s.wrapper.fs.openDirs c.2 (s.scene c.1) ret s' := by
  have hout := (triple_program (fine hs c.1) (hr.minds hs)).ends _ rfl
  rw [Returns] at hr
  unfold serve at hr ⊢
  rcases hp : c.2.program (s.scene c.1) with ⟨e | ret, s'⟩
  · rw [hp] at hr
    cases hr
  · rw [hp] at hout
    exact ⟨ret, s', rfl, hout⟩

theorem wired_serve (hs : Wired s.wrapper s.opened) (hr : s.Returns c) :
    Wired (s.serve c).1.wrapper (s.serve c).1.opened := by
  obtain ⟨ret, s', he, hserved⟩ := serve_served hs hr
  rw [he]
  by_cases hc : c.2.Lists s.wrapper.fs
  · exact (hserved.listed hc).wired
  · exact (hserved.unlisted hc).wired

theorem wired_start (vol : Volume) (config : Config) (env : Env) (mode : UInt32) (dev : Nat) (logon : Bool) :
    Wired (Wrapper.setup vol config env mode dev logon) [] where
  nodup := List.nodup_nil
  mem_iff fd := by simp [Wrapper.Allocated, Wrapper.setup]
  file := nofun
  apart := nofun
  count := rfl
  sane := ⟨(tidy_mount _ config env mode dev).counted, ownsFds_of_nil rfl rfl⟩

/-- Whatever calls were made, no two descriptors that callers hold are equal, and the slots that are
taken are theirs. A further call, given no descriptor but those, uses a bad index exactly if it is
an Open with all slots taken, or a Scanfile of a directory with a name for which there is no slot or
which leads to no inode. -/
theorem descriptor_table_safe_iff (vol : Volume) (config : Config) (env : Env) (mode : UInt32) (dev : Nat)
    (logon : Bool) (calls : List (List Env × WrapperCall))
    (hreturn : Allowed serve Returns (start (.setup vol config env mode dev logon)) calls)
    (c : List Env × WrapperCall) :
    let s := (run serve (start (.setup vol config env mode dev logon)) calls).1
    s.opened.Nodup ∧ (∀ fd, fd ∈ s.opened ↔ s.wrapper.Allocated fd) ∧
      (c.2.Minds s.opened → (s.Strays c ↔ s.Troubled c)) := by
  have hs := run_invariant (fun s : Session => Wired s.wrapper s.opened) (fun _ _ => wired_serve)
    (wired_start vol config env mode dev logon) hreturn
  exact ⟨hs.nodup, hs.mem_iff, strays_iff hs⟩

/-- A new file system of the source's cache sizes, and calls in calm surroundings. -/
def fresh : Session := start (.setup .blank (.source 4096) .calm S_IFDIR 0 false)

def calmCalls (calls : List WrapperCall) : List (List Env × WrapperCall) := calls.map (List.replicate 3 .calm, ·)

/-- The second half is a Scanfile that goes through: the names "." and ".." were made as files. -/
theorem descriptor_table_safe_iff_two :
    let calls := calmCalls [.mknod (inRoot [97]) 0 0, .openFile (inRoot [97]) {}, .openFile (inRoot [97]) {}]
    let s := (run serve fresh calls).1
    Allowed serve Returns fresh calls ∧ s.opened = [1, 0] ∧ s.opened.Nodup ∧
      ¬ s.Strays ([.calm], .close 1) ∧
      let dots := calmCalls [.mknod (inRoot [46]) 0 0, .mknod (inRoot [46, 46]) 0 0]
      Allowed serve Returns fresh dots ∧
        ¬ (run serve fresh dots).1.Strays (List.replicate 14 .calm, .scanfile (inRoot [])) := by
  have hdots : Allowed serve Returns fresh (calmCalls [.mknod (inRoot [46]) 0 0, .mknod (inRoot [46, 46]) 0 0]) := by
    decide +kernel
  obtain ⟨_, _, hscan⟩ := descriptor_table_safe_iff .blank (.source 4096) .calm S_IFDIR 0 false _ hdots
    (List.replicate 14 .calm, .scanfile (inRoot []))
  have hreturn : Allowed serve Returns fresh
      (calmCalls [.mknod (inRoot [97]) 0 0, .openFile (inRoot [97]) {}, .openFile (inRoot [97]) {}]) := by
        decide +kernel
  have hopened : (run serve fresh (calmCalls [.mknod (inRoot [97]) 0 0, .openFile (inRoot [97]) {},
      .openFile (inRoot [97]) {}])).1.opened = [1, 0] := by decide +kernel
  obtain ⟨hnodup, _, hstrays⟩ := descriptor_table_safe_iff .blank (.source 4096) .calm S_IFDIR 0 false _ hreturn
    ([.calm], .close 1)
  refine ⟨hreturn, hopened, hnodup, fun h => (hstrays ?_).mp h, hdots, fun h => ?_⟩
  · intro fd hfd
    cases hfd
    exact hopened ▸ List.mem_cons_self
  · exact absurd ((hscan nofun).mp h) (by decide +kernel)

/-- Scanfile of the root directory uses the index -1 for its entry ".", and so does an Open when 128
descriptors are open. -/
theorem descriptor_table_strays :
    (fresh.serve (List.replicate 4 .calm, .scanfile (inRoot []))).2 = .error (.badIndex (-1)) ∧
      (run serve fresh (calmCalls (.mknod (inRoot [97]) 0 0 :: List.replicate 129 (.openFile (inRoot [97]) {})))).2.getLast? =
        some (.error (.badIndex (-1))) := by
  decide +kernel

end Session
end TableFS
