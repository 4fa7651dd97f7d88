import TableFS.Invariants
import TableFS.DiskFrames

/-! What a request can do to the disk, for any paths, handles and outcomes of the system calls.
The threshold stays as it is. -/
namespace TableFS
open Slots Disk

/-- The disks that one request can leave. -/
inductive Touched (env : Env) (threshold : Nat) (d : Disk) : Disk → Prop where
  | same : Touched env threshold d d
  | opened (iheader : Header) (flags : OpenFlags) : Touched env threshold d (openDiskFile d iheader flags).1
  | read (v : Value) (fd : Option Nat) (flags : OpenFlags) (size offset : Nat) :
      Touched env threshold d (readValue env d v fd flags size offset).1
  | wrote (v : Value) (fd : Option Nat) (flags fi_flags : OpenFlags) (buf : List UInt8) (offset : Nat) :
      Touched env threshold d (writeValue env threshold d v fd flags fi_flags buf offset).1
  | truncated (v : Value) (new_size : Nat) : Touched env threshold d (truncateValue env threshold d v new_size).1
  | closed (fd : Option Nat) : Touched env threshold d (closeHandle d fd).1
  | unlinked (path : DiskPath) : Touched env threshold d (d.unlinkFile path)

/-- Only the caches and the counter of inode numbers may differ. -/
structure CachesOnly (s s' : State) : Prop where
  threshold : s'.threshold_ = s.threshold_
  disk : s'.disk = s.disk
  files : s'.files = s.files
  dirs : s'.dirs = s.dirs

/-- Requests that reach no data file and leave the open handles as they are. -/
def Op.cachesOnly : Op → Bool
  | .openFile _ _ => false
  | .read _ _ _ => false
  | .write _ _ _ _ => false
  | .release _ => false
  | .truncate _ _ => false
  | .unlink _ => false
  | .openDir _ => false
  | .releaseDir _ => false
  | _ => true

section
variable {s s' : State} {env : Env}

theorem CachesOnly.refl (s : State) : CachesOnly s s := ⟨rfl, rfl, rfl, rfl⟩

theorem cachesOnly_acquire {path : CString} {mode : InodeAccessMode} {o : Option (MetaKey × Nat × Value)}
    (h : s.acquire path mode = (s', o)) : CachesOnly s s' := by
  have hfst : CachesOnly s (s.acquire path mode).1 := by
    unfold State.acquire
    rw [State.lookup_eq]
    rcases s.found path with _ | x
    · exact ⟨rfl, rfl, rfl, rfl⟩
    · exact ⟨rfl, rfl, rfl, rfl⟩
  rw [h] at hfst
  exact hfst

private theorem cachesOnly_getInode {key : MetaKey} {mode : InodeAccessMode} {o : Option (Nat × Value)}
    (h : s.getInode key mode = (s', o)) : CachesOnly s s' := by
  obtain ⟨rfl, -⟩ := Prod.mk.inj h
  exact ⟨rfl, rfl, rfl, rfl⟩

private theorem cachesOnly_setAttribute (s : State) (path : CString) (f : Stat → Stat) :
    CachesOnly s (s.setAttribute path f).1 := by
  unfold State.setAttribute
  split <;> (rename_i heq; exact { cachesOnly_acquire heq with })

private theorem cachesOnly_create (s : State) (env : Env) (path : CString) (value : UInt64 → List UInt8 → Value) :
    CachesOnly s (s.create env path value).1 := by
  unfold State.create
  rw [State.lookup_eq]
  rcases s.found path with _ | x
  · exact ⟨rfl, rfl, rfl, rfl⟩
  · dsimp only
    split <;> exact ⟨rfl, rfl, rfl, rfl⟩

private theorem cachesOnly_readlink (s : State) (path : CString) (size : Nat) :
    CachesOnly s (s.readlink path size).1 := by
  unfold State.readlink
  rw [State.lookup_eq]
  rcases s.found path with _ | x
  · exact ⟨rfl, rfl, rfl, rfl⟩
  · dsimp only
    split <;> exact ⟨rfl, rfl, rfl, rfl⟩

private theorem cachesOnly_rename (s : State) (env : Env) (old_path new_path : CString) :
    CachesOnly s (s.rename env old_path new_path).1 := by
  unfold State.rename
  rw [State.lookup_eq]
  rcases s.found old_path with _ | x
  · exact ⟨rfl, rfl, rfl, rfl⟩
  · simp only [State.lookup_eq]
    rcases State.found _ new_path with _ | y
    · exact ⟨rfl, rfl, rfl, rfl⟩
    · simp only [State.renameKey]
      split <;> (rename_i heq; exact { cachesOnly_getInode heq with })

theorem cachesOnly_step (s : State) (env : Env) {op : Op} (h : op.cachesOnly = true) :
    CachesOnly s (step s (env, op)).1 := by
  cases op with
  | getAttr path =>
    simp only [step, State.getAttr]
    split <;> (rename_i heq; exact { cachesOnly_acquire heq with })
  | chmod path mode => exact cachesOnly_setAttribute s path fun st => { st with st_mode := mode }
  | chown path uid gid => exact cachesOnly_setAttribute s path fun st => { st with st_uid := uid, st_gid := gid }
  | updateTimens path atim mtim =>
    exact cachesOnly_setAttribute s path fun st => { st with st_atim := atim, st_mtim := mtim }
  | readlink path size => exact cachesOnly_readlink s path size
  | makeNode path mode dev => exact cachesOnly_create s env path _
  | makeDir path mode => exact cachesOnly_create s env path _
  | symlink target path => exact cachesOnly_create s env path _
  | removeDir path =>
    simp only [step, State.removeDir]
    split <;> (rename_i heq; exact { cachesOnly_acquire heq with })
  | rename old_path new_path => exact cachesOnly_rename s env old_path new_path
  | readDir fh =>
    simp only [step, State.readDir]
    split <;> exact .refl s
  | openFile | read | write | release | truncate | unlink | openDir | releaseDir => cases h

/-- OpenDir adds a directory handle, and reaches no data file. -/
theorem openDir_frame (s : State) (env : Env) (path : CString) :
    (s.openDir env path).1.threshold_ = s.threshold_ ∧ (s.openDir env path).1.disk = s.disk ∧
      (s.openDir env path).1.files = s.files := by
  unfold State.openDir
  rw [State.lookup_eq]
  rcases s.found path with _ | x
  · exact ⟨rfl, rfl, rfl⟩
  · dsimp only
    split <;> (rename_i heq; obtain ⟨ht, hd, hf, _⟩ := cachesOnly_getInode heq; exact ⟨ht, hd, hf⟩)

/-- A state with the threshold of an old one, and a disk that a request leaves. -/
structure Framed (env : Env) (s s' : State) : Prop where
  threshold : s'.threshold_ = s.threshold_
  disk : Touched env s.threshold_ s.disk s'.disk

private theorem framed_of_eq (ht : s'.threshold_ = s.threshold_) (hd : s'.disk = s.disk) : Framed env s s' := by
  refine ⟨ht, ?_⟩
  rw [hd]
  exact .same

private theorem CachesOnly.framed (h : CachesOnly s s') : Framed env s s' := framed_of_eq h.threshold h.disk

private theorem framed_openFile (s : State) (env : Env) (path : CString) (flags : OpenFlags) :
    Framed env s (s.openFile path flags).1 := by
  unfold State.openFile
  split
  · rename_i heq
    exact (cachesOnly_acquire heq).framed
  · rename_i s' key handle value heq
    obtain ⟨ht, hd, _, _⟩ := cachesOnly_acquire heq
    refine ⟨ht, ?_⟩
    dsimp only
    rw [hd]
    split
    · exact .opened value.header flags
    · exact .same

/-- What every request does to the disk. -/
theorem step_framed (s : State) (env : Env) (op : Op) : Framed env s (step s (env, op)).1 := by
  cases op with
  | openFile path flags => exact framed_openFile s env path flags
  | read fh size offset =>
    simp only [step, State.read]
    split
    · exact framed_of_eq rfl rfl
    · exact ⟨rfl, .read _ _ _ _ _⟩
  | write fh flags buf offset =>
    simp only [step, State.write]
    split
    · exact framed_of_eq rfl rfl
    · exact ⟨rfl, .wrote _ _ _ _ _ _⟩
  | release fh =>
    simp only [step, State.release]
    split
    · exact framed_of_eq rfl rfl
    · exact ⟨rfl, .closed _⟩
  | truncate path n =>
    simp only [step, State.truncate]
    split
    · rename_i heq
      exact (cachesOnly_acquire heq).framed
    · rename_i s' key handle value heq
      obtain ⟨ht, hd, _, _⟩ := cachesOnly_acquire heq
      refine ⟨ht, ?_⟩
      dsimp only
      rw [ht, hd]
      exact .truncated value n
  | unlink path =>
    simp only [step, State.unlink]
    split
    · rename_i heq
      exact (cachesOnly_acquire heq).framed
    · rename_i s' key handle value heq
      obtain ⟨ht, hd, _, _⟩ := cachesOnly_acquire heq
      refine ⟨ht, ?_⟩
      simp only [State.dropInode, hd]
      split
      · exact .unlinked _
      · exact .same
  | openDir path => exact framed_of_eq (openDir_frame s env path).1 (openDir_frame s env path).2.1
  | releaseDir fh =>
    simp only [step, State.releaseDir]
    split <;> exact framed_of_eq rfl rfl
  | getAttr | chmod | chown | updateTimens | readlink | makeNode | makeDir | symlink | removeDir | rename | readDir =>
    exact (cachesOnly_step s env rfl).framed

theorem step_threshold (s : State) (env : Env) (op : Op) : (step s (env, op)).1.threshold_ = s.threshold_ :=
  (step_framed s env op).threshold

end
end TableFS
