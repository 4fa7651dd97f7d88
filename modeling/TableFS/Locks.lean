import TableFS.Lib.LockTrace
import TableFS.FileSystem
import TableFS.Fsync

/-! The calls to fstree_lock that a request makes (fs/tablefs.cpp, fs/inodemutex.cpp). The locks
themselves are commented out; the calls tell what they would do. Chown returns from the middle
without its Unlock, and Rename takes two keys, which may share a stripe. -/
namespace TableFS
open Slots InodeCache PinnedLru LRUCache LockTrace Traced

/-- The index into ilock. -/
def stripe (key : MetaKey) : UInt32 := ((key.inode_id + key.hash_id) &&& 0x3ff).toUInt32

/-- ParentPathLookup, which locks a key while the store is read for it. -/
def parentPathLookupLocked (metadb : MetaDB) : DentryCache → UInt64 → MetaKey → List (List UInt8) →
    Traced MetaKey (DentryCache × Option (UInt64 × MetaKey))
  | dentry_cache, inode_in_search, key, [] => pure (dentry_cache, some (inode_in_search, key))
  | dentry_cache, inode_in_search, _, item :: items =>
    let key := buildMetaKey item inode_in_search
    match dentry_cache.find key with
    | (dentry_cache, some inode) => parentPathLookupLocked metadb dentry_cache inode key items
    | (dentry_cache, none) => do
      call (.readLock key)
      let result := metadb.lookup key
      call (.unlock key)
      match result with
      | some result =>
        parentPathLookupLocked metadb (dentry_cache.insert key result.fstat.st_ino) result.fstat.st_ino key items
      | none => pure (dentry_cache, none)

namespace State

/-- PathLookup. -/
def lookupLocked (s : State) (path : CString) : Traced MetaKey (State × Option (MetaKey × List UInt8)) := do
  let items := components path
  let (dentry_cache, parent) ←
    parentPathLookupLocked s.inode_cache.metadb s.dentry_cache ROOT_INODE_ID rootKey items.dropLast
  pure ({ s with dentry_cache := dentry_cache }, parent.map (lastKey · (items.getLastD [])))

/-- What is done under the lock of a key. -/
def holding {α : Type} (lock : MetaKey → LockCall MetaKey) (key : MetaKey) (a : α) : Traced MetaKey α := do
  call (lock key)
  let result := a
  call (.unlock key)
  pure result

/-- A request that locks the key of its path until it returns, whatever comes of it in between. -/
def onPath (s : State) (lock : MetaKey → LockCall MetaKey) (path : CString)
    (serve : State → MetaKey → List UInt8 → State × Result) : Traced MetaKey (State × Result) := do
  match ← s.lookupLocked path with
  | (s, none) => pure (s, fsError ENOENT)
  | (s, some (key, filename)) => holding lock key (serve s key filename)

/-- The same for a request that goes on with the inode at the path. -/
def onInode (s : State) (lock : MetaKey → LockCall MetaKey) (path : CString) (mode : InodeAccessMode)
    (serve : State → MetaKey → Nat → Value → State × Result) : Traced MetaKey (State × Result) :=
  s.onPath lock path fun s key _ =>
    match s.getInode key mode with
    | (s, none) => (s, fsError ENOENT)
    | (s, some (handle, value)) => serve s key handle value

/-- A request that locks the key of its handle until it returns. -/
def onHandle {α : Type} (s : State) (lock : MetaKey → LockCall MetaKey) (fh : Nat) (r : α) : Traced MetaKey α :=
  match s.fileOf fh with
  | none => pure r
  | some (_, key, _) => holding lock key r

def getAttrLocked (s : State) (path : CString) : Traced MetaKey (State × Result) :=
  s.onInode .readLock path .read fun s _ handle value =>
    ({ s with inode_cache := s.inode_cache.release handle }, { ret := 0, stat := some value.fstat })

def openFileLocked (s : State) (path : CString) (flags : OpenFlags) : Traced MetaKey (State × Result) :=
  s.onInode .writeLock path flags.mode fun s _ handle value =>
    let (disk, fd) :=
      if 0 < value.header.has_blob then
        let (disk, n) := openDiskFile s.disk value.header flags
        (disk, some n)
      else (s.disk, none)
    ({ s with disk := disk, files := push s.files ⟨handle, flags, fd⟩ }, { ret := 0, fh := some s.files.length })

def truncateLocked (s : State) (env : Env) (path : CString) (new_size : Nat) : Traced MetaKey (State × Result) :=
  s.onInode .writeLock path .write fun s _ handle value =>
    let (disk, value, ret) := truncateValue env s.threshold_ s.disk value new_size
    let ic := s.inode_cache.update handle (fun h => { h with value_ := value })
    ({ s with disk := disk, inode_cache := (ic.writeBack handle).release handle }, { ret := ret })

/-- What Chmod, Chown and UpdateTimens do with the inode. -/
def storeAttribute (s : State) (f : Stat → Stat) (handle : Nat) : State × Result :=
  let ic := s.inode_cache.update handle
    (fun h => { h with value_ := updateAttribute h.value_ (f h.value_.fstat) })
  ({ s with inode_cache := (ic.writeBack handle).release handle }, { ret := 0 })

def setAttributeLocked (s : State) (path : CString) (f : Stat → Stat) : Traced MetaKey (State × Result) :=
  s.onInode .writeLock path .write fun s _ handle _ => s.storeAttribute f handle

/-- Chown returns from the middle when it has stored the attributes, and leaves its key locked. -/
def chownLocked (s : State) (path : CString) (uid gid : Nat) : Traced MetaKey (State × Result) := do
  match ← s.lookupLocked path with
  | (s, none) => pure (s, fsError ENOENT)
  | (s, some (key, _)) =>
    call (.writeLock key)
    match s.getInode key .write with
    | (s, some (handle, _)) => pure (s.storeAttribute (fun st => { st with st_uid := uid, st_gid := gid }) handle)
    | (s, none) =>
      call (.unlock key)
      pure (s, fsError ENOENT)

def readlinkLocked (s : State) (path : CString) (size : Nat) : Traced MetaKey (State × Result) :=
  s.onPath .readLock path fun s key _ =>
    match s.inode_cache.metadb.lookup key with
    | none => (s, fsError ENOENT)
    | some value =>
      (s, { ret := 0, data := getInlineData value 0 ((size + 18446744073709551615) % 18446744073709551616) ++ [0] })

/-- MakeNode, MakeDir and Symlink differ in the record and in what they make of a failed Put. -/
def createLocked (s : State) (env : Env) (path : CString) (value : UInt64 → List UInt8 → Value)
    (result : Option Bool → Result) : Traced MetaKey (State × Result) :=
  s.onPath .writeLock path fun s key filename =>
    let inode := s.max_inode_num + 1
    let s := { s with max_inode_num := inode }
    if env.put then ({ s with inode_cache := s.inode_cache.put key (value inode filename) }, result (some true))
    else (s, result (some false))

def unlinkLocked (s : State) (path : CString) : Traced MetaKey (State × Result) :=
  s.onInode .writeLock path .delete fun s key handle value =>
    let disk := if s.threshold_ < value.fstat.st_size then
      s.disk.unlinkFile (getDiskFilePath value.fstat.st_ino) else s.disk
    ({ s with disk := disk }.dropInode key handle, { ret := 0 })

def removeDirLocked (s : State) (path : CString) : Traced MetaKey (State × Result) :=
  s.onInode .writeLock path .delete fun s key handle _ => (s.dropInode key handle, { ret := 0 })

/-- The larger key first; by inode_id and then by hash_id. -/
def orderKeys (old_key new_key : MetaKey) : MetaKey × MetaKey :=
  if old_key.inode_id > new_key.inode_id ∨ (old_key.inode_id = new_key.inode_id ∧ old_key.hash_id > new_key.hash_id)
  then (old_key, new_key) else (new_key, old_key)

def renameLocked (s : State) (env : Env) (old_path new_path : CString) : Traced MetaKey (State × Result) := do
  match ← s.lookupLocked old_path with
  | (s, none) => pure (s, fsError ENOENT)
  | (s, some (old_key, _)) =>
    match ← s.lookupLocked new_path with
    | (s, none) => pure (s, fsError ENOENT)
    | (s, some (new_key, filename)) =>
      let (large_key, small_key) := orderKeys old_key new_key
      call (.writeLock large_key)
      call (.writeLock small_key)
      let result := s.renameKey env old_key new_key filename
      call (.unlock small_key)
      call (.unlock large_key)
      pure result

def openDirLocked (s : State) (env : Env) (path : CString) : Traced MetaKey (State × Result) :=
  s.onPath .readLock path fun s key _ =>
    match s.getInode key .read with
    | (s, none) => (s, fsError env.errno)
    | (s, some (handle, _)) => ({ s with dirs := push s.dirs handle }, { ret := 0, fh := some s.dirs.length })

end State

/-- One request with its lock calls. -/
def lockedStep (s : State) : Env × Op → Traced MetaKey (State × Result)
  | (_, .getAttr path) => s.getAttrLocked path
  | (_, .openFile path flags) => s.openFileLocked path flags
  | (env, .read fh size offset) => s.onHandle .readLock fh (s.read env fh size offset)
  | (env, .write fh fi_flags buf offset) => s.onHandle .readLock fh (s.write env fh fi_flags buf offset)
  | (env, .release fh) => s.onHandle .writeLock fh (s.release env fh)
  | (env, .truncate path new_size) => s.truncateLocked env path new_size
  | (_, .chmod path mode) => s.setAttributeLocked path fun st => { st with st_mode := mode }
  | (_, .chown path uid gid) => s.chownLocked path uid gid
  | (_, .updateTimens path atim mtim) => s.setAttributeLocked path fun st =>
      { st with st_atim := atim, st_mtim := mtim }
  | (_, .readlink path size) => s.readlinkLocked path size
  | (env, .makeNode path mode dev) => s.createLocked env path (fun inode filename =>
      initInodeValue env.memory inode (mode ||| S_IFREG) dev filename env.context env.now) State.createResult
  | (env, .makeDir path mode) => s.createLocked env path (fun inode filename =>
      initInodeValue env.memory inode (mode ||| S_IFDIR) 0 filename env.context env.now) State.createResult
  | (env, .symlink target path) => s.createLocked env path (fun inode filename =>
      initSymlinkValue env.memory inode filename target.val env.context env.now) State.symlinkResult
  | (_, .unlink path) => s.unlinkLocked path
  | (_, .removeDir path) => s.removeDirLocked path
  | (env, .rename old_path new_path) => s.renameLocked env old_path new_path
  | (env, .openDir path) => s.openDirLocked env path
  | (env, .readDir fh) => pure (s.readDir env fh)
  | (_, .releaseDir fh) => pure (s.releaseDir fh)

/-- Fsync with its lock calls; it is no request of the step function. -/
def fsyncLocked (s : State) (kept : Persistent) (fh datasync : Nat) (file store : Bool) :
    Traced MetaKey (Persistent × Result) :=
  s.onHandle .writeLock fh (s.fsync kept fh datasync file store)

/-! Without its lock calls a request is the one of the step function. -/

private theorem fst_parentPathLookupLocked (metadb : MetaDB) (items : List (List UInt8)) (d : DentryCache)
    (inode : UInt64) (key : MetaKey) :
    (parentPathLookupLocked metadb d inode key items).1 = parentPathLookup metadb d inode key items := by
  induction items generalizing d inode key with
  | nil => rfl
  | cons item items ih =>
    simp only [parentPathLookupLocked, parentPathLookup]
    rcases d.find (buildMetaKey item inode) with ⟨d', _ | n⟩
    · cases metadb.lookup (buildMetaKey item inode) with
      | none => rfl
      | some v => exact ih _ _ _
    · exact ih _ _ _

namespace State
variable (s : State)

private theorem fst_lookupLocked (path : CString) : (s.lookupLocked path).1 = s.lookup path := by
  simp only [lookupLocked, fst_bind, fst_parentPathLookupLocked, lookup, pathLookup]
  rcases parentPathLookup s.inode_cache.metadb s.dentry_cache ROOT_INODE_ID rootKey
    (components path).dropLast with ⟨d, _ | parent⟩
  · rfl
  · rfl

private theorem fst_onPath (lock : MetaKey → LockCall MetaKey) (path : CString)
    (serve : State → MetaKey → List UInt8 → State × Result) :
    (s.onPath lock path serve).1 = match s.lookup path with
      | (s, none) => (s, fsError ENOENT)
      | (s, some (key, filename)) => serve s key filename := by
  rw [onPath, fst_bind, fst_lookupLocked]
  rcases s.lookup path with ⟨s', _ | ⟨key, filename⟩⟩
  · rfl
  · rfl

private theorem fst_onInode (lock : MetaKey → LockCall MetaKey) (path : CString) (mode : InodeAccessMode)
    (serve : State → MetaKey → Nat → Value → State × Result) :
    (s.onInode lock path mode serve).1 = match s.acquire path mode with
      | (s, none) => (s, fsError ENOENT)
      | (s, some (key, handle, value)) => serve s key handle value := by
  rw [onInode, fst_onPath, acquire]
  rcases s.lookup path with ⟨s', _ | ⟨key, filename⟩⟩
  · rfl
  · dsimp only
    rcases s'.getInode key mode with ⟨s'', _ | ⟨handle, value⟩⟩
    · rfl
    · rfl

private theorem fst_onHandle (lock : MetaKey → LockCall MetaKey) (fh : Nat) (r : State × Result) :
    (s.onHandle lock fh r).1 = r := by
  unfold onHandle
  split
  · rfl
  · rfl

private theorem fst_chownLocked (path : CString) (uid gid : Nat) :
    (s.chownLocked path uid gid).1 = s.chown path uid gid := by
  rw [chownLocked, fst_bind, fst_lookupLocked, chown, setAttribute, acquire]
  rcases s.lookup path with ⟨s', _ | ⟨key, filename⟩⟩
  · rfl
  · dsimp only [fst_bind]
    rcases s'.getInode key .write with ⟨s'', _ | ⟨handle, value⟩⟩
    · rfl
    · rfl

private theorem fst_createLocked (env : Env) (path : CString) (value : UInt64 → List UInt8 → Value)
    {result : Option Bool → Result} (hnone : result none = fsError ENOENT) :
    (s.createLocked env path value result).1 = ((s.create env path value).1, result (s.create env path value).2) := by
  rw [createLocked, fst_onPath, create]
  rcases s.lookup path with ⟨s', _ | ⟨key, filename⟩⟩
  · dsimp only
    rw [hnone]
  · cases env.put with
    | false => rfl
    | true => rfl

private theorem fst_renameLocked (env : Env) (old_path new_path : CString) :
    (s.renameLocked env old_path new_path).1 = s.rename env old_path new_path := by
  rw [renameLocked, fst_bind, fst_lookupLocked, rename]
  rcases s.lookup old_path with ⟨s', _ | ⟨old_key, name⟩⟩
  · rfl
  · dsimp only
    rw [fst_bind, fst_lookupLocked]
    rcases s'.lookup new_path with ⟨s'', _ | ⟨new_key, filename⟩⟩
    · rfl
    · rfl

end State

/-- Without its lock calls a request is the one of the step function. -/
theorem fst_lockedStep (s : State) (c : Env × Op) : (lockedStep s c).1 = step s c := by
  obtain ⟨env, op⟩ := c
  cases op with
  | read | write | release => exact s.fst_onHandle _ _ _
  | readlink | openDir => exact s.fst_onPath _ _ _
  | makeNode | makeDir | symlink => exact s.fst_createLocked _ _ _ rfl
  | chown path uid gid => exact s.fst_chownLocked path uid gid
  | rename old_path new_path => exact s.fst_renameLocked env old_path new_path
  | readDir | releaseDir => rfl
  | _ => exact s.fst_onInode _ _ _ _

private theorem disciplined_parentPathLookupLocked (metadb : MetaDB) (items : List (List UInt8)) (d : DentryCache)
    (inode : UInt64) (key : MetaKey) :
    Disciplined stripe (parentPathLookupLocked metadb d inode key items).2 := by
  induction items generalizing d inode key with
  | nil => exact disciplined_nil stripe
  | cons item items ih =>
    simp only [parentPathLookupLocked]
    rcases d.find (buildMetaKey item inode) with ⟨d', _ | n⟩
    · cases metadb.lookup (buildMetaKey item inode) with
      | none => exact disciplined_read stripe _
      | some v => exact (disciplined_append stripe (disciplined_read stripe _) _).mpr (ih _ _ _)
    · exact ih _ _ _

namespace State
variable (s : State)

private theorem disciplined_lookup_iff (path : CString)
    (f : State × Option (MetaKey × List UInt8) → Traced MetaKey (State × Result)) :
    Disciplined stripe (s.lookupLocked path >>= f).2 ↔ Disciplined stripe (f (s.lookup path)).2 := by
  have hlook : Disciplined stripe (s.lookupLocked path).2 := by
    rw [lookupLocked, snd_bind]
    exact (disciplined_append stripe (disciplined_parentPathLookupLocked ..) _).mpr (disciplined_nil stripe)
  rw [snd_bind, disciplined_append stripe hlook, fst_lookupLocked]

private theorem disciplined_onPath {lock : MetaKey → LockCall MetaKey}
    (hlock : ∀ key, Disciplined stripe [lock key, .unlock key]) (path : CString)
    (serve : State → MetaKey → List UInt8 → State × Result) : Disciplined stripe (s.onPath lock path serve).2 := by
  rw [onPath, disciplined_lookup_iff]
  rcases s.lookup path with ⟨s', _ | ⟨key, filename⟩⟩
  · exact disciplined_nil stripe
  · exact hlock key

private theorem disciplined_onHandle {lock : MetaKey → LockCall MetaKey}
    (hlock : ∀ key, Disciplined stripe [lock key, .unlock key]) {α : Type} (fh : Nat) (r : α) :
    Disciplined stripe (s.onHandle lock fh r).2 := by
  unfold onHandle
  split
  · exact disciplined_nil stripe
  · exact hlock _

/-- A Chown whose path leads to an inode, or a Rename both of whose paths lead to keys of one
stripe. -/
def BreaksLocks (s : State) : Op → Prop
  | .chown path _ _ => s.Leads path
  | .rename old_path new_path => ∃ x ∈ s.renameKeys old_path new_path, stripe x.1 = stripe x.2
  | _ => False

private theorem disciplined_chownLocked_iff (path : CString) (uid gid : Nat) :
    Disciplined stripe (s.chownLocked path uid gid).2 ↔ ¬ s.BreaksLocks (.chown path uid gid) := by
  rw [chownLocked, disciplined_lookup_iff, lookup_eq, BreaksLocks, Leads]
  rcases s.found path with _ | ⟨key, filename⟩
  · exact iff_of_true (disciplined_nil stripe) (by simp)
  · have hfound : (s.visible key).isSome = _ :=
      (getInode_isSome { s with dentry_cache := s.looked path } key .write).symm
    dsimp only
    rcases hg : ({ s with dentry_cache := s.looked path } : State).getInode key .write with ⟨s', _ | h⟩
    · rw [hg] at hfound
      exact iff_of_true (disciplined_write stripe key) (by simpa using hfound)
    · rw [hg] at hfound
      exact iff_of_false (not_disciplined_left stripe key) (not_not_intro ⟨_, rfl, hfound⟩)

private theorem disciplined_renameKeys_iff (old_key new_key : MetaKey) :
    Disciplined stripe [.writeLock (orderKeys old_key new_key).1, .writeLock (orderKeys old_key new_key).2,
        .unlock (orderKeys old_key new_key).2, .unlock (orderKeys old_key new_key).1] ↔
          stripe old_key ≠ stripe new_key := by
  rw [disciplined_nested_iff, orderKeys]
  split
  · exact Iff.rfl
  · exact ne_comm

private theorem disciplined_renameLocked_iff (env : Env) (old_path new_path : CString) :
    Disciplined stripe (s.renameLocked env old_path new_path).2 ↔ ¬ s.BreaksLocks (.rename old_path new_path) := by
  rw [renameLocked, disciplined_lookup_iff, lookup_eq, BreaksLocks, renameKeys]
  rcases s.found old_path with _ | old
  · exact iff_of_true (disciplined_nil stripe) (by simp)
  · dsimp only
    rw [disciplined_lookup_iff, lookup_eq]
    rcases hn : (pathLookup (s.looked old_path) s.inode_cache.metadb new_path).2 with _ | new
    · have hnone : State.found { s with dentry_cache := s.looked old_path } new_path = none := hn
      rw [hnone]
      exact iff_of_true (disciplined_nil stripe) (by simp)
    · have hsome : State.found { s with dentry_cache := s.looked old_path } new_path = some new := hn
      rw [hsome]
      refine (disciplined_renameKeys_iff old.1 new.1).trans (not_congr ?_)
      simp

/-- In every state, the lock calls of a request are disciplined unless it is a Chown whose path
leads to an inode or a Rename of two keys in one stripe. -/
theorem locks_disciplined_iff (env : Env) (op : Op) :
    (Disciplined stripe (lockedStep s (env, op)).2 ↔ ¬ s.BreaksLocks op) ∧
      ∀ kept fh datasync file store, Disciplined stripe (fsyncLocked s kept fh datasync file store).2 := by
  refine ⟨?_, fun _ fh _ _ _ => s.disciplined_onHandle (disciplined_write stripe) fh _⟩
  cases op with
  | chown path uid gid => exact s.disciplined_chownLocked_iff path uid gid
  | rename old_path new_path => exact s.disciplined_renameLocked_iff env old_path new_path
  | read | write => exact iff_of_true (s.disciplined_onHandle (disciplined_read stripe) _ _) id
  | release => exact iff_of_true (s.disciplined_onHandle (disciplined_write stripe) _ _) id
  | getAttr | readlink | openDir => exact iff_of_true (s.disciplined_onPath (disciplined_read stripe) _ _) id
  | openFile | truncate | chmod | updateTimens | makeNode | makeDir | symlink | unlink | removeDir =>
    exact iff_of_true (s.disciplined_onPath (disciplined_write stripe) _ _) id
  | readDir | releaseDir => exact iff_of_true (disciplined_nil stripe) id

/-- Chown of the root returns 0 with the root's key locked, and renaming a path onto itself takes
its stripe twice. -/
theorem locks_broken :
    (lockedStep (State.fresh 4096) (.calm, .chown (inRoot []) 1 1)).2 = [.writeLock rootKey] ∧
      ¬ Disciplined stripe (lockedStep (State.fresh 4096) (.calm, .chown (inRoot []) 1 1)).2 ∧
      ¬ Disciplined stripe (lockedStep (State.fresh 4096) (.calm, .rename (inRoot [97]) (inRoot [97]))).2 := by
  decide +kernel

end State
end TableFS
