import TableFS.PathLookup
import TableFS.DirScan
import TableFS.FileData

/-! The file system operations of fs/tablefs.cpp as steps of one state: the metadata store
with its two caches, the data files, the inode counter and the open handles. -/
namespace TableFS
open Slots

/-- An open file: `handle_` points at an inode cache handle, `fd_` is the descriptor
of the disk file once there is one. -/
structure FileHandle where
  handle_ : Nat
  flags_ : OpenFlags
  fd_ : Option Nat
  deriving DecidableEq, Repr

structure State where
  threshold_ : Nat
  max_inode_num : UInt64
  inode_cache : InodeCache
  dentry_cache : DentryCache
  disk : Disk
  files : List (Option FileHandle)
  dirs : List (Option Nat)

structure Result where
  ret : Int
  stat : Option Stat := none
  data : List UInt8 := []
  names : List (List UInt8) := []
  fh : Option Nat := none
  deriving DecidableEq, Repr

def fsError (errno : Nat) : Result := { ret := -errno }

/-- The access mode Open asks the inode cache for. -/
def OpenFlags.mode (flags : OpenFlags) : InodeAccessMode :=
  if flags.rdwr || flags.wronly || flags.trunc then .write else .read

theorem OpenFlags.mode_ne_delete (flags : OpenFlags) : flags.mode ≠ .delete := by
  unfold OpenFlags.mode
  split <;> simp

/-- The threshold, and how large and how sharded the caches are. -/
structure Config where
  threshold : Nat
  capacity : Nat
  shard : MetaKey → Nat
  maxsize : Nat

/-- 512 entries over sixteen shards, and the capacity Init gives the dentry cache. -/
def Config.source (threshold : Nat) : Config := ⟨threshold, 32, fun key => shardOf key.toSlice, 16384⟩

namespace State

/-- A file system just initialised on an empty store: only the root record, with the mode
and device of an existing directory. -/
def init (config : Config) (env : Env) (mode : UInt32) (dev : Nat) : State where
  threshold_ := config.threshold
  max_inode_num := 0
  inode_cache := ⟨.empty config.capacity config.shard,
    Finmap.singleton rootKey (initInodeValue env.memory ROOT_INODE_ID mode dev [] env.context env.now)⟩
  dentry_cache := .empty config.maxsize
  disk := .empty
  files := []
  dirs := []

def lookup (s : State) (path : CString) : State × Option (MetaKey × List UInt8) :=
  let r := pathLookup s.dentry_cache s.inode_cache.metadb path
  ({ s with dentry_cache := r.1 }, r.2)

/-- InodeCache::Get, with the value behind the handle it returns. -/
def getInode (s : State) (key : MetaKey) (mode : InodeAccessMode) : State × Option (Nat × Value) :=
  let r := s.inode_cache.get key mode
  ({ s with inode_cache := r.1 }, r.2.bind fun i => (r.1.handle i).map fun h => (i, h.2.value_))

/-- A path lookup followed by InodeCache::Get. -/
def acquire (s : State) (path : CString) (mode : InodeAccessMode) :
    State × Option (MetaKey × Nat × Value) :=
  match s.lookup path with
  | (s, none) => (s, none)
  | (s, some (key, _)) =>
    let r := s.getInode key mode
    (r.1, r.2.map fun h => (key, h))

def getAttr (s : State) (path : CString) : State × Result :=
  match s.acquire path .read with
  | (s, none) => (s, fsError ENOENT)
  | (s, some (_, handle, value)) =>
    ({ s with inode_cache := s.inode_cache.release handle }, { ret := 0, stat := some value.fstat })

def openFile (s : State) (path : CString) (flags : OpenFlags) : State × Result :=
  match s.acquire path flags.mode with
  | (s, none) => (s, fsError ENOENT)
  | (s, some (_, handle, value)) =>
    let (disk, fd) :=
      if 0 < value.header.has_blob then
        let (disk, n) := openDiskFile s.disk value.header flags
        (disk, some n)
      else (s.disk, none)
    ({ s with disk := disk, files := push s.files ⟨handle, flags, fd⟩ }, { ret := 0, fh := some s.files.length })

/-- The open file behind fi->fh, with the inode handle it points at. -/
def fileOf (s : State) (fh : Nat) : Option (FileHandle × MetaKey × InodeCacheHandle) :=
  (slot s.files fh).bind fun f => (s.inode_cache.handle f.handle_).map fun h => (f, h)

def read (s : State) (env : Env) (fh size offset : Nat) : State × Result :=
  match s.fileOf fh with
  | none => (s, fsError EBADF)
  | some (f, _, handle) =>
    let (disk, fd, ret, buf) := readValue env s.disk handle.value_ f.fd_ f.flags_ size offset
    ({ s with disk := disk, files := replace s.files fh { f with fd_ := fd } }, { ret := ret, data := buf })

/-- The mode becomes INODE_WRITE whatever it was. -/
def write (s : State) (env : Env) (fh : Nat) (fi_flags : OpenFlags) (buf : List UInt8) (offset : Nat) :
    State × Result :=
  match s.fileOf fh with
  | none => (s, fsError EBADF)
  | some (f, _, handle) =>
    let (disk, value, fd, ret) :=
      writeValue env s.threshold_ s.disk handle.value_ f.fd_ f.flags_ fi_flags buf offset
    ({ s with
        disk := disk
        inode_cache := s.inode_cache.update f.handle_ (fun _ => ⟨value, .write⟩)
        files := replace s.files fh { f with fd_ := fd } }, { ret := ret })

/-- Access and modification times of a handle that was written to. -/
def touch (now : Int) (handle : InodeCacheHandle) : InodeCacheHandle :=
  if handle.mode_ = .write then
    let new_value := { handle.value_.fstat with st_atim := ⟨now, 0⟩, st_mtim := ⟨now, 0⟩ }
    { handle with value_ := updateAttribute handle.value_ new_value }
  else handle

def release (s : State) (env : Env) (fh : Nat) : State × Result :=
  match s.fileOf fh with
  | none => (s, fsError EBADF)
  | some (f, key, _) =>
    let ic := s.inode_cache.update f.handle_ (touch env.now)
    let (disk, ret) := closeHandle s.disk f.fd_
    ({ s with
        disk := disk
        inode_cache := ((ic.writeBack f.handle_).release f.handle_).evict key
        files := clear s.files fh }, { ret := ret })

def truncate (s : State) (env : Env) (path : CString) (new_size : Nat) : State × Result :=
  match s.acquire path .write with
  | (s, none) => (s, fsError ENOENT)
  | (s, some (_, handle, value)) =>
    let (disk, value, ret) := truncateValue env s.threshold_ s.disk value new_size
    let ic := s.inode_cache.update handle (fun h => { h with value_ := value })
    ({ s with disk := disk, inode_cache := (ic.writeBack handle).release handle }, { ret := ret })

/-- Chmod, Chown and UpdateTimens differ in the attributes they set. -/
def setAttribute (s : State) (path : CString) (f : Stat → Stat) : State × Result :=
  match s.acquire path .write with
  | (s, none) => (s, fsError ENOENT)
  | (s, some (_, handle, _)) =>
    let ic := s.inode_cache.update handle
      (fun h => { h with value_ := updateAttribute h.value_ (f h.value_.fstat) })
    ({ s with inode_cache := (ic.writeBack handle).release handle }, { ret := 0 })

def chmod (s : State) (path : CString) (mode : UInt32) : State × Result :=
  s.setAttribute path fun st => { st with st_mode := mode }

def chown (s : State) (path : CString) (uid gid : Nat) : State × Result :=
  s.setAttribute path fun st => { st with st_uid := uid, st_gid := gid }

def updateTimens (s : State) (path : CString) (atim mtim : Timespec) : State × Result :=
  s.setAttribute path fun st => { st with st_atim := atim, st_mtim := mtim }

def readlink (s : State) (path : CString) (size : Nat) : State × Result :=
  match s.lookup path with
  | (s, none) => (s, fsError ENOENT)
  | (s, some (key, _)) =>
    match s.inode_cache.metadb.lookup key with
    | none => (s, fsError ENOENT)
    | some value =>
      (s, { ret := 0, data := getInlineData value 0 ((size + 18446744073709551615) % 18446744073709551616) ++ [0] })

/-- A new record, put straight into the store. `none` when the parent is missing, else
whether the Put succeeded. -/
def create (s : State) (env : Env) (path : CString) (value : UInt64 → List UInt8 → Value) :
    State × Option Bool :=
  match s.lookup path with
  | (s, none) => (s, none)
  | (s, some (key, filename)) =>
    -- NewInode counts up before anything is stored
    let inode := s.max_inode_num + 1
    let s := { s with max_inode_num := inode }
    if env.put then ({ s with inode_cache := s.inode_cache.put key (value inode filename) }, some true)
    else (s, some false)

def createResult : Option Bool → Result
  | some true => { ret := 0 }
  | _ => fsError ENOENT

def makeNode (s : State) (env : Env) (path : CString) (mode : UInt32) (dev : Nat) : State × Result :=
  let r := s.create env path fun inode filename =>
    initInodeValue env.memory inode (mode ||| S_IFREG) dev filename env.context env.now
  (r.1, createResult r.2)

def makeDir (s : State) (env : Env) (path : CString) (mode : UInt32) : State × Result :=
  let r := s.create env path fun inode filename =>
    initInodeValue env.memory inode (mode ||| S_IFDIR) 0 filename env.context env.now
  (r.1, createResult r.2)

/-- The result of the Put is not looked at. -/
def symlinkResult : Option Bool → Result
  | some _ => { ret := 0 }
  | none => fsError ENOENT

def symlink (s : State) (env : Env) (target : CString) (path : CString) : State × Result :=
  let r := s.create env path fun inode filename =>
    initSymlinkValue env.memory inode filename target.val env.context env.now
  (r.1, symlinkResult r.2)

/-- Release and Evict after a Get for deletion. -/
def dropInode (s : State) (key : MetaKey) (handle : Nat) : State :=
  { s with
    dentry_cache := s.dentry_cache.evict key
    inode_cache := (s.inode_cache.release handle).evict key }

def unlink (s : State) (path : CString) : State × Result :=
  match s.acquire path .delete with
  | (s, none) => (s, fsError ENOENT)
  | (s, some (key, handle, value)) =>
    let disk := if s.threshold_ < value.fstat.st_size then
      s.disk.unlinkFile (getDiskFilePath value.fstat.st_ino) else s.disk
    ({ s with disk := disk }.dropInode key handle, { ret := 0 })

def removeDir (s : State) (path : CString) : State × Result :=
  match s.acquire path .delete with
  | (s, none) => (s, fsError ENOENT)
  | (s, some (key, handle, _)) => (s.dropInode key handle, { ret := 0 })

/-- Rename once both paths are resolved. -/
def renameKey (s : State) (env : Env) (old_key new_key : MetaKey) (filename : List UInt8) : State × Result :=
  match s.getInode old_key .delete with
  | (s, none) => (s, fsError ENOENT)
  | (s, some (old_handle, value)) =>
    let (ic, new_handle) := s.inode_cache.insert new_key (renameInodeValue value filename)
    let ic := ic.batchCommit old_handle new_handle env.commit
    ({ s with
        inode_cache := ((ic.release new_handle).release old_handle).evict old_key
        dentry_cache := (s.dentry_cache.evict old_key).evict new_key }, { ret := 0 })

def rename (s : State) (env : Env) (old_path new_path : CString) : State × Result :=
  match s.lookup old_path with
  | (s, none) => (s, fsError ENOENT)
  | (s, some (old_key, _)) =>
    match s.lookup new_path with
    | (s, none) => (s, fsError ENOENT)
    | (s, some (new_key, filename)) => s.renameKey env old_key new_key filename

/-- A missing record is reported as whatever errno holds. -/
def openDir (s : State) (env : Env) (path : CString) : State × Result :=
  match s.lookup path with
  | (s, none) => (s, fsError ENOENT)
  | (s, some (key, _)) =>
    match s.getInode key .read with
    | (s, none) => (s, fsError env.errno)
    | (s, some (handle, _)) => ({ s with dirs := push s.dirs handle }, { ret := 0, fh := some s.dirs.length })

def dirOf (s : State) (fh : Nat) : Option (Nat × MetaKey × InodeCacheHandle) :=
  (slot s.dirs fh).bind fun i => (s.inode_cache.handle i).map fun h => (i, h)

def readDir (s : State) (env : Env) (fh : Nat) : State × Result :=
  match s.dirOf fh with
  | none => (s, fsError EBADF)
  | some (_, _, handle) =>
    let r := listDir env.errno env.filler s.inode_cache.metadb handle.value_.fstat.st_ino
    (s, { ret := r.1, names := r.2 })

def releaseDir (s : State) (fh : Nat) : State × Result :=
  match slot s.dirs fh with
  | none => (s, fsError EBADF)
  | some i => ({ s with inode_cache := s.inode_cache.release i, dirs := clear s.dirs fh }, { ret := 0 })

end State

inductive Op where
  | getAttr (path : CString)
  | openFile (path : CString) (flags : OpenFlags)
  | read (fh size offset : Nat)
  | write (fh : Nat) (fi_flags : OpenFlags) (buf : List UInt8) (offset : Nat)
  | release (fh : Nat)
  | truncate (path : CString) (new_size : Nat)
  | chmod (path : CString) (mode : UInt32)
  | chown (path : CString) (uid gid : Nat)
  | updateTimens (path : CString) (atim mtim : Timespec)
  | readlink (path : CString) (size : Nat)
  | makeNode (path : CString) (mode : UInt32) (dev : Nat)
  | makeDir (path : CString) (mode : UInt32)
  | symlink (target path : CString)
  | unlink (path : CString)
  | removeDir (path : CString)
  | rename (old_path new_path : CString)
  | openDir (path : CString)
  | readDir (fh : Nat)
  | releaseDir (fh : Nat)

/-- The path under which a request creates a record. -/
def Op.created : Op → Option CString
  | .makeNode path _ _ => some path
  | .makeDir path _ => some path
  | .symlink _ path => some path
  | _ => none

/-- One request, served in its surroundings. -/
def step (s : State) : Env × Op → State × Result
  | (_, .getAttr path) => s.getAttr path
  | (_, .openFile path flags) => s.openFile path flags
  | (env, .read fh size offset) => s.read env fh size offset
  | (env, .write fh fi_flags buf offset) => s.write env fh fi_flags buf offset
  | (env, .release fh) => s.release env fh
  | (env, .truncate path new_size) => s.truncate env path new_size
  | (_, .chmod path mode) => s.chmod path mode
  | (_, .chown path uid gid) => s.chown path uid gid
  | (_, .updateTimens path atim mtim) => s.updateTimens path atim mtim
  | (_, .readlink path size) => s.readlink path size
  | (env, .makeNode path mode dev) => s.makeNode env path mode dev
  | (env, .makeDir path mode) => s.makeDir env path mode
  | (env, .symlink target path) => s.symlink env target path
  | (_, .unlink path) => s.unlink path
  | (_, .removeDir path) => s.removeDir path
  | (env, .rename old_path new_path) => s.rename env old_path new_path
  | (env, .openDir path) => s.openDir env path
  | (env, .readDir fh) => s.readDir env fh
  | (_, .releaseDir fh) => s.releaseDir fh

/-- Surroundings in which every call succeeds in full. -/
def Env.calm : Env where
  now := 0
  context := none
  memory := ⟨0, 0, 0, 0, 0, 0, 0, 0, 0, ⟨0, 0⟩, ⟨0, 0⟩, ⟨0, 0⟩⟩
  heap := fun _ => 0
  errno := 0
  fd := none
  put := true
  commit := true
  migrate := .full
  data := .full
  resize := .full
  readBack := .full
  room := 4096
  filler := fun _ => 0

/-- The path of a name in the root directory. -/
def inRoot (name : List UInt8) (h : (0 : UInt8) ∉ name := by decide) : CString :=
  ⟨PATH_DELIMITER :: name, by simpa [PATH_DELIMITER] using h⟩

/-- The fresh file system of the source's cache sizes. -/
def State.fresh (threshold : Nat) : State := State.init (.source threshold) .calm S_IFDIR 0

/-- Requests served in calm surroundings. -/
def calmly (ops : List Op) : List (Env × Op) := ops.map (Env.calm, ·)

end TableFS
