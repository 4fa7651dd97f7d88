import TableFS.FileSystem

/-! The file system without caches: the metadata store is a plain map, and an inode that is
open has one working copy, shared by all handles on it. -/
namespace TableFS
open Slots

structure PlainFile where
  key : MetaKey
  flags_ : OpenFlags
  fd_ : Option Nat
  deriving DecidableEq, Repr

/-- The copy of an inode that a request works on: the working copy of an open inode, else
a fresh copy of the stored record. -/
def copyOf (metadb : MetaDB) (work : MetaKey → Option InodeCacheHandle) (key : MetaKey)
    (mode : InodeAccessMode) : Option InodeCacheHandle :=
  match work key with
  | some h => some (h.access mode)
  | none => (metadb.lookup key).map (⟨·, mode⟩)

structure Plain where
  threshold_ : Nat
  max_inode_num : UInt64
  metadb : MetaDB
  work : MetaKey → Option InodeCacheHandle
  disk : Disk
  files : List (Option PlainFile)
  dirs : List (Option MetaKey)

namespace Plain

def init (config : Config) (env : Env) (mode : UInt32) (dev : Nat) : Plain where
  threshold_ := config.threshold
  max_inode_num := 0
  metadb := Finmap.singleton rootKey (initInodeValue env.memory ROOT_INODE_ID mode dev [] env.context env.now)
  work := fun _ => none
  disk := .empty
  files := []
  dirs := []

def inode (p : Plain) (key : MetaKey) (mode : InodeAccessMode) : Option InodeCacheHandle :=
  copyOf p.metadb p.work key mode

def acquire (p : Plain) (path : CString) (mode : InodeAccessMode) : Option (MetaKey × InodeCacheHandle) :=
  (resolve p.metadb path).bind fun k => (p.inode k.1 mode).map fun h => (k.1, h)

/-- Store a value, in the map and in the working copy if there is one. -/
def store (p : Plain) (key : MetaKey) (value : Value) : Plain :=
  { p with
    metadb := p.metadb.insert key value
    work := Function.update p.work key ((p.work key).map fun _ => ⟨value, .read⟩) }

def getAttr (p : Plain) (path : CString) : Plain × Result :=
  match p.acquire path .read with
  | none => (p, fsError ENOENT)
  | some (_, h) => (p, { ret := 0, stat := some h.value_.fstat })

def openFile (p : Plain) (path : CString) (flags : OpenFlags) : Plain × Result :=
  match p.acquire path flags.mode with
  | none => (p, fsError ENOENT)
  | some (key, h) =>
    let (disk, fd) :=
      if 0 < h.value_.header.has_blob then
        let (disk, n) := openDiskFile p.disk h.value_.header flags
        (disk, some n)
      else (p.disk, none)
    ({ p with
        disk := disk
        work := Function.update p.work key (some h)
        files := push p.files ⟨key, flags, fd⟩ }, { ret := 0, fh := some p.files.length })

def fileOf (p : Plain) (fh : Nat) : Option (PlainFile × InodeCacheHandle) :=
  (slot p.files fh).bind fun f => (p.work f.key).map fun h => (f, h)

theorem slot_of_fileOf {p : Plain} {fh : Nat} {f : PlainFile} {h : InodeCacheHandle} (hf : p.fileOf fh = some (f, h)) :
    slot p.files fh = some f ∧ p.work f.key = some h :=
  slot_bind_eq_some.mp hf

def read (p : Plain) (env : Env) (fh size offset : Nat) : Plain × Result :=
  match p.fileOf fh with
  | none => (p, fsError EBADF)
  | some (f, h) =>
    let (disk, fd, ret, buf) := readValue env p.disk h.value_ f.fd_ f.flags_ size offset
    ({ p with disk := disk, files := replace p.files fh { f with fd_ := fd } }, { ret := ret, data := buf })

def write (p : Plain) (env : Env) (fh : Nat) (fi_flags : OpenFlags) (buf : List UInt8) (offset : Nat) :
    Plain × Result :=
  match p.fileOf fh with
  | none => (p, fsError EBADF)
  | some (f, h) =>
    let (disk, value, fd, ret) :=
      writeValue env p.threshold_ p.disk h.value_ f.fd_ f.flags_ fi_flags buf offset
    ({ p with
        disk := disk
        work := Function.update p.work f.key (some ⟨value, .write⟩)
        files := replace p.files fh { f with fd_ := fd } }, { ret := ret })

def openOn (files : List (Option PlainFile)) (key : MetaKey) : Bool :=
  files.any fun o => o.any fun f => decide (f.key = key)

def release (p : Plain) (env : Env) (fh : Nat) : Plain × Result :=
  match p.fileOf fh with
  | none => (p, fsError EBADF)
  | some (f, h) =>
    let h := State.touch env.now h
    let (disk, ret) := closeHandle p.disk f.fd_
    let files := clear p.files fh
    -- the working copy goes with the last handle
    let work := if openOn files f.key then some ⟨h.value_, InodeCache.settled h.mode_⟩ else none
    ({ p with
        disk := disk
        metadb := cleanInodeHandle f.key h p.metadb
        work := Function.update p.work f.key work
        files := files }, { ret := ret })

def truncate (p : Plain) (env : Env) (path : CString) (new_size : Nat) : Plain × Result :=
  match p.acquire path .write with
  | none => (p, fsError ENOENT)
  | some (key, h) =>
    let (disk, value, ret) := truncateValue env p.threshold_ p.disk h.value_ new_size
    ({ p with disk := disk }.store key value, { ret := ret })

def setAttribute (p : Plain) (path : CString) (f : Stat → Stat) : Plain × Result :=
  match p.acquire path .write with
  | none => (p, fsError ENOENT)
  | some (key, h) => (p.store key (updateAttribute h.value_ (f h.value_.fstat)), { ret := 0 })

def readlink (p : Plain) (path : CString) (size : Nat) : Plain × Result :=
  match (resolve p.metadb path).bind fun k => p.metadb.lookup k.1 with
  | none => (p, fsError ENOENT)
  | some value =>
    (p, { ret := 0, data := getInlineData value 0 ((size + 18446744073709551615) % 18446744073709551616) ++ [0] })

def create (p : Plain) (env : Env) (path : CString) (value : UInt64 → List UInt8 → Value) :
    Plain × Option Bool :=
  match resolve p.metadb path with
  | none => (p, none)
  | some (key, filename) =>
    let inode := p.max_inode_num + 1
    let p := { p with max_inode_num := inode }
    if env.put then ({ p with metadb := p.metadb.insert key (value inode filename) }, some true)
    else (p, some false)

def makeNode (p : Plain) (env : Env) (path : CString) (mode : UInt32) (dev : Nat) : Plain × Result :=
  let r := p.create env path fun inode filename =>
    initInodeValue env.memory inode (mode ||| S_IFREG) dev filename env.context env.now
  (r.1, State.createResult r.2)

def makeDir (p : Plain) (env : Env) (path : CString) (mode : UInt32) : Plain × Result :=
  let r := p.create env path fun inode filename =>
    initInodeValue env.memory inode (mode ||| S_IFDIR) 0 filename env.context env.now
  (r.1, State.createResult r.2)

def symlink (p : Plain) (env : Env) (target path : CString) : Plain × Result :=
  let r := p.create env path fun inode filename =>
    initSymlinkValue env.memory inode filename target.val env.context env.now
  (r.1, State.symlinkResult r.2)

def unlink (p : Plain) (path : CString) : Plain × Result :=
  match p.acquire path .delete with
  | none => (p, fsError ENOENT)
  | some (key, h) =>
    let disk := if p.threshold_ < h.value_.fstat.st_size then
      p.disk.unlinkFile (getDiskFilePath h.value_.fstat.st_ino) else p.disk
    ({ p with disk := disk, metadb := p.metadb.erase key }, { ret := 0 })

def removeDir (p : Plain) (path : CString) : Plain × Result :=
  match p.acquire path .delete with
  | none => (p, fsError ENOENT)
  | some (key, _) => ({ p with metadb := p.metadb.erase key }, { ret := 0 })

def rename (p : Plain) (old_path new_path : CString) : Plain × Result :=
  match resolve p.metadb old_path, resolve p.metadb new_path with
  | some (old_key, _), some (new_key, filename) =>
    match p.inode old_key .delete with
    | none => (p, fsError ENOENT)
    | some h =>
      ({ p with metadb := (p.metadb.erase old_key).insert new_key (renameInodeValue h.value_ filename) },
        { ret := 0 })
  | _, _ => (p, fsError ENOENT)

def openDir (p : Plain) (env : Env) (path : CString) : Plain × Result :=
  match resolve p.metadb path with
  | none => (p, fsError ENOENT)
  | some (key, _) =>
    match p.inode key .read with
    | none => (p, fsError env.errno)
    | some _ => ({ p with dirs := push p.dirs key }, { ret := 0, fh := some p.dirs.length })

def readDir (p : Plain) (env : Env) (fh : Nat) : Plain × Result :=
  match (slot p.dirs fh).bind p.metadb.lookup with
  | none => (p, fsError EBADF)
  | some value =>
    let r := listDir env.errno env.filler p.metadb value.fstat.st_ino
    (p, { ret := r.1, names := r.2 })

def releaseDir (p : Plain) (fh : Nat) : Plain × Result :=
  match slot p.dirs fh with
  | none => (p, fsError EBADF)
  | some _ => ({ p with dirs := clear p.dirs fh }, { ret := 0 })

def step (p : Plain) : Env × Op → Plain × Result
  | (_, .getAttr path) => p.getAttr path
  | (_, .openFile path flags) => p.openFile path flags
  | (env, .read fh size offset) => p.read env fh size offset
  | (env, .write fh fi_flags buf offset) => p.write env fh fi_flags buf offset
  | (env, .release fh) => p.release env fh
  | (env, .truncate path new_size) => p.truncate env path new_size
  | (_, .chmod path mode) => p.setAttribute path fun st => { st with st_mode := mode }
  | (_, .chown path uid gid) => p.setAttribute path fun st => { st with st_uid := uid, st_gid := gid }
  | (_, .updateTimens path atim mtim) => p.setAttribute path fun st => { st with st_atim := atim, st_mtim := mtim }
  | (_, .readlink path size) => p.readlink path size
  | (env, .makeNode path mode dev) => p.makeNode env path mode dev
  | (env, .makeDir path mode) => p.makeDir env path mode
  | (env, .symlink target path) => p.symlink env target path
  | (_, .unlink path) => p.unlink path
  | (_, .removeDir path) => p.removeDir path
  | (_, .rename old_path new_path) => p.rename old_path new_path
  | (env, .openDir path) => p.openDir env path
  | (env, .readDir fh) => p.readDir env fh
  | (_, .releaseDir fh) => p.releaseDir fh

end Plain
end TableFS
