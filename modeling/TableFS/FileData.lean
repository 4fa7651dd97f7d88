import TableFS.Inode
import TableFS.Disk

/-! Where file data lives: inline in the inode value, or in a disk file once it passes the
threshold. These are the parts of TableFS::Read, Write and Truncate in fs/tablefs.cpp that
work on one inode value and the disk. -/
namespace TableFS
open ByteSeq

/-- What one call takes from its surroundings: the clock, the FUSE caller, the contents
of uninitialised memory and locals, errno, and the outcome of the store, of each kind of
system call it makes and of the calls of a directory filler. `room` is the number of inline
bytes that the string of a value has room for without being moved. -/
structure Env where
  now : Int
  context : Option (Nat × Nat)
  memory : Stat
  heap : Nat → UInt8
  errno : Nat
  fd : Option Nat
  put : Bool
  commit : Bool
  migrate : IoResult
  data : IoResult
  resize : IoResult
  readBack : IoResult
  room : Nat
  filler : Nat → Int

/-- The n bytes of memory that begin with l. -/
def memoryFrom (heap : Nat → UInt8) (n : Nat) (l : List UInt8) : List UInt8 :=
  l.take n ++ (List.range (n - l.length)).map heap

/-- The C result of a system call, -1 for every error. -/
def cResult (r : Int) : Int := if r < 0 then -1 else r

/-- errno after a system call; success leaves it alone. -/
def errnoAfter (errno : Nat) (r : Int) : Nat := if r < 0 then (-r).toNat else errno

/-- A failing open ends the process, so there is always a descriptor to return. -/
def openDiskFile (d : Disk) (iheader : Header) (flags : OpenFlags) : Disk × Nat :=
  d.openFile (getDiskFilePath iheader.fstat.st_ino) flags

/-- The buffer is new char[size]; what the read does not fill is left as it was. -/
def migrateDiskFileToBuffer (env : Env) (d : Disk) (inode_id : UInt64) (size : Nat) :
    Disk × List UInt8 :=
  let path := getDiskFilePath inode_id
  match d.openRead path with
  | (d, none) => (d.unlinkFile path, memoryFrom env.heap size [])
  | (d, some fd) =>
    let r := d.pread fd size 0 env.readBack
    ((d.closeFile fd).1.unlinkFile path, memoryFrom env.heap size r.2)

/-- Closes a descriptor unless it is negative, and gives errno afterwards. -/
def closeDescriptor (d : Disk) (fd : Option Nat) (errno : Nat) : Disk × Nat :=
  match fd with
  | some n => ((d.closeFile n).1, errnoAfter errno (d.closeFile n).2)
  | none => (d, errno)

/-- The part of Release that closes the disk file; 0 if there is none. -/
def closeHandle (d : Disk) (fd : Option Nat) : Disk × Int :=
  match fd with
  | some n => d.closeFile n
  | none => (d, 0)

/-- Closes the descriptor passed in, opens the disk file and moves the inline data there.
The data is dropped from the value also when it was not all written. -/
def migrateToDiskFile (env : Env) (d : Disk) (value : Value) (fd : Option Nat) (flags : OpenFlags) :
    Disk × Value × Nat × Int :=
  let (d, errno) := closeDescriptor d fd env.errno
  let (d, n) := openDiskFile d value.header flags
  if 0 < value.fstat.st_size then
    let buffer := memoryFrom env.heap value.fstat.st_size value.inline
    let (d, r) := d.pwrite n buffer 0 env.migrate
    let ret : Int := if cResult r ≠ value.fstat.st_size then -(errnoAfter errno r) else 0
    (d, dropInlineData value, n, ret)
  else (d, value, n, 0)

def setSize (value : Value) (size : Nat) : Value :=
  updateInodeHeader value { value.header with fstat := { value.fstat with st_size := size } }

def setSizeAndBlob (value : Value) (size has_blob : Nat) : Value :=
  updateInodeHeader value
    { value.header with fstat := { value.fstat with st_size := size }, has_blob := has_blob }

/-- The descriptor of a handle, opened on first use. -/
def lazyOpen (d : Disk) (iheader : Header) (fd : Option Nat) (flags : OpenFlags) : Disk × Nat :=
  match fd with
  | some n => (d, n)
  | none => openDiskFile d iheader flags

/-- The body of Read. -/
def readValue (env : Env) (d : Disk) (value : Value) (fd : Option Nat) (flags : OpenFlags)
    (size offset : Nat) : Disk × Option Nat × Int × List UInt8 :=
  if 0 < value.header.has_blob then
    let (d, n) := lazyOpen d value.header fd flags
    let r := d.pread n size offset env.data
    (d, some n, cInt (cResult r.1), r.2)
  else
    let b := getInlineData value offset size
    (d, fd, cInt b.length, b)

/-- The last part of Write: a longer file without a migration gets its new size. -/
def growSize (old_size : Nat) (ret : Int) (size : Nat) (value : Value) : Value :=
  if 0 ≤ ret ∧ old_size < size then setSize value size else value

/-- The body of Write: `flags` are the handle's, `fi_flags` those of the request. -/
def writeValue (env : Env) (threshold : Nat) (d : Disk) (value : Value) (fd : Option Nat)
    (flags fi_flags : OpenFlags) (buf : List UInt8) (offset : Nat) :
    Disk × Value × Option Nat × Int :=
  let old_size := value.fstat.st_size
  let size := offset + buf.length
  if 0 < value.header.has_blob then
    let (d, n) := lazyOpen d value.header fd flags
    let (d, r) := d.pwrite n buf offset env.data
    let ret := cInt (cResult r)
    (d, growSize old_size ret size value, some n, ret)
  else if threshold < size then
    let (d, value, n, ret) := migrateToDiskFile env d value fd fi_flags
    if ret = 0 then
      let (d, r) := d.pwrite n buf offset env.data
      (d, setSizeAndBlob value size 1, some n, cInt (cResult r))
    else (d, growSize old_size ret size value, some n, ret)
  else
    let ret := cInt buf.length
    (d, growSize old_size ret size (updateInlineData value buf offset), fd, ret)

/-- The part of Truncate that moves the data. The descriptor handed to MigrateToDiskFile
is a local that was never set. -/
def truncateData (env : Env) (threshold : Nat) (d : Disk) (value : Value) (new_size : Nat) :
    Disk × Value × Int :=
  if 0 < value.header.has_blob then
    if threshold < new_size then
      ((d.truncateFile (getDiskFilePath value.fstat.st_ino) new_size env.resize).1, value, 0)
    else
      let (d, buffer) := migrateDiskFileToBuffer env d value.fstat.st_ino new_size
      (d, updateInlineData value buffer 0, 0)
  else if threshold < new_size then
    let (d, value, n, ret) := migrateToDiskFile env d value env.fd { trunc := true, wronly := true }
    if ret = 0 then
      let (d, r) := d.ftruncate n new_size env.resize
      ((d.closeFile n).1, value, cResult r)
    else (d, value, 0)
  else (d, truncateInlineData value new_size, 0)

/-- The body of Truncate. The old size is read through a pointer into the value's string, after the data was
moved: what it reads is the old size as long as the string stays where it is (see `InPlace`). -/
def truncateValue (env : Env) (threshold : Nat) (d : Disk) (value : Value) (new_size : Nat) :
    Disk × Value × Int :=
  let (d, value', ret) := truncateData env threshold d value new_size
  if new_size ≠ value.fstat.st_size then
    (d, setSizeAndBlob value' new_size (if threshold < new_size then 1 else 0), ret)
  else (d, value', ret)

private theorem keeps_setSize (v : Value) (n : Nat) : Keeps v (setSize v n) := .header rfl rfl

private theorem keeps_setSizeAndBlob (v : Value) (n b : Nat) : Keeps v (setSizeAndBlob v n b) := .header rfl rfl

private theorem keeps_growSize (old_size : Nat) (ret : Int) (size : Nat) (v : Value) :
    Keeps v (growSize old_size ret size v) := by
  unfold growSize
  split
  · exact keeps_setSize v size
  · exact .refl v

private theorem keeps_migrateToDiskFile (env : Env) (d : Disk) (v : Value) (fd : Option Nat) (flags : OpenFlags) :
    Keeps v (migrateToDiskFile env d v fd flags).2.1 := by
  unfold migrateToDiskFile
  dsimp only
  split
  · exact (keeps_dropInlineData v).1
  · exact .refl v

/-- Write changes neither the name nor the inode number. -/
theorem keeps_writeValue (env : Env) (threshold : Nat) (d : Disk) (v : Value) (fd : Option Nat)
    (flags fi_flags : OpenFlags) (buf : List UInt8) (offset : Nat) :
    Keeps v (writeValue env threshold d v fd flags fi_flags buf offset).2.1 := by
  unfold writeValue
  dsimp only
  split
  · exact keeps_growSize ..
  · split
    · split
      · exact (keeps_migrateToDiskFile env d v fd fi_flags).trans (keeps_setSizeAndBlob ..)
      · exact (keeps_migrateToDiskFile env d v fd fi_flags).trans (keeps_growSize ..)
    · dsimp only
      exact (keeps_updateInlineData v buf offset).1.trans (keeps_growSize ..)

theorem keeps_truncateValue (env : Env) (threshold : Nat) (d : Disk) (v : Value) (n : Nat) :
    Keeps v (truncateValue env threshold d v n).2.1 := by
  have hdata : Keeps v (truncateData env threshold d v n).2.1 := by
    unfold truncateData
    dsimp only
    split
    · split
      · exact .refl v
      · exact (keeps_updateInlineData v _ 0).1
    · split
      · split
        · exact keeps_migrateToDiskFile ..
        · exact keeps_migrateToDiskFile ..
      · exact (keeps_truncateInlineData v n).1
  unfold truncateValue
  dsimp only
  split
  · exact hdata.trans (keeps_setSizeAndBlob ..)
  · exact hdata

end TableFS
