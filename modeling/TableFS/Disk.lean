import Mathlib.Data.Finmap
import TableFS.Lib.ByteSeq
import TableFS.Lib.Slots

/-! The data files under the data directory as the operating system keeps them: a
directory of names, file contents, and open descriptors. A file that is unlinked lives on
behind its descriptors. -/
namespace TableFS
open ByteSeq Slots

/-- The access mode and the two flags with an effect on an open file. -/
structure OpenFlags where
  wronly : Bool := false
  rdwr : Bool := false
  trunc : Bool := false
  append : Bool := false
  deriving DecidableEq, Repr

def O_RDWR : OpenFlags := { rdwr := true }

def OpenFlags.writable (flags : OpenFlags) : Bool := flags.wronly || flags.rdwr

/-- What a system call on a data file does: all of it, the first n bytes, or nothing. -/
inductive IoResult where
  | full
  | short (n : Nat)
  | fail (errno : Nat) (pos : 0 < errno)
  deriving DecidableEq, Repr

def ENOENT : Nat := 2
def EBADF : Nat := 9

/-- Conversion to a 32-bit int. -/
def cInt (n : Int) : Int := Int.bmod n 4294967296

private theorem cInt_eq {n : Nat} (h : n < 4294967296) :
    cInt n = if n < 2147483648 then (n : Int) else n - 4294967296 := by
  have hm : (n : Int) % (4294967296 : Nat) = n := Int.emod_eq_of_lt (by omega) (by omega)
  unfold cInt Int.bmod
  simp only [hm]
  split <;> split <;> omega

theorem cInt_of_lt {n : Nat} (h : n < 2147483648) : cInt n = n := by
  rw [cInt_eq (Nat.lt_trans h (by decide)), if_pos h]

/-- The two numbers of a data file's path: subdirectory and file. -/
abbrev DiskPath := Int × Int

def getDiskFilePath (inode_id : UInt64) : DiskPath :=
  let i := cInt inode_id.toNat
  (i / 16384, i.tmod 16384)

structure Descriptor where
  file : Nat
  flags : OpenFlags
  deriving DecidableEq, Repr

structure Disk where
  names : Finmap (fun _ : DiskPath => Nat)
  files : List (List UInt8)
  fds : List (Option Descriptor)

namespace Disk

def empty : Disk := ⟨∅, [], []⟩

/-- open(2) with O_CREAT: the descriptor is the lowest free number. -/
def openFile (d : Disk) (path : DiskPath) (flags : OpenFlags) : Disk × Nat :=
  match d.names.lookup path with
  | some f => ({ d with
      files := if flags.trunc then d.files.set f [] else d.files
      fds := put d.fds ⟨f, flags⟩ }, free d.fds)
  | none => ({
      names := d.names.insert path d.files.length
      files := d.files ++ [[]]
      fds := put d.fds ⟨d.files.length, flags⟩ }, free d.fds)

/-- open(2) for reading, without O_CREAT. -/
def openRead (d : Disk) (path : DiskPath) : Disk × Option Nat :=
  match d.names.lookup path with
  | some f => ({ d with fds := put d.fds ⟨f, {}⟩ }, some (free d.fds))
  | none => (d, none)

def closeFile (d : Disk) (fd : Nat) : Disk × Int :=
  match slot d.fds fd with
  | some _ => ({ d with fds := clear d.fds fd }, 0)
  | none => (d, -EBADF)

def unlinkFile (d : Disk) (path : DiskPath) : Disk := { d with names := d.names.erase path }

def contents (d : Disk) (f : Nat) : List UInt8 := d.files[f]?.getD []

/-- The contents of the file a path names. -/
def content (d : Disk) (path : DiskPath) : Option (List UInt8) := (d.names.lookup path).map d.contents

/-- System calls return a count or a negated error number. -/
def transfer : IoResult → List UInt8 → Int × List UInt8
  | .full, b => (b.length, b)
  | .short n, b => ((b.take n).length, b.take n)
  | .fail errno _, _ => (-errno, [])

def pread (d : Disk) (fd size offset : Nat) (io : IoResult) : Int × List UInt8 :=
  match slot d.fds fd with
  | some x =>
    if x.flags.wronly then (-EBADF, []) else transfer io (slice offset size (d.contents x.file))
  | none => (-EBADF, [])

/-- Writing no bytes does not extend a file; with O_APPEND the offset is ignored. -/
def pwrite (d : Disk) (fd : Nat) (buf : List UInt8) (offset : Nat) (io : IoResult) : Disk × Int :=
  match slot d.fds fd with
  | some x =>
    if x.flags.writable then
      let r := transfer io buf
      let old := d.contents x.file
      let offset := if x.flags.append then old.length else offset
      (if r.2 = [] then d else { d with files := d.files.set x.file (overlay 0 offset r.2 old) }, r.1)
    else (d, -EBADF)
  | none => (d, -EBADF)

/-- The result of a call that moves no bytes. -/
def status : IoResult → Int
  | .full => 0
  | .short _ => 0
  | .fail errno _ => -errno

def ftruncate (d : Disk) (fd : Nat) (new_size : Nat) (io : IoResult) : Disk × Int :=
  match slot d.fds fd with
  | some x =>
    if x.flags.writable then
      (if status io = 0 then { d with files := d.files.set x.file (resize 0 new_size (d.contents x.file)) }
        else d, status io)
    else (d, -EBADF)
  | none => (d, -EBADF)

def truncateFile (d : Disk) (path : DiskPath) (new_size : Nat) (io : IoResult) : Disk × Int :=
  match d.names.lookup path with
  | some f =>
    (if status io = 0 then { d with files := d.files.set f (resize 0 new_size (d.contents f)) } else d,
      status io)
  | none => (d, -ENOENT)

end Disk
end TableFS
