import TableFS.Lib.Scripts
import TableFS.Sessions

/-! TableFSWrapper of fs/fswrapper.cpp: it gives out small numbers for the open files of a file
system and keeps a path, an offset and a fuse_file_info for each. Its calls are programs that make
requests of the file system, and so does the filler that Lsstat and Scanfile hand to ReadDir. The
iterator behind ReadDir shows the store as it was, so that the filler runs over the names that
ReadDir found; it has no return statement, and what it returns is left to the surroundings. -/
namespace TableFS
open Scripts Script

def FDLIMIT : Nat := 128

/-- fuse_file_info: `fh` is none until Open sets it. -/
structure FileInfo where
  flags : OpenFlags
  fh : Option Nat

structure Wrapper where
  fs : State
  logon : Bool
  freefd : Nat → Bool
  paths : Nat → CString
  offsets : Nat → Int
  fis : Nat → FileInfo

/-- Why a call does not return: it uses an index that is out of bounds or of a free slot, or a
handle that was never set; it reads or writes at a negative offset, which is not modelled; or its
surroundings end while it runs. -/
inductive Stop where
  | badIndex (fd : Int)
  | unsetHandle
  | negativeOffset
  | cut
  deriving DecidableEq

/-- A call in progress, and the surroundings of the requests that it has yet to make. -/
structure Scene where
  wrapper : Wrapper
  envs : List Env

abbrev Call (α : Type) : Type := Script Scene Stop α

namespace Wrapper

/-- Setup in a new process, which has no open descriptors. -/
def setup (vol : Volume) (config : Config) (env : Env) (mode : UInt32) (dev : Nat) (logon : Bool) : Wrapper where
  fs := { vol with disk.fds := [] }.mount config env mode dev
  logon := logon
  freefd := fun _ => false
  paths := fun _ => ⟨[], by simp⟩
  offsets := fun _ => 0
  fis := fun _ => ⟨{}, none⟩

/-- The index denotes a slot that is taken. -/
def Allocated (w : Wrapper) (fd : Int) : Prop := 0 ≤ fd ∧ fd < FDLIMIT ∧ w.freefd fd.toNat = true

instance (w : Wrapper) (fd : Int) : Decidable (w.Allocated fd) := inferInstanceAs (Decidable (_ ∧ _))

/-- An index into freefd, paths, offsets or fis. -/
def use (fd : Int) : Call Nat := fun s =>
  if s.wrapper.Allocated fd then (.ok fd.toNat, s) else (.error (.badIndex fd), s)

/-- A request to the file system. -/
def request (op : Op) : Call (Env × Result) := fun s =>
  match s.envs with
  | [] => (.error .cut, s)
  | env :: envs =>
    let r := step s.wrapper.fs (env, op)
    (.ok (env, r.2), { s with wrapper.fs := r.1, envs := envs })

def update (f : Wrapper → Wrapper) : Call Unit := modify fun s => { s with wrapper := f s.wrapper }

def getFileDescriptor : Call Int := do
  let s ← get
  match (List.range FDLIMIT).find? (fun i => !s.wrapper.freefd i) with
  | some i => do
    update fun w => { w with freefd := Function.update w.freefd i true }
    pure i
  | none => pure (-1)

def releaseFileDescriptor (fd : Int) : Call Unit := do
  let i ← use fd
  update fun w => { w with freefd := Function.update w.freefd i false }

/-- The buffer is left as it was when GetAttr fails. -/
def stat (path : CString) : Call (Int × Stat) := do
  let x ← request (.getAttr path)
  pure (x.2.ret, x.2.stat.getD x.1.memory)

/-- Mknod and Mkdir differ in the request that they make. Its result is not looked at. -/
def create (path : CString) (op : Op) : Call Int := do
  let st ← stat path
  if st.1 = 0 then pure (-1) else do
    let _ ← request op
    let st ← stat path
    pure st.1

def mknod (path : CString) (mode : UInt32) (dev : Nat) : Call Int := create path (.makeNode path mode dev)

def mkdir (path : CString) (mode : UInt32) : Call Int := create path (.makeDir path mode)

/-- The nanoseconds are never set. -/
def utime (path : CString) (actime modtime : Int) (nsec : Int × Int) : Call Int := do
  let x ← request (.updateTimens path ⟨actime, nsec.1⟩ ⟨modtime, nsec.2⟩)
  pure x.2.ret

def chmod (path : CString) (mode : UInt32) : Call Int := do
  let _ ← stat path
  let _ ← request (.chmod path mode)
  let st ← stat path
  pure st.1

def openFile (path : CString) (flags : OpenFlags) : Call Int := do
  let fd ← getFileDescriptor
  let i ← use fd
  update fun w => { w with
    paths := Function.update w.paths i path
    offsets := Function.update w.offsets i 0
    fis := Function.update w.fis i { w.fis i with flags := flags } }
  let x ← request (.openFile path flags)
  if x.2.ret ≠ 0 then do
    releaseFileDescriptor fd
    pure (-1)
  else do
    update fun w => { w with fis := Function.update w.fis i { w.fis i with fh := x.2.fh } }
    pure fd

def seek (fd : Int) (offset : Int) : Call Int := do
  let i ← use fd
  update fun w => { w with offsets := Function.update w.offsets i offset }
  pure 0

/-- The message about a failure names paths[fd]. -/
def report (fd : Int) : Call Unit := do
  let s ← get
  if s.wrapper.logon then do
    let _ ← use fd
    pure ()
  else pure ()

/-- Write and Read differ in the request that they make. -/
def transfer (fd : Int) (op : FileInfo → Nat → Nat → Op) : Call Int := do
  let i ← use fd
  let s ← get
  match (s.wrapper.fis i).fh with
  | none => stop .unsetHandle
  | some fh =>
    if s.wrapper.offsets i < 0 then stop .negativeOffset else do
      let x ← request (op (s.wrapper.fis i) fh (s.wrapper.offsets i).toNat)
      if x.2.ret < 0 then do
        report fd
        pure x.2.ret
      else do
        update fun w => { w with offsets := Function.update w.offsets i (w.offsets i + x.2.ret) }
        pure x.2.ret

def write (fd : Int) (buf : List UInt8) : Call Int :=
  transfer fd fun fi fh offset => .write fh fi.flags buf offset

def read (fd : Int) (size : Nat) : Call Int := transfer fd fun _ fh offset => .read fh size offset

def close (fd : Int) : Call Int := do
  let i ← use fd
  let s ← get
  match (s.wrapper.fis i).fh with
  | none => stop .unsetHandle
  | some fh => do
    let x ← request (.release fh)
    releaseFileDescriptor fd
    if x.2.ret ≠ 0 then do
      report fd
      pure x.2.ret
    else pure x.2.ret

/-- Listdir, Lsstat and Scanfile differ in their filler. None of them releases the directory. -/
def listing (path : CString) (filler : List UInt8 → Call Unit) : Call Int := do
  let x ← request (.openDir path)
  if x.2.ret ≠ 0 then pure (-1) else
    match x.2.fh with
    | none => stop .unsetHandle
    | some fh => do
      let y ← request (.readDir fh)
      forEach y.2.names filler
      if y.2.ret ≠ 0 then pure (-1) else pure y.2.names.length

/-- What strcpy copies. -/
def strcpy (name : List UInt8) : List UInt8 := name.takeWhile (fun c => decide (c ≠ 0))

private theorem zero_notMem_strcpy (name : List UInt8) : 0 ∉ strcpy name := fun h => by
  simpa using List.all_eq_true.mp List.all_takeWhile 0 h

/-- The path with a slash and the name after it. -/
def under (path : CString) (name : List UInt8) : CString :=
  ⟨path.val ++ PATH_DELIMITER :: strcpy name, by
    simp [path.property, zero_notMem_strcpy, PATH_DELIMITER]⟩

def listdir (path : CString) : Call Int := listing path fun _ => pure ()

def lsstat (path : CString) : Call Int := listing path fun name => do
  let _ ← stat (under path name)
  pure ()

/-- The loop of the filler. A round makes one request, so that the count of rounds is no bound of
its own. -/
def scanLoop (fd : Int) (st_size : Nat) : Nat → Int → Call Unit
  | 0, _ => stop .cut
  | n + 1, read_size =>
    if read_size < st_size then do
      let ret ← read fd 4096
      if ret = 0 then pure () else scanLoop fd st_size n (cInt (read_size + ret))
    else pure ()

def scanfileFiller (path : CString) : Call Unit := do
  let st ← stat path
  let fd ← openFile path {}
  let s ← get
  scanLoop fd st.2.st_size (s.envs.length + 1) 0
  let _ ← close fd
  pure ()

def scanfile (path : CString) : Call Int := listing path fun name => scanfileFiller (under path name)

/-- Rename and Unlink turn every failure into -1. -/
def attempt (op : Op) : Call Int := do
  let x ← request op
  pure (if x.2.ret ≠ 0 then -1 else 0)

def rename (old_path new_path : CString) : Call Int := attempt (.rename old_path new_path)

def unlink (path : CString) : Call Int := attempt (.unlink path)

end Wrapper

inductive WrapperCall where
  | mknod (path : CString) (mode : UInt32) (dev : Nat)
  | mkdir (path : CString) (mode : UInt32)
  | utime (path : CString) (actime modtime : Int) (nsec : Int × Int)
  | chmod (path : CString) (mode : UInt32)
  | stat (path : CString)
  | openFile (path : CString) (flags : OpenFlags)
  | seek (fd offset : Int)
  | write (fd : Int) (buf : List UInt8)
  | read (fd : Int) (size : Nat)
  | listdir (path : CString)
  | lsstat (path : CString)
  | scanfile (path : CString)
  | rename (old_path new_path : CString)
  | unlink (path : CString)
  | close (fd : Int)

namespace WrapperCall

def program : WrapperCall → Call Int
  | .mknod path mode dev => Wrapper.mknod path mode dev
  | .mkdir path mode => Wrapper.mkdir path mode
  | .utime path actime modtime nsec => Wrapper.utime path actime modtime nsec
  | .chmod path mode => Wrapper.chmod path mode
  | .stat path => Wrapper.stat path >>= fun st => pure st.1
  | .openFile path flags => Wrapper.openFile path flags
  | .seek fd offset => Wrapper.seek fd offset
  | .write fd buf => Wrapper.write fd buf
  | .read fd size => Wrapper.read fd size
  | .listdir path => Wrapper.listdir path
  | .lsstat path => Wrapper.lsstat path
  | .scanfile path => Wrapper.scanfile path
  | .rename old_path new_path => Wrapper.rename old_path new_path
  | .unlink path => Wrapper.unlink path
  | .close fd => Wrapper.close fd

/-- The descriptors that callers hold after the call returned. -/
def held (opened : List Int) : WrapperCall → Int → List Int
  | .openFile _ _, ret => if ret = -1 then opened else ret :: opened
  | .close fd, _ => opened.erase fd
  | _, _ => opened

/-- The descriptor that a call is given. -/
def given : WrapperCall → Option Int
  | .seek fd _ => some fd
  | .write fd _ => some fd
  | .read fd _ => some fd
  | .close fd => some fd
  | _ => none

/-- The path that a call lists. -/
def listed : WrapperCall → Option CString
  | .listdir path => some path
  | .lsstat path => some path
  | .scanfile path => some path
  | _ => none

end WrapperCall

/-- The wrapper and its callers, with the descriptors that Open returned and Close did not take back. -/
structure Session where
  wrapper : Wrapper
  opened : List Int

namespace Session

def start (w : Wrapper) : Session := ⟨w, []⟩

def scene (s : Session) (envs : List Env) : Scene := ⟨s.wrapper, envs⟩

/-- One call, with the surroundings of its requests. There is nothing to go on from when it does
not return. -/
def serve (s : Session) (c : List Env × WrapperCall) : Session × Except Stop Int :=
  match c.2.program (s.scene c.1) with
  | (.ok ret, s') => (⟨s'.wrapper, c.2.held s.opened ret⟩, .ok ret)
  | (.error e, _) => (s, .error e)

end Session
end TableFS
