import TableFS.RenameLoss
import TableFS.Wrapper

/-! What Scanfile is there for, said of the file system alone: every name of a directory is opened,
read up to its size and released, through handles and with no descriptor table between. -/
namespace TableFS
open Scripts Script

/-- A listed name cannot be read, or the surroundings end. -/
inductive ScanStop where
  | unreadable
  | cut
  deriving DecidableEq

/-- Requests made one after the other, each in the next of the surroundings. -/
abbrev Requests (α : Type) : Type := Script (State × List Env) ScanStop α

namespace Requests

def ask (op : Op) : Requests (Env × Result) := fun s =>
  match s.2 with
  | [] => (.error .cut, s)
  | env :: envs => (.ok (env, (step s.1 (env, op)).2), ((step s.1 (env, op)).1, envs))

/-- A failed GetAttr leaves the buffer as it was. -/
def sizeOf (path : CString) : Requests Nat := do
  let x ← ask (.getAttr path)
  pure (x.2.stat.getD x.1.memory).st_size

/-- Reads up to the size, or until one gives nothing. A Read that fails moves the count of bytes, but
not the offset. -/
def readThrough (fh st_size : Nat) : Nat → Int → Nat → Requests Unit
  | 0, _, _ => stop .cut
  | n + 1, read_size, offset =>
    if read_size < st_size then do
      let x ← ask (.read fh 4096 offset)
      if x.2.ret = 0 then pure ()
      else readThrough fh st_size n (cInt (read_size + x.2.ret)) (offset + x.2.ret.toNat)
    else pure ()

/-- A name is readable if there is a slot for it and it leads to an inode when its turn comes. The
handle is the next one of the table of open files. -/
def readName (slotFree : Bool) (path : CString) : Requests Unit := do
  let st_size ← sizeOf path
  let s ← get
  if slotFree = false then stop .unreadable else do
    let _ ← ask (.openFile path {})
    if ¬ s.1.Leads path then stop .unreadable else do
      let s' ← get
      readThrough s.1.files.length st_size (s'.2.length + 1) 0 0
      let _ ← ask (.release s.1.files.length)
      pure ()

def readNames (slotFree : Bool) (path : CString) : Requests Unit := do
  let x ← ask (.openDir path)
  match x.2.fh with
  | none => pure ()
  | some fh => do
    let y ← ask (.readDir fh)
    forEach y.2.names fun name => readName slotFree (Wrapper.under path name)

end Requests

/-- The directory has a name that cannot be read. -/
def State.Unreadable (s : State) (envs : List Env) (slotFree : Bool) (path : CString) : Prop :=
  (Requests.readNames slotFree path (s, envs)).1 = .error .unreadable

instance (s : State) (envs : List Env) (slotFree : Bool) (path : CString) :
    Decidable (s.Unreadable envs slotFree path) :=
  inferInstanceAs (Decidable ((_ : Except ScanStop Unit) = _))

end TableFS
