import Mathlib.Data.Finmap
import TableFS.Hash
import TableFS.Lib.ByteSeq

/-! Keys, attributes and inode values of the metadata table: fs/tfs_inode.h and the
helpers at the head of fs/tablefs.cpp. -/
namespace TableFS
open ByteSeq

/-- The bytes of a C string before its terminator. -/
abbrev CString := { s : List UInt8 // (0 : UInt8) ∉ s }

structure MetaKey where
  inode_id : UInt64
  hash_id : UInt64
  deriving DecidableEq, Repr

def ROOT_INODE_ID : UInt64 := 0

/-- The eight bytes of a word as they lie in memory, lowest first. -/
def le64 (x : UInt64) : List UInt8 :=
  [x.toUInt8, (x >>> 8).toUInt8, (x >>> 16).toUInt8, (x >>> 24).toUInt8,
    (x >>> 32).toUInt8, (x >>> 40).toUInt8, (x >>> 48).toUInt8, (x >>> 56).toUInt8]

def MetaKey.toSlice (key : MetaKey) : List UInt8 := le64 key.inode_id ++ le64 key.hash_id

/-- The key of a name below an inode. -/
def buildMetaKey (name : List UInt8) (inode_id : UInt64) : MetaKey := ⟨inode_id, murmur64 name 123⟩

/-- The root directory is stored below itself under the empty name. -/
def rootKey : MetaKey := buildMetaKey [] ROOT_INODE_ID

structure Timespec where
  tv_sec : Int
  tv_nsec : Int
  deriving DecidableEq, Repr

structure Stat where
  st_dev : Nat
  st_ino : UInt64
  st_nlink : Nat
  st_mode : UInt32
  st_uid : Nat
  st_gid : Nat
  st_size : Nat
  st_blksize : Nat
  st_blocks : Nat
  st_atim : Timespec
  st_mtim : Timespec
  st_ctim : Timespec
  deriving DecidableEq, Repr

/-- The names are shorter than 2^31 bytes, so that `namelen + 1` stays a number of 32 bits. -/
structure Header where
  fstat : Stat
  has_blob : Nat
  namelen : Nat
  deriving DecidableEq, Repr

/-- The string stored for an inode: the header, then the name, a NUL and the inline
data. Offsets into `body` are offsets into the string less the header size. -/
structure Value where
  header : Header
  body : List UInt8
  deriving DecidableEq, Repr

def S_IFMT : UInt32 := 0o170000
def S_IFREG : UInt32 := 0o100000
def S_IFDIR : UInt32 := 0o040000
def S_IFLNK : UInt32 := 0o120000

def S_ISREG (mode : UInt32) : Bool := mode &&& S_IFMT == S_IFREG
def S_ISDIR (mode : UInt32) : Bool := mode &&& S_IFMT == S_IFDIR

namespace Value

abbrev fstat (v : Value) : Stat := v.header.fstat

/-- The namelen bytes after the header. -/
def name (v : Value) : List UInt8 := v.body.take v.header.namelen

/-- The bytes after the name's terminator. -/
def inline (v : Value) : List UInt8 := v.body.drop (v.header.namelen + 1)

/-- The name with its terminator. -/
def label (v : Value) : List UInt8 := v.body.take (v.header.namelen + 1)

/-- The value is long enough for its name and the terminator. -/
def Sized (v : Value) : Prop := v.header.namelen + 1 ≤ v.body.length

instance (v : Value) : Decidable v.Sized := inferInstanceAs (Decidable (_ ≤ _))

end Value

def getInlineData (v : Value) (offset size : Nat) : List UInt8 :=
  slice (v.header.namelen + 1 + offset) size v.body

def updateInodeHeader (v : Value) (new_header : Header) : Value := { v with header := new_header }

def updateAttribute (v : Value) (new_fstat : Stat) : Value :=
  { v with header := { v.header with fstat := new_fstat } }

def updateInlineData (v : Value) (buf : List UInt8) (offset : Nat) : Value :=
  { v with body := overlay 0 (v.header.namelen + 1 + offset) buf v.body }

def truncateInlineData (v : Value) (new_size : Nat) : Value :=
  { v with body := resize 0 (v.header.namelen + new_size + 1) v.body }

def dropInlineData (v : Value) : Value := { v with body := resize 0 (v.header.namelen + 1) v.body }

/-- `statbuf` is what the memory held before: the access and modification seconds are
left as they were. `context` is the caller of a request when FUSE is enabled. -/
def initStat (statbuf : Stat) (inode : UInt64) (mode : UInt32) (dev : Nat)
    (context : Option (Nat × Nat)) (now : Int) : Stat :=
  { statbuf with
    st_ino := inode
    st_mode := mode
    st_dev := dev
    st_uid := (context.map Prod.fst).getD 0
    st_gid := (context.map Prod.snd).getD 0
    st_size := 0
    st_blksize := 0
    st_blocks := 0
    st_nlink := if S_ISREG mode then 1 else 2
    st_atim := { statbuf.st_atim with tv_nsec := 0 }
    st_mtim := { statbuf.st_mtim with tv_nsec := 0 }
    st_ctim := ⟨now, 0⟩ }

/-- A fresh value built over uninitialised memory. -/
def initInodeValue (memory : Stat) (inum : UInt64) (mode : UInt32) (dev : Nat)
    (filename : List UInt8) (context : Option (Nat × Nat)) (now : Int) : Value :=
  { header := ⟨initStat memory inum mode dev context now, 0, filename.length⟩
    body := filename ++ [0] }

/-- The value of a link: the target follows the name, without a terminator of its own. -/
def initSymlinkValue (memory : Stat) (inum : UInt64) (filename target : List UInt8)
    (context : Option (Nat × Nat)) (now : Int) : Value :=
  { header := ⟨initStat memory inum S_IFLNK 0 context now, 0, filename.length⟩
    body := filename ++ [0] ++ target }

/-- The rename form: the name is replaced, everything else is kept. -/
def renameInodeValue (old_value : Value) (filename : List UInt8) : Value :=
  updateInodeHeader
    { old_value with body := filename ++ [0] ++ old_value.body.drop (old_value.header.namelen + 1) }
    { old_value.header with namelen := filename.length }

theorem getInlineData_eq (v : Value) (offset size : Nat) :
    getInlineData v offset size = slice offset size v.inline := by
  simp [getInlineData, slice, Value.inline, List.drop_drop]

@[simp] theorem header_renameInodeValue (v : Value) (filename : List UInt8) :
    (renameInodeValue v filename).header = { v.header with namelen := filename.length } := rfl

@[simp] theorem inline_renameInodeValue (v : Value) (filename : List UInt8) :
    (renameInodeValue v filename).inline = v.inline := by
  simp [renameInodeValue, updateInodeHeader, Value.inline]

/-- The value carries a name, with its terminator. -/
structure Value.Named (v : Value) (name : List UInt8) : Prop where
  namelen : v.header.namelen = name.length
  sized : v.Sized
  label : v.label = name ++ [0]

theorem Value.Named.name_eq {v : Value} {name : List UInt8} (h : v.Named name) : v.name = name := by
  have hl := congrArg (List.take v.header.namelen) h.label
  simpa [Value.name, Value.label, List.take_take, h.namelen] using hl

theorem named_initInodeValue (memory : Stat) (inum : UInt64) (mode : UInt32) (dev : Nat)
    (filename : List UInt8) (context : Option (Nat × Nat)) (now : Int) :
    (initInodeValue memory inum mode dev filename context now).Named filename :=
  ⟨rfl, by simp [initInodeValue, Value.Sized], List.take_of_length_le (by simp [initInodeValue])⟩

theorem named_initSymlinkValue (memory : Stat) (inum : UInt64) (filename target : List UInt8)
    (context : Option (Nat × Nat)) (now : Int) :
    (initSymlinkValue memory inum filename target context now).Named filename :=
  ⟨rfl, by simp [initSymlinkValue, Value.Sized], List.take_left' (by simp [initSymlinkValue])⟩

theorem named_renameInodeValue (v : Value) (filename : List UInt8) :
    (renameInodeValue v filename).Named filename :=
  ⟨rfl, by simp [renameInodeValue, updateInodeHeader, Value.Sized], List.take_left' (by simp)⟩

/-- A later value of the same inode: only attributes other than the number and the
data may differ. -/
structure Keeps (v v' : Value) : Prop where
  namelen : v'.header.namelen = v.header.namelen
  ino : v'.fstat.st_ino = v.fstat.st_ino
  sized : v.Sized → v'.Sized
  label : v.Sized → v'.label = v.label

namespace Keeps
variable {v v' v'' : Value}

theorem named (h : Keeps v v') {name : List UInt8} (hn : v.Named name) : v'.Named name :=
  ⟨h.namelen.trans hn.namelen, h.sized hn.sized, (h.label hn.sized).trans hn.label⟩

theorem refl (v : Value) : Keeps v v := ⟨rfl, rfl, id, fun _ => rfl⟩

theorem trans (h : Keeps v v') (h' : Keeps v' v'') : Keeps v v'' :=
  ⟨h'.namelen.trans h.namelen, h'.ino.trans h.ino, fun hs => h'.sized (h.sized hs),
    fun hs => (h'.label (h.sized hs)).trans (h.label hs)⟩

theorem name (h : Keeps v v') (hs : v.Sized) : v'.name = v.name := by
  have hl := congrArg (List.take v.header.namelen) (h.label hs)
  simpa [Value.name, Value.label, h.namelen, List.take_take] using hl

/-- A new header that keeps the inode number and the name length. -/
theorem header {hd : Header} (hn : hd.namelen = v.header.namelen)
    (hi : hd.fstat.st_ino = v.fstat.st_ino) : Keeps v (updateInodeHeader v hd) :=
  ⟨hn, hi, fun hs => by simpa [Value.Sized, updateInodeHeader, hn] using hs,
    fun _ => by simp [Value.label, updateInodeHeader, hn]⟩

theorem attr {st : Stat} (hi : st.st_ino = v.fstat.st_ino) : Keeps v (updateAttribute v st) :=
  ⟨rfl, hi, id, fun _ => rfl⟩

end Keeps

/-- A body that starts with the old label keeps the name, whatever data follows. -/
private theorem keeps_of_body {v : Value} (data : List UInt8) {b : List UInt8}
    (hb : v.Sized → b = v.label ++ data) (hl : v.Sized → v.header.namelen + 1 ≤ b.length) :
    Keeps v { v with body := b } ∧ (v.Sized → ({ v with body := b } : Value).inline = data) := by
  have hlen (hs : v.Sized) : v.label.length = v.header.namelen + 1 := by
    unfold Value.Sized at hs
    simpa [Value.label] using hs
  refine ⟨⟨rfl, rfl, hl, ?_⟩, ?_⟩
  · intro hs
    simp only [Value.label, hb hs]
    exact List.take_left' (hlen hs)
  · intro hs
    simp only [Value.inline, hb hs]
    exact List.drop_left' (hlen hs)

private theorem body_eq (v : Value) : v.body = v.label ++ v.inline :=
  (List.take_append_drop (v.header.namelen + 1) v.body).symm

private theorem length_label {v : Value} (hs : v.Sized) : v.label.length = v.header.namelen + 1 := by
  unfold Value.Sized at hs
  simpa [Value.label] using hs

theorem keeps_updateInlineData (v : Value) (buf : List UInt8) (offset : Nat) :
    Keeps v (updateInlineData v buf offset) ∧
      (v.Sized → (updateInlineData v buf offset).inline = overlay 0 offset buf v.inline) := by
  apply keeps_of_body (overlay 0 offset buf v.inline)
  · intro hs
    conv_lhs => rw [body_eq v]
    rw [← length_label hs]
    exact overlay_append 0 v.label v.inline buf offset
  · intro hs
    unfold Value.Sized at hs
    rw [length_overlay]
    omega

theorem keeps_truncateInlineData (v : Value) (n : Nat) :
    Keeps v (truncateInlineData v n) ∧
      (v.Sized → (truncateInlineData v n).inline = resize 0 n v.inline) := by
  apply keeps_of_body (resize 0 n v.inline)
  · intro hs
    conv_lhs => rw [body_eq v]
    rw [Nat.add_right_comm, ← length_label hs]
    exact resize_append 0 v.label v.inline n
  · intro _
    rw [length_resize]
    omega

theorem keeps_dropInlineData (v : Value) :
    Keeps v (dropInlineData v) ∧ (v.Sized → (dropInlineData v).inline = []) := by
  have h := keeps_truncateInlineData v 0
  simpa [truncateInlineData, dropInlineData] using h

end TableFS
