import Mathlib.Data.List.Lex
import Mathlib.Data.List.Sort
import TableFS.InodeCache

/-! The iterator of the metadata store as ReadDir uses it: keys in bytewise order, a seek
to the first key not below the target, and the loop that stops at the first key outside the
directory. -/
namespace TableFS

/-- The word whose bytes, lowest first, are given. -/
def ofLe (l : List UInt8) : Nat := l.foldr (fun b n => b.toNat + 256 * n) 0

theorem ofLe_le64 (x : UInt64) : ofLe (le64 x) = x.toNat := by
  have hx := x.toNat_lt
  simp only [ofLe, le64, List.foldr_cons, List.foldr_nil, UInt64.toNat_toUInt8, UInt64.toNat_shiftRight,
    Nat.shiftRight_eq_div_pow, UInt64.reduceToNat, Nat.reduceMod, Nat.reducePow]
  omega

theorem le64_injective : Function.Injective le64 := fun x y h => by
  apply UInt64.toNat_inj.mp
  rw [← ofLe_le64 x, ← ofLe_le64 y, h]

/-- What memcmp looks at. -/
def MetaKey.bytes (key : MetaKey) : List Nat := key.toSlice.map UInt8.toNat

theorem MetaKey.bytes_injective : Function.Injective MetaKey.bytes := fun a b h => by
  have hs : a.toSlice = b.toSlice :=
    List.map_injective_iff.mpr (fun _ _ => UInt8.toNat_inj.mp) h
  obtain ⟨hi, hh⟩ := List.append_inj hs rfl
  cases a
  cases b
  exact congrArg₂ MetaKey.mk (le64_injective hi) (le64_injective hh)

instance : LinearOrder MetaKey := LinearOrder.lift' MetaKey.bytes MetaKey.bytes_injective

/-- The keys of the store in the order of the iterator. -/
def sortedKeys (metadb : MetaDB) : List MetaKey :=
  Quot.liftOn metadb.keys.val (List.insertionSort (· ≤ ·)) fun _ _ h =>
    ((List.perm_insertionSort _ _).trans (h.trans (List.perm_insertionSort _ _).symm)).eq_of_pairwise'
      (List.pairwise_insertionSort _ _) (List.pairwise_insertionSort _ _)

theorem sortedKeys_spec (metadb : MetaDB) :
    (sortedKeys metadb : Multiset MetaKey) = metadb.keys.val ∧ (sortedKeys metadb).Pairwise (· ≤ ·) := by
  unfold sortedKeys
  induction metadb.keys.val using Quot.inductionOn with
  | h l => exact ⟨Quot.sound (List.perm_insertionSort _ l), List.pairwise_insertionSort _ l⟩

/-- The records an iterator yields from Seek(start) on. -/
def iterateFrom (metadb : MetaDB) (start : MetaKey) : List (MetaKey × Value) :=
  ((sortedKeys metadb).filter (fun k => decide (start ≤ k))).filterMap
    (fun k => (metadb.lookup k).map (k, ·))

/-- The C string after the header. -/
def nameBuffer (value : Value) : List UInt8 := value.body.takeWhile (fun c => decide (c ≠ 0))

def isKeyInDir (key dirkey : MetaKey) : Bool := decide (key.inode_id = dirkey.inode_id)

/-- The loop of ReadDir: `filler n` is the result of the n-th call of the filler. -/
def fillDir (filler : Nat → Int) (dirkey : MetaKey) : Nat → List (MetaKey × Value) → Int × List (List UInt8)
  | _, [] => (0, [])
  | n, (key, value) :: rest =>
    if isKeyInDir key dirkey then
      if nameBuffer value = [] then fillDir filler dirkey n rest
      else if filler n < 0 then (-1, [nameBuffer value])
      else
        let r := fillDir filler dirkey (n + 1) rest
        (r.1, nameBuffer value :: r.2)
    else (0, [])

def DOT : List UInt8 := [46]
def DOTDOT : List UInt8 := [46, 46]

/-- The body of ReadDir for a directory whose inode number is given. -/
def listDir (errno : Nat) (filler : Nat → Int) (metadb : MetaDB) (child_inumber : UInt64) :
    Int × List (List UInt8) :=
  let childkey : MetaKey := ⟨child_inumber, if child_inumber = ROOT_INODE_ID then 1 else 0⟩
  if filler 0 < 0 then (-errno, [DOT])
  else if filler 1 < 0 then (-errno, [DOT, DOTDOT])
  else
    let r := fillDir filler childkey 2 (iterateFrom metadb childkey)
    (r.1, DOT :: DOTDOT :: r.2)

end TableFS
