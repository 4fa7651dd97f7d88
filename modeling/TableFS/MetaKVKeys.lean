import Mathlib.Data.List.TakeWhile
import TableFS.DirScan
import TableFS.KvWrappers

/-! The keys of MetaKVWrapper as MetaKV stores them: tfsKey of adaptor/metakv_wrapper.h. Encode puts
each half of the key behind its size. Decode makes the rest of the encoding a C string before it
reads the second size, and a size has a NUL among its eight bytes unless it is enormous. -/
namespace TableFS.Kv

/-- The memory from data() on, and the size that the slice says it has. -/
structure Slice where
  memory : Bytes
  size : Nat
  inside : size ≤ memory.length

namespace Slice

def ofString (s : Bytes) : Slice := ⟨s, s.length, Nat.le_refl _⟩

/-- Slice(const char*): as far as the first NUL. -/
def ofPointer (memory : Bytes) : Slice :=
  ⟨memory, (memory.takeWhile (· ≠ 0)).length, (List.takeWhile_sublist _).length_le⟩

def bytes (s : Slice) : Bytes := s.memory.take s.size

def removeFront (s : Slice) (n : Nat) : Slice :=
  ⟨s.memory.drop n, s.size - n, by
    rw [List.length_drop]
    exact Nat.sub_le_sub_right s.inside n⟩

end Slice

/-- A fixed-size number is not there, or a string would reach past the end of the memory. -/
inductive DecodeError where
  | short
  | outside
  deriving DecidableEq

def putFixed64 (buff : Bytes) (n : Nat) : Bytes := buff ++ le64 (.ofNat n)

def getFixed64 (s : Slice) : Except DecodeError (Nat × Slice) :=
  if s.size < 8 then .error .short else .ok (ofLe (s.memory.take 8), s.removeFront 8)

/-- std::string(data, n). -/
def stringAt (memory : Bytes) (n : Nat) : Except DecodeError Bytes :=
  if n ≤ memory.length then .ok (memory.take n) else .error .outside

structure TfsKey where
  prefix_ : Bytes
  suffix_ : Bytes
  deriving DecidableEq

namespace TfsKey

/-- The key of a record of the file system. -/
def ofKey (key : Key) : TfsKey := ⟨(tfsKey key).1, (tfsKey key).2⟩

def encodeSize (k : TfsKey) : Nat := (k.prefix_.length + k.suffix_.length + 2 * 8) % 2 ^ 64

def encode (k : TfsKey) : Bytes :=
  putFixed64 (putFixed64 [] k.prefix_.length ++ k.prefix_) k.suffix_.length ++ k.suffix_

/-- internal_key_ on an encoding, which other memory comes after. -/
def internalKey (k : TfsKey) (after : Bytes) : Slice :=
  ⟨k.encode ++ after, k.encode.length, by
    rw [List.length_append]
    exact Nat.le_add_right _ _⟩

def decode (internal_key_ : Slice) : Except DecodeError TfsKey := do
  let (prefix_size, temp) ← getFixed64 internal_key_
  let prefix_ ← stringAt temp.memory prefix_size
  let temp := Slice.ofPointer (temp.memory.drop prefix_size)
  let (suffix_size, temp) ← getFixed64 temp
  let suffix_ ← stringAt temp.memory suffix_size
  return ⟨prefix_, suffix_⟩

def getPrefix (k : TfsKey) : Slice := .ofString k.prefix_

def getSuffix (k : TfsKey) : Slice := .ofString k.suffix_

end TfsKey

section
variable {front rest : Bytes} {n : Nat}

private theorem length_le64 (x : UInt64) : (le64 x).length = 8 := rfl

private theorem ofLe_le64_ofNat (h : n < 2 ^ 64) : ofLe (le64 (.ofNat n)) = n := by
  rw [ofLe_le64, UInt64.toNat_ofNat', Nat.mod_eq_of_lt h]

private theorem getFixed64_le64 {s : Slice} (hs : s.memory = le64 (.ofNat n) ++ rest) (hsize : 8 ≤ s.size)
    (hn : n < 2 ^ 64) :
    ∃ s', getFixed64 s = .ok (n, s') ∧ s'.memory = rest := by
  refine ⟨s.removeFront 8, ?_, ?_⟩
  · rw [getFixed64, if_neg (Nat.not_lt.mpr hsize), hs, List.take_left' (length_le64 _), ofLe_le64_ofNat hn]
  · exact (congrArg (List.drop 8) hs).trans (List.drop_left' (length_le64 _))

private theorem stringAt_append (s rest : Bytes) : stringAt (s ++ rest) s.length = .ok s := by
  rw [stringAt, if_pos (by simp), List.take_left]

private theorem length_le_ofPointer_iff : front.length ≤ (Slice.ofPointer (front ++ rest)).size ↔ 0 ∉ front := by
  change front.length ≤ ((front ++ rest).takeWhile (· ≠ 0)).length ↔ _
  constructor
  · intro hle hnul
    have hne : (front.takeWhile (· ≠ 0)).length ≠ front.length := fun he => by
      have hself := (List.takeWhile_sublist _).eq_of_length he
      simpa using List.takeWhile_eq_self_iff.mp hself 0 hnul
    rw [List.takeWhile_append, if_neg hne] at hle
    exact hne (Nat.le_antisymm (List.takeWhile_sublist _).length_le hle)
  · intro hnul
    rw [List.takeWhile_append_of_pos fun c hc => by simpa using ne_of_mem_of_not_mem hc hnul, List.length_append]
    exact Nat.le_add_right _ _

end

namespace TfsKey
variable {k : TfsKey}

private theorem encode_eq (k : TfsKey) :
    k.encode = le64 (.ofNat k.prefix_.length) ++ (k.prefix_ ++ (le64 (.ofNat k.suffix_.length) ++ k.suffix_)) := by
  simp [encode, putFixed64]

private theorem length_encode (k : TfsKey) : k.encode.length = k.prefix_.length + k.suffix_.length + 16 := by
  simp only [encode_eq, List.length_append, length_le64]
  omega

private theorem decode_internalKey (hk : k.prefix_.length < 2 ^ 64) (after : Bytes) :
    decode (k.internalKey after) = (do
      let (suffix_size, temp) ← getFixed64 (.ofPointer (le64 (.ofNat k.suffix_.length) ++ (k.suffix_ ++ after)))
      let suffix_ ← stringAt temp.memory suffix_size
      return ⟨k.prefix_, suffix_⟩) := by
  have hmemory : (k.internalKey after).memory =
      le64 (.ofNat k.prefix_.length) ++ (k.prefix_ ++ (le64 (.ofNat k.suffix_.length) ++ (k.suffix_ ++ after))) := by
    simp [internalKey, encode_eq]
  have hsize : 8 ≤ (k.internalKey after).size := by
    have hlen : (k.internalKey after).size = _ := k.length_encode
    omega
  obtain ⟨temp, hget, htemp⟩ := getFixed64_le64 hmemory hsize hk
  unfold decode
  simp only [hget, htemp, stringAt_append, List.drop_left, bind, Except.bind]

private theorem reaches_size_iff (k : TfsKey) (after : Bytes) :
    8 ≤ (Slice.ofPointer (le64 (.ofNat k.suffix_.length) ++ (k.suffix_ ++ after))).size ↔
      0 ∉ le64 (.ofNat k.suffix_.length) := by
  rw [← length_le_ofPointer_iff, length_le64]

private theorem decode_of_nul (hk : k.prefix_.length < 2 ^ 64) (hnul : 0 ∈ le64 (.ofNat k.suffix_.length))
    (after : Bytes) :
    decode (k.internalKey after) = .error .short := by
  rw [decode_internalKey hk, getFixed64, if_pos (Nat.lt_of_not_le fun hle => (k.reaches_size_iff after).mp hle hnul)]
  rfl

private theorem decode_of_no_nul (hk : k.prefix_.length < 2 ^ 64) (hk' : k.suffix_.length < 2 ^ 64)
    (hnul : 0 ∉ le64 (.ofNat k.suffix_.length)) (after : Bytes) : decode (k.internalKey after) = .ok k := by
  obtain ⟨temp, hget, htemp⟩ := getFixed64_le64 (s := .ofPointer _) rfl ((k.reaches_size_iff after).mpr hnul) hk'
  rw [decode_internalKey hk, hget]
  simp only [htemp, stringAt_append, bind, Except.bind, pure, Except.pure]

/-- The encoding has the size that EncodeSize says. Decode restores the key exactly if no byte of
the second size is NUL, and otherwise the size cannot be read. -/
theorem decode_encode_iff (k : TfsKey) (hk : k.prefix_.length + k.suffix_.length + 16 < 2 ^ 64) (after : Bytes) :
    k.encode.length = k.encodeSize ∧
      (decode (k.internalKey after) = .ok k ∧ k.getPrefix.bytes = k.prefix_ ∧ k.getSuffix.bytes = k.suffix_ ↔
        0 ∉ le64 (.ofNat k.suffix_.length)) ∧
      (0 ∈ le64 (.ofNat k.suffix_.length) → decode (k.internalKey after) = .error .short) := by
  have hfull (s : Bytes) : (Slice.ofString s).bytes = s := List.take_length
  have hfail := fun hnul => decode_of_nul (k := k) (by omega) hnul after
  refine ⟨?_, ⟨?_, ?_⟩, hfail⟩
  · rw [length_encode, encodeSize, Nat.mod_eq_of_lt hk]
  · rintro ⟨hok, _⟩ hnul
    rw [hfail hnul] at hok
    cases hok
  · intro hnul
    exact ⟨decode_of_no_nul (by omega) (by omega) hnul after, hfull _, hfull _⟩

/-- A suffix of 0x0101010101010101 bytes is restored. -/
theorem decode_encode_iff_huge :
    let k : TfsKey := ⟨[0], List.replicate 72340172838076673 0⟩
    decode (k.internalKey [0]) = .ok k := by
  intro k
  have hlen : k.suffix_.length = 72340172838076673 := List.length_replicate
  have hsize : k.prefix_.length + k.suffix_.length + 16 < 2 ^ 64 := by
    rw [hlen]
    decide
  have hnul : 0 ∉ le64 (.ofNat k.suffix_.length) := by
    rw [hlen]
    decide
  exact ((decode_encode_iff k hsize [0]).2.1.mpr hnul).1

private theorem decode_ofKey (key : Key) (after : Bytes) : decode ((ofKey key).internalKey after) = .error .short := by
  have hlen : (ofKey key).prefix_.length = 8 ∧ (ofKey key).suffix_.length = 8 := by
    simp [ofKey, tfsKey, key.property]
  refine decode_of_nul ?_ ?_ after
  · rw [hlen.1]
    decide
  · rw [hlen.2]
    decide

/-- The key of the root directory, in the buffer that Encode fills. -/
theorem decode_root_key_fails :
    let k := ofKey ⟨rootKey.toSlice, rfl⟩
    k.encode.length = 32 ∧ decode (k.internalKey [0]) = .error .short :=
  ⟨by decide +kernel, decode_ofKey _ _⟩

end TfsKey
end TableFS.Kv
