import TableFS.KvWrappers
import TableFS.Lib.Base128
import TableFS.ValueBytes

/-! Numbers and strings as leveldb stores them (util/coding.cc). A slice is the list of its bytes, and
a number of a machine type is below its bound. -/
namespace TableFS.Leveldb
open Kv Raw

def encodeFixed32 (value : Nat) : Bytes := le32 value

def encodeFixed64 (value : Nat) : Bytes := le64 (.ofNat value)

/-- The word at the front of a buffer that has one. -/
def decodeFixed32 (ptr : Bytes) : Nat := ofLe (ptr.take 4)

def decodeFixed64 (ptr : Bytes) : Nat := ofLe (ptr.take 8)

def encodeVarint32 (v : Nat) : Bytes :=
  let B := 128
  if v < 1 <<< 7 then [.ofNat v]
  else if v < 1 <<< 14 then [.ofNat (v ||| B), .ofNat (v >>> 7)]
  else if v < 1 <<< 21 then [.ofNat (v ||| B), .ofNat ((v >>> 7) ||| B), .ofNat (v >>> 14)]
  else if v < 1 <<< 28 then [.ofNat (v ||| B), .ofNat ((v >>> 7) ||| B), .ofNat ((v >>> 14) ||| B), .ofNat (v >>> 21)]
  else [.ofNat (v ||| B), .ofNat ((v >>> 7) ||| B), .ofNat ((v >>> 14) ||| B), .ofNat ((v >>> 21) ||| B),
    .ofNat (v >>> 28)]

/-- The loop, of no more rounds than the buffer has bytes. -/
def encodeVarint64Loop : Nat → Nat → Bytes
  | 0, _ => []
  | n + 1, v =>
    let B := 128
    if B ≤ v then .ofNat ((v &&& (B - 1)) ||| B) :: encodeVarint64Loop n (v >>> 7) else [.ofNat v]

def encodeVarint64 (v : Nat) : Bytes := encodeVarint64Loop 10 v

def varintLengthLoop : Nat → Nat → Nat → Nat
  | 0, _, len => len
  | n + 1, v, len => if 128 ≤ v then varintLengthLoop n (v >>> 7) (len + 1) else len

def varintLength (v : Nat) : Nat := varintLengthLoop 10 v 1

/-- The loop that reads a number of w bits, a byte in each round. -/
def getVarintLoop (w : Nat) : Nat → Nat → Nat → Bytes → Option (Nat × Bytes)
  | 0, _, _, _ => none
  | _ + 1, _, _, [] => none
  | n + 1, shift, result, byte :: p =>
    if byte.toNat &&& 128 ≠ 0 then getVarintLoop w n (shift + 7)
      (result ||| (((byte.toNat &&& 127) <<< shift) % 2 ^ w)) p
    else some (result ||| ((byte.toNat <<< shift) % 2 ^ w), p)

/-- The shifts are 0, 7, up to 28. -/
def getVarint32PtrFallback (p : Bytes) : Option (Nat × Bytes) := getVarintLoop 32 5 0 0 p

/-- A number of one byte is taken at once. -/
def getVarint32Ptr (p : Bytes) : Option (Nat × Bytes) :=
  match p with
  | result :: rest => if result.toNat &&& 128 = 0 then some (result.toNat, rest) else getVarint32PtrFallback p
  | [] => getVarint32PtrFallback p

/-- The shifts are 0, 7, up to 63. -/
def getVarint64Ptr (p : Bytes) : Option (Nat × Bytes) := getVarintLoop 64 10 0 0 p

/-- The length is cut to 32 bits. -/
def putLengthPrefixedSlice (value : Bytes) : Bytes := encodeVarint32 (value.length % 2 ^ 32) ++ value

def getLengthPrefixedSlice (input : Bytes) : Option (Bytes × Bytes) :=
  match getVarint32Ptr input with
  | none => none
  | some (len, rest) => if len ≤ rest.length then some (rest.take len, rest.drop len) else none

section
variable {v n : Nat} {p rest : Bytes}

theorem length_encodeFixed32 (n : Nat) : (encodeFixed32 n).length = 4 := rfl

theorem decodeFixed32_encodeFixed32 (h : v < 2 ^ 32) (rest : Bytes) : decodeFixed32 (encodeFixed32 v ++ rest) = v := by
  have hlen : (le32 v).length = 4 := rfl
  rw [decodeFixed32, encodeFixed32, List.take_left' hlen, ofLe_le32, uint32, Nat.mod_eq_of_lt h]

theorem decodeFixed64_encodeFixed64 (h : v < 2 ^ 64) (rest : Bytes) : decodeFixed64 (encodeFixed64 v ++ rest) = v := by
  have hlen : (le64 (.ofNat v)).length = 8 := rfl
  rw [decodeFixed64, encodeFixed64, List.take_left' hlen, ofLe_le64, UInt64.toNat_ofNat', Nat.mod_eq_of_lt h]

private theorem ofNat_or_128 (v : Nat) : UInt8.ofNat (v ||| 128) = .ofNat (v % 128 + 128) := by
  have hbyte : ∀ m : Fin 256, (m.val ||| 128) = m.val % 128 + 128 := by decide +kernel
  have hv : v % 256 ||| 128 = v % 256 % 128 + 128 := hbyte ⟨v % 256, Nat.mod_lt v (by decide)⟩
  apply UInt8.toNat_inj.mp
  rw [UInt8.toNat_ofNat', UInt8.toNat_ofNat', Nat.or_mod_two_pow, show 128 % 2 ^ 8 = 128 from rfl,
    show 2 ^ 8 = 256 from rfl, hv]
  omega

private theorem and_128_eq_zero (b : UInt8) : b.toNat &&& 128 = 0 ↔ b.toNat < 128 := by
  have hbyte : ∀ m : Fin 256, m.val &&& 128 = 0 ↔ m.val < 128 := by decide +kernel
  exact hbyte ⟨b.toNat, b.toNat_lt⟩

private theorem encodeVarint32_eq (h : v < 2 ^ 32) : encodeVarint32 v = Base128.digits 5 v := by
  simp only [encodeVarint32, Base128.digits, ofNat_or_128, Nat.shiftRight_eq_div_pow, Nat.reduceShiftLeft,
    Nat.reducePow, Nat.div_div_eq_div_mul, Nat.reduceMul]
  split
  · rfl
  · split
    · rw [if_pos (by omega)]
    · split
      · rw [if_neg (by omega), if_pos (by omega)]
      · split
        · rw [if_neg (by omega), if_neg (by omega), if_pos (by omega)]
        · rw [if_neg (by omega), if_neg (by omega), if_neg (by omega), if_pos (by omega)]

private theorem encodeVarint64Loop_eq (n v : Nat) : encodeVarint64Loop n v = Base128.digits n v := by
  induction n generalizing v with
  | zero => rfl
  | succ n ih =>
    have hand : v &&& 127 = v % 128 := Nat.and_two_pow_sub_one_eq_mod v 7
    simp only [encodeVarint64Loop, Base128.digits, ih, Nat.shiftRight_eq_div_pow, Nat.reduceSub, hand, ofNat_or_128,
      Nat.reducePow, Nat.mod_mod]
    by_cases hv : v < 128
    · rw [if_neg (by omega), if_pos hv]
    · rw [if_pos (by omega), if_neg hv]

private theorem varintLengthLoop_eq {n : Nat} (h : v < 128 ^ (n + 1)) (len : Nat) :
    varintLengthLoop n v (len + 1) = len + (Base128.digits (n + 1) v).length := by
  induction n generalizing v len with
  | zero => simp [varintLengthLoop, Base128.digits, show v < 128 from h]
  | succ n ih =>
    rw [varintLengthLoop, Base128.digits]
    by_cases hv : v < 128
    · rw [if_neg (by omega), if_pos hv]
      rfl
    · rw [if_pos (by omega), if_neg hv, Nat.shiftRight_eq_div_pow, ih (Base128.div_lt_pow h), List.length_cons]
      omega

private theorem getVarintLoop_eq (w n shift acc : Nat) (p : Bytes) (hacc : acc < 2 ^ shift) :
    getVarintLoop w n shift (acc % 2 ^ w) p = (Base128.read n p).map fun r =>
      ((acc + 2 ^ shift * r.1) % 2 ^ w, r.2) := by
  induction n generalizing shift acc p with
  | zero => rfl
  | succ n ih =>
    cases p with
    | nil => rfl
    | cons byte p =>
      have hput (d : Nat) : (acc % 2 ^ w) ||| ((d <<< shift) % 2 ^ w) = (acc + 2 ^ shift * d) % 2 ^ w := by
        rw [← Nat.or_mod_two_pow, Base128.or_shiftLeft hacc]
      have hand : byte.toNat &&& 127 = byte.toNat % 128 := Nat.and_two_pow_sub_one_eq_mod byte.toNat 7
      simp only [getVarintLoop, Base128.read, hput, ne_eq, and_128_eq_zero, hand]
      by_cases hb : byte.toNat < 128
      · simp [hb]
      · have hnext : acc + 2 ^ shift * (byte.toNat % 128) < 2 ^ (shift + 7) := by
          have hdigit : byte.toNat % 128 ≤ 127 := by omega
          have hle := Nat.mul_le_mul_left (2 ^ shift) hdigit
          rw [Nat.pow_add]
          omega
        simp only [hb, not_false_eq_true, if_true, if_false]
        rw [ih (shift + 7) _ p hnext, Option.map_map]
        congr 1
        funext r
        rw [Function.comp_apply, Nat.pow_add, Nat.mul_add, ← Nat.add_assoc, ← Nat.mul_assoc]

private theorem getVarint32PtrFallback_eq (p : Bytes) :
    getVarint32PtrFallback p = (Base128.read 5 p).map fun r => (r.1 % 2 ^ 32, r.2) := by
  simpa [getVarint32PtrFallback] using getVarintLoop_eq 32 5 0 0 p Nat.one_pos

private theorem getVarint32Ptr_eq (p : Bytes) :
    getVarint32Ptr p = (Base128.read 5 p).map fun r => (r.1 % 2 ^ 32, r.2) := by
  have hloop := getVarint32PtrFallback_eq p
  cases p with
  | nil => exact hloop
  | cons b p =>
    by_cases hb : b.toNat < 128
    · simp [getVarint32Ptr, and_128_eq_zero, hb, Base128.read]
    · simpa [getVarint32Ptr, and_128_eq_zero, hb] using hloop

private theorem getVarint64Ptr_eq (p : Bytes) :
    getVarint64Ptr p = (Base128.read 10 p).map fun r => (r.1 % 2 ^ 64, r.2) := by
  simpa [getVarint64Ptr] using getVarintLoop_eq 64 10 0 0 p Nat.one_pos

theorem getVarint32Ptr_encodeVarint32 (h : v < 2 ^ 32) (rest : Bytes) :
    getVarint32Ptr (encodeVarint32 v ++ rest) = some (v, rest) := by
  rw [encodeVarint32_eq h, getVarint32Ptr_eq, Base128.read_digits (by omega), Option.map_some, Nat.mod_eq_of_lt h]

private theorem getVarint64Ptr_encodeVarint64 (h : v < 2 ^ 64) (rest : Bytes) :
    getVarint64Ptr (encodeVarint64 v ++ rest) = some (v, rest) := by
  rw [encodeVarint64, encodeVarint64Loop_eq, getVarint64Ptr_eq, Base128.read_digits (by omega), Option.map_some,
    Nat.mod_eq_of_lt h]

theorem getLengthPrefixedSlice_put {value : Bytes} (h : value.length < 2 ^ 32) (rest : Bytes) :
    getLengthPrefixedSlice (putLengthPrefixedSlice value ++ rest) = some (value, rest) := by
  rw [putLengthPrefixedSlice, Nat.mod_eq_of_lt h, List.append_assoc, getLengthPrefixedSlice,
    getVarint32Ptr_encodeVarint32 h]
  simp

/-- A string that is cut off is not read as a shorter one. -/
theorem getLengthPrefixedSlice_take {value : Bytes} (h : value.length < 2 ^ 32) {n : Nat}
    (hn : n < (putLengthPrefixedSlice value).length) :
    getLengthPrefixedSlice ((putLengthPrefixedSlice value).take n) = none := by
  rw [putLengthPrefixedSlice, Nat.mod_eq_of_lt h, List.length_append] at hn
  rw [putLengthPrefixedSlice, Nat.mod_eq_of_lt h, getLengthPrefixedSlice]
  by_cases hlen : n < (encodeVarint32 value.length).length
  · rw [List.take_append_of_le_length (Nat.le_of_lt hlen), getVarint32Ptr_eq, encodeVarint32_eq h, Base128.read_take]
    · rfl
    · rwa [encodeVarint32_eq h] at hlen
  · rw [List.take_append, List.take_of_length_le (Nat.le_of_not_lt hlen), getVarint32Ptr_encodeVarint32 h]
    refine if_neg ?_
    rw [List.length_take]
    omega

theorem length_getLengthPrefixedSlice {input : Bytes} {r : Bytes × Bytes} (h : getLengthPrefixedSlice input = some r) :
    r.2.length < input.length := by
  unfold getLengthPrefixedSlice at h
  rw [getVarint32Ptr_eq] at h
  cases hr : Base128.read 5 input with
  | none => rw [hr] at h; cases h
  | some q =>
    rw [hr, Option.map_some] at h
    simp only at h
    split at h
    · obtain rfl := Option.some.inj h
      have := Base128.length_read hr
      simp only [List.length_drop]
      omega
    · cases h

/-- A number is read back whatever follows it, its encoding has the length that is computed for it, and
no proper beginning of it is read as a number. The two encodings of a number of 32 bits are the same, and
the two readers of such numbers agree on all bytes. -/
theorem varint_round_trip (v : Nat) (rest : Bytes) (h : v < 2 ^ 64) :
    getVarint64Ptr (encodeVarint64 v ++ rest) = some (v, rest) ∧ (encodeVarint64 v).length = varintLength v ∧
      (∀ n < (encodeVarint64 v).length, getVarint64Ptr ((encodeVarint64 v).take n) = none) ∧
      (v < 2 ^ 32 → encodeVarint32 v = encodeVarint64 v ∧ getVarint32Ptr (encodeVarint32 v ++ rest) = some (v, rest) ∧
        ∀ n < (encodeVarint32 v).length, getVarint32Ptr ((encodeVarint32 v).take n) = none) ∧
      ∀ p, getVarint32PtrFallback p = getVarint32Ptr p := by
  have hdigits : encodeVarint64 v = Base128.digits 10 v := encodeVarint64Loop_eq 10 v
  refine ⟨getVarint64Ptr_encodeVarint64 h rest, ?_, fun n hn => ?_,
    fun h32 => ⟨?_, getVarint32Ptr_encodeVarint32 h32 rest, fun n hn => ?_⟩, fun p => ?_⟩
  · have hlen : varintLength v = 0 + (Base128.digits 11 v).length := varintLengthLoop_eq (n := 10) (by omega) 0
    rw [hdigits, hlen, Nat.zero_add, Base128.digits_eq (k := 9) (j := 10) (by omega) (by omega)]
  · rw [hdigits] at hn ⊢
    rw [getVarint64Ptr_eq, Base128.read_take hn, Option.map_none]
  · rw [hdigits, encodeVarint32_eq h32, Base128.digits_eq (k := 4) (j := 9) (by omega) (by omega)]
  · rw [encodeVarint32_eq h32] at hn ⊢
    rw [getVarint32Ptr_eq, Base128.read_take hn, Option.map_none]
  · rw [getVarint32PtrFallback_eq, getVarint32Ptr_eq]

theorem varint_round_trip_300 : getVarint64Ptr (encodeVarint64 300 ++ [1]) = some (300, [1]) :=
  (varint_round_trip 300 [1] (by decide)).1

end

end TableFS.Leveldb
