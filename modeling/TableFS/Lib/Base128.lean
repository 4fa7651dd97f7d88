import Mathlib.Data.Nat.Bitwise
import Mathlib.Data.List.TakeDrop

/-! Numbers in base 128, lowest digit first. Every byte but the last of a number has its high bit
set. A reader takes no more than a given number of bytes. -/
namespace Base128

/-- The digits of a number, in no more than so many bytes. -/
def digits : Nat → Nat → List UInt8
  | 0, _ => []
  | k + 1, n => if n < 128 then [.ofNat n] else .ofNat (n % 128 + 128) :: digits k (n / 128)

/-- The number at the front, and what follows it. -/
def read : Nat → List UInt8 → Option (Nat × List UInt8)
  | 0, _ => none
  | _ + 1, [] => none
  | k + 1, b :: s => if b.toNat < 128 then some (b.toNat, s) else (read k s).map fun r =>
      (b.toNat % 128 + 128 * r.1, r.2)

variable {k n : Nat} {s rest : List UInt8}

theorem toNat_last (h : n < 128) : (UInt8.ofNat n).toNat = n := by
  rw [UInt8.toNat_ofNat']
  omega

theorem toNat_more (n : Nat) : (UInt8.ofNat (n % 128 + 128)).toNat = n % 128 + 128 := by
  rw [UInt8.toNat_ofNat']
  omega

theorem div_lt_pow (h : n < 128 ^ (k + 1)) : n / 128 < 128 ^ k := by
  rw [Nat.div_lt_iff_lt_mul (by decide), ← Nat.pow_succ]
  exact h

theorem read_digits (h : n < 128 ^ (k + 1)) (rest : List UInt8) :
    read (k + 1) (digits (k + 1) n ++ rest) = some (n, rest) := by
  induction k generalizing n with
  | zero => simp [digits, read, toNat_last h, show n < 128 from h]
  | succ k ih =>
    rw [digits]
    split
    · rename_i hn
      simp [read, toNat_last hn, hn]
    · have hmore : ¬ n % 128 + 128 < 128 := by omega
      have hdiv : (n % 128 + 128) % 128 + 128 * (n / 128) = n := by omega
      rw [List.cons_append, read, toNat_more, if_neg hmore, ih (div_lt_pow h), Option.map_some, hdiv]

/-- A number that is cut off is not read as another one. -/
theorem read_take {j m : Nat} (hm : m < (digits k n).length) : read j ((digits k n).take m) = none := by
  induction k generalizing n j m with
  | zero => exact absurd hm (Nat.not_lt_zero m)
  | succ k ih =>
    cases j with
    | zero => rfl
    | succ j =>
      cases m with
      | zero => rfl
      | succ m =>
        unfold digits at hm ⊢
        split at hm
        · exact absurd hm (by simp)
        · rename_i hn
          have hmore : ¬ n % 128 + 128 < 128 := by omega
          rw [if_neg hn, List.take_succ_cons]
          simp only [read, toNat_more, if_neg hmore, ih (Nat.lt_of_succ_lt_succ hm), Option.map_none]

/-- More bytes than a number needs make no difference. -/
theorem digits_eq {j : Nat} (h : n < 128 ^ (k + 1)) (h' : n < 128 ^ (j + 1)) : digits (k + 1) n = digits (j + 1) n := by
  have hone (i : Nat) (hn : n < 128) : digits (i + 1) n = [.ofNat n] := if_pos hn
  induction k generalizing n j with
  | zero => rw [hone 0 h, hone j h]
  | succ k ih =>
    cases j with
    | zero => rw [hone (k + 1) h', hone 0 h']
    | succ j =>
      have hrest := ih (div_lt_pow h) (div_lt_pow h') fun i hn => if_pos hn
      exact congrArg (fun l => if n < 128 then [UInt8.ofNat n] else UInt8.ofNat (n % 128 + 128) :: l) hrest

theorem length_read {r : Nat × List UInt8} (h : read k s = some r) : r.2.length < s.length := by
  induction k generalizing s r with
  | zero => cases h
  | succ k ih =>
    cases s with
    | nil => cases h
    | cons b s =>
      unfold read at h
      split at h
      · obtain rfl := Option.some.inj h
        exact Nat.lt_succ_self _
      · obtain ⟨q, hq, rfl⟩ := Option.map_eq_some_iff.mp h
        have hlt := ih hq
        exact Nat.lt_succ_of_lt hlt

/-- A digit is put above the ones that have been read. -/
theorem or_shiftLeft {acc shift : Nat} (hacc : acc < 2 ^ shift) (d : Nat) :
    acc ||| (d <<< shift) = acc + 2 ^ shift * d := by
  rw [Nat.or_comm, ← Nat.shiftLeft_add_eq_or_of_lt hacc, Nat.shiftLeft_eq, Nat.add_comm, Nat.mul_comm]

end Base128
