import Mathlib.Data.Nat.Bitwise

/-! A shift register with feedback, lowest bit first, as checksums use it. The step is linear over
exclusive or; where the feedback has the highest bit, nothing but zero is lost. -/
namespace ShiftRegister
variable {p w x y n : Nat}

def shift (p x : Nat) : Nat := (x >>> 1) ^^^ (if x % 2 = 1 then p else 0)

def shifts (p : Nat) : Nat → Nat → Nat
  | 0, x => x
  | n + 1, x => shifts p n (shift p x)

theorem xor_swap (a b c d : Nat) : (a ^^^ b) ^^^ (c ^^^ d) = (a ^^^ c) ^^^ (b ^^^ d) := by
  rw [Nat.xor_assoc, Nat.xor_assoc, ← Nat.xor_assoc b, ← Nat.xor_assoc c, Nat.xor_comm b c]

theorem shift_xor (p x y : Nat) : shift p (x ^^^ y) = shift p x ^^^ shift p y := by
  have hodd : (x ^^^ y) % 2 = 1 ↔ ¬ (x % 2 = 1 ↔ y % 2 = 1) := Nat.xor_mod_two_eq_one
  unfold shift
  rw [Nat.shiftRight_xor_distrib, xor_swap]
  congr 1
  by_cases hx : x % 2 = 1 <;> by_cases hy : y % 2 = 1 <;> simp only [hodd, hx, hy]
  · exact (Nat.xor_self p).symm
  · exact (Nat.xor_zero p).symm
  · exact (Nat.zero_xor p).symm
  · simp

theorem shifts_xor (p n x y : Nat) : shifts p n (x ^^^ y) = shifts p n x ^^^ shifts p n y := by
  induction n generalizing x y with
  | zero => rfl
  | succ n ih => rw [shifts, shift_xor, ih, shifts, shifts]

theorem shifts_add (p m n x : Nat) : shifts p (m + n) x = shifts p n (shifts p m x) := by
  induction m generalizing x with
  | zero => rw [Nat.zero_add, shifts]
  | succ m ih => rw [Nat.succ_add, shifts, ih, shifts]

/-- Zeros at the bottom are shifted out. -/
theorem shifts_shiftLeft (p n y : Nat) : shifts p n (y <<< n) = y := by
  induction n generalizing y with
  | zero => rfl
  | succ n ih =>
    have hshift : shift p (y <<< (n + 1)) = y <<< n := by
      have heven : ¬ y <<< (n + 1) % 2 = 1 := by
        rw [Nat.shiftLeft_succ]
        omega
      rw [shift, if_neg heven, Nat.xor_zero, Nat.shiftLeft_succ, Nat.shiftRight_eq_div_pow]
      omega
    rw [shifts, hshift, ih]

theorem shift_lt (hp : p < 2 ^ w) (hx : x < 2 ^ w) : shift p x < 2 ^ w := by
  refine Nat.xor_lt_two_pow ?_ ?_
  · exact Nat.lt_of_le_of_lt (Nat.shiftRight_le x 1) hx
  · split
    · exact hp
    · exact Nat.two_pow_pos w

theorem shifts_lt (hp : p < 2 ^ w) (hx : x < 2 ^ w) : shifts p n x < 2 ^ w := by
  induction n generalizing x with
  | zero => exact hx
  | succ n ih => exact ih (shift_lt hp hx)

/-- The feedback has the highest bit of the register. -/
structure Feedback (p w : Nat) : Prop where
  lt : p < 2 ^ w
  high : 2 ^ w ≤ 2 * p

theorem Feedback.shift_eq_zero (hp : Feedback p w) (hx : x < 2 ^ w) (h : shift p x = 0) : x = 0 := by
  unfold shift at h
  split at h
  · -- an odd number would leave the feedback in the highest bit
    have he := Nat.xor_eq_zero_iff.mp h
    have := hp.high
    rw [Nat.shiftRight_eq_div_pow] at he
    omega
  · rw [Nat.xor_zero, Nat.shiftRight_eq_div_pow] at h
    omega

theorem Feedback.shifts_eq_zero (hp : Feedback p w) (hx : x < 2 ^ w) (h : shifts p n x = 0) : x = 0 := by
  induction n generalizing x with
  | zero => exact h
  | succ n ih => exact hp.shift_eq_zero hx (ih (shift_lt hp.lt hx) h)

theorem Feedback.shifts_inj (hp : Feedback p w) (hx : x < 2 ^ w) (hy : y < 2 ^ w) (h : shifts p n x = shifts p n y) :
    x = y := by
  have hzero : shifts p n (x ^^^ y) = 0 := by rw [shifts_xor, h, Nat.xor_self]
  exact Nat.xor_eq_zero_iff.mp (hp.shifts_eq_zero (Nat.xor_lt_two_pow hx hy) hzero)

/-- A byte is taken into the register. -/
def feed (p l : Nat) (b : UInt8) : Nat := shifts p 8 (l ^^^ b.toNat)

/-- The bytes as one number, the first one lowest. -/
def word : List UInt8 → Nat
  | [] => 0
  | b :: bs => b.toNat ^^^ (word bs <<< 8)

theorem xor_shiftLeft_eq (b : UInt8) (x : Nat) : b.toNat ^^^ (x <<< 8) = b.toNat + 256 * x := by
  have hb : b.toNat < 2 ^ 8 := b.toNat_lt
  have hdisjoint : b.toNat ^^^ (x <<< 8) = b.toNat ||| (x <<< 8) := by
    apply Nat.eq_of_testBit_eq
    intro i
    rw [Nat.testBit_xor, Nat.testBit_or, Nat.testBit_shiftLeft]
    by_cases hi : 8 ≤ i
    · have : b.toNat.testBit i = false := Nat.testBit_lt_two_pow (Nat.lt_of_lt_of_le hb (Nat.pow_le_pow_right (by decide) hi))
      simp [this]
    · simp [hi]
  rw [hdisjoint, Nat.or_comm, ← Nat.shiftLeft_add_eq_or_of_lt hb, Nat.shiftLeft_eq]
  omega

theorem word_cons (b : UInt8) (bs : List UInt8) : word (b :: bs) = b.toNat + 256 * word bs := xor_shiftLeft_eq b _

theorem word_lt (bs : List UInt8) : word bs < 2 ^ (8 * bs.length) := by
  induction bs with
  | nil => exact Nat.one_pos
  | cons b bs ih =>
    have hb : b.toNat < 256 := b.toNat_lt
    rw [word_cons, List.length_cons, Nat.mul_succ, Nat.pow_add]
    omega

theorem word_inj {bs bs' : List UInt8} (hlen : bs.length = bs'.length) (h : word bs = word bs') : bs = bs' := by
  induction bs generalizing bs' with
  | nil => exact (List.length_eq_zero_iff.mp hlen.symm).symm
  | cons b bs ih =>
    cases bs' with
    | nil => cases hlen
    | cons b' bs' =>
      have hb : b.toNat < 256 := b.toNat_lt
      have hb' : b'.toNat < 256 := b'.toNat_lt
      rw [word_cons, word_cons] at h
      rw [UInt8.toNat_inj.mp (show b.toNat = b'.toNat by omega), ih (Nat.succ.inj hlen) (by omega)]

/-- Bytes taken one after the other are taken as one number. -/
theorem foldl_feed (p l : Nat) (bs : List UInt8) : bs.foldl (feed p) l = shifts p (8 * bs.length) (l ^^^ word bs) := by
  induction bs generalizing l with
  | nil => simp [word, shifts]
  | cons b bs ih =>
    have hshift : shifts p 8 (l ^^^ word (b :: bs)) = feed p l b ^^^ word bs := by
      rw [word, ← Nat.xor_assoc, shifts_xor, shifts_shiftLeft, feed]
    rw [List.foldl_cons, ih, List.length_cons, Nat.mul_succ, Nat.add_comm, shifts_add, hshift]

theorem foldl_feed_lt (hp : p < 2 ^ w) (hw : 8 ≤ w) {l : Nat} (hl : l < 2 ^ w) (bs : List UInt8) :
    bs.foldl (feed p) l < 2 ^ w := by
  induction bs generalizing l with
  | nil => exact hl
  | cons b bs ih =>
    refine ih (shifts_lt hp (Nat.xor_lt_two_pow hl ?_))
    exact Nat.lt_of_lt_of_le b.toNat_lt (Nat.pow_le_pow_right (by decide) hw)

/-- Registers that differ stay different while they take the same bytes. -/
theorem Feedback.foldl_feed_inj (hp : Feedback p w) (hw : 8 ≤ w) {l l' : Nat} (hl : l < 2 ^ w) (hl' : l' < 2 ^ w)
    {bs : List UInt8} (h : bs.foldl (feed p) l = bs.foldl (feed p) l') : l = l' := by
  induction bs generalizing l l' with
  | nil => exact h
  | cons b bs ih =>
    have hb : b.toNat < 2 ^ w := Nat.lt_of_lt_of_le b.toNat_lt (Nat.pow_le_pow_right (by decide) hw)
    have hx := Nat.xor_lt_two_pow hl hb
    have hx' := Nat.xor_lt_two_pow hl' hb
    have heq : feed p l b = feed p l' b := ih (shifts_lt hp.lt hx) (shifts_lt hp.lt hx') h
    have := congrArg (· ^^^ b.toNat) (hp.shifts_inj hx hx' heq)
    simpa only [Nat.xor_assoc, Nat.xor_self, Nat.xor_zero] using this

/-- A change of bytes that fit into the register changes it. -/
theorem Feedback.burst (hp : Feedback p w) (hw : 8 ≤ w) {l : Nat} (hl : l < 2 ^ w) {mid mid' : List UInt8}
    (hlen : mid.length = mid'.length) (hfit : 8 * mid.length ≤ w) (hne : mid ≠ mid') (pre post : List UInt8) :
    (pre ++ mid ++ post).foldl (feed p) l ≠ (pre ++ mid' ++ post).foldl (feed p) l := by
  intro h
  simp only [List.foldl_append] at h
  have hpre := foldl_feed_lt hp.lt hw hl pre
  have hmid := hp.foldl_feed_inj hw (foldl_feed_lt hp.lt hw hpre mid) (foldl_feed_lt hp.lt hw hpre mid') h
  have hword (bs : List UInt8) (hbs : 8 * bs.length ≤ w) : pre.foldl (feed p) l ^^^ word bs < 2 ^ w :=
    Nat.xor_lt_two_pow hpre (Nat.lt_of_lt_of_le (word_lt bs) (Nat.pow_le_pow_right (by decide) hbs))
  rw [foldl_feed, foldl_feed p _ mid', ← hlen] at hmid
  have hx := congrArg (pre.foldl (feed p) l ^^^ ·) (hp.shifts_inj (hword mid hfit) (hword mid' (hlen ▸ hfit)) hmid)
  simp only [← Nat.xor_assoc, Nat.xor_self, Nat.zero_xor] at hx
  exact hne (word_inj hlen hx)

end ShiftRegister
