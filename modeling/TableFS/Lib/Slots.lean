import Mathlib.Data.List.Basic

/-! Tables of slots, each free or holding a value. -/
namespace Slots
variable {α : Type}

def slot (l : List (Option α)) (i : Nat) : Option α := l[i]?.join

def push (l : List (Option α)) (x : α) : List (Option α) := l ++ [some x]

def clear (l : List (Option α)) (i : Nat) : List (Option α) := l.set i none

def replace (l : List (Option α)) (i : Nat) (x : α) : List (Option α) := l.set i (some x)

/-- The lowest free slot, which may be the one past the end. -/
def free (l : List (Option α)) : Nat := l.findIdx Option.isNone

def put (l : List (Option α)) (x : α) : List (Option α) :=
  if free l < l.length then l.set (free l) (some x) else l ++ [some x]

theorem slot_push (l : List (Option α)) (x : α) (j : Nat) :
    slot (push l x) j = if j = l.length then some x else slot l j := by
  rcases Nat.lt_trichotomy j l.length with h | h | h
  · simp [slot, push, List.getElem?_append_left h, Nat.ne_of_lt h]
  · simp [slot, push, h]
  · simp [slot, push, Nat.ne_of_gt h, List.getElem?_eq_none (Nat.le_of_lt h),
      List.getElem?_eq_none (show (l ++ [some x]).length ≤ j by simp; omega)]

theorem lt_of_slot {l : List (Option α)} {i : Nat} {x : α} (h : slot l i = some x) : i < l.length := by
  by_contra hn
  simp [slot, List.getElem?_eq_none (Nat.le_of_not_lt hn)] at h

theorem getElem_of_slot {l : List (Option α)} {i : Nat} {x : α} (h : slot l i = some x) :
    l[i]? = some (some x) := by
  have hl := lt_of_slot h
  simp only [slot, List.getElem?_eq_getElem hl, Option.join_some] at h
  rw [List.getElem?_eq_getElem hl, h]

/-- A slot read together with what its value points at. -/
theorem slot_bind_eq_some {β : Type} {l : List (Option α)} {i : Nat} {f : α → Option β} {x : α} {y : β} :
    ((slot l i).bind fun a => (f a).map fun b => (a, b)) = some (x, y) ↔ slot l i = some x ∧ f x = some y := by
  simp only [Option.bind_eq_some_iff, Option.map_eq_some_iff, Prod.mk.injEq]
  constructor
  · rintro ⟨x', hx, y', hy, rfl, rfl⟩
    exact ⟨hx, hy⟩
  · rintro ⟨hx, hy⟩
    exact ⟨x, hx, y, hy, rfl, rfl⟩

theorem slot_of_forall_none {l : List (Option α)} (h : ∀ o ∈ l, o = none) (i : Nat) : slot l i = none := by
  cases hs : slot l i with
  | none => rfl
  | some x => exact absurd (h _ (List.mem_of_getElem? (getElem_of_slot hs))) (by simp)

theorem slot_clear (l : List (Option α)) (i j : Nat) :
    slot (clear l i) j = if j = i then none else slot l j := by
  by_cases h : j = i
  · subst h
    by_cases hl : j < l.length
    · simp [slot, clear, hl]
    · have hn := Nat.le_of_not_lt hl
      simp [slot, clear, List.set_eq_of_length_le hn, List.getElem?_eq_none hn]
  · simp [slot, clear, List.getElem?_set_ne (Ne.symm h), h]

theorem slot_replace {l : List (Option α)} {i : Nat} (hl : i < l.length) (x : α) (j : Nat) :
    slot (replace l i x) j = if j = i then some x else slot l j := by
  by_cases h : j = i
  · subst h
    simp [slot, replace, hl]
  · simp [slot, replace, List.getElem?_set_ne (Ne.symm h), h]

@[simp] theorem length_clear (l : List (Option α)) (i : Nat) : (clear l i).length = l.length := by
  simp [clear]

@[simp] theorem length_replace (l : List (Option α)) (i : Nat) (x : α) :
    (replace l i x).length = l.length := by simp [replace]

@[simp] theorem length_push (l : List (Option α)) (x : α) : (push l x).length = l.length + 1 := by
  simp [push]

theorem slot_free (l : List (Option α)) : slot l (free l) = none := by
  by_cases h : free l < l.length
  · have hn := List.findIdx_getElem (w := h)
    rw [slot, List.getElem?_eq_getElem h, Option.join_some]
    exact Option.isNone_iff_eq_none.mp hn
  · simp [slot, List.getElem?_eq_none (Nat.le_of_not_lt h)]

theorem slot_put (l : List (Option α)) (x : α) (j : Nat) :
    slot (put l x) j = if j = free l then some x else slot l j := by
  unfold put
  split
  · exact slot_replace ‹_› x j
  · have he : free l = l.length := Nat.le_antisymm List.findIdx_le_length (by omega)
    rw [he]
    exact slot_push l x j

section Count
variable (p : α → Bool)

/-- How many slots hold a value satisfying p. -/
def count (l : List (Option α)) : Nat := l.countP (fun o => o.any p)

theorem count_push (l : List (Option α)) (x : α) :
    count p (push l x) = count p l + if p x then 1 else 0 := by
  simp [count, push, List.countP_append, List.countP_singleton]

theorem count_clear {l : List (Option α)} {i : Nat} {x : α} (h : slot l i = some x) :
    count p (clear l i) = count p l - if p x then 1 else 0 := by
  have hl := lt_of_slot h
  have hx : l[i] = some x := by simpa [slot, hl] using h
  simp [count, clear, List.countP_set hl, hx]

theorem count_replace {l : List (Option α)} {i : Nat} {x y : α} (h : slot l i = some x)
    (hp : p y = p x) : count p (replace l i y) = count p l := by
  have hl := lt_of_slot h
  have hx : l[i] = some x := by simpa [slot, hl] using h
  have hle : (if p x then 1 else 0) ≤ count p l := by
    split
    · rename_i hpx
      exact List.countP_pos_iff.mpr ⟨some x, by rw [← hx]; exact List.getElem_mem hl, by simpa using hpx⟩
    · exact Nat.zero_le _
  simp only [count] at hle
  simp only [count, replace, List.countP_set hl, hx, Option.any_some, hp]
  omega

theorem count_pos_iff (l : List (Option α)) : 0 < count p l ↔ ∃ i x, slot l i = some x ∧ p x = true := by
  rw [count, List.countP_pos_iff]
  constructor
  · rintro ⟨o, ho, hp⟩
    obtain ⟨i, hi, rfl⟩ := List.mem_iff_getElem.mp ho
    cases hx : l[i] with
    | none => simp [hx] at hp
    | some x => exact ⟨i, x, by simp [slot, hi, hx], by simpa [hx] using hp⟩
  · rintro ⟨i, x, hs, hp⟩
    exact ⟨some x, List.mem_of_getElem? (getElem_of_slot hs), by simpa using hp⟩

end Count
end Slots
