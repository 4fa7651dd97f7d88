import Mathlib.Data.Set.Insert
import Mathlib.Logic.Function.Basic

/-! Live resources and their owners: every live resource has exactly one, but for those that are
held elsewhere. -/
namespace Owners
variable {ι ν : Type} {others live : Set ν} {own : ι → Option ν}

structure Owned (others live : Set ν) (own : ι → Option ν) : Prop where
  mem_iff : ∀ n, n ∈ live ↔ n ∈ others ∨ ∃ i, own i = some n
  apart : ∀ i n, own i = some n → n ∉ others
  unique : ∀ i j n, own i = some n → own j = some n → i = j

theorem owned_none (others : Set ν) : Owned others others (fun _ : ι => (none : Option ν)) :=
  ⟨by simp, by simp, by simp⟩

/-- What is left of the live resources when one is given up. -/
def without (live : Set ν) (o : Option ν) : Set ν := {n ∈ live | o ≠ some n}

@[simp] theorem without_none (live : Set ν) : without live none = live := by
  ext n
  simp [without]

theorem without_of_notMem {o : Option ν} (h : ∀ n ∈ o, n ∉ live) : without live o = live := by
  ext n
  exact and_iff_left_of_imp fun hn ho => h n ho hn

theorem without_insert {n : ν} (hn : n ∉ live) : without (insert n live) (some n) = live := by
  ext m
  constructor
  · rintro ⟨rfl | hm, hne⟩
    · exact absurd rfl hne
    · exact hm
  · intro hm
    refine ⟨.inr hm, fun he => hn ?_⟩
    rwa [Option.some.inj he]

/-- A live resource that no one owns. -/
theorem Owned.not_insert (h : Owned others live own) {n : ν} (hn : n ∉ live) : ¬ Owned others (insert n live) own :=
  fun h' => hn ((h.mem_iff n).mpr ((h'.mem_iff n).mp (Set.mem_insert n live)))

variable [DecidableEq ι]

/-- A new resource for an owner that has none. -/
theorem Owned.acquire (h : Owned others live own) {n : ν} (hn : n ∉ live) {i : ι} (hi : own i = none) :
    Owned others (insert n live) (Function.update own i (some n)) := by
  have hnone (j : ι) : own j ≠ some n := fun hj => hn ((h.mem_iff n).mpr (.inr ⟨j, hj⟩))
  refine ⟨fun m => ?_, fun j m hj => ?_, fun j k m hj hk => ?_⟩
  · rw [Set.mem_insert_iff, h.mem_iff]
    constructor
    · rintro (rfl | ho | ⟨j, hj⟩)
      · exact .inr ⟨i, Function.update_self ..⟩
      · exact .inl ho
      · have hji : j ≠ i := by
          rintro rfl
          rw [hi] at hj
          cases hj
        exact .inr ⟨j, (Function.update_of_ne hji ..).trans hj⟩
    · rintro (ho | ⟨j, hj⟩)
      · exact .inr (.inl ho)
      · by_cases hji : j = i
        · subst hji
          rw [Function.update_self] at hj
          exact .inl (Option.some.inj hj).symm
        · rw [Function.update_of_ne hji] at hj
          exact .inr (.inr ⟨j, hj⟩)
  · by_cases hji : j = i
    · subst hji
      rw [Function.update_self] at hj
      rw [← Option.some.inj hj]
      exact fun ho => hn ((h.mem_iff n).mpr (.inl ho))
    · rw [Function.update_of_ne hji] at hj
      exact h.apart j m hj
  · by_cases hji : j = i <;> by_cases hki : k = i
    · rw [hji, hki]
    · subst hji
      rw [Function.update_self] at hj
      rw [Function.update_of_ne hki, ← hj] at hk
      exact absurd hk (hnone k)
    · subst hki
      rw [Function.update_self] at hk
      rw [Function.update_of_ne hji, ← hk] at hj
      exact absurd hj (hnone j)
    · rw [Function.update_of_ne hji] at hj
      rw [Function.update_of_ne hki] at hk
      exact h.unique j k m hj hk

/-- An owner gives up what it has. -/
theorem Owned.discard (h : Owned others live own) (i : ι) :
    Owned others (without live (own i)) (Function.update own i none) := by
  have hkept (j : ι) (m : ν) : Function.update own i none j = some m ↔ j ≠ i ∧ own j = some m := by
    by_cases hji : j = i
    · subst hji
      simp
    · simp [hji]
  refine ⟨fun m => ?_, fun j m hj => h.apart j m ((hkept j m).mp hj).2, fun j k m hj hk => ?_⟩
  · simp only [hkept]
    constructor
    · rintro ⟨hm, hne⟩
      rcases (h.mem_iff m).mp hm with ho | ⟨j, hj⟩
      · exact .inl ho
      · exact .inr ⟨j, fun hji => hne (hji ▸ hj), hj⟩
    · rintro (ho | ⟨j, hji, hj⟩)
      · exact ⟨(h.mem_iff m).mpr (.inl ho), fun hi => h.apart i m hi ho⟩
      · exact ⟨(h.mem_iff m).mpr (.inr ⟨j, hj⟩), fun hi => hji (h.unique j i m hj hi)⟩
  · rw [hkept] at hj hk
    exact h.unique j k m hj.2 hk.2

/-- An owner changes what it has for a new resource. -/
theorem Owned.exchange (h : Owned others live own) {n : ν} {i : ι} (hn : n ∉ without live (own i)) :
    Owned others (insert n (without live (own i))) (Function.update own i (some n)) := by
  have hswap := (h.discard i).acquire hn (Function.update_self i none own)
  rwa [Function.update_idem] at hswap

end Owners
