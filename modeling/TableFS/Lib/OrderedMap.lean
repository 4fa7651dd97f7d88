import Mathlib.Data.List.Basic

/-! Ordered maps built from a list of entries, one after the other. -/
namespace OrderedMap
open Std
variable {κ ν : Type} {cmp : κ → κ → Ordering}

/-- No key occurs twice. -/
def Distinct (cmp : κ → κ → Ordering) (entries : List (κ × ν)) : Prop :=
  entries.Pairwise fun a b => ¬ cmp a.1 b.1 = .eq

/-- The keys of an initial segment of the entries, whatever the values. -/
theorem Distinct.of_keys {entries entries' : List (κ × ν)} (h : Distinct cmp entries)
    (hkeys : entries'.map Prod.fst <+: entries.map Prod.fst) : Distinct cmp entries' := by
  have hmap : (entries.map Prod.fst).Pairwise fun a b => ¬ cmp a b = .eq := List.pairwise_map.mpr h
  exact List.pairwise_map.mp (hmap.sublist hkeys.sublist)

variable [TransCmp cmp]

theorem foldl_insert (t : ExtTreeMap κ ν cmp) (entries : List (κ × ν)) :
    entries.foldl (fun t entry => t.insert entry.1 entry.2) t = t.insertMany entries := by
  induction entries generalizing t with
  | nil => exact ExtTreeMap.insertMany_nil.symm
  | cons entry entries ih => exact (ih _).trans ExtTreeMap.insertMany_cons.symm

variable [LawfulEqCmp cmp]

theorem getElem?_ofList_iff {entries : List (κ × ν)} (h : Distinct cmp entries) (key : κ) (value : ν) :
    (ExtTreeMap.ofList entries cmp)[key]? = some value ↔ (key, value) ∈ entries := by
  classical
  have hmem {value : ν} (hv : (key, value) ∈ entries) : (ExtTreeMap.ofList entries cmp)[key]? = some value :=
    ExtTreeMap.getElem?_ofList_of_mem ReflCmp.compare_self h hv
  constructor
  · intro hget
    by_cases hkey : key ∈ entries.map Prod.fst
    · obtain ⟨⟨_, value'⟩, hv, rfl⟩ := List.mem_map.mp hkey
      rw [hmem hv, Option.some.injEq] at hget
      exact hget ▸ hv
    · rw [ExtTreeMap.getElem?_ofList_of_contains_eq_false (by simpa using hkey)] at hget
      cases hget
  · exact hmem

/-- The map of distinct entries is the map that has just them. -/
theorem ofList_eq_iff {entries : List (κ × ν)} (h : Distinct cmp entries) (t : ExtTreeMap κ ν cmp) :
    ExtTreeMap.ofList entries cmp = t ↔ ∀ key value, (key, value) ∈ entries ↔ t[key]? = some value := by
  constructor
  · rintro rfl key value
    exact (getElem?_ofList_iff h key value).symm
  · intro hiff
    refine ExtTreeMap.ext_getElem? fun key => Option.ext fun value => ?_
    rw [getElem?_ofList_iff h, hiff]

end OrderedMap
