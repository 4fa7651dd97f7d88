import Mathlib.Logic.Relation
import Mathlib.Logic.Function.Basic

/-! Trees stored as a map: each entry has an id, and each key names the id of the entry it
is below. -/
namespace ParentTree
open Relation
variable {K V I : Type} (up : K → I) (ident : V → I) (dir : V → Prop)

/-- The entry under the second key is a directory that the first key is below. -/
def Parent (m : K → Option V) (k k' : K) : Prop := ∃ v, m k' = some v ∧ dir v ∧ ident v = up k

/-- From every entry the parents lead to the root, and ids are unique. -/
structure Tree (m : K → Option V) (root : K) : Prop where
  root_self : Parent up ident dir m root root
  rooted : ∀ k v, m k = some v → ReflTransGen (Parent up ident dir m) k root
  unique : ∀ k k' v v', m k = some v → m k' = some v' → ident v = ident v' → k = k'

/-- Nothing is below the key. -/
def Leaf (m : K → Option V) (k : K) : Prop := ∀ k' v, m k' = some v → ¬ Parent up ident dir m k' k

/-- The parents of the key lead to the root past the key a. -/
def RootedWithout (m : K → Option V) (root a k : K) : Prop :=
  ReflTransGen (fun x y => Parent up ident dir m x y ∧ y ≠ a) k root

variable {up ident dir} {m m' : K → Option V} {root a b : K} {v v' : V}

theorem Tree.parent (ht : Tree up ident dir m root) {k : K} (hk : m k = some v) :
    ∃ k', Parent up ident dir m k k' := by
  rcases (ht.rooted k v hk).cases_head with rfl | ⟨k', h, _⟩
  · exact ⟨k, ht.root_self⟩
  · exact ⟨k', h⟩

/-- The directory with the id that a key is below is its parent. -/
theorem Tree.parent_of_ident (ht : Tree up ident dir m root) {k k' : K} {w : V} (hk : m k = some v)
    (hk' : m k' = some w) (he : ident w = up k) : Parent up ident dir m k k' := by
  obtain ⟨k1, v1, hv1, hd, hi⟩ := ht.parent hk
  obtain rfl := ht.unique k1 k' v1 w hv1 hk' (hi.trans he.symm)
  exact ⟨v1, hv1, hd, hi⟩

/-- Entries reach the root without a key that nothing is below. -/
theorem Tree.without_leaf (ht : Tree up ident dir m root) (hl : Leaf up ident dir m a) {k : K} {w : V}
    (hk : m k = some w) : RootedWithout up ident dir m root a k := by
  have h := ht.rooted k w hk
  induction h using ReflTransGen.head_induction_on generalizing w with
  | refl => exact .refl
  | head hstep _ ih =>
    obtain ⟨w', hw', hd, hi⟩ := hstep
    refine .head ⟨⟨w', hw', hd, hi⟩, ?_⟩ (ih hw')
    rintro rfl
    exact hl _ _ hk ⟨w', hw', hd, hi⟩

/-- A path that avoids a key stays a path to the root when its other entries stay. -/
theorem RootedWithout.kept {k : K} {w : V} (hk : RootedWithout up ident dir m root a k) (hw : m k = some w)
    (hstep : ∀ x y w, m x = some w → Parent up ident dir m x y → y ≠ a → Parent up ident dir m' x y) :
    ReflTransGen (Parent up ident dir m') k root := by
  induction hk using ReflTransGen.head_induction_on generalizing w with
  | refl => exact .refl
  | head h _ ih =>
    obtain ⟨⟨w', hw', hd, hi⟩, hne⟩ := h
    exact .head (hstep _ _ w hw ⟨w', hw', hd, hi⟩ hne) (ih hw')

section
variable [DecidableEq K]

theorem Tree.insert (ht : Tree up ident dir m root) (ha : m a = none) {p : K} (hp : Parent up ident dir m a p)
    (hv : ∀ k w, m k = some w → ident w ≠ ident v) :
    Tree up ident dir (Function.update m a (some v)) root := by
  have hkept (x y : K) (h : Parent up ident dir m x y) : Parent up ident dir (Function.update m a (some v)) x y := by
    obtain ⟨w, hw, hd, hi⟩ := h
    refine ⟨w, ?_, hd, hi⟩
    rw [Function.update_of_ne _, hw]
    rintro rfl
    simp [ha] at hw
  have hp' := hp
  obtain ⟨w, hw, _⟩ := hp'
  refine ⟨hkept _ _ ht.root_self, fun k w' hk => ?_, fun k k' w w' hk hk' he => ?_⟩
  · by_cases hka : k = a
    · subst hka
      exact .head (hkept _ _ hp) (ReflTransGen.mono hkept _ _ (ht.rooted p w hw))
    · rw [Function.update_of_ne hka] at hk
      exact ReflTransGen.mono hkept _ _ (ht.rooted k w' hk)
  · by_cases hka : k = a <;> by_cases hka' : k' = a
    · exact hka.trans hka'.symm
    · subst hka
      rw [Function.update_self] at hk
      rw [Function.update_of_ne hka'] at hk'
      exact absurd (Option.some.inj hk ▸ he.symm) (hv k' w' hk')
    · subst hka'
      rw [Function.update_self] at hk'
      rw [Function.update_of_ne hka] at hk
      exact absurd (Option.some.inj hk' ▸ he) (hv k w hk)
    · rw [Function.update_of_ne hka] at hk
      rw [Function.update_of_ne hka'] at hk'
      exact ht.unique k k' w w' hk hk' he

theorem Tree.erase (ht : Tree up ident dir m root) (hroot : a ≠ root) (hl : Leaf up ident dir m a) :
    Tree up ident dir (Function.update m a none) root := by
  have hkept (x y : K) (h : Parent up ident dir m x y ∧ y ≠ a) :
      Parent up ident dir (Function.update m a none) x y := by
    obtain ⟨⟨w, hw, hd, hi⟩, hne⟩ := h
    exact ⟨w, by rw [Function.update_of_ne hne, hw], hd, hi⟩
  have hold {k : K} {w : V} (hk : Function.update m a none k = some w) : m k = some w := by
    by_cases hka : k = a
    · subst hka
      simp at hk
    · rwa [Function.update_of_ne hka] at hk
  exact ⟨hkept _ _ ⟨ht.root_self, hroot.symm⟩, fun k w hk =>
    (ht.without_leaf hl (hold hk)).kept (hold hk) fun x y _ _ h hy => hkept x y ⟨h, hy⟩,
    fun k k' w w' hk hk' => ht.unique k k' w w' (hold hk) (hold hk')⟩

/-- What a map holds after an entry was moved from one key to another. -/
theorem eq_or_of_moved {k : K} {w : V} (hk : Function.update (Function.update m a none) b (some v) k = some w) :
    k = b ∧ w = v ∨ (k ≠ b ∧ k ≠ a) ∧ m k = some w := by
  by_cases hkb : k = b
  · subst hkb
    rw [Function.update_self] at hk
    exact .inl ⟨rfl, (Option.some.inj hk).symm⟩
  · rw [Function.update_of_ne hkb] at hk
    have hka : k ≠ a := by
      rintro rfl
      simp at hk
    rw [Function.update_of_ne hka] at hk
    exact .inr ⟨⟨hkb, hka⟩, hk⟩

/-- An entry, with all that is below it, moves to a key that nothing is below and that is not
below the entry itself. -/
theorem Tree.move (ht : Tree up ident dir m root) (ha : m a = some v) (hid : ident v' = ident v)
    (hdir : dir v → dir v') (hab : a ≠ b) (hbr : b ≠ root) (har : a ≠ root) (hl : Leaf up ident dir m b) {c : K}
    (hbc : Parent up ident dir m b c) (hca : c ≠ a) (hc : RootedWithout up ident dir m root a c) :
    Tree up ident dir (Function.update (Function.update m a none) b (some v')) root := by
  have hb : Function.update (Function.update m a none) b (some v') b = some v' := Function.update_self ..
  have hother {k : K} (hka : k ≠ a) (hkb : k ≠ b) :
      Function.update (Function.update m a none) b (some v') k = m k := by
    rw [Function.update_of_ne hkb, Function.update_of_ne hka]
  have hkept {x y : K} (h : Parent up ident dir m x y) (hya : y ≠ a) (hyb : y ≠ b) :
      Parent up ident dir (Function.update (Function.update m a none) b (some v')) x y := by
    obtain ⟨w, hw, hd, hi⟩ := h
    exact ⟨w, (hother hya hyb).trans hw, hd, hi⟩
  have hnotb {x y : K} {w : V} (hx : m x = some w) (h : Parent up ident dir m x y) : y ≠ b := by
    rintro rfl
    exact hl x w hx h
  have hcb : c ≠ b := by
    rintro rfl
    obtain ⟨w, hw, _⟩ := id hbc
    exact hl _ w hw hbc
  -- the new place reaches the root on the old path, which does not go through the moved entry
  have hrootc : ReflTransGen (Parent up ident dir (Function.update (Function.update m a none) b (some v'))) c root := by
    obtain ⟨w, hw, _⟩ := id hbc
    exact hc.kept hw fun x y w hx h hya => hkept h hya (hnotb hx h)
  have hrootb := ReflTransGen.head (hkept hbc hca hcb) hrootc
  have hroot {k : K} {w : V} (hk : m k = some w) (hka : k ≠ a) :
      ReflTransGen (Parent up ident dir (Function.update (Function.update m a none) b (some v'))) k root := by
    have h := ht.rooted k w hk
    induction h using ReflTransGen.head_induction_on generalizing w with
    | refl => exact .refl
    | @head x y hstep _ ih =>
      obtain ⟨w', hw', hd, hi⟩ := id hstep
      by_cases hya : y = a
      · subst hya
        obtain rfl := Option.some.inj (ha.symm.trans hw')
        exact .head ⟨v', hb, hdir hd, hid.trans hi⟩ hrootb
      · exact .head (hkept hstep hya (hnotb hk hstep)) (ih hw' hya)
  refine ⟨hkept ht.root_self har.symm hbr.symm, fun k w hk => ?_, fun k k' w w' hk hk' he => ?_⟩
  · rcases eq_or_of_moved hk with ⟨rfl, _⟩ | ⟨⟨_, hka⟩, hk⟩
    · exact hrootb
    · exact hroot hk hka
  · rcases eq_or_of_moved hk with ⟨rfl, rfl⟩ | ⟨⟨_, hka⟩, hm⟩ <;>
      rcases eq_or_of_moved hk' with ⟨rfl, rfl⟩ | ⟨⟨_, hka'⟩, hm'⟩
    · rfl
    · exact absurd (ht.unique k' a w' v hm' ha (he.symm.trans hid)) hka'
    · exact absurd (ht.unique k a w v hm ha (he.trans hid)) hka
    · exact ht.unique k k' w w' hm hm' he

end
end ParentTree
