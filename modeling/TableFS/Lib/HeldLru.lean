import Mathlib.Algebra.Order.BigOperators.Group.Finset
import Mathlib.Data.List.Nodup
import TableFS.Lib.Runs

/-! A cache in shards that drops the entries used least recently. An entry is at an address; it lives
as long as the cache lists it or a caller holds it, and is handed to a deleter when neither does. -/
namespace HeldLru
open Runs
variable {κ ν σ : Type}

structure Cell (κ ν : Type) where
  key : κ
  value : ν
  charge : Nat

/-- The order lists the entries of each shard, oldest first; the pins count the handles of an entry
that callers hold. -/
structure Lru (κ ν : Type) where
  capacity : Nat
  shard : κ → Nat
  cells : Nat → Option (Cell κ ν)
  order : Nat → List Nat
  usage : Nat → Nat
  pins : Nat → Nat

/-- A call, with the address of the new entry or the change of the value where there is one. -/
inductive Call (κ ν : Type) where
  | insert (key : κ) (value : ν) (charge a : Nat)
  | lookup (key : κ)
  | release (a : Nat)
  | erase (key : κ)
  | modify (a : Nat) (f : ν → ν)

/-- A handle of the entry is given back. -/
def Call.returns (a : Nat) : Call κ ν → Bool
  | .release b => b == a
  | _ => false

namespace Lru

def empty (capacity : Nat) (shard : κ → Nat) : Lru κ ν :=
  ⟨capacity, shard, fun _ => none, fun _ => [], fun _ => 0, fun _ => 0⟩

def unlist (c : Lru κ ν) (s a : Nat) : Lru κ ν := { c with order := Function.update c.order s ((c.order s).erase a) }

/-- An entry that is neither listed nor held goes to the deleter. -/
def settle (deleter : κ → ν → σ → σ) (c : Lru κ ν) (a : Nat) (w : σ) : Lru κ ν × σ :=
  match c.cells a with
  | none => (c, w)
  | some x =>
    if a ∉ c.order (c.shard x.key) ∧ c.pins a = 0 then
      ({ c with
          cells := Function.update c.cells a none
          usage := Function.update c.usage (c.shard x.key) (c.usage (c.shard x.key) - x.charge) },
        deleter x.key x.value w)
    else (c, w)

/-- Drop the oldest entries of a shard until it fits. -/
def evict (deleter : κ → ν → σ → σ) (s : Nat) : Nat → Lru κ ν → σ → Lru κ ν × σ
  | 0, c, w => (c, w)
  | n + 1, c, w =>
    match c.order s with
    | [] => (c, w)
    | a :: _ =>
      if c.capacity < c.usage s then
        let r := (c.unlist s a).settle deleter a w
        evict deleter s n r.1 r.2
      else (c, w)

def unpin (c : Lru κ ν) (a : Nat) : Lru κ ν := { c with pins := Function.update c.pins a (c.pins a - 1) }

def release (deleter : κ → ν → σ → σ) (c : Lru κ ν) (a : Nat) (w : σ) : Lru κ ν × σ := (c.unpin a).settle deleter a w

/-- A new entry, listed and held. -/
def add (c : Lru κ ν) (key : κ) (value : ν) (charge a : Nat) : Lru κ ν :=
  { c with
    cells := Function.update c.cells a (some ⟨key, value, charge⟩)
    order := Function.update c.order (c.shard key) (c.order (c.shard key) ++ [a])
    usage := Function.update c.usage (c.shard key) (c.usage (c.shard key) + charge)
    pins := Function.update c.pins a 1 }

def modify (c : Lru κ ν) (a : Nat) (f : ν → ν) : Lru κ ν :=
  { c with cells := Function.update c.cells a ((c.cells a).map fun x => { x with value := f x.value }) }

/-- A hit makes the entry the newest one, and a handle of it is held. -/
def touch (c : Lru κ ν) (s a : Nat) : Lru κ ν :=
  { c with
    order := Function.update c.order s ((c.order s).erase a ++ [a])
    pins := Function.update c.pins a (c.pins a + 1) }

section
variable [DecidableEq κ]

/-- The listed entry under a key. -/
def find (c : Lru κ ν) (key : κ) : Option Nat :=
  (c.order (c.shard key)).find? fun a => decide ((c.cells a).map Cell.key = some key)

def lookup (c : Lru κ ν) (key : κ) : Lru κ ν × Option Nat :=
  match c.find key with
  | none => (c, none)
  | some a => (c.touch (c.shard key) a, some a)

/-- The listed entry under a key is dropped. -/
def erase (deleter : κ → ν → σ → σ) (c : Lru κ ν) (key : κ) (w : σ) : Lru κ ν × σ :=
  match c.find key with
  | none => (c, w)
  | some a => (c.unlist (c.shard key) a).settle deleter a w

/-- A new entry, in place of the listed one under the key. -/
def replace (deleter : κ → ν → σ → σ) (c : Lru κ ν) (key : κ) (value : ν) (charge a : Nat) (w : σ) : Lru κ ν × σ :=
  match c.find key with
  | none => (c.add key value charge a, w)
  | some old => ((c.add key value charge a).unlist (c.shard key) old).settle deleter old w

/-- After the replacement the shard is made to fit. -/
def insert (deleter : κ → ν → σ → σ) (c : Lru κ ν) (key : κ) (value : ν) (charge a : Nat) (w : σ) : Lru κ ν × σ :=
  let r := c.replace deleter key value charge a w
  evict deleter (c.shard key) (r.1.order (c.shard key)).length r.1 r.2

def step (deleter : κ → ν → σ → σ) (cw : Lru κ ν × σ) : Call κ ν → (Lru κ ν × σ) × Option Nat
  | .insert key value charge a => (cw.1.insert deleter key value charge a cw.2, some a)
  | .lookup key => (((cw.1.lookup key).1, cw.2), (cw.1.lookup key).2)
  | .release a => (cw.1.release deleter a cw.2, none)
  | .erase key => (cw.1.erase deleter key cw.2, none)
  | .modify a f => ((cw.1.modify a f, cw.2), none)

end

/-- A new entry is at a free address, and callers use the handles that they hold. -/
def Proper (cw : Lru κ ν × σ) : Call κ ν → Prop
  | .insert _ _ _ a => cw.1.cells a = none
  | .lookup _ => True
  | .release a => cw.1.pins a ≠ 0
  | .erase _ => True
  | .modify a _ => cw.1.pins a ≠ 0

instance (cw : Lru κ ν × σ) : (call : Call κ ν) → Decidable (Proper cw call)
  | .insert _ _ _ _ => inferInstanceAs (Decidable (_ = none))
  | .lookup _ => .isTrue trivial
  | .release _ => inferInstanceAs (Decidable (_ ≠ 0))
  | .erase _ => .isTrue trivial
  | .modify _ _ => inferInstanceAs (Decidable (_ ≠ 0))

/-- The listed entries of a shard are its own. -/
structure Arranged (c : Lru κ ν) : Prop where
  listed : ∀ s a, a ∈ c.order s → ∃ x, c.cells a = some x ∧ c.shard x.key = s
  nodup : ∀ s, (c.order s).Nodup

/-- No two of them are under one key, and only entries are held. -/
structure Sound (c : Lru κ ν) : Prop extends Arranged c where
  keys : ∀ a b x y, c.cells a = some x → c.cells b = some y → a ∈ c.order (c.shard x.key) →
    b ∈ c.order (c.shard y.key) → x.key = y.key → a = b
  held : ∀ a, c.pins a ≠ 0 → (c.cells a).isSome

/-- Every entry, but for one, is listed or held. -/
def Alive (c : Lru κ ν) (except : Option Nat) : Prop :=
  ∀ a x, c.cells a = some x → some a ≠ except → c.pins a ≠ 0 ∨ a ∈ c.order (c.shard x.key)

/-- The usage of a shard is what its entries cost. -/
def Charged (c : Lru κ ν) : Prop :=
  ∃ live : Finset Nat, (∀ a, a ∈ live ↔ (c.cells a).isSome) ∧
    ∀ s, c.usage s = ∑ a ∈ live, ((c.cells a).map fun x => if c.shard x.key = s then x.charge else 0).getD 0

/-- A shard that is over its capacity lists nothing that could still be dropped. -/
def WithinCapacity (c : Lru κ ν) (s : Nat) : Prop := c.usage s ≤ c.capacity ∨ c.order s = []

structure Good (c : Lru κ ν) : Prop where
  sound : Sound c
  alive : Alive c none
  charged : Charged c

section
variable {c : Lru κ ν} {a s : Nat} {x : Cell κ ν} {deleter : κ → ν → σ → σ} {w : σ}

theorem order_unlist_self : (c.unlist s a).order s = (c.order s).erase a := Function.update_self _ _ _

theorem order_unlist_ne {t : Nat} (h : t ≠ s) : (c.unlist s a).order t = c.order t := Function.update_of_ne h _ _

theorem good_empty (capacity : Nat) (shard : κ → Nat) : Good (empty capacity shard : Lru κ ν) where
  sound := ⟨⟨nofun, fun _ => List.nodup_nil⟩, nofun, fun _ h => absurd rfl h⟩
  alive := nofun
  charged := ⟨∅, by simp [empty], by simp [empty]⟩

theorem Arranged.listed_iff (hs : Arranged c) (hx : c.cells a = some x) :
    a ∈ c.order s ↔ c.shard x.key = s ∧ a ∈ c.order (c.shard x.key) := by
  constructor
  · intro ha
    obtain ⟨y, hy, he⟩ := hs.listed s a ha
    obtain rfl := Option.some.inj (hx.symm.trans hy)
    exact ⟨he, he ▸ ha⟩
  · rintro ⟨rfl, ha⟩
    exact ha

/-- An address stands in the list of one shard only. -/
theorem Arranged.shard_unique (hs : Arranged c) {s' : Nat} (h : a ∈ c.order s) (h' : a ∈ c.order s') : s = s' := by
  obtain ⟨x, hx, rfl⟩ := hs.listed s a h
  exact ((hs.listed_iff hx).mp h').1

theorem Sound.find_iff [DecidableEq κ] (hs : Sound c) {key : κ} :
    c.find key = some a ↔ a ∈ c.order (c.shard key) ∧ (c.cells a).map Cell.key = some key := by
  constructor
  · intro h
    exact ⟨List.mem_of_find?_eq_some h, by simpa using List.find?_some h⟩
  · rintro ⟨ha, hk⟩
    obtain ⟨x, hx, rfl⟩ := Option.map_eq_some_iff.mp hk
    cases hf : c.find x.key with
    | none => exact absurd (by simp [hx]) (List.find?_eq_none.mp hf a ha)
    | some b =>
      have hb := List.mem_of_find?_eq_some hf
      obtain ⟨y, hy, hyk⟩ := Option.map_eq_some_iff.mp (by simpa using List.find?_some hf : (c.cells b).map Cell.key = _)
      rw [hs.keys a b x y hx hy ha (hyk ▸ hb) hyk.symm]

/-- What settle does: nothing, or the entry is gone. -/
theorem settle_cases (deleter : κ → ν → σ → σ) (c : Lru κ ν) (a : Nat) (w : σ) :
    c.settle deleter a w = (c, w) ∧ (∀ x, c.cells a = some x → c.pins a ≠ 0 ∨ a ∈ c.order (c.shard x.key)) ∨
      ∃ x, c.cells a = some x ∧ a ∉ c.order (c.shard x.key) ∧ c.pins a = 0 ∧
        c.settle deleter a w =
          ({ c with
              cells := Function.update c.cells a none
              usage := Function.update c.usage (c.shard x.key) (c.usage (c.shard x.key) - x.charge) },
            deleter x.key x.value w) := by
  cases hx : c.cells a with
  | none => exact .inl ⟨by simp [settle, hx], nofun⟩
  | some x =>
    by_cases hc : a ∉ c.order (c.shard x.key) ∧ c.pins a = 0
    · exact .inr ⟨x, rfl, hc.1, hc.2, by simp [settle, hx, hc]⟩
    · refine .inl ⟨by simp only [settle, hx, if_neg hc], fun y hy => ?_⟩
      obtain rfl := Option.some.inj hy
      rcases not_and_or.mp hc with h | h
      · exact .inr (not_not.mp h)
      · exact .inl h

theorem mem_of_mem_unlist {b t : Nat} (hb : b ∈ (c.unlist s a).order t) : b ∈ c.order t := by
  by_cases ht : t = s
  · subst ht
    rw [order_unlist_self] at hb
    exact List.mem_of_mem_erase hb
  · rwa [order_unlist_ne ht] at hb

theorem Arranged.unlist (hs : Arranged c) (s a : Nat) : Arranged (c.unlist s a) := by
  refine ⟨fun t b hb => hs.listed t b (mem_of_mem_unlist hb), fun t => ?_⟩
  by_cases ht : t = s
  · subst ht
    rw [order_unlist_self]
    exact (hs.nodup t).erase a
  · rw [order_unlist_ne ht]
    exact hs.nodup t

/-- Dropping an entry from the list of a shard. -/
theorem Sound.unlist (hs : Sound c) (s a : Nat) : Sound (c.unlist s a) where
  toArranged := hs.toArranged.unlist s a
  keys b b' x y hx hy hb hb' := hs.keys b b' x y hx hy (mem_of_mem_unlist hb) (mem_of_mem_unlist hb')
  held := hs.held

theorem mem_unlist (hs : Arranged c) {b t : Nat} (hb : b ≠ a) : b ∈ (c.unlist s a).order t ↔ b ∈ c.order t := by
  by_cases ht : t = s
  · subst ht
    rw [order_unlist_self, (hs.nodup t).mem_erase_iff]
    exact and_iff_right hb
  · rw [order_unlist_ne ht]

theorem notMem_unlist (hs : Arranged c) : a ∉ (c.unlist s a).order s := by
  rw [order_unlist_self, (hs.nodup s).mem_erase_iff]
  exact fun h => h.1 rfl

theorem Alive.unlist (ha : Alive c none) (hs : Arranged c) (s a : Nat) : Alive (c.unlist s a) (some a) := by
  intro b x hx hne
  have hba : b ≠ a := fun h => hne (congrArg some h)
  exact (ha b x hx (by simp)).imp_right (mem_unlist hs hba).mpr

theorem Charged.unlist (h : Charged c) (s a : Nat) : Charged (c.unlist s a) := h

theorem Charged.charge_le (h : Charged c) (hx : c.cells a = some x) : x.charge ≤ c.usage (c.shard x.key) := by
  obtain ⟨live, hlive, hsum⟩ := h
  have htotal := Finset.add_sum_erase live
    (fun b => ((c.cells b).map fun y => if c.shard y.key = c.shard x.key then y.charge else 0).getD 0)
      ((hlive a).mpr (by rw [hx]; rfl))
  simp only [hx, Option.map_some, Option.getD_some, if_true] at htotal
  rw [hsum, ← htotal]
  exact Nat.le_add_right _ _

theorem Charged.free (h : Charged c) (hx : c.cells a = some x) :
    Charged { c with
      cells := Function.update c.cells a none
      usage := Function.update c.usage (c.shard x.key) (c.usage (c.shard x.key) - x.charge) } := by
  obtain ⟨live, hlive, hsum⟩ := h
  have ha : a ∈ live := (hlive a).mpr (by simp [hx])
  refine ⟨live.erase a, fun b => ?_, fun s => ?_⟩
  · rw [Finset.mem_erase, hlive]
    by_cases hb : b = a <;> simp [hb]
  · have hrest : ∑ b ∈ live.erase a,
          ((Function.update c.cells a none b).map fun x => if c.shard x.key = s then x.charge else 0).getD 0 =
        ∑ b ∈ live.erase a, ((c.cells b).map fun x => if c.shard x.key = s then x.charge else 0).getD 0 :=
      Finset.sum_congr rfl fun b hb => by rw [Function.update_of_ne (Finset.ne_of_mem_erase hb)]
    have htotal := Finset.add_sum_erase live
      (fun b => ((c.cells b).map fun x => if c.shard x.key = s then x.charge else 0).getD 0) ha
    simp only [hx, Option.map_some, Option.getD_some] at htotal
    rw [← hsum s] at htotal
    simp only [hrest]
    by_cases hs : s = c.shard x.key
    · subst hs
      rw [Function.update_self]
      simp only [if_true] at htotal
      omega
    · rw [Function.update_of_ne hs]
      simp only [if_neg (Ne.symm hs), Nat.zero_add] at htotal
      exact htotal.symm

/-- Settling the one entry that may be neither listed nor held makes the cache good. -/
theorem Good.settle (hs : Sound c) (ha : Alive c (some a)) (hc : Charged c) (deleter : κ → ν → σ → σ) (w : σ) :
    Good (c.settle deleter a w).1 := by
  rcases settle_cases deleter c a w with ⟨he, hx⟩ | ⟨x, hx, hna, hp, he⟩
  · rw [he]
    refine ⟨hs, fun b y hy _ => ?_, hc⟩
    by_cases hb : b = a
    · subst hb
      exact hx y hy
    · exact ha b y hy (by simpa using hb)
  · rw [he]
    have hne (s b : Nat) (hb : b ∈ c.order s) : b ≠ a := fun h => hna (((hs.listed_iff hx).mp (h ▸ hb)).2)
    refine ⟨⟨⟨fun s b hb => ?_, hs.nodup⟩, fun b b' y y' hy hy' => ?_, fun b hb => ?_⟩, fun b y hy _ => ?_, hc.free hx⟩
    · obtain ⟨y, hy, hk⟩ := hs.listed s b hb
      exact ⟨y, (Function.update_of_ne (hne s b hb) _ _).trans hy, hk⟩
    · have hb : b ≠ a := by
        rintro rfl
        simp at hy
      have hb' : b' ≠ a := by
        rintro rfl
        simp at hy'
      simp only [Function.update_of_ne hb] at hy
      simp only [Function.update_of_ne hb'] at hy'
      exact hs.keys b b' y y' hy hy'
    · have hba : b ≠ a := fun h => hb (h ▸ hp)
      simpa only [Function.update_of_ne hba] using hs.held b hb
    · have hba : b ≠ a := by
        rintro rfl
        simp at hy
      simp only [Function.update_of_ne hba] at hy
      exact ha b y hy (by simpa using hba)

theorem Good.drop (hg : Good c) (deleter : κ → ν → σ → σ) (s a : Nat) (w : σ) :
    Good ((c.unlist s a).settle deleter a w).1 :=
  .settle (hg.sound.unlist s a) (hg.alive.unlist hg.sound.toArranged s a) (hg.charged.unlist s a) deleter w

@[simp] theorem order_settle (deleter : κ → ν → σ → σ) (c : Lru κ ν) (a : Nat) (w : σ) :
    (c.settle deleter a w).1.order = c.order := by
  rcases settle_cases deleter c a w with ⟨he, -⟩ | ⟨x, -, -, -, he⟩ <;> rw [he]

@[simp] theorem shard_settle (deleter : κ → ν → σ → σ) (c : Lru κ ν) (a : Nat) (w : σ) :
    (c.settle deleter a w).1.shard = c.shard := by
  rcases settle_cases deleter c a w with ⟨he, -⟩ | ⟨x, -, -, -, he⟩ <;> rw [he]

@[simp] theorem capacity_settle (deleter : κ → ν → σ → σ) (c : Lru κ ν) (a : Nat) (w : σ) :
    (c.settle deleter a w).1.capacity = c.capacity := by
  rcases settle_cases deleter c a w with ⟨he, -⟩ | ⟨x, -, -, -, he⟩ <;> rw [he]

@[simp] theorem pins_settle (deleter : κ → ν → σ → σ) (c : Lru κ ν) (a : Nat) (w : σ) :
    (c.settle deleter a w).1.pins = c.pins := by
  rcases settle_cases deleter c a w with ⟨he, -⟩ | ⟨x, -, -, -, he⟩ <;> rw [he]

theorem usage_settle_le (deleter : κ → ν → σ → σ) (c : Lru κ ν) (a : Nat) (w : σ) (s : Nat) :
    (c.settle deleter a w).1.usage s ≤ c.usage s := by
  rcases settle_cases deleter c a w with ⟨he, -⟩ | ⟨x, -, -, -, he⟩ <;> rw [he]
  by_cases hs : s = c.shard x.key
  · simp [hs]
  · simp [hs]

theorem Good.evict (hg : Good c) (deleter : κ → ν → σ → σ) (s : Nat) (n : Nat) (w : σ) :
    Good (evict deleter s n c w).1 := by
  induction n generalizing c w with
  | zero => exact hg
  | succ n ih =>
    unfold Lru.evict
    split
    · exact hg
    · split
      · exact ih (hg.drop deleter s _ w) _
      · exact hg

/-- What happens in one shard changes no other one. -/
structure Local (s : Nat) (c c' : Lru κ ν) : Prop where
  capacity : c'.capacity = c.capacity
  shard : c'.shard = c.shard
  order : ∀ t, t ≠ s → c'.order t = c.order t
  usage : ∀ t, t ≠ s → c'.usage t = c.usage t

theorem Local.refl (s : Nat) (c : Lru κ ν) : Local s c c := ⟨rfl, rfl, fun _ _ => rfl, fun _ _ => rfl⟩

theorem Local.trans {c' c'' : Lru κ ν} (h : Local s c c') (h' : Local s c' c'') : Local s c c'' where
  capacity := h'.capacity.trans h.capacity
  shard := h'.shard.trans h.shard
  order t ht := (h'.order t ht).trans (h.order t ht)
  usage t ht := (h'.usage t ht).trans (h.usage t ht)

theorem local_settle (deleter : κ → ν → σ → σ) (w : σ) (hs : ∀ x, c.cells a = some x → c.shard x.key = s) :
    Local s c (c.settle deleter a w).1 := by
  refine ⟨capacity_settle deleter c a w, shard_settle deleter c a w, fun t _ => by rw [order_settle], fun t ht => ?_⟩
  rcases settle_cases deleter c a w with ⟨he, -⟩ | ⟨x, hx, -, -, he⟩ <;> rw [he]
  exact Function.update_of_ne (fun h => ht (h.trans (hs x hx))) _ _

theorem local_unlist (c : Lru κ ν) (s a : Nat) : Local s c (c.unlist s a) :=
  ⟨rfl, rfl, fun _ ht => order_unlist_ne ht, fun _ _ => rfl⟩

theorem Arranged.shard_of_mem (hs : Arranged c) (ha : a ∈ c.order s) (hx : c.cells a = some x) : c.shard x.key = s :=
  ((hs.listed_iff hx).mp ha).1

theorem local_drop (hs : Arranged c) (ha : a ∈ c.order s) (deleter : κ → ν → σ → σ) (w : σ) :
    Local s c ((c.unlist s a).settle deleter a w).1 :=
  (local_unlist c s a).trans (local_settle deleter w fun _ hx => hs.shard_of_mem ha hx)

theorem local_evict (hg : Good c) (deleter : κ → ν → σ → σ) (s n : Nat) (w : σ) :
    Local s c (evict deleter s n c w).1 := by
  induction n generalizing c w with
  | zero => exact .refl s c
  | succ n ih =>
    unfold Lru.evict
    split
    · exact .refl s c
    · rename_i a l hl
      split
      · have ha : a ∈ c.order s := hl ▸ List.mem_cons_self
        exact (local_drop hg.sound.toArranged ha deleter w).trans (ih (hg.drop deleter s a w) _)
      · exact .refl s c

theorem fits_evict (deleter : κ → ν → σ → σ) (s : Nat) (c : Lru κ ν) (w : σ) {n : Nat} (hn : (c.order s).length ≤ n) :
    WithinCapacity (evict deleter s n c w).1 s := by
  induction n generalizing c w with
  | zero => exact .inr (List.length_eq_zero_iff.mp (Nat.le_zero.mp hn))
  | succ n ih =>
    unfold Lru.evict
    split
    · exact .inr ‹_›
    · rename_i a l hl
      split
      · refine ih _ _ ?_
        rw [order_settle, order_unlist_self, hl, List.erase_cons_head]
        rw [hl] at hn
        exact Nat.le_of_succ_le_succ hn
      · exact .inl (Nat.le_of_not_lt ‹_›)

theorem pins_evict (deleter : κ → ν → σ → σ) (s n : Nat) (c : Lru κ ν) (w : σ) :
    (evict deleter s n c w).1.pins = c.pins := by
  induction n generalizing c w with
  | zero => rfl
  | succ n ih =>
    unfold evict
    split
    · rfl
    · split
      · rw [ih, pins_settle]
        rfl
      · rfl

theorem local_add (c : Lru κ ν) (key : κ) (value : ν) (charge a : Nat) :
    Local (c.shard key) c (c.add key value charge a) :=
  ⟨rfl, rfl, fun _ ht => Function.update_of_ne ht _ _, fun _ ht => Function.update_of_ne ht _ _⟩

section
variable {key : κ} {value : ν} {charge b t : Nat}

theorem cells_add_self : (c.add key value charge a).cells a = some ⟨key, value, charge⟩ := Function.update_self _ _ _

theorem cells_add_ne (h : b ≠ a) : (c.add key value charge a).cells b = c.cells b := Function.update_of_ne h _ _

theorem pins_add_ne (h : b ≠ a) : (c.add key value charge a).pins b = c.pins b := Function.update_of_ne h _ _

theorem order_add_self : (c.add key value charge a).order (c.shard key) = c.order (c.shard key) ++ [a] :=
  Function.update_self _ _ _

theorem order_add_ne (h : t ≠ c.shard key) :
    (c.add key value charge a).order t = c.order t := Function.update_of_ne h _ _

theorem pins_touch_ne (h : b ≠ a) : (c.touch s a).pins b = c.pins b := Function.update_of_ne h _ _

theorem pins_unpin_ne (h : b ≠ a) : (c.unpin a).pins b = c.pins b := Function.update_of_ne h _ _

theorem order_touch_self : (c.touch s a).order s = (c.order s).erase a ++ [a] := Function.update_self _ _ _

theorem order_touch_ne (h : t ≠ s) : (c.touch s a).order t = c.order t := Function.update_of_ne h _ _

end

theorem mem_add {key : κ} {value : ν} {charge b t : Nat} :
    b ∈ (c.add key value charge a).order t ↔ b ∈ c.order t ∨ b = a ∧ t = c.shard key := by
  by_cases ht : t = c.shard key
  · subst ht
    simp [add]
  · simp [add, ht]

/-- Adding an entry and dropping another one is the same in both orders. -/
theorem unlist_add {key : κ} {value : ν} {charge old : Nat} (ho : old ∈ c.order (c.shard key)) :
    (c.add key value charge a).unlist (c.shard key) old = (c.unlist (c.shard key) old).add key value charge a := by
  simp only [Lru.unlist, add, Function.update_self, Function.update_idem, List.erase_append_left _ ho]

theorem Arranged.notMem_of_none (hs : Arranged c) (ha : c.cells a = none) (t : Nat) : a ∉ c.order t := by
  intro h
  obtain ⟨x, hx, -⟩ := hs.listed t a h
  rw [ha] at hx
  cases hx

theorem Arranged.add (hs : Arranged c) (ha : c.cells a = none) (key : κ) (value : ν) (charge : Nat) :
    Arranged (c.add key value charge a) := by
  have hfree := hs.notMem_of_none ha
  refine ⟨fun t b hb => ?_, fun t => ?_⟩
  · rcases mem_add.mp hb with hb | ⟨rfl, rfl⟩
    · obtain ⟨x, hx, hk⟩ := hs.listed t b hb
      exact ⟨x, (cells_add_ne (ne_of_mem_of_not_mem hb (hfree t))).trans hx, hk⟩
    · exact ⟨_, cells_add_self, rfl⟩
  · by_cases ht : t = c.shard key
    · subst ht
      rw [order_add_self]
      exact List.nodup_append.mpr ⟨hs.nodup _, List.nodup_singleton a, fun b hb b' hb' he =>
        hfree _ (List.mem_singleton.mp hb' ▸ he ▸ hb)⟩
    · rw [order_add_ne ht]
      exact hs.nodup t

theorem Sound.add (hs : Sound c) (ha : c.cells a = none) {key : κ}
    (hno : ∀ b y, c.cells b = some y → b ∈ c.order (c.shard y.key) → y.key ≠ key) (value : ν) (charge : Nat) :
    Sound (c.add key value charge a) := by
  refine ⟨hs.toArranged.add ha key value charge, fun b b' x y hx hy hb hb' hk => ?_, fun b hb => ?_⟩
  · by_cases hba : b = a <;> by_cases hba' : b' = a
    · exact hba.trans hba'.symm
    · rw [hba, cells_add_self] at hx
      rw [cells_add_ne hba'] at hy
      obtain rfl := Option.some.inj hx
      exact absurd hk.symm (hno b' y hy ((mem_add.mp hb').resolve_right fun h => hba' h.1))
    · rw [hba', cells_add_self] at hy
      rw [cells_add_ne hba] at hx
      obtain rfl := Option.some.inj hy
      exact absurd hk (hno b x hx ((mem_add.mp hb).resolve_right fun h => hba h.1))
    · rw [cells_add_ne hba] at hx
      rw [cells_add_ne hba'] at hy
      exact hs.keys b b' x y hx hy ((mem_add.mp hb).resolve_right fun h => hba h.1)
        ((mem_add.mp hb').resolve_right fun h => hba' h.1) hk
  · by_cases hba : b = a
    · rw [hba, cells_add_self]
      rfl
    · rw [cells_add_ne hba]
      exact hs.held b (by rwa [pins_add_ne hba] at hb)

theorem Alive.add {except : Option Nat} (h : Alive c except) (key : κ) (value : ν) (charge a : Nat) :
    Alive (c.add key value charge a) except := by
  intro b x hx hne
  by_cases hb : b = a
  · exact .inl (by simp [Lru.add, hb])
  · rw [cells_add_ne hb] at hx
    rw [pins_add_ne hb]
    exact (h b x hx hne).imp_right fun hm => mem_add.mpr (.inl hm)

theorem Charged.add (h : Charged c) (ha : c.cells a = none) (key : κ) (value : ν) (charge : Nat) :
    Charged (c.add key value charge a) := by
  obtain ⟨live, hlive, hsum⟩ := h
  have hna : a ∉ live := fun hm => by
    have := (hlive a).mp hm
    rw [ha] at this
    cases this
  refine ⟨Insert.insert a live, fun b => ?_, fun s => ?_⟩
  · rw [Finset.mem_insert, hlive]
    by_cases hb : b = a <;> simp [hb, Lru.add]
  · rw [Finset.sum_insert hna]
    have hrest : ∑ b ∈ live, (((c.add key value charge a).cells b).map fun x => if c.shard x.key = s then x.charge else 0).getD 0 =
        ∑ b ∈ live, ((c.cells b).map fun x => if c.shard x.key = s then x.charge else 0).getD 0 :=
      Finset.sum_congr rfl fun b hb => by rw [cells_add_ne (ne_of_mem_of_not_mem hb hna)]
    rw [show (c.add key value charge a).shard = c.shard from rfl, hrest, ← hsum s]
    by_cases hs : s = c.shard key
    · simp [Lru.add, hs, Nat.add_comm]
    · simp [Lru.add, hs, Ne.symm hs]

theorem mem_touch (hs : Arranged c) (ha : a ∈ c.order s) {b t : Nat} : b ∈ (c.touch s a).order t ↔ b ∈ c.order t := by
  by_cases ht : t = s
  · subst ht
    simp only [order_touch_self, List.mem_append, (hs.nodup t).mem_erase_iff, List.mem_singleton]
    constructor
    · rintro (h | rfl)
      · exact h.2
      · exact ha
    · intro h
      by_cases hb : b = a
      · exact .inr hb
      · exact .inl ⟨hb, h⟩
  · rw [order_touch_ne ht]

theorem Arranged.touch (hs : Arranged c) (ha : a ∈ c.order s) : Arranged (c.touch s a) := by
  refine ⟨fun t b hb => hs.listed t b ((mem_touch hs ha).mp hb), fun t => ?_⟩
  by_cases ht : t = s
  · subst ht
    rw [order_touch_self]
    refine List.nodup_append.mpr ⟨(hs.nodup t).erase a, List.nodup_singleton a, fun b hb b' hb' he => ?_⟩
    exact ((hs.nodup t).mem_erase_iff.mp hb).1 (he.trans (List.mem_singleton.mp hb'))
  · rw [order_touch_ne ht]
    exact hs.nodup t

theorem Good.touch (hg : Good c) (ha : a ∈ c.order s) : Good (c.touch s a) := by
  have hs := hg.sound
  have hmem {b t : Nat} := mem_touch (b := b) (t := t) hs.toArranged ha
  refine ⟨⟨hs.toArranged.touch ha, fun b b' y y' hy hy' hb hb' => ?_, fun b hb => ?_⟩, fun b y hy hne => ?_, hg.charged⟩
  · exact hs.keys b b' y y' hy hy' (hmem.mp hb) (hmem.mp hb')
  · by_cases hba : b = a
    · obtain ⟨x, hx, -⟩ := hs.listed s a ha
      rw [hba]
      exact Option.isSome_iff_exists.mpr ⟨x, hx⟩
    · exact hs.held b (by rwa [pins_touch_ne hba] at hb)
  · by_cases hba : b = a
    · exact .inl (by simp [Lru.touch, hba])
    · refine (hg.alive b y hy hne).imp (fun h => ?_) hmem.mpr
      rwa [pins_touch_ne hba]

theorem Good.release (hg : Good c) (hp : c.pins a ≠ 0) (deleter : κ → ν → σ → σ) (w : σ) :
    Good (c.release deleter a w).1 := by
  have hs := hg.sound
  refine .settle (c := c.unpin a) ⟨⟨hs.listed, hs.nodup⟩, hs.keys, fun b hb => ?_⟩
    (fun b x hx hne => ?_) hg.charged deleter w
  · by_cases hba : b = a
    · exact hba ▸ hs.held a hp
    · exact hs.held b (by rwa [pins_unpin_ne hba] at hb)
  · have hba : b ≠ a := fun h => hne (congrArg some h)
    rw [pins_unpin_ne hba]
    exact hg.alive b x hx (by simp)

theorem cells_modify {f : ν → ν} {b : Nat} :
    (c.modify a f).cells b = (c.cells b).map fun x => if b = a then { x with value := f x.value } else x := by
  by_cases hb : b = a
  · simp [modify, hb]
  · simp [modify, hb]

theorem cells_modify_some {f : ν → ν} {b : Nat} {y : Cell κ ν} (h : (c.modify a f).cells b = some y) :
    ∃ x, c.cells b = some x ∧ x.key = y.key ∧ x.charge = y.charge := by
  rw [cells_modify] at h
  obtain ⟨x, hx, rfl⟩ := Option.map_eq_some_iff.mp h
  by_cases hb : b = a <;> exact ⟨x, hx, by simp [hb], by simp [hb]⟩

theorem Good.modify (hg : Good c) (a : Nat) (f : ν → ν) : Good (c.modify a f) := by
  have hs := hg.sound
  have hsome (b : Nat) : ((c.modify a f).cells b).isSome = (c.cells b).isSome := by rw [cells_modify, Option.isSome_map]
  refine ⟨⟨⟨fun t b hb => ?_, hs.nodup⟩, fun b b' y y' hy hy' hb hb' hk => ?_, fun b hb => ?_⟩,
    fun b y hy hne => ?_, ?_⟩
  · obtain ⟨x, hx, hk⟩ := hs.listed t b hb
    refine ⟨_, cells_modify.trans (congrArg _ hx), Eq.trans (congrArg c.shard ?_) hk⟩
    by_cases hba : b = a <;> simp [hba]
  · obtain ⟨x, hx, hxk, -⟩ := cells_modify_some hy
    obtain ⟨x', hx', hxk', -⟩ := cells_modify_some hy'
    exact hs.keys b b' x x' hx hx' (by rw [hxk]; exact hb) (by rw [hxk']; exact hb') (by rw [hxk, hxk', hk])
  · exact (hsome b).trans (hs.held b hb)
  · obtain ⟨x, hx, hxk, -⟩ := cells_modify_some hy
    have := hg.alive b x hx hne
    rw [hxk] at this
    exact this
  · obtain ⟨live, hlive, hsum⟩ := hg.charged
    refine ⟨live, fun b => (hlive b).trans (by rw [hsome]), fun s =>
      (hsum s).trans (Finset.sum_congr rfl fun b _ => ?_)⟩
    rw [cells_modify]
    cases c.cells b with
    | none => rfl
    | some x =>
      by_cases hb : b = a
      · simp only [hb, if_true, Option.map_some]
        rfl
      · simp only [hb, if_false, Option.map_some]
        rfl

theorem WithinCapacity.mono {c' : Lru κ ν} (h : WithinCapacity c s) (hcap : c'.capacity = c.capacity)
    (husage : c'.usage s ≤ c.usage s) (horder : c.order s = [] → c'.order s = []) : WithinCapacity c' s :=
  h.imp (fun hle => hcap ▸ Nat.le_trans husage hle) horder

theorem WithinCapacity.drop (h : WithinCapacity c s) (deleter : κ → ν → σ → σ) (t a : Nat) (w : σ) :
    WithinCapacity ((c.unlist t a).settle deleter a w).1 s := by
  refine h.mono (capacity_settle _ _ _ _) (usage_settle_le deleter (c.unlist t a) a w s) fun hnil => ?_
  rw [order_settle]
  by_cases hst : s = t
  · subst hst
    rw [order_unlist_self, hnil]
    rfl
  · rw [order_unlist_ne hst, hnil]

section
variable [DecidableEq κ]

/-- The entry under a key is taken out of the list, and then no listed entry is under it. -/
theorem Sound.no_key (hs : Sound c) {key : κ} {old : Nat} (ho : c.find key = some old) (b : Nat) (y : Cell κ ν)
    (hy : c.cells b = some y) (hb : b ∈ (c.unlist (c.shard key) old).order (c.shard y.key)) : y.key ≠ key := by
  rintro rfl
  obtain ⟨hmem, hk⟩ := hs.find_iff.mp ho
  obtain ⟨x, hx, hxk⟩ := Option.map_eq_some_iff.mp hk
  have hbm : b ∈ c.order (c.shard y.key) := List.mem_of_mem_erase (order_unlist_self ▸ hb)
  obtain rfl := hs.keys b old y x hy hx hbm (hxk ▸ hmem) hxk.symm
  exact notMem_unlist hs.toArranged hb

theorem Good.replace (hg : Good c) (ha : c.cells a = none) (key : κ) (value : ν) (charge : Nat)
    (deleter : κ → ν → σ → σ) (w : σ) :
    Good (c.replace deleter key value charge a w).1 ∧
      Local (c.shard key) c (c.replace deleter key value charge a w).1 := by
  unfold Lru.replace
  split
  · rename_i ho
    refine ⟨⟨hg.sound.add ha (fun b y hy hb hk => ?_) value charge, hg.alive.add key value charge a,
      hg.charged.add ha key value charge⟩, local_add c key value charge a⟩
    rw [hg.sound.find_iff.mpr ⟨hk ▸ hb, by simp [hy, hk]⟩] at ho
    cases ho
  · rename_i old ho
    have hmem := (hg.sound.find_iff.mp ho).1
    rw [unlist_add hmem]
    have hsound := (hg.sound.unlist (c.shard key) old).add (a := a) ha (hg.sound.no_key ho) value charge
    refine ⟨.settle hsound ((hg.alive.unlist hg.sound.toArranged (c.shard key) old).add key value charge a)
      ((hg.charged.unlist (c.shard key) old).add ha key value charge) deleter w, ?_⟩
    refine (local_unlist c (c.shard key) old).trans ((local_add (c.unlist (c.shard key) old) key value charge a).trans
      (local_settle deleter w fun x hx => ?_))
    obtain ⟨y, hy, hyk⟩ := hg.sound.listed _ old hmem
    have hne : old ≠ a := by
      rintro rfl
      rw [ha] at hy
      cases hy
    have hxy : c.cells old = some x := (cells_add_ne (c := c.unlist (c.shard key) old) hne).symm.trans hx
    obtain rfl := Option.some.inj (hxy.symm.trans hy)
    exact hyk

theorem mem_of_mem_replace {key : κ} {value : ν} {charge b t : Nat} {w : σ}
    (hb : b ∈ (c.replace deleter key value charge a w).1.order t) : b = a ∨ b ∈ c.order t := by
  have hadd (h : b ∈ (c.add key value charge a).order t) : b = a ∨ b ∈ c.order t :=
    (mem_add.mp h).elim .inr fun h => .inl h.1
  unfold Lru.replace at hb
  split at hb
  · exact hadd hb
  · rw [order_settle] at hb
    exact hadd (mem_of_mem_unlist hb)

theorem Good.insert (hg : Good c) (ha : c.cells a = none) (key : κ) (value : ν) (charge : Nat) (deleter : κ → ν → σ → σ)
    (w : σ) :
    Good (c.insert deleter key value charge a w).1 ∧ Local (c.shard key) c (c.insert deleter key value charge a w).1 ∧
      WithinCapacity (c.insert deleter key value charge a w).1 (c.shard key) := by
  obtain ⟨hgood, hlocal⟩ := hg.replace ha key value charge deleter w
  exact ⟨hgood.evict deleter _ _ _, hlocal.trans (local_evict hgood deleter _ _ _),
    fits_evict deleter _ _ _ (Nat.le_refl _)⟩

theorem local_lookup (c : Lru κ ν) (key : κ) : Local (c.shard key) c (c.lookup key).1 := by
  unfold lookup
  split
  · exact .refl _ c
  · exact ⟨rfl, rfl, fun _ ht => Function.update_of_ne ht _ _, fun _ _ => rfl⟩

theorem Good.lookup (hg : Good c) (key : κ) : Good (c.lookup key).1 := by
  unfold Lru.lookup
  split
  · exact hg
  · exact hg.touch (hg.sound.find_iff.mp ‹_›).1

theorem Good.erase (hg : Good c) (deleter : κ → ν → σ → σ) (key : κ) (w : σ) : Good (c.erase deleter key w).1 := by
  unfold Lru.erase
  split
  · exact hg
  · exact hg.drop deleter _ _ w

theorem local_erase (hs : Sound c) (deleter : κ → ν → σ → σ) (key : κ) (w : σ) :
    Local (c.shard key) c (c.erase deleter key w).1 := by
  unfold Lru.erase
  split
  · exact .refl _ c
  · exact local_drop hs.toArranged (hs.find_iff.mp ‹_›).1 deleter w

/-- A proper call keeps the accounts. -/
theorem Good.step {cw : Lru κ ν × σ} (hg : Good cw.1) (deleter : κ → ν → σ → σ) {call : Call κ ν}
    (hp : Proper cw call) :
    Good (Lru.step deleter cw call).1.1 := by
  cases call with
  | insert key value charge a => exact (hg.insert hp key value charge deleter cw.2).1
  | lookup key => exact hg.lookup key
  | release a => exact hg.release hp deleter cw.2
  | erase key => exact hg.erase deleter key cw.2
  | modify a f => exact hg.modify a f

/-- No call leaves a shard over its capacity with entries that could be dropped. -/
theorem WithinCapacity.step {cw : Lru κ ν × σ} (hg : Good cw.1) (h : ∀ s, WithinCapacity cw.1 s)
    (deleter : κ → ν → σ → σ) {call : Call κ ν} (hp : Proper cw call) (s : Nat) :
    WithinCapacity (Lru.step deleter cw call).1.1 s := by
  cases call with
  | insert key value charge a =>
    obtain ⟨-, hlocal, hfits⟩ := hg.insert hp key value charge deleter cw.2
    by_cases hs : s = cw.1.shard key
    · exact hs ▸ hfits
    · exact (h s).mono hlocal.capacity (Nat.le_of_eq (hlocal.usage s hs)) fun hnil => (hlocal.order s hs).trans hnil
  | lookup key =>
    simp only [Lru.step, Lru.lookup]
    split
    · exact h s
    · rename_i a ha
      refine (h s).mono rfl (Nat.le_refl _) fun hnil => ?_
      have hmem := (hg.sound.find_iff.mp ha).1
      by_cases hs : s = cw.1.shard key
      · rw [← hs, hnil] at hmem
        cases hmem
      · exact (order_touch_ne hs).trans hnil
  | release a =>
    refine (h s).mono (capacity_settle _ _ _ _) (usage_settle_le deleter (cw.1.unpin a) a cw.2 s) fun hnil => ?_
    exact (congrFun (order_settle deleter (cw.1.unpin a) a cw.2) s).trans hnil
  | erase key =>
    simp only [Lru.step, Lru.erase]
    split
    · exact h s
    · exact (h s).drop deleter _ _ _
  | modify a f => exact h s

theorem pins_insert (deleter : κ → ν → σ → σ) (c : Lru κ ν) (key : κ) (value : ν) (charge a : Nat) (w : σ) :
    (c.insert deleter key value charge a w).1.pins = Function.update c.pins a 1 := by
  rw [insert, pins_evict, replace]
  split
  · rfl
  · rw [pins_settle]
    rfl

/-- A call changes by one what is held of an entry that it gives or takes back. -/
theorem pins_step {cw : Lru κ ν × σ} (hs : Sound cw.1) (deleter : κ → ν → σ → σ) {call : Call κ ν}
    (hp : Proper cw call) (a : Nat) :
    (step deleter cw call).1.1.pins a + (if call.returns a then 1 else 0) =
      cw.1.pins a + if (step deleter cw call).2 == some a then 1 else 0 := by
  cases call with
  | insert key value charge b =>
    simp only [step, pins_insert]
    by_cases hb : a = b
    · subst hb
      have hfree : cw.1.pins a = 0 := by
        by_contra hne
        have := hs.held a hne
        rw [show cw.1.cells a = none from hp] at this
        cases this
      simp [hfree, Call.returns]
    · simp [hb, Ne.symm hb, Call.returns]
  | lookup key =>
    cases hf : cw.1.find key with
    | none => simp [step, lookup, hf, Call.returns]
    | some b =>
      by_cases hb : a = b
      · simp [step, lookup, hf, hb, touch, Call.returns]
      · simp [step, lookup, hf, pins_touch_ne hb, Ne.symm hb, Call.returns]
  | release b =>
    simp only [step, release, pins_settle]
    by_cases hb : a = b
    · subst hb
      have hpos : cw.1.pins a ≠ 0 := hp
      simp only [unpin, Function.update_self, Call.returns, beq_self_eq_true, if_true, beq_iff_eq, reduceCtorEq,
        if_false]
      omega
    · simp [pins_unpin_ne hb, Call.returns, Ne.symm hb]
  | erase key =>
    cases hf : cw.1.find key with
    | none => simp [step, erase, hf, Call.returns]
    | some b => simp [step, erase, hf, unlist, Call.returns]
  | modify b f => simp [step, modify, Call.returns]

/-- What is held of an entry is what was given out of it and not given back. -/
theorem pins_run (cw : Lru κ ν × σ) (hg : Good cw.1) (deleter : κ → ν → σ → σ) {calls : List (Call κ ν)}
    (ha : Allowed (step deleter) Proper cw calls) (a : Nat) :
    (run (step deleter) cw calls).1.1.pins a + calls.countP (Call.returns a) =
      cw.1.pins a + (run (step deleter) cw calls).2.count (some a) := by
  induction calls generalizing cw with
  | nil => rfl
  | cons call calls ih =>
    have hone := pins_step hg.sound deleter ha.1 a
    have hrest := ih _ (hg.step deleter ha.1) ha.2
    simp only [run, List.countP_cons, List.count_cons]
    omega

theorem capacity_step {cw : Lru κ ν × σ} (hg : Good cw.1) (deleter : κ → ν → σ → σ) {call : Call κ ν}
    (hp : Proper cw call) : (Lru.step deleter cw call).1.1.capacity = cw.1.capacity := by
  cases call with
  | insert key value charge a => exact (hg.insert hp key value charge deleter cw.2).2.1.capacity
  | lookup key => exact (local_lookup cw.1 key).capacity
  | release a => exact capacity_settle _ _ _ _
  | erase key => exact (local_erase hg.sound deleter key cw.2).capacity
  | modify a f => rfl

omit [DecidableEq κ] in
/-- Where every entry counts, a shard lists no more entries than its usage. -/
theorem Good.length_order_le (hg : Good c) (hpos : ∀ a x, c.cells a = some x → 0 < x.charge) (s : Nat) :
    (c.order s).length ≤ c.usage s := by
  obtain ⟨live, hlive, hsum⟩ := hg.charged
  have hcell {a : Nat} (ha : a ∈ (c.order s).toFinset) : ∃ x, c.cells a = some x ∧ c.shard x.key = s :=
    hg.sound.listed s a (List.mem_toFinset.mp ha)
  rw [← List.toFinset_card_of_nodup (hg.sound.nodup s), Finset.card_eq_sum_ones, hsum s]
  calc ∑ a ∈ (c.order s).toFinset, 1
      ≤ ∑ a ∈ (c.order s).toFinset, ((c.cells a).map fun x => if c.shard x.key = s then x.charge else 0).getD 0 := by
        refine Finset.sum_le_sum fun a ha => ?_
        obtain ⟨x, hx, hk⟩ := hcell ha
        rw [hx, Option.map_some, Option.getD_some, if_pos hk]
        exact hpos a x hx
    _ ≤ _ := by
        refine Finset.sum_le_sum_of_subset fun a ha => (hlive a).mpr ?_
        obtain ⟨x, hx, -⟩ := hcell ha
        exact Option.isSome_iff_exists.mpr ⟨x, hx⟩

theorem good_run (cw : Lru κ ν × σ) (hg : Good cw.1) (hf : ∀ s, WithinCapacity cw.1 s) (deleter : κ → ν → σ → σ)
    {calls : List (Call κ ν)} (ha : Allowed (step deleter) Proper cw calls) :
    Good (run (step deleter) cw calls).1.1 ∧ ∀ s, WithinCapacity (run (step deleter) cw calls).1.1 s :=
  run_invariant (fun cw : Lru κ ν × σ => Good cw.1 ∧ ∀ s, WithinCapacity cw.1 s)
    (fun _ _ h hp => ⟨h.1.step deleter hp, WithinCapacity.step h.1 h.2 deleter hp⟩) ⟨hg, hf⟩ ha

end

end

end Lru
end HeldLru
