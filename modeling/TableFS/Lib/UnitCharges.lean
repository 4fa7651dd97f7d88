import Mathlib.Algebra.BigOperators.Group.Finset.Piecewise
import TableFS.Lib.HeldLru
import TableFS.Lib.PinnedLru

/-! Where every entry has charge one, the cache at addresses is the one that numbers its entries: an
address stands for the number its entry got when it was made. -/
namespace HeldLru
open Runs PinnedLru
variable {κ ν σ : Type}

/-- The listed entries of a shard, oldest first, with their keys and numbers. -/
def entriesOf (ρ : Nat → Nat) (c : Lru κ ν) (s : Nat) : List (Option κ × Nat) :=
  (c.order s).map fun a => ((c.cells a).map Cell.key, ρ a)

/-- The same, of the cache that numbers its entries. -/
def rowsOf (d : LRUCache κ ν) (s : Nat) : List (Option κ × Nat) :=
  ((d.table.entries.filter fun e => decide (d.shard e.1 = s)).map fun e => (some e.1, e.2)).reverse

/-- An address stands for a number. One entry may have a reference that is about to go. -/
structure Matches (ρ : Nat → Nat) (extra : Option Nat) (c : Lru κ ν) (d : LRUCache κ ν) : Prop where
  capacity : d.capacity = c.capacity
  shard : d.shard = c.shard
  unit : ∀ a x, c.cells a = some x → x.charge = 1
  inj : ∀ a b, (c.cells a).isSome → (c.cells b).isSome → ρ a = ρ b → a = b
  data : ∀ a x, c.cells a = some x → d.data (ρ a) = some (x.key, x.value)
  refs : ∀ a x, c.cells a = some x → d.refs (ρ a) =
    c.pins a + (if a ∈ c.order (c.shard x.key) then 1 else 0) + if some a = extra then 1 else 0
  live : ∀ i, d.refs i ≠ 0 → ∃ a, (c.cells a).isSome ∧ ρ a = i
  rows : ∀ s, rowsOf d s = entriesOf ρ c s

section
variable {ρ : Nat → Nat} {c : Lru κ ν} {d : LRUCache κ ν} {a b s : Nat} {x : Cell κ ν} {key : κ} {extra : Option Nat}

theorem matches_empty (ρ : Nat → Nat) (capacity : Nat) (shard : κ → Nat) :
    Matches ρ none (.empty capacity shard : Lru κ ν) (.empty capacity shard) where
  capacity := rfl
  shard := rfl
  unit := nofun
  inj := nofun
  data := nofun
  refs := nofun
  live i h := absurd (by simp [LRUCache.refs, LRUCache.empty]) h
  rows s := by simp [rowsOf, entriesOf, LRUCache.empty, Lru.empty]

/-- The relation does not look at the usage. -/
theorem Matches.congr {c' : Lru κ ν} (h : Matches ρ extra c d) (hcap : c'.capacity = c.capacity)
    (hshard : c'.shard = c.shard) (hcells : c'.cells = c.cells) (horder : c'.order = c.order)
    (hpins : c'.pins = c.pins) : Matches ρ extra c' d where
  capacity := h.capacity.trans hcap.symm
  shard := h.shard.trans hshard.symm
  unit := hcells ▸ h.unit
  inj := hcells ▸ h.inj
  data := hcells ▸ h.data
  refs a x hx := by
    rw [hcells] at hx
    rw [hpins, horder, hshard]
    exact h.refs a x hx
  live := hcells ▸ h.live
  rows s := by
    rw [entriesOf, hcells, horder]
    exact h.rows s

theorem Lru.Sound.key_iff (hs : Lru.Sound c) (ha : a ∈ c.order s) (hx : c.cells a = some x) {b t : Nat}
    (hb : b ∈ c.order t) :
    (c.cells b).map Cell.key = some x.key ↔ b = a := by
  constructor
  · intro hk
    obtain ⟨y, hy, hyk⟩ := Option.map_eq_some_iff.mp hk
    exact hs.keys b a y x hy hx (((hs.listed_iff hy).mp hb).2) (((hs.listed_iff hx).mp ha).2) hyk
  · rintro rfl
    rw [hx]
    rfl

/-- Another entry makes no difference to whether this one is freed. -/
theorem settle_add (key : κ) (hne : b ≠ a) (deleter : κ → ν → σ → σ) (value : ν) (charge : Nat) (w : σ) :
    ((c.add key value charge a).settle deleter b w).1.cells = ((c.settle deleter b w).1.add key value charge a).cells ∧
      ((c.add key value charge a).settle deleter b w).2 = (c.settle deleter b w).2 := by
  have hcell : (c.add key value charge a).cells b = c.cells b := Lru.cells_add_ne hne
  have hmem (t : Nat) : b ∈ (c.add key value charge a).order t ↔
      b ∈ c.order t := Lru.mem_add.trans (or_iff_left fun h => hne h.1)
  have hpins : (c.add key value charge a).pins b = c.pins b := Lru.pins_add_ne hne
  simp only [Lru.settle, hcell]
  cases c.cells b with
  | none => exact ⟨rfl, rfl⟩
  | some x =>
    have hcond : (b ∉ (c.add key value charge a).order ((c.add key value charge a).shard x.key) ∧
        (c.add key value charge a).pins b = 0) ↔ b ∉ c.order (c.shard x.key) ∧ c.pins b = 0 :=
      and_congr (not_congr (hmem _)) (by rw [hpins])
    by_cases hc : b ∉ c.order (c.shard x.key) ∧ c.pins b = 0
    · simp only [if_pos hc, if_pos (hcond.mpr hc)]
      exact ⟨Function.update_comm hne.symm _ _ _, trivial⟩
    · simp only [if_neg hc, if_neg (mt hcond.mp hc)]
      exact ⟨trivial, trivial⟩

theorem lt_of_refs {i : Nat} (h : d.refs i ≠ 0) : i < d.heap.length := by
  by_contra hn
  exact h (by simp [LRUCache.refs, List.getElem?_eq_none (Nat.le_of_not_lt hn)])

theorem entriesOf_touch (ρ : Nat → Nat) (c : Lru κ ν) (s a t : Nat) :
    entriesOf ρ (c.touch s a) t =
      entriesOf ρ (c.unlist s a) t ++ if s = t then [((c.cells a).map Cell.key, ρ a)] else [] := by
  by_cases ht : s = t
  · subst ht
    rw [entriesOf, Lru.order_touch_self, List.map_append, entriesOf, Lru.order_unlist_self, if_pos rfl]
    rfl
  · rw [entriesOf, Lru.order_touch_ne (Ne.symm ht), entriesOf, Lru.order_unlist_ne (Ne.symm ht), if_neg ht,
      List.append_nil]
    rfl

theorem oldest_eq (h : Matches ρ extra c d) (s : Nat) :
    (d.oldest s).map some = (c.order s).map fun a => (c.cells a).map Cell.key := by
  have hrows := congrArg (List.map Prod.fst) (h.rows s)
  rw [entriesOf, List.map_map] at hrows
  refine Eq.trans ?_ hrows
  simp only [LRUCache.oldest, rowsOf, AList.keys, List.keys, List.map_reverse, List.map_map, List.filter_map]
  rfl

theorem countP_eq_card {α : Type} (p : α → Bool) (l : List α) :
    l.countP p = ((Finset.range l.length).filter fun i => l[i]?.any p).card := by
  induction l using List.reverseRecOn with
  | nil => rfl
  | append_singleton l x ih =>
    have hrest : (Finset.range l.length).filter (fun i => (l ++ [x])[i]?.any p) =
        (Finset.range l.length).filter fun i => l[i]?.any p :=
      Finset.filter_congr fun i hi => by rw [List.getElem?_append_left (Finset.mem_range.mp hi)]
    rw [List.countP_append, List.countP_singleton, ih, List.length_append, List.length_singleton, Finset.range_add_one,
      Finset.filter_insert, hrest]
    by_cases hx : p x
    · simp [hx]
    · simp [hx]

variable [DecidableEq κ]

theorem mem_rowsOf {i : Nat} : (some key, i) ∈ rowsOf d s ↔ d.table.lookup key = some i ∧ d.shard key = s := by
  rw [rowsOf, List.mem_reverse, List.mem_map, ← Option.mem_def, AList.mem_lookup_iff]
  constructor
  · rintro ⟨⟨k, j⟩, hm, he⟩
    simp only [Prod.mk.injEq, Option.some.injEq] at he
    obtain ⟨rfl, rfl⟩ := he
    simpa using List.mem_filter.mp hm
  · rintro ⟨hm, hs⟩
    exact ⟨⟨key, i⟩, List.mem_filter.mpr ⟨hm, by simpa using hs⟩, rfl⟩

/-- Both caches find the same entry. -/
theorem Matches.lookup_eq (h : Matches ρ extra c d) (hs : Lru.Sound c) (key : κ) :
    d.table.lookup key = (c.find key).map ρ := by
  have hiff (i : Nat) : d.table.lookup key = some i ↔ ∃ a, c.find key = some a ∧ ρ a = i := by
    rw [← and_iff_left (a := d.table.lookup key = some i) (congrFun h.shard key), ← mem_rowsOf, h.rows, entriesOf,
      List.mem_map]
    constructor
    · rintro ⟨a, ha, he⟩
      exact ⟨a, hs.find_iff.mpr ⟨ha, (Prod.mk.inj he).1⟩, (Prod.mk.inj he).2⟩
    · rintro ⟨a, ha, rfl⟩
      obtain ⟨hm, hk⟩ := hs.find_iff.mp ha
      exact ⟨a, hm, by rw [hk]⟩
  apply Option.ext
  intro i
  rw [hiff, Option.map_eq_some_iff]

theorem kerase_eq_filter {l : List ((_ : κ) × Nat)} (hl : l.NodupKeys) :
    l.kerase key = l.filter fun e => decide (e.1 ≠ key) := by
  induction l with
  | nil => rfl
  | cons e l ih =>
    obtain ⟨hn, hl⟩ := List.nodupKeys_cons.mp hl
    by_cases he : key = e.1
    · subst he
      rw [List.kerase_cons_eq rfl, List.filter_cons_of_neg (by simp)]
      refine (List.filter_eq_self.mpr fun b hb => ?_).symm
      simp only [ne_eq, decide_eq_true_eq]
      exact fun hk => hn (hk ▸ List.mem_keys_of_mem hb)
    · rw [List.kerase_cons_ne he, List.filter_cons_of_pos (by simpa using Ne.symm he), ih hl]

theorem rowsOf_erase (key : κ) (s : Nat) :
    rowsOf { d with table := d.table.erase key } s = (rowsOf d s).filter fun p => decide (p.1 ≠ some key) := by
  have he : (d.table.erase key).entries = d.table.entries.filter fun e => decide (e.1 ≠ key) :=
    kerase_eq_filter d.table.nodupKeys
  simp only [rowsOf, he, List.filter_reverse, List.filter_map, List.filter_filter, Function.comp_def,
    Option.some.injEq, ne_eq]
  congr 2
  exact List.filter_congr fun _ _ => Bool.and_comm _ _

theorem rowsOf_insert (key : κ) (i s : Nat) :
    rowsOf { d with table := d.table.insert key i } s =
      rowsOf { d with table := d.table.erase key } s ++ if d.shard key = s then [(some key, i)] else [] := by
  have he : (d.table.insert key i).entries = ⟨key, i⟩ :: (d.table.erase key).entries := AList.entries_insert
  simp only [rowsOf, he]
  by_cases hs : d.shard key = s
  · rw [List.filter_cons_of_pos (by simpa using hs), if_pos hs, List.map_cons, List.reverse_cons]
  · rw [List.filter_cons_of_neg (by simpa using hs), if_neg hs, List.append_nil]

theorem entriesOf_unlist (hs : Lru.Sound c) (ha : a ∈ c.order s) (hx : c.cells a = some x) (t : Nat) :
    entriesOf ρ (c.unlist s a) t = (entriesOf ρ c t).filter fun p => decide (p.1 ≠ some x.key) := by
  have horder : (c.unlist s a).order t = (c.order t).filter fun b => decide (b ≠ a) := by
    by_cases ht : t = s
    · subst ht
      rw [Lru.order_unlist_self, (hs.nodup t).erase_eq_filter]
      exact List.filter_congr fun b _ => by simp [bne, beq_eq_decide]
    · rw [Lru.order_unlist_ne ht]
      refine (List.filter_eq_self.mpr fun b hb => ?_).symm
      simp only [ne_eq, decide_eq_true_eq]
      rintro rfl
      exact ht (hs.shard_unique hb ha)
  rw [entriesOf, horder, entriesOf, List.filter_map]
  refine congrArg _ (List.filter_congr fun b hb => ?_)
  simp only [Function.comp_apply, ne_eq, decide_not, Bool.not_inj_iff, decide_eq_decide]
  exact (hs.key_iff ha hx hb).symm

theorem Matches.unlist (h : Matches ρ none c d) (hs : Lru.Sound c) (ha : a ∈ c.order s) (hx : c.cells a = some x) :
    Matches ρ (some a) (c.unlist s a) { d with table := d.table.erase x.key } := by
  refine ⟨h.capacity, h.shard, h.unit, h.inj, h.data, fun b y hy => ?_, h.live, fun t => ?_⟩
  · rw [LRUCache.refs_table, h.refs b y hy]
    have hiff := (hs.listed_iff hx).mp ha
    by_cases hb : b = a
    · subst hb
      obtain rfl := Option.some.inj (hx.symm.trans hy)
      have hnot := Lru.notMem_unlist (a := b) (s := s) hs.toArranged
      simp only [show (c.unlist s b).shard = c.shard from rfl, hiff.1, if_pos ha, if_neg hnot, if_true,
        reduceCtorEq, if_false]
      rfl
    · have hmem := Lru.mem_unlist (s := s) (t := c.shard y.key) hs.toArranged hb
      simp only [show (c.unlist s a).shard = c.shard from rfl, hmem, Option.some.injEq, hb, if_false, reduceCtorEq]
      rfl
  · rw [rowsOf_erase, h.rows, entriesOf_unlist hs ha hx]

omit [DecidableEq κ] in
/-- The reference that was about to go has gone. -/
theorem Matches.settle (h : Matches ρ (some a) c d) (hs : Lru.Arranged c) (hx : c.cells a = some x)
    (deleter : κ → ν → σ → σ) (w : σ) :
    Matches ρ none (c.settle deleter a w).1 (d.unref deleter (ρ a) w).1 ∧
      (c.settle deleter a w).2 = (d.unref deleter (ρ a) w).2 := by
  have hrefs := h.refs a x hx
  rw [LRUCache.unref_fst, LRUCache.unref_snd (h.data a x hx)]
  have hother (b : Nat) (hb : (c.cells b).isSome) (hne : b ≠ a) : ρ a ≠ ρ b :=
    fun he => hne (h.inj b a hb (Option.isSome_iff_exists.mpr ⟨x, hx⟩) he.symm)
  rcases Lru.settle_cases deleter c a w with ⟨he, hkeep⟩ | ⟨y, hy, hno, hpin, he⟩
  · rw [he]
    have hpos : c.pins a ≠ 0 ∨ a ∈ c.order (c.shard x.key) := hkeep x hx
    have htwo : ¬ (d.refs (ρ a) = 1 ∨ d.refs (ρ a) = 0) := by
      rw [hrefs]
      split <;> simp_all
    refine ⟨⟨h.capacity, h.shard, h.unit, h.inj, fun b y hy => by rw [LRUCache.data_deref, h.data b y hy],
      fun b y hy => ?_, fun i hi => h.live i fun h0 => hi ?_, h.rows⟩, (if_neg htwo).symm⟩
    · rw [LRUCache.refs_deref, h.refs b y hy]
      by_cases hb : b = a
      · simp [hb]
      · simp [hb, hother b (Option.isSome_iff_exists.mpr ⟨y, hy⟩) hb]
    · rw [LRUCache.refs_deref, h0, Nat.zero_sub]
  · obtain rfl := Option.some.inj (hx.symm.trans hy)
    rw [he]
    have hone : d.refs (ρ a) = 1 := by
      rw [hrefs]
      simp [hno, hpin]
    have hne {b : Nat} {y : Cell κ ν} (hb : Function.update c.cells a none b = some y) : b ≠ a ∧
      c.cells b = some y := by
      by_cases hba : b = a
      · simp [hba] at hb
      · exact ⟨hba, by simpa [hba] using hb⟩
    have hsome {b : Nat} (hb : (Function.update c.cells a none b).isSome) : b ≠ a ∧ (c.cells b).isSome := by
      obtain ⟨y, hy⟩ := Option.isSome_iff_exists.mp hb
      exact ⟨(hne hy).1, Option.isSome_iff_exists.mpr ⟨y, (hne hy).2⟩⟩
    refine ⟨⟨h.capacity, h.shard, fun b y hb => h.unit b y (hne hb).2,
      fun b b' hb hb' => h.inj b b' (hsome hb).2 (hsome hb').2,
      fun b y hb => by rw [LRUCache.data_deref, h.data b y (hne hb).2], fun b y hb => ?_, fun i hi => ?_,
        fun t => ?_⟩, ?_⟩
    · have hba := (hne hb).1
      rw [LRUCache.refs_deref, h.refs b y (hne hb).2]
      simp [hba, hother b (hsome (Option.isSome_iff_exists.mpr ⟨y, hb⟩)).2 hba]
    · rw [LRUCache.refs_deref] at hi
      obtain ⟨b, hb, rfl⟩ := h.live i fun h0 => hi (by rw [h0, Nat.zero_sub])
      have hba : b ≠ a := by
        rintro rfl
        simp [hone] at hi
      exact ⟨b, by simpa [hba] using hb, rfl⟩
    · refine (h.rows t).trans (List.map_congr_left fun b hb => ?_)
      have hba : b ≠ a := by
        rintro rfl
        exact hno (((hs.listed_iff hx).mp hb).2)
      simp only [Function.update_of_ne hba]
    · simp [hone]

theorem Matches.touch (h : Matches ρ none c d) (hs : Lru.Sound c) (hf : c.find key = some a) :
    Matches ρ none (c.touch (c.shard key) a) { d.ref (ρ a) with table := d.table.insert key (ρ a) } := by
  obtain ⟨ha, hk⟩ := hs.find_iff.mp hf
  obtain ⟨x, hx, rfl⟩ := Option.map_eq_some_iff.mp hk
  refine ⟨h.capacity, h.shard, h.unit, h.inj, fun b y hy => ?_, fun b y hy => ?_, fun i hi => ?_, fun t => ?_⟩
  · rw [LRUCache.data_table, LRUCache.data_ref, h.data b y hy]
  · rw [LRUCache.refs_table, LRUCache.refs_ref _ (LRUCache.lt_of_data (h.data b y hy)), h.refs b y hy]
    have hmem := Lru.mem_touch (b := b) (t := c.shard y.key) hs.toArranged ha
    simp only [show (c.touch (c.shard x.key) a).shard = c.shard from rfl, hmem]
    by_cases hb : b = a
    · simp only [hb, Lru.touch, Function.update_self, if_true]
      omega
    · have hne : ρ a ≠ ρ b := fun he => hb (h.inj b a (Option.isSome_iff_exists.mpr ⟨y, hy⟩)
        (Option.isSome_iff_exists.mpr ⟨x, hx⟩) he.symm)
      rw [Lru.pins_touch_ne hb, if_neg hne, Nat.add_zero]
  · by_cases hia : i = ρ a
    · exact ⟨a, Option.isSome_iff_exists.mpr ⟨x, hx⟩, hia.symm⟩
    · refine h.live i fun h0 => hi ?_
      have hlt : i < d.heap.length := by
        have := lt_of_refs hi
        simpa [LRUCache.ref] using this
      rw [LRUCache.refs_table, LRUCache.refs_ref _ hlt, h0, if_neg (Ne.symm hia)]
  · have hrows := rowsOf_insert (d := d) x.key (ρ a) t
    rw [rowsOf_erase, h.rows, ← entriesOf_unlist hs ha hx, congrFun h.shard x.key] at hrows
    rw [entriesOf_touch, hx]
    exact hrows

omit [DecidableEq κ] in
theorem Matches.modify (h : Matches ρ none c d) (ha : (c.cells a).isSome) (f : ν → ν) :
    Matches ρ none (c.modify a f) (d.update (ρ a) f) := by
  refine ⟨h.capacity, h.shard, fun b y hy => ?_, fun b b' hb hb' => ?_, fun b y hy => ?_, fun b y hy => ?_,
    fun i hi => ?_, fun t => ?_⟩
  · obtain ⟨x, hx, -, hc⟩ := Lru.cells_modify_some hy
    exact hc ▸ h.unit b x hx
  · rw [Lru.cells_modify, Option.isSome_map] at hb hb'
    exact h.inj b b' hb hb'
  · rw [Lru.cells_modify] at hy
    obtain ⟨x, hx, rfl⟩ := Option.map_eq_some_iff.mp hy
    rw [LRUCache.data_update, h.data b x hx, Option.map_some]
    by_cases hb : b = a
    · simp [hb]
    · have hne : ρ a ≠ ρ b := fun he => hb (h.inj b a (Option.isSome_iff_exists.mpr ⟨x, hx⟩) ha he.symm)
      simp [hb, hne]
  · obtain ⟨x, hx, hk, -⟩ := Lru.cells_modify_some hy
    rw [LRUCache.refs_update, h.refs b x hx, hk]
    rfl
  · rw [LRUCache.refs_update] at hi
    obtain ⟨b, hb, rfl⟩ := h.live i hi
    exact ⟨b, by rw [Lru.cells_modify, Option.isSome_map]; exact hb, rfl⟩
  · refine (h.rows t).trans (List.map_congr_left fun b _ => ?_)
    rw [Lru.cells_modify, Option.map_map]
    congr 2
    funext x
    by_cases hb : b = a <;> simp [hb]

/-- The new entry comes last in its shard. -/
private theorem Matches.rows_add (h : Matches ρ extra c d) (hfree : ∀ t, a ∉ c.order t)
    (hk : d.table.lookup key = none) (value : ν) (t : Nat) :
    rowsOf (d.add key value) t = entriesOf (Function.update ρ a d.heap.length) (c.add key value 1 a) t := by
  have herase : rowsOf { d with table := d.table.erase key } t = rowsOf d t := by
    rw [rowsOf_erase]
    refine List.filter_eq_self.mpr fun p hp => ?_
    simp only [ne_eq, decide_eq_true_eq]
    intro hpk
    have hrow := mem_rowsOf.mp (show (some key, p.2) ∈ rowsOf d t from hpk ▸ hp)
    rw [hk] at hrow
    cases hrow.1
  have hrows := rowsOf_insert (d := d) key d.heap.length t
  rw [herase, h.rows, congrFun h.shard key] at hrows
  refine Eq.trans hrows ?_
  have hmap : entriesOf (Function.update ρ a d.heap.length) (c.add key value 1 a) t =
      ((c.add key value 1 a).order t).map fun b =>
        (((c.add key value 1 a).cells b).map Cell.key, Function.update ρ a d.heap.length b) := rfl
  have hkeep : (c.order t).map (fun b =>
      (((c.add key value 1 a).cells b).map Cell.key, Function.update ρ a d.heap.length b)) = entriesOf ρ c t :=
    List.map_congr_left fun b hb => by
      have hba := ne_of_mem_of_not_mem hb (hfree t)
      rw [Lru.cells_add_ne hba, Function.update_of_ne hba]
  by_cases ht : c.shard key = t
  · subst ht
    rw [hmap, Lru.order_add_self, List.map_append, hkeep, if_pos rfl]
    simp [Lru.cells_add_self]
  · rw [hmap, Lru.order_add_ne (Ne.symm ht), hkeep, if_neg ht, List.append_nil]

theorem Matches.add (h : Matches ρ extra c d) (hs : Lru.Arranged c) (ha : c.cells a = none)
    (hk : d.table.lookup key = none) (hextra : extra ≠ some a) (value : ν) :
    Matches (Function.update ρ a d.heap.length) extra (c.add key value 1 a) (d.add key value) := by
  have hlt {b : Nat} {y : Cell κ ν} (hy : c.cells b = some y) : ρ b < d.heap.length :=
    LRUCache.lt_of_data (h.data b y hy)
  have hold {b : Nat} {y : Cell κ ν} (hb : b ≠ a) (hy : (c.add key value 1 a).cells b = some y) :
      c.cells b = some y := (Lru.cells_add_ne hb).symm.trans hy
  refine ⟨h.capacity, h.shard, fun b y hy => ?_, fun b b' hb hb' he => ?_, fun b y hy => ?_, fun b y hy => ?_,
    fun i hi => ?_, h.rows_add (hs.notMem_of_none ha) hk value⟩
  · by_cases hb : b = a
    · subst hb
      obtain rfl := Option.some.inj (Lru.cells_add_self.symm.trans hy)
      rfl
    · exact h.unit b y (hold hb hy)
  · obtain ⟨y, hy⟩ := Option.isSome_iff_exists.mp hb
    obtain ⟨y', hy'⟩ := Option.isSome_iff_exists.mp hb'
    by_cases hba : b = a <;> by_cases hba' : b' = a
    · exact hba.trans hba'.symm
    · have := hlt (hold hba' hy')
      simp [hba, hba'] at he
      omega
    · have := hlt (hold hba hy)
      simp [hba, hba'] at he
      omega
    · simp only [Function.update_of_ne hba, Function.update_of_ne hba'] at he
      exact h.inj b b' (Option.isSome_iff_exists.mpr ⟨y, hold hba hy⟩)
        (Option.isSome_iff_exists.mpr ⟨y', hold hba' hy'⟩) he
  · rw [LRUCache.data_add]
    by_cases hb : b = a
    · subst hb
      obtain rfl := Option.some.inj (Lru.cells_add_self.symm.trans hy)
      simp
    · have hy := hold hb hy
      rw [Function.update_of_ne hb, if_neg (Nat.ne_of_lt (hlt hy)), h.data b y hy]
  · rw [LRUCache.refs_add]
    by_cases hb : b = a
    · subst hb
      obtain rfl := Option.some.inj (Lru.cells_add_self.symm.trans hy)
      have hmem : b ∈ (c.add key value 1 b).order (c.shard key) := Lru.mem_add.mpr (.inr ⟨rfl, rfl⟩)
      have hpins : (c.add key value 1 b).pins b = 1 := Function.update_self _ _ _
      rw [Function.update_self, if_pos rfl, hpins, if_neg (Ne.symm hextra)]
      change 2 = 1 + (if b ∈ (c.add key value 1 b).order (c.shard key) then 1 else 0) + 0
      rw [if_pos hmem]
    · have hy := hold hb hy
      rw [Function.update_of_ne hb, if_neg (Nat.ne_of_lt (hlt hy)), h.refs b y hy, Lru.pins_add_ne hb]
      have hmem : b ∈ (c.add key value 1 a).order (c.shard y.key) ↔ b ∈ c.order (c.shard y.key) :=
        Lru.mem_add.trans (or_iff_left fun h => hb h.1)
      simp only [show (c.add key value 1 a).shard = c.shard from rfl, hmem]
  · rw [LRUCache.refs_add] at hi
    by_cases hlen : i = d.heap.length
    · exact ⟨a, by rw [Lru.cells_add_self]; rfl, by rw [Function.update_self, hlen]⟩
    · rw [if_neg hlen] at hi
      obtain ⟨b, hb, rfl⟩ := h.live i hi
      have hba : b ≠ a := by
        rintro rfl
        rw [ha] at hb
        cases hb
      exact ⟨b, by rw [Lru.cells_add_ne hba]; exact hb, Function.update_of_ne hba _ _⟩

omit [DecidableEq κ] in
/-- The usage is the number of entries on both sides. -/
theorem Matches.usage_eq (h : Matches ρ none c d) (hg : Lru.Good c) (s : Nat) : d.usage s = c.usage s := by
  obtain ⟨live, hlive, hsum⟩ := hg.charged
  have hcard : c.usage s = (live.filter fun a => (c.cells a).any fun x => decide (c.shard x.key = s)).card := by
    rw [hsum s, Finset.card_filter]
    refine Finset.sum_congr rfl fun a ha => ?_
    obtain ⟨x, hx⟩ := Option.isSome_iff_exists.mp ((hlive a).mp ha)
    simp [hx, h.unit a x hx]
  rw [hcard, LRUCache.usage, countP_eq_card]
  symm
  have hcell {a : Nat} (ha : a ∈ live.filter fun a => (c.cells a).any fun x => decide (c.shard x.key = s)) :
      ∃ x, c.cells a = some x ∧ c.shard x.key = s := by
    obtain ⟨hl, hk⟩ := Finset.mem_filter.mp ha
    obtain ⟨x, hx⟩ := Option.isSome_iff_exists.mp ((hlive a).mp hl)
    exact ⟨x, hx, by simpa [hx] using hk⟩
  refine Finset.card_nbij ρ (fun a ha => ?_) (fun a ha b hb he => ?_) fun i hi => ?_
  · obtain ⟨x, hx, hk⟩ := hcell ha
    have hdata := h.data a x hx
    have hrefs := h.refs a x hx
    have hpos : d.refs (ρ a) ≠ 0 := by
      rw [hrefs]
      rcases hg.alive a x hx (by simp) with hp | hl
      · omega
      · simp [hl]
    obtain ⟨e, he, hke⟩ := Option.map_eq_some_iff.mp hdata
    have hlt := LRUCache.lt_of_data hdata
    have hkey : e.key = x.key := (Prod.mk.inj hke).1
    simp only [LRUCache.refs, he, Option.map_some, Option.getD_some] at hpos
    rw [Finset.mem_coe, Finset.mem_filter, Finset.mem_range]
    refine ⟨hlt, ?_⟩
    rw [he, Option.any_some, hkey, h.shard, hk]
    simpa using Nat.pos_of_ne_zero hpos
  · obtain ⟨x, hx, -⟩ := hcell ha
    obtain ⟨y, hy, -⟩ := hcell hb
    exact h.inj a b (Option.isSome_iff_exists.mpr ⟨x, hx⟩) (Option.isSome_iff_exists.mpr ⟨y, hy⟩) he
  · rw [Finset.mem_coe, Finset.mem_filter] at hi
    obtain ⟨-, hi⟩ := hi
    obtain ⟨e, he, hp⟩ := (Option.any_eq_true _ _).mp hi
    simp only [Bool.and_eq_true, decide_eq_true_eq] at hp
    have hrefs : d.refs i ≠ 0 := by
      simp only [LRUCache.refs, he, Option.map_some, Option.getD_some]
      omega
    obtain ⟨a, ha, rfl⟩ := h.live i hrefs
    obtain ⟨x, hx⟩ := Option.isSome_iff_exists.mp ha
    have hdata := h.data a x hx
    simp only [LRUCache.data, he, Option.map_some, Option.some.injEq, Prod.mk.injEq] at hdata
    refine ⟨a, ?_, rfl⟩
    rw [Finset.mem_coe, Finset.mem_filter, hlive]
    refine ⟨ha, ?_⟩
    rw [hx, Option.any_some, ← hdata.1, ← h.shard, hp.1]
    exact decide_eq_true rfl

/-- Dropping an entry is the same on both sides. -/
theorem Matches.drop (h : Matches ρ none c d) (hs : Lru.Sound c) (ha : a ∈ c.order s) (hx : c.cells a = some x)
    (deleter : κ → ν → σ → σ) (w : σ) :
    Matches ρ none ((c.unlist s a).settle deleter a w).1 (LRUCache.erase deleter x.key d w).1 ∧
      ((c.unlist s a).settle deleter a w).2 = (LRUCache.erase deleter x.key d w).2 := by
  have hlist := (hs.listed_iff hx).mp ha
  have hfind : c.find x.key = some a := hs.find_iff.mpr ⟨hlist.2, by rw [hx]; rfl⟩
  have hlookup : d.table.lookup x.key = some (ρ a) := by rw [h.lookup_eq hs, hfind]; rfl
  have := (h.unlist hs ha hx).settle (hs.toArranged.unlist s a) hx deleter w
  simpa only [LRUCache.erase, hlookup] using this

theorem Matches.erase (h : Matches ρ none c d) (hs : Lru.Sound c) (key : κ) (deleter : κ → ν → σ → σ) (w : σ) :
    Matches ρ none (c.erase deleter key w).1 (LRUCache.erase deleter key d w).1 ∧
      (c.erase deleter key w).2 = (LRUCache.erase deleter key d w).2 := by
  cases hf : c.find key with
  | none =>
    have hlookup : d.table.lookup key = none := by rw [h.lookup_eq hs, hf]; rfl
    simp only [Lru.erase, hf, LRUCache.erase, hlookup]
    exact ⟨h, trivial⟩
  | some a =>
    obtain ⟨ha, hk⟩ := hs.find_iff.mp hf
    obtain ⟨x, hx, rfl⟩ := Option.map_eq_some_iff.mp hk
    simpa only [Lru.erase, hf] using h.drop hs ha hx deleter w

/-- Once the shard fits, the rest of the loop does nothing. -/
theorem foldl_erase_fits (deleter : κ → ν → σ → σ) (s : Nat) (d : LRUCache κ ν) (w : σ)
    (hfits : ¬ d.capacity < d.usage s) (ks : List κ) :
    ks.foldl (fun cw k => if cw.1.capacity < cw.1.usage s then LRUCache.erase deleter k cw.1 cw.2 else cw) (d, w) =
      (d, w) := by
  induction ks with
  | nil => rfl
  | cons k ks ih => rw [List.foldl_cons, if_neg hfits, ih]

theorem Matches.evict (h : Matches ρ none c d) (hg : Lru.Good c) (deleter : κ → ν → σ → σ) (s : Nat) (w : σ)
    {ks : List κ} (hks : ks.map some = (c.order s).map fun a => (c.cells a).map Cell.key) :
    let r := Lru.evict deleter s ks.length c w
    let q := ks.foldl (fun cw k => if cw.1.capacity < cw.1.usage s then LRUCache.erase deleter k cw.1 cw.2 else cw)
      (d, w)
    Matches ρ none r.1 q.1 ∧ r.2 = q.2 := by
  induction ks generalizing c d w with
  | nil => exact ⟨h, rfl⟩
  | cons k ks ih =>
    cases horder : c.order s with
    | nil => rw [horder] at hks; cases hks
    | cons a l =>
      have ha : a ∈ c.order s := horder ▸ List.mem_cons_self
      obtain ⟨x, hx, -⟩ := hg.sound.listed s a ha
      rw [horder, List.map_cons, List.map_cons, hx] at hks
      obtain ⟨hk, htail⟩ := List.cons.inj hks
      obtain rfl : k = x.key := Option.some.inj hk
      have husage := h.usage_eq hg s
      by_cases hfull : c.capacity < c.usage s
      · obtain ⟨hm, hw⟩ := h.drop hg.sound ha hx deleter w
        have hfull' : d.capacity < d.usage s := by rwa [h.capacity, husage]
        have hstep := ih hm (hg.drop deleter s a w) ((c.unlist s a).settle deleter a w).2 ?_
        · have hpair : LRUCache.erase deleter x.key d w =
              ((LRUCache.erase deleter x.key d w).1, ((c.unlist s a).settle deleter a w).2) := Prod.ext rfl hw.symm
          simp only [List.length_cons, Lru.evict, horder, if_pos hfull, List.foldl_cons, if_pos hfull']
          rw [hpair]
          exact hstep
        · rw [Lru.order_settle, Lru.order_unlist_self, horder, List.erase_cons_head, htail]
          refine List.map_congr_left fun b hb => ?_
          have hba : b ≠ a := by
            rintro rfl
            have := hg.sound.nodup s
            rw [horder] at this
            exact (List.nodup_cons.mp this).1 hb
          rcases Lru.settle_cases deleter (c.unlist s a) a w with ⟨he, -⟩ | ⟨y, -, -, -, he⟩
          · rw [he]
            rfl
          · rw [he]
            simp only [Function.update_of_ne hba]
            rfl
      · have hfull' : ¬ d.capacity < d.usage s := by rwa [h.capacity, husage]
        simp only [List.length_cons, Lru.evict, horder, if_neg hfull, foldl_erase_fits deleter s d w hfull']
        exact ⟨h, trivial⟩

theorem Matches.replace (h : Matches ρ none c d) (hg : Lru.Good c) (ha : c.cells a = none) (key : κ) (value : ν)
    (deleter : κ → ν → σ → σ) (w : σ) :
    let r := c.replace deleter key value 1 a w
    let q := LRUCache.erase deleter key d w
    Matches (Function.update ρ a q.1.heap.length) none r.1 (q.1.add key value) ∧ r.2 = q.2 := by
  have hs := hg.sound
  cases hf : c.find key with
  | none =>
    have hlookup : d.table.lookup key = none := by rw [h.lookup_eq hs, hf]; rfl
    simp only [Lru.replace, hf, LRUCache.erase_none hlookup]
    exact ⟨h.add hs.toArranged ha hlookup (by simp) value, trivial⟩
  | some old =>
    obtain ⟨hmem, hk⟩ := hs.find_iff.mp hf
    obtain ⟨x, hx, rfl⟩ := Option.map_eq_some_iff.mp hk
    have hne : old ≠ a := by
      rintro rfl
      rw [ha] at hx
      cases hx
    obtain ⟨hm, hw⟩ := h.drop hs hmem hx deleter w
    have hgone : (LRUCache.erase deleter x.key d w).1.table.lookup x.key = none := by
      have hlookup : d.table.lookup x.key = some (ρ old) := by rw [h.lookup_eq hs, hf]; rfl
      rw [LRUCache.erase_fst_some hlookup]
      exact AList.lookup_erase _ _
    have hfree : ((c.unlist (c.shard x.key) old).settle deleter old w).1.cells a = none := by
      rcases Lru.settle_cases deleter (c.unlist (c.shard x.key) old) old w with ⟨he, -⟩ | ⟨y, -, -, -, he⟩ <;> rw [he]
      · exact ha
      · exact (Function.update_of_ne hne.symm _ _).trans ha
    have hgood := hg.drop deleter (c.shard x.key) old w
    have hadd := hm.add hgood.sound.toArranged hfree hgone (by simp) value
    obtain ⟨hcells, hworld⟩ := settle_add (c := c.unlist (c.shard x.key) old) x.key hne deleter value 1 w
    simp only [Lru.replace, hf, Lru.unlist_add hmem]
    refine ⟨hadd.congr ?_ ?_ hcells ?_ ?_, hworld.trans hw⟩
    · simp only [Lru.capacity_settle, Lru.add]
    · simp only [Lru.shard_settle, Lru.add]
    · simp only [Lru.order_settle, Lru.add, Lru.shard_settle]
    · simp only [Lru.pins_settle, Lru.add]

theorem Matches.insert (h : Matches ρ none c d) (hg : Lru.Good c) (ha : c.cells a = none) (key : κ) (value : ν)
    (deleter : κ → ν → σ → σ) (w : σ) :
    let r := c.insert deleter key value 1 a w
    let q := LRUCache.insert deleter key value d w
    Matches (Function.update ρ a q.2.2) none r.1 q.1 ∧ r.2 = q.2.1 := by
  obtain ⟨hm, hw⟩ := h.replace hg ha key value deleter w
  obtain ⟨hgood, hlocal⟩ := hg.replace ha key value 1 deleter w
  have hks := oldest_eq hm (c.shard key)
  have hlen := congrArg List.length hks
  rw [List.length_map, List.length_map] at hlen
  have hev := hm.evict hgood deleter (c.shard key) (c.replace deleter key value 1 a w).2 hks
  have hshard : ((LRUCache.erase deleter key d w).1.add key value).shard key = c.shard key := by
    rw [hm.shard, hlocal.shard]
  simp only [hlen, hw] at hev
  simp only [Lru.insert, LRUCache.insert, LRUCache.evict, hw]
  rw [show (LRUCache.erase deleter key d w).1.shard key = c.shard key from hshard]
  exact hev

omit [DecidableEq κ] in
theorem Matches.release (h : Matches ρ none c d) (hg : Lru.Good c) (hp : c.pins a ≠ 0) (deleter : κ → ν → σ → σ)
    (w : σ) :
    Matches ρ none (c.release deleter a w).1 (d.unref deleter (ρ a) w).1 ∧
      (c.release deleter a w).2 = (d.unref deleter (ρ a) w).2 := by
  obtain ⟨x, hx⟩ := Option.isSome_iff_exists.mp (hg.sound.held a hp)
  have hextra : Matches ρ (some a) (c.unpin a) d := by
    refine ⟨h.capacity, h.shard, h.unit, h.inj, h.data, fun b y hy => ?_, h.live, h.rows⟩
    rw [h.refs b y hy]
    change c.pins b + (if b ∈ c.order (c.shard y.key) then 1 else 0) + _ =
      (c.unpin a).pins b + (if b ∈ c.order (c.shard y.key) then 1 else 0) + _
    by_cases hb : b = a
    · subst hb
      simp only [Lru.unpin, Function.update_self, if_true, reduceCtorEq, if_false]
      omega
    · simp only [Lru.pins_unpin_ne hb, Option.some.injEq, hb, reduceCtorEq]
  exact hextra.settle ⟨hg.sound.listed, hg.sound.nodup⟩ hx deleter w

end

section
variable [DecidableEq κ]

/-- The calls of the cache at addresses, made of the one that numbers its entries. -/
def numbered (deleter : κ → ν → σ → σ) (q : (LRUCache κ ν × (Nat → Nat)) × σ) :
    Call κ ν → ((LRUCache κ ν × (Nat → Nat)) × σ) × Option Nat
  | .insert key value _ a =>
    let r := LRUCache.insert deleter key value q.1.1 q.2
    (((r.1, Function.update q.1.2 a r.2.2), r.2.1), some r.2.2)
  | .lookup key =>
    let r := q.1.1.lookup key
    (((r.1, q.1.2), q.2), r.2)
  | .release a =>
    let r := LRUCache.unref deleter (q.1.2 a) q.1.1 q.2
    (((r.1, q.1.2), r.2), none)
  | .erase key =>
    let r := LRUCache.erase deleter key q.1.1 q.2
    (((r.1, q.1.2), r.2), none)
  | .modify a f => (((q.1.1.update (q.1.2 a) f, q.1.2), q.2), none)

def Call.Unit : Call κ ν → Prop
  | .insert _ _ charge _ => charge = 1
  | _ => True

/-- Every call keeps the relation, has the same effects, and gives a handle that stands for the number. -/
theorem Matches.step {p : Lru κ ν × σ} {q : (LRUCache κ ν × (Nat → Nat)) × σ} (h : Matches q.1.2 none p.1 q.1.1)
    (hg : Lru.Good p.1) (hw : p.2 = q.2) (deleter : κ → ν → σ → σ) {call : Call κ ν} (hp : Lru.Proper p call)
    (hu : call.Unit) :
    Matches (numbered deleter q call).1.1.2 none (Lru.step deleter p call).1.1 (numbered deleter q call).1.1.1 ∧
      (Lru.step deleter p call).1.2 = (numbered deleter q call).1.2 ∧
      (Lru.step deleter p call).2.map (numbered deleter q call).1.1.2 = (numbered deleter q call).2 := by
  cases call with
  | insert key value charge a =>
    obtain rfl : charge = 1 := hu
    obtain ⟨hm, hw'⟩ := h.insert hg hp key value deleter p.2
    rw [hw] at hm hw'
    simp only [Lru.step, numbered, hw]
    exact ⟨hm, hw', by simp⟩
  | lookup key =>
    have hl := h.lookup_eq hg.sound key
    cases hf : p.1.find key with
    | none =>
      rw [hf, Option.map_none] at hl
      simpa [Lru.step, Lru.lookup, numbered, LRUCache.lookup, hf, hl] using ⟨h, hw⟩
    | some a =>
      rw [hf, Option.map_some] at hl
      simpa [Lru.step, Lru.lookup, numbered, LRUCache.lookup, hf, hl] using ⟨h.touch hg.sound hf, hw⟩
  | release a =>
    have hr := h.release hg hp deleter p.2
    simp only [Lru.step, numbered, hw] at hr ⊢
    exact ⟨hr.1, hr.2, rfl⟩
  | erase key =>
    have hr := h.erase hg.sound key deleter p.2
    simp only [Lru.step, numbered, hw] at hr ⊢
    exact ⟨hr.1, hr.2, rfl⟩
  | modify a f => exact ⟨h.modify (hg.sound.held a hp) f, hw, rfl⟩

theorem Matches.run {p : Lru κ ν × σ} {q : (LRUCache κ ν × (Nat → Nat)) × σ} (h : Matches q.1.2 none p.1 q.1.1)
    (hg : Lru.Good p.1) (hw : p.2 = q.2) (deleter : κ → ν → σ → σ) {calls : List (Call κ ν)}
    (ha : Allowed (Lru.step deleter) Lru.Proper p calls) (hu : ∀ call ∈ calls, call.Unit) :
    Matches (Runs.run (numbered deleter) q calls).1.1.2 none (Runs.run (Lru.step deleter) p calls).1.1
        (Runs.run (numbered deleter) q calls).1.1.1 ∧
      (Runs.run (Lru.step deleter) p calls).1.2 = (Runs.run (numbered deleter) q calls).1.2 ∧
      (Runs.run (Lru.step deleter) p calls).2.map Option.isSome =
        (Runs.run (numbered deleter) q calls).2.map Option.isSome := by
  induction calls generalizing p q with
  | nil => exact ⟨h, hw, rfl⟩
  | cons call calls ih =>
    obtain ⟨hm, hw', ho⟩ := h.step hg hw deleter ha.1 (hu call List.mem_cons_self)
    obtain ⟨hm', hw'', hos⟩ := ih hm (hg.step deleter ha.1) hw' ha.2 fun call hc => hu call (List.mem_cons_of_mem _ hc)
    refine ⟨hm', hw'', ?_⟩
    simp only [Runs.run, List.map_cons, hos, ← ho, Option.isSome_map]

end
end HeldLru
