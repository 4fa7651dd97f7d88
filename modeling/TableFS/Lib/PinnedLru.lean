import Mathlib.Data.List.AList

/-! A sharded least-recently-used cache whose entries can be pinned by callers.
An entry leaves the table when it is erased, replaced or evicted, but it lives on
until the last reference to it goes; only then its deleter runs. -/
namespace PinnedLru
variable {κ ν σ : Type}

structure LRUHandle (κ ν : Type) where
  key : κ
  value : ν
  refs : Nat

/-- The table lists the entries of all shards, newest first, so that the entries of
one shard stand in the order of that shard's own list. Handles are positions in
the heap; a freed handle keeps its position with no references. -/
structure LRUCache (κ ν : Type) where
  capacity : Nat
  shard : κ → Nat
  heap : List (LRUHandle κ ν)
  table : AList (fun _ : κ => Nat)

namespace LRUCache

def empty (capacity : Nat) (shard : κ → Nat) : LRUCache κ ν := ⟨capacity, shard, [], ∅⟩

/-- Every entry has charge one, so a shard's usage counts its entries not yet freed. -/
def usage (c : LRUCache κ ν) (s : Nat) : Nat :=
  c.heap.countP (fun e => decide (c.shard e.key = s) && decide (0 < e.refs))

def ref (i : Nat) (c : LRUCache κ ν) : LRUCache κ ν :=
  { c with heap := c.heap.modify i (fun e => { e with refs := e.refs + 1 }) }

def deref (i : Nat) (c : LRUCache κ ν) : LRUCache κ ν :=
  { c with heap := c.heap.modify i (fun e => { e with refs := e.refs - 1 }) }

def unref (deleter : κ → ν → σ → σ) (i : Nat) (c : LRUCache κ ν) (w : σ) : LRUCache κ ν × σ :=
  match c.heap[i]? with
  | none => (c, w)
  | some e => (c.deref i, if e.refs - 1 = 0 then deleter e.key e.value w else w)

/-- Change the value behind a handle. -/
def update (i : Nat) (f : ν → ν) (c : LRUCache κ ν) : LRUCache κ ν :=
  { c with heap := c.heap.modify i (fun e => { e with value := f e.value }) }

/-- Key and value behind a handle, whatever its reference count. -/
def data (c : LRUCache κ ν) (i : Nat) : Option (κ × ν) := c.heap[i]?.map (fun e => (e.key, e.value))

private theorem data_modify (g : LRUHandle κ ν → LRUHandle κ ν)
    (hg : ∀ e, (g e).key = e.key ∧ (g e).value = e.value) (i j : Nat) (c : LRUCache κ ν) :
    ({ c with heap := c.heap.modify i g } : LRUCache κ ν).data j = c.data j := by
  cases h : c.heap[j]? with
  | none => simp [data, List.getElem?_modify, h]
  | some e =>
    simp only [data, List.getElem?_modify, h, Option.map_eq_map, Option.map_some]
    split
    · rw [(hg e).1, (hg e).2]
    · rfl

@[simp] theorem data_ref (i j : Nat) (c : LRUCache κ ν) : (c.ref i).data j = c.data j := by
  unfold ref
  exact data_modify _ (by simp) i j c

@[simp] theorem data_deref (i j : Nat) (c : LRUCache κ ν) : (c.deref i).data j = c.data j := by
  unfold deref
  exact data_modify _ (by simp) i j c

@[simp] theorem data_table (t : AList (fun _ : κ => Nat)) (j : Nat) (c : LRUCache κ ν) :
    ({ c with table := t } : LRUCache κ ν).data j = c.data j := rfl

theorem data_update (i j : Nat) (f : ν → ν) (c : LRUCache κ ν) :
    (c.update i f).data j = (c.data j).map (fun p => if i = j then (p.1, f p.2) else p) := by
  cases h : c.heap[j]? with
  | none => simp [data, update, List.getElem?_modify, h]
  | some e =>
    simp only [data, update, List.getElem?_modify, h, Option.map_eq_map, Option.map_some]
    split <;> rfl

theorem lt_of_data {c : LRUCache κ ν} {i : Nat} {p : κ × ν} (h : c.data i = some p) :
    i < c.heap.length := by
  by_contra hn
  simp [data, List.getElem?_eq_none (Nat.le_of_not_lt hn)] at h

theorem data_of_lt {c : LRUCache κ ν} {i : Nat} (h : i < c.heap.length) :
    ∃ k v, c.data i = some (k, v) :=
  ⟨c.heap[i].key, c.heap[i].value, by simp [data, h]⟩

/-- The reference count behind a handle. -/
def refs (c : LRUCache κ ν) (i : Nat) : Nat := (c.heap[i]?.map LRUHandle.refs).getD 0

theorem refs_ref {c : LRUCache κ ν} {j : Nat} (i : Nat) (h : j < c.heap.length) :
    (c.ref i).refs j = c.refs j + if i = j then 1 else 0 := by
  simp only [refs, ref, List.getElem?_modify, List.getElem?_eq_getElem h]
  split <;> simp_all

@[simp] theorem refs_deref (c : LRUCache κ ν) (i j : Nat) :
    (c.deref i).refs j = c.refs j - if i = j then 1 else 0 := by
  cases h : c.heap[j]? with
  | none => simp [refs, deref, List.getElem?_modify, h]
  | some e =>
    simp only [refs, deref, List.getElem?_modify, h]
    split <;> simp_all

@[simp] theorem refs_table (t : AList (fun _ : κ => Nat)) (j : Nat) (c : LRUCache κ ν) :
    ({ c with table := t } : LRUCache κ ν).refs j = c.refs j := rfl

@[simp] theorem refs_update (c : LRUCache κ ν) (i j : Nat) (f : ν → ν) :
    (c.update i f).refs j = c.refs j := by
  cases h : c.heap[j]? with
  | none => simp [refs, update, List.getElem?_modify, h]
  | some e =>
    simp only [refs, update, List.getElem?_modify, h]
    split <;> simp_all

theorem unref_fst (deleter : κ → ν → σ → σ) (i : Nat) (c : LRUCache κ ν) (w : σ) :
    (unref deleter i c w).1 = c.deref i := by
  cases h : c.heap[i]? with
  | none =>
    have hl := List.getElem?_eq_none_iff.mp h
    simp [unref, h, deref, List.modify_eq_self hl]
  | some e => simp [unref, h]

theorem unref_snd {deleter : κ → ν → σ → σ} {i : Nat} {c : LRUCache κ ν} {w : σ} {k : κ} {v : ν}
    (h : c.data i = some (k, v)) :
    (unref deleter i c w).2 = if c.refs i = 1 ∨ c.refs i = 0 then deleter k v w else w := by
  obtain ⟨e, he, hp⟩ := Option.map_eq_some_iff.mp h
  have hr : c.refs i = e.refs := by simp [refs, he]
  have hd : (e.refs - 1 = 0) = (e.refs = 1 ∨ e.refs = 0) := by
    apply propext
    omega
  simp only [Prod.mk.injEq] at hp
  simp only [unref, he, hr, hd, hp.1, hp.2]

@[simp] theorem table_deref (i : Nat) (c : LRUCache κ ν) : (c.deref i).table = c.table := rfl

@[simp] theorem length_deref (i : Nat) (c : LRUCache κ ν) : (c.deref i).heap.length = c.heap.length := by
  simp [deref]

variable [DecidableEq κ]

def lookup (k : κ) (c : LRUCache κ ν) : LRUCache κ ν × Option Nat :=
  match c.table.lookup k with
  | none => (c, none)
  | some i => ({ c.ref i with table := c.table.insert k i }, some i)

def erase (deleter : κ → ν → σ → σ) (k : κ) (c : LRUCache κ ν) (w : σ) : LRUCache κ ν × σ :=
  match c.table.lookup k with
  | none => (c, w)
  | some i => unref deleter i { c with table := c.table.erase k } w

/-- One reference is the table's, one is for the returned handle. -/
def add (k : κ) (v : ν) (c : LRUCache κ ν) : LRUCache κ ν :=
  { c with heap := c.heap ++ [⟨k, v, 2⟩], table := c.table.insert k c.heap.length }

/-- The keys of one shard, oldest first. -/
def oldest (c : LRUCache κ ν) (s : Nat) : List κ :=
  (c.table.keys.filter (fun k => decide (c.shard k = s))).reverse

def evict (deleter : κ → ν → σ → σ) (s : Nat) (c : LRUCache κ ν) (w : σ) : LRUCache κ ν × σ :=
  (c.oldest s).foldl (fun cw k => if cw.1.capacity < cw.1.usage s then
    erase deleter k cw.1 cw.2 else cw) (c, w)

/-- An entry already under the key is replaced; then the oldest entries of the shard
are dropped, pinned or not, until its usage fits the capacity. -/
def insert (deleter : κ → ν → σ → σ) (k : κ) (v : ν) (c : LRUCache κ ν) (w : σ) :
    LRUCache κ ν × σ × Nat :=
  let (c, w) := erase deleter k c w
  let i := c.heap.length
  let (c, w) := evict deleter (c.shard k) (c.add k v) w
  (c, w, i)

theorem data_add (k : κ) (v : ν) (c : LRUCache κ ν) (j : Nat) :
    (c.add k v).data j = if j = c.heap.length then some (k, v) else c.data j := by
  rcases Nat.lt_trichotomy j c.heap.length with h | h | h
  · simp [data, add, List.getElem?_append_left h, Nat.ne_of_lt h]
  · simp [data, add, h]
  · simp [data, add, Nat.ne_of_gt h, List.getElem?_eq_none (Nat.le_of_lt h),
      List.getElem?_eq_none (show (c.heap ++ [(⟨k, v, 2⟩ : LRUHandle κ ν)]).length ≤ j by simp; omega)]

theorem refs_add (k : κ) (v : ν) (c : LRUCache κ ν) (j : Nat) :
    (c.add k v).refs j = if j = c.heap.length then 2 else c.refs j := by
  rcases Nat.lt_trichotomy j c.heap.length with h | h | h
  · simp [refs, add, List.getElem?_append_left h, Nat.ne_of_lt h]
  · simp [refs, add, h]
  · simp [refs, add, Nat.ne_of_gt h, List.getElem?_eq_none (Nat.le_of_lt h),
      List.getElem?_eq_none (show (c.heap ++ [(⟨k, v, 2⟩ : LRUHandle κ ν)]).length ≤ j by simp; omega)]

theorem erase_none {deleter : κ → ν → σ → σ} {k : κ} {c : LRUCache κ ν} {w : σ}
    (h : c.table.lookup k = none) : erase deleter k c w = (c, w) := by simp [erase, h]

theorem erase_fst_some {deleter : κ → ν → σ → σ} {k : κ} {c : LRUCache κ ν} {w : σ} {i : Nat}
    (h : c.table.lookup k = some i) :
    (erase deleter k c w).1 = { c with table := c.table.erase k }.deref i := by
  simp [erase, h, unref_fst]

/-- Later states of a cache in which nothing was added and no value changed. -/
structure Shrunk (c c' : LRUCache κ ν) : Prop where
  data : ∀ i, c'.data i = c.data i
  table : ∀ k i, c'.table.lookup k = some i → c.table.lookup k = some i
  length : c'.heap.length = c.heap.length

theorem Shrunk.refl (c : LRUCache κ ν) : Shrunk c c := ⟨fun _ => rfl, fun _ _ h => h, rfl⟩

theorem Shrunk.trans {a b c : LRUCache κ ν} (h : Shrunk a b) (h' : Shrunk b c) : Shrunk a c :=
  ⟨fun i => (h'.data i).trans (h.data i), fun k i hk => h.table k i (h'.table k i hk),
    h'.length.trans h.length⟩

theorem lookup_erase_table {c : LRUCache κ ν} {k k' : κ} {i : Nat}
    (h : (c.table.erase k).lookup k' = some i) : k' ≠ k ∧ c.table.lookup k' = some i := by
  by_cases hk : k' = k
  · subst hk
    simp at h
  · exact ⟨hk, by rwa [AList.lookup_erase_ne hk] at h⟩

theorem shrunk_erase (deleter : κ → ν → σ → σ) (k : κ) (c : LRUCache κ ν) (w : σ) :
    Shrunk c (erase deleter k c w).1 := by
  cases h : c.table.lookup k with
  | none =>
    rw [erase_none h]
    exact .refl c
  | some i =>
    rw [erase_fst_some h]
    exact ⟨by simp, fun k' j hj => (lookup_erase_table hj).2, by simp⟩

theorem shrunk_evict (deleter : κ → ν → σ → σ) (s : Nat) (c : LRUCache κ ν) (w : σ) :
    Shrunk c (evict deleter s c w).1 := by
  unfold evict
  refine List.foldlRecOn (motive := fun cw : LRUCache κ ν × σ => Shrunk c cw.1) _ _ (.refl c) fun cw h k _ => ?_
  split
  · exact h.trans (shrunk_erase deleter k cw.1 cw.2)
  · exact h

/-- The table's own reference to a handle. -/
def tableRef (c : LRUCache κ ν) (k : κ) (i : Nat) : Nat := if c.table.lookup k = some i then 1 else 0

theorem tableRef_congr {c c' : LRUCache κ ν} {k : κ} (h : c'.table.lookup k = c.table.lookup k)
    (i : Nat) : c'.tableRef k i = c.tableRef k i := by simp [tableRef, h]

theorem tableRef_pos {c : LRUCache κ ν} {k : κ} {i : Nat} (h : c.table.lookup k = some i) :
    c.tableRef k i = 1 := by simp [tableRef, h]

theorem tableRef_neg {c : LRUCache κ ν} {k : κ} {i : Nat} (h : c.table.lookup k ≠ some i) :
    c.tableRef k i = 0 := by simp [tableRef, h]

/-- Reference counts are exact: one for an entry of the table and one for each pin. -/
structure Counted (c : LRUCache κ ν) (pins : Nat → Nat) : Prop where
  entry : ∀ k i, c.table.lookup k = some i → ∃ v, c.data i = some (k, v)
  count : ∀ i k v, c.data i = some (k, v) →
    c.refs i = c.tableRef k i + pins i
  bound : ∀ i, pins i ≠ 0 → i < c.heap.length

theorem counted_empty (capacity : Nat) (shard : κ → Nat) :
    Counted (empty capacity shard : LRUCache κ ν) (fun _ => 0) :=
  ⟨by simp [empty], by simp [empty, data], by simp⟩

section
variable {c : LRUCache κ ν} {pins : Nat → Nat} {deleter : κ → ν → σ → σ}

theorem Counted.pins_fresh (hc : Counted c pins) : pins c.heap.length = 0 := by
  by_contra h
  exact Nat.lt_irrefl _ (hc.bound _ h)

theorem Counted.pinned_data (hc : Counted c pins) {i : Nat} (h : pins i ≠ 0) :
    ∃ k v, c.data i = some (k, v) := data_of_lt (hc.bound i h)

/-- Two entries of the table under one handle have one key. -/
theorem Counted.table_key (hc : Counted c pins) {k k' : κ} {i : Nat} {v : ν}
    (h : c.table.lookup k = some i) (hd : c.data i = some (k', v)) : k = k' := by
  obtain ⟨v', hv⟩ := hc.entry k i h
  rw [hd] at hv
  exact (Prod.mk.inj (Option.some.inj hv)).1.symm

theorem lookup_touch {t : AList (fun _ : κ => Nat)} {k : κ} {i : Nat} (h : t.lookup k = some i)
    (k' : κ) : (t.insert k i).lookup k' = t.lookup k' := by
  by_cases hk : k' = k
  · subst hk
    rw [AList.lookup_insert, h]
  · rw [AList.lookup_insert_ne hk]

/-- A hit pins the entry once more and only refreshes its place in the table. -/
theorem Counted.lookup_hit (hc : Counted c pins) {k : κ} {i : Nat} (h : c.table.lookup k = some i) :
    Counted { c.ref i with table := c.table.insert k i } (Function.update pins i (pins i + 1)) := by
  obtain ⟨v, hv⟩ := hc.entry k i h
  refine ⟨?_, ?_, ?_⟩
  · intro k' j hj
    simpa using hc.entry k' j (by rwa [← lookup_touch h k'])
  · intro j k' v' hd
    simp only [data_table, data_ref] at hd
    have hr := hc.count j k' v' hd
    rw [tableRef_congr (c := c) (lookup_touch h k'), refs_table, refs_ref i (lt_of_data hd)]
    by_cases hj : i = j
    · subst hj
      simp only [if_true, Function.update_self]
      omega
    · simp only [hj, if_false, Function.update_of_ne (Ne.symm hj)]
      omega
  · intro j hj
    simp only [ref, List.length_modify]
    by_cases hji : j = i
    · exact hji ▸ lt_of_data hv
    · exact hc.bound j (by rwa [Function.update_of_ne hji] at hj)

theorem Counted.update (hc : Counted c pins) (i : Nat) (f : ν → ν) : Counted (c.update i f) pins := by
  refine ⟨?_, ?_, ?_⟩
  · intro k j hj
    obtain ⟨v, hv⟩ := hc.entry k j hj
    refine ⟨if i = j then f v else v, ?_⟩
    rw [data_update, hv]
    simp only [Option.map_some]
    split <;> rfl
  · intro j k v hd
    rw [data_update] at hd
    obtain ⟨⟨k', v'⟩, hv, hp⟩ := Option.map_eq_some_iff.mp hd
    have hk : k' = k := by
      split at hp
      · exact (Prod.mk.inj hp).1
      · exact (Prod.mk.inj hp).1
    rw [refs_update, ← hk]
    exact hc.count j k' v' hv
  · intro j hj
    simpa [LRUCache.update] using hc.bound j hj

/-- Dropping a table reference keeps the counts exact for the same pins. -/
theorem Counted.erase (hc : Counted c pins) (deleter : κ → ν → σ → σ) (k : κ) (w : σ) :
    Counted (erase deleter k c w).1 pins := by
  cases h : c.table.lookup k with
  | none =>
    rw [erase_none h]
    exact hc
  | some i =>
    rw [erase_fst_some h]
    refine ⟨?_, ?_, ?_⟩
    · intro k' j hj
      simpa using hc.entry k' j (lookup_erase_table hj).2
    · intro j k' v hd
      simp only [data_deref, data_table] at hd
      have hr := hc.count j k' v hd
      simp only [refs_deref, refs_table]
      by_cases hj : i = j
      · subst hj
        have hk := hc.table_key h hd
        subst hk
        rw [tableRef_pos h] at hr
        rw [tableRef_neg (by simp)]
        simp only [if_true]
        omega
      · simp only [hj, if_false]
        by_cases hk : k' = k
        · subst hk
          rw [tableRef_neg (by simp [h, hj])] at hr
          rw [tableRef_neg (by simp)]
          omega
        · rw [tableRef_congr (c := c) (AList.lookup_erase_ne hk)]
          omega
    · intro j hj
      simpa using hc.bound j hj

/-- Giving a pin back keeps the counts exact. -/
theorem Counted.release (hc : Counted c pins) {i : Nat} (hi : pins i ≠ 0) (w : σ) :
    Counted (unref deleter i c w).1 (Function.update pins i (pins i - 1)) := by
  rw [unref_fst]
  refine ⟨?_, ?_, ?_⟩
  · intro k j hj
    simpa using hc.entry k j hj
  · intro j k v hd
    rw [data_deref] at hd
    have hr := hc.count j k v hd
    rw [refs_deref, show (c.deref i).tableRef k j = c.tableRef k j from rfl]
    by_cases hj : i = j
    · subst hj
      simp only [if_true, Function.update_self]
      omega
    · simp only [hj, if_false, Function.update_of_ne (Ne.symm hj)]
      omega
  · intro j hj
    rw [length_deref]
    by_cases hji : j = i
    · exact hji ▸ hc.bound i hi
    · exact hc.bound j (by rwa [Function.update_of_ne hji] at hj)

/-- The deleter runs on a release that leaves neither the table nor a pin. -/
theorem Counted.release_world (hc : Counted c pins) {i : Nat} (hi : pins i ≠ 0) {k : κ} {v : ν}
    (hd : c.data i = some (k, v)) (w : σ) :
    (unref deleter i c w).2 =
      if pins i = 1 ∧ c.table.lookup k ≠ some i then deleter k v w else w := by
  have hr := hc.count i k v hd
  rw [unref_snd hd]
  by_cases ht : c.table.lookup k = some i
  · rw [tableRef_pos ht] at hr
    have hn : ¬ (c.refs i = 1 ∨ c.refs i = 0) := by omega
    simp [hn, ht]
  · rw [tableRef_neg ht, Nat.zero_add] at hr
    simp [hr, ht, hi]

/-- The deleter runs on an erase that hits an entry nobody pins. -/
theorem Counted.erase_world (hc : Counted c pins) {i : Nat} {k : κ} {v : ν}
    (h : c.table.lookup k = some i) (hd : c.data i = some (k, v)) (w : σ) :
    (LRUCache.erase deleter k c w).2 = if pins i = 0 then deleter k v w else w := by
  have hr := hc.count i k v hd
  rw [tableRef_pos h] at hr
  simp only [LRUCache.erase, h]
  rw [unref_snd (k := k) (v := v) (by simpa using hd)]
  have he : (c.refs i = 1 ∨ c.refs i = 0) ↔ pins i = 0 := by omega
  simp only [refs_table, he]

/-- No entry that the cache could free on its own has a deleter with an effect. -/
def Quiet (deleter : κ → ν → σ → σ) (c : LRUCache κ ν) (pins : Nat → Nat) : Prop :=
  ∀ k i v w, c.table.lookup k = some i → pins i = 0 → c.data i = some (k, v) → deleter k v w = w

theorem Quiet.shrunk {c' : LRUCache κ ν} (hq : Quiet deleter c pins) (hs : Shrunk c c') :
    Quiet deleter c' pins :=
  fun k i v w ht hp hd => hq k i v w (hs.table k i ht) hp (by rwa [← hs.data])

theorem Counted.erase_quiet (hc : Counted c pins) (hq : Quiet deleter c pins) (k : κ) (w : σ) :
    (LRUCache.erase deleter k c w).2 = w := by
  cases h : c.table.lookup k with
  | none => rw [erase_none h]
  | some i =>
    obtain ⟨v, hv⟩ := hc.entry k i h
    rw [hc.erase_world h hv]
    split
    · exact hq k i v w h ‹_› hv
    · rfl

/-- What eviction does to a quiet cache: entries leave the table, nothing else happens. -/
theorem Counted.evict (hc : Counted c pins) (hq : Quiet deleter c pins) (s : Nat) (w : σ) :
    Counted (evict deleter s c w).1 pins ∧ Shrunk c (evict deleter s c w).1 ∧
      (evict deleter s c w).2 = w := by
  unfold LRUCache.evict
  -- the loop keeps the counts, and each of its states has shrunk from the first one
  suffices h : ∀ (ks : List κ) (cw : LRUCache κ ν × σ), Counted cw.1 pins → Shrunk c cw.1 → cw.2 = w →
      let r := ks.foldl (fun cw k => if cw.1.capacity < cw.1.usage s then
        LRUCache.erase deleter k cw.1 cw.2 else cw) cw
      Counted r.1 pins ∧ Shrunk c r.1 ∧ r.2 = w from h _ _ hc (.refl c) rfl
  intro ks
  induction ks with
  | nil => exact fun cw hc hs hw => ⟨hc, hs, hw⟩
  | cons k ks ih =>
    intro cw hcw hs hw
    simp only [List.foldl_cons]
    split
    · apply ih
      · exact hcw.erase deleter k cw.2
      · exact hs.trans (shrunk_erase deleter k cw.1 cw.2)
      · rw [hcw.erase_quiet (hq.shrunk hs), hw]
    · exact ih cw hcw hs hw

theorem Counted.add (hc : Counted c pins) {k : κ} (h : c.table.lookup k = none) (v : ν) :
    Counted (c.add k v) (Function.update pins c.heap.length 1) := by
  have hf := hc.pins_fresh
  refine ⟨?_, ?_, ?_⟩
  · intro k' j hj
    by_cases hk : k' = k
    · subst hk
      simp only [LRUCache.add, AList.lookup_insert, Option.some.injEq] at hj
      exact ⟨v, by rw [data_add, if_pos hj.symm]⟩
    · simp only [LRUCache.add, AList.lookup_insert_ne hk] at hj
      obtain ⟨v', hv⟩ := hc.entry k' j hj
      exact ⟨v', by rw [data_add, if_neg (Nat.ne_of_lt (lt_of_data hv)), hv]⟩
  · intro j k' v' hd
    rw [data_add] at hd
    rw [refs_add]
    by_cases hj : j = c.heap.length
    · rw [if_pos hj] at hd
      obtain ⟨rfl, rfl⟩ := Prod.mk.inj (Option.some.inj hd)
      simp [hj, LRUCache.add, tableRef]
    · rw [if_neg hj] at hd
      have hr := hc.count j k' v' hd
      rw [if_neg hj, Function.update_of_ne hj, hr]
      by_cases hk : k' = k
      · subst hk
        simp [LRUCache.add, tableRef, h, Ne.symm hj]
      · simp [LRUCache.add, tableRef, AList.lookup_insert_ne hk]
  · intro j hj
    simp only [LRUCache.add, List.length_append, List.length_singleton]
    by_cases hji : j = c.heap.length
    · omega
    · have := hc.bound j (by rwa [Function.update_of_ne hji] at hj)
      omega

/-- What an insertion into a quiet cache does: the new entry is pinned once, and every
entry of the table is the new one or an old one under another key. -/
theorem Counted.insert (hc : Counted c pins) (hq : Quiet deleter c pins) (k : κ) (v : ν) (w : σ) :
    let r := LRUCache.insert deleter k v c w
    r.2.2 = c.heap.length ∧ r.2.1 = w ∧
      Counted r.1 (Function.update pins c.heap.length 1) ∧
      (∀ j, r.1.data j = if j = c.heap.length then some (k, v) else c.data j) ∧
      (∀ k' i, r.1.table.lookup k' = some i →
        (k' = k ∧ i = c.heap.length) ∨ (k' ≠ k ∧ c.table.lookup k' = some i)) := by
  intro r
  let c1 := (LRUCache.erase deleter k c w).1
  have hs := shrunk_erase deleter k c w
  have hc1 : Counted c1 pins := hc.erase deleter k w
  have hw : (LRUCache.erase deleter k c w).2 = w := hc.erase_quiet hq k w
  have hn : c1.table.lookup k = none := by
    cases h : c.table.lookup k with
    | none => simpa [c1, erase_none h] using h
    | some i => simp [c1, erase_fst_some h]
  have hl : c1.heap.length = c.heap.length := hs.length
  have hadd := hc1.add hn v
  rw [hl] at hadd
  have hq' : Quiet deleter (c1.add k v) (Function.update pins c.heap.length 1) := by
    intro k' i v' w' ht hp hd
    have hi : i ≠ c.heap.length := by
      rintro rfl
      simp at hp
    rw [Function.update_of_ne hi] at hp
    rw [data_add, hl, if_neg hi] at hd
    have hk : k' ≠ k := by
      rintro rfl
      simp only [LRUCache.add, AList.lookup_insert, Option.some.injEq] at ht
      exact hi (ht ▸ hl)
    simp only [LRUCache.add, AList.lookup_insert_ne hk] at ht
    exact (hq.shrunk hs) k' i v' w' ht hp hd
  have he := hadd.evict hq' (c1.shard k) w
  have hr : r = ((LRUCache.evict deleter (c1.shard k) (c1.add k v) w).1, w, c1.heap.length) := by
    simp only [r, LRUCache.insert, hw]
    exact congrArg (fun w' => (_, w', c1.heap.length)) he.2.2
  rw [hr]
  refine ⟨hl, rfl, he.1, ?_, ?_⟩
  · intro j
    rw [he.2.1.data, data_add, hl, hs.data]
  · intro k' i ht
    have ht' := he.2.1.table k' i ht
    by_cases hk : k' = k
    · subst hk
      simp only [LRUCache.add, AList.lookup_insert, Option.some.injEq] at ht'
      exact .inl ⟨rfl, ht' ▸ hl⟩
    · simp only [LRUCache.add, AList.lookup_insert_ne hk] at ht'
      exact .inr ⟨hk, hs.table k' i ht'⟩

end

end LRUCache
end PinnedLru
