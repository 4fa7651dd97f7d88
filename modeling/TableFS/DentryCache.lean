import TableFS.Inode

/-! The dentry cache (fs/dcache.cpp): a list of entries, newest first, and a map from
keys to positions in it. Evict unmaps a key and leaves its node in the list. -/
namespace TableFS

/-- A node of the list; the identity stands for the iterator that points at it. -/
structure DentryNode where
  id : Nat
  key : MetaKey
  value : UInt64
  deriving DecidableEq, Repr

structure DentryCache where
  maxsize : Nat
  cache : List DentryNode
  lookup : Finmap (fun _ : MetaKey => Nat)
  next : Nat
  mapped : ∀ k i, lookup.lookup k = some i → ∃ n ∈ cache, n.id = i ∧ n.key = k
  fresh : ∀ n ∈ cache, n.id < next
  distinct : (cache.map DentryNode.id).Nodup

namespace DentryCache

def empty (maxsize : Nat) : DentryCache :=
  ⟨maxsize, [], ∅, 0, by simp, by simp, by simp⟩

/-- The cache holds the entry k -> v. -/
def Maps (d : DentryCache) (k : MetaKey) (v : UInt64) : Prop :=
  ∃ n ∈ d.cache, d.lookup.lookup k = some n.id ∧ n.value = v

theorem eq_of_id (d : DentryCache) {m n : DentryNode} (hm : m ∈ d.cache) (hn : n ∈ d.cache)
    (h : m.id = n.id) : m = n := List.inj_on_of_nodup_map d.distinct hm hn h

private theorem key_of_mapped (d : DentryCache) {k : MetaKey} {n : DentryNode} (hn : n ∈ d.cache)
    (h : d.lookup.lookup k = some n.id) : n.key = k := by
  obtain ⟨m, hm, hi, hk⟩ := d.mapped k n.id h
  rw [← d.eq_of_id hm hn hi, hk]

theorem lookup_insert_some {α β : Type} [DecidableEq α] {m : Finmap (fun _ : α => β)} {a a' : α}
    {b b' : β} (h : (m.insert a b).lookup a' = some b') :
    (a' = a ∧ b' = b) ∨ (a' ≠ a ∧ m.lookup a' = some b') := by
  by_cases ha : a' = a
  · subst ha
    rw [Finmap.lookup_insert] at h
    exact .inl ⟨rfl, (Option.some.inj h).symm⟩
  · rw [Finmap.lookup_insert_of_ne _ ha] at h
    exact .inr ⟨ha, h⟩

theorem lookup_erase_some {α β : Type} [DecidableEq α] {m : Finmap (fun _ : α => β)} {a a' : α}
    {b : β} (h : (m.erase a).lookup a' = some b) : a' ≠ a ∧ m.lookup a' = some b := by
  by_cases ha : a' = a
  · subst ha
    simp at h
  · exact ⟨ha, by rwa [Finmap.lookup_erase_ne ha] at h⟩

/-- push_front of a new node, mapped by its key. -/
def pushFront (d : DentryCache) (k : MetaKey) (v : UInt64) : DentryCache where
  maxsize := d.maxsize
  cache := ⟨d.next, k, v⟩ :: d.cache
  lookup := d.lookup.insert k d.next
  next := d.next + 1
  mapped k' i h := by
    obtain ⟨rfl, rfl⟩ | ⟨_, h⟩ := lookup_insert_some h
    · exact ⟨_, List.mem_cons_self, rfl, rfl⟩
    · obtain ⟨n, hn, hi⟩ := d.mapped k' i h
      exact ⟨n, List.mem_cons_of_mem _ hn, hi⟩
  fresh n hn := by
    rcases List.mem_cons.mp hn with rfl | hn
    · exact Nat.lt_succ_self _
    · exact Nat.lt_succ_of_lt (d.fresh n hn)
  distinct := by
    refine List.nodup_cons.mpr ⟨fun h => ?_, d.distinct⟩
    obtain ⟨n, hn, hi⟩ := List.mem_map.mp h
    exact Nat.ne_of_lt (d.fresh n hn) hi

/-- Unmap a key and leave the list as it is. -/
def evict (d : DentryCache) (k : MetaKey) : DentryCache where
  maxsize := d.maxsize
  cache := d.cache
  lookup := d.lookup.erase k
  next := d.next
  mapped k' i h := d.mapped k' i (lookup_erase_some h).2
  fresh := d.fresh
  distinct := d.distinct

/-- Erase a node of the list, and the map entry of its key. -/
def eraseNode (d : DentryCache) (n : DentryNode) (hn : n ∈ d.cache) : DentryCache where
  maxsize := d.maxsize
  cache := d.cache.filter (fun m => decide (m.id ≠ n.id))
  lookup := d.lookup.erase n.key
  next := d.next
  mapped k i h := by
    obtain ⟨hk, h⟩ := lookup_erase_some h
    obtain ⟨m, hm, hi, hmk⟩ := d.mapped k i h
    refine ⟨m, List.mem_filter.mpr ⟨hm, decide_eq_true fun he => ?_⟩, hi, hmk⟩
    exact hk (by rw [← hmk, d.eq_of_id hm hn he])
  fresh m hm := d.fresh m (List.mem_of_mem_filter hm)
  distinct := d.distinct.sublist (List.filter_sublist.map _)

/-- A hit copies the node to the front and erases the old one. -/
def find (d : DentryCache) (k : MetaKey) : DentryCache × Option UInt64 :=
  match d.lookup.lookup k with
  | none => (d, none)
  | some i =>
    match h : d.cache.find? (fun n => decide (n.id = i)) with
    | none => (d, none)
    | some n => ((d.eraseNode n (List.mem_of_find?_eq_some h)).pushFront k n.value, some n.value)

/-- On overflow the last node goes, and with it the map entry of its key, whichever
node that entry points at. -/
def insert (d : DentryCache) (k : MetaKey) (v : UInt64) : DentryCache :=
  let d := d.pushFront k v
  if d.maxsize < d.cache.length then
    match h : d.cache.getLast? with
    | none => d
    | some n => d.eraseNode n (List.mem_of_getLast? h)
  else d

theorem maps_unique (d : DentryCache) {k : MetaKey} {v v' : UInt64} (h : d.Maps k v)
    (h' : d.Maps k v') : v = v' := by
  obtain ⟨n, hn, hi, rfl⟩ := h
  obtain ⟨n', hn', hi', rfl⟩ := h'
  rw [hi] at hi'
  rw [d.eq_of_id hn hn' (Option.some.inj hi')]

theorem maps_pushFront (d : DentryCache) (k k' : MetaKey) (v v' : UInt64) :
    (d.pushFront k v).Maps k' v' ↔ (k' = k ∧ v' = v) ∨ (k' ≠ k ∧ d.Maps k' v') := by
  constructor
  · rintro ⟨n, hn, hi, rfl⟩
    obtain ⟨rfl, hid⟩ | ⟨hk, hi⟩ := lookup_insert_some hi
    · rcases List.mem_cons.mp hn with rfl | hn
      · exact .inl ⟨rfl, rfl⟩
      · exact absurd hid (Nat.ne_of_lt (d.fresh n hn))
    · rcases List.mem_cons.mp hn with rfl | hn
      · obtain ⟨m, hm, hid, _⟩ := d.mapped k' _ hi
        exact absurd hid (Nat.ne_of_lt (d.fresh m hm))
      · exact .inr ⟨hk, n, hn, hi, rfl⟩
  · rintro (⟨rfl, rfl⟩ | ⟨hk, n, hn, hi, rfl⟩)
    · exact ⟨⟨d.next, k', v'⟩, List.mem_cons_self, by simp [pushFront], rfl⟩
    · exact ⟨n, List.mem_cons_of_mem _ hn, by simpa [pushFront, Finmap.lookup_insert_of_ne _ hk] using hi, rfl⟩

theorem maps_eraseNode (d : DentryCache) {n : DentryNode} (hn : n ∈ d.cache) (k : MetaKey) (v : UInt64) :
    (d.eraseNode n hn).Maps k v ↔ k ≠ n.key ∧ d.Maps k v := by
  constructor
  · rintro ⟨m, hm, hi, rfl⟩
    obtain ⟨hk, hi⟩ := lookup_erase_some hi
    exact ⟨hk, m, List.mem_of_mem_filter hm, hi, rfl⟩
  · rintro ⟨hk, m, hm, hi, rfl⟩
    refine ⟨m, List.mem_filter.mpr ⟨hm, decide_eq_true fun he => hk ?_⟩, ?_, rfl⟩
    · rw [← d.key_of_mapped hm hi, d.eq_of_id hm hn he]
    · simpa [eraseNode, Finmap.lookup_erase_ne hk] using hi

/-- After an eviction every entry but the evicted key's is as before. -/
theorem maps_evict (d : DentryCache) (k k' : MetaKey) (v : UInt64) :
    (d.evict k).Maps k' v ↔ k' ≠ k ∧ d.Maps k' v := by
  constructor
  · rintro ⟨n, hn, hi, rfl⟩
    obtain ⟨hk, hi⟩ := lookup_erase_some hi
    exact ⟨hk, n, hn, hi, rfl⟩
  · rintro ⟨hk, n, hn, hi, rfl⟩
    exact ⟨n, hn, by simpa [evict, Finmap.lookup_erase_ne hk] using hi, rfl⟩

@[simp] theorem length_pushFront (d : DentryCache) (k : MetaKey) (v : UInt64) :
    (d.pushFront k v).cache.length = d.cache.length + 1 := rfl

/-- An Insert that stays within the capacity pushes a node; one that does not also erases the last
node of the list. -/
theorem insert_cases (d : DentryCache) (k : MetaKey) (v : UInt64) :
    (d.cache.length + 1 ≤ d.maxsize ∧ d.insert k v = d.pushFront k v) ∨
      ∃ n, ∃ hn : n ∈ (d.pushFront k v).cache, d.maxsize < d.cache.length + 1 ∧
        (d.pushFront k v).cache.getLast? = some n ∧ d.insert k v = (d.pushFront k v).eraseNode n hn := by
  have hlen := d.length_pushFront k v
  unfold insert
  dsimp only
  split
  · rename_i hover
    split
    · rename_i hnone
      rw [List.getLast?_eq_none_iff.mp hnone] at hlen
      cases hlen
    · rename_i n hlast
      exact .inr ⟨n, List.mem_of_getLast? hlast, hlen ▸ hover, hlast, rfl⟩
  · rename_i hfits
    exact .inl ⟨hlen ▸ Nat.le_of_not_lt hfits, rfl⟩

/-- An insertion adds its own entry and may drop others, itself included. -/
theorem maps_insert (d : DentryCache) {k k' : MetaKey} {v v' : UInt64}
    (h : (d.insert k v).Maps k' v') : (k' = k ∧ v' = v) ∨ (k' ≠ k ∧ d.Maps k' v') := by
  apply (maps_pushFront d k k' v v').mp
  rcases d.insert_cases k v with ⟨_, hi⟩ | ⟨n, hn, _, _, hi⟩
  · rwa [hi] at h
  · rw [hi] at h
    exact ((maps_eraseNode _ hn _ _).mp h).2

/-- A hit: the node that the map points at is erased, and a copy goes to the front. -/
theorem find_cases (d : DentryCache) (k : MetaKey) :
    (d.lookup.lookup k = none ∧ d.find k = (d, none)) ∨
      ∃ n, ∃ hn : n ∈ d.cache, d.lookup.lookup k = some n.id ∧ n.key = k ∧
        d.find k = ((d.eraseNode n hn).pushFront k n.value, some n.value) := by
  unfold find
  split
  · rename_i h
    exact .inl ⟨h, rfl⟩
  · rename_i i h
    obtain ⟨m, hm, hmi, _⟩ := d.mapped k i h
    split
    · rename_i hf
      exact absurd (decide_eq_true hmi) (List.find?_eq_none.mp hf m hm)
    · rename_i n hf
      have hn := List.mem_of_find?_eq_some hf
      have hni : d.lookup.lookup k = some n.id := by
        rw [h, show n.id = i by simpa using List.find?_some hf]
      exact .inr ⟨n, hn, hni, d.key_of_mapped hn hni, rfl⟩

/-- A lookup returns the entry and moves it, so that the cache holds the same entries. -/
theorem find_spec (d : DentryCache) (k : MetaKey) :
    (∀ v, (d.find k).2 = some v ↔ d.Maps k v) ∧
      ∀ k' v', (d.find k).1.Maps k' v' ↔ d.Maps k' v' := by
  rcases d.find_cases k with ⟨h, hf⟩ | ⟨n, hn, hi, hkey, hf⟩
  · rw [hf]
    exact ⟨fun v => ⟨fun hv => (Option.some_ne_none v hv.symm).elim,
      fun ⟨n, _, hi, _⟩ => by simp [h] at hi⟩, fun _ _ => Iff.rfl⟩
  · have hmap : d.Maps k n.value := ⟨n, hn, hi, rfl⟩
    rw [hf]
    refine ⟨fun v => ⟨fun hv => Option.some.inj hv ▸ hmap,
      fun hv => congrArg some (d.maps_unique hmap hv)⟩, fun k' v' => ?_⟩
    rw [maps_pushFront, maps_eraseNode, hkey]
    constructor
    · rintro (⟨rfl, rfl⟩ | ⟨_, _, hv⟩)
      · exact hmap
      · exact hv
    · intro hv
      by_cases hk : k' = k
      · subst hk
        exact .inl ⟨rfl, d.maps_unique hv hmap⟩
      · exact .inr ⟨hk, hk, hv⟩

end DentryCache
end TableFS
