import TableFS.Leveldb.HandleTable

/-! One shard of the cache, seen as the list of its ring, the list of its table and the contents of
the entries. Each step of the operations changes one of the three. -/
namespace TableFS.Leveldb
variable {κ ν σ : Type}

/-- The entry without its pointers. -/
def LRUHandle.unlinked (e : LRUHandle κ ν) : LRUHandle κ ν := { e with next_hash := none, next := .lru, prev := .lru }

namespace LRUCache

/-- A shard with its ring and its table, in the heap of all entries. -/
structure Shape (hash : κ → UInt32) (c : LRUCache κ ν) (ring table : List Nat) (cores : Nat → Option (LRUHandle κ ν))
    (capacity usage : Nat) : Prop where
  ring : RingOk c ring
  table : TableOk hash c table
  noSelf : NoSelf c
  balanced : c.table_.elems_ ≤ c.table_.length_
  cores : ∀ a, (c.heap a).map LRUHandle.unlinked = cores a
  capacity : c.capacity_ = capacity
  inRange : usage < 2 ^ 64
  usage : c.usage_ = usage

section
variable {hash : κ → UInt32} {c : LRUCache κ ν} {ring table : List Nat} {cores : Nat → Option (LRUHandle κ ν)}
  {capacity usage a : Nat} {x : LRUHandle κ ν}

theorem Shape.entry (h : Shape hash c ring table cores capacity usage) (hx : cores a = some x) :
    ∃ e, c.heap a = some e ∧ e.unlinked = x := by
  have := h.cores a
  rw [hx] at this
  exact Option.map_eq_some_iff.mp this

theorem Shape.key (h : Shape hash c ring table cores capacity usage) {e : LRUHandle κ ν} (he : c.heap a = some e) :
    e.key a = some e.key_data := if_neg (h.noSelf a e he)

theorem Relinked.unlinked {c' : LRUCache κ ν} {l : List Nat} (hr : Relinked c c' l) (a : Nat) :
    (c'.heap a).map LRUHandle.unlinked = (c.heap a).map LRUHandle.unlinked :=
  hr.map_eq (fun _ => rfl) a

theorem Rechained.unlinked {c' : LRUCache κ ν} {l : List Nat} (hr : Rechained c c' l) (a : Nat) :
    (c'.heap a).map LRUHandle.unlinked = (c.heap a).map LRUHandle.unlinked :=
  hr.map_eq (fun _ => rfl) a

theorem Shape.lruRemove (h : Shape hash c ring table cores capacity usage) (ha : a ∈ ring) :
    ∃ c', c.lruRemove a = some c' ∧ Shape hash c' (ring.erase a) table cores capacity usage ∧
      ∀ b, b ∉ ring → c'.heap b = c.heap b := by
  obtain ⟨l₁, l₂, hna, hring, herase⟩ := List.exists_erase_eq ha
  obtain ⟨c', hc, hok, hr⟩ := (hring ▸ h.ring).lruRemove
  refine ⟨c', hc, ⟨herase ▸ hok, h.table.relinked hr, h.noSelf.relinked hok hr fun _ h => h,
    by rw [hr.table_]; exact h.balanced, fun b => (hr.unlinked b).trans (h.cores b), hr.capacity_.trans h.capacity,
    h.inRange, hr.usage_.trans h.usage⟩, fun b hb => hr.frame b fun hm => hb ?_⟩
  rw [hring]
  exact ((List.sublist_cons_self a l₂).append_left l₁).subset hm

theorem Shape.lruAppend (h : Shape hash c ring table cores capacity usage) (hx : cores a = some x) (ha : a ∉ ring) :
    ∃ c', c.lruAppend a = some c' ∧ Shape hash c' (ring ++ [a]) table cores capacity usage ∧
      ∀ b, b ∉ a :: ring → c'.heap b = c.heap b := by
  obtain ⟨e, he, -⟩ := h.entry hx
  obtain ⟨c', hc, hok, hr⟩ := h.ring.lruAppend he ha
  refine ⟨c', hc, ⟨hok, h.table.relinked hr, h.noSelf.relinked hok hr fun b hb => ?_, by rw [hr.table_]; exact h.balanced,
    fun b => (hr.unlinked b).trans (h.cores b), hr.capacity_.trans h.capacity, h.inRange, hr.usage_.trans h.usage⟩,
      hr.frame⟩
  simpa [or_comm] using hb

theorem Shape.keyAt (h : Shape hash c ring table cores capacity usage) (a : Nat) :
    c.keyAt a = (cores a).map LRUHandle.key_data := by
  rw [LRUCache.keyAt, ← h.cores, Option.map_map]
  rfl

theorem Shape.tableLookup [DecidableEq κ] (h : Shape hash c ring table cores capacity usage) (key : κ) :
    ∃ o, c.tableLookup key (hash key) = some o ∧ ∀ a, o = some a ↔ a ∈ table ∧
      (cores a).map LRUHandle.key_data = some key := by
  simpa only [h.keyAt] using h.table.lookup h.noSelf key

theorem Shape.tableRemove [DecidableEq κ] (h : Shape hash c ring table cores capacity usage) (key : κ) :
    ∃ c' o, c.tableRemove key (hash key) = some (c', o) ∧
      (∀ a, o = some a ↔ a ∈ table ∧ (cores a).map LRUHandle.key_data = some key) ∧
      Shape hash c' ring (o.elim table table.erase) cores capacity usage ∧ ∀ b, b ∉ table → c'.heap b = c.heap b := by
  obtain ⟨c', o, hc, ho, hok, hr, hlen⟩ := h.table.remove h.noSelf key
  refine ⟨c', o, hc, by simpa only [h.keyAt] using ho, ⟨h.ring.rechained hr, hok, h.noSelf.rechained hr, ?_,
    fun b => (hr.unlinked b).trans (h.cores b), hr.capacity_.trans h.capacity, h.inRange, hr.usage_.trans h.usage⟩,
      hr.frame⟩
  have hle : (o.elim table table.erase).length ≤ table.length := by
    cases o with
    | none => exact Nat.le_refl _
    | some a => exact List.length_erase_le
  rw [hlen, hok.elems]
  exact Nat.le_trans hle (h.table.elems ▸ h.balanced)

theorem Shape.tableInsert [DecidableEq κ] (h : Shape hash c ring table cores capacity usage) (hx : cores a = some x)
    (hh : x.hash = hash x.key_data) (ha : a ∉ table) (hroom : table.length < 2 ^ 31) :
    ∃ c' o, c.tableInsert a = some (c', o) ∧
      (∀ b, o = some b ↔ b ∈ table ∧ (cores b).map LRUHandle.key_data = some x.key_data) ∧
      Shape hash c' ring (a :: o.elim table table.erase) cores capacity usage ∧
      ∀ b, b ∉ a :: table → c'.heap b = c.heap b := by
  obtain ⟨e, he, rfl⟩ := h.entry hx
  obtain ⟨c', o, hc, ho, hok, hr, hb⟩ := h.table.insert h.noSelf he hh ha h.balanced hroom
  simp only [h.keyAt] at ho
  exact ⟨c', o, hc, ho, ⟨h.ring.rechained hr, hok, h.noSelf.rechained hr, hb,
    fun b => (hr.unlinked b).trans (h.cores b), hr.capacity_.trans h.capacity, h.inRange, hr.usage_.trans h.usage⟩,
      hr.frame⟩

/-- Parts of an entry that neither the ring nor the table reads may change. -/
theorem Shape.change (h : Shape hash c ring table cores capacity usage) (hx : cores a = some x)
    {f : LRUHandle κ ν → LRUHandle κ ν}
    (hf : ∀ e : LRUHandle κ ν, (f e).next_hash = e.next_hash ∧ (f e).next = e.next ∧ (f e).prev = e.prev ∧
      (f e).hash = e.hash ∧ (f e).key_data = e.key_data ∧ (f e).unlinked = f e.unlinked) :
    ∃ c', c.change a f = some c' ∧
      Shape hash c' ring table (Function.update cores a (some (f x))) capacity usage ∧
      ∀ b, b ≠ a → c'.heap b = c.heap b := by
  obtain ⟨e, he, rfl⟩ := h.entry hx
  let c' : LRUCache κ ν := { c with heap := Function.update c.heap a (some (f e)) }
  have hmap {β : Type} (g : LRUHandle κ ν → β) (hg : g (f e) = g e) (b : Nat) : (c'.heap b).map g =
    (c.heap b).map g := by
    by_cases hb : b = a
    · simp [c', hb, he, hg]
    · simp [c', hb]
  obtain ⟨hnh, hnx, hpv, hhash, hkey, hun⟩ := hf e
  refine ⟨c', change_of_some he f, ⟨⟨?_, fun b hb => ?_⟩, ?_, ?_, h.balanced, fun b => ?_, h.capacity, h.inRange, h.usage⟩,
    fun b hb => Function.update_of_ne hb _ _⟩
  · have h1 : c'.nx = c.nx := by
      funext y
      cases y with
      | lru => rfl
      | entry b => simp only [nx, hmap _ hnx]
    have h2 : c'.pv = c.pv := by
      funext y
      cases y with
      | lru => rfl
      | entry b => simp only [pv, hmap _ hpv]
    rw [h1, h2]
    exact h.ring.ring
  · rw [← Option.isSome_map (f := fun _ => ()), hmap _ rfl, Option.isSome_map]
    exact h.ring.alloc b hb
  · -- the table reads only the hash, the key and the pointer of an entry
    refine ⟨h.table.pow, h.table.size, h.table.elems, h.table.nodup, fun b hb => ?_, fun b hb b' hb' hk => ?_,
      fun i hi => ?_⟩
    · obtain ⟨eb, heb, hhb⟩ := h.table.alloc b hb
      by_cases hba : b = a
      · subst hba
        obtain rfl := Option.some.inj (he.symm.trans heb)
        exact ⟨f e, Function.update_self _ _ _, by rw [hhash, hkey, hhb]⟩
      · exact ⟨eb, (Function.update_of_ne hba _ _).trans heb, hhb⟩
    · refine h.table.keys b hb b' hb' ?_
      simpa only [LRUCache.keyAt, hmap _ hkey] using hk
    · obtain ⟨l, hl, hn, hm⟩ := h.table.chains i hi
      refine ⟨l, hl.congr rfl fun b _ => ?_, hn, fun b => (hm b).trans (and_congr_right fun _ => ?_)⟩
      · simp only [ptr, load, hmap _ hnh]
      · exact (inBucket_congr (hmap _ hhash b) _ i).symm
  · intro b eb heb
    by_cases hba : b = a
    · subst hba
      obtain rfl : f e = eb := by simpa [c'] using heb
      exact hnx ▸ h.noSelf b e he
    · exact h.noSelf b eb (by simpa [c', hba] using heb)
  · by_cases hba : b = a
    · subst hba
      simp [c', hun]
    · rw [Function.update_of_ne hba, ← h.cores b]
      simp [c', hba]

/-- Entries outside of the ring and of the table may come and go. -/
theorem Shape.replace (h : Shape hash c ring table cores capacity usage) (hring : a ∉ ring) (htable : a ∉ table)
    {o : Option (LRUHandle κ ν)} (ho : ∀ e, o = some e → e.next ≠ .entry a) {u : Nat} (hu : u < 2 ^ 64) :
    Shape hash { c with heap := Function.update c.heap a o, usage_ := u } ring table
      (Function.update cores a (o.map LRUHandle.unlinked)) capacity u := by
  have hne (l : List Nat) (hl : a ∉ l) (b : Nat) (hb : b ∈ l) : Function.update c.heap a o b = c.heap b :=
    Function.update_of_ne (ne_of_mem_of_not_mem hb hl) _ _
  refine ⟨h.ring.congr (hne ring hring) rfl rfl, h.table.congr rfl fun b hb => congrArg _ (hne table htable b hb), ?_,
    h.balanced, fun b => ?_, h.capacity, hu, rfl⟩
  · intro b e he
    by_cases hba : b = a
    · subst hba
      exact ho e (by simpa using he)
    · exact h.noSelf b e (by simpa [hba] using he)
  · by_cases hba : b = a
    · subst hba
      simp
    · simp [hba, h.cores]

/-- Unref takes a reference away, or frees an entry that is neither in the ring nor in the table. -/
theorem Shape.unref (deleter : κ → ν → σ → σ) (h : Shape hash c ring table cores capacity usage) (hx : cores a = some x)
    (hpos : x.refs ≠ 0) (hfree : x.refs = 1 → a ∉ ring ∧ a ∉ table) (hcharge : x.charge ≤ usage) (w : σ) :
    ∃ c', c.unref deleter a w = some (c', if x.refs = 1 then deleter x.key_data x.value w else w) ∧
      Shape hash c' ring table
        (Function.update cores a (if x.refs = 1 then none else some { x with refs := x.refs - 1 })) capacity
        (if x.refs = 1 then usage - x.charge else usage) ∧
      ∀ b, b ≠ a → c'.heap b = c.heap b := by
  obtain ⟨e, he, rfl⟩ := h.entry hx
  have hkey := h.key he
  have hrefs : e.unlinked.refs = e.refs := rfl
  rw [hrefs] at hpos hfree ⊢
  by_cases h1 : e.refs = 1
  · obtain ⟨hring, htable⟩ := hfree h1
    have hless : (c.usage_ + 2 ^ 64 - e.charge) % 2 ^ 64 = usage - e.charge := by
      have hle : e.charge ≤ usage := hcharge
      rw [h.usage, Nat.sub_add_comm hle, Nat.add_mod_right,
        Nat.mod_eq_of_lt (Nat.lt_of_le_of_lt (Nat.sub_le _ _) h.inRange)]
    have hshape := h.replace hring htable (o := none) nofun (Nat.lt_of_le_of_lt (Nat.sub_le usage e.charge) h.inRange)
    refine ⟨{ c with usage_ := usage - e.charge, heap := Function.update c.heap a none }, ?_, ?_,
      fun b hb => Function.update_of_ne hb _ _⟩
    · simp only [LRUCache.unref, he, Option.bind_eq_bind, Option.bind_some, h1, hkey, hless]
      rfl
    · rw [if_pos h1, if_pos h1]
      exact hshape
  · obtain ⟨c', hc, hshape, hframe⟩ := h.change hx (f := fun e => { e with refs := e.refs - 1 })
      fun _ => ⟨rfl, rfl, rfl, rfl, rfl, rfl⟩
    have h0 : ¬ e.refs - 1 = 0 := by omega
    refine ⟨c', ?_, ?_, hframe⟩
    · simp [LRUCache.unref, he, hpos, h0, hc, h1]
    · rw [if_neg h1, if_neg h1]
      exact hshape

end

end LRUCache
end TableFS.Leveldb
