import TableFS.FileSystem
import TableFS.Leveldb.CacheRefinement
import TableFS.Lib.UnitCharges

/-! The sixteen shards together. Their entries share a heap; what one shard does leaves the lists of
the others as they were. Every run of the cache returns, and comes to what its lists come to. -/
namespace TableFS.Leveldb
open HeldLru Runs LRUCache
variable {κ ν σ : Type}

namespace ShardedLRUCache

section
variable [DecidableEq κ] (hashSlice : κ → UInt32) (deleter : κ → ν → σ → σ)

/-- A call of the cache, and the handle that it gives. -/
def step (m : ShardedLRUCache κ ν × σ) : Call κ ν → Option ((ShardedLRUCache κ ν × σ) × Option Nat)
  | .insert key value charge a => (m.1.insert hashSlice deleter key value charge a m.2).map fun r => (r, some a)
  | .lookup key => (m.1.lookup hashSlice key).map fun r => ((r.1, m.2), r.2)
  | .release a => (m.1.release deleter a m.2).map fun r => (r, none)
  | .erase key => (m.1.erase hashSlice deleter key m.2).map fun r => (r, none)
  | .modify a f => (m.1.modify a f).map fun r => ((r, m.2), none)

end

/-- None of the counters of the source wraps around: the charges of a shard are summed up in a size_t, its
table has at most 2³¹ entries, and the references of an entry are counted in 32 bits. -/
def InRange [DecidableEq κ] (c : Lru κ ν × σ) : Call κ ν → Prop
  | .insert key _ charge _ => c.1.usage (c.1.shard key) + charge < 2 ^ 64 ∧ (c.1.order (c.1.shard key)).length < 2 ^ 31
  | .lookup key => ∀ a ∈ c.1.find key, c.1.pins a + 2 < 2 ^ 32
  | .release _ | .erase _ | .modify _ _ => True

instance [DecidableEq κ] (c : Lru κ ν × σ) : (call : Call κ ν) → Decidable (InRange c call)
  | .insert _ _ _ _ => inferInstanceAs (Decidable (_ ∧ _))
  | .lookup key => inferInstanceAs (Decidable (∀ a ∈ c.1.find key, c.1.pins a + 2 < 2 ^ 32))
  | .release _ | .erase _ | .modify _ _ => .isTrue trivial

/-- The conditions that are left where charges are one and shards are small, so that no table gets large: what could
still wrap around is the number of entries that their handles keep in memory, and the number of handles of one. -/
def FewHeld [DecidableEq κ] (c : Lru κ ν × σ) : Call κ ν → Prop
  | .insert key _ charge _ => c.1.usage (c.1.shard key) + charge < 2 ^ 64
  | .lookup key => ∀ a ∈ c.1.find key, c.1.pins a + 2 < 2 ^ 32
  | .release _ | .erase _ | .modify _ _ => True

instance [DecidableEq κ] (c : Lru κ ν × σ) : (call : Call κ ν) → Decidable (FewHeld c call)
  | .insert _ _ _ _ => inferInstanceAs (Decidable (_ < _))
  | .lookup key => inferInstanceAs (Decidable (∀ a ∈ c.1.find key, c.1.pins a + 2 < 2 ^ 32))
  | .release _ | .erase _ | .modify _ _ => .isTrue trivial

structure StandsFor (hash : κ → UInt32) (m : ShardedLRUCache κ ν) (c : Lru κ ν) : Prop where
  good : Lru.Good c
  shard : c.shard = fun key => shardOfHash (hash key)
  parts : ∀ s, ShardOk hash s (m.part s) c

section
variable {hash : κ → UInt32} {m : ShardedLRUCache κ ν} {c c' : Lru κ ν} {p : LRUCache κ ν} {a s : Nat}

/-- The list machine that a new cache stands for. -/
def listsOf (hash : κ → UInt32) (capacity : Nat) : Lru κ ν :=
  .empty (perShard capacity) fun key => shardOfHash (hash key)

private theorem refines_new (hash : κ → UInt32) (capacity : Nat) :
    StandsFor hash (new capacity : ShardedLRUCache κ ν) (listsOf hash capacity) := by
  refine ⟨Lru.good_empty _ _, rfl, fun s =>
    ⟨⟨⟨⟨rfl, rfl⟩, List.nodup_singleton _⟩, nofun⟩, ?_, nofun, Nat.zero_le _, fun _ => rfl, rfl, Nat.two_pow_pos 64,
      rfl⟩⟩
  refine ⟨⟨2, rfl⟩, rfl, rfl, List.nodup_nil, nofun, nofun, fun i hi =>
    ⟨[], ?_, List.nodup_nil, by simp [listsOf, Lru.empty]⟩⟩
  have hlist : ((new capacity : ShardedLRUCache κ ν).part s).table_.list_ = List.replicate 4 none := rfl
  simp only [LinkedLists.Linked, ptr, load, hlist, List.getElem?_replicate]
  split <;> rfl

private theorem part_join_self (m : ShardedLRUCache κ ν) (s : Nat) (p : LRUCache κ ν) : (m.join s p).part s = p := by
  simp [part, join]

/-- A shard that has done its work is put back beside the others. -/
theorem StandsFor.join (h : StandsFor hash m c) (hg : Lru.Good c') (hp : ShardOk hash s p c') (hl : Lru.Local s c c')
    (hframe : ∀ t, t ≠ s → ∀ b ∈ c.order t, p.heap b = m.heap b) : StandsFor hash (m.join s p) c' := by
  refine ⟨hg, hl.shard.trans h.shard, fun t => ?_⟩
  by_cases ht : t = s
  · subst ht
    rw [part_join_self]
    exact hp
  · have hpart := h.parts t
    have hshard : (m.join s p).shard_ t = m.shard_ t := Function.update_of_ne ht _ _
    unfold ShardOk
    rw [hl.order t ht, hl.usage t ht, hl.capacity]
    exact {
      ring := hpart.ring.congr (hframe t ht) (congrArg Shard.lru_next hshard) (congrArg Shard.lru_prev hshard)
      table := hpart.table.congr (congrArg Shard.table_ hshard) fun b hb => congrArg _ (hframe t ht b hb)
      noSelf := hp.noSelf
      balanced := by
        have : ((m.join s p).part t).table_ = (m.part t).table_ := congrArg Shard.table_ hshard
        rw [this]
        exact hpart.balanced
      cores := hp.cores
      capacity := (congrArg Shard.capacity_ hshard).trans hpart.capacity
      inRange := hpart.inRange
      usage := (congrArg Shard.usage_ hshard).trans hpart.usage }

/-- The list of one shard has no address of another one. -/
theorem StandsFor.notMem (h : StandsFor hash m c) {t b : Nat} (ht : t ≠ s) (hb : b ∈ c.order t) : b ∉ c.order s :=
  fun hm => ht (h.good.sound.shard_unique hb hm)

private theorem StandsFor.part_key (h : StandsFor hash m c) (key : κ) :
    ShardOk hash (c.shard key) (m.part (shardOfHash (hash key))) c := by
  have := h.parts (c.shard key)
  rwa [congrFun h.shard key] at this ⊢

theorem StandsFor.release (h : StandsFor hash m c) (hpins : c.pins a ≠ 0) (deleter : κ → ν → σ → σ) (w : σ) :
    ∃ m', m.release deleter a w = some (m', (c.release deleter a w).2) ∧
      StandsFor hash m' (c.release deleter a w).1 := by
  obtain ⟨x, hx⟩ := Option.isSome_iff_exists.mp (h.good.sound.held a hpins)
  obtain ⟨e, he, hcore⟩ := (h.parts 0).entry (a := a) (by rw [coreAt, hx]; rfl)
  have hhash : e.hash = hash x.key := congrArg (fun e : LRUHandle κ ν => e.hash) hcore
  obtain ⟨p, hp, hpart, hframe⟩ := (h.part_key x.key).release h.good.charged hx hpins deleter w
  refine ⟨m.join (c.shard x.key) p, ?_, h.join (h.good.release hpins deleter w) hpart ?_ fun t ht b hb => hframe b ?_⟩
  · simp [ShardedLRUCache.release, show m.heap a = some e from he, hhash, hp, congrFun h.shard x.key]
  · refine ⟨Lru.capacity_settle deleter (c.unpin a) a w, Lru.shard_settle deleter (c.unpin a) a w, ?_, ?_⟩
    · intro t _
      exact congrFun (Lru.order_settle deleter (c.unpin a) a w) t
    · refine (Lru.local_settle (c := c.unpin a) deleter w fun y hy => ?_).usage
      obtain rfl := Option.some.inj (hx.symm.trans hy)
      rfl
  · rintro rfl
    exact ht (h.good.sound.shard_of_mem hb hx).symm

theorem StandsFor.modify (h : StandsFor hash m c) (hpins : c.pins a ≠ 0) (f : ν → ν) :
    ∃ m', m.modify a f = some m' ∧ StandsFor hash m' (c.modify a f) := by
  obtain ⟨x, hx⟩ := Option.isSome_iff_exists.mp (h.good.sound.held a hpins)
  obtain ⟨y, hcore⟩ : ∃ y, coreAt hash c a = some y := ⟨_, by rw [coreAt, hx]; rfl⟩
  obtain ⟨e, he, -⟩ := (h.parts 0).entry hcore
  refine ⟨{ m with heap := Function.update m.heap a (some { e with value := f e.value }) },
    by simp [ShardedLRUCache.modify, show m.heap a = some e from he], h.good.modify a f, h.shard, fun s => ?_⟩
  obtain ⟨p, hp, hshape, -⟩ := Shape.change (h.parts s) hcore (f := fun e => { e with value := f e.value })
    fun _ => ⟨rfl, rfl, rfl, rfl, rfl, rfl⟩
  obtain rfl := Option.some.inj ((change_of_some (c := m.part s) he _).symm.trans hp)
  refine hshape.recast rfl (.refl _) fun b => ?_
  rw [← coreAt_modify hx, hcore]
  rfl

variable [DecidableEq κ]

theorem StandsFor.insert (h : StandsFor hash m c) (ha : c.cells a = none) {key : κ} (value : ν) {charge : Nat}
    (hcharge : c.usage (c.shard key) + charge < 2 ^ 64) (hroom : (c.order (c.shard key)).length < 2 ^ 31)
    (deleter : κ → ν → σ → σ) (w : σ) :
    ∃ m', m.insert hash deleter key value charge a w = some (m', (c.insert deleter key value charge a w).2) ∧
      StandsFor hash m' (c.insert deleter key value charge a w).1 := by
  obtain ⟨p, hp, hpart, hframe⟩ := (h.part_key key).insert h.good ha value hcharge hroom deleter w
  obtain ⟨hg, hl, -⟩ := h.good.insert ha key value charge deleter w
  refine ⟨m.join (c.shard key) p, by simp [ShardedLRUCache.insert, hp, congrFun h.shard key],
    h.join hg hpart hl fun t ht b hb => hframe b ?_⟩
  rw [List.mem_cons, not_or]
  exact ⟨ne_of_mem_of_not_mem hb (h.good.sound.notMem_of_none ha t), h.notMem ht hb⟩

theorem StandsFor.lookup (h : StandsFor hash m c) {key : κ} (hpins : ∀ a ∈ c.find key, c.pins a + 2 < 2 ^ 32) :
    ∃ m', m.lookup hash key = some (m', (c.lookup key).2) ∧ StandsFor hash m' (c.lookup key).1 := by
  obtain ⟨p, hp, hpart, hframe⟩ := (h.part_key key).lookup h.good hpins
  exact ⟨m.join (c.shard key) p, by simp [ShardedLRUCache.lookup, hp, congrFun h.shard key],
    h.join (h.good.lookup key) hpart (Lru.local_lookup c key) fun t ht b hb => hframe b (h.notMem ht hb)⟩

theorem StandsFor.erase (h : StandsFor hash m c) (key : κ) (deleter : κ → ν → σ → σ) (w : σ) :
    ∃ m', m.erase hash deleter key w = some (m', (c.erase deleter key w).2) ∧
      StandsFor hash m' (c.erase deleter key w).1 := by
  obtain ⟨p, hp, hpart, hframe⟩ := (h.part_key key).erase h.good deleter w
  exact ⟨m.join (c.shard key) p, by simp [ShardedLRUCache.erase, hp, congrFun h.shard key],
    h.join (h.good.erase deleter key w) hpart (Lru.local_erase h.good.sound deleter key w) fun t ht b hb =>
      hframe b (h.notMem ht hb)⟩

/-- Every proper call returns, as it does with the lists. -/
theorem StandsFor.step {m : ShardedLRUCache κ ν × σ} {c : Lru κ ν × σ} (h : StandsFor hash m.1 c.1 ∧ m.2 = c.2)
    (deleter : κ → ν → σ → σ) {call : Call κ ν} (hp : Lru.Proper c call) (hrange : InRange c call) :
    ∃ m', ShardedLRUCache.step hash deleter m call = some (m', (Lru.step deleter c call).2) ∧
      StandsFor hash m'.1 (Lru.step deleter c call).1.1 ∧ m'.2 = (Lru.step deleter c call).1.2 := by
  obtain ⟨h, hw⟩ := h
  cases call with
  | insert key value charge a =>
    obtain ⟨m', hm, hr⟩ := h.insert hp value hrange.1 hrange.2 deleter c.2
    exact ⟨(m', _), by simp only [ShardedLRUCache.step, hw, hm, Option.map_some, Lru.step], hr, rfl⟩
  | lookup key =>
    obtain ⟨m', hm, hr⟩ := h.lookup hrange
    exact ⟨(m', c.2), by simp [ShardedLRUCache.step, hw, hm, Lru.step], hr, rfl⟩
  | release a =>
    obtain ⟨m', hm, hr⟩ := h.release hp deleter c.2
    exact ⟨(m', _), by simp only [ShardedLRUCache.step, hw, hm, Option.map_some, Lru.step], hr, rfl⟩
  | erase key =>
    obtain ⟨m', hm, hr⟩ := h.erase key deleter c.2
    exact ⟨(m', _), by simp only [ShardedLRUCache.step, hw, hm, Option.map_some, Lru.step], hr, rfl⟩
  | modify a f =>
    obtain ⟨m', hm, hr⟩ := h.modify hp f
    exact ⟨(m', c.2), by simp [ShardedLRUCache.step, hw, hm, Lru.step], hr, rfl⟩

theorem StandsFor.run (hash : κ → UInt32) (deleter : κ → ν → σ → σ) (capacity : Nat) (w : σ)
    {calls : List (Call κ ν)}
    (h : Allowed (Lru.step deleter) (fun c call => Lru.Proper c call ∧ InRange c call)
      (listsOf hash capacity, w) calls) :
    ∃ m, attempt (ShardedLRUCache.step hash deleter) (new capacity, w) calls =
        some ((m, (Runs.run (Lru.step deleter) (listsOf hash capacity, w) calls).1.2),
          (Runs.run (Lru.step deleter) (listsOf hash capacity, w) calls).2) ∧
      StandsFor hash m (Runs.run (Lru.step deleter) (listsOf hash capacity, w) calls).1.1 := by
  have hstep (m : ShardedLRUCache κ ν × σ) (c : Lru κ ν × σ) (call : Call κ ν) (hr : StandsFor hash m.1 c.1 ∧ m.2 = c.2)
      (hp : Lru.Proper c call ∧ InRange c call) := StandsFor.step hr deleter hp.1 hp.2
  obtain ⟨m, hm, hr, hw⟩ := attempt_simulates (s := (new capacity, w)) _ hstep ⟨refines_new hash capacity, rfl⟩ h
  exact ⟨m.1, by rw [hm, ← hw], hr⟩

end

/-- Every sequence of calls comes to an end without a bad dereference or a failed assertion, whatever
the addresses that malloc gives: with the handles, the effects of the deleter and the entries that
the lists of recent use have. -/
theorem sharded_cache_runs_as_lists [DecidableEq κ] (hash : κ → UInt32) (deleter : κ → ν → σ → σ) (capacity : Nat)
    (w : σ) {calls : List (Call κ ν)}
    (h : Allowed (Lru.step deleter) (fun c call => Lru.Proper c call ∧ InRange c call)
      (listsOf hash capacity, w) calls) :
    ∃ m, attempt (step hash deleter) (new capacity, w) calls =
        some ((m, (run (Lru.step deleter) (listsOf hash capacity, w) calls).1.2),
          (run (Lru.step deleter) (listsOf hash capacity, w) calls).2) ∧
      ∀ a, (m.heap a).map (fun e => (⟨e.key_data, e.value, e.charge⟩ : Cell κ ν)) =
        (run (Lru.step deleter) (listsOf hash capacity, w) calls).1.1.cells a := by
  obtain ⟨m, hm, hr⟩ := StandsFor.run hash deleter capacity w h
  refine ⟨m, hm, fun a => ?_⟩
  have hcore := congrArg (Option.map fun e : LRUHandle κ ν => (⟨e.key_data, e.value, e.charge⟩ : Cell κ ν))
    ((hr.parts 0).cores a)
  rw [coreAt, Option.map_map, Option.map_map] at hcore
  refine hcore.trans ?_
  simp only [Function.comp_def, Option.map_id_fun', id]

theorem sharded_cache_runs_as_lists_reuse :
    ∃ m, attempt (step UInt32.ofNat fun key _ w => w ++ [key]) (new 16, ([] : List Nat))
        [.insert 5 "a" 1 100, .lookup 5, .release 100, .insert 6 "b" 1 101, .release 100, .release 101,
          .insert 7 "c" 1 100] =
      some ((m, [5, 6]), [some 100, some 100, none, some 101, none, none, some 100]) := by
  have h : Allowed (Lru.step fun key _ w => w ++ [key]) (fun c call => Lru.Proper c call ∧ InRange c call)
      (listsOf UInt32.ofNat 16, ([] : List Nat))
      [.insert 5 "a" 1 100, .lookup 5, .release 100, .insert 6 "b" 1 101, .release 100, .release 101,
        .insert 7 "c" 1 100] := by
    decide
  obtain ⟨m, hm, -⟩ := sharded_cache_runs_as_lists UInt32.ofNat (fun key _ w => w ++ [key]) 16 [] h
  exact ⟨m, hm⟩

/-- What the pointers and the counts say, given how often each handle was handed out and given back. -/
structure Accounts (hash : κ → UInt32) (m : ShardedLRUCache κ ν) (given returned : Nat → Nat) (rings : Nat → List Nat) :
    Prop where
  ring : ∀ s, RingOk (m.part s) (rings s)
  table : ∀ s, TableOk hash (m.part s) (rings s)
  balanced : ∀ s, (m.shard_ s).table_.elems_ ≤ (m.shard_ s).table_.length_
  refs : ∀ a e, m.heap a = some e →
    0 < e.refs ∧ e.refs + returned a = given a + if a ∈ rings (shardOfHash e.hash) then 1 else 0
  freed : ∀ a, m.heap a = none → given a = returned a ∧ ∀ s, a ∉ rings s
  usage : ∃ live : Finset Nat, (∀ a, a ∈ live ↔ (m.heap a).isSome) ∧ ∀ s, (m.shard_ s).usage_ =
    ∑ a ∈ live, ((m.heap a).map fun e => if shardOfHash e.hash = s then e.charge else 0).getD 0
  fits : ∀ s, (m.shard_ s).usage_ ≤ (m.shard_ s).capacity_ ∨ rings s = []

theorem StandsFor.cell {hash : κ → UInt32} {m : ShardedLRUCache κ ν} {c : Lru κ ν} (h : StandsFor hash m c) {a : Nat}
    {e : LRUHandle κ ν} (he : m.heap a = some e) :
    ∃ x, c.cells a = some x ∧
      e = { value := x.value, next_hash := e.next_hash, next := e.next, prev := e.prev, charge := x.charge,
            refs := refsOf c a x, hash := hash x.key, key_data := x.key } := by
  have hcore := (h.parts 0).cores a
  rw [show ((m.part 0).heap a) = some e from he, coreAt, Option.map_some] at hcore
  obtain ⟨x, hx, hxe⟩ := Option.map_eq_some_iff.mp hcore.symm
  refine ⟨x, hx, ?_⟩
  cases e
  simp only [LRUHandle.unlinked, LRUHandle.mk.injEq] at hxe
  obtain ⟨rfl, -, -, -, rfl, rfl, rfl, rfl⟩ := hxe
  rfl

private theorem StandsFor.accounts {hash : κ → UInt32} {m : ShardedLRUCache κ ν} {c : Lru κ ν} (h : StandsFor hash m c)
    (hf : ∀ s, Lru.WithinCapacity c s) {given returned : Nat → Nat} (hp : ∀ a, c.pins a + returned a = given a) :
    Accounts hash m given returned c.order := by
  have hg := h.good
  have hnone (a : Nat) : m.heap a = none ↔ c.cells a = none := by
    have hcore := (h.parts 0).cores a
    rw [coreAt] at hcore
    constructor
    · intro hn
      rw [show (m.part 0).heap a = none from hn] at hcore
      exact Option.map_eq_none_iff.mp hcore.symm
    · intro hn
      rw [hn] at hcore
      exact Option.map_eq_none_iff.mp hcore
  refine ⟨fun s => (h.parts s).ring, fun s => (h.parts s).table, fun s => (h.parts s).balanced, fun a e he => ?_,
    fun a ha => ?_, ?_, fun s => ?_⟩
  · obtain ⟨x, hx, hxe⟩ := h.cell he
    have halive := hg.alive a x hx (by simp)
    rw [hxe]
    simp only [← congrFun h.shard x.key, ← hp a, refsOf]
    split
    · omega
    · rename_i hn
      have := halive.resolve_right hn
      omega
  · have hfree := (hnone a).mp ha
    refine ⟨?_, hg.sound.notMem_of_none hfree⟩
    have hzero : c.pins a = 0 := by
      by_contra hne
      have := hg.sound.held a hne
      rw [hfree] at this
      cases this
    rw [← hp a, hzero, Nat.zero_add]
  · obtain ⟨live, hlive, hsum⟩ := hg.charged
    refine ⟨live, fun a => ?_, fun s => ((h.parts s).usage.trans (hsum s)).trans (Finset.sum_congr rfl fun a _ => ?_)⟩
    · rw [hlive, ← Option.ne_none_iff_isSome, ← Option.ne_none_iff_isSome]
      exact not_congr (hnone a).symm
    · cases he : m.heap a with
      | none => rw [(hnone a).mp he]; rfl
      | some e =>
        obtain ⟨x, hx, hxe⟩ := h.cell he
        rw [hx, hxe, Option.map_some, Option.map_some, congrFun h.shard x.key]
  · have := hf s
    rw [Lru.WithinCapacity, ← (h.parts s).usage, ← (h.parts s).capacity] at this
    exact this

/-- After every sequence of calls the references of an entry are the handles of it that are out and
the table's own; an address is free exactly when there are neither; a shard's usage is the charge of
its allocated entries, in the table or not; and it is over its capacity only with entries that callers
hold. -/
theorem sharded_cache_accounts [DecidableEq κ] (hash : κ → UInt32) (deleter : κ → ν → σ → σ) (capacity : Nat)
    (w : σ) {calls : List (Call κ ν)}
    (h : Allowed (Lru.step deleter) (fun c call => Lru.Proper c call ∧ InRange c call)
      (listsOf hash capacity, w) calls) :
    ∃ m w' outs rings, attempt (step hash deleter) (new capacity, w) calls = some ((m, w'), outs) ∧
      Accounts hash m (fun a => outs.count (some a)) (fun a => calls.countP (Call.returns a)) rings := by
  obtain ⟨m, hm, hr⟩ := StandsFor.run hash deleter capacity w h
  have hg : Lru.Good (listsOf hash capacity : Lru κ ν) := Lru.good_empty _ _
  have hproper := h.mono fun _ _ hp => hp.1
  obtain ⟨-, hf⟩ := Lru.good_run (listsOf hash capacity, w) hg (fun _ => .inr rfl) deleter hproper
  refine ⟨m, _, _, _, hm, hr.accounts hf fun a => ?_⟩
  exact (Lru.pins_run (listsOf hash capacity, w) hg deleter hproper a).trans (Nat.zero_add _)

theorem sharded_cache_accounts_held :
    ∃ m w' outs rings, attempt (step UInt32.ofNat fun _ _ w => w) (new 16, ())
        [.insert 5 "a" 1 100, .insert 6 "b" 1 101, .lookup 6, .release 101, .erase 6] = some ((m, w'), outs) ∧
      Accounts UInt32.ofNat m (fun a => outs.count (some a))
        (fun a => [Call.insert 5 "a" 1 100, .insert 6 "b" 1 101, .lookup 6, .release 101, .erase 6].countP
          (Call.returns a)) rings :=
  sharded_cache_accounts UInt32.ofNat (fun _ _ w => w) 16 () (by decide)

/-- A state of the lists with charges of one. -/
private structure SmallTables (capacity : Nat) (cw : Lru κ ν × σ) : Prop where
  good : Lru.Good cw.1
  within : ∀ s, Lru.WithinCapacity cw.1 s
  capacity : cw.1.capacity = capacity
  charges : ∃ ρ d, Matches ρ none cw.1 d

private theorem SmallTables.inRange_iff [DecidableEq κ] {capacity : Nat} {cw : Lru κ ν × σ} (h : SmallTables capacity cw)
    (hsmall : capacity < 2 ^ 31) (call : Call κ ν) : InRange cw call ↔ FewHeld cw call := by
  cases call with
  | insert key value charge a =>
    obtain ⟨ρ, d, hm⟩ := h.charges
    refine and_iff_left ?_
    have hle := h.good.length_order_le (fun a x hx => by rw [hm.unit a x hx]; exact Nat.one_pos) (cw.1.shard key)
    rcases h.within (cw.1.shard key) with hfits | hnil
    · exact Nat.lt_of_le_of_lt (hle.trans hfits) (h.capacity ▸ hsmall)
    · rw [hnil]
      exact Nat.two_pow_pos 31
  | _ => exact Iff.rfl

private theorem SmallTables.step [DecidableEq κ] {capacity : Nat} {cw : Lru κ ν × σ} (h : SmallTables capacity cw)
    (deleter : κ → ν → σ → σ) {call : Call κ ν} (hp : Lru.Proper cw call) (hu : call.Unit) :
    SmallTables capacity (Lru.step deleter cw call).1 := by
  obtain ⟨ρ, d, hm⟩ := h.charges
  exact ⟨h.good.step deleter hp, Lru.WithinCapacity.step h.good h.within deleter hp,
    (Lru.capacity_step h.good deleter hp).trans h.capacity,
    ⟨_, _, (hm.step (q := ((d, ρ), cw.2)) h.good rfl deleter hp hu).1⟩⟩

/-- The inode cache's entries have charge one. With such calls the pointers, the counts and the
write-backs are those of the cache that the file system is verified with, address by address. -/
theorem inode_cache_runs_as_numbered (threshold : Nat) (metadb : MetaDB) {calls : List (Call MetaKey InodeCacheHandle)}
    (hunit : ∀ call ∈ calls, call.Unit)
    (h : Allowed (Lru.step cleanInodeHandle) (fun c call => Lru.Proper c call ∧ FewHeld c call)
      (listsOf (fun key => hashSlice key.toSlice) 512, metadb) calls) :
    let config := Config.source threshold
    let q := run (numbered cleanInodeHandle) ((.empty config.capacity config.shard, id), metadb) calls
    ∃ m outs, attempt (step (fun key => hashSlice key.toSlice) cleanInodeHandle) (new 512, metadb) calls =
      some ((m, q.1.2), outs) ∧
      outs.map Option.isSome = q.2.map Option.isSome ∧
      ∀ a e, m.heap a = some e → q.1.1.1.data (q.1.1.2 a) = some (e.key_data, e.value) ∧
        q.1.1.1.refs (q.1.1.2 a) = e.refs := by
  intro config q
  let lists : Lru MetaKey InodeCacheHandle × MetaDB := (listsOf (fun key => hashSlice key.toSlice) 512, metadb)
  have hsmall : SmallTables 32 lists := ⟨Lru.good_empty _ _, fun _ => .inr rfl, rfl, id, _, matches_empty id _ _⟩
  have hrange : Allowed (Lru.step cleanInodeHandle) (fun c call => (Lru.Proper c call ∧ InRange c call) ∧ call.Unit)
      lists calls := by
    refine (allowed_congr (SmallTables 32) (fun c call hc => ?_)
      (fun c call hc hok => hc.step cleanInodeHandle hok.1.1 hok.2) hsmall calls).mpr
        (h.and ((allowed_iff_forall_mem Call.Unit lists calls).mpr hunit))
    rw [hc.inRange_iff (by decide)]
  obtain ⟨m, hm, hr⟩ := StandsFor.run (fun key : MetaKey => hashSlice key.toSlice) cleanInodeHandle 512 metadb
    (hrange.mono fun _ _ hc => hc.1)
  let rows : (PinnedLru.LRUCache MetaKey InodeCacheHandle × (Nat → Nat)) × MetaDB :=
    ((.empty config.capacity config.shard, id), metadb)
  have hstart : Matches rows.1.2 none lists.1 rows.1.1 := matches_empty id config.capacity config.shard
  obtain ⟨hmatch, hw, houts⟩ := hstart.run (Lru.good_empty _ _) rfl cleanInodeHandle (h.mono fun _ _ hp => hp.1) hunit
  refine ⟨m, _, by rw [hm, hw], houts, fun a e he => ?_⟩
  obtain ⟨x, hx, hxe⟩ := hr.cell he
  rw [hmatch.data a x hx, hmatch.refs a x hx, hxe]
  exact ⟨rfl, rfl⟩

theorem inode_cache_runs_as_numbered_release :
    let config := Config.source 4096
    let calls : List (Call MetaKey InodeCacheHandle) :=
      [.insert rootKey ⟨initInodeValue Env.calm.memory 0 S_IFDIR 0 [] none 0, .write⟩ 1 100, .lookup rootKey,
        .release 100, .modify 100 id, .erase rootKey, .release 100]
    let q := run (numbered cleanInodeHandle) ((.empty config.capacity config.shard, id), (∅ : MetaDB)) calls
    ∃ m outs, attempt (step (fun key => hashSlice key.toSlice) cleanInodeHandle) (new 512, ∅) calls =
      some ((m, q.1.2), outs) ∧
      outs.map Option.isSome = q.2.map Option.isSome ∧
      ∀ a e, m.heap a = some e → q.1.1.1.data (q.1.1.2 a) = some (e.key_data, e.value) ∧
        q.1.1.1.refs (q.1.1.2 a) = e.refs :=
  inode_cache_runs_as_numbered 4096 ∅ (by simp [Call.Unit]) (by decide)

end ShardedLRUCache
end TableFS.Leveldb
