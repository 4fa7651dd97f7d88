import TableFS.Lib.HeldLru
import TableFS.Lib.Runs
import TableFS.Leveldb.CacheSteps

/-! The cache of util/cache.cc is a cache in shards that drops the entries used least recently: its
pointers stand for lists, and its reference counts for what is listed and held. -/
namespace TableFS.Leveldb
open HeldLru Runs
variable {κ ν σ : Type}

/-- One reference is the cache's, and one is for each handle that a caller holds. -/
def refsOf (c : Lru κ ν) (a : Nat) (x : Cell κ ν) : Nat := c.pins a + if a ∈ c.order (c.shard x.key) then 1 else 0

/-- An entry of the heap, without its pointers. -/
def coreAt (hash : κ → UInt32) (c : Lru κ ν) (a : Nat) : Option (LRUHandle κ ν) :=
  (c.cells a).map fun x =>
    { value := x.value, next_hash := none, next := .lru, prev := .lru, charge := x.charge, refs := refsOf c a x,
      hash := hash x.key, key_data := x.key }

def LRUHandle.bump (e : LRUHandle κ ν) : LRUHandle κ ν := { e with refs := e.refs + 1 }

namespace LRUCache

/-- A shard stands for its list, in a heap that holds the entries of all shards. -/
abbrev ShardOk (hash : κ → UInt32) (s : Nat) (p : LRUCache κ ν) (c : Lru κ ν) : Prop :=
  Shape hash p (c.order s) (c.order s) (coreAt hash c) c.capacity (c.usage s)

section
variable {hash : κ → UInt32} {p : LRUCache κ ν} {c c' : Lru κ ν} {ring table ring' table' : List Nat}
  {cores cores' : Nat → Option (LRUHandle κ ν)} {capacity usage a s : Nat} {x : Cell κ ν} {deleter : κ → ν → σ → σ}
    {w : σ}

theorem Shape.recast (h : Shape hash p ring table cores capacity usage) (hr : ring = ring') (ht : table.Perm table')
    (hc : ∀ a, cores a = cores' a) : Shape hash p ring' table' cores' capacity usage :=
  { h with ring := hr ▸ h.ring, table := h.table.perm ht, cores := fun a => (h.cores a).trans (hc a) }

private theorem Shape.withUsage (h : Shape hash p ring table cores capacity usage) {u : Nat} (hu : u < 2 ^ 64) :
    Shape hash { p with usage_ := u } ring table cores capacity u where
  ring := h.ring.congr (fun _ _ => rfl) rfl rfl
  table := h.table.congr rfl fun _ _ => rfl
  noSelf := h.noSelf
  balanced := h.balanced
  cores := h.cores
  capacity := h.capacity
  usage := rfl
  inRange := hu

/-- The head of the ring points at the oldest entry. -/
theorem Shape.lru_next (h : Shape hash p ring table cores capacity usage) :
    p.lru_next = (ring.head?.elim .lru Link.entry) := by
  have hseg := h.ring.ring.seg
  cases ring with
  | nil => exact hseg.1
  | cons a ring => exact hseg.1.1

private theorem coreAt_congr (hcell : c'.cells a = c.cells a) (hpins : c'.pins a = c.pins a)
    (hshard : c'.shard = c.shard)
    (horder : ∀ x, c.cells a = some x → (a ∈ c'.order (c.shard x.key) ↔ a ∈ c.order (c.shard x.key))) :
    coreAt hash c' a = coreAt hash c a := by
  simp only [coreAt, hcell]
  cases hx : c.cells a with
  | none => rfl
  | some x => simp only [Option.map_some, refsOf, hpins, hshard, horder x hx]

private theorem Shape.unref_settle (hc : Lru.Charged c) (hx : c.cells a = some x)
    (h : Shape hash p ring table (Function.update (coreAt hash c) a ((coreAt hash c a).map LRUHandle.bump)) capacity
      (c.usage (c.shard x.key)))
    (hfree : a ∉ c.order (c.shard x.key) → a ∉ ring ∧ a ∉ table) (deleter : κ → ν → σ → σ) (w : σ) :
    ∃ p', p.unref deleter a w = some (p', (c.settle deleter a w).2) ∧
      Shape hash p' ring table (coreAt hash (c.settle deleter a w).1) capacity
        ((c.settle deleter a w).1.usage (c.shard x.key)) ∧
      ∀ b, b ≠ a → p'.heap b = p.heap b := by
  have hcore : Function.update (coreAt hash c) a ((coreAt hash c a).map LRUHandle.bump) a =
      some { value := x.value, next_hash := none, next := .lru, prev := .lru, charge := x.charge,
             refs := refsOf c a x + 1, hash := hash x.key, key_data := x.key } := by
    simp [coreAt, hx, LRUHandle.bump]
  by_cases hlast : a ∉ c.order (c.shard x.key) ∧ c.pins a = 0
  · have hrefs : refsOf c a x = 0 := by simp [refsOf, hlast]
    obtain ⟨p', hp, hshape, hframe⟩ := h.unref deleter hcore (Nat.succ_ne_zero _) (fun _ => hfree hlast.1)
      (hc.charge_le hx) w
    have hsettle : c.settle deleter a w =
        ({ c with
            cells := Function.update c.cells a none
            usage := Function.update c.usage (c.shard x.key) (c.usage (c.shard x.key) - x.charge) },
          deleter x.key x.value w) := by simp [Lru.settle, hx, hlast]
    refine ⟨p', by simpa [hsettle, hrefs] using hp, ?_, hframe⟩
    rw [hsettle]
    simp only [hrefs, Nat.zero_add, if_true, Function.update_self] at hshape ⊢
    refine hshape.recast rfl (.refl table) fun b => ?_
    by_cases hb : b = a
    · simp [hb, coreAt]
    · simp only [Function.update_of_ne hb]
      symm
      exact coreAt_congr (Function.update_of_ne hb _ _) rfl rfl fun _ _ => Iff.rfl
  · have hrefs : refsOf c a x ≠ 0 := by
      simp only [refsOf]
      split
      · omega
      · rename_i hn
        have := not_and.mp hlast hn
        omega
    obtain ⟨p', hp, hshape, hframe⟩ := h.unref deleter hcore (Nat.succ_ne_zero _)
      (fun h1 => absurd (Nat.succ.inj h1) hrefs) (hc.charge_le hx) w
    have hsettle : c.settle deleter a w = (c, w) := by simp only [Lru.settle, hx, if_neg hlast]
    have hne : ¬ refsOf c a x + 1 = 1 := fun h1 => hrefs (Nat.succ.inj h1)
    rw [hsettle]
    simp only [if_neg hne] at hp hshape
    refine ⟨p', hp, hshape.recast rfl (.refl table) fun b => ?_, hframe⟩
    by_cases hb : b = a
    · simp [hb, coreAt, hx]
    · simp [hb]

private theorem coreAt_unlist (hs : Lru.Arranged c) (ha : a ∈ c.order s) (hx : c.cells a = some x) (b : Nat) :
    coreAt hash c b =
      Function.update (coreAt hash (c.unlist s a)) a ((coreAt hash (c.unlist s a) a).map LRUHandle.bump) b := by
  by_cases hb : b = a
  · subst hb
    have hshard := hs.shard_of_mem ha hx
    have hnot := Lru.notMem_unlist (a := b) (s := s) hs
    simp only [Function.update_self, coreAt, hx, Option.map_some, show (c.unlist s b).cells b = some x from hx, refsOf,
      LRUHandle.bump, show (c.unlist s b).shard = c.shard from rfl, hshard, if_pos ha, if_neg hnot,
      show (c.unlist s b).pins = c.pins from rfl]
  · rw [Function.update_of_ne hb]
    symm
    exact coreAt_congr rfl rfl rfl fun _ _ => Lru.mem_unlist hs hb

/-- An entry leaves the ring and the table, and is freed unless it is held. -/
theorem Shape.drop (hs : Lru.Arranged c) (hc : Lru.Charged c) (ha : a ∈ c.order s)
    (h : Shape hash p ((c.order s).erase a) ((c.order s).erase a) (coreAt hash c) c.capacity (c.usage s))
    (deleter : κ → ν → σ → σ) (w : σ) :
    ∃ p', p.unref deleter a w = some (p', ((c.unlist s a).settle deleter a w).2) ∧
      ShardOk hash s p' ((c.unlist s a).settle deleter a w).1 ∧ ∀ b, b ≠ a → p'.heap b = p.heap b := by
  obtain ⟨x, hx, rfl⟩ := hs.listed s a ha
  have hnot : a ∉ (c.order (c.shard x.key)).erase a := fun hm => ((hs.nodup _).mem_erase_iff.mp hm).1 rfl
  obtain ⟨p', hp, hshape, hframe⟩ := Shape.unref_settle (c := c.unlist (c.shard x.key) a) (hc.unlist _ a) hx
    (h.recast rfl (.refl _) (coreAt_unlist hs ha hx)) (fun _ => ⟨hnot, hnot⟩) deleter w
  refine ⟨p', hp, ?_, hframe⟩
  unfold ShardOk
  rw [Lru.order_settle, Lru.order_unlist_self, Lru.capacity_settle]
  exact hshape

private theorem coreAt_unpin (hp : c.pins a ≠ 0) (b : Nat) :
    coreAt hash c b = Function.update (coreAt hash (c.unpin a)) a ((coreAt hash (c.unpin a) a).map LRUHandle.bump) b := by
  by_cases hb : b = a
  · subst hb
    have hpins : c.pins b = (c.unpin b).pins b + 1 := by
      simp only [Lru.unpin, Function.update_self]
      omega
    simp only [Function.update_self, coreAt, Option.map_map, show (c.unpin b).cells b = c.cells b from rfl]
    refine congrArg (Option.map · (c.cells b)) (funext fun x => ?_)
    simp only [Function.comp_apply, LRUHandle.bump, refsOf, hpins, Nat.add_right_comm]
    rfl
  · rw [Function.update_of_ne hb]
    symm
    exact coreAt_congr rfl (Lru.pins_unpin_ne hb) rfl fun _ _ => Iff.rfl

theorem ShardOk.release (hc : Lru.Charged c) (hx : c.cells a = some x) (hpins : c.pins a ≠ 0)
    (hp : ShardOk hash (c.shard x.key) p c) (deleter : κ → ν → σ → σ) (w : σ) :
    ∃ p', p.unref deleter a w = some (p', (c.release deleter a w).2) ∧
      ShardOk hash (c.shard x.key) p' (c.release deleter a w).1 ∧ ∀ b, b ≠ a → p'.heap b = p.heap b := by
  obtain ⟨p', h, hshape, hframe⟩ := Shape.unref_settle (c := c.unpin a) hc hx (hp.recast rfl (.refl _) (coreAt_unpin hpins))
    (fun hn => ⟨hn, hn⟩) deleter w
  refine ⟨p', h, ?_, hframe⟩
  unfold ShardOk Lru.release
  rw [Lru.order_settle, Lru.capacity_settle]
  exact hshape

theorem coreAt_modify (hx : c.cells a = some x) (f : ν → ν) (b : Nat) :
    Function.update (coreAt hash c) a ((coreAt hash c a).map fun e => { e with value := f e.value }) b =
      coreAt hash (c.modify a f) b := by
  by_cases hb : b = a
  · subst hb
    simp only [Function.update_self, coreAt, Lru.cells_modify, hx, Option.map_some, if_true]
    rfl
  · rw [Function.update_of_ne hb]
    symm
    exact coreAt_congr (Function.update_of_ne hb _ _) rfl rfl fun _ _ => Iff.rfl

private theorem map_key_coreAt (c : Lru κ ν) (a : Nat) :
    (coreAt hash c a).map LRUHandle.key_data = (c.cells a).map Cell.key := by
  rw [coreAt, Option.map_map]
  rfl

private theorem coreAt_add {key : κ} (ha : c.cells a = none) (value : ν) (charge b : Nat) :
    coreAt hash (c.add key value charge a) b =
      Function.update (coreAt hash c) a (some (newEntry key (hash key) value charge)) b := by
  by_cases hb : b = a
  · subst hb
    have hmem : b ∈ (c.add key value charge b).order (c.shard key) := Lru.mem_add.mpr (.inr ⟨rfl, rfl⟩)
    simp only [Function.update_self, coreAt, Lru.cells_add_self, Option.map_some, refsOf, newEntry,
      show (c.add key value charge b).shard = c.shard from rfl, if_pos hmem,
      show (c.add key value charge b).pins b = 1 from Function.update_self _ _ _]
  · rw [Function.update_of_ne hb]
    refine coreAt_congr (Lru.cells_add_ne hb) (Lru.pins_add_ne hb) rfl fun _ _ => Lru.mem_add.trans (or_iff_left ?_)
    exact fun h => hb h.1

section
variable [DecidableEq κ] {key : κ}

private theorem find_eq (hash : κ → UInt32) (hs : Lru.Sound c) {o : Option Nat}
    (ho : ∀ a, o = some a ↔ a ∈ c.order (c.shard key) ∧ (coreAt hash c a).map LRUHandle.key_data = some key) :
    o = c.find key := by
  apply Option.ext
  intro a
  rw [ho, hs.find_iff, map_key_coreAt]

theorem ShardOk.evict (hg : Lru.Good c) (hp : ShardOk hash s p c) {n : Nat} (hn : (c.order s).length ≤ n)
    (deleter : κ → ν → σ → σ) (w : σ) :
    ∃ p', evict deleter n p w = some (p', (Lru.evict deleter s n c w).2) ∧
      ShardOk hash s p' (Lru.evict deleter s n c w).1 ∧
      ∀ b, b ∉ c.order s → p'.heap b = p.heap b := by
  induction n generalizing p c w with
  | zero =>
    have hnil := List.length_eq_zero_iff.mp (Nat.le_zero.mp hn)
    have hnext : p.lru_next = .lru := by rw [hp.lru_next, hnil]; rfl
    exact ⟨p, by simp [LRUCache.evict, hnext, Lru.evict], hp, fun _ _ => rfl⟩
  | succ n ih =>
    cases horder : c.order s with
    | nil =>
      have hnext : p.lru_next = .lru := by rw [hp.lru_next, horder]; rfl
      have hstop : Lru.evict deleter s (n + 1) c w = (c, w) := by simp [Lru.evict, horder]
      rw [hstop]
      exact ⟨p, by simp [LRUCache.evict, hnext], hp, fun _ _ => rfl⟩
    | cons a l =>
      have hnext : p.lru_next = .entry a := by rw [hp.lru_next, horder]; rfl
      have ha : a ∈ c.order s := horder ▸ List.mem_cons_self
      by_cases hfull : c.capacity < c.usage s
      · -- the oldest entry goes
        obtain ⟨x, hx, hxs⟩ := hg.sound.listed s a ha
        obtain ⟨p₁, h₁, hp₁, hf₁⟩ := hp.lruRemove ha
        obtain ⟨e, he, hecore⟩ := hp₁.entry (a := a) (by rw [coreAt, hx]; rfl)
        have hkey := hp₁.key he
        have hekey : e.key_data = x.key := congrArg (fun e : LRUHandle κ ν => e.key_data) hecore
        have hehash : e.hash = hash x.key := congrArg (fun e : LRUHandle κ ν => e.hash) hecore
        obtain ⟨p₂, o, h₂, ho, hp₂, hf₂⟩ := hp₁.tableRemove x.key
        obtain rfl : o = some a := (ho a).mpr ⟨ha, by rw [map_key_coreAt, hx]; rfl⟩
        obtain ⟨p₃, h₃, hp₃, hf₃⟩ := hp₂.drop hg.sound.toArranged hg.charged ha deleter w
        have hlen : (((c.unlist s a).settle deleter a w).1.order s).length ≤ n := by
          rw [Lru.order_settle, Lru.order_unlist_self, List.length_erase_of_mem ha]
          omega
        obtain ⟨p', hp', hpart, hf'⟩ := ih (hg.drop deleter s a w) hp₃ hlen _
        have hround : Lru.evict deleter s (n + 1) c w = Lru.evict deleter s n ((c.unlist s a).settle deleter a w).1
            ((c.unlist s a).settle deleter a w).2 := by simp only [Lru.evict, horder, if_pos hfull]
        rw [hround]
        refine ⟨p', ?_, hpart, fun b hb => ?_⟩
        · simp only [LRUCache.evict, hnext, hp.capacity, hp.usage, if_pos hfull, Option.bind_eq_bind, h₁,
            Option.bind_some, he, hkey, hekey, hehash, h₂, h₃]
          exact hp'
        · have hbs : b ∉ c.order s := horder ▸ hb
          rw [hf' b ?_, hf₃ b (ne_of_mem_of_not_mem ha hbs).symm, hf₂ b hbs, hf₁ b hbs]
          rw [Lru.order_settle, Lru.order_unlist_self]
          exact fun hm => hbs (List.mem_of_mem_erase hm)
      · have hstop : Lru.evict deleter s (n + 1) c w = (c, w) := by simp only [Lru.evict, horder, if_neg hfull]
        rw [hstop]
        refine ⟨p, ?_, hp, fun _ _ => rfl⟩
        simp only [LRUCache.evict, hnext, hp.capacity, hp.usage, if_neg hfull]

theorem ShardOk.lookup (hg : Lru.Good c) (hp : ShardOk hash (c.shard key) p c)
    (hpins : ∀ a ∈ c.find key, c.pins a + 2 < 2 ^ 32) :
    ∃ p', p.lookup key (hash key) = some (p', (c.lookup key).2) ∧ ShardOk hash (c.shard key) p' (c.lookup key).1 ∧
      ∀ b, b ∉ c.order (c.shard key) → p'.heap b = p.heap b := by
  obtain ⟨o, ho, hfind⟩ := hp.tableLookup key
  obtain rfl := find_eq hash hg.sound hfind
  cases hf : c.find key with
  | none =>
    rw [hf] at ho
    exact ⟨p, by simp [LRUCache.lookup, ho, Lru.lookup, hf], by simpa [Lru.lookup, hf] using hp, fun _ _ => rfl⟩
  | some a =>
    rw [hf] at ho
    obtain ⟨ha, hk⟩ := hg.sound.find_iff.mp hf
    obtain ⟨x, hx, rfl⟩ := Option.map_eq_some_iff.mp hk
    obtain ⟨p₁, h₁, hp₁, hf₁⟩ := Shape.change hp (a := a) (by rw [coreAt, hx]; rfl)
      (f := fun e => { e with refs := (e.refs + 1) % 2 ^ 32 }) fun _ => ⟨rfl, rfl, rfl, rfl, rfl, rfl⟩
    have hwrap : (c.pins a + 1 + 1) % 2 ^ 32 = c.pins a + 1 + 1 := Nat.mod_eq_of_lt (hpins a hf)
    obtain ⟨p₂, h₂, hp₂, hf₂⟩ := hp₁.lruRemove ha
    have hnot : a ∉ (c.order (c.shard x.key)).erase a := fun hm => ((hg.sound.nodup _).mem_erase_iff.mp hm).1 rfl
    obtain ⟨p₃, h₃, hp₃, hf₃⟩ := hp₂.lruAppend (Function.update_self _ _ _) hnot
    have hlookup : p.lookup x.key (hash x.key) = some (p₃, some a) := by
      simp only [LRUCache.lookup, ho, h₁, h₂, h₃, Option.bind_eq_bind, Option.bind_some]
    refine ⟨p₃, by simp only [hlookup, Lru.lookup, hf], ?_, fun b hb => ?_⟩
    · have hperm : (c.order (c.shard x.key)).Perm ((c.order (c.shard x.key)).erase a ++ [a]) :=
        (List.perm_cons_erase ha).trans (List.perm_append_singleton a _).symm
      have hlookup : (c.lookup x.key).1 = c.touch (c.shard x.key) a := by simp [Lru.lookup, hf]
      rw [hlookup]
      unfold ShardOk
      rw [Lru.order_touch_self]
      refine hp₃.recast rfl hperm fun b => ?_
      by_cases hb : b = a
      · subst hb
        have hmem : b ∈ (c.touch (c.shard x.key) b).order (c.shard x.key) :=
          (Lru.mem_touch hg.sound.toArranged ha).mpr ha
        simp only [Function.update_self, coreAt, show (c.touch (c.shard x.key) b).cells b = some x from hx,
          Option.map_some,
          refsOf, show (c.touch (c.shard x.key) b).shard = c.shard from rfl, if_pos hmem, if_pos ha, hwrap,
          show (c.touch (c.shard x.key) b).pins b = c.pins b + 1 from Function.update_self _ _ _]
      · rw [Function.update_of_ne hb]
        symm
        exact coreAt_congr rfl (Lru.pins_touch_ne hb) rfl fun _ _ => Lru.mem_touch hg.sound.toArranged ha
    · have hba := (ne_of_mem_of_not_mem ha hb).symm
      have hbe : b ∉ a :: (c.order (c.shard x.key)).erase a := by
        rw [List.mem_cons, not_or]
        exact ⟨hba, fun hm => hb (List.mem_of_mem_erase hm)⟩
      rw [hf₃ b hbe, hf₂ b hb, hf₁ b hba]

theorem ShardOk.erase (hg : Lru.Good c) (hp : ShardOk hash (c.shard key) p c) (deleter : κ → ν → σ → σ) (w : σ) :
    ∃ p', p.erase deleter key (hash key) w = some (p', (c.erase deleter key w).2) ∧
      ShardOk hash (c.shard key) p' (c.erase deleter key w).1 ∧ ∀ b, b ∉ c.order (c.shard key) →
        p'.heap b = p.heap b := by
  obtain ⟨p₁, o, h₁, hfind, hp₁, hf₁⟩ := hp.tableRemove key
  obtain rfl := find_eq hash hg.sound hfind
  cases hf : c.find key with
  | none =>
    rw [hf] at h₁ hp₁
    exact ⟨p₁, by simp [LRUCache.erase, h₁, Lru.erase, hf], by simpa [Lru.erase, hf] using hp₁, hf₁⟩
  | some a =>
    rw [hf] at h₁ hp₁
    have ha := (hg.sound.find_iff.mp hf).1
    obtain ⟨p₂, h₂, hp₂, hf₂⟩ := hp₁.lruRemove ha
    obtain ⟨p₃, h₃, hp₃, hf₃⟩ := hp₂.drop hg.sound.toArranged hg.charged ha deleter w
    refine ⟨p₃, by simp [LRUCache.erase, h₁, h₂, h₃, Lru.erase, hf], by simpa [Lru.erase, hf] using hp₃, fun b hb => ?_⟩
    rw [hf₃ b (ne_of_mem_of_not_mem ha hb).symm, hf₂ b hb, hf₁ b hb]

theorem ShardOk.insertEntry (hg : Lru.Good c) (hp : ShardOk hash (c.shard key) p c) (ha : c.cells a = none) (value : ν)
    {charge : Nat} (hcharge : c.usage (c.shard key) + charge < 2 ^ 64) (hroom : (c.order (c.shard key)).length < 2 ^ 31)
    (deleter : κ → ν → σ → σ) (w : σ) :
    ∃ p', p.insertEntry deleter key (hash key) value charge a w =
      some (p', (c.replace deleter key value charge a w).2) ∧
      ShardOk hash (c.shard key) p' (c.replace deleter key value charge a w).1 ∧
      ∀ b, b ∉ a :: c.order (c.shard key) → p'.heap b = p.heap b := by
  have hs := hg.sound.toArranged
  have hfree := hs.notMem_of_none ha (c.shard key)
  have hp₀ := (hp.replace hfree hfree (o := some (newEntry key (hash key) value charge)) (by simp [newEntry])
    (hp.usage ▸ hp.inRange)).recast rfl (.refl _) fun b => (coreAt_add ha value charge b).symm
  have hcore : coreAt hash (c.add key value charge a) a = some (newEntry key (hash key) value charge) :=
    (coreAt_add ha value charge a).trans (Function.update_self _ _ _)
  obtain ⟨p₁, h₁, hp₁, hf₁⟩ := hp₀.lruAppend hcore hfree
  have husage : (p₁.usage_ + charge) % 2 ^ 64 = (c.add key value charge a).usage (c.shard key) := by
    rw [hp₁.usage, hp.usage, Nat.mod_eq_of_lt hcharge]
    simp [Lru.add]
  obtain ⟨p₃, o, h₃, hfind, hp₃, hf₃⟩ :=
    (hp₁.withUsage (Nat.mod_lt (p₁.usage_ + charge) (by decide))).tableInsert hcore rfl hfree hroom
  rw [husage] at hp₃
  obtain rfl : o = c.find key := find_eq hash hg.sound fun b => by
    rw [hfind b]
    refine and_congr_right fun hb => ?_
    rw [map_key_coreAt, map_key_coreAt, Lru.cells_add_ne (c := c) (ne_of_mem_of_not_mem hb hfree)]
    rfl
  have hframe (b : Nat) (hb : b ∉ a :: c.order (c.shard key)) : p₃.heap b = p.heap b := by
    rw [hf₃ b hb]
    refine (hf₁ b hb).trans (Function.update_of_ne ?_ _ _)
    rintro rfl
    exact hb List.mem_cons_self
  unfold Lru.replace
  cases hf : c.find key with
  | none =>
    rw [hf] at h₃ hp₃
    refine ⟨p₃, by simp only [LRUCache.insertEntry, h₁, h₃, Option.bind_eq_bind, Option.bind_some], ?_, hframe⟩
    exact hp₃.recast Lru.order_add_self.symm
      ((List.perm_append_singleton a _).symm.trans (.of_eq Lru.order_add_self.symm)) fun _ => rfl
  | some old =>
    rw [hf] at h₃ hp₃
    have hold := (hg.sound.find_iff.mp hf).1
    have hmem : old ∈ c.order (c.shard key) ++ [a] := List.mem_append_left _ hold
    obtain ⟨p₄, h₄, hp₄, hf₄⟩ := hp₃.lruRemove hmem
    have herase : (c.order (c.shard key) ++ [a]).erase old = (c.order (c.shard key)).erase old ++ [a] :=
      List.erase_append_left _ hold
    have horder : (c.order (c.shard key) ++ [a]).erase old =
      ((c.add key value charge a).order (c.shard key)).erase old := by
      rw [Lru.order_add_self]
    have hshape := hp₄.recast horder
      ((List.perm_append_singleton a _).symm.trans (.of_eq (herase.symm.trans horder))) fun _ => rfl
    obtain ⟨p₅, h₅, hp₅, hf₅⟩ := Shape.drop (hs.add ha key value charge) (hg.charged.add ha key value charge)
      (Lru.order_add_self ▸ hmem) hshape deleter w
    refine ⟨p₅, by simp only [LRUCache.insertEntry, h₁, h₃, h₄, h₅, Option.bind_eq_bind, Option.bind_some], hp₅,
      fun b hb => ?_⟩
    have hbo : b ≠ old := fun h => hb (h ▸ List.mem_cons_of_mem a hold)
    have hbr : b ∉ c.order (c.shard key) ++ [a] := fun h => hb (by simpa [or_comm] using h)
    rw [hf₅ b hbo, hf₄ b hbr, hframe b hb]

theorem ShardOk.insert (hg : Lru.Good c) (hp : ShardOk hash (c.shard key) p c) (ha : c.cells a = none) (value : ν)
    {charge : Nat} (hcharge : c.usage (c.shard key) + charge < 2 ^ 64) (hroom : (c.order (c.shard key)).length < 2 ^ 31)
    (deleter : κ → ν → σ → σ) (w : σ) :
    ∃ p', p.insert deleter key (hash key) value charge a w = some (p', (c.insert deleter key value charge a w).2) ∧
      ShardOk hash (c.shard key) p' (c.insert deleter key value charge a w).1 ∧
      ∀ b, b ∉ a :: c.order (c.shard key) → p'.heap b = p.heap b := by
  obtain ⟨p₁, h₁, hp₁, hf₁⟩ := hp.insertEntry hg ha value hcharge hroom deleter w
  obtain ⟨hgood, -⟩ := hg.replace ha key value charge deleter w
  have helems := hp₁.table.elems
  obtain ⟨p₂, h₂, hp₂, hf₂⟩ := hp₁.evict hgood (Nat.le_of_eq rfl) deleter (c.replace deleter key value charge a w).2
  refine ⟨p₂, ?_, hp₂, fun b hb => ?_⟩
  · simp only [LRUCache.insert, h₁, Option.bind_eq_bind, Option.bind_some, helems, h₂]
    rfl
  · rw [hf₂ b ?_, hf₁ b hb]
    exact fun hm => hb (List.mem_cons.mpr (Lru.mem_of_mem_replace hm))

end

end

end LRUCache
end TableFS.Leveldb
