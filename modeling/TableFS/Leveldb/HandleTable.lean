import Mathlib.Algebra.GroupWithZero.Nat
import Mathlib.Data.List.Perm.Subperm
import TableFS.Leveldb.CacheRing

/-! The hash table of a shard is a map from keys to entries: what FindPointer finds, and that
Insert, Remove and Resize keep the chains. -/
namespace TableFS.Leveldb
open LinkedLists
variable {κ ν : Type}

/-- The entry in which a pointer is, if any. -/
def Slot.entries : Slot → List Nat
  | .bucket _ => []
  | .nextHash a => [a]

namespace LRUCache

/-- The pointer at an address, null where there is none. -/
def ptr (c : LRUCache κ ν) (s : Slot) : Option Nat := (c.load s).join

def keyAt (c : LRUCache κ ν) (a : Nat) : Option κ := (c.heap a).map LRUHandle.key_data

/-- The entry is at the address, and belongs into the bucket. -/
def InBucket (c : LRUCache κ ν) (length i a : Nat) : Prop := ∃ e, c.heap a = some e ∧ bucketOf e.hash length = i

/-- The entries of the table. -/
structure TableOk (hash : κ → UInt32) (c : LRUCache κ ν) (t : List Nat) : Prop where
  pow : ∃ k, c.table_.length_ = 2 ^ k
  size : c.table_.list_.length = c.table_.length_
  elems : c.table_.elems_ = t.length
  nodup : t.Nodup
  alloc : ∀ a ∈ t, ∃ e, c.heap a = some e ∧ e.hash = hash e.key_data
  keys : ∀ a ∈ t, ∀ b ∈ t, c.keyAt a = c.keyAt b → a = b
  chains : ∀ i < c.table_.length_, ∃ l, Linked Slot.nextHash c.ptr (.bucket i) l ∧ l.Nodup ∧
    ∀ a, a ∈ l ↔ a ∈ t ∧ c.InBucket c.table_.length_ i a

/-- Only pointers of the hash table have changed, in some entries and in its buckets. -/
structure Rechained (c c' : LRUCache κ ν) (l : List Nat) : Prop where
  rest : ∀ a, (c'.heap a).map LRUHandle.dropChain = (c.heap a).map LRUHandle.dropChain
  frame : ∀ a, a ∉ l → c'.heap a = c.heap a
  lru_next : c'.lru_next = c.lru_next
  lru_prev : c'.lru_prev = c.lru_prev
  capacity_ : c'.capacity_ = c.capacity_
  usage_ : c'.usage_ = c.usage_

section
variable {c c' c'' : LRUCache κ ν} {l l' t t' : List Nat} {a : Nat} {s : Slot} {hash : κ → UInt32}

theorem Rechained.refl (c : LRUCache κ ν) (l : List Nat) : Rechained c c l :=
  ⟨fun _ => rfl, fun _ _ => rfl, rfl, rfl, rfl, rfl⟩

theorem Rechained.trans (h : Rechained c c' l) (h' : Rechained c' c'' l') (hl : ∀ a, a ∈ l' → a ∈ l) :
    Rechained c c'' l where
  rest a := (h'.rest a).trans (h.rest a)
  frame a ha := (h'.frame a fun hm => ha (hl a hm)).trans (h.frame a ha)
  lru_next := h'.lru_next.trans h.lru_next
  lru_prev := h'.lru_prev.trans h.lru_prev
  capacity_ := h'.capacity_.trans h.capacity_
  usage_ := h'.usage_.trans h.usage_

theorem Rechained.mono (h : Rechained c c' l) (hl : ∀ a, a ∈ l → a ∈ l') : Rechained c c' l' :=
  { h with frame := fun a ha => h.frame a fun hm => ha (hl a hm) }

/-- Any other part of an entry is as before. -/
theorem Rechained.map_eq {β : Type} (h : Rechained c c' l) {f : LRUHandle κ ν → β} (hf : ∀ e, f e.dropChain = f e)
    (a : Nat) :
    (c'.heap a).map f = (c.heap a).map f := by
  have := congrArg (Option.map f) (h.rest a)
  simpa only [Option.map_map, Function.comp_def, hf] using this

theorem Rechained.entry (h : Rechained c c' l) {e : LRUHandle κ ν} (he : c.heap a = some e) :
    ∃ e', c'.heap a = some e' ∧ e'.dropChain = e.dropChain := by
  have := h.rest a
  rw [he] at this
  obtain ⟨e', he', heq⟩ := Option.map_eq_some_iff.mp this
  exact ⟨e', he', heq⟩

private theorem Rechained.hashed (h : Rechained c c' l) (ha : ∃ e, c.heap a = some e ∧ e.hash = hash e.key_data) :
    ∃ e, c'.heap a = some e ∧ e.hash = hash e.key_data := by
  obtain ⟨e, he, hh⟩ := ha
  have hm := h.map_eq (f := fun e => (e.hash, e.key_data)) (fun _ => rfl) a
  rw [he] at hm
  obtain ⟨e', he', heq⟩ := Option.map_eq_some_iff.mp hm
  obtain ⟨h1, h2⟩ := Prod.mk.inj heq
  exact ⟨e', he', by rw [h1, h2, hh]⟩

theorem inBucket_congr (h : (c'.heap a).map LRUHandle.hash = (c.heap a).map LRUHandle.hash) (n i : Nat) :
    c'.InBucket n i a ↔ c.InBucket n i a := by
  have hiff (d : LRUCache κ ν) : d.InBucket n i a ↔ ∃ x, (d.heap a).map LRUHandle.hash = some x ∧ bucketOf x n = i := by
    simp [InBucket]
  rw [hiff, hiff, h]

private theorem Rechained.inBucket (h : Rechained c c' l) (n i a : Nat) : c'.InBucket n i a ↔ c.InBucket n i a :=
  inBucket_congr (h.map_eq (fun _ => rfl) a) n i

theorem Relinked.map_eq {β : Type} (h : Relinked c c' l) {f : LRUHandle κ ν → β} (hf : ∀ e, f e.dropRing = f e)
    (a : Nat) :
    (c'.heap a).map f = (c.heap a).map f := by
  have := congrArg (Option.map f) (h.rest a)
  simpa only [Option.map_map, Function.comp_def, hf] using this

/-- The ring does not depend on the hash table. -/
theorem RingOk.rechained (h : RingOk c l) (hr : Rechained c c' l') : RingOk c' l := by
  have hnx : c'.nx = c.nx := by
    funext x
    cases x with
    | lru => exact hr.lru_next
    | entry a => simp only [nx, hr.map_eq (f := LRUHandle.next) (fun _ => rfl)]
  have hpv : c'.pv = c.pv := by
    funext x
    cases x with
    | lru => exact hr.lru_prev
    | entry a => simp only [pv, hr.map_eq (f := LRUHandle.prev) (fun _ => rfl)]
  refine ⟨by rw [hnx, hpv]; exact h.ring, fun a ha => ?_⟩
  obtain ⟨e, he⟩ := Option.isSome_iff_exists.mp (h.alloc a ha)
  obtain ⟨e', he', -⟩ := hr.entry he
  exact Option.isSome_iff_exists.mpr ⟨e', he'⟩

theorem NoSelf.rechained (h : NoSelf c) (hr : Rechained c c' l) : NoSelf c' := by
  intro a e' he' hself
  have hm := hr.map_eq (f := LRUHandle.next) (fun _ => rfl) a
  rw [he'] at hm
  obtain ⟨e, he, hne⟩ := Option.map_eq_some_iff.mp hm.symm
  exact h a e he (hne.trans hself)

/-- The table is read off its buckets and its entries, but for their places in the ring. -/
theorem TableOk.congr (h : TableOk hash c t) (ht : c'.table_ = c.table_)
    (hl : ∀ a ∈ t, (c'.heap a).map LRUHandle.dropRing = (c.heap a).map LRUHandle.dropRing) : TableOk hash c' t := by
  have hmap {β : Type} (f : LRUHandle κ ν → β) (hf : ∀ e, f e.dropRing = f e) (a : Nat) (ha : a ∈ t) :
      (c'.heap a).map f = (c.heap a).map f := by
    have := congrArg (Option.map f) (hl a ha)
    simpa only [Option.map_map, Function.comp_def, hf] using this
  refine ⟨ht ▸ h.pow, ht ▸ h.size, ht ▸ h.elems, h.nodup, fun a ha => ?_, fun a ha b hb hk => ?_, fun i hi => ?_⟩
  · obtain ⟨e, he, hh⟩ := h.alloc a ha
    have := hmap (fun e => (e.hash, e.key_data)) (fun _ => rfl) a ha
    rw [he] at this
    obtain ⟨e', he', heq⟩ := Option.map_eq_some_iff.mp this
    obtain ⟨h1, h2⟩ := Prod.mk.inj heq
    exact ⟨e', he', by rw [h1, h2, hh]⟩
  · refine h.keys a ha b hb ?_
    simpa only [keyAt, hmap LRUHandle.key_data (fun _ => rfl) _ ha,
      hmap LRUHandle.key_data (fun _ => rfl) _ hb] using hk
  · rw [ht] at hi ⊢
    obtain ⟨l, hl1, hn, hm⟩ := h.chains i hi
    refine ⟨l, hl1.congr ?_ fun a ha => ?_, hn, fun a => (hm a).trans (and_congr_right fun ha => ?_)⟩
    · simp only [ptr, load, ht]
    · simp only [ptr, load, hmap LRUHandle.next_hash (fun _ => rfl) a ((hm a).mp ha).1]
    · exact (inBucket_congr (hmap LRUHandle.hash (fun _ => rfl) a ha) _ i).symm

theorem TableOk.relinked (h : TableOk hash c t) (hr : Relinked c c' l) : TableOk hash c' t :=
  h.congr hr.table_ fun a _ => hr.rest a

theorem TableOk.perm (h : TableOk hash c t) (hp : t.Perm t') : TableOk hash c t' where
  pow := h.pow
  size := h.size
  elems := h.elems.trans hp.length_eq
  nodup := hp.nodup h.nodup
  alloc a ha := h.alloc a (hp.mem_iff.mpr ha)
  keys a ha b hb := h.keys a (hp.mem_iff.mpr ha) b (hp.mem_iff.mpr hb)
  chains i hi := by
    obtain ⟨l, hl, hn, hm⟩ := h.chains i hi
    exact ⟨l, hl, hn, fun a => (hm a).trans (and_congr_left' hp.mem_iff)⟩

private theorem bucketOf_lt {n : Nat} (hn : ∃ k, n = 2 ^ k) (h : UInt32) : bucketOf h n < n := by
  obtain ⟨k, rfl⟩ := hn
  rw [bucketOf, Nat.and_two_pow_sub_one_eq_mod]
  exact Nat.mod_lt _ (Nat.two_pow_pos k)

private theorem store_spec (hs : (c.load s).isSome) (p : Option Nat) :
    ∃ c', c.store s p = some c' ∧ c'.ptr = Function.update c.ptr s p ∧ Rechained c c' s.entries ∧
      c'.table_.length_ = c.table_.length_ ∧ c'.table_.elems_ = c.table_.elems_ ∧
        c'.table_.list_.length = c.table_.list_.length := by
  cases s with
  | bucket i =>
    have hi : i < c.table_.list_.length := by simpa [load] using hs
    refine ⟨_, if_pos hi, ?_, ⟨fun _ => rfl, fun _ _ => rfl, rfl, rfl, rfl, rfl⟩, rfl, rfl, List.length_set⟩
    funext s'
    cases s' with
    | bucket j =>
      by_cases hj : j = i
      · simp [ptr, load, hj, hi]
      · simp [ptr, load, hj, Ne.symm hj]
    | nextHash b => rfl
  | nextHash a =>
    obtain ⟨e, he⟩ : ∃ e, c.heap a = some e := by
      simpa [load, Option.isSome_iff_exists] using hs
    refine ⟨_, change_of_some he _, ?_, ⟨fun b => ?_, fun b hb => ?_, rfl, rfl, rfl, rfl⟩, rfl, rfl, rfl⟩
    · funext s'
      cases s' with
      | bucket j => rfl
      | nextHash b => by_cases hb : b = a <;> simp [ptr, load, hb]
    · by_cases hb : b = a <;> simp [hb, he, LRUHandle.dropChain]
    · have hne : b ≠ a := fun heq => hb (heq ▸ List.mem_cons_self)
      exact Function.update_of_ne hne _ _

private theorem isSome_load_after (hs : (c.load s).isSome) (hl : ∀ a ∈ l, (c.heap a).isSome) :
    (c.load (after Slot.nextHash s l)).isSome := by
  rcases after_mem Slot.nextHash s l with h | ⟨a, ha, h⟩
  · rwa [h]
  · rw [h, load, Option.isSome_map]
    exact hl a ha

private theorem load_eq (hs : (c.load s).isSome) : c.load s = some (c.ptr s) := by
  obtain ⟨p, hp⟩ := Option.isSome_iff_exists.mp hs
  rw [ptr, hp, Option.join_some]

section find
variable {key : κ}

/-- The entry is the one that FindPointer looks for. -/
def Hit (c : LRUCache κ ν) (key : κ) (h : UInt32) (a : Nat) : Prop :=
  ∃ e, c.heap a = some e ∧ e.hash = h ∧ e.key_data = key

private theorem findFrom_spec [DecidableEq κ] (key : κ) (h : UInt32) (hl : Linked Slot.nextHash c.ptr s l)
    (hs : (c.load s).isSome) (ha : ∀ a ∈ l, (c.heap a).isSome) (hn : NoSelf c) {n : Nat} (hlen : l.length < n) :
    ∃ pre post, l = pre ++ post ∧ c.findFrom key h n s = some (after Slot.nextHash s pre) ∧
      (∀ a ∈ pre, ¬ c.Hit key h a) ∧ ∀ a, post.head? = some a → c.Hit key h a := by
  induction l generalizing s n with
  | nil =>
    obtain ⟨n, rfl⟩ := Nat.exists_eq_add_one_of_ne_zero (Nat.ne_of_gt hlen)
    refine ⟨[], [], rfl, ?_, nofun, nofun⟩
    have hnone : c.ptr s = none := hl
    simp [findFrom, load_eq hs, hnone, after]
  | cons a l ih =>
    obtain ⟨n, rfl⟩ := Nat.exists_eq_add_one_of_ne_zero (Nat.ne_of_gt (Nat.lt_of_le_of_lt (Nat.zero_le _) hlen))
    obtain ⟨e, he⟩ := Option.isSome_iff_exists.mp (ha a List.mem_cons_self)
    have hkey : e.key a = some e.key_data := if_neg (hn a e he)
    have hhit : c.Hit key h a ↔ ¬ (e.hash ≠ h ∨ key ≠ e.key_data) := by
      simp [Hit, he, eq_comm (a := key)]
    by_cases hgo : e.hash ≠ h ∨ key ≠ e.key_data
    · obtain ⟨pre, post, rfl, hfind, hpre, hpost⟩ := ih hl.2 (by simp [load, he])
        (fun b hb => ha b (List.mem_cons_of_mem a hb)) (Nat.lt_of_succ_lt_succ hlen)
      refine ⟨a :: pre, post, rfl, ?_, ?_, hpost⟩
      · simp [findFrom, load_eq hs, hl.1, he, hkey, hgo, hfind, after]
      · intro b hb
        rcases List.mem_cons.mp hb with rfl | hb
        · exact fun hh => hhit.mp hh hgo
        · exact hpre b hb
    · refine ⟨[], a :: l, rfl, ?_, nofun, ?_⟩
      · simp [findFrom, load_eq hs, hl.1, he, hkey, hgo, after]
      · intro b hb
        obtain rfl := Option.some.inj hb
        exact hhit.mpr hgo

private theorem TableOk.hit_iff (ht : TableOk hash c t) (ha : a ∈ t) :
    c.Hit key (hash key) a ↔ c.keyAt a = some key := by
  obtain ⟨e, he, hh⟩ := ht.alloc a ha
  simp only [Hit, keyAt, he, Option.map_some, Option.some.injEq, exists_eq_left']
  exact ⟨fun h => h.2, fun h => ⟨h ▸ hh, h⟩⟩

/-- The address of the pointer after some entries of the chain of a key's bucket. -/
def place (c : LRUCache κ ν) (hash : κ → UInt32) (key : κ) (pre : List Nat) : Slot :=
  after Slot.nextHash (.bucket (bucketOf (hash key) c.table_.length_)) pre

/-- What FindPointer finds: the place in the chain of the key's bucket before the entry under the
key, or the end of the chain if there is none. -/
structure Found (hash : κ → UInt32) (c : LRUCache κ ν) (t : List Nat) (key : κ) (pre post : List Nat) : Prop where
  chain : Linked Slot.nextHash c.ptr (.bucket (bucketOf (hash key) c.table_.length_)) (pre ++ post)
  nodup : (pre ++ post).Nodup
  mem : ∀ a, a ∈ pre ++ post ↔ a ∈ t ∧ c.InBucket c.table_.length_ (bucketOf (hash key) c.table_.length_) a
  head : ∀ a, post.head? = some a ↔ a ∈ t ∧ c.keyAt a = some key

theorem TableOk.find [DecidableEq κ] (ht : TableOk hash c t) (hn : NoSelf c) (key : κ) :
    ∃ pre post, Found hash c t key pre post ∧ c.findPointer key (hash key) = some (c.place hash key pre) := by
  have hi := bucketOf_lt ht.pow (hash key)
  obtain ⟨l, hl, hnd, hm⟩ := ht.chains _ hi
  have hlt : l.length < c.table_.elems_ + 1 := by
    rw [ht.elems, Nat.lt_succ_iff]
    exact (List.subperm_of_subset hnd fun a ha => ((hm a).mp ha).1).length_le
  obtain ⟨pre, post, rfl, hfind, hpre, hpost⟩ := findFrom_spec key (hash key) hl
    (by simp [load, ht.size, hi])
    (fun a ha => Option.isSome_iff_exists.mpr ((ht.alloc a ((hm a).mp ha).1).imp fun _ h => h.1)) hn hlt
  refine ⟨pre, post, ⟨hl, hnd, hm, fun a => ⟨fun hp => ?_, fun ⟨ha, hk⟩ => ?_⟩⟩, hfind⟩
  · have hat := ((hm a).mp (List.mem_append_right pre (List.mem_of_mem_head? hp))).1
    exact ⟨hat, (ht.hit_iff hat).mp (hpost a hp)⟩
  · -- the entry under the key is in the chain, and not before the place
    obtain ⟨e, he, hh⟩ := ht.alloc a ha
    have hek : e.key_data = key := by simpa [keyAt, he] using hk
    have hmem := (hm a).mpr ⟨ha, e, he, by rw [hh, hek]⟩
    rcases List.mem_append.mp hmem with hp | hp
    · exact absurd ((ht.hit_iff ha).mpr hk) (hpre a hp)
    · cases post with
      | nil => cases hp
      | cons b post =>
        have hb := ((hm b).mp (List.mem_append_right pre List.mem_cons_self)).1
        have hbk := (ht.hit_iff hb).mp (hpost b rfl)
        rw [List.head?_cons, ht.keys a ha b hb (hk.trans hbk.symm)]

private theorem Found.ptr_after {pre post : List Nat} (hf : Found hash c t key pre post) :
    c.ptr (c.place hash key pre) = post.head? := by
  have := (linked_append.mp hf.chain).2
  cases post with
  | nil => exact this
  | cons a post => exact this.1

private theorem Found.isSome_load (ht : TableOk hash c t) {pre post : List Nat} (hf : Found hash c t key pre post) :
    (c.load (c.place hash key pre)).isSome := by
  refine isSome_load_after ?_ fun a ha => ?_
  · simp [load, ht.size, bucketOf_lt ht.pow]
  · obtain ⟨e, he, -⟩ := ht.alloc a ((hf.mem a).mp (List.mem_append_left post ha)).1
    exact Option.isSome_iff_exists.mpr ⟨e, he⟩

/-- Lookup finds the entry under the key. -/
theorem TableOk.lookup [DecidableEq κ] (ht : TableOk hash c t) (hn : NoSelf c) (key : κ) :
    ∃ o, c.tableLookup key (hash key) = some o ∧ ∀ a, o = some a ↔ a ∈ t ∧ c.keyAt a = some key := by
  obtain ⟨pre, post, hf, hfind⟩ := ht.find hn key
  refine ⟨post.head?, ?_, hf.head⟩
  simp [tableLookup, hfind, load_eq (hf.isSome_load ht), hf.ptr_after]

end find

private theorem TableOk.rebucket (ht : TableOk hash c t) {i : Nat} {lc : List Nat} (hr : Rechained c c' l)
    (hlen : c'.table_.length_ = c.table_.length_) (hsize : c'.table_.list_.length = c.table_.list_.length)
    (hchain : Linked Slot.nextHash c'.ptr (.bucket i) lc) (hnd : lc.Nodup)
    (hmem : ∀ b, b ∈ lc ↔ b ∈ t' ∧ c.InBucket c.table_.length_ i b)
    (hbuckets : ∀ j, j ≠ i → c'.ptr (.bucket j) = c.ptr (.bucket j))
    (hentries : ∀ b ∈ t, ¬ c.InBucket c.table_.length_ i b → c'.ptr (.nextHash b) = c.ptr (.nextHash b))
    (hother : ∀ b, ¬ c.InBucket c.table_.length_ i b → (b ∈ t' ↔ b ∈ t)) (helems : c'.table_.elems_ = t'.length)
    (hnodup : t'.Nodup) (halloc : ∀ a ∈ t', ∃ e, c.heap a = some e ∧ e.hash = hash e.key_data)
    (hkeys : ∀ a ∈ t', ∀ b ∈ t', c.keyAt a = c.keyAt b → a = b) : TableOk hash c' t' := by
  refine ⟨hlen ▸ ht.pow, by rw [hsize, hlen, ht.size], helems, hnodup, fun a ha => ?_, fun a ha b hb hk => ?_,
    fun j hj => ?_⟩
  · exact hr.hashed (halloc a ha)
  · refine hkeys a ha b hb ?_
    simpa only [keyAt, hr.map_eq (f := LRUHandle.key_data) (fun _ => rfl)] using hk
  · rw [hlen] at hj ⊢
    simp only [hr.inBucket]
    by_cases hji : j = i
    · subst hji
      exact ⟨lc, hchain, hnd, hmem⟩
    · obtain ⟨lj, hlj, hnj, hmj⟩ := ht.chains j hj
      have hnot (b : Nat) (hb : c.InBucket c.table_.length_ j b) : ¬ c.InBucket c.table_.length_ i b := by
        rintro ⟨e', he', hi⟩
        obtain ⟨e, he, hj'⟩ := hb
        obtain rfl := Option.some.inj (he.symm.trans he')
        exact hji (hj'.symm.trans hi)
      refine ⟨lj, hlj.congr (hbuckets j hji) fun b hb => ?_, hnj, fun b => (hmj b).trans (and_congr_left fun hb => ?_)⟩
      · exact hentries b ((hmj b).mp hb).1 (hnot b ((hmj b).mp hb).2)
      · exact (hother b (hnot b hb)).symm

section update
variable {key : κ} {pre post : List Nat}

private theorem Found.slot_cases (hf : Found hash c t key pre post) :
    c.place hash key pre =
        .bucket (bucketOf (hash key) c.table_.length_) ∨
      ∃ b ∈ pre, b ∈ t ∧ c.InBucket c.table_.length_ (bucketOf (hash key) c.table_.length_) b ∧
        c.place hash key pre = .nextHash b := by
  rcases after_mem Slot.nextHash (.bucket (bucketOf (hash key) c.table_.length_)) pre with h | ⟨b, hb, h⟩
  · exact .inl h
  · obtain ⟨hbt, hbi⟩ := (hf.mem b).mp (List.mem_append_left post hb)
    exact .inr ⟨b, hb, hbt, hbi, h⟩

/-- It is in no other entry. -/
theorem Found.place_ne (hf : Found hash c t key pre post) {b : Nat} (hb : b ∉ pre) :
    .nextHash b ≠ c.place hash key pre := by
  rcases hf.slot_cases with h | ⟨x, hx, _, _, h⟩
  · rw [h]
    simp
  · rw [h]
    exact fun heq => hb (Slot.nextHash.inj heq ▸ hx)

private theorem Found.nodup_slots (hf : Found hash c t key pre post) (i : Nat) :
    (Slot.bucket i :: pre.map Slot.nextHash).Nodup := by
  refine List.nodup_cons.mpr ⟨by simp, (List.nodup_append.mp hf.nodup).1.map fun a b h => ?_⟩
  exact Slot.nextHash.inj h

/-- Storing at the pointer changes the chain of the key's bucket behind that pointer, and no other
chain. -/
theorem TableOk.splice (ht : TableOk hash c t) (hf : Found hash c t key pre post) (post' : List Nat)
    (hr : Rechained c c' l) (hlen : c'.table_.length_ = c.table_.length_)
    (hsize : c'.table_.list_.length = c.table_.list_.length)
    (hptr : ∀ s, s ≠ c.place hash key pre →
      (∀ b, s = .nextHash b → b ∈ t) → c'.ptr s = c.ptr s)
    (hpost : Linked Slot.nextHash c'.ptr (c.place hash key pre) post')
    (hnd : (pre ++ post').Nodup)
    (hmem : ∀ b, b ∈ pre ++ post' ↔ b ∈ t' ∧ c.InBucket c.table_.length_ (bucketOf (hash key) c.table_.length_) b)
    (hother : ∀ b, ¬ c.InBucket c.table_.length_ (bucketOf (hash key) c.table_.length_) b → (b ∈ t' ↔ b ∈ t))
    (helems : c'.table_.elems_ = t'.length) (hnodup : t'.Nodup)
    (halloc : ∀ a ∈ t', ∃ e, c.heap a = some e ∧ e.hash = hash e.key_data)
    (hkeys : ∀ a ∈ t', ∀ b ∈ t', c.keyAt a = c.keyAt b → a = b) : TableOk hash c' t' := by
  refine ht.rebucket hr hlen hsize (hf.chain.splice (hf.nodup_slots _) (fun s hs hne => hptr s hne fun b hb => ?_) hpost)
    hnd hmem (fun j hj => ?_) (fun b hb hbi => ?_) hother helems hnodup halloc hkeys
  · subst hb
    obtain ⟨x, hx, heq⟩ := List.mem_map.mp ((List.mem_cons.mp hs).resolve_left (by simp))
    exact Slot.nextHash.inj heq ▸ ((hf.mem x).mp (List.mem_append_left post hx)).1
  · refine hptr _ (fun heq => ?_) nofun
    rcases hf.slot_cases with h | ⟨b, _, _, _, h⟩
    · exact hj (Slot.bucket.inj (heq.trans h))
    · cases heq.trans h
  · refine hptr _ (fun heq => ?_) fun b' hb' => Slot.nextHash.inj hb' ▸ hb
    rcases hf.slot_cases with h | ⟨b', _, _, hb', h⟩
    · cases heq.trans h
    · exact hbi (Slot.nextHash.inj (heq.trans h) ▸ hb')

theorem Found.mem_entries (hf : Found hash c t key pre post) {b : Nat}
    (hb : b ∈ (c.place hash key pre).entries) : b ∈ t := by
  rcases hf.slot_cases with h | ⟨x, _, hx, _, h⟩
  · rw [h] at hb
    cases hb
  · rw [h] at hb
    exact List.mem_singleton.mp hb ▸ hx

/-- Remove takes the entry under the key out of the table. -/
theorem TableOk.remove [DecidableEq κ] (ht : TableOk hash c t) (hn : NoSelf c) (key : κ) :
    ∃ c' o, c.tableRemove key (hash key) = some (c', o) ∧ (∀ a, o = some a ↔ a ∈ t ∧ c.keyAt a = some key) ∧
      TableOk hash c' (o.elim t t.erase) ∧ Rechained c c' t ∧ c'.table_.length_ = c.table_.length_ := by
  obtain ⟨pre, post, hf, hfind⟩ := ht.find hn key
  have hload := (load_eq (hf.isSome_load ht)).trans (congrArg some hf.ptr_after)
  cases post with
  | nil =>
    refine ⟨c, none, ?_, hf.head, ht, .refl c t, rfl⟩
    simp [tableRemove, hfind, hload]
  | cons a post =>
    have hat := ((hf.head a).mp rfl).1
    obtain ⟨e, he, -⟩ := ht.alloc a hat
    have hnext : e.next_hash = c.ptr (.nextHash a) := by simp [ptr, load, he]
    obtain ⟨c', hstore, hptr, hr, hlen, hel, hsize⟩ := store_spec (hf.isSome_load ht) e.next_hash
    have hnd : (pre ++ post).Nodup := (List.nodup_cons.mp (List.nodup_middle.mp hf.nodup)).2
    have hapost : a ∉ pre ++ post := (List.nodup_cons.mp (List.nodup_middle.mp hf.nodup)).1
    refine ⟨{ c' with table_.elems_ := c'.table_.elems_ - 1 }, some a, ?_, hf.head, ?_, ?_, hlen⟩
    · simp [tableRemove, hfind, hload, he, hstore]
    · change TableOk hash _ (t.erase a)
      have hmem (b : Nat) : b ∈ t.erase a ↔ b ≠ a ∧ b ∈ t := ht.nodup.mem_erase_iff
      refine ht.splice (l := t) hf post ?_ hlen hsize (fun s hs _ => ?_) ?_ hnd (fun b => ?_) (fun b hb => ?_) ?_
        (ht.nodup.erase a) (fun b hb => ht.alloc b ((hmem b).mp hb).2)
        (fun b hb b' hb' => ht.keys b ((hmem b).mp hb).2 b' ((hmem b').mp hb').2)
      · exact { hr.mono fun b hb => hf.mem_entries hb with }
      · exact (congrFun hptr s).trans (Function.update_of_ne hs _ _)
      · have htail := (linked_append.mp hf.chain).2.2
        refine htail.congr ?_ fun b hb => ?_
        · exact (congrFun hptr _).trans ((Function.update_self _ _ _).trans hnext)
        · refine (congrFun hptr (.nextHash b)).trans (Function.update_of_ne ?_ _ _)
          exact hf.place_ne fun hp => (List.nodup_append.mp hnd).2.2 b hp b hb rfl
      · rw [hmem, and_assoc, ← hf.mem]
        simp only [List.mem_append, List.mem_cons]
        constructor
        · intro hb
          exact ⟨fun heq => hapost (heq ▸ List.mem_append.mpr hb), hb.imp_right .inr⟩
        · rintro ⟨hne, hb⟩
          exact hb.imp_right fun h => h.resolve_left hne
      · rw [hmem]
        refine ⟨fun h => h.2, fun h => ⟨fun heq => hb (heq ▸ ?_), h⟩⟩
        exact ((hf.mem a).mp (List.mem_append_right pre List.mem_cons_self)).2
      · rw [List.length_erase_of_mem hat, ← ht.elems, ← hel]
    · exact { hr.mono fun b hb => hf.mem_entries hb with }

/-- An entry is linked in at the pointer that FindPointer gave. -/
theorem TableOk.link (ht : TableOk hash c t) (hf : Found hash c t key pre post) {e : LRUHandle κ ν}
    (he : c.heap a = some e) (p : Option Nat) :
    ∃ c₁ c₂, (c.change a fun h => { h with next_hash := p }) = some c₁ ∧
      c₁.store (c.place hash key pre) (some a) = some c₂ ∧
      c₂.ptr = Function.update (Function.update c.ptr (.nextHash a) p) (c.place hash key pre) (some a) ∧
      Rechained c c₂ (a :: t) ∧ c₂.table_.length_ = c.table_.length_ ∧ c₂.table_.elems_ = c.table_.elems_ ∧
        c₂.table_.list_.length = c.table_.list_.length := by
  obtain ⟨c₁, h₁, hp₁, hr₁, hl₁, he₁, hs₁⟩ := store_spec (c := c) (s := .nextHash a) (by simp [load, he]) p
  have hsome : (c₁.load (c.place hash key pre)).isSome := by
    rcases hf.slot_cases with h | ⟨b, _, hbt, _, h⟩
    · rw [h]
      simp [load, hs₁, ht.size, bucketOf_lt ht.pow]
    · obtain ⟨eb, heb, -⟩ := ht.alloc b hbt
      obtain ⟨eb', heb', -⟩ := hr₁.entry heb
      rw [h]
      simp [load, heb']
  obtain ⟨c₂, h₂, hp₂, hr₂, hl₂, he₂, hs₂⟩ := store_spec hsome (some a)
  refine ⟨c₁, c₂, h₁, h₂, by rw [hp₂, hp₁], ?_, hl₂.trans hl₁, he₂.trans he₁, hs₂.trans hs₁⟩
  refine (hr₁.mono fun b hb => ?_).trans (hr₂.mono fun b hb => ?_) fun _ h => h
  · exact List.mem_singleton.mp hb ▸ List.mem_cons_self
  · exact List.mem_cons_of_mem a (hf.mem_entries hb)

private theorem TableOk.insert_entry (ht : TableOk hash c t) (hf : Found hash c t key pre post) {e : LRUHandle κ ν}
    (he : c.heap a = some e) (hh : e.hash = hash e.key_data) (hk : e.key_data = key) (ha : a ∉ t)
    (hr : Rechained c c' (a :: t)) (hlen : c'.table_.length_ = c.table_.length_)
    (hsize : c'.table_.list_.length = c.table_.list_.length)
    (hptr : c'.ptr = Function.update (Function.update c.ptr (.nextHash a)
      ((post.head?).bind fun o => c.ptr (.nextHash o))) (c.place hash key pre) (some a))
    (helems : c'.table_.elems_ = (post.head?.elim t t.erase).length + 1) :
    TableOk hash c' (a :: post.head?.elim t t.erase) := by
  have hapre : a ∉ pre ++ post := fun hm => ha ((hf.mem a).mp hm).1
  have hbucket : c.InBucket c.table_.length_ (bucketOf (hash key) c.table_.length_) a := ⟨e, he, by rw [hh, hk]⟩
  have hkey : c.keyAt a = some key := by simp [keyAt, he, hk]
  have hne := hf.place_ne fun hp => hapre (List.mem_append_left post hp)
  have hsub : ∀ b, b ∈ post.head?.elim t t.erase ↔ b ∈ t ∧ post.head? ≠ some b := by
    intro b
    cases post with
    | nil => simp
    | cons o post => simp [ht.nodup.mem_erase_iff, and_comm, eq_comm]
  have hnd' : (post.head?.elim t t.erase).Nodup := by
    cases post with
    | nil => exact ht.nodup
    | cons o post => exact ht.nodup.erase o
  refine ht.splice (l := a :: t) hf (a :: post.tail) hr hlen hsize (fun s hs hst => ?_) ⟨?_, ?_⟩ ?_ (fun b => ?_)
    (fun b hb => ?_) helems (List.nodup_cons.mpr ⟨fun hm => ha ((hsub a).mp hm).1, hnd'⟩) (fun b hb => ?_)
      (fun b hb b' hb' => ?_)
  · rw [hptr, Function.update_of_ne hs, Function.update_of_ne fun heq => ha (hst a heq)]
  · rw [hptr, Function.update_self]
  · cases post with
    | nil =>
      refine (congrFun hptr _).trans ?_
      rw [Function.update_of_ne hne, Function.update_self]
      rfl
    | cons o post =>
      refine (linked_append.mp hf.chain).2.2.congr ?_ fun b hb => ?_
      · rw [hptr, Function.update_of_ne hne, Function.update_self]
        rfl
      · have hbpre : b ∉ pre := fun hp =>
          (List.nodup_append.mp hf.nodup).2.2 b hp b (List.mem_cons_of_mem o hb) rfl
        have hba : b ≠ a := fun heq => hapre (heq ▸ List.mem_append_right pre (List.mem_cons_of_mem o hb))
        rw [hptr, Function.update_of_ne (hf.place_ne hbpre), Function.update_of_ne fun heq =>
          hba (Slot.nextHash.inj heq)]
  · have hsl : (pre ++ post.tail).Sublist (pre ++ post) := (List.tail_sublist post).append_left pre
    exact List.nodup_middle.mpr (List.nodup_cons.mpr ⟨fun hm => hapre (hsl.subset hm), hf.nodup.sublist hsl⟩)
  · rw [List.mem_cons, hsub]
    by_cases hba : b = a
    · simp [hba, hbucket]
    · have hm := hf.mem b
      cases post with
      | nil => simpa [hba] using hm
      | cons o post =>
        by_cases hbo : b = o
        · have ho : o ∉ pre ++ post := (List.nodup_cons.mp (List.nodup_middle.mp hf.nodup)).1
          subst hbo
          simpa [hba] using ho
        · simpa [hba, hbo, Ne.symm hbo] using hm
  · rw [List.mem_cons, hsub]
    have hba : b ≠ a := fun heq => hb (heq ▸ hbucket)
    refine ⟨fun h => (h.resolve_left hba).1, fun h => .inr ⟨h, fun heq => hb ?_⟩⟩
    exact ((hf.mem b).mp (List.mem_append_right pre (List.mem_of_mem_head? heq))).2
  · rcases List.mem_cons.mp hb with rfl | hb
    · exact ⟨e, he, hh⟩
    · exact ht.alloc b ((hsub b).mp hb).1
  · -- no other entry has the key
    have hother (x : Nat) (hx : x ∈ post.head?.elim t t.erase) : c.keyAt x ≠ some key := fun hxk =>
      ((hsub x).mp hx).2 ((hf.head x).mpr ⟨((hsub x).mp hx).1, hxk⟩)
    intro hkk
    rcases List.mem_cons.mp hb with h₁ | h₁ <;> rcases List.mem_cons.mp hb' with h₂ | h₂
    · exact h₁.trans h₂.symm
    · exact absurd (hkk.symm.trans (h₁ ▸ hkey)) (hother b' h₂)
    · exact absurd (hkk.trans (h₂ ▸ hkey)) (hother b h₁)
    · exact ht.keys b ((hsub b).mp h₁).1 b' ((hsub b').mp h₂).1 hkk

end update

private theorem newLength_spec {elems : Nat} (helems : elems ≤ 2 ^ 31) :
    ∀ n m, (∃ k ≤ 31, m = 2 ^ k) → elems ≤ m * 2 ^ n → (∃ k, newLength elems n m = 2 ^ k) ∧ elems ≤ newLength elems n m
  | 0, m, ⟨k, _, hk⟩, h => ⟨⟨k, hk⟩, by simpa [newLength] using h⟩
  | n + 1, m, ⟨k, hle, hk⟩, h => by
    unfold newLength
    split
    · rename_i hlt
      have hk' : k < 31 := (Nat.pow_lt_pow_iff_right (show 1 < 2 by decide)).mp (hk ▸ Nat.lt_of_lt_of_le hlt helems)
      have hdouble : m * 2 = 2 ^ (k + 1) := by rw [hk, Nat.pow_succ]
      have hwrap : m * 2 < 2 ^ 32 := hdouble ▸ Nat.pow_lt_pow_right (by decide) (Nat.succ_lt_succ hk')
      rw [Nat.mod_eq_of_lt hwrap]
      refine newLength_spec helems n (m * 2) ⟨k + 1, hk', hdouble⟩ ?_
      rwa [Nat.mul_assoc, ← Nat.pow_succ']
    · exact ⟨⟨k, hk⟩, by omega⟩

/-- The old buckets are left alone while the new ones are filled with the entries `d`. -/
structure Moved (n : Nat) (c₀ : LRUCache κ ν) (r : LRUCache κ ν × List (Option Nat) × Nat) (d : List Nat) : Prop where
  rechained : Rechained c₀ r.1 d
  table_ : r.1.table_ = c₀.table_
  size : r.2.1.length = n
  count : r.2.2 = d.length
  nodup : d.Nodup
  chains : ∀ i < n, ∃ l, Linked Slot.nextHash ({ r.1 with table_.list_ := r.2.1 } : LRUCache κ ν).ptr (.bucket i) l ∧
    l.Nodup ∧ ∀ a, a ∈ l ↔ a ∈ d ∧ c₀.InBucket n i a

section resize
variable {n : Nat} {c₀ : LRUCache κ ν} {r : LRUCache κ ν × List (Option Nat) × Nat} {d : List Nat}

/-- An entry goes to the front of its new bucket. -/
theorem Moved.push (hm : Moved n c₀ r d) (hn : ∃ k, n = 2 ^ k) {e : LRUHandle κ ν} (he : c₀.heap a = some e)
    (ha : a ∉ d) :
    ∃ p c', r.1.heap a = some e ∧ r.2.1[bucketOf e.hash n]? = some p ∧
      (r.1.change a fun e => { e with next_hash := p }) = some c' ∧
      Moved n c₀ (c', r.2.1.set (bucketOf e.hash n) (some a), r.2.2 + 1) (a :: d) := by
  obtain ⟨c, new_list, count⟩ := r
  have hlt : bucketOf e.hash n < new_list.length := hm.size ▸ bucketOf_lt hn e.hash
  have hea : c.heap a = some e := (hm.rechained.frame a ha).trans he
  have hbucket : c₀.InBucket n (bucketOf e.hash n) a := ⟨e, he, rfl⟩
  refine ⟨new_list[bucketOf e.hash n], _, hea, List.getElem?_eq_getElem hlt, change_of_some hea _, ?_⟩
  refine ⟨⟨fun b => ?_, fun b hb => ?_, hm.rechained.lru_next, hm.rechained.lru_prev, hm.rechained.capacity_,
    hm.rechained.usage_⟩, hm.table_, (List.length_set).trans hm.size, ?_, List.nodup_cons.mpr ⟨ha, hm.nodup⟩,
      fun i hi => ?_⟩
  · refine Eq.trans ?_ (hm.rechained.rest b)
    by_cases hb : b = a <;> simp [hb, hea, LRUHandle.dropChain]
  · obtain ⟨hba, hbd⟩ := not_or.mp (mt List.mem_cons.mpr hb)
    exact (Function.update_of_ne hba _ _).trans (hm.rechained.frame b hbd)
  · rw [List.length_cons, hm.count]
  · obtain ⟨l, hl, hnl, hml⟩ := hm.chains i hi
    have hal : a ∉ l := fun h => ha ((hml a).mp h).1
    have hptr (b : Nat) (hb : b ∈ l) :
        ({ c with
            heap := Function.update c.heap a (some { e with next_hash := new_list[bucketOf e.hash n] })
            table_.list_ := new_list.set (bucketOf e.hash n) (some a) } : LRUCache κ ν).ptr (.nextHash b) =
          ({ c with table_.list_ := new_list } : LRUCache κ ν).ptr (.nextHash b) := by
      have hba : b ≠ a := fun heq => hal (heq ▸ hb)
      simp [ptr, load, hba]
    by_cases hji : i = bucketOf e.hash n
    · refine ⟨a :: l, ⟨?_, hl.congr ?_ hptr⟩, List.nodup_cons.mpr ⟨hal, hnl⟩, fun b => ?_⟩
      · simp [ptr, load, hji, hlt]
      · simp [ptr, load, hji, hlt]
      · rw [List.mem_cons, List.mem_cons, hml]
        by_cases hb : b = a
        · simp [hb, hji, hbucket]
        · simp [hb]
    · refine ⟨l, hl.congr ?_ hptr, hnl, fun b => (hml b).trans (and_congr_left fun hb => ?_)⟩
      · simp [ptr, load, Ne.symm hji]
      · have hba : b ≠ a := by
          rintro rfl
          obtain ⟨e', he', hi'⟩ := hb
          obtain rfl := Option.some.inj (he.symm.trans he')
          exact hji hi'.symm
        rw [List.mem_cons, or_iff_right hba]

private theorem Moved.chain (hm : Moved n c₀ r d) (hn : ∃ k, n = 2 ^ k) (hl : Linked Slot.nextHash c₀.ptr s l)
    (hnd : l.Nodup) (hd : ∀ a ∈ l, a ∉ d) (ha : ∀ a ∈ l, (c₀.heap a).isSome) {m : Nat} (hlen : l.length ≤ m) :
    ∃ r', moveChain n m (c₀.ptr s) r = some r' ∧ Moved n c₀ r' (l.reverse ++ d) := by
  induction l generalizing s r d m with
  | nil =>
    have hnone : c₀.ptr s = none := hl
    exact ⟨r, by rw [hnone]; cases m <;> rfl, hm⟩
  | cons a l ih =>
    obtain ⟨m, rfl⟩ := Nat.exists_eq_add_one_of_ne_zero (Nat.ne_of_gt (Nat.lt_of_lt_of_le (Nat.succ_pos _) hlen))
    obtain ⟨e, he⟩ := Option.isSome_iff_exists.mp (ha a List.mem_cons_self)
    obtain ⟨hal, hnl⟩ := List.nodup_cons.mp hnd
    obtain ⟨p, c', hea, hp, hc, hm'⟩ := hm.push hn he (hd a List.mem_cons_self)
    have hnext : e.next_hash = c₀.ptr (.nextHash a) := by simp [ptr, load, he]
    obtain ⟨r', hr', hm''⟩ := ih hm' hl.2 hnl
      (fun b hb hbd => (List.mem_cons.mp hbd).elim (fun heq => hal (heq ▸ hb)) (hd b (List.mem_cons_of_mem a hb)))
      (fun b hb => ha b (List.mem_cons_of_mem a hb)) (Nat.le_of_succ_le_succ hlen)
    refine ⟨r', ?_, by simpa using hm''⟩
    rw [hl.1, ← hr', ← hnext]
    obtain ⟨c, new_list, count⟩ := r
    simp only at hea hp hc
    simp [moveChain, hea, hp, hc]

private theorem Moved.chains_from (ht : TableOk hash c₀ t) (hn : ∃ k, n = 2 ^ k) (ps : List (Option Nat)) :
    ∀ {i : Nat} {r : LRUCache κ ν × List (Option Nat) × Nat} {d : List Nat}, Moved n c₀ r d →
      ps = c₀.table_.list_.drop i →
      (∀ a, a ∈ d ↔ a ∈ t ∧ ∃ j < i, c₀.InBucket c₀.table_.length_ j a) →
      ∃ r' d', moveChains n c₀.table_.elems_ ps r = some r' ∧ Moved n c₀ r' d' ∧
        ∀ a, a ∈ d' ↔ a ∈ t ∧ ∃ j < i + ps.length, c₀.InBucket c₀.table_.length_ j a := by
  induction ps with
  | nil => exact fun {i r d} hm _ hd => ⟨r, d, rfl, hm, by simpa using hd⟩
  | cons p ps ih =>
    intro i r d hm hps hd
    have hi : i < c₀.table_.list_.length := by
      by_contra hge
      rw [List.drop_eq_nil_of_le (Nat.le_of_not_lt hge)] at hps
      cases hps
    rw [List.drop_eq_getElem_cons hi] at hps
    obtain ⟨rfl, rfl⟩ := List.cons.inj hps
    obtain ⟨l, hl, hnd, hml⟩ := ht.chains i (ht.size ▸ hi)
    have hptr : c₀.ptr (.bucket i) = c₀.table_.list_[i] := by simp [ptr, load, hi]
    have huniq (a j j' : Nat) (h : c₀.InBucket c₀.table_.length_ j a) (h' : c₀.InBucket c₀.table_.length_ j' a) :
        j = j' := by
      obtain ⟨e, he, hj⟩ := h
      obtain ⟨e', he', hj'⟩ := h'
      obtain rfl := Option.some.inj (he.symm.trans he')
      exact hj.symm.trans hj'
    have hfuel : l.length ≤ c₀.table_.elems_ := by
      rw [ht.elems]
      exact (List.subperm_of_subset hnd fun a ha => ((hml a).mp ha).1).length_le
    obtain ⟨r₁, hr₁, hm₁⟩ := hm.chain hn hl hnd
      (fun a ha had => by
        obtain ⟨j, hj, hb⟩ := ((hd a).mp had).2
        exact Nat.ne_of_lt hj (huniq a j i hb ((hml a).mp ha).2))
      (fun a ha => Option.isSome_iff_exists.mpr ((ht.alloc a ((hml a).mp ha).1).imp fun _ h => h.1)) hfuel
    obtain ⟨r', d', hr', hm', hd'⟩ := ih hm₁ rfl fun a => by
      rw [List.mem_append, List.mem_reverse, hml, hd]
      constructor
      · rintro (⟨ha, hb⟩ | ⟨ha, j, hj, hb⟩)
        · exact ⟨ha, i, Nat.lt_succ_self i, hb⟩
        · exact ⟨ha, j, Nat.lt_succ_of_lt hj, hb⟩
      · rintro ⟨ha, j, hj, hb⟩
        rcases Nat.lt_succ_iff_lt_or_eq.mp hj with hj | rfl
        · exact .inr ⟨ha, j, hj, hb⟩
        · exact .inl ⟨ha, hb⟩
    refine ⟨r', d', ?_, hm', fun a => ?_⟩
    · rw [moveChains, ← hptr, hr₁]
      exact hr'
    · rw [hd', List.length_cons, Nat.add_right_comm, Nat.add_assoc]

/-- Resize gives a table with the same entries, and at least as many buckets. -/
theorem TableOk.resize (ht : TableOk hash c t) (hroom : t.length ≤ 2 ^ 31) :
    ∃ c', c.resize = some c' ∧ TableOk hash c' t ∧ Rechained c c' t ∧ c'.table_.elems_ ≤ c'.table_.length_ := by
  let n := newLength c.table_.elems_ c.table_.elems_ 4
  obtain ⟨hn, hle⟩ : (∃ k, n = 2 ^ k) ∧ c.table_.elems_ ≤ n := by
    refine newLength_spec (ht.elems ▸ hroom) _ _ ⟨2, by decide, rfl⟩ ?_
    have := Nat.lt_two_pow_self (n := c.table_.elems_)
    omega
  have hstart : Moved n c (c, List.replicate n none, 0) [] := by
    refine ⟨.refl c [], rfl, List.length_replicate, rfl, List.nodup_nil, fun i hi => ⟨[], ?_, List.nodup_nil, by simp⟩⟩
    simp [Linked, ptr, load, hi]
  obtain ⟨r, d, hr, hm, hd⟩ := hstart.chains_from ht hn c.table_.list_ (i := 0) rfl (by simp)
  have hdt (a : Nat) : a ∈ d ↔ a ∈ t := by
    rw [hd]
    refine ⟨fun h => h.1, fun h => ⟨h, ?_⟩⟩
    obtain ⟨e, he, -⟩ := ht.alloc a h
    refine ⟨bucketOf e.hash c.table_.length_, ?_, e, he, rfl⟩
    rw [Nat.zero_add, ht.size]
    exact bucketOf_lt ht.pow e.hash
  have hperm : d.Perm t := (List.perm_ext_iff_of_nodup hm.nodup ht.nodup).mpr hdt
  obtain ⟨c₁, new_list, count⟩ := r
  have hcount : c₁.table_.elems_ = count := by
    rw [hm.table_, ht.elems, ← hperm.length_eq]
    exact hm.count.symm
  refine ⟨{ c₁ with table_ := ⟨n, c₁.table_.elems_, new_list⟩ }, ?_, TableOk.perm ?_ hperm, ?_, ?_⟩
  · simp only [LRUCache.resize, Option.bind_eq_bind]
    rw [show moveChains (newLength c.table_.elems_ c.table_.elems_ 4) c.table_.elems_ c.table_.list_
      (c, List.replicate (newLength c.table_.elems_ c.table_.elems_ 4) none, 0) = some (c₁, new_list, count) from hr]
    simp [hcount, n]
  · refine ⟨hn, hm.size, hcount.trans hm.count, hm.nodup, fun a ha => ?_, fun a ha b hb hk => ?_, fun i hi => ?_⟩
    · exact hm.rechained.hashed (ht.alloc a ((hdt a).mp ha))
    · refine ht.keys a ((hdt a).mp ha) b ((hdt b).mp hb) ?_
      have hkey := hm.rechained.map_eq (f := LRUHandle.key_data) fun _ => rfl
      simpa only [keyAt, hkey] using hk
    · obtain ⟨l, hl, hnl, hml⟩ := hm.chains i hi
      exact ⟨l, hl, hnl, fun a => (hml a).trans (and_congr_right fun _ => (hm.rechained.inBucket n i a).symm)⟩
  · exact { hm.rechained.mono fun a ha => (hdt a).mp ha with }
  · show c₁.table_.elems_ ≤ n
    rwa [hm.table_]

end resize

/-- Insert puts the entry under its key, in place of the one that was there, and keeps the table at
least as long as it has entries. -/
theorem TableOk.insert [DecidableEq κ] (ht : TableOk hash c t) (hn : NoSelf c) {e : LRUHandle κ ν}
    (he : c.heap a = some e) (hh : e.hash = hash e.key_data) (ha : a ∉ t) (hb : c.table_.elems_ ≤ c.table_.length_)
    (hroom : t.length < 2 ^ 31) :
    ∃ c' o, c.tableInsert a = some (c', o) ∧ (∀ b, o = some b ↔ b ∈ t ∧ c.keyAt b = some e.key_data) ∧
      TableOk hash c' (a :: o.elim t t.erase) ∧ Rechained c c' (a :: t) ∧ c'.table_.elems_ ≤ c'.table_.length_ := by
  have hkey : e.key a = some e.key_data := if_neg (hn a e he)
  obtain ⟨pre, post, hf, hfind⟩ := ht.find hn e.key_data
  rw [← hh] at hfind
  have hload := (load_eq (hf.isSome_load ht)).trans (congrArg some hf.ptr_after)
  cases post with
  | nil =>
    obtain ⟨c₁, c₂, h₁, h₂, hptr, hr, hlen, hel, hsize⟩ := ht.link hf he none
    have hok : TableOk hash { c₂ with table_.elems_ := c₂.table_.elems_ + 1 } (a :: t) :=
      ht.insert_entry hf he hh rfl ha { hr with } hlen hsize hptr (congrArg (· + 1) (hel.trans ht.elems))
    have hwrap : (c₂.table_.elems_ + 1) % 2 ^ 32 = c₂.table_.elems_ + 1 := by
      have := hel.trans ht.elems
      omega
    by_cases hfull : c₂.table_.length_ < c₂.table_.elems_ + 1
    · obtain ⟨c₃, h₃, hok₃, hr₃, hb₃⟩ := hok.resize hroom
      refine ⟨c₃, none, ?_, hf.head, hok₃, ?_, hb₃⟩
      · simp only [tableInsert, he, hkey, hfind, hload, List.head?_nil, h₁, h₂, h₃, Option.bind_eq_bind,
          Option.bind_some, hwrap, if_pos hfull, Option.map_some]
      · have hr' : Rechained c { c₂ with table_.elems_ := c₂.table_.elems_ + 1 } (a :: t) := { hr with }
        exact hr'.trans hr₃ fun _ h => h
    · refine ⟨_, none, ?_, hf.head, hok, { hr with }, Nat.le_of_not_lt hfull⟩
      simp only [tableInsert, he, hkey, hfind, hload, List.head?_nil, h₁, h₂, Option.bind_eq_bind, Option.bind_some,
        hwrap, if_neg hfull]
  | cons old post =>
    have hold := ((hf.head old).mp rfl).1
    obtain ⟨o, ho, -⟩ := ht.alloc old hold
    have hnext : o.next_hash = c.ptr (.nextHash old) := by simp [ptr, load, ho]
    obtain ⟨c₁, c₂, h₁, h₂, hptr, hr, hlen, hel, hsize⟩ := ht.link hf he o.next_hash
    have hlen' : (t.erase old).length + 1 = t.length := by
      rw [List.length_erase_of_mem hold]
      have := List.length_pos_of_mem hold
      omega
    have hok : TableOk hash c₂ (a :: t.erase old) :=
      ht.insert_entry hf he hh rfl ha hr hlen hsize (by rw [hptr, hnext]; rfl) (by
        rw [hel, ht.elems]
        exact hlen'.symm)
    refine ⟨c₂, some old, ?_, hf.head, hok, hr, by omega⟩
    simp [tableInsert, he, hkey, hfind, hload, ho, h₁, h₂]

end

end LRUCache
end TableFS.Leveldb
