import TableFS.InodeCache

/-! What the operations of the inode cache do, for any reference counts and any evictions:
one lemma for each primitive, and one for each sequence of primitives that an operation of
the file system performs on one or two inodes. -/
namespace TableFS.InodeCache
open PinnedLru LRUCache

def pin (f : Nat → Nat) (i : Nat) : Nat → Nat := Function.update f i (f i + 1)

def unpin (f : Nat → Nat) (i : Nat) : Nat → Nat := Function.update f i (f i - 1)

@[simp] theorem pin_self (f : Nat → Nat) (i : Nat) : pin f i i = f i + 1 := by simp [pin]

theorem pin_ne (f : Nat → Nat) {i j : Nat} (h : j ≠ i) : pin f i j = f j := by simp [pin, h]

private theorem le_pin (f : Nat → Nat) (i j : Nat) : f j ≤ pin f i j := by
  by_cases h : j = i
  · subst h
    simp
  · rw [pin_ne f h]

@[simp] theorem unpin_self (f : Nat → Nat) (i : Nat) : unpin f i i = f i - 1 := by simp [unpin]

theorem unpin_ne (f : Nat → Nat) {i j : Nat} (h : j ≠ i) : unpin f i j = f j := by simp [unpin, h]

@[simp] theorem unpin_pin (f : Nat → Nat) (i : Nat) : unpin (pin f i) i = f := by
  funext j
  by_cases h : j = i
  · subst h
    simp
  · rw [unpin_ne _ h, pin_ne _ h]

/-- Reference counts are exact, and an entry of the table that no writer holds is clean:
dropping it changes nothing. `pins` counts all references of callers, `writers` those
that may have left the entry dirty. -/
structure Sound (ic : InodeCache) (pins writers : Nat → Nat) : Prop where
  counted : ic.cache.Counted pins
  clean : ∀ k i h, ic.table k = some i → ic.handle i = some (k, h) → writers i = 0 → h.mode_ = .read
  le : ∀ i, writers i ≤ pins i

/-- After a handle was placed under a key: the table holds nothing else that is new. -/
structure Placed (ic ic' : InodeCache) (key : MetaKey) (i : Nat) (h : InodeCacheHandle) : Prop where
  metadb : ic'.metadb = ic.metadb
  self : ic'.handle i = some (key, h)
  others : ∀ j, j ≠ i → ic'.handle j = ic.handle j
  table : ∀ k j, ic'.table k = some j → (k = key ∧ j = i) ∨ (k ≠ key ∧ ic.table k = some j)

/-- Where a handle returned by Get comes from: it was in the table, or it is a new copy
of the record in the store. -/
inductive Origin (ic ic' : InodeCache) (key : MetaKey) (mode : InodeAccessMode) (i : Nat) :
    InodeCacheHandle → Prop where
  | hit (h : InodeCacheHandle) : ic.table key = some i → ic.handle i = some (key, h) →
      ic'.table key = some i → Origin ic ic' key mode i (h.access mode)
  | miss (v : Value) : ic.table key = none → ic.metadb.lookup key = some v →
      i = ic.cache.heap.length → Origin ic ic' key mode i ⟨v, mode⟩

section Spec
variable {ic : InodeCache} {pins writers : Nat → Nat}

theorem Sound.quiet (hs : Sound ic pins writers) : Quiet cleanInodeHandle ic.cache pins := by
  intro k i h w ht hp hd
  have hw : writers i = 0 := Nat.le_zero.mp (hp ▸ hs.le i)
  simp [cleanInodeHandle, hs.clean k i h ht hd hw]

theorem Sound.entry (hs : Sound ic pins writers) {k : MetaKey} {i : Nat} (h : ic.table k = some i) :
    ∃ hd, ic.handle i = some (k, hd) := hs.counted.entry k i h

theorem Sound.pins_new (hs : Sound ic pins writers) : pins ic.cache.heap.length = 0 := hs.counted.pins_fresh

theorem Sound.writers_new (hs : Sound ic pins writers) : writers ic.cache.heap.length = 0 :=
  Nat.le_zero.mp (hs.pins_new ▸ hs.le _)

theorem handle_new (ic : InodeCache) : ic.handle ic.cache.heap.length = none := by
  simp [handle, data]

/-- A pinned entry was placed in a sound cache, by someone who may write to it. -/
theorem Sound.placed (hs : Sound ic pins writers) {ic' : InodeCache} {key : MetaKey} {i : Nat}
    {h : InodeCacheHandle} (hp : Placed ic ic' key i h) (hc : ic'.cache.Counted (pin pins i)) :
    Sound ic' (pin pins i) (pin writers i) := by
  refine ⟨hc, ?_, fun j => ?_⟩
  · intro k j h' ht hd hw
    have hj : j ≠ i := by
      rintro rfl
      simp at hw
    rw [pin_ne _ hj] at hw
    rw [hp.others j hj] at hd
    rcases hp.table k j ht with ⟨_, rfl⟩ | ⟨_, ht⟩
    · exact absurd rfl hj
    · exact hs.clean k j h' ht hd hw
  · by_cases hj : j = i
    · subst hj
      simpa using hs.le j
    · simpa [pin_ne _ hj] using hs.le j

theorem Sound.insert_spec (hs : Sound ic pins writers) (key : MetaKey) (h : InodeCacheHandle) :
    let r := ic.cache.insert cleanInodeHandle key h ic.metadb
    r.2.2 = ic.cache.heap.length ∧ Placed ic ⟨r.1, r.2.1⟩ key ic.cache.heap.length h ∧
      r.1.Counted (pin pins ic.cache.heap.length) := by
  obtain ⟨hn, hdb, hc, hh, htab⟩ := hs.counted.insert hs.quiet key h ic.metadb
  have hpin : pin pins ic.cache.heap.length = Function.update pins ic.cache.heap.length 1 := by
    simp [pin, hs.pins_new]
  refine ⟨hn, ⟨hdb, (hh _).trans (if_pos rfl), fun j hj => (hh j).trans (if_neg hj), htab⟩, ?_⟩
  rw [hpin]
  exact hc

/-- Get finds nothing anywhere and changes nothing, or it returns a pinned handle. The
store itself does not change. -/
theorem Sound.get_spec (hs : Sound ic pins writers) (key : MetaKey) (mode : InodeAccessMode) :
    (ic.table key = none ∧ ic.metadb.lookup key = none ∧ ic.get key mode = (ic, none)) ∨
    (∃ ic' i h, ic.get key mode = (ic', some i) ∧ Placed ic ic' key i h ∧ Origin ic ic' key mode i h ∧
      Sound ic' (pin pins i) (pin writers i)) := by
  cases ht : ic.table key with
  | none =>
    have hl : ic.cache.lookup key = (ic.cache, none) := by
      unfold InodeCache.table at ht
      simp [LRUCache.lookup, ht]
    cases hm : ic.metadb.lookup key with
    | none => exact .inl ⟨rfl, rfl, by simp [get, hl, hm]⟩
    | some v =>
      obtain ⟨hn, hp, hc⟩ := hs.insert_spec key ⟨v, mode⟩
      refine .inr ⟨_, _, _, ?_, hp, .miss v ht hm rfl, hs.placed hp hc⟩
      simp only [get, hl, hm, hn]
  | some i =>
    obtain ⟨h, hh⟩ := hs.entry ht
    have hl : ic.cache.lookup key =
        ({ ic.cache.ref i with table := ic.cache.table.insert key i }, some i) := by
      unfold InodeCache.table at ht
      simp [LRUCache.lookup, ht]
    have htab (k : MetaKey) : (ic.cache.table.insert key i).lookup k = ic.table k := lookup_touch ht k
    have hp : Placed ic { ic with cache := ({ ic.cache.ref i with table := ic.cache.table.insert key i } :
        LRUCache MetaKey InodeCacheHandle).update i (·.access mode) } key i (h.access mode) := by
      refine ⟨rfl, ?_, fun j hj => ?_, fun k j hk => ?_⟩
      · refine (data_update i i _ _).trans ?_
        simp [show ic.cache.data i = some (key, h) from hh]
      · refine (data_update i j _ _).trans ?_
        simp [Ne.symm hj]
        rfl
      · have hk' : ic.table k = some j := (htab k).symm.trans hk
        by_cases hkk : k = key
        · subst hkk
          rw [ht] at hk'
          exact .inl ⟨rfl, (Option.some.inj hk').symm⟩
        · exact .inr ⟨hkk, hk'⟩
    refine .inr ⟨_, i, _, by simp only [get, hl], hp, .hit h ht hh ((htab key).trans ht), hs.placed hp ?_⟩
    exact (hs.counted.lookup_hit ht).update i (·.access mode)

/-- A lookup for reading leaves a clean entry clean, so its holder need not be counted
as a writer. -/
theorem Sound.got_read (hs : Sound ic pins writers) {ic' : InodeCache} {key : MetaKey} {i : Nat}
    {h : InodeCacheHandle} (hp : Placed ic ic' key i h) (ho : Origin ic ic' key .read i h)
    (hs' : Sound ic' (pin pins i) (pin writers i)) : Sound ic' (pin pins i) writers := by
  refine ⟨hs'.counted, ?_, fun j => (le_pin writers i j).trans (hs'.le j)⟩
  intro k j h' ht hd hw
  by_cases hj : j = i
  · subst hj
    obtain ⟨rfl, rfl⟩ := handle_inj hp.self hd
    cases ho with
    | hit h ht0 hd0 _ => exact hs.clean _ _ _ ht0 hd0 hw
    | miss v => rfl
  · exact hs'.clean k j h' ht hd (by rwa [pin_ne _ hj])

theorem Sound.of_metadb (hs : Sound ic pins writers) (m : MetaDB) :
    Sound { ic with metadb := m } pins writers := ⟨hs.counted, hs.clean, hs.le⟩

theorem Sound.update (hs : Sound ic pins writers) (i : Nat) (f : InodeCacheHandle → InodeCacheHandle)
    (hf : writers i ≠ 0 ∨ ∀ k h, ic.handle i = some (k, h) → (f h).mode_ = .read) :
    Sound (ic.update i f) pins writers := by
  refine ⟨hs.counted.update i f, ?_, hs.le⟩
  intro k j h ht hd hw
  by_cases hj : j = i
  · subst hj
    obtain ⟨h0, hd0⟩ := hs.entry ht
    obtain ⟨_, rfl⟩ := handle_inj (handle_update_self hd0 f) hd
    exact (hf.resolve_left (· hw)) k h0 hd0
  · rw [handle_update_ne ic hj] at hd
    exact hs.clean k j h ht hd hw

/-- Giving a reference back cleans the handle when it was the last one. -/
theorem Sound.release_spec (hs : Sound ic pins writers) {i : Nat} (hi : pins i ≠ 0) {k : MetaKey}
    {h : InodeCacheHandle} (hd : ic.handle i = some (k, h)) :
    (ic.release i).table = ic.table ∧ (ic.release i).handle = ic.handle ∧
      (ic.release i).cache.Counted (unpin pins i) ∧
      (ic.release i).metadb =
        if pins i = 1 ∧ ic.table k ≠ some i then cleanInodeHandle k h ic.metadb else ic.metadb := by
  refine ⟨?_, ?_, hs.counted.release hi ic.metadb, hs.counted.release_world hi hd ic.metadb⟩
  · funext k'
    simp [InodeCache.table, release, unref_fst]
  · funext j
    simp [InodeCache.handle, release, unref_fst]

/-- A reference is given back by one of the writers. -/
theorem Sound.release (hs : Sound ic pins writers) {i : Nat} (hi : writers i ≠ 0) {k : MetaKey}
    {h : InodeCacheHandle} (hd : ic.handle i = some (k, h))
    (hr : ic.table k = some i → writers i = 1 → h.mode_ = .read) :
    Sound (ic.release i) (unpin pins i) (unpin writers i) := by
  have hp : pins i ≠ 0 := fun h0 => hi (Nat.le_zero.mp (h0 ▸ hs.le i))
  obtain ⟨ht, hh, hc, _⟩ := hs.release_spec hp hd
  refine ⟨hc, ?_, fun j => ?_⟩
  · intro k' j h' ht' hd' hw
    rw [ht] at ht'
    rw [hh] at hd'
    by_cases hj : j = i
    · subst hj
      obtain ⟨rfl, rfl⟩ := handle_inj hd hd'
      rw [unpin_self] at hw
      exact hr ht' (by omega)
    · exact hs.clean k' j h' ht' hd' (by rwa [unpin_ne _ hj] at hw)
  · by_cases hj : j = i
    · subst hj
      have := hs.le j
      simp only [unpin_self]
      omega
    · simpa [unpin_ne _ hj] using hs.le j

/-- A reference is given back by one who never wrote. -/
theorem Sound.release_reader (hs : Sound ic pins writers) {i : Nat} (hi : writers i < pins i) {k : MetaKey}
    {h : InodeCacheHandle} (hd : ic.handle i = some (k, h)) :
    Sound (ic.release i) (unpin pins i) writers := by
  obtain ⟨ht, hh, hc, _⟩ := hs.release_spec (Nat.ne_zero_of_lt hi) hd
  refine ⟨hc, ?_, fun j => ?_⟩
  · rw [ht, hh]
    exact hs.clean
  · by_cases hj : j = i
    · subst hj
      simp only [unpin_self]
      omega
    · simpa [unpin_ne _ hj] using hs.le j

/-- Dropping a key from the table. -/
theorem evict_spec (hc : ic.cache.Counted pins) (key : MetaKey) :
    (∀ k, (ic.evict key).table k = if k = key then none else ic.table k) ∧
      (ic.evict key).handle = ic.handle ∧ (ic.evict key).cache.Counted pins ∧
      (∀ i h, ic.table key = some i → ic.handle i = some (key, h) →
        (ic.evict key).metadb = if pins i = 0 then cleanInodeHandle key h ic.metadb else ic.metadb) ∧
      (ic.table key = none → ic.evict key = ic) := by
  refine ⟨?_, ?_, hc.erase _ key ic.metadb, fun i h ht hd => hc.erase_world ht hd ic.metadb, ?_⟩
  · intro k
    cases ht : ic.cache.table.lookup key with
    | none =>
      simp only [evict, InodeCache.table, erase_none ht]
      split
      · subst k
        exact ht
      · rfl
    | some i =>
      simp only [evict, InodeCache.table, erase_fst_some ht, table_deref]
      split
      · subst k
        simp
      · rename_i hk
        exact AList.lookup_erase_ne hk
  · funext j
    exact (shrunk_erase cleanInodeHandle key ic.cache ic.metadb).data j
  · intro ht
    unfold InodeCache.table at ht
    simp [evict, erase_none ht]

theorem Sound.evict (hs : Sound ic pins writers) (key : MetaKey) :
    Sound (ic.evict key) pins writers ∧ (ic.evict key).metadb = ic.metadb := by
  obtain ⟨ht, hh, hc, _⟩ := evict_spec hs.counted key
  refine ⟨⟨hc, ?_, hs.le⟩, hs.counted.erase_quiet hs.quiet key ic.metadb⟩
  intro k i h hk hd hw
  rw [ht] at hk
  rw [hh] at hd
  split at hk
  · cases hk
  · exact hs.clean k i h hk hd hw

private theorem erase_twice (m : MetaDB) (k : MetaKey) : (m.erase k).erase k = m.erase k :=
  Finmap.ext_lookup fun k' => by
    by_cases hk : k' = k
    · subst hk
      simp
    · simp [Finmap.lookup_erase_ne hk]

@[simp] theorem cleanInodeHandle_read (k : MetaKey) (v : Value) (m : MetaDB) :
    cleanInodeHandle k ⟨v, .read⟩ m = m := rfl

/-- Cleaning a handle touches no other key of the store. -/
theorem lookup_clean_ne {k key : MetaKey} (hk : k ≠ key) (h : InodeCacheHandle) (m : MetaDB) :
    (cleanInodeHandle key h m).lookup k = m.lookup k := by
  cases hmode : h.mode_ with
  | write => simp [cleanInodeHandle, hmode, Finmap.lookup_insert_of_ne _ hk]
  | delete => simp [cleanInodeHandle, hmode, Finmap.lookup_erase_ne hk]
  | read => simp [cleanInodeHandle, hmode]

theorem access_mode {h : InodeCacheHandle} {mode : InodeAccessMode} (hm : mode ≠ .read) :
    h.access mode = ⟨h.value_, mode⟩ := by
  cases mode with
  | read => exact absurd rfl hm
  | delete => rfl
  | write => rfl

theorem access_value (h : InodeCacheHandle) (mode : InodeAccessMode) : (h.access mode).value_ = h.value_ := by
  cases mode <;> rfl

theorem Origin.mode_eq {ic ic' : InodeCache} {key : MetaKey} {mode : InodeAccessMode} {i : Nat}
    {h : InodeCacheHandle} (ho : Origin ic ic' key mode i h) (hm : mode ≠ .read) : h.mode_ = mode := by
  cases ho with
  | hit h => rw [access_mode hm]
  | miss v => rfl

/-- The value Get returns: the one in the table if there is one, else the stored one. -/
theorem Origin.value {ic ic' : InodeCache} {key : MetaKey} {mode : InodeAccessMode} {i : Nat}
    {h : InodeCacheHandle} (ho : Origin ic ic' key mode i h) :
    (∃ h0, ic.table key = some i ∧ ic.handle i = some (key, h0) ∧ h.value_ = h0.value_) ∨
      (ic.table key = none ∧ ic.metadb.lookup key = some h.value_ ∧ ic.handle i = none) := by
  cases ho with
  | hit h ht hd _ => exact .inl ⟨h, ht, hd, access_value h mode⟩
  | miss v ht hm hi => exact .inr ⟨ht, hm, hi ▸ handle_new ic⟩

/-- The handle that Get returns is on its own key, or it is new. -/
theorem Origin.ne_of_handle {ic ic' : InodeCache} {key k : MetaKey} {mode : InodeAccessMode} {i j : Nat}
    {h h' : InodeCacheHandle} (ho : Origin ic ic' key mode i h) (hk : k ≠ key) (hh : ic.handle j = some (k, h')) :
    j ≠ i := by
  rintro rfl
  rcases ho.value with ⟨h0, _, hd, _⟩ | ⟨_, _, hnone⟩
  · exact hk (handle_inj hh hd).1
  · rw [hnone] at hh
    cases hh

section Sequences
variable {ic' : InodeCache} {key : MetaKey} {i : Nat} {h : InodeCacheHandle}

/-- Get for reading and Release: at most a clean copy is left in the cache. -/
theorem Sound.peek (hs : Sound ic pins writers) (hp : Placed ic ic' key i h)
    (ho : Origin ic ic' key .read i h) (hs' : Sound ic' (pin pins i) (pin writers i)) :
    (ic'.release i).table = ic'.table ∧ (ic'.release i).handle = ic'.handle ∧
      (ic'.release i).metadb = ic.metadb ∧ Sound (ic'.release i) pins writers := by
  have hr := hs.got_read hp ho hs'
  have hlt : writers i < pin pins i i := by
    rw [pin_self]
    exact Nat.lt_succ_of_le (hs.le i)
  obtain ⟨ht, hh, _, hm⟩ := hr.release_spec (Nat.ne_zero_of_lt hlt) hp.self
  refine ⟨ht, hh, ?_, by simpa using hr.release_reader hlt hp.self⟩
  rw [hm, ← hp.metadb]
  split
  · rename_i hc
    cases ho with
    | hit h ht0 hd0 ht' => exact absurd ht' hc.2
    | miss v => rfl
  · rfl

/-- WriteBack does to the store what the deleter would do; a deleted handle also leaves
the table, but stays in its mode. -/
theorem Sound.writeBack (hs : Sound ic pins writers) (hw : writers i ≠ 0) (hd : ic.handle i = some (key, h)) :
    Sound (ic.writeBack i) pins writers ∧ (ic.writeBack i).metadb = cleanInodeHandle key h ic.metadb ∧
      (ic.writeBack i).handle i = some (key, ⟨h.value_, settled h.mode_⟩) ∧
      (∀ j, j ≠ i → (ic.writeBack i).handle j = ic.handle j) ∧
      (h.mode_ ≠ .delete → (ic.writeBack i).table = ic.table) ∧
      (h.mode_ = .delete → ∀ k, (ic.writeBack i).table k = if k = key then none else ic.table k) := by
  obtain ⟨v, mode⟩ := h
  simp only [InodeCache.writeBack, hd]
  cases mode with
  | write =>
    refine ⟨(hs.of_metadb _).update i _ (.inl hw), rfl, ?_, fun j hj => ?_, fun _ => rfl, by simp⟩
    · exact handle_update_self (show (ic.put key v).handle i = some (key, ⟨v, .write⟩) from hd) _
    · exact handle_update_ne (ic.put key v) hj _
  | delete =>
    obtain ⟨hs', hm⟩ := (hs.of_metadb (ic.metadb.erase key)).evict key
    obtain ⟨ht, hh, _⟩ := evict_spec (hs.of_metadb (ic.metadb.erase key)).counted key
    refine ⟨hs', hm, ?_, fun j _ => congrFun hh j, by simp, fun _ => ht⟩
    exact (congrFun hh i).trans hd
  | read => exact ⟨hs, rfl, hd, fun _ _ => rfl, fun _ => rfl, by simp⟩

/-- Get for writing, a change in place, WriteBack and Release: the new value is stored
and the handle, if it stays, holds it too. -/
theorem Sound.modify (hp : Placed ic ic' key i h) (ho : Origin ic ic' key .write i h)
    (hs' : Sound ic' (pin pins i) (pin writers i)) {g : InodeCacheHandle → InodeCacheHandle}
    (hg : (g h).mode_ = h.mode_) :
    let r := ((ic'.update i g).writeBack i).release i
    r.table = ic'.table ∧ r.handle i = some (key, ⟨(g h).value_, .read⟩) ∧
      (∀ j, j ≠ i → r.handle j = ic.handle j) ∧
      r.metadb = ic.metadb.insert key (g h).value_ ∧ Sound r pins writers := by
  intro r
  have hmode : (g h).mode_ = .write := hg.trans (ho.mode_eq (by simp))
  obtain ⟨hs2, hm2, hd2, ho2, ht2, _⟩ := (hs'.update i g (.inl (by simp))).writeBack (by simp)
    (handle_update_self hp.self g)
  rw [hmode] at hd2 ht2
  obtain ⟨ht, hh, _, hm⟩ := hs2.release_spec (by simp) hd2
  refine ⟨ht.trans (ht2 (by simp)), by rw [hh, hd2]; rfl, fun j hj => ?_, ?_, ?_⟩
  · rw [hh, ho2 j hj, handle_update_ne _ hj, hp.others j hj]
  · rw [hm, settled, cleanInodeHandle_read, ite_self, hm2]
    simp [cleanInodeHandle, hmode, hp.metadb]
  · simpa using hs2.release (by simp) hd2 (fun _ _ => rfl)

/-- Get for deletion, Release and Evict: the key leaves the table, and the record is
deleted unless someone else still holds the handle. -/
theorem Sound.remove (hs : Sound ic pins writers) (hp : Placed ic ic' key i h)
    (ho : Origin ic ic' key .delete i h) (hs' : Sound ic' (pin pins i) (pin writers i)) :
    let r := (ic'.release i).evict key
    (∀ k j, r.table k = some j → k ≠ key ∧ ic.table k = some j) ∧ r.handle = ic'.handle ∧
      r.metadb = (if pins i = 0 then ic.metadb.erase key else ic.metadb) ∧ Sound r pins writers := by
  intro r
  have hmode : h.mode_ = .delete := ho.mode_eq (by simp)
  obtain ⟨ht1, hh1, hc1, hm1⟩ := hs'.release_spec (by simp) hp.self
  rw [unpin_pin] at hc1
  obtain ⟨ht2, hh2, hc2, hm2, hn2⟩ := evict_spec hc1 key
  have htab (k : MetaKey) (j : Nat) (hk : r.table k = some j) : k ≠ key ∧ ic.table k = some j := by
    rw [show r.table k = _ from ht2 k, ht1] at hk
    split at hk
    · cases hk
    · rename_i hne
      exact ⟨hne, ((hp.table k j hk).resolve_left (fun hl => hne hl.1)).2⟩
  refine ⟨htab, hh2.trans hh1, ?_, hc2, ?_, hs.le⟩
  · have hclean (m : MetaDB) : cleanInodeHandle key h m = m.erase key := by
      simp [cleanInodeHandle, hmode]
    rw [hp.metadb, hclean, pin_self] at hm1
    cases htk : ic'.table key with
    | none =>
      rw [show r = ic'.release i from hn2 (by rw [ht1, htk]), hm1]
      simp [htk]
    | some j =>
      obtain ⟨_, rfl⟩ : key = key ∧ j = i := (hp.table key j htk).resolve_right (fun hr => hr.1 rfl)
      rw [show r.metadb = _ from hm2 j h (by rw [ht1, htk]) (by rw [hh1, hp.self]), hclean, hm1]
      simp [htk]
  · intro k j h' hk hd hw
    obtain ⟨hne, hk⟩ := htab k j hk
    rw [show r.handle = ic'.handle from hh2.trans hh1] at hd
    by_cases hj : j = i
    · subst hj
      exact absurd (handle_inj hp.self hd).1.symm hne
    · exact hs.clean k j h' hk (by rwa [← hp.others j hj]) hw

/-- A last change, WriteBack, Release and Evict by one of the writers. -/
theorem Sound.close (hs : Sound ic pins writers) (hw : writers i ≠ 0) (hd : ic.handle i = some (key, h))
    {g : InodeCacheHandle → InodeCacheHandle} (hg : (g h).mode_ = h.mode_) :
    let r := (((ic.update i g).writeBack i).release i).evict key
    (∀ k, r.table k = if k = key then none else ic.table k) ∧
      r.handle i = some (key, ⟨(g h).value_, settled h.mode_⟩) ∧
      (∀ j, j ≠ i → r.handle j = ic.handle j) ∧
      r.metadb = cleanInodeHandle key (g h) ic.metadb ∧ Sound r (unpin pins i) (unpin writers i) := by
  intro r
  obtain ⟨hs2, hm2, hd2, ho2, ht2, ht2'⟩ := (hs.update i g (.inl hw)).writeBack hw (handle_update_self hd g)
  have htab (k : MetaKey) (hk : k ≠ key) : ((ic.update i g).writeBack i).table k = ic.table k := by
    by_cases hmode : (g h).mode_ = .delete
    · rw [ht2' hmode, if_neg hk]
      rfl
    · rw [ht2 hmode]
      rfl
  have hp : pins i ≠ 0 := fun h0 => hw (Nat.le_zero.mp (h0 ▸ hs.le i))
  obtain ⟨ht3, hh3, _, hm3⟩ := hs2.release_spec hp hd2
  have hs3 := hs2.release hw hd2 (fun ht _ => by
    cases hm : (g h).mode_ with
    | delete => simp [ht2' hm] at ht
    | _ => rfl)
  obtain ⟨ht4, hh4, _⟩ := evict_spec hs3.counted key
  obtain ⟨hs4, hm4⟩ := hs3.evict key
  refine ⟨fun k => ?_, ?_, fun j hj => ?_, ?_, hs4⟩
  · rw [show r.table k = _ from ht4 k, ht3]
    split
    · rfl
    · exact htab k ‹_›
  · rw [show r.handle = _ from hh4, hh3, hd2, hg]
  · rw [show r.handle = _ from hh4, hh3, ho2 j hj, handle_update_ne _ hj]
  · rw [show r.metadb = _ from hm4, hm3, hm2]
    -- a deleted record may be deleted once more
    cases hm : (g h).mode_ with
    | delete =>
      simp only [cleanInodeHandle, hm, settled]
      split
      · exact erase_twice _ key
      · rfl
    | _ => simp [cleanInodeHandle, settled, hm]

/-- The sequence of Rename on the cache: Get for deletion under the old key, then
Insert under the new one, BatchCommit, both Releases and Evict. -/
theorem Sound.move {old : MetaKey} (new : MetaKey) (hp : Placed ic ic' old i h)
    (ho : Origin ic ic' old .delete i h) (hs' : Sound ic' (pin pins i) (pin writers i)) (v : Value) (ok : Bool) :
    let r2 := ic'.insert new v
    let r := (((r2.1.batchCommit i r2.2 ok).release r2.2).release i).evict old
    r2.2 ≠ i ∧ ic.handle r2.2 = none ∧
      (∀ k j, r.table k = some j → k ≠ old ∧ ((k = new ∧ j = r2.2) ∨ (k ≠ new ∧ ic.table k = some j))) ∧
      r.handle i = some (old, ⟨h.value_, .delete⟩) ∧ r.handle r2.2 = some (new, ⟨v, .read⟩) ∧
      (∀ j, j ≠ i → j ≠ r2.2 → r.handle j = ic.handle j) ∧
      r.metadb = (let m := if ok then (ic.metadb.erase old).insert new v else ic.metadb
        if pins i = 0 then m.erase old else m) ∧ Sound r pins writers := by
  intro r2 r
  have hmode : h.mode_ = .delete := ho.mode_eq (by simp)
  have hold : ic'.handle i = some (old, ⟨h.value_, .delete⟩) := by rw [hp.self, ← hmode]
  obtain ⟨hj, hp2, hc2⟩ := hs'.insert_spec new ⟨v, .write⟩
  change r2.2 = _ at hj
  change Placed ic' r2.1 new _ _ at hp2
  rw [← hj] at hp2 hc2
  have hji : r2.2 ≠ i := by
    intro he
    have hnew := handle_new ic'
    rw [← hj, he, hold] at hnew
    cases hnew
  have hs2 := hs'.placed hp2 hc2
  have hi2 : r2.1.handle i = some (old, ⟨h.value_, .delete⟩) := by rw [hp2.others i hji.symm, hold]
  -- BatchCommit: the old handle leaves the table, the new one is marked as stored
  let ic3 := r2.1.evict old
  obtain ⟨hs3, hm3⟩ := hs2.evict old
  obtain ⟨ht3, hh3, _⟩ := evict_spec hs2.counted old
  have hj3 : ic3.handle r2.2 = some (new, ⟨v, .write⟩) := (congrFun hh3 _).trans hp2.self
  let ic4 := ic3.update r2.2 fun h => { h with mode_ := .read }
  have hs4 : Sound ic4 _ _ := hs3.update r2.2 _ (.inl (by simp))
  let m := if ok then (ic.metadb.erase old).insert new v else ic.metadb
  have hbatch : r2.1.batchCommit i r2.2 ok = { ic4 with metadb := m } := by
    have hst1 : r2.1.stage i = (ic3, [.delete old]) := by simp only [stage, hi2, ic3]
    have hst2 : ic3.stage r2.2 = (ic4, [.put new v]) := by simp only [stage, hj3, ic4]
    have hdb : ic4.metadb = ic.metadb := (hm3.trans hp2.metadb).trans hp.metadb
    simp only [batchCommit, hst1, hst2]
    cases ok with
    | true => simp [BatchOp.apply, hdb, m]
    | false => simp [← hdb, m]
  let ic5 : InodeCache := { ic4 with metadb := m }
  have hs5 : Sound ic5 _ _ := hs4.of_metadb m
  have hj5 : ic5.handle r2.2 = some (new, ⟨v, .read⟩) := handle_update_self hj3 _
  -- the two releases: only the old handle can be the last reference with something to do
  obtain ⟨ht6, hh6, _, hm6⟩ := hs5.release_spec (by simp) hj5
  have hs6 := hs5.release (by simp) hj5 (fun _ _ => rfl)
  rw [unpin_pin, unpin_pin] at hs6
  have hi6 : (ic5.release r2.2).handle i = some (old, ⟨h.value_, .delete⟩) := by
    rw [hh6]
    exact (handle_update_ne ic3 hji.symm _).trans ((congrFun hh3 i).trans hi2)
  have hold6 : (ic5.release r2.2).table old = none := by
    rw [ht6]
    exact (ht3 old).trans (if_pos rfl)
  obtain ⟨ht7, hh7, _, hm7⟩ := hs6.release_spec (by simp) hi6
  have hs7 := hs6.release (by simp) hi6 (fun ht => by simp [hold6] at ht)
  rw [unpin_pin, unpin_pin] at hs7
  have hr : r = (ic5.release r2.2).release i := by
    have hn := (evict_spec hs7.counted old).2.2.2.2 (by rw [ht7, hold6])
    simp only [r, hbatch]
    exact hn
  rw [hr]
  refine ⟨hji, ?_, fun k j hk => ?_, ?_, ?_, fun j hi hj' => ?_, ?_, hs7⟩
  · rw [← hp.others _ hji, hj]
    exact handle_new ic'
  · rw [ht7, ht6] at hk
    have hk3 : (if k = old then none else r2.1.table k) = some j := (ht3 k).symm.trans hk
    split at hk3
    · cases hk3
    · rename_i hne
      refine ⟨hne, (hp2.table k j hk3).imp_right fun ⟨hn, hk'⟩ => ⟨hn, ?_⟩⟩
      exact ((hp.table k j hk').resolve_left fun hl => hne hl.1).2
  · rw [hh7, hi6]
  · rw [hh7, hh6, hj5]
  · rw [hh7, hh6]
    exact (handle_update_ne ic3 hj' _).trans ((congrFun hh3 j).trans ((hp2.others j hj').trans (hp.others j hi)))
  · rw [hm7, hm6, cleanInodeHandle_read, ite_self]
    simp [hold6, cleanInodeHandle, ic5, m]

end Sequences
end Spec
end TableFS.InodeCache
