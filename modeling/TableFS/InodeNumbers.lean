import TableFS.Sessions

/-! Inode numbers over any sequence of sessions. A number is borne by the record that has it
and by every handle that can still be stored with it; as long as no two keys bear one number,
no two records share one. The sessions hand on the counter in root.dat, so a number is taken
twice when a session ends without writing it. -/
namespace TableFS
open Slots InodeCache Runs

/-- A key bears a number if its record has it, or if a handle on the key has it that is in the
table or is open with something to be saved. -/
def InodeCache.Bears (ic : InodeCache) (pins : Nat → Nat) (k : MetaKey) (n : UInt64) : Prop :=
  inoOf ic.metadb k = some n ∨
    ∃ i h, ic.handle i = some (k, h) ∧ h.value_.fstat.st_ino = n ∧
      (ic.table k = some i ∨ pins i ≠ 0 ∧ h.mode_ = .write)

/-- No number is borne by two keys. -/
def InodeCache.Unshared (ic : InodeCache) (pins : Nat → Nat) : Prop :=
  ∀ k k' n, ic.Bears pins k n → ic.Bears pins k' n → k = k'

def State.Bears (s : State) (k : MetaKey) (n : UInt64) : Prop := s.inode_cache.Bears s.pins k n

namespace InodeCache
variable {ic ic' r : InodeCache} {pins pins' : Nat → Nat} {key : MetaKey} {mode : InodeAccessMode} {i : Nat}
  {h : InodeCacheHandle}

theorem Unshared.mono (hu : ic.Unshared pins) (h : ∀ k n, r.Bears pins' k n → ic.Bears pins k n) :
    r.Unshared pins' := fun k k' n hk hk' => hu k k' n (h k n hk) (h k' n hk')

private theorem Unshared.added (hu : ic.Unshared pins) {m : UInt64}
    (h : ∀ k n, r.Bears pins' k n → ic.Bears pins k n ∨ k = key ∧ n = m)
    (hm : ∀ k, r.Bears pins' k m → k = key) : r.Unshared pins' := by
  intro k k' n hk hk'
  by_cases hn : n = m
  · subst hn
    rw [hm k hk, hm k' hk']
  · have hold (x : MetaKey) (hx : r.Bears pins' x n) : ic.Bears pins x n :=
      (h x n hx).resolve_right fun ⟨_, he⟩ => hn he
    exact hu k k' n (hold k hk) (hold k' hk')

private theorem Origin.bears (ho : Origin ic ic' key mode i h) : ic.Bears pins key h.value_.fstat.st_ino := by
  rcases ho.value with ⟨h0, ht, hd, he⟩ | ⟨_, hm, _⟩
  · exact .inr ⟨i, h0, hd, by rw [he], .inl ht⟩
  · exact .inl (by rw [inoOf, hm, Option.map_some])

private theorem bears_of_handle {k : MetaKey} {j : Nat} {hd : InodeCacheHandle} (hh : ic.handle j = some (k, hd))
    (hw : ic.table k = some j ∨ pins j ≠ 0 ∧ hd.mode_ = .write) : ic.Bears pins k hd.value_.fstat.st_ino :=
  .inr ⟨j, hd, hh, rfl, hw⟩

private theorem bears_insert {m : MetaDB} {k : MetaKey} {v : Value} {n : UInt64}
    (hn : inoOf (m.insert key v) k = some n) : inoOf m k = some n ∨ k = key ∧ n = v.fstat.st_ino := by
  by_cases hk : k = key
  · subst hk
    simp [inoOf] at hn
    exact .inr ⟨rfl, hn.symm⟩
  · rw [inoOf, Finmap.lookup_insert_of_ne _ hk] at hn
    exact .inl hn

private theorem bears_erase {m : MetaDB} {k : MetaKey} {n : UInt64} (hn : inoOf (m.erase key) k = some n) :
    inoOf m k = some n ∧ k ≠ key := by
  obtain ⟨v, hv, hi⟩ := Option.map_eq_some_iff.mp hn
  obtain ⟨hk, hv⟩ := DentryCache.lookup_erase_some hv
  exact ⟨by rw [inoOf, hv, Option.map_some, hi], hk⟩

private theorem bears_clean {m : MetaDB} {k : MetaKey} {n : UInt64} (hn : inoOf (cleanInodeHandle key h m) k = some n) :
    inoOf m k = some n ∨ k = key ∧ n = h.value_.fstat.st_ino ∧ h.mode_ = .write := by
  cases hmode : h.mode_ with
  | read =>
    rw [cleanInodeHandle, hmode] at hn
    exact .inl hn
  | delete =>
    rw [cleanInodeHandle, hmode] at hn
    exact .inl (bears_erase hn).1
  | write =>
    rw [cleanInodeHandle, hmode] at hn
    exact (bears_insert hn).imp_right fun hnew => ⟨hnew.1, hnew.2, rfl⟩

/-- What keys bear after one handle was replaced by another on the same key and the same
number, while the rest of the cache lost entries at most. -/
private theorem bears_replaced {n : UInt64} {k : MetaKey} {hd : InodeCacheHandle}
    (hself : r.handle i = some (key, hd)) (hbears : ic.Bears pins key hd.value_.fstat.st_ino)
    (hothers : ∀ j, j ≠ i → r.handle j = ic.handle j) (hpins : ∀ j, j ≠ i → pins' j ≠ 0 → pins j ≠ 0)
    (htab : ∀ k j, j ≠ i → r.table k = some j → ic.table k = some j)
    (hm : inoOf r.metadb k = some n → ic.Bears pins k n) (h : r.Bears pins' k n) : ic.Bears pins k n := by
  rcases h with hn | ⟨j, hj, hh, rfl, hw⟩
  · exact hm hn
  · by_cases hji : j = i
    · subst hji
      obtain ⟨rfl, rfl⟩ := handle_inj hself hh
      exact hbears
    · rw [hothers j hji] at hh
      exact bears_of_handle hh (hw.imp (htab _ _ hji) fun ⟨hp, hmode⟩ => ⟨hpins j hji hp, hmode⟩)

private theorem bears_placed {n : UInt64} {k : MetaKey} (hp : Placed ic ic' key i h) (ho : Origin ic ic' key mode i h)
    (hpins : ∀ j, j ≠ i → pins' j ≠ 0 → pins j ≠ 0) (hb : ic'.Bears pins' k n) : ic.Bears pins k n := by
  refine bears_replaced hp.self ho.bears hp.others hpins ?_ ?_ hb
  · intro k j hji ht
    exact ((hp.table k j ht).resolve_left fun hl => hji hl.2).2
  · intro hn
    exact .inl (by rwa [hp.metadb] at hn)

/-- A Rename away from a key leaves nothing behind under it: no record, which a rejected batch
leaves while the handle is open, and no open handle that has left the table and is to be saved. -/
def Clears (ic : InodeCache) (pins : Nat → Nat) (old : MetaKey) (ok : Bool) : Prop :=
  (ok = true ∨ ∀ i, ic.table old = some i → pins i = 0) ∧
    ∀ j h, ic.handle j = some (old, h) → ic.table old ≠ some j → pins j ≠ 0 → h.mode_ ≠ .write

/-- The cache and the store after a Rename, as `Sound.move` describes them. -/
structure Moved (ic r : InodeCache) (pins : Nat → Nat) (old new : MetaKey) (i j : Nat) (v v' : Value) (ok : Bool) :
    Prop where
  table : ∀ k x, r.table k = some x → k ≠ old ∧ (k = new ∧ x = j ∨ k ≠ new ∧ ic.table k = some x)
  left : r.handle i = some (old, ⟨v, .delete⟩)
  placed : r.handle j = some (new, ⟨v', .read⟩)
  others : ∀ x, x ≠ i → x ≠ j → r.handle x = ic.handle x
  metadb : r.metadb = (let m := if ok then (ic.metadb.erase old).insert new v' else ic.metadb
    if pins i = 0 then m.erase old else m)

section Moved
variable {old new k : MetaKey} {j : Nat} {v v' : Value} {ok : Bool} {n : UInt64}

/-- A record after a Rename: an old one, not under the old key if the batch was committed or
nobody holds the handle, or the moved one. -/
theorem Moved.record (hm : Moved ic r pins old new i j v v' ok) (hn : inoOf r.metadb k = some n) :
    inoOf ic.metadb k = some n ∧ (ok = true ∨ pins i = 0 → k ≠ old) ∨ k = new ∧ n = v'.fstat.st_ino := by
  have hbatch (hn : inoOf (if ok then (ic.metadb.erase old).insert new v' else ic.metadb) k = some n) :
      inoOf ic.metadb k = some n ∧ (ok = true → k ≠ old) ∨ k = new ∧ n = v'.fstat.st_ino := by
    split at hn
    · refine (bears_insert hn).imp_left fun hn => ?_
      exact ⟨(bears_erase hn).1, fun _ => (bears_erase hn).2⟩
    · rename_i hok
      exact .inl ⟨hn, fun h => absurd h hok⟩
  rw [hm.metadb] at hn
  dsimp only at hn
  split at hn
  · obtain ⟨hn, hk⟩ := bears_erase hn
    exact (hbatch hn).imp_left fun h => ⟨h.1, fun _ => hk⟩
  · rename_i hp
    exact (hbatch hn).imp_left fun h => ⟨h.1, fun hc => hc.elim h.2 fun h0 => absurd h0 hp⟩

/-- A handle that bears a number after a Rename: an old one, not in the table under the old key,
or the one that was placed. -/
private theorem Moved.borne (hm : Moved ic r pins old new i j v v' ok) {x : Nat} {h : InodeCacheHandle}
    (hh : r.handle x = some (k, h)) (hw : r.table k = some x ∨ pins x ≠ 0 ∧ h.mode_ = .write) :
    ic.handle x = some (k, h) ∧ x ≠ i ∧ (k ≠ old ∧ ic.table k = some x ∨ pins x ≠ 0 ∧ h.mode_ = .write) ∨
      k = new ∧ h.value_ = v' := by
  by_cases hxj : x = j
  · subst hxj
    obtain ⟨rfl, rfl⟩ := handle_inj hm.placed hh
    exact .inr ⟨rfl, rfl⟩
  · have hxi : x ≠ i := by
      rintro rfl
      obtain ⟨rfl, rfl⟩ := handle_inj hm.left hh
      rcases hw with ht | ⟨_, hmode⟩
      · exact (hm.table _ _ ht).1 rfl
      · cases hmode
    rw [hm.others x hxi hxj] at hh
    refine .inl ⟨hh, hxi, hw.imp_left fun ht => ?_⟩
    obtain ⟨hk, hnew⟩ := hm.table k x ht
    exact ⟨hk, (hnew.resolve_left fun hl => hxj hl.2).2⟩

/-- After a Rename the new key bears the number of the moved record, and the old key does not
if nothing is left behind. -/
private theorem Moved.bears (hm : Moved ic r pins old new i j v v' ok)
    (hi : ic.table old = some i ∨ ic.table old = none ∧ pins i = 0) (hb : r.Bears pins k n) :
    ic.Bears pins k n ∧ (ic.Clears pins old ok → k ≠ old) ∨ k = new ∧ n = v'.fstat.st_ino := by
  have hz (hc : ic.Clears pins old ok) : ok = true ∨ pins i = 0 :=
    hc.1.imp_right fun h0 => hi.elim (h0 i) And.right
  rcases hb with hn | ⟨x, h, hh, rfl, hw⟩
  · exact (hm.record hn).imp_left fun h => ⟨.inl h.1, fun hc => h.2 (hz hc)⟩
  · rcases hm.borne hh hw with ⟨hold, hxi, hw⟩ | ⟨rfl, rfl⟩
    · refine .inl ⟨bears_of_handle hold (hw.imp_left And.right), ?_⟩
      rintro hc rfl
      rcases hw with ⟨hk, _⟩ | ⟨hp, hmode⟩
      · exact hk rfl
      · refine hc.2 x h hold (fun ht => hxi ?_) hp hmode
        rcases hi with hi | ⟨hi, _⟩
        · exact Option.some.inj (ht.symm.trans hi)
        · rw [ht] at hi
          cases hi
    · exact .inr ⟨rfl, rfl⟩

end Moved

section Requests
variable {writers : Nat → Nat}

theorem Unshared.peek (hu : ic.Unshared pins) (hs : ic.Sound pins writers) (hp : Placed ic ic' key i h)
    (ho : Origin ic ic' key .read i h) (hs' : ic'.Sound (pin pins i) (pin writers i)) :
    (ic'.release i).Unshared pins := by
  obtain ⟨htab, hhan, hm, _⟩ := Sound.peek hs hp ho hs'
  refine hu.mono fun k n hb => bears_placed hp ho (fun _ _ => id) ?_
  rwa [Bears, htab, hhan, hm, ← hp.metadb] at hb

theorem Unshared.modify (hu : ic.Unshared pins) (hp : Placed ic ic' key i h) (ho : Origin ic ic' key .write i h)
    (hs' : ic'.Sound (pin pins i) (pin writers i)) {g : InodeCacheHandle → InodeCacheHandle}
    (hg : (g h).mode_ = h.mode_) (hk : Keeps h.value_ (g h).value_) :
    (((ic'.update i g).writeBack i).release i).Unshared pins := by
  obtain ⟨htab, hself, hothers, hm, _⟩ := Sound.modify hp ho hs' hg
  have hborne : ic.Bears pins key (g h).value_.fstat.st_ino := by
    rw [hk.ino]
    exact ho.bears
  refine hu.mono fun k n hb => bears_replaced hself hborne hothers (fun _ _ => id) ?_ ?_ hb
  · intro k j hj ht
    exact ((hp.table k j (htab ▸ ht)).resolve_left fun hl => hj hl.2).2
  · intro hn
    rw [hm] at hn
    rcases bears_insert hn with hn | ⟨rfl, rfl⟩
    · exact .inl hn
    · exact hborne

theorem Unshared.remove (hu : ic.Unshared pins) (hs : ic.Sound pins writers) (hp : Placed ic ic' key i h)
    (ho : Origin ic ic' key .delete i h) (hs' : ic'.Sound (pin pins i) (pin writers i)) :
    ((ic'.release i).evict key).Unshared pins := by
  obtain ⟨htab, hhan, hm, _⟩ := Sound.remove hs hp ho hs'
  refine hu.mono fun k n hb => bears_replaced (by rw [hhan, hp.self]) ho.bears
    (fun j hj => by rw [hhan, hp.others j hj]) (fun _ _ => id) (fun k j _ ht => (htab k j ht).2) ?_ hb
  intro hn
  rw [hm] at hn
  split at hn
  · exact .inl (bears_erase hn).1
  · exact .inl hn

/-- A Rename moves a number from one key to another, if it leaves nothing under the old one. -/
theorem Unshared.move (hu : ic.Unshared pins) (hs : ic.Sound pins writers) {old new : MetaKey}
    (hp : Placed ic ic' old i h) (ho : Origin ic ic' old .delete i h)
    (hs' : ic'.Sound (pin pins i) (pin writers i)) {name : List UInt8} {ok : Bool}
    (hclears : old ≠ new → ic.Clears pins old ok) :
    (((((ic'.insert new (renameInodeValue h.value_ name)).1.batchCommit i
      (ic'.insert new (renameInodeValue h.value_ name)).2 ok).release
      (ic'.insert new (renameInodeValue h.value_ name)).2).release i).evict old).Unshared pins := by
  obtain ⟨_, _, htab, hi, hj, hothers, hm, _⟩ := Sound.move new hp ho hs' (renameInodeValue h.value_ name) ok
  have hmoved := Moved.mk htab hi hj hothers hm
  have hgot : ic.table old = some i ∨ ic.table old = none ∧ pins i = 0 := by
    cases ho with
    | hit h0 ht _ _ => exact .inl ht
    | miss v ht _ he => exact .inr ⟨ht, he ▸ hs.pins_new⟩
  refine hu.added (fun k n hb => (hmoved.bears hgot hb).imp_left And.left) fun k hb => ?_
  rcases hmoved.bears hgot hb with ⟨hb, hne⟩ | ⟨rfl, _⟩
  · have hk : k = old := hu k old _ hb ho.bears
    by_contra hkn
    exact hne (hclears fun he => hkn (hk.trans he)) hk
  · rfl

private theorem bears_updated (hh : ic.handle i = some (key, h)) {v : Value}
    (hino : v.fstat.st_ino = h.value_.fstat.st_ino) {k : MetaKey} {n : UInt64}
    (hb : (ic.update i fun _ => ⟨v, .write⟩).Bears pins k n) :
    ic.Bears pins k n ∨ k = key ∧ n = h.value_.fstat.st_ino := by
  rcases hb with hn | ⟨j, hd, hj, rfl, hw⟩
  · exact .inl (.inl hn)
  · by_cases hji : j = i
    · subst hji
      obtain ⟨rfl, rfl⟩ := handle_inj (handle_update_self hh _) hj
      exact .inr ⟨rfl, hino⟩
    · rw [handle_update_ne _ hji] at hj
      exact .inl (bears_of_handle hj hw)

private theorem bears_put {v : Value} {m : UInt64} (hino : v.fstat.st_ino = m) {k : MetaKey} {n : UInt64}
    (hb : (ic.put key v).Bears pins k n) : ic.Bears pins k n ∨ k = key ∧ n = m := by
  rcases hb with hn | ⟨j, hd, hj, hi, hw⟩
  · exact (bears_insert hn).imp .inl fun hnew => ⟨hnew.1, hnew.2.trans hino⟩
  · exact .inl (.inr ⟨j, hd, hj, hi, hw⟩)

theorem Unshared.close (hu : ic.Unshared pins) (hs : ic.Sound pins writers) (hw : writers i ≠ 0)
    (hh : ic.handle i = some (key, h)) {g : InodeCacheHandle → InodeCacheHandle} (hg : (g h).mode_ = h.mode_)
    (hk : Keeps h.value_ (g h).value_) :
    ((((ic.update i g).writeBack i).release i).evict key).Unshared (unpin pins i) := by
  obtain ⟨htab, hself, hothers, hm, _⟩ := Sound.close hs hw hh hg
  have hpin : pins i ≠ 0 := fun h0 => hw (Nat.le_zero.mp (h0 ▸ hs.le i))
  refine hu.mono fun k n hb => ?_
  rcases hb with hn | ⟨j, hd, hj, rfl, hw⟩
  · rw [hm] at hn
    rcases bears_clean hn with hn | ⟨rfl, rfl, hmode⟩
    · exact .inl hn
    · rw [hk.ino]
      exact bears_of_handle hh (.inr ⟨hpin, hg ▸ hmode⟩)
  · rw [htab] at hw
    by_cases hji : j = i
    · subst hji
      obtain ⟨rfl, rfl⟩ := handle_inj hself hj
      -- a settled handle that has left the table bears nothing
      rcases hw with ht | ⟨_, hmode⟩
      · simp at ht
      · cases hm : h.mode_ <;> simp [settled, hm] at hmode
    · rw [hothers j hji] at hj
      rw [unpin_ne _ hji] at hw
      refine bears_of_handle hj (hw.imp_left fun ht => ?_)
      split at ht
      · cases ht
      · exact ht

theorem Unshared.release (hu : ic.Unshared pins) (hs : ic.Sound pins writers) (hpin : pins i ≠ 0)
    (hh : ic.handle i = some (key, h)) : (ic.release i).Unshared (unpin pins i) := by
  obtain ⟨htab, hhan, _, hm⟩ := Sound.release_spec hs hpin hh
  refine hu.mono fun k n hb => ?_
  rcases hb with hn | ⟨j, hd, hj, rfl, hw⟩
  · rw [hm] at hn
    split at hn
    · rcases bears_clean hn with hn | ⟨rfl, rfl, hmode⟩
      · exact .inl hn
      · exact bears_of_handle hh (.inr ⟨hpin, hmode⟩)
    · exact .inl hn
  · rw [hhan] at hj
    rw [htab] at hw
    refine bears_of_handle hj (hw.imp_right fun hheld => ⟨fun h0 => hheld.1 ?_, hheld.2⟩)
    by_cases hji : j = i
    · subst hji
      exact absurd h0 hpin
    · rw [unpin_ne _ hji, h0]

end Requests

end InodeCache

/-- The states in which a Write or a Rename cannot make two keys bear one number. A Write marks
its handle as one to be saved, so no other key may bear the handle's number; a Rename to another
key has to leave nothing behind. -/
def Apart (s : State) : Env × Op → Prop
  | (_, .write fh _ _ _) => ∀ f key h, s.fileOf fh = some (f, key, h) →
      ∀ k, s.Bears k h.value_.fstat.st_ino → k = key
  | (env, .rename old_path new_path) => ∀ old oname new name, s.found old_path = some (old, oname) →
      (pathLookup (s.looked old_path) s.inode_cache.metadb new_path).2 = some (new, name) → old ≠ new →
      s.inode_cache.Clears s.pins old env.commit
  | _ => True

section Step
variable {s s' : State} {c : Env × Op}

private theorem State.Numbered.bears_le (hn : s.Numbered) {k : MetaKey} {n : UInt64} (hb : s.Bears k n) :
    n ≤ s.max_inode_num := by
  rcases hb with hm | ⟨i, h, hh, rfl, _⟩
  · obtain ⟨v, hv, rfl⟩ := Option.map_eq_some_iff.mp hm
    exact hn.bound.stored k v hv
  · exact hn.bound.cached i k h hh

private theorem Deed.unshared (hd : Deed s c s') (hs : s.Counted) (hn : s.Numbered) (hc : Apart s c)
    (hu : s.inode_cache.Unshared s.pins) : s'.inode_cache.Unshared s'.pins := by
  cases hd with
  | idle hic hh _ _ => rw [hic, hh.pins]; exact hu
  | unput _ hic hh _ _ => rw [hic, hh.pins]; exact hu
  | peek hp ho hs' hic hh _ _ => rw [hic, hh.pins]; exact hu.peek hs hp ho hs'
  | modify hp ho hs' hg hk hic hh _ _ => rw [hic, hh.pins]; exact hu.modify hp ho hs' hg hk
  | remove _ _ hp ho hs' hic hh _ _ _ => rw [hic, hh.pins]; exact hu.remove hs hp ho hs'
  | @move _ ic old oname new i h name old_path new_path env hold hp ho hs' hfound hic hh _ _ _ =>
    rw [hic, hh.pins]
    exact hu.move hs hp ho hs' fun hne => hc old oname new name hold hfound hne
  | opened hp ho _ hic hf hd _ _ =>
    rw [hic, (State.pins_push_file hf hd).1]
    exact hu.mono fun k n hb => bears_placed hp ho (fun j hj => by rw [pin_ne _ hj]; exact id) hb
  | openedDir hp ho _ hic hf hd _ _ =>
    rw [hic, (State.pins_push_dir hf hd).1]
    exact hu.mono fun k n hb => bears_placed hp ho (fun j hj => by rw [pin_ne _ hj]; exact id) hb
  | @wrote _ env fh flags buf offset f key h v hf hk hic hh _ _ =>
    obtain ⟨_, hhd⟩ := State.fileOf_some.mp hf
    rw [hic, hh.pins]
    refine hu.added (fun k n => bears_updated hhd hk.ino) fun k hb => ?_
    exact (bears_updated hhd hk.ino hb).elim (hc f key h hf k) And.left
  | closed hf hg hk _ hic hfiles hdirs _ _ =>
    obtain ⟨hslot, hhd⟩ := State.fileOf_some.mp hf
    rw [hic, (State.pins_clear_file hslot hfiles hdirs).1]
    exact hu.close hs (State.writers_of_file hf) hhd hg hk
  | closedDir hslot hic hf hd _ _ =>
    obtain ⟨key, h, hhd⟩ := State.Counted.handle_of_dir hs hslot
    rw [hic, (State.pins_clear_dir hslot hf hd).1]
    exact hu.release hs (Nat.ne_zero_of_lt (State.pins_of_dir hslot)) hhd
  | put _ _ _ hino hic hh _ hnum =>
    rw [hic, hh.pins]
    refine hu.added (fun k n => bears_put hino) fun k hb => ?_
    -- the number was not in use
    refine (bears_put hino hb).elim (fun hb => ?_) And.left
    exact absurd (hn.bears_le hb) (UInt64.not_le.mpr (lt_next hn.small))

end Step

/-- A file system over its sessions: unmounted, or mounted with the number in root.dat. -/
inductive System where
  | down (vol : Volume)
  | up (s : State) (root_dat : Option Nat)

/-- Setup with Init, a request, Destroy, and a crash. -/
inductive Event where
  | mount (config : Config) (env : Env) (mode : UInt32) (dev : Nat)
  | request (c : Env × Op)
  | destroy (saved : Bool)
  | crash

namespace System

/-- Setup leaves a root.dat behind if there was none. -/
def step : System → Event → System × Option Result
  | .down vol, .mount config env mode dev => (.up (vol.mount config env mode dev) (some vol.counter), none)
  | .up s root_dat, .request c => (.up (TableFS.step s c).1 root_dat, some (TableFS.step s c).2)
  | .up s root_dat, .destroy saved => (.down (s.destroy root_dat saved), none)
  | .up s root_dat, .crash => (.down (s.crash root_dat), none)
  | sys, _ => (sys, none)

def metadb : System → MetaDB
  | .down vol => vol.metadb
  | .up s _ => s.inode_cache.metadb

/-- Every record has a number that root.dat accounts for. -/
def Covered (m : MetaDB) (root_dat : Option Nat) : Prop :=
  ∀ k v, m.lookup k = some v → v.fstat.st_ino.toNat ≤ root_dat.getD 0

/-- The states in which an event cannot make records share a number. -/
def Separate : System → Event → Prop
  | .down vol, .mount .. => vol.counter = 0 → ∀ k, inoOf vol.metadb k = some ROOT_INODE_ID → k = rootKey
  | .up s _, .request c => Apart s c ∧ (TableFS.step s c).1.max_inode_num.toNat < 4294967296
  | .up s root_dat, .destroy false => Covered s.inode_cache.metadb root_dat
  | .up s root_dat, .crash => Covered s.inode_cache.metadb root_dat
  | _, _ => True

/-- No two records share a number, and none is beyond the counter that goes on. -/
def Distinct : System → Prop
  | .down vol => vol.Numbered ∧ ∀ k k' n, inoOf vol.metadb k = some n → inoOf vol.metadb k' = some n → k = k'
  | .up s root_dat => s.Counted ∧ s.Numbered ∧ s.inode_cache.Unshared s.pins ∧ root_dat.getD 0 < 4294967296

end System

private theorem unshared_mount {vol : Volume} (hn : vol.Numbered)
    (hu : ∀ k k' n, inoOf vol.metadb k = some n → inoOf vol.metadb k' = some n → k = k') (config : Config) (env : Env)
    (mode : UInt32) (dev : Nat)
    (hroot : vol.counter = 0 → ∀ k, inoOf vol.metadb k = some ROOT_INODE_ID → k = rootKey) :
    (vol.mount config env mode dev).inode_cache.Unshared (vol.mount config env mode dev).pins := by
  have hempty (i : Nat) : (vol.mount config env mode dev).inode_cache.handle i = none := by
    simp [Volume.mount, handle, PinnedLru.LRUCache.empty, PinnedLru.LRUCache.data]
  have hrec {k : MetaKey} {n : UInt64}
      (hb : (vol.mount config env mode dev).inode_cache.Bears (vol.mount config env mode dev).pins k n) :
      inoOf vol.metadb k = some n ∨ vol.counter = 0 ∧ k = rootKey ∧ n = ROOT_INODE_ID := by
    rcases hb with hn' | ⟨i, h, hh, _⟩
    · simp only [Volume.mount] at hn'
      split at hn'
      · rename_i h0
        have hc : vol.counter = 0 := by
          have := congrArg UInt64.toNat h0.1
          rw [UInt64.toNat_ofNat_of_lt' (by have := hn.small; simp only [UInt64.size]; omega)] at this
          exact this
        exact (bears_insert hn').imp_right fun hnew => ⟨hc, hnew⟩
      · exact .inl hn'
    · rw [hempty] at hh
      cases hh
  intro k k' n hb hb'
  rcases hrec hb with h | ⟨hc, rfl, rfl⟩
  · rcases hrec hb' with h' | ⟨hc, rfl, rfl⟩
    · exact hu k k' n h h'
    · exact hroot hc k h
  · rcases hrec hb' with h' | ⟨_, rfl, _⟩
    · exact (hroot hc k' h').symm
    · rfl

private theorem System.distinct_down {s : State} (hu : s.inode_cache.Unshared s.pins) {vol : Volume}
    (hm : vol.metadb = s.inode_cache.metadb) (hn : vol.Numbered) : System.Distinct (.down vol) :=
  ⟨hn, fun k k' n h h' => hu k k' n (.inl (hm ▸ h)) (.inl (hm ▸ h'))⟩

theorem System.Distinct.step {sys : System} (hd : sys.Distinct) {e : Event} (he : sys.Separate e) :
    (sys.step e).1.Distinct := by
  cases sys with
  | down vol =>
    cases e with
    | mount config env mode dev =>
      exact ⟨(tidy_mount vol config env mode dev).counted, hd.1.mount config env mode dev,
        unshared_mount hd.1 hd.2 config env mode dev he, hd.1.small⟩
    | request c => exact hd
    | destroy saved => exact hd
    | crash => exact hd
  | up s root_dat =>
    obtain ⟨hs, hn, hu, hsmall⟩ := hd
    cases e with
    | mount config env mode dev => exact ⟨hs, hn, hu, hsmall⟩
    | request c =>
      have hdeed := step_deed hs c.1 c.2
      exact ⟨hdeed.counted hs, hn.deed hs hdeed he.2, hdeed.unshared hs hn he.1 hu, hsmall⟩
    | destroy saved =>
      cases saved with
      | true => exact distinct_down hu (hs.destroy root_dat true) (hn.destroy hs root_dat).1
      | false =>
        refine distinct_down hu (hs.destroy root_dat false) ⟨fun k v h => ?_, hsmall⟩
        rw [hs.destroy] at h
        exact he k v h
    | crash => exact distinct_down hu rfl ⟨he, hsmall⟩

/-- Two sessions in calm surroundings, the first of them ended as given. -/
def twoSessions (first : List Op) (ending : Event) (second : List Op) : List Event :=
  .mount (.source 4096) .calm S_IFDIR 0 :: (calmly first).map .request ++
    ending :: .mount (.source 4096) .calm S_IFDIR 0 :: (calmly second).map .request

end TableFS
