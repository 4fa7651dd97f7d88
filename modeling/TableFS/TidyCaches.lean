import TableFS.RenameLoss

/-! When both caches stay in step with the store, whatever files and directories are open.
Four things break it: a record put over a name that is still cached, a batch that the store
rejects, and two ways of closing the last handle of an inode that is to be deleted or saved
under a key that has been looked up again in the meantime. -/
namespace TableFS
open Slots InodeCache Runs

/-- Every entry of the table has a record with its inode number, and is that record unless it
is open as a file. -/
def InodeCache.Copied (ic : InodeCache) (writers : Nat → Nat) : Prop :=
  ∀ k i h, ic.table k = some i → ic.handle i = some (k, h) →
    ∃ v, ic.metadb.lookup k = some v ∧ v.fstat.st_ino = h.value_.fstat.st_ino ∧ (writers i = 0 → h.value_ = v)

/-- Both caches are in step with the store. -/
structure Tidy (s : State) : Prop where
  counted : s.Counted
  copied : s.inode_cache.Copied s.writers
  dentries : s.dentry_cache.Coherent s.inode_cache.metadb
  /-- A handle that only directories hold has nothing to be saved. -/
  saved : ∀ i k h, s.inode_cache.handle i = some (k, h) → s.pins i ≠ 0 → s.writers i = 0 → h.mode_ ≠ .write

/-- The surroundings and states in which a request keeps the caches in step: records are
created where GetAttr finds none, batches are committed, and a handle to be deleted or saved
is closed for the last time only while the caches have nothing else for its key. -/
def Careful (s : State) : Env × Op → Prop
  | (env, .rename _ _) => env.commit = true
  | (_, .release fh) =>
    match s.fileOf fh with
    | none => True
    | some (_, key, h) => (h.mode_ = .delete → (s.dentry_cache.find key).2 = none) ∧
        (h.mode_ = .write → (s.dentry_cache.find key).2 = none ∨
          (s.dentry_cache.find key).2 = some h.value_.fstat.st_ino)
  | (_, .releaseDir fh) =>
    match s.dirOf fh with
    | none => True
    | some (i, key, h) => h.mode_ = .delete → s.pins i = 1 →
        s.inode_cache.table key = none ∧ (s.dentry_cache.find key).2 = none
  | (_, .makeNode path _ _) => (s.getAttr path).2.ret = -ENOENT
  | (_, .makeDir path _) => (s.getAttr path).2.ret = -ENOENT
  | (_, .symlink _ path) => (s.getAttr path).2.ret = -ENOENT
  | _ => True

instance (s : State) : DecidablePred (Careful s) := fun c => by
  obtain ⟨env, op⟩ := c
  cases op <;> unfold Careful <;> dsimp only
  case release fh => rcases s.fileOf fh with _ | ⟨f, key, h⟩ <;> dsimp only <;> infer_instance
  case releaseDir fh => rcases s.dirOf fh with _ | ⟨i, key, h⟩ <;> dsimp only <;> infer_instance
  all_goals infer_instance

namespace InodeCache
variable {ic ic' r : InodeCache} {writers writers' : Nat → Nat} {key : MetaKey} {mode : InodeAccessMode} {i : Nat}
  {h : InodeCacheHandle}

/-- Entries that were there and whose record did not change stay copies; only the others have
to be looked at. -/
private theorem Copied.of_entries (hc : ic.Copied writers) (hr : ∀ k j, r.table k = some j →
      (ic.table k = some j ∧ r.handle j = ic.handle j ∧ r.metadb.lookup k = ic.metadb.lookup k ∧
        (writers' j = 0 → writers j = 0)) ∨
      ∀ hd, r.handle j = some (k, hd) → ∃ v, r.metadb.lookup k = some v ∧
        v.fstat.st_ino = hd.value_.fstat.st_ino ∧ (writers' j = 0 → hd.value_ = v)) : r.Copied writers' := by
  intro k j hd ht hh
  rcases hr k j ht with ⟨ht', hh', hm, hw⟩ | hnew
  · obtain ⟨v, hv, hi, he⟩ := hc k j hd ht' (hh' ▸ hh)
    exact ⟨v, hm.trans hv, hi, fun h0 => he (hw h0)⟩
  · exact hnew hd hh

/-- What Get returns has the number of the record, and is the record unless it is open. -/
theorem Copied.got (hc : ic.Copied writers) (ho : Origin ic ic' key mode i h) :
    ∃ v, ic.metadb.lookup key = some v ∧ v.fstat.st_ino = h.value_.fstat.st_ino ∧
      (writers i = 0 → h.value_ = v) := by
  rcases ho.value with ⟨h0, ht, hh, he⟩ | ⟨_, hm, _⟩
  · rw [he]
    exact hc key i h0 ht hh
  · exact ⟨h.value_, hm, rfl, fun _ => rfl⟩

private theorem Sound.entry_ne {pins writers : Nat → Nat} (hs : ic.Sound pins writers) {k : MetaKey} {j : Nat}
    (ht : ic.table k = some j) {p : MetaKey × InodeCacheHandle} (hh : ic.handle i = some p) (hk : k ≠ p.1) :
    j ≠ i := by
  rintro rfl
  obtain ⟨hd, hh'⟩ := hs.entry ht
  rw [hh] at hh'
  exact hk (congrArg Prod.fst (Option.some.inj hh')).symm

/-- Placing a handle that Get returned. -/
theorem Copied.placed (hc : ic.Copied writers) (hp : Placed ic ic' key i h) (ho : Origin ic ic' key mode i h)
    {pins pinned : Nat → Nat} (hs' : ic'.Sound pins pinned) (hself : writers' i = 0 → writers i = 0)
    (hw : ∀ j, j ≠ i → writers' j = writers j) : ic'.Copied writers' := by
  refine hc.of_entries fun k j ht => ?_
  rcases hp.table k j ht with ⟨rfl, rfl⟩ | ⟨hk, ht'⟩
  · refine .inr fun hd hh => ?_
    obtain ⟨-, rfl⟩ := handle_inj hp.self hh
    obtain ⟨v, hv, hi, he⟩ := hc.got ho
    exact ⟨v, by rw [hp.metadb, hv], hi, fun h0 => he (hself h0)⟩
  · have hj : j ≠ i := hs'.entry_ne ht hp.self hk
    exact .inl ⟨ht', hp.others j hj, by rw [hp.metadb], fun h0 => (hw j hj) ▸ h0⟩

private theorem lookup_moved (m : MetaDB) {old new k : MetaKey} (hk : k ≠ old) (v : Value) (p : Prop) [Decidable p] :
    (let m' := if true then (m.erase old).insert new v else m; if p then m'.erase old else m').lookup k =
      if k = new then some v else m.lookup k := by
  have h : ((m.erase old).insert new v).lookup k = if k = new then some v else m.lookup k := by
    split_ifs with hn
    · rw [hn, Finmap.lookup_insert]
    · rw [Finmap.lookup_insert_of_ne _ hn, Finmap.lookup_erase_ne hk]
  simp only [if_true]
  split
  · rw [Finmap.lookup_erase_ne hk, h]
  · exact h

section Requests
variable {pins : Nat → Nat}

theorem Copied.peek (hc : ic.Copied writers) (hs : ic.Sound pins writers) (hp : Placed ic ic' key i h)
    (ho : Origin ic ic' key .read i h) (hs' : ic'.Sound (pin pins i) (pin writers i)) :
    (ic'.release i).Copied writers := by
  obtain ⟨htab, hhan, hm, _⟩ := Sound.peek hs hp ho hs'
  refine (hc.placed hp ho hs' id fun _ _ => rfl).of_entries fun k j hk => .inl ⟨htab ▸ hk, by rw [hhan], ?_, id⟩
  rw [hm, hp.metadb]

theorem Copied.modify (hc : ic.Copied writers) (hp : Placed ic ic' key i h) (ho : Origin ic ic' key .write i h)
    (hs' : ic'.Sound (pin pins i) (pin writers i)) {g : InodeCacheHandle → InodeCacheHandle}
    (hg : (g h).mode_ = h.mode_) : (((ic'.update i g).writeBack i).release i).Copied writers := by
  obtain ⟨htab, hself, hothers, hm, hsound⟩ := Sound.modify hp ho hs' hg
  refine hc.of_entries fun k j hk => ?_
  rcases hp.table k j (htab ▸ hk) with ⟨rfl, rfl⟩ | ⟨hne, hold⟩
  · refine .inr fun hd hhd => ?_
    obtain ⟨-, rfl⟩ := handle_inj hself hhd
    exact ⟨(g h).value_, by rw [hm, Finmap.lookup_insert], rfl, fun _ => rfl⟩
  · have hj : j ≠ i := hsound.entry_ne hk hself hne
    exact .inl ⟨hold, hothers j hj, by rw [hm, Finmap.lookup_insert_of_ne _ hne], id⟩

theorem Copied.remove (hc : ic.Copied writers) (hs : ic.Sound pins writers) (hp : Placed ic ic' key i h)
    (ho : Origin ic ic' key .delete i h) (hs' : ic'.Sound (pin pins i) (pin writers i)) :
    ((ic'.release i).evict key).Copied writers := by
  obtain ⟨htab, hhan, hm, hsound⟩ := Sound.remove hs hp ho hs'
  refine hc.of_entries fun k j hk => ?_
  obtain ⟨hne, hold⟩ := htab k j hk
  have hj : j ≠ i := hsound.entry_ne hk (by rw [hhan, hp.self]) hne
  refine .inl ⟨hold, by rw [hhan, hp.others j hj], ?_, id⟩
  rw [hm]
  split
  · exact Finmap.lookup_erase_ne hne
  · rfl

theorem Copied.move (hc : ic.Copied writers) {old new : MetaKey} (hp : Placed ic ic' old i h)
    (ho : Origin ic ic' old .delete i h) (hs' : ic'.Sound (pin pins i) (pin writers i)) {v : Value} :
    (((((ic'.insert new v).1.batchCommit i (ic'.insert new v).2 true).release (ic'.insert new v).2).release
      i).evict old).Copied writers := by
  obtain ⟨_, _, htab, hi, hj, hothers, hm, hsound⟩ := Sound.move new hp ho hs' v true
  refine hc.of_entries fun k j hk => ?_
  obtain ⟨hne, ⟨rfl, rfl⟩ | ⟨hkn, hold⟩⟩ := htab k j hk
  · refine .inr fun hd hhd => ?_
    obtain ⟨-, rfl⟩ := handle_inj hj hhd
    exact ⟨_, by rw [hm, lookup_moved _ hne, if_pos rfl], rfl, fun _ => rfl⟩
  · have hji : j ≠ i := hsound.entry_ne hk hi hne
    have hjn : j ≠ (ic'.insert new v).2 := hsound.entry_ne hk hj hkn
    exact .inl ⟨hold, hothers j hji hjn, by rw [hm, lookup_moved _ hne, if_neg hkn], id⟩

/-- A value is changed through a handle that is open as a file. -/
theorem Copied.update (hc : ic.Copied writers) (hh : ic.handle i = some (key, h)) (hw : writers i ≠ 0) {v : Value}
    (hino : v.fstat.st_ino = h.value_.fstat.st_ino) : (ic.update i fun _ => ⟨v, .write⟩).Copied writers := by
  refine hc.of_entries fun k j hj => ?_
  by_cases hji : j = i
  · subst hji
    refine .inr fun hd hd' => ?_
    obtain ⟨rfl, rfl⟩ := handle_inj (handle_update_self hh _) hd'
    obtain ⟨w, hlook, hi, _⟩ := hc key j h hj hh
    exact ⟨w, hlook, hi.trans hino.symm, fun h0 => absurd h0 hw⟩
  · exact .inl ⟨hj, handle_update_ne _ hji _, rfl, id⟩

theorem Copied.close (hc : ic.Copied writers) (hs : ic.Sound pins writers) (hw : writers i ≠ 0)
    (hh : ic.handle i = some (key, h)) {g : InodeCacheHandle → InodeCacheHandle} (hg : (g h).mode_ = h.mode_) :
    ((((ic.update i g).writeBack i).release i).evict key).Copied (unpin writers i) := by
  obtain ⟨htab, _, hothers, hm, _⟩ := Sound.close hs hw hh hg
  refine hc.of_entries fun k j hj => ?_
  rw [htab] at hj
  split at hj
  · cases hj
  · rename_i hne
    have hji : j ≠ i := hs.entry_ne hj hh hne
    exact .inl ⟨hj, hothers j hji, by rw [hm, lookup_clean_ne hne], fun h0 => by rwa [unpin_ne _ hji] at h0⟩

end Requests

end InodeCache

section Step
variable {s s' : State} {c : Env × Op}

private theorem absent_of_getAttr (hs : s.Counted) {path : CString} (h : (s.getAttr path).2.ret = -ENOENT)
    {key : MetaKey} {name : List UInt8} (hf : s.found path = some (key, name)) :
    s.inode_cache.table key = none ∧ s.inode_cache.metadb.lookup key = none := by
  unfold State.getAttr at h
  rcases State.acquire_spec hs path .read with ⟨_, habs⟩ | ⟨key', name', ic, i, hd, _, ha, _⟩
  · exact habs key name hf
  · rw [ha] at h
    change (0 : Int) = -ENOENT at h
    exact absurd h (by decide)

theorem Careful.absent (hc : Careful s c) (hs : s.Counted) {path : CString} (hop : c.2.created = some path)
    {key : MetaKey} {name : List UInt8} (hf : s.found path = some (key, name)) :
    s.inode_cache.table key = none ∧ s.inode_cache.metadb.lookup key = none := by
  obtain ⟨env, op⟩ := c
  cases op with
  | makeNode => exact absent_of_getAttr hs hc (Option.some.inj hop ▸ hf)
  | makeDir => exact absent_of_getAttr hs hc (Option.some.inj hop ▸ hf)
  | symlink => exact absent_of_getAttr hs hc (Option.some.inj hop ▸ hf)
  | _ => cases hop

private theorem Tidy.closeDir (ht : Tidy s) {env : Env} {fh i : Nat} (hslot : slot s.dirs fh = some i)
    (hc : Careful s (env, .releaseDir fh)) {key : MetaKey} {h : InodeCacheHandle}
    (hh : s.inode_cache.handle i = some (key, h)) :
    (s.inode_cache.release i).metadb = s.inode_cache.metadb ∨
      (s.inode_cache.release i).metadb = s.inode_cache.metadb.erase key ∧ s.inode_cache.table key = none ∧
        ∀ ino, ¬ s.dentry_cache.Maps key ino := by
  have hdir : s.dirOf fh = some (i, key, h) := State.dirOf_some.mpr ⟨hslot, hh⟩
  obtain ⟨_, _, _, hm⟩ := Sound.release_spec ht.counted (Nat.ne_zero_of_lt (State.pins_of_dir hslot)) hh
  rw [hm]
  split
  · rename_i hlast
    have hw : s.writers i = 0 := by
      have := State.pins_of_dir hslot
      omega
    simp only [Careful, hdir] at hc
    cases hmode : h.mode_ with
    | read => exact .inl (by simp [cleanInodeHandle, hmode])
    | write => exact absurd hmode (ht.saved i key h hh (by omega) hw)
    | delete =>
      obtain ⟨htab, hfind⟩ := hc hmode hlast.1
      refine .inr ⟨by simp [cleanInodeHandle, hmode], htab, fun ino hmaps => ?_⟩
      rw [((s.dentry_cache.find_spec key).1 ino).mpr hmaps] at hfind
      cases hfind
  · exact .inl rfl

theorem Deed.copied (hd : Deed s c s') (ht : Tidy s) (hc : Careful s c) : s'.inode_cache.Copied s'.writers := by
  have hs := ht.counted
  cases hd with
  | idle hic hh _ _ => rw [hic, hh.writers]; exact ht.copied
  | unput _ hic hh _ _ => rw [hic, hh.writers]; exact ht.copied
  | peek hp ho hs' hic hh _ _ => rw [hic, hh.writers]; exact ht.copied.peek hs hp ho hs'
  | modify hp ho hs' hg _ hic hh _ _ => rw [hic, hh.writers]; exact ht.copied.modify hp ho hs' hg
  | remove _ _ hp ho hs' hic hh _ _ _ => rw [hic, hh.writers]; exact ht.copied.remove hs hp ho hs'
  | @move _ ic old oname new i h name old_path new_path env _ hp ho hs' _ hic hh _ _ _ =>
    rw [show env.commit = true from hc] at hic
    rw [hic, hh.writers]
    exact ht.copied.move hp ho hs'
  | opened hp ho hs' hic hf hd _ _ =>
    rw [hic, (State.pins_push_file hf hd).2]
    exact ht.copied.placed hp ho hs' (fun h0 => by simp at h0) (fun j hj => pin_ne _ hj)
  | openedDir hp ho hs' hic hf hd _ _ =>
    rw [hic, (State.pins_push_dir hf hd).2]
    exact ht.copied.placed hp ho hs' id (fun _ _ => rfl)
  | wrote hf hk hic hh _ _ =>
    rw [hic, hh.writers]
    exact ht.copied.update (State.fileOf_some.mp hf).2 (State.writers_of_file hf) hk.ino
  | closed hf hg _ _ hic hfiles hdirs _ _ =>
    obtain ⟨hslot, hhd⟩ := State.fileOf_some.mp hf
    rw [hic, (State.pins_clear_file hslot hfiles hdirs).2]
    exact ht.copied.close hs (State.writers_of_file hf) hhd hg
  | @closedDir _ env fh i hslot hic hf hd _ _ =>
    obtain ⟨key, h, hhd⟩ := State.Counted.handle_of_dir hs hslot
    obtain ⟨htab, hhan, _⟩ := Sound.release_spec hs (Nat.ne_zero_of_lt (State.pins_of_dir hslot)) hhd
    rw [hic, (State.pins_clear_dir hslot hf hd).2]
    refine ht.copied.of_entries fun k j hj => ?_
    rw [htab] at hj
    refine .inl ⟨hj, by rw [hhan], ?_, id⟩
    rcases ht.closeDir hslot hc hhd with hm | ⟨hm, hnone, _⟩
    · rw [hm]
    · have hne : k ≠ key := by
        rintro rfl
        rw [hnone] at hj
        cases hj
      rw [hm, Finmap.lookup_erase_ne hne]
  | @put _ _ path key name v hop hfound _ _ hic hh _ _ =>
    obtain ⟨hnone, _⟩ := hc.absent hs hop hfound
    rw [hic, hh.writers]
    refine ht.copied.of_entries fun k j hj => ?_
    have hne : k ≠ key := by
      rintro rfl
      rw [show s.inode_cache.table k = some j from hj] at hnone
      cases hnone
    exact .inl ⟨hj, rfl, by rw [metadb_put, Finmap.lookup_insert_of_ne _ hne], id⟩

private theorem coherent_of_walks (hw : s.Walks s') (hd : s.dentry_cache.Coherent s.inode_cache.metadb)
    (h : ∀ k ino, s'.dentry_cache.Maps k ino → inoOf s'.inode_cache.metadb k = inoOf s.inode_cache.metadb k) :
    s'.dentry_cache.Coherent s'.inode_cache.metadb := by
  intro k ino hk
  obtain ⟨v, hv, hi⟩ := hw.coherent hd k ino hk
  exact Option.map_eq_some_iff.mp ((h k ino hk).trans (by rw [inoOf, hv, Option.map_some, hi]))

theorem inoOf_congr {m m' : MetaDB} {k : MetaKey} (h : m'.lookup k = m.lookup k) : inoOf m' k = inoOf m k := by
  rw [inoOf, inoOf, h]

/-- What the last change before a Release does to the numbers the dentry cache holds. -/
theorem Tidy.closeFile (ht : Tidy s) {env : Env} {fh : Nat} {f : FileHandle} {key : MetaKey} {h : InodeCacheHandle}
    (hf : s.fileOf fh = some (f, key, h)) (hc : Careful s (env, .release fh))
    {g : InodeCacheHandle → InodeCacheHandle} (hg : (g h).mode_ = h.mode_) (hk : Keeps h.value_ (g h).value_)
    {ino : UInt64} (hmaps : s.dentry_cache.Maps key ino) :
    inoOf (cleanInodeHandle key (g h) s.inode_cache.metadb) key = inoOf s.inode_cache.metadb key := by
  have hfind := ((s.dentry_cache.find_spec key).1 ino).mpr hmaps
  obtain ⟨v, hv, hi⟩ := ht.dentries key ino hmaps
  simp only [Careful, hf] at hc
  cases hmode : h.mode_ with
  | read => simp [cleanInodeHandle, hg, hmode]
  | delete =>
    rw [hc.1 hmode] at hfind
    cases hfind
  | write =>
    rcases hc.2 hmode with hnone | hsame
    · rw [hnone] at hfind
      cases hfind
    · rw [hfind] at hsame
      simp [cleanInodeHandle, hg, hmode, inoOf, hv, hi, hk.ino, Option.some.inj hsame]

theorem Deed.dentries (hd : Deed s c s') (ht : Tidy s) (hc : Careful s c) :
    s'.dentry_cache.Coherent s'.inode_cache.metadb := by
  have hs := ht.counted
  have hsame (hw : s.Walks s') (hm : s'.inode_cache.metadb = s.inode_cache.metadb) :
      s'.dentry_cache.Coherent s'.inode_cache.metadb := coherent_of_walks hw ht.dentries fun _ _ _ => by rw [hm]
  cases hd with
  | idle hic _ hw _ => exact hsame hw (congrArg metadb hic)
  | peek hp ho hs' hic _ hw _ => exact hsame hw ((congrArg metadb hic).trans (Sound.peek hs hp ho hs').2.2.1)
  | @modify _ _ ic key i h g hp ho hs' hg hk hic _ hw _ =>
    obtain ⟨_, _, _, hm, _⟩ := Sound.modify hp ho hs' hg
    obtain ⟨v, hv, hi, _⟩ := ht.copied.got ho
    refine coherent_of_walks hw ht.dentries fun k _ _ => ?_
    rw [hic, hm]
    by_cases hkey : k = key
    · subst hkey
      simp [inoOf, hv, hi, hk.ino]
    · exact inoOf_congr (Finmap.lookup_insert_of_ne _ hkey)
  | @remove _ _ path key name ic i h _ _ hp ho hs' hic _ hw hgone _ =>
    obtain ⟨_, _, hm, _⟩ := Sound.remove hs hp ho hs'
    refine coherent_of_walks hw ht.dentries fun k ino hk => ?_
    have hne : k ≠ key := by
      rintro rfl
      exact hgone ino hk
    rw [hic, hm]
    split
    · exact inoOf_congr (Finmap.lookup_erase_ne hne)
    · rfl
  | @move _ ic old oname new i h name old_path new_path env _ hp ho hs' _ hic _ hw hgone _ =>
    rw [show env.commit = true from hc] at hic
    obtain ⟨_, _, _, _, _, _, hm, _⟩ := Sound.move new hp ho hs' (renameInodeValue h.value_ name) true
    refine coherent_of_walks hw ht.dentries fun k ino hk => ?_
    have hold : k ≠ old := fun he => hgone k ino (.inl he) hk
    have hnew : k ≠ new := fun he => hgone k ino (.inr he) hk
    rw [hic, hm]
    exact inoOf_congr (by rw [lookup_moved _ hold, if_neg hnew])
  | opened hp _ _ hic _ _ hw _ => exact hsame hw ((congrArg metadb hic).trans hp.metadb)
  | openedDir hp _ _ hic _ _ hw _ => exact hsame hw ((congrArg metadb hic).trans hp.metadb)
  | wrote _ _ hic _ hd _ => exact hsame (.of_eq hd) ((congrArg metadb hic).trans (metadb_update _ _ _))
  | @closed _ env fh f key h g hf hg hk _ hic _ _ hd _ =>
    obtain ⟨_, hhd⟩ := State.fileOf_some.mp hf
    obtain ⟨_, _, _, hm, _⟩ := Sound.close hs (State.writers_of_file hf) hhd hg
    refine coherent_of_walks (.of_eq hd) ht.dentries fun k ino hmaps => ?_
    rw [hd] at hmaps
    rw [hic, hm]
    by_cases hkey : k = key
    · subst hkey
      exact ht.closeFile hf hc hg hk hmaps
    · exact inoOf_congr (lookup_clean_ne hkey _ _)
  | @closedDir _ env fh i hslot hic _ _ hd _ =>
    obtain ⟨key, h, hhd⟩ := State.Counted.handle_of_dir hs hslot
    refine coherent_of_walks (.of_eq hd) ht.dentries fun k ino hmaps => ?_
    rw [hd] at hmaps
    rw [hic]
    rcases ht.closeDir hslot hc hhd with hm | ⟨hm, _, hgone⟩
    · rw [hm]
    · have hne : k ≠ key := by
        rintro rfl
        exact hgone ino hmaps
      rw [hm]
      exact inoOf_congr (Finmap.lookup_erase_ne hne)
  | @put _ _ path key name v hop hfound _ _ hic _ hw _ =>
    obtain ⟨_, hnone⟩ := hc.absent hs hop hfound
    refine coherent_of_walks hw ht.dentries fun k ino hmaps => ?_
    have hne : k ≠ key := by
      rintro rfl
      obtain ⟨v, hv, _⟩ := hw.coherent ht.dentries k ino hmaps
      rw [hnone] at hv
      cases hv
    rw [hic, metadb_put]
    exact inoOf_congr (Finmap.lookup_insert_of_ne _ hne)
  | unput _ hic _ hw _ => exact hsame hw (congrArg metadb hic)

private theorem Tidy.read_mode (ht : Tidy s) {ic : InodeCache} {key : MetaKey} {i : Nat} {h : InodeCacheHandle}
    (ho : Origin s.inode_cache ic key .read i h) (hw : s.writers i = 0) : h.mode_ = .read := by
  cases ho with
  | hit h0 htab hhan _ => exact ht.counted.clean key i h0 htab hhan hw
  | miss => rfl

theorem Deed.saved (hd : Deed s c s') (ht : Tidy s) (i : Nat) (k : MetaKey) (h : InodeCacheHandle)
    (hh : s'.inode_cache.handle i = some (k, h)) (hp : s'.pins i ≠ 0) (hw : s'.writers i = 0) : h.mode_ ≠ .write := by
  have hs := ht.counted
  -- a handle that did not change
  have hsame (hhan : s'.inode_cache.handle i = s.inode_cache.handle i) (hpins : s.pins i ≠ 0)
      (hwr : s.writers i = 0) : h.mode_ ≠ .write := ht.saved i k h (hhan ▸ hh) hpins hwr
  -- a handle whose mode is known
  have hself {key : MetaKey} {hd : InodeCacheHandle} (hhan : s'.inode_cache.handle i = some (key, hd))
      (hmode : hd.mode_ ≠ .write) : h.mode_ ≠ .write := by
    obtain ⟨-, rfl⟩ := handle_inj hhan hh
    exact hmode
  cases hd with
  | idle hic hsh _ _ => exact hsame (by rw [hic]) (hsh.pins ▸ hp) (hsh.writers ▸ hw)
  | @peek _ _ ic key j hd hplaced ho hs' hic hsh _ _ =>
    obtain ⟨_, hhan, _⟩ := Sound.peek hs hplaced ho hs'
    rw [hsh.pins] at hp
    rw [hsh.writers] at hw
    by_cases hij : i = j
    · subst hij
      exact hself (by rw [hic, hhan, hplaced.self]) (by rw [ht.read_mode ho hw]; decide)
    · exact hsame (by rw [hic, hhan, hplaced.others i hij]) hp hw
  | @modify _ _ ic key j hd g hplaced ho hs' hg _ hic hsh _ _ =>
    obtain ⟨_, hj, hothers, _⟩ := Sound.modify hplaced ho hs' hg
    by_cases hij : i = j
    · subst hij
      exact hself (by rw [hic, hj]) (by simp)
    · exact hsame (by rw [hic, hothers i hij]) (hsh.pins ▸ hp) (hsh.writers ▸ hw)
  | @remove _ _ path key name ic j hd _ _ hplaced ho hs' hic hsh _ _ _ =>
    obtain ⟨_, hhan, _⟩ := Sound.remove hs hplaced ho hs'
    by_cases hij : i = j
    · subst hij
      exact hself (by rw [hic, hhan, hplaced.self]) (by rw [ho.mode_eq (by decide)]; decide)
    · exact hsame (by rw [hic, hhan, hplaced.others i hij]) (hsh.pins ▸ hp) (hsh.writers ▸ hw)
  | @move _ ic old oname new j hd name old_path new_path env _ hplaced ho hs' _ hic hsh _ _ _ =>
    obtain ⟨_, _, _, hold, hnew, hothers, _⟩ :=
      Sound.move new hplaced ho hs' (renameInodeValue hd.value_ name) env.commit
    by_cases hij : i = j
    · subst hij
      exact hself (by rw [hic, hold]) (by simp)
    · by_cases hin : i = (ic.insert new (renameInodeValue hd.value_ name)).2
      · exact hself (by rw [hic, hin, hnew]) (by simp)
      · exact hsame (by rw [hic, hothers i hij hin]) (hsh.pins ▸ hp) (hsh.writers ▸ hw)
  | @opened _ _ ic key mode j hd flags fd hplaced _ _ hic hfiles hdirs _ _ =>
    rw [(State.pins_push_file hfiles hdirs).1] at hp
    rw [(State.pins_push_file hfiles hdirs).2] at hw
    have hij : i ≠ j := by
      rintro rfl
      simp at hw
    rw [pin_ne _ hij] at hp hw
    exact hsame (by rw [hic, hplaced.others i hij]) hp hw
  | @openedDir _ _ ic key j hd hplaced ho _ hic hfiles hdirs _ _ =>
    rw [(State.pins_push_dir hfiles hdirs).1] at hp
    rw [(State.pins_push_dir hfiles hdirs).2] at hw
    by_cases hij : i = j
    · subst hij
      exact hself (by rw [hic, hplaced.self]) (by rw [ht.read_mode ho hw]; decide)
    · rw [pin_ne _ hij] at hp
      exact hsame (by rw [hic, hplaced.others i hij]) hp hw
  | @wrote _ env fh flags buf offset f key hd v hf _ hic hsh _ _ =>
    rw [hsh.pins] at hp
    rw [hsh.writers] at hw
    have hij : i ≠ f.handle_ := by
      rintro rfl
      exact State.writers_of_file hf hw
    exact hsame (by rw [hic, handle_update_ne _ hij]) hp hw
  | @closed _ env fh f key hd g hf hg _ _ hic hfiles hdirs _ _ =>
    obtain ⟨hslot, hhd⟩ := State.fileOf_some.mp hf
    obtain ⟨_, hj, hothers, _⟩ := Sound.close hs (State.writers_of_file hf) hhd hg
    by_cases hij : i = f.handle_
    · subst hij
      refine hself (by rw [hic, hj]) ?_
      cases hd.mode_ <;> simp [settled]
    · rw [(State.pins_clear_file hslot hfiles hdirs).1, unpin_ne _ hij] at hp
      rw [(State.pins_clear_file hslot hfiles hdirs).2, unpin_ne _ hij] at hw
      exact hsame (by rw [hic, hothers i hij]) hp hw
  | @closedDir _ env fh j hslot hic hfiles hdirs _ _ =>
    obtain ⟨key, hd, hhd⟩ := State.Counted.handle_of_dir hs hslot
    obtain ⟨_, hhan, _⟩ := Sound.release_spec hs (Nat.ne_zero_of_lt (State.pins_of_dir hslot)) hhd
    rw [(State.pins_clear_dir hslot hfiles hdirs).1] at hp
    rw [(State.pins_clear_dir hslot hfiles hdirs).2] at hw
    refine hsame (by rw [hic, hhan]) (fun h0 => hp ?_) hw
    by_cases hij : i = j
    · subst hij
      simp [h0]
    · rw [unpin_ne _ hij, h0]
  | put _ _ _ _ hic hsh _ _ => exact hsame (by rw [hic]; rfl) (hsh.pins ▸ hp) (hsh.writers ▸ hw)
  | unput _ hic hsh _ _ => exact hsame (by rw [hic]) (hsh.pins ▸ hp) (hsh.writers ▸ hw)

/-- A careful request keeps both caches in step with the store. -/
theorem Tidy.step (ht : Tidy s) {c : Env × Op} (hc : Careful s c) : Tidy (step s c).1 :=
  have hd := step_deed ht.counted c.1 c.2
  ⟨hd.counted ht.counted, hd.copied ht hc, hd.dentries ht hc, hd.saved ht⟩

end Step

/-- With empty caches and nothing open, everything is in step. -/
theorem tidy_of_empty {s : State} (hc : s.inode_cache.cache = .empty s.inode_cache.cache.capacity
    s.inode_cache.cache.shard) (hd : s.dentry_cache.cache = []) (hf : s.files = []) (hdirs : s.dirs = []) : Tidy s := by
  have htab (k : MetaKey) : s.inode_cache.table k = none := by
    rw [InodeCache.table, hc]
    rfl
  have hhan (i : Nat) : s.inode_cache.handle i = none := by
    rw [InodeCache.handle, hc]
    simp [PinnedLru.LRUCache.data, PinnedLru.LRUCache.empty]
  have hidle : s.Idle := State.idle_of_nil hf hdirs
  refine ⟨⟨?_, fun k i h ht => ?_, fun i => ?_⟩, fun k i h ht => ?_, fun k ino hm => ?_, fun i k h hh => ?_⟩
  · rw [hc, show s.pins = fun _ => 0 from funext hidle.pins_eq]
    exact PinnedLru.LRUCache.counted_empty _ _
  · simp [htab] at ht
  · rw [hidle.pins_eq, State.writers, hidle.writers_eq]
  · simp [htab] at ht
  · obtain ⟨n, hn, _⟩ := hm
    simp [hd] at hn
  · simp [hhan] at hh

/-- With no file open, what the inode cache shows is what the store holds. -/
theorem Tidy.visible_eq {s : State} (ht : Tidy s) (hfiles : ∀ fh, slot s.files fh = none) (k : MetaKey) :
    s.visible k = s.inode_cache.metadb.lookup k := by
  unfold State.visible
  cases htab : s.inode_cache.table k with
  | none => rfl
  | some i =>
    obtain ⟨h, hh⟩ := ht.counted.entry htab
    obtain ⟨v, hv, _, he⟩ := ht.copied k i h htab hh
    simp [hh, hv, he (State.writers_of_closed hfiles i)]

theorem tidy_init (config : Config) (env : Env) (mode : UInt32) (dev : Nat) :
    Tidy (State.init config env mode dev) := tidy_of_empty rfl rfl rfl rfl

/-- In every careful run the dentry cache agrees with the store, the inode cache does once no
file is open, and a path leads where the store says, so that what is created below it is
attached to the inode its parent has now. -/
theorem caches_in_step (config : Config) (env : Env) (mode : UInt32) (dev : Nat) {calls : List (Env × Op)}
    (hok : Allowed step Careful (State.init config env mode dev) calls) :
    let s := (run step (State.init config env mode dev) calls).1
    (∀ k ino, s.dentry_cache.Maps k ino → inoOf s.inode_cache.metadb k = some ino) ∧
      ((∀ fh, slot s.files fh = none) → ∀ k, s.visible k = s.inode_cache.metadb.lookup k) ∧
      ∀ path, s.found path = resolve s.inode_cache.metadb path := by
  intro s
  have ht : Tidy s := run_invariant Tidy (fun _ _ ht hc => ht.step hc) (tidy_init config env mode dev) hok
  refine ⟨fun k ino hm => ?_, ht.visible_eq, fun path => (pathLookup_spec ht.dentries path).1⟩
  obtain ⟨v, hv, hi⟩ := ht.dentries k ino hm
  rw [inoOf, hv, Option.map_some, hi]

/-- A directory that is removed while open and created again after it was closed. -/
theorem caches_in_step_recreated :
    let s := (run step (State.fresh 4096) (calmly [.makeDir (inRoot [100]) 0, .openDir (inRoot [100]),
      .removeDir (inRoot [100]), .releaseDir 0, .makeDir (inRoot [100]) 0, .getAttr (inRoot [100, 47, 120])])).1
    s.found (inRoot [100, 47, 120]) = some (buildMetaKey [120] 2, [120]) := by
  intro s
  have hok : Allowed step Careful (State.fresh 4096) (calmly [.makeDir (inRoot [100]) 0, .openDir (inRoot [100]),
      .removeDir (inRoot [100]), .releaseDir 0, .makeDir (inRoot [100]) 0, .getAttr (inRoot [100, 47, 120])]) := by
    decide +kernel
  exact ((caches_in_step _ _ _ _ hok).2.2 _).trans (by decide +kernel)

/-- A lookup below the removed directory, before its handle is released, leaves its number in
the dentry cache for good: the directory made under the same name next is number 2, but a file
created below it is stored below number 1. -/
theorem stale_dentry_after_releaseDir :
    let s := (run step (State.fresh 4096) (calmly [.makeDir (inRoot [100]) 0, .openDir (inRoot [100]),
      .removeDir (inRoot [100]), .getAttr (inRoot [100, 47, 120]), .releaseDir 0])).1
    let r := run step s (calmly [.getAttr (inRoot [100]), .makeDir (inRoot [100]) 0,
      .makeNode (inRoot [100, 47, 120]) 0 0])
    s.files.all (·.isNone) ∧ s.dirs.all (·.isNone) ∧ (s.dentry_cache.find (buildMetaKey [100] 0)).2 = some 1 ∧
      s.inode_cache.metadb.lookup (buildMetaKey [100] 0) = none ∧
      r.2.map (·.ret) = ([-ENOENT, 0, 0] : List Int) ∧
      inoOf r.1.inode_cache.metadb (buildMetaKey [100] 0) = some 2 ∧
      (r.1.inode_cache.metadb.lookup (buildMetaKey [120] 1)).isSome ∧
      r.1.inode_cache.metadb.lookup (buildMetaKey [120] 2) = none := by
  decide +kernel

end TableFS
