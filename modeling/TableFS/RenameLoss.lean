import TableFS.Records

/-! Rename with no handle open. The old handle stays marked for deletion after the batch is
committed, so its deleter deletes the old key once more: between distinct keys this does
nothing, on one key it removes the record just stored. -/
namespace TableFS
open Slots InodeCache Runs

namespace State

/-- No file and no directory is open. -/
def Idle (s : State) : Prop := (∀ fh, slot s.files fh = none) ∧ ∀ fh, slot s.dirs fh = none

/-- The value a lookup by key gives, through the inode cache. -/
def visible (s : State) (key : MetaKey) : Option Value :=
  match s.inode_cache.table key with
  | some i => (s.inode_cache.handle i).map fun h => h.2.value_
  | none => s.inode_cache.metadb.lookup key

/-- The path leads to an inode, in the cache or in the store. -/
def Leads (s : State) (path : CString) : Prop := ∃ x ∈ s.found path, (s.visible x.1).isSome = true

instance (s : State) (path : CString) : Decidable (s.Leads path) := inferInstanceAs (Decidable (∃ x ∈ s.found path, _))

/-- The keys the two paths of a Rename resolve to. -/
def renameKeys (s : State) (old_path new_path : CString) : Option (MetaKey × MetaKey) :=
  (s.found old_path).bind fun old =>
    (pathLookup (s.looked old_path) s.inode_cache.metadb new_path).2.map fun new => (old.1, new.1)

theorem idle_of_nil {s : State} (hf : s.files = []) (hd : s.dirs = []) : s.Idle :=
  ⟨fun fh => by simp [hf, slot], fun fh => by simp [hd, slot]⟩

theorem writers_of_closed {s : State} (h : ∀ fh, slot s.files fh = none) (i : Nat) : s.writers i = 0 := by
  by_contra hne
  obtain ⟨fh, f, hf, _⟩ := (count_pos_iff _ _).mp (Nat.pos_of_ne_zero hne)
  simp [h fh] at hf

theorem Idle.writers_eq {s : State} (h : s.Idle) (i : Nat) : openCount s.files i = 0 := writers_of_closed h.1 i

theorem Idle.pins_eq {s : State} (h : s.Idle) (i : Nat) : s.pins i = 0 := by
  have hd : dirCount s.dirs i = 0 := by
    by_contra hne
    obtain ⟨fh, j, hj, _⟩ := (count_pos_iff _ _).mp (Nat.pos_of_ne_zero hne)
    simp [h.2 fh] at hj
  simp [pins, h.writers_eq i, hd]

theorem visible_of_origin {s : State} {ic : InodeCache} {key : MetaKey} {mode : InodeAccessMode} {i : Nat}
    {h : InodeCacheHandle} (ho : Origin s.inode_cache ic key mode i h) : s.visible key = some h.value_ := by
  rcases ho.value with ⟨h0, ht, hd, he⟩ | ⟨ht, hm, _⟩
  · simp [visible, ht, hd, he]
  · simp [visible, ht, hm]

private theorem visible_eq_none {s : State} {key : MetaKey} (ht : s.inode_cache.table key = none)
    (hm : s.inode_cache.metadb.lookup key = none) : s.visible key = none := by
  simp only [visible, ht, hm]

/-- InodeCache::Get finds the inode that the cache or the store has under the key. -/
theorem getInode_isSome (s : State) (key : MetaKey) (mode : InodeAccessMode) :
    (s.getInode key mode).2.isSome = (s.visible key).isSome := by
  unfold getInode visible InodeCache.get InodeCache.table
  rw [PinnedLru.LRUCache.lookup]
  cases s.inode_cache.cache.table.lookup key with
  | none =>
    cases s.inode_cache.metadb.lookup key with
    | none => rfl
    | some v =>
      -- the new handle has its place in the heap, whatever the eviction drops from the table
      have hdata : (s.inode_cache.cache.insert cleanInodeHandle key ⟨v, mode⟩ s.inode_cache.metadb).1.data
          (s.inode_cache.cache.insert cleanInodeHandle key ⟨v, mode⟩ s.inode_cache.metadb).2.2 =
          some (key, ⟨v, mode⟩) := by
        simp only [PinnedLru.LRUCache.insert]
        rw [(PinnedLru.LRUCache.shrunk_evict ..).data, PinnedLru.LRUCache.data_add, if_pos rfl]
      simp [handle, hdata]
  | some i => simp [handle, PinnedLru.LRUCache.data_update]

/-- A request gets hold of an inode exactly if its path leads to one. -/
theorem acquire_isSome_iff (s : State) (path : CString) (mode : InodeAccessMode) :
    (s.acquire path mode).2.isSome = true ↔ s.Leads path := by
  unfold acquire
  rw [lookup_eq, Leads]
  rcases s.found path with _ | ⟨key, name⟩
  · exact iff_of_false Bool.false_ne_true (by simp)
  · have hget : _ = (s.visible key).isSome := getInode_isSome { s with dentry_cache := s.looked path } key mode
    simpa using iff_of_eq (congrArg (· = true) hget)

/-- A request that works on a record finds the visible one. -/
theorem acquire_of_visible {s : State} (hs : s.Counted) {path : CString} {key : MetaKey} {name : List UInt8}
    (hfound : s.found path = some (key, name)) {v : Value} (hv : s.visible key = some v) (mode : InodeAccessMode) :
    ∃ ic i h, h.value_ = v ∧ s.acquire path mode =
        ({ s with dentry_cache := s.looked path, inode_cache := ic }, some (key, i, h.value_)) ∧
      Placed s.inode_cache ic key i h ∧ Origin s.inode_cache ic key mode i h ∧
      ic.Sound (pin s.pins i) (pin s.writers i) := by
  rcases acquire_spec hs path mode with ⟨_, hnone⟩ | ⟨key', name', ic, i, h, hf, ha, hp, ho, hs'⟩
  · obtain ⟨ht, hm⟩ := hnone key name hfound
    rw [visible_eq_none ht hm] at hv
    cases hv
  · obtain ⟨rfl, rfl⟩ := Prod.mk.inj (Option.some.inj (hfound.symm.trans hf))
    exact ⟨ic, i, h, (Option.some.inj (hv.symm.trans (visible_of_origin ho))).symm, ha, hp, ho, hs'⟩

/-- A value that was changed in place and written back is the visible one. -/
theorem visible_modify {s s' : State} {pins writers : Nat → Nat} {ic : InodeCache} {key : MetaKey} {i : Nat}
    {h : InodeCacheHandle} {g : InodeCacheHandle → InodeCacheHandle} (hp : Placed s.inode_cache ic key i h)
    (ho : Origin s.inode_cache ic key .write i h) (hs : ic.Sound (pin pins i) (pin writers i))
    (hg : (g h).mode_ = h.mode_) (hic : s'.inode_cache = ((ic.update i g).writeBack i).release i) :
    s'.visible key = some (g h).value_ := by
  obtain ⟨ht, hself, _, hm, _⟩ := Sound.modify hp ho hs hg
  rw [visible, hic, ht, hm]
  cases hk : ic.table key with
  | none => exact Finmap.lookup_insert _
  | some j =>
    obtain ⟨_, rfl⟩ : key = key ∧ j = i := (hp.table key j hk).resolve_right fun hr => hr.1 rfl
    dsimp only
    rw [hself]
    rfl

end State

/-- The inode cache after entries of the given keys were evicted. -/
def InodeCache.evictAll (ic : InodeCache) (keys : List MetaKey) : InodeCache := keys.foldl InodeCache.evict ic

theorem InodeCache.Sound.evictAll {ic : InodeCache} {pins writers : Nat → Nat} (hs : ic.Sound pins writers)
    (keys : List MetaKey) : (ic.evictAll keys).metadb = ic.metadb := by
  induction keys generalizing ic with
  | nil => rfl
  | cons k ks ih => exact (ih (hs.evict k).1).trans (hs.evict k).2

/-- Two values with the same attributes, storage flag and inline data. -/
def SameFile (v v' : Value) : Prop :=
  v'.fstat = v.fstat ∧ v'.header.has_blob = v.header.has_blob ∧ v'.inline = v.inline

/-- A Rename that returns 0 resolved both paths and moved the record in the inode cache. -/
theorem rename_spec {s : State} (hs : s.Counted) {env : Env} {old_path new_path : CString}
    (hret : (s.rename env old_path new_path).2.ret = 0) :
    ∃ old oname new name ic i h, s.found old_path = some (old, oname) ∧
      (pathLookup (s.looked old_path) s.inode_cache.metadb new_path).2 = some (new, name) ∧
      Placed s.inode_cache ic old i h ∧ Origin s.inode_cache ic old .delete i h ∧
      ic.Sound (pin s.pins i) (pin s.writers i) ∧
      (s.rename env old_path new_path).1 = { s with
        inode_cache := ((((ic.insert new (renameInodeValue h.value_ name)).1.batchCommit i
          (ic.insert new (renameInodeValue h.value_ name)).2 env.commit).release
          (ic.insert new (renameInodeValue h.value_ name)).2).release i).evict old
        dentry_cache :=
          ((pathLookup (s.looked old_path) s.inode_cache.metadb new_path).1.evict old).evict new } := by
  unfold State.rename at hret ⊢
  rw [State.lookup_eq] at hret ⊢
  rcases hfo : s.found old_path with _ | ⟨old, oname⟩
  · rw [hfo] at hret
    cases hret
  · rw [hfo] at hret
    simp only [State.lookup_eq] at hret ⊢
    rcases hfn : State.found { s with dentry_cache := s.looked old_path } new_path with _ | ⟨new, name⟩
    · rw [hfn] at hret
      cases hret
    · rw [hfn] at hret
      dsimp only [State.renameKey] at hret ⊢
      rcases State.getInode_spec (s := { s with
          dentry_cache := State.looked { s with dentry_cache := s.looked old_path } new_path }) hs old .delete with
        ⟨hg, _⟩ | ⟨ic, i, h, hg, hp, ho, hs'⟩
      · rw [hg] at hret
        cases hret
      · rw [hg]
        exact ⟨old, oname, new, name, ic, i, h, rfl, hfn, hp, ho, hs', rfl⟩

/-- With no handle open, a Rename that returns 0 leaves at the new key a record with the
attributes, storage flag and inline data of the old one, for good, exactly if the two paths
resolve to different keys. -/
theorem rename_keeps_file_iff {s : State} (hr : Reachable s) (hidle : s.Idle) {env : Env}
    (hcommit : env.commit = true) {old_path new_path : CString}
    (hret : (s.rename env old_path new_path).2.ret = 0) :
    ∃ old new v, s.renameKeys old_path new_path = some (old, new) ∧ s.visible old = some v ∧
      ((∀ keys, ∃ v', ((s.rename env old_path new_path).1.inode_cache.evictAll keys).metadb.lookup new = some v' ∧
        SameFile v v') ↔ old ≠ new) := by
  obtain ⟨old, oname, new, name, ic, i, h, hfo, hfn, hp, ho, hs', heq⟩ := rename_spec hr.ok.counted hret
  obtain ⟨_, _, _, _, _, _, hm, hs2⟩ := Sound.move new hp ho hs' (renameInodeValue h.value_ name) true
  have hkeys : s.renameKeys old_path new_path = some (old, new) := by
    simp only [State.renameKeys, hfo, Option.bind_some, hfn, Option.map_some]
  refine ⟨old, new, h.value_, hkeys, State.visible_of_origin ho, ?_⟩
  simp only [heq, hcommit, hs2.evictAll, hm, hidle.pins_eq i, if_true]
  constructor
  · rintro hall rfl
    obtain ⟨v', hv', _⟩ := hall []
    simp at hv'
  · intro hne _
    refine ⟨renameInodeValue h.value_ name, ?_, rfl, rfl, inline_renameInodeValue h.value_ name⟩
    rw [Finmap.lookup_erase_ne hne.symm, Finmap.lookup_insert]

/-- A file renamed to a new name. -/
theorem rename_keeps_file_iff_new_name :
    let s := (run step (State.fresh 4096) (calmly [.makeNode (inRoot [97]) 0 0])).1
    ∃ old new v, s.renameKeys (inRoot [97]) (inRoot [98]) = some (old, new) ∧ s.visible old = some v ∧
      ((∀ keys, ∃ v', ((s.rename .calm (inRoot [97]) (inRoot [98])).1.inode_cache.evictAll keys).metadb.lookup
        new = some v' ∧ SameFile v v') ↔ old ≠ new) := by
  have hidle : State.Idle (run step (State.fresh 4096) (calmly [.makeNode (inRoot [97]) 0 0])).1 :=
    State.idle_of_nil rfl rfl
  exact rename_keeps_file_iff (State.reachable_fresh _ _) hidle rfl (by decide +kernel)

/-- Rename of a path to itself returns 0 and the record is gone. -/
theorem rename_to_itself_loses_file :
    let s := (run step (State.fresh 4096) (calmly [.makeNode (inRoot [97]) 0 0])).1
    let s' := (s.rename .calm (inRoot [97]) (inRoot [97])).1
    Reachable s ∧ (s.getAttr (inRoot [97])).2.ret = 0 ∧ (s.rename .calm (inRoot [97]) (inRoot [97])).2.ret = 0 ∧
      s'.inode_cache.metadb.lookup (buildMetaKey [97] ROOT_INODE_ID) = none ∧
      (s'.getAttr (inRoot [97])).2.ret = -ENOENT := by
  refine ⟨State.reachable_fresh _ _, ?_⟩
  decide +kernel

/-- A Rename whose paths resolve and whose old record is visible returns 0, committed or not. -/
theorem rename_ret_of_visible {s : State} (hs : s.Counted) (env : Env) {old_path new_path : CString}
    {old new : MetaKey} (hkeys : s.renameKeys old_path new_path = some (old, new)) {v : Value}
    (hv : s.visible old = some v) : (s.rename env old_path new_path).2.ret = 0 := by
  obtain ⟨⟨old', oname⟩, hfo, hmap⟩ := Option.bind_eq_some_iff.mp hkeys
  obtain ⟨⟨new', name⟩, hfn, heq⟩ := Option.map_eq_some_iff.mp hmap
  obtain ⟨rfl, rfl⟩ := Prod.mk.inj heq
  have hfn' : State.found { s with dentry_cache := s.looked old_path } new_path = some (new', name) := hfn
  unfold State.rename
  rw [State.lookup_eq, hfo]
  simp only [State.lookup_eq, hfn', State.renameKey]
  rcases State.getInode_spec (s := { s with
      dentry_cache := State.looked { s with dentry_cache := s.looked old_path } new_path }) hs old' .delete with
    ⟨_, ht, hm⟩ | ⟨ic, i, h, hg, _⟩
  · have hn : s.visible old' = none := by
      rw [State.visible, show s.inode_cache.table old' = none from ht]
      exact hm
    rw [hn] at hv
    cases hv
  · rw [hg]

/-- With no handle open, a Rename whose batch the store rejects still returns 0, and the
release of the old handle deletes the old record: the store has lost the file, nothing was
put under the new key, and no eviction brings it back. -/
theorem rename_uncommitted_loses_file {s : State} (hr : Reachable s) (hidle : s.Idle) {env : Env}
    (hcommit : env.commit = false) {old_path new_path : CString} {old new : MetaKey}
    (hkeys : s.renameKeys old_path new_path = some (old, new)) {v : Value}
    (hv : s.visible old = some v) :
    (s.rename env old_path new_path).2.ret = 0 ∧
      ∀ keys, ((s.rename env old_path new_path).1.inode_cache.evictAll keys).metadb =
        s.inode_cache.metadb.erase old := by
  have hret := rename_ret_of_visible hr.ok.counted env hkeys hv
  obtain ⟨old', oname, new', name, ic, i, h, hfo, hfn, hp, ho, hs', heq⟩ := rename_spec hr.ok.counted hret
  have hkeys' : s.renameKeys old_path new_path = some (old', new') := by
    simp only [State.renameKeys, hfo, Option.bind_some, hfn, Option.map_some]
  obtain ⟨rfl, rfl⟩ := Prod.mk.inj (Option.some.inj (hkeys'.symm.trans hkeys))
  obtain ⟨_, _, _, _, _, _, hm, hs2⟩ := Sound.move new' hp ho hs' (renameInodeValue h.value_ name) false
  refine ⟨hret, fun keys => ?_⟩
  simp [heq, hcommit, hs2.evictAll, hm, hidle.pins_eq i]

/-- A file created in the root and renamed while the store rejects batches. -/
theorem rename_uncommitted_loses_file_new_name :
    let s := (run step (State.fresh 4096) (calmly [.makeNode (inRoot [97]) 0 0])).1
    let env := { Env.calm with commit := false }
    (s.rename env (inRoot [97]) (inRoot [98])).2.ret = 0 ∧
      ∀ keys, ((s.rename env (inRoot [97]) (inRoot [98])).1.inode_cache.evictAll keys).metadb =
        s.inode_cache.metadb.erase (buildMetaKey [97] ROOT_INODE_ID) := by
  have hidle : State.Idle (run step (State.fresh 4096) (calmly [.makeNode (inRoot [97]) 0 0])).1 :=
    State.idle_of_nil rfl rfl
  have hkeys : State.renameKeys (run step (State.fresh 4096) (calmly [.makeNode (inRoot [97]) 0 0])).1
      (inRoot [97]) (inRoot [98]) =
        some (buildMetaKey [97] ROOT_INODE_ID, buildMetaKey [98] ROOT_INODE_ID) := by decide +kernel
  obtain ⟨v, hv⟩ := Option.isSome_iff_exists.mp (show (State.visible
      (run step (State.fresh 4096) (calmly [.makeNode (inRoot [97]) 0 0])).1
      (buildMetaKey [97] ROOT_INODE_ID)).isSome = true by decide +kernel)
  exact rename_uncommitted_loses_file (State.reachable_fresh _ _) hidle rfl hkeys hv

/-- The record is in the store before the rejected Rename and under neither name after it. -/
theorem rename_uncommitted_run :
    let s := (run step (State.fresh 4096) (calmly [.makeNode (inRoot [97]) 0 0])).1
    let r := s.rename { Env.calm with commit := false } (inRoot [97]) (inRoot [98])
    Reachable s ∧ s.renameKeys (inRoot [97]) (inRoot [98]) =
        some (buildMetaKey [97] ROOT_INODE_ID, buildMetaKey [98] ROOT_INODE_ID) ∧
      (s.inode_cache.metadb.lookup (buildMetaKey [97] ROOT_INODE_ID)).isSome ∧ r.2.ret = 0 ∧
      r.1.inode_cache.metadb.lookup (buildMetaKey [97] ROOT_INODE_ID) = none ∧
      r.1.inode_cache.metadb.lookup (buildMetaKey [98] ROOT_INODE_ID) = none := by
  refine ⟨State.reachable_fresh _ _, ?_⟩
  decide +kernel

end TableFS
