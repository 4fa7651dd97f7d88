import TableFS.Invariants

/-! Every value, in the store or in the cache, is stored under a key that belongs to its
name. This holds in every reachable state, whatever paths were used. -/
namespace TableFS
open Slots InodeCache

private theorem mem_splitOn {α : Type} [DecidableEq α] (a : α) (l : List α) :
    ∀ c ∈ l.splitOn a, ∀ x ∈ c, x ∈ l ∧ x ≠ a := by
  induction l with
  | nil =>
    intro c hc x hx
    simp only [List.splitOn_nil, List.mem_singleton] at hc
    subst hc
    simp at hx
  | cons y ys ih =>
    intro c hc x hx
    rw [List.splitOn, List.splitOnP_cons_eq_if_modifyHead] at hc
    split at hc
    · rcases List.mem_cons.mp hc with rfl | hc
      · simp at hx
      · exact ⟨List.mem_cons_of_mem _ (ih c hc x hx).1, (ih c hc x hx).2⟩
    · rename_i hy
      cases hs : ys.splitOnP (· == a) with
      | nil => exact absurd hs (List.splitOnP_ne_nil _ _)
      | cons d ds =>
        rw [hs, List.modifyHead_cons] at hc
        rcases List.mem_cons.mp hc with rfl | hc
        · rcases List.mem_cons.mp hx with rfl | hx
          · exact ⟨List.mem_cons_self, by simpa using hy⟩
          · obtain ⟨hm, hne⟩ := ih d (by rw [List.splitOn, hs]; exact List.mem_cons_self) x hx
            exact ⟨List.mem_cons_of_mem _ hm, hne⟩
        · obtain ⟨hm, hne⟩ := ih c (by rw [List.splitOn, hs]; exact List.mem_cons_of_mem _ hc) x hx
          exact ⟨List.mem_cons_of_mem _ hm, hne⟩

/-- The last component of a path. -/
def lastComponent (path : CString) : List UInt8 := (components path).getLastD []

private theorem lastComponent_spec (path : CString) :
    (0 : UInt8) ∉ lastComponent path ∧ PATH_DELIMITER ∉ lastComponent path := by
  have hmem : lastComponent path ∈ components path := by
    have hne : components path ≠ [] := List.splitOnP_ne_nil _ _
    rw [lastComponent, List.getLastD_eq_getLast?, List.getLast?_eq_some_getLast hne]
    exact List.getLast_mem hne
  have h := mem_splitOn PATH_DELIMITER path.val.tail _ hmem
  exact ⟨fun h0 => path.property (List.mem_of_mem_tail (h 0 h0).1), fun h1 => (h _ h1).2 rfl⟩

/-- The value's name is a C string that its key was built from; only a path with an empty
last component stores another name, the delimiter. -/
structure WellFormed (k : MetaKey) (v : Value) : Prop where
  named : v.Named v.name
  nul : (0 : UInt8) ∉ v.name
  hash : v.name ≠ [PATH_DELIMITER] → k.hash_id = murmur64 v.name 123
  root : v.name = [] → k = rootKey

theorem WellFormed.keeps {k : MetaKey} {v v' : Value} (h : WellFormed k v) (hk : Keeps v v') :
    WellFormed k v' := by
  have hn : v'.name = v.name := hk.name h.named.sized
  exact ⟨hn ▸ hk.named h.named, hn ▸ h.nul, hn ▸ h.hash, hn ▸ h.root⟩

theorem lastKey_of_lookup {d : DentryCache} {metadb : MetaDB} {path : CString} {key : MetaKey}
    {name : List UInt8} (h : (pathLookup d metadb path).2 = some (key, name)) :
    ∃ parent, (key, name) = lastKey parent (lastComponent path) := by
  unfold pathLookup at h
  dsimp only at h
  split at h
  · cases h
  · exact ⟨_, (Option.some.inj h).symm⟩

/-- The name a lookup returns belongs to its key, unless it is the delimiter. -/
theorem hash_of_lookup {d : DentryCache} {metadb : MetaDB} {path : CString} {key : MetaKey}
    {name : List UInt8} (h : (pathLookup d metadb path).2 = some (key, name)) (hn : name ≠ [PATH_DELIMITER]) :
    key.hash_id = murmur64 name 123 := by
  obtain ⟨parent, hk⟩ := lastKey_of_lookup h
  unfold lastKey at hk
  split at hk
  · exact absurd (Prod.mk.inj hk).2 hn
  · obtain ⟨rfl, rfl⟩ := Prod.mk.inj hk
    rfl

private theorem wellFormed_of_lookup {d : DentryCache} {metadb : MetaDB} {path : CString} {key : MetaKey}
    {name : List UInt8} (h : (pathLookup d metadb path).2 = some (key, name)) {v : Value} (hv : v.Named name) :
    WellFormed key v := by
  obtain ⟨parent, hk⟩ := lastKey_of_lookup h
  obtain ⟨hnul, hsep⟩ := lastComponent_spec path
  have hn := hv.name_eq
  unfold lastKey at hk
  split at hk
  · obtain ⟨rfl, rfl⟩ := Prod.mk.inj hk
    exact ⟨hn ▸ hv, by rw [hn]; decide, fun hne => absurd hn hne, fun he => by simp [hn] at he⟩
  · rename_i hne
    obtain ⟨rfl, rfl⟩ := Prod.mk.inj hk
    exact ⟨hn ▸ hv, hn ▸ hnul, fun _ => by rw [hn]; rfl, fun he => absurd (hn.symm.trans he) hne⟩

namespace InodeCache

/-- A property of every value of the store and every value behind a handle. -/
structure Every (W : MetaKey → Value → Prop) (ic : InodeCache) : Prop where
  stored : ∀ k v, ic.metadb.lookup k = some v → W k v
  cached : ∀ i k h, ic.handle i = some (k, h) → W k h.value_

section
variable {W : MetaKey → Value → Prop}

private theorem every_insert {m : MetaDB} (hm : ∀ k v, m.lookup k = some v → W k v) {key : MetaKey}
    {v : Value} (hv : W key v) (k : MetaKey) (v' : Value) (h : (m.insert key v).lookup k = some v') :
    W k v' := by
  rcases DentryCache.lookup_insert_some h with ⟨rfl, rfl⟩ | ⟨_, h⟩
  · exact hv
  · exact hm k v' h

private theorem every_erase {m : MetaDB} (hm : ∀ k v, m.lookup k = some v → W k v) (key : MetaKey)
    (k : MetaKey) (v : Value) (h : (m.erase key).lookup k = some v) : W k v :=
  hm k v (DentryCache.lookup_erase_some h).2

private theorem every_clean {m : MetaDB} (hm : ∀ k v, m.lookup k = some v → W k v) {key : MetaKey}
    {hd : InodeCacheHandle} (hv : W key hd.value_) (k : MetaKey) (v : Value)
    (h : (cleanInodeHandle key hd m).lookup k = some v) : W k v := by
  unfold cleanInodeHandle at h
  split at h
  · exact every_insert hm hv k v h
  · exact every_erase hm key k v h
  · exact hm k v h

variable {ic ic' : InodeCache} {key : MetaKey} {mode : InodeAccessMode} {i : Nat} {h : InodeCacheHandle}

theorem Every.got (hv : ic.Every W) (ho : Origin ic ic' key mode i h) : W key h.value_ := by
  rcases ho.value with ⟨h0, _, hd, he⟩ | ⟨_, hm, _⟩
  · exact he ▸ hv.cached i key h0 hd
  · exact hv.stored key _ hm

private theorem cached_of_others (hv : ic.Every W) {f : Nat → Option (MetaKey × InodeCacheHandle)}
    {hd : InodeCacheHandle} (hself : f i = some (key, hd)) (hw : W key hd.value_)
    (hothers : ∀ j, j ≠ i → f j = ic.handle j) (j : Nat) (k : MetaKey) (h' : InodeCacheHandle)
    (hj : f j = some (k, h')) : W k h'.value_ := by
  by_cases hji : j = i
  · subst hji
    rw [hself] at hj
    obtain ⟨rfl, rfl⟩ := Prod.mk.inj (Option.some.inj hj)
    exact hw
  · exact hv.cached j k h' (by rw [← hothers j hji, hj])

theorem Every.placed (hv : ic.Every W) (hp : Placed ic ic' key i h) (ho : Origin ic ic' key mode i h) :
    ic'.Every W :=
  ⟨by rw [hp.metadb]; exact hv.stored, cached_of_others hv hp.self (hv.got ho) hp.others⟩

/-- Get for reading and Release. -/
theorem Every.peek (hv : ic.Every W) {pins writers : Nat → Nat} (hs : ic.Sound pins writers)
    (hp : Placed ic ic' key i h) (ho : Origin ic ic' key .read i h) (hs' : ic'.Sound (pin pins i) (pin writers i)) :
    (ic'.release i).Every W := by
  obtain ⟨_, hh, hm, _⟩ := Sound.peek hs hp ho hs'
  exact ⟨hm ▸ hv.stored, hh ▸ (hv.placed hp ho).cached⟩

/-- A change in place that is written back. -/
theorem Every.modify (hv : ic.Every W) {pins writers : Nat → Nat} (hp : Placed ic ic' key i h)
    (ho : Origin ic ic' key .write i h) (hs' : ic'.Sound (pin pins i) (pin writers i))
    {g : InodeCacheHandle → InodeCacheHandle} (hg : (g h).mode_ = h.mode_) (hw : W key (g h).value_) :
    (((ic'.update i g).writeBack i).release i).Every W := by
  obtain ⟨_, hself, hothers, hm, _⟩ := Sound.modify hp ho hs' hg
  exact ⟨hm ▸ every_insert hv.stored hw, cached_of_others hv hself hw hothers⟩

/-- Get for deletion, Release and Evict. -/
theorem Every.remove (hv : ic.Every W) {pins writers : Nat → Nat} (hs : ic.Sound pins writers)
    (hp : Placed ic ic' key i h) (ho : Origin ic ic' key .delete i h) (hs' : ic'.Sound (pin pins i) (pin writers i)) :
    ((ic'.release i).evict key).Every W := by
  obtain ⟨_, hh, hm, _⟩ := Sound.remove hs hp ho hs'
  refine ⟨?_, hh ▸ (hv.placed hp ho).cached⟩
  rw [hm]
  split
  · exact every_erase hv.stored _
  · exact hv.stored

/-- A change in place that stays in the cache. -/
theorem Every.update (hv : ic.Every W) (hd : ic.handle i = some (key, h))
    {g : InodeCacheHandle → InodeCacheHandle} (hw : W key (g h).value_) : (ic.update i g).Every W :=
  ⟨hv.stored, cached_of_others hv (handle_update_self hd g) hw fun _ hj => handle_update_ne _ hj g⟩

/-- A last change, WriteBack, Release and Evict. -/
theorem Every.close (hv : ic.Every W) {pins writers : Nat → Nat} (hs : ic.Sound pins writers) (hi : writers i ≠ 0)
    (hd : ic.handle i = some (key, h)) {g : InodeCacheHandle → InodeCacheHandle} (hg : (g h).mode_ = h.mode_)
    (hw : W key (g h).value_) : ((((ic.update i g).writeBack i).release i).evict key).Every W := by
  obtain ⟨_, hself, hothers, hm, _⟩ := Sound.close hs hi hd hg
  exact ⟨hm ▸ every_clean hv.stored hw, cached_of_others hv hself hw hothers⟩

theorem Every.release (hv : ic.Every W) {pins writers : Nat → Nat} (hs : ic.Sound pins writers) (hi : pins i ≠ 0)
    (hd : ic.handle i = some (key, h)) : (ic.release i).Every W := by
  obtain ⟨_, hh, _, hm⟩ := Sound.release_spec hs hi hd
  refine ⟨?_, hh ▸ hv.cached⟩
  rw [hm]
  split
  · exact every_clean hv.stored (hv.cached _ _ _ hd)
  · exact hv.stored

theorem Every.put (hv : ic.Every W) {v : Value} (hw : W key v) : (ic.put key v).Every W :=
  ⟨every_insert hv.stored hw, hv.cached⟩

/-- A handle's value is stored under a new key as another one that has the property there. -/
theorem Every.move (hv : ic.Every W) {old new : MetaKey} (hp : Placed ic ic' old i h)
    (ho : Origin ic ic' old .delete i h) {pins writers : Nat → Nat}
    (hs' : ic'.Sound (pin pins i) (pin writers i)) {v : Value} (hw : W new v) (ok : Bool) :
    (((((ic'.insert new v).1.batchCommit i (ic'.insert new v).2 ok).release (ic'.insert new v).2).release
      i).evict old).Every W := by
  obtain ⟨_, _, _, hi, hj, hothers, hm, _⟩ := Sound.move new hp ho hs' v ok
  refine ⟨?_, fun x k hx hd => ?_⟩
  · have hbatch : ∀ k w, (if ok then (ic.metadb.erase old).insert new v else ic.metadb).lookup k = some w →
        W k w := by
      split
      · exact every_insert (every_erase hv.stored old) hw
      · exact hv.stored
    rw [hm]
    dsimp only
    split
    · exact every_erase hbatch old
    · exact hbatch
  · by_cases hxi : x = i
    · subst hxi
      obtain ⟨rfl, rfl⟩ := handle_inj hi hd
      exact (hv.got ho : W old h.value_)
    · by_cases hxj : x = (ic'.insert new v).2
      · subst hxj
        obtain ⟨rfl, rfl⟩ := handle_inj hj hd
        exact hw
      · exact hv.cached x k hx (by rw [← hothers x hxi hxj, hd])

end

end InodeCache

variable {s s' : State} {op : Op} {c : Env × Op}

/-- The path that gives a record its name: of a request that creates, and the new one of Rename. -/
def Op.naming : Op → Option CString
  | .rename _ new_path => some new_path
  | op => op.created

theorem Op.naming_of_created {path : CString} (h : op.created = some path) : op.naming = some path := by
  cases op with
  | rename => cases h
  | _ => exact h

/-- A property of records is kept by every request if it survives changes of attributes and
data, holds of every record that is created, and passes to a renamed one. -/
theorem Deed.every {W : MetaKey → Value → Prop} (hc : Deed s c s') (hs : s.Counted)
    (hkeeps : ∀ k v v', W k v → Keeps v v' → W k v')
    (hput : ∀ path key name v, c.2.created = some path → s.found path = some (key, name) → v.Named name →
      v.fstat.st_ino = s.max_inode_num + 1 → s'.max_inode_num = s.max_inode_num + 1 → W key v)
    (hmove : ∀ old_path new_path old key name v, c.2 = .rename old_path new_path →
      (pathLookup (s.looked old_path) s.inode_cache.metadb new_path).2 = some (key, name) → W old v →
      W key (renameInodeValue v name))
    (hv : s.inode_cache.Every W) : s'.inode_cache.Every W := by
  cases hc with
  | idle hic _ _ _ => rw [hic]; exact hv
  | peek hp ho hs' hic _ _ _ => rw [hic]; exact hv.peek hs hp ho hs'
  | modify hp ho hs' hg hk hic _ _ _ => rw [hic]; exact hv.modify hp ho hs' hg (hkeeps _ _ _ (hv.got ho) hk)
  | remove _ _ hp ho hs' hic _ _ _ _ => rw [hic]; exact hv.remove hs hp ho hs'
  | @move _ ic old oname new i h name old_path new_path env _ hp ho hs' hfound hic _ _ _ _ =>
    rw [hic]
    exact hv.move hp ho hs' (hmove _ _ old new name h.value_ rfl hfound (hv.got ho)) env.commit
  | opened hp ho _ hic _ _ _ _ => rw [hic]; exact hv.placed hp ho
  | openedDir hp ho _ hic _ _ _ _ => rw [hic]; exact hv.placed hp ho
  | wrote hf hk hic _ _ _ =>
    have hd := (State.fileOf_some.mp hf).2
    rw [hic]
    exact hv.update hd (hkeeps _ _ _ (hv.cached _ _ _ hd) hk)
  | closed hf hg hk _ hic _ _ _ _ =>
    have hd := (State.fileOf_some.mp hf).2
    rw [hic]
    exact hv.close hs (State.writers_of_file hf) hd hg (hkeeps _ _ _ (hv.cached _ _ _ hd) hk)
  | closedDir hslot hic _ _ _ _ =>
    obtain ⟨k, h, hd⟩ := State.Counted.handle_of_dir hs hslot
    rw [hic]
    exact hv.release hs (Nat.ne_zero_of_lt (State.pins_of_dir hslot)) hd
  | put hcreated hfound hn hino hic _ _ hnum =>
    rw [hic]
    exact hv.put (hput _ _ _ _ hcreated hfound hn hino hnum)
  | unput _ hic _ _ _ => rw [hic]; exact hv

/-- Well-formedness is kept by every request. -/
theorem Deed.wellFormed (hc : Deed s c s') (hs : s.Counted) (hv : s.inode_cache.Every WellFormed) :
    s'.inode_cache.Every WellFormed :=
  hc.every hs (fun _ _ _ hw hk => hw.keeps hk)
    (fun _ _ _ _ _ hfound hn _ _ => wellFormed_of_lookup hfound hn)
    (fun _ _ _ _ name v _ hfound _ => wellFormed_of_lookup hfound (named_renameInodeValue v name)) hv

/-- What holds in every state, whatever requests were made. -/
structure State.Ok (s : State) : Prop where
  counted : s.Counted
  wellFormed : s.inode_cache.Every WellFormed

theorem State.Ok.step (hs : s.Ok) (env : Env) (op : Op) : (step s (env, op)).1.Ok :=
  have hc := step_deed hs.counted env op
  ⟨hc.counted hs.counted, hc.wellFormed hs.counted hs.wellFormed⟩

theorem State.ok_init (config : Config) (env : Env) (mode : UInt32) (dev : Nat) :
    (State.init config env mode dev).Ok := by
  refine ⟨State.counted_init config env mode dev, ?_, fun i k h hd => ?_⟩
  · intro k v hk
    have hn := named_initInodeValue env.memory ROOT_INODE_ID mode dev [] env.context env.now
    rcases DentryCache.lookup_insert_some (m := ∅) hk with ⟨rfl, rfl⟩ | ⟨_, hk⟩
    · exact ⟨hn.name_eq ▸ hn, by simp [hn.name_eq], fun _ => by rw [hn.name_eq]; rfl, fun _ => rfl⟩
    · simp at hk
  · simp [State.init, handle, PinnedLru.LRUCache.empty, PinnedLru.LRUCache.data] at hd

/-- The states a file system can be in: any requests, in any surroundings, after Init. -/
def Reachable (s : State) : Prop :=
  ∃ config env mode dev calls, s = (Runs.run step (State.init config env mode dev) calls).1

theorem State.reachable_fresh (threshold : Nat) (calls : List (Env × Op)) :
    Reachable (Runs.run step (State.fresh threshold) calls).1 := ⟨_, _, _, _, calls, rfl⟩

theorem Reachable.ok (h : Reachable s) : s.Ok := by
  obtain ⟨config, env, mode, dev, calls, rfl⟩ := h
  have hrun : Runs.Allowed step (fun _ _ => True) (State.init config env mode dev) calls :=
    Runs.allowed_of_forall (fun _ _ => trivial) _ _
  exact Runs.run_invariant State.Ok (fun s c hs _ => hs.step c.1 c.2) (State.ok_init config env mode dev) hrun

/-- A value as it may lie under a key: room for the name and its terminator, a name of file
name characters with the terminator behind it, and the hash of that name in the key. Lengths
are counted after the header. -/
structure Intact (k : MetaKey) (v : Value) : Prop where
  length : v.header.namelen + 1 ≤ v.body.length
  delimiter : PATH_DELIMITER ∉ v.name
  nul : (0 : UInt8) ∉ v.name
  terminator : v.body[v.header.namelen]? = some 0
  hash : k.hash_id = murmur64 v.name 123

theorem Value.Named.intact {v : Value} {name : List UInt8} (hv : v.Named name) {k : MetaKey}
    (hd : PATH_DELIMITER ∉ name) (h0 : (0 : UInt8) ∉ name) (hk : k.hash_id = murmur64 name 123) : Intact k v := by
  have hend : v.label[v.header.namelen]? = some 0 := by
    rw [hv.label, hv.namelen]
    simp
  rw [Value.label, List.getElem?_take_of_lt (Nat.lt_succ_self _)] at hend
  exact ⟨hv.sized, hv.name_eq ▸ hd, hv.name_eq ▸ h0, hend, hv.name_eq ▸ hk⟩

theorem Intact.named {k : MetaKey} {v : Value} (h : Intact k v) : v.Named v.name := by
  refine ⟨?_, h.length, ?_⟩
  · rw [Value.name, List.length_take, Nat.min_eq_left (Nat.le_of_succ_le h.length)]
  · rw [Value.label, Value.name, List.take_add_one, h.terminator]
    rfl

theorem Intact.keeps {k : MetaKey} {v v' : Value} (h : Intact k v) (hk : Keeps v v') : Intact k v' :=
  (hk.named h.named).intact h.delimiter h.nul h.hash

/-- Where the last component is not empty, a value stored under the key and name of a lookup
is intact. -/
theorem intact_of_lookup {d : DentryCache} {metadb : MetaDB} {path : CString} (hpath : lastComponent path ≠ [])
    {key : MetaKey} {name : List UInt8} (h : (pathLookup d metadb path).2 = some (key, name)) {v : Value}
    (hv : v.Named name) : Intact key v := by
  obtain ⟨parent, hk⟩ := lastKey_of_lookup h
  obtain ⟨hnul, hsep⟩ := lastComponent_spec path
  rw [lastKey, if_neg hpath] at hk
  obtain ⟨rfl, rfl⟩ := Prod.mk.inj hk
  exact hv.intact hsep hnul rfl

/-- A request that names a record does so by a path with a last component, as every normalised
path but the root is. -/
def Op.Normalised (op : Op) : Prop := ∀ path, op.naming = some path → lastComponent path ≠ []

instance (op : Op) : Decidable op.Normalised :=
  match h : op.naming with
  | none => isTrue fun path hp => by simp [h] at hp
  | some path => decidable_of_iff (lastComponent path ≠ []) (by simp [Op.Normalised, h])

/-- Record integrity: after any requests that name records properly, with handles open in any
way and whatever the surroundings do, every value in the store and in the cache is intact. -/
theorem records_intact (config : Config) (env : Env) (mode : UInt32) (dev : Nat) {calls : List (Env × Op)}
    (hok : Runs.Allowed step (fun _ c => c.2.Normalised) (State.init config env mode dev) calls) :
    (Runs.run step (State.init config env mode dev) calls).1.inode_cache.Every Intact := by
  have hinv := Runs.run_invariant (fun s => s.Counted ∧ s.inode_cache.Every Intact) ?_ ⟨?_, ?_⟩ hok
  · exact hinv.2
  · rintro s ⟨env, op⟩ ⟨hs, hv⟩ hp
    have hc := step_deed hs env op
    refine ⟨hc.counted hs, hc.every hs (fun _ _ _ hi hk => hi.keeps hk) ?_ ?_ hv⟩
    · intro path key name v hcreated hfound hnamed _ _
      exact intact_of_lookup (hp path (Op.naming_of_created hcreated)) hfound hnamed
    · rintro old_path new_path old key name v rfl hfound _
      exact intact_of_lookup (hp new_path rfl) hfound (named_renameInodeValue v name)
  · exact State.counted_init config env mode dev
  · refine ⟨fun k v hk => ?_, fun i k h hd => ?_⟩
    · have hn := named_initInodeValue env.memory ROOT_INODE_ID mode dev [] env.context env.now
      rcases DentryCache.lookup_insert_some (m := ∅) hk with ⟨rfl, rfl⟩ | ⟨_, hk⟩
      · exact hn.intact List.not_mem_nil List.not_mem_nil rfl
      · simp at hk
    · simp [State.init, handle, PinnedLru.LRUCache.empty, PinnedLru.LRUCache.data] at hd

/-- A directory, a file in it that is open while it is renamed, and a symbolic link. -/
theorem records_intact_renamed :
    (Runs.run step (State.fresh 4096) (calmly [.makeDir (inRoot [100]) 0, .makeNode (inRoot [100, 47, 120]) 0 0,
      .openFile (inRoot [100, 47, 120]) { rdwr := true }, .write 0 { rdwr := true } [1, 2, 3] 0,
      .rename (inRoot [100, 47, 120]) (inRoot [121]), .symlink (inRoot [121]) (inRoot [122]),
      .release 0])).1.inode_cache.Every Intact :=
  records_intact _ _ _ _ (by decide +kernel)

end TableFS
