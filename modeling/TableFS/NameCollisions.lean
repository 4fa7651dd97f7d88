import TableFS.Paths
import TableFS.TidyCaches

/-! Names and the records they stand for. A key holds a hash of the name with a fixed seed, and
neither a lookup nor a request that creates a record compares names, so two names with the same
hash stand for one record. Over names that do not collide, a name stands for its own record. -/
namespace TableFS
open Slots InodeCache Runs

/-- A request gives records only the names of a set. -/
def Op.Names (names : Set Name) (op : Op) : Prop :=
  ∀ path, op.naming = some path → ∃ c ∈ names, lastComponent path = c.chars

/-- An intact record with a name of the set, or with the empty name of the root. -/
def NamedIn (names : Set Name) (k : MetaKey) (v : Value) : Prop :=
  Intact k v ∧ (v.name = [] ∨ ∃ c ∈ names, v.name = c.chars)

section Names
variable {names : Set Name} {k : MetaKey} {v : Value}

theorem NamedIn.keeps (h : NamedIn names k v) {v' : Value} (hk : Keeps v v') : NamedIn names k v' := by
  refine ⟨h.1.keeps hk, ?_⟩
  rw [hk.name h.1.length]
  exact h.2

/-- The key that belongs to a name of the set holds no record of another name. -/
theorem NamedIn.name_eq (h : NamedIn names k v) (hn : NoCollision names) {a : Name} (ha : a ∈ names)
    (hk : k.hash_id = murmur64 a.chars 123) : v.name = a.chars := by
  have hash := hk.symm.trans h.1.hash
  rcases h.2 with h0 | ⟨c, hc, hname⟩
  · rw [h0] at hash
    exact absurd hash (hn a ha).1
  · rw [hname] at hash
    rw [hname, (hn a ha).2 c hc hash]

private theorem key_of_lookup {d : DentryCache} {metadb : MetaDB} {path : CString} (hpath : lastComponent path ≠ [])
    {name : List UInt8} (h : (pathLookup d metadb path).2 = some (k, name)) :
    k.hash_id = murmur64 (lastComponent path) 123 ∧ name = lastComponent path := by
  obtain ⟨parent, hk⟩ := lastKey_of_lookup h
  rw [lastKey, if_neg hpath] at hk
  obtain ⟨rfl, rfl⟩ := Prod.mk.inj hk
  exact ⟨rfl, rfl⟩

private theorem namedIn_of_lookup {d : DentryCache} {metadb : MetaDB} {path : CString} {c : Name} (hc : c ∈ names)
    (hpath : lastComponent path = c.chars) {name : List UInt8} (h : (pathLookup d metadb path).2 = some (k, name))
    (hv : v.Named name) : NamedIn names k v := by
  have hne : lastComponent path ≠ [] := hpath ▸ c.nonempty
  refine ⟨intact_of_lookup hne h hv, .inr ⟨c, hc, ?_⟩⟩
  rw [hv.name_eq, (key_of_lookup hne h).2, hpath]

/-- A run that uses only names of the set leaves only records with such names. -/
theorem Op.Names.run (config : Config) (env : Env) (mode : UInt32) (dev : Nat) {calls : List (Env × Op)}
    (hok : Allowed step (fun _ c => c.2.Names names) (State.init config env mode dev) calls) :
    (run step (State.init config env mode dev) calls).1.Counted ∧
      (run step (State.init config env mode dev) calls).1.inode_cache.Every (NamedIn names) := by
  refine run_invariant (fun s => s.Counted ∧ s.inode_cache.Every (NamedIn names)) ?_ ⟨?_, ?_⟩ hok
  · rintro s ⟨env, op⟩ ⟨hs, hv⟩ hp
    have hc := step_deed hs env op
    refine ⟨hc.counted hs, hc.every hs (fun _ _ _ h hk => h.keeps hk) ?_ ?_ hv⟩
    · intro path key name v hcreated hfound hnamed _ _
      obtain ⟨c, hc, hlast⟩ := hp path (Op.naming_of_created hcreated)
      exact namedIn_of_lookup hc hlast hfound hnamed
    · rintro old_path new_path old key name v rfl hfound _
      obtain ⟨c, hc, hlast⟩ := hp new_path rfl
      exact namedIn_of_lookup hc hlast hfound (named_renameInodeValue v name)
  · exact State.counted_init config env mode dev
  · refine ⟨fun k v hk => ?_, fun i k h hd => ?_⟩
    · have hn := named_initInodeValue env.memory ROOT_INODE_ID mode dev [] env.context env.now
      rcases DentryCache.lookup_insert_some (m := ∅) hk with ⟨rfl, rfl⟩ | ⟨_, hk⟩
      · exact ⟨hn.intact List.not_mem_nil List.not_mem_nil rfl, .inl hn.name_eq⟩
      · simp at hk
    · simp [State.init, handle, PinnedLru.LRUCache.empty, PinnedLru.LRUCache.data] at hd

private theorem lastComponent_pathOf (dir : List Name) (a : Name) : lastComponent (pathOf (dir ++ [a])) = a.chars := by
  rw [lastComponent, components_pathOf (by simp), List.map_append, List.map_singleton, List.getLastD_concat]

end Names

/-! What a request of the namespace leaves alone. -/

/-- The paths of the records that a request puts, removes or moves. -/
def Op.places : Op → List CString
  | .makeNode path _ _ => [path]
  | .makeDir path _ => [path]
  | .symlink _ path => [path]
  | .unlink path => [path]
  | .removeDir path => [path]
  | .rename old_path new_path => [old_path, new_path]
  | _ => []

/-- These paths, each with the key and name that the request finds there. -/
def State.reached (s : State) : Op → List (CString × Option (MetaKey × List UInt8))
  | .rename old_path new_path =>
    [(old_path, s.found old_path), (new_path, (pathLookup (s.looked old_path) s.inode_cache.metadb new_path).2)]
  | op => op.places.map fun path => (path, s.found path)

namespace InodeCache

/-- The record under a key and every handle on it are as they were; its entry has at most left the
table. -/
structure Leaves (ic r : InodeCache) (k : MetaKey) : Prop where
  record : r.metadb.lookup k = ic.metadb.lookup k
  handles : ∀ i h, ic.handle i = some (k, h) → r.handle i = some (k, h)
  entry : ∀ i, r.table k = some i → ic.table k = some i

variable {ic ic' : InodeCache} {pins writers : Nat → Nat} {key k : MetaKey} {i : Nat} {h : InodeCacheHandle}

theorem Leaves.refl (ic : InodeCache) (k : MetaKey) : ic.Leaves ic k := ⟨rfl, fun _ _ hh => hh, fun _ ht => ht⟩

private theorem leaves_put (ic : InodeCache) (hk : k ≠ key) (v : Value) : ic.Leaves (ic.put key v) k :=
  ⟨by rw [metadb_put, Finmap.lookup_insert_of_ne _ hk], fun _ _ hh => hh, fun _ ht => ht⟩

private theorem leaves_removed (hs : Sound ic pins writers) (hp : Placed ic ic' key i h)
    (ho : Origin ic ic' key .delete i h) (hs' : Sound ic' (pin pins i) (pin writers i)) (hk : k ≠ key) :
    ic.Leaves ((ic'.release i).evict key) k := by
  obtain ⟨htab, hhan, hm, _⟩ := Sound.remove hs hp ho hs'
  refine ⟨?_, fun j h' hh => ?_, fun j ht => (htab k j ht).2⟩
  · rw [hm]
    split
    · exact Finmap.lookup_erase_ne hk
    · rfl
  · rw [hhan, hp.others j (ho.ne_of_handle hk hh), hh]

private theorem leaves_moved {old new : MetaKey} (hp : Placed ic ic' old i h) (ho : Origin ic ic' old .delete i h)
    (hs' : Sound ic' (pin pins i) (pin writers i)) (v : Value) (ok : Bool) (hold : k ≠ old) (hnew : k ≠ new) :
    ic.Leaves (((((ic'.insert new v).1.batchCommit i (ic'.insert new v).2 ok).release
      (ic'.insert new v).2).release i).evict old) k := by
  obtain ⟨_, hfresh, htab, _, _, hothers, hm, _⟩ := Sound.move new hp ho hs' v ok
  refine ⟨?_, fun x h' hh => ?_, fun x ht => ((htab k x ht).2.resolve_left fun hl => hnew hl.1).2⟩
  · have hbatch : (if ok then (ic.metadb.erase old).insert new v else ic.metadb).lookup k = ic.metadb.lookup k := by
      split
      · rw [Finmap.lookup_insert_of_ne _ hnew, Finmap.lookup_erase_ne hold]
      · rfl
    rw [hm]
    dsimp only
    split
    · rw [Finmap.lookup_erase_ne hold, hbatch]
    · exact hbatch
  · have hxj : x ≠ (ic'.insert new v).2 := by
      rintro rfl
      rw [hfresh] at hh
      cases hh
    rw [hothers x (ho.ne_of_handle hold hh) hxj, hh]

end InodeCache

section Leaves
variable {s : State} {k : MetaKey}

private theorem leaves_create (env : Env) (path : CString) (value : UInt64 → List UInt8 → Value)
    (hk : ∀ x, s.found path = some x → k ≠ x.1) :
    s.inode_cache.Leaves (s.create env path value).1.inode_cache k := by
  unfold State.create
  rw [State.lookup_eq]
  rcases hf : s.found path with _ | ⟨key, name⟩
  · exact .refl _ _
  · simp only
    split
    · exact leaves_put _ (hk _ hf) _
    · exact .refl _ _

private theorem leaves_remove (hs : s.Counted) (path : CString) (hk : ∀ x, s.found path = some x → k ≠ x.1) :
    s.inode_cache.Leaves (s.unlink path).1.inode_cache k ∧ s.inode_cache.Leaves (s.removeDir path).1.inode_cache k := by
  unfold State.unlink State.removeDir
  rcases State.acquire_spec hs path .delete with ⟨ha, _⟩ | ⟨key, name, ic, i, h, hf, ha, hp, ho, hs'⟩
  · rw [ha]
    exact ⟨.refl _ _, .refl _ _⟩
  · rw [ha]
    exact ⟨leaves_removed hs hp ho hs' (hk _ hf), leaves_removed hs hp ho hs' (hk _ hf)⟩

private theorem leaves_rename (hs : s.Counted) (env : Env) (old_path new_path : CString)
    (hold : ∀ x, s.found old_path = some x → k ≠ x.1)
    (hnew : ∀ x, (pathLookup (s.looked old_path) s.inode_cache.metadb new_path).2 = some x → k ≠ x.1) :
    s.inode_cache.Leaves (s.rename env old_path new_path).1.inode_cache k := by
  unfold State.rename
  rw [State.lookup_eq]
  rcases hfo : s.found old_path with _ | ⟨old, name⟩
  · exact .refl _ _
  · simp only [State.lookup_eq]
    rcases hfn : State.found { s with dentry_cache := s.looked old_path } new_path with _ | ⟨new, filename⟩
    · exact .refl _ _
    · simp only
      unfold State.renameKey
      generalize State.looked _ new_path = d
      rcases State.getInode_spec (s := { s with dentry_cache := d }) hs old .delete with
        ⟨hg, _⟩ | ⟨ic, i, h, hg, hp, ho, hs'⟩
      · simp only [hg]
        exact .refl _ _
      · simp only [hg]
        exact leaves_moved hp ho hs' _ _ (hold _ hfo) (hnew _ hfn)

private theorem step_leaves (hs : s.Counted) (env : Env) {op : Op} (hop : op.places ≠ [])
    (hk : ∀ y ∈ s.reached op, ∀ x, y.2 = some x → k ≠ x.1) :
    s.inode_cache.Leaves (step s (env, op)).1.inode_cache k := by
  cases op with
  | makeNode path mode dev => exact leaves_create env path _ (hk (path, s.found path) List.mem_cons_self)
  | makeDir path mode => exact leaves_create env path _ (hk (path, s.found path) List.mem_cons_self)
  | symlink target path => exact leaves_create env path _ (hk (path, s.found path) List.mem_cons_self)
  | unlink path => exact (leaves_remove hs path (hk (path, s.found path) List.mem_cons_self)).1
  | removeDir path => exact (leaves_remove hs path (hk (path, s.found path) List.mem_cons_self)).2
  | rename old_path new_path =>
    exact leaves_rename hs env old_path new_path (hk (old_path, _) List.mem_cons_self)
      (hk (new_path, _) (List.mem_cons_of_mem _ List.mem_cons_self))
  | _ => exact absurd rfl hop

private theorem reached_coherent (hd : s.dentry_cache.Coherent s.inode_cache.metadb) {op : Op}
    {y : CString × Option (MetaKey × List UInt8)} (hy : y ∈ s.reached op) :
    y.1 ∈ op.places ∧ y.2 = resolve s.inode_cache.metadb y.1 := by
  have hfound (path : CString) : s.found path = resolve s.inode_cache.metadb path := (pathLookup_spec hd path).1
  have hplain (h : y ∈ op.places.map fun path => (path, s.found path)) :
      y.1 ∈ op.places ∧ y.2 = resolve s.inode_cache.metadb y.1 := by
    obtain ⟨path, hpath, rfl⟩ := List.mem_map.mp h
    exact ⟨hpath, hfound path⟩
  cases op with
  | rename old_path new_path =>
    have hd' := (pathLookup_spec hd old_path).2
    rcases List.mem_pair.mp hy with rfl | rfl
    · exact ⟨List.mem_cons_self, hfound old_path⟩
    · exact ⟨List.mem_cons_of_mem _ List.mem_cons_self, (pathLookup_spec hd' new_path).1⟩
  | _ => exact hplain hy

private theorem Deed.walks {s' : State} {c : Env × Op} (hd : Deed s c s') : s.Walks s' := by
  cases hd with
  | wrote _ _ _ _ hd _ => exact .of_eq hd
  | closed _ _ _ _ _ _ _ hd _ => exact .of_eq hd
  | closedDir _ _ _ _ hd _ => exact .of_eq hd
  | _ => assumption

private theorem found_kept {s' : State} (hd : s.dentry_cache.Coherent s.inode_cache.metadb) (hw : s.Walks s')
    {dir : List Name} (a : Name)
    (hkept : ∀ q c, q ++ [c] <+: dir → ∀ i, inodeAt (inoOf s.inode_cache.metadb) q = some i →
      inoOf s'.inode_cache.metadb (buildMetaKey c.chars i) = inoOf s.inode_cache.metadb (buildMetaKey c.chars i)) :
    s'.found (pathOf (dir ++ [a])) = s.found (pathOf (dir ++ [a])) := by
  have hitems : (components (pathOf (dir ++ [a]))).dropLast = dir.map Name.chars := by
    rw [components_pathOf (by simp), List.map_append, List.map_singleton, List.dropLast_concat]
  have hcoh := hw.coherent hd
  unfold State.found
  rw [pathLookup_snd, pathLookup_snd, (parentPathLookup_spec _ hd _ _).1]
  refine congrArg _ (parentPathLookup_on
    (K := fun k => inoOf s'.inode_cache.metadb k = inoOf s.inode_cache.metadb k) (fun _ => id) _ ?_ _ _ ?_)
  · intro k n _ hk
    obtain ⟨v, hv, rfl⟩ := hcoh k n hk
    rw [inoOf, hv, Option.map_some]
  · rw [hitems]
    rintro q c ⟨r, hr⟩ x hx
    obtain ⟨dir', _, rfl, hdir, rfl⟩ := List.map_eq_append_iff.mp hr.symm
    obtain ⟨q', _, rfl, rfl, hc⟩ := List.map_eq_append_iff.mp hdir
    obtain ⟨c', rfl, rfl⟩ := List.map_eq_singleton_iff.mp hc
    exact hkept q' c' (List.prefix_append _ _) x.1 (by rw [inodeAt, hx, Option.map_some])

end Leaves

private theorem State.reached_name_eq (s : State) {names : Set Name} (hn : NoCollision names) {a b : Name}
    (ha : a ∈ names) (hb : b ∈ names) {op : Op} {y : CString × Option (MetaKey × List UInt8)}
    (hy : y ∈ s.reached op) {x : MetaKey × List UInt8} (hx : y.2 = some x) (hlast : lastComponent y.1 = b.chars)
    (hkey : x.1.hash_id = murmur64 a.chars 123) : b = a := by
  have hhash : x.1.hash_id = murmur64 b.chars 123 := by
    obtain ⟨d, hlookup⟩ : ∃ d, y.2 = (pathLookup d s.inode_cache.metadb y.1).2 := by
      have hplain (h : y ∈ op.places.map fun path => (path, s.found path)) :
          ∃ d, y.2 = (pathLookup d s.inode_cache.metadb y.1).2 := by
        obtain ⟨path, _, rfl⟩ := List.mem_map.mp h
        exact ⟨_, rfl⟩
      cases op with
      | rename old_path new_path => rcases List.mem_pair.mp hy with rfl | rfl <;> exact ⟨_, rfl⟩
      | _ => exact hplain hy
    rw [← hlast]
    exact (key_of_lookup (hlast ▸ b.nonempty) (hlookup ▸ hx)).1
  exact ((hn a ha).2 b hb (hkey.symm.trans hhash)).symm

section Own
variable {s : State} {names : Set Name} (hs : s.Counted) (hv : s.inode_cache.Every (NamedIn names))
  (hn : NoCollision names) (dir : List Name) {a : Name} (ha : a ∈ names)
include hs hv hn ha

private theorem getAttr_own_record (hret : (s.getAttr (pathOf (dir ++ [a]))).2.ret = 0) :
    ∃ key v, s.found (pathOf (dir ++ [a])) = some (key, a.chars) ∧ s.visible key = some v ∧ v.name = a.chars ∧
      (s.getAttr (pathOf (dir ++ [a]))).2.stat = some v.fstat := by
  have hlast := lastComponent_pathOf dir a
  unfold State.getAttr at hret ⊢
  rcases State.acquire_spec hs (pathOf (dir ++ [a])) .read with ⟨hacq, _⟩ | ⟨key, name, ic, i, h, hf, hacq, hp, ho, _⟩
  · rw [hacq] at hret
    change -(ENOENT : Int) = 0 at hret
    exact absurd hret (by decide)
  · obtain ⟨hash, rfl⟩ := key_of_lookup (hlast ▸ a.nonempty) hf
    rw [hlast] at hf hash
    refine ⟨key, h.value_, hf, ?_, (hv.got ho).name_eq hn ha hash, by rw [hacq]⟩
    rcases ho.value with ⟨h0, ht, hd, he⟩ | ⟨ht, hm, _⟩
    · simp [State.visible, ht, hd, he]
    · simp [State.visible, ht, hm]

private theorem openFile_own_record (flags : OpenFlags) (hret : (s.openFile (pathOf (dir ++ [a])) flags).2.ret = 0) :
    ∃ fh f key h, (s.openFile (pathOf (dir ++ [a])) flags).2.fh = some fh ∧
      (s.openFile (pathOf (dir ++ [a])) flags).1.fileOf fh = some (f, key, h) ∧ h.value_.name = a.chars := by
  have hlast := lastComponent_pathOf dir a
  unfold State.openFile at hret ⊢
  rcases State.acquire_spec hs (pathOf (dir ++ [a])) flags.mode with
    ⟨hacq, _⟩ | ⟨key, name, ic, i, h, hf, hacq, hp, ho, _⟩
  · rw [hacq] at hret
    change -(ENOENT : Int) = 0 at hret
    exact absurd hret (by decide)
  · obtain ⟨hash, -⟩ := key_of_lookup (hlast ▸ a.nonempty) hf
    rw [hlast] at hash
    rw [hacq]
    exact ⟨_, _, key, h, rfl, State.fileOf_some.mpr ⟨by rw [slot_push, if_pos rfl], hp.self⟩,
      (hv.got ho).name_eq hn ha hash⟩

end Own

/-- A request on one path alone, or a Rename between it and a path that another one does not
lead through. -/
def Op.Beside (names : Set Name) (on away : List Name) (op : Op) : Prop :=
  op.places = [pathOf on] ∨ ∃ p c, Over names (p ++ [c]) ∧ ¬ p ++ [c] <+: away ∧
    (op.places = [pathOf on, pathOf (p ++ [c])] ∨ op.places = [pathOf (p ++ [c]), pathOf on])

/-- All its paths are of names of the set and off the way. -/
theorem Op.Beside.off {names : Set Name} {dir : List Name} (hdir : Over names dir) {a b : Name} (hb : b ∈ names)
    (hab : b ≠ a) {op : Op} (h : op.Beside names (dir ++ [b]) (dir ++ [a])) (path : CString) (hp : path ∈ op.places) :
    ∃ p c, path = pathOf (p ++ [c]) ∧ Over names (p ++ [c]) ∧ ¬ p ++ [c] <+: dir ++ [a] := by
  have hself : Over names (dir ++ [b]) ∧ ¬ dir ++ [b] <+: dir ++ [a] := by
    refine ⟨over_append.mpr ⟨hdir, fun c hc => List.mem_singleton.mp hc ▸ hb⟩, fun hpre => hab ?_⟩
    simpa using hpre
  rcases h with h | ⟨p, c, hover, hoff, h | h⟩ <;> rw [h] at hp
  · exact ⟨dir, b, List.mem_singleton.mp hp, hself⟩
  · rcases List.mem_pair.mp hp with rfl | rfl
    · exact ⟨dir, b, rfl, hself⟩
    · exact ⟨p, c, rfl, hover, hoff⟩
  · rcases List.mem_pair.mp hp with rfl | rfl
    · exact ⟨p, c, rfl, hover, hoff⟩
    · exact ⟨dir, b, rfl, hself⟩

/-- The record under a key and every inode handle on it are as they were. GetAttr and Open find what
they found, or the record if the handle has left the cache. -/
structure State.Untouched (s s' : State) (k : MetaKey) : Prop where
  record : s'.inode_cache.metadb.lookup k = s.inode_cache.metadb.lookup k
  handles : ∀ i h, s.inode_cache.handle i = some (k, h) → s'.inode_cache.handle i = some (k, h)
  visible : s'.visible k = s.visible k ∨ s'.inode_cache.table k = none ∧ s'.visible k = s.inode_cache.metadb.lookup k

theorem State.Counted.untouched {s s' : State} {k : MetaKey} (hs : s.Counted)
    (h : s.inode_cache.Leaves s'.inode_cache k) : s.Untouched s' k := by
  refine ⟨h.record, h.handles, ?_⟩
  unfold State.visible
  cases ht : s'.inode_cache.table k with
  | none => exact .inr ⟨rfl, h.record⟩
  | some i =>
    obtain ⟨hd, hh⟩ := hs.entry (h.entry i ht)
    refine .inl ?_
    simp only [h.entry i ht, hh, h.handles i hd hh]

/-- Over names that do not collide, whatever was done before: GetAttr and Open of a path use the
record with the path's name; and a request on other names leaves every record of this name as it was.
Where the dentry cache agrees with the store and inode numbers are distinct, the path leads to it as
before. -/
theorem name_keeps_own_record {names : Set Name} (hn : NoCollision names) (config : Config) (env : Env)
    (mode : UInt32) (dev : Nat) {calls : List (Env × Op)}
    (hok : Allowed step (fun _ c => c.2.Names names) (State.init config env mode dev) calls) (dir : List Name)
    {a : Name} (ha : a ∈ names) :
    let s := (run step (State.init config env mode dev) calls).1
    let path := pathOf (dir ++ [a])
    ((s.getAttr path).2.ret = 0 → ∃ key v, s.found path = some (key, a.chars) ∧ s.visible key = some v ∧
      v.name = a.chars ∧ (s.getAttr path).2.stat = some v.fstat) ∧
    (∀ flags, (s.openFile path flags).2.ret = 0 → ∃ fh f key h, (s.openFile path flags).2.fh = some fh ∧
      (s.openFile path flags).1.fileOf fh = some (f, key, h) ∧ h.value_.name = a.chars) ∧
    (∀ key : MetaKey, key.hash_id = murmur64 a.chars 123 → ∀ e op, op.places ≠ [] →
      (∀ y ∈ s.reached op, (∃ b ∈ names, b ≠ a ∧ lastComponent y.1 = b.chars) ∨ ∀ x, y.2 = some x → key ≠ x.1) →
        s.Untouched (step s (e, op)).1 key) ∧
    (Over names dir → s.dentry_cache.Coherent s.inode_cache.metadb → DistinctInodes (inoOf s.inode_cache.metadb) →
      ∀ b ∈ names, b ≠ a → ∀ e op, op.Beside names (dir ++ [b]) (dir ++ [a]) →
        (step s (e, op)).1.found path = s.found path ∧
          ∀ x, s.found path = some x → s.Untouched (step s (e, op)).1 x.1) := by
  intro s path
  obtain ⟨hs, hv⟩ := Op.Names.run config env mode dev hok
  refine ⟨getAttr_own_record hs hv hn dir ha, openFile_own_record hs hv hn dir ha, fun key hkey e op hplaces hop => ?_,
    fun hdir hcoh hino b hb hab e op hop => ?_⟩
  · refine hs.untouched (step_leaves hs e hplaces fun y hy x hx => ?_)
    rcases hop y hy with ⟨b, hb, hab, hlast⟩ | hoff
    · rintro rfl
      exact hab (s.reached_name_eq hn ha hb hy hx hlast hkey)
    · exact hoff x hx
  have hover : Over names (dir ++ [a]) := over_append.mpr ⟨hdir, fun c hc => List.mem_singleton.mp hc ▸ ha⟩
  have hplaces : op.places ≠ [] := by
    rcases hop with h | ⟨p, c, _, _, h | h⟩ <;> simp [h]
  -- every key on the way is left alone
  have hleaves (q : List Name) (c : Name) (hq : q ++ [c] <+: dir ++ [a]) (i : UInt64)
      (hi : inodeAt (inoOf s.inode_cache.metadb) q = some i) :
      s.inode_cache.Leaves (step s (e, op)).1.inode_cache (buildMetaKey c.chars i) := by
    refine step_leaves hs e hplaces fun y hy x hx he => ?_
    obtain ⟨hp, hy⟩ := reached_coherent hcoh hy
    obtain ⟨p', d, hpath, hpd, hoff⟩ := hop.off hdir hb hab y.1 hp
    rw [hy, hpath, resolve, resolveBy_concat] at hx
    obtain ⟨j, hj, rfl⟩ := Option.map_eq_some_iff.mp hx
    have hqc : Over names (q ++ [c]) := fun d hd => hover d (hq.subset hd)
    exact hoff (key_inj hino hn hqc hpd hi hj he ▸ hq)
  refine ⟨found_kept hcoh (step_deed hs e op).walks a fun q c hq i hi => ?_, fun x hx => ?_⟩
  · exact inoOf_congr (hleaves q c (hq.trans (List.prefix_append _ _)) i hi).record
  · rw [show s.found path = resolve s.inode_cache.metadb path from (pathLookup_spec hcoh path).1, resolve,
      resolveBy_concat] at hx
    obtain ⟨i, hi, rfl⟩ := Option.map_eq_some_iff.mp hx
    exact hs.untouched (hleaves dir a (List.prefix_refl _) i hi)

/-- A file keeps its record while another one is made beside it in a directory. -/
theorem name_keeps_own_record_sibling :
    let d : Name := ⟨[100], by decide, by decide, by decide⟩
    let x : Name := ⟨[120], by decide, by decide, by decide⟩
    let y : Name := ⟨[121], by decide, by decide, by decide⟩
    let s := (run step (State.fresh 4096) (calmly [.makeDir (pathOf [d]) 0, .makeNode (pathOf [d, x]) 0 0])).1
    (∃ key v, s.found (pathOf [d, x]) = some (key, [120]) ∧ s.visible key = some v ∧ v.name = [120]) ∧
      (step s (.calm, .makeNode (pathOf [d, y]) 0 0)).1.found (pathOf [d, x]) = s.found (pathOf [d, x]) := by
  intro d x y s
  have hn : NoCollision {c | c ∈ [d, x, y]} := by
    show ∀ c ∈ [d, x, y], _ ∧ ∀ c' ∈ [d, x, y], _
    decide +kernel
  have hnames (op : Op) (items : List Name) (c : Name) (hc : c ∈ [d, x, y])
      (h : op.naming = some (pathOf (items ++ [c]))) : op.Names {c | c ∈ [d, x, y]} := by
    intro path hp
    obtain rfl := Option.some.inj (h.symm.trans hp)
    exact ⟨c, hc, lastComponent_pathOf items c⟩
  have hok : Allowed step (fun _ c => c.2.Names {c | c ∈ [d, x, y]}) (State.fresh 4096)
      (calmly [.makeDir (pathOf [d]) 0, .makeNode (pathOf [d, x]) 0 0]) :=
    ⟨hnames _ [] d (by simp) rfl, hnames _ [d] x (by simp) rfl, trivial⟩
  have htidy : Tidy s := run_invariant Tidy (fun _ _ ht hc => ht.step hc) (tidy_init ..)
    (show Allowed step Careful (State.fresh 4096)
      (calmly [.makeDir (pathOf [d]) 0, .makeNode (pathOf [d, x]) 0 0]) by decide +kernel)
  obtain ⟨hattr, _, _, hkeeps⟩ := name_keeps_own_record hn (.source 4096) .calm S_IFDIR 0 hok [d]
    (show x ∈ {c | c ∈ [d, x, y]} by simp)
  obtain ⟨key, v, hf, hvis, hname, _⟩ := hattr (by decide +kernel)
  refine ⟨⟨key, v, hf, hvis, hname⟩, (hkeeps ?_ htidy.dentries (by decide +kernel) y ?_ (by decide) .calm _ (.inl rfl)).1⟩
  · intro c hc
    simp [List.mem_singleton.mp hc]
  · simp

/-- Sixteen bytes that hash as sixteen letters a do: the one name finds the record of the other,
and removes it. -/
theorem colliding_name_removes_record :
    let a := inRoot (List.replicate 16 97)
    let b := inRoot [57, 101, 110, 55, 119, 108, 98, 98, 87, 75, 40, 36, 96, 70, 88, 91]
    let s := (run step (State.fresh 4096) (calmly [.makeNode a 0 0])).1
    lastComponent a ≠ lastComponent b ∧ (s.getAttr a).2.ret = 0 ∧ (s.getAttr b).2.ret = 0 ∧
      ((s.found b).bind fun x => s.visible x.1).map Value.name = some (lastComponent a) ∧
      (s.unlink b).2.ret = 0 ∧ ((s.unlink b).1.getAttr a).2.ret = -ENOENT := by
  decide +kernel

end TableFS
