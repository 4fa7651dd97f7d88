import TableFS.CacheTransparency
import TableFS.Listing
import TableFS.Lib.ParentTree

/-! The namespace as a tree. Parent links exist only as inode numbers inside keys, so the
record of a directory can go while the records below it stay. -/
namespace TableFS
open Slots InodeCache Runs ParentTree Relation

namespace Value

def ino (v : Value) : UInt64 := v.fstat.st_ino

def IsDir (v : Value) : Prop := S_ISDIR v.fstat.st_mode = true

instance (v : Value) : Decidable v.IsDir := inferInstanceAs (Decidable (_ = _))

end Value

/-- The record under the second key is a directory that the first key is below. -/
def ParentRecord (metadb : MetaDB) : MetaKey → MetaKey → Prop :=
  Parent MetaKey.inode_id Value.ino Value.IsDir fun k => metadb.lookup k

/-- Following parents from any record leads to the root, and no two records share a number. -/
def IsTree (metadb : MetaDB) : Prop :=
  Tree MetaKey.inode_id Value.ino Value.IsDir (fun k => metadb.lookup k) rootKey

/-- The key is below an existing directory. -/
def InDirectory (metadb : MetaDB) (key : MetaKey) : Prop :=
  ∃ k ∈ metadb.keys, ∃ v ∈ metadb.lookup k, v.IsDir ∧ v.ino = key.inode_id

/-- The keys that a walk over path components looks up. -/
def passed (ino : MetaKey → Option UInt64) : UInt64 → List (List UInt8) → List MetaKey
  | _, [] => []
  | inode, item :: items => buildMetaKey item inode ::
    match ino (buildMetaKey item inode) with
    | some inode' => passed ino inode' items
    | none => []

/-- The path leads through the key, or to it. -/
def Through (metadb : MetaDB) (path : CString) (key : MetaKey) : Prop :=
  key = rootKey ∨ key ∈ passed (inoOf metadb) ROOT_INODE_ID (components path)

/-- The path is an absent name below an existing directory. -/
def Creatable (metadb : MetaDB) (path : CString) : Prop :=
  ∀ x ∈ resolve metadb path, metadb.lookup x.1 = none ∧ InDirectory metadb x.1

/-- What the kernel promises about requests that change the namespace: records are created on
absent names below a directory, RemoveDir is for directories and Unlink for all else, and
Rename moves a record below a directory, not into itself and only over one of its own type.
The root stays where it is. -/
def Promised (metadb : MetaDB) : Op → Prop
  | .makeNode path _ _ => Creatable metadb path
  | .makeDir path _ => Creatable metadb path
  | .symlink _ path => Creatable metadb path
  | .unlink path => ∀ v ∈ recordAt metadb path, ¬ v.IsDir
  | .removeDir path =>
    (∀ x ∈ resolve metadb path, x.1 ≠ rootKey) ∧ ∀ v ∈ recordAt metadb path, v.IsDir
  | .rename old_path new_path =>
    (∀ x ∈ resolve metadb old_path, ¬ Through metadb new_path x.1) ∧
    (∀ x ∈ resolve metadb new_path, x.1 ≠ rootKey ∧ InDirectory metadb x.1) ∧
    ∀ v ∈ recordAt metadb old_path, ∀ w ∈ recordAt metadb new_path, v.IsDir ↔ w.IsDir
  | _ => False

/-- The path whose record a request removes or replaces. -/
def Op.dropped : Op → Option CString
  | .unlink path => some path
  | .removeDir path => some path
  | .rename _ new_path => some new_path
  | _ => none

/-- No directory that has records below it is removed or replaced, the store does not fail and
the inode counter does not wrap. -/
def Unorphaning (s : State) (c : Env × Op) : Prop :=
  (∀ path ∈ c.2.dropped, ∀ v ∈ recordAt s.inode_cache.metadb path, v.IsDir →
    children s.inode_cache.metadb v.ino = ∅) ∧
  c.1.commit = true ∧ s.max_inode_num ≠ 18446744073709551615

instance (metadb : MetaDB) (key : MetaKey) : Decidable (InDirectory metadb key) :=
  inferInstanceAs (Decidable (∃ k ∈ metadb.keys, ∃ v ∈ metadb.lookup k, _))

instance (metadb : MetaDB) (path : CString) (key : MetaKey) : Decidable (Through metadb path key) :=
  inferInstanceAs (Decidable (_ ∨ _))

instance (metadb : MetaDB) (path : CString) : Decidable (Creatable metadb path) :=
  inferInstanceAs (Decidable (∀ x ∈ resolve metadb path, _))

instance (metadb : MetaDB) : (op : Op) → Decidable (Promised metadb op)
  | .makeNode path _ _ => inferInstanceAs (Decidable (Creatable metadb path))
  | .makeDir path _ => inferInstanceAs (Decidable (Creatable metadb path))
  | .symlink _ path => inferInstanceAs (Decidable (Creatable metadb path))
  | .unlink path => inferInstanceAs (Decidable (∀ v ∈ recordAt metadb path, ¬ v.IsDir))
  | .removeDir path => inferInstanceAs (Decidable ((∀ x ∈ resolve metadb path, _) ∧ _))
  | .rename old_path new_path => inferInstanceAs (Decidable
    ((∀ x ∈ resolve metadb old_path, ¬ Through metadb new_path x.1) ∧ _ ∧ _))
  | .getAttr .. | .openFile .. | .read .. | .write .. | .release .. | .truncate .. | .chmod .. | .chown ..
  | .updateTimens .. | .readlink .. | .openDir .. | .readDir .. | .releaseDir .. => isFalse id

instance (s : State) (c : Env × Op) : Decidable (Unorphaning s c) := inferInstanceAs (Decidable (_ ∧ _ ∧ _))

section Walk
variable {metadb : MetaDB} {old : MetaKey}

private theorem lookup_insert_eq (metadb : MetaDB) (key : MetaKey) (v : Value) :
    (fun k => (metadb.insert key v).lookup k) = Function.update (fun k => metadb.lookup k) key (some v) := by
  funext k
  by_cases hk : k = key
  · subst hk
    simp
  · simp [Finmap.lookup_insert_of_ne _ hk, Function.update_of_ne hk]

private theorem lookup_erase_eq (metadb : MetaDB) (key : MetaKey) :
    (fun k => (metadb.erase key).lookup k) = Function.update (fun k => metadb.lookup k) key none := by
  funext k
  by_cases hk : k = key
  · subst hk
    simp
  · simp [Finmap.lookup_erase_ne hk, Function.update_of_ne hk]

private theorem resolveParent_passed {ino : MetaKey → Option UInt64} {items : List (List UInt8)} {inode inode' : UInt64}
    {key key' : MetaKey} (h : resolveParent ino inode key items = some (inode', key')) (item : List UInt8) :
    (key' = key ∨ key' ∈ passed ino inode (items ++ [item])) ∧
      buildMetaKey item inode' ∈ passed ino inode (items ++ [item]) := by
  induction items generalizing inode key with
  | nil =>
    obtain ⟨rfl, rfl⟩ := Prod.mk.inj (Option.some.inj h)
    simp [passed]
  | cons i items ih =>
    simp only [resolveParent] at h
    split at h
    · rename_i inode1 hi
      obtain ⟨hkey, hlast⟩ := ih h
      simp only [List.cons_append, passed, hi, List.mem_cons]
      exact ⟨.inr hkey, .inr hlast⟩
    · cases h

private theorem components_eq (path : CString) :
    components path = (components path).dropLast ++ [lastComponent path] := by
  have hne : components path ≠ [] := List.splitOnP_ne_nil _ _
  rw [lastComponent, List.getLastD_eq_getLast?, List.getLast?_eq_some_getLast hne]
  exact (List.dropLast_append_getLast hne).symm

private theorem through_of_resolve {path : CString} {x : MetaKey × List UInt8} (h : resolve metadb path = some x) :
    Through metadb path x.1 := by
  obtain ⟨parent, hp, rfl⟩ := Option.map_eq_some_iff.mp h
  obtain ⟨hkey, hlast⟩ := resolveParent_passed hp (lastComponent path)
  rw [← components_eq] at hkey hlast
  unfold lastKey
  split
  · exact hkey
  · exact .inr hlast

private theorem resolveParent_without (ht : IsTree metadb) {items : List (List UInt8)} {inode inode' : UInt64}
    {key key' : MetaKey} (hkey : inoOf metadb key = some inode) (hne : key ≠ old)
    (hr : RootedWithout MetaKey.inode_id Value.ino Value.IsDir (fun k => metadb.lookup k) rootKey old key)
    (h : resolveParent (inoOf metadb) inode key items = some (inode', key'))
    {item : List UInt8} (hp : old ∉ passed (inoOf metadb) inode (items ++ [item])) :
    inoOf metadb key' = some inode' ∧ key' ≠ old ∧
      RootedWithout MetaKey.inode_id Value.ino Value.IsDir (fun k => metadb.lookup k) rootKey old key' := by
  induction items generalizing inode key with
  | nil =>
    obtain ⟨rfl, rfl⟩ := Prod.mk.inj (Option.some.inj h)
    exact ⟨hkey, hne, hr⟩
  | cons i items ih =>
    simp only [resolveParent] at h
    split at h
    · rename_i inode1 hi
      simp only [List.cons_append, passed, hi, List.mem_cons, not_or] at hp
      obtain ⟨v, hv, hino⟩ := Option.map_eq_some_iff.mp hkey
      obtain ⟨w, hw, _⟩ := Option.map_eq_some_iff.mp hi
      have hparent : ParentRecord metadb (buildMetaKey i inode) key := ht.parent_of_ident hw hv hino
      exact ih hi (Ne.symm hp.1) (.head ⟨hparent, hne⟩ hr) h hp.2
    · cases h

private theorem target_parent (ht : IsTree metadb) {path : CString} (hold : ¬ Through metadb path old)
    {x : MetaKey × List UInt8} (hx : resolve metadb path = some x) (hroot : x.1 ≠ rootKey)
    (hin : InDirectory metadb x.1) :
    ∃ c, ParentRecord metadb x.1 c ∧ c ≠ old ∧
      RootedWithout MetaKey.inode_id Value.ino Value.IsDir (fun k => metadb.lookup k) rootKey old c := by
  obtain ⟨hne, hpassed⟩ := not_or.mp hold
  rw [components_eq] at hpassed
  obtain ⟨⟨inode, key⟩, hp, rfl⟩ := Option.map_eq_some_iff.mp hx
  obtain ⟨v, hv, _, hino⟩ := ht.root_self
  have hzero : inoOf metadb rootKey = some ROOT_INODE_ID := by
    rw [inoOf, show metadb.lookup rootKey = some v from hv]
    exact congrArg some hino
  obtain ⟨hkey, hko, hrooted⟩ := resolveParent_without ht hzero (Ne.symm hne) .refl hp hpassed
  change (lastKey (inode, key) (lastComponent path)).1 ≠ rootKey at hroot
  change InDirectory metadb (lastKey (inode, key) (lastComponent path)).1 at hin
  change ∃ c, ParentRecord metadb (lastKey (inode, key) (lastComponent path)).1 c ∧ _
  unfold lastKey at hroot hin ⊢
  split at hroot
  · -- the path names the directory the walk ended at
    rename_i hlast
    rw [if_pos hlast]
    rcases hrooted.cases_head with he | ⟨c, hc, hrest⟩
    · exact absurd he hroot
    · exact ⟨c, hc.1, hc.2, hrest⟩
  · rename_i hlast
    rw [if_neg hlast] at hin ⊢
    obtain ⟨k, _, w, hw, hd, hwi⟩ := hin
    obtain ⟨u, hu, hui⟩ := Option.map_eq_some_iff.mp hkey
    obtain rfl := ht.unique k key w u hw hu (hwi.trans hui.symm)
    exact ⟨k, ⟨w, hw, hd, hwi⟩, hko, hrooted⟩

end Walk

/-- The state between requests on the namespace: a tree, numbered by the counter, nothing open. -/
structure Plain.Settled (p : Plain) : Prop where
  tree : IsTree p.metadb
  bound : ∀ k v, p.metadb.lookup k = some v → v.ino ≤ p.max_inode_num
  work : ∀ k, p.work k = none
  dirs : ∀ fh, slot p.dirs fh = none

section Step
variable {p : Plain} {env : Env}

theorem Plain.Settled.acquire (hp : p.Settled) (path : CString) (mode : InodeAccessMode) :
    p.acquire path mode = (resolve p.metadb path).bind fun x => (p.metadb.lookup x.1).map fun v =>
      (x.1, ⟨v, mode⟩) := by
  simp only [Plain.acquire, Plain.inode, copyOf, hp.work, Option.map_map]
  rfl

private theorem settled_create (hp : p.Settled) {path : CString} (hc : Creatable p.metadb path)
    (hmax : p.max_inode_num ≠ 18446744073709551615) {value : UInt64 → List UInt8 → Value}
    (hv : ∀ inode name, (value inode name).ino = inode) : (p.create env path value).1.Settled := by
  have hlt : p.max_inode_num < p.max_inode_num + 1 := by
    have hn : p.max_inode_num.toNat ≠ 18446744073709551615 := fun h => hmax (UInt64.toNat.inj h)
    have := p.max_inode_num.toNat_lt
    rw [UInt64.lt_iff_toNat_lt, UInt64.toNat_add]
    simp only [UInt64.reduceToNat]
    omega
  have hle (k : MetaKey) (v : Value) (hk : p.metadb.lookup k = some v) : v.ino < p.max_inode_num + 1 :=
    UInt64.lt_of_le_of_lt (hp.bound k v hk) hlt
  unfold Plain.create
  rcases hr : resolve p.metadb path with _ | ⟨key, name⟩
  · exact hp
  · obtain ⟨habs, k, _, w, hw, hd, hi⟩ := hc _ hr
    dsimp only
    split
    · refine ⟨?_, fun k' v' hk' => ?_, hp.work, hp.dirs⟩
      · unfold IsTree
        simp only [lookup_insert_eq]
        refine Tree.insert hp.tree habs (p := k) ⟨w, hw, hd, hi⟩ fun k' w' hk' he => ?_
        rw [hv] at he
        exact absurd (he ▸ hle k' w' hk') (UInt64.lt_irrefl _)
      · rcases DentryCache.lookup_insert_some hk' with ⟨_, rfl⟩ | ⟨_, hk'⟩
        · rw [hv]
          exact UInt64.le_refl _
        · exact UInt64.le_of_lt (hle k' v' hk')
    · exact ⟨hp.tree, fun k' v' hk' => UInt64.le_of_lt (hle k' v' hk'), hp.work, hp.dirs⟩

private theorem leaf_of_children {metadb : MetaDB} (ht : IsTree metadb) {key : MetaKey} (hroot : key ≠ rootKey)
    (hc : ∀ v, metadb.lookup key = some v → v.IsDir → children metadb v.ino = ∅) :
    Leaf MetaKey.inode_id Value.ino Value.IsDir (fun k => metadb.lookup k) key := by
  rintro k w hk ⟨v, hv, hd, hi⟩
  have hmem : k ∈ children metadb v.ino := by
    refine Finset.mem_filter.mpr ⟨Finmap.mem_keys.mpr (Finmap.mem_iff.mpr ⟨w, hk⟩), hi.symm, ?_⟩
    rintro ⟨rfl, _⟩
    obtain ⟨u, hu, _, hui⟩ := ht.root_self
    exact hroot (ht.unique key rootKey v u hv hu (hi.trans hui.symm))
  simp [hc v hv hd] at hmem

private theorem settled_remove (hp : p.Settled) {key : MetaKey} {disk : Disk} (hroot : key ≠ rootKey)
    (hc : ∀ v, p.metadb.lookup key = some v → v.IsDir → children p.metadb v.ino = ∅) :
    { p with disk := disk, metadb := p.metadb.erase key }.Settled := by
  refine ⟨?_, fun k v hk => hp.bound k v (DentryCache.lookup_erase_some hk).2, hp.work, hp.dirs⟩
  unfold IsTree
  simp only [lookup_erase_eq]
  exact Tree.erase hp.tree hroot (leaf_of_children hp.tree hroot hc)

private theorem settled_rename (hp : p.Settled) {old_path new_path : CString}
    (hpr : Promised p.metadb (.rename old_path new_path))
    (hc : ∀ v ∈ recordAt p.metadb new_path, v.IsDir → children p.metadb v.ino = ∅) :
    (p.rename old_path new_path).1.Settled := by
  obtain ⟨hthrough, hnew, _⟩ := hpr
  unfold Plain.rename
  rcases ho : resolve p.metadb old_path with _ | ⟨old, oname⟩
  · exact hp
  · rcases hn : resolve p.metadb new_path with _ | ⟨new, name⟩
    · exact hp
    · simp only [Plain.inode, copyOf, hp.work]
      cases hv : p.metadb.lookup old with
      | none => exact hp
      | some v =>
        obtain ⟨hroot, hin⟩ := hnew _ hn
        have hold := hthrough _ ho
        obtain ⟨c, hparent, hne, hrooted⟩ := target_parent hp.tree hold hn hroot hin
        have hself : Through p.metadb new_path new := through_of_resolve hn
        have hab : old ≠ new := by
          rintro rfl
          exact hold hself
        refine ⟨?_, fun k w hk => ?_, hp.work, hp.dirs⟩
        · unfold IsTree
          simp only [Option.map_some, lookup_insert_eq, lookup_erase_eq]
          refine Tree.move hp.tree hv rfl id hab hroot (fun he => hold (.inl he)) ?_ hparent hne hrooted
          exact leaf_of_children hp.tree hroot fun w hw => hc w (by simp [recordAt, hn, hw])
        · rcases DentryCache.lookup_insert_some hk with ⟨_, rfl⟩ | ⟨_, hk⟩
          · exact hp.bound old v hv
          · exact hp.bound k w (DentryCache.lookup_erase_some hk).2

private theorem settled_step (hp : p.Settled) {op : Op} (hpr : Promised p.metadb op)
    (hc : ∀ path ∈ op.dropped, ∀ v ∈ recordAt p.metadb path, v.IsDir → children p.metadb v.ino = ∅)
    (hmax : p.max_inode_num ≠ 18446744073709551615) : (p.step (env, op)).1.Settled := by
  have hdrop (path : CString) (hpath : path ∈ op.dropped) (key : MetaKey) (name : List UInt8)
      (hr : resolve p.metadb path = some (key, name)) (v : Value) (hv : p.metadb.lookup key = some v) :
      v.IsDir → children p.metadb v.ino = ∅ := hc path hpath v (by simp [recordAt, hr, hv])
  cases op with
  | makeNode path mode dev => exact settled_create hp hpr hmax fun _ _ => rfl
  | makeDir path mode => exact settled_create hp hpr hmax fun _ _ => rfl
  | symlink target path => exact settled_create hp hpr hmax fun _ _ => rfl
  | unlink path =>
    simp only [Plain.step, Plain.unlink, hp.acquire]
    rcases hr : resolve p.metadb path with _ | ⟨key, name⟩
    · exact hp
    · cases hv : p.metadb.lookup key with
      | none => simpa [hv] using hp
      | some v =>
        simp only [Option.bind_some, hv, Option.map_some]
        refine settled_remove hp ?_ (hdrop path rfl key name hr)
        -- the root is a directory
        rintro rfl
        obtain ⟨w, hw, hd, _⟩ := hp.tree.root_self
        obtain rfl := Option.some.inj (hv.symm.trans hw)
        exact hpr v (by simp [recordAt, hr, hv]) hd
  | removeDir path =>
    simp only [Plain.step, Plain.removeDir, hp.acquire]
    rcases hr : resolve p.metadb path with _ | ⟨key, name⟩
    · exact hp
    · cases hv : p.metadb.lookup key with
      | none => simpa [hv] using hp
      | some v =>
        simp only [Option.bind_some, hv, Option.map_some]
        exact settled_remove hp (hpr.1 _ hr) (hdrop path rfl key name hr)
  | rename old_path new_path => exact settled_rename hp hpr (hc new_path rfl)
  | _ => exact hpr.elim

/-- With nothing open the caches are out of the way. -/
theorem Promised.orderly {s : State} (hr : Refines s p) (hp : p.Settled) {op : Op} (hpr : Promised p.metadb op)
    (hcommit : env.commit = true) : Orderly s (env, op) := by
  have hclosed (key : MetaKey) : ¬ s.OpenOn key ∧ ¬ s.DirOn key :=
    ⟨fun ho => (hr.openOn key).mpr ho (hp.work key), hr.no_dirOn hp.dirs key⟩
  have hnew (path : CString) (hc : Creatable p.metadb path) (key : MetaKey) (hk : key ∈ s.keyOf path) :
      s.inode_cache.metadb.lookup key = none ∧ ¬ s.OpenOn key := by
    rw [hr.keyOf_eq] at hk
    obtain ⟨x, hx, rfl⟩ := Option.map_eq_some_iff.mp hk
    exact ⟨hr.metadb ▸ (hc x hx).1, (hclosed x.1).1⟩
  cases op with
  | makeNode path mode dev => exact hnew path hpr
  | makeDir path mode => exact hnew path hpr
  | symlink target path => exact hnew path hpr
  | unlink path => exact fun key _ => hclosed key
  | removeDir path => exact fun key _ => hclosed key
  | rename old_path new_path =>
    refine ⟨hcommit, fun old ho new hn => ⟨?_, hclosed old, hclosed new⟩⟩
    rw [hr.keyOf_eq] at ho hn
    obtain ⟨x, hx, rfl⟩ := Option.map_eq_some_iff.mp ho
    obtain ⟨y, hy, rfl⟩ := Option.map_eq_some_iff.mp hn
    intro he
    exact hpr.1 x hx (he ▸ through_of_resolve hy)
  | _ => exact hpr.elim

end Step

private theorem settled_init (config : Config) (env : Env) {mode : UInt32} (hmode : S_ISDIR mode = true) (dev : Nat) :
    (Plain.init config env mode dev).Settled := by
  have hroot : (Plain.init config env mode dev).metadb.lookup rootKey =
      some (initInodeValue env.memory ROOT_INODE_ID mode dev [] env.context env.now) := Finmap.lookup_singleton_eq
  have honly (k : MetaKey) (v : Value) (hk : (Plain.init config env mode dev).metadb.lookup k = some v) :
      k = rootKey ∧ v = initInodeValue env.memory ROOT_INODE_ID mode dev [] env.context env.now := by
    rcases DentryCache.lookup_insert_some (m := ∅) hk with h | ⟨_, h⟩
    · exact h
    · simp at h
  refine ⟨⟨⟨_, hroot, hmode, rfl⟩, fun k v hk => ?_, fun k k' v v' hk hk' _ => ?_⟩, fun k v hk => ?_,
    fun _ => rfl, fun fh => by simp [Plain.init, slot]⟩
  · rw [(honly k v hk).1]
  · rw [(honly k v hk).1, (honly k' v' hk').1]
  · rw [(honly k v hk).2]
    exact UInt64.le_refl _

/-- In every run from a fresh file system in which no directory with records below it is
removed or replaced, every record has a directory above it and its parents lead to the root. -/
theorem namespace_stays_tree (config : Config) (env : Env) (mode : UInt32) (hmode : S_ISDIR mode = true) (dev : Nat)
    (calls : List (Env × Op))
    (hok : Allowed step (fun s c => Promised s.inode_cache.metadb c.2 ∧ Unorphaning s c)
      (State.init config env mode dev) calls) :
    let metadb := (run step (State.init config env mode dev) calls).1.inode_cache.metadb
    (∀ k v, metadb.lookup k = some v → k ≠ rootKey →
      ∃ k' v', metadb.lookup k' = some v' ∧ v'.IsDir ∧ v'.fstat.st_ino = k.inode_id) ∧
    ∀ k v, metadb.lookup k = some v → ReflTransGen (ParentRecord metadb) k rootKey := by
  intro metadb
  obtain ⟨_, hr, hp⟩ := run_simulates (fun s p => Refines s p ∧ p.Settled) id (by
    rintro s p ⟨env, op⟩ ⟨hr, hp⟩ ⟨hpr, hdrop, hcommit, hmax⟩
    rw [← hr.metadb] at hpr hdrop
    rw [← hr.counter] at hmax
    obtain ⟨hout, hr'⟩ := step_refines hr (env, op) (hpr.orderly hr hp hcommit)
    exact ⟨hout, hr', settled_step hp hpr hdrop hmax⟩)
    ⟨refines_init config env mode dev, settled_init config env hmode dev⟩ hok
  have ht := hp.tree
  rw [hr.metadb] at ht
  refine ⟨fun k v hk _ => ?_, ht.rooted⟩
  obtain ⟨k', v', hv', hd, hi⟩ := ht.parent hk
  exact ⟨k', v', hv', hd, hi⟩

/-- A directory with a file replaces an empty one, and both are removed. -/
theorem namespace_stays_tree_session :
    let calls := calmly [.makeDir (inRoot [100]) 0, .makeDir (inRoot [101]) 0, .makeNode (inRoot [100, 47, 120]) 0 0,
      .rename (inRoot [100]) (inRoot [101]), .unlink (inRoot [101, 47, 120]), .removeDir (inRoot [101])]
    Allowed step (fun s c => Promised s.inode_cache.metadb c.2 ∧ Unorphaning s c) (State.fresh 4096) calls ∧
      ∀ k v, (run step (State.fresh 4096) calls).1.inode_cache.metadb.lookup k = some v →
        ReflTransGen (ParentRecord (run step (State.fresh 4096) calls).1.inode_cache.metadb) k rootKey := by
  intro calls
  have hok : Allowed step (fun s c => Promised s.inode_cache.metadb c.2 ∧ Unorphaning s c)
      (State.fresh 4096) calls := by decide +kernel
  exact ⟨hok, (namespace_stays_tree _ _ _ (by decide) _ _ hok).2⟩

/-- RemoveDir of a directory that is not empty returns 0, and the file in it has no parent. -/
theorem removeDir_orphans_file :
    let calls := calmly [.makeDir (inRoot [100]) 0, .makeNode (inRoot [100, 47, 120]) 0 0, .removeDir (inRoot [100])]
    let metadb := (run step (State.fresh 4096) calls).1.inode_cache.metadb
    Allowed step (fun s c => Promised s.inode_cache.metadb c.2) (State.fresh 4096) calls ∧
      (run step (State.fresh 4096) calls).2.map Result.ret = [0, 0, 0] ∧
      (metadb.lookup (buildMetaKey [120] 1)).isSome ∧ ¬ InDirectory metadb (buildMetaKey [120] 1) := by
  decide +kernel

end TableFS
