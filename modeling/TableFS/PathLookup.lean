import TableFS.DentryCache
import TableFS.InodeCache

/-! Resolving a path to the key of its record: TableFS::ParentPathLookup and
TableFS::PathLookup of fs/tablefs.cpp, and the resolution on the store alone that they
compute through the dentry cache. -/
namespace TableFS

def PATH_DELIMITER : UInt8 := 47

/-- The pieces between delimiters, after the first character of the path. -/
def components (path : CString) : List (List UInt8) := path.val.tail.splitOn PATH_DELIMITER

/-- The loop of ParentPathLookup over the components before the last one. -/
def parentPathLookup (metadb : MetaDB) : DentryCache → UInt64 → MetaKey → List (List UInt8) →
    DentryCache × Option (UInt64 × MetaKey)
  | dentry_cache, inode_in_search, key, [] => (dentry_cache, some (inode_in_search, key))
  | dentry_cache, inode_in_search, _, item :: items =>
    let key := buildMetaKey item inode_in_search
    match dentry_cache.find key with
    | (dentry_cache, some inode) => parentPathLookup metadb dentry_cache inode key items
    | (dentry_cache, none) =>
      match metadb.lookup key with
      | some result => parentPathLookup metadb (dentry_cache.insert key result.fstat.st_ino)
          result.fstat.st_ino key items
      | none => (dentry_cache, none)

/-- The key a path stands for once its parent is found, and the name it would be stored
under: an empty last component leaves the key of the walk and gives the delimiter. -/
def lastKey (parent : UInt64 × MetaKey) (item : List UInt8) : MetaKey × List UInt8 :=
  if item = [] then (parent.2, [PATH_DELIMITER]) else (buildMetaKey item parent.1, item)

def pathLookup (dentry_cache : DentryCache) (metadb : MetaDB) (path : CString) :
    DentryCache × Option (MetaKey × List UInt8) :=
  let items := components path
  match parentPathLookup metadb dentry_cache ROOT_INODE_ID rootKey items.dropLast with
  | (dentry_cache, none) => (dentry_cache, none)
  | (dentry_cache, some parent) => (dentry_cache, some (lastKey parent (items.getLastD [])))

/-- Every cached entry agrees with the store. -/
def DentryCache.Coherent (d : DentryCache) (metadb : MetaDB) : Prop :=
  ∀ k ino, d.Maps k ino → ∃ v, metadb.lookup k = some v ∧ v.fstat.st_ino = ino

/-- Resolution by inode numbers alone, with no cache: `ino` gives the number of the record
under a key. -/
def resolveParent (ino : MetaKey → Option UInt64) :
    UInt64 → MetaKey → List (List UInt8) → Option (UInt64 × MetaKey)
  | inode, key, [] => some (inode, key)
  | inode, _, item :: items =>
    match ino (buildMetaKey item inode) with
    | some inode' => resolveParent ino inode' (buildMetaKey item inode) items
    | none => none

def resolveBy (ino : MetaKey → Option UInt64) (path : CString) : Option (MetaKey × List UInt8) :=
  let items := components path
  (resolveParent ino ROOT_INODE_ID rootKey items.dropLast).map (lastKey · (items.getLastD []))

def inoOf (metadb : MetaDB) (key : MetaKey) : Option UInt64 := (metadb.lookup key).map fun v => v.fstat.st_ino

/-- Resolution on the store. -/
def resolve (metadb : MetaDB) (path : CString) : Option (MetaKey × List UInt8) := resolveBy (inoOf metadb) path

/-- The record a path leads to. -/
def recordAt (metadb : MetaDB) (path : CString) : Option Value :=
  (resolve metadb path).bind fun x => metadb.lookup x.1

/-- A walk follows `ino` if, on the keys it passes, the store and the dentry cache agree with it. -/
theorem parentPathLookup_on {metadb : MetaDB} {ino : MetaKey → Option UInt64} {K : MetaKey → Prop}
    (hstore : ∀ k, K k → inoOf metadb k = ino k) (items : List (List UInt8)) {d : DentryCache}
    (hd : ∀ k n, K k → d.Maps k n → ino k = some n) (inode : UInt64) (key : MetaKey)
    (hK : ∀ q c, q ++ [c] <+: items → ∀ x, resolveParent ino inode key q = some x → K (buildMetaKey c x.1)) :
    (parentPathLookup metadb d inode key items).2 = resolveParent ino inode key items := by
  induction items generalizing d inode key with
  | nil => rfl
  | cons item items ih =>
    have hitem : K (buildMetaKey item inode) := hK [] item (by simp) (inode, key) rfl
    have hrest {n : UInt64} (hn : ino (buildMetaKey item inode) = some n) (q : List (List UInt8)) (c : List UInt8)
        (hq : q ++ [c] <+: items) (x : UInt64 × MetaKey)
        (hx : resolveParent ino n (buildMetaKey item inode) q = some x) : K (buildMetaKey c x.1) :=
      hK (item :: q) c (List.cons_prefix_cons.mpr ⟨rfl, hq⟩) x (by simp only [resolveParent, hn, hx])
    obtain ⟨hfind, hmaps⟩ := d.find_spec (buildMetaKey item inode)
    have hd' (k : MetaKey) (n : UInt64) (hk : K k) (h : (d.find (buildMetaKey item inode)).1.Maps k n) :
        ino k = some n := hd k n hk ((hmaps k n).mp h)
    simp only [parentPathLookup, resolveParent]
    rcases hf : d.find (buildMetaKey item inode) with ⟨d', _ | n⟩
    · rw [hf] at hd'
      cases hm : metadb.lookup (buildMetaKey item inode) with
      | none =>
        rw [← hstore _ hitem, inoOf, hm]
        rfl
      | some v =>
        have hn : ino (buildMetaKey item inode) = some v.fstat.st_ino := by
          rw [← hstore _ hitem, inoOf, hm, Option.map_some]
        simp only [hn]
        refine ih (fun k n hk h => ?_) _ _ (hrest hn)
        obtain ⟨rfl, rfl⟩ | ⟨_, h⟩ := DentryCache.maps_insert _ h
        · exact hn
        · exact hd' k n hk h
    · rw [hf] at hd' hfind
      have hn := hd _ n hitem ((hfind n).mp rfl)
      simp only [hn]
      exact ih hd' _ _ (hrest hn)

/-- What lookups can add to a dentry cache: only what the store says. -/
def DentryCache.Walked (d d' : DentryCache) (metadb : MetaDB) : Prop :=
  ∀ k ino, d'.Maps k ino → d.Maps k ino ∨ inoOf metadb k = some ino

theorem DentryCache.Walked.refl (d : DentryCache) (metadb : MetaDB) : d.Walked d metadb := fun _ _ => .inl

theorem DentryCache.Walked.trans {d d' d'' : DentryCache} {metadb : MetaDB} (h : d.Walked d' metadb)
    (h' : d'.Walked d'' metadb) : d.Walked d'' metadb :=
  fun k ino hk => (h' k ino hk).elim (h k ino) .inr

theorem DentryCache.Walked.evict {d d' : DentryCache} {metadb : MetaDB} (h : d.Walked d' metadb) (key : MetaKey) :
    d.Walked (d'.evict key) metadb :=
  fun k ino hk => h k ino ((d'.maps_evict key k ino).mp hk).2

theorem DentryCache.Walked.coherent {d d' : DentryCache} {metadb : MetaDB} (h : d.Walked d' metadb)
    (hd : d.Coherent metadb) : d'.Coherent metadb := by
  intro k ino hk
  rcases h k ino hk with hk | hk
  · exact hd k ino hk
  · exact Option.map_eq_some_iff.mp hk

theorem walked_parentPathLookup (metadb : MetaDB) (items : List (List UInt8)) (d : DentryCache) (inode : UInt64)
    (key : MetaKey) : d.Walked (parentPathLookup metadb d inode key items).1 metadb := by
  induction items generalizing d inode key with
  | nil => exact .refl d metadb
  | cons item items ih =>
    obtain ⟨_, hmaps⟩ := d.find_spec (buildMetaKey item inode)
    have hfind : d.Walked (d.find (buildMetaKey item inode)).1 metadb := fun k ino h => .inl ((hmaps k ino).mp h)
    simp only [parentPathLookup]
    rcases hf : d.find (buildMetaKey item inode) with ⟨d', _ | ino⟩
    · rw [hf] at hfind
      cases hm : metadb.lookup (buildMetaKey item inode) with
      | none => exact hfind
      | some v =>
        refine (hfind.trans fun k i h => ?_).trans (ih _ _ _)
        obtain ⟨rfl, rfl⟩ | ⟨_, h⟩ := DentryCache.maps_insert _ h
        · exact .inr (by rw [inoOf, hm, Option.map_some])
        · exact .inl h
    · rw [hf] at hfind
      exact hfind.trans (ih _ _ _)

/-- Whatever the dentry cache holds, a lookup adds only what the store says. -/
theorem walked_pathLookup (d : DentryCache) (metadb : MetaDB) (path : CString) :
    d.Walked (pathLookup d metadb path).1 metadb := by
  have h := walked_parentPathLookup metadb (components path).dropLast d ROOT_INODE_ID rootKey
  unfold pathLookup
  dsimp only
  revert h
  rcases parentPathLookup metadb d ROOT_INODE_ID rootKey (components path).dropLast with ⟨d', _ | parent⟩
  · exact id
  · exact id

theorem parentPathLookup_spec {metadb : MetaDB} (items : List (List UInt8)) {d : DentryCache}
    (hd : d.Coherent metadb) (inode : UInt64) (key : MetaKey) :
    (parentPathLookup metadb d inode key items).2 = resolveParent (inoOf metadb) inode key items ∧
      (parentPathLookup metadb d inode key items).1.Coherent metadb := by
  refine ⟨parentPathLookup_on (K := fun _ => True) (fun _ _ => rfl) items (fun k n _ hk => ?_) inode key
    (fun _ _ _ _ _ => trivial), (walked_parentPathLookup metadb items d inode key).coherent hd⟩
  obtain ⟨v, hv, rfl⟩ := hd k n hk
  rw [inoOf, hv, Option.map_some]

theorem pathLookup_snd (d : DentryCache) (metadb : MetaDB) (path : CString) : (pathLookup d metadb path).2 =
    (parentPathLookup metadb d ROOT_INODE_ID rootKey (components path).dropLast).2.map
      (lastKey · ((components path).getLastD [])) := by
  unfold pathLookup
  dsimp only
  rcases parentPathLookup metadb d ROOT_INODE_ID rootKey (components path).dropLast with ⟨d', _ | parent⟩
  · rfl
  · rfl

/-- With a coherent dentry cache a lookup finds what the store alone gives, and the
cache stays coherent. -/
theorem pathLookup_spec {metadb : MetaDB} {d : DentryCache} (hd : d.Coherent metadb) (path : CString) :
    (pathLookup d metadb path).2 = resolve metadb path ∧
      (pathLookup d metadb path).1.Coherent metadb := by
  refine ⟨?_, (walked_pathLookup d metadb path).coherent hd⟩
  rw [pathLookup_snd, (parentPathLookup_spec _ hd _ _).1]
  rfl

end TableFS
