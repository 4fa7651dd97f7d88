import TableFS.Paths
import TableFS.Invariants

/-! TableFS::ParentPathLookup and both forms of TableFS::PathLookup as the source walks them,
with offsets into the path for the pointers lpos and rpos. On absolute paths the walk is the
lookup by components that the operations use, and with a coherent dentry cache and a root
record it is the component-wise resolution in the store. -/
namespace TableFS
open Runs

/-- strchr(str + pos, c): the offset of the next c before the terminator. -/
def strchr (str : List UInt8) (pos : Nat) (c : UInt8) : Option Nat :=
  ((str.drop pos).findIdx? (· == c)).map (pos + ·)

/-- The len characters at an offset. -/
def substr (str : List UInt8) (pos len : Nat) : List UInt8 := (str.drop pos).take len

private theorem strchr_some {str : List UInt8} {pos rpos : Nat} {c : UInt8} (h : strchr str pos c = some rpos) :
    ∃ item, str.drop pos = item ++ c :: str.drop (rpos + 1) ∧ c ∉ item ∧ rpos = pos + item.length := by
  obtain ⟨n, hn, rfl⟩ := Option.map_eq_some_iff.mp h
  obtain ⟨hlt, hc, hbefore⟩ := List.findIdx?_eq_some_iff_getElem.mp hn
  refine ⟨(str.drop pos).take n, ?_, ?_, ?_⟩
  · have hget : (str.drop pos)[n] = c := by simpa using hc
    rw [show pos + n + 1 = pos + (n + 1) by omega, ← List.drop_drop, ← hget, List.getElem_cons_drop,
      List.take_append_drop]
  · intro hmem
    obtain ⟨j, hj, hcj⟩ := List.mem_iff_getElem.mp hmem
    rw [List.length_take] at hj
    rw [List.getElem_take] at hcj
    exact hbefore j (by omega) (by simpa using hcj)
  · rw [List.length_take, Nat.min_eq_left (by omega)]

private theorem strchr_none {str : List UInt8} {pos : Nat} {c : UInt8} (h : strchr str pos c = none) :
    c ∉ str.drop pos := by
  intro hmem
  simpa using List.findIdx?_eq_none_iff.mp (Option.map_eq_none_iff.mp h) c hmem

private theorem lt_of_strchr {str : List UInt8} {pos rpos : Nat} {c : UInt8} (h : strchr str pos c = some rpos) :
    pos ≤ rpos ∧ rpos < str.length := by
  obtain ⟨item, hdrop, _, rfl⟩ := strchr_some h
  have hlen := congrArg List.length hdrop
  simp only [List.length_drop, List.length_append, List.length_cons] at hlen
  omega

private theorem splitOn_first {c : UInt8} {item : List UInt8} (h : c ∉ item) (rest : List UInt8) :
    (item ++ c :: rest).splitOn c = item :: rest.splitOn c :=
  List.splitOnP_append_cons_of_forall_mem (fun x hx => by
    simpa using fun he : x = c => h (he ▸ hx)) c (by simp) rest

namespace State

/-- The loop of ParentPathLookup: the state, and on success the key, the inode in search and
the last delimiter. -/
def parentPathWalk (path : CString) (s : State) (key : MetaKey) (inode_in_search : UInt64) (lpos : Nat) :
    State × Option (MetaKey × UInt64 × Nat) :=
  match _h : strchr path.val (lpos + 1) PATH_DELIMITER with
  | none => (s, some (if lpos = 0 then rootKey else key, inode_in_search, lpos))
  | some rpos =>
    if rpos - lpos > 0 then
      let key := buildMetaKey (substr path.val (lpos + 1) (rpos - lpos - 1)) inode_in_search
      match s.dentry_cache.find key with
      | (dentry_cache, some inode) => parentPathWalk path { s with dentry_cache } key inode rpos
      | (dentry_cache, none) =>
        match s.inode_cache.metadb.lookup key with
        | some result => parentPathWalk path
            { s with dentry_cache := dentry_cache.insert key result.fstat.st_ino } key result.fstat.st_ino rpos
        | none => ({ s with dentry_cache }, none)
    else parentPathWalk path s key inode_in_search rpos
termination_by path.val.length - lpos
decreasing_by all_goals have := lt_of_strchr _h; omega

/-- PathLookup(path, key). The key comes in with whatever the caller left there. -/
def pathLookupKey (s : State) (path : CString) (key : MetaKey) : State × Option MetaKey :=
  match parentPathWalk path s key ROOT_INODE_ID 0 with
  | (s, none) => (s, none)
  | (s, some (key, inode_in_search, lpos)) =>
    -- strchr(lpos, '\0') is the end of the path
    let rpos := path.val.length
    (s, some (if rpos - lpos > 1 then
      buildMetaKey (substr path.val (lpos + 1) (rpos - lpos - 1)) inode_in_search else key))

/-- PathLookup(path, key, filename). -/
def pathLookupFilename (s : State) (path : CString) (key : MetaKey) : State × Option (MetaKey × List UInt8) :=
  match parentPathWalk path s key ROOT_INODE_ID 0 with
  | (s, none) => (s, none)
  | (s, some (key, inode_in_search, lpos)) =>
    let rpos := path.val.length
    if rpos - lpos > 1 then
      (s, some (buildMetaKey (substr path.val (lpos + 1) (rpos - lpos - 1)) inode_in_search,
        substr path.val (lpos + 1) (rpos - lpos - 1)))
    else (s, some (key, substr path.val lpos 1))

/-- From a delimiter on, the walk visits the components after it but the last, and ends on
the delimiter before that one. -/
private theorem parentPathWalk_eq (path : CString) (s : State) (key : MetaKey) (inode : UInt64) (lpos : Nat)
    (hl : path.val[lpos]? = some PATH_DELIMITER) :
    let items := (path.val.drop (lpos + 1)).splitOn PATH_DELIMITER
    let r := parentPathLookup s.inode_cache.metadb s.dentry_cache inode (if lpos = 0 then rootKey else key)
      items.dropLast
    ∃ last, path.val[last]? = some PATH_DELIMITER ∧ path.val.drop (last + 1) = items.getLastD [] ∧
      parentPathWalk path s key inode lpos =
        ({ s with dentry_cache := r.1 }, r.2.map fun x => (x.2, x.1, last)) := by
  induction hn : path.val.length - lpos using Nat.strongRecOn generalizing s key inode lpos with
  | ind n ih =>
    intro items r
    rw [parentPathWalk]
    split
    · rename_i hnone
      have hitems : items = [path.val.drop (lpos + 1)] := List.splitOn_eq_singleton (strchr_none hnone)
      exact ⟨lpos, hl, by simp [hitems], by simp [r, hitems, parentPathLookup]⟩
    · rename_i rpos hsome
      obtain ⟨item, hdrop, hmem, hrpos⟩ := strchr_some hsome
      obtain ⟨hle, hlt⟩ := lt_of_strchr hsome
      have hsub : substr path.val (lpos + 1) (rpos - lpos - 1) = item := by
        rw [substr, hdrop, show rpos - lpos - 1 = item.length by omega, List.take_left]
      have hr : path.val[rpos]? = some PATH_DELIMITER := by
        rw [hrpos, ← List.getElem?_drop, hdrop, List.getElem?_append_right (Nat.le_refl _)]
        simp
      have hitems : items = item :: (path.val.drop (rpos + 1)).splitOn PATH_DELIMITER := by
        rw [← splitOn_first hmem, ← hdrop]
      have hne : (path.val.drop (rpos + 1)).splitOn PATH_DELIMITER ≠ [] := List.splitOnP_ne_nil _ _
      have hlast : items.getLastD [] = ((path.val.drop (rpos + 1)).splitOn PATH_DELIMITER).getLastD [] := by
        rw [hitems, List.getLastD_cons, List.getLastD_eq_getLast?, List.getLastD_eq_getLast?,
          List.getLast?_eq_some_getLast hne, Option.getD_some, Option.getD_some]
      -- the loop goes on from the delimiter just found, with a key that was set
      have hnext (s' : State) (key' : MetaKey) (inode' : UInt64) := by
        simpa only [if_neg (show rpos ≠ 0 by omega)] using
          ih (path.val.length - rpos) (by omega) s' key' inode' rpos hr rfl
      rw [if_pos (show rpos - lpos > 0 by omega), hsub]
      rw [hlast]
      simp only [r, hitems, List.dropLast_cons_of_ne_nil hne, parentPathLookup]
      rcases s.dentry_cache.find (buildMetaKey item inode) with ⟨d, _ | inode'⟩
      · cases s.inode_cache.metadb.lookup (buildMetaKey item inode) with
        | none =>
          obtain ⟨last, h1, h2, _⟩ := hnext s key inode
          exact ⟨last, h1, h2, rfl⟩
        | some v => exact hnext _ _ _
      · exact hnext _ _ _

private theorem end_of_path {path : List UInt8} {last : Nat} (hl : path[last]? = some PATH_DELIMITER) :
    (path.length - last > 1 ↔ path.drop (last + 1) ≠ []) ∧
      substr path (last + 1) (path.length - last - 1) = path.drop (last + 1) ∧
      substr path last 1 = [PATH_DELIMITER] := by
  obtain ⟨hlt, hget⟩ := List.getElem?_eq_some_iff.mp hl
  refine ⟨?_, ?_, ?_⟩
  · rw [ne_eq, List.drop_eq_nil_iff]
    omega
  · rw [substr, List.take_of_length_le]
    rw [List.length_drop]
    omega
  · rw [substr, List.drop_eq_getElem_cons hlt, hget, List.take_succ_cons, List.take_zero]

variable {s : State} {path : CString}

private theorem pathLookupFilename_eq (habs : path.val[0]? = some PATH_DELIMITER) (key : MetaKey) :
    s.pathLookupFilename path key = s.lookup path := by
  obtain ⟨last, hl, hdrop, heq⟩ := parentPathWalk_eq path s key ROOT_INODE_ID 0 habs
  obtain ⟨hlong, hname, hslash⟩ := end_of_path hl
  unfold pathLookupFilename lookup pathLookup components
  simp only [heq, Nat.zero_add, List.drop_one, if_true] at hdrop ⊢
  rcases parentPathLookup s.inode_cache.metadb s.dentry_cache ROOT_INODE_ID rootKey
      (path.val.tail.splitOn PATH_DELIMITER).dropLast with ⟨d, _ | parent⟩
  · rfl
  · simp only [Option.map_some, hname, hslash, lastKey, ← hdrop, hlong, ne_eq, ite_not]
    split <;> rfl

private theorem pathLookupKey_eq (habs : path.val[0]? = some PATH_DELIMITER) (key : MetaKey) :
    s.pathLookupKey path key = ((s.lookup path).1, (s.lookup path).2.map Prod.fst) := by
  rw [← pathLookupFilename_eq habs key]
  unfold pathLookupKey pathLookupFilename
  rcases parentPathWalk path s key ROOT_INODE_ID 0 with ⟨s', _ | ⟨k, inode, lpos⟩⟩
  · rfl
  · dsimp only
    split <;> rfl

end State

/-- A path with more slashes in front of it. -/
def slashed (extra : Nat) (path : CString) : CString :=
  ⟨List.replicate extra PATH_DELIMITER ++ path.val, by
    simp only [List.mem_append, List.mem_replicate, not_or]
    exact ⟨fun h => absurd h.2 (by decide), path.property⟩⟩

private theorem components_slashed (extra : Nat) (items : List Name) :
    components (slashed extra (pathOf items)) = List.replicate extra [] ++ components (pathOf items) := by
  have hslash (rest : List UInt8) :
      (List.replicate extra PATH_DELIMITER ++ rest).splitOn PATH_DELIMITER =
        List.replicate extra [] ++ rest.splitOn PATH_DELIMITER := by
    induction extra with
    | zero => rfl
    | succ n ih =>
      rw [List.replicate_succ, List.replicate_succ, List.cons_append, List.cons_append, ← ih]
      exact splitOn_first List.not_mem_nil _
  rw [components, components, ← hslash]
  cases extra with
  | zero => rfl
  | succ n =>
    simp only [slashed, pathOf, List.replicate_succ, List.cons_append, List.tail_cons]
    rw [← List.cons_append, ← List.replicate_succ, List.replicate_succ', List.append_assoc, List.singleton_append]

private theorem resolveParent_slashes {ino : MetaKey → Option UInt64} (hroot : ino rootKey = some ROOT_INODE_ID)
    (extra : Nat) (items : List (List UInt8)) :
    resolveParent ino ROOT_INODE_ID rootKey (List.replicate extra [] ++ items) =
      resolveParent ino ROOT_INODE_ID rootKey items := by
  induction extra with
  | zero => rfl
  | succ n ih =>
    rw [List.replicate_succ, List.cons_append, resolveParent]
    simp only [show buildMetaKey [] ROOT_INODE_ID = rootKey from rfl, hroot, ih]

private theorem resolveBy_slashed {ino : MetaKey → Option UInt64} (hroot : ino rootKey = some ROOT_INODE_ID)
    (extra : Nat) (items : List Name) :
    resolveBy ino (slashed extra (pathOf items)) = resolveBy ino (pathOf items) := by
  have hne : components (pathOf items) ≠ [] := List.splitOnP_ne_nil _ _
  unfold resolveBy
  simp only [components_slashed, List.dropLast_append_of_ne_nil hne, resolveParent_slashes hroot]
  rw [List.getLastD_eq_getLast?, List.getLastD_eq_getLast?, List.getLast?_append_of_ne_nil _ hne]

private theorem resolveBy_isSome_iff {ino : MetaKey → Option UInt64} (items : List Name) :
    (resolveBy ino (pathOf items)).isSome ↔ ∀ i < items.length, (inodeAt ino (items.take i)).isSome := by
  rcases List.eq_nil_or_concat items with rfl | ⟨a, c, rfl⟩
  · exact ⟨fun _ i hi => absurd hi (Nat.not_lt_zero i), fun _ => rfl⟩
  · rw [List.concat_eq_append, resolveBy_concat, Option.isSome_map]
    constructor
    · intro ha i hi
      by_contra hnone
      rw [Option.not_isSome_iff_eq_none] at hnone
      have hle : i ≤ a.length := by simpa [Nat.lt_succ_iff] using hi
      rw [List.take_append_of_le_length hle] at hnone
      have hgone := inodeAt_append_none hnone (a.drop i)
      rw [List.take_append_drop] at hgone
      simp [hgone] at ha
    · intro h
      simpa using h a.length (by simp)

/-- Path lookup is component-wise resolution: with a coherent dentry cache and a root record,
both forms of PathLookup succeed on names after one or more slashes exactly if every proper
part of the path leads to an inode, they give the key of the last name below that inode, the
store is left alone and the dentry cache stays coherent. -/
theorem pathLookup_componentwise {s : State} (hd : s.dentry_cache.Coherent s.inode_cache.metadb)
    (hroot : inoOf s.inode_cache.metadb rootKey = some ROOT_INODE_ID) (extra : Nat) (items : List Name)
    (key key' : MetaKey) :
    let path := slashed extra (pathOf items)
    let ino := inoOf s.inode_cache.metadb
    let r := s.pathLookupFilename path key
    (r.2.isSome ↔ ∀ i < items.length, (inodeAt ino (items.take i)).isSome) ∧
      (∀ k filename, r.2 = some (k, filename) → (items = [] → k = rootKey) ∧
        ∀ a c, items = a ++ [c] → filename = c.chars ∧
          ∃ inode, inodeAt ino a = some inode ∧ k = buildMetaKey c.chars inode) ∧
      s.pathLookupKey path key' = (r.1, r.2.map Prod.fst) ∧
      r.1 = { s with dentry_cache := r.1.dentry_cache } ∧
      r.1.dentry_cache.Coherent s.inode_cache.metadb := by
  intro path ino r
  have habs : path.val[0]? = some PATH_DELIMITER := by
    cases extra <;> rfl
  have hr : r = s.lookup path := State.pathLookupFilename_eq habs key
  obtain ⟨hfound, hcoherent⟩ := pathLookup_spec hd path
  have hres : r.2 = resolveBy ino (pathOf items) := by
    rw [hr, ← resolveBy_slashed hroot extra]
    exact hfound
  refine ⟨?_, ?_, ?_, ?_, ?_⟩
  · rw [hres]
    exact resolveBy_isSome_iff items
  · intro k filename hk
    rw [hres] at hk
    refine ⟨?_, ?_⟩
    · rintro rfl
      exact (Prod.mk.inj (Option.some.inj hk)).1.symm
    · rintro a c rfl
      rw [resolveBy_concat] at hk
      obtain ⟨inode, hi, he⟩ := Option.map_eq_some_iff.mp hk
      exact ⟨(Prod.mk.inj he).2.symm, inode, hi, (Prod.mk.inj he).1.symm⟩
  · rw [hr]
    exact State.pathLookupKey_eq habs key'
  · rw [hr]
    rfl
  · rw [hr]
    exact hcoherent

/-- The path //d/x after the directory d was created and looked through once, so that its
entry is in the dentry cache. -/
theorem pathLookup_componentwise_cached :
    let d : Name := ⟨[100], by decide, by decide, by decide⟩
    let x : Name := ⟨[120], by decide, by decide, by decide⟩
    let s := ((run step (State.fresh 4096) (calmly [.makeDir (inRoot [100]) 0])).1.lookup (pathOf [d, x])).1
    (s.pathLookupFilename (slashed 1 (pathOf [d, x])) rootKey).2 = some (buildMetaKey [120] 1, [120]) ∧
      s.pathLookupKey (slashed 1 (pathOf [d, x])) rootKey =
        ((s.pathLookupFilename (slashed 1 (pathOf [d, x])) rootKey).1, some (buildMetaKey [120] 1)) := by
  intro d x s
  have hempty : (run step (State.fresh 4096) (calmly [.makeDir (inRoot [100]) 0])).1.dentry_cache.cache = [] := by
    decide +kernel
  have hd : s.dentry_cache.Coherent s.inode_cache.metadb := by
    refine (pathLookup_spec (fun k ino hmaps => ?_) (pathOf [d, x])).2
    obtain ⟨n, hn, _⟩ := hmaps
    simp [hempty] at hn
  have hroot : inoOf s.inode_cache.metadb rootKey = some ROOT_INODE_ID := by decide +kernel
  have hdir : inodeAt (inoOf s.inode_cache.metadb) [d] = some 1 := by decide +kernel
  obtain ⟨hsome, hkey, hboth, _⟩ := pathLookup_componentwise hd hroot 1 [d, x] rootKey rootKey
  have hall : ∀ i < [d, x].length, (inodeAt (inoOf s.inode_cache.metadb) ([d, x].take i)).isSome := by
    decide +kernel
  obtain ⟨⟨k, filename⟩, hk⟩ := Option.isSome_iff_exists.mp (hsome.mpr hall)
  obtain ⟨rfl, inode, hi, rfl⟩ := (hkey k filename hk).2 [d] x rfl
  obtain rfl := Option.some.inj (hdir.symm.trans hi)
  exact ⟨hk, by rw [hboth, hk]; rfl⟩

end TableFS
