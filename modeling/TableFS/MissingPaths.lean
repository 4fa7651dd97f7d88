import TableFS.RenameLoss

/-! Requests on a path that leads to no record. Each reports it, but for OpenDir, which returns
whatever errno held when only the last component is missing. -/
namespace TableFS
open InodeCache Runs

/-! What a walk through the dentry cache reads. -/

/-- The inode number a lookup reads for one component: the cached one, else that of the store. -/
def DentryCache.reads (d : DentryCache) (metadb : MetaDB) (k : MetaKey) : Option UInt64 :=
  (d.find k).2.or (inoOf metadb k)

/-- An entry that disagrees with the store is pushed out. -/
def DentryCache.Forgets (d d' : DentryCache) (metadb : MetaDB) : Prop :=
  ∃ k n, d.Maps k n ∧ ¬ d'.Maps k n ∧ inoOf metadb k ≠ some n

section
variable {metadb : MetaDB} {d d' d'' : DentryCache}

private theorem reads_of_maps {k : MetaKey} {n : UInt64} (h : d.Maps k n) : d.reads metadb k = some n := by
  rw [DentryCache.reads, ((d.find_spec k).1 n).mpr h, Option.some_or]

private theorem reads_of_unmapped {k : MetaKey} (h : ∀ n, ¬ d.Maps k n) : d.reads metadb k = inoOf metadb k := by
  cases hf : (d.find k).2 with
  | none => rw [DentryCache.reads, hf, Option.none_or]
  | some n => exact absurd (((d.find_spec k).1 n).mp hf) (h n)

/-- Lookups leave what is read for every component, exactly if they push out no entry that
disagrees with the store. -/
private theorem DentryCache.Walked.reads_eq_iff (hw : d.Walked d' metadb) :
    (∀ k, d'.reads metadb k = d.reads metadb k) ↔ ¬ d.Forgets d' metadb := by
  refine ⟨?_, fun hkeep k => ?_⟩
  · rintro hall ⟨k, n, hk, hgone, hne⟩
    have hread := (hall k).trans (reads_of_maps hk)
    by_cases hmap : ∃ m, d'.Maps k m
    · obtain ⟨m, hm⟩ := hmap
      obtain rfl : m = n := Option.some.inj ((reads_of_maps hm).symm.trans hread)
      exact hgone hm
    · rw [reads_of_unmapped fun m hm => hmap ⟨m, hm⟩] at hread
      exact hne hread
  · by_cases hmap : ∃ m, d'.Maps k m
    · obtain ⟨m, hm⟩ := hmap
      rw [reads_of_maps hm]
      rcases hw k m hm with hd | hstore
      · exact (reads_of_maps hd).symm
      · by_cases hold : ∃ n, d.Maps k n
        · obtain ⟨n, hn⟩ := hold
          by_cases hnm : n = m
          · rw [reads_of_maps (hnm ▸ hn)]
          · refine absurd ⟨k, n, hn, fun hn' => hnm (d'.maps_unique hn' hm), ?_⟩ hkeep
            rw [hstore]
            exact fun he => hnm (Option.some.inj he).symm
        · rw [reads_of_unmapped fun n hn => hold ⟨n, hn⟩, hstore]
    · rw [reads_of_unmapped fun m hm => hmap ⟨m, hm⟩]
      by_cases hold : ∃ n, d.Maps k n
      · obtain ⟨n, hn⟩ := hold
        rw [reads_of_maps hn]
        by_contra hne
        exact hkeep ⟨k, n, hn, fun hn' => hmap ⟨n, hn'⟩, hne⟩
      · rw [reads_of_unmapped fun n hn => hold ⟨n, hn⟩]

/-- What a walk has pushed out does not come back, so a walk that ends with it has it throughout. -/
private theorem forgets_split (h : d.Walked d' metadb) (h' : d'.Walked d'' metadb) (hkeep : ¬ d.Forgets d'' metadb) :
    ¬ d.Forgets d' metadb ∧ ¬ d'.Forgets d'' metadb := by
  refine ⟨fun ⟨k, n, hk, hgone, hne⟩ => hkeep ⟨k, n, hk, fun hm => ?_, hne⟩, fun ⟨k, n, hk, hgone, hne⟩ => ?_⟩
  · rcases h' k n hm with hm | hstore
    · exact hgone hm
    · exact hne hstore
  · rcases h k n hk with hm | hstore
    · exact hkeep ⟨k, n, hm, hgone, hne⟩
    · exact hne hstore

/-- A walk that pushes out no such entry reads every component as the cache stood before it. -/
private theorem parentPathLookup_reads (items : List (List UInt8)) (d : DentryCache) (inode : UInt64) (key : MetaKey)
    (hkeep : ¬ d.Forgets (parentPathLookup metadb d inode key items).1 metadb) :
    (parentPathLookup metadb d inode key items).2 = resolveParent (d.reads metadb) inode key items := by
  induction items generalizing d inode key with
  | nil => rfl
  | cons item items ih =>
    obtain ⟨hfind, hmaps⟩ := d.find_spec (buildMetaKey item inode)
    have hd₁ : d.Walked (d.find (buildMetaKey item inode)).1 metadb := fun k n h => .inl ((hmaps k n).mp h)
    simp only [parentPathLookup] at hkeep
    simp only [parentPathLookup, resolveParent]
    rcases hf : d.find (buildMetaKey item inode) with ⟨d₁, _ | n⟩
    · rw [hf] at hkeep hd₁ hfind
      rw [reads_of_unmapped fun n hn => absurd ((hfind n).mpr hn) (by simp)]
      cases hm : metadb.lookup (buildMetaKey item inode) with
      | none => simp only [inoOf, hm, Option.map_none]
      | some v =>
        simp only [hm] at hkeep
        have hstore : inoOf metadb (buildMetaKey item inode) = some v.fstat.st_ino := by
          rw [inoOf, hm, Option.map_some]
        have hd₂ : d.Walked (d₁.insert (buildMetaKey item inode) v.fstat.st_ino) metadb := hd₁.trans fun k i h => by
          obtain ⟨rfl, rfl⟩ | ⟨_, h⟩ := DentryCache.maps_insert _ h
          · exact .inr hstore
          · exact .inl h
        obtain ⟨hfirst, hrest⟩ := forgets_split hd₂ (walked_parentPathLookup metadb items _ _ _) hkeep
        rw [hstore, ← funext (hd₂.reads_eq_iff.mpr hfirst)]
        exact ih _ _ _ hrest
    · rw [hf] at hkeep hd₁ hfind
      obtain ⟨hfirst, hrest⟩ := forgets_split hd₁ (walked_parentPathLookup metadb items _ _ _) hkeep
      rw [reads_of_maps ((hfind n).mp rfl), ← funext (hd₁.reads_eq_iff.mpr hfirst)]
      exact ih _ _ _ hrest

private theorem pathLookup_fst (d : DentryCache) (metadb : MetaDB) (path : CString) : (pathLookup d metadb path).1 =
    (parentPathLookup metadb d ROOT_INODE_ID rootKey (components path).dropLast).1 := by
  unfold pathLookup
  dsimp only
  rcases parentPathLookup metadb d ROOT_INODE_ID rootKey (components path).dropLast with ⟨d', _ | parent⟩
  · rfl
  · rfl

private theorem pathLookup_reads {path : CString} (hkeep : ¬ d.Forgets (pathLookup d metadb path).1 metadb) :
    (pathLookup d metadb path).2 = resolveBy (d.reads metadb) path := by
  rw [pathLookup_fst] at hkeep
  rw [pathLookup_snd, parentPathLookup_reads _ _ _ _ hkeep]
  rfl

private theorem DentryCache.Coherent.not_forgets (hd : d.Coherent metadb) : ¬ d.Forgets d' metadb := by
  rintro ⟨k, n, hk, _, hne⟩
  obtain ⟨v, hv, rfl⟩ := hd k n hk
  exact hne (by rw [inoOf, hv, Option.map_some])

end

/-- The path of a request that needs a record there; Rename needs one at its old path. -/
def Op.sought : Op → Option CString
  | .getAttr path => some path
  | .openFile path _ => some path
  | .truncate path _ => some path
  | .chmod path _ => some path
  | .chown path _ _ => some path
  | .updateTimens path _ _ => some path
  | .readlink path _ => some path
  | .unlink path => some path
  | .removeDir path => some path
  | .rename old_path _ => some old_path
  | .openDir path => some path
  | _ => none

/-- No record is where a request needs one: a parent is missing, or the last component is. A
request that creates a record needs only the parent. -/
def Misses (s : State) (op : Op) : Prop :=
  (∃ path ∈ op.sought, ∀ x ∈ s.found path, s.visible x.1 = none) ∨ ∃ path ∈ op.created, s.found path = none

/-- A request fails, and leaves the inode cache and the store below it, the disk files, the inode
counter and the open handles as they were. -/
structure Reported (s : State) (r : State × Result) : Prop where
  ret : r.2.ret < 0
  inode_cache : r.1.inode_cache = s.inode_cache
  disk : r.1.disk = s.disk
  max_inode_num : r.1.max_inode_num = s.max_inode_num
  files : r.1.files = s.files
  dirs : r.1.dirs = s.dirs

/-- The error number of a request that misses its record. -/
def missErrno (s : State) (env : Env) : Op → Nat
  | .openDir path => if (s.found path).isSome then env.errno else ENOENT
  | _ => ENOENT

/-- The dentry cache after the lookups of a request; Rename looks up its new path only if the
parent of the old one is there. -/
def State.lookedBy (s : State) (op : Op) : DentryCache :=
  match op with
  | .rename old_path new_path =>
    if (s.found old_path).isSome then { s with dentry_cache := s.looked old_path }.looked new_path
    else s.looked old_path
  | op => match op.sought.or op.created with
    | some path => s.looked path
    | none => s.dentry_cache

/-- What a missed record comes to: an error number, after lookups that left the given cache. -/
structure Missed (s : State) (d : DentryCache) (errno : Nat) (r : State × Result) : Prop where
  state : r.1 = { s with dentry_cache := d }
  result : r.2 = fsError errno

section
variable {s : State} {path : CString}

private theorem missed_looked (errno : Nat) :
    Missed s (s.looked path) errno ({ s with dentry_cache := s.looked path }, fsError errno) := ⟨rfl, rfl⟩

private theorem State.walked_lookedBy (op : Op) : s.dentry_cache.Walked (s.lookedBy op) s.inode_cache.metadb := by
  have hpath (path : CString) : s.dentry_cache.Walked (s.looked path) s.inode_cache.metadb :=
    walked_pathLookup _ _ path
  cases op with
  | rename old_path new_path =>
    simp only [State.lookedBy]
    split
    · exact (hpath old_path).trans (walked_pathLookup (s.looked old_path) s.inode_cache.metadb new_path)
    · exact hpath old_path
  | read | write | release | readDir | releaseDir => exact .refl _ _
  | _ => exact hpath _

private theorem absent_of_visible (hs : s.Counted) {key : MetaKey} (h : s.visible key = none) :
    s.inode_cache.table key = none ∧ s.inode_cache.metadb.lookup key = none := by
  unfold State.visible at h
  cases ht : s.inode_cache.table key with
  | none =>
    rw [ht] at h
    exact ⟨rfl, h⟩
  | some i =>
    obtain ⟨hd, hh⟩ := hs.entry ht
    simp [ht, hh] at h

private theorem acquire_missed (hs : s.Counted) (h : ∀ x ∈ s.found path, s.visible x.1 = none)
    (mode : InodeAccessMode) :
    s.acquire path mode = ({ s with dentry_cache := s.looked path }, none) := by
  rcases State.acquire_spec hs path mode with ⟨ha, _⟩ | ⟨key, name, ic, i, hd, hf, _, _, ho, _⟩
  · exact ha
  · have hnone := h (key, name) hf
    rw [State.visible_of_origin ho] at hnone
    cases hnone

private theorem missed_setAttribute (hs : s.Counted) (h : ∀ x ∈ s.found path, s.visible x.1 = none) (f : Stat → Stat) :
    Missed s (s.looked path) ENOENT (s.setAttribute path f) := by
  unfold State.setAttribute
  rw [acquire_missed hs h]
  exact missed_looked ENOENT

private theorem missed_readlink (hs : s.Counted) (h : ∀ x ∈ s.found path, s.visible x.1 = none) (size : Nat) :
    Missed s (s.looked path) ENOENT (s.readlink path size) := by
  unfold State.readlink
  rw [State.lookup_eq]
  rcases hf : s.found path with _ | ⟨key, name⟩
  · exact missed_looked ENOENT
  · have hm := (absent_of_visible hs (h (key, name) hf)).2
    simp only [hm]
    exact missed_looked ENOENT

private theorem missed_rename (hs : s.Counted) (h : ∀ x ∈ s.found path, s.visible x.1 = none) (env : Env)
    (new_path : CString) : Missed s (s.lookedBy (.rename path new_path)) ENOENT (s.rename env path new_path) := by
  unfold State.rename
  rw [State.lookup_eq, State.lookedBy]
  rcases hf : s.found path with _ | ⟨key, name⟩
  · exact missed_looked ENOENT
  · simp only [State.lookup_eq, Option.isSome_some, if_true]
    rcases State.found { s with dentry_cache := s.looked path } new_path with _ | ⟨new, filename⟩
    · exact ⟨rfl, rfl⟩
    · dsimp only [State.renameKey]
      rcases State.getInode_spec (s := { s with
          dentry_cache := State.looked { s with dentry_cache := s.looked path } new_path }) hs key .delete with
        ⟨hg, _⟩ | ⟨ic, i, hd, _, _, ho, _⟩
      · rw [hg]
        exact ⟨rfl, rfl⟩
      · have hvis := State.visible_of_origin (s := s) ho
        rw [h (key, name) hf] at hvis
        cases hvis

private theorem missed_openDir (hs : s.Counted) (h : ∀ x ∈ s.found path, s.visible x.1 = none) (env : Env) :
    Missed s (s.looked path) (missErrno s env (.openDir path)) (s.openDir env path) := by
  unfold State.openDir
  rw [State.lookup_eq, missErrno]
  rcases hf : s.found path with _ | ⟨key, name⟩
  · exact missed_looked ENOENT
  · simp only [Option.isSome_some, if_true]
    rcases State.getInode_spec (s := { s with dentry_cache := s.looked path }) hs key .read with
      ⟨hg, _⟩ | ⟨ic, i, hd, _, _, ho, _⟩
    · rw [hg]
      exact missed_looked env.errno
    · have hvis := State.visible_of_origin (s := s) ho
      rw [h (key, name) hf] at hvis
      cases hvis

private theorem create_missed (h : s.found path = none) (env : Env) (value : UInt64 → List UInt8 → Value) :
    s.create env path value = ({ s with dentry_cache := s.looked path }, none) := by
  unfold State.create
  rw [State.lookup_eq, h]

private theorem step_missed (hs : s.Counted) (env : Env) {op : Op} (h : Misses s op) :
    Missed s (s.lookedBy op) (missErrno s env op) (step s (env, op)) := by
  rcases h with ⟨path, hp, h⟩ | ⟨path, hp, h⟩
  · cases op with
    | getAttr _ | openFile _ _ | truncate _ _ | unlink _ | removeDir _ =>
      obtain rfl := Option.some.inj hp
      simp only [step, State.getAttr, State.openFile, State.truncate, State.unlink, State.removeDir,
        acquire_missed hs h]
      exact missed_looked ENOENT
    | chmod _ mode =>
      obtain rfl := Option.some.inj hp
      exact missed_setAttribute hs h fun st => { st with st_mode := mode }
    | chown _ uid gid =>
      obtain rfl := Option.some.inj hp
      exact missed_setAttribute hs h fun st => { st with st_uid := uid, st_gid := gid }
    | updateTimens _ atim mtim =>
      obtain rfl := Option.some.inj hp
      exact missed_setAttribute hs h fun st => { st with st_atim := atim, st_mtim := mtim }
    | readlink _ size =>
      obtain rfl := Option.some.inj hp
      exact missed_readlink hs h size
    | rename _ new_path =>
      obtain rfl := Option.some.inj hp
      exact missed_rename hs h env new_path
    | openDir _ =>
      obtain rfl := Option.some.inj hp
      exact missed_openDir hs h env
    | _ => cases hp
  · cases op with
    | makeNode _ _ _ | makeDir _ _ | symlink _ _ =>
      obtain rfl := Option.some.inj hp
      simp only [step, State.makeNode, State.makeDir, State.symlink, create_missed h]
      exact missed_looked ENOENT
    | _ => cases hp

end

end TableFS
