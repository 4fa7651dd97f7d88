import TableFS.PathLookup

/-! Paths as lists of names, as the kernel gives them, and where they lead in a store in which
inode numbers are distinct: different paths lead to different keys. -/
namespace TableFS

/-- A file name: not empty, with no delimiter and no NUL. -/
structure Name where
  chars : List UInt8
  nonempty : chars ≠ []
  nul : (0 : UInt8) ∉ chars
  delimiter : PATH_DELIMITER ∉ chars
  deriving DecidableEq

private theorem nul_intercalate (items : List Name) :
    (0 : UInt8) ∉ PATH_DELIMITER :: [PATH_DELIMITER].intercalate (items.map Name.chars) := by
  have h (l : List Name) : (0 : UInt8) ∉ [PATH_DELIMITER].intercalate (l.map Name.chars) := by
    induction l with
    | nil => simp
    | cons c l ih =>
      cases l with
      | nil => simpa using c.nul
      | cons d l =>
        rw [List.map_cons, List.map_cons, List.intercalate_cons_cons, ← List.map_cons]
        simp only [List.mem_append, List.mem_singleton, not_or]
        exact ⟨⟨c.nul, by decide⟩, ih⟩
  simpa [PATH_DELIMITER] using h items

/-- The path with the given components; the root for none. -/
def pathOf (items : List Name) : CString :=
  ⟨PATH_DELIMITER :: [PATH_DELIMITER].intercalate (items.map Name.chars), nul_intercalate items⟩

theorem components_pathOf {items : List Name} (h : items ≠ []) :
    components (pathOf items) = items.map Name.chars := by
  refine List.splitOn_intercalate PATH_DELIMITER (fun l hl => ?_) (by simpa using h)
  obtain ⟨c, _, rfl⟩ := List.mem_map.mp hl
  exact c.delimiter

/-- The inode a path leads to. -/
def inodeAt (ino : MetaKey → Option UInt64) (items : List Name) : Option UInt64 :=
  (resolveParent ino ROOT_INODE_ID rootKey (items.map Name.chars)).map Prod.fst

section
variable {ino : MetaKey → Option UInt64}

private theorem resolveParent_append (a b : List (List UInt8)) (inode : UInt64) (key : MetaKey) :
    resolveParent ino inode key (a ++ b) =
      (resolveParent ino inode key a).bind fun x => resolveParent ino x.1 x.2 b := by
  induction a generalizing inode key with
  | nil => rfl
  | cons i a ih =>
    simp only [List.cons_append, resolveParent]
    split
    · exact ih _ _
    · rfl

theorem inodeAt_concat (a : List Name) (c : Name) :
    inodeAt ino (a ++ [c]) = (inodeAt ino a).bind fun i => ino (buildMetaKey c.chars i) := by
  rw [inodeAt, inodeAt, List.map_append, resolveParent_append]
  cases resolveParent ino ROOT_INODE_ID rootKey (a.map Name.chars) with
  | none => rfl
  | some x =>
    simp only [Option.bind_some, List.map_singleton, resolveParent, Option.map_some]
    cases ino (buildMetaKey c.chars x.1) <;> rfl

private theorem inodeAt_concat_some {a : List Name} {c : Name} {i : UInt64} :
    inodeAt ino (a ++ [c]) = some i ↔ ∃ j, inodeAt ino a = some j ∧ ino (buildMetaKey c.chars j) = some i := by
  rw [inodeAt_concat, Option.bind_eq_some_iff]

/-- Nothing is below a path that leads nowhere. -/
theorem inodeAt_append_none {a : List Name} (h : inodeAt ino a = none) (r : List Name) :
    inodeAt ino (a ++ r) = none := by
  induction r using List.reverseRecOn with
  | nil => rwa [List.append_nil]
  | append_singleton r c ih => rw [← List.append_assoc, inodeAt_concat, ih, Option.bind_none]

theorem resolveBy_concat (a : List Name) (c : Name) :
    resolveBy ino (pathOf (a ++ [c])) = (inodeAt ino a).map fun i => (buildMetaKey c.chars i, c.chars) := by
  unfold resolveBy
  simp only [components_pathOf (show a ++ [c] ≠ [] by simp), List.map_append, List.map_singleton,
    List.dropLast_concat, List.getLastD_concat, lastKey, if_neg c.nonempty, inodeAt, Option.map_map]
  rfl

end

/-- No two of the names have the same hash, and none has that of the root's empty name. -/
def NoCollision (names : Set Name) : Prop := ∀ c ∈ names, murmur64 c.chars 123 ≠ murmur64 [] 123 ∧
  ∀ d ∈ names, murmur64 c.chars 123 = murmur64 d.chars 123 → c = d

/-- The path uses only the given names. -/
def Over (names : Set Name) (items : List Name) : Prop := ∀ c ∈ items, c ∈ names

/-- Different records have different inode numbers, and only the root can have number zero. -/
structure DistinctInodes (ino : MetaKey → Option UInt64) : Prop where
  unique : ∀ k k' i, ino k = some i → ino k' = some i → k = k'
  root : ∀ k, ino k = some ROOT_INODE_ID → k = rootKey

instance (metadb : MetaDB) : Decidable (DistinctInodes (inoOf metadb)) :=
  decidable_of_iff ((∀ k ∈ metadb.keys, ∀ k' ∈ metadb.keys, inoOf metadb k = inoOf metadb k' → k = k') ∧
      ∀ k ∈ metadb.keys, inoOf metadb k = some ROOT_INODE_ID → k = rootKey) <| by
    have hmem {k : MetaKey} {i : UInt64} (h : inoOf metadb k = some i) : k ∈ metadb.keys := by
      obtain ⟨v, hv, _⟩ := Option.map_eq_some_iff.mp h
      exact Finmap.mem_keys.mpr (Finmap.mem_iff.mpr ⟨v, hv⟩)
    constructor
    · rintro ⟨hu, hz⟩
      exact ⟨fun k k' i h h' => hu k (hmem h) k' (hmem h') (h.trans h'.symm), fun k h => hz k (hmem h) h⟩
    · rintro ⟨hu, hz⟩
      refine ⟨fun k hk k' _ h => ?_, fun k _ h => hz k h⟩
      obtain ⟨v, hv⟩ := Finmap.mem_iff.mp (Finmap.mem_keys.mp hk)
      have hi : inoOf metadb k = some v.fstat.st_ino := by rw [inoOf, hv, Option.map_some]
      exact hu k k' _ hi (h.symm.trans hi)

section Distinct
variable {ino : MetaKey → Option UInt64} {names : Set Name} (hd : DistinctInodes ino) (hn : NoCollision names)

theorem over_append {a b : List Name} : Over names (a ++ b) ↔ Over names a ∧ Over names b := by
  simp only [Over, List.mem_append]
  exact ⟨fun h => ⟨fun c hc => h c (.inl hc), fun c hc => h c (.inr hc)⟩,
    fun h c hc => hc.elim (h.1 c) (h.2 c)⟩

include hn

theorem key_ne_root {c : Name} (hc : c ∈ names) (i : UInt64) : buildMetaKey c.chars i ≠ rootKey :=
  fun h => (hn c hc).1 (congrArg MetaKey.hash_id h)

private theorem buildMetaKey_inj {c d : Name} (hc : c ∈ names) (hd : d ∈ names) {i j : UInt64}
    (h : buildMetaKey c.chars i = buildMetaKey d.chars j) : c = d ∧ i = j :=
  ⟨(hn c hc).2 d hd (congrArg MetaKey.hash_id h), congrArg MetaKey.inode_id h⟩

include hd

private theorem inodeAt_inj {a b : List Name} (ha : Over names a) (hb : Over names b) {i : UInt64}
    (h : inodeAt ino a = some i) (h' : inodeAt ino b = some i) : a = b := by
  induction a using List.reverseRecOn generalizing b i with
  | nil =>
    obtain rfl := Option.some.inj h
    rcases List.eq_nil_or_concat b with rfl | ⟨b, d, rfl⟩
    · rfl
    · rw [List.concat_eq_append] at h' hb
      obtain ⟨j, _, hi⟩ := inodeAt_concat_some.mp h'
      exact absurd (hd.root _ hi) (key_ne_root hn (hb d (by simp)) j)
  | append_singleton a c ih =>
    obtain ⟨j, hj, hi⟩ := inodeAt_concat_some.mp h
    rcases List.eq_nil_or_concat b with rfl | ⟨b, d, rfl⟩
    · obtain rfl := Option.some.inj h'
      exact absurd (hd.root _ hi) (key_ne_root hn (ha c (by simp)) j)
    · rw [List.concat_eq_append] at h' hb ⊢
      obtain ⟨j', hj', hi'⟩ := inodeAt_concat_some.mp h'
      obtain ⟨rfl, rfl⟩ := buildMetaKey_inj hn (ha c (by simp)) (hb d (by simp)) (hd.unique _ _ _ hi hi')
      rw [ih (over_append.mp ha).1 (over_append.mp hb).1 hj hj']

/-- Paths with the same key are the same. -/
theorem key_inj {a b : List Name} {c d : Name} (ha : Over names (a ++ [c])) (hb : Over names (b ++ [d]))
    {i j : UInt64} (h : inodeAt ino a = some i) (h' : inodeAt ino b = some j)
    (hkey : buildMetaKey c.chars i = buildMetaKey d.chars j) : a ++ [c] = b ++ [d] := by
  obtain ⟨rfl, rfl⟩ := buildMetaKey_inj hn (ha c (by simp)) (hb d (by simp)) hkey
  rw [inodeAt_inj hd hn (over_append.mp ha).1 (over_append.mp hb).1 h h']

end Distinct

/-- The number of the record at one key moves to another. -/
def moved (ino : MetaKey → Option UInt64) (old new k : MetaKey) : Option UInt64 :=
  if k = new then ino old else if k = old then none else ino k

/-- The record at the path A/a is to move to B/b, which does not exist and is not below it. -/
structure Relocation (ino : MetaKey → Option UInt64) (names : Set Name) (A : List Name) (a : Name)
    (B : List Name) (b : Name) (old new : MetaKey) : Prop where
  distinct : DistinctInodes ino
  noCollision : NoCollision names
  source : Over names (A ++ [a])
  target : Over names (B ++ [b])
  old_key : ∃ i, inodeAt ino A = some i ∧ old = buildMetaKey a.chars i
  new_key : ∃ i, inodeAt ino B = some i ∧ new = buildMetaKey b.chars i
  present : ino old ≠ none
  absent : ino new = none
  outside : ¬ A ++ [a] <+: B ++ [b]

namespace Relocation
variable {ino : MetaKey → Option UInt64} {names : Set Name} {A B : List Name} {a b : Name} {old new : MetaKey}
  (h : Relocation ino names A a B b old new)

private theorem moved_other {k : MetaKey} (hold : k ≠ old) (hnew : k ≠ new) : moved ino old new k = ino k := by
  rw [moved, if_neg hnew, if_neg hold]

include h

theorem old_ne_new : old ≠ new := fun he => h.present (he ▸ h.absent)

theorem key_ne_old {q : List Name} {c : Name} (hq : Over names (q ++ [c])) {i : UInt64}
    (hi : inodeAt ino q = some i) (hne : q ++ [c] ≠ A ++ [a]) : buildMetaKey c.chars i ≠ old := by
  obtain ⟨j, hj, rfl⟩ := h.old_key
  exact fun hk => hne (key_inj h.distinct h.noCollision hq h.source hi hj hk)

theorem key_ne_new {q : List Name} {c : Name} (hq : Over names (q ++ [c])) {i : UInt64}
    (hi : inodeAt ino q = some i) (hne : q ++ [c] ≠ B ++ [b]) : buildMetaKey c.chars i ≠ new := by
  obtain ⟨j, hj, rfl⟩ := h.new_key
  exact fun hk => hne (key_inj h.distinct h.noCollision hq h.target hi hj hk)

/-- Paths that are below neither of the two lead where they led. -/
theorem inodeAt_elsewhere {q : List Name} (hq : Over names q) (ha : ¬ A ++ [a] <+: q) (hb : ¬ B ++ [b] <+: q) :
    inodeAt (moved ino old new) q = inodeAt ino q := by
  induction q using List.reverseRecOn with
  | nil => rfl
  | append_singleton q c ih =>
    have hqa : ¬ A ++ [a] <+: q := fun hp => ha (hp.trans (List.prefix_append _ _))
    have hqb : ¬ B ++ [b] <+: q := fun hp => hb (hp.trans (List.prefix_append _ _))
    rw [inodeAt_concat, inodeAt_concat, ih (over_append.mp hq).1 hqa hqb]
    cases hi : inodeAt ino q with
    | none => rfl
    | some i =>
      have hold := h.key_ne_old hq hi fun he => ha (he ▸ List.prefix_rfl)
      have hnew := h.key_ne_new hq hi fun he => hb (he ▸ List.prefix_rfl)
      rw [Option.bind_some, Option.bind_some, moved_other hold hnew]

/-- The directory of the source stays where it is. -/
theorem inodeAt_source : inodeAt (moved ino old new) A = inodeAt ino A := by
  refine h.inodeAt_elsewhere (over_append.mp h.source).1 (fun hp => ?_) fun hp => ?_
  · exact absurd hp.length_le (by simp)
  · -- the target would exist
    obtain ⟨r, rfl⟩ := hp
    obtain ⟨i, hi, _⟩ := h.old_key
    obtain ⟨j, hj, hnew⟩ := h.new_key
    have hnone : inodeAt ino (B ++ [b]) = none := by rw [inodeAt_concat, hj, Option.bind_some, ← hnew, h.absent]
    rw [inodeAt_append_none hnone r] at hi
    cases hi

/-- Nothing is left at or below the source. -/
theorem inodeAt_below_source (r : List Name) : inodeAt (moved ino old new) (A ++ [a] ++ r) = none := by
  obtain ⟨i, hi, hold⟩ := h.old_key
  refine inodeAt_append_none ?_ r
  rw [inodeAt_concat, h.inodeAt_source, hi, Option.bind_some, ← hold, moved, if_neg h.old_ne_new, if_pos rfl]

/-- The directory of the target stays where it is. -/
theorem inodeAt_target : inodeAt (moved ino old new) B = inodeAt ino B := by
  refine h.inodeAt_elsewhere (over_append.mp h.target).1 (fun hp => ?_) fun hp => ?_
  · exact h.outside (hp.trans (List.prefix_append _ _))
  · exact absurd hp.length_le (by simp)

/-- A key below the source is neither of the two. -/
theorem key_below_source {r : List Name} {c : Name} (hr : Over names (r ++ [c])) {i : UInt64}
    (hi : inodeAt ino (A ++ [a] ++ r) = some i) :
    buildMetaKey c.chars i ≠ old ∧ buildMetaKey c.chars i ≠ new := by
  have hover : Over names (A ++ [a] ++ r ++ [c]) := by
    rw [List.append_assoc]
    exact over_append.mpr ⟨h.source, hr⟩
  refine ⟨h.key_ne_old hover hi fun he => ?_, h.key_ne_new hover hi fun he => ?_⟩
  · simpa using congrArg List.length he
  · rw [List.append_assoc] at he
    exact h.outside ⟨r ++ [c], he⟩

/-- What was below the source is below the target. -/
theorem inodeAt_below_target {r : List Name} (hr : Over names r) :
    inodeAt (moved ino old new) (B ++ [b] ++ r) = inodeAt ino (A ++ [a] ++ r) := by
  induction r using List.reverseRecOn with
  | nil =>
    obtain ⟨i, hi, hold⟩ := h.old_key
    obtain ⟨j, hj, hnew⟩ := h.new_key
    rw [List.append_nil, List.append_nil, inodeAt_concat, inodeAt_concat, h.inodeAt_target, hi, hj,
      Option.bind_some, Option.bind_some, ← hold, ← hnew, moved, if_pos rfl]
  | append_singleton r c ih =>
    rw [← List.append_assoc, ← List.append_assoc, inodeAt_concat, inodeAt_concat, ih (over_append.mp hr).1]
    cases hi : inodeAt ino (A ++ [a] ++ r) with
    | none => rfl
    | some i =>
      obtain ⟨hold, hnew⟩ := h.key_below_source hr hi
      rw [Option.bind_some, Option.bind_some, moved_other hold hnew]

end Relocation
end TableFS
