import TableFS.CacheTransparency
import TableFS.RenameLoss
import TableFS.Paths

/-! Rename of a directory with nothing open. One record is rewritten and two dentries are
evicted; every path below the directory is to be found below the new one, whatever the caches
hold. -/
namespace TableFS
open Slots InodeCache Runs

namespace State

/-- The value a path leads to, through both caches. -/
def valueAt (s : State) (path : CString) : Option Value := (s.found path).bind fun x => s.visible x.1

/-- What the caches hold agrees with the store. -/
structure CoherentCaches (s : State) : Prop where
  dentries : s.dentry_cache.Coherent s.inode_cache.metadb
  inodes : ∀ k i h, s.inode_cache.table k = some i → s.inode_cache.handle i = some (k, h) →
    s.inode_cache.metadb.lookup k = some h.value_

/-- The state without caches, when nothing is open. -/
def plain (s : State) : Plain where
  threshold_ := s.threshold_
  max_inode_num := s.max_inode_num
  metadb := s.inode_cache.metadb
  work := fun _ => none
  disk := s.disk
  files := s.files.map fun _ => none
  dirs := s.dirs.map fun _ => none

end State

/-- Attributes, storage flag and inline data. -/
def fileView (v : Value) : Stat × Nat × List UInt8 := (v.fstat, v.header.has_blob, v.inline)

private theorem fileView_renameInodeValue (v : Value) (filename : List UInt8) :
    fileView (renameInodeValue v filename) = fileView v := by
  rw [fileView, inline_renameInodeValue]
  rfl

section Idle
variable {s : State} {p : Plain}

private theorem slot_blank {α β : Type} (l : List (Option α)) (i : Nat) :
    slot (l.map fun _ => (none : Option β)) i = none := by
  rw [slot, List.getElem?_map]
  cases l[i]? <;> rfl

/-- With nothing open, coherent caches are out of the way. -/
theorem refines_plain (hs : s.Counted) (hidle : s.Idle) (hc : s.CoherentCaches) : Refines s s.plain where
  threshold := rfl
  counter := rfl
  metadb := rfl
  disk := rfl
  dentries := hc.dentries
  coherent := by
    have hd (i : Nat) : dirCount s.dirs i = 0 := by
      have := hidle.pins_eq i
      simp only [State.pins, Pi.add_apply] at this
      omega
    refine ⟨hs, fun i hi => absurd (hidle.writers_eq i) hi, fun k h hk => (by cases hk),
      fun i j k h h' hi => absurd (hidle.writers_eq i) hi, fun k i h ht hh hw => ?_, fun i hi => absurd (hd i) hi⟩
    exact ⟨rfl, hc.inodes k i h ht hh, hs.clean k i h ht hh (hidle.writers_eq i)⟩
  live := fun k h hk => by cases hk
  files := fun fh => by rw [hidle.1 fh]; exact slot_blank _ _
  files_length := by simp [State.plain]
  dirs := fun fh => by rw [hidle.2 fh]; exact slot_blank _ _
  dirs_length := by simp [State.plain]

variable (hr : Refines s p) (hw : ∀ k, p.work k = none)
include hr hw

private theorem Refines.not_openOn (key : MetaKey) : ¬ s.OpenOn key := fun ho => (hr.openOn key).mpr ho (hw key)

/-- A lookup through the caches gives the stored record. -/
theorem Refines.visible (key : MetaKey) : s.visible key = p.metadb.lookup key := by
  unfold State.visible
  rw [hr.metadb]
  split
  · rename_i i ht
    obtain ⟨h, hh⟩ := hr.counted.entry ht
    have hwriters : openCount s.files i = 0 := by
      by_contra hne
      obtain ⟨k, h', _, hk⟩ := hr.coherent.opened i hne
      simp [hw k] at hk
    rw [hh, (hr.coherent.table key i h ht hh hwriters).2.1]
    rfl
  · rfl

private theorem Refines.coherentCaches : s.CoherentCaches := by
  refine ⟨hr.dentries, fun k i h ht hh => ?_⟩
  have hvis := hr.visible hw k
  simp only [State.visible, ht, hh, hr.metadb, Option.map_some] at hvis
  exact hvis.symm

private theorem Refines.valueAt (path : CString) : s.valueAt path = recordAt p.metadb path := by
  rw [State.valueAt, (hr.found_eq path).1, recordAt]
  exact congrArg _ (funext fun x => hr.visible hw x.1)

theorem Refines.getAttr (path : CString) : (s.getAttr path).2 =
    (((recordAt p.metadb path).map fileView).map fun w => { ret := 0, stat := some w.1 }).getD (fsError ENOENT) := by
  rw [(refines_getAttr hr fun key _ ho => absurd ho (hr.not_openOn hw key)).1]
  simp only [Plain.getAttr, Plain.acquire, Plain.inode, copyOf, hw, recordAt]
  cases resolve p.metadb path with
  | none => rfl
  | some x =>
    cases hv : p.metadb.lookup x.1 with
    | none => simp [hv]
    | some v => simp [hv, fileView]

end Idle

section Rename
variable {metadb : MetaDB} {old new : MetaKey} {v : Value}

private theorem inoOf_move (hv : metadb.lookup old = some v) (name : List UInt8) :
    inoOf ((metadb.erase old).insert new (renameInodeValue v name)) = moved (inoOf metadb) old new := by
  funext k
  unfold moved
  split
  · subst k
    simp only [inoOf, Finmap.lookup_insert, hv, Option.map_some]
    rfl
  · rename_i hk
    rw [inoOf, Finmap.lookup_insert_of_ne _ hk]
    split
    · subst k
      rw [Finmap.lookup_erase]
      rfl
    · rename_i hk'
      rw [Finmap.lookup_erase_ne hk']
      rfl

private theorem recordAt_concat (metadb : MetaDB) (q : List Name) (c : Name) :
    recordAt metadb (pathOf (q ++ [c])) =
      (inodeAt (inoOf metadb) q).bind fun i => metadb.lookup (buildMetaKey c.chars i) := by
  rw [recordAt, resolve, resolveBy_concat, Option.bind_map]
  rfl

private theorem recordAt_below_target {names : Set Name} {A B : List Name} {a b : Name}
    (h : Relocation (inoOf metadb) names A a B b old new) (hv : metadb.lookup old = some v) {r : List Name}
    (hr : Over names r) :
    (recordAt ((metadb.erase old).insert new (renameInodeValue v b.chars)) (pathOf (B ++ [b] ++ r))).map fileView =
      (recordAt metadb (pathOf (A ++ [a] ++ r))).map fileView := by
  rcases List.eq_nil_or_concat r with rfl | ⟨r, c, rfl⟩
  · obtain ⟨i, hi, hold⟩ := h.old_key
    obtain ⟨j, hj, hnew⟩ := h.new_key
    rw [List.append_nil, List.append_nil, recordAt_concat, recordAt_concat, inoOf_move hv, h.inodeAt_target, hi, hj,
      Option.bind_some, Option.bind_some, ← hold, ← hnew, hv, Finmap.lookup_insert]
    rw [Option.map_some, Option.map_some, fileView_renameInodeValue]
  · rw [List.concat_eq_append] at hr ⊢
    rw [← List.append_assoc, ← List.append_assoc, recordAt_concat, recordAt_concat, inoOf_move hv,
      h.inodeAt_below_target (over_append.mp hr).1]
    cases hi : inodeAt (inoOf metadb) (A ++ [a] ++ r) with
    | none => rfl
    | some i =>
      obtain ⟨hold, hnew⟩ := h.key_below_source hr hi
      rw [Option.bind_some, Option.bind_some, Finmap.lookup_insert_of_ne _ hnew, Finmap.lookup_erase_ne hold]

private theorem recordAt_below_source {names : Set Name} {A B : List Name} {a b : Name}
    (h : Relocation (inoOf metadb) names A a B b old new) (hv : metadb.lookup old = some v) (r : List Name) :
    recordAt ((metadb.erase old).insert new (renameInodeValue v b.chars)) (pathOf (A ++ [a] ++ r)) = none := by
  rcases List.eq_nil_or_concat r with rfl | ⟨r, c, rfl⟩
  · obtain ⟨i, hi, hold⟩ := h.old_key
    rw [List.append_nil, recordAt_concat, inoOf_move hv, h.inodeAt_source, hi, Option.bind_some, ← hold,
      Finmap.lookup_insert_of_ne _ h.old_ne_new, Finmap.lookup_erase]
  · rw [List.concat_eq_append, ← List.append_assoc, recordAt_concat, inoOf_move hv, h.inodeAt_below_source,
      Option.bind_none]

private theorem recordAt_elsewhere {names : Set Name} {A B : List Name} {a b : Name}
    (h : Relocation (inoOf metadb) names A a B b old new) (hv : metadb.lookup old = some v) {q : List Name}
    (hq : Over names q) (hqa : ¬ A ++ [a] <+: q) (hqb : ¬ B ++ [b] <+: q) :
    resolve ((metadb.erase old).insert new (renameInodeValue v b.chars)) (pathOf q) = resolve metadb (pathOf q) ∧
      recordAt ((metadb.erase old).insert new (renameInodeValue v b.chars)) (pathOf q) =
        recordAt metadb (pathOf q) := by
  have hother {k : MetaKey} (hold : k ≠ old) (hnew : k ≠ new) :
      ((metadb.erase old).insert new (renameInodeValue v b.chars)).lookup k = metadb.lookup k := by
    rw [Finmap.lookup_insert_of_ne _ hnew, Finmap.lookup_erase_ne hold]
  rcases List.eq_nil_or_concat q with rfl | ⟨q, c, rfl⟩
  · obtain ⟨i, _, hold⟩ := h.old_key
    obtain ⟨j, _, hnew⟩ := h.new_key
    have ha : old ≠ rootKey := hold ▸ key_ne_root h.noCollision (h.source a (by simp)) i
    have hb : new ≠ rootKey := hnew ▸ key_ne_root h.noCollision (h.target b (by simp)) j
    exact ⟨rfl, hother ha.symm hb.symm⟩
  · rw [List.concat_eq_append] at hq hqa hqb ⊢
    have hsame := h.inodeAt_elsewhere (over_append.mp hq).1 (fun hp => hqa (hp.trans (List.prefix_append _ _)))
      fun hp => hqb (hp.trans (List.prefix_append _ _))
    refine ⟨?_, ?_⟩
    · rw [resolve, resolve, resolveBy_concat, resolveBy_concat, inoOf_move hv, hsame]
    · rw [recordAt_concat, recordAt_concat, inoOf_move hv, hsame]
      cases hi : inodeAt (inoOf metadb) q with
      | none => rfl
      | some i =>
        have hold := h.key_ne_old hq hi fun he => hqa (he ▸ List.prefix_rfl)
        have hnew := h.key_ne_new hq hi fun he => hqb (he ▸ List.prefix_rfl)
        rw [Option.bind_some, Option.bind_some, hother hold hnew]

end Rename

/-- A Rename that returns 0, with nothing open, to a name that did not exist: the record that
moves, and the state without caches that the new state stands for. -/
private theorem rename_relocates {s : State} {p : Plain} (hr : Refines s p) (hw : ∀ k, p.work k = none)
    (hdirs : ∀ fh, slot p.dirs fh = none) (hd : DistinctInodes (inoOf p.metadb)) {names : Set Name}
    (hn : NoCollision names) {A B : List Name} {a b : Name} (hA : Over names (A ++ [a])) (hB : Over names (B ++ [b]))
    (hout : ¬ A ++ [a] <+: B ++ [b]) (habs : recordAt p.metadb (pathOf (B ++ [b])) = none) {env : Env}
    (hcommit : env.commit = true) (hret : (s.rename env (pathOf (A ++ [a])) (pathOf (B ++ [b]))).2.ret = 0) :
    ∃ old new v, Relocation (inoOf p.metadb) names A a B b old new ∧ p.metadb.lookup old = some v ∧
      Refines (s.rename env (pathOf (A ++ [a])) (pathOf (B ++ [b]))).1
        { p with metadb := (p.metadb.erase old).insert new (renameInodeValue v b.chars) } := by
  obtain ⟨old, oname, new, name, ic, i, h, hfo, hfn, _, ho, _⟩ := rename_spec hr.counted hret
  have hro : resolve p.metadb (pathOf (A ++ [a])) = some (old, oname) := (hr.found_eq _).1.symm.trans hfo
  have hrn : resolve p.metadb (pathOf (B ++ [b])) = some (new, name) :=
    ((hr.looked (hr.found_eq _).2).found_eq _).1.symm.trans hfn
  have hv : p.metadb.lookup old = some h.value_ := (hr.visible hw old).symm.trans (State.visible_of_origin ho)
  have hnew : p.metadb.lookup new = none := by simpa [recordAt, hrn] using habs
  rw [resolve, resolveBy_concat] at hro hrn
  obtain ⟨j, hj, hold⟩ := Option.map_eq_some_iff.mp hro
  obtain ⟨j', hj', hnew'⟩ := Option.map_eq_some_iff.mp hrn
  obtain ⟨rfl, rfl⟩ := Prod.mk.inj hold
  obtain ⟨rfl, rfl⟩ := Prod.mk.inj hnew'
  have hrel : Relocation (inoOf p.metadb) names A a B b (buildMetaKey a.chars j) (buildMetaKey b.chars j') :=
    { distinct := hd
      noCollision := hn
      source := hA
      target := hB
      old_key := ⟨j, hj, rfl⟩
      new_key := ⟨j', hj', rfl⟩
      present := by simp [inoOf, hv]
      absent := by simp [inoOf, hnew]
      outside := hout }
  refine ⟨_, _, h.value_, hrel, hv, ?_⟩
  have hkeys : ∀ k ∈ s.keyOf (pathOf (A ++ [a])), ∀ k' ∈ s.keyOf (pathOf (B ++ [b])), k ≠ k' ∧
      (¬ s.OpenOn k ∧ ¬ s.DirOn k) ∧ ¬ s.OpenOn k' ∧ ¬ s.DirOn k' := by
    intro k hk k' hk'
    rw [hr.keyOf_eq, resolve, resolveBy_concat, hj] at hk
    rw [hr.keyOf_eq, resolve, resolveBy_concat, hj'] at hk'
    obtain rfl := Option.some.inj hk
    obtain rfl := Option.some.inj hk'
    exact ⟨hrel.old_ne_new, ⟨hr.not_openOn hw _, hr.no_dirOn hdirs _⟩, hr.not_openOn hw _, hr.no_dirOn hdirs _⟩
  have hsim := (refines_rename hr hcommit hkeys).2
  simpa only [Plain.rename, resolve, resolveBy_concat, hj, hj', Option.map_some, Plain.inode, copyOf, hw, hv] using hsim

/-- With nothing open and coherent caches, a Rename to a name that did not exist moves the
record with all that is below it: what was found at old/r is found at new/r, nothing is left at
or below old, and every other path resolves to what it did before. -/
theorem rename_moves_subtree {s : State} (hr : Reachable s) (hidle : s.Idle) (hcoh : s.CoherentCaches)
    (hd : DistinctInodes (inoOf s.inode_cache.metadb)) {names : Set Name} (hn : NoCollision names)
    {A B : List Name} {a b : Name} (hA : Over names (A ++ [a])) (hB : Over names (B ++ [b]))
    (hout : ¬ A ++ [a] <+: B ++ [b]) (habs : s.valueAt (pathOf (B ++ [b])) = none) {env : Env}
    (hcommit : env.commit = true)
    (hret : (s.rename env (pathOf (A ++ [a])) (pathOf (B ++ [b]))).2.ret = 0) :
    let s' := (s.rename env (pathOf (A ++ [a])) (pathOf (B ++ [b]))).1
    (∀ r, Over names r →
      (s'.getAttr (pathOf (B ++ [b] ++ r))).2 = (s.getAttr (pathOf (A ++ [a] ++ r))).2 ∧
      (s'.valueAt (pathOf (B ++ [b] ++ r))).map fileView = (s.valueAt (pathOf (A ++ [a] ++ r))).map fileView) ∧
    (∀ r, (s'.getAttr (pathOf (A ++ [a] ++ r))).2.ret = -ENOENT) ∧
    (∀ q, Over names q → ¬ A ++ [a] <+: q → ¬ B ++ [b] <+: q →
      s'.found (pathOf q) = s.found (pathOf q) ∧ (s'.getAttr (pathOf q)).2 = (s.getAttr (pathOf q)).2 ∧
      s'.valueAt (pathOf q) = s.valueAt (pathOf q)) ∧
    (∃ v, s'.valueAt (pathOf (B ++ [b])) = some v ∧ v.name = b.chars) ∧ s'.disk = s.disk := by
  intro s'
  have hp := refines_plain hr.ok.counted hidle hcoh
  have hw (k : MetaKey) : s.plain.work k = none := rfl
  rw [hp.valueAt hw] at habs
  obtain ⟨old, new, v, h, hv, hp'⟩ := rename_relocates hp hw (fun fh => slot_blank _ _) hd hn hA hB hout habs
    hcommit hret
  have hattr (path : CString) := hp'.getAttr hw path
  have hval (path : CString) := hp'.valueAt hw path
  refine ⟨fun r hover => ⟨?_, ?_⟩, fun r => ?_, fun q hq hqa hqb => ⟨?_, ?_, ?_⟩, ?_, hp'.disk.symm⟩
  · rw [hattr, hp.getAttr hw]
    exact congrArg (fun o => (Option.map _ o).getD _) (recordAt_below_target h hv hover)
  · rw [hval, hp.valueAt hw]
    exact recordAt_below_target h hv hover
  · rw [hattr, recordAt_below_source h hv]
    rfl
  · rw [(hp'.found_eq _).1, (hp.found_eq _).1]
    exact (recordAt_elsewhere h hv hq hqa hqb).1
  · rw [hattr, hp.getAttr hw, (recordAt_elsewhere h hv hq hqa hqb).2]
  · rw [hval, hp.valueAt hw]
    exact (recordAt_elsewhere h hv hq hqa hqb).2
  · obtain ⟨j, hj, hnew⟩ := h.new_key
    refine ⟨renameInodeValue v b.chars, ?_, (named_renameInodeValue v b.chars).name_eq⟩
    rw [hval, recordAt_concat, inoOf_move hv, h.inodeAt_target, hj, Option.bind_some, ← hnew, Finmap.lookup_insert]

/-- A directory with a file, looked up before, is renamed. -/
theorem rename_moves_subtree_file :
    let d : Name := ⟨[100], by decide, by decide, by decide⟩
    let e : Name := ⟨[101], by decide, by decide, by decide⟩
    let x : Name := ⟨[120], by decide, by decide, by decide⟩
    let s := (run step (State.fresh 4096)
      (calmly [.makeDir (pathOf [d]) 0, .makeNode (pathOf [d, x]) 0 0, .getAttr (pathOf [d, x])])).1
    ((s.rename .calm (pathOf [d]) (pathOf [e])).1.getAttr (pathOf [e, x])).2 = (s.getAttr (pathOf [d, x])).2 ∧
      ((s.rename .calm (pathOf [d]) (pathOf [e])).1.getAttr (pathOf [d, x])).2.ret = -ENOENT := by
  intro d e x s
  have hcalls : Allowed step Exclusive (State.fresh 4096)
      (calmly [.makeDir (pathOf [d]) 0, .makeNode (pathOf [d, x]) 0 0, .getAttr (pathOf [d, x])]) := by decide +kernel
  obtain ⟨_, hp⟩ := run_refines (refines_init _ _ _ _) (hcalls.mono fun _ _ h => h.orderly)
  have hidle : s.Idle := State.idle_of_nil (by decide +kernel) (by decide +kernel)
  have hd : DistinctInodes (inoOf s.inode_cache.metadb) := by decide +kernel
  have hn : NoCollision {c | c ∈ [d, e, x]} := by
    show ∀ c ∈ [d, e, x], _ ∧ ∀ c' ∈ [d, e, x], _
    decide +kernel
  have hover (l : List Name) (hl : ∀ c ∈ l, c ∈ [d, e, x]) : Over {c | c ∈ [d, e, x]} l := hl
  have hmoves := rename_moves_subtree (s := s) (A := []) (B := []) (State.reachable_fresh 4096 _) hidle
    (hp.coherentCaches (hp.work_of_closed hidle.1)) hd hn (hover [d] (by simp)) (hover [e] (by simp)) (by decide)
      (by decide +kernel)
    (show Env.calm.commit = true from rfl) (by decide +kernel)
  have hnew := (hmoves.1 [x] (hover [x] (by simp))).1
  have hold := hmoves.2.1 [x]
  simp only [List.nil_append, List.singleton_append] at hnew hold
  exact ⟨hnew, hold⟩

end TableFS
