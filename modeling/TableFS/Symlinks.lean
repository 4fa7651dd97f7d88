import TableFS.Trails

/-! Readlink gives back the target of a link, under whatever path the link has come to, while
nothing is open, the store takes what it is given and the caches agree with it on the way to
the link. -/
namespace TableFS
open Slots ByteSeq InodeCache

/-- The keys that a path passes in the store. -/
def State.trail (s : State) (items : List Name) : List MetaKey :=
  TableFS.trail (inoOf s.inode_cache.metadb) ROOT_INODE_ID items

/-- A path leads to a record with the given inline data, nothing is open, and the caches agree with
the store on the way. -/
structure LinkAt (s : State) (items : List Name) (target : List UInt8) : Prop where
  counted : s.Counted
  idle : s.Idle
  reached : inodeAt (inoOf s.inode_cache.metadb) items ≠ none
  record : ∃ k ∈ (s.trail items).getLast?, ∃ v ∈ s.inode_cache.metadb.lookup k, v.inline = target
  inStep : ∀ k ∈ s.trail items, InStep s k

/-- A Rename of the record at A/a, on the way to A/a/r, to B/b: the batch is committed, nothing is at
B/b and the caches agree with the store on the way there, and B is not below A/a. No key is
passed twice on the way to A/a/r. -/
structure Redirects (s : State) (env : Env) (old_path : CString) (A : List Name) (a : Name) (r B : List Name)
    (b : Name) : Prop where
  commit : env.commit = true
  source : (s.found old_path).map Prod.fst = (inodeAt (inoOf s.inode_cache.metadb) A).map (buildMetaKey a.chars)
  target : ∃ j ∈ inodeAt (inoOf s.inode_cache.metadb) B, s.inode_cache.metadb.lookup (buildMetaKey b.chars j) = none
  inStep : ∀ k ∈ s.trail B, InStep s k
  outside : ∀ x ∈ s.found old_path, x.1 ∉ s.trail B
  distinct : (s.trail (A ++ a :: r)).Nodup

instance (s : State) (env : Env) (old_path : CString) (A : List Name) (a : Name) (r B : List Name) (b : Name) :
    Decidable (Redirects s env old_path A a r B b) :=
  decidable_of_iff (env.commit = true ∧
      (s.found old_path).map Prod.fst = (inodeAt (inoOf s.inode_cache.metadb) A).map (buildMetaKey a.chars) ∧
      ((inodeAt (inoOf s.inode_cache.metadb) B).any fun j =>
        s.inode_cache.metadb.lookup (buildMetaKey b.chars j) = none) = true ∧
      (∀ k ∈ s.trail B, InStep s k) ∧ (∀ x ∈ s.found old_path, x.1 ∉ s.trail B) ∧ (s.trail (A ++ a :: r)).Nodup)
    ⟨fun h => ⟨h.1, h.2.1, by simpa [Option.any_eq_true] using h.2.2.1, h.2.2.2.1, h.2.2.2.2.1, h.2.2.2.2.2⟩,
      fun h => ⟨h.commit, h.source, by simpa [Option.any_eq_true] using h.target, h.inStep, h.outside, h.distinct⟩⟩

/-- Requests after which what was at one path is at another. Those that pass leave nothing open, do
not remove, replace or rename a record on the way, and do not truncate the last one. -/
inductive Relocates : State → List Name → List (Env × Op) → List Name → Prop where
  | done {s items} : Relocates s items [] items
  | pass {s items c calls items'} : (step s c).1.Idle → (∀ k ∈ s.trail items, Avoids s k c) →
      (∀ k ∈ (s.trail items).getLast?, ¬ Shortens s k c) → Relocates (step s c).1 items calls items' →
      Relocates s items (c :: calls) items'
  | move {s env old_path A a r B b calls items'} : Redirects s env old_path A a r B b →
      Relocates (step s (env, .rename old_path (pathOf (B ++ [b])))).1 (B ++ b :: r) calls items' →
      Relocates s (A ++ a :: r) ((env, .rename old_path (pathOf (B ++ [b]))) :: calls) items'

section
variable {s s' : State} {items : List Name} {target : List UInt8}

private theorem inline_initSymlinkValue (memory : Stat) (inum : UInt64) (filename target : List UInt8)
    (context : Option (Nat × Nat)) (now : Int) :
    (initSymlinkValue memory inum filename target context now).inline = target := by
  unfold initSymlinkValue Value.inline
  exact List.drop_left' (by simp)

private theorem trail_carried (h : ∀ k ∈ s.trail items, inoOf s'.inode_cache.metadb k = inoOf s.inode_cache.metadb k) :
    inodeAt (inoOf s'.inode_cache.metadb) items = inodeAt (inoOf s.inode_cache.metadb) items ∧
      s'.trail items = s.trail items := by
  rw [inodeAt_eq_leads, inodeAt_eq_leads]
  exact leads_congr h

private theorem trail_concat {dir : List Name} {i : UInt64} (h : inodeAt (inoOf s.inode_cache.metadb) dir = some i)
    (c : Name) :
    s.trail (dir ++ [c]) = s.trail dir ++ [buildMetaKey c.chars i] := by
  rw [inodeAt_eq_leads] at h
  refine (trail_append h [c]).trans (congrArg (s.trail dir ++ ·) ?_)
  simp only [TableFS.trail]
  cases inoOf s.inode_cache.metadb (buildMetaKey c.chars i) <;> rfl

/-- Requests that pass leave the link where it is. -/
theorem LinkAt.pass (hl : LinkAt s items target) {c : Env × Op} (hidle : (step s c).1.Idle)
    (ha : ∀ k ∈ s.trail items, Avoids s k c) (hcut : ∀ k ∈ (s.trail items).getLast?, ¬ Shortens s k c) :
    LinkAt (step s c).1 items target := by
  have hcarried (k : MetaKey) (hk : k ∈ s.trail items) : Carried s (step s c).1 k (Shortens s k c) :=
    (hl.inStep k hk).step hl.counted hl.idle hidle (ha k hk)
  obtain ⟨hinode, htrail⟩ := trail_carried fun k hk => (hcarried k hk).ino
  refine ⟨(step_deed hl.counted c.1 c.2).counted hl.counted, hidle, hinode ▸ hl.reached, ?_, fun k hk => ?_⟩
  · obtain ⟨k, hk, v, hv, hinline⟩ := hl.record
    have hkept := (hcarried k (List.mem_of_getLast? hk)).inline (hcut k hk)
    rw [hv, Option.map_some] at hkept
    obtain ⟨v', hv', he⟩ := Option.map_eq_some_iff.mp hkept
    exact ⟨k, htrail ▸ hk, v', hv', he.trans hinline⟩
  · exact (hcarried k (htrail ▸ hk)).inStep

/-- Where the caches agree with the store on the way to a directory, names in it are found, also
after other lookups. -/
private theorem found_on_trail {d : DentryCache} {dir : List Name} (h : ∀ k ∈ s.trail dir, InStep s k)
    (hd : s.dentry_cache.Walked d s.inode_cache.metadb) {i : UInt64}
    (hdir : inodeAt (inoOf s.inode_cache.metadb) dir = some i) (c : Name) :
    (pathLookup d s.inode_cache.metadb (pathOf (dir ++ [c]))).2 = some (buildMetaKey c.chars i, c.chars) := by
  refine pathLookup_on_trail (fun k hk n hn => ?_) hdir c
  exact (hd k n hn).elim (h k hk).maps id

/-- Readlink at the path of a link. -/
theorem LinkAt.readlink (hl : LinkAt s items target) {size : Nat} (hpos : 1 ≤ size) (hsize : size < 2 ^ 64) :
    (s.readlink (pathOf items) size).2 = { ret := 0, data := target.take (size - 1) ++ [0] } := by
  obtain ⟨k, hk, v, hv, rfl⟩ := hl.record
  rcases List.eq_nil_or_concat items with rfl | ⟨dir, c, rfl⟩
  · cases hk
  · rw [List.concat_eq_append] at hl hk ⊢
    have hreached := hl.reached
    rw [inodeAt_concat] at hreached
    obtain ⟨i, hi⟩ : ∃ i, inodeAt (inoOf s.inode_cache.metadb) dir = some i := by
      refine Option.ne_none_iff_exists'.mp fun hnone => hreached ?_
      rw [hnone, Option.bind_none]
    have htrail := trail_concat hi c
    rw [htrail, List.getLast?_concat] at hk
    obtain rfl := Option.some.inj hk
    have hfound : s.found (pathOf (dir ++ [c])) = some (buildMetaKey c.chars i, c.chars) :=
      found_on_trail (fun k hk => hl.inStep k (by simp [htrail, hk])) (.refl _ _) hi c
    have hbound : (size + 18446744073709551615) % 18446744073709551616 = size - 1 := by omega
    unfold State.readlink
    rw [State.lookup_eq, hfound]
    simp only [show s.inode_cache.metadb.lookup (buildMetaKey c.chars i) = some v from hv, hbound, getInlineData_eq]
    simp [slice]

/-- A path whose way to B is carried, that turns at B/b to a record with a given number, and that goes
on from there as before. -/
private theorem linkAt_redirected {B r : List Name} {b : Name} {j n : UInt64} {cut : Prop} (hs : s'.Counted)
    (hidle : s'.Idle) (hB : inodeAt (inoOf s.inode_cache.metadb) B = some j)
    (hino : inoOf s'.inode_cache.metadb (buildMetaKey b.chars j) = some n) (hnew : InStep s' (buildMetaKey b.chars j))
    (hway : ∀ k ∈ s.trail B, Carried s s' k cut)
    (hbelow : ∀ k ∈ TableFS.trail (inoOf s.inode_cache.metadb) n r, Carried s s' k cut)
    (hlast : leads (inoOf s.inode_cache.metadb) n r ≠ none)
    (hrecord : ∃ k ∈ (buildMetaKey b.chars j :: TableFS.trail (inoOf s.inode_cache.metadb) n r).getLast?,
      ∃ v ∈ s'.inode_cache.metadb.lookup k, v.inline = target) : LinkAt s' (B ++ b :: r) target := by
  obtain ⟨hleads, htrail⟩ := leads_redirected ((inodeAt_eq_leads B).symm.trans hB) hino
    (fun k hk => (hway k hk).ino) fun k hk => (hbelow k hk).ino
  change s'.trail (B ++ b :: r) = s.trail B ++ _ at htrail
  refine ⟨hs, hidle, ?_, ?_, fun k hk => ?_⟩
  · rw [inodeAt_eq_leads, hleads]
    exact hlast
  · rw [htrail, List.getLast?_append_of_ne_nil _ (List.cons_ne_nil _ _)]
    exact hrecord
  · rw [htrail, List.mem_append, List.mem_cons] at hk
    rcases hk with hk | rfl | hk
    · exact (hway k hk).inStep
    · exact hnew
    · exact (hbelow k hk).inStep

private theorem linkAt_symlink (hs : s.Counted) (hidle : s.Idle) {dir : List Name} {c : Name} {i : UInt64}
    (hdir : inodeAt (inoOf s.inode_cache.metadb) dir = some i)
    (habs : s.inode_cache.metadb.lookup (buildMetaKey c.chars i) = none)
    (hstep : ∀ k ∈ s.trail (dir ++ [c]), InStep s k) {env : Env} (hput : env.put = true) (target : CString) :
    (s.symlink env target (pathOf (dir ++ [c]))).2.ret = 0 ∧
      LinkAt (s.symlink env target (pathOf (dir ++ [c]))).1 (dir ++ [c]) target.val := by
  have htrail := trail_concat hdir c
  have hfound : s.found (pathOf (dir ++ [c])) = some (buildMetaKey c.chars i, c.chars) :=
    found_on_trail (fun k hk => hstep k (by simp [htrail, hk])) (.refl _ _) hdir c
  have hpresent (k : MetaKey) (hk : k ∈ s.trail dir) : k ≠ buildMetaKey c.chars i := by
    rintro rfl
    rw [inodeAt_eq_leads] at hdir
    exact present_of_leads hdir _ hk (by rw [inoOf, habs, Option.map_none])
  have hcarried (k : MetaKey) (hk : k ∈ s.trail dir) :
      Carried s (s.symlink env target (pathOf (dir ++ [c]))).1 k True := by
    refine (hstep k (by simp [htrail, hk])).create (fun x hx => ?_) env _
    obtain rfl := Option.some.inj (hfound.symm.trans hx)
    exact (hpresent k hk).symm
  have hcounted := (step_deed hs env (.symlink target (pathOf (dir ++ [c])))).counted hs
  have heq : s.symlink env target (pathOf (dir ++ [c])) = ({ s with
      dentry_cache := s.looked (pathOf (dir ++ [c]))
      max_inode_num := s.max_inode_num + 1
      inode_cache := s.inode_cache.put (buildMetaKey c.chars i)
        (initSymlinkValue env.memory (s.max_inode_num + 1) c.chars target.val env.context env.now) },
      { ret := 0 }) := by
    simp only [State.symlink, State.create, State.lookup_eq, hfound, hput, if_true, State.symlinkResult]
  have hkey := hstep (buildMetaKey c.chars i) (by simp [htrail])
  have hno (v : Value) : s.inode_cache.metadb.lookup (buildMetaKey c.chars i) ≠ some v := by simp [habs]
  have hrecord : (s.symlink env target (pathOf (dir ++ [c]))).1.inode_cache.metadb.lookup (buildMetaKey c.chars i) =
      some (initSymlinkValue env.memory (s.max_inode_num + 1) c.chars target.val env.context env.now) := by
    rw [heq]
    exact Finmap.lookup_insert _
  have hino : inoOf (s.symlink env target (pathOf (dir ++ [c]))).1.inode_cache.metadb (buildMetaKey c.chars i) =
      some (s.max_inode_num + 1) := by
    rw [inoOf, hrecord]
    rfl
  refine ⟨by rw [heq], linkAt_redirected hcounted (by rw [heq]; exact hidle) hdir hino ?_ hcarried
    (fun k hk => (List.not_mem_nil hk).elim) (Option.some_ne_none _) ⟨_, rfl, _, hrecord, inline_initSymlinkValue ..⟩⟩
  -- neither cache had anything for a key without a record
  rw [heq]
  refine ⟨fun n hn => ?_, fun j hj x hx => absurd (hkey.inode j hj x hx) (hno _)⟩
  have hwalk : s.Walks { s with dentry_cache := s.looked (pathOf (dir ++ [c])) } := .looked rfl
  have hold := hkey.walked hwalk hn
  rw [inoOf, habs] at hold
  cases hold

theorem InStep.visible_eq {k : MetaKey} (hk : InStep s k) (hs : s.Counted) :
    s.visible k = s.inode_cache.metadb.lookup k := by
  unfold State.visible
  cases ht : s.inode_cache.table k with
  | none => rfl
  | some i =>
    obtain ⟨h, hh⟩ := hs.entry ht
    simp only [hh, Option.map_some, hk.inode i ht _ hh]

private theorem leads_through {A r : List Name} {a : Name}
    (h : inodeAt (inoOf s.inode_cache.metadb) (A ++ a :: r) ≠ none) :
    ∃ i v m, inodeAt (inoOf s.inode_cache.metadb) A = some i ∧
      s.inode_cache.metadb.lookup (buildMetaKey a.chars i) = some v ∧
      leads (inoOf s.inode_cache.metadb) v.fstat.st_ino r = some m ∧
      s.trail (A ++ a :: r) = s.trail A ++
        buildMetaKey a.chars i :: TableFS.trail (inoOf s.inode_cache.metadb) v.fstat.st_ino r := by
  obtain ⟨m, hm⟩ := Option.ne_none_iff_exists'.mp h
  rw [inodeAt_eq_leads, leads_append] at hm
  obtain ⟨i, hi, hrest⟩ := Option.bind_eq_some_iff.mp hm
  obtain ⟨n, hn, hlast⟩ := Option.bind_eq_some_iff.mp hrest
  obtain ⟨v, hv, rfl⟩ := Option.map_eq_some_iff.mp hn
  refine ⟨i, v, m, (inodeAt_eq_leads A).trans hi, hv, hlast, (trail_append hi _).trans ?_⟩
  simp only [TableFS.trail, hn, Option.map_some, Option.getD_some]
  rfl

private theorem rename_redirects {A r B : List Name} {a b : Name} (hs : s.Counted) (hidle : s.Idle) {env : Env}
    {old_path : CString} (hr : Redirects s env old_path A a r B b) {i j : UInt64} {v : Value}
    (hA : inodeAt (inoOf s.inode_cache.metadb) A = some i) (hold : InStep s (buildMetaKey a.chars i))
    (hv : s.inode_cache.metadb.lookup (buildMetaKey a.chars i) = some v)
    (hB : inodeAt (inoOf s.inode_cache.metadb) B = some j)
    (habs : s.inode_cache.metadb.lookup (buildMetaKey b.chars j) = none) :
    let s' := (s.rename env old_path (pathOf (B ++ [b]))).1
    s'.Idle ∧ s'.inode_cache.metadb.lookup (buildMetaKey b.chars j) = some (renameInodeValue v b.chars) ∧
      InStep s' (buildMetaKey b.chars j) ∧
      ∀ k, InStep s k → k ≠ buildMetaKey a.chars i → k ≠ buildMetaKey b.chars j → Carried s s' k False := by
  intro s'
  have hsource := hr.source
  rw [hA, Option.map_some] at hsource
  obtain ⟨⟨old, oname⟩, hfo, rfl⟩ := Option.map_eq_some_iff.mp hsource
  have hfn := found_on_trail hr.inStep (walked_pathLookup _ _ old_path) hB b
  have hkeys : s.renameKeys old_path (pathOf (B ++ [b])) = some (buildMetaKey a.chars i, buildMetaKey b.chars j) := by
    simp only [State.renameKeys, hfo, Option.bind_some]
    exact congrArg (Option.map _) hfn
  have hret := rename_ret_of_visible hs env hkeys ((hold.visible_eq hs).trans hv)
  obtain ⟨old', oname', new', name', ic, n, h, hfo', hfn', hp, ho, hs', heq⟩ := rename_spec hs hret
  obtain ⟨rfl, rfl⟩ := Prod.mk.inj (Option.some.inj (hfo'.symm.trans hfo))
  obtain ⟨rfl, rfl⟩ := Prod.mk.inj (Option.some.inj (hfn'.symm.trans hfn))
  obtain rfl := Option.some.inj (hv.symm.trans (hold.got ho))
  have hne : buildMetaKey b.chars j ≠ buildMetaKey a.chars i := by
    intro he
    rw [he, hv] at habs
    cases habs
  have hic : Renames s' ic n (buildMetaKey a.chars i) (buildMetaKey b.chars j) (renameInodeValue h.value_ b.chars)
      true := by
    rw [Renames, ← hr.commit]
    exact congrArg State.inode_cache heq
  have hdentry := congrArg State.dentry_cache heq
  have hwalk : s.Walks s' := by
    rw [State.Walks, hdentry]
    exact (((walked_pathLookup _ _ old_path).trans (walked_pathLookup _ _ _)).evict _).evict _
  obtain ⟨hrec, hnew⟩ := renamed_new hidle hne hp ho hs' hic fun n hm => by
    rw [hdentry] at hm
    exact ((DentryCache.maps_evict _ _ _ _).mp hm).1 rfl
  have hfiles := congrArg State.files heq
  have hdirs := congrArg State.dirs heq
  refine ⟨⟨fun fh => hfiles ▸ hidle.1 fh, fun fh => hdirs ▸ hidle.2 fh⟩, hrec, hnew, fun k hk ho' hn' => ?_⟩
  exact hk.move hs ho' hn' hp ho hs' hic hwalk

/-- A Rename on the way takes the link along. -/
theorem LinkAt.move {A r B : List Name} {a b : Name} (hl : LinkAt s (A ++ a :: r) target) {env : Env}
    {old_path : CString} (hr : Redirects s env old_path A a r B b) :
    LinkAt (s.rename env old_path (pathOf (B ++ [b]))).1 (B ++ b :: r) target := by
  obtain ⟨i, v, m, hA, hv, hlast, htrail⟩ := leads_through hl.reached
  obtain ⟨j, hB, habs⟩ := hr.target
  have hold : InStep s (buildMetaKey a.chars i) := hl.inStep _ (by simp [htrail])
  obtain ⟨hidle, hrec, hnew, hcarried⟩ := rename_redirects hl.counted hl.idle hr hA hold hv hB habs
  have hcounted := (step_deed hl.counted env (.rename old_path (pathOf (B ++ [b])))).counted hl.counted
  change (s.rename env old_path (pathOf (B ++ [b]))).1.Counted at hcounted
  generalize (s.rename env old_path (pathOf (B ++ [b]))).1 = s' at hidle hrec hnew hcarried hcounted ⊢
  -- neither the way to B nor what is below the link's old place passes one of the two keys
  have hnone : inoOf s.inode_cache.metadb (buildMetaKey b.chars j) = none := by rw [inoOf, habs, Option.map_none]
  have hwayB : ∀ k ∈ s.trail B, Carried s s' k False := by
    intro k hk
    refine hcarried k (hr.inStep k hk) ?_ ?_
    · rintro rfl
      have hsource := hr.source
      rw [hA, Option.map_some] at hsource
      obtain ⟨x, hx, he⟩ := Option.map_eq_some_iff.mp hsource
      exact hr.outside x hx (he ▸ hk)
    · rintro rfl
      exact present_of_leads ((inodeAt_eq_leads B).symm.trans hB) _ hk hnone
  have hbelow : ∀ k ∈ TableFS.trail (inoOf s.inode_cache.metadb) v.fstat.st_ino r, Carried s s' k False := by
    intro k hk
    refine hcarried k (hl.inStep k (by simp [htrail, hk])) ?_ ?_
    · rintro rfl
      have hdistinct := hr.distinct
      rw [htrail] at hdistinct
      exact (List.nodup_cons.mp (List.nodup_append.mp hdistinct).2.1).1 hk
    · rintro rfl
      exact present_of_leads hlast _ hk hnone
  have hino : inoOf s'.inode_cache.metadb (buildMetaKey b.chars j) = some v.fstat.st_ino := by
    rw [inoOf, hrec]
    rfl
  refine linkAt_redirected hcounted hidle hB hino hnew hwayB hbelow (by simp [hlast]) ?_
  obtain ⟨k, hk, w, hw, hinline⟩ := hl.record
  rw [htrail, List.getLast?_append_of_ne_nil _ (List.cons_ne_nil _ _)] at hk
  rw [List.getLast?_cons] at hk ⊢
  obtain rfl := Option.some.inj hk
  cases hT : (TableFS.trail (inoOf s.inode_cache.metadb) v.fstat.st_ino r).getLast? with
  | none =>
    -- the link itself was renamed
    rw [hT] at hw
    obtain rfl := Option.some.inj (hv.symm.trans hw)
    exact ⟨_, rfl, _, hrec, (inline_renameInodeValue v b.chars).trans hinline⟩
  | some t =>
    rw [hT] at hw
    have hkept := (hbelow t (List.mem_of_getLast? hT)).inline not_false
    rw [show s.inode_cache.metadb.lookup t = some w from hw, Option.map_some] at hkept
    obtain ⟨w', hw', he⟩ := Option.map_eq_some_iff.mp hkept
    exact ⟨t, rfl, w', hw', he.trans hinline⟩

private theorem Relocates.linkAt {calls : List (Env × Op)} {items' : List Name} (ht : Relocates s items calls items')
    (hl : LinkAt s items target) : LinkAt (Runs.run step s calls).1 items' target := by
  induction ht with
  | done => exact hl
  | pass hidle ha hcut _ ih => exact ih (hl.pass hidle ha hcut)
  | move hr _ ih => exact ih (hl.move hr)

private theorem readlink_unput {dir : List Name} {c : Name} {i : UInt64}
    (hdir : inodeAt (inoOf s.inode_cache.metadb) dir = some i)
    (habs : s.inode_cache.metadb.lookup (buildMetaKey c.chars i) = none)
    (hstep : ∀ k ∈ s.trail (dir ++ [c]), InStep s k) {env : Env} (hput : env.put = false) (target : CString)
    (size : Nat) :
    (s.symlink env target (pathOf (dir ++ [c]))).2.ret = 0 ∧
      ((s.symlink env target (pathOf (dir ++ [c]))).1.readlink (pathOf (dir ++ [c])) size).2 = fsError ENOENT := by
  have hway (k : MetaKey) (hk : k ∈ s.trail dir) : InStep s k := hstep k (by simp [trail_concat hdir c, hk])
  have hfound : s.found (pathOf (dir ++ [c])) = some (buildMetaKey c.chars i, c.chars) :=
    found_on_trail hway (.refl _ _) hdir c
  have hagain := found_on_trail hway (walked_pathLookup _ _ (pathOf (dir ++ [c]))) hdir c
  have heq : s.symlink env target (pathOf (dir ++ [c])) = ({ s with
      dentry_cache := s.looked (pathOf (dir ++ [c]))
      max_inode_num := s.max_inode_num + 1 }, { ret := 0 }) := by
    simp only [State.symlink, State.create, State.lookup_eq, hfound, hput, State.symlinkResult]
    rfl
  rw [heq]
  refine ⟨rfl, ?_⟩
  unfold State.readlink
  rw [State.lookup_eq, show State.found { s with
      dentry_cache := s.looked (pathOf (dir ++ [c]))
      max_inode_num := s.max_inode_num + 1 } (pathOf (dir ++ [c])) = _ from hagain]
  simp only [habs]

end

/-- Symlink under a name that is not there, with the caches in step with the store on the way,
returns 0. If the store took the link, Readlink gives its target back, cut to the buffer,
wherever later requests have taken it. If not, there is nothing to read. -/
theorem readlink_inverts_symlink {s : State} (hs : Reachable s) (hidle : s.Idle) (dir : List Name) (c : Name)
    {i : UInt64} (hdir : inodeAt (inoOf s.inode_cache.metadb) dir = some i)
    (habs : s.inode_cache.metadb.lookup (buildMetaKey c.chars i) = none)
    (hstep : ∀ k ∈ s.trail (dir ++ [c]), InStep s k) (env : Env) (target : CString) (size : Nat) (hpos : 1 ≤ size)
    (hsize : size < 2 ^ 64) :
    let r := step s (env, .symlink target (pathOf (dir ++ [c])))
    r.2.ret = 0 ∧
      (env.put = true → ∀ calls items', Relocates r.1 (dir ++ [c]) calls items' →
        ((Runs.run step r.1 calls).1.readlink (pathOf items') size).2 =
            { ret := 0, data := target.val.take (size - 1) ++ [0] } ∧
          (target.val.take (size - 1) ++ [0]).length ≤ size) ∧
      (env.put = false → (r.1.readlink (pathOf (dir ++ [c])) size).2.ret = -ENOENT) := by
  intro r
  have hlen : (target.val.take (size - 1) ++ [0]).length ≤ size := by
    simp only [List.length_append, List.length_take, List.length_singleton]
    omega
  cases hput : env.put with
  | true =>
    obtain ⟨hret, hlink⟩ := linkAt_symlink hs.ok.counted hidle hdir habs hstep hput target
    exact ⟨hret, fun _ calls items' ht => ⟨(ht.linkAt hlink).readlink hpos hsize, hlen⟩, nofun⟩
  | false =>
    obtain ⟨hret, hnone⟩ := readlink_unput hdir habs hstep hput target size
    exact ⟨hret, nofun, fun _ => congrArg Result.ret hnone⟩

/-- A link in a directory. It is looked at and its mode is changed, the directory is renamed, then
the link, and a file is made next to it. -/
theorem readlink_inverts_symlink_renamed :
    let d : Name := ⟨[100], by decide, by decide, by decide⟩
    let e : Name := ⟨[101], by decide, by decide, by decide⟩
    let l : Name := ⟨[108], by decide, by decide, by decide⟩
    let m : Name := ⟨[109], by decide, by decide, by decide⟩
    let s := (Runs.run step (State.fresh 9) (calmly [.makeDir (pathOf [d]) 0])).1
    let calls := calmly [.getAttr (pathOf [d, l]), .chmod (pathOf [d, l]) 7, .rename (pathOf [d]) (pathOf [e]),
      .rename (pathOf [e, l]) (pathOf [e, m]), .makeNode (pathOf [e, l]) 0 0]
    ((Runs.run step (step s (.calm, .symlink ⟨[116, 117], by decide⟩ (pathOf [d, l]))).1 calls).1.readlink
      (pathOf [e, m]) 2).2 = { ret := 0, data := [116, 0] } := by
  intro d e l m s calls
  have hs : Reachable s := State.reachable_fresh 9 _
  have hidle : s.Idle := State.idle_of_nil (by decide +kernel) (by decide +kernel)
  have hstep : ∀ k ∈ s.trail ([d] ++ [l]), InStep s k := by decide +kernel
  have hboth := readlink_inverts_symlink hs hidle [d] l (i := 1) (by decide +kernel) (by decide +kernel) hstep .calm
    ⟨[116, 117], by decide⟩ 2 (by decide) (by decide)
  have hrelocates : Relocates (step s (.calm, .symlink ⟨[116, 117], by decide⟩ (pathOf ([d] ++ [l])))).1
      ([d] ++ [l]) calls
      [e, m] := by
    refine .pass (State.idle_of_nil (by decide +kernel) (by decide +kernel)) (by decide +kernel) (by decide +kernel) ?_
    refine .pass (State.idle_of_nil (by decide +kernel) (by decide +kernel)) (by decide +kernel) (by decide +kernel) ?_
    refine .move (A := []) (a := d) (r := [l]) (B := []) (b := e) (by decide +kernel) ?_
    refine .move (A := [e]) (a := l) (r := []) (B := [e]) (b := m) (by decide +kernel) ?_
    refine .pass (State.idle_of_nil (by decide +kernel) (by decide +kernel)) (by decide +kernel) (by decide +kernel) ?_
    exact .done
  exact (hboth.2.1 rfl calls [e, m] hrelocates).1

/-- The store rejects the Put, Symlink returns 0, and Readlink finds nothing; so it is with a link
that was stored, after a Rename whose batch is rejected. -/
theorem symlink_lost :
    let r := step (State.fresh 9) ({ Env.calm with put := false }, .symlink ⟨[116], by decide⟩ (inRoot [108]))
    let s := (step (State.fresh 9) (.calm, .symlink ⟨[116], by decide⟩ (inRoot [108]))).1
    let m := step s ({ Env.calm with commit := false }, .rename (inRoot [108]) (inRoot [109]))
    (r.2.ret = 0 ∧ (r.1.readlink (inRoot [108]) 9).2.ret = -ENOENT) ∧
      m.2.ret = 0 ∧ (m.1.readlink (inRoot [109]) 9).2.ret = -ENOENT ∧
        (m.1.readlink (inRoot [108]) 9).2.ret = -ENOENT := by
  decide +kernel

end TableFS
