import TableFS.Listing
import TableFS.RenameLoss

/-! Handles that stay open on a key after its record was removed. Such a handle keeps its key,
its value and its mode, and Release acts on them later: what was removed is put back by a
handle in mode INODE_WRITE, and what was created since is deleted by one in mode INODE_DELETE. -/
namespace TableFS
open Slots InodeCache Runs

/-- The handle a request writes through. -/
def Op.writer : Op → Option Nat
  | .write fh _ _ _ => some fh
  | _ => none

namespace State

/-- The inode handles that open files and directories point at. -/
def held (s : State) : List Nat := s.files.filterMap (Option.map FileHandle.handle_) ++ s.dirs.filterMap id

/-- The file handle is open on the key. -/
def OpenAt (s : State) (key : MetaKey) (fh : Nat) : Prop := ∃ f h, s.fileOf fh = some (f, key, h)

/-- The key under which a request would store a record that was not there. -/
def targetKey (s : State) : Op → Option MetaKey
  | .rename old_path new_path =>
    (pathLookup (s.looked old_path) s.inode_cache.metadb new_path).2.map Prod.fst
  | op => op.created.bind fun path => (s.found path).map Prod.fst

variable {s s' : State} {key : MetaKey}

theorem mem_held (s : State) (i : Nat) : i ∈ s.held ↔ s.pins i ≠ 0 := by
  have hf : i ∈ s.files.filterMap (Option.map FileHandle.handle_) ↔ 0 < openCount s.files i := by
    simp [openCount, count, List.countP_pos_iff, Option.any_eq_true]
  have hd : i ∈ s.dirs.filterMap id ↔ 0 < dirCount s.dirs i := by
    simp [dirCount, count, List.countP_pos_iff, Option.any_eq_true]
  rw [held, List.mem_append, hf, hd, pins, Pi.add_apply]
  omega

instance (s : State) (key : MetaKey) (fh : Nat) : Decidable (s.OpenAt key fh) :=
  decidable_of_iff ((s.fileOf fh).map (·.2.1) = some key) <| by
    simp only [OpenAt, Option.map_eq_some_iff]
    constructor
    · rintro ⟨⟨f, k, h⟩, hf, rfl⟩
      exact ⟨f, h, hf⟩
    · rintro ⟨f, h, hf⟩
      exact ⟨_, hf, rfl⟩

private theorem openAt_iff {fh : Nat} :
    s.OpenAt key fh ↔ ∃ i h, s.handleOf fh = some i ∧ s.inode_cache.handle i = some (key, h) := by
  simp only [OpenAt, fileOf_some, handleOf, Option.map_eq_some_iff]
  constructor
  · rintro ⟨f, h, hf, hh⟩
    exact ⟨_, h, ⟨f, hf, rfl⟩, hh⟩
  · rintro ⟨_, h, ⟨f, hf, rfl⟩, hh⟩
    exact ⟨f, h, hf, hh⟩

private theorem handleOf_push {f : FileHandle} (hf : s'.files = push s.files f) {fh i : Nat}
    (hi : s'.handleOf fh = some i) :
    s.handleOf fh = some i ∨ i = f.handle_ := by
  rw [handleOf, hf, slot_push] at hi
  split at hi
  · exact .inr (Option.some.inj hi).symm
  · exact .inl hi

private theorem handleOf_clear {closed : Nat} (hf : s'.files = clear s.files closed) {fh i : Nat}
    (hi : s'.handleOf fh = some i) : s.handleOf fh = some i := by
  rw [handleOf, hf, slot_clear] at hi
  split at hi
  · cases hi
  · exact hi

private theorem pins_unpin {i j : Nat} (hp : s'.pins = unpin s.pins i) (hj : s'.pins j ≠ 0) : s.pins j ≠ 0 := by
  rw [hp] at hj
  by_cases hji : j = i
  · subst hji
    rw [unpin_self] at hj
    omega
  · rwa [unpin_ne _ hji] at hj

private theorem pins_of_handleOf {fh i : Nat} (h : s.handleOf fh = some i) : s.pins i ≠ 0 := by
  obtain ⟨f, hf, rfl⟩ := Option.map_eq_some_iff.mp h
  have := openCount_pos hf
  simp only [pins, Pi.add_apply]
  omega

private theorem handleOf_of_file {fh : Nat} {f : FileHandle} {h : InodeCacheHandle}
    (hf : s.fileOf fh = some (f, key, h)) :
    s.handleOf fh = some f.handle_ := by simp [handleOf, (fileOf_some.mp hf).1]

end State

private theorem settled_of_ne {mode : InodeAccessMode} (h : mode ≠ .write) : settled mode = mode := by
  cases mode with
  | write => exact absurd rfl h
  | _ => rfl

private theorem lookup_clean_none {m : MetaDB} {key k : MetaKey} {h : InodeCacheHandle} (hm : m.lookup key = none)
    (hk : k = key → h.mode_ ≠ .write) : (cleanInodeHandle k h m).lookup key = none := by
  by_cases he : k = key
  · subst he
    cases hmode : h.mode_ with
    | write => exact absurd hmode (hk rfl)
    | delete => simp [cleanInodeHandle, hmode]
    | read => simpa [cleanInodeHandle, hmode] using hm
  · rw [lookup_clean_ne (Ne.symm he), hm]

/-- Nothing is stored or cached under the key, the files still open on it are among the old
ones, and no handle on it would store its value when it is closed. -/
structure Gone (old : Nat → Prop) (key : MetaKey) (s : State) : Prop where
  metadb : s.inode_cache.metadb.lookup key = none
  table : s.inode_cache.table key = none
  files : ∀ fh, s.OpenAt key fh → old fh
  held : ∀ i h, s.pins i ≠ 0 → s.inode_cache.handle i = some (key, h) → h.mode_ ≠ .write

section Gone
variable {s s' : State} {c : Env × Op} {old : Nat → Prop} {key : MetaKey}

private theorem Gone.origin_ne (hg : Gone old key s) {ic : InodeCache} {k : MetaKey} {mode : InodeAccessMode} {i : Nat}
    {h : InodeCacheHandle} (ho : Origin s.inode_cache ic k mode i h) : k ≠ key := by
  rintro rfl
  cases ho with
  | hit h ht => simp [hg.table] at ht
  | miss v _ hm => simp [hg.metadb] at hm

/-- A key stays gone when no handle comes to it and no reference is added to one on it. -/
theorem Gone.of (hg : Gone old key s) (hm : s'.inode_cache.metadb.lookup key = none)
    (ht : s'.inode_cache.table key = none)
    (hh : ∀ i h, s'.inode_cache.handle i = some (key, h) → s.inode_cache.handle i = some (key, h) ∧
      (s'.pins i ≠ 0 → s.pins i ≠ 0) ∧ ∀ fh, s'.handleOf fh = some i → s.handleOf fh = some i) :
    Gone old key s' := by
  refine ⟨hm, ht, fun fh ho => ?_, fun i h hp hd => ?_⟩
  · obtain ⟨i, h, hi, hd⟩ := State.openAt_iff.mp ho
    obtain ⟨hd', _, hf⟩ := hh i h hd
    exact hg.files fh (State.openAt_iff.mpr ⟨i, h, hf fh hi, hd'⟩)
  · obtain ⟨hd', hp', _⟩ := hh i h hd
    exact hg.held i h (hp' hp) hd'

private theorem Gone.of_same (hg : Gone old key s) (hs : State.SameHandles s s')
    (hm : s'.inode_cache.metadb.lookup key = none) (ht : s'.inode_cache.table key = none)
    (hh : ∀ i h, s'.inode_cache.handle i = some (key, h) → s.inode_cache.handle i = some (key, h)) :
    Gone old key s' :=
  hg.of hm ht fun i h hd => ⟨hh i h hd, fun hp => hs.pins ▸ hp, fun fh hi => hs.handles fh ▸ hi⟩

private theorem Gone.table_of (hg : Gone old key s) {ic : InodeCache}
    (ht : ∀ j, ic.table key = some j → s.inode_cache.table key = some j) : ic.table key = none :=
  Option.eq_none_iff_forall_ne_some.mpr fun j hj => by simpa [hg.table] using ht j hj

/-- A handle placed under another key leaves the table and the handles of this one. -/
theorem Gone.placed (hg : Gone old key s) {ic : InodeCache} {k : MetaKey} {i : Nat} {h : InodeCacheHandle}
    (hp : Placed s.inode_cache ic k i h) (hk : k ≠ key) :
    ic.table key = none ∧
      ∀ j h', ic.handle j = some (key, h') → j ≠ i ∧ s.inode_cache.handle j = some (key, h') := by
  refine ⟨hg.table_of fun j hj => ?_, fun j h' hd => ?_⟩
  · exact ((hp.table key j hj).resolve_left fun hl => hk hl.1.symm).2
  · have hj : j ≠ i := by
      rintro rfl
      exact hk (handle_inj hp.self hd).1
    exact ⟨hj, hp.others j hj ▸ hd⟩

/-- One handle changed, and it is on another key. -/
theorem Gone.others {ic : InodeCache} {i : Nat} {k : MetaKey} {h : InodeCacheHandle} (hk : k ≠ key)
    (hself : ic.handle i = some (k, h)) (hothers : ∀ j, j ≠ i → ic.handle j = s.inode_cache.handle j)
    (j : Nat) (h' : InodeCacheHandle) (hd : ic.handle j = some (key, h')) :
    s.inode_cache.handle j = some (key, h') := by
  have hj : j ≠ i := by
    rintro rfl
    exact hk (handle_inj hself hd).1
  exact hothers j hj ▸ hd

/-- A handle was opened on another key. -/
theorem Gone.opened (hg : Gone old key s) {ic : InodeCache} {k : MetaKey} {mode : InodeAccessMode} {i : Nat}
    {h : InodeCacheHandle} (hp : Placed s.inode_cache ic k i h) (ho : Origin s.inode_cache ic k mode i h)
    (hic : s'.inode_cache = ic) (hpins : s'.pins = pin s.pins i)
    (hfiles : ∀ fh j, s'.handleOf fh = some j → s.handleOf fh = some j ∨ j = i) : Gone old key s' := by
  have hk := hg.origin_ne ho
  refine hg.of ?_ ?_ fun j h' hj => ?_
  · rw [hic, hp.metadb, hg.metadb]
  · rw [hic, (hg.placed hp hk).1]
  · rw [hic] at hj
    obtain ⟨hji, hj⟩ := (hg.placed hp hk).2 j h' hj
    refine ⟨hj, fun hn => ?_, fun fh hi => (hfiles fh j hi).resolve_right hji⟩
    rwa [hpins, pin_ne _ hji] at hn

/-- Rename moved another record, to a key that is not this one. -/
theorem Gone.moved (hg : Gone old key s) {ic : InodeCache} {k new : MetaKey} {i : Nat} {h : InodeCacheHandle}
    (hp : Placed s.inode_cache ic k i h) (ho : Origin s.inode_cache ic k .delete i h)
    (hs' : ic.Sound (pin s.pins i) (pin s.writers i)) (hnew : new ≠ key) (v : Value) (ok : Bool)
    (hic : s'.inode_cache = ((((ic.insert new v).1.batchCommit i (ic.insert new v).2 ok).release
      (ic.insert new v).2).release i).evict k) (hh : State.SameHandles s s') : Gone old key s' := by
  obtain ⟨_, _, ht, hi, hj, hothers, hm, _⟩ := Sound.move new hp ho hs' v ok
  have hk := hg.origin_ne ho
  refine hg.of_same hh ?_ ?_ fun j h' hj' => ?_
  · have hmove : (if ok then (s.inode_cache.metadb.erase k).insert new v
        else s.inode_cache.metadb).lookup key = none := by
      split
      · rw [Finmap.lookup_insert_of_ne _ hnew.symm, Finmap.lookup_erase_ne hk.symm, hg.metadb]
      · exact hg.metadb
    rw [hic, hm]
    dsimp only
    split
    · rw [Finmap.lookup_erase_ne hk.symm, hmove]
    · exact hmove
  · rw [hic]
    exact hg.table_of fun j hj => ((ht key j hj).2.resolve_left fun hl => hnew hl.1.symm).2
  · rw [hic] at hj'
    have hji : j ≠ i := by
      rintro rfl
      exact hk (handle_inj hi hj').1
    have hjn : j ≠ (ic.insert new v).2 := by
      rintro rfl
      exact hnew (handle_inj hj hj').1
    rwa [hothers j hji hjn] at hj'

/-- Closing a file deletes the record of its key or leaves it, unless the file was written. -/
theorem Gone.closed (hg : Gone old key s) (hs : s.Counted) {fh : Nat} {f : FileHandle} {k : MetaKey}
    {h : InodeCacheHandle} {g : InodeCacheHandle → InodeCacheHandle} (hf : s.fileOf fh = some (f, k, h))
    (hmode : (g h).mode_ = h.mode_) (hclean : h.mode_ ≠ .write → g h = h)
    (hic : s'.inode_cache = (((s.inode_cache.update f.handle_ g).writeBack f.handle_).release f.handle_).evict k)
    (hfiles : s'.files = clear s.files fh) (hdirs : s'.dirs = s.dirs) : Gone old key s' := by
  obtain ⟨hslot, hhd⟩ := State.fileOf_some.mp hf
  obtain ⟨ht, hself, hothers, hm, _⟩ := Sound.close hs (State.writers_of_file hf) hhd hmode
  have hpins : s.pins f.handle_ ≠ 0 := State.pins_of_handleOf (State.handleOf_of_file hf)
  have hread : k = key → h.mode_ ≠ .write := by
    rintro rfl
    exact hg.held _ h hpins hhd
  refine hg.of ?_ ?_ fun j h' hj => ?_
  · rw [hic, hm]
    exact lookup_clean_none hg.metadb fun hk => hmode ▸ hread hk
  · rw [hic, ht]
    split
    · rfl
    · exact hg.table
  · refine ⟨?_, State.pins_unpin (State.pins_clear_file hslot hfiles hdirs).1, fun fh => State.handleOf_clear hfiles⟩
    rw [hic] at hj
    by_cases hji : j = f.handle_
    · subst hji
      obtain ⟨rfl, rfl⟩ := handle_inj hself hj
      rw [hhd, hclean (hread rfl), settled_of_ne (hread rfl)]
    · rwa [hothers j hji] at hj

/-- Closing a directory drops one reference to its handle. -/
theorem Gone.closedDir (hg : Gone old key s) (hs : s.Counted) {fh i : Nat} (hslot : slot s.dirs fh = some i)
    (hic : s'.inode_cache = s.inode_cache.release i) (hf : s'.files = s.files) (hd : s'.dirs = clear s.dirs fh) :
    Gone old key s' := by
  have hpins : s.pins i ≠ 0 := Nat.ne_zero_of_lt (State.pins_of_dir hslot)
  obtain ⟨k, h, hhd⟩ := State.Counted.handle_of_dir hs hslot
  obtain ⟨ht, hh, _, hm⟩ := Sound.release_spec hs hpins hhd
  refine hg.of ?_ (by rw [hic, ht, hg.table]) fun j h' hj => ?_
  · rw [hic, hm]
    split
    · refine lookup_clean_none hg.metadb ?_
      rintro rfl
      exact hg.held i h hpins hhd
    · exact hg.metadb
  · rw [hic, hh] at hj
    refine ⟨hj, State.pins_unpin (State.pins_clear_dir hslot hf hd).1, fun fh hi => ?_⟩
    rwa [State.handleOf, hf] at hi

/-- A key stays gone through every request that does not store a record under it or write
through a handle on it. -/
private theorem Deed.gone (hc : Deed s c s') (hs : s.Counted) (hg : Gone old key s)
    (htarget : s.targetKey c.2 ≠ some key) (hw : ∀ fh ∈ c.2.writer, ¬ old fh) : Gone old key s' := by
  cases hc with
  | idle hic hh | unput _ hic hh =>
    exact hg.of_same hh (hic ▸ hg.metadb) (hic ▸ hg.table) fun i h hd => hic ▸ hd
  | peek hp ho hs' hic hh =>
    obtain ⟨ht, hd, hm, _⟩ := Sound.peek hs hp ho hs'
    obtain ⟨htab, hhd⟩ := hg.placed hp (hg.origin_ne ho)
    refine hg.of_same hh ?_ ?_ fun i h hi => ?_
    · rw [hic, hm, hg.metadb]
    · rw [hic, ht, htab]
    · rw [hic, hd] at hi
      exact (hhd i h hi).2
  | modify hp ho hs' hmode _ hic hh =>
    obtain ⟨ht, hself, hothers, hm, _⟩ := Sound.modify hp ho hs' hmode
    have hk := hg.origin_ne ho
    refine hg.of_same hh ?_ ?_ fun i h hi => ?_
    · rw [hic, hm, Finmap.lookup_insert_of_ne _ hk.symm, hg.metadb]
    · rw [hic, ht, (hg.placed hp hk).1]
    · rw [hic] at hi
      exact Gone.others hk hself hothers i h hi
  | remove _ _ hp ho hs' hic hh =>
    obtain ⟨ht, hd, hm, _⟩ := Sound.remove hs hp ho hs'
    have hk := hg.origin_ne ho
    refine hg.of_same hh ?_ ?_ fun i h hi => ?_
    · rw [hic, hm]
      split
      · rw [Finmap.lookup_erase_ne hk.symm, hg.metadb]
      · exact hg.metadb
    · rw [hic]
      exact hg.table_of fun j hj => (ht key j hj).2
    · rw [hic, hd] at hi
      exact ((hg.placed hp hk).2 i h hi).2
  | move _ hp ho hs' hfound hic hh =>
    refine hg.moved hp ho hs' ?_ _ _ hic hh
    rintro rfl
    simp [State.targetKey, hfound] at htarget
  | opened hp ho _ hic hf hd =>
    exact hg.opened hp ho hic (State.pins_push_file hf hd).1 fun fh j hi => State.handleOf_push hf hi
  | openedDir hp ho _ hic hf hd =>
    refine hg.opened hp ho hic (State.pins_push_dir hf hd).1 fun fh j hi => .inl ?_
    rwa [State.handleOf, hf] at hi
  | @wrote _ env fh flags buf offset f k h v hf _ hic hh =>
    have hk : k ≠ key := by
      rintro rfl
      exact hw fh rfl (hg.files fh ⟨f, h, hf⟩)
    refine hg.of_same hh (hic ▸ hg.metadb) (hic ▸ hg.table) fun j h' hj => ?_
    rw [hic] at hj
    exact Gone.others hk (handle_update_self (State.fileOf_some.mp hf).2 _)
      (fun j hji => handle_update_ne _ hji _) j h' hj
  | closed hf hmode _ hclean hic hfiles hd => exact hg.closed hs hf hmode hclean hic hfiles hd
  | closedDir hslot hic hf hd => exact hg.closedDir hs hslot hic hf hd
  | @put c _ path k name v hop hfound hn _ hic hh =>
    have hk : k ≠ key := by
      rintro rfl
      apply htarget
      obtain ⟨env, op⟩ := c
      cases op <;> simp_all [Op.created, State.targetKey]
    refine hg.of_same hh ?_ (hic ▸ hg.table) fun j h' hj => by rwa [hic] at hj
    rw [hic]
    exact (Finmap.lookup_insert_of_ne _ hk.symm).trans hg.metadb

end Gone

/-- An inode handle on the key that a lookup no longer finds, and the old files that point at it. -/
structure Left (old : Nat → Prop) (key : MetaKey) (i : Nat) (h : InodeCacheHandle) (s : State) : Prop where
  handle : s.inode_cache.handle i = some (key, h)
  table : s.inode_cache.table key ≠ some i
  files : ∀ fh, s.handleOf fh = some i → old fh

section Left
variable {s s' : State} {c : Env × Op} {old : Nat → Prop} {key : MetaKey} {i : Nat} {h : InodeCacheHandle}

private theorem Left.origin_ne (hl : Left old key i h s) {ic : InodeCache} {k : MetaKey} {mode : InodeAccessMode}
    {j : Nat} {h' : InodeCacheHandle} (ho : Origin s.inode_cache ic k mode j h') : i ≠ j := by
  rintro rfl
  cases ho with
  | hit h' ht hd =>
    obtain ⟨rfl, _⟩ := handle_inj hl.handle hd
    exact hl.table ht
  | miss v _ _ hi =>
    have hnew := handle_new s.inode_cache
    rw [← hi, hl.handle] at hnew
    cases hnew

private theorem Left.placed_table (hl : Left old key i h s) {ic : InodeCache} {k : MetaKey} {j : Nat}
    {h' : InodeCacheHandle} (hp : Placed s.inode_cache ic k j h') (hj : i ≠ j) : ic.table key ≠ some i := fun ht =>
  (hp.table key i ht).elim (fun hl => hj hl.2) fun hr => hl.table hr.2

/-- A handle left behind stays as it is through every request that does not write through one
of the old files. -/
theorem Deed.left (hc : Deed s c s') (hs : s.Counted) (hmode : h.mode_ ≠ .write) (hl : Left old key i h s)
    (hw : ∀ fh ∈ c.2.writer, ¬ old fh) : Left old key i h s' := by
  have hsame (hh : State.SameHandles s s') (fh : Nat) (hi : s'.handleOf fh = some i) : old fh :=
    hl.files fh (hh.handles fh ▸ hi)
  cases hc with
  | idle hic hh | unput _ hic hh => exact ⟨hic ▸ hl.handle, hic ▸ hl.table, hsame hh⟩
  | peek hp ho hs' hic hh =>
    obtain ⟨ht, hd, _⟩ := Sound.peek hs hp ho hs'
    have hij := hl.origin_ne ho
    refine ⟨?_, ?_, hsame hh⟩
    · rw [hic, hd, hp.others i hij, hl.handle]
    · rw [hic, ht]
      exact hl.placed_table hp hij
  | modify hp ho hs' hg _ hic hh =>
    obtain ⟨ht, _, hothers, _⟩ := Sound.modify hp ho hs' hg
    have hij := hl.origin_ne ho
    refine ⟨?_, ?_, hsame hh⟩
    · rw [hic, hothers i hij, hl.handle]
    · rw [hic, ht]
      exact hl.placed_table hp hij
  | remove _ _ hp ho hs' hic hh =>
    obtain ⟨ht, hd, _⟩ := Sound.remove hs hp ho hs'
    have hij := hl.origin_ne ho
    refine ⟨?_, ?_, hsame hh⟩
    · rw [hic, hd, hp.others i hij, hl.handle]
    · rw [hic]
      exact fun hk => hl.table (ht key i hk).2
  | @move _ ic k oname new j h' name old_path new_path env _ hp ho hs' hfound hic hh =>
    obtain ⟨_, hnew, ht, _, _, hothers, _⟩ :=
      Sound.move new hp ho hs' (renameInodeValue h'.value_ name) env.commit
    have hij := hl.origin_ne ho
    have hin : i ≠ (ic.insert new (renameInodeValue h'.value_ name)).2 := by
      rintro rfl
      simp [hl.handle] at hnew
    refine ⟨?_, ?_, hsame hh⟩
    · rw [hic, hothers i hij hin, hl.handle]
    · rw [hic]
      exact fun hk => (ht key i hk).2.elim (fun hl => hin hl.2) fun hr => hl.table hr.2
  | opened hp ho _ hic hf _ =>
    have hij := hl.origin_ne ho
    refine ⟨?_, ?_, fun fh hi => hl.files fh ((State.handleOf_push hf hi).resolve_right hij)⟩
    · rw [hic, hp.others i hij, hl.handle]
    · rw [hic]
      exact hl.placed_table hp hij
  | openedDir hp ho _ hic hf _ =>
    have hij := hl.origin_ne ho
    refine ⟨?_, ?_, fun fh hi => hl.files fh (by rwa [State.handleOf, hf] at hi)⟩
    · rw [hic, hp.others i hij, hl.handle]
    · rw [hic]
      exact hl.placed_table hp hij
  | @wrote _ env fh flags buf offset f k h' v hf _ hic hh =>
    have hij : i ≠ f.handle_ := by
      rintro rfl
      exact hw fh rfl (hl.files fh (State.handleOf_of_file hf))
    refine ⟨?_, hic ▸ hl.table, hsame hh⟩
    rw [hic, handle_update_ne _ hij, hl.handle]
  | @closed _ env fh f k h' g hf hg _ hclean hic hfiles _ =>
    obtain ⟨_, hhd⟩ := State.fileOf_some.mp hf
    obtain ⟨ht, hself, hothers, _⟩ := Sound.close hs (State.writers_of_file hf) hhd hg
    refine ⟨?_, ?_, fun fh hi => hl.files fh (State.handleOf_clear hfiles hi)⟩
    · rw [hic]
      by_cases hij : i = f.handle_
      · subst hij
        -- a handle that was not written is not touched either
        obtain ⟨rfl, rfl⟩ := handle_inj hhd hl.handle
        rw [hself, hclean hmode, settled_of_ne hmode]
      · rw [hothers i hij, hl.handle]
    · rw [hic, ht]
      split
      · simp
      · exact hl.table
  | closedDir hslot hic hf _ =>
    obtain ⟨k, h', hhd⟩ := State.Counted.handle_of_dir hs hslot
    obtain ⟨ht, hd, _⟩ := Sound.release_spec hs (Nat.ne_zero_of_lt (State.pins_of_dir hslot)) hhd
    refine ⟨by rw [hic, hd, hl.handle], ?_, fun fh hi => hl.files fh (by rwa [State.handleOf, hf] at hi)⟩
    rw [hic, ht]
    exact hl.table
  | put _ _ _ _ hic hh =>
    refine ⟨?_, ?_, hsame hh⟩
    · rw [hic]
      exact hl.handle
    · rw [hic]
      exact hl.table

end Left

/-- What requests see of a key that is gone: every path that leads to it is reported missing,
and its name is in no listing of the parent. -/
structure Missing (key : MetaKey) (name : List UInt8) (s : State) : Prop where
  getAttr : ∀ path, (∀ x ∈ s.found path, x.1 = key) → (s.getAttr path).2.ret = -ENOENT
  openFile : ∀ path flags, (∀ x ∈ s.found path, x.1 = key) → (s.openFile path flags).2.ret = -ENOENT
  readDir : ∀ env fh x, s.dirOf fh = some x → x.2.2.value_.fstat.st_ino = key.inode_id →
    name ∈ (s.readDir env fh).2.names → name = DOT ∨ name = DOTDOT ∨ name = [PATH_DELIMITER]

section Missing
variable {s : State} {old : Nat → Prop} {key : MetaKey}

private theorem mem_fillDir {filler : Nat → Int} {dirkey : MetaKey} {name : List UInt8} {n : Nat}
    {l : List (MetaKey × Value)} (h : name ∈ (fillDir filler dirkey n l).2) :
    ∃ e ∈ l, e.1.inode_id = dirkey.inode_id ∧ nameBuffer e.2 = name := by
  induction l generalizing n with
  | nil => simp [fillDir] at h
  | cons e l ih =>
    simp only [fillDir] at h
    split at h
    · rename_i hd
      have hin : e.1.inode_id = dirkey.inode_id := by simpa [isKeyInDir] using hd
      have hrest {n : Nat} (h : name ∈ (fillDir filler dirkey n l).2) :
          ∃ e' ∈ e :: l, e'.1.inode_id = dirkey.inode_id ∧ nameBuffer e'.2 = name :=
        (ih h).imp fun e' he => ⟨List.mem_cons_of_mem _ he.1, he.2⟩
      split at h
      · exact hrest h
      · split at h
        · exact ⟨e, List.mem_cons_self, hin, (List.mem_singleton.mp h).symm⟩
        · rcases List.mem_cons.mp h with rfl | h
          · exact ⟨e, List.mem_cons_self, hin, rfl⟩
          · exact hrest h
    · simp at h

private theorem mem_listDir {errno : Nat} {filler : Nat → Int} {m : MetaDB} {ino : UInt64} {name : List UInt8}
    (h : name ∈ (listDir errno filler m ino).2) :
    name = DOT ∨ name = DOTDOT ∨ ∃ k v, m.lookup k = some v ∧ k.inode_id = ino ∧ nameBuffer v = name := by
  simp only [listDir] at h
  split at h
  · exact .inl (List.mem_singleton.mp h)
  · split at h
    · rcases List.mem_cons.mp h with rfl | h
      · exact .inl rfl
      · exact .inr (.inl (List.mem_singleton.mp h))
    · rcases List.mem_cons.mp h with rfl | h
      · exact .inl rfl
      · rcases List.mem_cons.mp h with rfl | h
        · exact .inr (.inl rfl)
        · obtain ⟨⟨k, v⟩, he, hin, hn⟩ := mem_fillDir h
          obtain ⟨k', _, hk⟩ := List.mem_filterMap.mp he
          obtain ⟨v', hv, hkv⟩ := Option.map_eq_some_iff.mp hk
          obtain ⟨rfl, rfl⟩ := Prod.mk.inj hkv
          exact .inr (.inr ⟨_, _, hv, hin, hn⟩)

theorem Gone.missing (hg : Gone old key s) (hs : s.Ok) {name : List UInt8}
    (hk : name ≠ [PATH_DELIMITER] → key.hash_id = murmur64 name 123) : Missing key name s := by
  have hnone (path : CString) (mode : InodeAccessMode) (hp : ∀ x ∈ s.found path, x.1 = key) :
      (s.acquire path mode).2 = none := by
    rcases State.acquire_spec hs.counted path mode with ⟨ha, _⟩ | ⟨k, n, ic, i, h, hf, _, _, ho, _⟩
    · rw [ha]
    · exact absurd (hp _ hf) (hg.origin_ne ho)
  refine ⟨fun path hp => ?_, fun path flags hp => ?_, fun env fh x hx hino hmem => ?_⟩
  · have ha := hnone path .read hp
    unfold State.getAttr
    split
    · rfl
    · simp_all
  · have ha := hnone path flags.mode hp
    unfold State.openFile
    split
    · rfl
    · simp_all
  · obtain ⟨i, k, d⟩ := x
    simp only [State.readDir, hx] at hmem
    rcases mem_listDir hmem with h | h | ⟨k', v, hv, hin, hname⟩
    · exact .inl h
    · exact .inr (.inl h)
    · -- a record of that name below the directory would be stored under the key
      refine .inr (.inr (by_contra fun hn => ?_))
      have hw := hs.wellFormed.stored k' v hv
      rw [nameBuffer_eq hw] at hname
      obtain ⟨ino, hash⟩ := k'
      obtain rfl : ino = key.inode_id := hin.trans hino
      obtain rfl : hash = key.hash_id := by rw [hk hn, ← hname]; exact hw.hash (hname ▸ hn)
      simp [hg.metadb] at hv

end Missing

/-- The file points at the inode handle as long as it is open. -/
def PointsAt (fh i : Nat) (s : State) : Prop := fh < s.files.length ∧ ∀ j, s.handleOf fh = some j → j = i

section Runs
variable {s s' : State} {c : Env × Op} {old : Nat → Prop} {key : MetaKey} {fh i : Nat} {h : InodeCacheHandle}

private theorem Deed.pointsAt (hc : Deed s c s') (hp : PointsAt fh i s) : PointsAt fh i s' := by
  obtain ⟨hlt, hj⟩ := hp
  have hsame (hh : State.SameHandles s s') : PointsAt fh i s' :=
    ⟨hh.length ▸ hlt, fun j hi => hj j (hh.handles fh ▸ hi)⟩
  cases hc with
  | idle _ hh | unput _ _ hh => exact hsame hh
  | peek _ _ _ _ hh => exact hsame hh
  | modify _ _ _ _ _ _ hh => exact hsame hh
  | remove _ _ _ _ _ _ hh => exact hsame hh
  | move _ _ _ _ _ _ hh => exact hsame hh
  | wrote _ _ _ hh => exact hsame hh
  | put _ _ _ _ _ hh => exact hsame hh
  | opened _ _ _ _ hf _ =>
    refine ⟨by rw [hf, length_push]; omega, fun j hi => hj j ?_⟩
    rwa [State.handleOf, hf, slot_push, if_neg (by omega)] at hi
  | openedDir _ _ _ _ hf _ => exact ⟨hf ▸ hlt, fun j hi => hj j (by rwa [State.handleOf, hf] at hi)⟩
  | closed _ _ _ _ _ hf _ =>
    exact ⟨by rw [hf, length_clear]; exact hlt, fun j hi => hj j (State.handleOf_clear hf hi)⟩
  | closedDir _ _ hf _ => exact ⟨hf ▸ hlt, fun j hi => hj j (by rwa [State.handleOf, hf] at hi)⟩

/-- The state right after a key was removed: the handles open on it are left behind, in modes
of the given kind. -/
theorem leaves_of (hh : State.SameHandles s s') (modes : InodeAccessMode → Prop) (hmodes : ¬ modes .write)
    (hm : s'.inode_cache.metadb.lookup key = none) (ht : s'.inode_cache.table key = none)
    (hkept : ∀ j h, s.pins j ≠ 0 → s.inode_cache.handle j = some (key, h) →
      ∃ h', s'.inode_cache.handle j = some (key, h') ∧ modes h'.mode_)
    (hback : ∀ j h', s.pins j ≠ 0 → s'.inode_cache.handle j = some (key, h') →
      ∃ h, s.inode_cache.handle j = some (key, h)) :
    Gone (s.OpenAt key) key s' ∧ ∀ fh, s.OpenAt key fh → ∃ i h, modes h.mode_ ∧
      Left (s.OpenAt key) key i h s' ∧ PointsAt fh i s' := by
  have hold (fh j : Nat) (h' : InodeCacheHandle) (hj : s'.handleOf fh = some j)
      (hd : s'.inode_cache.handle j = some (key, h')) : s.OpenAt key fh := by
    rw [hh.handles] at hj
    obtain ⟨h, hd⟩ := hback j h' (State.pins_of_handleOf hj) hd
    exact State.openAt_iff.mpr ⟨j, h, hj, hd⟩
  refine ⟨⟨hm, ht, fun fh ho => ?_, fun j h hp hd hw => ?_⟩, fun fh ho => ?_⟩
  · obtain ⟨j, h', hj, hd⟩ := State.openAt_iff.mp ho
    exact hold fh j h' hj hd
  · rw [hh.pins] at hp
    obtain ⟨h0, hd0⟩ := hback j h hp hd
    obtain ⟨h', hd', hmode⟩ := hkept j h0 hp hd0
    obtain ⟨_, rfl⟩ := handle_inj hd hd'
    exact hmodes (hw ▸ hmode)
  · obtain ⟨j, h, hj, hd⟩ := State.openAt_iff.mp ho
    obtain ⟨h', hd', hmode⟩ := hkept j h (State.pins_of_handleOf hj) hd
    have hlt : fh < s.files.length := by
      obtain ⟨f, hf, _⟩ := Option.map_eq_some_iff.mp hj
      exact lt_of_slot hf
    refine ⟨j, h', hmode, ⟨hd', by simp [ht], fun fh' hj' => hold fh' j h' hj' hd'⟩, hh.length ▸ hlt, ?_⟩
    intro j' hj'
    rw [hh.handles, hj] at hj'
    exact (Option.some.inj hj').symm

/-- A key stays gone until a request stores a record under it. -/
theorem Gone.run (hg : Gone old key s) (hs : s.Ok) {calls : List (Env × Op)}
    (hw : Allowed step (fun _ c => ∀ fh ∈ c.2.writer, ¬ old fh) s calls)
    (ht : Allowed step (fun t c => t.targetKey c.2 ≠ some key) s calls) :
    (run step s calls).1.Ok ∧ Gone old key (run step s calls).1 := by
  refine run_invariant (fun t => t.Ok ∧ Gone old key t) ?_ ⟨hs, hg⟩ (hw.and ht)
  rintro t ⟨env, op⟩ ⟨hok, hgone⟩ ⟨hwrite, htarget⟩
  have hc := step_deed hok.counted env op
  exact ⟨hok.step env op, hc.gone hok.counted hgone htarget hwrite⟩

/-- A handle left behind stays as it is, whatever is created meanwhile. -/
theorem Left.run (hl : Left old key i h s) (hmode : h.mode_ ≠ .write) (hp : PointsAt fh i s) (hs : s.Ok)
    {calls : List (Env × Op)} (hw : Allowed step (fun _ c => ∀ fh ∈ c.2.writer, ¬ old fh) s calls) :
    (run step s calls).1.Ok ∧ Left old key i h (run step s calls).1 ∧ PointsAt fh i (run step s calls).1 := by
  refine run_invariant (fun t => t.Ok ∧ Left old key i h t ∧ PointsAt fh i t) ?_ ⟨hs, hl, hp⟩ hw
  rintro t ⟨env, op⟩ ⟨hok, hleft, hpoints⟩ hwrite
  have hc := step_deed hok.counted env op
  exact ⟨hok.step env op, hc.left hok.counted hmode hleft hwrite, hc.pointsAt hpoints⟩

/-- Release of the file leaves the store and all inode handles but its own as they are. -/
def QuietRelease (s : State) (env : Env) (fh : Nat) : Prop :=
  (s.release env fh).1.inode_cache.metadb = s.inode_cache.metadb ∧
    ∀ j, s.handleOf fh ≠ some j → (s.release env fh).1.inode_cache.handle j = s.inode_cache.handle j

/-- Release of a handle left behind changes nothing else, unless the handle is marked for
deletion and the key has a record again. -/
theorem Left.release (hl : Left old key i h s) (hmode : h.mode_ ≠ .write) (hp : PointsAt fh i s) (hs : s.Ok)
    (hdel : ∀ x ∈ s.fileOf fh, x.2.2.mode_ = .delete → s.inode_cache.metadb.lookup key = none) (env : Env) :
    QuietRelease s env fh := by
  unfold QuietRelease State.release
  split
  · exact ⟨rfl, fun _ _ => rfl⟩
  · rename_i f k h' hf
    obtain ⟨_, hhd⟩ := State.fileOf_some.mp hf
    have hfi := State.handleOf_of_file hf
    obtain rfl : f.handle_ = i := hp.2 _ hfi
    obtain ⟨rfl, rfl⟩ := handle_inj hhd hl.handle
    obtain ⟨hm', _, hclean⟩ := touch_spec env.now h'
    obtain ⟨_, _, hothers, hm, _⟩ := Sound.close hs.counted (State.writers_of_file hf) hhd hm'
    refine ⟨?_, fun j hj => hothers j fun he => hj (he ▸ hfi)⟩
    rw [hclean hmode] at hm
    refine hm.trans ?_
    cases hcase : h'.mode_ with
    | write => exact absurd hcase hmode
    | read => simp [cleanInodeHandle, hcase]
    | delete =>
      have hnone := hdel _ hf hcase
      refine Finmap.ext_lookup fun k' => ?_
      by_cases hk : k' = k
      · subst hk
        simp [cleanInodeHandle, hcase, hnone]
      · exact lookup_clean_ne hk _ _

/-- What a whole run leaves of a removed key and of the handles open on it: the key is missing
until a request stores a record under it, and handles are released without effect unless they
are marked for deletion and there is such a record. -/
theorem left_behind_run (hs : s.Ok) (hg : Gone old key s) (modes : InodeAccessMode → Prop) (hmodes : ¬ modes .write)
    (hl : ∀ fh, old fh → ∃ i h, modes h.mode_ ∧ Left old key i h s ∧ PointsAt fh i s) {name : List UInt8}
    (hname : name ≠ [PATH_DELIMITER] → key.hash_id = murmur64 name 123) {calls : List (Env × Op)}
    (hw : Allowed step (fun _ c => ∀ fh ∈ c.2.writer, ¬ old fh) s calls) :
    let t := (run step s calls).1
    (Allowed step (fun t c => t.targetKey c.2 ≠ some key) s calls → Missing key name t) ∧
      ∀ fh, old fh → (∀ x ∈ t.fileOf fh, modes x.2.2.mode_) ∧
        ((∀ x ∈ t.fileOf fh, x.2.2.mode_ = .delete → t.inode_cache.metadb.lookup key = none) →
          ∀ env, QuietRelease t env fh) := by
  refine ⟨fun ht => ?_, fun fh hfh => ?_⟩
  · obtain ⟨hok, hgone⟩ := hg.run hs hw ht
    exact hgone.missing hok hname
  · obtain ⟨i, h, hmode, hleft, hpoints⟩ := hl fh hfh
    have hne : h.mode_ ≠ .write := fun he => hmodes (he ▸ hmode)
    obtain ⟨hok, hleft, hpoints⟩ := hleft.run hne hpoints hs hw
    refine ⟨?_, hleft.release hne hpoints hok⟩
    rintro ⟨f, k, h'⟩ hf
    have hi := hpoints.2 _ (State.handleOf_of_file hf)
    have hd := (State.fileOf_some.mp hf).2
    rw [hi] at hd
    obtain ⟨rfl, rfl⟩ := handle_inj hleft.handle hd
    exact hmode

end Runs
end TableFS
