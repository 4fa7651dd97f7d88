import TableFS.Refinement

/-! The caches are transparent as long as nobody else touches an open inode. -/
namespace TableFS
open Slots InodeCache Runs

/-- The paths whose records a request looks at or changes. -/
def Op.paths : Op → List CString
  | .getAttr path => [path]
  | .openFile path _ => [path]
  | .truncate path _ => [path]
  | .chmod path _ => [path]
  | .chown path _ _ => [path]
  | .updateTimens path _ _ => [path]
  | .readlink path _ => [path]
  | .makeNode path _ _ => [path]
  | .makeDir path _ => [path]
  | .symlink _ path => [path]
  | .unlink path => [path]
  | .removeDir path => [path]
  | .rename old_path new_path => [old_path, new_path]
  | .openDir path => [path]
  | _ => []

/-- The paths of a Rename. -/
def Op.renamed : Op → Option (CString × CString)
  | .rename old_path new_path => some (old_path, new_path)
  | _ => none

/-- Requests in complete sessions: nothing else targets a key while a handle on it is open,
records are created only on absent names, Rename is between distinct keys, and the store
does not fail. -/
def Exclusive (s : State) (c : Env × Op) : Prop :=
  (c.1.put = true ∧ c.1.commit = true) ∧
  (∀ path ∈ c.2.paths, ∀ key ∈ s.keyOf path, ¬ s.OpenOn key ∧ ¬ s.DirOn key) ∧
  (∀ path ∈ c.2.created, ∀ key ∈ s.keyOf path, s.inode_cache.metadb.lookup key = none) ∧
  ∀ r ∈ c.2.renamed, ∀ old ∈ s.keyOf r.1, ∀ new ∈ s.keyOf r.2, old ≠ new

instance (s : State) (c : Env × Op) : Decidable (Exclusive s c) := inferInstanceAs (Decidable (_ ∧ _ ∧ _ ∧ _))

theorem Exclusive.orderly {s : State} {c : Env × Op} (h : Exclusive s c) : Orderly s c := by
  obtain ⟨env, op⟩ := c
  obtain ⟨⟨_, hcommit⟩, hkeys, habs, hne⟩ := h
  have hone (path : CString) (hp : path ∈ op.paths) (key : MetaKey) (hk : key ∈ s.keyOf path) :=
    hkeys path hp key hk
  have hboth (path : CString) (hp : path ∈ op.paths) (key : MetaKey) (hk : key ∈ s.keyOf path) :
      s.Shared key ∧ ¬ s.DirOn key := ⟨fun ho => absurd ho (hone path hp key hk).1, (hone path hp key hk).2⟩
  have hnew (path : CString) (hp : path ∈ op.paths) (hc : path ∈ op.created) (key : MetaKey)
      (hk : key ∈ s.keyOf path) : s.inode_cache.metadb.lookup key = none ∧ ¬ s.OpenOn key :=
    ⟨habs path hc key hk, (hone path hp key hk).1⟩
  cases op with
  | getAttr path => exact fun key hk => (hboth path (by simp [Op.paths]) key hk).1
  | openFile path flags => exact hboth path (by simp [Op.paths])
  | truncate path n => exact hboth path (by simp [Op.paths])
  | chmod path mode => exact hboth path (by simp [Op.paths])
  | chown path uid gid => exact hboth path (by simp [Op.paths])
  | updateTimens path atim mtim => exact hboth path (by simp [Op.paths])
  | makeNode path mode dev => exact hnew path (by simp [Op.paths]) (by simp [Op.created])
  | makeDir path mode => exact hnew path (by simp [Op.paths]) (by simp [Op.created])
  | symlink target path => exact hnew path (by simp [Op.paths]) (by simp [Op.created])
  | unlink path => exact hone path (by simp [Op.paths])
  | removeDir path => exact hone path (by simp [Op.paths])
  | rename old_path new_path =>
    exact ⟨hcommit, fun old ho new hn => ⟨hne (old_path, new_path) rfl old ho new hn,
      hone old_path (by simp [Op.paths]) old ho, hone new_path (by simp [Op.paths]) new hn⟩⟩
  | openDir path => exact fun key hk => (hone path (by simp [Op.paths]) key hk).1
  | _ => trivial

/-- Whatever the capacities of the caches: entries of the inode cache are clean or belong to
an open handle, those of inodes that are not open equal the stored records, dentries give
the stored inode numbers, and every result is the one computed on the plain map. -/
theorem exclusive_runs_see_plain_map (config : Config) (env : Env) (mode : UInt32) (dev : Nat)
    (calls : List (Env × Op)) (hok : Allowed step Exclusive (State.init config env mode dev) calls) :
    let s := (run step (State.init config env mode dev) calls).1
    (∀ k i, s.inode_cache.table k = some i → ∃ h, s.inode_cache.handle i = some (k, h) ∧
      (h.mode_ = .read ∨ ∃ fh f, slot s.files fh = some f ∧ f.handle_ = i) ∧
      (¬ s.OpenOn k → s.inode_cache.metadb.lookup k = some h.value_)) ∧
    (∀ k ino, s.dentry_cache.Maps k ino →
      ∃ v, s.inode_cache.metadb.lookup k = some v ∧ v.fstat.st_ino = ino) ∧
    s.inode_cache.metadb = (run Plain.step (Plain.init config env mode dev) calls).1.metadb ∧
    (run step (State.init config env mode dev) calls).2 =
      (run Plain.step (Plain.init config env mode dev) calls).2 := by
  intro s
  obtain ⟨hout, hr⟩ := run_refines (refines_init config env mode dev) (hok.mono fun _ _ h => h.orderly)
  refine ⟨fun k i ht => ?_, hr.dentries, hr.metadb.symm, hout⟩
  obtain ⟨h, hh⟩ := hr.counted.entry ht
  refine ⟨h, hh, ?_, fun hclosed => ?_⟩
  · by_cases hw : openCount s.files i = 0
    · exact .inl (hr.coherent.table k i h ht hh hw).2.2
    · obtain ⟨fh, f, hf, he⟩ := (count_pos_iff _ _).mp (Nat.pos_of_ne_zero hw)
      exact .inr ⟨fh, f, hf, by simpa using he⟩
  · by_cases hw : openCount s.files i = 0
    · exact (hr.coherent.table k i h ht hh hw).2.1
    · have := hr.coherent.work_eq hw hh
      simp [hr.closed hclosed] at this

theorem exclusive_runs_see_plain_map_session :
    let calls := calmly [.makeNode (inRoot [97]) 0 0, .openFile (inRoot [97]) O_RDWR, .write 0 O_RDWR [1, 2, 3] 0,
      .release 0, .rename (inRoot [97]) (inRoot [98]), .getAttr (inRoot [98])]
    Allowed step Exclusive (State.fresh 2) calls ∧
      (run step (State.fresh 2) calls).2 =
        (run Plain.step (Plain.init (.source 2) .calm S_IFDIR 0) calls).2 := by
  have hok : Allowed step Exclusive (State.fresh 2) (calmly [.makeNode (inRoot [97]) 0 0,
      .openFile (inRoot [97]) O_RDWR, .write 0 O_RDWR [1, 2, 3] 0, .release 0,
      .rename (inRoot [97]) (inRoot [98]), .getAttr (inRoot [98])]) := by decide +kernel
  exact ⟨hok, (exclusive_runs_see_plain_map _ _ _ _ _ hok).2.2.2⟩

end TableFS
