import TableFS.Records

/-! How the values of records change: which value each request makes of an old one, and which
it creates. A property of values that survives these changes holds in every run, also if it is
one of the data and not only of the name. -/
namespace TableFS
open Slots InodeCache

/-- What a request makes of the value of one record: new attributes, or data that is written or
cut. -/
inductive Revised (s : State) : Env × Op → Value → Value → Prop where
  | refl {c} (v : Value) : Revised s c v v
  | attr {c} {v : Value} {st : Stat} : st.st_ino = v.fstat.st_ino → st.st_size = v.fstat.st_size →
      Revised s c v (updateAttribute v st)
  | written {env fh fi_flags buf offset f key h} : s.fileOf fh = some (f, key, h) →
      Revised s (env, .write fh fi_flags buf offset) h.value_
        (writeValue env s.threshold_ s.disk h.value_ f.fd_ f.flags_ fi_flags buf offset).2.1
  | truncated {env path new_size} (v : Value) :
      Revised s (env, .truncate path new_size) v (truncateValue env s.threshold_ s.disk v new_size).2.1

/-- The value that a request creates for a number and a name. -/
inductive Made (inode : UInt64) (filename : List UInt8) : Env × Op → Value → Prop where
  | node {env path mode dev} : Made inode filename (env, .makeNode path mode dev)
      (initInodeValue env.memory inode (mode ||| S_IFREG) dev filename env.context env.now)
  | dir {env path mode} : Made inode filename (env, .makeDir path mode)
      (initInodeValue env.memory inode (mode ||| S_IFDIR) 0 filename env.context env.now)
  | link {env target path} : Made inode filename (env, .symlink target path)
      (initSymlinkValue env.memory inode filename target.val env.context env.now)

theorem Revised.keeps {s : State} {c : Env × Op} {v v' : Value} (h : Revised s c v v') : Keeps v v' := by
  cases h with
  | refl => exact .refl v
  | attr hino _ => exact .attr hino
  | written hf => exact keeps_writeValue ..
  | truncated => exact keeps_truncateValue ..

theorem Made.named {inode : UInt64} {filename : List UInt8} {c : Env × Op} {v : Value} (h : Made inode filename c v) :
    v.Named filename := by
  cases h with
  | node => exact named_initInodeValue ..
  | dir => exact named_initInodeValue ..
  | link => exact named_initSymlinkValue ..

/-- A property of records that one request keeps: it survives what the request makes of a value,
and holds of the value that it creates or renames. -/
structure KeptBy (s : State) (c : Env × Op) (W : MetaKey → Value → Prop) : Prop where
  revised : ∀ k v v', W k v → Revised s c v v' → W k v'
  made : ∀ path key name v, c.2.created = some path → s.found path = some (key, name) →
    Made (s.max_inode_num + 1) name c v → W key v
  renamed : ∀ old_path new_path old key name v, c.2 = .rename old_path new_path →
    (pathLookup (s.looked old_path) s.inode_cache.metadb new_path).2 = some (key, name) → W old v →
    W key (renameInodeValue v name)

section
variable {s : State} {env : Env} {W : MetaKey → Value → Prop}

private theorem every_touch {fh : Nat} {key : MetaKey} {h : InodeCacheHandle} (now : Int)
    (hw : W key h.value_) (hrev : ∀ k v v', W k v → Revised s (env, .release fh) v v' → W k v') :
    W key (State.touch now h).value_ := by
  unfold State.touch
  split
  · exact hrev _ _ _ hw (.attr rfl rfl)
  · exact hw

private theorem every_setAttribute (hs : s.Counted) {c : Env × Op} (path : CString) {f : Stat → Stat}
    (hf : ∀ st, (f st).st_ino = st.st_ino ∧ (f st).st_size = st.st_size)
    (hrev : ∀ k v v', W k v → Revised s c v v' → W k v') (hv : s.inode_cache.Every W) :
    (s.setAttribute path f).1.inode_cache.Every W := by
  unfold State.setAttribute
  rcases State.acquire_spec hs path .write with ⟨ha, _⟩ | ⟨key, name, ic, i, h, _, ha, hp, ho, hs'⟩
  · rw [ha]
    exact hv
  · rw [ha]
    exact hv.modify hp ho hs' rfl (hrev _ _ _ (hv.got ho) (.attr (hf _).1 (hf _).2))

private theorem every_create {path : CString} {value : UInt64 → List UInt8 → Value}
    (hmade : ∀ key name, s.found path = some (key, name) → W key (value (s.max_inode_num + 1) name))
    (hv : s.inode_cache.Every W) : (s.create env path value).1.inode_cache.Every W := by
  unfold State.create
  rw [State.lookup_eq]
  rcases hf : s.found path with _ | ⟨key, name⟩
  · exact hv
  · dsimp only
    split
    · exact hv.put (hmade key name hf)
    · exact hv

private theorem every_remove (hs : s.Counted) (path : CString) (hv : s.inode_cache.Every W) :
    (s.unlink path).1.inode_cache.Every W ∧ (s.removeDir path).1.inode_cache.Every W := by
  unfold State.unlink State.removeDir
  rcases State.acquire_spec hs path .delete with ⟨ha, _⟩ | ⟨key, name, ic, i, h, _, ha, hp, ho, hs'⟩
  · rw [ha]
    exact ⟨hv, hv⟩
  · rw [ha]
    exact ⟨hv.remove hs hp ho hs', hv.remove hs hp ho hs'⟩

private theorem every_rename (hs : s.Counted) {old_path new_path : CString}
    (hmove : ∀ old key name v,
      (pathLookup (s.looked old_path) s.inode_cache.metadb new_path).2 = some (key, name) → W old v →
      W key (renameInodeValue v name))
    (hv : s.inode_cache.Every W) : (s.rename env old_path new_path).1.inode_cache.Every W := by
  unfold State.rename
  rw [State.lookup_eq]
  rcases s.found old_path with _ | ⟨old, oname⟩
  · exact hv
  · simp only [State.lookup_eq]
    rcases hfn : State.found { s with dentry_cache := s.looked old_path } new_path with _ | ⟨new, name⟩
    · exact hv
    · simp only
      generalize State.looked _ new_path = d
      unfold State.renameKey
      rcases State.getInode_spec (s := { s with dentry_cache := d }) hs old .delete with
        ⟨hg, _⟩ | ⟨ic, i, h, hg, hp, ho, hs'⟩
      · simp only [hg]
        exact hv
      · simp only [hg]
        exact hv.move hp ho hs' (hmove old new name h.value_ hfn (hv.got ho)) env.commit

/-- What a request keeps, every record has after it. -/
theorem KeptBy.step (hs : s.Counted) {op : Op} (hk : KeptBy s (env, op) W) (hv : s.inode_cache.Every W) :
    (step s (env, op)).1.inode_cache.Every W := by
  cases op with
  | getAttr path =>
    simp only [TableFS.step, State.getAttr]
    rcases State.acquire_spec hs path .read with ⟨ha, _⟩ | ⟨key, name, ic, i, h, _, ha, hp, ho, hs'⟩
    · rw [ha]
      exact hv
    · rw [ha]
      exact hv.peek hs hp ho hs'
  | openFile path flags =>
    simp only [TableFS.step, State.openFile]
    rcases State.acquire_spec hs path flags.mode with ⟨ha, _⟩ | ⟨key, name, ic, i, h, _, ha, hp, ho, hs'⟩
    · rw [ha]
      exact hv
    · rw [ha]
      exact hv.placed hp ho
  | read fh size offset =>
    simp only [TableFS.step, State.read]
    split <;> exact hv
  | write fh flags buf offset =>
    simp only [TableFS.step, State.write]
    split
    · exact hv
    · rename_i f key h hf
      have hd := (State.fileOf_some.mp hf).2
      exact hv.update hd (hk.revised _ _ _ (hv.cached _ _ _ hd) (.written hf))
  | release fh =>
    simp only [TableFS.step, State.release]
    split
    · exact hv
    · rename_i f key h hf
      have hd := (State.fileOf_some.mp hf).2
      exact hv.close hs (State.writers_of_file hf) hd (touch_spec env.now h).1
        (every_touch env.now (hv.cached _ _ _ hd) hk.revised)
  | truncate path n =>
    simp only [TableFS.step, State.truncate]
    rcases State.acquire_spec hs path .write with ⟨ha, _⟩ | ⟨key, name, ic, i, h, _, ha, hp, ho, hs'⟩
    · rw [ha]
      exact hv
    · rw [ha]
      exact hv.modify (g := fun h' => { h' with value_ := (truncateValue env s.threshold_ s.disk h.value_ n).2.1 })
        hp ho hs' rfl (hk.revised _ _ _ (hv.got ho) (.truncated h.value_))
  | chmod path mode =>
    exact every_setAttribute hs path (f := fun st => { st with st_mode := mode }) (fun _ => ⟨rfl, rfl⟩) hk.revised hv
  | chown path uid gid =>
    exact every_setAttribute hs path (f := fun st => { st with st_uid := uid, st_gid := gid })
      (fun _ => ⟨rfl, rfl⟩) hk.revised hv
  | updateTimens path atim mtim =>
    exact every_setAttribute hs path (f := fun st => { st with st_atim := atim, st_mtim := mtim })
      (fun _ => ⟨rfl, rfl⟩) hk.revised hv
  | readlink path size =>
    simp only [TableFS.step, State.readlink, State.lookup_eq]
    split
    · rename_i heq
      exact (Prod.mk.inj heq).1 ▸ hv
    · rename_i heq
      obtain ⟨rfl, -⟩ := Prod.mk.inj heq
      split <;> exact hv
  | makeNode path mode dev =>
    simp only [TableFS.step, State.makeNode]
    exact every_create (fun key name hf => hk.made path key name _ rfl hf .node) hv
  | makeDir path mode =>
    simp only [TableFS.step, State.makeDir]
    exact every_create (fun key name hf => hk.made path key name _ rfl hf .dir) hv
  | symlink target path =>
    simp only [TableFS.step, State.symlink]
    exact every_create (fun key name hf => hk.made path key name _ rfl hf .link) hv
  | unlink path => exact (every_remove hs path hv).1
  | removeDir path => exact (every_remove hs path hv).2
  | rename old_path new_path => exact every_rename hs (fun old key name v => hk.renamed _ _ old key name v rfl) hv
  | openDir path =>
    simp only [TableFS.step, State.openDir, State.lookup_eq]
    rcases s.found path with _ | ⟨key, name⟩
    · exact hv
    · rcases State.getInode_spec (s := { s with dentry_cache := s.looked path }) hs key .read with
        ⟨hg, _⟩ | ⟨ic, i, h, hg, hp, ho, hs'⟩
      · simp only [hg]
        exact hv
      · simp only [hg]
        exact hv.placed hp ho
  | readDir fh =>
    simp only [TableFS.step, State.readDir]
    split <;> exact hv
  | releaseDir fh =>
    simp only [TableFS.step, State.releaseDir]
    split
    · exact hv
    · rename_i i hslot
      obtain ⟨k, h, hd⟩ := State.Counted.handle_of_dir hs hslot
      exact hv.release hs (Nat.ne_zero_of_lt (State.pins_of_dir hslot)) hd

end
end TableFS
