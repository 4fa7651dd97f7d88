import TableFS.RenameLoss

/-! Chmod, Chown and UpdateTimens: the handle they find is updated, written back and left clean.
An open file that shares the handle loses nothing by it, since what it has written goes to
the store with the attributes; but to find the handle, the cache may push out that of another
open file, and then GetAttr and Open give what the store has for it. -/
namespace TableFS
open Slots InodeCache Runs

/-- The path of an attribute update, and what it does to the attributes. -/
def Op.attributes : Op → Option (CString × (Stat → Stat))
  | .chmod path mode => some (path, fun st => { st with st_mode := mode })
  | .chown path uid gid => some (path, fun st => { st with st_uid := uid, st_gid := gid })
  | .updateTimens path atim mtim => some (path, fun st => { st with st_atim := atim, st_mtim := mtim })
  | _ => none

/-- A request that only reads through an open file, or closes one. -/
def Op.winds : Op → Bool
  | .read _ _ _ => true
  | .release _ => true
  | _ => false

/-- No other handle than the one in the table is open on a key. -/
def State.Sole (s : State) (key : MetaKey) : Prop :=
  ∀ fh f h, s.fileOf fh = some (f, key, h) → s.inode_cache.table key = some f.handle_

/-- A value with other attributes, and the same number, size, storage flag, name and data. -/
structure Reattributed (f : Stat → Stat) (v v' : Value) : Prop where
  fstat : v'.fstat = f v.fstat
  ino : v'.fstat.st_ino = v.fstat.st_ino
  size : v'.fstat.st_size = v.fstat.st_size
  has_blob : v'.header.has_blob = v.header.has_blob
  namelen : v'.header.namelen = v.header.namelen
  body : v'.body = v.body

/-- An entry leaves the cache whose value is not the one in the store. -/
def InodeCache.Forgets (ic ic' : InodeCache) : Prop :=
  ∃ k i h, ic.table k = some i ∧ ic.handle i = some (k, h) ∧ ic'.table k = none ∧ ic.metadb.lookup k ≠ some h.value_

/-- A key has the value v' in the store, for GetAttr and for the files open on it. The records of
other keys and the files open on them are as they were, and so is what GetAttr and Open find under
them, exactly if Get pushes no entry out of the cache whose value is not in the store. -/
structure Spreads (s s' : State) (key : MetaKey) (v' : Value) : Prop where
  stored : s'.inode_cache.metadb.lookup key = some v'
  attr : ∀ path name, s'.found path = some (key, name) → (s'.getAttr path).2 = { ret := 0, stat := some v'.fstat }
  opened : ∀ fh f h, s.fileOf fh = some (f, key, h) → s'.fileOf fh = some (f, key, ⟨v', .read⟩)
  others : ∀ k, k ≠ key → s'.inode_cache.metadb.lookup k = s.inode_cache.metadb.lookup k ∧
    ∀ fh f h, s.fileOf fh = some (f, k, h) → s'.fileOf fh = some (f, k, h)
  visible : ∀ k, k ≠ key → s'.visible k =
    if ((s.inode_cache.get key .write).1.table k).isSome then s.visible k else s.inode_cache.metadb.lookup k
  untouched : (∀ k, k ≠ key → s'.visible k = s.visible k) ↔ ¬ s.inode_cache.Forgets (s.inode_cache.get key .write).1
  rest : s'.files = s.files ∧ s'.dirs = s.dirs ∧ s'.disk = s.disk ∧ s'.max_inode_num = s.max_inode_num

/-- The store has the value of a key, and no file open on the key is to write it again. -/
structure Flushed (key : MetaKey) (v : Value) (s : State) : Prop where
  stored : s.inode_cache.metadb.lookup key = some v
  clean : ∀ fh f h, s.fileOf fh = some (f, key, h) → h.mode_ = .read

section
variable {s s' : State} {path : CString} {key : MetaKey} {name : List UInt8} {v : Value} {f : Stat → Stat}

private theorem reattributed (hino : ∀ st, (f st).st_ino = st.st_ino) (hsize : ∀ st, (f st).st_size = st.st_size) :
    Reattributed f v (updateAttribute v (f v.fstat)) :=
  ⟨rfl, hino v.fstat, hsize v.fstat, rfl, rfl, rfl⟩

private theorem getAttr_of_visible (hs : s.Counted) (hfound : s.found path = some (key, name))
    (hv : s.visible key = some v) :
    (s.getAttr path).2 = { ret := 0, stat := some v.fstat } := by
  obtain ⟨ic, i, h, rfl, ha, _⟩ := State.acquire_of_visible hs hfound hv .read
  unfold State.getAttr
  rw [ha]

private theorem visible_other {ic : InodeCache} {mode : InodeAccessMode} {i : Nat} {h : InodeCacheHandle}
    {k : MetaKey} (hs : s.Counted) (hp : Placed s.inode_cache ic key i h)
    (ho : Origin s.inode_cache ic key mode i h) (hk : k ≠ key) (ht : s'.inode_cache.table k = ic.table k)
    (hh : ∀ j, j ≠ i → s'.inode_cache.handle j = s.inode_cache.handle j)
    (hm : s'.inode_cache.metadb.lookup k = s.inode_cache.metadb.lookup k) :
    s'.visible k = if (ic.table k).isSome then s.visible k else s.inode_cache.metadb.lookup k := by
  rw [State.visible, State.visible, ht]
  cases htab : ic.table k with
  | none => exact hm
  | some j =>
    have hold := ((hp.table k j htab).resolve_left fun hc => hk hc.1).2
    obtain ⟨h', hh'⟩ := hs.entry hold
    simp only [hold, hh j (ho.ne_of_handle hk hh'), Option.isSome_some, if_true]

private theorem visible_others_iff {ic : InodeCache} (hs : s.Counted)
    (hself : ic.table key = none → s.inode_cache.table key = none)
    (hvisible : ∀ k, k ≠ key → s'.visible k = if (ic.table k).isSome then s.visible k else s.inode_cache.metadb.lookup k) :
    (∀ k, k ≠ key → s'.visible k = s.visible k) ↔ ¬ s.inode_cache.Forgets ic := by
  constructor
  · rintro hall ⟨k, j, h', ht, hh, hgone, hne⟩
    have hk : k ≠ key := by
      rintro rfl
      rw [hself hgone] at ht
      cases ht
    have hv := hall k hk
    rw [hvisible k hk, hgone, State.visible, ht] at hv
    exact hne (by simpa [hh] using hv)
  · intro hkeep k hk
    rw [hvisible k hk]
    cases hgone : ic.table k with
    | some j => rfl
    | none =>
      rw [State.visible]
      cases ht : s.inode_cache.table k with
      | none => rfl
      | some j =>
        obtain ⟨h', hh⟩ := hs.entry ht
        by_contra hne
        refine hkeep ⟨k, j, h', ht, hh, hgone, fun he => hne ?_⟩
        simp [hh, he]

private theorem acquire_inode_cache (hfound : s.found path = some (key, name)) (mode : InodeAccessMode) :
    (s.acquire path mode).1.inode_cache = (s.inode_cache.get key mode).1 := by
  unfold State.acquire
  rw [State.lookup_eq, hfound]
  rfl

private theorem setAttribute_spec (hs : s.Counted) (hfound : s.found path = some (key, name)) (hsole : s.Sole key)
    (hret : (s.setAttribute path f).2.ret = 0) :
    ∃ v, s.visible key = some v ∧ (s.setAttribute path f).1.Counted ∧
      Spreads s (s.setAttribute path f).1 key (updateAttribute v (f v.fstat)) := by
  unfold State.setAttribute at hret ⊢
  rcases State.acquire_spec hs path .write with ⟨ha, _⟩ | ⟨key', name', ic, i, h, hf, ha, hp, ho, hs'⟩
  · rw [ha] at hret
    change -(ENOENT : Int) = 0 at hret
    exact absurd hret (by decide)
  · obtain ⟨rfl, rfl⟩ := Prod.mk.inj (Option.some.inj (hfound.symm.trans hf))
    have hic : ic = (s.inode_cache.get key .write).1 := by rw [← acquire_inode_cache hfound .write, ha]
    rw [ha]
    obtain ⟨ht, hself, hother, hm, hcounted⟩ := Sound.modify (g := fun h => { h with
      value_ := updateAttribute h.value_ (f h.value_.fstat) }) hp ho hs' rfl
    have hlookup (k : MetaKey) (hk : k ≠ key) :
        (s.inode_cache.metadb.insert key (updateAttribute h.value_ (f h.value_.fstat))).lookup k =
          s.inode_cache.metadb.lookup k :=
      Finmap.lookup_insert_of_ne _ hk
    let s' : State := { s with
      dentry_cache := s.looked path, inode_cache := ((ic.update i fun h => { h with
        value_ := updateAttribute h.value_ (f h.value_.fstat) }).writeBack i).release i }
    have hvisible (k : MetaKey) (hk : k ≠ key) :
        s'.visible k = if (ic.table k).isSome then s.visible k else s.inode_cache.metadb.lookup k :=
      visible_other hs hp ho hk (congrFun ht k) hother (hm ▸ hlookup k hk)
    -- a hit leaves the key in the table
    have hkept : ic.table key = none → s.inode_cache.table key = none := fun hnone => by
      cases ho with
      | hit h htable _ hstays => exact absurd (hnone.symm.trans hstays) nofun
      | miss v htable => exact htable
    refine ⟨h.value_, State.visible_of_origin ho, hcounted, ?_, fun p n hpath => getAttr_of_visible hcounted hpath ?_,
      fun fh x h' hx => ?_, fun k hk => ⟨?_, fun fh x h' hx => ?_⟩, hic ▸ hvisible,
      hic ▸ visible_others_iff hs hkept hvisible, rfl, rfl, rfl, rfl⟩
    · simp [hm]
    · exact State.visible_modify (s := s) (g := fun h => { h with
        value_ := updateAttribute h.value_ (f h.value_.fstat) }) hp ho hs' rfl rfl
    · obtain ⟨hslot, _⟩ := State.fileOf_some.mp hx
      obtain rfl : x.handle_ = i := by
        rcases ho.value with ⟨h0, htab, _, _⟩ | ⟨htab, _, _⟩
        · exact Option.some.inj ((hsole fh x h' hx).symm.trans htab)
        · exact absurd ((hsole fh x h' hx).symm.trans htab) nofun
      exact State.fileOf_some.mpr ⟨hslot, hself⟩
    · exact (congrArg (·.lookup k) hm).trans (hlookup k hk)
    · obtain ⟨hslot, hh⟩ := State.fileOf_some.mp hx
      exact State.fileOf_some.mpr ⟨hslot, (hother _ (ho.ne_of_handle hk hh)).trans hh⟩

end

section
variable {key : MetaKey} {v : Value} {s : State}

theorem Flushed.read (hf : Flushed key v s) (env : Env) (fh size offset : Nat) :
    Flushed key v (s.read env fh size offset).1 := by
  unfold State.read
  split
  · exact ⟨hf.stored, hf.clean⟩
  · rename_i f k h hx
    obtain ⟨hslot, hh⟩ := State.fileOf_some.mp hx
    refine ⟨hf.stored, fun fh' f' h' hx' => ?_⟩
    obtain ⟨hslot', hh'⟩ := State.fileOf_some.mp hx'
    rw [slot_replace (lt_of_slot hslot)] at hslot'
    split at hslot'
    · obtain rfl := Option.some.inj hslot'
      exact hf.clean fh f h' (State.fileOf_some.mpr ⟨hslot, hh'⟩)
    · exact hf.clean fh' f' h' (State.fileOf_some.mpr ⟨hslot', hh'⟩)

theorem Flushed.release (hf : Flushed key v s) (hs : s.Counted) (env : Env) (fh : Nat) :
    Flushed key v (s.release env fh).1 := by
  unfold State.release
  split
  · exact ⟨hf.stored, hf.clean⟩
  · rename_i f k h hx
    obtain ⟨hslot, hh⟩ := State.fileOf_some.mp hx
    obtain ⟨hmode, _, hsame⟩ := touch_spec env.now h
    obtain ⟨_, hself, hother, hm, _⟩ := Sound.close hs (State.writers_of_file hx) hh hmode
    refine ⟨?_, fun fh' f' h' hx' => ?_⟩
    · -- the file was on this key, and clean, or it is written under another one
      rw [hm]
      by_cases hk : key = k
      · subst hk
        have hclean := hf.clean fh f h hx
        rw [hsame (by simp [hclean])]
        simp only [cleanInodeHandle, hclean]
        exact hf.stored
      · rw [lookup_clean_ne hk]
        exact hf.stored
    · obtain ⟨hslot', hh'⟩ := State.fileOf_some.mp hx'
      rw [slot_clear] at hslot'
      split at hslot'
      · cases hslot'
      · by_cases hi : f'.handle_ = f.handle_
        · rw [hi] at hh'
          obtain ⟨rfl, rfl⟩ := handle_inj hh' hself
          simp only [hf.clean fh f h hx, settled]
        · exact hf.clean fh' f' h' (State.fileOf_some.mpr ⟨hslot', (hother _ hi).symm.trans hh'⟩)

/-- Reading and closing keeps what is stored under a key once no open file is to write it. -/
theorem Flushed.step (hf : Flushed key v s) (hs : s.Counted) {c : Env × Op} (hc : c.2.winds = true) :
    Flushed key v (step s c).1 := by
  obtain ⟨env, op⟩ := c
  cases op with
  | read fh size offset => exact hf.read env fh size offset
  | release fh => exact hf.release hs env fh
  | _ => cases hc

end

/-- The files of one shard of the cache, as many as it takes with the one that is open. -/
def neighbours : List CString :=
  let names : List (List UInt8) :=
    [1, 24, 39, 94, 98, 99, 111, 112, 113, 134, 176, 181, 203, 211, 217, 234, 237, 244].map ([·]) ++
      [4, 19, 21, 40, 57, 59, 60, 80, 81, 102, 118, 141, 154].map ([98, ·])
  names.filterMap fun name => if h : 0 ∉ name then some (inRoot name h) else none

end TableFS
