import TableFS.Contents
import TableFS.Inventory
import TableFS.Sizes
import TableFS.Subtree

/-! Data files and the records they belong to. Renames move records and not data files, and
what a Rename replaces goes without its data file. -/
namespace TableFS
open Slots Disk Runs

/-- The data files of a state without caches are accounted for, and a working copy that was not
written to is the stored value. -/
structure Plain.Inventoried (p : Plain) : Prop where
  clean : ∀ k h, p.work k = some h → h.mode_ = .write ∨ p.metadb.lookup k = some h.value_
  inventory : Inventory p.threshold_ p.disk p.current

namespace Plain.Inventoried
variable {p p' : Plain} {env : Env} {key : MetaKey} {path : CString}

private theorem onKey (hp : p.Inventoried) (key : MetaKey) (hthr : p'.threshold_ = p.threshold_)
    (hclean : ∀ h, p'.work key = some h → h.mode_ = .write ∨ p'.metadb.lookup key = some h.value_)
    (hother : ∀ k, k ≠ key → p'.work k = p.work k ∧ p'.metadb.lookup k = p.metadb.lookup k)
    (hacc : Inventory p.threshold_ p'.disk (Function.update p.current key (p'.current key))) : p'.Inventoried := by
  refine ⟨fun k h hk => ?_, ?_⟩
  · by_cases hke : k = key
    · subst hke
      exact hclean h hk
    · rw [(hother k hke).1] at hk
      rw [(hother k hke).2]
      exact hp.clean k h hk
  · rw [hthr]
    convert hacc using 1
    funext k
    by_cases hke : k = key
    · rw [hke, Function.update_self]
    · rw [Function.update_of_ne hke, Plain.current, Plain.current, (hother k hke).1, (hother k hke).2]

private theorem copy_clean (hp : p.Inventoried) {mode : InodeAccessMode} (hm : mode ≠ .delete) {h : InodeCacheHandle}
    (hc : copyOf p.metadb p.work key mode = some h) : h.mode_ = .write ∨ p.metadb.lookup key = some h.value_ := by
  unfold copyOf at hc
  split at hc
  · rename_i h0 hk
    obtain rfl := Option.some.inj hc
    cases mode with
    | read => exact hp.clean key h0 hk
    | write => exact .inl rfl
    | delete => exact absurd rfl hm
  · obtain ⟨v, hv, rfl⟩ := Option.map_eq_some_iff.mp hc
    exact .inr hv

/-- A request through a handle: the working copy and the data file change. -/
theorem work (hp : p.Inventoried) {v : Value} (hv : p.current key = some v) {h : InodeCacheHandle} {d : Disk}
    (hr : Refiles p.threshold_ p.disk v d h.value_) (hclean : h.mode_ = .write ∨ p.metadb.lookup key = some h.value_)
    (files : List (Option PlainFile)) :
    ({ p with disk := d, work := Function.update p.work key (some h), files := files } : Plain).Inventoried := by
  refine hp.onKey key rfl (fun h' hh' => ?_) (fun k hk => ⟨Function.update_of_ne hk _ _, rfl⟩) ?_
  · dsimp only at hh'
    rw [Function.update_self] at hh'
    obtain rfl := Option.some.inj hh'
    exact hclean
  · convert hp.inventory.update hv hr using 2
    simp [Plain.current]

theorem openFile (hp : p.Inventoried) (path : CString) (flags : OpenFlags) : (p.openFile path flags).1.Inventoried := by
  unfold Plain.openFile
  split
  · exact hp
  · rename_i key h hacq
    have hcopy := Plain.copy_of_acquire hacq
    have hcur := copyOf_value hcopy
    have hfiled := hp.inventory.filed key _ hcur
    refine hp.work hcur (hfiled.same (.refl _) rfl fun q => ?_) (hp.copy_clean flags.mode_ne_delete hcopy) _
    by_cases hb : 0 < h.value_.header.has_blob
    · rw [if_pos hb]
      exact mem_names_lazyOpen (hfiled.file.mp hb) none flags q
    · rw [if_neg hb]

theorem read (hp : p.Inventoried) (env : Env) (fh size offset : Nat) : (p.read env fh size offset).1.Inventoried := by
  unfold Plain.read
  split
  · exact hp
  · rename_i f h hf
    have hw := (Plain.slot_of_fileOf hf).2
    have hfiled := hp.inventory.filed f.key _ (current_of_work hw)
    have hnames (q : DiskPath) : q ∈ (readValue env p.disk h.value_ f.fd_ f.flags_ size offset).1.names ↔
        q ∈ p.disk.names := by
      unfold readValue
      by_cases hb : 0 < h.value_.header.has_blob
      · rw [if_pos hb]
        exact mem_names_lazyOpen (hfiled.file.mp hb) _ _ q
      · rw [if_neg hb]
    have hback := hp.work (current_of_work hw) (hfiled.same (.refl _) rfl hnames) (hp.clean f.key h hw)
    rw [← hw, Function.update_eq_self] at hback
    exact hback _

theorem write (hp : p.Inventoried) (fh : Nat) (fi_flags : OpenFlags) (buf : List UInt8) (offset : Nat)
    (hcopy : ∀ f h, p.fileOf fh = some (f, h) → h.value_.header.has_blob = 0 →
      p.threshold_ < offset + buf.length → 0 < h.value_.fstat.st_size →
      env.migrate = .full ∧ fi_flags.writable = true) : (p.write env fh fi_flags buf offset).1.Inventoried := by
  unfold Plain.write
  split
  · exact hp
  · rename_i f h hf
    have hcur := current_of_work (Plain.slot_of_fileOf hf).2
    exact hp.work hcur ((hp.inventory.filed f.key _ hcur).write _ _ _ _ (hcopy f h hf)) (.inl rfl) _

theorem release (hp : p.Inventoried) (hl : Live p.metadb p.work) (env : Env) (fh : Nat) :
    (p.release env fh).1.Inventoried := by
  unfold Plain.release
  split
  · exact hp
  · rename_i f h hf
    have hw := (Plain.slot_of_fileOf hf).2
    have hcur := current_of_work hw
    have hstored := clean_lookup_eq env.now (hl f.key h hw).1 (hp.clean f.key h hw)
    have hext : (State.touch env.now h).value_.extent = h.value_.extent := by
      unfold State.touch
      split <;> rfl
    refine hp.onKey f.key rfl (fun h' hh' => .inr ?_)
      (fun k hk => ⟨Function.update_of_ne hk _ _, InodeCache.lookup_clean_ne hk _ _⟩) ?_
    · dsimp only at hh'
      rw [Function.update_self] at hh'
      split at hh'
      · obtain rfl := Option.some.inj hh'
        exact hstored
      · cases hh'
    · convert hp.inventory.update hcur ((hp.inventory.filed f.key _ hcur).same (touch_spec env.now h).2.1 hext
        fun q => by rw [names_closeHandle p.disk f.fd_]) using 2
      simp only [Plain.current, Function.update_self]
      split
      · rename_i h' hh'
        split at hh'
        · obtain rfl := Option.some.inj hh'
          rfl
        · cases hh'
      · exact hstored

/-- A value is stored, in the map and in the working copy. -/
theorem store (hp : p.Inventoried) {v : Value} (hv : p.current key = some v) {d : Disk} {v' : Value}
    (hr : Refiles p.threshold_ p.disk v d v') : (({ p with disk := d } : Plain).store key v').Inventoried := by
  refine hp.onKey key rfl (fun h' hh' => .inr ?_)
    (fun k hk => ⟨Function.update_of_ne hk _ _, Finmap.lookup_insert_of_ne _ hk⟩) ?_
  · simp only [Plain.store, Function.update_self] at hh'
    obtain ⟨_, _, rfl⟩ := Option.map_eq_some_iff.mp hh'
    exact Finmap.lookup_insert _
  · have hcur : (({ p with disk := d } : Plain).store key v').current key = some v' := by
      unfold Plain.current Plain.store
      cases hw : p.work key <;> simp
    rw [hcur]
    exact hp.inventory.update hv hr

theorem truncate (hp : p.Inventoried) (env : Env) (path : CString) (new_size : Nat) :
    (p.truncate env path new_size).1.Inventoried := by
  unfold Plain.truncate
  split
  · exact hp
  · rename_i key h hacq
    have hcur := copyOf_value (Plain.copy_of_acquire hacq)
    exact hp.store hcur ((hp.inventory.filed key _ hcur).truncate new_size)

theorem setAttribute (hp : p.Inventoried) (path : CString) {f : Stat → Stat} (hino : ∀ st, (f st).st_ino = st.st_ino)
    (hsize : ∀ st, (f st).st_size = st.st_size) : (p.setAttribute path f).1.Inventoried := by
  unfold Plain.setAttribute
  split
  · exact hp
  · rename_i key h hacq
    have hcur := copyOf_value (Plain.copy_of_acquire hacq)
    exact hp.store (d := p.disk) hcur ((hp.inventory.filed key _ hcur).same (.attr (hino _))
      (extent_updateAttribute (hsize _)) fun _ => Iff.rfl)

/-- A new value has no data file, and the path of no other. -/
theorem create (hp : p.Inventoried) (hl : Live p.metadb p.work) {value : UInt64 → List UInt8 → Value}
    (hvalue : ∀ inode name, (value inode name).Sized ∧
      (value inode name).fstat.st_ino = inode ∧ ∃ inline, (value inode name).extent = ⟨0, 0, inline⟩)
    (habs : ∀ key ∈ (resolve p.metadb path).map Prod.fst, p.metadb.lookup key = none)
    (hnew : ∀ k v, p.metadb.lookup k = some v →
      getDiskFilePath v.fstat.st_ino ≠ getDiskFilePath (p.max_inode_num + 1)) :
    (p.create env path value).1.Inventoried := by
  unfold Plain.create
  split
  · exact hp
  · rename_i key name hres
    dsimp only
    split
    · obtain ⟨hs, hi, inline, he⟩ := hvalue (p.max_inode_num + 1) name
      have hnone := habs key (by simp [hres])
      have hclosed := hl.work_eq_none hnone
      refine hp.onKey key rfl (fun h hh => by simp [hclosed] at hh)
        (fun k hk => ⟨rfl, Finmap.lookup_insert_of_ne _ hk⟩) ?_
      have hcur : p.current key = none := by simp [Plain.current, hclosed, hnone]
      convert hp.inventory.insert hcur hs (he ▸ Extent.ranged_empty _ inline) (congrArg Extent.has_blob he)
        (fun k w hk => ?_) using 2
      · simp [Plain.current, hclosed]
      · obtain ⟨v, hv, hiv⟩ := hl.current hk
        rw [dataPath, dataPath, hi, ← hiv]
        exact hnew k v hv
    · exact ⟨hp.clean, hp.inventory⟩

/-- A closed file goes with its record and its data file. -/
theorem erase (hp : p.Inventoried) (hclosed : p.work key = none) {v : Value} (hv : p.current key = some v) {d : Disk}
    (hn : ∀ q, q ∈ d.names ↔ q ≠ dataPath v ∧ q ∈ p.disk.names) :
    ({ p with disk := d, metadb := p.metadb.erase key } : Plain).Inventoried := by
  refine hp.onKey key rfl (fun h hh => by simp [hclosed] at hh) (fun k hk => ⟨rfl, Finmap.lookup_erase_ne hk⟩) ?_
  convert hp.inventory.erase hv hn using 2
  simp [Plain.current, hclosed]

theorem unlink (hp : p.Inventoried) (path : CString)
    (hclosed : ∀ key h, p.acquire path .delete = some (key, h) → p.work key = none) :
    (p.unlink path).1.Inventoried := by
  unfold Plain.unlink
  split
  · exact hp
  · rename_i key h hacq
    have hcur := copyOf_value (Plain.copy_of_acquire hacq)
    have hfiled := hp.inventory.filed key _ hcur
    refine hp.erase (hclosed key h hacq) hcur fun q => ?_
    split
    · exact mem_names_unlinkFile ..
    · rename_i hle
      refine ⟨fun hq => ⟨?_, hq⟩, And.right⟩
      rintro rfl
      exact hle (hfiled.ranged.onDisk (hfiled.file.mpr hq))

/-- RemoveDir does not look for a data file, so there must be none. -/
theorem removeDir (hp : p.Inventoried) (path : CString)
    (hclosed : ∀ key h, p.acquire path .delete = some (key, h) → p.work key = none ∧ h.value_.header.has_blob = 0) :
    (p.removeDir path).1.Inventoried := by
  unfold Plain.removeDir
  split
  · exact hp
  · rename_i key h hacq
    obtain ⟨hclosed, h0⟩ := hclosed key h hacq
    have hcur := copyOf_value (Plain.copy_of_acquire hacq)
    have hfiled := hp.inventory.filed key _ hcur
    refine hp.erase (d := p.disk) hclosed hcur fun q => ⟨fun hq => ⟨?_, hq⟩, And.right⟩
    rintro rfl
    exact absurd (hfiled.file.mpr hq) (by rw [h0]; exact Nat.lt_irrefl 0)

theorem rename (hp : p.Inventoried) {old_path new_path : CString}
    (hkeys : ∀ old ∈ (resolve p.metadb old_path).map Prod.fst, ∀ new ∈ (resolve p.metadb new_path).map Prod.fst,
      old ≠ new ∧ p.work old = none ∧ p.work new = none ∧ ∀ v, p.metadb.lookup new = some v → v.header.has_blob = 0) :
    (p.rename old_path new_path).1.Inventoried := by
  unfold Plain.rename
  split
  · rename_i old oname new name hro hrn
    obtain ⟨hne, hold, hnew, hbare⟩ := hkeys old (by simp [hro]) new (by simp [hrn])
    split
    · exact hp
    · rename_i h hcopy
      have hcur := copyOf_value hcopy
      have hnewcur : p.current new = p.metadb.lookup new := by simp [Plain.current, hnew]
      refine ⟨fun k h' hk => ?_, ?_⟩
      · have hkn : k ≠ new := by
          rintro rfl
          simp [hnew] at hk
        have hko : k ≠ old := by
          rintro rfl
          simp [hold] at hk
        rw [Finmap.lookup_insert_of_ne _ hkn, Finmap.lookup_erase_ne hko]
        exact hp.clean k h' hk
      · have hmoved := hp.inventory.move hcur (fun w hw => hbare w (hnewcur ▸ hw))
          ((hp.inventory.filed old _ hcur).renamed name)
        convert hmoved using 1
        funext k
        by_cases hkn : k = new
        · subst hkn
          simp [Plain.current, hnew]
        · by_cases hko : k = old
          · subst hko
            simp [Plain.current, hold, hkn, Finmap.lookup_insert_of_ne _ hkn]
          · simp [hkn, hko, Plain.current, Finmap.lookup_insert_of_ne _ hkn, Finmap.lookup_erase_ne hko]
  · exact hp

end Plain.Inventoried

/-- There is no record under the key, or one without a data file. -/
def State.Bare (s : State) (key : MetaKey) : Prop := ∀ v ∈ s.inode_cache.metadb.lookup key, v.header.has_blob = 0

/-- Requests after which data files and records still match: the inline data that a Write moves to disk gets
there, and what a Rename replaces or a RemoveDir removes has no data file. -/
def SparesFiles (s : State) : Env × Op → Prop
  | (env, .write fh fi_flags buf offset) => Sizing s (env, .write fh fi_flags buf offset)
  | (_, .removeDir path) => ∀ key ∈ s.keyOf path, s.Bare key
  | (_, .rename _ new_path) => ∀ key ∈ s.keyOf new_path, s.Bare key
  | _ => True

/-- The requests that keep one copy of every open inode, give a new file a data path of its own, do not move the
string a Truncate reads from, and do not leave data files behind. -/
def Accounted (s : State) (c : Env × Op) : Prop := Orderly s c ∧ FreshPath s c.2 ∧ InPlace s c ∧ SparesFiles s c

instance (s : State) (key : MetaKey) : Decidable (s.Bare key) := inferInstanceAs (Decidable (∀ v ∈ _, _))

instance (s : State) (c : Env × Op) : Decidable (SparesFiles s c) := by
  obtain ⟨env, op⟩ := c
  induction op using Op.casesOn with
  | write fh fi_flags buf offset => exact inferInstanceAs (Decidable (Sizing s (env, .write fh fi_flags buf offset)))
  | removeDir path => exact inferInstanceAs (Decidable (∀ key ∈ s.keyOf path, s.Bare key))
  | rename old_path new_path => exact inferInstanceAs (Decidable (∀ key ∈ s.keyOf new_path, s.Bare key))
  | _ => exact inferInstanceAs (Decidable True)

instance (s : State) (c : Env × Op) : Decidable (Orderly s c) := by
  unfold Orderly
  split <;> infer_instance

instance (s : State) (c : Env × Op) : Decidable (Accounted s c) := inferInstanceAs (Decidable (_ ∧ _ ∧ _ ∧ _))

section
variable {s : State} {p : Plain} {c : Env × Op}

private theorem inventoried_create (hr : Refines s p) (hp : p.Inventoried) {env : Env} {op : Op} {path : CString}
    (hop : op.created = some path) (hfresh : FreshPath s op)
    (habs : ∀ key ∈ s.keyOf path, s.inode_cache.metadb.lookup key = none ∧ ¬ s.OpenOn key)
    {value : UInt64 → List UInt8 → Value}
    (hvalue : ∀ inode name, (value inode name).Sized ∧ (value inode name).fstat.st_ino = inode ∧
      ∃ inline, (value inode name).extent = ⟨0, 0, inline⟩) : (p.create env path value).1.Inventoried := by
  refine hp.create hr.live hvalue (fun key hk => ?_) fun k v hv => ?_
  · rw [hr.metadb]
    exact (habs key (hr.keyOf_eq path ▸ hk)).1
  · rw [hr.metadb] at hv
    rw [hr.counter]
    exact hfresh (by simp [hop]) k (Finmap.mem_keys.mpr (Finmap.mem_iff.mpr ⟨v, hv⟩)) v hv

private theorem Accounted.inventoried (hr : Refines s p) (hp : p.Inventoried) (hc : Accounted s c) :
    (p.step c).1.Inventoried := by
  obtain ⟨env, op⟩ := c
  obtain ⟨hord, hfresh, _, hspares⟩ := hc
  cases op with
  | getAttr path =>
    change (p.getAttr path).1.Inventoried
    unfold Plain.getAttr
    split <;> exact hp
  | openFile path flags => exact hp.openFile path flags
  | read fh size offset => exact hp.read env fh size offset
  | write fh fi_flags buf offset =>
    refine hp.write fh fi_flags buf offset fun f h hf hb hbig hpos => ?_
    rcases hr.fileOf fh with ⟨_, hpf⟩ | ⟨f', key, h', hsf, hpf⟩
    · simp [hpf] at hf
    · obtain ⟨rfl, rfl⟩ := Prod.mk.inj (Option.some.inj (hpf.symm.trans hf))
      exact hspares _ hsf hb (hr.threshold ▸ hbig) hpos
  | release fh => exact hp.release hr.live env fh
  | truncate path new_size => exact hp.truncate env path new_size
  | chmod path mode => exact hp.setAttribute path (fun _ => rfl) fun _ => rfl
  | chown path uid gid => exact hp.setAttribute path (fun _ => rfl) fun _ => rfl
  | updateTimens path atim mtim => exact hp.setAttribute path (fun _ => rfl) fun _ => rfl
  | readlink path size =>
    change (p.readlink path size).1.Inventoried
    unfold Plain.readlink
    split <;> exact hp
  | makeNode path mode dev =>
    exact inventoried_create hr hp rfl hfresh hord fun inode name => ⟨(named_initInodeValue ..).sized, rfl, _, rfl⟩
  | makeDir path mode =>
    exact inventoried_create hr hp rfl hfresh hord fun inode name => ⟨(named_initInodeValue ..).sized, rfl, _, rfl⟩
  | symlink target path =>
    exact inventoried_create hr hp rfl hfresh hord fun inode name => ⟨(named_initSymlinkValue ..).sized, rfl, _, rfl⟩
  | unlink path => exact hp.unlink path fun key h hacq => hr.closed (hord key (hr.mem_keyOf hacq)).1
  | removeDir path =>
    refine hp.removeDir path fun key h hacq => ?_
    have hclosed := hr.closed (hord key (hr.mem_keyOf hacq)).1
    have hcur := copyOf_value (Plain.copy_of_acquire hacq)
    refine ⟨hclosed, hspares key (hr.mem_keyOf hacq) h.value_ ?_⟩
    simpa [Plain.current, hclosed, hr.metadb] using hcur
  | rename old_path new_path =>
    refine hp.rename fun old ho new hn => ?_
    rw [← hr.keyOf_eq] at ho hn
    obtain ⟨hne, ⟨hold, _⟩, hnew, _⟩ := hord.2 old ho new hn
    exact ⟨hne, hr.closed hold, hr.closed hnew, fun v hv => hspares new hn v (hr.metadb ▸ hv)⟩
  | openDir path =>
    change (p.openDir env path).1.Inventoried
    unfold Plain.openDir
    split
    · exact hp
    · split
      · exact hp
      · exact ⟨hp.clean, hp.inventory⟩
  | readDir fh =>
    change (p.readDir env fh).1.Inventoried
    unfold Plain.readDir
    split <;> exact hp
  | releaseDir fh =>
    change (p.releaseDir fh).1.Inventoried
    unfold Plain.releaseDir
    split
    · exact hp
    · exact ⟨hp.clean, hp.inventory⟩

theorem Accounted.step (h : ∃ p, Refines s p ∧ p.Inventoried) (hc : Accounted s c) :
    ∃ p, Refines (step s c).1 p ∧ p.Inventoried := by
  obtain ⟨p, hr, hp⟩ := h
  exact ⟨_, (step_refines hr c hc.1).2, hc.inventoried hr hp⟩

private theorem inventoried_init (config : Config) (env : Env) (mode : UInt32) (dev : Nat) :
    ∃ p, Refines (State.init config env mode dev) p ∧ p.Inventoried := by
  refine ⟨_, refines_init config env mode dev, fun _ _ hk => by simp [Plain.init] at hk, ?_⟩
  have hcur {k : MetaKey} {v : Value} (hk : (Plain.init config env mode dev).current k = some v) :
      k = rootKey ∧ v = initInodeValue env.memory ROOT_INODE_ID mode dev [] env.context env.now := by
    by_cases hke : k = rootKey
    · subst hke
      simp only [Plain.current, Plain.init, Finmap.lookup_singleton_eq, Option.some.injEq] at hk
      exact ⟨rfl, hk.symm⟩
    · have hmem : k ∈ (Plain.init config env mode dev).metadb := Finmap.mem_of_lookup_eq_some hk
      simp [Plain.init, hke] at hmem
  refine ⟨fun k v hk => ?_, fun k k' v v' hk hk' _ => (hcur hk).1.trans (hcur hk').1.symm, ?_⟩
  · obtain ⟨_, rfl⟩ := hcur hk
    refine ⟨(named_initInodeValue ..).sized, Extent.ranged_empty _ _, Nat.zero_le _, fun h => ?_, fun h => ?_⟩
    · exact absurd h (Nat.lt_irrefl 0)
    · exact absurd h Finmap.notMem_empty
  · exact fun q hq => absurd hq Finmap.notMem_empty

private theorem Plain.Inventoried.data_files (hr : Refines s p) (hp : p.Inventoried)
    (hclosed : ∀ fh, slot s.files fh = none) (path : DiskPath) :
    path ∈ s.disk.names ↔ ∃ k v, s.inode_cache.metadb.lookup k = some v ∧
      v.header.has_blob = 1 ∧ getDiskFilePath v.fstat.st_ino = path := by
  have hcur (k : MetaKey) : p.current k = s.inode_cache.metadb.lookup k := by
    rw [Plain.current, hr.work_of_closed hclosed, hr.metadb]
  rw [← hr.disk]
  constructor
  · intro hpath
    obtain ⟨k, v, hv, rfl⟩ := hp.inventory.named path hpath
    have hfiled := hp.inventory.filed k v hv
    have hpos := hfiled.file.mpr hpath
    have hflag := hfiled.flag
    exact ⟨k, v, hcur k ▸ hv, by omega, rfl⟩
  · rintro ⟨k, v, hv, h1, rfl⟩
    exact (hp.inventory.filed k v ((hcur k).trans hv)).file.mp (by omega)

end

/-- In every run whose requests are accounted for, whenever no file is open the data files are
exactly those of the records that have one. -/
theorem data_files_match_records (config : Config) (env : Env) (mode : UInt32) (dev : Nat) {calls : List (Env × Op)}
    (hok : Allowed step Accounted (State.init config env mode dev) calls) :
    let s := (run step (State.init config env mode dev) calls).1
    (∀ fh, slot s.files fh = none) → ∀ path, path ∈ s.disk.names ↔ ∃ k v,
      s.inode_cache.metadb.lookup k = some v ∧ v.header.has_blob = 1 ∧ getDiskFilePath v.fstat.st_ino = path := by
  intro s hclosed
  obtain ⟨p, hr, hp⟩ := run_invariant (fun s => ∃ p, Refines s p ∧ p.Inventoried) (fun _ _ h hc => hc.step h)
    (inventoried_init config env mode dev) hok
  exact hp.data_files hr hclosed

/-- A file that was written through a write-only handle and has its data on disk is renamed over one without a
data file, and its data file stays. -/
theorem data_files_match_records_renamed :
    let s := (run step (State.fresh 0) (calmly [.makeNode (inRoot [97]) 0 0,
      .openFile (inRoot [97]) { wronly := true }, .write 0 { wronly := true } [1, 2] 0, .release 0,
      .makeNode (inRoot [98]) 0 0, .rename (inRoot [97]) (inRoot [98])])).1
    ∀ path, path ∈ s.disk.names ↔ ∃ k v,
      s.inode_cache.metadb.lookup k = some v ∧ v.header.has_blob = 1 ∧ getDiskFilePath v.fstat.st_ino = path := by
  intro s
  have hok : Allowed step Accounted (State.fresh 0) (calmly [.makeNode (inRoot [97]) 0 0,
      .openFile (inRoot [97]) { wronly := true }, .write 0 { wronly := true } [1, 2] 0, .release 0,
      .makeNode (inRoot [98]) 0 0, .rename (inRoot [97]) (inRoot [98])]) := by decide +kernel
  exact data_files_match_records _ _ _ _ hok (slot_of_forall_none (by decide +kernel))

/-- A Rename over a file with a data file leaves that file behind: no record has its number. -/
theorem rename_leaks_data_file :
    let s := (run step (State.fresh 0) (calmly [.makeNode (inRoot [97]) 0 0, .makeNode (inRoot [98]) 0 0,
      .openFile (inRoot [98]) O_RDWR, .write 0 O_RDWR [1, 2] 0, .release 0,
      .rename (inRoot [97]) (inRoot [98])])).1
    s.files.all (·.isNone) ∧ getDiskFilePath 2 ∈ s.disk.names ∧
      ∀ k ∈ s.inode_cache.metadb.keys, ∀ v ∈ s.inode_cache.metadb.lookup k, v.header.has_blob = 0 := by
  decide +kernel

end TableFS
