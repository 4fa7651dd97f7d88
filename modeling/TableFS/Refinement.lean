import TableFS.Coherence

/-! The file system with its two caches refines the one without: under a discipline that
keeps one copy of every open inode, each request gives the result computed on the plain map,
for all cache sizes and so for all evictions. -/
namespace TableFS
open Slots InodeCache

namespace State

/-- A file handle is open on the key. -/
def OpenOn (s : State) (key : MetaKey) : Prop := ∃ fh f h, s.fileOf fh = some (f, key, h)

/-- A directory handle is open on the key. -/
def DirOn (s : State) (key : MetaKey) : Prop := ∃ fh i h, s.dirOf fh = some (i, key, h)

/-- The key a path stands for in the store. -/
def keyOf (s : State) (path : CString) : Option MetaKey := (resolve s.inode_cache.metadb path).map Prod.fst

/-- If the key is open, a lookup in the inode cache finds the handle of the open file. -/
def Shared (s : State) (key : MetaKey) : Prop := s.OpenOn key → s.inode_cache.table key ≠ none

theorem openOn_iff (s : State) (key : MetaKey) :
    s.OpenOn key ↔ ∃ o ∈ s.files, ∃ f ∈ o, ∃ h ∈ s.inode_cache.handle f.handle_, h.1 = key := by
  constructor
  · rintro ⟨fh, f, h, hf⟩
    obtain ⟨hs, hh⟩ := fileOf_some.mp hf
    exact ⟨some f, List.mem_of_getElem? (getElem_of_slot hs), f, rfl, (key, h), hh, rfl⟩
  · rintro ⟨o, ho, f, rfl, ⟨k, h⟩, hh, rfl⟩
    obtain ⟨fh, hl, he⟩ := List.mem_iff_getElem.mp ho
    exact ⟨fh, f, h, fileOf_some.mpr ⟨by simp [slot, hl, he], hh⟩⟩

private theorem dirOn_iff (s : State) (key : MetaKey) :
    s.DirOn key ↔ ∃ o ∈ s.dirs, ∃ i ∈ o, ∃ h ∈ s.inode_cache.handle i, h.1 = key := by
  constructor
  · rintro ⟨fh, i, h, hf⟩
    obtain ⟨hs, hh⟩ := dirOf_some.mp hf
    exact ⟨some i, List.mem_of_getElem? (getElem_of_slot hs), i, rfl, (key, h), hh, rfl⟩
  · rintro ⟨o, ho, i, rfl, ⟨k, h⟩, hh, rfl⟩
    obtain ⟨fh, hl, he⟩ := List.mem_iff_getElem.mp ho
    exact ⟨fh, i, h, dirOf_some.mpr ⟨by simp [slot, hl, he], hh⟩⟩

instance (s : State) (key : MetaKey) : Decidable (s.OpenOn key) := decidable_of_iff' _ (s.openOn_iff key)

instance (s : State) (key : MetaKey) : Decidable (s.DirOn key) := decidable_of_iff' _ (s.dirOn_iff key)

instance (s : State) (key : MetaKey) : Decidable (s.Shared key) :=
  inferInstanceAs (Decidable (s.OpenOn key → s.inode_cache.table key ≠ none))

end State

/-- Requests that leave one copy of every open inode: an open inode is looked up only while
it is in the table, records are created only where there are none, and removed or renamed
only while not open. -/
def Orderly (s : State) : Env × Op → Prop
  | (_, .getAttr path) => ∀ key ∈ s.keyOf path, s.Shared key
  | (_, .openFile path _) => ∀ key ∈ s.keyOf path, s.Shared key ∧ ¬ s.DirOn key
  | (_, .truncate path _) => ∀ key ∈ s.keyOf path, s.Shared key ∧ ¬ s.DirOn key
  | (_, .chmod path _) => ∀ key ∈ s.keyOf path, s.Shared key ∧ ¬ s.DirOn key
  | (_, .chown path _ _) => ∀ key ∈ s.keyOf path, s.Shared key ∧ ¬ s.DirOn key
  | (_, .updateTimens path _ _) => ∀ key ∈ s.keyOf path, s.Shared key ∧ ¬ s.DirOn key
  | (_, .makeNode path _ _) =>
    ∀ key ∈ s.keyOf path, s.inode_cache.metadb.lookup key = none ∧ ¬ s.OpenOn key
  | (_, .makeDir path _) =>
    ∀ key ∈ s.keyOf path, s.inode_cache.metadb.lookup key = none ∧ ¬ s.OpenOn key
  | (_, .symlink _ path) =>
    ∀ key ∈ s.keyOf path, s.inode_cache.metadb.lookup key = none ∧ ¬ s.OpenOn key
  | (_, .unlink path) => ∀ key ∈ s.keyOf path, ¬ s.OpenOn key ∧ ¬ s.DirOn key
  | (_, .removeDir path) => ∀ key ∈ s.keyOf path, ¬ s.OpenOn key ∧ ¬ s.DirOn key
  | (env, .rename old_path new_path) => env.commit = true ∧
    ∀ old ∈ s.keyOf old_path, ∀ new ∈ s.keyOf new_path, old ≠ new ∧
      (¬ s.OpenOn old ∧ ¬ s.DirOn old) ∧ ¬ s.OpenOn new ∧ ¬ s.DirOn new
  | (_, .openDir path) => ∀ key ∈ s.keyOf path, ¬ s.OpenOn key
  | _ => True

def plainFile (ic : InodeCache) (f : FileHandle) : Option PlainFile :=
  (ic.handle f.handle_).map fun h => ⟨h.1, f.flags_, f.fd_⟩

/-- The working copies are of stored inodes that nobody removed. -/
def Live (metadb : MetaDB) (work : MetaKey → Option InodeCacheHandle) : Prop :=
  ∀ k h, work k = some h → h.mode_ ≠ .delete ∧
    ∃ v, metadb.lookup k = some v ∧ v.fstat.st_ino = h.value_.fstat.st_ino

/-- The state without caches that a state stands for. -/
structure Refines (s : State) (p : Plain) : Prop where
  threshold : p.threshold_ = s.threshold_
  counter : p.max_inode_num = s.max_inode_num
  metadb : p.metadb = s.inode_cache.metadb
  disk : p.disk = s.disk
  dentries : s.dentry_cache.Coherent s.inode_cache.metadb
  coherent : s.inode_cache.Coherent (openCount s.files) (dirCount s.dirs) p.work
  live : Live p.metadb p.work
  files : ∀ fh, slot p.files fh = (slot s.files fh).bind (plainFile s.inode_cache)
  files_length : p.files.length = s.files.length
  dirs : ∀ fh, slot p.dirs fh = (slot s.dirs fh).bind fun i => (s.inode_cache.handle i).map Prod.fst
  dirs_length : p.dirs.length = s.dirs.length

section
variable {s : State} {p : Plain}

theorem Refines.counted (hr : Refines s p) : s.Counted := hr.coherent.sound

theorem Refines.work_of_file (hr : Refines s p) {fh : Nat} {f : FileHandle} {key : MetaKey}
    {h : InodeCacheHandle} (hf : s.fileOf fh = some (f, key, h)) : p.work key = some h :=
  hr.coherent.work_eq (State.writers_of_file hf) (State.fileOf_some.mp hf).2

theorem Refines.openOn (hr : Refines s p) (key : MetaKey) : p.work key ≠ none ↔ s.OpenOn key := by
  constructor
  · intro hk
    obtain ⟨h, hk⟩ := Option.ne_none_iff_exists'.mp hk
    obtain ⟨i, hi, hh⟩ := hr.coherent.owner key h hk
    obtain ⟨fh, f, hs, he⟩ := (count_pos_iff _ _).mp (Nat.pos_of_ne_zero hi)
    obtain rfl : f.handle_ = i := by simpa using he
    exact ⟨fh, f, h, State.fileOf_some.mpr ⟨hs, hh⟩⟩
  · rintro ⟨fh, f, h, hf⟩
    simp [hr.work_of_file hf]

theorem Refines.closed (hr : Refines s p) {key : MetaKey} (h : ¬ s.OpenOn key) : p.work key = none := by
  by_contra hne
  exact h ((hr.openOn key).mp hne)

theorem Refines.work_of_closed (hr : Refines s p) (hclosed : ∀ fh, slot s.files fh = none) (key : MetaKey) :
    p.work key = none := by
  refine hr.closed ?_
  rintro ⟨fh, f, h, hf⟩
  cases (hclosed fh).symm.trans (State.fileOf_some.mp hf).1

theorem Refines.keyOf_eq (hr : Refines s p) (path : CString) :
    s.keyOf path = (resolve p.metadb path).map Prod.fst := by rw [State.keyOf, hr.metadb]

theorem Refines.no_dirOn (hr : Refines s p) (hd : ∀ fh, slot p.dirs fh = none) (key : MetaKey) : ¬ s.DirOn key := by
  rintro ⟨fh, i, h, hi⟩
  obtain ⟨hslot, hh⟩ := State.dirOf_some.mp hi
  have := hd fh
  simp [hr.dirs, hslot, hh] at this

private theorem Refines.shared (hr : Refines s p) {key : MetaKey} (h : s.Shared key) :
    p.work key ≠ none → s.inode_cache.table key ≠ none := fun hk => h ((hr.openOn key).mp hk)

private theorem State.noDir_of_not (s : State) {key : MetaKey} (h : ¬ s.DirOn key) :
    NoDir s.inode_cache (dirCount s.dirs) key := by
  intro i hd hi hh
  obtain ⟨fh, j, hs, he⟩ := (count_pos_iff _ _).mp (Nat.pos_of_ne_zero hi)
  obtain rfl : j = i := by simpa using he
  exact h ⟨fh, j, hd, State.dirOf_some.mpr ⟨hs, hh⟩⟩

theorem Refines.found_eq (hr : Refines s p) (path : CString) :
    s.found path = resolve p.metadb path ∧ (s.looked path).Coherent s.inode_cache.metadb := by
  rw [hr.metadb]
  exact pathLookup_spec hr.dentries path

/-- Looking up a path changes only the dentry cache, and keeps it coherent. -/
theorem Refines.looked (hr : Refines s p) {d : DentryCache} (hd : d.Coherent s.inode_cache.metadb) :
    Refines { s with dentry_cache := d } p :=
  { hr with dentries := hd }

private theorem plainFile_eq {ic ic' : InodeCache} (hk : KeepsKeys ic ic') {f : FileHandle} {k : MetaKey}
    {h : InodeCacheHandle} (hh : ic.handle f.handle_ = some (k, h)) : plainFile ic' f = plainFile ic f := by
  obtain ⟨h', hh'⟩ := hk _ k h hh
  simp [plainFile, hh, hh']

private theorem Refines.files_kept (hr : Refines s p) {ic : InodeCache} (hk : KeepsKeys s.inode_cache ic) (fh : Nat) :
    slot p.files fh = (slot s.files fh).bind (plainFile ic) := by
  rw [hr.files fh]
  cases hf : slot s.files fh with
  | none => rfl
  | some f =>
    obtain ⟨k, h, hh⟩ := hr.counted.handle_of_file hf
    exact (plainFile_eq hk hh).symm

private theorem Refines.dirs_kept (hr : Refines s p) {ic : InodeCache} (hk : KeepsKeys s.inode_cache ic) (fh : Nat) :
    slot p.dirs fh = (slot s.dirs fh).bind fun i => (ic.handle i).map Prod.fst := by
  rw [hr.dirs fh]
  cases hf : slot s.dirs fh with
  | none => rfl
  | some i =>
    obtain ⟨k, h, hh⟩ := hr.counted.handle_of_dir hf
    obtain ⟨h', hh'⟩ := hk i k h hh
    simp [hh, hh']

/-- A lookup and a Get give the plain machine's copy, or both give nothing. -/
theorem Refines.acquire (hr : Refines s p) (path : CString) (mode : InodeAccessMode)
    (hsh : ∀ key ∈ s.keyOf path, s.Shared key) :
    (s.acquire path mode = ({ s with dentry_cache := s.looked path }, none) ∧ p.acquire path mode = none) ∨
    ∃ key ic i h, s.keyOf path = some key ∧
      s.acquire path mode =
        ({ s with dentry_cache := s.looked path, inode_cache := ic }, some (key, i, h.value_)) ∧
      p.acquire path mode = some (key, h) ∧
      Placed s.inode_cache ic key i h ∧ Origin s.inode_cache ic key mode i h ∧
      ic.Sound (pin s.pins i) (pin s.writers i) := by
  have hfound := (hr.found_eq path).1
  have hkey (key : MetaKey) (name : List UInt8) (hf : s.found path = some (key, name)) :
      s.keyOf path = some key := by
    rw [State.keyOf, ← hr.metadb, ← hfound, hf]
    rfl
  rcases State.acquire_spec hr.counted path mode with ⟨ha, hnone⟩ | ⟨key, name, ic, i, h, hf, ha, hp, ho, hs'⟩
  · refine .inl ⟨ha, ?_⟩
    rw [Plain.acquire, ← hfound]
    rcases hf : s.found path with _ | ⟨key, name⟩
    · rfl
    · obtain ⟨ht, hm⟩ := hnone key name hf
      have hcopy := Coherent.copyOf_none mode (hr.shared (hsh key (hkey key name hf))) ht hm
      simp [Plain.inode, hr.metadb, hcopy]
  · refine .inr ⟨key, ic, i, h, hkey key name hf, ha, ?_, hp, ho, hs'⟩
    have hcopy := (hr.coherent.got (hr.shared (hsh key (hkey key name hf))) ho).1
    rw [Plain.acquire, ← hfound, hf]
    simp [Plain.inode, hr.metadb, hcopy]

/-- A record is replaced by one with the same inode number, or created. -/
theorem DentryCache.Coherent.insert {d : DentryCache} {m : MetaDB} (hd : d.Coherent m) {key : MetaKey} {v : Value}
    (hv : ∀ v0, m.lookup key = some v0 → v.fstat.st_ino = v0.fstat.st_ino) : d.Coherent (m.insert key v) := by
  intro k ino hk
  obtain ⟨v0, h0, rfl⟩ := hd k ino hk
  by_cases hke : k = key
  · subst hke
    exact ⟨v, Finmap.lookup_insert _, hv v0 h0⟩
  · exact ⟨v0, by rw [Finmap.lookup_insert_of_ne _ hke, h0], rfl⟩

theorem DentryCache.Coherent.erase {d : DentryCache} {m : MetaDB} (hd : d.Coherent m) (key : MetaKey) :
    (d.evict key).Coherent (m.erase key) := by
  intro k ino hk
  obtain ⟨hne, hk⟩ := (d.maps_evict key k ino).mp hk
  rw [Finmap.lookup_erase_ne hne]
  exact hd k ino hk

theorem DentryCache.Coherent.move {d : DentryCache} {m : MetaDB} (hd : d.Coherent m) (old new : MetaKey)
    (v : Value) : ((d.evict old).evict new).Coherent ((m.erase old).insert new v) := by
  intro k ino hk
  obtain ⟨hne, hk⟩ := ((d.evict old).maps_evict new k ino).mp hk
  rw [Finmap.lookup_insert_of_ne _ hne]
  exact hd.erase old k ino hk

section Live
variable {m : MetaDB} {work : MetaKey → Option InodeCacheHandle} {key : MetaKey}

theorem Live.insert (hl : Live m work) {v : Value}
    (hv : ∀ h, work key = some h → v.fstat.st_ino = h.value_.fstat.st_ino) : Live (m.insert key v) work := by
  intro k h hk
  obtain ⟨hm, v0, h0, hi⟩ := hl k h hk
  refine ⟨hm, ?_⟩
  by_cases hke : k = key
  · subst hke
    exact ⟨v, Finmap.lookup_insert _, hv h hk⟩
  · exact ⟨v0, by rw [Finmap.lookup_insert_of_ne _ hke, h0], hi⟩

theorem Live.erase (hl : Live m work) (hn : work key = none) : Live (m.erase key) work := by
  intro k h hk
  have hke : k ≠ key := by
    rintro rfl
    simp [hn] at hk
  rw [Finmap.lookup_erase_ne hke]
  exact hl k h hk

theorem Live.update (hl : Live m work) {o : Option InodeCacheHandle}
    (ho : ∀ h, o = some h → h.mode_ ≠ .delete ∧
      ∃ v, m.lookup key = some v ∧ v.fstat.st_ino = h.value_.fstat.st_ino) :
    Live m (Function.update work key o) := by
  intro k h hk
  by_cases hke : k = key
  · subst hke
    rw [Function.update_self] at hk
    exact ho h hk
  · rw [Function.update_of_ne hke] at hk
    exact hl k h hk

/-- The copy a request gets has the inode number of the stored record. -/
theorem Live.copy (hl : Live m work) {mode : InodeAccessMode} {h : InodeCacheHandle}
    (hc : copyOf m work key mode = some h) :
    ∃ v, m.lookup key = some v ∧ v.fstat.st_ino = h.value_.fstat.st_ino := by
  unfold copyOf at hc
  split at hc
  · rename_i h0 hk
    obtain ⟨_, v, hv, hi⟩ := hl key h0 hk
    obtain rfl := Option.some.inj hc
    exact ⟨v, hv, by rw [access_value, hi]⟩
  · obtain ⟨v, hv, rfl⟩ := Option.map_eq_some_iff.mp hc
    exact ⟨v, hv, rfl⟩

private theorem Live.copy_mode (hl : Live m work) {mode : InodeAccessMode} (hmode : mode ≠ .delete)
    {h : InodeCacheHandle} (hc : copyOf m work key mode = some h) : h.mode_ ≠ .delete := by
  unfold copyOf at hc
  split at hc
  · rename_i h0 hk
    obtain rfl := Option.some.inj hc
    cases mode with
    | read => exact (hl key h0 hk).1
    | delete => exact absurd rfl hmode
    | write => simp [access_mode]
  · obtain ⟨v, hv, rfl⟩ := Option.map_eq_some_iff.mp hc
    exact hmode

/-- A value is stored, in the map and in the working copy. -/
theorem Live.store (hl : Live m work) {v : Value}
    (hv : ∀ v0, m.lookup key = some v0 → v.fstat.st_ino = v0.fstat.st_ino) :
    Live (m.insert key v) (Function.update work key ((work key).map fun _ => ⟨v, .read⟩)) := by
  refine (hl.insert fun h0 h0k => ?_).update fun h' hh' => ?_
  · obtain ⟨_, v0, hv0, hi0⟩ := hl key h0 h0k
    rw [hv v0 hv0, hi0]
  · obtain ⟨_, _, rfl⟩ := Option.map_eq_some_iff.mp hh'
    exact ⟨by simp, _, Finmap.lookup_insert _, rfl⟩

private theorem Live.clean_lookup (hl : Live m work) {h : InodeCacheHandle} (hk : work key = some h) (now : Int) :
    ∃ v, (cleanInodeHandle key (State.touch now h) m).lookup key = some v ∧
      v.fstat.st_ino = (State.touch now h).value_.fstat.st_ino := by
  obtain ⟨hmode, hkeep, _⟩ := touch_spec now h
  obtain ⟨hnd, v, hv, hi⟩ := hl key h hk
  unfold cleanInodeHandle
  split
  · exact ⟨_, Finmap.lookup_insert _, rfl⟩
  · rename_i hd
    exact absurd (hmode ▸ hd) hnd
  · exact ⟨v, hv, by rw [hkeep.ino, hi]⟩

theorem Live.clean (hl : Live m work) {h : InodeCacheHandle} (hk : work key = some h) (now : Int) :
    Live (cleanInodeHandle key (State.touch now h) m) work := by
  obtain ⟨hmode, hkeep, _⟩ := touch_spec now h
  unfold cleanInodeHandle
  split
  · refine hl.insert fun h0 h0k => ?_
    rw [hk] at h0k
    rw [hkeep.ino, Option.some.inj h0k]
  · rename_i hd
    exact absurd (hmode ▸ hd) (hl key h hk).1
  · exact hl

/-- Release leaves the working copy to the other handles, if any. -/
theorem Live.close (hl : Live m work) {h : InodeCacheHandle} (hk : work key = some h) (now : Int)
    (stays : Prop) [Decidable stays] :
    Live (cleanInodeHandle key (State.touch now h) m) (Function.update work key
      (if stays then some ⟨(State.touch now h).value_, settled (State.touch now h).mode_⟩ else none)) := by
  refine (hl.clean hk now).update fun h' hh' => ?_
  split at hh'
  · obtain rfl := Option.some.inj hh'
    refine ⟨?_, hl.clean_lookup hk now⟩
    rw [(touch_spec now h).1]
    cases hmd : h.mode_ with
    | delete => exact absurd hmd (hl key h hk).1
    | _ => simp [settled]
  · cases hh'

theorem DentryCache.Coherent.clean {d : DentryCache} (hd : d.Coherent m) (hl : Live m work)
    {h : InodeCacheHandle} (hk : work key = some h) (now : Int) :
    d.Coherent (cleanInodeHandle key (State.touch now h) m) := by
  obtain ⟨hmode, hkeep, _⟩ := touch_spec now h
  obtain ⟨hnd, v, hv, hi⟩ := hl key h hk
  unfold cleanInodeHandle
  split
  · refine hd.insert fun v0 h0 => ?_
    rw [hv] at h0
    rw [hkeep.ino, ← hi, Option.some.inj h0]
  · rename_i hdel
    exact absurd (hmode ▸ hdel) hnd
  · exact hd

end Live

/-- The cached and the plain machine answer alike and stay related. -/
def Simulates (r : State × Result) (r' : Plain × Result) : Prop := r.2 = r'.2 ∧ Refines r.1 r'.1

theorem Plain.copy_of_acquire {path : CString} {mode : InodeAccessMode} {key : MetaKey} {h : InodeCacheHandle}
    (ha : p.acquire path mode = some (key, h)) : copyOf p.metadb p.work key mode = some h := by
  obtain ⟨k, _, hk⟩ := Option.bind_eq_some_iff.mp ha
  obtain ⟨h', hh, he⟩ := Option.map_eq_some_iff.mp hk
  obtain ⟨rfl, rfl⟩ := Prod.mk.inj he
  exact hh

private theorem InodeCache.Origin.keepsKeys {ic ic' ic2 : InodeCache} {key : MetaKey} {mode : InodeAccessMode} {i : Nat}
    {h : InodeCacheHandle} (ho : Origin ic ic' key mode i h) (hself : ∃ hd, ic2.handle i = some (key, hd))
    (hothers : ∀ j, j ≠ i → ic2.handle j = ic.handle j) : KeepsKeys ic ic2 :=
  .of_self rfl hself ho.key_of_handle hothers

theorem refines_getAttr (hr : Refines s p) {path : CString}
    (hsh : ∀ key ∈ s.keyOf path, s.Shared key) : Simulates (s.getAttr path) (p.getAttr path) := by
  unfold State.getAttr Plain.getAttr
  rcases hr.acquire path .read hsh with ⟨ha, hpa⟩ | ⟨key, ic, i, h, hk, ha, hpa, hp, ho, hs'⟩
  · rw [ha, hpa]
    exact ⟨rfl, hr.looked (hr.found_eq path).2⟩
  · rw [ha, hpa]
    obtain ⟨_, hh, hm, _⟩ := hr.counted.peek hp ho hs'
    have hk' : KeepsKeys s.inode_cache (ic.release i) :=
      ho.keepsKeys ⟨h, hh ▸ hp.self⟩ fun j hj => hh ▸ hp.others j hj
    exact ⟨rfl, { hr with
      metadb := hr.metadb.trans hm.symm
      dentries := hm ▸ (hr.found_eq path).2
      coherent := hr.coherent.peek (hr.shared (hsh key hk)) hp ho hs'
      files := hr.files_kept hk'
      dirs := hr.dirs_kept hk' }⟩

/-- The requests that store a new value for one inode. -/
theorem Refines.stored (hr : Refines s p) {path : CString} {key : MetaKey} {ic : InodeCache} {i : Nat}
    {h : InodeCacheHandle} {g : InodeCacheHandle → InodeCacheHandle} {disk disk' : Disk} (hdisk : disk' = disk)
    (hpa : p.acquire path .write = some (key, h)) (hsh : s.Shared key) (hno : ¬ s.DirOn key)
    (hp : Placed s.inode_cache ic key i h) (ho : Origin s.inode_cache ic key .write i h)
    (hs' : ic.Sound (pin s.pins i) (pin s.writers i)) (hg : (g h).mode_ = h.mode_)
    (hk : Keeps h.value_ (g h).value_) :
    Refines { s with
        dentry_cache := s.looked path, disk := disk
        inode_cache := ((ic.update i g).writeBack i).release i }
      ({ p with disk := disk' }.store key (g h).value_) := by
  obtain ⟨_, hself, hothers, hm, _⟩ := Sound.modify hp ho hs' hg
  have hk' : KeepsKeys s.inode_cache (((ic.update i g).writeBack i).release i) :=
    ho.keepsKeys ⟨_, hself⟩ hothers
  obtain ⟨v, hv, hino⟩ := hr.live.copy (Plain.copy_of_acquire hpa)
  have hsame : ∀ v0, p.metadb.lookup key = some v0 → (g h).value_.fstat.st_ino = v0.fstat.st_ino := by
    intro v0 h0
    rw [hv] at h0
    rw [hk.ino, ← hino, Option.some.inj h0]
  exact { hr with
    metadb := by rw [hm, ← hr.metadb]; rfl
    disk := hdisk
    dentries := by
      rw [hm, ← hr.metadb]
      exact (hr.metadb ▸ (hr.found_eq path).2 : (s.looked path).Coherent p.metadb).insert hsame
    coherent := hr.coherent.modify (hr.shared hsh) (s.noDir_of_not hno) hp ho hs' hg
    live := hr.live.store hsame
    files := hr.files_kept hk'
    dirs := hr.dirs_kept hk' }

private theorem refines_truncate (hr : Refines s p) (env : Env) {path : CString} (n : Nat)
    (hok : ∀ key ∈ s.keyOf path, s.Shared key ∧ ¬ s.DirOn key) :
    Simulates (s.truncate env path n) (p.truncate env path n) := by
  unfold State.truncate Plain.truncate
  rcases hr.acquire path .write (fun key hk => (hok key hk).1) with
    ⟨ha, hpa⟩ | ⟨key, ic, i, h, hk, ha, hpa, hp, ho, hs'⟩
  · rw [ha, hpa]
    exact ⟨rfl, hr.looked (hr.found_eq path).2⟩
  · have ht : truncateValue env p.threshold_ p.disk h.value_ n =
        truncateValue env s.threshold_ s.disk h.value_ n := by rw [hr.threshold, hr.disk]
    let v := (truncateValue env s.threshold_ s.disk h.value_ n).2.1
    rw [ha, hpa]
    simp only [ht]
    exact ⟨rfl, hr.stored (g := fun h' => { h' with value_ := v }) rfl hpa (hok key hk).1 (hok key hk).2 hp ho hs'
      rfl (keeps_truncateValue ..)⟩

private theorem refines_setAttribute (hr : Refines s p) {path : CString} {f : Stat → Stat}
    (hf : ∀ st, (f st).st_ino = st.st_ino)
    (hok : ∀ key ∈ s.keyOf path, s.Shared key ∧ ¬ s.DirOn key) :
    Simulates (s.setAttribute path f) (p.setAttribute path f) := by
  unfold State.setAttribute Plain.setAttribute
  rcases hr.acquire path .write (fun key hk => (hok key hk).1) with
    ⟨ha, hpa⟩ | ⟨key, ic, i, h, hk, ha, hpa, hp, ho, hs'⟩
  · rw [ha, hpa]
    exact ⟨rfl, hr.looked (hr.found_eq path).2⟩
  · rw [ha, hpa]
    exact ⟨rfl, hr.stored (g := fun h => { h with value_ := updateAttribute h.value_ (f h.value_.fstat) })
      hr.disk hpa (hok key hk).1 (hok key hk).2 hp ho hs' rfl (.attr (hf _))⟩

private theorem refines_openFile (hr : Refines s p) {path : CString} (flags : OpenFlags)
    (hok : ∀ key ∈ s.keyOf path, s.Shared key ∧ ¬ s.DirOn key) :
    Simulates (s.openFile path flags) (p.openFile path flags) := by
  unfold State.openFile Plain.openFile
  rcases hr.acquire path flags.mode (fun key hk => (hok key hk).1) with
    ⟨ha, hpa⟩ | ⟨key, ic, i, h, hk, ha, hpa, hp, ho, hs'⟩
  · rw [ha, hpa]
    exact ⟨rfl, hr.looked (hr.found_eq path).2⟩
  · have hk' : KeepsKeys s.inode_cache ic := ho.keepsKeys ⟨h, hp.self⟩ hp.others
    have hcopy := Plain.copy_of_acquire hpa
    have hmode := flags.mode_ne_delete
    rw [ha, hpa]
    simp only [hr.disk]
    refine ⟨by simp only [hr.files_length], { hr with
      metadb := hr.metadb.trans hp.metadb.symm
      disk := rfl
      dentries := hp.metadb ▸ (hr.found_eq path).2
      coherent := ?_
      live := hr.live.update fun h' hh' => ?_
      files := fun fh => ?_
      files_length := by simp [hr.files_length]
      dirs := hr.dirs_kept hk' }⟩
    · simp only [openCount_push]
      exact hr.coherent.opened_file (hr.shared (hok key hk).1) (s.noDir_of_not (hok key hk).2) hp ho hs'
    · obtain rfl := Option.some.inj hh'
      exact ⟨hr.live.copy_mode hmode hcopy, hr.live.copy hcopy⟩
    · simp only [slot_push, hr.files_length]
      split
      · simp [plainFile, hp.self]
      · exact hr.files_kept hk' fh

theorem Refines.fileOf (hr : Refines s p) (fh : Nat) :
    (s.fileOf fh = none ∧ p.fileOf fh = none) ∨
    ∃ f key h, s.fileOf fh = some (f, key, h) ∧ p.fileOf fh = some (⟨key, f.flags_, f.fd_⟩, h) := by
  cases hf : slot s.files fh with
  | none => exact .inl ⟨by simp [State.fileOf, hf], by simp [Plain.fileOf, hr.files, hf]⟩
  | some f =>
    obtain ⟨k, h, hh⟩ := hr.counted.handle_of_file hf
    have hfo : s.fileOf fh = some (f, k, h) := State.fileOf_some.mpr ⟨hf, hh⟩
    exact .inr ⟨f, k, h, hfo, by simp [Plain.fileOf, hr.files, hf, plainFile, hh, hr.work_of_file hfo]⟩

private theorem Refines.files_replace (hr : Refines s p) {ic : InodeCache} (hk : KeepsKeys s.inode_cache ic) {fh : Nat}
    {f : FileHandle} {key : MetaKey} {h : InodeCacheHandle} (hf : s.fileOf fh = some (f, key, h))
    (fd : Option Nat) (fh' : Nat) :
    slot (replace p.files fh ⟨key, f.flags_, fd⟩) fh' =
      (slot (replace s.files fh { f with fd_ := fd }) fh').bind (plainFile ic) := by
  obtain ⟨hslot, hh⟩ := State.fileOf_some.mp hf
  have hl := lt_of_slot hslot
  rw [slot_replace hl, slot_replace (hr.files_length ▸ hl)]
  split
  · obtain ⟨h', hh'⟩ := hk _ _ _ hh
    simp [plainFile, hh']
  · exact hr.files_kept hk fh'

private theorem keepsKeys_refl (ic : InodeCache) : KeepsKeys ic ic := fun _ _ h hh => ⟨h, hh⟩

private theorem refines_read (hr : Refines s p) (env : Env) (fh size offset : Nat) :
    Simulates (s.read env fh size offset) (p.read env fh size offset) := by
  unfold State.read Plain.read
  rcases hr.fileOf fh with ⟨hf, hpf⟩ | ⟨f, key, h, hf, hpf⟩
  · rw [hf, hpf]
    exact ⟨rfl, hr⟩
  · have hslot := (State.fileOf_some.mp hf).1
    rw [hf, hpf]
    simp only [hr.disk]
    refine ⟨rfl, { hr with
      disk := rfl
      coherent := ?_
      files := hr.files_replace (keepsKeys_refl _) hf _
      files_length := by simp [hr.files_length] }⟩
    simp only [openCount_fd hslot]
    exact hr.coherent

private theorem refines_write (hr : Refines s p) (env : Env) (fh : Nat) (flags : OpenFlags) (buf : List UInt8)
    (offset : Nat) : Simulates (s.write env fh flags buf offset) (p.write env fh flags buf offset) := by
  unfold State.write Plain.write
  rcases hr.fileOf fh with ⟨hf, hpf⟩ | ⟨f, key, h, hf, hpf⟩
  · rw [hf, hpf]
    exact ⟨rfl, hr⟩
  · obtain ⟨hslot, hh⟩ := State.fileOf_some.mp hf
    have hd : writeValue env p.threshold_ p.disk h.value_ f.fd_ f.flags_ flags buf offset =
        writeValue env s.threshold_ s.disk h.value_ f.fd_ f.flags_ flags buf offset := by
      rw [hr.threshold, hr.disk]
    have hkeep := keeps_writeValue env s.threshold_ s.disk h.value_ f.fd_ f.flags_ flags buf offset
    rw [hf, hpf]
    simp only [hd]
    generalize writeValue env s.threshold_ s.disk h.value_ f.fd_ f.flags_ flags buf offset = r at hkeep
    have hk' : KeepsKeys s.inode_cache (s.inode_cache.update f.handle_ fun _ => ⟨r.2.1, .write⟩) :=
      .of_self rfl ⟨_, handle_update_self hh _⟩ (key_of_handle hh) fun j hj => handle_update_ne _ hj _
    refine ⟨rfl, { hr with
      disk := rfl
      coherent := ?_
      live := hr.live.update fun h' hh' => ?_
      files := hr.files_replace hk' hf _
      files_length := by simp [hr.files_length]
      dirs := hr.dirs_kept hk' }⟩
    · simp only [openCount_fd hslot]
      exact hr.coherent.wrote (State.writers_of_file hf) hh _
    · obtain rfl := Option.some.inj hh'
      obtain ⟨_, v, hv, hi⟩ := hr.live key h (hr.work_of_file hf)
      exact ⟨by simp, v, hv, by rw [hi]; exact hkeep.ino.symm⟩

theorem Plain.openOn_iff (files : List (Option PlainFile)) (key : MetaKey) :
    Plain.openOn files key = true ↔ ∃ fh f, slot files fh = some f ∧ f.key = key := by
  rw [Plain.openOn, List.any_eq_true]
  constructor
  · rintro ⟨o, ho, hp⟩
    obtain ⟨fh, hl, rfl⟩ := List.mem_iff_getElem.mp ho
    obtain ⟨f, hf, hk⟩ := (Option.any_eq_true _ _).mp hp
    exact ⟨fh, f, by simp [slot, hl, hf], by simpa using hk⟩
  · rintro ⟨fh, f, hs, hk⟩
    exact ⟨some f, List.mem_of_getElem? (getElem_of_slot hs), by simpa using hk⟩

private theorem Refines.openOn_clear (hr : Refines s p) {fh : Nat} {f : FileHandle} {key : MetaKey}
    {h : InodeCacheHandle} (hf : s.fileOf fh = some (f, key, h)) :
    Plain.openOn (clear p.files fh) key = true ↔ openCount s.files f.handle_ ≠ 1 := by
  obtain ⟨hslot, hh⟩ := State.fileOf_some.mp hf
  have hpos := openCount_pos hslot
  have hcount : openCount s.files f.handle_ ≠ 1 ↔ 0 < openCount (clear s.files fh) f.handle_ := by
    rw [openCount_clear hslot, unpin_self]
    omega
  rw [Plain.openOn_iff, hcount, openCount, count_pos_iff]
  constructor
  · rintro ⟨fh', pf, hs', rfl⟩
    rw [slot_clear] at hs'
    split at hs'
    · cases hs'
    · rename_i hne
      rw [hr.files fh'] at hs'
      obtain ⟨f', hf', hpf⟩ := Option.bind_eq_some_iff.mp hs'
      obtain ⟨hd, hh', rfl⟩ := Option.map_eq_some_iff.mp hpf
      refine ⟨fh', f', by rw [slot_clear, if_neg hne, hf'], ?_⟩
      have := hr.coherent.single f'.handle_ f.handle_ hd.1 hd.2 h (openCount_pos hf') hpos hh' hh
      simpa using this
  · rintro ⟨fh', f', hs', he⟩
    rw [slot_clear] at hs'
    split at hs'
    · cases hs'
    · rename_i hne
      refine ⟨fh', ⟨key, f'.flags_, f'.fd_⟩, ?_, rfl⟩
      have he' : f'.handle_ = f.handle_ := by simpa using he
      rw [slot_clear, if_neg hne, hr.files fh', hs']
      simp [plainFile, he', hh]

private theorem refines_release (hr : Refines s p) (env : Env) (fh : Nat) :
    Simulates (s.release env fh) (p.release env fh) := by
  unfold State.release Plain.release
  rcases hr.fileOf fh with ⟨hf, hpf⟩ | ⟨f, key, h, hf, hpf⟩
  · rw [hf, hpf]
    exact ⟨rfl, hr⟩
  · obtain ⟨hslot, hh⟩ := State.fileOf_some.mp hf
    obtain ⟨hmode, hkeep, _⟩ := touch_spec env.now h
    obtain ⟨_, hself, hothers, hm, _⟩ := hr.counted.close (State.writers_of_file hf) hh hmode
    have hk' := KeepsKeys.of_self rfl ⟨_, hself⟩ (key_of_handle hh) hothers
    have hwork := hr.work_of_file hf
    rw [hf, hpf]
    simp only [hr.disk]
    refine ⟨rfl, { hr with
      metadb := by rw [hm, ← hr.metadb]
      disk := rfl
      dentries := ?_
      coherent := ?_
      live := hr.live.close hwork env.now _
      files := fun fh' => ?_
      files_length := by simp [hr.files_length]
      dirs := hr.dirs_kept hk' }⟩
    · rw [hm, ← hr.metadb]
      exact (hr.metadb ▸ hr.dentries : s.dentry_cache.Coherent p.metadb).clean hr.live hwork env.now
    · simp only [openCount_clear hslot]
      have hc := hr.coherent.closed_file (State.writers_of_file hf) hh hmode
      have hiff := hr.openOn_clear hf
      by_cases h1 : openCount s.files f.handle_ = 1
      · have hno : Plain.openOn (clear p.files fh) key = false := by
          rw [← Bool.not_eq_true, hiff]
          exact fun hne => hne h1
        rw [if_pos h1] at hc
        rw [hno, if_neg Bool.false_ne_true]
        exact hc
      · rw [if_neg h1] at hc
        rw [if_pos (hiff.mpr h1), hmode]
        exact hc
    · simp only [slot_clear]
      split
      · rfl
      · exact hr.files_kept hk' fh'

private theorem refines_create (hr : Refines s p) (env : Env) {path : CString} (value : UInt64 → List UInt8 → Value)
    (hok : ∀ key ∈ s.keyOf path, s.inode_cache.metadb.lookup key = none ∧ ¬ s.OpenOn key) :
    (s.create env path value).2 = (p.create env path value).2 ∧
      Refines (s.create env path value).1 (p.create env path value).1 := by
  obtain ⟨hfound, hd⟩ := hr.found_eq path
  unfold State.create Plain.create
  rw [State.lookup_eq, hfound]
  rcases hf : resolve p.metadb path with _ | ⟨key, name⟩
  · exact ⟨rfl, hr.looked hd⟩
  · obtain ⟨habs, hclosed⟩ := hok key (by rw [State.keyOf, ← hr.metadb, hf]; rfl)
    simp only [hr.counter]
    split
    · refine ⟨rfl, { hr with
        counter := rfl
        metadb := by rw [hr.metadb]; rfl
        dentries := ?_
        coherent := hr.coherent.put habs (hr.closed hclosed) _
        live := hr.live.insert fun h hk => by simp [hr.closed hclosed] at hk }⟩
      exact hd.insert fun v0 h0 => by simp [habs] at h0
    · exact ⟨rfl, { hr with counter := rfl, dentries := hd }⟩

theorem Refines.removed (hr : Refines s p) {path : CString} {key : MetaKey} {ic : InodeCache} {i : Nat}
    {h : InodeCacheHandle} {disk disk' : Disk} (hdisk : disk' = disk)
    (hok : ¬ s.OpenOn key ∧ ¬ s.DirOn key) (hp : Placed s.inode_cache ic key i h)
    (ho : Origin s.inode_cache ic key .delete i h) (hs' : ic.Sound (pin s.pins i) (pin s.writers i)) :
    Refines (State.dropInode { s with dentry_cache := s.looked path, inode_cache := ic, disk := disk } key i)
      { p with disk := disk', metadb := p.metadb.erase key } := by
  obtain ⟨_, hh, _, _⟩ := hr.counted.remove hp ho hs'
  obtain ⟨hc, hm⟩ := hr.coherent.remove (hr.closed hok.1) (s.noDir_of_not hok.2) hp ho hs'
  have hk' : KeepsKeys s.inode_cache ((ic.release i).evict key) :=
    ho.keepsKeys ⟨h, hh ▸ hp.self⟩ fun j hj => hh ▸ hp.others j hj
  exact { hr with
    metadb := (congrArg (Finmap.erase key) hr.metadb).trans hm.symm
    disk := hdisk
    dentries := hm ▸ (hr.found_eq path).2.erase key
    coherent := hc
    live := hr.live.erase (hr.closed hok.1)
    files := hr.files_kept hk'
    dirs := hr.dirs_kept hk' }

private theorem refines_unlink (hr : Refines s p) {path : CString}
    (hok : ∀ key ∈ s.keyOf path, ¬ s.OpenOn key ∧ ¬ s.DirOn key) :
    Simulates (s.unlink path) (p.unlink path) := by
  unfold State.unlink Plain.unlink
  rcases hr.acquire path .delete (fun key hk hopen => absurd hopen (hok key hk).1) with
    ⟨ha, hpa⟩ | ⟨key, ic, i, h, hk, ha, hpa, hp, ho, hs'⟩
  · rw [ha, hpa]
    exact ⟨rfl, hr.looked (hr.found_eq path).2⟩
  · rw [ha, hpa]
    refine ⟨rfl, hr.removed ?_ (hok key hk) hp ho hs'⟩
    simp only [hr.threshold, hr.disk]

private theorem refines_removeDir (hr : Refines s p) {path : CString}
    (hok : ∀ key ∈ s.keyOf path, ¬ s.OpenOn key ∧ ¬ s.DirOn key) :
    Simulates (s.removeDir path) (p.removeDir path) := by
  unfold State.removeDir Plain.removeDir
  rcases hr.acquire path .delete (fun key hk hopen => absurd hopen (hok key hk).1) with
    ⟨ha, hpa⟩ | ⟨key, ic, i, h, hk, ha, hpa, hp, ho, hs'⟩
  · rw [ha, hpa]
    exact ⟨rfl, hr.looked (hr.found_eq path).2⟩
  · rw [ha, hpa]
    exact ⟨rfl, hr.removed hr.disk (hok key hk) hp ho hs'⟩

/-- Get by key, once the path is resolved. -/
theorem Refines.getInode (hr : Refines s p) (key : MetaKey) (hclosed : ¬ s.OpenOn key) (mode : InodeAccessMode) :
    (s.getInode key mode = (s, none) ∧ p.inode key mode = none) ∨
    ∃ ic i h, s.getInode key mode = ({ s with inode_cache := ic }, some (i, h.value_)) ∧
      p.inode key mode = some h ∧ Placed s.inode_cache ic key i h ∧
      Origin s.inode_cache ic key mode i h ∧ ic.Sound (pin s.pins i) (pin s.writers i) := by
  have hopen : p.work key ≠ none → s.inode_cache.table key ≠ none := fun hne => absurd (hr.closed hclosed) hne
  rcases State.getInode_spec hr.counted key mode with ⟨hg, ht, hm⟩ | ⟨ic, i, h, hg, hp, ho, hs'⟩
  · refine .inl ⟨hg, ?_⟩
    have hcopy := Coherent.copyOf_none mode hopen ht hm
    simpa [Plain.inode, hr.metadb] using hcopy
  · refine .inr ⟨ic, i, h, hg, ?_, hp, ho, hs'⟩
    have hcopy := (hr.coherent.got hopen ho).1
    simpa [Plain.inode, hr.metadb] using hcopy

private theorem refines_renameKey (hr : Refines s p) {env : Env} (hcommit : env.commit = true) {old new : MetaKey}
    (hne : old ≠ new) (hold : ¬ s.OpenOn old ∧ ¬ s.DirOn old) (hnew : ¬ s.OpenOn new ∧ ¬ s.DirOn new)
    (name : List UInt8) :
    Simulates (s.renameKey env old new name)
      (match p.inode old .delete with
        | none => (p, fsError ENOENT)
        | some h => ({ p with metadb := (p.metadb.erase old).insert new (renameInodeValue h.value_ name) },
            { ret := 0 })) := by
  unfold State.renameKey
  rcases hr.getInode old hold.1 .delete with ⟨hg, hpi⟩ | ⟨ic, i, h, hg, hpi, hp, ho, hs'⟩
  · rw [hg, hpi]
    exact ⟨rfl, hr⟩
  · rw [hg, hpi]
    simp only [hcommit]
    generalize hr' : InodeCache.evict _ old = r
    obtain ⟨hc, hm, hk'⟩ := hr.coherent.move hne (hr.closed hold.1) (s.noDir_of_not hold.2) (hr.closed hnew.1)
      (s.noDir_of_not hnew.2) hp ho hs' (renameInodeValue h.value_ name) hr'
    have hd : s.dentry_cache.Coherent p.metadb := hr.metadb ▸ hr.dentries
    have hl : Live ((p.metadb.erase old).insert new (renameInodeValue h.value_ name)) p.work :=
      (hr.live.erase (hr.closed hold.1)).insert fun h' hk => by simp [hr.closed hnew.1] at hk
    exact ⟨rfl, { hr with
      metadb := by rw [hr.metadb]; exact hm.symm
      dentries := by
        have := hd.move old new (renameInodeValue h.value_ name)
        rw [hr.metadb] at this
        exact hm ▸ this
      coherent := hc
      live := hl
      files := hr.files_kept hk'
      dirs := hr.dirs_kept hk' }⟩

theorem refines_rename (hr : Refines s p) {env : Env} {old_path new_path : CString} (hcommit : env.commit = true)
    (hok : ∀ old ∈ s.keyOf old_path, ∀ new ∈ s.keyOf new_path, old ≠ new ∧
      (¬ s.OpenOn old ∧ ¬ s.DirOn old) ∧ ¬ s.OpenOn new ∧ ¬ s.DirOn new) :
    Simulates (s.rename env old_path new_path) (p.rename old_path new_path) := by
  obtain ⟨hfo, hdo⟩ := hr.found_eq old_path
  have hr1 := hr.looked hdo
  obtain ⟨hfn, hdn⟩ := hr1.found_eq new_path
  have hr2 := hr1.looked hdn
  unfold State.rename Plain.rename
  rw [State.lookup_eq, hfo]
  rcases ho : resolve p.metadb old_path with _ | ⟨old, oname⟩
  · exact ⟨rfl, hr1⟩
  · simp only [State.lookup_eq, hfn]
    rcases hn : resolve p.metadb new_path with _ | ⟨new, name⟩
    · exact ⟨rfl, hr2⟩
    · have hko : s.keyOf old_path = some old := by rw [State.keyOf, ← hr.metadb, ho]; rfl
      have hkn : s.keyOf new_path = some new := by rw [State.keyOf, ← hr.metadb, hn]; rfl
      obtain ⟨hne, hold, hnew⟩ := hok old hko new hkn
      exact refines_renameKey hr2 hcommit hne hold hnew name

private theorem refines_openDir (hr : Refines s p) (env : Env) {path : CString}
    (hok : ∀ key ∈ s.keyOf path, ¬ s.OpenOn key) :
    Simulates (s.openDir env path) (p.openDir env path) := by
  obtain ⟨hf, hd⟩ := hr.found_eq path
  have hr1 := hr.looked hd
  unfold State.openDir Plain.openDir
  rw [State.lookup_eq, hf]
  rcases hp : resolve p.metadb path with _ | ⟨key, name⟩
  · exact ⟨rfl, hr1⟩
  · have hclosed := hok key (by rw [State.keyOf, ← hr.metadb, hp]; rfl)
    rcases hr1.getInode key hclosed .read with ⟨hg, hpi⟩ | ⟨ic, i, h, hg, hpi, hpl, ho, hs'⟩
    · simp only [hg, hpi]
      exact ⟨rfl, hr1⟩
    · simp only [hg, hpi]
      have hk' : KeepsKeys s.inode_cache ic := ho.keepsKeys ⟨h, hpl.self⟩ hpl.others
      refine ⟨by simp only [hr.dirs_length], { hr1 with
        metadb := hr.metadb.trans hpl.metadb.symm
        dentries := hpl.metadb ▸ hd
        coherent := ?_
        files := hr.files_kept hk'
        dirs := fun fh => ?_
        dirs_length := by simp [hr.dirs_length] }⟩
      · simp only [dirCount_push]
        exact hr.coherent.opened_dir (hr.closed hclosed) hpl ho hs'
      · simp only [slot_push, hr.dirs_length]
        split
        · simp [hpl.self]
        · exact hr.dirs_kept hk' fh

private theorem refines_readDir (hr : Refines s p) (env : Env) (fh : Nat) :
    Simulates (s.readDir env fh) (p.readDir env fh) := by
  unfold State.readDir Plain.readDir
  cases hf : slot s.dirs fh with
  | none => simpa [State.dirOf, hr.dirs, hf, Simulates] using hr
  | some i =>
    obtain ⟨k, h, hh, _, hm, _⟩ := hr.coherent.dir i (dirCount_pos hf)
    rw [State.dirOf_some.mpr ⟨hf, hh⟩]
    simp only [hr.dirs, hf, hh, hr.metadb, Option.bind_some, Option.map_some, hm]
    exact ⟨rfl, hr⟩

private theorem refines_releaseDir (hr : Refines s p) (fh : Nat) : Simulates (s.releaseDir fh) (p.releaseDir fh) := by
  unfold State.releaseDir Plain.releaseDir
  cases hf : slot s.dirs fh with
  | none => simpa [hr.dirs, hf, Simulates] using hr
  | some i =>
    have hdi := dirCount_pos hf
    obtain ⟨k, h, hh, _⟩ := hr.coherent.dir i hdi
    obtain ⟨hc, hm⟩ := hr.coherent.closed_dir hdi
    obtain ⟨_, hhan, _⟩ := hr.counted.release_spec (Nat.ne_zero_of_lt (State.pins_of_dir hf)) hh
    have hk' : KeepsKeys s.inode_cache (s.inode_cache.release i) := fun j k' h' hj => ⟨h', by rw [hhan, hj]⟩
    simp only [hr.dirs, hf, hh, Option.bind_some, Option.map_some]
    refine ⟨rfl, { hr with
      metadb := hr.metadb.trans hm.symm
      dentries := hm ▸ hr.dentries
      coherent := ?_
      files := hr.files_kept hk'
      dirs := fun fh' => ?_
      dirs_length := by simp [hr.dirs_length] }⟩
    · simp only [dirCount_clear hf]
      exact hc
    · simp only [slot_clear]
      split
      · rfl
      · exact hr.dirs_kept hk' fh'

private theorem refines_readlink (hr : Refines s p) (path : CString) (size : Nat) :
    Simulates (s.readlink path size) (p.readlink path size) := by
  obtain ⟨hf, hd⟩ := hr.found_eq path
  unfold State.readlink Plain.readlink
  rw [State.lookup_eq, hf]
  rcases resolve p.metadb path with _ | ⟨key, name⟩
  · exact ⟨rfl, hr.looked hd⟩
  · simp only [Option.bind_some, hr.metadb]
    cases s.inode_cache.metadb.lookup key with
    | none => exact ⟨rfl, hr.looked hd⟩
    | some v => exact ⟨rfl, hr.looked hd⟩

/-- Each orderly request gives the plain machine's result. -/
theorem step_refines (hr : Refines s p) (c : Env × Op) (hok : Orderly s c) : Simulates (step s c) (p.step c) := by
  obtain ⟨env, op⟩ := c
  cases op with
  | getAttr path => exact refines_getAttr hr hok
  | openFile path flags => exact refines_openFile hr flags hok
  | read fh size offset => exact refines_read hr env fh size offset
  | write fh flags buf offset => exact refines_write hr env fh flags buf offset
  | release fh => exact refines_release hr env fh
  | truncate path n => exact refines_truncate hr env n hok
  | chmod path mode => exact refines_setAttribute hr (f := fun st => { st with st_mode := mode }) (fun _ => rfl) hok
  | chown path uid gid =>
    exact refines_setAttribute hr (f := fun st => { st with st_uid := uid, st_gid := gid }) (fun _ => rfl) hok
  | updateTimens path atim mtim =>
    exact refines_setAttribute hr (f := fun st => { st with st_atim := atim, st_mtim := mtim }) (fun _ => rfl) hok
  | readlink path size => exact refines_readlink hr path size
  | makeNode path mode dev =>
    obtain ⟨he, hr'⟩ := refines_create hr env (fun inode filename =>
      initInodeValue env.memory inode (mode ||| S_IFREG) dev filename env.context env.now) hok
    exact ⟨congrArg State.createResult he, hr'⟩
  | makeDir path mode =>
    obtain ⟨he, hr'⟩ := refines_create hr env (fun inode filename =>
      initInodeValue env.memory inode (mode ||| S_IFDIR) 0 filename env.context env.now) hok
    exact ⟨congrArg State.createResult he, hr'⟩
  | symlink target path =>
    obtain ⟨he, hr'⟩ := refines_create hr env (fun inode filename =>
      initSymlinkValue env.memory inode filename target.val env.context env.now) hok
    exact ⟨congrArg State.symlinkResult he, hr'⟩
  | unlink path => exact refines_unlink hr hok
  | removeDir path => exact refines_removeDir hr hok
  | rename old_path new_path => exact refines_rename hr hok.1 hok.2
  | openDir path => exact refines_openDir hr env hok
  | readDir fh => exact refines_readDir hr env fh
  | releaseDir fh => exact refines_releaseDir hr fh

theorem refines_init (config : Config) (env : Env) (mode : UInt32) (dev : Nat) :
    Refines (State.init config env mode dev) (Plain.init config env mode dev) where
  threshold := rfl
  counter := rfl
  metadb := rfl
  disk := rfl
  dentries := fun k ino ⟨n, hn, _⟩ => by simp [State.init, DentryCache.empty] at hn
  coherent := ⟨State.counted_init config env mode dev, fun i hi => by simp [State.init, openCount, count] at hi,
    fun k h hk => by simp [Plain.init] at hk, fun i j k h h' hi => by simp [State.init, openCount, count] at hi,
    fun k i h ht => by simp [InodeCache.table, State.init, PinnedLru.LRUCache.empty] at ht,
    fun i hi => by simp [State.init, dirCount, count] at hi⟩
  live := fun k h hk => by simp [Plain.init] at hk
  files := fun fh => by simp [State.init, Plain.init, slot]
  files_length := rfl
  dirs := fun fh => by simp [State.init, Plain.init, slot]
  dirs_length := rfl

theorem run_refines (hr : Refines s p) {calls : List (Env × Op)} (hok : Runs.Allowed step Orderly s calls) :
    (Runs.run step s calls).2 = (Runs.run Plain.step p calls).2 ∧
      Refines (Runs.run step s calls).1 (Runs.run Plain.step p calls).1 := by
  obtain ⟨hout, hr'⟩ := Runs.run_simulates Refines id (fun _ _ c hr hok => step_refines hr c hok) hr hok
  exact ⟨by rwa [List.map_id] at hout, hr'⟩

end
end TableFS
