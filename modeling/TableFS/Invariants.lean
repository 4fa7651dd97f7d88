import TableFS.CacheEffects
import TableFS.FileSystem
import TableFS.Lib.Runs

/-! Invariants of every run, whatever requests are made and however handles are interleaved:
the references of open handles are counted exactly, and every value in the store or in the
cache carries the name it is stored under. -/
namespace TableFS
open Slots InodeCache

/-- How many open files point at a handle of the inode cache. -/
def openCount (files : List (Option FileHandle)) (i : Nat) : Nat :=
  count (fun f => decide (f.handle_ = i)) files

def dirCount (dirs : List (Option Nat)) (i : Nat) : Nat := count (fun j => decide (j = i)) dirs

theorem openCount_push (files : List (Option FileHandle)) (f : FileHandle) :
    openCount (push files f) = pin (openCount files) f.handle_ := by
  funext i
  by_cases hi : i = f.handle_
  · subst hi
    simp [openCount, count_push]
  · simp [openCount, count_push, pin_ne _ hi, Ne.symm hi]

theorem openCount_clear {files : List (Option FileHandle)} {fh : Nat} {f : FileHandle}
    (h : slot files fh = some f) : openCount (clear files fh) = unpin (openCount files) f.handle_ := by
  funext i
  by_cases hi : i = f.handle_
  · subst hi
    simp [openCount, count_clear _ h]
  · simp [openCount, count_clear _ h, unpin_ne _ hi, Ne.symm hi]

private theorem openCount_replace {files : List (Option FileHandle)} {fh : Nat} {f f' : FileHandle}
    (h : slot files fh = some f) (hf : f'.handle_ = f.handle_) :
    openCount (replace files fh f') = openCount files := by
  funext i
  exact count_replace _ h (by simp [hf])

theorem openCount_fd {files : List (Option FileHandle)} {fh : Nat} {f : FileHandle}
    (h : slot files fh = some f) (fd : Option Nat) :
    openCount (replace files fh { f with fd_ := fd }) = openCount files := openCount_replace h rfl

theorem openCount_pos {files : List (Option FileHandle)} {fh : Nat} {f : FileHandle}
    (h : slot files fh = some f) : openCount files f.handle_ ≠ 0 :=
  Nat.ne_of_gt ((count_pos_iff _ files).mpr ⟨fh, f, h, by simp⟩)

theorem dirCount_push (dirs : List (Option Nat)) (i : Nat) : dirCount (push dirs i) = pin (dirCount dirs) i := by
  funext j
  by_cases hj : j = i
  · subst hj
    simp [dirCount, count_push]
  · simp [dirCount, count_push, pin_ne _ hj, Ne.symm hj]

theorem dirCount_clear {dirs : List (Option Nat)} {fh i : Nat} (h : slot dirs fh = some i) :
    dirCount (clear dirs fh) = unpin (dirCount dirs) i := by
  funext j
  by_cases hj : j = i
  · subst hj
    simp [dirCount, count_clear _ h]
  · simp [dirCount, count_clear _ h, unpin_ne _ hj, Ne.symm hj]

theorem dirCount_pos {dirs : List (Option Nat)} {fh i : Nat} (h : slot dirs fh = some i) :
    dirCount dirs i ≠ 0 := Nat.ne_of_gt ((count_pos_iff _ dirs).mpr ⟨fh, i, h, by simp⟩)

theorem pin_add (f g : Nat → Nat) (i : Nat) : pin f i + g = pin (f + g) i := by
  funext j
  by_cases hj : j = i
  · subst hj
    simp only [Pi.add_apply, pin_self]
    omega
  · simp [pin_ne _ hj]

theorem unpin_add (f g : Nat → Nat) {i : Nat} (hi : f i ≠ 0) : unpin f i + g = unpin (f + g) i := by
  funext j
  by_cases hj : j = i
  · subst hj
    simp only [Pi.add_apply, unpin_self]
    omega
  · simp [unpin_ne _ hj]

theorem add_pin (f g : Nat → Nat) (i : Nat) : f + pin g i = pin (f + g) i := by
  funext j
  by_cases hj : j = i
  · subst hj
    simp only [Pi.add_apply, pin_self]
    omega
  · simp [pin_ne _ hj]

theorem add_unpin (f g : Nat → Nat) {i : Nat} (hi : g i ≠ 0) : f + unpin g i = unpin (f + g) i := by
  funext j
  by_cases hj : j = i
  · subst hj
    simp only [Pi.add_apply, unpin_self]
    omega
  · simp [unpin_ne _ hj]

namespace State

def writers (s : State) : Nat → Nat := openCount s.files

def pins (s : State) : Nat → Nat := openCount s.files + dirCount s.dirs

/-- The inode cache counts exactly the references of the open handles. -/
def Counted (s : State) : Prop := s.inode_cache.Sound s.pins s.writers

variable {s : State}

theorem Counted.handle_of_file (hs : s.Counted) {fh : Nat} {f : FileHandle} (h : slot s.files fh = some f) :
    ∃ k hd, s.inode_cache.handle f.handle_ = some (k, hd) :=
  hs.counted.pinned_data (Nat.ne_of_gt (Nat.lt_of_lt_of_le (Nat.pos_of_ne_zero (openCount_pos h)) (hs.le _)))

theorem Counted.handle_of_dir (hs : s.Counted) {fh i : Nat} (h : slot s.dirs fh = some i) :
    ∃ k hd, s.inode_cache.handle i = some (k, hd) :=
  hs.counted.pinned_data (by
    have := dirCount_pos h
    simp only [pins, Pi.add_apply]
    omega)

theorem fileOf_some {fh : Nat} {f : FileHandle} {k : MetaKey} {h : InodeCacheHandle} :
    s.fileOf fh = some (f, k, h) ↔ slot s.files fh = some f ∧ s.inode_cache.handle f.handle_ = some (k, h) :=
  slot_bind_eq_some

/-- A handle number stands for one open file. -/
theorem fileOf_inj {fh : Nat} {f f' : FileHandle} {k k' : MetaKey} {h h' : InodeCacheHandle}
    (hf : s.fileOf fh = some (f, k, h)) (hf' : s.fileOf fh = some (f', k', h')) : f = f' ∧ k = k' ∧ h = h' := by
  rw [hf] at hf'
  exact (Prod.mk.inj (Option.some.inj hf')).imp_right Prod.mk.inj

theorem dirOf_some {fh i : Nat} {k : MetaKey} {h : InodeCacheHandle} :
    s.dirOf fh = some (i, k, h) ↔ slot s.dirs fh = some i ∧ s.inode_cache.handle i = some (k, h) :=
  slot_bind_eq_some

/-- The dentry cache after a lookup. -/
def looked (s : State) (path : CString) : DentryCache :=
  (pathLookup s.dentry_cache s.inode_cache.metadb path).1

/-- The key and name a lookup finds. -/
def found (s : State) (path : CString) : Option (MetaKey × List UInt8) :=
  (pathLookup s.dentry_cache s.inode_cache.metadb path).2

theorem lookup_eq (s : State) (path : CString) :
    s.lookup path = ({ s with dentry_cache := s.looked path }, s.found path) := rfl

theorem getInode_spec {pins writers : Nat → Nat} (hs : s.inode_cache.Sound pins writers) (key : MetaKey)
    (mode : InodeAccessMode) :
    (s.getInode key mode = (s, none) ∧ s.inode_cache.table key = none ∧
      s.inode_cache.metadb.lookup key = none) ∨
    ∃ ic i h, s.getInode key mode = ({ s with inode_cache := ic }, some (i, h.value_)) ∧
      Placed s.inode_cache ic key i h ∧ Origin s.inode_cache ic key mode i h ∧
      ic.Sound (pin pins i) (pin writers i) := by
  rcases hs.get_spec key mode with ⟨ht, hm, hg⟩ | ⟨ic, i, h, hg, hp, ho, hs'⟩
  · refine .inl ⟨?_, ht, hm⟩
    simp only [getInode, hg, Option.bind_none]
  · refine .inr ⟨ic, i, h, ?_, hp, ho, hs'⟩
    simp only [getInode, hg, Option.bind_some, hp.self, Option.map_some]

/-- The outcomes of a lookup and a Get: no record to be found, or a pinned handle. -/
theorem acquire_spec {pins writers : Nat → Nat} (hs : s.inode_cache.Sound pins writers) (path : CString)
    (mode : InodeAccessMode) :
    (s.acquire path mode = ({ s with dentry_cache := s.looked path }, none) ∧
      ∀ key name, s.found path = some (key, name) →
        s.inode_cache.table key = none ∧ s.inode_cache.metadb.lookup key = none) ∨
    ∃ key name ic i h, s.found path = some (key, name) ∧
      s.acquire path mode =
        ({ s with dentry_cache := s.looked path, inode_cache := ic }, some (key, i, h.value_)) ∧
      Placed s.inode_cache ic key i h ∧ Origin s.inode_cache ic key mode i h ∧
      ic.Sound (pin pins i) (pin writers i) := by
  unfold acquire
  rw [lookup_eq]
  rcases hf : s.found path with _ | ⟨key, name⟩
  · exact .inl ⟨rfl, by simp⟩
  · rcases getInode_spec (s := { s with dentry_cache := s.looked path }) hs key mode with
      ⟨hg, ht, hm⟩ | ⟨ic, i, h, hg, hp, ho, hs'⟩
    · refine .inl ⟨by simp only [hg, Option.map_none], ?_⟩
      intro k n hk
      obtain ⟨rfl, -⟩ := Prod.mk.inj (Option.some.inj hk)
      exact ⟨ht, hm⟩
    · exact .inr ⟨key, name, ic, i, h, rfl, by simp only [hg, Option.map_some], hp, ho, hs'⟩

/-- The inode handle an open file points at. -/
def handleOf (s : State) (fh : Nat) : Option Nat := (slot s.files fh).map FileHandle.handle_

/-- The same handles are open; only descriptors may differ. -/
structure SameHandles (s s' : State) : Prop where
  writers : s'.writers = s.writers
  handles : ∀ fh, s'.handleOf fh = s.handleOf fh
  length : s'.files.length = s.files.length
  dirs : s'.dirs = s.dirs

theorem SameHandles.pins {s s' : State} (h : SameHandles s s') : s'.pins = s.pins :=
  congrArg₂ (· + ·) h.writers (congrArg dirCount h.dirs)

theorem sameHandles_of_eq {s s' : State} (hf : s'.files = s.files) (hd : s'.dirs = s.dirs) : SameHandles s s' :=
  ⟨congrArg openCount hf, fun fh => by rw [handleOf, handleOf, hf], congrArg List.length hf, hd⟩

private theorem sameHandles_replace {s s' : State} {fh : Nat} {f f' : FileHandle} (h : slot s.files fh = some f)
    (hf : s'.files = replace s.files fh f') (he : f'.handle_ = f.handle_) (hd : s'.dirs = s.dirs) :
    SameHandles s s' := by
  refine ⟨?_, fun j => ?_, by rw [hf, length_replace], hd⟩
  · rw [writers, writers, hf, openCount_replace h he]
  · rw [handleOf, handleOf, hf, slot_replace (lt_of_slot h)]
    split
    · subst j
      simp [h, he]
    · rfl

end State

open State in
/-- The path whose record a request removes. -/
def Op.removed : Op → Option CString
  | .unlink path => some path
  | .removeDir path => some path
  | _ => none

namespace State

/-- The dentry cache gained only what the store says. -/
def Walks (s s' : State) : Prop := s.dentry_cache.Walked s'.dentry_cache s.inode_cache.metadb

theorem Walks.of_eq {s s' : State} (h : s'.dentry_cache = s.dentry_cache) : s.Walks s' := by
  rw [Walks, h]
  exact .refl _ _

theorem Walks.looked {s s' : State} {path : CString} (h : s'.dentry_cache = s.looked path) : s.Walks s' := by
  rw [Walks, h]
  exact walked_pathLookup _ _ _

end State

open State in
/-- What a request does to the inode cache, the open handles, the dentry cache and the counter of
inode numbers, with the paths that the keys come from. -/
inductive Deed (s : State) : Env × Op → State → Prop where
  | idle {c s'} : s'.inode_cache = s.inode_cache → SameHandles s s' → s.Walks s' →
      s'.max_inode_num = s.max_inode_num → Deed s c s'
  | peek {c s' ic key i h} : Placed s.inode_cache ic key i h → Origin s.inode_cache ic key .read i h →
      ic.Sound (pin s.pins i) (pin s.writers i) → s'.inode_cache = ic.release i → SameHandles s s' →
      s.Walks s' → s'.max_inode_num = s.max_inode_num → Deed s c s'
  | modify {c s' ic key i h g} : Placed s.inode_cache ic key i h →
      Origin s.inode_cache ic key .write i h → ic.Sound (pin s.pins i) (pin s.writers i) →
      (g h).mode_ = h.mode_ → Keeps h.value_ (g h).value_ →
      s'.inode_cache = ((ic.update i g).writeBack i).release i → SameHandles s s' → s.Walks s' →
      s'.max_inode_num = s.max_inode_num → Deed s c s'
  | remove {c s' path key name ic i h} : c.2.removed = some path → s.found path = some (key, name) →
      Placed s.inode_cache ic key i h →
      Origin s.inode_cache ic key .delete i h → ic.Sound (pin s.pins i) (pin s.writers i) →
      s'.inode_cache = (ic.release i).evict key → SameHandles s s' → s.Walks s' →
      (∀ ino, ¬ s'.dentry_cache.Maps key ino) → s'.max_inode_num = s.max_inode_num → Deed s c s'
  | move {s' ic old oname new i h name old_path new_path env} : s.found old_path = some (old, oname) →
      Placed s.inode_cache ic old i h →
      Origin s.inode_cache ic old .delete i h → ic.Sound (pin s.pins i) (pin s.writers i) →
      (pathLookup (s.looked old_path) s.inode_cache.metadb new_path).2 = some (new, name) →
      s'.inode_cache = (((((ic.insert new (renameInodeValue h.value_ name)).1.batchCommit i
        (ic.insert new (renameInodeValue h.value_ name)).2 env.commit).release
        (ic.insert new (renameInodeValue h.value_ name)).2).release i).evict old) →
      SameHandles s s' → s.Walks s' → (∀ key ino, key = old ∨ key = new → ¬ s'.dentry_cache.Maps key ino) →
      s'.max_inode_num = s.max_inode_num → Deed s (env, .rename old_path new_path) s'
  | opened {c s' ic key mode i h flags fd} : Placed s.inode_cache ic key i h →
      Origin s.inode_cache ic key mode i h → ic.Sound (pin s.pins i) (pin s.writers i) →
      s'.inode_cache = ic → s'.files = push s.files ⟨i, flags, fd⟩ → s'.dirs = s.dirs → s.Walks s' →
      s'.max_inode_num = s.max_inode_num → Deed s c s'
  | openedDir {c s' ic key i h} : Placed s.inode_cache ic key i h →
      Origin s.inode_cache ic key .read i h → ic.Sound (pin s.pins i) (pin s.writers i) →
      s'.inode_cache = ic → s'.files = s.files → s'.dirs = push s.dirs i → s.Walks s' →
      s'.max_inode_num = s.max_inode_num → Deed s c s'
  | wrote {s' env fh flags buf offset f key h v} : s.fileOf fh = some (f, key, h) → Keeps h.value_ v →
      s'.inode_cache = s.inode_cache.update f.handle_ (fun _ => ⟨v, .write⟩) → SameHandles s s' →
      s'.dentry_cache = s.dentry_cache → s'.max_inode_num = s.max_inode_num →
      Deed s (env, .write fh flags buf offset) s'
  | closed {s' env fh f key h g} : s.fileOf fh = some (f, key, h) → (g h).mode_ = h.mode_ →
      Keeps h.value_ (g h).value_ → (h.mode_ ≠ .write → g h = h) →
      s'.inode_cache = (((s.inode_cache.update f.handle_ g).writeBack f.handle_).release f.handle_).evict key →
      s'.files = clear s.files fh → s'.dirs = s.dirs → s'.dentry_cache = s.dentry_cache →
      s'.max_inode_num = s.max_inode_num → Deed s (env, .release fh) s'
  | closedDir {s' env fh i} : slot s.dirs fh = some i → s'.inode_cache = s.inode_cache.release i →
      s'.files = s.files → s'.dirs = clear s.dirs fh → s'.dentry_cache = s.dentry_cache →
      s'.max_inode_num = s.max_inode_num → Deed s (env, .releaseDir fh) s'
  | put {c s' path key name v} : c.2.created = some path → s.found path = some (key, name) → v.Named name →
      v.fstat.st_ino = s.max_inode_num + 1 → s'.inode_cache = s.inode_cache.put key v → SameHandles s s' →
      s.Walks s' → s'.max_inode_num = s.max_inode_num + 1 → Deed s c s'
  | unput {c s' path} : c.2.created = some path → s'.inode_cache = s.inode_cache → SameHandles s s' →
      s.Walks s' → s'.max_inode_num = s.max_inode_num + 1 → Deed s c s'

section
variable {s : State} {env : Env}

private theorem deed_idle {s' : State} (c : Env × Op) (hic : s'.inode_cache = s.inode_cache)
    (hf : s'.files = s.files) (hd : s'.dirs = s.dirs) (hw : s.Walks s') (hn : s'.max_inode_num = s.max_inode_num) :
    Deed s c s' := .idle hic (State.sameHandles_of_eq hf hd) hw hn

private theorem deed_getAttr (hs : s.Counted) (path : CString) : Deed s (env, .getAttr path) (s.getAttr path).1 := by
  unfold State.getAttr
  rcases State.acquire_spec hs path .read with ⟨ha, _⟩ | ⟨key, name, ic, i, h, _, ha, hp, ho, hs'⟩
  · rw [ha]
    exact deed_idle _ rfl rfl rfl (.looked rfl) rfl
  · rw [ha]
    exact .peek hp ho hs' rfl (State.sameHandles_of_eq rfl rfl) (.looked rfl) rfl

private theorem deed_openFile (hs : s.Counted) (path : CString) (flags : OpenFlags) :
    Deed s (env, .openFile path flags) (s.openFile path flags).1 := by
  unfold State.openFile
  rcases State.acquire_spec hs path flags.mode with ⟨ha, _⟩ | ⟨key, name, ic, i, h, _, ha, hp, ho, hs'⟩
  · rw [ha]
    exact deed_idle _ rfl rfl rfl (.looked rfl) rfl
  · rw [ha]
    exact .opened hp ho hs' rfl rfl rfl (.looked rfl) rfl

private theorem deed_read (s : State) (env : Env) (fh size offset : Nat) :
    Deed s (env, .read fh size offset) (s.read env fh size offset).1 := by
  unfold State.read
  split
  · exact deed_idle _ rfl rfl rfl (.of_eq rfl) rfl
  · rename_i f k h hf
    exact .idle rfl (State.sameHandles_replace (State.fileOf_some.mp hf).1 rfl rfl rfl) (.of_eq rfl) rfl

private theorem deed_write (s : State) (env : Env) (fh : Nat) (flags : OpenFlags) (buf : List UInt8) (offset : Nat) :
    Deed s (env, .write fh flags buf offset) (s.write env fh flags buf offset).1 := by
  unfold State.write
  split
  · exact deed_idle _ rfl rfl rfl (.of_eq rfl) rfl
  · rename_i f k h hf
    exact .wrote hf (keeps_writeValue env s.threshold_ s.disk h.value_ f.fd_ f.flags_ flags buf offset) rfl
      (State.sameHandles_replace (State.fileOf_some.mp hf).1 rfl rfl rfl) rfl rfl

theorem touch_spec (now : Int) (h : InodeCacheHandle) :
    (State.touch now h).mode_ = h.mode_ ∧ Keeps h.value_ (State.touch now h).value_ ∧
      (h.mode_ ≠ .write → State.touch now h = h) := by
  unfold State.touch
  split
  · exact ⟨rfl, .attr rfl, fun hn => absurd ‹_› hn⟩
  · exact ⟨rfl, .refl _, fun _ => rfl⟩

private theorem deed_release (s : State) (env : Env) (fh : Nat) : Deed s (env, .release fh) (s.release env fh).1 := by
  unfold State.release
  split
  · exact deed_idle _ rfl rfl rfl (.of_eq rfl) rfl
  · rename_i f k h hf
    obtain ⟨hm, hk, hn⟩ := touch_spec env.now h
    exact .closed hf hm hk hn rfl rfl rfl rfl rfl

private theorem deed_truncate (hs : s.Counted) (env : Env) (path : CString) (n : Nat) :
    Deed s (env, .truncate path n) (s.truncate env path n).1 := by
  unfold State.truncate
  rcases State.acquire_spec hs path .write with ⟨ha, _⟩ | ⟨key, name, ic, i, h, _, ha, hp, ho, hs'⟩
  · rw [ha]
    exact deed_idle _ rfl rfl rfl (.looked rfl) rfl
  · rw [ha]
    exact .modify (g := fun h' => { h' with value_ := (truncateValue env s.threshold_ s.disk h.value_ n).2.1 })
      hp ho hs' rfl (keeps_truncateValue env s.threshold_ s.disk h.value_ n) rfl
      (State.sameHandles_of_eq rfl rfl) (.looked rfl) rfl

private theorem deed_setAttribute (hs : s.Counted) (op : Op) (path : CString) {f : Stat → Stat}
    (hf : ∀ st, (f st).st_ino = st.st_ino) : Deed s (env, op) (s.setAttribute path f).1 := by
  unfold State.setAttribute
  rcases State.acquire_spec hs path .write with ⟨ha, _⟩ | ⟨key, name, ic, i, h, _, ha, hp, ho, hs'⟩
  · rw [ha]
    exact deed_idle _ rfl rfl rfl (.looked rfl) rfl
  · rw [ha]
    exact .modify (g := fun h => { h with value_ := updateAttribute h.value_ (f h.value_.fstat) })
      hp ho hs' rfl (.attr (hf _)) rfl (State.sameHandles_of_eq rfl rfl) (.looked rfl) rfl

private theorem deed_readlink (s : State) (env : Env) (path : CString) (size : Nat) :
    Deed s (env, .readlink path size) (s.readlink path size).1 := by
  unfold State.readlink
  rw [State.lookup_eq]
  split
  · rename_i heq
    obtain ⟨rfl, -⟩ := Prod.mk.inj heq
    exact deed_idle _ rfl rfl rfl (.looked rfl) rfl
  · rename_i heq
    obtain ⟨rfl, -⟩ := Prod.mk.inj heq
    split <;> exact deed_idle _ rfl rfl rfl (.looked rfl) rfl

private theorem deed_create {op : Op} {path : CString} {value : UInt64 → List UInt8 → Value}
    (hop : op.created = some path)
    (hv : ∀ inode name, (value inode name).Named name ∧ (value inode name).fstat.st_ino = inode) :
    Deed s (env, op) (s.create env path value).1 := by
  unfold State.create
  rw [State.lookup_eq]
  rcases hf : s.found path with _ | ⟨key, name⟩
  · exact deed_idle _ rfl rfl rfl (.looked rfl) rfl
  · simp only
    split
    · exact .put hop hf (hv _ name).1 (hv _ name).2 rfl (State.sameHandles_of_eq rfl rfl) (.looked rfl) rfl
    · exact .unput hop rfl (State.sameHandles_of_eq rfl rfl) (.looked rfl) rfl

private theorem maps_looked_evict {path : CString} {key : MetaKey} {s' : State}
    (h : s'.dentry_cache = (s.looked path).evict key) :
    s.Walks s' ∧ ∀ ino, ¬ s'.dentry_cache.Maps key ino := by
  unfold State.Walks
  rw [h]
  exact ⟨(walked_pathLookup _ _ _).evict key, fun ino hm => ((DentryCache.maps_evict _ key key ino).mp hm).1 rfl⟩

private theorem deed_remove (hs : s.Counted) (path : CString) :
    Deed s (env, .unlink path) (s.unlink path).1 ∧ Deed s (env, .removeDir path) (s.removeDir path).1 := by
  unfold State.unlink State.removeDir
  rcases State.acquire_spec hs path .delete with ⟨ha, _⟩ | ⟨key, name, ic, i, h, hf, ha, hp, ho, hs'⟩
  · rw [ha]
    exact ⟨deed_idle _ rfl rfl rfl (.looked rfl) rfl, deed_idle _ rfl rfl rfl (.looked rfl) rfl⟩
  · rw [ha]
    have hremove {op : Op} {s' : State} (hop : op.removed = some path)
        (hd : s'.dentry_cache = (s.looked path).evict key) (hic : s'.inode_cache = (ic.release i).evict key)
        (hh : State.SameHandles s s') (hn : s'.max_inode_num = s.max_inode_num) : Deed s (env, op) s' :=
      .remove hop hf hp ho hs' hic hh (maps_looked_evict hd).1 (maps_looked_evict hd).2 hn
    exact ⟨hremove rfl rfl rfl (State.sameHandles_of_eq rfl rfl) rfl,
      hremove rfl rfl rfl (State.sameHandles_of_eq rfl rfl) rfl⟩

private theorem deed_rename (hs : s.Counted) (env : Env) (old_path new_path : CString) :
    Deed s (env, .rename old_path new_path) (s.rename env old_path new_path).1 := by
  unfold State.rename
  rw [State.lookup_eq]
  rcases hfo : s.found old_path with _ | ⟨old, name⟩
  · exact deed_idle _ rfl rfl rfl (.looked rfl) rfl
  · simp only [State.lookup_eq]
    have hwalk : s.dentry_cache.Walked
        (State.looked { s with dentry_cache := s.looked old_path } new_path) s.inode_cache.metadb :=
      (walked_pathLookup _ _ _).trans (walked_pathLookup _ _ _)
    rcases hfn : State.found { s with dentry_cache := s.looked old_path } new_path with _ | ⟨new, filename⟩
    · exact deed_idle _ rfl rfl rfl hwalk rfl
    · simp only
      revert hwalk
      generalize State.looked _ new_path = d
      intro hwalk
      unfold State.renameKey
      rcases State.getInode_spec (s := { s with dentry_cache := d }) hs old .delete with
        ⟨hg, _⟩ | ⟨ic, i, h, hg, hp, ho, hs'⟩
      · simp only [hg]
        exact deed_idle _ rfl rfl rfl hwalk rfl
      · simp only [hg]
        refine .move hfo hp ho hs' hfn rfl (State.sameHandles_of_eq rfl rfl) ((hwalk.evict old).evict new) ?_ rfl
        rintro key ino (rfl | rfl) hm
        · exact ((DentryCache.maps_evict _ _ _ _).mp ((DentryCache.maps_evict _ _ _ _).mp hm).2).1 rfl
        · exact ((DentryCache.maps_evict _ _ _ _).mp hm).1 rfl

private theorem deed_openDir (hs : s.Counted) (env : Env) (path : CString) :
    Deed s (env, .openDir path) (s.openDir env path).1 := by
  unfold State.openDir
  rw [State.lookup_eq]
  rcases s.found path with _ | ⟨key, name⟩
  · exact deed_idle _ rfl rfl rfl (.looked rfl) rfl
  · rcases State.getInode_spec (s := { s with dentry_cache := s.looked path }) hs key .read with
      ⟨hg, _⟩ | ⟨ic, i, h, hg, hp, ho, hs'⟩
    · simp only [hg]
      exact deed_idle _ rfl rfl rfl (.looked rfl) rfl
    · simp only [hg]
      exact .openedDir hp ho hs' rfl rfl rfl (.looked rfl) rfl

private theorem deed_readDir (s : State) (env : Env) (fh : Nat) : Deed s (env, .readDir fh) (s.readDir env fh).1 := by
  unfold State.readDir
  split <;> exact deed_idle _ rfl rfl rfl (.of_eq rfl) rfl

private theorem deed_releaseDir (s : State) (env : Env) (fh : Nat) :
    Deed s (env, .releaseDir fh) (s.releaseDir fh).1 := by
  unfold State.releaseDir
  split
  · exact deed_idle _ rfl rfl rfl (.of_eq rfl) rfl
  · exact .closedDir ‹_› rfl rfl rfl rfl rfl

/-- Every request does one of the things listed in `Deed`. -/
theorem step_deed (hs : s.Counted) (env : Env) (op : Op) : Deed s (env, op) (step s (env, op)).1 := by
  cases op with
  | getAttr path => exact deed_getAttr hs path
  | openFile path flags => exact deed_openFile hs path flags
  | read fh size offset => exact deed_read s env fh size offset
  | write fh flags buf offset => exact deed_write s env fh flags buf offset
  | release fh => exact deed_release s env fh
  | truncate path n => exact deed_truncate hs env path n
  | chmod path mode => exact deed_setAttribute hs _ path (f := fun st => { st with st_mode := mode }) fun _ => rfl
  | chown path uid gid =>
    exact deed_setAttribute hs _ path (f := fun st => { st with st_uid := uid, st_gid := gid }) fun _ => rfl
  | updateTimens path atim mtim =>
    exact deed_setAttribute hs _ path (f := fun st => { st with st_atim := atim, st_mtim := mtim }) fun _ => rfl
  | readlink path size => exact deed_readlink s env path size
  | makeNode path mode dev => exact deed_create rfl (fun _ _ => ⟨named_initInodeValue .., rfl⟩)
  | makeDir path mode => exact deed_create rfl (fun _ _ => ⟨named_initInodeValue .., rfl⟩)
  | symlink target path => exact deed_create rfl (fun _ _ => ⟨named_initSymlinkValue .., rfl⟩)
  | unlink path => exact (deed_remove hs path).1
  | removeDir path => exact (deed_remove hs path).2
  | rename old_path new_path => exact deed_rename hs env old_path new_path
  | openDir path => exact deed_openDir hs env path
  | readDir fh => exact deed_readDir s env fh
  | releaseDir fh => exact deed_releaseDir s env fh

theorem State.writers_of_file {fh : Nat} {f : FileHandle} {k : MetaKey} {h : InodeCacheHandle}
    (hf : s.fileOf fh = some (f, k, h)) : s.writers f.handle_ ≠ 0 :=
  openCount_pos (State.fileOf_some.mp hf).1

theorem State.pins_of_dir {fh i : Nat} (h : slot s.dirs fh = some i) : s.writers i < s.pins i := by
  have := dirCount_pos h
  simp only [State.pins, State.writers, Pi.add_apply]
  omega

section
variable {s' : State}

/-! The references after a handle was opened or closed. -/

theorem State.pins_push_file {f : FileHandle} (hf : s'.files = push s.files f) (hd : s'.dirs = s.dirs) :
    s'.pins = pin s.pins f.handle_ ∧ s'.writers = pin s.writers f.handle_ := by
  have hw : s'.writers = pin s.writers f.handle_ := (congrArg openCount hf).trans (openCount_push ..)
  exact ⟨(congrArg₂ (· + ·) hw (congrArg dirCount hd)).trans (pin_add ..), hw⟩

theorem State.pins_push_dir {i : Nat} (hf : s'.files = s.files) (hd : s'.dirs = push s.dirs i) :
    s'.pins = pin s.pins i ∧ s'.writers = s.writers := by
  refine ⟨?_, congrArg openCount hf⟩
  rw [State.pins, hf, hd, dirCount_push, add_pin]
  rfl

theorem State.pins_clear_file {fh : Nat} {f : FileHandle} (hslot : slot s.files fh = some f)
    (hf : s'.files = clear s.files fh) (hd : s'.dirs = s.dirs) :
    s'.pins = unpin s.pins f.handle_ ∧ s'.writers = unpin s.writers f.handle_ := by
  have hw : s'.writers = unpin s.writers f.handle_ := (congrArg openCount hf).trans (openCount_clear hslot)
  exact ⟨(congrArg₂ (· + ·) hw (congrArg dirCount hd)).trans (unpin_add _ _ (openCount_pos hslot)), hw⟩

theorem State.pins_clear_dir {fh i : Nat} (hslot : slot s.dirs fh = some i) (hf : s'.files = s.files)
    (hd : s'.dirs = clear s.dirs fh) : s'.pins = unpin s.pins i ∧ s'.writers = s.writers := by
  refine ⟨?_, congrArg openCount hf⟩
  rw [State.pins, hf, hd, dirCount_clear hslot, add_unpin _ _ (dirCount_pos hslot)]
  rfl

end

/-- References stay counted exactly. -/
theorem Deed.counted {c : Env × Op} {s' : State} (hc : Deed s c s') (hs : s.Counted) : s'.Counted := by
  unfold State.Counted
  cases hc with
  | idle hic hh =>
    rw [hic, hh.pins, hh.writers]
    exact hs
  | peek hp ho hs' hic hh =>
    rw [hic, hh.pins, hh.writers]
    exact (Sound.peek hs hp ho hs').2.2.2
  | modify hp ho hs' hg _ hic hh =>
    rw [hic, hh.pins, hh.writers]
    exact (Sound.modify hp ho hs' hg).2.2.2.2
  | remove _ _ hp ho hs' hic hh =>
    rw [hic, hh.pins, hh.writers]
    exact (Sound.remove hs hp ho hs').2.2.2
  | move _ hp ho hs' _ hic hh =>
    rw [hic, hh.pins, hh.writers]
    exact (Sound.move _ hp ho hs' _ _).2.2.2.2.2.2.2
  | opened _ _ hs' hic hf hd =>
    rw [hic, (State.pins_push_file hf hd).1, (State.pins_push_file hf hd).2]
    exact hs'
  | openedDir hp ho hs' hic hf hd =>
    rw [hic, (State.pins_push_dir hf hd).1, (State.pins_push_dir hf hd).2]
    exact Sound.got_read hs hp ho hs'
  | wrote hf _ hic hh =>
    rw [hic, hh.pins, hh.writers]
    exact Sound.update hs _ _ (.inl (State.writers_of_file hf))
  | closed hf hg _ _ hic hfiles hd =>
    obtain ⟨hslot, hh⟩ := State.fileOf_some.mp hf
    rw [hic, (State.pins_clear_file hslot hfiles hd).1, (State.pins_clear_file hslot hfiles hd).2]
    exact (Sound.close hs (State.writers_of_file hf) hh hg).2.2.2.2
  | closedDir hslot hic hf hd =>
    obtain ⟨k, h, hh⟩ := State.Counted.handle_of_dir hs hslot
    rw [hic, (State.pins_clear_dir hslot hf hd).1, (State.pins_clear_dir hslot hf hd).2]
    exact Sound.release_reader hs (State.pins_of_dir hslot) hh
  | put _ _ _ _ hic hh =>
    rw [hic, hh.pins, hh.writers]
    exact Sound.of_metadb hs _
  | unput _ hic hh =>
    rw [hic, hh.pins, hh.writers]
    exact hs

end

theorem State.counted_init (config : Config) (env : Env) (mode : UInt32) (dev : Nat) :
    (State.init config env mode dev).Counted :=
  ⟨PinnedLru.LRUCache.counted_empty _ _, fun k i h ht => by simp [InodeCache.table, init, PinnedLru.LRUCache.empty] at ht,
    fun i => by simp [State.writers, init, openCount, count]⟩

end TableFS
