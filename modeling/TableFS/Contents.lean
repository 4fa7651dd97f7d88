import TableFS.ByteSimulation

/-! File contents through the caches: as long as there is one copy of every open inode and no
handle is left with a descriptor of an old disk file, the file system is one of byte lists. -/
namespace TableFS
open ByteSeq Slots Disk InodeCache Runs

/-- Every call on the store and on the data files succeeds in full. -/
def Env.Succeeds (env : Env) : Prop :=
  env.put = true ∧ env.migrate = .full ∧ env.data = .full ∧ env.resize = .full ∧ env.readBack = .full

/-- The requests on names and data as the kernel sends them: sizes fit, records are created on
absent names, and an open file is not removed. -/
def ProperOn (keyOf : CString → Option MetaKey) (absent isOpen : MetaKey → Prop) : Op → Prop
  | .getAttr _ => True
  | .openFile _ flags => flags = O_RDWR
  | .read _ size _ => size < 2147483648
  | .write _ fi_flags buf offset =>
    fi_flags = O_RDWR ∧ 1 ≤ buf.length ∧ buf.length < 2147483648 ∧ offset + buf.length < 9223372036854775808
  | .release _ => True
  | .truncate _ new_size => new_size < 9223372036854775808
  | .makeNode path _ _ => ∀ key ∈ keyOf path, absent key
  | .makeDir path _ => ∀ key ∈ keyOf path, absent key
  | .unlink path => ∀ key ∈ keyOf path, ¬ isOpen key
  | _ => False

def Proper (s : State) : Op → Prop :=
  ProperOn s.keyOf (fun key => s.inode_cache.metadb.lookup key = none) s.OpenOn

/-- The path of a request that works on a file through the inode cache and keeps it. -/
def Op.inspected : Op → Option CString
  | .getAttr path => some path
  | .openFile path _ => some path
  | .truncate path _ => some path
  | _ => none

/-- The path of a request on a file that is there. -/
def Op.visited : Op → Option CString
  | .unlink path => some path
  | op => op.inspected

/-- The data file of the next inode is not that of a present one. -/
def FreshPath (s : State) (op : Op) : Prop :=
  op.created.isSome = true → ∀ k ∈ s.inode_cache.metadb.keys, ∀ v ∈ s.inode_cache.metadb.lookup k,
    getDiskFilePath v.fstat.st_ino ≠ getDiskFilePath (s.max_inode_num + 1)

/-- No handle on the key, except the given one, has a descriptor while the data is inline. -/
def State.NoStale (s : State) (key : MetaKey) (but : Option Nat) : Prop :=
  ∀ fh < s.files.length, some fh ≠ but → ∀ x ∈ s.fileOf fh, x.2.1 = key →
    x.2.2.value_.header.has_blob = 0 → x.1.fd_ = none

/-- The handle of a Write and the end of the bytes it writes. -/
def Op.written : Op → Option (Nat × Nat)
  | .write fh _ buf offset => some (fh, offset + buf.length)
  | _ => none

/-- The path and the size of a Truncate. -/
def Op.truncated : Op → Option (CString × Nat)
  | .truncate path new_size => some (path, new_size)
  | _ => none

/-- Data moves to disk only if no other handle has a descriptor of an earlier disk file, and
the unset descriptor in Truncate is not that of a handle. -/
def StaleFree (s : State) (c : Env × Op) : Prop :=
  (∀ w ∈ c.2.written, s.threshold_ < w.2 → ∀ x ∈ s.fileOf w.1, s.NoStale x.2.1 (some w.1)) ∧
  ∀ t ∈ c.2.truncated, (∀ fh < s.files.length, ∀ x ∈ s.fileOf fh, ∀ n ∈ c.1.fd, x.1.fd_ ≠ some n) ∧
    (s.threshold_ < t.2 → ∀ key ∈ s.keyOf t.1, s.NoStale key none)

/-- The unset descriptor in Truncate is not that of a handle. -/
def SparesHandles (s : State) (c : Env × Op) : Prop :=
  ∀ t ∈ c.2.truncated, ∀ fh < s.files.length, ∀ x ∈ s.fileOf fh, ∀ n ∈ c.1.fd, x.1.fd_ ≠ some n

/-- Truncate looks at the old size through a pointer into the value's string. A Truncate that leaves the data
inline finds it there if the string is not moved: it gets no longer, or there is room for it. -/
def InPlace (s : State) (c : Env × Op) : Prop :=
  ∀ t ∈ c.2.truncated, ∀ x ∈ (s.acquire t.1 .write).2, t.2 ≤ s.threshold_ → t.2 ≤ max x.2.2.inline.length c.1.room

/-- Requests that find every open inode in the cache. -/
def Cached (s : State) (c : Env × Op) : Prop :=
  c.1.Succeeds ∧ Proper s c.2 ∧ FreshPath s c.2 ∧ ∀ path ∈ c.2.inspected, ∀ key ∈ s.keyOf path, s.Shared key

/-- The value of a file: that of an open handle, else the stored record. -/
def State.FileValue (s : State) (key : MetaKey) (v : Value) : Prop :=
  (∃ fh f h, s.fileOf fh = some (f, key, h) ∧ h.value_ = v) ∨
    (¬ s.OpenOn key ∧ s.inode_cache.metadb.lookup key = some v)

instance (env : Env) : Decidable env.Succeeds := inferInstanceAs (Decidable (_ ∧ _ ∧ _ ∧ _ ∧ _))

instance (keyOf : CString → Option MetaKey) (absent isOpen : MetaKey → Prop) [DecidablePred absent]
    [DecidablePred isOpen] : (op : Op) → Decidable (ProperOn keyOf absent isOpen op)
  | .getAttr _ => isTrue trivial
  | .openFile _ flags => inferInstanceAs (Decidable (flags = O_RDWR))
  | .read _ size _ => inferInstanceAs (Decidable (size < 2147483648))
  | .write _ _ _ _ => inferInstanceAs (Decidable (_ ∧ _ ∧ _ ∧ _))
  | .release _ => isTrue trivial
  | .truncate _ _ => inferInstanceAs (Decidable (_ < _))
  | .makeNode path _ _ => inferInstanceAs (Decidable (∀ key ∈ keyOf path, absent key))
  | .makeDir path _ => inferInstanceAs (Decidable (∀ key ∈ keyOf path, absent key))
  | .unlink path => inferInstanceAs (Decidable (∀ key ∈ keyOf path, ¬ isOpen key))
  | .chmod _ _ => isFalse id
  | .chown _ _ _ => isFalse id
  | .updateTimens _ _ _ => isFalse id
  | .readlink _ _ => isFalse id
  | .symlink _ _ => isFalse id
  | .removeDir _ => isFalse id
  | .rename _ _ => isFalse id
  | .openDir _ => isFalse id
  | .readDir _ => isFalse id
  | .releaseDir _ => isFalse id

instance (s : State) (op : Op) : Decidable (Proper s op) := inferInstanceAs (Decidable (ProperOn _ _ _ op))

instance (s : State) (op : Op) : Decidable (FreshPath s op) := inferInstanceAs (Decidable (_ → _))

instance (s : State) (key : MetaKey) (but : Option Nat) : Decidable (s.NoStale key but) :=
  inferInstanceAs (Decidable (∀ fh < s.files.length, _))

instance (s : State) (c : Env × Op) : Decidable (StaleFree s c) := inferInstanceAs (Decidable (_ ∧ _))

instance (s : State) (c : Env × Op) : Decidable (SparesHandles s c) :=
  inferInstanceAs (Decidable (∀ t ∈ c.2.truncated, _))

instance (s : State) (c : Env × Op) : Decidable (InPlace s c) := inferInstanceAs (Decidable (∀ t ∈ c.2.truncated, _))

instance (s : State) (c : Env × Op) : Decidable (Cached s c) := inferInstanceAs (Decidable (_ ∧ _ ∧ _ ∧ _))

/-- The requests that suit the threshold, where the data may have been placed by another. -/
def Plain.Suits (p : Plain) : Op → Prop
  | .write fh _ buf offset => ∀ f h, p.fileOf fh = some (f, h) → WriteFits p.threshold_ h.value_ (offset + buf.length)
  | .truncate path new_size => ∀ key h, p.acquire path .write = some (key, h) →
      TruncateFits p.threshold_ h.value_ new_size
  | .unlink path => ∀ key h, p.acquire path .delete = some (key, h) → UnlinkFits p.threshold_ h.value_
  | _ => True

/-- The files of a request are in scope, and a new one that is gets a data file of its own. -/
def Plain.Within (σ : Scope) (p : Plain) (op : Op) : Prop :=
  (∀ path ∈ op.visited, ∀ key ∈ (resolve p.metadb path).map Prod.fst, σ.held key) ∧
  ∀ path ∈ op.created, ∀ key ∈ (resolve p.metadb path).map Prod.fst, σ.held key → p.NewPath σ

section
variable {σ : Scope} {s : State} {p : Plain} {b : ByteFS} {c : Env × Op}

theorem Refines.file_of_slot (hr : Refines s p) {fh : Nat} {f' : PlainFile} (hs : slot p.files fh = some f') :
    ∃ f h, s.fileOf fh = some (f, f'.key, h) ∧ f.fd_ = f'.fd_ ∧ p.work f'.key = some h ∧ fh < s.files.length := by
  rcases hr.fileOf fh with ⟨hf, _⟩ | ⟨f, key, h, hf, hpf⟩
  · rw [hr.files] at hs
    obtain ⟨f, hslot, _⟩ := Option.bind_eq_some_iff.mp hs
    obtain ⟨k, h, hh⟩ := hr.counted.handle_of_file hslot
    rw [State.fileOf_some.mpr ⟨hslot, hh⟩] at hf
    cases hf
  · obtain ⟨hg, hw⟩ := Plain.slot_of_fileOf hpf
    obtain rfl := Option.some.inj (hs.symm.trans hg)
    exact ⟨f, h, hf, rfl, hw, lt_of_slot (State.fileOf_some.mp hf).1⟩

theorem Plain.key_of_acquire {path : CString} {mode : InodeAccessMode} {key : MetaKey} {h : InodeCacheHandle}
    (ha : p.acquire path mode = some (key, h)) : (resolve p.metadb path).map Prod.fst = some key := by
  obtain ⟨k, hk, hm⟩ := Option.bind_eq_some_iff.mp ha
  obtain ⟨h', _, he⟩ := Option.map_eq_some_iff.mp hm
  rw [hk, Option.map_some, (Prod.mk.inj he).1]

theorem Refines.mem_keyOf (hr : Refines s p) {path : CString} {mode : InodeAccessMode} {key : MetaKey}
    {h : InodeCacheHandle} (ha : p.acquire path mode = some (key, h)) : key ∈ s.keyOf path := by
  rw [hr.keyOf_eq, Plain.key_of_acquire ha]
  rfl

/-- Only stored inodes are open. -/
theorem Refines.absent_closed (hr : Refines s p) {key : MetaKey} (h : s.inode_cache.metadb.lookup key = none) :
    ¬ s.OpenOn key := by
  intro ho
  obtain ⟨hd, hw⟩ := Option.ne_none_iff_exists'.mp ((hr.openOn key).mpr ho)
  obtain ⟨_, v, hv, _⟩ := hr.live key hd hw
  simp [hr.metadb, h] at hv

theorem Proper.orderly (hprop : Proper s c.2) (hshared : ∀ path ∈ c.2.inspected, ∀ key ∈ s.keyOf path, s.Shared key)
    (hr : Refines s p) (hb : Housed σ p b) : Orderly s c := by
  have hdir := hr.no_dirOn hb.dirs
  have hnew (path : CString) (h : ∀ key ∈ s.keyOf path, s.inode_cache.metadb.lookup key = none) (key : MetaKey)
      (hk : key ∈ s.keyOf path) : s.inode_cache.metadb.lookup key = none ∧ ¬ s.OpenOn key :=
    ⟨h key hk, hr.absent_closed (h key hk)⟩
  obtain ⟨env, op⟩ := c
  cases op with
  | getAttr path => exact hshared path rfl
  | openFile path flags => exact fun key hk => ⟨hshared path rfl key hk, hdir key⟩
  | truncate path n => exact fun key hk => ⟨hshared path rfl key hk, hdir key⟩
  | makeNode path mode dev => exact hnew path hprop
  | makeDir path mode => exact hnew path hprop
  | unlink path => exact fun key hk => ⟨hprop key hk, hdir key⟩
  | read | write | release => trivial
  | _ => exact hprop.elim

theorem FreshPath.within {op : Op} (h : FreshPath s op) (hr : Refines s p) (hb : Housed .whole p b) :
    p.Within .whole op := by
  refine ⟨fun _ _ _ _ => trivial, fun path hpath key _ _ => hb.newPath fun k v hv => ?_⟩
  rw [hr.counter]
  rw [hr.metadb] at hv
  exact h (by rw [Option.mem_def.mp hpath]; rfl) k (Finmap.mem_keys.mpr (Finmap.mem_iff.mpr ⟨v, hv⟩)) v hv

/-- A path of the request leads to a file in scope. -/
theorem Plain.Within.held {op : Op} (h : p.Within σ op) {path : CString} (hpath : path ∈ op.visited)
    {mode : InodeAccessMode} (key : MetaKey) (hd : InodeCacheHandle) (ha : p.acquire path mode = some (key, hd)) :
    σ.held key :=
  h.1 path hpath key (by rw [Plain.key_of_acquire ha]; rfl)

theorem State.NoStale.plain {key : MetaKey} {but : Option Nat} (h : s.NoStale key but) (hr : Refines s p) {fh : Nat}
    {f : PlainFile} (hs : slot p.files fh = some f) (hne : some fh ≠ but) (hk : f.key = key)
    {hd : InodeCacheHandle} (hw : p.work key = some hd) (h0 : hd.value_.header.has_blob = 0) : f.fd_ = none := by
  obtain ⟨g, h', hf, hfd, hw', hl⟩ := hr.file_of_slot hs
  rw [hk] at hw'
  obtain rfl := Option.some.inj (hw.symm.trans hw')
  rw [← hfd]
  exact h fh hl hne _ hf hk h0

/-- With no stale descriptor in the way, the machine without caches answers as on byte lists. -/
theorem Proper.follows (hprop : Proper s c.2) (henv : c.1.Succeeds) (hr : Refines s p) (hb : Housed σ p b)
    (hstale : StaleFree s c) (hfit : σ.fixed ∨ p.Suits c.2) (hin : p.Within σ c.2) :
    Follows σ (p.step c) (b.step c) := by
  obtain ⟨env, op⟩ := c
  obtain ⟨hput, hmig, hdata, hresize, hreadBack⟩ := henv
  cases op with
  | getAttr path => exact follows_getAttr hb env path (hin.held rfl)
  | openFile path flags =>
    obtain rfl : flags = O_RDWR := hprop
    exact follows_openFile hb env path (hin.held rfl)
  | read fh size offset => exact follows_read hb hdata fh hprop offset
  | write fh flags buf offset =>
    obtain ⟨rfl, hpos, hlen, _⟩ := hprop
    refine follows_write hb hmig hdata fh (List.length_pos_iff.mp hpos) hlen offset hfit ?_
    intro f h hf h0 hbig fh' f' hne hs' hk
    obtain ⟨hg, hw⟩ := Plain.slot_of_fileOf hf
    obtain ⟨x, hx, hfx, _, hwx, _⟩ := hr.file_of_slot hg
    rw [hr.threshold] at hbig
    exact (hstale.1 _ rfl hbig _ hfx).plain hr hs' (by simpa using hne) hk hw h0
  | release fh => exact follows_release hb env fh
  | truncate path n =>
    obtain ⟨hfd, hmove⟩ := hstale.2 _ rfl
    refine follows_truncate hb hmig hresize hreadBack path n (hin.held rfl) hfit fun key h ha fh f hs =>
      ⟨fun m hm he => ?_, ?_⟩
    · obtain ⟨g, h', hf, he', _, hl⟩ := hr.file_of_slot hs
      exact hfd fh hl _ hf m he (he'.trans hm)
    · intro hk h0 hbig
      obtain ⟨_, h', hw, _⟩ := hb.handles.usable fh f hs
      rw [hk] at hw
      have hval := (current_of_work hw).symm.trans (copyOf_value (Plain.copy_of_acquire ha))
      have hstale := hmove (hr.threshold ▸ hbig) key (hr.mem_keyOf ha)
      exact hstale.plain hr hs (by simp) hk hw (by rw [Option.some.inj hval, h0])
  | makeNode path mode dev =>
    exact follows_create hb hput (fun inode name => blank_initInodeValue env inode _ dev name)
      (fun key hk => hr.metadb ▸ hprop key (hr.keyOf_eq path ▸ hk)) (hin.2 path rfl)
  | makeDir path mode =>
    exact follows_create hb hput (fun inode name => blank_initInodeValue env inode _ 0 name)
      (fun key hk => hr.metadb ▸ hprop key (hr.keyOf_eq path ▸ hk)) (hin.2 path rfl)
  | unlink path =>
    exact follows_unlink hb env path (hin.held rfl) hfit fun key h ha => hr.closed (hprop key (hr.mem_keyOf ha))
  | _ => exact hprop.elim

/-- The state behind its caches is one of byte lists. -/
def Represents (s : State) (b : ByteFS) : Prop := ∃ p, Refines s p ∧ Housed .whole p b

theorem Represents.step (h : Represents s b) (hc : Cached s c) (hstale : StaleFree s c) :
    (step s c).2.seen = (b.step c).2 ∧ Represents (step s c).1 (b.step c).1 := by
  obtain ⟨p, hr, hb⟩ := h
  obtain ⟨henv, hprop, hfresh, hshared⟩ := hc
  obtain ⟨hout, hr'⟩ := step_refines hr c (hprop.orderly hshared hr hb)
  obtain ⟨hseen, hb'⟩ := hprop.follows henv hr hb hstale (.inl trivial) (hfresh.within hr hb)
  exact ⟨by rw [hout, hseen], _, hr', hb'⟩

theorem housed_init (config : Config) (env : Env) (mode : UInt32) (dev : Nat) :
    Housed .whole (Plain.init config env mode dev) ByteFS.init := by
  have hblank := blank_initInodeValue env ROOT_INODE_ID mode dev []
  have hnode (k : MetaKey) (n : ByteNode) (hk : ByteFS.init.nodes k = some n) :
      k = rootKey ∧ n = ⟨ROOT_INODE_ID, []⟩ := by
    by_cases hke : k = rootKey
    · subst hke
      simp only [ByteFS.init, Function.update_self, Option.some.injEq] at hk
      exact ⟨rfl, hk.symm⟩
    · simp [ByteFS.init, hke] at hk
  refine {
    counter := rfl
    good := good_empty
    live := fun k h hk => by cases hk
    clean := fun k h hk => by cases hk
    absent := fun k hk => ?_
    nodes := fun k n hk => ?_
    paths := fun k k' n n' _ _ hk hk' _ => (hnode k n hk).1.trans (hnode k' n' hk').1.symm
    named := fun path hc => by simp [Plain.init, Disk.empty, Disk.content] at hc
    keys := fun fh => by simp [ByteFS.init, Plain.init, slot]
    length := rfl
    handles := ⟨fun fh f hs => by simp [Plain.init, slot] at hs,
      fun fh fh' f f' n hs => by simp [Plain.init, slot] at hs⟩
    opened := fun _ _ _ => trivial
    dirs := fun fh => by simp [Plain.init, slot] }
  · by_cases hke : k = rootKey
    · simp [ByteFS.init, hke] at hk
    · exact Finmap.lookup_eq_none.mpr fun hm => hke ((Finmap.mem_singleton ..).mp hm)
  · obtain ⟨rfl, rfl⟩ := hnode k n hk
    exact ⟨_, by simp [Plain.current, Plain.init], hblank.ino, fun _ => ⟨_, fun _ => rfl, hblank.sized, hblank.size,
      .inl ⟨hblank.has_blob, Nat.zero_le _, hblank.inline, rfl⟩⟩⟩

theorem represents_init (config : Config) (env : Env) (mode : UInt32) (dev : Nat) :
    Represents (State.init config env mode dev) ByteFS.init :=
  ⟨_, refines_init config env mode dev, housed_init config env mode dev⟩

theorem represents_run {s : State} {b : ByteFS} (h : Represents s b) {calls : List (Env × Op)}
    (hok : Allowed step (fun s c => Cached s c ∧ StaleFree s c) s calls) :
    (run step s calls).2.map Result.seen = (run ByteFS.step b calls).2 ∧
      Represents (run step s calls).1 (run ByteFS.step b calls).1 := by
  refine run_simulates Represents Result.seen ?_ h hok
  intro s b c hr hc
  exact hr.step hc.1 hc.2

/-- The value requests see is that of an open handle, else the record. -/
theorem Refines.fileValue (hr : Refines s p) {key : MetaKey} {v : Value} (hv : p.current key = some v) :
    s.FileValue key v := by
  by_cases ho : s.OpenOn key
  · obtain ⟨fh, f, h, hf⟩ := ho
    rw [current_of_work (hr.work_of_file hf)] at hv
    exact .inl ⟨fh, f, h, hf, Option.some.inj hv⟩
  · rw [Plain.current, hr.closed ho] at hv
    exact .inr ⟨ho, hr.metadb ▸ hv⟩

/-- What the relation says of a state: every file's bytes are where their number puts them. -/
theorem Represents.file {key : MetaKey} {n : ByteNode} (h : Represents s b) (hn : b.nodes key = some n) :
    ∃ v, s.FileValue key v ∧ v.fstat.st_ino = n.ino ∧ Stored s.threshold_ s.disk v n.bytes := by
  obtain ⟨p, hr, hb⟩ := h
  obtain ⟨v, hv, hi, hs⟩ := hb.stored hn
  exact ⟨v, hr.fileValue hv, hi, hr.threshold ▸ hr.disk ▸ hs⟩

theorem Represents.absent {key : MetaKey} (h : Represents s b) (hn : b.nodes key = none) :
    s.inode_cache.metadb.lookup key = none := by
  obtain ⟨p, hr, hb⟩ := h
  exact hr.metadb ▸ hb.absent key hn

end
end TableFS
