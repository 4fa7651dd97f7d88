import TableFS.Refinement
import TableFS.Storage

/-! What the data operations are for: files are byte lists, and neither the threshold nor the
place of the data can be seen. The machine without caches keeps to it. -/
namespace TableFS
open ByteSeq Slots Disk

structure ByteNode where
  ino : UInt64
  bytes : List UInt8
  deriving DecidableEq, Repr

/-- Files, and directories as files of no bytes, with the open handles. -/
structure ByteFS where
  counter : UInt64
  nodes : MetaKey → Option ByteNode
  files : List (Option MetaKey)

/-- What of a result concerns the data: the size of the attributes, and the rest. -/
structure Seen where
  ret : Int
  size : Option Nat := none
  data : List UInt8 := []
  fh : Option Nat := none
  deriving DecidableEq, Repr

def Result.seen (r : Result) : Seen := ⟨r.ret, r.stat.map Stat.st_size, r.data, r.fh⟩

namespace ByteFS

def init : ByteFS where
  counter := 0
  nodes := Function.update (fun _ => none) rootKey (some ⟨ROOT_INODE_ID, []⟩)
  files := []

def ino (b : ByteFS) (key : MetaKey) : Option UInt64 := (b.nodes key).map ByteNode.ino

def find (b : ByteFS) (path : CString) : Option (MetaKey × ByteNode) :=
  (resolveBy b.ino path).bind fun k => (b.nodes k.1).map fun n => (k.1, n)

def fileOf (b : ByteFS) (fh : Nat) : Option (MetaKey × ByteNode) :=
  (slot b.files fh).bind fun key => (b.nodes key).map fun n => (key, n)

/-- New bytes for a file. -/
def store (b : ByteFS) (key : MetaKey) (n : ByteNode) (bytes : List UInt8) : ByteFS :=
  { b with nodes := Function.update b.nodes key (some ⟨n.ino, bytes⟩) }

def create (b : ByteFS) (path : CString) : ByteFS × Seen :=
  match resolveBy b.ino path with
  | none => (b, ⟨-ENOENT, none, [], none⟩)
  | some (key, _) =>
    ({ b with
        counter := b.counter + 1
        nodes := Function.update b.nodes key (some ⟨b.counter + 1, []⟩) }, ⟨0, none, [], none⟩)

/-- The requests on names and file data; the others are left out. -/
def step (b : ByteFS) : Env × Op → ByteFS × Seen
  | (_, .getAttr path) =>
    match b.find path with
    | none => (b, ⟨-ENOENT, none, [], none⟩)
    | some (_, n) => (b, ⟨0, some n.bytes.length, [], none⟩)
  | (_, .openFile path _) =>
    match b.find path with
    | none => (b, ⟨-ENOENT, none, [], none⟩)
    | some (key, _) => ({ b with files := push b.files key }, ⟨0, none, [], some b.files.length⟩)
  | (_, .read fh size offset) =>
    match b.fileOf fh with
    | none => (b, ⟨-EBADF, none, [], none⟩)
    | some (_, n) => (b, ⟨(slice offset size n.bytes).length, none, slice offset size n.bytes, none⟩)
  | (_, .write fh _ buf offset) =>
    match b.fileOf fh with
    | none => (b, ⟨-EBADF, none, [], none⟩)
    | some (key, n) => (b.store key n (overlay 0 offset buf n.bytes), ⟨buf.length, none, [], none⟩)
  | (_, .release fh) =>
    match b.fileOf fh with
    | none => (b, ⟨-EBADF, none, [], none⟩)
    | some _ => ({ b with files := clear b.files fh }, ⟨0, none, [], none⟩)
  | (_, .truncate path new_size) =>
    match b.find path with
    | none => (b, ⟨-ENOENT, none, [], none⟩)
    | some (key, n) => (b.store key n (resize 0 new_size n.bytes), ⟨0, none, [], none⟩)
  | (_, .makeNode path _ _) => b.create path
  | (_, .makeDir path _) => b.create path
  | (_, .unlink path) =>
    match b.find path with
    | none => (b, ⟨-ENOENT, none, [], none⟩)
    | some (key, _) => ({ b with nodes := Function.update b.nodes key none }, ⟨0, none, [], none⟩)
  | _ => (b, ⟨0, none, [], none⟩)

end ByteFS

/-- The value of an inode as requests see it: the working copy if it is open. -/
def Plain.current (p : Plain) (key : MetaKey) : Option Value :=
  match p.work key with
  | some h => some h.value_
  | none => p.metadb.lookup key

/-- Open handles are for reading and writing and have each a descriptor of its own, if any. -/
structure Handles (d : Disk) (work : MetaKey → Option InodeCacheHandle) (files : List (Option PlainFile)) :
    Prop where
  usable : ∀ fh f, slot files fh = some f →
    f.flags_ = O_RDWR ∧ ∃ h, work f.key = some h ∧ Usable d h.value_ f.fd_
  owner : ∀ fh fh' f f' n, slot files fh = some f → slot files fh' = some f' → f.fd_ = some n →
    f'.fd_ = some n → fh = fh'

theorem Handles.usable_of_work {d : Disk} {work : MetaKey → Option InodeCacheHandle} {files : List (Option PlainFile)}
    {fh : Nat} {f : PlainFile} {h : InodeCacheHandle} (hh : Handles d work files) (hf : slot files fh = some f)
    (hw : work f.key = some h) : f.flags_ = O_RDWR ∧ Usable d h.value_ f.fd_ := by
  obtain ⟨hfl, h', hw', hu⟩ := hh.usable fh f hf
  obtain rfl := Option.some.inj (hw.symm.trans hw')
  exact ⟨hfl, hu⟩

/-- The bytes of a file are in one of the two places: if the threshold is fixed, in the one it
says, else in the one that some threshold said before. -/
def Kept (fixed : Prop) (threshold : Nat) (d : Disk) (v : Value) (bytes : List UInt8) : Prop :=
  ∃ t, (fixed → t = threshold) ∧ Stored t d v bytes

/-- What is said of a volume: whether the present threshold placed its data, the files whose bytes are
followed, and the data files that belong to none of them. -/
structure Scope where
  fixed : Prop
  held : MetaKey → Prop
  stray : DiskPath → Prop

/-- Every file, placed by the present threshold. -/
def Scope.whole : Scope := ⟨True, fun _ => True, fun _ => False⟩

/-- The machine without caches holds the bytes of the files in scope. Of the others it holds the
inode numbers, by which paths are resolved. -/
structure Housed (σ : Scope) (p : Plain) (b : ByteFS) : Prop where
  counter : b.counter = p.max_inode_num
  good : p.disk.Good
  live : Live p.metadb p.work
  clean : ∀ k h, p.work k = some h → h.mode_ = .write ∨ p.metadb.lookup k = some h.value_
  absent : ∀ k, b.nodes k = none → p.metadb.lookup k = none
  nodes : ∀ k n, b.nodes k = some n → ∃ v, p.current k = some v ∧ v.fstat.st_ino = n.ino ∧
    (σ.held k → Kept σ.fixed p.threshold_ p.disk v n.bytes)
  paths : ∀ k k' n n', σ.held k → σ.held k' → b.nodes k = some n → b.nodes k' = some n' →
    getDiskFilePath n.ino = getDiskFilePath n'.ino → k = k'
  named : ∀ path, p.disk.content path ≠ none →
    σ.stray path ∨ ∃ k n, σ.held k ∧ b.nodes k = some n ∧ getDiskFilePath n.ino = path
  keys : ∀ fh, slot b.files fh = (slot p.files fh).map PlainFile.key
  length : b.files.length = p.files.length
  handles : Handles p.disk p.work p.files
  opened : ∀ fh f, slot p.files fh = some f → σ.held f.key
  dirs : ∀ fh, slot p.dirs fh = none

/-- The two machines answer alike and stay related. -/
def Follows (σ : Scope) (r : Plain × Result) (r' : ByteFS × Seen) : Prop := r.2.seen = r'.2 ∧ Housed σ r.1 r'.1

/-- With the threshold fixed, the bytes are where it says. -/
theorem Housed.stored {p : Plain} {b : ByteFS} (hb : Housed .whole p b) {key : MetaKey} {n : ByteNode}
    (hn : b.nodes key = some n) :
    ∃ v, p.current key = some v ∧ v.fstat.st_ino = n.ino ∧ Stored p.threshold_ p.disk v n.bytes := by
  obtain ⟨v, hv, hi, hs⟩ := hb.nodes key n hn
  obtain ⟨t, ht, hs⟩ := hs trivial
  exact ⟨v, hv, hi, ht trivial ▸ hs⟩

section
variable {σ : Scope} {p : Plain} {b : ByteFS} {threshold : Nat} {d d' : Disk} {v v' w : Value} {fd fd' : Option Nat}
  {bytes : List UInt8} {key : MetaKey} {path : CString} {mode : InodeAccessMode}

theorem copyOf_value {h : InodeCacheHandle} (hc : copyOf p.metadb p.work key mode = some h) :
    p.current key = some h.value_ := by
  unfold copyOf at hc
  unfold Plain.current
  split at hc
  · obtain rfl := Option.some.inj hc
    simp_all [InodeCache.access_value]
  · obtain ⟨v, hv, rfl⟩ := Option.map_eq_some_iff.mp hc
    simp_all

theorem copyOf_write {h : InodeCacheHandle} (hc : copyOf p.metadb p.work key .write = some h) :
    h.mode_ = .write := by
  unfold copyOf at hc
  split at hc
  · obtain rfl := Option.some.inj hc
    simp [InodeCache.access_mode]
  · obtain ⟨v, _, rfl⟩ := Option.map_eq_some_iff.mp hc
    rfl

private theorem copyOf_isSome (mode : InodeAccessMode) (hv : p.current key = some v) :
    ∃ h, copyOf p.metadb p.work key mode = some h := by
  unfold Plain.current at hv
  unfold copyOf
  split at hv
  · simp_all
  · simp_all

private theorem Effect.usable_other (he : Effect threshold d v fd d' v' bytes) (hu : Usable d w fd')
    (hfd : ∀ n, fd' = some n → fd ≠ some n) (hne : dataPath w ≠ dataPath v) : Usable d' w fd' := by
  refine hu.frame he.frame (fun n hn => ?_) (fun h => ⟨h, he.frame.names _ hne⟩) rfl
  rintro (hfree | hown)
  · exact (hu n hn).1 hfree
  · exact hfd n hn hown

private theorem Effect.usable_same (he : Effect threshold d v fd d' v' bytes) (hu : Usable d v fd')
    (hfd : ∀ n, fd' = some n → fd ≠ some n)
    (hup : v.header.has_blob = 0 → v'.header.has_blob ≠ 0 → fd' = none) : Usable d' v' fd' := by
  by_cases hb : v.header.has_blob = 0
  · by_cases hb' : v'.header.has_blob = 0
    · intro n hn
      have hown : ¬ Own d fd n := by
        rintro (hfree | hown)
        · exact (hu n hn).1 hfree
        · exact hfd n hn hown
      exact ⟨by rw [he.frame.fds n hown]; exact (hu n hn).1, fun h => absurd hb' h⟩
    · simp [Usable, hup hb hb']
  · refine hu.frame he.frame (fun n hn => ?_) (fun h => ⟨hb, by rw [he.names hb h]⟩) he.ino
    rintro (hfree | hown)
    · exact (hu n hn).1 hfree
    · exact hfd n hn hown

/-- The record of a file has the number of its current value. -/
theorem Live.current (hl : Live p.metadb p.work) (hv : p.current key = some v) :
    ∃ v0, p.metadb.lookup key = some v0 ∧ v0.fstat.st_ino = v.fstat.st_ino := by
  unfold Plain.current at hv
  split at hv
  · rename_i h hk
    obtain rfl := Option.some.inj hv
    exact (hl key h hk).2
  · exact ⟨v, hv, rfl⟩

/-- Only a name with a record is open. -/
theorem Live.work_eq_none (hl : Live p.metadb p.work) (hnone : p.metadb.lookup key = none) : p.work key = none := by
  cases hw : p.work key with
  | none => rfl
  | some h =>
    obtain ⟨_, v, hv, _⟩ := hl key h hw
    simp [hnone] at hv

theorem Housed.node (hb : Housed σ p b) (hv : p.current key = some v) :
    ∃ n, b.nodes key = some n ∧ v.fstat.st_ino = n.ino ∧ (σ.held key → Kept σ.fixed p.threshold_ p.disk v n.bytes) := by
  cases hn : b.nodes key with
  | none =>
    obtain ⟨v0, h0, _⟩ := hb.live.current hv
    simp [hb.absent key hn] at h0
  | some n =>
    obtain ⟨v1, hv1, hs⟩ := hb.nodes key n hn
    rw [hv] at hv1
    obtain rfl := Option.some.inj hv1
    exact ⟨n, rfl, hs⟩

theorem Housed.record_of_node (hb : Housed σ p b) {n : ByteNode} (hn : b.nodes key = some n) :
    ∃ v, p.metadb.lookup key = some v ∧ v.fstat.st_ino = n.ino := by
  obtain ⟨v, hv, hi, _⟩ := hb.nodes key n hn
  obtain ⟨v0, h0, hi0⟩ := hb.live.current hv
  exact ⟨v0, h0, hi0.trans hi⟩

theorem Housed.inoOf_eq (hb : Housed σ p b) : inoOf p.metadb = b.ino := by
  funext k
  cases hn : b.nodes k with
  | none => simp [inoOf, ByteFS.ino, hn, hb.absent k hn]
  | some n =>
    obtain ⟨v, hv, hi⟩ := hb.record_of_node hn
    simp [inoOf, ByteFS.ino, hn, hv, hi]

/-- A path leads to the same file, whose bytes are held by the copy a request works on. -/
theorem Housed.acquire (hb : Housed σ p b) (path : CString) (mode : InodeAccessMode) :
    (p.acquire path mode = none ∧ b.find path = none) ∨
    ∃ key h n, p.acquire path mode = some (key, h) ∧ b.find path = some (key, n) ∧ b.nodes key = some n ∧
      p.current key = some h.value_ ∧ h.value_.fstat.st_ino = n.ino ∧
      (σ.held key → Kept σ.fixed p.threshold_ p.disk h.value_ n.bytes) := by
  rw [Plain.acquire, ByteFS.find, resolve, hb.inoOf_eq]
  rcases hr : resolveBy b.ino path with _ | ⟨key, name⟩
  · exact .inl ⟨rfl, rfl⟩
  · cases hn : b.nodes key with
    | none =>
      refine .inl ⟨?_, by simp [hn]⟩
      cases hc : copyOf p.metadb p.work key mode with
      | none => simp [Plain.inode, hc]
      | some h =>
        obtain ⟨n, hn', _⟩ := hb.node (copyOf_value hc)
        simp [hn] at hn'
    | some n =>
      obtain ⟨v, hv, hi, hs⟩ := hb.nodes key n hn
      obtain ⟨h, hc⟩ := copyOf_isSome mode hv
      have hcur := copyOf_value hc
      obtain rfl := Option.some.inj (hv.symm.trans hcur)
      exact .inr ⟨key, h, n, by simp [Plain.inode, hc], by simp [hn], hn, hcur, hi, hs⟩

theorem current_of_work {h : InodeCacheHandle} (hw : p.work key = some h) : p.current key = some h.value_ := by
  simp [Plain.current, hw]

theorem Housed.fileOf (hb : Housed σ p b) (fh : Nat) :
    (p.fileOf fh = none ∧ b.fileOf fh = none) ∨
    ∃ f h n, p.fileOf fh = some (f, h) ∧ b.fileOf fh = some (f.key, n) ∧ slot p.files fh = some f ∧
      p.work f.key = some h ∧ b.nodes f.key = some n ∧ h.value_.fstat.st_ino = n.ino ∧ σ.held f.key ∧
      Kept σ.fixed p.threshold_ p.disk h.value_ n.bytes := by
  cases hf : slot p.files fh with
  | none => exact .inl ⟨by simp [Plain.fileOf, hf], by simp [ByteFS.fileOf, hb.keys, hf]⟩
  | some f =>
    obtain ⟨_, h, hw, _⟩ := hb.handles.usable fh f hf
    obtain ⟨n, hn, hi, hs⟩ := hb.node (current_of_work hw)
    have hheld := hb.opened fh f hf
    exact .inr ⟨f, h, n, by simp [Plain.fileOf, hf, hw], by simp [ByteFS.fileOf, hb.keys, hf, hn], rfl, hw, hn, hi,
      hheld, hs hheld⟩

theorem Housed.dataPath_ne (hb : Housed σ p b) {key' : MetaKey} (hheld : σ.held key) (hheld' : σ.held key')
    (hv : p.current key = some v) (hw : p.current key' = some w) (hne : key' ≠ key) : dataPath w ≠ dataPath v := by
  intro he
  obtain ⟨n, hn, hi, _⟩ := hb.node hv
  obtain ⟨n', hn', hi', _⟩ := hb.node hw
  rw [dataPath, dataPath, hi, hi'] at he
  exact hne (hb.paths key' key n' n hheld' hheld hn' hn he)

/-- What a request on one file leaves of a handle whose descriptor it does not own. -/
theorem Housed.usable_after (hb : Housed σ p b) (hheld : σ.held key) (hv : p.current key = some v)
    (he : Effect threshold p.disk v fd d' v' bytes) {fh : Nat} {f : PlainFile} (hf : slot p.files fh = some f)
    (hfd : ∀ n, f.fd_ = some n → fd ≠ some n)
    (hup : f.key = key → v.header.has_blob = 0 → v'.header.has_blob ≠ 0 → f.fd_ = none) :
    f.flags_ = O_RDWR ∧ ∃ h, p.work f.key = some h ∧ (f.key = key → Usable d' v' f.fd_) ∧
      (f.key ≠ key → Usable d' h.value_ f.fd_) := by
  obtain ⟨hfl, h, hw, hu⟩ := hb.handles.usable fh f hf
  refine ⟨hfl, h, hw, fun hk => ?_, fun hk => ?_⟩
  · obtain rfl : h.value_ = v := by
      rw [← hk, current_of_work hw] at hv
      exact Option.some.inj hv
    exact he.usable_same hu hfd (hup hk)
  · exact he.usable_other hu hfd (hb.dataPath_ne hheld (hb.opened fh f hf) hv (current_of_work hw) hk)

private theorem ByteFS.nodes_store {b : ByteFS} {n nk : ByteNode} {k : MetaKey}
    (h : (b.store key n bytes).nodes k = some nk) : k = key ∧ nk = ⟨n.ino, bytes⟩ ∨ k ≠ key ∧ b.nodes k = some nk := by
  by_cases hk : k = key
  · subst hk
    simp only [ByteFS.store, Function.update_self, Option.some.injEq] at h
    exact .inl ⟨rfl, h.symm⟩
  · exact .inr ⟨hk, by simpa [ByteFS.store, hk] using h⟩

private theorem ByteFS.ino_store {b : ByteFS} {n nk : ByteNode} {k : MetaKey} (hn : b.nodes key = some n)
    (h : (b.store key n bytes).nodes k = some nk) : ∃ nk', b.nodes k = some nk' ∧ nk'.ino = nk.ino := by
  rcases ByteFS.nodes_store h with ⟨rfl, rfl⟩ | ⟨_, hk⟩
  · exact ⟨n, hn, rfl⟩
  · exact ⟨nk, hk, rfl⟩

/-- A request on one file, assembled: the other files are untouched. -/
theorem Housed.rewrite (hb : Housed σ p b) (hheld : σ.held key) (hv : p.current key = some v) {n : ByteNode}
    (hn : b.nodes key = some n) (he : Effect threshold p.disk v fd d' v' bytes)
    (hfixed : σ.fixed → threshold = p.threshold_) {m : MetaDB} {work : MetaKey → Option InodeCacheHandle}
    {files : List (Option PlainFile)} {bfiles : List (Option MetaKey)} (hlive : Live m work)
    (hclean : ∀ h, work key = some h → h.mode_ = .write ∨ m.lookup key = some h.value_)
    (hkey : ({ p with metadb := m, work := work } : Plain).current key = some v')
    (hother : ∀ k, k ≠ key → work k = p.work k ∧ m.lookup k = p.metadb.lookup k)
    (hkeys : ∀ fh, slot bfiles fh = (slot files fh).map PlainFile.key) (hlen : bfiles.length = files.length)
    (hh : Handles d' work files) (hopened : ∀ fh f, slot files fh = some f → σ.held f.key) :
    Housed σ { p with disk := d', metadb := m, work := work, files := files }
      { b.store key n bytes with files := bfiles } := by
  obtain ⟨n', hn', hino, _⟩ := hb.node hv
  obtain rfl := Option.some.inj (hn.symm.trans hn')
  have hcur (k : MetaKey) (hk : k ≠ key) :
      ({ p with metadb := m, work := work } : Plain).current k = p.current k := by
    simp only [Plain.current, (hother k hk).1, (hother k hk).2]
  refine {
    counter := hb.counter
    good := he.frame.good
    live := hlive
    clean := fun k h hk => ?_
    absent := fun k hk => ?_
    nodes := fun k nk hk => ?_
    paths := fun k k' nk nk' hheld hheld' hk hk' hp => ?_
    named := fun path hc => ?_
    keys := hkeys
    length := hlen
    handles := hh
    opened := hopened
    dirs := hb.dirs }
  · by_cases hke : k = key
    · exact hke ▸ hclean h (hke ▸ hk)
    · rw [(hother k hke).2]
      exact hb.clean k h ((hother k hke).1 ▸ hk)
  · by_cases hke : k = key
    · simp [ByteFS.store, hke] at hk
    · rw [(hother k hke).2]
      exact hb.absent k (by simpa [ByteFS.store, hke] using hk)
  · rcases ByteFS.nodes_store hk with ⟨rfl, rfl⟩ | ⟨hne, hk⟩
    · exact ⟨v', hkey, he.ino.trans hino, fun _ => ⟨threshold, hfixed, he.stored⟩⟩
    · obtain ⟨vk, hvk, hik, hsk⟩ := hb.nodes k nk hk
      refine ⟨vk, (hcur k hne).trans hvk, hik, fun hheld' => ?_⟩
      obtain ⟨t, ht, hsk⟩ := hsk hheld'
      exact ⟨t, ht, hsk.frame he.frame (hb.dataPath_ne hheld hheld' hv hvk hne)⟩
  · obtain ⟨a, ha, hia⟩ := ByteFS.ino_store hn hk
    obtain ⟨a', ha', hia'⟩ := ByteFS.ino_store hn hk'
    exact hb.paths k k' a a' hheld hheld' ha ha' (by rw [hia, hia', hp])
  · by_cases hp : path = dataPath v
    · exact .inr ⟨key, ⟨n.ino, bytes⟩, hheld, by simp [ByteFS.store], by rw [hp, dataPath, hino]⟩
    · refine (hb.named path (he.frame.content hp ▸ hc)).imp_right ?_
      rintro ⟨k, nk, hheld', hk, hpk⟩
      by_cases hke : k = key
      · subst hke
        obtain rfl := Option.some.inj (hn.symm.trans hk)
        exact ⟨k, ⟨n.ino, bytes⟩, hheld', by simp [ByteFS.store], hpk⟩
      · exact ⟨k, nk, hheld', by simpa [ByteFS.store, hke] using hk, hpk⟩

end
end TableFS
