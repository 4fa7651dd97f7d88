import TableFS.DataFiles
import TableFS.Reads
import TableFS.Sessions
import TableFS.Subtree

/-! Files written under one threshold and used under another, after a remount. Read, Write and
Release go by the place the record names; Truncate and Unlink, and a Write that moves the data,
go by sizes, and the two agree only where the file fits the new threshold. -/
namespace TableFS
open ByteSeq Slots Disk InodeCache Runs

/-- The requests for which the size of the file and the place of its data say the same. -/
def State.Suits (s : State) : Op → Prop
  | .write fh _ buf offset => ∀ x ∈ s.fileOf fh, WriteFits s.threshold_ x.2.2.value_ (offset + buf.length)
  | .truncate path new_size => ∀ v ∈ recordAt s.inode_cache.metadb path, TruncateFits s.threshold_ v new_size
  | .unlink path => ∀ v ∈ recordAt s.inode_cache.metadb path, UnlinkFits s.threshold_ v
  | _ => True

instance (s : State) : DecidablePred s.Suits := fun op => by
  induction op using Op.casesOn with
  | write fh flags buf offset => exact inferInstanceAs (Decidable (∀ x ∈ s.fileOf fh, WriteFits _ _ _))
  | truncate path n => exact inferInstanceAs (Decidable (∀ v ∈ recordAt s.inode_cache.metadb path, TruncateFits _ _ _))
  | unlink path => exact inferInstanceAs (Decidable (∀ v ∈ recordAt s.inode_cache.metadb path, UnlinkFits _ _))
  | _ => exact inferInstanceAs (Decidable True)

/-- The files that a request finds by path are among the given ones. A new one of them gets a data file
path that no other of them has, and under which there is no data file. -/
def State.Within (mine : MetaKey → Prop) (s : State) (op : Op) : Prop :=
  (∀ path ∈ op.visited, ∀ key ∈ s.keyOf path, mine key) ∧
  ∀ path ∈ op.created, ∀ key ∈ s.keyOf path, mine key → getDiskFilePath (s.max_inode_num + 1) ∉ s.disk.names ∧
    ∀ k ∈ s.inode_cache.metadb.keys, mine k → ∀ v ∈ s.inode_cache.metadb.lookup k,
      getDiskFilePath v.fstat.st_ino ≠ getDiskFilePath (s.max_inode_num + 1)

instance (mine : MetaKey → Prop) [DecidablePred mine] (s : State) (op : Op) : Decidable (s.Within mine op) :=
  inferInstanceAs (Decidable (_ ∧ _))

/-- Requests with one handle at a time on each of the given files, which suit the threshold. -/
def Suited (mine : MetaKey → Prop) (s : State) (c : Env × Op) : Prop :=
  (c.1.Succeeds ∧ SparesHandles s c ∧ InPlace s c) ∧ Proper s c.2 ∧
    (∀ path ∈ c.2.inspected, ∀ key ∈ s.keyOf path, ¬ s.OpenOn key) ∧ s.Within mine c.2 ∧ s.Suits c.2

instance (mine : MetaKey → Prop) [DecidablePred mine] (s : State) (c : Env × Op) : Decidable (Suited mine s c) :=
  inferInstanceAs (Decidable ((_ ∧ _ ∧ _) ∧ _ ∧ _ ∧ _ ∧ _))

/-- The records of a volume have the inode numbers of the given files, and those of ours hold their bytes, inline
or on disk as some threshold had it. -/
structure Volume.Carries (vol : Volume) (mine : MetaKey → Prop) (files : MetaKey → Option ByteNode) : Prop where
  good : vol.disk.Good
  absent : ∀ k, files k = none → vol.metadb.lookup k = none
  recorded : ∀ k n, files k = some n → ∃ v, vol.metadb.lookup k = some v ∧ v.fstat.st_ino = n.ino ∧
    (mine k → ∃ t, Stored t vol.disk v n.bytes)
  paths : ∀ k k' n n', mine k → mine k' → files k = some n → files k' = some n' →
    getDiskFilePath n.ino = getDiskFilePath n'.ino → k = k'

/-- A data file of the volume that is none of ours. -/
def Volume.Stray (vol : Volume) (mine : MetaKey → Prop) (files : MetaKey → Option ByteNode) (path : DiskPath) : Prop :=
  path ∈ vol.disk.names ∧ ∀ k n, mine k → files k = some n → getDiskFilePath n.ino ≠ path

/-- The state is one of byte lists, which may have been placed by another threshold. -/
def RepresentsKept (mine : MetaKey → Prop) (stray : DiskPath → Prop) (s : State) (b : ByteFS) : Prop :=
  ∃ p, Refines s p ∧ Housed ⟨False, mine, stray⟩ p b ∧ p.Unstale

section
variable {mine : MetaKey → Prop} {stray : DiskPath → Prop} {s : State} {p : Plain} {b : ByteFS} {c : Env × Op}

private theorem Refines.acquire_closed (hr : Refines s p) {path : CString}
    (hclosed : ∀ key ∈ s.keyOf path, ¬ s.OpenOn key) {mode : InodeAccessMode} {key : MetaKey} {h : InodeCacheHandle}
    (ha : p.acquire path mode = some (key, h)) :
    recordAt s.inode_cache.metadb path = some h.value_ := by
  have hw : p.work key = none := hr.closed (hclosed key (hr.mem_keyOf ha))
  have hcur : p.metadb.lookup key = some h.value_ := by
    simpa [Plain.current, hw] using copyOf_value (Plain.copy_of_acquire ha)
  obtain ⟨x, hx, rfl⟩ := Option.map_eq_some_iff.mp (Plain.key_of_acquire ha)
  rw [recordAt, ← hr.metadb, hx, Option.bind_some, hcur]

theorem Suited.plain (hc : Suited mine s c) (hr : Refines s p) : p.Suits c.2 := by
  obtain ⟨_, hprop, hclosed, _, hsuits⟩ := hc
  obtain ⟨env, op⟩ := c
  cases op with
  | write fh flags buf offset =>
    intro f h hf
    obtain ⟨hg, hw⟩ := Plain.slot_of_fileOf hf
    obtain ⟨x, hx, hfx, _, hwx, _⟩ := hr.file_of_slot hg
    obtain rfl := Option.some.inj (hwx.symm.trans hw)
    rw [hr.threshold]
    exact hsuits _ hfx
  | truncate path n =>
    intro key h ha
    rw [hr.threshold]
    exact hsuits _ (hr.acquire_closed (hclosed path rfl) ha)
  | unlink path =>
    intro key h ha
    rw [hr.threshold]
    exact hsuits _ (hr.acquire_closed hprop ha)
  | _ => trivial

theorem State.Within.plain {op : Op} (h : s.Within mine op) (hr : Refines s p) : p.Within ⟨False, mine, stray⟩ op := by
  refine ⟨fun path hp key hk => h.1 path hp key (hr.keyOf_eq path ▸ hk), fun path hp key hk hmine => ?_⟩
  obtain ⟨hnew, hpaths⟩ := h.2 path hp key (hr.keyOf_eq path ▸ hk) hmine
  rw [Plain.NewPath, hr.counter, hr.disk, hr.metadb]
  refine ⟨of_not_not fun hne => hnew (Disk.mem_names_iff.mpr hne), fun k v hk hv => ?_⟩
  exact hpaths k (Finmap.mem_keys.mpr (Finmap.mem_iff.mpr ⟨v, hv⟩)) hk v hv

theorem RepresentsKept.step (h : RepresentsKept mine stray s b) (hc : Suited mine s c) :
    (step s c).2.seen = (b.step c).2 ∧ RepresentsKept mine stray (step s c).1 (b.step c).1 := by
  obtain ⟨p, hr, hb, hu⟩ := h
  have hsuits := hc.plain hr
  obtain ⟨⟨henv, hspares, _⟩, hprop, hclosed, hin, _⟩ := hc
  have htruncated : ∀ t ∈ c.2.truncated, ∀ key ∈ s.keyOf t.1, ¬ s.OpenOn key := by
    intro t ht
    obtain ⟨env, op⟩ := c
    cases op with
    | truncate path n =>
      obtain rfl := Option.some.inj ht
      exact hclosed path rfl
    | _ => cases ht
  obtain ⟨hseen, hr', hb', hu'⟩ := hprop.follows_unstale henv hspares htruncated
    (fun path hp key hk ho => absurd ho (hclosed path hp key hk)) hr hb hu (.inr hsuits) (hin.plain hr)
  exact ⟨hseen, _, hr', hb', hu'⟩

theorem RepresentsKept.file (h : RepresentsKept mine stray s b) {key : MetaKey} {n : ByteNode} (hmine : mine key)
    (hn : b.nodes key = some n) :
    ∃ v, s.FileValue key v ∧ v.fstat.st_ino = n.ino ∧ v.fstat.st_size = n.bytes.length := by
  obtain ⟨p, hr, hb, _⟩ := h
  obtain ⟨v, hv, hi, hs⟩ := hb.nodes key n hn
  obtain ⟨t, _, hs⟩ := hs hmine
  exact ⟨v, hr.fileValue hv, hi, hs.size⟩

theorem RepresentsKept.named (h : RepresentsKept mine stray s b) {path : DiskPath} (hp : path ∈ s.disk.names) :
    stray path ∨ ∃ k n, mine k ∧ b.nodes k = some n ∧ getDiskFilePath n.ino = path := by
  obtain ⟨p, hr, hb, _⟩ := h
  exact hb.named path (hr.disk ▸ Disk.mem_names_iff.mp hp)

/-- Unlink removes the record and the data file. -/
theorem RepresentsKept.unlink (h : RepresentsKept mine stray s b) {env : Env} {path : CString}
    (hc : Suited mine s (env, .unlink path)) {key : MetaKey} {n : ByteNode} (hf : b.find path = some (key, n)) :
    (TableFS.step s (env, .unlink path)).1.inode_cache.metadb.lookup key = none ∧
      getDiskFilePath n.ino ∉ (TableFS.step s (env, .unlink path)).1.disk.names := by
  obtain ⟨p, hr, hb, hu⟩ := h
  have hsuits := hc.plain hr
  obtain ⟨_, hprop, _, hin, _⟩ := hc
  have hr' := (step_refines hr (env, .unlink path) (hprop.orderly (fun _ hp => by cases hp) hr hb)).2
  rcases hb.acquire path .delete with ⟨_, hnone⟩ | ⟨key', h, n', ha, hf', hn, hv, hi, hs⟩
  · simp [hnone] at hf
  obtain ⟨rfl, rfl⟩ := Prod.mk.inj (Option.some.inj (hf'.symm.trans hf))
  have hwithin : p.Within ⟨False, mine, stray⟩ (.unlink path) := hin.plain hr
  obtain ⟨t, _, hs⟩ := hs (hwithin.held rfl _ h ha)
  obtain ⟨_, hgone⟩ := unlinkValue_spec hb.good hs (.inr (hsuits _ h ha))
  simp only [Plain.step, Plain.unlink, ha] at hr'
  refine ⟨?_, ?_⟩
  · rw [← hr'.metadb, Finmap.lookup_erase]
  · rw [Disk.mem_names_iff, ← hr'.disk, not_not, ← hi]
    exact hgone

end

private theorem Disk.Good.without_fds {d : Disk} (hg : d.Good) : ({ d with fds := [] } : Disk).Good :=
  ⟨hg.names_lt, hg.names_inj, fun n x hx => by simp [slot] at hx⟩

/-- The next session finds them, if an inode number was ever taken. -/
theorem Volume.Carries.mount {vol : Volume} {mine : MetaKey → Prop} {files : MetaKey → Option ByteNode}
    (hv : vol.Carries mine files) (hused : UInt64.ofNat vol.counter ≠ 0) (config : Config) (env : Env)
    (mode : UInt32) (dev : Nat) :
    RepresentsKept mine (vol.Stray mine files) (vol.mount config env mode dev) ⟨.ofNat vol.counter, files, []⟩ := by
  have ht := tidy_mount vol config env mode dev
  have hidle : (vol.mount config env mode dev).Idle := State.idle_of_nil rfl rfl
  have hcoh : (vol.mount config env mode dev).CoherentCaches := by
    refine ⟨ht.dentries, fun k i h htab hh => ?_⟩
    obtain ⟨v, hv, _, he⟩ := ht.copied k i h htab hh
    rw [hv, he (hidle.writers_eq i)]
  have hm : (vol.mount config env mode dev).inode_cache.metadb = vol.metadb := if_neg fun h => hused h.1
  have hnone (fh : Nat) : slot (vol.mount config env mode dev).plain.files fh = none := rfl
  refine ⟨_, refines_plain ht.counted hidle hcoh, ?_, fun fh f h hs => ?_⟩
  · refine {
      counter := rfl
      good := hv.good
      live := fun k h hk => by cases hk
      clean := fun k h hk => by cases hk
      absent := fun k hk => (congrArg (Finmap.lookup k) hm).trans (hv.absent k hk)
      nodes := fun k n hk => ?_
      paths := hv.paths
      named := fun path hc => ?_
      keys := fun fh => rfl
      length := rfl
      handles := ⟨fun fh f hs => (by simp [hnone] at hs), fun fh fh' f f' n hs => (by simp [hnone] at hs)⟩
      opened := fun fh f hs => (by simp [hnone] at hs)
      dirs := fun fh => rfl }
    · obtain ⟨v, hl, hi, hs⟩ := hv.recorded k n hk
      refine ⟨v, (congrArg (Finmap.lookup k) hm).trans hl, hi, fun hmine => ?_⟩
      obtain ⟨t, hs⟩ := hs hmine
      exact ⟨t, False.elim, hs⟩
    · by_cases hours : ∃ k n, mine k ∧ files k = some n ∧ getDiskFilePath n.ino = path
      · exact .inr hours
      · exact .inl ⟨Disk.mem_names_iff.mpr hc, fun k n hk hn he => hours ⟨k, n, hk, hn, he⟩⟩
  · rw [hnone] at hs
    cases hs

/-- Files that some threshold placed inline or on disk, mounted under any threshold, whatever else is on the
volume: as long as the requests suit it, all results are those of byte lists, records have the sizes of the byte
lists, every data file is one of these files' or was there before, and Unlink removes a file's data file. -/
theorem threshold_change_keeps_files {vol : Volume} {mine : MetaKey → Prop} {files : MetaKey → Option ByteNode}
    (hv : vol.Carries mine files) (hused : UInt64.ofNat vol.counter ≠ 0) (config : Config) (env : Env)
    (mode : UInt32) (dev : Nat) {calls : List (Env × Op)}
    (hok : Allowed step (Suited mine) (vol.mount config env mode dev) calls) :
    let s := (run step (vol.mount config env mode dev) calls).1
    let b := (run ByteFS.step ⟨.ofNat vol.counter, files, []⟩ calls).1
    (run step (vol.mount config env mode dev) calls).2.map Result.seen =
        (run ByteFS.step ⟨.ofNat vol.counter, files, []⟩ calls).2 ∧
      (∀ key n, mine key → b.nodes key = some n →
        ∃ v, s.FileValue key v ∧ v.fstat.st_ino = n.ino ∧ v.fstat.st_size = n.bytes.length) ∧
      (∀ path ∈ s.disk.names,
        vol.Stray mine files path ∨ ∃ key n, mine key ∧ b.nodes key = some n ∧ getDiskFilePath n.ino = path) ∧
      ∀ e path key n, Suited mine s (e, .unlink path) → b.find path = some (key, n) →
        (step s (e, .unlink path)).1.inode_cache.metadb.lookup key = none ∧
          getDiskFilePath n.ino ∉ (step s (e, .unlink path)).1.disk.names := by
  intro s b
  obtain ⟨hout, hrep⟩ := run_simulates (RepresentsKept mine (vol.Stray mine files)) Result.seen
    (by intro s b c h hc; exact h.step hc) (hv.mount hused config env mode dev) hok
  exact ⟨hout, fun key n hk hn => hrep.file hk hn, fun path hp => hrep.named hp,
    fun e path key n hc hf => hrep.unlink hc hf⟩

/-- The volume after a session in calm surroundings. -/
def volumeAfter (threshold : Nat) (ops : List Op) : Volume :=
  (run step (State.fresh threshold) (calmly ops)).1.destroy (some 0) true

/-- The files of that session as byte lists, all handles lost. -/
def bytesAfter (threshold : Nat) (ops : List Op) : ByteFS :=
  ⟨.ofNat (volumeAfter threshold ops).counter, (run ByteFS.step ByteFS.init (calmly ops)).1.nodes, []⟩

/-- The next session, under another threshold. -/
def remounted (vol : Volume) (threshold : Nat) : State := vol.mount (.source threshold) .calm S_IFDIR 0

/-- One file of a volume with its bytes, the others with their numbers. -/
def Volume.withBytes (vol : Volume) (key : MetaKey) (bytes : List UInt8) (k : MetaKey) : Option ByteNode :=
  (vol.metadb.lookup k).map fun v => ⟨v.fstat.st_ino, if k = key then bytes else []⟩

private theorem Volume.carries_one {vol : Volume} {key : MetaKey} {bytes : List UInt8} {t : Nat}
    (hg : vol.disk.Good) (hs : ∀ v ∈ vol.metadb.lookup key, Stored t vol.disk v bytes) :
    vol.Carries (· = key) (vol.withBytes key bytes) := by
  refine ⟨hg, fun k hk => Option.map_eq_none_iff.mp hk, fun k n hn => ?_,
    fun k k' _ _ hk hk' _ _ _ => hk.trans hk'.symm⟩
  obtain ⟨v, hv, rfl⟩ := Option.map_eq_some_iff.mp hn
  refine ⟨v, hv, rfl, fun hk => ⟨t, ?_⟩⟩
  simp only [hk, if_true]
  exact hs v (hk ▸ hv)

/-- A file on disk is read, written to and cut under a threshold that would have it inline, beside a symlink and
a data file that a Rename left behind. -/
theorem threshold_change_keeps_files_raised :
    let first := [.makeNode (inRoot [97]) 0 0, .openFile (inRoot [97]) O_RDWR, .write 0 O_RDWR [1, 2, 3] 0, .release 0,
      .symlink ⟨[116], by decide⟩ (inRoot [108]), .makeNode (inRoot [98]) 0 0, .openFile (inRoot [98]) O_RDWR,
      .write 1 O_RDWR [4, 5, 6] 0, .release 1, .makeNode (inRoot [99]) 0 0, .rename (inRoot [99]) (inRoot [98])]
    let vol := volumeAfter 2 first
    let files := vol.withBytes (buildMetaKey [97] ROOT_INODE_ID) [1, 2, 3]
    let second := calmly [.openFile (inRoot [97]) O_RDWR, .read 0 9 0, .write 0 O_RDWR [9] 1, .release 0,
      .truncate (inRoot [97]) 2, .getAttr (inRoot [97]), .openFile (inRoot [97]) O_RDWR, .read 1 9 0]
    getDiskFilePath 3 ∈ vol.disk.names ∧ (run step (remounted vol 100) second).2.map Result.seen =
      (run ByteFS.step ⟨.ofNat vol.counter, files, []⟩ second).2 := by
  intro first vol files second
  have hgood : vol.disk.Good := (State.reachable_fresh 2 (calmly first)).good.without_fds
  have hholds : vol.Carries (· = buildMetaKey [97] ROOT_INODE_ID) files :=
    Volume.carries_one (t := 2) hgood (by decide +kernel)
  exact ⟨by decide +kernel, (threshold_change_keeps_files hholds (by decide +kernel) (.source 100) .calm S_IFDIR 0
    (by decide +kernel : Allowed step (Suited _) (remounted vol 100) second)).1⟩

/-- Three bytes inline and a smaller threshold: a Write that ends before the end of the file
moves the data to disk and cuts the size, and a Truncate to the same size moves it and does not
say so. Two bytes on disk and a larger threshold: Unlink leaves the data file. -/
theorem threshold_change_breaks_files :
    let make (bytes : List UInt8) : List Op :=
      [.makeNode (inRoot [97]) 0 0, .openFile (inRoot [97]) O_RDWR, .write 0 O_RDWR bytes 0, .release 0]
    let inline := remounted (volumeAfter 4096 (make [1, 2, 3])) 1
    let onDisk := remounted (volumeAfter 0 (make [1, 2])) 4096
    let overwrite := calmly [.openFile (inRoot [97]) O_RDWR, .write 0 O_RDWR [9] 1, .release 0, .getAttr (inRoot [97])]
    let reread := calmly [.truncate (inRoot [97]) 3, .openFile (inRoot [97]) O_RDWR, .read 0 9 0]
    ((run step inline overwrite).2.map (fun r => r.seen.size) = [none, none, none, some 2] ∧
        (run ByteFS.step (bytesAfter 4096 (make [1, 2, 3])) overwrite).2.map (·.size) = [none, none, none, some 3]) ∧
      ((run step inline reread).2.map (fun r => r.seen.data) = [[], [], []] ∧
        (run ByteFS.step (bytesAfter 4096 (make [1, 2, 3])) reread).2.map (·.data) = [[], [], [1, 2, 3]]) ∧
      (onDisk.unlink (inRoot [97])).2.ret = 0 ∧ getDiskFilePath 1 ∈ (onDisk.unlink (inRoot [97])).1.disk.names := by
  decide +kernel

end TableFS
