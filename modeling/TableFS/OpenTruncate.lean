import TableFS.WrittenSizes

/-! Open with O_TRUNC. The flag takes effect only where a disk file is opened: Open leaves the
size and the inline data alone, and a handle that has yet to open a disk file cuts it later. -/
namespace TableFS
open ByteSeq Slots Disk InodeCache

def O_RDWR_TRUNC : OpenFlags := { rdwr := true, trunc := true }

/-- The same flags without O_TRUNC. -/
def OpenFlags.keeping (flags : OpenFlags) : OpenFlags := { flags with trunc := false }

/-- The size of a file is that of its data: of the inline bytes, with no disk file besides, or of the
disk file. -/
structure Whole (d : Disk) (v : Value) : Prop where
  inlined : v.header.has_blob = 0 → v.inline.length = v.fstat.st_size ∧ d.content (dataPath v) = none
  onDisk : 0 < v.header.has_blob → ∃ b, d.content (dataPath v) = some b ∧ b.length = v.fstat.st_size

/-- The file behind a handle is empty: its size, what is read of it through the handle and through
one newly opened, and its data where it is kept. -/
def State.Empties (s : State) (fh : Nat) : Prop :=
  ∃ f key h, s.fileOf fh = some (f, key, h) ∧ h.value_.fstat.st_size = 0 ∧ Whole s.disk h.value_ ∧
    ∀ env size offset, (s.read env fh size offset).2.data = [] ∧
      (readValue env s.disk h.value_ none {} size offset).2.2.2 = []

/-- The state with O_TRUNC taken from the flags of one handle. -/
def State.keeping (s : State) (fh : Nat) (f : FileHandle) : State :=
  { s with files := replace s.files fh { f with flags_ := f.flags_.keeping } }

/-- A Read through the handle changes nothing in the file, and a Write does what it does without
O_TRUNC. -/
structure Spares (s : State) (fh : Nat) (f : FileHandle) (v : Value) : Prop where
  read : ∀ env size offset, (s.read env fh size offset).1.disk.bytes (dataPath v) = s.disk.bytes (dataPath v)
  write : ∀ env fi_flags buf offset,
    (s.write env fh fi_flags buf offset).1.inode_cache =
        ((s.keeping fh f).write env fh fi_flags buf offset).1.inode_cache ∧
      (s.write env fh fi_flags buf offset).1.disk.bytes (dataPath v) =
        ((s.keeping fh f).write env fh fi_flags buf offset).1.disk.bytes (dataPath v)

/-- The handle has yet to open the disk file, and will cut it. -/
def State.Pending (s : State) (fh : Nat) : Prop :=
  ∃ x ∈ s.fileOf fh, 0 < x.2.2.value_.header.has_blob ∧ Cuts s.disk x.2.2.value_ x.1.fd_ x.1.flags_

instance (s : State) (fh : Nat) : Decidable (s.Pending fh) :=
  inferInstanceAs (Decidable (∃ x ∈ s.fileOf fh, _))

section
variable {env : Env} {d d' : Disk} {v : Value} {fd : Option Nat} {path : DiskPath} {flags : OpenFlags}

private theorem openFile_keeping (h : flags.trunc = true → d.bytes path = []) :
    (d.openFile path flags).1.names = (d.openFile path flags.keeping).1.names ∧
      (d.openFile path flags).1.files = (d.openFile path flags.keeping).1.files := by
  unfold openFile
  cases hn : d.names.lookup path with
  | none => exact ⟨rfl, rfl⟩
  | some f =>
    refine ⟨rfl, ?_⟩
    simp only [OpenFlags.keeping]
    split
    · rename_i ht
      have hempty : d.contents f = [] := (bytes_of_name hn).symm.trans (h ht)
      refine List.ext_getElem? fun i => ?_
      by_cases hi : f = i
      · subst hi
        by_cases hl : f < d.files.length
        · simp only [contents, List.getElem?_eq_getElem hl, Option.getD_some] at hempty
          simp [hl, hempty]
        · simp [List.set_eq_of_length_le (Nat.le_of_not_lt hl)]
      · simp [List.getElem?_set_ne hi]
    · rfl

private theorem bytes_congr (hn : d.names = d'.names) (hf : d.files = d'.files) (path : DiskPath) :
    d.bytes path = d'.bytes path := by
  unfold bytes content contents
  rw [hn, hf]

private theorem pwrite_keeping (path : DiskPath) {n f : Nat} (hn : d.names = d'.names) (hf : d.files = d'.files)
    (hs : slot d.fds n = some ⟨f, flags⟩) (hs' : slot d'.fds n = some ⟨f, flags.keeping⟩) (buf : List UInt8)
    (offset : Nat) (io : IoResult) :
    (d.pwrite n buf offset io).2 = (d'.pwrite n buf offset io).2 ∧
      (d.pwrite n buf offset io).1.bytes path = (d'.pwrite n buf offset io).1.bytes path := by
  have hw : flags.keeping.writable = flags.writable := rfl
  have ha : flags.keeping.append = flags.append := rfl
  simp only [pwrite, hs, hs', hw, ha]
  split
  · refine ⟨rfl, ?_⟩
    split
    · exact bytes_congr hn hf path
    · apply bytes_congr
      · exact hn
      · simp only [contents, hf]
  · exact ⟨rfl, bytes_congr hn hf path⟩

private theorem writeValue_keeping (h : 0 < v.header.has_blob → ¬ Cuts d v fd flags) (env : Env) (threshold : Nat)
    (fi_flags : OpenFlags) (buf : List UInt8) (offset : Nat) :
    (writeValue env threshold d v fd flags fi_flags buf offset).2.1 =
        (writeValue env threshold d v fd flags.keeping fi_flags buf offset).2.1 ∧
      (writeValue env threshold d v fd flags fi_flags buf offset).1.bytes (dataPath v) =
        (writeValue env threshold d v fd flags.keeping fi_flags buf offset).1.bytes (dataPath v) := by
  by_cases hb : 0 < v.header.has_blob
  · cases fd with
    | some n => simp only [writeValue, if_pos hb, lazyOpen, and_self]
    | none =>
      have hempty (ht : flags.trunc = true) : d.bytes (dataPath v) = [] := by
        by_contra hne
        exact h hb ⟨rfl, ht, hne⟩
      obtain ⟨hn, hf⟩ := openFile_keeping hempty
      obtain ⟨f, hname, hs⟩ := slot_openFile d (dataPath v) flags
      obtain ⟨f', hname', hs'⟩ := slot_openFile d (dataPath v) flags.keeping
      obtain rfl := Option.some.inj (hname.symm.trans (hn ▸ hname'))
      obtain ⟨hret, hbytes⟩ := pwrite_keeping (dataPath v) hn hf ((hs _).trans (if_pos rfl))
        ((hs' _).trans (if_pos rfl)) buf offset env.data
      simp only [writeValue, if_pos hb, lazyOpen, openDiskFile, openFile_snd]
      rw [show getDiskFilePath v.header.fstat.st_ino = dataPath v from rfl, hret, hbytes]
      exact ⟨rfl, rfl⟩
  · simp only [writeValue, if_neg hb, and_self]

private theorem transfer_slice_nil (io : IoResult) (offset size : Nat) :
    (transfer io (slice offset size ([] : List UInt8))).2 = [] := by
  cases io <;> simp [transfer, slice]

private theorem bytes_write_nothing (hb : 0 < v.header.has_blob) (threshold : Nat) (fi_flags : OpenFlags) :
    (writeValue .calm threshold d v none flags fi_flags [] 0).1.bytes (dataPath v) =
      if flags.trunc then [] else d.bytes (dataPath v) := by
  have hsame (d' : Disk) (n : Nat) : (d'.pwrite n [] 0 .full).1 = d' := by
    unfold pwrite
    split
    · split <;> rfl
    · rfl
  simp only [writeValue, if_pos hb, Env.calm, hsame]
  exact bytes_openFile d (dataPath v) flags

end

section
variable {s : State} {fh : Nat} {f : FileHandle} {key : MetaKey} {h : InodeCacheHandle}

private theorem fileOf_keeping (hf : s.fileOf fh = some (f, key, h)) :
    (s.keeping fh f).fileOf fh = some ({ f with flags_ := f.flags_.keeping }, key, h) := by
  obtain ⟨hslot, hh⟩ := State.fileOf_some.mp hf
  refine State.fileOf_some.mpr ⟨?_, hh⟩
  simp only [State.keeping, slot_replace (lt_of_slot hslot), if_pos]

private theorem spares_iff (hf : s.fileOf fh = some (f, key, h)) : Spares s fh f h.value_ ↔ ¬ s.Pending fh := by
  have hpend : s.Pending fh ↔ 0 < h.value_.header.has_blob ∧ Cuts s.disk h.value_ f.fd_ f.flags_ := by
    simp [State.Pending, hf]
  have hread (env : Env) (size offset : Nat) : (s.read env fh size offset).1.disk =
      (readValue env s.disk h.value_ f.fd_ f.flags_ size offset).1 := by
    simp only [State.read, hf]
  have hwrite (env : Env) (fi_flags : OpenFlags) (buf : List UInt8) (offset : Nat) :
      (s.write env fh fi_flags buf offset).1.disk =
        (writeValue env s.threshold_ s.disk h.value_ f.fd_ f.flags_ fi_flags buf offset).1 ∧
      ((s.keeping fh f).write env fh fi_flags buf offset).1.disk =
        (writeValue env s.threshold_ s.disk h.value_ f.fd_ f.flags_.keeping fi_flags buf offset).1 := by
    simp only [State.write, hf, fileOf_keeping hf, true_and]
    rfl
  rw [hpend]
  constructor
  · rintro hl ⟨hb, hfd, ht, hne⟩
    have hsame := (hl.write .calm {} [] 0).2
    rw [(hwrite _ _ _ _).1, (hwrite _ _ _ _).2, hfd, bytes_write_nothing hb, bytes_write_nothing hb, if_pos ht] at hsame
    exact hne hsame.symm
  · intro hp
    have hcut (hb : 0 < h.value_.header.has_blob) : ¬ Cuts s.disk h.value_ f.fd_ f.flags_ := fun hc => hp ⟨hb, hc⟩
    refine ⟨fun env size offset => ?_, fun env fi_flags buf offset => ?_⟩
    · rw [hread, readValue]
      split
      · rename_i hb
        exact bytes_lazyOpen (hcut hb)
      · rfl
    · obtain ⟨hv, hd⟩ := writeValue_keeping hcut env s.threshold_ fi_flags buf offset
      rw [(hwrite _ _ _ _).1, (hwrite _ _ _ _).2]
      refine ⟨?_, hd⟩
      simp only [State.write, hf, fileOf_keeping hf, hv]
      rfl

private theorem openFile_spec (hs : s.Counted) {path : CString} {name : List UInt8}
    (hfound : s.found path = some (key, name)) {v : Value} (hv : s.visible key = some v) (flags : OpenFlags) :
    (s.openFile path flags).2 = { ret := 0, fh := some s.files.length } ∧
      (s.openFile path flags).1.disk =
        (if 0 < v.header.has_blob then (openDiskFile s.disk v.header flags).1 else s.disk) ∧
      ∃ i h, h.value_ = v ∧ (s.openFile path flags).1.fileOf s.files.length =
        some (⟨i, flags, if 0 < v.header.has_blob then some (openDiskFile s.disk v.header flags).2 else none⟩, key,
          h) := by
  obtain ⟨ic, i, h', rfl, ha, hp, _⟩ := State.acquire_of_visible hs hfound hv flags.mode
  unfold State.openFile
  rw [ha]
  refine ⟨rfl, ?_, i, h', rfl, State.fileOf_some.mpr ⟨?_, hp.self⟩⟩
  · by_cases hb : 0 < h'.value_.header.has_blob <;> simp only [hb, if_true, if_false]
  · by_cases hb : 0 < h'.value_.header.has_blob <;> simp only [hb, if_true, if_false, slot_push]

private theorem empties_iff (hs : s.Counted) {path : CString} {name : List UInt8}
    (hfound : s.found path = some (key, name)) {v : Value} (hv : s.visible key = some v) (hw : Whole s.disk v) :
    (s.openFile path O_RDWR_TRUNC).1.Empties s.files.length ↔ v.fstat.st_size = 0 := by
  obtain ⟨_, hdisk, i, h', rfl, hfile⟩ := openFile_spec hs hfound hv O_RDWR_TRUNC
  constructor
  · rintro ⟨f'', key'', h'', hf'', hsize, _⟩
    obtain ⟨-, -, rfl⟩ := State.fileOf_inj hfile hf''
    exact hsize
  · intro hsize
    refine ⟨_, _, _, hfile, hsize, ?_, fun env size offset => ?_⟩
    · rw [hdisk]
      refine ⟨fun h0 => ?_, fun hb => ⟨[], ?_, hsize.symm⟩⟩
      · rw [if_neg (Nat.not_lt.mpr (Nat.le_of_eq h0))]
        exact hw.inlined h0
      · rw [if_pos hb]
        exact content_openFile s.disk (dataPath h'.value_) O_RDWR_TRUNC
    · rw [read_snd hfile, hdisk]
      by_cases hb : 0 < h'.value_.header.has_blob
      · have hbytes := bytes_openFile s.disk (dataPath h'.value_) O_RDWR_TRUNC
        have hread := pread_openFile s.disk (dataPath h'.value_) O_RDWR_TRUNC size offset env.data
        simp only [if_pos hb, openDiskFile, readValue_opening hb]
        rw [show getDiskFilePath h'.value_.header.fstat.st_ino = dataPath h'.value_ from rfl, hbytes]
        simp only [readValue, if_pos hb, lazyOpen, hread]
        exact ⟨transfer_slice_nil env.data offset size, transfer_slice_nil env.data offset size⟩
      · have h0 := Nat.eq_zero_of_not_pos hb
        have hnil : h'.value_.inline = [] := List.length_eq_zero_iff.mp ((hw.inlined h0).1.trans hsize)
        rw [readValue_inline h0, readValue_inline h0, hnil]
        simp [slice]

/-- Open with O_TRUNC empties the file, and the handle does not cut it in any state that later
requests lead to. -/
structure TruncatesOnce (s : State) (fh : Nat) (calls : List (Env × Op)) : Prop where
  empties : s.Empties fh
  spares : ∀ earlier, earlier <+: calls → ∀ f key h, (Runs.run step s earlier).1.fileOf fh = some (f, key, h) →
    Spares (Runs.run step s earlier).1 fh f h.value_

/-- Open with O_TRUNC | O_RDWR on a file whose size is that of its data returns 0. It empties the
file for good exactly if the file was empty, and at no later moment the data is on disk while
the handle has yet to open the disk file. -/
theorem open_truncates_once_iff (hs : Reachable s) {path : CString} {name : List UInt8}
    (hfound : s.found path = some (key, name)) {v : Value} (hv : s.visible key = some v) (hw : Whole s.disk v)
    (calls : List (Env × Op)) :
    (s.openFile path O_RDWR_TRUNC).2 = { ret := 0, fh := some s.files.length } ∧
      (TruncatesOnce (s.openFile path O_RDWR_TRUNC).1 s.files.length calls ↔
        v.fstat.st_size = 0 ∧ ∀ earlier, earlier <+: calls →
          ¬ (Runs.run step (s.openFile path O_RDWR_TRUNC).1 earlier).1.Pending s.files.length) := by
  refine ⟨(openFile_spec hs.ok.counted hfound hv O_RDWR_TRUNC).1, fun ht => ?_, fun hc => ?_⟩
  · refine ⟨(empties_iff hs.ok.counted hfound hv hw).mp ht.empties, fun earlier hpre hpend => ?_⟩
    obtain ⟨x, hx, _⟩ := id hpend
    exact (spares_iff hx).mp (ht.spares earlier hpre _ _ _ hx) hpend
  · refine ⟨(empties_iff hs.ok.counted hfound hv hw).mpr hc.1, fun earlier hpre f key h hf => ?_⟩
    exact (spares_iff hf).mpr (hc.2 earlier hpre)

end

/-- An empty file to which another handle writes, within the threshold. -/
theorem open_truncates_once_inline :
    let s := (Runs.run step (State.fresh 4) (calmly [.makeNode (inRoot [97]) 0 0, .openFile (inRoot [97]) O_RDWR])).1
    TruncatesOnce (s.openFile (inRoot [97]) O_RDWR_TRUNC).1 1 (calmly [.write 0 O_RDWR [1, 2] 0, .read 1 9 0]) := by
  intro s
  obtain ⟨⟨key, name⟩, hfound⟩ := Option.isSome_iff_exists.mp
    (by decide +kernel : (s.found (inRoot [97])).isSome = true)
  have hvis : ∀ x ∈ s.found (inRoot [97]), (s.visible x.1).isSome = true := by decide +kernel
  obtain ⟨v, hv⟩ := Option.isSome_iff_exists.mp (hvis _ hfound)
  have hempty : ∀ x ∈ s.found (inRoot [97]), ∀ v ∈ s.visible x.1, v.header.has_blob = 0 ∧ v.inline.length = 0 ∧
      v.fstat.st_size = 0 ∧ s.disk.content (dataPath v) = none := by decide +kernel
  obtain ⟨hb, hlen, hsize, hnone⟩ := hempty _ hfound v hv
  have hpend : ∀ earlier ∈ (calmly [.write 0 O_RDWR [1, 2] 0, .read 1 9 0]).inits,
      ¬ (Runs.run step (s.openFile (inRoot [97]) O_RDWR_TRUNC).1 earlier).1.Pending 1 := by decide +kernel
  have hs := State.reachable_fresh 4 (calmly [.makeNode (inRoot [97]) 0 0, .openFile (inRoot [97]) O_RDWR])
  exact (open_truncates_once_iff hs hfound hv
    ⟨fun _ => ⟨hlen.trans hsize.symm, hnone⟩, fun hpos => absurd hb (Nat.ne_of_gt hpos)⟩ _).2.mpr
    ⟨hsize, fun earlier hpre => hpend earlier ((List.mem_inits _ _).mpr hpre)⟩

/-- Two inline bytes are read after Open with O_TRUNC, and of two bytes on disk the size stays. An
empty file is opened so, three bytes are written through another handle, and a Read through
the first one removes them. -/
theorem open_truncates_late :
    let small := (Runs.run step (State.fresh 4) (calmly [.makeNode (inRoot [97]) 0 0, .openFile (inRoot [97]) O_RDWR,
      .write 0 O_RDWR [1, 2] 0, .openFile (inRoot [97]) O_RDWR_TRUNC])).1
    let large := (Runs.run step (State.fresh 0) (calmly [.makeNode (inRoot [97]) 0 0, .openFile (inRoot [97]) O_RDWR,
      .write 0 O_RDWR [1, 2] 0, .openFile (inRoot [97]) O_RDWR_TRUNC])).1
    let moved := (Runs.run step (State.fresh 0) (calmly [.makeNode (inRoot [97]) 0 0, .openFile (inRoot [97]) O_RDWR,
      .openFile (inRoot [97]) O_RDWR_TRUNC, .write 0 O_RDWR [1, 2, 3] 0])).1
    (small.read .calm 1 9 0).2.data = [1, 2] ∧
      ((large.read .calm 1 9 0).2.data = [] ∧ ∃ x ∈ large.fileOf 1, x.2.2.value_.fstat.st_size = 2) ∧
      (moved.read .calm 0 9 0).2.data = [1, 2, 3] ∧ ((moved.read .calm 1 9 0).1.read .calm 0 9 0).2.data = [] := by
  decide +kernel

end TableFS
