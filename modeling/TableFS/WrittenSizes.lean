import TableFS.FailedCalls

/-! The size that a Write records, against the bytes that were written: the size is set from the
length that was asked for, so that a short write, or an empty one beyond the end, records bytes
that are not there. Where the bytes go is up to the descriptor: with O_APPEND they go to the end, and
O_TRUNC cuts a file that is still to be opened. -/
namespace TableFS
open ByteSeq Slots Disk

/-- The size of a file is that of its data: of the inline bytes, or of the disk file. -/
structure Measured (d : Disk) (v : Value) : Prop where
  inlined : v.header.has_blob = 0 → v.inline.length = v.fstat.st_size
  onDisk : 0 < v.header.has_blob → ∃ b, d.content (dataPath v) = some b ∧ b.length = v.fstat.st_size

/-- The length of a file after r bytes were written to it, at an offset or at its end. -/
def grown (append : Bool) (length offset r : Nat) : Nat :=
  if r = 0 then length else if append then length + r else max length (offset + r)

/-- The length of the disk file after a handle wrote r bytes. Its descriptor may be on a file that has
lost its name; one that is still to be opened is on the file itself. -/
def lengthWritten (d : Disk) (v : Value) (fd : Option Nat) (flags : OpenFlags) (offset r : Nat) : Nat :=
  match fd with
  | none => grown flags.append (if flags.trunc then 0 else v.fstat.st_size) offset r
  | some n =>
    match slot d.fds n with
    | none => v.fstat.st_size
    | some x =>
      if d.names.lookup (dataPath v) = some x.file then grown x.flags.append v.fstat.st_size offset r
      else v.fstat.st_size

/-- The length of the disk file after the inline data was copied to it, as far as the copy went, and r
bytes were written. -/
def lengthMoved (env : Env) (d : Disk) (v : Value) (fi_flags : OpenFlags) (offset r : Nat) : Nat :=
  let copied := (transfer env.migrate v.inline).2.length
  let before := if fi_flags.trunc then 0 else (d.bytes (dataPath v)).length
  grown fi_flags.append (grown fi_flags.append before 0 copied) offset r

/-- A handle writes at the offset it is given, to the file's own disk file, and does not cut that
file when it opens it. -/
structure Direct (d : Disk) (v : Value) (fd : Option Nat) (flags fi_flags : OpenFlags) : Prop where
  opened : ∀ n, fd = some n → 0 < v.header.has_blob → ∃ fl, d.Opens n fl (dataPath v) ∧ fl.append = false
  opening : fd = none → flags.append = false ∧ flags.trunc = false
  moving : v.header.has_blob = 0 → fi_flags.append = false ∧ d.bytes (dataPath v) = []

/-- The size after a Write that returned r is that of the bytes there were and the r it wrote, and
it is the size of the data. -/
def SizeFollows (d' : Disk) (v v' : Value) (offset r : Nat) : Prop :=
  v'.fstat.st_size = (if 0 < r then max v.fstat.st_size (offset + r) else v.fstat.st_size) ∧ Measured d' v'

/-- A Write sends all it was given, and something, or stays within the file; and a disk file that it
writes to ends where the recorded size has it end. -/
def WriteCounts (env : Env) (threshold : Nat) (d : Disk) (v : Value) (fd : Option Nat) (flags fi_flags : OpenFlags)
    (size offset r : Nat) : Prop :=
  (offset + size ≤ v.fstat.st_size ∨ 0 < r ∧ r = size) ∧
    (0 < v.header.has_blob → lengthWritten d v fd flags offset r = max v.fstat.st_size (offset + size)) ∧
    (v.header.has_blob = 0 → threshold < offset + size →
      v.fstat.st_size ≤ offset + size ∧ lengthMoved env d v fi_flags offset r = offset + size)

section
variable {env : Env} {threshold : Nat} {d : Disk} {v : Value} {fd : Option Nat} {path : DiskPath}
  {flags fi_flags : OpenFlags}
  {buf : List UInt8} {offset r : Nat}

private theorem transfer_natCast {io : IoResult} (h : (transfer io buf).1 = r) :
    (transfer io buf).2.length = r ∧ r ≤ buf.length := by
  cases io with
  | full =>
    simp only [transfer] at h ⊢
    omega
  | short k =>
    simp only [transfer, List.length_take] at h ⊢
    omega
  | fail errno hpos =>
    simp only [transfer] at h
    omega

private theorem cInt_le (n : Nat) : cInt n ≤ n := by
  unfold cInt Int.bmod
  dsimp only
  split <;> omega

/-- A write that returns a count puts so many bytes into the file of its descriptor, and nothing into
another. -/
private theorem pwrite_length {n : Nat} {x : Descriptor} (hx : slot d.fds n = some x) (hlt : x.file < d.files.length)
    {io : IoResult} (hr : (d.pwrite n buf offset io).2 = r) :
    (transfer io buf).1 = r ∧ (d.pwrite n buf offset io).1.names = d.names ∧
      (d.pwrite n buf offset io).1.fds = d.fds ∧ (d.pwrite n buf offset io).1.files.length = d.files.length ∧
      ∀ f, ((d.pwrite n buf offset io).1.contents f).length =
        if f = x.file then grown x.flags.append (d.contents f).length offset r else (d.contents f).length := by
  have hw : x.flags.writable = true := by
    by_contra hw
    simp only [pwrite, hx, hw] at hr
    simp [EBADF] at hr
  simp only [pwrite, hx, hw, if_true] at hr ⊢
  obtain ⟨hlen, _⟩ := transfer_natCast hr
  by_cases hnil : (transfer io buf).2 = []
  · have hzero : r = 0 := by simpa [hnil] using hlen.symm
    rw [if_pos hnil]
    refine ⟨hr, rfl, rfl, rfl, fun f => ?_⟩
    simp [grown, hzero]
  · have hpos : r ≠ 0 := fun h0 => hnil (List.length_eq_zero_iff.mp (hlen.trans h0))
    rw [if_neg hnil]
    refine ⟨hr, rfl, rfl, List.length_set .., fun f => ?_⟩
    by_cases hf : f = x.file
    · subst hf
      rw [if_pos rfl, grown, if_neg hpos]
      simp only [contents, List.getElem?_set_self hlt, Option.getD_some, length_overlay, hlen]
      split <;> simp_all
    · rw [if_neg hf]
      simp only [contents, List.getElem?_set_ne (Ne.symm hf)]

private theorem pwrite_content (hg : d.Good) {n : Nat} {x : Descriptor} (hx : slot d.fds n = some x) {b : List UInt8}
    (hc : d.content path = some b) {io : IoResult} (hr : (d.pwrite n buf offset io).2 = r) :
    ∃ c, (d.pwrite n buf offset io).1.content path = some c ∧
      c.length = if d.names.lookup path = some x.file then grown x.flags.append b.length offset r else b.length := by
  obtain ⟨f, hf, rfl⟩ := Option.map_eq_some_iff.mp hc
  obtain ⟨_, hnames, _, _, hlength⟩ := pwrite_length hx (hg.fds_lt n x hx) hr
  refine ⟨_, content_of_name (by rw [hnames, hf]), ?_⟩
  rw [hlength, hf]
  simp only [Option.some.injEq]

theorem content_openFile (d : Disk) (path : DiskPath) (flags : OpenFlags) :
    (d.openFile path flags).1.content path = some (if flags.trunc then [] else d.bytes path) := by
  obtain ⟨f, hname, _⟩ := slot_openFile d path flags
  rw [content_of_name hname, ← bytes_of_name hname, bytes_openFile]

/-- Writing through a descriptor that was just opened. -/
private theorem pwrite_opened (hg : d.Good) (path : DiskPath) (flags : OpenFlags) {io : IoResult}
    (hr : ((d.openFile path flags).1.pwrite (d.openFile path flags).2 buf offset io).2 = r) :
    ∃ c, ((d.openFile path flags).1.pwrite (d.openFile path flags).2 buf offset io).1.content path = some c ∧
      c.length = grown flags.append (if flags.trunc then 0 else (d.bytes path).length) offset r := by
  obtain ⟨f, hname, hslot⟩ := slot_openFile d path flags
  have hx : slot (d.openFile path flags).1.fds (d.openFile path flags).2 = some ⟨f, flags⟩ := by
    rw [openFile_snd, hslot, if_pos rfl]
  obtain ⟨c, hc, hlen⟩ := pwrite_content (hg.openFile path flags) hx (content_openFile d path flags) hr
  refine ⟨c, hc, hlen.trans ?_⟩
  rw [if_pos hname, apply_ite List.length]
  rfl

/-- What the write of a Write leaves on disk. -/
private theorem content_written (hg : d.Good) {b : List UInt8} (hc : d.content (dataPath v) = some b)
    (hlen : b.length = v.fstat.st_size) {io : IoResult}
    (hr : ((lazyOpen d v.header fd flags).1.pwrite (lazyOpen d v.header fd flags).2 buf offset io).2 = r) :
    ∃ c, ((lazyOpen d v.header fd flags).1.pwrite (lazyOpen d v.header fd flags).2 buf offset io).1.content
      (dataPath v) = some c ∧
      c.length = lengthWritten d v fd flags offset r := by
  cases fd with
  | none =>
    obtain ⟨c, hc', hlen'⟩ := pwrite_opened hg (dataPath v) flags hr
    refine ⟨c, hc', hlen'.trans ?_⟩
    rw [bytes, hc, Option.getD_some, hlen, lengthWritten]
  | some n =>
    cases hx : slot d.fds n with
    | none =>
      simp only [lazyOpen, pwrite, hx] at hr
      exact absurd hr (by simp [EBADF])
    | some x =>
      obtain ⟨c, hc', hlen'⟩ := pwrite_content hg hx hc hr
      refine ⟨c, hc', hlen'.trans ?_⟩
      simp only [lengthWritten, hx, hlen]

/-- The descriptor that MigrateToDiskFile opens, and what is on disk when its copy reported no error. -/
private theorem content_migrated (hg : d.Good) (hlen : v.inline.length = v.fstat.st_size)
    (hret : (migrateToDiskFile env d v fd flags).2.2.2 = 0) :
    let r := migrateToDiskFile env d v fd flags
    r.1.Good ∧ ∃ f c, slot r.1.fds r.2.2.1 = some ⟨f, flags⟩ ∧ r.1.names.lookup (dataPath v) = some f ∧
      r.1.content (dataPath v) = some c ∧ c.length =
        grown flags.append (if flags.trunc then 0 else (d.bytes (dataPath v)).length) 0
          (transfer env.migrate v.inline).2.length := by
  have hfails : ¬ CopyFails env d v fd flags := fun hf => migrate_ne_zero_iff.mpr hf hret
  obtain ⟨hclosed, hsame, _⟩ := closeDescriptor_spec hg (dataPath v) fd env.errno
  have hbytes : (closeDescriptor d fd env.errno).1.bytes (dataPath v) = d.bytes (dataPath v) := by rw [bytes, hsame, bytes]
  obtain ⟨f, hname, hslot⟩ := slot_openFile (closeDescriptor d fd env.errno).1 (dataPath v) flags
  have hx := (hslot _).trans (if_pos (openFile_snd _ (dataPath v) flags))
  unfold migrateToDiskFile
  dsimp only [openDiskFile]
  rw [show getDiskFilePath v.header.fstat.st_ino = dataPath v from rfl]
  by_cases hpos : 0 < v.fstat.st_size
  · rw [if_pos hpos]
    -- an error of the copy would have been reported
    obtain ⟨k, hk⟩ : ∃ k : Nat, copyResult env d v fd flags = k := by
      refine Int.eq_ofNat_of_zero_le (Int.not_lt.mp fun hneg => hfails ⟨⟨hpos, ?_⟩, ?_⟩)
      · rw [cResult, if_pos hneg]
        omega
      · rw [errnoAfter, if_pos hneg]
        omega
    have hgood := hclosed.good.openFile (dataPath v) flags
    obtain ⟨hsent, hnames, hfds, _⟩ := pwrite_length hx (hgood.fds_lt _ _ hx) hk
    obtain ⟨c, hc, hclen⟩ := pwrite_opened hclosed.good (dataPath v) flags hk
    rw [memoryFrom_of_length _ hlen] at hsent hnames hfds hc
    dsimp only
    rw [memoryFrom_of_length _ hlen]
    refine ⟨hgood.pwrite _ _ _ _, f, c, by rw [hfds, hx], by rw [hnames, hname], hc, ?_⟩
    rw [hclen, hbytes, (transfer_natCast hsent).1]
  · rw [if_neg hpos]
    refine ⟨hclosed.good.openFile _ flags, f, _, hx, hname, content_openFile _ _ flags, ?_⟩
    have hnil : v.inline = [] := List.length_eq_zero_iff.mp (by omega)
    have hnone : (transfer env.migrate []).2.length = 0 := by cases env.migrate <;> simp [transfer]
    rw [hnil, hnone, hbytes, grown, if_pos rfl, apply_ite List.length]
    rfl

/-- A write that could send r bytes and is reported to have done so did. -/
private theorem pwrite_sent {n : Nat} {io : IoResult}
    (hsent : (transfer io buf).1 = r) (hret : cInt (cResult (d.pwrite n buf offset io).2) = r) :
    (d.pwrite n buf offset io).2 = r := by
  have herr : cInt (cResult (-(EBADF : Int))) ≠ r := by
    have : cInt (cResult (-(EBADF : Int))) = -1 := by decide
    omega
  unfold pwrite at hret ⊢
  cases hx : slot d.fds n with
  | none =>
    simp only [hx] at hret
    exact absurd hret herr
  | some x =>
    simp only [hx] at hret ⊢
    by_cases hw : x.flags.writable = true
    · rw [if_pos hw]
      exact hsent
    · rw [if_neg hw] at hret
      exact absurd hret herr

private theorem dataPath_writeValue (env : Env) (threshold : Nat) (d : Disk) (v : Value) (fd : Option Nat)
    (flags fi_flags : OpenFlags) (buf : List UInt8) (offset : Nat) :
    dataPath (writeValue env threshold d v fd flags fi_flags buf offset).2.1 = dataPath v :=
  congrArg getDiskFilePath (keeps_writeValue env threshold d v fd flags fi_flags buf offset).ino

/-- A value on disk is measured by its disk file. -/
private theorem measured_onDisk_iff {c : List UInt8} (hb : 0 < v.header.has_blob)
    (hc : d.content (dataPath v) = some c) :
    Measured d v ↔ c.length = v.fstat.st_size := by
  refine ⟨fun h => ?_, fun h => ⟨fun h0 => absurd h0 (Nat.ne_of_gt hb), fun _ => ⟨c, hc, h⟩⟩⟩
  obtain ⟨b, hb', hlen⟩ := h.onDisk hb
  rwa [← Option.some.inj (hb'.symm.trans hc)]

private theorem sizeFollows_disk (hg : d.Good) (hsized : v.Sized) (hw : Measured d v) (hb : 0 < v.header.has_blob)
    (hsent : (transfer env.data buf).1 = r)
    (hret : (writeValue env threshold d v fd flags fi_flags buf offset).2.2.2 = r) :
    SizeFollows (writeValue env threshold d v fd flags fi_flags buf offset).1 v
        (writeValue env threshold d v fd flags fi_flags buf offset).2.1 offset r ↔
      (offset + buf.length ≤ v.fstat.st_size ∨ 0 < r ∧ r = buf.length) ∧
        lengthWritten d v fd flags offset r = max v.fstat.st_size (offset + buf.length) := by
  obtain ⟨b, hc, hlen⟩ := hw.onDisk hb
  have hpath := dataPath_writeValue env threshold d v fd flags fi_flags buf offset
  rcases extent_writeValue hsized env threshold d fd flags fi_flags buf offset with
    ⟨_, he⟩ | ⟨h0, _⟩ | ⟨h0, _⟩ | ⟨h0, _⟩
  · rw [hret, if_pos (Int.natCast_nonneg r)] at he
    have hsize := congrArg Extent.st_size he
    have hblob := congrArg Extent.has_blob he
    simp only [Value.extent] at hsize hblob
    simp only [writeValue, if_pos hb] at hret
    obtain ⟨c, hc', hclen⟩ := content_written hg hc hlen (pwrite_sent hsent hret)
    have hcontent : (writeValue env threshold d v fd flags fi_flags buf offset).1.content
        (dataPath (writeValue env threshold d v fd flags fi_flags buf offset).2.1) = some c := by
      rw [hpath]
      simp only [writeValue, if_pos hb]
      exact hc'
    obtain ⟨_, hle⟩ := transfer_natCast hsent
    unfold SizeFollows
    rw [measured_onDisk_iff (hblob.symm ▸ hb) hcontent, hsize, hclen]
    refine and_congr_left fun _ => ?_
    split <;> omega
  all_goals omega

private theorem sizeFollows_moved (hg : d.Good) (hsized : v.Sized) (hw : Measured d v) (hb : v.header.has_blob = 0)
    (hbig : threshold < offset + buf.length) (hsent : (transfer env.data buf).1 = r)
    (hret : (writeValue env threshold d v fd flags fi_flags buf offset).2.2.2 = r) :
    SizeFollows (writeValue env threshold d v fd flags fi_flags buf offset).1 v
        (writeValue env threshold d v fd flags fi_flags buf offset).2.1 offset r ↔
      (offset + buf.length ≤ v.fstat.st_size ∨ 0 < r ∧ r = buf.length) ∧ v.fstat.st_size ≤ offset + buf.length ∧
        lengthMoved env d v fi_flags offset r = offset + buf.length := by
  have hpath := dataPath_writeValue env threshold d v fd flags fi_flags buf offset
  have hb' : ¬ 0 < v.header.has_blob := by omega
  rcases extent_writeValue hsized env threshold d fd flags fi_flags buf offset with
    ⟨hpos, _⟩ | ⟨_, _, _, hneg, _⟩ | ⟨_, _, hcopy, he⟩ | ⟨_, hle, _⟩
  · omega
  · omega
  · have hsize := congrArg Extent.st_size he
    have hblob := congrArg Extent.has_blob he
    simp only [Value.extent] at hsize hblob
    obtain ⟨hgood, f, c₀, hx, hname, hc₀, hlen₀⟩ := content_migrated hg (hw.inlined hb) hcopy
    simp only [writeValue, if_neg hb', if_pos hbig, hcopy, if_true] at hret
    obtain ⟨c, hc, hclen⟩ := pwrite_content hgood hx hc₀ (pwrite_sent hsent hret)
    rw [if_pos hname, hlen₀] at hclen
    have hcontent : (writeValue env threshold d v fd flags fi_flags buf offset).1.content
        (dataPath (writeValue env threshold d v fd flags fi_flags buf offset).2.1) = some c := by
      rw [hpath]
      simp only [writeValue, if_neg hb', if_pos hbig, hcopy, if_true]
      exact hc
    obtain ⟨_, hle⟩ := transfer_natCast hsent
    unfold SizeFollows
    rw [measured_onDisk_iff (hblob.symm ▸ Nat.one_pos) hcontent, hsize, hclen, ← and_assoc]
    refine and_congr_left fun _ => ?_
    split <;> omega
  · omega

private theorem sizeFollows_inline (hsized : v.Sized) (hw : Measured d v) (hb : v.header.has_blob = 0)
    (hle : offset + buf.length ≤ threshold)
    (hret : (writeValue env threshold d v fd flags fi_flags buf offset).2.2.2 = r) :
    SizeFollows (writeValue env threshold d v fd flags fi_flags buf offset).1 v
        (writeValue env threshold d v fd flags fi_flags buf offset).2.1 offset r ↔
      offset + buf.length ≤ v.fstat.st_size ∨ 0 < r ∧ r = buf.length := by
  rcases extent_writeValue hsized env threshold d fd flags fi_flags buf offset with
    ⟨hpos, _⟩ | ⟨_, hbig, _⟩ | ⟨_, hbig, _⟩ | ⟨_, _, hcount, he⟩
  · omega
  · omega
  · omega
  · have hr : (r : Int) ≤ buf.length := hret ▸ hcount ▸ cInt_le buf.length
    rw [hret, if_pos (Int.natCast_nonneg r)] at he
    have hsize := congrArg Extent.st_size he
    have hblob := congrArg Extent.has_blob he
    have hinline := congrArg Extent.inline he
    simp only [Value.extent] at hsize hblob hinline
    have hmeasured : Measured (writeValue env threshold d v fd flags fi_flags buf offset).1
        (writeValue env threshold d v fd flags fi_flags buf offset).2.1 := by
      refine ⟨fun _ => ?_, fun h0 => absurd h0 (by omega)⟩
      rw [hinline, length_overlay, hw.inlined hb, hsize]
    unfold SizeFollows
    rw [hsize, and_iff_left hmeasured]
    split <;> omega

private theorem transfer_length (io : IoResult) (b : List UInt8) :
    (transfer io b).2.length ≤ b.length ∧ ((transfer io b).2 = b ↔ (transfer io b).2.length = b.length) := by
  cases io with
  | full => exact ⟨Nat.le_refl _, iff_of_true rfl rfl⟩
  | short k =>
    have hlen : (b.take k).length = min k b.length := List.length_take
    refine ⟨?_, fun h => congrArg List.length h, fun h => List.take_of_length_le ?_⟩ <;>
      simp only [transfer] at * <;> omega
  | fail errno hpos => exact ⟨Nat.zero_le _, fun h => congrArg List.length h, fun h => (List.length_eq_zero_iff.mp h.symm).symm⟩

private theorem lengthWritten_direct (hd : Direct d v fd flags fi_flags) (hb : 0 < v.header.has_blob) :
    lengthWritten d v fd flags offset r = grown false v.fstat.st_size offset r := by
  cases fd with
  | none =>
    obtain ⟨ha, ht⟩ := hd.opening rfl
    simp [lengthWritten, ha, ht]
  | some n =>
    obtain ⟨fl, ⟨f, hx, hname⟩, ha⟩ := hd.opened n rfl hb
    simp [lengthWritten, hx, hname, ha]

private theorem lengthMoved_direct (hd : Direct d v fd flags fi_flags) (hb : v.header.has_blob = 0) :
    lengthMoved env d v fi_flags offset r = grown false (transfer env.migrate v.inline).2.length offset r := by
  obtain ⟨ha, hbytes⟩ := hd.moving hb
  have hcopied (k : Nat) : grown false 0 0 k = k := by
    unfold grown
    split <;> simp_all
  simp [lengthMoved, ha, hbytes, hcopied]

/-- What a handle that writes at its offset has to send. -/
private theorem writeCounts_direct_iff (hw : Measured d v) (hd : Direct d v fd flags fi_flags) {size : Nat}
    (hr : r ≤ size) :
    WriteCounts env threshold d v fd flags fi_flags size offset r ↔
      (offset + size ≤ v.fstat.st_size ∨ 0 < r ∧ r = size) ∧
        (v.header.has_blob = 0 → threshold < offset + size → v.fstat.st_size ≤ offset + size ∧
          (0 < r ∧ r = size ∨ (transfer env.migrate v.inline).2 = v.inline)) := by
  refine and_congr_right fun hcond => ?_
  by_cases hb : 0 < v.header.has_blob
  · have hlength : lengthWritten d v fd flags offset r = max v.fstat.st_size (offset + size) := by
      simp only [lengthWritten_direct hd hb, grown, Bool.false_eq_true, if_false]
      split <;> omega
    exact iff_of_true ⟨fun _ => hlength, fun h0 => absurd h0 (Nat.ne_of_gt hb)⟩ fun h0 => absurd h0 (Nat.ne_of_gt hb)
  · obtain ⟨hle, hcopied⟩ := transfer_length env.migrate v.inline
    have h0 := Nat.eq_zero_of_not_pos hb
    have hinline := hw.inlined h0
    refine (and_iff_right fun hpos => absurd hpos hb).trans ?_
    refine imp_congr_right fun _ => imp_congr_right fun _ => and_congr_right fun hsize => ?_
    simp only [lengthMoved_direct hd h0, hcopied, grown, Bool.false_eq_true, if_false]
    split <;> omega

private theorem sizeFollows_iff (hg : d.Good) (hsized : v.Sized) (hw : Measured d v)
    (hsent : 0 < v.header.has_blob ∨ threshold < offset + buf.length → (transfer env.data buf).1 = r)
    (hret : (writeValue env threshold d v fd flags fi_flags buf offset).2.2.2 = r) :
    SizeFollows (writeValue env threshold d v fd flags fi_flags buf offset).1 v
        (writeValue env threshold d v fd flags fi_flags buf offset).2.1 offset r ↔
      WriteCounts env threshold d v fd flags fi_flags buf.length offset r := by
  unfold WriteCounts
  by_cases hb : 0 < v.header.has_blob
  · rw [sizeFollows_disk hg hsized hw hb (hsent (.inl hb)) hret]
    refine and_congr_right fun _ => ((and_iff_left fun h0 => absurd h0 (Nat.ne_of_gt hb)).trans ?_).symm
    exact forall_prop_of_true hb
  · have h0 := Nat.eq_zero_of_not_pos hb
    by_cases hbig : threshold < offset + buf.length
    · rw [sizeFollows_moved hg hsized hw h0 hbig (hsent (.inr hbig)) hret]
      refine and_congr_right fun _ => ((and_iff_right fun hpos => absurd hpos hb).trans ?_).symm
      exact (forall_prop_of_true h0).trans (forall_prop_of_true hbig)
    · rw [sizeFollows_inline hsized hw h0 (Nat.le_of_not_lt hbig) hret]
      exact (and_iff_left ⟨fun hpos => absurd hpos hb, fun _ hlt => absurd hlt hbig⟩).symm

/-- No more bytes are reported than were asked for. -/
private theorem writeValue_le
    (hsent : 0 < v.header.has_blob ∨ threshold < offset + buf.length → (transfer env.data buf).1 = r)
    (hret : (writeValue env threshold d v fd flags fi_flags buf offset).2.2.2 = r) : r ≤ buf.length := by
  by_cases hdisk : 0 < v.header.has_blob ∨ threshold < offset + buf.length
  · exact (transfer_natCast (hsent hdisk)).2
  · obtain ⟨hb, hbig⟩ := not_or.mp hdisk
    simp only [writeValue, if_neg hb, if_neg hbig] at hret
    exact Int.ofNat_le.mp (hret ▸ cInt_le buf.length)

end

/-- After a Write that returned r the recorded size follows the r bytes, and is that of the data,
exactly if the Write counts what it was asked for. For a handle that writes at its offset that is: it
sends all it was given, and something, or stays within the file; and one that moves the data to the
disk leaves no byte of it behind. -/
theorem write_size_follows_iff {s : State} (hg : s.disk.Good) {fh : Nat} {f : FileHandle} {key : MetaKey}
    {h : InodeCacheHandle} (hf : s.fileOf fh = some (f, key, h)) (hsized : h.value_.Sized)
    (hw : Measured s.disk h.value_) (env : Env) (fi_flags : OpenFlags) (buf : List UInt8) (offset : Nat) {r : Nat}
    (hsent : 0 < h.value_.header.has_blob ∨ s.threshold_ < offset + buf.length → (transfer env.data buf).1 = r)
    (hret : (s.write env fh fi_flags buf offset).2.ret = r) :
    let v := h.value_
    let counts := WriteCounts env s.threshold_ s.disk v f.fd_ f.flags_ fi_flags buf.length offset r
    ((∃ f' h', (s.write env fh fi_flags buf offset).1.fileOf fh = some (f', key, h') ∧
        SizeFollows (s.write env fh fi_flags buf offset).1.disk v h'.value_ offset r) ↔ counts) ∧
      (Direct s.disk v f.fd_ f.flags_ fi_flags → (counts ↔
        (offset + buf.length ≤ v.fstat.st_size ∨ 0 < r ∧ r = buf.length) ∧
          (v.header.has_blob = 0 → s.threshold_ < offset + buf.length → v.fstat.st_size ≤ offset + buf.length ∧
            (0 < r ∧ r = buf.length ∨ (transfer env.migrate v.inline).2 = v.inline)))) := by
  intro v counts
  have hfile := fileOf_write hf env fi_flags buf offset (State.fileOf_some.mp hf).1 rfl
  have hstate : (s.write env fh fi_flags buf offset).1.disk =
      (writeValue env s.threshold_ s.disk v f.fd_ f.flags_ fi_flags buf offset).1 := by
    simp only [State.write, hf]
    rfl
  have hret' : (writeValue env s.threshold_ s.disk v f.fd_ f.flags_ fi_flags buf offset).2.2.2 = r := by
    simp only [State.write, hf] at hret
    exact hret
  have hvalue : (∃ f' h', (s.write env fh fi_flags buf offset).1.fileOf fh = some (f', key, h') ∧
        SizeFollows (s.write env fh fi_flags buf offset).1.disk v h'.value_ offset r) ↔
      SizeFollows (writeValue env s.threshold_ s.disk v f.fd_ f.flags_ fi_flags buf offset).1 v
        (writeValue env s.threshold_ s.disk v f.fd_ f.flags_ fi_flags buf offset).2.1 offset r := by
    rw [hstate]
    refine ⟨fun hx => ?_, fun hfollows => ⟨_, _, hfile, hfollows⟩⟩
    obtain ⟨f', h', hf', hfollows⟩ := hx
    obtain ⟨-, -, rfl⟩ := State.fileOf_inj hfile hf'
    exact hfollows
  exact ⟨hvalue.trans (sizeFollows_iff hg hsized hw hsent hret'),
    fun hd => writeCounts_direct_iff hw hd (writeValue_le hsent hret')⟩

/-- Two bytes inline and three more that move them to the disk. -/
theorem write_size_follows_moved :
    let s := (Runs.run step (State.fresh 4) (calmly [.makeNode (inRoot [97]) 0 0, .openFile (inRoot [97]) O_RDWR,
      .write 0 O_RDWR [1, 2] 0])).1
    ∃ f key h f' h', s.fileOf 0 = some (f, key, h) ∧
      (s.write .calm 0 O_RDWR [3, 4, 5] 2).1.fileOf 0 = some (f', key, h') ∧
      SizeFollows (s.write .calm 0 O_RDWR [3, 4, 5] 2).1.disk h.value_ h'.value_ 2 3 := by
  intro s
  obtain ⟨⟨f, key, h⟩, hf⟩ := Option.isSome_iff_exists.mp (by decide +kernel : (s.fileOf 0).isSome = true)
  have hs := State.reachable_fresh 4 (calmly [.makeNode (inRoot [97]) 0 0, .openFile (inRoot [97]) O_RDWR,
    .write 0 O_RDWR [1, 2] 0])
  have hdata : ∀ x ∈ s.fileOf 0, x.2.2.value_.header.has_blob = 0 ∧
      x.2.2.value_.inline.length = x.2.2.value_.fstat.st_size ∧ s.disk.bytes (dataPath x.2.2.value_) = [] ∧
      x.1.fd_ = none ∧ x.1.flags_ = O_RDWR ∧ x.2.2.value_.fstat.st_size = 2 := by decide +kernel
  obtain ⟨hb, hlen, hbytes, hfd, hflags, hsize⟩ := hdata _ hf
  obtain ⟨hiff, hdirect⟩ := write_size_follows_iff (r := 3) hs.good hf
    (hs.ok.wellFormed.cached _ _ _ (State.fileOf_some.mp hf).2).named.sized
    ⟨fun _ => hlen, fun hpos => absurd hb (Nat.ne_of_gt hpos)⟩ .calm O_RDWR [3, 4, 5] 2 (fun _ => rfl)
      (by decide +kernel)
  have hcounts := (hdirect ⟨fun n hn => absurd (hfd.symm.trans hn) nofun,
    fun _ => ⟨congrArg OpenFlags.append hflags, congrArg OpenFlags.trunc hflags⟩, fun _ => ⟨rfl, hbytes⟩⟩).mpr
      ⟨.inr ⟨by decide, rfl⟩, fun _ _ => ⟨(Nat.le_of_eq hsize).trans (by decide), .inl ⟨by decide, rfl⟩⟩⟩
  obtain ⟨f', h', hf', hfollows⟩ := hiff.mpr hcounts
  exact ⟨f, key, h, f', h', hf, hf', hfollows⟩

/-- Two bytes on disk: of two more only one is written, and the size is four. Nothing written at
offset 5 of an empty file makes its size five. One byte written at offset 0 through a handle with
O_APPEND makes the disk file longer, but not the size. -/
theorem write_size_ahead :
    let s := (Runs.run step (State.fresh 0) (calmly [.makeNode (inRoot [97]) 0 0, .openFile (inRoot [97]) O_RDWR,
      .write 0 O_RDWR [1, 2] 0])).1
    let short := s.write { Env.calm with data := .short 1 } 0 O_RDWR [3, 4] 2
    let t := (Runs.run step (State.fresh 9) (calmly [.makeNode (inRoot [97]) 0 0, .openFile (inRoot [97]) O_RDWR])).1
    let empty := t.write .calm 0 O_RDWR [] 5
    let appending : OpenFlags := { rdwr := true, append := true }
    let a := (Runs.run step (State.fresh 0) (calmly [.makeNode (inRoot [97]) 0 0, .openFile (inRoot [97]) appending,
      .write 0 appending [1, 2] 0])).1
    let appended := a.write .calm 0 appending [3] 0
    (short.2.ret = 1 ∧ ∃ x ∈ short.1.fileOf 0, x.2.2.value_.fstat.st_size = 4 ∧
        short.1.disk.content (dataPath x.2.2.value_) = some [1, 2, 3]) ∧
      (empty.2.ret = 0 ∧ ∃ x ∈ empty.1.fileOf 0, x.2.2.value_.fstat.st_size = 5) ∧
      appended.2.ret = 1 ∧ ∃ x ∈ appended.1.fileOf 0, x.2.2.value_.fstat.st_size = 2 ∧
        appended.1.disk.content (dataPath x.2.2.value_) = some [1, 2, 3] := by
  decide +kernel

end TableFS
