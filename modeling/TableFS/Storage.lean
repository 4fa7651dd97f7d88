import TableFS.FileData
import TableFS.DiskFrames

/-! The bytes of a file and where they are: inline up to the threshold, else in the disk file
named after the inode. Read, Write and Truncate of one value keep this, in every branch. -/
namespace TableFS
open ByteSeq Slots Disk

def dataPath (v : Value) : DiskPath := getDiskFilePath v.fstat.st_ino

/-- The value and the disk hold the bytes of a file: up to the threshold inline, with no disk
file, and above it in the disk file, with nothing inline. -/
structure Stored (threshold : Nat) (d : Disk) (v : Value) (bytes : List UInt8) : Prop where
  sized : v.Sized
  size : v.fstat.st_size = bytes.length
  place : (v.header.has_blob = 0 ∧ bytes.length ≤ threshold ∧ v.inline = bytes ∧ d.content (dataPath v) = none) ∨
    (v.header.has_blob = 1 ∧ threshold < bytes.length ∧ v.inline = [] ∧ d.content (dataPath v) = some bytes)

private theorem stored_iff {threshold : Nat} {d : Disk} {v : Value} {bytes : List UInt8} : Stored threshold d v bytes ↔
    v.Sized ∧ v.fstat.st_size = bytes.length ∧
      ((v.header.has_blob = 0 ∧ bytes.length ≤ threshold ∧ v.inline = bytes ∧ d.content (dataPath v) = none) ∨
        (v.header.has_blob = 1 ∧ threshold < bytes.length ∧ v.inline = [] ∧ d.content (dataPath v) = some bytes)) :=
  ⟨fun h => ⟨h.sized, h.size, h.place⟩, fun h => ⟨h.1, h.2.1, h.2.2⟩⟩

instance (threshold : Nat) (d : Disk) (v : Value) (bytes : List UInt8) : Decidable (Stored threshold d v bytes) :=
  decidable_of_iff' _ stored_iff

/-- The descriptor of a handle is open, and on the file's data if that is on disk. -/
def Usable (d : Disk) (v : Value) (fd : Option Nat) : Prop :=
  ∀ n, fd = some n → slot d.fds n ≠ none ∧ (v.header.has_blob ≠ 0 → d.Opens n O_RDWR (dataPath v))

/-- The descriptors a request may change: its own, and those not in use. -/
def Own (d : Disk) (fd : Option Nat) (n : Nat) : Prop := slot d.fds n = none ∨ fd = some n

/-- A request on one file leaves the value v' and the given bytes; other files and other
handles' descriptors are as before. -/
structure Effect (threshold : Nat) (d : Disk) (v : Value) (fd : Option Nat) (d' : Disk) (v' : Value)
    (bytes : List UInt8) : Prop where
  frame : Frame (dataPath v) (Own d fd) d d'
  stored : Stored threshold d' v' bytes
  ino : v'.fstat.st_ino = v.fstat.st_ino
  names : v.header.has_blob ≠ 0 → v'.header.has_blob ≠ 0 → d'.names = d.names

/-- The descriptor a handle has after a request through it. -/
structure Holds (d : Disk) (fd : Option Nat) (d' : Disk) (v' : Value) (fd' : Option Nat) : Prop where
  usable : Usable d' v' fd'
  own : ∀ n, fd' = some n → Own d fd n
  idle : v'.header.has_blob = 0 → fd' = fd

/-! The requests that keep the data whole under a threshold it was not placed by. -/

/-- A Write that moves the data to disk also sets the size, to the end of what it writes. -/
def WriteFits (limit : Nat) (v : Value) (size : Nat) : Prop :=
  v.header.has_blob = 0 → limit < size → v.fstat.st_size ≤ size

/-- Truncate marks where the data is only when the size changes, and reads no more than there
is on disk back into memory. -/
def TruncateFits (limit : Nat) (v : Value) (n : Nat) : Prop :=
  (v.header.has_blob = 0 → limit < n → n ≠ v.fstat.st_size) ∧ (v.header.has_blob ≠ 0 → n ≤ limit → n < v.fstat.st_size)

/-- Unlink goes by the size. -/
def UnlinkFits (limit : Nat) (v : Value) : Prop := v.header.has_blob ≠ 0 → limit < v.fstat.st_size

instance (limit : Nat) (v : Value) (size : Nat) : Decidable (WriteFits limit v size) :=
  inferInstanceAs (Decidable (_ → _ → _))

instance (limit : Nat) (v : Value) (n : Nat) : Decidable (TruncateFits limit v n) := inferInstanceAs (Decidable (_ ∧ _))

instance (limit : Nat) (v : Value) : Decidable (UnlinkFits limit v) := inferInstanceAs (Decidable (_ → _))

@[simp] theorem cResult_natCast (n : Nat) : cResult (n : Int) = n := by simp [cResult]

/-- The data files of two inodes are the same exactly if their numbers agree in the low 32 bits. -/
theorem getDiskFilePath_eq_iff (i j : UInt64) :
    getDiskFilePath i = getDiskFilePath j ↔ i.toNat % 4294967296 = j.toNat % 4294967296 := by
  have hsplit (a b : Int) (hd : a / 16384 = b / 16384) (ht : a.tmod 16384 = b.tmod 16384) : a = b := by
    rw [Int.tmod_eq_emod, Int.tmod_eq_emod] at ht
    split at ht <;> split at ht <;> omega
  have hcInt (a b : Nat) : cInt a = cInt b ↔ a % 4294967296 = b % 4294967296 := by
    unfold cInt
    rw [Int.bmod_eq_bmod_iff_bmod_sub_eq_zero, ← Int.dvd_iff_bmod_eq_zero]
    omega
  rw [← hcInt]
  refine ⟨fun h => ?_, fun h => by simp [getDiskFilePath, h]⟩
  obtain ⟨hd, ht⟩ := Prod.mk.inj h
  exact hsplit _ _ hd ht

theorem memoryFrom_of_length (heap : Nat → UInt8) {n : Nat} {l : List UInt8} (h : l.length = n) :
    memoryFrom heap n l = l := by
  subst h
  simp [memoryFrom]

section
variable {env : Env} {threshold : Nat} {d d' : Disk} {v v' : Value} {fd : Option Nat} {bytes : List UInt8}

theorem Stored.inlined (h : Stored threshold d v bytes) (h0 : v.header.has_blob = 0) :
    bytes.length ≤ threshold ∧ v.inline = bytes ∧ d.content (dataPath v) = none := by
  rcases h.place with ⟨_, hp⟩ | ⟨h1, _⟩
  · exact hp
  · omega

theorem Stored.onDisk (h : Stored threshold d v bytes) (h0 : v.header.has_blob ≠ 0) :
    threshold < bytes.length ∧ v.inline = [] ∧ d.content (dataPath v) = some bytes := by
  rcases h.place with ⟨h1, _⟩ | ⟨_, hp⟩
  · exact absurd h1 h0
  · exact hp

/-- Requests on other files do not matter. -/
theorem Stored.frame {path : DiskPath} {own : Nat → Prop} (h : Stored threshold d v bytes)
    (hf : Frame path own d d') (hne : dataPath v ≠ path) : Stored threshold d' v bytes := by
  refine { h with place := ?_ }
  rw [hf.content hne]
  exact h.place

theorem Usable.frame {path : DiskPath} {own : Nat → Prop} (h : Usable d v fd) (hf : Frame path own d d')
    (hown : ∀ n, fd = some n → ¬ own n)
    (hn : v'.header.has_blob ≠ 0 → v.header.has_blob ≠ 0 ∧
      d'.names.lookup (dataPath v) = d.names.lookup (dataPath v))
    (hino : v'.fstat.st_ino = v.fstat.st_ino) : Usable d' v' fd := by
  intro n hfd
  refine ⟨by rw [hf.fds n (hown n hfd)]; exact (h n hfd).1, fun hb => ?_⟩
  obtain ⟨hb', hnames⟩ := hn hb
  rw [show dataPath v' = dataPath v by rw [dataPath, hino, dataPath]]
  exact hf.opens (hown n hfd) hnames ((h n hfd).2 hb')

theorem Holds.of_opens {n : Nat} (ho : d'.Opens n O_RDWR (dataPath v')) (hown : Own d fd n)
    (hb : v'.header.has_blob ≠ 0) : Holds d fd d' v' (some n) := by
  refine ⟨?_, ?_, fun h0 => absurd h0 hb⟩
  · rintro _ ⟨rfl⟩
    obtain ⟨f, hf, _⟩ := id ho
    exact ⟨by simp [hf], fun _ => ho⟩
  · rintro _ ⟨rfl⟩
    exact hown

theorem lazyOpen_spec (hg : d.Good) (hfd : Usable d v fd) (hb : v.header.has_blob ≠ 0)
    (hc : d.content (dataPath v) ≠ none) :
    ∃ d' n, lazyOpen d v.header fd O_RDWR = (d', n) ∧ Frame (dataPath v) (Own d fd) d d' ∧ d'.names = d.names ∧
      d'.content (dataPath v) = d.content (dataPath v) ∧ d'.Opens n O_RDWR (dataPath v) ∧ Own d fd n := by
  cases fd with
  | some n => exact ⟨d, n, rfl, .refl hg, rfl, rfl, (hfd n rfl).2 hb, .inr rfl⟩
  | none =>
    obtain ⟨hf, hn, hc', ho, hfree⟩ := openFile_named O_RDWR hg hc rfl
    exact ⟨_, _, rfl, hf.mono fun m hm => .inl (hm ▸ hfree), hn, hc', ho, .inl hfree⟩

theorem readValue_spec (hg : d.Good) (hs : Stored threshold d v bytes) (hfd : Usable d v fd)
    (hio : env.data = .full) {size : Nat} (hsize : size < 2147483648) (offset : Nat) :
    ∃ d' fd', readValue env d v fd O_RDWR size offset =
        (d', fd', ((slice offset size bytes).length : Int), slice offset size bytes) ∧
      Effect threshold d v fd d' v bytes ∧ Holds d fd d' v fd' := by
  have hlen : (slice offset size bytes).length < 2147483648 := by
    rw [length_slice]
    omega
  by_cases hb : v.header.has_blob = 0
  · obtain ⟨_, hin, _⟩ := hs.inlined hb
    refine ⟨d, fd, ?_, ⟨.refl hg, hs, rfl, fun _ _ => rfl⟩, hfd, fun n hn => .inr hn, fun _ => rfl⟩
    simp [readValue, hb, getInlineData_eq, hin, cInt_of_lt hlen]
  · obtain ⟨hlt, hin, hc⟩ := hs.onDisk hb
    obtain ⟨d', n, he, hf, hn, hc', ho, hown⟩ := lazyOpen_spec hg hfd hb (by simp [hc])
    refine ⟨d', some n, ?_, ⟨hf, { hs with place := ?_ }, rfl, fun _ _ => hn⟩, .of_opens ho hown hb⟩
    · simp [readValue, Nat.pos_of_ne_zero hb, he, hio, pread_full ho rfl (hc'.trans hc), cInt_of_lt hlen]
    · rw [hc']
      exact hs.place

theorem closeDescriptor_spec (hg : d.Good) (path : DiskPath) (fd : Option Nat) (errno : Nat) :
    Frame path (Own d fd) d (closeDescriptor d fd errno).1 ∧
      (closeDescriptor d fd errno).1.content path = d.content path ∧
      ∀ m, slot (closeDescriptor d fd errno).1.fds m = none → Own d fd m := by
  cases fd with
  | none => exact ⟨.refl hg, rfl, fun m hm => .inl hm⟩
  | some n =>
    have hf := closeFile_frame path hg n
    refine ⟨hf.mono fun m hm => .inr (hm ▸ rfl), content_closeFile d n path, fun m hm => ?_⟩
    by_cases hmn : m = n
    · exact .inr (hmn ▸ rfl)
    · exact .inl (hf.fds m hmn ▸ hm)

private theorem migrateToDiskFile_spec (hg : d.Good) (hs : Stored threshold d v bytes) (hb : v.header.has_blob = 0)
    (hio : env.migrate = .full) (fd : Option Nat) (flags : OpenFlags) (hw : flags.writable = true)
    (ha : flags.append = false) :
    ∃ d' v' n, migrateToDiskFile env d v fd flags = (d', v', n, 0) ∧ Frame (dataPath v) (Own d fd) d d' ∧
      d'.content (dataPath v) = some bytes ∧ d'.Opens n flags (dataPath v) ∧ Own d fd n ∧
      v'.header = v.header ∧ v'.Sized ∧ v'.inline = [] := by
  obtain ⟨_, hin, hc⟩ := hs.inlined hb
  obtain ⟨hf1, hc1, hfree1⟩ := closeDescriptor_spec hg (dataPath v) fd env.errno
  unfold migrateToDiskFile
  dsimp only [openDiskFile]
  rw [show getDiskFilePath v.header.fstat.st_ino = dataPath v from rfl]
  generalize closeDescriptor d fd env.errno = r1 at *
  obtain ⟨hf2, hc2, ho2, hfree2⟩ := openFile_new hf1.good (hc1.trans hc) flags
  have hown := hfree1 _ hfree2
  have hf12 := hf1.trans (hf2.mono fun m hm => hm ▸ hown)
  by_cases hpos : 0 < v.fstat.st_size
  · have hmem : memoryFrom env.heap v.fstat.st_size v.inline = bytes := by
      rw [hin]
      exact memoryFrom_of_length _ hs.size.symm
    have hne : bytes ≠ [] := by
      rintro rfl
      simp [hs.size] at hpos
    obtain ⟨hr, hf3, hn3, hfds3, hc3⟩ := pwrite_full (Own d fd) hf12.good ho2 hw ha hc2 hne 0
    refine ⟨_, dropInlineData v, _, ?_, hf12.trans hf3, by simpa using hc3, ho2.congr hn3 hfds3, hown, rfl,
      (keeps_dropInlineData v).1.sized hs.sized, (keeps_dropInlineData v).2 hs.sized⟩
    rw [if_pos hpos, hmem, hio, hr]
    simp [hs.size]
  · have hnil : bytes = [] := by
      have := hs.size
      exact List.length_eq_zero_iff.mp (by omega)
    refine ⟨_, v, _, ?_, hf12, hnil ▸ hc2, ho2, hown, rfl, hs.sized, hin.trans hnil⟩
    rw [if_neg hpos]

private theorem growSize_spec (v : Value) {ret : Int} (hret : 0 ≤ ret) (old_size size : Nat)
    (hold : v.fstat.st_size = old_size) :
    (growSize old_size ret size v).fstat.st_size = max old_size size ∧
      (growSize old_size ret size v).fstat.st_ino = v.fstat.st_ino ∧
      (growSize old_size ret size v).header.has_blob = v.header.has_blob ∧
      (growSize old_size ret size v).inline = v.inline ∧ (v.Sized → (growSize old_size ret size v).Sized) := by
  unfold growSize
  split
  · exact ⟨by simp [setSize, updateInodeHeader]; omega, rfl, rfl, rfl, id⟩
  · exact ⟨by omega, rfl, rfl, rfl, id⟩

/-- Write, in its three branches: the disk file, the move to disk, and inline. -/
theorem writeValue_spec (hg : d.Good) (hs : Stored threshold d v bytes) (hfd : Usable d v fd)
    (hmig : env.migrate = .full) (hio : env.data = .full) {buf : List UInt8} (hne : buf ≠ [])
    (hlen : buf.length < 2147483648) (offset : Nat) {limit : Nat}
    (hfit : threshold = limit ∨ WriteFits limit v (offset + buf.length)) :
    ∃ d' v' fd' t, writeValue env limit d v fd O_RDWR O_RDWR buf offset = (d', v', fd', (buf.length : Int)) ∧
      (threshold = limit → t = limit) ∧ Effect t d v fd d' v' (overlay 0 offset buf bytes) ∧
      Holds d fd d' v' fd' ∧ (v'.header.has_blob = 0 → v.header.has_blob = 0) ∧
      (v.header.has_blob = 0 → v'.header.has_blob ≠ 0 → limit < offset + buf.length) := by
  have hsz := hs.size
  have hol := length_overlay (0 : UInt8) offset buf bytes
  have hpos : (0 : Int) ≤ buf.length := by omega
  by_cases hb : v.header.has_blob = 0
  · obtain ⟨hle, hin, hc⟩ := hs.inlined hb
    by_cases hbig : limit < offset + buf.length
    · have hold : v.fstat.st_size ≤ offset + buf.length := by
        rcases hfit with rfl | hfit
        · omega
        · exact hfit hb hbig
      obtain ⟨d1, v1, n, he, hf1, hc1, ho1, hown, hh1, hs1, hi1⟩ :=
        migrateToDiskFile_spec hg hs hb hmig fd O_RDWR rfl rfl
      obtain ⟨hr, hf2, hn2, hfds2, hc2⟩ := pwrite_full (Own d fd) hf1.good ho1 rfl rfl hc1 hne offset
      have hp : dataPath (setSizeAndBlob v1 (offset + buf.length) 1) = dataPath v := by
        simp [dataPath, setSizeAndBlob, updateInodeHeader, Value.fstat, hh1]
      refine ⟨_, setSizeAndBlob v1 (offset + buf.length) 1, some n, limit, ?_, fun _ => rfl,
        ⟨hf1.trans hf2, ⟨hs1, ?_, .inr ?_⟩, ?_, fun h0 => absurd hb h0⟩,
        .of_opens ?_ hown (by simp [setSizeAndBlob, updateInodeHeader]), fun _ => hb, fun _ _ => hbig⟩
      · simp [writeValue, hb, hbig, he, hio, hr, cInt_of_lt hlen]
      · simp only [setSizeAndBlob, updateInodeHeader, hol]
        omega
      · exact ⟨rfl, by omega, hi1, by rw [hp]; exact hc2⟩
      · simp [setSizeAndBlob, updateInodeHeader, Value.fstat, hh1]
      · rw [hp]
        exact ho1.congr hn2 hfds2
    · obtain ⟨hkeep, hinl⟩ := keeps_updateInlineData v buf offset
      obtain ⟨hg1, hg2, hg3, hg4, hg5⟩ := growSize_spec (updateInlineData v buf offset) hpos v.fstat.st_size
        (offset + buf.length) rfl
      refine ⟨d, _, fd, max threshold limit, ?_, ?_, ⟨.refl hg, ⟨hg5 (hkeep.sized hs.sized), ?_,
        .inl ⟨hg3.trans hb, ?_, ?_, ?_⟩⟩, hg2, fun h0 => absurd hb h0⟩, ⟨?_, fun n hn => .inr hn, fun _ => rfl⟩,
        fun _ => hb, fun _ h0 => absurd (hg3.trans hb) h0⟩
      · simp [writeValue, hb, hbig, cInt_of_lt hlen]
      · rintro rfl
        exact max_self threshold
      · rw [hg1, hol, hsz]
      · omega
      · rw [hg4, hinl hs.sized, hin]
      · rw [dataPath, hg2]
        exact hc
      · exact fun n hn => ⟨(hfd n hn).1, fun h0 => absurd (hg3.trans hb) h0⟩
  · obtain ⟨hlt, hin, hc⟩ := hs.onDisk hb
    have hb1 : v.header.has_blob = 1 := by
      rcases hs.place with ⟨h0, _⟩ | ⟨h1, _⟩
      · exact absurd h0 hb
      · exact h1
    obtain ⟨d1, n, he, hf1, hn1, hc1, ho1, hown⟩ := lazyOpen_spec hg hfd hb (by simp [hc])
    obtain ⟨hr, hf2, hn2, hfds2, hc2⟩ :=
      pwrite_full (Own d fd) hf1.good ho1 rfl rfl (hc1.trans hc) hne offset
    obtain ⟨hg1, hg2, hg3, hg4, hg5⟩ := growSize_spec v hpos v.fstat.st_size (offset + buf.length) rfl
    have hp : dataPath (growSize v.fstat.st_size buf.length (offset + buf.length) v) = dataPath v := by
      rw [dataPath, hg2, dataPath]
    refine ⟨_, _, some n, threshold, ?_, id, ⟨hf1.trans hf2, ⟨hg5 hs.sized, ?_,
      .inr ⟨hg3.trans hb1, ?_, hg4.trans hin, ?_⟩⟩, hg2, fun _ _ => hn2.trans hn1⟩,
      .of_opens ?_ hown (by rw [hg3]; exact hb), fun h0 => absurd (hg3.symm.trans h0) hb, fun h0 => absurd h0 hb⟩
    · simp only [writeValue, Nat.pos_of_ne_zero hb, if_true, he, hio, hr, cResult_natCast, cInt_of_lt hlen]
    · rw [hg1, hol, hsz]
    · omega
    · rw [hp]
      exact hc2
    · rw [hp]
      exact ho1.congr hn2 hfds2

private theorem migrateDiskFileToBuffer_spec (hg : d.Good) {inode_id : UInt64}
    (hc : d.content (getDiskFilePath inode_id) = some bytes) (hio : env.readBack = .full) {n : Nat}
    (hn : n ≤ bytes.length) (fd : Option Nat) :
    ∃ d', migrateDiskFileToBuffer env d inode_id n = (d', bytes.take n) ∧
      Frame (getDiskFilePath inode_id) (Own d fd) d d' ∧ d'.content (getDiskFilePath inode_id) = none := by
  obtain ⟨d1, he, hf1, hc1, ho1⟩ := openRead_named hg (by simp [hc] : d.content (getDiskFilePath inode_id) ≠ none)
  have hown (m : Nat) (hm : m = free d.fds) : Own d fd m := .inl (hm ▸ slot_free d.fds)
  have hf2 := (hf1.mono hown).trans ((closeFile_frame _ hf1.good (free d.fds)).mono hown)
  obtain ⟨hf3, hc3⟩ := unlinkFile_frame (Own d fd) hf2.good (getDiskFilePath inode_id)
  refine ⟨_, ?_, hf2.trans hf3, hc3⟩
  have hbuf : memoryFrom env.heap n (bytes.take n) = bytes.take n := memoryFrom_of_length _ (by simp [hn])
  simp [migrateDiskFileToBuffer, he, hio, pread_full ho1 rfl (hc1.trans hc), slice, hbuf]

/-- The four branches of Truncate put the cut or padded data where its size belongs. The
header is as before. -/
private theorem truncateData_spec (hg : d.Good) (hs : Stored threshold d v bytes) (hmig : env.migrate = .full)
    (hresize : env.resize = .full) (hback : env.readBack = .full) (n : Nat) {limit : Nat}
    (hcut : v.header.has_blob ≠ 0 → n ≤ limit → n ≤ bytes.length) :
    ∃ d' v', truncateData env limit d v n = (d', v', 0) ∧ Frame (dataPath v) (Own d env.fd) d d' ∧
      v'.header = v.header ∧ v'.Sized ∧
      (n ≤ limit ∧ v'.inline = resize 0 n bytes ∧ d'.content (dataPath v) = none ∨
        limit < n ∧ v'.inline = [] ∧ d'.content (dataPath v) = some (resize 0 n bytes) ∧
          (v.header.has_blob ≠ 0 → d'.names = d.names)) := by
  have hsz := hs.size
  by_cases hb : v.header.has_blob = 0 <;> by_cases hbig : limit < n
  · obtain ⟨d1, v1, m, he, hf1, hc1, ho1, hown, hh1, hs1, hi1⟩ := migrateToDiskFile_spec hg hs hb hmig env.fd
      { trunc := true, wronly := true } rfl rfl
    obtain ⟨hr, hf2, hc2⟩ := ftruncate_full (Own d env.fd) hf1.good ho1 rfl hc1 n
    have hf3 := (closeFile_frame (dataPath v) hf2.good m).mono fun k hk => hk ▸ hown
    refine ⟨_, v1, ?_, (hf1.trans hf2).trans hf3, hh1, hs1, .inr ⟨hbig, hi1, ?_, fun h0 => absurd hb h0⟩⟩
    · simp [truncateData, hb, hbig, he, hresize, hr, cResult]
    · rw [content_closeFile]
      exact hc2
  · obtain ⟨_, hin, hc⟩ := hs.inlined hb
    obtain ⟨hkeep, hinl⟩ := keeps_truncateInlineData v n
    refine ⟨d, truncateInlineData v n, ?_, .refl hg, rfl, hkeep.sized hs.sized, .inl ⟨by omega, ?_, hc⟩⟩
    · simp [truncateData, hb, hbig]
    · rw [hinl hs.sized, hin]
  · obtain ⟨_, hin, hc⟩ := hs.onDisk hb
    obtain ⟨hf, hn, hc'⟩ := truncateFile_full (Own d env.fd) hg hc n
    refine ⟨_, v, ?_, hf, rfl, hs.sized, .inr ⟨hbig, hin, hc', fun _ => hn⟩⟩
    simp [truncateData, Nat.pos_of_ne_zero hb, hbig, hresize, dataPath]
  · obtain ⟨hlt, hin, hc⟩ := hs.onDisk hb
    have hle : n ≤ bytes.length := hcut hb (by omega)
    obtain ⟨d1, he, hf, hc'⟩ := migrateDiskFileToBuffer_spec hg hc hback hle env.fd
    obtain ⟨hkeep, hinl⟩ := keeps_updateInlineData v (bytes.take n) 0
    refine ⟨d1, updateInlineData v (bytes.take n) 0, ?_, hf, rfl, hkeep.sized hs.sized, .inl ⟨by omega, ?_, hc'⟩⟩
    · simp [truncateData, Nat.pos_of_ne_zero hb, hbig, he]
    · rw [hinl hs.sized, hin, overlay_nil, resize_of_le 0 hle]

theorem truncateValue_spec (hg : d.Good) (hs : Stored threshold d v bytes) (hmig : env.migrate = .full)
    (hresize : env.resize = .full) (hback : env.readBack = .full) (n : Nat) {limit : Nat}
    (hfit : threshold = limit ∨ TruncateFits limit v n) :
    ∃ d' v' t, truncateValue env limit d v n = (d', v', 0) ∧ (threshold = limit → t = limit) ∧
      Effect t d v env.fd d' v' (resize 0 n bytes) ∧ (v.header.has_blob = 0 → v'.header.has_blob ≠ 0 → limit < n) := by
  have hrl := length_resize (0 : UInt8) n bytes
  have hsz := hs.size
  -- a file on disk stays there or is cut
  have hdisk (hb : v.header.has_blob ≠ 0) (hle : n ≤ limit) : n < bytes.length := by
    rcases hfit with rfl | hfit
    · have := (hs.onDisk hb).1
      omega
    · exact hsz ▸ hfit.2 hb hle
  obtain ⟨d', v', he, hf, hh, hsized, hplace⟩ :=
    truncateData_spec hg hs hmig hresize hback n fun hb hle => Nat.le_of_lt (hdisk hb hle)
  have hpath : dataPath v' = dataPath v := by simp [dataPath, Value.fstat, hh]
  have hino : v'.fstat.st_ino = v.fstat.st_ino := by simp [Value.fstat, hh]
  by_cases hn : n = v.fstat.st_size
  · -- the size stays, so the data stays where it was
    have hsame : v.header.has_blob = 0 → n ≤ limit := by
      intro hb
      rcases hfit with rfl | hfit
      · have := (hs.inlined hb).1
        omega
      · by_contra hlt
        exact hfit.1 hb (by omega) hn
    refine ⟨d', v', threshold, by simp [truncateValue, he, ← hn], id, ⟨hf, ⟨hsized, ?_, ?_⟩, hino, ?_⟩, ?_⟩
    · rw [hrl, Value.fstat, hh, hn]
    · rw [hpath, hh, hrl]
      rcases hs.place with ⟨h0, hle, _⟩ | ⟨h1, hlt, _⟩ <;> rcases hplace with ⟨hle', hp⟩ | ⟨hlt', hi, hc, _⟩
      · exact .inl ⟨h0, by omega, hp⟩
      · exact absurd (hsame h0) (by omega)
      · exact absurd (hdisk (by omega) hle') (by omega)
      · exact .inr ⟨h1, by omega, hi, hc⟩
    · intro h0 _
      rcases hplace with ⟨hle', _⟩ | ⟨_, _, _, hnames⟩
      · exact absurd (hdisk h0 hle') (by omega)
      · exact hnames h0
    · intro h0 h1
      exact absurd (hh ▸ h0) h1
  · refine ⟨d', setSizeAndBlob v' n (if limit < n then 1 else 0), limit, by simp [truncateValue, he, hn], fun _ => rfl,
      ⟨hf, ⟨hsized, hrl.symm, ?_⟩, hino, ?_⟩, ?_⟩
    · rw [show dataPath (setSizeAndBlob v' n (if limit < n then 1 else 0)) = dataPath v from hpath, hrl]
      rcases hplace with ⟨hle, hp⟩ | ⟨hlt, hi, hc, _⟩
      · exact .inl ⟨if_neg (by omega), hle, hp⟩
      · exact .inr ⟨if_pos hlt, hlt, hi, hc⟩
    · intro h0 h1
      rcases hplace with ⟨hle, _⟩ | ⟨_, _, _, hnames⟩
      · exact absurd (if_neg (by omega)) h1
      · exact hnames h0
    · intro _ h1
      by_contra hle
      exact h1 (if_neg hle)

end
end TableFS
