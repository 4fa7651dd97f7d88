import TableFS.Disk

/-! What each system call changes: at most the file at one path and one descriptor. -/
namespace TableFS.Disk
open ByteSeq Slots

/-- Different names lead to different files, and names and descriptors to existing ones. -/
structure Good (d : Disk) : Prop where
  names_lt : ∀ path f, d.names.lookup path = some f → f < d.files.length
  names_inj : ∀ path q f, d.names.lookup path = some f → d.names.lookup q = some f → path = q
  fds_lt : ∀ n x, slot d.fds n = some x → x.file < d.files.length

/-- Descriptor n was opened with the given flags, on the file the path names. -/
def Opens (d : Disk) (n : Nat) (flags : OpenFlags) (path : DiskPath) : Prop :=
  ∃ f, slot d.fds n = some ⟨f, flags⟩ ∧ d.names.lookup path = some f

/-- At most the file at `path` and the descriptors in `own` differ. -/
structure Frame (path : DiskPath) (own : Nat → Prop) (d d' : Disk) : Prop where
  good : d'.Good
  names : ∀ q, q ≠ path → d'.names.lookup q = d.names.lookup q
  contents : ∀ q f, q ≠ path → d.names.lookup q = some f → d'.contents f = d.contents f
  fds : ∀ n, ¬ own n → slot d'.fds n = slot d.fds n

variable {d d' d'' : Disk} {path q : DiskPath} {own own' : Nat → Prop} {n : Nat} {flags : OpenFlags}

theorem content_eq_none : d.content path = none ↔ d.names.lookup path = none := by simp [content]

theorem mem_names_iff : path ∈ d.names ↔ d.content path ≠ none := by
  rw [content, Finmap.mem_iff, Option.ne_none_iff_exists', ← Option.isSome_iff_exists, ← Option.isSome_iff_exists,
    Option.isSome_map]

theorem content_of_name {f : Nat} (h : d.names.lookup path = some f) : d.content path = some (d.contents f) := by
  simp [content, h]

theorem Opens.congr (h : d.Opens n flags path) (hn : d'.names = d.names) (hf : d'.fds = d.fds) :
    d'.Opens n flags path := by
  obtain ⟨f, hs, hp⟩ := h
  exact ⟨f, by rw [hf, hs], by rw [hn, hp]⟩

theorem good_empty : empty.Good := ⟨by simp [empty], by simp [empty], by simp [empty, slot]⟩

namespace Frame

theorem refl (hg : d.Good) : Frame path own d d := ⟨hg, fun _ _ => rfl, fun _ _ _ _ => rfl, fun _ _ => rfl⟩

theorem mono (h : Frame path own d d') (ho : ∀ n, own n → own' n) : Frame path own' d d' :=
  { h with fds := fun n hn => h.fds n (mt (ho n) hn) }

theorem trans (h : Frame path own d d') (h' : Frame path own d' d'') : Frame path own d d'' where
  good := h'.good
  names q hq := (h'.names q hq).trans (h.names q hq)
  contents q f hq hf := (h'.contents q f hq ((h.names q hq).trans hf)).trans (h.contents q f hq hf)
  fds n hn := (h'.fds n hn).trans (h.fds n hn)

theorem content (h : Frame path own d d') (hq : q ≠ path) : d'.content q = d.content q := by
  rw [Disk.content, Disk.content, h.names q hq]
  cases hf : d.names.lookup q with
  | none => rfl
  | some f => exact congrArg some (h.contents q f hq hf)

theorem opens (h : Frame path own d d') (hn : ¬ own n) (hq : d'.names.lookup q = d.names.lookup q)
    (ho : d.Opens n flags q) : d'.Opens n flags q := by
  obtain ⟨f, hs, hf⟩ := ho
  exact ⟨f, (h.fds n hn).trans hs, hq.trans hf⟩

end Frame

private theorem frame_set (own : Nat → Prop) (hg : d.Good) {f : Nat} (hf : d.names.lookup path = some f)
    (b : List UInt8) :
    Frame path own d { d with files := d.files.set f b } ∧
      ({ d with files := d.files.set f b } : Disk).content path = some b := by
  refine ⟨⟨⟨?_, hg.names_inj, ?_⟩, fun _ _ => rfl, ?_, fun _ _ => rfl⟩, ?_⟩
  · simpa using hg.names_lt
  · simpa using hg.fds_lt
  · intro q g hq hq'
    have hne : f ≠ g := by
      rintro rfl
      exact hq (hg.names_inj q path f hq' hf)
    simp [contents, List.getElem?_set_ne hne]
  · simp [content, contents, hf, hg.names_lt path f hf]

private theorem frame_fds (hg : d.Good) {fds : List (Option Descriptor)}
    (hx : ∀ m x, slot fds m = some x → x.file < d.files.length)
    (hfds : ∀ m, ¬ own m → slot fds m = slot d.fds m) : Frame path own d { d with fds := fds } :=
  ⟨⟨hg.names_lt, hg.names_inj, hx⟩, fun _ _ => rfl, fun _ _ _ _ => rfl, hfds⟩

theorem closeFile_frame (path : DiskPath) (hg : d.Good) (n : Nat) : Frame path (· = n) d (d.closeFile n).1 := by
  unfold closeFile
  split
  · refine frame_fds hg (fun m x hm => ?_) fun m hm => ?_
    · rw [slot_clear] at hm
      split at hm
      · cases hm
      · exact hg.fds_lt m x hm
    · rw [slot_clear, if_neg hm]
  · exact .refl hg

@[simp] theorem names_closeFile (d : Disk) (n : Nat) : (d.closeFile n).1.names = d.names := by
  unfold closeFile
  split <;> rfl

@[simp] theorem names_openRead (d : Disk) (path : DiskPath) : (d.openRead path).1.names = d.names := by
  unfold openRead
  split <;> rfl

@[simp] theorem names_pwrite (d : Disk) (n : Nat) (buf : List UInt8) (offset : Nat) (io : IoResult) :
    (d.pwrite n buf offset io).1.names = d.names := by
  unfold pwrite
  split
  · split
    · dsimp only
      split <;> rfl
    · rfl
  · rfl

@[simp] theorem names_ftruncate (d : Disk) (n size : Nat) (io : IoResult) :
    (d.ftruncate n size io).1.names = d.names := by
  unfold ftruncate
  split
  · split
    · dsimp only
      split <;> rfl
    · rfl
  · rfl

@[simp] theorem names_truncateFile (d : Disk) (path : DiskPath) (size : Nat) (io : IoResult) :
    (d.truncateFile path size io).1.names = d.names := by
  unfold truncateFile
  split
  · dsimp only
    split <;> rfl
  · rfl

/-- Opening creates the file that is opened, and no other. -/
@[simp] theorem mem_names_openFile (d : Disk) (path q : DiskPath) (flags : OpenFlags) :
    q ∈ (d.openFile path flags).1.names ↔ q = path ∨ q ∈ d.names := by
  unfold openFile
  cases hn : d.names.lookup path with
  | none => exact Finmap.mem_insert
  | some f =>
    refine ⟨.inr, ?_⟩
    rintro (rfl | hq)
    · exact Finmap.mem_iff.mpr ⟨f, hn⟩
    · exact hq

@[simp] theorem mem_names_unlinkFile (d : Disk) (path q : DiskPath) :
    q ∈ (d.unlinkFile path).names ↔ q ≠ path ∧ q ∈ d.names := Finmap.mem_erase

@[simp] theorem content_closeFile (d : Disk) (n : Nat) (path : DiskPath) :
    (d.closeFile n).1.content path = d.content path := by
  unfold closeFile
  split <;> rfl

theorem closeFile_ret (h : slot d.fds n ≠ none) : (d.closeFile n).2 = 0 := by
  obtain ⟨x, hx⟩ := Option.ne_none_iff_exists'.mp h
  simp [closeFile, hx]

private theorem put_lt (hg : d.Good) {x : Descriptor} {k : Nat} (hk : d.files.length ≤ k) (hx : x.file < k)
    (m : Nat) (y : Descriptor) (hm : slot (put d.fds x) m = some y) : y.file < k := by
  rw [slot_put] at hm
  split at hm
  · obtain rfl := Option.some.inj hm
    exact hx
  · exact Nat.lt_of_lt_of_le (hg.fds_lt m y hm) hk

theorem openFile_snd (d : Disk) (path : DiskPath) (flags : OpenFlags) : (d.openFile path flags).2 = free d.fds := by
  unfold openFile
  split <;> rfl

/-- The new descriptor is on the file at the path. -/
theorem slot_openFile (d : Disk) (path : DiskPath) (flags : OpenFlags) :
    ∃ f, (d.openFile path flags).1.names.lookup path = some f ∧
      ∀ n, slot (d.openFile path flags).1.fds n = if n = free d.fds then some ⟨f, flags⟩ else slot d.fds n := by
  unfold openFile
  cases hn : d.names.lookup path with
  | none => exact ⟨_, Finmap.lookup_insert _, slot_put _ _⟩
  | some f => exact ⟨f, hn, slot_put _ _⟩

/-- Opening a file that exists, without O_TRUNC. -/
theorem openFile_named (flags : OpenFlags) (hg : d.Good) (hc : d.content path ≠ none) (ht : flags.trunc = false) :
    Frame path (· = (d.openFile path flags).2) d (d.openFile path flags).1 ∧
      (d.openFile path flags).1.names = d.names ∧
      (d.openFile path flags).1.content path = d.content path ∧
      (d.openFile path flags).1.Opens (d.openFile path flags).2 flags path ∧
      slot d.fds (d.openFile path flags).2 = none := by
  obtain ⟨f, hf⟩ := Option.ne_none_iff_exists'.mp (mt content_eq_none.mpr hc)
  have he : d.openFile path flags = ({ d with fds := put d.fds ⟨f, flags⟩ }, free d.fds) := by
    simp [openFile, hf, ht]
  rw [he]
  refine ⟨frame_fds hg (put_lt hg (Nat.le_refl _) (hg.names_lt path f hf)) fun m hm => ?_, rfl, rfl,
    ⟨f, by rw [slot_put, if_pos rfl], hf⟩, slot_free _⟩
  rw [slot_put, if_neg hm]

/-- Opening a file that does not exist creates an empty one. -/
theorem openFile_new (hg : d.Good) (hc : d.content path = none) (flags : OpenFlags) :
    Frame path (· = (d.openFile path flags).2) d (d.openFile path flags).1 ∧
      (d.openFile path flags).1.content path = some [] ∧
      (d.openFile path flags).1.Opens (d.openFile path flags).2 flags path ∧
      slot d.fds (d.openFile path flags).2 = none := by
  have hn := content_eq_none.mp hc
  have hlen : (d.files ++ [[]]).length = d.files.length + 1 := by simp
  simp only [openFile, hn]
  refine ⟨⟨⟨fun q f hf => ?_, fun q r f hq hr => ?_, ?_⟩, fun q hq => Finmap.lookup_insert_of_ne _ hq,
    fun q f _ hf => ?_, fun m hm => by rw [slot_put, if_neg hm]⟩, ?_,
    ⟨_, by rw [slot_put, if_pos rfl], Finmap.lookup_insert _⟩, slot_free _⟩
  · rw [hlen]
    by_cases hq : q = path
    · subst hq
      rw [Finmap.lookup_insert] at hf
      exact Nat.lt_succ_of_le (Nat.le_of_eq (Option.some.inj hf).symm)
    · rw [Finmap.lookup_insert_of_ne _ hq] at hf
      exact Nat.lt_succ_of_lt (hg.names_lt q f hf)
  · -- the new file's number is past those of all others
    by_cases hqp : q = path <;> by_cases hrp : r = path
    · rw [hqp, hrp]
    · rw [hqp, Finmap.lookup_insert] at hq
      rw [Finmap.lookup_insert_of_ne _ hrp] at hr
      exact absurd (hg.names_lt r f hr) (by simp [← Option.some.inj hq])
    · rw [Finmap.lookup_insert_of_ne _ hqp] at hq
      rw [hrp, Finmap.lookup_insert] at hr
      exact absurd (hg.names_lt q f hq) (by simp [← Option.some.inj hr])
    · rw [Finmap.lookup_insert_of_ne _ hqp] at hq
      rw [Finmap.lookup_insert_of_ne _ hrp] at hr
      exact hg.names_inj q r f hq hr
  · simpa using put_lt (x := ⟨d.files.length, flags⟩) hg (Nat.le_succ _) (Nat.lt_succ_self _)
  · simp [contents, List.getElem?_append_left (hg.names_lt q f hf)]
  · simp [content, contents]

theorem pread_full (ho : d.Opens n flags path) (hr : flags.wronly = false) {b : List UInt8}
    (hc : d.content path = some b) (size offset : Nat) :
    d.pread n size offset .full = (((slice offset size b).length : Int), slice offset size b) := by
  obtain ⟨f, hs, hf⟩ := ho
  rw [content_of_name hf] at hc
  simp [pread, hs, hr, transfer, Option.some.inj hc]

theorem pwrite_full (own : Nat → Prop) (hg : d.Good) (ho : d.Opens n flags path) (hw : flags.writable = true)
    (ha : flags.append = false) {b : List UInt8} (hc : d.content path = some b) {buf : List UInt8}
    (hb : buf ≠ []) (offset : Nat) :
    (d.pwrite n buf offset .full).2 = buf.length ∧
      Frame path own d (d.pwrite n buf offset .full).1 ∧
      (d.pwrite n buf offset .full).1.names = d.names ∧ (d.pwrite n buf offset .full).1.fds = d.fds ∧
      (d.pwrite n buf offset .full).1.content path = some (overlay 0 offset buf b) := by
  obtain ⟨f, hs, hf⟩ := ho
  rw [content_of_name hf] at hc
  have he : d.pwrite n buf offset .full =
      ({ d with files := d.files.set f (overlay 0 offset buf b) }, (buf.length : Int)) := by
    simp [pwrite, hs, hw, ha, transfer, hb, Option.some.inj hc]
  rw [he]
  exact ⟨rfl, (frame_set own hg hf _).1, rfl, rfl, (frame_set own hg hf _).2⟩

theorem ftruncate_full (own : Nat → Prop) (hg : d.Good) (ho : d.Opens n flags path)
    (hw : flags.writable = true) {b : List UInt8} (hc : d.content path = some b) (size : Nat) :
    (d.ftruncate n size .full).2 = 0 ∧ Frame path own d (d.ftruncate n size .full).1 ∧
      (d.ftruncate n size .full).1.content path = some (resize 0 size b) := by
  obtain ⟨f, hs, hf⟩ := ho
  rw [content_of_name hf] at hc
  have he : d.ftruncate n size .full = ({ d with files := d.files.set f (resize 0 size b) }, 0) := by
    simp [ftruncate, hs, hw, status, Option.some.inj hc]
  rw [he]
  exact ⟨rfl, frame_set own hg hf _⟩

theorem truncateFile_full (own : Nat → Prop) (hg : d.Good) {b : List UInt8} (hc : d.content path = some b)
    (size : Nat) :
    Frame path own d (d.truncateFile path size .full).1 ∧
      (d.truncateFile path size .full).1.names = d.names ∧
      (d.truncateFile path size .full).1.content path = some (resize 0 size b) := by
  obtain ⟨f, hf, hb⟩ := Option.map_eq_some_iff.mp hc
  have he : (d.truncateFile path size .full).1 = { d with files := d.files.set f (resize 0 size b) } := by
    simp [truncateFile, hf, status, hb]
  rw [he]
  exact ⟨(frame_set own hg hf _).1, rfl, (frame_set own hg hf _).2⟩

theorem unlinkFile_frame (own : Nat → Prop) (hg : d.Good) (path : DiskPath) :
    Frame path own d (d.unlinkFile path) ∧ (d.unlinkFile path).content path = none := by
  refine ⟨⟨⟨fun q f hf => ?_, fun q r f hq hr => ?_, hg.fds_lt⟩, fun q hq => Finmap.lookup_erase_ne hq,
    fun _ _ _ _ => rfl, fun _ _ => rfl⟩, by simp [content, unlinkFile]⟩
  · by_cases hq : q = path
    · rw [hq, unlinkFile, Finmap.lookup_erase] at hf
      cases hf
    · rw [unlinkFile, Finmap.lookup_erase_ne hq] at hf
      exact hg.names_lt q f hf
  · by_cases hqp : q = path
    · rw [hqp, unlinkFile, Finmap.lookup_erase] at hq
      cases hq
    · by_cases hrp : r = path
      · rw [hrp, unlinkFile, Finmap.lookup_erase] at hr
        cases hr
      · rw [unlinkFile, Finmap.lookup_erase_ne hqp] at hq
        rw [unlinkFile, Finmap.lookup_erase_ne hrp] at hr
        exact hg.names_inj q r f hq hr

/-! Every system call leaves a good disk, whatever it returns. -/

theorem Good.set (hg : d.Good) (f : Nat) (b : List UInt8) : ({ d with files := d.files.set f b } : Disk).Good :=
  ⟨by simpa using hg.names_lt, hg.names_inj, by simpa using hg.fds_lt⟩

theorem Good.openFile (hg : d.Good) (path : DiskPath) (flags : OpenFlags) : (d.openFile path flags).1.Good := by
  cases hn : d.names.lookup path with
  | none => exact (openFile_new hg (content_eq_none.mpr hn) flags).1.good
  | some f =>
    have hput : ({ d with fds := put d.fds ⟨f, flags⟩ } : Disk).Good :=
      ⟨hg.names_lt, hg.names_inj, put_lt hg (Nat.le_refl _) (hg.names_lt path f hn)⟩
    simp only [Disk.openFile, hn]
    split
    · exact hput.set f []
    · exact hput

theorem Good.openRead (hg : d.Good) (path : DiskPath) : (d.openRead path).1.Good := by
  unfold Disk.openRead
  split
  · exact ⟨hg.names_lt, hg.names_inj, put_lt hg (Nat.le_refl _) (hg.names_lt path _ ‹_›)⟩
  · exact hg

theorem Good.pwrite (hg : d.Good) (n : Nat) (buf : List UInt8) (offset : Nat) (io : IoResult) :
    (d.pwrite n buf offset io).1.Good := by
  unfold Disk.pwrite
  split
  · dsimp only
    split
    · dsimp only
      split
      · exact hg
      · exact hg.set _ _
    · exact hg
  · exact hg

theorem Good.ftruncate (hg : d.Good) (n size : Nat) (io : IoResult) : (d.ftruncate n size io).1.Good := by
  unfold Disk.ftruncate
  split
  · split
    · dsimp only
      split
      · exact hg.set _ _
      · exact hg
    · exact hg
  · exact hg

theorem Good.truncateFile (hg : d.Good) (path : DiskPath) (size : Nat) (io : IoResult) :
    (d.truncateFile path size io).1.Good := by
  unfold Disk.truncateFile
  split
  · dsimp only
    split
    · exact hg.set _ _
    · exact hg
  · exact hg

/-- Opening for reading, reading the first bytes and closing again. -/
theorem openRead_named (hg : d.Good) (hc : d.content path ≠ none) :
    ∃ d', d.openRead path = (d', some (free d.fds)) ∧ Frame path (· = free d.fds) d d' ∧
      d'.content path = d.content path ∧ d'.Opens (free d.fds) {} path := by
  obtain ⟨f, hf⟩ := Option.ne_none_iff_exists'.mp (mt content_eq_none.mpr hc)
  refine ⟨{ d with fds := put d.fds ⟨f, {}⟩ }, by simp [openRead, hf],
    frame_fds hg (put_lt hg (Nat.le_refl _) (hg.names_lt path f hf)) fun m hm => ?_, rfl,
    ⟨f, by rw [slot_put, if_pos rfl], hf⟩⟩
  rw [slot_put, if_neg hm]

end TableFS.Disk
