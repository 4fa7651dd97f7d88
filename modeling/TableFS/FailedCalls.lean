import TableFS.Reads
import TableFS.Sizes

/-! Write and Truncate when a call on the disk fails: what they report, and what is left of the
file. -/
namespace TableFS
open ByteSeq Slots Disk InodeCache

/-- Reads of one file return the same: through the open handles on its inode handles whose
descriptors, where they have one, are open, and through a handle newly opened for reading. -/
structure SameReads (s s' : State) (own : Nat → Prop) (v v' : Value) : Prop where
  opened : ∀ fh f, slot s.files fh = some f → own f.handle_ → (∀ n, f.fd_ = some n → slot s.disk.fds n ≠ none) →
    ∀ env size offset, (s'.read env fh size offset).2 = (s.read env fh size offset).2
  reopened : ∀ env size offset,
    (readValue env s'.disk v' none {} size offset).2.2 = (readValue env s.disk v none {} size offset).2.2

theorem read_snd {s : State} {fh : Nat} {f : FileHandle} {key : MetaKey} {h : InodeCacheHandle}
    (hf : s.fileOf fh = some (f, key, h)) (env : Env) (size offset : Nat) :
    (s.read env fh size offset).2 =
      let r := (readValue env s.disk h.value_ f.fd_ f.flags_ size offset).2.2
      { ret := r.1, data := r.2 } := by
  simp only [State.read, hf]

section Write
variable {env : Env} {d : Disk} {v : Value} {fd fd' : Option Nat} {flags : OpenFlags}

/-- The result of the write that copies the inline data to a disk file. -/
def copyResult (env : Env) (d : Disk) (v : Value) (fd : Option Nat) (flags : OpenFlags) : Int :=
  let r := openDiskFile (closeDescriptor d fd env.errno).1 v.header flags
  (r.1.pwrite r.2 (memoryFrom env.heap v.fstat.st_size v.inline) 0 env.migrate).2

/-- Inline data is copied, and fewer bytes are written than there are. -/
def CopyShort (env : Env) (d : Disk) (v : Value) (fd : Option Nat) (flags : OpenFlags) : Prop :=
  0 < v.fstat.st_size ∧ cResult (copyResult env d v fd flags) ≠ v.fstat.st_size

/-- A copy fails with an error. A short write sets none, so errno is what it was before. -/
def CopyFails (env : Env) (d : Disk) (v : Value) (fd : Option Nat) (flags : OpenFlags) : Prop :=
  CopyShort env d v fd flags ∧ errnoAfter (closeDescriptor d fd env.errno).2 (copyResult env d v fd flags) ≠ 0

/-- A disk write that a Write makes fails: the one of its bytes, or before it that of the inline
data. -/
def WriteFails (env : Env) (threshold : Nat) (d : Disk) (v : Value) (fd : Option Nat) (flags fi_flags : OpenFlags)
    (buf : List UInt8) (offset : Nat) : Prop :=
  if 0 < v.header.has_blob then
    ((lazyOpen d v.header fd flags).1.pwrite (lazyOpen d v.header fd flags).2 buf offset env.data).2 < 0
  else threshold < offset + buf.length ∧ (CopyFails env d v fd fi_flags ∨
    ((migrateToDiskFile env d v fd fi_flags).1.pwrite (migrateToDiskFile env d v fd fi_flags).2.2.1 buf offset
      env.data).2 < 0)

instance (env : Env) (d : Disk) (v : Value) (fd : Option Nat) (flags : OpenFlags) :
    Decidable (CopyShort env d v fd flags) := inferInstanceAs (Decidable (_ ∧ _))

instance (env : Env) (d : Disk) (v : Value) (fd : Option Nat) (flags : OpenFlags) :
    Decidable (CopyFails env d v fd flags) := inferInstanceAs (Decidable (_ ∧ _))

instance (env : Env) (threshold : Nat) (d : Disk) (v : Value) (fd : Option Nat) (flags fi_flags : OpenFlags)
    (buf : List UInt8) (offset : Nat) : Decidable (WriteFails env threshold d v fd flags fi_flags buf offset) := by
  unfold WriteFails
  infer_instance

/-- Opening the disk file for a handle cuts it: the handle has no descriptor yet but O_TRUNC, and
the file is not empty. -/
def Cuts (d : Disk) (v : Value) (fd : Option Nat) (flags : OpenFlags) : Prop :=
  fd = none ∧ flags.trunc = true ∧ d.bytes (dataPath v) ≠ []

instance (d : Disk) (v : Value) (fd : Option Nat) (flags : OpenFlags) : Decidable (Cuts d v fd flags) :=
  inferInstanceAs (Decidable (_ ∧ _))

/-- MigrateToDiskFile reports just these failures. -/
theorem migrate_ne_zero_iff :
    (migrateToDiskFile env d v fd flags).2.2.2 ≠ 0 ↔ CopyFails env d v fd flags := by
  unfold migrateToDiskFile CopyFails CopyShort
  dsimp only
  by_cases hpos : 0 < v.fstat.st_size
  · rw [if_pos hpos]
    change (if cResult (copyResult env d v fd flags) ≠ v.fstat.st_size then
      -(errnoAfter (closeDescriptor d fd env.errno).2 (copyResult env d v fd flags) : Int) else 0) ≠ 0 ↔ _
    split
    · rename_i hne
      simp [hpos, hne]
    · rename_i heq
      simp [not_not.mp heq]
  · simp [hpos]

private theorem contents_lazyOpen (hcut : ¬ Cuts d v fd flags) (f : Nat) :
    (lazyOpen d v.header fd flags).1.contents f = d.contents f := by
  cases fd with
  | some n => rfl
  | none =>
    refine (contents_openFile d (dataPath v) flags f).trans ?_
    split
    · rename_i ht
      have hnil : d.bytes (dataPath v) = [] := by
        by_contra hne
        exact hcut ⟨rfl, ht.1, hne⟩
      rw [← bytes_of_name ht.2, hnil]
    · rfl

theorem bytes_lazyOpen (hcut : ¬ Cuts d v fd flags) :
    (lazyOpen d v.header fd flags).1.bytes (dataPath v) = d.bytes (dataPath v) := by
  cases fd with
  | some n => rfl
  | none =>
    refine (bytes_openFile d (dataPath v) flags).trans ?_
    split
    · rename_i ht
      by_contra hne
      exact hcut ⟨rfl, ht, fun hnil => hne hnil.symm⟩
    · rfl

private theorem readValue_lazyOpen (hb : 0 < v.header.has_blob) (hcut : ¬ Cuts d v fd flags)
    (hlive : ∀ n, fd' = some n → slot d.fds n ≠ none) (env : Env) (flags' : OpenFlags) (size offset : Nat) :
    (readValue env (lazyOpen d v.header fd flags).1 v fd' flags' size offset).2.2 =
      (readValue env d v fd' flags' size offset).2.2 := by
  cases fd' with
  | none => rw [readValue_opening hb, readValue_opening hb, bytes_lazyOpen hcut]
  | some n =>
    have hslot : slot (lazyOpen d v.header fd flags).1.fds n = slot d.fds n := by
      cases fd with
      | some m => rfl
      | none => exact slot_openFile_of_open _ _ (hlive n rfl)
    simp only [readValue, if_pos hb, pread]
    simp only [show ∀ d' : Disk, lazyOpen d' v.header (some n) flags' = (d', n) from fun _ => rfl, hslot,
      contents_lazyOpen hcut]

private theorem readValue_reopened (hb : 0 < v.header.has_blob) (env : Env) (size offset : Nat) :
    (readValue env (lazyOpen d v.header fd flags).1 v (some (lazyOpen d v.header fd flags).2) flags size offset).2.2 =
      (readValue env d v fd flags size offset).2.2 := by
  simp only [readValue, if_pos hb]
  rfl

private theorem bytes_of_cut (hb : 0 < v.header.has_blob) (hcut : Cuts d v fd flags) :
    ∃ env size offset, (readValue env (lazyOpen d v.header fd flags).1 v none {} size offset).2.2 ≠
      (readValue env d v none {} size offset).2.2 := by
  obtain ⟨rfl, ht, hne⟩ := hcut
  have hbytes : (lazyOpen d v.header none flags).1.bytes (dataPath v) = [] :=
    (bytes_openFile d (dataPath v) flags).trans (if_pos ht)
  refine ⟨.calm, (d.bytes (dataPath v)).length, 0, fun he => hne ?_⟩
  rw [readValue_opening hb, readValue_opening hb, hbytes] at he
  simpa [transfer, Env.calm, slice] using (Prod.mk.inj he).2.symm

end Write

section
variable {s : State} {fh : Nat} {f : FileHandle} {key : MetaKey} {h : InodeCacheHandle}

/-- After a Write the record is as it was, and so is what is read. -/
def WriteHarmless (s s' : State) (fh : Nat) (f : FileHandle) (key : MetaKey) (v : Value) : Prop :=
  ∃ f' h', s'.fileOf fh = some (f', key, h') ∧ h'.value_.extent = v.extent ∧ SameReads s s' (· = f.handle_) v h'.value_

private theorem sameReads_inline (hf : s.fileOf fh = some (f, key, h)) (env : Env) (fi_flags : OpenFlags)
    (buf : List UInt8) (offset : Nat) (hb : h.value_.header.has_blob = 0)
    (he : (writeValue env s.threshold_ s.disk h.value_ f.fd_ f.flags_ fi_flags buf offset).2.1.extent =
      h.value_.extent) :
    SameReads s (s.write env fh fi_flags buf offset).1 (· = f.handle_) h.value_
      (writeValue env s.threshold_ s.disk h.value_ f.fd_ f.flags_ fi_flags buf offset).2.1 := by
  have hinline := congrArg Extent.inline he
  have hblob :
      (writeValue env s.threshold_ s.disk h.value_ f.fd_ f.flags_ fi_flags buf offset).2.1.header.has_blob = 0 :=
    (congrArg Extent.has_blob he).trans hb
  simp only [Value.extent] at hinline
  refine ⟨fun fh' f' hslot hi _ env' size off => ?_, fun env' size off => ?_⟩
  · have hf' : s.fileOf fh' = some (f', key, h) :=
      State.fileOf_some.mpr ⟨hslot, hi ▸ (State.fileOf_some.mp hf).2⟩
    rw [read_snd (fileOf_write hf env fi_flags buf offset hslot hi), read_snd hf', readValue_inline hb,
      readValue_inline hblob, hinline]
  · rw [readValue_inline hb, readValue_inline hblob, hinline]

private theorem write_harmless_disk (hf : s.fileOf fh = some (f, key, h)) {env : Env} {fi_flags : OpenFlags}
    {buf : List UInt8} {offset : Nat} (hb : 0 < h.value_.header.has_blob)
    (hfail : WriteFails env s.threshold_ s.disk h.value_ f.fd_ f.flags_ fi_flags buf offset) :
    (s.write env fh fi_flags buf offset).2.ret < 0 ∧
      (WriteHarmless s (s.write env fh fi_flags buf offset).1 fh f key h.value_ ↔
        ¬ Cuts s.disk h.value_ f.fd_ f.flags_) := by
  rw [WriteFails, if_pos hb] at hfail
  have hdisk := pwrite_failed hfail
  -- the size is left alone, and the disk is as opening the file left it
  have hr : writeValue env s.threshold_ s.disk h.value_ f.fd_ f.flags_ fi_flags buf offset =
      ((lazyOpen s.disk h.value_.header f.fd_ f.flags_).1, h.value_,
        some (lazyOpen s.disk h.value_.header f.fd_ f.flags_).2, -1) := by
    have hret : cInt (cResult ((lazyOpen s.disk h.value_.header f.fd_ f.flags_).1.pwrite
        (lazyOpen s.disk h.value_.header f.fd_ f.flags_).2 buf offset env.data).2) = -1 := by
      rw [cResult, if_pos hfail]
      decide
    simp only [writeValue, if_pos hb, hret, hdisk, growSize]
    simp
  have hfile {fh' : Nat} {f' : FileHandle} (hslot : slot s.files fh' = some f') (hi : f'.handle_ = f.handle_) :=
    fileOf_write hf env fi_flags buf offset hslot hi
  have hstate : (s.write env fh fi_flags buf offset).1.disk = (lazyOpen s.disk h.value_.header f.fd_ f.flags_).1 := by
    simp only [State.write, hf, hr]
  rw [hr] at hfile
  refine ⟨by simp [State.write, hf, hr], fun hharm hcut => ?_, fun hcut => ?_⟩
  · obtain ⟨f', h', hf', _, hreads⟩ := hharm
    obtain ⟨env', size, off, hne⟩ := bytes_of_cut hb hcut
    obtain ⟨-, -, rfl⟩ := State.fileOf_inj (hfile (State.fileOf_some.mp hf).1 rfl) hf'
    have hsame := hreads.reopened env' size off
    rw [hstate] at hsame
    exact hne hsame
  · refine ⟨_, _, hfile (State.fileOf_some.mp hf).1 rfl, rfl, fun fh' f' hslot hi hlive env' size off => ?_,
      fun env' size off => ?_⟩
    · have hf' : s.fileOf fh' = some (f', key, h) :=
        State.fileOf_some.mpr ⟨hslot, hi ▸ (State.fileOf_some.mp hf).2⟩
      rw [read_snd (hfile hslot hi), read_snd hf', hstate]
      split
      · subst fh'
        obtain rfl := Option.some.inj (hslot.symm.trans (State.fileOf_some.mp hf).1)
        simp only [readValue_reopened hb]
      · simp only [readValue_lazyOpen hb hcut hlive]
    · rw [hstate]
      exact readValue_lazyOpen hb hcut (by simp) env' {} size off

/-- The copy of the inline data fails: the bytes are gone, unless there were none. The Write
itself fails after the copy: the record says that the data is on disk. -/
private theorem write_harmless_inline (hf : s.fileOf fh = some (f, key, h)) (hsized : h.value_.Sized) {env : Env}
    {fi_flags : OpenFlags} {buf : List UInt8} {offset : Nat} (hb : h.value_.header.has_blob = 0)
    (hfail : WriteFails env s.threshold_ s.disk h.value_ f.fd_ f.flags_ fi_flags buf offset) :
    (s.write env fh fi_flags buf offset).2.ret < 0 ∧
      (WriteHarmless s (s.write env fh fi_flags buf offset).1 fh f key h.value_ ↔
        h.value_.inline = [] ∧ CopyFails env s.disk h.value_ f.fd_ fi_flags) := by
  rw [WriteFails, if_neg (by omega)] at hfail
  obtain ⟨hbig, hfail⟩ := hfail
  have hfile := fileOf_write hf env fi_flags buf offset (State.fileOf_some.mp hf).1 rfl
  have hret : (s.write env fh fi_flags buf offset).2.ret =
      (writeValue env s.threshold_ s.disk h.value_ f.fd_ f.flags_ fi_flags buf offset).2.2.2 := by
    simp only [State.write, hf]
  rcases extent_writeValue hsized env s.threshold_ s.disk f.fd_ f.flags_ fi_flags
    buf offset with ⟨hpos, _⟩ | ⟨_, _, hcopy, hneg, he⟩ | ⟨_, _, hcopy, he⟩ | ⟨_, hle, _, _⟩
  · omega
  · have hcopied : h.value_.extent.copied = [] := if_pos (migrate_ne_zero_iff.mp hcopy).1.1
    rw [hcopied] at he
    refine ⟨hret ▸ hneg, fun hharm => ⟨?_, migrate_ne_zero_iff.mp hcopy⟩, fun hnil => ?_⟩
    · obtain ⟨f', h', hf', hext, _⟩ := hharm
      obtain ⟨-, -, rfl⟩ := State.fileOf_inj hfile hf'
      exact (congrArg Extent.inline (hext.symm.trans he))
    · have hsame := he.trans (congrArg (Extent.mk _ _) hnil.1.symm)
      exact ⟨_, _, hfile, hsame, sameReads_inline hf env fi_flags buf offset hb hsame⟩
  · have hdata := hfail.resolve_left fun hc => migrate_ne_zero_iff.mpr hc hcopy
    refine ⟨?_, fun hharm => ?_, fun hcond => absurd hcopy (migrate_ne_zero_iff.mpr hcond.2)⟩
    · rw [hret]
      simp only [writeValue, if_neg (show ¬ 0 < h.value_.header.has_blob by omega), if_pos hbig, hcopy, if_true]
      rw [cResult, if_pos hdata]
      decide
    · obtain ⟨f', h', hf', hext, _⟩ := hharm
      obtain ⟨-, -, rfl⟩ := State.fileOf_inj hfile hf'
      have hblob := congrArg Extent.has_blob (hext.symm.trans he)
      exact absurd (hblob.symm.trans hb) (by simp)
  · omega

/-- A Write that fails on the disk is reported. It leaves the file as it was exactly if the data
is on disk and opening the file cuts nothing, or there was nothing inline and the copy failed. -/
theorem write_failure_harmless_iff (hs : Reachable s) (hf : s.fileOf fh = some (f, key, h)) (env : Env)
    (fi_flags : OpenFlags) (buf : List UInt8) (offset : Nat)
    (hfail : WriteFails env s.threshold_ s.disk h.value_ f.fd_ f.flags_ fi_flags buf offset) :
    (s.write env fh fi_flags buf offset).2.ret < 0 ∧
      (WriteHarmless s (s.write env fh fi_flags buf offset).1 fh f key h.value_ ↔
        if 0 < h.value_.header.has_blob then ¬ Cuts s.disk h.value_ f.fd_ f.flags_
        else h.value_.inline = [] ∧ CopyFails env s.disk h.value_ f.fd_ fi_flags) := by
  by_cases hb : 0 < h.value_.header.has_blob
  · rw [if_pos hb]
    exact write_harmless_disk hf hb hfail
  · rw [if_neg hb]
    have hsized := (hs.ok.wellFormed.cached _ _ _ (State.fileOf_some.mp hf).2).named.sized
    exact write_harmless_inline hf hsized (Nat.eq_zero_of_not_pos hb) hfail

/-- A file of two bytes on disk keeps them when a Write fails. -/
theorem write_failure_harmless_on_disk :
    let s := (Runs.run step (State.fresh 0) (calmly [.makeNode (inRoot [97]) 0 0, .openFile (inRoot [97]) O_RDWR,
      .write 0 O_RDWR [1, 2] 0])).1
    let r := s.write { Env.calm with data := .fail 28 (by decide) } 0 O_RDWR [3] 2
    r.2.ret < 0 ∧ ∃ f key h, s.fileOf 0 = some (f, key, h) ∧ WriteHarmless s r.1 0 f key h.value_ := by
  intro s r
  obtain ⟨⟨f, key, h⟩, hf⟩ := Option.isSome_iff_exists.mp (by decide +kernel : (s.fileOf 0).isSome = true)
  have hfail : ∀ x ∈ s.fileOf 0, WriteFails { Env.calm with data := .fail 28 (by decide) } s.threshold_ s.disk
      x.2.2.value_ x.1.fd_ x.1.flags_ O_RDWR [3] 2 := by decide +kernel
  have hcond : ∀ x ∈ s.fileOf 0, 0 < x.2.2.value_.header.has_blob ∧ ¬ Cuts s.disk x.2.2.value_ x.1.fd_ x.1.flags_ := by
    decide +kernel
  have hiff := write_failure_harmless_iff (State.reachable_fresh 0 _) hf _ O_RDWR [3] 2 (hfail _ hf)
  exact ⟨hiff.1, f, key, h, hf, hiff.2.mpr (by rw [if_pos (hcond _ hf).1]; exact (hcond _ hf).2)⟩

/-- One byte inline and a Write beyond the threshold: if the copy fails the byte is gone, and if the
Write fails after it the file has ten bytes. Both are reported. -/
theorem write_failure_harmful :
    let s := (Runs.run step (State.fresh 4) (calmly [.makeNode (inRoot [97]) 0 0, .openFile (inRoot [97]) O_RDWR,
      .write 0 O_RDWR [1] 0])).1
    let copy := s.write { Env.calm with migrate := .fail 28 (by decide) } 0 O_RDWR [2] 9
    let data := s.write { Env.calm with data := .fail 28 (by decide) } 0 O_RDWR [2] 9
    (s.read .calm 0 9 0).2.data = [1] ∧ (∃ x ∈ s.fileOf 0, x.2.2.value_.extent = ⟨1, 0, [1]⟩) ∧
      (copy.2.ret = -28 ∧ (copy.1.read .calm 0 9 0).2.data = [] ∧
        ∃ x ∈ copy.1.fileOf 0, x.2.2.value_.extent = ⟨1, 0, []⟩) ∧
      data.2.ret = -1 ∧ ∃ x ∈ data.1.fileOf 0, x.2.2.value_.extent = ⟨10, 1, []⟩ := by
  decide +kernel

end

section Truncate

/-- The first bytes of a disk file cannot all be read back. -/
def FetchFails (env : Env) (d : Disk) (path : DiskPath) (size : Nat) : Prop :=
  ∀ fd ∈ (d.openRead path).2, cResult ((d.openRead path).1.pread fd size 0 env.readBack).1 ≠ size

/-- A disk step of a Truncate fails: truncate of the disk file, the read that moves its data back
inline, the copy of the inline data, or ftruncate of the file it was copied to. -/
def TruncateFails (env : Env) (threshold : Nat) (d : Disk) (v : Value) (new_size : Nat) : Prop :=
  if 0 < v.header.has_blob then
    if threshold < new_size then (d.truncateFile (dataPath v) new_size env.resize).2 < 0
    else FetchFails env d (dataPath v) new_size
  else threshold < new_size ∧ (CopyShort env d v env.fd { trunc := true, wronly := true } ∨
    ¬ CopyFails env d v env.fd { trunc := true, wronly := true } ∧
      ((migrateToDiskFile env d v env.fd { trunc := true, wronly := true }).1.ftruncate
        (migrateToDiskFile env d v env.fd { trunc := true, wronly := true }).2.2.1 new_size env.resize).2 < 0)

instance (env : Env) (d : Disk) (path : DiskPath) (size : Nat) : Decidable (FetchFails env d path size) :=
  inferInstanceAs (Decidable (∀ fd ∈ (d.openRead path).2, _))

instance (env : Env) (threshold : Nat) (d : Disk) (v : Value) (new_size : Nat) :
    Decidable (TruncateFails env threshold d v new_size) := by
  unfold TruncateFails
  infer_instance

/-- A Truncate reports that it failed, and leaves the record and what is read as they were. -/
def TruncateHarmless (s : State) (env : Env) (path : CString) (new_size : Nat) (key : MetaKey) (v : Value) : Prop :=
  (s.truncate env path new_size).2.ret < 0 ∧ ∃ v', (s.truncate env path new_size).1.visible key = some v' ∧
    v'.extent = v.extent ∧ SameReads s (s.truncate env path new_size).1 (s.inode_cache.table key = some ·) v v'

variable {s : State} {env : Env} {path : CString} {key : MetaKey} {name : List UInt8} {v : Value}

private theorem truncate_spec (hs : s.Counted) (hfound : s.found path = some (key, name)) (hv : s.visible key = some v)
    (env : Env) (new_size : Nat) :
    (s.truncate env path new_size).2.ret = (truncateValue env s.threshold_ s.disk v new_size).2.2 ∧
      (s.truncate env path new_size).1.visible key = some (truncateValue env s.threshold_ s.disk v new_size).2.1 := by
  obtain ⟨ic, i, h, rfl, ha, hp, ho, hs'⟩ := State.acquire_of_visible hs hfound hv .write
  unfold State.truncate
  rw [ha]
  exact ⟨rfl, State.visible_modify (s := s)
    (g := fun h' => { h' with value_ := (truncateValue env s.threshold_ s.disk h.value_ new_size).2.1 }) hp ho hs'
      rfl rfl⟩

/-- A value that is visible is one of the store or of the cache. -/
theorem InodeCache.Every.visible {W : MetaKey → Value → Prop} (h : s.inode_cache.Every W) (hs : s.Counted)
    (hv : s.visible key = some v) : W key v := by
  unfold State.visible at hv
  split at hv
  · rename_i i ht
    obtain ⟨hd, hh⟩ := hs.entry ht
    rw [hh] at hv
    exact Option.some.inj hv ▸ h.cached i key hd hh
  · exact h.stored key v hv

/-- No Truncate with a failing disk step is reported and harmless. The size of a file that is
moved to the disk changes whatever fails, and elsewhere no failure is reported. -/
theorem truncate_failure_never_harmless (hs : Reachable s) (hfound : s.found path = some (key, name))
    (hv : s.visible key = some v) {new_size : Nat} (hfail : TruncateFails env s.threshold_ s.disk v new_size) :
    ¬ TruncateHarmless s env path new_size key v := by
  obtain ⟨hret, hvis⟩ := truncate_spec hs.ok.counted hfound hv env new_size
  obtain ⟨hsized, hranged⟩ := hs.ranged.visible hs.ok.counted hv
  rintro ⟨hneg, v', hv', hext, _⟩
  rw [hret] at hneg
  obtain rfl := Option.some.inj (hvis.symm.trans hv')
  unfold TruncateFails at hfail
  by_cases hb : 0 < v.header.has_blob
  · have hzero : (truncateValue env s.threshold_ s.disk v new_size).2.2 = 0 := by
      have hdata : (truncateData env s.threshold_ s.disk v new_size).2.2 = 0 := by
        simp only [truncateData, if_pos hb]
        split <;> rfl
      unfold truncateValue
      dsimp only
      split <;> exact hdata
    omega
  · rw [if_neg hb] at hfail
    have hle : v.fstat.st_size ≤ s.threshold_ := hranged.inlined (Nat.eq_zero_of_not_pos hb)
    obtain ⟨inline, _, he⟩ := extent_truncateValue hsized env s.threshold_ s.disk new_size
    have hne : new_size ≠ v.fstat.st_size := by
      have := hfail.1
      omega
    rw [if_neg hne] at he
    exact hne (congrArg Extent.st_size (he.symm.trans hext))

/-- Three bytes on disk under a threshold of two: truncate fails, and so does the read that moves
two of them back. -/
theorem truncate_failure_never_harmless_on_disk :
    let s := (Runs.run step (State.fresh 2) (calmly [.makeNode (inRoot [97]) 0 0, .openFile (inRoot [97]) O_RDWR,
      .write 0 O_RDWR [1, 2, 3] 0, .release 0])).1
    ∃ key v, s.visible key = some v ∧
      ¬ TruncateHarmless s { Env.calm with resize := .fail 5 (by decide) } (inRoot [97]) 9 key v ∧
      ¬ TruncateHarmless s { Env.calm with readBack := .short 1 } (inRoot [97]) 2 key v := by
  intro s
  obtain ⟨⟨key, name⟩, hfound⟩ := Option.isSome_iff_exists.mp
    (by decide +kernel : (s.found (inRoot [97])).isSome = true)
  have hvis : ∀ x ∈ s.found (inRoot [97]), (s.visible x.1).isSome = true := by decide +kernel
  obtain ⟨v, hv⟩ := Option.isSome_iff_exists.mp (hvis _ hfound)
  have hfail : ∀ x ∈ s.found (inRoot [97]), ∀ v ∈ s.visible x.1,
      TruncateFails { Env.calm with resize := .fail 5 (by decide) } s.threshold_ s.disk v 9 ∧
        TruncateFails { Env.calm with readBack := .short 1 } s.threshold_ s.disk v 2 := by decide +kernel
  have hs := State.reachable_fresh 2 (calmly [.makeNode (inRoot [97]) 0 0, .openFile (inRoot [97]) O_RDWR,
      .write 0 O_RDWR [1, 2, 3] 0, .release 0])
  exact ⟨key, v, hv, truncate_failure_never_harmless hs hfound hv (hfail _ hfound v hv).1,
    truncate_failure_never_harmless hs hfound hv (hfail _ hfound v hv).2⟩

/-- A file of three bytes on disk. A failing truncate is not reported, and the record has nine
bytes. A short read back is not reported, and the second byte is lost with the disk file. -/
theorem truncate_failure_unreported :
    let s := (Runs.run step (State.fresh 2) (calmly [.makeNode (inRoot [97]) 0 0, .openFile (inRoot [97]) O_RDWR,
      .write 0 O_RDWR [1, 2, 3] 0, .release 0])).1
    let resize := s.truncate { Env.calm with resize := .fail 5 (by decide) } (inRoot [97]) 9
    let fetch := s.truncate { Env.calm with readBack := .short 1 } (inRoot [97]) 2
    let extent (s : State) := (s.visible (buildMetaKey [97] ROOT_INODE_ID)).map Value.extent
    extent s = some ⟨3, 1, []⟩ ∧ (resize.2.ret = 0 ∧ extent resize.1 = some ⟨9, 1, []⟩) ∧
      fetch.2.ret = 0 ∧ extent fetch.1 = some ⟨2, 0, [1, 0]⟩ := by
  decide +kernel

end Truncate
end TableFS
