import TableFS.DiskFrames
import TableFS.Revisions

/-! The part of a value that says where a file's data is: the size, whether there is a disk
file, and the inline bytes. Write and Truncate are described by what they make of it, whatever
the system calls return, and its size stays on the side of the threshold where the data is. -/
namespace TableFS
open ByteSeq Slots InodeCache Runs

structure Extent where
  st_size : Nat
  has_blob : Nat
  inline : List UInt8
  deriving DecidableEq, Repr

def Value.extent (v : Value) : Extent := ⟨v.fstat.st_size, v.header.has_blob, v.inline⟩

@[simp] theorem extent_renameInodeValue (v : Value) (filename : List UInt8) :
    (renameInodeValue v filename).extent = v.extent := by simp [Value.extent, Value.fstat]

theorem extent_updateAttribute {v : Value} {st : Stat} (h : st.st_size = v.fstat.st_size) :
    (updateAttribute v st).extent = v.extent := by
  simp only [Value.extent, updateAttribute, Value.fstat, h]
  rfl

/-- The inline bytes once the data was copied to a disk file; there is nothing to copy from a
file of size 0. -/
def Extent.copied (e : Extent) : List UInt8 := if 0 < e.st_size then [] else e.inline

private theorem length_memoryFrom (heap : Nat → UInt8) (n : Nat) (l : List UInt8) :
    (memoryFrom heap n l).length = n := by
  simp only [memoryFrom, List.length_append, List.length_take, List.length_map, List.length_range]
  omega

section Data
variable {env : Env} {threshold : Nat} {d : Disk} {v : Value} {fd : Option Nat}

private theorem extent_growSize (ret : Int) (size : Nat) :
    (growSize v.fstat.st_size ret size v).extent =
      { v.extent with st_size := if 0 ≤ ret then max v.fstat.st_size size else v.fstat.st_size } := by
  by_cases hret : 0 ≤ ret
  · by_cases hlt : v.fstat.st_size < size
    · simp [growSize, hret, hlt, Value.extent, setSize, updateInodeHeader, Value.inline,
        Nat.max_eq_right (Nat.le_of_lt hlt)]
    · simp [growSize, hret, hlt, Value.extent, Nat.max_eq_left (Nat.le_of_not_lt hlt)]
  · simp [growSize, hret, Value.extent]

private theorem extent_migrateToDiskFile (hs : v.Sized) (env : Env) (d : Disk) (fd : Option Nat) (flags : OpenFlags) :
    (migrateToDiskFile env d v fd flags).2.1.extent = { v.extent with inline := v.extent.copied } ∧
      (migrateToDiskFile env d v fd flags).2.2.2 ≤ 0 := by
  unfold migrateToDiskFile Extent.copied
  dsimp only
  by_cases hpos : 0 < v.fstat.st_size
  · simp only [if_pos hpos, show 0 < v.extent.st_size from hpos]
    refine ⟨congrArg (Extent.mk v.fstat.st_size v.header.has_blob) ((keeps_dropInlineData v).2 hs), ?_⟩
    split
    · omega
    · exact Int.le_refl 0
  · simp only [if_neg hpos, show ¬ 0 < v.extent.st_size from hpos]
    exact ⟨rfl, Int.le_refl 0⟩

/-- A copy that can be written, and is written in full, does not fail. -/
theorem migrateToDiskFile_ret (hio : env.migrate = .full) {flags : OpenFlags} (hw : flags.writable = true) :
    (migrateToDiskFile env d v fd flags).2.2.2 = 0 := by
  unfold migrateToDiskFile
  dsimp only
  split
  · obtain ⟨f, _, hf⟩ := Disk.slot_openFile (closeDescriptor d fd env.errno).1 (getDiskFilePath v.fstat.st_ino) flags
    simp [openDiskFile, Disk.openFile_snd, Disk.pwrite, hf, hw, hio, Disk.transfer, length_memoryFrom, cResult]
  · rfl

/-- The four ends of a Write: on disk, failed while the data was copied there, moved there, and
inline. -/
theorem extent_writeValue (hs : v.Sized) (env : Env) (threshold : Nat) (d : Disk) (fd : Option Nat)
    (flags fi_flags : OpenFlags) (buf : List UInt8) (offset : Nat) :
    let r := writeValue env threshold d v fd flags fi_flags buf offset
    let stop := offset + buf.length
    (0 < v.header.has_blob ∧ r.2.1.extent =
        { v.extent with st_size := if 0 ≤ r.2.2.2 then max v.fstat.st_size stop else v.fstat.st_size }) ∨
    (v.header.has_blob = 0 ∧ threshold < stop ∧ (migrateToDiskFile env d v fd fi_flags).2.2.2 ≠ 0 ∧
      r.2.2.2 < 0 ∧ r.2.1.extent = { v.extent with inline := v.extent.copied }) ∨
    (v.header.has_blob = 0 ∧ threshold < stop ∧ (migrateToDiskFile env d v fd fi_flags).2.2.2 = 0 ∧
      r.2.1.extent = ⟨stop, 1, v.extent.copied⟩) ∨
    (v.header.has_blob = 0 ∧ stop ≤ threshold ∧ r.2.2.2 = cInt buf.length ∧ r.2.1.extent =
        ⟨if 0 ≤ r.2.2.2 then max v.fstat.st_size stop else v.fstat.st_size, 0,
          overlay 0 offset buf v.inline⟩) := by
  intro r stop
  obtain ⟨hext, hle⟩ := extent_migrateToDiskFile hs env d fd fi_flags
  by_cases hb : 0 < v.header.has_blob
  · refine .inl ⟨hb, ?_⟩
    simp only [r, writeValue, if_pos hb]
    exact extent_growSize _ _
  · have h0 : v.header.has_blob = 0 := Nat.eq_zero_of_not_pos hb
    by_cases hbig : threshold < offset + buf.length
    · by_cases hret : (migrateToDiskFile env d v fd fi_flags).2.2.2 = 0
      · refine .inr (.inr (.inl ⟨h0, hbig, hret, ?_⟩))
        simp only [r, writeValue, if_neg hb, if_pos hbig, hret, if_true]
        exact congrArg (Extent.mk stop 1) (congrArg Extent.inline hext)
      · have hneg : (migrateToDiskFile env d v fd fi_flags).2.2.2 < 0 := by omega
        refine .inr (.inl ⟨h0, hbig, hret, ?_⟩)
        simp only [r, writeValue, if_neg hb, if_pos hbig, if_neg hret]
        refine ⟨hneg, ?_⟩
        simpa [growSize, Int.not_le.mpr hneg] using hext
    · refine .inr (.inr (.inr ⟨h0, Nat.le_of_not_lt hbig, ?_⟩))
      simp only [r, writeValue, if_neg hb, if_neg hbig]
      refine ⟨trivial, ?_⟩
      refine (extent_growSize (v := updateInlineData v buf offset) _ _).trans ?_
      have hheader : (updateInlineData v buf offset).header = v.header := rfl
      simp only [Value.extent, Value.fstat, hheader, (keeps_updateInlineData v buf offset).2 hs, h0]
      rfl

/-- What Truncate makes of the inline bytes, in its four branches. -/
structure Extent.Cut (threshold : Nat) (e : Extent) (new_size : Nat) (inline : List UInt8) : Prop where
  resized : 0 < e.has_blob → threshold < new_size → inline = e.inline
  fetched : 0 < e.has_blob → new_size ≤ threshold → ∃ b : List UInt8, b.length = new_size ∧
    inline = overlay 0 0 b e.inline
  copied : e.has_blob = 0 → threshold < new_size → inline = e.copied
  kept : e.has_blob = 0 → new_size ≤ threshold → inline = resize 0 new_size e.inline

private theorem length_migrateDiskFileToBuffer (inode_id : UInt64) (size : Nat) :
    (migrateDiskFileToBuffer env d inode_id size).2.length = size := by
  unfold migrateDiskFileToBuffer
  dsimp only
  split
  · exact length_memoryFrom _ _ _
  · exact length_memoryFrom _ _ _

private theorem extent_truncateData (hs : v.Sized) (env : Env) (threshold : Nat) (d : Disk) (new_size : Nat) :
    (truncateData env threshold d v new_size).2.1.header = v.header ∧
      v.extent.Cut threshold new_size (truncateData env threshold d v new_size).2.1.inline := by
  by_cases hb : 0 < v.header.has_blob <;> by_cases hbig : threshold < new_size
  · simp only [truncateData, if_pos hb, if_pos hbig]
    exact ⟨trivial, fun _ _ => rfl, fun _ h => absurd hbig (Nat.not_lt.mpr h), fun h => absurd h (Nat.ne_of_gt hb),
      fun h => absurd h (Nat.ne_of_gt hb)⟩
  · simp only [truncateData, if_pos hb, if_neg hbig]
    refine ⟨rfl, fun _ h => absurd h hbig, fun _ _ => ⟨_, length_migrateDiskFileToBuffer _ _,
      (keeps_updateInlineData v _ 0).2 hs⟩, fun h => absurd h (Nat.ne_of_gt hb), fun h => absurd h (Nat.ne_of_gt hb)⟩
  · have hext := (extent_migrateToDiskFile hs env d env.fd { trunc := true, wronly := true }).1
    have hheader : (migrateToDiskFile env d v env.fd { trunc := true, wronly := true }).2.1.header = v.header := by
      unfold migrateToDiskFile
      dsimp only
      split <;> rfl
    have hcut : v.extent.Cut threshold new_size
        (migrateToDiskFile env d v env.fd { trunc := true, wronly := true }).2.1.inline :=
      ⟨fun h => absurd h hb, fun h => absurd h hb, fun _ _ => congrArg Extent.inline hext,
        fun _ h => absurd hbig (Nat.not_lt.mpr h)⟩
    simp only [truncateData, if_neg hb, if_pos hbig]
    split
    · exact ⟨hheader, hcut⟩
    · exact ⟨hheader, hcut⟩
  · simp only [truncateData, if_neg hb, if_neg hbig]
    exact ⟨rfl, fun h => absurd h hb, fun h => absurd h hb, fun _ h => absurd h hbig,
      fun _ _ => (keeps_truncateInlineData v new_size).2 hs⟩

/-- Truncate sets the size and the place that belongs to it, unless the size stays. -/
theorem extent_truncateValue (hs : v.Sized) (env : Env) (threshold : Nat) (d : Disk) (new_size : Nat) :
    ∃ inline, v.extent.Cut threshold new_size inline ∧
      (truncateValue env threshold d v new_size).2.1.extent =
        if new_size = v.fstat.st_size then { v.extent with inline := inline }
        else ⟨new_size, if threshold < new_size then 1 else 0, inline⟩ := by
  obtain ⟨hheader, hcut⟩ := extent_truncateData hs env threshold d new_size
  refine ⟨_, hcut, ?_⟩
  unfold truncateValue
  dsimp only
  by_cases hn : new_size = v.fstat.st_size
  · rw [if_neg (not_not.mpr hn), if_pos hn]
    exact congrArg (fun hd : Header => Extent.mk hd.fstat.st_size hd.has_blob _) hheader
  · simp only [ne_eq, hn, not_false_eq_true, if_true, if_false]
    rfl

end Data

/-- The size is on the side of the threshold where the data is kept. -/
structure Extent.Ranged (threshold : Nat) (e : Extent) : Prop where
  inlined : e.has_blob = 0 → e.st_size ≤ threshold
  onDisk : 0 < e.has_blob → threshold < e.st_size

/-- The size counts the inline bytes, of which a file on disk has none. -/
structure Extent.Exact (e : Extent) : Prop where
  length : e.has_blob = 0 → e.inline.length = e.st_size
  empty : 0 < e.has_blob → e.inline = []

theorem Extent.ranged_empty (threshold : Nat) (inline : List UInt8) : Extent.Ranged threshold ⟨0, 0, inline⟩ :=
  ⟨fun _ => Nat.zero_le _, fun h => absurd h (Nat.lt_irrefl 0)⟩

section
variable {env : Env} {threshold : Nat} {d : Disk} {v : Value} {fd : Option Nat}

theorem Extent.Ranged.writeValue (h : v.extent.Ranged threshold) (hs : v.Sized) (flags fi_flags : OpenFlags)
    (buf : List UInt8) (offset : Nat) :
    (writeValue env threshold d v fd flags fi_flags buf offset).2.1.extent.Ranged threshold := by
  have hsize : v.extent.st_size = v.fstat.st_size := rfl
  rcases extent_writeValue hs env threshold d fd flags fi_flags buf offset with
    ⟨hb, he⟩ | ⟨hb, _, _, _, he⟩ | ⟨_, hbig, _, he⟩ | ⟨hb, hle, _, he⟩
  · have hold := h.onDisk hb
    rw [he]
    refine ⟨fun h0 => absurd h0 (Nat.ne_of_gt hb), fun _ => ?_⟩
    dsimp only
    split <;> omega
  · rw [he]
    exact ⟨h.inlined, h.onDisk⟩
  · rw [he]
    exact ⟨fun h0 => absurd h0 (by simp), fun _ => hbig⟩
  · have hold := h.inlined hb
    rw [he]
    refine ⟨fun _ => ?_, fun h0 => absurd h0 (Nat.lt_irrefl 0)⟩
    dsimp only
    split <;> omega

theorem Extent.Ranged.truncateValue (h : v.extent.Ranged threshold) (hs : v.Sized) (new_size : Nat) :
    (truncateValue env threshold d v new_size).2.1.extent.Ranged threshold := by
  obtain ⟨inline, _, he⟩ := extent_truncateValue hs env threshold d new_size
  rw [he]
  split
  · exact ⟨h.inlined, h.onDisk⟩
  · by_cases hbig : threshold < new_size
    · exact ⟨fun h0 => absurd h0 (by simp [hbig]), fun _ => hbig⟩
    · exact ⟨fun _ => Nat.le_of_not_lt hbig, fun h0 => absurd h0 (by simp [hbig])⟩

theorem Extent.Exact.copied {e : Extent} (h : e.Exact) (hb : e.has_blob = 0) : e.copied = [] := by
  unfold Extent.copied
  split
  · rfl
  · exact List.length_eq_zero_iff.mp ((h.length hb).trans (Nat.eq_zero_of_not_pos ‹_›))

/-- A Write keeps the count unless the inline data is lost on its way to the disk. -/
theorem Extent.Exact.writeValue (h : v.extent.Exact) (hs : v.Sized) (flags fi_flags : OpenFlags)
    {buf : List UInt8} {offset : Nat} (hthr : threshold < 2147483648)
    (hcopy : v.header.has_blob = 0 → threshold < offset + buf.length → 0 < v.fstat.st_size →
      (migrateToDiskFile env d v fd fi_flags).2.2.2 = 0) :
    (writeValue env threshold d v fd flags fi_flags buf offset).2.1.extent.Exact := by
  rcases extent_writeValue hs env threshold d fd flags fi_flags buf offset with
    ⟨hb, he⟩ | ⟨hb, hbig, hret, _, _⟩ | ⟨hb, _, _, he⟩ | ⟨hb, hle, hret, he⟩
  · rw [he]
    exact ⟨fun h0 => absurd h0 (Nat.ne_of_gt hb), h.empty⟩
  · -- there is something to copy, or the copy cannot fail
    refine absurd (hcopy hb hbig (Nat.pos_of_ne_zero fun h0 => hret ?_)) hret
    simp [migrateToDiskFile, h0]
  · rw [he]
    exact ⟨fun h0 => absurd h0 (by simp), fun _ => h.copied hb⟩
  · have hpos : 0 ≤ cInt buf.length := by
      rw [cInt_of_lt (by omega)]
      omega
    rw [he, hret, if_pos hpos]
    refine ⟨fun _ => ?_, fun h0 => absurd h0 (Nat.lt_irrefl 0)⟩
    rw [length_overlay, show v.inline.length = v.fstat.st_size from h.length hb]

theorem Extent.Exact.truncateValue (h : v.extent.Exact) (hr : v.extent.Ranged threshold) (hs : v.Sized)
    (new_size : Nat) : (truncateValue env threshold d v new_size).2.1.extent.Exact := by
  obtain ⟨inline, hcut, he⟩ := extent_truncateValue hs env threshold d new_size
  have hshort (hle : new_size ≤ threshold) : inline.length = new_size := by
    rcases Nat.eq_zero_or_pos v.extent.has_blob with hb | hb
    · rw [hcut.kept hb hle, length_resize]
    · obtain ⟨b, hlen, hb'⟩ := hcut.fetched hb hle
      rw [hb', h.empty hb, overlay_nil, hlen]
  have hlong (hlt : threshold < new_size) : inline = [] := by
    rcases Nat.eq_zero_or_pos v.extent.has_blob with hb | hb
    · rw [hcut.copied hb hlt, h.copied hb]
    · rw [hcut.resized hb hlt, h.empty hb]
  rw [he]
  split
  · -- the size stays, and so does the place
    rename_i hsame
    exact ⟨fun hb => (hshort (hsame ▸ hr.inlined hb)).trans hsame, fun hb => hlong (hsame ▸ hr.onDisk hb)⟩
  · by_cases hbig : threshold < new_size
    · exact ⟨fun h0 => absurd h0 (by simp [hbig]), fun _ => hlong hbig⟩
    · exact ⟨fun _ => hshort (Nat.le_of_not_lt hbig), fun h0 => absurd h0 (by simp [hbig])⟩

end

/-- The handles on an inode after a Write through one of them: they see its value, and the writing
one has its descriptor. -/
theorem fileOf_write {s : State} {fh : Nat} {f : FileHandle} {key : MetaKey} {h : InodeCacheHandle}
    (hf : s.fileOf fh = some (f, key, h)) (env : Env) (fi_flags : OpenFlags) (buf : List UInt8) (offset : Nat)
    {fh' : Nat} {f' : FileHandle} (hslot : slot s.files fh' = some f') (hi : f'.handle_ = f.handle_) :
    let r := writeValue env s.threshold_ s.disk h.value_ f.fd_ f.flags_ fi_flags buf offset
    (s.write env fh fi_flags buf offset).1.fileOf fh' =
      some (if fh' = fh then { f with fd_ := r.2.2.1 } else f', key, ⟨r.2.1, .write⟩) := by
  intro r
  obtain ⟨hslot₀, hh⟩ := State.fileOf_some.mp hf
  simp only [State.write, hf]
  refine State.fileOf_some.mpr ⟨?_, ?_⟩
  · dsimp only
    rw [slot_replace (lt_of_slot hslot₀), hslot]
    split <;> rfl
  · dsimp only
    split
    · exact handle_update_self hh _
    · rw [hi]
      exact handle_update_self hh _

end TableFS
