import TableFS.DiskSteps
import TableFS.Extents
import TableFS.RenameLoss
import TableFS.Storage

/-! What a Read returns, through a handle with a descriptor and through one that has yet to open
the disk file, on any disk. -/
namespace TableFS
open ByteSeq Slots Disk

namespace Disk
variable {d : Disk} {path : DiskPath}

/-- The bytes of the file at a path, none if it is missing. -/
def bytes (d : Disk) (path : DiskPath) : List UInt8 := (d.content path).getD []

theorem bytes_of_name {f : Nat} (h : d.names.lookup path = some f) : d.bytes path = d.contents f := by
  rw [bytes, content_of_name h]
  rfl

private theorem bytes_of_none (h : d.names.lookup path = none) : d.bytes path = [] := by
  rw [bytes, content_eq_none.mpr h]
  rfl

/-- Opening changes the contents of a file only by O_TRUNC; a file that it creates is empty. -/
theorem contents_openFile (d : Disk) (path : DiskPath) (flags : OpenFlags) (f : Nat) :
    (d.openFile path flags).1.contents f =
      if flags.trunc = true ∧ d.names.lookup path = some f then [] else d.contents f := by
  unfold openFile
  cases hn : d.names.lookup path with
  | none =>
    simp only [contents, reduceCtorEq, and_false, if_false]
    by_cases hf : f < d.files.length
    · rw [List.getElem?_append_left hf]
    · rw [List.getElem?_eq_none (Nat.le_of_not_lt hf), List.getElem?_append_right (Nat.le_of_not_lt hf)]
      cases f - d.files.length <;> rfl
  | some g =>
    cases flags.trunc with
    | false => simp [contents]
    | true =>
      by_cases hg : g = f
      · subst hg
        by_cases hl : g < d.files.length
        · simp [contents, hl]
        · simp [contents, List.getElem?_eq_none (Nat.le_of_not_lt hl), List.set_eq_of_length_le (Nat.le_of_not_lt hl)]
      · simp [contents, hg, List.getElem?_set_ne hg]

theorem bytes_openFile (d : Disk) (path : DiskPath) (flags : OpenFlags) :
    (d.openFile path flags).1.bytes path = if flags.trunc then [] else d.bytes path := by
  cases hn : d.names.lookup path with
  | none =>
    have hname : (d.openFile path flags).1.names.lookup path = some d.files.length := by
      simp [openFile, hn]
    rw [bytes_of_name hname, contents_openFile, bytes_of_none hn, hn]
    simp [contents]
  | some f =>
    have hname : (d.openFile path flags).1.names.lookup path = some f := by
      simp [openFile, hn]
    rw [bytes_of_name hname, contents_openFile, bytes_of_name hn, hn]
    simp

/-- Other descriptors that are open stay as they are. -/
theorem slot_openFile_of_open (path : DiskPath) (flags : OpenFlags) {n : Nat} (h : slot d.fds n ≠ none) :
    slot (d.openFile path flags).1.fds n = slot d.fds n := by
  obtain ⟨f, _, hs⟩ := slot_openFile d path flags
  rw [hs, if_neg]
  rintro rfl
  exact h (slot_free d.fds)

theorem pread_openFile (d : Disk) (path : DiskPath) (flags : OpenFlags) (size offset : Nat) (io : IoResult) :
    (d.openFile path flags).1.pread (d.openFile path flags).2 size offset io =
      if flags.wronly then (-(EBADF : Int), [])
      else transfer io (slice offset size (if flags.trunc then [] else d.bytes path)) := by
  obtain ⟨f, hname, hs⟩ := slot_openFile d path flags
  rw [pread, openFile_snd, hs, if_pos rfl, ← bytes_openFile, bytes_of_name hname]

/-- A write that fails leaves the disk alone. -/
theorem pwrite_failed {n : Nat} {buf : List UInt8} {offset : Nat} {io : IoResult}
    (h : (d.pwrite n buf offset io).2 < 0) : (d.pwrite n buf offset io).1 = d := by
  unfold pwrite at h ⊢
  cases hx : slot d.fds n with
  | none => rfl
  | some x =>
    simp only [hx] at h ⊢
    by_cases hw : x.flags.writable = true
    · rw [if_pos hw] at h ⊢
      cases io with
      | full => exact absurd h (by simp [transfer])
      | short k => exact absurd h (by simp [transfer])
      | fail errno hpos => simp [transfer]
    · rw [if_neg hw]

end Disk

section
variable {env : Env} {d : Disk} {v : Value}

/-- A Read through a handle without a descriptor opens the disk file first. -/
theorem readValue_opening (hb : 0 < v.header.has_blob) (flags : OpenFlags) (size offset : Nat) :
    (readValue env d v none flags size offset).2.2 =
      let r := if flags.wronly then (-(EBADF : Int), [])
        else transfer env.data (slice offset size (if flags.trunc then [] else d.bytes (dataPath v)))
      (cInt (cResult r.1), r.2) := by
  have hread := pread_openFile d (dataPath v) flags size offset env.data
  simp only [readValue, if_pos hb, lazyOpen, openDiskFile]
  rw [show getDiskFilePath v.header.fstat.st_ino = dataPath v from rfl, hread]

/-- Inline data is read from the value alone. -/
theorem readValue_inline (hb : v.header.has_blob = 0) (fd : Option Nat) (flags : OpenFlags) (size offset : Nat) :
    readValue env d v fd flags size offset =
      (d, fd, cInt (slice offset size v.inline).length, slice offset size v.inline) := by
  simp [readValue, hb, getInlineData_eq]

end

section Good
variable {env : Env} {d : Disk} {v : Value} {fd : Option Nat}

private theorem good_closeDescriptor (hg : d.Good) (fd : Option Nat) (errno : Nat) :
    (closeDescriptor d fd errno).1.Good :=
  (closeDescriptor_spec hg (0, 0) fd errno).1.good

private theorem good_lazyOpen (hg : d.Good) (iheader : Header) (fd : Option Nat) (flags : OpenFlags) :
    (lazyOpen d iheader fd flags).1.Good := by
  cases fd with
  | some n => exact hg
  | none => exact hg.openFile _ flags

private theorem good_readValue (hg : d.Good) (flags : OpenFlags) (size offset : Nat) :
    (readValue env d v fd flags size offset).1.Good := by
  unfold readValue
  split
  · exact good_lazyOpen hg v.header fd flags
  · exact hg

private theorem good_migrateToDiskFile (hg : d.Good) (flags : OpenFlags) :
    (migrateToDiskFile env d v fd flags).1.Good := by
  have hopen := (good_closeDescriptor hg fd env.errno).openFile (getDiskFilePath v.header.fstat.st_ino) flags
  unfold migrateToDiskFile
  dsimp only [openDiskFile]
  split
  · exact hopen.pwrite _ _ _ _
  · exact hopen

private theorem good_writeValue (hg : d.Good) (threshold : Nat) (flags fi_flags : OpenFlags) (buf : List UInt8)
    (offset : Nat) :
    (writeValue env threshold d v fd flags fi_flags buf offset).1.Good := by
  unfold writeValue
  dsimp only
  split
  · exact (good_lazyOpen hg v.header fd flags).pwrite _ _ _ _
  · split
    · split
      · exact (good_migrateToDiskFile hg fi_flags).pwrite _ _ _ _
      · exact good_migrateToDiskFile hg fi_flags
    · exact hg

private theorem good_truncateValue (hg : d.Good) (threshold new_size : Nat) :
    (truncateValue env threshold d v new_size).1.Good := by
  have hfetch : (migrateDiskFileToBuffer env d v.fstat.st_ino new_size).1.Good := by
    have hopen := hg.openRead (getDiskFilePath v.fstat.st_ino)
    unfold migrateDiskFileToBuffer
    dsimp only
    split
    · rename_i heq
      rw [heq] at hopen
      exact (unlinkFile_frame (fun _ => False) hopen _).1.good
    · rename_i heq
      rw [heq] at hopen
      exact (unlinkFile_frame (fun _ => False) (closeFile_frame (0, 0) hopen _).good _).1.good
  have hdata : (truncateData env threshold d v new_size).1.Good := by
    unfold truncateData
    dsimp only
    split
    · split
      · exact hg.truncateFile _ _ _
      · exact hfetch
    · split
      · have hmig : (migrateToDiskFile env d v env.fd { trunc := true, wronly := true }).1.Good :=
          good_migrateToDiskFile hg _
        split
        · exact (closeFile_frame (0, 0) (hmig.ftruncate _ _ _) _).good
        · exact hmig
      · exact hg
  unfold truncateValue
  dsimp only
  split <;> exact hdata

end Good

theorem Touched.good {env : Env} {threshold : Nat} {d d' : Disk} (h : Touched env threshold d d') (hg : d.Good) :
    d'.Good := by
  cases h with
  | same => exact hg
  | opened iheader flags => exact hg.openFile _ flags
  | read v fd flags size offset => exact good_readValue hg flags size offset
  | wrote v fd flags fi_flags buf offset => exact good_writeValue hg _ flags fi_flags buf offset
  | truncated v n => exact good_truncateValue hg _ n
  | closed fd =>
    cases fd with
    | none => exact hg
    | some n => exact (closeFile_frame (0, 0) hg n).good
  | unlinked path => exact (unlinkFile_frame (fun _ => False) hg path).1.good

/-- Names and descriptors lead to existing files in every run. -/
theorem Reachable.good {s : State} (h : Reachable s) : s.disk.Good := by
  obtain ⟨config, env, mode, dev, calls, rfl⟩ := h
  have hrun : Runs.Allowed step (fun _ _ => True) (State.init config env mode dev) calls :=
    Runs.allowed_of_forall (fun _ _ => trivial) _ _
  exact Runs.run_invariant (fun s => s.disk.Good) (fun s c hg _ => (step_framed s c.1 c.2).disk.good hg) good_empty hrun

end TableFS
