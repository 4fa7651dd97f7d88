import TableFS.Lib.ParentTree
import TableFS.Extents
import TableFS.Storage

/-! An inventory of the data files: which file there is under the number of which value, and what
Write, Truncate and the moves of records make of it, whatever the flags of the handles and the
results of the system calls. -/
namespace TableFS
open Disk ParentTree

section Names
variable {env : Env} {threshold : Nat} {d : Disk} {v : Value}

private theorem names_closeDescriptor (d : Disk) (fd : Option Nat) (errno : Nat) :
    (closeDescriptor d fd errno).1.names = d.names := by
  cases fd with
  | none => rfl
  | some n => exact names_closeFile d n

theorem names_closeHandle (d : Disk) (fd : Option Nat) : (closeHandle d fd).1.names = d.names := by
  cases fd with
  | none => rfl
  | some n => exact names_closeFile d n

theorem mem_names_lazyOpen (h : dataPath v ∈ d.names) (fd : Option Nat) (flags : OpenFlags) (q : DiskPath) :
    q ∈ (lazyOpen d v.header fd flags).1.names ↔ q ∈ d.names := by
  cases fd with
  | some n => rfl
  | none =>
    refine (mem_names_openFile _ _ _ _).trans ⟨?_, .inr⟩
    rintro (rfl | hq)
    · exact h
    · exact hq

private theorem mem_names_migrateToDiskFile (env : Env) (d : Disk) (v : Value) (fd : Option Nat) (flags : OpenFlags)
    (q : DiskPath) : q ∈ (migrateToDiskFile env d v fd flags).1.names ↔ q = dataPath v ∨ q ∈ d.names := by
  unfold migrateToDiskFile
  dsimp only
  split
  · rw [names_pwrite, openDiskFile, mem_names_openFile, names_closeDescriptor]
    rfl
  · rw [openDiskFile, mem_names_openFile, names_closeDescriptor]
    rfl

private theorem mem_names_migrateDiskFileToBuffer (env : Env) (d : Disk) (inode_id : UInt64) (size : Nat)
    (q : DiskPath) :
    q ∈ (migrateDiskFileToBuffer env d inode_id size).1.names ↔ q ≠ getDiskFilePath inode_id ∧ q ∈ d.names := by
  have hread := names_openRead d (getDiskFilePath inode_id)
  unfold migrateDiskFileToBuffer
  dsimp only
  split
  · rename_i d' he
    rw [he] at hread
    rw [mem_names_unlinkFile, hread]
  · rename_i d' fd he
    rw [he] at hread
    rw [mem_names_unlinkFile, names_closeFile, hread]

private theorem mem_names_writeValue (h : 0 < v.header.has_blob → dataPath v ∈ d.names) (env : Env) (threshold : Nat)
    (fd : Option Nat) (flags fi_flags : OpenFlags) (buf : List UInt8) (offset : Nat) (q : DiskPath) :
    q ∈ (writeValue env threshold d v fd flags fi_flags buf offset).1.names ↔
      q ∈ d.names ∨ v.header.has_blob = 0 ∧ threshold < offset + buf.length ∧ q = dataPath v := by
  by_cases hb : 0 < v.header.has_blob
  · simp only [writeValue, if_pos hb, names_pwrite, mem_names_lazyOpen (h hb), Nat.ne_of_gt hb, false_and, or_false]
  · have h0 : v.header.has_blob = 0 := Nat.eq_zero_of_not_pos hb
    by_cases hbig : threshold < offset + buf.length
    · have hnames : (writeValue env threshold d v fd flags fi_flags buf offset).1.names =
          (migrateToDiskFile env d v fd fi_flags).1.names := by
        simp only [writeValue, if_neg hb, if_pos hbig]
        split
        · exact names_pwrite ..
        · rfl
      rw [hnames, mem_names_migrateToDiskFile, or_comm]
      simp [h0, hbig]
    · have hnames : (writeValue env threshold d v fd flags fi_flags buf offset).1 = d := by
        simp only [writeValue, if_neg hb, if_neg hbig]
      rw [hnames]
      simp [hbig]

private theorem mem_names_truncateValue (h : 0 < v.header.has_blob ↔ dataPath v ∈ d.names) (env : Env)
    (threshold new_size : Nat) (q : DiskPath) : q ∈ (truncateValue env threshold d v new_size).1.names ↔
      q ≠ dataPath v ∧ q ∈ d.names ∨ q = dataPath v ∧ threshold < new_size := by
  have hdata : q ∈ (truncateData env threshold d v new_size).1.names ↔
      q ≠ dataPath v ∧ q ∈ d.names ∨ q = dataPath v ∧ threshold < new_size := by
    by_cases hq : q = dataPath v
    · by_cases hb : 0 < v.header.has_blob <;> by_cases hbig : threshold < new_size
      · simp only [truncateData, if_pos hb, if_pos hbig, names_truncateFile]
        simp [hq, hbig, ← h, hb]
      · simp only [truncateData, if_pos hb, if_neg hbig, mem_names_migrateDiskFileToBuffer]
        simp [hq, hbig, dataPath]
      · simp only [truncateData, if_neg hb, if_pos hbig]
        split <;> simp [mem_names_migrateToDiskFile, hq, hbig]
      · simp only [truncateData, if_neg hb, if_neg hbig]
        simp [hq, hbig, ← h, Nat.eq_zero_of_not_pos hb]
    · by_cases hb : 0 < v.header.has_blob <;> by_cases hbig : threshold < new_size
      · simp only [truncateData, if_pos hb, if_pos hbig, names_truncateFile]
        simp [hq]
      · simp only [truncateData, if_pos hb, if_neg hbig, mem_names_migrateDiskFileToBuffer]
        simp [hq, show q ≠ getDiskFilePath v.fstat.st_ino from hq]
      · simp only [truncateData, if_neg hb, if_pos hbig]
        split <;> simp [mem_names_migrateToDiskFile, hq]
      · simp only [truncateData, if_neg hb, if_neg hbig]
        simp [hq]
  unfold truncateValue
  dsimp only
  split
  · exact hdata
  · exact hdata

end Names

/-- A value and its data file: there is one exactly if the value says so, and the size is on the side of the
threshold where the data is. -/
structure Value.Filed (threshold : Nat) (d : Disk) (v : Value) : Prop where
  sized : v.Sized
  ranged : v.extent.Ranged threshold
  flag : v.header.has_blob ≤ 1
  file : 0 < v.header.has_blob ↔ dataPath v ∈ d.names

/-- What a request makes of a value and of its data file. Other data files stay. -/
structure Refiles (threshold : Nat) (d : Disk) (v : Value) (d' : Disk) (v' : Value) : Prop where
  filed : v'.Filed threshold d'
  ino : v'.fstat.st_ino = v.fstat.st_ino
  others : ∀ q, q ≠ dataPath v → (q ∈ d'.names ↔ q ∈ d.names)

section
variable {env : Env} {threshold : Nat} {d d' : Disk} {v v' : Value} {fd : Option Nat}

/-- Where no data file comes or goes, the value keeps the extent. -/
theorem Value.Filed.same (h : v.Filed threshold d) (hk : Keeps v v') (he : v'.extent = v.extent)
    (hn : ∀ q, q ∈ d'.names ↔ q ∈ d.names) : Refiles threshold d v d' v' := by
  have hblob : v'.header.has_blob = v.header.has_blob := congrArg Extent.has_blob he
  refine ⟨⟨hk.sized h.sized, he ▸ h.ranged, hblob ▸ h.flag, ?_⟩, hk.ino, fun q _ => hn q⟩
  rw [hblob, dataPath, hk.ino, hn]
  exact h.file

/-- A new name changes neither the number nor the place of the data. -/
theorem Value.Filed.renamed (h : v.Filed threshold d) (name : List UInt8) :
    Refiles threshold d v d (renameInodeValue v name) :=
  ⟨⟨(named_renameInodeValue v name).sized, (extent_renameInodeValue v name) ▸ h.ranged, h.flag, h.file⟩, rfl,
    fun _ _ => Iff.rfl⟩

/-- Inline data that a Write moves is on disk afterwards: the copy has something to write and is written, or there
is nothing to copy. -/
private theorem Value.Filed.blob_write (h : v.Filed threshold d) (fd : Option Nat) (flags fi_flags : OpenFlags)
    (buf : List UInt8) (offset : Nat) (hcopy : v.header.has_blob = 0 → threshold < offset + buf.length → 0 < v.fstat.st_size →
      env.migrate = .full ∧ fi_flags.writable = true) :
    (writeValue env threshold d v fd flags fi_flags buf offset).2.1.header.has_blob =
      if v.header.has_blob = 0 ∧ threshold < offset + buf.length then 1 else v.header.has_blob := by
  rcases extent_writeValue h.sized env threshold d fd flags fi_flags buf offset with
    ⟨hb, he⟩ | ⟨hb, hbig, hret, _, _⟩ | ⟨hb, hbig, _, he⟩ | ⟨hb, hle, _, he⟩
  · rw [if_neg fun hx => absurd hx.1 (Nat.ne_of_gt hb)]
    exact congrArg Extent.has_blob he
  · refine absurd ?_ hret
    rcases Nat.eq_zero_or_pos v.fstat.st_size with h0 | hpos
    · simp [migrateToDiskFile, h0]
    · exact migrateToDiskFile_ret (hcopy hb hbig hpos).1 (hcopy hb hbig hpos).2
  · rw [if_pos ⟨hb, hbig⟩]
    exact congrArg Extent.has_blob he
  · rw [if_neg fun hx => absurd hx.2 (Nat.not_lt.mpr hle), hb]
    exact congrArg Extent.has_blob he

theorem Value.Filed.write (h : v.Filed threshold d) (flags fi_flags : OpenFlags) (buf : List UInt8) (offset : Nat)
    (hcopy : v.header.has_blob = 0 → threshold < offset + buf.length → 0 < v.fstat.st_size →
      env.migrate = .full ∧ fi_flags.writable = true) :
    Refiles threshold d v (writeValue env threshold d v fd flags fi_flags buf offset).1
      (writeValue env threshold d v fd flags fi_flags buf offset).2.1 := by
  have hk := keeps_writeValue env threshold d v fd flags fi_flags buf offset
  have hn := mem_names_writeValue h.file.mp env threshold fd flags fi_flags buf offset
  have hblob := h.blob_write fd flags fi_flags buf offset hcopy
  refine ⟨⟨hk.sized h.sized, h.ranged.writeValue h.sized _ _ _ _, ?_, ?_⟩, hk.ino, fun q hq => ?_⟩
  · have := h.flag
    rw [hblob]
    split <;> omega
  · rw [hblob, dataPath, hk.ino, hn]
    change _ ↔ dataPath v ∈ d.names ∨ _ ∧ _ ∧ dataPath v = dataPath v
    rw [← h.file]
    simp only [and_true]
    split <;> omega
  · rw [hn]
    simp [hq]

private theorem Value.Filed.blob_truncate (h : v.Filed threshold d) (env : Env) (new_size : Nat) :
    (truncateValue env threshold d v new_size).2.1.header.has_blob = if threshold < new_size then 1 else 0 := by
  obtain ⟨inline, _, he⟩ := extent_truncateValue h.sized env threshold d new_size
  have hval : (truncateValue env threshold d v new_size).2.1.header.has_blob =
      (truncateValue env threshold d v new_size).2.1.extent.has_blob := rfl
  rw [hval, he]
  split
  · -- the size stays, on its side of the threshold
    have hflag := h.flag
    have hon := h.ranged.onDisk
    have hin := h.ranged.inlined
    simp only [Value.extent] at hon hin ⊢
    split <;> omega
  · rfl

theorem Value.Filed.truncate (h : v.Filed threshold d) (new_size : Nat) :
    Refiles threshold d v (truncateValue env threshold d v new_size).1
      (truncateValue env threshold d v new_size).2.1 := by
  have hk := keeps_truncateValue env threshold d v new_size
  have hn := mem_names_truncateValue h.file env threshold new_size
  have hblob := h.blob_truncate env new_size
  refine ⟨⟨hk.sized h.sized, h.ranged.truncateValue h.sized _, ?_, ?_⟩, hk.ino, fun q hq => ?_⟩
  · rw [hblob]
    split <;> omega
  · rw [hblob, dataPath, hk.ino, hn]
    change _ ↔ dataPath v ≠ dataPath v ∧ _ ∨ dataPath v = dataPath v ∧ _
    split <;> simp_all
  · rw [hn]
    simp [hq]

end

/-- The data files are those of the values that have one. -/
structure Inventory (threshold : Nat) (d : Disk) (values : MetaKey → Option Value) : Prop where
  filed : ∀ k v, values k = some v → v.Filed threshold d
  paths : ∀ k k' v v', values k = some v → values k' = some v' → dataPath v = dataPath v' → k = k'
  named : ∀ q ∈ d.names, ∃ k v, values k = some v ∧ dataPath v = q

namespace Inventory
variable {threshold : Nat} {d d' : Disk} {values : MetaKey → Option Value} {key old new : MetaKey} {v v' : Value}

private theorem eq_or_of_update {values : MetaKey → Option Value} {key k : MetaKey} {o : Option Value} {w : Value}
    (h : Function.update values key o k = some w) : k = key ∧ o = some w ∨ k ≠ key ∧ values k = some w := by
  by_cases hk : k = key
  · subst hk
    rw [Function.update_self] at h
    exact .inl ⟨rfl, h⟩
  · rw [Function.update_of_ne hk] at h
    exact .inr ⟨hk, h⟩

private theorem filed_of_other {w : Value} (hw : w.Filed threshold d)
    (hn : dataPath w ∈ d'.names ↔ dataPath w ∈ d.names) :
    w.Filed threshold d' := { hw with file := hw.file.trans hn.symm }

theorem update (h : Inventory threshold d values) (hv : values key = some v) (hr : Refiles threshold d v d' v') :
    Inventory threshold d' (Function.update values key (some v')) := by
  have hpath : dataPath v' = dataPath v := congrArg getDiskFilePath hr.ino
  refine ⟨fun k w hk => ?_, fun k k' w w' hk hk' hp => ?_, fun q hq => ?_⟩
  · rcases eq_or_of_update hk with ⟨_, he⟩ | ⟨hne, hk⟩
    · obtain rfl := Option.some.inj he
      exact hr.filed
    · exact filed_of_other (h.filed k w hk) (hr.others _ fun hp => hne (h.paths k key w v hk hv hp))
  · rcases eq_or_of_update hk with ⟨rfl, he⟩ | ⟨_, hold⟩ <;>
      rcases eq_or_of_update hk' with ⟨rfl, he'⟩ | ⟨_, hold'⟩
    · rfl
    · obtain rfl := Option.some.inj he
      exact h.paths k k' v w' hv hold' (hpath.symm.trans hp)
    · obtain rfl := Option.some.inj he'
      exact h.paths k k' w v hold hv (hp.trans hpath)
    · exact h.paths k k' w w' hold hold' hp
  · by_cases hqv : q = dataPath v
    · exact ⟨key, v', Function.update_self .., hpath.trans hqv.symm⟩
    · obtain ⟨k, w, hk, rfl⟩ := h.named q ((hr.others q hqv).mp hq)
      have hne : k ≠ key := by
        rintro rfl
        exact hqv (congrArg dataPath (Option.some.inj (hk.symm.trans hv)))
      exact ⟨k, w, by rw [Function.update_of_ne hne, hk], rfl⟩

/-- A value without a data file, under a path that is no other's. -/
theorem insert (h : Inventory threshold d values) (hnone : values key = none) (hs : v.Sized)
    (hr : v.extent.Ranged threshold) (hb : v.header.has_blob = 0)
    (hnew : ∀ k w, values k = some w → dataPath w ≠ dataPath v) :
    Inventory threshold d (Function.update values key (some v)) := by
  refine ⟨fun k w hk => ?_, fun k k' w w' hk hk' hp => ?_, fun q hq => ?_⟩
  · rcases eq_or_of_update hk with ⟨_, he⟩ | ⟨_, hk⟩
    · obtain rfl := Option.some.inj he
      refine ⟨hs, hr, by omega, ⟨fun hx => by omega, fun hx => ?_⟩⟩
      obtain ⟨k', w', hk', he'⟩ := h.named _ hx
      exact absurd he' (hnew k' w' hk')
    · exact h.filed k w hk
  · rcases eq_or_of_update hk with ⟨rfl, he⟩ | ⟨_, hold⟩ <;>
      rcases eq_or_of_update hk' with ⟨rfl, he'⟩ | ⟨_, hold'⟩
    · rfl
    · obtain rfl := Option.some.inj he
      exact absurd hp.symm (hnew k' w' hold')
    · obtain rfl := Option.some.inj he'
      exact absurd hp (hnew k w hold)
    · exact h.paths k k' w w' hold hold' hp
  · obtain ⟨k, w, hk, rfl⟩ := h.named q hq
    have hne : k ≠ key := by
      rintro rfl
      simp [hnone] at hk
    exact ⟨k, w, by rw [Function.update_of_ne hne, hk], rfl⟩

/-- A value goes with its data file. -/
theorem erase (h : Inventory threshold d values) (hv : values key = some v)
    (hn : ∀ q, q ∈ d'.names ↔ q ≠ dataPath v ∧ q ∈ d.names) :
    Inventory threshold d' (Function.update values key none) := by
  have hold {k : MetaKey} {w : Value} (hk : Function.update values key none k = some w) :
      k ≠ key ∧ values k = some w := by
    rcases eq_or_of_update hk with ⟨_, he⟩ | hk
    · cases he
    · exact hk
  refine ⟨fun k w hk => ?_, fun k k' w w' hk hk' => h.paths k k' w w' (hold hk).2 (hold hk').2, fun q hq => ?_⟩
  · obtain ⟨hne, hk⟩ := hold hk
    refine filed_of_other (h.filed k w hk) ?_
    rw [hn]
    exact and_iff_right fun hp => hne (h.paths k key w v hk hv hp)
  · obtain ⟨hqv, hq⟩ := (hn q).mp hq
    obtain ⟨k, w, hk, rfl⟩ := h.named q hq
    have hne : k ≠ key := by
      rintro rfl
      exact hqv (congrArg dataPath (Option.some.inj (hk.symm.trans hv)))
    exact ⟨k, w, by rw [Function.update_of_ne hne, hk], rfl⟩

/-- A value moves to another key. One that is replaced there must not have a data file. -/
theorem move (h : Inventory threshold d values) (hv : values old = some v)
    (hbare : ∀ w, values new = some w → w.header.has_blob = 0) (hr : Refiles threshold d v d v') :
    Inventory threshold d (Function.update (Function.update values old none) new (some v')) := by
  have hpath : dataPath v' = dataPath v := congrArg getDiskFilePath hr.ino
  refine ⟨fun k w hk => ?_, fun k k' w w' hk hk' hp => ?_, fun q hq => ?_⟩
  · rcases eq_or_of_moved hk with ⟨_, rfl⟩ | ⟨_, hk⟩
    · exact hr.filed
    · exact h.filed k w hk
  · rcases eq_or_of_moved hk with ⟨rfl, rfl⟩ | ⟨⟨_, hko⟩, hold⟩ <;>
      rcases eq_or_of_moved hk' with ⟨rfl, rfl⟩ | ⟨⟨_, hko'⟩, hold'⟩
    · rfl
    · exact absurd (h.paths old k' v w' hv hold' (hpath.symm.trans hp)).symm hko'
    · exact absurd (h.paths k old w v hold hv (hp.trans hpath)) hko
    · exact h.paths k k' w w' hold hold' hp
  · obtain ⟨k, w, hk, rfl⟩ := h.named q hq
    by_cases hko : k = old
    · obtain rfl := Option.some.inj ((hko ▸ hk).symm.trans hv)
      exact ⟨new, v', Function.update_self .., hpath⟩
    · have hkn : k ≠ new := by
        -- what is replaced has no data file
        rintro rfl
        exact absurd ((h.filed k w hk).file.mpr hq) (by rw [hbare w hk]; exact Nat.lt_irrefl 0)
      exact ⟨k, w, by rw [Function.update_of_ne hkn, Function.update_of_ne hko, hk], rfl⟩

end Inventory

end TableFS
