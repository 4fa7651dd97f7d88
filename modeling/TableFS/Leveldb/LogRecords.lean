import TableFS.Leveldb.LogLayout

/-! The records of a log: what AddRecord writes is read back by ReadRecord, also of a file that ends
early or is damaged. -/
namespace TableFS.Leveldb.Log
open Kv Reader

/-- The fragments of a record after its first one. -/
inductive Rest : List Event → Bytes → Prop where
  | last (data : Bytes) : Rest [⟨RecordType.last.code, data, []⟩] data
  | middle (data : Bytes) {es : List Event} {record : Bytes} (h : Rest es record) :
      Rest (⟨RecordType.middle.code, data, []⟩ :: es) (data ++ record)

/-- The fragments of a record. -/
inductive Spells : List Event → Bytes → Prop where
  | full (data : Bytes) : Spells [⟨RecordType.full.code, data, []⟩] data
  | first (data : Bytes) {es : List Event} {record : Bytes} (h : Rest es record) :
      Spells (⟨RecordType.first.code, data, []⟩ :: es) (data ++ record)

section
variable {i : Bool} {scratch record : Bytes} {e : Event} {es es₁ es₂ : List Event}

/-- Fragments by which no record ends. -/
def Open (es : List Event) : Prop := ∀ e ∈ es, e.type = RecordType.first.code ∨ e.type = RecordType.middle.code

theorem Open.assemble (h : Open es) (i : Bool) (scratch : Bytes) :
    ∃ i' scratch', ∀ es', (assemble i scratch (es ++ es')).1 = (Log.assemble i' scratch' es').1 := by
  induction es generalizing i scratch with
  | nil => exact ⟨i, scratch, fun _ => rfl⟩
  | cons e es ih =>
    have hrest := ih fun x hx => h x (List.mem_cons_of_mem e hx)
    rcases h e List.mem_cons_self with he | he
    · obtain ⟨i', scratch', hes⟩ := hrest true e.data
      exact ⟨i', scratch', fun es' => by rw [List.cons_append, Log.assemble, he]; exact hes es'⟩
    · cases i with
      | true =>
        obtain ⟨i', scratch', hes⟩ := hrest true (scratch ++ e.data)
        exact ⟨i', scratch', fun es' => by rw [List.cons_append, Log.assemble, he]; exact hes es'⟩
      | false =>
        obtain ⟨i', scratch', hes⟩ := hrest false scratch
        exact ⟨i', scratch', fun es' => by rw [List.cons_append, Log.assemble, he]; exact hes es'⟩

private theorem switchRecord_false (scratch : Bytes) (type : Nat) (data : Bytes) :
    switchRecord false scratch type data = switchRecord false [] type data ∨
      ∃ drops, switchRecord false scratch type data = (.continues false scratch, drops) ∧
        switchRecord false [] type data = (.continues false [], drops) := by
  simp only [switchRecord, Bool.false_and, Bool.false_eq_true, if_false]
  split_ifs
  · exact .inl rfl
  · exact .inl rfl
  · exact .inr ⟨_, rfl, rfl⟩
  · exact .inr ⟨_, rfl, rfl⟩
  · exact .inl rfl
  · exact .inr ⟨_, rfl, rfl⟩
  · exact .inl rfl

/-- If no record is in progress, nothing counts of what was read before. -/
theorem assemble_false (scratch : Bytes) (es : List Event) : assemble false scratch es = assemble false [] es := by
  induction es with
  | nil => rfl
  | cons e es ih =>
    rcases switchRecord_false scratch e.type e.data with h | ⟨drops, h, h'⟩
    · rw [assemble, h, assemble]
    · simp only [assemble, h, h', ih]

theorem Rest.assemble (h : Rest es record) (scratch : Bytes) (es' : List Event) :
    assemble true scratch (es ++ es') = ((scratch ++ record) :: (assemble false [] es').1, (Log.assemble false [] es').2) := by
  induction h generalizing scratch with
  | last data => rfl
  | middle data _ ih =>
    rw [← List.append_assoc, ← ih]
    rfl

/-- Fragments by which no record starts. -/
def Startless (es : List Event) : Prop := ∀ e ∈ es, e.type = RecordType.middle.code ∨ e.type = RecordType.last.code

theorem Rest.startless (h : Rest es record) : Startless es := by
  induction h with
  | last data => simp [Startless]
  | middle data _ ih =>
    rintro e (_ | ⟨_, he⟩)
    · exact .inl rfl
    · exact ih e he

/-- Fragments without the start of their record are left out. -/
theorem Startless.assemble (h : Startless es) (es' : List Event) :
    (Log.assemble false [] (es ++ es')).1 = (Log.assemble false [] es').1 := by
  induction es with
  | nil => rfl
  | cons e es ih =>
    have hrest := ih fun x hx => h x (List.mem_cons_of_mem e hx)
    rcases h e List.mem_cons_self with he | he <;>
    · rw [List.cons_append, Log.assemble, he]
      exact hrest

/-- A record is read whatever was in progress. -/
theorem Spells.assemble (h : Spells es record) (i : Bool) (scratch : Bytes) (es' : List Event) :
    (assemble i scratch (es ++ es')).1 = record :: (Log.assemble false [] es').1 := by
  cases h with
  | full data => rfl
  | first data h => exact show (Log.assemble true data (_ ++ es')).1 = _ by rw [h.assemble]

theorem Spells.reports (h : Spells es record) (es' : List Event) :
    (Log.assemble false [] (es ++ es')).2 = (Log.assemble false [] es').2 := by
  cases h with
  | full data => rfl
  | first data h => exact show (Log.assemble true data (_ ++ es')).2 = _ by rw [h.assemble]

end

namespace Writer
variable {w : Writer}

theorem switch_laid (w : Writer) :
    ∃ pad, w.switch.dest_ = w.dest_ ++ pad ∧ Laid w.block_offset_ pad [] w.switch.block_offset_ := by
  unfold switch
  simp only
  split
  · rename_i hlt
    refine ⟨List.replicate (kBlockSize - w.block_offset_) 0, rfl, ?_⟩
    have hlaid := Laid.pad (List.length_replicate (n := kBlockSize - w.block_offset_) (a := (0 : UInt8)))
      (by rwa [List.length_replicate]) (.nil 0)
    rwa [List.append_nil] at hlaid
  · exact ⟨[], (List.append_nil _).symm, .nil _⟩

private theorem addLoop_laid (w : Writer) (begin_ : Bool) (left : Bytes) :
    ∃ out es t data mid, (w.addLoop begin_ left) =
      ⟨w.dest_ ++ (out ++ physicalRecord t data), mid + kHeaderSize + data.length⟩ ∧
      Laid w.block_offset_ out es mid ∧ t ≠ .zero ∧ mid + kHeaderSize + data.length ≤ kBlockSize ∧ Open es ∧
      if begin_ then Spells (es ++ [⟨t.code, data, []⟩]) left else Rest (es ++ [⟨t.code, data, []⟩]) left := by
  fun_induction addLoop w begin_ left with
  | case1 w begin_ left v n end_ v' hpos ih =>
    obtain ⟨pad, hdest, hpad⟩ := w.switch_laid
    have hv : v.block_offset_ + kHeaderSize ≤ kBlockSize := w.switch_offset
    rw [List.length_drop] at hpos
    have hn : n ≤ v.avail ∧ (left.take n).length = n := by
      rw [List.length_take]
      simp only [n] at *
      split_ifs at * <;> omega
    have hfit : v.block_offset_ + kHeaderSize + (left.take n).length ≤ kBlockSize := by
      rw [hn.2]
      simp only [avail] at hn
      omega
    have hend : end_ = false := decide_eq_false (by omega)
    obtain ⟨out, es, t, data, mid, heq, hlaid, ht, hmid, hopen, hspells⟩ := ih
    rw [if_neg Bool.false_ne_true] at hspells
    refine ⟨pad ++ (physicalRecord (fragmentType begin_ end_) (left.take n) ++ out),
      ⟨(fragmentType begin_ end_).code, left.take n, []⟩ :: es, t, data, mid, ?_, ?_, ht, hmid, ?_, ?_⟩
    · rw [heq]
      simp only [v', emitPhysicalRecord, v, hdest, List.append_assoc]
    · refine hpad.append (.fragment ?_ hfit hlaid)
      rw [hend]
      cases begin_ <;> decide
    · rintro e (_ | ⟨_, he⟩)
      · rw [hend]
        cases begin_ with
        | true => exact .inl rfl
        | false => exact .inr rfl
      · exact hopen e he
    · rw [hend, List.cons_append]
      cases begin_ with
      | true =>
        have h := Spells.first (left.take n) hspells
        rwa [List.take_append_drop] at h
      | false =>
        have h := Rest.middle (left.take n) hspells
        rwa [List.take_append_drop] at h
  | case2 w begin_ left v n end_ v' hpos =>
    obtain ⟨pad, hdest, hpad⟩ := w.switch_laid
    have hv : v.block_offset_ + kHeaderSize ≤ kBlockSize := w.switch_offset
    rw [List.length_drop] at hpos
    have hn : n ≤ v.avail ∧ n = left.length := by
      simp only [n] at *
      split_ifs at * <;> omega
    have htake : left.take n = left := by rw [hn.2, List.take_length]
    have hend : end_ = true := decide_eq_true hn.2.symm
    refine ⟨pad, [], fragmentType begin_ end_, left.take n, v.block_offset_, ?_, hpad, ?_, ?_, nofun, ?_⟩
    · simp only [v', emitPhysicalRecord, v, hdest, List.append_assoc]
    · rw [hend]
      cases begin_ <;> decide
    · rw [htake, ← hn.2]
      simp only [avail] at hn
      omega
    · rw [hend, htake]
      cases begin_ with
      | true => exact .full left
      | false => exact .last left

private theorem length_switch (w : Writer) : w.dest_.length ≤ w.switch.dest_.length := by
  obtain ⟨pad, hdest, -⟩ := w.switch_laid
  rw [hdest, List.length_append]
  exact Nat.le_add_right _ _

/-- A record takes at least the room of its data. -/
theorem length_addLoop (w : Writer) (begin_ : Bool) (left : Bytes) :
    w.dest_.length + left.length ≤ (w.addLoop begin_ left).dest_.length := by
  have hemit (v : Writer) (t : RecordType) (data : Bytes) : (v.emitPhysicalRecord t data).dest_.length =
      v.dest_.length + (kHeaderSize + data.length) := by
    rw [emitPhysicalRecord, List.length_append, length_physicalRecord]
  fun_induction addLoop w begin_ left with
  | case1 w begin_ left v n end_ v' hpos ih =>
    have hswitch := w.length_switch
    simp only [v', v, hemit, List.length_take, List.length_drop] at ih ⊢
    omega
  | case2 w begin_ left v n end_ v' hpos =>
    have hswitch := w.length_switch
    simp only [v', v, hemit, List.length_take, List.length_drop] at hpos ⊢
    omega

private theorem addRecord_laid (w : Writer) (record : Bytes) :
    ∃ out es, (w.addRecord record).dest_ = w.dest_ ++ out ∧
      Laid w.block_offset_ out es (w.addRecord record).block_offset_ ∧
      Spells es record := by
  obtain ⟨out, es, t, data, mid, heq, hlaid, ht, hmid, -, hspells⟩ := w.addLoop_laid true record
  rw [if_pos rfl] at hspells
  refine ⟨out ++ physicalRecord t data, es ++ [⟨t.code, data, []⟩], by rw [addRecord, heq], ?_, hspells⟩
  have hlast := hlaid.append (.fragment ht hmid (.nil _))
  rw [List.append_nil] at hlast
  rwa [addRecord, heq]

/-- The bytes of records are the fragments of one after the other. -/
theorem records_laid (w : Writer) (records : List Bytes) :
    ∃ out parts, (records.foldl addRecord w).dest_ = w.dest_ ++ out ∧
      Laid w.block_offset_ out parts.flatten (records.foldl addRecord w).block_offset_ ∧
        List.Forall₂ Spells parts records := by
  induction records generalizing w with
  | nil => exact ⟨[], [], (List.append_nil _).symm, .nil _, .nil⟩
  | cons record records ih =>
    obtain ⟨out, es, hdest, hlaid, hspells⟩ := w.addRecord_laid record
    obtain ⟨out', parts, hdest', hlaid', hparts⟩ := ih (w.addRecord record)
    refine ⟨out ++ out', es :: parts, ?_, hlaid.append hlaid', .cons hspells hparts⟩
    rw [List.foldl_cons, hdest', hdest, List.append_assoc]

end Writer

section
variable {checksum : Bool} {parts : List (List Event)} {records : List Bytes}

theorem assemble_parts (h : List.Forall₂ Spells parts records) (es : List Event) :
    assemble false [] (parts.flatten ++ es) = (records ++ (assemble false [] es).1, (assemble false [] es).2) := by
  induction h with
  | nil => rfl
  | cons hp _ ih =>
    rw [List.flatten_cons, List.append_assoc]
    exact Prod.ext (by rw [hp.assemble, ih]; rfl) (by rw [hp.reports, ih])

theorem Blank.assemble {es : List Event} (h : Blank es) (i : Bool) (scratch : Bytes) :
    (assemble i scratch es).1 = [] := by
  induction es generalizing i scratch with
  | nil => rfl
  | cons e es ih =>
    have hrest := ih fun x hx => h x (List.mem_cons_of_mem e hx)
    rcases h e List.mem_cons_self with he | he
    · rw [Log.assemble, he]
      rfl
    · rw [Log.assemble, he]
      cases i with
      | true => exact hrest false []
      | false => exact hrest false scratch

private theorem blank_scan_zeros (n : Nat) : Blank (scan checksum (List.replicate n 0)).1 := by
  by_cases h : n < kHeaderSize
  · rw [scan_short (by rwa [List.length_replicate])]
    exact nofun
  · have hget (i : Nat) : (List.replicate n (0 : UInt8)).getD i 0 = 0 := by
      rw [List.getD_eq_getElem?_getD, List.getElem?_replicate]
      split <;> rfl
    have hparse : parseBuffer checksum (List.replicate n 0) = (kBadRecord, [], [], []) := by
      rw [parseBuffer, hget, hget, hget, if_neg, if_pos]
      · exact ⟨rfl, rfl⟩
      · rw [List.length_replicate]
        exact h
    rw [scan_long (by rwa [List.length_replicate]), hparse, scan_nil]
    exact fun e he => .inr (List.mem_singleton.mp he ▸ rfl)

private theorem blank_scanAt_zeros_of {off n : Nat}
    (h : Blank (scanAt checksum 0 (List.replicate (n - (kBlockSize - off)) 0))) :
    Blank (scanAt checksum off (List.replicate n 0)) := by
  unfold scanAt
  split
  · intro e he
    rcases List.mem_append.mp he with he | he
    · exact blank_scan_zeros n e he
    · exact blank_tail _ e he
  · rw [List.take_replicate, List.drop_replicate, fileScan_blocks]
    intro e he
    rcases List.mem_append.mp he with he | he
    · exact blank_scan_zeros _ e he
    · exact h e he

private theorem blank_scanAt_zeros (off n : Nat) : Blank (scanAt checksum off (List.replicate n 0)) := by
  refine blank_scanAt_zeros_of ?_
  -- from here on whole blocks
  induction n - (kBlockSize - off) using Nat.strong_induction_on with
  | _ n ih =>
    refine blank_scanAt_zeros_of ?_
    rcases Nat.eq_zero_or_pos n with rfl | hpos
    · rw [Nat.zero_sub, List.replicate_zero, scanAt_nil]
      exact blank_tail []
    · exact ih _ (Nat.sub_lt hpos (by decide))

private theorem scanAt_take_addRecord (w : Writer) (record : Bytes) {k : Nat}
    (hlt : w.dest_.length + k < (w.addRecord record).dest_.length) (i : Bool) (scratch : Bytes) :
    (assemble i scratch (scanAt checksum w.block_offset_ (((w.addRecord record).dest_.drop w.dest_.length).take k))).1 = [] := by
  obtain ⟨out, es, t, data, mid, heq, hlaid, ht, hmid, hopen, -⟩ := w.addLoop_laid true record
  rw [Writer.addRecord, heq, List.length_append, List.length_append] at hlt
  rw [Writer.addRecord, heq, List.drop_left]
  -- the file ends before the last fragment, or in it
  by_cases hk : k < out.length
  · obtain ⟨es₁, es₂, blank, rfl, hblank, hscan⟩ := hlaid.scanAt_take checksum hk
    obtain ⟨i', scratch', hes⟩ := Open.assemble (fun e he => hopen e (List.mem_append_left _ he)) i scratch
    rw [List.take_append_of_le_length hk.le, hscan, hes, hblank.assemble]
  · obtain ⟨j, rfl⟩ := Nat.exists_eq_add_of_le (Nat.le_of_not_lt hk)
    obtain ⟨i', scratch', hes⟩ := hopen.assemble i scratch
    rw [List.take_length_add_append, hlaid.scanAt, hes]
    exact (blank_take_physicalRecord hmid (by omega)).assemble i' scratch'

private theorem scanAt_take_records (checksum : Bool) (w : Writer) (records : List Bytes) (k : Nat) :
    ∃ m ≤ records.length,
      (assemble false [] (scanAt checksum w.block_offset_ (((records.foldl .addRecord w).dest_.drop w.dest_.length).take k))).1 =
        records.take m ∧
      ((records.take m).foldl .addRecord w).dest_.length ≤ w.dest_.length + k ∧
      (m < records.length → w.dest_.length + k < ((records.take (m + 1)).foldl .addRecord w).dest_.length) := by
  induction records generalizing w k with
  | nil =>
    refine ⟨0, Nat.le_refl 0, ?_, Nat.le_add_right _ _, nofun⟩
    rw [List.foldl_nil, List.drop_length, List.take_nil, scanAt_nil]
    rfl
  | cons record records ih =>
    obtain ⟨out, es, hdest, hlaid, hspells⟩ := w.addRecord_laid record
    obtain ⟨out', -, hdest', -, -⟩ := (w.addRecord record).records_laid records
    have hdrop : (w.addRecord record).dest_.drop w.dest_.length = out := by rw [hdest, List.drop_left]
    have hdrop' : ((record :: records).foldl .addRecord w).dest_.drop w.dest_.length = out ++ out' := by
      rw [List.foldl_cons, hdest', hdest, List.append_assoc, List.drop_left]
    rw [hdrop']
    by_cases hk : w.dest_.length + k < (w.addRecord record).dest_.length
    · have hout : k < out.length := by
        rw [hdest, List.length_append] at hk
        omega
      refine ⟨0, Nat.zero_le _, ?_, Nat.le_add_right _ _, fun _ => hk⟩
      rw [List.take_append_of_le_length hout.le, ← hdrop]
      exact scanAt_take_addRecord w record hk false []
    · rw [hdest, List.length_append] at hk
      obtain ⟨j, rfl⟩ := Nat.exists_eq_add_of_le (show out.length ≤ k by omega)
      obtain ⟨m, hm, hread, hle, hlt⟩ := ih (w.addRecord record) j
      have hlen : (w.addRecord record).dest_.length + j = w.dest_.length + (out.length + j) := by
        rw [hdest, List.length_append, Nat.add_assoc]
      rw [hlen] at hle hlt
      refine ⟨m + 1, Nat.succ_le_succ hm, ?_, hle, fun h => hlt (Nat.lt_of_succ_lt_succ h)⟩
      rw [hdest', List.drop_left] at hread
      rw [List.take_length_add_append, hlaid.scanAt, hspells.assemble, hread, List.take_succ_cons]

/-- The file after these records. -/
def written (records : List Bytes) : Bytes := (records.foldl .addRecord Writer.new).dest_

/-- The records of a file, and what the reader reports. -/
def readFile (checksum : Bool) (file : Bytes) : List Bytes × List (Nat × Reason) :=
  let q := (Reader.new (blocks file) checksum).readAll
  (q.1, q.2.reports)

theorem readFile_eq (file : Bytes) : readFile checksum file = assemble false [] (scanAt checksum 0 file) := by
  have hevents : (Reader.new (blocks file) checksum).events = scanAt checksum 0 file := by
    rw [Reader.events, Reader.new, scan_nil, ← fileScan_blocks]
    rfl
  obtain ⟨hrecords, hreports⟩ := readAll_eq (Reader.new (blocks file) checksum)
  rw [hevents] at hrecords hreports
  exact Prod.ext hrecords hreports

theorem readFile_written (checksum : Bool) (records : List Bytes) (rest : Bytes) :
    ∃ off, readFile checksum (written records ++ rest) =
    (records ++ (assemble false [] (scanAt checksum off rest)).1,
      (assemble false [] (scanAt checksum off rest)).2) := by
  obtain ⟨out, parts, hdest, hlaid, hparts⟩ := Writer.new.records_laid records
  have hscan := hlaid.scanAt checksum rest
  rw [← show written records = out from hdest] at hscan
  exact ⟨_, (readFile_eq _).trans ((congrArg _ hscan).trans (assemble_parts hparts _))⟩

/-- Records are read back as they were written, and nothing is reported. If the file ends early those
records are read that were written before its end, and no other. Whatever is found after the records
does not change them, and zeros after them add none. -/
theorem log_reads_what_was_written (records : List Bytes) (checksum : Bool) :
    readFile checksum (written records) = (records, []) ∧
    (∀ k, ∃ m ≤ records.length, (readFile checksum ((written records).take k)).1 = records.take m ∧
      (written (records.take m)).length ≤ k ∧ (m < records.length → k < (written (records.take (m + 1))).length)) ∧
    (∀ junk, ∃ more, (readFile checksum (written records ++ junk)).1 = records ++ more) ∧
    ∀ n, (readFile checksum (written records ++ List.replicate n 0)).1 = records := by
  refine ⟨?_, fun k => ?_, fun junk => ?_, fun n => ?_⟩
  · obtain ⟨off, h⟩ := readFile_written checksum records []
    rw [List.append_nil, scanAt_nil] at h
    exact h.trans (Prod.ext (List.append_nil _) rfl)
  · obtain ⟨m, hm, hread, hle, hlt⟩ := scanAt_take_records checksum Writer.new records k
    simp only [Writer.new, List.length_nil, Nat.zero_add, List.drop_zero] at hread hle hlt
    exact ⟨m, hm, by rw [readFile_eq]; exact hread, hle, hlt⟩
  · obtain ⟨off, h⟩ := readFile_written checksum records junk
    exact ⟨_, by rw [h]⟩
  · obtain ⟨off, h⟩ := readFile_written checksum records (List.replicate n 0)
    rw [h, (blank_scanAt_zeros off n).assemble, List.append_nil]

end

end TableFS.Leveldb.Log
