import TableFS.Leveldb.Crc32c

/-! The log file (db/log_writer.cc, db/log_reader.cc): records cut into fragments, and fragments put
into blocks, so that what is damaged in one block can be left out and reading goes on with the next.
Every reader of the source starts at offset 0. -/
namespace TableFS.Leveldb.Log
open Kv

def kBlockSize : Nat := 32768

/-- Four bytes of checksum, two of length and one of type. -/
def kHeaderSize : Nat := 4 + 1 + 2

inductive RecordType where
  | zero
  | full
  | first
  | middle
  | last
  deriving DecidableEq, Repr

def RecordType.code : RecordType → Nat
  | .zero => 0
  | .full => 1
  | .first => 2
  | .middle => 3
  | .last => 4

/-- The bytes of a fragment. The address of a buffer makes no difference to its checksum. -/
def physicalRecord (t : RecordType) (data : Bytes) : Bytes :=
  let crc := Crc32c.extend 0 (Crc32c.value 0 [.ofNat t.code]) data
  encodeFixed32 (Crc32c.mask crc) ++ [.ofNat (data.length &&& 0xff), .ofNat (data.length >>> 8), .ofNat t.code] ++ data

structure Writer where
  dest_ : Bytes
  block_offset_ : Nat

namespace Writer

def new : Writer := ⟨[], 0⟩

/-- A block without room for a header is filled up. -/
def switch (w : Writer) : Writer :=
  let leftover := kBlockSize - w.block_offset_
  if leftover < kHeaderSize then ⟨w.dest_ ++ List.replicate leftover 0, 0⟩ else w

def emitPhysicalRecord (w : Writer) (t : RecordType) (data : Bytes) : Writer :=
  ⟨w.dest_ ++ physicalRecord t data, w.block_offset_ + kHeaderSize + data.length⟩

/-- The room for data in the block. -/
def avail (w : Writer) : Nat := kBlockSize - w.block_offset_ - kHeaderSize

def fragmentType (begin_ end_ : Bool) : RecordType :=
  if begin_ && end_ then .full else if begin_ then .first else if end_ then .last else .middle

theorem switch_offset (w : Writer) : w.switch.block_offset_ + kHeaderSize ≤ kBlockSize := by
  unfold switch
  simp only
  split
  · exact show 0 + kHeaderSize ≤ kBlockSize by decide
  · simp only [kBlockSize, kHeaderSize] at *
    omega

/-- The loop of AddRecord. A fragment is empty if a block has room for a header only, and then the
next block has room for more. -/
def addLoop (w : Writer) (begin_ : Bool) (left : Bytes) : Writer :=
  let v := w.switch
  let fragment_length := if left.length < v.avail then left.length else v.avail
  let end_ := decide (left.length = fragment_length)
  let v' := v.emitPhysicalRecord (fragmentType begin_ end_) (left.take fragment_length)
  if 0 < (left.drop fragment_length).length then addLoop v' false (left.drop fragment_length) else v'
  termination_by 2 * left.length + if w.switch.avail = 0 then 1 else 0
  decreasing_by
    rename_i hleft
    have hoff := w.switch_offset
    simp only [List.length_drop] at *
    by_cases havail : w.switch.avail = 0
    · have hfrag : fragment_length = 0 := by simp [fragment_length, v, havail]
      have hnew : v'.switch.avail ≠ 0 := by
        have hfull : v'.block_offset_ = kBlockSize := by
          simp only [v', v, emitPhysicalRecord, hfrag, List.take_zero, List.length_nil, avail] at *
          omega
        simp [switch, hfull, avail, kBlockSize, kHeaderSize]
      rw [if_neg hnew, if_pos havail]
      omega
    · have hfrag : 0 < fragment_length := by
        simp only [fragment_length, v] at *
        split <;> omega
      split <;> split <;> omega

def addRecord (w : Writer) (slice : Bytes) : Writer := w.addLoop true slice

end Writer

/-- Why bytes are dropped. -/
inductive Reason where
  | ioError
  | truncatedRecord
  | badRecordLength
  | checksumMismatch
  | partialRecord (n : Nat)
  | missingStart (n : Nat)
  | errorInMiddle
  | unknownType (type : Nat)
  deriving DecidableEq, Repr

def Reason.text : Reason → String
  | .ioError => "IO error"
  | .truncatedRecord => "truncated record at end of file"
  | .badRecordLength => "bad record length"
  | .checksumMismatch => "checksum mismatch"
  | .partialRecord n => "partial record without end(" ++ toString n ++ ")"
  | .missingStart n => "missing start of fragmented record(" ++ toString n ++ ")"
  | .errorInMiddle => "error in middle of record"
  | .unknownType type => "unknown record type " ++ toString type

/-- The answers of the file to the next reads of a block: its bytes, or an error. Once they are used
up a read gives no bytes. -/
structure Reader where
  file_ : List (Option Bytes)
  checksum_ : Bool
  buffer_ : Bytes
  eof_ : Bool
  reports : List (Nat × Reason)

def kEof : Nat := 5
def kBadRecord : Nat := 6

namespace Reader

def new (file : List (Option Bytes)) (checksum : Bool) : Reader := ⟨file, checksum, [], false, []⟩

def note (r : Reader) (drops : List (Nat × Reason)) : Reader := { r with reports := r.reports ++ drops }

/-- A char as an unsigned int. -/
def charCode (c : UInt8) : Nat := if c.toNat < 128 then c.toNat else c.toNat + (2 ^ 32 - 256)

/-- What ReadPhysicalRecord makes of a buffer that has a header: the type and the fragment, what is left
of the buffer and the bytes that are dropped. -/
def parseBuffer (checksum : Bool) (header : Bytes) : Nat × Bytes × Bytes × List (Nat × Reason) :=
  let a := (header.getD 4 0).toNat
  let b := (header.getD 5 0).toNat
  let type := charCode (header.getD 6 0)
  let length := a ||| (b <<< 8)
  if header.length < kHeaderSize + length then (kBadRecord, [], [], [(header.length, .badRecordLength)])
  else if type = RecordType.zero.code ∧ length = 0 then (kBadRecord, [], [], [])
  else if checksum ∧ Crc32c.value 0 ((header.drop 6).take (1 + length)) ≠ Crc32c.unmask (decodeFixed32 header) then
    (kBadRecord, [], [], [(header.length, .checksumMismatch)])
  else (type, (header.drop kHeaderSize).take length, header.drop (kHeaderSize + length), [])

/-- A record's type, or one of the two other values. -/
def readPhysicalRecord (r : Reader) : Nat × Bytes × Reader :=
  if r.buffer_.length < kHeaderSize then
    if r.eof_ then
      if r.buffer_.length = 0 then (kEof, [], r)
      else (kEof, [], { r with buffer_ := [] }.note [(r.buffer_.length, .truncatedRecord)])
    else
      match _h : r.file_ with
      | none :: file => (kEof, [], { r with file_ := file, buffer_ := [], eof_ := true }.note [(kBlockSize, .ioError)])
      | some buffer :: file =>
        readPhysicalRecord { r with file_ := file, buffer_ := buffer, eof_ := decide (buffer.length < kBlockSize) }
      | [] => readPhysicalRecord { r with buffer_ := [], eof_ := true }
  else
    let q := parseBuffer r.checksum_ r.buffer_
    (q.1, q.2.1, { r with buffer_ := q.2.2.1 }.note q.2.2.2)
  termination_by 2 * r.file_.length + if r.eof_ then 0 else 1
  decreasing_by
    · rename_i heof
      have hlen := congrArg List.length _h
      rw [List.length_cons] at hlen
      rw [if_neg heof]
      split <;> omega
    · rename_i heof
      rw [if_neg heof]
      exact Nat.lt_succ_self _

/-- The bytes that are left. -/
def left (r : Reader) : Nat := r.buffer_.length + (r.file_.map fun b => (b.getD []).length).sum

theorem length_parseBuffer {checksum : Bool} {header : Bytes} (h : kHeaderSize ≤ header.length) :
    (parseBuffer checksum header).2.2.1.length < header.length := by
  have hpos : 0 < kHeaderSize := by decide
  unfold parseBuffer
  simp only
  split
  · exact Nat.lt_of_lt_of_le hpos h
  · split
    · exact Nat.lt_of_lt_of_le hpos h
    · split
      · exact Nat.lt_of_lt_of_le hpos h
      · rw [List.length_drop]
        omega

private theorem left_readPhysicalRecord (r : Reader) :
    r.readPhysicalRecord.1 = kEof ∨ r.readPhysicalRecord.2.2.left < r.left := by
  fun_induction readPhysicalRecord r with
  | case1 => exact .inl rfl
  | case2 => exact .inl rfl
  | case3 => exact .inl rfl
  | case4 r hlt heof buffer file hfile ih =>
    refine ih.imp_right fun h => Nat.lt_of_lt_of_le h ?_
    simp only [left, hfile, List.map_cons, List.sum_cons, Option.getD_some]
    omega
  | case5 r hlt heof hfile ih =>
    refine ih.imp_right fun h => Nat.lt_of_lt_of_le h ?_
    simp only [left, List.length_nil]
    omega
  | case6 r hlt => exact .inr (Nat.add_lt_add_right (length_parseBuffer (Nat.le_of_not_lt hlt)) _)

/-- What ReadRecord does with a fragment: it returns, or it goes on with a record in progress or not. -/
inductive Outcome where
  | returns (record : Option Bytes)
  | continues (in_fragmented_record : Bool) (scratch : Bytes)

/-- The switch of ReadRecord, with the reports it makes. -/
def switchRecord (in_fragmented_record : Bool) (scratch : Bytes) (record_type : Nat) (fragment : Bytes) :
    Outcome × List (Nat × Reason) :=
  -- a record in progress is dropped without a report if nothing of it was read
  let dropped (n : Nat) := if in_fragmented_record && scratch ≠ [] then [(scratch.length, Reason.partialRecord n)] else []
  if record_type = RecordType.full.code then (.returns (some fragment), dropped 1)
  else if record_type = RecordType.first.code then (.continues true fragment, dropped 2)
  else if record_type = RecordType.middle.code then
    if in_fragmented_record then (.continues true (scratch ++ fragment), [])
    else (.continues false scratch, [(fragment.length, .missingStart 1)])
  else if record_type = RecordType.last.code then
    if in_fragmented_record then (.returns (some (scratch ++ fragment)), [])
    else (.continues false scratch, [(fragment.length, .missingStart 2)])
  else if record_type = kEof then
    (.returns none, if in_fragmented_record then [(scratch.length, .partialRecord 3)] else [])
  else if record_type = kBadRecord then
    if in_fragmented_record then (.continues false [], [(scratch.length, .errorInMiddle)])
    else (.continues false scratch, [])
  else
    (.continues false [], [(fragment.length + if in_fragmented_record then scratch.length else 0, .unknownType record_type)])

theorem switchRecord_ne_eof {i i' : Bool} {scratch scratch' fragment : Bytes} {record_type : Nat}
    {l : List (Nat × Reason)} (h : switchRecord i scratch record_type fragment = (.continues i' scratch', l)) :
    record_type ≠ kEof := by
  rintro rfl
  cases (Prod.mk.inj h).1

/-- The loop of ReadRecord: a record, or the end of the file. -/
def readLoop (r : Reader) (in_fragmented_record : Bool) (scratch : Bytes) : Option Bytes × Reader :=
  match _h : switchRecord in_fragmented_record scratch r.readPhysicalRecord.1 r.readPhysicalRecord.2.1 with
  | (.returns record, l) => (record, r.readPhysicalRecord.2.2.note l)
  | (.continues in_fragmented_record scratch, l) =>
      readLoop (r.readPhysicalRecord.2.2.note l) in_fragmented_record scratch
  termination_by r.left
  decreasing_by exact (left_readPhysicalRecord r).resolve_left (switchRecord_ne_eof _h)

def readRecord (r : Reader) : Option Bytes × Reader := r.readLoop false []

private theorem left_readLoop (r : Reader) (i : Bool) (scratch : Bytes) :
    (r.readLoop i scratch).1 = none ∨ (r.readLoop i scratch).2.left < r.left := by
  fun_induction readLoop r i scratch with
  | case1 r i scratch record l h =>
    refine (left_readPhysicalRecord r).imp_left fun heof => ?_
    rw [heof] at h
    exact (Outcome.returns.inj (Prod.mk.inj h).1).symm
  | case2 r i scratch i' scratch' l h ih =>
    exact ih.imp_right fun hlt => Nat.lt_trans hlt ((left_readPhysicalRecord r).resolve_left (switchRecord_ne_eof h))

/-- The records of the file, until ReadRecord finds no more. -/
def readAll (r : Reader) : List Bytes × Reader :=
  match _h : r.readRecord with
  | (none, r') => ([], r')
  | (some record, r') => (record :: (readAll r').1, (readAll r').2)
  termination_by r.left
  decreasing_by
    all_goals
      have hleft := left_readLoop r false []
      rw [show r.readLoop false [] = (some record, r') from _h] at hleft
      exact hleft.resolve_left nofun

end Reader
end TableFS.Leveldb.Log
