import TableFS.Leveldb.Log

/-! Reading a log, block by block: every block gives fragments that depend on nothing else, and the
records are put together from all of them. -/
namespace TableFS.Leveldb.Log
open Kv Reader

/-- What ReadPhysicalRecord gives: a type, a fragment, and the bytes that it reports as dropped. -/
structure Event where
  type : Nat
  data : Bytes
  drops : List (Nat × Reason)

def Event.eof (drops : List (Nat × Reason)) : Event := ⟨kEof, [], drops⟩

/-- The events of a buffer, and what is left at its end. -/
def scan (checksum : Bool) (buffer : Bytes) : List Event × Bytes :=
  if h : buffer.length < kHeaderSize then ([], buffer)
  else
    let q := parseBuffer checksum buffer
    have : q.2.2.1.length < buffer.length := length_parseBuffer (Nat.le_of_not_lt h)
    (⟨q.1, q.2.1, q.2.2.2⟩ :: (scan checksum q.2.2.1).1, (scan checksum q.2.2.1).2)
  termination_by buffer.length

/-- The end of a file of which the last block ends like this. -/
def tail (left : Bytes) : List Event := [.eof (if left.length = 0 then [] else [(left.length, .truncatedRecord)])]

/-- The events of the blocks that are still to be read. -/
def fileScan (checksum : Bool) : List (Option Bytes) → List Event
  | [] => [.eof []]
  | none :: _ => [.eof [(kBlockSize, .ioError)]]
  | some buffer :: file =>
    (scan checksum buffer).1 ++
      if buffer.length < kBlockSize then tail (scan checksum buffer).2 else fileScan checksum file

def Reader.events (r : Reader) : List Event :=
  (scan r.checksum_ r.buffer_).1 ++ if r.eof_ then tail (scan r.checksum_ r.buffer_).2 else fileScan r.checksum_ r.file_

/-- The records that a sequence of events comes to, and all that is reported. -/
def assemble (in_fragmented_record : Bool) (scratch : Bytes) : List Event → List Bytes × List (Nat × Reason)
  | [] => ([], [])
  | e :: es =>
    let q := switchRecord in_fragmented_record scratch e.type e.data
    match q.1 with
    | .returns none => ([], e.drops ++ q.2)
    | .returns (some record) => (record :: (assemble false [] es).1, e.drops ++ q.2 ++ (assemble false [] es).2)
    | .continues i scratch => ((assemble i scratch es).1, e.drops ++ q.2 ++ (assemble i scratch es).2)

section
variable {r : Reader} {checksum : Bool} {buffer : Bytes}

theorem scan_short (h : buffer.length < kHeaderSize) : scan checksum buffer = ([], buffer) := by
  rw [scan, dif_pos h]

theorem scan_long (h : ¬ buffer.length < kHeaderSize) :
    scan checksum buffer =
      (⟨(parseBuffer checksum buffer).1, (parseBuffer checksum buffer).2.1, (parseBuffer checksum buffer).2.2.2⟩ ::
        (scan checksum (parseBuffer checksum buffer).2.2.1).1,
          (scan checksum (parseBuffer checksum buffer).2.2.1).2) := by
  rw [scan, dif_neg h]

theorem scan_nil : scan checksum [] = ([], []) := scan_short (by decide)

private theorem readPhysicalRecord_events (r : Reader) :
    ∃ e es, r.events = e :: es ∧ r.readPhysicalRecord.1 = e.type ∧ r.readPhysicalRecord.2.1 = e.data ∧
      r.readPhysicalRecord.2.2.reports = r.reports ++ e.drops ∧
        (r.readPhysicalRecord.2.2.events = es ∨ e.type = kEof) := by
  fun_induction readPhysicalRecord r with
  | case1 r hlt heof hzero =>
    refine ⟨.eof [], [], ?_, rfl, rfl, (List.append_nil _).symm, .inr rfl⟩
    simp [Reader.events, scan_short hlt, heof, tail, hzero]
  | case2 r hlt heof hpos =>
    refine ⟨.eof [(r.buffer_.length, .truncatedRecord)], [], ?_, rfl, rfl, rfl, .inr rfl⟩
    simp [Reader.events, scan_short hlt, heof, tail, hpos]
  | case3 r hlt heof file hfile =>
    refine ⟨.eof [(kBlockSize, .ioError)], [], ?_, rfl, rfl, rfl, .inr rfl⟩
    simp [Reader.events, scan_short hlt, heof, hfile, fileScan]
  | case4 r hlt heof buffer file hfile ih =>
    obtain ⟨e, es, he, hrest⟩ := ih
    refine ⟨e, es, ?_, hrest⟩
    rw [← he]
    by_cases hb : buffer.length < kBlockSize <;> simp [Reader.events, scan_short hlt, heof, hfile, fileScan, hb]
  | case5 r hlt heof hfile ih =>
    obtain ⟨e, es, he, hrest⟩ := ih
    refine ⟨e, es, ?_, hrest⟩
    rw [← he]
    simp [Reader.events, scan_short hlt, scan_nil, heof, hfile, fileScan, tail]
  | case6 r hlt q =>
    refine ⟨⟨q.1, q.2.1, q.2.2.2⟩, ({ r with buffer_ := q.2.2.1 }.note q.2.2.2).events, ?_, rfl, rfl, rfl, .inl rfl⟩
    rw [Reader.events, scan_long hlt]
    rfl

private theorem events_note (r : Reader) (drops : List (Nat × Reason)) : (r.note drops).events = r.events := rfl

private theorem readLoop_events (r : Reader) (i : Bool) (scratch : Bytes) :
    ∃ drops, (r.readLoop i scratch).2.reports = r.reports ++ drops ∧
      match (r.readLoop i scratch).1 with
      | none => assemble i scratch r.events = ([], drops)
      | some record => assemble i scratch r.events =
          (record :: (assemble false [] (r.readLoop i scratch).2.events).1,
            drops ++ (assemble false [] (r.readLoop i scratch).2.events).2) := by
  fun_induction readLoop r i scratch with
  | case1 r i scratch record l h =>
    obtain ⟨e, es, he, ht, hd, hreports, hes⟩ := readPhysicalRecord_events r
    rw [ht, hd] at h
    refine ⟨e.drops ++ l, by rw [Reader.note, hreports, List.append_assoc], ?_⟩
    cases record with
    | none => simp only [he, assemble, h]
    | some record =>
      have hne : e.type ≠ kEof := by
        intro h5
        rw [h5] at h
        cases (Outcome.returns.inj (Prod.mk.inj h).1)
      simp only [he, assemble, h, events_note, hes.resolve_right hne]
  | case2 r i scratch i' scratch' l h ih =>
    obtain ⟨e, es, he, ht, hd, hreports, hes⟩ := readPhysicalRecord_events r
    have hne := switchRecord_ne_eof h
    rw [ht] at hne
    rw [ht, hd] at h
    obtain ⟨drops, hdrops, hmatch⟩ := ih
    refine ⟨e.drops ++ l ++ drops, ?_, ?_⟩
    · rw [hdrops, Reader.note, hreports, List.append_assoc, List.append_assoc, List.append_assoc]
    · rw [events_note, hes.resolve_right hne] at hmatch
      cases hr : ((r.readPhysicalRecord.2.2.note l).readLoop i' scratch').1 with
      | none =>
        simp only [hr] at hmatch
        simp only [he, assemble, h, hmatch]
      | some record =>
        simp only [hr] at hmatch
        simp only [he, assemble, h, hmatch, List.append_assoc]

/-- What is read of a file is what its events come to. -/
theorem readAll_eq (r : Reader) : r.readAll.1 = (assemble false [] r.events).1 ∧
    r.readAll.2.reports = r.reports ++ (assemble false [] r.events).2 := by
  fun_induction readAll r with
  | case1 r r' h =>
    obtain ⟨drops, hdrops, hmatch⟩ := readLoop_events r false []
    rw [show r.readLoop false [] = (none, r') from h] at hdrops hmatch
    simp only at hmatch
    exact ⟨by rw [hmatch], by rw [hmatch, ← hdrops]⟩
  | case2 r record r' h ih =>
    obtain ⟨drops, hdrops, hmatch⟩ := readLoop_events r false []
    rw [show r.readLoop false [] = (some record, r') from h] at hdrops hmatch
    simp only at hmatch hdrops
    exact ⟨by rw [hmatch, ih.1], by rw [hmatch, ih.2, hdrops, List.append_assoc]⟩

end

end TableFS.Leveldb.Log
