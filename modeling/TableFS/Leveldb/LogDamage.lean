import TableFS.Leveldb.LogRecords

/-! A damaged log: the reader goes on with the next block, so that records that have nothing in the
damaged one are read as before. -/
namespace TableFS.Leveldb.Log
open Kv Reader

section
variable {checksum : Bool} {parts : List (List Event)} {records : List Bytes} {es : List Event}

private theorem switchRecord_returns_none {i : Bool} {scratch data : Bytes} {type : Nat} {drops : List (Nat × Reason)}
    (h : switchRecord i scratch type data = (.returns none, drops)) : type = kEof := by
  unfold switchRecord at h
  simp only at h
  split_ifs at h <;> simp_all

private theorem assemble_append (es : List Event) (i : Bool) (scratch : Bytes) :
    ∃ junk, (∃ i' scratch', ∀ es', (assemble i scratch (es ++ es')).1 = junk ++ (assemble i' scratch' es').1) ∨
      (∃ e ∈ es, e.type = kEof) ∧ ∀ es', (assemble i scratch (es ++ es')).1 = junk := by
  induction es generalizing i scratch with
  | nil => exact ⟨[], .inl ⟨i, scratch, fun _ => rfl⟩⟩
  | cons e es ih =>
    rcases hs : switchRecord i scratch e.type e.data with ⟨(_ | record) | ⟨i', scratch'⟩, drops⟩
    · refine ⟨[], .inr ⟨⟨e, List.mem_cons_self, switchRecord_returns_none hs⟩, fun es' => ?_⟩⟩
      simp only [List.cons_append, assemble, hs]
    · obtain ⟨junk, ⟨i', scratch', h⟩ | ⟨⟨e', he', heof⟩, h⟩⟩ := ih false []
      · refine ⟨record :: junk, .inl ⟨i', scratch', fun es' => ?_⟩⟩
        simp only [List.cons_append, assemble, hs, h]
      · refine ⟨record :: junk, .inr ⟨⟨e', List.mem_cons_of_mem e he', heof⟩, fun es' => ?_⟩⟩
        simp only [List.cons_append, assemble, hs, h]
    · obtain ⟨junk, ⟨i', scratch', h⟩ | ⟨⟨e', he', heof⟩, h⟩⟩ := ih i' scratch'
      · refine ⟨junk, .inl ⟨i', scratch', fun es' => ?_⟩⟩
        simp only [List.cons_append, assemble, hs, h]
      · refine ⟨junk, .inr ⟨⟨e', List.mem_cons_of_mem e he', heof⟩, fun es' => ?_⟩⟩
        simp only [List.cons_append, assemble, hs, h]

private theorem assemble_last (h : List.Forall₂ Spells parts records) (i : Bool) (scratch : Bytes) :
    (assemble i scratch (parts.flatten ++ [.eof []])).1 = records := by
  cases h with
  | nil => rfl
  | cons hp h =>
    rw [List.flatten_cons, List.append_assoc, hp.assemble, assemble_parts h]
    exact congrArg _ (List.append_nil _)

end

namespace Writer

private theorem switch_switch (w : Writer) : w.switch.switch = w.switch := by
  have hoff := w.switch_offset
  rw [switch]
  exact if_neg (by omega)

private theorem addRecord_switch (w : Writer) (record : Bytes) : w.switch.addRecord record = w.addRecord record := by
  rw [addRecord, addLoop, switch_switch, ← addLoop, addRecord]

private theorem records_switch {records : List Bytes} (h : records ≠ []) (w : Writer) :
    records.foldl addRecord w.switch = records.foldl addRecord w := by
  obtain ⟨record, records, rfl⟩ := List.exists_cons_of_ne_nil h
  rw [List.foldl_cons, List.foldl_cons, addRecord_switch]

end Writer

/-- The file up to the next record: after these records, and after the end of a block that has no room
for a header. -/
def filled (records : List Bytes) : Bytes := (records.foldl .addRecord Writer.new).switch.dest_

private theorem written_laid (before touched after : List Bytes) {cut : Bytes}
    (hcut : cut = written (before ++ touched) ∨ cut = filled (before ++ touched) ∧ after ≠ []) :
    ∃ out₁ out₂ parts₀ parts₁ parts₂ off₀ off₁ off₂,
      cut = written before ++ out₁ ∧ written (before ++ touched ++ after) = written before ++ out₁ ++ out₂ ∧
      Laid 0 (written before) parts₀.flatten off₀ ∧ Laid off₀ out₁ parts₁.flatten off₁ ∧
        Laid off₁ out₂ parts₂.flatten off₂ ∧
      List.Forall₂ Spells parts₀ before ∧ List.Forall₂ Spells parts₁ touched ∧ List.Forall₂ Spells parts₂ after := by
  obtain ⟨out₀, parts₀, hdest₀, hlaid₀, hparts₀⟩ := Writer.new.records_laid before
  obtain ⟨out₁, parts₁, hdest₁, hlaid₁, hparts₁⟩ := (before.foldl .addRecord Writer.new).records_laid touched
  have hlaid₀ : Laid 0 (written before) parts₀.flatten (before.foldl .addRecord Writer.new).block_offset_ := by
    rw [written, hdest₀]
    exact hlaid₀
  rcases hcut with rfl | ⟨rfl, hne⟩
  · obtain ⟨out₂, parts₂, hdest₂, hlaid₂, hparts₂⟩ :=
      (touched.foldl .addRecord (before.foldl .addRecord Writer.new)).records_laid after
    refine ⟨out₁, out₂, parts₀, parts₁, parts₂, _, _, _, ?_, ?_, hlaid₀, hlaid₁, hlaid₂, hparts₀, hparts₁, hparts₂⟩
    · rw [written, List.foldl_append, hdest₁, written]
    · rw [written, List.foldl_append, List.foldl_append, hdest₂, hdest₁, written]
  · obtain ⟨pad, hpad, hlaid⟩ := (touched.foldl .addRecord (before.foldl .addRecord Writer.new)).switch_laid
    obtain ⟨out₂, parts₂, hdest₂, hlaid₂, hparts₂⟩ :=
      (touched.foldl .addRecord (before.foldl .addRecord Writer.new)).switch.records_laid after
    refine ⟨out₁ ++ pad, out₂, parts₀, parts₁, parts₂, _, _, _, ?_, ?_, hlaid₀, ?_, hlaid₂, hparts₀, hparts₁, hparts₂⟩
    · rw [filled, List.foldl_append, hpad, hdest₁, written, List.append_assoc]
    · rw [written, List.foldl_append, List.foldl_append, ← Writer.records_switch hne, hdest₂, hpad, hdest₁, written,
        List.append_assoc, List.append_assoc, List.append_assoc, List.append_assoc]
    · have h := hlaid₁.append hlaid
      rwa [List.append_nil] at h

/-- Records are read as long as the file is as it was up to their end. -/
private theorem readFile_of_take_eq (checksum : Bool) {before : List Bytes} {file damaged : Bytes} {n : Nat}
    (hfile : written before <+: file) (hn : (written before).length ≤ n) (htake : damaged.take n = file.take n) :
    ∃ junk, (readFile checksum damaged).1 = before ++ junk := by
  obtain ⟨rest, rfl⟩ : written before <+: damaged := by
    refine List.IsPrefix.trans ?_ (List.take_prefix n damaged)
    rw [htake]
    exact List.prefix_take_iff.mpr ⟨hfile, hn⟩
  obtain ⟨off, h⟩ := readFile_written checksum before rest
  exact ⟨_, by rw [h]⟩

/-- A file that differs from another only in w bytes, in the middle of one of its parts. -/
private theorem eq_around {left out right damaged : Bytes} {n k w : Nat} (hn : n = left.length + k)
    (hk : k + w ≤ out.length) (hleft : damaged.take n = (left ++ out ++ right).take n)
    (hright : damaged.drop (n + w) = (left ++ out ++ right).drop (n + w)) :
    damaged = left ++ (out.take k ++ ((damaged.drop n).take w ++ (out.drop (k + w) ++ right))) := by
  rw [List.append_assoc, hn, List.take_length_add_append, List.take_append_of_le_length (by omega)] at hleft
  rw [List.append_assoc, hn, Nat.add_assoc, List.drop_length_add_append, List.drop_append_of_le_length hk,
    ← Nat.add_assoc, ← hn, ← List.drop_drop] at hright
  rw [← hright, List.take_append_drop, ← List.append_assoc, ← hleft, ← hn, List.take_append_drop]

/-- One block of a file is damaged, the last one perhaps. The records that end before the block and those
that start after it are read as before, unless the damaged block itself has a fragment that says the file ends. -/
theorem log_damage_is_local (checksum : Bool) (before touched after : List Bytes) (damaged : Bytes) (b : Nat)
    (hlen : damaged.length = (written (before ++ touched ++ after)).length)
    (hleft : damaged.take (b * kBlockSize) = (written (before ++ touched ++ after)).take (b * kBlockSize))
    (hright : damaged.drop ((b + 1) * kBlockSize) = (written (before ++ touched ++ after)).drop ((b + 1) * kBlockSize))
    (hbefore : (written before).length ≤ b * kBlockSize)
    (hafter : (b + 1) * kBlockSize ≤ (filled (before ++ touched)).length ∨ after = []) :
    ∃ junk, (readFile checksum damaged).1 = before ++ junk ++ after ∨
      (∃ e ∈ (scan checksum ((damaged.drop (b * kBlockSize)).take kBlockSize)).1, e.type = kEof) ∧
        (readFile checksum damaged).1 = before ++ junk := by
  by_cases hne : after = []
  · obtain ⟨out₁, out₂, -, -, -, -, -, -, -, hw, -⟩ := written_laid before touched after (.inl rfl)
    rw [hw, List.append_assoc] at hleft
    obtain ⟨junk, h⟩ := readFile_of_take_eq checksum (List.prefix_append _ _) hbefore hleft
    exact ⟨junk, .inl (by rw [h, hne, List.append_nil])⟩
  replace hafter := hafter.resolve_right hne
  obtain ⟨out₁, out₂, parts₀, parts₁, parts₂, off₀, off₁, off₂, hw₁, hw₂, hlaid₀, hlaid₁, hlaid₂, hparts₀, hparts₁,
    hparts₂⟩ :=
    written_laid before touched after (.inr ⟨rfl, hne⟩)
  obtain ⟨k, hk⟩ := Nat.exists_eq_add_of_le hbefore
  rw [hw₁, List.length_append] at hafter
  rw [hw₂] at hlen hleft hright
  rw [Nat.succ_mul] at hafter hright
  -- the block lies between two fragments of the records that it is part of
  have hoff₀ := hlaid₀.offset_le (Nat.zero_le _)
  have hblock : kBlockSize ∣ off₀ + k := by
    have hmod := hlaid₀.offset_mod (Nat.zero_le _)
    rw [Nat.zero_add] at hmod
    rw [Nat.dvd_iff_mod_eq_zero, Nat.add_mod, ← hmod, ← Nat.add_mod, ← hk, Nat.mul_mod_left]
  obtain ⟨es₁, es', mid₁, hes, hl₁, hr₁, hmid₁⟩ := hlaid₁.split hoff₀ (by omega) hblock
  obtain ⟨es₂, es₃, mid₂, rfl, hl₂, hr₂, hmid₂⟩ := hr₁.split (hl₁.offset_le hoff₀) (k := kBlockSize)
    (by rw [List.length_drop]; omega) (Nat.dvd_add_self_right.mpr hmid₁)
  rw [List.drop_drop] at hr₂
  have hdamaged := eq_around hk (by omega) hleft hright
  have hsize : ((damaged.drop (b * kBlockSize)).take kBlockSize).length = kBlockSize := by
    rw [List.length_take, List.length_drop, hlen, List.length_append, List.length_append]
    omega
  generalize hX : (damaged.drop (b * kBlockSize)).take kBlockSize = block at hdamaged hsize ⊢
  have hscan : scanAt checksum 0 damaged =
      parts₀.flatten ++ (es₁ ++ (scan checksum block).1 ++ es₃ ++ (parts₂.flatten ++ [.eof []])) := by
    have hlast := hlaid₂.scanAt checksum []
    rw [List.append_nil, scanAt_nil] at hlast
    rw [hdamaged, hlaid₀.scanAt, hl₁.scanAt, scanAt_of_dvd hmid₁, scanAt_block hsize, ← scanAt_of_dvd hmid₂,
      hr₂.scanAt, hlast]
    simp only [List.append_assoc]
  rw [readFile_eq, hscan, assemble_parts hparts₀]
  obtain ⟨junk, ⟨i, scratch, h⟩ | ⟨⟨e, he, heof⟩, h⟩⟩ :=
    assemble_append (es₁ ++ (scan checksum block).1 ++ es₃) false []
  · refine ⟨junk, .inl ?_⟩
    rw [h, assemble_last hparts₂, List.append_assoc before]
  · refine ⟨junk, .inr ⟨⟨e, ?_, heof⟩, by rw [h]⟩⟩
    rcases List.mem_append.mp he with he | he
    · exact (List.mem_append.mp he).resolve_left fun he => hl₁.type_ne_eof e he heof
    · exact absurd heof (hr₂.type_ne_eof e he)

private theorem length_filled_of_tight {record : Bytes} (h : record.length = kBlockSize - 10) :
    (filled [record]).length = kBlockSize := by
  simp only [filled, List.foldl_cons, List.foldl_nil, Writer.addRecord]
  unfold Writer.addLoop
  simp [Writer.switch, Writer.new, Writer.avail, Writer.emitPhysicalRecord, length_physicalRecord, h, kBlockSize,
    kHeaderSize]

-- the first record leaves three bytes of its block, so that the second opens the next one
theorem log_damage_is_local_zeros :
    ∃ junk, (readFile true (List.replicate kBlockSize 0 ++
        (written [List.replicate (kBlockSize - 10) 1, [2]]).drop kBlockSize)).1 = [] ++ junk ++ [[2]] ∨
      (∃ e ∈ (scan true (List.replicate kBlockSize 0)).1, e.type = kEof) ∧
        (readFile true (List.replicate kBlockSize 0 ++
          (written [List.replicate (kBlockSize - 10) 1, [2]]).drop kBlockSize)).1 = [] ++ junk := by
  have hrecord : (List.replicate (kBlockSize - 10) (1 : UInt8)).length = kBlockSize - 10 := List.length_replicate
  have hzeros : (List.replicate kBlockSize (0 : UInt8)).length = kBlockSize := List.length_replicate
  generalize List.replicate (kBlockSize - 10) (1 : UInt8) = record at hrecord ⊢
  generalize List.replicate kBlockSize (0 : UInt8) = zeros at hzeros ⊢
  have hone := length_filled_of_tight hrecord
  have htwo : kBlockSize ≤ (written [record, [2]]).length := by
    rw [← hone, filled, written, List.foldl_cons, List.foldl_cons, List.foldl_cons, List.foldl_nil, List.foldl_nil,
      ← (Writer.new.addRecord record).addRecord_switch]
    exact Nat.le_of_add_right_le ((Writer.new.addRecord record).switch.length_addLoop true [2])
  have h := log_damage_is_local true [] [record] [[2]] (zeros ++ (written [record, [2]]).drop kBlockSize) 0
    (by rw [List.nil_append, List.singleton_append, List.length_append, hzeros, List.length_drop, Nat.add_sub_cancel' htwo])
    (by rw [Nat.zero_mul, List.take_zero, List.take_zero])
    (by rw [Nat.zero_add, Nat.one_mul, List.drop_left' hzeros, List.nil_append, List.singleton_append])
    (Nat.zero_le _) (.inl (by rw [Nat.zero_add, Nat.one_mul, List.nil_append, hone]))
  rwa [Nat.zero_mul, List.drop_zero, List.take_left' hzeros] at h

section
variable {checksum : Bool} {parts : List (List Event)} {records : List Bytes} {record : Bytes}
  {es es₁ es₂ lost : List Event} {bad : Event}

private theorem assemble_bad (h : bad.type = kBadRecord) (i : Bool) (scratch : Bytes) (es : List Event) :
    (assemble i scratch (bad :: es)).1 = (assemble false [] es).1 := by
  cases i with
  | true => rw [assemble, h]; rfl
  | false => rw [assemble_false, assemble, h]; rfl

private theorem Rest.open_of_append (h : Rest (es₁ ++ es₂) record) (hne : es₂ ≠ []) : Open es₁ := by
  generalize hes : es₁ ++ es₂ = es at h
  induction h generalizing es₁ with
  | last data =>
    rcases List.append_eq_singleton_iff.mp hes with ⟨rfl, -⟩ | ⟨-, rfl⟩
    · exact nofun
    · exact absurd rfl hne
  | middle data _ ih =>
    cases es₁ with
    | nil => exact nofun
    | cons e es₁ =>
      obtain ⟨rfl, htail⟩ := List.cons.inj hes
      rintro x (_ | ⟨_, hx⟩)
      · exact .inr rfl
      · exact ih htail x hx

private theorem Spells.open_of_append (h : Spells (es₁ ++ es₂) record) (hne : es₂ ≠ []) : Open es₁ := by
  generalize hes : es₁ ++ es₂ = es at h
  cases h with
  | full data =>
    rcases List.append_eq_singleton_iff.mp hes with ⟨rfl, -⟩ | ⟨-, rfl⟩
    · exact nofun
    · exact absurd rfl hne
  | first data h =>
    cases es₁ with
    | nil => exact nofun
    | cons e es₁ =>
      obtain ⟨rfl, htail⟩ := List.cons.inj hes
      rintro x (_ | ⟨_, hx⟩)
      · exact .inl rfl
      · exact (htail ▸ h).open_of_append hne x hx

private theorem Spells.startless_of_append (h : Spells (es₁ ++ es₂) record) (hne : es₁ ≠ []) : Startless es₂ := by
  obtain ⟨e, es₁, rfl⟩ := List.exists_cons_of_ne_nil hne
  generalize hes : e :: es₁ ++ es₂ = es at h
  cases h with
  | full data =>
    obtain ⟨-, htail⟩ := List.cons.inj hes
    rw [(List.append_eq_nil_iff.mp htail).2]
    exact nofun
  | first data h =>
    obtain ⟨-, rfl⟩ := List.cons.inj hes
    exact fun x hx => h.startless x (List.mem_append_right es₁ hx)

private theorem assemble_suffix (h : List.Forall₂ Spells parts records) (hes : parts.flatten = es₁ ++ es₂) :
    ∃ m, ∀ es, (assemble false [] (es₂ ++ es)).1 = records.drop m ++ (assemble false [] es).1 := by
  induction h generalizing es₁ with
  | nil =>
    rw [(List.append_eq_nil_iff.mp hes.symm).2]
    exact ⟨0, fun _ => rfl⟩
  | @cons p record parts records hp h ih =>
    rw [List.flatten_cons] at hes
    rcases List.append_eq_append_iff.mp hes with ⟨q, rfl, hq⟩ | ⟨q, rfl, rfl⟩
    · obtain ⟨m, hm⟩ := ih hq
      exact ⟨m + 1, hm⟩
    · cases es₁ with
      | nil =>
        rw [List.nil_append] at hp
        exact ⟨0, fun es => by rw [List.append_assoc, hp.assemble, assemble_parts h]; rfl⟩
      | cons e es₁ =>
        refine ⟨1, fun es => ?_⟩
        rw [List.append_assoc, (hp.startless_of_append (List.cons_ne_nil e es₁)).assemble, assemble_parts h]
        rfl

/-- Fragments are lost, and a bad record is found in their place: those records are lost that had a
fragment among them, and all others are read. -/
private theorem assemble_lost (h : List.Forall₂ Spells parts records) (hes : parts.flatten = es₁ ++ (lost ++ es₂))
    (hbad : bad.type = kBadRecord) :
    ∃ m m', m ≤ m' ∧
      ∀ es, (assemble false [] (es₁ ++ bad :: (es₂ ++ es))).1 =
        records.take m ++ records.drop m' ++ (assemble false [] es).1 := by
  induction h generalizing es₁ with
  | nil =>
    obtain ⟨rfl, htail⟩ := List.append_eq_nil_iff.mp hes.symm
    rw [(List.append_eq_nil_iff.mp htail).2]
    exact ⟨0, 0, Nat.le_refl 0, fun es => assemble_bad hbad false [] es⟩
  | @cons p record parts records hp h ih =>
    by_cases hwhole : p <+: es₁
    · obtain ⟨q, rfl⟩ := hwhole
      rw [List.flatten_cons, List.append_assoc, List.append_cancel_left_eq] at hes
      obtain ⟨m, m', hm, hread⟩ := ih hes
      refine ⟨m + 1, m' + 1, Nat.succ_le_succ hm, fun es => ?_⟩
      rw [List.append_assoc, hp.assemble, hread]
      rfl
    · -- the record has lost a fragment
      obtain ⟨m', hread⟩ := assemble_suffix (.cons hp h) (hes.trans (List.append_assoc es₁ lost es₂).symm)
      refine ⟨0, m', Nat.zero_le m', fun es => ?_⟩
      rw [List.flatten_cons] at hes
      rcases List.append_eq_append_iff.mp hes with ⟨q, rfl, -⟩ | ⟨q, rfl, -⟩
      · exact absurd (List.prefix_append p q) hwhole
      · have hne : q ≠ [] := by
          rintro rfl
          exact hwhole (by rw [List.append_nil])
        obtain ⟨i, scratch, hopen⟩ := (hp.open_of_append hne).assemble false []
        rw [hopen, assemble_bad hbad, hread]
        rfl

private theorem parseBuffer_burst {t : RecordType} {data pre mid mid' post : Bytes}
    (hlen : data.length ≤ kBlockSize) (hdata : .ofNat t.code :: data = pre ++ mid ++ post)
    (hmid : mid.length = mid'.length) (hfit : mid.length ≤ 4) (hne : mid ≠ mid') (rest : Bytes) :
    ∃ drops, parseBuffer true ((physicalRecord t data).take 6 ++ (pre ++ mid' ++ post) ++ rest) =
      (kBadRecord, [], [], drops) := by
  have hlt : data.length < 2 ^ 16 := Nat.lt_of_le_of_lt hlen (by decide)
  have hburst := Crc32c.crc_burst (show 0 < 2 ^ 32 by decide) hmid hfit hne pre post
  have hsum := congrArg List.length hdata
  obtain ⟨c, data', hdata'⟩ : ∃ c data', pre ++ mid' ++ post = c :: data' := by
    refine List.exists_cons_of_length_pos ?_
    simp only [List.length_append, List.length_cons] at hsum ⊢
    omega
  have hlen' : data.length = data'.length := by
    have hsum' := congrArg List.length hdata'
    simp only [List.length_append, List.length_cons] at hsum hsum'
    omega
  have hsix : (physicalRecord t data).take 6 = encodeFixed32 (Crc32c.mask (Crc32c.crc 0 (.ofNat t.code :: data))) ++
      [.ofNat (data'.length &&& 0xff), .ofNat (data'.length >>> 8)] := by
    rw [physicalRecord_eq, hlen', List.take_append, length_encodeFixed32,
      List.take_of_length_le (by rw [length_encodeFixed32]; decide)]
    rfl
  have hparse := parseBuffer_cons true (Crc32c.mask_lt (Crc32c.crc 0 (.ofNat t.code :: data))) c (hlen' ▸ hlt) rest
  rw [← hdata, hdata'] at hburst
  rw [hdata', hsix, List.append_assoc, List.append_assoc]
  refine Exists.imp (fun drops h => hparse.trans h) ?_
  rw [Crc32c.unmask_mask (Crc32c.crc_lt (by decide) _), if_pos (c := true = true ∧ _) ⟨rfl, hburst.symm⟩]
  split
  · exact ⟨_, rfl⟩
  · exact ⟨_, rfl⟩

private theorem scanAt_bad {off : Nat} {record : Bytes} (hlen : kHeaderSize ≤ record.length)
    (hfit : off + record.length ≤ kBlockSize)
    (hbad : ∀ rest, ∃ drops, parseBuffer checksum (record ++ rest) = (kBadRecord, [], [], drops)) (file : Bytes) :
    ∃ bad, bad.type = kBadRecord ∧ scanAt checksum off (record ++ file) =
      bad :: if off + record.length + file.length < kBlockSize then [.eof []]
        else scanAt checksum 0 (file.drop (kBlockSize - (off + record.length))) := by
  have hscan (rest : Bytes) : ∃ bad, bad.type = kBadRecord ∧ scan checksum (record ++ rest) = ([bad], []) := by
    obtain ⟨drops, h⟩ := hbad rest
    refine ⟨⟨kBadRecord, [], drops⟩, rfl, ?_⟩
    rw [scan_long (by rw [List.length_append]; omega), h, scan_nil]
  unfold scanAt
  by_cases hend : off + record.length + file.length < kBlockSize
  · obtain ⟨bad, htype, h⟩ := hscan file
    refine ⟨bad, htype, ?_⟩
    rw [if_pos hend, if_pos (by rw [List.length_append]; omega), h]
    rfl
  · obtain ⟨bad, htype, h⟩ := hscan (file.take (kBlockSize - (off + record.length)))
    refine ⟨bad, htype, ?_⟩
    rw [if_neg hend, if_neg (by rw [List.length_append]; omega),
      show kBlockSize - off = record.length + (kBlockSize - (off + record.length)) by omega,
        List.take_length_add_append,
      List.drop_length_add_append, h, fileScan_blocks]
    rfl

end

private theorem length_burst {t : RecordType} {data pre mid mid' post : Bytes}
    (hdata : .ofNat t.code :: data = pre ++ mid ++ post) (hmid : mid.length = mid'.length) :
    ((physicalRecord t data).take 6 ++ (pre ++ mid' ++ post)).length = kHeaderSize + data.length := by
  have hsum := congrArg List.length hdata
  have hseven : kHeaderSize = 7 := rfl
  simp only [List.length_append, List.length_cons, List.length_take, length_physicalRecord] at hsum ⊢
  omega

private theorem Laid.offset_le_length {left : Bytes} {es : List Event} {off : Nat} (h : Laid 0 left es off)
    (hlt : off < kBlockSize) : off ≤ left.length := by
  have hmod := h.offset_mod (Nat.zero_le _)
  rw [Nat.zero_add, Nat.mod_eq_of_lt hlt] at hmod
  exact hmod ▸ Nat.mod_le _ _

/-- Up to four bytes in a row of a fragment have changed, after its length. No record is read that was
not written: the records that end before the fragment and those that start after its block are read, and
of the others some that are next to each other are lost. -/
theorem log_notices_bursts (before touched after : List Bytes) (left right pre mid mid' post data : Bytes)
    (t : RecordType) (es : List Event) (off : Nat)
    (hfile : written (before ++ touched ++ after) = left ++ (physicalRecord t data ++ right))
    (hleft : Laid 0 left es off) (hfit : off + kHeaderSize + data.length ≤ kBlockSize)
    (hdata : .ofNat t.code :: data = pre ++ mid ++ post) (hmid : mid.length = mid'.length) (hburst : mid.length ≤ 4)
    (hne : mid ≠ mid') (hbefore : (written before).length ≤ left.length)
    (hafter : left.length - off + kBlockSize ≤ (filled (before ++ touched)).length ∨ after = []) :
    ∃ m m', m ≤ m' ∧
      (readFile true (left ++ ((physicalRecord t data).take 6 ++ (pre ++ mid' ++ post) ++ right))).1 =
        before ++ (touched.take m ++ touched.drop m') ++ after := by
  obtain ⟨cut, hcut, hafter⟩ : ∃ cut, (cut = written (before ++ touched) ∨ cut = filled (before ++ touched) ∧ after ≠ []) ∧
      (left.length - off + kBlockSize ≤ cut.length ∨ after = []) := by
    by_cases hne : after = []
    · exact ⟨_, .inl rfl, .inr hne⟩
    · exact ⟨_, .inr ⟨rfl, hne⟩, hafter⟩
  obtain ⟨out₁, out₂, parts₀, parts₁, parts₂, off₀, off₁, off₂, hw₁, hw₂, hlaid₀, hlaid₁, hlaid₂, hparts₀, hparts₁,
    hparts₂⟩ :=
    written_laid before touched after hcut
  have hlaid : Laid 0 (written before ++ out₁) (parts₀.flatten ++ parts₁.flatten) off₁ := hlaid₀.append hlaid₁
  have hP : (physicalRecord t data).length = kHeaderSize + data.length := length_physicalRecord
  have hlen := length_burst hdata hmid
  have hpos : 0 < kHeaderSize := by decide
  have hlt : off < kBlockSize := by omega
  have hoff := hleft.offset_le_length hlt
  have hbad := parseBuffer_burst (show data.length ≤ kBlockSize by omega) hdata hmid hburst hne
  generalize (physicalRecord t data).take 6 ++ (pre ++ mid' ++ post) = fragment at hlen hbad ⊢
  obtain ⟨bad, hbad, hscan⟩ := scanAt_bad (by omega) (show off + fragment.length ≤ kBlockSize by omega) hbad right
  have hprefix : left <+: written (before ++ touched ++ after) := ⟨_, hfile.symm⟩
  have hprefix₀ : written before <+: cut := ⟨_, hw₁.symm⟩
  have hprefix₁ : cut <+: written (before ++ touched ++ after) := ⟨out₂, by rw [hw₁, hw₂]⟩
  rw [← hw₁] at hlaid
  -- the events before the fragment, and those of the next block
  obtain ⟨es₀, rfl⟩ : ∃ es₀, es = parts₀.flatten ++ es₀ := by
    obtain ⟨l, rfl⟩ := List.prefix_of_prefix_length_le (hprefix₀.trans hprefix₁) hprefix hbefore
    exact hlaid₀.of_append hleft
  obtain ⟨lost, es₂, hes, hrest⟩ : ∃ lost es₂, parts₁.flatten = es₀ ++ (lost ++ es₂) ∧
      scanAt true off (fragment ++ right) = bad :: (es₂ ++ (parts₂.flatten ++ [.eof []])) := by
    have hsize := congrArg List.length hfile
    rw [List.length_append, List.length_append, hP] at hsize
    have hsize₁ := hprefix₁.length_le
    have hlast := hlaid₂.scanAt true []
    rw [List.append_nil, scanAt_nil] at hlast
    rw [hscan]
    by_cases hk : left.length - off + kBlockSize ≤ cut.length
    · have hin := List.prefix_of_prefix_length_le hprefix hprefix₁ (by omega)
      obtain ⟨lost, es₂, mid, hes, hr, hmid⟩ := hleft.next_block hlt hlaid hin hk
      rw [List.append_assoc, List.append_cancel_left_eq] at hes
      have hdrop : right.drop (kBlockSize - (off + fragment.length)) =
          cut.drop (left.length - off + kBlockSize) ++ out₂ := by
        rw [← List.drop_append_of_le_length hk, hw₁, ← hw₂, hfile, ← List.append_assoc,
          show left.length - off + kBlockSize = (left ++ physicalRecord t data).length + (kBlockSize - (off + fragment.length)) by
            rw [List.length_append]; omega, List.drop_length_add_append]
      refine ⟨lost, es₂, hes, ?_⟩
      rw [if_neg (by omega), hdrop, ← scanAt_of_dvd hmid, hr.scanAt, hlast]
    · obtain rfl := hafter.resolve_left hk
      obtain rfl := hcut.resolve_right fun h => h.2 rfl
      cases hparts₂
      rw [List.append_nil] at hprefix hsize
      obtain ⟨l, hl⟩ := hprefix
      obtain ⟨lost, hes⟩ := hleft.of_append (hl.symm ▸ hlaid)
      rw [List.append_assoc, List.append_cancel_left_eq] at hes
      refine ⟨lost, [], by rwa [List.append_nil], ?_⟩
      rw [if_pos (by omega)]
      rfl
  obtain ⟨m, m', hm, hread⟩ := assemble_lost hparts₁ hes hbad
  refine ⟨m, m', hm, ?_⟩
  rw [readFile_eq, hleft.scanAt, hrest, List.append_assoc, assemble_parts hparts₀, hread,
    assemble_last hparts₂, ← List.append_assoc]

theorem log_notices_bursts_byte :
    ∃ m m', m ≤ m' ∧
      (readFile true ([] ++ ((physicalRecord .full [1, 2, 3]).take 6 ++ ([1] ++ [9] ++ [2, 3]) ++ []))).1 =
        [] ++ ([[1, 2, 3]].take m ++ [[1, 2, 3]].drop m') ++ [] := by
  have hfile : written ([] ++ [[1, 2, 3]] ++ []) = [] ++ (physicalRecord .full [1, 2, 3] ++ []) := by
    simp only [written, List.nil_append, List.append_nil, List.foldl_cons, List.foldl_nil, Writer.addRecord]
    unfold Writer.addLoop
    simp [Writer.switch, Writer.new, Writer.avail, kBlockSize, kHeaderSize, Writer.fragmentType,
      Writer.emitPhysicalRecord]
  exact log_notices_bursts [] [[1, 2, 3]] [] [] [] [1] [1] [9] [2, 3] [1, 2, 3] .full [] 0 hfile (.nil 0)
    (by decide) rfl rfl
    (by decide) (by decide) (Nat.le_refl 0) (.inr rfl)

end TableFS.Leveldb.Log
