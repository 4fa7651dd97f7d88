import TableFS.Leveldb.LogScan

/-! What a writer leaves in a file, and what a reader makes of it: of all of the file, of its beginning
after a crash, and of a file with a damaged block. -/
namespace TableFS.Leveldb.Log
open Kv Reader

/-- The answers of a file to reads of a block at a time. -/
def blocks (file : Bytes) : List (Option Bytes) :=
  if file.length < kBlockSize then [some file] else some (file.take kBlockSize) :: blocks (file.drop kBlockSize)
  termination_by file.length
  decreasing_by
    have hpos : 0 < kBlockSize := by decide
    rw [List.length_drop]
    omega

/-- The events of a file from an offset in a block on. -/
def scanAt (checksum : Bool) (off : Nat) (file : Bytes) : List Event :=
  if file.length < kBlockSize - off then (scan checksum file).1 ++ tail (scan checksum file).2
  else (scan checksum (file.take (kBlockSize - off))).1 ++ fileScan checksum (blocks (file.drop (kBlockSize - off)))

section
variable {checksum : Bool} {off : Nat} {file : Bytes} {t : RecordType} {data : Bytes}

theorem fileScan_blocks (file : Bytes) : fileScan checksum (blocks file) = scanAt checksum 0 file := by
  rw [blocks, scanAt, Nat.sub_zero]
  by_cases h : file.length < kBlockSize
  · rw [if_pos h, if_pos h, fileScan, if_pos h]
  · rw [if_neg h, if_neg h, fileScan, if_neg]
    rw [List.length_take]
    omega

private theorem scanAt_full : scanAt checksum kBlockSize file = scanAt checksum 0 file := by
  rw [scanAt, Nat.sub_self, if_neg (Nat.not_lt_zero _), List.take_zero, scan_nil, List.drop_zero, fileScan_blocks]
  rfl

theorem scanAt_of_dvd (h : kBlockSize ∣ off) : scanAt checksum off file = scanAt checksum 0 file := by
  rcases Nat.eq_zero_or_pos off with rfl | hpos
  · rfl
  · have hle := Nat.le_of_dvd hpos h
    rw [← scanAt_full, scanAt, scanAt, Nat.sub_eq_zero_of_le hle, Nat.sub_self]

/-- The events of a block depend on nothing else. -/
theorem scanAt_block {block : Bytes} (h : block.length = kBlockSize) (file : Bytes) :
    scanAt checksum 0 (block ++ file) = (scan checksum block).1 ++ scanAt checksum 0 file := by
  rw [scanAt, if_neg (by rw [List.length_append]; omega), Nat.sub_zero, ← h, List.take_left, List.drop_left,
    fileScan_blocks]

/-- A fragment of a known type and a length that a block has room for. -/
structure FitsBlock (t : RecordType) (data : Bytes) : Prop where
  type : t ≠ .zero
  length : data.length ≤ kBlockSize - kHeaderSize

theorem length_physicalRecord : (physicalRecord t data).length = kHeaderSize + data.length := by
  simp only [physicalRecord, List.length_append, List.length_cons, List.length_nil, length_encodeFixed32]
  rfl

private theorem charCode_code (t : RecordType) : charCode (.ofNat t.code) = t.code := by
  cases t <;> rfl

private theorem length_bytes {n : Nat} (h : n < 2 ^ 16) :
    (UInt8.ofNat (n &&& 0xff)).toNat ||| ((UInt8.ofNat (n >>> 8)).toNat <<< 8) = n := by
  have hlow : (UInt8.ofNat (n &&& 0xff)).toNat = n % 2 ^ 8 := by
    rw [Crc32c.and_ff, UInt8.toNat_ofNat']
    omega
  have hhigh : (UInt8.ofNat (n >>> 8)).toNat = n / 2 ^ 8 := by
    rw [UInt8.toNat_ofNat', Nat.shiftRight_eq_div_pow]
    omega
  rw [hlow, hhigh, Nat.or_comm, ← Nat.shiftLeft_add_eq_or_of_lt (Nat.mod_lt _ (by decide)), Nat.shiftLeft_eq]
  omega

/-- The header holds the checksum of the type and the data. -/
theorem physicalRecord_eq (t : RecordType) (data : Bytes) :
    physicalRecord t data = encodeFixed32 (Crc32c.mask (Crc32c.crc 0 (.ofNat t.code :: data))) ++
      (.ofNat (data.length &&& 0xff) :: .ofNat (data.length >>> 8) :: .ofNat t.code :: data) := by
  have hval : Crc32c.extend 0 (Crc32c.value 0 [.ofNat t.code]) data = Crc32c.crc 0 (.ofNat t.code :: data) := by
    rw [Crc32c.value_eq, Crc32c.extend_eq 0 (Crc32c.crc_lt (by decide) _), Crc32c.crc_append]
    rfl
  rw [physicalRecord, hval, List.append_assoc]
  rfl

/-- What is made of a fragment with this checksum and a length that is right. -/
theorem parseBuffer_cons (checksum : Bool) {m : Nat} (hm : m < 2 ^ 32) (c : UInt8) (hlen : data.length < 2 ^ 16)
    (rest : Bytes) :
    parseBuffer checksum
        (encodeFixed32 m ++ .ofNat (data.length &&& 0xff) :: .ofNat (data.length >>> 8) :: c :: (data ++ rest)) =
      if charCode c = RecordType.zero.code ∧ data.length = 0 then (kBadRecord, [], [], [])
      else if checksum ∧ Crc32c.crc 0 (c :: data) ≠ Crc32c.unmask m then
        (kBadRecord, [], [], [(kHeaderSize + data.length + rest.length, .checksumMismatch)])
      else (charCode c, data, rest, []) := by
  have hdecode (l : Bytes) : decodeFixed32 (encodeFixed32 m ++ l) = m := decodeFixed32_encodeFixed32 hm l
  obtain ⟨c0, c1, c2, c3, hbytes⟩ : ∃ c0 c1 c2 c3, encodeFixed32 m = [c0, c1, c2, c3] := ⟨_, _, _, _, rfl⟩
  rw [hbytes] at hdecode ⊢
  simp only [List.cons_append, List.nil_append] at hdecode ⊢
  unfold parseBuffer
  simp only [List.getD_cons_succ, List.getD_cons_zero, length_bytes hlen, hdecode, Crc32c.value_eq, kHeaderSize,
    Nat.reduceAdd, Nat.add_comm _ data.length, List.drop_succ_cons, List.drop_zero, List.take_succ_cons,
      List.length_cons,
    List.length_append, List.take_left, List.drop_left]
  rw [if_neg (by omega), show data.length + rest.length + 1 + 1 + 1 + 1 + 1 + 1 + 1 =
    data.length + 7 + rest.length by omega]

private theorem parseBuffer_physicalRecord (h : FitsBlock t data) (rest : Bytes) :
    parseBuffer checksum (physicalRecord t data ++ rest) = (t.code, data, rest, []) := by
  have hlen : data.length < 2 ^ 16 := Nat.lt_of_le_of_lt h.length (by decide)
  have htype : t.code ≠ RecordType.zero.code := by
    have := h.type
    cases t <;> simp_all [RecordType.code]
  rw [physicalRecord_eq, List.append_assoc]
  refine (parseBuffer_cons checksum (Crc32c.mask_lt _) (.ofNat t.code) hlen rest).trans ?_
  rw [charCode_code, if_neg fun hzero => htype hzero.1, Crc32c.unmask_mask (Crc32c.crc_lt (by decide) _),
    if_neg fun hne => hne.2 rfl]

private theorem scan_physicalRecord (h : FitsBlock t data) (rest : Bytes) :
    scan checksum (physicalRecord t data ++ rest) =
      (⟨t.code, data, []⟩ :: (scan checksum rest).1, (scan checksum rest).2) := by
  rw [scan_long, parseBuffer_physicalRecord h]
  rw [List.length_append, length_physicalRecord]
  omega

private theorem scanAt_physicalRecord (ht : t ≠ .zero) (hfit : off + kHeaderSize + data.length ≤ kBlockSize)
    (file : Bytes) :
    scanAt checksum off (physicalRecord t data ++ file) =
      ⟨t.code, data, []⟩ :: scanAt checksum (off + kHeaderSize + data.length) file := by
  have hw : FitsBlock t data := ⟨ht, by omega⟩
  have hlen : (physicalRecord t data).length = kHeaderSize + data.length := length_physicalRecord
  have hroom : kBlockSize - off = (physicalRecord t data).length + (kBlockSize - (off + kHeaderSize + data.length)) := by omega
  unfold scanAt
  by_cases h : file.length < kBlockSize - (off + kHeaderSize + data.length)
  · rw [if_pos h, if_pos (by rw [List.length_append]; omega), scan_physicalRecord hw]
    rfl
  · rw [if_neg h, if_neg (by rw [List.length_append]; omega), hroom, List.take_length_add_append,
      List.drop_length_add_append, scan_physicalRecord hw]
    rfl

private theorem scanAt_pad {pad : Bytes} (hlen : pad.length = kBlockSize - off) (hpad : pad.length < kHeaderSize)
    (file : Bytes) :
    scanAt checksum off (pad ++ file) = scanAt checksum 0 file := by
  rw [scanAt, if_neg (by rw [List.length_append]; omega), ← hlen, List.take_left, List.drop_left, scan_short hpad,
    fileScan_blocks]
  rfl

theorem scanAt_nil : scanAt checksum off [] = [.eof []] := by
  unfold scanAt
  split
  · rw [scan_nil]
    rfl
  · rw [List.take_nil, scan_nil, List.drop_nil, fileScan_blocks, scanAt, if_pos (by decide), scan_nil]
    rfl

private theorem fileScan_ne_nil (blocks : List (Option Bytes)) : fileScan checksum blocks ≠ [] := by
  induction blocks with
  | nil => exact nofun
  | cons block blocks ih =>
    cases block with
    | none => exact nofun
    | some buffer =>
      rw [fileScan]
      split
      · exact List.append_ne_nil_of_right_ne_nil _ (List.cons_ne_nil _ _)
      · exact List.append_ne_nil_of_right_ne_nil _ ih

private theorem scanAt_ne_nil : scanAt checksum off file ≠ [] := by
  unfold scanAt
  split
  · exact List.append_ne_nil_of_right_ne_nil _ (List.cons_ne_nil _ _)
  · exact List.append_ne_nil_of_right_ne_nil _ (fileScan_ne_nil _)

/-- Events that carry no data. -/
def Blank (es : List Event) : Prop := ∀ e ∈ es, e.type = kEof ∨ e.type = kBadRecord

theorem blank_tail (rest : Bytes) : Blank (tail rest) := fun _ he => .inl (List.mem_singleton.mp he ▸ rfl)

private theorem blank_short {file : Bytes} (hroom : file.length < kBlockSize - off) (h : file.length < kHeaderSize) :
    Blank (scanAt checksum off file) := by
  rw [scanAt, if_pos hroom, scan_short h]
  exact blank_tail file

/-- Where the file ends within a fragment, nothing of it is read. -/
theorem blank_take_physicalRecord (hfit : off + kHeaderSize + data.length ≤ kBlockSize) {k : Nat}
    (hk : k < (physicalRecord t data).length) : Blank (scanAt checksum off ((physicalRecord t data).take k)) := by
  have hlen : (physicalRecord t data).length = kHeaderSize + data.length := length_physicalRecord
  have hroom : ((physicalRecord t data).take k).length < kBlockSize - off := by
    rw [List.length_take]
    omega
  by_cases hshort : ((physicalRecord t data).take k).length < kHeaderSize
  · exact blank_short hroom hshort
  · -- the header is whole, and tells of more data than there is
    have hbad : parseBuffer checksum ((physicalRecord t data).take k) =
        (kBadRecord, [], [], [(((physicalRecord t data).take k).length, .badRecordLength)]) := by
      rw [List.length_take] at hshort
      have hget (i : Nat) (hi : i < kHeaderSize) : ((physicalRecord t data).take k).getD i 0 =
          (physicalRecord t data).getD i 0 := by
        rw [List.getD_eq_getElem?_getD, List.getD_eq_getElem?_getD, List.getElem?_take_of_lt (by omega)]
      have hfour : (physicalRecord t data).getD 4 0 = .ofNat (data.length &&& 0xff) := by rw [physicalRecord_eq]; rfl
      have hfive : (physicalRecord t data).getD 5 0 = .ofNat (data.length >>> 8) := by rw [physicalRecord_eq]; rfl
      rw [parseBuffer, hget 4 (by decide), hget 5 (by decide), hfour, hfive, if_pos]
      rw [length_bytes (Nat.lt_of_le_of_lt (show data.length ≤ kBlockSize by omega) (by decide)), List.length_take]
      omega
    rw [scanAt, if_pos hroom, scan_long hshort, hbad, scan_nil]
    rintro e (_ | ⟨_, he⟩)
    · exact .inr rfl
    · exact blank_tail [] e he

end

/-- Bytes that fragments and the ends of blocks are laid out in, from an offset in a block to another. -/
inductive Laid : Nat → Bytes → List Event → Nat → Prop where
  | nil (off : Nat) : Laid off [] [] off
  | fragment {off off' : Nat} {t : RecordType} {data out : Bytes} {es : List Event} (ht : t ≠ .zero)
      (hfit : off + kHeaderSize + data.length ≤ kBlockSize) (h : Laid (off + kHeaderSize + data.length) out es off') :
      Laid off (physicalRecord t data ++ out) (⟨t.code, data, []⟩ :: es) off'
  | pad {off off' : Nat} {out pad : Bytes} {es : List Event} (hlen : pad.length = kBlockSize - off)
      (hpad : pad.length < kHeaderSize) (h : Laid 0 out es off') : Laid off (pad ++ out) es off'

namespace Laid
variable {checksum : Bool} {off off' off'' : Nat} {out out' : Bytes} {es es' : List Event}

theorem append (h : Laid off out es off') (h' : Laid off' out' es' off'') :
    Laid off (out ++ out') (es ++ es') off'' := by
  induction h with
  | nil => exact h'
  | fragment ht hfit _ ih =>
    rw [List.append_assoc]
    exact .fragment ht hfit (ih h')
  | pad hlen hpad _ ih =>
    rw [List.append_assoc]
    exact .pad hlen hpad (ih h')

/-- The fragments are read, and then what follows them. -/
theorem scanAt (checksum : Bool) (h : Laid off out es off') (file : Bytes) :
    Log.scanAt checksum off (out ++ file) = es ++ Log.scanAt checksum off' file := by
  induction h with
  | nil => rfl
  | fragment ht hfit _ ih => rw [List.append_assoc, scanAt_physicalRecord ht hfit, ih, List.cons_append]
  | pad hlen hpad _ ih => rw [List.append_assoc, scanAt_pad hlen hpad, ih]

/-- Of a file that ends early the fragments before its end are read. -/
theorem scanAt_take (checksum : Bool) (h : Laid off out es off') {k : Nat} (hk : k < out.length) :
    ∃ es₁ es₂ blank, es = es₁ ++ es₂ ∧ Blank blank ∧ Log.scanAt checksum off (out.take k) = es₁ ++ blank := by
  induction h generalizing k with
  | nil => exact absurd hk (Nat.not_lt_zero _)
  | @fragment off off' t data out es ht hfit _ ih =>
    by_cases hcut : k < (physicalRecord t data).length
    · rw [List.take_append_of_le_length hcut.le]
      exact ⟨[], _, _, rfl, blank_take_physicalRecord hfit hcut, rfl⟩
    · obtain ⟨j, rfl⟩ := Nat.exists_eq_add_of_le (Nat.le_of_not_lt hcut)
      rw [List.length_append] at hk
      obtain ⟨es₁, es₂, blank, rfl, hblank, hscan⟩ := ih (Nat.lt_of_add_lt_add_left hk)
      rw [List.take_length_add_append, scanAt_physicalRecord ht hfit, hscan]
      exact ⟨_ :: es₁, es₂, blank, rfl, hblank, rfl⟩
  | @pad off off' out pad es hlen hpad _ ih =>
    by_cases hcut : k < pad.length
    · rw [List.take_append_of_le_length hcut.le]
      have hlt : (pad.take k).length < pad.length := by
        rw [List.length_take]
        omega
      exact ⟨[], _, _, rfl, blank_short (hlen ▸ hlt) (hlt.trans hpad), rfl⟩
    · obtain ⟨j, rfl⟩ := Nat.exists_eq_add_of_le (Nat.le_of_not_lt hcut)
      rw [List.length_append] at hk
      obtain ⟨es₁, es₂, blank, rfl, hblank, hscan⟩ := ih (Nat.lt_of_add_lt_add_left hk)
      rw [List.take_length_add_append, scanAt_pad hlen hpad, hscan]
      exact ⟨es₁, es₂, blank, rfl, hblank, rfl⟩

theorem type_ne_eof (h : Laid off out es off') : ∀ e ∈ es, e.type ≠ kEof := by
  induction h with
  | nil => exact nofun
  | @fragment _ _ t _ _ _ _ _ _ ih =>
    rintro e (_ | ⟨_, he⟩)
    · cases t <;> exact nofun
    · exact ih e he
  | pad _ _ _ ih => exact ih

theorem offset_le (h : Laid off out es off') (hoff : off ≤ kBlockSize) : off' ≤ kBlockSize := by
  induction h with
  | nil => exact hoff
  | fragment _ hfit _ ih => exact ih hfit
  | pad _ _ _ ih => exact ih (Nat.zero_le _)

/-- The offset is that of the bytes so far, up to whole blocks. -/
theorem offset_mod (h : Laid off out es off') (hoff : off ≤ kBlockSize) :
    (off + out.length) % kBlockSize = off' % kBlockSize := by
  induction h with
  | nil => rfl
  | fragment _ hfit _ ih =>
    rw [List.length_append, length_physicalRecord, ← Nat.add_assoc, ← Nat.add_assoc]
    exact ih hfit
  | @pad off off' out pad es hlen _ _ ih =>
    have hsum : off + (pad ++ out).length = kBlockSize + (0 + out.length) := by
      rw [List.length_append]
      omega
    rw [hsum, Nat.add_mod_left]
    exact ih (Nat.zero_le _)

/-- The end of a block falls between two fragments. -/
theorem split (h : Laid off out es off') (hoff : off ≤ kBlockSize) {k : Nat} (hk : k ≤ out.length)
    (hblock : kBlockSize ∣ off + k) :
    ∃ es₁ es₂ mid, es = es₁ ++ es₂ ∧ Laid off (out.take k) es₁ mid ∧ Laid mid (out.drop k) es₂ off' ∧
      kBlockSize ∣ mid := by
  induction h generalizing k with
  | nil off =>
    obtain rfl : k = 0 := Nat.le_zero.mp hk
    exact ⟨[], [], off, rfl, .nil off, .nil off, hblock⟩
  | @fragment off off' t data out es ht hfit h ih =>
    rcases Nat.eq_zero_or_pos k with rfl | hpos
    · exact ⟨[], _, off, rfl, .nil off, .fragment ht hfit h, hblock⟩
    · have hlen : (physicalRecord t data).length = kHeaderSize + data.length := length_physicalRecord
      have hle : kBlockSize ≤ off + k := Nat.le_of_dvd (by omega) hblock
      obtain ⟨j, rfl⟩ := Nat.exists_eq_add_of_le (show (physicalRecord t data).length ≤ k by omega)
      rw [List.length_append] at hk
      obtain ⟨es₁, es₂, mid, rfl, hl, hr, hmid⟩ :=
        ih hfit (Nat.le_of_add_le_add_left hk) (by rwa [Nat.add_assoc off, ← hlen, Nat.add_assoc])
      refine ⟨_ :: es₁, es₂, mid, rfl, ?_, ?_, hmid⟩
      · rw [List.take_length_add_append]
        exact .fragment ht hfit hl
      · rwa [List.drop_length_add_append]
  | @pad off off' out pad es hlen hpad h ih =>
    rcases Nat.eq_zero_or_pos k with rfl | hpos
    · exact ⟨[], _, off, rfl, .nil off, .pad hlen hpad h, hblock⟩
    · have hle : kBlockSize ≤ off + k := Nat.le_of_dvd (by omega) hblock
      obtain ⟨j, rfl⟩ := Nat.exists_eq_add_of_le (show pad.length ≤ k by omega)
      rw [List.length_append] at hk
      have hj : kBlockSize ∣ 0 + j := by
        rw [show off + (pad.length + j) = kBlockSize + j by omega] at hblock
        rw [Nat.zero_add]
        exact (Nat.dvd_add_right (Nat.dvd_refl _)).mp hblock
      obtain ⟨es₁, es₂, mid, rfl, hl, hr, hmid⟩ := ih (Nat.zero_le _) (Nat.le_of_add_le_add_left hk) hj
      refine ⟨es₁, es₂, mid, rfl, ?_, ?_, hmid⟩
      · rw [List.take_length_add_append]
        exact .pad hlen hpad hl
      · rwa [List.drop_length_add_append]

/-- Bytes in front of others are laid out as they are on their own. -/
theorem of_append {rest : Bytes} (h : Laid off out es off') (h' : Laid off (out ++ rest) es' off'') :
    ∃ es₂, es' = es ++ es₂ := by
  have hscan := h'.scanAt false []
  rw [List.append_nil, h.scanAt, scanAt_nil] at hscan
  rcases List.append_eq_append_iff.mp hscan with ⟨q, hq, -⟩ | ⟨q, hq, hlast⟩
  · exact ⟨q, hq⟩
  · rcases List.append_eq_singleton_iff.mp hlast.symm with ⟨rfl, -⟩ | ⟨-, hnil⟩
    · exact ⟨[], by rw [hq, List.append_nil, List.append_nil]⟩
    · exact absurd hnil scanAt_ne_nil

/-- The rest of a block, and the fragments of the next one. -/
theorem next_block {file : Bytes} (h : Laid 0 out es off) (hoff : off < kBlockSize) (h' : Laid 0 file es' off')
    (hout : out <+: file) (hend : out.length - off + kBlockSize ≤ file.length) :
    ∃ lost es₂ mid, es' = es ++ (lost ++ es₂) ∧ Laid mid (file.drop (out.length - off + kBlockSize)) es₂ off' ∧
      kBlockSize ∣ mid := by
  have hmod := h.offset_mod (Nat.zero_le _)
  rw [Nat.zero_add, Nat.mod_eq_of_lt hoff] at hmod
  have hblock : kBlockSize ∣ 0 + (out.length - off + kBlockSize) := by
    rw [Nat.zero_add, ← hmod]
    exact Nat.dvd_add (Nat.dvd_sub_mod _) (Nat.dvd_refl _)
  obtain ⟨es₁, es₂, mid, rfl, hl, hr, hmid⟩ := h'.split (Nat.zero_le _) hend hblock
  have htake : out <+: file.take (out.length - off + kBlockSize) := by
    refine List.prefix_of_prefix_length_le hout (List.take_prefix _ _) ?_
    rw [List.length_take]
    omega
  obtain ⟨rest, hrest⟩ := htake
  rw [← hrest] at hl
  obtain ⟨lost, rfl⟩ := h.of_append hl
  exact ⟨lost, es₂, mid, List.append_assoc _ _ _, hr, hmid⟩

end Laid

end TableFS.Leveldb.Log
