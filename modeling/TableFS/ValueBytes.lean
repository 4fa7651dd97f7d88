import TableFS.DirScan

/-! The value of an inode as the string of bytes that fs/tablefs.cpp works on: a tfs_inode_header, of
the sizes that it has on x86-64 Linux, the name, a NUL and the inline data. Where the name ends is
in the header. Strings are as long as memory allows. -/
namespace TableFS.Raw
open ByteSeq

def TFS_INODE_ATTR_SIZE : Nat := 144
def INODE_PADDING : Nat := 104

/-- The attributes, the padding, has_blob and namelen. -/
def TFS_INODE_HEADER_SIZE : Nat := TFS_INODE_ATTR_SIZE + INODE_PADDING + 4 + 4

def NAMELEN_OFFSET : Nat := TFS_INODE_ATTR_SIZE + INODE_PADDING + 4

/-- The bytes of a struct stat, and those of a header. -/
abbrev StatBytes := { st : List UInt8 // st.length = TFS_INODE_ATTR_SIZE }
abbrev HeaderBytes := { h : List UInt8 // h.length = TFS_INODE_HEADER_SIZE }

def size_t (n : Nat) : Nat := n % 2 ^ 64
def uint32 (n : Nat) : Nat := n % 2 ^ 32

/-- The four bytes of a number, lowest first. -/
def le32 (n : Nat) : List UInt8 := [.ofNat n, .ofNat (n / 256), .ofNat (n / 65536), .ofNat (n / 16777216)]

namespace HeaderBytes

def namelen (h : HeaderBytes) : Nat := ofLe (h.val.drop NAMELEN_OFFSET)

def setNamelen (h : HeaderBytes) (n : Nat) : HeaderBytes :=
  ⟨h.val.take NAMELEN_OFFSET ++ le32 n, by
    rw [List.length_append, List.length_take, h.property]
    rfl⟩

def setFstat (h : HeaderBytes) (st : StatBytes) : HeaderBytes :=
  ⟨st.val ++ h.val.drop TFS_INODE_ATTR_SIZE, by
    rw [List.length_append, List.length_drop, h.property, st.property]
    rfl⟩

end HeaderBytes

/-- The header is read through a pointer to the string; a shorter string has none. -/
def getInodeHeader (value : List UInt8) : Option HeaderBytes :=
  if h : TFS_INODE_HEADER_SIZE ≤ value.length then
    some ⟨value.take TFS_INODE_HEADER_SIZE, by rw [List.length_take, Nat.min_eq_left h]⟩
  else none

/-- memcpy from the string, which must not reach past its end. -/
def memcpy (value : List UInt8) (pos n : Nat) : Option (List UInt8) :=
  if pos + n ≤ value.length then some (slice pos n value) else none

/-- std::string::replace, which throws if it is to start past the end and clips the range. -/
def replace (value : List UInt8) (pos n : Nat) (buf : List UInt8) : Option (List UInt8) :=
  if pos ≤ value.length then some (value.take pos ++ buf ++ value.drop (pos + n)) else none

def getInlineData (value : List UInt8) (offset size : Nat) : Option (List UInt8) := do
  let header ← getInodeHeader value
  let realoffset := size_t (TFS_INODE_HEADER_SIZE + header.namelen + 1 + offset)
  if realoffset < value.length then
    memcpy value realoffset
      (if size_t (realoffset + size) > value.length then value.length - realoffset else size)
  else some []

def updateIhandleValue (value buf : List UInt8) (offset : Nat) : Option (List UInt8) :=
  replace (if offset > value.length then resize 0 offset value else value) offset buf.length buf

def updateInodeHeader (value : List UInt8) (new_header : HeaderBytes) : Option (List UInt8) :=
  updateIhandleValue value new_header.val 0

def updateAttribute (value : List UInt8) (new_fstat : StatBytes) : Option (List UInt8) :=
  updateIhandleValue value new_fstat.val 0

def updateInlineData (value buf : List UInt8) (offset : Nat) : Option (List UInt8) := do
  let header ← getInodeHeader value
  updateIhandleValue value buf (size_t (TFS_INODE_HEADER_SIZE + header.namelen + 1 + offset))

def truncateInlineData (value : List UInt8) (new_size : Nat) : Option (List UInt8) := do
  let header ← getInodeHeader value
  return resize 0 (size_t (TFS_INODE_HEADER_SIZE + header.namelen + new_size + 1)) value

def dropInlineData (value : List UInt8) : Option (List UInt8) := do
  let header ← getInodeHeader value
  return resize 0 (size_t (TFS_INODE_HEADER_SIZE + header.namelen + 1)) value

/-- The rename form, for a name that a NUL follows. The old size and the new one are 32-bit numbers. -/
def initInodeValue (old_value filename : List UInt8) : Option (List UInt8) := do
  let header ← getInodeHeader old_value
  let new_value ← replace old_value TFS_INODE_HEADER_SIZE (uint32 (header.namelen + 1)) (filename ++ [0])
  updateInodeHeader new_value (header.setNamelen filename.length)

/-- namelen, the bytes up to the end of the name with its terminator, and the bytes after it. -/
def namelen (value : List UInt8) : Nat := ofLe (slice NAMELEN_OFFSET 4 value)
def label (value : List UInt8) : List UInt8 := value.take (TFS_INODE_HEADER_SIZE + namelen value + 1)
def inlineData (value : List UInt8) : List UInt8 := value.drop (TFS_INODE_HEADER_SIZE + namelen value + 1)

def WellFormed (value : List UInt8) : Prop := TFS_INODE_HEADER_SIZE + namelen value + 1 ≤ value.length

section
variable {n : Nat} {h h' : HeaderBytes} {body buf : List UInt8}

private theorem ofLe_lt (l : List UInt8) : ofLe l < 256 ^ l.length := by
  induction l with
  | nil => exact Nat.one_pos
  | cons b l ih =>
    have hb := b.toNat_lt
    have hcons : ofLe (b :: l) = b.toNat + 256 * ofLe l := rfl
    rw [hcons, List.length_cons, Nat.pow_succ]
    omega

theorem ofLe_le32 (n : Nat) : ofLe (le32 n) = uint32 n := by
  simp only [ofLe, le32, uint32, List.foldr_cons, List.foldr_nil, UInt8.toNat_ofNat']
  omega

private theorem HeaderBytes.namelen_le_length (h : HeaderBytes) : NAMELEN_OFFSET ≤ h.val.length := by
  rw [h.property]
  decide

private theorem HeaderBytes.fstat_le_length (h : HeaderBytes) : TFS_INODE_ATTR_SIZE ≤ h.val.length := by
  rw [h.property]
  decide

/-- The fields before namelen. -/
theorem HeaderBytes.length_take (h : HeaderBytes) : (h.val.take NAMELEN_OFFSET).length = NAMELEN_OFFSET := by
  rw [List.length_take, Nat.min_eq_left h.namelen_le_length]

private theorem HeaderBytes.take_setNamelen (h : HeaderBytes) (n : Nat) :
    (h.setNamelen n).val.take NAMELEN_OFFSET = h.val.take NAMELEN_OFFSET := List.take_left' h.length_take

private theorem HeaderBytes.setNamelen_setNamelen (h : HeaderBytes) (m n : Nat) :
    (h.setNamelen m).setNamelen n = h.setNamelen n :=
  Subtype.ext (congrArg (· ++ le32 n) (h.take_setNamelen m))

private theorem HeaderBytes.namelen_lt (h : HeaderBytes) : h.namelen < 2 ^ 32 := by
  have hlt := ofLe_lt (h.val.drop NAMELEN_OFFSET)
  rw [List.length_drop, h.property] at hlt
  exact hlt

private theorem HeaderBytes.namelen_setNamelen (h : HeaderBytes) (n : Nat) : (h.setNamelen n).namelen = uint32 n := by
  rw [namelen, setNamelen, List.drop_left' h.length_take, ofLe_le32]

private theorem HeaderBytes.namelen_setFstat (h : HeaderBytes) (st : StatBytes) :
    (h.setFstat st).namelen = h.namelen := by
  have hoffset : NAMELEN_OFFSET = TFS_INODE_ATTR_SIZE + 108 := rfl
  simp only [namelen, setFstat, hoffset, ← List.drop_drop, List.drop_left' st.property]

private theorem namelen_append (h : HeaderBytes) (body : List UInt8) : namelen (h.val ++ body) = h.namelen := by
  have hlen : (h.val.drop NAMELEN_OFFSET).length = 4 := by
    rw [List.length_drop, h.property]
    rfl
  rw [namelen, slice, List.drop_append_of_le_length h.namelen_le_length, List.take_left' hlen, HeaderBytes.namelen]

private theorem getInodeHeader_append (h : HeaderBytes) (body : List UInt8) :
    getInodeHeader (h.val ++ body) = some h := by
  have hle : TFS_INODE_HEADER_SIZE ≤ (h.val ++ body).length := by
    rw [List.length_append, h.property]
    exact Nat.le_add_right _ _
  rw [getInodeHeader, dif_pos hle, Option.some.injEq]
  exact Subtype.ext (List.take_left' h.property)

private theorem exists_append {value : List UInt8} (hv : WellFormed value) :
    ∃ (h : HeaderBytes) (body : List UInt8), value = h.val ++ body ∧ h.namelen + 1 ≤ body.length := by
  have hle : TFS_INODE_HEADER_SIZE ≤ value.length := by
    unfold WellFormed at hv
    omega
  have hsplit := (List.take_append_drop TFS_INODE_HEADER_SIZE value).symm
  refine ⟨⟨value.take TFS_INODE_HEADER_SIZE, by rw [List.length_take, Nat.min_eq_left hle]⟩, _, hsplit, ?_⟩
  rw [← namelen_append _ (value.drop TFS_INODE_HEADER_SIZE), ← hsplit, List.length_drop]
  unfold WellFormed at hv
  omega

private theorem header_add (h : HeaderBytes) (n : Nat) : TFS_INODE_HEADER_SIZE + n = h.val.length + n :=
  congrArg (· + n) h.property.symm

private theorem label_append (h : HeaderBytes) (body : List UInt8) :
    label (h.val ++ body) = h.val ++ body.take (h.namelen + 1) := by
  rw [label, namelen_append, Nat.add_assoc, header_add h, List.take_length_add_append]

private theorem inlineData_append (h : HeaderBytes) (body : List UInt8) :
    inlineData (h.val ++ body) = body.drop (h.namelen + 1) := by
  rw [inlineData, namelen_append, Nat.add_assoc, header_add h, List.drop_length_add_append]

private theorem updateIhandleValue_eq (value buf : List UInt8) (offset : Nat) :
    updateIhandleValue value buf offset = some (overlay 0 offset buf value) := by
  unfold updateIhandleValue replace overlay
  split
  · rename_i hlt
    rw [if_pos (by rw [length_resize]), List.take_of_length_le (by rw [length_resize]),
      List.drop_of_length_le (by rw [length_resize]; exact Nat.le_add_right _ _),
      List.drop_of_length_le (show value.length ≤ offset + buf.length by omega)]
  · rename_i hle
    rw [if_pos (Nat.le_of_not_lt hle), resize_of_le 0 (Nat.le_of_not_lt hle)]

private theorem size_t_offset (h : HeaderBytes) {offset : Nat} (ho : offset < 2 ^ 62) :
    size_t (TFS_INODE_HEADER_SIZE + h.namelen + 1 + offset) = h.val.length + (h.namelen + 1 + offset) := by
  have hlt := h.namelen_lt
  have hsize : TFS_INODE_HEADER_SIZE = 256 := rfl
  rw [h.property, size_t, Nat.mod_eq_of_lt (by omega)]
  omega

private theorem getInlineData_append (h : HeaderBytes) (body : List UInt8) {offset size : Nat}
    (ho : offset < 2 ^ 62) (hs : size < 2 ^ 62) :
    getInlineData (h.val ++ body) offset size = some (slice (h.namelen + 1 + offset) size body) := by
  have hsum : size_t (h.val.length + (h.namelen + 1 + offset) + size) =
    h.val.length + (h.namelen + 1 + offset) + size := by
    have hlt := h.namelen_lt
    have hsize : h.val.length = 256 := h.property
    exact Nat.mod_eq_of_lt (by omega)
  have hslice (n : Nat) : slice (h.val.length + (h.namelen + 1 + offset)) n (h.val ++ body) =
      slice (h.namelen + 1 + offset) n body := by
    rw [slice, List.drop_length_add_append, slice]
  simp only [getInlineData, getInodeHeader_append, bind, Option.bind, size_t_offset h ho, hsum, memcpy, hslice]
  have hlen : (h.val ++ body).length = h.val.length + body.length := List.length_append
  split
  · split
    · rw [if_pos (by omega)]
      refine congrArg some ?_
      rw [slice, slice, List.take_of_length_le (by rw [List.length_drop]; omega),
        List.take_of_length_le (by rw [List.length_drop]; omega)]
    · rw [if_pos (by omega)]
  · rw [slice, List.drop_of_length_le (by omega), List.take_nil]

private theorem updateInlineData_append (h : HeaderBytes) (body buf : List UInt8) {offset : Nat}
    (ho : offset < 2 ^ 62) :
    updateInlineData (h.val ++ body) buf offset = some (h.val ++ overlay 0 (h.namelen + 1 + offset) buf body) := by
  simp only [updateInlineData, getInodeHeader_append, bind, Option.bind, size_t_offset h ho, updateIhandleValue_eq,
    overlay_append]

private theorem truncateInlineData_append (h : HeaderBytes) (body : List UInt8) {new_size : Nat}
    (hs : new_size < 2 ^ 62) :
    truncateInlineData (h.val ++ body) new_size = some (h.val ++ resize 0 (h.namelen + 1 + new_size) body) := by
  simp only [truncateInlineData, getInodeHeader_append, bind, Option.bind, pure,
    Nat.add_right_comm _ new_size 1, size_t_offset h hs, resize_append]

private theorem dropInlineData_append (h : HeaderBytes) (body : List UInt8) :
    dropInlineData (h.val ++ body) = some (h.val ++ resize 0 (h.namelen + 1) body) := by
  have hoffset := size_t_offset h (Nat.two_pow_pos 62)
  rw [Nat.add_zero, Nat.add_zero] at hoffset
  simp only [dropInlineData, getInodeHeader_append, bind, Option.bind, pure, hoffset, resize_append]

private theorem updateInodeHeader_append (h h' : HeaderBytes) (body : List UInt8) :
    updateInodeHeader (h.val ++ body) h' = some (h'.val ++ body) := by
  have hlen : h'.val.length = h.val.length := h'.property.trans h.property.symm
  rw [updateInodeHeader, updateIhandleValue_eq, overlay, resize_zero, Nat.zero_add, hlen, List.drop_left,
    List.nil_append]

private theorem updateAttribute_append (h : HeaderBytes) (st : StatBytes) (body : List UInt8) :
    updateAttribute (h.val ++ body) st = some ((h.setFstat st).val ++ body) := by
  rw [updateAttribute, updateIhandleValue_eq, overlay, resize_zero, Nat.zero_add, st.property,
    List.drop_append_of_le_length h.fstat_le_length, List.nil_append, HeaderBytes.setFstat, List.append_assoc]

private theorem initInodeValue_append (h : HeaderBytes) (body filename : List UInt8) :
    initInodeValue (h.val ++ body) filename =
      some ((h.setNamelen filename.length).val ++ (filename ++ [0] ++ body.drop (uint32 (h.namelen + 1)))) := by
  have hreplace : replace (h.val ++ body) TFS_INODE_HEADER_SIZE (uint32 (h.namelen + 1)) (filename ++ [0]) =
      some (h.val ++ (filename ++ [0] ++ body.drop (uint32 (h.namelen + 1)))) := by
    rw [replace, if_pos (by rw [List.length_append, h.property]; exact Nat.le_add_right _ _),
      List.take_left' h.property, header_add h, List.drop_length_add_append, List.append_assoc, List.append_assoc]
  simp only [initInodeValue, getInodeHeader_append, bind, Option.bind, hreplace, updateInodeHeader_append]

end

/-- A field of a structure in memory. -/
def field (pos n : Nat) (bytes : List UInt8) : Nat := ofLe (slice pos n bytes)

def int64 (n : Nat) : Int := if n < 2 ^ 63 then n else n - 2 ^ 64

def decodeTimespec (pos : Nat) (bytes : List UInt8) : Timespec :=
  ⟨int64 (field pos 8 bytes), int64 (field (pos + 8) 8 bytes)⟩

/-- struct stat as x86-64 Linux lays it out. -/
def decodeStat (st : StatBytes) : Stat where
  st_dev := field 0 8 st.val
  st_ino := .ofNat (field 8 8 st.val)
  st_nlink := field 16 8 st.val
  st_mode := .ofNat (field 24 4 st.val)
  st_uid := field 28 4 st.val
  st_gid := field 32 4 st.val
  st_size := field 48 8 st.val
  st_blksize := field 56 8 st.val
  st_blocks := field 64 8 st.val
  st_atim := decodeTimespec 72 st.val
  st_mtim := decodeTimespec 88 st.val
  st_ctim := decodeTimespec 104 st.val

def HeaderBytes.fstat (h : HeaderBytes) : StatBytes :=
  ⟨h.val.take TFS_INODE_ATTR_SIZE, by
    rw [List.length_take, h.property]
    rfl⟩

def decodeHeader (h : HeaderBytes) : Header :=
  ⟨decodeStat h.fstat, field (TFS_INODE_ATTR_SIZE + INODE_PADDING) 4 h.val, h.namelen⟩

/-- The value that the rest of the model works on: the header apart from the bytes after it. -/
def decode (value : List UInt8) : Option Value := do
  let header ← getInodeHeader value
  return ⟨decodeHeader header, value.drop TFS_INODE_HEADER_SIZE⟩

section
variable {value : List UInt8} {v : Value}

private theorem decode_append (h : HeaderBytes) (body : List UInt8) :
    decode (h.val ++ body) = some ⟨decodeHeader h, body⟩ := by
  simp only [decode, getInodeHeader_append, bind, Option.bind, pure, List.drop_left' h.property]

private theorem exists_of_decode (hv : decode value = some v) :
    ∃ (h : HeaderBytes) (body : List UInt8), value = h.val ++ body ∧ v = ⟨decodeHeader h, body⟩ := by
  unfold decode getInodeHeader at hv
  split at hv
  · exact ⟨_, _, (List.take_append_drop TFS_INODE_HEADER_SIZE value).symm, (Option.some.inj hv).symm⟩
  · cases hv

private theorem decodeHeader_setFstat (h : HeaderBytes) (st : StatBytes) :
    decodeHeader (h.setFstat st) = { decodeHeader h with fstat := decodeStat st } := by
  have hfstat : (h.setFstat st).fstat = st := Subtype.ext (List.take_left' st.property)
  have hblob : field (TFS_INODE_ATTR_SIZE + INODE_PADDING) 4 (h.setFstat st).val =
      field (TFS_INODE_ATTR_SIZE + INODE_PADDING) 4 h.val := by
    simp only [field, slice, HeaderBytes.setFstat, ← List.drop_drop, List.drop_left' st.property]
  rw [decodeHeader, hfstat, hblob, h.namelen_setFstat, decodeHeader]

private theorem decodeHeader_setNamelen (h : HeaderBytes) (n : Nat) :
    decodeHeader (h.setNamelen n) = { decodeHeader h with namelen := uint32 n } := by
  have hslice (pos k : Nat) (hle : pos + k ≤ NAMELEN_OFFSET) : slice pos k (h.setNamelen n).val =
      slice pos k h.val := by
    have hcut (l : List UInt8) : slice pos k l = slice pos k (l.take NAMELEN_OFFSET) := by
      rw [slice, slice, List.drop_take, List.take_take, Nat.min_eq_left (by omega)]
    rw [hcut, h.take_setNamelen, ← hcut]
  have hfstat : (h.setNamelen n).fstat = h.fstat := Subtype.ext (hslice 0 TFS_INODE_ATTR_SIZE (by decide))
  rw [decodeHeader, hfstat, field, hslice _ _ (by decide), h.namelen_setNamelen, decodeHeader, field]

theorem decode_getInlineData (hv : decode value = some v) {offset size : Nat} (ho : offset < 2 ^ 62)
    (hs : size < 2 ^ 62) :
    getInlineData value offset size = some (TableFS.getInlineData v offset size) := by
  obtain ⟨h, body, rfl, rfl⟩ := exists_of_decode hv
  exact getInlineData_append h body ho hs

theorem decode_updateInlineData (hv : decode value = some v) (buf : List UInt8) {offset : Nat} (ho : offset < 2 ^ 62) :
    (updateInlineData value buf offset).bind decode = some (TableFS.updateInlineData v buf offset) := by
  obtain ⟨h, body, rfl, rfl⟩ := exists_of_decode hv
  rw [updateInlineData_append h body buf ho, Option.bind_some, decode_append]
  rfl

theorem decode_truncateInlineData (hv : decode value = some v) {new_size : Nat} (hs : new_size < 2 ^ 62) :
    (truncateInlineData value new_size).bind decode = some (TableFS.truncateInlineData v new_size) := by
  obtain ⟨h, body, rfl, rfl⟩ := exists_of_decode hv
  rw [truncateInlineData_append h body hs, Option.bind_some, decode_append, TableFS.truncateInlineData,
    Nat.add_right_comm]
  rfl

theorem decode_dropInlineData (hv : decode value = some v) :
    (dropInlineData value).bind decode = some (TableFS.dropInlineData v) := by
  obtain ⟨h, body, rfl, rfl⟩ := exists_of_decode hv
  rw [dropInlineData_append, Option.bind_some, decode_append]
  rfl

theorem decode_updateInodeHeader (hv : decode value = some v) (h' : HeaderBytes) :
    (updateInodeHeader value h').bind decode = some (TableFS.updateInodeHeader v (decodeHeader h')) := by
  obtain ⟨h, body, rfl, rfl⟩ := exists_of_decode hv
  rw [updateInodeHeader_append, Option.bind_some, decode_append]
  rfl

theorem decode_updateAttribute (hv : decode value = some v) (st : StatBytes) :
    (updateAttribute value st).bind decode = some (TableFS.updateAttribute v (decodeStat st)) := by
  obtain ⟨h, body, rfl, rfl⟩ := exists_of_decode hv
  rw [updateAttribute_append, Option.bind_some, decode_append, decodeHeader_setFstat]
  rfl

/-- The model's rename is that of the source as long as both sizes are 32-bit numbers. -/
theorem decode_initInodeValue (hv : decode value = some v) {filename : List UInt8}
    (hold : v.header.namelen + 1 < 2 ^ 32) (hnew : filename.length < 2 ^ 32) :
    (initInodeValue value filename).bind decode = some (renameInodeValue v filename) := by
  obtain ⟨h, body, rfl, rfl⟩ := exists_of_decode hv
  change h.namelen + 1 < 2 ^ 32 at hold
  rw [initInodeValue_append, Option.bind_some, decode_append, decodeHeader_setNamelen, uint32, uint32,
    Nat.mod_eq_of_lt hold, Nat.mod_eq_of_lt hnew]
  rfl

end

/-- New bytes over old data: a gap between the two is filled with zeros. -/
structure Overlaid (data buf : List UInt8) (offset : Nat) (data' : List UInt8) : Prop where
  length : data'.length = max data.length (offset + buf.length)
  written : ∀ i < buf.length, data'[offset + i]? = buf[i]?
  kept : ∀ i < data.length, i < offset ∨ offset + buf.length ≤ i → data'[i]? = data[i]?
  gap : ∀ i, data.length ≤ i → i < offset → data'[i]? = some 0

/-- The first bytes are new and the others as they were; so are the name and the data. -/
structure Fronted (bytes value value' : List UInt8) : Prop where
  front : value'.take bytes.length = bytes
  rest : value'.drop bytes.length = value.drop bytes.length
  label : (label value').drop TFS_INODE_HEADER_SIZE = (label value).drop TFS_INODE_HEADER_SIZE
  data : inlineData value' = inlineData value

/-- Another name, with its size and its terminator; the rest of the header and the data are as they were. -/
structure Renamed (value name value' : List UInt8) : Prop where
  header : value'.take NAMELEN_OFFSET = value.take NAMELEN_OFFSET
  namelen : namelen value' = name.length
  label : (label value').drop TFS_INODE_HEADER_SIZE = name ++ [0]
  data : inlineData value' = inlineData value

section
variable {value : List UInt8}

private theorem overlaid_overlay (data buf : List UInt8) (offset : Nat) :
    Overlaid data buf offset (overlay 0 offset buf data) where
  length := length_overlay 0 offset buf data
  written i hi := by
    rw [getElem?_overlay, if_neg (by omega), if_pos (by omega), Nat.add_sub_cancel_left]
  kept i hi hout := by
    rw [getElem?_overlay]
    split
    · rw [List.getElem?_eq_getElem hi, Option.getD_some]
    · rw [if_neg (by omega)]
  gap i hge hlt := by
    rw [getElem?_overlay, if_pos hlt, List.getElem?_eq_none hge, Option.getD_none]

private theorem getInlineData_law (hv : WellFormed value) {offset size : Nat} (ho : offset < 2 ^ 62)
    (hs : size < 2 ^ 62) :
    getInlineData value offset size = some (slice offset size (inlineData value)) := by
  obtain ⟨h, body, rfl, _⟩ := exists_append hv
  rw [getInlineData_append h body ho hs, inlineData_append, slice, slice, List.drop_drop]

private theorem updateInlineData_law (hv : WellFormed value) (buf : List UInt8) {offset : Nat} (ho : offset < 2 ^ 62) :
    ∃ value', updateInlineData value buf offset = some value' ∧ label value' = label value ∧
      Overlaid (inlineData value) buf offset (inlineData value') := by
  obtain ⟨h, body, rfl, hsized⟩ := exists_append hv
  obtain ⟨hkeeps, hinline⟩ := keeps_updateInlineData ⟨decodeHeader h, body⟩ buf offset
  refine ⟨_, updateInlineData_append h body buf ho, ?_, ?_⟩
  · rw [label_append, label_append]
    exact congrArg (h.val ++ ·) (hkeeps.label hsized)
  · rw [inlineData_append, inlineData_append]
    have hdata : (overlay 0 (h.namelen + 1 + offset) buf body).drop (h.namelen + 1) =
        overlay 0 offset buf (body.drop (h.namelen + 1)) := hinline hsized
    rw [hdata]
    exact overlaid_overlay _ buf offset

private theorem truncateInlineData_law (hv : WellFormed value) {size : Nat} (hs : size < 2 ^ 62) :
    ∃ value', truncateInlineData value size = some value' ∧ label value' = label value ∧
      inlineData value' = resize 0 size (inlineData value) := by
  obtain ⟨h, body, rfl, hsized⟩ := exists_append hv
  obtain ⟨hkeeps, hinline⟩ := keeps_truncateInlineData ⟨decodeHeader h, body⟩ size
  refine ⟨_, truncateInlineData_append h body hs, ?_, ?_⟩
  · rw [label_append, label_append, Nat.add_right_comm]
    exact congrArg (h.val ++ ·) (hkeeps.label hsized)
  · rw [inlineData_append, inlineData_append, Nat.add_right_comm]
    exact hinline hsized

private theorem updateInodeHeader_law (hv : WellFormed value) (h' : HeaderBytes) (hn : h'.namelen = namelen value) :
    ∃ value', updateInodeHeader value h' = some value' ∧ Fronted h'.val value value' := by
  obtain ⟨h, body, rfl, _⟩ := exists_append hv
  rw [namelen_append] at hn
  refine ⟨_, updateInodeHeader_append h h' body, List.take_left, ?_, ?_, ?_⟩
  · rw [List.drop_left, h'.property, List.drop_left' h.property]
  · rw [label_append, label_append, List.drop_left' h'.property, List.drop_left' h.property, hn]
  · rw [inlineData_append, inlineData_append, hn]

private theorem updateAttribute_law (hv : WellFormed value) (st : StatBytes) :
    ∃ value', updateAttribute value st = some value' ∧ Fronted st.val value value' := by
  obtain ⟨h, body, rfl, _⟩ := exists_append hv
  have hval : (h.setFstat st).val ++ body = st.val ++ (h.val.drop TFS_INODE_ATTR_SIZE ++ body) :=
    List.append_assoc _ _ _
  refine ⟨_, updateAttribute_append h st body, ?_, ?_, ?_, ?_⟩
  · rw [hval, List.take_left]
  · rw [hval, List.drop_left, st.property, List.drop_append_of_le_length h.fstat_le_length]
  · rw [label_append, label_append, List.drop_left' (h.setFstat st).property, List.drop_left' h.property,
      h.namelen_setFstat]
  · rw [inlineData_append, inlineData_append, h.namelen_setFstat]

private theorem initInodeValue_law (hv : WellFormed value) (name : List UInt8) :
    ∃ value', initInodeValue value name = some value' ∧
      (Renamed value name value' ↔ namelen value + 1 < 2 ^ 32 ∧ name.length < 2 ^ 32) := by
  obtain ⟨h, body, rfl, hsized⟩ := exists_append hv
  have hlen (l : List UInt8) : (name ++ [0] ++ l).length = name.length + 1 + l.length := by
    rw [List.length_append, List.length_append, List.length_singleton]
  refine ⟨_, initInodeValue_append h body name, ?_⟩
  rw [namelen_append]
  constructor
  · intro hr
    have hname := hr.namelen
    rw [namelen_append, h.namelen_setNamelen] at hname
    have hdata := congrArg List.length hr.data
    rw [inlineData_append, inlineData_append, h.namelen_setNamelen, hname, List.length_drop, hlen, List.length_drop,
      List.length_drop] at hdata
    unfold uint32 at hname hdata
    omega
  · rintro ⟨hold, hnew⟩
    have hn : (h.setNamelen name.length).namelen = name.length := by
      rw [h.namelen_setNamelen, uint32, Nat.mod_eq_of_lt hnew]
    refine ⟨?_, ?_, ?_, ?_⟩
    · rw [List.take_append_of_le_length (h.setNamelen _).namelen_le_length, h.take_setNamelen,
        List.take_append_of_le_length h.namelen_le_length]
    · rw [namelen_append, hn]
    · rw [label_append, List.drop_left' (h.setNamelen name.length).property, hn, List.take_left' (by simp)]
    · rw [inlineData_append, inlineData_append, hn, List.drop_left' (by simp), uint32, Nat.mod_eq_of_lt hold]

private theorem initInodeValue_twice (hv : WellFormed value) (x y : List UInt8) :
    (initInodeValue value x).bind (initInodeValue · y) = initInodeValue value y ↔ x.length + 1 < 2 ^ 32 := by
  obtain ⟨h, body, rfl, _⟩ := exists_append hv
  have hw : uint32 ((h.setNamelen x.length).namelen + 1) = (x.length + 1) % 2 ^ 32 := by
    rw [h.namelen_setNamelen, uint32, uint32, Nat.mod_add_mod]
  simp only [initInodeValue_append, Option.bind_some, HeaderBytes.setNamelen_setNamelen, hw, Option.some.injEq,
    List.append_cancel_left_eq]
  constructor
  · intro he
    have hlen := congrArg List.length he
    simp only [List.length_drop, List.length_append, List.length_singleton] at hlen
    omega
  · intro hx
    rw [Nat.mod_eq_of_lt hx, List.drop_left' (by simp)]

/-- With the longest name that a header can announce, the size of name and terminator comes to 0, and
the old name is left in front of the data. -/
private theorem initInodeValue_longest {h : HeaderBytes} (hn : h.namelen = 4294967295) {body : List UInt8}
    (hb : body.length = 4294967296) :
    WellFormed (h.val ++ body) ∧ inlineData (h.val ++ body) = [] ∧
      ∃ value', initInodeValue (h.val ++ body) [] = some value' ∧ (inlineData value').length = 4294967296 := by
  refine ⟨?_, ?_, _, initInodeValue_append h body [], ?_⟩
  · rw [WellFormed, namelen_append, hn, List.length_append, hb, h.property]
  · rw [inlineData_append, hn]
    exact List.drop_of_length_le (Nat.le_of_eq hb)
  · rw [inlineData_append, h.namelen_setNamelen, hn, List.length_drop, List.length_append, List.length_drop, hb]
    rfl

end

/-- What the operations on well-formed values do. A rename keeps to the name, its size and its
terminator exactly if the old size with the terminator and the new size are 32-bit numbers. A second
rename takes the first back exactly if the first name's size with its terminator is one. -/
theorem value_codec_iff (value : List UInt8) (hv : WellFormed value) :
    (∀ offset size, offset < 2 ^ 62 → size < 2 ^ 62 →
      getInlineData value offset size = some (slice offset size (inlineData value))) ∧
    (∀ buf offset, offset < 2 ^ 62 → buf.length < 2 ^ 62 → ∃ value', updateInlineData value buf offset = some value' ∧
      label value' = label value ∧ Overlaid (inlineData value) buf offset (inlineData value')) ∧
    (∀ size, size < 2 ^ 62 → ∃ value', truncateInlineData value size = some value' ∧
      label value' = label value ∧ inlineData value' = resize 0 size (inlineData value)) ∧
    (∀ h : HeaderBytes, h.namelen = namelen value → ∃ value', updateInodeHeader value h = some value' ∧
      Fronted h.val value value') ∧
    (∀ st : StatBytes, ∃ value', updateAttribute value st = some value' ∧ Fronted st.val value value') ∧
    (∀ name, ∃ value', initInodeValue value name = some value' ∧
      (Renamed value name value' ↔ namelen value + 1 < 2 ^ 32 ∧ name.length < 2 ^ 32)) ∧
    ∀ x y, (initInodeValue value x).bind (initInodeValue · y) = initInodeValue value y ↔ x.length + 1 < 2 ^ 32 :=
  ⟨fun _ _ ho hs => getInlineData_law hv ho hs, fun buf _ ho _ => updateInlineData_law hv buf ho,
    fun _ hs => truncateInlineData_law hv hs, updateInodeHeader_law hv, updateAttribute_law hv, initInodeValue_law hv,
    initInodeValue_twice hv⟩

/-- A name of one byte, and two bytes of data. -/
def shortValue : List UInt8 := List.replicate 252 0 ++ le32 1 ++ [97, 0] ++ [7, 8]

private theorem wellFormed_shortValue : WellFormed shortValue := by
  unfold WellFormed
  decide +kernel

theorem value_codec_iff_short :
    getInlineData shortValue 1 5 = some [8] ∧
      (initInodeValue shortValue [98, 99]).bind (initInodeValue · [100]) = initInodeValue shortValue [100] := by
  obtain ⟨hget, _, _, _, _, _, htwice⟩ := value_codec_iff shortValue wellFormed_shortValue
  refine ⟨(hget 1 5 (by decide) (by decide)).trans ?_, (htwice [98, 99] [100]).mpr (by decide)⟩
  decide +kernel

/-- A header that announces a name of 2^32 - 1 bytes. -/
def longestHeader : HeaderBytes := ⟨List.replicate 252 0 ++ le32 4294967295, by decide +kernel⟩

/-- After a name of 2^32 - 1 bytes a rename does not keep the data, and a second rename does not take
such a name back. -/
theorem value_codec_broken :
    (WellFormed (longestHeader.val ++ List.replicate 4294967296 0) ∧
      inlineData (longestHeader.val ++ List.replicate 4294967296 0) = [] ∧
      ∃ value', initInodeValue (longestHeader.val ++ List.replicate 4294967296 0) [] = some value' ∧
        (inlineData value').length = 4294967296) ∧
    (initInodeValue shortValue (List.replicate 4294967295 97)).bind
      (initInodeValue · []) ≠ initInodeValue shortValue [] := by
  have hn : longestHeader.namelen = 4294967295 := by decide +kernel
  refine ⟨initInodeValue_longest hn List.length_replicate, fun he => ?_⟩
  have hlt := (initInodeValue_twice wellFormed_shortValue _ _).mp he
  rw [List.length_replicate] at hlt
  exact absurd hlt (by decide)

end TableFS.Raw
