import Mathlib.Data.List.Basic

/-! Reading a sequence line by line through a buffer of fixed size, as std::istream::getline does:
a line that does not fit into the buffer puts the stream out of order. -/
namespace LineReader
variable {α : Type}

/-- What is left to read, and the state of the stream. -/
structure Stream (α : Type) where
  rest : List α
  eofbit : Bool
  failbit : Bool

def Stream.good (s : Stream α) : Bool := !s.eofbit && !s.failbit

def Stream.start (text : List α) : Stream α := ⟨text, false, false⟩

section
variable [DecidableEq α]

/-- What comes before the delimiter, as far as there is room. The end is looked for first, then the
delimiter, which is taken from the stream, and then room for one more. -/
def extract (delim : α) : Nat → List α → List α × Stream α
  | _, [] => ([], ⟨[], true, false⟩)
  | room, c :: cs =>
    if c = delim then ([], ⟨cs, false, false⟩)
    else
      match room with
      | 0 => ([], ⟨c :: cs, false, true⟩)
      | room + 1 => (c :: (extract delim room cs).1, (extract delim room cs).2)

/-- The last place of the buffer is for the terminator. To extract nothing is to fail. -/
def getline (size : Nat) (delim : α) (s : Stream α) : List α × Stream α :=
  if s.good then
    let (line, s') := extract delim (size - 1) s.rest
    (line, { s' with failbit := s'.failbit || s'.rest.length == s.rest.length })
  else ([], { s with failbit := true })

variable {delim : α} {line tail text : List α} {room size : Nat}

theorem extract_cons (delim c : α) (room : Nat) (text : List α) :
    extract delim room (c :: text) = if c = delim then ([], .start text) else
      match room with
      | 0 => ([], ⟨c :: text, false, true⟩)
      | room + 1 => (c :: (extract delim room text).1, (extract delim room text).2) := by
  rw [extract.eq_def]
  rfl

theorem extract_delim (hline : delim ∉ line) (hroom : line.length ≤ room) (tail : List α) :
    extract delim room (line ++ delim :: tail) = (line, .start tail) := by
  induction line generalizing room with
  | nil => rw [List.nil_append, extract_cons, if_pos rfl]
  | cons c line ih =>
    obtain ⟨hc, hline⟩ := not_or.mp (mt List.mem_cons.mpr hline)
    rw [List.cons_append, extract_cons, if_neg (Ne.symm hc)]
    cases room with
    | zero => simp at hroom
    | succ room =>
      dsimp only
      rw [ih hline (Nat.le_of_succ_le_succ hroom)]

theorem extract_full (hline : delim ∉ line) (hroom : room < line.length) (tail : List α) :
    extract delim room (line ++ tail) = (line.take room, ⟨line.drop room ++ tail, false, true⟩) := by
  induction line generalizing room with
  | nil => simp at hroom
  | cons c line ih =>
    obtain ⟨hc, hline⟩ := not_or.mp (mt List.mem_cons.mpr hline)
    rw [List.cons_append, extract_cons, if_neg (Ne.symm hc)]
    cases room with
    | zero => rfl
    | succ room =>
      dsimp only
      rw [ih hline (Nat.lt_of_succ_lt_succ hroom)]
      rfl

/-- A stream still in order has lost at least the delimiter. -/
theorem length_extract (h : (extract delim room text).2.good) :
    (extract delim room text).2.rest.length < text.length := by
  induction text generalizing room with
  | nil => simp [extract, Stream.good] at h
  | cons c text ih =>
    rw [extract_cons] at h ⊢
    split
    · simp [Stream.start]
    · rename_i hc
      rw [if_neg hc] at h
      cases room with
      | zero => simp [Stream.good] at h
      | succ room => exact Nat.lt_succ_of_lt (ih h)

theorem length_getline {s : Stream α} (h : (getline size delim s).2.good) :
    (getline size delim s).2.rest.length < s.rest.length := by
  unfold getline at h ⊢
  split at h
  · rename_i hs
    rw [if_pos hs]
    refine length_extract ?_
    simp only [Stream.good, Bool.and_eq_true, Bool.not_eq_true', Bool.or_eq_false_iff] at h ⊢
    exact ⟨h.1, h.2.1⟩
  · simp [Stream.good] at h

/-- The lines that a loop reads which calls getline as long as the stream is good. -/
def readLines (size : Nat) (delim : α) (s : Stream α) : List (List α) :=
  if s.good then (getline size delim s).1 :: readLines size delim (getline size delim s).2 else []
termination_by if s.good then s.rest.length + 1 else 0
decreasing_by
  rename_i hs
  rw [if_pos hs]
  split
  · rename_i hgood
    exact Nat.succ_lt_succ (length_getline hgood)
  · exact Nat.succ_pos _

theorem readLines_of_not_good {s : Stream α} (h : s.good = false) : readLines size delim s = [] := by
  rw [readLines, h]
  rfl

theorem readLines_start (text : List α) :
    readLines size delim (.start text) =
      (getline size delim (.start text)).1 :: readLines size delim (getline size delim (.start text)).2 := by
  rw [readLines]
  rfl

/-- After the last delimiter the loop reads one more line, which is empty. -/
theorem readLines_nil : readLines size delim (.start []) = [[]] := by
  have hget : getline size delim (.start []) = ([], ⟨[], true, true⟩) := by
    simp [getline, extract, Stream.start, Stream.good]
  rw [readLines_start, hget, readLines_of_not_good rfl]

/-- A line that fits into the buffer. -/
theorem readLines_fits (hline : delim ∉ line) (hsize : line.length < size) (tail : List α) :
    readLines size delim (.start (line ++ delim :: tail)) = line :: readLines size delim (.start tail) := by
  have hget : getline size delim (.start (line ++ delim :: tail)) = (line, .start tail) := by
    have hextract := extract_delim hline (Nat.le_sub_one_of_lt hsize) tail
    have hne : tail.length ≠ line.length + (tail.length + 1) := by omega
    simp [getline, Stream.start, Stream.good, hextract, hne]
  rw [readLines_start, hget]

/-- A line that does not fit: the loop ends with what the buffer holds of it. -/
theorem readLines_long (hline : delim ∉ line) (hsize : size ≤ line.length) (hpos : 0 < size) (tail : List α) :
    readLines size delim (.start (line ++ tail)) = [line.take (size - 1)] := by
  have hextract := extract_full hline (Nat.sub_one_lt_of_le hpos hsize) tail
  have hline : (getline size delim (.start (line ++ tail))).1 = line.take (size - 1) := by
    simp [getline, Stream.start, Stream.good, hextract]
  have hbad : (getline size delim (.start (line ++ tail))).2.good = false := by
    simp [getline, Stream.start, Stream.good, hextract]
  rw [readLines_start, hline, readLines_of_not_good hbad]

end
end LineReader
