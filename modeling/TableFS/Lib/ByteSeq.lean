import Mathlib.Data.List.Basic

/-! Resizing and overlaying finite sequences, padding with a fill element. -/
namespace ByteSeq
variable {α : Type}

/-- The first n elements, padded with z when there are fewer. -/
def resize (z : α) (n : Nat) (l : List α) : List α := l.take n ++ List.replicate (n - l.length) z

/-- Overwrite l with b from position off on; a gap before off is filled with z. -/
def overlay (z : α) (off : Nat) (b l : List α) : List α :=
  resize z off l ++ b ++ l.drop (off + b.length)

/-- At most n elements from position off on. -/
def slice (off n : Nat) (l : List α) : List α := (l.drop off).take n

@[simp] theorem length_resize (z : α) (n : Nat) (l : List α) : (resize z n l).length = n := by
  simp only [resize, List.length_append, List.length_take, List.length_replicate]
  omega

theorem resize_of_le (z : α) {n : Nat} {l : List α} (h : n ≤ l.length) : resize z n l = l.take n := by
  simp [resize, Nat.sub_eq_zero_of_le h]

@[simp] theorem resize_zero (z : α) (l : List α) : resize z 0 l = [] := by simp [resize]

theorem resize_append (z : α) (p l : List α) (n : Nat) :
    resize z (p.length + n) (p ++ l) = p ++ resize z n l := by
  simp only [resize, List.take_length_add_append, List.length_append, List.append_assoc]
  rw [Nat.add_sub_add_left]

theorem length_overlay (z : α) (off : Nat) (b l : List α) :
    (overlay z off b l).length = max l.length (off + b.length) := by
  simp only [overlay, List.length_append, length_resize, List.length_drop]
  omega

theorem overlay_append (z : α) (p l b : List α) (off : Nat) :
    overlay z (p.length + off) b (p ++ l) = p ++ overlay z off b l := by
  simp only [overlay, resize_append, List.append_assoc]
  rw [Nat.add_assoc, List.drop_length_add_append]

@[simp] theorem overlay_nil (z : α) (b : List α) : overlay z 0 b [] = b := by simp [overlay]

theorem getElem?_resize (z : α) (n : Nat) (l : List α) {i : Nat} (hi : i < n) :
    (resize z n l)[i]? = some (l[i]?.getD z) := by
  by_cases h : i < l.length
  · rw [resize, List.getElem?_append_left (by rw [List.length_take]; omega), List.getElem?_take_of_lt hi,
      List.getElem?_eq_getElem h, Option.getD_some]
  · have hge : l.length ≤ i := Nat.le_of_not_lt h
    rw [resize, List.take_of_length_le (by omega), List.getElem?_append_right hge, List.getElem?_replicate,
      if_pos (by omega), List.getElem?_eq_none hge, Option.getD_none]

/-- Before the new elements the old ones or the filling, and after them the old ones. -/
theorem getElem?_overlay (z : α) (off : Nat) (b l : List α) (i : Nat) :
    (overlay z off b l)[i]? =
      if i < off then some (l[i]?.getD z) else if i < off + b.length then b[i - off]? else l[i]? := by
  unfold overlay
  split
  · rename_i hi
    rw [List.append_assoc, List.getElem?_append_left (by rwa [length_resize]), getElem?_resize z off l hi]
  · rename_i hi
    rw [List.append_assoc, List.getElem?_append_right (by rw [length_resize]; omega), length_resize]
    split
    · rw [List.getElem?_append_left (by omega)]
    · rw [List.getElem?_append_right (by omega), List.getElem?_drop]
      congr 1
      omega

theorem length_slice (off n : Nat) (l : List α) :
    (slice off n l).length = min n (l.length - off) := by
  simp [slice]

end ByteSeq
