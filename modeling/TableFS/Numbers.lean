import TableFS.Sessions
import TableFS.Storage

/-! Inode numbers as text: the counter that Destroy writes into root.dat and Setup reads back,
and the names of the data files. Both texts keep 32 of the 64 bits of a number. -/
namespace TableFS

/-- A 64-bit number given to printf for `%u`, which takes 32 bits. -/
def printUnsigned (n : UInt64) : List Char := Nat.toDigits 10 (n.toNat % 4294967296)

/-- A number of type int given to printf for `%d`. -/
def printInt (i : Int) : List Char :=
  if i < 0 then '-' :: Nat.toDigits 10 i.natAbs else Nat.toDigits 10 i.natAbs

/-- What isspace takes for white space. -/
def isBlank (c : Char) : Bool := c.isWhitespace || c == '\x0b' || c == '\x0c'

/-- The unsigned long that strtoul makes of a number and its sign; what is out of range gives the largest. -/
def strtoul (negative : Bool) (n : Nat) : Nat :=
  if 18446744073709551616 ≤ n then 18446744073709551615
  else if negative then (18446744073709551616 - n) % 18446744073709551616
  else n

/-- fscanf with `%u`: the digits after any white space and a sign, of which 32 bits are stored. -/
def scanUnsigned (text : List Char) : Option Nat :=
  let scan (negative : Bool) (cs : List Char) : Option Nat :=
    let digits := cs.takeWhile Char.isDigit
    if digits = [] then none else some (strtoul negative (Nat.ofDigitChars 10 digits 0) % 4294967296)
  match text.dropWhile isBlank with
  | '-' :: cs => scan true cs
  | '+' :: cs => scan false cs
  | cs => scan false cs

/-- The text of root.dat, as FileSystemState::Setup and Destroy write it. -/
def rootDat (max_inode_num : UInt64) : List Char := printUnsigned max_inode_num ++ ['\n']

/-- The counter after Setup has read root.dat. The constructor set all 64 bits to zero, and
fscanf stores into the lower half of them. -/
def scanRootDat (text : List Char) : UInt64 :=
  match scanUnsigned text with
  | some n => .ofNat n
  | none => 0

/-- The text that GetDiskFilePath prints. -/
def printDiskFilePath (datadir : List Char) (inode_id : UInt64) : List Char :=
  datadir ++ '/' :: (printInt (getDiskFilePath inode_id).1 ++ '/' :: printInt (getDiskFilePath inode_id).2)

private theorem mem_toDigits {n : Nat} {c : Char} (h : c ∈ Nat.toDigits 10 n) : c.isDigit = true :=
  Nat.isDigit_of_mem_toDigits (by decide) (by decide) h

private theorem not_isBlank_of_isDigit {c : Char} (h : c.isDigit = true) : isBlank c = false := by
  by_contra hw
  simp only [isBlank, Char.isWhitespace, Bool.not_eq_false, Bool.or_eq_true, decide_eq_true_eq, beq_iff_eq] at hw
  rcases hw with ((((rfl | rfl) | rfl) | rfl) | rfl) | rfl <;> exact absurd h (by decide)

private theorem scanUnsigned_toDigits {n : Nat} (hn : n < 18446744073709551616) {c : Char} (hc : c.isDigit = false)
    (rest : List Char) : scanUnsigned (Nat.toDigits 10 n ++ c :: rest) = some (n % 4294967296) := by
  have hdigits : (Nat.toDigits 10 n ++ c :: rest).takeWhile Char.isDigit = Nat.toDigits 10 n := by
    rw [List.takeWhile_append_of_pos fun _ h => mem_toDigits h, List.takeWhile_cons_of_neg (by simp [hc]),
      List.append_nil]
  have hvalue : Nat.ofDigitChars 10 (Nat.toDigits 10 n) 0 = n := Nat.ofDigitChars_toDigits (by decide) (by decide)
  cases ht : Nat.toDigits 10 n with
  | nil => exact absurd ht Nat.toDigits_ne_nil
  | cons d ds =>
    have hd := mem_toDigits (n := n) (c := d) (ht ▸ List.mem_cons_self)
    have hminus : d ≠ '-' := by
      rintro rfl
      exact absurd hd (by decide)
    have hplus : d ≠ '+' := by
      rintro rfl
      exact absurd hd (by decide)
    rw [ht, List.cons_append] at hdigits
    rw [ht] at hvalue
    unfold scanUnsigned
    rw [List.cons_append, List.dropWhile_cons_of_neg (by simp [not_isBlank_of_isDigit hd])]
    dsimp only
    split
    · rename_i he
      exact absurd (List.cons.inj he).1 hminus
    · rename_i he
      exact absurd (List.cons.inj he).1 hplus
    · rw [hdigits, if_neg (List.cons_ne_nil d ds), hvalue, strtoul, if_neg (Nat.not_le.mpr hn),
        if_neg Bool.false_ne_true]

private theorem toDigits_injective {m n : Nat} (h : Nat.toDigits 10 m = Nat.toDigits 10 n) : m = n := by
  rw [← Nat.ofDigitChars_toDigits (b := 10) (n := m) (by decide) (by decide), h,
    Nat.ofDigitChars_toDigits (by decide) (by decide)]

private theorem mem_printInt {i : Int} {c : Char} (h : c ∈ printInt i) : c = '-' ∨ c.isDigit = true := by
  unfold printInt at h
  split at h
  · rcases List.mem_cons.mp h with rfl | h
    · exact .inl rfl
    · exact .inr (mem_toDigits h)
  · exact .inr (mem_toDigits h)

private theorem printInt_injective {i j : Int} (h : printInt i = printInt j) : i = j := by
  have hsign (n m : Nat) : '-' :: Nat.toDigits 10 n ≠ Nat.toDigits 10 m := by
    intro he
    have hd : '-'.isDigit = true := mem_toDigits (he ▸ List.mem_cons_self)
    exact absurd hd (by decide)
  unfold printInt at h
  split at h <;> split at h
  · have := toDigits_injective (List.cons.inj h).2
    omega
  · exact absurd h (hsign _ _)
  · exact absurd h.symm (hsign _ _)
  · have := toDigits_injective h
    omega

private theorem scanRootDat_rootDat (m : UInt64) : scanRootDat (rootDat m) = .ofNat (m.toNat % 4294967296) := by
  have hscan := scanUnsigned_toDigits (n := m.toNat % 4294967296) (by omega) (c := '\n') (by decide) []
  rw [Nat.mod_mod] at hscan
  simp only [scanRootDat, rootDat, printUnsigned, hscan]

/-- The number that a session passes on to the next is the one that goes through root.dat. -/
theorem mount_counter (s : State) (root_dat : Option Nat) (config : Config) (env : Env) (mode : UInt32) (dev : Nat) :
    ((s.destroy root_dat true).mount config env mode dev).max_inode_num = scanRootDat (rootDat s.max_inode_num) := by
  rw [scanRootDat_rootDat]
  rfl

theorem scanRootDat_rootDat_eq_iff (m : UInt64) : scanRootDat (rootDat m) = m ↔ m.toNat < 4294967296 := by
  have hlt : m.toNat % 4294967296 < UInt64.size := by
    have := Nat.mod_lt m.toNat (show 0 < 4294967296 by decide)
    simp only [UInt64.size]
    omega
  rw [scanRootDat_rootDat, ← UInt64.toNat_inj, UInt64.toNat_ofNat_of_lt' hlt]
  omega

theorem printDiskFilePath_eq_iff (datadir : List Char) (i j : UInt64) :
    printDiskFilePath datadir i = printDiskFilePath datadir j ↔ getDiskFilePath i = getDiskFilePath j := by
  have hslash (n : Int) : '/' ∉ printInt n := by
    intro h
    rcases mem_printInt h with h | h <;> exact absurd h (by decide)
  refine ⟨fun h => ?_, fun h => by rw [printDiskFilePath, h, printDiskFilePath]⟩
  have htail := (List.cons.inj (List.append_cancel_left h)).2
  obtain ⟨hdir, _, hfile⟩ := (List.append_cons_inj_of_notMem (hslash _) (hslash _)).mp htail
  exact Prod.ext (printInt_injective hdir) (printInt_injective hfile)

/-- The counter survives a clean unmount exactly if it fits into 32 bits, and two inodes have one
data file exactly if their numbers agree in the low 32 bits. -/
theorem numbers_faithful_iff (m : UInt64) (datadir : List Char) (i j : UInt64) :
    (scanRootDat (rootDat m) = m ↔ m.toNat < 4294967296) ∧
      (printDiskFilePath datadir i ≠ printDiskFilePath datadir j ↔ i.toNat % 4294967296 ≠ j.toNat % 4294967296) := by
  refine ⟨scanRootDat_rootDat_eq_iff m, ?_⟩
  rw [Ne, printDiskFilePath_eq_iff, getDiskFilePath_eq_iff]

/-- A counter of 2^32 comes back as 0, and inode 2^32 + 1 has the data file of inode 1. -/
theorem numbers_wrap :
    scanRootDat (rootDat 4294967296) = 0 ∧
      printDiskFilePath "data".toList 4294967297 = printDiskFilePath "data".toList 1 := by
  decide +kernel

end TableFS
