import Mathlib.Data.List.Lex
import Mathlib.Data.List.TakeWhile
import TableFS.Disk
import TableFS.Lib.LineReader
import TableFS.Lib.OrderedMap

/-! Property maps and their files: util/properties.cpp. A file has one line key=value for each
property, in the order of the map. -/
namespace TableFS
open LineReader OrderedMap

abbrev Text := List UInt8

/-- The bytes of a text of ASCII characters. -/
def ascii (text : String) : Text := text.toList.map fun c => c.toNat.toUInt8

def isSpace (c : UInt8) : Bool := c == 32 || 9 ≤ c && c ≤ 13

def isDigit (c : UInt8) : Bool := 48 ≤ c && c ≤ 57

/-- The number that the digits in front stand for. -/
def decimal (text : Text) : Int := ((text.takeWhile isDigit).foldl (fun n c => 10 * n + (c.toNat - 48)) 0 : Nat)

/-- atoi: the number after any white space and a sign, clamped as strtol does. -/
def atoi (text : Text) : Int :=
  match text.dropWhile isSpace with
  | 45 :: cs => cInt (max (-decimal cs) (-9223372036854775808))
  | 43 :: cs => cInt (min (decimal cs) 9223372036854775807)
  | cs => cInt (min (decimal cs) 9223372036854775807)

structure Properties where
  plist : Std.ExtTreeMap Text Text compare

namespace Properties

def new : Properties := ⟨∅⟩

def setProperty (p : Properties) (key value : Text) : Properties := ⟨p.plist.insert key value⟩

def getProperty (p : Properties) (key defaultVal : Text) : Text := p.plist.getD key defaultVal

def getPropertyInt (p : Properties) (key : Text) (defaultVal : Int) : Int :=
  match p.plist[key]? with
  | some text => atoi text
  | none => defaultVal

/-- The bytes '=' and newline. -/
def EQUALS : UInt8 := 61
def NEWLINE : UInt8 := 10

/-- The body of load's loop. The buffer is a C string, which a NUL in the file would end. -/
def loadLine (p : Properties) (line : Text) : Properties :=
  let text := line.takeWhile (· ≠ 0)
  match text.dropWhile (· ≠ EQUALS) with
  | [] => p
  | _ :: val => p.setProperty (text.takeWhile (· ≠ EQUALS)) val

/-- A file that does not open leaves the stream out of order from the start. -/
def load (p : Properties) (file : Option Text) : Properties :=
  let is := match file with
    | some text => .start text
    | none => ⟨[], false, true⟩
  (readLines 1024 NEWLINE is).foldl loadLine p

def entryLine (entry : Text × Text) : Text := entry.1 ++ EQUALS :: entry.2

/-- What the file holds. -/
def store (p : Properties) : Text := p.plist.toList.flatMap fun entry => entryLine entry ++ [NEWLINE]

/-- An entry that a line of the file can hold. -/
structure Writable (entry : Text × Text) : Prop where
  key_equals : EQUALS ∉ entry.1
  key_newline : NEWLINE ∉ entry.1
  key_nul : 0 ∉ entry.1
  value_newline : NEWLINE ∉ entry.2
  value_nul : 0 ∉ entry.2

instance (entry : Text × Text) : Decidable (Writable entry) :=
  decidable_of_iff ((EQUALS ∉ entry.1 ∧ NEWLINE ∉ entry.1 ∧ 0 ∉ entry.1) ∧ NEWLINE ∉ entry.2 ∧ 0 ∉ entry.2)
    ⟨fun h => ⟨h.1.1, h.1.2.1, h.1.2.2, h.2.1, h.2.2⟩, fun h => ⟨⟨h.1, h.2, h.3⟩, h.4, h.5⟩⟩

/-- The line and its terminator fit into load's buffer. -/
def Short (entry : Text × Text) : Prop := entry.1.length + 1 + entry.2.length < 1024

instance (entry : Text × Text) : Decidable (Short entry) := inferInstanceAs (Decidable (_ < _))

/-- What load finds of the entries that were stored: all before the first line that is too long,
and of that one what the buffer holds, if its key and the '=' are in it. -/
def kept : List (Text × Text) → List (Text × Text)
  | [] => []
  | entry :: entries =>
    if Short entry then entry :: kept entries
    else if entry.1.length < 1023 then [(entry.1, entry.2.take (1022 - entry.1.length))]
    else []

section
variable {key value line : Text} {entry : Text × Text} {entries : List (Text × Text)}

private theorem takeWhile_ne {b : UInt8} (h : b ∉ line) : line.takeWhile (· ≠ b) = line :=
  List.takeWhile_eq_self_iff.mpr fun c hc => by simpa using ne_of_mem_of_not_mem hc h

private theorem loadLine_entry (p : Properties) (hkey : EQUALS ∉ key) (hkey0 : 0 ∉ key) (hvalue : 0 ∉ value) :
    p.loadLine (entryLine (key, value)) = p.setProperty key value := by
  have hnul : (0 : UInt8) ∉ entryLine (key, value) := by
    simp [entryLine, hkey0, hvalue, EQUALS]
  have hall : ∀ c ∈ key, decide (c ≠ EQUALS) = true := fun c hc => by
    simpa using ne_of_mem_of_not_mem hc hkey
  have hkeyText : (entryLine (key, value)).takeWhile (· ≠ EQUALS) = key := by
    rw [entryLine, List.takeWhile_append_of_pos hall]
    simp
  have hrest : (entryLine (key, value)).dropWhile (· ≠ EQUALS) = EQUALS :: value := by
    rw [entryLine, List.dropWhile_append_of_pos hall]
    simp
  simp only [loadLine, takeWhile_ne hnul, hkeyText, hrest]

private theorem loadLine_no_equals (p : Properties) (h : EQUALS ∉ line) : p.loadLine line = p := by
  have hrest : (line.takeWhile (· ≠ 0)).dropWhile (· ≠ EQUALS) = [] :=
    List.dropWhile_eq_nil_iff.mpr fun c hc => by
      simpa using ne_of_mem_of_not_mem ((List.takeWhile_sublist _).mem hc) h
  simp only [loadLine, hrest]

private theorem Writable.newline_notMem (h : Writable entry) : NEWLINE ∉ entryLine entry := by
  have hne : NEWLINE ≠ EQUALS := by decide
  simp [entryLine, h.key_newline, h.value_newline, hne]

private theorem length_entryLine (entry : Text × Text) :
    (entryLine entry).length = entry.1.length + 1 + entry.2.length := by
  rw [entryLine, List.length_append, List.length_cons]
  omega

private theorem loadLine_cut (p : Properties) (h : Writable entry) :
    p.loadLine ((entryLine entry).take 1023) =
      if entry.1.length < 1023 then p.setProperty entry.1 (entry.2.take (1022 - entry.1.length)) else p := by
  split
  · rename_i hkey
    have hcut : (entryLine entry).take 1023 = entryLine (entry.1, entry.2.take (1022 - entry.1.length)) := by
      have hroom : 1023 - entry.1.length = (1022 - entry.1.length) + 1 := by omega
      rw [entryLine, List.take_append, List.take_of_length_le (by omega), hroom, List.take_succ_cons, entryLine]
    rw [hcut]
    exact loadLine_entry p h.key_equals h.key_nul fun h0 => h.value_nul (List.mem_of_mem_take h0)
  · rename_i hkey
    refine loadLine_no_equals p fun heq => h.key_equals ?_
    rw [entryLine, List.take_append_of_le_length (by omega)] at heq
    exact List.mem_of_mem_take heq

private theorem foldl_readLines (p : Properties) (hw : ∀ entry ∈ entries, Writable entry) :
    (readLines 1024 NEWLINE (.start (entries.flatMap fun entry => entryLine entry ++ [NEWLINE]))).foldl loadLine p =
      (kept entries).foldl (fun p entry => p.setProperty entry.1 entry.2) p := by
  induction entries generalizing p with
  | nil =>
    rw [List.flatMap_nil, readLines_nil]
    rfl
  | cons entry entries ih =>
    have hentry := hw entry List.mem_cons_self
    have htail := ih (p.setProperty entry.1 entry.2) fun e he => hw e (List.mem_cons_of_mem _ he)
    rw [List.flatMap_cons, List.append_assoc, kept]
    by_cases hshort : Short entry
    · rw [List.singleton_append, readLines_fits hentry.newline_notMem (by rwa [length_entryLine]), if_pos hshort,
        List.foldl_cons, List.foldl_cons, ← htail]
      exact congrArg (List.foldl loadLine · _) (loadLine_entry p hentry.key_equals hentry.key_nul hentry.value_nul)
    · have hlong : 1024 ≤ (entryLine entry).length := by
        rw [length_entryLine]
        exact Nat.le_of_not_lt hshort
      rw [readLines_long hentry.newline_notMem hlong (by decide), if_neg hshort]
      refine (loadLine_cut p hentry).trans ?_
      split <;> rfl

private theorem foldl_setProperty (p : Properties) :
    (entries.foldl (fun p entry => p.setProperty entry.1 entry.2) p).plist = p.plist.insertMany entries := by
  rw [← foldl_insert]
  exact (List.foldl_hom plist fun _ _ => rfl).symm

private theorem load_store (p : Properties) (hw : ∀ entry ∈ p.plist.toList, Writable entry) :
    (new.load (some p.store)).plist = .ofList (kept p.plist.toList) compare := by
  rw [load, store, foldl_readLines new hw, foldl_setProperty]
  exact Std.ExtTreeMap.ofList_eq_insertMany_empty.symm

private theorem short_of_mem_kept (h : entry ∈ kept entries) : Short entry := by
  induction entries with
  | nil => cases h
  | cons e entries ih =>
    rw [kept] at h
    split at h
    · rename_i hshort
      rcases List.mem_cons.mp h with rfl | h
      · exact hshort
      · exact ih h
    · split at h
      · obtain rfl := List.mem_singleton.mp h
        simp only [Short, List.length_take]
        omega
      · cases h

private theorem kept_of_short (h : ∀ entry ∈ entries, Short entry) : kept entries = entries := by
  induction entries with
  | nil => rfl
  | cons entry entries ih =>
    rw [kept, if_pos (h entry List.mem_cons_self), ih fun e he => h e (List.mem_cons_of_mem _ he)]

private theorem keys_kept (entries : List (Text × Text)) : (kept entries).map Prod.fst <+: entries.map Prod.fst := by
  induction entries with
  | nil => exact List.prefix_rfl
  | cons entry entries ih =>
    rw [kept, List.map_cons]
    split
    · exact List.prefix_cons_inj _ |>.mpr ih
    · split
      · exact ⟨entries.map Prod.fst, rfl⟩
      · exact List.nil_prefix

end

/-- A map of entries that a line can hold comes back from its file exactly if every line, with its
terminator, fits into the 1024 bytes of load's buffer. -/
theorem load_store_iff (p : Properties) (hw : ∀ key value : Text, p.plist[key]? = some value → Writable (key, value)) :
    new.load (some p.store) = p ↔
      ∀ key value : Text, p.plist[key]? = some value → key.length + 1 + value.length ≤ 1023 := by
  have hmem (key value : Text) : (key, value) ∈ p.plist.toList ↔ p.plist[key]? = some value :=
    Std.ExtTreeMap.mem_toList_iff_getElem?_eq_some
  have hload := load_store p fun entry he => hw entry.1 entry.2 ((hmem _ _).mp he)
  have hdistinct : Distinct compare (kept p.plist.toList) :=
    Distinct.of_keys Std.ExtTreeMap.distinct_keys_toList (keys_kept _)
  have hiff : new.load (some p.store) = p ↔ (new.load (some p.store)).plist = p.plist :=
    ⟨congrArg plist, congrArg mk⟩
  rw [hiff, hload, ofList_eq_iff hdistinct]
  constructor
  · intro hkept key value hget
    exact Nat.le_of_lt_succ (short_of_mem_kept ((hkept key value).mpr hget))
  · intro hshort key value
    rw [kept_of_short fun entry he => Nat.lt_succ_of_le (hshort entry.1 entry.2 ((hmem _ _).mp he)), hmem]

/-- Two properties, one with a '=' in its value and one without a value. -/
def twoProperties : Properties := (new.setProperty [98] []).setProperty [97] [61, 99]

theorem load_store_iff_two : new.load (some twoProperties.store) = twoProperties := by
  have hmem (key value : Text) (h : twoProperties.plist[key]? = some value) :
      (key, value) ∈ twoProperties.plist.toList :=
    Std.ExtTreeMap.mem_toList_iff_getElem?_eq_some.mpr h
  have hshort : ∀ entry ∈ twoProperties.plist.toList, entry.1.length + 1 + entry.2.length ≤ 1023 := by decide +kernel
  have hwritable : ∀ entry ∈ twoProperties.plist.toList, Writable entry := by decide +kernel
  exact (load_store_iff twoProperties fun key value h => hwritable _ (hmem key value h)).mpr
    fun key value h => hshort _ (hmem key value h)

/-- A property with a line of 1024 bytes, and one after it. -/
def longValue : Properties := (new.setProperty [97] (List.replicate 1022 120)).setProperty [98] [99]

/-- The long value comes back without its last byte, and the property after it is lost. -/
theorem load_store_lost :
    (∀ entry ∈ longValue.plist.toList, Writable entry) ∧
      longValue.plist.toList = [([97], List.replicate 1022 120), ([98], [99])] ∧
      (new.load (some longValue.store)).plist.toList = [([97], List.replicate 1021 120)] := by
  decide +kernel

end Properties
end TableFS
