import TableFS.Leveldb.WriteBatch
import TableFS.Leveldb.SkipListScan

/-! Internal keys (db/dbformat.cc) and the memtable (db/memtable.cc), whose entries are strings in a skip list.
The user's comparator is any order of strings. -/
namespace TableFS.Leveldb
open Kv

/-- A shift of a 64-bit number loses its highest bits. -/
def packSequenceAndType (seq : Nat) (t : ValueType) : Nat := (seq <<< 8) % 2 ^ 64 ||| t.code.toNat

def extractUserKey (internal_key : Bytes) : Bytes := internal_key.take (internal_key.length - 8)

/-- The last eight bytes of an internal key. -/
def internalKeyNum (internal_key : Bytes) : Nat := decodeFixed64 (internal_key.drop (internal_key.length - 8))

/-- InternalKeyComparator::Compare. -/
def internalKeyCompare (user_comparator_ : Bytes → Bytes → Ordering) (akey bkey : Bytes) : Ordering :=
  match user_comparator_ (extractUserKey akey) (extractUserKey bkey) with
  | .eq =>
    let anum := internalKeyNum akey
    let bnum := internalKeyNum bkey
    if anum > bnum then .lt else if anum < bnum then .gt else .eq
  | r => r

/-- The memtable_key of a LookupKey. -/
def lookupKey (user_key : Bytes) (s : Nat) : Bytes :=
  encodeVarint32 ((user_key.length + 8) % 2 ^ 32) ++ (user_key ++ encodeFixed64 (packSequenceAndType s .value))

abbrev MemTable := SkipList Bytes

namespace MemTable

/-- GetLengthPrefixedSlice of memtable.cc, which takes it that the slice is there. -/
def lengthPrefixedSlice (data : Bytes) : Bytes :=
  match getVarint32Ptr data with
  | none => []
  | some (len, p) => p.take len

def keyComparator (user_comparator_ : Bytes → Bytes → Ordering) (aptr bptr : Bytes) : Ordering :=
  internalKeyCompare user_comparator_ (lengthPrefixedSlice aptr) (lengthPrefixedSlice bptr)

/-- The buffer that Add fills. -/
def entry (s : Nat) (type : ValueType) (key value : Bytes) : Bytes :=
  encodeVarint32 ((key.length + 8) % 2 ^ 32) ++ (key ++ (encodeFixed64 (packSequenceAndType s type) ++
    (encodeVarint32 (value.length % 2 ^ 32) ++ value)))

variable (user_comparator_ : Bytes → Bytes → Ordering)

def add (table_ : MemTable) (s : Nat) (type : ValueType) (key value : Bytes) : Option MemTable :=
  table_.insert (keyComparator user_comparator_) (entry s type key value)

/-- What Get finds of a key: a value, or that it was deleted. -/
inductive Found where
  | value (v : Bytes)
  | deleted
  deriving DecidableEq

def get (table_ : MemTable) (user_key : Bytes) (s : Nat) : Option (Option Found) := do
  let node ← table_.seek (keyComparator user_comparator_) (lookupKey user_key s)
  match node with
  | none => some none
  | some n =>
    let e ← table_.key n
    let (key_length, key_ptr) ← getVarint32Ptr e
    if user_comparator_ (key_ptr.take (key_length - 8)) user_key = .eq then
      let tag := decodeFixed64 (key_ptr.drop (key_length - 8))
      if tag &&& 0xff = ValueType.value.code.toNat then some (some (.value (lengthPrefixedSlice (key_ptr.drop key_length))))
      else if tag &&& 0xff = ValueType.deletion.code.toNat then some (some .deleted)
      else some none
    else some none

/-- A call of a MemTableInserter, with its sequence_. -/
def inserterCall (mem_ : MemTable) (sequence_ : Nat) : Update → Option (MemTable × Nat)
  | .put key value => do
    let mem_ ← add user_comparator_ mem_ sequence_ .value key value
    some (mem_, (sequence_ + 1) % 2 ^ 64)
  | .delete key => do
    let mem_ ← add user_comparator_ mem_ sequence_ .deletion key []
    some (mem_, (sequence_ + 1) % 2 ^ 64)

/-- WriteBatchInternal::InsertInto. -/
def insertInto (b : WriteBatch) (memtable : MemTable) : Option (MemTable × Status) := do
  let (status, calls) := b.iterate
  let (mem_, _) ← calls.foldlM (fun p u => inserterCall user_comparator_ p.1 p.2 u) (memtable, b.sequence)
  some (mem_, status)

end MemTable

section compare
variable {ucmp : Bytes → Bytes → Ordering} [Std.TransCmp ucmp]

omit [Std.TransCmp ucmp] in
private theorem internalKeyCompare_eq (a b : Bytes) :
    internalKeyCompare ucmp a b = compareLex (fun a b => ucmp (extractUserKey a) (extractUserKey b))
      (fun a b => compare (internalKeyNum b) (internalKeyNum a)) a b := by
  rw [internalKeyCompare, compareLex]
  cases ucmp (extractUserKey a) (extractUserKey b) with
  | lt => rfl
  | gt => rfl
  | eq =>
    simp only [Ordering.then, Nat.compare_eq_ite_lt]

private theorem transCmp_comap {α β : Type} (cmp : β → β → Ordering) [Std.TransCmp cmp] (f : α → β) :
    Std.TransCmp fun a b => cmp (f a) (f b) where
  eq_swap := Std.OrientedCmp.eq_swap
  isLE_trans := Std.TransCmp.isLE_trans

instance : Std.TransCmp (MemTable.keyComparator ucmp) := by
  have huser : Std.TransCmp fun a b => ucmp (extractUserKey a) (extractUserKey b) := transCmp_comap ucmp extractUserKey
  have hnum : Std.TransCmp fun a b => compare (internalKeyNum b) (internalKeyNum a) :=
    transCmp_comap (fun m n : Nat => compare n m) internalKeyNum
  have hkey : Std.TransCmp (internalKeyCompare ucmp) := by
    have heq : internalKeyCompare ucmp = compareLex (fun a b => ucmp (extractUserKey a) (extractUserKey b))
        (fun a b => compare (internalKeyNum b) (internalKeyNum a)) := by
      funext a b
      exact internalKeyCompare_eq a b
    rw [heq]
    infer_instance
  exact transCmp_comap (internalKeyCompare ucmp) MemTable.lengthPrefixedSlice

end compare

private theorem packSequenceAndType_eq {seq : Nat} (h : seq < 2 ^ 56) (t : ValueType) :
    packSequenceAndType seq t = seq * 256 + t.code.toNat := by
  have hshift : (seq <<< 8) % 2 ^ 64 = seq * 256 := by
    rw [Nat.shiftLeft_eq]
    omega
  have hcode : t.code.toNat < 2 ^ 8 := by cases t <;> decide
  rw [packSequenceAndType, hshift, Nat.mul_comm, show 256 = 2 ^ 8 from rfl, Nat.two_pow_add_eq_or_of_lt hcode]

private theorem packSequenceAndType_lt {seq : Nat} (h : seq < 2 ^ 56) (t : ValueType) :
    packSequenceAndType seq t < 2 ^ 64 := by
  have hcode : t.code.toNat ≤ 1 := by cases t <;> decide
  rw [packSequenceAndType_eq h]
  omega

namespace MemTable
section
variable {ucmp : Bytes → Bytes → Ordering} {key value : Bytes} {n m : Nat} {t : ValueType}

private theorem getVarint32Ptr_key (h : key.length + 8 < 2 ^ 32) (rest : Bytes) :
    getVarint32Ptr (encodeVarint32 ((key.length + 8) % 2 ^ 32) ++ (key ++ rest)) =
      some (key.length + 8, key ++ rest) := by
  rw [Nat.mod_eq_of_lt h, getVarint32Ptr_encodeVarint32 h]

private theorem lengthPrefixedSlice_key (h : key.length + 8 < 2 ^ 32) (num : Nat) (rest : Bytes) :
    lengthPrefixedSlice (encodeVarint32 ((key.length + 8) % 2 ^ 32) ++ (key ++ (encodeFixed64 num ++ rest))) =
      key ++ encodeFixed64 num := by
  rw [lengthPrefixedSlice, getVarint32Ptr_key h]
  dsimp only
  rw [← List.append_assoc]
  exact List.take_left' (by rw [List.length_append, WriteBatch.length_encodeFixed64])

private theorem extractUserKey_append (key : Bytes) (num : Nat) : extractUserKey (key ++ encodeFixed64 num) = key := by
  rw [extractUserKey, List.length_append, WriteBatch.length_encodeFixed64, Nat.add_sub_cancel]
  exact List.take_left

private theorem internalKeyNum_append (key : Bytes) {num : Nat} (h : num < 2 ^ 64) :
    internalKeyNum (key ++ encodeFixed64 num) = num := by
  rw [internalKeyNum, List.length_append, WriteBatch.length_encodeFixed64, Nat.add_sub_cancel, List.drop_left]
  have hdecode := decodeFixed64_encodeFixed64 h []
  rwa [List.append_nil] at hdecode

/-- A string that starts with an internal key and its length. -/
def keyed (key : Bytes) (num : Nat) (rest : Bytes) : Bytes :=
  encodeVarint32 ((key.length + 8) % 2 ^ 32) ++ (key ++ (encodeFixed64 num ++ rest))

private theorem lookupKey_eq (key : Bytes) (s : Nat) :
    lookupKey key s = keyed key (packSequenceAndType s .value) [] := by
  rw [lookupKey, keyed, List.append_nil]

private theorem keyComparator_keyed {a b ra rb : Bytes} (ha : a.length + 8 < 2 ^ 32) (hb : b.length + 8 < 2 ^ 32)
    (hm : m < 2 ^ 64) (hn : n < 2 ^ 64) :
    keyComparator ucmp (keyed a m ra) (keyed b n rb) = (ucmp a b).then (compare n m) := by
  rw [keyComparator, keyed, keyed, lengthPrefixedSlice_key ha, lengthPrefixedSlice_key hb, internalKeyCompare_eq,
    compareLex, extractUserKey_append, extractUserKey_append, internalKeyNum_append a hm, internalKeyNum_append b hn]

end

/-- The calls of a handler as Add gets them. -/
def typeOf : Update → ValueType
  | .put _ _ => .value
  | .delete _ => .deletion

def keyOf : Update → Bytes
  | .put key _ => key
  | .delete key => key

def valueOf : Update → Bytes
  | .put _ value => value
  | .delete _ => []

def found : Update → Found
  | .put _ value => .value value
  | .delete _ => .deleted

/-- The lengths fit into 32 bits with the eight bytes of a sequence number. -/
def ShortEntry (u : Update) : Prop := (keyOf u).length + 8 < 2 ^ 32 ∧ (valueOf u).length < 2 ^ 32

instance : DecidablePred ShortEntry := fun _ => inferInstanceAs (Decidable (_ ∧ _))

def entryOf (u : Update) (n : Nat) : Bytes := entry n (typeOf u) (keyOf u) (valueOf u)

/-- The last update of a key. -/
def newest (user_comparator_ : Bytes → Bytes → Ordering) (key : Bytes) (us : List Update) : Option Found :=
  (us.reverse.find? fun u => user_comparator_ (keyOf u) key == .eq).map found

section
variable {ucmp : Bytes → Bytes → Ordering} [Std.TransCmp ucmp] {us : List Update} {u v : Update} {key : Bytes}
  {seq snapshot i j m n : Nat}

private theorem entryOf_eq (u : Update) (n : Nat) : entryOf u n =
    keyed (keyOf u) (packSequenceAndType n (typeOf u))
      (encodeVarint32 ((valueOf u).length % 2 ^ 32) ++ valueOf u) := rfl

omit [Std.TransCmp ucmp] in
private theorem compare_entries (hu : ShortEntry u) (hv : ShortEntry v) (hm : m < 2 ^ 56) (hn : n < 2 ^ 56)
    (hne : m ≠ n) :
    keyComparator ucmp (entryOf u m) (entryOf v n) = (ucmp (keyOf u) (keyOf v)).then (if n < m then .lt else .gt) := by
  rw [entryOf_eq, entryOf_eq, keyComparator_keyed hu.1 hv.1 (packSequenceAndType_lt hm _) (packSequenceAndType_lt hn _),
    packSequenceAndType_eq hm, packSequenceAndType_eq hn, Nat.compare_eq_ite_lt]
  have hcode (t : ValueType) : t.code.toNat ≤ 1 := by cases t <;> decide
  have hu' := hcode (typeOf u)
  have hv' := hcode (typeOf v)
  by_cases hlt : n < m
  · rw [if_pos hlt, if_pos (by omega)]
  · rw [if_neg hlt, if_neg (by omega), if_pos (by omega)]

omit [Std.TransCmp ucmp] in
private theorem compare_entries_ne (hu : ShortEntry u) (hv : ShortEntry v) (hm : m < 2 ^ 56) (hn : n < 2 ^ 56)
    (hne : m ≠ n) :
    keyComparator ucmp (entryOf u m) (entryOf v n) ≠ .eq := by
  rw [compare_entries hu hv hm hn hne]
  intro heq
  have hsecond := (Ordering.then_eq_eq.mp heq).2
  split at hsecond <;> cases hsecond

omit [Std.TransCmp ucmp] in
private theorem compare_lookup (hu : ShortEntry u) (hkey : key.length + 8 < 2 ^ 32) (hm : m < 2 ^ 56)
    (hs : snapshot < 2 ^ 56) :
    keyComparator ucmp (entryOf u m) (lookupKey key snapshot) = .lt ↔
      ucmp (keyOf u) key = .lt ∨ ucmp (keyOf u) key = .eq ∧ snapshot < m := by
  rw [entryOf_eq, lookupKey_eq, keyComparator_keyed hu.1 hkey (packSequenceAndType_lt hm _) (packSequenceAndType_lt hs _),
    packSequenceAndType_eq hm, packSequenceAndType_eq hs, Ordering.then_eq_lt, Nat.compare_eq_lt]
  have hu' : (typeOf u).code.toNat ≤ 1 := by cases typeOf u <;> decide
  have hone : ValueType.value.code.toNat = 1 := rfl
  rw [hone]
  refine or_congr_right (and_congr_right fun _ => ?_)
  omega

private theorem entry_parts (hu : ShortEntry u) (hm : m < 2 ^ 56) :
    ∃ p, getVarint32Ptr (entryOf u m) = some ((keyOf u).length + 8, p) ∧ p.take (keyOf u).length = keyOf u ∧
      decodeFixed64 (p.drop (keyOf u).length) &&& 0xff = (typeOf u).code.toNat ∧
      lengthPrefixedSlice (p.drop ((keyOf u).length + 8)) = valueOf u := by
  have hmask (k : Nat) : (m * 256 + k) &&& 0xff = k % 256 := by
    rw [show 0xff = 2 ^ 8 - 1 from rfl, Nat.and_two_pow_sub_one_eq_mod]
    omega
  refine ⟨_, getVarint32Ptr_key hu.1 _, List.take_left, ?_, ?_⟩
  · rw [List.drop_left, decodeFixed64_encodeFixed64 (packSequenceAndType_lt hm _), packSequenceAndType_eq hm, hmask]
    cases typeOf u <;> rfl
  · rw [← List.append_assoc, List.drop_left' (by rw [List.length_append, WriteBatch.length_encodeFixed64]),
      lengthPrefixedSlice, Nat.mod_eq_of_lt hu.2, getVarint32Ptr_encodeVarint32 hu.2]
    exact List.take_length

/-- The entries of updates that are numbered from a sequence number on. -/
def entries : List Update → Nat → List Bytes
  | [], _ => []
  | u :: us, n => entryOf u n :: entries us (n + 1)

theorem mem_entries {e : Bytes} : e ∈ entries us seq ↔ ∃ i u, us[i]? = some u ∧ e = entryOf u (seq + i) := by
  induction us generalizing seq with
  | nil => simp [entries]
  | cons u us ih =>
    rw [entries, List.mem_cons, ih]
    constructor
    · rintro (rfl | ⟨i, v, hv, rfl⟩)
      · exact ⟨0, u, rfl, rfl⟩
      · exact ⟨i + 1, v, hv, by rw [Nat.add_assoc, Nat.add_comm 1]⟩
    · rintro ⟨i, v, hv, rfl⟩
      cases i with
      | zero => exact .inl (by rw [Option.some.inj hv, Nat.add_zero])
      | succ i => exact .inr ⟨i, v, hv, by rw [Nat.add_assoc, Nat.add_comm 1]⟩

omit [Std.TransCmp ucmp] in
private theorem entries_pairwise (hfits : ∀ u ∈ us, ShortEntry u) (hseq : seq + us.length ≤ 2 ^ 56) :
    (entries us seq).Pairwise fun a b => keyComparator ucmp a b ≠ .eq := by
  induction us generalizing seq with
  | nil => exact List.Pairwise.nil
  | cons u us ih =>
    rw [List.length_cons] at hseq
    refine List.pairwise_cons.mpr ⟨fun e he => ?_, ih (fun v hv => hfits v (List.mem_cons_of_mem _ hv)) (by omega)⟩
    obtain ⟨i, v, hv, rfl⟩ := mem_entries.mp he
    obtain ⟨hi, rfl⟩ := List.getElem?_eq_some_iff.mp hv
    have hv' := hfits _ (List.mem_cons_of_mem _ (List.getElem_mem hi))
    exact compare_entries_ne (hfits u List.mem_cons_self) hv' (by omega) (by omega) (by omega)

omit [Std.TransCmp ucmp] in
private theorem inserter_run (mem : MemTable) (hseq : seq + us.length ≤ 2 ^ 56) :
    us.foldlM (fun p u => inserterCall ucmp p.1 p.2 u) (mem, seq) =
      ((entries us seq).foldlM (fun s k => SkipList.insert (keyComparator ucmp) s k) mem).map fun s =>
        (s, seq + us.length) := by
  induction us generalizing mem seq with
  | nil => rfl
  | cons u us ih =>
    rw [List.length_cons] at hseq
    have hcall : inserterCall ucmp mem seq u =
      (SkipList.insert (keyComparator ucmp) mem (entryOf u seq)).map fun s => (s, seq + 1) := by
      have hnext : (seq + 1) % 2 ^ 64 = seq + 1 := Nat.mod_eq_of_lt (by omega)
      cases u <;> simp only [inserterCall, hnext] <;> exact (Option.map_eq_bind ..).symm
    rw [List.foldlM_cons, entries, List.foldlM_cons, hcall]
    cases SkipList.insert (keyComparator ucmp) mem (entryOf u seq) with
    | none => rfl
    | some s =>
      have hrest := ih s (show seq + 1 + us.length ≤ 2 ^ 56 by omega)
      rw [Nat.add_assoc, Nat.add_comm 1] at hrest
      exact hrest

omit [Std.TransCmp ucmp] in
private theorem newest_eq_none (h : ∀ (i : Nat) (u : Update), us[i]? = some u → ucmp (keyOf u) key ≠ .eq) :
    newest ucmp key us = none := by
  rw [newest, Option.map_eq_none_iff, List.find?_eq_none]
  intro u hu
  obtain ⟨i, hi⟩ := List.mem_iff_getElem?.mp (List.mem_reverse.mp hu)
  simpa using h i u hi

omit [Std.TransCmp ucmp] in
private theorem newest_eq_some (hi : us[i]? = some u) (hu : ucmp (keyOf u) key = .eq)
    (h : ∀ (j : Nat) (v : Update), i < j → us[j]? = some v → ucmp (keyOf v) key ≠ .eq) :
    newest ucmp key us = some (found u) := by
  obtain ⟨hlt, hget⟩ := List.getElem?_eq_some_iff.mp hi
  have hsplit : us = us.take i ++ u :: us.drop (i + 1) := by
    rw [← hget, ← List.drop_eq_getElem_cons hlt, List.take_append_drop]
  have hlater : (us.drop (i + 1)).reverse.find? (fun u => ucmp (keyOf u) key == .eq) = none := by
    rw [List.find?_eq_none]
    intro v hv
    obtain ⟨j, hj⟩ := List.mem_iff_getElem?.mp (List.mem_reverse.mp hv)
    rw [List.getElem?_drop] at hj
    simpa using h (i + 1 + j) v (by omega) hj
  rw [newest, hsplit, List.reverse_append, List.reverse_cons, List.append_assoc, List.find?_append, hlater,
    Option.none_or]
  simp [hu]

omit [Std.TransCmp ucmp] in
private theorem get_of_node {mem : MemTable} {x : Nat} (hf : ShortEntry u) (hm : m < 2 ^ 56)
    (hseek : mem.seek (keyComparator ucmp) (lookupKey key snapshot) = some (some x))
    (hx : mem.key x = some (entryOf u m)) :
    get ucmp mem key snapshot = some (if ucmp (keyOf u) key = .eq then some (found u) else none) := by
  obtain ⟨p, hptr, htake, htag, hvalue⟩ := entry_parts hf hm
  by_cases heq : ucmp (keyOf u) key = .eq
  · simp only [get, hseek, hx, hptr, Option.bind_eq_bind, Option.bind_some, Nat.add_sub_cancel, htake, heq, htag,
      hvalue, ↓reduceIte]
    cases u <;> rfl
  · simp [get, hseek, hx, hptr, htake, heq]

private theorem lt_of_find? {cmp : Bytes → Bytes → Ordering} [Std.ReflCmp cmp] {keys : List Bytes}
    {target e e' : Bytes} (hsorted : keys.Pairwise fun a b => cmp a b = .lt)
    (hfirst : keys.find? (fun k => cmp k target != .lt) = some e) (he' : e' ∈ keys) (hge : cmp e' target ≠ .lt)
    (hne : cmp e e' ≠ .eq) : cmp e e' = .lt := by
  obtain ⟨-, pre, post, rfl, hpre⟩ := List.find?_eq_some_iff_append.mp hfirst
  rcases List.mem_append.mp he' with hmem | hmem
  · exact absurd (hpre e' hmem) (by simpa using hge)
  · rcases List.mem_cons.mp hmem with rfl | hmem
    · exact absurd Std.ReflCmp.compare_self hne
    · exact (List.pairwise_cons.mp (List.pairwise_append.mp hsorted).2.1).1 e' hmem

/-- Get answers with the last update of the key that the snapshot may see. -/
theorem get_spec {mem : MemTable} {L : Nat → List Nat} {keys : List Bytes}
    (h : SkipList.Ok (keyComparator ucmp) mem L keys) (hperm : keys.Perm (entries us seq))
    (hfits : ∀ u ∈ us, ShortEntry u) (hseq : seq + us.length ≤ 2 ^ 56) (hkey : key.length + 8 < 2 ^ 32)
    (hs : snapshot < 2 ^ 56) :
    get ucmp mem key snapshot = some (newest ucmp key (us.take (snapshot + 1 - seq))) := by
  have hentry {i : Nat} {u : Update} (hu : us[i]? = some u) : ShortEntry u ∧ seq + i < 2 ^ 56 := by
    obtain ⟨hi, rfl⟩ := List.getElem?_eq_some_iff.mp hu
    exact ⟨hfits _ (List.getElem_mem hi), by omega⟩
  -- An update of the key that the snapshot may see is among the keys, and not before the place of the lookup.
  have hseen {i : Nat} {u : Update} (hu : (us.take (snapshot + 1 - seq))[i]? = some u)
    (heq : ucmp (keyOf u) key = .eq) :
      us[i]? = some u ∧ entryOf u (seq + i) ∈ keys ∧
        keyComparator ucmp (entryOf u (seq + i)) (lookupKey key snapshot) ≠ .lt := by
    rw [List.getElem?_take] at hu
    split at hu
    · obtain ⟨hf, hi⟩ := hentry hu
      refine ⟨hu, hperm.mem_iff.mpr (mem_entries.mpr ⟨i, u, hu, rfl⟩), ?_⟩
      rw [Ne, compare_lookup hf hkey hi hs, heq]
      rintro (hc | ⟨-, hc⟩)
      · cases hc
      · omega
    · cases hu
  obtain ⟨node, hseek, hfind, hmem⟩ := h.seek (lookupKey key snapshot)
  cases node with
  | none =>
    have hnone := List.find?_eq_none.mp hfind.symm
    rw [newest_eq_none fun i u hu heq => ?_]
    · simp [get, hseek]
    · obtain ⟨-, hin, hge⟩ := hseen hu heq
      exact hnone _ hin (by simpa using hge)
  | some x =>
    obtain ⟨e, he, hx⟩ := h.key_of_mem (hmem x rfl)
    obtain ⟨i, u, hu, rfl⟩ := mem_entries.mp (hperm.mem_iff.mp he)
    obtain ⟨hf, hi⟩ := hentry hu
    have hfirst : keys.find? (fun k => keyComparator ucmp k (lookupKey key snapshot) != .lt) =
      some (entryOf u (seq + i)) :=
      hfind.symm.trans hx
    -- Every other update that the snapshot may see has a greater key, or is older.
    have hafter {j : Nat} {v : Update} (hv : (us.take (snapshot + 1 - seq))[j]? = some v)
      (heq : ucmp (keyOf v) key = .eq) (hne : i ≠ j) :
        (ucmp (keyOf u) key).then (if j < i then .lt else .gt) = .lt := by
      obtain ⟨hv, hin, hge⟩ := hseen hv heq
      obtain ⟨hfv, hj⟩ := hentry hv
      have hlt := lt_of_find? h.sorted hfirst hin hge (compare_entries_ne hf hfv hi hj (by omega))
      rw [compare_entries hf hfv hi hj (by omega), Std.TransCmp.congr_right heq] at hlt
      simpa only [Nat.add_lt_add_iff_left] using hlt
    have hnotlt : ¬ (ucmp (keyOf u) key = .lt ∨ ucmp (keyOf u) key = .eq ∧ snapshot < seq + i) := by
      rw [← compare_lookup hf hkey hi hs]
      simpa using List.find?_some hfirst
    rw [get_of_node hf hi hseek hx]
    by_cases heq : ucmp (keyOf u) key = .eq
    · have hle : seq + i ≤ snapshot := Nat.le_of_not_lt fun hlt => hnotlt (.inr ⟨heq, hlt⟩)
      rw [if_pos heq, newest_eq_some (i := i) (by rw [List.getElem?_take, if_pos (by omega), hu]) heq fun j v hij hv hvq => ?_]
      have hlt := hafter hv hvq (Nat.ne_of_lt hij)
      rw [heq, if_neg (Nat.lt_asymm hij)] at hlt
      cases hlt
    · rw [if_neg heq, newest_eq_none fun j v hv hvq => ?_]
      have hne : i ≠ j := by
        rintro rfl
        exact heq (Option.some.inj (hu.symm.trans (hseen hv hvq).1) ▸ hvq)
      rcases Ordering.then_eq_lt.mp (hafter hv hvq hne) with hlt | ⟨hc, -⟩
      · exact hnotlt (.inl hlt)
      · exact heq hc

private theorem entries_append (us vs : List Update) (seq : Nat) :
    entries (us ++ vs) seq = entries us seq ++ entries vs (seq + us.length) := by
  induction us generalizing seq with
  | nil => rfl
  | cons u us ih => rw [List.cons_append, entries, entries, ih, List.cons_append, List.length_cons, Nat.add_assoc, Nat.add_comm 1]

private theorem encodes_batch {vs : List Update} (hvs : ∀ u ∈ vs, ShortEntry u) (hcount : vs.length < 2 ^ 32)
    (hn : n < 2 ^ 64) :
    ((WriteBatch.ofUpdates vs).setSequence n).Encodes n vs := by
  refine (WriteBatch.encodes_ofUpdates (fun u hu => ?_) hcount).setSequence hn
  obtain ⟨hk, hv⟩ := hvs u hu
  cases u with
  | put key value => exact ⟨Nat.lt_of_le_of_lt (Nat.le_add_right _ 8) hk, hv⟩
  | delete key => exact Nat.lt_of_le_of_lt (Nat.le_add_right _ 8) hk

private theorem insertInto_spec {mem : MemTable} {L : Nat → List Nat} {keys : List Bytes} {vs : List Update}
    (h : SkipList.Ok (keyComparator ucmp) mem L keys) (hperm : keys.Perm (entries us seq))
    (hus : ∀ u ∈ us, ShortEntry u) (hvs : ∀ u ∈ vs, ShortEntry u) (hcount : vs.length < 2 ^ 32)
    (hseq : seq + (us ++ vs).length ≤ 2 ^ 56) :
    ∃ mem' L' keys', insertInto ucmp ((WriteBatch.ofUpdates vs).setSequence (seq + us.length)) mem =
      some (mem', .ok ()) ∧
      SkipList.Ok (keyComparator ucmp) mem' L' keys' ∧ keys'.Perm (entries (us ++ vs) seq) := by
  have hfits : ∀ u ∈ us ++ vs, ShortEntry u := fun u hu => (List.mem_append.mp hu).elim (hus u) (hvs u)
  have hpairs : (entries us seq ++ entries vs (seq + us.length)).Pairwise fun a b => keyComparator ucmp a b ≠ .eq :=
    entries_append us vs seq ▸ entries_pairwise hfits hseq
  obtain ⟨-, hnew, hcross⟩ := List.pairwise_append.mp hpairs
  obtain ⟨mem', L', keys', hmem', h', hperm'⟩ := h.insertAll (entries vs (seq + us.length))
    (fun k hk k' hk' => hcross k' (hperm.mem_iff.mp hk') k hk) hnew
  rw [List.length_append] at hseq
  have hencodes := encodes_batch hvs hcount (show seq + us.length < 2 ^ 64 by omega)
  refine ⟨mem', L', keys', ?_, h', hperm'.trans ?_⟩
  · rw [insertInto, hencodes.iterate hcount, hencodes.sequence]
    simp only [inserter_run mem (show seq + us.length + vs.length ≤ 2 ^ 56 by omega), hmem', Option.map_some,
      Option.bind_eq_bind, Option.bind_some]
  · rw [entries_append]
    exact (hperm.append_left _).trans List.perm_append_comm

/-- Batches as they are written, each with the sequence number after the last one. -/
def writeBatches (user_comparator_ : Bytes → Bytes → Ordering) : List (List Update) → Nat → MemTable → Option MemTable
  | [], _, mem => some mem
  | us :: rest, seq, mem => do
    let updates := (WriteBatch.ofUpdates us).setSequence seq
    match ← insertInto user_comparator_ updates mem with
    | (mem, .ok ()) => writeBatches user_comparator_ rest (seq + updates.count) mem
    | (_, .error _) => none

private theorem writeBatches_spec {mem : MemTable} {L : Nat → List Nat} {keys : List Bytes}
    {batches : List (List Update)} (h : SkipList.Ok (keyComparator ucmp) mem L keys)
    (hperm : keys.Perm (entries us seq)) (hus : ∀ u ∈ us, ShortEntry u)
    (hfits : ∀ vs ∈ batches, vs.length < 2 ^ 32 ∧ ∀ u ∈ vs, ShortEntry u)
    (hseq : seq + (us ++ batches.flatten).length ≤ 2 ^ 56) :
    ∃ mem' L' keys', writeBatches ucmp batches (seq + us.length) mem = some mem' ∧
      SkipList.Ok (keyComparator ucmp) mem' L' keys' ∧ keys'.Perm (entries (us ++ batches.flatten) seq) := by
  induction batches generalizing us mem L keys with
  | nil => exact ⟨mem, L, keys, rfl, h, by rwa [List.flatten_nil, List.append_nil]⟩
  | cons vs batches ih =>
    obtain ⟨hcount, hvs⟩ := hfits vs List.mem_cons_self
    rw [List.flatten_cons, ← List.append_assoc] at hseq ⊢
    have hle : seq + (us ++ vs).length ≤ 2 ^ 56 := by
      rw [List.length_append] at hseq
      omega
    obtain ⟨mem₁, L₁, keys₁, hmem₁, h₁, hperm₁⟩ := insertInto_spec h hperm hus hvs hcount hle
    obtain ⟨mem', L', keys', hmem', h', hperm'⟩ :=
      ih h₁ hperm₁ (fun u hu => (List.mem_append.mp hu).elim (hus u) (hvs u))
      (fun ws hws => hfits ws (List.mem_cons_of_mem _ hws)) hseq
    refine ⟨mem', L', keys', ?_, h', hperm'⟩
    rw [List.length_append, ← Nat.add_assoc] at hmem'
    rw [List.length_append] at hle
    have hnumber := (encodes_batch hvs hcount (show seq + us.length < 2 ^ 64 by omega)).count hcount
    simp only [writeBatches, hmem₁, Option.bind_eq_bind, Option.bind_some, hnumber, hmem']

/-- At every snapshot a memtable answers with the last update of the key up to it, of all batches that were inserted. -/
theorem memtable_reads_snapshots (batches : List (List Update)) (seq : Nat)
    (hfits : ∀ us ∈ batches, us.length < 2 ^ 32 ∧ ∀ u ∈ us, ShortEntry u)
    (hseq : seq + batches.flatten.length ≤ 2 ^ 56) :
    ∃ mem, writeBatches ucmp batches seq SkipList.new = some mem ∧
      ∀ key snapshot, key.length + 8 < 2 ^ 32 → snapshot < 2 ^ 56 →
        get ucmp mem key snapshot = some (newest ucmp key (batches.flatten.take (snapshot + 1 - seq))) := by
  obtain ⟨mem, L, keys, hmem, h, hperm⟩ :=
    writeBatches_spec (SkipList.ok_new (keyComparator ucmp)) (List.Perm.refl (entries [] seq))
    (fun _ hu => absurd hu List.not_mem_nil) hfits hseq
  refine ⟨mem, hmem, fun key snapshot hkey hs => ?_⟩
  refine get_spec h hperm (fun u hu => ?_) hseq hkey hs
  obtain ⟨us, hus, hu⟩ := List.mem_flatten.mp hu
  exact (hfits us hus).2 u hu

theorem memtable_reads_snapshots_deleted :
    ((∀ us ∈ [[Update.put [1] [10]], [Update.delete [1], Update.put [2] [20]]], us.length < 2 ^ 32 ∧
      ∀ u ∈ us, ShortEntry u) ∧
        5 + [[Update.put [1] [10]], [Update.delete [1], Update.put [2] [20]]].flatten.length ≤ 2 ^ 56) ∧
      ∃ mem, writeBatches compare [[.put [1] [10]], [.delete [1], .put [2] [20]]] 5 SkipList.new = some mem ∧
        ∀ key snapshot, key.length + 8 < 2 ^ 32 → snapshot < 2 ^ 56 →
          get compare mem key snapshot =
            some (newest compare key
              ([[Update.put [1] [10]], [Update.delete [1], Update.put [2] [20]]].flatten.take (snapshot + 1 - 5))) :=
  ⟨by decide, memtable_reads_snapshots _ 5 (by decide) (by decide)⟩

end
end MemTable
end TableFS.Leveldb
