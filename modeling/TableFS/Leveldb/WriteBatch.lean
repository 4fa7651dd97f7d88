import TableFS.Leveldb.Coding

/-! Batches of updates (db/write_batch.cc): the bytes that are built, logged and read back. -/
namespace TableFS.Leveldb
open Kv

inductive ValueType where
  | deletion
  | value
  deriving DecidableEq, Repr

def ValueType.code : ValueType → UInt8
  | .deletion => 0
  | .value => 1

/-- Why a status is Corruption. -/
inductive Corruption where
  | batchTooSmall
  | badPut
  | badDelete
  | unknownTag
  | wrongCount
  deriving DecidableEq, Repr

def Corruption.text : Corruption → String
  | .batchTooSmall => "malformed WriteBatch (too small)"
  | .badPut => "bad WriteBatch Put"
  | .badDelete => "bad WriteBatch Delete"
  | .unknownTag => "unknown WriteBatch tag"
  | .wrongCount => "WriteBatch has wrong count"

abbrev Status := Except Corruption Unit

/-- A call of a handler. -/
inductive Update where
  | put (key value : Bytes)
  | delete (key : Bytes)
  deriving DecidableEq, Repr

/-- Eight bytes of sequence number and four of count. -/
def kHeader : Nat := 12

structure WriteBatch where
  rep_ : Bytes
  deriving DecidableEq, Repr

/-- The body of the loop of Iterate, after the tag. -/
def readUpdate (tag : UInt8) (input : Bytes) : Except Corruption (Update × Bytes) :=
  if tag = ValueType.value.code then
    match getLengthPrefixedSlice input with
    | none => .error .badPut
    | some (key, input) =>
      match getLengthPrefixedSlice input with
      | none => .error .badPut
      | some (value, input) => .ok (.put key value, input)
  else if tag = ValueType.deletion.code then
    match getLengthPrefixedSlice input with
    | none => .error .badDelete
    | some (key, input) => .ok (.delete key, input)
  else .error .unknownTag

private theorem length_readUpdate {tag : UInt8} {input : Bytes} {r : Update × Bytes}
    (h : readUpdate tag input = .ok r) :
    r.2.length ≤ input.length := by
  unfold readUpdate at h
  split at h
  · split at h
    · cases h
    · rename_i hkey
      split at h
      · cases h
      · rename_i hvalue
        obtain rfl := Except.ok.inj h
        have := length_getLengthPrefixedSlice hkey
        have := length_getLengthPrefixedSlice hvalue
        simp only at *
        omega
  · split at h
    · split at h
      · cases h
      · rename_i hkey
        obtain rfl := Except.ok.inj h
        exact Nat.le_of_lt (length_getLengthPrefixedSlice hkey)
    · cases h

/-- The loop of Iterate: how it ends, how many updates it found and the calls of the handler. -/
def iterateLoop (input : Bytes) (found : Nat) (calls : List Update) : Status × Nat × List Update :=
  match input with
  | [] => (.ok (), found, calls)
  | tag :: input =>
    match h : readUpdate tag input with
    | .error e => (.error e, found + 1, calls)
    | .ok (u, rest) => iterateLoop rest (found + 1) (calls ++ [u])
  termination_by input.length
  decreasing_by
    have := length_readUpdate h
    simp only [List.length_cons] at *
    omega

namespace WriteBatch

def clear : WriteBatch := ⟨List.replicate kHeader 0⟩

/-- An int, as the counter of Iterate is; the batches below have fewer than 2³¹ updates. -/
def count (b : WriteBatch) : Nat := decodeFixed32 (b.rep_.drop 8)

def setCount (b : WriteBatch) (n : Nat) : WriteBatch := ⟨b.rep_.take 8 ++ encodeFixed32 n ++ b.rep_.drop kHeader⟩

def sequence (b : WriteBatch) : Nat := decodeFixed64 b.rep_

def setSequence (b : WriteBatch) (seq : Nat) : WriteBatch := ⟨encodeFixed64 seq ++ b.rep_.drop 8⟩

def put (b : WriteBatch) (key value : Bytes) : WriteBatch :=
  let b := b.setCount (b.count + 1)
  ⟨b.rep_ ++ [ValueType.value.code] ++ putLengthPrefixedSlice key ++ putLengthPrefixedSlice value⟩

def delete (b : WriteBatch) (key : Bytes) : WriteBatch :=
  let b := b.setCount (b.count + 1)
  ⟨b.rep_ ++ [ValueType.deletion.code] ++ putLengthPrefixedSlice key⟩

def append (dst src : WriteBatch) : WriteBatch :=
  let dst := dst.setCount (dst.count + src.count)
  ⟨dst.rep_ ++ src.rep_.drop kHeader⟩

/-- What the handler is called with, and the status. -/
def iterate (b : WriteBatch) : Status × List Update :=
  if b.rep_.length < kHeader then (.error .batchTooSmall, [])
  else
    match iterateLoop (b.rep_.drop kHeader) 0 [] with
    | (.error e, _, calls) => (.error e, calls)
    | (.ok (), found, calls) => if found ≠ b.count then (.error .wrongCount, calls) else (.ok (), calls)

end WriteBatch

/-- The bytes of one update. -/
def Update.encode : Update → Bytes
  | .put key value => ValueType.value.code :: (putLengthPrefixedSlice key ++ putLengthPrefixedSlice value)
  | .delete key => ValueType.deletion.code :: putLengthPrefixedSlice key

/-- The lengths fit into 32 bits. -/
def Update.Short : Update → Prop
  | .put key value => key.length < 2 ^ 32 ∧ value.length < 2 ^ 32
  | .delete key => key.length < 2 ^ 32

instance : DecidablePred Update.Short
  | .put _ _ => inferInstanceAs (Decidable (_ ∧ _))
  | .delete _ => inferInstanceAs (Decidable (_ < _))

section
variable {u : Update} {us : List Update} {rest : Bytes}

private theorem Update.encode_eq_cons (u : Update) : ∃ tag body, u.encode = tag :: body := by
  cases u with
  | put key value => exact ⟨_, _, rfl⟩
  | delete key => exact ⟨_, _, rfl⟩

private theorem readUpdate_encode {tag : UInt8} {body : Bytes} (he : u.encode = tag :: body) (hu : u.Short)
    (rest : Bytes) :
    readUpdate tag (body ++ rest) = .ok (u, rest) := by
  cases u with
  | put key value =>
    obtain ⟨rfl, rfl⟩ := List.cons.inj he
    simp [readUpdate, getLengthPrefixedSlice_put hu.1, getLengthPrefixedSlice_put hu.2]
  | delete key =>
    obtain ⟨rfl, rfl⟩ := List.cons.inj he
    simp [readUpdate, getLengthPrefixedSlice_put hu, ValueType.code]

private theorem readUpdate_take {tag : UInt8} {body : Bytes} (he : u.encode = tag :: body) (hu : u.Short) {n : Nat}
    (hn : n < body.length) :
    ∃ e, readUpdate tag (body.take n) = .error e := by
  cases u with
  | put key value =>
    obtain ⟨rfl, rfl⟩ := List.cons.inj he
    refine ⟨.badPut, ?_⟩
    rw [List.length_append] at hn
    by_cases hkey : n < (putLengthPrefixedSlice key).length
    · simp [readUpdate, List.take_append_of_le_length (Nat.le_of_lt hkey), getLengthPrefixedSlice_take hu.1 hkey]
    · have hvalue := getLengthPrefixedSlice_take hu.2 (n := n - (putLengthPrefixedSlice key).length) (by omega)
      simp [readUpdate, List.take_append, List.take_of_length_le (Nat.le_of_not_lt hkey),
        getLengthPrefixedSlice_put hu.1, hvalue]
  | delete key =>
    obtain ⟨rfl, rfl⟩ := List.cons.inj he
    exact ⟨.badDelete, by simp [readUpdate, ValueType.code, getLengthPrefixedSlice_take hu hn]⟩

private theorem iterateLoop_cons {tag : UInt8} {body : Bytes} (h : readUpdate tag body = .ok (u, rest))
    (found : Nat) (calls : List Update) :
    iterateLoop (tag :: body) found calls = iterateLoop rest (found + 1) (calls ++ [u]) := by
  rw [iterateLoop]
  split
  · rename_i hr
    rw [h] at hr
    cases hr
  · rename_i hr
    rw [h] at hr
    obtain ⟨rfl, rfl⟩ := Prod.mk.inj (Except.ok.inj hr)
    rfl

private theorem iterateLoop_error {tag : UInt8} {body : Bytes} {e : Corruption} (h : readUpdate tag body = .error e)
    (found : Nat) (calls : List Update) : iterateLoop (tag :: body) found calls = (.error e, found + 1, calls) := by
  rw [iterateLoop]
  split
  · rename_i hr
    rw [h] at hr
    rw [Except.error.inj hr]
  · rename_i hr
    rw [h] at hr
    cases hr

private theorem iterateLoop_encode (hus : ∀ u ∈ us, u.Short) (rest : Bytes) (found : Nat) (calls : List Update) :
    iterateLoop (us.flatMap Update.encode ++ rest) found calls =
      iterateLoop rest (found + us.length) (calls ++ us) := by
  induction us generalizing found calls with
  | nil => simp
  | cons u us ih =>
    obtain ⟨tag, body, he⟩ := u.encode_eq_cons
    have hread := readUpdate_encode he (hus u List.mem_cons_self) (us.flatMap Update.encode ++ rest)
    rw [List.flatMap_cons, he, List.append_assoc, List.cons_append, iterateLoop_cons hread,
      ih fun u hu => hus u (List.mem_cons_of_mem _ hu), List.append_assoc, List.length_cons, Nat.add_right_comm]
    rfl

private theorem iterateLoop_take (hus : ∀ u ∈ us, u.Short) {n : Nat} (hn : n < (us.flatMap Update.encode).length)
    (found : Nat) (calls : List Update) :
    ∃ k < us.length, ∃ st m, iterateLoop ((us.flatMap Update.encode).take n) found calls = (st, m, calls ++ us.take k) ∧
      (st = .ok () → m = found + k) := by
  induction us generalizing n found calls with
  | nil => exact absurd hn (Nat.not_lt_zero n)
  | cons u us ih =>
    obtain ⟨tag, body, he⟩ := u.encode_eq_cons
    have hu := hus u List.mem_cons_self
    rw [List.flatMap_cons, he] at hn ⊢
    cases n with
    | zero => exact ⟨0, Nat.succ_pos _, .ok (), found, by simp [iterateLoop], fun _ => rfl⟩
    | succ n =>
      rw [List.cons_append, List.take_succ_cons]
      by_cases hbody : n < body.length
      · obtain ⟨e, hread⟩ := readUpdate_take he hu hbody
        refine ⟨0, Nat.succ_pos _, .error e, found + 1, ?_, nofun⟩
        rw [List.take_append_of_le_length (Nat.le_of_lt hbody), iterateLoop_error hread]
        simp
      · have hread := readUpdate_encode he hu ((us.flatMap Update.encode).take (n - body.length))
        have hrest : n - body.length < (us.flatMap Update.encode).length := by
          simp only [List.cons_append, List.length_cons, List.length_append] at hn
          omega
        obtain ⟨k, hk, st, m, hloop, hm⟩ := ih (fun u hu => hus u (List.mem_cons_of_mem _ hu)) hrest (found + 1)
          (calls ++ [u])
        refine ⟨k + 1, Nat.succ_lt_succ hk, st, m, ?_, fun h => ?_⟩
        · rw [List.take_append, List.take_of_length_le (Nat.le_of_not_lt hbody), iterateLoop_cons hread, hloop]
          simp
        · rw [hm h]
          omega

end

namespace WriteBatch

/-- The batch holds the updates in order. -/
structure Encodes (b : WriteBatch) (seq : Nat) (us : List Update) : Prop where
  rep : b.rep_ = encodeFixed64 seq ++ encodeFixed32 us.length ++ us.flatMap Update.encode
  seq : seq < 2 ^ 64
  short : ∀ u ∈ us, u.Short

section
variable {b src : WriteBatch} {seq : Nat} {us : List Update}

theorem length_encodeFixed64 (n : Nat) : (encodeFixed64 n).length = 8 := rfl

private theorem encodes_clear : Encodes clear 0 [] := ⟨rfl, by decide, nofun⟩

theorem Encodes.count (h : Encodes b seq us) (hn : us.length < 2 ^ 32) : b.count = us.length := by
  rw [WriteBatch.count, h.rep, List.append_assoc, List.drop_left' (length_encodeFixed64 seq),
    decodeFixed32_encodeFixed32 hn]

theorem Encodes.sequence (h : Encodes b seq us) : b.sequence = seq := by
  rw [WriteBatch.sequence, h.rep, List.append_assoc, decodeFixed64_encodeFixed64 h.seq]

theorem Encodes.drop (h : Encodes b seq us) : b.rep_.drop kHeader = us.flatMap Update.encode := by
  rw [h.rep]
  exact List.drop_left' rfl

private theorem Encodes.setCount (h : Encodes b seq us) (n : Nat) :
    (b.setCount n).rep_ = encodeFixed64 seq ++ encodeFixed32 n ++ us.flatMap Update.encode := by
  have htake : b.rep_.take 8 = encodeFixed64 seq := by
    rw [h.rep, List.append_assoc, List.take_left' (length_encodeFixed64 seq)]
  rw [WriteBatch.setCount, h.drop, htake]

theorem Encodes.setSequence (h : Encodes b seq us) {seq' : Nat} (hs : seq' < 2 ^ 64) :
    Encodes (b.setSequence seq') seq' us := by
  refine ⟨?_, hs, h.short⟩
  rw [WriteBatch.setSequence, h.rep, List.append_assoc, List.drop_left' (length_encodeFixed64 seq), List.append_assoc]

theorem Encodes.put (h : Encodes b seq us) (hn : us.length < 2 ^ 32) {key value : Bytes}
    (hu : (Update.put key value).Short) :
    Encodes (b.put key value) seq (us ++ [.put key value]) := by
  refine ⟨?_, h.seq, ?_⟩
  · simp [WriteBatch.put, h.setCount, h.count hn, Update.encode]
  · intro u hm
    rcases List.mem_append.mp hm with hm | hm
    · exact h.short u hm
    · exact List.mem_singleton.mp hm ▸ hu

theorem Encodes.delete (h : Encodes b seq us) (hn : us.length < 2 ^ 32) {key : Bytes} (hu : (Update.delete key).Short) :
    Encodes (b.delete key) seq (us ++ [.delete key]) := by
  refine ⟨?_, h.seq, ?_⟩
  · simp [WriteBatch.delete, h.setCount, h.count hn, Update.encode]
  · intro u hm
    rcases List.mem_append.mp hm with hm | hm
    · exact h.short u hm
    · exact List.mem_singleton.mp hm ▸ hu

theorem Encodes.append (h : Encodes b seq us) {seq' : Nat} {us' : List Update} (h' : Encodes src seq' us')
    (hn : us.length < 2 ^ 32) (hn' : us'.length < 2 ^ 32) : Encodes (b.append src) seq (us ++ us') := by
  refine ⟨?_, h.seq, ?_⟩
  · simp [WriteBatch.append, h.setCount, h.count hn, h'.count hn', h'.drop]
  · intro u hm
    exact (List.mem_append.mp hm).elim (h.short u) (h'.short u)

theorem Encodes.iterate (h : Encodes b seq us) (hn : us.length < 2 ^ 32) : b.iterate = (.ok (), us) := by
  have hlen : ¬ b.rep_.length < kHeader := by
    rw [h.rep, List.append_assoc, List.length_append, List.length_append, length_encodeFixed64,
      length_encodeFixed32, kHeader]
    omega
  have hloop := iterateLoop_encode h.short [] 0 []
  rw [List.append_nil, iterateLoop, List.nil_append, Nat.zero_add] at hloop
  simp [WriteBatch.iterate, hlen, h.drop, hloop, h.count hn]

private theorem Encodes.iterate_take (h : Encodes b seq us) (hn : us.length < 2 ^ 32) {n : Nat}
    (hcut : n < b.rep_.length) :
    ∃ e k, k ≤ us.length ∧ (⟨b.rep_.take n⟩ : WriteBatch).iterate = (.error e, us.take k) := by
  by_cases hsmall : n < kHeader
  · refine ⟨.batchTooSmall, 0, Nat.zero_le _, ?_⟩
    have : (b.rep_.take n).length < kHeader := by
      rw [List.length_take]
      omega
    rw [WriteBatch.iterate, if_pos this]
    rfl
  · have hheader : (encodeFixed64 seq ++ encodeFixed32 us.length).length = kHeader := rfl
    rw [h.rep, List.length_append, hheader] at hcut
    have hrep : b.rep_.take n =
        encodeFixed64 seq ++ encodeFixed32 us.length ++ (us.flatMap Update.encode).take (n - kHeader) := by
      rw [h.rep, List.take_append, List.take_of_length_le (Nat.le_of_not_lt hsmall), hheader]
    obtain ⟨k, hk, st, m, hloop, hm⟩ := iterateLoop_take h.short (n := n - kHeader) (by omega) 0 []
    have hlen : ¬ (b.rep_.take n).length < kHeader := by
      rw [hrep, List.length_append, hheader]
      omega
    have hcount : (⟨b.rep_.take n⟩ : WriteBatch).count = us.length := by
      rw [WriteBatch.count, hrep, List.append_assoc, List.drop_left' (length_encodeFixed64 seq),
        decodeFixed32_encodeFixed32 hn]
    have hdrop : (b.rep_.take n).drop kHeader = (us.flatMap Update.encode).take (n - kHeader) := by
      rw [hrep, List.drop_left' hheader]
    rw [List.nil_append] at hloop
    cases st with
    | error e => exact ⟨e, k, Nat.le_of_lt hk, by rw [WriteBatch.iterate, if_neg hlen, hdrop, hloop]⟩
    | ok u =>
      have hne : m ≠ us.length := by
        rw [hm rfl]
        omega
      refine ⟨.wrongCount, k, Nat.le_of_lt hk, ?_⟩
      rw [WriteBatch.iterate, if_neg hlen, hdrop, hloop]
      simp only [hcount, ne_eq, hne, not_false_eq_true, if_true]

end

/-- A call on a batch. The batch that is appended has been made of these updates. -/
inductive Call where
  | clear
  | put (key value : Bytes)
  | delete (key : Bytes)
  | setSequence (seq : Nat)
  | append (updates : List Update)

def apply (b : WriteBatch) : Update → WriteBatch
  | .put key value => b.put key value
  | .delete key => b.delete key

def ofUpdates (updates : List Update) : WriteBatch := updates.foldl apply clear

def step (b : WriteBatch) : Call → WriteBatch
  | .clear => clear
  | .put key value => b.put key value
  | .delete key => b.delete key
  | .setSequence seq => b.setSequence seq
  | .append updates => b.append (ofUpdates updates)

/-- What a batch stands for: a sequence number and updates. -/
def Call.run (d : Nat × List Update) : Call → Nat × List Update
  | .clear => (0, [])
  | .put key value => (d.1, d.2 ++ [.put key value])
  | .delete key => (d.1, d.2 ++ [.delete key])
  | .setSequence seq => (seq, d.2)
  | .append updates => (d.1, d.2 ++ updates)

/-- The updates that a call adds. -/
def Call.adds : Call → List Update
  | .clear => []
  | .put key value => [.put key value]
  | .delete key => [.delete key]
  | .setSequence _ => []
  | .append updates => updates

def Call.Short : Call → Prop
  | .setSequence seq => seq < 2 ^ 64
  | c => ∀ u ∈ c.adds, u.Short

/-- The calls after the last Clear. -/
def sinceClear (calls : List Call) : List Call :=
  calls.foldl (fun since c => match c with
    | .clear => []
    | c => since ++ [c]) []

section
variable {b : WriteBatch} {seq : Nat} {us : List Update}

theorem Encodes.apply (h : Encodes b seq us) (hn : us.length < 2 ^ 32) {u : Update} (hu : u.Short) :
    Encodes (b.apply u) seq (us ++ [u]) := by
  cases u with
  | put key value => exact h.put hn hu
  | delete key => exact h.delete hn hu

private theorem Encodes.foldl_apply {updates : List Update} (h : Encodes b seq us) (hu : ∀ u ∈ updates, u.Short)
    (hn : us.length + updates.length < 2 ^ 32) : Encodes (updates.foldl WriteBatch.apply b) seq (us ++ updates) := by
  induction updates generalizing b us with
  | nil => rwa [List.append_nil]
  | cons u updates ih =>
    rw [List.length_cons] at hn
    have hstep := h.apply (by omega) (hu u List.mem_cons_self)
    have hrest := ih hstep (fun v hv => hu v (List.mem_cons_of_mem u hv)) (by rw [List.length_append, List.length_singleton]; omega)
    rwa [List.append_assoc] at hrest

theorem encodes_ofUpdates {updates : List Update} (hu : ∀ u ∈ updates, u.Short) (hn : updates.length < 2 ^ 32) :
    Encodes (ofUpdates updates) 0 updates :=
  encodes_clear.foldl_apply hu (by rwa [List.length_nil, Nat.zero_add])

theorem Encodes.step (h : Encodes b seq us) {c : Call} (hc : c.Short) (hn : us.length + c.adds.length < 2 ^ 32) :
    Encodes (b.step c) (c.run (seq, us)).1 (c.run (seq, us)).2 := by
  cases c with
  | clear => exact encodes_clear
  | put key value => exact h.put (Nat.lt_of_le_of_lt (Nat.le_add_right _ _) hn) (hc _ List.mem_cons_self)
  | delete key => exact h.delete (Nat.lt_of_le_of_lt (Nat.le_add_right _ _) hn) (hc _ List.mem_cons_self)
  | setSequence seq' => exact h.setSequence hc
  | append updates =>
    have hsrc : updates.length < 2 ^ 32 := Nat.lt_of_le_of_lt (Nat.le_add_left _ _) hn
    exact h.append (encodes_ofUpdates hc hsrc) (Nat.lt_of_le_of_lt (Nat.le_add_right _ _) hn) hsrc

private theorem Call.length_run (c : Call) (seq : Nat) (us : List Update) :
    (c.run (seq, us)).2.length ≤ us.length + c.adds.length := by
  cases c <;> simp [Call.run, Call.adds]

theorem Encodes.run {calls : List Call} (h : Encodes b seq us) (hc : ∀ c ∈ calls, c.Short)
    (hn : us.length + (calls.flatMap Call.adds).length < 2 ^ 32) :
    Encodes (calls.foldl WriteBatch.step b) (calls.foldl Call.run (seq, us)).1 (calls.foldl Call.run (seq, us)).2 ∧
      (calls.foldl Call.run (seq, us)).2.length < 2 ^ 32 := by
  induction calls generalizing b seq us with
  | nil => exact ⟨h, by rwa [List.flatMap_nil, List.length_nil, Nat.add_zero] at hn⟩
  | cons c calls ih =>
    rw [List.flatMap_cons, List.length_append] at hn
    have hstep := h.step (hc c List.mem_cons_self) (by omega)
    have hlen : (c.run (seq, us)).2.length + (calls.flatMap Call.adds).length < 2 ^ 32 := by
      have := c.length_run seq us
      omega
    exact ih hstep (fun c' hc' => hc c' (List.mem_cons_of_mem c hc')) hlen

end

private theorem sinceClear_spec (calls : List Call) :
    (sinceClear calls).foldl step clear = calls.foldl step clear ∧
      (sinceClear calls).foldl Call.run (0, []) = calls.foldl Call.run (0, []) := by
  induction calls using List.reverseRecOn with
  | nil => exact ⟨rfl, rfl⟩
  | append_singleton calls c ih =>
    unfold sinceClear at ih ⊢
    simp only [List.foldl_append, List.foldl_cons, List.foldl_nil]
    cases c with
    | clear => exact ⟨rfl, rfl⟩
    | _ => simp only [List.foldl_append, List.foldl_cons, List.foldl_nil, ih.1, ih.2, and_self]

/-- After any calls on a batch the handler is called with the updates since the last Clear, in order, and
the header holds their number and the last sequence number. No proper beginning of the bytes is taken for
a batch. At no time there are 2³¹ updates since the last Clear: their number is an int. -/
theorem batch_holds_its_updates (calls : List Call) (hfits : ∀ c ∈ sinceClear calls, c.Short)
    (hcount : ∀ made ∈ calls.inits, ((sinceClear made).flatMap Call.adds).length < 2 ^ 31) :
    let b := calls.foldl step clear
    let d := calls.foldl Call.run (0, [])
    b.iterate = (.ok (), d.2) ∧ b.count = d.2.length ∧ b.sequence = d.1 ∧
      ∀ n < b.rep_.length, ∃ e k, k ≤ d.2.length ∧ (⟨b.rep_.take n⟩ : WriteBatch).iterate = (.error e, d.2.take k) := by
  obtain ⟨h, hlen⟩ := encodes_clear.run hfits (by
    rw [List.length_nil, Nat.zero_add]
    exact Nat.lt_trans (hcount calls ((List.mem_inits _ _).mpr (List.prefix_refl _))) (by decide))
  rw [(sinceClear_spec calls).1, (sinceClear_spec calls).2] at h
  rw [(sinceClear_spec calls).2] at hlen
  exact ⟨h.iterate hlen, h.count hlen, h.sequence, fun n hn => h.iterate_take hlen hn⟩

/-- A batch that was cleared and filled again. -/
theorem batch_holds_its_updates_append :
    ([Call.put [5] [6], .clear, .put [1] [2], .setSequence 7, .append [.delete [1], .put [3] [4]]].foldl step
      clear).iterate =
      (.ok (), [.put [1] [2], .delete [1], .put [3] [4]]) :=
  (batch_holds_its_updates [.put [5] [6], .clear, .put [1] [2], .setSequence 7, .append [.delete [1], .put [3] [4]]]
    (by simp [sinceClear, Call.Short, Call.adds, Update.Short]) (by decide)).1

end WriteBatch
end TableFS.Leveldb
