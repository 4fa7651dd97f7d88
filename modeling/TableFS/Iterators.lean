import TableFS.KvWrappers

/-! The iterators of the seven wrappers against one cursor. A target has a listing: for the array
iterators the entries that a scan returns, which they keep with an index of type size_t, for the
LevelDB and RocksDB ones the entries from the target on, since these pass every call to the store's
own iterator. Seek leaves the index of four of them where it was; the two that pass calls on move
forward on Prev, and SeekToFirst takes them to the first entry of the store. -/
namespace TableFS.Kv
open Runs
variable {ε τ : Type}

inductive IteratorCall (τ : Type) where
  | seek (target : τ)
  | seekToFirst
  | seekToLast
  | next
  | prev
  deriving DecidableEq

/-- A cursor: a listing and a position, which may lie outside it on either side. -/
structure Cursor (ε : Type) where
  listing : List ε
  position : Int
  deriving DecidableEq

namespace Cursor

def start : Cursor ε := ⟨[], 0⟩

def entry (c : Cursor ε) : Option ε := if 0 ≤ c.position then c.listing[c.position.toNat]? else none

def moved (scan : τ → List ε) (c : Cursor ε) : IteratorCall τ → Cursor ε
  | .seek target => ⟨scan target, 0⟩
  | .seekToFirst => { c with position := 0 }
  | .seekToLast => { c with position := c.listing.length - 1 }
  | .next => { c with position := c.position + 1 }
  | .prev => { c with position := c.position - 1 }

/-- A call, and the entry that the cursor then stands on. -/
def step (scan : τ → List ε) (c : Cursor ε) (call : IteratorCall τ) : Cursor ε × Option ε :=
  (c.moved scan call, (c.moved scan call).entry)

/-- The position modulo 2^64 finds the same entry, or none as well. -/
def NoWrap (c : Cursor ε) : Prop := c.listing[(UInt64.ofInt c.position).toNat]? = c.entry

def Inside (c : Cursor ε) : Prop := 0 ≤ c.position ∧ c.position < c.listing.length

instance (c : Cursor ε) : Decidable c.Inside := inferInstanceAs (Decidable (_ ∧ _))

private theorem isSome_entry (c : Cursor ε) : c.entry.isSome ↔ c.Inside := by
  unfold entry Inside
  split
  · rw [Option.isSome_iff_ne_none, ne_eq, List.getElem?_eq_none_iff]
    omega
  · simp only [Option.isSome_none, Bool.false_eq_true, false_iff]
    omega

private theorem toNat_ofInt (i : Int) : (UInt64.ofInt i).toNat = (i % 18446744073709551616).toNat := by
  have hlt : (i % 18446744073709551616).toNat < 18446744073709551616 := by omega
  exact UInt64.toNat_ofNat_of_lt' hlt

private theorem noWrap_of_lt (c : Cursor ε) (hlow : c.listing.length - 18446744073709551616 ≤ c.position)
    (hhigh : c.position < 18446744073709551616) : c.NoWrap := by
  rw [NoWrap, toNat_ofInt, entry]
  split
  · rw [Int.emod_eq_of_lt (by omega) hhigh]
  · exact List.getElem?_eq_none (by omega)

end Cursor

/-- What an iterator runs over: the entries in key order, those before a target and those that a
scan for it matches. -/
structure Content (ε τ : Type) where
  entries : List ε
  before : τ → ε → Bool
  matching : τ → ε → Bool

namespace Content

/-- What a scan returns. -/
def scan (m : Content ε τ) (target : τ) : List ε := m.entries.filter (m.matching target)

/-- The entries a store's iterator passes from the target on. -/
def since (m : Content ε τ) (target : τ) : List ε := m.entries.dropWhile (m.before target)

end Content

/-- An iterator as its callers see it. -/
structure KvIterator (ε τ : Type) where
  State : Type
  create : Content ε τ → State
  moved : Content ε τ → State → IteratorCall τ → State
  valid : State → Bool
  /-- What key and value read, if anything is there. -/
  entry : State → Option ε

def KvIterator.step (it : KvIterator ε τ) (m : Content ε τ) (s : it.State) (call : IteratorCall τ) :
    it.State × Option ε :=
  (it.moved m s call, it.entry (it.moved m s call))

/-- The state of an array iterator: dentry and cursor. -/
structure ArrayState (ε : Type) where
  dentry : List ε
  cursor : UInt64
  deriving DecidableEq

/-- The five array iterators, but for what Seek does to the cursor. -/
def arrayIterator (seek : UInt64 → UInt64) : KvIterator ε τ where
  State := ArrayState ε
  create _ := ⟨[], 0⟩
  moved m s
    | .seek target => ⟨m.scan target, seek s.cursor⟩
    | .seekToFirst => { s with cursor := 0 }
    | .seekToLast => { s with cursor := .ofNat s.dentry.length - 1 }
    | .next => { s with cursor := s.cursor + 1 }
    | .prev => { s with cursor := s.cursor - 1 }
  valid s := s.cursor.toNat < s.dentry.length
  entry s := s.dentry[s.cursor.toNat]?

def MetaKVIterator : KvIterator ε τ := arrayIterator id

def HikvIterator : KvIterator ε τ := arrayIterator fun _ => 0

def uTreeIterator : KvIterator ε τ := arrayIterator id

def RoartIterator : KvIterator ε τ := arrayIterator id

def TlhashIterator : KvIterator ε τ := arrayIterator id

/-- The store's own iterator: a position among all entries, at first beyond the last. Next asserts
that there is an entry; `none` is the process after a failed assertion. -/
def StoreState (ε : Type) := Option (Cursor ε)

def storeNext (s : StoreState ε) : StoreState ε :=
  s.bind fun c => if c.Inside then some { c with position := c.position + 1 } else none

/-- The two iterators that pass calls to the store's: Prev is passed on as Next. -/
def storeIterator : KvIterator ε τ where
  State := StoreState ε
  create m := some ⟨m.entries, m.entries.length⟩
  moved m s
    | .seek target => s.map fun _ => ⟨m.entries, (m.entries.takeWhile (m.before target)).length⟩
    | .seekToFirst => s.map fun _ => ⟨m.entries, 0⟩
    | .seekToLast => s.map fun _ => ⟨m.entries, m.entries.length - 1⟩
    | .next => storeNext s
    | .prev => storeNext s
  valid s := s.any fun c => c.Inside
  entry s := s.bind Cursor.entry

def LeveldbIterator : KvIterator ε τ := storeIterator

def RocksdbIterator : KvIterator ε τ := storeIterator

def Backend.iterator : Backend → KvIterator ε τ
  | .leveldb => LeveldbIterator
  | .rocksdb => RocksdbIterator
  | .metakv => MetaKVIterator
  | .hikv => HikvIterator
  | .utree => uTreeIterator
  | .roart => RoartIterator
  | .tlhash => TlhashIterator

/-- The listing for a target. -/
def Backend.listing (b : Backend) (m : Content ε τ) : τ → List ε :=
  match b with
  | .leveldb | .rocksdb => m.since
  | .metakv | .hikv | .utree | .roart | .tlhash => m.scan

/-- An array iterator holds the listing of the cursor and its position modulo 2^64. -/
def ArrayState.At (s : ArrayState ε) (c : Cursor ε) : Prop :=
  s.dentry = c.listing ∧ s.cursor = UInt64.ofInt c.position

/-- A store's iterator stands where the cursor does, among all entries: the listing is the last
part of them. -/
def StoreState.At (s : StoreState ε) (m : Content ε τ) (c : Cursor ε) : Prop :=
  ∃ before, m.entries = before ++ c.listing ∧ s = some ⟨m.entries, before.length + c.position⟩

/-- The iterator stands where the cursor does. -/
def Backend.At (m : Content ε τ) : (b : Backend) → (b.iterator : KvIterator ε τ).State → Cursor ε → Prop
  | .leveldb, s, c | .rocksdb, s, c => StoreState.At s m c
  | .metakv, s, c | .hikv, s, c | .utree, s, c | .roart, s, c | .tlhash, s, c => ArrayState.At s c

/-- It stands where the cursor does, on the same entry, and is Valid exactly if that is inside the
listing. -/
structure Backend.Agrees (b : Backend) (m : Content ε τ) (s : (b.iterator : KvIterator ε τ).State) (c : Cursor ε) :
    Prop where
  place : b.At m s c
  valid : b.iterator.valid s ↔ c.Inside
  entry : b.iterator.entry s = c.entry

/-- The calls on which an iterator keeps up with the cursor. -/
def Backend.KeepsUp (b : Backend) (m : Content ε τ) (c : Cursor ε) (call : IteratorCall τ) : Prop :=
  match b with
  | .leveldb | .rocksdb =>
    match call with
    | .seek _ => True
    | .seekToFirst => c.listing = m.entries
    | .seekToLast => c.listing = [] → m.entries = []
    | .next => c.Inside
    | .prev => False
  | .hikv => (c.moved m.scan call).NoWrap
  | .metakv | .utree | .roart | .tlhash =>
    ((∃ target, call = .seek target) → UInt64.ofInt c.position = 0) ∧ (c.moved m.scan call).NoWrap

private theorem ofInt_natCast (n : Nat) : UInt64.ofInt n = .ofNat n := by
  rw [← UInt64.toNat_inj, Cursor.toNat_ofInt, UInt64.toNat_ofNat', ← Int.toNat_natCast (n % 2 ^ 64), Int.natCast_emod]
  rfl

section
variable {m : Content ε τ}

private theorem arrayIterator_at_iff {seek : UInt64 → UInt64} {s : ArrayState ε} {c : Cursor ε} (h : s.At c)
    (call : IteratorCall τ) :
    ArrayState.At ((arrayIterator seek).moved m s call) (c.moved m.scan call) ↔
      ((∃ target, call = .seek target) → seek (UInt64.ofInt c.position) = 0) := by
  obtain ⟨hl, hc⟩ := h
  cases call with
  | seek target => simp [ArrayState.At, arrayIterator, Cursor.moved, hc, UInt64.ofInt]
  | seekToFirst => simp [ArrayState.At, arrayIterator, Cursor.moved, hl, UInt64.ofInt]
  | seekToLast => simp [ArrayState.At, arrayIterator, Cursor.moved, hl, Int.sub_eq_add_neg, UInt64.ofInt_add,
      UInt64.ofInt_neg, UInt64.ofInt_one, UInt64.sub_eq_add_neg, ofInt_natCast]
  | next => simp [ArrayState.At, arrayIterator, Cursor.moved, hl, hc, UInt64.ofInt_add, UInt64.ofInt_one]
  | prev => simp [ArrayState.At, arrayIterator, Cursor.moved, hl, hc, Int.sub_eq_add_neg, UInt64.ofInt_add,
      UInt64.ofInt_neg, UInt64.ofInt_one, UInt64.sub_eq_add_neg]

private theorem arrayIterator_right_iff (seek : UInt64 → UInt64) {s : ArrayState ε} {c : Cursor ε} (h : s.At c) :
    (((arrayIterator (τ := τ) seek).valid s ↔ c.Inside) ∧ (arrayIterator (τ := τ) seek).entry s = c.entry) ↔
      c.NoWrap := by
  have hentry : (arrayIterator (τ := τ) seek).entry s = c.entry ↔ c.NoWrap := by
    rw [Cursor.NoWrap, ← h.1, ← h.2]
    rfl
  have hvalid : (arrayIterator (τ := τ) seek).valid s ↔ ((arrayIterator (τ := τ) seek).entry s).isSome := by
    simp [arrayIterator, Option.isSome_iff_exists, List.getElem?_eq_some_iff]
  refine ⟨fun h => hentry.mp h.2, fun h => ?_⟩
  have he := hentry.mpr h
  exact ⟨hvalid.trans (he ▸ c.isSome_entry), he⟩

private theorem arrayIterator_step {f : UInt64 → UInt64} {s : ArrayState ε} {c : Cursor ε} (h : s.At c)
    (call : IteratorCall τ) :
    let s' := (arrayIterator f).moved m s call
    let c' := c.moved m.scan call
    (ArrayState.At s' c' ∧ ((arrayIterator (τ := τ) f).valid s' ↔ c'.Inside) ∧
        (arrayIterator (τ := τ) f).entry s' = c'.entry) ↔
      ((∃ target, call = .seek target) → f (UInt64.ofInt c.position) = 0) ∧ c'.NoWrap := by
  intro s' c'
  refine ⟨fun ⟨hat, hright⟩ => ⟨(arrayIterator_at_iff h call).mp hat, (arrayIterator_right_iff f hat).mp hright⟩,
    fun ⟨hseek, hwrap⟩ => ?_⟩
  have hat : ArrayState.At s' c' := (arrayIterator_at_iff h call).mpr hseek
  exact ⟨hat, (arrayIterator_right_iff f hat).mpr hwrap⟩

/-- Where it stands, a store's iterator is right about Valid and the entry, unless that is before
the listing and still in the store. -/
private theorem storeIterator_right {before : List ε} {c : Cursor ε} (hm : m.entries = before ++ c.listing)
    (hpos : c.Inside ∨ (before.length + c.position < 0 ∨ (m.entries.length : Int) ≤ before.length + c.position)) :
    ((storeIterator (τ := τ)).valid (some ⟨m.entries, before.length + c.position⟩) ↔ c.Inside) ∧
      (storeIterator (τ := τ)).entry (some ⟨m.entries, before.length + c.position⟩) = c.entry := by
  have hlen : m.entries.length = before.length + c.listing.length := by rw [hm, List.length_append]
  have hvalid : (storeIterator (τ := τ)).valid (some ⟨m.entries, before.length + c.position⟩) ↔
      Cursor.Inside ⟨m.entries, before.length + c.position⟩ := by simp [storeIterator]
  have hentry : (storeIterator (τ := τ)).entry (some ⟨m.entries, before.length + c.position⟩) =
      Cursor.entry ⟨m.entries, before.length + c.position⟩ := rfl
  have hboth : Cursor.Inside ⟨m.entries, before.length + c.position⟩ ↔ c.Inside := by
    unfold Cursor.Inside at hpos ⊢
    simp only
    omega
  refine ⟨hvalid.trans hboth, hentry.trans ?_⟩
  by_cases hin : c.Inside
  · have h0 : (0 : Int) ≤ before.length + c.position := by have := hin.1; omega
    have hnat : ((before.length : Int) + c.position).toNat = before.length + c.position.toNat := by
      have := hin.1
      omega
    simp only [Cursor.entry, if_pos hin.1, if_pos h0, hnat, hm]
    rw [List.getElem?_append_right (Nat.le_add_right _ _), Nat.add_sub_cancel_left]
  · have hnone (c' : Cursor ε) (h : ¬ c'.Inside) : c'.entry = none :=
      Option.not_isSome_iff_eq_none.mp fun hs => h (c'.isSome_entry.mp hs)
    rw [hnone c hin, hnone _ fun h => hin (hboth.mp h)]

private theorem storeAt_iff {before : List ε} {l : List ε} (hm : m.entries = before ++ l) (p q : Int) :
    StoreState.At (some ⟨m.entries, p⟩) m ⟨l, q⟩ ↔ p = before.length + q := by
  refine ⟨fun ⟨before', hm', he⟩ => ?_, fun hp => ⟨before, hm, by rw [hp]⟩⟩
  obtain rfl : before' = before := List.append_cancel_right (hm'.symm.trans hm)
  exact congrArg Cursor.position (Option.some.inj he)

private theorem storeIterator_stands {before l : List ε} {p q : Int} (hm : m.entries = before ++ l)
    (hp : p = before.length + q) (hpos : Cursor.Inside ⟨l, q⟩ ∨ p < 0 ∨ (m.entries.length : Int) ≤ p) :
    StoreState.At (some ⟨m.entries, p⟩) m ⟨l, q⟩ ∧
      ((storeIterator (τ := τ)).valid (some ⟨m.entries, p⟩) ↔ Cursor.Inside ⟨l, q⟩) ∧
      (storeIterator (τ := τ)).entry (some ⟨m.entries, p⟩) = Cursor.entry ⟨l, q⟩ := by
  subst hp
  exact ⟨(storeAt_iff hm _ _).mpr rfl, storeIterator_right (c := ⟨l, q⟩) hm hpos⟩

private theorem storeNext_eq {before : List ε} {c : Cursor ε}
    (hvalid : (storeIterator (τ := τ)).valid (some ⟨m.entries, before.length + c.position⟩) ↔ c.Inside) :
    storeNext (some ⟨m.entries, before.length + c.position⟩) =
      if c.Inside then some ⟨m.entries, before.length + c.position + 1⟩ else none := by
  have hin : Cursor.Inside ⟨m.entries, before.length + c.position⟩ ↔ c.Inside := by
    rw [← hvalid]
    simp [storeIterator]
  by_cases h : c.Inside
  · rw [if_pos h]
    exact if_pos (hin.mpr h)
  · rw [if_neg h]
    exact if_neg fun h' => h (hin.mp h')

private theorem storeIterator_step {s : StoreState ε} {c : Cursor ε} (h : s.At m c)
    (hvalid : (storeIterator (τ := τ)).valid s ↔ c.Inside) (call : IteratorCall τ) :
    let s' := (storeIterator (τ := τ)).moved m s call
    let c' := c.moved m.since call
    (StoreState.At s' m c' ∧ ((storeIterator (τ := τ)).valid s' ↔ c'.Inside) ∧
        (storeIterator (τ := τ)).entry s' = c'.entry) ↔ Backend.leveldb.KeepsUp m c call := by
  obtain ⟨before, hm, rfl⟩ := h
  have hlen : m.entries.length = before.length + c.listing.length := by rw [hm, List.length_append]
  cases call with
  | seek target =>
    have hsplit : m.entries = m.entries.takeWhile (m.before target) ++ m.since target :=
      (List.takeWhile_append_dropWhile ..).symm
    refine iff_of_true (storeIterator_stands hsplit (Int.add_zero _).symm ?_) trivial
    have hl := congrArg List.length hsplit
    rw [List.length_append] at hl
    simp only [Cursor.Inside]
    omega
  | seekToFirst =>
    refine ⟨fun ⟨hat, _⟩ => ?_, fun (hall : c.listing = m.entries) => ?_⟩
    · have h0 := (storeAt_iff hm 0 0).mp hat
      obtain rfl : before = [] := List.length_eq_zero_iff.mp (by omega)
      exact hm.symm
    · rw [hall] at hlen
      refine storeIterator_stands hm (by omega) ?_
      simp only [Cursor.Inside, hall]
      omega
  | seekToLast =>
    refine ⟨fun ⟨_, hv, _⟩ hnil => ?_, fun (hall : c.listing = [] → m.entries = []) => ?_⟩
    · have hout : ¬ (c.moved m.since .seekToLast).Inside := by
        simp only [Cursor.moved, Cursor.Inside, hnil, List.length_nil]
        omega
      have hn : ¬ Cursor.Inside ⟨m.entries, m.entries.length - 1⟩ := by
        intro hin
        exact hout (hv.mp (by simpa [storeIterator] using hin))
      simp only [Cursor.Inside] at hn
      exact List.length_eq_zero_iff.mp (by omega)
    · refine storeIterator_stands hm (by omega) ?_
      simp only [Cursor.Inside]
      rcases Nat.eq_zero_or_pos c.listing.length with h0 | hpos
      · rw [hall (List.length_eq_zero_iff.mp h0), List.length_nil] at hlen ⊢
        omega
      · omega
  | next =>
    simp only [storeIterator, storeNext_eq hvalid, Backend.KeepsUp, Cursor.moved]
    split
    · rename_i hin
      have hpos := hin.1
      refine iff_of_true (storeIterator_stands (τ := τ) hm (Int.add_assoc ..) ?_) hin
      simp only [Cursor.Inside]
      omega
    · rename_i hout
      exact iff_of_false (fun ⟨⟨_, _, he⟩, _⟩ => Option.some_ne_none _ he.symm) hout
  | prev =>
    refine iff_of_false (fun ⟨hat, _⟩ => ?_) id
    simp only [storeIterator, storeNext_eq hvalid, Cursor.moved] at hat
    split at hat
    · have := (storeAt_iff hm _ _).mp hat
      omega
    · obtain ⟨_, _, he⟩ := hat
      exact Option.some_ne_none _ he.symm

private theorem Backend.iterator_step (b : Backend) {s : (b.iterator : KvIterator ε τ).State} {c : Cursor ε}
    (h : b.Agrees m s c) (call : IteratorCall τ) :
    b.Agrees m (b.iterator.step m s call).1 (c.step (b.listing m) call).1 ↔ b.KeepsUp m c call := by
  have hparts : b.Agrees m (b.iterator.step m s call).1 (c.step (b.listing m) call).1 ↔
      b.At m (b.iterator.moved m s call) (c.moved (b.listing m) call) ∧
        (b.iterator.valid (b.iterator.moved m s call) ↔ (c.moved (b.listing m) call).Inside) ∧
        b.iterator.entry (b.iterator.moved m s call) = (c.moved (b.listing m) call).entry :=
    ⟨fun h => ⟨h.place, h.valid, h.entry⟩, fun h => ⟨h.1, h.2.1, h.2.2⟩⟩
  refine hparts.trans ?_
  cases b with
  | leveldb | rocksdb => exact storeIterator_step h.place h.valid call
  | hikv => exact (arrayIterator_step (f := fun _ => 0) h.place call).trans (and_iff_right fun _ => rfl)
  | metakv | utree | roart | tlhash => exact arrayIterator_step h.place call

private theorem Backend.iterator_create (b : Backend) : b.Agrees m (b.iterator.create m) Cursor.start := by
  have hat : ArrayState.At ⟨[], 0⟩ (Cursor.start : Cursor ε) := ⟨rfl, rfl⟩
  have hright (f : UInt64 → UInt64) := (arrayIterator_right_iff (τ := τ) f hat).mpr rfl
  have hwhole : m.entries = m.entries ++ (Cursor.start : Cursor ε).listing := by simp [Cursor.start]
  have hstore := storeIterator_right (τ := τ) hwhole (by simp [Cursor.start])
  cases b with
  | leveldb | rocksdb =>
    exact ⟨⟨m.entries, by simp [Cursor.start], rfl⟩, hstore.1, hstore.2⟩
  | hikv => exact ⟨hat, (hright fun _ => 0).1, (hright fun _ => 0).2⟩
  | metakv | utree | roart | tlhash => exact ⟨hat, (hright id).1, (hright id).2⟩

end

/-- After every call of a run that begins with a Seek an iterator stands where the cursor does, and
is Valid there exactly if that is inside the listing, if and only if it keeps up at every call. An
array iterator does while Seek finds its index at 0 (that of HiKV it sets to 0) and the index does
not wrap around; LevelDB's and RocksDB's do while Prev is not called, Next is called on an entry,
SeekToFirst on a listing that is the whole store, and SeekToLast not on an empty listing of a store
that is not empty. -/
theorem iterators_follow_cursor_iff (b : Backend) (m : Content ε τ) (target : τ) (calls : List (IteratorCall τ)) :
    Allowed (paired (b.iterator.step m) (Cursor.step (b.listing m)))
        (fun p call => b.Agrees m (paired (b.iterator.step m) (Cursor.step (b.listing m)) p call).1.1
          (paired (b.iterator.step m) (Cursor.step (b.listing m)) p call).1.2)
        (b.iterator.create m, Cursor.start) (.seek target :: calls) ↔
      Allowed (Cursor.step (b.listing m)) (b.KeepsUp m) Cursor.start (.seek target :: calls) :=
  allowed_paired_iff (b.Agrees m) (b.KeepsUp m) (fun _ _ call h => b.iterator_step h call)
    b.iterator_create (.seek target :: calls)

/-- HiKV's iterator keeps up through any run that is shorter than 2^63 calls, on stores as small. -/
theorem hikv_keepsUp (m : Content ε τ) (hm : m.entries.length < 9223372036854775808) (c : Cursor ε)
    (hc : c.listing.length < 9223372036854775808) (calls : List (IteratorCall τ)) (n : Nat)
    (hlow : -(n + 1 : Int) ≤ c.position) (hhigh : c.position ≤ 9223372036854775808 + n)
    (hcalls : n + calls.length < 9223372036854775808) :
    Allowed (Cursor.step m.scan) (Backend.hikv.KeepsUp m) c calls := by
  induction calls generalizing c n with
  | nil => trivial
  | cons call calls ih =>
    have hscan (target : τ) : (m.scan target).length < 9223372036854775808 :=
      Nat.lt_of_le_of_lt (List.length_filter_le _ _) hm
    have hnext : (c.moved m.scan call).listing.length < 9223372036854775808 ∧
        -((n + 1 : Nat) + 1 : Int) ≤ (c.moved m.scan call).position ∧
        (c.moved m.scan call).position ≤ 9223372036854775808 + (n + 1 : Nat) := by
      cases call with
      | seek target => exact ⟨hscan target, by simp only [Cursor.moved]; omega, by simp only [Cursor.moved]; omega⟩
      | _ => exact ⟨hc, by simp only [Cursor.moved]; omega, by simp only [Cursor.moved]; omega⟩
    obtain ⟨hlen, hl, hh⟩ := hnext
    rw [List.length_cons] at hcalls
    exact ⟨Cursor.noWrap_of_lt _ (by omega) (by omega), ih _ hlen (n + 1) hl hh (by omega)⟩

/-- The second Seek stands on the second entry, Prev after Next on the third, and SeekToFirst on an
entry before the listing. -/
theorem iterators_leave_cursor :
    let m : Content Char Char := ⟨['a', 'b', 'c'], fun t e => decide (e < t), fun _ _ => true⟩
    (run (Backend.metakv.iterator.step m) (Backend.metakv.iterator.create m)
        [.seek 'a', .next, .seek 'a']).2 = [some 'a', some 'b', some 'b'] ∧
      (run (Backend.leveldb.iterator.step m) (Backend.leveldb.iterator.create m)
        [.seek 'a', .next, .prev]).2 = [some 'a', some 'b', some 'c'] ∧
      (run (Backend.leveldb.iterator.step m) (Backend.leveldb.iterator.create m)
        [.seek 'b', .seekToFirst]).2 = [some 'b', some 'a'] ∧
      (run (Cursor.step (Backend.leveldb.listing m)) Cursor.start [.seek 'b', .seekToFirst]).2 =
        [some 'b', some 'b'] := by
  decide +kernel

end TableFS.Kv
