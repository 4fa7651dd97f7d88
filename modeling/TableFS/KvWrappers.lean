import TableFS.Lib.Runs
import TableFS.Inode

/-! The seven key-value wrappers of adaptor/, each over an exact map that never fails: how they
translate results, batches and Sync, and on which requests they give what one contract says.
They agree on the records; they differ in the codes of Get, Write and Sync and in the key that
two of them put for Sync. -/
namespace TableFS.Kv
open Runs

abbrev Bytes := List UInt8

/-- The keys of the file system: sixteen bytes. -/
abbrev Key := { key : Bytes // key.length = 16 }

/-- An entry of a leveldb::WriteBatch. -/
inductive Update where
  | put (key : Key) (value : Bytes)
  | delete (key : Key)
  deriving DecidableEq

/-- What the stores return; the boolean results and HiKV's codes are its test for ok. -/
inductive Status where
  | ok
  | notFound
  deriving DecidableEq

def Status.isOk (s : Status) : Bool := s = .ok

def Status.isNotFound (s : Status) : Bool := s = .notFound

/-- leveldb::Status::ToString. -/
def Status.toString : Status → Bytes
  | .ok => [79, 75]
  | .notFound => [78, 111, 116, 70, 111, 117, 110, 100, 58, 32]

/-- An underlying store: an exact map. -/
abbrev ExactMap (κ : Type) := Finmap (fun _ : κ => Bytes)

namespace ExactMap
variable {κ : Type} [DecidableEq κ]

def put (db : ExactMap κ) (key : κ) (value : Bytes) : ExactMap κ × Status := (db.insert key value, .ok)

/-- A result that is not there leaves the caller's string as it was. -/
def get (db : ExactMap κ) (key : κ) (result : Bytes) : Status × Bytes :=
  match db.lookup key with
  | some value => (.ok, value)
  | none => (.notFound, result)

def delete (db : ExactMap κ) (key : κ) : ExactMap κ × Status := (db.erase key, .ok)

/-- WriteBatch::Iterate with a handler that applies each entry. -/
def iterate (encode : Key → κ) (batch : List Update) (db : ExactMap κ) : ExactMap κ :=
  batch.foldl (fun db entry => match entry with
    | .put key value => (db.put (encode key) value).1
    | .delete key => (db.delete (encode key)).1) db

end ExactMap

/-- KvWrapper, without its iterators and metrics: Get takes the caller's result string and
returns it with the code. -/
structure KvWrapper where
  Store : Type
  empty : Store
  put : Store → Key → Bytes → Store × Int
  get : Store → Key → Bytes → Int × Bytes
  delete : Store → Key → Store × Int
  write : Store → List Update → Store × Int
  sync : Store → Store × Int
  /-- What is stored under any string of bytes. -/
  contents : Store → Bytes → Option Bytes

/-- The code of a call that returns 0 or -1 by its status. -/
def code (s : Status) : Int := if s.isOk then 0 else -1

/-- The four bytes Sync writes as a key. -/
def syncKey : Bytes := [115, 121, 110, 99]

/-- LeveldbWrapper::Get of a status and a result: the test for an error comes first, and a key
that is not found is one. -/
def leveldbGet (r : Status × Bytes) : Int × Bytes :=
  if !r.1.isOk then (-1, r.1.toString) else (if r.1.isNotFound then 0 else 1, r.2)

def LeveldbWrapper : KvWrapper where
  Store := ExactMap Bytes
  empty := ∅
  put db key value := ((ExactMap.put db key.val value).1, code (ExactMap.put db key.val value).2)
  get db key result := leveldbGet (ExactMap.get db key.val result)
  delete db key := ((ExactMap.delete db key.val).1, 0)
  write db batch := (ExactMap.iterate Subtype.val batch db, code .ok)
  sync db := ((ExactMap.put db syncKey []).1, code (ExactMap.put db syncKey []).2)
  contents db key := db.lookup key

def rocksdbGet (r : Status × Bytes) : Int × Bytes :=
  if r.1.isNotFound then (0, r.2) else if !r.1.isOk then (-1, r.1.toString) else (1, r.2)

def RocksdbWrapper : KvWrapper where
  Store := ExactMap Bytes
  empty := ∅
  put db key value := ((ExactMap.put db key.val value).1, code (ExactMap.put db key.val value).2)
  get db key result := rocksdbGet (ExactMap.get db key.val result)
  delete db key := ((ExactMap.delete db key.val).1, 0)
  -- the batch is copied into a RocksDB batch and written at once
  write db batch := (ExactMap.iterate Subtype.val batch db, code .ok)
  sync db := ((ExactMap.put db syncKey []).1, code (ExactMap.put db syncKey []).2)
  contents db key := db.lookup key

/-- tfsKey: the directory's half of the key and the name's. -/
def tfsKey (key : Key) : Bytes × Bytes := (key.val.take 8, (key.val.drop 8).take 8)

def metaKVGet (r : Status × Bytes) : Int × Bytes := (if !r.1.isOk then 0 else 1, r.2)

def MetaKVWrapper : KvWrapper where
  Store := ExactMap (Bytes × Bytes)
  empty := ∅
  put db key value := ((ExactMap.put db (tfsKey key) value).1, code (ExactMap.put db (tfsKey key) value).2)
  -- the value starts empty and is returned found or not
  get db key _ := metaKVGet (ExactMap.get db (tfsKey key) [])
  delete db key := ((ExactMap.delete db (tfsKey key)).1, 0)
  write db batch := (ExactMap.iterate tfsKey batch db, 1)
  sync db := (db, 1)
  contents db key := db.lookup (key.take 8, key.drop 8)

/-- HikvInserter: the batch as a list of flags, keys and values. -/
def hikvInserter (batch : List Update) : List (Bool × Bytes × Bytes) :=
  batch.map fun
    | .put key value => (true, key.val, value)
    | .delete key => (false, key.val, [])

/-- The result is set only if the key is found; on other codes the caller's string stays, as the
store leaves it. -/
def hikvGet (r : Status × Bytes) : Int × Bytes :=
  if r.1.isOk then (1, r.2) else if r.1.isNotFound then (0, r.2) else (-1, r.2)

def HikvWrapper : KvWrapper where
  Store := ExactMap Bytes
  empty := ∅
  put db key value := ((ExactMap.put db key.val value).1, code (ExactMap.put db key.val value).2)
  get db key result := hikvGet (ExactMap.get db key.val result)
  delete db key := ((ExactMap.delete db key.val).1, 0)
  write db batch := ((hikvInserter batch).foldl (fun db item =>
    if item.1 then (ExactMap.put db item.2.1 item.2.2).1 else (ExactMap.delete db item.2.1).1) db, 1)
  sync db := (db, 1)
  contents db key := db.lookup key

def booleanGet (r : Status × Bytes) : Int × Bytes := (if r.1.isOk then 1 else 0, r.2)

/-- The wrappers over stores with boolean results. -/
def booleanWrapper : KvWrapper where
  Store := ExactMap Bytes
  empty := ∅
  put db key value := ((ExactMap.put db key.val value).1, code (ExactMap.put db key.val value).2)
  get db key result := booleanGet (ExactMap.get db key.val result)
  delete db key := ((ExactMap.delete db key.val).1, 0)
  write db batch := (ExactMap.iterate Subtype.val batch db, 0)
  sync db := (db, 0)
  contents db key := db.lookup key

def uTreeWrapper : KvWrapper := booleanWrapper

def RoartWrappr : KvWrapper := booleanWrapper

/-- Put reads back what it stored. A failed assertion ends the process, and the store with it. -/
def tlhashPut (db : ExactMap Bytes) (key : Key) (value : Bytes) : ExactMap Bytes × Int :=
  let (db, status) := ExactMap.put db key.val value
  if status.isOk then
    let check := (ExactMap.get db key.val []).2
    if value = check then (db, 0) else (∅, -1)
  else (db, -1)

def TlhashWrapper : KvWrapper := { booleanWrapper with put := tlhashPut }

inductive Backend where
  | leveldb
  | rocksdb
  | metakv
  | hikv
  | utree
  | roart
  | tlhash
  deriving DecidableEq

def Backend.wrapper : Backend → KvWrapper
  | .leveldb => LeveldbWrapper
  | .rocksdb => RocksdbWrapper
  | .metakv => MetaKVWrapper
  | .hikv => HikvWrapper
  | .utree => uTreeWrapper
  | .roart => RoartWrappr
  | .tlhash => TlhashWrapper

inductive KvOp where
  | put (key : Key) (value : Bytes)
  | get (key : Key) (result : Bytes)
  | delete (key : Key)
  | write (batch : List Update)
  | sync
  deriving DecidableEq

/-- A return code, and the value a Get that returned 1 gave. -/
structure Answer where
  ret : Int
  value : Option Bytes := none
  deriving DecidableEq

def KvWrapper.step (w : KvWrapper) (db : w.Store) : KvOp → w.Store × Answer
  | .put key value => ((w.put db key value).1, { ret := (w.put db key value).2 })
  | .get key result =>
    let r := w.get db key result
    (db, { ret := r.1, value := if r.1 = 1 then some r.2 else none })
  | .delete key => ((w.delete db key).1, { ret := (w.delete db key).2 })
  | .write batch => ((w.write db batch).1, { ret := (w.write db batch).2 })
  | .sync => ((w.sync db).1, { ret := (w.sync db).2 })

/-- The key-value mapping a store stands for. -/
abbrev Mapping := Bytes → Option Bytes

def Update.apply (m : Mapping) : Update → Mapping
  | .put key value => Function.update m key.val (some value)
  | .delete key => Function.update m key.val none

/-- The contract: puts and deletes applied in order, 0 for every change, 1 or 0 for a Get. -/
def contract (m : Mapping) : KvOp → Mapping × Answer
  | .put key value => (Update.apply m (.put key value), { ret := 0 })
  | .get key _ => (m, match m key.val with
    | some value => { ret := 1, value := some value }
    | none => { ret := 0 })
  | .delete key => (Update.apply m (.delete key), { ret := 0 })
  | .write batch => (batch.foldl Update.apply m, { ret := 0 })
  | .sync => (m, { ret := 0 })

private theorem key_ne_syncKey (key : Key) : key.val ≠ syncKey :=
  fun h => absurd (h ▸ key.property) (by decide)

section Apply
variable {m m' : Mapping}

private theorem apply_syncKey (m : Mapping) (u : Update) : u.apply m syncKey = m syncKey := by
  cases u with
  | put key value => exact Function.update_of_ne (key_ne_syncKey key).symm _ _
  | delete key => exact Function.update_of_ne (key_ne_syncKey key).symm _ _

private theorem apply_congr (h : ∀ k, k ≠ syncKey → m k = m' k) (u : Update) (k : Bytes) (hk : k ≠ syncKey) :
    u.apply m k = u.apply m' k := by
  cases u <;> simp only [Update.apply, Function.update_apply, h k hk]

private theorem foldl_apply_syncKey (batch : List Update) (m : Mapping) :
    batch.foldl Update.apply m syncKey = m syncKey := by
  induction batch generalizing m with
  | nil => rfl
  | cons u us ih => rw [List.foldl_cons, ih, apply_syncKey]

private theorem foldl_apply_congr (h : ∀ k, k ≠ syncKey → m k = m' k) (batch : List Update) (k : Bytes)
    (hk : k ≠ syncKey) : batch.foldl Update.apply m k = batch.foldl Update.apply m' k := by
  induction batch generalizing m m' with
  | nil => exact h k hk
  | cons u us ih => exact ih (apply_congr h u)

end Apply

/-- In what the wrappers differ: the codes of a Get that finds nothing, of Write and of Sync,
and whether Sync puts a key. -/
structure Profile where
  absent : Int
  write : Int
  sync : Int
  marks : Bool

/-- A wrapper does what its profile says, and otherwise what the contract says. -/
structure KvWrapper.Follows (w : KvWrapper) (p : Profile) : Prop where
  empty : w.contents w.empty = fun _ => none
  put : ∀ db key value, w.contents (w.put db key value).1 = Update.apply (w.contents db) (.put key value) ∧
    (w.put db key value).2 = 0
  delete : ∀ db key, w.contents (w.delete db key).1 = Update.apply (w.contents db) (.delete key) ∧
    (w.delete db key).2 = 0
  write : ∀ db batch, w.contents (w.write db batch).1 = batch.foldl Update.apply (w.contents db) ∧
    (w.write db batch).2 = p.write
  sync : ∀ db, w.contents (w.sync db).1 =
      (if p.marks then Function.update (w.contents db) syncKey (some []) else w.contents db) ∧
    (w.sync db).2 = p.sync
  found : ∀ db key result value, w.contents db key.val = some value → w.get db key result = (1, value)
  absent : ∀ db key result, w.contents db key.val = none → (w.get db key result).1 = p.absent
  negative : p.absent ≠ 1

/-- What a wrapper has to be spared for its codes to be the contract's. -/
def Profile.Answers (p : Profile) (m : Mapping) : KvOp → Prop
  | .get key _ => m key.val = none → p.absent = 0
  | .write _ => p.write = 0
  | .sync => p.sync = 0
  | _ => True

/-- The store and the contract's mapping agree but for the key that Sync may put. -/
structure Agree (w : KvWrapper) (db : w.Store) (m : Mapping) : Prop where
  records : ∀ k, k ≠ syncKey → w.contents db k = m k
  unmarked : m syncKey = none

section Follows
variable {w : KvWrapper} {p : Profile}

/-- One request keeps the agreement, and is answered as the contract says exactly if the
profile does so. -/
theorem KvWrapper.Follows.step (hw : w.Follows p) {db : w.Store} {m : Mapping} (ha : Agree w db m) (op : KvOp) :
    Agree w (w.step db op).1 (contract m op).1 ∧ ((w.step db op).2 = (contract m op).2 ↔ p.Answers m op) := by
  cases op with
  | put key value =>
    obtain ⟨hc, hr⟩ := hw.put db key value
    refine ⟨⟨fun k hk => ?_, ?_⟩, by simp [KvWrapper.step, contract, hr, Profile.Answers]⟩
    · simp only [KvWrapper.step, contract, hc]
      exact apply_congr ha.records _ k hk
    · exact (apply_syncKey m (.put key value)).trans ha.unmarked
  | get key result =>
    have hm := ha.records key.val (key_ne_syncKey key)
    refine ⟨ha, ?_⟩
    cases hv : m key.val with
    | some value => simp [KvWrapper.step, contract, hv, hw.found db key result value (hm.trans hv), Profile.Answers]
    | none =>
      have hcode := hw.absent db key result (hm.trans hv)
      simp [KvWrapper.step, contract, hv, hcode, hw.negative, Profile.Answers]
  | delete key =>
    obtain ⟨hc, hr⟩ := hw.delete db key
    refine ⟨⟨fun k hk => ?_, ?_⟩, by simp [KvWrapper.step, contract, hr, Profile.Answers]⟩
    · simp only [KvWrapper.step, contract, hc]
      exact apply_congr ha.records _ k hk
    · exact (apply_syncKey m (.delete key)).trans ha.unmarked
  | write batch =>
    obtain ⟨hc, hr⟩ := hw.write db batch
    refine ⟨⟨fun k hk => ?_, ?_⟩, by simp [KvWrapper.step, contract, hr, Profile.Answers]⟩
    · simp only [KvWrapper.step, contract, hc]
      exact foldl_apply_congr ha.records batch k hk
    · exact (foldl_apply_syncKey batch m).trans ha.unmarked
  | sync =>
    obtain ⟨hc, hr⟩ := hw.sync db
    refine ⟨⟨fun k hk => ?_, ha.unmarked⟩, by simp [KvWrapper.step, contract, hr, Profile.Answers]⟩
    simp only [KvWrapper.step, contract, hc]
    split
    · rw [Function.update_of_ne hk, ha.records k hk]
    · exact ha.records k hk

private theorem KvWrapper.Follows.agree_empty (hw : w.Follows p) : Agree w w.empty (fun _ => none) :=
  ⟨fun k _ => congrFun hw.empty k, rfl⟩

private theorem KvWrapper.Follows.step_syncKey (hw : w.Follows p) (db : w.Store) (op : KvOp) :
    w.contents (w.step db op).1 syncKey =
      if op = .sync ∧ p.marks then some [] else w.contents db syncKey := by
  cases op with
  | put key value => simp only [KvWrapper.step, (hw.put db key value).1, apply_syncKey, reduceCtorEq, false_and, if_false]
  | get key result => simp [KvWrapper.step]
  | delete key => simp only [KvWrapper.step, (hw.delete db key).1, apply_syncKey, reduceCtorEq, false_and, if_false]
  | write batch =>
    simp only [KvWrapper.step, (hw.write db batch).1, foldl_apply_syncKey, reduceCtorEq, false_and, if_false]
  | sync =>
    simp only [KvWrapper.step, (hw.sync db).1, true_and]
    split
    · exact Function.update_self ..
    · rfl

private theorem KvWrapper.Follows.run_syncKey (hw : w.Follows p) (db : w.Store) (ops : List KvOp) :
    w.contents (run w.step db ops).1 syncKey =
      if .sync ∈ ops ∧ p.marks then some [] else w.contents db syncKey := by
  induction ops generalizing db with
  | nil => simp [run]
  | cons op ops ih =>
    have hop : KvOp.sync = op ↔ op = .sync := eq_comm
    simp only [run, ih, hw.step_syncKey, List.mem_cons, hop]
    by_cases hmem : .sync ∈ ops
    · cases p.marks <;> simp [hmem]
    · simp [hmem]

/-- A wrapper gives the contract's answers and ends with the contract's mapping exactly if it
answers each request as the contract does and no Sync puts its key. -/
private theorem KvWrapper.Follows.conforms_iff (hw : w.Follows p) (ops : List KvOp) :
    ((run w.step w.empty ops).2 = (run contract (fun _ => none) ops).2 ∧
      w.contents (run w.step w.empty ops).1 = (run contract (fun _ => none) ops).1) ↔
    Allowed contract (fun m op => p.Answers m op ∧ (op = .sync → p.marks = false)) (fun _ => none) ops := by
  obtain ⟨hagree, hanswers⟩ := run_outputs_iff (Agree w) p.Answers (fun _ _ op ha => hw.step ha op)
    hw.agree_empty ops
  have hmark := hw.run_syncKey w.empty ops
  rw [hw.empty] at hmark
  -- the mappings can differ under the key of Sync only
  have hmap : w.contents (run w.step w.empty ops).1 = (run contract (fun _ => none) ops).1 ↔
      ∀ op ∈ ops, op = .sync → p.marks = false := by
    constructor
    · intro heq op hop hsync
      subst hsync
      rw [heq, hagree.unmarked] at hmark
      simpa [hop] using hmark
    · intro hnone
      funext k
      by_cases hk : k = syncKey
      · subst hk
        rw [hmark, hagree.unmarked, if_neg]
        rintro ⟨hmem, hmarks⟩
        simp [hnone _ hmem rfl] at hmarks
      · exact hagree.records k hk
  have hquiet : Allowed contract (fun _ op => op = .sync → p.marks = false) (fun _ => none) ops ↔
      ∀ op ∈ ops, op = .sync → p.marks = false := allowed_iff_forall_mem _ _ ops
  rw [hanswers, hmap, ← hquiet]
  exact ⟨fun h => h.1.and h.2, fun h => ⟨h.mono fun _ _ h => h.1, h.mono fun _ _ h => h.2⟩⟩

end Follows

private theorem get_of_some {κ : Type} [DecidableEq κ] {db : ExactMap κ} {key : κ} {value : Bytes}
    (h : db.lookup key = some value) (result : Bytes) : ExactMap.get db key result = (.ok, value) := by
  rw [ExactMap.get, h]

private theorem get_of_none {κ : Type} [DecidableEq κ] {db : ExactMap κ} {key : κ} (h : db.lookup key = none)
    (result : Bytes) : ExactMap.get db key result = (.notFound, result) := by
  rw [ExactMap.get, h]

/-! The stores hold the mapping under split keys: whole for most of them, in halves for MetaKV. -/
section Split
variable {κ : Type} [DecidableEq κ] {split : Bytes → κ} (hinj : Function.Injective split) {encode : Key → κ}
  (henc : ∀ key, encode key = split key.val)
include hinj henc

private theorem lookup_put (db : ExactMap κ) (key : Key) (value : Bytes) :
    (fun k => (ExactMap.put db (encode key) value).1.lookup (split k)) =
      Update.apply (fun k => db.lookup (split k)) (.put key value) := by
  funext k
  simp only [ExactMap.put, Update.apply, Function.update_apply, henc]
  split_ifs with hk
  · rw [hk, Finmap.lookup_insert]
  · rw [Finmap.lookup_insert_of_ne _ fun h => hk (hinj h)]

private theorem lookup_delete (db : ExactMap κ) (key : Key) :
    (fun k => (ExactMap.delete db (encode key)).1.lookup (split k)) =
      Update.apply (fun k => db.lookup (split k)) (.delete key) := by
  funext k
  simp only [ExactMap.delete, Update.apply, Function.update_apply, henc]
  split_ifs with hk
  · rw [hk, Finmap.lookup_erase]
  · rw [Finmap.lookup_erase_ne fun h => hk (hinj h)]

private theorem lookup_iterate (batch : List Update) (db : ExactMap κ) :
    (fun k => (ExactMap.iterate encode batch db).lookup (split k)) =
      batch.foldl Update.apply (fun k => db.lookup (split k)) := by
  induction batch generalizing db with
  | nil => rfl
  | cons u us ih =>
    cases u with
    | put key value => rw [List.foldl_cons, ← lookup_put hinj henc db key value, ← ih]; rfl
    | delete key => rw [List.foldl_cons, ← lookup_delete hinj henc db key, ← ih]; rfl

end Split

private theorem split_injective : Function.Injective fun key : Bytes => (key.take 8, key.drop 8) := by
  intro a b h
  rw [← List.take_append_drop 8 a, ← List.take_append_drop 8 b, (Prod.mk.inj h).1, (Prod.mk.inj h).2]

private theorem tfsKey_eq (key : Key) : tfsKey key = (key.val.take 8, key.val.drop 8) := by
  have hlen : (key.val.drop 8).length ≤ 8 := by simp [key.property]
  rw [tfsKey, List.take_of_length_le hlen]

private theorem hikv_write_eq (batch : List Update) (db : ExactMap Bytes) :
    (HikvWrapper.write db batch).1 = ExactMap.iterate Subtype.val batch db := by
  unfold HikvWrapper hikvInserter ExactMap.iterate
  dsimp only
  rw [List.foldl_map]
  congr 1
  funext db u
  cases u <;> rfl

private theorem lookup_put_syncKey (db : ExactMap Bytes) :
    (fun k => (ExactMap.put db syncKey []).1.lookup k) = Function.update (fun k => db.lookup k) syncKey (some []) := by
  funext k
  rw [Function.update_apply]
  split_ifs with hk
  · rw [hk]
    exact Finmap.lookup_insert db
  · exact Finmap.lookup_insert_of_ne db hk

def Backend.profile : Backend → Profile
  | .leveldb => ⟨-1, 0, 0, true⟩
  | .rocksdb => ⟨0, 0, 0, true⟩
  | .metakv | .hikv => ⟨0, 1, 1, false⟩
  | .utree | .roart | .tlhash => ⟨0, 0, 0, false⟩

private theorem booleanWrapper_follows : booleanWrapper.Follows ⟨0, 0, 0, false⟩ where
  empty := rfl
  put db key value := ⟨lookup_put Function.injective_id (fun _ => rfl) db key value, rfl⟩
  delete db key := ⟨lookup_delete Function.injective_id (fun _ => rfl) db key, rfl⟩
  write db batch := ⟨lookup_iterate Function.injective_id (fun _ => rfl) batch db, rfl⟩
  sync db := ⟨rfl, rfl⟩
  found _ _ result _ h := congrArg booleanGet (get_of_some h result)
  absent _ _ result h := congrArg (fun r => (booleanGet r).1) (get_of_none h result)
  negative := by decide

private theorem tlhashPut_eq (db : ExactMap Bytes) (key : Key) (value : Bytes) :
    tlhashPut db key value = booleanWrapper.put db key value := by
  have hget : ExactMap.get (ExactMap.put db key.val value).1 key.val [] = (.ok, value) :=
    get_of_some (Finmap.lookup_insert db) []
  simp only [tlhashPut, hget, if_true]
  rfl

private theorem tlhashWrapper_follows : TlhashWrapper.Follows ⟨0, 0, 0, false⟩ := by
  have hput : tlhashPut = booleanWrapper.put := funext fun db => funext fun key => funext fun value =>
    tlhashPut_eq db key value
  unfold TlhashWrapper
  rw [hput]
  exact booleanWrapper_follows

private theorem leveldbWrapper_follows : LeveldbWrapper.Follows ⟨-1, 0, 0, true⟩ where
  empty := rfl
  put db key value := ⟨lookup_put Function.injective_id (fun _ => rfl) db key value, rfl⟩
  delete db key := ⟨lookup_delete Function.injective_id (fun _ => rfl) db key, rfl⟩
  write db batch := ⟨lookup_iterate Function.injective_id (fun _ => rfl) batch db, rfl⟩
  sync db := ⟨lookup_put_syncKey db, rfl⟩
  found _ _ result _ h := congrArg leveldbGet (get_of_some h result)
  absent _ _ result h := congrArg (fun r => (leveldbGet r).1) (get_of_none h result)
  negative := by decide

private theorem rocksdbWrapper_follows : RocksdbWrapper.Follows ⟨0, 0, 0, true⟩ where
  empty := rfl
  put db key value := ⟨lookup_put Function.injective_id (fun _ => rfl) db key value, rfl⟩
  delete db key := ⟨lookup_delete Function.injective_id (fun _ => rfl) db key, rfl⟩
  write db batch := ⟨lookup_iterate Function.injective_id (fun _ => rfl) batch db, rfl⟩
  sync db := ⟨lookup_put_syncKey db, rfl⟩
  found _ _ result _ h := congrArg rocksdbGet (get_of_some h result)
  absent _ _ result h := congrArg (fun r => (rocksdbGet r).1) (get_of_none h result)
  negative := by decide

private theorem metaKVWrapper_follows : MetaKVWrapper.Follows ⟨0, 1, 1, false⟩ where
  empty := rfl
  put db key value := ⟨lookup_put split_injective tfsKey_eq db key value, rfl⟩
  delete db key := ⟨lookup_delete split_injective tfsKey_eq db key, rfl⟩
  write db batch := ⟨lookup_iterate split_injective tfsKey_eq batch db, rfl⟩
  sync db := ⟨rfl, rfl⟩
  found db key _ _ h := congrArg metaKVGet (get_of_some (tfsKey_eq key ▸ h) [])
  absent db key _ h := congrArg (fun r => (metaKVGet r).1) (get_of_none (tfsKey_eq key ▸ h) [])
  negative := by decide

private theorem hikvWrapper_follows : HikvWrapper.Follows ⟨0, 1, 1, false⟩ where
  empty := rfl
  put db key value := ⟨lookup_put Function.injective_id (fun _ => rfl) db key value, rfl⟩
  delete db key := ⟨lookup_delete Function.injective_id (fun _ => rfl) db key, rfl⟩
  write db batch := ⟨(congrArg HikvWrapper.contents (hikv_write_eq batch db)).trans
    (lookup_iterate Function.injective_id (fun _ => rfl) batch db), rfl⟩
  sync db := ⟨rfl, rfl⟩
  found _ _ result _ h := congrArg hikvGet (get_of_some h result)
  absent _ _ result h := congrArg (fun r => (hikvGet r).1) (get_of_none h result)
  negative := by decide

theorem Backend.follows (b : Backend) : b.wrapper.Follows b.profile := by
  cases b with
  | leveldb => exact leveldbWrapper_follows
  | rocksdb => exact rocksdbWrapper_follows
  | metakv => exact metaKVWrapper_follows
  | hikv => exact hikvWrapper_follows
  | utree => exact booleanWrapper_follows
  | roart => exact booleanWrapper_follows
  | tlhash => exact tlhashWrapper_follows

/-- Whatever the requests, every wrapper holds the contract's records under sixteen-byte keys. -/
theorem Backend.records_agree (b : Backend) (ops : List KvOp) (key : Key) :
    b.wrapper.contents (run b.wrapper.step b.wrapper.empty ops).1 key.val =
      (run contract (fun _ => none) ops).1 key.val :=
  (run_outputs_iff (Agree b.wrapper) b.profile.Answers (fun _ _ op ha => b.follows.step ha op)
    b.follows.agree_empty ops).1.records key.val (key_ne_syncKey key)

/-- The requests a wrapper serves as the contract says: LevelDB no Sync and no Get of an absent
key, RocksDB no Sync, MetaKV and HiKV no Write and no Sync. -/
def Backend.Honours : Backend → Mapping → KvOp → Prop
  | .leveldb, m, .get key _ => m key.val ≠ none
  | .leveldb, _, .sync => False
  | .rocksdb, _, .sync => False
  | .metakv, _, .write _ => False
  | .metakv, _, .sync => False
  | .hikv, _, .write _ => False
  | .hikv, _, .sync => False
  | _, _, _ => True

/-- A wrapper gives the contract's answers and ends with the contract's mapping exactly if it
is asked only what it serves as the contract says. -/
theorem wrapper_conforms_iff (b : Backend) (ops : List KvOp) :
    ((run b.wrapper.step b.wrapper.empty ops).2 = (run contract (fun _ => none) ops).2 ∧
      b.wrapper.contents (run b.wrapper.step b.wrapper.empty ops).1 = (run contract (fun _ => none) ops).1) ↔
    Allowed contract b.Honours (fun _ => none) ops := by
  have hsame (m : Mapping) (op : KvOp) :
      b.profile.Answers m op ∧ (op = .sync → b.profile.marks = false) ↔ b.Honours m op := by
    cases b <;> cases op <;> simp [Backend.profile, Profile.Answers, Backend.Honours]
  rw [b.follows.conforms_iff]
  exact ⟨fun h => h.mono fun m op => (hsame m op).mp, fun h => h.mono fun m op => (hsame m op).mpr⟩

/-- Sync of LevelDB and RocksDB leaves a key, LevelDB reports an absent key as an error, and
MetaKV and HiKV return 1 for an empty batch and for Sync. -/
theorem wrapper_contract_broken :
    let key : Key := ⟨List.replicate 16 0, by decide⟩
    let answers (b : Backend) (ops : List KvOp) := (run b.wrapper.step b.wrapper.empty ops).2
    (∀ b ∈ [Backend.leveldb, .rocksdb],
      b.wrapper.contents (run b.wrapper.step b.wrapper.empty [.sync]).1 syncKey = some []) ∧
      (run contract (fun _ => none) [.sync]).1 syncKey = none ∧
      answers .leveldb [.get key []] = [{ ret := -1 }] ∧
      (∀ b ∈ [Backend.metakv, .hikv], answers b [.write [], .sync] = [{ ret := 1 }, { ret := 1 }]) ∧
      (run contract (fun _ => none) [.get key [], .write [], .sync]).2 =
        [{ ret := 0 }, { ret := 0 }, { ret := 0 }] := by
  decide +kernel

end TableFS.Kv
