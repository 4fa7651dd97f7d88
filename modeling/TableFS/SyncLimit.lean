import Mathlib.Algebra.GroupWithZero.Nat
import TableFS.KvWrappers
import TableFS.Properties

/-! When the LevelDB and RocksDB wrappers ask their store to sync a Put. Both have a p_ of their own
beside the one that SetProperties sets, and Init reads their own, so that the limits are always the
defaults: no size limit, and a sync every five seconds. RocksDB does not get to see it either. -/
namespace TableFS.Kv
open Runs

/-- The two p_ of a wrapper: that of KvWrapper, which is private to it, and its own. -/
structure Configured where
  base_p : Properties
  p_ : Properties

def Configured.new : Configured := ⟨.new, .new⟩

def Configured.setProperties (w : Configured) (p : Properties) : Configured := { w with base_p := p }

structure SyncState where
  sync_time_limit : Int
  sync_size_limit : Int
  last_sync_time : Int
  async_data_size : Int
  deriving DecidableEq, Repr

/-- The part of Init that is about syncing, the same in both wrappers. -/
def Configured.init (w : Configured) (now : Int) : SyncState where
  sync_time_limit := w.p_.getPropertyInt (ascii "leveldb.sync.time.limit") 5
  sync_size_limit := w.p_.getPropertyInt (ascii "leveldb.sync.size.limit") (-1)
  last_sync_time := now
  async_data_size := 0

/-- A Put, and what time(nullptr) returns during it. -/
structure PutCall where
  key : Bytes
  value : Bytes
  now : Int

def PutCall.size (c : PutCall) : Nat := c.key.length + c.value.length

namespace SyncState

/-- write_options.sync. The int counter is added to in size_t and converted back. -/
def writeOptions (s : SyncState) (c : PutCall) : SyncState × Bool :=
  if 0 < s.sync_size_limit then
    let size := cInt (s.async_data_size + c.size)
    if s.sync_size_limit < size then ({ s with async_data_size := 0 }, true)
    else ({ s with async_data_size := size }, false)
  else if 0 < s.sync_time_limit then
    if s.sync_time_limit < c.now - s.last_sync_time then ({ s with last_sync_time := c.now }, true)
    else (s, false)
  else (s, false)

/-- The state after a Put, and the sync option that the store is given. -/
def leveldbPut (s : SyncState) (c : PutCall) : SyncState × Bool := s.writeOptions c

/-- The options that were worked out stay behind: the store is given fresh ones. -/
def rocksdbPut (s : SyncState) (c : PutCall) : SyncState × Bool := ((s.writeOptions c).1, false)

/-- A Put, with the bytes handed to the store since the last one that was synced. -/
def meter (put : SyncState → PutCall → SyncState × Bool) (s : SyncState × Nat) (c : PutCall) :
    (SyncState × Nat) × Bool :=
  (((put s.1 c).1, if (put s.1 c).2 then 0 else s.2 + c.size), (put s.1 c).2)

/-- After each Put at most limit bytes are unsynced. -/
def Bounded (put : SyncState → PutCall → SyncState × Bool) (limit : Nat) (s : SyncState × Nat)
    (calls : List PutCall) : Prop :=
  Allowed (meter put) (fun s c => (meter put s c).1.2 ≤ limit) s calls

instance (put : SyncState → PutCall → SyncState × Bool) (limit : Nat) (s : SyncState × Nat) (calls : List PutCall) :
    Decidable (Bounded put limit s calls) := inferInstanceAs (Decidable (Allowed _ _ _ _))

/-- A timer: the time of its last sync and the bytes since; a Put syncs when the last sync is more
than limit seconds ago. -/
def timer (limit : Int) (t : Int × Nat) (c : PutCall) : (Int × Nat) × Bool :=
  if limit < c.now - t.1 then ((c.now, 0), true) else ((t.1, t.2 + c.size), false)

private theorem bounded_rocksdb_iff {limit : Nat} (s : SyncState) {u : Nat} (hu : u ≤ limit) (calls : List PutCall) :
    Bounded rocksdbPut limit (s, u) calls ↔ u + (calls.map PutCall.size).sum ≤ limit := by
  induction calls generalizing s u with
  | nil => exact iff_of_true trivial hu
  | cons c calls ih =>
    rw [List.map_cons, List.sum_cons, ← Nat.add_assoc]
    constructor
    · rintro ⟨hle, hrest⟩
      exact (ih _ hle).mp hrest
    · intro hsum
      have hle : u + c.size ≤ limit := (Nat.le_add_right _ _).trans hsum
      exact ⟨hle, (ih _ hle).mpr hsum⟩

private theorem bounded_leveldb_iff {limit : Nat} (s : SyncState) (hsize : s.sync_size_limit ≤ 0)
    (htime : 0 < s.sync_time_limit) (u : Nat) (calls : List PutCall) :
    Bounded leveldbPut limit (s, u) calls ↔
      Allowed (timer s.sync_time_limit) (fun t c => (timer s.sync_time_limit t c).1.2 ≤ limit)
        (s.last_sync_time, u) calls := by
  induction calls generalizing s u with
  | nil => exact Iff.rfl
  | cons c calls ih =>
    have hput : s.writeOptions c = if s.sync_time_limit < c.now - s.last_sync_time then
        ({ s with last_sync_time := c.now }, true) else (s, false) := by
      rw [writeOptions, if_neg (Int.not_lt.mpr hsize), if_pos htime]
    simp only [Bounded, Allowed] at ih ⊢
    by_cases hdue : s.sync_time_limit < c.now - s.last_sync_time
    · rw [if_pos hdue] at hput
      simp only [meter, leveldbPut, hput, timer, hdue, if_true]
      exact and_congr_right fun _ => ih { s with last_sync_time := c.now } hsize htime 0
    · rw [if_neg hdue] at hput
      simp only [meter, leveldbPut, hput, timer, hdue, if_false, Bool.false_eq_true]
      exact and_congr_right fun _ => ih s hsize htime (u + c.size)

/-- Whatever the properties given to SetProperties say, LevelDB's Puts keep to a limit exactly if
a timer of five seconds does, and RocksDB's exactly if all of them together do. -/
theorem sync_size_limit_met_iff (p : Properties) (now : Int) (limit : Nat) (calls : List PutCall) :
    (Bounded leveldbPut limit ((Configured.new.setProperties p).init now, 0) calls ↔
        Allowed (timer 5) (fun t c => (timer 5 t c).1.2 ≤ limit) (now, 0) calls) ∧
      (Bounded rocksdbPut limit ((Configured.new.setProperties p).init now, 0) calls ↔
        (calls.map PutCall.size).sum ≤ limit) := by
  have hrocksdb := bounded_rocksdb_iff ((Configured.new.setProperties p).init now) (Nat.zero_le limit) calls
  rw [Nat.zero_add] at hrocksdb
  exact ⟨bounded_leveldb_iff ((Configured.new.setProperties p).init now) (show (-1 : Int) ≤ 0 by decide)
    (show (0 : Int) < 5 by decide) 0 calls, hrocksdb⟩

/-- A limit of one byte: a Put of two within the first five seconds is not synced. -/
theorem sync_size_limit_missed :
    let p := Properties.new.setProperty (ascii "leveldb.sync.size.limit") (ascii "1")
    let s := (Configured.new.setProperties p).init 0
    p.getPropertyInt (ascii "leveldb.sync.size.limit") (-1) = 1 ∧
      ¬ Bounded leveldbPut 1 (s, 0) [⟨[7], [8], 0⟩] ∧ ¬ Bounded rocksdbPut 1 (s, 0) [⟨[7], [8], 0⟩] := by
  decide +kernel

end SyncState
end TableFS.Kv
