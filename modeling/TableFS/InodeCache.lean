import TableFS.Inode
import TableFS.Lib.PinnedLru

/-! The inode cache over the metadata store (fs/icache.cpp). A handle in the cache is a
copy of a record with an access mode; what becomes of the copy is decided by the mode when
the copy is written back or freed. -/
namespace TableFS
open PinnedLru LRUCache

inductive InodeAccessMode where
  | read
  | delete
  | write
  deriving DecidableEq, Repr

abbrev MetaDB := Finmap (fun _ : MetaKey => Value)

/-- The key of a handle is the key its cache entry is stored under. -/
structure InodeCacheHandle where
  value_ : Value
  mode_ : InodeAccessMode
  deriving DecidableEq, Repr

/-- Raise the mode of a handle found in the cache; reading leaves it alone. -/
def InodeCacheHandle.access (h : InodeCacheHandle) : InodeAccessMode → InodeCacheHandle
  | .read => h
  | mode => { h with mode_ := mode }

def cleanInodeHandle (key : MetaKey) (handle : InodeCacheHandle) (metadb : MetaDB) : MetaDB :=
  match handle.mode_ with
  | .write => metadb.insert key handle.value_
  | .delete => metadb.erase key
  | .read => metadb

inductive BatchOp where
  | put (key : MetaKey) (value : Value)
  | delete (key : MetaKey)

def BatchOp.apply (metadb : MetaDB) : BatchOp → MetaDB
  | .put key value => metadb.insert key value
  | .delete key => metadb.erase key

structure InodeCache where
  cache : LRUCache MetaKey InodeCacheHandle
  metadb : MetaDB

namespace InodeCache

/-- The handle behind a pointer, with its key. -/
def handle (ic : InodeCache) (i : Nat) : Option (MetaKey × InodeCacheHandle) := ic.cache.data i

/-- The handle the cache would find under a key. -/
def table (ic : InodeCache) (key : MetaKey) : Option Nat := ic.cache.table.lookup key

def insert (ic : InodeCache) (key : MetaKey) (value : Value) : InodeCache × Nat :=
  let r := ic.cache.insert cleanInodeHandle key ⟨value, .write⟩ ic.metadb
  (⟨r.1, r.2.1⟩, r.2.2)

def get (ic : InodeCache) (key : MetaKey) (mode : InodeAccessMode) : InodeCache × Option Nat :=
  match ic.cache.lookup key with
  | (_, none) =>
    match ic.metadb.lookup key with
    | none => (ic, none)
    | some value =>
      let r := ic.cache.insert cleanInodeHandle key ⟨value, mode⟩ ic.metadb
      (⟨r.1, r.2.1⟩, some r.2.2)
  | (c, some i) => ({ ic with cache := c.update i (·.access mode) }, some i)

def release (ic : InodeCache) (i : Nat) : InodeCache :=
  let r := ic.cache.unref cleanInodeHandle i ic.metadb
  ⟨r.1, r.2⟩

def evict (ic : InodeCache) (key : MetaKey) : InodeCache :=
  let r := ic.cache.erase cleanInodeHandle key ic.metadb
  ⟨r.1, r.2⟩

/-- Change the handle behind a pointer in place. -/
def update (ic : InodeCache) (i : Nat) (f : InodeCacheHandle → InodeCacheHandle) : InodeCache :=
  { ic with cache := ic.cache.update i f }

def put (ic : InodeCache) (key : MetaKey) (value : Value) : InodeCache :=
  { ic with metadb := ic.metadb.insert key value }

/-- The mode WriteBack leaves. -/
def settled : InodeAccessMode → InodeAccessMode
  | .write => .read
  | mode => mode

def writeBack (ic : InodeCache) (i : Nat) : InodeCache :=
  match ic.handle i with
  | none => ic
  | some (key, h) =>
    match h.mode_ with
    | .write => (ic.put key h.value_).update i (fun h => { h with mode_ := .read })
    | .delete => { ic with metadb := ic.metadb.erase key }.evict key
    | .read => ic

/-- The part of a batch one handle contributes; a deleted one leaves the cache at once. -/
def stage (ic : InodeCache) (i : Nat) : InodeCache × List BatchOp :=
  match ic.handle i with
  | none => (ic, [])
  | some (key, h) =>
    match h.mode_ with
    | .write => (ic.update i (fun h => { h with mode_ := .read }), [.put key h.value_])
    | .delete => (ic.evict key, [.delete key])
    | .read => (ic, [])

/-- The result of the store's Write is dropped; `ok` tells whether the batch was applied. -/
def batchCommit (ic : InodeCache) (handle1 handle2 : Nat) (ok : Bool) : InodeCache :=
  let r1 := ic.stage handle1
  let r2 := r1.1.stage handle2
  if ok then { r2.1 with metadb := (r1.2 ++ r2.2).foldl BatchOp.apply r2.1.metadb } else r2.1

@[simp] theorem metadb_update (ic : InodeCache) (i : Nat) (f : InodeCacheHandle → InodeCacheHandle) :
    (ic.update i f).metadb = ic.metadb := rfl

private theorem handle_update (ic : InodeCache) (i j : Nat) (f : InodeCacheHandle → InodeCacheHandle) :
    (ic.update i f).handle j = (ic.handle j).map (fun p => if i = j then (p.1, f p.2) else p) :=
  data_update i j f ic.cache

/-- A position holds one handle, on one key. -/
theorem handle_inj {ic : InodeCache} {i : Nat} {k k' : MetaKey} {h h' : InodeCacheHandle}
    (hh : ic.handle i = some (k, h)) (hh' : ic.handle i = some (k', h')) : k = k' ∧ h = h' := by
  rw [hh] at hh'
  exact Prod.mk.inj (Option.some.inj hh')

theorem handle_update_self {ic : InodeCache} {i : Nat} {k : MetaKey} {h : InodeCacheHandle}
    (hd : ic.handle i = some (k, h)) (f : InodeCacheHandle → InodeCacheHandle) :
    (ic.update i f).handle i = some (k, f h) := by simp [handle_update, hd]

theorem handle_update_ne (ic : InodeCache) {i j : Nat} (hj : j ≠ i)
    (f : InodeCacheHandle → InodeCacheHandle) : (ic.update i f).handle j = ic.handle j := by
  simp [handle_update, Ne.symm hj]

@[simp] theorem metadb_put (ic : InodeCache) (k : MetaKey) (v : Value) :
    (ic.put k v).metadb = ic.metadb.insert k v := rfl

end InodeCache
end TableFS
