import Mathlib.Algebra.GroupWithZero.Nat
import Mathlib.Logic.Function.Basic
import TableFS.Hash

/-! The cache of leveldb's util/cache.cc, pointer by pointer: sixteen shards, each with a ring of
entries in the order of their last use and a hash table of chained buckets. Entries are allocated
by malloc and found at their addresses. A function gives none where the source would dereference a
pointer to no entry, fail an assertion or not come to an end. Sizes and charges are of type size_t,
references and the lengths of tables of type uint32_t, and wrap around as these do. -/
namespace TableFS.Leveldb

/-- A pointer in the ring of a shard: to the dummy head or to an allocated entry. -/
inductive Link where
  | lru
  | entry (a : Nat)
  deriving DecidableEq

structure LRUHandle (κ ν : Type) where
  value : ν
  next_hash : Option Nat
  next : Link
  prev : Link
  charge : Nat
  refs : Nat
  hash : UInt32
  key_data : κ

structure HandleTable where
  length_ : Nat
  elems_ : Nat
  list_ : List (Option Nat)
  deriving DecidableEq

/-- What belongs to one LRUCache of the source, but for its entries. The dummy head is its two
pointers. -/
structure Shard where
  capacity_ : Nat
  usage_ : Nat
  lru_next : Link
  lru_prev : Link
  table_ : HandleTable
  deriving DecidableEq

/-- One shard with the heap in which its entries are. -/
structure LRUCache (κ ν : Type) extends Shard where
  heap : Nat → Option (LRUHandle κ ν)

/-- The address of a pointer to an entry: in the array of buckets or in an entry. -/
inductive Slot where
  | bucket (i : Nat)
  | nextHash (a : Nat)
  deriving DecidableEq

variable {κ ν σ : Type} [DecidableEq κ]

/-- The key of an entry at an address. An entry that is its own successor is a temporary one, whose
value is a pointer to the key; there are none. -/
def LRUHandle.key (e : LRUHandle κ ν) (a : Nat) : Option κ := if e.next = .entry a then none else some e.key_data

namespace LRUCache

/-- Change an allocated entry in place. -/
def change (c : LRUCache κ ν) (a : Nat) (f : LRUHandle κ ν → LRUHandle κ ν) : Option (LRUCache κ ν) :=
  (c.heap a).map fun e => { c with heap := Function.update c.heap a (some (f e)) }

def setNext (c : LRUCache κ ν) : Link → Link → Option (LRUCache κ ν)
  | .lru, y => some { c with lru_next := y }
  | .entry a, y => c.change a fun e => { e with next := y }

def setPrev (c : LRUCache κ ν) : Link → Link → Option (LRUCache κ ν)
  | .lru, y => some { c with lru_prev := y }
  | .entry a, y => c.change a fun e => { e with prev := y }

def lruRemove (c : LRUCache κ ν) (a : Nat) : Option (LRUCache κ ν) := do
  let e ← c.heap a
  let c ← c.setPrev e.next e.prev
  let e ← c.heap a
  c.setNext e.prev e.next

/-- Make the entry the newest one, just before the head. -/
def lruAppend (c : LRUCache κ ν) (a : Nat) : Option (LRUCache κ ν) := do
  let c ← c.setNext (.entry a) .lru
  let c ← c.setPrev (.entry a) c.lru_prev
  let e ← c.heap a
  let c ← c.setNext e.prev (.entry a)
  let e ← c.heap a
  c.setPrev e.next (.entry a)

def load (c : LRUCache κ ν) : Slot → Option (Option Nat)
  | .bucket i => c.table_.list_[i]?
  | .nextHash a => (c.heap a).map fun e => e.next_hash

def store (c : LRUCache κ ν) : Slot → Option Nat → Option (LRUCache κ ν)
  | .bucket i, p =>
    if i < c.table_.list_.length then some { c with table_.list_ := c.table_.list_.set i p } else none
  | .nextHash a, p => c.change a fun e => { e with next_hash := p }

/-- The bucket of a hash in a table of the given length. -/
def bucketOf (hash : UInt32) (length : Nat) : Nat := hash.toNat &&& (length - 1)

/-- The loop of FindPointer, for at most so many rounds. -/
def findFrom (c : LRUCache κ ν) (key : κ) (hash : UInt32) : Nat → Slot → Option Slot
  | 0, _ => none
  | n + 1, ptr => do
    match ← c.load ptr with
    | none => some ptr
    | some a =>
      let e ← c.heap a
      let k ← e.key a
      if e.hash ≠ hash ∨ key ≠ k then c.findFrom key hash n (.nextHash a) else some ptr

/-- A chain has no more entries than the table. -/
def findPointer (c : LRUCache κ ν) (key : κ) (hash : UInt32) : Option Slot :=
  c.findFrom key hash (c.table_.elems_ + 1) (.bucket (bucketOf hash c.table_.length_))

/-- The loop that doubles the length, for at most so many rounds. -/
def newLength (elems : Nat) : Nat → Nat → Nat
  | 0, new_length => new_length
  | n + 1, new_length => if new_length < elems then newLength elems n (new_length * 2 % 2 ^ 32) else new_length

/-- Move a chain into the new buckets, entry by entry. -/
def moveChain (new_length : Nat) :
    Nat → Option Nat → LRUCache κ ν × List (Option Nat) × Nat → Option (LRUCache κ ν × List (Option Nat) × Nat)
  | _, none, r => some r
  | 0, some _, _ => none
  | n + 1, some a, (c, new_list, count) => do
    let e ← c.heap a
    let j := bucketOf e.hash new_length
    let p ← new_list[j]?
    let c ← c.change a fun e => { e with next_hash := p }
    moveChain new_length n e.next_hash (c, new_list.set j (some a), count + 1)

/-- Move the chains of the old buckets, from the given one on. -/
def moveChains (new_length elems : Nat) :
    List (Option Nat) → LRUCache κ ν × List (Option Nat) × Nat → Option (LRUCache κ ν × List (Option Nat) × Nat)
  | [], r => some r
  | p :: ps, r => do
    let r ← moveChain new_length elems p r
    moveChains new_length elems ps r

def resize (c : LRUCache κ ν) : Option (LRUCache κ ν) := do
  let new_length := newLength c.table_.elems_ c.table_.elems_ 4
  let (c, new_list, count) ←
    moveChains new_length c.table_.elems_ c.table_.list_ (c, List.replicate new_length none, 0)
  if c.table_.elems_ = count then some { c with table_ := ⟨new_length, c.table_.elems_, new_list⟩ } else none

def tableLookup (c : LRUCache κ ν) (key : κ) (hash : UInt32) : Option (Option Nat) := do
  let ptr ← c.findPointer key hash
  c.load ptr

/-- Gives the entry that was under the key. -/
def tableInsert (c : LRUCache κ ν) (a : Nat) : Option (LRUCache κ ν × Option Nat) := do
  let h ← c.heap a
  let key ← h.key a
  let ptr ← c.findPointer key h.hash
  match ← c.load ptr with
  | none =>
    let c ← c.change a fun h => { h with next_hash := none }
    let c ← c.store ptr (some a)
    let c := { c with table_.elems_ := (c.table_.elems_ + 1) % 2 ^ 32 }
    if c.table_.length_ < c.table_.elems_ then (c.resize).map fun c => (c, none) else some (c, none)
  | some old =>
    let o ← c.heap old
    let c ← c.change a fun h => { h with next_hash := o.next_hash }
    let c ← c.store ptr (some a)
    some (c, some old)

def tableRemove (c : LRUCache κ ν) (key : κ) (hash : UInt32) : Option (LRUCache κ ν × Option Nat) := do
  let ptr ← c.findPointer key hash
  match ← c.load ptr with
  | none => some (c, none)
  | some a =>
    let e ← c.heap a
    let c ← c.store ptr e.next_hash
    some ({ c with table_.elems_ := c.table_.elems_ - 1 }, some a)

/-- The last reference frees the entry. -/
def unref (deleter : κ → ν → σ → σ) (c : LRUCache κ ν) (a : Nat) (w : σ) : Option (LRUCache κ ν × σ) := do
  let e ← c.heap a
  if e.refs = 0 then none
  else if e.refs - 1 = 0 then do
    let key ← e.key a
    some ({ c with usage_ := (c.usage_ + 2 ^ 64 - e.charge) % 2 ^ 64, heap := Function.update c.heap a none },
      deleter key e.value w)
  else (c.change a fun e => { e with refs := e.refs - 1 }).map fun c => (c, w)

def lookup (c : LRUCache κ ν) (key : κ) (hash : UInt32) : Option (LRUCache κ ν × Option Nat) := do
  match ← c.tableLookup key hash with
  | none => some (c, none)
  | some a =>
    let c ← c.change a fun e => { e with refs := (e.refs + 1) % 2 ^ 32 }
    let c ← c.lruRemove a
    let c ← c.lruAppend a
    some (c, some a)

/-- The loop of Insert that drops the oldest entries, for at most so many rounds. -/
def evict (deleter : κ → ν → σ → σ) : Nat → LRUCache κ ν → σ → Option (LRUCache κ ν × σ)
  | 0, c, w => if c.capacity_ < c.usage_ ∧ c.lru_next ≠ .lru then none else some (c, w)
  | n + 1, c, w =>
    match c.lru_next with
    | .lru => some (c, w)
    | .entry old =>
      if c.capacity_ < c.usage_ then do
        let c ← c.lruRemove old
        let e ← c.heap old
        let key ← e.key old
        let (c, _) ← c.tableRemove key e.hash
        let (c, w) ← c.unref deleter old w
        evict deleter n c w
      else some (c, w)

/-- A new entry. Its pointers are set before they are read. -/
def newEntry (key : κ) (hash : UInt32) (value : ν) (charge : Nat) : LRUHandle κ ν where
  value := value
  next_hash := none
  next := .lru
  prev := .lru
  charge := charge
  refs := 2
  hash := hash
  key_data := key

/-- Insert up to its loop. The entry is at the address `a` that malloc gave. -/
def insertEntry (deleter : κ → ν → σ → σ) (c : LRUCache κ ν) (key : κ) (hash : UInt32) (value : ν) (charge a : Nat)
    (w : σ) :
    Option (LRUCache κ ν × σ) := do
  let c := { c with heap := Function.update c.heap a (some (newEntry key hash value charge)) }
  let c ← c.lruAppend a
  let c := { c with usage_ := (c.usage_ + charge) % 2 ^ 64 }
  let (c, old) ← c.tableInsert a
  match old with
  | none => some (c, w)
  | some old =>
    let c ← c.lruRemove old
    c.unref deleter old w

def insert (deleter : κ → ν → σ → σ) (c : LRUCache κ ν) (key : κ) (hash : UInt32) (value : ν) (charge a : Nat) (w : σ) :
    Option (LRUCache κ ν × σ) := do
  let (c, w) ← c.insertEntry deleter key hash value charge a w
  evict deleter c.table_.elems_ c w

def erase (deleter : κ → ν → σ → σ) (c : LRUCache κ ν) (key : κ) (hash : UInt32) (w : σ) :
    Option (LRUCache κ ν × σ) := do
  match ← c.tableRemove key hash with
  | (c, none) => some (c, w)
  | (c, some a) =>
    let c ← c.lruRemove a
    c.unref deleter a w

end LRUCache

def kNumShards : Nat := 16

/-- The top four bits. -/
def shardOfHash (hash : UInt32) : Nat := (hash >>> 28).toNat

/-- A table of no buckets is resized when it is made. -/
def HandleTable.new : HandleTable := ⟨4, 0, List.replicate 4 none⟩

def Shard.new (capacity : Nat) : Shard := ⟨capacity, 0, .lru, .lru, .new⟩

structure ShardedLRUCache (κ ν : Type) where
  heap : Nat → Option (LRUHandle κ ν)
  shard_ : Nat → Shard

namespace ShardedLRUCache

/-- The capacity of one shard. -/
def perShard (capacity : Nat) : Nat := (capacity + (kNumShards - 1)) % 2 ^ 64 / kNumShards

def new (capacity : Nat) : ShardedLRUCache κ ν := ⟨fun _ => none, fun _ => .new (perShard capacity)⟩

/-- A shard, with the heap. -/
def part (c : ShardedLRUCache κ ν) (s : Nat) : LRUCache κ ν := { c.shard_ s with heap := c.heap }

/-- Put a shard back. -/
def join (c : ShardedLRUCache κ ν) (s : Nat) (p : LRUCache κ ν) : ShardedLRUCache κ ν :=
  ⟨p.heap, Function.update c.shard_ s p.toShard⟩

/-- The caller's object behind the void pointer is changed. -/
def modify (c : ShardedLRUCache κ ν) (a : Nat) (f : ν → ν) : Option (ShardedLRUCache κ ν) :=
  (c.heap a).map fun e => { c with heap := Function.update c.heap a (some { e with value := f e.value }) }

section
variable (hashSlice : κ → UInt32) (deleter : κ → ν → σ → σ)

def insert (c : ShardedLRUCache κ ν) (key : κ) (value : ν) (charge a : Nat) (w : σ) :
    Option (ShardedLRUCache κ ν × σ) :=
  let hash := hashSlice key
  let s := shardOfHash hash
  ((c.part s).insert deleter key hash value charge a w).map fun r => (c.join s r.1, r.2)

def lookup (c : ShardedLRUCache κ ν) (key : κ) : Option (ShardedLRUCache κ ν × Option Nat) :=
  let hash := hashSlice key
  let s := shardOfHash hash
  ((c.part s).lookup key hash).map fun r => (c.join s r.1, r.2)

def release (c : ShardedLRUCache κ ν) (a : Nat) (w : σ) : Option (ShardedLRUCache κ ν × σ) := do
  let h ← c.heap a
  let s := shardOfHash h.hash
  ((c.part s).unref deleter a w).map fun r => (c.join s r.1, r.2)

def erase (c : ShardedLRUCache κ ν) (key : κ) (w : σ) : Option (ShardedLRUCache κ ν × σ) :=
  let hash := hashSlice key
  let s := shardOfHash hash
  ((c.part s).erase deleter key hash w).map fun r => (c.join s r.1, r.2)

end

end ShardedLRUCache
end TableFS.Leveldb
