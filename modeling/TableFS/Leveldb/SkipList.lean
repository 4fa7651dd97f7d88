import Mathlib.Algebra.GroupWithZero.Nat
import Mathlib.Logic.Function.Basic

/-! The skip list of leveldb's db/skiplist.h, pointer by pointer. Nodes are never freed, so a node is
its place among all that were allocated, the head first. A comparator is an ordering of keys, of which
the source only uses the sign. -/
namespace TableFS.Leveldb

/-- Park and Miller's generator. -/
structure Random where
  seed_ : Nat
  deriving DecidableEq, Repr

namespace Random

def new (s : Nat) : Random := ⟨s &&& 0x7fffffff⟩

def next (r : Random) : Random × Nat :=
  let M := 2147483647
  let A := 16807
  let product := r.seed_ * A
  let seed := ((product >>> 31) + (product &&& M)) % 2 ^ 32
  let seed := if M < seed then seed - M else seed
  (⟨seed⟩, seed)

end Random

/-- A node has as many pointers as it is high. They have no value until they are set, and the key of
the head is of no use. -/
structure Node (κ : Type) where
  key : Option κ
  next_ : List (Option (Option Nat))

structure SkipList (κ : Type) where
  nodes : List (Node κ)
  max_height_ : Nat
  rnd_ : Random

namespace SkipList
variable {κ : Type}

def kMaxHeight : Nat := 12

def head_ : Nat := 0

def new : SkipList κ := ⟨[⟨none, List.replicate kMaxHeight (some none)⟩], 1, .new 0xdeadbeef⟩

/-- Node::Next. There is no value if the node or its pointer is not there, or was not set. -/
def next (s : SkipList κ) (x n : Nat) : Option (Option Nat) := do
  let node ← s.nodes[x]?
  let cell ← node.next_[n]?
  cell

/-- Node::SetNext. -/
def setNext (s : SkipList κ) (x n : Nat) (y : Option Nat) : Option (SkipList κ) := do
  let node ← s.nodes[x]?
  if n < node.next_.length then
    some { s with nodes := s.nodes.set x { node with next_ := node.next_.set n (some y) } }
  else none

def key (s : SkipList κ) (x : Nat) : Option κ := do
  let node ← s.nodes[x]?
  node.key

def newNode (s : SkipList κ) (key : κ) (height : Nat) : SkipList κ × Nat :=
  ({ s with nodes := s.nodes ++ [⟨some key, List.replicate height none⟩] }, s.nodes.length)

/-- The loop of RandomHeight, of no more rounds than there are heights. -/
def randomHeightLoop : Nat → Random → Nat → Random × Nat
  | 0, rnd, height => (rnd, height)
  | n + 1, rnd, height =>
    if height < kMaxHeight then
      let (rnd, r) := rnd.next
      if r % 4 = 0 then randomHeightLoop n rnd (height + 1) else (rnd, height)
    else (rnd, height)

def randomHeight (rnd : Random) : Random × Nat := randomHeightLoop kMaxHeight rnd 1

/-- Where a search is. -/
structure Place where
  x : Nat
  level : Nat

/-- What a search does next: it goes to the next node, or it leaves the level, at this pointer. -/
inductive Move where
  | right (n : Nat)
  | down (next : Option Nat)

/-- One round of FindGreaterOrEqual, FindLessThan and FindLast, which differ in the nodes that they
pass. A null pointer is passed by none. -/
def look (pass : κ → Bool) (s : SkipList κ) (p : Place) : Option Move := do
  match ← s.next p.x p.level with
  | none => some (.down none)
  | some n =>
    let key ← s.key n
    some (if pass key then .right n else .down (some n))

/-- The loop of a search, with the array that it fills. -/
def searchLoop (pass : κ → Bool) (s : SkipList κ) :
    Nat → Place → (Nat → Option Nat) → Option (Nat × Option Nat × (Nat → Option Nat))
  | 0, _, _ => none
  | fuel + 1, p, prev => do
    match ← s.look pass p with
    | .right n => searchLoop pass s fuel ⟨n, p.level⟩ prev
    | .down next =>
      let prev := Function.update prev p.level (some p.x)
      if p.level = 0 then some (p.x, next, prev) else searchLoop pass s fuel ⟨p.x, p.level - 1⟩ prev

/-- A round goes to another node or to a lower level, so there are not more of them than both. -/
def search (pass : κ → Bool) (s : SkipList κ) : Option (Nat × Option Nat × (Nat → Option Nat)) :=
  s.searchLoop pass (s.nodes.length + s.max_height_) ⟨head_, s.max_height_ - 1⟩ fun _ => none

variable (compare_ : κ → κ → Ordering)

/-- The nodes that come before a key. -/
def before (key : κ) (k : κ) : Bool := compare_ k key == .lt

def findGreaterOrEqual (s : SkipList κ) (key : κ) : Option (Option Nat × (Nat → Option Nat)) := do
  let (_, next, prev) ← s.search (before compare_ key)
  some (next, prev)

def findLessThan (s : SkipList κ) (key : κ) : Option Nat := do
  let (x, _) ← s.search (before compare_ key)
  some x

def findLast (s : SkipList κ) : Option Nat := do
  let (x, _) ← s.search fun _ => true
  some x

/-- The levels above the list's height start at the head. -/
def raise (s : SkipList κ) (height : Nat) (prev : Nat → Option Nat) : SkipList κ × (Nat → Option Nat) :=
  if s.max_height_ < height then
    ({ s with max_height_ := height }, fun i => if s.max_height_ ≤ i ∧ i < height then some head_ else prev i)
  else (s, prev)

/-- The first half of a round of the loop of Insert. -/
def prepare (s : SkipList κ) (x : Nat) (prev : Nat → Option Nat) (i : Nat) : Option (SkipList κ) := do
  let p ← prev i
  let next ← s.next p i
  s.setNext x i next

/-- The second half, after which readers find the node at this level. -/
def publish (s : SkipList κ) (x : Nat) (prev : Nat → Option Nat) (i : Nat) : Option (SkipList κ) := do
  let p ← prev i
  s.setNext p i (some x)

/-- The loop of Insert from a level on. -/
def linkLoop (x : Nat) (prev : Nat → Option Nat) : Nat → Nat → SkipList κ → Option (SkipList κ)
  | 0, _, s => some s
  | n + 1, i, s => do
    let s ← s.prepare x prev i
    let s ← s.publish x prev i
    linkLoop x prev n (i + 1) s

/-- Insert up to its loop. -/
def startInsert (s : SkipList κ) (key : κ) : Option (SkipList κ × Nat × Nat × (Nat → Option Nat)) := do
  let (_, prev) ← s.findGreaterOrEqual compare_ key
  let (rnd, height) := randomHeight s.rnd_
  let (s, prev) := { s with rnd_ := rnd }.raise height prev
  let (s, x) := s.newNode key height
  some (s, x, height, prev)

def insert (s : SkipList κ) (key : κ) : Option (SkipList κ) := do
  let (s, x, height, prev) ← s.startInsert compare_ key
  linkLoop x prev height 0 s

def contains (s : SkipList κ) (key : κ) : Option Bool := do
  let (x, _) ← s.findGreaterOrEqual compare_ key
  match x with
  | none => some false
  | some x =>
    let k ← s.key x
    some (compare_ key k == .eq)

/-! An iterator is a pointer to a node, or null. -/

def seek (s : SkipList κ) (target : κ) : Option (Option Nat) := do
  let (x, _) ← s.findGreaterOrEqual compare_ target
  some x

def seekToFirst (s : SkipList κ) : Option (Option Nat) := s.next head_ 0

def seekToLast (s : SkipList κ) : Option (Option Nat) := do
  let x ← s.findLast
  some (if x = head_ then none else some x)

def iterNext (s : SkipList κ) (node : Nat) : Option (Option Nat) := s.next node 0

/-- There are no pointers to earlier nodes: the list is searched. -/
def iterPrev (s : SkipList κ) (node : Nat) : Option (Option Nat) := do
  let key ← s.key node
  let x ← s.findLessThan compare_ key
  some (if x = head_ then none else some x)

end SkipList
end TableFS.Leveldb
