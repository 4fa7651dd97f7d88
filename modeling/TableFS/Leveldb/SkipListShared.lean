import TableFS.Lib.Runs
import TableFS.Leveldb.SkipListInsert

/-! A skip list with one writer and any number of readers, which take no locks. Every step is one access
to memory that both use, and all threads see these accesses in one order. The barriers of the source, which
are there to have it so for a node and its contents, are not modelled. -/
namespace TableFS.Leveldb.SkipList
variable {κ : Type}

/-- What a reader calls: Contains, and the methods of its iterator. -/
inductive Op (κ : Type) where
  | contains (key : κ)
  | seek (target : κ)
  | seekToFirst
  | seekToLast
  | next
  | prev

/-- What it gets: whether the key is there, or the key that the iterator is at. -/
inductive Answer (κ : Type) where
  | found (b : Bool)
  | moved (key : Option κ)
  deriving DecidableEq

/-- An Insert in its loop. The node's own pointer at the level is set, or not yet. -/
structure Writer (κ : Type) where
  key : κ
  x : Nat
  height : Nat
  prev : Nat → Option Nat
  i : Nat
  ready : Bool

/-- An iterator, the call that it is in, and how often that call has read a pointer. -/
structure Reader (κ : Type) where
  node_ : Option Nat
  call : Option (Op κ × Place)
  reads : Nat

structure Shared (κ : Type) where
  list : SkipList κ
  writer : Option (Writer κ)
  readers : Nat → Reader κ

def Shared.start : Shared κ := ⟨new, none, fun _ => ⟨none, none, 0⟩⟩

/-- Whose step is next. -/
inductive Action (κ : Type) where
  | insert (key : κ)
  | write
  | call (r : Nat) (op : Op κ)
  | read (r : Nat)

/-- A key is in the list from the write that links it at the lowest level, and a call has its answer at its
last read. -/
inductive Event (κ : Type) where
  | inserted (key : κ)
  | answered (r : Nat) (op : Op κ) (a : Answer κ)

section
variable (compare_ : κ → κ → Ordering)

/-- The nodes that a call passes. Next and SeekToFirst only read one pointer. -/
def Op.pass (s : SkipList κ) (node_ : Option Nat) : Op κ → Option (κ → Bool)
  | .contains key => some (before compare_ key)
  | .seek target => some (before compare_ target)
  | .seekToFirst => some fun _ => false
  | .seekToLast => some fun _ => true
  | .next => some fun _ => false
  | .prev => do
    let node ← node_
    let key ← s.key node
    some (before compare_ key)

/-- Where a call reads first. A search reads the height of the list to know. -/
def Op.start (s : SkipList κ) (node_ : Option Nat) : Op κ → Option Place
  | .seekToFirst => some ⟨head_, 0⟩
  | .next => do
    let node ← node_
    some ⟨node, 0⟩
  | _ => some ⟨head_, s.max_height_ - 1⟩

/-- An iterator at a node, and the key that its client sees. -/
def moveTo (s : SkipList κ) : Option Nat → Option (Option Nat × Answer κ)
  | none => some (none, .moved none)
  | some n => do
    let key ← s.key n
    some (some n, .moved (some key))

/-- What a call does with the node where its search ends and the pointer that it read there. -/
def Op.finish (s : SkipList κ) (node_ : Option Nat) (x : Nat) (next : Option Nat) :
    Op κ → Option (Option Nat × Answer κ)
  | .contains key =>
    match next with
    | none => some (node_, .found false)
    | some n => do
      let k ← s.key n
      some (node_, .found (compare_ key k == .eq))
  | .seek _ => s.moveTo next
  | .seekToFirst => s.moveTo next
  | .next => s.moveTo next
  | .seekToLast => s.moveTo (if x = head_ then none else some x)
  | .prev => s.moveTo (if x = head_ then none else some x)

/-- A read of a pointer by a call, which is over if it leaves the lowest level. -/
def Reader.read (s : SkipList κ) (rd : Reader κ) : Option (Reader κ × Option (Op κ × Answer κ)) := do
  let (op, p) ← rd.call
  let pass ← op.pass compare_ s rd.node_
  match ← s.look pass p with
  | .right n => some (⟨rd.node_, some (op, ⟨n, p.level⟩), rd.reads + 1⟩, none)
  | .down next =>
    if p.level = 0 then
      let (node_, a) ← op.finish compare_ s rd.node_ p.x next
      some (⟨node_, none, rd.reads + 1⟩, some (op, a))
    else some (⟨rd.node_, some (op, ⟨p.x, p.level - 1⟩), rd.reads + 1⟩, none)

/-- What Insert does up to its loop has one effect that readers can see, the new height: its search reads
what no other thread writes, and the node is its own. -/
def Shared.step (s : Shared κ) : Action κ → Option (Shared κ × Option (Event κ))
  | .insert key => do
    let (list, x, height, prev) ← s.list.startInsert compare_ key
    some ({ s with list := list, writer := some ⟨key, x, height, prev, 0, false⟩ }, none)
  | .write => do
    let w ← s.writer
    if w.ready then
      let list ← s.list.publish w.x w.prev w.i
      let writer := if w.i + 1 < w.height then some { w with i := w.i + 1, ready := false } else none
      some ({ s with list := list, writer := writer }, if w.i = 0 then some (.inserted w.key) else none)
    else
      let list ← s.list.prepare w.x w.prev w.i
      some ({ s with list := list, writer := some { w with ready := true } }, none)
  | .call r op => do
    let p ← op.start s.list (s.readers r).node_
    some ({ s with readers := Function.update s.readers r { s.readers r with call := some (op, p), reads := 0 } }, none)
  | .read r => do
    let (rd, done) ← (s.readers r).read compare_ s.list
    some ({ s with readers := Function.update s.readers r rd }, done.map fun (op, a) => .answered r op a)

/-- What the list asks of its clients: one Insert at a time, of a key that is not there, and one call at a time
on an iterator, which is at a node if it is to go on from there. -/
def Shared.Permits (s : Shared κ) : Action κ → Prop
  | .insert key => s.writer.isNone ∧ ∀ node ∈ s.list.nodes, node.key.all fun k => compare_ k key != .eq
  | .write => s.writer.isSome
  | .call r .next => (s.readers r).call.isNone ∧ (s.readers r).node_.isSome
  | .call r .prev => (s.readers r).call.isNone ∧ (s.readers r).node_.isSome
  | .call r _ => (s.readers r).call.isNone
  | .read r => (s.readers r).call.isSome

instance (s : Shared κ) : ∀ a, Decidable (s.Permits compare_ a)
  | .insert _ => inferInstanceAs (Decidable (_ ∧ _))
  | .write => inferInstanceAs (Decidable (_ = true))
  | .call _ .next => inferInstanceAs (Decidable (_ ∧ _))
  | .call _ .prev => inferInstanceAs (Decidable (_ ∧ _))
  | .call _ (.contains _) => inferInstanceAs (Decidable (_ = true))
  | .call _ (.seek _) => inferInstanceAs (Decidable (_ = true))
  | .call _ .seekToFirst => inferInstanceAs (Decidable (_ = true))
  | .call _ .seekToLast => inferInstanceAs (Decidable (_ = true))
  | .read _ => inferInstanceAs (Decidable (_ = true))

/-- What the skip list is for: keys in order, and where the iterators are. -/
structure Sorted (κ : Type) where
  keys : List κ
  pos : Nat → Option κ

def Sorted.start : Sorted κ := ⟨[], fun _ => none⟩

def Sorted.answer (t : Sorted κ) (r : Nat) : Op κ → Answer κ
  | .contains key => .found (t.keys.any fun k => compare_ key k == .eq)
  | .seek target => .moved (t.keys.find? fun k => compare_ k target != .lt)
  | .seekToFirst => .moved t.keys.head?
  | .seekToLast => .moved t.keys.getLast?
  | .next => .moved ((t.pos r).bind fun p => t.keys.find? fun k => compare_ p k == .lt)
  | .prev => .moved ((t.pos r).bind fun p => (t.keys.filter fun k => compare_ k p == .lt).getLast?)

def Sorted.apply (t : Sorted κ) : Option (Event κ) → Sorted κ
  | none => t
  | some (.inserted key) => { t with keys := insertKey compare_ key t.keys }
  | some (.answered _ _ (.found _)) => t
  | some (.answered r _ (.moved key)) => { t with pos := Function.update t.pos r key }

/-- The answers are those of the keys that are there. -/
def Sorted.Explains (t : Sorted κ) : Option (Event κ) → Prop
  | some (.answered r op a) => a = t.answer compare_ r op
  | _ => True

end
end TableFS.Leveldb.SkipList
