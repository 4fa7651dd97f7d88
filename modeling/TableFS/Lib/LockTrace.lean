import Mathlib.Data.List.Basic

/-! Traces of lock calls on a table of locks. Several keys may share a lock of the table: a key
that is held bars every key of the same lock. -/
namespace LockTrace
variable {κ ι : Type} [DecidableEq κ] [DecidableEq ι]

inductive LockCall (κ : Type) where
  | readLock (key : κ)
  | writeLock (key : κ)
  | unlock (key : κ)
  deriving DecidableEq

/-- The keys held after a trace; `none` once a lock is taken that is already held, or a key is
given back that is not. -/
def held (lock : κ → ι) : List κ → List (LockCall κ) → Option (List κ)
  | ks, [] => some ks
  | ks, .readLock k :: cs | ks, .writeLock k :: cs => if lock k ∈ ks.map lock then none else held lock (k :: ks) cs
  | ks, .unlock k :: cs => if k ∈ ks then held lock (ks.erase k) cs else none

/-- Every key taken is given back once, before the end, and no lock is taken while it is held. -/
def Disciplined (lock : κ → ι) (cs : List (LockCall κ)) : Prop := held lock [] cs = some []

instance (lock : κ → ι) (cs : List (LockCall κ)) : Decidable (Disciplined lock cs) :=
  inferInstanceAs (Decidable (_ = _))

section
variable (lock : κ → ι)

theorem held_append (ks : List κ) (a b : List (LockCall κ)) :
    held lock ks (a ++ b) = (held lock ks a).bind fun ks => held lock ks b := by
  induction a generalizing ks with
  | nil => rfl
  | cons c a ih =>
    cases c with
    | readLock k | writeLock k | unlock k =>
      simp only [List.cons_append, held]
      split
      · first | exact ih _ | rfl
      · first | exact ih _ | rfl

theorem disciplined_nil : Disciplined lock [] := rfl

/-- What stands before is done with, so the rest decides. -/
theorem disciplined_append {a : List (LockCall κ)} (ha : Disciplined lock a) (b : List (LockCall κ)) :
    Disciplined lock (a ++ b) ↔ Disciplined lock b := by
  rw [Disciplined, held_append, ha]
  rfl

theorem disciplined_read (k : κ) : Disciplined lock [.readLock k, .unlock k] := by
  simp [Disciplined, held]

theorem disciplined_write (k : κ) : Disciplined lock [.writeLock k, .unlock k] := by
  simp [Disciplined, held]

theorem not_disciplined_left (k : κ) : ¬ Disciplined lock [.writeLock k] := by
  simp [Disciplined, held]

theorem disciplined_nested_iff (k l : κ) :
    Disciplined lock [.writeLock k, .writeLock l, .unlock l, .unlock k] ↔ lock k ≠ lock l := by
  by_cases h : lock k = lock l
  · simp [Disciplined, held, h]
  · have hkl : k ≠ l := fun hk => h (congrArg lock hk)
    simp [Disciplined, held, h, Ne.symm h]

end

/-- A result with the lock calls made on the way to it. -/
def Traced (κ α : Type) := α × List (LockCall κ)

end LockTrace

namespace LockTrace.Traced
variable {κ α β : Type}

instance : Monad (Traced κ) where
  pure a := (a, [])
  bind x f := ((f x.1).1, x.2 ++ (f x.1).2)

/-- A lock call. -/
def call (c : LockCall κ) : Traced κ Unit := ((), [c])

theorem fst_bind (x : Traced κ α) (f : α → Traced κ β) : (x >>= f).1 = (f x.1).1 := rfl

theorem snd_bind (x : Traced κ α) (f : α → Traced κ β) : (x >>= f).2 = x.2 ++ (f x.1).2 := rfl

end LockTrace.Traced
