import Mathlib.Data.List.Basic

/-! Runs of deterministic step functions with outputs, their invariants and simulations. -/
namespace Runs
variable {σ τ ι ο : Type}

def run (step : σ → ι → σ × ο) : σ → List ι → σ × List ο
  | s, [] => (s, [])
  | s, i :: is => ((run step (step s i).1 is).1, (step s i).2 :: (run step (step s i).1 is).2)

/-- Every step of the run is allowed in the state it is taken from. -/
def Allowed (step : σ → ι → σ × ο) (ok : σ → ι → Prop) : σ → List ι → Prop
  | _, [] => True
  | s, i :: is => ok s i ∧ Allowed step ok (step s i).1 is

instance (step : σ → ι → σ × ο) (ok : σ → ι → Prop) [∀ s i, Decidable (ok s i)] :
    ∀ s is, Decidable (Allowed step ok s is)
  | _, [] => isTrue trivial
  | s, i :: is => @instDecidableAnd _ _ (inferInstance : Decidable (ok s i))
      (instDecidableAllowed step ok (step s i).1 is)

variable {step : σ → ι → σ × ο} {ok : σ → ι → Prop}

theorem run_append (s : σ) (a b : List ι) :
    run step s (a ++ b) = ((run step (run step s a).1 b).1,
      (run step s a).2 ++ (run step (run step s a).1 b).2) := by
  induction a generalizing s with
  | nil => rfl
  | cons i is ih => simp [run, ih]

theorem allowed_append (s : σ) (a b : List ι) :
    Allowed step ok s (a ++ b) ↔ Allowed step ok s a ∧ Allowed step ok (run step s a).1 b := by
  induction a generalizing s with
  | nil => simp [Allowed, run]
  | cons i is ih => simp [Allowed, run, ih, and_assoc]

theorem allowed_of_forall (h : ∀ s i, ok s i) (s : σ) (is : List ι) : Allowed step ok s is := by
  induction is generalizing s with
  | nil => trivial
  | cons i is ih => exact ⟨h s i, ih _⟩

theorem Allowed.mono {ok' : σ → ι → Prop} (h : ∀ s i, ok s i → ok' s i) {s : σ} {is : List ι}
    (ha : Allowed step ok s is) : Allowed step ok' s is := by
  induction is generalizing s with
  | nil => trivial
  | cons i is ih => exact ⟨h s i ha.1, ih ha.2⟩

theorem Allowed.and {ok' : σ → ι → Prop} {s : σ} {is : List ι} (ha : Allowed step ok s is)
    (hb : Allowed step ok' s is) : Allowed step (fun s i => ok s i ∧ ok' s i) s is := by
  induction is generalizing s with
  | nil => trivial
  | cons i is ih => exact ⟨⟨ha.1, hb.1⟩, ih ha.2 hb.2⟩

/-- A run that is not allowed has a first step that is not. -/
theorem exists_of_not_allowed {s : σ} {is : List ι} (h : ¬ Allowed step ok s is) :
    ∃ pre i post, is = pre ++ i :: post ∧ Allowed step ok s pre ∧ ¬ ok (run step s pre).1 i := by
  induction is generalizing s with
  | nil => exact absurd trivial h
  | cons i is ih =>
    by_cases hi : ok s i
    · obtain ⟨pre, j, post, rfl, hpre, hj⟩ := ih fun hrest => h ⟨hi, hrest⟩
      exact ⟨i :: pre, j, post, rfl, ⟨hi, hpre⟩, hj⟩
    · exact ⟨[], i, is, rfl, trivial, hi⟩

/-- A block of inputs that leads from each state of a sequence to the next, taken n times. -/
theorem run_repeat (state : Nat → σ) {block : List ι}
    (h : ∀ n, Allowed step ok (state n) block ∧ (run step (state n) block).1 = state (n + 1)) (n : Nat) :
    Allowed step ok (state 0) (List.replicate n block).flatten ∧
      (run step (state 0) (List.replicate n block).flatten).1 = state n := by
  induction n with
  | zero => exact ⟨trivial, rfl⟩
  | succ n ih =>
    rw [List.replicate_succ', List.flatten_append, allowed_append, run_append, ih.2, List.flatten_singleton]
    exact ⟨⟨ih.1, (h n).1⟩, (h n).2⟩

/-- The last output of a run is that of its last part. -/
theorem getLast_run_append (s : σ) (a b : List ι) {o : ο}
    (h : (run step (run step s a).1 b).2.getLast? = some o) : (run step s (a ++ b)).2.getLast? = some o := by
  rw [run_append, List.getLast?_append, h]
  rfl

/-- What every allowed step preserves holds at the end of every allowed run. -/
theorem run_invariant (inv : σ → Prop) (h : ∀ s i, inv s → ok s i → inv (step s i).1)
    {s : σ} {is : List ι} (hs : inv s) (ha : Allowed step ok s is) : inv (run step s is).1 := by
  induction is generalizing s with
  | nil => exact hs
  | cons i is ih => exact ih (h s i hs ha.1) ha.2

/-- A simulation that holds step by step holds for whole runs, outputs included. -/
theorem run_simulates {ο' : Type} {step' : τ → ι → τ × ο'} (R : σ → τ → Prop) (view : ο → ο')
    (h : ∀ s t i, R s t → ok s i → view (step s i).2 = (step' t i).2 ∧ R (step s i).1 (step' t i).1)
    {s : σ} {t : τ} {is : List ι} (hr : R s t) (ha : Allowed step ok s is) :
    (run step s is).2.map view = (run step' t is).2 ∧ R (run step s is).1 (run step' t is).1 := by
  induction is generalizing s t with
  | nil => exact ⟨rfl, hr⟩
  | cons i is ih =>
    obtain ⟨ho, hs⟩ := h s t i hr ha.1
    obtain ⟨hos, hf⟩ := ih hs ha.2
    exact ⟨by simp only [run, List.map_cons, ho, hos], hf⟩

/-- A run of steps that may fail, until the first one that does. -/
def attempt (step : σ → ι → Option (σ × ο)) : σ → List ι → Option (σ × List ο)
  | s, [] => some (s, [])
  | s, i :: is => do
    let (s, o) ← step s i
    let (s, os) ← attempt step s is
    some (s, o :: os)

/-- Where every step succeeds like one of a machine that cannot fail, so does every run. -/
theorem attempt_simulates {step : σ → ι → Option (σ × ο)} {step' : τ → ι → τ × ο} {ok : τ → ι → Prop} (R : σ → τ → Prop)
    (h : ∀ s t i, R s t → ok t i → ∃ s', step s i = some (s', (step' t i).2) ∧ R s' (step' t i).1)
    {s : σ} {t : τ} {is : List ι} (hr : R s t) (ha : Allowed step' ok t is) :
    ∃ s', attempt step s is = some (s', (run step' t is).2) ∧ R s' (run step' t is).1 := by
  induction is generalizing s t with
  | nil => exact ⟨s, rfl, hr⟩
  | cons i is ih =>
    obtain ⟨s₁, hs₁, hr₁⟩ := h s t i hr ha.1
    obtain ⟨s', hs', hr'⟩ := ih hr₁ ha.2
    exact ⟨s', by simp [attempt, hs₁, hs', run], hr'⟩

/-- Every step of a run that may fail is allowed in the state it is taken from. -/
def Proper (step : σ → ι → Option (σ × ο)) (ok : σ → ι → Prop) : σ → List ι → Prop
  | _, [] => True
  | s, i :: is => ok s i ∧ match step s i with
    | none => True
    | some p => Proper step ok p.1 is

instance (step : σ → ι → Option (σ × ο)) (ok : σ → ι → Prop) [∀ s i, Decidable (ok s i)] :
    ∀ s is, Decidable (Proper step ok s is)
  | _, [] => isTrue trivial
  | s, i :: is => @instDecidableAnd _ _ (inferInstance : Decidable (ok s i)) (match step s i with
    | none => isTrue trivial
    | some p => instDecidableProper step ok p.1 is)

/-- The outputs of a run drive another machine, and each is good where it comes. -/
def Follows (next : τ → ο → τ) (good : τ → ο → Prop) : τ → List ο → Prop
  | _, [] => True
  | t, o :: os => good t o ∧ Follows next good (next t o) os

/-- Where no allowed step fails and each puts out what another machine can follow, so does every run. -/
theorem attempt_follows {step : σ → ι → Option (σ × ο)} {ok : σ → ι → Prop} {next : τ → ο → τ} {good : τ → ο → Prop}
    (R : σ → τ → Prop)
    (h : ∀ s t i, R s t → ok s i → ∃ s' o, step s i = some (s', o) ∧ good t o ∧ R s' (next t o))
    {s : σ} {t : τ} {is : List ι} (hr : R s t) (hp : Proper step ok s is) :
    ∃ s' os, attempt step s is = some (s', os) ∧ Follows next good t os ∧ R s' (os.foldl next t) := by
  induction is generalizing s t with
  | nil => exact ⟨s, [], rfl, trivial, hr⟩
  | cons i is ih =>
    obtain ⟨hi, hrest⟩ := hp
    obtain ⟨s₁, o, hs₁, ho, hr₁⟩ := h s t i hr hi
    rw [hs₁] at hrest
    obtain ⟨s', os, hs', hos, hr'⟩ := ih hr₁ hrest
    exact ⟨s', o :: os, by simp [attempt, hs₁, hs'], ⟨ho, hos⟩, hr'⟩

theorem allowed_iff_forall_mem (p : ι → Prop) (s : σ) (is : List ι) :
    Allowed step (fun _ i => p i) s is ↔ ∀ i ∈ is, p i := by
  induction is generalizing s with
  | nil => simp [Allowed]
  | cons i is ih => simp [Allowed, ih]

/-- Of two machines that stay related, the outputs of a run are the same exactly if they are
at each step. -/
theorem run_outputs_iff {step' : τ → ι → τ × ο} (R : σ → τ → Prop) (good : τ → ι → Prop)
    (h : ∀ s t i, R s t → R (step s i).1 (step' t i).1 ∧ ((step s i).2 = (step' t i).2 ↔ good t i))
    {s : σ} {t : τ} (hr : R s t) (is : List ι) :
    R (run step s is).1 (run step' t is).1 ∧
      ((run step s is).2 = (run step' t is).2 ↔ Allowed step' good t is) := by
  induction is generalizing s t with
  | nil => exact ⟨hr, by simp [run, Allowed]⟩
  | cons i is ih =>
    obtain ⟨hstep, hgood⟩ := h s t i hr
    obtain ⟨hrun, hrest⟩ := ih hstep
    exact ⟨hrun, by simp only [run, Allowed, List.cons.injEq, hgood, hrest]⟩

/-- Where an invariant makes two conditions the same, and the second keeps it, both allow the same runs. -/
theorem allowed_congr (inv : σ → Prop) {good : σ → ι → Prop} (h : ∀ s i, inv s → (ok s i ↔ good s i))
    (hkeep : ∀ s i, inv s → good s i → inv (step s i).1) {s : σ} (hs : inv s) (is : List ι) :
    Allowed step ok s is ↔ Allowed step good s is := by
  induction is generalizing s with
  | nil => exact Iff.rfl
  | cons i is ih =>
    constructor
    · rintro ⟨hi, hrest⟩
      have hi' := (h s i hs).mp hi
      exact ⟨hi', (ih (hkeep s i hs hi')).mp hrest⟩
    · rintro ⟨hi, hrest⟩
      exact ⟨(h s i hs).mpr hi, (ih (hkeep s i hs hi)).mpr hrest⟩

/-- What a step keeps exactly if it is a good one, holds along a run exactly if all its steps are. -/
theorem allowed_iff_of_step (inv : σ → Prop) (q good : σ → ι → Prop)
    (h : ∀ s i, inv s → (inv (step s i).1 ∧ q s i ↔ good s i)) {s : σ} (hs : inv s) (is : List ι) :
    Allowed step (fun s i => inv (step s i).1 ∧ q s i) s is ↔ Allowed step good s is :=
  allowed_congr inv h (fun s i hs hi => ((h s i hs).mpr hi).1) hs is

/-- Two machines given the same inputs. -/
def paired {ο' : Type} (step : σ → ι → σ × ο) (step' : τ → ι → τ × ο') (p : σ × τ) (i : ι) : (σ × τ) × (ο × ο') :=
  (((step p.1 i).1, (step' p.2 i).1), ((step p.1 i).2, (step' p.2 i).2))

/-- Two machines that a relation ties stay tied along a run exactly if the second takes no step that
breaks it. -/
theorem allowed_paired_iff {ο' : Type} {step' : τ → ι → τ × ο'} (R : σ → τ → Prop) (good : τ → ι → Prop)
    (h : ∀ s t i, R s t → (R (step s i).1 (step' t i).1 ↔ good t i)) {s : σ} {t : τ} (hr : R s t) (is : List ι) :
    Allowed (paired step step') (fun p i => R (paired step step' p i).1.1 (paired step step' p i).1.2) (s, t) is ↔
      Allowed step' good t is := by
  induction is generalizing s t with
  | nil => exact Iff.rfl
  | cons i is ih =>
    constructor
    · rintro ⟨hi, hrest⟩
      exact ⟨(h s t i hr).mp hi, (ih hi).mp hrest⟩
    · rintro ⟨hi, hrest⟩
      have hi' := (h s t i hr).mpr hi
      exact ⟨hi', (ih hi').mpr hrest⟩

end Runs
