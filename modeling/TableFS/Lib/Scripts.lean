import Mathlib.Data.List.Basic

/-! Programs that read and change a state and may stop before they return, with rules of
preconditions and postconditions: what holds when the program returns and what holds when it stops.
Two programs are compared through a view of the state of the first that is the state of the second. -/
namespace Scripts
variable {σ ε α β : Type}

def Script (σ ε α : Type) : Type := σ → Except ε α × σ

namespace Script

/-- A program that stops leaves the rest undone. -/
def andThen (m : Script σ ε α) (f : α → Script σ ε β) : Script σ ε β := fun s =>
  match m s with
  | (.ok a, s') => f a s'
  | (.error e, s') => (.error e, s')

instance : Monad (Script σ ε) where
  pure a := fun s => (.ok a, s)
  bind := andThen

def stop (e : ε) : Script σ ε α := fun s => (.error e, s)

def get : Script σ ε σ := fun s => (.ok s, s)

def modify (f : σ → σ) : Script σ ε Unit := fun s => (.ok (), f s)

def forEach : List α → (α → Script σ ε Unit) → Script σ ε Unit
  | [], _ => pure ()
  | a :: as, f => f a >>= fun _ => forEach as f

end Script

/-- The outcome is a return with Q or a stop with E. -/
def Ends (E : ε → σ → Prop) (Q : α → σ → Prop) : Except ε α × σ → Prop
  | (.ok a, s) => Q a s
  | (.error e, s) => E e s

/-- From a state with P the program returns with Q or stops with E. -/
structure Triple (E : ε → σ → Prop) (P : σ → Prop) (m : Script σ ε α) (Q : α → σ → Prop) : Prop where
  ends : ∀ s, P s → Ends E Q (m s)

section
variable {E : ε → σ → Prop} {P P' : σ → Prop} {Q Q' : α → σ → Prop} {R : β → σ → Prop} {m : Script σ ε α}

theorem triple_pure {a : α} (h : ∀ s, P s → Q a s) : Triple E P (pure a) Q := ⟨h⟩

theorem triple_stop {e : ε} (h : ∀ s, P s → E e s) : Triple E P (Script.stop e) Q := ⟨h⟩

theorem triple_modify {f : σ → σ} {Q : Unit → σ → Prop} (h : ∀ s, P s → Q () (f s)) :
    Triple E P (Script.modify f) Q := ⟨h⟩

/-- A precondition may be met state by state. -/
theorem triple_of_forall (h : ∀ s, P s → Triple E (fun s' => s' = s) m Q) : Triple E P m Q :=
  ⟨fun s hs => (h s hs).ends s rfl⟩

theorem triple_get {f : σ → Script σ ε β} (h : ∀ s, P s → Triple E (fun s' => s' = s) (f s) R) :
    Triple E P (Script.get >>= f) R := ⟨fun s hs => (h s hs).ends s rfl⟩

theorem triple_bind {f : α → Script σ ε β} (hm : Triple E P m Q) (hf : ∀ a, Triple E (Q a) (f a) R) :
    Triple E P (m >>= f) R := by
  refine ⟨fun s hs => ?_⟩
  have hout := hm.ends s hs
  change Ends E R (Script.andThen m f s)
  rw [Script.andThen]
  rcases hm' : m s with ⟨e | a, s'⟩
  · rw [hm'] at hout
    exact hout
  · rw [hm'] at hout
    exact (hf a).ends s' hout

theorem Triple.post (h : Triple E P m Q) (hQ : ∀ a s, Q a s → Q' a s) : Triple E P m Q' := by
  refine ⟨fun s hs => ?_⟩
  have hout := h.ends s hs
  rcases hm : m s with ⟨e | a, s'⟩
  · rwa [hm] at hout
  · rw [hm] at hout
    exact hQ a s' hout

/-- After a program that never returns, anything may follow. -/
theorem Triple.stops_bind {f : α → Script σ ε β} (h : Triple E P m fun _ _ => False) : Triple E P (m >>= f) R :=
  triple_bind h fun _ => ⟨fun _ hfalse => hfalse.elim⟩

theorem Triple.start {s : σ} (h : Triple E P m Q) (hs : P s) : Triple E (fun s' => s' = s) m Q :=
  ⟨fun _ he => he ▸ h.ends s hs⟩

/-- What is said of the stops may be weakened. -/
theorem Triple.relax {E' : ε → σ → Prop} (h : Triple E P m Q) (hE : ∀ e s, E e s → E' e s) : Triple E' P m Q := by
  refine ⟨fun s hs => ?_⟩
  have hout := h.ends s hs
  rcases hm : m s with ⟨e | a, s'⟩
  · rw [hm] at hout
    exact hE e s' hout
  · rwa [hm] at hout

/-- What the body keeps for every item, the loop keeps. -/
theorem triple_forEach {inv : σ → Prop} {f : α → Script σ ε Unit} {as : List α}
    (h : ∀ a ∈ as, Triple E inv (f a) fun _ => inv) : Triple E inv (Script.forEach as f) fun _ => inv := by
  induction as with
  | nil => exact triple_pure fun _ hs => hs
  | cons a as ih =>
    exact triple_bind (h a List.mem_cons_self) fun _ => ih fun b hb => h b (List.mem_cons_of_mem a hb)

end

section
variable {τ ε' γ : Type} {view : σ → τ} {E : ε → ε' → Prop} {P P' : σ → Prop} {m : Script σ ε α} {m' : Script τ ε' β}

theorem view_bind {f : α → Script σ ε β} (hm : ∀ s, view (m s).2 = view s) (hf : ∀ a s, view (f a s).2 = view s)
    (s : σ) :
    view ((m >>= f) s).2 = view s := by
  have hs := hm s
  change view (Script.andThen m f s).2 = view s
  rw [Script.andThen]
  generalize m s = o at hs ⊢
  rcases o with ⟨e | a, s'⟩
  · exact hs
  · exact (hf a s').trans hs

/-- A program that does not change the view keeps what is said of it. -/
theorem Triple.keep {E : ε → σ → Prop} {Q : α → σ → Prop} {t : τ} (h : Triple E P m Q)
    (hview : ∀ s, view (m s).2 = view s) :
    Triple E (fun s => P s ∧ view s = t) m fun a s => Q a s ∧ view s = t := by
  refine ⟨fun s hs => ?_⟩
  have hout := h.ends s hs.1
  have hs' := hview s
  generalize m s = o at hout hs' ⊢
  rcases o with ⟨e | a, s'⟩
  · exact hout
  · exact ⟨hout, hs'.trans hs.2⟩

/-- Both programs return, with Q, in states that the view relates, or both stop, for reasons that E
relates. -/
def Alike (view : σ → τ) (E : ε → ε' → Prop) (Q : α → β → σ → Prop) : Except ε α × σ → Except ε' β × τ → Prop
  | (.ok a, s), (.ok b, t) => t = view s ∧ Q a b s
  | (.error e, _), (.error e', _) => E e e'
  | _, _ => False

/-- Started in a state with P and in its view, the two programs end alike. -/
structure Mirrors (view : σ → τ) (E : ε → ε' → Prop) (P : σ → Prop) (m : Script σ ε α) (m' : Script τ ε' β)
    (Q : α → β → σ → Prop) : Prop where
  alike : ∀ s, P s → Alike view E Q (m s) (m' (view s))

theorem mirrors_pure {a : α} {b : β} {Q : α → β → σ → Prop} (h : ∀ s, P s → Q a b s) :
    Mirrors view E P (pure a) (pure b) Q := ⟨fun s hs => ⟨rfl, h s hs⟩⟩

theorem mirrors_stop {e : ε} {e' : ε'} {Q : α → β → σ → Prop} (h : E e e') :
    Mirrors view E P (Script.stop e) (Script.stop e') Q := ⟨fun _ _ => h⟩

theorem mirrors_of_forall {Q : α → β → σ → Prop} (h : ∀ s, P s → Mirrors view E (fun s' => s' = s) m m' Q) :
    Mirrors view E P m m' Q := ⟨fun s hs => (h s hs).alike s rfl⟩

theorem Mirrors.pre {Q : α → β → σ → Prop} (h : Mirrors view E P m m' Q) (hP : ∀ s, P' s → P s) :
    Mirrors view E P' m m' Q := ⟨fun s hs => h.alike s (hP s hs)⟩

theorem Mirrors.start {Q : α → β → σ → Prop} {s : σ} (h : Mirrors view E P m m' Q) (hs : P s) :
    Mirrors view E (fun s' => s' = s) m m' Q := h.pre fun _ he => he ▸ hs

theorem mirrors_bind {α' β' : Type} {Q : α → β → σ → Prop} {R : α' → β' → σ → Prop} {f : α → Script σ ε α'}
    {g : β → Script τ ε' β'} (hm : Mirrors view E P m m' Q) (hf : ∀ a b, Mirrors view E (Q a b) (f a) (g b) R) :
    Mirrors view E P (m >>= f) (m' >>= g) R := by
  refine ⟨fun s hs => ?_⟩
  have hout := hm.alike s hs
  change Alike view E R (Script.andThen m f s) (Script.andThen m' g (view s))
  rw [Script.andThen, Script.andThen]
  generalize m s = o, m' (view s) = o' at hout ⊢
  rcases o with ⟨e | a, s'⟩ <;> rcases o' with ⟨e' | b, t⟩
  · exact hout
  · exact hout.elim
  · exact hout.elim
  · obtain ⟨rfl, hq⟩ := hout
    exact (hf a b).alike s' hq

/-- A part of the first program that returns and does not change the view. -/
theorem mirrors_skip {α' : Type} {Q : α → σ → Prop} {R : α' → β → σ → Prop} {f : α → Script σ ε α'}
    (hm : Triple (fun _ _ => False) P m Q) (hview : ∀ s, view (m s).2 = view s)
    (hf : ∀ a, Mirrors view E (Q a) (f a) m' R) : Mirrors view E P (m >>= f) m' R := by
  refine ⟨fun s hs => ?_⟩
  have hout := hm.ends s hs
  have hs' := hview s
  change Alike view E R (Script.andThen m f s) _
  rw [Script.andThen]
  rcases hm' : m s with ⟨e | a, s'⟩
  · rw [hm'] at hout
    exact hout.elim
  · rw [hm'] at hout hs'
    exact hs' ▸ (hf a).alike s' hout

theorem mirrors_get_left {α' : Type} {R : α' → β → σ → Prop} {f : σ → Script σ ε α'}
    (h : ∀ s, P s → Mirrors view E (fun s' => s' = s) (f s) m' R) : Mirrors view E P (Script.get >>= f) m' R :=
  ⟨fun s hs => (h s hs).alike s rfl⟩

theorem mirrors_get_right {β' : Type} {R : α → β' → σ → Prop} {g : τ → Script τ ε' β'}
    (h : ∀ s, P s → Mirrors view E (fun s' => s' = s) m (g (view s)) R) : Mirrors view E P m (Script.get >>= g) R :=
  ⟨fun s hs => (h s hs).alike s rfl⟩

theorem mirrors_forEach {inv : σ → Prop} {f : γ → Script σ ε Unit} {g : γ → Script τ ε' Unit} {as : List γ}
    (h : ∀ a ∈ as, Mirrors view E inv (f a) (g a) fun _ _ => inv) :
    Mirrors view E inv (Script.forEach as f) (Script.forEach as g) fun _ _ => inv := by
  induction as with
  | nil => exact mirrors_pure fun _ hs => hs
  | cons a as ih =>
    exact mirrors_bind (h a List.mem_cons_self) fun _ _ => ih fun b hb => h b (List.mem_cons_of_mem a hb)

/-- A last part of the first program that returns and does not change the view. -/
theorem Mirrors.followed {α' : Type} {Q : α → β → σ → Prop} {R : α' → β → σ → Prop} {f : α → Script σ ε α'}
    (hm : Mirrors view E P m m' Q) (hf : ∀ a b, Triple (fun _ _ => False) (Q a b) (f a) fun a' => R a' b)
    (hview : ∀ a s, view (f a s).2 = view s) : Mirrors view E P (m >>= f) m' R := by
  refine ⟨fun s hs => ?_⟩
  have hout := hm.alike s hs
  change Alike view E R (Script.andThen m f s) _
  rw [Script.andThen]
  generalize m s = o, m' (view s) = o' at hout ⊢
  rcases o with ⟨e | a, s'⟩ <;> rcases o' with ⟨e' | b, t⟩
  · exact hout
  · exact hout.elim
  · exact hout.elim
  · have hend := (hf a b).ends s' hout.2
    have hs' := hview a s'
    dsimp only
    rcases hfa : f a s' with ⟨e | a', s''⟩
    · rw [hfa] at hend
      exact hend.elim
    · rw [hfa] at hend hs'
      exact ⟨hout.1.trans hs'.symm, hend⟩

/-- The first program stops for sure. -/
theorem mirrors_stops {e' : ε'} {Q : α → β → σ → Prop} (h : Triple (fun e _ => E e e') P m fun _ _ => False) :
    Mirrors view E P m (Script.stop e') Q := by
  refine ⟨fun s hs => ?_⟩
  have hout := h.ends s hs
  generalize m s = o at hout ⊢
  rcases o with ⟨e | a, s'⟩
  · exact hout
  · exact hout.elim

theorem Mirrors.relax {E' : ε → ε' → Prop} {Q : α → β → σ → Prop} (h : Mirrors view E P m m' Q)
    (hE : ∀ e e', E e e' → E' e e') : Mirrors view E' P m m' Q := by
  refine ⟨fun s hs => ?_⟩
  have hout := h.alike s hs
  generalize m s = o, m' (view s) = o' at hout ⊢
  rcases o with ⟨e | a, s'⟩ <;> rcases o' with ⟨e' | b, t⟩
  · exact hE e e' hout
  · exact hout.elim
  · exact hout.elim
  · exact hout

/-- What is said of the first program alone. -/
theorem Mirrors.triple {Q : α → β → σ → Prop} (h : Mirrors view E P m m' Q) :
    Triple (fun e _ => ∃ e', E e e') P m fun a s => ∃ b, Q a b s := by
  refine ⟨fun s hs => ?_⟩
  have hout := h.alike s hs
  generalize m s = o, m' (view s) = o' at hout ⊢
  rcases o with ⟨e | a, s'⟩ <;> rcases o' with ⟨e' | b, t⟩
  · exact ⟨e', hout⟩
  · exact hout.elim
  · exact hout.elim
  · exact ⟨b, hout.2⟩

end
end Scripts
