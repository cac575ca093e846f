import Mathlib.Logic.Basic

/-!
# Stateful computations and the relations they compute

A computation with a state and errors does what a relation between states says, from the states
of a precondition: it succeeds exactly where the relation holds, so a statement covers both what
it accepts and that it accepts nothing else. Errors are of a given kind.

A computation is uniform where it treats states of one shape alike, so that what distinguishes
them is not read.
-/

namespace Stateful

variable {S ε α β : Type} {Pre Pre' : S → Prop} {Fail : ε → Prop}

/-- From the precondition, a computation succeeds exactly as the relation says, and fails only in
the given way. -/
structure Does (Pre : S → Prop) (Fail : ε → Prop) (x : StateT S (Except ε) α)
    (R : S → α → S → Prop) : Prop where
  ok : ∀ {s a s'}, Pre s → (x s = .ok (a, s') ↔ R s a s')
  fails : ∀ {s e}, Pre s → x s = .error e → Fail e

/-- The states reached by a relation with a result. -/
def After (Pre : S → Prop) (R : S → α → S → Prop) (a : α) (s' : S) : Prop := ∃ s, Pre s ∧ R s a s'

variable {x : StateT S (Except ε) α} {R R' : S → α → S → Prop}

theorem Does.mono (h : Does Pre Fail x R) (hpre : ∀ s, Pre' s → Pre s) : Does Pre' Fail x R :=
  ⟨fun hs => h.ok (hpre _ hs), fun hs => h.fails (hpre _ hs)⟩

theorem Does.congr (h : Does Pre Fail x R) (hr : ∀ s a s', Pre s → (R s a s' ↔ R' s a s')) :
    Does Pre Fail x R' :=
  ⟨fun hs => (h.ok hs).trans (hr _ _ _ hs), h.fails⟩

theorem Does.of_eq {y : StateT S (Except ε) α} (h : Does Pre Fail y R)
    (heq : ∀ s, Pre s → x s = y s) : Does Pre Fail x R :=
  ⟨fun hs => by rw [heq _ hs]; exact h.ok hs, fun hs he => h.fails hs (by rwa [← heq _ hs])⟩

theorem does_pure (a : α) : Does Pre Fail (pure a) fun s b s' => b = a ∧ s' = s :=
  ⟨fun _ => by
    rw [show (pure a : StateT S (Except ε) α) _ = .ok (a, _) from rfl]
    simp [eq_comm], fun _ h => by cases h⟩

theorem does_bind {f : α → StateT S (Except ε) β} {Q : α → S → β → S → Prop}
    (h : Does Pre Fail x R) (hf : ∀ a, Does (After Pre R a) Fail (f a) (Q a)) :
    Does Pre Fail (x >>= f) fun s b s'' => ∃ a s', R s a s' ∧ Q a s' b s'' := by
  refine ⟨fun {s b s''} hs => ?_, fun {s e} hs he => ?_⟩
  · have hbind : (x >>= f) s = x s >>= fun p => f p.1 p.2 := rfl
    rw [hbind]
    constructor
    · intro hok
      rcases hx : x s with e | ⟨a, s'⟩ <;> rw [hx] at hok
      · cases hok
      · have hr := (h.ok hs).1 hx
        exact ⟨a, s', hr, ((hf a).ok ⟨s, hs, hr⟩).1 hok⟩
    · rintro ⟨a, s', hr, hq⟩
      rw [(h.ok hs).2 hr]
      exact ((hf a).ok ⟨s, hs, hr⟩).2 hq
  · have hbind : (x >>= f) s = x s >>= fun p => f p.1 p.2 := rfl
    rw [hbind] at he
    rcases hx : x s with e' | ⟨a, s'⟩ <;> rw [hx] at he
    · cases he
      exact h.fails hs hx
    · exact (hf a).fails ⟨s, hs, (h.ok hs).1 hx⟩ he

/-- The same for an invariant. -/
theorem does_seq {Inv : S → Prop} {f : α → StateT S (Except ε) β} {Q : α → S → β → S → Prop}
    (h : Does Inv Fail x R) (hkeep : ∀ s a s', Inv s → R s a s' → Inv s')
    (hf : ∀ a, Does Inv Fail (f a) (Q a)) :
    Does Inv Fail (x >>= f) fun s b s'' => ∃ a s', R s a s' ∧ Q a s' b s'' :=
  does_bind h fun a => (hf a).mono fun s' ⟨s, hs, hr⟩ => hkeep s a s' hs hr

theorem does_modify (f : S → S) :
    Does Pre Fail (modify f : StateT S (Except ε) PUnit) fun s _ s' => s' = f s :=
  ⟨fun {s _ _} _ => by
    rw [show (modify f : StateT S (Except ε) PUnit) s = .ok ((), f s) from rfl]
    simp [eq_comm], fun _ h => by cases h⟩

section Uniform

variable {P G : Type} {view : P → G → S} {E : (P → ε) → Prop}

/-- A computation does not tell the members of a family of states apart: from states of one shape
it has one result, in states of one shape, or fails, with the errors of one of the families `E`. -/
def Uniform (view : P → G → S) (E : (P → ε) → Prop) (x : StateT S (Except ε) α) : Prop :=
  ∀ g, (∃ a g', ∀ p, x (view p g) = .ok (a, view p g'))
    ∨ ∃ e, E e ∧ ∀ p, x (view p g) = .error (e p)

theorem uniform_pure (a : α) : Uniform view E (pure a) := fun g => .inl ⟨a, g, fun _ => rfl⟩

theorem uniform_throw {e : ε} (h : E fun _ => e) :
    Uniform view E (throw e : StateT S (Except ε) α) :=
  fun _ => .inr ⟨_, h, fun _ => rfl⟩

theorem uniform_bind {f : α → StateT S (Except ε) β} (h : Uniform view E x)
    (hf : ∀ a, Uniform view E (f a)) : Uniform view E (x >>= f) := by
  intro g
  have hbind : ∀ s, (x >>= f) s = x s >>= fun r => f r.1 r.2 := fun _ => rfl
  rcases h g with ⟨a, g', hx⟩ | ⟨e, he, hx⟩
  · rcases hf a g' with ⟨b, g'', hy⟩ | ⟨e, he, hy⟩
    · refine .inl ⟨b, g'', fun p => ?_⟩
      rw [hbind, hx]
      exact hy p
    · refine .inr ⟨e, he, fun p => ?_⟩
      rw [hbind, hx]
      exact hy p
  · refine .inr ⟨e, he, fun p => ?_⟩
    rw [hbind, hx]
    rfl

theorem uniform_modify {f : S → S} (h : ∀ g, ∃ g', ∀ p, f (view p g) = view p g') :
    Uniform view E (modify f : StateT S (Except ε) PUnit) := by
  intro g
  obtain ⟨g', hg⟩ := h g
  refine .inl ⟨⟨⟩, g', fun p => ?_⟩
  rw [← hg]
  rfl

/-- A computation that reads what the members of a shape have in common. -/
theorem uniform_of_shape (h : ∀ g, ∃ y, Uniform view E y ∧ ∀ p, x (view p g) = y (view p g)) :
    Uniform view E x := by
  intro g
  obtain ⟨y, hy, heq⟩ := h g
  simp only [heq]
  exact hy g

end Uniform

end Stateful
