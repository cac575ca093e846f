import Mathlib.Logic.Basic

/-!
# What steps of a relation lead to

Total correctness of a run of steps, in the way of programs without structure: from a state, some
steps come to one where an assertion holds. Runs compose, and a loop comes to its end when it
keeps an invariant and counts its rounds, or lowers a measure.
-/

variable {σ : Type} {R : σ → σ → Prop} {P Q : σ → Prop}

/-- `n` steps lead from one state to another. -/
inductive Leads (R : σ → σ → Prop) : Nat → σ → σ → Prop
  | refl (s : σ) : Leads R 0 s s
  | head {n : Nat} {s t u : σ} (h : R s t) (rest : Leads R n t u) : Leads R (n + 1) s u

theorem Leads.trans {n k : Nat} {s t u : σ} (h : Leads R n s t) (h' : Leads R k t u) :
    Leads R (n + k) s u := by
  induction h with
  | refl s => rwa [Nat.zero_add]
  | head h rest ih =>
    rw [Nat.succ_add]
    exact .head h (ih h')

/-- Some number of steps comes to a state where the assertion holds. -/
def LeadsTo (R : σ → σ → Prop) (Q : σ → Prop) (s : σ) : Prop := ∃ n t, Leads R n s t ∧ Q t

namespace LeadsTo

theorem now {s : σ} (h : Q s) : LeadsTo R Q s := ⟨0, s, .refl s, h⟩

theorem step {s t : σ} (h : R s t) (rest : LeadsTo R Q t) : LeadsTo R Q s := by
  obtain ⟨n, u, hn, hu⟩ := rest
  exact ⟨n + 1, u, .head h hn, hu⟩

theorem trans {s : σ} (h : LeadsTo R P s) (h' : ∀ t, P t → LeadsTo R Q t) : LeadsTo R Q s := by
  obtain ⟨n, t, hn, ht⟩ := h
  obtain ⟨k, u, hk, hu⟩ := h' t ht
  exact ⟨n + k, u, hn.trans hk, hu⟩

theorem mono {s : σ} (h : LeadsTo R P s) (h' : ∀ t, P t → Q t) : LeadsTo R Q s :=
  h.trans fun t ht => now (h' t ht)

/-- A loop with so many rounds left, which may end early. -/
theorem countdown {I : Nat → σ → Prop} (hend : ∀ s, I 0 s → LeadsTo R Q s)
    (hround : ∀ n s, I (n + 1) s → LeadsTo R (fun t => Q t ∨ I n t) s) :
    ∀ (n : Nat) {s : σ}, I n s → LeadsTo R Q s
  | 0, _, h => hend _ h
  | n + 1, _, h => (hround n _ h).trans fun _ ht => ht.elim now (countdown hend hround n)

end LeadsTo
