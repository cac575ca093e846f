import Mathlib.Algebra.Order.Ring.Int
import Mathlib.Data.List.Flatten
import Mathlib.Data.List.Count
import Mathlib.Data.List.Perm.Basic

/-!
# Interleavings of independent components

Components take steps on a common state, each step fails or says what it did. Where neighbouring
steps of different components commute as long as what they do does not clash, a whole run can be
rescheduled: every order of the same turns comes to the same state.
-/

namespace WarpSim

variable {ι S E : Type*}

/-- A run of components over a common state, with whose turn each step was and what it did. -/
inductive Scheduled (step : ι → S → Option (E × S)) : S → List (ι × E) → S → Prop
  | nil (s : S) : Scheduled step s [] s
  | cons {i : ι} {e : E} {s s' s'' : S} {t : List (ι × E)} (h : step i s = some (e, s'))
      (rest : Scheduled step s' t s'') : Scheduled step s ((i, e) :: t) s''

/-- Turns of different components do not clash. -/
def Apart (clash : E → E → Prop) (x y : ι × E) : Prop := x.1 ≠ y.1 → ¬clash x.2 y.2

/-- Neighbouring steps of different components that do not clash can change places. -/
def Commutes (step : ι → S → Option (E × S)) (clash : E → E → Prop) : Prop :=
  ∀ {i j e e' s s₁ s₂}, i ≠ j → step i s = some (e, s₁) → step j s₁ = some (e', s₂) →
    ¬clash e e' → ∃ s₁', step j s = some (e', s₁') ∧ step i s₁' = some (e, s₂)

variable {step : ι → S → Option (E × S)} {clash : E → E → Prop} {s s' : S} {t : List (ι × E)}

namespace Scheduled

theorem append (h : Scheduled step s t s') : ∀ {t' : List (ι × E)} {s'' : S},
    Scheduled step s' t' s'' → Scheduled step s (t ++ t') s'' := by
  induction h with
  | nil => exact fun h' => h'
  | cons h _ ih => exact fun h' => .cons h (ih h')

theorem split : ∀ {t t' : List (ι × E)} {s : S}, Scheduled step s (t ++ t') s' →
    ∃ m, Scheduled step s t m ∧ Scheduled step m t' s'
  | [], _, s, h => ⟨s, .nil s, h⟩
  | _ :: _, _, _, .cons h rest => by
    obtain ⟨m, h1, h2⟩ := rest.split
    exact ⟨m, .cons h h1, h2⟩

/-- A run of which no turns clash can be rescheduled. -/
theorem perm (hcomm : Commutes step clash) (hsymm : ∀ e e', clash e e' → clash e' e)
    {is js : List ι} (hperm : is.Perm js) : ∀ {s s' : S} {t : List (ι × E)},
    Scheduled step s t s' → t.map Prod.fst = is → t.Pairwise (Apart clash) →
      ∃ t', t'.map Prod.fst = js ∧ t'.Perm t ∧ Scheduled step s t' s' := by
  have hapart : ∀ {x y : ι × E}, Apart clash x y → Apart clash y x :=
    fun h hne hc => h (Ne.symm hne) (hsymm _ _ hc)
  induction hperm with
  | nil =>
    intro s s' t h ht _
    exact ⟨t, ht, .refl t, h⟩
  | cons i _ ih =>
    intro s s' t h ht hpair
    cases h with
    | nil => cases ht
    | @cons j e _ _ _ t h rest =>
      cases ht
      obtain ⟨t', h1, h2, h3⟩ := ih rest rfl hpair.of_cons
      exact ⟨(j, e) :: t', congrArg (j :: ·) h1, h2.cons _, .cons h h3⟩
  | swap i j l =>
    intro s s' t h ht hpair
    cases h with
    | nil => cases ht
    | @cons j' e _ _ _ t h rest =>
      cases rest with
      | nil => cases ht
      | @cons i' e' _ _ _ t h' rest =>
        cases ht
        by_cases hne : j' = i'
        · subst hne
          exact ⟨_, rfl, .refl _, .cons h (.cons h' rest)⟩
        · have hclash := (List.pairwise_cons.1 hpair).1 (i', e') List.mem_cons_self hne
          obtain ⟨m, h1, h2⟩ := hcomm hne h h' hclash
          exact ⟨(i', e') :: (j', e) :: t, rfl, .swap _ _ _, .cons h1 (.cons h2 rest)⟩
  | trans _ _ ih ih' =>
    intro s s' t h ht hpair
    obtain ⟨t₁, h1, h2, h3⟩ := ih h ht hpair
    obtain ⟨t₂, h4, h5, h6⟩ := ih' h3 h1 (h2.symm.pairwise hpair hapart)
    exact ⟨t₂, h4, h5.trans h2, h6⟩

end Scheduled

section Grouped

variable [DecidableEq ι]

/-- The same turns, grouped by component in a given order. -/
def grouped (order is : List ι) : List ι := order.flatMap fun i => List.replicate (is.count i) i

/-- Grouping by an order that names every component once only moves turns. -/
theorem perm_grouped {order is : List ι} (hnodup : order.Nodup) (hmem : ∀ i ∈ is, i ∈ order) :
    is.Perm (grouped order is) := by
  refine List.perm_iff_count.2 fun i => ?_
  have hcount : ∀ l : List ι, l.Nodup →
      (l.flatMap fun j => List.replicate (is.count j) j).count i
        = if i ∈ l then is.count i else 0 := by
    intro l hl
    induction l with
    | nil => rfl
    | cons j l ih =>
      obtain ⟨hj, hl⟩ := List.nodup_cons.1 hl
      rw [List.flatMap_cons, List.count_append, ih hl, List.count_replicate]
      by_cases hij : i = j
      · subst hij
        simp [hj]
      · simp [hij, Ne.symm hij]
  rw [grouped, hcount order hnodup]
  split_ifs with h
  · rfl
  · exact List.count_eq_zero.2 fun hi => h (hmem i hi)

end Grouped

end WarpSim
