import Mathlib.Algebra.BigOperators.Group.Finset.Basic

/-!
# Sums by halving

A sum of `2 ^ k` terms in `k` rounds: in each round the lower half of what is left takes the terms
of the upper half, and after the last round one term is left.
-/

section Halving

variable {M : Type*} (f : Nat → M)

/-- One round: a term takes the one `stride` above it. -/
def halve [Add M] (stride : Nat) (f : Nat → M) (t : Nat) : M := f t + f (t + stride)

/-- The terms after so many rounds from `2 ^ k` terms. -/
def halvings [Add M] (k : Nat) : Nat → Nat → M
  | 0 => f
  | j + 1 => halve (2 ^ (k - (j + 1))) (halvings k j)

variable [AddCommMonoid M]

/-- A round keeps the sum of the terms that are left. -/
theorem sum_halve (stride : Nat) : ∑ t ∈ Finset.range stride, halve stride f t
    = ∑ t ∈ Finset.range (stride + stride), f t := by
  simp only [halve, Finset.sum_add_distrib, Finset.sum_range_add, Nat.add_comm]

theorem sum_halvings {k j : Nat} (h : j ≤ k) : ∑ t ∈ Finset.range (2 ^ (k - j)), halvings f k j t
    = ∑ t ∈ Finset.range (2 ^ k), f t := by
  induction j with
  | zero => rfl
  | succ j ih =>
    have hexp : 2 ^ (k - (j + 1)) + 2 ^ (k - (j + 1)) = 2 ^ (k - j) := by
      rw [← Nat.two_mul, ← pow_succ', Nat.sub_add_eq, Nat.sub_add_cancel (by omega)]
    rw [halvings, sum_halve, hexp, ih (Nat.le_of_succ_le h)]

/-- The term that the last round leaves is the sum. -/
theorem halvings_last (k : Nat) : halvings f k k 0 = ∑ t ∈ Finset.range (2 ^ k), f t := by
  have h := sum_halvings f (Nat.le_refl k)
  rwa [Nat.sub_self, pow_zero, Finset.sum_range_one] at h

end Halving
