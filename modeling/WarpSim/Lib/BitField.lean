import Mathlib.Algebra.Order.Ring.Int
import Mathlib.Data.Nat.Bitwise

/-!
# Fields of a machine word

A field of a word is `k` bits from bit `s` on. Reading is a shift and a mask, writing a shift and
an `or`; both are described by their bits, so a word packed from disjoint fields is read and
rebuilt by comparing bits.
-/

namespace BitField

variable {n : Nat}

/-- The mask of the `k` lowest bits. -/
def low (n k : Nat) : BitVec n := BitVec.ofNat n (2 ^ k - 1)

/-- The `k` bits of `w` from bit `s` on. -/
def get (w : BitVec n) (s k : Nat) : BitVec n := (w >>> s) &&& low n k

/-- A value that needs no more than `k` bits. -/
def Fits (x : BitVec n) (k : Nat) : Prop := x.toNat < 2 ^ k

theorem Fits.getLsbD {x : BitVec n} {k j : Nat} (h : Fits x k) (hj : k ≤ j) :
    x.getLsbD j = false := by
  rw [BitVec.getLsbD]
  exact Nat.testBit_lt_two_pow (h.trans_le (Nat.pow_le_pow_right (by decide) hj))

theorem Fits.setWidth {m k : Nat} {x : BitVec n} (h : Fits x k) : Fits (x.setWidth m) k := by
  unfold Fits at *
  rw [BitVec.toNat_setWidth]
  exact (Nat.mod_le _ _).trans_lt h

theorem fits_width (x : BitVec n) : Fits x n := x.isLt

theorem getLsbD_low (k j : Nat) : (low n k).getLsbD j = (decide (j < n) && decide (j < k)) := by
  rw [low, BitVec.getLsbD_ofNat, Nat.testBit_two_pow_sub_one]

/-- A field holds the bits of the word that it covers. -/
theorem getLsbD_get (w : BitVec n) (s k j : Nat) :
    (get w s k).getLsbD j = (w.getLsbD (s + j) && decide (j < k)) := by
  rw [get, BitVec.getLsbD_and, BitVec.getLsbD_ushiftRight, getLsbD_low]
  by_cases hj : j < n
  · simp [hj]
  · rw [BitVec.getLsbD_of_ge w (s + j) (by omega)]
    simp

theorem fits_get (w : BitVec n) (s k : Nat) : Fits (get w s k) k := by
  unfold Fits get low
  rw [BitVec.toNat_and, BitVec.toNat_ofNat]
  have hle : (2 ^ k - 1) % 2 ^ n ≤ 2 ^ k - 1 := Nat.mod_le _ _
  have hpos : 0 < 2 ^ k := Nat.two_pow_pos k
  exact (Nat.and_le_right.trans hle).trans_lt (by omega)

/-- A value that fits a field, shifted to it, has its bits there and no others. -/
theorem getLsbD_put {x : BitVec n} {s k : Nat} (h : Fits x k) (hn : s + k ≤ n) (j : Nat) :
    (x <<< s).getLsbD j = (decide (s ≤ j ∧ j < s + k) && x.getLsbD (j - s)) := by
  rw [BitVec.getLsbD_shiftLeft]
  by_cases hs : s ≤ j
  · by_cases hk : j < s + k
    · simp [hs, hk, show j < n by omega, show ¬ j < s by omega]
    · rw [h.getLsbD (by omega)]
      simp
  · simp [hs, show j < s by omega]

end BitField
