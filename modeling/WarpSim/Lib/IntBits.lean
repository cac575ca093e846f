import Mathlib.Data.Int.Bitwise

/-!
# Words and the bits of integers

Two's complement carries Python's bitwise operations, which see infinitely many sign bits, to those
on words.
-/

section IntBits

variable {w : Nat}

theorem getLsbD_ofInt (w : Nat) (z : Int) (k : Nat) :
    (BitVec.ofInt w z).getLsbD k = (decide (k < w) && z.testBit k) := by
  rcases z with n | n
  · rw [Int.ofNat_eq_natCast, BitVec.ofInt_natCast, BitVec.getLsbD_ofNat]
    rfl
  · rw [BitVec.ofInt_negSucc_eq_not_ofNat, BitVec.getLsbD_not, BitVec.getLsbD_ofNat]
    by_cases hk : k < w <;> simp [hk, Int.testBit]

theorem ofInt_land (w : Nat) (z z' : Int) :
    BitVec.ofInt w (z.land z') = BitVec.ofInt w z &&& BitVec.ofInt w z' := by
  refine BitVec.eq_of_getLsbD_eq fun k hk => ?_
  rw [BitVec.getLsbD_and, getLsbD_ofInt, getLsbD_ofInt, getLsbD_ofInt, Int.testBit_land,
    decide_eq_true hk]
  rfl

theorem ofInt_xor (w : Nat) (z z' : Int) :
    BitVec.ofInt w (z.xor z') = BitVec.ofInt w z ^^^ BitVec.ofInt w z' := by
  refine BitVec.eq_of_getLsbD_eq fun k hk => ?_
  rw [BitVec.getLsbD_xor, getLsbD_ofInt, getLsbD_ofInt, getLsbD_ofInt, Int.testBit_lxor,
    decide_eq_true hk]
  rfl

theorem ofInt_sub (w : Nat) (z z' : Int) :
    BitVec.ofInt w (z - z') = BitVec.ofInt w z - BitVec.ofInt w z' := by
  rw [Int.sub_eq_add_neg, BitVec.ofInt_add, BitVec.ofInt_neg, BitVec.sub_eq_add_neg]

/-- What a mask of a word leaves of an integer. -/
theorem land_natCast {c : Nat} (hc : c < 2 ^ w) (z : Int) :
    z.land c = ((BitVec.ofInt w z &&& BitVec.ofNat w c).toNat : Int) := by
  have hle : ∃ k : Nat, z.land c = k ∧ k ≤ c := by
    rcases z with n | n
    · exact ⟨n &&& c, rfl, Nat.and_le_right⟩
    · refine ⟨Nat.ldiff c n, rfl, Nat.le_of_testBit fun k hk => ?_⟩
      rw [Nat.testBit_ldiff, Bool.and_eq_true_iff] at hk
      exact hk.1
  obtain ⟨k, heq, hle⟩ := hle
  have h := ofInt_land w z c
  rw [BitVec.ofInt_natCast] at h
  rw [← h, heq, BitVec.ofInt_natCast, BitVec.toNat_ofNat, Nat.mod_eq_of_lt (hle.trans_lt hc)]

end IntBits
