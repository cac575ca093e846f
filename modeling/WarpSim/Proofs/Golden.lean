import WarpSim.Golden
import WarpSim.Lib.IntBits
import WarpSim.Proofs.Arithmetic
import Mathlib

/-!
# Golden models on words

The golden models compute on integers, and the ALU on words: reduced to a word, every step of a
golden model is one of the ALU's.
-/

namespace WarpSim

namespace Golden

theorem ofInt_int64 (z : Int) : BitVec.ofInt 32 (int64 z) = BitVec.ofInt 32 z := by
  apply BitVec.eq_of_toNat_eq
  rw [int64, BitVec.toInt_ofInt, BitVec.toNat_ofInt, BitVec.toNat_ofInt, Int.bmod_def]
  omega

theorem land_mask (z : Int) : z.land 0xFFFFFFFF = ((BitVec.ofInt 32 z).toNat : Int) := by
  have h := land_natCast (w := 32) (c := 0xFFFFFFFF) (by decide) z
  rw [show BitVec.ofNat 32 0xFFFFFFFF = BitVec.allOnes 32 from rfl, BitVec.and_allOnes] at h
  exact h

theorem ofInt_land_mask (z : Int) : BitVec.ofInt 32 (z.land 0xFFFFFFFF) = BitVec.ofInt 32 z := by
  rw [land_mask, BitVec.ofInt_natCast, BitVec.ofNat_toNat, BitVec.setWidth_eq]

theorem wrap_eq (z : Int) : wrap z = (BitVec.ofInt 32 z).toInt := by
  rw [wrap, ofInt_land_mask, ofInt_int64]

theorem wrap_land_mask (z : Int) : wrap (z.land 0xFFFFFFFF) = (BitVec.ofInt 32 z).toInt := by
  rw [wrap_eq, ofInt_land_mask]

theorem s32_eq (z : Int) : s32 z = (BitVec.ofInt 32 z).toInt := by
  have hsign : (z.land 0xFFFFFFFF).land 0x80000000 ≠ 0 ↔ (BitVec.ofInt 32 z).msb = true := by
    have h := land_natCast (w := 32) (c := 2 ^ 31) (by decide) (z.land 0xFFFFFFFF)
    rw [ofInt_land_mask, BitVec.toNat_and, BitVec.toNat_ofNat,
      Nat.mod_eq_of_lt (by decide : 2 ^ 31 < 2 ^ 32), Nat.and_two_pow, BitVec.testBit_toNat,
      ← BitVec.msb_eq_getLsbD_last] at h
    rw [show (0x80000000 : Int) = ((2 ^ 31 : Nat) : Int) from rfl, h]
    rcases (BitVec.ofInt 32 z).msb with _ | _ <;> simp
  simp only [s32]
  rw [BitVec.toInt_eq_msb_cond, if_congr hsign rfl rfl, land_mask]
  rfl

theorem s32_toInt (w : Word) : s32 w.toInt = w.toInt := by rw [s32_eq, BitVec.ofInt_toInt]

/-- A mask leaves nothing of a word's value exactly if it leaves nothing of the word. -/
theorem land_eq_zero {w : Word} (c : Nat) (hc : c < 2 ^ 32) :
    w.toInt.land c = 0 ↔ (w &&& BitVec.ofNat 32 c).toInt = 0 := by
  rw [land_natCast hc, BitVec.ofInt_toInt, Int.natCast_eq_zero]
  constructor <;> intro h
  · exact congrArg BitVec.toInt (BitVec.eq_of_toNat_eq (y := (0 : Word)) h)
  · exact congrArg BitVec.toNat (BitVec.eq_of_toInt_eq (y := (0 : Word)) h)

theorem ofInt_sum (l : List Int) : BitVec.ofInt 32 l.sum = (l.map (BitVec.ofInt 32)).sum := by
  induction l with
  | nil => rfl
  | cons z l ih => rw [List.sum_cons, List.map_cons, List.sum_cons, BitVec.ofInt_add, ih]

/-- A row of the padded array holds the elements that there are, and zeros after them. -/
theorem reduceBlocks_row (x : List Int) {b : Nat}
    (h : b < (x.length + reduceBlock - 1) / reduceBlock) :
    ((x ++ List.replicate ((x.length + reduceBlock - 1) / reduceBlock * reduceBlock - x.length)
        0).drop (b * reduceBlock)).take reduceBlock
      = (List.range 256).map fun t => x.getD (b * 256 + t) 0 := by
  unfold reduceBlock at *
  have hb : (b + 1) * 256 ≤ (x.length + 256 - 1) / 256 * 256 := Nat.mul_le_mul_right _ h
  refine List.ext_getElem ?_ fun t h1 h2 => ?_
  · simp only [List.length_take, List.length_drop, List.length_append, List.length_replicate,
      List.length_map, List.length_range]
    omega
  · rw [List.getElem_take, List.getElem_drop, List.getElem_map, List.getElem_range,
      List.getD_eq_getElem?_getD]
    rcases Nat.lt_or_ge (b * 256 + t) x.length with hlt | hge
    · rw [List.getElem_append_left hlt, List.getElem?_eq_getElem hlt, Option.getD_some]
    · rw [List.getElem_append_right hge, List.getElem_replicate, List.getElem?_eq_none hge,
        Option.getD_none]

/-- Each block's sum on words. -/
theorem reduceBlocks_eq (x : List Int) : reduceBlocks x
    = (List.range ((x.length + 255) / 256)).map fun b =>
      ((List.range 256).map fun t => BitVec.ofInt 32 (x.getD (b * 256 + t) 0)).sum.toInt := by
  refine List.map_congr_left fun b hb => ?_
  rw [wrap_eq, ofInt_int64, reduceBlocks_row x (List.mem_range.1 hb), ofInt_sum, List.map_map]
  rfl

theorem nestedAt_eq (v : Int) : nestedAt v =
    if v.land 1 = 0 then if 50 < v then v - 2 else 2 * v
    else if v < 100 then -18 else if v.land 4 = 0 then 63 else 963 := by
  simp only [nestedAt]
  split_ifs <;> first | rfl | contradiction

section Loops

/-- The sum of `torture_loops` after so many rounds. -/
def loopsSum (i k : Nat) : Int := ((List.range k).map fun k => ((k * k + i : Nat) : Int)).sum

theorem loopsSum_succ (i k : Nat) : loopsSum i (k + 1) = loopsSum i k + (k * k + i : Nat) := by
  rw [loopsSum, List.range_succ, List.map_append, List.sum_append, List.map_singleton,
    List.sum_singleton, loopsSum]

theorem ofInt_loopsSum_succ (i k : Nat) : BitVec.ofInt 32 (loopsSum i (k + 1))
    = BitVec.ofInt 32 (loopsSum i k)
      + (BitVec.ofNat 32 k * BitVec.ofNat 32 k + BitVec.ofNat 32 i) := by
  rw [loopsSum_succ, BitVec.ofInt_add, BitVec.ofInt_natCast, BitVec.ofNat_add, BitVec.ofNat_mul]

theorem ofInt_loopsAt (i : Nat) (trips : Int) : BitVec.ofInt 32 (loopsAt i trips)
    = BitVec.ofInt 32 (loopsSum i (max trips 0).toNat) := ofInt_int64 _

end Loops

section Combined

variable (a w : Word)

theorem s32_mul_three_add_one : s32 (w.toInt * 3 + 1) = (w * 3 + 1).toInt := by
  rw [s32_eq, BitVec.ofInt_add, BitVec.ofInt_mul, BitVec.ofInt_toInt]
  rfl

theorem s32_add_natCast (k : Nat) : s32 (a.toInt + k) = (a + BitVec.ofNat 32 k).toInt := by
  rw [s32_eq, BitVec.ofInt_add, BitVec.ofInt_toInt, BitVec.ofInt_natCast]

theorem s32_add_toInt : s32 (a.toInt + w.toInt) = (a + w).toInt := by
  rw [s32_eq, BitVec.ofInt_add, BitVec.ofInt_toInt, BitVec.ofInt_toInt]

theorem s32_xor : s32 (a.toInt.xor w.toInt) = (a ^^^ w).toInt := by
  rw [s32_eq, ofInt_xor, BitVec.ofInt_toInt, BitVec.ofInt_toInt]

theorem s32_sub_five : s32 (a.toInt - 5) = (a - 5).toInt := by
  rw [s32_eq, ofInt_sub, BitVec.ofInt_toInt]
  rfl

theorem shiftRight_one : w.toInt >>> (1 : Nat) = (sra w 1).toInt := by
  rw [toInt_sra, Int.shiftRight_eq_div_pow]
  exact (Int.fdiv_eq_ediv_of_nonneg _ (by decide)).symm

/-- A round of `torture_combined` on words. -/
theorem combinedLoop_succ (n k : Nat) :
    combinedLoop (n + 1) k w.toInt a.toInt =
      if (w &&& 1).toInt = 0 then
        if (sra w 1).toInt = 0 then (a + sra w 1).toInt
        else combinedLoop n ((k + 1 : Nat) : Int) (sra w 1).toInt (a + sra w 1).toInt
      else
        combinedLoop n ((k + 1 : Nat) : Int) (w * 3 + 1).toInt
          (if (w * 3 + 1 &&& 2).toInt = 0 then a + BitVec.ofNat 32 k
          else if (w * 3 + 1 &&& 4).toInt = 0 then (a + BitVec.ofNat 32 k) ^^^ (w * 3 + 1)
          else ((a + BitVec.ofNat 32 k) ^^^ (w * 3 + 1)) - 5).toInt := by
  have h1 : w.toInt.land 1 = 0 ↔ (w &&& 1).toInt = 0 := land_eq_zero 1 (by decide)
  have h2 : (w * 3 + 1).toInt.land 2 = 0 ↔ (w * 3 + 1 &&& 2).toInt = 0 := land_eq_zero 2 (by decide)
  have h4 : (w * 3 + 1).toInt.land 4 = 0 ↔ (w * 3 + 1 &&& 4).toInt = 0 := land_eq_zero 4 (by decide)
  simp only [combinedLoop, s32_mul_three_add_one, s32_add_natCast, s32_xor, s32_sub_five,
    shiftRight_one, s32_add_toInt, ne_eq, h1, h2, h4, Nat.cast_add, Nat.cast_one]
  split_ifs <;> rfl

end Combined

end Golden

end WarpSim
