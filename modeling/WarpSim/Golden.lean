import Mathlib.Data.Int.Bitwise

/-!
# The golden models

What `golden.py` computes for the kernels, on Python's unbounded integers where it does and on
NumPy's fixed-width ones where it says so. An array is a list of the values of its elements.
-/

namespace WarpSim

namespace Golden

/-- A NumPy `int64`, which overflows silently. -/
def int64 (v : Int) : Int := (BitVec.ofInt 64 v).toInt

/-- `_wrap`: reduces `int64` values to `int32` two's complement. -/
def wrap (v : Int) : Int := (BitVec.ofInt 32 ((int64 v).land 0xFFFFFFFF)).toInt

/-- `vecadd_s32`. -/
def vecaddS32 (a b : List Int) : List Int := List.zipWith (fun v w => wrap (int64 (v + w))) a b

def reduceBlock : Nat := 256

/-- `reduce_blocks`: the sums of the rows of `reduceBlock` elements, the last row padded. -/
def reduceBlocks (x : List Int) : List Int :=
  let blocks := (x.length + reduceBlock - 1) / reduceBlock
  let padded := x ++ List.replicate (blocks * reduceBlock - x.length) 0
  (List.range blocks).map fun b =>
    wrap (int64 ((padded.drop (b * reduceBlock)).take reduceBlock).sum)

/-- What `torture_nested` computes for one element. -/
def nestedAt (v : Int) : Int :=
  let acc := 0
  if v.land 1 ≠ 0 then
    let acc := acc + 1
    let acc :=
      if v < 100 then acc - 7
      else
        let acc := acc + 20
        if v.land 4 ≠ 0 then acc + 300 else acc
    acc * 3
  else
    let acc := acc + 2
    if 50 < v then v - acc else acc * v

def tortureNested (x : List Int) : List Int :=
  x.map fun v => wrap ((nestedAt v).land 0xFFFFFFFF)

/-- The sum of `k * k + i` over `arange(max(trips, 0))`. -/
def loopsAt (i : Nat) (trips : Int) : Int :=
  int64 ((List.range (max trips 0).toNat).map fun k => ((k * k + i : Nat) : Int)).sum

def tortureLoops (x : List Int) : List Int := x.mapIdx fun i trips => wrap (loopsAt i trips)

/-- The loop of `torture_early_exit` with so many rounds left until `k` is 64. -/
def earlyExitLoop (v : Int) : Nat → Int → Int → Int
  | 0, _, acc => acc
  | n + 1, k, acc =>
    let acc := acc + k
    if 0 < k ∧ (k * 7 + v) % 13 = 0 then acc else earlyExitLoop v n (k + 1) acc

def tortureEarlyExit (x : List Int) (sentinel : Int) : List Int :=
  x.map fun v => wrap (if v.land 3 = 3 then sentinel else earlyExitLoop v 64 0 0)

/-- `s32` in `torture_combined`. -/
def s32 (v : Int) : Int :=
  let v := v.land 0xFFFFFFFF
  if v.land 0x80000000 ≠ 0 then v - 2 ^ 32 else v

/-- The loop of `torture_combined` with so many rounds left until `k` is 32. -/
def combinedLoop : Nat → Int → Int → Int → Int
  | 0, _, _, acc => acc
  | n + 1, k, state, acc =>
    if state.land 1 ≠ 0 then
      let state := s32 (state * 3 + 1)
      let acc := s32 (acc + k)
      let acc :=
        if state.land 2 ≠ 0 then
          let acc := s32 (acc.xor state)
          if state.land 4 ≠ 0 then s32 (acc - 5) else acc
        else acc
      combinedLoop n (k + 1) state acc
    else
      let state := state >>> (1 : Nat)
      let acc := s32 (acc + state)
      if state = 0 then acc else combinedLoop n (k + 1) state acc

def tortureCombined (x : List Int) : List Int :=
  x.map fun v₀ => wrap (combinedLoop 32 0 (s32 v₀) 0)

end Golden

end WarpSim
