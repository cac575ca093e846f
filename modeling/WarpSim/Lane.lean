import WarpSim.Instruction

/-!
# Lanes

Sets of lanes as 32-bit masks, the registers of a warp, and what the special registers read. A lane
is a number below `warpSize`; a mask holds no lane at or past it.
-/

namespace WarpSim

abbrev Word := BitVec 32

instance Word.lawfulBEq : LawfulBEq Word := inferInstance

abbrev Pc := BitVec 16

def warpSize : Nat := 32

/-- One bit per lane of a warp; bit `i` is lane `i`. -/
abbrev LaneMask := BitVec 32

def fullMask : LaneMask := 0xFFFFFFFF

def laneBit (lane : Nat) : LaneMask := 1#32 <<< lane

def hasLane (mask : LaneMask) (lane : Nat) : Bool := (mask &&& laneBit lane) != 0

/-- The lanes of a warp, in the order every loop over them takes. -/
def lanes : List Nat := List.range warpSize

def laneCount (mask : LaneMask) : Nat := lanes.countP (hasLane mask)

/-- Two-dimensional launch geometry. -/
structure Dim2 where
  x : Word := 1
  y : Word := 1
  deriving DecidableEq

def Dim2.count (d : Dim2) : Word := d.x * d.y

/-- The general registers and predicates of a warp's lanes. -/
structure RegisterFile where
  general : Nat → BitVec 8 → Word := fun _ _ => 0
  predicates : Nat → BitVec 8 → Bool := fun _ _ => false

namespace RegisterFile

def read (rf : RegisterFile) (lane : Nat) (reg : BitVec 8) : Word := rf.general lane reg

def write (rf : RegisterFile) (lane : Nat) (reg : BitVec 8) (value : Word) : RegisterFile :=
  { rf with general := fun l r => if l = lane ∧ r = reg then value else rf.general l r }

def readPred (rf : RegisterFile) (lane : Nat) (pred : BitVec 8) : Bool := rf.predicates lane pred

def writePred (rf : RegisterFile) (lane : Nat) (pred : BitVec 8) (value : Bool) : RegisterFile :=
  { rf with predicates := fun l p => if l = lane ∧ p = pred then value else rf.predicates l p }

end RegisterFile

/-- The launch geometry a warp sees through the special registers. -/
structure LaneContext where
  ntid : Dim2 := {}
  nctaid : Dim2 := {}
  ctaid : Dim2 := ⟨0, 0⟩
  warpId : Word := 0

namespace LaneContext

def linearIndex (ctx : LaneContext) (lane : Nat) : Word :=
  ctx.warpId * BitVec.ofNat 32 warpSize + BitVec.ofNat 32 lane

/-- The value of the special register with the given index. An index that names none reads as
zero; `%tid` divides by `ntid.x`, which a launch never leaves zero. -/
def special (ctx : LaneContext) (reg : BitVec 8) (lane : Nat) : Word :=
  match (specialRegisterInfoOfIndex reg).map SpecialRegisterInfo.reg with
  | some .tidX => ctx.linearIndex lane % ctx.ntid.x
  | some .tidY => ctx.linearIndex lane / ctx.ntid.x
  | some .ntidX => ctx.ntid.x
  | some .ntidY => ctx.ntid.y
  | some .ctaidX => ctx.ctaid.x
  | some .ctaidY => ctx.ctaid.y
  | some .nctaidX => ctx.nctaid.x
  | some .nctaidY => ctx.nctaid.y
  | some .laneId => BitVec.ofNat 32 lane
  | some .warpId => ctx.warpId
  | none => 0

end LaneContext

section Masks

theorem hasLane_eq (mask : LaneMask) (lane : Nat) : hasLane mask lane = mask.getLsbD lane := by
  rw [hasLane, laneBit, ← BitVec.twoPow_eq, BitVec.and_twoPow]
  by_cases hl : lane < 32
  · cases mask.getLsbD lane <;> simp [← BitVec.toNat_inj, BitVec.toNat_twoPow_of_lt hl]
  · simp [BitVec.getLsbD_of_ge _ _ (Nat.le_of_not_lt hl)]

theorem hasLane_lt {mask : LaneMask} {lane : Nat} (h : hasLane mask lane = true) : lane < 32 := by
  rw [hasLane_eq] at h
  exact BitVec.lt_of_getLsbD h

@[simp] theorem hasLane_zero (lane : Nat) : hasLane 0#32 lane = false := by
  simp [hasLane_eq]

@[simp] theorem hasLane_and (a b : LaneMask) (lane : Nat) :
    hasLane (a &&& b) lane = (hasLane a lane && hasLane b lane) := by
  simp [hasLane_eq]

@[simp] theorem hasLane_or (a b : LaneMask) (lane : Nat) :
    hasLane (a ||| b) lane = (hasLane a lane || hasLane b lane) := by
  simp [hasLane_eq]

@[simp] theorem hasLane_and_not (a b : LaneMask) (lane : Nat) :
    hasLane (a &&& ~~~b) lane = (hasLane a lane && !hasLane b lane) := by
  simp only [hasLane_eq, BitVec.getLsbD_and, BitVec.getLsbD_not]
  by_cases hl : lane < 32
  · simp [hl]
  · simp [BitVec.getLsbD_of_ge a lane (Nat.le_of_not_lt hl)]

@[simp] theorem hasLane_laneBit (lane l : Nat) :
    hasLane (laneBit lane) l = (decide (l = lane) && decide (lane < 32)) := by
  rw [hasLane_eq, laneBit, ← BitVec.twoPow_eq, BitVec.getLsbD_twoPow]
  by_cases h : l = lane
  · simp [h]
  · simp [h, Ne.symm h]

/-- Masks with the same lanes are equal. -/
theorem mask_ext {a b : LaneMask} (h : ∀ lane, hasLane a lane = hasLane b lane) : a = b := by
  apply BitVec.eq_of_getLsbD_eq
  intro lane _
  rw [← hasLane_eq, ← hasLane_eq, h]

theorem mask_ne_zero {m : LaneMask} : m ≠ 0 ↔ ∃ lane, hasLane m lane = true := by
  constructor
  · intro h
    by_contra hc
    refine h (mask_ext fun lane => ?_)
    rw [BitVec.ofNat_eq_ofNat, hasLane_zero, ← Bool.not_eq_true]
    exact fun hl => hc ⟨lane, hl⟩
  · rintro ⟨lane, h⟩ rfl
    simp at h

theorem mask_eq_zero {m : LaneMask} : m = 0 ↔ ∀ lane, hasLane m lane = false := by
  rw [← not_iff_not, ← Ne, mask_ne_zero]
  simp

theorem mem_lanes {lane : Nat} : lane ∈ lanes ↔ lane < 32 := by
  simp [lanes, warpSize]

theorem hasLane_mem_lanes {mask : LaneMask} {lane : Nat} (h : hasLane mask lane = true) :
    lane ∈ lanes :=
  mem_lanes.2 (hasLane_lt h)

end Masks

end WarpSim
