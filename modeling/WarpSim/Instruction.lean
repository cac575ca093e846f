import WarpSim.Opcode

/-!
# Instructions and their encoding

One decoded instruction, the check that it has a 64-bit word, and the two directions of the codec.
Every field of the struct is as wide as in the source, so a struct can hold values that no word
encodes; `validate` is what rejects them.
-/

namespace WarpSim

def generalRegisterCount : BitVec 8 := 64

def predicateRegisterCount : BitVec 8 := 8

/-- The reconvergence value meaning "no reconvergence point". -/
def noReconvergence : BitVec 16 := 0xFFFF

/-- A guard `@p` or `@!p`. -/
structure Guard where
  present : Bool := false
  negate : Bool := false
  pred : BitVec 8 := 0
  deriving DecidableEq

structure Instruction where
  opcode : Opcode := .exit
  guard : Guard := {}
  dst : BitVec 8 := 0
  src0 : BitVec 8 := 0
  src1 : BitVec 8 := 0
  immFlag : Bool := false
  imm : BitVec 32 := 0
  deriving DecidableEq

namespace Instruction

/-- The branch target, valid only for `bra`. -/
def branchTarget (i : Instruction) : BitVec 16 := (i.imm &&& 0xFFFF#32).setWidth 16

/-- The reconvergence PC, valid only for `bra`. -/
def reconvergencePc (i : Instruction) : BitVec 16 := (i.imm >>> 16).setWidth 16

/-- The `bra` immediate from its two halves. -/
def makeBranchImm (target reconvergence : BitVec 16) : BitVec 32 :=
  (reconvergence.setWidth 32 <<< 16) ||| target.setWidth 32

@[simp] theorem branchTarget_makeBranchImm (i : Instruction) (target reconvergence : BitVec 16) :
    branchTarget { i with imm := makeBranchImm target reconvergence } = target := by
  have hmask : ∀ (k : Nat) (hk : k < 16), (65535#16)[k] = true := by decide
  apply BitVec.eq_of_getLsbD_eq
  intro k hk
  simp [branchTarget, makeBranchImm, hmask, hk]

@[simp] theorem reconvergencePc_makeBranchImm (i : Instruction)
    (target reconvergence : BitVec 16) :
    reconvergencePc { i with imm := makeBranchImm target reconvergence } = reconvergence := by
  apply BitVec.eq_of_getLsbD_eq
  intro k hk
  simp only [reconvergencePc, makeBranchImm]
  grind

end Instruction

inductive IsaError where
  | invalidOpcode
  | guardFieldsWithoutGuard
  | unusedFieldNotZero
  | predicateOutOfRange
  | specialRegisterOutOfRange
  | immediateFlagMismatch
  deriving DecidableEq

def IsaError.toString : IsaError → String
  | invalidOpcode => "invalid opcode"
  | guardFieldsWithoutGuard => "guard fields set without a guard"
  | unusedFieldNotZero => "unused field is not zero"
  | predicateOutOfRange => "predicate register out of range"
  | specialRegisterOutOfRange => "special register index out of range"
  | immediateFlagMismatch => "immediate flag does not match the operand shape"

/-- Which fields a shape uses. A field that is not used must be zero. -/
structure FieldUse where
  dst : Bool
  src0 : Bool
  src1 : Bool
  immOptional : Bool
  immAlways : Bool
  immRaw : Bool

def fieldUse : Shape → FieldUse
  | .rrr | .prr => ⟨true, true, true, true, false, false⟩
  | .rr => ⟨true, true, false, true, false, false⟩
  | .acc => ⟨true, true, true, false, false, false⟩
  | .sreg => ⟨true, true, false, false, false, false⟩
  | .bra => ⟨false, false, false, false, false, true⟩
  | .none => ⟨false, false, false, false, false, false⟩
  | .ld => ⟨true, true, false, false, true, false⟩
  | .st => ⟨false, true, true, false, true, false⟩
  | .ldp => ⟨true, false, false, false, true, false⟩

def specialRegisterCount : BitVec 8 := BitVec.ofNat 8 specialRegisterTable.length

/-- The immediate's part of `validate`: which of the flag, the immediate and the source it
replaces may be set under the shape. -/
def validateImmediate (shape : Shape) (i : Instruction) : Except IsaError Unit :=
  let use := fieldUse shape
  if use.immAlways then
    if !i.immFlag then .error .immediateFlagMismatch else .ok ()
  else if use.immRaw then
    if i.immFlag then .error .immediateFlagMismatch else .ok ()
  else if use.immOptional then
    if i.immFlag then
      if (if shape = .rr then i.src0 else i.src1) ≠ 0 then .error .unusedFieldNotZero else .ok ()
    else if i.imm ≠ 0 then .error .unusedFieldNotZero
    else .ok ()
  else if i.immFlag then .error .immediateFlagMismatch
  else if i.imm ≠ 0 then .error .unusedFieldNotZero
  else .ok ()

/-- Checks that an instruction has exactly one encoding under its shape. -/
def validate (i : Instruction) : Except IsaError Unit :=
  match opcodeInfoOfNumber i.opcode.number with
  | none => .error .invalidOpcode
  | some info =>
    let use := fieldUse info.shape
    if !i.guard.present && (i.guard.negate || i.guard.pred ≠ 0) then
      .error .guardFieldsWithoutGuard
    else if predicateRegisterCount ≤ i.guard.pred then .error .predicateOutOfRange
    else if generalRegisterCount ≤ i.dst ∨ generalRegisterCount ≤ i.src0
        ∨ generalRegisterCount ≤ i.src1 then .error .unusedFieldNotZero
    else if !use.dst && i.dst ≠ 0 then .error .unusedFieldNotZero
    else if !use.src0 && i.src0 ≠ 0 then .error .unusedFieldNotZero
    else if !use.src1 && i.src1 ≠ 0 then .error .unusedFieldNotZero
    else do
      validateImmediate info.shape i
      if info.shape = .prr ∧ predicateRegisterCount ≤ i.dst then .error .predicateOutOfRange
      else if info.shape = .sreg ∧ specialRegisterCount ≤ i.src0 then
        .error .specialRegisterOutOfRange
      else .ok ()

/-- The word `encode` builds from a valid instruction's fields. -/
def packWord (i : Instruction) : BitVec 64 :=
  (i.opcode.number.setWidth 64 <<< 56) ||| ((BitVec.ofBool i.guard.present).setWidth 64 <<< 55)
    ||| ((BitVec.ofBool i.guard.negate).setWidth 64 <<< 54) ||| (i.guard.pred.setWidth 64 <<< 51)
    ||| (i.dst.setWidth 64 <<< 45) ||| (i.src0.setWidth 64 <<< 39) ||| (i.src1.setWidth 64 <<< 33)
    ||| ((BitVec.ofBool i.immFlag).setWidth 64 <<< 32) ||| i.imm.setWidth 64

def encode (i : Instruction) : Except IsaError (BitVec 64) := do
  validate i
  .ok (packWord i)

/-- The field of a word that starts at bit `shift`, under `mask`. -/
def wordField (word : BitVec 64) (shift : Nat) (mask : BitVec 64) : BitVec 64 :=
  (word >>> shift) &&& mask

/-- The instruction whose fields a word holds, before `decode` validates it. -/
def unpackWord (opcode : Opcode) (word : BitVec 64) : Instruction where
  opcode := opcode
  guard :=
    { present := wordField word 55 0x1 != 0
      negate := wordField word 54 0x1 != 0
      pred := (wordField word 51 0x7).setWidth 8 }
  dst := (wordField word 45 0x3F).setWidth 8
  src0 := (wordField word 39 0x3F).setWidth 8
  src1 := (wordField word 33 0x3F).setWidth 8
  immFlag := wordField word 32 0x1 != 0
  imm := (word &&& 0xFFFFFFFF).setWidth 32

def decode (word : BitVec 64) : Except IsaError Instruction :=
  match opcodeInfoOfNumber ((wordField word 56 0xFF).setWidth 8) with
  | none => .error .invalidOpcode
  | some info => do
    validate (unpackWord info.opcode word)
    .ok (unpackWord info.opcode word)

/-- The worked example of the specification, `@p1 add r3, r4, 7`. -/
example : encode ⟨.add, ⟨true, false, 1⟩, 3, 4, 0, true, 7⟩ = .ok 0x0188620100000007#64 := by
  decide

end WarpSim
