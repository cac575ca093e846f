import Mathlib.Algebra.Order.Ring.Int
import Mathlib.Data.List.Basic

/-!
# Opcodes and special registers

The opcode table of the instruction set, in specification order, and the special registers that
`mov.sreg` reads. Both enumerations are one byte wide.
-/

namespace WarpSim

/-- A value of the one-byte opcode enumeration. `other` is a byte that no enumerator names. -/
inductive Opcode where
  | add | sub | mul | div | rem | min | max | neg | and | or | xor | not | shl | shr | sra | mov
  | fAdd | fSub | fMul | fFma | fMin | fMax | fNeg | cvtF32S32 | cvtS32F32
  | setpEqS32 | setpNeS32 | setpLtS32 | setpLeS32 | setpGtS32 | setpGeS32
  | setpEqF32 | setpNeF32 | setpLtF32 | setpLeF32 | setpGtF32 | setpGeF32
  | movSreg | bra | exit | barSync
  | ldGlobal | stGlobal | ldShared | stShared | ldParam
  | other (n : {n : BitVec 8 // n = 0 ∨ 0x2E#8 < n})
  deriving DecidableEq

namespace Opcode

/-- The byte an opcode is stored as. -/
def number : Opcode → BitVec 8
  | add => 0x01 | sub => 0x02 | mul => 0x03 | div => 0x04 | rem => 0x05 | min => 0x06
  | max => 0x07 | neg => 0x08 | and => 0x09 | or => 0x0A | xor => 0x0B | not => 0x0C
  | shl => 0x0D | shr => 0x0E | sra => 0x0F | mov => 0x10 | fAdd => 0x11 | fSub => 0x12
  | fMul => 0x13 | fFma => 0x14 | fMin => 0x15 | fMax => 0x16 | fNeg => 0x17
  | cvtF32S32 => 0x18 | cvtS32F32 => 0x19
  | setpEqS32 => 0x1A | setpNeS32 => 0x1B | setpLtS32 => 0x1C | setpLeS32 => 0x1D
  | setpGtS32 => 0x1E | setpGeS32 => 0x1F
  | setpEqF32 => 0x20 | setpNeF32 => 0x21 | setpLtF32 => 0x22 | setpLeF32 => 0x23
  | setpGtF32 => 0x24 | setpGeF32 => 0x25
  | movSreg => 0x26 | bra => 0x27 | exit => 0x28 | barSync => 0x29
  | ldGlobal => 0x2A | stGlobal => 0x2B | ldShared => 0x2C | stShared => 0x2D | ldParam => 0x2E
  | other n => n.1

end Opcode

/-- Operand shapes. The shape decides which encoding fields an opcode uses. -/
inductive Shape where
  | rrr | rr | acc | prr | sreg | bra | none | ld | st | ldp
  deriving DecidableEq

structure OpcodeInfo where
  opcode : Opcode
  mnemonic : String
  shape : Shape

/-- The complete opcode table in specification order. -/
def opcodeTable : List OpcodeInfo :=
  [⟨.add, "add", .rrr⟩, ⟨.sub, "sub", .rrr⟩, ⟨.mul, "mul", .rrr⟩, ⟨.div, "div", .rrr⟩,
    ⟨.rem, "rem", .rrr⟩, ⟨.min, "min", .rrr⟩, ⟨.max, "max", .rrr⟩, ⟨.neg, "neg", .rr⟩,
    ⟨.and, "and", .rrr⟩, ⟨.or, "or", .rrr⟩, ⟨.xor, "xor", .rrr⟩, ⟨.not, "not", .rr⟩,
    ⟨.shl, "shl", .rrr⟩, ⟨.shr, "shr", .rrr⟩, ⟨.sra, "sra", .rrr⟩, ⟨.mov, "mov", .rr⟩,
    ⟨.fAdd, "fadd", .rrr⟩, ⟨.fSub, "fsub", .rrr⟩, ⟨.fMul, "fmul", .rrr⟩, ⟨.fFma, "ffma", .acc⟩,
    ⟨.fMin, "fmin", .rrr⟩, ⟨.fMax, "fmax", .rrr⟩, ⟨.fNeg, "fneg", .rr⟩,
    ⟨.cvtF32S32, "cvt.f32.s32", .rr⟩, ⟨.cvtS32F32, "cvt.s32.f32", .rr⟩,
    ⟨.setpEqS32, "setp.eq.s32", .prr⟩, ⟨.setpNeS32, "setp.ne.s32", .prr⟩,
    ⟨.setpLtS32, "setp.lt.s32", .prr⟩, ⟨.setpLeS32, "setp.le.s32", .prr⟩,
    ⟨.setpGtS32, "setp.gt.s32", .prr⟩, ⟨.setpGeS32, "setp.ge.s32", .prr⟩,
    ⟨.setpEqF32, "setp.eq.f32", .prr⟩, ⟨.setpNeF32, "setp.ne.f32", .prr⟩,
    ⟨.setpLtF32, "setp.lt.f32", .prr⟩, ⟨.setpLeF32, "setp.le.f32", .prr⟩,
    ⟨.setpGtF32, "setp.gt.f32", .prr⟩, ⟨.setpGeF32, "setp.ge.f32", .prr⟩,
    ⟨.movSreg, "mov.sreg", .sreg⟩, ⟨.bra, "bra", .bra⟩, ⟨.exit, "exit", .none⟩,
    ⟨.barSync, "bar.sync", .none⟩, ⟨.ldGlobal, "ld.global", .ld⟩, ⟨.stGlobal, "st.global", .st⟩,
    ⟨.ldShared, "ld.shared", .ld⟩, ⟨.stShared, "st.shared", .st⟩, ⟨.ldParam, "ld.param", .ldp⟩]

/-- `opcode_info` by number. -/
def opcodeInfoOfNumber (number : BitVec 8) : Option OpcodeInfo :=
  opcodeTable.find? fun entry => entry.opcode.number == number

/-- `opcode_info` by opcode, which falls back to the front of the table. -/
def opcodeInfo (opcode : Opcode) : OpcodeInfo :=
  (opcodeInfoOfNumber opcode.number).getD ⟨.add, "add", .rrr⟩

/-- `opcode_info` by mnemonic. -/
def opcodeInfoOfMnemonic (mnemonic : String) : Option OpcodeInfo :=
  opcodeTable.find? fun entry => entry.mnemonic == mnemonic

inductive SpecialRegister where
  | tidX | tidY | ntidX | ntidY | ctaidX | ctaidY | nctaidX | nctaidY | laneId | warpId
  deriving DecidableEq

def SpecialRegister.number : SpecialRegister → BitVec 8
  | tidX => 0 | tidY => 1 | ntidX => 2 | ntidY => 3 | ctaidX => 4 | ctaidY => 5
  | nctaidX => 6 | nctaidY => 7 | laneId => 8 | warpId => 9

structure SpecialRegisterInfo where
  reg : SpecialRegister
  name : String

def specialRegisterTable : List SpecialRegisterInfo :=
  [⟨.tidX, "%tid.x"⟩, ⟨.tidY, "%tid.y"⟩, ⟨.ntidX, "%ntid.x"⟩, ⟨.ntidY, "%ntid.y"⟩,
    ⟨.ctaidX, "%ctaid.x"⟩, ⟨.ctaidY, "%ctaid.y"⟩, ⟨.nctaidX, "%nctaid.x"⟩,
    ⟨.nctaidY, "%nctaid.y"⟩, ⟨.laneId, "%laneid"⟩, ⟨.warpId, "%warpid"⟩]

/-- `special_register_info` by name. -/
def specialRegisterInfoOfName (name : String) : Option SpecialRegisterInfo :=
  specialRegisterTable.find? fun entry => entry.name == name

/-- `special_register_info` by index. -/
def specialRegisterInfoOfIndex (index : BitVec 8) : Option SpecialRegisterInfo :=
  specialRegisterTable.find? fun entry => entry.reg.number == index

end WarpSim
