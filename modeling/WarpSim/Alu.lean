import WarpSim.Lane

/-!
# The arithmetic unit

Integer operations are computed here; the floating-point operations of the host are a parameter,
each a function of operand bits.
-/

namespace WarpSim

/-- The host's binary32 operations, on bits. -/
structure FloatOps where
  add : Word → Word → Word
  sub : Word → Word → Word
  mul : Word → Word → Word
  fma : Word → Word → Word → Word
  fmin : Word → Word → Word
  fmax : Word → Word → Word
  ofS32 : Word → Word
  isNan : Word → Bool
  /-- The conversion to a 32-bit integer of a value in its range. -/
  toS32 : Word → Word
  eq : Word → Word → Bool
  lt : Word → Word → Bool
  le : Word → Word → Bool
  gt : Word → Word → Bool
  ge : Word → Word → Bool

instance : Inhabited FloatOps :=
  ⟨{ add := fun _ _ => 0
     sub := fun _ _ => 0
     mul := fun _ _ => 0
     fma := fun _ _ _ => 0
     fmin := fun _ _ => 0
     fmax := fun _ _ => 0
     ofS32 := fun _ => 0
     isNan := fun _ => false
     toS32 := fun _ => 0
     eq := fun _ _ => false
     lt := fun _ _ => false
     le := fun _ _ => false
     gt := fun _ _ => false
     ge := fun _ _ => false }⟩

def shiftMask : Word := 31

def int32Min : Int := -2147483648

def s32Div (a b : Word) : Word :=
  if b.toInt = 0 then 0
  else if a.toInt = int32Min ∧ b.toInt = -1 then a
  else BitVec.ofInt 32 (a.toInt.tdiv b.toInt)

def s32Rem (a b : Word) : Word :=
  if b.toInt = 0 ∨ (a.toInt = int32Min ∧ b.toInt = -1) then 0
  else BitVec.ofInt 32 (a.toInt.tmod b.toInt)

def sra (a count : Word) : Word :=
  let n := count &&& shiftMask
  let logical := a >>> n.toNat
  if a.toInt < 0 ∧ 0 < n.toNat then logical ||| (~~~(0#32) <<< (32 - n.toNat)) else logical

/-- `2147483648.0F` and `-2147483648.0F`, the bounds of the saturating conversion. -/
def f32ToS32 (F : FloatOps) (bits : Word) : Word :=
  if F.isNan bits then 0
  else if F.ge bits 0x4F000000 then 0x7FFFFFFF
  else if F.le bits 0xCF000000 then 0x80000000
  else F.toS32 bits

def compareS32 (op : Opcode) (a b : Word) : Bool :=
  match op with
  | .setpEqS32 => a.toInt == b.toInt
  | .setpNeS32 => a.toInt != b.toInt
  | .setpLtS32 => a.toInt < b.toInt
  | .setpLeS32 => a.toInt ≤ b.toInt
  | .setpGtS32 => b.toInt < a.toInt
  | .setpGeS32 => b.toInt ≤ a.toInt
  | _ => false

def compareF32 (F : FloatOps) (op : Opcode) (a b : Word) : Bool :=
  match op with
  | .setpEqF32 => F.eq a b
  | .setpNeF32 => !F.eq a b
  | .setpLtF32 => F.lt a b
  | .setpLeF32 => F.le a b
  | .setpGtF32 => F.gt a b
  | .setpGeF32 => F.ge a b
  | _ => false

structure Operands where
  a : Word
  b : Word

def fetch (i : Instruction) (rf : RegisterFile) (lane : Nat) : Operands :=
  if (opcodeInfo i.opcode).shape = .rr then
    ⟨if i.immFlag then i.imm else rf.read lane i.src0, 0⟩
  else
    ⟨rf.read lane i.src0, if i.immFlag then i.imm else rf.read lane i.src1⟩

def evaluate (F : FloatOps) (i : Instruction) (o : Operands) (dstOld : Word) (lane : Nat)
    (ctx : LaneContext) : Word :=
  match i.opcode with
  | .add => o.a + o.b
  | .sub => o.a - o.b
  | .mul => o.a * o.b
  | .div => s32Div o.a o.b
  | .rem => s32Rem o.a o.b
  | .min => if o.b.toInt < o.a.toInt then o.b else o.a
  | .max => if o.a.toInt < o.b.toInt then o.b else o.a
  | .neg => 0 - o.a
  | .and => o.a &&& o.b
  | .or => o.a ||| o.b
  | .xor => o.a ^^^ o.b
  | .not => ~~~o.a
  | .shl => o.a <<< (o.b &&& shiftMask).toNat
  | .shr => o.a >>> (o.b &&& shiftMask).toNat
  | .sra => sra o.a o.b
  | .mov => o.a
  | .fAdd => F.add o.a o.b
  | .fSub => F.sub o.a o.b
  | .fMul => F.mul o.a o.b
  | .fFma => F.fma o.a o.b dstOld
  | .fMin => F.fmin o.a o.b
  | .fMax => F.fmax o.a o.b
  | .fNeg => o.a ^^^ 0x80000000
  | .cvtF32S32 => F.ofS32 o.a
  | .cvtS32F32 => f32ToS32 F o.a
  | .movSreg => ctx.special i.src0 lane
  | _ => 0

def isSetp (op : Opcode) : Bool :=
  Opcode.setpEqS32.number ≤ op.number && op.number ≤ Opcode.setpGeF32.number

def isSetpF32 (op : Opcode) : Bool := Opcode.setpEqF32.number ≤ op.number

/-- True for opcodes the ALU executes: everything except control flow, barriers and memory. -/
def isAluOpcode : Opcode → Bool
  | .bra | .exit | .barSync | .ldGlobal | .stGlobal | .ldShared | .stShared | .ldParam => false
  | _ => true

/-- The body of `execute_alu`'s loop over the lanes. -/
def executeAluLane (F : FloatOps) (i : Instruction) (ctx : LaneContext) (rf : RegisterFile)
    (lane : Nat) : RegisterFile :=
  let o := fetch i rf lane
  if isSetp i.opcode then
    rf.writePred lane i.dst
      (if isSetpF32 i.opcode then compareF32 F i.opcode o.a o.b else compareS32 i.opcode o.a o.b)
  else rf.write lane i.dst (evaluate F i o (rf.read lane i.dst) lane ctx)

def executeAlu (F : FloatOps) (i : Instruction) (exec : LaneMask) (rf : RegisterFile)
    (ctx : LaneContext) : RegisterFile :=
  lanes.foldl (fun rf lane => if hasLane exec lane then executeAluLane F i ctx rf lane else rf) rf

end WarpSim
