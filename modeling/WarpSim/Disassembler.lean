import WarpSim.Instruction
import WarpSim.Numerals

/-!
# The disassembler

Prints a program in the form that the assembler reads. Branch targets that the program's label map
does not name get a label of their own.
-/

namespace WarpSim

structure DisassemblyError where
  pc : Nat := 0
  message : String
  deriving DecidableEq

namespace Disassembler

/-- `std::to_string` with the letter of a register file. -/
def reg (index : BitVec 8) : Text := 'r' :: decimalText index.toNat

def pred (index : BitVec 8) : Text := 'p' :: decimalText index.toNat

def hex (bits : Word) : Text := '0' :: 'x' :: hexText bits.toNat

/-- Opcodes whose immediate is printed as a float literal when finite. -/
def printsFloatImmediate : Opcode → Bool
  | .fAdd | .fSub | .fMul | .fMin | .fMax | .fNeg | .cvtS32F32
  | .setpEqF32 | .setpNeF32 | .setpLtF32 | .setpLeF32 | .setpGtF32 | .setpGeF32 => true
  | _ => false

/-- The text of a finite float; one that would read as an integer gets a fraction. -/
def floatText (C : FloatChars) (bits : Word) : Text :=
  if '.' ∉ C.toChars bits ∧ 'e' ∉ C.toChars bits then C.toChars bits ++ ['.', '0']
  else C.toChars bits

/-- Shortest literal that reads back to the same bits. -/
def immediate (C : FloatChars) (i : Instruction) : Text :=
  if printsFloatImmediate i.opcode then
    if isFinite i.imm then floatText C i.imm else hex i.imm
  else if i.opcode = .mov then hex i.imm
  else signedDecimalText i.imm

def address (i : Instruction) : Text :=
  if i.imm = 0 then '[' :: reg i.src0 ++ [']']
  else if i.imm.toInt < 0 then
    '[' :: reg i.src0 ++ '-' :: decimalText (0 - i.imm).toNat ++ [']']
  else '[' :: reg i.src0 ++ '+' :: decimalText i.imm.toNat ++ [']']

def labelFor (pc : Pc) (labels : Pc → Option Text) : Text :=
  match labels pc with
  | some name => name
  | none => 'L' :: decimalText pc.toNat

def guardText (g : Guard) : Text :=
  if g.present then (if g.negate then ['@', '!'] else ['@']) ++ pred g.pred ++ [' '] else []

/-- One instruction in canonical form, without a label or a newline. -/
def formatInstruction (C : FloatChars) (i : Instruction) (labels : Pc → Option Text)
    (params : List Text) : Except DisassemblyError Text :=
  let info := opcodeInfo i.opcode
  let out := guardText i.guard ++ info.mnemonic.toList
  let last := if i.immFlag then immediate C i else reg i.src1
  match info.shape with
  | .rrr => .ok (out ++ ' ' :: reg i.dst ++ ", ".toList ++ reg i.src0 ++ ", ".toList ++ last)
  | .prr => .ok (out ++ ' ' :: pred i.dst ++ ", ".toList ++ reg i.src0 ++ ", ".toList ++ last)
  | .rr =>
    .ok (out ++ ' ' :: reg i.dst ++ ", ".toList
      ++ (if i.immFlag then immediate C i else reg i.src0))
  | .acc =>
    .ok (out ++ ' ' :: reg i.dst ++ ", ".toList ++ reg i.src0 ++ ", ".toList ++ reg i.src1)
  | .sreg =>
    match specialRegisterInfoOfIndex i.src0 with
    | none => .error { message := "special register out of range" }
    | some special => .ok (out ++ ' ' :: reg i.dst ++ ", ".toList ++ special.name.toList)
  | .bra =>
    .ok (out ++ ' ' :: labelFor i.branchTarget labels
      ++ if i.reconvergencePc ≠ noReconvergence then
          "    // reconverge ".toList ++ labelFor i.reconvergencePc labels
        else [])
  | .none => .ok out
  | .ld => .ok (out ++ ' ' :: reg i.dst ++ ", ".toList ++ address i)
  | .st => .ok (out ++ ' ' :: address i ++ ", ".toList ++ reg i.src1)
  | .ldp =>
    match params[i.imm.toNat]? with
    | none => .error { message := "parameter ordinal out of range" }
    | some name => .ok (out ++ ' ' :: reg i.dst ++ ", [".toList ++ name ++ [']'])

/-- `try_emplace` of a label for the target of one word. -/
def addLabel (labels : Pc → Option Text) (pc : Nat) (word : BitVec 64) :
    Except DisassemblyError (Pc → Option Text) :=
  match decode word with
  | .error e => .error { pc := pc, message := e.toString }
  | .ok i =>
    if i.opcode = .bra then
      .ok fun x => if x = i.branchTarget then some (labelFor x labels) else labels x
    else .ok labels

/-- The lines of one word: its label, if there is one, and its instruction. -/
def formatWord (C : FloatChars) (labels : Pc → Option Text) (params : List Text) (pc : Nat)
    (word : BitVec 64) : Except DisassemblyError Text :=
  match decode word with
  -- every word has been decoded once when the first line is printed
  | .error e => .error { pc := pc, message := e.toString }
  | .ok i =>
    match formatInstruction C i labels params with
    | .error e => .error { pc := pc, message := e.message }
    | .ok text =>
      .ok ((match labels (BitVec.ofNat 16 pc) with
        | some name => name ++ [':', '\n']
        | none => []) ++ "    ".toList ++ text ++ ['\n'])

end Disassembler

open Disassembler in
/-- Prints a whole program in canonical form. -/
def disassemble (C : FloatChars) (p : Program) : Except DisassemblyError Text := do
  let header := ".entry ".toList ++ p.entry ++ ['\n']
    ++ p.params.flatMap (fun param => ".param ".toList ++ param ++ ['\n'])
    ++ ".shared ".toList ++ decimalText p.sharedBytes.toNat ++ ['\n', '\n']
  let labels ← p.words.zipIdx.foldlM (fun labels w => addLabel labels w.2 w.1) p.labels
  let lines ← p.words.zipIdx.mapM fun w => formatWord C labels p.params w.2 w.1
  .ok (header ++ lines.flatten)

end WarpSim
