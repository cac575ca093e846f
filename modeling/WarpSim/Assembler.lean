import WarpSim.Lexer
import WarpSim.Numerals
import WarpSim.Reconvergence

/-!
# The assembler

One pass over the tokens builds the words, records the labels and leaves the branches pending;
two more over the words write the branch targets and the reconvergence points.
-/

namespace WarpSim

/-- A branch whose target label is resolved after the whole program is parsed. -/
structure PendingBranch where
  pc : Nat
  label : Text
  line : Word
  column : Word

/-- The parser. Its tokens are those from the current one on. -/
structure Parser where
  tokens : List Token
  program : Program := {}
  labels : Text → Option Pc := fun _ => none
  pending : List PendingBranch := []

abbrev ParserM := StateT Parser (Except Stop)

/-- Opcodes whose immediate-capable operand may be written as a float literal. -/
def acceptsFloatImmediate : Opcode → Bool
  | .fAdd | .fSub | .fMul | .fMin | .fMax | .fNeg | .cvtS32F32
  | .setpEqF32 | .setpNeF32 | .setpLtF32 | .setpLeF32 | .setpGtF32 | .setpGeF32 | .mov => true
  | _ => false

namespace Parser

section Tokens

def cur : ParserM Token := do
  match (← get).tokens with
  | [] => throw .index
  | t :: _ => return t

/-- The token after the current one. -/
def peek : ParserM Token := do
  match (← get).tokens with
  | _ :: t :: _ => return t
  | _ => throw .index

def atKind (kind : TokenKind) : ParserM Bool := do return (← cur).kind == kind

def next : ParserM Unit := modify fun s =>
  match s.tokens with
  | _ :: t :: ts => { s with tokens := t :: ts }
  | _ => s

def fail {α : Type} (message : String) : ParserM α := do
  let t ← cur
  throw (.error ⟨t.line, t.column, message⟩)

def expect (kind : TokenKind) (what : String) : ParserM Unit := do
  if ← atKind kind then next else fail ("expected " ++ what)

def endOfLine : ParserM Unit := do
  let t ← cur
  if t.kind = .newline ∨ t.kind = .sourceEnd then return
  else fail ("unexpected token '" ++ String.ofList t.text ++ "' at end of line")

end Tokens

section Operands

/-- An unsigned integer literal that fits in 32 bits. -/
def integerLiteral : ParserM Word := do
  let t ← cur
  if t.kind ≠ .integer then fail "expected an integer"
  else
    let hex := t.text.take 2 = ['0', 'x']
    match parseNumber 64 (if hex then 16 else 10) (if hex then t.text.drop 2 else t.text) with
    | some value =>
      if 0xFFFFFFFF < value then
        fail ("integer does not fit in 32 bits: '" ++ String.ofList t.text ++ "'")
      else
        next
        return BitVec.ofNat 32 value
    | none => fail ("integer does not fit in 32 bits: '" ++ String.ofList t.text ++ "'")

/-- Leading zeros such as `r01` are rejected so that every register has one spelling. -/
def registerIndex (text : Text) (first : Char) (count : BitVec 8) : Option (BitVec 8) :=
  match text with
  | c :: d :: ds =>
    if c ≠ first then none
    else
      match parseNumber 32 10 (d :: ds) with
      | none => none
      | some value =>
        if count.toNat ≤ value then none
        else if ds ≠ [] ∧ d = '0' then none
        else some (BitVec.ofNat 8 value)
  | _ => none

def predicateName (text : Text) : Option (BitVec 8) :=
  registerIndex text 'p' predicateRegisterCount

def generalRegister : ParserM (BitVec 8) := do
  let t ← cur
  if t.kind = .identifier then
    match registerIndex t.text 'r' generalRegisterCount with
    | some index =>
      next
      return index
    | none => fail "expected a general register r0..r63"
  else fail "expected a general register r0..r63"

def comma : ParserM Unit := expect .comma "','"

def dstReg (out : Instruction) : ParserM Instruction := do
  return { out with dst := ← generalRegister }

def src0Reg (out : Instruction) : ParserM Instruction := do
  return { out with src0 := ← generalRegister }

def src1Reg (out : Instruction) : ParserM Instruction := do
  return { out with src1 := ← generalRegister }

def dstPred (out : Instruction) : ParserM Instruction := do
  let t ← cur
  if t.kind = .identifier then
    match predicateName t.text with
    | some index =>
      next
      return { out with dst := index }
    | none => fail "expected a predicate register p0..p7"
  else fail "expected a predicate register p0..p7"

def special (out : Instruction) : ParserM Instruction := do
  let t ← cur
  if t.kind = .special then
    match specialRegisterInfoOfName (String.ofList t.text) with
    | some info =>
      next
      return { out with src0 := info.reg.number }
    | none => fail ("unknown special register '" ++ String.ofList t.text ++ "'")
  else fail "expected a special register"

variable (C : FloatChars)

/-- The value of an immediate after its sign. -/
def unsignedImmediate (opcode : Opcode) (negative : Bool) : ParserM Word := do
  let t ← cur
  if t.kind = .float then
    if !acceptsFloatImmediate opcode then fail "float immediate is not valid for this instruction"
    else
      match C.fromChars t.text with
      | none => fail ("invalid float literal '" ++ String.ofList t.text ++ "'")
      | some value =>
        next
        return if negative then negateFloat value else value
  else if t.kind ≠ .integer then fail "expected a register or an immediate"
  else
    let magnitude ← integerLiteral
    if negative then
      if 0x80000000 < magnitude then fail "immediate does not fit in 32 bits"
      else return 0 - magnitude
    else return magnitude

/-- An immediate operand: `[-]integer` or `[-]float`. -/
def immediateValue (opcode : Opcode) : ParserM Word := do
  if ← atKind .minus then
    next
    unsignedImmediate C opcode true
  else unsignedImmediate C opcode false

def immediate (out : Instruction) : ParserM Instruction := do
  return { out with imm := ← immediateValue C out.opcode, immFlag := true }

def src1RegOrImm (out : Instruction) : ParserM Instruction := do
  if ← atKind .identifier then src1Reg out else immediate C out

def src0RegOrImm (out : Instruction) : ParserM Instruction := do
  if ← atKind .identifier then src0Reg out else immediate C out

/-- The offset of an address after its sign, if there is one, and the closing bracket. -/
def addressOffset : ParserM Word := do
  if ← atKind .plus then
    next
    let offset ← integerLiteral
    expect .rBracket "']'"
    return offset
  else if ← atKind .minus then
    next
    let offset ← integerLiteral
    expect .rBracket "']'"
    return 0 - offset
  else
    expect .rBracket "']'"
    return 0

def address (out : Instruction) : ParserM Instruction := do
  expect .lBracket "'['"
  let base ← generalRegister
  let offset ← addressOffset
  return { out with src0 := base, immFlag := true, imm := offset }

def paramRef (out : Instruction) : ParserM Instruction := do
  expect .lBracket "'['"
  let t ← cur
  if t.kind ≠ .identifier then fail "expected a parameter name"
  else
    match (← get).program.params.findIdx? (· = t.text) with
    | some i =>
      next
      expect .rBracket "']'"
      return { out with immFlag := true, imm := BitVec.ofNat 32 i }
    | none => fail ("undeclared parameter '" ++ String.ofList t.text ++ "'")

/-- The target is patched once all labels are known. -/
def branchTarget (out : Instruction) : ParserM Instruction := do
  let t ← cur
  if t.kind ≠ .identifier then fail "expected a label"
  else
    modify fun s =>
      { s with pending := s.pending ++ [⟨s.program.words.length, t.text, t.line, t.column⟩] }
    next
    return { out with imm := Instruction.makeBranchImm 0 noReconvergence }

def commaThen (step : Instruction → ParserM Instruction) (out : Instruction) :
    ParserM Instruction := do
  comma
  step out

def parseOperands (shape : Shape) (out : Instruction) : ParserM Instruction :=
  match shape with
  | .rrr => dstReg out >>= commaThen src0Reg >>= commaThen (src1RegOrImm C)
  | .rr => dstReg out >>= commaThen (src0RegOrImm C)
  | .acc => dstReg out >>= commaThen src0Reg >>= commaThen src1Reg
  | .prr => dstPred out >>= commaThen src0Reg >>= commaThen (src1RegOrImm C)
  | .sreg => dstReg out >>= commaThen special
  | .bra => branchTarget out
  | .none => return out
  | .ld => dstReg out >>= commaThen address
  | .st => address out >>= commaThen src1Reg
  | .ldp => dstReg out >>= commaThen paramRef

end Operands

section Lines

variable (C : FloatChars)

def entry : ParserM Unit := do
  let s ← get
  if s.program.entry ≠ [] then fail "duplicate .entry"
  else if s.program.words ≠ [] then fail ".entry must precede the first instruction"
  else
    let t ← cur
    if t.kind ≠ .identifier then fail "expected a kernel name after .entry"
    else
      modify fun s => { s with program := { s.program with entry := t.text } }
      next
      endOfLine

def param : ParserM Unit := do
  let t ← cur
  if t.kind ≠ .identifier then fail "expected a parameter name after .param"
  else if t.text ∈ (← get).program.params then
    fail ("duplicate parameter '" ++ String.ofList t.text ++ "'")
  else
    modify fun s => { s with program := { s.program with params := s.program.params ++ [t.text] } }
    next
    endOfLine

def shared : ParserM Unit := do
  let value ← integerLiteral
  modify fun s => { s with program := { s.program with sharedBytes := value } }
  endOfLine

def directive : ParserM Unit := do
  let name := (← cur).text
  next
  if name = ".entry".toList then entry
  else if name = ".param".toList then param
  else if name = ".shared".toList then shared
  else fail ("unknown directive '" ++ String.ofList name ++ "'")

def atLabel : ParserM Bool := do
  if ← atKind .identifier then return (← peek).kind == .colon else return false

/-- A map with an entry added where there was none. -/
def emplace {α β : Type} [DecidableEq α] (map : α → Option β) (a : α) (b : β) : α → Option β :=
  fun x => if x = a ∧ map a = none then some b else map x

def defineLabel : ParserM Unit := do
  let t ← cur
  if ((← get).labels t.text).isSome then
    fail ("duplicate label '" ++ String.ofList t.text ++ "'")
  else
    modify fun s =>
      let pc := BitVec.ofNat 16 s.program.words.length
      { s with
        labels := emplace s.labels t.text pc
        program := { s.program with labels := emplace s.program.labels pc t.text } }
    next
    next

def guard : ParserM Guard := do
  let t ← cur
  if t.kind = .guard then
    match predicateName t.text with
    | none => fail ("invalid guard predicate '" ++ String.ofList t.text ++ "'")
    | some pred =>
      next
      return { present := true, negate := t.negate, pred := pred }
  else return {}

def mnemonic : ParserM OpcodeInfo := do
  let t ← cur
  if t.kind ≠ .identifier then fail "expected an instruction mnemonic"
  else
    match opcodeInfoOfMnemonic (String.ofList t.text) with
    | none => fail ("unknown mnemonic '" ++ String.ofList t.text ++ "'")
    | some info =>
      next
      return info

/-- `[guard] mnemonic operands`. -/
def instruction : ParserM Unit := do
  let guard ← guard
  let info ← mnemonic
  let i ← parseOperands C info.shape { opcode := info.opcode, guard := guard }
  endOfLine
  match encode i with
  | .error e => fail e.toString
  | .ok word =>
    modify fun s => { s with program := { s.program with words := s.program.words ++ [word] } }

/-- `[label:] [guard] mnemonic operands`, where a label may stand alone. -/
def statement : ParserM Unit := do
  if ← atLabel then
    defineLabel
    if ← atKind .newline then return
    else instruction C
  else instruction C

def lines : Nat → ParserM Unit
  | 0 => throw .fuel
  | fuel + 1 => do
    if ← atKind .sourceEnd then return
    else if ← atKind .newline then
      next
      lines fuel
    else if ← atKind .directive then
      directive
      lines fuel
    else
      statement C
      lines fuel

end Lines

section Passes

/-- The value of a result, which is not an error. -/
def valueOf {ε α : Type} : Except ε α → Except Stop α
  | .ok a => .ok a
  | .error _ => .error .value

def resolveBranch (labels : Text → Option Pc) (words : List (BitVec 64)) (b : PendingBranch) :
    Except Stop (List (BitVec 64)) :=
  match labels b.label with
  | none => .error (.error ⟨b.line, b.column, "undefined label '" ++ String.ofList b.label ++ "'"⟩)
  | some target =>
    match words[b.pc]? with
    | none => .error .index
    | some word => do
      let i ← valueOf (decode word)
      let word ← valueOf
        (encode { i with imm := Instruction.makeBranchImm target noReconvergence })
      .ok (words.set b.pc word)

/-- Final pass: decode, write reconvergence points, re-encode. -/
def annotate (words : List (BitVec 64)) : Except Stop (List (BitVec 64)) := do
  let decoded ← words.mapM fun word => valueOf (decode word)
  match annotateReconvergence decoded with
  | (.error e, _) => .error (.error ⟨0, 0, e.message⟩)
  | (.ok (), decoded) => decoded.mapM fun i => valueOf (encode i)

/-- What `run` does once all lines are parsed. -/
def finish (s : Parser) : Except Stop Program :=
  if s.program.entry = [] then .error (.error ⟨1, 1, "missing .entry"⟩)
  else if noReconvergence.toNat < s.program.words.length then
    .error (.error ⟨1, 1, "program exceeds 65535 instructions"⟩)
  else do
    let words ← s.pending.foldlM (resolveBranch s.labels) s.program.words
    .ok { s.program with words := ← annotate words }

end Passes

end Parser

/-- Assembles source text into a program. -/
def assemble (C : FloatChars) (source : Text) : Except Stop Program := do
  let tokens ← lex source
  let (_, s) ← Parser.lines C (tokens.length + 1) { tokens := tokens }
  s.finish

end WarpSim
