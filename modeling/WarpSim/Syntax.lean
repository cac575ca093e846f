import WarpSim.Assembler

/-!
# The language of the assembler

What a source text says, as a list of lines, and which tokens spell a line. Nothing here runs:
the parser is proved to accept these lines, and to turn them into the program they describe.
-/

namespace WarpSim

/-- An operand as it is written. A label keeps its position, for the diagnostic. -/
inductive Operand where
  | register (index : BitVec 8)
  | predicate (index : BitVec 8)
  | immediate (value : Word)
  | special (reg : SpecialRegister)
  | label (name : Text) (line column : Word)
  | address (base : BitVec 8) (offset : Word)
  | parameter (name : Text)

/-- An instruction statement, `[guard] mnemonic operands`. -/
structure Statement where
  guard : Guard
  info : OpcodeInfo
  operands : List Operand

/-- A line of a source: a directive, or an optional label and an optional statement. -/
inductive Line where
  | entry (name : Text)
  | param (name : Text)
  | shared (bytes : Word)
  | code (label : Option Text) (statement : Option Statement)

section Values

/-- The value of an integer literal. -/
def integerValue (text : Text) : Option Word :=
  let hex := text.take 2 = ['0', 'x']
  (parseNumber 64 (if hex then 16 else 10) (if hex then text.drop 2 else text)).bind fun value =>
    if 0xFFFFFFFF < value then none else some (BitVec.ofNat 32 value)

/-- The label of a branch. -/
def Operand.target? : Operand → Option Text
  | .label name _ _ => some name
  | _ => none

/-- What a branch leaves to be resolved. -/
def Operand.pending (pc : Nat) : Operand → List PendingBranch
  | .label name line column => [⟨pc, name, line, column⟩]
  | _ => []

/-- The places of operands in an instruction. -/
inductive Slot where
  | dst | src0 | src1 | src0OrImm | src1OrImm | dstPred | special | target | address | param
  deriving DecidableEq

def Shape.slots : Shape → List Slot
  | .rrr => [.dst, .src0, .src1OrImm]
  | .rr => [.dst, .src0OrImm]
  | .acc => [.dst, .src0, .src1]
  | .prr => [.dstPred, .src0, .src1OrImm]
  | .sreg => [.dst, .special]
  | .bra => [.target]
  | .none => []
  | .ld => [.dst, .address]
  | .st => [.address, .src1]
  | .ldp => [.dst, .param]

/-- Which operands may stand in a place. -/
def Slot.Takes : Slot → Operand → Prop
  | .dst, .register _ | .src0, .register _ | .src1, .register _ | .src0OrImm, .register _
  | .src1OrImm, .register _ | .src0OrImm, .immediate _ | .src1OrImm, .immediate _
  | .dstPred, .predicate _ | .special, .special _ | .target, .label _ _ _
  | .address, .address _ _ | .param, .parameter _ => True
  | _, _ => False

/-- An instruction with an operand put in a place; `none` if the operand is not of its kind, or
names no parameter. -/
def Slot.fill (params : List Text) (target : Text → Pc) :
    Slot → Operand → Instruction → Option Instruction
  | .dst, .register n, i => some { i with dst := n }
  | .src0, .register n, i => some { i with src0 := n }
  | .src1, .register n, i => some { i with src1 := n }
  | .src0OrImm, .register n, i => some { i with src0 := n }
  | .src0OrImm, .immediate value, i => some { i with imm := value, immFlag := true }
  | .src1OrImm, .register n, i => some { i with src1 := n }
  | .src1OrImm, .immediate value, i => some { i with imm := value, immFlag := true }
  | .dstPred, .predicate n, i => some { i with dst := n }
  | .special, .special reg, i => some { i with src0 := reg.number }
  | .target, .label name _ _, i =>
    some { i with imm := Instruction.makeBranchImm (target name) noReconvergence }
  | .address, .address base offset, i =>
    some { i with src0 := base, immFlag := true, imm := offset }
  | .param, .parameter name, i =>
    (params.findIdx? (· = name)).map fun k => { i with immFlag := true, imm := BitVec.ofNat 32 k }
  | _, _, _ => none

/-- An instruction with the operands put in the places, one each. -/
def fillSlots (params : List Text) (target : Text → Pc) :
    List Slot → List Operand → Instruction → Option Instruction
  | [], [], i => some i
  | s :: ss, o :: os, i => (s.fill params target o i).bind (fillSlots params target ss os)
  | _, _, _ => none

/-- The instruction that a statement describes, before its branch reconverges. -/
def Statement.instruction (params : List Text) (target : Text → Pc) (st : Statement) :
    Option Instruction :=
  fillSlots params target st.info.shape.slots st.operands
    { opcode := st.info.opcode, guard := st.guard }

def Statement.pending (pc : Nat) (st : Statement) : List PendingBranch :=
  st.operands.flatMap (Operand.pending pc)

end Values

section Spelling

def IsIdentifier (text : Text) : Prop :=
  ∃ c cs, text = c :: cs ∧ isIdentStart c = true ∧ ∀ d ∈ cs, isIdentChar d = true

/-- A token that names a general register. -/
def Token.IsRegister (t : Token) (index : BitVec 8) : Prop :=
  t.kind = .identifier ∧ Parser.registerIndex t.text 'r' generalRegisterCount = some index

def Token.IsPredicate (t : Token) (index : BitVec 8) : Prop :=
  t.kind = .identifier ∧ Parser.predicateName t.text = some index

def Token.IsInteger (t : Token) (value : Word) : Prop :=
  t.kind = .integer ∧ integerValue t.text = some value

def Token.IsFloat (C : FloatChars) (t : Token) (value : Word) : Prop :=
  t.kind = .float ∧ C.fromChars t.text = some value

def Token.IsSpecial (t : Token) (reg : SpecialRegister) : Prop :=
  t.kind = .special
    ∧ (specialRegisterInfoOfName (String.ofList t.text)).map SpecialRegisterInfo.reg = some reg

/-- The magnitude of an immediate: an integer, or a float where the opcode takes one. -/
inductive SpellsMagnitude (C : FloatChars) (opcode : Opcode) (negative : Bool) :
    List Token → Word → Prop
  | integer {t : Token} {value : Word} (h : t.IsInteger value)
      (hneg : negative = true → value ≤ 0x80000000) :
      SpellsMagnitude C opcode negative [t] (if negative then 0 - value else value)
  | float {t : Token} {value : Word} (h : t.IsFloat C value)
      (hop : acceptsFloatImmediate opcode = true) :
      SpellsMagnitude C opcode negative [t] (if negative then negateFloat value else value)

/-- An immediate, `[-]integer` or `[-]float`. -/
inductive SpellsImmediate (C : FloatChars) (opcode : Opcode) : List Token → Word → Prop
  | positive {ts : List Token} {value : Word} (h : SpellsMagnitude C opcode false ts value) :
      SpellsImmediate C opcode ts value
  | negative {m : Token} {ts : List Token} {value : Word} (hm : m.kind = .minus)
      (h : SpellsMagnitude C opcode true ts value) : SpellsImmediate C opcode (m :: ts) value

/-- The offset of an address with its bracket: `]`, `+integer]` or `-integer]`. -/
inductive SpellsOffset : List Token → Word → Prop
  | none {r : Token} (hr : r.kind = .rBracket) : SpellsOffset [r] 0
  | plus {s t r : Token} {value : Word} (hs : s.kind = .plus) (ht : t.IsInteger value)
      (hr : r.kind = .rBracket) : SpellsOffset [s, t, r] value
  | minus {s t r : Token} {value : Word} (hs : s.kind = .minus) (ht : t.IsInteger value)
      (hr : r.kind = .rBracket) : SpellsOffset [s, t, r] (0 - value)

/-- The tokens that spell an operand of an opcode. -/
inductive Operand.Spells (C : FloatChars) (opcode : Opcode) : List Token → Operand → Prop
  | register {t : Token} {n : BitVec 8} (h : t.IsRegister n) : Spells C opcode [t] (.register n)
  | predicate {t : Token} {n : BitVec 8} (h : t.IsPredicate n) :
      Spells C opcode [t] (.predicate n)
  | immediate {ts : List Token} {value : Word} (h : SpellsImmediate C opcode ts value) :
      Spells C opcode ts (.immediate value)
  | special {t : Token} {reg : SpecialRegister} (h : t.IsSpecial reg) :
      Spells C opcode [t] (.special reg)
  | label {t : Token} (h : t.kind = .identifier) :
      Spells C opcode [t] (.label t.text t.line t.column)
  | address {l b : Token} {ts : List Token} {n : BitVec 8} {offset : Word}
      (hl : l.kind = .lBracket) (hb : b.IsRegister n) (ho : SpellsOffset ts offset) :
      Spells C opcode (l :: b :: ts) (.address n offset)
  | parameter {l t r : Token} (hl : l.kind = .lBracket) (ht : t.kind = .identifier)
      (hr : r.kind = .rBracket) : Spells C opcode [l, t, r] (.parameter t.text)

/-- Further operands, a comma before each. -/
inductive SpellsRest (C : FloatChars) (opcode : Opcode) : List Token → List Operand → Prop
  | nil : SpellsRest C opcode [] []
  | cons {c : Token} {ts us : List Token} {o : Operand} {os : List Operand}
      (hc : c.kind = .comma) (h : o.Spells C opcode ts) (rest : SpellsRest C opcode us os) :
      SpellsRest C opcode (c :: ts ++ us) (o :: os)

/-- Operands with commas between them. -/
inductive SpellsOperands (C : FloatChars) (opcode : Opcode) : List Token → List Operand → Prop
  | nil : SpellsOperands C opcode [] []
  | cons {ts us : List Token} {o : Operand} {os : List Operand} (h : o.Spells C opcode ts)
      (rest : SpellsRest C opcode us os) : SpellsOperands C opcode (ts ++ us) (o :: os)

/-- A guard, which may be absent. -/
inductive SpellsGuard : List Token → Guard → Prop
  | absent : SpellsGuard [] {}
  | present {t : Token} {pred : BitVec 8} (h : t.kind = .guard)
      (hp : Parser.predicateName t.text = some pred) :
      SpellsGuard [t] { present := true, negate := t.negate, pred := pred }

/-- The tokens of a statement, with the operands of the mnemonic's shape. -/
inductive Statement.Spells (C : FloatChars) : List Token → Statement → Prop
  | mk {ts us : List Token} {m : Token} {st : Statement} (hg : SpellsGuard ts st.guard)
      (hm : m.kind = .identifier)
      (hi : opcodeInfoOfMnemonic (String.ofList m.text) = some st.info)
      (ho : SpellsOperands C st.info.opcode us st.operands)
      (hk : List.Forall₂ Slot.Takes st.info.shape.slots st.operands) : Spells C (ts ++ m :: us) st

/-- The tokens of a line, without the newline. -/
inductive Line.Spells (C : FloatChars) : List Token → Line → Prop
  | entry {d t : Token} (hd : d.kind = .directive) (hn : d.text = ".entry".toList)
      (ht : t.kind = .identifier) : Spells C [d, t] (.entry t.text)
  | param {d t : Token} (hd : d.kind = .directive) (hn : d.text = ".param".toList)
      (ht : t.kind = .identifier) : Spells C [d, t] (.param t.text)
  | shared {d t : Token} {bytes : Word} (hd : d.kind = .directive) (hn : d.text = ".shared".toList)
      (ht : t.IsInteger bytes) : Spells C [d, t] (.shared bytes)
  | blank : Spells C [] (.code none none)
  | label {t c : Token} (ht : t.kind = .identifier) (hc : c.kind = .colon) :
      Spells C [t, c] (.code (some t.text) none)
  | statement {ts : List Token} {st : Statement} (h : st.Spells C ts) :
      Spells C ts (.code none (some st))
  | labelled {t c : Token} {ts : List Token} {st : Statement} (ht : t.kind = .identifier)
      (hc : c.kind = .colon) (h : st.Spells C ts) :
      Spells C (t :: c :: ts) (.code (some t.text) (some st))

/-- The tokens of a whole source: every line with its newline, then the end. -/
inductive SpellsLines (C : FloatChars) : List Token → List Line → Prop
  | nil {e : Token} (he : e.kind = .sourceEnd) : SpellsLines C [e] []
  | cons {ts us : List Token} {n : Token} {l : Line} {ls : List Line} (h : l.Spells C ts)
      (hn : n.kind = .newline) (rest : SpellsLines C us ls) :
      SpellsLines C (ts ++ n :: us) (l :: ls)

end Spelling

section Meaning

def Line.statement? : Line → Option Statement
  | .code _ st => st
  | _ => none

def Line.label? : Line → Option Text
  | .code label _ => label
  | _ => none

def Line.param? : Line → Option Text
  | .param name => some name
  | _ => none

/-- The lines of a source text. -/
abbrev Source := List Line

namespace Source

/-- The instruction statements, in order. -/
def statements (ls : Source) : List Statement := ls.filterMap Line.statement?

/-- The declared parameters, in order. -/
def params (ls : Source) : List Text := ls.filterMap Line.param?

/-- The labels that lines define, each with the number of statements before it, of which `n` are
before the first line. -/
def definitionsFrom : Nat → Source → List (Text × Nat)
  | _, [] => []
  | n, l :: ls =>
    (l.label?.map fun name => (name, n)).toList ++ definitionsFrom (n + (statements [l]).length) ls

def definitions (ls : Source) : List (Text × Nat) := definitionsFrom 0 ls

/-- The kernel's name, empty if there is none. -/
def entry (ls : Source) : Text :=
  ls.foldl (fun name l => match l with | .entry name => name | _ => name) []

def sharedBytes (ls : Source) : Word :=
  ls.foldl (fun bytes l => match l with | .shared bytes => bytes | _ => bytes) 0

/-- Where the branches to a label go. -/
def target (ls : Source) (name : Text) : Pc :=
  BitVec.ofNat 16 ((ls.definitions.lookup name).getD 0)

/-- The name of a PC: the first label defined there. -/
def labelAt (ls : Source) (pc : Pc) : Option Text :=
  (ls.definitions.find? fun d => BitVec.ofNat 16 d.2 = pc).map Prod.fst

/-- The branches to resolve, in order. -/
def pending (ls : Source) : List PendingBranch :=
  ls.statements.zipIdx.flatMap fun p => p.1.pending p.2

end Source

/-- What a line needs of the lines before it. -/
inductive Line.Follows (before : Source) : Line → Prop
  | entry {name : Text} (hname : before.entry = []) (hfirst : before.statements = []) :
      Follows before (.entry name)
  | param {name : Text} (h : name ∉ before.params) : Follows before (.param name)
  | shared (bytes : Word) : Follows before (.shared bytes)
  | code {label : Option Text} {st : Option Statement}
      (hlabel : ∀ name ∈ label, before.definitions.lookup name = none)
      (hst : ∀ s ∈ st, ∃ i, s.instruction before.params (fun _ => 0) = some i
        ∧ validate i = .ok ()) : Follows before (.code label st)

/-- The labels that a statement names. -/
def Statement.names (st : Statement) : List Text := st.operands.filterMap Operand.target?

namespace Source

/-- Lines of which each can follow the ones before it. -/
def WellFormed (ls : Source) : Prop :=
  ∀ before l after, ls = before ++ l :: after → l.Follows before

/-- A source that has a program. -/
structure Accepted (ls : Source) : Prop where
  follows : ls.WellFormed
  named : ls.entry ≠ []
  small : ls.statements.length ≤ 65535
  /-- Every branch names a label, and an instruction follows the label. -/
  resolved : ∀ st ∈ ls.statements, ∀ name ∈ st.names,
    ∃ n, ls.definitions.lookup name = some n ∧ n < ls.statements.length

/-- The instructions of a source, before the branches reconverge. -/
def Instructions (ls : Source) (program : List Instruction) : Prop :=
  List.Forall₂ (fun st i => st.instruction ls.params ls.target = some i) ls.statements program

/-- The program that a source describes. -/
structure Assembles (ls : Source) (p : Program) : Prop where
  entry : p.entry = ls.entry
  params : p.params = ls.params
  sharedBytes : p.sharedBytes = ls.sharedBytes
  labels : p.labels = ls.labelAt
  words : ∃ program, ls.Instructions program
    ∧ p.words = (annotateReconvergence program).2.map packWord

end Source

end Meaning

end WarpSim
