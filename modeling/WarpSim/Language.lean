import WarpSim.Syntax

/-!
# The language, in the words of the specification

The rules that a source keeps, said about the source as a whole: which names are registers, which
numbers fit, what is declared, defined and resolved. None of them follows the order in which the
parser finds a source to break them.
-/

namespace WarpSim

section Terminals

/-- The number that a row of digits writes. -/
def digitsValue (base : Nat) (digits : Text) : Nat :=
  digits.foldl (fun value c => value * base + (digitValue c).getD 0) 0

/-- The number that an integer literal writes, in decimal or in hexadecimal. -/
def literalValue (text : Text) : Nat :=
  if text.take 2 = ['0', 'x'] then digitsValue 16 (text.drop 2) else digitsValue 10 text

/-- What a token is, for the grammar, told from its text alone: registers and predicates have one
spelling each, an integer is below 2^32 whatever the number of its digits, and the names of special
registers and mnemonics are those of the tables. -/
structure Token.Terminals (t : Token) : Prop where
  register : ∀ n, t.IsRegister n ↔ t.kind = .identifier ∧ n.toNat < 64
    ∧ t.text = 'r' :: decimalText n.toNat
  predicate : ∀ n, t.IsPredicate n ↔ t.kind = .identifier ∧ n.toNat < 8
    ∧ t.text = 'p' :: decimalText n.toNat
  guard : ∀ n, Parser.predicateName t.text = some n ↔ n.toNat < 8
    ∧ t.text = 'p' :: decimalText n.toNat
  integer : ∀ value, t.IsInteger value ↔ t.kind = .integer ∧ literalValue t.text = value.toNat
  special : ∀ r, t.IsSpecial r ↔ t.kind = .special
    ∧ ∃ info ∈ specialRegisterTable, info.reg = r ∧ t.text = info.name.toList
  mnemonic : ∀ info, opcodeInfoOfMnemonic (String.ofList t.text) = some info
    ↔ info ∈ opcodeTable ∧ t.text = info.mnemonic.toList

end Terminals

namespace Source

/-- A source that keeps the rules between its lines. -/
structure Legal (ls : Source) : Prop where
  /-- There is one `.entry`, and no instruction before it. -/
  entry : ∃ (before : Source) (name : Text) (after : Source),
    ls = before ++ .entry name :: after ∧ before.statements = []
      ∧ ∀ l ∈ before ++ after, ∀ other, l ≠ .entry other
  params : ls.params.Nodup
  labels : (ls.filterMap Line.label?).Nodup
  /-- A parameter is declared before the line that names it. -/
  declared : ∀ (before : Source) (l : Line) (after : Source), ls = before ++ l :: after →
    ∀ st ∈ l.statement?, ∀ name, Operand.parameter name ∈ st.operands → name ∈ before.params
  /-- A branch names a label that has an instruction on its line or after it. -/
  resolved : ∀ st ∈ ls.statements, ∀ name ∈ st.names,
    ∃ (before : Source) (l : Line) (after : Source), ls = before ++ l :: after
      ∧ l.label? = some name ∧ statements (l :: after) ≠ []
  small : ls.statements.length ≤ 65535

/-- A source that breaks one rule only: a branch names the label behind the last instruction. -/
structure Trailing (ls : Source) : Prop where
  follows : ls.WellFormed
  named : ls.entry ≠ []
  small : ls.statements.length ≤ 65535
  defined : ∀ st ∈ ls.statements, ∀ name ∈ st.names, ls.definitions.lookup name ≠ none
  trailing : ∃ st ∈ ls.statements, ∃ name ∈ st.names,
    ls.definitions.lookup name = some ls.statements.length

end Source

/-- The text of such a source. -/
def BranchesPastEnd (C : FloatChars) (source : Text) : Prop :=
  ∃ (ts : List Token) (ls : Source), lex source = .ok ts ∧ SpellsLines C ts ls ∧ ls.Trailing

end WarpSim
