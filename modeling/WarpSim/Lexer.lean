import WarpSim.Program

/-!
# The lexer

Splits source text into tokens. Comments are dropped, every line ends with a newline token, and
the stream ends with the end token.
-/

namespace WarpSim

/-- A diagnostic with a one-based source position. -/
structure AssemblyError where
  line : Word := 0
  column : Word := 0
  message : String
  deriving DecidableEq

/-- How assembling ends without a program: with a diagnostic, or in a way the source does not
check for. The loops run on fuel, and to run out of it is not to terminate. -/
inductive Stop where
  | error (e : AssemblyError)
  | fuel
  /-- An access past the end of an array. -/
  | index
  /-- A `.value()` of a result that is an error. -/
  | value
  deriving DecidableEq

inductive TokenKind where
  | identifier | directive | guard | special | integer | float
  | comma | lBracket | rBracket | plus | minus | colon | newline | sourceEnd
  deriving DecidableEq

structure Token where
  kind : TokenKind
  text : Text
  /-- For a guard only. -/
  negate : Bool := false
  line : Word := 0
  column : Word := 0
  deriving DecidableEq

section Characters

def isIdentStart (c : Char) : Bool := c.isAlpha || c == '_'

def isIdentChar (c : Char) : Bool := c.isAlphanum || c == '_' || c == '.'

def isHexDigit (c : Char) : Bool :=
  c.isDigit || ('a' ≤ c && c ≤ 'f') || ('A' ≤ c && c ≤ 'F')

end Characters

/-- The source from the current character on, and its position. -/
structure Lexer where
  source : Text
  line : Word := 1
  column : Word := 1

namespace Lexer

/-- The character so far ahead; past the end, the null character. -/
def peek (l : Lexer) (ahead : Nat) : Char := l.source.getD ahead (Char.ofNat 0)

def advance (l : Lexer) : Lexer := { l with source := l.source.tail, column := l.column + 1 }

def newLine (l : Lexer) : Lexer := { source := l.source.tail, line := l.line + 1, column := 1 }

def make (l : Lexer) (kind : TokenKind) (text : Text) : Token where
  kind := kind
  text := text
  line := l.line
  column := l.column

def error (l : Lexer) (message : String) : Stop := .error ⟨l.line, l.column, message⟩

def takeWhile (l : Lexer) (pred : Char → Bool) : Text × Lexer :=
  (l.source.takeWhile pred,
    { l with
      source := l.source.dropWhile pred
      column := l.column + BitVec.ofNat 32 (l.source.takeWhile pred).length })

def punct (l : Lexer) (kind : TokenKind) (c : Char) : Token × Lexer := (l.make kind [c], l.advance)

def isExponentMark (c : Char) : Bool := c == 'e' || c == 'E'

/-- The fraction of a decimal number, with its point; empty if there is none. -/
def fraction (l : Lexer) : Text × Lexer :=
  if l.peek 0 = '.' ∧ (l.peek 1).isDigit then
    ('.' :: (l.advance.takeWhile Char.isDigit).1, (l.advance.takeWhile Char.isDigit).2)
  else ([], l)

def exponentSign (l : Lexer) : Text × Lexer :=
  if l.peek 0 = '+' ∨ l.peek 0 = '-' then ([l.peek 0], l.advance) else ([], l)

/-- The exponent of a decimal number, with its mark; empty if there is none. -/
def exponent (l : Lexer) : Except Stop (Text × Lexer) :=
  if isExponentMark (l.peek 0) then
    let (sign, l) := l.advance.exponentSign
    let (digits, l) := l.takeWhile Char.isDigit
    if digits = [] then .error (l.error "expected digits in exponent")
    else .ok ('e' :: sign ++ digits, l)
  else .ok ([], l)

def decimal (l : Lexer) : Except Stop (Token × Lexer) := do
  let (whole, l₁) := l.takeWhile Char.isDigit
  let (fraction, l₂) := l₁.fraction
  let (exponent, l₃) ← l₂.exponent
  let isFloat := fraction ≠ [] ∨ exponent ≠ []
  if isIdentChar (l₃.peek 0) then .error (l₃.error "unexpected character in number")
  else .ok (l.make (if isFloat then .float else .integer) (whole ++ fraction ++ exponent), l₃)

def number (l : Lexer) : Except Stop (Token × Lexer) :=
  if l.peek 0 = '0' ∧ (l.peek 1 = 'x' ∨ l.peek 1 = 'X') then
    let (digits, l') := l.advance.advance.takeWhile isHexDigit
    if digits = [] then .error (l'.error "expected hexadecimal digits after 0x")
    else .ok (l.make .integer ('0' :: 'x' :: digits), l')
  else l.decimal

def directive (l : Lexer) : Except Stop (Token × Lexer) :=
  let (text, l') := l.advance.takeWhile isIdentChar
  if text = [] then .error (l'.error "expected a directive name after '.'")
  else .ok (l.make .directive ('.' :: text), l')

def guardToken (l : Lexer) : Except Stop (Token × Lexer) :=
  let negate := l.advance.peek 0 == '!'
  let (text, l') := (if negate then l.advance.advance else l.advance).takeWhile isIdentChar
  if text = [] then .error (l'.error "expected a predicate register after '@'")
  else .ok ({ l.make .guard text with negate := negate }, l')

def special (l : Lexer) : Except Stop (Token × Lexer) :=
  let (text, l') := l.advance.takeWhile isIdentChar
  if text = [] then .error (l'.error "expected a special register name after '%'")
  else .ok (l.make .special ('%' :: text), l')

/-- The token at a character that is neither blank nor the beginning of a comment. -/
def nextToken (l : Lexer) (c : Char) : Except Stop (Token × Lexer) :=
  if c = ',' then .ok (l.punct .comma c)
  else if c = '[' then .ok (l.punct .lBracket c)
  else if c = ']' then .ok (l.punct .rBracket c)
  else if c = '+' then .ok (l.punct .plus c)
  else if c = '-' then .ok (l.punct .minus c)
  else if c = ':' then .ok (l.punct .colon c)
  else if c = '.' then l.directive
  else if c = '@' then l.guardToken
  else if c = '%' then l.special
  else if isIdentStart c then
    .ok (l.make .identifier (l.takeWhile isIdentChar).1, (l.takeWhile isIdentChar).2)
  else if c.isDigit then l.number
  else .error (l.error ("unexpected character '" ++ String.singleton c ++ "'"))

def isBlank (c : Char) : Bool := c == ' ' || c == '\t' || c == '\r'

/-- The tokens of the rest of the source, and the lexer at its end. -/
def tokens : Nat → Lexer → Except Stop (List Token × Lexer)
  | 0, _ => .error .fuel
  | fuel + 1, l =>
    match l.source with
    | [] => .ok ([], l)
    | c :: _ =>
      if c = '\n' then do
        let (ts, l') ← tokens fuel l.newLine
        .ok (l.make .newline ['\n'] :: ts, l')
      else if isBlank c then tokens fuel l.advance
      else if c = '/' ∧ l.peek 1 = '/' then tokens fuel (l.takeWhile (· != '\n')).2
      else do
        let (t, l) ← l.nextToken c
        let (ts, l') ← tokens fuel l
        .ok (t :: ts, l')

end Lexer

/-- Every statement ends with a newline token, including the last one in a source that lacks a
trailing newline; a source that has one gets no extra. -/
def lex (source : Text) : Except Stop (List Token) := do
  let (ts, l) ← Lexer.tokens (source.length + 1) { source := source }
  let ts := if ts.getLast?.map Token.kind = some .newline then ts
    else ts ++ [l.make .newline ['\n']]
  .ok (ts ++ [l.make .sourceEnd []])

example : (lex "@!p1 bra L\n".toList).map (List.map Token.kind)
    = .ok [.guard, .identifier, .identifier, .newline, .sourceEnd] := by decide +kernel

end WarpSim
