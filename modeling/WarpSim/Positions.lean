import WarpSim.Syntax

/-!
# Where tokens stand

What a text keeps when its blanks and comments go, and the position of each of its characters.
Nothing here reads a text from left to right as the lexer does: a position is a count over the
characters before it.
-/

namespace WarpSim

section Places

/-- The line of the character that stands after a text. -/
def lineAt (before : Text) : Nat := 1 + before.count '\n'

/-- The column of the character that stands after a text. -/
def columnAt (before : Text) : Nat := 1 + (before.reverse.takeWhile (· != '\n')).length

/-- The characters of a text that are neither blank nor in a comment, numbered from `k`; the text
begins inside a comment or not. -/
def kept (k : Nat) (comment : Bool) : Text → List (Char × Nat)
  | [] => []
  | c :: cs =>
    if c = '\n' then (c, k) :: kept (k + 1) false cs
    else if comment = true ∨ c = '/' ∧ cs.head? = some '/' then kept (k + 1) true cs
    else if Lexer.isBlank c then kept (k + 1) false cs
    else (c, k) :: kept (k + 1) false cs

/-- A text whose lines, and the characters of each line, are numbered by 32 bits. -/
def Numbered (source : Text) : Prop :=
  source.count '\n' + 1 < 2 ^ 32
    ∧ ∀ line : Text, line <:+: source → '\n' ∉ line → line.length + 1 < 2 ^ 32

/-- The characters of a line, counted from 0. -/
def nthLine : Nat → Text → Text
  | 0, source => source.takeWhile (· != '\n')
  | n + 1, source => nthLine n (source.dropWhile (· != '\n')).tail

/-- A diagnostic points into a text, or just past the end of a line: its line and its column count
from 1. -/
def Positioned (source : Text) (e : AssemblyError) : Prop :=
  1 ≤ e.line.toNat ∧ e.line.toNat ≤ source.count '\n' + 1
    ∧ 1 ≤ e.column.toNat ∧ e.column.toNat ≤ (nthLine (e.line.toNat - 1) source).length + 1

end Places

section Spellings

/-- A row of name characters, not empty. -/
def NameChars (text : Text) : Prop := text ≠ [] ∧ ∀ c ∈ text, isIdentChar c = true

/-- Hexadecimal digits after their mark. -/
def HexForm (text : Text) : Prop :=
  ∃ digits, digits ≠ [] ∧ (∀ c ∈ digits, isHexDigit c = true) ∧ text = '0' :: 'x' :: digits

/-- An exponent as it is read: the sign may be absent. -/
def ReadExponent (text : Text) : Prop :=
  text = [] ∨ ∃ sign digits, (sign = [] ∨ sign = ['+'] ∨ sign = ['-']) ∧ Digits digits
    ∧ text = 'e' :: sign ++ digits

/-- The texts of the tokens of a kind. -/
def TokenKind.Admits : TokenKind → Text → Prop
  | .identifier, text => IsIdentifier text
  | .directive, text => ∃ word, NameChars word ∧ text = '.' :: word
  | .guard, text => NameChars text
  | .special, text => ∃ word, NameChars word ∧ text = '%' :: word
  | .integer, text => Digits text ∨ HexForm text
  | .float, text => ∃ whole fraction exponent, Digits whole ∧ FractionForm fraction
      ∧ ReadExponent exponent ∧ text = whole ++ fraction ++ exponent
  | .comma, text => text = [',']
  | .lBracket, text => text = ['[']
  | .rBracket, text => text = [']']
  | .plus, text => text = ['+']
  | .minus, text => text = ['-']
  | .colon, text => text = [':']
  | .newline, text => text = ['\n']
  | .sourceEnd, text => text = []

/-- A token as it is written: a guard's text lacks its mark. -/
def Token.spelling (t : Token) : Text :=
  if t.kind = .guard then '@' :: (if t.negate then ['!'] else []) ++ t.text else t.text

/-- The characters that a token may stand for. The mark of a hexadecimal number and that of an
exponent are read in either case and kept in lower case. -/
inductive Token.Covers (t : Token) : Text → Prop
  | same : Covers t t.spelling
  | hex {digits : Text} (hk : t.kind = .integer) (ht : t.text = '0' :: 'x' :: digits) :
      Covers t ('0' :: 'X' :: digits)
  | exponent {whole rest : Text} (hk : t.kind = .float) (ht : t.text = whole ++ 'e' :: rest) :
      Covers t (whole ++ 'E' :: rest)

/-- A token stands for these characters of a text, and has the position of the first. -/
structure Token.Stands (source : Text) (t : Token) (piece : List (Char × Nat)) : Prop where
  covers : t.Covers (piece.map Prod.fst)
  position : ∃ x ∈ piece.head?, t.line.toNat = lineAt (source.take x.2)
    ∧ t.column.toNat = columnAt (source.take x.2)

/-- The tokens of a text lose nothing and stand where they say: they cover, in order, every
character that is neither blank nor in a comment once. A newline is supplied where the last token
is none, and the end follows, at the end of the text. -/
def Exact (source : Text) (ts : List Token) : Prop :=
  ∃ body supplied e pieces, ts = body ++ supplied ++ [e]
    ∧ List.Forall₂ (Token.Stands source) body pieces
    ∧ pieces.flatten = kept 0 false source
    ∧ (if body.getLast?.map Token.kind = some .newline then supplied = []
      else ∃ n, supplied = [n] ∧ n.kind = .newline)
    ∧ e.kind = .sourceEnd ∧ e.line.toNat = lineAt source ∧ e.column.toNat = columnAt source

end Spellings

end WarpSim
