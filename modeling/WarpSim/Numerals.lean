import WarpSim.Program

/-!
# Numbers as text

The conversions of the C++ library that the assembler and the disassembler use. Those of integers
are computed; those of floats are a parameter.
-/

namespace WarpSim

section Integers

def digitValue (c : Char) : Option Nat :=
  if c.isDigit then some (c.toNat - 48)
  else if 'a' ≤ c ∧ c ≤ 'f' then some (c.toNat - 87)
  else if 'A' ≤ c ∧ c ≤ 'F' then some (c.toNat - 55)
  else none

/-- The number whose digits follow those of `value`; `none` at a character that is no digit. -/
def readDigits (base : Nat) : Text → Nat → Option Nat
  | [], value => some value
  | c :: text, value =>
    match digitValue c with
    | none => none
    | some d => if d < base then readDigits base text (value * base + d) else none

/-- `std::from_chars` on the whole of a text, into an unsigned integer of the given width. -/
def parseNumber (width base : Nat) (text : Text) : Option Nat :=
  if text = [] then none
  else
    match readDigits base text 0 with
    | none => none
    | some value => if value < 2 ^ width then some value else none

/-- `std::to_string` of an unsigned integer. -/
def decimalText (n : Nat) : Text := Nat.toDigits 10 n

/-- `std::to_chars` in base 16. -/
def hexText (n : Nat) : Text := Nat.toDigits 16 n

/-- `std::to_string` of a signed 32-bit integer. -/
def signedDecimalText (bits : Word) : Text :=
  if bits.toInt < 0 then '-' :: decimalText bits.toInt.natAbs else decimalText bits.toInt.natAbs

end Integers

section Floats

/-- A row of digits, not empty. -/
def Digits (text : Text) : Prop := text ≠ [] ∧ ∀ c ∈ text, c.isDigit = true

/-- A fraction with its point, or nothing. -/
def FractionForm (text : Text) : Prop := text = [] ∨ ∃ digits, Digits digits ∧ text = '.' :: digits

/-- An exponent with its mark and its sign, or nothing. -/
def ExponentForm (text : Text) : Prop :=
  text = [] ∨ ∃ sign digits, (sign = '+' ∨ sign = '-') ∧ Digits digits
    ∧ text = 'e' :: sign :: digits

/-- `digits[.digits][e(+|-)digits]`. -/
def DecimalForm (text : Text) : Prop :=
  ∃ whole fraction exponent, Digits whole ∧ FractionForm fraction ∧ ExponentForm exponent
    ∧ text = whole ++ fraction ++ exponent

/-- The conversions of binary32 values, on bits: `std::to_chars` of a finite value, and
`std::from_chars` on the whole of a text. -/
structure FloatChars where
  toChars : Word → Text
  fromChars : Text → Option Word

/-- `std::isfinite` on bits. -/
def isFinite (bits : Word) : Bool := bits >>> 23 &&& 0xFF != 0xFF

/-- `-value` on bits. -/
def negateFloat (bits : Word) : Word := bits ^^^ 0x80000000

/-- What the C++ library promises of its conversions: reading inverts writing on finite values,
a value is written as a decimal with or without a minus sign, the sign negates, and a fraction
of zero does not change a value. -/
structure FloatChars.Lawful (C : FloatChars) : Prop where
  inverts : ∀ bits, isFinite bits = true → C.fromChars (C.toChars bits) = some bits
  form : ∀ bits, isFinite bits = true →
    DecimalForm (C.toChars bits) ∨ ∃ text, DecimalForm text ∧ C.toChars bits = '-' :: text
  minus : ∀ text, DecimalForm text → C.fromChars ('-' :: text) = (C.fromChars text).map negateFloat
  fraction : ∀ text, Digits text → C.fromChars (text ++ ['.', '0']) = C.fromChars text

end Floats

end WarpSim
