import WarpSim.Numerals

/-!
# Numbers as text

Reading a number that was written gives the number back.
-/

namespace WarpSim

/-- Reading goes on behind `a` with the number that `a` writes. -/
theorem readDigits_append (base : Nat) : ∀ (a b : Text) (value : Nat),
    readDigits base (a ++ b) value = (readDigits base a value).bind (readDigits base b)
  | [], b, value => rfl
  | c :: a, b, value => by
    rw [List.cons_append, readDigits, readDigits]
    rcases digitValue c with _ | d
    · rfl
    · by_cases hd : d < base
      · simp only [if_pos hd]
        exact readDigits_append base a b _
      · simp only [if_neg hd]
        rfl

theorem digitValue_digitChar : ∀ d < 16, digitValue (Nat.digitChar d) = some d := by
  decide

/-- A number is read back from the digits that are written for it. -/
theorem readDigits_toDigits {base : Nat} (hb : 1 < base) (hb' : base ≤ 16) (n : Nat) :
    readDigits base (Nat.toDigits base n) 0 = some n := by
  have hdigit : ∀ d < base, ∀ value, readDigits base [Nat.digitChar d] value
      = some (value * base + d) := by
    intro d hd value
    simp [readDigits, digitValue_digitChar d (Nat.lt_of_lt_of_le hd hb'), hd]
  induction n using Nat.strongRecOn with
  | ind n ih =>
    by_cases hn : n < base
    · rw [Nat.toDigits_of_lt_base hn, hdigit n hn, Nat.zero_mul, Nat.zero_add]
    · have hle := Nat.not_lt.1 hn
      rw [Nat.toDigits_of_base_le hb hle, readDigits_append,
        ih _ (Nat.div_lt_self (by omega) hb), Option.bind_some,
        hdigit _ (Nat.mod_lt _ (by omega)), Nat.div_add_mod' n base]

theorem parseNumber_toDigits {base width n : Nat} (hb : 1 < base) (hb' : base ≤ 16)
    (hn : n < 2 ^ width) : parseNumber width base (Nat.toDigits base n) = some n := by
  rw [parseNumber, if_neg Nat.toDigits_ne_nil, readDigits_toDigits hb hb']
  exact if_pos hn

theorem toDigits_injective {base : Nat} (hb : 1 < base) (hb' : base ≤ 16) :
    Function.Injective (Nat.toDigits base) := by
  intro m n h
  have hm := readDigits_toDigits hb hb' m
  rw [h, readDigits_toDigits hb hb'] at hm
  exact (Option.some.inj hm).symm

/-- Every digit of a number is the character of a digit below the base. -/
theorem mem_toDigits {base : Nat} (hb : 1 < base) {n : Nat} {c : Char}
    (h : c ∈ Nat.toDigits base n) : ∃ d < base, c = Nat.digitChar d := by
  induction n using Nat.strongRecOn with
  | ind n ih =>
    by_cases hn : n < base
    · rw [Nat.toDigits_of_lt_base hn, List.mem_singleton] at h
      exact ⟨n, hn, h⟩
    · have hle := Nat.not_lt.1 hn
      rw [Nat.toDigits_of_base_le hb hle, List.mem_append, List.mem_singleton] at h
      rcases h with h | h
      · exact ih _ (Nat.div_lt_self (by omega) hb) h
      · exact ⟨n % base, Nat.mod_lt _ (by omega), h⟩

theorem isDigit_decimalText {n : Nat} {c : Char} (h : c ∈ decimalText n) : c.isDigit = true :=
  Nat.isDigit_of_mem_toDigits (by decide) (by decide) h

/-- Different numbers are written differently. -/
theorem decimalText_injective : Function.Injective decimalText :=
  toDigits_injective (by decide) (by decide)

section Floats

/-- Conversions that write the bits of a value as a number, behind a minus sign for a negative
value. They agree with the C++ library on zero. -/
def bitChars : FloatChars where
  toChars bits := if bits.msb then '-' :: decimalText (negateFloat bits).toNat
    else decimalText bits.toNat
  fromChars text :=
    if text.head? = some '-' then
      ((readDigits 10 (text.tail.takeWhile Char.isDigit) 0).map (BitVec.ofNat 32)).map negateFloat
    else (readDigits 10 (text.takeWhile Char.isDigit) 0).map (BitVec.ofNat 32)

theorem digits_decimalText (n : Nat) : Digits (decimalText n) :=
  ⟨Nat.toDigits_ne_nil, fun _ h => isDigit_decimalText h⟩

/-- A text that begins with digits begins with no sign. -/
theorem Digits.head_ne {text : Text} (h : Digits text) (rest : Text) :
    (text ++ rest).head? ≠ some '-' := by
  rcases text with _ | ⟨c, cs⟩
  · exact absurd rfl h.1
  · intro hc
    cases hc
    have := h.2 '-' List.mem_cons_self
    revert this
    decide

theorem Digits.takeWhile {text : Text} (h : Digits text) : text.takeWhile Char.isDigit = text := by
  have happend : (text ++ []).takeWhile Char.isDigit = text ++ [].takeWhile Char.isDigit :=
    List.takeWhile_append_of_pos h.2
  simpa using happend

theorem readDigits_decimalText (bits : Word) :
    (readDigits 10 ((decimalText bits.toNat).takeWhile Char.isDigit) 0).map (BitVec.ofNat 32)
      = some bits := by
  rw [(digits_decimalText _).takeWhile, decimalText, readDigits_toDigits (by decide) (by decide),
    Option.map_some, BitVec.ofNat_toNat, BitVec.setWidth_eq]

theorem negateFloat_negateFloat (bits : Word) : negateFloat (negateFloat bits) = bits := by
  rw [negateFloat, negateFloat, BitVec.xor_assoc, BitVec.xor_self, BitVec.xor_zero]

/-- Such conversions do what the printer and the lexer rely on. -/
theorem bitChars_lawful : bitChars.Lawful where
  inverts bits _ := by
    unfold bitChars
    simp only []
    by_cases hb : bits.msb = true
    · rw [if_pos hb, if_pos List.head?_cons, List.tail_cons,
        readDigits_decimalText, Option.map_some, negateFloat_negateFloat]
    · have hhead := (digits_decimalText bits.toNat).head_ne []
      rw [List.append_nil] at hhead
      rw [if_neg hb, if_neg hhead, readDigits_decimalText]
  form bits _ := by
    have hform : ∀ n, DecimalForm (decimalText n) := fun n =>
      ⟨_, [], [], digits_decimalText n, .inl rfl, .inl rfl, by simp⟩
    unfold bitChars
    simp only []
    by_cases hb : bits.msb = true
    · rw [if_pos hb]
      exact .inr ⟨_, hform _, rfl⟩
    · rw [if_neg hb]
      exact .inl (hform _)
  minus text h := by
    obtain ⟨whole, fraction, exponent, hw, -, -, rfl⟩ := h
    have hhead := hw.head_ne (fraction ++ exponent)
    rw [← List.append_assoc] at hhead
    unfold bitChars
    simp only []
    rw [if_pos List.head?_cons, if_neg hhead, List.tail_cons]
  fraction text h := by
    have hhead := h.head_ne []
    rw [List.append_nil] at hhead
    unfold bitChars
    simp only []
    rw [if_neg (h.head_ne _), if_neg hhead, List.takeWhile_append_of_pos h.2, h.takeWhile]
    simp

end Floats

end WarpSim
