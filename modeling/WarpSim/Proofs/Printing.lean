import WarpSim.Disassembler
import WarpSim.Proofs.Numerals
import WarpSim.Proofs.Scanning

/-!
# Lines as text

The text of an operand, of a statement and of a line, and the tokens it lexes to (`lex_lines`). A
label's position is not in its text, so the lines that come back are the ones printed with other
positions (`Line.plain`).
-/

namespace WarpSim

open Disassembler

section Plain

/-- An operand with its position dropped. -/
def Operand.plain : Operand → Operand
  | .label name _ _ => .label name 0 0
  | o => o

def Statement.plain (st : Statement) : Statement :=
  { st with operands := st.operands.map Operand.plain }

def Line.plain : Line → Line
  | .code label st => .code label (st.map Statement.plain)
  | l => l

end Plain

section Texts

variable (C : FloatChars)

def operandText (opcode : Opcode) : Operand → Text
  | .register n => reg n
  | .predicate n => pred n
  | .immediate value => immediate C { opcode := opcode, imm := value }
  | .special r => ((specialRegisterInfoOfIndex r.number).elim "" SpecialRegisterInfo.name).toList
  | .label name _ _ => name
  | .address base offset => address { src0 := base, imm := offset }
  | .parameter name => '[' :: name ++ [']']

/-- Operands with commas between them, and a blank before the first. -/
def operandsText (opcode : Opcode) : List Operand → Text
  | [] => []
  | o :: os =>
    ' ' :: operandText C opcode o ++ os.flatMap fun o => ", ".toList ++ operandText C opcode o

def statementText (st : Statement) : Text :=
  guardText st.guard ++ st.info.mnemonic.toList ++ operandsText C st.info.opcode st.operands

/-- An operand whose text is read back as that operand. -/
def Operand.Printable : Operand → Prop
  | .register n => n.toNat < 64
  | .predicate n => n.toNat < 8
  | .immediate _ | .special _ => True
  | .label name _ _ | .parameter name => IsIdentifier name
  | .address base _ => base.toNat < 64

structure Statement.Printable (st : Statement) : Prop where
  guard : st.guard = {} ∨ st.guard.present = true ∧ st.guard.pred.toNat < 8
  info : st.info ∈ opcodeTable
  operands : ∀ o ∈ st.operands, o.Printable
  takes : List.Forall₂ Slot.Takes st.info.shape.slots st.operands

end Texts

section Tokens

/-- The token of a register file's letter and an index. -/
theorem lexes_register {c : Char} (hc : isIdentStart c = true) (n : Nat) :
    Lexes Boundary (c :: decimalText n)
      (Single fun t => t.kind = .identifier ∧ t.text = c :: decimalText n) :=
  lexes_identifier
    ⟨c, decimalText n, rfl, hc, fun _ h => isIdentChar_of_digit (isDigit_decimalText h)⟩

theorem registerIndex_reg {n : BitVec 8} (h : n.toNat < 64) :
    Parser.registerIndex (reg n) 'r' generalRegisterCount = some n := by
  have hall : ∀ k : Fin 64, Parser.registerIndex (reg (BitVec.ofNat 8 k)) 'r' generalRegisterCount
      = some (BitVec.ofNat 8 k) := by decide
  have := hall ⟨n.toNat, h⟩
  rwa [BitVec.ofNat_toNat, BitVec.setWidth_eq] at this

theorem predicateName_pred {n : BitVec 8} (h : n.toNat < 8) :
    Parser.predicateName (pred n) = some n := by
  have hall : ∀ k : Fin 8, Parser.predicateName (pred (BitVec.ofNat 8 k))
      = some (BitVec.ofNat 8 k) := by decide
  have := hall ⟨n.toNat, h⟩
  rwa [BitVec.ofNat_toNat, BitVec.setWidth_eq] at this

theorem lexes_reg {n : BitVec 8} (h : n.toNat < 64) :
    Lexes Boundary (reg n) (Single fun t => t.IsRegister n) := by
  refine (lexes_register (by decide) n.toNat).imp ?_
  rintro _ ⟨t, rfl, hk, ht⟩
  exact ⟨t, rfl, hk, by rw [ht]; exact registerIndex_reg h⟩

theorem lexes_pred {n : BitVec 8} (h : n.toNat < 8) :
    Lexes Boundary (pred n) (Single fun t => t.IsPredicate n) := by
  refine (lexes_register (by decide) n.toNat).imp ?_
  rintro _ ⟨t, rfl, hk, ht⟩
  exact ⟨t, rfl, hk, by rw [ht]; exact predicateName_pred h⟩

theorem integerValue_decimalText {n : Nat} (h : n < 2 ^ 32) :
    integerValue (decimalText n) = some (BitVec.ofNat 32 n) := by
  have hhex : ¬(decimalText n).take 2 = ['0', 'x'] := by
    intro hx
    have : 'x' ∈ (decimalText n).take 2 := by rw [hx]; simp
    have := isDigit_decimalText (List.mem_of_mem_take this)
    revert this
    decide
  have hn : ¬0xFFFFFFFF < n := by omega
  simp only [integerValue, hhex, if_false]
  rw [show parseNumber 64 10 (decimalText n) = some n from
    parseNumber_toDigits (by decide) (by decide) (by omega), Option.bind_some, if_neg hn]

theorem integerValue_hex (bits : Word) : integerValue (hex bits) = some bits := by
  have hb : bits.toNat < 2 ^ 32 := bits.isLt
  have hn : ¬0xFFFFFFFF < bits.toNat := by omega
  simp only [integerValue, hex, List.take_succ_cons, List.take_zero, if_true,
    List.drop_succ_cons, List.drop_zero]
  rw [show parseNumber 64 16 (hexText bits.toNat) = some bits.toNat from
    parseNumber_toDigits (by decide) (by decide) (by omega), Option.bind_some, if_neg hn,
    BitVec.ofNat_toNat, BitVec.setWidth_eq]

theorem lexes_integer {n : Nat} (h : n < 2 ^ 32) :
    Lexes Boundary (decimalText n) (Single fun t => t.IsInteger (BitVec.ofNat 32 n)) := by
  have hlex := lexes_decimal (digits_decimalText n) (.inl rfl) (.inl rfl)
  rw [List.append_nil, List.append_nil] at hlex
  refine hlex.imp ?_
  rintro _ ⟨t, rfl, hk, ht⟩
  exact ⟨t, rfl, hk, by rw [ht, integerValue_decimalText h]⟩

theorem isHexDigit_digitChar : ∀ d < 16, isHexDigit (Nat.digitChar d) = true := by
  decide

theorem lexes_hexInteger (bits : Word) :
    Lexes Boundary (hex bits) (Single fun t => t.IsInteger bits) := by
  refine (lexes_hex Nat.toDigits_ne_nil fun c hc => ?_).imp ?_
  · obtain ⟨d, hd, rfl⟩ := mem_toDigits (by decide) hc
    exact isHexDigit_digitChar d hd
  · rintro _ ⟨t, rfl, hk, ht⟩
    exact ⟨t, rfl, hk, by rw [ht]; exact integerValue_hex bits⟩

end Tokens

section Immediates

variable {C : FloatChars}

theorem lexes_minus : Lexes Anything ['-'] (Single fun t => t.kind = .minus) :=
  lexes_punct (by decide) rfl (by decide) fun _ => rfl

theorem boundary_append {a rest : Text} {c : Char} (hc : isIdentChar c = false) :
    Boundary (c :: a ++ rest) := by
  intro d hd
  cases hd
  exact hc

/-- A text of a float, which has a fraction if it had neither that nor an exponent. -/
theorem lexes_unsignedFloat (hC : C.Lawful) {text : Text} (h : DecimalForm text) :
    Lexes Boundary (if '.' ∉ text ∧ 'e' ∉ text then text ++ ['.', '0'] else text)
      (Single fun t => t.kind = .float ∧ C.fromChars t.text = C.fromChars text) := by
  obtain ⟨whole, fraction, exponent, hw, hf, he, rfl⟩ := h
  have hdigits : ∀ c ∈ whole, c ≠ '.' ∧ c ≠ 'e' := fun c hc =>
    ⟨ne_of_class (hw.2 c hc) '.' rfl, ne_of_class (hw.2 c hc) 'e' rfl⟩
  by_cases hplain : fraction = [] ∧ exponent = []
  · obtain ⟨rfl, rfl⟩ := hplain
    rw [List.append_nil, List.append_nil,
      if_pos ⟨fun hc => (hdigits _ hc).1 rfl, fun hc => (hdigits _ hc).2 rfl⟩]
    have hzero : Digits ['0'] := ⟨by simp, by simp⟩
    have hlex := lexes_decimal hw (.inr ⟨['0'], hzero, rfl⟩) (.inl rfl)
    rw [List.append_nil] at hlex
    refine hlex.imp ?_
    rintro _ ⟨t, rfl, hk, ht⟩
    exact ⟨t, rfl, hk.trans (by simp), by rw [ht, hC.fraction whole hw]⟩
  · have hmark : ¬('.' ∉ whole ++ fraction ++ exponent ∧ 'e' ∉ whole ++ fraction ++ exponent) := by
      rintro ⟨hdot, he'⟩
      rcases hf with rfl | ⟨ds, -, rfl⟩
      · rcases he with rfl | ⟨sign, ds, -, -, rfl⟩
        · exact hplain ⟨rfl, rfl⟩
        · exact he' (by simp)
      · exact hdot (by simp)
    rw [if_neg hmark]
    refine (lexes_decimal hw hf he).imp ?_
    rintro _ ⟨t, rfl, hk, ht⟩
    exact ⟨t, rfl, hk.trans (if_pos (not_and_or.1 hplain)), by rw [ht]⟩

theorem lexes_float (hC : C.Lawful) {opcode : Opcode} (hop : acceptsFloatImmediate opcode = true)
    {bits : Word} (h : isFinite bits = true) :
    Lexes Boundary (floatText C bits) fun ts => SpellsImmediate C opcode ts bits := by
  have hback := hC.inverts bits h
  rcases hC.form bits h with hform | ⟨text, hform, htext⟩
  · refine (lexes_unsignedFloat hC hform).imp ?_
    rintro _ ⟨t, rfl, hk, ht⟩
    exact .positive (.float ⟨hk, ht.trans hback⟩ hop)
  · rw [htext, hC.minus text hform] at hback
    obtain ⟨value, hvalue, rfl⟩ := Option.map_eq_some_iff.1 hback
    have hsign : floatText C (negateFloat value)
        = ['-'] ++ if '.' ∉ text ∧ 'e' ∉ text then text ++ ['.', '0'] else text := by
      rw [floatText, htext]
      by_cases hc : '.' ∉ text ∧ 'e' ∉ text
      · rw [if_pos hc, if_pos (by simpa using hc)]
        rfl
      · rw [if_neg hc, if_neg (by simpa using hc)]
        rfl
    rw [hsign]
    refine (lexes_minus.append (lexes_unsignedFloat hC hform) fun _ _ => trivial).imp ?_
    rintro _ ⟨_, _, rfl, ⟨m, rfl, hm⟩, t, rfl, hk, ht⟩
    exact .negative hm (.float ⟨hk, ht.trans hvalue⟩ hop)

theorem lexes_signedDecimal {opcode : Opcode} (bits : Word) :
    Lexes Boundary (signedDecimalText bits) fun ts => SpellsImmediate C opcode ts bits := by
  have hlt := bits.isLt
  rw [signedDecimalText]
  by_cases hneg : bits.toInt < 0
  · rw [if_pos hneg]
    have habs : bits.toInt.natAbs = 2 ^ 32 - bits.toNat ∧ 2 ^ 31 ≤ bits.toNat := by
      rw [BitVec.toInt_eq_toNat_cond] at hneg ⊢
      split_ifs at hneg ⊢ <;> omega
    have hback : 0 - BitVec.ofNat 32 bits.toInt.natAbs = bits := by
      apply BitVec.eq_of_toNat_eq
      rw [BitVec.toNat_sub, BitVec.toNat_ofNat, habs.1]
      simp
      omega
    refine (lexes_minus.append (lexes_integer (by omega)) fun _ _ => trivial).imp ?_
    rintro _ ⟨_, _, rfl, ⟨m, rfl, hm⟩, t, rfl, ht⟩
    have hle : BitVec.ofNat 32 bits.toInt.natAbs ≤ 0x80000000 := by
      rw [BitVec.le_def, BitVec.toNat_ofNat, habs.1]
      simp
      omega
    have hnegative : SpellsImmediate C opcode [m, t] _ := .negative hm (.integer ht fun _ => hle)
    rwa [if_pos rfl, hback] at hnegative
  · rw [if_neg hneg]
    have habs : bits.toInt.natAbs = bits.toNat := by
      rw [BitVec.toInt_eq_toNat_cond] at hneg ⊢
      split_ifs at hneg ⊢ <;> omega
    rw [habs]
    refine (lexes_integer hlt).imp ?_
    rintro _ ⟨t, rfl, ht⟩
    rw [BitVec.ofNat_toNat, BitVec.setWidth_eq] at ht
    exact .positive (.integer ht nofun)

theorem accepts_of_prints {opcode : Opcode} (h : printsFloatImmediate opcode = true) :
    acceptsFloatImmediate opcode = true := by
  cases opcode <;> first | rfl | cases h

theorem lexes_immediate (hC : C.Lawful) (opcode : Opcode) (bits : Word) :
    Lexes Boundary (immediate C { opcode := opcode, imm := bits })
      fun ts => SpellsImmediate C opcode ts bits := by
  have hhex : Lexes Boundary (hex bits) fun ts => SpellsImmediate C opcode ts bits := by
    refine (lexes_hexInteger bits).imp ?_
    rintro _ ⟨t, rfl, ht⟩
    exact .positive (.integer ht nofun)
  unfold immediate
  simp only []
  split_ifs with hfloat hfinite hmov
  · exact lexes_float hC (accepts_of_prints hfloat) hfinite
  · exact hhex
  · exact hhex
  · exact lexes_signedDecimal bits

end Immediates

section Operands

variable {C : FloatChars} {opcode : Opcode}

theorem lexes_lBracket : Lexes Anything ['['] (Single fun t => t.kind = .lBracket) :=
  lexes_punct (by decide) rfl (by decide) fun _ => rfl

theorem lexes_rBracket : Lexes Anything [']'] (Single fun t => t.kind = .rBracket) :=
  lexes_punct (by decide) rfl (by decide) fun _ => rfl

/-- A sign, an offset and the bracket. -/
theorem lexes_offset {c : Char} {kind : TokenKind} {n : Nat} (hn : n < 2 ^ 32)
    (hc : Lexes Anything [c] (Single fun t => t.kind = kind)) :
    Lexes Anything ([c] ++ (decimalText n ++ [']'])) fun ts => ∃ s t r, ts = [s, t, r]
      ∧ s.kind = kind ∧ t.IsInteger (BitVec.ofNat 32 n) ∧ r.kind = .rBracket := by
  refine (hc.append ((lexes_integer hn).append lexes_rBracket
    fun rest _ => boundary_append (by decide)) fun _ _ => trivial).imp ?_
  rintro _ ⟨_, _, rfl, ⟨s, rfl, hs⟩, _, _, rfl, ⟨t, rfl, ht⟩, r, rfl, hr⟩
  exact ⟨s, t, r, rfl, hs, ht, hr⟩

theorem lexes_address {base : BitVec 8} (hb : base.toNat < 64) (offset : Word) :
    Lexes Anything (address { src0 := base, imm := offset })
      fun ts => (Operand.address base offset).Spells C opcode ts := by
  have hall : ∀ {text : Text} {d : Char}, isIdentChar d = false →
      Lexes Anything (d :: text) (fun ts => SpellsOffset ts offset) →
      Lexes Anything ('[' :: reg base ++ d :: text)
        fun ts => (Operand.address base offset).Spells C opcode ts := by
    intro text d hd h
    refine (lexes_lBracket.append ((lexes_reg hb).append h
      fun rest _ => boundary_append hd) fun _ _ => trivial).imp ?_
    rintro _ ⟨_, _, rfl, ⟨l, rfl, hl⟩, _, _, rfl, ⟨b, rfl, hb⟩, ho⟩
    exact .address hl hb ho
  have hlt := offset.isLt
  unfold address
  simp only []
  split_ifs with hzero hneg
  · refine hall (by decide) (lexes_rBracket.imp ?_)
    rintro _ ⟨r, rfl, hr⟩
    rw [hzero]
    exact .none hr
  · have hback : 0 - BitVec.ofNat 32 (0 - offset).toNat = offset := by
      rw [BitVec.ofNat_toNat, BitVec.setWidth_eq]
      simp
    rw [List.append_assoc]
    refine hall (by decide) ((lexes_offset (0 - offset).isLt lexes_minus).imp ?_)
    rintro _ ⟨s, t, r, rfl, hs, ht, hr⟩
    have := SpellsOffset.minus hs ht hr
    rwa [hback] at this
  · rw [List.append_assoc]
    refine hall (by decide) ((lexes_offset hlt (lexes_punct (by decide) rfl (by decide)
      fun _ => rfl)).imp ?_)
    rintro _ ⟨s, t, r, rfl, hs, ht, hr⟩
    rw [BitVec.ofNat_toNat, BitVec.setWidth_eq] at ht
    exact .plus hs ht hr

theorem lexes_specialRegister (r : SpecialRegister) :
    Lexes Boundary (operandText C opcode (.special r)) (Single fun t => t.IsSpecial r) := by
  obtain ⟨info, hindex, hreg, hname, word, hword, hne, hident⟩ : ∃ info,
      specialRegisterInfoOfIndex r.number = some info ∧ info.reg = r
        ∧ specialRegisterInfoOfName info.name = some info ∧ ∃ word, info.name.toList = '%' :: word
        ∧ word ≠ [] ∧ ∀ c ∈ word, isIdentChar c = true := by
    cases r <;> exact ⟨_, rfl, rfl, rfl, _, rfl, by decide, List.all_eq_true.1 (by decide)⟩
  rw [operandText, hindex, Option.elim_some, hword]
  refine (lexes_special hne hident).imp ?_
  rintro _ ⟨t, rfl, hk, ht⟩
  exact ⟨t, rfl, hk, by rw [ht, ← hword, String.ofList_toList, hname, ← hreg]; rfl⟩

/-- The text of an operand spells it. -/
theorem lexes_operand (hC : C.Lawful) {o : Operand} (h : o.Printable) :
    Lexes Boundary (operandText C opcode o) fun ts =>
      ∃ o' : Operand, o'.Spells C opcode ts ∧ o'.plain = o.plain := by
  cases o with
  | register n =>
    refine (lexes_reg h).imp ?_
    rintro _ ⟨t, rfl, ht⟩
    exact ⟨_, .register ht, rfl⟩
  | predicate n =>
    refine (lexes_pred h).imp ?_
    rintro _ ⟨t, rfl, ht⟩
    exact ⟨_, .predicate ht, rfl⟩
  | immediate value =>
    exact (lexes_immediate hC opcode value).imp fun ts h => ⟨_, .immediate h, rfl⟩
  | special r =>
    refine (lexes_specialRegister r).imp ?_
    rintro _ ⟨t, rfl, ht⟩
    exact ⟨_, .special ht, rfl⟩
  | label name line column =>
    refine (lexes_identifier h).imp ?_
    rintro _ ⟨t, rfl, hk, rfl⟩
    exact ⟨_, .label hk, rfl⟩
  | address base offset =>
    exact (lexes_address h offset).mono (fun _ _ => trivial) fun ts h => ⟨_, h, rfl⟩
  | parameter name =>
    refine ((lexes_lBracket.append ((lexes_identifier h).append lexes_rBracket
      fun rest _ => boundary_append (by decide)) fun _ _ => trivial).mono
        (fun _ _ => trivial) fun ts h => ?_)
    obtain ⟨_, _, rfl, ⟨l, rfl, hl⟩, _, _, rfl, ⟨t, rfl, hk, rfl⟩, r, rfl, hr⟩ := h
    exact ⟨_, .parameter hl hk hr, rfl⟩

/-- Operands behind others. -/
theorem lexes_rest (hC : C.Lawful) : ∀ {os : List Operand}, (∀ o ∈ os, o.Printable) →
    Lexes Boundary (os.flatMap fun o => ", ".toList ++ operandText C opcode o) fun ts =>
      ∃ os', SpellsRest C opcode ts os' ∧ os'.map Operand.plain = os.map Operand.plain
  | [], _ => lexes_nil.mono (fun _ _ => trivial) fun ts h => ⟨[], h ▸ .nil, rfl⟩
  | o :: os, h => by
    have hcomma : Lexes Anything [','] (Single fun t => t.kind = .comma) :=
      lexes_punct (by decide) rfl (by decide) fun _ => rfl
    have hrest := lexes_rest hC fun o ho => h o (List.mem_cons_of_mem _ ho)
    have hhead : ∀ rest, Boundary rest →
        Boundary ((os.flatMap fun o => ", ".toList ++ operandText C opcode o) ++ rest) := by
      intro rest hr
      rcases os with _ | ⟨o', os⟩
      · exact hr
      · exact boundary_append (by decide)
    refine ((hcomma.append ((lexes_blank (by decide) (by decide)).append
      ((lexes_operand hC (h o List.mem_cons_self)).append hrest hhead) fun _ _ => trivial)
        fun _ _ => trivial).imp ?_)
    rintro _ ⟨_, _, rfl, ⟨c, rfl, hc⟩, _, _, rfl, rfl, ts, us, rfl, ⟨o', ho, hplain⟩,
      os', hos, hplains⟩
    have hcons := SpellsRest.cons hc ho hos
    exact ⟨o' :: os', hcons, by rw [List.map_cons, List.map_cons, hplain, hplains]⟩

theorem lexes_operands (hC : C.Lawful) {os : List Operand} (h : ∀ o ∈ os, o.Printable) :
    Lexes Boundary (operandsText C opcode os) fun ts =>
      ∃ os', SpellsOperands C opcode ts os' ∧ os'.map Operand.plain = os.map Operand.plain := by
  rcases os with _ | ⟨o, os⟩
  · exact lexes_nil.mono (fun _ _ => trivial) fun ts h => ⟨[], h ▸ .nil, rfl⟩
  · have hhead : ∀ rest, Boundary rest →
        Boundary ((os.flatMap fun o => ", ".toList ++ operandText C opcode o) ++ rest) := by
      intro rest hr
      rcases os with _ | ⟨o', os⟩
      · exact hr
      · exact boundary_append (by decide)
    refine ((lexes_blank (c := ' ') (by decide) (by decide)).append
      ((lexes_operand hC (h o List.mem_cons_self)).append
        (lexes_rest hC fun o ho => h o (List.mem_cons_of_mem _ ho)) hhead)
      fun _ _ => trivial).imp ?_
    rintro _ ⟨_, _, rfl, rfl, ts, us, rfl, ⟨o', ho, hplain⟩, os', hos, hplains⟩
    have hcons := SpellsOperands.cons ho hos
    exact ⟨o' :: os', hcons, by rw [List.map_cons, List.map_cons, hplain, hplains]⟩

end Operands

section Statements

variable {C : FloatChars}

theorem lexes_guardText {g : Guard} (h : g = {} ∨ g.present = true ∧ g.pred.toNat < 8) :
    Lexes Anything (guardText g) fun ts => SpellsGuard ts g := by
  rcases h with rfl | ⟨hp, hpred⟩
  · exact lexes_nil.mono (fun _ _ => trivial) fun ts h => h ▸ .absent
  · rw [guardText, if_pos hp]
    refine ((lexes_guard g.negate (List.cons_ne_nil _ _) ?_).append
      (lexes_blank (by decide) (by decide)) fun rest _ => boundary_append (by decide)).imp ?_
    · intro c hc
      rcases List.mem_cons.1 hc with rfl | hc
      · decide
      · exact isIdentChar_of_digit (isDigit_decimalText hc)
    · rintro _ ⟨_, _, rfl, ⟨t, rfl, hk, ht, hn⟩, rfl⟩
      have hguard := SpellsGuard.present hk (by rw [ht]; exact predicateName_pred hpred)
      rw [hn, ← hp] at hguard
      exact hguard

theorem opcodeInfoOfMnemonic_mnemonic : ∀ info ∈ opcodeTable,
    opcodeInfoOfMnemonic info.mnemonic = some info := by
  simp [opcodeTable, opcodeInfoOfMnemonic]

theorem isIdentifier_mnemonic {info : OpcodeInfo} (h : info ∈ opcodeTable) :
    IsIdentifier info.mnemonic.toList := by
  have hall : ∀ info ∈ opcodeTable, info.mnemonic.toList ≠ []
      ∧ info.mnemonic.toList.head?.any isIdentStart = true
      ∧ info.mnemonic.toList.tail.all isIdentChar = true := by decide
  obtain ⟨hne, hstart, hrest⟩ := hall info h
  obtain ⟨c, cs, htext⟩ := List.exists_cons_of_ne_nil hne
  rw [htext] at hstart hrest
  exact ⟨c, cs, htext, hstart, List.all_eq_true.1 hrest⟩

theorem takes_plain (sl : Slot) (o : Operand) : sl.Takes o.plain ↔ sl.Takes o := by
  cases sl <;> cases o <;> rfl

theorem takes_of_plain {sls : List Slot} {os os' : List Operand}
    (h : List.Forall₂ Slot.Takes sls os) (hplain : os'.map Operand.plain = os.map Operand.plain) :
    List.Forall₂ Slot.Takes sls os' := by
  have hmap : ∀ os : List Operand, List.Forall₂ Slot.Takes sls (os.map Operand.plain)
      ↔ List.Forall₂ Slot.Takes sls os := by
    intro os
    simp only [List.forall₂_map_right_iff, takes_plain]
  rwa [← hmap, hplain, hmap]

/-- The text of a statement spells it. -/
theorem lexes_statement (hC : C.Lawful) {st : Statement} (h : st.Printable) :
    Lexes Boundary (statementText C st) fun ts =>
      ∃ st' : Statement, st'.Spells C ts ∧ st'.plain = st.plain := by
  have hhead : ∀ rest, Boundary rest →
      Boundary (operandsText C st.info.opcode st.operands ++ rest) := by
    intro rest hr
    rcases st.operands with _ | ⟨o, os⟩
    · exact hr
    · exact boundary_append (by decide)
  rw [statementText, List.append_assoc]
  refine ((lexes_guardText h.guard).append ((lexes_identifier (isIdentifier_mnemonic h.info)).append
    (lexes_operands hC h.operands) hhead) fun _ _ => trivial).imp ?_
  rintro _ ⟨gs, _, rfl, hg, _, us, rfl, ⟨m, rfl, hm, htext⟩, os, hos, hplain⟩
  refine ⟨{ st with operands := os }, .mk hg hm ?_ hos (takes_of_plain h.takes hplain), ?_⟩
  · rw [htext, String.ofList_toList]
    exact opcodeInfoOfMnemonic_mnemonic _ h.info
  · rw [Statement.plain, hplain]
    rfl

end Statements

section Lines

variable {C : FloatChars}

def AtNewline (rest : Text) : Prop := rest.head? = some '\n'

theorem AtNewline.boundary {rest : Text} (h : AtNewline rest) : Boundary rest := by
  intro c hc
  rw [h] at hc
  cases hc
  decide

variable (C) in
/-- A text without a newline is the text of a line. -/
def Prints (text : Text) (l : Line) : Prop :=
  Lexes AtNewline text fun ts => ∃ l' : Line, l'.Spells C ts ∧ l'.plain = l.plain

/-- A directive and its argument. -/
theorem lexes_directiveLine (word : Text) {argument : Text} {P : Token → Prop} (hne : word ≠ [])
    (hword : ∀ c ∈ word, isIdentChar c = true) (h : Lexes Boundary argument (Single P)) :
    Lexes AtNewline ('.' :: word ++ ([' '] ++ argument)) fun ts => ∃ d t, ts = [d, t]
      ∧ d.kind = .directive ∧ d.text = '.' :: word ∧ P t := by
  refine ((lexes_directive hne hword).append ((lexes_blank (by decide) (by decide)).append h
    fun _ _ => trivial) fun rest _ => boundary_append (by decide)).mono (fun _ h => h.boundary) ?_
  rintro _ ⟨_, _, rfl, ⟨d, rfl, hk, hd⟩, _, _, rfl, rfl, t, rfl, ht⟩
  exact ⟨d, t, rfl, hk, hd, ht⟩

theorem prints_entry {name : Text} (h : IsIdentifier name) :
    Prints C (".entry ".toList ++ name) (.entry name) := by
  refine (lexes_directiveLine "entry".toList (by decide) (List.all_eq_true.1 (by decide))
    (lexes_identifier h)).imp ?_
  rintro _ ⟨d, t, rfl, hk, hd, ht, rfl⟩
  exact ⟨_, .entry hk hd ht, rfl⟩

theorem prints_param {name : Text} (h : IsIdentifier name) :
    Prints C (".param ".toList ++ name) (.param name) := by
  refine (lexes_directiveLine "param".toList (by decide) (List.all_eq_true.1 (by decide))
    (lexes_identifier h)).imp ?_
  rintro _ ⟨d, t, rfl, hk, hd, ht, rfl⟩
  exact ⟨_, .param hk hd ht, rfl⟩

theorem prints_shared (bytes : Word) :
    Prints C (".shared ".toList ++ decimalText bytes.toNat) (.shared bytes) := by
  refine (lexes_directiveLine "shared".toList (by decide) (List.all_eq_true.1 (by decide))
    (lexes_integer bytes.isLt)).imp ?_
  rintro _ ⟨d, t, rfl, hk, hd, ht⟩
  rw [BitVec.ofNat_toNat, BitVec.setWidth_eq] at ht
  exact ⟨_, .shared hk hd ht, rfl⟩

theorem prints_blank : Prints C [] (.code none none) :=
  lexes_nil.mono (fun _ _ => trivial) fun _ h => ⟨_, h ▸ .blank, rfl⟩

theorem prints_label {name : Text} (h : IsIdentifier name) :
    Prints C (name ++ [':']) (.code (some name) none) := by
  have hcolon : Lexes Anything [':'] (Single fun t => t.kind = .colon) :=
    lexes_punct (by decide) rfl (by decide) fun _ => rfl
  refine ((lexes_identifier h).append hcolon fun rest _ => boundary_append (by decide)).mono
    (fun _ _ => trivial) ?_
  rintro _ ⟨_, _, rfl, ⟨t, rfl, ht, rfl⟩, c, rfl, hc⟩
  exact ⟨_, .label ht hc, rfl⟩

/-- An indented statement, with or without a comment behind it. -/
theorem prints_statement (hC : C.Lawful) {st : Statement} (h : st.Printable) {comment : Text}
    (hc : comment = [] ∨ ∃ text, '\n' ∉ text ∧ comment = "    //".toList ++ text) :
    Prints C ("    ".toList ++ (statementText C st ++ comment)) (.code none (some st)) := by
  have hspells : ∀ ts, (∃ st' : Statement, st'.Spells C ts ∧ st'.plain = st.plain) →
      ∃ l' : Line, l'.Spells C ts ∧ l'.plain = (Line.code none (some st)).plain := by
    rintro ts ⟨st', hst, hplain⟩
    exact ⟨_, .statement hst,
      by rw [Line.plain, Line.plain, Option.map_some, Option.map_some, hplain]⟩
  refine Lexes.indent ?_ 4
  rcases hc with rfl | ⟨text, htext, rfl⟩
  · rw [List.append_nil]
    exact (lexes_statement hC h).mono (fun _ h => h.boundary) hspells
  · have hcomment := (lexes_comment htext).indent 4
    refine ((lexes_statement hC h).append hcomment fun rest _ => boundary_append (by decide)).imp ?_
    rintro _ ⟨ts, _, rfl, hts, rfl⟩
    rw [List.append_nil]
    exact hspells ts hts

/-- Lines of text lex to tokens that spell the lines. -/
theorem lexes_lines : ∀ {lines : List (Text × Line)}, (∀ x ∈ lines, Prints C x.1 x.2) →
    Lexes Anything (lines.flatMap fun x => x.1 ++ ['\n']) fun ts => ∃ ls : Source,
      (∀ e : Token, e.kind = .sourceEnd → SpellsLines C (ts ++ [e]) ls)
        ∧ ls.map Line.plain = lines.map (fun x => x.2.plain)
        ∧ (ts = [] → lines = []) ∧ ∀ t ∈ ts.getLast?, t.kind = .newline
  | [], _ => lexes_nil.imp fun ts h => by
    subst h
    exact ⟨[], fun e he => .nil he, rfl, fun _ => rfl, nofun⟩
  | x :: lines, h => by
    refine (((h x List.mem_cons_self).append lexes_newline fun rest _ => rfl).append
      (lexes_lines fun y hy => h y (List.mem_cons_of_mem _ hy)) fun _ _ => trivial).imp ?_
    rintro _ ⟨_, us, rfl, ⟨ts, _, rfl, ⟨l, hl, hplain⟩, n, rfl, hn⟩, ls, hls, hplains, -, hlast⟩
    refine ⟨l :: ls, fun e he => ?_, by rw [List.map_cons, List.map_cons, hplain, hplains],
      fun hts => by simp at hts, fun t ht => ?_⟩
    · have := SpellsLines.cons hl hn (hls e he)
      simpa using this
    · rw [List.getLast?_append] at ht
      rcases hu : us.getLast? with _ | u <;> rw [hu] at ht
      · rw [List.getLast?_append] at ht
        cases ht
        exact hn
      · cases ht
        exact hlast t hu

/-- A text whose tokens end with a newline lexes to them and the end. -/
theorem lex_of_lexes {source : Text} {R : List Token → Prop} (h : Lexes Anything source R)
    (hlast : ∀ ts, R ts → ts.getLast?.map Token.kind = some .newline) :
    ∃ (ts : List Token) (e : Token), lex source = .ok (ts ++ [e]) ∧ R ts ∧ e.kind = .sourceEnd := by
  obtain ⟨ts, l, hscan, hl, hR⟩ := h { source := source } [] (by simp) trivial
  refine ⟨ts, l.make .sourceEnd [], ?_, hR, rfl⟩
  rw [lex, hscan.tokens hl (Nat.lt_succ_self _), Check.ok_bind]
  simp only [hlast ts hR, if_true]

/-- The lexer turns lines of text into tokens that spell the lines. -/
theorem lex_lines {lines : List (Text × Line)} (h : ∀ x ∈ lines, Prints C x.1 x.2)
    (hne : lines ≠ []) : ∃ (ts : List Token) (ls : Source),
      lex (lines.flatMap fun x => x.1 ++ ['\n']) = .ok ts ∧ SpellsLines C ts ls
        ∧ ls.map Line.plain = lines.map fun x => x.2.plain := by
  obtain ⟨ts, e, hlex, ⟨ls, hls, hplain, -⟩, he⟩ := lex_of_lexes (lexes_lines h) (by
    rintro ts ⟨ls, -, -, hnil, hlast⟩
    rcases ht : ts.getLast? with _ | t
    · exact absurd (hnil (List.getLast?_eq_none_iff.1 ht)) hne
    · rw [Option.map_some, hlast t ht])
  exact ⟨ts ++ [e], ls, hlex, hls e he, hplain⟩

end Lines

end WarpSim
