import WarpSim.Language
import WarpSim.Proofs.Positions
import WarpSim.Proofs.Symbols

/-!
# The parser accepts its language

The tests that the parser makes on one token agree with what the token is; the tests it makes line
by line, in three passes, agree with the rules between the lines.
-/

namespace WarpSim

section Digits

/-- A text of digits below the base is read as the number it writes. -/
theorem readDigits_eq {base : Nat} : ∀ {digits : Text} {value : Nat},
    (∀ c ∈ digits, ∃ d < base, digitValue c = some d) → readDigits base digits value
      = some (digits.foldl (fun value c => value * base + (digitValue c).getD 0) value)
  | [], value, _ => rfl
  | c :: cs, value, h => by
    obtain ⟨d, hd, hc⟩ := h c List.mem_cons_self
    rw [readDigits, hc]
    simp only [if_pos hd]
    rw [readDigits_eq fun c hc => h c (List.mem_cons_of_mem _ hc), List.foldl_cons, hc]
    rfl

theorem digitValue_of_isDigit {c : Char} (h : c.isDigit = true) :
    ∃ d < 10, digitValue c = some d := by
  have hle : c.toNat ≤ 57 := (Char.isDigit_iff_toNat.1 h).2
  exact ⟨c.toNat - 48, by omega, if_pos h⟩

theorem digitValue_of_isHexDigit {c : Char} (h : isHexDigit c = true) :
    ∃ d < 16, digitValue c = some d := by
  unfold isHexDigit at h
  simp only [Bool.or_eq_true, Bool.and_eq_true, decide_eq_true_eq] at h
  unfold digitValue
  split_ifs with hdigit hlower hupper
  · have hle : c.toNat ≤ 57 := (Char.isDigit_iff_toNat.1 hdigit).2
    exact ⟨_, by omega, rfl⟩
  · have hle : c.toNat ≤ 102 := hlower.2
    exact ⟨_, by omega, rfl⟩
  · have hle : c.toNat ≤ 70 := hupper.2
    exact ⟨_, by omega, rfl⟩
  · exact absurd h (by tauto)

/-- A digit is the character of its value. -/
theorem eq_digitChar {c : Char} {d : Nat} (h : digitValue c = some d) (hd : d < 10) :
    c = Nat.digitChar d := by
  have hchars : ∀ d < 10, (Nat.digitChar d).toNat = 48 + d := by decide
  unfold digitValue at h
  split_ifs at h with hdigit hlower hupper
  · have hle : 48 ≤ c.toNat := (Char.isDigit_iff_toNat.1 hdigit).1
    have hval := Option.some.inj h
    exact Char.toNat_inj.1 (by rw [hchars d hd]; omega)
  · have hle : 97 ≤ c.toNat := hlower.1
    have hval := Option.some.inj h
    omega
  · have hle : 65 ≤ c.toNat := hupper.1
    have hval := Option.some.inj h
    omega

/-- The digits after those of a number that is not zero go on writing it. -/
theorem toDigits_append_of_readDigits : ∀ {digits : Text} {value n : Nat}, 0 < value →
    readDigits 10 digits value = some n → Nat.toDigits 10 value ++ digits = Nat.toDigits 10 n
  | [], value, n, _, h => by
    rw [readDigits] at h
    rw [List.append_nil, Option.some.inj h]
  | c :: cs, value, n, hpos, h => by
    rw [readDigits] at h
    rcases hc : digitValue c with _ | d <;> rw [hc] at h
    · cases h
    · simp only [] at h
      split_ifs at h with hd
      have hmul : value * 10 + d = 10 * value + d := by omega
      rw [← toDigits_append_of_readDigits (by omega) h, hmul,
        ← Nat.toDigits_append_toDigits (by decide) hpos hd, Nat.toDigits_of_lt_base hd,
        eq_digitChar hc hd, List.append_assoc]
      rfl

/-- A row of digits without a leading zero is how its number is written. -/
theorem decimalText_of_readDigits {c : Char} {cs : Text} {n : Nat}
    (h : readDigits 10 (c :: cs) 0 = some n) (hzero : ¬(cs ≠ [] ∧ c = '0')) :
    c :: cs = decimalText n := by
  rw [readDigits] at h
  rcases hc : digitValue c with _ | d <;> rw [hc] at h
  · cases h
  · simp only [] at h
    split_ifs at h with hd
    rw [Nat.zero_mul, Nat.zero_add] at h
    have hchar : [c] = Nat.toDigits 10 d := by
      rw [Nat.toDigits_of_lt_base hd, eq_digitChar hc hd]
    by_cases hcs : cs = []
    · subst hcs
      rw [readDigits] at h
      rw [hchar, Option.some.inj h, decimalText]
    · have hd0 : d ≠ 0 := by
        rintro rfl
        exact hzero ⟨hcs, eq_digitChar hc hd⟩
      rw [decimalText, ← toDigits_append_of_readDigits (Nat.pos_of_ne_zero hd0) h, ← hchar]
      rfl

/-- Only zero is written with a leading zero. -/
theorem eq_zero_of_head_toDigits {n : Nat} (h : (Nat.toDigits 10 n).head? = some '0') : n = 0 := by
  have hchars : ∀ d < 10, Nat.digitChar d = '0' → d = 0 := by decide
  induction n using Nat.strongRecOn with
  | ind n ih =>
    by_cases hn : n < 10
    · rw [Nat.toDigits_of_lt_base hn] at h
      exact hchars n hn (Option.some.inj h)
    · have hle := Nat.not_lt.1 hn
      rw [Nat.toDigits_of_base_le (by decide) hle,
        List.head?_append_of_ne_nil _ Nat.toDigits_ne_nil] at h
      have := ih (n / 10) (by omega) h
      omega

end Digits

section Terminals

theorem registerIndex_iff {text : Text} {first : Char} {count n : BitVec 8} :
    Parser.registerIndex text first count = some n
      ↔ n.toNat < count.toNat ∧ text = first :: decimalText n.toNat := by
  constructor
  · intro h
    rcases text with _ | ⟨c, _ | ⟨d, ds⟩⟩
    · cases h
    · cases h
    · rw [Parser.registerIndex] at h
      rcases hp : parseNumber 32 10 (d :: ds) with _ | value <;> rw [hp] at h <;> simp only [] at h
      · split_ifs at h
      · split_ifs at h with hfirst hcount hzero
        have hread : readDigits 10 (d :: ds) 0 = some value := by
          rw [parseNumber, if_neg (List.cons_ne_nil _ _)] at hp
          rcases hr : readDigits 10 (d :: ds) 0 with _ | v <;> rw [hr] at hp
          · cases hp
          · simp only [] at hp
            split_ifs at hp
            exact congrArg some (Option.some.inj hp)
        have hcount' := count.isLt
        have hn : n.toNat = value := by
          rw [← Option.some.inj h, BitVec.toNat_ofNat, Nat.mod_eq_of_lt (by omega)]
        rw [hn, not_not.1 hfirst, decimalText_of_readDigits hread hzero]
        exact ⟨Nat.lt_of_not_le hcount, rfl⟩
  · rintro ⟨hn, rfl⟩
    have hlt := n.isLt
    have hparse : parseNumber 32 10 (decimalText n.toNat) = some n.toNat :=
      parseNumber_toDigits (by decide) (by decide) (by omega)
    obtain ⟨d, ds, hd⟩ := List.exists_cons_of_ne_nil (digits_decimalText n.toNat).1
    have hzero : ¬(ds ≠ [] ∧ d = '0') := by
      rintro ⟨hne, rfl⟩
      have hn := eq_zero_of_head_toDigits (n := n.toNat) (by rw [← decimalText, hd]; rfl)
      rw [hn] at hd
      exact hne (List.cons.inj hd).2.symm
    rw [hd] at hparse ⊢
    rw [Parser.registerIndex, if_neg (not_not.2 rfl), hparse]
    simp only []
    rw [if_neg (by omega), if_neg hzero, BitVec.ofNat_toNat, BitVec.setWidth_eq]

/-- A literal of any length is read if its number is below 2^32. -/
theorem integerValue_eq {text : Text} (h : Digits text ∨ HexForm text) : integerValue text
    = if literalValue text < 2 ^ 32 then some (BitVec.ofNat 32 (literalValue text)) else none := by
  have hread : ∀ {base : Nat} {digits : Text}, digits ≠ [] →
      (∀ c ∈ digits, ∃ d < base, digitValue c = some d) →
      ((parseNumber 64 base digits).bind fun value =>
        if 0xFFFFFFFF < value then none else some (BitVec.ofNat 32 value))
        = if digitsValue base digits < 2 ^ 32 then some (BitVec.ofNat 32 (digitsValue base digits))
          else none := by
    intro base digits hne hdigits
    rw [parseNumber, if_neg hne, readDigits_eq hdigits, ← digitsValue]
    simp only []
    by_cases hsmall : digitsValue base digits < 2 ^ 32
    · rw [if_pos (by omega), if_pos hsmall, Option.bind_some, if_neg (by omega)]
    · rw [if_neg hsmall]
      split_ifs
      · rw [Option.bind_some, if_pos (by omega)]
      · rfl
  rcases h with h | ⟨digits, hne, hdigits, rfl⟩
  · have hhex : ¬text.take 2 = ['0', 'x'] := by
      intro hx
      have hmem : 'x' ∈ text.take 2 := by rw [hx]; simp
      exact absurd (h.2 _ (List.mem_of_mem_take hmem)) (by decide)
    rw [integerValue, literalValue, if_neg hhex]
    simp only [if_neg hhex]
    exact hread h.1 fun c hc => digitValue_of_isDigit (h.2 c hc)
  · have hhex : ('0' :: 'x' :: digits).take 2 = ['0', 'x'] := rfl
    rw [integerValue, literalValue, if_pos hhex]
    simp only [if_pos hhex]
    exact hread hne fun c hc => digitValue_of_isHexDigit (hdigits c hc)

theorem isInteger_iff {t : Token} (h : t.kind.Admits t.text) {value : Word} :
    t.IsInteger value ↔ t.kind = .integer ∧ literalValue t.text = value.toNat := by
  refine and_congr_right fun hk => ?_
  rw [hk] at h
  rw [integerValue_eq h]
  have hlt := value.isLt
  by_cases hsmall : literalValue t.text < 2 ^ 32
  · rw [if_pos hsmall, Option.some_inj]
    constructor
    · rintro rfl
      exact (toNat_ofNat_of_lt hsmall).symm
    · intro hv
      rw [hv, BitVec.ofNat_toNat, BitVec.setWidth_eq]
  · rw [if_neg hsmall]
    exact ⟨nofun, fun hv => absurd (hv ▸ hlt) hsmall⟩

theorem specialRegisterInfoOfName_iff {text : Text} {info : SpecialRegisterInfo} :
    specialRegisterInfoOfName (String.ofList text) = some info
      ↔ info ∈ specialRegisterTable ∧ text = info.name.toList := by
  have hnames : ∀ info ∈ specialRegisterTable,
      specialRegisterInfoOfName info.name = some info := by
    simp [specialRegisterTable, specialRegisterInfoOfName]
  constructor
  · intro h
    have hname := List.find?_some h
    refine ⟨List.mem_of_find?_eq_some h, ?_⟩
    rw [eq_of_beq hname, String.toList_ofList]
  · rintro ⟨hmem, rfl⟩
    rw [String.ofList_toList]
    exact hnames info hmem

theorem opcodeInfoOfMnemonic_iff {text : Text} {info : OpcodeInfo} :
    opcodeInfoOfMnemonic (String.ofList text) = some info
      ↔ info ∈ opcodeTable ∧ text = info.mnemonic.toList := by
  constructor
  · intro h
    have hname := List.find?_some h
    refine ⟨List.mem_of_find?_eq_some h, ?_⟩
    rw [eq_of_beq hname, String.toList_ofList]
  · rintro ⟨hmem, rfl⟩
    rw [String.ofList_toList]
    exact opcodeInfoOfMnemonic_mnemonic info hmem

/-- The tests on one token agree with what the token is. -/
theorem terminals_of_admits {t : Token} (h : t.kind.Admits t.text) : t.Terminals where
  register n := and_congr_right fun _ => registerIndex_iff
  predicate n := and_congr_right fun _ => registerIndex_iff
  guard n := registerIndex_iff
  integer value := isInteger_iff h
  special r := by
    refine and_congr_right fun _ => ?_
    rw [Option.map_eq_some_iff]
    constructor
    · rintro ⟨info, hinfo, rfl⟩
      obtain ⟨hmem, htext⟩ := specialRegisterInfoOfName_iff.1 hinfo
      exact ⟨info, hmem, rfl, htext⟩
    · rintro ⟨info, hmem, rfl, htext⟩
      exact ⟨info, specialRegisterInfoOfName_iff.2 ⟨hmem, htext⟩, rfl⟩
  mnemonic info := opcodeInfoOfMnemonic_iff

end Terminals

section Statements

/-- An operand whose registers exist. -/
def Operand.Exists : Operand → Prop
  | .register n | .address n _ => n.toNat < 64
  | .predicate n => n.toNat < 8
  | _ => True

theorem opcodeInfoOfNumber_mem {info : OpcodeInfo} (h : info ∈ opcodeTable) :
    opcodeInfoOfNumber info.opcode.number = some info := by
  have hnodup : (opcodeTable.map fun info => info.opcode.number).Nodup := by decide
  rcases hfind : opcodeInfoOfNumber info.opcode.number with _ | info'
  · exact absurd (List.find?_eq_none.1 hfind info h) (by simp)
  · have hmem : info' ∈ opcodeTable := List.mem_of_find?_eq_some hfind
    rw [List.inj_on_of_nodup_map hnodup hmem h (opcodeInfoOfNumber_number hfind)]

theorem special_number_fits (r : SpecialRegister) : r.number.toNat < 10 := by
  cases r <;> decide

/-- Operands of the right kinds, whose parameters are declared, can be filled in. -/
theorem exists_fillSlots {ps : List Text} {target : Text → Pc} {sls : List Slot}
    {os : List Operand} (hk : List.Forall₂ Slot.Takes sls os)
    (hps : ∀ name, Operand.parameter name ∈ os → name ∈ ps) (i : Instruction) :
    ∃ j, fillSlots ps target sls os i = some j := by
  induction hk generalizing i with
  | nil => exact ⟨i, rfl⟩
  | @cons sl o sls os h _ ih =>
    have hfill : ∃ j, sl.fill ps target o i = some j := by
      cases o with
      | parameter name =>
        cases sl <;> first | exact h.elim | skip
        rcases hidx : ps.findIdx? (· = name) with _ | k
        · have hnone := List.findIdx?_eq_none_iff.1 hidx name (hps name List.mem_cons_self)
          simp at hnone
        · simp [Slot.fill, hidx]
      | _ => cases sl <;> first | exact h.elim | exact ⟨_, rfl⟩
    obtain ⟨j, hj⟩ := hfill
    rw [fillSlots, hj]
    exact ih (fun name hname => hps name (List.mem_cons_of_mem _ hname)) j

/-- A register that exists fits the field it is filled into. -/
theorem fieldsFit_of_fill {ps : List Text} {target : Text → Pc} {sl : Slot} {o : Operand}
    {i j : Instruction} (h : sl.fill ps target o i = some j) (ho : o.Exists) (hi : FieldsFit i) :
    FieldsFit j := by
  obtain ⟨hpred, hdst, hsrc0, hsrc1⟩ := hi
  cases sl <;> cases o <;> first
    | (cases h; done)
    | (cases h; exact ⟨hpred, ho, hsrc0, hsrc1⟩)
    | (cases h; exact ⟨hpred, hdst, ho, hsrc1⟩)
    | (cases h; exact ⟨hpred, hdst, hsrc0, ho⟩)
    | (cases h; exact ⟨hpred, hdst, hsrc0, hsrc1⟩)
    | (cases h; exact ⟨hpred, Nat.lt_trans ho (by decide), hsrc0, hsrc1⟩)
    | (cases h; exact ⟨hpred, hdst, Nat.lt_trans (special_number_fits _) (by decide), hsrc1⟩)
    | (obtain ⟨k, -, rfl⟩ := Option.map_eq_some_iff.1 h; exact ⟨hpred, hdst, hsrc0, hsrc1⟩)

theorem fieldsFit_of_fillSlots {ps : List Text} {target : Text → Pc} {sls : List Slot}
    {os : List Operand} {i j : Instruction} (h : fillSlots ps target sls os i = some j)
    (hos : ∀ o ∈ os, o.Exists) (hi : FieldsFit i) : FieldsFit j := by
  induction sls generalizing os i with
  | nil =>
    cases os with
    | nil => cases h; exact hi
    | cons => cases h
  | cons sl sls ih =>
    cases os with
    | nil => cases h
    | cons o os =>
      obtain ⟨k, hk, h⟩ := Option.bind_eq_some_iff.1 h
      obtain ⟨ho, hos⟩ := List.forall_mem_cons.1 hos
      exact ih h hos (fieldsFit_of_fill hk ho hi)

/-- What `validate` asks of the fields that operands are filled into. -/
structure OperandsValid (shape : Shape) (i : Instruction) : Prop where
  dst : (fieldUse shape).dst = false → i.dst = 0
  src0 : (fieldUse shape).src0 = false → i.src0 = 0
  src1 : (fieldUse shape).src1 = false → i.src1 = 0
  imm : validateImmediate shape i = .ok ()
  prr : shape = .prr → i.dst.toNat < 8
  sreg : shape = .sreg → i.src0.toNat < 10

/-- The operands of a shape leave every field that it does not use at zero. -/
theorem operandsValid_of_fillSlots {ps : List Text} {target : Text → Pc} {shape : Shape}
    {os : List Operand} {op : Opcode} {g : Guard} {i : Instruction}
    (h : fillSlots ps target shape.slots os { opcode := op, guard := g } = some i)
    (hos : ∀ o ∈ os, o.Exists) : OperandsValid shape i := by
  have hk := Parser.fillSlots_takes h
  cases shape with
  | rrr | acc =>
    obtain _ | ⟨h1, _ | ⟨h2, _ | ⟨h3, ⟨⟩⟩⟩⟩ := hk
    rename_i a b c
    cases a <;> first | exact h1.elim | skip
    cases b <;> first | exact h2.elim | skip
    cases c <;> first | exact h3.elim | cases h
    all_goals refine ⟨?_, ?_, ?_, rfl, ?_, ?_⟩ <;> simp [fieldUse]
  | prr =>
    obtain _ | ⟨h1, _ | ⟨h2, _ | ⟨h3, ⟨⟩⟩⟩⟩ := hk
    rename_i a b c
    cases a <;> first | exact h1.elim | skip
    have hd := hos _ List.mem_cons_self
    cases b <;> first | exact h2.elim | skip
    cases c <;> first | exact h3.elim | cases h
    all_goals refine ⟨?_, ?_, ?_, rfl, fun _ => hd, ?_⟩ <;> simp [fieldUse]
  | rr | ld | st =>
    obtain _ | ⟨h1, _ | ⟨h2, ⟨⟩⟩⟩ := hk
    rename_i a b
    cases a <;> first | exact h1.elim | skip
    cases b <;> first | exact h2.elim | cases h
    all_goals refine ⟨?_, ?_, ?_, rfl, ?_, ?_⟩ <;> simp [fieldUse]
  | sreg =>
    obtain _ | ⟨h1, _ | ⟨h2, ⟨⟩⟩⟩ := hk
    rename_i a b
    cases a <;> first | exact h1.elim | skip
    cases b <;> first | exact h2.elim | skip
    cases h
    refine ⟨?_, ?_, ?_, rfl, ?_, fun _ => special_number_fits _⟩ <;> simp [fieldUse]
  | ldp =>
    obtain _ | ⟨h1, _ | ⟨h2, ⟨⟩⟩⟩ := hk
    rename_i a b
    cases a <;> first | exact h1.elim | skip
    cases b <;> first | exact h2.elim | skip
    obtain ⟨j, hj, h⟩ := Option.bind_eq_some_iff.1 h
    obtain ⟨l, hl, h⟩ := Option.bind_eq_some_iff.1 h
    obtain ⟨k, -, rfl⟩ := Option.map_eq_some_iff.1 hl
    cases hj
    cases h
    refine ⟨?_, ?_, ?_, rfl, ?_, ?_⟩ <;> simp [fieldUse]
  | bra =>
    obtain _ | ⟨h1, ⟨⟩⟩ := hk
    rename_i a
    cases a <;> first | exact h1.elim | skip
    cases h
    refine ⟨?_, ?_, ?_, rfl, ?_, ?_⟩ <;> simp [fieldUse]
  | none =>
    cases hk
    cases h
    refine ⟨?_, ?_, ?_, rfl, ?_, ?_⟩ <;> simp [fieldUse]

/-- A statement as the grammar allows it, whose parameters are declared, has a word. -/
theorem encodes_of_exists {ps : List Text} {st : Statement} (hinfo : st.info ∈ opcodeTable)
    (hguard : st.guard = {} ∨ st.guard.present = true ∧ st.guard.pred.toNat < 8)
    (hk : List.Forall₂ Slot.Takes st.info.shape.slots st.operands)
    (hos : ∀ o ∈ st.operands, o.Exists)
    (hps : ∀ name, Operand.parameter name ∈ st.operands → name ∈ ps) :
    Parser.Encodes ps st := by
  obtain ⟨i, hi⟩ : ∃ i, fillSlots ps (fun _ => 0) st.info.shape.slots st.operands
      { opcode := st.info.opcode, guard := st.guard } = some i := exists_fillSlots hk hps _
  obtain ⟨hop, hg⟩ := fillSlots_keeps hi
  obtain ⟨hdst, hsrc0, hsrc1, himm, hprr, hsreg⟩ := operandsValid_of_fillSlots hi hos
  have hpred : st.guard.pred.toNat < 8 := by
    rcases hguard with hnone | ⟨-, hp⟩
    · rw [hnone]
      decide
    · exact hp
  have habsent : st.guard.present = false → st.guard.negate = false ∧ st.guard.pred = 0 := by
    rcases hguard with hnone | ⟨hp, -⟩
    · rw [hnone]
      exact fun _ => ⟨rfl, rfl⟩
    · exact fun h => absurd (h.symm.trans hp) nofun
  have hzero : BitField.Fits (0 : BitVec 8) 6 := Nat.two_pow_pos 6
  have hfit := fieldsFit_of_fillSlots hi hos ⟨hpred, hzero, hzero, hzero⟩
  refine ⟨i, hi, validate_ok.2 ⟨st.info, ?_, ?_, hfit, hdst, hsrc0, hsrc1, himm, hprr, hsreg⟩⟩
  · rw [hop]
    exact opcodeInfoOfNumber_mem hinfo
  · rw [hg]
    exact habsent

/-- What the grammar says of a statement. -/
structure Statement.Sound (st : Statement) : Prop where
  info : st.info ∈ opcodeTable
  guard : st.guard = {} ∨ st.guard.present = true ∧ st.guard.pred.toNat < 8
  takes : List.Forall₂ Slot.Takes st.info.shape.slots st.operands
  operands : ∀ o ∈ st.operands, o.Exists

variable {C : FloatChars} {opcode : Opcode} {ts : List Token}

theorem Operand.Spells.exists {o : Operand} (h : o.Spells C opcode ts) : o.Exists := by
  cases h with
  | register h => exact (registerIndex_iff.1 h.2).1
  | predicate h => exact (registerIndex_iff.1 h.2).1
  | address hl hb ho => exact (registerIndex_iff.1 hb.2).1
  | _ => trivial

theorem SpellsRest.exists {os : List Operand} (h : SpellsRest C opcode ts os) :
    ∀ o ∈ os, o.Exists := by
  induction h with
  | nil => exact List.forall_mem_nil _
  | cons hc h rest ih => exact List.forall_mem_cons.2 ⟨h.exists, ih⟩

theorem Statement.Spells.sound {st : Statement} (h : st.Spells C ts) : st.Sound := by
  cases h with
  | mk hg hm hi ho hk =>
    refine ⟨(opcodeInfoOfMnemonic_iff.1 hi).1, ?_, hk, ?_⟩
    · generalize st.guard = g at hg
      cases hg with
      | absent => exact .inl rfl
      | present h hp => exact .inr ⟨rfl, (registerIndex_iff.1 hp).1⟩
    · generalize st.operands = os at ho
      cases ho with
      | nil => exact List.forall_mem_nil _
      | cons h rest => exact List.forall_mem_cons.2 ⟨h.exists, rest.exists⟩

/-- Every line of a source is spelled by some of the tokens. -/
theorem SpellsLines.spells {ls : Source} (h : SpellsLines C ts ls) :
    ∀ l ∈ ls, ∃ us : List Token, l.Spells C us ∧ ∀ t ∈ us, t ∈ ts := by
  induction h with
  | nil => exact List.forall_mem_nil _
  | cons h hn rest ih =>
    refine List.forall_mem_cons.2 ⟨⟨_, h, fun t ht => List.mem_append_left _ ht⟩, fun l hl => ?_⟩
    obtain ⟨us, hus, hmem⟩ := ih l hl
    exact ⟨us, hus, fun t ht => List.mem_append_right _ (List.mem_cons_of_mem _ (hmem t ht))⟩

theorem SpellsLines.sound {ls : Source} (h : SpellsLines C ts ls) :
    ∀ st ∈ ls.statements, st.Sound := by
  intro st hst
  obtain ⟨l, hl, hst⟩ := List.mem_filterMap.1 hst
  obtain ⟨us, hus, -⟩ := h.spells l hl
  cases hus with
  | statement h | labelled _ _ h => exact Option.some.inj hst ▸ h.sound
  | _ => cases hst

theorem SpellsLines.entry_ne_nil {source : Text} {ls : Source} (hlex : lex source = .ok ts)
    (h : SpellsLines C ts ls) {name : Text} (hname : .entry name ∈ ls) : name ≠ [] := by
  obtain ⟨us, hus, hmem⟩ := h.spells _ hname
  cases hus with
  | @entry d t hd hn ht =>
    have hform := lex_admits hlex t (hmem t (by simp))
    rw [ht] at hform
    obtain ⟨c, cs, htext, -⟩ := hform
    exact htext ▸ List.cons_ne_nil _ _

end Statements

namespace Source

section Rules

theorem entry_eq_nil {ls : Source} (h : ∀ name, .entry name ∉ ls) : ls.entry = [] := by
  induction ls using List.reverseRecOn with
  | nil => rfl
  | append_singleton ls l ih =>
    rw [entry_snoc]
    cases l with
    | entry name => exact absurd (by simp) (h name)
    | _ => exact ih fun name hname => h name (List.mem_append_left _ hname)

theorem entry_ne_nil {ls : Source} (hnames : ∀ name, .entry name ∈ ls → name ≠ []) {name : Text}
    (h : .entry name ∈ ls) : ls.entry ≠ [] := by
  induction ls using List.reverseRecOn with
  | nil => cases h
  | append_singleton ls l ih =>
    rw [entry_snoc]
    rcases List.mem_append.1 h with hmem | hmem
    · cases l with
      | entry other => exact hnames other (by simp)
      | _ => exact ih (fun name hname => hnames name (List.mem_append_left _ hname)) hmem
    · rw [← List.mem_singleton.1 hmem]
      exact hnames name h

theorem exists_entry {ls : Source} (h : ls.entry ≠ []) : ∃ name, .entry name ∈ ls := by
  by_contra hno
  exact h (entry_eq_nil fun name hname => hno ⟨name, hname⟩)

/-- An element that occurs once stands in one place. -/
theorem split_unique {α : Type} {P : α → Prop} {before before' after after' : List α} {a a' : α}
    (h : before ++ a :: after = before' ++ a' :: after') (ha : P a)
    (hothers : ∀ x ∈ before' ++ after', ¬P x) : before = before' := by
  rcases List.append_eq_append_iff.1 h with ⟨mid, rfl, hmid⟩ | ⟨mid, rfl, hmid⟩
  · rcases mid with _ | ⟨x, mid⟩
    · rw [List.append_nil]
    · obtain ⟨rfl, -⟩ := List.cons.inj hmid
      exact absurd ha (hothers a (by simp))
  · rcases mid with _ | ⟨x, mid⟩
    · rw [List.append_nil]
    · obtain ⟨-, rfl⟩ := List.cons.inj hmid
      exact absurd ha (hothers a (by simp))

theorem not_mem_of_nodup_split {α : Type} {before after : List α} {a : α}
    (h : (before ++ a :: after).Nodup) : a ∉ before := fun ha =>
  (List.nodup_append.1 h).2.2 a ha a List.mem_cons_self rfl

theorem labels_append (ls ms : Source) : (ls ++ ms).filterMap Line.label?
    = ls.filterMap Line.label? ++ ms.filterMap Line.label? := List.filterMap_append

/-- A label is found where it is defined, if no other has its name. -/
theorem lookup_label {before after : Source} {l : Line} {name : Text}
    (hnodup : ((before ++ l :: after).filterMap Line.label?).Nodup) (hl : l.label? = some name) :
    (definitions (before ++ l :: after)).lookup name = some before.statements.length := by
  rw [labels_append, List.filterMap_cons, hl] at hnodup
  have hbefore : before.definitions.lookup name = none := by
    rw [lookup_eq_none, definitions, definitionsFrom_fst]
    exact not_mem_of_nodup_split hnodup
  rw [definitions_append, List.lookup_append, hbefore, definitionsFrom, hl]
  simp

theorem legal_of_accepted {ls : Source} (hentry : ∀ name, .entry name ∈ ls → name ≠ [])
    (h : ls.Accepted) : ls.Legal where
  entry := by
    obtain ⟨name, hname⟩ := exists_entry h.named
    obtain ⟨before, after, rfl⟩ := List.append_of_mem hname
    cases h.follows before _ after rfl with
    | entry hnone hfirst =>
      refine ⟨before, name, after, rfl, hfirst, fun l hl other => ?_⟩
      rintro rfl
      rcases List.mem_append.1 hl with hl | hl
      · exact entry_ne_nil (fun name hname => hentry name (List.mem_append_left _ hname)) hl hnone
      · obtain ⟨mid, after, rfl⟩ := List.append_of_mem hl
        cases h.follows (before ++ .entry name :: mid) (.entry other) after (by simp) with
        | entry hnone =>
          have hmem : .entry name ∈ before ++ .entry name :: mid :=
            List.mem_append_right _ List.mem_cons_self
          refine entry_ne_nil (fun name hname => hentry name ?_) hmem hnone
          rw [← List.cons_append, ← List.append_assoc]
          exact List.mem_append_left _ hname
  params := h.follows.params_nodup
  labels := h.follows.labels_nodup
  declared := by
    intro before l after hls st hst name hname
    cases h.follows before l after hls with
    | code hlabel hstatement =>
      obtain ⟨i, hi, -⟩ := hstatement st hst
      obtain ⟨k, hk, -⟩ := param_of_holds (holds_of_fillSlots hi) hname
      exact List.mem_of_getElem? (findIdx?_some hk)
    | _ => cases hst
  resolved := by
    intro st hst name hname
    obtain ⟨n, hn, hlt⟩ := h.resolved st hst name hname
    obtain ⟨before, l, after, rfl, hl, rfl⟩ := mem_definitionsFrom (mem_of_lookup hn)
    refine ⟨before, l, after, rfl, hl, fun hnil => ?_⟩
    rw [statements_append, List.length_append, hnil] at hlt
    simp at hlt
  small := h.small

theorem accepted_of_legal {ls : Source} (hentry : ∀ name, .entry name ∈ ls → name ≠ [])
    (hsound : ∀ st ∈ ls.statements, st.Sound) (h : ls.Legal) : ls.Accepted where
  follows := by
    intro before l after hls
    cases l with
    | entry name =>
      obtain ⟨before', name', after', hls', hfirst, hothers⟩ := h.entry
      have hsame : before = before' :=
        split_unique (P := fun l => ∃ other, l = .entry other) (hls.symm.trans hls') ⟨name, rfl⟩
          fun l hl => fun ⟨other, hother⟩ => hothers l hl other hother
      subst hsame
      exact .entry (entry_eq_nil fun other hother =>
        hothers _ (List.mem_append_left _ hother) other rfl) hfirst
    | param name =>
      have hnodup := h.params
      rw [hls, params_append] at hnodup
      exact .param (not_mem_of_nodup_split hnodup)
    | shared bytes => exact .shared bytes
    | code label st =>
      refine .code (fun name hname => ?_) fun st' hst => ?_
      · have hnodup := h.labels
        rw [hls, labels_append, List.filterMap_cons, show Line.label? (.code label st) = some name
          from hname] at hnodup
        rw [lookup_eq_none, definitions, definitionsFrom_fst]
        exact not_mem_of_nodup_split hnodup
      · have hmem : st' ∈ ls.statements := by
          rw [hls, statements_append]
          exact List.mem_append_right _ (List.mem_filterMap.2 ⟨_, List.mem_cons_self, hst⟩)
        have hst' := hsound st' hmem
        exact encodes_of_exists hst'.info hst'.guard hst'.takes hst'.operands
          fun name hname => h.declared before _ after hls st' hst name hname
  named := by
    obtain ⟨before, name, after, rfl, -⟩ := h.entry
    exact entry_ne_nil hentry (List.mem_append_right _ List.mem_cons_self)
  small := h.small
  resolved := by
    intro st hst name hname
    obtain ⟨before, l, after, rfl, hl, hnext⟩ := h.resolved st hst name hname
    refine ⟨_, lookup_label h.labels hl, ?_⟩
    have := List.length_pos_of_ne_nil hnext
    rw [statements_append, List.length_append]
    omega

end Rules

end Source

/-- The assembler accepts a text that lexes exactly if its lines have the forms of the grammar and
keep the rules of the language; and the grammar's tokens are told from their texts. -/
theorem assemble_language (C : FloatChars) (source : Text) (ts : List Token)
    (h : lex source = .ok ts) :
    ((∃ p, assemble C source = .ok p) ↔ ∃ ls, SpellsLines C ts ls ∧ Source.Legal ls)
      ∧ ∀ t ∈ ts, t.Terminals := by
  refine ⟨⟨?_, ?_⟩, fun t ht => terminals_of_admits (lex_admits h t ht)⟩
  · rintro ⟨p, hp⟩
    obtain ⟨ts', ls, hlex, hspells, haccept, -⟩ := ((assemble_spec C source).1 p).1 hp
    obtain rfl := Except.ok.inj (h.symm.trans hlex)
    exact ⟨ls, hspells, Source.legal_of_accepted (fun _ => hspells.entry_ne_nil h) haccept⟩
  · rintro ⟨ls, hspells, hlegal⟩
    have haccept := Source.accepted_of_legal (fun _ => hspells.entry_ne_nil h) hspells.sound hlegal
    obtain ⟨p, hp⟩ := haccept.exists_program hspells.info
    exact ⟨p, ((assemble_spec C source).1 p).2 ⟨ts, ls, h, hspells, haccept, hp⟩⟩

/-- A loop with a guarded branch. -/
theorem assemble_language_loop :
    ∃ ts, lex ".entry k\nl: @!p0 bra l\nexit\n".toList = .ok ts
      ∧ ∃ ls, SpellsLines bitChars ts ls ∧ Source.Legal ls := by
  obtain ⟨ts, hts⟩ := Check.exists_of_isOk (x := lex ".entry k\nl: @!p0 bra l\nexit\n".toList)
    (by decide +kernel)
  exact ⟨ts, hts, (assemble_language bitChars _ ts hts).1.1
    (Check.exists_of_isOk (by decide +kernel))⟩

end WarpSim
