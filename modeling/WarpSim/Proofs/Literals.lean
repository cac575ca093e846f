import WarpSim.Proofs.Language

/-!
# Integer literals

A literal stands in an instruction, as its immediate or as the offset of its address, between other
lines. Which of them the assembler accepts, and what it encodes.
-/

namespace WarpSim

open Disassembler

section Places

/-- A row of digits of any length, with or without a minus sign. -/
structure Literal where
  negative : Bool
  digits : Text
  form : Digits digits ∨ HexForm digits

/-- The number that a literal writes. -/
def Literal.value (l : Literal) : Int :=
  if l.negative then -(literalValue l.digits : Int) else literalValue l.digits

/-- The number fits in 32 bits as a signed or an unsigned value. -/
def Literal.Fits (l : Literal) : Prop := -2 ^ 31 ≤ l.value ∧ l.value ≤ 2 ^ 32 - 1

/-- What an instruction takes a literal for. -/
inductive LiteralUse where
  | immediate
  | offset (base : BitVec 8)

/-- The operand in which a literal stands. -/
def LiteralUse.text (l : Literal) : LiteralUse → Text
  | .immediate => (if l.negative then ['-'] else []) ++ l.digits
  | .offset base =>
    '[' :: reg base ++ ((if l.negative then ['-'] else ['+']) ++ (l.digits ++ [']']))

def LiteralUse.operand (value : Word) : LiteralUse → Operand
  | .immediate => .immediate value
  | .offset base => .address base value

variable (C : FloatChars)

/-- A text that lexes to an operand, whatever follows it. -/
def Writes (opcode : Opcode) (text : Text) (o : Operand) : Prop :=
  Lexes Boundary text fun ts => ∃ o' : Operand, o'.Spells C opcode ts ∧ o'.plain = o.plain

/-- A place for a literal in a source: the other operands of its instruction and the other lines,
which keep the rules of the language whatever value the literal has. -/
structure LiteralPlace where
  use : LiteralUse
  guard : Guard
  info : OpcodeInfo
  left : List (Text × Operand)
  right : List (Text × Operand)
  before : List (Text × Line)
  after : List (Text × Line)
  base : ∀ n, use = .offset n → n.toNat < 64
  guarded : guard = {} ∨ guard.present = true ∧ guard.pred.toNat < 8
  known : info ∈ opcodeTable
  writes : ∀ x ∈ left ++ right, Writes C info.opcode x.1 x.2
  takes : ∀ value, List.Forall₂ Slot.Takes info.shape.slots
    (left.map Prod.snd ++ use.operand value :: right.map Prod.snd)
  prints : ∀ x ∈ before ++ after, Prints C x.1 x.2
  accepted : ∀ value, Source.Accepted (before.map Prod.snd
    ++ .code none (some ⟨guard, info, left.map Prod.snd ++ use.operand value :: right.map Prod.snd⟩)
    :: after.map Prod.snd)

namespace LiteralPlace

variable {C}

def statement (P : LiteralPlace C) (value : Word) : Statement where
  guard := P.guard
  info := P.info
  operands := P.left.map Prod.snd ++ P.use.operand value :: P.right.map Prod.snd

def line (P : LiteralPlace C) (value : Word) : Line := .code none (some (P.statement value))

/-- Texts with commas between them. -/
def join : List Text → Text
  | [] => []
  | [text] => text
  | text :: texts => text ++ (", ".toList ++ join texts)

/-- The text of the instruction with a literal in its place. -/
def lineText (P : LiteralPlace C) (l : Literal) : Text :=
  "    ".toList ++ (guardText P.guard ++ (P.info.mnemonic.toList
    ++ ' ' :: join (P.left.map Prod.fst ++ P.use.text l :: P.right.map Prod.fst)))

/-- The source with a literal in its place. -/
def source (P : LiteralPlace C) (l : Literal) : Text :=
  (P.before.flatMap fun x => x.1 ++ ['\n'])
    ++ (P.lineText l ++ '\n' :: P.after.flatMap fun x => x.1 ++ ['\n'])

/-- The rule for literals: in its place a literal is accepted if it fits in 32 bits, and its number
is encoded modulo 2^32. -/
structure OneRule (P : LiteralPlace C) (l : Literal) : Prop where
  accepts : (∃ p, assemble C (P.source l) = .ok p) ↔ l.Fits
  encodes : ∀ p, assemble C (P.source l) = .ok p → ∃ w i,
    p.words[(Source.statements (P.before.map Prod.snd)).length]? = some w ∧ decode w = .ok i
      ∧ i.imm = BitVec.ofInt 32 l.value

end LiteralPlace

end Places

section Operands

variable {C : FloatChars} {opcode : Opcode}

/-- Groups of tokens with a comma between each two. -/
inductive Joined : List (List Token) → List Token → Prop
  | last (g : List Token) : Joined [g] g
  | cons {g ts : List Token} {c : Token} {gs : List (List Token)} (hc : c.kind = .comma)
      (h : Joined gs ts) : Joined (g :: gs) (g ++ c :: ts)

theorem Joined.inside {gs : List (List Token)} {ts : List Token} (h : Joined gs ts)
    (hg : ∀ g ∈ gs, ∀ t ∈ g, t.kind.Inside) : ∀ t ∈ ts, t.kind.Inside := by
  induction h with
  | last g => exact hg g List.mem_cons_self
  | cons hc _ ih =>
    intro t ht
    rcases List.mem_append.1 ht with ht | ht
    · exact hg _ List.mem_cons_self t ht
    · rcases List.mem_cons.1 ht with rfl | ht
      · simp [TokenKind.Inside, hc]
      · exact ih (fun g h => hg g (List.mem_cons_of_mem _ h)) t ht

theorem SpellsRest.not_nil {c : Token} {ts : List Token} :
    ¬SpellsRest C opcode (c :: ts) [] := nofun

theorem SpellsRest.split {c : Token} {ts : List Token} {o : Operand} {os : List Operand}
    (h : SpellsRest C opcode (c :: ts) (o :: os)) :
    ∃ us vs, ts = us ++ vs ∧ o.Spells C opcode us ∧ SpellsRest C opcode vs os := by
  cases h with
  | cons hc h rest => exact ⟨_, _, rfl, h, rest⟩

theorem Joined.spellsRest {gs : List (List Token)} {ts : List Token} (h : Joined gs ts) :
    ∀ {c : Token} {os : List Operand}, c.kind = .comma → (∀ g ∈ gs, ∀ t ∈ g, t.kind ≠ .comma) →
      (SpellsRest C opcode (c :: ts) os
        ↔ List.Forall₂ (fun g o => Operand.Spells C opcode g o) gs os) := by
  induction h with
  | last g =>
    intro c os hc hno
    constructor
    · intro h
      rcases os with _ | ⟨o, os⟩
      · exact absurd h SpellsRest.not_nil
      · obtain ⟨us, vs, hts, ho, hos⟩ := h.split
        have hend : us ++ vs = g ++ [] := hts.symm.trans (List.append_nil g).symm
        have hnil : ∀ t ∈ ([] : List Token).head?, t.kind = .comma := nofun
        obtain ⟨rfl, rfl⟩ := cut_unique (P := fun t : Token => t.kind = .comma) ho.no_comma
          (hno g List.mem_cons_self) hos.head hnil hend
        cases hos
        exact .cons ho .nil
    · rintro (_ | ⟨ho, ⟨⟩⟩)
      simpa using SpellsRest.cons hc ho .nil
  | @cons g ts c' gs hc' _ ih =>
    intro c os hc hno
    have ih : ∀ os, SpellsRest C opcode (c' :: ts) os
        ↔ List.Forall₂ (fun g o => Operand.Spells C opcode g o) gs os :=
      fun os => ih hc' fun g hg => hno g (List.mem_cons_of_mem _ hg)
    constructor
    · intro h
      rcases os with _ | ⟨o, os⟩
      · exact absurd h SpellsRest.not_nil
      · obtain ⟨us, vs, hts, ho, hos⟩ := h.split
        have hhead : ∀ t ∈ (c' :: ts).head?, t.kind = .comma := by
          rintro _ ⟨⟩
          exact hc'
        obtain ⟨rfl, rfl⟩ := cut_unique (P := fun t : Token => t.kind = .comma)
          ho.no_comma (hno g List.mem_cons_self) hos.head hhead hts.symm
        exact .cons ho ((ih _).1 hos)
    · rintro (_ | ⟨ho, hos⟩)
      exact SpellsRest.cons hc ho ((ih _).2 hos)

/-- Groups without commas, with commas between them, spell operands one by one. -/
theorem Joined.spellsOperands {gs : List (List Token)} {ts : List Token} {o : Operand}
    {os : List Operand} (h : Joined gs ts) (hno : ∀ g ∈ gs, ∀ t ∈ g, t.kind ≠ .comma) :
    SpellsOperands C opcode ts (o :: os)
      ↔ List.Forall₂ (fun g o => Operand.Spells C opcode g o) gs (o :: os) := by
  have hcomma : ({ kind := .comma, text := [] } : Token).kind = .comma := rfl
  rw [← h.spellsRest hcomma hno]
  constructor
  · rintro (_ | ⟨h, hs⟩)
    exact .cons hcomma h hs
  · intro h
    obtain ⟨us, vs, rfl, ho, hos⟩ := h.split
    exact .cons ho hos

/-- Texts with commas between them lex to groups with commas between them. -/
theorem lexes_join : ∀ {texts : List Text} {Rs : List (List Token → Prop)}, texts ≠ [] →
    List.Forall₂ (fun text R => Lexes Boundary text R) texts Rs →
      Lexes Boundary (LiteralPlace.join texts) fun ts =>
        ∃ gs, Joined gs ts ∧ List.Forall₂ (fun g R => R g) gs Rs
  | [text], [R], _, .cons h .nil => h.imp fun ts hR => ⟨[ts], .last ts, .cons hR .nil⟩
  | text :: text' :: texts, R :: R' :: Rs, _, .cons h hs => by
    have hcomma : Lexes Anything [','] (Single fun t => t.kind = .comma) :=
      lexes_punct (by decide) rfl (by decide) fun _ => rfl
    have hrest := lexes_join (List.cons_ne_nil _ _) hs
    refine (h.append (hcomma.append ((lexes_blank (by decide) (by decide)).append hrest
      fun _ _ => trivial) fun _ _ => trivial) fun rest _ => boundary_append (by decide)).imp ?_
    rintro _ ⟨g, _, rfl, hg, _, _, rfl, ⟨c, rfl, hc⟩, _, ts, rfl, rfl, gs, hgs, hRs⟩
    exact ⟨g :: gs, .cons hc hgs, .cons hg hRs⟩

end Operands

section Literals

variable {C : FloatChars} {opcode : Opcode} {l : Literal}

theorem lexes_digits (l : Literal) :
    Lexes Boundary l.digits (Single fun t => t.kind = .integer ∧ t.text = l.digits) := by
  rcases l.form with h | ⟨ds, hne, hds, h⟩
  · have hlex := lexes_decimal h (.inl rfl) (.inl rfl)
    rw [List.append_nil, List.append_nil] at hlex
    exact hlex
  · rw [h]
    exact lexes_hex hne hds

/-- The tokens of the operand in which a literal stands. -/
def LiteralUse.Tokens (l : Literal) : LiteralUse → List Token → Prop
  | .immediate, ts => ∃ t : Token, t.kind = .integer ∧ t.text = l.digits
    ∧ if l.negative then ∃ m : Token, m.kind = .minus ∧ ts = [m, t] else ts = [t]
  | .offset base, ts => ∃ lb b s t r : Token, ts = [lb, b, s, t, r] ∧ lb.kind = .lBracket
    ∧ b.IsRegister base ∧ s.kind = (if l.negative then .minus else .plus) ∧ t.kind = .integer
    ∧ t.text = l.digits ∧ r.kind = .rBracket

theorem lexes_use {use : LiteralUse} (h : ∀ n, use = .offset n → n.toNat < 64) (l : Literal) :
    Lexes Boundary (use.text l) (use.Tokens l) := by
  cases use with
  | immediate =>
    unfold LiteralUse.text LiteralUse.Tokens
    rcases hn : l.negative with _ | _
    · refine (lexes_digits l).imp ?_
      rintro _ ⟨t, rfl, hk, ht⟩
      exact ⟨t, hk, ht, rfl⟩
    · refine (lexes_minus.append (lexes_digits l) fun _ _ => trivial).imp ?_
      rintro _ ⟨_, _, rfl, ⟨m, rfl, hm⟩, t, rfl, hk, ht⟩
      exact ⟨t, hk, ht, m, hm, rfl⟩
  | offset base =>
    have hsign : Lexes Anything (if l.negative then ['-'] else ['+'])
        (Single fun t => t.kind = if l.negative then .minus else .plus) := by
      rcases l.negative with _ | _
      · exact lexes_punct (by decide) rfl (by decide) fun _ => rfl
      · exact lexes_minus
    have hboundary : ∀ rest : Text,
        Boundary ((if l.negative then ['-'] else ['+']) ++ (l.digits ++ [']']) ++ rest) := by
      intro rest
      rcases l.negative with _ | _ <;> exact boundary_append (by decide)
    refine (lexes_lBracket.append ((lexes_reg (h base rfl)).append (hsign.append
      ((lexes_digits l).append lexes_rBracket fun rest _ => boundary_append (by decide))
      fun _ _ => trivial) fun rest _ => hboundary rest) fun _ _ => trivial).mono
        (fun _ _ => trivial) ?_
    rintro _ ⟨_, _, rfl, ⟨lb, rfl, hlb⟩, _, _, rfl, ⟨b, rfl, hb⟩, _, _, rfl,
      ⟨s, rfl, hs⟩, _, _, rfl, ⟨t, rfl, hk, ht⟩, r, rfl, hr⟩
    exact ⟨lb, b, s, t, r, rfl, hlb, hb, hs, hk, ht, hr⟩

/-- Which literals are accepted: an immediate that fits, and an offset whose magnitude fits. -/
def LiteralUse.Accepts (l : Literal) : LiteralUse → Prop
  | .immediate => l.Fits
  | .offset _ => literalValue l.digits < 2 ^ 32

theorem isInteger_digits {t : Token} (hk : t.kind = .integer) (ht : t.text = l.digits)
    {value : Word} : t.IsInteger value ↔ literalValue l.digits = value.toNat := by
  have hadmits : t.kind.Admits t.text := by
    rw [hk, ht]
    exact l.form
  rw [isInteger_iff hadmits, ht]
  exact and_iff_right hk

theorem ofInt_value (l : Literal) : BitVec.ofInt 32 l.value
    = if l.negative then 0 - BitVec.ofNat 32 (literalValue l.digits)
      else BitVec.ofNat 32 (literalValue l.digits) := by
  unfold Literal.value
  rcases l.negative with _ | _
  · exact BitVec.ofInt_natCast _ _
  · simp [BitVec.ofInt_neg]

theorem fits_iff (l : Literal) : l.Fits ↔ literalValue l.digits < 2 ^ 32
    ∧ (l.negative = true → literalValue l.digits ≤ 2 ^ 31) := by
  unfold Literal.Fits Literal.value
  rcases l.negative with _ | _
  · simp only [Bool.false_eq_true, if_false, false_imp_iff, and_true]
    omega
  · simp only [if_true, forall_const]
    omega

theorem magnitude_fits {t : Token} (hk : t.kind = .integer) (ht : t.text = l.digits)
    {negative : Bool} {value : Word} (h : SpellsMagnitude C opcode negative [t] value) :
    literalValue l.digits < 2 ^ 32 ∧ (negative = true → literalValue l.digits ≤ 2 ^ 31) := by
  cases h with
  | @integer _ value hv hneg =>
    rw [(isInteger_digits hk ht).1 hv]
    exact ⟨value.isLt, hneg⟩
  | float hv => exact absurd (hk.symm.trans hv.1) (by decide)

/-- An operand is spelled only if the literal is accepted. -/
theorem LiteralUse.Tokens.accepts {use : LiteralUse} {ts : List Token} (h : use.Tokens l ts)
    {o : Operand} (ho : o.Spells C opcode ts) : use.Accepts l := by
  cases use with
  | immediate =>
    obtain ⟨t, hk, ht, hts⟩ := h
    refine (fits_iff l).2 ?_
    split_ifs at hts with hn
    · obtain ⟨m, hm, rfl⟩ := hts
      cases ho with
      | immediate h =>
        cases h with
        | positive h =>
          obtain ⟨_, hsingle, -⟩ := h.head
          cases hsingle
        | negative _ h =>
          obtain ⟨hlt, hle⟩ := magnitude_fits hk ht h
          exact ⟨hlt, fun _ => hle rfl⟩
      | address hl => exact absurd (hm.symm.trans hl) (by decide)
    · subst hts
      cases ho with
      | register h => exact absurd (hk.symm.trans h.1) (by decide)
      | predicate h => exact absurd (hk.symm.trans h.1) (by decide)
      | special h => exact absurd (hk.symm.trans h.1) (by decide)
      | label h => exact absurd (hk.symm.trans h) (by decide)
      | immediate h =>
        cases h with
        | positive h => exact ⟨(magnitude_fits hk ht h).1, fun h => absurd h hn⟩
        | negative hm => exact absurd (hk.symm.trans hm) (by decide)
  | offset base =>
    obtain ⟨lb, b, s, t, r, rfl, hlb, hb, hs, hk, ht, hr⟩ := h
    have hint : ∀ {value : Word}, t.IsInteger value → literalValue l.digits < 2 ^ 32 := by
      intro value hv
      rw [(isInteger_digits hk ht).1 hv]
      exact value.isLt
    cases ho with
    | address _ _ h =>
      cases h with
      | plus _ hv => exact hint hv
      | minus _ hv => exact hint hv
    | immediate h =>
      cases h with
      | positive h =>
        obtain ⟨_, hsingle, -⟩ := h.head
        cases hsingle
      | negative hm => exact absurd (hlb.symm.trans hm) (by decide)

/-- An accepted literal is encoded modulo 2^32. -/
theorem LiteralUse.Tokens.spells {use : LiteralUse} {ts : List Token} (h : use.Tokens l ts)
    (hok : use.Accepts l) : (use.operand (BitVec.ofInt 32 l.value)).Spells C opcode ts := by
  rw [ofInt_value]
  cases use with
  | immediate =>
    obtain ⟨t, hk, ht, hts⟩ := h
    obtain ⟨hlt, hle⟩ := (fits_iff l).1 hok
    have hint : t.IsInteger (BitVec.ofNat 32 (literalValue l.digits)) :=
      (isInteger_digits hk ht).2 (toNat_ofNat_of_lt hlt).symm
    split_ifs at hts ⊢ with hn
    · obtain ⟨m, hm, rfl⟩ := hts
      have hsmall : BitVec.ofNat 32 (literalValue l.digits) ≤ 0x80000000 := by
        rw [BitVec.le_def, toNat_ofNat_of_lt hlt]
        exact hle hn
      exact .immediate (.negative hm (.integer hint fun _ => hsmall))
    · subst hts
      exact .immediate (.positive (.integer hint nofun))
  | offset base =>
    obtain ⟨lb, b, s, t, r, rfl, hlb, hb, hs, hk, ht, hr⟩ := h
    have hint : t.IsInteger (BitVec.ofNat 32 (literalValue l.digits)) :=
      (isInteger_digits hk ht).2 (toNat_ofNat_of_lt hok).symm
    split_ifs at hs ⊢ with hn
    · exact .address hlb hb (.minus hs hint hr)
    · exact .address hlb hb (.plus hs hint hr)

theorem LiteralUse.Tokens.inside {use : LiteralUse} {ts : List Token} (h : use.Tokens l ts) :
    ∀ t ∈ ts, t.kind.Inside ∧ t.kind ≠ .comma := by
  cases use with
  | immediate =>
    obtain ⟨t, hk, -, hts⟩ := h
    split_ifs at hts with hn
    · obtain ⟨m, hm, rfl⟩ := hts
      simp [TokenKind.Inside, hk, hm]
    · simp [TokenKind.Inside, hts, hk]
  | offset base =>
    obtain ⟨lb, b, s, t, r, rfl, hlb, hb, hs, hk, -, hr⟩ := h
    split_ifs at hs <;> simp [TokenKind.Inside, hlb, hb.1, hs, hk, hr]

end Literals

namespace LiteralPlace

variable {C : FloatChars} {P : LiteralPlace C} {l : Literal}

/-- What the text of an operand lexes to. -/
def Written (opcode : Opcode) (x : Text × Operand) (g : List Token) : Prop :=
  ∃ o : Operand, o.Spells C opcode g ∧ o.plain = x.2.plain

/-- What the texts of the operands lex to, with a literal in its place. -/
def groups (P : LiteralPlace C) (l : Literal) : List (List Token → Prop) :=
  P.left.map (Written (C := C) P.info.opcode)
    ++ P.use.Tokens l :: P.right.map (Written (C := C) P.info.opcode)

/-- The tokens of the instruction with a literal in its place. -/
inductive LineTokens (P : LiteralPlace C) (l : Literal) : List Token → Prop
  | mk {us vs : List Token} {m : Token} {gs : List (List Token)} (hg : SpellsGuard us P.guard)
      (hm : m.kind = .identifier)
      (hi : opcodeInfoOfMnemonic (String.ofList m.text) = some P.info) (hgs : Joined gs vs)
      (hw : List.Forall₂ (fun g R => R g) gs (P.groups l)) : LineTokens P l (us ++ m :: vs)

theorem lexes_lineText (P : LiteralPlace C) (l : Literal) :
    Lexes AtNewline (P.lineText l) (P.LineTokens l) := by
  have hside : ∀ xs : List (Text × Operand), (∀ x ∈ xs, Writes C P.info.opcode x.1 x.2) →
      List.Forall₂ (fun text R => Lexes Boundary text R) (xs.map Prod.fst)
        (xs.map (Written (C := C) P.info.opcode)) := by
    intro xs h
    rw [List.forall₂_map_left_iff, List.forall₂_map_right_iff, List.forall₂_same]
    exact h
  have hall : List.Forall₂ (fun text R => Lexes Boundary text R)
      (P.left.map Prod.fst ++ P.use.text l :: P.right.map Prod.fst) (P.groups l) :=
    List.rel_append (hside P.left fun x hx => P.writes x (List.mem_append_left _ hx))
      (.cons (lexes_use P.base l)
        (hside P.right fun x hx => P.writes x (List.mem_append_right _ hx)))
  have hjoin := lexes_join (by simp) hall
  refine Lexes.indent (((lexes_guardText P.guarded).append
    ((lexes_identifier (isIdentifier_mnemonic P.known)).append
      ((lexes_blank (by decide) (by decide)).append hjoin fun _ _ => trivial)
      fun rest _ => boundary_append (by decide)) fun _ _ => trivial).mono
        (fun _ h => h.boundary) ?_) 4
  rintro _ ⟨us, _, rfl, hg, _, _, rfl, ⟨m, rfl, hm, htext⟩, _, vs, rfl, rfl, gs, hgs, hw⟩
  refine .mk hg hm ?_ hgs hw
  rw [htext, String.ofList_toList]
  exact opcodeInfoOfMnemonic_mnemonic _ P.known

theorem groups_inside {gs : List (List Token)}
    (hw : List.Forall₂ (fun g R => R g) gs (P.groups l)) :
    ∀ g ∈ gs, ∀ t ∈ g, t.kind.Inside ∧ t.kind ≠ .comma := by
  intro g hg
  obtain ⟨R, hR, hRg⟩ := exists_of_forall₂_right hw.flip g hg
  have hwritten : ∀ xs : List (Text × Operand),
      R ∈ xs.map (Written (C := C) P.info.opcode) →
        ∀ t ∈ g, t.kind.Inside ∧ t.kind ≠ .comma := by
    rintro xs hR t ht
    obtain ⟨x, -, rfl⟩ := List.mem_map.1 hR
    obtain ⟨o, ho, -⟩ := hRg
    exact ⟨ho.inside t ht, ho.no_comma t ht⟩
  rcases List.mem_append.1 hR with hR | hR
  · exact hwritten _ hR
  · rcases List.mem_cons.1 hR with rfl | hR
    · exact LiteralUse.Tokens.inside hRg
    · exact hwritten _ hR

theorem forall₂_weaken {α : Type} {as : List α} : ∀ {Rs Rs' : List (α → Prop)},
    List.Forall₂ (fun a R => R a) as Rs → List.Forall₂ (fun R R' => ∀ a, R a → R' a) Rs Rs' →
      List.Forall₂ (fun a R => R a) as Rs' := by
  induction as with
  | nil => rintro _ _ ⟨⟩ ⟨⟩; exact .nil
  | cons a as ih => rintro _ _ (_ | ⟨h, hs⟩) (_ | ⟨hr, hrs⟩); exact .cons (hr a h) (ih hs hrs)

theorem exists_operands : ∀ {gs : List (List Token)} {xs : List (Text × Operand)},
    List.Forall₂ (fun g R => R g) gs (xs.map (Written (C := C) P.info.opcode)) →
      ∃ os, List.Forall₂ (fun g o => Operand.Spells C P.info.opcode g o) gs os
        ∧ os.map Operand.plain = xs.map fun x => x.2.plain
  | [], [], .nil => ⟨[], .nil, rfl⟩
  | g :: gs, x :: xs, .cons ⟨o, ho, hplain⟩ hs => by
    obtain ⟨os, hos, hplains⟩ := exists_operands hs
    exact ⟨o :: os, .cons ho hos, by rw [List.map_cons, List.map_cons, hplain, hplains]⟩

theorem LineTokens.inside {ts : List Token} (h : P.LineTokens l ts) :
    ∀ t ∈ ts, t.kind.Inside := by
  cases h with
  | mk hg hm hi hgs hw =>
    intro t ht
    rcases List.mem_append.1 ht with ht | ht
    · simp [TokenKind.Inside, hg.kind t ht]
    · rcases List.mem_cons.1 ht with rfl | ht
      · simp [TokenKind.Inside, hm]
      · exact hgs.inside (fun g hg t ht => (groups_inside hw g hg t ht).1) t ht

/-- The instruction is a line only if the literal is accepted. -/
theorem LineTokens.accepts {ts : List Token} (h : P.LineTokens l ts) {line : Line}
    (hline : line.Spells C ts) : P.use.Accepts l := by
  obtain ⟨st, hst⟩ : ∃ st : Statement, st.Spells C ts := by
    have hinside := h.inside
    have hne : ts ≠ [] := by
      cases h
      simp
    cases hline with
    | entry hd => exact absurd hd (hinside _ List.mem_cons_self).2.2.2
    | param hd => exact absurd hd (hinside _ List.mem_cons_self).2.2.2
    | shared hd => exact absurd hd (hinside _ List.mem_cons_self).2.2.2
    | blank => exact absurd rfl hne
    | label _ hc => exact absurd hc (hinside _ (by simp)).2.1
    | statement h => exact ⟨_, h⟩
    | labelled _ hc => exact absurd hc (hinside _ (by simp)).2.1
  cases h with
  | @mk us vs m gs hg hm hi hgs hw =>
    have hno := fun g hg t ht => (groups_inside hw g hg t ht).2
    obtain ⟨g, hgroup, hlit⟩ := exists_of_forall₂_right hw (P.use.Tokens l) (by simp [groups])
    generalize hts : us ++ m :: vs = ts at hst
    cases hst with
    | @mk us' vs' m' st hg' hm' hi' ho hk =>
      obtain ⟨rfl, rfl, rfl⟩ := hg.cut hg' hm hm' hts
      have hinfo := Option.some.inj (hi.symm.trans hi')
      have htakes := P.takes 0
      rw [hinfo] at htakes
      rcases hos : st.operands with _ | ⟨o, os⟩ <;> rw [hos] at ho hk
      · have hlen := htakes.length_eq.symm.trans hk.length_eq
        simp at hlen
      · obtain ⟨o', -, ho'⟩ := exists_of_forall₂_right ((hgs.spellsOperands hno).1 ho).flip g
          hgroup
        exact hlit.accepts ho'

/-- With an accepted literal the text is that of the instruction with the literal's number. -/
theorem prints_lineText (hok : P.use.Accepts l) :
    Prints C (P.lineText l) (P.line (BitVec.ofInt 32 l.value)) := by
  refine (lexes_lineText P l).imp ?_
  rintro _ (@⟨us, vs, m, gs, hg, hm, hi, hgs, hw⟩)
  have hall : List.Forall₂ (fun R R' : List Token → Prop => ∀ g, R g → R' g) (P.groups l)
      ((P.left ++ ([], P.use.operand (BitVec.ofInt 32 l.value)) :: P.right).map
        (Written (C := C) P.info.opcode)) := by
    rw [List.map_append, List.map_cons]
    refine List.rel_append (List.forall₂_same.2 fun _ _ _ h => h)
      (.cons (fun g hg => ⟨_, hg.spells hok, rfl⟩) (List.forall₂_same.2 fun _ _ _ h => h))
  obtain ⟨os, hos, hplain⟩ := exists_operands (forall₂_weaken hw hall)
  have hops : os.map Operand.plain
      = (P.statement (BitVec.ofInt 32 l.value)).operands.map Operand.plain := by
    rw [hplain, statement]
    simp [Function.comp_def]
  rcases os with _ | ⟨o, os⟩
  · simp [statement] at hops
  · have hno := fun g hg t ht => (groups_inside hw g hg t ht).2
    have hst : Statement.Spells C (us ++ m :: vs) ⟨P.guard, P.info, o :: os⟩ :=
      .mk hg hm hi ((hgs.spellsOperands hno).2 hos) (takes_of_plain (P.takes _) hops)
    refine ⟨_, .statement hst, ?_⟩
    rw [line, Line.plain, Line.plain, Option.map_some, Option.map_some, Statement.plain,
      Statement.plain, hops]
    rfl

/-- Between newlines, the tokens of a source spell a line. -/
theorem SpellsLines.segment {ts : List Token} {ls : Source} (h : SpellsLines C ts ls) :
    ∀ {pre body post : List Token} {n : Token}, ts = pre ++ (body ++ n :: post) →
      (∀ t ∈ pre.getLast?, t.kind = .newline) → n.kind = .newline →
        (∀ t ∈ body, t.kind ≠ .newline) → ∃ l ∈ ls, l.Spells C body := by
  induction h with
  | @nil e he =>
    intro pre body post n hts _ hn _
    have hmem : n ∈ [e] := by simp [hts]
    rw [List.mem_singleton.1 hmem] at hn
    exact absurd (he.symm.trans hn) (by decide)
  | @cons us vs n' l ls h hn' rest ih =>
    intro pre body post n hts hpre hn hbody
    have hhead : ∀ t ∈ (n' :: vs).head?, t.kind = .newline := by
      rintro _ ⟨⟩
      exact hn'
    rcases hdrop : pre.dropWhile (fun t => t.kind != .newline) with _ | ⟨m, pre'⟩
    · have hnone : pre = [] := by
        rcases List.eq_nil_or_concat pre with hnil | ⟨init, last, rfl⟩
        · exact hnil
        · have hlast := hpre last (by simp)
          have hall := List.dropWhile_eq_nil_iff.1 hdrop last (by simp)
          simp [hlast] at hall
      subst hnone
      obtain ⟨rfl, -⟩ := cut_unique (P := fun t : Token => t.kind = .newline) h.no_newline hbody
        hhead (by simpa using hn) hts
      exact ⟨l, List.mem_cons_self, h⟩
    · have hsplit := List.takeWhile_append_dropWhile (p := fun t : Token => t.kind != .newline)
        (l := pre)
      rw [hdrop] at hsplit
      have hm : m.kind = .newline := by
        have := List.head?_dropWhile_not (fun t : Token => t.kind != .newline) pre
        rw [hdrop] at this
        simpa using this
      have htake : ∀ t ∈ pre.takeWhile (fun t => t.kind != .newline), ¬t.kind = .newline :=
        fun t ht => by simpa using List.mem_takeWhile_imp ht
      rw [← hsplit, List.append_assoc] at hts
      obtain ⟨-, hcons⟩ := cut_unique (P := fun t : Token => t.kind = .newline) h.no_newline htake
        hhead (by simpa using hm) hts
      have hlast : ∀ t ∈ pre'.getLast?, t.kind = .newline := by
        refine fun t ht => hpre t ?_
        rw [← hsplit, List.getLast?_append, List.getLast?_cons, Option.mem_def.1 ht]
        rfl
      obtain ⟨l', hl', hbody'⟩ := ih (List.cons.inj hcons).2 hlast hn hbody
      exact ⟨l', List.mem_cons_of_mem _ hl', hbody'⟩

/-- What the source with a literal lexes to. -/
theorem lex_source (P : LiteralPlace C) (l : Literal) : ∃ pre body n post,
    lex (P.source l) = .ok (pre ++ (body ++ n :: post)) ∧ (∀ t ∈ pre.getLast?, t.kind = .newline)
      ∧ n.kind = .newline ∧ P.LineTokens l body := by
  have hbefore := lexes_lines fun x hx => P.prints x (List.mem_append_left _ hx)
  have hafter := lexes_lines fun x hx => P.prints x (List.mem_append_right _ hx)
  have hline := (lexes_lineText P l).append lexes_newline fun rest _ => rfl
  have hall := hbefore.append (hline.append hafter fun _ _ => trivial) fun _ _ => trivial
  obtain ⟨ts, e, hlex, hR, -⟩ := lex_of_lexes hall (by
    rintro _ ⟨pre, _, rfl, -, _, post, rfl, ⟨body, _, rfl, -, n, rfl, hn⟩, ⟨_, -, -, -, hpost⟩⟩
    rcases hp : post.getLast? with _ | t
    · simp [List.getLast?_eq_none_iff.1 hp, hn]
    · simp [List.getLast?_append, List.getLast?_cons, hp, hpost t hp])
  obtain ⟨pre, _, rfl, ⟨_, -, -, -, hpre⟩, _, post, rfl, ⟨body, _, rfl, hbody, n, rfl, hn⟩, -⟩ := hR
  refine ⟨pre, body, n, post ++ [e], ?_, hpre, hn, hbody⟩
  simp only [List.append_assoc, List.cons_append, List.nil_append] at hlex
  exact hlex

theorem accepts_of_assemble {p : Program} (h : assemble C (P.source l) = .ok p) :
    P.use.Accepts l := by
  obtain ⟨pre, body, n, post, hlex, hpre, hn, hbody⟩ := lex_source P l
  obtain ⟨ts, ls, hlex', hspells, -⟩ := ((assemble_spec C _).1 p).1 h
  obtain rfl := Except.ok.inj (hlex.symm.trans hlex')
  obtain ⟨line, -, hline⟩ := SpellsLines.segment hspells rfl hpre hn
    fun t ht => (hbody.inside t ht).1
  exact hbody.accepts hline

theorem eq_of_plain {use : LiteralUse} {value : Word} {o : Operand}
    (h : o.plain = (use.operand value).plain) : o = use.operand value := by
  cases use <;> cases o <;> cases h <;> rfl

theorem imm_of_holds {label : Text → Pc → Prop} {param : Text → Word → Prop} {sls : List Slot}
    {os : List Operand} {i : Instruction}
    (h : List.Forall₂ (fun (sl : Slot) o => sl.Holds label param o i) sls os) {use : LiteralUse}
    {value : Word} (hmem : use.operand value ∈ os) : i.imm = value := by
  induction h with
  | nil => cases hmem
  | @cons sl o sls os h _ ih =>
    rcases List.mem_cons.1 hmem with rfl | hmem
    · cases use <;> cases sl <;> first | exact h.elim | exact h.2
    · exact ih hmem

/-- With an accepted literal the source assembles, and its number is encoded modulo 2^32. -/
theorem assemble_of_accepts (hok : P.use.Accepts l) :
    ∃ p, assemble C (P.source l) = .ok p ∧ ∃ w i,
      p.words[(Source.statements (P.before.map Prod.snd)).length]? = some w ∧ decode w = .ok i
        ∧ i.imm = BitVec.ofInt 32 l.value := by
  have hprints : ∀ x ∈ P.before ++ (P.lineText l, P.line (BitVec.ofInt 32 l.value)) :: P.after,
      Prints C x.1 x.2 := by
    intro x hx
    rcases List.mem_append.1 hx with hx | hx
    · exact P.prints x (List.mem_append_left _ hx)
    · rcases List.mem_cons.1 hx with rfl | hx
      · exact prints_lineText hok
      · exact P.prints x (List.mem_append_right _ hx)
  obtain ⟨ts, ls, hlex, hspells, hplain⟩ := lex_lines hprints (by simp)
  have hplain : ls.map Line.plain = (P.before.map Prod.snd
      ++ P.line (BitVec.ofInt 32 l.value) :: P.after.map Prod.snd).map Line.plain := by
    rw [hplain]
    simp [Function.comp_def]
  have haccept : ls.Accepted := by
    rw [← Source.accepted_plain, hplain, Source.accepted_plain]
    exact P.accepted _
  obtain ⟨p, hp⟩ := haccept.exists_program hspells.info
  have hsource : P.source l = (P.before ++ (P.lineText l, P.line (BitVec.ofInt 32 l.value))
      :: P.after).flatMap fun x => x.1 ++ ['\n'] := by
    simp [source]
  refine ⟨p, ((assemble_spec C _).1 p).2 ⟨ts, ls, hsource ▸ hlex, hspells, haccept, hp⟩, ?_⟩
  have hstatements : ls.statements.map Statement.plain = (Source.statements
      (P.before.map Prod.snd ++ P.line (BitVec.ofInt 32 l.value) :: P.after.map Prod.snd)).map
        Statement.plain := by
    rw [← Source.statements_plain, hplain, Source.statements_plain]
  obtain ⟨st, hk, hst⟩ : ∃ st, ls.statements[(Source.statements (P.before.map Prod.snd)).length]?
      = some st ∧ st.plain = (P.statement (BitVec.ofInt 32 l.value)).plain := by
    have hget := congrArg (·[(Source.statements (P.before.map Prod.snd)).length]?) hstatements
    simp only [List.getElem?_map, Source.statements_append] at hget
    rw [List.getElem?_append_right (Nat.le_refl _), Nat.sub_self] at hget
    obtain ⟨st, hst, hplain⟩ := Option.map_eq_some_iff.1 (hget.trans (b := some _) rfl)
    exact ⟨st, hst, hplain⟩
  have hmem : P.use.operand (BitVec.ofInt 32 l.value) ∈ st.operands := by
    have hops : st.operands.map Operand.plain
        = (P.statement (BitVec.ofInt 32 l.value)).operands.map Operand.plain :=
      congrArg Statement.operands hst
    have hin : (P.use.operand (BitVec.ofInt 32 l.value)).plain ∈ st.operands.map Operand.plain := by
      rw [hops]
      exact List.mem_map_of_mem (by simp [statement])
    obtain ⟨o, ho, hplain⟩ := List.mem_map.1 hin
    rwa [← eq_of_plain hplain]
  obtain ⟨i₀, w, i, hi₀, hw, hdecode, hsame, -⟩ := hp.word haccept.follows hspells.info hk
  have himm := imm_of_holds (holds_of_fillSlots hi₀) hmem
  refine ⟨w, i, hw, hdecode, ?_⟩
  cases Statement.branches (hspells.info st (List.mem_of_getElem? hk)) hi₀ with
  | branch _ hos =>
    rw [hos] at hmem
    cases hu : P.use <;> simp [hu, LiteralUse.operand] at hmem
  | plain hop => rw [hsame hop, himm]

/-- The rule for literals holds in every place but that of a negative offset whose magnitude is past
2^31 and below 2^32: such a literal is accepted, although it does not fit. -/
theorem literal_rule (P : LiteralPlace C) (l : Literal) : P.OneRule l ↔
    ¬(P.use ≠ .immediate ∧ l.negative = true ∧ 2 ^ 31 < literalValue l.digits
      ∧ literalValue l.digits < 2 ^ 32) := by
  have haccepts : (∃ p, assemble C (P.source l) = .ok p) ↔ P.use.Accepts l :=
    ⟨fun ⟨_, hp⟩ => accepts_of_assemble hp, fun hok =>
      (assemble_of_accepts hok).imp fun _ h => h.1⟩
  have hrange : (P.use.Accepts l ↔ l.Fits) ↔ ¬(P.use ≠ .immediate ∧ l.negative = true
      ∧ 2 ^ 31 < literalValue l.digits ∧ literalValue l.digits < 2 ^ 32) := by
    rw [fits_iff]
    cases P.use with
    | immediate => simp [LiteralUse.Accepts, fits_iff]
    | offset base =>
      rw [LiteralUse.Accepts]
      simp only [ne_eq, reduceCtorEq, not_false_eq_true, true_and]
      constructor
      · rintro h ⟨hneg, hlarge, hlt⟩
        exact absurd ((h.1 hlt).2 hneg) (Nat.not_le.2 hlarge)
      · intro h
        refine ⟨fun hlt => ⟨hlt, fun hneg => ?_⟩, fun h => h.1⟩
        by_contra hle
        exact h ⟨hneg, Nat.lt_of_not_le hle, hlt⟩
  constructor
  · intro h
    exact hrange.1 (haccepts.symm.trans h.accepts)
  · intro h
    refine ⟨haccepts.trans (hrange.2 h), fun p hp => ?_⟩
    obtain ⟨q, hq, w, i, hw⟩ := assemble_of_accepts (accepts_of_assemble hp)
    cases hp.symm.trans hq
    exact ⟨w, i, hw⟩

theorem prints_kernel (C : FloatChars) : Prints C (".entry ".toList ++ ['k']) (.entry ['k']) :=
  prints_entry ⟨'k', [], rfl, by decide, by simp⟩

theorem writes_reg {opcode : Opcode} {n : BitVec 8} (hn : n.toNat < 64) :
    Writes C opcode (reg n) (.register n) := by
  refine (lexes_reg hn).imp ?_
  rintro _ ⟨t, rfl, ht⟩
  exact ⟨_, .register ht, rfl⟩

/-- A kernel of one instruction that names no label and no parameter is accepted. -/
theorem accepted_single {st : Statement} (hinfo : st.info ∈ opcodeTable) (hguard : st.guard = {})
    (hk : List.Forall₂ Slot.Takes st.info.shape.slots st.operands)
    (hos : ∀ o ∈ st.operands, o.Exists) (hnames : st.names = [])
    (hps : ∀ name, Operand.parameter name ∉ st.operands) :
    Source.Accepted [.entry ['k'], .code none (some st)] := by
  have hencodes : Parser.Encodes [] st :=
    encodes_of_exists hinfo (.inl hguard) hk hos fun name hname => absurd hname (hps name)
  have hentry : Source.WellFormed ([] ++ [.entry ['k']]) :=
    Source.wellFormed_snoc.2 ⟨Source.wellFormed_nil, .entry rfl rfl⟩
  have hfollows : Source.WellFormed ([.entry ['k']] ++ [.code none (some st)]) := by
    refine Source.wellFormed_snoc.2 ⟨hentry, .code nofun ?_⟩
    rintro _ ⟨⟩
    exact hencodes
  refine ⟨hfollows, List.cons_ne_nil 'k' [], Nat.le_of_ble_eq_true rfl, ?_⟩
  intro st' hst' name hname
  obtain rfl : st' = st := List.mem_singleton.1 hst'
  rw [hnames] at hname
  cases hname

/-- A place for the offset of `ld.global r0, [r1-..]`. -/
def loadPlace (C : FloatChars) : LiteralPlace C where
  use := .offset 1
  guard := {}
  info := ⟨.ldGlobal, "ld.global", .ld⟩
  left := [(reg 0, .register 0)]
  right := []
  before := [(".entry ".toList ++ ['k'], .entry ['k'])]
  after := []
  base n h := by cases h; decide
  guarded := .inl rfl
  known := by simp [opcodeTable]
  writes x hx := by
    obtain rfl := List.mem_singleton.1 hx
    exact writes_reg (by decide)
  takes value := .cons trivial (.cons trivial .nil)
  prints x hx := by
    obtain rfl := List.mem_singleton.1 hx
    exact prints_kernel C
  accepted value := accepted_single (by simp [opcodeTable]) rfl
    (.cons trivial (.cons trivial .nil)) (by simp [LiteralUse.operand, Operand.Exists]) rfl
    (by simp [LiteralUse.operand])

/-- A place for the immediate of `add r0, r1, ..`. -/
def addPlace (C : FloatChars) : LiteralPlace C where
  use := .immediate
  guard := {}
  info := ⟨.add, "add", .rrr⟩
  left := [(reg 0, .register 0), (reg 1, .register 1)]
  right := []
  before := [(".entry ".toList ++ ['k'], .entry ['k'])]
  after := []
  base n h := by cases h
  guarded := .inl rfl
  known := by simp [opcodeTable]
  writes x hx := by
    rcases List.mem_pair.1 hx with rfl | rfl <;> exact writes_reg (by decide)
  takes value := .cons trivial (.cons trivial (.cons trivial .nil))
  prints x hx := by
    obtain rfl := List.mem_singleton.1 hx
    exact prints_kernel C
  accepted value := accepted_single (by simp [opcodeTable]) rfl
    (.cons trivial (.cons trivial (.cons trivial .nil)))
    (by simp [LiteralUse.operand, Operand.Exists]) rfl (by simp [LiteralUse.operand])

/-- `add r0, r1, -2147483648` assembles, and adds the number that is written. -/
example : ∃ p, assemble bitChars ((addPlace bitChars).source
    ⟨true, "2147483648".toList, .inl ⟨by decide, List.all_eq_true.1 (by decide)⟩⟩) = .ok p
      ∧ ∃ w i, p.words[0]? = some w ∧ decode w = .ok i ∧ i.imm = 0x80000000 :=
  assemble_of_accepts ((fits_iff _).2 ⟨by decide, fun _ => by decide⟩)

/-- The offset of `ld.global r0, [r1-4294967295]` is accepted, and loads from `r1+1`. -/
theorem loadPlace_wraps : ¬(loadPlace bitChars).OneRule
    ⟨true, "4294967295".toList, .inl ⟨by decide, List.all_eq_true.1 (by decide)⟩⟩ := by
  intro h
  have hok : literalValue "4294967295".toList < 2 ^ 32 := by decide
  obtain ⟨p, hp, -⟩ := assemble_of_accepts (P := loadPlace bitChars)
    (l := ⟨true, "4294967295".toList, .inl ⟨by decide, List.all_eq_true.1 (by decide)⟩⟩) hok
  exact absurd (h.accepts.1 ⟨p, hp⟩) (by rw [fits_iff]; decide)

end LiteralPlace

end WarpSim
