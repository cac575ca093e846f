import WarpSim.Proofs.Codec
import WarpSim.Proofs.Parsing

/-!
# The parser reads lines

What one line does to the state of the parser, and that the loop over the tokens succeeds exactly
on the lines of the language that follow one another.
-/

namespace WarpSim

open Stateful

variable {Fail : Stop → Prop} {ps : List Text} {C : FloatChars}

section Kinds

/-- The kinds of tokens inside a statement. -/
def TokenKind.Inside (k : TokenKind) : Prop :=
  k ≠ .newline ∧ k ≠ .colon ∧ k ≠ .sourceEnd ∧ k ≠ .directive

theorem SpellsMagnitude.inside {opcode : Opcode} {negative : Bool} {ts : List Token} {value : Word}
    (h : SpellsMagnitude C opcode negative ts value) : ∀ t ∈ ts, t.kind.Inside := by
  obtain ⟨t, rfl, ht⟩ := h.head
  rcases ht with ht | ht <;> simp [TokenKind.Inside, ht]

theorem SpellsOffset.inside {ts : List Token} {value : Word} (h : SpellsOffset ts value) :
    ∀ t ∈ ts, t.kind.Inside := by
  cases h with
  | none hr => simp [TokenKind.Inside, hr]
  | plus hs ht hr => simp [TokenKind.Inside, hs, ht.1, hr]
  | minus hs ht hr => simp [TokenKind.Inside, hs, ht.1, hr]

theorem Operand.Spells.inside {opcode : Opcode} {ts : List Token} {o : Operand}
    (h : o.Spells C opcode ts) : ∀ t ∈ ts, t.kind.Inside := by
  cases h with
  | register h => simp [TokenKind.Inside, h.1]
  | predicate h => simp [TokenKind.Inside, h.1]
  | immediate h =>
    cases h with
    | positive h => exact h.inside
    | negative hm h =>
      intro t ht
      rcases List.mem_cons.1 ht with rfl | ht
      · simp [TokenKind.Inside, hm]
      · exact h.inside t ht
  | special h => simp [TokenKind.Inside, h.1]
  | label h => simp [TokenKind.Inside, h]
  | address hl hb ho =>
    intro t ht
    rcases List.mem_cons.1 ht with rfl | ht
    · simp [TokenKind.Inside, hl]
    · rcases List.mem_cons.1 ht with rfl | ht
      · simp [TokenKind.Inside, hb.1]
      · exact ho.inside t ht
  | parameter hl ht hr => simp [TokenKind.Inside, hl, ht, hr]

theorem SpellsRest.inside {opcode : Opcode} {ts : List Token} {os : List Operand}
    (h : SpellsRest C opcode ts os) : ∀ t ∈ ts, t.kind.Inside := by
  induction h with
  | nil => simp
  | cons hc ho _ ih =>
    intro t ht
    rcases List.mem_append.1 ht with ht | ht
    · rcases List.mem_cons.1 ht with rfl | ht
      · simp [TokenKind.Inside, hc]
      · exact ho.inside t ht
    · exact ih t ht

theorem SpellsOperands.inside {opcode : Opcode} {ts : List Token} {os : List Operand}
    (h : SpellsOperands C opcode ts os) : ∀ t ∈ ts, t.kind.Inside := by
  cases h with
  | nil => simp
  | cons ho hos =>
    intro t ht
    exact (List.mem_append.1 ht).elim (ho.inside t) (hos.inside t)

theorem SpellsGuard.kind {ts : List Token} {g : Guard} (h : SpellsGuard ts g) :
    ∀ t ∈ ts, t.kind = .guard := by
  cases h <;> simp [*]

theorem Statement.Spells.inside {ts : List Token} {st : Statement} (h : st.Spells C ts) :
    ∀ t ∈ ts, t.kind.Inside := by
  cases h with
  | mk hg hm hi ho hk =>
    intro t ht
    rcases List.mem_append.1 ht with ht | ht
    · simp [TokenKind.Inside, hg.kind t ht]
    · rcases List.mem_cons.1 ht with rfl | ht
      · simp [TokenKind.Inside, hm]
      · exact ho.inside t ht

theorem Statement.Spells.ne_nil {ts : List Token} {st : Statement} (h : st.Spells C ts) :
    ts ≠ [] := by
  cases h
  simp

theorem Line.Spells.no_newline {ts : List Token} {l : Line} (h : l.Spells C ts) :
    ∀ t ∈ ts, t.kind ≠ .newline := by
  cases h with
  | entry hd _ ht => simp [hd, ht]
  | param hd _ ht => simp [hd, ht]
  | shared hd _ ht => simp [hd, ht.1]
  | blank => simp
  | label ht hc => simp [ht, hc]
  | statement h => exact fun t ht => (h.inside t ht).1
  | labelled ht hc h =>
    intro t hmem
    rcases List.mem_cons.1 hmem with rfl | hmem
    · simp [ht]
    · rcases List.mem_cons.1 hmem with rfl | hmem
      · simp [hc]
      · exact (h.inside t hmem).1

theorem Line.Spells.blank_of_nil {l : Line} (h : l.Spells C []) : l = .code none none := by
  generalize hts : ([] : List Token) = ts at h
  cases h with
  | blank => rfl
  | statement h => exact absurd hts.symm h.ne_nil
  | _ => cases hts

/-- Lines that begin at a newline begin with an empty one. -/
theorem SpellsLines.blank {n : Token} {us : List Token} {ls : List Line}
    (h : SpellsLines C (n :: us) ls) (hn : n.kind = .newline) :
    ∃ ls', ls = .code none none :: ls' ∧ SpellsLines C us ls' := by
  generalize hts : n :: us = ts at h
  cases h with
  | nil he => cases hts; rw [hn] at he; cases he
  | @cons ts _ _ l ls hl _ rest =>
    rcases ts with _ | ⟨t, ts⟩
    · cases hts
      exact ⟨ls, by rw [hl.blank_of_nil], rest⟩
    · cases hts
      exact absurd hn (hl.no_newline n (by simp))

theorem SpellsLines.end {e : Token} {us : List Token} {ls : List Line}
    (h : SpellsLines C (e :: us) ls) (he : e.kind = .sourceEnd) (hus : us = []) : ls = [] := by
  subst hus
  generalize hts : [e] = ts at h
  cases h with
  | nil => rfl
  | @cons ts us n l ls hl hn rest =>
    rcases ts with _ | ⟨t, ts⟩
    · cases hts
      rw [he] at hn
      cases hn
    · cases ts <;> cases hts

end Kinds

/-- The tokens after a line. -/
def EndsLine (ts : List Token) : Prop :=
  ∃ t us, ts = t :: us ∧ (t.kind = .newline ∨ t.kind = .sourceEnd)

theorem EndsLine.ne_nil {ts : List Token} (h : EndsLine ts) : ts ≠ [] := by
  obtain ⟨t, us, rfl, -⟩ := h
  simp

theorem Statement.Spells.not_label {ts rest us : List Token} {st : Statement} {t c : Token}
    (h : st.Spells C ts) (hrest : EndsLine rest) (hts : ts ++ rest = t :: c :: us) :
    c.kind ≠ .colon := by
  rcases ts with _ | ⟨t', _ | ⟨c', ts⟩⟩
  · exact absurd rfl h.ne_nil
  · obtain ⟨n, vs, rfl, hn⟩ := hrest
    cases hts
    rcases hn with hn | hn <;> rw [hn] <;> decide
  · cases hts
    exact (h.inside c (by simp)).2.1

theorem Ready.left {s s' : Parser} {ts rest : List Token} (h : Ready Fail ps s)
    (hts : s.tokens = ts ++ rest) (hne : rest ≠ []) (hrest : s'.tokens = rest)
    (hps : s'.program.params = s.program.params) : Ready Fail ps s' := by
  refine ⟨hrest ▸ (hts ▸ h.ended).drop hne, fun t ht => h.blame t ?_, hps.trans h.params⟩
  rw [hts]
  exact List.mem_append_right _ (hrest ▸ ht)

namespace Parser

section Statements

variable (C)

theorem reads_mnemonic : Reads Fail ps mnemonic fun ts info => ∃ m, ts = [m]
    ∧ m.kind = .identifier ∧ opcodeInfoOfMnemonic (String.ofList m.text) = some info := by
  refine reads_value .identifier (fun m => opcodeInfoOfMnemonic (String.ofList m.text)) (by decide)
    (fun s t ts hs hk => ?_) (fun s t ts hs hk hv => ?_) fun s t ts a hs hk hv => ?_ <;>
    rw [mnemonic, cur_bind hs]
  · exact ⟨_, by rw [if_pos hk]⟩
  · exact ⟨_, by rw [if_neg (not_not.2 hk), hv]⟩
  · rw [if_neg (not_not.2 hk), hv]

/-- What an instruction begins with. -/
def opening : ParserM (Guard × OpcodeInfo) := do
  let g ← guard
  let info ← mnemonic
  return (g, info)

theorem reads_opening : Reads Fail ps opening fun ts p => ∃ us m, ts = us ++ [m]
    ∧ SpellsGuard us p.1 ∧ m.kind = .identifier
    ∧ opcodeInfoOfMnemonic (String.ofList m.text) = some p.2 := by
  have hplain : ∀ g : Guard, Reads Fail ps (mnemonic >>= fun info => pure (g, info)) fun ts p =>
      ∃ m, ts = [m] ∧ m.kind = .identifier
        ∧ opcodeInfoOfMnemonic (String.ofList m.text) = some p.2 ∧ p.1 = g :=
    fun g => Reads.iff (reads_map reads_mnemonic) fun ts p => by
      constructor
      · rintro ⟨info, ⟨m, rfl, hm, hi⟩, rfl⟩
        exact ⟨m, rfl, hm, hi, rfl⟩
      · rintro ⟨m, rfl, hm, hi, rfl⟩
        exact ⟨p.2, ⟨m, rfl, hm, hi⟩, rfl⟩
  have hguard : Does (fun s => Ready Fail ps s ∧ ∀ t ∈ s.tokens.head?, t.kind = .guard) Fail
      (cur >>= fun t => (predicateName t.text).elim
        (fail ("invalid guard predicate '" ++ String.ofList t.text ++ "'")) fun pred => do
          next
          return ({ present := true, negate := t.negate, pred := pred } : Guard))
      (Consumes fun ts g => ∃ t, ts = [t] ∧ t.kind = .guard ∧ ∃ pred,
        predicateName t.text = some pred ∧ g = { present := true, negate := t.negate, pred }) := by
    refine does_token (fun s h => h.1) (fun t _ h hk => by rw [h.1] at hk; cases hk)
      fun s t ts hp hs => ?_
    have hk : t.kind = .guard := hp.2 t (by simp [hs])
    rw [TakesHead, cur_bind hs]
    rcases predicateName t.text with _ | pred
    · refine .inr ⟨?_, _, rfl⟩
      rintro a ⟨-, pred, h, -⟩
      cases h
    · refine .inl ⟨_, ⟨hk, pred, rfl, rfl⟩, ?_, rfl⟩
      rintro g ⟨-, pred', h, rfl⟩
      cases h
      rfl
  have hpresent := fun s (hs : Ready Fail ps s ∧ ∀ t ∈ s.tokens.head?, t.kind = .guard) =>
    congrFun (bind_assoc cur (fun t => (predicateName t.text).elim
        (fail ("invalid guard predicate '" ++ String.ofList t.text ++ "'")) fun pred => do
          next
          return ({ present := true, negate := t.negate, pred := pred } : Guard))
      fun g => mnemonic >>= fun info => (pure (g, info) : ParserM _)) s
  refine Reads.iff ((reads_cur_choice ((does_then (fun s h => h.1) hguard hplain).of_eq
    fun s hs => (hpresent s hs).symm) (reads_skip (hplain {})) ?_ ?_).of_eq fun s hs => ?_) ?_
  · rintro ts p ⟨_, _, vs, ⟨t, rfl, ht, -⟩, -, rfl⟩
    exact ⟨t, vs, rfl, ht⟩
  · rintro ts p ⟨m, rfl, hm, -⟩
    exact ⟨m, [], rfl, by rw [hm]; decide⟩
  · obtain ⟨t, ts, ht⟩ := List.exists_cons_of_ne_nil hs.ended.ne_nil
    rw [opening, guard, bind_assoc, cur_bind ht, cur_bind ht]
    split_ifs
    · rcases predicateName t.text with _ | pred <;> rfl
    · rfl
  · intro ts p
    constructor
    · rintro (⟨_, g, _, ⟨t, rfl, ht, pred, hp, rfl⟩, ⟨m, rfl, hm, hi, hg⟩, rfl⟩
        | ⟨m, rfl, hm, hi, hg⟩)
      · exact ⟨[t], m, rfl, hg ▸ .present ht hp, hm, hi⟩
      · exact ⟨[], m, rfl, hg ▸ .absent, hm, hi⟩
    · rintro ⟨us, m, rfl, hg, hm, hi⟩
      obtain ⟨g, info⟩ := p
      cases hg with
      | absent => exact .inr ⟨m, rfl, hm, hi, rfl⟩
      | present ht hp =>
        exact .inl ⟨_, _, [m], ⟨_, rfl, ht, _, hp, rfl⟩, ⟨m, rfl, hm, hi, rfl⟩, rfl⟩

theorem does_endOfLine : Does (Ready Fail ps) Fail endOfLine fun s _ s' =>
    EndsLine s.tokens ∧ s' = s := by
  refine ⟨fun {s a s'} hs => ?_, fun {s e} hs he => ?_⟩ <;>
    obtain ⟨t, ts, ht⟩ := List.exists_cons_of_ne_nil hs.ended.ne_nil
  · rw [endOfLine, cur_bind ht]
    constructor
    · intro h
      split_ifs at h with hk
      · cases h
        exact ⟨⟨t, ts, ht, hk⟩, rfl⟩
      · rw [fail_eq ht] at h
        cases h
    · rintro ⟨⟨u, us, hu, hk⟩, rfl⟩
      rw [ht] at hu
      cases hu
      rw [if_pos hk]
      rfl
  · rw [endOfLine, cur_bind ht] at he
    split_ifs at he
    · cases he
    · exact fail_blames hs he

/-- The end of an instruction: its word. -/
def emit (i : Instruction) : ParserM Unit :=
  match encode i with
  | .error e => fail e.toString
  | .ok word =>
    modify fun s => { s with program := { s.program with words := s.program.words ++ [word] } }

theorem does_emit (i : Instruction) : Does (Ready Fail ps) Fail (emit i) fun s _ s' =>
    validate i = .ok () ∧ s' = { s with
      program := { s.program with words := s.program.words ++ [packWord i] } } := by
  rcases he : encode i with e | word
  · refine (reads_fail (e.toString)).congr (fun s u s' hs => ⟨?_, ?_⟩) |>.of_eq fun s hs => ?_
    · rintro ⟨_, _, _, _, h, _⟩
      exact h.elim
    · rintro ⟨hv, -⟩
      rw [encode_ok.2 ⟨hv, rfl⟩] at he
      cases he
    · rw [emit, he]
  · obtain ⟨hv, rfl⟩ := encode_ok.1 he
    refine (does_modify _).congr (fun s u s' hs => ⟨fun h => ⟨hv, h⟩, fun h => h.2⟩) |>.of_eq
      fun s hs => ?_
    rw [emit, he]

theorem instruction_eq : instruction C = opening >>= fun p =>
    parseOperands C p.2.shape { opcode := p.2.opcode, guard := p.1 } >>= fun i =>
      endOfLine >>= fun _ => emit i := by
  simp only [instruction, opening, bind_assoc, pure_bind]
  rfl

/-- The state with a statement's word appended. -/
def withStatement (s : Parser) (st : Statement) : Parser :=
  { s with
    pending := s.pending ++ st.pending s.program.words.length
    program := { s.program with
      words := s.program.words
        ++ [packWord ((st.instruction s.program.params fun _ => 0).getD {})] } }

/-- A statement that has a word where so many parameters are declared. -/
def Encodes (ps : List Text) (st : Statement) : Prop :=
  ∃ i, st.instruction ps (fun _ => 0) = some i ∧ validate i = .ok ()

/-- From a state with the tokens of a statement to the state after it. -/
def ReadsStatement (s : Parser) (_ : Unit) (s' : Parser) : Prop :=
  ∃ (ts rest : List Token) (st : Statement), s.tokens = ts ++ rest ∧ EndsLine rest
    ∧ st.Spells C ts ∧ Encodes s.program.params st ∧ s' = { s.withStatement st with tokens := rest }

/-- A statement up to the end of its line is read, and its word is appended. -/
theorem does_instruction : Does (Ready Fail ps) Fail (instruction C) (ReadsStatement C) := by
  rw [instruction_eq]
  refine (does_seq reads_opening (fun s p s' hs h => hs.consumes h) fun p =>
    does_seq (does_parseOperands C p.2.shape { opcode := p.2.opcode, guard := p.1 }) ?_ fun i =>
      does_seq does_endOfLine ?_ fun _ => does_emit i).congr ?_
  · rintro s i s' hs ⟨ts, rest, os, hts, hne, -, -, rfl⟩
    exact hs.left hts hne rfl rfl
  · rintro s _ s' hs ⟨-, rfl⟩
    exact hs
  · intro s _ s' hs
    constructor
    · rintro ⟨⟨g, info⟩, _, ⟨_, rest, hts, -, ⟨us, m, rfl, hg, hm, hi⟩, rfl⟩, i, _,
        ⟨vs, rest', os, hrest, -, ho, hfill, rfl⟩, _, _, ⟨hend, rfl⟩, hv, rfl⟩
      have hfill' :
        (⟨g, info, os⟩ : Statement).instruction s.program.params (fun _ => 0) = some i :=
        hs.params ▸ hfill
      refine ⟨us ++ m :: vs, rest', ⟨g, info, os⟩, ?_, hend, .mk hg hm hi ho
        (fillSlots_takes hfill), ⟨i, hfill', hv⟩, ?_⟩
      · rw [hts, show rest = vs ++ rest' from hrest]
        simp
      · rw [withStatement, hfill']
        rfl
    · rintro ⟨_, rest, st, hts, hend, hst, ⟨i, hfill, hv⟩, rfl⟩
      rw [withStatement, hfill]
      rw [hs.params] at hfill
      cases hst with
      | @mk us vs m st hg hm hi ho hk =>
        rw [List.append_assoc] at hts
        exact ⟨(st.guard, st.info), { s with tokens := vs ++ rest },
          ⟨us ++ [m], vs ++ rest, by rw [hts]; simp, by simp [hend.ne_nil],
            ⟨us, m, rfl, hg, hm, hi⟩, rfl⟩, i, _, ⟨vs, rest, st.operands, rfl, hend.ne_nil, ho,
            hfill, rfl⟩, (), _, ⟨hend, rfl⟩, hv, rfl⟩

end Statements

section Content

/-- The state with a label defined at the current end of the words. -/
def withLabel (s : Parser) (name : Text) : Parser :=
  { s with
    labels := emplace s.labels name (BitVec.ofNat 16 s.program.words.length)
    program := { s.program with
      labels := emplace s.program.labels (BitVec.ofNat 16 s.program.words.length) name } }

/-- The state after a line. -/
def apply (s : Parser) : Line → Parser
  | .entry name => { s with program := { s.program with entry := name } }
  | .param name => { s with program := { s.program with params := s.program.params ++ [name] } }
  | .shared bytes => { s with program := { s.program with sharedBytes := bytes } }
  | .code label st => st.elim (label.elim s s.withLabel) (label.elim s s.withLabel).withStatement

/-- What a line needs of the state. -/
def Allows (s : Parser) : Line → Prop
  | .entry _ => s.program.entry = [] ∧ s.program.words = []
  | .param name => name ∉ s.program.params
  | .shared _ => True
  | .code label st => (∀ name ∈ label, s.labels name = none)
    ∧ ∀ st' ∈ st, Encodes s.program.params st'

variable (C)

/-- From a state with the tokens of a line to the state after it. -/
def ReadsLine (s : Parser) (_ : Unit) (s' : Parser) : Prop :=
  ∃ (ts rest : List Token) (l : Line), s.tokens = ts ++ rest ∧ EndsLine rest ∧ ts ≠ []
    ∧ l.Spells C ts ∧ s.Allows l ∧ s' = { s.apply l with tokens := rest }

variable (Fail ps) in
theorem does_defineLabel : Does (fun s => Ready Fail ps s ∧ ∃ t c us, s.tokens = t :: c :: us
      ∧ t.kind = .identifier ∧ c.kind = .colon) Fail defineLabel fun s _ s' =>
    ∃ t c rest, s.tokens = t :: c :: rest ∧ s.labels t.text = none
      ∧ s' = { s.withLabel t.text with tokens := rest } := by
  have hno : ∀ {s : Parser} {t : Token} {ts : List Token}, s.tokens = t :: ts →
      s.labels t.text ≠ none → defineLabel s
        = (fail ("duplicate label '" ++ String.ofList t.text ++ "'") : ParserM Unit) s := by
    intro s t ts ht hk
    rw [defineLabel, cur_bind ht, get_bind, if_pos (Option.isSome_iff_ne_none.2 hk)]
  have hyes : ∀ {s : Parser} {t c : Token} {us : List Token}, s.tokens = t :: c :: us → us ≠ [] →
      s.labels t.text = none → defineLabel s
        = .ok ((), { s.withLabel t.text with tokens := us }) := by
    intro s t c us ht hne hk
    rw [defineLabel, cur_bind ht, get_bind, if_neg (by rw [hk]; decide)]
    have h1 : next (s.withLabel t.text) = .ok ((), { s.withLabel t.text with tokens := c :: us }) :=
      next_eq (s := s.withLabel t.text) ht (by simp)
    have h2 : next { s.withLabel t.text with tokens := c :: us }
        = .ok ((), { s.withLabel t.text with tokens := us }) :=
      next_eq (s := { s.withLabel t.text with tokens := c :: us }) rfl hne
    refine Eq.trans (b := next (s.withLabel t.text) >>= fun p => next p.2) rfl ?_
    rw [h1]
    exact h2
  refine ⟨fun {s a s'} hs => ?_, fun {s e} hs he => ?_⟩ <;>
    obtain ⟨hs, t, c, us, ht, hkt, hkc⟩ := hs <;>
    have hne : us ≠ [] := ((ht ▸ hs.ended).tail (by simp)).rest_ne_nil (by rw [hkc]; decide) <;>
    by_cases hl : s.labels t.text = none
  · rw [hyes ht hne hl]
    constructor
    · intro h
      cases h
      exact ⟨t, c, us, ht, hl, rfl⟩
    · rintro ⟨t', c', us', ht', -, rfl⟩
      rw [ht] at ht'
      cases ht'
      rfl
  · rw [hno ht hl, fail_eq ht]
    constructor
    · intro h
      cases h
    · rintro ⟨t', c', us', ht', hl', -⟩
      rw [ht] at ht'
      cases ht'
      exact absurd hl' hl
  · rw [hyes ht hne hl] at he
    cases he
  · rw [hno ht hl] at he
    exact fail_blames hs he

theorem atLabel_bind {s : Parser} {t u : Token} {ts : List Token} (hs : s.tokens = t :: u :: ts)
    {α : Type} (f : Bool → ParserM α) :
    (atLabel >>= f) s = f (t.kind == .identifier && u.kind == .colon) s := by
  rw [atLabel, bind_assoc, atKind_bind hs]
  by_cases hk : t.kind = .identifier
  · rw [if_pos (by simpa using hk), bind_assoc, peek_bind hs]
    simp [hk]
  · rw [if_neg (by simpa using hk), beq_eq_false_iff_ne.2 hk]
    rfl

/-- After a label, the line may end. -/
theorem does_afterLabel : Does (Ready Fail ps) Fail
    (atKind .newline >>= fun b => if b then pure () else instruction C) fun s u s' =>
      (∃ n us, s.tokens = n :: us ∧ n.kind = .newline ∧ s' = s) ∨ ReadsStatement C s u s' := by
  refine ⟨fun {s a s'} hs => ?_, fun {s e} hs he => ?_⟩ <;>
    obtain ⟨t, ts, ht⟩ := List.exists_cons_of_ne_nil hs.ended.ne_nil <;>
    by_cases hk : t.kind = .newline
  · rw [atKind_bind ht, if_pos (by simpa using hk)]
    constructor
    · intro h
      cases h
      exact .inl ⟨t, ts, ht, hk, rfl⟩
    · rintro (⟨n, us, hn, -, rfl⟩ | ⟨us, rest, st, hus, -, hst, -⟩)
      · rfl
      · obtain ⟨u, vs, rfl⟩ := List.exists_cons_of_ne_nil hst.ne_nil
        rw [ht] at hus
        cases hus
        exact absurd hk (hst.inside t (by simp)).1
  · rw [atKind_bind ht, if_neg (by simpa using hk), (does_instruction C).ok hs]
    refine ⟨.inr, fun h => h.resolve_left ?_⟩
    rintro ⟨n, us, hn, hk', -⟩
    rw [ht] at hn
    cases hn
    exact hk hk'
  · rw [atKind_bind ht, if_pos (by simpa using hk)] at he
    cases he
  · rw [atKind_bind ht, if_neg (by simpa using hk)] at he
    exact (does_instruction C).fails hs he

theorem does_labelled : Does (fun s => Ready Fail ps s ∧ ∃ t c us, s.tokens = t :: c :: us
      ∧ t.kind = .identifier ∧ c.kind = .colon) Fail (statement C) (ReadsLine C) := by
  have hafter : Does (Ready Fail ps) Fail _ _ := does_afterLabel C
  have hdefine := does_bind (does_defineLabel Fail ps) fun _ => hafter.mono ?_
  · refine (hdefine.congr fun s u s' hs => ⟨?_, ?_⟩).of_eq fun s hs => ?_
    · obtain ⟨hs, t, c, us, ht, hkt, hkc⟩ := hs
      rintro ⟨_, _, ⟨t', c', us', ht', hl, rfl⟩, ⟨n, vs, hn, hkn, rfl⟩ |
        ⟨ts, rest, st, hts, hend, hst, henc, rfl⟩⟩ <;> rw [ht] at ht' <;> cases ht'
      · exact ⟨[t, c], us, .code (some t.text) none, ht, ⟨n, vs, hn, .inl hkn⟩, by simp,
          .label hkt hkc, ⟨by simpa using hl, by simp⟩, rfl⟩
      · exact ⟨t :: c :: ts, rest, .code (some t.text) (some st), by
          rw [ht, show us = ts ++ rest from hts]; rfl, hend, by simp,
          .labelled hkt hkc hst, ⟨by simpa using hl, fun st' h => by cases h; exact henc⟩, rfl⟩
    · obtain ⟨hs, t, c, us, ht, hkt, hkc⟩ := hs
      rintro ⟨ts, rest, l, hts, hend, hne, hl, hallow, rfl⟩
      rw [ht] at hts
      cases hl with
      | entry hd => cases hts; rw [hd] at hkt; cases hkt
      | param hd => cases hts; rw [hd] at hkt; cases hkt
      | shared hd => cases hts; rw [hd] at hkt; cases hkt
      | blank => exact absurd rfl hne
      | label ht' hc' =>
        cases hts
        obtain ⟨n, vs, rfl, hn⟩ := hend
        refine ⟨(), _, ⟨t, c, n :: vs, ht, hallow.1 _ rfl, rfl⟩, .inl ⟨n, vs, rfl, ?_, rfl⟩⟩
        refine hn.resolve_right fun he => ?_
        have hended := hs.ended
        rw [ht] at hended
        have hnewline := Ended.before_end (show Ended ([t] ++ c :: n :: vs) from hended) he
        rw [hkc] at hnewline
        cases hnewline
      | statement h => exact absurd hkc (h.not_label hend hts.symm)
      | labelled ht' hc' h =>
        cases hts
        exact ⟨(), _, ⟨t, c, _, ht, hallow.1 _ rfl, rfl⟩, .inr ⟨_, rest, _, rfl, hend, h,
          hallow.2 _ rfl, rfl⟩⟩
    · obtain ⟨-, t, c, us, ht, hkt, hkc⟩ := hs
      rw [statement, atLabel_bind ht, hkt, hkc]
      rfl
  · rintro s ⟨r, ⟨hr, t', c', us, ht', -, hkc⟩, t, c, rest, ht, -, rfl⟩
    rw [ht] at ht'
    cases ht'
    exact hr.left (show r.tokens = [t', c'] ++ us from ht)
      (((ht ▸ hr.ended).tail (by simp)).rest_ne_nil (by rw [hkc]; decide)) rfl rfl

/-- A line other than a directive. -/
theorem does_statement : Does (fun s => Ready Fail ps s ∧ ∀ t ∈ s.tokens.head?, t.kind ≠ .directive)
    Fail (statement C) (ReadsLine C) := by
  have hplain : ∀ {s : Parser}, Ready Fail ps s →
      (¬∃ t c us, s.tokens = t :: c :: us ∧ t.kind = .identifier ∧ c.kind = .colon) →
      statement C s = instruction C s := by
    intro s hs hl
    obtain ⟨t, _ | ⟨c, us⟩, ht⟩ := List.exists_cons_of_ne_nil hs.ended.ne_nil
    · have hk : t.kind = .sourceEnd := by
        cases ht ▸ hs.ended with
        | last he => exact he
        | cons _ _ rest => cases rest
      rw [statement, atLabel, bind_assoc, atKind_bind ht, hk]
      rfl
    · rw [statement, atLabel_bind ht]
      have hno : (t.kind == .identifier && c.kind == .colon) = false := by
        by_contra hc
        simp only [Bool.not_eq_false, Bool.and_eq_true, beq_iff_eq] at hc
        exact hl ⟨t, c, us, ht, hc.1, hc.2⟩
      rw [hno]
      rfl
  refine ⟨fun {s a s'} hs => ?_, fun {s e} hs he => ?_⟩ <;>
    by_cases hl : ∃ t c us, s.tokens = t :: c :: us ∧ t.kind = .identifier ∧ c.kind = .colon
  · exact (does_labelled C).ok ⟨hs.1, hl⟩
  · rw [hplain hs.1 hl, (does_instruction C).ok hs.1]
    constructor
    · rintro ⟨ts, rest, st, hts, hend, hst, henc, rfl⟩
      exact ⟨ts, rest, .code none (some st), hts, hend, hst.ne_nil, .statement hst,
        ⟨by simp, by simpa using henc⟩, rfl⟩
    · rintro ⟨ts, rest, l, hts, hend, hne, hl', hallow, rfl⟩
      cases hl' with
      | entry hd => exact absurd hd (hs.2 _ (by rw [hts]; rfl))
      | param hd => exact absurd hd (hs.2 _ (by rw [hts]; rfl))
      | shared hd => exact absurd hd (hs.2 _ (by rw [hts]; rfl))
      | blank => exact absurd rfl hne
      | label ht hc => exact absurd ⟨_, _, rest, hts, ht, hc⟩ hl
      | statement h => exact ⟨ts, rest, _, hts, hend, h, hallow.2 _ rfl, rfl⟩
      | labelled ht hc h => exact absurd ⟨_, _, _, hts, ht, hc⟩ hl
  · exact (does_labelled C).fails ⟨hs.1, hl⟩ he
  · rw [hplain hs.1 hl] at he
    exact (does_instruction C).fails hs.1 he

/-- The end of a directive with a name: the name is recorded. -/
theorem does_record {f : Parser → Parser} (hf : ∀ s, (f s).tokens = s.tokens) :
    Does (fun s => Ready Fail ps s ∧ ∀ t ∈ s.tokens.head?, t.kind = .identifier) Fail
      (modify f >>= fun _ => next >>= fun _ => endOfLine) fun s _ s' =>
        ∃ t rest, s.tokens = t :: rest ∧ EndsLine rest ∧ s' = { f s with tokens := rest } := by
  have heq : ∀ {s : Parser} {t : Token} {ts : List Token}, s.tokens = t :: ts → ts ≠ [] →
      (modify f >>= fun _ => next >>= fun _ => endOfLine : ParserM Unit) s
        = endOfLine { f s with tokens := ts } := by
    intro s t ts ht hne
    refine Eq.trans (b := next (f s) >>= fun p => endOfLine p.2) rfl ?_
    rw [next_eq (s := f s) ((hf s).trans ht) hne]
    rfl
  have hready : ∀ {s : Parser} {t : Token} {ts : List Token}, Ready Fail ps s →
      s.tokens = t :: ts → ts ≠ [] →
      Ready Fail (f s).program.params { f s with tokens := ts } := fun hs ht hne =>
    ⟨(ht ▸ hs.ended).tail hne, fun u hu => hs.blame u (ht ▸ List.mem_cons_of_mem _ hu), rfl⟩
  refine ⟨fun {s u s'} hs => ?_, fun {s e} hs he => ?_⟩ <;>
    obtain ⟨t, ts, ht⟩ := List.exists_cons_of_ne_nil hs.1.ended.ne_nil <;>
    have hne : ts ≠ [] := (ht ▸ hs.1.ended).rest_ne_nil (by
      rw [hs.2 t (by rw [ht]; rfl)]
      decide)
  · rw [heq ht hne, does_endOfLine.ok (hready hs.1 ht hne)]
    constructor
    · rintro ⟨hend, rfl⟩
      exact ⟨t, ts, ht, hend, rfl⟩
    · rintro ⟨t', rest, ht', hend, rfl⟩
      rw [ht] at ht'
      cases ht'
      exact ⟨hend, rfl⟩
  · rw [heq ht hne] at he
    exact does_endOfLine.fails (hready hs.1 ht hne) he

/-- A name and the end of the line are read where a condition on both holds. -/
def ReadsName (allowed : Parser → Text → Prop) (f : Text → Parser → Parser) (s : Parser) (_ : Unit)
    (s' : Parser) : Prop :=
  ∃ t rest, s.tokens = t :: rest ∧ t.kind = .identifier ∧ EndsLine rest ∧ allowed s t.text
    ∧ s' = { f t.text s with tokens := rest }

theorem does_name {x : ParserM Unit} {allowed : Parser → Text → Prop} {f : Text → Parser → Parser}
    (hf : ∀ name s, (f name s).tokens = s.tokens)
    (h : ∀ s t ts, s.tokens = t :: ts →
      (t.kind = .identifier ∧ allowed s t.text
          ∧ x s = (modify (f t.text) >>= fun _ => next >>= fun _ => endOfLine : ParserM Unit) s)
        ∨ (¬(t.kind = .identifier ∧ allowed s t.text) ∧ ∃ m, x s = (fail m : ParserM Unit) s)) :
    Does (Ready Fail ps) Fail x (ReadsName allowed f) := by
  refine ⟨fun {s u s'} hs => ?_, fun {s e} hs he => ?_⟩ <;>
    obtain ⟨t, ts, ht⟩ := List.exists_cons_of_ne_nil hs.ended.ne_nil <;>
    rcases h s t ts ht with ⟨hk, ha, hx⟩ | ⟨hno, m, hx⟩
  · have hpre : ∀ u ∈ s.tokens.head?, u.kind = .identifier := by simpa [ht] using hk
    rw [hx, (does_record (hf t.text)).ok ⟨hs, hpre⟩]
    constructor
    · rintro ⟨t', rest, ht', hend, rfl⟩
      rw [ht] at ht'
      cases ht'
      exact ⟨t, ts, ht, hk, hend, ha, rfl⟩
    · rintro ⟨t', rest, ht', -, hend, -, rfl⟩
      rw [ht] at ht'
      cases ht'
      exact ⟨t, ts, ht, hend, rfl⟩
  · rw [hx, fail_eq ht]
    constructor
    · intro h
      cases h
    · rintro ⟨t', rest, ht', hk, -, ha, -⟩
      rw [ht] at ht'
      cases ht'
      exact absurd ⟨hk, ha⟩ hno
  · rw [hx] at he
    exact (does_record (hf t.text)).fails ⟨hs, by simpa [ht] using hk⟩ he
  · rw [hx] at he
    exact fail_blames hs he

theorem does_entry : Does (Ready Fail ps) Fail entry
    (ReadsName (fun s _ => s.program.entry = [] ∧ s.program.words = []) fun name s =>
      s.apply (.entry name)) := by
  refine does_name (fun _ _ => rfl) fun s t ts ht => ?_
  rw [entry, get_bind]
  by_cases he : s.program.entry = []
  · rw [if_neg (not_not.2 he)]
    by_cases hw : s.program.words = []
    · rw [if_neg (not_not.2 hw), cur_bind ht]
      by_cases hk : t.kind = .identifier
      · exact .inl ⟨hk, ⟨he, hw⟩, by rw [if_neg (not_not.2 hk)]; rfl⟩
      · exact .inr ⟨fun h => hk h.1, _, by rw [if_pos hk]⟩
    · exact .inr ⟨fun h => hw h.2.2, _, by rw [if_pos hw]⟩
  · exact .inr ⟨fun h => he h.2.1, _, by rw [if_pos he]⟩

theorem does_param : Does (Ready Fail ps) Fail param (ReadsName
    (fun s name => name ∉ s.program.params) fun name s => s.apply (.param name)) := by
  refine does_name (fun _ _ => rfl) fun s t ts ht => ?_
  rw [param, cur_bind ht]
  by_cases hk : t.kind = .identifier
  · rw [if_neg (not_not.2 hk), get_bind]
    by_cases hp : t.text ∈ s.program.params
    · exact .inr ⟨fun h => h.2 hp, _, by rw [if_pos hp]⟩
    · exact .inl ⟨hk, hp, by rw [if_neg hp]; rfl⟩
  · exact .inr ⟨fun h => hk h.1, _, by rw [if_pos hk]⟩

theorem does_shared : Does (Ready Fail ps) Fail shared fun s _ s' =>
    ∃ t rest bytes, s.tokens = t :: rest ∧ t.IsInteger bytes ∧ EndsLine rest
      ∧ s' = { s.apply (.shared bytes) with tokens := rest } := by
  refine (does_seq reads_integerLiteral (fun s p s' hs h => hs.consumes h) fun value =>
    does_seq (does_modify _) (fun s _ s' hs h => ?_) fun _ => does_endOfLine).congr ?_
  · subst h
    exact ⟨hs.ended, hs.blame, hs.params⟩
  · intro s _ s' hs
    constructor
    · rintro ⟨bytes, _, ⟨_, rest, hts, -, ⟨t, rfl, ht⟩, rfl⟩, _, _, rfl, hend, rfl⟩
      exact ⟨t, rest, bytes, hts, ht, hend, rfl⟩
    · rintro ⟨t, rest, bytes, hts, ht, hend, rfl⟩
      exact ⟨bytes, _, ⟨[t], rest, hts, hend.ne_nil, ⟨t, rfl, ht⟩, rfl⟩, (), _, rfl, hend, rfl⟩

/-- The lines that begin with a directive. -/
theorem readsLine_directive {s s' : Parser} {d : Token} {us : List Token} {u : Unit}
    (hs : s.tokens = d :: us) (hd : d.kind = .directive) :
    ReadsLine C s u s' ↔ ∃ t rest, us = t :: rest ∧ EndsLine rest
      ∧ ((d.text = ".entry".toList ∧ t.kind = .identifier ∧ s.Allows (.entry t.text)
          ∧ s' = { s.apply (.entry t.text) with tokens := rest })
        ∨ (d.text = ".param".toList ∧ t.kind = .identifier ∧ s.Allows (.param t.text)
          ∧ s' = { s.apply (.param t.text) with tokens := rest })
        ∨ ∃ bytes, d.text = ".shared".toList ∧ t.IsInteger bytes
          ∧ s' = { s.apply (.shared bytes) with tokens := rest }) := by
  constructor
  · rintro ⟨ts, rest, l, hts, hend, hne, hl, hallow, rfl⟩
    rw [hs] at hts
    cases hl with
    | entry _ hn ht =>
      cases hts
      exact ⟨_, rest, rfl, hend, .inl ⟨hn, ht, hallow, rfl⟩⟩
    | param _ hn ht =>
      cases hts
      exact ⟨_, rest, rfl, hend, .inr (.inl ⟨hn, ht, hallow, rfl⟩)⟩
    | shared _ hn ht =>
      cases hts
      exact ⟨_, rest, rfl, hend, .inr (.inr ⟨_, hn, ht, rfl⟩)⟩
    | blank => exact absurd rfl hne
    | label ht => cases hts; rw [hd] at ht; cases ht
    | statement h =>
      obtain ⟨u, vs, rfl⟩ := List.exists_cons_of_ne_nil hne
      cases hts
      exact absurd hd (h.inside d (by simp)).2.2.2
    | labelled ht => cases hts; rw [hd] at ht; cases ht
  · rintro ⟨t, rest, rfl, hend, ⟨hn, ht, ha, rfl⟩ | ⟨hn, ht, ha, rfl⟩ | ⟨bytes, hn, ht, rfl⟩⟩
    · exact ⟨[d, t], rest, _, hs, hend, by simp, .entry hd hn ht, ha, rfl⟩
    · exact ⟨[d, t], rest, _, hs, hend, by simp, .param hd hn ht, ha, rfl⟩
    · exact ⟨[d, t], rest, _, hs, hend, by simp, .shared hd hn ht, trivial, rfl⟩

theorem does_directive : Does (fun s => Ready Fail ps s ∧ ∀ t ∈ s.tokens.head?, t.kind = .directive)
    Fail directive (ReadsLine C) := by
  refine ⟨fun {s u s'} hp => ?_, fun {s e} hp he => ?_⟩ <;>
    obtain ⟨hs, hd⟩ := hp <;>
    obtain ⟨d, us, hds⟩ := List.exists_cons_of_ne_nil hs.ended.ne_nil <;>
    replace hd : d.kind = .directive := hd d (by rw [hds]; rfl) <;>
    have hne : us ≠ [] := (hds ▸ hs.ended).rest_ne_nil (by rw [hd]; decide) <;>
    have hready : Ready Fail ps { s with tokens := us } :=
      hs.left (show s.tokens = [d] ++ us from hds) hne rfl rfl <;>
    have heq : directive s = (if d.text = ".entry".toList then entry
      else if d.text = ".param".toList then param
      else if d.text = ".shared".toList then shared
      else fail ("unknown directive '" ++ String.ofList d.text ++ "'"))
        { s with tokens := us } := by
      rw [directive, cur_bind hds]
      refine Eq.trans (b := next s >>= fun p => _) rfl ?_
      rw [next_eq hds hne]
      rfl
  · rw [heq, readsLine_directive C hds hd]
    have h12 : ".entry".toList ≠ ".param".toList := by decide
    have h13 : ".entry".toList ≠ ".shared".toList := by decide
    have h23 : ".param".toList ≠ ".shared".toList := by decide
    split_ifs with h1 h2 h3
    · rw [does_entry.ok hready]
      constructor
      · rintro ⟨t, rest, rfl, ht, hend, ha, rfl⟩
        exact ⟨t, rest, rfl, hend, .inl ⟨h1, ht, ha, rfl⟩⟩
      · rintro ⟨t, rest, rfl, hend, ⟨-, ht, ha, rfl⟩ | ⟨h, -⟩ | ⟨_, h, -⟩⟩
        · exact ⟨t, rest, rfl, ht, hend, ha, rfl⟩
        · exact absurd (h1.symm.trans h) h12
        · exact absurd (h1.symm.trans h) h13
    · rw [does_param.ok hready]
      constructor
      · rintro ⟨t, rest, rfl, ht, hend, ha, rfl⟩
        exact ⟨t, rest, rfl, hend, .inr (.inl ⟨h2, ht, ha, rfl⟩)⟩
      · rintro ⟨t, rest, rfl, hend, ⟨h, -⟩ | ⟨-, ht, ha, rfl⟩ | ⟨_, h, -⟩⟩
        · exact absurd h h1
        · exact ⟨t, rest, rfl, ht, hend, ha, rfl⟩
        · exact absurd (h2.symm.trans h) h23
    · rw [does_shared.ok hready]
      constructor
      · rintro ⟨t, rest, bytes, rfl, ht, hend, rfl⟩
        exact ⟨t, rest, rfl, hend, .inr (.inr ⟨bytes, h3, ht, rfl⟩)⟩
      · rintro ⟨t, rest, rfl, hend, ⟨h, -⟩ | ⟨h, -⟩ | ⟨bytes, -, ht, rfl⟩⟩
        · exact absurd h h1
        · exact absurd h h2
        · exact ⟨t, rest, bytes, rfl, ht, hend, rfl⟩
    · rw [(reads_fail _).ok hready]
      constructor
      · rintro ⟨_, _, _, _, h, _⟩
        exact h.elim
      · rintro ⟨t, rest, -, -, ⟨h, -⟩ | ⟨h, -⟩ | ⟨_, h, -⟩⟩
        · exact absurd h h1
        · exact absurd h h2
        · exact absurd h h3
  · rw [heq] at he
    split_ifs at he
    · exact does_entry.fails hready he
    · exact does_param.fails hready he
    · exact does_shared.fails hready he
    · exact (reads_fail _).fails hready he

end Content

section Loop

variable (C)

theorem does_content : Does (Ready Fail ps) Fail
    (atKind .directive >>= fun b => if b then directive else statement C) (ReadsLine C) := by
  refine ⟨fun {s u s'} hs => ?_, fun {s e} hs he => ?_⟩ <;>
    obtain ⟨t, ts, ht⟩ := List.exists_cons_of_ne_nil hs.ended.ne_nil <;>
    by_cases hk : t.kind = .directive
  · rw [atKind_bind ht, if_pos (by simpa using hk)]
    exact (does_directive C).ok ⟨hs, by simpa [ht] using hk⟩
  · rw [atKind_bind ht, if_neg (by simpa using hk)]
    exact (does_statement C).ok ⟨hs, by simpa [ht] using hk⟩
  · rw [atKind_bind ht, if_pos (by simpa using hk)] at he
    exact (does_directive C).fails ⟨hs, by simpa [ht] using hk⟩ he
  · rw [atKind_bind ht, if_neg (by simpa using hk)] at he
    exact (does_statement C).fails ⟨hs, by simpa [ht] using hk⟩ he

variable {C}

/-- The state after lines. -/
def applyAll (s : Parser) (ls : List Line) : Parser := ls.foldl apply s

/-- What lines need of the state before the first. -/
def AllowsAll : Parser → List Line → Prop
  | _, [] => True
  | s, l :: ls => s.Allows l ∧ AllowsAll (s.apply l) ls

@[simp] theorem apply_tokens (s : Parser) (ts : List Token) (l : Line) :
    apply { s with tokens := ts } l = { s.apply l with tokens := ts } := by
  rcases l with _ | _ | _ | ⟨_ | _, _ | _⟩ <;> rfl

theorem allows_tokens (s : Parser) (ts : List Token) (l : Line) :
    Allows { s with tokens := ts } l ↔ s.Allows l := by
  cases l <;> rfl

theorem applyAll_tokens (ls : List Line) : ∀ (s : Parser) (ts : List Token),
    applyAll { s with tokens := ts } ls = { s.applyAll ls with tokens := ts } := by
  induction ls with
  | nil => exact fun _ _ => rfl
  | cons l ls ih =>
    intro s ts
    rw [applyAll, List.foldl_cons, apply_tokens]
    exact ih _ _

theorem allowsAll_tokens (ls : List Line) : ∀ (s : Parser) (ts : List Token),
    AllowsAll { s with tokens := ts } ls ↔ s.AllowsAll ls := by
  induction ls with
  | nil => exact fun _ _ => .rfl
  | cons l ls ih =>
    intro s ts
    rw [AllowsAll, AllowsAll, allows_tokens, apply_tokens, ih]

/-- With fuel for every token, the loop succeeds exactly on lines that can follow one another. -/
theorem lines_spec : ∀ (fuel : Nat) (s : Parser), Ready Fail s.program.params s →
    s.tokens.length < fuel →
      (∀ s', lines C fuel s = .ok ((), s') → ∃ ls, SpellsLines C s.tokens ls ∧ s.AllowsAll ls
        ∧ ∃ ts, s' = { s.applyAll ls with tokens := ts })
      ∧ (∀ ls, SpellsLines C s.tokens ls → s.AllowsAll ls →
        ∃ ts, lines C fuel s = .ok ((), { s.applyAll ls with tokens := ts }))
      ∧ ∀ e, lines C fuel s = .error e → Fail e
  | fuel + 1, s, hs, hfuel => by
    obtain ⟨t, us, ht⟩ := List.exists_cons_of_ne_nil hs.ended.ne_nil
    rw [ht]
    by_cases hend : t.kind = .sourceEnd
    · have hlines : lines C (fuel + 1) s = .ok ((), s) := by
        rw [lines, atKind_bind ht, if_pos (by simpa using hend)]
        rfl
      have hus : us = [] := by
        cases ht ▸ hs.ended with
        | last => rfl
        | cons he => exact absurd hend he
      rw [hlines]
      refine ⟨fun s' h => ?_, fun ls hls ha => ?_, fun e he => ?_⟩
      · cases h
        exact ⟨[], hus ▸ .nil hend, trivial, s.tokens, rfl⟩
      · rw [hls.end hend hus]
        exact ⟨s.tokens, rfl⟩
      · cases he
    have hne : us ≠ [] := (ht ▸ hs.ended).rest_ne_nil hend
    by_cases hnl : t.kind = .newline
    · have hlines : lines C (fuel + 1) s = lines C fuel { s with tokens := us } := by
        rw [lines, atKind_bind ht, if_neg (by simpa using hend), atKind_bind ht,
          if_pos (by simpa using hnl)]
        refine Eq.trans (b := next s >>= fun p => lines C fuel p.2) rfl ?_
        rw [next_eq ht hne]
        rfl
      obtain ⟨h1, h2, h3⟩ := lines_spec fuel { s with tokens := us }
        (hs.left (show s.tokens = [t] ++ us from ht) hne rfl rfl)
        (by rw [ht] at hfuel; simpa using hfuel)
      rw [hlines]
      refine ⟨fun s' h => ?_, fun ls hls ha => ?_, h3⟩
      · obtain ⟨ls, hls, ha, ts, rfl⟩ := h1 s' h
        rw [allowsAll_tokens] at ha
        exact ⟨.code none none :: ls, .cons .blank hnl hls, ⟨⟨by simp, by simp⟩, ha⟩, ts, by
          rw [applyAll_tokens]; rfl⟩
      · obtain ⟨ls, rfl, hus⟩ := hls.blank hnl
        obtain ⟨ts, h⟩ := h2 ls hus ((allowsAll_tokens _ _ _).2 ha.2)
        refine ⟨ts, h.trans ?_⟩
        rw [applyAll_tokens]
        rfl
    · have hlines : lines C (fuel + 1) s = ((atKind .directive >>= fun b =>
          if b then directive else statement C) >>= fun _ => lines C fuel) s := by
        rw [lines, atKind_bind ht, if_neg (by simpa using hend), atKind_bind ht,
          if_neg (by simpa using hnl), bind_assoc, atKind_bind ht, atKind_bind ht]
        by_cases hd : t.kind = .directive
        · rw [if_pos (by simpa using hd), if_pos (by simpa using hd)]
        · rw [if_neg (by simpa using hd), if_neg (by simpa using hd)]
      have hbind : ((atKind .directive >>= fun b => if b then directive else statement C)
          >>= fun _ => lines C fuel) s = (atKind .directive >>= fun b =>
            if b then directive else statement C) s >>= fun p => lines C fuel p.2 := rfl
      have hstep : ∀ {ts rest : List Token} {l : Line}, s.tokens = ts ++ rest → EndsLine rest →
          ts ≠ [] → l.Spells C ts → ∃ n vs, rest = n :: vs ∧ n.kind = .newline
            ∧ Ready Fail (s.apply l).program.params { s.apply l with tokens := rest }
            ∧ rest.length < fuel := by
        intro ts rest l hts hrest hne' hl
        have hready : Ready Fail (s.apply l).program.params { s.apply l with tokens := rest } :=
          ⟨(hts ▸ hs.ended).drop hrest.ne_nil, fun u hu => hs.blame u
            (by rw [hts]; exact List.mem_append_right _ hu), rfl⟩
        have hlen : rest.length < fuel := by
          have htotal := congrArg List.length hts
          have hpos := List.length_pos_iff.2 hne'
          rw [List.length_append] at htotal
          omega
        obtain ⟨n, vs, rfl, hn⟩ := hrest
        refine ⟨n, vs, rfl, hn.resolve_right fun he => ?_, hready, hlen⟩
        obtain ⟨us', u, rfl⟩ : ∃ us' u, ts = us' ++ [u] :=
          ⟨_, _, (List.dropLast_append_getLast hne').symm⟩
        rw [List.append_assoc] at hts
        exact hl.no_newline u (by simp) ((hts ▸ hs.ended).before_end he)
      rw [hlines, hbind]
      refine ⟨fun s' h => ?_, fun ls hls ha => ?_, fun e he => ?_⟩
      · rcases hc : (atKind .directive >>= fun b => if b then directive else statement C) s
          with e | ⟨u, r⟩ <;> rw [hc] at h
        · cases h
        · obtain ⟨ts, rest, l, hts, hrest, hne', hl, hal, rfl⟩ := ((does_content C).ok hs).1 hc
          obtain ⟨n, vs, rfl, hn, hready, hlen⟩ := hstep hts hrest hne' hl
          obtain ⟨ls, hls, ha, ts', rfl⟩ := (lines_spec fuel _ hready hlen).1 s' h
          obtain ⟨ls, rfl, hvs⟩ := hls.blank hn
          rw [allowsAll_tokens] at ha
          exact ⟨l :: ls, by rw [← ht, hts]; exact .cons hl hn hvs, ⟨hal, ha.2⟩, ts', by
            rw [applyAll_tokens]; rfl⟩
      · generalize hvs : t :: us = vs at hls
        cases hls with
        | nil he => cases hvs; exact absurd he hend
        | @cons ts rest n l ls hl hn hls =>
          have hne' : ts ≠ [] := by
            rintro rfl
            cases hvs
            exact hnl hn
          have hts : s.tokens = ts ++ n :: rest := ht.trans hvs
          obtain ⟨-, -, -, -, hready, hlen⟩ := hstep hts ⟨n, rest, rfl, .inl hn⟩ hne' hl
          rw [((does_content C).ok (a := ()) hs).2
            ⟨ts, _, l, hts, ⟨n, rest, rfl, .inl hn⟩, hne', hl, ha.1, rfl⟩]
          obtain ⟨ts', h⟩ := (lines_spec fuel _ hready hlen).2.1 (.code none none :: ls)
            (.cons .blank hn hls) ((allowsAll_tokens _ _ _).2 ⟨⟨by simp, by simp⟩, ha.2⟩)
          refine ⟨ts', h.trans ?_⟩
          rw [applyAll_tokens]
          rfl
      · rcases hc : (atKind .directive >>= fun b => if b then directive else statement C) s
          with e' | ⟨u, r⟩ <;> rw [hc] at he
        · cases he
          exact (does_content C).fails hs hc
        · obtain ⟨ts, rest, l, hts, hrest, hne', hl, hal, rfl⟩ := ((does_content C).ok hs).1 hc
          obtain ⟨n, vs, rfl, hn, hready, hlen⟩ := hstep hts hrest hne' hl
          exact (lines_spec fuel _ hready hlen).2.2 e he

end Loop

end Parser

end WarpSim
