import WarpSim.Proofs.Lexing

/-!
# The parser does not read positions

Tokens that differ in their positions only are parsed alike: a diagnostic has the position of one
and the same token, told by its number, or the same position for all of them
(`assembleTokens_relabel`, `finish_view`). So the place of a failure is a matter of the tokens'
kinds and texts.
-/

namespace WarpSim

open Check Stateful

/-- The tokens with other positions, by their number. -/
def relabel (position : Nat → Word × Word) (ts : List Token) : List Token :=
  ts.mapIdx fun j t => { t with line := (position j).1, column := (position j).2 }

/-- The position of each token, by its number. -/
def positions (ts : List Token) (j : Nat) : Word × Word :=
  (ts[j]?.map fun t => (t.line, t.column)).getD (0, 0)

theorem relabel_positions (ts : List Token) : relabel (positions ts) ts = ts := by
  refine List.ext_getElem? fun j => ?_
  rw [relabel, List.getElem?_mapIdx]
  rcases h : ts[j]? with _ | t
  · rfl
  · simp [positions, h]

/-- A position that no token has does not matter. -/
theorem relabel_congr {position position' : Nat → Word × Word} {ts : List Token}
    (h : ∀ j < ts.length, position j = position' j) :
    relabel position ts = relabel position' ts := by
  refine List.ext_getElem? fun j => ?_
  rw [relabel, relabel, List.getElem?_mapIdx, List.getElem?_mapIdx]
  rcases hj : ts[j]? with _ | t
  · rfl
  · rw [h j (List.getElem?_eq_some_iff.1 hj).1]

/-- What is done with the tokens of a source. -/
def assembleTokens (C : FloatChars) (ts : List Token) : Except Stop Program := do
  let (_, s) ← Parser.lines C (ts.length + 1) { tokens := ts }
  s.finish

theorem assemble_eq (C : FloatChars) (source : Text) :
    assemble C source = lex source >>= assembleTokens C := rfl

namespace Parser

section Views

/-- A parser that knows its tokens and its pending branches by their numbers only; `first` is the
number of the current token. -/
structure Unplaced where
  first : Nat
  tokens : List Token
  program : Program
  labels : Text → Option Pc
  pending : List (PendingBranch × Nat)

namespace Unplaced

def branches (g : Unplaced) (position : Nat → Word × Word) : List PendingBranch :=
  g.pending.map fun b =>
    { b.1 with line := (position b.2).1, column := (position b.2).2 }

/-- The parser where the tokens have these positions. -/
def view (position : Nat → Word × Word) (g : Unplaced) : Parser where
  tokens := relabel (fun j => position (g.first + j)) g.tokens
  program := g.program
  labels := g.labels
  pending := g.branches position

end Unplaced

/-- A branch at the current token. -/
def Unplaced.branchAt (g : Unplaced) (label : Text) : Unplaced :=
  { g with pending := g.pending ++ [(⟨g.program.words.length, label, 0, 0⟩, g.first)] }

theorem Unplaced.view_branchAt (g : Unplaced) (label : Text) (position : Nat → Word × Word) :
    (g.branchAt label).view position = { g.view position with
      pending := (g.view position).pending ++ [⟨(g.view position).program.words.length, label,
        (position g.first).1, (position g.first).2⟩] } := by
  simp only [view, branches, branchAt, List.map_append, List.map_cons, List.map_nil]

/-- The errors of the parser: at the position of a token, or none that has a position. -/
inductive Blames : ((Nat → Word × Word) → Stop) → Prop
  | token (j : Nat) (message : String) :
      Blames fun position => .error ⟨(position j).1, (position j).2, message⟩
  | stuck {s : Stop} (h : ∀ e, s ≠ .error e) : Blames fun _ => s

variable {α β : Type}

abbrev Alike (x : ParserM α) : Prop := Uniform Unplaced.view Blames x

/-- The current token, wherever it stands. -/
theorem Unplaced.view_cons {g : Unplaced} {t : Token} {ts : List Token} (hg : g.tokens = t :: ts)
    (position : Nat → Word × Word) : (g.view position).tokens
      = { t with line := (position g.first).1, column := (position g.first).2 }
        :: relabel (fun j => position (g.first + (j + 1))) ts := by
  rw [view, hg, relabel, List.mapIdx_cons]
  rfl

theorem alike_cur {f : Token → ParserM α} (h : ∀ t, Alike (f t))
    (hf : ∀ t line column, f { t with line := line, column := column } = f t) :
    Alike (cur >>= f) := by
  refine uniform_of_shape fun g => ?_
  rcases hg : g.tokens with _ | ⟨t, ts⟩
  · refine ⟨throw .index, uniform_throw (.stuck nofun), fun position => ?_⟩
    rw [Unplaced.view, hg]
    rfl
  · exact ⟨f t, h t, fun position => by rw [cur_bind (g.view_cons hg position), hf]⟩

theorem alike_fail (message : String) : Alike (fail message : ParserM α) := by
  intro g
  rcases hg : g.tokens with _ | ⟨t, ts⟩
  · refine .inr ⟨_, .stuck (s := .index) nofun, fun position => ?_⟩
    rw [Unplaced.view, hg]
    rfl
  · exact .inr ⟨_, .token g.first message, fun position => fail_eq (g.view_cons hg position) _⟩

theorem alike_next : Alike next := by
  refine uniform_modify fun g => ?_
  rcases hg : g.tokens with _ | ⟨t, _ | ⟨t', ts⟩⟩
  · exact ⟨g, fun position => by rw [Unplaced.view, hg]; rfl⟩
  · exact ⟨g, fun position => by rw [Unplaced.view, hg]; rfl⟩
  · refine ⟨{ g with first := g.first + 1, tokens := t' :: ts }, fun position => ?_⟩
    simp only [Unplaced.view, hg, relabel, List.mapIdx_cons, Unplaced.branches, Nat.add_assoc,
      Nat.add_comm 1]

/-- What reads the program and the labels only. -/
theorem alike_get {f : Parser → ParserM α}
    (hf : ∀ s tokens pending, f { s with tokens := tokens, pending := pending } = f s)
    (h : ∀ s, Alike (f s)) : Alike (get >>= f) := by
  refine uniform_of_shape fun g => ?_
  refine ⟨f { tokens := [], program := g.program, labels := g.labels }, h _, fun position => ?_⟩
  exact congrFun (hf { tokens := [], program := g.program, labels := g.labels }
    (g.view position).tokens (g.view position).pending) _

/-- What writes the program and the labels only. -/
theorem alike_modify {f : Parser → Parser}
    (hf : ∀ s tokens pending, f { s with tokens := tokens, pending := pending }
      = { f s with tokens := tokens, pending := pending }) : Alike (modify f) := by
  refine uniform_modify fun g => ?_
  refine ⟨{ g with
      program := (f { tokens := [], program := g.program, labels := g.labels }).program
      labels := (f { tokens := [], program := g.program, labels := g.labels }).labels },
    fun position => ?_⟩
  exact hf { tokens := [], program := g.program, labels := g.labels } (g.view position).tokens
    (g.view position).pending

theorem alike_ite {c : Prop} [Decidable c] {x y : ParserM α} (hx : Alike x) (hy : Alike y) :
    Alike (if c then x else y) := by
  split_ifs
  · exact hx
  · exact hy

theorem alike_map {x : ParserM α} (f : α → β) (hx : Alike x) : Alike (x >>= fun a => pure (f a)) :=
  uniform_bind hx fun _ => uniform_pure _

theorem alike_atKind (kind : TokenKind) : Alike (atKind kind) :=
  alike_cur (fun _ => uniform_pure _) fun _ _ _ => rfl

theorem alike_expect (kind : TokenKind) (what : String) : Alike (expect kind what) :=
  uniform_bind (alike_atKind kind) fun _ => alike_ite alike_next (alike_fail _)

theorem alike_endOfLine : Alike endOfLine :=
  alike_cur (fun _ => alike_ite (uniform_pure _) (alike_fail _)) fun _ _ _ => rfl

end Views

section Operands

variable (C : FloatChars) (out : Instruction)

theorem alike_take {α : Type} (a : α) : Alike (next >>= fun _ => pure a) :=
  uniform_bind alike_next fun _ => uniform_pure a

theorem alike_integerLiteral : Alike integerLiteral := by
  refine alike_cur (fun t => alike_ite (alike_fail _) ?_) fun _ _ _ => rfl
  dsimp only
  generalize parseNumber 64 _ _ = value
  cases value with
  | none => exact alike_fail _
  | some value => exact alike_ite (alike_fail _) (alike_take _)

theorem alike_generalRegister : Alike generalRegister := by
  refine alike_cur (fun t => alike_ite ?_ (alike_fail _)) fun _ _ _ => rfl
  cases registerIndex t.text 'r' generalRegisterCount with
  | none => exact alike_fail _
  | some index => exact alike_take _

theorem alike_dstPred : Alike (dstPred out) := by
  refine alike_cur (fun t => alike_ite ?_ (alike_fail _)) fun _ _ _ => rfl
  cases predicateName t.text with
  | none => exact alike_fail _
  | some index => exact alike_take _

theorem alike_special : Alike (special out) := by
  refine alike_cur (fun t => alike_ite ?_ (alike_fail _)) fun _ _ _ => rfl
  cases specialRegisterInfoOfName (String.ofList t.text) with
  | none => exact alike_fail _
  | some info => exact alike_take _

theorem alike_unsignedImmediate (opcode : Opcode) (negative : Bool) :
    Alike (unsignedImmediate C opcode negative) := by
  refine alike_cur (fun t => ?_) fun _ _ _ => rfl
  refine alike_ite (alike_ite (alike_fail _) ?_) (alike_ite (alike_fail _) ?_)
  · cases C.fromChars t.text with
    | none => exact alike_fail _
    | some value => exact alike_take _
  · refine uniform_bind alike_integerLiteral fun _ => alike_ite ?_ (uniform_pure _)
    exact alike_ite (alike_fail _) (uniform_pure _)

theorem alike_immediate : Alike (immediate C out) := by
  refine alike_map _ (uniform_bind (alike_atKind .minus) fun _ => alike_ite ?_ ?_)
  · exact uniform_bind alike_next fun _ => alike_unsignedImmediate C _ _
  · exact alike_unsignedImmediate C _ _

/-- A register or an immediate. -/
theorem alike_orImm {x : ParserM Instruction} (hx : Alike x) :
    Alike (atKind .identifier >>= fun c => if c then x else immediate C out) :=
  uniform_bind (alike_atKind _) fun _ => alike_ite hx (alike_immediate C out)

/-- The offset with its sign. -/
theorem alike_offset (f : Word → Word) : Alike (do
    next
    let offset ← integerLiteral
    expect .rBracket "']'"
    return f offset) :=
  uniform_bind alike_next fun _ => uniform_bind alike_integerLiteral fun _ =>
    uniform_bind (alike_expect _ _) fun _ => uniform_pure _

theorem alike_addressOffset : Alike addressOffset := by
  refine uniform_bind (alike_atKind _) fun _ => alike_ite (alike_offset id) ?_
  refine uniform_bind (alike_atKind _) fun _ => alike_ite (alike_offset (0 - ·)) ?_
  exact uniform_bind (alike_expect _ _) fun _ => uniform_pure _

theorem alike_address : Alike (address out) :=
  uniform_bind (alike_expect _ _) fun _ => uniform_bind alike_generalRegister fun _ =>
    alike_map _ alike_addressOffset

theorem alike_paramRef : Alike (paramRef out) := by
  refine uniform_bind (alike_expect _ _) fun _ => alike_cur (fun t => ?_) fun _ _ _ => rfl
  refine alike_ite (alike_fail _) (alike_get (fun _ _ _ => rfl) fun s => ?_)
  cases s.program.params.findIdx? (· = t.text) with
  | none => exact alike_fail _
  | some i =>
    exact uniform_bind alike_next fun _ => uniform_bind (alike_expect _ _) fun _ => uniform_pure _

/-- A branch keeps the position of its label, which is that of the token with its number. -/
theorem alike_branchTarget : Alike (branchTarget out) := by
  intro g
  rcases hg : g.tokens with _ | ⟨t, ts⟩
  · refine .inr ⟨_, .stuck (s := .index) nofun, fun position => ?_⟩
    rw [Unplaced.view, hg]
    rfl
  have hcur : ∀ position (f : Token → ParserM Instruction), (cur >>= f) (g.view position) = _ :=
    fun position => cur_bind (g.view_cons hg position)
  by_cases hk : t.kind = .identifier
  · have hrest : ∀ position, branchTarget out (g.view position)
        = (next >>= fun _ => pure { out with imm := Instruction.makeBranchImm 0 noReconvergence })
          ((g.branchAt t.text).view position) := by
      intro position
      rw [branchTarget, hcur, if_neg (not_not.2 hk), g.view_branchAt]
      rfl
    simp only [hrest]
    exact alike_take _ _
  · refine .inr ⟨_, .token g.first "expected a label", fun position => ?_⟩
    rw [branchTarget, hcur, if_pos hk]
    exact fail_eq (g.view_cons hg position) _

theorem alike_register (f : BitVec 8 → Instruction) :
    Alike (generalRegister >>= fun index => pure (f index)) := alike_map _ alike_generalRegister

theorem alike_commaThen {step : Instruction → ParserM Instruction} (h : ∀ out, Alike (step out)) :
    Alike (commaThen step out) :=
  uniform_bind (alike_expect _ _) fun _ => h out

theorem alike_parseOperands (shape : Shape) : Alike (parseOperands C shape out) := by
  have hdst : Alike (dstReg out) := alike_register _
  have hsrc0 : ∀ out, Alike (commaThen src0Reg out) := fun out =>
    alike_commaThen out fun _ => alike_register _
  have hsrc1 : ∀ out, Alike (commaThen src1Reg out) := fun out =>
    alike_commaThen out fun _ => alike_register _
  have hlast : ∀ out, Alike (commaThen (src1RegOrImm C) out) := fun out =>
    alike_commaThen out fun _ => alike_orImm C _ (alike_register _)
  cases shape with
  | rrr => exact uniform_bind (uniform_bind hdst hsrc0) hlast
  | rr =>
    exact uniform_bind hdst fun _ => alike_commaThen _ fun _ => alike_orImm C _ (alike_register _)
  | acc => exact uniform_bind (uniform_bind hdst hsrc0) hsrc1
  | prr => exact uniform_bind (uniform_bind (alike_dstPred out) hsrc0) hlast
  | sreg => exact uniform_bind hdst fun _ => alike_commaThen _ alike_special
  | bra => exact alike_branchTarget out
  | none => exact uniform_pure out
  | ld => exact uniform_bind hdst fun _ => alike_commaThen _ alike_address
  | st => exact uniform_bind (alike_address out) hsrc1
  | ldp => exact uniform_bind hdst fun _ => alike_commaThen _ alike_paramRef

end Operands

section Lines

variable (C : FloatChars)

theorem alike_entry : Alike entry := by
  refine alike_get (fun _ _ _ => rfl) fun s => ?_
  refine alike_ite (alike_fail _) (alike_ite (alike_fail _) ?_)
  refine alike_cur (fun t => alike_ite (alike_fail _) ?_) fun _ _ _ => rfl
  exact uniform_bind (alike_modify fun _ _ _ => rfl) fun _ =>
    uniform_bind alike_next fun _ => alike_endOfLine

theorem alike_param : Alike param := by
  refine alike_cur (fun t => alike_ite (alike_fail _) ?_) fun _ _ _ => rfl
  refine alike_get (fun _ _ _ => rfl) fun s => alike_ite (alike_fail _) ?_
  exact uniform_bind (alike_modify fun _ _ _ => rfl) fun _ =>
    uniform_bind alike_next fun _ => alike_endOfLine

theorem alike_shared : Alike shared :=
  uniform_bind alike_integerLiteral fun _ =>
    uniform_bind (alike_modify fun _ _ _ => rfl) fun _ => alike_endOfLine

theorem alike_directive : Alike directive := by
  refine alike_cur (fun t => uniform_bind alike_next fun _ => ?_) fun _ _ _ => rfl
  exact alike_ite alike_entry (alike_ite alike_param (alike_ite alike_shared (alike_fail _)))

theorem alike_peek {α : Type} {f : Token → ParserM α} (h : ∀ t, Alike (f t))
    (hf : ∀ t line column, f { t with line := line, column := column } = f t) :
    Alike (peek >>= f) := by
  refine uniform_of_shape fun g => ?_
  rcases hg : g.tokens with _ | ⟨t, _ | ⟨t', ts⟩⟩
  · refine ⟨throw .index, uniform_throw (.stuck nofun), fun position => ?_⟩
    rw [Unplaced.view, hg]
    rfl
  · refine ⟨throw .index, uniform_throw (.stuck nofun), fun position => ?_⟩
    rw [Unplaced.view, hg]
    rfl
  · refine ⟨f t', h t', fun position => ?_⟩
    rw [← hf t' (position (g.first + 1)).1 (position (g.first + 1)).2]
    have htokens := g.view_cons hg position
    rw [relabel, List.mapIdx_cons] at htokens
    rw [peek_bind htokens]

theorem alike_atLabel : Alike atLabel :=
  uniform_bind (alike_atKind _) fun _ =>
    alike_ite (alike_peek (fun _ => uniform_pure _) fun _ _ _ => rfl) (uniform_pure _)

theorem alike_defineLabel : Alike defineLabel := by
  refine alike_cur (fun t => ?_) fun _ _ _ => rfl
  refine alike_get (fun _ _ _ => rfl) fun s => alike_ite (alike_fail _) ?_
  exact uniform_bind (alike_modify fun _ _ _ => rfl) fun _ =>
    uniform_bind alike_next fun _ => alike_next

theorem alike_guard : Alike guard := by
  refine alike_cur (fun t => alike_ite ?_ (uniform_pure _)) fun _ _ _ => rfl
  cases predicateName t.text with
  | none => exact alike_fail _
  | some pred => exact alike_take _

theorem alike_mnemonic : Alike mnemonic := by
  refine alike_cur (fun t => alike_ite (alike_fail _) ?_) fun _ _ _ => rfl
  cases opcodeInfoOfMnemonic (String.ofList t.text) with
  | none => exact alike_fail _
  | some info => exact alike_take _

theorem alike_instruction : Alike (instruction C) := by
  refine uniform_bind alike_guard fun guard => uniform_bind alike_mnemonic fun info => ?_
  refine uniform_bind (alike_parseOperands C _ _) fun i => uniform_bind alike_endOfLine fun _ => ?_
  cases encode i with
  | error e => exact alike_fail _
  | ok word => exact alike_modify fun _ _ _ => rfl

theorem alike_statement : Alike (statement C) := by
  refine uniform_bind alike_atLabel fun _ => alike_ite ?_ (alike_instruction C)
  refine uniform_bind alike_defineLabel fun _ => uniform_bind (alike_atKind _) fun _ => ?_
  exact alike_ite (uniform_pure _) (alike_instruction C)

theorem alike_lines : ∀ fuel, Alike (lines C fuel)
  | 0 => uniform_throw (.stuck nofun)
  | fuel + 1 => by
    refine uniform_bind (alike_atKind _) fun _ => alike_ite (uniform_pure _) ?_
    refine uniform_bind (alike_atKind _) fun _ => alike_ite ?_ ?_
    · exact uniform_bind alike_next fun _ => alike_lines fuel
    refine uniform_bind (alike_atKind _) fun _ => alike_ite ?_ ?_
    · exact uniform_bind alike_directive fun _ => alike_lines fuel
    · exact uniform_bind (alike_statement C) fun _ => alike_lines fuel

end Lines

section Passes

/-- Resolving a branch fails at its own position, or in a way that has none. -/
theorem resolveBranch_view (labels : Text → Option Pc) (words : List (BitVec 64))
    (b : PendingBranch × Nat) :
    (∃ words', ∀ position : Nat → Word × Word, resolveBranch labels words
        { b.1 with line := (position b.2).1, column := (position b.2).2 } = .ok words')
      ∨ ∃ e, Blames e ∧ ∀ position : Nat → Word × Word, resolveBranch labels words
        { b.1 with line := (position b.2).1, column := (position b.2).2 }
          = .error (e position) := by
  have hvalue : ∀ {ε α : Type} (x : Except ε α), (∃ a, valueOf x = .ok a)
      ∨ valueOf x = .error .value := by
    intro ε α x
    cases x with
    | error e => exact .inr rfl
    | ok a => exact .inl ⟨a, rfl⟩
  simp only [resolveBranch]
  rcases labels b.1.label with _ | target
  · exact .inr ⟨_, .token b.2 _, fun position => rfl⟩
  rcases words[b.1.pc]? with _ | word
  · exact .inr ⟨_, .stuck (s := .index) nofun, fun position => rfl⟩
  simp only []
  rcases hvalue (decode word) with ⟨i, hi⟩ | hi <;> rw [hi]
  · rw [ok_bind]
    rcases hvalue (encode { i with imm := Instruction.makeBranchImm target noReconvergence }) with
      ⟨word', hw⟩ | hw <;> rw [hw]
    · exact .inl ⟨_, fun position => rfl⟩
    · exact .inr ⟨_, .stuck (s := .value) nofun, fun position => rfl⟩
  · exact .inr ⟨_, .stuck (s := .value) nofun, fun position => rfl⟩

theorem resolve_view (labels : Text → Option Pc) : ∀ (pending : List (PendingBranch × Nat))
    (words : List (BitVec 64)),
    (∃ words', ∀ position : Nat → Word × Word, (pending.map fun b =>
        { b.1 with line := (position b.2).1, column := (position b.2).2 }).foldlM
          (resolveBranch labels) words = .ok words')
      ∨ ∃ e, Blames e ∧ ∀ position : Nat → Word × Word, (pending.map fun b =>
        { b.1 with line := (position b.2).1, column := (position b.2).2 }).foldlM
          (resolveBranch labels) words = .error (e position)
  | [], words => .inl ⟨words, fun _ => rfl⟩
  | b :: pending, words => by
    simp only [List.map_cons, List.foldlM_cons]
    rcases resolveBranch_view labels words b with ⟨words', h⟩ | ⟨e, he, h⟩
    · simp only [h, ok_bind]
      exact resolve_view labels pending words'
    · exact .inr ⟨e, he, fun position => by rw [h]; rfl⟩

/-- How the passes over the words end, wherever the tokens stand. -/
inductive FinishView (g : Unplaced) : Prop
  | start (message : String)
      (h : ∀ position, (g.view position).finish = .error (.error ⟨1, 1, message⟩))
  | unresolved {e : (Nat → Word × Word) → Stop} (he : Blames e)
      (hfold : ∀ position, (g.branches position).foldlM (resolveBranch g.labels) g.program.words
        = .error (e position))
      (h : ∀ position, (g.view position).finish = .error (e position))
  | resolved {words : List (BitVec 64)} (hname : g.program.entry ≠ [])
      (hlen : g.program.words.length ≤ 65535)
      (hfold : ∀ position, (g.branches position).foldlM (resolveBranch g.labels) g.program.words
        = .ok words)
      (h : ∀ position, (g.view position).finish
        = annotate words >>= fun words => .ok { g.program with words := words })

theorem finish_view (g : Unplaced) : FinishView g := by
  by_cases hname : g.program.entry = []
  · exact .start _ fun position => if_pos hname
  by_cases hlen : noReconvergence.toNat < g.program.words.length
  · exact .start _ fun position => (if_neg hname).trans (if_pos hlen)
  have hfinish : ∀ position, (g.view position).finish
      = (g.branches position).foldlM (resolveBranch g.labels) g.program.words
        >>= fun words => annotate words >>= fun words => .ok { g.program with words := words } :=
    fun position => (if_neg hname).trans (if_neg hlen)
  rcases resolve_view g.labels g.pending g.program.words with ⟨words, h⟩ | ⟨e, he, h⟩
  · refine .resolved hname (Nat.not_lt.1 hlen) h fun position => ?_
    rw [hfinish, Unplaced.branches, h, ok_bind]
  · refine .unresolved he h fun position => ?_
    rw [hfinish, Unplaced.branches, h, error_bind]

end Passes

section Whole

variable (C : FloatChars) (ts : List Token)

theorem length_relabel (position : Nat → Word × Word) : (relabel position ts).length = ts.length :=
  List.length_mapIdx

/-- The lines are parsed alike, wherever the tokens stand, and what follows is left to `finish`. -/
theorem assembleTokens_relabel :
    (∃ g : Unplaced, ∀ position,
        Parser.lines C (ts.length + 1) { tokens := relabel position ts } = .ok ((), g.view position)
          ∧ assembleTokens C (relabel position ts) = (g.view position).finish)
      ∨ ∃ e, Blames e ∧ ∀ position,
        Parser.lines C (ts.length + 1) { tokens := relabel position ts } = .error (e position)
          ∧ assembleTokens C (relabel position ts) = .error (e position) := by
  have hview : ∀ position, Unplaced.view position ⟨0, ts, {}, fun _ => none, []⟩
      = { tokens := relabel position ts } := by
    intro position
    simp only [Unplaced.view, Unplaced.branches, Nat.zero_add, List.map_nil]
  have hrun : ∀ position, assembleTokens C (relabel position ts)
      = Parser.lines C (ts.length + 1) { tokens := relabel position ts }
        >>= fun r => r.2.finish := by
    intro position
    rw [assembleTokens, length_relabel]
  rcases alike_lines C (ts.length + 1) ⟨0, ts, {}, fun _ => none, []⟩ with
    ⟨⟨⟩, g, h⟩ | ⟨e, he, h⟩ <;> simp only [hview] at h
  · exact .inl ⟨g, fun position => ⟨h position, by rw [hrun, h]; rfl⟩⟩
  · exact .inr ⟨e, he, fun position => ⟨h position, by rw [hrun, h]; rfl⟩⟩

end Whole

end Parser

end WarpSim
