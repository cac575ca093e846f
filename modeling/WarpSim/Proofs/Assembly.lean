import WarpSim.Proofs.Annotate
import WarpSim.Proofs.Lexing
import WarpSim.Proofs.Lines

/-!
# The program of a source

The state of the parser after some lines, said in terms of the lines, and what the passes make of
it: a source is assembled exactly if it is accepted, into the program that it describes.
-/

namespace WarpSim

namespace Source

/-- What a source declares, its parts declare one after the other. -/
theorem statements_append (ls ms : Source) :
    statements (ls ++ ms) = ls.statements ++ ms.statements :=
  List.filterMap_append

theorem params_append (ls ms : Source) : params (ls ++ ms) = ls.params ++ ms.params :=
  List.filterMap_append

/-- The labels of a second part count on from the instructions of the first. -/
theorem definitionsFrom_append : ∀ (ls ms : Source) (n : Nat),
    definitionsFrom n (ls ++ ms)
      = definitionsFrom n ls ++ definitionsFrom (n + ls.statements.length) ms
  | [], _, _ => rfl
  | l :: ls, ms, n => by
    rw [List.cons_append, definitionsFrom, definitionsFrom_append ls ms, definitionsFrom,
      List.append_assoc, Nat.add_assoc, ← List.length_append, ← statements_append]
    rfl

theorem definitions_append (ls ms : Source) :
    definitions (ls ++ ms) = ls.definitions ++ definitionsFrom ls.statements.length ms := by
  rw [definitions, definitionsFrom_append, Nat.zero_add]
  rfl

@[simp] theorem statements_snoc (ls : Source) (l : Line) :
    statements (ls ++ [l]) = ls.statements ++ l.statement?.toList := by
  rw [statements_append]
  rcases hl : l.statement? with _ | st <;> simp [statements, hl]

@[simp] theorem params_snoc (ls : Source) (l : Line) :
    params (ls ++ [l]) = ls.params ++ l.param?.toList := by
  rw [params_append]
  rcases hl : l.param? with _ | name <;> simp [params, hl]

@[simp] theorem definitions_snoc (ls : Source) (l : Line) : definitions (ls ++ [l])
    = ls.definitions ++ (l.label?.map fun name => (name, ls.statements.length)).toList := by
  rw [definitions_append]
  simp [definitionsFrom]

@[simp] theorem pending_snoc (ls : Source) (l : Line) : pending (ls ++ [l])
    = ls.pending ++ l.statement?.toList.flatMap (Statement.pending ls.statements.length) := by
  rw [pending, statements_snoc, List.zipIdx_append, List.flatMap_append]
  rcases l.statement? with _ | st <;> simp [pending]

@[simp] theorem entry_snoc (ls : Source) (l : Line) : entry (ls ++ [l])
    = match l with | .entry name => name | _ => ls.entry := by
  rw [entry, List.foldl_append]
  rfl

@[simp] theorem sharedBytes_snoc (ls : Source) (l : Line) : sharedBytes (ls ++ [l])
    = match l with | .shared bytes => bytes | _ => ls.sharedBytes := by
  rw [sharedBytes, List.foldl_append]
  rfl

theorem wellFormed_nil : WellFormed [] := by
  intro before l after h
  cases before <;> cases h

/-- The rules between the lines are checked line by line, each against those before it. -/
theorem wellFormed_snoc {ls : Source} {l : Line} :
    WellFormed (ls ++ [l]) ↔ ls.WellFormed ∧ l.Follows ls := by
  constructor
  · intro h
    exact ⟨fun before l' after hls => h before l' (after ++ [l]) (by rw [hls]; simp),
      h ls l [] rfl⟩
  · rintro ⟨h, hl⟩ before l' after hls
    rcases List.eq_nil_or_concat after with rfl | ⟨after, a, rfl⟩
    · obtain ⟨rfl, h'⟩ := List.append_inj' hls rfl
      cases h'
      exact hl
    · have hls' : ls ++ [l] = (before ++ l' :: after) ++ [a] := by simpa using hls
      obtain ⟨rfl, -⟩ := List.append_inj' hls' rfl
      exact h before l' after rfl

end Source

section State

theorem fill_mono {target : Text → Pc} {ps : List Text} (qs : List Text) {sl : Slot} {o : Operand}
    {i j : Instruction} (h : sl.fill ps target o i = some j) :
    sl.fill (ps ++ qs) target o i = some j := by
  cases sl <;> cases o <;> first
    | (cases h; done)
    | exact h
    | (obtain ⟨k, hk, rfl⟩ := Option.map_eq_some_iff.1 h
       simp [Slot.fill, List.findIdx?_append, hk])

/-- More parameters do not change an instruction that has its own. -/
theorem fillSlots_mono {target : Text → Pc} {ps : List Text} (qs : List Text) {sls : List Slot}
    {os : List Operand} {i j : Instruction} (h : fillSlots ps target sls os i = some j) :
    fillSlots (ps ++ qs) target sls os i = some j := by
  induction sls generalizing os i with
  | nil =>
    cases os with
    | nil => exact h
    | cons => cases h
  | cons sl sls ih =>
    cases os with
    | nil => cases h
    | cons o os =>
      obtain ⟨k, hk, h⟩ := Option.bind_eq_some_iff.1 h
      rw [fillSlots, fill_mono qs hk]
      exact ih h

/-- The words so far are those of the statements so far, whose branches go nowhere yet. -/
def Words (ls : Source) (words : List (BitVec 64)) : Prop :=
  ∃ is, List.Forall₂ (fun st i => st.instruction ls.params (fun _ => 0) = some i
    ∧ validate i = .ok ()) ls.statements is ∧ words = is.map packWord

/-- The state of the parser after some lines. -/
structure Agrees (ls : Source) (s : Parser) : Prop where
  entry : s.program.entry = ls.entry
  params : s.program.params = ls.params
  sharedBytes : s.program.sharedBytes = ls.sharedBytes
  labels : ∀ name, s.labels name = (ls.definitions.lookup name).map (BitVec.ofNat 16)
  names : s.program.labels = ls.labelAt
  pending : s.pending = ls.pending
  words : Words ls s.program.words

theorem Agrees.length_words {ls : Source} {s : Parser} (h : Agrees ls s) :
    s.program.words.length = ls.statements.length := by
  obtain ⟨is, his, hw⟩ := h.words
  rw [hw, List.length_map, his.length_eq]

/-- The parser lets a line come next exactly if the rules of the language do. -/
theorem allows_iff_follows {ls : Source} {s : Parser} (h : Agrees ls s) (l : Line) :
    s.Allows l ↔ l.Follows ls := by
  have hempty : s.program.words = [] ↔ ls.statements = [] := by
    rw [← List.length_eq_zero_iff, h.length_words, List.length_eq_zero_iff]
  cases l with
  | entry name =>
    constructor
    · rintro ⟨he, hw⟩
      exact .entry (h.entry ▸ he) (hempty.1 hw)
    · rintro ⟨he, hw⟩
      exact ⟨h.entry.trans he, hempty.2 hw⟩
  | param name =>
    constructor
    · intro hp
      exact .param (h.params ▸ hp)
    · rintro ⟨hp⟩
      rwa [Parser.Allows, h.params]
  | shared bytes => exact ⟨fun _ => .shared bytes, fun _ => trivial⟩
  | code label st =>
    have hlabel : ∀ name, s.labels name = none ↔ ls.definitions.lookup name = none := by
      intro name
      rw [h.labels, Option.map_eq_none_iff]
    rw [Parser.Allows, h.params]
    constructor
    · rintro ⟨hl, hst⟩
      exact .code (fun name hn => (hlabel name).1 (hl name hn)) hst
    · intro hf
      cases hf with
      | code hl hst => exact ⟨fun name hn => (hlabel name).2 (hl name hn), hst⟩

theorem agrees_nil (ts : List Token) : Agrees [] { tokens := ts } :=
  ⟨rfl, rfl, rfl, fun _ => rfl, rfl, rfl, [], .nil, rfl⟩

theorem Agrees.congr {ls ms : Source} {s : Parser} (h : Agrees ls s) (he : ms.entry = ls.entry)
    (hp : ms.params = ls.params) (hb : ms.sharedBytes = ls.sharedBytes)
    (hd : ms.definitions = ls.definitions) (hs : ms.statements = ls.statements) : Agrees ms s := by
  obtain ⟨h1, h2, h3, h4, h5, h6, h7⟩ := h
  refine ⟨he ▸ h1, hp ▸ h2, hb ▸ h3, hd ▸ h4, ?_, ?_, ?_⟩
  · rw [h5]
    funext pc
    rw [Source.labelAt, Source.labelAt, hd]
  · rw [h6, Source.pending, Source.pending, hs]
  · rwa [Words, hs, hp]

/-- A label stands for the number of instructions before it. -/
theorem agrees_label {ls : Source} {s : Parser} (h : Agrees ls s) {name : Text}
    (hname : ls.definitions.lookup name = none) :
    Agrees (ls ++ [.code (some name) none]) (s.withLabel name) := by
  have hnone : s.labels name = none := by rw [h.labels, hname]; rfl
  have hst : Source.statements (ls ++ [.code (some name) none]) = ls.statements := by
    simp [Line.statement?]
  have hps : Source.params (ls ++ [.code (some name) none]) = ls.params := by simp [Line.param?]
  have hdef : Source.definitions (ls ++ [.code (some name) none])
      = ls.definitions ++ [(name, s.program.words.length)] := by
    simp [Line.label?, h.length_words]
  refine ⟨?_, ?_, ?_, fun x => ?_, funext fun pc => ?_, ?_, ?_⟩
  · rw [Source.entry_snoc]
    exact h.entry
  · rw [hps]
    exact h.params
  · rw [Source.sharedBytes_snoc]
    exact h.sharedBytes
  · rw [hdef, List.lookup_append, show (s.withLabel name).labels x
      = if x = name ∧ s.labels name = none then some _ else s.labels x from rfl, h.labels x]
    by_cases hx : x = name
    · rw [if_pos ⟨hx, hnone⟩, hx, hname]
      simp
    · rw [if_neg (fun hc => hx hc.1), List.lookup_cons, beq_eq_false_iff_ne.2 hx]
      simp
  · rw [Source.labelAt, hdef, List.find?_append, show (s.withLabel name).program.labels pc
      = if pc = BitVec.ofNat 16 s.program.words.length
          ∧ s.program.labels (BitVec.ofNat 16 s.program.words.length) = none then some name
        else s.program.labels pc from rfl, h.names]
    by_cases hpc : pc = BitVec.ofNat 16 s.program.words.length
    · subst hpc
      rcases hf : ls.definitions.find? fun d =>
        decide (BitVec.ofNat 16 d.2 = BitVec.ofNat 16 s.program.words.length) with _ | d <;>
        simp [Source.labelAt, hf]
    · rw [if_neg (fun hc => hpc hc.1), Source.labelAt]
      simp [Ne.symm hpc]
  · rw [Source.pending, hst]
    exact h.pending
  · rw [Words, hst, hps]
    exact h.words

/-- A statement appends its word, and its branch to the pending ones. -/
theorem agrees_statement {ls : Source} {s : Parser} (h : Agrees ls s) {st : Statement}
    (hst : Parser.Encodes ls.params st) :
    Agrees (ls ++ [.code none (some st)]) (s.withStatement st) := by
  obtain ⟨i, hi, hv⟩ := hst
  have hst : Source.statements (ls ++ [.code none (some st)]) = ls.statements ++ [st] := by
    simp [Line.statement?]
  have hps : Source.params (ls ++ [.code none (some st)]) = ls.params := by simp [Line.param?]
  have hdef : Source.definitions (ls ++ [.code none (some st)]) = ls.definitions := by
    simp [Line.label?]
  refine ⟨?_, ?_, ?_, fun x => ?_, funext fun pc => ?_, ?_, ?_⟩
  · rw [Source.entry_snoc]
    exact h.entry
  · rw [hps]
    exact h.params
  · rw [Source.sharedBytes_snoc]
    exact h.sharedBytes
  · rw [hdef]
    exact h.labels x
  · rw [Source.labelAt, hdef]
    exact congrFun h.names pc
  · rw [Source.pending_snoc, ← h.pending, ← h.length_words]
    simp [Line.statement?, Parser.withStatement]
  · obtain ⟨is, his, hw⟩ := h.words
    rw [Words, hst, hps]
    refine ⟨is ++ [i], List.rel_append his (.cons ⟨hi, hv⟩ .nil), ?_⟩
    rw [List.map_append, ← hw, Parser.withStatement, h.params, hi]
    rfl

/-- A directive defines no label and is no statement. -/
theorem agrees_directive {ls : Source} {s : Parser} (h : Agrees ls s) {l : Line}
    (hlabel : l.label? = none) (hst : l.statement? = none) {p : Program}
    (hentry : p.entry = Source.entry (ls ++ [l])) (hparams : p.params = Source.params (ls ++ [l]))
    (hbytes : p.sharedBytes = Source.sharedBytes (ls ++ [l])) (hwords : p.words = s.program.words)
    (hnames : p.labels = s.program.labels) : Agrees (ls ++ [l]) { s with program := p } := by
  have hstatements : Source.statements (ls ++ [l]) = ls.statements := by simp [hst]
  have hdef : Source.definitions (ls ++ [l]) = ls.definitions := by simp [hlabel]
  refine ⟨hentry, hparams, hbytes, fun x => ?_, ?_, ?_, ?_⟩
  · rw [hdef]
    exact h.labels x
  · rw [hnames, h.names]
    funext pc
    rw [Source.labelAt, Source.labelAt, hdef]
  · rw [Source.pending, hstatements]
    exact h.pending
  · obtain ⟨is, his, hw⟩ := h.words
    rw [Words, hstatements, Source.params_snoc]
    exact ⟨is, his.imp fun st i hi => ⟨fillSlots_mono _ hi.1, hi.2⟩, hwords.trans hw⟩

/-- The parser keeps in agreement with the lines it has read. -/
theorem agrees_apply {ls : Source} {s : Parser} (h : Agrees ls s) {l : Line} (hl : l.Follows ls) :
    Agrees (ls ++ [l]) (s.apply l) := by
  cases hl with
  | entry =>
    exact agrees_directive h rfl rfl (by rw [Source.entry_snoc])
      (h.params.trans (by simp [Line.param?]))
      (by rw [Source.sharedBytes_snoc]; exact h.sharedBytes) rfl rfl
  | param =>
    exact agrees_directive h rfl rfl (by rw [Source.entry_snoc]; exact h.entry)
      (by simp [Line.param?, h.params]) (by rw [Source.sharedBytes_snoc]; exact h.sharedBytes)
      rfl rfl
  | shared bytes =>
    exact agrees_directive h rfl rfl (by rw [Source.entry_snoc]; exact h.entry)
      (h.params.trans (by simp [Line.param?])) (by rw [Source.sharedBytes_snoc]) rfl rfl
  | @code label st hlabel hst =>
    rcases label with _ | name <;> rcases st with _ | st
    · exact h.congr (by simp) (by simp [Line.param?]) (by simp) (by simp [Line.label?])
        (by simp [Line.statement?])
    · exact agrees_statement h (hst st rfl)
    · exact agrees_label h (hlabel name rfl)
    · have hps : Source.params (ls ++ [.code (some name) none]) = ls.params := by
        simp [Line.param?]
      have h2 := agrees_statement (agrees_label h (hlabel name rfl)) (hps.symm ▸ hst st rfl)
      refine h2.congr ?_ ?_ ?_ ?_ ?_
      · simp only [Source.entry_snoc]
      · simp only [Source.params_snoc, Line.param?, Option.toList_none, List.append_nil]
      · simp only [Source.sharedBytes_snoc]
      · simp only [Source.definitions_snoc, Line.label?, Option.map_none, Option.toList_none,
          List.append_nil]
      · simp only [Source.statements_snoc, Line.statement?, Option.toList_none, List.append_nil]

theorem Source.WellFormed.left {ls ms : Source} (h : Source.WellFormed (ls ++ ms)) :
    ls.WellFormed :=
  fun before l after hls => h before l (after ++ ms) (by rw [hls]; simp)

/-- So a run of lines is let through exactly if each may follow those before it. -/
theorem allowsAll_iff : ∀ (ms : List Line) {ls : Source} {s : Parser}, Agrees ls s →
    ls.WellFormed → (s.AllowsAll ms ↔ Source.WellFormed (ls ++ ms))
  | [], ls, s, _, hls => by simp [Parser.AllowsAll, hls]
  | l :: ms, ls, s, h, hls => by
    rw [Parser.AllowsAll, allows_iff_follows h]
    constructor
    · rintro ⟨hl, hms⟩
      have := (allowsAll_iff ms (agrees_apply h hl) (Source.wellFormed_snoc.2 ⟨hls, hl⟩)).1 hms
      rwa [List.append_assoc] at this
    · intro hall
      rw [← List.singleton_append, ← List.append_assoc] at hall
      have hl := (Source.wellFormed_snoc.1 hall.left).2
      exact ⟨hl, (allowsAll_iff ms (agrees_apply h hl) hall.left).2 hall⟩

theorem agrees_applyAll : ∀ (ms : List Line) {ls : Source} {s : Parser}, Agrees ls s →
    Source.WellFormed (ls ++ ms) → Agrees (ls ++ ms) (s.applyAll ms)
  | [], ls, s, h, _ => by rwa [List.append_nil]
  | l :: ms, ls, s, h, hall => by
    rw [← List.singleton_append, ← List.append_assoc] at hall ⊢
    exact agrees_applyAll ms (agrees_apply h (Source.wellFormed_snoc.1 hall.left).2) hall

end State

section Resolve

theorem shape_bra_iff : ∀ info ∈ opcodeTable, info.shape = .bra ↔ info.opcode = .bra := by
  decide

/-- A branch is valid whatever its immediate. -/
theorem validate_bra {i : Instruction} (hop : i.opcode = .bra) (imm : Word) :
    validate { i with imm := imm } = validate i := by
  obtain ⟨op, g, d, s0, s1, f, im⟩ := i
  cases hop
  rfl

theorem valueOf_decode {i : Instruction} (h : validate i = .ok ()) :
    Parser.valueOf (decode (packWord i)) = .ok i := by
  rw [decode_encode (encode_ok.2 ⟨h, rfl⟩)]
  rfl

theorem valueOf_encode {i : Instruction} (h : validate i = .ok ()) :
    Parser.valueOf (encode i) = .ok (packWord i) := by
  rw [encode_ok.2 ⟨h, rfl⟩]
  rfl

theorem fill_target {target target' : Text → Pc} {ps : List Text} {sl : Slot} (hsl : sl ≠ .target)
    (o : Operand) (i : Instruction) : sl.fill ps target o i = sl.fill ps target' o i := by
  cases sl <;> first
    | exact absurd rfl hsl
    | (cases o <;> rfl)

/-- Without a branch target, an instruction does not depend on the labels. -/
theorem fillSlots_target {target target' : Text → Pc} {ps : List Text} {sls : List Slot}
    (hsl : Slot.target ∉ sls) (os : List Operand) (i : Instruction) :
    fillSlots ps target sls os i = fillSlots ps target' sls os i := by
  induction sls generalizing os i with
  | nil => cases os <;> rfl
  | cons sl sls ih =>
    cases os with
    | nil => rfl
    | cons o os =>
      have hsls : Slot.target ∉ sls := fun hm => hsl (List.mem_cons_of_mem _ hm)
      rw [fillSlots, fillSlots, fill_target (fun he => hsl (he ▸ List.mem_cons_self))]
      congr 1
      exact funext fun j => ih hsls os j

/-- A statement is a branch to one label, or names no label. -/
inductive Statement.Branches (ps : List Text) (st : Statement) (i : Instruction) : Prop
  | branch {name : Text} {line column : Word} (hop : i.opcode = .bra)
      (hos : st.operands = [.label name line column])
      (htarget : ∀ target, st.instruction ps target
        = some { i with imm := Instruction.makeBranchImm (target name) noReconvergence })
  | plain (hop : i.opcode ≠ .bra) (hnames : st.names = []) (hpending : ∀ n, st.pending n = [])
      (htarget : ∀ target, st.instruction ps target = some i)

/-- Operands leave the opcode and the guard as they are. -/
theorem fillSlots_keeps {target : Text → Pc} {ps : List Text} {sls : List Slot} {os : List Operand}
    {i j : Instruction} (h : fillSlots ps target sls os i = some j) :
    j.opcode = i.opcode ∧ j.guard = i.guard := by
  induction sls generalizing os i with
  | nil =>
    cases os with
    | nil => cases h; exact ⟨rfl, rfl⟩
    | cons => cases h
  | cons sl sls ih =>
    cases os with
    | nil => cases h
    | cons o os =>
      obtain ⟨k, hk, h⟩ := Option.bind_eq_some_iff.1 h
      have hkeep := Parser.fill_keeps hk
      exact ⟨(ih h).1.trans hkeep.1, (ih h).2.trans hkeep.2⟩

theorem Statement.branches {ps : List Text} {target₀ : Text → Pc} {st : Statement}
    {i : Instruction} (hinfo : st.info ∈ opcodeTable) (h : st.instruction ps target₀ = some i) :
    st.Branches ps i := by
  have hop : i.opcode = st.info.opcode := (fillSlots_keeps h).1
  by_cases hbra : st.info.shape = .bra
  · obtain ⟨g, info, os⟩ := st
    have hslots : info.shape.slots = [.target] := by
      rw [show info.shape = .bra from hbra]
      rfl
    rw [Statement.instruction, hslots] at h
    rcases os with _ | ⟨o, _ | ⟨o', os⟩⟩
    · cases h
    · cases o with
      | label name line column =>
        cases h
        refine .branch (hop.trans ((shape_bra_iff info hinfo).1 hbra)) rfl fun target => ?_
        rw [Statement.instruction, hslots]
        rfl
      | _ => cases h
    · obtain ⟨k, -, hk⟩ := Option.bind_eq_some_iff.1 h
      cases hk
  · have hsl : Slot.target ∉ st.info.shape.slots := by
      cases hs : st.info.shape <;> first
        | exact absurd hs hbra
        | decide
    have hpending := Parser.pending_of_fillSlots hsl h
    refine .plain (fun hc => hbra ((shape_bra_iff _ hinfo).2 (hop ▸ hc))) ?_ hpending
      fun target => ?_
    · refine List.filterMap_eq_nil_iff.2 fun o ho => ?_
      have hnone := List.flatMap_eq_nil_iff.1 (hpending 0) o ho
      cases o <;> first
        | rfl
        | cases hnone
    · rw [← h]
      exact fillSlots_target hsl _ _

/-- Statements and their instructions, which are valid. -/
def Instructs (ps : List Text) (target : Text → Pc) (sts : List Statement)
    (is : List Instruction) : Prop :=
  List.Forall₂ (fun st i => st.instruction ps target = some i ∧ validate i = .ok ()) sts is

theorem Instructs.valid {ps : List Text} {target : Text → Pc} {sts : List Statement}
    {is : List Instruction} (h : Instructs ps target sts is) : ∀ i ∈ is, validate i = .ok () := by
  induction h with
  | nil => simp
  | cons h _ ih => exact List.forall_mem_cons.2 ⟨h.2, ih⟩

/-- Resolving a branch replaces its word, and no other. -/
theorem resolveBranch_at {labels : Text → Option Pc} {pre post : List (BitVec 64)} {i : Instruction}
    (hop : i.opcode = .bra) (hv : validate i = .ok ()) {name : Text} {target : Pc}
    (hname : labels name = some target) (line column : Word) :
    Parser.resolveBranch labels (pre ++ packWord i :: post) ⟨pre.length, name, line, column⟩
      = .ok (pre ++ packWord { i with
          imm := Instruction.makeBranchImm target noReconvergence } :: post) := by
  have hget : (pre ++ packWord i :: post)[pre.length]? = some (packWord i) := by simp
  simp only [Parser.resolveBranch, hname, hget, valueOf_decode hv]
  rw [Check.ok_bind, valueOf_encode ((validate_bra hop _).trans hv)]
  simp

/-- Resolving what is pending gives every branch its target, in the order of the statements. -/
theorem resolve_all {ps : List Text} (labels : Text → Option Pc) {sts : List Statement}
    {is : List Instruction} (h : Instructs ps (fun _ => 0) sts is) :
    (∀ st ∈ sts, st.info ∈ opcodeTable) → ∀ pre : List (BitVec 64),
      ((∀ st ∈ sts, ∀ name ∈ st.names, labels name ≠ none) →
        ∃ is', Instructs ps (fun name => (labels name).getD 0) sts is'
          ∧ ((sts.zipIdx pre.length).flatMap fun p => p.1.pending p.2).foldlM
              (Parser.resolveBranch labels) (pre ++ is.map packWord)
            = .ok (pre ++ is'.map packWord))
      ∧ (¬(∀ st ∈ sts, ∀ name ∈ st.names, labels name ≠ none) →
        ∃ e, ((sts.zipIdx pre.length).flatMap fun p => p.1.pending p.2).foldlM
            (Parser.resolveBranch labels) (pre ++ is.map packWord) = .error (.error e)) := by
  induction h with
  | nil => exact fun _ pre => ⟨fun _ => ⟨[], .nil, rfl⟩, fun hno => absurd (by simp) hno⟩
  | @cons st i sts is hi his ih =>
    intro hinfo pre
    have hrest : ∀ w : BitVec 64, _ := fun w =>
      ih (fun s hs => hinfo s (List.mem_cons_of_mem _ hs)) (pre ++ [w])
    simp only [List.length_append, List.length_singleton, List.append_assoc,
      List.singleton_append] at hrest
    rw [List.zipIdx_cons, List.flatMap_cons, List.foldlM_append, List.map_cons,
      List.forall_mem_cons]
    cases Statement.branches (hinfo st List.mem_cons_self) hi.1 with
    | plain hop hnames hpending htarget =>
      obtain ⟨h1, h2⟩ := hrest (packWord i)
      rw [hpending, hnames, List.foldlM_nil]
      refine ⟨fun hdef => ?_, fun hno => h2 fun hdef => hno ⟨by simp, hdef⟩⟩
      obtain ⟨is', his', hfold⟩ := h1 hdef.2
      exact ⟨i :: is', .cons ⟨htarget _, hi.2⟩ his', hfold⟩
    | @branch name line column hop hos htarget =>
      have hpending : st.pending pre.length = [⟨pre.length, name, line, column⟩] := by
        rw [Statement.pending, hos]
        rfl
      have hnames : st.names = [name] := by
        rw [Statement.names, hos]
        rfl
      rw [hpending, hnames]
      simp only [List.foldlM_cons, List.foldlM_nil, bind_pure]
      rcases hl : labels name with _ | target
      · refine ⟨fun hdef => absurd hl (hdef.1 name List.mem_cons_self), fun _ => ?_⟩
        simp only [Parser.resolveBranch, hl]
        exact ⟨_, rfl⟩
      · rw [resolveBranch_at hop hi.2 hl]
        obtain ⟨h1, h2⟩ := hrest (packWord { i with
          imm := Instruction.makeBranchImm target noReconvergence })
        refine ⟨fun hdef => ?_, fun hno => h2 fun hdef => hno ⟨by simp [hl], hdef⟩⟩
        obtain ⟨is', his', hfold⟩ := h1 hdef.2
        refine ⟨_ :: is', .cons ⟨htarget _, (validate_bra hop _).trans hi.2⟩ his', ?_⟩
        simp only [hl, Option.getD_some]
        exact hfold

theorem mapM_decode : ∀ {is : List Instruction}, (∀ i ∈ is, validate i = .ok ()) →
    (is.map packWord).mapM (fun word => Parser.valueOf (decode word)) = .ok is
  | [], _ => rfl
  | i :: is, h => by
    rw [List.map_cons, List.mapM_cons, valueOf_decode (h i List.mem_cons_self),
      mapM_decode fun j hj => h j (List.mem_cons_of_mem _ hj)]
    rfl

theorem mapM_encode : ∀ {is : List Instruction}, (∀ i ∈ is, validate i = .ok ()) →
    is.mapM (fun i => Parser.valueOf (encode i)) = .ok (is.map packWord)
  | [], _ => rfl
  | i :: is, h => by
    rw [List.mapM_cons, valueOf_encode (h i List.mem_cons_self),
      mapM_encode fun j hj => h j (List.mem_cons_of_mem _ hj)]
    rfl

/-- Annotating an instruction does not make it invalid. -/
theorem validate_annotated {i : Instruction} (h : validate i = .ok ()) (cfg : Cfg) (pc : Nat) :
    validate (annotated cfg pc i) = .ok () := by
  unfold annotated
  split_ifs with hop
  · exact h
  · exact (validate_bra (not_not.1 hop) _).trans h

theorem annotate_eq {is : List Instruction} (h : ∀ i ∈ is, validate i = .ok ()) :
    Parser.annotate (is.map packWord) = match annotateReconvergence is with
      | (.error e, _) => .error (.error ⟨0, 0, e.message⟩)
      | (.ok (), decoded) => .ok (decoded.map packWord) := by
  rw [Parser.annotate, mapM_decode h, Check.ok_bind]
  rcases hcfg : buildCfg is with e | cfg
  · rw [annotateReconvergence_error hcfg]
  · rw [annotateReconvergence_ok hcfg]
    refine mapM_encode fun j hj => ?_
    obtain ⟨k, hk, rfl⟩ := List.mem_mapIdx.1 hj
    exact validate_annotated (h _ (List.getElem_mem hk)) cfg k

end Resolve

section Finish

/-- No label is behind more instructions than the source has. -/
theorem definitionsFrom_le : ∀ {ls : Source} {n : Nat} {d : Text × Nat},
    d ∈ Source.definitionsFrom n ls → d.2 ≤ n + ls.statements.length
  | l :: ls, n, d, h => by
    rw [show l :: ls = [l] ++ ls from rfl, Source.statements_append, List.length_append]
    rcases List.mem_append.1 h with h | h
    · rcases hl : l.label? with _ | name <;> rw [hl] at h
      · cases h
      · simp only [Option.map_some, Option.toList_some, List.mem_singleton] at h
        rw [h]
        omega
    · have := definitionsFrom_le h
      omega

theorem lookup_le {ls : Source} {name : Text} {n : Nat} (h : ls.definitions.lookup name = some n) :
    n ≤ ls.statements.length := by
  obtain ⟨l, r, hd, -⟩ := List.lookup_eq_some_iff.1 h
  have hmem : (name, n) ∈ Source.definitionsFrom 0 ls := by
    rw [show Source.definitionsFrom 0 ls = l ++ (name, n) :: r from hd]
    simp
  simpa using definitionsFrom_le hmem

theorem Source.Instructions.unique {ls : Source} {is js : List Instruction}
    (hi : ls.Instructions is) (hj : ls.Instructions js) : is = js := by
  have : ∀ {sts : List Statement} {is js : List Instruction},
      List.Forall₂ (fun st i => st.instruction ls.params ls.target = some i) sts is →
      List.Forall₂ (fun st i => st.instruction ls.params ls.target = some i) sts js → is = js := by
    intro sts is js hi
    induction hi generalizing js with
    | nil => intro hj; cases hj; rfl
    | cons h _ ih =>
      intro hj
      cases hj with
      | cons h' hj =>
        rw [h] at h'
        cases h'
        rw [ih hj]
  exact this hi hj

/-- A source describes one program only. -/
theorem Source.Assembles.unique {ls : Source} {p q : Program} (hp : ls.Assembles p)
    (hq : ls.Assembles q) : p = q := by
  obtain ⟨h1, h2, h3, h4, is, his, h5⟩ := hp
  obtain ⟨h1', h2', h3', h4', js, hjs, h5'⟩ := hq
  rw [← his.unique hjs] at h5'
  cases p
  cases q
  simp only [Program.mk.injEq]
  exact ⟨h1.trans h1'.symm, h2.trans h2'.symm, h3.trans h3'.symm, h5.trans h5'.symm,
    h4.trans h4'.symm⟩

theorem exists_of_forall₂_right {α β : Type} {R : α → β → Prop} :
    ∀ {as : List α} {bs : List β}, List.Forall₂ R as bs → ∀ b ∈ bs, ∃ a ∈ as, R a b
  | _, _, .nil => List.forall_mem_nil _
  | _, _, .cons h hs => List.forall_mem_cons.2 ⟨⟨_, List.mem_cons_self, h⟩, fun b hb => by
      obtain ⟨a, ha, hab⟩ := exists_of_forall₂_right hs b hb
      exact ⟨a, List.mem_cons_of_mem _ ha, hab⟩⟩

theorem exists_mem_iff {α β : Type} {R : α → β → Prop} {P : α → Prop} {Q : β → Prop} {as : List α}
    {bs : List β} (h : List.Forall₂ R as bs) (hpq : ∀ a ∈ as, ∀ b, R a b → (P a ↔ Q b)) :
    (∃ a ∈ as, P a) ↔ ∃ b ∈ bs, Q b := by
  induction h with
  | nil => simp
  | @cons a b as bs hr _ ih =>
    simp only [List.mem_cons, or_and_right, exists_or, exists_eq_left]
    rw [hpq a List.mem_cons_self b hr, ih fun x hx => hpq x (List.mem_cons_of_mem _ hx)]

/-- The branches of a source leave it exactly if one of them names a label that has no instruction
after it. -/
theorem targets_outside {ls : Source} {is : List Instruction} (hlen : ls.statements.length ≤ 65535)
    (hinfo : ∀ st ∈ ls.statements, st.info ∈ opcodeTable) (h : ls.Instructions is)
    (hdef : ∀ st ∈ ls.statements, ∀ name ∈ st.names, ls.definitions.lookup name ≠ none) :
    (∃ e, buildCfg is = .error e) ↔ ¬∀ st ∈ ls.statements, ∀ name ∈ st.names,
      ∃ n, ls.definitions.lookup name = some n ∧ n < ls.statements.length := by
  rw [buildCfg_error, ← h.length_eq]
  push Not
  refine (exists_mem_iff h fun st hst i hi => ?_).symm
  rcases Statement.branches (hinfo st hst) hi with ⟨hop, hos, htarget⟩ | ⟨hop, hnames, -, -⟩
  · rename_i name line column
    have hnames : st.names = [name] := by
      rw [Statement.names, hos]
      rfl
    have hbranch : i.branchTarget = ls.target name := by
      have := htarget ls.target
      rw [hi] at this
      rw [Option.some.inj this, Instruction.branchTarget_makeBranchImm]
    obtain ⟨n, hn⟩ := Option.ne_none_iff_exists'.1 (hdef st hst name (by simp [hnames]))
    have hle := lookup_le hn
    have hnat : (ls.target name).toNat = n := by
      rw [Source.target, hn, Option.getD_some, BitVec.toNat_ofNat]
      exact Nat.mod_eq_of_lt (by omega)
    rw [hnames, hbranch, hnat]
    simp [hop, hn]
  · simp [hop, hnames]

/-- Every branch names a label that is defined. -/
def Source.Defined (ls : Source) : Prop :=
  ∀ st ∈ ls.statements, ∀ name ∈ st.names, ls.definitions.lookup name ≠ none

/-- Every branch names a label with an instruction after it. -/
def Source.Resolved (ls : Source) : Prop :=
  ∀ st ∈ ls.statements, ∀ name ∈ st.names,
    ∃ n, ls.definitions.lookup name = some n ∧ n < ls.statements.length

/-- How the passes over the words end: the first rule that the source breaks is reported, in this
order. -/
inductive Finishes (ls : Source) (s : Parser) : Prop
  | unnamed (hname : ls.entry = []) (h : s.finish = .error (.error ⟨1, 1, "missing .entry"⟩))
  | long (hname : ls.entry ≠ []) (hlen : 65535 < ls.statements.length)
      (h : s.finish = .error (.error ⟨1, 1, "program exceeds 65535 instructions"⟩))
  | undefined {e : AssemblyError} (hname : ls.entry ≠ []) (hlen : ls.statements.length ≤ 65535)
      (hdef : ¬ls.Defined) (hfold : s.pending.foldlM (Parser.resolveBranch s.labels) s.program.words
        = .error (.error e)) (h : s.finish = .error (.error e))
  | outside {words : List (BitVec 64)} {message : String} (hname : ls.entry ≠ [])
      (hlen : ls.statements.length ≤ 65535) (hdef : ls.Defined) (hout : ¬ls.Resolved)
      (hfold : s.pending.foldlM (Parser.resolveBranch s.labels) s.program.words = .ok words)
      (h : s.finish = .error (.error ⟨0, 0, message⟩))
  | done {p : Program} (haccept : ls.Accepted) (hp : ls.Assembles p) (h : s.finish = .ok p)

/-- After the last line the passes over the words end in one of these ways. -/
theorem finish_cases {ls : Source} {s : Parser} (hls : ls.WellFormed) (h : Agrees ls s)
    (hinfo : ∀ st ∈ ls.statements, st.info ∈ opcodeTable) : Finishes ls s := by
  obtain ⟨is, his, hwords⟩ := h.words
  have hlength : s.program.words.length = ls.statements.length := h.length_words
  by_cases hentry : s.program.entry = []
  · exact .unnamed (h.entry ▸ hentry) (by rw [Parser.finish, if_pos hentry])
  by_cases hlen : noReconvergence.toNat < s.program.words.length
  · exact .long (h.entry ▸ hentry) (hlength ▸ hlen)
      (by rw [Parser.finish, if_neg hentry, if_pos hlen])
  have hsmall : ls.statements.length ≤ 65535 := hlength ▸ Nat.not_lt.1 hlen
  have hfinish : s.finish = (s.pending.foldlM (Parser.resolveBranch s.labels) s.program.words
      >>= fun words => Parser.annotate words
      >>= fun words => .ok { s.program with words := words }) := by
    rw [Parser.finish, if_neg hentry, if_neg hlen]
  have hpending : s.pending = (ls.statements.zipIdx 0).flatMap fun p => p.1.pending p.2 := h.pending
  have htarget : (fun name => (s.labels name).getD 0) = ls.target := by
    funext name
    rw [h.labels, Source.target]
    cases ls.definitions.lookup name <;> rfl
  have hdefined : (∀ st ∈ ls.statements, ∀ name ∈ st.names, s.labels name ≠ none) ↔ ls.Defined := by
    simp only [Source.Defined, h.labels, ne_eq, Option.map_eq_none_iff]
  obtain ⟨h1, h2⟩ := resolve_all s.labels his hinfo []
  rw [hdefined] at h1 h2
  by_cases hdef : ls.Defined
  · obtain ⟨is', his', hfold⟩ := h1 hdef
    rw [htarget] at his'
    have hprogram : ls.Instructions is' := his'.imp fun _ _ hi => hi.1
    rw [List.length_nil, List.nil_append, List.nil_append, ← hpending, ← hwords] at hfold
    rw [hfold, Check.ok_bind, annotate_eq his'.valid] at hfinish
    have houtside := targets_outside hsmall hinfo hprogram hdef
    rcases hcfg : buildCfg is' with e | cfg
    · rw [annotateReconvergence_error hcfg] at hfinish
      exact .outside (h.entry ▸ hentry) hsmall hdef (houtside.1 ⟨e, hcfg⟩) hfold hfinish
    · have hinside : ls.Resolved := by
        by_contra hc
        obtain ⟨e, he⟩ := houtside.2 hc
        rw [hcfg] at he
        cases he
      have hok := annotateReconvergence_ok hcfg
      rw [hok] at hfinish
      have hp :
        ls.Assembles { s.program with words := (is'.mapIdx (annotated cfg)).map packWord } :=
        ⟨h.entry, h.params, h.sharedBytes, h.names, is', hprogram, by rw [hok]⟩
      exact .done ⟨hls, h.entry ▸ hentry, hsmall, hinside⟩ hp hfinish
  · obtain ⟨e, he⟩ := h2 hdef
    rw [List.length_nil, List.nil_append, ← hpending, ← hwords] at he
    rw [he] at hfinish
    exact .undefined (h.entry ▸ hentry) hsmall hdef he hfinish

theorem finish_spec {ls : Source} {s : Parser} (hls : ls.WellFormed) (h : Agrees ls s)
    (hinfo : ∀ st ∈ ls.statements, st.info ∈ opcodeTable) :
    (∀ p, s.finish = .ok p ↔ ls.Accepted ∧ ls.Assembles p)
      ∧ ∀ e, s.finish = .error e → ∃ e', e = .error e' := by
  have hreject : ∀ {e}, s.finish = .error (.error e) → ¬ls.Accepted →
      (∀ p, s.finish = .ok p ↔ ls.Accepted ∧ ls.Assembles p)
        ∧ ∀ e, s.finish = .error e → ∃ e', e = .error e' := by
    intro e he hno
    rw [he]
    refine ⟨fun p => ⟨fun h => ?_, fun h => absurd h.1 hno⟩, fun e' h => ?_⟩
    · cases h
    · cases h
      exact ⟨e, rfl⟩
  cases finish_cases hls h hinfo with
  | unnamed hname he => exact hreject he fun ha => ha.named hname
  | long _ hlen he => exact hreject he fun ha => absurd ha.small (Nat.not_le.2 hlen)
  | undefined _ _ hdef _ he =>
    refine hreject he fun ha => hdef fun st hst name hname hnone => ?_
    obtain ⟨n, hn, -⟩ := ha.resolved st hst name hname
    rw [hnone] at hn
    cases hn
  | outside _ _ _ hout _ he => exact hreject he fun ha => hout ha.resolved
  | done haccept hp hok =>
    rw [hok]
    refine ⟨fun p => ⟨fun he => ?_, fun hp' => by rw [hp.unique hp'.2]⟩, fun e he => by cases he⟩
    cases he
    exact ⟨haccept, hp⟩

theorem Line.Spells.info {C : FloatChars} {ts : List Token} {l : Line} (h : l.Spells C ts) :
    ∀ st ∈ l.statement?, st.info ∈ opcodeTable := by
  have hst : ∀ {ts : List Token} {st : Statement}, st.Spells C ts → st.info ∈ opcodeTable := by
    intro ts st h
    cases h with
    | mk hg hm hi ho hk => exact List.mem_of_find?_eq_some hi
  cases h <;> simp_all [Line.statement?]
  · exact hst ‹_›
  · exact hst ‹_›

theorem SpellsLines.info {C : FloatChars} {ts : List Token} {ls : Source}
    (h : SpellsLines C ts ls) : ∀ st ∈ ls.statements, st.info ∈ opcodeTable := by
  induction h with
  | nil => simp [Source.statements]
  | cons h _ _ ih =>
    intro st hst
    obtain ⟨l, hl, hlst⟩ := List.mem_filterMap.1 hst
    rcases List.mem_cons.1 hl with rfl | hl
    · exact h.info st hlst
    · exact ih st (List.mem_filterMap.2 ⟨l, hl, hlst⟩)

/-- Assembling succeeds exactly on the accepted sources, with the program that they describe, and
fails only with a diagnostic. -/
theorem assemble_spec (C : FloatChars) (source : Text) :
    (∀ p, assemble C source = .ok p ↔ ∃ (ts : List Token) (ls : Source), lex source = .ok ts
      ∧ SpellsLines C ts ls ∧ ls.Accepted ∧ ls.Assembles p)
    ∧ ∀ s, assemble C source = .error s → ∃ e, s = .error e := by
  have hlex := lex_spec source
  rw [assemble]
  rcases hts : lex source with s | ts <;> rw [hts] at hlex
  · refine ⟨fun p => ⟨fun h => ?_, fun ⟨ts, ls, h, _⟩ => ?_⟩, fun s' h => ?_⟩
    · cases h
    · cases h
    · cases h
      exact hlex
  have hready : Ready (fun s => ∃ e, s = .error e) [] { tokens := ts } :=
    ⟨hlex, fun t _ m => ⟨_, rfl⟩, rfl⟩
  obtain ⟨h1, h2, h3⟩ := Parser.lines_spec (C := C) (ts.length + 1) { tokens := ts } hready
    (Nat.lt_succ_self _)
  have hagrees : ∀ {ls : Source}, Parser.AllowsAll { tokens := ts } ls →
      ls.WellFormed ∧ Agrees ls (Parser.applyAll { tokens := ts } ls) := by
    intro ls hls
    have hwell := (allowsAll_iff ls (agrees_nil ts) Source.wellFormed_nil).1 hls
    exact ⟨hwell, agrees_applyAll ls (agrees_nil ts) hwell⟩
  have hfinish : ∀ (s : Parser) (us : List Token),
      Parser.finish { s with tokens := us } = s.finish :=
    fun _ _ => rfl
  rw [Check.ok_bind]
  rcases hrun : Parser.lines C (ts.length + 1) { tokens := ts } with e | ⟨u, s⟩
  · refine ⟨fun p => ⟨fun h => ?_, fun ⟨ts', ls, hlex', hspells, haccept, _⟩ => ?_⟩, fun s' h => ?_⟩
    · cases h
    · cases hlex'
      obtain ⟨us, hok⟩ := h2 ls hspells
        ((allowsAll_iff ls (agrees_nil ts) Source.wellFormed_nil).2 haccept.follows)
      rw [hrun] at hok
      cases hok
    · cases h
      exact h3 _ hrun
  · obtain ⟨ls, hspells, hallow, us, rfl⟩ := h1 s hrun
    obtain ⟨hwell, hag⟩ := hagrees hallow
    obtain ⟨hok, herr⟩ := finish_spec hwell hag hspells.info
    refine ⟨fun p => ⟨fun h => ?_, fun ⟨ts', ls', hlex', hspells', haccept, hp⟩ => ?_⟩,
      fun s' h => herr s' h⟩
    · obtain ⟨haccept, hp⟩ := (hok p).1 h
      exact ⟨ts, ls, rfl, hspells, haccept, hp⟩
    · cases hlex'
      obtain ⟨us', hok'⟩ := h2 ls' hspells'
        ((allowsAll_iff ls' (agrees_nil ts) Source.wellFormed_nil).2 haccept.follows)
      rw [hrun] at hok'
      have hsame : Parser.finish (Parser.applyAll { tokens := ts } ls)
          = Parser.finish (Parser.applyAll { tokens := ts } ls') := by
        injection hok' with hok'
        injection hok' with _ hok'
        rw [← hfinish _ us, hok', hfinish]
      obtain ⟨hok₁, -⟩ := finish_spec haccept.follows
        (agrees_applyAll ls' (agrees_nil ts) haccept.follows) hspells'.info
      exact (hfinish _ us).trans (hsame.trans ((hok₁ p).2 ⟨haccept, hp⟩))

end Finish

end WarpSim
