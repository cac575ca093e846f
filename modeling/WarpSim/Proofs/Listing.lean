import WarpSim.Proofs.Sources

/-!
# The listing of a program

What the disassembler prints, line by line: every line with its text and with what it says. A
program whose words decode is printed as its listing (`disassemble_listing`).
-/

namespace WarpSim

open Disassembler Check

section Listings

/-- The operand in a place of an instruction. -/
def Slot.operand (labels : Pc → Option Text) (params : List Text) (i : Instruction) :
    Slot → Operand
  | .dst => .register i.dst
  | .src0 => .register i.src0
  | .src1 => .register i.src1
  | .src0OrImm => if i.immFlag then .immediate i.imm else .register i.src0
  | .src1OrImm => if i.immFlag then .immediate i.imm else .register i.src1
  | .dstPred => .predicate i.dst
  | .special =>
    .special (((specialRegisterInfoOfIndex i.src0).map SpecialRegisterInfo.reg).getD .tidX)
  | .target => .label (labelFor i.branchTarget labels) 0 0
  | .address => .address i.src0 i.imm
  | .param => .parameter (params.getD i.imm.toNat [])

/-- The statement that an instruction is printed as. -/
def Instruction.statement (labels : Pc → Option Text) (params : List Text) (i : Instruction) :
    Statement where
  guard := i.guard
  info := opcodeInfo i.opcode
  operands := (opcodeInfo i.opcode).shape.slots.map (Slot.operand labels params i)

/-- The comment after a branch that reconverges. -/
def reconvergeComment (labels : Pc → Option Text) (i : Instruction) : Text :=
  if i.opcode = .bra ∧ i.reconvergencePc ≠ noReconvergence then
    "    // reconverge ".toList ++ labelFor i.reconvergencePc labels
  else []

/-- Some instruction branches to a PC. -/
def Targeted (is : List Instruction) (pc : Pc) : Prop :=
  ∃ i ∈ is, i.opcode = .bra ∧ i.branchTarget = pc

instance (is : List Instruction) (pc : Pc) : Decidable (Targeted is pc) :=
  inferInstanceAs (Decidable (∃ i ∈ is, i.opcode = .bra ∧ i.branchTarget = pc))

/-- A label map with a name for every branch target. -/
def withTargets (labels : Pc → Option Text) (is : List Instruction) (pc : Pc) : Option Text :=
  if Targeted is pc then some (labelFor pc labels) else labels pc

/-- The label line of a PC, if it has a label. -/
def labelLine (labels : Pc → Option Text) (pc : Nat) : List (Text × Line) :=
  match labels (BitVec.ofNat 16 pc) with
  | some name => [(name ++ [':'], .code (some name) none)]
  | none => []

variable (C : FloatChars)

def instructionLine (labels : Pc → Option Text) (params : List Text) (i : Instruction) :
    Text × Line :=
  ("    ".toList ++ (statementText C (i.statement labels params) ++ reconvergeComment labels i),
    .code none (some (i.statement labels params)))

/-- The lines of some instructions, the first of which is at a PC. -/
def bodyLines (labels : Pc → Option Text) (params : List Text) :
    Nat → List Instruction → List (Text × Line)
  | _, [] => []
  | pc, i :: is =>
    labelLine labels pc ++ instructionLine C labels params i :: bodyLines labels params (pc + 1) is

/-- The directives of a program and the empty line after them. -/
def headerLines (p : Program) : List (Text × Line) :=
  (".entry ".toList ++ p.entry, .entry p.entry)
    :: p.params.map (fun name => (".param ".toList ++ name, .param name))
    ++ [(".shared ".toList ++ decimalText p.sharedBytes.toNat, .shared p.sharedBytes),
      ([], .code none none)]

/-- The lines of a program with its decoded words. -/
def listing (p : Program) (is : List Instruction) : List (Text × Line) :=
  headerLines p ++ bodyLines C (withTargets p.labels is) p.params 0 is

/-- A program that can be printed: its words decode, its branches stay inside and its ordinals
are those of parameters. -/
structure Listable (p : Program) (is : List Instruction) : Prop where
  words : List.Forall₂ (fun w i => decode w = .ok i) p.words is
  targets : ∀ i ∈ is, i.opcode = .bra → i.branchTarget.toNat < is.length
  ordinals : ∀ i ∈ is, i.opcode = .ldParam → i.imm.toNat < p.params.length

end Listings

section Instructions

variable {C : FloatChars} {labels : Pc → Option Text} {params : List Text} {i : Instruction}

/-- What is known of a decoded instruction: the table has its opcode, and its fields fit. -/
structure Known (i : Instruction) : Prop where
  info : opcodeInfo i.opcode ∈ opcodeTable
  opcode : (opcodeInfo i.opcode).opcode = i.opcode
  valid : Valid (opcodeInfo i.opcode) i

theorem known_of_validate (h : validate i = .ok ()) : Known i := by
  obtain ⟨info, hinfo, hvalid⟩ := validate_ok.1 h
  have heq : opcodeInfo i.opcode = info := by rw [opcodeInfo, hinfo, Option.getD_some]
  rw [← heq] at hvalid
  exact ⟨heq ▸ List.mem_of_find?_eq_some hinfo, heq ▸ opcodeInfoOfNumber_opcode hinfo, hvalid⟩

theorem validate_of_decode {w : BitVec 64} (h : decode w = .ok i) : validate i = .ok () := by
  obtain ⟨-, -, -, hvalidate⟩ := decode_ok.1 h
  exact hvalidate

theorem shape_bra : ∀ info ∈ opcodeTable, info.shape = .bra ↔ info.opcode = .bra := by
  decide

theorem shape_ldp : ∀ info ∈ opcodeTable, info.shape = .ldp ↔ info.opcode = .ldParam := by
  decide

theorem Known.shape_bra (h : Known i) : (opcodeInfo i.opcode).shape = .bra ↔ i.opcode = .bra := by
  rw [WarpSim.shape_bra _ h.info, h.opcode]

theorem Known.shape_ldp (h : Known i) :
    (opcodeInfo i.opcode).shape = .ldp ↔ i.opcode = .ldParam := by
  rw [WarpSim.shape_ldp _ h.info, h.opcode]

/-- Only a branch has a place for a label. -/
theorem Known.opcode_of_target (h : Known i)
    (hsl : Slot.target ∈ (opcodeInfo i.opcode).shape.slots) : i.opcode = .bra := by
  refine h.shape_bra.1 ?_
  cases hs : (opcodeInfo i.opcode).shape <;> rw [hs] at hsl <;> revert hsl <;> decide

theorem Known.opcode_of_param (h : Known i)
    (hsl : Slot.param ∈ (opcodeInfo i.opcode).shape.slots) : i.opcode = .ldParam := by
  refine h.shape_ldp.1 ?_
  cases hs : (opcodeInfo i.opcode).shape <;> rw [hs] at hsl <;> revert hsl <;> decide

theorem Listable.length {p : Program} {is : List Instruction} (h : Listable p is) :
    p.words.length = is.length := h.words.length_eq

theorem Listable.known {p : Program} {is : List Instruction} (h : Listable p is) :
    ∀ i ∈ is, Known i := by
  intro i hi
  obtain ⟨w, -, hw⟩ := exists_of_forall₂_right h.words i hi
  exact known_of_validate (validate_of_decode hw)

/-- The words are those of the instructions. -/
theorem Listable.words_eq {p : Program} {is : List Instruction} (h : Listable p is) :
    p.words = is.map packWord := by
  rw [← List.forall₂_eq_eq_eq, List.forall₂_map_right_iff]
  exact h.words.imp fun w i hw => (encode_ok.1 (encode_decode hw)).2.symm

/-- A valid special register has a name. -/
theorem specialRegister_of_lt {n : BitVec 8} (h : n.toNat < 10) :
    ∃ info, specialRegisterInfoOfIndex n = some info ∧ info.reg.number = n := by
  have hall : ∀ k : Fin 10, ((specialRegisterInfoOfIndex (BitVec.ofNat 8 k)).map
      fun info => info.reg.number) = some (BitVec.ofNat 8 k) := by decide
  have hn := hall ⟨n.toNat, h⟩
  rw [BitVec.ofNat_toNat, BitVec.setWidth_eq] at hn
  exact Option.map_eq_some_iff.1 hn

theorem formatInstruction_eq (h : Known i)
    (hord : i.opcode = .ldParam → i.imm.toNat < params.length) :
    formatInstruction C i labels params
      = .ok (statementText C (i.statement labels params) ++ reconvergeComment labels i) := by
  have himm : ∀ op, op = i.opcode → immediate C { opcode := op, imm := i.imm } = immediate C i := by
    rintro _ rfl
    rfl
  have haddress : address { src0 := i.src0, imm := i.imm } = address i := rfl
  have hcomment : (opcodeInfo i.opcode).shape ≠ .bra → reconvergeComment labels i = [] := fun hs =>
    if_neg fun hc => hs (h.shape_bra.2 hc.1)
  unfold formatInstruction statementText Instruction.statement
  cases hs : (opcodeInfo i.opcode).shape
  case bra =>
    have hbra : reconvergeComment labels i = if i.reconvergencePc ≠ noReconvergence then
        "    // reconverge ".toList ++ labelFor i.reconvergencePc labels else [] := by
      unfold reconvergeComment
      simp only [h.shape_bra.1 hs, true_and]
    rw [hbra]
    simp only [hs, Shape.slots, List.map_cons, List.map_nil, operandsText, List.flatMap_nil,
      Slot.operand, operandText, List.append_nil, List.append_assoc, List.cons_append]
  case ldp =>
    have hlt := hord (h.shape_ldp.1 hs)
    have hget : params[i.imm.toNat]? = some (params.getD i.imm.toNat []) := by
      rw [List.getD_eq_getElem?_getD, List.getElem?_eq_getElem hlt, Option.getD_some]
    have hbracket : ", [".toList = ", ".toList ++ ['['] := rfl
    rw [hcomment (by rw [hs]; decide), hget]
    simp only [hs, Shape.slots, List.map_cons, List.map_nil, operandsText, List.flatMap_cons,
      List.flatMap_nil, Slot.operand, operandText, List.append_nil, List.append_assoc,
      List.cons_append, hbracket, List.nil_append]
  case sreg =>
    obtain ⟨info, hinfo, hnumber⟩ := specialRegister_of_lt (h.valid.sreg hs)
    rw [hcomment (by rw [hs]; decide)]
    simp only [hs, Shape.slots, List.map_cons, List.map_nil, operandsText, List.flatMap_cons,
      List.flatMap_nil, Slot.operand, operandText, List.append_nil, List.append_assoc,
      List.cons_append, hinfo, hnumber, Option.map_some, Option.getD_some, Option.elim_some]
  all_goals
    rw [hcomment (by rw [hs]; decide)]
    cases hf : i.immFlag <;> simp only [hs, Shape.slots, List.map_cons, List.map_nil, operandsText,
      List.flatMap_cons, List.flatMap_nil, Slot.operand, operandText, List.append_nil,
      List.append_assoc, List.cons_append, haddress, hf, himm _ h.opcode, if_true,
      Bool.false_eq_true, if_false]

end Instructions

section Words

variable {C : FloatChars} {labels : Pc → Option Text} {params : List Text}
  {words : List (BitVec 64)} {is : List Instruction}

theorem withTargets_nil (labels : Pc → Option Text) : withTargets labels [] = labels := by
  funext pc
  exact if_neg fun ⟨_, h, _⟩ => absurd h List.not_mem_nil

/-- The map after the target of one instruction got a name. -/
theorem withTargets_cons (labels : Pc → Option Text) (i : Instruction) (is : List Instruction) :
    withTargets labels (i :: is) = withTargets (if i.opcode = .bra then
      fun x => if x = i.branchTarget then some (labelFor x labels) else labels x
      else labels) is := by
  by_cases hop : i.opcode = .bra
  · have hname : ∀ pc, labelFor pc (fun x => if x = i.branchTarget then some (labelFor x labels)
        else labels x) = labelFor pc labels := by
      intro pc
      by_cases hpc : pc = i.branchTarget <;> simp [labelFor, hpc]
    have htargeted : ∀ pc, Targeted (i :: is) pc ↔ pc = i.branchTarget ∨ Targeted is pc := by
      intro pc
      simp [Targeted, hop, eq_comm]
    rw [if_pos hop]
    funext pc
    unfold withTargets
    simp only [htargeted, hname]
    by_cases hpc : pc = i.branchTarget <;> by_cases ht : Targeted is pc <;> simp [hpc, ht]
  · rw [if_neg hop]
    have htargeted : ∀ pc, Targeted (i :: is) pc ↔ Targeted is pc := by
      intro pc
      simp [Targeted, hop]
    funext pc
    unfold withTargets
    simp only [htargeted]

theorem addLabel_ok {w : BitVec 64} {i : Instruction} (h : decode w = .ok i) (pc : Nat) :
    addLabel labels pc w = .ok (if i.opcode = .bra then
      fun x => if x = i.branchTarget then some (labelFor x labels) else labels x else labels) := by
  unfold addLabel
  rw [h]
  simp only []
  split_ifs <;> rfl

/-- The first loop over the words names all targets. -/
theorem foldlM_addLabel (h : List.Forall₂ (fun w i => decode w = .ok i) words is) :
    ∀ (labels : Pc → Option Text) (n : Nat),
      (words.zipIdx n).foldlM (fun labels w => addLabel labels w.2 w.1) labels
        = .ok (withTargets labels is) := by
  induction h with
  | nil => exact fun labels _ => congrArg Except.ok (withTargets_nil labels).symm
  | cons hi _ ih =>
    intro labels n
    rw [List.zipIdx_cons, List.foldlM_cons, addLabel_ok hi, ok_bind, ih, withTargets_cons]

/-- The text of some lines. -/
def linesText (lines : List (Text × Line)) : Text := lines.flatMap fun x => x.1 ++ ['\n']

theorem linesText_append (a b : List (Text × Line)) :
    linesText (a ++ b) = linesText a ++ linesText b := List.flatMap_append

theorem formatWord_ok {w : BitVec 64} {i : Instruction} (h : decode w = .ok i)
    (hord : i.opcode = .ldParam → i.imm.toNat < params.length) (pc : Nat) :
    formatWord C labels params pc w
      = .ok (linesText (labelLine labels pc ++ [instructionLine C labels params i])) := by
  unfold formatWord
  rw [h]
  simp only [formatInstruction_eq (known_of_validate (validate_of_decode h)) hord]
  unfold labelLine instructionLine
  rcases labels (BitVec.ofNat 16 pc) with _ | name <;>
    simp only [linesText, List.flatMap_cons, List.flatMap_nil, List.append_nil, List.nil_append,
      List.append_assoc, List.cons_append]

/-- The second loop prints the lines of the words. -/
theorem mapM_formatWord (C : FloatChars) (labels : Pc → Option Text)
    (h : List.Forall₂ (fun w i => decode w = .ok i) words is)
    (hord : ∀ i ∈ is, i.opcode = .ldParam → i.imm.toNat < params.length) : ∀ n : Nat,
    ∃ texts, (words.zipIdx n).mapM (fun w => formatWord C labels params w.2 w.1) = .ok texts
      ∧ texts.flatten = linesText (bodyLines C labels params n is) := by
  induction h with
  | nil => exact fun _ => ⟨[], rfl, rfl⟩
  | @cons w i words is hi _ ih =>
    intro n
    obtain ⟨hword, hrest⟩ := List.forall_mem_cons.1 hord
    obtain ⟨texts, htexts, hflat⟩ := ih hrest (n + 1)
    refine ⟨linesText (labelLine labels n ++ [instructionLine C labels params i]) :: texts, ?_, ?_⟩
    · rw [List.zipIdx_cons, List.mapM_cons, formatWord_ok hi hword, ok_bind, htexts]
      rfl
    · rw [List.flatten_cons, hflat, bodyLines, ← linesText_append, List.append_assoc]
      rfl

/-- A program that can be printed is printed as its listing. -/
theorem disassemble_listing {p : Program} (h : Listable p is) :
    disassemble C p = .ok (linesText (listing C p is)) := by
  obtain ⟨texts, htexts, hflat⟩ := mapM_formatWord C (withTargets p.labels is) h.words h.ordinals 0
  have hheader : linesText (headerLines p) = ".entry ".toList ++ p.entry ++ ['\n']
      ++ p.params.flatMap (fun param => ".param ".toList ++ param ++ ['\n'])
      ++ ".shared ".toList ++ decimalText p.sharedBytes.toNat ++ ['\n', '\n'] := by
    simp only [linesText, headerLines, List.flatMap_append, List.flatMap_cons, List.flatMap_nil,
      List.flatMap_map, List.append_assoc, List.nil_append, List.append_nil, List.cons_append]
  unfold disassemble
  simp only [foldlM_addLabel h.words, ok_bind, htexts, hflat]
  rw [listing, linesText_append, hheader]

end Words

section Meaning

variable {C : FloatChars} {labels : Pc → Option Text} {params : List Text} {p : Program}

/-- The labels of some PCs, each with its PC. -/
def namesFrom (labels : Pc → Option Text) (n count : Nat) : List (Text × Nat) :=
  (List.range' n count).filterMap fun pc => (labels (BitVec.ofNat 16 pc)).map fun name => (name, pc)

theorem mem_namesFrom {n count : Nat} {name : Text} {pc : Nat} :
    (name, pc) ∈ namesFrom labels n count
      ↔ (n ≤ pc ∧ pc < n + count) ∧ labels (BitVec.ofNat 16 pc) = some name := by
  unfold namesFrom
  simp only [List.mem_filterMap, List.mem_range'_1, Option.map_eq_some_iff, Prod.mk.injEq]
  constructor
  · rintro ⟨_, hpc, _, hname, rfl, rfl⟩
    exact ⟨hpc, hname⟩
  · rintro ⟨hpc, hname⟩
    exact ⟨pc, hpc, name, hname, rfl, rfl⟩

/-- The label line of a PC in front of some lines. -/
theorem labelLine_cases (labels : Pc → Option Text) (pc : Nat) :
    (labels (BitVec.ofNat 16 pc) = none ∧ labelLine labels pc = [])
      ∨ ∃ name, labels (BitVec.ofNat 16 pc) = some name
        ∧ labelLine labels pc = [(name ++ [':'], .code (some name) none)] := by
  unfold labelLine
  rcases labels (BitVec.ofNat 16 pc) with _ | name
  · exact .inl ⟨rfl, rfl⟩
  · exact .inr ⟨name, rfl, rfl⟩

theorem statements_bodyLines : ∀ (is : List Instruction) (n : Nat),
    Source.statements ((bodyLines C labels params n is).map Prod.snd)
      = is.map (Instruction.statement labels params)
  | [], _ => rfl
  | i :: is, n => by
    have ih := statements_bodyLines is (n + 1)
    rw [Source.statements] at ih ⊢
    rcases labelLine_cases labels n with ⟨-, hline⟩ | ⟨name, -, hline⟩ <;>
      rw [bodyLines, hline, List.map_append, List.filterMap_append] <;>
      simp only [List.map_cons, List.map_nil, List.filterMap_cons, List.filterMap_nil,
        instructionLine, Line.statement?, ih, List.nil_append]

/-- The labels are defined at their PCs. -/
theorem definitionsFrom_bodyLines : ∀ (is : List Instruction) (n : Nat),
    Source.definitionsFrom n ((bodyLines C labels params n is).map Prod.snd)
      = namesFrom labels n is.length
  | [], _ => rfl
  | i :: is, n => by
    have ih := definitionsFrom_bodyLines is (n + 1)
    have hrange : List.range' n (is.length + 1) = n :: List.range' (n + 1) is.length := rfl
    rw [namesFrom, List.length_cons, hrange, List.filterMap_cons]
    rcases labelLine_cases labels n with ⟨hname, hline⟩ | ⟨name, hname, hline⟩ <;>
      rw [bodyLines, hline, hname] <;>
      simp only [List.map_cons, List.nil_append, List.cons_append, Source.definitionsFrom,
        Source.statements, List.filterMap_cons, List.filterMap_nil,
        instructionLine, Line.label?, Line.statement?, Option.map_some, Option.map_none,
        Option.toList_some, Option.toList_none, List.length_nil, List.length_cons, Nat.add_zero,
        Nat.zero_add, ih, namesFrom]

theorem headerLines_snd (p : Program) : (headerLines p).map Prod.snd
    = .entry p.entry :: (p.params.map Line.param ++ [.shared p.sharedBytes, .code none none]) := by
  simp [headerLines]

/-- A line of the header is a directive or empty. -/
theorem headerLines_mem {l : Line} (h : l ∈ (headerLines p).map Prod.snd) :
    l.statement? = none ∧ l.label? = none := by
  rw [headerLines_snd] at h
  rcases List.mem_cons.1 h with rfl | h
  · exact ⟨rfl, rfl⟩
  rcases List.mem_append.1 h with h | h
  · obtain ⟨name, -, rfl⟩ := List.mem_map.1 h
    exact ⟨rfl, rfl⟩
  · rcases List.mem_pair.1 h with rfl | rfl <;> exact ⟨rfl, rfl⟩

theorem statements_header (p : Program) : Source.statements ((headerLines p).map Prod.snd) = [] :=
  List.filterMap_eq_nil_iff.2 fun _ hl => (headerLines_mem hl).1

theorem labels_header (p : Program) : ((headerLines p).map Prod.snd).filterMap Line.label? = [] :=
  List.filterMap_eq_nil_iff.2 fun _ hl => (headerLines_mem hl).2

theorem params_header (p : Program) : Source.params ((headerLines p).map Prod.snd) = p.params := by
  have h : (p.params.map Line.param).filterMap Line.param? = p.params := by
    rw [List.filterMap_map]
    exact List.filterMap_some
  rw [headerLines_snd, Source.params, List.filterMap_cons, List.filterMap_append, h]
  exact List.append_nil _

theorem definitionsFrom_header (p : Program) (n : Nat) :
    Source.definitionsFrom n ((headerLines p).map Prod.snd) = [] := by
  have h : ∀ (ls : Source) (n : Nat), ls.filterMap Line.label? = [] →
      Source.definitionsFrom n ls = [] := by
    intro ls
    induction ls with
    | nil => exact fun _ _ => rfl
    | cons l ls ih =>
      intro n hls
      obtain ⟨hl, hls⟩ := List.forall_mem_cons.1 (List.filterMap_eq_nil_iff.1 hls)
      rw [Source.definitionsFrom, hl, ih _ (List.filterMap_eq_nil_iff.2 hls)]
      rfl
  exact h _ n (labels_header p)

variable {is : List Instruction}

theorem listing_snd : (listing C p is).map Prod.snd = (headerLines p).map Prod.snd
    ++ (bodyLines C (withTargets p.labels is) p.params 0 is).map Prod.snd := List.map_append

theorem statements_listing : Source.statements ((listing C p is).map Prod.snd)
    = is.map (Instruction.statement (withTargets p.labels is) p.params) := by
  rw [listing_snd, Source.statements_append, statements_header, statements_bodyLines,
    List.nil_append]

theorem definitions_listing : Source.definitions ((listing C p is).map Prod.snd)
    = namesFrom (withTargets p.labels is) 0 is.length := by
  rw [listing_snd, Source.definitions_append, Source.definitions, definitionsFrom_header,
    statements_header, List.length_nil, definitionsFrom_bodyLines, List.nil_append]

end Meaning

section Reading

variable {C : FloatChars} {labels : Pc → Option Text} {params : List Text} {i : Instruction}
  {p : Program} {is : List Instruction}

theorem takes_operand (labels : Pc → Option Text) (params : List Text) (i : Instruction)
    (sl : Slot) : sl.Takes (sl.operand labels params i) := by
  cases sl <;> unfold Slot.operand <;> first
    | trivial
    | (cases i.immFlag <;> trivial)

theorem printable_operand (h : Known i) (hlabel : IsIdentifier (labelFor i.branchTarget labels))
    (hparam : i.opcode = .ldParam → IsIdentifier (params.getD i.imm.toNat [])) {sl : Slot}
    (hsl : sl ∈ (opcodeInfo i.opcode).shape.slots) : (sl.operand labels params i).Printable := by
  have hdst : i.dst.toNat < 64 := h.valid.fit.dst
  have hsrc0 : i.src0.toNat < 64 := h.valid.fit.src0
  have hsrc1 : i.src1.toNat < 64 := h.valid.fit.src1
  have hpred : sl = .dstPred → i.dst.toNat < 8 := by
    rintro rfl
    refine h.valid.prr ?_
    cases hs : (opcodeInfo i.opcode).shape <;> rw [hs] at hsl <;> revert hsl <;> decide
  cases sl with
  | dst => exact hdst
  | src0 => exact hsrc0
  | src1 => exact hsrc1
  | src0OrImm =>
    unfold Slot.operand
    split_ifs
    · trivial
    · exact hsrc0
  | src1OrImm =>
    unfold Slot.operand
    split_ifs
    · trivial
    · exact hsrc1
  | dstPred => exact hpred rfl
  | special => trivial
  | target => exact hlabel
  | address => exact hsrc0
  | param => exact hparam (h.opcode_of_param hsl)

theorem printable_statement (h : Known i) (hlabel : IsIdentifier (labelFor i.branchTarget labels))
    (hparam : i.opcode = .ldParam → IsIdentifier (params.getD i.imm.toNat [])) :
    (i.statement labels params).Printable where
  guard := by
    rcases hp : i.guard.present with _ | _
    · obtain ⟨hnegate, hpred⟩ := h.valid.guard hp
      refine .inl ?_
      change i.guard = {}
      rcases hg : i.guard with ⟨present, negate, pred⟩
      rw [hg] at hp hnegate hpred
      simp only at hp hnegate hpred
      rw [hp, hnegate, hpred]
    · exact .inr ⟨hp, h.valid.fit.pred⟩
  info := h.info
  operands := by
    intro o ho
    obtain ⟨sl, hsl, rfl⟩ := List.mem_map.1 ho
    exact printable_operand h hlabel hparam hsl
  takes := by
    refine List.forall₂_map_right_iff.2 (List.forall₂_same.2 fun sl _ => ?_)
    exact takes_operand labels params i sl

theorem isIdentifier_synthesized (pc : Pc) : IsIdentifier ('L' :: decimalText pc.toNat) :=
  ⟨'L', _, rfl, by decide, fun _ h => isIdentChar_of_digit (isDigit_decimalText h)⟩

theorem isIdentifier_labelFor (h : ∀ pc name, labels pc = some name → IsIdentifier name) (pc : Pc) :
    IsIdentifier (labelFor pc labels) := by
  unfold labelFor
  rcases hl : labels pc with _ | name
  · exact isIdentifier_synthesized pc
  · exact h pc name hl

theorem isIdentifier_withTargets (h : ∀ pc name, labels pc = some name → IsIdentifier name)
    (is : List Instruction) (pc : Pc) (name : Text) (hname : withTargets labels is pc = some name) :
    IsIdentifier name := by
  unfold withTargets at hname
  split_ifs at hname with ht
  · rw [← Option.some.inj hname]
    exact isIdentifier_labelFor h pc
  · exact h pc name hname

theorem newline_notMem_identifier {name : Text} (h : IsIdentifier name) : '\n' ∉ name := by
  obtain ⟨c, cs, rfl, hc, hcs⟩ := h
  intro hmem
  rcases List.mem_cons.1 hmem with rfl | hmem
  · exact absurd hc (by decide)
  · exact absurd (hcs _ hmem) (by decide)

/-- A program whose names are identifiers. -/
structure Spelled (p : Program) : Prop where
  entry : IsIdentifier p.entry
  params : ∀ name ∈ p.params, IsIdentifier name
  labels : ∀ pc name, p.labels pc = some name → IsIdentifier name

theorem prints_bodyLines (hC : C.Lawful)
    (hlabels : ∀ pc name, labels pc = some name → IsIdentifier name)
    (hparams : ∀ name ∈ params, IsIdentifier name) : ∀ (is : List Instruction) (n : Nat),
    (∀ i ∈ is, Known i) → (∀ i ∈ is, i.opcode = .ldParam → i.imm.toNat < params.length) →
      ∀ x ∈ bodyLines C labels params n is, Prints C x.1 x.2
  | [], _, _, _ => List.forall_mem_nil _
  | i :: is, n, hknown, hord => by
    obtain ⟨hi, hknown⟩ := List.forall_mem_cons.1 hknown
    obtain ⟨hlt, hord⟩ := List.forall_mem_cons.1 hord
    have hstatement : Prints C (instructionLine C labels params i).1
        (instructionLine C labels params i).2 := by
      refine prints_statement hC (printable_statement hi (isIdentifier_labelFor hlabels _) ?_) ?_
      · intro hop
        have hlt := hlt hop
        rw [List.getD_eq_getElem?_getD, List.getElem?_eq_getElem hlt, Option.getD_some]
        exact hparams _ (List.getElem_mem hlt)
      · unfold reconvergeComment
        split_ifs
        · refine .inr ⟨" reconverge ".toList ++ labelFor i.reconvergencePc labels,
            fun hmem => ?_, rfl⟩
          rcases List.mem_append.1 hmem with hmem | hmem
          · revert hmem
            decide
          · exact newline_notMem_identifier (isIdentifier_labelFor hlabels _) hmem
        · exact .inl rfl
    intro x hx
    rw [bodyLines] at hx
    rcases List.mem_append.1 hx with hx | hx
    · rcases labelLine_cases labels n with ⟨-, hline⟩ | ⟨name, hname, hline⟩ <;> rw [hline] at hx
      · cases hx
      · rw [List.mem_singleton.1 hx]
        exact prints_label (hlabels _ _ hname)
    · rcases List.mem_cons.1 hx with rfl | hx
      · exact hstatement
      · exact prints_bodyLines hC hlabels hparams is (n + 1) hknown hord x hx

/-- The lines of a listing are read as what they say. -/
theorem prints_listing (hC : C.Lawful) (hlist : Listable p is) (h : Spelled p) :
    ∀ x ∈ listing C p is, Prints C x.1 x.2 := by
  intro x hx
  rcases List.mem_append.1 hx with hx | hx
  · rcases List.mem_append.1 hx with hx | hx
    · rcases List.mem_cons.1 hx with rfl | hx
      · exact prints_entry h.entry
      · obtain ⟨name, hname, rfl⟩ := List.mem_map.1 hx
        exact prints_param (h.params name hname)
    · rcases List.mem_pair.1 hx with rfl | rfl
      · exact prints_shared _
      · exact prints_blank
  · exact prints_bodyLines hC (isIdentifier_withTargets h.labels is) h.params is 0 hlist.known
      hlist.ordinals x hx

theorem listing_ne_nil (C : FloatChars) (p : Program) (is : List Instruction) :
    listing C p is ≠ [] := List.cons_ne_nil _ _

end Reading

end WarpSim
