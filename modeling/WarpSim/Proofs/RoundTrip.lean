import WarpSim.Proofs.Language
import WarpSim.Proofs.Names

/-!
# The round trip

The lines of a listing say what the program is, so the text of a program assembles to the same
words and names, and is the text of the result.
-/

namespace WarpSim

open Disassembler

section Statements

variable {labels : Pc → Option Text} {params : List Text} {target : Text → Pc} {i : Instruction}

/-- An instruction as the parser leaves it: a branch does not reconverge yet. -/
def cleared (i : Instruction) : Instruction :=
  if i.opcode = .bra then
    { i with imm := Instruction.makeBranchImm i.branchTarget noReconvergence }
  else i

theorem findIdx?_getD (hnodup : params.Nodup) {k : Nat} (hk : k < params.length) :
    params.findIdx? (· = params.getD k []) = some k := by
  rw [List.getD_eq_getElem?_getD, List.getElem?_eq_getElem hk, Option.getD_some,
    List.findIdx?_eq_some_iff_getElem]
  refine ⟨hk, decide_eq_true rfl, fun j hj => ?_⟩
  rw [Bool.not_eq_true, decide_eq_false_iff_not]
  exact fun heq => absurd ((List.Nodup.getElem_inj_iff hnodup).1 heq) (Nat.ne_of_lt hj)

/-- The statement of an instruction describes it. -/
theorem instruction_statement (h : Known i) (hnodup : params.Nodup)
    (hord : i.opcode = .ldParam → i.imm.toNat < params.length)
    (htarget : i.opcode = .bra → target (labelFor i.branchTarget labels) = i.branchTarget) :
    (i.statement labels params).instruction params target = some (cleared i) := by
  have hplain : (opcodeInfo i.opcode).shape ≠ .bra → cleared i = i := fun hs =>
    if_neg fun hop => hs (h.shape_bra.2 hop)
  have hvalid := h.valid
  obtain ⟨halways, hnever, hreplaced, hraw⟩ := validateImmediate_ok.1 hvalid.imm
  have hdst := hvalid.dst
  have hsrc0 := hvalid.src0
  have hsrc1 := hvalid.src1
  unfold Statement.instruction Instruction.statement
  cases hs : (opcodeInfo i.opcode).shape <;>
    rw [hs] at halways hnever hreplaced hraw hdst hsrc0 hsrc1
  case bra =>
    have hop := h.shape_bra.1 hs
    have htarget := htarget hop
    rw [cleared, if_pos hop]
    rcases i with ⟨op, g, d, s0, s1, f, im⟩
    simp only [h.opcode, Shape.slots, List.map_cons, List.map_nil, fillSlots, Slot.operand,
      Slot.fill, Option.bind_some, htarget]
    simp_all [fieldUse]
  case ldp =>
    have hidx := findIdx?_getD hnodup (hord (h.shape_ldp.1 hs))
    rw [hplain (by rw [hs]; decide)]
    rcases i with ⟨op, g, d, s0, s1, f, im⟩
    simp only [h.opcode, Shape.slots, List.map_cons, List.map_nil, fillSlots, Slot.operand,
      Slot.fill, Option.bind_some, hidx, Option.map_some]
    simp_all [fieldUse]
  case sreg =>
    obtain ⟨info, hinfo, hnumber⟩ := specialRegister_of_lt (hvalid.sreg hs)
    rw [hplain (by rw [hs]; decide)]
    rcases i with ⟨op, g, d, s0, s1, f, im⟩
    simp only [h.opcode, Shape.slots, List.map_cons, List.map_nil, fillSlots, Slot.operand,
      Slot.fill, Option.bind_some, hinfo, hnumber, Option.map_some, Option.getD_some]
    simp_all [fieldUse]
  all_goals
    rw [hplain (by rw [hs]; decide)]
    rcases i with ⟨op, g, d, s0, s1, f, im⟩
    cases f
    all_goals
      simp only [h.opcode, Shape.slots, List.map_cons, List.map_nil, fillSlots, Slot.operand,
        Slot.fill, Option.bind_some]
      simp_all [fieldUse]

end Statements

section Reconvergence

variable {is : List Instruction} {i : Instruction}

theorem cleared_bra (hop : i.opcode = .bra) : (cleared i).opcode = .bra
    ∧ (cleared i).branchTarget = i.branchTarget ∧ (cleared i).guard = i.guard := by
  rw [cleared, if_pos hop]
  exact ⟨hop, Instruction.branchTarget_makeBranchImm i _ _, rfl⟩

theorem flow_cleared (i : Instruction) : flow (cleared i) = flow i := by
  by_cases hop : i.opcode = .bra
  · obtain ⟨h1, h2, h3⟩ := cleared_bra hop
    rw [flow, flow, h1, h2, h3, hop]
  · rw [cleared, if_neg hop]

/-- What the pass writes does not depend on what a branch recorded before. -/
theorem annotated_cleared (cfg : Cfg) (pc : Nat) (i : Instruction) :
    annotated cfg pc (cleared i) = annotated cfg pc i := by
  by_cases hop : i.opcode = .bra
  · have ht := Instruction.branchTarget_makeBranchImm i i.branchTarget noReconvergence
    rw [cleared, if_pos hop, annotated, annotated, if_neg (not_not.2 hop),
      if_neg (not_not.2 hop), ht]
    rfl
  · rw [cleared, if_neg hop]

theorem annotateReconvergence_cleared (h : annotateReconvergence is = (.ok (), is)) :
    (annotateReconvergence (is.map cleared)).2 = is := by
  rcases hcfg : buildCfg is with e | cfg
  · rw [annotateReconvergence_error hcfg] at h
    cases h
  · rw [annotateReconvergence_ok hcfg] at h
    have hcfg' : buildCfg (is.map cleared) = .ok cfg := by
      refine (buildCfg_congr (List.length_map _) fun pc => ?_).trans hcfg
      rw [List.getElem?_map, Option.map_map]
      congr 1
      exact funext flow_cleared
    rw [annotateReconvergence_ok hcfg']
    refine Eq.trans (List.ext_getElem? fun pc => ?_) (Prod.mk.inj h).2
    rw [List.getElem?_mapIdx, List.getElem?_mapIdx, List.getElem?_map]
    rcases is[pc]? with _ | i
    · rfl
    · exact congrArg some (annotated_cleared cfg pc i)

/-- A recorded reconvergence point is a PC of the program. -/
theorem reconvergence_lt (h : annotateReconvergence is = (.ok (), is)) (hlen : is.length ≤ 65535)
    (hi : i ∈ is) (hop : i.opcode = .bra) (hne : i.reconvergencePc ≠ noReconvergence) :
    i.reconvergencePc.toNat < is.length := by
  rcases hcfg : buildCfg is with e | cfg
  · rw [annotateReconvergence_error hcfg] at h
    cases h
  rw [annotateReconvergence_ok hcfg] at h
  obtain ⟨pc, hpc⟩ := List.getElem?_of_mem hi
  have hsame : annotated cfg pc i = i := by
    have hget := congrArg (·[pc]?) (Prod.mk.inj h).2
    simp only [List.getElem?_mapIdx, hpc, Option.map_some] at hget
    exact Option.some.inj hget
  obtain ⟨-, -, hrec⟩ := annotated_bra hop cfg pc
  rw [hsame] at hrec
  rcases hg : i.guard.present with _ | _
  · rw [reconvergenceOf, hg] at hrec
    exact absurd hrec hne
  · obtain ⟨start, hin⟩ := exists_inBlock (List.getElem?_eq_some_iff.1 hpc).1
    obtain ⟨hno, hyes⟩ := reconvergenceOf_spec (buildCfg_built hcfg) hpc hop hg hin
    by_cases hr : Reaches (BlockSucc is) none (some start)
    · obtain ⟨d, -, hmatch⟩ := hyes hr
      rcases d with _ | r
      · exact absurd (hrec.trans hmatch) hne
      · obtain ⟨hleader, hhalf⟩ := hmatch
        have hlt := hleader.1
        rw [hrec, hhalf, BitVec.toNat_ofNat, Nat.mod_eq_of_lt (by omega)]
        exact hlt
    · exact absurd (hrec.trans (hno hr)) hne

end Reconvergence

section Relisting

variable {C : FloatChars} {labels labels' : Pc → Option Text} {params : List Text}
  {is : List Instruction}

/-- A line of an instruction depends on the names of the PCs in it. -/
theorem instructionLine_congr {i : Instruction} (h : Known i) (htarget : i.opcode = .bra →
      labelFor i.branchTarget labels = labelFor i.branchTarget labels')
    (hcomment : i.opcode = .bra → i.reconvergencePc ≠ noReconvergence →
      labelFor i.reconvergencePc labels = labelFor i.reconvergencePc labels') :
    instructionLine C labels params i = instructionLine C labels' params i := by
  have hstatement : i.statement labels params = i.statement labels' params := by
    unfold Instruction.statement
    congr 1
    refine List.map_congr_left fun sl hsl => ?_
    cases sl with
    | target =>
      unfold Slot.operand
      rw [htarget (h.opcode_of_target hsl)]
    | _ => rfl
  unfold instructionLine reconvergeComment
  rw [hstatement]
  congr 3
  split_ifs with hc
  · rw [hcomment hc.1 hc.2]
  · rfl

theorem bodyLines_congr : ∀ (is : List Instruction) (n : Nat),
    (∀ k, n ≤ k → k < n + is.length → labels (BitVec.ofNat 16 k) = labels' (BitVec.ofNat 16 k)) →
      (∀ i ∈ is, instructionLine C labels params i = instructionLine C labels' params i) →
        bodyLines C labels params n is = bodyLines C labels' params n is
  | [], _, _, _ => rfl
  | i :: is, n, hlabels, hlines => by
    obtain ⟨hline, hlines⟩ := List.forall_mem_cons.1 hlines
    rw [List.length_cons] at hlabels
    rw [bodyLines, bodyLines, hline, bodyLines_congr is (n + 1)
      (fun k hk hlt => hlabels k (by omega) (by omega)) hlines, labelLine, labelLine,
      hlabels n (Nat.le_refl n) (by omega)]

end Relisting

section Sources

variable {C : FloatChars} {p : Program} {is : List Instruction}

/-- A program whose listing says all of it: the reconvergence points are those that the assembler
computes, and no two PCs have the same name. -/
structure Relistable (p : Program) (is : List Instruction) : Prop where
  listable : Listable p is
  spelled : Spelled p
  params : p.params.Nodup
  small : is.length ≤ 65535
  annotated : annotateReconvergence is = (.ok (), is)
  names : ∀ pc pc' name, pc.toNat < is.length → pc'.toNat < is.length →
    withTargets p.labels is pc = some name → withTargets p.labels is pc' = some name → pc = pc'

/-- The program with the names of its listing. -/
def relisted (p : Program) (is : List Instruction) : Program :=
  { p with labels := fun pc => if pc.toNat < is.length then withTargets p.labels is pc else none }

/-- The lines of the listing, as they are read. -/
def source (C : FloatChars) (p : Program) (is : List Instruction) : Source :=
  (listing C p is).map Prod.snd

theorem bodyLines_mem {labels : Pc → Option Text} {params : List Text} (is : List Instruction)
    (n : Nat) : ∀ l ∈ (bodyLines C labels params n is).map Prod.snd,
      ∃ label st, l = .code label st := by
  induction is generalizing n with
  | nil => exact List.forall_mem_nil _
  | cons i is ih =>
    rw [bodyLines, List.map_append, List.map_cons, List.forall_mem_append, List.forall_mem_cons]
    refine ⟨?_, ⟨none, some (i.statement labels params), rfl⟩, ih (n + 1)⟩
    rcases labelLine_cases labels n with ⟨-, hline⟩ | ⟨name, -, hline⟩ <;> rw [hline]
    · exact List.forall_mem_nil _
    · exact List.forall_mem_singleton.2 ⟨some name, none, rfl⟩

theorem params_source : Source.params (source C p is) = p.params := by
  have hbody : Source.params ((bodyLines C (withTargets p.labels is) p.params 0 is).map Prod.snd)
      = [] := by
    refine List.filterMap_eq_nil_iff.2 fun l hl => ?_
    obtain ⟨label, st, rfl⟩ := bodyLines_mem _ _ _ hl
    rfl
  rw [source, listing_snd, Source.params_append, params_header, hbody, List.append_nil]

theorem foldl_keeps {α β : Type} {f : β → α → β} : ∀ {as : List α}, (∀ a ∈ as, ∀ b, f b a = b) →
    ∀ b, as.foldl f b = b
  | [], _, _ => rfl
  | a :: as, h, b => by
    obtain ⟨ha, has⟩ := List.forall_mem_cons.1 h
    rw [List.foldl_cons, ha, foldl_keeps has]

/-- The lines after the first. -/
def rest (C : FloatChars) (p : Program) (is : List Instruction) : Source :=
  p.params.map Line.param ++ [.shared p.sharedBytes, .code none none]
    ++ (bodyLines C (withTargets p.labels is) p.params 0 is).map Prod.snd

theorem source_cons : source C p is = .entry p.entry :: rest C p is := by
  rw [source, listing_snd, headerLines_snd]
  rfl

theorem rest_ne_entry {l : Line} (hl : l ∈ rest C p is) (other : Text) : l ≠ .entry other := by
  rintro rfl
  rcases List.mem_append.1 hl with hl | hl
  · rcases List.mem_append.1 hl with hl | hl
    · obtain ⟨name, -, h⟩ := List.mem_map.1 hl
      cases h
    · rcases List.mem_pair.1 hl with h | h <;> cases h
  · obtain ⟨label, st, h⟩ := bodyLines_mem _ _ _ hl
    cases h

theorem entry_source : Source.entry (source C p is) = p.entry := by
  rw [source_cons, Source.entry, List.foldl_cons]
  refine foldl_keeps (fun l hl name => ?_) _
  cases l with
  | entry other => exact absurd rfl (rest_ne_entry hl other)
  | _ => rfl

theorem sharedBytes_source : Source.sharedBytes (source C p is) = p.sharedBytes := by
  rw [source_cons, rest, Source.sharedBytes, List.foldl_cons, List.foldl_append, List.foldl_append,
    List.foldl_cons, List.foldl_cons, List.foldl_nil]
  refine foldl_keeps (fun l hl bytes => ?_) _
  obtain ⟨label, st, rfl⟩ := bodyLines_mem _ _ _ hl
  rfl

variable (h : Relistable p is)

include h

/-- A name in the listing labels one PC. -/
theorem labels_source : ((source C p is).filterMap Line.label?).Nodup := by
  refine labels_listing.2 fun name k k' hk hk' => ?_
  obtain ⟨hk, hname⟩ := mem_definitions_listing.1 hk
  obtain ⟨hk', hname'⟩ := mem_definitions_listing.1 hk'
  have hsmall := h.small
  have htoNat : ∀ {j : Nat}, j < is.length → (BitVec.ofNat 16 j).toNat = j := by
    intro j hj
    rw [BitVec.toNat_ofNat, Nat.mod_eq_of_lt (by omega)]
  have heq := h.names _ _ name (by rwa [htoNat hk]) (by rwa [htoNat hk']) hname hname'
  rw [← htoNat hk, ← htoNat hk', heq]

/-- The labels of the listing are those of the program inside it. -/
theorem labelAt_source : (source C p is).labelAt = (relisted p is).labels := by
  funext pc
  have hsmall := h.small
  rw [Source.labelAt, source, relisted]
  simp only []
  generalize hfind : List.find? _ _ = found
  rcases found with _ | ⟨name, k⟩
  · split_ifs with hpc
    · rcases hname : withTargets p.labels is pc with _ | name
      · rfl
      · have hmem := mem_definitions_listing (C := C).2 ⟨hpc, by
          rwa [BitVec.ofNat_toNat, BitVec.setWidth_eq]⟩
        exact absurd (List.find?_eq_none.1 hfind _ hmem) (by simp)
    · rfl
  · have hpc : BitVec.ofNat 16 k = pc := by simpa using List.find?_some hfind
    obtain ⟨hk, hname⟩ := mem_definitions_listing.1 (List.mem_of_find?_eq_some hfind)
    have htoNat : pc.toNat = k := by
      rw [← hpc, BitVec.toNat_ofNat, Nat.mod_eq_of_lt (by omega)]
    rw [htoNat, if_pos hk, ← hpc, hname]
    rfl

omit h in
theorem statements_source : Source.statements (source C p is)
    = is.map (Instruction.statement (withTargets p.labels is) p.params) := statements_listing

/-- The name of a branch target, which every target has. -/
theorem target_named {i : Instruction} (hi : i ∈ is) (hop : i.opcode = .bra) :
    (labelFor i.branchTarget (withTargets p.labels is), i.branchTarget.toNat)
      ∈ Source.definitions (source C p is) := by
  refine mem_definitions_listing.2 ⟨h.listable.targets i hi hop, ?_⟩
  have ht : Targeted is i.branchTarget := ⟨i, hi, hop, rfl⟩
  rw [BitVec.ofNat_toNat, BitVec.setWidth_eq, labelFor, withTargets, if_pos ht]

/-- The line that defines the name of a branch target. -/
theorem target_line {i : Instruction} (hi : i ∈ is) (hop : i.opcode = .bra) :
    ∃ (before : Source) (l : Line) (after : Source), source C p is = before ++ l :: after
      ∧ l.label? = some (labelFor i.branchTarget (withTargets p.labels is))
      ∧ i.branchTarget.toNat = before.statements.length := by
  obtain ⟨before, l, after, hls, hl, hn⟩ :=
    Source.mem_definitionsFrom (target_named (C := C) h hi hop)
  exact ⟨before, l, after, hls, hl, by rw [hn, Nat.zero_add]⟩

theorem target_source {i : Instruction} (hi : i ∈ is) (hop : i.opcode = .bra) :
    (source C p is).target (labelFor i.branchTarget (withTargets p.labels is))
      = i.branchTarget := by
  obtain ⟨before, l, after, hls, hl, hn⟩ := target_line (C := C) h hi hop
  have hnodup := labels_source (C := C) h
  rw [hls] at hnodup
  rw [Source.target, hls, Source.lookup_label hnodup hl, Option.getD_some, ← hn,
    BitVec.ofNat_toNat, BitVec.setWidth_eq]

theorem printable_source : ∀ st ∈ (source C p is).statements, st.Printable := by
  intro st hst
  rw [statements_source] at hst
  obtain ⟨i, hi, rfl⟩ := List.mem_map.1 hst
  refine printable_statement (h.listable.known i hi)
    (isIdentifier_labelFor (isIdentifier_withTargets h.spelled.labels is) _) fun hop => ?_
  have hlt := h.listable.ordinals i hi hop
  rw [List.getD_eq_getElem?_getD, List.getElem?_eq_getElem hlt, Option.getD_some]
  exact h.spelled.params _ (List.getElem_mem hlt)

omit h in
/-- What is printed exists. -/
theorem exists_of_printable {o : Operand} (ho : o.Printable) : o.Exists := by
  cases o with
  | register | predicate | address => exact ho
  | _ => trivial

theorem parameter_mem {st : Statement} (hst : st ∈ (source C p is).statements) {name : Text}
    (hname : .parameter name ∈ st.operands) : name ∈ p.params := by
  rw [statements_source] at hst
  obtain ⟨i, hi, rfl⟩ := List.mem_map.1 hst
  obtain ⟨sl, hsl, ho⟩ := List.mem_map.1 hname
  cases sl with
  | param =>
    have hlt := h.listable.ordinals i hi ((h.listable.known i hi).opcode_of_param hsl)
    cases ho
    rw [List.getD_eq_getElem?_getD, List.getElem?_eq_getElem hlt, Option.getD_some]
    exact List.getElem_mem hlt
  | src0OrImm | src1OrImm =>
    unfold Slot.operand at ho
    split_ifs at ho
  | _ => cases ho

omit h in
/-- Statements come after the header. -/
theorem params_before {before after : Source} {l : Line}
    (hls : source C p is = before ++ l :: after) {st : Statement} (hst : st ∈ l.statement?) :
    before.params = p.params := by
  have hbody : (source C p is).params = p.params := params_source
  rw [source, listing_snd] at hls
  rw [source, listing_snd, Source.params_append, params_header] at hbody
  have hbody := List.append_right_eq_self.1 hbody
  rcases List.append_eq_append_iff.1 hls with ⟨mid, rfl, hmid⟩ | ⟨mid, hmid, hrest⟩
  · rw [hmid, Source.params_append] at hbody
    rw [Source.params_append, params_header, (List.append_eq_nil_iff.1 hbody).1, List.append_nil]
  · rcases mid with _ | ⟨l', mid⟩
    · rw [← params_header, hmid, List.append_nil]
    · obtain ⟨rfl, -⟩ := List.cons.inj hrest
      have hmem : l ∈ (headerLines p).map Prod.snd := by
        rw [hmid]
        exact List.mem_append_right _ List.mem_cons_self
      rw [(headerLines_mem hmem).1] at hst
      cases hst

theorem legal_source : (source C p is).Legal where
  entry := ⟨[], p.entry, rest C p is, source_cons, rfl, fun l hl => rest_ne_entry hl⟩
  params := params_source ▸ h.params
  labels := labels_source h
  declared := by
    intro before l after hls st hst name hname
    have hmem : st ∈ (source C p is).statements := by
      rw [hls, Source.statements_append]
      exact List.mem_append_right _ (List.mem_filterMap.2 ⟨l, List.mem_cons_self, hst⟩)
    rw [params_before hls hst]
    exact parameter_mem h hmem hname
  resolved := by
    intro st hst name hname
    rw [statements_source] at hst
    obtain ⟨i, hi, rfl⟩ := List.mem_map.1 hst
    obtain ⟨hop, rfl⟩ := mem_names_statement (h.listable.known i hi) hname
    obtain ⟨before, l, after, hls, hl, hn⟩ := target_line (C := C) h hi hop
    refine ⟨before, l, after, hls, hl, fun hnil => ?_⟩
    have hlen : (source C p is).statements.length = _ := congrArg List.length statements_source
    have hlt := h.listable.targets i hi hop
    rw [hls, Source.statements_append, hnil, List.append_nil, List.length_map] at hlen
    omega
  small := by
    rw [statements_source, List.length_map]
    exact h.small

theorem accepted_source : (source C p is).Accepted := by
  refine Source.accepted_of_legal (fun name hname => ?_) (fun st hst => ?_) (legal_source h)
  · rw [source_cons] at hname
    rcases List.mem_cons.1 hname with heq | hname
    · obtain ⟨c, cs, hentry, -⟩ := h.spelled.entry
      cases heq
      exact hentry ▸ List.cons_ne_nil _ _
    · exact absurd rfl (rest_ne_entry hname name)
  · have hprint := printable_source h st hst
    exact ⟨hprint.info, hprint.guard, hprint.takes,
      fun o ho => exists_of_printable (hprint.operands o ho)⟩

/-- The lines describe the program. -/
theorem assembles_source : (source C p is).Assembles (relisted p is) where
  entry := (show (source C p is).entry = p.entry from entry_source).symm
  params := (show (source C p is).params = p.params from params_source).symm
  sharedBytes := (show (source C p is).sharedBytes = p.sharedBytes from sharedBytes_source).symm
  labels := (labelAt_source h).symm
  words := by
    refine ⟨is.map cleared, ?_, ?_⟩
    · rw [Source.Instructions, statements_source, params_source, List.forall₂_map_left_iff,
        List.forall₂_map_right_iff, List.forall₂_same]
      intro i hi
      exact instruction_statement (h.listable.known i hi) h.params (h.listable.ordinals i hi)
        fun hop => target_source h hi hop
    · rw [annotateReconvergence_cleared h.annotated]
      exact h.listable.words_eq

/-- The text of a program assembles to the program with the names of its listing. -/
theorem assemble_listing (hC : C.Lawful) :
    assemble C (linesText (listing C p is)) = .ok (relisted p is) :=
  assemble_lines (prints_listing hC h.listable h.spelled) (listing_ne_nil C p is)
    (accepted_source h) (assembles_source h)

omit h in
theorem withTargets_relisted {pc : Pc} (hpc : pc.toNat < is.length) :
    withTargets (relisted p is).labels is pc = withTargets p.labels is pc := by
  have hlabel : (relisted p is).labels pc = withTargets p.labels is pc := if_pos hpc
  by_cases ht : Targeted is pc
  · have hname : withTargets p.labels is pc = some (labelFor pc p.labels) := if_pos ht
    rw [withTargets, if_pos ht, labelFor, hlabel, hname]
  · rw [withTargets, if_neg ht, hlabel]

/-- The listing of the result is the same. -/
theorem listing_relisted : listing C (relisted p is) is = listing C p is := by
  have hlabel : ∀ {pc : Pc}, pc.toNat < is.length →
      labelFor pc (withTargets (relisted p is).labels is)
        = labelFor pc (withTargets p.labels is) := by
    intro pc hpc
    rw [labelFor, labelFor, withTargets_relisted hpc]
  have hbody : bodyLines C (withTargets (relisted p is).labels is) p.params 0 is
      = bodyLines C (withTargets p.labels is) p.params 0 is := by
    refine bodyLines_congr is 0 (fun k _ hk => withTargets_relisted ?_) fun i hi => ?_
    · rw [BitVec.toNat_ofNat]
      exact (Nat.mod_le _ _).trans_lt (by omega)
    · exact instructionLine_congr (h.listable.known i hi)
        (fun hop => hlabel (h.listable.targets i hi hop))
        fun hop hne => hlabel (reconvergence_lt h.annotated h.small hi hop hne)
  rw [listing, listing]
  exact congrArg (headerLines p ++ ·) hbody

end Sources

section Main

variable {C : FloatChars} {p : Program} {is : List Instruction}

/-- The text of a program assembles to a program with the same words and directives, which has the
same text. -/
def RoundTrips (C : FloatChars) (p : Program) : Prop :=
  ∃ text q, disassemble C p = .ok text ∧ assemble C text = .ok q ∧ q.words = p.words
    ∧ q.entry = p.entry ∧ q.params = p.params ∧ q.sharedBytes = p.sharedBytes
    ∧ disassemble C q = .ok text

theorem Relistable.roundTrips (h : Relistable p is) (hC : C.Lawful) : RoundTrips C p := by
  have hlist : Listable (relisted p is) is := ⟨h.listable.words, h.listable.targets,
    h.listable.ordinals⟩
  refine ⟨_, relisted p is, disassemble_listing h.listable, assemble_listing h hC, rfl,
    rfl, rfl, rfl, ?_⟩
  rw [disassemble_listing hlist, listing_relisted h]

/-- A program without labels: its names are identifiers, and its branches record what the assembler
computes. -/
structure Unlabelled (p : Program) (is : List Instruction) : Prop where
  labels : ∀ pc, p.labels pc = none
  entry : IsIdentifier p.entry
  identifiers : ∀ name ∈ p.params, IsIdentifier name
  params : p.params.Nodup
  small : p.words.length ≤ 65535
  listable : Listable p is
  annotated : (annotateReconvergence is).2 = is

theorem annotated_of_targets (h : ∀ i ∈ is, i.opcode = .bra → i.branchTarget.toNat < is.length)
    (his : (annotateReconvergence is).2 = is) : annotateReconvergence is = (.ok (), is) := by
  rcases hcfg : buildCfg is with e | cfg
  · obtain ⟨i, hi, hop, hle⟩ := (buildCfg_error is).1 ⟨e, hcfg⟩
    exact absurd (h i hi hop) (Nat.not_lt.2 hle)
  · rw [annotateReconvergence_ok hcfg] at his ⊢
    exact congrArg _ his

theorem Unlabelled.relistable (h : Unlabelled p is) : Relistable p is where
  listable := h.listable
  spelled := ⟨h.entry, h.identifiers, fun pc name hname => by rw [h.labels] at hname; cases hname⟩
  params := h.params
  small := h.listable.length ▸ h.small
  annotated := annotated_of_targets h.listable.targets h.annotated
  names := fun pc pc' name _ _ hname hname' => by
    obtain hlabel | ⟨-, -, hname⟩ := withTargets_eq_some.1 hname
    · rw [h.labels] at hlabel
      cases hlabel
    obtain hlabel | ⟨-, -, hname'⟩ := withTargets_eq_some.1 hname'
    · rw [h.labels] at hlabel
      cases hlabel
    exact synthesized_injective (hname.trans hname'.symm)

section Assembled

variable {ts : List Token} {ls : Source}

theorem isIdentifier_of_token {text : Text} (hlex : lex text = .ok ts) {t : Token} (ht : t ∈ ts)
    (hk : t.kind = .identifier) : IsIdentifier t.text := by
  have hform := lex_admits hlex t ht
  rwa [hk] at hform

/-- The names that a line introduces. -/
def Line.introduces : Line → List Text
  | .entry name => [name]
  | .param name => [name]
  | .shared _ => []
  | .code label _ => label.toList

theorem isIdentifier_of_introduces {text : Text} (hlex : lex text = .ok ts)
    (h : SpellsLines C ts ls) {l : Line} (hl : l ∈ ls) :
    ∀ name ∈ l.introduces, IsIdentifier name := by
  obtain ⟨us, hus, hmem⟩ := h.spells l hl
  intro name hname
  cases hus with
  | entry hd hn ht | param hd hn ht =>
    rw [List.mem_singleton.1 hname]
    exact isIdentifier_of_token hlex (hmem _ (by simp)) ht
  | label ht hc | labelled ht hc hst =>
    rw [List.mem_singleton.1 hname]
    exact isIdentifier_of_token hlex (hmem _ (by simp)) ht
  | _ => cases hname

theorem entry_mem (h : ls.entry ≠ []) : .entry ls.entry ∈ ls := by
  induction ls using List.reverseRecOn with
  | nil => exact absurd rfl h
  | append_singleton ls l ih =>
    rw [Source.entry_snoc] at h ⊢
    cases l with
    | entry name => simp
    | _ => exact List.mem_append_left _ (ih h)

theorem spelled_of_assembles {text : Text} (hlex : lex text = .ok ts) (h : SpellsLines C ts ls)
    (haccept : ls.Accepted) (hp : ls.Assembles p) : Spelled p where
  entry := by
    rw [hp.entry]
    exact isIdentifier_of_introduces hlex h (entry_mem haccept.named) _ (List.mem_singleton_self _)
  params := by
    intro name hname
    rw [hp.params] at hname
    obtain ⟨l, hl, hparam⟩ := List.mem_filterMap.1 hname
    refine isIdentifier_of_introduces hlex h hl name ?_
    cases l with
    | param => exact List.mem_singleton.2 (Option.some.inj hparam).symm
    | _ => cases hparam
  labels := by
    intro pc name hname
    rw [hp.labels] at hname
    obtain ⟨⟨name', n⟩, hfind, rfl⟩ := Option.map_eq_some_iff.1 hname
    obtain ⟨before, l, after, rfl, hlabel, -⟩ :=
      Source.mem_definitionsFrom (List.mem_of_find?_eq_some hfind)
    refine isIdentifier_of_introduces hlex h (List.mem_append_right _ List.mem_cons_self) name' ?_
    cases l with
    | code label st => exact Option.mem_toList.2 hlabel
    | _ => cases hlabel

/-- A name at a PC is a definition there. -/
theorem mem_of_labelAt (hlen : ls.statements.length ≤ 65535) {pc : Pc} {name : Text}
    (h : ls.labelAt pc = some name) : (name, pc.toNat) ∈ ls.definitions := by
  obtain ⟨⟨name', n⟩, hfind, rfl⟩ := Option.map_eq_some_iff.1 h
  have hmem := List.mem_of_find?_eq_some hfind
  have hpc : BitVec.ofNat 16 n = pc := by simpa using List.find?_some hfind
  have hle : n ≤ ls.statements.length := by simpa using definitionsFrom_le hmem
  rwa [← hpc, BitVec.toNat_ofNat, Nat.mod_eq_of_lt (by omega)]

theorem labelAt_ne_none {name : Text} {n : Nat} (h : (name, n) ∈ ls.definitions) :
    ls.labelAt (BitVec.ofNat 16 n) ≠ none := by
  intro hnone
  have hfind := Option.map_eq_none_iff.1 hnone
  exact absurd (List.find?_eq_none.1 hfind _ h) (by simp)

theorem definitions_injective (h : ls.WellFormed) {name : Text} {n n' : Nat}
    (hn : (name, n) ∈ ls.definitions) (hn' : (name, n') ∈ ls.definitions) : n = n' := by
  have hnodup := h.labels_nodup
  rw [← Source.definitionsFrom_fst ls 0] at hnodup
  exact (Prod.mk.inj (List.inj_on_of_nodup_map hnodup hn hn' rfl)).2

/-- An accepted source is annotated. -/
theorem exists_cfg {is₀ : List Instruction} (haccept : ls.Accepted)
    (hinfo : ∀ st ∈ ls.statements, st.info ∈ opcodeTable) (his : ls.Instructions is₀) :
    ∃ cfg, buildCfg is₀ = .ok cfg := by
  have hdef : ls.Defined := fun st hst name hname => by
    obtain ⟨n, hn, -⟩ := haccept.resolved st hst name hname
    rw [hn]
    exact Option.some_ne_none n
  rcases hcfg : buildCfg is₀ with e | cfg
  · exact absurd haccept.resolved ((targets_outside haccept.small hinfo his hdef).1 ⟨e, hcfg⟩)
  · exact ⟨cfg, rfl⟩

theorem targets_of_annotated (h : annotateReconvergence is = (.ok (), is)) :
    ∀ i ∈ is, i.opcode = .bra → i.branchTarget.toNat < is.length := by
  intro i hi hop
  by_contra hlt
  obtain ⟨e, he⟩ := (buildCfg_error is).2 ⟨i, hi, hop, Nat.not_lt.1 hlt⟩
  rw [annotateReconvergence_error he] at h
  cases h

/-- The ordinal of a load is that of a declared parameter. -/
theorem ordinal_lt {st : Statement} {i : Instruction} (hinfo : st.info ∈ opcodeTable)
    (hi : st.instruction ls.params ls.target = some i) (hop : i.opcode = .ldParam) :
    i.imm.toNat < ls.params.length := by
  have hshape : st.info.shape = .ldp :=
    (shape_ldp _ hinfo).2 ((fillSlots_keeps hi).1.symm.trans hop)
  have hholds := holds_of_fillSlots hi
  rw [hshape] at hholds
  generalize st.operands = os at hholds
  obtain _ | ⟨-, _ | ⟨h2, ⟨⟩⟩⟩ := hholds
  rename_i a b
  cases b <;> first | exact h2.elim | skip
  obtain ⟨k, hk, himm⟩ := h2
  obtain ⟨hlt, -⟩ := List.findIdx?_eq_some_iff_getElem.1 hk
  rw [himm, BitVec.toNat_ofNat]
  exact (Nat.mod_le _ _).trans_lt hlt

/-- The target of a branch has a name. -/
theorem labelAt_target {st : Statement} {i : Instruction} (haccept : ls.Accepted)
    (hst : st ∈ ls.statements) (hinfo : st.info ∈ opcodeTable)
    (hi : st.instruction ls.params ls.target = some i) (hop : i.opcode = .bra) :
    ls.labelAt i.branchTarget ≠ none := by
  cases Statement.branches hinfo hi with
  | plain hno => exact absurd hop hno
  | @branch name line column _ hos htarget =>
    obtain ⟨n, hn, -⟩ :=
      haccept.resolved st hst name (by simp [Statement.names, hos, Operand.target?])
    have hbranch : i.branchTarget = BitVec.ofNat 16 n := by
      have hsame := htarget ls.target
      rw [hi] at hsame
      rw [Option.some.inj hsame, Instruction.branchTarget_makeBranchImm, Source.target, hn,
        Option.getD_some]
    rw [hbranch]
    exact labelAt_ne_none (Source.mem_of_lookup hn)

/-- An assembled program is listed with all that it says. -/
theorem relistable_of_assembles {text : Text} (hlex : lex text = .ok ts) (h : SpellsLines C ts ls)
    (haccept : ls.Accepted) (hp : ls.Assembles p) : ∃ is, Relistable p is := by
  obtain ⟨is₀, his, hwords⟩ := hp.words
  obtain ⟨cfg, hcfg⟩ := exists_cfg haccept h.info his
  have hannotated := annotateReconvergence_idem is₀
  rw [annotateReconvergence_ok hcfg] at hwords hannotated
  simp only [] at hwords hannotated
  have hlength : (is₀.mapIdx (annotated cfg)).length = ls.statements.length := by
    rw [List.length_mapIdx, his.length_eq]
  -- an instruction comes from a statement, up to the reconvergence point of a branch
  have hfrom : ∀ i ∈ is₀.mapIdx (annotated cfg), ∃ (st : Statement) (i₀ : Instruction),
      st ∈ ls.statements ∧ st.instruction ls.params ls.target = some i₀ ∧ validate i = .ok ()
        ∧ i.opcode = i₀.opcode ∧ i.branchTarget = i₀.branchTarget
        ∧ (i₀.opcode ≠ .bra → i = i₀) := by
    intro i hi
    obtain ⟨k, hk, rfl⟩ := List.mem_mapIdx.1 hi
    obtain ⟨st, hst, hi₀⟩ := exists_of_forall₂_right his _ (List.getElem_mem hk)
    obtain ⟨i', hi', hvalid⟩ := haccept.follows.exists_instruction h.info hst
    obtain rfl := Option.some.inj (hi₀.symm.trans hi')
    refine ⟨st, is₀[k], hst, hi₀, validate_annotated hvalid cfg k, ?_⟩
    by_cases hop : is₀[k].opcode = .bra
    · obtain ⟨heq, htarget, -⟩ := annotated_bra hop cfg k
      exact ⟨by rw [heq], htarget, fun hno => absurd hop hno⟩
    · rw [annotated, if_pos hop]
      exact ⟨rfl, rfl, fun _ => rfl⟩
  have hnamed : ∀ {pc name}, withTargets p.labels (is₀.mapIdx (annotated cfg)) pc = some name →
      (name, pc.toNat) ∈ ls.definitions := by
    intro pc name hname
    refine mem_of_labelAt haccept.small ?_
    rw [← hp.labels]
    rcases withTargets_eq_some.1 hname with hlabel | ⟨hnone, ⟨i, hi, hop, rfl⟩, -⟩
    · exact hlabel
    · obtain ⟨st, i₀, hst, hi₀, -, hop₀, htarget, -⟩ := hfrom i hi
      rw [hp.labels, htarget] at hnone
      exact absurd hnone (labelAt_target haccept hst (h.info st hst) hi₀ (hop₀ ▸ hop))
  refine ⟨is₀.mapIdx (annotated cfg), ⟨?_, targets_of_annotated hannotated, ?_⟩,
    spelled_of_assembles hlex h haccept hp, ?_, hlength ▸ haccept.small, hannotated, ?_⟩
  · rw [hwords, List.forall₂_map_left_iff, List.forall₂_same]
    intro i hi
    obtain ⟨-, -, -, -, hvalid, -⟩ := hfrom i hi
    exact decode_encode (encode_ok.2 ⟨hvalid, rfl⟩)
  · intro i hi hop
    obtain ⟨st, i₀, hst, hi₀, -, hop₀, -, hsame⟩ := hfrom i hi
    rw [hsame (by rw [← hop₀, hop]; decide), hp.params]
    exact ordinal_lt (h.info st hst) hi₀ (hop₀ ▸ hop)
  · rw [hp.params]
    exact haccept.follows.params_nodup
  · intro pc pc' name _ _ hname hname'
    exact BitVec.eq_of_toNat_eq
      (definitions_injective haccept.follows (hnamed hname) (hnamed hname'))

end Assembled

/-- Assembled programs, and programs without labels, round trip. -/
theorem disassemble_assemble (C : FloatChars) (hC : C.Lawful) :
    (∀ source p, assemble C source = .ok p → RoundTrips C p)
      ∧ ∀ p is, Unlabelled p is → RoundTrips C p := by
  refine ⟨fun source p hp => ?_, fun p is h => h.relistable.roundTrips hC⟩
  obtain ⟨ts, ls, hlex, hspells, haccept, hp⟩ := ((assemble_spec C source).1 p).1 hp
  obtain ⟨is, his⟩ := relistable_of_assembles hlex hspells haccept hp
  exact his.roundTrips hC

/-- A source with a loop, and a program of a loop. -/
theorem disassemble_assemble_loops :
    (∃ p, assemble bitChars ".entry k\nl: @!p0 bra l\nexit\n".toList = .ok p
        ∧ RoundTrips bitChars p)
      ∧ RoundTrips bitChars { spinProgram [] with labels := fun _ => none } := by
  obtain ⟨hassembled, hunlabelled⟩ := disassemble_assemble bitChars bitChars_lawful
  obtain ⟨p, hp⟩ := Check.exists_of_isOk
    (x := assemble bitChars ".entry k\nl: @!p0 bra l\nexit\n".toList) (by decide +kernel)
  refine ⟨⟨p, hp, hassembled _ p hp⟩, hunlabelled _ spinInstructions ?_⟩
  have hlist := listable_spin []
  exact ⟨fun _ => rfl, ⟨'k', [], rfl, by decide, List.forall_mem_nil _⟩, List.forall_mem_nil _,
    List.nodup_nil, by decide, ⟨hlist.words, hlist.targets, hlist.ordinals⟩, by decide +kernel⟩

end Main

end WarpSim
