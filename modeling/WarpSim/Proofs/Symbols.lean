import WarpSim.Proofs.Sources
import WarpSim.Proofs.Unambiguous

/-!
# Where symbols resolve

An accepted source and its program: a word for each statement, branches to where their labels are
defined, and no name defined twice (`accepted_wellAssembled`). An ordinal has 32 bits, and
`paramRef` does not check that the declaration's place fits.
-/

namespace WarpSim

section Specification

/-- What an instruction holds for an operand in a place. What stands for a label and for a
parameter is left open. -/
def Slot.Holds (label : Text → Pc → Prop) (param : Text → Word → Prop) :
    Slot → Operand → Instruction → Prop
  | .dst, .register n, i => i.dst = n
  | .src0, .register n, i => i.src0 = n
  | .src1, .register n, i => i.src1 = n
  | .src0OrImm, .register n, i => i.immFlag = false ∧ i.src0 = n
  | .src0OrImm, .immediate value, i => i.immFlag = true ∧ i.imm = value
  | .src1OrImm, .register n, i => i.immFlag = false ∧ i.src1 = n
  | .src1OrImm, .immediate value, i => i.immFlag = true ∧ i.imm = value
  | .dstPred, .predicate n, i => i.dst = n
  | .special, .special r, i => i.src0 = r.number
  | .target, .label name _ _, i => label name i.branchTarget
  | .address, .address base offset, i => i.src0 = base ∧ i.imm = offset
  | .param, .parameter name, i => param name i.imm
  | _, _, _ => False

namespace Source

/-- A PC is the number of statements before the definition of a label, and an instruction is
there. -/
def Labels (ls : Source) (name : Text) (pc : Pc) : Prop :=
  ∃ (before : Source) (l : Line) (after : Source), ls = before ++ l :: after ∧ l.label? = some name
    ∧ pc.toNat = before.statements.length ∧ pc.toNat < ls.statements.length

/-- An ordinal is the place of a parameter's declaration. -/
def Declares (ls : Source) (name : Text) (ordinal : Word) : Prop :=
  ls.params[ordinal.toNat]? = some name

/-- The program of a source has one word for each statement, which says what the statement says,
and no name is defined twice. -/
structure WellAssembled (ls : Source) (p : Program) : Prop where
  length : p.words.length = ls.statements.length
  small : p.words.length ≤ 65535
  params : p.params = ls.params
  word : ∀ (k : Nat) (st : Statement), ls.statements[k]? = some st → ∃ w i, p.words[k]? = some w
    ∧ decode w = .ok i ∧ i.opcode = st.info.opcode ∧ i.guard = st.guard
    ∧ List.Forall₂ (fun (sl : Slot) o => sl.Holds ls.Labels ls.Declares o i)
      st.info.shape.slots st.operands
  labels_nodup : (ls.filterMap Line.label?).Nodup
  params_nodup : ls.params.Nodup

/-- Every parameter that a statement names is among the first 2^32. -/
def OrdinalsFit (ls : Source) : Prop :=
  ∀ st ∈ ls.statements, ∀ name, Operand.parameter name ∈ st.operands →
    name ∈ ls.params.take (2 ^ 32)

end Source

end Specification

section Names

namespace Source

theorem definitionsFrom_fst : ∀ (ls : Source) (n : Nat),
    (definitionsFrom n ls).map Prod.fst = ls.filterMap Line.label?
  | [], _ => rfl
  | l :: ls, n => by
    rw [definitionsFrom, List.map_append, definitionsFrom_fst ls, List.filterMap_cons]
    cases l.label? <;> rfl

theorem lookup_eq_none {α β : Type} [BEq α] [LawfulBEq α] {a : α} : ∀ {l : List (α × β)},
    l.lookup a = none ↔ a ∉ l.map Prod.fst
  | [] => by simp
  | (b, c) :: l => by
    rw [List.lookup_cons, List.map_cons, List.mem_cons, not_or]
    by_cases h : a = b
    · simp [h]
    · rw [beq_false_of_ne h, ← lookup_eq_none]
      simp [h]

theorem nodup_snoc {α : Type} {as : List α} {a : Option α} (h : as.Nodup) (ha : ∀ x ∈ a, x ∉ as) :
    (as ++ a.toList).Nodup := by
  rcases a with _ | x
  · simpa using h
  · exact h.append (List.nodup_singleton x) (by simpa using ha x rfl)

theorem WellFormed.labels_nodup {ls : Source} (h : ls.WellFormed) :
    (ls.filterMap Line.label?).Nodup := by
  induction ls using List.reverseRecOn with
  | nil => exact List.nodup_nil
  | append_singleton ls l ih =>
    obtain ⟨hls, hl⟩ := wellFormed_snoc.1 h
    rw [List.filterMap_append, show List.filterMap Line.label? [l] = l.label?.toList by
      cases hlabel : l.label? <;> simp [hlabel]]
    refine nodup_snoc (ih hls) fun name hname => ?_
    cases hl with
    | code hlabel =>
      rw [← definitionsFrom_fst ls 0, ← lookup_eq_none]
      exact hlabel name hname
    | _ => cases hname

theorem WellFormed.params_nodup {ls : Source} (h : ls.WellFormed) : ls.params.Nodup := by
  induction ls using List.reverseRecOn with
  | nil => exact List.nodup_nil
  | append_singleton ls l ih =>
    obtain ⟨hls, hl⟩ := wellFormed_snoc.1 h
    rw [params_snoc]
    refine nodup_snoc (ih hls) fun name hname => ?_
    cases hl with
    | param hfresh =>
      cases hname
      exact hfresh
    | _ => cases hname

/-- A definition that is found is a line of the source. -/
theorem mem_definitionsFrom : ∀ {ls : Source} {m n : Nat} {name : Text},
    (name, n) ∈ definitionsFrom m ls → ∃ (before : Source) (l : Line) (after : Source),
      ls = before ++ l :: after ∧ l.label? = some name ∧ n = m + before.statements.length
  | [], _, _, _, h => by cases h
  | l :: ls, m, n, name, h => by
    rw [definitionsFrom] at h
    rcases List.mem_append.1 h with h | h
    · obtain ⟨name', hname', hpair⟩ := Option.map_eq_some_iff.1 (Option.mem_toList.1 h)
      cases hpair
      exact ⟨[], l, ls, rfl, hname', rfl⟩
    · obtain ⟨before, l', after, rfl, hl', rfl⟩ := mem_definitionsFrom h
      refine ⟨l :: before, l', after, rfl, hl', ?_⟩
      rw [show l :: before = [l] ++ before from rfl, statements_append, List.length_append]
      omega

end Source

end Names

section Statements

variable {params : List Text} {target : Text → Pc}

/-- An instruction holds the operands it was filled with. -/
theorem holds_of_fillSlots {shape : Shape} {os : List Operand} {op : Opcode} {g : Guard}
    {i : Instruction}
    (h : fillSlots params target shape.slots os { opcode := op, guard := g } = some i) :
    List.Forall₂ (fun (sl : Slot) o => sl.Holds (fun name pc => pc = target name)
      (fun name imm => ∃ k, params.findIdx? (· = name) = some k ∧ imm = BitVec.ofNat 32 k) o i)
      shape.slots os := by
  have hk := Parser.fillSlots_takes h
  cases shape with
  | rrr | acc | prr =>
    obtain _ | ⟨h1, _ | ⟨h2, _ | ⟨h3, ⟨⟩⟩⟩⟩ := hk
    rename_i a b c
    cases a <;> first | exact h1.elim | skip
    cases b <;> first | exact h2.elim | skip
    cases c <;> first | exact h3.elim | (cases h; simp [Slot.Holds, Shape.slots])
  | rr | sreg | ld | st =>
    obtain _ | ⟨h1, _ | ⟨h2, ⟨⟩⟩⟩ := hk
    rename_i a b
    cases a <;> first | exact h1.elim | skip
    cases b <;> first | exact h2.elim | (cases h; simp [Slot.Holds, Shape.slots])
  | ldp =>
    obtain _ | ⟨h1, _ | ⟨h2, ⟨⟩⟩⟩ := hk
    rename_i a b
    cases a <;> first | exact h1.elim | skip
    cases b <;> first | exact h2.elim | skip
    rename_i n name
    simp only [fillSlots, Slot.fill, Shape.slots, Option.bind_some] at h
    rcases hname : params.findIdx? (· = name) with _ | k <;> rw [hname] at h
    · cases h
    · cases h
      simp [Slot.Holds, Shape.slots, hname]
  | bra =>
    obtain _ | ⟨h1, ⟨⟩⟩ := hk
    rename_i a
    cases a <;> first | exact h1.elim | skip
    cases h
    exact .cons (Instruction.branchTarget_makeBranchImm _ _ _) .nil
  | none =>
    cases hk
    exact .nil

/-- What a place holds depends on the label and the parameter in it alone. -/
theorem Slot.Holds.imp {label label' : Text → Pc → Prop} {param param' : Text → Word → Prop}
    {sl : Slot} {o : Operand} {i i' : Instruction} (h : sl.Holds label param o i)
    (hlabel : ∀ name line column, o = .label name line column → label name i.branchTarget →
      label' name i'.branchTarget)
    (hparam : ∀ name, o = .parameter name → param name i.imm → param' name i'.imm)
    (hi : o.target? = none → i' = i) : sl.Holds label' param' o i' := by
  cases sl <;> cases o <;> first
    | exact h.elim
    | exact hlabel _ _ _ rfl h
    | exact hparam _ rfl h
    | (rw [hi rfl]; exact h)

end Statements

section Programs

namespace Source

variable {ls : Source}

/-- Every statement of a well-formed source describes an instruction that has a word. -/
theorem WellFormed.exists_instruction (h : ls.WellFormed)
    (hinfo : ∀ st ∈ ls.statements, st.info ∈ opcodeTable) {st : Statement}
    (hst : st ∈ ls.statements) :
    ∃ i, st.instruction ls.params ls.target = some i ∧ validate i = .ok () := by
  obtain ⟨l, hl, hlst⟩ := List.mem_filterMap.1 hst
  obtain ⟨before, after, rfl⟩ := List.append_of_mem hl
  cases h before l after rfl with
  | @code label st' hlabel hstatement =>
    obtain ⟨i, hi, hvalid⟩ := hstatement st hlst
    have hmono := fillSlots_mono (params (.code label st' :: after)) hi
    rw [← params_append] at hmono
    cases Statement.branches (hinfo st hst) hmono with
    | branch hop _ htarget => exact ⟨_, htarget _, by rwa [validate_bra hop]⟩
    | plain _ _ _ htarget => exact ⟨i, htarget _, hvalid⟩
  | _ => cases hlst

theorem exists_forall₂ {α β : Type} {R : α → β → Prop} : ∀ {as : List α},
    (∀ a ∈ as, ∃ b, R a b) → ∃ bs, List.Forall₂ R as bs
  | [], _ => ⟨[], .nil⟩
  | a :: as, h => by
    obtain ⟨b, hb⟩ := h a List.mem_cons_self
    obtain ⟨bs, hbs⟩ := exists_forall₂ fun a ha => h a (List.mem_cons_of_mem _ ha)
    exact ⟨b :: bs, .cons hb hbs⟩

theorem getElem?_forall₂ {α β : Type} {R : α → β → Prop} {as : List α} {bs : List β}
    (h : List.Forall₂ R as bs) {k : Nat} {a : α} (ha : as[k]? = some a) :
    ∃ b, bs[k]? = some b ∧ R a b := by
  induction h generalizing k with
  | nil => cases ha
  | @cons a' b as bs hab _ ih =>
    cases k with
    | zero => cases ha; exact ⟨b, rfl, hab⟩
    | succ k => exact ih ha

/-- Every accepted source has a program. -/
theorem Accepted.exists_program (h : ls.Accepted)
    (hinfo : ∀ st ∈ ls.statements, st.info ∈ opcodeTable) : ∃ p, ls.Assembles p := by
  obtain ⟨is, his⟩ := exists_forall₂ fun st hst => h.follows.exists_instruction hinfo hst
  exact ⟨⟨ls.entry, ls.params, ls.sharedBytes, _, ls.labelAt⟩, rfl, rfl, rfl, rfl, is,
    his.imp fun _ _ hi => hi.1, rfl⟩

/-- The annotation of an instruction keeps everything but a branch's upper half. -/
theorem exists_annotated {is : List Instruction} {k : Nat} {i : Instruction}
    (h : is[k]? = some i) : ∃ i', (annotateReconvergence is).2[k]? = some i'
      ∧ (validate i = .ok () → validate i' = .ok ()) ∧ (i.opcode ≠ .bra → i' = i)
      ∧ i'.opcode = i.opcode ∧ i'.guard = i.guard ∧ i'.branchTarget = i.branchTarget := by
  rcases hcfg : buildCfg is with e | cfg
  · rw [annotateReconvergence_error hcfg]
    exact ⟨i, h, id, fun _ => rfl, rfl, rfl, rfl⟩
  · rw [annotateReconvergence_ok hcfg]
    refine ⟨annotated cfg k i, by simp [h], fun hv => validate_annotated hv cfg k,
      fun hop => ?_, ?_⟩
    · rw [annotated, if_pos hop]
    · by_cases hop : i.opcode = .bra
      · obtain ⟨heq, htarget, -⟩ := annotated_bra hop cfg k
        rw [htarget, heq]
        exact ⟨rfl, rfl, rfl⟩
      · rw [annotated, if_pos hop]
        exact ⟨rfl, rfl, rfl⟩

/-- The word of a statement. -/
theorem Assembles.word {p : Program} (hp : ls.Assembles p) (h : ls.WellFormed)
    (hinfo : ∀ st ∈ ls.statements, st.info ∈ opcodeTable) {k : Nat} {st : Statement}
    (hk : ls.statements[k]? = some st) : ∃ i₀ w i, st.instruction ls.params ls.target = some i₀
      ∧ p.words[k]? = some w ∧ decode w = .ok i ∧ (i₀.opcode ≠ .bra → i = i₀)
      ∧ i.opcode = i₀.opcode ∧ i.guard = i₀.guard ∧ i.branchTarget = i₀.branchTarget := by
  obtain ⟨is, his, hwords⟩ := hp.words
  obtain ⟨i₀, hi₀, hvalid⟩ := h.exists_instruction hinfo (List.mem_of_getElem? hk)
  obtain ⟨i₀', hget, hi₀'⟩ := getElem?_forall₂ his hk
  cases hi₀.symm.trans hi₀'
  obtain ⟨i, hi, hv, hplain, hop, hguard, htarget⟩ := exists_annotated hget
  refine ⟨i₀, packWord i, i, hi₀, ?_, decode_encode (encode_ok.2 ⟨hv hvalid, rfl⟩), hplain, hop,
    hguard, htarget⟩
  rw [hwords, List.getElem?_map, hi]
  rfl

theorem Assembles.length_words {p : Program} (hp : ls.Assembles p) :
    p.words.length = ls.statements.length := by
  obtain ⟨is, his, hwords⟩ := hp.words
  rw [hwords, List.length_map, his.length_eq]
  rcases hcfg : buildCfg is with e | cfg
  · rw [annotateReconvergence_error hcfg]
  · rw [annotateReconvergence_ok hcfg, List.length_mapIdx]

theorem findIdx?_some {names : List Text} {name : Text} {k : Nat}
    (h : names.findIdx? (· = name) = some k) : names[k]? = some name := by
  obtain ⟨hk, hname, -⟩ := List.findIdx?_eq_some_iff_getElem.1 h
  rw [List.getElem?_eq_getElem hk, of_decide_eq_true hname]

/-- The ordinal written for a parameter is its place exactly if the place has 32 bits. -/
theorem declares_iff {name : Text} {k : Nat} (hnodup : ls.params.Nodup)
    (hk : ls.params.findIdx? (· = name) = some k) :
    ls.Declares name (BitVec.ofNat 32 k) ↔ name ∈ ls.params.take (2 ^ 32) := by
  have hget := findIdx?_some hk
  have hplace : ∀ {j : Nat}, ls.params[j]? = some name → j = k := fun {j} hj => by
    obtain ⟨hj', -⟩ := List.getElem?_eq_some_iff.1 hj
    exact (List.getElem?_inj hj' hnodup).1 (hj.trans hget.symm)
  rw [Declares, BitVec.toNat_ofNat]
  constructor
  · intro h
    have hlt : k < 2 ^ 32 := by
      rw [← hplace h]
      exact Nat.mod_lt _ (by decide)
    exact List.mem_of_getElem? (i := k) (by rwa [List.getElem?_take_of_lt hlt])
  · intro h
    obtain ⟨j, hj⟩ := List.getElem?_of_mem h
    have hlt : j < 2 ^ 32 := by
      by_contra hle
      rw [List.getElem?_take, if_neg hle] at hj
      cases hj
    rw [List.getElem?_take_of_lt hlt] at hj
    have hjk := hplace hj
    subst hjk
    rwa [Nat.mod_eq_of_lt hlt]

theorem mem_of_lookup {α β : Type} [BEq α] [LawfulBEq α] {a : α} {b : β} : ∀ {l : List (α × β)},
    l.lookup a = some b → (a, b) ∈ l
  | (a', b') :: l, h => by
    rw [List.lookup_cons] at h
    by_cases ha : a = a'
    · subst ha
      rw [beq_self_eq_true] at h
      cases h
      exact List.mem_cons_self
    · rw [beq_false_of_ne ha] at h
      exact List.mem_cons_of_mem _ (mem_of_lookup h)

theorem imp_mem {α β : Type} {R S : α → β → Prop} {as : List α} {bs : List β}
    (h : List.Forall₂ R as bs) (hrs : ∀ a b, b ∈ bs → R a b → S a b) : List.Forall₂ S as bs := by
  have hmem : List.Forall₂ (fun b a => b ∈ bs ∧ R a b) bs as :=
    (List.forall₂_and_left bs as).2 ⟨fun _ hb => hb, h.flip⟩
  exact hmem.flip.imp fun a b hab => hrs a b hab.1 hab.2

theorem param_of_holds {label : Text → Pc → Prop} {param : Text → Word → Prop} {sls : List Slot}
    {os : List Operand} {i : Instruction}
    (h : List.Forall₂ (fun (sl : Slot) o => sl.Holds label param o i) sls os) {name : Text}
    (hname : .parameter name ∈ os) : param name i.imm := by
  induction h with
  | nil => cases hname
  | @cons sl o sls os hso _ ih =>
    rcases List.mem_cons.1 hname with rfl | hname
    · cases sl <;> first | exact hso | exact hso.elim
    · exact ih hname

theorem parameter_mem_plain {name : Text} {os : List Operand} :
    .parameter name ∈ os.map Operand.plain ↔ .parameter name ∈ os := by
  rw [List.mem_map]
  constructor
  · rintro ⟨o, ho, hplain⟩
    cases o <;> cases hplain
    exact ho
  · exact fun h => ⟨_, h, rfl⟩

theorem ordinalsFit_plain : OrdinalsFit (ls.map Line.plain) ↔ ls.OrdinalsFit := by
  rw [OrdinalsFit, OrdinalsFit, statements_plain, params_plain]
  simp only [List.forall_mem_map, Statement.plain, parameter_mem_plain]

/-- The program of an accepted source is well assembled, given that the ordinals fit. -/
theorem wellAssembled_iff {p : Program} (h : ls.Accepted) (hp : ls.Assembles p)
    (hinfo : ∀ st ∈ ls.statements, st.info ∈ opcodeTable) :
    ls.WellAssembled p ↔ ls.OrdinalsFit := by
  have hnodup := h.follows.params_nodup
  have hholds : ∀ {st : Statement} {i : Instruction},
      st.instruction ls.params ls.target = some i →
      List.Forall₂ (fun (sl : Slot) o => sl.Holds (fun name pc => pc = ls.target name)
        (fun name imm => ∃ k, ls.params.findIdx? (· = name) = some k ∧ imm = BitVec.ofNat 32 k) o i)
        st.info.shape.slots st.operands := holds_of_fillSlots
  constructor
  · intro hw st hst name hname
    obtain ⟨k, hk⟩ := List.getElem?_of_mem hst
    obtain ⟨w, i, hword, hdecode, -, -, hheld⟩ := hw.word k st hk
    obtain ⟨i₀, w', i', hi₀, hword', hdecode', hplain, -⟩ := hp.word h.follows hinfo hk
    cases hword.symm.trans hword'
    cases hdecode.symm.trans hdecode'
    have hsame : i = i₀ := by
      cases Statement.branches (hinfo st hst) hi₀ with
      | branch _ hos => rw [hos] at hname; simp at hname
      | plain hop => exact hplain hop
    obtain ⟨j, hj, himm⟩ := param_of_holds (hholds hi₀) hname
    have hdeclares := param_of_holds hheld hname
    rw [hsame, himm] at hdeclares
    exact (declares_iff hnodup hj).1 hdeclares
  · intro hfit
    refine ⟨hp.length_words, hp.length_words ▸ h.small, hp.params, fun k st hk => ?_,
      h.follows.labels_nodup, hnodup⟩
    have hst := List.mem_of_getElem? hk
    obtain ⟨i₀, w, i, hi₀, hw, hdecode, hplain, hop, hguard, htarget⟩ := hp.word h.follows hinfo hk
    obtain ⟨hop₀, hguard₀⟩ := fillSlots_keeps hi₀
    refine ⟨w, i, hw, hdecode, hop.trans hop₀, hguard.trans hguard₀, ?_⟩
    refine imp_mem (hholds hi₀) fun sl o ho hheld => hheld.imp ?_ ?_ ?_
    · rintro name line column rfl hname
      have hmem : name ∈ st.names := List.mem_filterMap.2 ⟨_, ho, rfl⟩
      obtain ⟨n, hlookup, hn⟩ := h.resolved st hst name hmem
      obtain ⟨before, l, after, hls, hl, hbefore⟩ := mem_definitionsFrom (mem_of_lookup hlookup)
      have hpc : i.branchTarget.toNat = n := by
        rw [htarget, hname, target, hlookup, Option.getD_some, BitVec.toNat_ofNat]
        exact Nat.mod_eq_of_lt (by have := h.small; omega)
      rw [Nat.zero_add] at hbefore
      exact ⟨before, l, after, hls, hl, hpc.trans hbefore, hpc.symm ▸ hn⟩
    · rintro name rfl ⟨j, hj, himm⟩
      have hsame : i = i₀ := by
        cases Statement.branches (hinfo st hst) hi₀ with
        | branch _ hos => rw [hos] at ho; simp at ho
        | plain hop => exact hplain hop
      rw [hsame, himm]
      exact (declares_iff hnodup hj).2 (hfit st hst name ho)
    · intro hnone
      cases Statement.branches (hinfo st hst) hi₀ with
      | branch _ hos =>
        rw [hos, List.mem_singleton] at ho
        rw [ho] at hnone
        cases hnone
      | plain hop => exact hplain hop

end Source

end Programs

section Main

/-- Assembling ends, reports every failure with a diagnostic, and makes well-assembled programs. -/
def AssemblesWell (C : FloatChars) (source : Text) : Prop :=
  (∀ s, assemble C source = .error s → ∃ e, s = .error e)
    ∧ ∀ p, assemble C source = .ok p → ∃ (ts : List Token) (ls : Source), lex source = .ok ts
      ∧ SpellsLines C ts ls ∧ ls.WellAssembled p

/-- Accepted lines of a text that assembles well name only parameters that have ordinals. -/
theorem AssemblesWell.ordinalsFit {C : FloatChars} {source : Text} (h : AssemblesWell C source)
    {ts : List Token} {ls : Source} (hlex : lex source = .ok ts) (hspells : SpellsLines C ts ls)
    (haccept : ls.Accepted) : ls.OrdinalsFit := by
  obtain ⟨p, hp⟩ := haccept.exists_program hspells.info
  have hok := ((assemble_spec C source).1 p).2 ⟨ts, ls, hlex, hspells, haccept, hp⟩
  obtain ⟨ts', ls', hlex', hspells', hwell⟩ := h.2 p hok
  cases hlex.symm.trans hlex'
  cases hspells.unique hspells'
  exact (Source.wellAssembled_iff haccept hp hspells.info).1 hwell

/-- Assembling a text goes well exactly if its parameters that are named have ordinals. -/
theorem assemble_symbols (C : FloatChars) (source : Text) : AssemblesWell C source ↔
    ∀ (ts : List Token) (ls : Source), lex source = .ok ts → SpellsLines C ts ls → ls.Accepted →
      ls.OrdinalsFit := by
  obtain ⟨hok, herror⟩ := assemble_spec C source
  constructor
  · intro h ts ls hlex hspells haccept
    exact h.ordinalsFit hlex hspells haccept
  · intro hfit
    refine ⟨herror, fun p hp => ?_⟩
    obtain ⟨ts, ls, hlex, hspells, haccept, hp⟩ := (hok p).1 hp
    have hfits := hfit ts ls hlex hspells haccept
    exact ⟨ts, ls, hlex, hspells, (Source.wellAssembled_iff haccept hp hspells.info).2 hfits⟩

end Main

section Overflow

/-- A kernel with parameters `p0` to `pn` that loads the last one. -/
def wideSource (n : Nat) : Text :=
  ".entry k\n".toList
    ++ (List.range (n + 1)).flatMap (fun k => ".param p".toList ++ decimalText k ++ ['\n'])
    ++ "    ld.param r0, [p".toList ++ decimalText n ++ "]\n".toList

def wideStatement (n : Nat) : Statement where
  guard := {}
  info := ⟨.ldParam, "ld.param", .ldp⟩
  operands := [.register 0, .parameter ('p' :: decimalText n)]

def wideHeader (n : Nat) : List (Text × Line) :=
  (".entry ".toList ++ ['k'], .entry ['k'])
    :: (List.range n).map fun k =>
      (".param ".toList ++ 'p' :: decimalText k, .param ('p' :: decimalText k))

def wideLines (n : Nat) : List (Text × Line) :=
  wideHeader (n + 1) ++ [("    ".toList ++ (statementText bitChars (wideStatement n) ++ []),
    .code none (some (wideStatement n)))]

theorem wideSource_eq (n : Nat) :
    wideSource n = (wideLines n).flatMap fun x => x.1 ++ ['\n'] := by
  have htext : statementText bitChars (wideStatement n)
      = "ld.param r0, [p".toList ++ (decimalText n ++ [']']) := by
    simp [statementText, wideStatement, operandsText, operandText]
    rfl
  have hparam : ∀ k,
      ".param ".toList ++ 'p' :: decimalText k = ".param p".toList ++ decimalText k :=
    fun _ => rfl
  unfold wideSource wideLines wideHeader
  simp only [List.flatMap_append, List.flatMap_cons, List.flatMap_map, List.flatMap_nil, htext,
    hparam, List.append_assoc, List.append_nil]
  rfl

theorem isIdentifier_param (n : Nat) : IsIdentifier ('p' :: decimalText n) :=
  ⟨'p', _, rfl, by decide, fun _ h => isIdentChar_of_digit (isDigit_decimalText h)⟩

theorem prints_wideLines (n : Nat) : ∀ x ∈ wideLines n, Prints bitChars x.1 x.2 := by
  intro x hx
  rcases List.mem_append.1 hx with hx | hx
  · rcases List.mem_cons.1 hx with rfl | hx
    · exact prints_entry ⟨'k', [], rfl, by decide, by simp⟩
    · obtain ⟨k, -, rfl⟩ := List.mem_map.1 hx
      exact prints_param (isIdentifier_param k)
  · rw [List.mem_singleton] at hx
    subst hx
    refine prints_statement bitChars_lawful ⟨.inl rfl, ?_, ?_, ?_⟩ (.inl rfl)
    · exact List.mem_iff_getElem?.2 ⟨45, rfl⟩
    · rintro o (_ | ⟨_, _ | ⟨_, ⟨⟩⟩⟩)
      · exact (by decide : (0 : BitVec 8).toNat < 64)
      · exact isIdentifier_param n
    · exact .cons trivial (.cons trivial .nil)

theorem wideHeader_succ (n : Nat) : (wideHeader (n + 1)).map Prod.snd
    = (wideHeader n).map Prod.snd ++ [.param ('p' :: decimalText n)] := by
  unfold wideHeader
  rw [List.range_succ, List.map_append, List.map_cons, List.map_append, List.map_cons]
  rfl

/-- What the lines before the statement declare. -/
theorem wideHeader_spec : ∀ n : Nat, Source.WellFormed ((wideHeader n).map Prod.snd)
    ∧ Source.entry ((wideHeader n).map Prod.snd) = ['k']
    ∧ Source.statements ((wideHeader n).map Prod.snd) = []
    ∧ Source.params ((wideHeader n).map Prod.snd) = (List.range n).map fun k => 'p' :: decimalText k
  | 0 => by
    refine ⟨?_, rfl, rfl, rfl⟩
    exact Source.wellFormed_snoc.2 ⟨Source.wellFormed_nil, .entry rfl rfl⟩
  | n + 1 => by
    obtain ⟨hwell, hentry, hstatements, hparams⟩ := wideHeader_spec n
    rw [wideHeader_succ]
    refine ⟨Source.wellFormed_snoc.2 ⟨hwell, .param ?_⟩, ?_, ?_, ?_⟩
    · rw [hparams, List.mem_map]
      rintro ⟨k, hk, heq⟩
      rw [decimalText_injective (List.cons.inj heq).2, List.mem_range] at hk
      exact Nat.lt_irrefl n hk
    · rw [Source.entry_snoc, hentry]
    · rw [Source.statements_snoc, hstatements]
      rfl
    · rw [Source.params_snoc, hparams, List.range_succ, List.map_append]
      rfl

theorem findIdx?_wide (n : Nat) :
    ((List.range (n + 1)).map fun k => 'p' :: decimalText k).findIdx? (· = 'p' :: decimalText n)
      = some n := by
  rw [List.findIdx?_eq_some_iff_getElem]
  refine ⟨by simp, by simp, fun j hj => ?_⟩
  rw [Bool.not_eq_true, decide_eq_false_iff_not, List.getElem_map, List.getElem_range]
  intro heq
  exact absurd (decimalText_injective (List.cons.inj heq).2) (Nat.ne_of_lt hj)

theorem wideLines_snd (n : Nat) : (wideLines n).map Prod.snd
    = (wideHeader (n + 1)).map Prod.snd ++ [.code none (some (wideStatement n))] := by
  rw [wideLines, List.map_append]
  rfl

theorem accepted_wideLines (n : Nat) : Source.Accepted ((wideLines n).map Prod.snd) := by
  obtain ⟨hwell, hentry, hstatements, hparams⟩ := wideHeader_spec (n + 1)
  rw [wideLines_snd]
  refine ⟨Source.wellFormed_snoc.2 ⟨hwell, .code nofun ?_⟩, ?_, ?_, ?_⟩
  · intro st hst
    cases hst
    rw [hparams]
    refine ⟨{ opcode := .ldParam, immFlag := true, imm := BitVec.ofNat 32 n }, ?_, ?_⟩
    · simp only [Statement.instruction, wideStatement, Shape.slots, fillSlots, Slot.fill,
        Option.bind_some, findIdx?_wide, Option.map_some]
    · rfl
  · rw [Source.entry_snoc, hentry]
    exact List.cons_ne_nil _ _
  · rw [Source.statements_snoc, hstatements]
    exact (by decide : 1 ≤ 65535)
  · rw [Source.statements_snoc, hstatements]
    intro st hst name hname
    rw [List.mem_singleton.1 hst] at hname
    cases hname

/-- A parameter past the 2^32th has no ordinal. -/
theorem not_assemblesWell_wide {n : Nat} (hn : 2 ^ 32 ≤ n) :
    ¬AssemblesWell bitChars (wideSource n) := by
  intro h
  obtain ⟨ts, ls, hlex, hspells, hplain⟩ := lex_lines (prints_wideLines n) (by simp [wideLines])
  have hsame : ls.map Line.plain = ((wideLines n).map Prod.snd).map Line.plain := by
    rw [hplain, List.map_map]
    rfl
  have haccept := accepted_wideLines n
  rw [← Source.accepted_plain, ← hsame, Source.accepted_plain] at haccept
  rw [wideSource_eq] at h
  have hfit := h.ordinalsFit hlex hspells haccept
  rw [← Source.ordinalsFit_plain, hsame, Source.ordinalsFit_plain, wideLines_snd] at hfit
  obtain ⟨-, -, hstatements, hparams⟩ := wideHeader_spec (n + 1)
  have hst : wideStatement n ∈ Source.statements
      ((wideHeader (n + 1)).map Prod.snd ++ [.code none (some (wideStatement n))]) := by
    rw [Source.statements_snoc, hstatements]
    exact List.mem_singleton_self _
  have hmem := hfit _ hst ('p' :: decimalText n) (by simp [wideStatement])
  rw [Source.params_snoc, hparams,
    show (Line.code none (some (wideStatement n))).param?.toList = [] from rfl, List.append_nil,
    ← List.map_take, List.mem_map, List.take_range] at hmem
  obtain ⟨k, hk, heq⟩ := hmem
  rw [decimalText_injective (List.cons.inj heq).2, List.mem_range] at hk
  omega

/-- The text that the assembler turns into a load of parameter 0. -/
theorem wideSource_overflow : ¬AssemblesWell bitChars (wideSource (2 ^ 32)) :=
  not_assemblesWell_wide (Nat.le_refl _)

end Overflow

end WarpSim
