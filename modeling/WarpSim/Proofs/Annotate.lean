import WarpSim.Proofs.Blocks

/-!
# The reconvergence pass is exact

The dataflow starts above the post-dominator sets and every turn stays above them; where it stops,
the sets are closed along the edges, so they hold post-dominators only. Counting then finds the
immediate post-dominator: it is the one strict post-dominator whose own set is the strict set.
-/

namespace WarpSim

variable {program : List Instruction} {cfg : Cfg}

section Dataflow

/-- The edges between the numbers of the blocks. -/
def NodeSucc (cfg : Cfg) (b s : Fin cfg.nodes) : Prop := s.val ∈ cfg.succs.getD b.val []

def exitFin (cfg : Cfg) : Fin cfg.nodes := ⟨cfg.exitNode, cfg.exitNode_lt⟩

/-- The loop keeps what each sweep keeps, and stops where no turn changes anything. -/
theorem sweeps_spec (P : List BlockSet → Prop)
    (hstep : ∀ pdom, Descends cfg pdom → P pdom → P (sweep cfg pdom).1)
    (pdom : { pdom : List BlockSet // Descends cfg pdom }) (hp : P pdom.1) :
    P (sweeps cfg pdom) ∧ Descends cfg (sweeps cfg pdom)
      ∧ ∀ b < cfg.exitNode, transfer cfg (sweeps cfg pdom) b = (sweeps cfg pdom).getD b {} := by
  obtain ⟨h1, h2, h3⟩ := descends_sweep pdom.2
  have h4 := hstep pdom.1 pdom.2 hp
  rw [sweeps]
  split
  case h_1 next hs =>
    rw [hs] at h2 h4
    have hlt := h2 rfl
    exact sweeps_spec P hstep ⟨next, _⟩ h4
  case h_2 next hs =>
    rw [hs] at h1 h3 h4
    obtain ⟨heq, hfix⟩ := h3 rfl
    simp only [] at heq
    subst heq
    exact ⟨h4, h1, hfix⟩
termination_by setsWeight pdom.1
decreasing_by exact hlt

/-- Every set holds the post-dominators of its block, and the exit's holds no more. -/
structure Above (cfg : Cfg) (pdom : List BlockSet) : Prop where
  holds : ∀ b d : Fin cfg.nodes, PostDom (NodeSucc cfg) (exitFin cfg) d b →
    (pdom.getD b.val {}).contains d.val = true
  exit : ∀ d, (pdom.getD cfg.exitNode {}).contains d = true → d = cfg.exitNode

/-- The edges lead to nodes. -/
def SuccsInside (cfg : Cfg) : Prop := ∀ b, ∀ s ∈ cfg.succs.getD b [], s < cfg.nodes

theorem above_transfer (hin : SuccsInside cfg) {pdom : List BlockSet} (h : Above cfg pdom)
    {b d : Fin cfg.nodes} (hpd : PostDom (NodeSucc cfg) (exitFin cfg) d b) :
    (transfer cfg pdom b.val).contains d.val = true := by
  rw [contains_transfer _ b.isLt]
  by_cases hdb : d = b
  · exact .inl (congrArg Fin.val hdb)
  · exact .inr ⟨d.isLt, fun s hs => h.holds ⟨s, hin _ s hs⟩ d (hpd.next hdb hs)⟩

theorem above_visit (hin : SuccsInside cfg) {pdom : List BlockSet} {changed : Bool} {b : Nat}
    (hb : b < cfg.exitNode) (h : Above cfg pdom) :
    Above cfg (visitBlock cfg (pdom, changed) b).1 := by
  rw [visitBlock]
  split_ifs
  · refine ⟨fun c d hpd => ?_, fun d hd => h.exit d ?_⟩
    · have hc := h.holds c d hpd
      simp only [List.getD_eq_getElem?_getD, List.getElem?_set] at hc ⊢
      by_cases hbc : b = c.val
      · have ht := above_transfer hin h hpd
        split_ifs with hlen
        · rw [hbc]
          exact ht
        · rw [List.getElem?_eq_none (by omega)] at hc
          simp [BlockSet.contains, BlockSet.word] at hc
      · rw [if_neg hbc]
        exact hc
    · rw [List.getD_eq_getElem?_getD, List.getElem?_set, if_neg (Nat.ne_of_lt hb),
        ← List.getD_eq_getElem?_getD] at hd
      exact hd
  · exact h

theorem above_sweep (hin : SuccsInside cfg) {pdom : List BlockSet} (h : Above cfg pdom) :
    Above cfg (sweep cfg pdom).1 := by
  have hfold : ∀ (l : List Nat) (state : List BlockSet × Bool), (∀ b ∈ l, b < cfg.exitNode) →
      Above cfg state.1 → Above cfg (l.foldl (visitBlock cfg) state).1 := by
    intro l
    induction l with
    | nil => exact fun _ _ hs => hs
    | cons b l ih =>
      intro state hl hs
      obtain ⟨hb, hl⟩ := List.forall_mem_cons.1 hl
      exact ih _ hl (above_visit hin hb hs)
  exact hfold _ _ (fun _ => List.mem_range.1) h

theorem above_initialSets (cfg : Cfg) : Above cfg (initialSets cfg) := by
  have hexit : ∀ d, ((BlockSet.make cfg.nodes false).insert cfg.exitNode).contains d
      = decide (d = cfg.exitNode) := by
    intro d
    rw [BlockSet.contains_insert (BlockSet.shape_make _ _)
      (BlockSet.lt_wordCount cfg.exitNode_lt), BlockSet.contains_make_false,
      Bool.false_or]
  refine ⟨fun b d hpd => ?_, fun d hd => ?_⟩
  · rw [getD_initialSets cfg b.val b.isLt]
    split_ifs with hb
    · have hbe : b = exitFin cfg := Fin.ext hb
      rw [hbe] at hpd
      rw [hexit, decide_eq_true_eq]
      exact congrArg Fin.val hpd.eq_exit
    · rw [BlockSet.contains_make_true, decide_eq_true_eq]
      exact d.isLt
  · rwa [getD_initialSets cfg _ cfg.exitNode_lt, if_pos rfl, hexit, decide_eq_true_eq] at hd

theorem postDominators_spec (hin : SuccsInside cfg) : Above cfg (postDominators cfg)
    ∧ Descends cfg (postDominators cfg)
    ∧ ∀ b < cfg.exitNode, transfer cfg (postDominators cfg) b = (postDominators cfg).getD b {} :=
  sweeps_spec (Above cfg) (fun _ _ => above_sweep hin) _ (above_initialSets cfg)

/-- The pass computes the post-dominator sets. -/
theorem contains_postDominators (hin : SuccsInside cfg) (b d : Fin cfg.nodes) :
    ((postDominators cfg).getD b.val {}).contains d.val = true
      ↔ PostDom (NodeSucc cfg) (exitFin cfg) d b := by
  obtain ⟨habove, -, hfix⟩ := postDominators_spec hin
  refine ⟨fun hd => ?_, habove.holds b d⟩
  refine PostDom.of_closed
    (fun b => {d | ((postDominators cfg).getD b.val {}).contains d.val = true})
    (fun d hd => Fin.ext (habove.exit d.val hd)) (fun a ha d hd => ?_) hd
  have hlt : a.val < cfg.exitNode :=
    Nat.lt_of_le_of_ne (Nat.le_of_lt_succ a.isLt) fun he => ha (Fin.ext he)
  have hd : ((postDominators cfg).getD a.val {}).contains d.val = true := hd
  rw [← hfix a.val hlt, contains_transfer _ a.isLt] at hd
  rcases hd with heq | ⟨-, hs⟩
  · exact .inl (Fin.ext heq)
  · exact .inr fun s hsucc => hs s.val hsucc

theorem members_lt (hin : SuccsInside cfg) (b : Fin cfg.nodes) {d : Nat}
    (hd : ((postDominators cfg).getD b.val {}).contains d = true) : d < cfg.nodes := by
  obtain ⟨habove, -, hfix⟩ := postDominators_spec hin
  by_cases hb : b.val = cfg.exitNode
  · rw [hb] at hd
    rw [habove.exit d hd]
    exact cfg.exitNode_lt
  · have hlt : b.val < cfg.exitNode := Nat.lt_of_le_of_ne (Nat.le_of_lt_succ b.isLt) hb
    rw [← hfix b.val hlt, contains_transfer _ b.isLt] at hd
    rcases hd with rfl | ⟨hd, -⟩
    · exact b.isLt
    · exact hd

end Dataflow

section Immediate

/-- The strict post-dominators of a block, as the search keeps them. -/
def strictSet (cfg : Cfg) (b : Nat) : BlockSet := ((postDominators cfg).getD b {}).erase b

theorem shape_strictSet (hin : SuccsInside cfg) (b : Fin cfg.nodes) :
    BlockSet.Shape cfg.nodes (strictSet cfg b.val) :=
  BlockSet.shape_erase ((postDominators_spec hin).2.1.shape_getD b.isLt) _

theorem contains_strictSet (hin : SuccsInside cfg) (b d : Fin cfg.nodes) :
    (strictSet cfg b.val).contains d.val = true
      ↔ d ≠ b ∧ PostDom (NodeSucc cfg) (exitFin cfg) d b := by
  rw [strictSet, BlockSet.contains_erase ((postDominators_spec hin).2.1.shape_getD b.isLt)
    (BlockSet.lt_wordCount b.isLt), Bool.and_eq_true, contains_postDominators hin, and_comm]
  simp [Fin.ext_iff]

theorem strictSet_lt (hin : SuccsInside cfg) (b : Fin cfg.nodes) {d : Nat}
    (hd : (strictSet cfg b.val).contains d = true) : d < cfg.nodes := by
  rw [strictSet, BlockSet.contains_erase ((postDominators_spec hin).2.1.shape_getD b.isLt)
    (BlockSet.lt_wordCount b.isLt), Bool.and_eq_true] at hd
  exact members_lt hin b hd.1

/-- A block whose set is inside the strict set of `b` has as many members only if it has them
all. -/
theorem count_eq_iff (hin : SuccsInside cfg) (b d : Fin cfg.nodes)
    (hsub : ∀ e : Fin cfg.nodes, PostDom (NodeSucc cfg) (exitFin cfg) e d →
      e ≠ b ∧ PostDom (NodeSucc cfg) (exitFin cfg) e b) :
    ((postDominators cfg).getD d.val {}).count = (strictSet cfg b.val).count
      ↔ ∀ e, e ≠ b → PostDom (NodeSucc cfg) (exitFin cfg) e b →
          PostDom (NodeSucc cfg) (exitFin cfg) e d := by
  have hd := (postDominators_spec hin).2.1.shape_getD d.isLt
  have hb := shape_strictSet hin b
  have hmem : ∀ i, ((postDominators cfg).getD d.val {}).contains i = true →
      (strictSet cfg b.val).contains i = true := by
    intro i hi
    have hlt := members_lt hin d hi
    exact (contains_strictSet hin b ⟨i, hlt⟩).2
      (hsub ⟨i, hlt⟩ ((contains_postDominators hin d ⟨i, hlt⟩).1 hi))
  constructor
  · intro hcount e hne he
    by_contra hc
    have hneq : (postDominators cfg).getD d.val {} ≠ strictSet cfg b.val := by
      intro heq
      rw [← contains_postDominators hin, heq, contains_strictSet hin] at hc
      exact hc ⟨hne, he⟩
    have := BlockSet.count_lt hd hb hmem hneq
    omega
  · intro hall
    rw [BlockSet.ext hd hb fun i => ?_]
    rw [Bool.eq_iff_iff]
    refine ⟨hmem i, fun hi => ?_⟩
    have hlt := strictSet_lt hin b hi
    obtain ⟨h1, h2⟩ := (contains_strictSet hin b ⟨i, hlt⟩).1 hi
    exact (contains_postDominators hin d ⟨i, hlt⟩).2 (hall _ h1 h2)

/-- The search finds the immediate post-dominator of a block that reaches the exit. -/
theorem immediatePostDominator_spec (hin : SuccsInside cfg) (b : Fin cfg.nodes)
    (hr : Reaches (NodeSucc cfg) (exitFin cfg) b) (hne : exitFin cfg ≠ b) :
    ∃ d : Fin cfg.nodes, immediatePostDominator (postDominators cfg) b.val = d.val
      ∧ Immediate (NodeSucc cfg) (exitFin cfg) d b := by
  have hsub : ∀ d : Fin cfg.nodes, d ≠ b → PostDom (NodeSucc cfg) (exitFin cfg) d b →
      ∀ e : Fin cfg.nodes, PostDom (NodeSucc cfg) (exitFin cfg) e d →
        e ≠ b ∧ PostDom (NodeSucc cfg) (exitFin cfg) e b := by
    intro d hdb hd e he
    refine ⟨?_, he.trans hd⟩
    rintro rfl
    exact hdb (PostDom.antisymm hr hd he)
  have hiff : ∀ d : Fin cfg.nodes, ((strictSet cfg b.val).contains d.val
      && ((postDominators cfg).getD d.val {}).count == (strictSet cfg b.val).count) = true
        ↔ Immediate (NodeSucc cfg) (exitFin cfg) d b := by
    intro d
    rw [Bool.and_eq_true, contains_strictSet hin, beq_iff_eq]
    constructor
    · rintro ⟨⟨h1, h2⟩, h3⟩
      exact ⟨h1, h2, (count_eq_iff hin b d (hsub d h1 h2)).1 h3⟩
    · rintro ⟨h1, h2, h3⟩
      exact ⟨⟨h1, h2⟩, (count_eq_iff hin b d (hsub d h1 h2)).2 h3⟩
  have hsize : (strictSet cfg b.val).size = cfg.nodes := (shape_strictSet hin b).size_eq
  rw [immediatePostDominator, ← strictSet]
  simp only [hsize]
  split
  case h_1 d hd =>
    have hlt := List.mem_range.1 (List.mem_of_find?_eq_some hd)
    have hfound := List.find?_some hd
    exact ⟨⟨d, hlt⟩, rfl, (hiff ⟨d, hlt⟩).1 hfound⟩
  case h_2 hnone =>
    obtain ⟨d, hd⟩ := Immediate.exists_of_reaches hr hne
    exact absurd ((hiff d).2 hd)
      (List.find?_eq_none.1 hnone d.val (List.mem_range.2 d.isLt))

/-- Where a block cannot reach the exit, and another cannot either, no set has the right size and
the search answers the exit. -/
theorem immediatePostDominator_none (hin : SuccsInside cfg) (b c : Fin cfg.nodes) (hcb : c ≠ b)
    (hb : ¬Reaches (NodeSucc cfg) (exitFin cfg) b) (hc : ¬Reaches (NodeSucc cfg) (exitFin cfg) c) :
    immediatePostDominator (postDominators cfg) b.val = cfg.exitNode := by
  have hall : ∀ {x : Fin cfg.nodes}, ¬Reaches (NodeSucc cfg) (exitFin cfg) x →
      ∀ e, PostDom (NodeSucc cfg) (exitFin cfg) e x := fun hx e l w => absurd ⟨l, w⟩ hx
  have hsize : (strictSet cfg b.val).size = cfg.nodes := (shape_strictSet hin b).size_eq
  rw [immediatePostDominator, ← strictSet]
  simp only [hsize]
  split
  case h_1 d hd =>
    have hlt := List.mem_range.1 (List.mem_of_find?_eq_some hd)
    have hfound := List.find?_some hd
    rw [Bool.and_eq_true, beq_iff_eq] at hfound
    obtain ⟨hmem, hcount⟩ := hfound
    by_cases hrd : Reaches (NodeSucc cfg) (exitFin cfg) (⟨d, hlt⟩ : Fin cfg.nodes)
    · have hsub : ∀ e : Fin cfg.nodes, PostDom (NodeSucc cfg) (exitFin cfg) e ⟨d, hlt⟩ →
          e ≠ b ∧ PostDom (NodeSucc cfg) (exitFin cfg) e b := by
        refine fun e he => ⟨?_, hall hb e⟩
        rintro rfl
        exact hb (he.reaches hrd)
      have hcd := (count_eq_iff hin b ⟨d, hlt⟩ hsub).1 hcount c hcb (hall hb c)
      exact absurd (hcd.reaches hrd) hc
    · have hless : (strictSet cfg b.val).count < ((postDominators cfg).getD d {}).count := by
        refine BlockSet.count_lt (shape_strictSet hin b)
          ((postDominators_spec hin).2.1.shape_getD hlt) (fun i hi => ?_) fun heq => ?_
        · have hi := strictSet_lt hin b hi
          exact (contains_postDominators hin ⟨d, hlt⟩ ⟨i, hi⟩).2 (hall hrd _)
        · have hbd := (contains_postDominators hin ⟨d, hlt⟩ b).2 (hall hrd b)
          rw [← heq, contains_strictSet hin] at hbd
          exact hbd.1 rfl
      omega
  case h_2 => exact Nat.add_sub_cancel _ _

end Immediate

section Vertices

variable (h : Built program cfg)

include h

theorem succsInside : SuccsInside cfg := by
  intro b s hs
  by_cases hb : b < cfg.exitNode
  · exact Nat.lt_succ_of_le ((h.mem_succs hb s).1 hs).1
  · rw [h.succs, if_neg hb] at hs
    cases hs

theorem vertex_injective : Function.Injective fun b : Fin cfg.nodes => vertex cfg b.val :=
  fun b c heq => Fin.ext
    (h.vertex_inj (Nat.le_of_lt_succ b.isLt) (Nat.le_of_lt_succ c.isLt) heq)

theorem nodeSucc_blockSucc (b s : Fin cfg.nodes) (hs : NodeSucc cfg b s) :
    BlockSucc program (vertex cfg b.val) (vertex cfg s.val) := by
  by_cases hb : b.val < cfg.exitNode
  · rw [vertex, if_pos hb]
    exact ((h.mem_succs hb s.val).1 hs).2
  · rw [NodeSucc, h.succs, if_neg hb] at hs
    cases hs

theorem blockSucc_nodeSucc (b : Fin cfg.nodes) (y : Option Nat)
    (hy : BlockSucc program (vertex cfg b.val) y) :
    ∃ s : Fin cfg.nodes, NodeSucc cfg b s ∧ vertex cfg s.val = y := by
  by_cases hb : b.val < cfg.exitNode
  · rw [vertex, if_pos hb] at hy
    obtain ⟨s, hs, rfl⟩ : ∃ s ≤ cfg.exitNode, vertex cfg s = y := by
      rcases blockSucc_leader hy with rfl | ⟨pc, rfl, hl⟩
      · exact ⟨cfg.exitNode, Nat.le_refl _, vertex_exit cfg⟩
      · obtain ⟨s, hs, rfl⟩ := h.exists_index hl
        exact ⟨s, Nat.le_of_lt hs, if_pos hs⟩
    exact ⟨⟨s, Nat.lt_succ_of_le hs⟩, (h.mem_succs hb s).2 ⟨hs, hy⟩, rfl⟩
  · rw [vertex, if_neg hb] at hy
    cases hy

/-- The reconvergence half of a guarded branch, in terms of the blocks of the program. -/
theorem reconvergenceOf_spec {pc start : Nat} {i : Instruction} (hi : program[pc]? = some i)
    (hop : i.opcode = .bra) (hg : i.guard.present = true) (hin : InBlock program start pc) :
    (¬Reaches (BlockSucc program) none (some start) →
      reconvergenceOf cfg (postDominators cfg) pc i = noReconvergence)
    ∧ (Reaches (BlockSucc program) none (some start) →
      ∃ d, Immediate (BlockSucc program) none d (some start)
        ∧ match d with
          | some r => IsLeader program r
            ∧ reconvergenceOf cfg (postDominators cfg) pc i = BitVec.ofNat 16 r
          | none => reconvergenceOf cfg (postDominators cfg) pc i = noReconvergence) := by
  have hinside := succsInside h
  have hinj := vertex_injective h
  have hmap := nodeSucc_blockSucc h
  have hlift := blockSucc_nodeSucc h
  obtain ⟨hb, hstart⟩ := h.blockOf start pc hin
  set b : Fin cfg.nodes := ⟨cfg.blockOf.getD pc 0, Nat.lt_succ_of_lt hb⟩
  have hvb : vertex cfg b.val = some start := h.vertex_blockOf hin
  have hvt : vertex cfg (exitFin cfg).val = none := vertex_exit cfg
  have hreach : Reaches (BlockSucc program) none (some start)
      ↔ Reaches (NodeSucc cfg) (exitFin cfg) b := by
    rw [← hvb, ← hvt]
    exact reaches_map hinj hmap hlift
  have hhalf : reconvergenceOf cfg (postDominators cfg) pc i
      = if immediatePostDominator (postDominators cfg) b.val ≠ cfg.exitNode then
          BitVec.ofNat 16
            (cfg.leaders.getD (immediatePostDominator (postDominators cfg) b.val) 0)
        else noReconvergence := by
    rw [reconvergenceOf, if_pos hg]
  refine ⟨fun hnr => ?_, fun hr => ?_⟩
  · -- Its fall-through block is a second one that cannot reach the exit.
    have hend := endsBlock_of_terminator hi (.inl hop)
    have hfall : BlockSucc program (vertex cfg b.val) (atPc program (pc + 1)) := by
      rw [hvb]
      exact ⟨pc, hin, hend, (succ_bra hi hop).2 (.inr ⟨hg, rfl⟩)⟩
    obtain ⟨c, hbc, hvc⟩ := hlift b _ hfall
    have hnc : ¬Reaches (NodeSucc cfg) (exitFin cfg) c := by
      rintro ⟨l, w⟩
      exact hnr (hreach.2 ⟨_, .cons hbc w⟩)
    have hcb : c ≠ b := by
      rintro rfl
      rw [hvb, atPc] at hvc
      split_ifs at hvc
      have := hin.le
      simp only [Option.some.injEq] at hvc
      omega
    rw [hhalf, immediatePostDominator_none hinside b c hcb (fun hr => hnr (hreach.2 hr)) hnc,
      if_neg (fun hne => hne rfl)]
  · have hne : exitFin cfg ≠ b := fun he => Nat.ne_of_gt hb (congrArg Fin.val he)
    obtain ⟨d, hd, himm⟩ := immediatePostDominator_spec hinside b (hreach.1 hr) hne
    refine ⟨vertex cfg d.val, ?_, ?_⟩
    · have := immediate_map hinj hmap hlift (hreach.1 hr) himm
      rwa [hvb, hvt] at this
    · rw [hhalf, hd, vertex]
      by_cases hde : d.val < cfg.exitNode
      · rw [if_pos hde, if_pos (Nat.ne_of_lt hde)]
        exact ⟨h.leader_getD hde, rfl⟩
      · rw [if_neg hde, if_neg]
        have hle : d.val ≤ cfg.exitNode := Nat.le_of_lt_succ d.isLt
        omega

end Vertices

section Annotate

/-- What the pass writes into the instruction at `pc`. -/
def annotated (cfg : Cfg) (pc : Nat) (i : Instruction) : Instruction :=
  if i.opcode ≠ .bra then i
  else
    { i with
      imm := Instruction.makeBranchImm i.branchTarget
        (reconvergenceOf cfg (postDominators cfg) pc i) }

theorem annotateReconvergence_ok (hcfg : buildCfg program = .ok cfg) :
    annotateReconvergence program = (.ok (), program.mapIdx (annotated cfg)) := by
  rw [annotateReconvergence, hcfg]
  rfl

theorem annotateReconvergence_error {e : ReconvergenceError}
    (hcfg : buildCfg program = .error e) :
    annotateReconvergence program = (.error e, program) := by
  rw [annotateReconvergence, hcfg]

theorem buildCfg_error (program : List Instruction) : (∃ e, buildCfg program = .error e)
    ↔ ∃ i ∈ program, i.opcode = .bra ∧ program.length ≤ i.branchTarget.toNat := by
  rw [← markLeaders_error, buildCfg]
  rcases markLeaders program with e | l
  · exact ⟨fun _ => ⟨e, rfl⟩, fun _ => ⟨e, rfl⟩⟩
  · constructor <;> rintro ⟨e, he⟩ <;> cases he

/-- The parts of an instruction the graph is drawn from. -/
def flow (i : Instruction) : Opcode × BitVec 16 × Guard := (i.opcode, i.branchTarget, i.guard)

theorem flow_annotated (cfg : Cfg) (pc : Nat) (i : Instruction) :
    flow (annotated cfg pc i) = flow i := by
  by_cases hop : i.opcode = .bra
  · rw [annotated, if_neg (not_not.2 hop)]
    exact congrArg (fun t => (i.opcode, t, i.guard))
      (Instruction.branchTarget_makeBranchImm i i.branchTarget _)
  · rw [annotated, if_pos hop]

/-- Programs that agree on those parts have one graph. -/
theorem buildCfg_congr {q : List Instruction} (hlen : q.length = program.length)
    (hflow : ∀ pc : Nat, (q[pc]?).map flow = (program[pc]?).map flow) :
    buildCfg q = buildCfg program := by
  have hcases : ∀ pc : Nat, (q[pc]? = none ∧ program[pc]? = none)
      ∨ ∃ i j, q[pc]? = some i ∧ program[pc]? = some j ∧ i.opcode = j.opcode
        ∧ i.branchTarget = j.branchTarget ∧ i.guard = j.guard := by
    intro pc
    have h := hflow pc
    rcases hq : q[pc]? with _ | i <;> rcases hp : program[pc]? with _ | j <;> rw [hq, hp] at h
    · exact .inl ⟨rfl, rfl⟩
    · cases h
    · cases h
    · simp only [Option.map_some, flow, Option.some.injEq, Prod.mk.injEq] at h
      exact .inr ⟨i, j, rfl, rfl, h⟩
  have hmark : markLeader q = markLeader program := by
    funext l pc
    rw [markLeader, markLeader, hlen]
    rcases hcases pc with ⟨h1, h2⟩ | ⟨i, j, h1, h2, hop, ht, -⟩
    · rw [h1, h2]
    · have hterm : isTerminator i = isTerminator j := by rw [isTerminator, isTerminator, hop]
      rw [h1, h2]
      simp only [hterm, hop, ht]
  have hsuccs : ∀ cfg, blockSuccs q cfg = blockSuccs program cfg := by
    intro cfg
    funext b
    have hlast : cfg.last q b = cfg.last program b := by rw [Cfg.last, Cfg.last, hlen]
    rw [blockSuccs, blockSuccs, hlast, hlen]
    rcases hcases (cfg.last program b) with ⟨h1, h2⟩ | ⟨i, j, h1, h2, hop, ht, hg⟩
    · rw [h1, h2]
    · simp only [h1, h2, hop, ht, hg]
  rw [buildCfg, buildCfg, markLeaders, markLeaders, hmark, hlen]
  simp only [hsuccs]

theorem annotated_bra {i : Instruction} (hop : i.opcode = .bra) (cfg : Cfg) (pc : Nat) :
    annotated cfg pc i = { i with imm := (annotated cfg pc i).imm }
      ∧ (annotated cfg pc i).branchTarget = i.branchTarget
      ∧ (annotated cfg pc i).reconvergencePc = reconvergenceOf cfg (postDominators cfg) pc i := by
  rw [annotated, if_neg (not_not.2 hop)]
  exact ⟨rfl, Instruction.branchTarget_makeBranchImm i _ _,
    Instruction.reconvergencePc_makeBranchImm i _ _⟩

theorem annotated_annotated (cfg : Cfg) (pc : Nat) (i : Instruction) :
    annotated cfg pc (annotated cfg pc i) = annotated cfg pc i := by
  by_cases hop : i.opcode = .bra
  · have ht := Instruction.branchTarget_makeBranchImm i i.branchTarget
      (reconvergenceOf cfg (postDominators cfg) pc i)
    rw [annotated, annotated, if_neg (not_not.2 hop), if_neg (not_not.2 hop), ht]
    rfl
  · rw [annotated, annotated, if_pos hop, if_pos hop]

/-- Running the pass a second time changes nothing. -/
theorem annotateReconvergence_idem (program : List Instruction) :
    annotateReconvergence (annotateReconvergence program).2 = annotateReconvergence program := by
  rcases hcfg : buildCfg program with e | cfg
  · rw [annotateReconvergence_error hcfg]
    exact annotateReconvergence_error hcfg
  · rw [annotateReconvergence_ok hcfg]
    have hcfg' : buildCfg (program.mapIdx (annotated cfg)) = .ok cfg := by
      rw [← hcfg]
      refine buildCfg_congr List.length_mapIdx fun pc => ?_
      rw [List.getElem?_mapIdx, Option.map_map]
      exact congrArg (fun f => (program[pc]?).map f)
        (funext fun i => flow_annotated cfg pc i)
    rw [annotateReconvergence_ok hcfg', List.mapIdx_mapIdx]
    congr 2
    funext pc
    exact funext fun i => annotated_annotated cfg pc i

/-- The pass fails exactly on a branch out of the program, and then leaves the program as it is.
Otherwise it writes the upper half of branches only: no reconvergence PC where there is no guard,
and where there is one the first PC of the immediate post-dominator of the branch's block, or none
where that is the virtual exit or the exit is out of reach. -/
theorem annotateReconvergence_exact (program : List Instruction) (hlen : program.length ≤ 65535) :
    ((∃ e, (annotateReconvergence program).1 = .error e)
      ↔ ∃ i ∈ program, i.opcode = .bra ∧ program.length ≤ i.branchTarget.toNat)
    ∧ ((∃ e, (annotateReconvergence program).1 = .error e) →
        (annotateReconvergence program).2 = program)
    ∧ ((annotateReconvergence program).1 = .ok () →
        (annotateReconvergence program).2.length = program.length
        ∧ ∀ pc i, program[pc]? = some i →
          ∃ i', (annotateReconvergence program).2[pc]? = some i'
          ∧ (i.opcode ≠ .bra → i' = i)
          ∧ (i.opcode = .bra → i' = { i with imm := i'.imm } ∧ i'.branchTarget = i.branchTarget
            ∧ (i.guard.present = false → i'.reconvergencePc = noReconvergence)
            ∧ (i.guard.present = true → ∃ start, InBlock program start pc
              ∧ (¬Reaches (BlockSucc program) none (some start) →
                  i'.reconvergencePc = noReconvergence)
              ∧ (Reaches (BlockSucc program) none (some start) →
                  ∃ d, Immediate (BlockSucc program) none d (some start) ∧ match d with
                    | some r => r < program.length ∧ i'.reconvergencePc.toNat = r
                    | none => i'.reconvergencePc = noReconvergence))))
    ∧ annotateReconvergence (annotateReconvergence program).2 = annotateReconvergence program := by
  refine ⟨?_, ?_, ?_, annotateReconvergence_idem program⟩
  · rw [← buildCfg_error]
    rcases hcfg : buildCfg program with e | cfg
    · rw [annotateReconvergence_error hcfg]
      exact ⟨fun _ => ⟨e, rfl⟩, fun _ => ⟨e, rfl⟩⟩
    · rw [annotateReconvergence_ok hcfg]
      constructor <;> rintro ⟨e, he⟩ <;> cases he
  · rcases hcfg : buildCfg program with e | cfg
    · rw [annotateReconvergence_error hcfg]
      exact fun _ => rfl
    · rw [annotateReconvergence_ok hcfg]
      rintro ⟨e, he⟩
      cases he
  · rcases hcfg : buildCfg program with e | cfg
    · rw [annotateReconvergence_error hcfg]
      intro h
      cases h
    · rw [annotateReconvergence_ok hcfg]
      have hbuilt := buildCfg_built hcfg
      refine fun _ => ⟨List.length_mapIdx, fun pc i hi => ⟨annotated cfg pc i, ?_, fun hop => ?_,
        fun hop => ?_⟩⟩
      · rw [List.getElem?_mapIdx, hi]
        rfl
      · rw [annotated, if_pos hop]
      · obtain ⟨h1, h2, h3⟩ := annotated_bra hop cfg pc
        refine ⟨h1, h2, fun hg => ?_, fun hg => ?_⟩
        · rw [h3, reconvergenceOf, hg]
          rfl
        · obtain ⟨start, hin⟩ := exists_inBlock (List.getElem?_eq_some_iff.1 hi).1
          obtain ⟨h4, h5⟩ := reconvergenceOf_spec hbuilt hi hop hg hin
          rw [h3]
          refine ⟨start, hin, h4, fun hr => ?_⟩
          obtain ⟨d, hd, hmatch⟩ := h5 hr
          refine ⟨d, hd, ?_⟩
          rcases d with _ | r
          · exact hmatch
          · obtain ⟨hl, hhalf⟩ := hmatch
            refine ⟨hl.1, ?_⟩
            rw [hhalf, BitVec.toNat_ofNat]
            exact Nat.mod_eq_of_lt (by have := hl.1; omega)

/-- A loop that runs while `@p0` holds: its branch rejoins at the loop's exit. -/
def loopProgram : List Instruction :=
  [{ opcode := .setpLtS32, immFlag := true, imm := 16 },
    { opcode := .bra, guard := ⟨true, false, 0⟩, imm := Instruction.makeBranchImm 0 0 },
    { opcode := .exit }]

theorem loopProgram_exact : (annotateReconvergence loopProgram).2.length = loopProgram.length
    ∧ annotateReconvergence (annotateReconvergence loopProgram).2
      = annotateReconvergence loopProgram :=
  have h := annotateReconvergence_exact loopProgram (by decide)
  ⟨(h.2.2.1 (by decide +kernel)).1, h.2.2.2⟩

example : (annotateReconvergence loopProgram).2.map Instruction.reconvergencePc = [0, 2, 0] := by
  decide +kernel

end Annotate

end WarpSim
