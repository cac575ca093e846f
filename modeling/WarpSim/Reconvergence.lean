import WarpSim.BlockSet
import WarpSim.Instruction
import Mathlib.Algebra.Order.BigOperators.Group.List

/-!
# Reconvergence points

The assembler's pass over a decoded program: its basic blocks and their control-flow graph, the
post-dominator sets by iterative dataflow on the reversed graph, and the immediate post-dominator
whose first PC becomes the reconvergence half of a guarded branch.
-/

namespace WarpSim

structure ReconvergenceError where
  pc : Nat := 0
  message : String
  deriving DecidableEq

def isTerminator (i : Instruction) : Bool := i.opcode == .bra || i.opcode == .exit

/-- The control-flow graph of a program. The node `exitNode` is virtual. -/
structure Cfg where
  /-- First PC of each block, ascending. -/
  leaders : List Nat := []
  /-- Block index per PC. -/
  blockOf : List Nat := []
  succs : List (List Nat) := []
  exitNode : Nat := 0

section Build

variable (program : List Instruction)

/-- What one instruction makes the first of a block: its branch target, and the PC after it. -/
def markLeader (isLeader : List Bool) (pc : Nat) : Except ReconvergenceError (List Bool) :=
  match program[pc]? with
  | none => .ok isLeader
  | some i => do
    let isLeader ←
      if i.opcode = .bra then
        if program.length ≤ i.branchTarget.toNat then
          .error { pc := pc, message := "branch target out of range" }
        else .ok (isLeader.set i.branchTarget.toNat true)
      else .ok isLeader
    .ok (if isTerminator i && pc + 1 < program.length then isLeader.set (pc + 1) true else isLeader)

def markLeaders : Except ReconvergenceError (List Bool) :=
  (List.range program.length).foldlM (markLeader program)
    (List.replicate (program.length + 1) false)

/-- Opens a block at a leader and gives the PC its block. -/
def layBlock (isLeader : List Bool) (cfg : Cfg) (pc : Nat) : Cfg :=
  let leaders := if pc = 0 || isLeader.getD pc false then cfg.leaders ++ [pc] else cfg.leaders
  { cfg with leaders := leaders, blockOf := cfg.blockOf ++ [leaders.length - 1] }

/-- The PC of the last instruction of a block. -/
def Cfg.last (cfg : Cfg) (b : Nat) : Nat :=
  (if b + 1 < cfg.exitNode then cfg.leaders.getD (b + 1) 0 else program.length) - 1

def blockSuccs (cfg : Cfg) (b : Nat) : List Nat :=
  let last := cfg.last program b
  let fallthrough :=
    if last + 1 < program.length then cfg.blockOf.getD (last + 1) 0 else cfg.exitNode
  match program[last]? with
  | none => []
  | some i =>
    match i.opcode with
    | .bra =>
      cfg.blockOf.getD i.branchTarget.toNat 0 :: if i.guard.present then [fallthrough] else []
    | .exit => cfg.exitNode :: if i.guard.present then [fallthrough] else []
    | _ => [fallthrough]

def buildCfg : Except ReconvergenceError Cfg := do
  let isLeader ← markLeaders program
  let cfg := (List.range program.length).foldl (layBlock isLeader) {}
  let cfg := { cfg with exitNode := cfg.leaders.length }
  .ok { cfg with succs := (List.range cfg.exitNode).map (blockSuccs program cfg) ++ [[]] }

end Build

section Dataflow

def Cfg.nodes (cfg : Cfg) : Nat := cfg.exitNode + 1

theorem Cfg.exitNode_lt (cfg : Cfg) : cfg.exitNode < cfg.nodes := Nat.lt_succ_self _

/-- `pdom(b) = {b} ∪ ⋂ pdom(s)` over the successors `s` of `b`. -/
def transfer (cfg : Cfg) (pdom : List BlockSet) (b : Nat) : BlockSet :=
  ((cfg.succs.getD b []).foldl (fun (next : BlockSet) s => next.intersect (pdom.getD s {}))
    (.make cfg.nodes true)).insert b

/-- One block's turn in a sweep. -/
def visitBlock (cfg : Cfg) (state : List BlockSet × Bool) (b : Nat) : List BlockSet × Bool :=
  let next := transfer cfg state.1 b
  if next ≠ state.1.getD b {} then (state.1.set b next, true) else state

/-- The body of the `while (changed)` loop. -/
def sweep (cfg : Cfg) (pdom : List BlockSet) : List BlockSet × Bool :=
  (List.range cfg.exitNode).foldl (visitBlock cfg) (pdom, false)

/-- The state of the loop. Each set holds what its block's next turn would leave in it, so a
turn only ever takes members away. -/
structure Descends (cfg : Cfg) (pdom : List BlockSet) : Prop where
  length_eq : pdom.length = cfg.nodes
  shape : ∀ s ∈ pdom, BlockSet.Shape cfg.nodes s
  below : ∀ b < cfg.exitNode, ∀ d, (transfer cfg pdom b).contains d = true →
    (pdom.getD b {}).contains d = true

theorem shape_transfer (cfg : Cfg) (pdom : List BlockSet) (b : Nat) :
    BlockSet.Shape cfg.nodes (transfer cfg pdom b) := by
  have hfold : ∀ (l : List Nat) (s : BlockSet), BlockSet.Shape cfg.nodes s →
      BlockSet.Shape cfg.nodes
        (l.foldl (fun (next : BlockSet) s => next.intersect (pdom.getD s {})) s) := by
    intro l
    induction l with
    | nil => exact fun _ hs => hs
    | cons a l ih => exact fun s hs => ih _ (BlockSet.shape_intersect hs _)
  exact BlockSet.shape_insert (hfold _ _ (BlockSet.shape_make _ true)) b

/-- A block's turn leaves it the block, and what all of its successors have. -/
theorem contains_transfer {cfg : Cfg} (pdom : List BlockSet) {b : Nat} (hb : b < cfg.nodes)
    (d : Nat) : (transfer cfg pdom b).contains d = true ↔ d = b
      ∨ (d < cfg.nodes ∧ ∀ s ∈ cfg.succs.getD b [], (pdom.getD s {}).contains d = true) := by
  have hfold : ∀ (l : List Nat) (s : BlockSet), BlockSet.Shape cfg.nodes s →
      BlockSet.Shape cfg.nodes
        (l.foldl (fun (next : BlockSet) s => next.intersect (pdom.getD s {})) s)
      ∧ ((l.foldl (fun (next : BlockSet) s => next.intersect (pdom.getD s {})) s).contains d = true
        ↔ s.contains d = true ∧ ∀ s ∈ l, (pdom.getD s {}).contains d = true) := by
    intro l
    induction l with
    | nil => exact fun s hs => ⟨hs, by simp⟩
    | cons a l ih =>
      intro s hs
      obtain ⟨h1, h2⟩ := ih _ (BlockSet.shape_intersect hs (pdom.getD a {}))
      refine ⟨h1, ?_⟩
      rw [List.foldl_cons, h2, BlockSet.contains_intersect, Bool.and_eq_true,
        List.forall_mem_cons, and_assoc]
  obtain ⟨hshape, hmem⟩ := hfold (cfg.succs.getD b []) _ (BlockSet.shape_make cfg.nodes true)
  rw [transfer, BlockSet.contains_insert hshape (BlockSet.lt_wordCount hb), Bool.or_eq_true, hmem,
    BlockSet.contains_make_true, decide_eq_true_eq, decide_eq_true_eq, or_comm]

theorem Descends.shape_getD {cfg : Cfg} {pdom : List BlockSet} (h : Descends cfg pdom) {b : Nat}
    (hb : b < cfg.nodes) : BlockSet.Shape cfg.nodes (pdom.getD b {}) := by
  rw [List.getD_eq_getElem _ _ (by rw [h.length_eq]; exact hb)]
  exact h.shape _ (List.getElem_mem _)

def setsWeight (pdom : List BlockSet) : Nat := (pdom.map BlockSet.count).sum

/-- A turn that changes its set takes members away, and leaves the other turns less to keep. -/
theorem descends_set {cfg : Cfg} {pdom : List BlockSet} (h : Descends cfg pdom) {b : Nat}
    (hb : b < cfg.exitNode) (hne : transfer cfg pdom b ≠ pdom.getD b {}) :
    Descends cfg (pdom.set b (transfer cfg pdom b))
      ∧ setsWeight (pdom.set b (transfer cfg pdom b)) < setsWeight pdom := by
  have hbn : b < cfg.nodes := Nat.lt_succ_of_lt hb
  have hlen : b < pdom.length := by rw [h.length_eq]; exact hbn
  have hget : ∀ c, (pdom.set b (transfer cfg pdom b)).getD c {}
      = if c = b then transfer cfg pdom b else pdom.getD c {} := by
    intro c
    rw [List.getD_eq_getElem?_getD, List.getD_eq_getElem?_getD, List.getElem?_set]
    by_cases hc : b = c
    · subst hc
      simp [hlen]
    · simp [hc, Ne.symm hc]
  have hle : ∀ c d, ((pdom.set b (transfer cfg pdom b)).getD c {}).contains d = true →
      (pdom.getD c {}).contains d = true := by
    intro c d hd
    rw [hget] at hd
    split_ifs at hd with hc
    · rw [hc]
      exact h.below b hb d hd
    · exact hd
  have hmono : ∀ c < cfg.exitNode, ∀ d,
      (transfer cfg (pdom.set b (transfer cfg pdom b)) c).contains d = true →
      (transfer cfg pdom c).contains d = true := by
    intro c hc d
    rw [contains_transfer _ (Nat.lt_succ_of_lt hc), contains_transfer _ (Nat.lt_succ_of_lt hc)]
    rintro (rfl | ⟨hd, hs⟩)
    · exact .inl rfl
    · exact .inr ⟨hd, fun s hsmem => hle s d (hs s hsmem)⟩
  refine ⟨⟨by rw [List.length_set, h.length_eq], fun s hs => ?_, fun c hc d hd => ?_⟩, ?_⟩
  · rcases List.mem_or_eq_of_mem_set hs with hs | rfl
    · exact h.shape s hs
    · exact shape_transfer cfg pdom b
  · have hd := hmono c hc d hd
    rw [hget]
    split_ifs with hcb
    · rw [← hcb]
      exact hd
    · exact h.below c hc d hd
  · have hlt := BlockSet.count_lt (shape_transfer cfg pdom b) (h.shape_getD hbn) (h.below b hb) hne
    rw [List.getD_eq_getElem _ _ hlen] at hlt
    have hsplit : pdom = pdom.take b ++ pdom[b] :: pdom.drop (b + 1) := by simp
    rw [setsWeight, setsWeight, List.map_set, List.sum_set, if_pos (by simpa using hlen)]
    conv_rhs => rw [hsplit]
    rw [List.map_append, List.map_cons, List.sum_append, List.sum_cons,
      List.map_take, List.map_drop]
    omega

theorem descends_visits {cfg : Cfg} : ∀ (l : List Nat) (pdom : List BlockSet) (changed : Bool),
    (∀ b ∈ l, b < cfg.exitNode) → Descends cfg pdom →
      Descends cfg (l.foldl (visitBlock cfg) (pdom, changed)).1
      ∧ setsWeight (l.foldl (visitBlock cfg) (pdom, changed)).1 ≤ setsWeight pdom
      ∧ ((l.foldl (visitBlock cfg) (pdom, changed)).2 = true →
          changed = true
            ∨ setsWeight (l.foldl (visitBlock cfg) (pdom, changed)).1 < setsWeight pdom)
      ∧ ((l.foldl (visitBlock cfg) (pdom, changed)).2 = false →
          changed = false ∧ (l.foldl (visitBlock cfg) (pdom, changed)).1 = pdom
          ∧ ∀ b ∈ l, transfer cfg pdom b = pdom.getD b {})
  | [], pdom, changed, _, h => ⟨h, Nat.le_refl _, .inl, fun hc => ⟨hc, rfl, by simp⟩⟩
  | b :: l, pdom, changed, hl, h => by
    obtain ⟨hb, hl⟩ := List.forall_mem_cons.1 hl
    rw [List.foldl_cons, visitBlock]
    split_ifs with hne
    · obtain ⟨hdesc, hlt⟩ := descends_set h hb hne
      obtain ⟨h1, h2, h3, h4⟩ := descends_visits l _ true hl hdesc
      refine ⟨h1, Nat.le_trans h2 (Nat.le_of_lt hlt), fun _ => .inr (Nat.lt_of_le_of_lt h2 hlt),
        fun hf => ?_⟩
      cases (h4 hf).1
    · obtain ⟨h1, h2, h3, h4⟩ := descends_visits l pdom changed hl h
      refine ⟨h1, h2, h3, fun hf => ?_⟩
      obtain ⟨h5, h6, h7⟩ := h4 hf
      exact ⟨h5, h6, List.forall_mem_cons.2 ⟨not_not.1 hne, h7⟩⟩

/-- A sweep keeps the state descending; if it reports a change the state got smaller, and if not
no turn would change anything. -/
theorem descends_sweep {cfg : Cfg} {pdom : List BlockSet} (h : Descends cfg pdom) :
    Descends cfg (sweep cfg pdom).1
      ∧ ((sweep cfg pdom).2 = true → setsWeight (sweep cfg pdom).1 < setsWeight pdom)
      ∧ ((sweep cfg pdom).2 = false → (sweep cfg pdom).1 = pdom
        ∧ ∀ b < cfg.exitNode, transfer cfg pdom b = pdom.getD b {}) := by
  obtain ⟨h1, -, h3, h4⟩ := descends_visits (List.range cfg.exitNode) pdom false
    (fun _ => List.mem_range.1) h
  refine ⟨h1, fun hc => ?_, fun hc => ?_⟩
  · exact (h3 hc).resolve_left Bool.false_ne_true
  · obtain ⟨-, h5, h6⟩ := h4 hc
    exact ⟨h5, fun b hb => h6 b (List.mem_range.2 hb)⟩

/-- The `while (changed)` loop. It ends because a sweep that changes a set shrinks one. -/
def sweeps (cfg : Cfg) (pdom : { pdom : List BlockSet // Descends cfg pdom }) : List BlockSet :=
  match _h : sweep cfg pdom.1 with
  | (next, true) => sweeps cfg ⟨next, by have := (descends_sweep pdom.2).1; rwa [_h] at this⟩
  | (next, false) => next
termination_by setsWeight pdom.1
decreasing_by
  have := (descends_sweep pdom.2).2.1
  rw [_h] at this
  exact this rfl

def initialSets (cfg : Cfg) : List BlockSet :=
  (List.replicate cfg.nodes (.make cfg.nodes true)).set cfg.exitNode
    ((BlockSet.make cfg.nodes false).insert cfg.exitNode)

theorem getD_initialSets (cfg : Cfg) (b : Nat) (hb : b < cfg.nodes) : (initialSets cfg).getD b {}
    = if b = cfg.exitNode then (BlockSet.make cfg.nodes false).insert cfg.exitNode
      else .make cfg.nodes true := by
  rw [initialSets, List.getD_eq_getElem?_getD, List.getElem?_set, List.length_replicate,
    List.getElem?_replicate]
  by_cases h : cfg.exitNode = b
  · subst h
    simp [hb]
  · simp [h, Ne.symm h, hb]

theorem descends_initialSets (cfg : Cfg) : Descends cfg (initialSets cfg) := by
  refine ⟨by rw [initialSets, List.length_set, List.length_replicate], fun s hs => ?_,
    fun b hb d hd => ?_⟩
  · rcases List.mem_or_eq_of_mem_set hs with hs | rfl
    · rw [List.eq_of_mem_replicate hs]
      exact BlockSet.shape_make _ _
    · exact BlockSet.shape_insert (BlockSet.shape_make _ _) _
  · have hbn : b < cfg.nodes := Nat.lt_succ_of_lt hb
    rw [getD_initialSets cfg b hbn, if_neg (Nat.ne_of_lt hb), BlockSet.contains_make_true,
      decide_eq_true_eq]
    rcases (contains_transfer _ hbn d).1 hd with rfl | ⟨hd, -⟩
    · exact hbn
    · exact hd

def postDominators (cfg : Cfg) : List BlockSet :=
  sweeps cfg ⟨initialSets cfg, descends_initialSets cfg⟩

/-- The strict post-dominator whose own set has as many members as there are strict ones; the
virtual exit if none has. -/
def immediatePostDominator (pdom : List BlockSet) (b : Nat) : Nat :=
  let strict := (pdom.getD b {}).erase b
  let wanted := strict.count
  match (List.range strict.size).find? fun d =>
      strict.contains d && (pdom.getD d {}).count == wanted with
  | some d => d
  | none => strict.size - 1

end Dataflow

/-- The reconvergence half of the instruction at `pc`, if it is a branch. -/
def reconvergenceOf (cfg : Cfg) (pdom : List BlockSet) (pc : Nat) (i : Instruction) : BitVec 16 :=
  if i.guard.present then
    let ipdom := immediatePostDominator pdom (cfg.blockOf.getD pc 0)
    if ipdom ≠ cfg.exitNode then BitVec.ofNat 16 (cfg.leaders.getD ipdom 0) else noReconvergence
  else noReconvergence

/-- Writes the reconvergence half of every branch, in place; a failure leaves the program as it
is. -/
def annotateReconvergence (program : List Instruction) :
    Except ReconvergenceError Unit × List Instruction :=
  match buildCfg program with
  | .error e => (.error e, program)
  | .ok cfg =>
    let pdom := postDominators cfg
    (.ok (), program.mapIdx fun pc i =>
      if i.opcode ≠ .bra then i
      else
        { i with imm := Instruction.makeBranchImm i.branchTarget (reconvergenceOf cfg pdom pc i) })

end WarpSim
