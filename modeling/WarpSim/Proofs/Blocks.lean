import WarpSim.ControlFlow
import WarpSim.Reconvergence
import WarpSim.Lib.Check

/-!
# The pass builds the control-flow graph

The marks of the first loop are the leaders, the second loop lists them in order and numbers the
blocks, and the successors of a block's number are the numbers of the blocks control can go to.
-/

namespace WarpSim

section Marks

variable {program : List Instruction}

/-- What a prefix of the program makes a leader, PC 0 apart. -/
def Marked (program : List Instruction) (k pc : Nat) : Prop :=
  ∃ j < k, ∃ i, program[j]? = some i ∧ ((i.opcode = .bra ∧ i.branchTarget.toNat = pc)
    ∨ (isTerminator i = true ∧ pc = j + 1 ∧ j + 1 < program.length))

theorem isTerminator_iff {i : Instruction} :
    isTerminator i = true ↔ i.opcode = .bra ∨ i.opcode = .exit := by
  rw [isTerminator, Bool.or_eq_true, beq_iff_eq, beq_iff_eq]

theorem getD_set_true {l : List Bool} {a : Nat} (ha : a < l.length) (pc : Nat) :
    (l.set a true).getD pc false = true ↔ pc = a ∨ l.getD pc false = true := by
  rw [List.getD_eq_getElem?_getD, List.getElem?_set, List.getD_eq_getElem?_getD]
  by_cases h : a = pc
  · subst h
    simp [ha]
  · simp [h, Ne.symm h]

/-- One instruction's marks. -/
theorem markLeader_eq {l : List Bool} {pc : Nat} {i : Instruction} (hi : program[pc]? = some i)
    (hl : l.length = program.length + 1) :
    match markLeader program l pc with
    | .error _ => i.opcode = .bra ∧ program.length ≤ i.branchTarget.toNat
    | .ok l' => (i.opcode = .bra → i.branchTarget.toNat < program.length)
      ∧ l'.length = program.length + 1
      ∧ ∀ q, l'.getD q false = true ↔ l.getD q false = true
        ∨ (i.opcode = .bra ∧ i.branchTarget.toNat = q)
        ∨ (isTerminator i = true ∧ q = pc + 1 ∧ pc + 1 < program.length) := by
  have hterm : ∀ l₁ : List Bool, l₁.length = program.length + 1 → ∀ q,
      ((if isTerminator i && pc + 1 < program.length then l₁.set (pc + 1) true else l₁).getD q false
        = true ↔ l₁.getD q false = true
          ∨ (isTerminator i = true ∧ q = pc + 1 ∧ pc + 1 < program.length)) := by
    intro l₁ h₁ q
    split_ifs with hc
    · rw [Bool.and_eq_true, decide_eq_true_eq] at hc
      rw [getD_set_true (by omega), or_comm]
      simp [hc]
    · rw [Bool.and_eq_true, decide_eq_true_eq] at hc
      constructor
      · exact .inl
      · rintro (h | ⟨h1, -, h2⟩)
        · exact h
        · exact absurd ⟨h1, h2⟩ hc
  have hlen : ∀ l₁ : List Bool, l₁.length = program.length + 1 →
      (if isTerminator i && pc + 1 < program.length then l₁.set (pc + 1) true else l₁).length
        = program.length + 1 := by
    intro l₁ h₁
    split_ifs
    · rw [List.length_set, h₁]
    · exact h₁
  rw [markLeader, hi]
  by_cases hbra : i.opcode = .bra
  · by_cases hout : program.length ≤ i.branchTarget.toNat
    · simp only [if_pos hbra, if_pos hout, Check.error_bind]
      exact ⟨hbra, hout⟩
    · simp only [if_pos hbra, if_neg hout, Check.ok_bind]
      have hset : (l.set i.branchTarget.toNat true).length = program.length + 1 := by
        rw [List.length_set, hl]
      refine ⟨fun _ => Nat.lt_of_not_le hout, hlen _ hset, fun q => ?_⟩
      rw [hterm _ hset, getD_set_true (by omega)]
      constructor
      · rintro ((rfl | h) | h)
        · exact .inr (.inl ⟨hbra, rfl⟩)
        · exact .inl h
        · exact .inr (.inr h)
      · rintro (h | ⟨-, h⟩ | h)
        · exact .inl (.inr h)
        · exact .inl (.inl h.symm)
        · exact .inr h
  · simp only [if_neg hbra, Check.ok_bind]
    refine ⟨fun h => absurd h hbra, hlen _ hl, fun q => ?_⟩
    rw [hterm _ hl]
    simp [hbra]

/-- The first loop stops at a branch out of the program, and otherwise marks what it should. -/
theorem markLeaders_prefix (program : List Instruction) : ∀ k ≤ program.length,
    match (List.range k).foldlM (markLeader program)
      (List.replicate (program.length + 1) false) with
    | .error _ => ∃ i ∈ program, i.opcode = .bra ∧ program.length ≤ i.branchTarget.toNat
    | .ok l => l.length = program.length + 1
      ∧ (∀ j < k, ∀ i, program[j]? = some i → i.opcode = .bra →
          i.branchTarget.toNat < program.length)
      ∧ ∀ pc, l.getD pc false = true ↔ Marked program k pc
  | 0, _ => by
    refine ⟨by simp, fun j hj => absurd hj (Nat.not_lt_zero j), fun pc => ?_⟩
    rw [List.getD_eq_getElem?_getD, List.getElem?_getD_replicate_default_eq]
    simp [Marked]
  | k + 1, hk => by
    have ih := markLeaders_prefix program k (by omega)
    have hi : program[k]? = some program[k] := List.getElem?_eq_getElem (by omega)
    rw [List.range_succ, List.foldlM_append]
    rcases hfold : (List.range k).foldlM (markLeader program)
      (List.replicate (program.length + 1) false) with e | l <;> rw [hfold] at ih
    · exact ih
    · obtain ⟨hlen, htargets, hmarks⟩ := ih
      have hstep := markLeader_eq hi hlen
      simp only [List.foldlM_cons, List.foldlM_nil, Check.ok_bind]
      rcases hmark : markLeader program l k with e | l' <;> rw [hmark] at hstep
      · exact ⟨program[k], List.getElem_mem _, hstep⟩
      · obtain ⟨htarget, hlen', hmarks'⟩ := hstep
        refine ⟨hlen', fun j hj i hji => ?_, fun pc => ?_⟩
        · rcases Nat.lt_succ_iff_lt_or_eq.1 hj with hj | rfl
          · exact htargets j hj i hji
          · rw [hi] at hji
            cases hji
            exact htarget
        · rw [hmarks', hmarks]
          constructor
          · rintro (⟨j, hj, i, h⟩ | h)
            · exact ⟨j, Nat.lt_succ_of_lt hj, i, h⟩
            · exact ⟨k, Nat.lt_succ_self k, _, hi, h⟩
          · rintro ⟨j, hj, i, hji, h⟩
            rcases Nat.lt_succ_iff_lt_or_eq.1 hj with hj | rfl
            · exact .inl ⟨j, hj, i, hji, h⟩
            · rw [hi] at hji
              cases hji
              exact .inr h

/-- The pass fails exactly on a branch out of the program. -/
theorem markLeaders_error (program : List Instruction) :
    (∃ e, markLeaders program = .error e)
      ↔ ∃ i ∈ program, i.opcode = .bra ∧ program.length ≤ i.branchTarget.toNat := by
  have h := markLeaders_prefix program program.length (Nat.le_refl _)
  rw [markLeaders]
  rcases hfold : (List.range program.length).foldlM (markLeader program)
    (List.replicate (program.length + 1) false) with e | l <;> rw [hfold] at h
  · exact ⟨fun _ => h, fun _ => ⟨e, rfl⟩⟩
  · obtain ⟨-, htargets, -⟩ := h
    constructor
    · rintro ⟨e, he⟩
      cases he
    · rintro ⟨i, hi, hbra, hout⟩
      obtain ⟨j, hj⟩ := List.mem_iff_getElem?.1 hi
      have hlt := (List.getElem?_eq_some_iff.1 hj).1
      have := htargets j hlt i hj hbra
      omega

theorem markLeaders_ok {program : List Instruction} {l : List Bool}
    (h : markLeaders program = .ok l) :
    (∀ i ∈ program, i.opcode = .bra → i.branchTarget.toNat < program.length)
      ∧ ∀ pc < program.length,
        ((decide (pc = 0) || l.getD pc false) = true ↔ IsLeader program pc) := by
  have hp := markLeaders_prefix program program.length (Nat.le_refl _)
  rw [markLeaders] at h
  rw [h] at hp
  obtain ⟨-, htargets, hmarks⟩ := hp
  refine ⟨fun i hi hbra => ?_, fun pc hpc => ?_⟩
  · obtain ⟨j, hj⟩ := List.mem_iff_getElem?.1 hi
    exact htargets j (List.getElem?_eq_some_iff.1 hj).1 i hj hbra
  · rw [Bool.or_eq_true, decide_eq_true_eq, hmarks]
    constructor
    · rintro (h0 | ⟨j, -, i, hj, ⟨hbra, ht⟩ | ⟨hterm, rfl, -⟩⟩)
      · exact ⟨hpc, .inl h0⟩
      · exact ⟨hpc, .inr (.inl ⟨i, List.mem_of_getElem? hj, hbra, ht⟩)⟩
      · exact ⟨hpc, .inr (.inr ⟨j, i, hj, isTerminator_iff.1 hterm, rfl⟩)⟩
    · rintro ⟨-, h0 | ⟨i, hi, hbra, ht⟩ | ⟨k, i, hk, hterm, rfl⟩⟩
      · exact .inl h0
      · obtain ⟨j, hj⟩ := List.mem_iff_getElem?.1 hi
        exact .inr ⟨j, (List.getElem?_eq_some_iff.1 hj).1, i, hj, .inl ⟨hbra, ht⟩⟩
      · exact .inr ⟨k, by omega, i, hk, .inr ⟨isTerminator_iff.2 hterm, rfl, hpc⟩⟩

end Marks

section Blocks

variable {program : List Instruction} {start start' pc : Nat}

theorem inBlock_self (h : IsLeader program start) : InBlock program start start :=
  ⟨h, Nat.le_refl _, h.1, fun _ h1 h2 => absurd h2 (Nat.not_le_of_lt h1)⟩

/-- Every instruction is in a block. -/
theorem exists_inBlock : ∀ {pc : Nat}, pc < program.length → ∃ start, InBlock program start pc
  | 0, h => ⟨0, inBlock_self ⟨h, .inl rfl⟩⟩
  | pc + 1, h => by
    by_cases hl : IsLeader program (pc + 1)
    · exact ⟨pc + 1, inBlock_self hl⟩
    · obtain ⟨start, hin⟩ := exists_inBlock (show pc < program.length by omega)
      refine ⟨start, hin.leader, Nat.le_succ_of_le hin.le, h, fun k h1 h2 => ?_⟩
      rcases Nat.le_succ_iff.1 h2 with h2 | rfl
      · exact hin.first k h1 h2
      · exact hl

theorem InBlock.unique (h : InBlock program start pc) (h' : InBlock program start' pc) :
    start = start' := by
  rcases Nat.lt_trichotomy start start' with hlt | rfl | hlt
  · exact absurd h'.leader (h.first _ hlt h'.le)
  · rfl
  · exact absurd h.leader (h'.first _ hlt h.le)

/-- A `bra` and an `exit` end their block. -/
theorem endsBlock_of_terminator {i : Instruction} (hi : program[pc]? = some i)
    (hterm : i.opcode = .bra ∨ i.opcode = .exit) : EndsBlock program pc := by
  have hpc := (List.getElem?_eq_some_iff.1 hi).1
  rcases Nat.lt_or_eq_of_le (Nat.succ_le_of_lt hpc) with h | h
  · exact .inr ⟨h, .inr (.inr ⟨pc, i, hi, hterm, rfl⟩)⟩
  · exact .inl h

/-- A block has one last instruction. -/
theorem InBlock.end_unique {pc' : Nat} (h : InBlock program start pc)
    (he : EndsBlock program pc) (h' : InBlock program start pc') (he' : EndsBlock program pc') :
    pc = pc' := by
  have hle : ∀ {p q : Nat}, InBlock program start p → EndsBlock program p →
      InBlock program start q → q ≤ p := by
    intro p q hp hep hq
    by_contra hc
    rcases hep with hep | hep
    · have := hq.lt
      omega
    · exact hq.first (p + 1) (by have := hp.le; omega) (by omega) hep
  exact Nat.le_antisymm (hle h' he' h) (hle h he h')

/-- Control goes from a block to the beginning of one, or to the end. -/
theorem blockSucc_leader {next : Option Nat} (h : BlockSucc program (some start) next) :
    next = none ∨ ∃ pc, next = some pc ∧ IsLeader program pc := by
  obtain ⟨pc, hin, hend, hsucc⟩ := h
  have hfall : atPc program (pc + 1) = none
      ∨ ∃ q, atPc program (pc + 1) = some q ∧ IsLeader program q := by
    rw [atPc]
    split_ifs with hlt
    · rcases hend with hend | hend
      · omega
      · exact .inr ⟨_, rfl, hend⟩
    · exact .inl rfl
  obtain ⟨i, hi, -⟩ := id hsucc
  by_cases hbra : i.opcode = .bra
  · rcases (succ_bra hi hbra).1 hsucc with rfl | ⟨-, rfl⟩
    · rw [atPc]
      split_ifs with hlt
      · exact .inr ⟨_, rfl, hlt, .inr (.inl ⟨i, List.mem_of_getElem? hi, hbra, rfl⟩)⟩
      · exact .inl rfl
    · exact hfall
  · by_cases hexit : i.opcode = .exit
    · rcases (succ_exit hi hexit).1 hsucc with rfl | ⟨-, rfl⟩
      · exact .inl rfl
      · exact hfall
    · rw [(succ_other hi hbra hexit).1 hsucc]
      exact hfall

end Blocks

section Layout

variable {program : List Instruction} {lead : Nat → Bool}

/-- The leaders below `n` around one of them. -/
theorem filter_range_split {start n : Nat} (h : start < n) (hl : lead start = true) :
    (List.range n).filter lead = (List.range start).filter lead
      ++ start :: ((List.range (n - (start + 1))).map (start + 1 + ·)).filter lead := by
  obtain ⟨k, rfl⟩ := Nat.exists_eq_add_of_le (Nat.succ_le_of_lt h)
  rw [Nat.add_sub_cancel_left, List.range_add, List.filter_append, List.range_succ,
    List.filter_append, List.append_assoc]
  congr 1
  rw [List.filter_cons_of_pos hl]
  rfl

theorem layBlocks_eq (isLeader : List Bool)
    (hlead : ∀ pc, lead pc = (decide (pc = 0) || isLeader.getD pc false)) : ∀ k,
    (List.range k).foldl (layBlock isLeader) {} =
      { leaders := (List.range k).filter lead
        blockOf := (List.range k).map fun pc => ((List.range (pc + 1)).filter lead).length - 1 }
  | 0 => rfl
  | k + 1 => by
    have hleaders : (if decide (k = 0) || isLeader.getD k false
        then (List.range k).filter lead ++ [k] else (List.range k).filter lead)
        = (List.range (k + 1)).filter lead := by
      rw [← hlead, List.range_succ, List.filter_append]
      cases h : lead k <;> simp [h]
    have hmap : ∀ f : Nat → Nat, (List.range (k + 1)).map f = (List.range k).map f ++ [f k] := by
      intro f
      rw [List.range_succ, List.map_append]
      rfl
    rw [List.range_succ, List.foldl_append, layBlocks_eq isLeader hlead k]
    simp only [List.foldl_cons, List.foldl_nil, layBlock]
    rw [hleaders, ← List.range_succ, hmap]

end Layout

section Graph

/-- The control-flow graph of a program whose branches stay inside it. -/
structure Built (program : List Instruction) (cfg : Cfg) : Prop where
  targets : ∀ i ∈ program, i.opcode = .bra → i.branchTarget.toNat < program.length
  exitNode : cfg.exitNode = cfg.leaders.length
  mem_leaders : ∀ pc, pc ∈ cfg.leaders ↔ IsLeader program pc
  sorted : cfg.leaders.Pairwise (· < ·)
  blockOf : ∀ start pc, InBlock program start pc → cfg.blockOf.getD pc 0 < cfg.exitNode
    ∧ cfg.leaders.getD (cfg.blockOf.getD pc 0) 0 = start
  succs : ∀ b, cfg.succs.getD b [] = if b < cfg.exitNode then blockSuccs program cfg b else []

theorem buildCfg_built {program : List Instruction} {cfg : Cfg}
    (h : buildCfg program = .ok cfg) : Built program cfg := by
  rw [buildCfg, Check.bind_eq_ok] at h
  obtain ⟨isLeader, hmark, h⟩ := h
  obtain ⟨htargets, hlead⟩ := markLeaders_ok hmark
  set lead : Nat → Bool := fun pc => decide (pc = 0) || isLeader.getD pc false with hdef
  rw [layBlocks_eq isLeader (show ∀ pc, lead pc = _ from fun pc => rfl)] at h
  simp only [Except.ok.injEq] at h
  subst h
  refine ⟨htargets, rfl, fun pc => ?_, ?_, ?_, ?_⟩
  · rw [List.mem_filter, List.mem_range]
    constructor
    · rintro ⟨h1, h2⟩
      exact (hlead pc h1).1 h2
    · intro h
      exact ⟨h.1, (hlead pc h.1).2 h⟩
  · exact List.pairwise_lt_range.filter lead
  · intro start pc hin
    have hls : lead start = true := (hlead start hin.leader.1).2 hin.leader
    have htail : ((List.range (pc + 1 - (start + 1))).map (start + 1 + ·)).filter lead = [] := by
      rw [List.filter_eq_nil_iff]
      intro k hk hl
      obtain ⟨j, hj, rfl⟩ := List.mem_map.1 hk
      have hj := List.mem_range.1 hj
      have hlt := hin.lt
      exact hin.first (start + 1 + j) (by omega) (by omega)
        ((hlead _ (by omega)).1 hl)
    have hblock : ((List.range program.length).map fun pc =>
        ((List.range (pc + 1)).filter lead).length - 1).getD pc 0
          = ((List.range start).filter lead).length := by
      rw [List.getD_eq_getElem _ _ (by simpa using hin.lt), List.getElem_map, List.getElem_range,
        filter_range_split (Nat.lt_succ_of_le hin.le) hls, htail, List.length_append]
      simp
    simp only [hblock]
    rw [filter_range_split hin.leader.1 hls]
    refine ⟨by simp, ?_⟩
    rw [List.getD_eq_getElem?_getD, List.getElem?_append_right (Nat.le_refl _)]
    simp
  · intro b
    rw [List.getD_eq_getElem?_getD]
    split_ifs with hb
    · rw [List.getElem?_append_left (by simpa using hb), List.getElem?_map,
        List.getElem?_range hb]
      rfl
    · rw [List.getElem?_append_right (by simpa using hb)]
      rcases b - _ with _ | _ <;> rfl

/-- The vertex a block's number stands for: its first PC, or the end. -/
def vertex (cfg : Cfg) (b : Nat) : Option Nat :=
  if b < cfg.exitNode then some (cfg.leaders.getD b 0) else none

variable {program : List Instruction} {cfg : Cfg}

theorem vertex_exit (cfg : Cfg) : vertex cfg cfg.exitNode = none := if_neg (Nat.lt_irrefl _)

namespace Built

variable (h : Built program cfg) {b c : Nat}

include h

theorem leader_getD (hb : b < cfg.exitNode) : IsLeader program (cfg.leaders.getD b 0) := by
  have hlen : b < cfg.leaders.length := by rw [← h.exitNode]; exact hb
  rw [← h.mem_leaders, List.getD_eq_getElem _ _ hlen]
  exact List.getElem_mem _

theorem exists_index {pc : Nat} (hl : IsLeader program pc) :
    ∃ b < cfg.exitNode, cfg.leaders.getD b 0 = pc := by
  obtain ⟨b, hb, hpc⟩ := List.mem_iff_getElem.1 ((h.mem_leaders pc).2 hl)
  exact ⟨b, by rw [h.exitNode]; exact hb, by rw [List.getD_eq_getElem _ _ hb, hpc]⟩

/-- Blocks are numbered in the order of their first PCs. -/
theorem getD_lt (hlt : b < c) (hc : c < cfg.exitNode) :
    cfg.leaders.getD b 0 < cfg.leaders.getD c 0 := by
  have hlen : c < cfg.leaders.length := by rw [← h.exitNode]; exact hc
  rw [List.getD_eq_getElem _ _ (by omega), List.getD_eq_getElem _ _ hlen]
  exact List.pairwise_iff_getElem.1 h.sorted b c (by omega) hlen hlt

theorem getD_le (hle : b ≤ c) (hc : c < cfg.exitNode) :
    cfg.leaders.getD b 0 ≤ cfg.leaders.getD c 0 := by
  rcases Nat.lt_or_eq_of_le hle with hlt | rfl
  · exact Nat.le_of_lt (h.getD_lt hlt hc)
  · exact Nat.le_refl _

theorem vertex_inj (hb : b ≤ cfg.exitNode) (hc : c ≤ cfg.exitNode)
    (heq : vertex cfg b = vertex cfg c) : b = c := by
  rw [vertex, vertex] at heq
  split_ifs at heq with hb' hc' hc'
  · simp only [Option.some.injEq] at heq
    rcases Nat.lt_trichotomy b c with hlt | heq' | hlt
    · have := h.getD_lt hlt hc'
      omega
    · exact heq'
    · have := h.getD_lt hlt hb'
      omega
  · omega

/-- The number of a block stands for its first PC. -/
theorem vertex_blockOf {start pc : Nat} (hin : InBlock program start pc) :
    vertex cfg (cfg.blockOf.getD pc 0) = some start := by
  obtain ⟨h1, h2⟩ := h.blockOf start pc hin
  rw [vertex, if_pos h1, h2]

/-- `last` is the last instruction of the block. -/
theorem last_spec (hb : b < cfg.exitNode) :
    InBlock program (cfg.leaders.getD b 0) (cfg.last program b)
      ∧ EndsBlock program (cfg.last program b) := by
  have hl := h.leader_getD hb
  rw [Cfg.last]
  split_ifs with hnext
  · have hl' := h.leader_getD hnext
    have hlt := h.getD_lt (Nat.lt_add_one b) hnext
    have hsucc : cfg.leaders.getD (b + 1) 0 - 1 + 1 = cfg.leaders.getD (b + 1) 0 := by omega
    refine ⟨⟨hl, by omega, by have := hl'.1; omega, fun k h1 h2 hk => ?_⟩,
      .inr (by rw [hsucc]; exact hl')⟩
    obtain ⟨c, hc, rfl⟩ := h.exists_index hk
    rcases Nat.lt_or_ge b c with hbc | hbc
    · have := h.getD_le (b := b + 1) hbc hc
      omega
    · have := h.getD_le hbc hb
      omega
  · have hn := hl.1
    refine ⟨⟨hl, by omega, by omega, fun k h1 h2 hk => ?_⟩, .inl (by omega)⟩
    obtain ⟨c, hc, rfl⟩ := h.exists_index hk
    have := h.getD_le (b := c) (c := b) (by omega) hb
    omega

/-- The successors of a block's number stand for the blocks control can go to. -/
theorem mem_succs (hb : b < cfg.exitNode) (s : Nat) : s ∈ cfg.succs.getD b []
    ↔ s ≤ cfg.exitNode ∧ BlockSucc program (some (cfg.leaders.getD b 0)) (vertex cfg s) := by
  obtain ⟨hin, hend⟩ := h.last_spec hb
  have hsucc : BlockSucc program (some (cfg.leaders.getD b 0)) (vertex cfg s)
      ↔ Succ program (some (cfg.last program b)) (vertex cfg s) := by
    constructor
    · rintro ⟨pc, hpc, hpe, hs⟩
      rwa [hin.end_unique hend hpc hpe]
    · exact fun hs => ⟨_, hin, hend, hs⟩
  obtain ⟨i, hi⟩ : ∃ i, program[cfg.last program b]? = some i :=
    ⟨_, List.getElem?_eq_getElem hin.lt⟩
  set fall := if cfg.last program b + 1 < program.length
    then cfg.blockOf.getD (cfg.last program b + 1) 0 else cfg.exitNode with hfall
  have hfallv : fall ≤ cfg.exitNode ∧ vertex cfg fall = atPc program (cfg.last program b + 1) := by
    rw [hfall, atPc]
    split_ifs with hlt
    · have hl : IsLeader program (cfg.last program b + 1) := by
        rcases hend with hend | hend
        · omega
        · exact hend
      exact ⟨Nat.le_of_lt (h.blockOf _ _ (inBlock_self hl)).1, h.vertex_blockOf (inBlock_self hl)⟩
    · exact ⟨Nat.le_refl _, vertex_exit cfg⟩
  have hiff : ∀ {t : Nat} {v : Option Nat}, t ≤ cfg.exitNode → vertex cfg t = v →
      (s = t ↔ s ≤ cfg.exitNode ∧ vertex cfg s = v) := by
    rintro t v ht rfl
    exact ⟨fun heq => ⟨heq ▸ ht, by rw [heq]⟩, fun heq => h.vertex_inj heq.1 ht heq.2⟩
  have hiffFall := hiff hfallv.1 hfallv.2
  have hiffExit := hiff (Nat.le_refl _) (vertex_exit cfg)
  have hcons : ∀ t : Nat, s ∈ t :: (if i.guard.present then [fall] else [])
      ↔ s = t ∨ (i.guard.present = true ∧ s = fall) := by
    intro t
    split_ifs with hg <;> simp [hg]
  rw [h.succs, if_pos hb, blockSuccs, hsucc]
  simp only [hi, ← hfall]
  split
  case h_1 hop =>
    have hlt := h.targets i (List.mem_of_getElem? hi) hop
    have hl : IsLeader program i.branchTarget.toNat :=
      ⟨hlt, .inr (.inl ⟨i, List.mem_of_getElem? hi, hop, rfl⟩)⟩
    have hv : vertex cfg (cfg.blockOf.getD i.branchTarget.toNat 0)
        = atPc program i.branchTarget.toNat := by
      rw [h.vertex_blockOf (inBlock_self hl), atPc, if_pos hlt]
    rw [hcons, hiff (Nat.le_of_lt (h.blockOf _ _ (inBlock_self hl)).1) hv, hiffFall,
      succ_bra hi hop]
    tauto
  case h_2 hop =>
    rw [hcons, hiffExit, hiffFall, succ_exit hi hop]
    tauto
  case h_3 hbra hexit =>
    rw [List.mem_singleton, hiffFall, succ_other hi hbra hexit]

end Built

end Graph

end WarpSim
