import WarpSim.Proofs.Alone

/-!
# Running a lane alone

One rule for each kind of instruction, and one for a stretch of instructions that only change
registers. A rule turns what a lane comes to from one pc into what it comes to from the next.
-/

namespace WarpSim

section Instructions

/-- An instruction on three registers. -/
def rrr (opcode : Opcode) (dst src0 src1 : BitVec 8) : Instruction :=
  { opcode := opcode, dst := dst, src0 := src0, src1 := src1 }

/-- An instruction on a register and an immediate, or an access at an offset. -/
def rri (opcode : Opcode) (dst src0 : BitVec 8) (imm : Word) : Instruction :=
  { opcode := opcode, dst := dst, src0 := src0, immFlag := true, imm := imm }

def bra (target : Pc) : Instruction :=
  { opcode := .bra, imm := Instruction.makeBranchImm target noReconvergence }

/-- `@p bra target`. -/
def braIf (pred : BitVec 8) (target reconvergence : Pc) : Instruction :=
  { opcode := .bra, guard := ⟨true, false, pred⟩
    imm := Instruction.makeBranchImm target reconvergence }

/-- `@!p bra target`. -/
def braUnless (pred : BitVec 8) (target reconvergence : Pc) : Instruction :=
  { opcode := .bra, guard := ⟨true, true, pred⟩
    imm := Instruction.makeBranchImm target reconvergence }

def exitIf (pred : BitVec 8) : Instruction := { opcode := .exit, guard := ⟨true, false, pred⟩ }

/-- `@!p exit`. -/
def exitUnless (pred : BitVec 8) : Instruction := { opcode := .exit, guard := ⟨true, true, pred⟩ }

def stGlobal (src0 src1 : BitVec 8) : Instruction :=
  { opcode := .stGlobal, src0 := src0, src1 := src1, immFlag := true }

def stShared (src0 src1 : BitVec 8) : Instruction :=
  { opcode := .stShared, src0 := src0, src1 := src1, immFlag := true }

def barSync : Instruction := { opcode := .barSync }

end Instructions

namespace LaneState

section Quiet

variable (F : FloatOps) (ctx : LaneContext) (lane : Nat) (params : List Word)

/-- An instruction that only changes registers, in a launch with so many parameters. -/
def quiet (arity : Nat) (i : Instruction) : Bool :=
  !i.guard.present &&
    (isAluOpcode i.opcode || (i.opcode == .ldParam && decide (i.imm.toNat < arity)))

def quietStep (s : LaneState) (i : Instruction) : LaneState :=
  if i.opcode = .ldParam then s.write i.dst (params.getD i.imm.toNat 0)
  else s.executeAlu F i lane ctx

/-- The registers after a stretch of quiet instructions. -/
def line (is : List Instruction) (s : LaneState) : LaneState :=
  is.foldl (quietStep F ctx lane params) s

variable {F ctx lane params}

theorem quietStep_moveTo (s : LaneState) (pc : Pc) (i : Instruction) :
    quietStep F ctx lane params (s.moveTo pc) i = (quietStep F ctx lane params s i).moveTo pc := by
  rw [quietStep, quietStep, executeAlu, executeAlu]
  split_ifs <;> rfl

theorem line_moveTo (is : List Instruction) (s : LaneState) (pc : Pc) :
    line F ctx lane params is (s.moveTo pc) = (line F ctx lane params is s).moveTo pc := by
  induction is generalizing s with
  | nil => rfl
  | cons i is ih =>
    rw [line, List.foldl_cons, quietStep_moveTo]
    exact ih _

end Quiet

section Rules

variable {F : FloatOps} {ctx : LaneContext} {program : List Instruction} {lane : Nat}
  {fp : Footprint} {outcome : Pc → Bool} {Q : LaneState × BlockMemory → Prop} {s : LaneState}
  {μ : BlockMemory} {pc : Pc} {i : Instruction}

theorem guardHolds_of_absent (hg : i.guard.present = false) : s.guardHolds i = true := by
  rw [guardHolds, hg]
  rfl

theorem guardHolds_of_present (hg : i.guard.present = true) :
    s.guardHolds i = (s.predicates i.guard.pred != i.guard.negate) := by
  rw [guardHolds, hg]
  rfl

/-- One instruction, if it is allowed and the lane's step is as given. -/
theorem leadsTo_step {t : LaneState} {μ' : BlockMemory} (hpc : s.pc = some pc)
    (hi : program[pc.toNat]? = some i)
    (hmem : s.guardHolds i = true → Warp.isMemoryOpcode i.opcode = true →
      Warp.accessSpace i.opcode ≠ .param →
        if Warp.isStore i.opcode then fp.stores (Warp.accessSpace i.opcode) (s.address i)
        else fp.Sees (Warp.accessSpace i.opcode) (s.address i))
    (hbra : i.opcode = .bra → i.guard.present = true →
      MeetsBefore program pc i ∨ s.guardHolds i = outcome pc)
    (hstep : (if s.guardHolds i then s.execute F BlockMemory.port ctx i pc lane μ
      else some (s.moveTo (pc + 1), μ)) = some (t, μ'))
    (h : LeadsTo (Alone F ctx program lane fp outcome) Q (t, μ')) :
    LeadsTo (Alone F ctx program lane fp outcome) Q (s, μ) := by
  have hsame : ∀ pc' j, s.pc = some pc' → program[pc'.toNat]? = some j → pc' = pc ∧ j = i := by
    intro pc' j hpc' hj
    rw [hpc, Option.some.injEq] at hpc'
    subst hpc'
    rw [hi, Option.some.injEq] at hj
    exact ⟨rfl, hj.symm⟩
  refine .step ⟨⟨fun pc' j hpc' hj => ?_, fun pc' j hpc' hj => ?_⟩, ?_⟩ h
  · obtain ⟨rfl, rfl⟩ := hsame pc' j hpc' hj
    exact hmem
  · obtain ⟨rfl, rfl⟩ := hsame pc' j hpc' hj
    exact hbra
  · exact (Warp.step_at hpc hi μ).trans hstep

theorem leadsTo_quiet {arity : Nat} (hpc : s.pc = some pc) (hi : program[pc.toNat]? = some i)
    (hq : quiet arity i = true) (harity : arity ≤ μ.params.length)
    (h : LeadsTo (Alone F ctx program lane fp outcome) Q
      ((quietStep F ctx lane μ.params s i).moveTo (pc + 1), μ)) :
    LeadsTo (Alone F ctx program lane fp outcome) Q (s, μ) := by
  rw [quiet, Bool.and_eq_true_iff, Bool.not_eq_true'] at hq
  obtain ⟨hg, hq⟩ := hq
  have hnot : i.opcode ≠ .bra := by
    intro hop
    simp [hop, isAluOpcode] at hq
  refine leadsTo_step hpc hi (fun _ hmem hspace => ?_) (fun hop => absurd hop hnot) ?_ h
  · rcases Bool.or_eq_true_iff.1 hq with hop | hop
    · cases hop' : i.opcode <;> rw [hop'] at hop hmem <;> cases hop <;> cases hmem
    · rw [Bool.and_eq_true_iff, beq_iff_eq] at hop
      rw [hop.1] at hspace
      exact absurd rfl hspace
  · rw [guardHolds_of_absent hg, if_pos rfl, quietStep]
    rcases Bool.or_eq_true_iff.1 hq with hop | hop
    · rw [execute_alu F _ ctx hop, if_neg (fun he => by rw [he] at hop; cases hop)]
    · rw [Bool.and_eq_true_iff, beq_iff_eq, decide_eq_true_eq] at hop
      obtain ⟨hop, hlt⟩ := hop
      have hspace : Warp.accessSpace i.opcode = .param := by rw [hop]; rfl
      have hstore : Warp.isStore i.opcode = false := by rw [hop]; rfl
      have hload : ¬μ.Faults .param i.imm := not_not.2 (Nat.lt_of_lt_of_le hlt harity)
      rw [execute_memory F _ ctx (by rw [hop]; rfl), if_pos hop, access, hstore,
        if_neg Bool.false_ne_true, address, if_pos hspace, hspace]
      simp only [BlockMemory.port, BlockMemory.load_ok hload]
      rfl

/-- A stretch of instructions that only change registers. -/
theorem leadsTo_line (pc n arity : Nat) (hpc : s.pc = some (BitVec.ofNat 16 pc))
    (hlen : ((program.drop pc).take n).length = n) (hlt : pc + n < 2 ^ 16)
    (hq : ((program.drop pc).take n).all (quiet arity) = true) (harity : arity ≤ μ.params.length)
    (h : LeadsTo (Alone F ctx program lane fp outcome) Q
      ((line F ctx lane μ.params ((program.drop pc).take n) s).moveTo (BitVec.ofNat 16 (pc + n)),
        μ)) :
    LeadsTo (Alone F ctx program lane fp outcome) Q (s, μ) := by
  induction n generalizing pc s with
  | zero =>
    rw [List.take_zero] at h
    have hs : s.moveTo (BitVec.ofNat 16 pc) = s := by
      rw [moveTo, ← hpc]
    rw [line, List.foldl_nil, Nat.add_zero, hs] at h
    exact h
  | succ n ih =>
    rcases hdrop : program.drop pc with _ | ⟨i, rest⟩
    · rw [hdrop] at hlen
      cases hlen
    · rw [hdrop, List.take_succ_cons] at hlen hq h
      have hi : program[pc]? = some i := by
        rw [← List.head?_drop, hdrop]
        rfl
      have hrest : program.drop (pc + 1) = rest := by
        rw [← List.tail_drop, hdrop]
        rfl
      rw [List.all_cons, Bool.and_eq_true_iff] at hq
      have hpc' : (BitVec.ofNat 16 pc).toNat = pc := Nat.mod_eq_of_lt (by omega)
      refine leadsTo_quiet hpc (by rwa [hpc']) hq.1 harity (ih (pc + 1) ?_ ?_ (by omega) ?_ ?_)
      · exact congrArg some (BitVec.ofNat_add pc 1).symm
      · rw [hrest]
        exact Nat.succ_injective hlen
      · rw [hrest]
        exact hq.2
      · rw [hrest, line_moveTo, Nat.add_assoc, Nat.add_comm 1 n]
        exact h

/-- A branch with a guard goes the way its predicate says. -/
theorem leadsTo_branch {b : Bool} (hpc : s.pc = some pc) (hi : program[pc.toNat]? = some i)
    (hop : i.opcode = .bra) (hg : i.guard.present = true)
    (hb : (s.predicates i.guard.pred != i.guard.negate) = b)
    (hway : MeetsBefore program pc i ∨ b = outcome pc)
    (h : LeadsTo (Alone F ctx program lane fp outcome) Q
      (s.moveTo (if b then i.branchTarget else pc + 1), μ)) :
    LeadsTo (Alone F ctx program lane fp outcome) Q (s, μ) := by
  have hholds : s.guardHolds i = b := by rw [guardHolds_of_present hg, hb]
  refine leadsTo_step hpc hi (fun _ hmem => ?_) (fun _ _ => by rwa [hholds]) ?_ h
  · rw [hop] at hmem
    cases hmem
  · rw [hholds]
    cases b
    · rfl
    · simp [execute, hop]

theorem leadsTo_jump (hpc : s.pc = some pc) (hi : program[pc.toNat]? = some i)
    (hop : i.opcode = .bra) (hg : i.guard.present = false)
    (h : LeadsTo (Alone F ctx program lane fp outcome) Q (s.moveTo i.branchTarget, μ)) :
    LeadsTo (Alone F ctx program lane fp outcome) Q (s, μ) := by
  refine leadsTo_step hpc hi (fun _ hmem => ?_) (fun _ hg' => ?_) ?_ h
  · rw [hop] at hmem
    cases hmem
  · rw [hg] at hg'
    cases hg'
  · rw [guardHolds_of_absent hg, if_pos rfl]
    simp [execute, hop]

theorem leadsTo_exit (hpc : s.pc = some pc) (hi : program[pc.toNat]? = some i)
    (hop : i.opcode = .exit) (hg : i.guard.present = false)
    (h : LeadsTo (Alone F ctx program lane fp outcome) Q ({ s with pc := none }, μ)) :
    LeadsTo (Alone F ctx program lane fp outcome) Q (s, μ) := by
  refine leadsTo_step hpc hi (fun _ hmem => ?_) (fun hbra => ?_) ?_ h
  · rw [hop] at hmem
    cases hmem
  · rw [hop] at hbra
    cases hbra
  · rw [guardHolds_of_absent hg, if_pos rfl]
    simp [execute, hop]

/-- An `exit` with a guard retires the lane if its predicate says so. -/
theorem leadsTo_exit_guarded {b : Bool} (hpc : s.pc = some pc) (hi : program[pc.toNat]? = some i)
    (hop : i.opcode = .exit) (hg : i.guard.present = true)
    (hb : (s.predicates i.guard.pred != i.guard.negate) = b)
    (h : LeadsTo (Alone F ctx program lane fp outcome) Q
      (if b then { s with pc := none } else s.moveTo (pc + 1), μ)) :
    LeadsTo (Alone F ctx program lane fp outcome) Q (s, μ) := by
  have hholds : s.guardHolds i = b := by rw [guardHolds_of_present hg, hb]
  refine leadsTo_step (t := if b then { s with pc := none } else s.moveTo (pc + 1)) hpc hi
    (fun _ hmem => ?_) (fun hbra => ?_) ?_ h
  · rw [hop] at hmem
    cases hmem
  · rw [hop] at hbra
    cases hbra
  · rw [hholds]
    cases b
    · rfl
    · simp [execute, hop]

/-- `@p exit`, by the condition that the predicate holds. -/
theorem leadsTo_exitIf {pred : BitVec 8} {p : Prop} [Decidable p] (hpc : s.pc = some pc)
    (hi : program[pc.toNat]? = some (exitIf pred)) (hp : s.predicates pred = decide p)
    (hthen : p → Q ({ s with pc := none }, μ))
    (helse : ¬p → LeadsTo (Alone F ctx program lane fp outcome) Q (s.moveTo (pc + 1), μ)) :
    LeadsTo (Alone F ctx program lane fp outcome) Q (s, μ) := by
  refine leadsTo_exit_guarded (b := decide p) hpc hi rfl rfl
    (by rw [← hp]; exact Bool.xor_false _) ?_
  by_cases h : p
  · rw [decide_eq_true h]
    exact .now (hthen h)
  · rw [decide_eq_false h]
    exact helse h

/-- `@!p exit`, by the condition that the predicate holds. -/
theorem leadsTo_exitUnless {pred : BitVec 8} {p : Prop} [Decidable p] (hpc : s.pc = some pc)
    (hi : program[pc.toNat]? = some (exitUnless pred)) (hp : s.predicates pred = decide p)
    (hthen : ¬p → Q ({ s with pc := none }, μ))
    (helse : p → LeadsTo (Alone F ctx program lane fp outcome) Q (s.moveTo (pc + 1), μ)) :
    LeadsTo (Alone F ctx program lane fp outcome) Q (s, μ) := by
  refine leadsTo_exit_guarded (b := !decide p) hpc hi rfl rfl
    (by rw [← hp]; exact Bool.xor_true _) ?_
  by_cases h : p
  · rw [decide_eq_true h]
    exact helse h
  · rw [decide_eq_false h]
    exact .now (hthen h)

theorem leadsTo_load {v : Word} (hpc : s.pc = some pc) (hi : program[pc.toNat]? = some i)
    (hg : i.guard.present = false)
    (hop : i.opcode = .ldGlobal ∨ i.opcode = .ldShared)
    (hsees : fp.Sees (Warp.accessSpace i.opcode) (s.general i.src0 + i.imm))
    (hok : ¬μ.Faults (Warp.accessSpace i.opcode) (s.general i.src0 + i.imm))
    (hv : μ.wordAt (Warp.accessSpace i.opcode) (s.general i.src0 + i.imm) = v)
    (h : LeadsTo (Alone F ctx program lane fp outcome) Q ((s.write i.dst v).moveTo (pc + 1), μ)) :
    LeadsTo (Alone F ctx program lane fp outcome) Q (s, μ) := by
  have hmem : Warp.isMemoryOpcode i.opcode = true := by
    rcases hop with hop | hop <;> rw [hop] <;> rfl
  have hstore : Warp.isStore i.opcode = false := by rcases hop with hop | hop <;> rw [hop] <;> rfl
  have haddr : s.address i = s.general i.src0 + i.imm := by
    rw [address, if_neg]
    rcases hop with hop | hop <;> rw [hop] <;> decide
  refine leadsTo_step hpc hi (fun _ _ _ => ?_) (fun hbra => ?_) ?_ h
  · rwa [hstore, if_neg Bool.false_ne_true, haddr]
  · rw [hbra] at hmem
    cases hmem
  · rw [guardHolds_of_absent hg, if_pos rfl, execute_memory F _ ctx hmem, access, hstore,
      if_neg Bool.false_ne_true, haddr]
    simp only [BlockMemory.port, BlockMemory.load_ok hok, hv]

theorem leadsTo_store (hpc : s.pc = some pc) (hi : program[pc.toNat]? = some i)
    (hg : i.guard.present = false)
    (hop : i.opcode = .stGlobal ∨ i.opcode = .stShared)
    (hstores : fp.stores (Warp.accessSpace i.opcode) (s.general i.src0 + i.imm))
    (hok : ¬μ.Faults (Warp.accessSpace i.opcode) (s.general i.src0 + i.imm))
    (h : LeadsTo (Alone F ctx program lane fp outcome) Q (s.moveTo (pc + 1),
      μ.write ⟨Warp.accessSpace i.opcode, s.general i.src0 + i.imm, s.general i.src1⟩)) :
    LeadsTo (Alone F ctx program lane fp outcome) Q (s, μ) := by
  have hmem : Warp.isMemoryOpcode i.opcode = true := by
    rcases hop with hop | hop <;> rw [hop] <;> rfl
  have hstore : Warp.isStore i.opcode = true := by rcases hop with hop | hop <;> rw [hop] <;> rfl
  have hspace : Warp.accessSpace i.opcode ≠ .param := Warp.isStore_space hstore
  have haddr : s.address i = s.general i.src0 + i.imm := if_neg hspace
  refine leadsTo_step hpc hi (fun _ _ _ => ?_) (fun hbra => ?_) ?_ h
  · rwa [hstore, if_pos rfl, haddr]
  · rw [hbra] at hmem
    cases hmem
  · rw [guardHolds_of_absent hg, if_pos rfl, execute_memory F _ ctx hmem, access, hstore,
      if_pos rfl, haddr]
    simp only [BlockMemory.port, BlockMemory.store_write hspace hok]

/-- `@p bra`, by the condition that the predicate holds. -/
theorem leadsTo_braIf {pred : BitVec 8} {target reconvergence : Pc} {p : Prop} [Decidable p]
    (hpc : s.pc = some pc) (hi : program[pc.toNat]? = some (braIf pred target reconvergence))
    (hp : s.predicates pred = decide p)
    (hway : MeetsBefore program pc (braIf pred target reconvergence) ∨ decide p = outcome pc)
    (hthen : p → LeadsTo (Alone F ctx program lane fp outcome) Q (s.moveTo target, μ))
    (helse : ¬p → LeadsTo (Alone F ctx program lane fp outcome) Q (s.moveTo (pc + 1), μ)) :
    LeadsTo (Alone F ctx program lane fp outcome) Q (s, μ) := by
  refine leadsTo_branch hpc hi rfl rfl (by rw [← hp]; exact Bool.xor_false _) hway ?_
  by_cases h : p
  · have htarget := Instruction.branchTarget_makeBranchImm (braIf pred target reconvergence) target
      reconvergence
    rw [decide_eq_true h, if_pos rfl]
    exact htarget.symm ▸ hthen h
  · rw [decide_eq_false h]
    exact helse h

/-- `@!p bra`, by the condition that the predicate holds. -/
theorem leadsTo_braUnless {pred : BitVec 8} {target reconvergence : Pc} {p : Prop} [Decidable p]
    (hpc : s.pc = some pc) (hi : program[pc.toNat]? = some (braUnless pred target reconvergence))
    (hp : s.predicates pred = decide p)
    (hway : MeetsBefore program pc (braUnless pred target reconvergence)
      ∨ (!decide p) = outcome pc)
    (hthen : ¬p → LeadsTo (Alone F ctx program lane fp outcome) Q (s.moveTo target, μ))
    (helse : p → LeadsTo (Alone F ctx program lane fp outcome) Q (s.moveTo (pc + 1), μ)) :
    LeadsTo (Alone F ctx program lane fp outcome) Q (s, μ) := by
  refine leadsTo_branch hpc hi rfl rfl (by rw [← hp]; exact Bool.xor_true _) hway ?_
  by_cases h : p
  · rw [decide_eq_true h]
    exact helse h
  · have htarget := Instruction.branchTarget_makeBranchImm (braUnless pred target reconvergence)
      target reconvergence
    rw [decide_eq_false h, Bool.not_false, if_pos rfl]
    exact htarget.symm ▸ hthen h

theorem leadsTo_bra {target : Pc} (hpc : s.pc = some pc)
    (hi : program[pc.toNat]? = some (bra target))
    (h : LeadsTo (Alone F ctx program lane fp outcome) Q (s.moveTo target, μ)) :
    LeadsTo (Alone F ctx program lane fp outcome) Q (s, μ) := by
  have htarget := Instruction.branchTarget_makeBranchImm (bra target) target noReconvergence
  exact leadsTo_jump hpc hi rfl rfl (htarget.symm ▸ h)

end Rules

end LaneState

end WarpSim
