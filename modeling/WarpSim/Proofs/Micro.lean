import WarpSim.Warp
import Mathlib.Logic.Relation

/-!
# What one step of a warp can do

A step is a run of micro steps: iterations of `resolve_stack`, retirements of paths that fell off
the end, and at most one issue (`step_micro`). What an issue does to the masks, the stack and the
pc is said once, in `Effect`; an invariant of the divergence stack is a short case analysis over
it, and holds of every reachable warp by `reachable_induction`.
-/

namespace WarpSim

namespace Warp

section Masks

theorem hasLane_execMask (w : Warp) (i : Instruction) (lane : Nat) :
    hasLane (w.execMask i) lane = (hasLane w.active lane && (!i.guard.present
      || (w.registers.readPred lane i.guard.pred != i.guard.negate))) := by
  unfold execMask
  split_ifs with hg
  · have hfold : ∀ (l : List Nat) (m : LaneMask), hasLane (l.foldl (fun mask lane =>
        if hasLane w.active lane && (w.registers.readPred lane i.guard.pred != i.guard.negate) then
          mask ||| laneBit lane
        else mask) m) lane = (hasLane m lane || (decide (lane ∈ l) && (hasLane w.active lane
          && (w.registers.readPred lane i.guard.pred != i.guard.negate)))) := by
      intro l
      induction l with
      | nil => simp
      | cons a l ih =>
        intro m
        rw [List.foldl_cons, ih]
        by_cases ha : lane = a
        · subst ha
          split_ifs with hc
          · have := hasLane_lt (Bool.and_eq_true_iff.1 hc).1
            simp [hc, this]
          · rw [Bool.not_eq_true] at hc
            simp [hc]
        · split_ifs <;> simp [ha]
    rw [hfold, BitVec.ofNat_eq_ofNat, hasLane_zero]
    by_cases hl : hasLane w.active lane = true
    · simp [hl, hasLane_mem_lanes hl, hg]
    · simp [hl]
  · simp [hg]

theorem execMask_sub_active {w : Warp} {i : Instruction} {lane : Nat}
    (h : hasLane (w.execMask i) lane = true) : hasLane w.active lane = true := by
  rw [hasLane_execMask] at h
  exact (Bool.and_eq_true_iff.1 h).1

end Masks

section Effect

/-- The PCs an instruction at `pc` hands its lanes on to. -/
def Next (i : Instruction) (pc pc' : Pc) : Prop :=
  if i.opcode = .bra then pc' = i.branchTarget ∨ (i.guard.present = true ∧ pc' = pc + 1)
  else pc' = pc + 1 ∧ (i.opcode = .exit → i.guard.present = true)

/-- The masks and the stack of two warps agree. -/
structure SameMasks (w w' : Warp) : Prop where
  active : w'.active = w.active
  live : w'.live = w.live
  stack : w'.stack = w.stack

/-- What issuing `i` does to the pc, the masks and the stack. -/
inductive Effect (i : Instruction) (w w' : Warp) : Prop
  /-- A fault stops the instruction where it is. -/
  | stay (hpc : w'.pc = w.pc) (hmasks : SameMasks w w')
  | move (hpc : Next i w.pc w'.pc) (hmasks : SameMasks w w')
  | split (hbra : i.opcode = .bra) (hguard : i.guard.present = true)
      (hpc : w'.pc = i.branchTarget) (hactive : w'.active = w.execMask i)
      (hlive : w'.live = w.live)
      (hstack : w'.stack
        = ⟨i.reconvergencePc, w.pc + 1, w.active &&& ~~~w.execMask i⟩ :: w.stack)
      (htaken : w.execMask i ≠ 0) (hfall : w.active &&& ~~~w.execMask i ≠ 0)
  | exit (hexit : i.opcode = .exit) (hpc : w'.pc = w.pc + 1)
      (hmasks : SameMasks (w.retire (w.execMask i)) w')

variable {σ : Type} (F : FloatOps) (port : MemoryPort σ)

/-- The lane accesses of an instruction change the registers only. -/
theorem accessLanes_warp (i : Instruction) (exec : LaneMask) (addresses : Nat → Word) :
    ∀ (l : List Nat) (w : Warp) (m : σ),
      ∃ rf, (accessLanes port i exec addresses l w m).2.1 = { w with registers := rf }
  | [], w, _ => ⟨w.registers, rfl⟩
  | lane :: l, w, m => by
    rw [accessLanes]
    split_ifs
    · exact accessLanes_warp i exec addresses l w m
    · split
      · exact ⟨w.registers, rfl⟩
      · exact accessLanes_warp i exec addresses l w _
    · split
      · exact ⟨w.registers, rfl⟩
      · obtain ⟨rf, h⟩ := accessLanes_warp i exec addresses l
          { w with registers := w.registers.write lane i.dst _ } _
        exact ⟨rf, h⟩

theorem memoryAccess_warp (i : Instruction) (exec : LaneMask) (w : Warp) (m : σ) :
    ∃ rf, (memoryAccess port i exec w m).2.1 = { w with registers := rf } :=
  accessLanes_warp port i exec _ lanes w _

theorem branch_effect {w w₀ : Warp} {i : Instruction} (hbra : i.opcode = .bra)
    (hpc : w₀.pc = w.pc) (hmasks : SameMasks w w₀) :
    Effect i w (w₀.branch i (w.execMask i)) := by
  obtain ⟨ha, hl, hs⟩ := hmasks
  unfold branch
  by_cases hg : i.guard.present = true
  · simp only [hg, Bool.not_true, Bool.false_eq_true, if_false]
    split_ifs with h1 h2
    · exact .move (by simp [Next, hbra, hg, advance, hpc]) ⟨ha, hl, hs⟩
    · exact .move (by simp [Next, hbra]) ⟨ha, hl, hs⟩
    · rw [ha] at h2
      exact .split hbra hg rfl rfl hl (by simp only [hpc, ha, hs]) h1 h2
  · simp only [hg, Bool.not_false, if_true]
    exact .move (by simp [Next, hbra]) ⟨ha, hl, hs⟩

theorem advance_effect {i : Instruction} {w w₀ : Warp} (hb : i.opcode ≠ .bra)
    (he : i.opcode ≠ .exit) (hpc : w₀.pc = w.pc) (hmasks : SameMasks w w₀) :
    Effect i w w₀.advance :=
  .move (by simp [Next, hb, he, advance, hpc]) ⟨hmasks.1, hmasks.2, hmasks.3⟩

/-- The access of a memory instruction, and the pc moving on if it succeeds. -/
theorem memoryAccess_effect {i : Instruction} {w w₀ : Warp} {exec : LaneMask} {m : σ}
    (hb : i.opcode ≠ .bra) (he : i.opcode ≠ .exit) (hpc : w₀.pc = w.pc)
    (hmasks : SameMasks w w₀) :
    Effect i w (match memoryAccess port i exec w₀ m with
      | (.error f, w, m) => (.error f, w, m)
      | (.ok (), w, m) => (.ok .issued, w.advance, m) :
        Except Fault StepOutcome × Warp × σ).2.1 := by
  obtain ⟨rf, hrf⟩ := memoryAccess_warp port i exec w₀ m
  rcases h : memoryAccess port i exec w₀ m with ⟨f | u, w₁, m₁⟩ <;> rw [h] at hrf <;>
    simp only [] at hrf ⊢ <;> subst hrf
  · exact .stay hpc ⟨hmasks.1, hmasks.2, hmasks.3⟩
  · exact advance_effect hb he hpc ⟨hmasks.1, hmasks.2, hmasks.3⟩

theorem issue_alu {i : Instruction} (hop : isAluOpcode i.opcode = true) (w : Warp) (m : σ) :
    w.issue F port i m = (.ok .issued,
      { w with
        lastExec := w.execMask i
        lastOpcode := i.opcode
        registers := executeAlu F i (w.execMask i) w.registers w.context }.advance, m) := by
  unfold issue
  split <;> first | rfl | simp_all [isAluOpcode]

/-- A memory instruction does its access, and moves on if no lane faults. -/
theorem issue_memory {i : Instruction} (hop : isMemoryOpcode i.opcode = true) (w : Warp) (m : σ) :
    w.issue F port i m =
      match memoryAccess port i (w.execMask i)
        { w with lastExec := w.execMask i, lastOpcode := i.opcode } m with
      | (.error f, w, m) => (.error f, w, m)
      | (.ok (), w, m) => (.ok .issued, w.advance, m) := by
  unfold issue
  split <;> first | rfl | simp_all [isMemoryOpcode]

theorem issue_effect (i : Instruction) (w : Warp) (m : σ) :
    Effect i w (w.issue F port i m).2.1 := by
  unfold issue
  simp only []
  split
  · exact branch_effect ‹_› rfl ⟨rfl, rfl, rfl⟩
  · exact .exit ‹_› rfl ⟨rfl, rfl, rfl⟩
  · split_ifs
    · exact .stay rfl ⟨rfl, rfl, rfl⟩
    · exact advance_effect (by simp [*]) (by simp [*]) rfl ⟨rfl, rfl, rfl⟩
  iterate 5 exact memoryAccess_effect port (by simp [*]) (by simp [*]) rfl ⟨rfl, rfl, rfl⟩
  · exact advance_effect (by assumption) (by assumption) rfl ⟨rfl, rfl, rfl⟩

/-- Issuing leaves the launch geometry and the warp's number alone. -/
theorem issue_context (i : Instruction) (w : Warp) (m : σ) :
    (w.issue F port i m).2.1.context = w.context
      ∧ (w.issue F port i m).2.1.warpId = w.warpId := by
  have hmem : ∀ w₀ : Warp, w₀.context = w.context → w₀.warpId = w.warpId →
      (match memoryAccess port i (w.execMask i) w₀ m with
        | (.error f, w, m) => (.error f, w, m)
        | (.ok (), w, m) => (.ok .issued, w.advance, m)
          : Except Fault StepOutcome × Warp × σ).2.1.context = w.context
      ∧ (match memoryAccess port i (w.execMask i) w₀ m with
        | (.error f, w, m) => (.error f, w, m)
        | (.ok (), w, m) => (.ok .issued, w.advance, m)
          : Except Fault StepOutcome × Warp × σ).2.1.warpId = w.warpId := by
    intro w₀ h1 h2
    obtain ⟨rf, hrf⟩ := memoryAccess_warp port i (w.execMask i) w₀ m
    rcases h : memoryAccess port i (w.execMask i) w₀ m with ⟨f | u, w₁, m₁⟩ <;> rw [h] at hrf <;>
      simp only [] at hrf ⊢ <;> subst hrf <;> exact ⟨h1, h2⟩
  unfold issue
  simp only []
  split
  · unfold branch
    simp only []
    split_ifs <;> exact ⟨rfl, rfl⟩
  · exact ⟨rfl, rfl⟩
  · split_ifs <;> exact ⟨rfl, rfl⟩
  iterate 5 exact hmem _ rfl rfl
  · exact ⟨rfl, rfl⟩

/-- What the outcome of an issue says: only a barrier parks the warp, and with all lanes active. -/
inductive IssueOutcome (i : Instruction) (w : Warp) : Except Fault StepOutcome × Warp × σ → Prop
  | fault (f : Fault) (w' : Warp) (m : σ) : IssueOutcome i w (.error f, w', m)
  | issued (w' : Warp) (m : σ) (hparked : w'.parked = w.parked) (hop : i.opcode ≠ .barSync) :
    IssueOutcome i w (.ok .issued, w', m)
  | barrier (w' : Warp) (m : σ) (hparked : w'.parked = true) (hlive : w'.live = w.active)
      (hop : i.opcode = .barSync) : IssueOutcome i w (.ok .barrier, w', m)

theorem issue_outcome (i : Instruction) (w : Warp) (m : σ) :
    IssueOutcome i w (w.issue F port i m) := by
  have hmem : ∀ w₀ : Warp, w₀.parked = w.parked → i.opcode ≠ .barSync →
      IssueOutcome i w (match memoryAccess port i (w.execMask i) w₀ m with
        | (.error f, w, m) => (.error f, w, m)
        | (.ok (), w, m) => (.ok .issued, w.advance, m)) := by
    intro w₀ h hop
    obtain ⟨rf, hrf⟩ := memoryAccess_warp port i (w.execMask i) w₀ m
    rcases hacc : memoryAccess port i (w.execMask i) w₀ m with ⟨f | u, w₁, m₁⟩ <;>
      rw [hacc] at hrf <;> simp only [] at hrf ⊢ <;> subst hrf
    · exact .fault f _ _
    · exact .issued _ _ h hop
  unfold issue
  simp only []
  split
  · unfold branch
    simp only []
    split_ifs <;> exact .issued _ _ rfl (by simp [*])
  · exact .issued _ _ rfl (by simp [*])
  · split_ifs with hlive
    · exact .fault _ _ _
    · exact .barrier _ _ rfl (not_ne_iff.1 hlive).symm ‹_›
  iterate 5 exact hmem _ rfl (by simp [*])
  · exact .issued _ _ rfl ‹_›

end Effect

section Resolve

/-- What one iteration of `resolve_stack` does when it goes on. Rule 4 reads a join entry as a
deferred one: its lanes resume at the reconvergence PC. -/
inductive Resolve (w w' : Warp) : Prop
  | resume (e : DivergenceEntry) (hempty : w.active = 0) (hs : w.stack = e :: w'.stack)
      (hactive : w'.active = e.mask) (hpc : w'.pc = e.resumePc)
  | arrive (e : DivergenceEntry) (rest : List DivergenceEntry) (hne : w.active ≠ 0)
      (hs : w.stack = e :: rest) (hat : e.reconvergencePc = w.pc)
      (hdefer : e.resumePc ≠ e.reconvergencePc)
      (hs' : w'.stack = ⟨e.reconvergencePc, e.reconvergencePc, w.active⟩ :: rest)
      (hactive : w'.active = e.mask) (hpc : w'.pc = e.resumePc)
  | join (e : DivergenceEntry) (hne : w.active ≠ 0) (hs : w.stack = e :: w'.stack)
      (hat : e.reconvergencePc = w.pc) (hjoin : e.resumePc = e.reconvergencePc)
      (hactive : w'.active = w.active ||| e.mask) (hpc : w'.pc = w.pc)

/-- The state of a warp that resolving leaves alone. -/
structure SameLanes (w w' : Warp) : Prop where
  live : w'.live = w.live
  registers : w'.registers = w.registers
  context : w'.context = w.context
  warpId : w'.warpId = w.warpId
  parked : w'.parked = w.parked

theorem switchTo_sameLanes (w : Warp) (e : DivergenceEntry) (arrived : LaneMask) :
    SameLanes w (w.switchTo e arrived) := by
  unfold switchTo
  split_ifs <;> exact ⟨rfl, rfl, rfl, rfl, rfl⟩

theorem switchTo_join (w : Warp) {e : DivergenceEntry} (arrived : LaneMask)
    (h : e.resumePc = e.reconvergencePc) : (w.switchTo e arrived).active = arrived ||| e.mask
      ∧ (w.switchTo e arrived).pc = e.reconvergencePc
      ∧ (w.switchTo e arrived).stack = w.stack := by
  simp [switchTo, DivergenceEntry.isJoin, h]

theorem switchTo_defer (w : Warp) {e : DivergenceEntry} (arrived : LaneMask)
    (h : e.resumePc ≠ e.reconvergencePc) : (w.switchTo e arrived).active = e.mask
      ∧ (w.switchTo e arrived).pc = e.resumePc
      ∧ (w.switchTo e arrived).stack = if arrived ≠ 0 then
          ⟨e.reconvergencePc, e.reconvergencePc, arrived⟩ :: w.stack else w.stack := by
  simp [switchTo, DivergenceEntry.isJoin, h]

theorem resolveIteration_cases {w w' : Warp} (h : w.resolveIteration = .inl w') :
    Resolve w w' ∧ SameLanes w w' := by
  unfold resolveIteration at h
  split_ifs at h with hz
  · split at h
    · cases h
    · rename_i e rest hs
      cases h
      have hl := switchTo_sameLanes { w with stack := rest } e 0
      refine ⟨?_, ⟨hl.1, hl.2, hl.3, hl.4, hl.5⟩⟩
      by_cases hj : e.resumePc = e.reconvergencePc
      · obtain ⟨h1, h2, h3⟩ := switchTo_join { w with stack := rest } 0 hj
        exact .resume e hz (by rw [h3, hs]) (by simpa using h1) (by rw [h2, hj])
      · obtain ⟨h1, h2, h3⟩ := switchTo_defer { w with stack := rest } 0 hj
        exact .resume e hz (by rw [h3, hs]; rfl) h1 h2
  · split at h
    · cases h
    · rename_i e rest hs
      split_ifs at h with hat
      cases h
      have hl := switchTo_sameLanes
        { w with stack := rest, reconverged := w.reconverged + 1 } e w.active
      refine ⟨?_, ⟨hl.1, hl.2, hl.3, hl.4, hl.5⟩⟩
      by_cases hj : e.resumePc = e.reconvergencePc
      · obtain ⟨h1, h2, h3⟩ := switchTo_join
          { w with stack := rest, reconverged := w.reconverged + 1 } w.active hj
        exact .join e hz (by rw [h3, hs]) hat hj h1 (by rw [h2, hat])
      · obtain ⟨h1, h2, h3⟩ := switchTo_defer
          { w with stack := rest, reconverged := w.reconverged + 1 } w.active hj
        exact .arrive e rest hz hs hat hj (by rw [h3, if_pos hz]) h1 h2

/-- Where the loop stops with lanes to run, the top entry's reconvergence PC is not the pc. -/
theorem resolveIteration_settled {w : Warp} (h : w.resolveIteration = .inr true) :
    w.active ≠ 0 ∧ ∀ e rest, w.stack = e :: rest → e.reconvergencePc ≠ w.pc := by
  have hne : w.active ≠ 0 := by
    have := resolveIteration_inr h
    simpa using this.symm
  refine ⟨hne, fun e rest hs hat => ?_⟩
  rw [resolveIteration, if_neg hne, hs] at h
  simp [hat] at h

theorem resolveIteration_finished {w : Warp} (h : w.resolveIteration = .inr false) :
    w.active = 0 ∧ w.stack = [] := by
  have hz : w.active = 0 := by
    have := resolveIteration_inr h
    simpa using this.symm
  refine ⟨hz, ?_⟩
  rcases hs : w.stack with _ | ⟨e, rest⟩
  · rfl
  · rw [resolveIteration, if_pos hz, hs] at h
    cases h

end Resolve

section Run

variable (F : FloatOps) (program : List Instruction)

/-- What a scheduler does to a warp between two observations: a step, over whatever the memory
behind the port is then, or the release of a completed barrier. -/
inductive WarpStep : Warp → Warp → Prop
  | step {σ : Type} (port : MemoryPort σ) (m : σ) (w : Warp) :
    WarpStep w (w.step F port program m).2.1
  | release (w : Warp) : WarpStep w { w with parked := false }

/-- The warps a fresh warp can become, whether its last step issued, parked, finished or
faulted. -/
def Reachable (w : Warp) : Prop :=
  ∃ warpId live context, Relation.ReflTransGen (WarpStep F program) (new warpId live context) w

/-- The machine below a step. -/
inductive MicroStep : Warp → Warp → Prop
  | resolve {w w' : Warp} (h : w.resolveIteration = .inl w') : MicroStep w w'
  | fall {w : Warp} (h : w.resolveIteration = .inr true) (hpc : program[w.pc.toNat]? = none) :
    MicroStep w (w.retire w.active)
  | issue {σ : Type} (port : MemoryPort σ) (m : σ) {w : Warp} {i : Instruction}
      (h : w.resolveIteration = .inr true) (hpc : program[w.pc.toNat]? = some i) :
    MicroStep w (w.issue F port i m).2.1
  | release (w : Warp) : MicroStep w { w with parked := false }

abbrev MicroRun : Warp → Warp → Prop := Relation.ReflTransGen (MicroStep F program)

variable {F program}

/-- What iterations keep, `resolve_stack` keeps. -/
theorem resolveStack_induction {P : Warp → Prop}
    (hresolve : ∀ w w', P w → w.resolveIteration = .inl w' → P w') (w : Warp) (hw : P w) :
    P w.resolveStack.2 ∧ w.resolveStack.2.resolveIteration = .inr w.resolveStack.1 := by
  rw [resolveStack_eq]
  rcases h : w.resolveIteration with w' | more
  · have hlt := stackWeight_resolveIteration h
    exact resolveStack_induction hresolve w' (hresolve w w' hw h)
  · exact ⟨hw, h⟩
termination_by stackWeight w.stack
decreasing_by exact hlt

theorem settle_eq (w : Warp) : w.settle program =
    if w.resolveStack.1 = true then
      match program[w.resolveStack.2.pc.toNat]? with
      | some i => .ready i w.resolveStack.2
      | none => (w.resolveStack.2.retire w.resolveStack.2.active).settle program
    else .finished w.resolveStack.2 := by
  rw [settle]
  split_ifs <;> rfl

variable (program) in
/-- What iterations and retirements keep, settling keeps; it ends with nothing left to run, or
about to issue. -/
theorem settle_induction {P : Warp → Prop}
    (hresolve : ∀ w w', P w → w.resolveIteration = .inl w' → P w')
    (hfall : ∀ w, P w → w.resolveIteration = .inr true → program[w.pc.toNat]? = none →
      P (w.retire w.active)) (w : Warp) (hw : P w) :
    match w.settle program with
    | .finished w' => P w' ∧ w'.resolveIteration = .inr false
    | .ready i w' => P w' ∧ w'.resolveIteration = .inr true ∧ program[w'.pc.toNat]? = some i := by
  rw [settle_eq]
  obtain ⟨hres, hit⟩ := resolveStack_induction hresolve w hw
  by_cases hr : w.resolveStack.1 = true
  · rw [hr] at hit
    rcases hp : program[w.resolveStack.2.pc.toNat]? with _ | i
    · have hlt := settleWeight_retire hr
      simp only [hr, if_true]
      exact settle_induction (P := P) hresolve hfall _ (hfall _ hres hit hp)
    · simp only [hr, if_true]
      exact ⟨hres, hit, hp⟩
  · rw [if_neg hr]
    rw [Bool.not_eq_true] at hr
    rw [hr] at hit
    exact ⟨hres, hit⟩
termination_by settleWeight w
decreasing_by exact hlt

variable (F program) in
theorem settle_micro (w : Warp) : match w.settle program with
    | .finished w' => MicroRun F program w w' ∧ w'.resolveIteration = .inr false
    | .ready i w' => MicroRun F program w w' ∧ w'.resolveIteration = .inr true
      ∧ program[w'.pc.toNat]? = some i :=
  settle_induction program (fun _ _ hrun h => hrun.tail (.resolve h))
    (fun _ hrun h hp => hrun.tail (.fall h hp)) w .refl

variable (program) in
theorem settle_parked (w : Warp) : match w.settle program with
    | .finished r => r.parked = w.parked
    | .ready _ r => r.parked = w.parked := by
  have h := settle_induction program (P := fun r => r.parked = w.parked)
    (fun r r' hr hit => (resolveIteration_cases hit).2.parked.trans hr) (fun r hr _ _ => hr) w rfl
  rcases hs : w.settle program with r | ⟨i, r⟩ <;> rw [hs] at h <;> exact h.1

theorem settle_of_ready {w : Warp} {i : Instruction} (ha : w.active ≠ 0)
    (hs : ∀ e ∈ w.stack.head?, e.reconvergencePc ≠ w.pc) (hi : program[w.pc.toNat]? = some i) :
    w.settle program = .ready i w := by
  have hit : w.resolveIteration = .inr true := by
    rw [resolveIteration, if_neg ha]
    rcases hst : w.stack with _ | ⟨e, rest⟩
    · rfl
    · exact if_neg (hs e (by rw [hst]; rfl))
  have hres : w.resolveStack = (true, w) := by rw [resolveStack_eq, hit]
  rw [settle_eq, hres]
  simp only [if_true, hi]

theorem step_micro {σ : Type} (port : MemoryPort σ) (w : Warp) (m : σ) :
    MicroRun F program w (w.step F port program m).2.1 := by
  have h := settle_micro F program w
  unfold step
  split <;> rename_i hs <;> rw [hs] at h
  · exact h.1
  · exact h.1.tail (.issue port m h.2.1 h.2.2)

theorem warpStep_micro {w w' : Warp} (h : WarpStep F program w w') : MicroRun F program w w' := by
  cases h with
  | step port m => exact step_micro port w m
  | release => exact .single (.release w)

theorem steps_warpStep {σ : Type} (port : MemoryPort σ) :
    ∀ (n : Nat) (w : Warp) (m : σ),
      Relation.ReflTransGen (WarpStep F program) w (w.steps F port program n m).1
  | 0, _, _ => .refl
  | n + 1, w, m => .head (.step port m w) (steps_warpStep port n _ _)

/-- The last of a number of steps. -/
theorem steps_succ {σ : Type} (port : MemoryPort σ) : ∀ (n : Nat) (w : Warp) (m : σ),
    w.steps F port program (n + 1) m
      = ((w.steps F port program n m).1.step F port program (w.steps F port program n m).2).2
  | 0, _, _ => rfl
  | n + 1, w, m => steps_succ port n (w.step F port program m).2.1 _

/-- Every reachable warp is reached by micro steps. -/
theorem Reachable.micro {w : Warp} (h : Reachable F program w) :
    ∃ warpId live context, MicroRun F program (new warpId live context) w := by
  obtain ⟨warpId, live, context, h⟩ := h
  refine ⟨warpId, live, context, ?_⟩
  induction h with
  | refl => exact .refl
  | tail _ hs ih => exact ih.trans (warpStep_micro hs)

theorem micro_invariant {P : Warp → Prop}
    (hstep : ∀ w w', P w → MicroStep F program w w' → P w') {w w' : Warp}
    (h : MicroRun F program w w') (hw : P w) : P w' := by
  induction h with
  | refl => exact hw
  | tail _ hs ih => exact hstep _ _ ih hs

theorem micro_context {w w' : Warp} (h : MicroStep F program w w') : w'.context = w.context := by
  cases h with
  | resolve h => exact (resolveIteration_cases h).2.context
  | fall => rfl
  | issue port m => exact (issue_context F port _ _ m).1
  | release => rfl

theorem microRun_context {w w' : Warp} (h : MicroRun F program w w') : w'.context = w.context :=
  micro_invariant (P := fun v => v.context = w.context)
    (fun _ _ hv h => (micro_context h).trans hv) h rfl

/-- A predicate of fresh warps that micro steps preserve holds of every reachable warp. -/
theorem reachable_induction {P : Warp → Prop}
    (hnew : ∀ warpId live context, P (new warpId live context))
    (hstep : ∀ w w', P w → MicroStep F program w w' → P w') {w : Warp}
    (h : Reachable F program w) : P w := by
  obtain ⟨warpId, live, context, hrun⟩ := h.micro
  exact micro_invariant hstep hrun (hnew warpId live context)

end Run

section Stops

/-- The loop of `resolve_stack`, given up if it has not returned after `n` iterations. -/
def resolveWithin : Nat → Warp → Option (Bool × Warp)
  | 0, _ => none
  | n + 1, w =>
    match w.resolveIteration with
    | .inl w' => w'.resolveWithin n
    | .inr more => some (more, w)

theorem resolveWithin_eq : ∀ (n : Nat) (w : Warp), stackWeight w.stack < n →
    w.resolveWithin n = some w.resolveStack
  | 0, _, h => absurd h (Nat.not_lt_zero _)
  | n + 1, w, h => by
    rw [resolveWithin, resolveStack_eq]
    rcases hit : w.resolveIteration with w' | more
    · have hlt := stackWeight_resolveIteration hit
      exact resolveWithin_eq n w' (by omega)
    · rfl

theorem stackWeight_le (s : List DivergenceEntry) : stackWeight s ≤ 2 * s.length := by
  induction s with
  | nil => exact Nat.le_refl _
  | cons e s ih =>
    have hone : entryWeight e ≤ 2 := by
      rw [entryWeight]
      split_ifs <;> decide
    rw [stackWeight] at ih
    rw [stackWeight, List.map_cons, List.sum_cons, List.length_cons]
    omega

/-- Whatever the stack holds, the loop returns within two iterations for each entry and one more,
with no lane left or with a path that is not at the top entry's reconvergence PC. -/
theorem resolve_stack_settles (w : Warp) :
    w.resolveWithin (2 * w.stack.length + 1) = some w.resolveStack
    ∧ (w.resolveStack.1 = false →
        w.resolveStack.2.stack = [] ∧ w.resolveStack.2.active = 0)
    ∧ (w.resolveStack.1 = true → w.resolveStack.2.active ≠ 0
        ∧ ∀ e rest, w.resolveStack.2.stack = e :: rest →
          e.reconvergencePc ≠ w.resolveStack.2.pc) := by
  have hlast := (resolveStack_induction (P := fun _ => True) (fun _ _ _ _ => trivial) w trivial).2
  refine ⟨resolveWithin_eq _ w (by have := stackWeight_le w.stack; omega), fun h => ?_, fun h => ?_⟩
  · rw [h] at hlast
    exact (resolveIteration_finished hlast).symm
  · rw [h] at hlast
    exact resolveIteration_settled hlast

/-- A deferred entry of no lanes takes both of its iterations. -/
example : (({ active := 1, live := 1, stack := [⟨0, 4, 0⟩] } : Warp).resolveWithin 2).isNone
    ∧ (({ active := 1, live := 1, stack := [⟨0, 4, 0⟩] } : Warp).resolveWithin 3).isSome := by
  decide

end Stops

end Warp

end WarpSim
