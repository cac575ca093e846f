import WarpSim.Proofs.LaneRefinement

/-!
# What a guard masks

A guarded instruction skips the lanes on which its guard is false, and does nothing at all when it
is false on all of them (`GuardLaw`). Every instruction but the exempt branch and exit obeys this,
except a `bar.sync` whose guard is false everywhere: the barrier never looks at the mask
(`guard_law`). The lanes that touch memory are seen by a port that writes them down.
-/

namespace WarpSim

/-- A port that also records the lanes that load and store. -/
def MemoryPort.recording {σ : Type} (port : MemoryPort σ) : MemoryPort (σ × List Nat) where
  load := fun space address lane m =>
    ((port.load space address lane m.1).1, (port.load space address lane m.1).2, m.2 ++ [lane])
  store := fun space address value lane m =>
    ((port.store space address value lane m.1).1, (port.store space address value lane m.1).2,
      m.2 ++ [lane])
  onWarpAccess := fun space isStore addresses exec m =>
    (port.onWarpAccess space isStore addresses exec m.1, m.2)

namespace Warp

section Recording

variable {σ : Type} (F : FloatOps) (port : MemoryPort σ) (i : Instruction)

/-- What a computation with the recording port has to do with the one without: the same, and the
lanes recorded are executing ones. -/
def Records (exec : LaneMask) {ρ : Type} (plain : ρ × Warp × σ) (log : List Nat)
    (recorded : ρ × Warp × σ × List Nat) : Prop :=
  ∃ lanes, recorded = (plain.1, plain.2.1, plain.2.2, log ++ lanes)
    ∧ ∀ lane ∈ lanes, hasLane exec lane = true

theorem accessLanes_records (exec : LaneMask) (addresses : Nat → Word) : ∀ (l : List Nat)
    (w : Warp) (m : σ) (log : List Nat), Records exec (accessLanes port i exec addresses l w m) log
      (accessLanes port.recording i exec addresses l w (m, log))
  | [], w, m, log => ⟨[], by simp [accessLanes], by simp⟩
  | lane :: l, w, m, log => by
    unfold accessLanes
    by_cases hl : hasLane exec lane = true
    · have hsnoc : ∀ {ρ : Type} {plain : ρ × Warp × σ} {recorded : ρ × Warp × σ × List Nat},
          Records exec plain (log ++ [lane]) recorded → Records exec plain log recorded := by
        rintro ρ plain recorded ⟨lanes, hr, hlanes⟩
        refine ⟨lane :: lanes, by rw [hr, List.append_assoc]; rfl, fun x hx => ?_⟩
        rcases List.mem_cons.1 hx with rfl | hx
        · exact hl
        · exact hlanes x hx
      simp only [hl, Bool.not_true, Bool.false_eq_true, if_false, MemoryPort.recording]
      by_cases hop : isStore i.opcode = true
      · rw [if_pos hop, if_pos hop]
        rcases port.store (accessSpace i.opcode) (addresses lane) (w.registers.read lane i.src1)
          lane m with ⟨e | ⟨⟩, m'⟩
        · exact hsnoc ⟨[], by simp, by simp⟩
        · exact hsnoc (accessLanes_records exec addresses l w m' _)
      · rw [if_neg hop, if_neg hop]
        rcases port.load (accessSpace i.opcode) (addresses lane) lane m with ⟨e | value, m'⟩
        · exact hsnoc ⟨[], by simp, by simp⟩
        · exact hsnoc (accessLanes_records exec addresses l _ m' _)
    · simp only [hl, Bool.not_false, if_true]
      exact accessLanes_records exec addresses l w m log

theorem memoryAccess_records (exec : LaneMask) (w : Warp) (m : σ) (log : List Nat) :
    Records exec (memoryAccess port i exec w m) log
      (memoryAccess port.recording i exec w (m, log)) := by
  unfold memoryAccess
  by_cases h : exec ≠ 0
  · simp only [if_pos h]
    exact accessLanes_records port i exec _ lanes w _ log
  · simp only [if_neg h]
    exact accessLanes_records port i exec _ lanes w m log

/-- A step with the recording port is the step, and records executing lanes only. -/
theorem issue_records (w : Warp) (m : σ) (log : List Nat) :
    Records (w.execMask i) (w.issue F port i m) log (w.issue F port.recording i (m, log)) := by
  by_cases hop : isMemoryOpcode i.opcode = true
  · rw [issue_memory F port hop, issue_memory F port.recording hop]
    obtain ⟨lanes, hr, hlanes⟩ := memoryAccess_records port i (w.execMask i)
      { w with lastExec := w.execMask i, lastOpcode := i.opcode } m log
    rw [hr]
    rcases memoryAccess port i (w.execMask i)
      { w with lastExec := w.execMask i, lastOpcode := i.opcode } m with ⟨f | ⟨⟩, w', m'⟩
    · exact ⟨lanes, rfl, hlanes⟩
    · exact ⟨lanes, rfl, hlanes⟩
  · refine ⟨[], ?_, by simp⟩
    unfold issue
    split <;> simp_all [isMemoryOpcode]
    split_ifs <;> rfl

/-- A step with the recording port is the step. -/
theorem step_records {program : List Instruction} {w r : Warp} {i : Instruction}
    (hs : w.settle program = .ready i r) (m : σ) (log : List Nat) :
    Records (r.execMask i) (w.step F port program m) log
      (w.step F port.recording program (m, log)) := by
  have h := issue_records F port i r m log
  unfold step
  rw [hs]
  exact h

end Recording

section Skipped

variable {σ : Type} (F : FloatOps) (port : MemoryPort σ) {i : Instruction}

theorem settle_registers {program : List Instruction} {w r : Warp}
    (hs : w.settle program = .ready i r) : r.registers = w.registers := by
  have h := settle_induction program (P := fun r => r.registers = w.registers)
    (fun r r' hr h => (resolveIteration_cases h).2.registers.trans hr) (fun _ hr _ _ => hr) w rfl
  rw [hs] at h
  exact h.1

/-- A lane that does not execute keeps its registers. -/
theorem accessLanes_skip {exec : LaneMask} (addresses : Nat → Word) {lane : Nat}
    (hl : hasLane exec lane = false) : ∀ (l : List Nat) (w : Warp) (m : σ),
      (accessLanes port i exec addresses l w m).2.1.registers.general lane
        = w.registers.general lane
      ∧ (accessLanes port i exec addresses l w m).2.1.registers.predicates lane
        = w.registers.predicates lane
  | [], w, m => ⟨rfl, rfl⟩
  | a :: l, w, m => by
    unfold accessLanes
    split_ifs with ha hop
    · exact accessLanes_skip addresses hl l w m
    · split
      · exact ⟨rfl, rfl⟩
      · exact accessLanes_skip addresses hl l w _
    · split
      · exact ⟨rfl, rfl⟩
      · obtain ⟨h1, h2⟩ := accessLanes_skip addresses hl l
          { w with registers := w.registers.write a i.dst _ } _
        refine ⟨h1.trans (funext fun r => if_neg fun hc => ?_), h2⟩
        rw [← hc.1, hl] at ha
        exact ha rfl

theorem issue_skip (hb : i.opcode ≠ .bra) (he : i.opcode ≠ .exit) {w : Warp} (m : σ) {lane : Nat}
    (hl : hasLane (w.execMask i) lane = false) :
    (w.issue F port i m).2.1.registers.general lane = w.registers.general lane
      ∧ (w.issue F port i m).2.1.registers.predicates lane = w.registers.predicates lane := by
  by_cases hmem : isMemoryOpcode i.opcode = true
  · have hskip : ∀ m', _ := accessLanes_skip port (i := i)
      (w.accessAddresses i (w.execMask i)) hl lanes
      { w with lastExec := w.execMask i, lastOpcode := i.opcode }
    have hkeep : (memoryAccess port i (w.execMask i)
        { w with lastExec := w.execMask i, lastOpcode := i.opcode } m).2.1.registers.general lane
          = w.registers.general lane
        ∧ (memoryAccess port i (w.execMask i)
          { w with lastExec := w.execMask i, lastOpcode := i.opcode } m).2.1.registers.predicates
            lane = w.registers.predicates lane := hskip _
    rw [issue_memory F port hmem]
    rcases hacc : memoryAccess port i (w.execMask i)
      { w with lastExec := w.execMask i, lastOpcode := i.opcode } m with ⟨f | ⟨⟩, w', m'⟩
    · rw [hacc] at hkeep
      exact hkeep
    · rw [hacc] at hkeep
      exact hkeep
  by_cases hbar : i.opcode = .barSync
  · unfold issue
    simp only [hbar]
    split_ifs <;> exact ⟨rfl, rfl⟩
  · have halu : isAluOpcode i.opcode = true := by
      cases hi : i.opcode <;> simp_all [isMemoryOpcode, isAluOpcode]
    have hlane := fileLane_executeAlu F i w.context (w.execMask i) w.registers none lane
    rw [hl] at hlane
    rw [issue_alu F port halu]
    exact ⟨congrArg LaneState.general hlane, congrArg LaneState.predicates hlane⟩

end Skipped

section Law

variable {σ : Type} (F : FloatOps) (port : MemoryPort σ) {i : Instruction}

/-- A lane of the active mask whose guard is false. -/
def GuardFalse (r : Warp) (i : Instruction) (lane : Nat) : Prop :=
  hasLane r.active lane = true ∧ (r.registers.readPred lane i.guard.pred != i.guard.negate) = false

/-- Specification 2.3 of a step that issues the guarded `i` at the resolved warp `r`. -/
structure GuardLaw (program : List Instruction) (w : Warp) (m : σ) (i : Instruction) (r : Warp) :
    Prop where
  registers : ∀ lane, GuardFalse r i lane →
    (w.step F port program m).2.1.registers.general lane = w.registers.general lane
    ∧ (w.step F port program m).2.1.registers.predicates lane = w.registers.predicates lane
  accesses : ∃ log, w.step F port.recording program (m, [])
      = ((w.step F port program m).1, (w.step F port program m).2.1,
        (w.step F port program m).2.2, log)
    ∧ ∀ lane, GuardFalse r i lane → lane ∉ log
  nowhere : (∀ lane, hasLane r.active lane = true → GuardFalse r i lane) →
    w.step F port program m
      = (.ok .issued, { r with pc := r.pc + 1, lastExec := 0, lastOpcode := i.opcode }, m)

theorem not_hasLane_execMask {r : Warp} (hg : i.guard.present = true) {lane : Nat}
    (h : GuardFalse r i lane) : hasLane (r.execMask i) lane = false := by
  rw [hasLane_execMask, hg, h.2]
  simp

theorem execMask_eq_zero {r : Warp} (hg : i.guard.present = true)
    (h : ∀ lane, hasLane r.active lane = true → GuardFalse r i lane) : r.execMask i = 0 := by
  refine mask_eq_zero.2 fun lane => ?_
  by_cases hl : hasLane r.active lane = true
  · exact not_hasLane_execMask hg (h lane hl)
  · rw [hasLane_execMask, Bool.eq_false_iff.2 hl, Bool.false_and]

theorem accessLanes_zero (addresses : Nat → Word) : ∀ (l : List Nat) (w : Warp) (m : σ),
    accessLanes port i 0 addresses l w m = (.ok (), w, m)
  | [], w, m => rfl
  | a :: l, w, m => by
    unfold accessLanes
    rw [BitVec.ofNat_eq_ofNat, hasLane_zero]
    exact accessLanes_zero addresses l w m

theorem executeAlu_zero (rf : RegisterFile) (ctx : LaneContext) :
    executeAlu F i 0 rf ctx = rf := by
  have hfold : ∀ l : List Nat, l.foldl (fun rf lane =>
      if hasLane 0 lane then executeAluLane F i ctx rf lane else rf) rf = rf := by
    intro l
    induction l with
    | nil => rfl
    | cons a l ih => rwa [List.foldl_cons, BitVec.ofNat_eq_ofNat, hasLane_zero]
  exact hfold lanes

/-- An instruction other than the three that look past the mask does nothing on no lane. -/
theorem issue_nowhere (hb : i.opcode ≠ .bra) (he : i.opcode ≠ .exit) (hs : i.opcode ≠ .barSync)
    {r : Warp} (hexec : r.execMask i = 0) (m : σ) : r.issue F port i m
      = (.ok .issued, { r with pc := r.pc + 1, lastExec := 0, lastOpcode := i.opcode }, m) := by
  by_cases hmem : isMemoryOpcode i.opcode = true
  · rw [issue_memory F port hmem, hexec, memoryAccess, if_neg (not_not.2 rfl), accessLanes_zero]
    rfl
  · have halu : isAluOpcode i.opcode = true := by
      cases hi : i.opcode <;> simp_all [isMemoryOpcode, isAluOpcode]
    rw [issue_alu F port halu, hexec, executeAlu_zero]
    rfl

theorem issue_barrier_ne (hs : i.opcode = .barSync) (r : Warp) (m : σ) :
    (r.issue F port i m).1 ≠ .ok .issued := by
  intro h
  have hout := issue_outcome F port i r m
  rcases hr : r.issue F port i m with ⟨o, w', m'⟩
  rw [hr] at hout h
  cases hout
  · cases h
  · exact absurd hs ‹_›
  · cases h

/-- The guard law holds of every guarded instruction that a reachable warp is about to issue,
except of a `bar.sync` whose guard is false on all active lanes: that one parks the warp or
faults. -/
theorem guard_law (program : List Instruction) : ∀ w, Reachable F program w →
    ∀ (m : σ) (i : Instruction) (r : Warp), w.settle program = .ready i r →
    i.guard.present = true → i.opcode ≠ .bra → i.opcode ≠ .exit →
      (GuardLaw F port program w m i r
        ↔ ¬(i.opcode = .barSync ∧ ∀ lane, hasLane r.active lane = true → GuardFalse r i lane)) := by
  intro w _ m i r hs hg hb he
  have hstep : w.step F port program m = r.issue F port i m := by
    unfold step
    rw [hs]
  constructor
  · rintro ⟨-, -, hnowhere⟩ ⟨hbar, hall⟩
    refine issue_barrier_ne F port hbar r m ?_
    rw [← hstep, hnowhere hall]
  · intro hcond
    refine ⟨fun lane hl => ?_, ?_, fun hall => ?_⟩
    · have := issue_skip F port hb he m (not_hasLane_execMask hg hl)
      rwa [hstep, ← settle_registers hs]
    · obtain ⟨log, hr, hlog⟩ := step_records F port hs m []
      refine ⟨log, hr, fun lane hl hmem => ?_⟩
      have := hlog lane hmem
      rw [not_hasLane_execMask hg hl] at this
      cases this
    · rw [hstep]
      exact issue_nowhere F port hb he (fun hbar => hcond ⟨hbar, hall⟩)
        (execMask_eq_zero hg hall) m

/-- `@p0 bar.sync`, as the first instruction of a warp of one lane, whose predicates are false. -/
def guardedBarrier : Instruction := { opcode := .barSync, guard := ⟨true, false, 0⟩ }

theorem single_settle (i : Instruction) :
    (Warp.new 0 1 {}).settle [i] = .ready i (Warp.new 0 1 {}) :=
  settle_of_ready (by decide) (fun _ h => by cases h) rfl

/-- The law on an `add` with the same guard, at the same warp. -/
theorem guardedAdd_law : GuardLaw default nullMemory [{ guardedBarrier with opcode := .add }]
    (Warp.new 0 1 {}) () { guardedBarrier with opcode := .add } (Warp.new 0 1 {}) :=
  (guard_law default nullMemory [{ guardedBarrier with opcode := .add }] (Warp.new 0 1 {})
    ⟨0, 1, {}, .refl⟩ () { guardedBarrier with opcode := .add } (Warp.new 0 1 {}) (single_settle _)
    rfl (by decide) (by decide)).2 fun h => absurd h.1 (by decide)

/-- The barrier parks the only warp although no lane executes it. -/
theorem guardedBarrier_parks : Reachable default [guardedBarrier] (Warp.new 0 1 {})
    ∧ (Warp.new 0 1 {}).settle [guardedBarrier] = .ready guardedBarrier (Warp.new 0 1 {})
    ∧ (∀ lane, hasLane (Warp.new 0 1 {}).active lane = true →
      GuardFalse (Warp.new 0 1 {}) guardedBarrier lane)
    ∧ ((Warp.new 0 1 {}).step default nullMemory [guardedBarrier] ()).1 = .ok .barrier
    ∧ ¬GuardLaw default nullMemory [guardedBarrier] (Warp.new 0 1 {}) () guardedBarrier
      (Warp.new 0 1 {}) := by
  have hfalse : ∀ lane, hasLane (Warp.new 0 1 {}).active lane = true →
      GuardFalse (Warp.new 0 1 {}) guardedBarrier lane := fun lane h => ⟨h, rfl⟩
  have hstep :
      ((Warp.new 0 1 {}).step default nullMemory [guardedBarrier] ()).1 = .ok .barrier := by
    unfold step
    rw [single_settle]
    rfl
  refine ⟨⟨0, 1, {}, .refl⟩, single_settle _, hfalse, hstep, fun h => ?_⟩
  rw [h.nowhere hfalse] at hstep
  cases hstep

end Law

end Warp

end WarpSim
