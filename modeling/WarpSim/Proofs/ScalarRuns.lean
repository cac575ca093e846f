import WarpSim.Proofs.LaneRefinement

/-!
# A warp computes what its lanes compute alone

On programs whose instructions cannot fault, every step of the warp is one scalar step of some
lanes and none of the others. So a warp that finishes has run every lane to the end of its scalar
run, and a warp whose lanes all end cannot go on for ever: each step brings some lane nearer to
its end. Reconvergence PCs decide only which lanes step together.
-/

namespace WarpSim

open Warp

/-- The instructions that cannot fault: arithmetic, branches, exits, and loads of a parameter that
is there. -/
def Plain (m : BlockMemory) (i : Instruction) : Prop :=
  isAluOpcode i.opcode = true ∨ i.opcode = .bra ∨ i.opcode = .exit
    ∨ (i.opcode = .ldParam ∧ i.imm.toNat < m.params.length)

instance (m : BlockMemory) : DecidablePred (Plain m) :=
  fun _ => inferInstanceAs (Decidable (_ ∨ _ ∨ _ ∨ _))

/-- The program with the reconvergence halves of its branches replaced. -/
def withReconvergence (f : Nat → Pc) (program : List Instruction) : List Instruction :=
  program.mapIdx fun k i =>
    if i.opcode = .bra then { i with imm := Instruction.makeBranchImm i.branchTarget (f k) } else i

/-- The sum over the issues of the first `n` steps of the lanes that execute. -/
def executedLanes {σ : Type} (F : FloatOps) (port : MemoryPort σ) (program : List Instruction) :
    Nat → Warp → σ → Nat
  | 0, _, _ => 0
  | n + 1, w, m =>
    (match (w.step F port program m).1 with
      | .ok .issued | .ok .barrier => laneCount (w.step F port program m).2.1.lastExec
      | _ => 0)
    + executedLanes F port program n (w.step F port program m).2.1 (w.step F port program m).2.2

section Plain

variable {F : FloatOps} {program : List Instruction} {m : BlockMemory} {i : Instruction}
  {ctx : LaneContext}

theorem access_plain (hop : i.opcode = .ldParam) (hin : i.imm.toNat < m.params.length) (lane : Nat)
    (s : LaneState) : ∃ t, s.access BlockMemory.port i lane m = some (t, m) := by
  have hload : BlockMemory.port.load .param i.imm lane m = (.ok m.params[i.imm.toNat], m) := by
    simp only [BlockMemory.port, BlockMemory.load, List.getElem?_eq_getElem hin]
  refine ⟨s.write i.dst m.params[i.imm.toNat], ?_⟩
  simp only [LaneState.access, isStore, hop, accessSpace, LaneState.address, if_true]
  rw [if_neg (by decide), hload]

variable (F ctx) in
/-- Where there is an instruction, a lane can take its step, and the memory stays as it is. -/
theorem step_plain (hplain : ∀ i ∈ program, Plain m i) {s : LaneState}
    (hs : s.ended program = false) (lane : Nat) :
    ∃ t, s.step F BlockMemory.port ctx program lane m = some (t, m) := by
  rcases hpc : s.pc with _ | pc
  · simp [LaneState.ended, hpc] at hs
  · simp only [LaneState.ended, hpc, decide_eq_false_iff_not, Nat.not_le] at hs
    rw [step_at hpc (List.getElem?_eq_getElem hs)]
    set i := program[pc.toNat]
    split_ifs with hg
    · rcases hplain i (List.getElem_mem hs) with hop | hop | hop | ⟨hop, hin⟩
      · exact ⟨_, LaneState.execute_alu F _ ctx hop pc lane s m⟩
      · exact ⟨s.moveTo i.branchTarget, by rw [LaneState.execute, hop]⟩
      · exact ⟨{ s with pc := none }, by rw [LaneState.execute, hop]⟩
      · obtain ⟨t, ht⟩ := access_plain hop hin lane s
        refine ⟨t.moveTo (pc + 1), ?_⟩
        rw [LaneState.execute_memory F _ ctx (by rw [hop]; rfl), ht]
    · exact ⟨_, rfl⟩

theorem accessLanes_plain (hop : i.opcode = .ldParam) (hin : i.imm.toNat < m.params.length)
    {exec : LaneMask} {addresses : Nat → Word}
    (haddr : ∀ lane, hasLane exec lane = true → addresses lane = i.imm) :
    ∀ (l : List Nat) (w : Warp),
      ∃ w', accessLanes BlockMemory.port i exec addresses l w m = (.ok (), w', m)
  | [], w => ⟨w, rfl⟩
  | lane :: l, w => by
    rw [accessLanes]
    cases hx : hasLane exec lane
    · exact accessLanes_plain hop hin haddr l w
    · have hload : BlockMemory.port.load (accessSpace i.opcode) (addresses lane) lane m
          = (.ok m.params[i.imm.toNat], m) := by
        simp only [BlockMemory.port, BlockMemory.load, accessSpace, hop, haddr lane hx,
          List.getElem?_eq_getElem hin]
      have hst : isStore i.opcode = false := by rw [hop]; rfl
      simp only [Bool.not_true, Bool.false_eq_true, if_false, hst, hload]
      exact accessLanes_plain hop hin haddr l _

/-- Such an instruction issues, leaves the memory as it is, and reports the lanes it ran. -/
theorem issue_plain (hi : Plain m i) (r : Warp) : ∃ w',
    r.issue F BlockMemory.port i m = (.ok .issued, w', m) ∧ w'.lastExec = r.execMask i
      ∧ announce BlockMemory.port i r m = m := by
  rcases hi with hop | hop | hop | ⟨hop, hin⟩
  · have hmem : Warp.isMemoryOpcode i.opcode = false := by
      unfold Warp.isMemoryOpcode
      split <;> simp_all [isAluOpcode]
    exact ⟨_, issue_alu F _ hop r m, rfl, by rw [announce, hmem]; rfl⟩
  · refine ⟨_, by rw [issue, hop], ?_, by rw [announce, hop]; rfl⟩
    unfold branch
    simp only []
    split_ifs <;> rfl
  · exact ⟨_, by rw [issue, hop], rfl, by rw [announce, hop]; rfl⟩
  · have hann : announce BlockMemory.port i r m = m := by
      rw [announce, hop]
      split_ifs <;> rfl
    set w₀ : Warp := { r with lastExec := r.execMask i, lastOpcode := i.opcode }
    have haddr : ∀ lane, hasLane (r.execMask i) lane = true →
        w₀.accessAddresses i (r.execMask i) lane = i.imm := by
      intro lane hx
      rw [accessAddresses, if_pos hx, hop]
      rfl
    obtain ⟨w₁, hacc⟩ := accessLanes_plain hop hin haddr lanes w₀
    obtain ⟨rf, hw₁⟩ := accessLanes_warp BlockMemory.port i (r.execMask i)
      (w₀.accessAddresses i (r.execMask i)) lanes w₀ m
    rw [hacc] at hw₁
    have hmem : memoryAccess BlockMemory.port i (r.execMask i) w₀ m = (.ok (), w₁, m) := by
      rw [memoryAccess, ← hacc, hop]
      congr 1
      split_ifs <;> rfl
    refine ⟨w₁.advance, ?_, ?_, hann⟩
    · unfold issue
      rw [hop]
      simp only []
      rw [← hop, hmem]
    · have hw₁ : w₁ = { w₀ with registers := rf } := hw₁
      rw [hw₁]
      rfl

end Plain

section Lockstep

variable {F : FloatOps} {program : List Instruction} {m : BlockMemory}

/-- What a step does to the lanes: those of `moved` take one scalar step each, the others stay, or
retire where their run was over already. -/
structure Lockstep (F : FloatOps) (program : List Instruction) (m : BlockMemory)
    (moved : LaneMask) (w w' : Warp) : Prop where
  partition : Partition w'.toWarpState
  context : w'.context = w.context
  moves : ∀ lane, hasLane moved lane = true →
    (w.laneState lane).step F BlockMemory.port w.context program lane m
      = some (w'.laneState lane, m)
  keeps : ∀ lane, hasLane moved lane = false → w'.laneState lane = w.laneState lane
    ∨ ((w.laneState lane).ended program = true
      ∧ w'.laneState lane = { w.laneState lane with pc := none })

theorem laneCount_execMask (r : Warp) (i : Instruction) : laneCount (r.execMask i)
    = (lanes.map fun lane =>
        (hasLane r.active lane && (r.laneState lane).guardHolds i).toNat).sum := by
  rw [laneCount_eq_sum]
  exact congrArg List.sum (List.map_congr_left fun lane _ => by rw [execMask_guardHolds])

/-- A step of the warp finds every lane's run over, or moves some lanes on. -/
theorem step_lockstep (hplain : ∀ i ∈ program, Plain m i) {w : Warp}
    (hp : Partition w.toWarpState) : ∃ o w', w.step F BlockMemory.port program m = (.ok o, w', m)
      ∧ ((o = .finished ∧ Lockstep F program m 0 w w' ∧ w'.finished = true)
        ∨ (o = .issued ∧ ∃ i r, w.settle program = .ready i r
          ∧ r.issue F BlockMemory.port i m = (.ok .issued, w', m) ∧ r.active ≠ 0
          ∧ Lockstep F program m r.active w w'
          ∧ laneCount w'.lastExec = (lanes.map fun lane =>
              (hasLane r.active lane && (w.laneState lane).executes program).toNat).sum)) := by
  have hmicro := settle_micro F program w
  have hset := settle_settling program w hp
  rw [step]
  rcases hs : w.settle program with r | ⟨i, r⟩ <;> rw [hs] at hmicro hset
  · obtain ⟨hrun, hfin⟩ := hmicro
    have hpr := micro_invariant (fun _ _ => partition_micro) hrun hp
    refine ⟨.finished, r, rfl, .inl ⟨rfl, ⟨hpr, hset.context, by simp,
      fun lane _ => settling_keeps_or_ended hset hp hpr lane⟩, ?_⟩⟩
    obtain ⟨hactive, hstack⟩ := resolveIteration_finished hfin
    rw [WarpState.finished, ← (active_eq_live hpr).2 hstack, hactive]
    rfl
  · obtain ⟨hrun, hready, hpc⟩ := hmicro
    have hpr := micro_invariant (fun _ _ => partition_micro) hrun hp
    obtain ⟨w', hissue, hlast, hann⟩ := issue_plain (F := F)
      (hplain i (List.mem_of_getElem? hpc)) r
    obtain ⟨-, hlanes⟩ := issue_lanes hpr hpc hissue
    rw [hann, hset.context] at hlanes
    have hpw' : Partition w'.toWarpState := by
      have := partition_effect hpr (issue_effect F BlockMemory.port i r m)
      rwa [hissue] at this
    have hsame : ∀ lane, hasLane r.active lane = true → r.laneState lane = w.laneState lane :=
      fun lane ha => (hset.keeps lane (by rw [← ownPc_isSome hpr, ownPc_active ha]; rfl)).2
    have hpure : ∀ lane s (m₁ : BlockMemory) t m₂, m₁ = m →
        LaneState.step F BlockMemory.port w.context program lane s m₁ = some (t, m₂) → m₂ = m := by
      rintro lane s m₁ t m₂ rfl hst
      cases he : s.ended program
      · obtain ⟨t', ht'⟩ := step_plain F w.context hplain he lane
        rw [ht'] at hst
        cases hst
        rfl
      · rw [LaneState.step_ended he] at hst
        cases hst
    refine ⟨.issued, w', hissue, .inr ⟨rfl, i, r, rfl, hissue, (resolveIteration_settled hready).1,
      ⟨hpw', ?_, fun lane ha => ?_, fun lane ha => ?_⟩, ?_⟩⟩
    · have := (issue_context F BlockMemory.port i r m).1
      rwa [hissue, hset.context] at this
    · obtain ⟨m₁, m₂, rfl, hone⟩ := stepLanes_each ha (· = m) hpure lanes _ _ _ _
        List.nodup_range (hasLane_mem_lanes ha) rfl hlanes
      obtain rfl := hpure _ _ _ _ _ rfl hone
      rw [← hsame lane ha, hone]
    · rw [stepLanes_frame lanes _ _ _ _ (fun _ => ha) hlanes]
      exact settling_keeps_or_ended hset hp hpr lane
    · rw [hlast, laneCount_execMask]
      refine congrArg List.sum (List.map_congr_left fun lane _ => ?_)
      cases ha : hasLane r.active lane
      · rfl
      · rw [← hsame lane ha, LaneState.executes]
        have hpc' : (r.laneState lane).pc = some r.pc := ownPc_active ha
        simp only [hpc', hpc]

/-- The first `k` scalar steps end the run of `s`, with the registers of `t`. -/
def RunsTo (F : FloatOps) (ctx : LaneContext) (program : List Instruction) (m : BlockMemory)
    (lane k : Nat) (s t : LaneState) : Prop :=
  (s.steps F BlockMemory.port ctx program lane k m).1.ended program = true
  ∧ (s.steps F BlockMemory.port ctx program lane k m).1.general = t.general
  ∧ (s.steps F BlockMemory.port ctx program lane k m).1.predicates = t.predicates

theorem runsTo_ended {ctx : LaneContext} {lane : Nat} {s : LaneState} (k : Nat)
    (h : s.ended program = true) : RunsTo F ctx program m lane k s s := by
  rw [RunsTo, LaneState.steps_ended h]
  exact ⟨h, rfl, rfl⟩

/-- A lane's run before a step is its run after it, with the scalar step in front if it moved. -/
theorem lockstep_runs {moved : LaneMask} {w w' : Warp} (h : Lockstep F program m moved w w')
    {lane k : Nat} {t : LaneState}
    (hrun : RunsTo F w'.context program m lane k (w'.laneState lane) t) :
    RunsTo F w.context program m lane (k + (hasLane moved lane).toNat) (w.laneState lane) t
    ∧ (w.laneState lane).work F BlockMemory.port w.context program lane
        (k + (hasLane moved lane).toNat) m
      = (hasLane moved lane && (w.laneState lane).executes program).toNat
        + (w'.laneState lane).work F BlockMemory.port w'.context program lane k m := by
  rw [h.context] at hrun ⊢
  cases hm : hasLane moved lane
  · rcases h.keeps lane hm with hl | ⟨he, hl⟩
    · rw [hl] at hrun ⊢
      exact ⟨hrun, by simp⟩
    · have he' : (w'.laneState lane).ended program = true := by rw [hl]; rfl
      rw [RunsTo, LaneState.steps_ended he', hl] at hrun
      refine ⟨?_, by rw [LaneState.work_ended he, LaneState.work_ended he']; rfl⟩
      rw [RunsTo, LaneState.steps_ended he]
      exact ⟨he, hrun.2⟩
  · have hone := h.moves lane hm
    refine ⟨?_, ?_⟩
    · rw [RunsTo, Bool.toNat_true, LaneState.steps, hone]
      exact hrun
    · rw [Bool.toNat_true, LaneState.work, hone]
      rfl

/-- A warp that finishes has run every lane to the end of its scalar run, and executed as many
lanes as those runs execute instructions. -/
theorem finished_runs (hplain : ∀ i ∈ program, Plain m i) : ∀ (n : Nat) (w : Warp),
    Partition w.toWarpState → (w.steps F BlockMemory.port program n m).1.finished = true →
      ∃ k : Nat → Nat,
        (∀ lane, RunsTo F w.context program m lane (k lane) (w.laneState lane)
          ((w.steps F BlockMemory.port program n m).1.laneState lane))
        ∧ executedLanes F BlockMemory.port program n w m
          = (lanes.map fun lane =>
              (w.laneState lane).work F BlockMemory.port w.context program lane (k lane) m).sum
  | 0, w, hp, hfin => by
    have hfin : w.live = 0 := by simpa [steps, WarpState.finished] using hfin
    refine ⟨fun _ => 0, fun lane => runsTo_ended 0 ?_, ?_⟩
    · exact ended_of_dead hp (by rw [hfin]; exact hasLane_zero _)
    · simp [executedLanes, LaneState.work]
  | n + 1, w, hp, hfin => by
    obtain ⟨o, w', hstep, hcase⟩ := step_lockstep (F := F) hplain hp
    rw [steps, hstep] at hfin
    obtain ⟨moved, hl, hcount⟩ : ∃ moved, Lockstep F program m moved w w'
        ∧ (match (.ok o : Except Fault StepOutcome) with
          | .ok .issued | .ok .barrier => laneCount w'.lastExec
          | _ => 0) = (lanes.map fun lane =>
            (hasLane moved lane && (w.laneState lane).executes program).toNat).sum := by
      rcases hcase with ⟨ho, hl, -⟩ | ⟨ho, i, r, -, -, -, hl, hcount⟩
      · exact ⟨0, hl, by simp [ho]⟩
      · exact ⟨r.active, hl, by rw [ho, ← hcount]⟩
    obtain ⟨k, hruns, hsum⟩ := finished_runs hplain n w' hl.partition hfin
    refine ⟨fun lane => k lane + (hasLane moved lane).toNat, fun lane => ?_, ?_⟩
    · rw [steps, hstep]
      exact (lockstep_runs hl (hruns lane)).1
    · have hwork := fun lane => (lockstep_runs hl (hruns lane)).2
      simp only [hwork]
      rw [executedLanes, hstep, hsum, List.sum_map_add, ← hcount]

/-- A lane that moves has a step left, and after it one step fewer to its end. -/
theorem lockstep_ends {moved : LaneMask} {w w' : Warp} (h : Lockstep F program m moved w w')
    {k : Nat → Nat}
    (hends : ∀ lane, ((w.laneState lane).steps F BlockMemory.port w.context program lane (k lane)
      m).1.ended program = true) :
    ∃ k' : Nat → Nat, (∀ lane, k lane = k' lane + (hasLane moved lane).toNat)
      ∧ ∀ lane, ((w'.laneState lane).steps F BlockMemory.port w'.context program lane (k' lane)
        m).1.ended program = true := by
  have hone : ∀ lane, ∃ k', k lane = k' + (hasLane moved lane).toNat
      ∧ ((w'.laneState lane).steps F BlockMemory.port w'.context program lane k' m).1.ended program
        = true := by
    intro lane
    have hend := hends lane
    rw [h.context]
    cases hm : hasLane moved lane
    · refine ⟨k lane, rfl, ?_⟩
      rcases h.keeps lane hm with hkeep | ⟨he, hkeep⟩
      · rw [hkeep]
        exact hend
      · have he' : (w'.laneState lane).ended program = true := by rw [hkeep]; rfl
        rw [LaneState.steps_ended he']
        exact he'
    · have hmove := h.moves lane hm
      rcases hk : k lane with _ | n
      · rw [hk, LaneState.steps] at hend
        rw [LaneState.step_ended hend] at hmove
        cases hmove
      · rw [hk, LaneState.steps, hmove] at hend
        exact ⟨n, rfl, hend⟩
  choose k' hk' using hone
  exact ⟨k', fun lane => (hk' lane).1, fun lane => (hk' lane).2⟩

/-- While a lane's run is not over, a step brings some lane nearer to its end. -/
theorem runs_finish (hplain : ∀ i ∈ program, Plain m i) (k : Nat → Nat) (w : Warp)
    (hp : Partition w.toWarpState)
    (hends : ∀ lane, ((w.laneState lane).steps F BlockMemory.port w.context program lane (k lane)
      m).1.ended program = true) :
    ∃ n, (w.steps F BlockMemory.port program n m).1.finished = true := by
  obtain ⟨o, w', hstep, ⟨-, -, hfin⟩ | ⟨-, i, r, -, -, hne, hl, -⟩⟩ :=
    step_lockstep (F := F) hplain hp
  · exact ⟨1, by rw [steps, hstep]; exact hfin⟩
  · obtain ⟨k', hk', hends'⟩ := lockstep_ends hl hends
    have hlt : (lanes.map k').sum < (lanes.map k).sum := by
      obtain ⟨lane, hm⟩ := mask_ne_zero.1 hne
      refine List.sum_lt_sum _ _ (fun lane _ => ?_) ⟨lane, hasLane_mem_lanes hm, ?_⟩
      · rw [hk']
        exact Nat.le_add_right _ _
      · rw [hk', hm]
        exact Nat.lt_succ_self _
    obtain ⟨n, hn⟩ := runs_finish hplain k' w' hl.partition hends'
    exact ⟨n + 1, by rw [steps, hstep]; exact hn⟩
termination_by (lanes.map k).sum
decreasing_by exact hlt

end Lockstep

section Reconvergence

variable {F : FloatOps} {program : List Instruction} {m : BlockMemory} {ctx : LaneContext}
  {f : Nat → Pc}

theorem getElem?_withReconvergence (k : Nat) : (withReconvergence f program)[k]?
    = program[k]?.map fun i =>
      if i.opcode = .bra then { i with imm := Instruction.makeBranchImm i.branchTarget (f k) }
      else i :=
  List.getElem?_mapIdx

theorem plain_withReconvergence (h : ∀ i ∈ program, Plain m i) :
    ∀ i ∈ withReconvergence f program, Plain m i := by
  intro i hi
  obtain ⟨k, hk⟩ := List.mem_iff_getElem?.1 hi
  rw [getElem?_withReconvergence] at hk
  obtain ⟨i', hi', rfl⟩ := Option.map_eq_some_iff.1 hk
  split_ifs with hop
  · exact .inr (.inl hop)
  · exact h i' (List.mem_of_getElem? hi')

theorem ended_withReconvergence (s : LaneState) :
    s.ended (withReconvergence f program) = s.ended program := by
  rw [LaneState.ended, LaneState.ended, withReconvergence, List.length_mapIdx]

theorem guardHolds_withReconvergence (s : LaneState) (i : Instruction) (imm : Word) :
    s.guardHolds { i with imm := imm } = s.guardHolds i :=
  rfl

/-- A lane alone reads no reconvergence PC. -/
theorem step_withReconvergence (lane : Nat) (s : LaneState) :
    s.step F BlockMemory.port ctx (withReconvergence f program) lane m
      = s.step F BlockMemory.port ctx program lane m := by
  rw [LaneState.step, LaneState.step]
  rcases s.pc with _ | pc
  · rfl
  · simp only [getElem?_withReconvergence]
    rcases program[pc.toNat]? with _ | i
    · rfl
    · simp only [Option.map_some]
      by_cases hop : i.opcode = .bra
      · have ht := Instruction.branchTarget_makeBranchImm i i.branchTarget (f pc.toNat)
        rw [if_pos hop, guardHolds_withReconvergence, LaneState.execute, LaneState.execute]
        simp only [ht]
        rw [hop]
      · rw [if_neg hop]

theorem executes_withReconvergence (s : LaneState) :
    s.executes (withReconvergence f program) = s.executes program := by
  rw [LaneState.executes, LaneState.executes]
  rcases s.pc with _ | pc
  · rfl
  · simp only [getElem?_withReconvergence]
    rcases program[pc.toNat]? with _ | i
    · rfl
    · simp only [Option.map_some]
      split_ifs <;> rfl

theorem steps_withReconvergence (lane : Nat) : ∀ (n : Nat) (s : LaneState),
    (∀ i ∈ program, Plain m i) →
      s.steps F BlockMemory.port ctx (withReconvergence f program) lane n m
        = s.steps F BlockMemory.port ctx program lane n m
      ∧ s.work F BlockMemory.port ctx (withReconvergence f program) lane n m
        = s.work F BlockMemory.port ctx program lane n m
  | 0, _, _ => ⟨rfl, rfl⟩
  | n + 1, s, hplain => by
    rw [LaneState.steps, LaneState.steps, LaneState.work, LaneState.work, step_withReconvergence,
      executes_withReconvergence]
    cases he : s.ended program
    · obtain ⟨t, ht⟩ := step_plain F ctx hplain he lane
      obtain ⟨h1, h2⟩ := steps_withReconvergence lane n t hplain
      rw [ht]
      exact ⟨h1, congrArg (_ + ·) h2⟩
    · rw [LaneState.step_ended he]
      exact ⟨rfl, rfl⟩

end Reconvergence

section Statement

variable (F : FloatOps) (program : List Instruction) (m : BlockMemory) (w : Warp)

/-- The warp after `n` steps of the program with the given reconvergence PCs. -/
def runWith (f : Nat → Pc) (n : Nat) : Warp :=
  (w.steps F BlockMemory.port (withReconvergence f program) n m).1

/-- A lane after `k` scalar steps by itself. -/
def laneAlone (lane k : Nat) : LaneState :=
  ((w.laneState lane).steps F BlockMemory.port w.context program lane k m).1

variable {F program m w}

/-- The lanes that are not live are where they end. -/
theorem laneAlone_dead (hp : Partition w.toWarpState) {lane : Nat}
    (hl : hasLane w.live lane = false) (k : Nat) :
    (laneAlone F program m w lane k).ended program = true
      ∧ (w.laneState lane).work F BlockMemory.port w.context program lane k m = 0 := by
  have he : (w.laneState lane).ended program = true := ended_of_dead hp hl
  rw [laneAlone, LaneState.steps_ended he]
  exact ⟨he, LaneState.work_ended he k m⟩

theorem runWith_finished (hplain : ∀ i ∈ program, Plain m i) (hp : Partition w.toWarpState)
    {f : Nat → Pc} {n : Nat} (hfin : (runWith F program m w f n).finished = true) :
    ∃ k : Nat → Nat, (∀ lane, (laneAlone F program m w lane (k lane)).ended program = true
        ∧ (laneAlone F program m w lane (k lane)).general
          = (runWith F program m w f n).registers.general lane
        ∧ (laneAlone F program m w lane (k lane)).predicates
          = (runWith F program m w f n).registers.predicates lane)
      ∧ executedLanes F BlockMemory.port (withReconvergence f program) n w m
        = (lanes.map fun lane =>
            (w.laneState lane).work F BlockMemory.port w.context program lane (k lane) m).sum := by
  obtain ⟨k, hruns, hsum⟩ := finished_runs (plain_withReconvergence hplain) n w hp hfin
  refine ⟨k, fun lane => ?_, ?_⟩
  · have h := hruns lane
    rw [RunsTo, (steps_withReconvergence lane (k lane) _ hplain).1, ended_withReconvergence] at h
    exact h
  · rw [hsum]
    exact congrArg List.sum (List.map_congr_left fun lane _ =>
      (steps_withReconvergence lane (k lane) _ hplain).2)

/-- Whatever the reconvergence PCs, a warp finishes exactly if every live lane's scalar run ends,
and then with the registers of those runs and as many executing lanes as they execute
instructions. So no two choices of reconvergence PCs differ in more than the number of issues. -/
theorem results_of_scalar_runs (F : FloatOps) (program : List Instruction) (m : BlockMemory)
    (hplain : ∀ i ∈ program, Plain m i) (warpId : Word) (live : LaneMask) (context : LaneContext)
    (f : Nat → Pc) :
    let w := Warp.new warpId live context
    ((∃ n, (runWith F program m w f n).finished = true)
      ↔ ∀ lane, hasLane live lane = true →
        ∃ k, (laneAlone F program m w lane k).ended program = true)
    ∧ (∀ n, (runWith F program m w f n).finished = true → ∀ k : Nat → Nat,
        (∀ lane, hasLane live lane = true →
          (laneAlone F program m w lane (k lane)).ended program = true) →
        (∀ lane, hasLane live lane = true →
          (runWith F program m w f n).registers.general lane
            = (laneAlone F program m w lane (k lane)).general
          ∧ (runWith F program m w f n).registers.predicates lane
            = (laneAlone F program m w lane (k lane)).predicates)
        ∧ executedLanes F BlockMemory.port (withReconvergence f program) n w m
          = (lanes.map fun lane => if hasLane live lane then
              (w.laneState lane).work F BlockMemory.port context program lane (k lane) m
            else 0).sum)
    ∧ ∀ g n n', (runWith F program m w f n).finished = true →
        (runWith F program m w g n').finished = true →
        (runWith F program m w f n).registers = (runWith F program m w g n').registers
        ∧ executedLanes F BlockMemory.port (withReconvergence f program) n w m
          = executedLanes F BlockMemory.port (withReconvergence g program) n' w m := by
  intro w
  have hp : Partition w.toWarpState := partition_new warpId live context
  have hstable : ∀ lane k k', (laneAlone F program m w lane k).ended program = true →
      (laneAlone F program m w lane k').ended program = true →
      laneAlone F program m w lane k = laneAlone F program m w lane k'
        ∧ (w.laneState lane).work F BlockMemory.port context program lane k m
          = (w.laneState lane).work F BlockMemory.port context program lane k' m := by
    intro lane k k' h h'
    obtain ⟨h1, h2⟩ := LaneState.steps_stable k k' _ m h h'
    exact ⟨congrArg Prod.fst h1, h2⟩
  refine ⟨⟨?_, fun hends => ?_⟩, fun n hfin k hk => ?_, fun g n n' hf hg => ?_⟩
  · rintro ⟨n, hfin⟩ lane -
    obtain ⟨k, hruns, -⟩ := runWith_finished hplain hp hfin
    exact ⟨k lane, (hruns lane).1⟩
  · have hall : ∀ lane, ∃ k, (laneAlone F program m w lane k).ended program = true := by
      intro lane
      cases hl : hasLane live lane
      · exact ⟨0, (laneAlone_dead hp hl 0).1⟩
      · exact hends lane hl
    choose k hk using hall
    refine runs_finish (plain_withReconvergence hplain) k w hp fun lane => ?_
    rw [(steps_withReconvergence lane (k lane) _ hplain).1, ended_withReconvergence]
    exact hk lane
  · obtain ⟨k', hruns, hsum⟩ := runWith_finished hplain hp hfin
    refine ⟨fun lane hl => ?_, ?_⟩
    · obtain ⟨h1, h2, h3⟩ := hruns lane
      rw [← h2, ← h3, (hstable lane _ _ h1 (hk lane hl)).1]
      exact ⟨rfl, rfl⟩
    · rw [hsum]
      refine congrArg List.sum (List.map_congr_left fun lane _ => ?_)
      cases hl : hasLane live lane
      · exact (laneAlone_dead hp hl _).2
      · exact (hstable lane _ _ (hruns lane).1 (hk lane hl)).2
  · obtain ⟨k, hruns, hsum⟩ := runWith_finished hplain hp hf
    obtain ⟨k', hruns', hsum'⟩ := runWith_finished hplain hp hg
    have hsame := fun lane => hstable lane _ _ (hruns lane).1 (hruns' lane).1
    refine ⟨?_, ?_⟩
    · have hgen : (runWith F program m w f n).registers.general
          = (runWith F program m w g n').registers.general := by
        funext lane
        rw [← (hruns lane).2.1, (hsame lane).1, (hruns' lane).2.1]
      have hpred : (runWith F program m w f n).registers.predicates
          = (runWith F program m w g n').registers.predicates := by
        funext lane
        rw [← (hruns lane).2.2, (hsame lane).1, (hruns' lane).2.2]
      calc (runWith F program m w f n).registers
          = ⟨(runWith F program m w f n).registers.general,
              (runWith F program m w f n).registers.predicates⟩ := rfl
        _ = (runWith F program m w g n').registers := by rw [hgen, hpred]
    · rw [hsum, hsum']
      exact congrArg List.sum (List.map_congr_left fun lane _ => (hsame lane).2)

/-- Lanes below 16 branch over the addition; the others do not. -/
def branchingProgram : List Instruction :=
  [{ opcode := .movSreg, src0 := 8 },
    { opcode := .setpLtS32, immFlag := true, imm := 16 },
    { opcode := .bra, guard := ⟨true, false, 0⟩, imm := Instruction.makeBranchImm 4 4 },
    { opcode := .add, dst := 1, immFlag := true, imm := 5 },
    { opcode := .ldParam, dst := 2, immFlag := true }, { opcode := .exit }]

theorem branchingProgram_results :
    (runWith default branchingProgram ⟨⟨[]⟩, ⟨[]⟩, [7], {}⟩ (Warp.new 0 fullMask {})
      (fun _ => 4) 6).registers
    = (runWith default branchingProgram ⟨⟨[]⟩, ⟨[]⟩, [7], {}⟩ (Warp.new 0 fullMask {})
      (fun _ => 0xFFFF) 8).registers :=
  ((results_of_scalar_runs default branchingProgram ⟨⟨[]⟩, ⟨[]⟩, [7], {}⟩ (by decide) 0 fullMask {}
    fun _ => 4).2.2 (fun _ => 0xFFFF) 6 8 (by decide +kernel) (by decide +kernel)).1

end Statement

end WarpSim
