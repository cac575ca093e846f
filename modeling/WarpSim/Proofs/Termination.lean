import WarpSim.Proofs.Counters
import WarpSim.Proofs.Geometry
import WarpSim.Proofs.LaneRefinement

/-!
# Programs without backward branches come to an end

Every issue moves the active lanes forward, so what the lanes have left of the program bounds the
issues of a block. The exception is the last addressable word: past it the 16-bit pc is back at
the beginning, and nothing in a launch keeps a program from being that long.
-/

namespace WarpSim

/-- Every branch goes forward. -/
def ForwardOnly (program : List Instruction) : Prop :=
  ∀ (pc : Nat) (i : Instruction), program[pc]? = some i → i.opcode = .bra →
    pc < i.branchTarget.toNat

namespace Warp

/-- The next step of the warp issues the word at the last 16-bit pc and leaves a lane there to go
on. -/
def Wraps (program : List Instruction) (w : Warp) : Prop :=
  ∃ i r, w.settle program = .ready i r ∧ r.pc = 0xFFFF
    ∧ ¬(i.opcode = .exit ∧ r.execMask i = r.active)

section Moves

variable {σ : Type} {F : FloatOps} {port : MemoryPort σ} {program : List Instruction}

/-- Where a lane of the current path goes when it does not fault, and that the others stay. -/
structure Moves (i : Instruction) (r w' : Warp) : Prop where
  active : ∀ lane, hasLane r.active lane = true →
    (w'.ownPc lane = none ∧ i.opcode = .exit)
      ∨ (w'.ownPc lane = some i.branchTarget ∧ i.opcode = .bra)
      ∨ (w'.ownPc lane = some (r.pc + 1)
        ∧ ¬(i.opcode = .exit ∧ hasLane (r.execMask i) lane = true))
  others : ∀ lane, hasLane r.active lane = false → w'.ownPc lane = r.ownPc lane

theorem moves_advance {i : Instruction} {r w₀ : Warp} (hop : i.opcode ≠ .exit) (hpc : w₀.pc = r.pc)
    (hm : SameMasks r w₀) : Moves i r w₀.advance := by
  have h : ∀ lane, w₀.advance.ownPc lane
      = if hasLane r.active lane then some (r.pc + 1) else r.ownPc lane := by
    intro lane
    have := congrArg LaneState.pc (laneState_advance hpc hm lane)
    split_ifs at this ⊢ <;> exact this
  refine ⟨fun lane ha => .inr (.inr ⟨?_, fun hx => hop hx.1⟩), fun lane ha => ?_⟩
  · rw [h, if_pos ha]
  · rw [h, if_neg (by simp [ha])]

theorem moves_issue {i : Instruction} {r w' : Warp} {m m' : σ} {o : StepOutcome}
    (hp : Partition r.toWarpState) (h : r.issue F port i m = (.ok o, w', m')) : Moves i r w' := by
  by_cases hmem : isMemoryOpcode i.opcode = true
  · have hop : i.opcode ≠ .exit := by
      rintro hx
      rw [hx] at hmem
      cases hmem
    rw [issue_memory F port hmem] at h
    obtain ⟨rf, hw⟩ := memoryAccess_warp port i (r.execMask i)
      { r with lastExec := r.execMask i, lastOpcode := i.opcode } m
    rcases hacc : memoryAccess port i (r.execMask i)
      { r with lastExec := r.execMask i, lastOpcode := i.opcode } m with ⟨f | u, w₁, m₁⟩ <;>
      rw [hacc] at h hw <;> cases h
    simp only [] at hw
    subst hw
    exact moves_advance hop rfl ⟨rfl, rfl, rfl⟩
  · unfold issue at h
    simp only [] at h
    split at h
    · cases h
      rename_i hop
      let w₀ : Warp := { r with lastExec := r.execMask i, lastOpcode := i.opcode }
      have hbranch := ownPc_branch (i := i) (show w₀.pc = r.pc from rfl) ⟨rfl, rfl, rfl⟩
      refine ⟨fun lane ha => ?_, fun lane ha => ?_⟩
      · have := hbranch lane
        rw [if_pos ha] at this
        split_ifs at this
        · exact .inr (.inl ⟨this, hop⟩)
        · exact .inr (.inr ⟨this, fun hx => by rw [hop] at hx; cases hx.1⟩)
      · have := hbranch lane
        rwa [if_neg (by simp [ha])] at this
    · cases h
      rename_i hop
      have hown := ownPc_retire (r.execMask i) hp (fun _ => execMask_sub_active)
      let w₀ : Warp := { r with lastExec := r.execMask i, lastOpcode := i.opcode }
      have hadv := fun lane => congrArg LaneState.pc (laneState_advance
        (show (w₀.retire (r.execMask i)).pc = (r.retire (r.execMask i)).pc from rfl)
        ⟨rfl, rfl, rfl⟩ lane)
      have hact : ∀ lane, hasLane (r.retire (r.execMask i)).active lane
          = (hasLane r.active lane && !hasLane (r.execMask i) lane) :=
        fun lane => hasLane_and_not _ _ _
      refine ⟨fun lane ha => ?_, fun lane ha => ?_⟩
      · have h1 := hadv lane
        by_cases hx : hasLane (r.execMask i) lane = true
        · rw [if_neg (by rw [hact]; simp [hx])] at h1
          exact .inl ⟨h1.trans ((hown lane).trans (if_pos hx)), hop⟩
        · rw [if_pos (by rw [hact]; simp [ha, hx])] at h1
          exact .inr (.inr ⟨h1, fun hx' => hx hx'.2⟩)
      · have hx : hasLane (r.execMask i) lane = false := by
          by_contra hx
          rw [execMask_sub_active (by simpa using hx)] at ha
          cases ha
        have h1 := hadv lane
        rw [if_neg (by rw [hact]; simp [ha])] at h1
        exact h1.trans ((hown lane).trans (if_neg (by simp [hx])))
    · rename_i hop
      split_ifs at h <;> cases h
      exact moves_advance (by rw [hop]; decide) rfl ⟨rfl, rfl, rfl⟩
    iterate 5 simp_all [isMemoryOpcode]
    · cases h
      rename_i hop _ _ _ _ _ _
      exact moves_advance hop rfl ⟨rfl, rfl, rfl⟩

end Moves

section Remaining

variable {F : FloatOps} {program : List Instruction}

/-- How much of the program a lane at a pc can still go through, at one word a step. -/
def pathWeight : Option Pc → Nat
  | none => 0
  | some pc => 65536 - pc.toNat

/-- How many issues the warp's lanes have left, if all of them go forward. -/
def remaining (w : Warp) : Nat := (lanes.map fun lane => pathWeight (w.ownPc lane)).sum

theorem pathWeight_pos (pc : Pc) : 1 ≤ pathWeight (some pc) := by
  have := pc.isLt
  rw [pathWeight]
  omega

theorem remaining_le {w w' : Warp}
    (h : ∀ lane, pathWeight (w'.ownPc lane) ≤ pathWeight (w.ownPc lane)) :
    w'.remaining ≤ w.remaining :=
  List.sum_le_sum fun lane _ => h lane

theorem remaining_lt {w w' : Warp}
    (h : ∀ lane, pathWeight (w'.ownPc lane) ≤ pathWeight (w.ownPc lane)) {lane : Nat}
    (hlane : lane ∈ lanes) (hlt : pathWeight (w'.ownPc lane) < pathWeight (w.ownPc lane)) :
    w'.remaining < w.remaining :=
  List.sum_lt_sum _ _ (fun lane _ => h lane) ⟨lane, hlane, hlt⟩

/-- Settling moves no lane; it may retire some. -/
theorem pathWeight_settling {w r : Warp} (h : Settling program w r) (hr : Partition r.toWarpState)
    (lane : Nat) : pathWeight (r.ownPc lane) ≤ pathWeight (w.ownPc lane) := by
  by_cases hl : hasLane r.live lane = true
  · exact Nat.le_of_eq (congrArg (fun s => pathWeight (LaneState.pc s)) (h.keeps lane hl).2)
  · rw [ownPc_none hr (by simpa using hl)]
    exact Nat.zero_le _

/-- A step that does not fault and does not wrap takes something from what is left. -/
theorem remaining_step (hforward : ForwardOnly program) {w w' : Warp} {m m' : BlockMemory}
    {o : StepOutcome} (hp : Partition w.toWarpState) (hlive : w.finished = false)
    (hwraps : ¬w.Wraps program)
    (h : w.step F BlockMemory.port program m = (.ok o, w', m')) : w'.remaining < w.remaining := by
  have hsettle := settle_settling program w hp
  have hmicro := settle_micro F program w
  unfold step at h
  rcases hs : w.settle program with r | ⟨i, r⟩ <;> rw [hs] at hsettle hmicro h
  · cases h
    have hpr := micro_invariant (fun _ _ hp h => partition_micro hp h) hmicro.1 hp
    obtain ⟨hactive, hstack⟩ := resolveIteration_finished hmicro.2
    obtain ⟨lane, hl⟩ := mask_ne_zero.1 (show w.live ≠ 0 by simpa [WarpState.finished] using hlive)
    refine remaining_lt (pathWeight_settling hsettle hpr) (hasLane_mem_lanes hl) ?_
    obtain ⟨pc, hpc⟩ := Option.isSome_iff_exists.1 ((ownPc_isSome hp lane).trans hl)
    have hnone : w'.ownPc lane = none := by
      rw [ownPc_deferred (by rw [hactive]; exact hasLane_zero lane), hstack]
      rfl
    rw [hnone, hpc]
    exact pathWeight_pos pc
  · have hpr := micro_invariant (fun _ _ hp h => partition_micro hp h) hmicro.1 hp
    obtain ⟨hready, hi⟩ := hmicro.2
    have hmoves := moves_issue hpr h
    have hforward' := hforward _ _ hi
    have hwrap : ∀ lane, hasLane r.active lane = true → ¬(i.opcode = .exit
        ∧ hasLane (r.execMask i) lane = true) → (r.pc + 1).toNat = r.pc.toNat + 1 := by
      intro lane ha hexit
      have hne : r.pc ≠ 0xFFFF := by
        intro hpc
        refine hwraps ⟨i, r, hs, hpc, fun hx => hexit ⟨hx.1, ?_⟩⟩
        rw [hx.2]
        exact ha
      have hlt := r.pc.isLt
      have hne' : r.pc.toNat ≠ 65535 := fun h => hne (BitVec.eq_of_toNat_eq h)
      rw [BitVec.toNat_add]
      exact Nat.mod_eq_of_lt (show r.pc.toNat + 1 < 65536 by omega)
    have hdown : ∀ lane, hasLane r.active lane = true →
        pathWeight (w'.ownPc lane) < pathWeight (r.ownPc lane) := by
      intro lane ha
      have hlt := r.pc.isLt
      rw [ownPc_active ha]
      rcases hmoves.active lane ha with ⟨h1, -⟩ | ⟨h1, hbra⟩ | ⟨h1, hexit⟩ <;> rw [h1]
      · exact pathWeight_pos r.pc
      · have := hforward' hbra
        simp only [pathWeight]
        omega
      · have := hwrap lane ha hexit
        simp only [pathWeight]
        omega
    obtain ⟨lane, ha⟩ := mask_ne_zero.1 (resolveIteration_settled hready).1
    refine Nat.lt_of_lt_of_le (remaining_lt (fun lane => ?_) (hasLane_mem_lanes ha)
      (hdown lane ha)) (remaining_le (pathWeight_settling hsettle hpr))
    by_cases ha' : hasLane r.active lane = true
    · exact Nat.le_of_lt (hdown lane ha')
    · rw [hmoves.others lane (by simpa using ha')]

end Remaining

end Warp

namespace Scheduler

variable {F : FloatOps} {program : List Instruction}

section Rank

/-- The warps of a block all keep the mask partition. -/
def Partitioned (s : Scheduler) : Prop := ∀ w ∈ s.warps, Partition w.toWarpState

theorem partitioned_advance {s s' : Scheduler} {event : Event} (hp : s.Partitioned)
    (hadv : s.advance F program = .running event s') : s'.Partitioned :=
  warps_advance (fun _ _ hp h => Warp.partition_micro hp h) hp hadv

theorem partitioned_startBlock (l : Launch) (ctaid : Dim2) (d : LaunchState) :
    (l.startBlock ctaid d).Partitioned := by
  intro w hw
  obtain ⟨n, -, rfl⟩ := List.mem_map.1 hw
  exact Warp.partition_new _ _ _

/-- A warp whose turn is still to come in this pass is runnable. -/
def Ahead (s : Scheduler) : Prop :=
  ∃ k, s.next ≤ k ∧ ∃ w, s.warps[k]? = some w ∧ w.runnable = true

open scoped Classical in
/-- How many passes may end before the next issue: none if there is one ahead in this pass; one,
which completes the barrier; or two, if something was issued in this pass. -/
noncomputable def passesLeft (s : Scheduler) : Nat :=
  if s.Ahead then 0 else if s.anyRunnable then 2 else 1

def remaining (s : Scheduler) : Nat := (s.warps.map Warp.remaining).sum

/-- What is left of a block: the issues of its warps first, then the passes before the next issue,
then the turns before the pass ends. -/
noncomputable def rank (s : Scheduler) : Nat :=
  s.remaining * (3 * (s.warps.length + 1)) + s.passesLeft * (s.warps.length + 1)
    + (s.warps.length - s.next)

theorem passesLeft_le (s : Scheduler) : s.passesLeft ≤ 2 := by
  unfold passesLeft
  split_ifs <;> decide

theorem passesLeft_pos {s : Scheduler} (h : s.warps[s.next]? = none) :
    s.passesLeft = if s.anyRunnable then 2 else 1 := by
  refine if_neg ?_
  rintro ⟨k, hk, w, hw, -⟩
  have h1 := List.getElem?_eq_none_iff.1 h
  have h2 := (List.getElem?_eq_some_iff.1 hw).1
  omega

theorem ahead_release {s : Scheduler} (hunfinished : s.anyUnfinished = true) :
    s.release.newPass.Ahead := by
  obtain ⟨w, hw, hfin⟩ := List.any_eq_true.1 hunfinished
  obtain ⟨k, hk⟩ := List.mem_iff_getElem?.1 hw
  refine ⟨k, Nat.zero_le k, { w with parked := false }, ?_, ?_⟩
  · show (s.warps.map _)[k]? = _
    rw [List.getElem?_map, hk]
    rfl
  · rw [runnable_iff]
    rw [Bool.not_eq_true'] at hfin
    exact ⟨hfin, rfl⟩

/-- The rank with another bound on the issues that are left. -/
noncomputable def rankOf (left : Nat) (s : Scheduler) : Nat :=
  left * (3 * (s.warps.length + 1)) + s.passesLeft * (s.warps.length + 1)
    + (s.warps.length - s.next)

/-- An action of the scheduler lowers the rank, if every turn taken lowers what is left. -/
theorem rankOf_advance {s s' : Scheduler} {event : Event} {left left' : Nat}
    (hle : left' ≤ left) (hturn : ∀ warp, s.warps[s.next]? = some warp → warp.runnable = true →
      left' < left) (hadv : s.advance F program = .running event s') :
    s'.rankOf left' < s.rankOf left := by
  have hleft := Nat.mul_le_mul_right (3 * (s.warps.length + 1)) hle
  cases advance_cases hadv with
  | skip warp hwarp hrun =>
    have hlt := (List.getElem?_eq_some_iff.1 hwarp).1
    have hahead : ({ s with next := s.next + 1 } : Scheduler).Ahead ↔ s.Ahead := by
      constructor
      · rintro ⟨k, hk, h⟩
        exact ⟨k, Nat.le_of_succ_le hk, h⟩
      · rintro ⟨k, hk, w, hw, hr⟩
        have hne : k ≠ s.next := by
          rintro rfl
          rw [hwarp, Option.some.injEq] at hw
          rw [← hw, hrun] at hr
          cases hr
        exact ⟨k, Nat.lt_of_le_of_ne hk (Ne.symm hne), w, hw, hr⟩
    have hpasses : ({ s with next := s.next + 1 } : Scheduler).passesLeft = s.passesLeft := by
      classical exact if_congr hahead rfl rfl
    unfold rankOf
    rw [hpasses]
    simp only []
    omega
  | step warp w' outcome m' hwarp hrun hstep =>
    generalize hs' : ({ warps := s.warps.set s.next w'
                        memory := m'
                        stats := if outcome ≠ .finished then s.stats.countIssue w' else s.stats
                        next := s.next + 1
                        anyRunnable := true } : Scheduler) = s'
    have hlen : s'.warps.length = s.warps.length := by
      rw [← hs']
      exact List.length_set
    have hpasses := passesLeft_le s'
    have hmul := Nat.mul_le_mul_right (3 * (s.warps.length + 1))
      (Nat.succ_le_of_lt (hturn warp hwarp hrun))
    have hmul' := Nat.mul_le_mul_right (s.warps.length + 1) hpasses
    unfold rankOf
    rw [hlen]
    rw [Nat.succ_mul] at hmul
    omega
  | release hend hunfinished hparked =>
    have hpasses : s.release.newPass.passesLeft = 0 := if_pos (ahead_release hunfinished)
    have hlen : s.release.newPass.warps.length = s.warps.length := List.length_map _
    have hpos := passesLeft_pos hend
    have h1 : 1 ≤ s.passesLeft := by
      rw [hpos]
      split_ifs <;> decide
    have hmul := Nat.mul_le_mul_right (s.warps.length + 1) h1
    unfold rankOf
    rw [hpasses, hlen]
    omega
  | pass hend hparked hrunnable =>
    have hpos := passesLeft_pos hend
    rw [if_pos hrunnable] at hpos
    have hpasses : s.newPass.passesLeft ≤ 1 := by
      unfold passesLeft
      split_ifs with h1 h2
      · decide
      · cases h2
      · exact Nat.le_refl 1
    have hmul := Nat.mul_le_mul_right (s.warps.length + 1) hpasses
    have hsame : s.newPass.warps = s.warps := rfl
    unfold rankOf
    rw [hpos, hsame]
    omega

theorem remaining_turn (hforward : ForwardOnly program) {s : Scheduler} {warp w' : Warp}
    {outcome : StepOutcome} {m' : BlockMemory} (hp : s.Partitioned)
    (hwarp : s.warps[s.next]? = some warp) (hrun : warp.runnable = true)
    (hwraps : ¬warp.Wraps program)
    (hstep : warp.step F BlockMemory.port program s.memory = (.ok outcome, w', m')) :
    ((s.warps.set s.next w').map Warp.remaining).sum < s.remaining := by
  have hless := Warp.remaining_step hforward (hp warp (List.mem_of_getElem? hwarp))
    (runnable_iff.1 hrun).1 hwraps hstep
  have hsum := sum_map_set Warp.remaining s.warps s.next hwarp w'
  simp only [remaining]
  omega

theorem rank_advance (hforward : ForwardOnly program) {s s' : Scheduler} {event : Event}
    (hp : s.Partitioned) (hwraps : ∀ warp, s.warps[s.next]? = some warp → warp.runnable = true →
      ¬warp.Wraps program) (hadv : s.advance F program = .running event s') :
    s'.rank < s.rank := by
  suffices h : s'.remaining ≤ s.remaining ∧ ∀ warp, s.warps[s.next]? = some warp →
      warp.runnable = true → s'.remaining < s.remaining from rankOf_advance h.1 h.2 hadv
  cases advance_cases hadv with
  | skip warp hwarp hrun =>
    refine ⟨Nat.le_refl _, fun warp' hwarp' hrun' => ?_⟩
    rw [hwarp, Option.some.injEq] at hwarp'
    rw [← hwarp', hrun] at hrun'
    cases hrun'
  | step warp w' outcome m' hwarp hrun hstep =>
    have hless := remaining_turn hforward hp hwarp hrun (hwraps warp hwarp hrun) hstep
    exact ⟨Nat.le_of_lt hless, fun _ _ _ => hless⟩
  | release hend hunfinished hparked =>
    refine ⟨Nat.le_of_eq ?_, fun warp hwarp => ?_⟩
    · show ((s.warps.map _).map Warp.remaining).sum = (s.warps.map Warp.remaining).sum
      rw [List.map_map]
      rfl
    · rw [hend] at hwarp
      cases hwarp
  | pass hend hparked hrunnable =>
    refine ⟨Nat.le_refl _, fun warp hwarp => ?_⟩
    rw [hend] at hwarp
    cases hwarp

end Rank

section Returns

/-- From the first `n` actions on, no turn wraps. -/
def NoWrapFrom (F : FloatOps) (program : List Instruction) (n : Nat) (s : Scheduler) : Prop :=
  ∀ log s', Run F program s log s' → n ≤ log.length → ∀ warp, s'.warps[s'.next]? = some warp →
    warp.runnable = true → ¬warp.Wraps program

theorem returns_of_noWrap (hforward : ForwardOnly program) : ∀ (fuel : Nat) {s : Scheduler},
    s.Partitioned → NoWrapFrom F program 0 s → s.rank < fuel →
      ∃ r, s.run F program fuel = some r
  | 0, s, _, _, hfuel => absurd hfuel (Nat.not_lt_zero _)
  | fuel + 1, s, hp, hwraps, hfuel => by
    rw [run]
    rcases hadv : s.advance F program with ⟨event, s'⟩ | ⟨r, b⟩
    · have hrank := rank_advance hforward hp (hwraps [] s (.nil s) (Nat.zero_le _)) hadv
      exact returns_of_noWrap hforward fuel (partitioned_advance hp hadv)
        (fun log s'' hrun _ => hwraps (event :: log) s'' (.cons hadv hrun) (Nat.zero_le _))
        (by omega)
    · exact ⟨(r, b), rfl⟩

theorem returns_of_noWrapFrom (hforward : ForwardOnly program) : ∀ (n : Nat) {s : Scheduler},
    s.Partitioned → NoWrapFrom F program n s → ∃ fuel r, s.run F program fuel = some r
  | 0, s, hp, hwraps =>
    ⟨s.rank + 1, returns_of_noWrap hforward _ hp hwraps (Nat.lt_succ_self _)⟩
  | n + 1, s, hp, hwraps => by
    rcases hadv : s.advance F program with ⟨event, s'⟩ | ⟨r, b⟩
    · obtain ⟨fuel, r, h⟩ := returns_of_noWrapFrom hforward n (partitioned_advance hp hadv)
        fun log s'' hrun hlen => hwraps (event :: log) s'' (.cons hadv hrun) (Nat.succ_le_succ hlen)
      exact ⟨fuel + 1, r, by rw [run, hadv]; exact h⟩
    · exact ⟨1, (r, b), by rw [run, hadv]⟩

/-- The states of a block that returns are those of its first actions. -/
theorem length_of_run : ∀ {fuel : Nat} {s s' : Scheduler} {log : List Event}
    {r : Except Fault Unit × Block}, s.run F program fuel = some r → Run F program s log s' →
      log.length < fuel
  | 0, s, s', log, r, h, _ => by cases h
  | fuel + 1, s, s', log, r, h, hrun => by
    cases hrun with
    | nil => exact Nat.succ_pos fuel
    | cons hadv hrun =>
      rw [run, hadv] at h
      exact Nat.succ_lt_succ (length_of_run h hrun)

end Returns

end Scheduler

namespace Launch

variable {F : FloatOps}

theorem runBlocks_returns {l : Launch} : ∀ {order : List Dim2} {d : LaunchState},
    (∀ before ctaid after d', order = before ++ ctaid :: after → Completes F l d before d' →
      ∃ fuel r, (l.startBlock ctaid d').run F l.program fuel = some r) →
    ∃ fuel r, l.runBlocks F fuel order d = some r
  | [], d, _ => ⟨0, _, rfl⟩
  | ctaid :: order, d, h => by
    obtain ⟨fuel, ⟨r, b⟩, hr⟩ := h [] ctaid order d rfl (.nil d)
    rcases r with f | u
    · refine ⟨fuel, (.error f, ⟨b.memory.global, b.stats⟩), ?_⟩
      rw [startBlock] at hr
      rw [runBlocks, runBlock, hr]
    · obtain ⟨log, s, hrun, hret, -⟩ := Scheduler.run_iff.1 hr
      obtain ⟨fuel', r', hr'⟩ : ∃ fuel' r', l.runBlocks F fuel' order (l.finishBlock b) = some r' :=
        runBlocks_returns fun before ctaid' after d' heq hcompletes =>
          h (ctaid :: before) ctaid' after d' (by rw [heq]; rfl) (.cons hrun hret hcompletes)
      have hfirst := Scheduler.run_mono hr (Nat.le_max_left fuel fuel')
      rw [startBlock] at hfirst
      refine ⟨max fuel fuel', r', ?_⟩
      rw [runBlocks, runBlock, hfirst]
      exact runBlocks_mono l (Nat.le_max_right fuel fuel') hr'

/-- Every block that a launch which returns begins has returned or faulted itself. -/
theorem begun_returns {l : Launch} {fuel : Nat} {ctaid : Dim2} {after : List Dim2} :
    ∀ {before : List Dim2} {d d' : LaunchState} {r : Except Fault Unit × LaunchState},
      l.runBlocks F fuel (before ++ ctaid :: after) d = some r → Completes F l d before d' →
      ∃ r', (l.startBlock ctaid d').run F l.program fuel = some r'
  | [], d, d', r, h, hcompletes => by
    cases hcompletes
    rw [List.nil_append, runBlocks, runBlock] at h
    rcases hr : (l.startBlock ctaid d).run F l.program fuel with _ | r'
    · rw [startBlock] at hr
      rw [hr] at h
      cases h
    · exact ⟨r', rfl⟩
  | c :: before, d, d', r, h, hcompletes => by
    cases hcompletes with
    | @cons _ _ _ _ log s b run ret rest =>
      have hret := Scheduler.run_iff.2 ⟨log, s, run, ret, Nat.lt_succ_self _⟩
      rw [List.cons_append, runBlocks, runBlock] at h
      rcases hr : (l.startBlock c d).run F l.program fuel with _ | ⟨r', b'⟩
      · rw [startBlock] at hr
        rw [hr] at h
        cases h
      · have hsame : ((.ok (), b) : Except Fault Unit × Block) = (r', b') := by
          have h1 := Scheduler.run_mono hret (Nat.le_max_left (log.length + 1) fuel)
          have h2 := Scheduler.run_mono hr (Nat.le_max_right (log.length + 1) fuel)
          rw [h1, Option.some.injEq] at h2
          exact h2
        cases hsame
        rw [startBlock] at hr
        rw [hr] at h
        exact begun_returns h rest

end Launch

namespace Device

section Statement

variable {F : FloatOps}

variable {program : Program} {decoded : List Instruction} {grid block : Dim2} {params : List Word}
  {global : ByteMemory}

/-- A launch of a program without backward branches returns exactly when its blocks do not keep
on wrapping their pc, and always when no word is past the last pc that a program may use. -/
theorem forward_returns (hdecode : decodeWords 0 program.words = .ok decoded)
    (hforward : ForwardOnly decoded) :
    ((∃ fuel r, launch F program grid block params global fuel = some r) ↔
      ∃ n, ∀ ctaid s, Begins F program grid block params global ctaid s →
        s.NoWrapFrom F decoded n)
    ∧ (program.words.length ≤ 65535 →
      ∃ fuel r, launch F program grid block params global fuel = some r) := by
  have hdecoded : ∀ d, decodeWords 0 program.words = .ok d → d = decoded := by
    intro d hd
    rw [hdecode, Except.ok.injEq] at hd
    exact hd.symm
  have hback : (∃ n, ∀ ctaid s, Begins F program grid block params global ctaid s →
      s.NoWrapFrom F decoded n) →
        ∃ fuel r, launch F program grid block params global fuel = some r := by
    rintro ⟨n, hn⟩
    by_cases hempty : block.count = 0 ∨ grid.count = 0
    · exact ⟨0, _, launch_empty hdecode hempty 0⟩
    obtain ⟨hblock, hgrid⟩ := not_or.1 hempty
    obtain ⟨fuel, r, hr⟩ : ∃ fuel r,
        (Launch.ofProgram program decoded grid block params).runBlocks F fuel (blockOrder grid)
          { global := global } = some r :=
      Launch.runBlocks_returns fun before ctaid after d' heq hcompletes =>
        Scheduler.returns_of_noWrapFrom hforward n (Scheduler.partitioned_startBlock _ _ _)
          (hn ctaid _ ⟨decoded, hdecode, hblock, hgrid, before, after, d', heq, hcompletes, rfl⟩)
    rcases r with ⟨f | u, d⟩
    · exact ⟨fuel, _, by rw [launch_run hdecode hblock hgrid, hr]⟩
    · exact ⟨fuel, _, by rw [launch_run hdecode hblock hgrid, hr]⟩
  refine ⟨⟨?_, hback⟩, fun hlen => hback ⟨0, ?_⟩⟩
  · rintro ⟨fuel, r, h⟩
    refine ⟨fuel, ?_⟩
    rintro ctaid s ⟨d, hd, hblock, hgrid, before, after, d', heq, hcompletes, rfl⟩
    cases hdecoded d hd
    intro log s' hrun hle
    rw [launch_run hdecode hblock hgrid, heq] at h
    rcases hr : (Launch.ofProgram program decoded grid block params).runBlocks F fuel
      (before ++ ctaid :: after) { global := global } with _ | r' <;> rw [hr] at h
    · cases h
    · obtain ⟨r'', hr''⟩ := Launch.begun_returns hr hcompletes
      exact absurd (Scheduler.length_of_run hr'' hrun) (Nat.not_lt.2 hle)
  · rintro ctaid s ⟨d, hd, -, -, -, -, -, -, -, rfl⟩ log s' - - warp - - ⟨i, r, hs, hpc, -⟩
    have hi := Warp.settle_micro F decoded warp
    rw [hs] at hi
    have hlength : decoded.length = program.words.length :=
      (decodeWords_ok.1 hdecode).length_eq.symm
    have hlt := (List.getElem?_eq_some_iff.1 hi.2.2).1
    rw [hpc] at hlt
    exact absurd hlt (Nat.not_lt.2 (by rw [hlength]; exact hlen))

/-- `add r0, r0, r0`, once for every 16-bit pc. -/
def addProgram : Program := { words := List.replicate 65536 (packWord { opcode := .add }) }

theorem decodeWords_replicate {w : BitVec 64} {i : Instruction} (h : decode w = .ok i)
    (n pc : Nat) : decodeWords pc (List.replicate n w) = .ok (List.replicate n i) := by
  induction n generalizing pc with
  | zero => rfl
  | succ n ih =>
    rw [List.replicate_succ, decodeWords, h, List.replicate_succ]
    simp only [ih]

/-- A block of one warp in the middle of `addProgram`. -/
def Adding (s : Scheduler) : Prop :=
  ∃ w, s.warps = [w] ∧ w.active ≠ 0 ∧ w.live ≠ 0 ∧ w.stack = [] ∧ w.parked = false
    ∧ (s.next = 0 ∨ (s.next = 1 ∧ s.anyRunnable = true))

theorem adding_advance {s : Scheduler} (h : Adding s) :
    ∃ event s', s.advance F (List.replicate 65536 { opcode := .add }) = .running event s'
      ∧ Adding s' := by
  obtain ⟨w, hwarps, hactive, hlive, hstack, hparked, hnext⟩ := h
  have hfin : w.finished = false := by simpa [WarpState.finished] using hlive
  rcases hnext with hnext | ⟨hnext, hany⟩
  · have hsettle :
        w.settle (List.replicate 65536 { opcode := .add }) = .ready { opcode := .add } w :=
      Warp.settle_of_ready hactive (by rw [hstack]; intro e he; cases he)
        (List.getElem?_replicate_of_lt w.pc.isLt)
    have hstep : w.step F BlockMemory.port (List.replicate 65536 { opcode := .add }) s.memory
        = w.issue F BlockMemory.port { opcode := .add } s.memory := by rw [Warp.step, hsettle]
    rw [Warp.issue_alu F BlockMemory.port rfl] at hstep
    have hadv : ∃ event s', s.advance F (List.replicate 65536 { opcode := .add })
        = .running event s' ∧ s'.next = 1 ∧ s'.anyRunnable = true ∧ s'.warps = [{ w with
          lastExec := w.execMask { opcode := .add }
          lastOpcode := .add
          registers := executeAlu F { opcode := .add } (w.execMask { opcode := .add }) w.registers
            w.context }.advance] := by
      rw [Scheduler.advance, hwarps, hnext]
      simp only [List.getElem?_cons_zero, WarpState.runnable, hfin, hparked, Bool.not_false,
        Bool.and_self, Bool.not_true, Bool.false_eq_true, if_false, Block.turn, hstep]
      exact ⟨_, _, rfl, by rfl, rfl, by rw [hwarps]; rfl⟩
    obtain ⟨event, s', hadv, hnext', hany', hwarps'⟩ := hadv
    exact ⟨event, s', hadv, _, hwarps', hactive, hlive, hstack, hparked, .inr ⟨hnext', hany'⟩⟩
  · refine ⟨.passed, s.newPass, ?_, w, hwarps, hactive, hlive, hstack, hparked, .inl rfl⟩
    rw [Scheduler.advance, hwarps, hnext]
    simp [Block.anyUnfinished, Block.allParked, hwarps, hfin, hparked, hany]

theorem adding_run {s : Scheduler} (h : Adding s) (fuel : Nat) :
    s.run F (List.replicate 65536 { opcode := .add }) fuel = none := by
  induction fuel generalizing s with
  | zero => rfl
  | succ fuel ih =>
    obtain ⟨event, s', hadv, hs'⟩ := adding_advance (F := F) h
    rw [Scheduler.run, hadv]
    exact ih hs'

/-- `addProgram` has no branch at all, and its launch never returns. -/
theorem addProgram_spins : Decodes addProgram.words
    ∧ ForwardOnly (List.replicate 65536 { opcode := .add })
    ∧ ¬∃ fuel r, launch default addProgram ⟨1, 1⟩ ⟨1, 1⟩ [] ⟨[]⟩ fuel = some r := by
  have hword : decode (packWord { opcode := .add }) = .ok { opcode := .add } := by decide
  refine ⟨fun w hw => ⟨{ opcode := .add }, ?_⟩, ?_, ?_⟩
  · rw [List.eq_of_mem_replicate hw]
    exact hword
  · intro pc i hi hop
    rw [List.eq_of_mem_replicate (List.mem_of_getElem? hi)] at hop
    cases hop
  · rintro ⟨fuel, r, h⟩
    have hdecode : decodeWords 0 addProgram.words = .ok (List.replicate 65536 { opcode := .add }) :=
      decodeWords_replicate hword 65536 0
    have hnone := fun s hs => adding_run (F := default) (s := s) hs fuel
    revert hdecode hnone
    generalize List.replicate 65536 ({ opcode := .add } : Instruction) = decoded
    intro hdecode hnone
    rw [launch_run hdecode (by decide) (by decide)] at h
    rw [show blockOrder ⟨1, 1⟩ = [⟨0, 0⟩] by decide, Launch.runBlocks, runBlock] at h
    rw [show Launch.program (.ofProgram addProgram decoded ⟨1, 1⟩ ⟨1, 1⟩ []) = decoded from rfl,
      hnone] at h
    · cases h
    · refine ⟨Block.makeWarp (Dim2.count ⟨1, 1⟩) { ntid := ⟨1, 1⟩, nctaid := ⟨1, 1⟩ } 0, ?_,
        by decide, by decide, rfl, rfl, .inl rfl⟩
      have hcount : ((Dim2.count ⟨1, 1⟩ + BitVec.ofNat 32 warpSize - 1)
        / BitVec.ofNat 32 warpSize).toNat = 1 := by decide
      simp only [Block.newPass, Block.start, Launch.ofProgram]
      rw [hcount]
      rfl

/-- Two warps of `skipProgram` return. -/
theorem skipProgram_returns : ∃ fuel r,
    launch default skipProgram ⟨1, 1⟩ ⟨64, 1⟩ [] ⟨[0, 0, 0, 0]⟩ fuel = some r := by
  have hforward : ForwardOnly skipping := by
    have hall : ∀ p ∈ skipping.zipIdx, p.1.opcode = .bra → p.2 < p.1.branchTarget.toNat := by decide
    exact fun pc i hi => hall (i, pc) (List.mem_zipIdx_iff_getElem?.2 hi)
  exact (forward_returns decode_skipProgram hforward).2 (by decide)

end Statement

end Device

end WarpSim
