import WarpSim.Launch
import WarpSim.Proofs.Partition

/-!
# Totals add up

What a turn, a barrier or a whole block adds to the totals of a launch does not depend on the
totals before it, so the totals can be added in any order.
-/

namespace WarpSim

namespace LaunchStats

/-- What an issue adds to the counters of the classes. -/
def classCounts (op : Opcode) : LaunchStats := ({} : LaunchStats).countClass op

theorem countIssue_eq (s : LaunchStats) (w : Warp) : s.countIssue w =
    { s with
      instructionsIssued := s.instructionsIssued + 1
      aluInstructions := s.aluInstructions + (classCounts w.lastOpcode).aluInstructions
      memoryInstructions := s.memoryInstructions + (classCounts w.lastOpcode).memoryInstructions
      controlInstructions := s.controlInstructions + (classCounts w.lastOpcode).controlInstructions
      barrierInstructions := s.barrierInstructions + (classCounts w.lastOpcode).barrierInstructions
      activeLaneSum := s.activeLaneSum + laneCount w.lastExec
      activeLaneHistogram := s.activeLaneHistogram.modify (laneCount w.lastExec) (· + 1) } := by
  unfold countIssue
  cases w.lastOpcode <;> rfl

theorem modify_comm (l : List Nat) (a b : Nat) :
    (l.modify a (· + 1)).modify b (· + 1) = (l.modify b (· + 1)).modify a (· + 1) := by
  refine List.ext_getElem? fun k => ?_
  simp only [List.getElem?_modify, Option.map_eq_map, Option.map_map]
  refine congrArg (fun f => Option.map f l[k]?) (funext fun v => ?_)
  simp only [Function.comp_apply]
  split_ifs <;> rfl

/-- The counters of two issues add up in either order. -/
theorem countIssue_comm (s : LaunchStats) (w w' : Warp) :
    (s.countIssue w).countIssue w' = (s.countIssue w').countIssue w := by
  simp only [countIssue_eq, Nat.add_right_comm,
    modify_comm s.activeLaneHistogram (laneCount w.lastExec)]

/-- The totals with what a part of the launch adds to them. -/
def add (s d : LaunchStats) : LaunchStats where
  instructionsIssued := s.instructionsIssued + d.instructionsIssued
  aluInstructions := s.aluInstructions + d.aluInstructions
  memoryInstructions := s.memoryInstructions + d.memoryInstructions
  controlInstructions := s.controlInstructions + d.controlInstructions
  barrierInstructions := s.barrierInstructions + d.barrierInstructions
  divergentBranches := s.divergentBranches + d.divergentBranches
  reconvergenceEvents := s.reconvergenceEvents + d.reconvergenceEvents
  barriersCompleted := s.barriersCompleted + d.barriersCompleted
  activeLaneSum := s.activeLaneSum + d.activeLaneSum
  activeLaneHistogram := s.activeLaneHistogram.mapIdx fun k n => n + d.activeLaneHistogram.getD k 0
  blocksExecuted := s.blocksExecuted + d.blocksExecuted
  warpsLaunched := s.warpsLaunched + d.warpsLaunched
  lanesLaunched := s.lanesLaunched + d.lanesLaunched
  memory := s.memory.add d.memory

/-- The histogram has all its slots. -/
def Full (s : LaunchStats) : Prop := s.activeLaneHistogram.length = warpSize + 1

theorem Full.add {s : LaunchStats} (hs : s.Full) (d : LaunchStats) : (s.add d).Full := by
  unfold Full at *
  rw [LaunchStats.add, List.length_mapIdx, hs]

theorem add_assoc {d : LaunchStats} (hd : d.Full) {e : LaunchStats} (he : e.Full)
    (s : LaunchStats) : (s.add d).add e = s.add (d.add e) := by
  have hhist : ((s.activeLaneHistogram.mapIdx fun k n => n + d.activeLaneHistogram.getD k 0).mapIdx
        fun k n => n + e.activeLaneHistogram.getD k 0)
      = s.activeLaneHistogram.mapIdx fun k n => n + (d.activeLaneHistogram.mapIdx fun k n =>
          n + e.activeLaneHistogram.getD k 0).getD k 0 := by
    rw [List.mapIdx_mapIdx]
    congr 1
    funext k n
    simp only [Function.comp_apply, List.getD_eq_getElem?_getD, List.getElem?_mapIdx]
    by_cases hk : k < d.activeLaneHistogram.length
    · rw [List.getElem?_eq_getElem hk]
      exact Nat.add_assoc _ _ _
    · have hk' : ¬k < e.activeLaneHistogram.length := by rwa [he, ← hd]
      rw [List.getElem?_eq_none (by omega), List.getElem?_eq_none (by omega)]
      rfl
  simp only [LaunchStats.add, MemoryStats.add, hhist, Nat.add_assoc, BitVec.add_assoc]

theorem add_right_comm (s d e : LaunchStats) : (s.add d).add e = (s.add e).add d := by
  have hhist : ((s.activeLaneHistogram.mapIdx fun k n => n + d.activeLaneHistogram.getD k 0).mapIdx
        fun k n => n + e.activeLaneHistogram.getD k 0)
      = (s.activeLaneHistogram.mapIdx fun k n => n + e.activeLaneHistogram.getD k 0).mapIdx
        fun k n => n + d.activeLaneHistogram.getD k 0 := by
    rw [List.mapIdx_mapIdx, List.mapIdx_mapIdx]
    congr 1
    funext k n
    exact Nat.add_right_comm _ _ _
  have hword : ∀ a b c : Word, a + b + c = a + c + b := fun a b c => by
    rw [BitVec.add_assoc, BitVec.add_comm b, ← BitVec.add_assoc]
  simp only [LaunchStats.add, hhist, MemoryStats.add_right_comm s.memory d.memory,
    Nat.add_right_comm, hword _ d.blocksExecuted, hword _ d.warpsLaunched,
    hword _ d.lanesLaunched]

theorem getD_replicate_zero (n k : Nat) : (List.replicate n 0).getD k 0 = 0 := by
  rw [List.getD_eq_getElem?_getD, List.getElem?_replicate]
  split_ifs <;> rfl

/-- A part without issues leaves the histogram. -/
theorem mapIdx_zero (l : List Nat) :
    (l.mapIdx fun k n => n + (List.replicate (warpSize + 1) 0).getD k 0) = l := by
  simp only [getD_replicate_zero, Nat.add_zero]
  exact List.mapIdx_eq_iff.2 fun k => by simp

@[simp] theorem add_empty (s : LaunchStats) : s.add {} = s := by
  simp only [LaunchStats.add, mapIdx_zero, MemoryStats.add_zero, Nat.add_zero,
    BitVec.ofNat_eq_ofNat, BitVec.add_zero]

theorem countIssue_add (s : LaunchStats) (w : Warp) :
    s.countIssue w = s.add (({} : LaunchStats).countIssue w) := by
  have hlt : laneCount w.lastExec < warpSize + 1 :=
    Nat.lt_succ_of_le (Warp.laneCount_le w.lastExec)
  have hhist : s.activeLaneHistogram.mapIdx (fun k n =>
        n + ((List.replicate (warpSize + 1) 0).modify (laneCount w.lastExec) (· + 1)).getD k 0)
      = s.activeLaneHistogram.modify (laneCount w.lastExec) (· + 1) := by
    refine List.ext_getElem? fun k => ?_
    rw [List.getElem?_mapIdx, List.getElem?_modify]
    simp only [List.getD_eq_getElem?_getD, List.getElem?_modify, List.getElem?_replicate]
    rcases s.activeLaneHistogram[k]? with _ | n
    · rfl
    · by_cases hk : laneCount w.lastExec = k
      · rw [if_pos (hk ▸ hlt)]
        simp [hk]
      · simp only [hk, if_false]
        split_ifs <;> rfl
  rw [countIssue_eq, countIssue_eq]
  simp only [LaunchStats.add, hhist, MemoryStats.add_zero, Nat.add_zero, Nat.zero_add,
    BitVec.ofNat_eq_ofNat, BitVec.add_zero]

theorem full_empty : Full {} := rfl

theorem full_countIssue {s : LaunchStats} (h : s.Full) (w : Warp) : (s.countIssue w).Full := by
  unfold Full
  rw [countIssue_eq, List.length_modify]
  exact h

end LaunchStats

end WarpSim
