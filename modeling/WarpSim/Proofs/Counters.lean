import WarpSim.Proofs.Analysis
import WarpSim.Proofs.Launches
import WarpSim.Proofs.Locality
import Mathlib.Algebra.BigOperators.Group.Finset.Piecewise

/-!
# The counters of a launch add up

Every issue is counted once under its class and once in the histogram, and what the analyzer adds
is bounded by the lanes that execute. The reconvergence events are paid for by the divergence
stack: a split pays two, one for each arrival at the entry it pushes.
-/

namespace WarpSim

namespace MemoryStats

/-- The counters of `n` memory instructions whose executing lanes add up to `lanes`. -/
structure Balanced (s : MemoryStats) (n lanes : Nat) : Prop where
  accesses : s.globalLoads + s.globalStores + s.sharedAccesses ≤ n
  segments : s.globalLoads + s.globalStores ≤ s.globalSegments
  globalLanes : s.globalSegments ≤ s.globalLaneAccesses
  wavefronts : s.sharedAccesses + s.sharedConflictedAccesses ≤ s.sharedWavefronts
  sharedLanes : s.sharedWavefronts ≤ s.sharedLaneAccesses
  lanes : s.globalLaneAccesses + s.sharedLaneAccesses ≤ lanes

theorem Balanced.zero (n lanes : Nat) : Balanced {} n lanes := by
  constructor <;> simp

theorem Balanced.add {s d : MemoryStats} {n k lanes lanes' : Nat} (h : s.Balanced n lanes)
    (h' : d.Balanced k lanes') : (s.add d).Balanced (n + k) (lanes + lanes') := by
  obtain ⟨h1, h2, h3, h4, h5, h6⟩ := h
  obtain ⟨g1, g2, g3, g4, g5, g6⟩ := h'
  constructor <;> simp only [MemoryStats.add] <;> omega

theorem balanced_onGlobal (addresses : Nat → Word) (exec : LaneMask) (isStore : Bool) :
    (({} : MemoryStats).onGlobal addresses exec isStore).Balanced 1 (laneCount exec) := by
  unfold onGlobal
  by_cases hz : exec = 0
  · rw [if_pos hz]
    exact .zero _ _
  · obtain ⟨h1, h2⟩ := distinctSegments_bounds addresses exec hz
    rw [if_neg hz]
    cases isStore <;> constructor <;> simp <;> omega

theorem balanced_onShared (addresses : Nat → Word) (exec : LaneMask) :
    (({} : MemoryStats).onShared addresses exec).Balanced 1 (laneCount exec) := by
  unfold onShared
  by_cases hz : exec = 0
  · rw [if_pos hz]
    exact .zero _ _
  · obtain ⟨h1, h2⟩ := bankConflictDegree_bounds addresses exec hz
    rw [if_neg hz]
    constructor <;> simp
    · split_ifs <;> omega
    · exact h2

end MemoryStats

namespace Warp

section Memory

variable {i : Instruction}

theorem stats_store {space : Space} {address value : Word} {lane : Nat} {m m' : BlockMemory}
    (h : m.store space address value lane = (.ok (), m')) : m'.stats = m.stats := by
  obtain ⟨-, rfl, -⟩ := BlockMemory.store_ok h
  cases space <;> rfl

theorem stats_accessLanes (exec : LaneMask) (addresses : Nat → Word) :
    ∀ (l : List Nat) (w w' : Warp) (m m' : BlockMemory),
      accessLanes BlockMemory.port i exec addresses l w m = (.ok (), w', m') → m'.stats = m.stats
  | [], w, w', m, m', h => by
    cases h
    rfl
  | lane :: l, w, w', m, m', h => by
    rw [accessLanes] at h
    split_ifs at h with h1 h2
    · exact stats_accessLanes exec addresses l _ _ _ _ h
    · rcases hs : m.store (accessSpace i.opcode) (addresses lane)
        (w.registers.read lane i.src1) lane with ⟨e | u, m₁⟩ <;>
        simp only [BlockMemory.port, hs] at h
      · cases h
      · rw [stats_accessLanes exec addresses l _ _ _ _ h, stats_store hs]
    · have hsnd := BlockMemory.load_snd (accessSpace i.opcode) (addresses lane) lane m
      rcases hs : m.load (accessSpace i.opcode) (addresses lane) lane with ⟨e | v, m₁⟩ <;>
        simp only [BlockMemory.port, hs] at h
      · cases h
      · rw [stats_accessLanes exec addresses l _ _ _ _ h]
        rw [hs] at hsnd
        exact congrArg BlockMemory.stats hsnd

/-- A memory instruction that does not fault counts at most one access, of its executing lanes. -/
theorem stats_memoryAccess {exec : LaneMask} {w w' : Warp} {m m' : BlockMemory}
    (h : memoryAccess BlockMemory.port i exec w m = (.ok (), w', m')) :
    ∃ d, m'.stats = m.stats.add d ∧ d.Balanced 1 (laneCount exec) := by
  rw [memoryAccess] at h
  rw [stats_accessLanes _ _ _ _ _ _ _ h]
  split_ifs
  · simp only [BlockMemory.port, BlockMemory.onWarpAccess]
    rcases accessSpace i.opcode with _ | _ | _
    · exact ⟨_, MemoryStats.onGlobal_eq _ _ _ _, MemoryStats.balanced_onGlobal _ _ _⟩
    · exact ⟨_, MemoryStats.onShared_eq _ _ _, MemoryStats.balanced_onShared _ _⟩
    · exact ⟨{}, rfl, .zero _ _⟩
  · exact ⟨{}, rfl, .zero _ _⟩

end Memory

/-- What a warp still owes in reconvergence events: those so far, and those its stack can bring. -/
def events (w : Warp) : Nat := w.reconverged + stackWeight w.stack

section Settle

variable (program : List Instruction)

/-- A warp that has only changed its path: no new divergence, no more events. -/
structure SamePath (w w' : Warp) : Prop where
  divergent : w'.divergent = w.divergent
  events : w'.events ≤ w.events
  parked : w'.parked = w.parked

theorem samePath_resolve {w w' : Warp} (h : w.resolveIteration = .inl w') : SamePath w w' := by
  have hweight := stackWeight_resolveIteration h
  have hcount : w'.divergent = w.divergent ∧ w'.reconverged ≤ w.reconverged + 1
      ∧ w'.parked = w.parked := by
    unfold resolveIteration at h
    split_ifs at h
    · split at h <;> cases h
      unfold switchTo
      split_ifs <;> exact ⟨rfl, Nat.le_succ _, rfl⟩
    · split at h
      · cases h
      · split_ifs at h
        cases h
        unfold switchTo
        split_ifs <;> exact ⟨rfl, Nat.le_refl _, rfl⟩
  obtain ⟨h1, h2, h3⟩ := hcount
  exact ⟨h1, by unfold events; omega, h3⟩

theorem SamePath.trans {w w' w'' : Warp} (h : SamePath w w') (h' : SamePath w' w'') :
    SamePath w w'' :=
  ⟨h'.divergent.trans h.divergent, Nat.le_trans h'.events h.events, h'.parked.trans h.parked⟩

theorem samePath_settle (w : Warp) : match w.settle program with
    | .finished w' => SamePath w w'
    | .ready _ w' => SamePath w w' := by
  have h := settle_induction program (P := SamePath w) (fun w' w'' hw' hstep =>
      hw'.trans (samePath_resolve hstep))
    (fun w' hw' _ _ => hw'.trans ⟨rfl, Nat.le_of_eq (by
      unfold events; rw [stackWeight_retire]; rfl), rfl⟩) w ⟨rfl, Nat.le_refl _, rfl⟩
  rcases hs : w.settle program with r | ⟨i, r⟩ <;> rw [hs] at h
  · exact h.1
  · exact h.1

end Settle

section Issue

variable {F : FloatOps}

/-- What an issue that does not fault adds to the counters of the warp and of the analyzer. -/
structure Counted (w w' : Warp) (m m' : BlockMemory) : Prop where
  divergent : w.divergent ≤ w'.divergent
  control : w'.divergent ≤ w.divergent + (if w'.lastOpcode = .bra then 1 else 0)
  events : w'.events + 2 * w.divergent ≤ w.events + 2 * w'.divergent
  parked : w'.parked = true → w.parked = true ∨ w'.lastOpcode = .barSync
  memory : ∃ d, m'.stats = m.stats.add d
    ∧ d.Balanced (if isMemoryOpcode w'.lastOpcode then 1 else 0) (laneCount w'.lastExec)

theorem entryWeight_le (e : DivergenceEntry) : entryWeight e ≤ 2 := by
  unfold entryWeight
  split_ifs <;> decide

theorem counted_branch {w : Warp} {i : Instruction} (hop : w.lastOpcode = .bra) (exec : LaneMask)
    (m : BlockMemory) : Counted w (w.branch i exec) m m := by
  have hmem : ∀ w' : Warp, ∃ d, m.stats = m.stats.add d ∧ d.Balanced
      (if isMemoryOpcode w'.lastOpcode then 1 else 0) (laneCount w'.lastExec) :=
    fun _ => ⟨{}, rfl, .zero _ _⟩
  unfold branch
  simp only []
  split_ifs
  · exact ⟨Nat.le_refl _, Nat.le_add_right _ _, Nat.le_refl _, .inl, hmem _⟩
  · exact ⟨Nat.le_refl _, Nat.le_add_right _ _, Nat.le_refl _, .inl, hmem _⟩
  · exact ⟨Nat.le_refl _, Nat.le_add_right _ _, Nat.le_refl _, .inl, hmem _⟩
  · refine ⟨Nat.le_succ _, by simp [hop], ?_, .inl, hmem _⟩
    have hle := entryWeight_le ⟨i.reconvergencePc, w.pc + 1, w.active &&& ~~~exec⟩
    simp only [events, stackWeight, List.map_cons, List.sum_cons]
    omega

theorem counted_issue {i : Instruction} {w w' : Warp} {m m' : BlockMemory} {o : StepOutcome}
    (h : w.issue F BlockMemory.port i m = (.ok o, w', m')) :
    Counted w w' m m' ∧ w'.lastExec = w.execMask i ∧ w'.lastOpcode = i.opcode := by
  have hquiet : ∀ w' : Warp, w'.divergent = w.divergent → w'.events = w.events →
      (w'.parked = true → w.parked = true ∨ w'.lastOpcode = .barSync) → Counted w w' m m :=
    fun w' h1 h2 h3 => ⟨h1.ge, by omega, by omega, h3, {}, rfl, .zero _ _⟩
  by_cases hmem : isMemoryOpcode i.opcode = true
  · rw [issue_memory F BlockMemory.port hmem] at h
    rcases hacc : memoryAccess BlockMemory.port i (w.execMask i)
      { w with lastExec := w.execMask i, lastOpcode := i.opcode } m with ⟨f | u, w₁, m₁⟩ <;>
      rw [hacc] at h <;> cases h
    obtain ⟨rf, hw⟩ := memoryAccess_warp BlockMemory.port i (w.execMask i)
      { w with lastExec := w.execMask i, lastOpcode := i.opcode } m
    rw [hacc] at hw
    simp only [] at hw
    subst hw
    obtain ⟨d, hd, hbal⟩ := stats_memoryAccess hacc
    refine ⟨⟨Nat.le_refl _, Nat.le_add_right _ _, Nat.le_refl _, .inl, d, hd, ?_⟩, rfl, rfl⟩
    show d.Balanced (if isMemoryOpcode i.opcode then 1 else 0) (laneCount (w.execMask i))
    rw [if_pos hmem]
    exact hbal
  · unfold issue at h
    simp only [] at h
    split at h
    · cases h
      rename_i hop
      obtain ⟨h1, h2, h3, h4, h5⟩ := counted_branch (w := { w with
        lastExec := w.execMask i, lastOpcode := i.opcode }) (i := i) hop (w.execMask i) m
      refine ⟨⟨h1, h2, h3, h4, h5⟩, ?_, ?_⟩ <;> unfold branch <;> simp only [] <;> split_ifs <;> rfl
    · cases h
      exact ⟨hquiet _ rfl (by unfold events; exact congrArg _ (stackWeight_retire _ _))
        .inl, rfl, rfl⟩
    · rename_i hop
      split_ifs at h <;> cases h
      exact ⟨hquiet _ rfl rfl fun _ => .inr hop, rfl, rfl⟩
    iterate 5 simp_all [isMemoryOpcode]
    · cases h
      exact ⟨hquiet _ rfl rfl .inl, rfl, rfl⟩

theorem Counted.after {w r w' : Warp} {m m' : BlockMemory} (hpath : SamePath w r)
    (h : Counted r w' m m') : Counted w w' m m' := by
  obtain ⟨h1, h2, h3⟩ := hpath
  refine ⟨h1.ge.trans h.divergent, h1 ▸ h.control, ?_, h3 ▸ h.parked, h.memory⟩
  have := h.events
  omega

/-- A step that does not fault counts one issue, or finds the warp finished and counts nothing. -/
theorem counted_step {program : List Instruction} {w w' : Warp} {m m' : BlockMemory}
    {o : StepOutcome} (h : w.step F BlockMemory.port program m = (.ok o, w', m')) :
    if o = .finished then m' = m ∧ SamePath w w' else Counted w w' m m' := by
  have hpath := samePath_settle program w
  unfold step at h
  rcases hs : w.settle program with r | ⟨i, r⟩ <;> rw [hs] at hpath h
  · cases h
    rw [if_pos rfl]
    exact ⟨rfl, hpath⟩
  · have hne : o ≠ .finished := by
      have hout := issue_outcome F BlockMemory.port i r m
      simp only [] at h
      rw [h] at hout
      cases hout <;> decide
    rw [if_neg hne]
    exact (counted_issue h).1.after hpath

end Issue

end Warp

section Sums

/-- Replacing an element changes the sum by the difference. -/
theorem sum_map_set {α : Type} (f : α → Nat) : ∀ (l : List α) (k : Nat) {a : α}, l[k]? = some a →
    ∀ a', ((l.set k a').map f).sum + f a = (l.map f).sum + f a'
  | [], k, a, h, a' => by simp at h
  | b :: l, 0, a, h, a' => by
    rw [List.getElem?_cons_zero, Option.some.injEq] at h
    subst h
    rw [List.set_cons_zero, List.map_cons, List.map_cons, List.sum_cons, List.sum_cons]
    omega
  | b :: l, k + 1, a, h, a' => by
    have ih := sum_map_set f l k h a'
    rw [List.set_cons_succ, List.map_cons, List.map_cons, List.sum_cons, List.sum_cons]
    omega

theorem sum_modify : ∀ (l : List Nat) (k : Nat), k < l.length →
    (l.modify k (· + 1)).sum = l.sum + 1
  | [], k, h => absurd h (Nat.not_lt_zero k)
  | n :: l, 0, h => by
    rw [List.modify_zero_cons, List.sum_cons, List.sum_cons]
    omega
  | n :: l, k + 1, h => by
    have ih := sum_modify l k (Nat.lt_of_succ_lt_succ h)
    rw [List.modify_succ_cons, List.sum_cons, List.sum_cons, ih, Nat.add_assoc]

/-- The lanes of a histogram: each issue counted as often as it had lanes. -/
def histogramLanes (histogram : List Nat) : Nat :=
  ∑ k ∈ Finset.range (warpSize + 1), k * histogram.getD k 0

theorem histogramLanes_modify {l : List Nat} {k : Nat} (hk : k < l.length) (hsize : k ≤ warpSize) :
    histogramLanes (l.modify k (· + 1)) = histogramLanes l + k := by
  have hterm : ∀ j, j * (l.modify k (· + 1)).getD j 0
      = j * l.getD j 0 + if k = j then k else 0 := by
    intro j
    rw [List.getD_eq_getElem?_getD, List.getD_eq_getElem?_getD, List.getElem?_modify]
    split_ifs with h
    · subst h
      rw [List.getElem?_eq_getElem hk]
      exact Nat.mul_succ _ _
    · simp
  unfold histogramLanes
  rw [Finset.sum_congr rfl fun j _ => hterm j, Finset.sum_add_distrib, Finset.sum_ite_eq,
    if_pos (Finset.mem_range.2 (Nat.lt_succ_of_le hsize))]

end Sums

namespace LaunchStats

/-- The class counters after an issue: one more in all, and in the right class. -/
theorem countClass_classes (s : LaunchStats) (op : Opcode) :
    (s.countClass op).aluInstructions + (s.countClass op).memoryInstructions
        + (s.countClass op).controlInstructions + (s.countClass op).barrierInstructions
      = s.aluInstructions + s.memoryInstructions + s.controlInstructions + s.barrierInstructions + 1
    ∧ s.controlInstructions + (if op = .bra then 1 else 0) ≤ (s.countClass op).controlInstructions
    ∧ (s.countClass op).barrierInstructions
      = s.barrierInstructions + (if op = .barSync then 1 else 0)
    ∧ (s.countClass op).memoryInstructions
      = s.memoryInstructions + (if Warp.isMemoryOpcode op then 1 else 0) := by
  unfold countClass
  split <;> simp_all [Warp.isMemoryOpcode] <;> omega

/-- An issue touches only the counters of issues. -/
theorem countClass_rest (s : LaunchStats) (op : Opcode) :
    s.countClass op =
      { s with
        aluInstructions := (s.countClass op).aluInstructions
        memoryInstructions := (s.countClass op).memoryInstructions
        controlInstructions := (s.countClass op).controlInstructions
        barrierInstructions := (s.countClass op).barrierInstructions } := by
  unfold countClass
  split <;> rfl

end LaunchStats

section Accounts

/-- The totals of a launch, with the warps of the block under way and what its analyzer has
counted. Between two blocks there are no warps. -/
structure Accounts (s : LaunchStats) (warps : List Warp) (memory : MemoryStats) : Prop where
  classes : s.aluInstructions + s.memoryInstructions + s.controlInstructions
    + s.barrierInstructions = s.instructionsIssued
  length : s.activeLaneHistogram.length = warpSize + 1
  histogram : s.activeLaneHistogram.sum = s.instructionsIssued
  lanes : histogramLanes s.activeLaneHistogram = s.activeLaneSum
  divergent : s.divergentBranches + (warps.map Warp.divergent).sum ≤ s.controlInstructions
  events : s.reconvergenceEvents + (warps.map Warp.events).sum
    ≤ 2 * (s.divergentBranches + (warps.map Warp.divergent).sum)
  barriers : s.barriersCompleted + (if warps.any (fun w => w.parked) then 1 else 0)
    ≤ s.barrierInstructions
  memory : (s.memory.add memory).Balanced s.memoryInstructions s.activeLaneSum

theorem any_parked_set {warps : List Warp} {k : Nat} {w' : Warp}
    (h : (warps.set k w').any (fun w => w.parked) = true) :
    warps.any (fun w => w.parked) = true ∨ w'.parked = true := by
  obtain ⟨w, hw, hp⟩ := List.any_eq_true.1 h
  rcases List.mem_or_eq_of_mem_set hw with hw | rfl
  · exact .inl (List.any_eq_true.2 ⟨w, hw, hp⟩)
  · exact .inr hp

/-- A step that issues nothing keeps the accounts. -/
theorem Accounts.finished {s : LaunchStats} {warps : List Warp} {memory : MemoryStats}
    (h : Accounts s warps memory) {k : Nat} {w w' : Warp} (hw : warps[k]? = some w)
    (hpath : Warp.SamePath w w') : Accounts s (warps.set k w') memory := by
  obtain ⟨hd, he, hp⟩ := hpath
  have hdivergent := sum_map_set Warp.divergent warps k hw w'
  have hevents := sum_map_set Warp.events warps k hw w'
  have hsum : ((warps.set k w').map Warp.divergent).sum = (warps.map Warp.divergent).sum := by omega
  refine ⟨h.classes, h.length, h.histogram, h.lanes, ?_, ?_, ?_, h.memory⟩
  · rw [hsum]
    exact h.divergent
  · have := h.events
    rw [hsum]
    omega
  · refine Nat.le_trans (Nat.add_le_add_left ?_ _) h.barriers
    split_ifs with h1 h2
    · exact Nat.le_refl _
    · rcases any_parked_set h1 with h3 | h3
      · exact absurd h3 h2
      · exact absurd (List.any_eq_true.2 ⟨w, List.mem_of_getElem? hw, hp ▸ h3⟩) h2
    · exact Nat.zero_le _
    · exact Nat.le_refl _

/-- An issue is counted under its class, in the histogram, and by the analyzer. -/
theorem Accounts.counted {s : LaunchStats} {warps : List Warp} {m m' : BlockMemory}
    (h : Accounts s warps m.stats) {k : Nat} {w w' : Warp} (hw : warps[k]? = some w)
    (hcount : Warp.Counted w w' m m') :
    Accounts (s.countIssue w') (warps.set k w') m'.stats := by
  have hdivergent := sum_map_set Warp.divergent warps k hw w'
  have hevents := sum_map_set Warp.events warps k hw w'
  obtain ⟨hclasses, hcontrol, hbarrier, hmemory⟩ := LaunchStats.countClass_classes
    { s with
      instructionsIssued := s.instructionsIssued + 1
      activeLaneSum := s.activeLaneSum + laneCount w'.lastExec
      activeLaneHistogram := s.activeLaneHistogram.modify (laneCount w'.lastExec) (· + 1) }
    w'.lastOpcode
  simp only [] at hclasses hcontrol hbarrier hmemory
  have hlanes : laneCount w'.lastExec < s.activeLaneHistogram.length := by
    rw [h.length, warpSize]
    exact Nat.lt_succ_of_le (Warp.laneCount_le _)
  have heq : s.countIssue w' = _ := LaunchStats.countClass_rest _ _
  rw [heq]
  refine ⟨?_, ?_, ?_, ?_, ?_, ?_, ?_, ?_⟩ <;> simp only []
  · rw [hclasses, h.classes]
  · rw [List.length_modify, h.length]
  · rw [sum_modify _ _ hlanes, h.histogram]
  · rw [histogramLanes_modify hlanes (Warp.laneCount_le _), h.lanes]
  · have h1 := h.divergent
    have h2 := hcount.control
    omega
  · have h1 := h.events
    have h2 := hcount.events
    omega
  · have hparked : (if (warps.set k w').any (fun w => w.parked) then 1 else 0)
        ≤ (if warps.any (fun w => w.parked) then 1 else 0)
          + (if w'.lastOpcode = .barSync then 1 else 0) := by
      by_cases hset : (warps.set k w').any (fun w => w.parked) = true
      · rcases any_parked_set hset with hp | hp
        · rw [if_pos hset, if_pos hp]
          exact Nat.le_add_right _ _
        · rcases hcount.parked hp with hp | hop
          · rw [if_pos hset, if_pos (List.any_eq_true.2 ⟨w, List.mem_of_getElem? hw, hp⟩)]
            exact Nat.le_add_right _ _
          · rw [if_pos hset, if_pos hop]
            exact Nat.le_add_left _ _
      · rw [if_neg hset]
        exact Nat.zero_le _
    have := h.barriers
    omega
  · obtain ⟨d, hd, hbal⟩ := hcount.memory
    rw [hd, hmemory]
    have hassoc : s.memory.add (m.stats.add d) = (s.memory.add m.stats).add d := by
      simp only [MemoryStats.add, Nat.add_assoc]
    rw [hassoc]
    exact h.memory.add hbal

theorem accounts_advance {F : FloatOps} {program : List Instruction} {s s' : Scheduler}
    {event : Event} (h : Accounts s.stats s.warps s.memory.stats)
    (hadv : s.advance F program = .running event s') :
    Accounts s'.stats s'.warps s'.memory.stats := by
  cases Scheduler.advance_cases hadv with
  | skip => exact h
  | pass => exact h
  | step warp w' outcome m' hwarp hrun hstep =>
    have hcount := Warp.counted_step hstep
    split_ifs at hcount with ho
    · obtain ⟨rfl, hpath⟩ := hcount
      simp only [ho, ne_eq, not_true_eq_false, if_false]
      exact h.finished hwarp hpath
    · simp only [ne_eq, ho, not_false_eq_true, if_true]
      exact h.counted hwarp hcount
  | release hend hunfinished hparked =>
    have hsome : s.warps.any (fun w => w.parked) = true := by
      obtain ⟨w, hw, hfin⟩ := List.any_eq_true.1 hunfinished
      have hp := List.all_eq_true.1 hparked w hw
      exact List.any_eq_true.2 ⟨w, hw, by
        rw [Bool.not_eq_true'] at hfin
        rwa [hfin, Bool.false_or] at hp⟩
    have hnone : s.release.warps.any (fun w => w.parked) = false := by
      rw [List.any_eq_false]
      intro w hw
      obtain ⟨v, -, rfl⟩ := List.mem_map.1 hw
      exact Bool.false_ne_true
    have hmap : ∀ f : Warp → Nat, (∀ w : Warp, f { w with parked := false } = f w) →
        s.release.warps.map f = s.warps.map f := by
      intro f hf
      rw [Block.release, List.map_map]
      exact List.map_congr_left fun w _ => hf w
    obtain ⟨h1, h2, h3, h4, h5, h6, h7, h8⟩ := h
    rw [if_pos hsome] at h7
    refine ⟨h1, h2, h3, h4, ?_, ?_, ?_, h8⟩
    · exact (hmap Warp.divergent fun _ => rfl) ▸ h5
    · show _ + (s.release.warps.map Warp.events).sum
        ≤ 2 * (_ + (s.release.warps.map Warp.divergent).sum)
      rw [hmap Warp.events fun _ => rfl, hmap Warp.divergent fun _ => rfl]
      exact h6
    · show s.stats.barriersCompleted + 1 + (if s.release.warps.any _ = true then 1 else 0) ≤ _
      rw [hnone]
      exact h7

end Accounts

section Launch

variable {F : FloatOps}

/-- The totals once the warps' own counters have been collected. -/
theorem foldl_collect : ∀ (warps : List Warp) (s : LaunchStats), warps.foldl LaunchStats.collect s =
    { s with
      divergentBranches := s.divergentBranches + (warps.map Warp.divergent).sum
      reconvergenceEvents := s.reconvergenceEvents + (warps.map Warp.reconverged).sum }
  | [], s => rfl
  | w :: warps, s => by
    rw [List.foldl_cons, foldl_collect warps]
    simp only [LaunchStats.collect, List.map_cons, List.sum_cons, Nat.add_assoc]

theorem sum_reconverged_le (warps : List Warp) :
    (warps.map Warp.reconverged).sum ≤ (warps.map Warp.events).sum :=
  List.sum_le_sum fun _ _ => Nat.le_add_right _ _

theorem accounts_run {program : List Instruction} {s s' : Scheduler} {log : List Event}
    (hrun : Scheduler.Run F program s log s') (h : Accounts s.stats s.warps s.memory.stats) :
    Accounts s'.stats s'.warps s'.memory.stats :=
  Scheduler.run_induction (P := fun _ s => Accounts s.stats s.warps s.memory.stats) hrun
    (fun _ _ _ _ h hadv => accounts_advance h hadv) h

/-- The warps of a new block have counted nothing yet. -/
theorem accounts_startBlock {l : Launch} {ctaid : Dim2} {d : LaunchState}
    (h : Accounts d.stats [] {}) :
    Accounts (l.startBlock ctaid d).stats (l.startBlock ctaid d).warps
      (l.startBlock ctaid d).memory.stats := by
  have hnew : ∀ w ∈ (l.startBlock ctaid d).warps,
      w.divergent = 0 ∧ w.events = 0 ∧ w.parked = false := by
    intro w hw
    obtain ⟨n, -, rfl⟩ := List.mem_map.1 hw
    exact ⟨rfl, rfl, rfl⟩
  have hsum : ∀ f : Warp → Nat, (∀ w ∈ (l.startBlock ctaid d).warps, f w = 0) →
      ((l.startBlock ctaid d).warps.map f).sum = 0 := by
    intro f hf
    rw [List.map_congr_left hf]
    simp
  obtain ⟨h1, h2, h3, h4, h5, h6, h7, h8⟩ := h
  refine ⟨h1, h2, h3, h4, ?_, ?_, ?_, h8⟩
  · rw [hsum _ fun w hw => (hnew w hw).1]
    exact h5
  · rw [hsum _ fun w hw => (hnew w hw).1, hsum _ fun w hw => (hnew w hw).2.1]
    exact h6
  · rw [List.any_eq_false.2 fun w hw => by rw [(hnew w hw).2.2]; exact Bool.false_ne_true]
    exact h7

theorem accounts_finishBlock {l : Launch} {b : Block}
    (h : Accounts b.stats b.warps b.memory.stats) :
    Accounts (l.finishBlock b.finish).stats [] {} := by
  obtain ⟨h1, h2, h3, h4, h5, h6, h7, h8⟩ := h
  have hle := sum_reconverged_le b.warps
  unfold Launch.finishBlock Block.finish
  rw [foldl_collect]
  refine ⟨h1, h2, h3, h4, h5, ?_, ?_, h8⟩
  · simp only [List.map_nil, List.sum_nil]
    omega
  · simp only [List.any_nil, Bool.false_eq_true, if_false]
    omega

theorem accounts_completes {l : Launch} {order : List Dim2} {d d' : LaunchState}
    (h : Launch.Completes F l d order d') (hd : Accounts d.stats [] {}) :
    Accounts d'.stats [] {} := by
  induction h with
  | nil => exact hd
  | cons run ret _ ih =>
    obtain ⟨-, rfl⟩ := Scheduler.advance_ok ret
    exact ih (accounts_finishBlock (accounts_run run (accounts_startBlock hd)))

theorem accounts_empty : Accounts {} [] {} := by
  constructor
  · rfl
  · rfl
  · rfl
  · decide
  · exact Nat.le_refl _
  · exact Nat.le_refl _
  · exact Nat.le_refl _
  · exact .zero _ _

/-- The totals of every launch that returns them add up. -/
theorem launch_accounting {program : Program} {grid block : Dim2} {params : List Word}
    {global global' : ByteMemory} {fuel : Nat} {s : LaunchStats}
    (h : Device.launch F program grid block params global fuel = some (.ok s, global')) :
    s.aluInstructions + s.memoryInstructions + s.controlInstructions + s.barrierInstructions
      = s.instructionsIssued
    ∧ s.activeLaneHistogram.length = warpSize + 1
    ∧ s.activeLaneHistogram.sum = s.instructionsIssued
    ∧ (∑ k ∈ Finset.range (warpSize + 1), k * s.activeLaneHistogram.getD k 0) = s.activeLaneSum
    ∧ s.divergentBranches ≤ s.controlInstructions
    ∧ s.reconvergenceEvents ≤ 2 * s.divergentBranches
    ∧ s.barriersCompleted ≤ s.barrierInstructions
    ∧ s.memory.globalLoads + s.memory.globalStores + s.memory.sharedAccesses ≤ s.memoryInstructions
    ∧ s.memory.globalLoads + s.memory.globalStores ≤ s.memory.globalSegments
    ∧ s.memory.globalSegments ≤ s.memory.globalLaneAccesses
    ∧ s.memory.sharedAccesses + s.memory.sharedConflictedAccesses ≤ s.memory.sharedWavefronts
    ∧ s.memory.sharedWavefronts ≤ s.memory.sharedLaneAccesses
    ∧ s.memory.globalLaneAccesses + s.memory.sharedLaneAccesses ≤ s.activeLaneSum := by
  obtain ⟨decoded, -, -, -, hcompletes⟩ := Device.launch_completes h
  obtain ⟨h1, h2, h3, h4, h5, h6, h7, h8⟩ := accounts_completes hcompletes accounts_empty
  exact ⟨h1, h2, h3, h4, h5, h6, h7, h8.accesses, h8.segments, h8.globalLanes, h8.wavefronts,
    h8.sharedLanes, h8.lanes⟩

/-- Lanes of odd index branch over a store of the even ones. -/
def oddProgram : Program where
  words := [{ opcode := .movSreg, src0 := 8 : Instruction },
    { opcode := .and, dst := 1, immFlag := true, imm := 1 },
    { opcode := .setpEqS32, src0 := 1, immFlag := true, imm := 1 },
    { opcode := .bra, guard := ⟨true, false, 0⟩, imm := Instruction.makeBranchImm 6 6 },
    { opcode := .shl, dst := 2, immFlag := true, imm := 2 },
    { opcode := .stGlobal, src0 := 2, src1 := 0, immFlag := true },
    { opcode := .barSync }, { opcode := .exit }].map packWord

/-- The launch of `oddProgram` on one block of 40 lanes splits both warps. -/
theorem oddProgram_accounting : ∃ s global', Device.launch default oddProgram ⟨1, 1⟩ ⟨40, 1⟩ []
    (.zeroed 160) 40 = some (.ok s, global') ∧ s.divergentBranches = 2
      ∧ s.reconvergenceEvents ≤ 2 * s.divergentBranches := by
  have hok : (Device.launch default oddProgram ⟨1, 1⟩ ⟨40, 1⟩ [] (.zeroed 160) 40).any
      (fun r => r.1.toOption.any fun s => s.divergentBranches == 2) = true := by decide +kernel
  rcases h : Device.launch default oddProgram ⟨1, 1⟩ ⟨40, 1⟩ [] (.zeroed 160) 40
    with _ | ⟨_ | s, global'⟩ <;> rw [h] at hok
  · cases hok
  · cases hok
  · exact ⟨s, global', rfl, beq_iff_eq.1 hok, (launch_accounting h).2.2.2.2.2.1⟩

end Launch

end WarpSim
