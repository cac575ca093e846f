import WarpSim.Proofs.Micro
import Mathlib.Algebra.BigOperators.Group.List.Basic
import Mathlib.Algebra.Order.BigOperators.Group.List
import Mathlib.Algebra.Order.Group.Nat

/-!
# The masks partition the live lanes

Every live lane is in exactly one of the active mask and the stack's masks, and no other lane is
in any (`Partition.once`): pushing, popping and uniting masks moves lanes from one to another, and
retiring takes them out of both sides. With no mask on the stack empty and one lane active, a full
stack would need 32 lanes more than there are.
-/

namespace WarpSim

/-- How many of the warp's masks hold a lane. -/
def WarpState.occurrences (s : WarpState) (lane : Nat) : Nat :=
  (hasLane s.active lane).toNat + (s.stack.map fun e => (hasLane e.mask lane).toNat).sum

structure Partition (s : WarpState) : Prop where
  nonempty : ∀ e ∈ s.stack, e.mask ≠ 0
  once : ∀ lane, s.occurrences lane = (hasLane s.live lane).toNat
  depth : s.stack.length ≤ 31

namespace Warp

theorem toNat_or_of_le_one {a b : Bool} (h : a.toNat + b.toNat ≤ 1) :
    (a || b).toNat = a.toNat + b.toNat := by
  cases a <;> cases b <;> simp_all

theorem eq_of_toNat_eq {a b : Bool} (h : a.toNat = b.toNat) : a = b := by
  cases a <;> cases b <;> simp_all

theorem laneCount_eq_sum (m : LaneMask) :
    laneCount m = (lanes.map fun lane => (hasLane m lane).toNat).sum := by
  rw [laneCount]
  induction lanes with
  | nil => rfl
  | cons lane l ih =>
    rw [List.countP_cons, List.map_cons, List.sum_cons, ih]
    cases hasLane m lane <;> simp [Nat.add_comm]

theorem laneCount_le (m : LaneMask) : laneCount m ≤ 32 := by
  rw [laneCount]
  exact List.countP_le_length

theorem one_le_laneCount {m : LaneMask} (h : m ≠ 0) : 1 ≤ laneCount m := by
  obtain ⟨lane, hl⟩ := mask_ne_zero.1 h
  exact List.countP_pos_iff.2 ⟨lane, hasLane_mem_lanes hl, hl⟩

/-- The masks hold as many lanes as are live. -/
theorem laneCount_live {s : WarpState}
    (h : ∀ lane, s.occurrences lane = (hasLane s.live lane).toNat) :
    laneCount s.active + (s.stack.map fun e => laneCount e.mask).sum = laneCount s.live := by
  have hsum : ∀ (l : List Nat) (st : List DivergenceEntry),
      (st.map fun e => (l.map fun lane => (hasLane e.mask lane).toNat).sum).sum
        = (l.map fun lane => (st.map fun e => (hasLane e.mask lane).toNat).sum).sum := by
    intro l st
    induction st with
    | nil => simp
    | cons e st ih => simp [ih, List.sum_map_add]
  simp only [laneCount_eq_sum, hsum]
  rw [← List.sum_map_add]
  exact congrArg List.sum (List.map_congr_left fun lane _ => h lane)

theorem length_le_laneCount {st : List DivergenceEntry} (h : ∀ e ∈ st, e.mask ≠ 0) :
    st.length ≤ (st.map fun e => laneCount e.mask).sum := by
  induction st with
  | nil => simp
  | cons e st ih =>
    have h1 := one_le_laneCount (h e List.mem_cons_self)
    have h2 := ih fun e' he' => h e' (List.mem_cons_of_mem _ he')
    simp only [List.length_cons, List.map_cons, List.sum_cons]
    omega

/-- With a lane active, the other masks have 31 lanes left to share. -/
theorem length_le_of_active {s : WarpState} (hne : ∀ e ∈ s.stack, e.mask ≠ 0)
    (h : ∀ lane, s.occurrences lane = (hasLane s.live lane).toNat) (ha : s.active ≠ 0) :
    s.stack.length ≤ 31 := by
  have h1 := laneCount_live h
  have h2 := length_le_laneCount hne
  have h3 := one_le_laneCount ha
  have h4 := laneCount_le s.live
  omega

theorem occurrences_le_one {s : WarpState} (h : Partition s) (lane : Nat) :
    s.occurrences lane ≤ 1 := by
  rw [h.once]
  cases hasLane s.live lane <;> simp

theorem partition_new (warpId : Word) (live : LaneMask) (context : LaneContext) :
    Partition (new warpId live context).toWarpState :=
  ⟨by simp [new], by simp [new, WarpState.occurrences], by simp [new]⟩

theorem partition_resolve {w w' : Warp} (hp : Partition w.toWarpState)
    (h : w.resolveIteration = .inl w') : Partition w'.toWarpState := by
  obtain ⟨hr, hl⟩ := resolveIteration_cases h
  have hone := occurrences_le_one hp
  obtain ⟨hne, honce, hdepth⟩ := hp
  simp only [WarpState.occurrences] at honce hone ⊢
  cases hr with
  | resume e hempty hs hactive hpc =>
    rw [hs] at hne honce hdepth
    refine ⟨fun e' he' => hne e' (List.mem_cons_of_mem _ he'), fun lane => ?_, ?_⟩
    · rw [hl.live, ← honce lane]
      simp [WarpState.occurrences, hempty, hactive]
    · simp only [List.length_cons] at hdepth
      omega
  | arrive e rest hactne hs hat hdefer hs' hactive hpc =>
    rw [hs] at hne honce hdepth
    refine ⟨?_, fun lane => ?_, ?_⟩
    · rw [hs']
      intro e' he'
      rcases List.mem_cons.1 he' with rfl | he'
      · exact hactne
      · exact hne e' (List.mem_cons_of_mem _ he')
    · rw [hl.live, ← honce lane, WarpState.occurrences, hactive, hs']
      simp only [List.map_cons, List.sum_cons]
      omega
    · rw [hs']
      simpa using hdepth
  | join e hactne hs hat hjoin hactive hpc =>
    rw [hs] at hne honce hdepth hone
    refine ⟨fun e' he' => hne e' (List.mem_cons_of_mem _ he'), fun lane => ?_, ?_⟩
    · rw [hl.live, ← honce lane, WarpState.occurrences, hactive, hasLane_or]
      have hle := hone lane
      simp only [List.map_cons, List.sum_cons] at hle ⊢
      rw [toNat_or_of_le_one (by omega)]
      omega
    · simp only [List.length_cons] at hdepth
      omega

/-- Retiring active lanes leaves the stack alone: no lane is in two masks. -/
theorem retire_stack {w : Warp} {gone : LaneMask} (hp : Partition w.toWarpState)
    (hg : ∀ lane, hasLane gone lane = true → hasLane w.active lane = true) :
    (w.retire gone).stack = w.stack := by
  have hmask : ∀ e ∈ w.stack, e.mask &&& ~~~gone = e.mask := by
    intro e he
    refine mask_ext fun lane => ?_
    rw [hasLane_and_not]
    by_cases hlane : hasLane gone lane = true
    · have hone := occurrences_le_one hp lane
      have hle : (hasLane e.mask lane).toNat
          ≤ (w.stack.map fun e => (hasLane e.mask lane).toNat).sum :=
        List.le_sum_of_mem (List.mem_map_of_mem (f := fun e : DivergenceEntry =>
          (hasLane e.mask lane).toNat) he)
      rw [WarpState.occurrences, hg lane hlane, Bool.toNat_true] at hone
      cases hm : hasLane e.mask lane
      · simp
      · rw [hm, Bool.toNat_true] at hle
        omega
    · simp [hlane]
  rw [retire]
  conv_rhs => rw [← List.map_id w.stack]
  refine List.map_congr_left fun e he => ?_
  rw [hmask e he]
  rfl

theorem partition_retire {w w' : Warp} {gone : LaneMask} (hp : Partition w.toWarpState)
    (hg : ∀ lane, hasLane gone lane = true → hasLane w.active lane = true)
    (hw' : SameMasks (w.retire gone) w') : Partition w'.toWarpState := by
  obtain ⟨ha, hl, hs⟩ := hw'
  have hstack := retire_stack hp hg
  rw [hstack] at hs
  refine ⟨by rw [hs]; exact hp.nonempty, fun lane => ?_, by rw [hs]; exact hp.depth⟩
  have honce := hp.once lane
  have hone := occurrences_le_one hp lane
  rw [WarpState.occurrences] at honce hone
  rw [WarpState.occurrences, ha, hl, hs, retire]
  simp only [hasLane_and_not]
  by_cases hlane : hasLane gone lane = true
  · rw [hg lane hlane] at honce hone
    simp only [Bool.toNat_true] at hone
    simp [hlane]
    omega
  · simpa [hlane] using honce

theorem partition_effect {i : Instruction} {w w' : Warp} (hp : Partition w.toWarpState)
    (h : Effect i w w') : Partition w'.toWarpState := by
  have hsame : SameMasks w w' → Partition w'.toWarpState := by
    rintro ⟨ha, hl, hs⟩
    exact ⟨by rw [hs]; exact hp.nonempty,
      fun lane => by rw [hl, ← hp.once, WarpState.occurrences, WarpState.occurrences, ha, hs],
      by rw [hs]; exact hp.depth⟩
  cases h with
  | stay _ hm => exact hsame hm
  | move _ hm => exact hsame hm
  | exit _ _ hm => exact partition_retire hp (fun _ => execMask_sub_active) hm
  | split hbra hguard hpc hactive hlive hstack htaken hfall =>
    have hne : ∀ e ∈ w'.stack, e.mask ≠ 0 := by
      rw [hstack]
      intro e he
      rcases List.mem_cons.1 he with rfl | he
      · exact hfall
      · exact hp.nonempty e he
    have honce : ∀ lane, w'.occurrences lane = (hasLane w'.live lane).toNat := by
      intro lane
      have hsub : hasLane (w.execMask i) lane = true → hasLane w.active lane = true :=
        execMask_sub_active
      rw [hlive, ← hp.once lane, WarpState.occurrences, WarpState.occurrences, hactive, hstack]
      simp only [List.map_cons, List.sum_cons, hasLane_and_not]
      cases ha : hasLane w.active lane <;> cases he : hasLane (w.execMask i) lane <;> simp_all
    exact ⟨hne, honce, length_le_of_active hne honce (by rw [hactive]; exact htaken)⟩

/-- Every micro step keeps the partition. -/
theorem partition_micro {F : FloatOps} {program : List Instruction} {w w' : Warp}
    (hp : Partition w.toWarpState) (h : MicroStep F program w w') : Partition w'.toWarpState := by
  cases h with
  | resolve h => exact partition_resolve hp h
  | fall h hpc => exact partition_retire hp (fun _ hl => hl) ⟨rfl, rfl, rfl⟩
  | issue port m h hpc => exact partition_effect hp (issue_effect F port _ w m)
  | release => exact ⟨hp.nonempty, hp.once, hp.depth⟩

theorem partition_reachable {F : FloatOps} {program : List Instruction} {w : Warp}
    (h : Reachable F program w) : Partition w.toWarpState :=
  reachable_induction partition_new (fun _ _ => partition_micro) h

section Statement

theorem mask_disjoint_of_once {a b : LaneMask}
    (h : ∀ lane, (hasLane a lane).toNat + (hasLane b lane).toNat ≤ 1) : a &&& b = 0 := by
  refine mask_eq_zero.2 fun lane => ?_
  have := h lane
  cases ha : hasLane a lane <;> cases hb : hasLane b lane <;> simp_all

theorem active_disjoint {s : WarpState} (hp : Partition s) {e : DivergenceEntry}
    (he : e ∈ s.stack) : s.active &&& e.mask = 0 := by
  refine mask_disjoint_of_once fun lane => ?_
  have hone := occurrences_le_one hp lane
  have hle : (hasLane e.mask lane).toNat
      ≤ (s.stack.map fun e => (hasLane e.mask lane).toNat).sum :=
    List.le_sum_of_mem (List.mem_map_of_mem (f := fun e : DivergenceEntry =>
      (hasLane e.mask lane).toNat) he)
  rw [WarpState.occurrences] at hone
  omega

theorem pairwise_disjoint : ∀ (st : List DivergenceEntry),
    (∀ lane, (st.map fun e => (hasLane e.mask lane).toNat).sum ≤ 1) →
      st.Pairwise fun e e' => e.mask &&& e'.mask = 0
  | [], _ => .nil
  | e :: st, h => by
    refine List.pairwise_cons.2 ⟨fun e' he' => mask_disjoint_of_once fun lane => ?_,
      pairwise_disjoint st fun lane => ?_⟩
    · have hle : (hasLane e'.mask lane).toNat
          ≤ (st.map fun e => (hasLane e.mask lane).toNat).sum :=
        List.le_sum_of_mem (List.mem_map_of_mem (f := fun e : DivergenceEntry =>
          (hasLane e.mask lane).toNat) he')
      have := h lane
      simp only [List.map_cons, List.sum_cons] at this
      omega
    · have := h lane
      simp only [List.map_cons, List.sum_cons] at this
      omega

theorem hasLane_foldl_or (lane : Nat) : ∀ (st : List DivergenceEntry) (m : LaneMask),
    hasLane (st.foldl (fun m e => m ||| e.mask) m) lane = true
      ↔ 1 ≤ (hasLane m lane).toNat + (st.map fun e => (hasLane e.mask lane).toNat).sum
  | [], m => by cases h : hasLane m lane <;> simp [h]
  | e :: st, m => by
    rw [List.foldl_cons, hasLane_foldl_or lane st, hasLane_or]
    cases hm : hasLane m lane <;> cases he : hasLane e.mask lane <;> simp [he]

theorem union_eq_live {s : WarpState} (hp : Partition s) :
    s.stack.foldl (fun m e => m ||| e.mask) s.active = s.live := by
  refine mask_ext fun lane => ?_
  have honce := hp.once lane
  rw [WarpState.occurrences] at honce
  rw [Bool.eq_iff_iff, hasLane_foldl_or, honce]
  cases hasLane s.live lane <;> simp

/-- `bar.sync` finds every live lane active exactly when nothing is deferred. -/
theorem active_eq_live {s : WarpState} (hp : Partition s) : s.active = s.live ↔ s.stack = [] := by
  constructor
  · intro h
    rcases hs : s.stack with _ | ⟨e, st⟩
    · rfl
    · obtain ⟨lane, hl⟩ := mask_ne_zero.1 (hp.nonempty e (by rw [hs]; exact List.mem_cons_self))
      have honce := hp.once lane
      rw [WarpState.occurrences, h, hs] at honce
      simp [hl] at honce
  · intro h
    have := union_eq_live hp
    rwa [h] at this

theorem stack_of_finished {s : WarpState} (hp : Partition s) (h : s.finished = true) :
    s.stack = [] := by
  refine (active_eq_live hp).1 (mask_ext fun lane => ?_)
  have honce := hp.once lane
  rw [WarpState.finished, beq_iff_eq] at h
  rw [WarpState.occurrences, h] at honce
  rw [h]
  simp only [BitVec.ofNat_eq_ofNat, hasLane_zero, Bool.toNat_false] at honce ⊢
  cases ha : hasLane s.active lane
  · rfl
  · rw [ha] at honce
    simp at honce

/-- In every warp a fresh one can become, and in the one each step is about to issue from, the
active mask and the stack's masks are non-empty where they are on the stack, pairwise disjoint,
and together the live mask. -/
theorem mask_partition (F : FloatOps) (program : List Instruction) (warpId : Word)
    (live : LaneMask) (context : LaneContext) (w : Warp)
    (h : Relation.ReflTransGen (WarpStep F program) (new warpId live context) w) :
    (∀ e ∈ w.stack, e.mask ≠ 0)
    ∧ (∀ e ∈ w.stack, w.active &&& e.mask = 0)
    ∧ (w.stack.Pairwise fun e e' => e.mask &&& e'.mask = 0)
    ∧ w.stack.foldl (fun m e => m ||| e.mask) w.active = w.live
    ∧ (∀ lane, hasLane w.live lane = false →
        hasLane w.active lane = false ∧ ∀ e ∈ w.stack, hasLane e.mask lane = false)
    ∧ w.stack.length ≤ 31
    ∧ (w.finished = true → w.stack = [])
    ∧ ∀ i w', w.settle program = .ready i w' → i.opcode = .barSync →
        (w'.active = w'.live ↔ w'.stack = []) := by
  have hp := partition_reachable ⟨warpId, live, context, h⟩
  have hsum : ∀ lane, (w.stack.map fun e => (hasLane e.mask lane).toNat).sum ≤ 1 := by
    intro lane
    have := occurrences_le_one hp lane
    rw [WarpState.occurrences] at this
    omega
  refine ⟨hp.nonempty, fun e => active_disjoint hp, pairwise_disjoint _ hsum, union_eq_live hp,
    fun lane hl => ?_, hp.depth, stack_of_finished hp, fun i w' hs _ => ?_⟩
  · have honce := hp.once lane
    rw [hl, Bool.toNat_false, WarpState.occurrences] at honce
    refine ⟨by cases ha : hasLane w.active lane <;> simp_all, fun e he => ?_⟩
    have hle : (hasLane e.mask lane).toNat
        ≤ (w.stack.map fun e => (hasLane e.mask lane).toNat).sum :=
      List.le_sum_of_mem (List.mem_map_of_mem (f := fun e : DivergenceEntry =>
        (hasLane e.mask lane).toNat) he)
    cases hm : hasLane e.mask lane
    · rfl
    · rw [hm, Bool.toNat_true] at hle
      omega
  · have hm := settle_micro F program w
    rw [hs] at hm
    exact active_eq_live (micro_invariant (fun _ _ => partition_micro) hm.1 hp)

/-- Half of the lanes take the branch of `@p0 bra`, the other half is deferred. -/
def divergingProgram : List Instruction :=
  [{ opcode := .movSreg, src0 := 8 },
    { opcode := .setpLtS32, immFlag := true, imm := 16 },
    { opcode := .bra, guard := ⟨true, false, 0⟩, imm := Instruction.makeBranchImm 4 4 },
    { opcode := .mov, dst := 1, immFlag := true, imm := 5 }, { opcode := .barSync },
    { opcode := .exit }]

def divergedWarp : Warp :=
  ((new 0 fullMask {}).steps default nullMemory divergingProgram 3 ()).1

theorem divergedWarp_partition :
    divergedWarp.stack.foldl (fun m e => m ||| e.mask) divergedWarp.active = divergedWarp.live
      ∧ divergedWarp.stack.length ≤ 31 :=
  have h := mask_partition default divergingProgram 0 fullMask {} divergedWarp
    (steps_warpStep nullMemory 3 _ ())
  ⟨h.2.2.2.1, h.2.2.2.2.2.1⟩

end Statement

end Warp

end WarpSim
