import WarpSim.Memory
import WarpSim.Proofs.Partition

/-!
# What one access adds to the analyzer's counters

The segments and banks of a warp-level access are found by walking the lanes. At every point of the
walk no more has been recorded than lanes have been visited, and something has been once a lane
has.
-/

namespace WarpSim

section Segments

variable (addresses : Nat → Word) (exec : LaneMask)

/-- One lane of `distinct_segments`. -/
def visitSegment (seen : List Word) (lane : Nat) : List Word :=
  if hasLane exec lane then
    let segment := addresses lane / segmentBytes
    if segment ∈ seen then seen else seen ++ [segment]
  else seen

theorem segmentsSeen_eq :
    segmentsSeen addresses exec = lanes.foldl (visitSegment addresses exec) [] :=
  rfl

theorem length_visitSegment (seen : List Word) (lane : Nat) :
    seen.length ≤ (visitSegment addresses exec seen lane).length
      ∧ (visitSegment addresses exec seen lane).length
        ≤ seen.length + (if hasLane exec lane then 1 else 0)
      ∧ (hasLane exec lane = true → 1 ≤ (visitSegment addresses exec seen lane).length) := by
  unfold visitSegment
  simp only []
  split_ifs with h1 h2
  · exact ⟨Nat.le_refl _, Nat.le_succ _, fun _ => List.length_pos_of_mem h2⟩
  · simp
  · simp [h1]

theorem length_segments : ∀ (l : List Nat) (seen : List Word),
    seen.length ≤ (l.foldl (visitSegment addresses exec) seen).length
      ∧ (l.foldl (visitSegment addresses exec) seen).length ≤ seen.length + l.countP (hasLane exec)
      ∧ ((∃ lane ∈ l, hasLane exec lane = true) →
        1 ≤ (l.foldl (visitSegment addresses exec) seen).length)
  | [], seen => by simp
  | lane :: l, seen => by
    obtain ⟨h1, h2, h3⟩ := length_visitSegment addresses exec seen lane
    obtain ⟨ih1, ih2, ih3⟩ := length_segments l (visitSegment addresses exec seen lane)
    rw [List.foldl_cons, List.countP_cons]
    refine ⟨by omega, by omega, ?_⟩
    rintro ⟨lane', hmem, hl⟩
    rcases List.mem_cons.1 hmem with rfl | hmem
    · exact Nat.le_trans (h3 hl) ih1
    · exact ih3 ⟨lane', hmem, hl⟩

theorem distinctSegments_bounds (hne : exec ≠ 0) :
    1 ≤ distinctSegments addresses exec ∧ distinctSegments addresses exec ≤ laneCount exec := by
  obtain ⟨-, hle, hpos⟩ := length_segments addresses exec lanes []
  obtain ⟨lane, hl⟩ := mask_ne_zero.1 hne
  rw [List.length_nil, Nat.zero_add] at hle
  exact ⟨hpos ⟨lane, hasLane_mem_lanes hl, hl⟩, hle⟩

end Segments

section Banks

variable (addresses : Nat → Word) (exec : LaneMask)

/-- One lane of `bank_conflict_degree`. -/
def visitBank (s : BankScan) (lane : Nat) : BankScan :=
  if hasLane exec lane then s.visit (addresses lane) else s

theorem bankConflictDegree_eq :
    bankConflictDegree addresses exec = (lanes.foldl (visitBank addresses exec) {}).degree :=
  rfl

/-- After `n` lanes: no bank holds more than the degree, and the degree is at most `n`. -/
structure BankScan.Within (s : BankScan) (n : Nat) : Prop where
  bank : ∀ b, (s.seen b).length ≤ s.degree
  degree : s.degree ≤ n

theorem BankScan.within_visit {s : BankScan} {n : Nat} (h : s.Within n) (address : Word) :
    (s.visit address).Within (n + 1) ∧ 1 ≤ (s.visit address).degree := by
  have hbank := h.bank (address / bankWidthBytes % bankCount)
  have hdegree := h.degree
  unfold BankScan.visit
  simp only []
  split_ifs with hmem
  · have hpos := List.length_pos_of_mem hmem
    exact ⟨⟨h.bank, by omega⟩, by omega⟩
  · refine ⟨⟨fun b => ?_, ?_⟩, ?_⟩
    · have hb := h.bank b
      simp only []
      split_ifs
      · rw [List.length_append, List.length_singleton]
        omega
      · omega
    · simp only []
      omega
    · simp only []
      omega

theorem degree_visit_le (s : BankScan) (address : Word) : s.degree ≤ (s.visit address).degree := by
  unfold BankScan.visit
  simp only []
  split_ifs
  · exact Nat.le_refl _
  · exact Nat.le_max_left _ _

theorem banks_within : ∀ (l : List Nat) {s : BankScan} {n : Nat}, s.Within n →
    (l.foldl (visitBank addresses exec) s).Within (n + l.countP (hasLane exec))
      ∧ s.degree ≤ (l.foldl (visitBank addresses exec) s).degree
      ∧ ((∃ lane ∈ l, hasLane exec lane = true) →
        1 ≤ (l.foldl (visitBank addresses exec) s).degree)
  | [], s, n, h => ⟨h, Nat.le_refl _, by simp⟩
  | lane :: l, s, n, h => by
    rw [List.foldl_cons, List.countP_cons]
    by_cases hl : hasLane exec lane = true
    · have hvisit : visitBank addresses exec s lane = s.visit (addresses lane) := if_pos hl
      obtain ⟨h1, h2⟩ := BankScan.within_visit h (addresses lane)
      obtain ⟨ih1, ih2, -⟩ := banks_within l h1
      rw [hvisit, if_pos hl, Nat.add_comm _ 1, ← Nat.add_assoc]
      exact ⟨ih1, Nat.le_trans (degree_visit_le s _) ih2, fun _ => Nat.le_trans h2 ih2⟩
    · have hvisit : visitBank addresses exec s lane = s := if_neg hl
      obtain ⟨ih1, ih2, ih3⟩ := banks_within l h
      rw [hvisit, if_neg hl]
      refine ⟨ih1, ih2, ?_⟩
      rintro ⟨lane', hmem, hl'⟩
      rcases List.mem_cons.1 hmem with rfl | hmem
      · exact absurd hl' hl
      · exact ih3 ⟨lane', hmem, hl'⟩

theorem bankConflictDegree_bounds (hne : exec ≠ 0) :
    1 ≤ bankConflictDegree addresses exec ∧ bankConflictDegree addresses exec ≤ laneCount exec := by
  obtain ⟨hwithin, -, hpos⟩ := banks_within addresses exec lanes
    (show BankScan.Within {} 0 from ⟨fun b => Nat.le_refl _, Nat.le_refl _⟩)
  obtain ⟨lane, hl⟩ := mask_ne_zero.1 hne
  refine ⟨hpos ⟨lane, hasLane_mem_lanes hl, hl⟩, ?_⟩
  have hle := hwithin.degree
  rwa [Nat.zero_add] at hle

end Banks

end WarpSim
