import WarpSim.Scalar
import WarpSim.Proofs.Partition

/-!
# The warp refines its lanes

Resolving the stack moves lanes between masks and leaves each lane's own pc where it was, because
every entry that becomes active or deferred carries the pc of its lanes. An issue is then one
scalar step of each active lane, in lane order over the memory.
-/

namespace WarpSim

section StepLanes

variable {σ : Type} {step : Nat → LaneState → σ → Option (LaneState × σ)} {active : LaneMask}

/-- Where a step leaves the memory alone, the lanes step side by side. -/
theorem stepLanes_pure {f : Nat → LaneState → LaneState} : ∀ (l : List Nat) (s : Nat → LaneState)
    (m : σ), l.Nodup →
    (∀ lane ∈ l, hasLane active lane = true → ∀ m, step lane (s lane) m
    = some (f lane (s lane), m)) → stepLanes step active l s m = some
        (fun lane => if lane ∈ l ∧ hasLane active lane = true then f lane (s lane) else s lane, m)
  | [], _, _, _, _ => by simp [stepLanes]
  | a :: l, s, m, hnd, hstep => by
    obtain ⟨ha, hnd⟩ := List.nodup_cons.1 hnd
    rw [stepLanes]
    by_cases hact : hasLane active a = true
    · rw [if_pos hact, hstep a List.mem_cons_self hact m]
      have hne : ∀ lane ∈ l, Function.update s a (f a (s a)) lane = s lane :=
        by
        intro lane h
        refine Function.update_of_ne ?_ _ _
        rintro rfl
        exact ha h
      simp only []
      rw [stepLanes_pure l _ m hnd fun lane hl hla m => by
        rw [hne lane hl]
        exact hstep lane (List.mem_cons_of_mem _ hl) hla m]
      congr 2
      funext lane
      by_cases hl : lane = a
      · subst hl
        simp [ha, hact]
      · simp [hl]
    · rw [if_neg hact, stepLanes_pure l s m hnd fun lane hl =>
        hstep lane (List.mem_cons_of_mem _ hl)]
      congr 2
      funext lane
      by_cases hl : lane = a
      · subst hl
        simp [hact]
      · simp [hl]

theorem stepLanes_lanes {f : Nat → LaneState → LaneState} {s s' : Nat → LaneState} (m : σ)
    (hstep : ∀ lane, hasLane active lane = true →
      ∀ m, step lane (s lane) m = some (f lane (s lane), m))
    (hs' : ∀ lane, s' lane = if hasLane active lane then f lane (s lane) else s lane) :
    stepLanes step active lanes s m = some (s', m) := by
  rw [stepLanes_pure lanes s m List.nodup_range fun lane _ => hstep lane]
  congr 2
  funext lane
  rw [hs']
  refine if_congr (and_iff_right_of_imp fun h => hasLane_mem_lanes h) rfl rfl

/-- A lane that does not step stays as it is. -/
theorem stepLanes_frame {lane : Nat} : ∀ (l : List Nat) (s s' : Nat → LaneState) (m m' : σ),
    (lane ∈ l → hasLane active lane = false) →
      stepLanes step active l s m = some (s', m') → s' lane = s lane
  | [], s, s', m, m', _, h => by
    simp only [stepLanes, Option.some.injEq, Prod.mk.injEq] at h
    rw [h.1]
  | a :: l, s, s', m, m', hl, h => by
    have hl' : lane ∈ l → hasLane active lane = false := fun h => hl (List.mem_cons_of_mem _ h)
    rw [stepLanes] at h
    split_ifs at h with hact
    · rcases hs : step a (s a) m with _ | ⟨t, m₁⟩ <;> rw [hs] at h
      · cases h
      · have hne : lane ≠ a := by
          rintro rfl
          simp [hl List.mem_cons_self] at hact
        rw [stepLanes_frame l _ _ _ _ hl' h, Function.update_of_ne hne]
    · exact stepLanes_frame l _ _ _ _ hl' h

/-- Every lane that steps does so once, over a memory that keeps what the steps keep. -/
theorem stepLanes_each {lane : Nat} (hlane : hasLane active lane = true) (P : σ → Prop)
    (hP : ∀ a s m t m', P m → step a s m = some (t, m') → P m') :
    ∀ (l : List Nat) (s s' : Nat → LaneState) (m m' : σ), l.Nodup → lane ∈ l → P m →
      stepLanes step active l s m = some (s', m') →
      ∃ m₁ m₂, P m₁ ∧ step lane (s lane) m₁ = some (s' lane, m₂)
  | [], _, _, _, _, _, hl, _, _ => by simp at hl
  | a :: l, s, s', m, m', hnd, hl, hm, h => by
    obtain ⟨ha, hnd⟩ := List.nodup_cons.1 hnd
    rw [stepLanes] at h
    by_cases hne : lane = a
    · subst hne
      rw [if_pos hlane] at h
      rcases hs : step lane (s lane) m with _ | ⟨t, m₁⟩ <;> rw [hs] at h
      · cases h
      · refine ⟨m, m₁, hm, ?_⟩
        rw [stepLanes_frame l _ _ _ _ (fun hin => absurd hin ha) h, Function.update_self, hs]
    · have hl : lane ∈ l := by simpa [hne] using hl
      split_ifs at h with hact
      · rcases hs : step a (s a) m with _ | ⟨t, m₁⟩ <;> rw [hs] at h
        · cases h
        · obtain ⟨m₁, m₂, hm₁, hstep⟩ :=
            stepLanes_each hlane P hP l _ _ _ _ hnd hl (hP _ _ _ _ _ hm hs) h
          rw [Function.update_of_ne hne] at hstep
          exact ⟨m₁, m₂, hm₁, hstep⟩
      · exact stepLanes_each hlane P hP l _ _ _ _ hnd hl hm h

end StepLanes

namespace Warp

section OwnPc

variable {w w' : Warp}

theorem ownPc_active {s : WarpState} {lane : Nat} (h : hasLane s.active lane = true) :
    s.ownPc lane = some s.pc := by
  rw [WarpState.ownPc, if_pos h]

theorem ownPc_deferred {s : WarpState} {lane : Nat} (h : hasLane s.active lane = false) :
    s.ownPc lane
      = (s.stack.find? fun e => hasLane e.mask lane).map DivergenceEntry.resumePc := by
  rw [WarpState.ownPc, h, if_neg Bool.false_ne_true]

theorem deferred_cons (e : DivergenceEntry) (rest : List DivergenceEntry) (lane : Nat) :
    ((e :: rest).find? fun e => hasLane e.mask lane).map DivergenceEntry.resumePc
      = if hasLane e.mask lane then some e.resumePc
        else (rest.find? fun e => hasLane e.mask lane).map DivergenceEntry.resumePc := by
  rw [List.find?_cons]
  cases hasLane e.mask lane <;> rfl

/-- The live lanes are those with a pc of their own. -/
theorem ownPc_isSome (hp : Partition w.toWarpState) (lane : Nat) :
    (w.ownPc lane).isSome = hasLane w.live lane := by
  have honce := hp.once lane
  rw [WarpState.occurrences] at honce
  cases ha : hasLane w.active lane
  · rw [ownPc_deferred ha, Option.isSome_map, Bool.eq_iff_iff, List.find?_isSome]
    rw [ha, Bool.toNat_false, Nat.zero_add] at honce
    constructor
    · rintro ⟨e, he, hl⟩
      have hle : (hasLane e.mask lane).toNat
          ≤ (w.stack.map fun e => (hasLane e.mask lane).toNat).sum :=
        List.le_sum_of_mem (List.mem_map_of_mem (f := fun e : DivergenceEntry =>
          (hasLane e.mask lane).toNat) he)
      rw [hl, honce] at hle
      cases hv : hasLane w.live lane
      · simp [hv] at hle
      · rfl
    · intro hl
      by_contra hc
      have hz : (w.stack.map fun e => (hasLane e.mask lane).toNat).sum = 0 := by
        refine List.sum_eq_zero fun n hn => ?_
        obtain ⟨e, he, rfl⟩ := List.mem_map.1 hn
        rw [Bool.toNat_eq_zero, ← Bool.not_eq_true]
        exact fun h => hc ⟨e, he, h⟩
      rw [hz, hl] at honce
      cases honce
  · rw [ownPc_active ha, Option.isSome_some]
    cases hv : hasLane w.live lane
    · rw [ha, hv] at honce
      simp at honce
    · rfl

theorem ownPc_none (hp : Partition w.toWarpState) {lane : Nat} (h : hasLane w.live lane = false) :
    w.ownPc lane = none := by
  rw [← Option.not_isSome_iff_eq_none, ownPc_isSome hp, h]
  simp

theorem ended_of_dead {program : List Instruction} (hp : Partition w.toWarpState) {lane : Nat}
    (h : hasLane w.live lane = false) : (w.laneState lane).ended program = true :=
  LaneState.ended_of_retired (ownPc_none hp h)

/-- No iteration of `resolve_stack` changes a lane's own pc. -/
theorem ownPc_resolve (hp : Partition w.toWarpState) (h : Resolve w w') (lane : Nat) :
    w'.ownPc lane = w.ownPc lane := by
  cases h with
  | resume e hempty hs hactive hpc =>
    have hoff : hasLane w.active lane = false := by rw [hempty]; exact hasLane_zero lane
    rw [ownPc_deferred hoff, hs, deferred_cons]
    cases he : hasLane e.mask lane
    · exact ownPc_deferred (by rw [hactive, he])
    · rw [ownPc_active (by rw [hactive, he]), hpc]
      rfl
  | arrive e rest hne hs hat hdefer hs' hactive hpc =>
    have hdis : hasLane w.active lane = true → hasLane e.mask lane = false := by
      intro ha
      have hd := active_disjoint hp (hs ▸ List.mem_cons_self)
      have := congrArg (hasLane · lane) hd
      simpa [ha] using this
    cases ha : hasLane w.active lane
    · rw [ownPc_deferred ha, hs, deferred_cons]
      cases he : hasLane e.mask lane
      · rw [ownPc_deferred (by rw [hactive, he]), hs', deferred_cons, ha]
        rfl
      · rw [ownPc_active (by rw [hactive, he]), hpc]
        rfl
    · rw [ownPc_active ha, ownPc_deferred (by rw [hactive, hdis ha]), hs', deferred_cons, ha, ← hat]
      rfl
  | join e hne hs hat hjoin hactive hpc =>
    cases ha : hasLane w.active lane
    · rw [ownPc_deferred ha, hs, deferred_cons]
      cases he : hasLane e.mask lane
      · exact ownPc_deferred (by rw [hactive, hasLane_or, ha, he]; rfl)
      · rw [ownPc_active (by rw [hactive, hasLane_or, he, Bool.or_true]), hpc, ← hat, ← hjoin]
        rfl
    · rw [ownPc_active ha, ownPc_active (by rw [hactive, hasLane_or, ha, Bool.true_or]), hpc]

theorem laneState_resolve (hp : Partition w.toWarpState) (h : w.resolveIteration = .inl w')
    (lane : Nat) : w'.laneState lane = w.laneState lane := by
  obtain ⟨hr, hl⟩ := resolveIteration_cases h
  rw [WarpState.laneState, WarpState.laneState, ownPc_resolve hp hr lane, hl.registers]

/-- Resolving the stack leaves every lane as it is. -/
theorem laneState_resolveStack (w : Warp) (hp : Partition w.toWarpState) :
    w.resolveStack.2.live = w.live
      ∧ ∀ lane, w.resolveStack.2.laneState lane = w.laneState lane := by
  obtain ⟨⟨-, hlive, hlane⟩, -⟩ := resolveStack_induction
    (P := fun r => Partition r.toWarpState ∧ r.live = w.live
      ∧ ∀ lane, r.laneState lane = w.laneState lane)
    (fun r r' hr h => ⟨partition_resolve hr.1 h, (resolveIteration_cases h).2.live.trans hr.2.1,
      fun lane => (laneState_resolve hr.1 h lane).trans (hr.2.2 lane)⟩)
    w ⟨hp, rfl, fun _ => rfl⟩
  exact ⟨hlive, hlane⟩

/-- Retiring active lanes takes their pcs away and leaves the other lanes as they are. -/
theorem ownPc_retire (gone : LaneMask) (hp : Partition w.toWarpState)
    (hg : ∀ lane, hasLane gone lane = true → hasLane w.active lane = true) (lane : Nat) :
    (w.retire gone).ownPc lane = if hasLane gone lane then none else w.ownPc lane := by
  have hp' : Partition (w.retire gone).toWarpState := partition_retire hp hg ⟨rfl, rfl, rfl⟩
  split_ifs with h
  · rw [← Option.not_isSome_iff_eq_none, ownPc_isSome hp']
    simp only [retire, hasLane_and_not, h]
    simp
  · have hact : hasLane (w.retire gone).active lane = hasLane w.active lane := by
      simp only [retire, hasLane_and_not, h]
      simp
    rw [WarpState.ownPc, WarpState.ownPc, hact, retire_stack hp hg]
    rfl

end OwnPc

section Settling

variable {program : List Instruction}

/-- What settling does to the lanes: some retire whose own pc is at or past the end, the others
stay as they are. -/
structure Settling (program : List Instruction) (w r : Warp) : Prop where
  keeps : ∀ lane, hasLane r.live lane = true →
    hasLane w.live lane = true ∧ r.laneState lane = w.laneState lane
  retires : ∀ lane, hasLane w.live lane = true → hasLane r.live lane = false →
    ∃ pc, w.ownPc lane = some pc ∧ program.length ≤ pc.toNat
  registers : r.registers = w.registers
  context : r.context = w.context

theorem Settling.trans {w w' r : Warp} (h : Settling program w w') (h' : Settling program w' r) :
    Settling program w r := by
  refine ⟨fun lane hl => ?_, fun lane hl hr => ?_, h'.registers.trans h.registers,
    h'.context.trans h.context⟩
  · obtain ⟨h1, h2⟩ := h'.keeps lane hl
    obtain ⟨h3, h4⟩ := h.keeps lane h1
    exact ⟨h3, h2.trans h4⟩
  · cases hm : hasLane w'.live lane
    · exact h.retires lane hl hm
    · obtain ⟨pc, hpc, hlen⟩ := h'.retires lane hm hr
      have hown := congrArg LaneState.pc (h.keeps lane hm).2
      exact ⟨pc, hown.symm.trans hpc, hlen⟩

theorem settling_resolve {w w' : Warp} (hp : Partition w.toWarpState)
    (h : w.resolveIteration = .inl w') : Settling program w w' := by
  have hsame := (resolveIteration_cases h).2
  refine ⟨fun lane hl => ⟨hsame.live ▸ hl, laneState_resolve hp h lane⟩, fun lane hl hr => ?_,
    hsame.registers, hsame.context⟩
  rw [hsame.live, hl] at hr
  cases hr

theorem settling_fall {w : Warp} (hp : Partition w.toWarpState)
    (hpc : program[w.pc.toNat]? = none) : Settling program w (w.retire w.active) := by
  have hown := ownPc_retire w.active hp fun _ h => h
  refine ⟨fun lane hl => ?_, fun lane hl hr => ⟨w.pc, ?_, List.getElem?_eq_none_iff.1 hpc⟩,
    rfl, rfl⟩
  · simp only [retire, hasLane_and_not, Bool.and_eq_true, Bool.not_eq_true'] at hl
    refine ⟨hl.1, ?_⟩
    rw [WarpState.laneState, WarpState.laneState, hown, hl.2]
    rfl
  · simp only [retire, hasLane_and_not, hl, Bool.true_and, Bool.not_eq_false'] at hr
    exact ownPc_active hr

variable (program) in
theorem settle_settling (w : Warp) (hp : Partition w.toWarpState) :
    match w.settle program with
    | .finished r => Settling program w r
    | .ready _ r => Settling program w r := by
  have h := settle_induction program
    (P := fun r => Partition r.toWarpState ∧ Settling program w r)
    (fun r r' hr h => ⟨partition_resolve hr.1 h, hr.2.trans (settling_resolve hr.1 h)⟩)
    (fun r hr _ hpc => ⟨partition_retire hr.1 (fun _ hl => hl) ⟨rfl, rfl, rfl⟩,
      hr.2.trans (settling_fall hr.1 hpc)⟩)
    w ⟨hp, fun _ hl => ⟨hl, rfl⟩, fun lane hl hr => absurd (hl.symm.trans hr) (by decide), rfl, rfl⟩
  rcases hs : w.settle program with r | ⟨i, r⟩ <;> rw [hs] at h <;> exact h.1.2

/-- Settling leaves a lane as it is, or retires it where its run was over already. -/
theorem settling_keeps_or_ended {w r : Warp} (h : Settling program w r)
    (hp : Partition w.toWarpState) (hpr : Partition r.toWarpState) (lane : Nat) :
    r.laneState lane = w.laneState lane
      ∨ ((w.laneState lane).ended program = true
        ∧ r.laneState lane = { w.laneState lane with pc := none }) := by
  cases hl : hasLane r.live lane
  · refine .inr ⟨?_, by rw [WarpState.laneState, ownPc_none hpr hl, h.registers]; rfl⟩
    cases hw : hasLane w.live lane
    · exact ended_of_dead hp hw
    · obtain ⟨pc, hpc, hlen⟩ := h.retires lane hw hl
      have hpc : (w.laneState lane).pc = some pc := hpc
      simp only [LaneState.ended, hpc, hlen, decide_true]
  · exact .inl (h.keeps lane hl).2

end Settling

section Registers

/-- What a register file holds of one lane, whose pc is given. -/
def fileLane (rf : RegisterFile) (pc : Option Pc) (lane : Nat) : LaneState :=
  ⟨pc, rf.general lane, rf.predicates lane⟩

theorem fileLane_write (rf : RegisterFile) (pc : Option Pc) (a lane : Nat) (reg : BitVec 8)
    (value : Word) : fileLane (rf.write a reg value) pc lane
      = if lane = a then (fileLane rf pc lane).write reg value else fileLane rf pc lane := by
  split_ifs with h <;> simp [fileLane, RegisterFile.write, LaneState.write, h]

theorem fileLane_writePred (rf : RegisterFile) (pc : Option Pc) (a lane : Nat) (pred : BitVec 8)
    (value : Bool) : fileLane (rf.writePred a pred value) pc lane
      = if lane = a then (fileLane rf pc lane).writePred pred value else fileLane rf pc lane := by
  split_ifs with h <;> simp [fileLane, RegisterFile.writePred, LaneState.writePred, h]

variable (F : FloatOps) (i : Instruction) (ctx : LaneContext)

theorem fileLane_executeAluLane (rf : RegisterFile) (pc : Option Pc) (a lane : Nat) :
    fileLane (executeAluLane F i ctx rf a) pc lane
      = if lane = a then (fileLane rf pc lane).executeAlu F i lane ctx
        else fileLane rf pc lane := by
  have hfetch : fetch i rf a = (fileLane rf pc a).operands i := rfl
  rw [executeAluLane, hfetch]
  by_cases hs : isSetp i.opcode = true
  · rw [if_pos hs, fileLane_writePred]
    by_cases hl : lane = a
    · rw [if_pos hl, if_pos hl, LaneState.executeAlu, if_pos hs, hl]
    · rw [if_neg hl, if_neg hl]
  · rw [if_neg hs, fileLane_write]
    by_cases hl : lane = a
    · rw [if_pos hl, if_pos hl, LaneState.executeAlu, if_neg hs, hl]
      rfl
    · rw [if_neg hl, if_neg hl]

/-- The arithmetic unit treats each executing lane by itself. -/
theorem fileLane_executeAlu (exec : LaneMask) (rf : RegisterFile) (pc : Option Pc) (lane : Nat) :
    fileLane (executeAlu F i exec rf ctx) pc lane
      = if hasLane exec lane then (fileLane rf pc lane).executeAlu F i lane ctx
        else fileLane rf pc lane := by
  have hfold : ∀ (l : List Nat) (rf : RegisterFile), l.Nodup →
      fileLane (l.foldl (fun rf lane =>
        if hasLane exec lane then executeAluLane F i ctx rf lane else rf) rf) pc lane
      = if lane ∈ l ∧ hasLane exec lane = true then (fileLane rf pc lane).executeAlu F i lane ctx
        else fileLane rf pc lane := by
    intro l
    induction l with
    | nil => simp
    | cons a l ih =>
      intro rf hnd
      obtain ⟨ha, hnd⟩ := List.nodup_cons.1 hnd
      rw [List.foldl_cons, ih _ hnd]
      by_cases hl : lane = a
      · subst hl
        rw [if_neg (fun h => ha h.1)]
        split_ifs with h1 h2 h2 <;> simp_all [fileLane_executeAluLane]
      · split_ifs with h1 h2 h2 h2 <;> simp_all [fileLane_executeAluLane]
  rw [executeAlu, hfold lanes rf List.nodup_range]
  by_cases h : hasLane exec lane = true
  · simp [h, hasLane_mem_lanes h]
  · simp [h]

end Registers

section Access

variable {σ : Type} {port : MemoryPort σ} {i : Instruction} {exec active : LaneMask}
  {addresses : Nat → Word} {pc : Pc} {step : Nat → LaneState → σ → Option (LaneState × σ)}

/-- The scalar steps of a memory instruction at `pc`. -/
def StepsAccess (port : MemoryPort σ) (i : Instruction) (pc : Pc)
    (step : Nat → LaneState → σ → Option (LaneState × σ)) : Prop :=
  ∀ lane s m, s.pc = some pc → step lane s m =
    if s.guardHolds i then
      match s.access port i lane m with
      | none => none
      | some (s, m) => some (s.moveTo (pc + 1), m)
    else some (s.moveTo (pc + 1), m)

/-- The first lane of the loop over the accesses takes its scalar step if it is active. -/
theorem accessLanes_head (hstep : StepsAccess port i pc step) {a : Nat} {l : List Nat}
    {w w' : Warp} {m m' : σ}
    (hexec : hasLane exec a
      = (hasLane active a && (fileLane w.registers (some pc) a).guardHolds i))
    (haddr : hasLane exec a = true → addresses a = (fileLane w.registers (some pc) a).address i)
    (h : accessLanes port i exec addresses (a :: l) w m = (.ok (), w', m')) :
    ∃ w₁ m₁, accessLanes port i exec addresses l w₁ m₁ = (.ok (), w', m')
      ∧ (∀ p lane, (lane = a → hasLane exec a = false) →
          fileLane w₁.registers p lane = fileLane w.registers p lane)
      ∧ (hasLane active a = true → step a (fileLane w.registers (some pc) a) m
          = some (fileLane w₁.registers (some (pc + 1)) a, m₁))
      ∧ (hasLane active a = false → m₁ = m) := by
  rw [accessLanes] at h
  cases hx : hasLane exec a
  · rw [hx] at h
    refine ⟨w, m, h, fun _ _ _ => rfl, fun ha => ?_, fun _ => rfl⟩
    rw [hx, ha, Bool.true_and] at hexec
    rw [hstep a _ m rfl, ← hexec]
    rfl
  · have hact : hasLane active a = true := by
      rw [hx] at hexec
      exact (Bool.and_eq_true_iff.1 hexec.symm).1
    rw [hx, hact, Bool.true_and] at hexec
    simp only [hx, Bool.not_true, Bool.false_eq_true, if_false, haddr hx] at h
    have hscalar := hstep a (fileLane w.registers (some pc) a) m rfl
    rw [← hexec, if_pos rfl, LaneState.access] at hscalar
    split_ifs at h with hst
    · rw [if_pos hst] at hscalar
      rcases hmem : port.store (accessSpace i.opcode) ((fileLane w.registers (some pc) a).address i)
        (w.registers.read a i.src1) a m with ⟨e | u, m₁⟩ <;> rw [hmem] at h
      · simp at h
      · refine ⟨w, m₁, h, fun _ _ _ => rfl, fun _ => ?_, fun hn => absurd hn (by simp [hact])⟩
        rw [hscalar]
        have hval : (fileLane w.registers (some pc) a).general i.src1
          = w.registers.read a i.src1 := rfl
        rw [hval, hmem]
        rfl
    · rw [if_neg hst] at hscalar
      rcases hmem : port.load (accessSpace i.opcode) ((fileLane w.registers (some pc) a).address i)
        a m with ⟨e | value, m₁⟩ <;> rw [hmem] at h hscalar
      · simp at h
      · refine ⟨{ w with registers := w.registers.write a i.dst value }, m₁, h,
          fun p lane hl => ?_, fun _ => ?_, fun hn => absurd hn (by simp [hact])⟩
        · have hne : lane ≠ a := fun he => by cases hl he
          rw [fileLane_write, if_neg hne]
        · rw [hscalar, fileLane_write, if_pos rfl]
          rfl

variable (active) in
/-- The loop over the accesses is the active lanes' scalar steps, in lane order. -/
theorem accessLanes_step (hstep : StepsAccess port i pc step) : ∀ (l : List Nat) (w w' : Warp)
    (m m' : σ) (s : Nat → LaneState), l.Nodup →
    (∀ lane ∈ l, hasLane exec lane
      = (hasLane active lane && (fileLane w.registers (some pc) lane).guardHolds i)) →
    (∀ lane ∈ l, hasLane exec lane = true →
      addresses lane = (fileLane w.registers (some pc) lane).address i) →
    (∀ lane ∈ l, hasLane active lane = true → s lane = fileLane w.registers (some pc) lane) →
    accessLanes port i exec addresses l w m = (.ok (), w', m') →
      (∀ p lane, (lane ∈ l → hasLane exec lane = false) →
        fileLane w'.registers p lane = fileLane w.registers p lane)
      ∧ stepLanes step active l s m = some (fun lane =>
          if lane ∈ l ∧ hasLane active lane = true then fileLane w'.registers (some (pc + 1)) lane
          else s lane, m')
  | [], w, w', m, m', s, _, _, _, _, h => by
    simp only [accessLanes, Prod.mk.injEq, true_and] at h
    obtain ⟨rfl, rfl⟩ := h
    exact ⟨fun _ _ _ => rfl, by simp [stepLanes]⟩
  | a :: l, w, w', m, m', s, hnd, hexec, haddr, hs, h => by
    obtain ⟨ha, hnd⟩ := List.nodup_cons.1 hnd
    obtain ⟨w₁, m₁, hrest, hkeep, hon, hoff⟩ := accessLanes_head hstep
      (hexec a List.mem_cons_self) (haddr a List.mem_cons_self) h
    have hne : ∀ lane ∈ l, lane ≠ a := by
      rintro lane hl rfl
      exact ha hl
    have hkeep' : ∀ lane ∈ l, fileLane w₁.registers (some pc) lane
        = fileLane w.registers (some pc) lane :=
      fun lane hl => hkeep _ _ fun he => absurd he (hne lane hl)
    have ih := fun s' hs' => accessLanes_step hstep l w₁ w' m₁ m' s' hnd
      (fun lane hl => by rw [hkeep' lane hl]; exact hexec lane (List.mem_cons_of_mem _ hl))
      (fun lane hl => by rw [hkeep' lane hl]; exact haddr lane (List.mem_cons_of_mem _ hl))
      hs' hrest
    refine ⟨fun p lane hl => ?_, ?_⟩
    · rw [(ih (fileLane w₁.registers (some pc)) fun _ _ _ => rfl).1 p lane
        (fun hin => hl (List.mem_cons_of_mem _ hin))]
      exact hkeep p lane fun he => he ▸ hl (he ▸ List.mem_cons_self)
    · rw [stepLanes]
      cases hact : hasLane active a
      · rw [if_neg Bool.false_ne_true, ← hoff hact, (ih s fun lane hl hla => by
          rw [hkeep' lane hl]
          exact hs lane (List.mem_cons_of_mem _ hl) hla).2]
        congr 2
        funext lane
        by_cases hl : lane = a
        · subst hl
          simp [hact]
        · simp [hl]
      · rw [if_pos rfl, hs a List.mem_cons_self hact, hon hact]
        obtain ⟨hfin, hsteps⟩ := ih (Function.update s a (fileLane w₁.registers (some (pc + 1)) a))
          fun lane hl hla => by
            rw [Function.update_of_ne (hne lane hl), hkeep' lane hl]
            exact hs lane (List.mem_cons_of_mem _ hl) hla
        simp only []
        rw [hsteps]
        congr 2
        funext lane
        by_cases hl : lane = a
        · subst hl
          rw [if_neg (fun h => ha h.1), if_pos ⟨List.mem_cons_self, hact⟩, Function.update_self,
            hfin _ lane fun hin => absurd hin ha]
        · simp [hl]

end Access

section Issue

variable {σ : Type} {F : FloatOps} {port : MemoryPort σ} {ctx : LaneContext}
  {program : List Instruction} {i : Instruction} {r w' : Warp} {m m' : σ}

theorem step_at {lane : Nat} {s : LaneState} {pc : Pc} (hs : s.pc = some pc)
    (hpc : program[pc.toNat]? = some i) (m : σ) : s.step F port ctx program lane m
      = if s.guardHolds i then s.execute F port ctx i pc lane m
        else some (s.moveTo (pc + 1), m) := by
  rw [LaneState.step, hs]
  simp only [hpc]

theorem execMask_guardHolds (w : Warp) (i : Instruction) (lane : Nat) :
    hasLane (w.execMask i) lane = (hasLane w.active lane && (w.laneState lane).guardHolds i) :=
  hasLane_execMask w i lane

/-- The lanes after the pc of a warp whose masks an instruction left alone moves on. -/
theorem laneState_advance {w₀ : Warp} (hpc : w₀.pc = r.pc) (hm : SameMasks r w₀) (lane : Nat) :
    w₀.advance.laneState lane = if hasLane r.active lane
      then fileLane w₀.registers (some (r.pc + 1)) lane
      else fileLane w₀.registers (r.ownPc lane) lane := by
  cases ha : hasLane r.active lane
  · have hown : w₀.advance.ownPc lane = r.ownPc lane := by
      rw [ownPc_deferred ha,
        ownPc_deferred (by rw [← ha]; exact congrArg (hasLane · lane) hm.active)]
      exact congrArg (fun st => (List.find? _ st).map _) hm.stack
    rw [WarpState.laneState, hown]
    rfl
  · have hown : w₀.advance.ownPc lane = some (r.pc + 1) := by
      rw [ownPc_active (by rw [← ha]; exact congrArg (hasLane · lane) hm.active), ← hpc]
      rfl
    rw [WarpState.laneState, hown]
    rfl

/-- A branch moves each active lane where its guard sends it. -/
theorem ownPc_branch {w₀ : Warp} (hpc : w₀.pc = r.pc) (hm : SameMasks r w₀)
    (lane : Nat) : (w₀.branch i (r.execMask i)).ownPc lane = if hasLane r.active lane
      then some (if (r.laneState lane).guardHolds i then i.branchTarget else r.pc + 1)
      else r.ownPc lane := by
  obtain ⟨hact, -, hst⟩ := hm
  have hexec := execMask_guardHolds r i lane
  -- A warp that keeps the masks has all its active lanes at its own pc.
  have hkeep : ∀ (w₁ : Warp), w₁.active = r.active → w₁.stack = r.stack →
      w₁.ownPc lane = if hasLane r.active lane then some w₁.pc else r.ownPc lane := by
    intro w₁ h1 h2
    cases ha : hasLane r.active lane
    · rw [ownPc_deferred (by rw [h1, ha]), h2, ← ownPc_deferred ha, if_neg Bool.false_ne_true]
    · rw [ownPc_active (by rw [h1, ha]), if_pos rfl]
  have hall : ∀ (w₁ : Warp), w₁.active = r.active → w₁.stack = r.stack →
      (hasLane r.active lane = true →
        w₁.pc = if (r.laneState lane).guardHolds i then i.branchTarget else r.pc + 1) →
      w₁.ownPc lane = if hasLane r.active lane
        then some (if (r.laneState lane).guardHolds i then i.branchTarget else r.pc + 1)
        else r.ownPc lane := by
    intro w₁ h1 h2 h3
    rw [hkeep w₁ h1 h2]
    split_ifs with ha
    · rw [h3 ha, if_pos ‹_›]
    · rw [h3 ha, if_neg ‹_›]
    · rfl
  unfold branch
  by_cases hg : i.guard.present = true
  · simp only [hg, Bool.not_true, Bool.false_eq_true, if_false]
    by_cases htaken : r.execMask i = 0
    · rw [if_pos htaken]
      refine hall _ hact hst fun ha => ?_
      rw [htaken, ha, Bool.true_and] at hexec
      rw [← hexec, if_neg (by simp), ← hpc]
      rfl
    · rw [if_neg htaken]
      by_cases hfall : w₀.active &&& ~~~r.execMask i = 0
      · rw [if_pos hfall]
        refine hall _ hact hst fun ha => ?_
        have h0 := congrArg (hasLane · lane) hfall
        simp only [hasLane_and_not, hact, ha, hexec, Bool.true_and] at h0
        rw [if_pos (by simpa using h0)]
      · rw [if_neg hfall]
        cases hx : hasLane (r.execMask i) lane
        · rw [ownPc_deferred hx, deferred_cons, hasLane_and_not, hact, hx, hst, hpc]
          cases ha : hasLane r.active lane
          · rw [ownPc_deferred ha]
            rfl
          · rw [hx, ha, Bool.true_and] at hexec
            rw [← hexec]
            rfl
        · rw [hx] at hexec
          obtain ⟨ha, hgd⟩ := Bool.and_eq_true_iff.1 hexec.symm
          rw [ownPc_active hx, ha, hgd]
          rfl
  · have hgd : (r.laneState lane).guardHolds i = true := by
      rw [LaneState.guardHolds, Bool.eq_false_iff.2 hg]
      rfl
    rw [if_pos (by simpa using hg)]
    exact hall _ hact hst fun _ => by rw [hgd, if_pos rfl]

/-- The memory once the port has been told of the access, as it is before the first lane. -/
def announce (port : MemoryPort σ) (i : Instruction) (w : Warp) (m : σ) : σ :=
  if Warp.isMemoryOpcode i.opcode && w.execMask i != 0 then
    port.onWarpAccess (accessSpace i.opcode) (isStore i.opcode)
      (w.accessAddresses i (w.execMask i)) (w.execMask i) m
  else m

theorem branch_lanes (hpc : program[r.pc.toNat]? = some i) (hop : i.opcode = .bra) {w₀ : Warp}
    (hw₀ : w₀.pc = r.pc) (hm : SameMasks r w₀) (hrf : w₀.registers = r.registers) (m : σ) :
    stepLanes (LaneState.step F port ctx program) r.active lanes r.laneState m
      = some ((w₀.branch i (r.execMask i)).laneState, m) := by
  refine stepLanes_lanes (f := fun _ s =>
    s.moveTo (if s.guardHolds i then i.branchTarget else r.pc + 1)) m (fun lane ha m => ?_)
    fun lane => ?_
  · rw [step_at (ownPc_active ha) hpc, LaneState.execute, hop]
    split_ifs <;> rfl
  · have hrf' : (w₀.branch i (r.execMask i)).registers = r.registers := by
      rw [← hrf]
      unfold branch
      simp only []
      split_ifs <;> rfl
    rw [WarpState.laneState, ownPc_branch hw₀ hm, hrf']
    split_ifs <;> rfl

theorem exit_lanes (hp : Partition r.toWarpState) (hpc : program[r.pc.toNat]? = some i)
    (hop : i.opcode = .exit) {w₀ : Warp} (hw₀ : w₀.pc = r.pc)
    (hm : SameMasks (r.retire (r.execMask i)) w₀) (hrf : w₀.registers = r.registers) (m : σ) :
    stepLanes (LaneState.step F port ctx program) r.active lanes r.laneState m
      = some (w₀.advance.laneState, m) := by
  refine stepLanes_lanes (f := fun _ s =>
    if s.guardHolds i then { s with pc := none } else s.moveTo (r.pc + 1)) m (fun lane ha m => ?_)
    fun lane => ?_
  · rw [step_at (ownPc_active ha) hpc, LaneState.execute, hop]
    split_ifs <;> rfl
  · have hexec := execMask_guardHolds r i lane
    have hown := ownPc_retire (r.execMask i) hp (fun _ => execMask_sub_active) lane
    have hlane := laneState_advance (r := r.retire (r.execMask i)) hw₀ hm lane
    rw [hlane, hown, hrf]
    simp only [retire, hasLane_and_not, hexec]
    cases hasLane r.active lane
    · rfl
    · cases (r.laneState lane).guardHolds i <;> rfl

theorem alu_lanes (hpc : program[r.pc.toNat]? = some i)
    (hop : isAluOpcode i.opcode = true) {w₀ : Warp} (hw₀ : w₀.pc = r.pc)
    (hm : SameMasks r w₀) (hrf : w₀.registers = executeAlu F i (r.execMask i) r.registers ctx)
    (m : σ) : stepLanes (LaneState.step F port ctx program) r.active lanes r.laneState m
      = some (w₀.advance.laneState, m) := by
  refine stepLanes_lanes (f := fun lane s =>
    if s.guardHolds i then (s.executeAlu F i lane ctx).moveTo (r.pc + 1)
    else s.moveTo (r.pc + 1)) m (fun lane ha m => ?_) fun lane => ?_
  · rw [step_at (ownPc_active ha) hpc, LaneState.execute_alu F port ctx hop]
    split_ifs <;> rfl
  · rw [laneState_advance hw₀ hm, hrf, fileLane_executeAlu, fileLane_executeAlu,
      execMask_guardHolds]
    have hmove : ∀ (s : LaneState) (pc : Pc), (s.moveTo pc).executeAlu F i lane ctx
        = (s.executeAlu F i lane ctx).moveTo pc := by
      intro s pc
      rw [LaneState.executeAlu, LaneState.executeAlu]
      split_ifs <;> rfl
    cases hasLane r.active lane
    · rfl
    · cases (r.laneState lane).guardHolds i
      · rfl
      · exact hmove (r.laneState lane) (r.pc + 1)

theorem access_lanes (hpc : program[r.pc.toNat]? = some i)
    (hop : Warp.isMemoryOpcode i.opcode = true) {w₀ w₁ : Warp} {m₁ : σ}
    (hw₀ : w₀.pc = r.pc) (hm : SameMasks r w₀) (hrf : w₀.registers = r.registers)
    (h : accessLanes port i (r.execMask i) (r.accessAddresses i (r.execMask i)) lanes w₀ m
      = (.ok (), w₁, m₁)) :
    stepLanes (LaneState.step F port ctx program) r.active lanes r.laneState m
      = some (w₁.advance.laneState, m₁) := by
  have hexec := execMask_guardHolds r i
  have hsteps : StepsAccess port i r.pc (LaneState.step F port ctx program) := by
    intro lane s m hs
    rw [step_at hs hpc]
    exact if_congr Iff.rfl (LaneState.execute_memory F port ctx hop r.pc lane s m) rfl
  obtain ⟨hframe, hst⟩ := accessLanes_step r.active hsteps lanes w₀ w₁ m m₁ r.laneState
    List.nodup_range (fun lane _ => by rw [hexec, hrf]; rfl)
    (fun lane _ hx => by
      rw [accessAddresses, if_pos hx, hrf]
      rfl)
    (fun lane _ ha => by rw [hrf, WarpState.laneState, ownPc_active ha]; rfl) h
  obtain ⟨rf, hw₁⟩ := accessLanes_warp port i (r.execMask i) (r.accessAddresses i (r.execMask i))
    lanes w₀ m
  rw [h] at hw₁
  simp only [] at hw₁
  rw [hst]
  congr 2
  funext lane
  rw [laneState_advance (r := r) (by rw [hw₁, ← hw₀])
    (by rw [hw₁]; exact ⟨hm.active, hm.live, hm.stack⟩)]
  cases ha : hasLane r.active lane
  · rw [if_neg (by simp), if_neg (by simp),
      hframe _ lane fun _ => by rw [hexec, ha, Bool.false_and], hrf]
    rfl
  · rw [if_pos ⟨hasLane_mem_lanes ha, rfl⟩, if_pos rfl]

theorem memoryAccess_lanes (hpc : program[r.pc.toNat]? = some i)
    (hop : Warp.isMemoryOpcode i.opcode = true)
    {w₀ : Warp} (hw₀ : w₀.pc = r.pc) (hm : SameMasks r w₀) (hrf : w₀.registers = r.registers)
    (h : (match memoryAccess port i (r.execMask i) w₀ m with
      | (.error f, w, m) => (.error f, w, m)
      | (.ok (), w, m) => (.ok .issued, w.advance, m) : Except Fault StepOutcome × Warp × σ)
        = (.ok .issued, w', m')) :
    stepLanes (LaneState.step F port ctx program) r.active lanes r.laneState
      (announce port i r m) = some (w'.laneState, m') := by
  rcases hacc : memoryAccess port i (r.execMask i) w₀ m with ⟨f | u, w₁, m₁⟩ <;> rw [hacc] at h
  · cases h
  · cases h
    have haddr : w₀.accessAddresses i (r.execMask i) = r.accessAddresses i (r.execMask i) := by
      funext lane
      rw [accessAddresses, accessAddresses, hrf]
    rw [memoryAccess, haddr] at hacc
    refine access_lanes hpc hop hw₀ hm hrf ?_
    rw [announce, hop, Bool.true_and, ← hacc]
    congr 1
    exact if_congr bne_iff_ne rfl rfl

/-- An issue is one scalar step of each active lane. -/
theorem issue_lanes (hp : Partition r.toWarpState) (hpc : program[r.pc.toNat]? = some i)
    (h : r.issue F port i m = (.ok .issued, w', m')) : i.opcode ≠ .barSync
      ∧ stepLanes (LaneState.step F port r.context program) r.active lanes r.laneState
        (announce port i r m) = some (w'.laneState, m') := by
  have hquiet : Warp.isMemoryOpcode i.opcode = false → announce port i r m = m := by
    intro hop
    rw [announce, hop]
    rfl
  unfold issue at h
  simp only [] at h
  split at h
  case h_1 hop =>
    obtain ⟨rfl, rfl⟩ : _ = w' ∧ m = m' := by simpa using h
    rw [hquiet (by rw [hop]; rfl)]
    exact ⟨by simp [hop], branch_lanes hpc hop (by rfl) (by exact ⟨rfl, rfl, rfl⟩) (by rfl) m⟩
  case h_2 hop =>
    obtain ⟨rfl, rfl⟩ : _ = w' ∧ m = m' := by simpa using h
    rw [hquiet (by rw [hop]; rfl)]
    exact ⟨by simp [hop], exit_lanes hp hpc hop (by rfl) (by exact ⟨rfl, rfl, rfl⟩) (by rfl) m⟩
  case h_3 hop => split_ifs at h <;> cases h
  case h_9 hbar _ _ _ _ _ =>
    obtain ⟨rfl, rfl⟩ : _ = w' ∧ m = m' := by simpa using h
    rw [hquiet (by unfold Warp.isMemoryOpcode; split <;> simp_all)]
    exact ⟨hbar, alu_lanes hpc (by unfold isAluOpcode; split <;> simp_all) (by rfl)
      (by exact ⟨rfl, rfl, rfl⟩) (by rfl) m⟩
  all_goals
    rename_i hop
    exact ⟨by simp [hop], memoryAccess_lanes hpc (by rw [hop]; rfl) (by rfl)
      (by exact ⟨rfl, rfl, rfl⟩) (by rfl) h⟩

end Issue

section Statement

variable {σ : Type} (F : FloatOps) (port : MemoryPort σ) (program : List Instruction)

/-- A reachable warp is a refinement of its lanes: resolving the stack changes none of them, and a
step that issues retires only lanes past the end, takes one scalar step of each lane of the
resolved active mask, in lane order over the memory, and leaves the other lanes alone. -/
theorem lane_refinement (warpId : Word) (live : LaneMask) (context : LaneContext) (w : Warp)
    (h : Relation.ReflTransGen (WarpStep F program) (new warpId live context) w) :
    (w.resolveStack.2.live = w.live ∧ ∀ lane, w.resolveStack.2.laneState lane = w.laneState lane)
    ∧ ∀ (m m' : σ) (w' : Warp), w.step F port program m = (.ok .issued, w', m') →
      ∃ i r, w.settle program = .ready i r ∧ program[r.pc.toNat]? = some i
        ∧ i.opcode ≠ .barSync
        ∧ (∀ lane, hasLane w.live lane = true → hasLane r.live lane = false →
            ∃ pc, w.ownPc lane = some pc ∧ program.length ≤ pc.toNat)
        ∧ (∀ lane, hasLane r.live lane = true →
            hasLane w.live lane = true ∧ r.laneState lane = w.laneState lane)
        ∧ stepLanes (LaneState.step F port w.context program) r.active lanes r.laneState
            (announce port i r m) = some (w'.laneState, m')
        ∧ (∀ lane, hasLane r.active lane = true → w.ownPc lane = some r.pc
            ∧ ∃ m₁ m₂, (w.laneState lane).step F port w.context program lane m₁
              = some (w'.laneState lane, m₂))
        ∧ (∀ lane, hasLane r.live lane = true → hasLane r.active lane = false →
            hasLane w'.live lane = true ∧ w'.laneState lane = w.laneState lane)
        ∧ ∀ lane, hasLane w'.live lane = (w'.ownPc lane).isSome := by
  have hp := partition_reachable ⟨warpId, live, context, h⟩
  refine ⟨laneState_resolveStack w hp, fun m m' w' hstep => ?_⟩
  rw [step] at hstep
  rcases hs : w.settle program with r | ⟨i, r⟩ <;> rw [hs] at hstep
  · cases hstep
  · have hissue : r.issue F port i m = (.ok .issued, w', m') := hstep
    have hmicro := settle_micro F program w
    rw [hs] at hmicro
    obtain ⟨hrun, -, hpc⟩ := hmicro
    have hpr := micro_invariant (fun _ _ => partition_micro) hrun hp
    have hset := settle_settling program w hp
    rw [hs] at hset
    obtain ⟨hbar, hlanes⟩ := issue_lanes hpr hpc hissue
    rw [hset.context] at hlanes
    have hpw' : Partition w'.toWarpState := by
      have := partition_effect hpr (issue_effect F port i r m)
      rwa [hissue] at this
    have hlive : ∀ lane, hasLane r.active lane = true → hasLane r.live lane = true := by
      intro lane ha
      rw [← ownPc_isSome hpr, ownPc_active ha]
      rfl
    refine ⟨i, r, rfl, hpc, hbar, hset.retires, hset.keeps, hlanes, fun lane ha => ?_,
      fun lane hl ha => ?_, fun lane => (ownPc_isSome hpw' lane).symm⟩
    · have hkeep := (hset.keeps lane (hlive lane ha)).2
      rw [← hkeep]
      obtain ⟨m₁, m₂, -, hone⟩ := stepLanes_each ha (fun _ => True) (fun _ _ _ _ _ _ _ => trivial)
        lanes _ _ _ _ List.nodup_range (hasLane_mem_lanes ha) trivial hlanes
      exact ⟨(congrArg LaneState.pc hkeep).symm.trans (ownPc_active ha), m₁, m₂, hone⟩
    · have hframe := stepLanes_frame lanes _ _ _ _ (fun _ => ha) hlanes
      refine ⟨?_, hframe.trans (hset.keeps lane hl).2⟩
      rw [← ownPc_isSome hpw', ← hl, ← ownPc_isSome hpr]
      exact congrArg (fun s => (LaneState.pc s).isSome) hframe

theorem divergedWarp_refinement :
    divergedWarp.resolveStack.2.laneState 20 = divergedWarp.laneState 20
    ∧ ∃ i r, divergedWarp.settle divergingProgram = .ready i r
      ∧ stepLanes (LaneState.step default nullMemory divergedWarp.context divergingProgram)
          r.active lanes r.laneState (announce nullMemory i r ())
        = some ((divergedWarp.step default nullMemory divergingProgram ()).2.1.laneState, ()) := by
  have h := lane_refinement default nullMemory divergingProgram 0 fullMask {} divergedWarp
    (steps_warpStep nullMemory 3 _ ())
  have hissued : (divergedWarp.step default nullMemory divergingProgram ()).1 = .ok .issued := by
    decide +kernel
  rcases hnext : divergedWarp.step default nullMemory divergingProgram () with ⟨o, w', u⟩
  rw [hnext] at hissued
  obtain rfl : o = .ok .issued := hissued
  obtain ⟨i, r, hs, -, -, -, -, hlanes, -⟩ := h.2 () u w' hnext
  exact ⟨h.1.2 20, i, r, hs, hlanes⟩

end Statement

end Warp

end WarpSim
