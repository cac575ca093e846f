import WarpSim.Lib.Interleave
import WarpSim.Proofs.Locality
import WarpSim.Proofs.Phases
import WarpSim.Proofs.Totals
import WarpSim.Sequential

/-!
# The schedule inside an interval does not matter

Turns of different warps that access no common word, or only load it, change places: each does to
the memory what it would have done before the other, and every counter adds up. So the turns of an
interval can be grouped by warp, and the scheduler that runs one warp at a time ends where round
robin does.
-/

namespace WarpSim

/-- One of two turns stores to a word that the other one accesses. -/
def Clash (accesses accesses' : List Access) : Prop :=
  ∃ a ∈ accesses, ∃ b ∈ accesses', a.Clobbers b ∨ b.Clobbers a

theorem Clash.symm {accesses accesses' : List Access} (h : Clash accesses accesses') :
    Clash accesses' accesses := by
  obtain ⟨a, ha, b, hb, h⟩ := h
  exact ⟨b, hb, a, ha, h.symm⟩

namespace Block

variable {F : FloatOps} {program : List Instruction}

section Turn

variable (F program) in
/-- The turn of a runnable warp that does not fault, with what it accesses. -/
def takeTurn (i : Nat) (b : Block) : Option (List Access × Block) :=
  match b.warps[i]? with
  | none => none
  | some warp =>
    if warp.runnable then
      match b.turn F program i warp with
      | (.error _, _) => none
      | (.ok _, b') => some (warp.accesses program, b')
    else none

/-- What a turn leaves. -/
def after (b : Block) (i : Nat) (outcome : StepOutcome) (w' : Warp) (m' : BlockMemory) : Block where
  warps := b.warps.set i w'
  memory := m'
  stats := if outcome ≠ .finished then b.stats.countIssue w' else b.stats

theorem turn_ok {b : Block} {i : Nat} {warp w' : Warp} {m' : BlockMemory} {outcome : StepOutcome}
    (h : warp.step F BlockMemory.port program b.memory = (.ok outcome, w', m')) :
    b.turn F program i warp = (.ok outcome, b.after i outcome w' m') := by
  rw [turn, h]
  rfl

theorem takeTurn_ok {b : Block} {i : Nat} {warp w' : Warp} {m' : BlockMemory}
    {outcome : StepOutcome} (hwarp : b.warps[i]? = some warp) (hrun : warp.runnable = true)
    (h : warp.step F BlockMemory.port program b.memory = (.ok outcome, w', m')) :
    b.takeTurn F program i = some (warp.accesses program, b.after i outcome w' m') := by
  rw [takeTurn, hwarp]
  simp only [hrun, if_true, turn_ok h]

theorem takeTurn_cases {b b' : Block} {i : Nat} {accesses : List Access}
    (h : b.takeTurn F program i = some (accesses, b')) :
    ∃ warp outcome w' m', b.warps[i]? = some warp ∧ warp.runnable = true
      ∧ warp.step F BlockMemory.port program b.memory = (.ok outcome, w', m')
      ∧ accesses = warp.accesses program ∧ b' = b.after i outcome w' m' := by
  unfold takeTurn at h
  split at h
  · cases h
  · rename_i warp hwarp
    split_ifs at h with hrun
    rcases hstep : warp.step F BlockMemory.port program b.memory with ⟨f | outcome, w', m'⟩
    · rw [turn, hstep] at h
      cases h
    · rw [turn_ok hstep] at h
      cases h
      exact ⟨warp, outcome, w', m', hwarp, hrun, hstep, rfl, rfl⟩

/-- Turns of different warps that do not clash change places. -/
theorem takeTurn_commutes : Commutes (takeTurn F program) Clash := by
  intro i j acc acc' b b₁ b₂ hij hi hj hclash
  obtain ⟨warp, o, w, m, hwarp, hrun, hstep, rfl, rfl⟩ := takeTurn_cases hi
  obtain ⟨warp', o', w', m', hwarp', hrun', hstep', rfl, rfl⟩ := takeTurn_cases hj
  obtain ⟨ws, d, rfl, hws, hlocal⟩ := Warp.step_local hstep
  obtain ⟨ws', d', rfl, hws', hlocal'⟩ := Warp.step_local hstep'
  have hother : b.warps[j]? = some warp' := by
    rw [after, List.getElem?_set_ne hij] at hwarp'
    exact hwarp'
  -- The first turn stores nothing that the second one loads or stores.
  have hfree : ∀ v ∈ ws, ∀ a ∈ warp'.accesses program,
      ¬BlockMemory.SameWord v.space a.space v.address a.address :=
    fun v hv a ha hsame => hclash ⟨_, (hws v hv).2, a, ha, .inl ⟨rfl, hsame⟩⟩
  have hfree' : ∀ v ∈ ws', ∀ a ∈ warp.accesses program,
      ¬BlockMemory.SameWord v.space a.space v.address a.address :=
    fun v hv a ha hsame => hclash ⟨a, ha, _, (hws' v hv).2, .inr ⟨rfl, hsame⟩⟩
  have hkeeps :
      ∀ {m : BlockMemory} {ws : List WordWrite} {d : MemoryStats} {accesses : List Access},
      (∀ v ∈ ws, v.address.toNat % 4 = 0) → (∀ v ∈ ws, ∀ a ∈ accesses,
        ¬BlockMemory.SameWord v.space a.space v.address a.address) →
      BlockMemory.SameShape m ((m.addStats d).writeAll ws) ∧ ∀ a ∈ accesses, ∀ lane,
        (((m.addStats d).writeAll ws).load a.space a.address lane).1
          = (m.load a.space a.address lane).1 := by
    intro m ws d accesses haligned hne
    have hshape : BlockMemory.SameShape m (m.addStats d) := ⟨rfl, rfl⟩
    refine ⟨BlockMemory.sameShape_writeAll hshape ws, fun a ha lane => ?_⟩
    rw [BlockMemory.load_writeAll _ _ _ _ fun v hv => ⟨haligned v hv, hne v hv a ha⟩,
      BlockMemory.load_addStats]
  obtain ⟨hshape, hloads⟩ := hkeeps (m := b.memory) (d := d) (fun v hv => (hws v hv).1) hfree
  obtain ⟨hshape', hloads'⟩ := hkeeps (m := b.memory) (d := d') (fun v hv => (hws' v hv).1) hfree'
  have hfirst := hlocal' b.memory ⟨hshape.1.symm, hshape.2.symm⟩
    fun a ha _ lane => (hloads a ha lane).symm
  have hsecond := hlocal _ hshape' fun a ha _ => hloads' a ha
  refine ⟨b.after j o' w' _, takeTurn_ok hother hrun' hfirst, ?_⟩
  have hwarp₁ : (b.after j o' w' ((b.memory.addStats d').writeAll ws')).warps[i]? = some warp := by
    rw [after, List.getElem?_set_ne (Ne.symm hij), hwarp]
  have hmemory : (((b.memory.addStats d').writeAll ws').addStats d).writeAll ws
      = (((b.memory.addStats d).writeAll ws).addStats d').writeAll ws' := by
    rw [BlockMemory.writeAll_addStats, BlockMemory.writeAll_addStats, BlockMemory.addStats_comm]
    exact BlockMemory.writeAll_comm _ (fun v hv => (hws' v hv).1) (fun v hv => (hws v hv).1)
      fun v hv v' hv' => hfree' v hv _ (hws v' hv').2
  rw [takeTurn_ok hwarp₁ hrun hsecond]
  unfold after
  simp only [hmemory, List.set_comm w w' hij]
  split_ifs <;> simp only [LaunchStats.countIssue_comm b.stats w w']

end Turn

section Interval

variable (F program) in
/-- A run of turns inside one interval. -/
abbrev Turns : Block → List (Nat × List Access) → Block → Prop :=
  Scheduled (takeTurn F program)

variable {b b' : Block} {t : List (Nat × List Access)}

theorem Turns.length (h : Turns F program b t b') :
    b'.warps.length = b.warps.length ∧ ∀ x ∈ t, x.1 < b.warps.length := by
  induction h with
  | nil => exact ⟨rfl, by simp⟩
  | cons h _ ih =>
    obtain ⟨warp, o, w', m', hwarp, -, -, -, rfl⟩ := takeTurn_cases h
    simp only [after, List.length_set] at ih
    exact ⟨ih.1, List.forall_mem_cons.2 ⟨(List.getElem?_eq_some_iff.1 hwarp).1, ih.2⟩⟩

/-- A warp that has no turn stays as it is. -/
theorem Turns.frame (h : Turns F program b t b') {i : Nat} (hi : ∀ x ∈ t, x.1 ≠ i) :
    b'.warps[i]? = b.warps[i]? := by
  induction h with
  | nil => rfl
  | cons h _ ih =>
    obtain ⟨warp, o, w', m', -, -, -, -, rfl⟩ := takeTurn_cases h
    rw [List.forall_mem_cons] at hi
    rw [ih hi.2, after, List.getElem?_set_ne hi.1]

/-- The warp with number `i` has nothing to run in this interval. -/
def Idle (i : Nat) (b : Block) : Prop := ∀ warp, b.warps[i]? = some warp → warp.runnable = false

theorem runAlone_idle {i : Nat} (hidle : Idle i b) (fuel : Nat) :
    b.runAlone F program i fuel = some (.ok b) := by
  unfold runAlone
  rcases hwarp : b.warps[i]? with _ | warp
  · rfl
  · simp only [hidle warp hwarp, Bool.not_false, if_true]

/-- The turns of one warp, until it is idle. -/
theorem Turns.runAlone (h : Turns F program b t b') {i : Nat} (hi : ∀ x ∈ t, x.1 = i)
    (hidle : Idle i b') {fuel : Nat} (hfuel : t.length ≤ fuel) :
    b.runAlone F program i fuel = some (.ok b') := by
  induction h generalizing fuel with
  | nil => exact runAlone_idle hidle fuel
  | @cons j _ b b₁ b' t h _ ih =>
    obtain ⟨warp, o, w', m', hwarp, hrun, hstep, -, rfl⟩ := takeTurn_cases h
    rw [List.forall_mem_cons] at hi
    obtain ⟨rfl, hi⟩ := hi
    obtain ⟨fuel, rfl⟩ : ∃ n, fuel = n + 1 :=
      ⟨fuel - 1, by simp only [List.length_cons] at hfuel; omega⟩
    have hrest := ih hi hidle (Nat.le_of_succ_le_succ hfuel)
    unfold Block.runAlone
    simp only [hwarp, hrun, Bool.not_true, Bool.false_eq_true, if_false, turn_ok hstep]
    exact hrest

theorem Turns.runInterval {c : Nat → Nat} : ∀ {order : List Nat} {b : Block}
    {t : List (Nat × List Access)}, order.Nodup → Turns F program b t b' →
      t.map Prod.fst = order.flatMap (fun i => List.replicate (c i) i) →
      (∀ i ∈ order, Idle i b') → ∀ {fuel}, t.length ≤ fuel →
        b.runInterval F program fuel order = some (.ok b')
  | [], b, t, _, h, ht, _, fuel, _ => by
    rw [List.flatMap_nil, List.map_eq_nil_iff] at ht
    subst ht
    cases h
    rfl
  | i :: order, b, t, hnodup, h, ht, hidle, fuel, hfuel => by
    rw [List.nodup_cons] at hnodup
    rw [List.forall_mem_cons] at hidle
    rw [List.flatMap_cons, List.map_eq_append_iff] at ht
    obtain ⟨t₁, t₂, rfl, ht₁, ht₂⟩ := ht
    obtain ⟨m, h₁, h₂⟩ := Scheduled.split h
    have hmine : ∀ x ∈ t₁, x.1 = i := by
      intro x hx
      have := List.mem_map_of_mem (f := Prod.fst) hx
      rw [ht₁] at this
      exact (List.mem_replicate.1 this).2
    have hothers : ∀ x ∈ t₂, x.1 ≠ i := by
      rintro x hx rfl
      have := List.mem_map_of_mem (f := Prod.fst) hx
      rw [ht₂, List.mem_flatMap] at this
      obtain ⟨j, hj, hx⟩ := this
      rw [(List.mem_replicate.1 hx).2] at hnodup
      exact hnodup.1 hj
    rw [List.length_append] at hfuel
    have halone :=
      Turns.runAlone h₁ hmine (fun w hw => hidle.1 w ((Turns.frame h₂ hothers).trans hw))
      (Nat.le_trans (Nat.le_add_right _ _) hfuel)
    rw [Block.runInterval, halone]
    exact Turns.runInterval hnodup.2 h₂ ht₂ hidle.2 (by omega)

/-- The turns of an interval that do not clash, one warp at a time. -/
theorem Turns.sequential (h : Turns F program b t b') (hapart : t.Pairwise (Apart Clash))
    {order : List Nat} (horder : order.Perm (List.range b.warps.length))
    (hidle : ∀ i, Idle i b') {fuel : Nat} (hfuel : t.length ≤ fuel) :
    b.runInterval F program fuel order = some (.ok b') := by
  have hnodup : order.Nodup := horder.nodup_iff.2 List.nodup_range
  have hgroup : (t.map Prod.fst).Perm (grouped order (t.map Prod.fst)) := by
    refine perm_grouped hnodup fun i hi => ?_
    obtain ⟨x, hx, rfl⟩ := List.mem_map.1 hi
    exact horder.mem_iff.2 (List.mem_range.2 ((Turns.length h).2 x hx))
  obtain ⟨t', ht', hperm, h'⟩ := Scheduled.perm takeTurn_commutes (fun _ _ => Clash.symm) hgroup h
    rfl hapart
  exact Turns.runInterval hnodup h' ht' (fun i _ => hidle i) (by rw [hperm.length_eq]; exact hfuel)

end Interval

end Block

namespace Scheduler

variable {F : FloatOps} {program : List Instruction}

section Races

/-- The turns among some events. -/
def turnsOf (log : List Event) : List (Nat × List Access) :=
  log.filterMap fun
    | .stepped warp _ accesses => some (warp, accesses)
    | _ => none

theorem RaceFree.suffix (before : List Event) {log : List Event} (h : RaceFree (before ++ log)) :
    RaceFree log := by
  intro before' interval after hlog hnone
  refine h (before ++ before') interval after ?_ hnone
  rw [hlog, List.append_assoc, List.append_assoc, List.append_assoc]

theorem RaceFree.apart {interval after : List Event} (h : RaceFree (interval ++ after))
    (hnone : .released ∉ interval) : (turnsOf interval).Pairwise (Apart Clash) := by
  have hmem : ∀ x ∈ turnsOf interval, ∃ outcome, .stepped x.1 outcome x.2 ∈ interval := by
    intro x hx
    obtain ⟨event, hevent, hsome⟩ := List.mem_filterMap.1 hx
    split at hsome
    · cases hsome
      exact ⟨_, hevent⟩
    · cases hsome
  refine List.pairwise_of_forall_mem_list fun x hx y hy hne => ?_
  obtain ⟨o, hx⟩ := hmem x hx
  obtain ⟨o', hy⟩ := hmem y hy
  rintro ⟨a, ha, c, hc, hclobber | hclobber⟩
  · exact h [] interval after rfl hnone _ _ _ hx _ _ _ hy hne a ha c hc hclobber
  · exact h [] interval after rfl hnone _ _ _ hy _ _ _ hx (Ne.symm hne) c hc a ha hclobber

end Races

section Statement

theorem idle_of_finished {b : Block} (h : b.anyUnfinished = false) (i : Nat) : b.Idle i := by
  intro w hw
  rw [Block.anyUnfinished, List.any_eq_false] at h
  have := h w (List.mem_of_getElem? hw)
  simp only [Bool.not_eq_true', Bool.not_eq_false] at this
  simp [WarpState.runnable, this]

theorem idle_of_parked {b : Block} (h : b.allParked = true) (i : Nat) : b.Idle i := by
  intro w hw
  have := List.all_eq_true.1 h w (List.mem_of_getElem? hw)
  rcases Bool.or_eq_true_iff.1 this with h | h <;> simp [WarpState.runnable, h]

/-- From the beginning of an interval that round robin is in the middle of, the sequential
scheduler comes to where round robin does. -/
theorem sequential_of_run {s s' : Scheduler} {log : List Event} {b : Block}
    (hrun : Run F program s log s') (hret : s'.advance F program = .returned (.ok ()) b) :
    ∀ (before : List Event) (b₀ : Block) (orders : Nat → List Nat),
      Block.Turns F program b₀ (turnsOf before) s.toBlock → .released ∉ before →
      RaceFree (before ++ log) → (∀ k, (orders k).Perm (List.range b₀.warps.length)) →
      ∃ n, ∀ fuel ≥ n, ∀ intervals ≥ n,
        b₀.runSequential F program fuel intervals orders = some (.ok b) := by
  induction hrun with
  | nil s =>
    intro before b₀ orders hturns hnone hfree horders
    obtain ⟨hfin, rfl⟩ := advance_ok hret
    refine ⟨(turnsOf before).length + 1, fun fuel hfuel intervals hintervals => ?_⟩
    obtain ⟨k, rfl⟩ : ∃ k, intervals = k + 1 := ⟨intervals - 1, by omega⟩
    have hinterval := Block.Turns.sequential hturns (RaceFree.apart hfree hnone) (horders 0)
      (idle_of_finished hfin) (show (turnsOf before).length ≤ fuel by omega)
    rw [Block.runSequential, hinterval]
    simp only [hfin, Bool.not_false, if_true]
  | @cons s s₁ s' event log hadv _ ih =>
    intro before b₀ orders hturns hnone hfree horders
    have hquiet : s₁.toBlock = s.toBlock → turnsOf [event] = [] → event ≠ .released →
        ∃ n, ∀ fuel ≥ n, ∀ intervals ≥ n,
          b₀.runSequential F program fuel intervals orders = some (.ok b) := by
      intro hblock hevent hne
      have hsame : turnsOf (before ++ [event]) = turnsOf before := by
        rw [turnsOf, List.filterMap_append]
        exact (congrArg (turnsOf before ++ ·) hevent).trans (List.append_nil _)
      refine ih hret (before ++ [event]) b₀ orders ?_ ?_ ?_ horders
      · rw [hsame, hblock]
        exact hturns
      · simp [hnone, Ne.symm hne]
      · rw [← List.append_cons]
        exact hfree
    cases advance_cases hadv with
    | skip => exact hquiet rfl rfl (by simp)
    | pass => exact hquiet rfl rfl (by simp)
    | step warp w' outcome m' hwarp hready hstep =>
      refine ih hret (before ++ [.stepped s.next outcome (warp.accesses program)]) b₀ orders ?_
        (by simp [hnone]) ?_ horders
      · rw [turnsOf, List.filterMap_append]
        exact Scheduled.append hturns
          (.cons (Block.takeTurn_ok hwarp hready hstep) (.nil _))
      · rw [← List.append_cons]
        exact hfree
    | release hend hunfinished hparked =>
      have hlen : s.release.warps.length = b₀.warps.length := by
        rw [Block.release, List.length_map]
        exact (Block.Turns.length hturns).1
      obtain ⟨n, hn⟩ := ih hret [] s.release (fun k => orders (k + 1))
        (.nil _) (by simp) (RaceFree.suffix (before ++ [.released])
          (by rw [← List.append_cons]; exact hfree))
        fun k => by rw [hlen]; exact horders (k + 1)
      refine ⟨(turnsOf before).length + n + 1, fun fuel hfuel intervals hintervals => ?_⟩
      obtain ⟨k, rfl⟩ : ∃ k, intervals = k + 1 := ⟨intervals - 1, by omega⟩
      have hinterval := Block.Turns.sequential hturns (RaceFree.apart hfree hnone) (horders 0)
        (idle_of_parked hparked) (show (turnsOf before).length ≤ fuel by omega)
      rw [Block.runSequential, hinterval]
      simp only [hunfinished, Bool.not_true, Bool.false_eq_true, if_false]
      exact hn fuel (by omega) k (by omega)

/-- If round robin runs a block to its end without a fault, and between two completions of the
barrier no warp stores to a word that another one accesses, then running each interval one warp at
a time, in any orders, ends without a fault in the same block: the same global and shared memory,
the same warps with their registers and predicates, and the same counters. -/
theorem schedule_independence (memory : BlockMemory) (base : LaneContext) (lanesInBlock : Word)
    (stats : LaunchStats) {log : List Event} {s : Scheduler} {b : Block}
    (hrun : Run F program (Block.start memory base lanesInBlock stats).newPass log s)
    (hret : s.advance F program = .returned (.ok ()) b) (hfree : RaceFree log)
    (orders : Nat → List Nat) (horders : ∀ k, (orders k).Perm
      (List.range (Block.start memory base lanesInBlock stats).warps.length)) :
    ∃ n, ∀ fuel ≥ n, ∀ intervals ≥ n,
      (Block.start memory base lanesInBlock stats).runSequential F program fuel intervals orders
        = some (.ok b) :=
  sequential_of_run hrun hret [] _ orders (.nil _) (by simp) hfree horders

theorem raceFree_of_turns {log : List Event} (h : ∀ x ∈ turnsOf log, ∀ y ∈ turnsOf log, x.1 ≠ y.1 →
    ∀ a ∈ x.2, ∀ c ∈ y.2, ¬a.Clobbers c) : RaceFree log := by
  rintro before interval after rfl - i o accesses hi j o' accesses' hj
  have hmem : ∀ {i o accesses}, .stepped i o accesses ∈ interval →
      (i, accesses) ∈ turnsOf (before ++ interval ++ after) := by
    intro i o accesses hi
    exact List.mem_filterMap.2 ⟨.stepped i o accesses, by simp [hi], rfl⟩
  exact h _ (hmem hi) _ (hmem hj)

/-- Each lane stores its index to its own word of shared memory, and loads it after a barrier. -/
def tileProgram : List Instruction :=
  [{ opcode := .movSreg }, { opcode := .shl, dst := 1, immFlag := true, imm := 2 },
    { opcode := .stShared, src0 := 1, src1 := 0 }, { opcode := .barSync },
    { opcode := .ldShared, dst := 2, src0 := 1 }, { opcode := .exit }]

def tileMemory : BlockMemory := ⟨⟨[]⟩, .zeroed 160, [], {}⟩

def tileContext : LaneContext := { ntid := ⟨40, 1⟩ }

def tileRun : List Event × Scheduler :=
  (Block.start tileMemory tileContext 40 {}).newPass.runFor default tileProgram 21

/-- A block of 40 lanes, with the second warp first. -/
theorem tile_sequential : ∃ n b, ∀ fuel ≥ n, ∀ intervals ≥ n,
    (Block.start tileMemory tileContext 40 {}).runSequential default tileProgram fuel intervals
      (fun _ => [1, 0]) = some (.ok b) := by
  have hok : (tileRun.2.advance default tileProgram).rec (fun _ _ => false) (fun r _ => r.isOk)
      = true := by decide +kernel
  obtain ⟨b, hb⟩ : ∃ b, tileRun.2.advance default tileProgram = .returned (.ok ()) b := by
    rcases h : tileRun.2.advance default tileProgram with _ | ⟨_ | _, b⟩ <;> rw [h] at hok
    · cases hok
    · cases hok
    · exact ⟨b, rfl⟩
  obtain ⟨n, hn⟩ := schedule_independence tileMemory tileContext 40 {}
    (run_runFor default tileProgram 21 (Block.start tileMemory tileContext 40 {}).newPass) hb
    (raceFree_of_turns (by decide +kernel)) (fun _ => [1, 0])
    (fun _ => by decide +kernel)
  exact ⟨n, b, hn⟩

end Statement

end Scheduler

end WarpSim
