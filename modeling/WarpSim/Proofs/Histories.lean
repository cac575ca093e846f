import Mathlib.Data.Finset.Card
import WarpSim.Proofs.ScalarRuns

/-!
# What reconvergence saves

Every issue is one step of each lane it moves, so a warp issues at least as often as its longest
lane steps. And two lanes are apart in the masks only if their histories differ, so no PC is issued
twice for one history: the issues are at most the PCs executed under distinct histories. Without
reconvergence PCs lanes never meet again, and the two numbers agree.
-/

namespace WarpSim

open Warp

/-- The PCs a lane executed, each with the guard's outcome where it was a guarded branch. -/
abbrev History := List (Pc × Option Bool)

namespace LaneState

/-- What a lane at `pc` adds to its history. -/
def outcome (program : List Instruction) (pc : Pc) (s : LaneState) : Option Bool :=
  match program[pc.toNat]? with
  | none => none
  | some i => if i.opcode = .bra ∧ i.guard.present = true then some (s.guardHolds i) else none

/-- The PCs of the lane's first `n` steps, each with the history before it. -/
def trace {σ : Type} (F : FloatOps) (port : MemoryPort σ) (ctx : LaneContext)
    (program : List Instruction) (lane : Nat) : Nat → History → LaneState → σ → List (Pc × History)
  | 0, _, _, _ => []
  | n + 1, h, s, m =>
    match s.pc with
    | none => []
    | some pc =>
      match s.step F port ctx program lane m with
      | none => []
      | some (t, m) =>
        (pc, h) :: trace F port ctx program lane n (h ++ [(pc, s.outcome program pc)]) t m

section Trace

variable {σ : Type} {F : FloatOps} {port : MemoryPort σ} {ctx : LaneContext}
  {program : List Instruction} {lane : Nat}

theorem trace_ended {s : LaneState} (hs : s.ended program = true) (n : Nat) (h : History) (m : σ) :
    trace F port ctx program lane n h s m = [] := by
  cases n with
  | zero => rfl
  | succ n =>
    rw [trace, step_ended hs]
    split <;> rfl

theorem trace_step {s t : LaneState} {pc : Pc} {m m' : σ} (hpc : s.pc = some pc)
    (hs : s.step F port ctx program lane m = some (t, m')) (n : Nat) (h : History) :
    trace F port ctx program lane (n + 1) h s m
      = (pc, h) :: trace F port ctx program lane n (h ++ [(pc, s.outcome program pc)]) t m' := by
  simp only [trace, hpc, hs]

/-- Histories only grow along a run. -/
theorem prefix_of_mem_trace : ∀ {n : Nat} {h : History} {s : LaneState} {m : σ} {p : Pc × History},
    p ∈ trace F port ctx program lane n h s m → h <+: p.2
  | n + 1, h, s, m, p, hp => by
    rw [trace] at hp
    split at hp
    · cases hp
    · split at hp
      · cases hp
      · rcases List.mem_cons.1 hp with rfl | hp
        · exact List.prefix_rfl
        · exact (List.prefix_append _ _).trans (prefix_of_mem_trace hp)

end Trace

end LaneState

/-- How many of the first `n` steps issue an instruction. -/
def issues {σ : Type} (F : FloatOps) (port : MemoryPort σ) (program : List Instruction) :
    Nat → Warp → σ → Nat
  | 0, _, _ => 0
  | n + 1, w, m =>
    (match (w.step F port program m).1 with
      | .ok .issued | .ok .barrier => 1
      | _ => 0)
    + issues F port program n (w.step F port program m).2.1 (w.step F port program m).2.2

section Together

/-- Two lanes are in the same masks. -/
def Together (s : WarpState) (l l' : Nat) : Prop :=
  hasLane s.active l = hasLane s.active l' ∧ ∀ e ∈ s.stack, hasLane e.mask l = hasLane e.mask l'

variable {F : FloatOps} {program : List Instruction} {w w' r : Warp} {i : Instruction} {l l' : Nat}

theorem together_resolve (ht : Together w.toWarpState l l') (h : w.resolveIteration = .inl w') :
    Together w'.toWarpState l l' := by
  obtain ⟨hactive, hstack⟩ := ht
  cases (resolveIteration_cases h).1 with
  | resume e _ hs ha _ =>
    rw [hs] at hstack
    exact ⟨by rw [ha]; exact hstack e List.mem_cons_self,
      fun e' he' => hstack e' (List.mem_cons_of_mem _ he')⟩
  | arrive e rest _ hs _ _ hs' ha _ =>
    rw [hs] at hstack
    refine ⟨by rw [ha]; exact hstack e List.mem_cons_self, fun e' he' => ?_⟩
    rw [hs'] at he'
    rcases List.mem_cons.1 he' with rfl | he'
    · exact hactive
    · exact hstack e' (List.mem_cons_of_mem _ he')
  | join e _ hs _ _ ha _ =>
    rw [hs] at hstack
    refine ⟨?_, fun e' he' => hstack e' (List.mem_cons_of_mem _ he')⟩
    rw [ha, hasLane_or, hasLane_or, hactive, hstack e List.mem_cons_self]

theorem together_retire (ht : Together w.toWarpState l l') {gone : LaneMask}
    (hg : hasLane gone l = hasLane gone l') : Together (w.retire gone).toWarpState l l' := by
  refine ⟨?_, fun e he => ?_⟩
  · simp only [retire, hasLane_and_not, ht.1, hg]
  · obtain ⟨e', he', rfl⟩ := List.mem_map.1 he
    simp only [hasLane_and_not, ht.2 e' he', hg]

variable (program) in
theorem together_settle (ht : Together w.toWarpState l l') :
    match w.settle program with
    | .finished r => Together r.toWarpState l l'
    | .ready _ r => Together r.toWarpState l l' := by
  have h := settle_induction program (P := fun r => Together r.toWarpState l l')
    (fun _ _ ht h => together_resolve ht h) (fun _ ht _ _ => together_retire ht ht.1) w ht
  rcases hs : w.settle program with r | ⟨i, r⟩ <;> rw [hs] at h <;> exact h.1

/-- Lanes that stay live part only at a branch, and with different outcomes. -/
theorem together_effect (h : Effect i r w') (ht : Together r.toWarpState l l')
    (hl : hasLane w'.live l = true) (hl' : hasLane w'.live l' = true)
    (hout : hasLane r.active l = true → i.opcode = .bra → i.guard.present = true →
      (r.laneState l).guardHolds i = (r.laneState l').guardHolds i) :
    Together w'.toWarpState l l' := by
  cases h with
  | stay _ hm => exact ⟨by rw [hm.active, ht.1], fun e he => ht.2 e (hm.stack ▸ he)⟩
  | move _ hm => exact ⟨by rw [hm.active, ht.1], fun e he => ht.2 e (hm.stack ▸ he)⟩
  | split hbra hguard _ hactive _ hstack =>
    have hexec : hasLane (r.execMask i) l = hasLane (r.execMask i) l' := by
      rw [execMask_guardHolds, execMask_guardHolds, ← ht.1]
      cases ha : hasLane r.active l
      · rfl
      · rw [hout ha hbra hguard]
    refine ⟨by rw [hactive, hexec], fun e he => ?_⟩
    rw [hstack] at he
    rcases List.mem_cons.1 he with rfl | he
    · rw [hasLane_and_not, hasLane_and_not, ht.1, hexec]
    · exact ht.2 e he
  | exit _ _ hm =>
    rw [hm.live, retire] at hl hl'
    have hgone : hasLane (r.execMask i) l = hasLane (r.execMask i) l' := by
      simp only [hasLane_and_not, Bool.and_eq_true, Bool.not_eq_true'] at hl hl'
      rw [hl.2, hl'.2]
    have hr := together_retire ht hgone
    exact ⟨by rw [hm.active]; exact hr.1, fun e he => hr.2 e (hm.stack ▸ he)⟩

end Together

section Histories

variable {F : FloatOps} {program : List Instruction} {w w' r : Warp} {i : Instruction}
  {H : Nat → History}

/-- The histories after an issue of the active lanes. -/
def extendHistories (program : List Instruction) (r : Warp) (H : Nat → History) (lane : Nat) :
    History :=
  if hasLane r.active lane then H lane ++ [(r.pc, (r.laneState lane).outcome program r.pc)]
  else H lane

theorem outcome_at (hi : program[r.pc.toNat]? = some i) (lane : Nat) :
    (r.laneState lane).outcome program r.pc = if i.opcode = .bra ∧ i.guard.present = true
      then some ((r.laneState lane).guardHolds i) else none := by
  simp only [LaneState.outcome, hi]

/-- Live lanes have the same history or have parted, and lanes of the same history are together. -/
def Parted (H : Nat → History) (s : WarpState) : Prop :=
  ∀ l l', hasLane s.live l = true → hasLane s.live l' = true → H l <+: H l' →
    H l = H l' ∧ Together s l l'

variable (program) in
theorem parted_settle (hp : Partition w.toWarpState) (h : Parted H w.toWarpState) :
    match w.settle program with
    | .finished r => Parted H r.toWarpState
    | .ready _ r => Parted H r.toWarpState := by
  have hset := settle_settling program w hp
  have htog := fun l l' (ht : Together w.toWarpState l l') => together_settle program ht
  rcases hs : w.settle program with r | ⟨i, r⟩ <;> simp only [hs] at hset htog ⊢ <;>
    intro l l' hl hl' hpre <;>
    exact ⟨(h l l' (hset.keeps l hl).1 (hset.keeps l' hl').1 hpre).1,
      htog l l' (h l l' (hset.keeps l hl).1 (hset.keeps l' hl').1 hpre).2⟩

theorem live_of_effect (h : Effect i r w') {lane : Nat} (hl : hasLane w'.live lane = true) :
    hasLane r.live lane = true := by
  cases h with
  | stay _ hm => rwa [hm.live] at hl
  | move _ hm => rwa [hm.live] at hl
  | split _ _ _ _ hlive => rwa [hlive] at hl
  | exit _ _ hm =>
    rw [hm.live, retire] at hl
    simp only [hasLane_and_not, Bool.and_eq_true] at hl
    exact hl.1

theorem parted_effect (hi : program[r.pc.toNat]? = some i) (h : Parted H r.toWarpState)
    (heffect : Effect i r w') : Parted (extendHistories program r H) w'.toWarpState := by
  intro l l' hl hl' hpre
  have hrl := live_of_effect heffect hl
  have hrl' := live_of_effect heffect hl'
  -- A lane that has not moved is not behind or level with one that has.
  have hmixed : ∀ a b, hasLane r.live a = true → hasLane r.live b = true → H a <+: H b →
      hasLane r.active a = hasLane r.active b := fun a b ha hb hab => (h a b ha hb hab).2.1
  unfold extendHistories at hpre ⊢
  cases ha : hasLane r.active l <;> cases ha' : hasLane r.active l' <;>
    simp only [ha, ha', if_true, Bool.false_eq_true, if_false] at hpre ⊢
  · obtain ⟨heq, ht⟩ := h l l' hrl hrl' hpre
    exact ⟨heq, together_effect heffect ht hl hl' fun hc => absurd (ha.symm.trans hc) (by decide)⟩
  · rcases List.prefix_concat_iff.1 hpre with heq | hlt
    · have := hmixed l' l hrl' hrl ⟨_, heq.symm⟩
      rw [ha, ha'] at this
      cases this
    · have := hmixed l l' hrl hrl' hlt
      rw [ha, ha'] at this
      cases this
  · have := hmixed l l' hrl hrl' ((List.prefix_append _ _).trans hpre)
    rw [ha, ha'] at this
    cases this
  · have hle : H l <+: H l' := by
      rcases List.prefix_concat_iff.1 hpre with heq | hlt
      · exact (List.append_inj' heq rfl).1 ▸ List.prefix_rfl
      · exact (List.prefix_append _ _).trans hlt
    obtain ⟨heq, ht⟩ := h l l' hrl hrl' hle
    have hout : (r.laneState l).outcome program r.pc = (r.laneState l').outcome program r.pc := by
      rcases List.prefix_concat_iff.1 hpre with hsame | hlt
      · have hlast := (List.append_inj' hsame rfl).2
        simpa using hlast
      · have := hlt.length_le
        rw [heq, List.length_append, List.length_singleton] at this
        omega
    refine ⟨by rw [heq, hout], together_effect heffect ht hl hl' fun _ hbra hguard => ?_⟩
    rw [outcome_at hi, outcome_at hi, if_pos ⟨hbra, hguard⟩, if_pos ⟨hbra, hguard⟩] at hout
    exact Option.some.inj hout

/-- Lanes that are in one mask have the same history, unless they are past the end; and no lanes
meet again anywhere else. -/
structure Alike (H : Nat → History) (s : WarpState) : Prop where
  current : s.pc ≠ noReconvergence → ∀ l l', hasLane s.active l = true →
    hasLane s.active l' = true → H l = H l'
  deferred : ∀ e ∈ s.stack, e.reconvergencePc = noReconvergence ∧ (e.resumePc ≠ noReconvergence →
    ∀ l l', hasLane e.mask l = true → hasLane e.mask l' = true → H l = H l')

theorem alike_resolve (h : Alike H w.toWarpState) (hit : w.resolveIteration = .inl w') :
    Alike H w'.toWarpState := by
  obtain ⟨hcurrent, hdeferred⟩ := h
  cases (resolveIteration_cases hit).1 with
  | resume e _ hs ha hpc =>
    rw [hs] at hdeferred
    refine ⟨fun hne => ?_, fun e' he' => hdeferred e' (List.mem_cons_of_mem _ he')⟩
    rw [hpc] at hne
    rw [ha]
    exact (hdeferred e List.mem_cons_self).2 hne
  | arrive e rest _ hs _ _ hs' ha hpc =>
    rw [hs] at hdeferred
    refine ⟨fun hne => ?_, fun e' he' => ?_⟩
    · rw [hpc] at hne
      rw [ha]
      exact (hdeferred e List.mem_cons_self).2 hne
    · rw [hs'] at he'
      rcases List.mem_cons.1 he' with rfl | he'
      · have hnone := (hdeferred e List.mem_cons_self).1
        exact ⟨hnone, fun hne => absurd hnone hne⟩
      · exact hdeferred e' (List.mem_cons_of_mem _ he')
  | join e _ hs hat _ _ hpc =>
    rw [hs] at hdeferred
    refine ⟨fun hne => absurd ?_ hne, fun e' he' => hdeferred e' (List.mem_cons_of_mem _ he')⟩
    rw [hpc, ← hat]
    exact (hdeferred e List.mem_cons_self).1

theorem alike_retire (h : Alike H w.toWarpState) (gone : LaneMask) :
    Alike H (w.retire gone).toWarpState := by
  have hsub : ∀ (m : LaneMask) l, hasLane (m &&& ~~~gone) l = true → hasLane m l = true := by
    intro m l hl
    rw [hasLane_and_not, Bool.and_eq_true] at hl
    exact hl.1
  refine ⟨fun hne l l' hl hl' => h.current hne l l' (hsub _ _ hl) (hsub _ _ hl'), fun e he => ?_⟩
  obtain ⟨e', he', rfl⟩ := List.mem_map.1 he
  obtain ⟨h1, h2⟩ := h.deferred e' he'
  exact ⟨h1, fun hne l l' hl hl' => h2 hne l l' (hsub _ _ hl) (hsub _ _ hl')⟩

variable (program) in
theorem alike_settle (h : Alike H w.toWarpState) :
    match w.settle program with
    | .finished r => Alike H r.toWarpState
    | .ready _ r => Alike H r.toWarpState := by
  have h := settle_induction program (P := fun r => Alike H r.toWarpState)
    (fun _ _ h hit => alike_resolve h hit) (fun r h _ _ => alike_retire h r.active) w h
  rcases hs : w.settle program with r | ⟨i, r⟩ <;> rw [hs] at h <;> exact h.1

/-- A guarded branch that leaves the active lanes together has the same outcome for all. -/
theorem branch_uniform {σ : Type} {port : MemoryPort σ} {m : σ} (hop : i.opcode = .bra)
    (hguard : i.guard.present = true) (h : (r.issue F port i m).2.1.active = r.active) {l l' : Nat}
    (hl : hasLane r.active l = true) (hl' : hasLane r.active l' = true) :
    (r.laneState l).guardHolds i = (r.laneState l').guardHolds i := by
  have hexec : r.execMask i = 0 ∨ r.active &&& ~~~r.execMask i = 0 := by
    by_contra hc
    obtain ⟨h1, h2⟩ := not_or.1 hc
    rw [issue, hop] at h
    simp only [branch, hguard, Bool.not_true, Bool.false_eq_true, if_false, if_neg h1,
      if_neg h2] at h
    exact h2 (by rw [h]; exact BitVec.and_not_self _)
  have hone : ∀ k, hasLane r.active k = true →
      hasLane (r.execMask i) k = (r.laneState k).guardHolds i := by
    intro k hk
    rw [execMask_guardHolds, hk, Bool.true_and]
  rcases hexec with hz | hz
  · rw [← hone l hl, ← hone l' hl', hz, BitVec.ofNat_eq_ofNat, hasLane_zero, hasLane_zero]
  · have hall : ∀ k, hasLane r.active k = true → hasLane (r.execMask i) k = true := by
      intro k hk
      have := mask_eq_zero.1 hz k
      rw [hasLane_and_not, hk, Bool.true_and, Bool.not_eq_false'] at this
      exact this
    rw [← hone l hl, ← hone l' hl', hall l hl, hall l' hl']

theorem alike_effect (hi : program[r.pc.toNat]? = some i) (hp : Partition r.toWarpState)
    (hpc : r.pc ≠ noReconvergence) (hnone : i.opcode = .bra → i.reconvergencePc = noReconvergence)
    (h : Alike H r.toWarpState) (heffect : Effect i r w')
    (huniform : i.opcode = .bra → i.guard.present = true → w'.active = r.active →
      ∀ l l', hasLane r.active l = true → hasLane r.active l' = true →
        (r.laneState l).guardHolds i = (r.laneState l').guardHolds i) :
    Alike (extendHistories program r H) w'.toWarpState := by
  have hactive : ∀ l l', hasLane r.active l = true → hasLane r.active l' = true →
      (i.opcode = .bra → i.guard.present = true →
        (r.laneState l).guardHolds i = (r.laneState l').guardHolds i) →
      extendHistories program r H l = extendHistories program r H l' := by
    intro l l' hl hl' hout
    rw [extendHistories, extendHistories, if_pos hl, if_pos hl', h.current hpc l l' hl hl',
      outcome_at hi, outcome_at hi]
    split_ifs with hg
    · rw [hout hg.1 hg.2]
    · rfl
  have hdeferred : ∀ e ∈ r.stack, ∀ l, hasLane e.mask l = true →
      extendHistories program r H l = H l := by
    intro e he l hl
    have hoff := mask_eq_zero.1 (active_disjoint hp he) l
    rw [hasLane_and, hl, Bool.and_true] at hoff
    rw [extendHistories, hoff, if_neg Bool.false_ne_true]
  have hstack : ∀ e ∈ r.stack, e.reconvergencePc = noReconvergence
      ∧ (e.resumePc ≠ noReconvergence → ∀ l l', hasLane e.mask l = true → hasLane e.mask l' = true →
        extendHistories program r H l = extendHistories program r H l') := by
    intro e he
    obtain ⟨h1, h2⟩ := h.deferred e he
    refine ⟨h1, fun hne l l' hl hl' => ?_⟩
    rw [hdeferred e he l hl, hdeferred e he l' hl', h2 hne l l' hl hl']
  cases heffect with
  | stay _ hm =>
    refine ⟨fun _ l l' hl hl' => ?_, fun e he => hstack e (hm.stack ▸ he)⟩
    rw [hm.active] at hl hl'
    exact hactive l l' hl hl' fun h1 h2 => huniform h1 h2 hm.active l l' hl hl'
  | move _ hm =>
    refine ⟨fun _ l l' hl hl' => ?_, fun e he => hstack e (hm.stack ▸ he)⟩
    rw [hm.active] at hl hl'
    exact hactive l l' hl hl' fun h1 h2 => huniform h1 h2 hm.active l l' hl hl'
  | split hbra hguard _ ha _ hs =>
    refine ⟨fun _ l l' hl hl' => ?_, fun e he => ?_⟩
    · rw [ha, execMask_guardHolds, Bool.and_eq_true] at hl hl'
      exact hactive l l' hl.1 hl'.1 fun _ _ => hl.2.trans hl'.2.symm
    · rw [hs] at he
      rcases List.mem_cons.1 he with rfl | he
      · refine ⟨hnone hbra, fun _ l l' hl hl' => ?_⟩
        rw [hasLane_and_not, execMask_guardHolds, Bool.and_eq_true, Bool.not_eq_true'] at hl hl'
        obtain ⟨hl, hg⟩ := hl
        obtain ⟨hl', hg'⟩ := hl'
        rw [hl, Bool.true_and] at hg
        rw [hl', Bool.true_and] at hg'
        exact hactive l l' hl hl' fun _ _ => hg.trans hg'.symm
      · exact hstack e he
  | exit hexit _ hm =>
    have hbra : i.opcode ≠ .bra := by rw [hexit]; decide
    have hr : Alike (extendHistories program r H) (r.retire (r.execMask i)).toWarpState :=
      alike_retire ⟨fun _ l l' hl hl' => hactive l l' hl hl' fun h => absurd h hbra, hstack⟩ _
    refine ⟨fun _ l l' hl hl' => ?_, fun e he => hr.deferred e (hm.stack ▸ he)⟩
    rw [hm.active] at hl hl'
    exact hr.current hpc l l' hl hl'

end Histories

section Count

variable {F : FloatOps} {program : List Instruction} {m : BlockMemory}

/-- What the lanes still execute, each PC with the history it is executed under. -/
def pending (F : FloatOps) (program : List Instruction) (m : BlockMemory) (w : Warp)
    (k : Nat → Nat) (H : Nat → History) (lane : Nat) : List (Pc × History) :=
  (w.laneState lane).trace F BlockMemory.port w.context program lane (k lane) (H lane) m

/-- The distinct ones among them. -/
def distinctPending (F : FloatOps) (program : List Instruction) (m : BlockMemory) (w : Warp)
    (k : Nat → Nat) (H : Nat → History) : Finset (Pc × History) :=
  (lanes.flatMap (pending F program m w k H)).toFinset

theorem mem_distinctPending {w : Warp} {k : Nat → Nat} {H : Nat → History} {p : Pc × History} :
    p ∈ distinctPending F program m w k H ↔ ∃ lane ∈ lanes, p ∈ pending F program m w k H lane := by
  rw [distinctPending, List.mem_toFinset, List.mem_flatMap]

/-- A step of the warp in terms of what is pending: nothing happens to it, or each active lane
executes the first. -/
theorem step_pending (hplain : ∀ i ∈ program, Plain m i) {w : Warp} (hp : Partition w.toWarpState)
    {k : Nat → Nat} (hends : ∀ lane, ((w.laneState lane).steps F BlockMemory.port w.context program
      lane (k lane) m).1.ended program = true) :
    ∃ o w' k', w.step F BlockMemory.port program m = (.ok o, w', m) ∧ Partition w'.toWarpState
      ∧ (∀ lane, ((w'.laneState lane).steps F BlockMemory.port w'.context program lane (k' lane)
        m).1.ended program = true)
      ∧ ((o = .finished ∧ w.settle program = .finished w'
          ∧ ∀ H lane, pending F program m w k H lane = pending F program m w' k' H lane)
        ∨ (o = .issued ∧ ∃ i r, w.settle program = .ready i r ∧ r.active ≠ 0
          ∧ program[r.pc.toNat]? = some i ∧ Partition r.toWarpState
          ∧ r.issue F BlockMemory.port i m = (.ok .issued, w', m)
          ∧ ∀ H lane, pending F program m w k H lane = if hasLane r.active lane
            then (r.pc, H lane) :: pending F program m w' k' (extendHistories program r H) lane
            else pending F program m w' k' (extendHistories program r H) lane)) := by
  have hmicro := settle_micro F program w
  have hset := settle_settling program w hp
  have hkeep : ∀ {moved : LaneMask} {w' : Warp} {k' : Nat → Nat}, Lockstep F program m moved w w' →
      (∀ lane, k lane = k' lane + (hasLane moved lane).toNat) → ∀ (H : Nat → History) lane,
        hasLane moved lane = false →
          pending F program m w k H lane = pending F program m w' k' H lane := by
    intro moved w' k' hl hk H lane hm
    rw [pending, pending, hk lane, hm, Bool.toNat_false, Nat.add_zero, hl.context]
    rcases hl.keeps lane hm with heq | ⟨he, heq⟩
    · rw [heq]
    · have he' : (w'.laneState lane).ended program = true := by rw [heq]; rfl
      rw [LaneState.trace_ended he, LaneState.trace_ended he']
  obtain ⟨o, w', hstep, ⟨ho, hl, -⟩ | ⟨ho, i, r, hs, hissue, hne, hl, -⟩⟩ :=
    step_lockstep (F := F) hplain hp
  · obtain ⟨k', hk, hends'⟩ := lockstep_ends hl hends
    refine ⟨o, w', k', hstep, hl.partition, hends', .inl ⟨ho, ?_, fun H lane =>
      hkeep hl hk H lane (by simp)⟩⟩
    subst ho
    rw [step] at hstep
    rcases hs : w.settle program with r | ⟨i, r⟩ <;> rw [hs] at hstep
    · cases hstep
      rfl
    · have hout := issue_outcome F BlockMemory.port i r m
      simp only [] at hstep
      rw [hstep] at hout
      cases hout
  · obtain ⟨k', hk, hends'⟩ := lockstep_ends hl hends
    simp only [hs] at hmicro hset
    obtain ⟨hrun, -, hpc⟩ := hmicro
    have hpr : Partition r.toWarpState := micro_invariant (fun _ _ => partition_micro) hrun hp
    refine ⟨o, w', k', hstep, hl.partition, hends', .inr ⟨ho, i, r, hs, hne, hpc, hpr, hissue,
      fun H lane => ?_⟩⟩
    cases ha : hasLane r.active lane
    · rw [if_neg Bool.false_ne_true, hkeep hl hk H lane ha, pending, pending, extendHistories, ha,
        if_neg Bool.false_ne_true]
    · have hsame : w.laneState lane = r.laneState lane :=
        (hset.keeps lane (by rw [← ownPc_isSome hpr, ownPc_active ha]; rfl)).2.symm
      have hown : (w.laneState lane).pc = some r.pc := by
        rw [hsame]
        exact ownPc_active ha
      rw [if_pos rfl, pending, hk lane, ha, Bool.toNat_true,
        LaneState.trace_step hown (hl.moves lane ha), pending, extendHistories, if_pos ha,
        hl.context, hsame]

theorem pending_of_finished {w : Warp} (hp : Partition w.toWarpState) (hfin : w.finished = true)
    (k : Nat → Nat) (H : Nat → History) (lane : Nat) : pending F program m w k H lane = [] := by
  have hlive : w.live = 0 := by simpa [WarpState.finished] using hfin
  exact LaneState.trace_ended (ended_of_dead hp (by rw [hlive]; exact hasLane_zero _)) _ _ _

section Issue

variable {w w' r : Warp} {i : Instruction} {k k' : Nat → Nat} {H : Nat → History} {lane : Nat}

/-- What the warp issues under the history of a lane is no longer pending afterwards. -/
theorem not_pending_of_parted (hp' : Partition w'.toWarpState) (hpr : Partition r.toWarpState)
    (heffect : Effect i r w') (hr : Parted H r.toWarpState) (hl : hasLane r.active lane = true) :
    (r.pc, H lane) ∉ distinctPending F program m w' k' (extendHistories program r H) := by
  intro hmem
  obtain ⟨l, -, hmem⟩ := mem_distinctPending.1 hmem
  have hpre := LaneState.prefix_of_mem_trace hmem
  have hlive : hasLane r.live l = true := by
    cases hd : hasLane w'.live l
    · rw [pending, LaneState.trace_ended (ended_of_dead hp' hd)] at hmem
      cases hmem
    · exact live_of_effect heffect hd
  have hlane : hasLane r.live lane = true := by
    rw [← ownPc_isSome hpr, ownPc_active hl]
    rfl
  have hbefore : H l <+: extendHistories program r H l := by
    rw [extendHistories]
    split_ifs
    · exact List.prefix_append _ _
    · exact List.prefix_rfl
  obtain ⟨heq, ht, -⟩ := hr l lane hlive hlane (hbefore.trans hpre)
  have hlen := List.IsPrefix.length_le hpre
  rw [extendHistories, if_pos (ht.trans hl), heq, List.length_append, List.length_singleton] at hlen
  exact absurd hlen (by simp)

section Pend

variable (hpend : ∀ lane, pending F program m w k H lane = if hasLane r.active lane
  then (r.pc, H lane) :: pending F program m w' k' (extendHistories program r H) lane
  else pending F program m w' k' (extendHistories program r H) lane)

include hpend

theorem insert_subset_pending (hl : hasLane r.active lane = true) :
    insert (r.pc, H lane) (distinctPending F program m w' k' (extendHistories program r H))
      ⊆ distinctPending F program m w k H := by
  intro p hmem
  rcases Finset.mem_insert.1 hmem with rfl | hmem
  · refine mem_distinctPending.2 ⟨lane, hasLane_mem_lanes hl, ?_⟩
    rw [hpend, if_pos hl]
    exact List.mem_cons_self
  · obtain ⟨l, hlanes, hmem⟩ := mem_distinctPending.1 hmem
    refine mem_distinctPending.2 ⟨l, hlanes, ?_⟩
    rw [hpend]
    split_ifs
    · exact List.mem_cons_of_mem _ hmem
    · exact hmem

theorem pending_subset_insert (hsame : ∀ l, hasLane r.active l = true → H l = H lane) :
    distinctPending F program m w k H
      ⊆ insert (r.pc, H lane)
          (distinctPending F program m w' k' (extendHistories program r H)) := by
  intro p hp
  obtain ⟨l, hlanes, hp⟩ := mem_distinctPending.1 hp
  rw [hpend] at hp
  split_ifs at hp with hactive
  · rcases List.mem_cons.1 hp with rfl | hp
    · rw [hsame l hactive]
      exact Finset.mem_insert_self _ _
    · exact Finset.mem_insert_of_mem (mem_distinctPending.2 ⟨l, hlanes, hp⟩)
  · exact Finset.mem_insert_of_mem (mem_distinctPending.2 ⟨l, hlanes, hp⟩)

end Pend

end Issue

/-- No lane steps more often than the warp issues; the warp issues nothing twice under one history
while no lanes are together that have parted before; and no PC goes unissued under a history while
lanes that are together have the same. -/
theorem issues_bounds (hplain : ∀ i ∈ program, Plain m i) : ∀ (n : Nat) (w : Warp) (k : Nat → Nat)
    (H : Nat → History), Partition w.toWarpState →
    (w.steps F BlockMemory.port program n m).1.finished = true →
    (∀ lane, ((w.laneState lane).steps F BlockMemory.port w.context program lane (k lane)
      m).1.ended program = true) →
      (∀ lane, (pending F program m w k H lane).length ≤ issues F BlockMemory.port program n w m)
      ∧ (Parted H w.toWarpState →
        issues F BlockMemory.port program n w m ≤ (distinctPending F program m w k H).card)
      ∧ (program.length ≤ 65535 → (∀ i ∈ program, i.opcode = .bra →
          i.reconvergencePc = noReconvergence) → Alike H w.toWarpState →
        (distinctPending F program m w k H).card ≤ issues F BlockMemory.port program n w m)
  | 0, w, k, H, hp, hfin, hends => by
    have hnone : ∀ lane, pending F program m w k H lane = [] := pending_of_finished hp hfin k H
    have hempty : distinctPending F program m w k H = ∅ := by
      refine Finset.eq_empty_of_forall_notMem fun p hmem => ?_
      obtain ⟨lane, -, hlane⟩ := mem_distinctPending.1 hmem
      rw [hnone] at hlane
      cases hlane
    refine ⟨fun lane => by rw [hnone]; exact Nat.le_refl 0, fun _ => Nat.zero_le _, fun _ _ _ => ?_⟩
    rw [hempty]
    exact Nat.le_refl 0
  | n + 1, w, k, H, hp, hfin, hends => by
    have hset := fun ha : Parted H w.toWarpState => parted_settle program hp ha
    have halike := fun ha : Alike H w.toWarpState => alike_settle program ha
    obtain ⟨o, w', k', hstep, hp', hends', hcase⟩ := step_pending (F := F) hplain hp hends
    rw [steps, hstep] at hfin
    have ih := fun H => issues_bounds hplain n w' k' H hp' hfin hends'
    rcases hcase with ⟨rfl, hs, hkeep⟩ | ⟨rfl, i, r, hs, hne, hi, hpr, hissue, hpend⟩
    · have hsame : distinctPending F program m w k H = distinctPending F program m w' k' H := by
        rw [distinctPending, distinctPending, funext (hkeep H)]
      have hissues : issues F BlockMemory.port program (n + 1) w m
          = issues F BlockMemory.port program n w' m := by
        rw [issues, hstep, Nat.zero_add]
      obtain ⟨h1, h2, h3⟩ := ih H
      simp only [hs] at hset halike
      rw [hissues, hsame]
      exact ⟨fun lane => by rw [hkeep]; exact h1 lane, fun ha => h2 (hset ha),
        fun hlen hnone ha => h3 hlen hnone (halike ha)⟩
    · have hissues : issues F BlockMemory.port program (n + 1) w m
          = 1 + issues F BlockMemory.port program n w' m := by rw [issues, hstep]
      obtain ⟨h1, h2, h3⟩ := ih (extendHistories program r H)
      have heffect : Effect i r w' := by
        have := issue_effect F BlockMemory.port i r m
        rwa [hissue] at this
      obtain ⟨lane, hl⟩ := mask_ne_zero.1 hne
      simp only [hs] at hset halike
      rw [hissues]
      refine ⟨fun lane => ?_, fun ha => ?_, fun hlen hnone ha => ?_⟩
      · have hlane := h1 lane
        rw [hpend]
        split_ifs
        · rw [List.length_cons]
          omega
        · omega
      · have hcard := Finset.card_le_card (insert_subset_pending (hpend H) hl)
        rw [Finset.card_insert_of_notMem
          (not_pending_of_parted hp' hpr heffect (hset ha) hl)] at hcard
        have hle := h2 (parted_effect hi (hset ha) heffect)
        omega
      · have hr := halike ha
        have hpc : r.pc ≠ noReconvergence := by
          intro hc
          have hlt := (List.getElem?_eq_some_iff.1 hi).1
          rw [hc] at hlt
          exact absurd hlt (Nat.not_lt.2 hlen)
        have hafter : Alike (extendHistories program r H) w'.toWarpState :=
          alike_effect hi hpr hpc (hnone i (List.mem_of_getElem? hi)) hr heffect
            fun hbra hguard hactive l l' hl hl' =>
              branch_uniform hbra hguard
                (show (r.issue F BlockMemory.port i m).2.1.active = r.active by
                  rw [hissue]; exact hactive) hl hl'
        have hcard := (Finset.card_le_card (pending_subset_insert (hpend H)
          fun l hactive => hr.current hpc l lane hactive hl)).trans (Finset.card_insert_le _ _)
        have hle := h3 hlen hnone hafter
        omega

end Count

section Statement

variable {F : FloatOps} {program : List Instruction} {m : BlockMemory}

theorem outcome_withReconvergence (f : Nat → Pc) (pc : Pc) (s : LaneState) :
    s.outcome (withReconvergence f program) pc = s.outcome program pc := by
  rw [LaneState.outcome, LaneState.outcome, getElem?_withReconvergence]
  rcases program[pc.toNat]? with _ | i
  · rfl
  · simp only [Option.map_some]
    split_ifs <;> rfl

theorem trace_withReconvergence (f : Nat → Pc) (ctx : LaneContext) (lane : Nat) :
    ∀ (n : Nat) (h : History) (s : LaneState) (m : BlockMemory),
      s.trace F BlockMemory.port ctx (withReconvergence f program) lane n h m
        = s.trace F BlockMemory.port ctx program lane n h m
  | 0, _, _, _ => rfl
  | n + 1, h, s, m => by
    rw [LaneState.trace, LaneState.trace, step_withReconvergence]
    simp only [outcome_withReconvergence, trace_withReconvergence f ctx lane n]

theorem parted_new (warpId : Word) (live : LaneMask) (context : LaneContext) :
    Parted (fun _ => []) (Warp.new warpId live context).toWarpState :=
  fun _ _ hl hl' _ => ⟨rfl, hl.trans hl'.symm, by simp [Warp.new]⟩

theorem alike_new (warpId : Word) (live : LaneMask) (context : LaneContext) :
    Alike (fun _ => []) (Warp.new warpId live context).toWarpState :=
  ⟨fun _ _ _ _ _ => rfl, by simp [Warp.new]⟩

theorem reconvergencePc_withReconvergence {pc : Pc} {i : Instruction}
    (hi : i ∈ withReconvergence (fun _ => pc) program) (hbra : i.opcode = .bra) :
    i.reconvergencePc = pc := by
  obtain ⟨k, hk⟩ := List.mem_iff_getElem?.1 hi
  rw [getElem?_withReconvergence] at hk
  obtain ⟨i', -, rfl⟩ := Option.map_eq_some_iff.1 hk
  split_ifs at hbra ⊢ with hop
  · exact Instruction.reconvergencePc_makeBranchImm i' i'.branchTarget pc
  · exact absurd hbra hop

/-- Reconvergence never costs issues. Where every live lane's scalar run ends, a warp finishes
under any choice of reconvergence PCs, with at least as many issues as any lane has steps, and at
most as many as without reconvergence PCs: those are the PCs that live lanes execute, counted once
for each history they are executed under. -/
theorem reconvergence_never_costs (F : FloatOps) (program : List Instruction) (m : BlockMemory)
    (hlen : program.length ≤ 65535) (hplain : ∀ i ∈ program, Plain m i) (warpId : Word)
    (live : LaneMask) (context : LaneContext) (k : Nat → Nat)
    (hends : ∀ lane, hasLane live lane = true →
      (laneAlone F program m (Warp.new warpId live context) lane (k lane)).ended program = true) :
    let w := Warp.new warpId live context
    let run := fun lane =>
      (w.laneState lane).trace F BlockMemory.port context program lane (k lane) [] m
    let distinct := ((lanes.filter (hasLane live)).flatMap run).toFinset.card
    ∀ f, (∃ n, (runWith F program m w f n).finished = true)
      ∧ ∀ n, (runWith F program m w f n).finished = true →
        (∀ lane, hasLane live lane = true →
          (run lane).length ≤ issues F BlockMemory.port (withReconvergence f program) n w m)
        ∧ ∀ n', (runWith F program m w (fun _ => noReconvergence) n').finished = true →
          issues F BlockMemory.port (withReconvergence f program) n w m
            ≤ issues F BlockMemory.port (withReconvergence (fun _ => noReconvergence) program)
              n' w m
          ∧ issues F BlockMemory.port (withReconvergence (fun _ => noReconvergence) program) n' w m
            = distinct := by
  intro w run distinct f
  have hp : Partition w.toWarpState := partition_new warpId live context
  have hall : ∀ f lane, ((w.laneState lane).steps F BlockMemory.port w.context
      (withReconvergence f program) lane (k lane) m).1.ended (withReconvergence f program)
      = true := by
    intro f lane
    rw [(steps_withReconvergence lane (k lane) _ hplain).1, ended_withReconvergence]
    cases hl : hasLane live lane
    · exact (laneAlone_dead hp hl (k lane)).1
    · exact hends lane hl
  have hrun : ∀ f lane,
      pending F (withReconvergence f program) m w k (fun _ => []) lane = run lane :=
    fun f lane => trace_withReconvergence f w.context lane (k lane) [] _ m
  have hdistinct : ∀ f, distinctPending F (withReconvergence f program) m w k (fun _ => [])
      = ((lanes.filter (hasLane live)).flatMap run).toFinset := by
    intro f
    ext p
    rw [mem_distinctPending, List.mem_toFinset, List.mem_flatMap]
    constructor
    · rintro ⟨lane, hlanes, hmem⟩
      rw [hrun] at hmem
      refine ⟨lane, List.mem_filter.2 ⟨hlanes, ?_⟩, hmem⟩
      cases hl : hasLane live lane
      · have hend : (w.laneState lane).ended program = true := ended_of_dead hp hl
        rw [show run lane = [] from LaneState.trace_ended hend _ _ _] at hmem
        cases hmem
      · rfl
    · rintro ⟨lane, hlane, hmem⟩
      exact ⟨lane, (List.mem_filter.1 hlane).1, by rw [hrun]; exact hmem⟩
  have hbounds := fun f n hfin => issues_bounds (plain_withReconvergence (f := f) hplain) n w k
    (fun _ => []) hp hfin (hall f)
  refine ⟨runs_finish (plain_withReconvergence hplain) k w hp (hall f), fun n hfin =>
    ⟨fun lane _ => ?_, fun n' hfin' => ?_⟩⟩
  · rw [← hrun f lane]
    exact (hbounds f n hfin).1 lane
  · have hupper := (hbounds f n hfin).2.1 (parted_new warpId live context)
    obtain ⟨-, hle, hge⟩ := hbounds (fun _ => noReconvergence) n' hfin'
    have hnone := Nat.le_antisymm (hle (parted_new warpId live context)) (hge
      (by rw [withReconvergence, List.length_mapIdx]; exact hlen)
      (fun i => reconvergencePc_withReconvergence) (alike_new warpId live context))
    rw [hdistinct] at hupper hnone
    exact ⟨by rw [hnone]; exact hupper, hnone⟩

/-- Half of the lanes branch over an addition; meeting again after it saves two issues. -/
theorem branchingProgram_issues :
    issues default BlockMemory.port (withReconvergence (fun _ => 4) branchingProgram) 6
        (Warp.new 0 fullMask {}) ⟨⟨[]⟩, ⟨[]⟩, [7], {}⟩
      ≤ issues default BlockMemory.port (withReconvergence (fun _ => noReconvergence)
        branchingProgram) 8 (Warp.new 0 fullMask {}) ⟨⟨[]⟩, ⟨[]⟩, [7], {}⟩ := by
  have hends : ∀ lane ∈ lanes, (laneAlone default branchingProgram ⟨⟨[]⟩, ⟨[]⟩, [7], {}⟩
      (Warp.new 0 fullMask {}) lane 6).ended branchingProgram = true := by decide +kernel
  exact (((reconvergence_never_costs default branchingProgram ⟨⟨[]⟩, ⟨[]⟩, [7], {}⟩ (by decide)
    (by decide) 0 fullMask {} (fun _ => 6) fun lane hl => hends lane (hasLane_mem_lanes hl))
      fun _ => 4).2 6 (by decide +kernel)).2 8 (by decide +kernel) |>.1

end Statement

end WarpSim
