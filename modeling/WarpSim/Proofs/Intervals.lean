import WarpSim.Proofs.Alone
import WarpSim.Proofs.Geometry
import WarpSim.Proofs.Schedules
import WarpSim.Proofs.Termination

/-!
# Intervals between barriers

A block whose lanes keep to their footprints between its barriers does what its lanes do alone:
each interval takes every lane from its entry to the next barrier, over the memory at the
interval's beginning, and leaves what the lanes stored. So a kernel is proved lane by lane, with
an outline of its intervals, and never unfolds the warps' masks or the turns of the scheduler.
-/

namespace WarpSim

/-- The context of the warp that a thread of the block is in. -/
def threadContext (base : LaneContext) (t : Nat) : LaneContext :=
  { base with warpId := BitVec.ofNat 32 (t / 32) }

/-- What is claimed of the lanes of a block, interval by interval: the interval's number comes
first, then the thread's. -/
structure Outline where
  /-- How many barriers the block completes. -/
  barriers : Nat
  footprint : Nat → Nat → Footprint
  /-- What the words stored in an interval hold at its end. -/
  value : Nat → Space → Word → Word
  /-- A lane's state at the beginning of an interval. -/
  entry : Nat → Nat → LaneState → Prop
  /-- The memory at the beginning of an interval. -/
  memory : Nat → BlockMemory → Prop
  /-- The way every lane goes at a branch whose lanes might not meet before a barrier. -/
  outcome : Nat → Pc → Bool

namespace Outline

variable (F : FloatOps) (program : List Instruction) (base : LaneContext) (threads : Nat)
  (o : Outline)

section Claims

abbrev Alone (c t : Nat) : LaneState × BlockMemory → LaneState × BlockMemory → Prop :=
  LaneState.Alone F (threadContext base t) program (t % 32) (o.footprint c t) (o.outcome c)

def Stored (c t : Nat) (m : BlockMemory) : Prop :=
  ∀ space a, (o.footprint c t).stores space a → m.wordAt space a = o.value c space a

/-- Where a thread's interval ends: at a barrier, or with its run over after the last one. -/
structure Ends (c t : Nat) (x : LaneState × BlockMemory) : Prop where
  stored : o.Stored c t x.2
  stop : if c < o.barriers then ∃ pc i, x.1.pc = some pc ∧ program[pc.toNat]? = some i
      ∧ i.opcode = .barSync ∧ o.entry (c + 1) t (x.1.moveTo (pc + 1))
    else x.1.ended program = true

def StoredIn (c : Nat) (space : Space) (a : Word) : Prop :=
  ∃ t < threads, (o.footprint c t).stores space a

/-- An outline that holds of every thread alone, with footprints apart. -/
structure Sound : Prop where
  annotated : Warp.Annotated program
  unguarded : ∀ i ∈ program, i.opcode = .barSync → i.guard.present = false
  aligned : ∀ c t space a, (o.footprint c t).stores space a → a.toNat % 4 = 0
  apart : ∀ c ≤ o.barriers, ∀ t < threads, ∀ u < threads, t ≠ u → ∀ space a,
    (o.footprint c t).stores space a → ¬(o.footprint c u).Sees space a
  run : ∀ c ≤ o.barriers, ∀ t < threads, ∀ s m, o.memory c m → o.entry c t s →
    LeadsTo (o.Alone F program base c t) (o.Ends program c t) (s, m)
  next : ∀ c < o.barriers, ∀ m m', o.memory c m →
    BlockMemory.Wrote (o.StoredIn threads c) m m' → (∀ t < threads, o.Stored c t m') →
      o.memory (c + 1) m'

end Claims

section Threads

/-- A thread in the middle of an interval, with `n` steps to its end. -/
def Running (c t n : Nat) (s : LaneState) (m : BlockMemory) : Prop :=
  ∃ μ x, Leads (o.Alone F program base c t) n (s, μ) x ∧ o.Ends program c t x
    ∧ BlockMemory.Alike (o.footprint c t) μ m

/-- A thread that waits for the next interval. -/
structure Passed (c t : Nat) (s : LaneState) (m : BlockMemory) : Prop where
  more : c < o.barriers
  live : s.pc.isSome = true
  entry : o.entry (c + 1) t s
  stored : o.Stored c t m

variable {F program base threads o} {c t n : Nat} {s : LaneState} {m m' : BlockMemory}
  {s' : LaneState} {P : Space → Word → Prop}

theorem Stored.wrote (hs : o.Sound F program base threads) (h : o.Stored c t m)
    (hw : BlockMemory.Wrote P m m') (hP : ∀ space a, P space a → ¬(o.footprint c t).Sees space a) :
    o.Stored c t m' := fun space a hst => by
  rw [hw.wordAt (hs.aligned c t space a hst) fun hp => hP space a hp (.inr hst), h space a hst]

theorem Running.wrote (h : o.Running F program base c t n s m) (hw : BlockMemory.Wrote P m m')
    (hP : ∀ space a, P space a → ¬(o.footprint c t).Sees space a) :
    o.Running F program base c t n s m' := by
  obtain ⟨μ, x, hl, he, hm⟩ := h
  exact ⟨μ, x, hl, he, hm.wrote hw hP⟩

theorem Passed.wrote (hs : o.Sound F program base threads) (h : o.Passed c t s m)
    (hw : BlockMemory.Wrote P m m') (hP : ∀ space a, P space a → ¬(o.footprint c t).Sees space a) :
    o.Passed c t s m' :=
  ⟨h.more, h.live, h.entry, h.stored.wrote hs hw hP⟩

theorem Running.step (h : o.Running F program base c t (n + 1) s m) :
    s.Allowed program (o.footprint c t) (o.outcome c)
    ∧ ∃ s' m', s.step F BlockMemory.port (threadContext base t) program (t % 32) m = some (s', m')
      ∧ o.Running F program base c t n s' m'
      ∧ BlockMemory.Wrote (o.footprint c t).stores m m' := by
  obtain ⟨μ, x, hl, he, hm⟩ := h
  cases hl with
  | @head _ _ y _ h rest =>
    obtain ⟨s', μ'⟩ := y
    obtain ⟨m', hstep, halike, hwrote⟩ := LaneState.alone_alike h hm
    exact ⟨h.1, s', m', hstep, ⟨μ', x, rest, he, halike⟩, hwrote⟩

theorem Running.stop (hs : o.Sound F program base threads)
    (h : o.Running F program base c t 0 s m) : o.Stored c t m
      ∧ if c < o.barriers then ∃ pc i, s.pc = some pc ∧ program[pc.toNat]? = some i
          ∧ i.opcode = .barSync ∧ o.entry (c + 1) t (s.moveTo (pc + 1))
        else s.ended program = true := by
  obtain ⟨μ, x, hl, he, hm⟩ := h
  cases hl
  exact ⟨fun space a hst =>
    (hm.words space a (.inr hst) (hs.aligned c t space a hst)).trans (he.stored space a hst),
    he.stop⟩

theorem ended_of_instruction {pc : Pc} {i : Instruction} (hpc : s.pc = some pc)
    (hi : program[pc.toNat]? = some i) : s.ended program = false := by
  rw [LaneState.ended, hpc]
  exact decide_eq_false (Nat.not_le.2 (List.getElem?_eq_some_iff.1 hi).1)

theorem Running.retired (hs : o.Sound F program base threads)
    (h : o.Running F program base c t n s m) (hended : s.ended program = true) :
    n = 0 ∧ o.barriers ≤ c ∧ o.Stored c t m := by
  cases n with
  | succ n =>
    obtain ⟨-, s', m', hstep, -⟩ := h.step
    rw [LaneState.step_ended hended] at hstep
    cases hstep
  | zero =>
    obtain ⟨hstored, hstop⟩ := h.stop hs
    refine ⟨rfl, Nat.not_lt.1 fun hlt => ?_, hstored⟩
    rw [if_pos hlt] at hstop
    obtain ⟨pc, i, hpc, hi, -⟩ := hstop
    rw [ended_of_instruction hpc hi] at hended
    cases hended

theorem Running.retire (hs : o.Sound F program base threads)
    (h : o.Running F program base c t n s m) (hended : s.ended program = true)
    (hended' : s'.ended program = true) : o.Running F program base c t n s' m := by
  obtain ⟨rfl, hlast, hstored⟩ := h.retired hs hended
  refine ⟨m, (s', m), .refl _, ⟨hstored, ?_⟩, .refl _ _⟩
  rwa [if_neg (Nat.not_lt.2 hlast)]

theorem Running.instruction (hs : o.Sound F program base threads)
    (h : o.Running F program base c t n s m) {pc : Pc} {i : Instruction} (hpc : s.pc = some pc)
    (hi : program[pc.toNat]? = some i) :
    (n = 0 → i.opcode = .barSync ∧ c < o.barriers ∧ o.entry (c + 1) t (s.moveTo (pc + 1))
      ∧ o.Stored c t m)
    ∧ (n ≠ 0 → i.opcode ≠ .barSync) := by
  cases n with
  | zero =>
    obtain ⟨hstored, hstop⟩ := h.stop hs
    by_cases hlt : c < o.barriers
    · rw [if_pos hlt] at hstop
      obtain ⟨pc', i', hpc', hi', hop, hentry⟩ := hstop
      cases hpc.symm.trans hpc'
      cases hi.symm.trans hi'
      exact ⟨fun _ => ⟨hop, hlt, hentry, hstored⟩, fun h => absurd rfl h⟩
    · rw [if_neg hlt, ended_of_instruction hpc hi] at hstop
      cases hstop
  | succ n =>
    obtain ⟨-, s', m', hstep, -⟩ := h.step
    refine ⟨fun h => absurd h (Nat.succ_ne_zero n), fun _ hop => ?_⟩
    have hg : s.guardHolds i = true := by
      rw [LaneState.guardHolds, hs.unguarded i (List.mem_of_getElem? hi) hop]
      rfl
    rw [Warp.step_at hpc hi, if_pos hg] at hstep
    simp only [LaneState.execute, hop] at hstep
    cases hstep

end Threads

section Warps

/-- One warp of a block in the middle of an interval, each of its lanes with steps to its end. -/
structure WarpIn (c : Nat) (m : BlockMemory) (togo : Nat → Nat) (i : Nat) (w : Warp) : Prop where
  partition : Partition w.toWarpState
  nesting : Warp.Nesting program w.toWarpState
  traced : Warp.Traced program (MeetsBefore program) w.toWarpState
  context : w.context = threadContext base (32 * i)
  outside : ∀ lane, ¬(lane < 32 ∧ 32 * i + lane < threads) → hasLane w.live lane = false
  unparked : w.parked = false → ∀ lane < 32, 32 * i + lane < threads →
    o.Running F program base c (32 * i + lane) (togo lane) (w.laneState lane) m
  parked : w.parked = true → ∀ lane < 32, 32 * i + lane < threads →
    o.Passed c (32 * i + lane) (w.laneState lane) m

variable {F program base threads o} {c i : Nat} {m m' : BlockMemory} {togo : Nat → Nat} {w : Warp}

def StoredBy (o : Outline) (threads c i : Nat) (space : Space) (a : Word) : Prop :=
  ∃ lane < 32, 32 * i + lane < threads ∧ (o.footprint c (32 * i + lane)).stores space a

theorem threadContext_lane {lane : Nat} (h : lane < 32) :
    threadContext base (32 * i + lane) = threadContext base (32 * i) := by
  have hdiv : (32 * i + lane) / 32 = 32 * i / 32 := by omega
  rw [threadContext, threadContext, hdiv]

theorem Sound.unseen (hs : o.Sound F program base threads) (hc : c ≤ o.barriers) {t u : Nat}
    (ht : t < threads) (hu : u < threads) (hne : t ≠ u) :
    ∀ space a, (o.footprint c t).stores space a → ¬(o.footprint c u).Sees space a :=
  hs.apart c hc t ht u hu hne

theorem Sound.unseen_warp (hs : o.Sound F program base threads) (hc : c ≤ o.barriers) {j lane : Nat}
    (hne : i ≠ j) (hlane : lane < 32) (hu : 32 * j + lane < threads) :
    ∀ space a, o.StoredBy threads c i space a → ¬(o.footprint c (32 * j + lane)).Sees space a := by
  rintro space a ⟨lane', hlane', ht, hst⟩
  exact hs.apart c hc _ ht _ hu (by omega) space a hst

/-- The active lanes step one after the other, each by one of its own steps. -/
theorem stepLanes_running (hs : o.Sound F program base threads) (hc : c ≤ o.barriers)
    {active : LaneMask} : ∀ (l : List Nat) {S S' : Nat → LaneState} {m m' : BlockMemory}
    {togo : Nat → Nat}, l.Nodup → (∀ lane ∈ l, lane < 32) →
    stepLanes (LaneState.step F BlockMemory.port (threadContext base (32 * i)) program) active l S m
      = some (S', m') →
    (∀ lane < 32, 32 * i + lane < threads →
      o.Running F program base c (32 * i + lane) (togo lane) (S lane) m) →
    (∀ lane ∈ l, hasLane active lane = true → 32 * i + lane < threads ∧ togo lane ≠ 0) →
      (∀ lane < 32, 32 * i + lane < threads → o.Running F program base c (32 * i + lane)
        (if lane ∈ l ∧ hasLane active lane = true then togo lane - 1 else togo lane) (S' lane) m')
      ∧ BlockMemory.Wrote (o.StoredBy threads c i) m m'
  | [], S, S', m, m', togo, _, _, h, hrun, _ => by
    cases h
    exact ⟨by simpa using hrun, .refl⟩
  | a :: l, S, S', m, m', togo, hnodup, hlt, h, hrun, hgo => by
    rw [List.nodup_cons] at hnodup
    rw [List.forall_mem_cons] at hlt hgo
    rw [stepLanes] at h
    by_cases ha : hasLane active a = true
    · obtain ⟨hthread, hne⟩ := hgo.1 ha
      obtain ⟨n, hn⟩ := Nat.exists_eq_succ_of_ne_zero hne
      have hstep := hrun a hlt.1 hthread
      rw [hn] at hstep
      obtain ⟨-, t, m₁, hstep, hnext, hwrote⟩ := hstep.step
      have hmod : (32 * i + a) % 32 = a := by have := hlt.1; omega
      rw [threadContext_lane hlt.1, hmod] at hstep
      rw [if_pos ha, hstep] at h
      have hothers : ∀ lane < 32, 32 * i + lane < threads →
          o.Running F program base c (32 * i + lane) (Function.update togo a n lane)
            (Function.update S a t lane) m₁ := by
        intro lane hlane hu
        by_cases he : lane = a
        · subst he
          rw [Function.update_self, Function.update_self]
          exact hnext
        · rw [Function.update_of_ne he, Function.update_of_ne he]
          exact (hrun lane hlane hu).wrote hwrote (hs.unseen hc hthread hu (by omega))
      obtain ⟨hrest, hwrote'⟩ := stepLanes_running hs hc l hnodup.2 hlt.2 h hothers
        fun lane hmem hl => by
          rw [Function.update_of_ne (by rintro rfl; exact hnodup.1 hmem)]
          exact hgo.2 lane hmem hl
      refine ⟨fun lane hlane hu => ?_, (hwrote.mono fun space x hx => ?_).trans hwrote'⟩
      · have := hrest lane hlane hu
        by_cases he : lane = a
        · subst he
          rw [if_neg (fun hm => hnodup.1 hm.1), Function.update_self] at this
          rwa [if_pos ⟨List.mem_cons_self, ha⟩, hn]
        · rw [Function.update_of_ne he] at this
          simpa only [List.mem_cons, he, false_or] using this
      · exact ⟨a, hlt.1, hthread, hx⟩
    · rw [if_neg ha] at h
      obtain ⟨hrest, hwrote⟩ := stepLanes_running hs hc l hnodup.2 hlt.2 h hrun hgo.2
      refine ⟨fun lane hlane hu => ?_, hwrote⟩
      have := hrest lane hlane hu
      by_cases he : lane = a
      · subst he
        rw [if_neg fun h => ha h.2] at this ⊢
        exact this
      · simpa only [List.mem_cons, he, false_or] using this

theorem issue_issued {j : Instruction} (hop : j.opcode ≠ .barSync)
    (hok : Warp.isMemoryOpcode j.opcode = true → ∀ lane, hasLane (w.execMask j) lane = true →
      ¬Warp.LaneFaults w m j lane) :
    ∃ w' m', w.issue F BlockMemory.port j m = (.ok .issued, w', m') := by
  rcases LaneState.opcode_cases j.opcode with halu | hmem | hcase | hcase | hcase
  · exact ⟨_, _, Warp.issue_alu F BlockMemory.port halu w m⟩
  · obtain ⟨r, w₁, m₁, haccess, hordered⟩ := Warp.memoryAccess_ordered j (w.execMask j)
      { w with lastExec := w.execMask j, lastOpcode := j.opcode } m
    rw [Warp.issue_memory F BlockMemory.port hmem, haccess, (hordered.done (hok hmem)).1]
    exact ⟨_, _, rfl⟩
  · exact ⟨_, _, by rw [Warp.issue, hcase]⟩
  · exact ⟨_, _, by rw [Warp.issue, hcase]⟩
  · exact absurd hcase hop

theorem wrote_announce (P : Space → Word → Prop) (j : Instruction) (w : Warp) (m : BlockMemory) :
    BlockMemory.Wrote P m (Warp.announce BlockMemory.port j w m) := by
  rw [Warp.announce]
  split_ifs with h
  · obtain ⟨d, hd⟩ := Warp.onWarpAccess_addStats (Warp.accessSpace j.opcode)
      (Warp.isStore j.opcode) (w.accessAddresses j (w.execMask j)) (w.execMask j)
    have hm := hd m
    rw [if_pos (bne_iff_ne.1 (Bool.and_eq_true_iff.1 h).2)] at hm
    rw [hm]
    exact BlockMemory.Wrote.refl.count d
  · exact .refl

/-- How many steps the warp has to its next barrier, or to its end. -/
def weight (togo : Nat → Nat) (w : Warp) : Nat :=
  if w.runnable then 1 + (lanes.map togo).sum else 0

variable (F program base threads o) in
/-- What settling leaves of a warp in the middle of an interval: lanes that have fallen off the end
have retired, the others are as they were. -/
structure SettledIn (c : Nat) (m : BlockMemory) (togo : Nat → Nat) (i : Nat) (w r : Warp) :
    Prop where
  partition : Partition r.toWarpState
  nesting : Warp.Nesting program r.toWarpState
  traced : Warp.Traced program (MeetsBefore program) r.toWarpState
  context : r.context = threadContext base (32 * i)
  parked : r.parked = false
  live : ∀ lane, hasLane r.live lane = true → hasLane w.live lane = true
  thread : ∀ lane, hasLane r.live lane = true → lane < 32 ∧ 32 * i + lane < threads
  running : ∀ lane < 32, 32 * i + lane < threads →
    o.Running F program base c (32 * i + lane) (togo lane) (r.laneState lane) m

variable (F program base threads o) in
/-- A warp that is about to issue, in the middle of an interval. -/
structure Issuing (c : Nat) (m : BlockMemory) (togo : Nat → Nat) (i : Nat) (w : Warp)
    (j : Instruction) (r : Warp) : Prop extends
    o.SettledIn F program base threads c m togo i w r where
  settle : w.settle program = .ready j r
  at_ : program[r.pc.toNat]? = some j
  resolved : r.resolveIteration = .inr true

theorem WarpIn.settled (hs : o.Sound F program base threads)
    (h : o.WarpIn F program base threads c m togo i w) (hrun : w.runnable = true) {r : Warp}
    (hset : Warp.Settling program w r) (hp : Partition r.toWarpState)
    (hn : Warp.Nesting program r.toWarpState)
    (ht : Warp.Traced program (MeetsBefore program) r.toWarpState) (hparked : r.parked = w.parked) :
    o.SettledIn F program base threads c m togo i w r := by
  have hawake := (Scheduler.runnable_iff.1 hrun).2
  refine ⟨hp, hn, ht, hset.context.trans h.context, hparked.trans hawake,
    fun lane hl => (hset.keeps lane hl).1, fun lane hl => ?_, fun lane hlane hu => ?_⟩
  · by_contra hout
    have hlive := (hset.keeps lane hl).1
    rw [h.outside lane hout] at hlive
    cases hlive
  · have hrunning := h.unparked hawake lane hlane hu
    rcases Warp.settling_keeps_or_ended hset h.partition hp lane with hkeep | ⟨hended, hretired⟩
    · rwa [hkeep]
    · rw [hretired]
      exact hrunning.retire hs hended rfl

/-- A warp in the middle of an interval is about to issue, or none of its lanes has an instruction
left. -/
theorem WarpIn.settle (hs : o.Sound F program base threads)
    (h : o.WarpIn F program base threads c m togo i w) (hrun : w.runnable = true) :
    (∃ r, w.settle program = .finished r ∧ r.finished = true
      ∧ o.SettledIn F program base threads c m togo i w r)
    ∨ ∃ j r, o.Issuing F program base threads c m togo i w j r := by
  have hinv := Warp.settle_invariants h.partition h.nesting h.traced
  have hset := Warp.settle_settling program w h.partition
  have hparked := Warp.settle_parked program w
  have hmicro := Warp.settle_micro F program w
  rcases hsettle : w.settle program with r | ⟨j, r⟩ <;> rw [hsettle] at hinv hset hparked hmicro
  · obtain ⟨hp, hn, ht⟩ := hinv
    refine .inl ⟨r, rfl, ?_, h.settled hs hrun hset hp hn ht hparked⟩
    obtain ⟨hz, hstack⟩ := Warp.resolveIteration_finished hmicro.2
    rw [(Warp.active_eq_live hp).2 hstack] at hz
    rw [WarpState.finished, hz]
    rfl
  · obtain ⟨hp, hn, ht, hready, hj⟩ := hinv
    exact .inr ⟨j, r, h.settled hs hrun hset hp hn ht hparked, hsettle, hj, hready⟩

section Issue

variable {j : Instruction} {r : Warp}

theorem Issuing.active (hs : o.Sound F program base threads)
    (h : o.Issuing F program base threads c m togo i w j r) {lane : Nat}
    (ha : hasLane r.active lane = true) : lane < 32 ∧ 32 * i + lane < threads
      ∧ (r.laneState lane).pc = some r.pc
      ∧ (togo lane = 0 → j.opcode = .barSync ∧ c < o.barriers
        ∧ o.entry (c + 1) (32 * i + lane) ((r.laneState lane).moveTo (r.pc + 1))
        ∧ o.Stored c (32 * i + lane) m)
      ∧ (togo lane ≠ 0 → j.opcode ≠ .barSync) := by
  have hpc : r.ownPc lane = some r.pc := Warp.ownPc_active ha
  have hlive : hasLane r.live lane = true := by
    rw [← Warp.ownPc_isSome h.partition, hpc]
    rfl
  obtain ⟨hlane, ht⟩ := h.thread lane hlive
  obtain ⟨h0, h1⟩ := (h.running lane hlane ht).instruction hs hpc h.at_
  exact ⟨hlane, ht, hpc, h0, h1⟩

/-- A split only ever happens at a branch whose lanes meet before a barrier. -/
theorem Issuing.split (hs : o.Sound F program base threads)
    (h : o.Issuing F program base threads c m togo i w j r) (hsplit : Warp.Splits j r) :
    MeetsBefore program r.pc j := by
  obtain ⟨hbra, hguard, htaken, hfall⟩ := hsplit
  have hallowed : ∀ lane, hasLane r.active lane = true →
      MeetsBefore program r.pc j ∨ (r.laneState lane).guardHolds j = o.outcome c r.pc := by
    intro lane ha
    obtain ⟨hlane, ht, hpc, h0, -⟩ := h.active hs ha
    obtain ⟨n, hn⟩ := Nat.exists_eq_succ_of_ne_zero (fun hz => by
      rw [(h0 hz).1] at hbra
      cases hbra)
    have hrun := h.running lane hlane ht
    rw [hn] at hrun
    exact hrun.step.1.branch r.pc j hpc h.at_ hbra hguard
  obtain ⟨a, ha⟩ := mask_ne_zero.1 htaken
  obtain ⟨b, hb⟩ := mask_ne_zero.1 hfall
  rw [hasLane_and_not] at hb
  rw [Warp.execMask_guardHolds] at ha hb
  obtain ⟨ha, hga⟩ := Bool.and_eq_true_iff.1 ha
  obtain ⟨hb, hgb⟩ := Bool.and_eq_true_iff.1 hb
  rw [hb, Bool.true_and, Bool.not_eq_true'] at hgb
  rcases hallowed a ha with hmeet | hout
  · exact hmeet
  · rcases hallowed b hb with hmeet | hout'
    · exact hmeet
    · rw [hga] at hout
      rw [hgb, ← hout] at hout'
      cases hout'

/-- A warp that comes to a barrier comes there with every lane it began with. -/
theorem Issuing.together (hs : o.Sound F program base threads)
    (h : o.Issuing F program base threads c m togo i w j r) (hop : j.opcode = .barSync) :
    r.stack = [] := by
  obtain ⟨hactive, -⟩ := Warp.resolveIteration_settled h.resolved
  by_contra hne
  obtain ⟨e, rest, hstack⟩ := List.exists_cons_of_ne_nil hne
  have hmem : e ∈ r.stack := by rw [hstack]; exact List.mem_cons_self
  obtain ⟨b, k, hmeets, hrec, hcase⟩ := h.traced.current hactive e hmem
  obtain ⟨hsome, hwalks⟩ := hmeets r.pc.toNat j h.at_ hop
  rw [hrec] at hsome hwalks
  rw [pcVertex_of_some h.at_] at hcase
  rcases hcase with hno | hat | ⟨l, hwalk, havoid⟩
  · exact hsome hno
  · refine Warp.ready_ne hs.annotated h.nesting h.resolved h.at_ e hmem ?_
    rw [← hat, pcVertex_of_some h.at_]
  · exact havoid (hwalks l hwalk)

/-- What a step of a warp in the middle of an interval comes to. -/
structure Stepped (F : FloatOps) (program : List Instruction) (base : LaneContext) (threads : Nat)
    (o : Outline) (c : Nat) (m : BlockMemory) (togo : Nat → Nat) (i : Nat) (w : Warp)
    (outcome : StepOutcome) (togo' : Nat → Nat) (w' : Warp) (m' : BlockMemory) : Prop where
  step : w.step F BlockMemory.port program m = (.ok outcome, w', m')
  inside : o.WarpIn F program base threads c m' togo' i w'
  wrote : BlockMemory.Wrote (o.StoredBy threads c i) m m'
  less : weight togo' w' < weight togo w

theorem Issuing.masks (hs : o.Sound F program base threads)
    (hw : o.WarpIn F program base threads c m togo i w)
    (h : o.Issuing F program base threads c m togo i w j r) {outcome : StepOutcome}
    (hstep : w.step F BlockMemory.port program m = (.ok outcome, w', m')) :
    Partition w'.toWarpState ∧ Warp.Nesting program w'.toWarpState
      ∧ Warp.Traced program (MeetsBefore program) w'.toWarpState
      ∧ w'.context = threadContext base (32 * i) := by
  have hrun : Warp.MicroRun F program w (w.step F BlockMemory.port program m).2.1 :=
    Warp.step_micro BlockMemory.port w m
  have hmasks := Warp.micro_invariant
    (P := fun w => Partition w.toWarpState ∧ Warp.Nesting program w.toWarpState)
    (fun _ _ hp hm => ⟨Warp.partition_micro hp.1 hm, Warp.nesting_micro hs.annotated hp.1 hp.2 hm⟩)
    hrun ⟨hw.partition, hw.nesting⟩
  have htraced := Warp.traced_step (F := F) hs.annotated BlockMemory.port (m := m) hw.partition
    hw.nesting hw.traced (fun _ _ hb => hb) fun j' r' hsettle hsplit => by
      rw [h.settle, Warp.Settled.ready.injEq] at hsettle
      obtain ⟨rfl, rfl⟩ := hsettle
      exact h.split hs hsplit
  have hcontext := (Warp.microRun_context hrun).trans hw.context
  rw [hstep] at hmasks htraced hcontext
  exact ⟨hmasks.1, hmasks.2, htraced, hcontext⟩

theorem Issuing.barrier (hs : o.Sound F program base threads)
    (hw : o.WarpIn F program base threads c m togo i w) (hrun : w.runnable = true)
    (h : o.Issuing F program base threads c m togo i w j r) (hop : j.opcode = .barSync) :
    ∃ w', o.Stepped F program base threads c m togo i w .barrier togo w' m := by
  have hall : r.active = r.live := (Warp.active_eq_live h.partition).2 (h.together hs hop)
  have hstep : w.step F BlockMemory.port program m = (.ok .barrier,
      ({ r with lastExec := r.execMask j, lastOpcode := j.opcode, parked := true } : Warp).advance,
      m) := by
    rw [Warp.step, h.settle]
    simp only [Warp.issue, hop, hall, ne_eq, not_true_eq_false, if_false]
  obtain ⟨hp, hn, ht, hcontext⟩ := h.masks hs hw hstep
  have hzero : ∀ lane, hasLane r.active lane = true → togo lane = 0 := by
    intro lane ha
    obtain ⟨-, -, -, -, h1⟩ := h.active hs ha
    by_contra hne
    exact h1 hne hop
  obtain ⟨a, ha⟩ := mask_ne_zero.1 (Warp.resolveIteration_settled h.resolved).1
  obtain ⟨-, -, -, h0, -⟩ := h.active hs ha
  have hmore := (h0 (hzero a ha)).2.1
  refine ⟨_, hstep, ⟨hp, hn, ht, hcontext, fun lane hout => ?_, ?_, ?_⟩, .refl, ?_⟩
  · by_contra hlive
    exact hout (h.thread lane (eq_true_of_ne_false hlive))
  · intro hparked
    cases hparked
  · intro _ lane hlane hu
    have hlive : hasLane r.active lane = true := by
      rw [hall]
      by_contra hdead
      have hended : (r.laneState lane).ended program = true :=
        Warp.ended_of_dead h.partition (eq_false_of_ne_true hdead)
      exact Nat.not_le.2 hmore ((h.running lane hlane hu).retired hs hended).2.1
    obtain ⟨-, -, hpc, h0, -⟩ := h.active hs hlive
    obtain ⟨-, -, hentry, hstored⟩ := h0 (hzero lane hlive)
    let parked : Warp :=
      { r with lastExec := r.execMask j, lastOpcode := j.opcode, parked := true }
    have hstate := Warp.laneState_advance (r := r) (show parked.pc = r.pc from rfl)
      ⟨rfl, rfl, rfl⟩ lane
    rw [if_pos hlive] at hstate
    rw [hstate]
    exact ⟨hmore, rfl, hentry, hstored⟩
  · rw [weight, weight, if_pos hrun, if_neg (by simp [WarpState.runnable, Warp.advance])]
    omega

theorem Issuing.issue (hs : o.Sound F program base threads) (hc : c ≤ o.barriers)
    (hw : o.WarpIn F program base threads c m togo i w) (hrun : w.runnable = true)
    (h : o.Issuing F program base threads c m togo i w j r) (hop : j.opcode ≠ .barSync) :
    ∃ togo' w' m', o.Stepped F program base threads c m togo i w .issued togo' w' m' := by
  have hgo : ∀ lane, hasLane r.active lane = true → togo lane ≠ 0 := by
    intro lane ha hz
    obtain ⟨-, -, -, h0, -⟩ := h.active hs ha
    exact hop (h0 hz).1
  have hok : Warp.isMemoryOpcode j.opcode = true → ∀ lane, hasLane (r.execMask j) lane = true →
      ¬Warp.LaneFaults r m j lane := by
    intro hmem lane hexec
    rw [Warp.execMask_guardHolds] at hexec
    obtain ⟨ha, hg⟩ := Bool.and_eq_true_iff.1 hexec
    obtain ⟨hlane, hu, hpc, -, -⟩ := h.active hs ha
    obtain ⟨n, hn⟩ := Nat.exists_eq_succ_of_ne_zero (hgo lane ha)
    have hlaneRun := h.running lane hlane hu
    rw [hn] at hlaneRun
    obtain ⟨-, s', m', hstep, -⟩ := hlaneRun.step
    rw [Warp.step_at hpc h.at_, if_pos hg, LaneState.execute_memory F _ _ hmem] at hstep
    rcases haccess : (r.laneState lane).access BlockMemory.port j ((32 * i + lane) % 32) m with
      _ | y
    · rw [haccess] at hstep
      cases hstep
    · exact LaneState.not_faults_of_access haccess
  obtain ⟨w', m', hissue⟩ := issue_issued (F := F) hop hok
  have hstep : w.step F BlockMemory.port program m = (.ok .issued, w', m') := by
    rw [Warp.step, h.settle]
    exact hissue
  obtain ⟨hp, hn, ht, hcontext⟩ := h.masks hs hw hstep
  have hlanes := (Warp.issue_lanes h.partition h.at_ hissue).2
  rw [h.context] at hlanes
  have hannounce := wrote_announce (fun _ _ => False) j r m
  obtain ⟨hnext, hwrote⟩ := stepLanes_running hs hc lanes List.nodup_range
    (fun _ => mem_lanes.1) hlanes
    (fun lane hlane hu => (h.running lane hlane hu).wrote hannounce fun _ _ hf => hf.elim)
    fun lane _ ha => ⟨(h.active hs ha).2.1, hgo lane ha⟩
  have hparked : w'.parked = false := by
    rw [((Warp.step_parked hstep).2 (by decide)), (Scheduler.runnable_iff.1 hrun).2]
  refine ⟨_, w', m', hstep, ⟨hp, hn, ht, hcontext, fun lane hout => ?_, fun _ => hnext, ?_⟩,
    (hannounce.mono fun _ _ hf => hf.elim).trans hwrote, ?_⟩
  · have hnot : hasLane r.active lane = false := by
      by_contra ha
      obtain ⟨hlane, hu, -⟩ := h.active hs (by simpa using ha)
      exact hout ⟨hlane, hu⟩
    have hsame := stepLanes_frame lanes _ _ _ _ (fun _ => hnot) hlanes
    have hnone : r.ownPc lane = none := by
      refine Warp.ownPc_none h.partition ?_
      by_contra hlive
      exact hout (h.thread lane (eq_true_of_ne_false hlive))
    rw [← Warp.ownPc_isSome hp,
      show w'.ownPc lane = none from (congrArg LaneState.pc hsame).trans hnone]
    rfl
  · intro hparked'
    rw [hparked] at hparked'
    cases hparked'
  · obtain ⟨a, ha⟩ := mask_ne_zero.1 (Warp.resolveIteration_settled h.resolved).1
    have hmem := hasLane_mem_lanes ha
    have hlt : (lanes.map fun lane => if lane ∈ lanes ∧ hasLane r.active lane = true
        then togo lane - 1 else togo lane).sum < (lanes.map togo).sum := by
      refine List.sum_lt_sum _ _ (fun lane _ => ?_) ⟨a, hmem, ?_⟩
      · split_ifs
        · exact Nat.sub_le _ _
        · exact Nat.le_refl _
      · rw [if_pos ⟨hmem, ha⟩]
        have := hgo a ha
        omega
    rw [weight, weight, if_pos hrun]
    split_ifs
    · omega
    · omega

end Issue

theorem SettledIn.finish {r : Warp} (hr : o.SettledIn F program base threads c m togo i w r)
    (hrun : w.runnable = true) (hsettle : w.settle program = .finished r)
    (hfin : r.finished = true) :
    o.Stepped F program base threads c m togo i w .finished togo r m := by
  refine ⟨by rw [Warp.step, hsettle], ⟨hr.partition, hr.nesting, hr.traced, hr.context,
    fun lane hout => ?_, fun _ => hr.running, fun hparked => ?_⟩, .refl, ?_⟩
  · by_contra hlive
    exact hout (hr.thread lane (eq_true_of_ne_false hlive))
  · rw [hr.parked] at hparked
    cases hparked
  · have hnot : r.runnable = false := by
      rw [WarpState.runnable, hfin]
      rfl
    rw [weight, weight, if_pos hrun, hnot, if_neg Bool.false_ne_true]
    omega

/-- A warp in the middle of an interval takes its turn without a fault. -/
theorem WarpIn.step (hs : o.Sound F program base threads) (hc : c ≤ o.barriers)
    (h : o.WarpIn F program base threads c m togo i w) (hrun : w.runnable = true) :
    ∃ outcome togo' w' m', o.Stepped F program base threads c m togo i w outcome togo' w' m' := by
  rcases h.settle hs hrun with ⟨r, hsettle, hfin, hr⟩ | ⟨j, r, hissuing⟩
  · exact ⟨_, _, _, _, hr.finish hrun hsettle hfin⟩
  · by_cases hop : j.opcode = .barSync
    · obtain ⟨w', hstepped⟩ := hissuing.barrier hs h hrun hop
      exact ⟨_, _, _, _, hstepped⟩
    · obtain ⟨togo', w', m', hstepped⟩ := hissuing.issue hs hc h hrun hop
      exact ⟨_, _, _, _, hstepped⟩

end Warps

end Outline

end WarpSim
