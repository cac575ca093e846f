import WarpSim.Proofs.Intervals

/-!
# A block, interval after interval

The invariant of a block in the middle of an interval: every warp is, over the memory that the
interval's stores have made of the one it began with. The turns of an interval come to an end, its
last one with every warp parked or every warp finished, and a completed barrier begins the next.
-/

namespace WarpSim

namespace Outline

variable (F : FloatOps) (program : List Instruction) (base : LaneContext) (threads : Nat)
  (o : Outline)

/-- A block in an interval that began with the memory `m₀`. -/
structure Within (c : Nat) (m₀ : BlockMemory) (togo : Nat → Nat → Nat) (b : Block) : Prop where
  count : b.warps.length = (threads + 31) / 32
  more : c ≤ o.barriers
  memory : o.memory c m₀
  wrote : BlockMemory.Wrote (o.StoredIn threads c) m₀ b.memory
  warps : ∀ i w, b.warps[i]? = some w → o.WarpIn F program base threads c b.memory (togo i) i w

/-- How many steps the warps of a block have to the end of the interval. -/
def total (togo : Nat → Nat → Nat) (b : Block) : Nat :=
  ((List.range b.warps.length).map fun i => b.warps[i]?.elim 0 (weight (togo i))).sum

variable {F program base threads o} {c i : Nat} {m m₀ m' : BlockMemory} {togo : Nat → Nat → Nat}
  {b : Block} {w : Warp}

section Turns

theorem WarpIn.wrote (hs : o.Sound F program base threads) (hc : c ≤ o.barriers) {j : Nat}
    (hne : i ≠ j) {togo : Nat → Nat} (h : o.WarpIn F program base threads c m togo j w)
    (hw : BlockMemory.Wrote (o.StoredBy threads c i) m m') :
    o.WarpIn F program base threads c m' togo j w :=
  { h with
    unparked := fun hp lane hlane hu =>
      (h.unparked hp lane hlane hu).wrote hw (hs.unseen_warp hc hne hlane hu)
    parked := fun hp lane hlane hu =>
      (h.parked hp lane hlane hu).wrote hs hw (hs.unseen_warp hc hne hlane hu) }

theorem Within.turn (hs : o.Sound F program base threads)
    (h : o.Within F program base threads c m₀ togo b) (hwarp : b.warps[i]? = some w)
    (hrun : w.runnable = true) : ∃ outcome togo' w' m',
      w.step F BlockMemory.port program b.memory = (.ok outcome, w', m')
      ∧ o.Within F program base threads c m₀ togo' (b.after i outcome w' m')
      ∧ total togo' (b.after i outcome w' m') < total togo b := by
  obtain ⟨outcome, togo', w', m', hstep, hinside, hwrote, hless⟩ :=
    (h.warps i w hwarp).step hs h.more hrun
  have hlt := (List.getElem?_eq_some_iff.1 hwarp).1
  have hlen : (b.after i outcome w' m').warps.length = b.warps.length := List.length_set
  have hother : ∀ j ≠ i, (b.after i outcome w' m').warps[j]? = b.warps[j]? :=
    fun j hj => List.getElem?_set_ne (Ne.symm hj)
  have hself : (b.after i outcome w' m').warps[i]? = some w' := List.getElem?_set_self hlt
  refine ⟨outcome, Function.update togo i togo', w', m', hstep,
    ⟨hlen.trans h.count, h.more, h.memory, h.wrote.trans (hwrote.mono ?_), fun j v hv => ?_⟩, ?_⟩
  · rintro space a ⟨lane, -, hu, hst⟩
    exact ⟨_, hu, hst⟩
  · by_cases hj : j = i
    · subst hj
      rw [hself, Option.some.injEq] at hv
      rw [Function.update_self, ← hv]
      exact hinside
    · rw [hother j hj] at hv
      rw [Function.update_of_ne hj]
      exact (h.warps j v hv).wrote hs h.more (Ne.symm hj) hwrote
  · rw [total, total, hlen]
    refine List.sum_lt_sum _ _ (fun j _ => ?_) ⟨i, List.mem_range.2 hlt, ?_⟩
    · by_cases hj : j = i
      · subst hj
        rw [hself, hwarp, Function.update_self]
        exact Nat.le_of_lt hless
      · rw [hother j hj, Function.update_of_ne hj]
    · rw [hself, hwarp, Function.update_self]
      exact hless

end Turns

section Barriers

theorem Within.warp (h : o.Within F program base threads c m₀ togo b) {t : Nat}
    (ht : t < threads) : ∃ w, b.warps[t / 32]? = some w
      ∧ o.WarpIn F program base threads c b.memory (togo (t / 32)) (t / 32) w
      ∧ t % 32 < 32 ∧ 32 * (t / 32) + t % 32 = t := by
  have hlt : t / 32 < b.warps.length := by
    rw [h.count]
    omega
  have hw := List.getElem?_eq_getElem hlt
  exact ⟨_, hw, h.warps _ _ hw, Nat.mod_lt _ (by decide), by omega⟩

/-- A warp that waits or runs in an interval before the last is not finished, and the one that is
finished does not wait. -/
theorem WarpIn.live {togo : Nat → Nat} (hs : o.Sound F program base threads)
    (h : o.WarpIn F program base threads c m togo i w) (hi : 32 * i < threads) :
    (w.parked = true → w.finished = false ∧ c < o.barriers)
      ∧ (w.finished = true → o.barriers ≤ c ∧
        ∀ lane < 32, 32 * i + lane < threads → o.Stored c (32 * i + lane) m) := by
  have hpassed : w.parked = true → w.finished = false ∧ c < o.barriers := by
    intro hparked
    have h0 := h.parked hparked 0 (by decide) hi
    have hlive : hasLane w.live 0 = true := (Warp.ownPc_isSome h.partition 0).symm.trans h0.live
    refine ⟨?_, h0.more⟩
    rw [WarpState.finished, beq_eq_false_iff_ne]
    exact mask_ne_zero.2 ⟨0, hlive⟩
  refine ⟨hpassed, fun hfin => ?_⟩
  have hunparked : w.parked = false := by
    by_contra hp
    rw [(hpassed (by simpa using hp)).1] at hfin
    cases hfin
  have hretired : ∀ lane < 32, 32 * i + lane < threads →
      o.barriers ≤ c ∧ o.Stored c (32 * i + lane) m := by
    intro lane hlane hu
    refine ((h.unparked hunparked lane hlane hu).retired hs (Warp.ended_of_dead h.partition ?_)).2
    rw [eq_of_beq (show (w.live == 0) = true from hfin)]
    exact hasLane_zero lane
  exact ⟨(hretired 0 (by decide) hi).1, fun lane hlane hu => (hretired lane hlane hu).2⟩

theorem Within.index (h : o.Within F program base threads c m₀ togo b) {i : Nat} {w : Warp}
    (hw : b.warps[i]? = some w) : 32 * i < threads := by
  have hlt := (List.getElem?_eq_some_iff.1 hw).1
  rw [h.count] at hlt
  omega

theorem Within.finished (hs : o.Sound F program base threads)
    (h : o.Within F program base threads c m₀ togo b) (hfin : b.anyUnfinished = false)
    (hthreads : 0 < threads) :
    c = o.barriers ∧ ∀ t < threads, o.Stored c t b.memory := by
  have hall : ∀ (i : Nat) (w : Warp), b.warps[i]? = some w → w.finished = true := by
    intro i w hw
    have := List.any_eq_false.1 hfin w (List.mem_of_getElem? hw)
    simpa using this
  have hthread : ∀ t < threads, o.barriers ≤ c ∧ o.Stored c t b.memory := by
    intro t ht
    obtain ⟨w, hw, hin, hlane, heq⟩ := h.warp ht
    obtain ⟨hle, hstored⟩ := (hin.live hs (h.index hw)).2 (hall _ w hw)
    have := hstored _ hlane (heq.trans_lt ht)
    rw [heq] at this
    exact ⟨hle, this⟩
  exact ⟨Nat.le_antisymm h.more (hthread 0 hthreads).1, fun t ht => (hthread t ht).2⟩

theorem Within.together (hs : o.Sound F program base threads)
    (h : o.Within F program base threads c m₀ togo b) (hunf : b.anyUnfinished = true)
    (hparked : b.allParked = true) :
    c < o.barriers ∧ ∀ (i : Nat) (w : Warp), b.warps[i]? = some w → w.parked = true := by
  have hall : ∀ (i : Nat) (w : Warp), b.warps[i]? = some w →
      w.finished = true ∨ w.parked = true := by
    intro i w hw
    have := List.all_eq_true.1 hparked w (List.mem_of_getElem? hw)
    simpa using this
  obtain ⟨w₁, hw₁, hlive⟩ := List.any_eq_true.1 hunf
  obtain ⟨k, hk⟩ := List.mem_iff_getElem?.1 hw₁
  have hmore : c < o.barriers := by
    rcases hall k w₁ hk with hf | hp
    · rw [hf] at hlive
      cases hlive
    · exact (((h.warps k w₁ hk).live hs (h.index hk)).1 hp).2
  refine ⟨hmore, fun i w hw => (hall i w hw).resolve_left fun hf => ?_⟩
  exact absurd (((h.warps i w hw).live hs (h.index hw)).2 hf).1 (Nat.not_le.2 hmore)

theorem Within.release (hs : o.Sound F program base threads)
    (h : o.Within F program base threads c m₀ togo b) (hunf : b.anyUnfinished = true)
    (hparked : b.allParked = true) :
    ∃ togo', o.Within F program base threads (c + 1) b.memory togo' b.release := by
  obtain ⟨hmore, hall⟩ := h.together hs hunf hparked
  have hpassed : ∀ t < threads, ∃ w, b.warps[t / 32]? = some w
      ∧ o.Passed c t (w.laneState (t % 32)) b.memory := by
    intro t ht
    obtain ⟨w, hw, hin, hlane, heq⟩ := h.warp ht
    refine ⟨w, hw, ?_⟩
    have := hin.parked (hall _ w hw) _ hlane (heq.trans_lt ht)
    rwa [heq] at this
  have hmemory := hs.next c hmore m₀ b.memory h.memory h.wrote fun t ht => by
    obtain ⟨w, -, hp⟩ := hpassed t ht
    exact hp.stored
  have hrun : ∀ i lane, ∃ n, ∀ w, b.warps[i]? = some w → lane < 32 → 32 * i + lane < threads →
      o.Running F program base (c + 1) (32 * i + lane) n (w.laneState lane) b.memory := by
    intro i lane
    rcases hw : b.warps[i]? with _ | w
    · exact ⟨0, fun w hw' => by cases hw'⟩
    · by_cases hu : lane < 32 ∧ 32 * i + lane < threads
      · have hp := (h.warps i w hw).parked (hall i w hw) lane hu.1 hu.2
        obtain ⟨n, x, hleads, hends⟩ :=
          hs.run (c + 1) hmore _ hu.2 (w.laneState lane) b.memory hmemory hp.entry
        refine ⟨n, fun v hv _ _ => ?_⟩
        rw [Option.some.injEq] at hv
        subst hv
        exact ⟨b.memory, x, hleads, hends, .refl _ _⟩
      · exact ⟨0, fun _ _ h1 h2 => absurd ⟨h1, h2⟩ hu⟩
  choose togo' htogo' using hrun
  refine ⟨togo', (List.length_map _).trans h.count, hmore, hmemory, .refl, fun i v hv => ?_⟩
  rw [Block.release, List.getElem?_map, Option.map_eq_some_iff] at hv
  obtain ⟨w, hw, rfl⟩ := hv
  have hin := h.warps i w hw
  have hmicro : Warp.MicroStep F program w { w with parked := false } := .release w
  exact ⟨Warp.partition_micro hin.partition hmicro,
    Warp.nesting_micro hs.annotated hin.partition hin.nesting hmicro,
    hin.traced.same rfl hin.traced.current, hin.context, hin.outside,
    fun _ lane hlane hu => htogo' i lane w hw hlane hu, fun hparked => by cases hparked⟩

end Barriers

section Runs

variable {s : Scheduler} {log : List Event}

theorem Within.advance (hs : o.Sound F program base threads)
    (h : o.Within F program base threads c m₀ togo s.toBlock) (hphase : Scheduler.Phase log s)
    (hmore : s.warps[s.next]? = none → s.anyUnfinished = true ∧ s.allParked = false) :
    ∃ event s' togo', s.advance F program = .running event s'
      ∧ Scheduler.completions [event] = 0
      ∧ o.Within F program base threads c m₀ togo' s'.toBlock
      ∧ s'.rankOf (total togo' s'.toBlock) < s.rankOf (total togo s.toBlock) := by
  rcases hnext : s.warps[s.next]? with _ | w
  · obtain ⟨hunf, hparked⟩ := hmore hnext
    have hadv : s.advance F program = .running .passed s.newPass := by
      simp only [Scheduler.advance, hnext, hunf, hparked, hphase.progress hnext hparked,
        Bool.not_true, Bool.false_eq_true, if_false]
    refine ⟨_, _, togo, hadv, rfl, h, Scheduler.rankOf_advance (Nat.le_refl _) ?_ hadv⟩
    intro warp hwarp
    rw [hnext] at hwarp
    cases hwarp
  · by_cases hrun : w.runnable = true
    · obtain ⟨outcome, togo', w', m', hstep, hwithin, hless⟩ := h.turn hs hnext hrun
      have hadv : s.advance F program = .running (.stepped s.next outcome (w.accesses program))
          { toBlock := s.after s.next outcome w' m', next := s.next + 1, anyRunnable := true } := by
        simp only [Scheduler.advance, hnext, hrun, Block.turn_ok hstep, Bool.not_true,
          Bool.false_eq_true, if_false]
      exact ⟨_, _, togo', hadv, rfl, hwithin,
        Scheduler.rankOf_advance (Nat.le_of_lt hless) (fun _ _ _ => hless) hadv⟩
    · have hadv : s.advance F program
          = .running (.skipped s.next) { s with next := s.next + 1 } := by
        simp only [Scheduler.advance, hnext, hrun, Bool.not_false, if_true]
      refine ⟨_, _, togo, hadv, rfl, h, Scheduler.rankOf_advance (Nat.le_refl _) ?_ hadv⟩
      intro warp hwarp hrun'
      rw [hnext, Option.some.injEq] at hwarp
      exact absurd (hwarp ▸ hrun') hrun

/-- An interval comes to the end of a pass with every warp parked or every warp finished. -/
theorem Within.interval (hs : o.Sound F program base threads) {togo : Nat → Nat → Nat}
    (h : o.Within F program base threads c m₀ togo s.toBlock) (hphase : Scheduler.Phase log s) :
    ∃ log' s' togo', Scheduler.Run F program s log' s' ∧ Scheduler.completions log' = 0
      ∧ Scheduler.Phase (log ++ log') s'
      ∧ o.Within F program base threads c m₀ togo' s'.toBlock
      ∧ s'.warps[s'.next]? = none ∧ (s'.anyUnfinished = false ∨ s'.allParked = true) := by
  generalize hn : s.rankOf (total togo s.toBlock) = n
  induction n using Nat.strongRecOn generalizing s log togo with
  | _ n ih =>
    by_cases hend : s.warps[s.next]? = none ∧ (s.anyUnfinished = false ∨ s.allParked = true)
    · exact ⟨[], s, togo, .nil s, rfl, by rwa [List.append_nil], h, hend⟩
    · have hmore : s.warps[s.next]? = none → s.anyUnfinished = true ∧ s.allParked = false := by
        intro hnone
        have hor : ¬(s.anyUnfinished = false ∨ s.allParked = true) := fun hor => hend ⟨hnone, hor⟩
        rwa [not_or, Bool.not_eq_false, Bool.not_eq_true] at hor
      obtain ⟨event, s₁, togo₁, hadv, hzero, hwithin, hrank⟩ := h.advance hs hphase hmore
      obtain ⟨log', s', togo', hrun, hzero', hphase', hrest⟩ :=
        ih _ (hn ▸ hrank) hwithin (Scheduler.phase_advance hphase hadv) rfl
      refine ⟨event :: log', s', togo', .cons hadv hrun, ?_, by rwa [List.append_cons], hrest⟩
      rw [Scheduler.completions, List.countP_cons] at *
      omega

/-- A block in an interval completes the barriers that are left, and returns with what the threads
stored in the last interval. -/
theorem Within.returns (hs : o.Sound F program base threads) (hthreads : 0 < threads) :
    ∀ (k : Nat) {c : Nat} {m₀ : BlockMemory} {togo : Nat → Nat → Nat} {s : Scheduler}
      {log : List Event}, c + k = o.barriers →
    o.Within F program base threads c m₀ togo s.toBlock → Scheduler.Phase log s →
      ∃ log' s' b m₁, Scheduler.Run F program s log' s'
        ∧ s'.advance F program = .returned (.ok ()) b ∧ Scheduler.completions log' = k
        ∧ o.memory o.barriers m₁ ∧ BlockMemory.Wrote (o.StoredIn threads o.barriers) m₁ b.memory
        ∧ ∀ t < threads, o.Stored o.barriers t b.memory := by
  intro k
  induction k with
  | zero =>
    intro c m₀ togo s log hk h hphase
    obtain ⟨log', s', togo', hrun, hzero, -, hwithin, hend, hcase⟩ := h.interval hs hphase
    have hfin : s'.anyUnfinished = false := by
      by_contra hunf
      rw [Bool.not_eq_false] at hunf
      have hparked := hcase.resolve_left (by rw [hunf]; decide)
      have := (hwithin.together hs hunf hparked).1
      omega
    obtain ⟨rfl, hstored⟩ := hwithin.finished hs hfin hthreads
    refine ⟨log', s', s'.finish, m₀, hrun, ?_, hzero, hwithin.memory, hwithin.wrote, hstored⟩
    simp only [Scheduler.advance, hend, hfin, Bool.not_false, if_true]
  | succ k ih =>
    intro c m₀ togo s log hk h hphase
    obtain ⟨log', s', togo', hrun, hzero, hphase', hwithin, hend, hcase⟩ := h.interval hs hphase
    have hunf : s'.anyUnfinished = true := by
      by_contra hfin
      have := (hwithin.finished hs (by simpa using hfin) hthreads).1
      omega
    have hparked := hcase.resolve_left (by rw [hunf]; decide)
    have hadv : s'.advance F program = .running .released s'.release.newPass := by
      simp only [Scheduler.advance, hend, hunf, hparked, Bool.not_true, Bool.false_eq_true,
        if_false, if_true]
    obtain ⟨togo₁, hnext⟩ := hwithin.release hs hunf hparked
    obtain ⟨log₁, s₁, b, m₁, hrun₁, hret, hcount, hrest⟩ := ih (s := s'.release.newPass)
      (by omega) hnext (Scheduler.phase_advance hphase' hadv)
    refine ⟨log' ++ .released :: log₁, s₁, b, m₁, hrun.append (.cons hadv hrun₁), hret, ?_, hrest⟩
    rw [Scheduler.completions, List.countP_append, List.countP_cons] at *
    simp only [if_true]
    omega

end Runs

end Outline

end WarpSim
