import WarpSim.Device
import WarpSim.Proofs.Micro

/-!
# Barrier phases

Between two completions of the barrier every warp executes at most one `bar.sync` and then waits.
So the number a warp has executed is the number of completions, plus one while it is parked; it
stays behind only once the warp has retired. The count relation is kept by every action of the
scheduler, whatever the warps' steps do.
-/

namespace WarpSim

section Step

variable {F : FloatOps} {program : List Instruction}

/-- Only a barrier parks a warp, and not one that has finished. -/
theorem Warp.step_parked {σ : Type} {port : MemoryPort σ} {w w' : Warp} {m m' : σ}
    {outcome : StepOutcome} (h : w.step F port program m = (.ok outcome, w', m')) :
    (outcome = .barrier → w'.parked = true ∧ w'.finished = false)
      ∧ (outcome ≠ .barrier → w'.parked = w.parked) := by
  have hkeep := settle_parked program w
  have hsettle := settle_micro F program w
  rw [step] at h
  rcases hs : w.settle program with r | ⟨i, r⟩ <;> rw [hs] at h hkeep hsettle <;> simp only [] at h
  · cases h
    exact ⟨nofun, fun _ => hkeep⟩
  · have hout := issue_outcome F port i r m
    rw [h] at hout
    cases hout with
    | issued _ _ hparked => exact ⟨nofun, fun _ => hparked.trans hkeep⟩
    | barrier _ _ hparked hlive =>
      refine ⟨fun _ => ⟨hparked, ?_⟩, fun hb => absurd rfl hb⟩
      rw [WarpState.finished, hlive, beq_eq_false_iff_ne]
      exact (resolveIteration_settled hsettle.2.1).1

/-- A fault that the memory behind the port does not report is a divergent barrier. -/
theorem Warp.accessLanes_message {σ : Type} (port : MemoryPort σ) {P : String → Prop}
    (hload : ∀ space address lane m e, (port.load space address lane m).1 = .error e → P e.message)
    (hstore : ∀ space address value lane m e, (port.store space address value lane m).1 = .error e →
      P e.message) (i : Instruction) (exec : LaneMask) (addresses : Nat → Word) :
    ∀ (l : List Nat) (w : Warp) (m : σ) (f : Fault),
      (accessLanes port i exec addresses l w m).1 = .error f → P f.message
  | [], _, _, f, h => by cases h
  | lane :: l, w, m, f, h => by
    rw [accessLanes] at h
    split_ifs at h
    · exact accessLanes_message port hload hstore i exec addresses l w m f h
    · have hst :=
        hstore (accessSpace i.opcode) (addresses lane) (w.registers.read lane i.src1) lane m
      rcases hp : port.store (accessSpace i.opcode) (addresses lane) (w.registers.read lane i.src1)
        lane m with ⟨e | u, m'⟩ <;> rw [hp] at h hst <;> simp only [] at h
      · cases h
        exact hst e rfl
      · exact accessLanes_message port hload hstore i exec addresses l w m' f h
    · have hld := hload (accessSpace i.opcode) (addresses lane) lane m
      rcases hp : port.load (accessSpace i.opcode) (addresses lane) lane m with ⟨e | v, m'⟩ <;>
        rw [hp] at h hld <;> simp only [] at h
      · cases h
        exact hld e rfl
      · exact accessLanes_message port hload hstore i exec addresses l _ m' f h

/-- The texts of the faults of a block's memory. -/
def BlockMemory.messages : List String :=
  ["misaligned 32-bit access", "access out of bounds", "parameter ordinal out of range",
    "store to parameter space"]

theorem ByteMemory.check_message {m : ByteMemory} {address : Word} {lane : Nat} {e : AccessFault}
    (h : m.check address lane = .error e) : e.message ∈ BlockMemory.messages := by
  unfold ByteMemory.check at h
  split_ifs at h <;> cases h <;> simp [BlockMemory.messages]

theorem BlockMemory.load_message (space : Space) (address : Word) (lane : Nat) (m : BlockMemory)
    (e : AccessFault) (h : (m.load space address lane).1 = .error e) :
    e.message ∈ BlockMemory.messages := by
  have hbytes : ∀ b : ByteMemory, b.load32 address lane = .error e →
      e.message ∈ BlockMemory.messages := by
    intro b hb
    rw [ByteMemory.load32] at hb
    rcases hc : b.check address lane with e' | u <;> rw [hc] at hb
    · cases hb
      exact ByteMemory.check_message hc
    · cases hb
  cases space with
  | global => exact hbytes _ h
  | shared => exact hbytes _ h
  | param =>
    rw [BlockMemory.load] at h
    split at h <;> cases h
    simp [BlockMemory.messages]

theorem BlockMemory.store_message (space : Space) (address value : Word) (lane : Nat)
    (m : BlockMemory) (e : AccessFault) (h : (m.store space address value lane).1 = .error e) :
    e.message ∈ BlockMemory.messages := by
  have hbytes : ∀ b : ByteMemory, b.store32 address value lane = .error e →
      e.message ∈ BlockMemory.messages := by
    intro b hb
    rw [ByteMemory.store32] at hb
    rcases hc : b.check address lane with e' | u <;> rw [hc] at hb
    · cases hb
      exact ByteMemory.check_message hc
    · cases hb
  cases space with
  | global =>
    rw [BlockMemory.store] at h
    split at h <;> cases h
    exact hbytes _ ‹_›
  | shared =>
    rw [BlockMemory.store] at h
    split at h <;> cases h
    exact hbytes _ ‹_›
  | param =>
    cases h
    simp [BlockMemory.messages]

/-- A step faults with the text of a memory fault or of a divergent barrier. -/
theorem Warp.step_message {w : Warp} {m : BlockMemory} {f : Fault}
    (h : (w.step F BlockMemory.port program m).1 = .error f) :
    f.message ∈ "bar.sync executed in divergent code" :: BlockMemory.messages := by
  rw [step] at h
  rcases hs : w.settle program with r | ⟨i, r⟩ <;> rw [hs] at h <;> simp only [] at h
  · cases h
  refine List.mem_cons.2 ?_
  by_cases hop : isMemoryOpcode i.opcode = true
  · have hacc := accessLanes_message BlockMemory.port
      (fun space address lane m e => m.load_message space address lane e)
      (fun space address value lane m e => m.store_message space address value lane e)
      i (r.execMask i)
    rw [issue_memory F BlockMemory.port hop, memoryAccess] at h
    split at h
    · rename_i f' w' m' hr
      cases h
      exact .inr (hacc _ lanes _ _ f (congrArg Prod.fst hr))
    · cases h
  · unfold issue at h
    simp only [] at h
    split at h
    · cases h
    · cases h
    · split_ifs at h
      cases h
      exact .inl rfl
    iterate 5 simp_all [isMemoryOpcode]
    · cases h

end Step

namespace Scheduler

section Advance

variable (F : FloatOps) (program : List Instruction)

/-- What one action of the scheduler does when the loop goes on. -/
inductive Advance (s : Scheduler) : Event → Scheduler → Prop
  | skip (warp : Warp) (hwarp : s.warps[s.next]? = some warp) (hrun : warp.runnable = false) :
    Advance s (.skipped s.next) { s with next := s.next + 1 }
  | step (warp w' : Warp) (outcome : StepOutcome) (m' : BlockMemory)
      (hwarp : s.warps[s.next]? = some warp) (hrun : warp.runnable = true)
      (hstep : warp.step F BlockMemory.port program s.memory = (.ok outcome, w', m')) :
    Advance s (.stepped s.next outcome (warp.accesses program))
      { warps := s.warps.set s.next w'
        memory := m'
        stats := if outcome ≠ .finished then s.stats.countIssue w' else s.stats
        next := s.next + 1
        anyRunnable := true }
  | release (hend : s.warps[s.next]? = none) (hunfinished : s.anyUnfinished = true)
      (hparked : s.allParked = true) : Advance s .released s.release.newPass
  | pass (hend : s.warps[s.next]? = none) (hparked : s.allParked = false)
      (hrunnable : s.anyRunnable = true) : Advance s .passed s.newPass

variable {F program}

theorem advance_cases {s s' : Scheduler} {event : Event}
    (h : s.advance F program = .running event s') : Advance F program s event s' := by
  unfold advance at h
  split at h
  · rename_i warp hwarp
    split_ifs at h with hrun
    · cases h
      exact .skip warp hwarp (by simpa using hrun)
    · split at h
      · cases h
      · rename_i outcome b hturn
        cases h
        unfold Block.turn at hturn
        split at hturn
        · cases hturn
        · rename_i outcome' w' m' hstep
          cases hturn
          exact .step warp w' outcome m' hwarp (by simpa using hrun) hstep
  · rename_i hend
    split_ifs at h with h1 h2 h3
    · cases h
      exact .release hend (by simpa using h1) h2
    · cases h
      exact .pass hend (by simpa using h2) (by simpa using h3)

theorem advance_ok {s : Scheduler} {b : Block} (h : s.advance F program = .returned (.ok ()) b) :
    s.anyUnfinished = false ∧ b = s.finish := by
  unfold advance at h
  split at h
  · split_ifs at h
    split at h <;> cases h
  · split_ifs at h with h1
    · cases h
      exact ⟨by simpa using h1, rfl⟩
    · cases h

/-- What the steps below a warp's keep, an action of the scheduler keeps of every warp. -/
theorem warps_advance {P : Warp → Prop}
    (hmicro : ∀ w w', P w → Warp.MicroStep F program w w' → P w') {s s' : Scheduler} {event : Event}
    (h : ∀ w ∈ s.warps, P w) (hadv : s.advance F program = .running event s') :
    ∀ w ∈ s'.warps, P w := by
  cases advance_cases hadv with
  | skip => exact h
  | pass => exact h
  | step warp w' outcome m' hwarp hrun hstep =>
    intro w hw
    rcases List.mem_or_eq_of_mem_set hw with hw | rfl
    · exact h w hw
    · have hrun :
          Warp.MicroRun F program warp (warp.step F BlockMemory.port program s.memory).2.1 :=
        Warp.step_micro BlockMemory.port warp s.memory
      rw [hstep] at hrun
      exact Warp.micro_invariant hmicro hrun (h warp (List.mem_of_getElem? hwarp))
  | release =>
    intro w hw
    obtain ⟨v, hv, rfl⟩ := List.mem_map.1 hw
    exact hmicro v _ (h v hv) (.release v)

theorem warps_run {P : Warp → Prop} (hmicro : ∀ w w', P w → Warp.MicroStep F program w w' → P w')
    {s s' : Scheduler} {log : List Event} (hrun : Run F program s log s')
    (h : ∀ w ∈ s.warps, P w) : ∀ w ∈ s'.warps, P w := by
  induction hrun with
  | nil => exact h
  | cons hadv _ ih => exact ih (warps_advance hmicro h hadv)

theorem runnable_iff {w : WarpState} :
    w.runnable = true ↔ w.finished = false ∧ w.parked = false := by
  simp [WarpState.runnable]

/-- A property that every action keeps holds along every run. -/
theorem run_induction {P : List Event → Scheduler → Prop} {s s' : Scheduler} {log : List Event}
    (hrun : Run F program s log s')
    (hstep : ∀ log s event s', P log s → s.advance F program = .running event s' →
      P (log ++ [event]) s') (h : P [] s) : P log s' := by
  have hfrom : ∀ {s s' : Scheduler} {log : List Event}, Run F program s log s' →
      ∀ before, P before s → P (before ++ log) s' := by
    intro s s' log hrun
    induction hrun with
    | nil s => exact fun before hb => by rwa [List.append_nil]
    | cons hadv _ ih =>
      intro before hb
      rw [List.append_cons]
      exact ih _ (hstep before _ _ _ hb hadv)
  exact hfrom hrun [] h

end Advance

section Phase

variable {F : FloatOps} {program : List Instruction}

/-- The number of `bar.sync` instructions warp `i` has executed. -/
def barriersOf (i : Nat) (log : List Event) : Nat :=
  log.countP fun
    | .stepped warp .barrier _ => warp == i
    | _ => false

/-- The number of times the barrier has completed. -/
def completions (log : List Event) : Nat :=
  log.countP fun
    | .released => true
    | _ => false

@[simp] theorem barriersOf_append (i : Nat) (log : List Event) (event : Event) :
    barriersOf i (log ++ [event]) = barriersOf i log + barriersOf i [event] :=
  List.countP_append

@[simp] theorem completions_append (log : List Event) (event : Event) :
    completions (log ++ [event]) = completions log + completions [event] :=
  List.countP_append

theorem barriersOf_stepped (i warp : Nat) (outcome : StepOutcome) (accesses : List Access) :
    barriersOf i [.stepped warp outcome accesses]
      = if outcome = .barrier ∧ warp = i then 1 else 0 := by
  cases outcome <;> simp [barriersOf, List.countP_cons, beq_iff_eq]

/-- The count relation, and that the pass has noticed the runnable warps it has passed. -/
structure Phase (log : List Event) (s : Scheduler) : Prop where
  parked : ∀ i w, s.warps[i]? = some w → w.finished = false → w.parked = true →
    barriersOf i log = completions log + 1
  unparked : ∀ i w, s.warps[i]? = some w → w.finished = false → w.parked = false →
    barriersOf i log = completions log
  finished : ∀ i w, s.warps[i]? = some w → w.finished = true →
    barriersOf i log ≤ completions log
  noticed : ∀ i < s.next, ∀ w, s.warps[i]? = some w → w.runnable = true → s.anyRunnable = true

/-- An event that is neither a barrier nor a completion, and leaves the warps as they are. -/
theorem Phase.quiet {log : List Event} {s s' : Scheduler} {event : Event} (h : Phase log s)
    (hwarps : s'.warps = s.warps) (hb : ∀ i, barriersOf i [event] = 0)
    (hc : completions [event] = 0)
    (hnoticed : ∀ i < s'.next, ∀ w, s.warps[i]? = some w → w.runnable = true →
      s'.anyRunnable = true) : Phase (log ++ [event]) s' := by
  refine ⟨?_, ?_, ?_, by rw [hwarps]; exact hnoticed⟩ <;>
    simp only [hwarps, barriersOf_append, completions_append, hb, hc, Nat.add_zero]
  · exact h.parked
  · exact h.unparked
  · exact h.finished

theorem phase_advance {log : List Event} {s s' : Scheduler} {event : Event} (h : Phase log s)
    (hadv : s.advance F program = .running event s') : Phase (log ++ [event]) s' := by
  cases advance_cases hadv with
  | skip warp hwarp hrun =>
    refine h.quiet rfl (fun _ => rfl) rfl fun i hi w hw hr => ?_
    rcases Nat.lt_succ_iff_lt_or_eq.1 hi with hi | rfl
    · exact h.noticed i hi w hw hr
    · rw [hwarp] at hw
      cases hw
      rw [hrun] at hr
      cases hr
  | pass hend hparked hrunnable =>
    exact h.quiet rfl (fun _ => rfl) rfl fun i hi => absurd hi (Nat.not_lt_zero i)
  | step warp w' outcome m' hwarp hrun hstep =>
    obtain ⟨hfin, hpark⟩ := runnable_iff.1 hrun
    obtain ⟨hbarrier, hother⟩ := Warp.step_parked hstep
    have hcount := h.unparked _ warp hwarp hfin hpark
    have hlt := (List.getElem?_eq_some_iff.1 hwarp).1
    have hnew : ∀ i w, (s.warps.set s.next w')[i]? = some w →
        (i = s.next ∧ w = w') ∨ (i ≠ s.next ∧ s.warps[i]? = some w) := by
      intro i w hw
      rw [List.getElem?_set] at hw
      split_ifs at hw with h1
      · cases hw
        exact .inl ⟨h1.symm, rfl⟩
      · exact .inr ⟨Ne.symm h1, hw⟩
    have hcompl : completions [.stepped s.next outcome (warp.accesses program)] = 0 := rfl
    refine ⟨fun i w hw hf hp => ?_, fun i w hw hf hp => ?_, fun i w hw hf => ?_,
      fun _ _ _ _ _ => rfl⟩ <;>
      rw [barriersOf_append, completions_append, barriersOf_stepped, hcompl] <;>
      rcases hnew i w hw with ⟨rfl, rfl⟩ | ⟨hne, hw⟩
    · rw [if_pos, hcount]
      refine ⟨?_, rfl⟩
      by_contra ho
      rw [hother ho, hpark] at hp
      cases hp
    · rw [if_neg (fun hc => hne hc.2.symm)]
      exact h.parked i w hw hf hp
    · rw [if_neg, hcount]
      rintro ⟨ho, -⟩
      rw [(hbarrier ho).1] at hp
      cases hp
    · rw [if_neg (fun hc => hne hc.2.symm)]
      exact h.unparked i w hw hf hp
    · have hno : ¬(outcome = .barrier ∧ s.next = s.next) := by
        rintro ⟨ho, -⟩
        rw [(hbarrier ho).2] at hf
        cases hf
      rw [if_neg hno]
      exact Nat.le_of_eq hcount
    · rw [if_neg (fun hc => hne hc.2.symm)]
      exact h.finished i w hw hf
  | release hend hunfinished hparked =>
    have hold : ∀ (i : Nat) (w : Warp), s.release.warps[i]? = some w →
        ∃ w₀ : Warp, s.warps[i]? = some w₀ ∧ w = { w₀ with parked := false }
          ∧ (w₀.finished = true ∨ w₀.parked = true) := by
      intro i w hw
      rw [Block.release, List.getElem?_map, Option.map_eq_some_iff] at hw
      obtain ⟨w₀, hw₀, rfl⟩ := hw
      have hall := List.all_eq_true.1 hparked w₀ (List.mem_of_getElem? hw₀)
      exact ⟨w₀, hw₀, rfl, by simpa using hall⟩
    have hb : ∀ i, barriersOf i [.released] = 0 := fun _ => rfl
    have hc : completions [.released] = 1 := rfl
    refine ⟨fun i w hw _ hp => ?_, fun i w hw hf _ => ?_, fun i w hw hf => ?_,
      fun i hi => absurd hi (Nat.not_lt_zero i)⟩ <;>
      obtain ⟨w₀, hw₀, rfl, hwait⟩ := hold i w hw
    · cases hp
    · rw [barriersOf_append, completions_append, hb, hc]
      have hpark : w₀.parked = true := hwait.resolve_left (by
        intro hfin
        rw [show w₀.finished = false from hf] at hfin
        cases hfin)
      exact h.parked i w₀ hw₀ hf hpark
    · rw [barriersOf_append, completions_append, hb, hc]
      exact Nat.le_succ_of_le (h.finished i w₀ hw₀ hf)

end Phase

section Pass

variable {F : FloatOps} {program : List Instruction}

/-- The number of steps warp `i` has taken. -/
def stepsOf (i : Nat) (log : List Event) : Nat :=
  log.countP fun
    | .stepped warp _ _ => warp == i
    | _ => false

/-- Within a pass the warps take their turns in order, and a step is taken in the turn of each
warp that was runnable before it. -/
theorem stepsOf_pass {s s' : Scheduler} {log : List Event} (hrun : Run F program s log s')
    (hpass : ∀ event ∈ log, event ≠ .passed ∧ event ≠ .released) :
    s.next ≤ s'.next ∧ s'.warps.length = s.warps.length ∧ ∀ i w, s.warps[i]? = some w →
      stepsOf i log = if s.next ≤ i ∧ i < s'.next ∧ w.runnable = true then 1 else 0 := by
  induction hrun with
  | nil s =>
    refine ⟨Nat.le_refl _, rfl, fun i w _ => ?_⟩
    rw [if_neg (by omega)]
    rfl
  | @cons s s₁ s' event log hadv _ ih =>
    rw [List.forall_mem_cons] at hpass
    obtain ⟨hle, hlen, hrest⟩ := ih hpass.2
    have hcons : ∀ i, stepsOf i (event :: log) = stepsOf i [event] + stepsOf i log :=
      fun i => by rw [stepsOf, ← List.singleton_append, List.countP_append]; rfl
    cases advance_cases hadv with
    | release => exact absurd rfl hpass.1.2
    | pass => exact absurd rfl hpass.1.1
    | skip warp hwarp hrun =>
      simp only [] at hle hrest
      refine ⟨by omega, hlen, fun i w hw => ?_⟩
      have hskip : stepsOf i [.skipped s.next] = 0 := rfl
      rw [hcons, hrest i w hw, hskip, Nat.zero_add]
      by_cases hi : i = s.next
      · subst hi
        rw [hwarp] at hw
        cases hw
        rw [if_neg (by omega), if_neg (by simp [hrun])]
      · exact if_congr (and_congr_left fun _ => by omega) rfl rfl
    | step warp w' outcome m' hwarp hrun hstep =>
      simp only [] at hle hrest
      refine ⟨by omega, by simpa using hlen, fun i w hw => ?_⟩
      have hone : stepsOf i [.stepped s.next outcome (warp.accesses program)]
          = if s.next = i then 1 else 0 := by
        simp [stepsOf, List.countP_cons]
      rw [hcons, hone]
      by_cases hi : s.next = i
      · subst hi
        have hlt := (List.getElem?_eq_some_iff.1 hw).1
        rw [hrest s.next w' (by simp [hlt])]
        rw [hwarp] at hw
        cases hw
        rw [if_pos rfl, if_neg (by omega), if_pos ⟨Nat.le_refl _, by omega, hrun⟩]
      · rw [hrest i w (by rw [List.getElem?_set_ne hi]; exact hw), if_neg hi, Nat.zero_add]
        exact if_congr (and_congr_left fun _ => by omega) rfl rfl

end Pass

section Statement

variable {F : FloatOps} {program : List Instruction}

theorem phase_start (memory : BlockMemory) (base : LaneContext) (lanesInBlock : Word)
    (stats : LaunchStats) :
    Phase [] (Block.start memory base lanesInBlock stats).newPass := by
  have hparked : ∀ (i : Nat) (w : Warp),
      (Block.start memory base lanesInBlock stats).warps[i]? = some w →
      w.parked = false := by
    intro i w hw
    rw [Block.start, List.getElem?_map, Option.map_eq_some_iff] at hw
    obtain ⟨_, _, rfl⟩ := hw
    rfl
  refine ⟨fun i w hw _ hp => ?_, fun _ _ _ _ _ => rfl, fun _ _ _ _ => Nat.le_refl _,
    fun i hi => absurd hi (Nat.not_lt_zero i)⟩
  rw [hparked i w hw] at hp
  cases hp

/-- At the end of a pass, an unfinished warp that is not parked had its turn in it. -/
theorem Phase.progress {log : List Event} {s : Scheduler} (h : Phase log s)
    (hend : s.warps[s.next]? = none) (hparked : s.allParked = false) : s.anyRunnable = true := by
  rw [Block.allParked, List.all_eq_false] at hparked
  obtain ⟨w, hw, hwait⟩ := hparked
  obtain ⟨i, hlt, hi⟩ := List.mem_iff_getElem.1 hw
  have hi' : s.warps[i]? = some w := by rw [List.getElem?_eq_getElem hlt, hi]
  rw [List.getElem?_eq_none_iff] at hend
  exact h.noticed i (by omega) w hi' (by simpa [WarpState.runnable] using hwait)

/-- At every point of every run of a block: an unfinished warp has executed as many barriers as
have completed, and one more while it is parked, a finished one at most as many; the warp whose
turn it is has executed no barrier that an unfinished one has still to execute; a pass that ends
with all unfinished warps parked releases them; a pass steps every runnable warp once; and the
scheduler never finds itself without progress. -/
theorem barrier_phases (memory : BlockMemory) (base : LaneContext) (lanesInBlock : Word)
    (stats : LaunchStats) {log : List Event} {s : Scheduler}
    (hrun : Run F program (Block.start memory base lanesInBlock stats).newPass log s) :
    (∀ i w, s.warps[i]? = some w →
      (w.finished = false → w.parked = true → barriersOf i log = completions log + 1)
      ∧ (w.finished = false → w.parked = false → barriersOf i log = completions log)
      ∧ (w.finished = true → barriersOf i log ≤ completions log))
    ∧ (∀ warp, s.warps[s.next]? = some warp → warp.runnable = true →
        ∀ k ≤ barriersOf s.next log, ∀ j w, s.warps[j]? = some w →
          k ≤ barriersOf j log ∨ w.finished = true)
    ∧ (s.warps[s.next]? = none → s.anyUnfinished = true → s.allParked = true →
        ∃ s', s.advance F program = .running .released s' ∧ ∀ w ∈ s'.warps, w.parked = false)
    ∧ (s.next = 0 → ∀ log' s', Run F program s log' s' →
        (∀ event ∈ log', event ≠ .passed ∧ event ≠ .released) → s'.warps[s'.next]? = none →
        ∀ i w, s.warps[i]? = some w → stepsOf i log' = if w.runnable then 1 else 0)
    ∧ ∀ f b, s.advance F program = .returned (.error f) b →
        f.message ≠ "scheduler made no progress" := by
  have hphase := run_induction hrun (fun _ _ _ _ => phase_advance)
    (phase_start memory base lanesInBlock stats)
  refine ⟨fun i w hw => ⟨hphase.parked i w hw, hphase.unparked i w hw, hphase.finished i w hw⟩,
    fun warp hwarp hr k hk j w hw => ?_, fun hend hunf hparked => ?_,
    fun hnext log' s' hrun' hpass hend i w hw => ?_, fun f b hret => ?_⟩
  · obtain ⟨hf, hp⟩ := runnable_iff.1 hr
    rw [hphase.unparked _ warp hwarp hf hp] at hk
    by_cases hfin : w.finished = true
    · exact .inr hfin
    · rw [Bool.not_eq_true] at hfin
      left
      cases hpark : w.parked
      · exact (hphase.unparked j w hw hfin hpark).symm ▸ hk
      · have := hphase.parked j w hw hfin hpark
        omega
  · refine ⟨s.release.newPass, ?_, ?_⟩
    · simp only [advance, hend, hunf, hparked, Bool.not_true, Bool.false_eq_true, if_false, if_true]
    · intro w hw
      obtain ⟨w₀, _, rfl⟩ := List.mem_map.1 hw
      rfl
  · obtain ⟨-, hlen, hsteps⟩ := stepsOf_pass hrun' hpass
    have hi := (List.getElem?_eq_some_iff.1 hw).1
    rw [List.getElem?_eq_none_iff] at hend
    rw [hsteps i w hw]
    exact if_congr (by simp only [hnext]; exact ⟨fun h => h.2.2, fun h => ⟨by omega, by omega, h⟩⟩)
      rfl rfl
  · unfold advance at hret
    split at hret
    · split_ifs at hret
      rcases hturn : s.turn F program s.next _ with ⟨f' | outcome, b'⟩ <;> rw [hturn] at hret
      · cases hret
        unfold Block.turn at hturn
        split at hturn
        · rename_i hstep
          cases hturn
          have hmem := Warp.step_message (congrArg Prod.fst hstep)
          intro hmessage
          rw [hmessage] at hmem
          revert hmem
          decide
        · cases hturn
      · cases hret
    · rename_i hend
      split_ifs at hret with h1 h2 h3
      · cases hret
      · have := hphase.progress hend (by simpa using h2)
        simp [this] at h3

/-- Two warps that wait for each other, and exit. -/
def barrierProgram : List Instruction := [{ opcode := .barSync }, { opcode := .exit }]

/-- A block of 40 lanes running it. -/
def barrierBlock : Scheduler :=
  (Block.start ⟨⟨[]⟩, ⟨[]⟩, [], {}⟩ {} 40 {}).newPass

/-- After the first pass the second warp waits, and the barrier has not completed. -/
theorem barrierBlock_phase :
    barriersOf 1 (barrierBlock.runFor default barrierProgram 2).1
      = completions (barrierBlock.runFor default barrierProgram 2).1 + 1 :=
  ((barrier_phases ⟨⟨[]⟩, ⟨[]⟩, [], {}⟩ {} 40 {}
    (run_runFor default barrierProgram 2 barrierBlock)).1 1 _
    (List.getElem?_eq_getElem (by decide +kernel))).1 (by decide +kernel) (by decide +kernel)

example : (barrierBlock.runFor default barrierProgram 7).1.map (fun
    | .stepped warp _ _ => some warp
    | _ => none) = [some 0, some 1, none, some 0, some 1] := by
  decide +kernel

end Statement

end Scheduler

end WarpSim
