import WarpSim.Proofs.Nesting

/-!
# A barrier faults only off a reconvergence point

An entry is on the stack because an earlier branch of the run split. Until its lanes rejoin, the
warp runs on a path that leads on from that branch and has not come to the reconvergence PC. So a
barrier that meets a non-empty stack can be reached from the branch without passing through it.
-/

namespace WarpSim

namespace Warp

section History

/-- The branches that have split so far, each with the pc it is at. -/
abbrev History := Pc → Instruction → Prop

/-- From a branch that split and recorded `r`, a path comes to `x` before it comes to `r`, or
there is no `r` to come to. -/
def CameOff (program : List Instruction) (B : History) (r : Pc) (x : Option Nat) : Prop :=
  ∃ b i, B b i ∧ i.reconvergencePc = r ∧ (r = noReconvergence ∨ x = pcVertex program r
    ∨ ∃ l, Walk (Succ program) (pcVertex program b) l x ∧ pcVertex program r ∉ l)

/-- The active lanes and those of each entry came from the branches of the entries above which
they run or resume. -/
structure Traced (program : List Instruction) (B : History) (s : WarpState) : Prop where
  current : s.active ≠ 0 → ∀ e ∈ s.stack,
    CameOff program B e.reconvergencePc (pcVertex program s.pc)
  resume : ∀ e ∈ s.stack, CameOff program B e.reconvergencePc (pcVertex program e.resumePc)
  below : s.stack.Pairwise fun newer older =>
    CameOff program B older.reconvergencePc (pcVertex program newer.resumePc)

variable {F : FloatOps} {program : List Instruction} {B B' : History}

theorem CameOff.mono (hB : ∀ b i, B b i → B' b i) {r : Pc} {x : Option Nat}
    (h : CameOff program B r x) : CameOff program B' r x := by
  obtain ⟨b, i, hb, hr⟩ := h
  exact ⟨b, i, hB b i hb, hr⟩

theorem CameOff.arrived {r : Pc} {x : Option Nat} (h : CameOff program B r x) :
    CameOff program B r (pcVertex program r) := by
  obtain ⟨b, i, hb, hr, -⟩ := h
  exact ⟨b, i, hb, hr, .inr (.inl rfl)⟩

/-- One more edge, from where the reconvergence PC has not been reached. -/
theorem CameOff.next {r : Pc} {x y : Option Nat} (h : CameOff program B r x)
    (hne : pcVertex program r ≠ x) (hs : Succ program x y) : CameOff program B r y := by
  obtain ⟨b, i, hb, hr, hno | hx | ⟨l, w, hl⟩⟩ := h
  · exact ⟨b, i, hb, hr, .inl hno⟩
  · exact absurd hx.symm hne
  · by_cases hy : y = pcVertex program r
    · exact ⟨b, i, hb, hr, .inr (.inl hy)⟩
    · obtain ⟨m, hm, hmem⟩ := w.append (.cons hs (.nil y))
      refine ⟨b, i, hb, hr, .inr (.inr ⟨m, hm, fun hrm => ?_⟩)⟩
      rcases (hmem _).1 hrm with h | h
      · exact hl h
      · simp only [List.mem_cons, List.not_mem_nil, or_false] at h
        rcases h with h | h
        · exact hne h
        · exact hy h.symm

theorem Traced.mono (hB : ∀ b i, B b i → B' b i) {s : WarpState} (h : Traced program B s) :
    Traced program B' s :=
  ⟨fun ha e he => (h.current ha e he).mono hB, fun e he => (h.resume e he).mono hB,
    h.below.imp fun hb => hb.mono hB⟩

theorem Traced.same {s s' : WarpState} (h : Traced program B s) (hs : s'.stack = s.stack)
    (hcurrent : s'.active ≠ 0 → ∀ e ∈ s.stack,
      CameOff program B e.reconvergencePc (pcVertex program s'.pc)) : Traced program B s' := by
  refine ⟨?_, ?_, ?_⟩ <;> rw [hs]
  · exact hcurrent
  · exact h.resume
  · exact h.below

theorem traced_new (warpId : Word) (live : LaneMask) (context : LaneContext) :
    Traced program B (new warpId live context).toWarpState :=
  ⟨by simp [new], by simp [new], by simp [new]⟩

theorem traced_resolve {w w' : Warp} (ht : Traced program B w.toWarpState)
    (h : w.resolveIteration = .inl w') : Traced program B w'.toWarpState := by
  obtain ⟨hcurrent, hresume, hbelow⟩ := ht
  cases (resolveIteration_cases h).1 with
  | resume e hempty hs hactive hpc =>
    rw [hs] at hresume hbelow
    rw [List.pairwise_cons] at hbelow
    refine ⟨fun _ => ?_, fun e' he' => hresume e' (List.mem_cons_of_mem _ he'), hbelow.2⟩
    rw [hpc]
    exact hbelow.1
  | arrive e rest hne hs hat hdefer hs' hactive hpc =>
    have hcur := hcurrent hne
    rw [hs] at hresume hbelow hcur
    rw [List.forall_mem_cons] at hresume hcur
    rw [List.pairwise_cons] at hbelow
    refine ⟨fun _ => ?_, ?_, ?_⟩ <;> rw [hs']
    · rw [hpc]
      exact List.forall_mem_cons.2 ⟨hresume.1, hbelow.1⟩
    · exact List.forall_mem_cons.2 ⟨hresume.1.arrived, hresume.2⟩
    · refine List.pairwise_cons.2 ⟨?_, hbelow.2⟩
      rw [hat]
      exact hcur.2
  | join e hne hs hat hjoin hactive hpc =>
    have hcur := hcurrent hne
    rw [hs] at hresume hbelow hcur
    rw [List.pairwise_cons] at hbelow
    refine ⟨fun _ e' he' => ?_, fun e' he' => hresume e' (List.mem_cons_of_mem _ he'), hbelow.2⟩
    rw [hpc]
    exact hcur e' (List.mem_cons_of_mem _ he')

/-- Where a warp is about to issue, no entry of the stack rejoins at its pc. -/
theorem ready_ne (ha : Annotated program) {w : Warp} {i : Instruction}
    (hn : Nesting program w.toWarpState) (hready : w.resolveIteration = .inr true)
    (hi : program[w.pc.toNat]? = some i) :
    ∀ e ∈ w.stack, pcVertex program e.reconvergencePc ≠ pcVertex program w.pc := by
  obtain ⟨hactive, hsettled⟩ := resolveIteration_settled hready
  have htop : ∀ e rest, w.stack = e :: rest →
      pcVertex program e.reconvergencePc ≠ pcVertex program w.pc := by
    intro e rest hs heq
    exact hsettled e rest hs (eq_of_pcVertex hi heq)
  have horder := hn.order
  rcases hs : w.stack with _ | ⟨top, rest⟩
  · simp
  · rw [hs, List.pairwise_cons] at horder
    refine List.forall_mem_cons.2 ⟨htop top rest hs, fun e he heq => htop top rest hs ?_⟩
    -- The top entry would rejoin after the pc and before it.
    have hpd := horder.1 e he
    rw [OnEveryPath, heq] at hpd
    exact PostDom.antisymm (ha.escapes _ (hn.currentFrom hactive))
      (hn.current top (by rw [hs]; exact List.mem_cons_self)) hpd

theorem traced_effect (ha : Annotated program) {w w' : Warp} {i : Instruction}
    (hp : Partition w.toWarpState) (hn : Nesting program w.toWarpState)
    (ht : Traced program B w.toWarpState) (hready : w.resolveIteration = .inr true)
    (hi : program[w.pc.toNat]? = some i) (hB : ∀ b j, B b j → B' b j)
    (hsplit : Splits i w → B' w.pc i) (h : Effect i w w') : Traced program B' w'.toWarpState := by
  have hactive := (resolveIteration_settled hready).1
  have hne := ready_ne ha hn hready hi
  have ht := ht.mono hB
  have hnext : ∀ y, Succ program (pcVertex program w.pc) y → ∀ e ∈ w.stack,
      CameOff program B' e.reconvergencePc y :=
    fun y hs e he => (ht.current hactive e he).next (hne e he) hs
  cases h with
  | stay hpc hm =>
    refine ht.same hm.stack fun _ => ?_
    rw [hpc]
    exact ht.current hactive
  | move hpc hm => exact ht.same hm.stack fun _ => hnext _ (succ_of_next ha.length hi hpc)
  | exit hop hpc hm =>
    have hstack : w'.stack = w.stack := by
      rw [hm.stack]
      exact retire_stack hp fun _ => execMask_sub_active
    exact ht.same hstack fun hleft =>
      hnext _ (succ_of_next ha.length hi (next_of_exit hop hpc hm hleft))
  | split hop hg hpc hactive' hlive hstack htaken hfall =>
    have hmem := hsplit ⟨hop, hg, htaken, hfall⟩
    have hrec := ha.recorded hi hop hg (hn.currentFrom hactive)
    have hnew : ∀ pc', Next i w.pc pc' →
        CameOff program B' i.reconvergencePc (pcVertex program pc') := by
      intro pc' hpc'
      have hself : CameOff program B' i.reconvergencePc (pcVertex program w.pc) := by
        refine ⟨w.pc, i, hmem, rfl, .inr (.inr ⟨_, .nil _, ?_⟩)⟩
        rw [List.mem_singleton, pcVertex_of_some hi]
        exact hrec.immediate_ne
      refine hself.next ?_ (succ_of_next ha.length hi hpc')
      rw [pcVertex_of_some hi]
      exact hrec.immediate_ne
    have htarget : Next i w.pc i.branchTarget := by
      rw [Next, if_pos hop]
      exact .inl rfl
    have hfallThrough : Next i w.pc (w.pc + 1) := by
      rw [Next, if_pos hop]
      exact .inr ⟨hg, rfl⟩
    refine ⟨fun _ => ?_, ?_, ?_⟩ <;> rw [hstack]
    · rw [hpc]
      exact List.forall_mem_cons.2 ⟨hnew _ htarget, hnext _ (succ_of_next ha.length hi htarget)⟩
    · exact List.forall_mem_cons.2 ⟨hnew _ hfallThrough, ht.resume⟩
    · exact List.pairwise_cons.2
        ⟨hnext _ (succ_of_next ha.length hi hfallThrough), ht.below⟩

/-- The invariants of a warp hold of the warp that is about to issue. -/
theorem settle_invariants {w : Warp} (hp : Partition w.toWarpState)
    (hn : Nesting program w.toWarpState) (ht : Traced program B w.toWarpState) :
    match w.settle program with
    | .finished r => Partition r.toWarpState ∧ Nesting program r.toWarpState
      ∧ Traced program B r.toWarpState
    | .ready i r => Partition r.toWarpState ∧ Nesting program r.toWarpState
      ∧ Traced program B r.toWarpState ∧ r.resolveIteration = .inr true
      ∧ program[r.pc.toNat]? = some i := by
  have h := settle_induction program
    (P := fun r => Partition r.toWarpState ∧ Nesting program r.toWarpState
      ∧ Traced program B r.toWarpState)
    (fun _ _ hr h => ⟨partition_resolve hr.1 h, nesting_resolve hr.2.1 h, traced_resolve hr.2.2 h⟩)
    (fun r hr hit hpc => ⟨partition_retire hr.1 (fun _ hl => hl) ⟨rfl, rfl, rfl⟩,
      nesting_fall hr.1 hr.2.1 hit,
      hr.2.2.same (retire_stack hr.1 fun _ hl => hl) fun hne => by simp [retire] at hne⟩)
    w ⟨hp, hn, ht⟩
  rcases hs : w.settle program with r | ⟨i, r⟩ <;> rw [hs] at h
  · exact h.1
  · exact ⟨h.1.1, h.1.2.1, h.1.2.2, h.2⟩

/-- A step keeps the trace, and adds the branch it splits at, if any. -/
theorem traced_step (ha : Annotated program) {σ : Type} (port : MemoryPort σ) {w : Warp} {m : σ}
    (hp : Partition w.toWarpState) (hn : Nesting program w.toWarpState)
    (ht : Traced program B w.toWarpState) (hB : ∀ b j, B b j → B' b j)
    (hsplit : ∀ i r, w.settle program = .ready i r → Splits i r → B' r.pc i) :
    Traced program B' (w.step F port program m).2.1.toWarpState := by
  have h := settle_invariants hp hn ht
  rw [step]
  rcases hs : w.settle program with r | ⟨i, r⟩ <;> rw [hs] at h
  · exact h.2.2.mono hB
  · obtain ⟨hp', hn', ht', hready, hi⟩ := h
    exact traced_effect ha hp' hn' ht' hready hi hB (hsplit i r hs) (issue_effect F port i r m)

end History

section Statement

variable {F : FloatOps} {program source : List Instruction}

variable (F program) in
/-- In the first `n` actions of a run, one was a step that split at the branch `i` at `b`. -/
def SplitBefore (run : Nat → Warp) (n : Nat) (b : Pc) (i : Instruction) : Prop :=
  ∃ k < n, (∃ (σ : Type) (port : MemoryPort σ) (m : σ),
      run (k + 1) = ((run k).step F port program m).2.1)
    ∧ ∃ r, (run k).settle program = .ready i r ∧ r.pc = b ∧ Splits i r

theorem reachable_run {run : Nat → Warp} {warpId : Word} {live : LaneMask} {context : LaneContext}
    (hnew : run 0 = new warpId live context) :
    ∀ n, (∀ k < n, WarpStep F program (run k) (run (k + 1))) → Reachable F program (run n) := by
  intro n hrun
  refine ⟨warpId, live, context, ?_⟩
  rw [← hnew]
  induction n with
  | zero => exact .refl
  | succ n ih =>
    exact (ih fun k hk => hrun k (Nat.lt_succ_of_lt hk)).tail (hrun n (Nat.lt_succ_self n))

theorem traced_run (ha : Annotated program) {run : Nat → Warp} {warpId : Word} {live : LaneMask}
    {context : LaneContext} (hnew : run 0 = new warpId live context) :
    ∀ n, (∀ k < n, WarpStep F program (run k) (run (k + 1))) →
      Traced program (SplitBefore F program run n) (run n).toWarpState
  | 0, _ => by
    rw [hnew]
    exact traced_new _ _ _
  | n + 1, hrun => by
    have hbefore : ∀ k < n, WarpStep F program (run k) (run (k + 1)) :=
      fun k hk => hrun k (Nat.lt_succ_of_lt hk)
    have ht := traced_run ha hnew n hbefore
    obtain ⟨hp, hn⟩ := nesting_reachable ha (reachable_run hnew n hbefore)
    have hmono : ∀ b i, SplitBefore F program run n b i → SplitBefore F program run (n + 1) b i :=
      fun b i ⟨k, hk, h⟩ => ⟨k, Nat.lt_succ_of_lt hk, h⟩
    have hlast := hrun n (Nat.lt_succ_self n)
    generalize hw' : run (n + 1) = w' at hlast ⊢
    generalize hw : run n = w at hlast hp hn ht
    cases hlast with
    | step port m =>
      refine traced_step ha port hp hn ht hmono fun i r hs hsplit => ?_
      exact ⟨n, Nat.lt_succ_self n, ⟨_, port, m, by rw [hw, hw']⟩, r, by rw [hw]; exact hs, rfl,
        hsplit⟩
    | release => exact (ht.mono hmono).same rfl (ht.mono hmono).current

/-- When a barrier faults, an earlier branch of the run split that recorded no reconvergence PC, or
one that some path from the branch to the barrier avoids. -/
theorem barrier_fault_avoids (hann : annotateReconvergence source = (.ok (), program))
    (hlen : program.length ≤ 65535) (hesc : Escapes program) (run : Nat → Warp) {warpId : Word}
    {live : LaneMask} {context : LaneContext} (hnew : run 0 = new warpId live context) {n : Nat}
    (hrun : ∀ k < n, WarpStep F program (run k) (run (k + 1))) {σ : Type} (port : MemoryPort σ)
    (m : σ) {i : Instruction} {r : Warp} (hsettle : (run n).settle program = .ready i r)
    (hop : i.opcode = .barSync) {f : Fault}
    (hfault : ((run n).step F port program m).1 = .error f) :
    ∃ b j, SplitBefore F program run n b j ∧ (j.reconvergencePc = noReconvergence
      ∨ ∃ l, Walk (Succ program) (pcVertex program b) l (pcVertex program r.pc)
        ∧ pcVertex program j.reconvergencePc ∉ l) := by
  have ha := annotated_of_source hann hlen hesc
  obtain ⟨hp, hn⟩ := nesting_reachable ha (reachable_run hnew n hrun)
  have h := settle_invariants hp hn (traced_run ha hnew n hrun)
  rw [hsettle] at h
  obtain ⟨hp', hn', ht', hready, hi⟩ := h
  have hdivergent : r.stack ≠ [] := by
    intro hs
    rw [step, hsettle] at hfault
    have hlive := (active_eq_live hp').2 hs
    simp only [issue, hop, hlive, ne_eq, not_true_eq_false, if_false] at hfault
    cases hfault
  obtain ⟨e, rest, hs⟩ := List.exists_cons_of_ne_nil hdivergent
  have hmem : e ∈ r.stack := by rw [hs]; exact List.mem_cons_self
  obtain ⟨b, j, hb, hr, hno | hat | hwalk⟩ :=
    ht'.current (resolveIteration_settled hready).1 e hmem
  · exact ⟨b, j, hb, .inl (hr.trans hno)⟩
  · exact absurd hat.symm (ready_ne ha hn' hready hi e hmem)
  · exact ⟨b, j, hb, .inr (by rw [hr]; exact hwalk)⟩

/-- The lanes that do not branch exit, so the branch to the barrier records no reconvergence PC. -/
def lopsidedProgram : List Instruction :=
  [{ opcode := .movSreg, src0 := 8 },
    { opcode := .setpLtS32, immFlag := true, imm := 16 },
    { opcode := .bra, guard := ⟨true, false, 0⟩, imm := Instruction.makeBranchImm 4 0xFFFF },
    { opcode := .exit }, { opcode := .barSync }, { opcode := .exit }]

def lopsidedRun (k : Nat) : Warp :=
  ((new 0 fullMask {}).steps default nullMemory lopsidedProgram k ()).1

theorem lopsidedRun_fault : ∃ b j, SplitBefore default lopsidedProgram lopsidedRun 3 b j
    ∧ (j.reconvergencePc = noReconvergence
      ∨ ∃ l, Walk (Succ lopsidedProgram) (pcVertex lopsidedProgram b) l (some 4)
        ∧ pcVertex lopsidedProgram j.reconvergencePc ∉ l) := by
  have hstep : ∀ k < 3, WarpStep default lopsidedProgram (lopsidedRun k) (lopsidedRun (k + 1)) := by
    intro k _
    rw [lopsidedRun, lopsidedRun, steps_succ]
    exact .step nullMemory () _
  have hann : annotateReconvergence lopsidedProgram = (.ok (), lopsidedProgram) := by decide +kernel
  have hpc : pcVertex lopsidedProgram (lopsidedRun 3).pc = some 4 := by decide +kernel
  rw [← hpc]
  exact barrier_fault_avoids (F := default) hann (by decide) (escapes_of_forward (by decide))
    lopsidedRun rfl hstep nullMemory ()
    (settle_of_ready (i := { opcode := .barSync }) (by decide +kernel) (by decide +kernel)
      (by decide +kernel)) rfl
    (f := ⟨"bar.sync executed in divergent code", 0, 0, 0, 4, 0⟩) (by decide +kernel)

end Statement

end Warp

end WarpSim
