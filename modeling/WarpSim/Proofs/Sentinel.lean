import WarpSim.Proofs.Partition

/-!
# The sentinel of a missing reconvergence point

An entry without a reconvergence point records PC 0xFFFF, which is no instruction of a program of
at most 65535. But the pc is 0xFFFF once lanes run past the last instruction of a program of
exactly 65535, and the stack is resolved before the end of the program is noticed. So the sentinel
is safe as long as no step leaves lanes there under an entry without a reconvergence point
(`sentinel_runs`), and is taken for a PC otherwise (`longProgram_pops`). Lanes come to PC 0xFFFF
in place, behind the instruction at PC 65534, or as the lanes a branch there deferred, when rule 4
resumes them.
-/

namespace WarpSim

namespace Warp

section Condition

/-- The top entry of the stack, if any, records a reconvergence point. -/
def NamedTop (s : List DivergenceEntry) : Prop :=
  ∀ e ∈ s.head?, e.reconvergencePc ≠ noReconvergence

/-- The warp goes on behind instruction `i` under the same entry: all lanes pass by a branch, some
lanes are left behind an exit. -/
def GoesOn (w : Warp) (i : Instruction) : Prop :=
  (i.opcode = .bra → w.execMask i = 0)
    ∧ (i.opcode = .exit → w.active &&& ~~~w.execMask i ≠ 0)

/-- If the lanes of the top entry wait at PC 0xFFFF, the entry below records a reconvergence
point. -/
def NamedBelow (s : List DivergenceEntry) : Prop :=
  ∀ e ∈ s.head?, e.resumePc = noReconvergence → NamedTop s.tail

/-- The micro steps that leave no lanes at PC 0xFFFF under an entry without a reconvergence
point. -/
inductive ClearStep (F : FloatOps) (program : List Instruction) : Warp → Warp → Prop
  | resolve {w w' : Warp} (h : w.resolveIteration = .inl w')
      (hclear : w.active = 0 → NamedBelow w.stack) : ClearStep F program w w'
  | fall {w : Warp} (h : w.resolveIteration = .inr true) (hpc : program[w.pc.toNat]? = none) :
    ClearStep F program w (w.retire w.active)
  | issue {σ : Type} (port : MemoryPort σ) (m : σ) {w : Warp} {i : Instruction}
      (h : w.resolveIteration = .inr true) (hpc : program[w.pc.toNat]? = some i)
      (hclear : (∀ f, (w.issue F port i m).1 ≠ .error f) → w.pc = 0xFFFE → GoesOn w i →
        NamedTop w.stack) : ClearStep F program w (w.issue F port i m).2.1
  | release (w : Warp) : ClearStep F program w { w with parked := false }

abbrev ClearRun (F : FloatOps) (program : List Instruction) : Warp → Warp → Prop :=
  Relation.ReflTransGen (ClearStep F program)

/-- What the sentinel is for, at one point of a run. -/
structure SentinelSafe (F : FloatOps) (program : List Instruction) (w : Warp) : Prop where
  /-- Rule 3 does not pop an entry without a reconvergence point. -/
  kept : ∀ e ∈ w.stack.head?, e.reconvergencePc = noReconvergence → w.active ≠ 0 →
    w.resolveIteration = .inr true
  /-- Entries stay on the stack, but for the top one; without a reconvergence point that goes only
  when no lane is active. -/
  leaves : ∀ w', MicroStep F program w w' →
    w.stack.map DivergenceEntry.reconvergencePc <:+ w'.stack.map DivergenceEntry.reconvergencePc
      ∨ ∃ e rest, w.stack = e :: rest ∧ w'.stack = rest
        ∧ (e.reconvergencePc = noReconvergence → w.active = 0)
  /-- Only arrivals at recorded points are counted. -/
  counted : ∀ w', w.resolveIteration = .inl w' → w'.reconverged ≠ w.reconverged →
    ∃ e ∈ w.stack.head?, e.reconvergencePc = w.pc ∧ e.reconvergencePc ≠ noReconvergence

end Condition

section Safe

variable {F : FloatOps} {program : List Instruction} {w w' : Warp}

/-- No lane is at PC 0xFFFF under an entry that records no reconvergence point. -/
def ClearTop (w : Warp) : Prop := w.active ≠ 0 → w.pc = noReconvergence → NamedTop w.stack

theorem reconverged_switchTo (w : Warp) (e : DivergenceEntry) (arrived : LaneMask) :
    (w.switchTo e arrived).reconverged = w.reconverged := by
  unfold switchTo
  split_ifs <;> rfl

theorem map_reconvergencePc_retire (w : Warp) (lanes : LaneMask) :
    (w.retire lanes).stack.map DivergenceEntry.reconvergencePc
      = w.stack.map DivergenceEntry.reconvergencePc := by
  rw [retire, List.map_map]
  rfl

/-- What a step does to the stack below the top. -/
theorem leaves_of_clearTop (h : ClearTop w) (hstep : MicroStep F program w w') :
    w.stack.map DivergenceEntry.reconvergencePc <:+ w'.stack.map DivergenceEntry.reconvergencePc
      ∨ ∃ e rest, w.stack = e :: rest ∧ w'.stack = rest
        ∧ (e.reconvergencePc = noReconvergence → w.active = 0) := by
  cases hstep with
  | resolve hit =>
    cases (resolveIteration_cases hit).1 with
    | resume e hempty hs => exact .inr ⟨e, _, hs, rfl, fun _ => hempty⟩
    | arrive e rest hne hs hat hdefer hs' =>
      rw [hs, hs']
      exact .inl List.suffix_rfl
    | join e hne hs hat =>
      refine .inr ⟨e, _, hs, rfl, fun hnone => ?_⟩
      exact absurd hnone (h hne (hat.symm.trans hnone) e (by rw [hs]; rfl))
  | fall =>
    rw [map_reconvergencePc_retire]
    exact .inl List.suffix_rfl
  | @issue σ port m _ i hit hpc =>
    refine .inl ?_
    cases issue_effect F port i w m with
    | stay _ hmasks | move _ hmasks => exact hmasks.stack ▸ List.suffix_rfl
    | split _ _ _ _ _ hstack =>
      rw [hstack]
      exact List.suffix_cons _ _
    | exit _ _ hmasks =>
      exact hmasks.stack ▸ map_reconvergencePc_retire w _ ▸ List.suffix_rfl
  | release => exact .inl List.suffix_rfl

theorem sentinelSafe_of_clearTop (h : ClearTop w) : SentinelSafe F program w where
  kept := fun e he hnone ha => by
    rcases hs : w.stack with _ | ⟨e', rest⟩
    · rw [hs] at he
      cases he
    · rw [resolveIteration, if_neg ha, hs]
      refine if_neg fun hat => ?_
      rw [hs, List.head?_cons, Option.mem_some_iff] at he
      subst he
      exact h ha (hat.symm.trans hnone) e' (by rw [hs]; rfl) hnone
  leaves := fun _ hstep => leaves_of_clearTop h hstep
  counted := fun w' hit hne => by
    unfold resolveIteration at hit
    split_ifs at hit with hz
    · split at hit
      · cases hit
      · cases hit
        exact absurd (reconverged_switchTo _ _ _) hne
    · split at hit
      · cases hit
      · rename_i e rest hs
        split_ifs at hit with hat
        refine ⟨e, by rw [hs]; rfl, hat, fun hnone => ?_⟩
        exact h hz (hat.symm.trans hnone) e (by rw [hs]; rfl) hnone

theorem sentinelSafe_iff : SentinelSafe F program w ↔ ClearTop w := by
  refine ⟨fun h ha hpc e he hnone => ?_, sentinelSafe_of_clearTop⟩
  have hkept := h.kept e he hnone ha
  obtain ⟨rest, hs⟩ := List.head?_eq_some_iff.1 he
  exact (resolveIteration_settled hkept).2 e rest hs (hnone.trans hpc.symm)

/-- Whether the top entry records a point is read off the points the stack records. -/
theorem namedTop_congr {s s' : List DivergenceEntry}
    (h : s'.map DivergenceEntry.reconvergencePc = s.map DivergenceEntry.reconvergencePc) :
    NamedTop s' ↔ NamedTop s := by
  have hhead : ∀ s : List DivergenceEntry, NamedTop s
      ↔ ∀ pc ∈ (s.map DivergenceEntry.reconvergencePc).head?, pc ≠ noReconvergence := by
    intro s
    rw [List.head?_map]
    simp only [NamedTop, Option.mem_def, Option.map_eq_some_iff]
    exact ⟨fun h pc ⟨e, he, hpc⟩ => hpc ▸ h e he, fun h e he => h _ ⟨e, he, rfl⟩⟩
  rw [hhead, hhead, h]

/-- A fault stops the instruction where it is. -/
theorem issue_fault_pc {σ : Type} (port : MemoryPort σ) (i : Instruction) (w : Warp) (m : σ)
    {f : Fault} (h : (w.issue F port i m).1 = .error f) : (w.issue F port i m).2.1.pc = w.pc := by
  by_cases hmem : isMemoryOpcode i.opcode = true
  · rw [issue_memory F port hmem] at h ⊢
    obtain ⟨rf, hrf⟩ := memoryAccess_warp port i (w.execMask i)
      { w with lastExec := w.execMask i, lastOpcode := i.opcode } m
    rcases hacc : memoryAccess port i (w.execMask i)
      { w with lastExec := w.execMask i, lastOpcode := i.opcode } m with ⟨f | ⟨⟩, w', m'⟩
    · rw [hacc] at hrf
      simp only at hrf
      rw [hrf]
    · rw [hacc] at h
      cases h
  by_cases hbar : i.opcode = .barSync
  · unfold issue at h ⊢
    simp only [hbar] at h ⊢
    by_cases hlive : w.active ≠ w.live
    · rw [if_pos hlive]
    · rw [if_neg hlive] at h
      cases h
  · have hok : (w.issue F port i m).1 = .ok .issued := by
      unfold issue
      split <;> first | rfl | simp_all [isMemoryOpcode]
    rw [hok] at h
    cases h

/-- A branch moves to its target, unless no lane takes it. -/
theorem branch_goesOn {σ : Type} (port : MemoryPort σ) {i : Instruction} (m : σ)
    (hbra : i.opcode = .bra) :
    (w.issue F port i m).2.1.pc = i.branchTarget ∨ w.execMask i = 0 := by
  have hissue : (w.issue F port i m).2.1
      = { w with lastExec := w.execMask i, lastOpcode := i.opcode }.branch i (w.execMask i) := by
    unfold issue
    rw [hbra]
  rw [hissue]
  unfold branch
  by_cases hg : i.guard.present = true
  · simp only [hg, Bool.not_true, Bool.false_eq_true, if_false]
    split_ifs with h1 h2
    · exact .inr h1
    · exact .inl rfl
    · exact .inl rfl
  · simp only [hg, Bool.not_false, if_true]
    exact .inl trivial

/-- Lanes that are at the next instruction after a step have gone on to it. -/
theorem goesOn_of_issue {σ : Type} (port : MemoryPort σ) {i : Instruction} (m : σ)
    (hactive : (w.issue F port i m).2.1.active ≠ 0)
    (htarget : i.opcode = .bra → (w.issue F port i m).2.1.pc ≠ i.branchTarget) : GoesOn w i := by
  refine ⟨fun hbra => (branch_goesOn port m hbra).resolve_left (htarget hbra), fun hexit => ?_⟩
  have hleft : (w.issue F port i m).2.1.active = w.active &&& ~~~w.execMask i := by
    unfold issue
    rw [hexit]
    rfl
  rwa [hleft] at hactive

/-- An instruction the warp goes on behind leaves it at the next PC, under the same entries. -/
theorem issue_of_goesOn {σ : Type} (port : MemoryPort σ) {i : Instruction} (m : σ)
    (ha : w.active ≠ 0) (hok : ∀ f, (w.issue F port i m).1 ≠ .error f) (h : GoesOn w i) :
    (w.issue F port i m).2.1.pc = w.pc + 1 ∧ (w.issue F port i m).2.1.active ≠ 0
      ∧ (w.issue F port i m).2.1.stack.map DivergenceEntry.reconvergencePc
        = w.stack.map DivergenceEntry.reconvergencePc := by
  by_cases hmem : isMemoryOpcode i.opcode = true
  · rw [issue_memory F port hmem] at hok ⊢
    obtain ⟨rf, hrf⟩ := memoryAccess_warp port i (w.execMask i)
      { w with lastExec := w.execMask i, lastOpcode := i.opcode } m
    rcases hacc : memoryAccess port i (w.execMask i)
      { w with lastExec := w.execMask i, lastOpcode := i.opcode } m with ⟨f | ⟨⟩, w', m'⟩
    · rw [hacc] at hok
      exact absurd rfl (hok f)
    · rw [hacc] at hrf
      simp only at hrf
      rw [hrf]
      exact ⟨rfl, ha, rfl⟩
  by_cases hbra : i.opcode = .bra
  · -- No lane takes the branch, so it has a guard.
    have hzero := h.1 hbra
    have hguard : i.guard.present = true := by
      by_contra hg
      rw [execMask, if_neg hg] at hzero
      exact ha hzero
    have hissue : (w.issue F port i m).2.1
        = { w with lastExec := w.execMask i, lastOpcode := i.opcode }.advance := by
      unfold issue
      rw [hbra]
      simp [branch, hguard, hzero]
    rw [hissue]
    exact ⟨rfl, ha, rfl⟩
  by_cases hexit : i.opcode = .exit
  · have hissue : (w.issue F port i m).2.1
        = ({ w with lastExec := w.execMask i, lastOpcode := i.opcode }.retire
          (w.execMask i)).advance := by
      unfold issue
      rw [hexit]
    rw [hissue]
    exact ⟨rfl, h.2 hexit, map_reconvergencePc_retire w _⟩
  by_cases hbar : i.opcode = .barSync
  · unfold issue at hok ⊢
    simp only [hbar] at hok ⊢
    by_cases hlive : w.active ≠ w.live
    · rw [if_pos hlive] at hok
      exact absurd rfl (hok _)
    · rw [if_neg hlive]
      exact ⟨rfl, ha, rfl⟩
  · unfold issue
    split <;> first | exact ⟨rfl, ha, rfl⟩ | simp_all [isMemoryOpcode]

theorem clearTop_new (warpId : Word) (live : LaneMask) (context : LaneContext) :
    ClearTop (new warpId live context) := fun _ _ e he => by cases he

/-- An iteration that rule 3 makes leaves no lanes at PC 0xFFFF under an unnamed entry; one that
rule 4 makes leaves them there exactly if they waited there. -/
theorem clearTop_resolve (hp : Partition w.toWarpState) (h : ClearTop w)
    (hit : w.resolveIteration = .inl w') :
    ClearTop w' ↔ (w.active = 0 → NamedBelow w.stack) := by
  cases (resolveIteration_cases hit).1 with
  | resume e hempty hs hactive hpc =>
    have hmask : e.mask ≠ 0 := hp.nonempty e (by rw [hs]; exact List.mem_cons_self)
    rw [ClearTop, hactive, hpc, NamedBelow, hs]
    simp [hempty, show e.mask ≠ 0#32 from hmask]
  | arrive e rest hne hs hat hdefer hs' hactive hpc =>
    refine iff_of_true (fun _ _ e' he' => ?_) fun hz => absurd hz hne
    rw [hs', List.head?_cons, Option.mem_some_iff] at he'
    rw [← he']
    exact fun hnone => h hne (hat.symm.trans hnone) e (by rw [hs]; rfl) hnone
  | join e hne hs hat hjoin hactive hpc =>
    refine iff_of_true (fun _ hnone => ?_) fun hz => absurd hz hne
    have hwas : w.pc = noReconvergence := hpc.symm.trans hnone
    exact absurd (hat.trans hwas) (h hne hwas e (by rw [hs]; rfl))

theorem succ_eq_noReconvergence {pc : Pc} : pc + 1 = noReconvergence ↔ pc = 0xFFFE := by
  unfold noReconvergence
  constructor
  · intro h
    bv_omega
  · rintro rfl
    rfl

theorem clearTop_issue {σ : Type} (port : MemoryPort σ) (m : σ) {i : Instruction}
    (htarget : i.opcode = .bra → i.branchTarget ≠ noReconvergence) (h : ClearTop w)
    (ha : w.active ≠ 0) :
    ClearTop (w.issue F port i m).2.1
      ↔ ((∀ f, (w.issue F port i m).1 ≠ .error f) → w.pc = 0xFFFE → GoesOn w i →
        NamedTop w.stack) := by
  constructor
  · intro hafter hok hpc hgo
    obtain ⟨hnext, hactive, hstack⟩ := issue_of_goesOn port m ha hok hgo
    exact (namedTop_congr hstack).1 (hafter hactive (hnext.trans (succ_eq_noReconvergence.2 hpc)))
  · intro hclear hactive hnone
    -- A lane at PC 0xFFFF behind the instruction is there because the warp went on.
    have hgone : w.pc + 1 = noReconvergence → NamedTop w.stack := by
      intro hpc
      have hlast := succ_eq_noReconvergence.1 hpc
      refine hclear (fun f hf => ?_) hlast (goesOn_of_issue port m hactive fun hbra he => ?_)
      · have hstays := issue_fault_pc port i w m hf
        rw [hnone, hlast] at hstays
        exact absurd hstays (by decide)
      · exact htarget hbra (he.symm.trans hnone)
    cases issue_effect F port i w m with
    | stay hpc hmasks =>
      rw [hmasks.stack]
      exact h ha (hpc.symm.trans hnone)
    | move hpc hmasks =>
      rw [hmasks.stack]
      rw [hnone] at hpc
      unfold Next at hpc
      split_ifs at hpc with hbra
      · exact hgone (hpc.resolve_left fun he => htarget hbra he.symm).2.symm
      · exact hgone hpc.1.symm
    | split hbra hguard hpc => exact absurd (hpc.symm.trans hnone) (htarget hbra)
    | exit hexit hpc hmasks =>
      rw [hmasks.stack]
      exact (namedTop_congr (map_reconvergencePc_retire w _)).2 (hgone (hpc.symm.trans hnone))

theorem branchTarget_ne (htargets : ∀ i ∈ program, i.opcode = .bra →
      i.branchTarget.toNat < program.length) (hlen : program.length ≤ 65535) {i : Instruction}
    (hi : i ∈ program) (hbra : i.opcode = .bra) : i.branchTarget ≠ noReconvergence := by
  intro hnone
  have := htargets i hi hbra
  rw [hnone] at this
  simp [noReconvergence] at this
  omega

/-- From a clear state, exactly the clear steps lead to a clear state. -/
theorem clearStep_iff (htargets : ∀ i ∈ program, i.opcode = .bra →
      i.branchTarget.toNat < program.length) (hlen : program.length ≤ 65535)
    (hp : Partition w.toWarpState) (h : ClearTop w) (hstep : MicroStep F program w w') :
    ClearStep F program w w' ↔ ClearTop w' := by
  constructor
  · intro hclear
    cases hclear with
    | resolve hit hclear => exact (clearTop_resolve hp h hit).2 hclear
    | fall => exact fun ha => absurd (by simp [retire]) ha
    | issue port m hit hpc hclear =>
      exact (clearTop_issue port m (branchTarget_ne htargets hlen (List.mem_of_getElem? hpc)) h
        (resolveIteration_settled hit).1).2 hclear
    | release => exact h
  · intro hafter
    cases hstep with
    | resolve hit => exact .resolve hit ((clearTop_resolve hp h hit).1 hafter)
    | fall hit hpc => exact .fall hit hpc
    | issue port m hit hpc =>
      exact .issue port m hit hpc ((clearTop_issue port m
        (branchTarget_ne htargets hlen (List.mem_of_getElem? hpc)) h
        (resolveIteration_settled hit).1).1 hafter)
    | release => exact .release w

end Safe

section Runs

variable {F : FloatOps} {program : List Instruction} {w w' : Warp}

theorem ClearStep.micro (h : ClearStep F program w w') : MicroStep F program w w' := by
  cases h with
  | resolve hit => exact .resolve hit
  | fall hit hpc => exact .fall hit hpc
  | issue port m hit hpc => exact .issue port m hit hpc
  | release => exact .release w

theorem clearTop_run (htargets : ∀ i ∈ program, i.opcode = .bra →
      i.branchTarget.toNat < program.length) (hlen : program.length ≤ 65535)
    (hp : Partition w.toWarpState) (h : ClearTop w) (hrun : ClearRun F program w w') :
    Partition w'.toWarpState ∧ ClearTop w' := by
  induction hrun with
  | refl => exact ⟨hp, h⟩
  | tail _ hstep ih =>
    exact ⟨partition_micro ih.1 hstep.micro,
      (clearStep_iff htargets hlen ih.1 ih.2 hstep.micro).1 hstep⟩

/-- No lane is at PC 0xFFFF, or waits there. -/
structure Inside (w : Warp) : Prop where
  pc : w.pc ≠ noReconvergence
  resume : ∀ e ∈ w.stack, e.resumePc ≠ noReconvergence

theorem Inside.retire (h : Inside w) (lanes : LaneMask) : Inside (w.retire lanes) where
  pc := h.pc
  resume := fun e he => by
    obtain ⟨e', he', rfl⟩ := List.mem_map.1 he
    exact h.resume e' he'

theorem Inside.resolve (h : Inside w) (hit : w.resolveIteration = .inl w') : Inside w' := by
  cases (resolveIteration_cases hit).1 with
  | resume e _ hs _ hpc =>
    have hall := hs ▸ h.resume
    exact ⟨hpc ▸ hall e List.mem_cons_self, fun e' he' => hall e' (List.mem_cons_of_mem _ he')⟩
  | arrive e rest _ hs hat _ hs' _ hpc =>
    have hall := hs ▸ h.resume
    refine ⟨hpc ▸ hall e List.mem_cons_self, fun e' he' => ?_⟩
    rw [hs', List.mem_cons] at he'
    rcases he' with rfl | he'
    · exact hat ▸ h.pc
    · exact hall e' (List.mem_cons_of_mem _ he')
  | join e _ hs _ _ _ hpc =>
    have hall := hs ▸ h.resume
    exact ⟨hpc ▸ h.pc, fun e' he' => hall e' (List.mem_cons_of_mem _ he')⟩

/-- The instruction at PC 65534 is the only one with lanes to hand on to PC 0xFFFF. -/
theorem Inside.issue {σ : Type} (port : MemoryPort σ) (m : σ) {i : Instruction}
    (htarget : i.opcode = .bra → i.branchTarget ≠ noReconvergence) (hlast : w.pc ≠ 0xFFFE)
    (h : Inside w) : Inside (w.issue F port i m).2.1 := by
  have hsucc : w.pc + 1 ≠ noReconvergence := fun he => hlast (succ_eq_noReconvergence.1 he)
  cases issue_effect F port i w m with
  | stay hpc hmasks => exact ⟨hpc ▸ h.pc, hmasks.stack ▸ h.resume⟩
  | move hpc hmasks =>
    refine ⟨?_, hmasks.stack ▸ h.resume⟩
    unfold Next at hpc
    split_ifs at hpc with hbra
    · rcases hpc with hpc | ⟨-, hpc⟩
      · exact hpc ▸ htarget hbra
      · exact hpc ▸ hsucc
    · exact hpc.1 ▸ hsucc
  | split hbra _ hpc _ _ hstack =>
    refine ⟨hpc ▸ htarget hbra, ?_⟩
    rw [hstack]
    exact List.forall_mem_cons.2 ⟨hsucc, h.resume⟩
  | exit _ hpc hmasks => exact ⟨hpc ▸ hsucc, hmasks.stack ▸ (h.retire _).resume⟩

theorem Inside.step (htargets : ∀ i ∈ program, i.opcode = .bra →
      i.branchTarget.toNat < program.length) (hlen : program.length < 65535) (h : Inside w)
    (hstep : MicroStep F program w w') : Inside w' := by
  cases hstep with
  | resolve hit => exact h.resolve hit
  | fall => exact h.retire _
  | issue port m _ hpc =>
    refine h.issue port m (branchTarget_ne htargets hlen.le (List.mem_of_getElem? hpc)) fun he => ?_
    have hlt := (List.getElem?_eq_some_iff.1 hpc).1
    rw [he] at hlt
    exact absurd hlt (by simp; omega)
  | release => exact ⟨h.pc, h.resume⟩

/-- On a program whose branch targets are its instructions, the sentinel is safe at every point of
a clear run, and behind such a run a step keeps it safe exactly if it is clear. A program of less
than 65535 instructions keeps it safe in every run. -/
theorem sentinel_runs (htargets : ∀ i ∈ program, i.opcode = .bra →
      i.branchTarget.toNat < program.length) (hlen : program.length ≤ 65535) :
    (∀ warpId live context w, ClearRun F program (new warpId live context) w →
      SentinelSafe F program w)
    ∧ (∀ warpId live context w w', ClearRun F program (new warpId live context) w →
      MicroStep F program w w' → (SentinelSafe F program w' ↔ ClearStep F program w w'))
    ∧ (program.length < 65535 → ∀ warpId live context w,
      MicroRun F program (new warpId live context) w → SentinelSafe F program w) := by
  have hclear : ∀ warpId live context w, ClearRun F program (new warpId live context) w →
      Partition w.toWarpState ∧ ClearTop w := fun warpId live context _ hrun =>
    clearTop_run htargets hlen (partition_new warpId live context)
      (clearTop_new warpId live context) hrun
  refine ⟨fun warpId live context w hrun => sentinelSafe_of_clearTop
    (hclear warpId live context w hrun).2, fun warpId live context w w' hrun hstep => ?_,
    fun hshort warpId live context w hrun => ?_⟩
  · obtain ⟨hp, htop⟩ := hclear warpId live context w hrun
    exact sentinelSafe_iff.trans (clearStep_iff htargets hlen hp htop hstep).symm
  · have hnew : Inside (new warpId live context) :=
      ⟨(by decide : (0 : Pc) ≠ noReconvergence), fun e he => by cases he⟩
    have hinside := micro_invariant (fun _ _ h hstep => h.step htargets hshort hstep) hrun hnew
    exact sentinelSafe_of_clearTop fun _ hnone => absurd hnone hinside.pc

end Runs

section Example

/-- Lane 0 branches to the target, without a reconvergence point; the others go on. -/
def splitTo (target : Pc) : List Instruction :=
  [{ opcode := .movSreg, src0 := 8 }, { opcode := .setpEqS32, immFlag := true },
    { opcode := .bra, guard := ⟨true, false, 0⟩,
      imm := Instruction.makeBranchImm target noReconvergence }]

/-- A program of 65535 instructions whose last one is not an exit. -/
def longProgram : List Instruction :=
  splitTo 0xFFFE ++ (List.replicate 65531 { opcode := .exit } ++ [{ opcode := .add }])

theorem length_longProgram : longProgram.length = 65535 := by
  rw [longProgram, List.length_append, List.length_append, List.length_replicate]
  rfl

theorem longProgram_last : longProgram[65534]? = some { opcode := .add } := by
  have hsplit : (splitTo 0xFFFE).length = 3 := rfl
  rw [longProgram, List.getElem?_append_right (by omega), hsplit,
    List.getElem?_append_right (by rw [List.length_replicate]), List.length_replicate]
  rfl

theorem step_of_ready {σ : Type} {F : FloatOps} {port : MemoryPort σ}
    {program : List Instruction} {w : Warp} {i : Instruction} (ha : w.active ≠ 0)
    (hs : ∀ e ∈ w.stack.head?, e.reconvergencePc ≠ w.pc) (hi : program[w.pc.toNat]? = some i)
    (m : σ) : w.step F port program m = w.issue F port i m := by
  unfold step
  rw [settle_of_ready ha hs hi]

/-- Two lanes after the first `k` instructions. -/
def splitWarp (k : Nat) : Warp :=
  (((splitTo 0xFFFE).take k).foldl (fun w i => (w.issue default nullMemory i ()).2.1) (new 0 3 {}))

/-- They issue in order, whatever follows them in the program. -/
theorem splitWarp_succ {k : Nat} (hk : k < 3) :
    ((splitWarp k).step default nullMemory longProgram ()).2.1 = splitWarp (k + 1) := by
  have hfetch : ∀ k < 3, longProgram[k]? = (splitTo 0xFFFE)[k]? := fun k hk =>
    List.getElem?_append_left hk
  have hready : ∀ k < 3, (splitWarp k).active ≠ 0 ∧ (splitWarp k).stack = []
      ∧ (splitWarp k).pc.toNat = k := by decide +kernel
  obtain ⟨ha, hs, hpc⟩ := hready k hk
  have hlt : k < (splitTo 0xFFFE).length := hk
  rw [step_of_ready (i := (splitTo 0xFFFE)[k]) ha (by rw [hs]; nofun)
    (by rw [hpc, hfetch k hk, List.getElem?_eq_getElem hlt])]
  unfold splitWarp
  rw [List.take_add_one, List.foldl_append, List.getElem?_eq_getElem hlt]
  rfl

theorem splitWarp_reachable : ∀ k ≤ 3, Reachable default longProgram (splitWarp k)
  | 0, _ => ⟨0, 3, {}, .refl⟩
  | k + 1, hk => by
    obtain ⟨warpId, live, context, hrun⟩ := splitWarp_reachable k (by omega)
    refine ⟨warpId, live, context, hrun.tail ?_⟩
    rw [← splitWarp_succ (by omega : k < 3)]
    exact .step nullMemory () _

/-- The warp at PC 0xFFFF: lane 0 has run past the last instruction, lane 1 waits at PC 3. -/
def pastWarp : Warp := ((splitWarp 3).issue default nullMemory { opcode := .add } ()).2.1

theorem pastWarp_reachable : Reachable default longProgram pastWarp := by
  have hready : (splitWarp 3).active ≠ 0 ∧ (splitWarp 3).pc.toNat = 65534
      ∧ ∀ e ∈ (splitWarp 3).stack.head?, e.reconvergencePc ≠ (splitWarp 3).pc := by decide +kernel
  obtain ⟨ha, hpc, hs⟩ := hready
  have hstep : ((splitWarp 3).step default nullMemory longProgram ()).2.1 = pastWarp := by
    rw [step_of_ready ha hs (by rw [hpc]; exact longProgram_last)]
    rfl
  obtain ⟨warpId, live, context, hrun⟩ := splitWarp_reachable 3 (Nat.le_refl _)
  refine ⟨warpId, live, context, hrun.tail ?_⟩
  rw [← hstep]
  exact .step nullMemory () _

theorem longProgram_targets : ∀ i ∈ longProgram, i.opcode = .bra →
    i.branchTarget.toNat < longProgram.length := by
  intro i hi hbra
  rw [length_longProgram]
  rcases List.mem_append.1 hi with hi | hi
  · have hall : ∀ i ∈ splitTo 0xFFFE, i.opcode = .bra → i.branchTarget.toNat < 65535 := by
      decide +kernel
    exact hall i hi hbra
  · rcases List.mem_append.1 hi with hi | hi
    · rw [List.eq_of_mem_replicate hi] at hbra
      cases hbra
    · rw [List.mem_singleton.1 hi] at hbra
      cases hbra

/-- Rule 3 takes PC 0xFFFF for the reconvergence point of lane 1, and counts a reconvergence. -/
theorem longProgram_pops : longProgram.length = 65535
    ∧ (∀ i ∈ longProgram, i.opcode = .bra → i.branchTarget.toNat < longProgram.length)
    ∧ Reachable default longProgram pastWarp
    ∧ pastWarp.stack.map DivergenceEntry.reconvergencePc = [noReconvergence]
    ∧ pastWarp.active ≠ 0
    ∧ (∃ w, pastWarp.resolveIteration = .inl w ∧ w.reconverged = pastWarp.reconverged + 1)
    ∧ ¬SentinelSafe default longProgram pastWarp := by
  have hstate : pastWarp.active = 1 ∧ pastWarp.pc = noReconvergence
      ∧ pastWarp.stack = [⟨noReconvergence, 3, 2⟩] := by decide +kernel
  obtain ⟨ha, hpc, hs⟩ := hstate
  have hactive : pastWarp.active ≠ 0 := by rw [ha]; decide
  have hpops : ∃ w, pastWarp.resolveIteration = .inl w
      ∧ w.reconverged = pastWarp.reconverged + 1 := by
    refine ⟨_, ?_, reconverged_switchTo
      { pastWarp with stack := [], reconverged := pastWarp.reconverged + 1 }
      ⟨noReconvergence, 3, 2⟩ pastWarp.active⟩
    rw [resolveIteration, if_neg hactive, hs]
    exact if_pos hpc.symm
  refine ⟨length_longProgram, longProgram_targets, pastWarp_reachable, by rw [hs]; rfl, hactive,
    hpops, fun h => ?_⟩
  obtain ⟨w, hw, -⟩ := hpops
  rw [h.kept ⟨noReconvergence, 3, 2⟩ (by rw [hs]; rfl) rfl hactive] at hw
  cases hw

/-- The same branch in a program of five instructions. -/
def shortProgram : List Instruction :=
  splitTo 4 ++ [{ opcode := .exit }, { opcode := .exit }]

theorem shortProgram_safe : SentinelSafe default shortProgram
    ((new 0 3 {}).steps default nullMemory shortProgram 4 ()).1 :=
  (sentinel_runs (by decide +kernel) (by decide)).2.2 (by decide) 0 3 {} _
    ((steps_warpStep nullMemory 4 _ ()).lift' id fun _ _ => warpStep_micro)

end Example

end Warp

end WarpSim
