import WarpSim.Proofs.Partition
import WarpSim.Proofs.Paths

/-!
# The divergence stack nests

On an annotated program the stack is ordered along the control flow: every path from the pc to the
end passes through the reconvergence PC of the top entry, then through the one below it, and so on
to the bottom. So the lanes of a branch that splits cannot get past its reconvergence PC, nor
retire, before they have all met there.
-/

namespace WarpSim

section Start

variable (program : List Instruction)

/-- Control can come from PC 0 to a vertex. -/
def FromStart (v : Option Nat) : Prop := ∃ l, Walk (Succ program) (atPc program 0) l v

/-- Every instruction that control can come to has a path to the end. -/
def Escapes : Prop := ∀ v, FromStart program v → Reaches (Succ program) none v

variable {program}

theorem FromStart.next {a b : Option Nat} (h : FromStart program a) (hs : Succ program a b) :
    FromStart program b := by
  obtain ⟨l, w⟩ := h
  obtain ⟨m, hm, -⟩ := w.append (.cons hs (.nil b))
  exact ⟨m, hm⟩

variable {pc pc' : Pc} {i : Instruction}

theorem pcVertex_of_some (hi : program[pc.toNat]? = some i) : pcVertex program pc = some pc.toNat :=
  if_pos (List.getElem?_eq_some_iff.1 hi).1

theorem pcVertex_of_none (hi : program[pc.toNat]? = none) : pcVertex program pc = none :=
  if_neg (by simpa using hi)

/-- A PC that stands for the vertex of an instruction is the PC of the instruction. -/
theorem eq_of_pcVertex (hi : program[pc.toNat]? = some i)
    (h : pcVertex program pc' = pcVertex program pc) : pc' = pc := by
  rw [pcVertex_of_some hi, pcVertex, atPc] at h
  split_ifs at h
  exact BitVec.eq_of_toNat_eq (Option.some.inj h)

/-- In a program of at most 65535 instructions the pc does not wrap around. -/
theorem pcVertex_succ (hlen : program.length ≤ 65535) (hi : program[pc.toNat]? = some i) :
    pcVertex program (pc + 1) = atPc program (pc.toNat + 1) := by
  have hlt := (List.getElem?_eq_some_iff.1 hi).1
  rw [pcVertex, BitVec.toNat_add]
  congr 1
  exact Nat.mod_eq_of_lt (by simp; omega)

theorem succ_of_next (hlen : program.length ≤ 65535) (hi : program[pc.toNat]? = some i)
    (h : Warp.Next i pc pc') : Succ program (pcVertex program pc) (pcVertex program pc') := by
  rw [pcVertex_of_some hi]
  unfold Warp.Next at h
  split_ifs at h with hop
  · rw [succ_bra hi hop]
    rcases h with rfl | ⟨hg, rfl⟩
    · exact .inl rfl
    · exact .inr ⟨hg, pcVertex_succ hlen hi⟩
  · obtain ⟨rfl, hg⟩ := h
    by_cases hexit : i.opcode = .exit
    · rw [succ_exit hi hexit]
      exact .inr ⟨hg hexit, pcVertex_succ hlen hi⟩
    · rw [succ_other hi hop hexit]
      exact pcVertex_succ hlen hi

/-- A program whose unguarded branches all go forward escapes. -/
theorem escapes_of_forward (h : ∀ pc, ∀ hpc : pc < program.length, program[pc].opcode = .bra →
    program[pc].guard.present = false → pc < program[pc].branchTarget.toNat) : Escapes program := by
  have hpc : ∀ m pc, program.length - pc = m → Reaches (Succ program) none (atPc program pc) := by
    intro m
    induction m using Nat.strong_induction_on with
    | _ m ih =>
      intro pc hm
      unfold atPc
      split_ifs with hlt
      · have hi : program[pc]? = some program[pc] := List.getElem?_eq_getElem hlt
        have hgo : ∃ q, pc < q ∧ (Succ program (some pc) (atPc program q)
            ∨ Succ program (some pc) none) := by
          by_cases hexit : program[pc].opcode = .exit
          · exact ⟨pc + 1, by omega, .inr ((succ_exit hi hexit).2 (.inl rfl))⟩
          by_cases hbra : program[pc].opcode = .bra
          · by_cases hg : program[pc].guard.present = true
            · exact ⟨pc + 1, by omega, .inl ((succ_bra hi hbra).2 (.inr ⟨hg, rfl⟩))⟩
            · exact ⟨_, h pc hlt hbra (by simpa using hg), .inl ((succ_bra hi hbra).2 (.inl rfl))⟩
          · exact ⟨pc + 1, by omega, .inl ((succ_other hi hbra hexit).2 rfl)⟩
        obtain ⟨q, hq, hs | hs⟩ := hgo
        · obtain ⟨l, w⟩ := ih (program.length - q) (by omega) q rfl
          exact ⟨_, .cons hs w⟩
        · exact ⟨_, .cons hs (.nil none)⟩
      · exact ⟨_, .nil none⟩
  rintro v ⟨l, w⟩
  obtain ⟨pc, rfl⟩ : ∃ pc, v = atPc program pc := by
    cases w.last with
    | inl h => exact ⟨0, h⟩
    | inr h =>
      obtain ⟨a, hs⟩ := h
      exact succ_atPc hs
  exact hpc _ pc rfl

end Start

namespace Warp

section Nesting

/-- Every control-flow path from `pc` to the end passes through `r`. -/
def OnEveryPath (program : List Instruction) (r pc : Pc) : Prop :=
  PostDom (Succ program) none (pcVertex program r) (pcVertex program pc)

/-- The divergence stack, newest entry first, nested along the control flow. -/
structure Nesting (program : List Instruction) (s : WarpState) : Prop where
  current : ∀ e ∈ s.stack, OnEveryPath program e.reconvergencePc s.pc
  resume : ∀ e ∈ s.stack, OnEveryPath program e.reconvergencePc e.resumePc
  order : s.stack.Pairwise fun newer older =>
    OnEveryPath program older.reconvergencePc newer.reconvergencePc
  vertex : ∀ e ∈ s.stack, IsVertex program (pcVertex program e.reconvergencePc)
  resumeFrom : ∀ e ∈ s.stack, FromStart program (pcVertex program e.resumePc)
  currentFrom : s.active ≠ 0 → FromStart program (pcVertex program s.pc)

variable {F : FloatOps} {program : List Instruction}

/-- What lies on every path from the top entry's reconvergence PC, and so on, lies on every path
from a pc whose paths all pass through the top entry's. -/
theorem current_of_top {s : WarpState} {pc : Pc} (hn : Nesting program s)
    (htop : ∀ e rest, s.stack = e :: rest → OnEveryPath program e.reconvergencePc pc) :
    ∀ e ∈ s.stack, OnEveryPath program e.reconvergencePc pc := by
  have horder := hn.order
  rcases hs : s.stack with _ | ⟨top, rest⟩
  · simp
  · rw [hs, List.pairwise_cons] at horder
    intro e he
    rcases List.mem_cons.1 he with rfl | he
    · exact htop e rest hs
    · exact (horder.1 e he).trans (htop top rest hs)

/-- Nesting of a stack with one entry fewer. -/
theorem Nesting.tail {s s' : WarpState} {e : DivergenceEntry} (hn : Nesting program s)
    (hs : s.stack = e :: s'.stack)
    (hcurrent : ∀ e' ∈ s'.stack, OnEveryPath program e'.reconvergencePc s'.pc)
    (hfrom : s'.active ≠ 0 → FromStart program (pcVertex program s'.pc)) : Nesting program s' := by
  obtain ⟨-, hresume, horder, hvertex, hresumeFrom, -⟩ := hn
  rw [hs] at hresume horder hvertex hresumeFrom
  exact ⟨hcurrent, fun e' he' => hresume e' (List.mem_cons_of_mem _ he'), horder.of_cons,
    fun e' he' => hvertex e' (List.mem_cons_of_mem _ he'),
    fun e' he' => hresumeFrom e' (List.mem_cons_of_mem _ he'), hfrom⟩

/-- Nesting of a stack with one entry more. -/
theorem Nesting.cons {s s' : WarpState} {e : DivergenceEntry} {rest : List DivergenceEntry}
    (hn : Nesting program s) (hsub : rest.Sublist s.stack)
    (hs' : s'.stack = e :: rest)
    (hcurrent : ∀ e' ∈ s'.stack, OnEveryPath program e'.reconvergencePc s'.pc)
    (hresume : OnEveryPath program e.reconvergencePc e.resumePc)
    (horder : ∀ e' ∈ rest, OnEveryPath program e'.reconvergencePc e.reconvergencePc)
    (hvertex : IsVertex program (pcVertex program e.reconvergencePc))
    (hresumeFrom : FromStart program (pcVertex program e.resumePc))
    (hfrom : s'.active ≠ 0 → FromStart program (pcVertex program s'.pc)) : Nesting program s' := by
  refine ⟨hcurrent, ?_, ?_, ?_, ?_, hfrom⟩ <;> rw [hs']
  · exact List.forall_mem_cons.2 ⟨hresume, fun e' he' => hn.resume e' (hsub.subset he')⟩
  · exact List.pairwise_cons.2 ⟨horder, hn.order.sublist hsub⟩
  · exact List.forall_mem_cons.2 ⟨hvertex, fun e' he' => hn.vertex e' (hsub.subset he')⟩
  · exact List.forall_mem_cons.2 ⟨hresumeFrom, fun e' he' => hn.resumeFrom e' (hsub.subset he')⟩

/-- Nesting of the same stack at another pc. -/
theorem Nesting.same {s s' : WarpState} (hn : Nesting program s) (hs : s'.stack = s.stack)
    (hcurrent : ∀ e ∈ s.stack, OnEveryPath program e.reconvergencePc s'.pc)
    (hfrom : s'.active ≠ 0 → FromStart program (pcVertex program s'.pc)) : Nesting program s' := by
  refine ⟨?_, ?_, ?_, ?_, ?_, hfrom⟩ <;> rw [hs]
  · exact hcurrent
  · exact hn.resume
  · exact hn.order
  · exact hn.vertex
  · exact hn.resumeFrom

theorem nesting_new (warpId : Word) (live : LaneMask) (context : LaneContext) :
    Nesting program (new warpId live context).toWarpState :=
  ⟨by simp [new], by simp [new], by simp [new], by simp [new], by simp [new],
    fun _ => ⟨_, .nil _⟩⟩

theorem nesting_resolve {w w' : Warp} (hn : Nesting program w.toWarpState)
    (h : w.resolveIteration = .inl w') : Nesting program w'.toWarpState := by
  cases (resolveIteration_cases h).1 with
  | resume e hempty hs hactive hpc =>
    have horder := hn.order
    have hresume := hn.resume e (by rw [hs]; exact List.mem_cons_self)
    rw [hs, List.pairwise_cons] at horder
    refine hn.tail hs (fun e' he' => ?_) fun _ => ?_
    · rw [hpc]
      exact (horder.1 e' he').trans hresume
    · rw [hpc]
      exact hn.resumeFrom e (by rw [hs]; exact List.mem_cons_self)
  | arrive e rest hne hs hat hdefer hs' hactive hpc =>
    have hmem : e ∈ w.stack := by rw [hs]; exact List.mem_cons_self
    have horder := hn.order
    rw [hs, List.pairwise_cons] at horder
    have hfrom := hn.currentFrom hne
    rw [← hat] at hfrom
    refine hn.cons (by rw [hs]; exact List.sublist_cons_self _ _) hs' ?_ (PostDom.refl _ _)
      horder.1 (hn.vertex e hmem) hfrom (fun _ => by rw [hpc]; exact hn.resumeFrom e hmem)
    rw [hs', hpc]
    exact List.forall_mem_cons.2 ⟨hn.resume e hmem,
      fun e' he' => (horder.1 e' he').trans (hn.resume e hmem)⟩
  | join e hne hs hat hjoin hactive hpc =>
    refine hn.tail hs (fun e' he' => ?_) fun _ => ?_
    · rw [hpc]
      exact hn.current e' (by rw [hs]; exact List.mem_cons_of_mem _ he')
    · rw [hpc]
      exact hn.currentFrom hne

/-- An exit that leaves lanes active hands them on to the next instruction. -/
theorem next_of_exit {w w' : Warp} {i : Instruction} (hop : i.opcode = .exit)
    (hpc : w'.pc = w.pc + 1) (hm : SameMasks (w.retire (w.execMask i)) w') (hne : w'.active ≠ 0) :
    Next i w.pc w'.pc := by
  rw [Next, if_neg (by simp [hop])]
  refine ⟨hpc, fun _ => ?_⟩
  by_contra hg
  rw [hm.active, execMask, if_neg hg] at hne
  simp [retire] at hne

/-- Where a warp is about to issue, every path that goes on does so towards the top entry's
reconvergence PC. -/
theorem onEveryPath_next {w : Warp} {i : Instruction} {v : Option Nat}
    (hn : Nesting program w.toWarpState) (hready : w.resolveIteration = .inr true)
    (hi : program[w.pc.toNat]? = some i) (hs : Succ program (pcVertex program w.pc) v) :
    ∀ e ∈ w.stack, PostDom (Succ program) none (pcVertex program e.reconvergencePc) v := by
  have horder := hn.order
  have htop : ∀ e rest, w.stack = e :: rest →
      PostDom (Succ program) none (pcVertex program e.reconvergencePc) v := by
    intro e rest hst
    refine (hn.current e (by rw [hst]; exact List.mem_cons_self)).next (fun heq => ?_) hs
    exact (resolveIteration_settled hready).2 e rest hst (eq_of_pcVertex hi heq)
  rcases hst : w.stack with _ | ⟨top, rest⟩
  · simp
  · rw [hst, List.pairwise_cons] at horder
    exact List.forall_mem_cons.2 ⟨htop top rest hst,
      fun e he => (horder.1 e he).trans (htop top rest hst)⟩

/-- The program as the pass left it, short enough, and never stuck away from its end. -/
structure Annotated (program : List Instruction) : Prop where
  length : program.length ≤ 65535
  fixed : annotateReconvergence program = (.ok (), program)
  escapes : Escapes program

theorem Annotated.recorded (ha : Annotated program) {pc : Pc} {i : Instruction}
    (hi : program[pc.toNat]? = some i) (hop : i.opcode = .bra) (hg : i.guard.present = true)
    (hfrom : FromStart program (pcVertex program pc)) :
    Recorded program pc.toNat i.reconvergencePc := by
  refine recorded_of_annotated ha.length ha.fixed hi hop hg ?_
  have hr := ha.escapes _ hfrom
  rwa [pcVertex_of_some hi] at hr

theorem nesting_effect (ha : Annotated program) {w w' : Warp} {i : Instruction}
    (hp : Partition w.toWarpState) (hn : Nesting program w.toWarpState)
    (hready : w.resolveIteration = .inr true) (hi : program[w.pc.toNat]? = some i)
    (h : Effect i w w') : Nesting program w'.toWarpState := by
  have hfrom := hn.currentFrom (resolveIteration_settled hready).1
  cases h with
  | stay hpc hm =>
    refine hn.same hm.stack ?_ fun _ => ?_ <;> rw [hpc]
    · exact hn.current
    · exact hfrom
  | move hpc hm =>
    have hs := succ_of_next ha.length hi hpc
    exact hn.same hm.stack (onEveryPath_next hn hready hi hs) fun _ => hfrom.next hs
  | exit hop hpc hm =>
    have hstack : w'.stack = w.stack := by
      rw [hm.stack]
      exact retire_stack hp fun _ => execMask_sub_active
    have hend : Succ program (pcVertex program w.pc) none := by
      rw [pcVertex_of_some hi, succ_exit hi hop]
      exact .inl rfl
    -- The end comes right after an exit, so no entry rejoins before it.
    refine hn.same hstack (fun e he => ?_) fun hne => ?_
    · rw [OnEveryPath, (onEveryPath_next hn hready hi hend e he).eq_exit]
      exact PostDom.exit none _
    · exact hfrom.next (succ_of_next ha.length hi (next_of_exit hop hpc hm hne))
  | split hop hg hpc hactive hlive hstack htaken hfall =>
    have hrec := ha.recorded hi hop hg hfrom
    have htarget : Succ program (pcVertex program w.pc) (pcVertex program i.branchTarget) := by
      refine succ_of_next ha.length hi ?_
      rw [Next, if_pos hop]
      exact .inl rfl
    have hnext : Succ program (pcVertex program w.pc) (pcVertex program (w.pc + 1)) := by
      refine succ_of_next ha.length hi ?_
      rw [Next, if_pos hop]
      exact .inr ⟨hg, rfl⟩
    have hpd : OnEveryPath program i.reconvergencePc w.pc := by
      rw [OnEveryPath, pcVertex_of_some hi]
      exact hrec.postDom
    have hne : pcVertex program i.reconvergencePc ≠ pcVertex program w.pc := by
      rw [pcVertex_of_some hi]
      exact hrec.immediate_ne
    -- The entries below rejoin after the branch, and the recorded PC is the first to do so.
    have htop : ∀ e rest, w.stack = e :: rest →
        OnEveryPath program e.reconvergencePc i.reconvergencePc := by
      intro e rest hs
      have hmem : e ∈ w.stack := by rw [hs]; exact List.mem_cons_self
      have hcur := hn.current e hmem
      rw [OnEveryPath, pcVertex_of_some hi] at hcur
      refine hrec.least _ (hn.vertex e hmem) (fun heq => ?_) hcur
      rw [← pcVertex_of_some hi] at heq
      exact (resolveIteration_settled hready).2 e rest hs (eq_of_pcVertex hi heq)
    refine hn.cons (List.Sublist.refl _) hstack ?_ (hpd.next hne hnext)
      (current_of_top hn htop) hrec.isVertex (hfrom.next hnext)
      fun _ => by rw [hpc]; exact hfrom.next htarget
    rw [hstack, hpc]
    exact List.forall_mem_cons.2 ⟨hpd.next hne htarget, onEveryPath_next hn hready hi htarget⟩

theorem nesting_fall {w : Warp} (hp : Partition w.toWarpState) (hn : Nesting program w.toWarpState)
    (h : w.resolveIteration = .inr true) : Nesting program (w.retire w.active).toWarpState :=
  hn.same (retire_stack hp fun _ hl => hl) hn.current fun _ =>
    hn.currentFrom (resolveIteration_settled h).1

/-- Every micro step keeps the stack nested. -/
theorem nesting_micro (ha : Annotated program) {w w' : Warp} (hp : Partition w.toWarpState)
    (hn : Nesting program w.toWarpState) (h : MicroStep F program w w') :
    Nesting program w'.toWarpState := by
  cases h with
  | resolve h => exact nesting_resolve hn h
  | fall h hpc => exact nesting_fall hp hn h
  | issue port m h hpc => exact nesting_effect ha hp hn h hpc (issue_effect F port _ w m)
  | release => exact hn.same rfl hn.current hn.currentFrom

end Nesting

section Rejoin

variable {F : FloatOps} {program : List Instruction}

/-- What splitting the mask `m` over the stack `base` leaves until it rejoins at `r`: the entries
above `base`, of which the oldest rejoins at `r`, and the lanes of `m` among them and the active
ones. -/
structure Rejoining (r : Pc) (m : LaneMask) (base above : List DivergenceEntry) (s : WarpState) :
    Prop where
  stack : s.stack = above ++ base
  oldest : (above.map DivergenceEntry.reconvergencePc).getLast? = some r
  active : s.active ≠ 0
  lanes : ∀ lane, (hasLane s.active lane).toNat
    + (above.map fun e => (hasLane e.mask lane).toNat).sum = (hasLane m lane).toNat

variable {r : Pc} {m : LaneMask} {base above : List DivergenceEntry}

theorem Rejoining.depth {s : WarpState} (h : Rejoining r m base above s) :
    base.length < s.stack.length := by
  rw [h.stack, List.length_append]
  have hne : above ≠ [] := by
    rintro rfl
    cases h.oldest
  have := List.length_pos_of_ne_nil hne
  omega

/-- No lane of the split mask has retired. -/
theorem Rejoining.live {s : WarpState} (hp : Partition s) (h : Rejoining r m base above s)
    {lane : Nat} (hl : hasLane m lane = true) : hasLane s.live lane = true := by
  have honce := hp.once lane
  have hlanes := h.lanes lane
  rw [WarpState.occurrences, h.stack, List.map_append, List.sum_append] at honce
  rw [hl, Bool.toNat_true] at hlanes
  cases hlive : hasLane s.live lane
  · rw [hlive, Bool.toNat_false] at honce
    omega
  · rfl

theorem Rejoining.mem_oldest {s : WarpState} (h : Rejoining r m base above s) :
    ∃ e ∈ s.stack, e.reconvergencePc = r := by
  obtain ⟨e, he, hr⟩ := List.mem_map.1 (List.mem_of_getLast? h.oldest)
  exact ⟨e, by rw [h.stack]; exact List.mem_append_left _ he, hr⟩

/-- The lanes inside cannot come to the end: they have to pass `r` first. -/
theorem Rejoining.not_end {w : Warp} {i : Instruction} (h : Rejoining r m base above w.toWarpState)
    (hn : Nesting program w.toWarpState) (hr : pcVertex program r ≠ none)
    (hready : w.resolveIteration = .inr true) (hi : program[w.pc.toNat]? = some i) :
    ¬Succ program (pcVertex program w.pc) none := by
  intro hs
  obtain ⟨e, he, rfl⟩ := h.mem_oldest
  exact hr (onEveryPath_next hn hready hi hs e he).eq_exit

theorem Rejoining.same {s s' : WarpState} (h : Rejoining r m base above s)
    (ha : s'.active = s.active) (hs : s'.stack = s.stack) : Rejoining r m base above s' :=
  ⟨by rw [hs]; exact h.stack, h.oldest, by rw [ha]; exact h.active, by rw [ha]; exact h.lanes⟩

theorem rejoining_resolve {w w' : Warp} (hp : Partition w.toWarpState)
    (h : Rejoining r m base above w.toWarpState) (hstep : w.resolveIteration = .inl w') :
    (∃ above', Rejoining r m base above' w'.toWarpState)
      ∨ (w'.stack = base ∧ w'.pc = r ∧ w'.active = m) := by
  obtain ⟨hstack, holdest, hactive, hlanes⟩ := h
  rcases above with _ | ⟨top, above⟩
  · cases holdest
  simp only [List.map_cons, List.sum_cons] at hlanes
  cases (resolveIteration_cases hstep).1 with
  | resume e hempty => exact absurd hempty hactive
  | arrive e rest hne hs hat hdefer hs' hactive' hpc =>
    rw [hstack, List.cons_append, List.cons.injEq] at hs
    obtain ⟨rfl, rfl⟩ := hs
    refine .inl ⟨⟨top.reconvergencePc, top.reconvergencePc, w.active⟩ :: above, hs', holdest, ?_,
      fun lane => ?_⟩
    · rw [hactive']
      exact hp.nonempty top (by rw [hstack]; exact List.mem_cons_self)
    · have := hlanes lane
      rw [hactive']
      simp only [List.map_cons, List.sum_cons]
      omega
  | join e hne hs hat hjoin hactive' hpc =>
    rw [hstack, List.cons_append, List.cons.injEq] at hs
    obtain ⟨rfl, hs⟩ := hs
    have hunion : ∀ lane, (hasLane w'.active lane).toNat
        = (hasLane w.active lane).toNat + (hasLane top.mask lane).toNat := by
      intro lane
      have := hlanes lane
      have hm : (hasLane m lane).toNat ≤ 1 := Bool.toNat_le _
      rw [hactive', hasLane_or, toNat_or_of_le_one (by omega)]
    rcases above with _ | ⟨e, above⟩
    · refine .inr ⟨hs.symm, ?_, mask_ext fun lane => ?_⟩
      · rw [hpc, ← hat]
        exact Option.some.inj holdest
      · have h1 := hunion lane
        have h2 := hlanes lane
        simp only [List.map_nil, List.sum_nil, Nat.add_zero] at h2
        exact eq_of_toNat_eq (h1.trans h2)
    · refine .inl ⟨e :: above, hs.symm, holdest, ?_, fun lane => ?_⟩
      · obtain ⟨lane, hl⟩ := mask_ne_zero.1 hne
        refine mask_ne_zero.2 ⟨lane, ?_⟩
        rw [hactive', hasLane_or, hl]
        rfl
      · have := hlanes lane
        rw [hunion lane]
        omega

/-- Until the lanes of the split mask rejoin, the warp issues for some of them; then, in one
iteration, all of them are active at the reconvergence PC. -/
theorem rejoining_micro (hr : pcVertex program r ≠ none) {w w' : Warp}
    (hp : Partition w.toWarpState) (hn : Nesting program w.toWarpState)
    (h : Rejoining r m base above w.toWarpState) (hstep : MicroStep F program w w') :
    (∃ above', Rejoining r m base above' w'.toWarpState)
      ∨ (w.resolveIteration = .inl w' ∧ w'.stack = base ∧ w'.pc = r ∧ w'.active = m) := by
  cases hstep with
  | resolve hit => exact (rejoining_resolve hp h hit).imp_right fun hjoin => ⟨hit, hjoin⟩
  | release => exact .inl ⟨above, h.same rfl rfl⟩
  | fall hit hpc =>
    obtain ⟨e, he, rfl⟩ := h.mem_oldest
    have hcur := hn.current e he
    rw [OnEveryPath, pcVertex_of_none hpc] at hcur
    exact absurd hcur.eq_exit hr
  | issue port mem hit hpc =>
    rename_i i
    refine .inl ?_
    cases issue_effect F port i w mem with
    | stay _ hm => exact ⟨above, h.same hm.active hm.stack⟩
    | move _ hm => exact ⟨above, h.same hm.active hm.stack⟩
    | exit hop =>
      refine absurd ?_ (h.not_end hn hr hit hpc)
      rw [pcVertex_of_some hpc, succ_exit hpc hop]
      exact .inl rfl
    | split hop hg hpc' hactive hlive hstack htaken hfall =>
      refine ⟨_ :: above, by rw [hstack, h.stack]; rfl, ?_, by rw [hactive]; exact htaken,
        fun lane => ?_⟩
      · rcases above with _ | ⟨e, above⟩
        · cases h.oldest
        · exact h.oldest
      · have := h.lanes lane
        have hsub : hasLane (w.execMask i) lane = true → hasLane w.active lane = true :=
          execMask_sub_active
        rw [hactive]
        simp only [List.map_cons, List.sum_cons, hasLane_and_not]
        cases hl : hasLane w.active lane <;> cases he : hasLane (w.execMask i) lane <;> simp_all

end Rejoin

section Statement

variable (F : FloatOps)

/-- A guarded branch that some active lanes take and some do not. -/
def Splits (i : Instruction) (w : Warp) : Prop :=
  i.opcode = .bra ∧ i.guard.present = true ∧ w.execMask i ≠ 0 ∧ w.active &&& ~~~w.execMask i ≠ 0

/-- Runs of which no step leaves the stack at depth `d`. -/
abbrev RunOff (program : List Instruction) (d : Nat) : Warp → Warp → Prop :=
  Relation.ReflTransGen fun w w' => MicroStep F program w w' ∧ w'.stack.length ≠ d

variable {F} {program source : List Instruction}

theorem annotated_of_source (hann : annotateReconvergence source = (.ok (), program))
    (hlen : program.length ≤ 65535) (hesc : Escapes program) : Annotated program := by
  refine ⟨hlen, ?_, hesc⟩
  have := annotateReconvergence_idem source
  rwa [hann] at this

theorem nesting_reachable (ha : Annotated program) {w : Warp} (h : Reachable F program w) :
    Partition w.toWarpState ∧ Nesting program w.toWarpState :=
  reachable_induction (P := fun w => Partition w.toWarpState ∧ Nesting program w.toWarpState)
    (fun _ _ _ => ⟨partition_new _ _ _, nesting_new _ _ _⟩)
    (fun _ _ hw hs => ⟨partition_micro hw.1 hs, nesting_micro ha hw.1 hw.2 hs⟩) h

theorem issue_splits {σ : Type} (port : MemoryPort σ) {i : Instruction} {w : Warp}
    (h : Splits i w) (m : σ) :
    (w.issue F port i m).2.1.active = w.execMask i
      ∧ (w.issue F port i m).2.1.stack
        = ⟨i.reconvergencePc, w.pc + 1, w.active &&& ~~~w.execMask i⟩ :: w.stack := by
  obtain ⟨hop, hg, htaken, hfall⟩ := h
  have hguard : ¬(!i.guard.present) = true := by simp [hg]
  unfold issue
  simp only [hop]
  unfold branch
  simp only [if_neg hguard, if_neg htaken, if_neg hfall, and_self]

/-- A split begins to wait for the rejoin. -/
theorem rejoining_issue {σ : Type} (port : MemoryPort σ) {i : Instruction} {w : Warp}
    (h : Splits i w) (m : σ) : ∃ above, Rejoining i.reconvergencePc w.active w.stack above
      (w.issue F port i m).2.1.toWarpState := by
  obtain ⟨hactive, hstack⟩ := issue_splits (F := F) port h m
  obtain ⟨-, -, htaken, -⟩ := h
  refine ⟨[_], hstack, rfl, by rw [hactive]; exact htaken, fun lane => ?_⟩
  have hsub : hasLane (w.execMask i) lane = true → hasLane w.active lane = true :=
    execMask_sub_active
  rw [hactive]
  simp only [List.map_cons, List.map_nil, List.sum_cons, List.sum_nil, hasLane_and_not]
  cases hl : hasLane w.active lane <;> cases he : hasLane (w.execMask i) lane <;> simp_all

theorem rejoining_run (ha : Annotated program) {r : Pc} (hr : pcVertex program r ≠ none)
    {m : LaneMask} {base : List DivergenceEntry} {w w' : Warp}
    (hrun : RunOff F program base.length w w') (hp : Partition w.toWarpState)
    (hn : Nesting program w.toWarpState) (h : ∃ above, Rejoining r m base above w.toWarpState) :
    Partition w'.toWarpState ∧ Nesting program w'.toWarpState
      ∧ ∃ above, Rejoining r m base above w'.toWarpState := by
  induction hrun with
  | refl => exact ⟨hp, hn, h⟩
  | tail _ hs ih =>
    obtain ⟨hp, hn, above, h⟩ := ih
    refine ⟨partition_micro hp hs.1, nesting_micro ha hp hn hs.1, ?_⟩
    rcases rejoining_micro hr hp hn h hs.1 with h' | ⟨-, hbase, -⟩
    · exact h'
    · exact absurd (congrArg List.length hbase) hs.2

/-- In every reachable warp the reconvergence PC of the top entry is on every path from the pc to
the end, that of each entry on every path from where it resumes, and that of each older entry on
every path from that of a newer one. When a branch splits the active mask and records a PC before
the end, none of the mask's lanes retires before the stack is back at its depth, which it is when
an iteration of `resolve_stack` makes all of them active at that PC. -/
theorem nesting_and_rejoin (hann : annotateReconvergence source = (.ok (), program))
    (hlen : program.length ≤ 65535) (hesc : Escapes program) {w : Warp}
    (hw : Reachable F program w) :
    (∀ e rest, w.stack = e :: rest → OnEveryPath program e.reconvergencePc w.pc)
    ∧ (∀ e ∈ w.stack, OnEveryPath program e.reconvergencePc e.resumePc)
    ∧ (w.stack.Pairwise fun newer older =>
        OnEveryPath program older.reconvergencePc newer.reconvergencePc)
    ∧ ∀ {σ : Type} (port : MemoryPort σ) (m : σ) (i : Instruction) (r : Warp),
        w.settle program = .ready i r → Splits i r → i.reconvergencePc ≠ noReconvergence →
        ∀ w₂, RunOff F program r.stack.length (w.step F port program m).2.1 w₂ →
          (∀ lane, hasLane r.active lane = true → hasLane w₂.live lane = true)
          ∧ ∀ w₃, MicroStep F program w₂ w₃ → w₃.stack.length = r.stack.length →
            w₂.resolveIteration = .inl w₃ ∧ w₃.pc = i.reconvergencePc ∧ w₃.active = r.active
            ∧ ∀ lane, hasLane r.active lane = true → hasLane w₃.live lane = true := by
  have ha := annotated_of_source hann hlen hesc
  obtain ⟨hp, hn⟩ := nesting_reachable ha hw
  refine ⟨fun e rest hs => hn.current e (by rw [hs]; exact List.mem_cons_self), hn.resume,
    hn.order, fun {σ} port m i r hsettle hsplit hr w₂ hrun => ?_⟩
  have hmicro := settle_micro F program w
  rw [hsettle] at hmicro
  obtain ⟨htoReady, hready, hi⟩ := hmicro
  obtain ⟨hpr, hnr⟩ := micro_invariant
    (P := fun w => Partition w.toWarpState ∧ Nesting program w.toWarpState)
    (fun _ _ hw hs => ⟨partition_micro hw.1 hs, nesting_micro ha hw.1 hw.2 hs⟩) htoReady ⟨hp, hn⟩
  have hvertex : pcVertex program i.reconvergencePc ≠ none := fun hnone =>
    hr ((ha.recorded hi hsplit.1 hsplit.2.1
      (hnr.currentFrom (resolveIteration_settled hready).1)).none_of_end hnone)
  have hissue : MicroStep F program r (w.step F port program m).2.1 := by
    rw [step, hsettle]
    exact .issue port m hready hi
  have hbegin : ∃ above, Rejoining i.reconvergencePc r.active r.stack above
      (w.step F port program m).2.1.toWarpState := by
    rw [step, hsettle]
    exact rejoining_issue port hsplit m
  obtain ⟨hp₂, hn₂, above, h₂⟩ := rejoining_run ha hvertex hrun (partition_micro hpr hissue)
    (nesting_micro ha hpr hnr hissue) hbegin
  refine ⟨fun lane => h₂.live hp₂, fun w₃ hs hdepth => ?_⟩
  rcases rejoining_micro hvertex hp₂ hn₂ h₂ hs with ⟨above', h₃⟩ | ⟨hit, -, hpc, hactive⟩
  · have := h₃.depth
    omega
  · refine ⟨hit, hpc, hactive, fun lane hl => ?_⟩
    rw [(resolveIteration_cases hit).2.live]
    exact h₂.live hp₂ hl

/-- The warp of `divergingProgram` whose next step splits. -/
def splittingWarp : Warp :=
  ((new 0 fullMask {}).steps default nullMemory divergingProgram 2 ()).1

/-- A lane it holds back has not retired after the step. -/
theorem splittingWarp_rejoin :
    hasLane (splittingWarp.step default nullMemory divergingProgram ()).2.1.live 20 = true :=
  have hann : annotateReconvergence divergingProgram = (.ok (), divergingProgram) := by
    decide +kernel
  ((nesting_and_rejoin (F := default) hann (by decide)
    (escapes_of_forward (by decide)) ⟨0, fullMask, {}, steps_warpStep nullMemory 2 _ ()⟩).2.2.2
    nullMemory ()
    { opcode := .bra, guard := ⟨true, false, 0⟩, imm := Instruction.makeBranchImm 4 4 }
    splittingWarp (settle_of_ready (by decide +kernel) (by decide +kernel) (by decide +kernel))
    ⟨rfl, rfl, by decide +kernel, by decide +kernel⟩ (by decide) _ .refl).1 20 (by decide +kernel)

end Statement

end Warp

end WarpSim
