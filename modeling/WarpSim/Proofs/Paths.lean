import WarpSim.Proofs.Annotate

/-!
# Blocks and instructions post-dominate alike

A walk between instructions is a walk between their blocks with each block walked straight
through. So what the pass records at a branch, in terms of blocks, is the immediate
post-dominator of the branch among the beginnings of blocks.
-/

namespace WarpSim

variable {program : List Instruction} {start pc : Nat}

section Straight

/-- Inside a block control only goes on to the next instruction. -/
theorem succ_inside {y : Option Nat} (hend : ¬EndsBlock program pc)
    (h : Succ program (some pc) y) : y = some (pc + 1) := by
  obtain ⟨i, hi, -⟩ := id h
  have hpc := (List.getElem?_eq_some_iff.1 hi).1
  have hop : ¬(i.opcode = .bra ∨ i.opcode = .exit) :=
    fun hterm => hend (endsBlock_of_terminator hi hterm)
  rw [not_or] at hop
  rw [(succ_other hi hop.1 hop.2).1 h, atPc, if_pos]
  rw [EndsBlock, not_or] at hend
  omega

theorem InBlock.not_endsBlock (h : InBlock program start pc) {k : Nat} (hs : start ≤ k)
    (hk : k < pc) : ¬EndsBlock program k := by
  rintro (he | he)
  · have := h.lt
    omega
  · exact h.first (k + 1) (by omega) (by omega) he

theorem InBlock.next (h : InBlock program start pc) (hend : ¬EndsBlock program pc) :
    InBlock program start (pc + 1) := by
  rw [EndsBlock, not_or] at hend
  refine ⟨h.leader, Nat.le_succ_of_le h.le, by have := h.lt; omega, fun k h1 h2 => ?_⟩
  rcases Nat.le_succ_iff.1 h2 with h2 | rfl
  · exact h.first k h1 h2
  · exact hend.2

/-- Every walk from a block's beginning to the end passes through the rest of the block. -/
theorem InBlock.postDom (h : InBlock program start pc) :
    PostDom (Succ program) none (some pc) (some start) := by
  intro l w
  have hwalk : ∀ {x y : Option Nat} {l : List (Option Nat)}, Walk (Succ program) x l y → y = none →
      ∀ k, x = some k → start ≤ k → k ≤ pc → some pc ∈ l := by
    intro x y l w
    induction w with
    | nil a =>
      rintro rfl k hk
      cases hk
    | cons hs w ih =>
      rintro rfl k rfl hk hkpc
      rcases Nat.lt_or_eq_of_le hkpc with hlt | rfl
      · have hy := succ_inside (h.not_endsBlock hk hlt) hs
        exact List.mem_cons_of_mem _ (ih rfl (k + 1) hy (by omega) (by omega))
      · exact List.mem_cons_self
  exact hwalk w rfl start rfl (Nat.le_refl _) h.le

/-- The walk from a block's beginning to one of its instructions. -/
theorem InBlock.walk (h : InBlock program start pc) : ∃ l,
    Walk (Succ program) (some start) l (some pc)
      ∧ ∀ x ∈ l, ∃ k, x = some k ∧ start ≤ k ∧ k ≤ pc := by
  have hwalk : ∀ m, start + m ≤ pc → ∃ l, Walk (Succ program) (some start) l (some (start + m))
      ∧ ∀ x ∈ l, ∃ k, x = some k ∧ start ≤ k ∧ k ≤ pc := by
    intro m
    induction m with
    | zero => exact fun hm => ⟨[some start], .nil _, by simp; omega⟩
    | succ m ih =>
      intro hm
      obtain ⟨l, w, hl⟩ := ih (by omega)
      have hlt : start + m < program.length := by have := h.lt; omega
      have hi : program[start + m]? = some program[start + m] := List.getElem?_eq_getElem hlt
      have hop : ¬(program[start + m].opcode = .bra ∨ program[start + m].opcode = .exit) :=
        fun hterm => h.not_endsBlock (k := start + m) (by omega) (by omega)
          (endsBlock_of_terminator hi hterm)
      rw [not_or] at hop
      have hs : Succ program (some (start + m)) (some (start + (m + 1))) := by
        rw [succ_other hi hop.1 hop.2, atPc, if_pos (by have := h.lt; omega)]
        rfl
      obtain ⟨l', w', hmem⟩ := w.append (.cons hs (.nil _))
      refine ⟨l', w', fun x hx => ?_⟩
      rcases (hmem x).1 hx with hx | hx
      · exact hl x hx
      · simp only [List.mem_cons, List.not_mem_nil, or_false] at hx
        rcases hx with rfl | rfl
        · exact ⟨_, rfl, by omega, by omega⟩
        · exact ⟨_, rfl, by omega, by omega⟩
  obtain ⟨l, w, hl⟩ := hwalk (pc - start) (by have := h.le; omega)
  rw [Nat.add_sub_cancel' h.le] at w
  exact ⟨l, w, hl⟩

end Straight

section Bridge

/-- The beginnings of blocks, and the end of the program. -/
def IsVertex (program : List Instruction) (v : Option Nat) : Prop :=
  ∀ l, v = some l → IsLeader program l

theorem isVertex_none : IsVertex program none := by
  intro l h
  cases h

/-- A walk between instructions, seen from the blocks. -/
theorem contract {x y : Option Nat} {l : List (Option Nat)} (w : Walk (Succ program) x l y) :
    y = none → ∀ start pc, x = some pc → InBlock program start pc →
      ∃ lb, Walk (BlockSucc program) (some start) lb none ∧ ∀ v ∈ lb, v = some start ∨ v ∈ l := by
  induction w with
  | nil a =>
    rintro rfl start pc hpc
    cases hpc
  | @cons a b c l hs w ih =>
    rintro rfl start pc rfl hin
    by_cases hend : EndsBlock program pc
    · have hblock : BlockSucc program (some start) b := ⟨pc, hin, hend, hs⟩
      rcases blockSucc_leader hblock with rfl | ⟨q, rfl, hq⟩
      · refine ⟨[some start, none], .cons hblock (.nil _), fun v hv => ?_⟩
        simp only [List.mem_cons, List.not_mem_nil, or_false] at hv
        rcases hv with rfl | rfl
        · exact .inl rfl
        · exact .inr (List.mem_cons_of_mem _ w.end_mem)
      · obtain ⟨lb, wb, hlb⟩ := ih rfl q q rfl (inBlock_self hq)
        refine ⟨_, .cons hblock wb, fun v hv => ?_⟩
        rcases List.mem_cons.1 hv with rfl | hv
        · exact .inl rfl
        · rcases hlb v hv with rfl | hv
          · exact .inr (List.mem_cons_of_mem _ w.start_mem)
          · exact .inr (List.mem_cons_of_mem _ hv)
    · obtain ⟨lb, wb, hlb⟩ := ih rfl start (pc + 1) (succ_inside hend hs) (hin.next hend)
      exact ⟨lb, wb, fun v hv => (hlb v hv).imp_right (List.mem_cons_of_mem _)⟩

/-- A walk between blocks, walked through. -/
theorem expand {x y : Option Nat} {lb : List (Option Nat)} (w : Walk (BlockSucc program) x lb y) :
    y = none → IsVertex program x →
      ∃ l, Walk (Succ program) x l none ∧ ∀ v ∈ l, IsVertex program v → v ∈ lb := by
  induction w with
  | nil a =>
    rintro rfl -
    exact ⟨[none], .nil _, fun v hv _ => hv⟩
  | @cons a b c l hs w ih =>
    rintro rfl hv
    obtain ⟨m, wm, hm⟩ := ih rfl (by
      intro q hq
      rcases a with _ | start
      · cases hs
      · rcases blockSucc_leader hs with hb | ⟨r, hb, hl⟩
        · rw [hb] at hq
          cases hq
        · rw [hb] at hq
          cases hq
          exact hl)
    rcases a with _ | start
    · cases hs
    · obtain ⟨pc, hin, hend, hsucc⟩ := hs
      obtain ⟨p, wp, hp⟩ := hin.walk
      obtain ⟨m', wm', hmem⟩ := wp.append (.cons hsucc wm)
      have honly : ∀ v ∈ p, IsVertex program v → v = some start := by
        intro v hvp hvv
        obtain ⟨k, rfl, hk1, hk2⟩ := hp v hvp
        rcases Nat.lt_or_eq_of_le hk1 with hlt | rfl
        · exact absurd (hvv k rfl) (hin.first k hlt hk2)
        · rfl
      refine ⟨m', wm', fun v hvm hvv => ?_⟩
      rcases (hmem v).1 hvm with h | h
      · rw [honly v h hvv]
        exact List.mem_cons_self
      · rcases List.mem_cons.1 h with rfl | h
        · rw [honly _ wp.end_mem hvv]
          exact List.mem_cons_self
        · exact List.mem_cons_of_mem _ (hm v h hvv)

theorem reaches_block (hin : InBlock program start pc)
    (hr : Reaches (Succ program) none (some pc)) :
    Reaches (BlockSucc program) none (some start) := by
  obtain ⟨l, w⟩ := hr
  obtain ⟨lb, wb, -⟩ := contract w rfl start pc rfl hin
  exact ⟨lb, wb⟩

/-- What post-dominates a block, itself apart, post-dominates its instructions. -/
theorem postDom_instruction (hin : InBlock program start pc) {v : Option Nat}
    (hne : v ≠ some start) (h : PostDom (BlockSucc program) none v (some start)) :
    PostDom (Succ program) none v (some pc) := by
  intro l w
  obtain ⟨lb, wb, hlb⟩ := contract w rfl start pc rfl hin
  exact (hlb v (h lb wb)).resolve_left hne

/-- A beginning of a block that post-dominates an instruction post-dominates its block. -/
theorem postDom_block (hin : InBlock program start pc) {v : Option Nat}
    (hv : IsVertex program v) (h : PostDom (Succ program) none v (some pc)) :
    PostDom (BlockSucc program) none v (some start) := by
  intro lb wb
  obtain ⟨l, w, hl⟩ := expand wb rfl (fun q hq => by cases hq; exact hin.leader)
  exact hl v (h.trans hin.postDom l w) hv

end Bridge

section Recorded

/-- The instruction a recorded reconvergence PC stands for; the end if it is 0xFFFF. -/
def pcVertex (program : List Instruction) (pc : BitVec 16) : Option Nat := atPc program pc.toNat

/-- What the pass records at a guarded branch: of the vertices where a block begins, the first
that every path from the branch to the end passes through after it. -/
structure Recorded (program : List Instruction) (pc : Nat) (r : BitVec 16) : Prop where
  isVertex : IsVertex program (pcVertex program r)
  none_of_end : pcVertex program r = none → r = noReconvergence
  immediate_ne : pcVertex program r ≠ some pc
  postDom : PostDom (Succ program) none (pcVertex program r) (some pc)
  least : ∀ v, IsVertex program v → v ≠ some pc → PostDom (Succ program) none v (some pc) →
    PostDom (Succ program) none v (pcVertex program r)

theorem recorded_of_annotated {i : Instruction} (hlen : program.length ≤ 65535)
    (hann : annotateReconvergence program = (.ok (), program)) (hi : program[pc]? = some i)
    (hop : i.opcode = .bra) (hg : i.guard.present = true)
    (hr : Reaches (Succ program) none (some pc)) : Recorded program pc i.reconvergencePc := by
  rcases hcfg : buildCfg program with e | cfg
  · rw [annotateReconvergence_error hcfg] at hann
    cases hann
  · have hi' : i = annotated cfg pc i := by
      rw [annotateReconvergence_ok hcfg, Prod.mk.injEq] at hann
      have := congrArg (fun q : List Instruction => q[pc]?) hann.2
      simp only [List.getElem?_mapIdx, hi, Option.map_some, Option.some.injEq] at this
      exact this.symm
    have hhalf : i.reconvergencePc = reconvergenceOf cfg (postDominators cfg) pc i := by
      have := (annotated_bra hop cfg pc).2.2
      rwa [← hi'] at this
    obtain ⟨start, hin⟩ := exists_inBlock (List.getElem?_eq_some_iff.1 hi).1
    obtain ⟨d, himm, hd⟩ := (reconvergenceOf_spec (buildCfg_built hcfg) hi hop hg hin).2
      (reaches_block hin hr)
    rw [← hhalf] at hd
    have hvertex : pcVertex program i.reconvergencePc = d ∧ IsVertex program d
        ∧ (d = none → i.reconvergencePc = noReconvergence) := by
      rcases d with _ | r
      · have hout : ¬65535 < program.length := by omega
        refine ⟨?_, isVertex_none, fun _ => hd⟩
        rw [hd]
        exact if_neg hout
      · obtain ⟨hl, hr⟩ := hd
        have htoNat : i.reconvergencePc.toNat = r := by
          rw [hr, BitVec.toNat_ofNat]
          exact Nat.mod_eq_of_lt (by have := hl.1; omega)
        refine ⟨by rw [pcVertex, htoNat, atPc, if_pos hl.1], ?_, fun hn => by cases hn⟩
        intro l hl'
        cases hl'
        exact hl
    obtain ⟨hv, hvd, hnone⟩ := hvertex
    refine ⟨by rw [hv]; exact hvd, by rw [hv]; exact hnone, ?_, ?_, fun v hvv hne hpd => ?_⟩
    · rw [hv]
      rintro rfl
      -- A branch at the beginning of its block is its whole block.
      exact himm.ne (by rw [(inBlock_self (hvd pc rfl)).unique hin])
    · rw [hv]
      exact postDom_instruction hin himm.ne himm.postDom
    · rw [hv]
      have hvs : v ≠ some start := by
        rintro rfl
        exact hne (PostDom.antisymm hr hpd hin.postDom)
      have hblock := himm.least v hvs (postDom_block hin hvv hpd)
      rcases d with _ | r
      · rw [hblock.eq_exit]
        exact PostDom.refl none none
      · by_cases hvr : v = some r
        · rw [hvr]
          exact PostDom.refl none _
        · exact postDom_instruction (inBlock_self (hvd r rfl)) hvr hblock

end Recorded

end WarpSim
