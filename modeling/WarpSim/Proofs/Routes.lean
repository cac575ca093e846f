import WarpSim.Proofs.Alone

/-!
# Where the control of a given program goes

Checks that decide, for a program written out, what the theorems about every program assume: that
each instruction has a way to the end, and that lanes which part meet before a barrier.
-/

namespace WarpSim

variable {program : List Instruction}

/-- The vertices that control can go to from an instruction. -/
def nexts (program : List Instruction) (pc : Nat) : List (Option Nat) :=
  match program[pc]? with
  | none => []
  | some i =>
    match i.opcode with
    | .bra => atPc program i.branchTarget.toNat
      :: if i.guard.present then [atPc program (pc + 1)] else []
    | .exit => none :: if i.guard.present then [atPc program (pc + 1)] else []
    | _ => [atPc program (pc + 1)]

theorem mem_nexts {pc : Nat} {v : Option Nat} :
    v ∈ nexts program pc ↔ Succ program (some pc) v := by
  rw [nexts, Succ]
  rcases program[pc]? with _ | i
  · simp
  · simp only [Option.some.injEq, exists_eq_left']
    split <;> simp_all [List.mem_ite_nil_right]

/-- A program escapes if every instruction has a next one of lower rank, or may end. -/
theorem escapes_of_rank (rank : Nat → Nat) (h : ∀ pc < program.length,
    ∃ v ∈ nexts program pc, ∀ q ∈ v, rank q < rank pc) : Escapes program := by
  rintro v ⟨l, w⟩
  refine reaches_of_rank (P := fun v => ∃ pc, v = atPc program pc)
    (fun v => v.elim 0 fun pc => rank pc + 1) ?_ ?_
  · rintro _ ⟨pc, rfl⟩ hne
    have hlt : pc < program.length := by
      by_contra hge
      exact hne (if_neg hge)
    obtain ⟨v, hv, hrank⟩ := h pc hlt
    rw [atPc, if_pos hlt]
    have hs := mem_nexts.1 hv
    refine ⟨v, hs, succ_atPc hs, ?_⟩
    rcases v with _ | q
    · exact Nat.succ_pos _
    · exact Nat.succ_lt_succ (hrank q rfl)
  · rcases w.last with h | ⟨a, hs⟩
    · exact ⟨0, h⟩
    · exact succ_atPc hs

/-- Lanes that part at a branch meet before a barrier if the instructions on the way to the
reconvergence PC lead nowhere else, and none of them is a barrier. -/
theorem meetsBefore_of_closed (way : List Nat) {pc : Pc} {i : Instruction}
    (hrec : i.reconvergencePc ≠ noReconvergence) (hpc : pc.toNat ∈ way)
    (hclosed : ∀ p ∈ way, ∀ v ∈ nexts program p, ∀ q ∈ v, q = i.reconvergencePc.toNat ∨ q ∈ way)
    (hfree : ∀ p ∈ way, ∀ j ∈ program[p]?, j.opcode ≠ .barSync) : MeetsBefore program pc i := by
  intro q j hj hop
  refine ⟨hrec, fun l w => by_contra fun havoid => ?_⟩
  have hin := w.stays (S := fun v => ∀ q ∈ v, q = i.reconvergencePc.toNat ∨ q ∈ way)
    (d := pcVertex program i.reconvergencePc) ?_ ?_ havoid
  · rcases hin q rfl with rfl | hmem
    · refine havoid ?_
      rw [pcVertex_of_some hj]
      exact w.end_mem
    · exact hfree q hmem j hj hop
  · intro x hx hne y hs
    rcases x with _ | p
    · exact hs.elim
    · rcases hx p rfl with rfl | hmem
      · obtain ⟨k, hk, -⟩ := hs
        exact absurd (pcVertex_of_some hk).symm hne
      · exact hclosed p hmem y (mem_nexts.2 hs)
  · rw [pcVertex, atPc]
    split_ifs
    · rintro _ ⟨⟩
      exact .inr hpc
    · intro q hq
      cases hq

theorem meetsBefore_of_free (h : ∀ i ∈ program, i.opcode ≠ .barSync) (pc : Pc) (i : Instruction) :
    MeetsBefore program pc i :=
  fun _ _ hj hop => absurd hop (h _ (List.mem_of_getElem? hj))

end WarpSim
