import WarpSim.Proofs.Kernels
import WarpSim.Proofs.Rows

/-!
# Kernels that compute one element a thread

Each thread takes the element at its index in the grid, if there is one, computes from it and
stores the result at the same index.
-/

namespace WarpSim

section Shape

/-- A kernel with the parameters `x`, `out` and `n`, that loads its element into `r6`, leaves the
result in `r10`, and stores it. -/
def elementwise (reconvergence : Nat) (body : List Instruction) : List Instruction :=
  indexing 2 (body.length + 15) reconvergence
    ++ ([rri .shl 4 0 2, rri .ldParam 5 0 0, rrr .add 5 5 4, rri .ldGlobal 6 5 0]
      ++ (body ++ [rri .ldParam 9 0 1, rrr .add 9 9 4, stGlobal 9 10, {}]))

def nestedBody : List Instruction :=
  [rri .mov 10 0 0, rri .and 7 6 1, rri .setpEqS32 1 7 0, braIf 1 28 34, rri .add 10 10 1,
    rri .setpLtS32 2 6 100, braIf 2 25 26, rri .add 10 10 20, rri .and 8 6 4, rri .setpEqS32 3 8 0,
    braIf 3 26 26, rri .add 10 10 300, bra 26, rri .sub 10 10 7, rri .mul 10 10 3, bra 34,
    rri .add 10 10 2, rri .setpGtS32 2 6 50, braIf 2 33 34, rrr .mul 10 10 6, bra 34,
    rrr .sub 10 6 10]

def loopsBody : List Instruction :=
  [rri .mov 10 0 0, rri .mov 7 0 0, rrr .setpGeS32 1 7 6, braIf 1 21 21, rrr .mul 8 7 7,
    rrr .add 8 8 0, rrr .add 10 10 8, rri .add 7 7 1, bra 14]

def earlyExitBody : List Instruction :=
  [rri .and 7 6 3, rri .setpEqS32 3 7 3, exitIf 3, rri .mov 7 0 0, rri .mov 10 0 0,
    rri .setpGeS32 1 7 64, braIf 1 29 29, rrr .add 10 10 7, rri .mul 8 7 7, rrr .add 8 8 6,
    rri .rem 8 8 13, rri .setpEqS32 2 8 0, rri .setpGtS32 4 7 0, braUnless 4 27 29, braIf 2 29 29,
    rri .add 7 7 1, bra 17]

def combinedBody : List Instruction :=
  [rri .mov 7 0 0, rri .mov 10 0 0, rri .setpGeS32 1 7 32, braIf 1 37 37, rri .and 8 6 1,
    rri .setpEqS32 2 8 0, braIf 2 31 37, rri .mul 6 6 3, rri .add 6 6 1, rrr .add 10 10 7,
    rri .and 8 6 2, rri .setpEqS32 3 8 0, braIf 3 35 35, rrr .xor 10 10 6, rri .and 8 6 4,
    rri .setpEqS32 4 8 0, braIf 4 35 35, rri .sub 10 10 5, bra 35, rri .sra 6 6 1,
    rrr .add 10 10 6, rri .setpEqS32 5 6 0, braIf 5 37 37, rri .add 7 7 1, bra 14]

end Shape

section Runs

variable {F : FloatOps} {base : LaneContext} {fp : Footprint} {outcome : Pc → Bool}
  {Q : LaneState × BlockMemory → Prop} {μ : BlockMemory}

/-- What a lane has come to when it is done with its element: its result is in `r10`, or it has
retired without one. -/
def Finished (result : Option Word) (s : LaneState) (μ : BlockMemory) (finish : Nat)
    (y : LaneState × BlockMemory) : Prop :=
  y.2 = μ ∧ match result with
    | some w => y.1.pc = some (BitVec.ofNat 16 finish) ∧ y.1.general 10 = w
      ∧ y.1.general 4 = s.general 4
    | none => y.1.pc = none

/-- The body computes `f` of the index and the element of a lane. -/
def Computes (F : FloatOps) (reconvergence : Nat) (body : List Instruction)
    (f : Nat → Word → Option Word) : Prop :=
  ∀ ctx lane fp outcome μ i s, i < 2 ^ 31 → s.pc = some 12 → s.general 0 = BitVec.ofNat 32 i →
    LeadsTo (LaneState.Alone F ctx (elementwise reconvergence body) lane fp outcome)
      (Finished (f i (s.general 6)) s μ (body.length + 12)) (s, μ)

/-- The instructions that store the result of a lane. -/
theorem elementwise_storing (reconvergence : Nat) (body : List Instruction) (j : Nat) :
    (elementwise reconvergence body)[body.length + 12 + j]?
      = [rri .ldParam 9 0 1, rrr .add 9 9 4, stGlobal 9 10, {}][j]? := by
  rw [elementwise, List.getElem?_append_right (by simp [indexing]; omega),
    List.getElem?_append_right (by simp [indexing]; omega),
    List.getElem?_append_right (by simp [indexing]; omega)]
  congr 1
  simp [indexing]
  omega

/-- A lane that is done with its element stores its result, if it has one. -/
theorem leadsTo_storing {reconvergence : Nat} {body : List Instruction} {ctx : LaneContext}
    {lane i x out n : Nat} {result : Option Word} {s s' : LaneState}
    (hlen : body.length + 16 < 2 ^ 16) (h : Finished result s μ (body.length + 12) (s', μ))
    (hparams : μ.params = [BitVec.ofNat 32 x, BitVec.ofNat 32 out, BitVec.ofNat 32 n])
    (hoffset : s.general 4 = BitVec.ofNat 32 (4 * i))
    (hstores : ∀ w, result = some w → fp.stores .global (element out i))
    (hok : ¬μ.Faults .global (element out i)) :
    LeadsTo (LaneState.Alone F ctx (elementwise reconvergence body) lane fp outcome)
      (fun z => z.1.pc = none ∧ ∀ w, result = some w →
        z.2.global.word (element out i).toNat = w) (s', μ) := by
  obtain ⟨-, h⟩ := h
  rcases result with _ | w
  · exact .now ⟨h, nofun⟩
  · obtain ⟨hpc, hw, hkept⟩ := h
    have hpc' : ∀ j < 4, (BitVec.ofNat 16 (body.length + 12 + j)).toNat = body.length + 12 + j :=
      fun j hj => Nat.mod_eq_of_lt (by omega)
    have harity : 3 ≤ μ.params.length := by rw [hparams]; exact Nat.le_refl 3
    have haddr :
      (LaneState.line F ctx lane μ.params [rri .ldParam 9 0 1, rrr .add 9 9 4] s').general 9
        + 0 = element out i := by
      have heq : (LaneState.line F ctx lane μ.params [rri .ldParam 9 0 1, rrr .add 9 9 4]
          s').general 9 = μ.params.getD 1 0 + s'.general 4 := rfl
      rw [heq, hparams, hkept, hoffset]
      exact (BitVec.add_zero _).trans (ofNat_add_element out i)
    have hdrop : (elementwise reconvergence body).drop (body.length + 12)
        = [rri .ldParam 9 0 1, rrr .add 9 9 4, stGlobal 9 10, {}] :=
      List.ext_getElem? fun j => by rw [List.getElem?_drop, elementwise_storing]
    refine LaneState.leadsTo_line (body.length + 12) 2 3 hpc ?_ (by omega) ?_ harity ?_
    · rw [hdrop]
      rfl
    · rw [hdrop]
      rfl
    · rw [hdrop]
      refine LaneState.leadsTo_store (i := stGlobal 9 10) rfl ?_ rfl (.inl rfl) ?_ ?_ ?_
      · rw [hpc' 2 (by decide), elementwise_storing]
        rfl
      · exact haddr ▸ hstores w rfl
      · exact haddr ▸ hok
      · refine LaneState.leadsTo_exit (i := {}) rfl ?_ rfl rfl (.now ⟨rfl, ?_⟩)
        · rw [show BitVec.ofNat 16 (body.length + 12 + 2) + 1
            = BitVec.ofNat 16 (body.length + 12 + 3) from (BitVec.ofNat_add _ 1).symm,
            hpc' 3 (by decide), elementwise_storing]
          rfl
        · rintro _ ⟨⟩
          have hst : (LaneState.line F ctx lane μ.params [rri .ldParam 9 0 1, rrr .add 9 9 4]
              s').general 10 = w := hw
          have hself := BlockMemory.wordAt_write_self (m := μ) w
            (fun h : Space.global = .param => nomatch h) hok
          rw [← haddr, ← hst] at hself ⊢
          exact hself

/-- A thread of a kernel that computes `f` retires with its result stored, if it has one. -/
theorem leadsTo_elementwise {reconvergence : Nat} {body : List Instruction}
    {f : Nat → Word → Option Word} (hbody : Computes F reconvergence body f) {t i x out n : Nat}
    (hlen : body.length + 16 < 2 ^ 16) (ht : t < base.ntid.x.toNat)
    (hi : gridIndex base.ntid.x base.ctaid t = i) (hsmall : i < 2 ^ 31) (hn : n < 2 ^ 31)
    (hparams : μ.params = [BitVec.ofNat 32 x, BitVec.ofNat 32 out, BitVec.ofNat 32 n])
    (hmeets : ∀ pc j, MeetsBefore (elementwise reconvergence body) pc j)
    (hloads : i < n → fp.loads .global (element x i) ∧ ¬μ.Faults .global (element x i))
    (hstores : i < n → ¬μ.Faults .global (element out i) ∧
      ∀ w, f i (μ.global.word (element x i).toNat) = some w → fp.stores .global (element out i)) :
    LeadsTo (LaneState.Alone F (threadContext base t) (elementwise reconvergence body) (t % 32) fp
      outcome) (fun z => z.1.pc = none ∧ (i < n → ∀ w,
        f i (μ.global.word (element x i).toNat) = some w →
          z.2.global.word (element out i).toNat = w)) (.fresh, μ) := by
  refine leadsTo_indexing (k := 2) (by decide) (by rw [hparams]; rfl) hn ht hi hsmall hmeets ?_ ?_
  · intro hlt s hpc hindex
    have harity : 1 ≤ μ.params.length := by rw [hparams]; exact Nat.le_add_left 1 2
    have hoffset : s.general 0 <<< ((2 : Word) &&& shiftMask).toNat = BitVec.ofNat 32 (4 * i) := by
      rw [hindex, ofNat_shl_two]
    refine LaneState.leadsTo_line 8 3 1 hpc rfl (by decide) rfl harity ?_
    have haddr : μ.params.getD 0 0 + s.general 0 <<< ((2 : Word) &&& shiftMask).toNat + 0
        = element x i := by
      rw [hparams, hoffset]
      exact (BitVec.add_zero _).trans (ofNat_add_element x i)
    refine LaneState.leadsTo_load (i := rri .ldGlobal 6 5 0) rfl rfl rfl (.inl rfl)
      (.inl (haddr ▸ (hloads hlt).1)) (haddr ▸ (hloads hlt).2)
      (v := μ.global.word (element x i).toNat) (congrArg (μ.wordAt .global) haddr) ?_
    refine (hbody _ _ _ _ μ i _ hsmall rfl ?_).trans ?_
    · exact hindex
    · rintro ⟨s', μ'⟩ hfinished
      obtain rfl := hfinished.1
      exact (leadsTo_storing hlen hfinished hparams hoffset (hstores hlt).2 (hstores hlt).1).mono
        fun z hz => ⟨hz.1, fun _ => hz.2⟩
  · intro hle s hpc
    have hexit := elementwise_storing reconvergence body 3
    have hpc' : (BitVec.ofNat 16 (body.length + 15)).toNat = body.length + 15 :=
      Nat.mod_eq_of_lt (by omega)
    refine LaneState.leadsTo_exit (i := {}) hpc ?_ rfl rfl (.now ⟨rfl, fun hlt => ?_⟩)
    · rw [hpc']
      exact hexit
    · exact absurd hlt (Nat.not_lt.2 hle)

end Runs

section Launch

variable {F : FloatOps} {reconvergence : Nat} {body : List Instruction}
  {f : Nat → Word → Option Word} {grid width : Word} {x out n : Nat} {g : ByteMemory}

/-- A launch of a kernel that computes `f` returns. Every word of the output is what `f` makes of
its element, or as it was where that is no word, and nothing else has changed. -/
theorem Device.launch_elementwise (hbody : Computes F reconvergence body f)
    (hlen : body.length + 16 < 2 ^ 16)
    (hannotated : Warp.Annotated (elementwise reconvergence body))
    (hfree : ∀ i ∈ elementwise reconvergence body, i.opcode ≠ .barSync) {program : Program}
    (hdecode : decodeWords 0 program.words = .ok (elementwise reconvergence body))
    (hn : 1 ≤ n) (hcover : n ≤ grid.toNat * width.toNat)
    (hsmall : grid.toNat * width.toNat < 2 ^ 31) (hsize : g.size ≤ 2 ^ 32)
    (hx : g.HasBuffer x n) (hout : g.HasBuffer out n) (hapart : ByteMemory.Apart x n out n) :
    ∃ fuel stats g', launch F program ⟨grid, 1⟩ ⟨width, 1⟩
        [BitVec.ofNat 32 x, BitVec.ofNat 32 out, BitVec.ofNat 32 n] g fuel = some (.ok stats, g')
      ∧ ByteMemory.SameBut out n g g'
      ∧ ∀ i < n, g'.word (out + 4 * i)
        = (f i (g.word (x + 4 * i))).getD (g.word (out + 4 * i)) := by
  refine launch_row (fun i a => a = element x i) (fun i => f i (g.word (x + 4 * i)))
    hannotated hfree hdecode hn hcover hsmall hsize hout ?_ fun c hc t ht g' hg => ?_
  · rintro i hi a rfl j hj
    exact element_apart hsize hx hout hapart hi hj
  · have hf : gridIndex width c t < n →
        f (gridIndex width c t) (g'.word (element x (gridIndex width c t)).toNat)
          = f (gridIndex width c t) (g.word (x + 4 * gridIndex width c t)) :=
      fun hlt => congrArg _ (hg.word hsize hout hx hapart hlt)
    refine (leadsTo_elementwise hbody (i := gridIndex width c t) (x := x) (n := n) hlen ht rfl
      ((gridIndex_lt hc ht).trans hsmall) (by omega) rfl (meetsBefore_of_free hfree) ?_ ?_).mono ?_
    · exact fun hlt => ⟨⟨rfl, hlt, rfl⟩, hg.not_faults hsize hx hlt⟩
    · exact fun hlt => ⟨hg.not_faults hsize hout hlt, fun w hw =>
        ⟨rfl, w, rowAssignment_stores.2 ⟨hlt, rfl, (hf hlt).symm.trans hw⟩⟩⟩
    · exact fun z hz => ⟨hz.1, fun hlt v hv => hz.2 hlt v ((hf hlt).trans hv)⟩

end Launch

end WarpSim
