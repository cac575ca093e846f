import WarpSim.Proofs.Kernels
import WarpSim.Proofs.Rows

/-!
# Vector addition

The integer and the floating-point kernel differ in one instruction.
-/

namespace WarpSim

/-- The kernels, by the instruction that adds the elements. -/
def adding (op : Opcode) : List Instruction :=
  indexing 3 19 19 ++ [rri .shl 4 0 2, rri .ldParam 5 0 0, rrr .add 5 5 4, rri .ldGlobal 6 5 0,
    rri .ldParam 7 0 1, rrr .add 7 7 4, rri .ldGlobal 8 7 0, rrr op 6 6 8, rri .ldParam 9 0 2,
    rrr .add 9 9 4, stGlobal 9 6, {}]

def vecaddS32 : List Instruction := adding .add

section Assembly

set_option maxRecDepth 100000

theorem assembly_vecadd : assembly Kernels.vecaddS32 = some ([], vecaddS32, 0) := by
  refine text_of (P := fun t => assembly t = some ([], vecaddS32, 0)) rfl ?_
  decide +kernel

theorem assembly_vecaddFloat : assembly Kernels.vecadd = some ([], adding .fAdd, 0) := by
  refine text_of (P := fun t => assembly t = some ([], adding .fAdd, 0)) rfl ?_
  decide +kernel

end Assembly

section Run

variable {F : FloatOps} {base : LaneContext} {fp : Footprint} {outcome : Pc → Bool}
  {μ : BlockMemory} {t i a b c n : Nat}

/-- An instruction that leaves `f` of two registers in the first of them. -/
structure Adds (F : FloatOps) (op : Opcode) (f : Word → Word → Word) : Prop where
  quiet : LaneState.quiet 3 (rrr op 6 6 8) = true
  step : ∀ (ctx : LaneContext) (lane : Nat) (params : List Word) (s : LaneState),
    LaneState.quietStep F ctx lane params s (rrr op 6 6 8)
      = s.write 6 (f (s.general 6) (s.general 8))
  free : ∀ i ∈ adding op, i.opcode ≠ .barSync
  escapes : Escapes (adding op)

theorem adds_add : Adds F .add (· + ·) where
  quiet := rfl
  step := fun _ _ _ _ => rfl
  free := by decide
  escapes := escapes_of_rank (fun pc => 100 - pc) (by decide)

theorem adds_fAdd : Adds F .fAdd F.add where
  quiet := rfl
  step := fun _ _ _ _ => rfl
  free := by decide
  escapes := escapes_of_rank (fun pc => 100 - pc) (by decide)

/-- A thread below `n` adds its elements, and the others retire. -/
theorem leadsTo_adding {op : Opcode} {f : Word → Word → Word} (hop : Adds F op f)
    (ht : t < base.ntid.x.toNat) (hi : gridIndex base.ntid.x base.ctaid t = i) (hsmall : i < 2 ^ 31)
    (hn : n < 2 ^ 31) (hparams : μ.params
      = [BitVec.ofNat 32 a, BitVec.ofNat 32 b, BitVec.ofNat 32 c, BitVec.ofNat 32 n])
    (hloads : i < n → ∀ k ∈ [a, b],
      fp.loads .global (element k i) ∧ ¬μ.Faults .global (element k i))
    (hstores : i < n → fp.stores .global (element c i) ∧ ¬μ.Faults .global (element c i)) :
    LeadsTo (LaneState.Alone F (threadContext base t) (adding op) (t % 32) fp outcome)
      (RowDone (fun _ => some (f (μ.global.word (element a i).toNat)
        (μ.global.word (element b i).toNat))) c n i) (.fresh, μ) := by
  have hmeets := meetsBefore_of_free hop.free
  refine leadsTo_indexing (k := 3) (by decide) (by rw [hparams]; rfl) hn ht hi hsmall hmeets ?_ ?_
  · intro hlt s hpc hindex
    have harity : 3 ≤ μ.params.length := by rw [hparams]; exact Nat.le_succ 3
    have hoffset : s.general 0 <<< ((2 : Word) &&& shiftMask).toNat = BitVec.ofNat 32 (4 * i) := by
      rw [hindex, ofNat_shl_two]
    have haddr : ∀ {r : Nat} {k : Nat}, μ.params.getD r 0 = BitVec.ofNat 32 k →
        μ.params.getD r 0 + s.general 0 <<< ((2 : Word) &&& shiftMask).toNat + 0 = element k i := by
      intro r k hr
      rw [hr, hoffset]
      exact (BitVec.add_zero _).trans (ofNat_add_element k i)
    have ha := haddr (r := 0) (k := a) (by rw [hparams]; rfl)
    have hb := haddr (r := 1) (k := b) (by rw [hparams]; rfl)
    have hc := haddr (r := 2) (k := c) (by rw [hparams]; rfl)
    have hla := hloads hlt a List.mem_cons_self
    have hlb := hloads hlt b (List.mem_cons_of_mem a List.mem_cons_self)
    refine LaneState.leadsTo_line 8 3 3 hpc rfl (by decide) rfl harity ?_
    refine LaneState.leadsTo_load (i := rri .ldGlobal 6 5 0) rfl rfl rfl (.inl rfl)
      (.inl (ha ▸ hla.1)) (ha ▸ hla.2) (v := μ.global.word (element a i).toNat)
      (congrArg (μ.wordAt .global) ha) ?_
    refine LaneState.leadsTo_line 12 2 3 rfl rfl (by decide) rfl harity ?_
    refine LaneState.leadsTo_load (i := rri .ldGlobal 8 7 0) rfl rfl rfl (.inl rfl)
      (.inl (hb ▸ hlb.1)) (hb ▸ hlb.2) (v := μ.global.word (element b i).toNat)
      (congrArg (μ.wordAt .global) hb) ?_
    refine LaneState.leadsTo_quiet (i := rrr op 6 6 8) rfl rfl hop.quiet harity ?_
    rw [hop.step]
    refine LaneState.leadsTo_line 16 2 3 rfl rfl (by decide) rfl harity ?_
    refine LaneState.leadsTo_store (i := stGlobal 9 6) rfl rfl rfl (.inl rfl)
      (hc ▸ (hstores hlt).1) (hc ▸ (hstores hlt).2) ?_
    refine LaneState.leadsTo_exit (i := {}) rfl rfl rfl rfl (.now ⟨rfl, fun _ w hw => ?_⟩)
    have hself := BlockMemory.wordAt_write_self (m := μ) w
      (fun h : Space.global = .param => nomatch h) (hstores hlt).2
    rw [← hc, ← Option.some.inj hw] at hself ⊢
    exact hself
  · intro hle s hpc
    exact LaneState.leadsTo_exit (i := {}) hpc rfl rfl rfl
      (.now ⟨rfl, fun hlt => absurd hlt (Nat.not_lt.2 hle)⟩)

end Run

section Launch

variable {F : FloatOps} {grid width : Word} {a b c n : Nat} {g : ByteMemory}

/-- A launch of a kernel that adds two arrays, whatever their length, the grid and the block. -/
theorem launch_adding {op : Opcode} {f : Word → Word → Word} {program : Program} (hop : Adds F op f)
    (hannotated : Warp.Annotated (adding op))
    (hdecode : decodeWords 0 program.words = .ok (adding op)) (hn : 1 ≤ n)
    (hcover : n ≤ grid.toNat * width.toNat) (hsmall : grid.toNat * width.toNat < 2 ^ 31)
    (hsize : g.size ≤ 2 ^ 32) (ha : g.HasBuffer a n) (hb : g.HasBuffer b n) (hc : g.HasBuffer c n)
    (hapart : ByteMemory.Apart a n c n) (hapart' : ByteMemory.Apart b n c n) :
    ∃ fuel stats g', Device.launch F program ⟨grid, 1⟩ ⟨width, 1⟩
        [BitVec.ofNat 32 a, BitVec.ofNat 32 b, BitVec.ofNat 32 c, BitVec.ofNat 32 n] g fuel
          = some (.ok stats, g')
      ∧ ByteMemory.SameBut c n g g'
      ∧ ∀ i < n, g'.word (c + 4 * i) = f (g.word (a + 4 * i)) (g.word (b + 4 * i)) := by
  refine Device.launch_row (fun i w => w = element a i ∨ w = element b i)
    (fun i => some (f (g.word (a + 4 * i)) (g.word (b + 4 * i)))) hannotated hop.free hdecode
    hn hcover hsmall hsize hc ?_ ?_
  · rintro i hi w (rfl | rfl) j hj
    · exact element_apart hsize ha hc hapart hi hj
    · exact element_apart hsize hb hc hapart' hi hj
  · intro ctaid hctaid t ht g' hg
    have hindex := (gridIndex_lt hctaid ht).trans hsmall
    refine (leadsTo_adding (i := gridIndex width ctaid t) hop ht rfl hindex (by omega) rfl ?_
      ?_).mono ?_
    · intro hlt k hk
      simp only [List.mem_cons, List.not_mem_nil, or_false] at hk
      rcases hk with rfl | rfl
      · exact ⟨⟨rfl, hlt, .inl rfl⟩, hg.not_faults hsize ha hlt⟩
      · exact ⟨⟨rfl, hlt, .inr rfl⟩, hg.not_faults hsize hb hlt⟩
    · exact fun hlt =>
        ⟨⟨rfl, _, rowAssignment_stores.2 ⟨hlt, rfl, rfl⟩⟩, hg.not_faults hsize hc hlt⟩
    · rintro z ⟨hpc, hz⟩
      refine ⟨hpc, fun hlt w hw => hz hlt w (Eq.trans ?_ hw)⟩
      exact congrArg some (congrArg₂ f (hg.word hsize hc ha hapart hlt)
        (hg.word hsize hc hb hapart' hlt))

/-- The kernel adds two arrays of words, whatever their length, the grid and the block. -/
theorem vecadd_adds (F : FloatOps) (C : FloatChars) (hn : 1 ≤ n)
    (hcover : n ≤ grid.toNat * width.toNat) (hsmall : grid.toNat * width.toNat < 2 ^ 31)
    (hsize : g.size ≤ 2 ^ 32) (ha : g.HasBuffer a n) (hb : g.HasBuffer b n) (hc : g.HasBuffer c n)
    (hapart : ByteMemory.Apart a n c n) (hapart' : ByteMemory.Apart b n c n) :
    ∃ program, assemble C Kernels.vecaddS32 = .ok program
      ∧ ∃ fuel stats g', Device.launch F program ⟨grid, 1⟩ ⟨width, 1⟩
          [BitVec.ofNat 32 a, BitVec.ofNat 32 b, BitVec.ofNat 32 c, BitVec.ofNat 32 n] g fuel
            = some (.ok stats, g')
        ∧ ByteMemory.SameBut c n g g'
        ∧ ∀ i < n, g'.word (c + 4 * i) = g.word (a + 4 * i) + g.word (b + 4 * i) := by
  obtain ⟨program, hassemble, hdecoded⟩ := assembles_of assembly_vecadd (C := C) nofun
  have hop : Adds F .add (· + ·) := adds_add
  have hannotated := annotated_of_assembly assembly_vecadd (by decide) hop.escapes
  exact ⟨program, hassemble, launch_adding hop hannotated hdecoded.words hn hcover hsmall hsize
    ha hb hc hapart hapart'⟩

/-- Two elements, the second of which wraps, on three lanes. -/
theorem vecadd_adds_two : ∃ program, assemble zeroChars Kernels.vecaddS32 = .ok program
    ∧ ∃ fuel stats g', Device.launch default program ⟨1, 1⟩ ⟨3, 1⟩ [0, 8, 16, 2]
        ⟨[1, 0, 0, 0, 255, 255, 255, 255, 2, 0, 0, 0, 3, 0, 0, 0, 0, 0, 0, 0, 0, 0, 0, 0]⟩ fuel
          = some (.ok stats, g')
      ∧ g'.word 16 = 3 ∧ g'.word 20 = 2 := by
  have hcover : 2 ≤ (1 : Word).toNat * (3 : Word).toNat := by decide
  obtain ⟨program, hassemble, fuel, stats, g', hlaunch, -, hwords⟩ := vecadd_adds (n := 2)
    (g := ⟨[1, 0, 0, 0, 255, 255, 255, 255, 2, 0, 0, 0, 3, 0, 0, 0, 0, 0, 0, 0, 0, 0, 0, 0]⟩)
    (a := 0) (b := 8) (c := 16) default zeroChars (by decide) hcover (by decide) (by decide)
    (by decide) (by decide) (by decide) (.inl (by decide)) (.inl (by decide))
  exact ⟨program, hassemble, fuel, stats, g', hlaunch, hwords 0 (by decide), hwords 1 (by decide)⟩

end Launch

end WarpSim
