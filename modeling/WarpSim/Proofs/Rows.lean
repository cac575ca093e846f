import WarpSim.Buffers
import WarpSim.Proofs.Independent
import WarpSim.Proofs.Routes
import WarpSim.Proofs.Straight

/-!
# Kernels with one thread an element

A grid of blocks in a row has a thread for every index, and those below the number of elements
load words that no thread stores, and store the word at their index of one buffer.
-/

namespace WarpSim

section Index

/-- The index of a thread in a grid of blocks in a row. -/
def gridIndex (width : Word) (c : Dim2) (t : Nat) : Nat := c.x.toNat * width.toNat + t

variable {grid width : Word} {c c' : Dim2} {t t' i n : Nat}

theorem mem_row (hc : c ∈ blockOrder ⟨grid, 1⟩) : c.x.toNat < grid.toNat ∧ c.y = 0 := by
  obtain ⟨hx, hy⟩ := mem_blockOrder.1 hc
  exact ⟨hx, BitVec.eq_of_toNat_eq (Nat.lt_one_iff.1 hy)⟩

theorem gridIndex_lt (hc : c ∈ blockOrder ⟨grid, 1⟩) (ht : t < width.toNat) :
    gridIndex width c t < grid.toNat * width.toNat := by
  have hle := Nat.mul_le_mul_right width.toNat (Nat.succ_le_of_lt (mem_row hc).1)
  rw [Nat.succ_mul] at hle
  rw [gridIndex]
  omega

theorem gridIndex_inj (hc : c ∈ blockOrder ⟨grid, 1⟩) (hc' : c' ∈ blockOrder ⟨grid, 1⟩)
    (ht : t < width.toNat) (ht' : t' < width.toNat)
    (h : gridIndex width c t = gridIndex width c' t') : c = c' ∧ t = t' := by
  have hmod : ∀ {c : Dim2} {t : Nat}, t < width.toNat →
      gridIndex width c t % width.toNat = t ∧ gridIndex width c t / width.toNat = c.x.toNat := by
    intro c t ht
    rw [gridIndex, Nat.mul_comm, Nat.mul_add_mod, Nat.mod_eq_of_lt ht,
      Nat.mul_add_div (Nat.zero_lt_of_lt ht), Nat.div_eq_of_lt ht]
    exact ⟨rfl, rfl⟩
  have h1 := hmod (c := c) ht
  have h2 := hmod (c := c') ht'
  rw [h] at h1
  obtain ⟨x, y⟩ := c
  obtain ⟨x', y'⟩ := c'
  have hy := (mem_row hc).2.trans (mem_row hc').2.symm
  have hx : x = x' := BitVec.eq_of_toNat_eq (h1.2.symm.trans h2.2)
  simp only [] at hy
  rw [hx, hy]
  exact ⟨rfl, h1.1.symm.trans h2.1⟩

theorem exists_gridIndex (hi : i < grid.toNat * width.toNat) :
    ∃ c ∈ blockOrder ⟨grid, 1⟩, ∃ t < width.toNat, gridIndex width c t = i := by
  have hpos : 0 < width.toNat := by
    rcases Nat.eq_zero_or_pos width.toNat with h | h
    · rw [h] at hi
      exact absurd hi (Nat.not_lt_zero i)
    · exact h
  have hdiv : i / width.toNat < grid.toNat := (Nat.div_lt_iff_lt_mul hpos).2 hi
  have hx : (BitVec.ofNat 32 (i / width.toNat)).toNat = i / width.toNat :=
    Nat.mod_eq_of_lt (hdiv.trans grid.isLt)
  refine ⟨⟨BitVec.ofNat 32 (i / width.toNat), 0⟩, mem_blockOrder.2 ⟨?_, Nat.zero_lt_one⟩,
    i % width.toNat, Nat.mod_lt i hpos, ?_⟩
  · rw [hx]
    exact hdiv
  · rw [gridIndex, hx, Nat.mul_comm]
    exact Nat.div_add_mod i width.toNat

theorem toInt_ofNat (hi : i < 2 ^ 31) : (BitVec.ofNat 32 i).toInt = i := by
  rw [BitVec.toInt_eq_toNat_of_lt] <;> rw [BitVec.toNat_ofNat, Nat.mod_eq_of_lt (by omega)]
  omega

theorem special_tid (base : LaneContext) (t : Nat) :
    (threadContext base t).linearIndex (t % 32) = BitVec.ofNat 32 t := by
  rw [LaneContext.linearIndex, threadContext, ← BitVec.ofNat_mul, ← BitVec.ofNat_add, warpSize,
    Nat.div_add_mod' t 32]

theorem special_tidX {base : LaneContext} (ht : t < base.ntid.x.toNat) :
    (threadContext base t).linearIndex (t % 32) % base.ntid.x = BitVec.ofNat 32 t := by
  have hlt := base.ntid.x.isLt
  rw [special_tid]
  apply BitVec.eq_of_toNat_eq
  rw [BitVec.toNat_umod, BitVec.toNat_ofNat, Nat.mod_eq_of_lt (ht.trans hlt), Nat.mod_eq_of_lt ht]

theorem ofNat_shl {w : Word} {k i j : Nat} (hw : (w &&& shiftMask).toNat = k) (hj : j = 2 ^ k * i) :
    BitVec.ofNat 32 i <<< (w &&& shiftMask).toNat = BitVec.ofNat 32 j := by
  apply BitVec.eq_of_toNat_eq
  rw [hw, hj, BitVec.toNat_shiftLeft, BitVec.toNat_ofNat, BitVec.toNat_ofNat, Nat.shiftLeft_eq,
    Nat.mod_mul_mod, Nat.mul_comm]

theorem ofNat_shl_two (i : Nat) :
    BitVec.ofNat 32 i <<< ((2 : Word) &&& shiftMask).toNat = BitVec.ofNat 32 (4 * i) :=
  ofNat_shl rfl rfl

theorem count_row (width : Word) : (⟨width, 1⟩ : Dim2).count = width := BitVec.mul_one width

end Index

section Inputs

variable {out : Dim2 → Word → Prop} {g g' : ByteMemory} {k n k' n' i : Nat}

/-- The words of a buffer apart from the one that a launch stores to are as they were. -/
theorem Launch.Inputs.word (h : Launch.Inputs out g g') (hsize : g.size ≤ 2 ^ 32)
    (hout : ∀ c a, out c a → ∃ j < n', a = element k' j) (hk : g.HasBuffer k n)
    (hk' : g.HasBuffer k' n') (hapart : ByteMemory.Apart k n k' n') (hi : i < n) :
    g'.word (k + 4 * i) = g.word (k + 4 * i) := by
  refine h.words _ (by have := hk.1; omega) fun c a hca heq => ?_
  obtain ⟨j, hj, rfl⟩ := hout c a hca
  rw [toNat_element hsize hk' hj] at heq
  rcases hapart with hle | hle <;> omega

theorem Launch.Inputs.hasBuffer (h : Launch.Inputs out g g') (hk : g.HasBuffer k n) :
    g'.HasBuffer k n := ⟨hk.1, hk.2.trans_eq h.size.symm⟩

/-- Accesses to a word of a buffer do not fault. -/
theorem not_faults_element {m : BlockMemory} (hsize : g.size ≤ 2 ^ 32)
    (hm : (m.bytesOf .global).length = g.size) (hk : g.HasBuffer k n) (hi : i < n) :
    ¬m.Faults .global (element k i) := by
  rintro (hmod | hroom)
  · exact hmod (element_aligned hsize hk hi)
  · have := hk.2
    rw [toNat_element hsize hk hi, hm] at hroom
    omega

end Inputs

section Indexing

variable {F : FloatOps} {base : LaneContext} {fp : Footprint} {outcome : Pc → Bool}
  {Q : LaneState × BlockMemory → Prop} {μ : BlockMemory}

/-- The index of the thread, and the way past the kernel where it is not below the parameter with
the ordinal `n`. -/
def indexing (n done reconvergence : Nat) : List Instruction :=
  [rrr .movSreg 0 0 0, rrr .movSreg 1 4 0, rrr .movSreg 2 2 0, rrr .mul 1 1 2, rrr .add 0 0 1,
    rri .ldParam 3 0 (BitVec.ofNat 32 n), rrr .setpGeS32 0 0 3,
    braIf 0 (BitVec.ofNat 16 done) (BitVec.ofNat 16 reconvergence)]

/-- The index of the thread, below the given number of elements or not. -/
theorem leadsTo_indexing {rest : List Instruction} {t n i done reconvergence : Nat} {k : Nat}
    (hk : k < 4) (hparam : μ.params[k]? = some (BitVec.ofNat 32 n)) (hn : n < 2 ^ 31)
    (ht : t < base.ntid.x.toNat) (hi : gridIndex base.ntid.x base.ctaid t = i) (hsmall : i < 2 ^ 31)
    (hmeets : ∀ pc j, MeetsBefore (indexing k done reconvergence ++ rest) pc j)
    (hin : i < n → ∀ s, s.pc = some 8 → s.general 0 = BitVec.ofNat 32 i →
      LeadsTo (LaneState.Alone F (threadContext base t) (indexing k done reconvergence ++ rest)
        (t % 32) fp outcome) Q (s, μ))
    (hout : n ≤ i → ∀ s, s.pc = some (BitVec.ofNat 16 done) →
      LeadsTo (LaneState.Alone F (threadContext base t) (indexing k done reconvergence ++ rest)
        (t % 32) fp outcome) Q (s, μ)) :
    LeadsTo (LaneState.Alone F (threadContext base t) (indexing k done reconvergence ++ rest)
      (t % 32) fp outcome) Q (.fresh, μ) := by
  have hkn : (BitVec.ofNat 32 k).toNat = k := Nat.mod_eq_of_lt (by omega)
  have hlen : k + 1 ≤ μ.params.length := (List.getElem?_eq_some_iff.1 hparam).1
  refine LaneState.leadsTo_line 0 7 (k + 1) rfl rfl (by decide) ?_ hlen ?_
  · simp [indexing, LaneState.quiet, rrr, rri, isAluOpcode, hkn]
  · have h0 : (LaneState.line F (threadContext base t) (t % 32) μ.params
        (((indexing k done reconvergence ++ rest).drop 0).take 7) .fresh).general 0
          = BitVec.ofNat 32 i := by
      have heq : (LaneState.line F (threadContext base t) (t % 32) μ.params
          (((indexing k done reconvergence ++ rest).drop 0).take 7) .fresh).general 0
            = (threadContext base t).linearIndex (t % 32) % base.ntid.x
              + base.ctaid.x * base.ntid.x := rfl
      rw [heq, special_tidX ht, ← hi, gridIndex, Nat.add_comm, BitVec.ofNat_add, BitVec.ofNat_mul,
        BitVec.ofNat_toNat, BitVec.ofNat_toNat, BitVec.setWidth_eq, BitVec.setWidth_eq]
    have hp : (LaneState.line F (threadContext base t) (t % 32) μ.params
        (((indexing k done reconvergence ++ rest).drop 0).take 7) .fresh).predicates 0
          = decide (n ≤ i) := by
      have heq : (LaneState.line F (threadContext base t) (t % 32) μ.params
          (((indexing k done reconvergence ++ rest).drop 0).take 7) .fresh).predicates 0
            = decide ((μ.params.getD (BitVec.ofNat 32 k).toNat 0).toInt
              ≤ ((LaneState.line F (threadContext base t) (t % 32) μ.params
                  (((indexing k done reconvergence ++ rest).drop 0).take 7)
                  .fresh).general 0).toInt) :=
        rfl
      rw [heq, h0, hkn, List.getD_eq_getElem?_getD, hparam, Option.getD_some, toInt_ofNat hn,
        toInt_ofNat hsmall]
      exact decide_eq_decide.2 Int.ofNat_le
    refine LaneState.leadsTo_branch (b := decide (n ≤ i)) rfl rfl rfl rfl ?_ (.inl (hmeets _ _)) ?_
    · rw [← hp]
      exact Bool.xor_false _
    · by_cases hle : n ≤ i
      · rw [decide_eq_true hle]
        exact hout hle _ (congrArg some (Instruction.branchTarget_makeBranchImm
          (braIf 0 (BitVec.ofNat 16 done) (BitVec.ofNat 16 reconvergence)) _ _))
      · rw [decide_eq_false hle]
        exact hin (Nat.not_le.1 hle) _ rfl h0

end Indexing

section Launch

variable {F : FloatOps} {decoded : List Instruction} {program : Program}
  {reads : Nat → Word → Prop} {f : Nat → Option Word} {grid width : Word} {params : List Word}
  {out n : Nat} {g : ByteMemory}

/-- What the threads of a launch with `n` elements load and store. -/
def rowAssignment (reads : Nat → Word → Prop) (f : Nat → Option Word) (width : Word) (out n : Nat) :
    Assignment where
  loads := fun c t a => gridIndex width c t < n ∧ reads (gridIndex width c t) a
  stores := fun c t =>
    if gridIndex width c t < n then
      (f (gridIndex width c t)).map fun w => (element out (gridIndex width c t), w)
    else none

theorem rowAssignment_stores {c : Dim2} {t : Nat} {a v : Word} :
    (rowAssignment reads f width out n).stores c t = some (a, v) ↔ gridIndex width c t < n
      ∧ a = element out (gridIndex width c t) ∧ f (gridIndex width c t) = some v := by
  simp only [rowAssignment, Option.ite_none_right_eq_some, Option.map_eq_some_iff, Prod.mk.injEq]
  constructor
  · rintro ⟨hlt, w, hw, rfl, rfl⟩
    exact ⟨hlt, rfl, hw⟩
  · rintro ⟨hlt, rfl, hw⟩
    exact ⟨hlt, v, hw, rfl, rfl⟩

/-- A memory as large as `g` that holds the same words, but for those of the output. -/
structure RowInputs (out n : Nat) (g g' : ByteMemory) : Prop where
  size : g'.size = g.size
  words : ∀ k, k % 4 = 0 → (∀ i < n, (element out i).toNat ≠ k) → g'.word k = g.word k

/-- A thread with the index `i` has retired, with its word stored. -/
def RowDone (f : Nat → Option Word) (out n i : Nat) (z : LaneState × BlockMemory) : Prop :=
  z.1.pc = none ∧ (i < n → ∀ w, f i = some w → z.2.global.word (element out i).toNat = w)

variable (reads f) in
/-- A launch returns if each of its threads does on its own. Every word of the output is what `f`
makes of its index, or as it was where that is no word, and nothing else has changed. -/
theorem Device.launch_row (hannotated : Warp.Annotated decoded)
    (hfree : ∀ i ∈ decoded, i.opcode ≠ .barSync)
    (hdecode : decodeWords 0 program.words = .ok decoded) (hn : 1 ≤ n)
    (hcover : n ≤ grid.toNat * width.toNat) (hsmall : grid.toNat * width.toNat < 2 ^ 31)
    (hsize : g.size ≤ 2 ^ 32) (hout : g.HasBuffer out n)
    (hreads : ∀ i < n, ∀ a, reads i a → ∀ j < n, a ≠ element out j)
    (hrun : ∀ c ∈ blockOrder ⟨grid, 1⟩, ∀ t < width.toNat, ∀ g', RowInputs out n g g' →
      LeadsTo (LaneState.Alone F (threadContext
          ((Launch.ofProgram program decoded ⟨grid, 1⟩ ⟨width, 1⟩ params).context c) t)
          decoded (t % 32) ((rowAssignment reads f width out n).footprint c t) fun _ => false)
        (RowDone f out n (gridIndex width c t))
        (.fresh, (Launch.ofProgram program decoded ⟨grid, 1⟩ ⟨width, 1⟩ params).blockMemory g')) :
    ∃ fuel stats g', launch F program ⟨grid, 1⟩ ⟨width, 1⟩ params g fuel = some (.ok stats, g')
      ∧ ByteMemory.SameBut out n g g'
      ∧ ∀ i < n, g'.word (out + 4 * i) = (f i).getD (g.word (out + 4 * i)) := by
  have hgrid : 1 ≤ grid.toNat := Nat.pos_of_mul_pos_right (hn.trans hcover)
  have hwidth : 1 ≤ width.toNat := Nat.pos_of_mul_pos_left (hn.trans hcover)
  have hcount : (⟨width, 1⟩ : Dim2).count = width := count_row width
  have hsound : (rowAssignment reads f width out n).Sound F
      (.ofProgram program decoded ⟨grid, 1⟩ ⟨width, 1⟩ params) g (blockOrder ⟨grid, 1⟩) :=
    { pos := fun hz => by
        rw [show width = 0 from hcount.symm.trans hz] at hwidth
        exact absurd hwidth (Nat.not_succ_le_zero _)
      fits := by
        have := Nat.le_mul_of_pos_left width.toNat hgrid
        show (⟨width, 1⟩ : Dim2).count.toNat ≤ _
        rw [hcount]
        omega
      nodup := nodup_blockOrder _
      annotated := hannotated
      free := hfree
      aligned := by
        intro c t a v h
        obtain ⟨hlt, rfl, -⟩ := rowAssignment_stores.1 h
        exact element_aligned hsize hout hlt
      apart := by
        intro c hc c' hc' t ht t' ht' a v v' h h'
        obtain ⟨hlt, rfl, -⟩ := rowAssignment_stores.1 h
        obtain ⟨hlt', heq, -⟩ := rowAssignment_stores.1 h'
        exact gridIndex_inj hc hc' (hcount ▸ ht) (hcount ▸ ht')
          (element_inj hsize hout hlt hlt' heq)
      loads := by
        rintro c hc t ht a ⟨hlt, hreads'⟩ t' ht' v h
        obtain ⟨hlt', heq, -⟩ := rowAssignment_stores.1 h
        exact hreads _ hlt a hreads' _ hlt' heq
      run := by
        intro c hc t ht g' hg
        have hinputs : RowInputs out n g g' := by
          refine ⟨hg.size, fun k hk hne => hg.words k hk ?_⟩
          rintro c' a ⟨t', -, v, h⟩
          obtain ⟨hlt', rfl, -⟩ := rowAssignment_stores.1 h
          exact hne _ hlt'
        refine (hrun c hc t (hcount ▸ ht) g' hinputs).mono fun z hz => ⟨hz.1, fun a v h => ?_⟩
        obtain ⟨hlt, rfl, hv⟩ := rowAssignment_stores.1 h
        exact hz.2 hlt v hv }
  have hgrid' : (⟨grid, 1⟩ : Dim2).count ≠ 0 := by
    rw [count_row]
    rintro rfl
    exact Nat.lt_irrefl 0 hgrid
  obtain ⟨fuel, stats, g', hlaunch, hsize', hwords, hbytes⟩ := launch_assigned hdecode hgrid' hsound
  refine ⟨fuel, stats, g', hlaunch, ⟨hsize', fun j hj => hbytes j ?_⟩, fun i hi => ?_⟩
  · rintro c - t - a v h ⟨hle, hlt⟩
    obtain ⟨hi, rfl, -⟩ := rowAssignment_stores.1 h
    rw [toNat_element hsize hout hi] at hle hlt
    omega
  · rcases hf : f i with _ | w
    · have hbyte : ∀ d < 4, g'.byte (out + 4 * i + d) = g.byte (out + 4 * i + d) := by
        intro d hd
        rw [ByteMemory.byte, ByteMemory.byte, List.getD_eq_getElem?_getD, hbytes,
          ← List.getD_eq_getElem?_getD]
        rintro c - t - a v h ⟨hle, hlt⟩
        obtain ⟨hi', rfl, hv⟩ := rowAssignment_stores.1 h
        rw [toNat_element hsize hout hi'] at hle hlt
        rw [show gridIndex width c t = i by omega, hf] at hv
        cases hv
      rw [Option.getD_none, ByteMemory.word, ByteMemory.word, hbyte 3 (by decide),
        hbyte 2 (by decide), hbyte 1 (by decide), show g'.byte (out + 4 * i) = _ from
          hbyte 0 (by decide)]
      rfl
    · obtain ⟨c, hc, t, ht, rfl⟩ := exists_gridIndex (hi.trans_le hcover)
      have hstored := hwords c hc t (by rwa [count_row]) _ w
        (rowAssignment_stores.2 ⟨hi, rfl, hf⟩)
      rwa [toNat_element hsize hout hi] at hstored

/-- The words of a buffer apart from the output are as they were. -/
theorem RowInputs.word {g' : ByteMemory} (h : RowInputs out n g g') (hsize : g.size ≤ 2 ^ 32)
    (hout : g.HasBuffer out n) {x n' i : Nat} (hx : g.HasBuffer x n')
    (hapart : ByteMemory.Apart x n' out n) (hi : i < n') :
    g'.word (element x i).toNat = g.word (x + 4 * i) := by
  have haligned := element_aligned hsize hx hi
  rw [h.words _ haligned fun j hj heq => element_apart hsize hx hout hapart hi hj
    (BitVec.eq_of_toNat_eq heq.symm), toNat_element hsize hx hi]

/-- Accesses to a buffer do not fault. -/
theorem RowInputs.not_faults {g' : ByteMemory} (h : RowInputs out n g g') (hsize : g.size ≤ 2 ^ 32)
    {x n' i : Nat} (hx : g.HasBuffer x n') (hi : i < n') {l : Launch} :
    ¬(l.blockMemory g').Faults .global (element x i) := not_faults_element hsize h.size hx hi

end Launch

end WarpSim
