import WarpSim.Proofs.Kernels
import WarpSim.Proofs.Matrices

/-!
# The naive matrix product

A thread whose element is outside of the matrix retires at once. The others walk along their row
and down their column in global memory, and no two threads store the same word.
-/

namespace WarpSim

def matmulNaive : List Instruction :=
  [rrr .movSreg 0 0 0, rrr .movSreg 1 1 0, rrr .movSreg 2 4 0, rrr .movSreg 3 5 0, rri .shl 2 2 4,
    rrr .add 2 2 0, rri .shl 3 3 4, rrr .add 3 3 1, rri .ldParam 4 0 3, rri .ldParam 5 0 4,
    rri .ldParam 6 0 5, rrr .setpGeS32 0 3 4, exitIf 0, rrr .setpGeS32 1 2 5, exitIf 1,
    rrr .mul 7 3 6, rri .shl 7 7 2, rri .ldParam 8 0 0, rrr .add 7 7 8, rri .shl 9 2 2,
    rri .ldParam 10 0 1, rrr .add 9 9 10, rri .shl 11 5 2, rri .mov 12 0 0, rri .mov 13 0 0,
    rrr .setpGeS32 2 13 6, braIf 2 34 34, rri .ldGlobal 14 7 0, rri .ldGlobal 15 9 0,
    rrr .fFma 12 14 15, rri .add 7 7 4, rrr .add 9 9 11, rri .add 13 13 1, bra 25, rrr .mul 16 3 5,
    rrr .add 16 16 2, rri .shl 16 16 2, rri .ldParam 17 0 2, rrr .add 16 16 17, stGlobal 16 12, {}]

set_option maxRecDepth 100000 in
theorem assembly_matmulNaive :
    assembly Kernels.matmulNaive = some ([['0', '.', '0']], matmulNaive, 0) := by
  refine text_of (P := fun t => assembly t = some ([['0', '.', '0']], matmulNaive, 0)) rfl ?_
  decide +kernel

theorem escapes_matmulNaive : Escapes matmulNaive :=
  escapes_of_rank (fun pc => if 27 ≤ pc ∧ pc ≤ 33 then 120 - pc else 100 - pc) (by decide)

theorem free_matmulNaive : ∀ i ∈ matmulNaive, i.opcode ≠ .barSync := by decide

theorem annotated_matmulNaive : Warp.Annotated matmulNaive :=
  annotated_of_assembly assembly_matmulNaive (by decide) escapes_matmulNaive

section Run

variable {F : FloatOps} {base : LaneContext} {fp : Footprint} {outcome : Pc → Bool}
  {μ : BlockMemory} {a b c m n k i j t : Nat} {left right : Nat → Word}

/-- A thread before the test at `loop`, with so many steps left. -/
structure NaiveTop (F : FloatOps) (a b n k i j : Nat) (left right : Nat → Word) (μ : BlockMemory)
    (rounds : Nat) (y : LaneState × BlockMemory) : Prop where
  memory : y.2 = μ
  pc : y.1.pc = some 25
  column : y.1.general 2 = BitVec.ofNat 32 j
  row : y.1.general 3 = BitVec.ofNat 32 i
  columns : y.1.general 5 = BitVec.ofNat 32 n
  inner : y.1.general 6 = BitVec.ofNat 32 k
  stride : y.1.general 11 = BitVec.ofNat 32 (4 * n)
  counter : ∃ l, l + rounds = k ∧ y.1.general 13 = BitVec.ofNat 32 l
    ∧ y.1.general 7 = element a (i * k + l) ∧ y.1.general 9 = element b (l * n + j)
    ∧ y.1.general 12 = matmulFold F left right l

/-- A step of the product. -/
theorem naive_round (hk : k ≤ 2 ^ 30) {rounds : Nat} {y : LaneState × BlockMemory}
    (hleft : ∀ l < k, fp.loads .global (element a (i * k + l))
      ∧ ¬μ.Faults .global (element a (i * k + l))
      ∧ μ.wordAt .global (element a (i * k + l)) = left l)
    (hright : ∀ l < k, fp.loads .global (element b (l * n + j))
      ∧ ¬μ.Faults .global (element b (l * n + j))
      ∧ μ.wordAt .global (element b (l * n + j)) = right l)
    (h : NaiveTop F a b n k i j left right μ (rounds + 1) y) :
    LeadsTo (LaneState.Alone F (threadContext base t) matmulNaive (t % 32) fp outcome)
      (NaiveTop F a b n k i j left right μ rounds) y := by
  obtain ⟨s, _⟩ := y
  obtain ⟨rfl, hpc, hcolumn, hrow, hcolumns, hinner, hstride, l, hl, hcounter, h7, h9, h12⟩ := h
  simp only [] at hpc hcolumn hrow hcolumns hinner hstride hcounter h7 h9 h12
  have hlt : l < k := by omega
  have hp : ((s.general 6).toInt ≤ (s.general 13).toInt) ↔ k ≤ l := by
    rw [hinner, hcounter, toInt_ofNat (by omega), toInt_ofNat (by omega)]
    exact Int.ofNat_le
  have ha : s.general 7 + 0 = element a (i * k + l) := (BitVec.add_zero _).trans h7
  have hb : s.general 9 + 0 = element b (l * n + j) := (BitVec.add_zero _).trans h9
  obtain ⟨hla, hfa, hva⟩ := hleft l hlt
  obtain ⟨hlb, hfb, hvb⟩ := hright l hlt
  refine LaneState.leadsTo_line 25 1 0 hpc rfl (by decide) rfl (Nat.zero_le _) ?_
  refine LaneState.leadsTo_braIf (p := k ≤ l) rfl rfl (decide_eq_decide.2 hp)
    (.inl (meetsBefore_of_free free_matmulNaive _ _)) (fun hge => absurd hlt (Nat.not_lt.2 hge))
    fun _ => ?_
  refine LaneState.leadsTo_load (i := rri .ldGlobal 14 7 0) rfl rfl rfl (.inl rfl)
    (.inl (ha ▸ hla)) (ha ▸ hfa) ((congrArg (BlockMemory.wordAt _ .global) ha).trans hva) ?_
  refine LaneState.leadsTo_load (i := rri .ldGlobal 15 9 0) rfl rfl rfl (.inl rfl)
    (.inl (hb ▸ hlb)) (hb ▸ hfb) ((congrArg (BlockMemory.wordAt _ .global) hb).trans hvb) ?_
  refine LaneState.leadsTo_line 29 4 0 rfl rfl (by decide) rfl (Nat.zero_le _) ?_
  refine LaneState.leadsTo_bra rfl rfl (.now ⟨rfl, rfl, hcolumn, hrow, hcolumns, hinner, hstride,
    l + 1, by omega, ?_, ?_, ?_, ?_⟩)
  · have heq : s.general 13 + 1 = BitVec.ofNat 32 (l + 1) := by
      rw [hcounter, BitVec.ofNat_add]
      rfl
    exact heq
  · have heq : s.general 7 + 4 = element a (i * k + (l + 1)) := by
      rw [h7]
      exact element_add a (i * k + l) 1
    exact heq
  · have heq : s.general 9 + s.general 11 = element b ((l + 1) * n + j) := by
      rw [h9, hstride, element_add, Nat.succ_mul, Nat.add_right_comm]
    exact heq
  · have heq : F.fma (left l) (right l) (s.general 12) = matmulFold F left right (l + 1) := by
      rw [matmulFold_succ, h12]
    exact heq

/-- A thread retires with the element at its row and column stored, if there is one. -/
theorem leadsTo_naive (left right : Nat → Word) (hwidth : base.ntid.x = BitVec.ofNat 32 16)
    (ht : t < 256) (hi : matrixRow base.ctaid t = i) (hj : matrixCol base.ctaid t = j)
    (hi' : i < 2 ^ 31)
    (hj' : j < 2 ^ 31) (hm : m ≤ 2 ^ 30) (hn : n ≤ 2 ^ 30) (hk : k ≤ 2 ^ 30)
    (hparams : μ.params = [BitVec.ofNat 32 a, BitVec.ofNat 32 b, BitVec.ofNat 32 c,
      BitVec.ofNat 32 m, BitVec.ofNat 32 n, BitVec.ofNat 32 k])
    (hleft : i < m → j < n → ∀ l < k, fp.loads .global (element a (i * k + l))
      ∧ ¬μ.Faults .global (element a (i * k + l))
      ∧ μ.wordAt .global (element a (i * k + l)) = left l)
    (hright : i < m → j < n → ∀ l < k, fp.loads .global (element b (l * n + j))
      ∧ ¬μ.Faults .global (element b (l * n + j))
      ∧ μ.wordAt .global (element b (l * n + j)) = right l)
    (hresult : i < m → j < n → fp.stores .global (element c (i * n + j))
      ∧ ¬μ.Faults .global (element c (i * n + j))) :
    LeadsTo (LaneState.Alone F (threadContext base t) matmulNaive (t % 32) fp outcome)
      (fun z => z.1.pc = none ∧ (i < m → j < n →
        z.2.global.word (element c (i * n + j)).toNat = matmulFold F left right k))
      (.fresh, μ) := by
  have harity : 6 ≤ μ.params.length := by rw [hparams]; exact Nat.le_refl 6
  obtain ⟨hrow, hcol⟩ := special_matrix hwidth ht
  rw [hi] at hrow
  rw [hj] at hcol
  have hparam : ∀ {r v : Nat}, [a, b, c, m, n, k][r]? = some v →
      μ.params.getD r 0 = BitVec.ofNat 32 v := by
    intro r v h
    have hmap : μ.params = [a, b, c, m, n, k].map (BitVec.ofNat 32) := hparams
    rw [hmap, List.getD_eq_getElem?_getD, List.getElem?_map, h]
    rfl
  have hp : ((μ.params.getD 3 0).toInt ≤ (base.ctaid.y <<< ((4 : Word) &&& shiftMask).toNat
      + (threadContext base t).linearIndex (t % 32) / base.ntid.x).toInt) ↔ m ≤ i := by
    rw [hrow, hparam (r := 3) rfl, toInt_ofNat (by omega), toInt_ofNat hi']
    exact Int.ofNat_le
  have hq : ((μ.params.getD 4 0).toInt ≤ (base.ctaid.x <<< ((4 : Word) &&& shiftMask).toNat
      + (threadContext base t).linearIndex (t % 32) % base.ntid.x).toInt) ↔ n ≤ j := by
    rw [hcol, hparam (r := 4) rfl, toInt_ofNat (by omega), toInt_ofNat hj']
    exact Int.ofNat_le
  refine LaneState.leadsTo_line 0 12 6 rfl rfl (by decide) rfl harity ?_
  refine LaneState.leadsTo_exitIf (p := m ≤ i) rfl rfl (decide_eq_decide.2 hp)
    (fun hge => ⟨rfl, fun hlt => absurd hlt (Nat.not_lt.2 hge)⟩) fun hlt => ?_
  refine LaneState.leadsTo_line 13 1 0 rfl rfl (by decide) rfl (Nat.zero_le _) ?_
  refine LaneState.leadsTo_exitIf (p := n ≤ j) rfl rfl (decide_eq_decide.2 hq)
    (fun hge => ⟨rfl, fun _ hlt' => absurd hlt' (Nat.not_lt.2 hge)⟩) fun hlt' => ?_
  have him := Nat.not_le.1 hlt
  have hjn := Nat.not_le.1 hlt'
  refine LaneState.leadsTo_line 15 10 6 rfl rfl (by decide) rfl harity ?_
  refine LeadsTo.trans (LeadsTo.countdown (Q := NaiveTop F a b n k i j left right μ 0)
    (I := NaiveTop F a b n k i j left right μ) (fun y hy => .now hy)
    (fun rounds y hy =>
      (naive_round hk (hleft him hjn) (hright him hjn) hy).mono fun z hz => .inr hz)
    k ?_) ?_
  · refine ⟨rfl, rfl, hcol, hrow, hparam (r := 4) rfl, hparam (r := 5) rfl, ?_, 0, Nat.zero_add k,
      rfl, ?_, ?_, rfl⟩
    · have heq :
          μ.params.getD 4 0 <<< ((2 : Word) &&& shiftMask).toNat = BitVec.ofNat 32 (4 * n) := by
        rw [hparam (r := 4) rfl, ofNat_shl_two]
      exact heq
    · have heq : ((base.ctaid.y <<< ((4 : Word) &&& shiftMask).toNat
          + (threadContext base t).linearIndex (t % 32) / base.ntid.x) * μ.params.getD 5 0)
            <<< ((2 : Word) &&& shiftMask).toNat + μ.params.getD 0 0 = element a (i * k) := by
        rw [hrow, hparam (r := 5) rfl, hparam (r := 0) rfl, ← BitVec.ofNat_mul, ofNat_shl_two,
          BitVec.add_comm, ofNat_add_element]
      exact heq
    · have heq : (base.ctaid.x <<< ((4 : Word) &&& shiftMask).toNat
          + (threadContext base t).linearIndex (t % 32) % base.ntid.x)
            <<< ((2 : Word) &&& shiftMask).toNat + μ.params.getD 1 0 = element b (0 * n + j) := by
        rw [hcol, hparam (r := 1) rfl, ofNat_shl_two, BitVec.add_comm, ofNat_add_element,
          Nat.zero_mul, Nat.zero_add]
      exact heq
  · rintro ⟨s, μ⟩ ⟨rfl, hpc, hcolumn, hrow', hcolumns, hinner, -, l, hl, hcounter, -, -, h12⟩
    simp only [] at hpc hcolumn hrow' hcolumns hinner hcounter h12 hparam hresult harity
    obtain rfl : l = k := hl
    have hp' : ((s.general 6).toInt ≤ (s.general 13).toInt) ↔ True := by
      rw [hinner, hcounter]
      exact iff_true_intro (Int.le_refl _)
    have haddr : (s.general 3 * s.general 5 + s.general 2) <<< ((2 : Word) &&& shiftMask).toNat
        + μ.params.getD 2 0 + 0 = element c (i * n + j) := by
      rw [hrow', hcolumns, hcolumn, hparam (r := 2) rfl, ← BitVec.ofNat_mul, ← BitVec.ofNat_add,
        ofNat_shl_two, BitVec.add_comm _ (BitVec.ofNat 32 c)]
      exact (BitVec.add_zero _).trans (ofNat_add_element c _)
    obtain ⟨hstores, hok⟩ := hresult him hjn
    refine LaneState.leadsTo_line 25 1 0 hpc rfl (by decide) rfl (Nat.zero_le _) ?_
    refine LaneState.leadsTo_braIf (p := True) rfl rfl (decide_eq_decide.2 hp')
      (.inl (meetsBefore_of_free free_matmulNaive _ _)) (fun _ => ?_) fun h => absurd trivial h
    refine LaneState.leadsTo_line 34 5 6 rfl rfl (by decide) rfl harity ?_
    refine LaneState.leadsTo_store (i := stGlobal 16 12) rfl rfl rfl (.inl rfl)
      (haddr ▸ hstores) (haddr ▸ hok) ?_
    refine LaneState.leadsTo_exit (i := {}) rfl rfl rfl rfl (.now ⟨rfl, fun _ _ => ?_⟩)
    have hself := BlockMemory.wordAt_write_self (matmulFold F left right l)
      (fun h : Space.global = .param => nomatch h) hok
    rw [← haddr, ← h12] at hself
    rw [← haddr, ← h12]
    exact hself

end Run

section Launch

variable {F : FloatOps} {a b c m n k : Nat} {g : ByteMemory} {program : Program}

/-- What the threads of the naive product load and store. -/
def naiveAssignment (F : FloatOps) (a b c m n k : Nat) (g : ByteMemory) : Assignment where
  loads := fun cta t w => matrixRow cta t < m ∧ matrixCol cta t < n ∧ ∃ l < k,
    w = element a (matrixRow cta t * k + l) ∨ w = element b (l * n + matrixCol cta t)
  stores := fun cta t =>
    if matrixRow cta t < m ∧ matrixCol cta t < n then
      some (element c (matrixRow cta t * n + matrixCol cta t),
        matmulAt F a b n k g (matrixRow cta t) (matrixCol cta t))
    else none

theorem naiveAssignment_stores {cta : Dim2} {t : Nat} {w v : Word} :
    (naiveAssignment F a b c m n k g).stores cta t = some (w, v) ↔ matrixRow cta t < m
      ∧ matrixCol cta t < n ∧ w = element c (matrixRow cta t * n + matrixCol cta t)
      ∧ v = matmulAt F a b n k g (matrixRow cta t) (matrixCol cta t) := by
  simp only [naiveAssignment, Option.ite_none_right_eq_some, Option.some.injEq, Prod.mk.injEq,
    and_assoc, eq_comm (b := w), eq_comm (b := v)]

theorem naive_sound (h : MatmulBuffers a b c m n k g) : (naiveAssignment F a b c m n k g).Sound F
    (matmulLaunch program matmulNaive a b c m n k) g (blockOrder (matrixGrid m n)) where
  pos := show (16 : Word) * 16 ≠ 0 by decide
  fits := show ((16 : Word) * 16).toNat ≤ 2 ^ 32 - 32 by decide
  nodup := Device.nodup_blockOrder _
  annotated := annotated_matmulNaive
  free := free_matmulNaive
  aligned := by
    intro cta t w v hst
    obtain ⟨hi, hj, rfl, -⟩ := naiveAssignment_stores.1 hst
    exact element_aligned h.size h.result (matrix_index_lt hi hj)
  apart := by
    intro cta hc cta' hc' t ht t' ht' w v v' hst hst'
    obtain ⟨hi, hj, rfl, -⟩ := naiveAssignment_stores.1 hst
    obtain ⟨hi', hj', heq, -⟩ := naiveAssignment_stores.1 hst'
    obtain ⟨hrow, hcol⟩ := matrix_index_inj hj hj' (element_inj h.size h.result
      (matrix_index_lt hi hj) (matrix_index_lt hi' hj') heq)
    exact matrix_inj ht ht' hrow hcol
  loads := by
    rintro cta hc t ht w ⟨hi, hj, l, hl, hw⟩ t' ht' v hst
    obtain ⟨hi', hj', heq, -⟩ := naiveAssignment_stores.1 hst
    have hout := matrix_index_lt hi' hj'
    rcases hw with rfl | rfl
    · exact element_apart h.size h.left h.result h.apartLeft (matrix_index_lt hi hl) hout heq
    · exact element_apart h.size h.right h.result h.apartRight (matrix_index_lt hl hj) hout heq
  run := by
    intro cta hc t ht g' hg
    obtain ⟨hm, hn, hk⟩ := h.bounds
    have ht : t < 256 := ht
    have hstored : ∀ c' w, (naiveAssignment F a b c m n k g).out 256 c' w →
        ∃ q < m * n, w = element c q := by
      rintro c' w ⟨t', -, v, hst⟩
      obtain ⟨hi, hj, rfl, -⟩ := naiveAssignment_stores.1 hst
      exact ⟨_, matrix_index_lt hi hj, rfl⟩
    have hsize' : g'.size ≤ 2 ^ 32 := hg.size.trans_le h.size
    refine (leadsTo_naive (i := matrixRow cta t) (j := matrixCol cta t) (m := m) (n := n) (k := k)
      (a := a) (b := b) (c := c) (fun l => g.word (a + 4 * (matrixRow cta t * k + l)))
      (fun l => g.word (b + 4 * (l * n + matrixCol cta t))) rfl ht rfl rfl
      (matrixRow_lt hm hc ht) (matrixCol_lt hn hc) hm hn hk rfl ?_ ?_ ?_).mono ?_
    · intro hi hj l hl
      have hq := matrix_index_lt hi hl
      refine ⟨⟨rfl, hi, hj, l, hl, .inl rfl⟩, not_faults_element h.size hg.size h.left hq, ?_⟩
      exact (congrArg g'.word (toNat_element h.size h.left hq)).trans
        (hg.word h.size hstored h.left h.result h.apartLeft hq)
    · intro hi hj l hl
      have hq := matrix_index_lt hl hj
      refine ⟨⟨rfl, hi, hj, l, hl, .inr rfl⟩, not_faults_element h.size hg.size h.right hq, ?_⟩
      exact (congrArg g'.word (toNat_element h.size h.right hq)).trans
        (hg.word h.size hstored h.right h.result h.apartRight hq)
    · intro hi hj
      exact ⟨⟨rfl, _, naiveAssignment_stores.2 ⟨hi, hj, rfl, rfl⟩⟩,
        not_faults_element h.size hg.size h.result (matrix_index_lt hi hj)⟩
    · rintro z ⟨hpc, hz⟩
      refine ⟨hpc, fun w v hst => ?_⟩
      obtain ⟨hi, hj, rfl, rfl⟩ := naiveAssignment_stores.1 hst
      exact hz hi hj

/-- The naive kernel leaves the product, element by element folded from left to right. -/
theorem naive_computes (hprogram : decodeWords 0 program.words = .ok matmulNaive)
    (h : MatmulBuffers a b c m n k g) : ∃ fuel stats g',
      Device.launch F program (matrixGrid m n) ⟨16, 16⟩ (matmulParams a b c m n k) g fuel
        = some (.ok stats, g')
      ∧ MatrixResult (matmulAt F a b n k g) c m n g g' := by
  obtain ⟨hm, hn, -⟩ := h.bounds
  obtain ⟨fuel, stats, g', hlaunch, hsize, hwords, hbytes⟩ := Device.launch_assigned hprogram
    (matrixGrid_count h) (naive_sound (F := F) h)
  refine ⟨fuel, stats, g', hlaunch, ⟨hsize, fun p hp => hbytes p ?_⟩, fun i hi j hj => ?_⟩
  · rintro cta - t - w v hst ⟨hle, hlt⟩
    obtain ⟨hi, hj, rfl, -⟩ := naiveAssignment_stores.1 hst
    have hq := matrix_index_lt hi hj
    rw [toNat_element h.size h.result hq] at hle hlt
    omega
  · obtain ⟨cta, hc, t, ht, rfl, rfl⟩ := exists_matrix hm hn hi hj
    have hword := hwords cta hc t ht _ _ (naiveAssignment_stores.2 ⟨hi, hj, rfl, rfl⟩)
    rwa [toNat_element h.size h.result (matrix_index_lt hi hj)] at hword

end Launch

end WarpSim
