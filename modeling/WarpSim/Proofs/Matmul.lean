import WarpSim.Proofs.MatmulNaive
import WarpSim.Proofs.Tiles

/-!
# The two matrix products

The tiled kernel walks on past the edge of the matrices to the end of the last tile, where both
factors are zero: its elements are those of the naive kernel with as many more steps on zeros.
-/

namespace WarpSim

section Padding

variable {F : FloatOps} {left right left' right' : Nat → Word} {k : Nat}

theorem matmulFold_congr (h : ∀ l < k, left l = left' l ∧ right l = right' l) :
    matmulFold F left right k = matmulFold F left' right' k := by
  induction k with
  | zero => rfl
  | succ k ih =>
    obtain ⟨hleft, hright⟩ := h k (Nat.lt_succ_self k)
    rw [matmulFold_succ, matmulFold_succ, ih fun l hl => h l (Nat.lt_succ_of_lt hl), hleft, hright]

/-- Steps past the end of both of the factors. -/
theorem matmulFold_padded (hleft : ∀ l, k ≤ l → left l = 0) (hright : ∀ l, k ≤ l → right l = 0)
    (d : Nat) : matmulFold F left right (k + d) = (F.fma 0 0)^[d] (matmulFold F left right k) := by
  induction d with
  | zero => rfl
  | succ d ih =>
    rw [← Nat.add_assoc, matmulFold_succ, hleft _ (Nat.le_add_right k d),
      hright _ (Nat.le_add_right k d), ih, Function.iterate_succ_apply']

end Padding

section Launch

variable {F : FloatOps} {a b c m n k : Nat} {g : ByteMemory} {program : Program}

/-- The element that the tiled kernel leaves. -/
def tiledAt (F : FloatOps) (a b n k : Nat) (g : ByteMemory) (i j : Nat) : Word :=
  (F.fma 0 0)^[16 * tiles k - k] (matmulAt F a b n k g i j)

theorem acc_tiled {cta : Dim2} {i j : Nat} (hi : i < m) (hj : j < n) :
    Tiling.acc ⟨a, b, c, m, n, k, g, cta⟩ F i j (16 * tiles k) = tiledAt F a b n k g i j := by
  have hle : k ≤ 16 * tiles k := by
    rw [tiles]
    omega
  obtain ⟨d, hd⟩ := Nat.exists_eq_add_of_le hle
  rw [tiledAt, hd, Nat.add_sub_cancel_left]
  refine (matmulFold_padded (fun l hl => if_neg fun h => absurd h.2 (Nat.not_lt.2 hl))
    (fun l hl => if_neg fun h => absurd h.1 (Nat.not_lt.2 hl)) d).trans (congrArg _ ?_)
  exact matmulFold_congr fun l hl => ⟨if_pos ⟨hi, hl⟩, if_pos ⟨hl, hj⟩⟩

def matmulOut (c m n : Nat) (cta : Dim2) (w : Word) : Prop :=
  ∃ t < 256, matrixRow cta t < m ∧ matrixCol cta t < n
    ∧ w = element c (matrixRow cta t * n + matrixCol cta t)

theorem tiled_begins (hprogram : program.Decoded matmulTiled 2048)
    (h : MatmulBuffers a b c m n k g) {cta : Dim2} (hc : cta ∈ blockOrder (matrixGrid m n))
    {g' : ByteMemory} (hg : Launch.Inputs (matmulOut c m n) g g') :
    Tiling.Begins ⟨a, b, c, m, n, k, g, cta⟩
      ((matmulLaunch program matmulTiled a b c m n k).context cta)
      ((matmulLaunch program matmulTiled a b c m n k).blockMemory g') where
  width := rfl
  block := rfl
  params := rfl
  shared := by
    show (ByteMemory.zeroed program.sharedBytes.toNat).size = 2048
    rw [hprogram.shared]
    exact List.length_replicate
  size := hg.size
  buffers := h
  left := fun q hq => hg.word h.size
    (fun _ _ ⟨_, _, hi, hj, hw⟩ => ⟨_, matrix_index_lt hi hj, hw⟩) h.left h.result h.apartLeft hq
  right := fun q hq => hg.word h.size
    (fun _ _ ⟨_, _, hi, hj, hw⟩ => ⟨_, matrix_index_lt hi hj, hw⟩) h.right h.result h.apartRight hq
  row := fun t ht => matrixRow_lt h.bounds.1 hc ht
  column := fun t => matrixCol_lt h.bounds.2.1 hc

theorem tiled_planned (hprogram : program.Decoded matmulTiled 2048)
    (h : MatmulBuffers a b c m n k g) :
    Launch.Planned.All F (matmulLaunch program matmulTiled a b c m n k) (2 * tiles k)
      (matmulOut c m n)
      (fun w => tiledAt F a b n k g ((w.toNat - c) / 4 / n) ((w.toNat - c) / 4 % n)) g
      (blockOrder (matrixGrid m n)) where
  pos := show (16 : Word) * 16 ≠ 0 by decide
  fits := show ((16 : Word) * 16).toNat ≤ 2 ^ 32 - 32 by decide
  nodup := Device.nodup_blockOrder _
  aligned := by
    rintro cta w ⟨t, -, hi, hj, rfl⟩
    exact element_aligned h.size h.result (matrix_index_lt hi hj)
  apart := by
    rintro cta - cta' - hne w ⟨t, ht, hi, hj, rfl⟩ ⟨t', ht', hi', hj', heq⟩
    obtain ⟨hrow, hcol⟩ := matrix_index_inj hj hj' (element_inj h.size h.result
      (matrix_index_lt hi hj) (matrix_index_lt hi' hj') heq)
    exact hne (matrix_inj ht ht' hrow hcol).1
  planned := by
    intro cta hc g' hg
    have hb := tiled_begins hprogram h hc hg
    refine ⟨_, Tiling.sound hb, rfl, ⟨.refl _, rfl, fun hodd => absurd hodd (by decide)⟩,
      fun _ _ => rfl, fun m hm => hm.global, fun w => ?_, ?_⟩
    · constructor
      · rintro ⟨t, ht, hi, hj, hw⟩
        exact ⟨t, ht, rfl, hi, hj, hw⟩
      · rintro ⟨t, ht, -, hi, hj, hw⟩
        exact ⟨t, ht, hi, hj, hw⟩
    · rintro w ⟨t, ht, hi, hj, rfl⟩
      obtain ⟨hdiv, hmod⟩ := matrix_index (i := matrixRow cta t) hj
      rw [toNat_element h.size h.result (matrix_index_lt hi hj), Nat.add_sub_cancel_left,
        Nat.mul_div_cancel_left _ (by decide), hdiv, hmod, ← acc_tiled hi hj]
      exact Tiling.value_result hb hi hj

/-- The tiled kernel leaves the elements of the naive one with the steps of the padding, and
completes two barriers for each tile along the inner dimension. -/
theorem tiled_computes (hprogram : program.Decoded matmulTiled 2048)
    (h : MatmulBuffers a b c m n k g) :
    (∃ fuel stats g', Device.launch F program (matrixGrid m n) ⟨16, 16⟩ (matmulParams a b c m n k) g
          fuel = some (.ok stats, g')
        ∧ MatrixResult (tiledAt F a b n k g) c m n g g')
      ∧ ∀ ctaid s, Device.Begins F program (matrixGrid m n) ⟨16, 16⟩ (matmulParams a b c m n k) g
          ctaid s →
        ∃ log s' b, Scheduler.Run F matmulTiled s log s'
          ∧ s'.advance F matmulTiled = .returned (.ok ()) b
          ∧ Scheduler.completions log = 2 * tiles k := by
  obtain ⟨hm, hn, -⟩ := h.bounds
  obtain ⟨⟨fuel, stats, g', hlaunch, hstores⟩, hbarriers⟩ := Device.launch_planned hprogram.words
    (matrixGrid_count h) (tiled_planned hprogram h)
  refine ⟨⟨fuel, stats, g', hlaunch, ⟨hstores.size, fun p hp => ?_⟩, fun i hi j hj => ?_⟩,
    hbarriers⟩
  · refine (hstores.bytes p).resolve_right ?_
    rintro ⟨w, ⟨cta, -, t, -, hi, hj, rfl⟩, hle, hlt⟩
    have hq := matrix_index_lt hi hj
    rw [toNat_element h.size h.result hq] at hle hlt
    omega
  · obtain ⟨cta, hc, t, ht, rfl, rfl⟩ := exists_matrix hm hn hi hj
    obtain ⟨hdiv, hmod⟩ := matrix_index (i := matrixRow cta t) hj
    have hword := hstores.words _ ⟨cta, hc, t, ht, hi, hj, rfl⟩
    rwa [toNat_element h.size h.result (matrix_index_lt hi hj), Nat.add_sub_cancel_left,
      Nat.mul_div_cancel_left _ (by decide), hdiv, hmod] at hword

/-- The literals of both kernels are zeros. -/
theorem zeros_of {C : FloatChars} (hC : C.fromChars ['0', '.', '0'] = some 0) (r : Nat) :
    ∀ text ∈ List.replicate r ['0', '.', '0'], C.fromChars text = zeroChars.fromChars text := by
  intro text ht
  obtain rfl := List.eq_of_mem_replicate ht
  exact hC

/-- The tiled kernel leaves the elements of the product with the steps of the padding, and
completes two barriers for each tile along the inner dimension. -/
theorem matmul_tiled (F : FloatOps) (C : FloatChars) (hC : C.fromChars ['0', '.', '0'] = some 0)
    (h : MatmulBuffers a b c m n k g) :
    ∃ program, assemble C Kernels.matmulTiled = .ok program
      ∧ (∃ fuel stats g', Device.launch F program (matrixGrid m n) ⟨16, 16⟩
            (matmulParams a b c m n k) g fuel = some (.ok stats, g')
          ∧ MatrixResult (tiledAt F a b n k g) c m n g g')
      ∧ ∀ ctaid s, Device.Begins F program (matrixGrid m n) ⟨16, 16⟩ (matmulParams a b c m n k) g
          ctaid s →
        ∃ log s' b, Scheduler.Run F matmulTiled s log s'
          ∧ s'.advance F matmulTiled = .returned (.ok ()) b
          ∧ Scheduler.completions log = 2 * tiles k := by
  obtain ⟨program, hassemble, hprogram⟩ := assembles_of assembly_matmulTiled (zeros_of hC 3)
  exact ⟨program, hassemble, tiled_computes hprogram h⟩

/-- A fused multiply-add on integers: a step on zeros changes nothing. -/
def integerOps : FloatOps := { (default : FloatOps) with fma := fun x y z => x * y + z }

/-- Two rows of three elements, three rows of two, and room for their product. -/
def twoMemory : ByteMemory :=
  ⟨[1, 2, 3, 4, 5, 6, 7, 8, 9, 10, 11, 12, 0, 0, 0, 0].flatMap fun v => [v, 0, 0, 0]⟩

theorem twoBuffers : MatmulBuffers 0 24 48 2 2 3 twoMemory where
  size := by decide
  rows := by decide
  columns := by decide
  inner := by decide
  left := by decide
  right := by decide
  result := by decide
  apartLeft := .inl (by decide)
  apartRight := .inl (by decide)

theorem matmul_tiled_two : ∃ program, assemble zeroChars Kernels.matmulTiled = .ok program
    ∧ ∃ fuel stats g', Device.launch integerOps program ⟨1, 1⟩ ⟨16, 16⟩ [0, 24, 48, 2, 2, 3]
        twoMemory fuel = some (.ok stats, g')
      ∧ g'.word 48 = 58 ∧ g'.word 60 = 154 := by
  obtain ⟨program, hassemble, ⟨fuel, stats, g', hlaunch, hresult⟩, -⟩ := matmul_tiled integerOps
    zeroChars rfl twoBuffers
  exact ⟨program, hassemble, fuel, stats, g', hlaunch,
    (hresult.elements 0 (by decide) 0 (by decide)).trans (by decide +kernel),
    (hresult.elements 1 (by decide) 1 (by decide)).trans (by decide +kernel)⟩

/-- Both kernels return; the tiled one leaves the elements of the other one with the steps of the
padding. -/
theorem launch_both {C : FloatChars} (hC : C.fromChars ['0', '.', '0'] = some 0)
    (h : MatmulBuffers a b c m n k g) :
    ∃ naive tiled, assemble C Kernels.matmulNaive = .ok naive
      ∧ assemble C Kernels.matmulTiled = .ok tiled
      ∧ ∃ fuel fuel' stats stats' g' g'',
        Device.launch F naive (matrixGrid m n) ⟨16, 16⟩ (matmulParams a b c m n k) g fuel
          = some (.ok stats, g')
        ∧ Device.launch F tiled (matrixGrid m n) ⟨16, 16⟩ (matmulParams a b c m n k) g fuel'
          = some (.ok stats', g'')
        ∧ MatrixResult (matmulAt F a b n k g) c m n g g'
        ∧ MatrixResult (tiledAt F a b n k g) c m n g g'' := by
  obtain ⟨naive, hnaive, hprogram⟩ := assembles_of assembly_matmulNaive (zeros_of hC 1)
  obtain ⟨tiled, htiled, hprogram'⟩ := assembles_of assembly_matmulTiled (zeros_of hC 3)
  obtain ⟨fuel, stats, g', hlaunch, hresult⟩ := naive_computes (F := F) hprogram.words h
  obtain ⟨⟨fuel', stats', g'', hlaunch', hresult'⟩, -⟩ := tiled_computes (F := F) hprogram' h
  exact ⟨naive, tiled, hnaive, htiled, fuel, fuel', stats, stats', g', g'', hlaunch, hlaunch',
    hresult, hresult'⟩

theorem MatrixResult.congr {f f' : Nat → Nat → Word} {g' : ByteMemory}
    (h : MatrixResult f c m n g g') (heq : ∀ i < m, ∀ j < n, f i j = f' i j) :
    MatrixResult f' c m n g g' :=
  ⟨h.same, fun i hi j hj => (h.elements i hi j hj).trans (heq i hi j hj)⟩

/-- Where a step on zeros changes nothing, the two kernels leave the same memory: each element is
the fold of the products of its row and column, from left to right. -/
theorem matmul_bitwise (F : FloatOps) (C : FloatChars) (hf : ∀ acc, F.fma 0 0 acc = acc)
    (hC : C.fromChars ['0', '.', '0'] = some 0) (h : MatmulBuffers a b c m n k g) :
    ∃ naive tiled, assemble C Kernels.matmulNaive = .ok naive
      ∧ assemble C Kernels.matmulTiled = .ok tiled
      ∧ ∃ fuel fuel' stats stats' g',
        Device.launch F naive (matrixGrid m n) ⟨16, 16⟩ (matmulParams a b c m n k) g fuel
          = some (.ok stats, g')
        ∧ Device.launch F tiled (matrixGrid m n) ⟨16, 16⟩ (matmulParams a b c m n k) g fuel'
          = some (.ok stats', g')
        ∧ ByteMemory.SameBut c (m * n) g g'
        ∧ ∀ i < m, ∀ j < n, g'.word (c + 4 * (i * n + j)) = (List.range k).foldl
          (fun acc l => F.fma (g.word (a + 4 * (i * k + l))) (g.word (b + 4 * (l * n + j))) acc)
          0 := by
  obtain ⟨naive, tiled, hnaive, htiled, fuel, fuel', stats, stats', g', g'', hlaunch, hlaunch',
    hresult, hresult'⟩ := launch_both (F := F) hC h
  have hpadding : ∀ i < m, ∀ j < n, tiledAt F a b n k g i j = matmulAt F a b n k g i j :=
    fun i _ j _ => Function.iterate_fixed (hf _) _
  obtain rfl := MatrixResult.unique h.result hresult (hresult'.congr hpadding)
  exact ⟨naive, tiled, hnaive, htiled, fuel, fuel', stats, stats', _, hlaunch, hlaunch',
    hresult.same, hresult.elements⟩

theorem matmul_bitwise_two : ∃ naive tiled, assemble zeroChars Kernels.matmulNaive = .ok naive
    ∧ assemble zeroChars Kernels.matmulTiled = .ok tiled
    ∧ ∃ fuel fuel' stats stats' g',
      Device.launch integerOps naive ⟨1, 1⟩ ⟨16, 16⟩ [0, 24, 48, 2, 2, 3]
          twoMemory fuel = some (.ok stats, g')
      ∧ Device.launch integerOps tiled ⟨1, 1⟩ ⟨16, 16⟩ [0, 24, 48, 2, 2, 3]
          twoMemory fuel' = some (.ok stats', g')
      ∧ g'.word 52 = 64 := by
  obtain ⟨naive, tiled, hnaive, htiled, fuel, fuel', stats, stats', g', hlaunch, hlaunch', -,
    hwords⟩ := matmul_bitwise integerOps zeroChars (fun acc => by simp [integerOps]) rfl twoBuffers
  exact ⟨naive, tiled, hnaive, htiled, fuel, fuel', stats, stats', g', hlaunch, hlaunch',
    (hwords 0 (by decide) 1 (by decide)).trans (by decide +kernel)⟩

/-- The two kernels leave the same memory just when the steps of the padding change no element;
and then each element is a fold of the products, from left to right. -/
theorem matmul_agree (F : FloatOps) (C : FloatChars) (hC : C.fromChars ['0', '.', '0'] = some 0)
    (h : MatmulBuffers a b c m n k g) :
    ∃ naive tiled, assemble C Kernels.matmulNaive = .ok naive
      ∧ assemble C Kernels.matmulTiled = .ok tiled
      ∧ ∃ fuel fuel' stats stats' g' g'',
        Device.launch F naive (matrixGrid m n) ⟨16, 16⟩ (matmulParams a b c m n k) g fuel
          = some (.ok stats, g')
        ∧ Device.launch F tiled (matrixGrid m n) ⟨16, 16⟩ (matmulParams a b c m n k) g fuel'
          = some (.ok stats', g'')
        ∧ MatrixResult (matmulAt F a b n k g) c m n g g'
        ∧ (g'' = g' ↔ ∀ i < m, ∀ j < n, tiledAt F a b n k g i j = matmulAt F a b n k g i j) := by
  obtain ⟨naive, tiled, hnaive, htiled, fuel, fuel', stats, stats', g', g'', hlaunch, hlaunch',
    hresult, hresult'⟩ := launch_both (F := F) hC h
  refine ⟨naive, tiled, hnaive, htiled, fuel, fuel', stats, stats', g', g'', hlaunch, hlaunch',
    hresult, ?_⟩
  constructor
  · rintro rfl i hi j hj
    exact (hresult'.elements i hi j hj).symm.trans (hresult.elements i hi j hj)
  · intro heq
    exact (MatrixResult.unique h.result hresult (hresult'.congr heq)).symm

theorem matmul_agree_two : ∃ naive tiled, assemble zeroChars Kernels.matmulNaive = .ok naive
    ∧ assemble zeroChars Kernels.matmulTiled = .ok tiled
    ∧ ∃ fuel fuel' stats stats' g',
      Device.launch integerOps naive ⟨1, 1⟩ ⟨16, 16⟩ [0, 24, 48, 2, 2, 3]
          twoMemory fuel = some (.ok stats, g')
      ∧ Device.launch integerOps tiled ⟨1, 1⟩ ⟨16, 16⟩ [0, 24, 48, 2, 2, 3]
          twoMemory fuel' = some (.ok stats', g') := by
  obtain ⟨naive, tiled, hnaive, htiled, fuel, fuel', stats, stats', g', g'', hlaunch, hlaunch', -,
    hiff⟩ := matmul_agree integerOps zeroChars rfl twoBuffers
  obtain rfl := hiff.2 (by decide +kernel)
  exact ⟨naive, tiled, hnaive, htiled, fuel, fuel', stats, stats', _, hlaunch, hlaunch'⟩

end Launch

end WarpSim
