import WarpSim.Buffers
import WarpSim.Proofs.Independent
import WarpSim.Proofs.Rows

/-!
# Kernels with one thread an element of a matrix

A grid of blocks of 16 by 16 threads covers a matrix, with the columns along the first dimension.
A product of two matrices folds the products of a row's and a column's elements, from left to
right, by whatever the host makes of a fused multiply-add.
-/

namespace WarpSim

section Index

/-- The row and the column of the element of a thread. -/
def matrixRow (c : Dim2) (t : Nat) : Nat := 16 * c.y.toNat + t / 16

def matrixCol (c : Dim2) (t : Nat) : Nat := 16 * c.x.toNat + t % 16

/-- How many tiles of 16 elements cover so many. -/
def tiles (n : Nat) : Nat := (n + 15) / 16

/-- The grid that covers a matrix of `m` rows and `n` columns. -/
def matrixGrid (m n : Nat) : Dim2 := ⟨BitVec.ofNat 32 (tiles n), BitVec.ofNat 32 (tiles m)⟩

variable {c c' : Dim2} {t t' m n i j : Nat}

theorem matrix_inj (ht : t < 256) (ht' : t' < 256) (hrow : matrixRow c t = matrixRow c' t')
    (hcol : matrixCol c t = matrixCol c' t') : c = c' ∧ t = t' := by
  simp only [matrixRow, matrixCol] at hrow hcol
  obtain ⟨x, y⟩ := c
  obtain ⟨x', y'⟩ := c'
  simp only [] at hrow hcol
  have hx : x = x' := BitVec.eq_of_toNat_eq (by omega)
  have hy : y = y' := BitVec.eq_of_toNat_eq (by omega)
  exact ⟨by rw [hx, hy], by omega⟩

theorem exists_matrix (hm : m ≤ 2 ^ 30) (hn : n ≤ 2 ^ 30) (hi : i < m) (hj : j < n) :
    ∃ c ∈ blockOrder (matrixGrid m n), ∃ t < 256, matrixRow c t = i ∧ matrixCol c t = j := by
  have hx : (BitVec.ofNat 32 (j / 16)).toNat = j / 16 := Nat.mod_eq_of_lt (by omega)
  have hy : (BitVec.ofNat 32 (i / 16)).toNat = i / 16 := Nat.mod_eq_of_lt (by omega)
  have hgx : (matrixGrid m n).x.toNat = tiles n := Nat.mod_eq_of_lt (by simp only [tiles]; omega)
  have hgy : (matrixGrid m n).y.toNat = tiles m := Nat.mod_eq_of_lt (by simp only [tiles]; omega)
  refine ⟨⟨BitVec.ofNat 32 (j / 16), BitVec.ofNat 32 (i / 16)⟩, mem_blockOrder.2 ⟨?_, ?_⟩,
    16 * (i % 16) + j % 16, by omega, ?_, ?_⟩
  · rw [hgx, hx, tiles]
    omega
  · rw [hgy, hy, tiles]
    omega
  · rw [matrixRow, hy]
    omega
  · rw [matrixCol, hx]
    omega

/-- The index of an element, row by row. -/
theorem matrix_index_lt (hi : i < m) (hj : j < n) : i * n + j < m * n := by
  have := Nat.mul_le_mul_right n (Nat.succ_le_of_lt hi)
  rw [Nat.succ_mul] at this
  omega

theorem matrix_index (hj : j < n) : (i * n + j) / n = i ∧ (i * n + j) % n = j := by
  rw [Nat.mul_comm, Nat.mul_add_mod, Nat.mod_eq_of_lt hj, Nat.mul_add_div (Nat.zero_lt_of_lt hj),
    Nat.div_eq_of_lt hj]
  exact ⟨rfl, rfl⟩

theorem matrix_index_inj {i' j' : Nat} (hj : j < n) (hj' : j' < n) (h : i * n + j = i' * n + j') :
    i = i' ∧ j = j' := by
  obtain ⟨hdiv, hmod⟩ := matrix_index (i := i) hj
  obtain ⟨hdiv', hmod'⟩ := matrix_index (i := i') hj'
  rw [h] at hdiv hmod
  exact ⟨hdiv.symm.trans hdiv', hmod.symm.trans hmod'⟩

theorem special_tile {base : LaneContext} (hwidth : base.ntid.x = BitVec.ofNat 32 16)
    (ht : t < 256) :
    (threadContext base t).linearIndex (t % 32) % base.ntid.x = BitVec.ofNat 32 (t % 16)
      ∧ (threadContext base t).linearIndex (t % 32) / base.ntid.x = BitVec.ofNat 32 (t / 16) := by
  have h16 : (BitVec.ofNat 32 16).toNat = 16 := rfl
  have hmod : ∀ i < 256, (BitVec.ofNat 32 i).toNat = i := fun i hi => Nat.mod_eq_of_lt (by omega)
  rw [special_tid, hwidth]
  constructor <;> apply BitVec.eq_of_toNat_eq
  · rw [BitVec.toNat_umod, h16, hmod t ht, hmod (t % 16) (by omega)]
  · rw [BitVec.toNat_udiv, h16, hmod t ht, hmod (t / 16) (by omega)]

/-- What the kernels compute for the row and the column of a thread. -/
theorem special_matrix {base : LaneContext} (hwidth : base.ntid.x = BitVec.ofNat 32 16)
    (ht : t < 256) :
    base.ctaid.y <<< ((4 : Word) &&& shiftMask).toNat
        + (threadContext base t).linearIndex (t % 32) / base.ntid.x
      = BitVec.ofNat 32 (matrixRow base.ctaid t)
    ∧ base.ctaid.x <<< ((4 : Word) &&& shiftMask).toNat
        + (threadContext base t).linearIndex (t % 32) % base.ntid.x
      = BitVec.ofNat 32 (matrixCol base.ctaid t) := by
  have hshl : ∀ w : Word,
      w <<< ((4 : Word) &&& shiftMask).toNat = BitVec.ofNat 32 (16 * w.toNat) := by
    intro w
    have h := ofNat_shl (w := (4 : Word)) (k := 4) (i := w.toNat) (j := 16 * w.toNat) rfl rfl
    rwa [BitVec.ofNat_toNat, BitVec.setWidth_eq] at h
  obtain ⟨htx, hty⟩ := special_tile hwidth ht
  rw [htx, hty, hshl, hshl, ← BitVec.ofNat_add, ← BitVec.ofNat_add]
  exact ⟨rfl, rfl⟩

end Index

section Product

/-- Buffers of a product of an `m` by `k` matrix and a `k` by `n` one, that of the result apart. -/
structure MatmulBuffers (a b c m n k : Nat) (g : ByteMemory) : Prop where
  size : g.size ≤ 2 ^ 32
  rows : 1 ≤ m
  columns : 1 ≤ n
  inner : 1 ≤ k
  left : g.HasBuffer a (m * k)
  right : g.HasBuffer b (k * n)
  result : g.HasBuffer c (m * n)
  apartLeft : ByteMemory.Apart a (m * k) c (m * n)
  apartRight : ByteMemory.Apart b (k * n) c (m * n)

/-- The first `k'` steps of an element of the product. -/
def matmulFold (F : FloatOps) (left right : Nat → Word) (k' : Nat) : Word :=
  (List.range k').foldl (fun acc l => F.fma (left l) (right l) acc) 0

theorem matmulFold_succ (F : FloatOps) (left right : Nat → Word) (l : Nat) :
    matmulFold F left right (l + 1) = F.fma (left l) (right l) (matmulFold F left right l) := by
  rw [matmulFold, List.range_succ, List.foldl_append]
  rfl

/-- The element of the product at row `i` and column `j`. -/
def matmulAt (F : FloatOps) (a b n k : Nat) (g : ByteMemory) (i j : Nat) : Word :=
  matmulFold F (fun l => g.word (a + 4 * (i * k + l))) (fun l => g.word (b + 4 * (l * n + j))) k

variable {a b c m n k : Nat} {g : ByteMemory}

theorem MatmulBuffers.bounds (h : MatmulBuffers a b c m n k g) :
    m ≤ 2 ^ 30 ∧ n ≤ 2 ^ 30 ∧ k ≤ 2 ^ 30 := by
  have hsize := h.size
  have hmk := h.left.2
  have hkn := h.right.2
  have h1 := Nat.le_mul_of_pos_right m h.inner
  have h2 := Nat.le_mul_of_pos_left k h.rows
  have h3 := Nat.le_mul_of_pos_left n h.inner
  omega

/-- The words that the host passes to the kernels. -/
def matmulParams (a b c m n k : Nat) : List Word :=
  [BitVec.ofNat 32 a, BitVec.ofNat 32 b, BitVec.ofNat 32 c, BitVec.ofNat 32 m, BitVec.ofNat 32 n,
    BitVec.ofNat 32 k]

abbrev matmulLaunch (program : Program) (decoded : List Instruction) (a b c m n k : Nat) : Launch :=
  .ofProgram program decoded (matrixGrid m n) ⟨16, 16⟩ (matmulParams a b c m n k)

theorem matrixRow_lt (hm : m ≤ 2 ^ 30) {cta : Dim2} {t : Nat}
    (hc : cta ∈ blockOrder (matrixGrid m n)) (ht : t < 256) : matrixRow cta t < 2 ^ 31 := by
  have h := (mem_blockOrder.1 hc).2
  have hg : (matrixGrid m n).y.toNat = tiles m := Nat.mod_eq_of_lt (by simp only [tiles]; omega)
  rw [hg, tiles] at h
  rw [matrixRow]
  omega

theorem matrixCol_lt (hn : n ≤ 2 ^ 30) {cta : Dim2} {t : Nat}
    (hc : cta ∈ blockOrder (matrixGrid m n)) : matrixCol cta t < 2 ^ 31 := by
  have h := (mem_blockOrder.1 hc).1
  have hg : (matrixGrid m n).x.toNat = tiles n := Nat.mod_eq_of_lt (by simp only [tiles]; omega)
  rw [hg, tiles] at h
  rw [matrixCol]
  omega

theorem matrixGrid_count (h : MatmulBuffers a b c m n k g) : (matrixGrid m n).count ≠ 0 := by
  have hrows := h.rows
  have hcols := h.columns
  have hle : tiles n * tiles m ≤ n * m := Nat.mul_le_mul (by simp only [tiles]; omega)
    (by simp only [tiles]; omega)
  have hpos : 0 < tiles n * tiles m := Nat.mul_pos (by simp only [tiles]; omega)
    (by simp only [tiles]; omega)
  have hsize := h.size
  have hroom := h.result.2
  rw [Nat.mul_comm n m] at hle
  rw [Dim2.count, matrixGrid, ← BitVec.ofNat_mul]
  intro hz
  have hmod := congrArg BitVec.toNat hz
  rw [BitVec.toNat_ofNat, Nat.mod_eq_of_lt (by omega)] at hmod
  exact absurd hmod hpos.ne'

/-- The matrix at `c` holds the given elements, and no other byte has changed. -/
structure MatrixResult (value : Nat → Nat → Word) (c m n : Nat) (g g' : ByteMemory) : Prop where
  same : ByteMemory.SameBut c (m * n) g g'
  elements : ∀ i < m, ∀ j < n, g'.word (c + 4 * (i * n + j)) = value i j

/-- A result is all of the memory: there is one for given elements. -/
theorem MatrixResult.unique {value : Nat → Nat → Word} {g' g'' : ByteMemory}
    (hc : g.HasBuffer c (m * n)) (h : MatrixResult value c m n g g')
    (h' : MatrixResult value c m n g g'') : g' = g'' := by
  have hbytes : g'.bytes = g''.bytes := by
    refine List.ext_getElem? fun p => ?_
    by_cases hp : c ≤ p ∧ p < c + 4 * (m * n)
    · have hn : 0 < n := by
        rcases Nat.eq_zero_or_pos n with rfl | h
        · omega
        · exact h
      have hq : (p - c) / 4 < m * n := by omega
      have hword : ∀ {x : ByteMemory}, MatrixResult value c m n g x → x.byte p
          = (value ((p - c) / 4 / n) ((p - c) / 4 % n)).extractLsb' (8 * ((p - c) % 4)) 8 := by
        intro x hx
        have helement :=
          hx.elements ((p - c) / 4 / n) (Nat.div_lt_of_lt_mul (Nat.mul_comm m n ▸ hq))
          ((p - c) / 4 % n) (Nat.mod_lt _ hn)
        rw [Nat.div_add_mod'] at helement
        rw [← helement, ByteMemory.byte_word x _ (Nat.mod_lt _ (by decide))]
        congr 1
        omega
      have hget : ∀ {x : ByteMemory}, MatrixResult value c m n g x →
          x.bytes[p]? = some (x.byte p) := by
        intro x hx
        have hlt : p < x.bytes.length := by
          have := hc.2
          have hsize := hx.same.size
          simp only [ByteMemory.size] at this hsize
          omega
        rw [ByteMemory.byte, List.getD_eq_getElem?_getD, List.getElem?_eq_getElem hlt]
        rfl
      rw [hget h, hget h', hword h, hword h']
    · rw [h.same.bytes p hp, h'.same.bytes p hp]
  exact congrArg ByteMemory.mk hbytes

end Product

end WarpSim
