import WarpSim.Proofs.Kernels
import WarpSim.Proofs.Matrices

/-!
# The tiled matrix product

A step of the outer loop is two intervals: in the first each thread stages an element of either
matrix in shared memory, zero where it is past the edge, and in the second it walks along a row of
one tile and down a column of the other. Past the last step the threads inside of the matrix store
what they have.
-/

namespace WarpSim

def matmulTiled : List Instruction :=
  [rrr .movSreg 0 0 0, rrr .movSreg 1 1 0, rrr .movSreg 2 4 0, rrr .movSreg 3 5 0, rri .shl 2 2 4,
    rrr .add 2 2 0, rri .shl 3 3 4, rrr .add 3 3 1, rri .ldParam 4 0 3, rri .ldParam 5 0 4,
    rri .ldParam 6 0 5, rri .ldParam 7 0 0, rri .ldParam 8 0 1, rri .shl 9 1 4, rrr .add 9 9 0,
    rri .shl 9 9 2, rri .add 10 9 1024, rri .shl 11 1 6, rri .shl 12 0 2, rri .add 12 12 1024,
    rri .mov 13 0 0, rri .mov 14 0 0, rrr .setpLtS32 4 3 4, rrr .setpLtS32 5 2 5,
    rrr .setpGeS32 0 14 6, braIf 0 63 63, rri .mov 15 0 0, rrr .add 16 14 0, rrr .setpLtS32 1 16 6,
    braUnless 4 36 36, braUnless 1 36 36, rrr .mul 17 3 6, rrr .add 17 17 16, rri .shl 17 17 2,
    rrr .add 17 17 7, rri .ldGlobal 15 17 0, stShared 9 15, rri .mov 18 0 0, rrr .add 19 14 1,
    rrr .setpLtS32 2 19 6, braUnless 5 47 47, braUnless 2 47 47, rrr .mul 20 19 5, rrr .add 20 20 2,
    rri .shl 20 20 2, rrr .add 20 20 8, rri .ldGlobal 18 20 0, stShared 10 18, barSync,
    rri .mov 21 0 0, rrr .mov 22 11 0, rrr .mov 23 12 0, rri .ldShared 24 22 0,
    rri .ldShared 25 23 0, rrr .fFma 13 24 25, rri .add 22 22 4, rri .add 23 23 64,
    rri .add 21 21 1, rri .setpLtS32 3 21 16,
    braIf 3 52 60, barSync, rri .add 14 14 16, bra 24, exitUnless 4, exitUnless 5, rrr .mul 26 3 5,
    rrr .add 26 26 2, rri .shl 26 26 2, rri .ldParam 27 0 2, rrr .add 26 26 27, stGlobal 26 13, {}]

set_option maxRecDepth 100000 in
theorem assembly_matmulTiled : assembly Kernels.matmulTiled
    = some ([['0', '.', '0'], ['0', '.', '0'], ['0', '.', '0']], matmulTiled, 2048) := by
  refine text_of (P := fun t => assembly t
    = some ([['0', '.', '0'], ['0', '.', '0'], ['0', '.', '0']], matmulTiled, 2048)) rfl ?_
  decide +kernel

theorem escapes_matmulTiled : Escapes matmulTiled :=
  escapes_of_rank (fun pc => if 26 ≤ pc ∧ pc ≤ 62 then 200 - pc else 100 - pc) (by decide)

theorem annotated_matmulTiled : Warp.Annotated matmulTiled :=
  annotated_of_assembly assembly_matmulTiled (by decide) escapes_matmulTiled

/-- Lanes that load no element of the left matrix meet the others where its tile is staged. -/
theorem meets_left {pc : Nat} (h : pc = 29 ∨ pc = 30) {pred : BitVec 8} :
    MeetsBefore matmulTiled (BitVec.ofNat 16 pc) (braUnless pred 36 36) := by
  rcases h with rfl | rfl <;>
    exact meetsBefore_of_closed [29, 30, 31, 32, 33, 34, 35] (by decide +revert) (by decide)
      (by decide +revert) (by decide)

theorem meets_right {pc : Nat} (h : pc = 40 ∨ pc = 41) {pred : BitVec 8} :
    MeetsBefore matmulTiled (BitVec.ofNat 16 pc) (braUnless pred 47 47) := by
  rcases h with rfl | rfl <;>
    exact meetsBefore_of_closed [40, 41, 42, 43, 44, 45, 46] (by decide +revert) (by decide)
      (by decide +revert) (by decide)

/-- Lanes leave the inner loop together. -/
theorem meets_inner : MeetsBefore matmulTiled 59 (braIf 3 52 60) :=
  meetsBefore_of_closed [52, 53, 54, 55, 56, 57, 58, 59] (by decide) (by decide) (by decide)
    (by decide)

/-- The matrices of a launch and a block of its grid. -/
structure Tiling where
  a : Nat
  b : Nat
  out : Nat
  m : Nat
  n : Nat
  k : Nat
  g : ByteMemory
  cta : Dim2

namespace Tiling

section Outline

variable (P : Tiling) (F : FloatOps)

/-- An element of the left matrix, zero past the edge. -/
def left (i l : Nat) : Word :=
  if i < P.m ∧ l < P.k then P.g.word (P.a + 4 * (i * P.k + l)) else 0

def right (l j : Nat) : Word :=
  if l < P.k ∧ j < P.n then P.g.word (P.b + 4 * (l * P.n + j)) else 0

/-- What the thread of an element has after so many of its products. -/
def acc (i j l : Nat) : Word := matmulFold F (P.left i) (fun l => P.right l j) l

/-- The words of both tiles in a step of the outer loop, those of the left one first. -/
def tile (r q : Nat) : Word :=
  if q < 256 then P.left (matrixRow P.cta q) (16 * r + q % 16)
  else P.right (16 * r + (q - 256) / 16) (matrixCol P.cta q)

/-- The words that a thread may load in an interval. -/
def loads (c t : Nat) : Space → Word → Prop
  | .global, w => ∃ r < tiles P.k, c = 2 * r
      ∧ ((matrixRow P.cta t < P.m ∧ 16 * r + t % 16 < P.k
          ∧ w = element P.a (matrixRow P.cta t * P.k + (16 * r + t % 16)))
        ∨ (16 * r + t / 16 < P.k ∧ matrixCol P.cta t < P.n
          ∧ w = element P.b ((16 * r + t / 16) * P.n + matrixCol P.cta t)))
  | .shared, w => c % 2 = 1 ∧ ∃ l < 16,
      w = element 0 (16 * (t / 16) + l) ∨ w = element 0 (256 + t % 16 + 16 * l)
  | .param, _ => False

def stores (c t : Nat) : Space → Word → Prop
  | .global, w => c = 2 * tiles P.k ∧ matrixRow P.cta t < P.m ∧ matrixCol P.cta t < P.n
      ∧ w = element P.out (matrixRow P.cta t * P.n + matrixCol P.cta t)
  | .shared, w => c % 2 = 0 ∧ c < 2 * tiles P.k ∧ (w = element 0 t ∨ w = element 0 (256 + t))
  | .param, _ => False

/-- What a thread keeps in its registers from the first step to the last. -/
structure Held (t : Nat) (s : LaneState) : Prop where
  tidX : s.general 0 = BitVec.ofNat 32 (t % 16)
  tidY : s.general 1 = BitVec.ofNat 32 (t / 16)
  column : s.general 2 = BitVec.ofNat 32 (matrixCol P.cta t)
  row : s.general 3 = BitVec.ofNat 32 (matrixRow P.cta t)
  columns : s.general 5 = BitVec.ofNat 32 P.n
  inner : s.general 6 = BitVec.ofNat 32 P.k
  left : s.general 7 = BitVec.ofNat 32 P.a
  right : s.general 8 = BitVec.ofNat 32 P.b
  leftStage : s.general 9 = element 0 t
  rightStage : s.general 10 = element 0 (256 + t)
  leftRow : s.general 11 = element 0 (16 * (t / 16))
  rightColumn : s.general 12 = element 0 (256 + t % 16)
  inRow : s.predicates 4 = decide (matrixRow P.cta t < P.m)
  inColumn : s.predicates 5 = decide (matrixCol P.cta t < P.n)

/-- A thread at a pc in the step `r`, with the products of the steps before it and `l` more. -/
structure At (pc : Pc) (μ : BlockMemory) (t r l : Nat) (y : LaneState × BlockMemory) : Prop where
  memory : y.2 = μ
  pc : y.1.pc = some pc
  held : P.Held t y.1
  acc : y.1.general 13 = P.acc F (matrixRow P.cta t) (matrixCol P.cta t) (16 * r + l)
  step : y.1.general 14 = BitVec.ofNat 32 (16 * r)

/-- A thread at the top of the inner loop, with so many rounds left. -/
def Inner (μ : BlockMemory) (t r rounds : Nat) (y : LaneState × BlockMemory) : Prop :=
  ∃ l < 16, l + rounds = 16 ∧ P.At F 52 μ t r l y ∧ y.1.general 21 = BitVec.ofNat 32 l
    ∧ y.1.general 22 = element 0 (16 * (t / 16) + l)
    ∧ y.1.general 23 = element 0 (256 + t % 16 + 16 * l)

/-- A thread at the beginning of an interval after the first. -/
structure Entry (c t : Nat) (s : LaneState) : Prop where
  pc : s.pc = some (if c % 2 = 1 then 49 else 61)
  held : P.Held t s
  acc : s.general 13 = P.acc F (matrixRow P.cta t) (matrixCol P.cta t) (16 * (c / 2))
  step : s.general 14 = BitVec.ofNat 32 (16 * ((c - 1) / 2))

/-- The block's memory at the beginning of an interval: before an inner loop both tiles are
staged. -/
structure Memory (start : BlockMemory) (c : Nat) (μ : BlockMemory) : Prop where
  room : start.SameRoom μ
  global : μ.global = start.global
  staged : c % 2 = 1 → ∀ q < 512, μ.wordAt .shared (element 0 q) = P.tile (c / 2) q

def outline (start : BlockMemory) : Outline where
  barriers := 2 * tiles P.k
  footprint := fun c t => ⟨P.loads c t, P.stores c t⟩
  value := fun c space w =>
    if space = .shared then P.tile (c / 2) (w.toNat / 4)
    else P.acc F ((w.toNat - P.out) / 4 / P.n) ((w.toNat - P.out) / 4 % P.n) (16 * tiles P.k)
  entry := fun c t s => if c = 0 then s = .fresh else P.Entry F c t s
  memory := P.Memory start
  outcome := fun c _ => decide (c = 2 * tiles P.k)

/-- What a block of the launch begins with. -/
structure Begins (base : LaneContext) (start : BlockMemory) : Prop where
  width : base.ntid.x = BitVec.ofNat 32 16
  block : base.ctaid = P.cta
  params : start.params = matmulParams P.a P.b P.out P.m P.n P.k
  shared : start.shared.size = 2048
  size : start.global.size = P.g.size
  buffers : MatmulBuffers P.a P.b P.out P.m P.n P.k P.g
  left : ∀ q < P.m * P.k, start.global.word (P.a + 4 * q) = P.g.word (P.a + 4 * q)
  right : ∀ q < P.k * P.n, start.global.word (P.b + 4 * q) = P.g.word (P.b + 4 * q)
  row : ∀ t < 256, matrixRow P.cta t < 2 ^ 31
  column : ∀ t, matrixCol P.cta t < 2 ^ 31

end Outline

section Threads

variable {P : Tiling} {F : FloatOps} {base : LaneContext} {start μ : BlockMemory} {c t r q : Nat}
  {s : LaneState}

theorem Begins.not_faults (hb : P.Begins base start) (hroom : start.SameRoom μ) (hq : q < 512) :
    ¬μ.Faults .shared (element 0 q) := by
  have hlen : (μ.bytesOf .shared).length = 2048 := (hroom.bytes .shared).trans hb.shared
  rintro (hmod | hroom)
  · rw [toNat_element_zero (by omega)] at hmod
    omega
  · rw [toNat_element_zero (by omega), hlen] at hroom
    omega

theorem Begins.not_faults_global (hb : P.Begins base start) (hroom : start.SameRoom μ) {x n : Nat}
    (hx : P.g.HasBuffer x n) (hq : q < n) : ¬μ.Faults .global (element x q) :=
  not_faults_element hb.buffers.size ((hroom.bytes .global).trans hb.size) hx hq

theorem lt_tiles : 16 * r < P.k ↔ r < tiles P.k := by
  rw [tiles]
  omega

theorem acc_succ {i j l : Nat} :
    P.acc F i j (l + 1) = F.fma (P.left i l) (P.right l j) (P.acc F i j l) :=
  matmulFold_succ F _ _ l

theorem tile_left (ht : t < 256) :
    P.tile r t = P.left (matrixRow P.cta t) (16 * r + t % 16) := if_pos ht

theorem tile_right (ht : t < 256) :
    P.tile r (256 + t) = P.right (16 * r + t / 16) (matrixCol P.cta t) := by
  rw [tile, if_neg (by omega), Nat.add_sub_cancel_left, matrixCol, matrixCol,
    show (256 + t) % 16 = t % 16 by omega]

theorem entry_succ : (P.outline F start).entry (c + 1) t s = P.Entry F (c + 1) t s := by
  show (if c + 1 = 0 then s = .fresh else P.Entry F (c + 1) t s) = _
  rw [if_neg (Nat.succ_ne_zero c)]

theorem value_staged (hq : q < 512) :
    (P.outline F start).value c .shared (element 0 q) = P.tile (c / 2) q := by
  have hindex : (element 0 q).toNat / 4 = q := by
    rw [toNat_element_zero (by omega), Nat.mul_div_cancel_left q (by decide)]
  exact congrArg (P.tile (c / 2)) hindex

theorem element_zero_aligned : (element 0 q).toNat % 4 = 0 := by
  rw [element, BitVec.toNat_ofNat]
  omega

end Threads

section Staging

variable {P : Tiling} {F : FloatOps} {base : LaneContext} {start μ : BlockMemory} {c t r : Nat}
  {y : LaneState × BlockMemory}

/-- A thread stages its element of the left tile. -/
theorem At.stage_left (hb : P.Begins base start) (hroom : start.SameRoom μ)
    (hglobal : μ.global = start.global) (hr : r < tiles P.k) (ht : t < 256)
    (h : P.At F 26 μ t r 0 y) :
    LeadsTo ((P.outline F start).Alone F matmulTiled base (2 * r) t)
      (P.At F 37 (μ.write ⟨.shared, element 0 t, P.tile r t⟩) t r 0) y := by
  obtain ⟨s, μ⟩ := y
  obtain ⟨rfl, hpc, hheld, hacc, hstep⟩ := h
  simp only [] at hpc hheld hacc hstep
  obtain ⟨hm, hn, hk⟩ := hb.buffers.bounds
  have hinner : s.general 14 + s.general 0 = BitVec.ofNat 32 (16 * r + t % 16) := by
    rw [hstep, hheld.tidX, BitVec.ofNat_add]
  have hstage : s.general 9 + 0 = element 0 t := (BitVec.add_zero _).trans hheld.leftStage
  have hstore : ∀ s' : LaneState, s'.pc = some 36 → P.Held t s' →
      s'.general 13 = s.general 13 → s'.general 14 = s.general 14 →
        s'.general 15 = P.tile r t →
          LeadsTo ((P.outline F start).Alone F matmulTiled base (2 * r) t)
          (P.At F 37 (μ.write ⟨.shared, element 0 t, P.tile r t⟩) t r 0) (s', μ) := by
    intro s' hpc' hheld' h13 h14 h15
    have hstage : s'.general 9 + 0 = element 0 t := (BitVec.add_zero _).trans hheld'.leftStage
    refine LaneState.leadsTo_store (i := stShared 9 15) hpc' rfl rfl (.inr rfl)
      (hstage ▸ ⟨Nat.mul_mod_right 2 r, by omega, .inl rfl⟩)
      (hstage ▸ hb.not_faults hroom (by omega)) (.now ⟨?_, rfl, { hheld' with }, h13.trans hacc,
        h14.trans hstep⟩)
    show μ.write ⟨.shared, s'.general 9 + 0, s'.general 15⟩ = _
    rw [hstage, h15]
  have hlt := lt_tiles.2 hr
  have hp : ((s.general 14 + s.general 0).toInt < (s.general 6).toInt) ↔ 16 * r + t % 16 < P.k := by
    rw [hinner, hheld.inner, toInt_ofNat (by omega), toInt_ofNat (by omega)]
    exact Int.ofNat_lt
  have htile := tile_left (P := P) (r := r) ht
  refine LaneState.leadsTo_line 26 3 0 hpc rfl (by decide) rfl (Nat.zero_le _) ?_
  refine LaneState.leadsTo_braUnless (p := matrixRow P.cta t < P.m) rfl rfl hheld.inRow
    (.inl (meets_left (.inl rfl))) (fun hout => ?_) fun hin => ?_
  · refine hstore _ rfl { hheld with } rfl rfl ?_
    rw [htile, Tiling.left, if_neg (fun h => hout h.1)]
    rfl
  refine LaneState.leadsTo_braUnless (p := 16 * r + t % 16 < P.k) rfl rfl (decide_eq_decide.2 hp)
    (.inl (meets_left (.inr rfl))) (fun hout => ?_) fun hin' => ?_
  · refine hstore _ rfl { hheld with } rfl rfl ?_
    rw [htile, Tiling.left, if_neg (fun h => hout h.2)]
    rfl
  have hq := matrix_index_lt hin hin'
  have haddr : (s.general 3 * s.general 6 + (s.general 14 + s.general 0))
      <<< ((2 : Word) &&& shiftMask).toNat + s.general 7 + 0
        = element P.a (matrixRow P.cta t * P.k + (16 * r + t % 16)) := by
    rw [hheld.row, hheld.inner, hinner, hheld.left, ← BitVec.ofNat_mul, ← BitVec.ofNat_add,
      ofNat_shl_two, BitVec.add_comm _ (BitVec.ofNat 32 P.a)]
    exact (BitVec.add_zero _).trans (ofNat_add_element P.a _)
  refine LaneState.leadsTo_line 31 4 0 rfl rfl (by decide) rfl (Nat.zero_le _) ?_
  refine LaneState.leadsTo_load (i := rri .ldGlobal 15 17 0) rfl rfl rfl (.inl rfl)
    (.inl (haddr ▸ ⟨r, hr, rfl, .inl ⟨hin, hin', rfl⟩⟩))
    (haddr ▸ hb.not_faults_global hroom hb.buffers.left hq) (v := P.tile r t) ?_ ?_
  · refine (congrArg (μ.wordAt .global) haddr).trans ?_
    rw [htile, Tiling.left, if_pos ⟨hin, hin'⟩, ← hb.left _ hq,
      ← toNat_element hb.buffers.size hb.buffers.left hq, ← hglobal]
    rfl
  · exact hstore _ rfl { hheld with } rfl rfl rfl

/-- A thread stages its element of the right tile. -/
theorem At.stage_right (hb : P.Begins base start) (hroom : start.SameRoom μ)
    (hglobal : μ.global = start.global) (hr : r < tiles P.k) (ht : t < 256)
    (h : P.At F 37 μ t r 0 y) :
    LeadsTo ((P.outline F start).Alone F matmulTiled base (2 * r) t)
      (P.At F 48 (μ.write ⟨.shared, element 0 (256 + t), P.tile r (256 + t)⟩) t r 0) y := by
  obtain ⟨s, μ⟩ := y
  obtain ⟨rfl, hpc, hheld, hacc, hstep⟩ := h
  simp only [] at hpc hheld hacc hstep
  obtain ⟨hm, hn, hk⟩ := hb.buffers.bounds
  have hinner : s.general 14 + s.general 1 = BitVec.ofNat 32 (16 * r + t / 16) := by
    rw [hstep, hheld.tidY, BitVec.ofNat_add]
  have hstore : ∀ s' : LaneState, s'.pc = some 47 → P.Held t s' →
      s'.general 13 = s.general 13 → s'.general 14 = s.general 14 →
        s'.general 18 = P.tile r (256 + t) →
          LeadsTo ((P.outline F start).Alone F matmulTiled base (2 * r) t)
            (P.At F 48 (μ.write ⟨.shared, element 0 (256 + t), P.tile r (256 + t)⟩) t r 0)
              (s', μ) := by
    intro s' hpc' hheld' h13 h14 h18
    have hstage : s'.general 10 + 0 = element 0 (256 + t) :=
      (BitVec.add_zero _).trans hheld'.rightStage
    refine LaneState.leadsTo_store (i := stShared 10 18) hpc' rfl rfl (.inr rfl)
      (hstage ▸ ⟨Nat.mul_mod_right 2 r, by omega, .inr rfl⟩)
      (hstage ▸ hb.not_faults hroom (by omega)) (.now ⟨?_, rfl, { hheld' with }, h13.trans hacc,
        h14.trans hstep⟩)
    show μ.write ⟨.shared, s'.general 10 + 0, s'.general 18⟩ = _
    rw [hstage, h18]
  have hlt := lt_tiles.2 hr
  have hp : ((s.general 14 + s.general 1).toInt < (s.general 6).toInt) ↔ 16 * r + t / 16 < P.k := by
    rw [hinner, hheld.inner, toInt_ofNat (by omega), toInt_ofNat (by omega)]
    exact Int.ofNat_lt
  have htile := tile_right (P := P) (r := r) ht
  refine LaneState.leadsTo_line 37 3 0 hpc rfl (by decide) rfl (Nat.zero_le _) ?_
  refine LaneState.leadsTo_braUnless (p := matrixCol P.cta t < P.n) rfl rfl hheld.inColumn
    (.inl (meets_right (.inl rfl))) (fun hout => ?_) fun hin => ?_
  · refine hstore _ rfl { hheld with } rfl rfl ?_
    rw [htile, Tiling.right, if_neg (fun h => hout h.2)]
    rfl
  refine LaneState.leadsTo_braUnless (p := 16 * r + t / 16 < P.k) rfl rfl (decide_eq_decide.2 hp)
    (.inl (meets_right (.inr rfl))) (fun hout => ?_) fun hin' => ?_
  · refine hstore _ rfl { hheld with } rfl rfl ?_
    rw [htile, Tiling.right, if_neg (fun h => hout h.1)]
    rfl
  have hq := matrix_index_lt hin' hin
  have haddr : ((s.general 14 + s.general 1) * s.general 5 + s.general 2)
      <<< ((2 : Word) &&& shiftMask).toNat + s.general 8 + 0
        = element P.b ((16 * r + t / 16) * P.n + matrixCol P.cta t) := by
    rw [hinner, hheld.columns, hheld.column, hheld.right, ← BitVec.ofNat_mul, ← BitVec.ofNat_add,
      ofNat_shl_two, BitVec.add_comm _ (BitVec.ofNat 32 P.b)]
    exact (BitVec.add_zero _).trans (ofNat_add_element P.b _)
  refine LaneState.leadsTo_line 42 4 0 rfl rfl (by decide) rfl (Nat.zero_le _) ?_
  refine LaneState.leadsTo_load (i := rri .ldGlobal 18 20 0) rfl rfl rfl (.inl rfl)
    (.inl (haddr ▸ ⟨r, hr, rfl, .inr ⟨hin', hin, rfl⟩⟩))
    (haddr ▸ hb.not_faults_global hroom hb.buffers.right hq) (v := P.tile r (256 + t)) ?_ ?_
  · refine (congrArg (μ.wordAt .global) haddr).trans ?_
    rw [htile, Tiling.right, if_pos ⟨hin', hin⟩, ← hb.right _ hq,
      ← toNat_element hb.buffers.size hb.buffers.right hq, ← hglobal]
    rfl
  · exact hstore _ rfl { hheld with } rfl rfl rfl

/-- A thread comes to the first barrier of a step with both of its elements staged. -/
theorem At.stage (hb : P.Begins base start) (hm : P.Memory start (2 * r) μ) (hr : r < tiles P.k)
    (ht : t < 256) (h : P.At F 26 μ t r 0 y) :
    LeadsTo ((P.outline F start).Alone F matmulTiled base (2 * r) t)
      ((P.outline F start).Ends matmulTiled (2 * r) t) y := by
  refine (h.stage_left hb hm.room hm.global hr ht).trans fun y h => ?_
  have hglobal : (μ.write ⟨.shared, element 0 t, P.tile r t⟩).global = start.global := hm.global
  refine (h.stage_right hb (hm.room.trans (BlockMemory.sameRoom_write _)) hglobal hr ht).mono ?_
  rintro ⟨s, _⟩ ⟨rfl, hpc, hheld, hacc, hstep⟩
  refine ⟨?_, (if_pos (show 2 * r < 2 * tiles P.k by omega)).mpr ⟨48, barSync, hpc, rfl, rfl, ?_⟩⟩
  · rintro (_ | _ | _) w hst
    · obtain ⟨heq, -⟩ : 2 * r = 2 * tiles P.k ∧ _ := hst
      omega
    · obtain ⟨-, -, hw⟩ : _ ∧ _ ∧ (w = element 0 t ∨ w = element 0 (256 + t)) := hst
      have hvalue : ∀ q < 512,
          P.tile r q = (P.outline F start).value (2 * r) .shared (element 0 q) :=
        fun q hq => by rw [value_staged hq, Nat.mul_div_cancel_left r (by decide)]
      have hright := BlockMemory.wordAt_write_self (m := μ.write ⟨.shared, element 0 t, P.tile r t⟩)
        (P.tile r (256 + t)) (fun h : Space.shared = .param => nomatch h)
        (hb.not_faults (q := 256 + t) (hm.room.trans (BlockMemory.sameRoom_write _)) (by omega))
      have hleft := BlockMemory.wordAt_write_self (m := μ) (P.tile r t)
        (fun h : Space.shared = .param => nomatch h) (hb.not_faults (q := t) hm.room (by omega))
      have hother : ((μ.write ⟨.shared, element 0 t, P.tile r t⟩).write
          ⟨.shared, element 0 (256 + t), P.tile r (256 + t)⟩).wordAt .shared (element 0 t)
          = (μ.write ⟨.shared, element 0 t, P.tile r t⟩).wordAt .shared (element 0 t) :=
        BlockMemory.wordAt_write_other element_zero_aligned element_zero_aligned (fun ⟨_, heq⟩ => by
          have := element_zero_inj (by omega) (by omega) heq
          omega)
      rcases hw with rfl | rfl
      · exact (hother.trans hleft).trans (hvalue t (by omega))
      · exact hright.trans (hvalue (256 + t) (by omega))
    · exact hst.elim
  · have hentry : P.Entry F (2 * r + 1) t (s.moveTo 49) := by
      refine ⟨by rw [if_pos (by omega)]; rfl, { hheld with }, ?_, ?_⟩
      · rw [show (2 * r + 1) / 2 = r by omega]
        exact hacc
      · rw [show (2 * r + 1 - 1) / 2 = r by omega]
        exact hstep
    exact entry_succ.mpr hentry

end Staging

section Inner

variable {P : Tiling} {F : FloatOps} {base : LaneContext} {start μ : BlockMemory} {t r : Nat}
  {y : LaneState × BlockMemory}

theorem tile_row {l : Nat} (ht : t < 256) (hl : l < 16) :
    P.tile r (16 * (t / 16) + l) = P.left (matrixRow P.cta t) (16 * r + l) := by
  rw [tile, if_pos (by omega), matrixRow, matrixRow,
    show (16 * (t / 16) + l) / 16 = t / 16 by omega, show (16 * (t / 16) + l) % 16 = l by omega]

theorem tile_column {l : Nat} :
    P.tile r (256 + t % 16 + 16 * l) = P.right (16 * r + l) (matrixCol P.cta t) := by
  rw [tile, if_neg (by omega), matrixCol, matrixCol,
    show (256 + t % 16 + 16 * l - 256) / 16 = l by omega,
    show (256 + t % 16 + 16 * l) % 16 = t % 16 by omega]

/-- A round of the inner loop adds a product. -/
theorem Inner.round (hb : P.Begins base start) (hm : P.Memory start (2 * r + 1) μ) (ht : t < 256)
    {rounds : Nat} (h : P.Inner F μ t r (rounds + 1) y) :
    LeadsTo ((P.outline F start).Alone F matmulTiled base (2 * r + 1) t)
      (fun z => P.At F 60 μ t r 16 z ∨ P.Inner F μ t r rounds z) y := by
  obtain ⟨s, μ⟩ := y
  obtain ⟨l, hl, hrounds, ⟨rfl, hpc, hheld, hacc, hstep⟩, h21, h22, h23⟩ := h
  simp only [] at hpc hheld hacc hstep h21 h22 h23
  have hr : (2 * r + 1) / 2 = r := by omega
  have hodd : (2 * r + 1) % 2 = 1 := by omega
  have hstaged := hm.staged hodd
  rw [hr] at hstaged
  have hleft : s.general 22 + 0 = element 0 (16 * (t / 16) + l) := (BitVec.add_zero _).trans h22
  have hright : s.general 23 + 0 = element 0 (256 + t % 16 + 16 * l) :=
    (BitVec.add_zero _).trans h23
  have hp : ((s.general 21 + 1).toInt < ((16 : Word)).toInt) ↔ l + 1 < 16 := by
    rw [h21, show (1 : Word) = BitVec.ofNat 32 1 from rfl, ← BitVec.ofNat_add,
      toInt_ofNat (by omega)]
    exact Int.ofNat_lt
  refine LaneState.leadsTo_load (i := rri .ldShared 24 22 0) hpc rfl rfl (.inr rfl)
    (.inl (hleft ▸ ⟨hodd, l, hl, .inl rfl⟩)) (hleft ▸ hb.not_faults hm.room (by omega))
    ((congrArg (μ.wordAt .shared) hleft).trans ((hstaged _ (by omega)).trans (tile_row ht hl))) ?_
  refine LaneState.leadsTo_load (i := rri .ldShared 25 23 0) rfl rfl rfl (.inr rfl)
    (.inl (hright ▸ ⟨hodd, l, hl, .inr rfl⟩)) (hright ▸ hb.not_faults hm.room (by omega))
    ((congrArg (μ.wordAt .shared) hright).trans ((hstaged _ (by omega)).trans tile_column)) ?_
  refine LaneState.leadsTo_line 54 5 0 rfl rfl (by decide) rfl (Nat.zero_le _) ?_
  have hfma : F.fma (P.left (matrixRow P.cta t) (16 * r + l))
      (P.right (16 * r + l) (matrixCol P.cta t)) (s.general 13)
        = P.acc F (matrixRow P.cta t) (matrixCol P.cta t) (16 * r + (l + 1)) := by
    rw [hacc, ← Nat.add_assoc, acc_succ]
  refine LaneState.leadsTo_braIf (p := l + 1 < 16) rfl rfl (decide_eq_decide.2 hp)
    (.inl meets_inner) (fun hmore => ?_) fun hlast => ?_
  · refine .now (.inr ⟨l + 1, hmore, by omega, ⟨rfl, rfl, { hheld with }, hfma, hstep⟩, ?_, ?_, ?_⟩)
    · have heq : s.general 21 + 1 = BitVec.ofNat 32 (l + 1) := by
        rw [h21, BitVec.ofNat_add]
        rfl
      exact heq
    · have heq : s.general 22 + 4 = element 0 (16 * (t / 16) + (l + 1)) := by
        rw [h22]
        exact element_add 0 _ 1
      exact heq
    · have heq : s.general 23 + 64 = element 0 (256 + t % 16 + 16 * (l + 1)) := by
        rw [h23]
        exact element_add 0 _ 16
      exact heq
  · obtain rfl : l = 15 := by omega
    exact .now (.inl ⟨rfl, rfl, { hheld with }, hfma, hstep⟩)

/-- The interval of an inner loop. -/
theorem Entry.inner (hb : P.Begins base start) (hm : P.Memory start (2 * r + 1) μ)
    (hr : r < tiles P.k) (ht : t < 256) {s : LaneState} (h : P.Entry F (2 * r + 1) t s) :
    LeadsTo ((P.outline F start).Alone F matmulTiled base (2 * r + 1) t)
      ((P.outline F start).Ends matmulTiled (2 * r + 1) t) (s, μ) := by
  obtain ⟨hpc, hheld, hacc, hstep⟩ := h
  rw [if_pos (by omega)] at hpc
  rw [show (2 * r + 1) / 2 = r by omega] at hacc
  rw [show (2 * r + 1 - 1) / 2 = r by omega] at hstep
  refine LaneState.leadsTo_line 49 3 0 hpc rfl (by decide) rfl (Nat.zero_le _) ?_
  refine LeadsTo.trans (LeadsTo.countdown (Q := P.At F 60 μ t r 16) (I := P.Inner F μ t r)
    (fun y ⟨l, hl, hrounds, _⟩ => absurd hrounds hl.ne) (fun _ _ => Inner.round hb hm ht) 16 ?_) ?_
  · exact ⟨0, by decide, rfl, ⟨rfl, rfl, { hheld with }, hacc, hstep⟩, rfl, hheld.leftRow,
      hheld.rightColumn⟩
  · rintro ⟨s, _⟩ ⟨rfl, hpc, hheld, hacc, hstep⟩
    refine .now ⟨?_, (if_pos (show 2 * r + 1 < 2 * tiles P.k by omega)).mpr
      ⟨60, barSync, hpc, rfl, rfl, ?_⟩⟩
    · rintro (_ | _ | _) w hst
      · obtain ⟨heq, -⟩ : 2 * r + 1 = 2 * tiles P.k ∧ _ := hst
        omega
      · obtain ⟨heven, -⟩ : (2 * r + 1) % 2 = 0 ∧ _ := hst
        omega
      · exact hst.elim
    · have hentry : P.Entry F (2 * r + 2) t (s.moveTo 61) := by
        refine ⟨by rw [if_neg (by omega)]; rfl, { hheld with }, ?_, ?_⟩
        · rw [show (2 * r + 2) / 2 = r + 1 by omega, Nat.mul_succ]
          exact hacc
        · rw [show (2 * r + 2 - 1) / 2 = r by omega]
          exact hstep
      exact entry_succ.mpr hentry

end Inner

section Run

variable {P : Tiling} {F : FloatOps} {base : LaneContext} {start μ : BlockMemory} {c t r : Nat}
  {s : LaneState} {y : LaneState × BlockMemory}

theorem value_result (hb : P.Begins base start) {i j : Nat} (hi : i < P.m) (hj : j < P.n) :
    (P.outline F start).value c .global (element P.out (i * P.n + j))
      = P.acc F i j (16 * tiles P.k) := by
  obtain ⟨hdiv, hmod⟩ := matrix_index (i := i) hj
  have hindex : ((element P.out (i * P.n + j)).toNat - P.out) / 4 = i * P.n + j := by
    rw [toNat_element hb.buffers.size hb.buffers.result (matrix_index_lt hi hj),
      Nat.add_sub_cancel_left, Nat.mul_div_cancel_left _ (by decide)]
  show P.acc F (((element P.out (i * P.n + j)).toNat - P.out) / 4 / P.n)
    (((element P.out (i * P.n + j)).toNat - P.out) / 4 % P.n) (16 * tiles P.k) = _
  rw [hindex, hdiv, hmod]

/-- A thread inside of the matrix stores its element and retires. -/
theorem At.finish (hb : P.Begins base start) (hm : P.Memory start (2 * tiles P.k) μ)
    (h : P.At F 63 μ t (tiles P.k) 0 y) :
    LeadsTo ((P.outline F start).Alone F matmulTiled base (2 * tiles P.k) t)
      ((P.outline F start).Ends matmulTiled (2 * tiles P.k) t) y := by
  obtain ⟨s, μ⟩ := y
  obtain ⟨rfl, hpc, hheld, hacc, -⟩ := h
  simp only [] at hpc hheld hacc
  have hends : ∀ y : LaneState × BlockMemory, y.1.pc = none →
      (matrixRow P.cta t < P.m → matrixCol P.cta t < P.n →
        y.2.wordAt .global (element P.out (matrixRow P.cta t * P.n + matrixCol P.cta t))
          = P.acc F (matrixRow P.cta t) (matrixCol P.cta t) (16 * tiles P.k)) →
        (P.outline F start).Ends matmulTiled (2 * tiles P.k) t y := by
    intro y hpc hy
    have hended : y.1.ended matmulTiled = true := LaneState.ended_of_retired hpc
    refine ⟨?_, (if_neg (Nat.lt_irrefl _)).mpr hended⟩
    rintro (_ | _ | _) w hst
    · obtain ⟨-, hi, hj, rfl⟩ : _ ∧ matrixRow P.cta t < P.m ∧ matrixCol P.cta t < P.n
        ∧ w = element P.out _ := hst
      exact (hy hi hj).trans (value_result hb hi hj).symm
    · obtain ⟨-, hlt, -⟩ : _ ∧ 2 * tiles P.k < 2 * tiles P.k ∧ _ := hst
      exact absurd hlt (Nat.lt_irrefl _)
    · exact hst.elim
  have hparams : μ.params = matmulParams P.a P.b P.out P.m P.n P.k := hm.room.params.trans hb.params
  refine LaneState.leadsTo_exitUnless (p := matrixRow P.cta t < P.m) hpc rfl hheld.inRow
    (fun hout => hends _ rfl fun hi => absurd hi hout) fun hi => ?_
  refine LaneState.leadsTo_exitUnless (p := matrixCol P.cta t < P.n) rfl rfl hheld.inColumn
    (fun hout => hends _ rfl fun _ hj => absurd hj hout) fun hj => ?_
  have haddr : (s.general 3 * s.general 5 + s.general 2) <<< ((2 : Word) &&& shiftMask).toNat
      + μ.params.getD 2 0 + 0 = element P.out (matrixRow P.cta t * P.n + matrixCol P.cta t) := by
    rw [hheld.row, hheld.columns, hheld.column, hparams, ← BitVec.ofNat_mul, ← BitVec.ofNat_add,
      ofNat_shl_two]
    exact (BitVec.add_zero _).trans ((BitVec.add_comm _ _).trans (ofNat_add_element P.out _))
  have hok := hb.not_faults_global hm.room hb.buffers.result (matrix_index_lt hi hj)
  refine LaneState.leadsTo_line 65 5 6 rfl rfl (by decide) rfl
    (by rw [hparams]; exact Nat.le_refl 6) ?_
  refine LaneState.leadsTo_store (i := stGlobal 26 13) rfl rfl rfl (.inl rfl)
    (haddr ▸ ⟨rfl, hi, hj, rfl⟩) (haddr ▸ hok) ?_
  refine LaneState.leadsTo_exit (i := {}) rfl rfl rfl rfl (.now (hends _ rfl fun _ _ => ?_))
  have hself := BlockMemory.wordAt_write_self (s.general 13)
    (fun h : Space.global = .param => nomatch h) hok
  rw [← haddr] at hself ⊢
  exact hself.trans hacc

/-- A step, from the test of the outer loop on. -/
theorem At.top (hb : P.Begins base start) (hm : P.Memory start (2 * r) μ) (hr : r ≤ tiles P.k)
    (ht : t < 256) (h : P.At F 24 μ t r 0 y) :
    LeadsTo ((P.outline F start).Alone F matmulTiled base (2 * r) t)
      ((P.outline F start).Ends matmulTiled (2 * r) t) y := by
  obtain ⟨s, μ⟩ := y
  obtain ⟨rfl, hpc, hheld, hacc, hstep⟩ := h
  simp only [] at hpc hheld hacc hstep
  obtain ⟨-, -, hk⟩ := hb.buffers.bounds
  have hlast : P.k ≤ 16 * r ↔ 2 * r = 2 * tiles P.k := by
    have := lt_tiles (P := P) (r := r)
    omega
  have hp : ((s.general 6).toInt ≤ (s.general 14).toInt) ↔ P.k ≤ 16 * r := by
    have : tiles P.k = (P.k + 15) / 16 := rfl
    rw [hheld.inner, hstep, toInt_ofNat (by omega), toInt_ofNat (by omega)]
    exact Int.ofNat_le
  refine LaneState.leadsTo_line 24 1 0 hpc rfl (by decide) rfl (Nat.zero_le _) ?_
  refine LaneState.leadsTo_braIf (p := P.k ≤ 16 * r) rfl rfl (decide_eq_decide.2 hp)
    (.inr (decide_eq_decide.2 hlast)) (fun hdone => ?_) fun hmore => ?_
  · obtain rfl : r = tiles P.k := by
      have := hlast.1 hdone
      omega
    exact At.finish hb hm ⟨rfl, rfl, { hheld with }, hacc, hstep⟩
  · exact At.stage hb hm (lt_tiles.1 (Nat.not_le.1 hmore)) ht
      ⟨rfl, rfl, { hheld with }, hacc, hstep⟩

/-- The registers that a thread sets up before the first step. -/
theorem leadsTo_setUp (hb : P.Begins base start) (hm : P.Memory start 0 μ) (ht : t < 256) :
    LeadsTo ((P.outline F start).Alone F matmulTiled base 0 t) (P.At F 24 μ t 0 0) (.fresh, μ) := by
  obtain ⟨hbm, hbn, hk⟩ := hb.buffers.bounds
  have hparams : μ.params = matmulParams P.a P.b P.out P.m P.n P.k := hm.room.params.trans hb.params
  obtain ⟨hx, hy⟩ := special_tile hb.width ht
  have hrow := (special_matrix hb.width ht).1.trans
    (congrArg (fun cta => BitVec.ofNat 32 (matrixRow cta t)) hb.block)
  have hcol := (special_matrix hb.width ht).2.trans
    (congrArg (fun cta => BitVec.ofNat 32 (matrixCol cta t)) hb.block)
  have hrange := hb.row t ht
  have hrange' := hb.column t
  have hp : ∀ {i j : Nat} {w : Word}, i < 2 ^ 31 → j ≤ 2 ^ 30 → w = BitVec.ofNat 32 i →
      (w.toInt < (BitVec.ofNat 32 j).toInt ↔ i < j) := by
    rintro i j _ hi hj rfl
    rw [toInt_ofNat hi, toInt_ofNat (by omega)]
    exact Int.ofNat_lt
  have hstage : (((threadContext base t).linearIndex (t % 32) / base.ntid.x)
      <<< ((4 : Word) &&& shiftMask).toNat
        + (threadContext base t).linearIndex (t % 32) % base.ntid.x)
        <<< ((2 : Word) &&& shiftMask).toNat = element 0 t := by
    rw [hx, hy, ofNat_shl (k := 4) (j := 16 * (t / 16)) rfl rfl, ← BitVec.ofNat_add,
      Nat.div_add_mod t 16, ofNat_shl_two, element, Nat.zero_add]
  have hrowStage : ((threadContext base t).linearIndex (t % 32) / base.ntid.x)
      <<< ((6 : Word) &&& shiftMask).toNat = element 0 (16 * (t / 16)) := by
    rw [hy, ofNat_shl (k := 6) (j := 64 * (t / 16)) rfl rfl, element, Nat.zero_add, ← Nat.mul_assoc]
  have hcolumnStage : ((threadContext base t).linearIndex (t % 32) % base.ntid.x)
      <<< ((2 : Word) &&& shiftMask).toNat + 1024 = element 0 (256 + t % 16) := by
    rw [hx, ofNat_shl_two, Nat.add_comm 256, ← element_add 0 _ 256, element, Nat.zero_add]
    rfl
  refine LaneState.leadsTo_line 0 24 6 rfl rfl (by decide) rfl
    (by rw [hparams]; exact Nat.le_refl 6) (.now ⟨rfl, rfl, ?_, rfl, rfl⟩)
  have hget : ∀ i, μ.params.getD i 0 = (matmulParams P.a P.b P.out P.m P.n P.k).getD i 0 :=
    fun i => by rw [hparams]
  refine ⟨hx, hy, hcol, hrow, hget 4, hget 5, hget 0, hget 1, hstage, ?_, hrowStage,
    hcolumnStage, ?_, ?_⟩
  · have heq : (((threadContext base t).linearIndex (t % 32) / base.ntid.x)
        <<< ((4 : Word) &&& shiftMask).toNat
          + (threadContext base t).linearIndex (t % 32) % base.ntid.x)
            <<< ((2 : Word) &&& shiftMask).toNat + 1024 = element 0 (256 + t) := by
      rw [hstage, Nat.add_comm]
      exact element_add 0 t 256
    exact heq
  · have hlt := hp hrange hbm hrow
    rw [show BitVec.ofNat 32 P.m = μ.params.getD 3 0 from (hget 3).symm] at hlt
    exact decide_eq_decide.2 hlt
  · have hlt := hp hrange' hbn hcol
    rw [show BitVec.ofNat 32 P.n = μ.params.getD 4 0 from (hget 4).symm] at hlt
    exact decide_eq_decide.2 hlt

theorem run (hb : P.Begins base start) (hc : c ≤ 2 * tiles P.k) (ht : t < 256)
    (hm : P.Memory start c μ) (h : (P.outline F start).entry c t s) :
    LeadsTo ((P.outline F start).Alone F matmulTiled base c t)
      ((P.outline F start).Ends matmulTiled c t) (s, μ) := by
  obtain ⟨r, rfl | rfl⟩ : ∃ r, c = 2 * r ∨ c = 2 * r + 1 := ⟨c / 2, by omega⟩
  · rcases r with _ | r
    · obtain rfl : s = .fresh := h
      exact (leadsTo_setUp hb hm ht).trans fun y h => h.top hb hm (Nat.zero_le _) ht
    · obtain ⟨hpc, hheld, hacc, hstep⟩ : P.Entry F (2 * (r + 1)) t s := entry_succ.mp h
      rw [if_neg (by omega)] at hpc
      rw [Nat.mul_div_cancel_left _ (by decide)] at hacc
      rw [show (2 * (r + 1) - 1) / 2 = r by omega] at hstep
      refine LaneState.leadsTo_line 61 1 0 hpc rfl (by decide) rfl (Nat.zero_le _) ?_
      refine LaneState.leadsTo_bra rfl rfl ?_
      refine At.top hb hm (by omega) ht ⟨rfl, rfl, { hheld with }, hacc, ?_⟩
      have heq : s.general 14 + 16 = BitVec.ofNat 32 (16 * (r + 1)) := by
        rw [hstep, Nat.mul_succ, BitVec.ofNat_add]
        rfl
      exact heq
  · exact Entry.inner hb hm (by omega) ht (entry_succ.mp h)

theorem aligned (hbuffers : MatmulBuffers P.a P.b P.out P.m P.n P.k P.g) {space : Space} {w : Word}
    (h : P.stores c t space w) : w.toNat % 4 = 0 := by
  rcases space with _ | _ | _
  · obtain ⟨-, hi, hj, rfl⟩ := h
    exact element_aligned hbuffers.size hbuffers.result (matrix_index_lt hi hj)
  · obtain ⟨-, -, rfl | rfl⟩ := h <;> exact element_zero_aligned
  · exact h.elim

/-- No thread stores a word that another one sees in the same interval. -/
theorem apart (hbuffers : MatmulBuffers P.a P.b P.out P.m P.n P.k P.g) {u : Nat} (ht : t < 256)
    (hu : u < 256) (hne : t ≠ u) {space : Space} {w : Word} (h : P.stores c t space w) :
    ¬((P.outline F start).footprint c u).Sees space w := by
  rintro (hload | hstore)
  · rcases space with _ | _ | _
    · obtain ⟨hc, -⟩ := h
      obtain ⟨r, hr, hc', -⟩ := hload
      omega
    · obtain ⟨hc, -⟩ := h
      exact absurd (hc.symm.trans hload.1) (by decide)
    · exact h.elim
  · rcases space with _ | _ | _
    · obtain ⟨-, hi, hj, rfl⟩ := h
      obtain ⟨-, hi', hj', heq⟩ := hstore
      obtain ⟨hrow, hcol⟩ := matrix_index_inj hj hj' (element_inj hbuffers.size hbuffers.result
        (matrix_index_lt hi hj) (matrix_index_lt hi' hj') heq)
      exact hne (matrix_inj ht hu hrow hcol).2
    · obtain ⟨-, -, h⟩ := h
      obtain ⟨-, -, h'⟩ := hstore
      rcases h with rfl | rfl <;> rcases h' with heq | heq <;>
        have := element_zero_inj (by omega) (by omega) heq <;> omega
    · exact h.elim

/-- What an interval leaves is what the next one begins with. -/
theorem Memory.next (hc : c < 2 * tiles P.k) {m m' : BlockMemory} (hm : P.Memory start c m)
    (hw : BlockMemory.Wrote ((P.outline F start).StoredIn 256 c) m m')
    (hst : ∀ t < 256, (P.outline F start).Stored c t m') : P.Memory start (c + 1) m' := by
  refine ⟨hm.room.trans hw.room, ?_, fun hodd q hq => ?_⟩
  · have hbytes : m'.global.bytes = m.global.bytes := by
      refine List.ext_getElem? fun j => ?_
      rcases hw.byte .global j with heq | ⟨a, ⟨t, -, hcontra, -⟩, -⟩
      · exact heq
      · exact absurd hcontra hc.ne
    rw [← hm.global]
    exact congrArg ByteMemory.mk hbytes
  · have heven : c % 2 = 0 := by omega
    have hstored : m'.wordAt .shared (element 0 q)
        = (P.outline F start).value c .shared (element 0 q) := by
      by_cases hlt : q < 256
      · exact hst q hlt .shared _ ⟨heven, hc, .inl rfl⟩
      · refine hst (q - 256) (by omega) .shared _ ⟨heven, hc, .inr ?_⟩
        rw [Nat.add_sub_cancel' (Nat.not_lt.1 hlt)]
    rw [hstored, value_staged hq, show (c + 1) / 2 = c / 2 by omega]

theorem sound (hb : P.Begins base start) :
    (P.outline F start).Sound F matmulTiled base 256 where
  annotated := annotated_matmulTiled
  unguarded := by decide
  aligned := fun _ _ _ _ h => Tiling.aligned hb.buffers h
  apart := fun _ _ _ ht _ hu hne _ _ h => apart hb.buffers ht hu hne h
  run := fun _ hc _ ht _ _ hm hentry => run hb hc ht hm hentry
  next := fun _ hc _ _ hm hw hst => hm.next hc hw hst

end Run

end Tiling

end WarpSim
