import WarpSim.Proofs.Launches
import Mathlib.Data.Set.Function

/-!
# Launch geometry

The lanes of a block are numbered row by row, 32 to a warp. The numbering is computed in 32 bits
and launch does not check the range, so it is right exactly for blocks of at most 2^32 - 32 lanes.
-/

namespace WarpSim

namespace Block

/-- The lanes that are live before the first step, as pairs of a warp number and a lane. -/
def liveLanes (b : Block) : Set (Nat × Nat) :=
  {p | ∃ w, b.warps[p.1]? = some w ∧ hasLane w.live p.2 = true}

/-- What `%tid.x` and `%tid.y` read on a lane of a warp. -/
def tid (b : Block) (p : Nat × Nat) : Word × Word :=
  match b.warps[p.1]? with
  | none => (0, 0)
  | some w => (w.context.special SpecialRegister.tidX.number p.2,
      w.context.special SpecialRegister.tidY.number p.2)

/-- The live lanes of a block are its positions, each once, and a lane's number in the block is
that of its position. -/
structure Covers (block : Dim2) (b : Block) : Prop where
  bijOn : Set.BijOn b.tid b.liveLanes
    {t | t.1.toNat < block.x.toNat ∧ t.2.toNat < block.y.toNat}
  linear : ∀ p ∈ b.liveLanes,
    32 * p.1 + p.2 = (b.tid p).1.toNat + (b.tid p).2.toNat * block.x.toNat

section Masks

theorem toNat_laneBit {k : Nat} (hk : k < 32) : (laneBit k).toNat = 2 ^ k := by
  have : 2 ^ k < 2 ^ 32 := Nat.pow_lt_pow_right (by decide) hk
  rw [laneBit, BitVec.toNat_shiftLeft, Nat.shiftLeft_eq]
  simp only [BitVec.toNat_ofNat]
  omega

/-- The mask of the lanes below `k`. -/
theorem hasLane_laneBit_sub_one {k : Nat} (hk : k < 32) (lane : Nat) :
    hasLane (laneBit k - 1) lane = decide (lane < k) := by
  have hpos : 0 < 2 ^ k := Nat.two_pow_pos k
  have hlt : 2 ^ k < 2 ^ 32 := Nat.pow_lt_pow_right (by decide) hk
  have hsub : (laneBit k - 1).toNat = 2 ^ k - 1 := by
    rw [BitVec.toNat_sub_of_le (by rw [BitVec.le_def, toNat_laneBit hk]; exact hpos),
      toNat_laneBit hk]
    rfl
  rw [hasLane_eq, ← BitVec.testBit_toNat, hsub, Nat.testBit_two_pow_sub_one]

theorem hasLane_fullMask (lane : Nat) : hasLane fullMask lane = decide (lane < 32) := by
  rw [hasLane_eq, ← BitVec.testBit_toNat]
  exact Nat.testBit_two_pow_sub_one 32 lane

end Masks

section Warps

variable {base : LaneContext} {lanesInBlock : Word}

theorem hasLane_makeWarp {w : Nat} (hw : 32 * w < lanesInBlock.toNat) (lane : Nat) :
    hasLane (makeWarp lanesInBlock base (BitVec.ofNat 32 w)).live lane
      = decide (lane < 32 ∧ 32 * w + lane < lanesInBlock.toNat) := by
  have hn := lanesInBlock.isLt
  have hfirst : (BitVec.ofNat 32 w * BitVec.ofNat 32 warpSize).toNat = 32 * w := by
    rw [BitVec.toNat_mul, warpSize]
    simp only [BitVec.toNat_ofNat]
    omega
  have hrest : (lanesInBlock - BitVec.ofNat 32 w * BitVec.ofNat 32 warpSize).toNat
      = lanesInBlock.toNat - 32 * w := by
    rw [BitVec.toNat_sub_of_le (by rw [BitVec.le_def, hfirst]; omega), hfirst]
  have hsize : (BitVec.ofNat 32 warpSize).toNat = 32 := rfl
  unfold makeWarp Warp.new
  simp only [BitVec.lt_def, hrest, hsize]
  by_cases hlt : lanesInBlock.toNat - 32 * w < 32
  · have hne : lanesInBlock - BitVec.ofNat 32 w * BitVec.ofNat 32 warpSize
        ≠ BitVec.ofNat 32 warpSize := by
      intro h
      rw [h, hsize] at hrest
      omega
    rw [if_pos hlt, if_neg hne, hrest, hasLane_laneBit_sub_one hlt]
    exact decide_eq_decide.2 (by omega)
  · rw [if_neg hlt, if_pos rfl, hasLane_fullMask]
    exact decide_eq_decide.2 (by omega)

theorem toNat_warpCount (lanesInBlock : Word) :
    ((lanesInBlock + BitVec.ofNat 32 warpSize - 1) / BitVec.ofNat 32 warpSize).toNat
      = (lanesInBlock.toNat + 31) % 2 ^ 32 / 32 := by
  have hadd : (lanesInBlock + BitVec.ofNat 32 warpSize - 1).toNat
      = (lanesInBlock.toNat + 31) % 2 ^ 32 := by
    rw [warpSize]
    simp only [BitVec.toNat_sub, BitVec.toNat_add, BitVec.toNat_ofNat, BitVec.ofNat_eq_ofNat]
    omega
  rw [BitVec.toNat_udiv, hadd]
  rfl

theorem warps_start (memory : BlockMemory) (stats : LaunchStats) (w : Nat) :
    (start memory base lanesInBlock stats).warps[w]? =
      if w < (lanesInBlock.toNat + 31) % 2 ^ 32 / 32 then
        some (makeWarp lanesInBlock base (BitVec.ofNat 32 w))
      else none := by
  rw [← toNat_warpCount, start]
  simp only [List.getElem?_map]
  split_ifs with h
  · rw [List.getElem?_range h]
    rfl
  · rw [List.getElem?_eq_none (by rw [List.length_range]; omega)]
    rfl

/-- The position a lane reads is that of its linear index. -/
theorem tid_makeWarp {b : Block} {p : Nat × Nat}
    (hw : b.warps[p.1]? = some (makeWarp lanesInBlock base (BitVec.ofNat 32 p.1))) :
    (b.tid p).1.toNat = (32 * p.1 + p.2) % 2 ^ 32 % base.ntid.x.toNat
      ∧ (b.tid p).2.toNat = (32 * p.1 + p.2) % 2 ^ 32 / base.ntid.x.toNat := by
  have hlinear : ({ base with warpId := BitVec.ofNat 32 p.1 } : LaneContext).linearIndex p.2
      = BitVec.ofNat 32 (32 * p.1 + p.2) := by
    rw [LaneContext.linearIndex, warpSize, Nat.mul_comm, ← BitVec.ofNat_mul, ← BitVec.ofNat_add]
  have htid : b.tid p = (BitVec.ofNat 32 (32 * p.1 + p.2) % base.ntid.x,
      BitVec.ofNat 32 (32 * p.1 + p.2) / base.ntid.x) := by
    rw [tid, hw, ← hlinear]
    rfl
  rw [htid, BitVec.toNat_umod, BitVec.toNat_udiv, BitVec.toNat_ofNat]
  exact ⟨rfl, rfl⟩

end Warps

section Covers

variable {base : LaneContext} {memory : BlockMemory} {stats : LaunchStats} {block : Dim2}

theorem toNat_count (block : Dim2) :
    block.count.toNat = block.x.toNat * block.y.toNat % 2 ^ 32 :=
  BitVec.toNat_mul _ _

/-- A block with room for a last partial warp below 2^32 is covered. -/
theorem covers_of_fits (hntid : base.ntid = block)
    (hfits : block.x.toNat * block.y.toNat + 31 < 2 ^ 32) :
    Covers block (start memory base block.count stats) := by
  have hcount : block.count.toNat = block.x.toNat * block.y.toNat := by
    rw [toNat_count, Nat.mod_eq_of_lt (by omega)]
  have hwarps : ∀ w, (start memory base block.count stats).warps[w]? = _ :=
    warps_start memory stats
  rw [hcount, Nat.mod_eq_of_lt hfits] at hwarps
  have hlive : ∀ p, p ∈ (start memory base block.count stats).liveLanes
      ↔ p.2 < 32 ∧ 32 * p.1 + p.2 < block.x.toNat * block.y.toNat := by
    intro p
    simp only [liveLanes, Set.mem_ofPred_eq, hwarps]
    constructor
    · rintro ⟨w, hw, hl⟩
      split_ifs at hw with h
      cases hw
      rw [hasLane_makeWarp (by omega), hcount, decide_eq_true_eq] at hl
      exact hl
    · rintro ⟨h1, h2⟩
      refine ⟨_, if_pos (by omega), ?_⟩
      rw [hasLane_makeWarp (by omega), hcount, decide_eq_true_eq]
      exact ⟨h1, h2⟩
  have htid : ∀ p ∈ (start memory base block.count stats).liveLanes,
      (tid (start memory base block.count stats) p).1.toNat = (32 * p.1 + p.2) % block.x.toNat
      ∧ (tid (start memory base block.count stats) p).2.toNat
        = (32 * p.1 + p.2) / block.x.toNat := by
    intro p hp
    obtain ⟨h1, h2⟩ := (hlive p).1 hp
    have hw := hwarps p.1
    rw [if_pos (by omega)] at hw
    have := tid_makeWarp hw
    rwa [hntid, Nat.mod_eq_of_lt (a := 32 * p.1 + p.2) (by omega)] at this
  have hlinear : ∀ p ∈ (start memory base block.count stats).liveLanes,
      32 * p.1 + p.2 = (tid (start memory base block.count stats) p).1.toNat
        + (tid (start memory base block.count stats) p).2.toNat * block.x.toNat := by
    intro p hp
    obtain ⟨h1, h2⟩ := htid p hp
    rw [h1, h2, Nat.mul_comm _ block.x.toNat, Nat.mod_add_div]
  refine ⟨⟨?_, ?_, ?_⟩, hlinear⟩
  · intro p hp
    obtain ⟨h1, h2⟩ := htid p hp
    have hlt := ((hlive p).1 hp).2
    have hx : 0 < block.x.toNat := Nat.pos_of_mul_pos_right (Nat.zero_lt_of_lt hlt)
    rw [Set.mem_ofPred_eq, h1, h2]
    exact ⟨Nat.mod_lt _ hx, Nat.div_lt_of_lt_mul hlt⟩
  · intro p hp q hq heq
    have h := hlinear p hp
    rw [heq, ← hlinear q hq] at h
    have hp2 := ((hlive p).1 hp).1
    have hq2 := ((hlive q).1 hq).1
    exact Prod.ext (by omega) (by omega)
  · rintro ⟨x, y⟩ ⟨hx, hy⟩
    simp only [] at hx hy
    have hle : (y.toNat + 1) * block.x.toNat ≤ block.y.toNat * block.x.toNat :=
      Nat.mul_le_mul_right _ hy
    rw [Nat.succ_mul, Nat.mul_comm block.y.toNat] at hle
    have hmem : ((x.toNat + y.toNat * block.x.toNat) / 32, (x.toNat + y.toNat * block.x.toNat) % 32)
        ∈ (start memory base block.count stats).liveLanes :=
      (hlive _).2 ⟨Nat.mod_lt _ (by decide), by simp only []; omega⟩
    obtain ⟨h1, h2⟩ := htid _ hmem
    simp only [Nat.div_add_mod] at h1 h2
    refine ⟨_, hmem, Prod.ext (BitVec.eq_of_toNat_eq ?_) (BitVec.eq_of_toNat_eq ?_)⟩
    · rw [h1, Nat.add_mul_mod_self_right, Nat.mod_eq_of_lt hx]
    · rw [h2, Nat.add_mul_div_right _ _ (Nat.zero_lt_of_lt hx), Nat.div_eq_of_lt hx, Nat.zero_add]

/-- Past that, the last position of the block has no lane. -/
theorem fits_of_covers (hntid : base.ntid = block) (hx : block.x ≠ 0) (hy : block.y ≠ 0)
    (h : Covers block (start memory base block.count stats)) :
    block.x.toNat * block.y.toNat + 31 < 2 ^ 32 := by
  have hx' : 0 < block.x.toNat := Nat.pos_of_ne_zero fun h => hx (BitVec.eq_of_toNat_eq h)
  have hy' : 0 < block.y.toNat := Nat.pos_of_ne_zero fun h => hy (BitVec.eq_of_toNat_eq h)
  have hlast : ∀ d : Word, 0 < d.toNat → (d - 1).toNat = d.toNat - 1 := by
    intro d hd
    rw [BitVec.toNat_sub_of_le (by rw [BitVec.le_def]; exact hd)]
    rfl
  obtain ⟨p, ⟨w, hw, -⟩, hp⟩ := h.bijOn.surjOn
    (show (block.x - 1, block.y - 1) ∈ _ from ⟨by simp only [hlast _ hx']; omega,
      by simp only [hlast _ hy']; omega⟩)
  rw [warps_start, toNat_count] at hw
  split_ifs at hw with hlt
  have hwarp : (start memory base block.count stats).warps[p.1]?
      = some (makeWarp block.count base (BitVec.ofNat 32 p.1)) := by
    rw [warps_start, toNat_count, if_pos hlt]
  have htid := tid_makeWarp hwarp
  rw [hp, hntid, hlast _ hx', hlast _ hy'] at htid
  -- The linear index of the last position is one less than the number of lanes.
  have hindex := Nat.mod_add_div ((32 * p.1 + p.2) % 2 ^ 32) block.x.toNat
  rw [← htid.1, ← htid.2] at hindex
  have hmul : block.x.toNat * (block.y.toNat - 1) + block.x.toNat
      = block.x.toNat * block.y.toNat := by
    rw [← Nat.mul_succ, Nat.succ_eq_add_one, Nat.sub_add_cancel hy']
  have hbound : (32 * p.1 + p.2) % 2 ^ 32 < 2 ^ 32 := Nat.mod_lt _ (by decide)
  generalize block.x.toNat * block.y.toNat = n at *
  omega

end Covers

end Block

/-- A block that a launch begins is covered when its last warp is in range, and only then. -/
theorem Launch.covers_startBlock (l : Launch) (ctaid : Dim2) (d : LaunchState)
    (hx : l.block.x ≠ 0) (hy : l.block.y ≠ 0) :
    Block.Covers l.block (l.startBlock ctaid d).toBlock
      ↔ l.block.x.toNat * l.block.y.toNat + 31 < 2 ^ 32 :=
  ⟨fun h => Block.fits_of_covers (show (l.context ctaid).ntid = l.block from rfl) hx hy h,
    Block.covers_of_fits (show (l.context ctaid).ntid = l.block from rfl)⟩

namespace Device

section Statement

/-- One of the four dimensions is zero. -/
def EmptyDims (grid block : Dim2) : Prop := grid.x = 0 ∨ grid.y = 0 ∨ block.x = 0 ∨ block.y = 0

/-- What a launch does with its geometry: it reports an empty one exactly when a dimension is zero;
otherwise every block it begins is covered, and a launch that ends has run every block of the grid
once, in the order of the linear block index. -/
structure LaunchGeometry (F : FloatOps) (program : Program) (grid block : Dim2)
    (params : List Word) (global : ByteMemory) : Prop where
  empty : (∃ fuel f global', launch F program grid block params global fuel
      = some (.error f, global') ∧ f.message = "empty grid or block") ↔ EmptyDims grid block
  covers : ¬EmptyDims grid block → ∀ ctaid s, Begins F program grid block params global ctaid s →
    s.Covers block
  order : ¬EmptyDims grid block → ∀ fuel stats global',
    launch F program grid block params global fuel = some (.ok stats, global') →
      ∃ decoded order, decodeWords 0 program.words = .ok decoded
        ∧ Launch.Completes F (.ofProgram program decoded grid block params)
          { global := global } order ⟨global', stats⟩
        ∧ (order.Pairwise fun c c' => linearBlock grid c < linearBlock grid c')
        ∧ ∀ c, c ∈ order ↔ c.x.toNat < grid.x.toNat ∧ c.y.toNat < grid.y.toNat

/-- The dimensions whose products the 32-bit arithmetic of a launch gets right. -/
def GeometryFits (grid block : Dim2) : Prop :=
  EmptyDims grid block ∨ (block.x.toNat * block.y.toNat ≤ 2 ^ 32 - 32
    ∧ grid.x.toNat * grid.y.toNat % 2 ^ 32 ≠ 0)

variable {F : FloatOps} {program : Program} {grid block : Dim2} {params : List Word}
  {global : ByteMemory}

theorem count_eq_zero {d : Dim2} (h : d.x = 0 ∨ d.y = 0) : d.count = 0 := by
  rcases h with h | h <;> simp [Dim2.count, h]

theorem count_ne_zero {d : Dim2} : d.count ≠ 0 ↔ d.x.toNat * d.y.toNat % 2 ^ 32 ≠ 0 := by
  rw [← Block.toNat_count]
  exact not_congr BitVec.toNat_eq

/-- The blocks of a launch are covered, and the empty geometries are those with a zero dimension,
exactly when neither product is out of range. -/
theorem launch_geometry (hwords : Decodes program.words) :
    LaunchGeometry F program grid block params global ↔ GeometryFits grid block := by
  obtain ⟨decoded, hdecode⟩ := decodeWords_of_decodes hwords 0
  constructor
  · intro h
    by_cases hempty : EmptyDims grid block
    · exact .inl hempty
    have hcount : ¬(block.count = 0 ∨ grid.count = 0) := fun hcount =>
      hempty (h.empty.1 ⟨0, _, _, launch_empty hdecode hcount 0, rfl⟩)
    obtain ⟨hblock, hgrid⟩ := not_or.1 hcount
    simp only [EmptyDims, not_or] at hempty
    obtain ⟨hgx, hgy, hbx, hby⟩ := hempty
    have hpos : ∀ d : Word, d ≠ 0 → 0 < d.toNat := fun d hd =>
      Nat.pos_of_ne_zero fun h => hd (BitVec.eq_of_toNat_eq h)
    obtain ⟨c, order, horder⟩ := List.exists_cons_of_ne_nil
      (List.ne_nil_of_mem (mem_blockOrder (c := ⟨0, 0⟩).2 ⟨hpos _ hgx, hpos _ hgy⟩))
    have hcovers := h.covers (by simp only [EmptyDims, not_or]; exact ⟨hgx, hgy, hbx, hby⟩) c _
      ⟨decoded, hdecode, hblock, hgrid, [], order, _, horder, .nil _, rfl⟩
    have hfits : block.x.toNat * block.y.toNat + 31 < 2 ^ 32 :=
      (Launch.covers_startBlock (.ofProgram program decoded grid block params) c _ hbx hby).1
        hcovers
    exact .inr ⟨by omega, count_ne_zero.1 hgrid⟩
  · intro h
    refine ⟨⟨?_, ?_⟩, fun hne ctaid s hbegins => ?_, fun hne fuel stats global' hrun => ?_⟩
    · rintro ⟨fuel, f, global', hrun, hmessage⟩
      by_contra hne
      obtain ⟨hblock, hgrid⟩ := h.resolve_left hne
      simp only [EmptyDims, not_or] at hne
      have hpos : ∀ d : Word, d ≠ 0 → 0 < d.toNat := fun d hd =>
        Nat.pos_of_ne_zero fun h => hd (BitVec.eq_of_toNat_eq h)
      have hmul := Nat.mul_pos (hpos _ hne.2.2.1) (hpos _ hne.2.2.2)
      rw [launch_run hdecode (count_ne_zero.2 (by omega)) (count_ne_zero.2 hgrid)] at hrun
      rcases hr : (Launch.ofProgram program decoded grid block params).runBlocks F fuel
        (blockOrder grid) { global := global } with _ | ⟨_ | _, d⟩ <;> rw [hr] at hrun <;>
        cases hrun
      have hmem := Launch.runBlocks_message _ hr
      rw [hmessage] at hmem
      revert hmem
      decide
    · intro hempty
      have hcount : block.count = 0 ∨ grid.count = 0 := by
        rcases hempty with h | h | h | h
        · exact .inr (count_eq_zero (.inl h))
        · exact .inr (count_eq_zero (.inr h))
        · exact .inl (count_eq_zero (.inl h))
        · exact .inl (count_eq_zero (.inr h))
      exact ⟨0, _, _, launch_empty hdecode hcount 0, rfl⟩
    · obtain ⟨hfits, -⟩ := h.resolve_left hne
      simp only [EmptyDims, not_or] at hne
      obtain ⟨decoded, -, -, -, _, _, d, -, -, rfl⟩ := hbegins
      exact (Launch.covers_startBlock (.ofProgram program decoded grid block params) ctaid d
        hne.2.2.1 hne.2.2.2).2 (show block.x.toNat * block.y.toNat + 31 < 2 ^ 32 by omega)
    · obtain ⟨decoded', hdecode', -, -, hcompletes⟩ := launch_completes hrun
      exact ⟨decoded', _, hdecode', hcompletes, blockOrder_pairwise grid, fun c => mem_blockOrder⟩

/-- The one-word program `exit`. -/
def exitProgram : Program := { words := [0x2800000000000000] }

/-- A store that the lanes below 16 skip. -/
def skipping : List Instruction :=
  [{ opcode := .movSreg, src0 := 8 }, { opcode := .setpLtS32, immFlag := true, imm := 16 },
    { opcode := .bra, guard := ⟨true, false, 0⟩, imm := Instruction.makeBranchImm 4 4 },
    { opcode := .stGlobal, immFlag := true, src0 := 1 }, {}]

def skipProgram : Program := { words := skipping.map packWord }

theorem decode_skipProgram : decodeWords 0 skipProgram.words = .ok skipping := by decide

/-- A block of 65536 by 65536 lanes is reported as empty. -/
theorem wrapped_block_empty :
    ¬LaunchGeometry default exitProgram ⟨1, 1⟩ ⟨65536, 65536⟩ [] ⟨[]⟩ := by
  intro h
  have hdecode : decodeWords 0 exitProgram.words = .ok [{ opcode := .exit }] := by decide
  exact absurd (h.empty.1 ⟨0, _, _, launch_empty hdecode (.inl (by decide)) 0, rfl⟩)
    (by unfold EmptyDims; decide)

/-- A block of 33 lanes is covered. -/
theorem exitProgram_geometry : LaunchGeometry default exitProgram ⟨2, 3⟩ ⟨11, 3⟩ [] ⟨[]⟩ :=
  (launch_geometry fun w hw => ⟨{}, by rw [List.mem_singleton.1 hw]; decide⟩).2
    (.inr ⟨by decide, by decide⟩)

end Statement

end Device

end WarpSim
