import WarpSim.Proofs.Elementwise
import WarpSim.Proofs.Golden

/-!
# The torture kernels compute what their golden models do

Lane by lane: whatever the lanes of a warp do in between, each comes to the value of the golden
model of its own element.
-/

namespace WarpSim

variable {F : FloatOps}

section Bodies

theorem free_nested : ∀ i ∈ elementwise 37 nestedBody, i.opcode ≠ .barSync := by decide

theorem free_loops : ∀ i ∈ elementwise 24 loopsBody, i.opcode ≠ .barSync := by decide

theorem free_combined : ∀ i ∈ elementwise 40 combinedBody, i.opcode ≠ .barSync := by decide

theorem computes_nested : Computes F 37 nestedBody fun _ v =>
    some (BitVec.ofInt 32 (Golden.nestedAt v.toInt)) := by
  intro ctx lane fp outcome μ i s _ hpc _
  have hmeets := meetsBefore_of_free free_nested
  have hodd : (s.general 6).toInt.land 1 = 0 ↔ (s.general 6 &&& 1).toInt = 0 :=
    Golden.land_eq_zero 1 (by decide)
  have hbit : (s.general 6).toInt.land 4 = 0 ↔ (s.general 6 &&& 4).toInt = 0 :=
    Golden.land_eq_zero 4 (by decide)
  refine LaneState.leadsTo_line 12 3 0 hpc rfl (by decide) rfl (Nat.zero_le _) ?_
  refine LaneState.leadsTo_braIf (p := (s.general 6 &&& 1).toInt = 0) rfl rfl rfl
    (.inl (hmeets _ _)) (fun heven => ?_) fun heven => ?_
  · refine LaneState.leadsTo_line 28 2 0 rfl rfl (by decide) rfl (Nat.zero_le _) ?_
    refine LaneState.leadsTo_braIf (p := 50 < (s.general 6).toInt) rfl rfl rfl
      (.inl (hmeets _ _)) (fun hbig => ?_) fun hbig => ?_
    · refine LaneState.leadsTo_line 33 1 0 rfl rfl (by decide) rfl (Nat.zero_le _) ?_
      refine .now ⟨rfl, rfl, ?_, rfl⟩
      rw [Golden.nestedAt_eq, if_pos (hodd.2 heven), if_pos hbig, ofInt_sub, BitVec.ofInt_toInt]
      rfl
    · refine LaneState.leadsTo_line 31 1 0 rfl rfl (by decide) rfl (Nat.zero_le _) ?_
      refine LaneState.leadsTo_bra rfl rfl (.now ⟨rfl, rfl, ?_, rfl⟩)
      rw [Golden.nestedAt_eq, if_pos (hodd.2 heven), if_neg hbig, BitVec.ofInt_mul,
        BitVec.ofInt_toInt]
      rfl
  · refine LaneState.leadsTo_line 16 2 0 rfl rfl (by decide) rfl (Nat.zero_le _) ?_
    refine LaneState.leadsTo_braIf (p := (s.general 6).toInt < 100) rfl rfl rfl
      (.inl (hmeets _ _)) (fun hsmall => ?_) fun hsmall => ?_
    · refine LaneState.leadsTo_line 25 2 0 rfl rfl (by decide) rfl (Nat.zero_le _) ?_
      refine LaneState.leadsTo_bra rfl rfl (.now ⟨rfl, rfl, ?_, rfl⟩)
      rw [Golden.nestedAt_eq, if_neg (mt hodd.1 heven), if_pos hsmall]
      exact (rfl : _ = ((0 : Word) + 1 - 7) * 3).trans (by decide)
    · refine LaneState.leadsTo_line 19 3 0 rfl rfl (by decide) rfl (Nat.zero_le _) ?_
      refine LaneState.leadsTo_braIf (p := (s.general 6 &&& 4).toInt = 0) rfl rfl rfl
        (.inl (hmeets _ _)) (fun hclear => ?_) fun hclear => ?_
      · refine LaneState.leadsTo_line 26 1 0 rfl rfl (by decide) rfl (Nat.zero_le _) ?_
        refine LaneState.leadsTo_bra rfl rfl (.now ⟨rfl, rfl, ?_, rfl⟩)
        rw [Golden.nestedAt_eq, if_neg (mt hodd.1 heven), if_neg hsmall, if_pos (hbit.2 hclear)]
        exact (rfl : _ = ((0 : Word) + 1 + 20) * 3).trans (by decide)
      · refine LaneState.leadsTo_line 23 1 0 rfl rfl (by decide) rfl (Nat.zero_le _) ?_
        refine LaneState.leadsTo_bra rfl rfl ?_
        refine LaneState.leadsTo_line 26 1 0 rfl rfl (by decide) rfl (Nat.zero_le _) ?_
        refine LaneState.leadsTo_bra rfl rfl (.now ⟨rfl, rfl, ?_, rfl⟩)
        rw [Golden.nestedAt_eq, if_neg (mt hodd.1 heven), if_neg hsmall, if_neg (mt hbit.1 hclear)]
        exact (rfl : _ = ((0 : Word) + 1 + 20 + 300) * 3).trans (by decide)

/-- A lane of `loops` before the test at `top`, with so many rounds left. -/
structure LoopsTop (i trips : Nat) (s : LaneState) (μ : BlockMemory) (n : Nat)
    (y : LaneState × BlockMemory) : Prop where
  memory : y.2 = μ
  pc : y.1.pc = some 14
  index : y.1.general 0 = BitVec.ofNat 32 i
  offset : y.1.general 4 = s.general 4
  element : y.1.general 6 = s.general 6
  counter : ∃ k, k + n = trips ∧ y.1.general 7 = BitVec.ofNat 32 k
    ∧ y.1.general 10 = BitVec.ofInt 32 (Golden.loopsSum i k)

theorem computes_loops : Computes F 24 loopsBody fun i v =>
    some (BitVec.ofInt 32 (Golden.loopsAt i v.toInt)) := by
  intro ctx lane fp outcome μ i s _ hpc hindex
  have hmeets := meetsBefore_of_free free_loops
  have htrips : (max (s.general 6).toInt 0).toNat < 2 ^ 31 := by
    have := BitVec.toInt_lt (x := s.general 6)
    omega
  refine LaneState.leadsTo_line 12 2 0 hpc rfl (by decide) rfl (Nat.zero_le _) ?_
  refine LeadsTo.countdown (I := LoopsTop i (max (s.general 6).toInt 0).toNat s μ) ?_ ?_
    (max (s.general 6).toInt 0).toNat ⟨rfl, rfl, hindex, rfl, rfl, 0, Nat.zero_add _, rfl, rfl⟩
  · rintro ⟨y, _⟩ ⟨rfl, hpc, -, hoffset, helement, k, hk, hcounter, hsum⟩
    simp only [] at hpc hoffset helement hcounter hsum
    have hk' : (y.general 7).toInt = k := by rw [hcounter, toInt_ofNat (by omega)]
    refine LaneState.leadsTo_line 14 1 0 hpc rfl (by decide) rfl (Nat.zero_le _) ?_
    refine LaneState.leadsTo_braIf (p := (y.general 6).toInt ≤ (y.general 7).toInt) rfl rfl rfl
      (.inl (hmeets _ _)) (fun _ => ?_) fun hlt => ?_
    · refine .now ⟨rfl, rfl, ?_, hoffset⟩
      rw [Golden.ofInt_loopsAt, ← hk]
      exact hsum
    · rw [hk', helement] at hlt
      omega
  · rintro n ⟨y, _⟩ ⟨rfl, hpc, hindex, hoffset, helement, k, hk, hcounter, hsum⟩
    simp only [] at hpc hindex hoffset helement hcounter hsum
    have hk' : (y.general 7).toInt = k := by rw [hcounter, toInt_ofNat (by omega)]
    refine LaneState.leadsTo_line 14 1 0 hpc rfl (by decide) rfl (Nat.zero_le _) ?_
    refine LaneState.leadsTo_braIf (p := (y.general 6).toInt ≤ (y.general 7).toInt) rfl rfl rfl
      (.inl (hmeets _ _)) (fun hle => ?_) fun _ => ?_
    · rw [hk', helement] at hle
      omega
    · refine LaneState.leadsTo_line 16 4 0 rfl rfl (by decide) rfl (Nat.zero_le _) ?_
      refine LaneState.leadsTo_bra rfl rfl (.now (.inr
        ⟨rfl, rfl, hindex, hoffset, helement, k + 1, (Nat.succ_add_eq_add_succ k n).trans hk,
          ?_, ?_⟩))
      · have heq : y.general 7 + 1 = BitVec.ofNat 32 (k + 1) := by
          rw [hcounter, BitVec.ofNat_add]
          rfl
        exact heq
      · rw [Golden.ofInt_loopsSum_succ, ← hsum, ← hcounter, ← hindex]
        rfl

/-- A lane of `combined` before the test at `top`, with so many rounds left. -/
structure CombinedTop (result : Int) (s : LaneState) (μ : BlockMemory) (n : Nat)
    (y : LaneState × BlockMemory) : Prop where
  memory : y.2 = μ
  pc : y.1.pc = some 14
  offset : y.1.general 4 = s.general 4
  counter : ∃ k, k + n = 32 ∧ y.1.general 7 = BitVec.ofNat 32 k
    ∧ Golden.combinedLoop n k (y.1.general 6).toInt (y.1.general 10).toInt = result

/-- From `step`, a lane of `combined` comes to the next round. -/
theorem leadsTo_combined_step {ctx : LaneContext} {lane : Nat} {fp : Footprint}
    {outcome : Pc → Bool} {μ : BlockMemory} {s y : LaneState} {result : Int} {n k : Nat}
    {Q : LaneState × BlockMemory → Prop} (hpc : y.pc = some 35)
    (hoffset : y.general 4 = s.general 4) (hk : k + (n + 1) = 32)
    (hcounter : y.general 7 = BitVec.ofNat 32 k)
    (hrest : Golden.combinedLoop n ((k + 1 : Nat) : Int) (y.general 6).toInt (y.general 10).toInt
      = result) :
    LeadsTo (LaneState.Alone F ctx (elementwise 40 combinedBody) lane fp outcome)
      (fun z => Q z ∨ CombinedTop result s μ n z) (y, μ) := by
  refine LaneState.leadsTo_line 35 1 0 hpc rfl (by decide) rfl (Nat.zero_le _) ?_
  refine LaneState.leadsTo_bra rfl rfl (.now (.inr
    ⟨rfl, rfl, hoffset, k + 1, (Nat.succ_add_eq_add_succ k n).trans hk, ?_, hrest⟩))
  have heq : y.general 7 + 1 = BitVec.ofNat 32 (k + 1) := by
    rw [hcounter, BitVec.ofNat_add]
    rfl
  exact heq

theorem computes_combined : Computes F 40 combinedBody fun _ v =>
    some (BitVec.ofInt 32 (Golden.combinedLoop 32 0 (Golden.s32 v.toInt) 0)) := by
  intro ctx lane fp outcome μ i s _ hpc _
  have hmeets := meetsBefore_of_free free_combined
  generalize hresult : Golden.combinedLoop 32 0 (Golden.s32 (s.general 6).toInt) 0 = result
  refine LaneState.leadsTo_line 12 2 0 hpc rfl (by decide) rfl (Nat.zero_le _) ?_
  refine LeadsTo.countdown (I := CombinedTop result s μ) ?_ ?_ 32
    ⟨rfl, rfl, rfl, 0, Nat.zero_add _, rfl, ?_⟩
  · rintro ⟨y, _⟩ ⟨rfl, hpc, hoffset, k, hk, hcounter, hrest⟩
    simp only [] at hpc hoffset hcounter hrest
    have hk' : (y.general 7).toInt = k := by rw [hcounter, toInt_ofNat (by omega)]
    refine LaneState.leadsTo_line 14 1 0 hpc rfl (by decide) rfl (Nat.zero_le _) ?_
    refine LaneState.leadsTo_braIf (p := (32 : Word).toInt ≤ (y.general 7).toInt) rfl rfl rfl
      (.inl (hmeets _ _)) (fun _ => ?_) fun hlt => ?_
    · refine .now ⟨rfl, rfl, ?_, hoffset⟩
      rw [hresult, ← hrest, Golden.combinedLoop, BitVec.ofInt_toInt]
      rfl
    · rw [hk', show (32 : Word).toInt = 32 from rfl] at hlt
      omega
  · rintro n ⟨y, _⟩ ⟨rfl, hpc, hoffset, k, hk, hcounter, hrest⟩
    simp only [] at hpc hoffset hcounter hrest
    have hk' : (y.general 7).toInt = k := by rw [hcounter, toInt_ofNat (by omega)]
    rw [Golden.combinedLoop_succ, ← hcounter] at hrest
    refine LaneState.leadsTo_line 14 1 0 hpc rfl (by decide) rfl (Nat.zero_le _) ?_
    refine LaneState.leadsTo_braIf (p := (32 : Word).toInt ≤ (y.general 7).toInt) rfl rfl rfl
      (.inl (hmeets _ _)) (fun hle => ?_) fun _ => ?_
    · rw [hk', show (32 : Word).toInt = 32 from rfl] at hle
      omega
    · refine LaneState.leadsTo_line 16 2 0 rfl rfl (by decide) rfl (Nat.zero_le _) ?_
      refine LaneState.leadsTo_braIf (p := (y.general 6 &&& 1).toInt = 0) rfl rfl rfl
        (.inl (hmeets _ _)) (fun heven => ?_) fun hodd => ?_
      · rw [if_pos heven] at hrest
        refine LaneState.leadsTo_line 31 3 0 rfl rfl (by decide) rfl (Nat.zero_le _) ?_
        refine LaneState.leadsTo_braIf (p := (sra (y.general 6) 1).toInt = 0) rfl rfl rfl
          (.inl (hmeets _ _)) (fun hzero => ?_) fun hzero => ?_
        · rw [if_pos hzero] at hrest
          refine .now (.inl ⟨rfl, rfl, ?_, hoffset⟩)
          rw [hresult, ← hrest, BitVec.ofInt_toInt]
          rfl
        · rw [if_neg hzero] at hrest
          exact leadsTo_combined_step rfl hoffset hk hcounter hrest
      · rw [if_neg hodd] at hrest
        refine LaneState.leadsTo_line 19 5 0 rfl rfl (by decide) rfl (Nat.zero_le _) ?_
        refine LaneState.leadsTo_braIf (p := (y.general 6 * 3 + 1 &&& 2).toInt = 0) rfl rfl rfl
          (.inl (hmeets _ _)) (fun hclear => ?_) fun hclear => ?_
        · rw [if_pos hclear] at hrest
          exact leadsTo_combined_step rfl hoffset hk hcounter hrest
        · rw [if_neg hclear] at hrest
          refine LaneState.leadsTo_line 25 3 0 rfl rfl (by decide) rfl (Nat.zero_le _) ?_
          refine LaneState.leadsTo_braIf (p := (y.general 6 * 3 + 1 &&& 4).toInt = 0) rfl rfl rfl
            (.inl (hmeets _ _)) (fun hclear' => ?_) fun hclear' => ?_
          · rw [if_pos hclear'] at hrest
            exact leadsTo_combined_step rfl hoffset hk hcounter hrest
          · rw [if_neg hclear'] at hrest
            refine LaneState.leadsTo_line 29 1 0 rfl rfl (by decide) rfl (Nat.zero_le _) ?_
            refine LaneState.leadsTo_bra rfl rfl ?_
            exact leadsTo_combined_step rfl hoffset hk hcounter hrest
  · rw [← hresult, Golden.s32_toInt]
    rfl

end Bodies

section Assembly

set_option maxRecDepth 100000 in
theorem assembly_nested :
    assembly Kernels.tortureNested = some ([], elementwise 37 nestedBody, 0) := by
  refine text_of (P := fun t => assembly t = some ([], elementwise 37 nestedBody, 0)) rfl ?_
  decide +kernel

set_option maxRecDepth 100000 in
theorem assembly_loops :
    assembly Kernels.tortureLoops = some ([], elementwise 24 loopsBody, 0) := by
  refine text_of (P := fun t => assembly t = some ([], elementwise 24 loopsBody, 0)) rfl ?_
  decide +kernel

set_option maxRecDepth 100000 in
theorem assembly_combined :
    assembly Kernels.tortureCombined = some ([], elementwise 40 combinedBody, 0) := by
  refine text_of (P := fun t => assembly t = some ([], elementwise 40 combinedBody, 0)) rfl ?_
  decide +kernel

theorem escapes_nested : Escapes (elementwise 37 nestedBody) :=
  escapes_of_rank (fun pc => 100 - pc) (by decide)

/-- The instructions of a loop's body rank above those that it leaves to. -/
theorem escapes_loops : Escapes (elementwise 24 loopsBody) :=
  escapes_of_rank (fun pc => if 16 ≤ pc ∧ pc < 21 then 200 - pc else 100 - pc) (by decide)

theorem escapes_combined : Escapes (elementwise 40 combinedBody) :=
  escapes_of_rank (fun pc => if 16 ≤ pc ∧ pc < 37 then 200 - pc else 100 - pc) (by decide)

end Assembly

section Golden

theorem nested_golden (x : List Int) (i : Nat) : (Golden.tortureNested x)[i]?
    = x[i]?.map fun v => (BitVec.ofInt 32 (Golden.nestedAt v)).toInt := by
  simp only [Golden.tortureNested, List.getElem?_map, Golden.wrap_land_mask]

theorem loops_golden (x : List Int) (i : Nat) : (Golden.tortureLoops x)[i]?
    = x[i]?.map fun v => (BitVec.ofInt 32 (Golden.loopsAt i v)).toInt := by
  simp only [Golden.tortureLoops, List.getElem?_mapIdx, Golden.wrap_eq]

theorem combined_golden (x : List Int) (i : Nat) : (Golden.tortureCombined x)[i]?
    = x[i]?.map fun v =>
      (BitVec.ofInt 32 (Golden.combinedLoop 32 0 (Golden.s32 v) 0)).toInt := by
  simp only [Golden.tortureCombined, List.getElem?_map, Golden.wrap_eq]

variable {reconvergence : Nat} {body : List Instruction} {kernel : Text}
  {golden : List Int → List Int} {h : Nat → Int → Int} {grid width : Word} {x out n : Nat}
  {g : ByteMemory}

/-- A launch of a kernel whose body computes a golden model leaves the golden output. -/
theorem launch_golden (F : FloatOps) (C : FloatChars)
    (hassembly : assembly kernel = some ([], elementwise reconvergence body, 0))
    (hlen : body.length + 16 < 2 ^ 16) (hescapes : Escapes (elementwise reconvergence body))
    (hfree : ∀ i ∈ elementwise reconvergence body, i.opcode ≠ .barSync)
    (hbody : Computes F reconvergence body fun i v => some (BitVec.ofInt 32 (h i v.toInt)))
    (hgolden : ∀ (x : List Int) (i : Nat), (golden x)[i]?
      = x[i]?.map fun v => (BitVec.ofInt 32 (h i v)).toInt)
    (hn : 1 ≤ n) (hcover : n ≤ grid.toNat * width.toNat)
    (hsmall : grid.toNat * width.toNat < 2 ^ 31) (hsize : g.size ≤ 2 ^ 32)
    (hx : g.HasBuffer x n) (hout : g.HasBuffer out n) (hapart : ByteMemory.Apart x n out n) :
    ∃ program, assemble C kernel = .ok program
      ∧ ∃ fuel stats g', Device.launch F program ⟨grid, 1⟩ ⟨width, 1⟩
          [BitVec.ofNat 32 x, BitVec.ofNat 32 out, BitVec.ofNat 32 n] g fuel = some (.ok stats, g')
        ∧ g'.elements out n = golden (g.elements x n) ∧ ByteMemory.SameBut out n g g' := by
  obtain ⟨program, hassemble, hdecoded⟩ := assembles_of hassembly (C := C) nofun
  have hannotated := annotated_of_assembly hassembly
    (by simp [elementwise, indexing]; omega) hescapes
  obtain ⟨fuel, stats, g', hlaunch, hsame, hwords⟩ := Device.launch_elementwise hbody hlen
    hannotated hfree hdecoded.words hn hcover hsmall hsize hx hout hapart
  refine ⟨program, hassemble, fuel, stats, g', hlaunch, List.ext_getElem? fun i => ?_, hsame⟩
  rw [hgolden, ByteMemory.elements, ByteMemory.elements, List.getElem?_map, List.getElem?_map]
  rcases Nat.lt_or_ge i n with hi | hi
  · rw [List.getElem?_range hi, Option.map_some, Option.map_some, Option.map_some, hwords i hi]
    rfl
  · rw [List.getElem?_eq_none (by rwa [List.length_range])]
    rfl

/-- The torture kernels without early exits leave the output of their golden models, whatever the
elements, the grid and the block. -/
theorem torture_matches_golden (F : FloatOps) (C : FloatChars)
    (hkernel : (kernel, golden) ∈ [(Kernels.tortureNested, Golden.tortureNested),
      (Kernels.tortureLoops, Golden.tortureLoops),
      (Kernels.tortureCombined, Golden.tortureCombined)])
    (hn : 1 ≤ n) (hcover : n ≤ grid.toNat * width.toNat)
    (hsmall : grid.toNat * width.toNat < 2 ^ 31) (hsize : g.size ≤ 2 ^ 32)
    (hx : g.HasBuffer x n) (hout : g.HasBuffer out n) (hapart : ByteMemory.Apart x n out n) :
    ∃ program, assemble C kernel = .ok program
      ∧ ∃ fuel stats g', Device.launch F program ⟨grid, 1⟩ ⟨width, 1⟩
          [BitVec.ofNat 32 x, BitVec.ofNat 32 out, BitVec.ofNat 32 n] g fuel = some (.ok stats, g')
        ∧ g'.elements out n = golden (g.elements x n) ∧ ByteMemory.SameBut out n g g' := by
  simp only [List.mem_cons, List.not_mem_nil, or_false, Prod.mk.injEq] at hkernel
  rcases hkernel with ⟨hk, hg⟩ | ⟨hk, hg⟩ | ⟨hk, hg⟩ <;> rw [hk, hg]
  · exact launch_golden F C assembly_nested (by decide) escapes_nested free_nested computes_nested
      nested_golden hn hcover hsmall hsize hx hout hapart
  · exact launch_golden F C assembly_loops (by decide) escapes_loops free_loops computes_loops
      loops_golden hn hcover hsmall hsize hx hout hapart
  · exact launch_golden F C assembly_combined (by decide) escapes_combined free_combined
      computes_combined combined_golden hn hcover hsmall hsize hx hout hapart

/-- Four elements that each take another path of `nested`. -/
def nestedMemory : ByteMemory :=
  ⟨[101, 4, 3, 60, 0, 0, 0, 0].flatMap fun v => [v, 0, 0, 0]⟩

theorem nested_matches_golden_four : ∃ program,
    assemble zeroChars Kernels.tortureNested = .ok program
      ∧ ∃ fuel stats g', Device.launch default program ⟨1, 1⟩ ⟨5, 1⟩ [0, 16, 4] nestedMemory fuel
          = some (.ok stats, g')
        ∧ g'.elements 16 4 = [963, 8, -18, 58]
        ∧ ByteMemory.SameBut 16 4 nestedMemory g' := by
  have hgolden : Golden.tortureNested (nestedMemory.elements 0 4) = [963, 8, -18, 58] := by
    decide +kernel
  have hx : nestedMemory.HasBuffer 0 4 := ⟨rfl, by decide⟩
  have hout : nestedMemory.HasBuffer 16 4 := ⟨rfl, by decide⟩
  have hcover : 4 ≤ (1 : Word).toNat * (5 : Word).toNat := by decide
  rw [← hgolden]
  exact torture_matches_golden default zeroChars List.mem_cons_self (by decide) hcover
    (by decide) (by decide) hx hout (.inl (by decide))

end Golden

end WarpSim
