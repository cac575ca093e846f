import WarpSim.Checked
import WarpSim.Proofs.Analysis
import WarpSim.Proofs.Codec
import WarpSim.Proofs.Geometry

/-!
# No undefined operation is reached

The checked launch is the launch: whatever the words, the geometry, the parameters and the memory,
no check ever fails. What a step relies on is that its instruction was decoded, so that its fields
fit, and that a launch never leaves `ntid.x` zero.
-/

namespace WarpSim

open BitField

namespace Checked

@[simp] theorem ok_bind {α β : Type} (a : α) (f : α → Except Undefined β) :
    (Except.ok a >>= f) = f a := rfl

@[simp] theorem pure_ok {α : Type} (a : α) : (pure a : Except Undefined α) = .ok a := rfl

/-- An operation is defined where its condition holds. -/
theorem guarded_ok {α : Type} {u : Undefined} {p : Prop} [Decidable p] {a : α} (h : p) :
    guarded u p a = .ok a := if_pos h

section Lanes

/-- Masked with 31, a count is a defined shift of a 32-bit word. -/
theorem toNat_and_shiftMask (b : Word) : (b &&& shiftMask).toNat < 32 := by
  rw [BitVec.toNat_and]
  exact Nat.and_lt_two_pow _ (by decide : shiftMask.toNat < 2 ^ 5)

theorem laneBit_ok {lane : Nat} (h : lane < 32) : laneBit lane = .ok (WarpSim.laneBit lane) :=
  guarded_ok h

theorem hasLane_ok {lane : Nat} (h : lane < 32) (mask : LaneMask) :
    hasLane mask lane = .ok (WarpSim.hasLane mask lane) := by
  simp [hasLane, laneBit_ok h, WarpSim.hasLane]

theorem slot_ok {α : Type} {lane : Nat} (h : lane < 32) (a : Nat → α) :
    slot a lane = .ok (a lane) := guarded_ok h

/-- A loop that keeps `P`, whose first argument counts the elements visited, and whose body is
defined under it. -/
theorem foldlM_ok {β : Type} {P : Nat → β → Prop} {f : β → Nat → Except Undefined β}
    {g : β → Nat → β} {N : Nat} : ∀ {l : List Nat} {n : Nat} {b : β}, n + l.length ≤ N →
      (∀ n b lane, n < N → lane ∈ l → P n b → f b lane = .ok (g b lane) ∧ P (n + 1) (g b lane)) →
        P n b → l.foldlM f b = .ok (l.foldl g b)
  | [], n, b, _, _, _ => rfl
  | lane :: l, n, b, hn, hstep, hb => by
    rw [List.length_cons] at hn
    obtain ⟨hf, hg⟩ := hstep n b lane (by omega) List.mem_cons_self hb
    rw [List.foldlM_cons, hf, ok_bind, List.foldl_cons]
    exact foldlM_ok (by omega)
      (fun n b lane' hn h hp => hstep n b lane' hn (List.mem_cons_of_mem _ h) hp) hg

/-- A loop over the lanes of a mask keeps what its body keeps, and is defined if the body is. -/
theorem forLanes_within {β : Type} (P : Nat → β → Prop) (mask : LaneMask)
    (f : β → Nat → Except Undefined β) (g : β → Nat → β) {b : β}
    (hmono : ∀ n b, P n b → P (n + 1) b)
    (hstep : ∀ n b lane, n < 32 → lane < 32 → P n b →
      f b lane = .ok (g b lane) ∧ P (n + 1) (g b lane)) (hb : P 0 b) :
    forLanes (whenLane mask f) b
      = .ok (lanes.foldl (fun b lane => if WarpSim.hasLane mask lane then g b lane else b) b) := by
  refine foldlM_ok (P := P) (N := 32) (by decide) (fun n b lane hn hlane hp => ?_) hb
  have hlt := mem_lanes.1 hlane
  obtain ⟨hf, hg⟩ := hstep n b lane hn hlt hp
  rw [whenLane, hasLane_ok hlt, ok_bind]
  cases WarpSim.hasLane mask lane
  · exact ⟨rfl, hmono n b hp⟩
  · exact ⟨hf, hg⟩

theorem forLanes_ok {β : Type} (mask : LaneMask) (f : β → Nat → Except Undefined β)
    (g : β → Nat → β) (hstep : ∀ b lane, lane < 32 → f b lane = .ok (g b lane)) (b : β) :
    forLanes (whenLane mask f) b
      = .ok (lanes.foldl (fun b lane => if WarpSim.hasLane mask lane then g b lane else b) b) :=
  forLanes_within (fun _ _ => True) mask f g (fun _ _ h => h)
    (fun _ b lane _ h _ => ⟨hstep b lane h, trivial⟩) trivial

end Lanes

section Alu

/-- What the decoder promises of an instruction. -/
def Decoded (i : Instruction) : Prop := ∃ w, decode w = .ok i

/-- A word decodes to a valid instruction, whose registers are in the register file. -/
theorem Decoded.valid {i : Instruction} (h : Decoded i) : Valid (opcodeInfo i.opcode) i := by
  obtain ⟨w, hw⟩ := h
  obtain ⟨info, -, -, hvalidate⟩ := decode_ok.1 hw
  obtain ⟨info', hinfo, hvalid⟩ := validate_ok.1 hvalidate
  rwa [opcodeInfo, hinfo, Option.getD_some]

theorem read_ok {lane : Nat} {reg : BitVec 8} (hl : lane < 32) (hr : Fits reg 6)
    (rf : RegisterFile) : read rf lane reg = .ok (rf.read lane reg) := by
  rw [read, guarded_ok (show lane < warpSize from hl), ok_bind,
    guarded_ok (show reg < generalRegisterCount from hr)]

theorem write_ok {lane : Nat} {reg : BitVec 8} (hl : lane < 32) (hr : Fits reg 6)
    (rf : RegisterFile) (value : Word) :
    write rf lane reg value = .ok (rf.write lane reg value) := by
  rw [write, guarded_ok (show lane < warpSize from hl), ok_bind,
    guarded_ok (show reg < generalRegisterCount from hr)]

theorem readPred_ok {lane : Nat} {pred : BitVec 8} (hl : lane < 32) (hp : Fits pred 3)
    (rf : RegisterFile) : readPred rf lane pred = .ok (rf.readPred lane pred) := by
  rw [readPred, guarded_ok (show lane < warpSize from hl), ok_bind,
    guarded_ok (show pred < predicateRegisterCount from hp)]

theorem writePred_ok {lane : Nat} {pred : BitVec 8} (hl : lane < 32) (hp : pred.toNat < 8)
    (rf : RegisterFile) (value : Bool) :
    writePred rf lane pred value = .ok (rf.writePred lane pred value) := by
  rw [writePred, guarded_ok (show lane < warpSize from hl), ok_bind,
    guarded_ok (show pred < predicateRegisterCount from hp)]

/-- A zero divisor and the overflowing quotient have branches of their own. -/
theorem s32Div_ok (a b : Word) : s32Div a b = .ok (WarpSim.s32Div a b) := by
  unfold s32Div WarpSim.s32Div
  simp only [pure_ok]
  split_ifs with h1 h2
  · rfl
  · rfl
  · exact guarded_ok ⟨h1, h2⟩

theorem s32Rem_ok (a b : Word) : s32Rem a b = .ok (WarpSim.s32Rem a b) := by
  unfold s32Rem WarpSim.s32Rem
  simp only [pure_ok]
  split_ifs with h
  · rfl
  · exact guarded_ok (not_or.1 h)

theorem sra_ok (a b : Word) : sra a b = .ok (WarpSim.sra a b) := by
  unfold sra WarpSim.sra shiftRight shiftLeft
  simp only [guarded_ok (toNat_and_shiftMask b), ok_bind, pure_ok]
  split_ifs with h
  · rw [guarded_ok (by omega), ok_bind]
  · rfl

/-- A position in the block divides by its width, which no launch lets be zero. -/
theorem special_ok {ctx : LaneContext} (h : ctx.ntid.x ≠ 0) (reg : BitVec 8) (lane : Nat) :
    special ctx reg lane = .ok (ctx.special reg lane) := by
  unfold special LaneContext.special
  rcases (specialRegisterInfoOfIndex reg).map SpecialRegisterInfo.reg with _ | r
  · rfl
  · cases r <;> first | exact guarded_ok h | rfl

theorem fetch_ok {i : Instruction} (h : Decoded i) {lane : Nat} (hl : lane < 32)
    (rf : RegisterFile) : fetch i rf lane = .ok (WarpSim.fetch i rf lane) := by
  have hfit := h.valid.fit
  unfold fetch WarpSim.fetch
  rw [read_ok hl hfit.src0, read_ok hl hfit.src1]
  split_ifs <;> rfl

theorem evaluate_ok {ctx : LaneContext} (h : ctx.ntid.x ≠ 0) (F : FloatOps) (i : Instruction)
    (o : Operands) (dstOld : Word) (lane : Nat) :
    evaluate F i o dstOld lane ctx = .ok (WarpSim.evaluate F i o dstOld lane ctx) := by
  unfold evaluate
  split <;> (try rename_i hop; rw [WarpSim.evaluate, hop])
  · exact s32Div_ok _ _
  · exact s32Rem_ok _ _
  · exact guarded_ok (toNat_and_shiftMask _)
  · exact guarded_ok (toNat_and_shiftMask _)
  · exact sra_ok _ _
  · exact special_ok h _ _
  · rfl

/-- Only comparisons write predicates, and their shape bounds the number of the predicate. -/
theorem shape_of_isSetp {op : Opcode} (h : isSetp op = true) : (opcodeInfo op).shape = .prr := by
  cases op with
  | other n =>
    obtain ⟨n, hn⟩ := n
    simp only [isSetp, Opcode.number, Bool.and_eq_true] at h
    rcases hn with rfl | hn
    · exact absurd h.1 (by decide)
    · have hlt : 0x2E < n.toNat := hn
      have hle : n.toNat ≤ 0x25 := of_decide_eq_true h.2
      omega
  | _ => first | rfl | cases h

theorem executeAlu_ok {i : Instruction} (h : Decoded i) {ctx : LaneContext} (hctx : ctx.ntid.x ≠ 0)
    (F : FloatOps) (exec : LaneMask) (rf : RegisterFile) :
    executeAlu F i exec rf ctx = .ok (WarpSim.executeAlu F i exec rf ctx) := by
  refine forLanes_ok _ _ _ (fun rf lane hl => ?_) rf
  have hv := h.valid
  rw [executeAluLane, WarpSim.executeAluLane, fetch_ok h hl, ok_bind]
  split_ifs with hsetp
  · exact writePred_ok hl (hv.prr (shape_of_isSetp hsetp)) _ _
  · exact writePred_ok hl (hv.prr (shape_of_isSetp hsetp)) _ _
  · rw [read_ok hl hv.fit.dst, ok_bind, evaluate_ok hctx, ok_bind, write_ok hl hv.fit.dst]

end Alu

section Memory

/-- Each lane adds one segment at most, so the array has room for them. -/
theorem distinctSegments_ok (addresses : Nat → Word) (exec : LaneMask) :
    distinctSegments addresses exec = .ok (WarpSim.distinctSegments addresses exec) := by
  have hloop := forLanes_within (fun n seen => seen.length ≤ n) exec (visitSegment addresses)
    (fun seen lane =>
      if addresses lane / segmentBytes ∈ seen then seen
      else seen ++ [addresses lane / segmentBytes])
    (fun n seen h => Nat.le_succ_of_le h) (fun n seen lane hn hl h => by
      simp only [visitSegment, slot_ok hl, ok_bind, pure_ok]
      rw [guarded_ok (show seen.length ≤ warpSize by unfold warpSize; omega), ok_bind]
      split_ifs
      · exact ⟨rfl, Nat.le_succ_of_le h⟩
      · exact ⟨guarded_ok (show seen.length < warpSize by unfold warpSize; omega),
          by simpa using h⟩)
    (show ([] : List Word).length ≤ 0 from Nat.le_refl 0)
  rw [distinctSegments, hloop]
  rfl

/-- A bank gets one address from each lane at most, so its bucket has room for them. -/
theorem bankConflictDegree_ok (addresses : Nat → Word) (exec : LaneMask) :
    bankConflictDegree addresses exec = .ok (WarpSim.bankConflictDegree addresses exec) := by
  have hloop := forLanes_within (fun n s => s.Within n) exec (visitBank addresses)
    (fun s lane => s.visit (addresses lane))
    (fun n s h => ⟨h.1, Nat.le_succ_of_le h.2⟩) (fun n s lane hn hl h => by
      refine ⟨?_, (BankScan.within_visit h _).1⟩
      have hlen := (h.bank (addresses lane / bankWidthBytes % bankCount)).trans h.degree
      rw [visitBank, slot_ok hl, ok_bind]
      simp only [pure_ok]
      rw [guarded_ok (BitVec.umod_lt _ (by decide)), ok_bind,
        guarded_ok (show _ ≤ warpSize by unfold warpSize; omega), ok_bind]
      split_ifs with hmem
      · rw [BankScan.visit, if_pos hmem]
      · exact guarded_ok (show _ < warpSize by unfold warpSize; omega))
    (show BankScan.Within {} 0 from ⟨fun _ => Nat.le_refl 0, Nat.le_refl 0⟩)
  rw [bankConflictDegree, hloop]
  rfl

theorem onWarpAccess_ok (space : Space) (isStore : Bool) (addresses : Nat → Word) (exec : LaneMask)
    (m : BlockMemory) : onWarpAccess space isStore addresses exec m
      = .ok (m.onWarpAccess space isStore addresses exec) := by
  cases space
  · simp only [onWarpAccess, BlockMemory.onWarpAccess, onGlobal, MemoryStats.onGlobal,
      distinctSegments_ok, ok_bind, pure_ok]
    split_ifs <;> rfl
  · simp only [onWarpAccess, BlockMemory.onWarpAccess, onShared, MemoryStats.onShared,
      bankConflictDegree_ok, ok_bind, pure_ok]
    split_ifs <;> rfl
  · rfl

/-- Behind the check of an access, every byte of the word is in the buffer. -/
theorem check_ok {m : ByteMemory} {address : Word} {lane : Nat} {u : Unit}
    (h : m.check address lane = .ok u) : address.toNat + 4 ≤ m.size := by
  unfold ByteMemory.check at h
  split_ifs at h with h1 h2
  exact Nat.not_lt.1 h2

theorem load32_ok (m : ByteMemory) (address : Word) (lane : Nat) :
    load32 m address lane = .ok (m.load32 address lane) := by
  unfold load32 ByteMemory.load32
  rcases h : m.check address lane with e | u
  · rfl
  · exact guarded_ok (check_ok h)

theorem store32_ok (m : ByteMemory) (address value : Word) (lane : Nat) :
    store32 m address value lane = .ok (m.store32 address value lane) := by
  unfold store32 ByteMemory.store32
  rcases h : m.check address lane with e | u
  · rfl
  · exact guarded_ok (check_ok h)

theorem load_ok (space : Space) (address : Word) (lane : Nat) (m : BlockMemory) :
    load space address lane m = .ok (BlockMemory.port.load space address lane m) := by
  cases space
  · simp only [load, load32_ok, ok_bind]
    rfl
  · simp only [load, load32_ok, ok_bind]
    rfl
  · show load .param address lane m = .ok (m.load .param address lane)
    unfold load BlockMemory.load
    simp only [pure_ok]
    split_ifs with h
    · rw [List.getElem?_eq_none h]
    · rw [List.getElem?_eq_getElem (Nat.lt_of_not_le h)]

theorem store_ok (space : Space) (address value : Word) (lane : Nat) (m : BlockMemory) :
    store space address value lane m = .ok (BlockMemory.port.store space address value lane m) := by
  cases space
  · simp only [store, store32_ok, ok_bind, BlockMemory.port, BlockMemory.store]
    rcases m.global.store32 address value lane with e | g <;> rfl
  · simp only [store, store32_ok, ok_bind, BlockMemory.port, BlockMemory.store]
    rcases m.shared.store32 address value lane with e | g <;> rfl
  · rfl

end Memory

section Warp

theorem execMask_ok {i : Instruction} (h : Decoded i) (w : Warp) :
    execMask w i = .ok (w.execMask i) := by
  unfold execMask Warp.execMask
  split_ifs
  · have hloop := forLanes_ok w.active (guardLane w i) (fun mask lane =>
      if (w.registers.readPred lane i.guard.pred != i.guard.negate) = true then
        mask ||| WarpSim.laneBit lane
      else mask) (fun mask lane hl => by
        rw [guardLane, readPred_ok hl h.valid.fit.pred, ok_bind, laneBit_ok hl]
        split_ifs <;> rfl) 0
    rw [hloop]
    congr 2
    funext mask lane
    cases WarpSim.hasLane w.active lane <;> simp
  · rfl

/-- Filling the slots of the executing lanes is a function of the lane. -/
theorem foldl_update (exec : LaneMask) (address : Nat → Word) : ∀ (l : List Nat) (a : Nat → Word)
    (lane : Nat), l.foldl (fun a lane =>
      if WarpSim.hasLane exec lane then Function.update a lane (address lane) else a) a lane
        = if lane ∈ l ∧ WarpSim.hasLane exec lane = true then address lane else a lane
  | [], a, lane => by simp
  | k :: l, a, lane => by
    rw [List.foldl_cons, foldl_update exec address l]
    by_cases hl : lane ∈ l ∧ WarpSim.hasLane exec lane = true
    · rw [if_pos hl, if_pos ⟨List.mem_cons_of_mem _ hl.1, hl.2⟩]
    · rw [if_neg hl]
      by_cases hk : lane = k
      · subst hk
        by_cases he : WarpSim.hasLane exec lane = true <;> simp [he]
      · have hl' : ¬(lane ∈ k :: l ∧ WarpSim.hasLane exec lane = true) := by simpa [hk] using hl
        rw [if_neg hl']
        split_ifs
        · exact Function.update_of_ne hk _ _
        · rfl

/-- Only the addresses of executing lanes are computed, and no other slot is read. -/
theorem accessAddresses_ok {i : Instruction} (h : Decoded i) (w : Warp) (exec : LaneMask) :
    accessAddresses w i exec = .ok (w.accessAddresses i exec) := by
  have hloop := forLanes_ok exec (addressLane w i) (fun a lane =>
      Function.update a lane (if Warp.accessSpace i.opcode = .param then i.imm
        else w.registers.read lane i.src0 + i.imm)) (fun a lane hl => by
    rw [addressLane, laneAddress, read_ok hl h.valid.fit.src0]
    split_ifs <;> exact guarded_ok hl) fun _ => 0
  rw [accessAddresses, hloop]
  congr 1
  funext lane
  rw [foldl_update, Warp.accessAddresses]
  by_cases he : WarpSim.hasLane exec lane = true
  · rw [if_pos ⟨hasLane_mem_lanes he, he⟩, if_pos he]
  · rw [if_neg (fun hc => he hc.2), if_neg he]

theorem accessLanes_ok {i : Instruction} (h : Decoded i) (exec : LaneMask)
    (addresses : Nat → Word) :
    ∀ {l : List Nat} (w : Warp) (m : BlockMemory), (∀ lane ∈ l, lane < 32) →
      accessLanes i exec addresses l w m
        = .ok (Warp.accessLanes BlockMemory.port i exec addresses l w m)
  | [], w, m, _ => rfl
  | lane :: rest, w, m, hl => by
    have hlt := hl lane List.mem_cons_self
    have ih := fun w m => accessLanes_ok h exec addresses (l := rest) w m
      fun k hk => hl k (List.mem_cons_of_mem _ hk)
    have hfit := h.valid.fit
    rw [accessLanes, Warp.accessLanes, hasLane_ok hlt, ok_bind]
    simp only [slot_ok hlt, read_ok hlt hfit.src1, store_ok, load_ok, ok_bind, pure_ok, ih]
    split_ifs
    · rfl
    · rcases BlockMemory.port.store _ _ _ _ m with ⟨e | u, m'⟩ <;> rfl
    · rcases BlockMemory.port.load _ _ _ m with ⟨e | value, m'⟩
      · rfl
      · simp only [write_ok hlt hfit.dst, ok_bind]

theorem memoryAccess_ok {i : Instruction} (h : Decoded i) (exec : LaneMask) (w : Warp)
    (m : BlockMemory) :
    memoryAccess i exec w m = .ok (w.memoryAccess BlockMemory.port i exec m) := by
  have hlanes : ∀ m, accessLanes i exec (w.accessAddresses i exec) lanes w m = _ :=
    fun m => accessLanes_ok h exec _ w m fun _ => mem_lanes.1
  rw [memoryAccess, accessAddresses_ok h, ok_bind, onWarpAccess_ok, Warp.memoryAccess]
  split_ifs <;> exact hlanes _

variable (F : FloatOps)

/-- Every decoded instruction is issued as if nothing were checked. -/
theorem issue_ok {i : Instruction} (h : Decoded i) {w : Warp} (hctx : w.context.ntid.x ≠ 0)
    (m : BlockMemory) : issue F i w m = .ok (w.issue F BlockMemory.port i m) := by
  have hmem := memoryAccess_ok h (w.execMask i)
    { w with lastExec := w.execMask i, lastOpcode := i.opcode } m
  unfold issue Warp.issue
  rw [execMask_ok h, ok_bind]
  simp only [hmem, executeAlu_ok h hctx, ok_bind, pure_ok]
  split <;> simp only [*]
  iterate 5
    rcases Warp.memoryAccess BlockMemory.port i _ _ m with ⟨f | u, w', m'⟩ <;> rfl

/-- So is every step of a warp whose program was decoded. -/
theorem step_ok {program : List Instruction} (hprogram : ∀ i ∈ program, Decoded i) {w : Warp}
    (hctx : w.context.ntid.x ≠ 0) (m : BlockMemory) :
    step F program w m = .ok (w.step F BlockMemory.port program m) := by
  have hsettle := Warp.settle_micro F program w
  rcases hs : w.settle program with r | ⟨i, r⟩ <;> rw [step, Warp.step, hs]
  · rfl
  · rw [hs] at hsettle
    obtain ⟨hrun, -, hi⟩ := hsettle
    simp only [hi]
    refine issue_ok F (hprogram _ (List.mem_of_getElem? hi)) ?_ m
    rwa [Warp.microRun_context hrun]

end Warp

section Block

variable (F : FloatOps) {program : List Instruction}

theorem countIssue_ok (s : LaunchStats) (warp : Warp) :
    countIssue s warp = .ok (s.countIssue warp) := guarded_ok (Warp.laneCount_le warp.lastExec)

theorem turn_ok (hprogram : ∀ i ∈ program, Decoded i) {warp : Warp}
    (hctx : warp.context.ntid.x ≠ 0) (b : Block) (i : Nat) :
    turn F program b i warp = .ok (b.turn F program i warp) := by
  rw [turn, step_ok F hprogram hctx, ok_bind, Block.turn]
  rcases warp.step F BlockMemory.port program b.memory with ⟨f | outcome, w', m'⟩
  · rfl
  · simp only [countIssue_ok, pure_ok]
    split_ifs <;> rfl

/-- The warps of a block with positions in it. -/
def Placed (b : Block) : Prop := ∀ w ∈ b.warps, w.context.ntid.x ≠ 0

/-- And so is every action of the scheduler of a block. -/
theorem advance_ok (hprogram : ∀ i ∈ program, Decoded i) {s : Scheduler} (hs : Placed s.toBlock) :
    advance F program s = .ok (s.advance F program) := by
  unfold advance
  rcases hw : s.warps[s.next]? with _ | warp
  · rfl
  · unfold Scheduler.advance
    simp only [hw, turn_ok F hprogram (hs warp (List.mem_of_getElem? hw)), ok_bind, pure_ok]
    split_ifs
    · rfl
    · rcases s.turn F program s.next warp with ⟨f | outcome, b⟩ <;> rfl

theorem placed_run {s s' : Scheduler} {log : List Event} (h : Scheduler.Run F program s log s')
    (hs : Placed s.toBlock) : Placed s'.toBlock :=
  Scheduler.warps_run (fun w w' hw hmicro => by rwa [Warp.micro_context hmicro]) h hs

theorem run_ok (hprogram : ∀ i ∈ program, Decoded i) : ∀ (fuel : Nat) {s : Scheduler},
    Placed s.toBlock → run F program s fuel = .ok (s.run F program fuel)
  | 0, s, _ => rfl
  | fuel + 1, s, hs => by
    rw [run, advance_ok F hprogram hs, ok_bind, Scheduler.run]
    rcases hadv : s.advance F program with ⟨event, s'⟩ | ⟨result, b⟩
    · exact run_ok hprogram fuel (placed_run F (.cons hadv (.nil s')) hs)
    · rfl

/-- A warp has 32 lanes at most, and a full one is not made by a shift. -/
theorem makeWarp_ok (lanesInBlock : Word) (base : LaneContext) (w : Word) :
    makeWarp lanesInBlock base w = .ok (Block.makeWarp lanesInBlock base w) := by
  have hmask : ∀ inWarp : Word, inWarp.toNat ≤ 32 →
      liveMask inWarp = .ok (if inWarp = BitVec.ofNat 32 warpSize then fullMask
        else WarpSim.laneBit inWarp.toNat - 1) := by
    intro inWarp hle
    unfold liveMask
    split_ifs with h
    · rfl
    · have hne : inWarp.toNat ≠ 32 := fun hc => h (BitVec.eq_of_toNat_eq hc)
      rw [laneBit_ok (by omega), ok_bind]
      rfl
  rw [makeWarp, hmask]
  · rfl
  · split_ifs with h
    · exact Nat.le_of_lt h
    · exact Nat.le_refl 32

theorem mapM_ok {α β : Type} {f : α → Except Undefined β} {g : α → β} (h : ∀ a, f a = .ok (g a)) :
    ∀ l : List α, l.mapM f = .ok (l.map g)
  | [] => rfl
  | a :: l => by
    rw [List.mapM_cons, h, ok_bind, mapM_ok h l]
    rfl

theorem start_ok (memory : BlockMemory) (base : LaneContext) (lanesInBlock : Word)
    (stats : LaunchStats) : start memory base lanesInBlock stats
      = .ok (Block.start memory base lanesInBlock stats) := by
  rw [start]
  simp only [mapM_ok fun w => makeWarp_ok lanesInBlock base (BitVec.ofNat 32 w)]
  rfl

end Block

section Launch

variable (F : FloatOps)

theorem placed_startBlock {l : Launch} (h : l.block.count ≠ 0) (ctaid : Dim2) (d : LaunchState) :
    Placed (l.startBlock ctaid d).toBlock := by
  intro w hw
  obtain ⟨n, -, rfl⟩ := List.mem_map.1 hw
  rintro hx
  have hx' : l.block.x = 0 := hx
  exact h (by rw [Dim2.count, hx', BitVec.ofNat_eq_ofNat, BitVec.zero_mul])

/-- Blocks of a launch that is not empty run the same with all operations checked. -/
theorem runBlocks_ok {l : Launch} (hprogram : ∀ i ∈ l.program, Decoded i)
    (hblock : l.block.count ≠ 0) (fuel : Nat) : ∀ (order : List Dim2) (d : LaunchState),
      runBlocks F l fuel order d = .ok (l.runBlocks F fuel order d)
  | [], d => rfl
  | ctaid :: order, d => by
    have hrun := run_ok F hprogram fuel (placed_startBlock hblock ctaid d)
    rw [Launch.startBlock] at hrun
    rw [runBlocks, start_ok, ok_bind, hrun, ok_bind, Launch.runBlocks, runBlock]
    rcases (Block.start _ _ _ _).newPass.run F l.program fuel with _ | ⟨f | u, b⟩
    · rfl
    · rfl
    · exact runBlocks_ok hprogram hblock fuel order _

/-- What a launch executes has been decoded. -/
theorem decoded_of_decodeWords {words : List (BitVec 64)} {decoded : List Instruction} {pc : Nat}
    (h : decodeWords pc words = .ok decoded) : ∀ i ∈ decoded, Decoded i := by
  intro i hi
  obtain ⟨k, hk⟩ := List.mem_iff_getElem?.1 hi
  have hall := decodeWords_ok.1 h
  obtain ⟨hlt, rfl⟩ := List.getElem?_eq_some_iff.1 hk
  exact ⟨_, hall.get (by rw [hall.length_eq]; exact hlt) hlt⟩

end Launch

end Checked

namespace Device

open Checked

/-- No undefined operation is reachable: a launch whose undefined operations are checked is the
launch, and in every state a launch reaches the next action passes its checks. -/
theorem no_undefined_operation (F : FloatOps) (program : Program) (grid block : Dim2)
    (params : List Word) (global : ByteMemory) :
    (∀ fuel, Checked.launch F program grid block params global fuel
      = .ok (launch F program grid block params global fuel))
    ∧ ∀ decoded ctaid s log s', decodeWords 0 program.words = .ok decoded →
      Begins F program grid block params global ctaid s → Scheduler.Run F decoded s log s' →
        Checked.advance F decoded s' = .ok (s'.advance F decoded) := by
  constructor
  · intro fuel
    unfold Checked.launch launch
    rcases hdecode : decodeWords 0 program.words with f | decoded
    · rfl
    · simp only [pure_ok]
      split_ifs with hempty
      · rfl
      · rw [runBlocks_ok F (decoded_of_decodeWords hdecode) (not_or.1 hempty).1, ok_bind]
        rcases (Launch.ofProgram program decoded grid block params).runBlocks F fuel
          (blockOrder grid) _ with _ | ⟨f | u, d⟩ <;> rfl
  · rintro decoded ctaid s log s' hdecode ⟨decoded', -, hblock, -, before, after, d, -, -, rfl⟩ hrun
    exact advance_ok F (decoded_of_decodeWords hdecode)
      (placed_run F hrun (placed_startBlock hblock ctaid d))

/-- Two warps that branch and store: the action of the second one at its store. -/
theorem skipProgram_checked :
    ∃ s s' log, Begins default skipProgram ⟨1, 1⟩ ⟨64, 1⟩ [] ⟨[0, 0, 0, 0]⟩ ⟨0, 0⟩ s
      ∧ Scheduler.Run default skipping s log s' ∧ log.length = 7
      ∧ Checked.advance default skipping s' = .ok (s'.advance default skipping) := by
  have hbegins : Begins default skipProgram ⟨1, 1⟩ ⟨64, 1⟩ [] ⟨[0, 0, 0, 0]⟩ ⟨0, 0⟩
      ((Launch.ofProgram skipProgram skipping ⟨1, 1⟩ ⟨64, 1⟩ []).startBlock ⟨0, 0⟩
        { global := ⟨[0, 0, 0, 0]⟩ }) :=
    ⟨_, decode_skipProgram, by decide, by decide, [], [], _, by decide, .nil _, rfl⟩
  have hrun := Scheduler.run_runFor default skipping 7
    ((Launch.ofProgram skipProgram skipping ⟨1, 1⟩ ⟨64, 1⟩ []).startBlock ⟨0, 0⟩
      { global := ⟨[0, 0, 0, 0]⟩ })
  exact ⟨_, _, _, hbegins, hrun, by decide +kernel,
    (no_undefined_operation default skipProgram ⟨1, 1⟩ ⟨64, 1⟩ [] ⟨[0, 0, 0, 0]⟩).2 _ _ _ _ _
      decode_skipProgram hbegins hrun⟩

end Device

end WarpSim
