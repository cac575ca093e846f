import WarpSim.Proofs.Geometry
import WarpSim.Proofs.Histories
import WarpSim.Proofs.Straight

/-!
# What a fault says

A launch that faults names the block, the warp, the lane, the instruction and the address of the
first access that its memory has no room for, or of the first barrier that part of a warp comes to.
Every block before it has run to completion, and of the faulting instruction just the lanes below
the one that is named have done their part.
-/

namespace WarpSim

/-- Why an instruction that the warp `w` has just issued did not complete, and what it left of
global memory. -/
inductive Stopped (i : Instruction) (w : Warp) (m : BlockMemory) (f : Fault) (g : ByteMemory) : Prop
  | barrier (hop : i.opcode = .barSync) (hdivergent : w.active ≠ w.live)
      (hmessage : f.message = "bar.sync executed in divergent code") (hlane : f.lane = 0)
      (haddress : f.address = 0) (hkept : g = m.global)
  | access (hop : Warp.isMemoryOpcode i.opcode = true)
      (hlane : hasLane (w.execMask i) f.lane = true) (haddress : f.address = w.laneAddress i f.lane)
      (hfaults : Warp.LaneFaults w m i f.lane)
      (hfirst : ∀ lane < f.lane, hasLane (w.execMask i) lane = true → ¬Warp.LaneFaults w m i lane)
      (hmessage : f.message = BlockMemory.faultMessage (Warp.accessSpace i.opcode) f.address)
      (hbelow : ∃ w' m', Warp.Took i w m
        (fun lane => hasLane (w.execMask i) lane = true ∧ lane < f.lane) w' m' ∧ g = m'.global)

namespace Warp

variable {F : FloatOps} {program : List Instruction} {i : Instruction} {w w' : Warp}
  {m m' : BlockMemory} {f : Fault}

theorem Took.record {done : Nat → Prop} {exec : LaneMask} {op : Opcode}
    (h : Took i { w with lastExec := exec, lastOpcode := op } m done w' m') :
    ∃ w', Took i w m done w' m' :=
  ⟨{ w with registers := w'.registers }, rfl, h.predicates, h.loaded, h.kept, h.stored, h.room,
    h.bytes⟩

/-- An instruction that does not complete says where it was. -/
theorem issue_fault (h : w.issue F BlockMemory.port i m = (.error f, w', m')) :
    Stopped i w m f m'.global ∧ f.block = w.context.ctaid.y * w.context.nctaid.x + w.context.ctaid.x
      ∧ f.warp = w.warpId ∧ f.pc = w.pc := by
  rcases LaneState.opcode_cases i.opcode with halu | hmem | hop | hop | hop
  · rw [issue_alu F BlockMemory.port halu] at h
    cases h
  · obtain ⟨r, w₁, m₁, hrun, hordered⟩ := memoryAccess_ordered i (w.execMask i)
      { w with lastExec := w.execMask i, lastOpcode := i.opcode } m
    rw [issue_memory F BlockMemory.port hmem, hrun] at h
    by_cases hall : ∀ lane, hasLane (w.execMask i) lane = true → ¬LaneFaults w m i lane
    · rw [(hordered.done hall).1] at h
      cases h
    · -- The lowest lane that faults is the one the loop over the lanes stops at.
      have hex : ∃ lane, hasLane (w.execMask i) lane = true ∧ LaneFaults w m i lane := by
        by_contra hno
        exact hall fun lane hl hf => hno ⟨lane, hl, hf⟩
      classical
      obtain ⟨hl, hf⟩ := Nat.find_spec hex
      have hmin : ∀ lane < Nat.find hex, hasLane (w.execMask i) lane = true →
          ¬LaneFaults w m i lane := fun lane hlt hlane hfault =>
        Nat.find_min hex hlt ⟨hlane, hfault⟩
      obtain ⟨hr, htook⟩ := hordered.first (Nat.find hex) hl hf hmin
      rw [hr] at h
      cases h
      obtain ⟨w₂, htook⟩ := htook.record
      exact ⟨.access hmem hl rfl hf hmin rfl ⟨w₂, m', htook, rfl⟩, rfl, rfl, rfl⟩
  · simp only [issue, hop] at h
    cases h
  · simp only [issue, hop] at h
    cases h
  · simp only [issue, hop] at h
    split_ifs at h with hdivergent
    · cases h
      exact ⟨.barrier hop hdivergent rfl rfl rfl rfl, rfl, rfl, rfl⟩
    · cases h

/-- What never changes of the warp with number `k` of a block, and that its lanes are threads of
the block. -/
structure Numbered (base : LaneContext) (threads k : Nat) (w : Warp) : Prop where
  partition : Partition w.toWarpState
  number : w.warpId = BitVec.ofNat 32 k
  context : w.context = { base with warpId := BitVec.ofNat 32 k }
  threads : ∀ lane, hasLane w.live lane = true → lane < 32 ∧ 32 * k + lane < threads

theorem Numbered.active {base : LaneContext} {threads k : Nat}
    (h : w.Numbered base threads k) {lane : Nat} (hl : hasLane w.active lane = true) :
    lane < 32 ∧ 32 * k + lane < threads := by
  refine h.threads lane ?_
  have honce := h.partition.once lane
  rw [WarpState.occurrences, hl] at honce
  cases hlive : hasLane w.live lane
  · rw [hlive, Bool.toNat_true, Bool.toNat_false] at honce
    omega
  · rfl

theorem numbered_micro {base : LaneContext} {threads k : Nat} (h : Numbered base threads k w)
    (hstep : MicroStep F program w w') : Numbered base threads k w' := by
  have hp := partition_micro h.partition hstep
  cases hstep with
  | resolve hit =>
    obtain ⟨-, hsame⟩ := resolveIteration_cases hit
    exact ⟨hp, hsame.warpId.trans h.number, hsame.context.trans h.context,
      by rw [hsame.live]; exact h.threads⟩
  | fall =>
    refine ⟨hp, h.number, h.context, fun lane hl => h.threads lane ?_⟩
    rw [retire] at hl
    simp only [hasLane_and_not, Bool.and_eq_true] at hl
    exact hl.1
  | @issue σ port m _ j _ _ =>
    obtain ⟨hcontext, hnumber⟩ := issue_context F port j w m
    exact ⟨hp, hnumber.trans h.number, hcontext.trans h.context,
      fun lane hl => h.threads lane (live_of_effect (issue_effect F port j w m) hl)⟩
  | release => exact ⟨hp, h.number, h.context, h.threads⟩

end Warp

namespace Scheduler

variable {F : FloatOps} {program : List Instruction} {s s' : Scheduler} {log : List Event}
  {event : Event} {P : Nat → Warp → Prop}

/-- What the steps below a warp's keep of the warp with each number, a run of the scheduler keeps of
every warp. -/
theorem numbered_advance (hmicro : ∀ k w w', P k w → Warp.MicroStep F program w w' → P k w')
    (h : ∀ k w, s.warps[k]? = some w → P k w) (hadv : s.advance F program = .running event s') :
    ∀ k w, s'.warps[k]? = some w → P k w := by
  cases advance_cases hadv with
  | skip => exact h
  | pass => exact h
  | step warp w' outcome m' hwarp hrun hstep =>
    intro k w hw
    have hw : (s.warps.set s.next w')[k]? = some w := hw
    by_cases hk : s.next = k
    · subst hk
      have hlt := (List.getElem?_eq_some_iff.1 hwarp).1
      rw [List.getElem?_set_self hlt, Option.some.injEq] at hw
      subst hw
      have hmicroRun :
        Warp.MicroRun F program warp (warp.step F BlockMemory.port program s.memory).2.1 :=
        Warp.step_micro BlockMemory.port warp s.memory
      rw [hstep] at hmicroRun
      exact Warp.micro_invariant (hmicro s.next) hmicroRun (h s.next warp hwarp)
    · rw [List.getElem?_set_ne hk] at hw
      exact h k w hw
  | release =>
    intro k w hw
    have hw : (s.warps.map fun w => { w with parked := false })[k]? = some w := hw
    rw [List.getElem?_map, Option.map_eq_some_iff] at hw
    obtain ⟨v, hv, rfl⟩ := hw
    exact hmicro k v _ (h k v hv) (.release v)

theorem numbered_run (hmicro : ∀ k w w', P k w → Warp.MicroStep F program w w' → P k w')
    (hrun : Run F program s log s') (h : ∀ k w, s.warps[k]? = some w → P k w) :
    ∀ k w, s'.warps[k]? = some w → P k w := by
  induction hrun with
  | nil => exact h
  | cons hadv _ ih => exact ih (numbered_advance hmicro h hadv)

theorem Phase.advance_fault {f : Fault} {b : Block} (h : Phase log s)
    (hret : s.advance F program = .returned (.error f) b) :
    ∃ w w' i, s.warps[s.next]? = some w ∧ w.settle program = .ready i w'
      ∧ Stopped i w' s.memory f b.memory.global
      ∧ f.block = w'.context.ctaid.y * w'.context.nctaid.x + w'.context.ctaid.x
      ∧ f.warp = w'.warpId ∧ f.pc = w'.pc := by
  unfold advance at hret
  split at hret
  · rename_i w hwarp
    split_ifs at hret with hrun
    rcases hstep : w.step F BlockMemory.port program s.memory with ⟨f' | outcome, w₁, m₁⟩
    · simp only [Block.turn, hstep] at hret
      cases hret
      rw [Warp.step] at hstep
      rcases hs : w.settle program with r | ⟨i, r⟩ <;> rw [hs] at hstep <;> simp only [] at hstep
      · cases hstep
      · exact ⟨w, r, i, hwarp, hs, Warp.issue_fault hstep⟩
    · simp only [Block.turn, hstep] at hret
      cases hret
  · rename_i hend
    split_ifs at hret with h1 h2 h3
    · cases hret
    · rw [h.progress hend (by simpa using h2)] at h3
      cases h3

end Scheduler

section Decode

theorem decodeWords_error {f : Fault} : ∀ {pc : Nat} {words : List (BitVec 64)},
    decodeWords pc words = .error f → ∃ k word e, words[k]? = some word ∧ decode word = .error e
      ∧ Decodes (words.take k) ∧ f = { message := "invalid instruction word: " ++ e.toString
                                       pc := BitVec.ofNat 16 (pc + k) }
  | pc, [], h => by cases h
  | pc, word :: words, h => by
    rw [decodeWords] at h
    rcases hw : decode word with e | i <;> rw [hw] at h
    · cases h
      exact ⟨0, word, e, rfl, hw, fun w hw => absurd hw List.not_mem_nil, rfl⟩
    · rcases hrest : decodeWords (pc + 1) words with f' | rest <;> simp only [hrest] at h
      · cases h
        obtain ⟨k, word', e, hk, hdecode, hbefore, rfl⟩ := decodeWords_error hrest
        refine ⟨k + 1, word', e, hk, hdecode, fun w hmem => ?_, by rw [Nat.succ_add_eq_add_succ]⟩
        rcases List.mem_cons.1 hmem with rfl | hmem
        · exact ⟨i, hw⟩
        · exact hbefore w hmem
      · cases h

theorem decodes_of_decodeWords {pc : Nat} {words : List (BitVec 64)} {decoded : List Instruction}
    (h : decodeWords pc words = .ok decoded) : Decodes words := by
  have hall := decodeWords_ok.1 h
  clear h
  induction hall with
  | nil => exact fun _ hw => absurd hw List.not_mem_nil
  | cons hdecode _ ih => exact List.forall_mem_cons.2 ⟨⟨_, hdecode⟩, ih⟩

end Decode

namespace Launch

variable {F : FloatOps} {l : Launch}

theorem runBlocks_error {fuel : Nat} {f : Fault} {d' : LaunchState} :
    ∀ {order : List Dim2} {d : LaunchState}, l.runBlocks F fuel order d = some (.error f, d') →
      ∃ before ctaid after d₁ log s b, order = before ++ ctaid :: after
        ∧ Completes F l d before d₁ ∧ Scheduler.Run F l.program (l.startBlock ctaid d₁) log s
        ∧ s.advance F l.program = .returned (.error f) b ∧ d'.global = b.memory.global
  | [], d, h => by cases h
  | ctaid :: order, d, h => by
    rw [runBlocks, runBlock] at h
    rcases hr : (Block.start (l.blockMemory d.global) (l.context ctaid) l.block.count
      d.stats).newPass.run F l.program fuel with _ | ⟨_ | _, b⟩ <;> rw [hr] at h
    · cases h
    · cases h
      obtain ⟨log, s, hrun, hret, -⟩ := Scheduler.run_iff.1 hr
      exact ⟨[], ctaid, order, d, log, s, b, rfl, .nil d, hrun, hret, rfl⟩
    · obtain ⟨log, s, hrun, hret, -⟩ := Scheduler.run_iff.1 hr
      obtain ⟨before, ctaid', after, d₁, log', s', b', rfl, hc, hrest⟩ := runBlocks_error h
      exact ⟨ctaid :: before, ctaid', after, d₁, log', s', b', rfl, .cons hrun hret hc, hrest⟩

end Launch

namespace Device

variable {F : FloatOps} {program : Program} {grid block : Dim2} {params : List Word}
  {g g' : ByteMemory} {f : Fault}

variable (F program grid block params g) in
/-- What the fault of a launch says, with the global memory it leaves. -/
inductive Reports : Fault → ByteMemory → Prop
  | word {pc : Nat} {word : BitVec 64} {e : IsaError} (hword : program.words[pc]? = some word)
      (hdecode : decode word = .error e) (hbefore : Decodes (program.words.take pc)) :
    Reports { message := "invalid instruction word: " ++ e.toString, pc := BitVec.ofNat 16 pc } g
  | empty (hdecodes : Decodes program.words) (hempty : block.count = 0 ∨ grid.count = 0) :
    Reports { message := "empty grid or block" } g
  | stopped {decoded : List Instruction} {ctaid : Dim2} {s₀ s : Scheduler} {log : List Event}
      {w w' : Warp} {i : Instruction} {f : Fault} {g' : ByteMemory}
      (hdecode : decodeWords 0 program.words = .ok decoded)
      (hbegins : Begins F program grid block params g ctaid s₀)
      (hrun : Scheduler.Run F decoded s₀ log s) (hwarp : s.warps[f.warp.toNat]? = some w)
      (hturn : s.next = f.warp.toNat) (hsettle : w.settle decoded = .ready i w')
      (hpc : f.pc = w'.pc) (hi : decoded[f.pc.toNat]? = some i)
      (hstopped : Stopped i w' s.memory f g') (hblock : f.block = ctaid.y * grid.x + ctaid.x)
      (hthread : 32 * f.warp.toNat + f.lane < block.count.toNat ∧ f.lane < 32) : Reports f g'

theorem numbered_begins {decoded : List Instruction} {ctaid : Dim2} {s₀ s : Scheduler}
    {log : List Event} (hbegins : Begins F program grid block params g ctaid s₀)
    (hrun : Scheduler.Run F decoded s₀ log s) {k : Nat} {w : Warp} (hwarp : s.warps[k]? = some w) :
    k < 2 ^ 27 ∧ w.Numbered { ntid := block, nctaid := grid, ctaid := ctaid }
      block.count.toNat k := by
  obtain ⟨decoded', -, -, -, before, after, d, -, -, rfl⟩ := hbegins
  refine Scheduler.numbered_run (P := fun k w => k < 2 ^ 27
    ∧ w.Numbered { ntid := block, nctaid := grid, ctaid := ctaid } block.count.toNat k)
    (fun k w w' h hstep => ⟨h.1, Warp.numbered_micro h.2 hstep⟩) hrun (fun k w hw => ?_) k w hwarp
  have hw : (Block.start _ _ block.count _).warps[k]? = some w := hw
  rw [Block.warps_start] at hw
  split_ifs at hw with hk
  rw [Option.some.injEq] at hw
  have hcount := block.count.isLt
  subst hw
  refine ⟨by omega, Warp.partition_new _ _ _, rfl, rfl, fun lane hl => ?_⟩
  rw [Block.hasLane_makeWarp (by omega)] at hl
  simpa using hl

/-- A launch that does not return its totals reports what went wrong, and where. -/
theorem launch_reports {fuel : Nat}
    (h : launch F program grid block params g fuel = some (.error f, g')) :
    Reports F program grid block params g f g' := by
  rcases hdecode : decodeWords 0 program.words with f' | decoded
  · rw [launch, hdecode] at h
    cases h
    obtain ⟨pc, word, e, hword, herror, hbefore, rfl⟩ := decodeWords_error hdecode
    rw [Nat.zero_add]
    exact .word hword herror hbefore
  · by_cases hempty : block.count = 0 ∨ grid.count = 0
    · rw [launch_empty hdecode hempty] at h
      cases h
      exact .empty (decodes_of_decodeWords hdecode) hempty
    · obtain ⟨hblock, hgrid⟩ := not_or.1 hempty
      rw [launch_run hdecode hblock hgrid] at h
      rcases hr : (Launch.ofProgram program decoded grid block params).runBlocks F fuel
        (blockOrder grid) { global := g } with _ | ⟨_ | _, d'⟩ <;> rw [hr] at h <;> cases h
      obtain ⟨before, ctaid, after, d, log, s, b, heq, hc, hrun, hret, hglobal⟩ :=
        Launch.runBlocks_error hr
      have hbegins : Begins F program grid block params g ctaid
          ((Launch.ofProgram program decoded grid block params).startBlock ctaid d) :=
        ⟨decoded, hdecode, hblock, hgrid, before, after, d, heq, hc, rfl⟩
      have hphase : Scheduler.Phase log s := Scheduler.run_induction hrun
        (fun _ _ _ _ => Scheduler.phase_advance) (Scheduler.phase_start _ _ _ _)
      obtain ⟨w, w', i, hwarp, hsettle, hstopped, hfblock, hfwarp, hfpc⟩ :=
        hphase.advance_fault hret
      obtain ⟨hlt, hnumbered⟩ := numbered_begins hbegins hrun hwarp
      have hsettle : w.settle decoded = .ready i w' := hsettle
      have hsettled := Warp.settle_micro F decoded w
      rw [hsettle] at hsettled
      obtain ⟨hmicro, hactive, hi⟩ := hsettled
      have hnumbered' : w'.Numbered { ntid := block, nctaid := grid, ctaid := ctaid }
          block.count.toNat s.next :=
        Warp.micro_invariant (fun _ _ => Warp.numbered_micro) hmicro hnumbered
      have hnumber : f.warp.toNat = s.next := by
        rw [hfwarp, hnumbered'.number, BitVec.toNat_ofNat, Nat.mod_eq_of_lt (by omega)]
      rw [hglobal]
      refine .stopped hdecode hbegins hrun (by rw [hnumber]; exact hwarp) hnumber.symm hsettle hfpc
        (by rw [hfpc]; exact hi) hstopped (by rw [hfblock, hnumbered'.context]) ?_
      rw [hnumber]
      cases hstopped with
      | barrier _ _ _ hlane =>
        obtain ⟨lane, hl⟩ := mask_ne_zero.1 (Warp.resolveIteration_settled hactive).1
        have := hnumbered'.active hl
        omega
      | access _ hlane =>
        exact (hnumbered'.active (Warp.execMask_sub_active hlane)).symm

/-- Each thread stores at its own word, and there is one thread more than there are words. -/
def edgeProgram : List Instruction :=
  [{ opcode := .movSreg }, rrr .movSreg 1 4 0, rri .shl 1 1 1, rrr .add 0 0 1, rri .shl 0 0 2,
    stGlobal 0 0, { opcode := .exit }]

def edgeKernel : Program := { words := edgeProgram.map packWord }

/-- The last thread of the second block finds no room. -/
theorem edgeKernel_reports : Reports default edgeKernel ⟨2, 1⟩ ⟨2, 1⟩ [] (.zeroed 12)
    { message := "access out of bounds", block := 1, lane := 1, pc := 5, address := 12 }
    ⟨[0, 0, 0, 0, 4, 0, 0, 0, 8, 0, 0, 0]⟩ :=
  launch_reports (show launch default edgeKernel ⟨2, 1⟩ ⟨2, 1⟩ [] (.zeroed 12) 40 = some _ by
    decide +kernel)

end Device

end WarpSim
