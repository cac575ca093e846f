import WarpSim.Launch
import WarpSim.Proofs.Phases
import Mathlib.Data.List.Forall2

/-!
# Launches as runs

A launch is a run of its blocks' schedulers, one after the other. The facts here say which block
begins when, and carry an invariant of the scheduler over a whole launch.
-/

namespace WarpSim

namespace Scheduler

variable {F : FloatOps} {program : List Instruction}

/-- The fuelled loop returns what a run of the scheduler ends in. -/
theorem run_iff {r : Except Fault Unit} {b : Block} : ∀ {fuel : Nat} {s : Scheduler},
    s.run F program fuel = some (r, b) ↔ ∃ log s', Run F program s log s'
      ∧ s'.advance F program = .returned r b ∧ log.length < fuel
  | 0, s => by simp [run]
  | fuel + 1, s => by
    rw [run]
    constructor
    · intro h
      rcases hadv : s.advance F program with ⟨event, s₁⟩ | ⟨r', b'⟩ <;> rw [hadv] at h
      · obtain ⟨log, s', hrun, hret, hlen⟩ := run_iff.1 h
        exact ⟨event :: log, s', .cons hadv hrun, hret, Nat.succ_lt_succ hlen⟩
      · cases h
        exact ⟨[], s, .nil s, hadv, Nat.succ_pos fuel⟩
    · rintro ⟨log, s', hrun, hret, hlen⟩
      cases hrun with
      | nil => rw [hret]
      | cons hadv hrun =>
        rw [hadv]
        exact run_iff.2 ⟨_, s', hrun, hret, Nat.lt_of_succ_lt_succ hlen⟩

/-- The actions recorded are those of the run that ends. -/
theorem runFor_of_run {r : Except Fault Unit} {b : Block} {s s' : Scheduler} {log : List Event}
    (hrun : Run F program s log s') (hret : s'.advance F program = .returned r b) {fuel : Nat}
    (hle : log.length ≤ fuel) : s.runFor F program fuel = (log, s') := by
  induction hrun generalizing fuel with
  | nil s =>
    cases fuel with
    | zero => rfl
    | succ fuel => rw [runFor, hret]
  | cons hadv _ ih =>
    obtain ⟨k, rfl⟩ : ∃ k, fuel = k + 1 := ⟨fuel - 1, by simp only [List.length_cons] at hle; omega⟩
    rw [runFor, hadv]
    simp only [ih hret (Nat.le_of_succ_le_succ hle)]

theorem run_mono {s : Scheduler} {fuel fuel' : Nat} {r : Except Fault Unit × Block}
    (h : s.run F program fuel = some r) (hle : fuel ≤ fuel') : s.run F program fuel' = some r := by
  obtain ⟨log, s', hrun, hret, hlen⟩ := run_iff.1 h
  exact run_iff.2 ⟨log, s', hrun, hret, Nat.lt_of_lt_of_le hlen hle⟩

theorem Run.append {s s' s'' : Scheduler} {log log' : List Event} (h : Run F program s log s')
    (h' : Run F program s' log' s'') : Run F program s (log ++ log') s'' := by
  induction h with
  | nil => exact h'
  | cons hadv _ ih => exact .cons hadv (ih h')

/-- The faults a block can end in. -/
theorem advance_message {s : Scheduler} {f : Fault} {b : Block}
    (h : s.advance F program = .returned (.error f) b) :
    f.message ∈ "scheduler made no progress" :: "bar.sync executed in divergent code"
      :: BlockMemory.messages := by
  unfold advance at h
  split at h
  · rename_i warp hwarp
    split_ifs at h with hrun
    rcases hstep : warp.step F BlockMemory.port program s.memory with ⟨f' | o, w', m'⟩
    · simp only [Block.turn, hstep] at h
      cases h
      exact List.mem_cons_of_mem _ (Warp.step_message (by rw [hstep]))
    · simp only [Block.turn, hstep] at h
      cases h
  · split_ifs at h <;> cases h
    exact List.mem_cons_self

end Scheduler

section Order

theorem mem_blockOrder {grid c : Dim2} :
    c ∈ blockOrder grid ↔ c.x.toNat < grid.x.toNat ∧ c.y.toNat < grid.y.toNat := by
  unfold blockOrder
  simp only [List.mem_flatMap, List.mem_map, List.mem_range]
  constructor
  · rintro ⟨y, hy, x, hx, rfl⟩
    have hx' := grid.x.isLt
    have hy' := grid.y.isLt
    simp only [BitVec.toNat_ofNat]
    exact ⟨by omega, by omega⟩
  · rintro ⟨hx, hy⟩
    refine ⟨c.y.toNat, hy, c.x.toNat, hx, ?_⟩
    simp

/-- The position of a block in launch order. -/
def linearBlock (grid c : Dim2) : Nat := c.x.toNat + c.y.toNat * grid.x.toNat

/-- Launch order is the order of the linear block index. -/
theorem blockOrder_pairwise (grid : Dim2) :
    (blockOrder grid).Pairwise fun c c' => linearBlock grid c < linearBlock grid c' := by
  have hx := grid.x.isLt
  have hy := grid.y.isLt
  unfold blockOrder linearBlock
  rw [List.pairwise_flatMap]
  refine ⟨fun y hy' => ?_, ?_⟩
  · rw [List.pairwise_map]
    refine List.Pairwise.imp_of_mem (fun {a b} ha hb hab => ?_) List.pairwise_lt_range
    rw [List.mem_range] at ha hb
    simp only [BitVec.toNat_ofNat]
    rw [Nat.mod_eq_of_lt (a := a) (by omega), Nat.mod_eq_of_lt (a := b) (by omega)]
    exact Nat.add_lt_add_right hab _
  · refine List.Pairwise.imp_of_mem (fun {a b} ha hb hab => ?_) List.pairwise_lt_range
    rw [List.mem_range] at ha hb
    intro c hc c' hc'
    obtain ⟨i, hi, rfl⟩ := List.mem_map.1 hc
    obtain ⟨j, hj, rfl⟩ := List.mem_map.1 hc'
    rw [List.mem_range] at hi hj
    simp only [BitVec.toNat_ofNat]
    rw [Nat.mod_eq_of_lt (a := i) (by omega), Nat.mod_eq_of_lt (a := j) (by omega),
      Nat.mod_eq_of_lt (a := a) (by omega), Nat.mod_eq_of_lt (a := b) (by omega)]
    have h1 : (a + 1) * grid.x.toNat ≤ b * grid.x.toNat := Nat.mul_le_mul_right _ hab
    rw [Nat.succ_mul] at h1
    omega

end Order

namespace Launch

variable {F : FloatOps} (l : Launch)

theorem runBlocks_cons {fuel : Nat} {ctaid : Dim2} {order : List Dim2} {d d' : LaunchState} :
    l.runBlocks F fuel (ctaid :: order) d = some (.ok (), d') ↔
      ∃ b, (l.startBlock ctaid d).run F l.program fuel = some (.ok (), b)
        ∧ l.runBlocks F fuel order (l.finishBlock b) = some (.ok (), d') := by
  rw [runBlocks, runBlock, startBlock]
  rcases (Block.start (l.blockMemory d.global) (l.context ctaid) l.block.count d.stats).newPass.run
    F l.program fuel with _ | ⟨_ | _, b⟩ <;> simp

theorem runBlocks_mono {fuel fuel' : Nat} (hle : fuel ≤ fuel')
    {r : Except Fault Unit × LaunchState} : ∀ {order : List Dim2} {d : LaunchState},
      l.runBlocks F fuel order d = some r → l.runBlocks F fuel' order d = some r
  | [], d, h => h
  | ctaid :: order, d, h => by
    rw [runBlocks, runBlock] at h ⊢
    rcases hr : (Block.start (l.blockMemory d.global) (l.context ctaid) l.block.count
      d.stats).newPass.run F l.program fuel with _ | ⟨_ | _, b⟩ <;> rw [hr] at h
    · cases h
    · rw [Scheduler.run_mono hr hle]
      exact h
    · rw [Scheduler.run_mono hr hle]
      exact runBlocks_mono hle h

theorem runBlocks_message {fuel : Nat} {f : Fault} {d' : LaunchState} :
    ∀ {order : List Dim2} {d : LaunchState}, l.runBlocks F fuel order d = some (.error f, d') →
      f.message ∈ "scheduler made no progress" :: "bar.sync executed in divergent code"
        :: BlockMemory.messages
  | [], d, h => by cases h
  | ctaid :: order, d, h => by
    rw [runBlocks, runBlock] at h
    rcases hr : (Block.start (l.blockMemory d.global) (l.context ctaid) l.block.count
      d.stats).newPass.run F l.program fuel with _ | ⟨_ | _, b⟩ <;> rw [hr] at h
    · cases h
    · cases h
      obtain ⟨log, s, -, hret, -⟩ := Scheduler.run_iff.1 hr
      exact Scheduler.advance_message hret
    · exact runBlocks_message h

/-- The listed blocks run to completion, one after the other. -/
inductive Completes (F : FloatOps) (l : Launch) : LaunchState → List Dim2 → LaunchState → Prop
  | nil (d : LaunchState) : Completes F l d [] d
  | cons {ctaid : Dim2} {order : List Dim2} {d d' : LaunchState} {log : List Event} {s : Scheduler}
      {b : Block} (run : Scheduler.Run F l.program (l.startBlock ctaid d) log s)
      (ret : s.advance F l.program = .returned (.ok ()) b)
      (rest : Completes F l (l.finishBlock b) order d') : Completes F l d (ctaid :: order) d'

theorem completes_iff : ∀ {order : List Dim2} {d d' : LaunchState},
    Completes F l d order d' ↔ ∃ fuel, l.runBlocks F fuel order d = some (.ok (), d')
  | [], d, d' => by
    constructor
    · rintro ⟨⟩
      exact ⟨0, rfl⟩
    · rintro ⟨fuel, h⟩
      cases h
      exact .nil d
  | ctaid :: order, d, d' => by
    constructor
    · intro h
      cases h with
      | @cons _ _ _ _ log s b run ret rest =>
        obtain ⟨fuel, hrest⟩ := completes_iff.1 rest
        refine ⟨log.length + 1 + fuel, (runBlocks_cons l).2 ⟨b, ?_, ?_⟩⟩
        · exact Scheduler.run_iff.2 ⟨log, s, run, ret, by omega⟩
        · exact runBlocks_mono l (by omega) hrest
    · rintro ⟨fuel, h⟩
      obtain ⟨b, hb, hrest⟩ := (runBlocks_cons l).1 h
      obtain ⟨log, s, run, ret, -⟩ := Scheduler.run_iff.1 hb
      exact .cons run ret (completes_iff.2 ⟨fuel, hrest⟩)

end Launch

section Decode

/-- The words of a program all decode. -/
def Decodes (words : List (BitVec 64)) : Prop := ∀ w ∈ words, ∃ i, decode w = .ok i

theorem decodeWords_ok : ∀ {pc : Nat} {words : List (BitVec 64)} {decoded : List Instruction},
    decodeWords pc words = .ok decoded ↔ List.Forall₂ (fun w i => decode w = .ok i) words decoded
  | pc, [], decoded => by
    rw [decodeWords, List.forall₂_nil_left_iff, Except.ok.injEq, eq_comm]
  | pc, w :: words, decoded => by
    rw [decodeWords]
    rcases hw : decode w with e | i
    · simp [List.forall₂_cons_left_iff, hw]
    · rcases hrest : decodeWords (pc + 1) words with f | rest
      · simp only [List.forall₂_cons_left_iff, hw]
        constructor
        · nofun
        · rintro ⟨j, js, -, hjs, -⟩
          rw [decodeWords_ok.2 hjs] at hrest
          cases hrest
      · simp only [List.forall₂_cons_left_iff, hw, Except.ok.injEq]
        constructor
        · rintro rfl
          exact ⟨i, rest, rfl, decodeWords_ok.1 hrest, rfl⟩
        · rintro ⟨j, js, rfl, hjs, rfl⟩
          rw [decodeWords_ok.2 hjs] at hrest
          cases hrest
          rfl

theorem decodeWords_of_decodes {words : List (BitVec 64)} (h : Decodes words) (pc : Nat) :
    ∃ decoded, decodeWords pc words = .ok decoded := by
  induction words generalizing pc with
  | nil => exact ⟨[], rfl⟩
  | cons w words ih =>
    obtain ⟨i, hi⟩ := h w List.mem_cons_self
    obtain ⟨rest, hrest⟩ := ih (fun v hv => h v (List.mem_cons_of_mem _ hv)) (pc + 1)
    exact ⟨i :: rest, by rw [decodeWords, hi]; simp only [hrest]⟩

end Decode

namespace Device

variable (F : FloatOps) (program : Program) (grid block : Dim2) (params : List Word)
  (global : ByteMemory)

/-- The launch comes to the block `ctaid`: those before it in launch order have run to completion,
and `s` is its scheduler before the first pass. -/
def Begins (ctaid : Dim2) (s : Scheduler) : Prop :=
  ∃ decoded, decodeWords 0 program.words = .ok decoded ∧ block.count ≠ 0 ∧ grid.count ≠ 0
    ∧ ∃ before after d, blockOrder grid = before ++ ctaid :: after
      ∧ Launch.Completes F (.ofProgram program decoded grid block params)
        { global := global } before d
      ∧ s = (Launch.ofProgram program decoded grid block params).startBlock ctaid d

variable {F program grid block params global}

theorem launch_empty {decoded : List Instruction}
    (hdecode : decodeWords 0 program.words = .ok decoded)
    (h : block.count = 0 ∨ grid.count = 0) (fuel : Nat) :
    launch F program grid block params global fuel
      = some (.error { message := "empty grid or block" }, global) := by
  rw [launch, hdecode]
  exact if_pos h

theorem launch_run {decoded : List Instruction}
    (hdecode : decodeWords 0 program.words = .ok decoded)
    (hblock : block.count ≠ 0) (hgrid : grid.count ≠ 0) (fuel : Nat) :
    launch F program grid block params global fuel =
      match (Launch.ofProgram program decoded grid block params).runBlocks F fuel
        (blockOrder grid) { global := global } with
      | none => none
      | some (.error f, d) => some (.error f, d.global)
      | some (.ok (), d) => some (.ok d.stats, d.global) := by
  rw [launch, hdecode]
  refine (if_neg (not_or.2 ⟨hblock, hgrid⟩)).trans ?_
  rcases (Launch.ofProgram program decoded grid block params).runBlocks F fuel
    (blockOrder grid) { global := global } with _ | ⟨_ | _, d⟩ <;> rfl

/-- More fuel does not change what a launch returns. -/
theorem launch_mono {fuel fuel' : Nat} {r : Except Fault LaunchStats × ByteMemory}
    (h : launch F program grid block params global fuel = some r) (hle : fuel ≤ fuel') :
    launch F program grid block params global fuel' = some r := by
  rw [launch] at h ⊢
  rcases hdecode : decodeWords 0 program.words with f | decoded <;> rw [hdecode] at h
  · exact h
  · simp only [] at h ⊢
    split_ifs at h ⊢
    · exact h
    · rcases hr : (Launch.ofProgram program decoded grid block params).runBlocks F fuel
        (blockOrder grid) { global := global } with _ | r' <;> rw [hr] at h
      · cases h
      · rwa [Launch.runBlocks_mono _ hle hr]

/-- A launch returns one thing, whatever the fuel. -/
theorem launch_unique {fuel fuel' : Nat} {r r' : Except Fault LaunchStats × ByteMemory}
    (h : launch F program grid block params global fuel = some r)
    (h' : launch F program grid block params global fuel' = some r') : r = r' := by
  have hmax := launch_mono h (Nat.le_max_left fuel fuel')
  rw [launch_mono h' (Nat.le_max_right fuel fuel')] at hmax
  exact (Option.some.inj hmax).symm

/-- A launch that returns its totals has run every block of the grid. -/
theorem launch_completes {fuel : Nat} {stats : LaunchStats} {global' : ByteMemory}
    (h : launch F program grid block params global fuel = some (.ok stats, global')) :
    ∃ decoded, decodeWords 0 program.words = .ok decoded ∧ block.count ≠ 0 ∧ grid.count ≠ 0
      ∧ Launch.Completes F (.ofProgram program decoded grid block params)
        { global := global } (blockOrder grid) ⟨global', stats⟩ := by
  rcases hdecode : decodeWords 0 program.words with f | decoded
  · rw [launch, hdecode] at h
    cases h
  · by_cases hempty : block.count = 0 ∨ grid.count = 0
    · rw [launch_empty hdecode hempty] at h
      cases h
    · obtain ⟨hblock, hgrid⟩ := not_or.1 hempty
      refine ⟨decoded, rfl, hblock, hgrid, (Launch.completes_iff _).2 ⟨fuel, ?_⟩⟩
      rw [launch_run hdecode hblock hgrid] at h
      rcases hr : (Launch.ofProgram program decoded grid block params).runBlocks F fuel
        (blockOrder grid) { global := global } with _ | ⟨_ | _, d⟩ <;> rw [hr] at h <;> cases h
      rfl

end Device

end WarpSim
