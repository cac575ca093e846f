import WarpSim.Warp

/-!
# The scheduler of a block

One block runs to completion under round-robin issue: every pass over its warps issues at most one
instruction per runnable warp, and a pass that finds every unfinished warp parked completes the
barrier. The loop is a machine that does one thing at a time and says what it did.
-/

namespace WarpSim

/-- Observable totals of one launch. Every field is a count of events. -/
structure LaunchStats where
  instructionsIssued : Nat := 0
  aluInstructions : Nat := 0
  memoryInstructions : Nat := 0
  controlInstructions : Nat := 0
  barrierInstructions : Nat := 0
  divergentBranches : Nat := 0
  reconvergenceEvents : Nat := 0
  barriersCompleted : Nat := 0
  activeLaneSum : Nat := 0
  /-- Issues by number of executing lanes, index 0 through 32. -/
  activeLaneHistogram : List Nat := List.replicate (warpSize + 1) 0
  blocksExecuted : Word := 0
  warpsLaunched : Word := 0
  lanesLaunched : Word := 0
  memory : MemoryStats := {}
  deriving DecidableEq

namespace LaunchStats

def countClass (s : LaunchStats) : Opcode → LaunchStats
  | .bra | .exit => { s with controlInstructions := s.controlInstructions + 1 }
  | .barSync => { s with barrierInstructions := s.barrierInstructions + 1 }
  | .ldGlobal | .stGlobal | .ldShared | .stShared | .ldParam =>
    { s with memoryInstructions := s.memoryInstructions + 1 }
  | _ => { s with aluInstructions := s.aluInstructions + 1 }

def countIssue (s : LaunchStats) (warp : Warp) : LaunchStats :=
  let lanes := laneCount warp.lastExec
  { s with
    instructionsIssued := s.instructionsIssued + 1
    activeLaneSum := s.activeLaneSum + lanes
    activeLaneHistogram := s.activeLaneHistogram.modify lanes (· + 1) }.countClass warp.lastOpcode

def collect (s : LaunchStats) (warp : Warp) : LaunchStats :=
  { s with
    divergentBranches := s.divergentBranches + warp.divergent
    reconvergenceEvents := s.reconvergenceEvents + warp.reconverged }

end LaunchStats

def WarpState.runnable (s : WarpState) : Bool := !s.finished && !s.parked

structure Access where
  space : Space
  address : Word
  isStore : Bool
  deriving DecidableEq

/-- The accesses a warp's next step makes, in lane order, if none of them faults. -/
def Warp.accesses (program : List Instruction) (w : Warp) : List Access :=
  match w.settle program with
  | .finished _ => []
  | .ready i w =>
    if isMemoryOpcode i.opcode then
      let exec := w.execMask i
      (lanes.filter (hasLane exec)).map fun lane =>
        ⟨accessSpace i.opcode, w.accessAddresses i exec lane, isStore i.opcode⟩
    else []

/-- The state `run_block` keeps: the block's warps, its memory and the totals so far. -/
structure Block where
  warps : List Warp
  memory : BlockMemory
  stats : LaunchStats

namespace Block

/-- The warp with number `w` of a block: 32 lanes, or those that are left. -/
def makeWarp (lanesInBlock : Word) (base : LaneContext) (w : Word) : Warp :=
  let first := w * BitVec.ofNat 32 warpSize
  let inWarp := if lanesInBlock - first < BitVec.ofNat 32 warpSize then lanesInBlock - first
    else BitVec.ofNat 32 warpSize
  let live := if inWarp = BitVec.ofNat 32 warpSize then fullMask else laneBit inWarp.toNat - 1
  Warp.new w live { base with warpId := w }

def start (memory : BlockMemory) (base : LaneContext) (lanesInBlock : Word) (stats : LaunchStats) :
    Block :=
  let warpCount := (lanesInBlock + BitVec.ofNat 32 warpSize - 1) / BitVec.ofNat 32 warpSize
  { warps := (List.range warpCount.toNat).map fun w =>
      makeWarp lanesInBlock base (BitVec.ofNat 32 w)
    memory := memory
    stats := { stats with warpsLaunched := stats.warpsLaunched + warpCount } }

variable (F : FloatOps) (program : List Instruction)

/-- One step of the warp with number `i`, counted if it issued. -/
def turn (b : Block) (i : Nat) (warp : Warp) : Except Fault StepOutcome × Block :=
  match warp.step F BlockMemory.port program b.memory with
  | (.error f, warp, memory) =>
    (.error f, { b with warps := b.warps.set i warp, memory := memory })
  | (.ok outcome, warp, memory) =>
    (.ok outcome,
      { warps := b.warps.set i warp
        memory := memory
        stats := if outcome ≠ .finished then b.stats.countIssue warp else b.stats })

def anyUnfinished (b : Block) : Bool := b.warps.any fun w => !w.finished

def allParked (b : Block) : Bool := b.warps.all fun w => w.finished || w.parked

def release (b : Block) : Block :=
  { b with
    warps := b.warps.map fun w => { w with parked := false }
    stats := { b.stats with barriersCompleted := b.stats.barriersCompleted + 1 } }

/-- The totals with what the warps counted themselves, as `run_block` leaves them. -/
def finish (b : Block) : Block := { b with stats := b.warps.foldl LaunchStats.collect b.stats }

end Block

inductive Event where
  | skipped (warp : Nat)
  | stepped (warp : Nat) (outcome : StepOutcome) (accesses : List Access)
  | passed
  | released
  deriving DecidableEq

/-- The block in the middle of a pass: the warp whose turn is next, and whether one was runnable. -/
structure Scheduler extends Block where
  next : Nat := 0
  anyRunnable : Bool := false

def Block.newPass (b : Block) : Scheduler := ⟨b, 0, false⟩

inductive Progress where
  | running (event : Event) (s : Scheduler)
  | returned (result : Except Fault Unit) (b : Block)

namespace Scheduler

variable (F : FloatOps) (program : List Instruction)

/-- One turn of the loop over the warps, or the end of a pass. -/
def advance (s : Scheduler) : Progress :=
  match s.warps[s.next]? with
  | some warp =>
    if !warp.runnable then .running (.skipped s.next) { s with next := s.next + 1 }
    else
      match s.turn F program s.next warp with
      | (.error f, b) => .returned (.error f) b
      | (.ok outcome, b) =>
        .running (.stepped s.next outcome (warp.accesses program))
          { toBlock := b, next := s.next + 1, anyRunnable := true }
  | none =>
    -- Barrier completion: every unfinished warp has arrived.
    if !s.anyUnfinished then .returned (.ok ()) s.finish
    else if s.allParked then .running .released s.release.newPass
    else if !s.anyRunnable then
      .returned (.error { message := "scheduler made no progress" }) s.toBlock
    else .running .passed s.newPass

/-- A run of the scheduler, with what it did. -/
inductive Run : Scheduler → List Event → Scheduler → Prop
  | nil (s : Scheduler) : Run s [] s
  | cons {s s' s'' : Scheduler} {event : Event} {log : List Event}
      (h : s.advance F program = .running event s') (run : Run s' log s'') :
      Run s (event :: log) s''

/-- The first `n` actions of the scheduler, or those before the block returns. -/
def runFor (s : Scheduler) : Nat → List Event × Scheduler
  | 0 => ([], s)
  | n + 1 =>
    match s.advance F program with
    | .running event s' => (event :: (s'.runFor n).1, (s'.runFor n).2)
    | .returned _ _ => ([], s)

theorem run_runFor : ∀ (n : Nat) (s : Scheduler),
    Run F program s (s.runFor F program n).1 (s.runFor F program n).2
  | 0, s => .nil s
  | n + 1, s => by
    rw [runFor]
    rcases h : s.advance F program with ⟨event, s'⟩ | ⟨result, b⟩
    · exact .cons h (run_runFor n s')
    · exact .nil s

def run (s : Scheduler) : Nat → Option (Except Fault Unit × Block)
  | 0 => none
  | fuel + 1 =>
    match s.advance F program with
    | .running _ s' => s'.run fuel
    | .returned result b => some (result, b)

end Scheduler

/-- Executes one block to completion, if `fuel` actions of its scheduler are enough. -/
def runBlock (F : FloatOps) (program : List Instruction) (memory : BlockMemory) (base : LaneContext)
    (lanesInBlock : Word) (stats : LaunchStats) (fuel : Nat) : Option (Except Fault Unit × Block) :=
  (Block.start memory base lanesInBlock stats).newPass.run F program fuel

end WarpSim
