import WarpSim.Device
import WarpSim.Program

/-!
# Launching a program

A launch decodes the program's words, rejects an empty grid or block, and executes the blocks of
the grid one after the other. The global memory and the totals are all that one block leaves to
the next: the shared memory, the analyzer and the warps are new for each.
-/

namespace WarpSim

/-- The arguments of a launch, with the program's words decoded. -/
structure Launch where
  program : List Instruction
  sharedBytes : Word := 0
  params : List Word := []
  grid : Dim2 := {}
  block : Dim2 := {}

def Launch.ofProgram (program : Program) (decoded : List Instruction) (grid block : Dim2)
    (params : List Word) : Launch where
  program := decoded
  sharedBytes := program.sharedBytes
  params := params
  grid := grid
  block := block

/-- What one block of a launch leaves to the next. -/
structure LaunchState where
  global : ByteMemory
  stats : LaunchStats := {}
  deriving DecidableEq

/-- The block indices of a grid in launch order, `ctaid.x` running fastest. -/
def blockOrder (grid : Dim2) : List Dim2 :=
  (List.range grid.y.toNat).flatMap fun y =>
    (List.range grid.x.toNat).map fun x => ⟨BitVec.ofNat 32 x, BitVec.ofNat 32 y⟩

namespace Launch

variable (l : Launch)

/-- The context of a block's warps. -/
def context (ctaid : Dim2) : LaneContext where
  ntid := l.block
  nctaid := l.grid
  ctaid := ctaid

/-- The memory of a block that has not begun. -/
def blockMemory (global : ByteMemory) : BlockMemory where
  global := global
  shared := .zeroed l.sharedBytes.toNat
  params := l.params

/-- The block with the given index, before its first pass. -/
def startBlock (ctaid : Dim2) (d : LaunchState) : Scheduler :=
  (Block.start (l.blockMemory d.global) (l.context ctaid) l.block.count d.stats).newPass

/-- What a block that has run to completion leaves. -/
def finishBlock (b : Block) : LaunchState where
  global := b.memory.global
  stats :=
    { b.stats with
      blocksExecuted := b.stats.blocksExecuted + 1
      lanesLaunched := b.stats.lanesLaunched + l.block.count
      memory := b.stats.memory.add b.memory.stats }

variable (F : FloatOps)

/-- Executes the listed blocks one after the other, if `fuel` actions are enough for each. -/
def runBlocks (fuel : Nat) : List Dim2 → LaunchState → Option (Except Fault Unit × LaunchState)
  | [], d => some (.ok (), d)
  | ctaid :: order, d =>
    match runBlock F l.program (l.blockMemory d.global) (l.context ctaid) l.block.count d.stats
      fuel with
    | none => none
    | some (.error f, b) => some (.error f, ⟨b.memory.global, b.stats⟩)
    | some (.ok (), b) => runBlocks fuel order (l.finishBlock b)

end Launch

/-- Decodes the words of a program from the one at `pc` on. -/
def decodeWords (pc : Nat) : List (BitVec 64) → Except Fault (List Instruction)
  | [] => .ok []
  | word :: words =>
    match decode word with
    | .error e =>
      .error { message := "invalid instruction word: " ++ e.toString, pc := BitVec.ofNat 16 pc }
    | .ok i =>
      match decodeWords (pc + 1) words with
      | .error f => .error f
      | .ok rest => .ok (i :: rest)

/-- Runs a program over a grid of blocks: the totals or the first fault, and the global memory it
leaves. -/
def Device.launch (F : FloatOps) (program : Program) (grid block : Dim2) (params : List Word)
    (global : ByteMemory) (fuel : Nat) : Option (Except Fault LaunchStats × ByteMemory) :=
  match decodeWords 0 program.words with
  | .error f => some (.error f, global)
  | .ok decoded =>
    if block.count = 0 ∨ grid.count = 0 then
      some (.error { message := "empty grid or block" }, global)
    else
      match (Launch.ofProgram program decoded grid block params).runBlocks F fuel (blockOrder grid)
        { global := global } with
      | none => none
      | some (.error f, d) => some (.error f, d.global)
      | some (.ok (), d) => some (.ok d.stats, d.global)

end WarpSim
