import WarpSim.Arena
import WarpSim.Kernels
import WarpSim.Assembler
import WarpSim.Launch
import Mathlib.Data.Int.Bitwise

/-!
# The launch helper

What a Python caller of the kernels goes through: the arguments are placed in a device's memory in
the order of the kernel's parameters, the program is launched, and the outputs are downloaded. An
array is its bytes in C order, and all that matters of a data type is the size of an item.
-/

namespace WarpSim

/-- `Device.read` for so many bytes. Its offset is a 32-bit integer. -/
def Device.read (global : ByteMemory) (offset nbytes : Nat) : Except Raised (List (BitVec 8)) :=
  if 2 ^ 32 ≤ offset then .error .typeError
  else if global.size < offset + nbytes then
    .error (.indexError "read past the end of global memory")
  else .ok ((global.bytes.drop offset).take nbytes)

/-- A 32-bit argument of the native extension, from a Python integer that is not negative. -/
def uint32 (v : Nat) : Except Raised Word :=
  if v < 2 ^ 32 then .ok (BitVec.ofNat 32 v) else .error .typeError

namespace Harness

/-- An output buffer argument: allocated before the launch, downloaded after. -/
structure Output where
  count : Nat
  itemsize : Nat
  /-- The bytes of the item that the buffer is filled with. -/
  fill : Option (List (BitVec 8)) := none
  fills : ∀ item ∈ fill, item.length = itemsize := by decide

def Output.nbytes (o : Output) : Nat := o.count * o.itemsize

/-- So many items of `int32` or `float32`. -/
def Output.words (count : Nat) : Output := { count := count, itemsize := 4 }

inductive Arg where
  | array (data : List (BitVec 8))
  | output (out : Output)
  | scalar (value : Int)
  /-- An argument of any other type. -/
  | other

structure LaunchResult where
  outputs : List (List (BitVec 8))
  stats : LaunchStats

/-- What a launch raises in Python. -/
inductive LaunchError where
  | raised (e : Raised)
  | assemblyError (e : Stop)
  | simFault (f : Fault)

/-- The bytes that the arguments need: each buffer with room for its alignment. -/
def needed (args : List Arg) : Nat :=
  (args.map fun
    | .array data => data.length + 128
    | .output out => out.nbytes + 128
    | _ => 0).sum

/-- The size of the device's memory if the caller gives none. -/
def defaultBytes (args : List Arg) : Nat := max 4096 (needed args * 2)

/-- The arena, the parameters and the outputs after some of the arguments. -/
structure Placed where
  arena : Arena
  params : List Nat := []
  outputs : List (Nat × Output) := []

/-- Places an argument. -/
def place (p : Placed) : Arg → Except Raised Placed
  | .array data =>
    match p.arena.upload data with
    | (.error e, _) => .error e
    | (.ok offset, arena) => .ok { p with arena := arena, params := p.params ++ [offset] }
  | .output out =>
    match (match out.fill with
      | none => p.arena.alloc out.nbytes
      | some item => p.arena.upload (List.replicate out.count item).flatten) with
    | (.error e, _) => .error e
    | (.ok offset, arena) =>
      .ok ⟨arena, p.params ++ [offset], p.outputs ++ [(offset, out)]⟩
  | .scalar value => .ok { p with params := p.params ++ [(value.land 0xFFFFFFFF).toNat] }
  | .other => .error .typeError

/-- A device of the given size with nothing placed. -/
def empty (size : Nat) : Placed := { arena := { device := .zeroed size } }

/-- Places the arguments, and makes the numbers arguments of the native extension. -/
def prepare (grid block : Nat × Nat) (args : List Arg) (size : Nat) :
    Except Raised (Placed × Dim2 × Dim2 × List Word) := do
  let p ← args.foldlM place (empty size)
  let gridX ← uint32 grid.1
  let gridY ← uint32 grid.2
  let blockX ← uint32 block.1
  let blockY ← uint32 block.2
  let params ← p.params.mapM uint32
  .ok (p, ⟨gridX, gridY⟩, ⟨blockX, blockY⟩, params)

/-- Runs a program with the arguments in the order of the kernel's parameters. -/
def launch (F : FloatOps) (program : Program) (grid block : Nat × Nat) (args : List Arg)
    (globalBytes : Option Nat) (fuel : Nat) : Option (Except LaunchError LaunchResult) :=
  match prepare grid block args (globalBytes.getD (defaultBytes args)) with
  | .error e => some (.error (.raised e))
  | .ok (p, grid, block, params) =>
    match Device.launch F program grid block params p.arena.device fuel with
    | none => none
    | some (.error f, _) => some (.error (.simFault f))
    | some (.ok stats, global) =>
      match p.outputs.mapM fun o => Device.read global o.1 o.2.nbytes with
      | .error e => some (.error (.raised e))
      | .ok outputs => some (.ok ⟨outputs, stats⟩)

/-- One-dimensional grid covering `n` elements with `block` lanes each. -/
def gridFor (n block : Nat) : Nat × Nat := ((n + block - 1) / block, 1)

end Harness

/-- The bytes of an array of 32-bit items, each little-endian. -/
def bytesOf (words : List Word) : List (BitVec 8) :=
  words.flatMap fun w =>
    [w.extractLsb' 0 8, w.extractLsb' 8 8, w.extractLsb' 16 8, w.extractLsb' 24 8]

/-- A two-dimensional array of 32-bit items, row by row. -/
structure Array2 where
  rows : Nat
  columns : Nat
  items : List Word
  length_items : items.length = rows * columns

namespace Kernels

open Harness

def tile : Nat := 16

def reduceBlock : Nat := 256

def vecaddBlock : Nat := 128

section Run

variable (F : FloatOps) (C : FloatChars)

/-- Assembles a kernel and launches it with the default memory. -/
def run (kernel : Text) (grid block : Nat × Nat) (args : List Arg) (fuel : Nat) :
    Option (Except LaunchError LaunchResult) :=
  match assemble C kernel with
  | .error e => some (.error (.assemblyError e))
  | .ok program => launch F program grid block args none fuel

def runVecadd (a b : List Word) (fuel : Nat) : Option (Except LaunchError LaunchResult) :=
  let n := a.length
  run F C vecadd (gridFor n vecaddBlock) (vecaddBlock, 1)
    [.array (bytesOf a), .array (bytesOf b), .output (.words n), .scalar n] fuel

def runVecaddS32 (a b : List Word) (fuel : Nat) : Option (Except LaunchError LaunchResult) :=
  let n := a.length
  run F C vecaddS32 (gridFor n vecaddBlock) (vecaddBlock, 1)
    [.array (bytesOf a), .array (bytesOf b), .output (.words n), .scalar n] fuel

def runReduce (x : List Word) (fuel : Nat) : Option (Except LaunchError LaunchResult) :=
  let n := x.length
  let blocks := (n + reduceBlock - 1) / reduceBlock
  run F C reduce (blocks, 1) (reduceBlock, 1)
    [.array (bytesOf x), .output (.words blocks), .scalar n] fuel

/-- `_matmul`. -/
def matmul (kernel : Text) (a b : Array2) (fuel : Nat) :
    Option (Except LaunchError LaunchResult) :=
  let m := a.rows
  let k := a.columns
  let n := b.columns
  let grid := ((n + tile - 1) / tile, (m + tile - 1) / tile)
  run F C kernel grid (tile, tile)
    [.array (bytesOf a.items), .array (bytesOf b.items), .output (.words (m * n)), .scalar m,
      .scalar n, .scalar k] fuel

def runMatmulNaive (a b : Array2) (fuel : Nat) : Option (Except LaunchError LaunchResult) :=
  matmul F C matmulNaive a b fuel

def runMatmulTiled (a b : Array2) (fuel : Nat) : Option (Except LaunchError LaunchResult) :=
  matmul F C matmulTiled a b fuel

end Run

end Kernels

end WarpSim
