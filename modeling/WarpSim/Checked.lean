import WarpSim.Launch

/-!
# The launch with its partial operations checked

The language leaves some operations undefined for some operands: an index past an array, a division
by zero, a shift by the width or more. Here is the launch once more, with each of these
stopping the machine when its operands are outside the range it is defined on. Where a step has no
such operation it is the step of the launch itself.
-/

namespace WarpSim

/-- The operation that was undefined. -/
inductive Undefined where
  | register | predicate | lane | program | byte | param | histogram | bucket | division | shift
  deriving DecidableEq

namespace Checked

/-- The value of an operation that is undefined unless `p`. -/
def guarded {α : Type} (u : Undefined) (p : Prop) [Decidable p] (a : α) : Except Undefined α :=
  if p then .ok a else .error u

section Lanes

def shiftLeft (a : Word) (n : Nat) : Except Undefined Word := guarded .shift (n < 32) (a <<< n)

def shiftRight (a : Word) (n : Nat) : Except Undefined Word := guarded .shift (n < 32) (a >>> n)

/-- The bit of a lane is made by a shift. -/
def laneBit (lane : Nat) : Except Undefined LaneMask := shiftLeft 1 lane

def hasLane (mask : LaneMask) (lane : Nat) : Except Undefined Bool := do
  return (mask &&& (← laneBit lane)) != 0

/-- A loop over the lanes of a warp. -/
def forLanes {β : Type} (f : β → Nat → Except Undefined β) (b : β) : Except Undefined β :=
  lanes.foldlM f b

/-- The body of a loop over the lanes that skips those outside a mask. -/
def whenLane {β : Type} (mask : LaneMask) (f : β → Nat → Except Undefined β) (b : β) (lane : Nat) :
    Except Undefined β := do
  if ← hasLane mask lane then f b lane else return b

/-- An element of an array with a slot for each lane. -/
def slot {α : Type} (a : Nat → α) (lane : Nat) : Except Undefined α :=
  guarded .lane (lane < warpSize) (a lane)

def setSlot {α : Type} (a : Nat → α) (lane : Nat) (value : α) : Except Undefined (Nat → α) :=
  guarded .lane (lane < warpSize) (Function.update a lane value)

/-- The register file has a row of 64 words and 8 predicates for each lane. -/
def read (rf : RegisterFile) (lane : Nat) (reg : BitVec 8) : Except Undefined Word := do
  guarded .lane (lane < warpSize) ()
  guarded .register (reg < generalRegisterCount) (rf.read lane reg)

def write (rf : RegisterFile) (lane : Nat) (reg : BitVec 8) (value : Word) :
    Except Undefined RegisterFile := do
  guarded .lane (lane < warpSize) ()
  guarded .register (reg < generalRegisterCount) (rf.write lane reg value)

def readPred (rf : RegisterFile) (lane : Nat) (pred : BitVec 8) : Except Undefined Bool := do
  guarded .lane (lane < warpSize) ()
  guarded .predicate (pred < predicateRegisterCount) (rf.readPred lane pred)

def writePred (rf : RegisterFile) (lane : Nat) (pred : BitVec 8) (value : Bool) :
    Except Undefined RegisterFile := do
  guarded .lane (lane < warpSize) ()
  guarded .predicate (pred < predicateRegisterCount) (rf.writePred lane pred value)

def special (ctx : LaneContext) (reg : BitVec 8) (lane : Nat) : Except Undefined Word :=
  match (specialRegisterInfoOfIndex reg).map SpecialRegisterInfo.reg with
  | some .tidX => guarded .division (ctx.ntid.x ≠ 0) (ctx.linearIndex lane % ctx.ntid.x)
  | some .tidY => guarded .division (ctx.ntid.x ≠ 0) (ctx.linearIndex lane / ctx.ntid.x)
  | _ => return ctx.special reg lane

end Lanes

section Alu

/-- Signed quotients and remainders are defined for a divisor other than zero and a quotient in
range. -/
def Divides (x y : Int) : Prop := y ≠ 0 ∧ ¬(x = int32Min ∧ y = -1)

instance (x y : Int) : Decidable (Divides x y) := inferInstanceAs (Decidable (_ ∧ _))

def s32Div (a b : Word) : Except Undefined Word :=
  let x := a.toInt
  let y := b.toInt
  if y = 0 then return 0
  else if x = int32Min ∧ y = -1 then return a
  else guarded .division (Divides x y) (BitVec.ofInt 32 (x.tdiv y))

def s32Rem (a b : Word) : Except Undefined Word :=
  let x := a.toInt
  let y := b.toInt
  if y = 0 ∨ (x = int32Min ∧ y = -1) then return 0
  else guarded .division (Divides x y) (BitVec.ofInt 32 (x.tmod y))

/-- The right shift of a negative word fills in ones by a second shift. -/
def sra (a count : Word) : Except Undefined Word := do
  let n := (count &&& shiftMask).toNat
  let logical ← shiftRight a n
  if a.toInt < 0 ∧ 0 < n then return logical ||| (← shiftLeft (~~~(0#32)) (32 - n))
  else return logical

def fetch (i : Instruction) (rf : RegisterFile) (lane : Nat) : Except Undefined Operands := do
  if (opcodeInfo i.opcode).shape = .rr then
    return ⟨← if i.immFlag then .ok i.imm else read rf lane i.src0, 0⟩
  else
    let a ← read rf lane i.src0
    return ⟨a, ← if i.immFlag then .ok i.imm else read rf lane i.src1⟩

def evaluate (F : FloatOps) (i : Instruction) (o : Operands) (dstOld : Word) (lane : Nat)
    (ctx : LaneContext) : Except Undefined Word :=
  match i.opcode with
  | .div => s32Div o.a o.b
  | .rem => s32Rem o.a o.b
  | .shl => shiftLeft o.a (o.b &&& shiftMask).toNat
  | .shr => shiftRight o.a (o.b &&& shiftMask).toNat
  | .sra => sra o.a o.b
  | .movSreg => special ctx i.src0 lane
  | _ => return WarpSim.evaluate F i o dstOld lane ctx

def executeAluLane (F : FloatOps) (i : Instruction) (ctx : LaneContext) (rf : RegisterFile)
    (lane : Nat) : Except Undefined RegisterFile := do
  let o ← fetch i rf lane
  if isSetp i.opcode then
    writePred rf lane i.dst
      (if isSetpF32 i.opcode then compareF32 F i.opcode o.a o.b else compareS32 i.opcode o.a o.b)
  else write rf lane i.dst (← evaluate F i o (← read rf lane i.dst) lane ctx)

def executeAlu (F : FloatOps) (i : Instruction) (exec : LaneMask) (rf : RegisterFile)
    (ctx : LaneContext) : Except Undefined RegisterFile :=
  forLanes (whenLane exec (executeAluLane F i ctx)) rf

end Alu

section Memory

/-- The loop of `distinct_segments`. What it has seen fills the first slots of an array of one slot
for each lane. -/
def visitSegment (addresses : Nat → Word) (seen : List Word) (lane : Nat) :
    Except Undefined (List Word) := do
  let segment := (← slot addresses lane) / segmentBytes
  guarded .bucket (seen.length ≤ warpSize) ()
  if segment ∈ seen then return seen
  else guarded .bucket (seen.length < warpSize) (seen ++ [segment])

def distinctSegments (addresses : Nat → Word) (exec : LaneMask) : Except Undefined Nat := do
  return (← forLanes (whenLane exec (visitSegment addresses)) []).length

/-- The loop of `bank_conflict_degree`, whose buckets have one slot for each lane. -/
def visitBank (addresses : Nat → Word) (s : BankScan) (lane : Nat) : Except Undefined BankScan := do
  let address ← slot addresses lane
  let bank := address / bankWidthBytes % bankCount
  guarded .bucket (bank < bankCount) ()
  guarded .bucket ((s.seen bank).length ≤ warpSize) ()
  if address ∈ s.seen bank then return s
  else guarded .bucket ((s.seen bank).length < warpSize) (s.visit address)

def bankConflictDegree (addresses : Nat → Word) (exec : LaneMask) : Except Undefined Nat := do
  return (← forLanes (whenLane exec (visitBank addresses)) ({} : BankScan)).degree

def onGlobal (s : MemoryStats) (addresses : Nat → Word) (exec : LaneMask) (isStore : Bool) :
    Except Undefined MemoryStats :=
  if exec = 0 then return s
  else do
    return { s with
      globalLoads := s.globalLoads + (if isStore then 0 else 1)
      globalStores := s.globalStores + (if isStore then 1 else 0)
      globalLaneAccesses := s.globalLaneAccesses + laneCount exec
      globalSegments := s.globalSegments + (← distinctSegments addresses exec) }

def onShared (s : MemoryStats) (addresses : Nat → Word) (exec : LaneMask) :
    Except Undefined MemoryStats :=
  if exec = 0 then return s
  else do
    let degree ← bankConflictDegree addresses exec
    return { s with
      sharedAccesses := s.sharedAccesses + 1
      sharedLaneAccesses := s.sharedLaneAccesses + laneCount exec
      sharedWavefronts := s.sharedWavefronts + degree
      sharedConflictedAccesses := s.sharedConflictedAccesses + (if 1 < degree then 1 else 0) }

def onWarpAccess (space : Space) (isStore : Bool) (addresses : Nat → Word) (exec : LaneMask)
    (m : BlockMemory) : Except Undefined BlockMemory :=
  match space with
  | .global => do return { m with stats := ← onGlobal m.stats addresses exec isStore }
  | .shared => do return { m with stats := ← onShared m.stats addresses exec }
  | .param => return m

/-- The four bytes of an accessed word have to be in the buffer. -/
def load32 (m : ByteMemory) (address : Word) (lane : Nat) :
    Except Undefined (Except AccessFault Word) :=
  match m.check address lane with
  | .error e => return .error e
  | .ok () => guarded .byte (address.toNat + 4 ≤ m.size) (.ok (m.word address.toNat))

def store32 (m : ByteMemory) (address value : Word) (lane : Nat) :
    Except Undefined (Except AccessFault ByteMemory) :=
  match m.check address lane with
  | .error e => return .error e
  | .ok () => guarded .byte (address.toNat + 4 ≤ m.size) (.ok (m.setWord address.toNat value))

def load (space : Space) (address : Word) (lane : Nat) (m : BlockMemory) :
    Except Undefined (Except AccessFault Word × BlockMemory) :=
  match space with
  | .global => do return (← load32 m.global address lane, m)
  | .shared => do return (← load32 m.shared address lane, m)
  | .param =>
    if m.params.length ≤ address.toNat then
      return (.error ⟨"parameter ordinal out of range", lane, address⟩, m)
    else
      match m.params[address.toNat]? with
      | none => .error .param
      | some value => return (.ok value, m)

def store (space : Space) (address value : Word) (lane : Nat) (m : BlockMemory) :
    Except Undefined (Except AccessFault Unit × BlockMemory) :=
  match space with
  | .global => do
    match ← store32 m.global address value lane with
    | .error e => return (.error e, m)
    | .ok global => return (.ok (), { m with global := global })
  | .shared => do
    match ← store32 m.shared address value lane with
    | .error e => return (.error e, m)
    | .ok shared => return (.ok (), { m with shared := shared })
  | .param => return (.error ⟨"store to parameter space", lane, address⟩, m)

end Memory

section Warp

/-- The body of the loop that applies the guard. -/
def guardLane (w : Warp) (i : Instruction) (mask : LaneMask) (lane : Nat) :
    Except Undefined LaneMask := do
  if (← readPred w.registers lane i.guard.pred) != i.guard.negate then
    return mask ||| (← laneBit lane)
  else return mask

def execMask (w : Warp) (i : Instruction) : Except Undefined LaneMask :=
  if i.guard.present then forLanes (whenLane w.active (guardLane w i)) 0 else return w.active

def laneAddress (w : Warp) (i : Instruction) (lane : Nat) : Except Undefined Word :=
  if Warp.accessSpace i.opcode = .param then return i.imm
  else do return (← read w.registers lane i.src0) + i.imm

/-- The body of the loop that fills the array of addresses. -/
def addressLane (w : Warp) (i : Instruction) (addresses : Nat → Word) (lane : Nat) :
    Except Undefined (Nat → Word) := do
  setSlot addresses lane (← laneAddress w i lane)

def accessAddresses (w : Warp) (i : Instruction) (exec : LaneMask) :
    Except Undefined (Nat → Word) :=
  forLanes (whenLane exec (addressLane w i)) fun _ => 0

def accessLanes (i : Instruction) (exec : LaneMask) (addresses : Nat → Word) :
    List Nat → Warp → BlockMemory → Except Undefined (Except Fault Unit × Warp × BlockMemory)
  | [], w, m => return (.ok (), w, m)
  | lane :: rest, w, m => do
    if !(← hasLane exec lane) then accessLanes i exec addresses rest w m
    else
      let address ← slot addresses lane
      if Warp.isStore i.opcode then
        let value ← read w.registers lane i.src1
        match ← store (Warp.accessSpace i.opcode) address value lane m with
        | (.error e, m) => return (.error (w.makeFault e.message lane address), w, m)
        | (.ok (), m) => accessLanes i exec addresses rest w m
      else
        match ← load (Warp.accessSpace i.opcode) address lane m with
        | (.error e, m) => return (.error (w.makeFault e.message lane address), w, m)
        | (.ok value, m) =>
          let registers ← write w.registers lane i.dst value
          accessLanes i exec addresses rest { w with registers := registers } m

def memoryAccess (i : Instruction) (exec : LaneMask) (w : Warp) (m : BlockMemory) :
    Except Undefined (Except Fault Unit × Warp × BlockMemory) := do
  let addresses ← accessAddresses w i exec
  let m ← if exec ≠ 0 then
      onWarpAccess (Warp.accessSpace i.opcode) (Warp.isStore i.opcode) addresses exec m
    else .ok m
  accessLanes i exec addresses lanes w m

variable (F : FloatOps)

def issue (i : Instruction) (w : Warp) (m : BlockMemory) :
    Except Undefined (Except Fault StepOutcome × Warp × BlockMemory) := do
  let exec ← execMask w i
  let w' := { w with lastExec := exec, lastOpcode := i.opcode }
  match i.opcode with
  | .bra | .exit | .barSync => return w.issue F BlockMemory.port i m
  | .ldGlobal | .stGlobal | .ldShared | .stShared | .ldParam =>
    match ← memoryAccess i exec w' m with
    | (.error f, w, m) => return (.error f, w, m)
    | (.ok (), w, m) => return (.ok .issued, w.advance, m)
  | _ =>
    let registers ← executeAlu F i exec w.registers w.context
    return (.ok .issued, { w' with registers := registers }.advance, m)

def step (program : List Instruction) (w : Warp) (m : BlockMemory) :
    Except Undefined (Except Fault StepOutcome × Warp × BlockMemory) :=
  match w.settle program with
  | .finished w => return (.ok .finished, w, m)
  | .ready _ w =>
    match program[w.pc.toNat]? with
    | none => .error .program
    | some i => issue F i w m

end Warp

section Block

variable (F : FloatOps) (program : List Instruction)

def countIssue (s : LaunchStats) (warp : Warp) : Except Undefined LaunchStats :=
  guarded .histogram (laneCount warp.lastExec ≤ warpSize) (s.countIssue warp)

def turn (b : Block) (i : Nat) (warp : Warp) :
    Except Undefined (Except Fault StepOutcome × Block) := do
  match ← step F program warp b.memory with
  | (.error f, warp, memory) =>
    return (.error f, { b with warps := b.warps.set i warp, memory := memory })
  | (.ok outcome, warp, memory) =>
    return (.ok outcome,
      { warps := b.warps.set i warp
        memory := memory
        stats := ← if outcome ≠ .finished then countIssue b.stats warp else .ok b.stats })

def advance (s : Scheduler) : Except Undefined Progress :=
  match s.warps[s.next]? with
  | some warp =>
    if !warp.runnable then return .running (.skipped s.next) { s with next := s.next + 1 }
    else do
      match ← turn F program s.toBlock s.next warp with
      | (.error f, b) => return .returned (.error f) b
      | (.ok outcome, b) =>
        return .running (.stepped s.next outcome (warp.accesses program))
          { toBlock := b, next := s.next + 1, anyRunnable := true }
  | none => return s.advance F program

def run (s : Scheduler) : Nat → Except Undefined (Option (Except Fault Unit × Block))
  | 0 => return none
  | fuel + 1 => do
    match ← advance F program s with
    | .running _ s' => run s' fuel
    | .returned result b => return some (result, b)

/-- The lowest lanes: all of them, or those below a shifted bit. -/
def liveMask (inWarp : Word) : Except Undefined LaneMask :=
  if inWarp = BitVec.ofNat 32 warpSize then return fullMask
  else do return (← laneBit inWarp.toNat) - 1

/-- A warp of 32 lanes, or of those that are left. -/
def makeWarp (lanesInBlock : Word) (base : LaneContext) (w : Word) : Except Undefined Warp := do
  let first := w * BitVec.ofNat 32 warpSize
  let inWarp := if lanesInBlock - first < BitVec.ofNat 32 warpSize then lanesInBlock - first
    else BitVec.ofNat 32 warpSize
  return Warp.new w (← liveMask inWarp) { base with warpId := w }

def start (memory : BlockMemory) (base : LaneContext) (lanesInBlock : Word) (stats : LaunchStats) :
    Except Undefined Block := do
  let warpCount := (lanesInBlock + BitVec.ofNat 32 warpSize - 1) / BitVec.ofNat 32 warpSize
  let warps ← (List.range warpCount.toNat).mapM fun w =>
    makeWarp lanesInBlock base (BitVec.ofNat 32 w)
  return {
    warps := warps
    memory := memory
    stats := { stats with warpsLaunched := stats.warpsLaunched + warpCount } }

end Block

section Launch

variable (F : FloatOps)

def runBlocks (l : Launch) (fuel : Nat) :
    List Dim2 → LaunchState → Except Undefined (Option (Except Fault Unit × LaunchState))
  | [], d => return some (.ok (), d)
  | ctaid :: order, d => do
    let b ← start (l.blockMemory d.global) (l.context ctaid) l.block.count d.stats
    match ← run F l.program b.newPass fuel with
    | none => return none
    | some (.error f, b) => return some (.error f, ⟨b.memory.global, b.stats⟩)
    | some (.ok (), b) => runBlocks l fuel order (l.finishBlock b)

/-- A launch with every undefined operation checked. It is defined if its value is `ok`. -/
def launch (program : Program) (grid block : Dim2) (params : List Word) (global : ByteMemory)
    (fuel : Nat) : Except Undefined (Option (Except Fault LaunchStats × ByteMemory)) :=
  match decodeWords 0 program.words with
  | .error f => return some (.error f, global)
  | .ok decoded =>
    if block.count = 0 ∨ grid.count = 0 then
      return some (.error { message := "empty grid or block" }, global)
    else do
      match ← runBlocks F (.ofProgram program decoded grid block params) fuel (blockOrder grid)
        { global := global } with
      | none => return none
      | some (.error f, d) => return some (.error f, d.global)
      | some (.ok (), d) => return some (.ok d.stats, d.global)

end Launch

end Checked

end WarpSim
