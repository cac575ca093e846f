import WarpSim.Lane

/-!
# Memory

The memory a warp sees through its port: the byte-addressed global and shared spaces, the
parameter table, and the analyzer that counts what each warp-level access does. A port keeps its
state in a type of its own, so the warp is the same for every memory behind it.
-/

namespace WarpSim

inductive Space where
  | global | shared | param
  deriving DecidableEq

/-- A failed lane access; the warp fills in block, warp and PC. -/
structure AccessFault where
  message : String
  lane : Nat := 0
  address : Word := 0
  deriving DecidableEq

/-- The services a warp needs from its block's memory system, over the memory's state `σ`. -/
structure MemoryPort (σ : Type) where
  load : Space → Word → Nat → σ → Except AccessFault Word × σ
  store : Space → Word → Word → Nat → σ → Except AccessFault Unit × σ
  /-- Called once per warp memory instruction, before the lane accesses. -/
  onWarpAccess : Space → Bool → (Nat → Word) → LaneMask → σ → σ

/-- A memory that faults on every access, for programs of control flow and arithmetic only. -/
def nullMemory : MemoryPort Unit where
  load := fun _ address lane m => (.error ⟨"no memory", lane, address⟩, m)
  store := fun _ address _ lane m => (.error ⟨"no memory", lane, address⟩, m)
  onWarpAccess := fun _ _ _ _ m => m

/-- A flat byte-addressed memory with 32-bit word access. -/
structure ByteMemory where
  bytes : List (BitVec 8)
  deriving DecidableEq

namespace ByteMemory

def zeroed (size : Nat) : ByteMemory := ⟨List.replicate size 0⟩

def size (m : ByteMemory) : Nat := m.bytes.length

def check (m : ByteMemory) (address : Word) (lane : Nat) : Except AccessFault Unit :=
  if address.toNat % 4 ≠ 0 then .error ⟨"misaligned 32-bit access", lane, address⟩
  else if m.size < address.toNat + 4 then .error ⟨"access out of bounds", lane, address⟩
  else .ok ()

def byte (m : ByteMemory) (k : Nat) : BitVec 8 := m.bytes.getD k 0

/-- The little-endian word at byte `k`. -/
def word (m : ByteMemory) (k : Nat) : Word :=
  m.byte (k + 3) ++ m.byte (k + 2) ++ m.byte (k + 1) ++ m.byte k

def setWord (m : ByteMemory) (k : Nat) (value : Word) : ByteMemory :=
  ⟨(((m.bytes.set k (value.extractLsb' 0 8)).set (k + 1) (value.extractLsb' 8 8)).set (k + 2)
    (value.extractLsb' 16 8)).set (k + 3) (value.extractLsb' 24 8)⟩

def load32 (m : ByteMemory) (address : Word) (lane : Nat) : Except AccessFault Word := do
  m.check address lane
  .ok (m.word address.toNat)

def store32 (m : ByteMemory) (address value : Word) (lane : Nat) :
    Except AccessFault ByteMemory := do
  m.check address lane
  .ok (m.setWord address.toNat value)

end ByteMemory

section Analysis

def segmentBytes : Word := 128

def bankCount : Word := 32

def bankWidthBytes : Word := 4

/-- The distinct 128-byte segments of the executing lanes' addresses, in the order found. -/
def segmentsSeen (addresses : Nat → Word) (exec : LaneMask) : List Word :=
  lanes.foldl (fun seen lane =>
    if hasLane exec lane then
      let segment := addresses lane / segmentBytes
      if segment ∈ seen then seen else seen ++ [segment]
    else seen) []

def distinctSegments (addresses : Nat → Word) (exec : LaneMask) : Nat :=
  (segmentsSeen addresses exec).length

/-- What `bank_conflict_degree` keeps while it walks the lanes: the distinct addresses seen in
each bank, and the largest number of them in one bank so far. -/
structure BankScan where
  seen : Word → List Word := fun _ => []
  degree : Nat := 0

def BankScan.visit (s : BankScan) (address : Word) : BankScan :=
  let bank := address / bankWidthBytes % bankCount
  if address ∈ s.seen bank then s
  else
    { seen := fun b => if b = bank then s.seen bank ++ [address] else s.seen b
      degree := max s.degree ((s.seen bank).length + 1) }

def bankConflictDegree (addresses : Nat → Word) (exec : LaneMask) : Nat :=
  (lanes.foldl (fun s lane => if hasLane exec lane then s.visit (addresses lane) else s)
    ({} : BankScan)).degree

/-- Memory observables of one block. Every number is a count of events. -/
structure MemoryStats where
  globalLoads : Nat := 0
  globalStores : Nat := 0
  globalLaneAccesses : Nat := 0
  globalSegments : Nat := 0
  sharedAccesses : Nat := 0
  sharedLaneAccesses : Nat := 0
  sharedWavefronts : Nat := 0
  sharedConflictedAccesses : Nat := 0
  deriving DecidableEq

namespace MemoryStats

def onGlobal (s : MemoryStats) (addresses : Nat → Word) (exec : LaneMask) (isStore : Bool) :
    MemoryStats :=
  if exec = 0 then s
  else
    { s with
      globalLoads := s.globalLoads + (if isStore then 0 else 1)
      globalStores := s.globalStores + (if isStore then 1 else 0)
      globalLaneAccesses := s.globalLaneAccesses + laneCount exec
      globalSegments := s.globalSegments + distinctSegments addresses exec }

def onShared (s : MemoryStats) (addresses : Nat → Word) (exec : LaneMask) : MemoryStats :=
  if exec = 0 then s
  else
    let degree := bankConflictDegree addresses exec
    { s with
      sharedAccesses := s.sharedAccesses + 1
      sharedLaneAccesses := s.sharedLaneAccesses + laneCount exec
      sharedWavefronts := s.sharedWavefronts + degree
      sharedConflictedAccesses := s.sharedConflictedAccesses + (if 1 < degree then 1 else 0) }

/-- The counts of two sets of events. -/
def add (s d : MemoryStats) : MemoryStats where
  globalLoads := s.globalLoads + d.globalLoads
  globalStores := s.globalStores + d.globalStores
  globalLaneAccesses := s.globalLaneAccesses + d.globalLaneAccesses
  globalSegments := s.globalSegments + d.globalSegments
  sharedAccesses := s.sharedAccesses + d.sharedAccesses
  sharedLaneAccesses := s.sharedLaneAccesses + d.sharedLaneAccesses
  sharedWavefronts := s.sharedWavefronts + d.sharedWavefronts
  sharedConflictedAccesses := s.sharedConflictedAccesses + d.sharedConflictedAccesses

@[simp] theorem add_zero (s : MemoryStats) : s.add {} = s := rfl

theorem add_right_comm (s d d' : MemoryStats) : (s.add d).add d' = (s.add d').add d := by
  simp only [add, Nat.add_right_comm]

end MemoryStats

end Analysis

/-- The memory of one block: the device's global memory, the block's own shared memory, and the
launch's parameter table. -/
structure BlockMemory where
  global : ByteMemory
  shared : ByteMemory
  params : List Word
  stats : MemoryStats := {}
  deriving DecidableEq

namespace BlockMemory

def load (space : Space) (address : Word) (lane : Nat) (m : BlockMemory) :
    Except AccessFault Word × BlockMemory :=
  match space with
  | .global => (m.global.load32 address lane, m)
  | .shared => (m.shared.load32 address lane, m)
  | .param =>
    match m.params[address.toNat]? with
    | none => (.error ⟨"parameter ordinal out of range", lane, address⟩, m)
    | some value => (.ok value, m)

def store (space : Space) (address value : Word) (lane : Nat) (m : BlockMemory) :
    Except AccessFault Unit × BlockMemory :=
  match space with
  | .global =>
    match m.global.store32 address value lane with
    | .error e => (.error e, m)
    | .ok global => (.ok (), { m with global := global })
  | .shared =>
    match m.shared.store32 address value lane with
    | .error e => (.error e, m)
    | .ok shared => (.ok (), { m with shared := shared })
  | .param => (.error ⟨"store to parameter space", lane, address⟩, m)

def onWarpAccess (space : Space) (isStore : Bool) (addresses : Nat → Word) (exec : LaneMask)
    (m : BlockMemory) : BlockMemory :=
  match space with
  | .global => { m with stats := m.stats.onGlobal addresses exec isStore }
  | .shared => { m with stats := m.stats.onShared addresses exec }
  | .param => m

def port : MemoryPort BlockMemory := ⟨load, store, onWarpAccess⟩

end BlockMemory

end WarpSim
