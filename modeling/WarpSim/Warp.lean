import WarpSim.Alu
import WarpSim.Memory

/-!
# The warp

One warp of 32 lanes executing a program in lockstep under an active mask, with the divergence
stack. A step resolves the stack, retires the paths that fell off the end of the program until one
with an instruction remains (`settle`), and issues that instruction (`issue`).
-/

namespace WarpSim

/-- An entry of the divergence stack. A deferred path resumes at `resumePc` with `mask`; a join
entry has `resumePc = reconvergencePc` and its mask is unioned back in. -/
structure DivergenceEntry where
  reconvergencePc : Pc
  resumePc : Pc
  mask : LaneMask
  deriving DecidableEq

def DivergenceEntry.isJoin (e : DivergenceEntry) : Bool := e.resumePc == e.reconvergencePc

/-- Everything a warp carries between instructions. The top of the stack is its head. -/
structure WarpState where
  pc : Pc := 0
  active : LaneMask := 0
  live : LaneMask := 0
  stack : List DivergenceEntry := []
  registers : RegisterFile := {}
  warpId : Word := 0
  parked : Bool := false

def WarpState.finished (s : WarpState) : Bool := s.live == 0

/-- A simulator fault. -/
structure Fault where
  message : String
  block : Word := 0
  warp : Word := 0
  lane : Nat := 0
  pc : Pc := 0
  address : Word := 0
  deriving DecidableEq

inductive StepOutcome where
  | issued | barrier | finished
  deriving DecidableEq

structure Warp extends WarpState where
  context : LaneContext := {}
  lastExec : LaneMask := 0
  divergent : Nat := 0
  reconverged : Nat := 0
  lastOpcode : Opcode := .exit

namespace Warp

/-- The warp the constructor builds. -/
def new (warpId : Word) (live : LaneMask) (context : LaneContext) : Warp :=
  { warpId := warpId, live := live, active := live, context := context }

def makeFault (w : Warp) (message : String) (lane : Nat) (address : Word) : Fault where
  message := message
  block := w.context.ctaid.y * w.context.nctaid.x + w.context.ctaid.x
  warp := w.warpId
  lane := lane
  pc := w.pc
  address := address

section Stack

def switchTo (w : Warp) (entry : DivergenceEntry) (arrived : LaneMask) : Warp :=
  if entry.isJoin then
    -- Rule 3, second arrival: union the lanes that arrived first.
    { w with active := arrived ||| entry.mask, pc := entry.reconvergencePc }
  else
    -- Rule 3, first arrival (or rule 4 with an empty arrival).
    { w with
      stack :=
        if arrived ≠ 0 then ⟨entry.reconvergencePc, entry.reconvergencePc, arrived⟩ :: w.stack
        else w.stack
      active := entry.mask
      pc := entry.resumePc }

/-- One iteration of `resolve_stack`: the loop goes on with a warp, or returns. -/
def resolveIteration (w : Warp) : Warp ⊕ Bool :=
  if w.active = 0 then
    match w.stack with
    | [] => .inr false
    | entry :: rest => .inl (switchTo { w with stack := rest } entry 0)
  else
    match w.stack with
    | [] => .inr true
    | entry :: rest =>
      if entry.reconvergencePc = w.pc then
        .inl (switchTo { w with stack := rest, reconverged := w.reconverged + 1 } entry w.active)
      else .inr true

/-- A deferred entry is popped twice, once for each arrival; a join entry once. -/
def entryWeight (e : DivergenceEntry) : Nat := if e.isJoin then 1 else 2

def stackWeight (s : List DivergenceEntry) : Nat := (s.map entryWeight).sum

theorem stackWeight_switchTo (w : Warp) (entry : DivergenceEntry) (arrived : LaneMask) :
    stackWeight (w.switchTo entry arrived).stack < stackWeight (entry :: w.stack) := by
  have hjoin : entryWeight ⟨entry.reconvergencePc, entry.reconvergencePc, arrived⟩ = 1 := by
    simp [entryWeight, DivergenceEntry.isJoin]
  rw [switchTo]
  split_ifs with h1 h2 <;> simp [stackWeight, entryWeight, h1] at hjoin ⊢
  simp [hjoin]

/-- An iteration that goes on lowers the stack's weight. -/
theorem stackWeight_resolveIteration {w w' : Warp} (h : w.resolveIteration = .inl w') :
    stackWeight w'.stack < stackWeight w.stack := by
  unfold resolveIteration at h
  split_ifs at h
  · split at h
    · cases h
    · rename_i entry rest hs
      cases h
      rw [hs]
      exact stackWeight_switchTo { w with stack := rest } entry 0
  · split at h
    · cases h
    · rename_i entry rest hs
      split_ifs at h
      cases h
      rw [hs]
      exact stackWeight_switchTo { w with stack := rest, reconverged := w.reconverged + 1 } entry
        w.active

/-- Rules 3 and 4: pops entries until the warp has a non-empty active mask that is not at its
reconvergence point. Returns false when the warp is finished. -/
def resolveStack (w : Warp) : Bool × Warp :=
  match _h : w.resolveIteration with
  | .inl w' => w'.resolveStack
  | .inr more => (more, w)
termination_by stackWeight w.stack
decreasing_by exact stackWeight_resolveIteration _h

def retire (w : Warp) (lanes : LaneMask) : Warp :=
  { w with
    live := w.live &&& ~~~lanes
    active := w.active &&& ~~~lanes
    stack := w.stack.map fun e => { e with mask := e.mask &&& ~~~lanes } }

end Stack

section Settle

theorem resolveStack_eq (w : Warp) : w.resolveStack =
    match w.resolveIteration with
    | .inl w' => w'.resolveStack
    | .inr more => (more, w) := by
  rw [resolveStack]
  split <;> simp_all

theorem resolveIteration_inr {w : Warp} {more : Bool} (h : w.resolveIteration = .inr more) :
    more = !(w.active == 0) := by
  unfold resolveIteration at h
  split_ifs at h with hz
  · split at h <;> simp_all
  · split at h
    · simp_all
    · split_ifs at h
      simp_all

/-- Resolving never makes the stack heavier, and makes it lighter when it starts with no active
lane and still finds a path. -/
theorem stackWeight_resolveStack (w : Warp) :
    stackWeight w.resolveStack.2.stack ≤ stackWeight w.stack
      ∧ (w.resolveStack.1 = true → w.active = 0 →
        stackWeight w.resolveStack.2.stack < stackWeight w.stack) := by
  rw [resolveStack_eq]
  rcases h : w.resolveIteration with w' | more
  · have hlt := stackWeight_resolveIteration h
    have ih := (stackWeight_resolveStack w').1
    exact ⟨Nat.le_trans ih (Nat.le_of_lt hlt), fun _ _ => Nat.lt_of_le_of_lt ih hlt⟩
  · refine ⟨Nat.le_refl _, fun hm hz => ?_⟩
    rw [resolveIteration_inr h, hz] at hm
    simp at hm
termination_by stackWeight w.stack
decreasing_by exact hlt

theorem stackWeight_retire (w : Warp) (lanes : LaneMask) :
    stackWeight (w.retire lanes).stack = stackWeight w.stack := by
  rw [stackWeight, retire, List.map_map]
  rfl

/-- A path with an instruction to issue, or the warp with every lane retired. -/
inductive Settled where
  | finished (w : Warp)
  | ready (i : Instruction) (w : Warp)

def settleWeight (w : Warp) : Nat := 2 * stackWeight w.stack + if w.active = 0 then 0 else 1

theorem settleWeight_retire {w : Warp} (h : w.resolveStack.1 = true) :
    settleWeight (w.resolveStack.2.retire w.resolveStack.2.active) < settleWeight w := by
  obtain ⟨hle, hlt⟩ := stackWeight_resolveStack w
  have hz : (w.resolveStack.2.retire w.resolveStack.2.active).active = 0 := by
    simp [retire]
  rw [settleWeight, settleWeight, stackWeight_retire, if_pos hz]
  split_ifs with ha
  · have := hlt h ha
    omega
  · omega

/-- The loop that opens a step: falling off the end of the program retires the path, until a path
with instructions remains. -/
def settle (program : List Instruction) (w : Warp) : Settled :=
  if _h : w.resolveStack.1 = true then
    match program[w.resolveStack.2.pc.toNat]? with
    | some i => .ready i w.resolveStack.2
    | none => settle program (w.resolveStack.2.retire w.resolveStack.2.active)
  else .finished w.resolveStack.2
termination_by settleWeight w
decreasing_by exact settleWeight_retire _h

end Settle

section Issue

variable {σ : Type} (F : FloatOps) (port : MemoryPort σ)

def advance (w : Warp) : Warp := { w with pc := w.pc + 1 }

/-- The lanes that execute an instruction: the active ones on which its guard holds. -/
def execMask (w : Warp) (i : Instruction) : LaneMask :=
  if i.guard.present then
    lanes.foldl (fun mask lane =>
      if hasLane w.active lane && (w.registers.readPred lane i.guard.pred != i.guard.negate) then
        mask ||| laneBit lane
      else mask) 0
  else w.active

def branch (w : Warp) (i : Instruction) (exec : LaneMask) : Warp :=
  let target := i.branchTarget
  if !i.guard.present then { w with pc := target }
  else
    let taken := exec
    let fallThrough := w.active &&& ~~~exec
    if taken = 0 then w.advance
    else if fallThrough = 0 then { w with pc := target }
    else
      -- Rule 2: diverge. Taken path first, fall-through path deferred.
      { w with
        divergent := w.divergent + 1
        stack := ⟨i.reconvergencePc, w.pc + 1, fallThrough⟩ :: w.stack
        active := taken
        pc := target }

def isMemoryOpcode : Opcode → Bool
  | .ldGlobal | .stGlobal | .ldShared | .stShared | .ldParam => true
  | _ => false

def accessSpace : Opcode → Space
  | .ldShared | .stShared => .shared
  | .ldParam => .param
  | _ => .global

def isStore (op : Opcode) : Bool := op == .stGlobal || op == .stShared

/-- The address each executing lane accesses; zero for the others. -/
def accessAddresses (w : Warp) (i : Instruction) (exec : LaneMask) (lane : Nat) : Word :=
  if hasLane exec lane then
    if accessSpace i.opcode = .param then i.imm else w.registers.read lane i.src0 + i.imm
  else 0

/-- The loop over the lanes of `memory_access`, which stops at the first lane that faults. -/
def accessLanes (i : Instruction) (exec : LaneMask) (addresses : Nat → Word) :
    List Nat → Warp → σ → Except Fault Unit × Warp × σ
  | [], w, m => (.ok (), w, m)
  | lane :: rest, w, m =>
    if !hasLane exec lane then accessLanes i exec addresses rest w m
    else if isStore i.opcode then
      match port.store (accessSpace i.opcode) (addresses lane) (w.registers.read lane i.src1) lane
        m with
      | (.error e, m) => (.error (w.makeFault e.message lane (addresses lane)), w, m)
      | (.ok (), m) => accessLanes i exec addresses rest w m
    else
      match port.load (accessSpace i.opcode) (addresses lane) lane m with
      | (.error e, m) => (.error (w.makeFault e.message lane (addresses lane)), w, m)
      | (.ok value, m) =>
        accessLanes i exec addresses rest
          { w with registers := w.registers.write lane i.dst value } m

def memoryAccess (i : Instruction) (exec : LaneMask) (w : Warp) (m : σ) :
    Except Fault Unit × Warp × σ :=
  let addresses := w.accessAddresses i exec
  let m := if exec ≠ 0 then
      port.onWarpAccess (accessSpace i.opcode) (isStore i.opcode) addresses exec m
    else m
  accessLanes port i exec addresses lanes w m

/-- The part of `step` that issues an instruction. -/
def issue (i : Instruction) (w : Warp) (m : σ) : Except Fault StepOutcome × Warp × σ :=
  let exec := w.execMask i
  let w := { w with lastExec := exec, lastOpcode := i.opcode }
  match i.opcode with
  | .bra => (.ok .issued, w.branch i exec, m)
  | .exit => (.ok .issued, (w.retire exec).advance, m)
  | .barSync =>
    if w.active ≠ w.live then
      (.error (w.makeFault "bar.sync executed in divergent code" 0 0), w, m)
    else (.ok .barrier, { w with parked := true }.advance, m)
  | .ldGlobal | .stGlobal | .ldShared | .stShared | .ldParam =>
    match w.memoryAccess port i exec m with
    | (.error f, w, m) => (.error f, w, m)
    | (.ok (), w, m) => (.ok .issued, w.advance, m)
  | _ =>
    (.ok .issued,
      { w with registers := executeAlu F i exec w.registers w.context }.advance, m)

/-- Executes one scheduling step: resolves the divergence stack, then issues at most one
instruction. -/
def step (program : List Instruction) (w : Warp) (m : σ) : Except Fault StepOutcome × Warp × σ :=
  match w.settle program with
  | .finished w => (.ok .finished, w, m)
  | .ready i w => w.issue F port i m

/-- The warp and the memory after `n` steps. -/
def steps (program : List Instruction) : Nat → Warp → σ → Warp × σ
  | 0, w, m => (w, m)
  | n + 1, w, m => steps program n (w.step F port program m).2.1 (w.step F port program m).2.2

end Issue

end Warp

end WarpSim
