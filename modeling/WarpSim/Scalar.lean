import WarpSim.Warp

/-!
# One lane by itself

What a program means for a single lane: a scalar machine with its own pc, which knows neither
masks nor a stack nor reconvergence PCs. The lockstep warp is compared with it.
-/

namespace WarpSim

/-- One lane. Its pc is `none` once it has retired. -/
@[ext] structure LaneState where
  pc : Option Pc
  general : BitVec 8 → Word
  predicates : BitVec 8 → Bool

namespace LaneState

def moveTo (s : LaneState) (pc : Pc) : LaneState := { s with pc := some pc }

def write (s : LaneState) (reg : BitVec 8) (value : Word) : LaneState :=
  { s with general := fun r => if r = reg then value else s.general r }

def writePred (s : LaneState) (pred : BitVec 8) (value : Bool) : LaneState :=
  { s with predicates := fun p => if p = pred then value else s.predicates p }

def guardHolds (s : LaneState) (i : Instruction) : Bool :=
  !i.guard.present || (s.predicates i.guard.pred != i.guard.negate)

def operands (s : LaneState) (i : Instruction) : Operands :=
  if (opcodeInfo i.opcode).shape = .rr then
    ⟨if i.immFlag then i.imm else s.general i.src0, 0⟩
  else
    ⟨s.general i.src0, if i.immFlag then i.imm else s.general i.src1⟩

def executeAlu (F : FloatOps) (i : Instruction) (lane : Nat) (ctx : LaneContext)
    (s : LaneState) : LaneState :=
  let o := s.operands i
  if isSetp i.opcode then
    s.writePred i.dst
      (if isSetpF32 i.opcode then compareF32 F i.opcode o.a o.b else compareS32 i.opcode o.a o.b)
  else s.write i.dst (evaluate F i o (s.general i.dst) lane ctx)

variable {σ : Type} (F : FloatOps) (port : MemoryPort σ) (ctx : LaneContext)

def address (s : LaneState) (i : Instruction) : Word :=
  if Warp.accessSpace i.opcode = .param then i.imm else s.general i.src0 + i.imm

/-- One load or store; `none` if it faults. -/
def access (i : Instruction) (lane : Nat) (s : LaneState) (m : σ) : Option (LaneState × σ) :=
  if Warp.isStore i.opcode then
    match port.store (Warp.accessSpace i.opcode) (s.address i) (s.general i.src1) lane m with
    | (.error _, _) => none
    | (.ok (), m) => some (s, m)
  else
    match port.load (Warp.accessSpace i.opcode) (s.address i) lane m with
    | (.error _, _) => none
    | (.ok value, m) => some (s.write i.dst value, m)

/-- An instruction at `pc` whose guard holds. A lane alone has no barrier to meet. -/
def execute (i : Instruction) (pc : Pc) (lane : Nat) (s : LaneState) (m : σ) :
    Option (LaneState × σ) :=
  match i.opcode with
  | .bra => some (s.moveTo i.branchTarget, m)
  | .exit => some ({ s with pc := none }, m)
  | .barSync => none
  | .ldGlobal | .stGlobal | .ldShared | .stShared | .ldParam =>
    match s.access port i lane m with
    | none => none
    | some (s, m) => some (s.moveTo (pc + 1), m)
  | _ => some ((s.executeAlu F i lane ctx).moveTo (pc + 1), m)

theorem execute_memory {i : Instruction} (hop : Warp.isMemoryOpcode i.opcode = true) (pc : Pc)
    (lane : Nat) (s : LaneState) (m : σ) : s.execute F port ctx i pc lane m =
      match s.access port i lane m with
      | none => none
      | some (s, m) => some (s.moveTo (pc + 1), m) := by
  unfold execute
  split <;> simp_all [Warp.isMemoryOpcode]

theorem execute_alu {i : Instruction} (hop : isAluOpcode i.opcode = true) (pc : Pc)
    (lane : Nat) (s : LaneState) (m : σ) : s.execute F port ctx i pc lane m
      = some ((s.executeAlu F i lane ctx).moveTo (pc + 1), m) := by
  unfold execute
  split <;> simp_all [isAluOpcode]

/-- One step of a lane at its own pc; `none` if there is no instruction there, or none that a lane
alone can complete. -/
def step (program : List Instruction) (lane : Nat) (s : LaneState) (m : σ) :
    Option (LaneState × σ) :=
  match s.pc with
  | none => none
  | some pc =>
    match program[pc.toNat]? with
    | none => none
    | some i =>
      if s.guardHolds i then s.execute F port ctx i pc lane m else some (s.moveTo (pc + 1), m)

/-- The lane after `n` steps, or where it stopped before. -/
def steps (program : List Instruction) (lane : Nat) : Nat → LaneState → σ → LaneState × σ
  | 0, s, m => (s, m)
  | n + 1, s, m =>
    match s.step F port ctx program lane m with
    | none => (s, m)
    | some (s, m) => steps program lane n s m

/-- Whether a step from here executes its instruction: there is one, and its guard holds. -/
def executes (program : List Instruction) (s : LaneState) : Bool :=
  match s.pc with
  | none => false
  | some pc =>
    match program[pc.toNat]? with
    | none => false
    | some i => s.guardHolds i

/-- How many of the lane's first `n` steps execute their instruction. -/
def work (program : List Instruction) (lane : Nat) : Nat → LaneState → σ → Nat
  | 0, _, _ => 0
  | n + 1, s, m =>
    match s.step F port ctx program lane m with
    | none => 0
    | some (t, m) => (s.executes program).toNat + work program lane n t m

/-- A lane's run is over when it has retired or fallen off the end. -/
def ended (program : List Instruction) (s : LaneState) : Bool :=
  match s.pc with
  | none => true
  | some pc => program.length ≤ pc.toNat

section Runs

variable {F port ctx} {program : List Instruction} {lane : Nat}

theorem ended_of_retired {s : LaneState} (h : s.pc = none) : s.ended program = true := by
  rw [ended, h]

theorem step_ended {s : LaneState} (h : s.ended program = true) (m : σ) :
    s.step F port ctx program lane m = none := by
  rw [ended] at h
  rw [step]
  rcases hpc : s.pc with _ | pc
  · rfl
  · simp only [hpc, decide_eq_true_eq] at h
    simp only [List.getElem?_eq_none_iff.2 h]

theorem steps_ended {s : LaneState} (h : s.ended program = true) (n : Nat) (m : σ) :
    steps F port ctx program lane n s m = (s, m) := by
  cases n with
  | zero => rfl
  | succ n => rw [steps, step_ended h]

theorem work_ended {s : LaneState} (h : s.ended program = true) (n : Nat) (m : σ) :
    work F port ctx program lane n s m = 0 := by
  cases n with
  | zero => rfl
  | succ n => rw [work, step_ended h]

/-- A run that is over stays as it is, however much longer it is given. -/
theorem steps_stable : ∀ (n n' : Nat) (s : LaneState) (m : σ),
    (steps F port ctx program lane n s m).1.ended program = true →
    (steps F port ctx program lane n' s m).1.ended program = true →
      steps F port ctx program lane n s m = steps F port ctx program lane n' s m
        ∧ work F port ctx program lane n s m = work F port ctx program lane n' s m
  | 0, n', s, m, h, _ => by
    have hs : s.ended program = true := h
    rw [steps_ended hs n', work_ended hs n']
    exact ⟨rfl, rfl⟩
  | n + 1, 0, s, m, _, h' => by
    have hs : s.ended program = true := h'
    rw [steps_ended hs (n + 1), work_ended hs (n + 1)]
    exact ⟨rfl, rfl⟩
  | n + 1, n' + 1, s, m, h, h' => by
    rw [steps] at h h'
    rw [steps, steps, work, work]
    rcases hs : s.step F port ctx program lane m with _ | ⟨t, m₁⟩
    · exact ⟨rfl, rfl⟩
    · rw [hs] at h h'
      obtain ⟨h1, h2⟩ := steps_stable n n' t m₁ h h'
      exact ⟨h1, congrArg ((s.executes program).toNat + ·) h2⟩

end Runs

end LaneState

section Own

/-- The pc of a lane: the warp's if it is active, else the resume PC of the entry whose mask
holds it. -/
def WarpState.ownPc (s : WarpState) (lane : Nat) : Option Pc :=
  if hasLane s.active lane then some s.pc
  else (s.stack.find? fun e => hasLane e.mask lane).map DivergenceEntry.resumePc

/-- What a warp holds of one lane. -/
def WarpState.laneState (s : WarpState) (lane : Nat) : LaneState where
  pc := s.ownPc lane
  general := s.registers.general lane
  predicates := s.registers.predicates lane

/-- The lanes of `active` among the listed ones step one after the other, each over the memory the
one before it left. -/
def stepLanes {σ : Type} (step : Nat → LaneState → σ → Option (LaneState × σ))
    (active : LaneMask) : List Nat → (Nat → LaneState) → σ → Option ((Nat → LaneState) × σ)
  | [], s, m => some (s, m)
  | lane :: rest, s, m =>
    if hasLane active lane then
      match step lane (s lane) m with
      | none => none
      | some (t, m) => stepLanes step active rest (Function.update s lane t) m
    else stepLanes step active rest s m

end Own

end WarpSim
