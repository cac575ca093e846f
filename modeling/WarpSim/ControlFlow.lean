import WarpSim.Instruction
import WarpSim.Lib.PostDom

/-!
# Control flow

The control-flow graph of a program as section 8.1 of the specification draws it, between
instructions and between basic blocks. A vertex is the PC of an instruction, or of a block's first
one; `none` is the end of the program, the virtual exit node.
-/

namespace WarpSim

variable (program : List Instruction)

/-- The instruction at `pc`, or the end of the program. -/
def atPc (pc : Nat) : Option Nat := if pc < program.length then some pc else none

/-- Control can go from one instruction to the next. -/
def Succ : Option Nat → Option Nat → Prop
  | none, _ => False
  | some pc, next => ∃ i, program[pc]? = some i ∧
    match i.opcode with
    | .bra => next = atPc program i.branchTarget.toNat
      ∨ (i.guard.present = true ∧ next = atPc program (pc + 1))
    | .exit => next = none ∨ (i.guard.present = true ∧ next = atPc program (pc + 1))
    | _ => next = atPc program (pc + 1)

section Succ

variable {program} {pc : Nat} {i : Instruction} {next : Option Nat}

theorem succ_bra (hi : program[pc]? = some i) (hop : i.opcode = .bra) :
    Succ program (some pc) next ↔ next = atPc program i.branchTarget.toNat
      ∨ (i.guard.present = true ∧ next = atPc program (pc + 1)) := by
  simp only [Succ, hi, Option.some.injEq, exists_eq_left', hop]

theorem succ_exit (hi : program[pc]? = some i) (hop : i.opcode = .exit) :
    Succ program (some pc) next
      ↔ next = none ∨ (i.guard.present = true ∧ next = atPc program (pc + 1)) := by
  simp only [Succ, hi, Option.some.injEq, exists_eq_left', hop]

theorem succ_other (hi : program[pc]? = some i) (hbra : i.opcode ≠ .bra)
    (hexit : i.opcode ≠ .exit) : Succ program (some pc) next ↔ next = atPc program (pc + 1) := by
  simp only [Succ, hi, Option.some.injEq, exists_eq_left']

theorem succ_atPc {x : Option Nat} (h : Succ program x next) : ∃ pc, next = atPc program pc := by
  rcases x with _ | pc
  · cases h
  · obtain ⟨i, -, h⟩ := h
    split at h
    · rcases h with h | ⟨-, h⟩ <;> exact ⟨_, h⟩
    · rcases h with h | ⟨-, h⟩
      · exact ⟨program.length, by rw [h, atPc, if_neg (Nat.lt_irrefl _)]⟩
      · exact ⟨_, h⟩
    · exact ⟨_, h⟩

end Succ

/-- A block begins at PC 0, at every branch target, and after every `bra` and `exit`. -/
def IsLeader (pc : Nat) : Prop :=
  pc < program.length ∧ (pc = 0
    ∨ (∃ i ∈ program, i.opcode = .bra ∧ i.branchTarget.toNat = pc)
    ∨ ∃ k i, program[k]? = some i ∧ (i.opcode = .bra ∨ i.opcode = .exit) ∧ pc = k + 1)

/-- The instruction at `pc` is in the block that begins at `start`. -/
structure InBlock (start pc : Nat) : Prop where
  leader : IsLeader program start
  le : start ≤ pc
  lt : pc < program.length
  first : ∀ k, start < k → k ≤ pc → ¬IsLeader program k

def EndsBlock (pc : Nat) : Prop := pc + 1 = program.length ∨ IsLeader program (pc + 1)

/-- Control can go from the end of one block to the next. -/
def BlockSucc : Option Nat → Option Nat → Prop
  | none, _ => False
  | some start, next =>
    ∃ pc, InBlock program start pc ∧ EndsBlock program pc ∧ Succ program (some pc) next

end WarpSim
