import WarpSim.Device

/-!
# One warp at a time

Another scheduler for the same blocks: between two completions of the barrier each warp runs alone
until it parks or finishes, in an order that may differ from one interval to the next. When no warp
stores to a word that another one accesses in the same interval, the two schedulers agree.
-/

namespace WarpSim

namespace Access

/-- A store to a word that the other access loads or stores. -/
def Clobbers (a b : Access) : Prop :=
  a.isStore = true ∧ a.space = b.space ∧ a.address.toNat / 4 = b.address.toNat / 4

instance (a b : Access) : Decidable (a.Clobbers b) := by
  unfold Clobbers
  infer_instance

end Access

/-- No warp stores to a word that another one loads or stores between the same two completions of
the barrier. -/
def RaceFree (log : List Event) : Prop :=
  ∀ before interval after, log = before ++ interval ++ after → .released ∉ interval →
    ∀ i outcome accesses, .stepped i outcome accesses ∈ interval →
      ∀ j outcome' accesses', .stepped j outcome' accesses' ∈ interval → i ≠ j →
        ∀ a ∈ accesses, ∀ b ∈ accesses', ¬a.Clobbers b

namespace Block

variable (F : FloatOps) (program : List Instruction)

/-- Runs warp `i` until it parks or finishes, if `fuel` steps are enough. -/
def runAlone (i : Nat) : Nat → Block → Option (Except Fault Block)
  | fuel, b =>
    match b.warps[i]? with
    | none => some (.ok b)
    | some warp =>
      if !warp.runnable then some (.ok b)
      else
        match fuel with
        | 0 => none
        | fuel + 1 =>
          match b.turn F program i warp with
          | (.error f, _) => some (.error f)
          | (.ok _, b) => b.runAlone i fuel

/-- Runs the warps of an interval one after the other. -/
def runInterval (fuel : Nat) : List Nat → Block → Option (Except Fault Block)
  | [], b => some (.ok b)
  | i :: order, b =>
    match b.runAlone F program i fuel with
    | none => none
    | some (.error f) => some (.error f)
    | some (.ok b) => b.runInterval fuel order

/-- Runs interval after interval, in the orders given, until every warp has finished. -/
def runSequential (fuel : Nat) : Nat → (Nat → List Nat) → Block → Option (Except Fault Block)
  | 0, _, _ => none
  | intervals + 1, orders, b =>
    match b.runInterval F program fuel (orders 0) with
    | none => none
    | some (.error f) => some (.error f)
    | some (.ok b) =>
      if !b.anyUnfinished then some (.ok b.finish)
      else b.release.runSequential fuel intervals fun k => orders (k + 1)

end Block

end WarpSim
