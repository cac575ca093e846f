import WarpSim.BlockSet
import Mathlib.Data.Finset.Card

/-!
# What a block set stands for

A run of operations on named sets, done on packed words and on sets of numbers side by side. The
words always stand for the sets exactly: the bits past the size stay zero, so membership, the
count and equality can be read off them.
-/

namespace WarpSim

namespace BlockSet

section Operations

/-- An operation on the sets of a function, each with a number for its name. -/
inductive Op where
  | construct (v : Nat) (all : Bool)
  | insert (v i : Nat)
  | erase (v i : Nat)
  | intersect (v other : Nat)
  | copy (v other : Nat)

namespace Op

/-- The indices an operation is given are below the size. -/
def Below (size : Nat) : Op → Prop
  | .insert _ i | .erase _ i => i < size
  | _ => True

/-- The operation on packed words. -/
def run (size : Nat) (env : Nat → BlockSet) : Op → Nat → BlockSet
  | .construct v all => Function.update env v (make size all)
  | .insert v i => Function.update env v ((env v).insert i)
  | .erase v i => Function.update env v ((env v).erase i)
  | .intersect v other => Function.update env v ((env v).intersect (env other))
  | .copy v other => Function.update env v (env other)

/-- The operation on sets of numbers. -/
def mean (size : Nat) (sets : Nat → Finset Nat) : Op → Nat → Finset Nat
  | .construct v all => Function.update sets v (if all then Finset.range size else ∅)
  | .insert v i => Function.update sets v (Insert.insert i (sets v))
  | .erase v i => Function.update sets v ((sets v).erase i)
  | .intersect v other => Function.update sets v (sets v ∩ sets other)
  | .copy v other => Function.update sets v (sets other)

end Op

/-- The words have a bit for each member, and no other. -/
structure Represents (size : Nat) (s : BlockSet) (members : Finset Nat) : Prop where
  shape : Shape size s
  below : ∀ i ∈ members, i < size
  contains : ∀ i, s.contains i = decide (i ∈ members)

variable {size : Nat} {s t : BlockSet} {A B : Finset Nat}

theorem represents_make (size : Nat) (all : Bool) :
    Represents size (make size all) (if all then Finset.range size else ∅) := by
  refine ⟨shape_make size all, fun i hi => ?_, fun i => ?_⟩
  · cases all
    · simp at hi
    · simpa using hi
  · cases all
    · simp [contains_make_false]
    · simp [contains_make_true]

namespace Represents

theorem insert (h : Represents size s A) {i : Nat} (hi : i < size) :
    Represents size (s.insert i) (Insert.insert i A) := by
  refine ⟨shape_insert h.shape i, ?_, fun j => ?_⟩
  · exact Finset.forall_mem_insert _ _ _ |>.2 ⟨hi, h.below⟩
  · rw [contains_insert h.shape (lt_wordCount hi), h.contains, ← Bool.decide_or, decide_eq_decide,
      Finset.mem_insert, or_comm]

theorem erase (h : Represents size s A) {i : Nat} (hi : i < size) :
    Represents size (s.erase i) (A.erase i) := by
  refine ⟨shape_erase h.shape i, fun j hj => h.below j (Finset.mem_of_mem_erase hj), fun j => ?_⟩
  rw [contains_erase h.shape (lt_wordCount hi), h.contains, ← decide_not, ← Bool.decide_and,
    decide_eq_decide, Finset.mem_erase, and_comm]

theorem intersect (h : Represents size s A) (h' : Represents size t B) :
    Represents size (s.intersect t) (A ∩ B) := by
  refine ⟨shape_intersect h.shape t, fun j hj => h.below j (Finset.mem_of_mem_inter_left hj),
    fun j => ?_⟩
  rw [contains_intersect, h.contains, h'.contains, ← Bool.decide_and, decide_eq_decide,
    Finset.mem_inter]

/-- One operation keeps the words of every set in step with the set. -/
theorem run {env : Nat → BlockSet} {sets : Nat → Finset Nat}
    (h : ∀ v, Represents size (env v) (sets v)) {op : Op} (hop : op.Below size) (u : Nat) :
    Represents size (op.run size env u) (op.mean size sets u) := by
  have hset : ∀ (v : Nat) {s : BlockSet} {A : Finset Nat}, Represents size s A →
      Represents size (Function.update env v s u) (Function.update sets v A u) := by
    intro v s A hs
    by_cases hu : u = v
    · subst hu
      rwa [Function.update_self, Function.update_self]
    · rw [Function.update_of_ne hu, Function.update_of_ne hu]
      exact h u
  cases op with
  | construct v all => exact hset v (represents_make size all)
  | insert v i => exact hset v ((h v).insert hop)
  | erase v i => exact hset v ((h v).erase hop)
  | intersect v other => exact hset v ((h v).intersect (h other))
  | copy v other => exact hset v (h other)

theorem foldl : ∀ (ops : List Op) {env : Nat → BlockSet} {sets : Nat → Finset Nat},
    (∀ op ∈ ops, op.Below size) → (∀ v, Represents size (env v) (sets v)) →
      ∀ v, Represents size (ops.foldl (Op.run size) env v) (ops.foldl (Op.mean size) sets v)
  | [], _, _, _, h => h
  | _ :: ops, _, _, hops, h =>
    have hops := List.forall_mem_cons.1 hops
    foldl ops hops.2 fun v => run h hops.1 v

theorem count (h : Represents size s A) : s.count = A.card := by
  have hA : ((List.range size).filter s.contains).toFinset = A := by
    ext i
    rw [List.mem_toFinset, List.mem_filter, List.mem_range, h.contains, decide_eq_true_eq]
    exact ⟨fun hi => hi.2, fun hi => ⟨h.below i hi, hi⟩⟩
  have hlt : ∀ i, s.contains i = true → i < size := fun i hi => by
    rw [h.contains, decide_eq_true_eq] at hi
    exact h.below i hi
  rw [count_eq h.shape hlt, List.countP_eq_length_filter, ← hA,
    List.toFinset_card_of_nodup (List.nodup_range.filter _)]

theorem eq_iff (h : Represents size s A) (h' : Represents size t B) : s = t ↔ A = B := by
  constructor
  · rintro rfl
    ext i
    rw [← decide_eq_decide, ← h.contains, ← h'.contains]
  · rintro rfl
    exact ext h.shape h'.shape fun i => by rw [h.contains, h'.contains]

/-- Every bit at or past the size is zero. -/
theorem bit_past (h : Represents size s A) {i : Nat} (hi : size ≤ i) :
    (s.word (i / 64)).getLsbD (i % 64) = false := by
  rw [← contains_eq, h.contains, decide_eq_false_iff_not]
  exact fun hmem => absurd (h.below i hmem) (Nat.not_lt.2 hi)

end Represents

end Operations

section Statement

/-- After any operations on sets of one size, with indices below it, every set's words stand for
its members exactly. A set reads as empty before it is constructed. -/
theorem represents_exactly (size : Nat) (ops : List Op) (hops : ∀ op ∈ ops, op.Below size)
    (v : Nat) :
    let env := ops.foldl (Op.run size) fun _ => make size false
    let sets := ops.foldl (Op.mean size) fun _ => ∅
    sets v ⊆ Finset.range size
    ∧ (∀ i < size, (env v).contains i = true ↔ i ∈ sets v)
    ∧ (env v).count = (sets v).card
    ∧ (∀ u, env v = env u ↔ sets v = sets u)
    ∧ (env v).words.length = wordCount size
    ∧ ∀ i, size ≤ i → ((env v).word (i / 64)).getLsbD (i % 64) = false := by
  intro env sets
  have h : ∀ u, Represents size (env u) (sets u) :=
    Represents.foldl ops hops fun _ => represents_make size false
  refine ⟨fun i hi => Finset.mem_range.2 ((h v).below i hi), fun i _ => ?_, (h v).count,
    fun u => (h v).eq_iff (h u), (h v).shape.length_eq, fun i hi => (h v).bit_past hi⟩
  rw [(h v).contains, decide_eq_true_eq]

/-- The full set of 65 indices, less one, meets a set of two. -/
theorem represents_exactly_two_words :
    (([.construct 0 true, .erase 0 64, .insert 1 64, .insert 1 3, .intersect 0 1] : List Op).foldl
      (Op.run 65) (fun _ => make 65 false) 0).count
      = (([.construct 0 true, .erase 0 64, .insert 1 64, .insert 1 3, .intersect 0 1] :
        List Op).foldl (Op.mean 65) (fun _ => ∅) 0).card := by
  refine (represents_exactly 65 _ ?_ 0).2.2.1
  simp [Op.Below]

end Statement

end BlockSet

end WarpSim
