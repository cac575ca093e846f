import WarpSim.Memory

/-!
# Buffers

The arrays of words that a host lays out in global memory for a kernel.
-/

namespace WarpSim

namespace ByteMemory

/-- The memory has room for an aligned buffer of `n` words at byte `k`. -/
def HasBuffer (m : ByteMemory) (k n : Nat) : Prop := k % 4 = 0 ∧ k + 4 * n ≤ m.size

instance (m : ByteMemory) (k n : Nat) : Decidable (m.HasBuffer k n) :=
  inferInstanceAs (Decidable (_ ∧ _))

/-- The buffers of `n` words at `k` and of `n'` words at `k'` do not overlap. -/
def Apart (k n k' n' : Nat) : Prop := k + 4 * n ≤ k' ∨ k' + 4 * n' ≤ k

/-- The signed values of the `n` words at byte `k`. -/
def elements (m : ByteMemory) (k n : Nat) : List Int :=
  (List.range n).map fun i => (m.word (k + 4 * i)).toInt

/-- The memory `m'` differs from `m` only in the `n` words at byte `k`. -/
structure SameBut (k n : Nat) (m m' : ByteMemory) : Prop where
  size : m'.size = m.size
  bytes : ∀ j, ¬(k ≤ j ∧ j < k + 4 * n) → m'.bytes[j]? = m.bytes[j]?

end ByteMemory

/-- The address of the word `i` of a buffer at byte `k`. -/
def element (k i : Nat) : Word := BitVec.ofNat 32 (k + 4 * i)

section Element

variable {m : ByteMemory} {k k' n n' i j : Nat}

theorem toNat_element (hsize : m.size ≤ 2 ^ 32) (h : m.HasBuffer k n) (hi : i < n) :
    (element k i).toNat = k + 4 * i := by
  have := h.2
  exact Nat.mod_eq_of_lt (by omega)

theorem element_aligned (hsize : m.size ≤ 2 ^ 32) (h : m.HasBuffer k n) (hi : i < n) :
    (element k i).toNat % 4 = 0 := by
  have := h.1
  rw [toNat_element hsize h hi]
  omega

theorem element_inj (hsize : m.size ≤ 2 ^ 32) (h : m.HasBuffer k n) (hi : i < n) (hj : j < n)
    (heq : element k i = element k j) : i = j := by
  have := congrArg BitVec.toNat heq
  rw [toNat_element hsize h hi, toNat_element hsize h hj] at this
  omega

theorem element_apart (hsize : m.size ≤ 2 ^ 32) (h : m.HasBuffer k n) (h' : m.HasBuffer k' n')
    (hapart : ByteMemory.Apart k n k' n') (hi : i < n) (hj : j < n') :
    element k i ≠ element k' j := by
  intro heq
  have := congrArg BitVec.toNat heq
  rw [toNat_element hsize h hi, toNat_element hsize h' hj] at this
  rcases hapart with hle | hle <;> omega

theorem element_add (k i d : Nat) : element k i + BitVec.ofNat 32 (4 * d) = element k (i + d) := by
  rw [element, element, ← BitVec.ofNat_add, Nat.mul_add, Nat.add_assoc]

theorem ofNat_add_element (k i : Nat) :
    BitVec.ofNat 32 k + BitVec.ofNat 32 (4 * i) = element k i := (BitVec.ofNat_add _ _).symm

/-- The words of a small buffer at the beginning of a memory. -/
theorem toNat_element_zero (hi : i < 2 ^ 30) : (element 0 i).toNat = 4 * i := by
  rw [element, Nat.zero_add]
  exact Nat.mod_eq_of_lt (by omega)

theorem element_zero_inj (hi : i < 2 ^ 30) (hj : j < 2 ^ 30) (h : element 0 i = element 0 j) :
    i = j := by
  have := congrArg BitVec.toNat h
  rw [toNat_element_zero hi, toNat_element_zero hj] at this
  omega

end Element

end WarpSim
