import Mathlib.Algebra.Order.Ring.Int
import Mathlib.Data.List.GetD
import Mathlib.Tactic.Basic

/-!
# Sets of blocks

A fixed-size set of block indices, packed 64 per word, as the post-dominator pass keeps them. The
lemmas say what each operation does to membership, and that `count` counts the members.
-/

namespace WarpSim

/-- The number of bits set. -/
def popcount (w : BitVec 64) : Nat := (List.range 64).countP w.getLsbD

/-- A set of indices below `size`. -/
structure BlockSet where
  words : List (BitVec 64) := []
  size : Nat := 0
  deriving DecidableEq

namespace BlockSet

def wordCount (size : Nat) : Nat := (size + 63) / 64

def make (size : Nat) (all : Bool) : BlockSet where
  words :=
    let words := List.replicate (wordCount size) (if all then ~~~(0#64) else 0#64)
    -- The bits above `size` in the last word are cleared, so that `count` is exact.
    if all && !words.isEmpty && size % 64 != 0 then
      words.modify (words.length - 1) fun w => w &&& ((1#64 <<< (size % 64)) - 1#64)
    else words
  size := size

def word (s : BlockSet) (k : Nat) : BitVec 64 := s.words.getD k 0

def contains (s : BlockSet) (i : Nat) : Bool := ((s.word (i / 64) >>> (i % 64)) &&& 1#64) != 0#64

def insert (s : BlockSet) (i : Nat) : BlockSet :=
  { s with words := s.words.modify (i / 64) fun w => w ||| (1#64 <<< (i % 64)) }

def erase (s : BlockSet) (i : Nat) : BlockSet :=
  { s with words := s.words.modify (i / 64) fun w => w &&& ~~~(1#64 <<< (i % 64)) }

def intersect (s other : BlockSet) : BlockSet :=
  { s with words := s.words.mapIdx fun k w => w &&& other.word k }

def count (s : BlockSet) : Nat := (s.words.map popcount).sum

/-- A set over `size` indices, with as many words as they need. -/
structure Shape (size : Nat) (s : BlockSet) : Prop where
  size_eq : s.size = size
  length_eq : s.words.length = wordCount size

section Members

theorem contains_eq (s : BlockSet) (i : Nat) :
    s.contains i = (s.word (i / 64)).getLsbD (i % 64) := by
  rw [contains]
  have hlt : i % 64 < 64 := Nat.mod_lt _ (by decide)
  have hand : (s.word (i / 64) >>> (i % 64)) &&& 1#64
      = if (s.word (i / 64)).getLsbD (i % 64) then 1#64 else 0#64 := by
    apply BitVec.eq_of_getLsbD_eq
    intro k hk
    rw [BitVec.getLsbD_and, BitVec.getLsbD_ushiftRight, BitVec.getLsbD_one]
    rcases Nat.eq_zero_or_pos k with rfl | hk0
    · cases h : (s.word (i / 64)).getLsbD (i % 64)
      · simp
      · simp
    · have hk0 : k ≠ 0 := by omega
      cases (s.word (i / 64)).getLsbD (i % 64) <;> simp [hk0]
  rw [hand]
  cases (s.word (i / 64)).getLsbD (i % 64) <;> rfl

/-- An index past the words is in no set. -/
theorem contains_lt {s : BlockSet} {size i : Nat} (hs : Shape size s) (h : s.contains i = true) :
    i < 64 * wordCount size := by
  by_contra hc
  rw [contains_eq, word, List.getD_eq_default _ _ (by rw [hs.length_eq]; omega)] at h
  simp at h

theorem ext {s t : BlockSet} {size : Nat} (hs : Shape size s) (ht : Shape size t)
    (h : ∀ i, s.contains i = t.contains i) : s = t := by
  have hw : s.words = t.words := by
    refine List.ext_getElem (by rw [hs.length_eq, ht.length_eq]) fun k hk hk' => ?_
    apply BitVec.eq_of_getLsbD_eq
    intro j hj
    have hi := h (64 * k + j)
    have hd : (64 * k + j) / 64 = k := by omega
    have hm : (64 * k + j) % 64 = j := by omega
    rwa [contains_eq, contains_eq, hd, hm, word, word, List.getD_eq_getElem _ _ hk,
      List.getD_eq_getElem _ _ hk'] at hi
  have hsz := hs.size_eq.trans ht.size_eq.symm
  cases s
  cases t
  simp_all

theorem shape_make (size : Nat) (all : Bool) : Shape size (make size all) := by
  refine ⟨rfl, ?_⟩
  rw [make]
  simp only []
  split_ifs <;> simp

theorem shape_insert {s : BlockSet} {size : Nat} (hs : Shape size s) (i : Nat) :
    Shape size (s.insert i) :=
  ⟨hs.size_eq, by rw [insert, List.length_modify, hs.length_eq]⟩

theorem shape_erase {s : BlockSet} {size : Nat} (hs : Shape size s) (i : Nat) :
    Shape size (s.erase i) :=
  ⟨hs.size_eq, by rw [erase, List.length_modify, hs.length_eq]⟩

theorem shape_intersect {s : BlockSet} {size : Nat} (hs : Shape size s) (t : BlockSet) :
    Shape size (s.intersect t) :=
  ⟨hs.size_eq, by rw [intersect, List.length_mapIdx, hs.length_eq]⟩

theorem contains_intersect (s t : BlockSet) (i : Nat) :
    (s.intersect t).contains i = (s.contains i && t.contains i) := by
  rw [contains_eq, contains_eq, contains_eq, ← BitVec.getLsbD_and]
  congr 1
  rw [intersect, word, word, List.getD_eq_getElem?_getD, List.getElem?_mapIdx,
    List.getD_eq_getElem?_getD]
  cases s.words[i / 64]? <;> simp

theorem word_modify {s : BlockSet} {n : Nat} (hn : n < s.words.length)
    (f : BitVec 64 → BitVec 64) (k : Nat) :
    BlockSet.word { s with words := s.words.modify n f } k
      = if k = n then f (s.word k) else s.word k := by
  rw [word, word, List.getD_eq_getElem?_getD, List.getD_eq_getElem?_getD, List.getElem?_modify]
  by_cases h : k = n
  · subst h
    simp [List.getElem?_eq_getElem hn]
  · simp [h, Ne.symm h]

/-- The bit of index `i` is the one at its place in its word. -/
theorem bit_place (i j : Nat) :
    decide (j = i) = decide (j / 64 = i / 64 ∧ j % 64 = i % 64) :=
  decide_eq_decide.2 (by omega)

theorem getLsbD_one_shiftLeft {r j : Nat} (hj : j < 64) :
    (1#64 <<< r).getLsbD j = decide (j = r) := by
  rw [← BitVec.twoPow_eq, BitVec.getLsbD_twoPow]
  by_cases h : j = r
  · subst h
    simp [hj]
  · simp [h, Ne.symm h]

theorem contains_insert {s : BlockSet} {size i : Nat} (hs : Shape size s)
    (hi : i < 64 * wordCount size) (j : Nat) :
    (s.insert i).contains j = (s.contains j || decide (j = i)) := by
  have hlen : i / 64 < s.words.length := by rw [hs.length_eq]; omega
  have hj : j % 64 < 64 := Nat.mod_lt _ (by decide)
  rw [contains_eq, contains_eq, insert, word_modify hlen, bit_place i j]
  by_cases h : j / 64 = i / 64
  · simp only [h, if_true, BitVec.getLsbD_or, getLsbD_one_shiftLeft hj, true_and]
  · simp only [h, if_false, false_and, decide_false, Bool.or_false]

theorem contains_erase {s : BlockSet} {size i : Nat} (hs : Shape size s)
    (hi : i < 64 * wordCount size) (j : Nat) :
    (s.erase i).contains j = (s.contains j && !decide (j = i)) := by
  have hlen : i / 64 < s.words.length := by rw [hs.length_eq]; omega
  have hj : j % 64 < 64 := Nat.mod_lt _ (by decide)
  rw [contains_eq, contains_eq, erase, word_modify hlen, bit_place i j]
  by_cases h : j / 64 = i / 64
  · simp only [h, if_true, BitVec.getLsbD_and, BitVec.getLsbD_not, hj, decide_true,
      Bool.true_and, getLsbD_one_shiftLeft hj, true_and]
  · simp only [h, if_false, false_and, decide_false, Bool.not_false, Bool.and_true]

theorem lt_wordCount {size i : Nat} (h : i < size) : i < 64 * wordCount size := by
  rw [wordCount]
  omega

theorem getLsbD_lowMask {r : Nat} (hr : r < 64) (j : Nat) :
    ((1#64 <<< r) - 1#64).getLsbD j = decide (j < r) := by
  have heq : ((1#64 <<< r) - 1#64).toNat = 2 ^ r - 1 := by
    rw [← BitVec.twoPow_eq, BitVec.toNat_sub_of_le, BitVec.toNat_twoPow_of_lt hr]
    · rfl
    · rw [BitVec.le_def, BitVec.toNat_twoPow_of_lt hr]
      exact Nat.two_pow_pos r
  rw [BitVec.getLsbD, heq, Nat.testBit_two_pow_sub_one]

theorem word_replicate {n k : Nat} (w : BitVec 64) (size : Nat) :
    BlockSet.word ⟨List.replicate n w, size⟩ k = if k < n then w else 0 := by
  rw [word]
  split_ifs with h
  · rw [List.getD_eq_getElem _ _ (by simpa using h), List.getElem_replicate]
  · exact List.getD_eq_default _ _ (by simpa using h)

theorem contains_make_false (size i : Nat) : (make size false).contains i = false := by
  rw [contains_eq, make]
  simp only [Bool.false_and, Bool.false_eq_true, if_false]
  rw [word_replicate]
  split_ifs <;> simp

theorem contains_make_true (size i : Nat) : (make size true).contains i = decide (i < size) := by
  have hm : i % 64 < 64 := Nat.mod_lt _ (by decide)
  have hbit : ∀ n, (if i / 64 < n then ~~~(0#64) else 0#64).getLsbD (i % 64)
      = decide (i / 64 < n) := by
    intro n
    split_ifs with h
    · rw [BitVec.getLsbD_not, BitVec.getLsbD_zero]
      simp [hm, h]
    · rw [BitVec.getLsbD_zero]
      simp [h]
  rw [contains_eq, make]
  by_cases hr : size % 64 = 0
  · simp only [hr, bne_self_eq_false, Bool.and_false, Bool.false_eq_true, if_false, if_true]
    rw [word_replicate, BitVec.ofNat_eq_ofNat, hbit, decide_eq_decide, wordCount]
    omega
  · have hpos : 0 < wordCount size := by
      rw [wordCount]
      omega
    have hlen : wordCount size - 1 < (List.replicate (wordCount size) (~~~(0#64))).length := by
      rw [List.length_replicate]
      omega
    have hcond : (true && !(List.replicate (wordCount size) (~~~(0#64))).isEmpty
        && size % 64 != 0) = true := by
      simp [hr, Nat.ne_of_gt hpos]
    simp only [if_true, hcond]
    rw [List.length_replicate, word_modify (s := ⟨_, size⟩) hlen, word_replicate,
      BitVec.ofNat_eq_ofNat]
    by_cases h : i / 64 = wordCount size - 1
    · rw [if_pos h, BitVec.getLsbD_and, hbit, getLsbD_lowMask (Nat.mod_lt _ (by decide)),
        ← Bool.decide_and, decide_eq_decide]
      rw [wordCount] at h ⊢
      omega
    · rw [if_neg h, hbit, decide_eq_decide]
      rw [wordCount] at h ⊢
      omega

end Members

section Count

theorem sum_popcount (ws : List (BitVec 64)) : (ws.map popcount).sum
    = (List.range (64 * ws.length)).countP fun i => (ws.getD (i / 64) 0).getLsbD (i % 64) := by
  induction ws with
  | nil => rfl
  | cons w ws ih =>
    have hlen : 64 * (w :: ws).length = 64 + 64 * ws.length := by
      rw [List.length_cons]
      omega
    rw [hlen, List.range_add, List.countP_append, List.countP_map, List.map_cons, List.sum_cons, ih,
      popcount]
    refine congrArg₂ (· + ·) (List.countP_congr fun i hi => ?_) (List.countP_congr fun i _ => ?_)
    · have hi : i < 64 := List.mem_range.1 hi
      rw [Nat.div_eq_of_lt hi, Nat.mod_eq_of_lt hi]
      rfl
    · have hd : (64 + i) / 64 = i / 64 + 1 := by omega
      have hm : (64 + i) % 64 = i % 64 := by omega
      simp only [Function.comp_apply, hd, hm, List.getD_cons_succ]

theorem count_bits {s : BlockSet} {size : Nat} (hs : Shape size s) :
    s.count = (List.range (64 * wordCount size)).countP s.contains := by
  rw [count, sum_popcount, hs.length_eq]
  exact List.countP_congr fun i _ => by rw [contains_eq, word]

/-- `count` is the number of members. -/
theorem count_eq {s : BlockSet} {size : Nat} (hs : Shape size s)
    (hlt : ∀ i, s.contains i = true → i < size) :
    s.count = (List.range size).countP s.contains := by
  have hle : size ≤ 64 * wordCount size := by
    rw [wordCount]
    omega
  obtain ⟨k, hk⟩ := Nat.exists_eq_add_of_le hle
  rw [count_bits hs, hk, List.range_add, List.countP_append, List.countP_map, Nat.add_eq_left,
    List.countP_eq_zero]
  intro i _ h
  have : size + i < size := hlt _ h
  omega

theorem countP_lt_countP {p q : Nat → Bool} {l : List Nat} {a : Nat}
    (h : ∀ i ∈ l, p i = true → q i = true) (ha : a ∈ l) (hq : q a = true) (hp : ¬p a = true) :
    l.countP p < l.countP q := by
  obtain ⟨l₁, l₂, rfl⟩ := List.append_of_mem ha
  have h₁ := List.countP_mono_left (l := l₁) fun i hi => h i (List.mem_append_left _ hi)
  have h₂ := List.countP_mono_left (l := l₂) fun i hi =>
    h i (List.mem_append_right _ (List.mem_cons_of_mem _ hi))
  rw [List.countP_append, List.countP_append, List.countP_cons_of_neg hp,
    List.countP_cons_of_pos hq]
  omega

/-- A proper subset has fewer members. -/
theorem count_lt {s t : BlockSet} {size : Nat} (hs : Shape size s) (ht : Shape size t)
    (hsub : ∀ i, s.contains i = true → t.contains i = true) (hne : s ≠ t) : s.count < t.count := by
  obtain ⟨i, hi⟩ : ∃ i, ¬s.contains i = t.contains i := by
    by_contra hc
    exact hne (ext hs ht fun i => by_contra fun h => hc ⟨i, h⟩)
  have hs' : ¬s.contains i = true := fun h => hi (h.trans (hsub i h).symm)
  have ht' : t.contains i = true := by
    cases h : t.contains i
    · rw [h, Bool.not_eq_false] at hi
      exact absurd hi hs'
    · rfl
  rw [count_bits hs, count_bits ht]
  exact countP_lt_countP (fun i _ => hsub i) (List.mem_range.2 (contains_lt ht ht')) ht' hs'

end Count

end BlockSet

end WarpSim
