import WarpSim.Arena
import Mathlib

/-!
# What the arena grants

The next free byte is a multiple of the alignment and never goes back, so what successful calls
are granted never overlaps, whatever fails in between. But a call moves the next free byte before
it finds out that it fails, so only a call that takes nothing can fail and leave the arena as it
was.
-/

namespace WarpSim

namespace Arena

section Alloc

/-- The bytes a call takes: its size rounded up to the alignment. -/
def roundUp (alignment nbytes : Nat) : Nat := (nbytes + alignment - 1) / alignment * alignment

variable {a : Arena} {c : Call}

theorem le_roundUp {alignment : Nat} (h : 0 < alignment) (nbytes : Nat) :
    nbytes ≤ roundUp alignment nbytes := by
  have hdiv := Nat.div_add_mod (nbytes + alignment - 1) alignment
  have hmod := Nat.mod_lt (nbytes + alignment - 1) h
  rw [roundUp, Nat.mul_comm]
  omega

theorem roundUp_zero {alignment : Nat} (h : 0 < alignment) : roundUp alignment 0 = 0 := by
  rw [roundUp, Nat.zero_add, Nat.div_eq_of_lt (Nat.sub_lt h Nat.one_pos), Nat.zero_mul]

/-- Rounding up past a multiple of the alignment only rounds up the size. -/
theorem roundUp_add {alignment next : Nat} (h : 0 < alignment) (hnext : alignment ∣ next)
    (nbytes : Nat) : roundUp alignment (next + nbytes) = next + roundUp alignment nbytes := by
  obtain ⟨k, rfl⟩ := hnext
  have hsum : alignment * k + nbytes + alignment - 1
      = nbytes + alignment - 1 + alignment * k := by omega
  rw [roundUp, hsum, Nat.add_mul_div_left _ _ h, Nat.add_mul, Nat.mul_comm k, Nat.add_comm, roundUp]

theorem device_write_size {global device : ByteMemory} {offset : Nat} {data : List (BitVec 8)}
    (h : Device.write global offset data = .ok device) : device.size = global.size := by
  rw [Device.write] at h
  split_ifs at h with h1 h2
  cases h
  simp only [ByteMemory.size, List.length_append, List.length_take, List.length_drop] at h2 ⊢
  omega

theorem alloc_eq (a : Arena) (nbytes : Nat) : (a.alloc nbytes).2
    = { a with next := roundUp a.alignment (a.next + nbytes) } := by
  rw [alloc]
  simp only []
  split_ifs <;> rfl

/-- Successful or not, a call moves the next free byte past what it asks for. -/
theorem call_next (a : Arena) (c : Call) : (a.call c).2.alignment = a.alignment
    ∧ (a.call c).2.device.size = a.device.size
    ∧ (a.call c).2.next = roundUp a.alignment (a.next + c.nbytes) := by
  cases c with
  | alloc nbytes =>
    rw [call, alloc_eq]
    exact ⟨rfl, rfl, rfl⟩
  | upload array =>
    have h := alloc_eq a array.length
    rw [call, upload]
    rcases halloc : a.alloc array.length with ⟨e | offset, a'⟩ <;> rw [halloc] at h <;> subst h
    · exact ⟨rfl, rfl, rfl⟩
    · rcases hwrite : Device.write a.device offset array with e | device
      · simp [hwrite, Call.nbytes]
      · simp [hwrite, device_write_size hwrite, Call.nbytes]

theorem alloc_ok {nbytes offset : Nat} (h : (a.alloc nbytes).1 = .ok offset) :
    offset = a.next ∧ roundUp a.alignment (a.next + nbytes) ≤ a.device.size := by
  rw [alloc] at h
  simp only [] at h
  split_ifs at h with hlt
  cases h
  exact ⟨rfl, Nat.not_lt.1 hlt⟩

theorem call_ok {offset : Nat} (h : (a.call c).1 = .ok offset) :
    offset = a.next ∧ roundUp a.alignment (a.next + c.nbytes) ≤ a.device.size := by
  cases c with
  | alloc nbytes => exact alloc_ok h
  | upload array =>
    rw [call, upload] at h
    rcases halloc : a.alloc array.length with ⟨e | offset', a'⟩ <;> rw [halloc] at h
    · cases h
    · have hok := alloc_ok (a := a) (by rw [halloc])
      simp only [] at h
      split at h
      · cases h
      · cases h
        exact hok

theorem alloc_error (a : Arena) (nbytes : Nat) : (∃ e, (a.alloc nbytes).1 = .error e)
    ↔ a.device.size < roundUp a.alignment (a.next + nbytes) := by
  rw [alloc]
  simp only []
  split_ifs with h
  · exact ⟨fun _ => h, fun _ => ⟨_, rfl⟩⟩
  · exact ⟨fun ⟨e, he⟩ => (by cases he), fun hlt => absurd hlt h⟩

/-- A call raises when the arena is exhausted, or when its offset is no argument for the copy. -/
theorem call_error (halign : 0 < a.alignment) : (∃ e, (a.call c).1 = .error e)
    ↔ a.device.size < roundUp a.alignment (a.next + c.nbytes)
      ∨ (c.isUpload = true ∧ 2 ^ 32 ≤ a.next) := by
  cases c with
  | alloc nbytes =>
    rw [call, alloc_error]
    simp [Call.isUpload, Call.nbytes]
  | upload array =>
    have hsnd := alloc_eq a array.length
    have herror := alloc_error a array.length
    rw [call, upload, Call.nbytes, Call.isUpload, ← herror]
    rcases halloc : a.alloc array.length with ⟨e | offset, a'⟩ <;>
      rw [halloc] at hsnd herror <;> subst hsnd
    · exact ⟨fun h => .inl h, fun _ => ⟨e, rfl⟩⟩
    · obtain ⟨rfl, hroom⟩ := alloc_ok (a := a) (by rw [halloc])
      have hfit := le_roundUp halign (a.next + array.length)
      simp only [Device.write, reduceCtorEq, exists_false, false_or, true_and]
      split_ifs with h1 h2
      · exact ⟨fun _ => h1, fun _ => ⟨_, rfl⟩⟩
      · omega
      · exact ⟨fun ⟨e, he⟩ => (by cases he), fun h => absurd h h1⟩

end Alloc

section Separate

/-- The successful calls' bytes do not overlap, begin at multiples of the alignment and lie inside
global memory. -/
structure Separate (a : Arena) (calls : List Call) : Prop where
  disjoint : (a.granted calls).Pairwise fun r r' =>
    Disjoint (Set.Ico r.1 (r.1 + r.2)) (Set.Ico r'.1 (r'.1 + r'.2))
  aligned : ∀ r ∈ a.granted calls, a.alignment ∣ r.1
  inside : ∀ r ∈ a.granted calls, r.1 + r.2 ≤ a.device.size

/-- What is granted comes after the next free byte, one range after the other. -/
theorem granted_ordered : ∀ (calls : List Call) {a : Arena}, 0 < a.alignment →
    a.alignment ∣ a.next →
    (a.granted calls).Pairwise (fun r r' => r.1 + r.2 ≤ r'.1)
      ∧ ∀ r ∈ a.granted calls, a.next ≤ r.1 ∧ a.alignment ∣ r.1 ∧ r.1 + r.2 ≤ a.device.size
  | [], _, _, _ => ⟨.nil, List.forall_mem_nil _⟩
  | c :: calls, a, halign, hnext => by
    obtain ⟨hsame, hsize, hmoved⟩ := call_next a c
    have hle := le_roundUp halign (a.next + c.nbytes)
    have hdvd : (a.call c).2.alignment ∣ (a.call c).2.next := by
      rw [hsame, hmoved]
      exact Nat.dvd_mul_left _ _
    obtain ⟨hpair, hall⟩ := granted_ordered calls (hsame ▸ halign) hdvd
    rw [hsame, hsize, hmoved] at hall
    have hlater : ∀ r ∈ (a.call c).2.granted calls,
        a.next ≤ r.1 ∧ a.alignment ∣ r.1 ∧ r.1 + r.2 ≤ a.device.size := by
      intro r hr
      obtain ⟨h1, h2⟩ := hall r hr
      exact ⟨by omega, h2⟩
    rw [granted]
    rcases hc : (a.call c).1 with e | offset
    · exact ⟨hpair, hlater⟩
    · obtain ⟨rfl, hroom⟩ := call_ok hc
      refine ⟨List.pairwise_cons.2 ⟨fun r hr => ?_, hpair⟩,
        List.forall_mem_cons.2 ⟨⟨Nat.le_refl _, hnext, by simp only []; omega⟩, hlater⟩⟩
      have := (hall r hr).1
      simp only []
      omega

theorem separate {a : Arena} (halign : 0 < a.alignment) (hnext : a.alignment ∣ a.next)
    (calls : List Call) : a.Separate calls := by
  obtain ⟨hpair, hall⟩ := granted_ordered calls halign hnext
  refine ⟨hpair.imp fun {r r'} hle => ?_, fun r hr => (hall r hr).2.1, fun r hr => (hall r hr).2.2⟩
  exact Set.Ico_disjoint_Ico.2 (le_trans (min_le_left _ _) (le_trans hle (le_max_right _ _)))

end Separate

section Atomic

/-- A call that raises leaves the arena as it was, and the calls after it as if it had never been
made. -/
def Atomic (a : Arena) (calls : List Call) : Prop :=
  ∀ before c rest e, calls = before ++ c :: rest → ((a.after before).call c).1 = .error e →
    ((a.after before).call c).2 = a.after before
      ∧ ((a.after before).call c).2.results rest = (a.after before).results rest

/-- The bytes that calls take together. -/
def taken (alignment : Nat) (calls : List Call) : Nat :=
  (calls.map fun c => roundUp alignment c.nbytes).sum

/-- Every call that asks for any bytes gets them: with `used` bytes taken before, the sizes up to
it, each rounded up, come to no more than the device has, and the offset of an upload is a 32-bit
integer. -/
def Fits (size alignment used : Nat) (calls : List Call) : Prop :=
  ∀ before c rest, calls = before ++ c :: rest → c.nbytes ≠ 0 →
    used + taken alignment (before ++ [c]) ≤ size
      ∧ (c.isUpload = true → used + taken alignment before < 2 ^ 32)

theorem atomic_cons {a : Arena} {c : Call} {calls : List Call} : a.Atomic (c :: calls)
    ↔ (∀ e, (a.call c).1 = .error e → (a.call c).2 = a) ∧ (a.call c).2.Atomic calls := by
  have hsame : ∀ {b b' : Arena} (rest : List Call),
      (b' = b ∧ b'.results rest = b.results rest) ↔ b' = b :=
    fun rest => ⟨And.left, fun h => ⟨h, by rw [h]⟩⟩
  simp only [Atomic, hsame]
  constructor
  · intro h
    exact ⟨fun e he => h [] c calls e rfl he, fun before c' rest e hl he =>
      h (c :: before) c' rest e (by rw [hl]; rfl) he⟩
  · rintro ⟨h1, h2⟩ before c' rest e hl he
    cases before with
    | nil =>
      cases hl
      exact h1 e he
    | cons c'' before =>
      cases hl
      exact h2 before c' rest e rfl he

theorem fits_cons {size alignment used : Nat} {c : Call} {calls : List Call} :
    Fits size alignment used (c :: calls) ↔ (c.nbytes ≠ 0 →
        used + roundUp alignment c.nbytes ≤ size ∧ (c.isUpload = true → used < 2 ^ 32))
      ∧ Fits size alignment (used + roundUp alignment c.nbytes) calls := by
  constructor
  · intro h
    refine ⟨fun hc => by simpa [taken] using h [] c calls rfl hc, fun before c' rest hl hc' => ?_⟩
    have := h (c :: before) c' rest (by rw [hl]; rfl) hc'
    simpa [taken, Nat.add_assoc] using this
  · rintro ⟨h1, h2⟩ before c' rest hl hc'
    cases before with
    | nil =>
      cases hl
      simpa [taken] using h1 hc'
    | cons c'' before =>
      cases hl
      have := h2 before c' rest rfl hc'
      simpa [taken, Nat.add_assoc] using this

/-- A call for no bytes leaves the arena as it is, even when it raises. -/
theorem call_nothing {a : Arena} {c : Call} (halign : 0 < a.alignment)
    (hnext : a.alignment ∣ a.next) (hroom : a.next ≤ a.device.size) (hc : c.nbytes = 0) :
    (a.call c).2 = a := by
  have hround : (a.next + 0 + a.alignment - 1) / a.alignment * a.alignment = a.next := by
    have h := roundUp_add halign hnext 0
    rwa [roundUp_zero halign, Nat.add_zero] at h
  have halloc : a.alloc 0 = (.ok a.next, a) := by
    rw [alloc]
    simp only [hround]
    rw [if_neg (Nat.not_lt.2 hroom)]
  cases c with
  | alloc nbytes =>
    cases (hc : nbytes = 0)
    rw [call, halloc]
  | upload array =>
    cases List.length_eq_zero_iff.1 hc
    rw [call, upload, List.length_nil, halloc]
    simp only [Device.write]
    split_ifs <;> simp

/-- The first call for any bytes that raises changes the arena. -/
theorem atomic_iff : ∀ (calls : List Call) {a : Arena}, 0 < a.alignment → a.alignment ∣ a.next →
    a.next ≤ a.device.size →
    (a.Atomic calls ↔ Fits a.device.size a.alignment a.next calls)
  | [], a, _, _, _ => by simp [Atomic, Fits]
  | c :: calls, a, halign, hnext, hroom => by
    rw [atomic_cons, fits_cons]
    by_cases hc : c.nbytes = 0
    · rw [call_nothing halign hnext hroom hc, hc, roundUp_zero halign,
        atomic_iff calls halign hnext hroom]
      simp
    · obtain ⟨hsame, hsize, hmoved⟩ := call_next a c
      rw [roundUp_add halign hnext] at hmoved
      have hpos := le_roundUp halign c.nbytes
      have hchanged : (a.call c).2 ≠ a := by
        intro h
        rw [h] at hmoved
        omega
      have herror : (∀ e, (a.call c).1 = .error e → (a.call c).2 = a)
          ↔ ¬∃ e, (a.call c).1 = .error e := by
        simp [hchanged]
      rw [herror, call_error halign, roundUp_add halign hnext, not_or, Nat.not_lt,
        not_and, Nat.not_le]
      simp only [ne_eq, hc, not_false_eq_true, true_implies]
      refine and_congr_right fun hfits => ?_
      rw [← hmoved] at hfits ⊢
      have hdvd : (a.call c).2.alignment ∣ (a.call c).2.next := by
        rw [hsame, hmoved]
        exact Nat.dvd_add hnext (Nat.dvd_mul_left _ _)
      rw [atomic_iff calls (hsame ▸ halign) hdvd (hsize ▸ hfits.1), hsame, hsize]

end Atomic

section Statement

theorem size_zeroed (size : Nat) : (ByteMemory.zeroed size).size = size := List.length_replicate

/-- What is granted is always separate; that failures leave no trace holds exactly as long as every
call for any bytes gets them. -/
theorem separate_and_atomic (device : ByteMemory) (alignment : Nat) (halign : 0 < alignment)
    (calls : List Call) :
    Separate ⟨device, alignment, 0⟩ calls
    ∧ (Separate ⟨device, alignment, 0⟩ calls ∧ Atomic ⟨device, alignment, 0⟩ calls
      ↔ Fits device.size alignment 0 calls) := by
  have hseparate : Separate ⟨device, alignment, 0⟩ calls := separate halign (Nat.dvd_zero _) calls
  have hatomic := atomic_iff calls (a := ⟨device, alignment, 0⟩) halign (Nat.dvd_zero _)
    (Nat.zero_le _)
  exact ⟨hseparate, by rw [hatomic]; exact and_iff_right hseparate⟩

/-- Two arrays that fill a device. -/
theorem separate_and_atomic_two :
    Separate ⟨.zeroed 256, 128, 0⟩ [.upload [1, 2], .alloc 128]
      ∧ Atomic ⟨.zeroed 256, 128, 0⟩ [.upload [1, 2], .alloc 128] := by
  refine (separate_and_atomic (.zeroed 256) 128 (by decide) _).2.2 ?_
  rw [fits_cons, fits_cons]
  simp [Fits, roundUp, Call.nbytes, Call.isUpload, size_zeroed]

/-- On a device of 256 bytes, a request for 512 raises, and leaves no room for the next one. -/
theorem failed_call_keeps_bytes :
    ¬(Separate ⟨.zeroed 256, 128, 0⟩ [.alloc 512, .alloc 4]
      ∧ Atomic ⟨.zeroed 256, 128, 0⟩ [.alloc 512, .alloc 4]) := by
  rintro ⟨-, hatomic⟩
  have hfits := (atomic_iff [.alloc 512, .alloc 4] (a := ⟨.zeroed 256, 128, 0⟩) (by decide)
    (Nat.dvd_zero _) (Nat.zero_le _)).1 hatomic
  have hfirst := (fits_cons.1 hfits).1 (by decide)
  simp [roundUp, Call.nbytes, size_zeroed] at hfirst

end Statement

end Arena

end WarpSim
