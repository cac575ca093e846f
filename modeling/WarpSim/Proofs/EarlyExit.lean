import WarpSim.Proofs.Elementwise
import WarpSim.Proofs.Golden

/-!
# The early exit kernel and its golden model

Both add up a counter until a test stops them. The kernel tests a word that wraps, and the golden
model an integer that does not, so they agree exactly where the integer is one of a word.
-/

namespace WarpSim

section Walk

variable (stops : Nat → Prop) [DecidablePred stops]

/-- The sum of the counters from `k` on to the first that stops, for so many rounds at most. -/
def walk : Nat → Nat → Nat → Nat
  | 0, _, acc => acc
  | n + 1, k, acc => if stops k then acc + k else walk n (k + 1) (acc + k)

/-- The sum of the counters up to `k`. -/
def triangle : Nat → Nat
  | 0 => 0
  | k + 1 => triangle k + (k + 1)

theorem triangle_lt {j k : Nat} (h : j < k) : triangle j < triangle k := by
  induction k with
  | zero => exact absurd h (Nat.not_lt_zero j)
  | succ k ih =>
    rw [triangle]
    rcases Nat.lt_succ_iff_lt_or_eq.1 h with h | rfl
    · exact (ih h).trans (Nat.lt_add_of_pos_right k.succ_pos)
    · exact Nat.lt_add_of_pos_right j.succ_pos

theorem triangle_inj {j k : Nat} (h : triangle j = triangle k) : j = k := by
  rcases Nat.lt_trichotomy j k with hlt | heq | hlt
  · exact absurd h (triangle_lt hlt).ne
  · exact heq
  · exact absurd h (triangle_lt hlt).ne'

/-- A walk comes to the first counter that stops it, or to the last one. -/
theorem exists_walk (n k acc : Nat) (hacc : acc + k = triangle k) :
    ∃ m, k ≤ m ∧ m ≤ k + n ∧ walk stops (n + 1) k acc = triangle m
      ∧ (stops m ∨ m = k + n) ∧ ∀ j, k ≤ j → j < m → ¬stops j := by
  induction n generalizing k acc with
  | zero =>
    refine ⟨k, Nat.le_refl k, Nat.le_refl k, ?_, .inr rfl, fun j hj hlt => by omega⟩
    rw [walk, walk, ite_self]
    exact hacc
  | succ n ih =>
    rw [walk]
    by_cases hk : stops k
    · rw [if_pos hk]
      exact ⟨k, Nat.le_refl k, by omega, hacc, .inl hk, fun j hj hlt => by omega⟩
    · rw [if_neg hk]
      obtain ⟨m, hle, hm, hwalk, hend, hnone⟩ := ih (k + 1) (acc + k) (by rw [hacc, triangle])
      refine ⟨m, by omega, by omega, hwalk, ?_, fun j hj hlt => ?_⟩
      · rwa [Nat.add_right_comm] at hend
      · rcases Nat.eq_or_lt_of_le hj with rfl | hj
        · exact hk
        · exact hnone j hj hlt

/-- A walk stops at a counter exactly if that is the first that stops it. -/
theorem walk_eq_triangle {n m : Nat} (hm : m < n) :
    walk stops (n + 1) 0 0 = triangle m ↔ stops m ∧ ∀ j < m, ¬stops j := by
  obtain ⟨m', -, hle, hwalk, hend, hnone⟩ := exists_walk stops n 0 0 rfl
  rw [hwalk]
  constructor
  · intro h
    obtain rfl := triangle_inj h
    exact ⟨hend.resolve_right (by omega), fun j hj => hnone j (Nat.zero_le j) hj⟩
  · rintro ⟨hstops, hfirst⟩
    rcases Nat.lt_trichotomy m' m with hlt | rfl | hlt
    · rcases hend with hend | hend
      · exact absurd hend (hfirst m' hlt)
      · omega
    · rfl
    · exact absurd hstops (hnone m (Nat.zero_le m) hlt)

theorem walk_le (n : Nat) : walk stops (n + 1) 0 0 ≤ triangle n := by
  obtain ⟨m, -, hle, hwalk, -⟩ := exists_walk stops n 0 0 rfl
  rw [hwalk]
  rcases Nat.lt_or_ge m n with hlt | hge
  · exact (triangle_lt hlt).le
  · rw [show m = n by omega]

end Walk

section Stops

variable (v : Word)

/-- The test of the kernel, on words. -/
def WordStops (k : Nat) : Prop := 0 < k ∧ (s32Rem (BitVec.ofNat 32 k * 7 + v) 13).toInt = 0

instance : DecidablePred (WordStops v) := fun _ => inferInstanceAs (Decidable (_ ∧ _))

/-- The test of the golden model, on integers. -/
def IntStops (v : Int) (k : Nat) : Prop := 0 < k ∧ ((k : Int) * 7 + v) % 13 = 0

instance (v : Int) : DecidablePred (IntStops v) := fun _ => inferInstanceAs (Decidable (_ ∧ _))

theorem earlyExitLoop_eq (v : Int) : ∀ n k acc : Nat,
    Golden.earlyExitLoop v n k acc = (walk (IntStops v) n k acc : Nat)
  | 0, _, _ => rfl
  | n + 1, k, acc => by
    have hcond : 0 < (k : Int) ∧ ((k : Int) * 7 + v) % 13 = 0 ↔ IntStops v k :=
      and_congr_left' Int.natCast_pos
    have hrest := earlyExitLoop_eq v n (k + 1) (acc + k)
    rw [Nat.cast_add, Nat.cast_add, Nat.cast_one] at hrest
    simp only [Golden.earlyExitLoop, walk]
    rw [if_congr hcond rfl hrest, apply_ite Nat.cast, Nat.cast_add]

/-- The first counter that stops the golden model. -/
def firstStop (v : Int) : Nat := (13 - 2 * v % 13).toNat

theorem walk_intStops (v : Int) : walk (IntStops v) 64 0 0 = triangle (firstStop v) := by
  refine (walk_eq_triangle (IntStops v) (n := 63) ?_).2 ⟨⟨?_, ?_⟩, fun j hj h => ?_⟩
  · rw [firstStop]
    omega
  · rw [firstStop]
    omega
  · rw [firstStop]
    omega
  · rw [firstStop] at hj
    obtain ⟨hpos, hmod⟩ := h
    omega

/-- What the kernel tests is the word's value, one wrap lower from `2 ^ 31` on. -/
theorem wordStops_iff {k : Nat} (hk : k < 64) : WordStops v k ↔ 0 < k
    ∧ ((k : Int) * 7 + v.toInt - if v.toInt + 7 * k < 2 ^ 31 then 0 else 2 ^ 32) % 13 = 0 := by
  have hlow := BitVec.le_toInt v
  have hhigh := BitVec.toInt_lt (x := v)
  have hvalue : (BitVec.ofNat 32 k * 7 + v).toInt
      = (k : Int) * 7 + v.toInt - if v.toInt + 7 * k < 2 ^ 31 then 0 else 2 ^ 32 := by
    have hint : BitVec.ofNat 32 k * 7 + v = BitVec.ofInt 32 ((k : Int) * 7 + v.toInt) := by
      rw [BitVec.ofInt_add, BitVec.ofInt_mul, BitVec.ofInt_toInt, BitVec.ofInt_natCast]
      rfl
    rw [hint, BitVec.toInt_ofInt, Int.bmod_def]
    split_ifs <;> omega
  rw [WordStops, toInt_s32Rem, if_neg (by decide), if_neg (fun h => absurd h.2 (by decide)), hvalue,
    ← Int.dvd_iff_emod_eq_zero, ← Int.dvd_iff_tmod_eq_zero]
  rfl

/-- The kernel stops where the golden model does exactly if it has not wrapped before. -/
theorem walk_wordStops : walk (WordStops v) 64 0 0 = triangle (firstStop v.toInt)
    ↔ v.toInt + 7 * firstStop v.toInt < 2 ^ 31 := by
  have hfirst : firstStop v.toInt ≤ 13 := by
    rw [firstStop]
    omega
  obtain ⟨⟨hpos, hmod⟩, hnone⟩ := (walk_eq_triangle (IntStops v.toInt) (n := 63) (by omega)).1
    (walk_intStops v.toInt)
  rw [walk_eq_triangle (WordStops v) (n := 63) (by omega), wordStops_iff v (by omega)]
  constructor
  · rintro ⟨⟨-, hword⟩, -⟩
    by_contra hge
    rw [if_neg hge] at hword
    omega
  · intro hlt
    refine ⟨⟨hpos, by rwa [if_pos hlt, Int.sub_zero]⟩, fun j hj hstops => hnone j hj ?_⟩
    rw [wordStops_iff v (by omega), if_pos (by omega), Int.sub_zero] at hstops
    exact hstops

end Stops

section Body

variable {F : FloatOps}

theorem free_earlyExit : ∀ i ∈ elementwise 65535 earlyExitBody, i.opcode ≠ .barSync := by decide

/-- A lane of `early_exit` before the test at `top`, with so many rounds left. -/
structure EarlyExitTop (result : Nat) (s : LaneState) (μ : BlockMemory) (n : Nat)
    (y : LaneState × BlockMemory) : Prop where
  memory : y.2 = μ
  pc : y.1.pc = some 17
  offset : y.1.general 4 = s.general 4
  element : y.1.general 6 = s.general 6
  counter : ∃ k acc, k + n = 64 ∧ y.1.general 7 = BitVec.ofNat 32 k
    ∧ y.1.general 10 = BitVec.ofNat 32 acc ∧ walk (WordStops (s.general 6)) n k acc = result

/-- What `early_exit` computes for one element. -/
def earlyExitAt (v : Word) : Option Word :=
  if (v &&& 3).toInt = 3 then none else some (BitVec.ofNat 32 (walk (WordStops v) 64 0 0))

/-- From `next`, a lane of `early_exit` comes to the next round. -/
theorem leadsTo_earlyExit_next {ctx : LaneContext} {lane : Nat} {fp : Footprint}
    {outcome : Pc → Bool} {μ : BlockMemory} {s y : LaneState} {result n k acc : Nat}
    {Q : LaneState × BlockMemory → Prop} (hpc : y.pc = some 27)
    (hoffset : y.general 4 = s.general 4) (helement : y.general 6 = s.general 6)
    (hk : k + (n + 1) = 64) (hcounter : y.general 7 = BitVec.ofNat 32 k)
    (hacc : y.general 10 = BitVec.ofNat 32 (acc + k))
    (hrest : walk (WordStops (s.general 6)) n (k + 1) (acc + k) = result) :
    LeadsTo (LaneState.Alone F ctx (elementwise 65535 earlyExitBody) lane fp outcome)
      (fun z => Q z ∨ EarlyExitTop result s μ n z) (y, μ) := by
  have hnext : y.general 7 + 1 = BitVec.ofNat 32 (k + 1) := by
    rw [hcounter, BitVec.ofNat_add]
    rfl
  refine LaneState.leadsTo_line 27 1 0 hpc rfl (by decide) rfl (Nat.zero_le _) ?_
  exact LaneState.leadsTo_bra rfl rfl (.now (.inr ⟨rfl, rfl, hoffset, helement, k + 1, acc + k,
    (Nat.succ_add_eq_add_succ k n).trans hk, hnext, hacc, hrest⟩))

theorem computes_earlyExit : Computes F 65535 earlyExitBody fun _ v => earlyExitAt v := by
  intro ctx lane fp outcome μ i s _ hpc _
  have hmeets := meetsBefore_of_free free_earlyExit
  show LeadsTo _ (Finished (earlyExitAt (s.general 6)) s μ (earlyExitBody.length + 12)) _
  refine LaneState.leadsTo_line 12 2 0 hpc rfl (by decide) rfl (Nat.zero_le _) ?_
  refine LaneState.leadsTo_exit_guarded (b := decide ((s.general 6 &&& 3).toInt = 3)) rfl rfl rfl
    rfl (Bool.xor_false _) ?_
  by_cases hthree : (s.general 6 &&& 3).toInt = 3
  · rw [decide_eq_true hthree, earlyExitAt, if_pos hthree]
    exact .now ⟨rfl, rfl⟩
  · rw [decide_eq_false hthree, earlyExitAt, if_neg hthree]
    generalize hresult : walk (WordStops (s.general 6)) 64 0 0 = result
    refine LaneState.leadsTo_line 15 2 0 rfl rfl (by decide) rfl (Nat.zero_le _) ?_
    refine LeadsTo.countdown (I := EarlyExitTop result s μ) ?_ ?_ 64
      ⟨rfl, rfl, rfl, rfl, 0, 0, Nat.zero_add _, rfl, rfl, hresult⟩
    · rintro ⟨y, _⟩ ⟨rfl, hpc, hoffset, -, k, acc, hk, hcounter, hacc, hrest⟩
      simp only [] at hpc hoffset hcounter hacc
      have hk' : (y.general 7).toInt = k := by rw [hcounter, toInt_ofNat (by omega)]
      refine LaneState.leadsTo_line 17 1 0 hpc rfl (by decide) rfl (Nat.zero_le _) ?_
      refine LaneState.leadsTo_braIf (p := (64 : Word).toInt ≤ (y.general 7).toInt) rfl rfl rfl
        (.inl (hmeets _ _)) (fun _ => ?_) fun hlt => ?_
      · exact .now ⟨rfl, rfl, hacc.trans (congrArg _ hrest), hoffset⟩
      · rw [hk', show (64 : Word).toInt = 64 from rfl] at hlt
        omega
    · rintro n ⟨y, _⟩ ⟨rfl, hpc, hoffset, helement, k, acc, hk, hcounter, hacc, hrest⟩
      simp only [] at hpc hoffset helement hcounter hacc
      have hk' : (y.general 7).toInt = k := by rw [hcounter, toInt_ofNat (by omega)]
      have hstops : WordStops (s.general 6) k ↔ 0 < (y.general 7).toInt
          ∧ (s32Rem (y.general 7 * 7 + y.general 6) 13).toInt = 0 := by
        rw [WordStops, hk', hcounter, helement, Int.natCast_pos]
      have hacc' : y.general 10 + y.general 7 = BitVec.ofNat 32 (acc + k) := by
        rw [hacc, hcounter, BitVec.ofNat_add]
      rw [walk] at hrest
      refine LaneState.leadsTo_line 17 1 0 hpc rfl (by decide) rfl (Nat.zero_le _) ?_
      refine LaneState.leadsTo_braIf (p := (64 : Word).toInt ≤ (y.general 7).toInt) rfl rfl rfl
        (.inl (hmeets _ _)) (fun hle => ?_) fun _ => ?_
      · rw [hk', show (64 : Word).toInt = 64 from rfl] at hle
        omega
      · refine LaneState.leadsTo_line 19 6 0 rfl rfl (by decide) rfl (Nat.zero_le _) ?_
        refine LaneState.leadsTo_braUnless (p := 0 < (y.general 7).toInt) rfl rfl rfl
          (.inl (hmeets _ _)) (fun hzero => ?_) fun hpos => ?_
        · rw [if_neg fun h => hzero (hstops.1 h).1] at hrest
          exact leadsTo_earlyExit_next rfl hoffset helement hk hcounter hacc' hrest
        · refine LaneState.leadsTo_braIf
            (p := (s32Rem (y.general 7 * 7 + y.general 6) 13).toInt = 0) rfl rfl rfl
            (.inl (hmeets _ _)) (fun hstop => ?_) fun hgo => ?_
          · rw [if_pos (hstops.2 ⟨hpos, hstop⟩)] at hrest
            exact .now (.inl ⟨rfl, rfl, hacc'.trans (congrArg _ hrest), hoffset⟩)
          · rw [if_neg fun h => hgo (hstops.1 h).2] at hrest
            exact leadsTo_earlyExit_next rfl hoffset helement hk hcounter hacc' hrest

end Body

section Launch

variable {grid width : Word} {x out n : Nat} {g : ByteMemory}

set_option maxRecDepth 100000 in
theorem assembly_earlyExit :
    assembly Kernels.tortureEarlyExit = some ([], elementwise 65535 earlyExitBody, 0) := by
  refine text_of (P := fun t => assembly t = some ([], elementwise 65535 earlyExitBody, 0)) rfl ?_
  decide +kernel

theorem escapes_earlyExit : Escapes (elementwise 65535 earlyExitBody) :=
  escapes_of_rank (fun pc => if 19 ≤ pc ∧ pc < 29 then 200 - pc else 100 - pc) (by decide)

theorem launch_earlyExit (F : FloatOps) (C : FloatChars) (hn : 1 ≤ n)
    (hcover : n ≤ grid.toNat * width.toNat) (hsmall : grid.toNat * width.toNat < 2 ^ 31)
    (hsize : g.size ≤ 2 ^ 32) (hx : g.HasBuffer x n) (hout : g.HasBuffer out n)
    (hapart : ByteMemory.Apart x n out n) :
    ∃ program, assemble C Kernels.tortureEarlyExit = .ok program
      ∧ ∃ fuel stats g', Device.launch F program ⟨grid, 1⟩ ⟨width, 1⟩
          [BitVec.ofNat 32 x, BitVec.ofNat 32 out, BitVec.ofNat 32 n] g fuel = some (.ok stats, g')
        ∧ ByteMemory.SameBut out n g g'
        ∧ ∀ i < n, g'.word (out + 4 * i)
          = (earlyExitAt (g.word (x + 4 * i))).getD (g.word (out + 4 * i)) := by
  obtain ⟨program, hassemble, hdecoded⟩ := assembles_of assembly_earlyExit (C := C) nofun
  exact ⟨program, hassemble, Device.launch_elementwise computes_earlyExit (by decide)
    (annotated_of_assembly assembly_earlyExit (by decide) escapes_earlyExit) free_earlyExit
    hdecoded.words hn hcover hsmall hsize hx hout hapart⟩

section Elements

variable (v : Word)

theorem toNat_and_three : ((v &&& 3).toNat : Int) = v.toInt % 4 := by
  have h : (v &&& 3).toNat = v.toNat % 4 := Nat.and_two_pow_sub_one_eq_mod v.toNat 2
  rw [h, BitVec.toInt_eq_toNat_cond]
  split_ifs <;> omega

theorem land_three : v.toInt.land 3 = v.toInt % 4 := by
  have h := land_natCast (w := 32) (c := 3) (by decide) v.toInt
  rw [BitVec.ofInt_toInt] at h
  exact h.trans (toNat_and_three v)

theorem and_three : (v &&& 3).toInt = 3 ↔ v.toInt % 4 = 3 := by
  rw [← toNat_and_three]
  constructor <;> intro h
  · rw [BitVec.eq_of_toInt_eq (y := (3 : Word)) h]
    rfl
  · rw [BitVec.eq_of_toNat_eq (y := (3 : Word)) (Int.ofNat_inj.1 h)]
    rfl

/-- What a lane leaves is what the golden model says exactly if the lane retires without a result
or does not wrap before it stops. -/
theorem earlyExitAt_golden (sentinel : Int) :
    ((earlyExitAt v).getD (BitVec.ofInt 32 sentinel)).toInt = Golden.wrap
        (if v.toInt.land 3 = 3 then sentinel else Golden.earlyExitLoop v.toInt 64 0 0)
      ↔ v.toInt % 4 = 3 ∨ v.toInt + 7 * (13 - 2 * v.toInt % 13) < 2 ^ 31 := by
  rw [land_three, Golden.wrap_eq, earlyExitAt, if_congr (and_three v) rfl rfl]
  by_cases hthree : v.toInt % 4 = 3
  · rw [if_pos hthree, if_pos hthree]
    exact iff_of_true rfl (.inl hthree)
  · have hloop : Golden.earlyExitLoop v.toInt 64 0 0 = triangle (firstStop v.toInt) := by
      rw [← walk_intStops]
      exact earlyExitLoop_eq v.toInt 64 0 0
    have hsmall : triangle 63 = 2016 := rfl
    have hword : walk (WordStops v) 64 0 0 ≤ triangle 63 := walk_le (WordStops v) 63
    have hint : walk (IntStops v.toInt) 64 0 0 ≤ triangle 63 := walk_le (IntStops v.toInt) 63
    rw [walk_intStops] at hint
    rw [if_neg hthree, if_neg hthree, or_iff_right hthree, hloop, Option.getD_some,
      BitVec.ofInt_natCast, toInt_ofNat (by omega), toInt_ofNat (by omega), Int.ofNat_inj,
      walk_wordStops, firstStop]
    omega

end Elements

/-- The early exit kernel leaves the output of its golden model exactly if, on every lane that has
a result, the sum that the golden model stops at is the value of a signed word. -/
theorem earlyExit_matches_golden (F : FloatOps) (C : FloatChars) (hn : 1 ≤ n)
    (hcover : n ≤ grid.toNat * width.toNat) (hsmall : grid.toNat * width.toNat < 2 ^ 31)
    (hsize : g.size ≤ 2 ^ 32) (hx : g.HasBuffer x n) (hout : g.HasBuffer out n)
    (hapart : ByteMemory.Apart x n out n) {sentinel : Nat → Int}
    (hsentinel : ∀ i < n, g.word (out + 4 * i) = BitVec.ofInt 32 (sentinel i)) :
    ∃ program, assemble C Kernels.tortureEarlyExit = .ok program
      ∧ ∃ fuel stats g', Device.launch F program ⟨grid, 1⟩ ⟨width, 1⟩
          [BitVec.ofNat 32 x, BitVec.ofNat 32 out, BitVec.ofNat 32 n] g fuel = some (.ok stats, g')
        ∧ ByteMemory.SameBut out n g g'
        ∧ (∀ i < n, (g.word (x + 4 * i)).toInt % 4 = 3 →
          g'.word (out + 4 * i) = g.word (out + 4 * i))
        ∧ ((∀ i < n, (Golden.tortureEarlyExit (g.elements x n) (sentinel i))[i]?
            = some (g'.word (out + 4 * i)).toInt)
          ↔ ∀ i < n, (g.word (x + 4 * i)).toInt % 4 = 3
            ∨ (g.word (x + 4 * i)).toInt + 7 * (13 - 2 * (g.word (x + 4 * i)).toInt % 13)
              < 2 ^ 31) := by
  obtain ⟨program, hassemble, fuel, stats, g', hlaunch, hsame, hwords⟩ :=
    launch_earlyExit F C hn hcover hsmall hsize hx hout hapart
  refine ⟨program, hassemble, fuel, stats, g', hlaunch, hsame, fun i hi hthree => ?_,
    forall₂_congr fun i hi => ?_⟩
  · rw [hwords i hi, earlyExitAt, if_pos ((and_three _).2 hthree)]
    rfl
  · rw [hwords i hi, hsentinel i hi, ← earlyExitAt_golden, Golden.tortureEarlyExit,
      ByteMemory.elements, List.getElem?_map, List.getElem?_map, List.getElem?_range hi,
      Option.map_some, Option.map_some, Option.some.injEq]
    exact eq_comm

/-- Three elements, and the words that the output begins with. -/
def exitMemory : ByteMemory :=
  ⟨[5, 0, 0, 0, 7, 0, 0, 0, 8, 0, 0, 0]
    ++ (List.replicate 3 [199, 207, 255, 255]).flatten⟩

/-- A lane that retires between two that stop in different rounds. -/
theorem earlyExit_matches_golden_three : ∃ program,
    assemble zeroChars Kernels.tortureEarlyExit = .ok program
      ∧ ∃ fuel stats g', Device.launch default program ⟨1, 1⟩ ⟨4, 1⟩ [0, 12, 3] exitMemory fuel
          = some (.ok stats, g')
        ∧ ∀ i < 3, (Golden.tortureEarlyExit [5, 7, 8] (-12345))[i]?
          = some (g'.word (12 + 4 * i)).toInt := by
  have hbuffer : ∀ k ∈ [0, 12], exitMemory.HasBuffer k 3 := by decide
  have hcover : 3 ≤ (1 : Word).toNat * (4 : Word).toNat := by decide
  have hsentinel : ∀ i < 3, exitMemory.word (12 + 4 * i) = BitVec.ofInt 32 (-12345) := by decide
  obtain ⟨program, hassemble, fuel, stats, g', hlaunch, -, -, hgolden⟩ :=
    earlyExit_matches_golden default zeroChars (by decide) hcover (by decide) (by decide)
      (hbuffer 0 (by decide)) (hbuffer 12 (by decide)) (.inl (by decide)) hsentinel
  exact ⟨program, hassemble, fuel, stats, g', hlaunch, hgolden.2 (by decide)⟩

/-- Close to the largest signed word the sum wraps, and the kernel misses the stop. -/
theorem earlyExit_wraps : ∃ program, assemble zeroChars Kernels.tortureEarlyExit = .ok program
    ∧ (∃ fuel r, Device.launch default program ⟨1, 1⟩ ⟨1, 1⟩ [0, 4, 1]
        ⟨[254, 255, 255, 127, 199, 207, 255, 255]⟩ fuel = some r)
      ∧ ∀ fuel stats g', Device.launch default program ⟨1, 1⟩ ⟨1, 1⟩ [0, 4, 1]
          ⟨[254, 255, 255, 127, 199, 207, 255, 255]⟩ fuel = some (.ok stats, g') →
        (g'.word 4).toInt = 91
          ∧ (Golden.tortureEarlyExit [2147483646] (-12345))[0]? = some 36 := by
  have hbuffer : ∀ k ∈ [0, 4],
      (⟨[254, 255, 255, 127, 199, 207, 255, 255]⟩ : ByteMemory).HasBuffer k 1 := by
    decide
  have hcover : 1 ≤ (1 : Word).toNat * (1 : Word).toNat := by decide
  obtain ⟨program, hassemble, fuel, stats, g', hlaunch, -, hwords⟩ :=
    launch_earlyExit default zeroChars (Nat.le_refl 1) hcover (by decide) (by decide)
      (hbuffer 0 (by decide)) (hbuffer 4 (by decide)) (.inl (by decide))
  refine ⟨program, hassemble, ⟨fuel, _, hlaunch⟩, fun fuel' stats' g'' hlaunch' => ?_⟩
  obtain rfl : g' = g'' := (Prod.mk.inj (Device.launch_unique hlaunch hlaunch')).2
  rw [show g'.word 4 = _ from hwords 0 (by decide)]
  decide

end Launch

end WarpSim
