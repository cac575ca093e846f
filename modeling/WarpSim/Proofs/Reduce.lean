import WarpSim.Lib.Halving
import WarpSim.Proofs.Golden
import WarpSim.Proofs.Kernels
import WarpSim.Proofs.Rows
import Mathlib.Data.BitVec

/-!
# The block reduction

Nine barriers cut a block's run into ten intervals. In the first each thread stores its element in
shared memory, in each of the next eight the lower half of the threads add the words of the upper
half to their own, and in the last the first thread stores the sum of the block.
-/

namespace WarpSim

def reduceTree : List Instruction :=
  [rrr .movSreg 0 0 0, rrr .movSreg 1 4 0, rri .shl 2 1 8, rrr .add 2 2 0, rri .mov 3 0 0,
    rri .ldParam 4 0 2, rrr .setpGeS32 0 2 4, braIf 0 12 12, rri .shl 5 2 2, rri .ldParam 6 0 0,
    rrr .add 6 6 5, rri .ldGlobal 3 6 0, rri .shl 7 0 2, stShared 7 3, barSync, rri .mov 8 0 128,
    rrr .setpGeS32 1 0 8, braIf 1 24 24, rri .shl 9 8 2, rrr .add 9 9 7, rri .ldShared 10 7 0,
    rri .ldShared 11 9 0, rrr .add 10 10 11, stShared 7 10, barSync, rri .shr 8 8 1,
    rri .setpGtS32 2 8 0, braIf 2 16 28, rri .setpNeS32 3 0 0, exitIf 3, rri .mov 12 0 0,
    rri .ldShared 13 12 0, rri .shl 14 1 2, rri .ldParam 15 0 1, rrr .add 15 15 14,
    stGlobal 15 13, {}]

set_option maxRecDepth 100000 in
theorem assembly_reduce : assembly Kernels.reduce = some ([], reduceTree, 1024) := by
  refine text_of (P := fun t => assembly t = some ([], reduceTree, 1024)) rfl ?_
  decide +kernel

theorem escapes_reduce : Escapes reduceTree := escapes_of_rank (fun pc => 100 - pc) (by decide)

theorem meets_stage : MeetsBefore reduceTree 7 (braIf 0 12 12) :=
  meetsBefore_of_closed [7, 8, 9, 10, 11] (by decide) (by decide) (by decide) (by decide)

theorem meets_skip : MeetsBefore reduceTree 17 (braIf 1 24 24) :=
  meetsBefore_of_closed [17, 18, 19, 20, 21, 22, 23] (by decide) (by decide) (by decide) (by decide)

section Outline

variable (x out n b : Nat) (v : Nat → Word) (start : BlockMemory)

/-- The words that a thread of the block `b` may load in an interval. -/
def reduceLoads (c t : Nat) : Space → Word → Prop
  | .global, a => c = 0 ∧ 256 * b + t < n ∧ a = element x (256 * b + t)
  | .shared, a => (1 ≤ c ∧ c ≤ 8 ∧ t < 2 ^ (8 - c) ∧ a = element 0 (t + 2 ^ (8 - c)))
      ∨ (c = 9 ∧ t = 0 ∧ a = element 0 0)
  | .param, _ => False

def reduceStores (c t : Nat) : Space → Word → Prop
  | .global, a => c = 9 ∧ t = 0 ∧ a = element out b
  | .shared, a => c ≤ 8 ∧ t < 2 ^ (8 - c) ∧ a = element 0 t
  | .param, _ => False

/-- A thread at the beginning of an interval after the first. -/
structure ReduceEntry (c t : Nat) (s : LaneState) : Prop where
  pc : s.pc = some (if c = 1 then 15 else 25)
  thread : s.general 0 = BitVec.ofNat 32 t
  block : s.general 1 = BitVec.ofNat 32 b
  offset : s.general 7 = BitVec.ofNat 32 (4 * t)
  stride : 1 < c → s.general 8 = BitVec.ofNat 32 (2 ^ (9 - c))

/-- The block's memory at the beginning of an interval: what the rounds before it have left of
the threads' elements `v`. -/
structure ReduceMemory (c : Nat) (m : BlockMemory) : Prop where
  room : start.SameRoom m
  global : m.global = start.global
  words : 1 ≤ c → ∀ t < 2 ^ (9 - c), m.wordAt .shared (element 0 t) = halvings v 8 (c - 1) t

def reduceOutline : Outline where
  barriers := 9
  footprint := fun c t => ⟨reduceLoads x n b c t, reduceStores out b c t⟩
  value := fun c space a =>
    if space = .shared then halvings v 8 c (a.toNat / 4) else halvings v 8 8 0
  entry := fun c t s => if c = 0 then s = .fresh else ReduceEntry b c t s
  memory := ReduceMemory v start
  outcome := fun c _ => decide (c < 9)

end Outline

section Threads

variable {F : FloatOps} {base : LaneContext} {x out n b c t : Nat} {v : Nat → Word}
  {start μ : BlockMemory} {s : LaneState}

theorem halving_lt (hc : 1 ≤ c) (hc' : c ≤ 8) (ht : t < 2 ^ (8 - c)) :
    t + 2 ^ (8 - c) < 2 ^ (9 - c) ∧ 2 ^ (9 - c) ≤ 256 := by
  have hexp : 2 ^ (9 - c) = 2 * 2 ^ (8 - c) := by
    rw [← pow_succ', show 9 - c = 8 - c + 1 by omega]
  have hle : 2 ^ (9 - c) ≤ 2 ^ 8 := Nat.pow_le_pow_right (by decide) (by omega)
  omega

/-- What a block of the launch begins with. -/
structure ReduceBlock (x out n b : Nat) (v : Nat → Word) (base : LaneContext)
    (start : BlockMemory) : Prop where
  width : base.ntid.x = 256
  block : base.ctaid.x = BitVec.ofNat 32 b
  params : start.params = [BitVec.ofNat 32 x, BitVec.ofNat 32 out, BitVec.ofNat 32 n]
  shared : start.shared.size = 1024
  size : start.global.size ≤ 2 ^ 32
  input : start.global.HasBuffer x n
  output : start.global.HasBuffer out (b + 1)
  small : 256 * b < n
  elements : ∀ t, v t
    = if 256 * b + t < n then start.global.word (x + 4 * (256 * b + t)) else 0

theorem ReduceMemory.params (hm : ReduceMemory v start c μ)
    (hb : ReduceBlock x out n b v base start) :
    μ.params = [BitVec.ofNat 32 x, BitVec.ofNat 32 out, BitVec.ofNat 32 n] :=
  hm.room.params.trans hb.params

theorem ReduceMemory.not_faults (hm : ReduceMemory v start c μ)
    (hb : ReduceBlock x out n b v base start) (ht : t < 256) : ¬μ.Faults .shared (element 0 t) := by
  have hlen : (μ.bytesOf .shared).length = 1024 := (hm.room.bytes .shared).trans hb.shared
  rintro (hmod | hroom)
  · rw [toNat_element_zero (by omega)] at hmod
    omega
  · rw [toNat_element_zero (by omega), hlen] at hroom
    omega

theorem ReduceMemory.not_faults_global (hm : ReduceMemory v start c μ)
    (hb : ReduceBlock x out n b v base start) {k i j : Nat} (hk : start.global.HasBuffer k j)
    (hi : i < j) : ¬μ.Faults .global (element k i) :=
  not_faults_element hb.size (hm.room.bytes .global) hk hi

end Threads

section Run

variable {F : FloatOps} {base : LaneContext} {x out n b c t : Nat} {v : Nat → Word}
  {start μ : BlockMemory} {s : LaneState}

theorem reduce_stored (hm : ReduceMemory v start c μ) (hb : ReduceBlock x out n b v base start)
    (hc : c ≤ 8) (ht : t < 256) : (reduceOutline x out n b v start).Stored c t
      (μ.write ⟨.shared, element 0 t, halvings v 8 c t⟩) := by
  rintro (_ | _ | _) a hst
  · obtain ⟨rfl, -, -⟩ : c = 9 ∧ t = 0 ∧ a = element out b := hst
    exact absurd hc (by decide)
  · obtain ⟨-, -, rfl⟩ : c ≤ 8 ∧ t < 2 ^ (8 - c) ∧ a = element 0 t := hst
    rw [BlockMemory.wordAt_write_self _ (by decide) (hm.not_faults hb ht)]
    have hindex : (element 0 t).toNat / 4 = t := by
      rw [toNat_element_zero (by omega), Nat.mul_div_cancel_left t (by decide)]
    exact (congrArg (halvings v 8 c) hindex).symm
  · exact hst.elim

theorem reduce_stored_past (hc : c ≤ 8) (ht : ¬t < 2 ^ (8 - c)) :
    (reduceOutline x out n b v start).Stored c t μ := by
  rintro (_ | _ | _) a hst
  · obtain ⟨rfl, -, -⟩ : c = 9 ∧ t = 0 ∧ a = element out b := hst
    exact absurd hc (by decide)
  · exact absurd hst.2.1 ht
  · exact hst.elim

theorem leadsTo_staged (hb : ReduceBlock x out n b v base start) (hm : ReduceMemory v start 0 μ)
    (ht : t < 256) (hpc : s.pc = some 12) (hthread : s.general 0 = BitVec.ofNat 32 t)
    (hblock : s.general 1 = BitVec.ofNat 32 b) (helement : s.general 3 = v t) :
    LeadsTo ((reduceOutline x out n b v start).Alone F reduceTree base 0 t)
      ((reduceOutline x out n b v start).Ends reduceTree 0 t) (s, μ) := by
  have hoffset : s.general 0 <<< ((2 : Word) &&& shiftMask).toNat = BitVec.ofNat 32 (4 * t) := by
    rw [hthread, ofNat_shl_two]
  have haddr : s.general 0 <<< ((2 : Word) &&& shiftMask).toNat + 0 = element 0 t := by
    rw [hoffset, element, Nat.zero_add]
    exact BitVec.add_zero _
  refine LaneState.leadsTo_line 12 1 0 hpc rfl (by decide) rfl (Nat.zero_le _) ?_
  refine LaneState.leadsTo_store (i := stShared 7 3) rfl rfl rfl (.inr rfl) ?_
    (haddr ▸ hm.not_faults hb ht) ?_
  · exact haddr ▸ ⟨by decide, ht, rfl⟩
  · refine .now ⟨?_, 14, barSync, rfl, rfl, rfl, rfl, hthread, hblock, hoffset,
      fun h => absurd h (by decide)⟩
    have hst := reduce_stored hm hb (Nat.zero_le 8) ht
    rw [show halvings v 8 0 t = v t from rfl, ← haddr, ← helement] at hst
    exact hst

/-- The first interval: a thread loads its element, if it has one, and stores it. -/
theorem leadsTo_load_element (hb : ReduceBlock x out n b v base start)
    (hm : ReduceMemory v start 0 μ) (ht : t < 256) :
    LeadsTo ((reduceOutline x out n b v start).Alone F reduceTree base 0 t)
      ((reduceOutline x out n b v start).Ends reduceTree 0 t) (.fresh, μ) := by
  have hn : n ≤ 2 ^ 30 := by
    have := hb.input.2
    have := hb.size
    omega
  have hsmall := hb.small
  have harity : 3 ≤ μ.params.length := by rw [hm.params hb]; exact Nat.le_refl 3
  have htid : (threadContext base t).linearIndex (t % 32) % base.ntid.x = BitVec.ofNat 32 t :=
    special_tidX (by rw [hb.width]; exact ht)
  have hindex : base.ctaid.x <<< ((8 : Word) &&& shiftMask).toNat
      + (threadContext base t).linearIndex (t % 32) % base.ntid.x
        = BitVec.ofNat 32 (256 * b + t) := by
    rw [htid, hb.block, BitVec.ofNat_add, ofNat_shl (k := 8) (j := 256 * b) rfl rfl]
  have hp : ((μ.params.getD 2 0).toInt ≤ (base.ctaid.x <<< ((8 : Word) &&& shiftMask).toNat
      + (threadContext base t).linearIndex (t % 32) % base.ntid.x).toInt) ↔ n ≤ 256 * b + t := by
    rw [hindex, hm.params hb, toInt_ofNat (by omega)]
    exact (iff_of_eq (congrArg (· ≤ _) (toInt_ofNat (by omega)))).trans Int.ofNat_le
  refine LaneState.leadsTo_line 0 7 3 rfl rfl (by decide) rfl harity ?_
  refine LaneState.leadsTo_braIf (p := n ≤ 256 * b + t) rfl rfl (decide_eq_decide.2 hp)
    (.inl meets_stage) (fun hge => ?_) fun hlt => ?_
  · refine leadsTo_staged hb hm ht rfl htid hb.block ?_
    rw [hb.elements, if_neg (Nat.not_lt.2 hge)]
    rfl
  · have hlt := Nat.not_le.1 hlt
    have haddr : μ.params.getD 0 0 + (base.ctaid.x <<< ((8 : Word) &&& shiftMask).toNat
        + (threadContext base t).linearIndex (t % 32) % base.ntid.x)
          <<< ((2 : Word) &&& shiftMask).toNat + 0 = element x (256 * b + t) := by
      rw [hindex, ofNat_shl_two, hm.params hb]
      exact (BitVec.add_zero _).trans (ofNat_add_element x _)
    refine LaneState.leadsTo_line 8 3 3 rfl rfl (by decide) rfl harity ?_
    refine LaneState.leadsTo_load (i := rri .ldGlobal 3 6 0) rfl rfl rfl (.inl rfl)
      (.inl (haddr ▸ ⟨rfl, hlt, rfl⟩)) (haddr ▸ hm.not_faults_global hb hb.input hlt) (v := v t)
      ?_ ?_
    · refine (congrArg (μ.wordAt .global) haddr).trans ?_
      rw [hb.elements, if_pos hlt, ← toNat_element hb.size hb.input hlt, ← hm.global]
      rfl
    · exact leadsTo_staged hb hm ht rfl htid hb.block rfl

/-- A round, from the test of the stride on: the lower half takes the words of the upper half. -/
theorem leadsTo_round (hb : ReduceBlock x out n b v base start) (hm : ReduceMemory v start c μ)
    (hc : 1 ≤ c) (hc' : c ≤ 8) (ht : t < 256) (hpc : s.pc = some 16)
    (hthread : s.general 0 = BitVec.ofNat 32 t) (hblock : s.general 1 = BitVec.ofNat 32 b)
    (hoffset : s.general 7 = BitVec.ofNat 32 (4 * t))
    (hstride : s.general 8 = BitVec.ofNat 32 (2 ^ (8 - c))) :
    LeadsTo ((reduceOutline x out n b v start).Alone F reduceTree base c t)
      ((reduceOutline x out n b v start).Ends reduceTree c t) (s, μ) := by
  have hle : 2 ^ (8 - c) ≤ 2 ^ 7 := Nat.pow_le_pow_right (by decide) (by omega)
  have hentry : ∀ s' : LaneState, s'.general 0 = s.general 0 → s'.general 1 = s.general 1 →
      s'.general 7 = s.general 7 → s'.general 8 = s.general 8 → s'.pc = some 25 →
        (reduceOutline x out n b v start).entry (c + 1) t s' := by
    intro s' h0 h1 h7 h8 hpc'
    have : ReduceEntry b (c + 1) t s' :=
      ⟨by rw [hpc', if_neg (by omega)], h0.trans hthread, h1.trans hblock, h7.trans hoffset,
        fun _ => by rw [h8, hstride, Nat.add_sub_add_right 8 1 c]⟩
    exact this
  have hends : ∀ y : LaneState × BlockMemory, (reduceOutline x out n b v start).Stored c t y.2 →
      y.1.general 0 = s.general 0 → y.1.general 1 = s.general 1 → y.1.general 7 = s.general 7 →
        y.1.general 8 = s.general 8 → y.1.pc = some 24 →
          (reduceOutline x out n b v start).Ends reduceTree c t y := by
    intro y hst h0 h1 h7 h8 hpc'
    refine ⟨hst, (if_pos (Nat.lt_succ_of_le hc')).mpr
      ⟨24, barSync, hpc', rfl, rfl, hentry _ h0 h1 h7 h8 rfl⟩⟩
  have hp : ((s.general 8).toInt ≤ (s.general 0).toInt) ↔ 2 ^ (8 - c) ≤ t := by
    rw [hstride, hthread, toInt_ofNat (by omega), toInt_ofNat (by omega)]
    exact Int.ofNat_le
  refine LaneState.leadsTo_line 16 1 0 hpc rfl (by decide) rfl (Nat.zero_le _) ?_
  refine LaneState.leadsTo_braIf (p := 2 ^ (8 - c) ≤ t) rfl rfl (decide_eq_decide.2 hp)
    (.inl meets_skip) (fun hge => ?_) fun hlt => ?_
  · exact .now (hends _ (reduce_stored_past hc' (Nat.not_lt.2 hge)) rfl rfl rfl rfl rfl)
  · have hlt := Nat.not_le.1 hlt
    obtain ⟨hupper, hroom⟩ := halving_lt hc hc' hlt
    have hown : s.general 7 + 0 = element 0 t := by
      rw [hoffset, element, Nat.zero_add]
      exact BitVec.add_zero _
    have hother : s.general 8 <<< ((2 : Word) &&& shiftMask).toNat + s.general 7 + 0
        = element 0 (t + 2 ^ (8 - c)) := by
      rw [hstride, hoffset, ofNat_shl_two, ← BitVec.ofNat_add, element, Nat.zero_add, Nat.mul_add,
        Nat.add_comm]
      exact BitVec.add_zero _
    obtain ⟨k, rfl⟩ := Nat.exists_eq_add_of_le' hc
    have hlower' : μ.wordAt .shared (s.general 7 + 0) = halvings v 8 k t := by
      rw [hown, hm.words hc t (by omega)]
      rfl
    have hupper' : μ.wordAt .shared (s.general 8 <<< ((2 : Word) &&& shiftMask).toNat
        + s.general 7 + 0) = halvings v 8 k (t + 2 ^ (8 - (k + 1))) := by
      rw [hother, hm.words hc _ hupper]
      rfl
    have hstores : reduceStores out b (k + 1) t .shared (s.general 7 + 0) :=
      hown ▸ ⟨hc', hlt, rfl⟩
    have hok : ¬μ.Faults .shared (s.general 7 + 0) := hown ▸ hm.not_faults hb ht
    refine LaneState.leadsTo_line 18 2 0 rfl rfl (by decide) rfl (Nat.zero_le _) ?_
    refine LaneState.leadsTo_load (i := rri .ldShared 10 7 0) rfl rfl rfl (.inr rfl)
      (.inr hstores) hok hlower' ?_
    refine LaneState.leadsTo_load (i := rri .ldShared 11 9 0) rfl rfl rfl (.inr rfl)
      (.inl (hother ▸ .inl ⟨hc, hc', hlt, rfl⟩)) (hother ▸ hm.not_faults hb (by omega)) hupper' ?_
    refine LaneState.leadsTo_line 22 1 0 rfl rfl (by decide) rfl (Nat.zero_le _) ?_
    refine LaneState.leadsTo_store (i := stShared 7 10) rfl rfl rfl (.inr rfl) hstores hok ?_
    refine .now (hends _ ?_ rfl rfl rfl rfl rfl)
    have hst := reduce_stored hm hb hc' ht
    rw [← hown] at hst
    exact hst

theorem leadsTo_store_sum (hb : ReduceBlock x out n b v base start) (hm : ReduceMemory v start 9 μ)
    (ht : t < 256) (hpc : s.pc = some 28) (hthread : s.general 0 = BitVec.ofNat 32 t)
    (hblock : s.general 1 = BitVec.ofNat 32 b) :
    LeadsTo ((reduceOutline x out n b v start).Alone F reduceTree base 9 t)
      ((reduceOutline x out n b v start).Ends reduceTree 9 t) (s, μ) := by
  have harity : 3 ≤ μ.params.length := by rw [hm.params hb]; exact Nat.le_refl 3
  have hp : ((s.general 0).toInt != (0 : Word).toInt) = decide (t ≠ 0) := by
    rw [hthread, toInt_ofNat (by omega), Bool.eq_iff_iff, bne_iff_ne, decide_eq_true_iff]
    exact Int.natCast_ne_zero
  refine LaneState.leadsTo_line 28 1 0 hpc rfl (by decide) rfl (Nat.zero_le _) ?_
  refine LaneState.leadsTo_exitIf (p := t ≠ 0) rfl rfl hp (fun hne => ⟨?_, rfl⟩) fun heq => ?_
  · rintro (_ | _ | _) a hst
    · exact absurd hst.2.1 hne
    · exact absurd hst.1 (by decide)
    · exact hst.elim
  · obtain rfl := not_not.1 heq
    have haddr : μ.params.getD 1 0 + s.general 1 <<< ((2 : Word) &&& shiftMask).toNat + 0
        = element out b := by
      rw [hblock, ofNat_shl_two, hm.params hb]
      exact (BitVec.add_zero _).trans (ofNat_add_element out b)
    have hok := hm.not_faults_global hb hb.output (Nat.lt_succ_self b)
    refine LaneState.leadsTo_line 30 1 0 rfl rfl (by decide) rfl (Nat.zero_le _) ?_
    refine LaneState.leadsTo_load (i := rri .ldShared 13 12 0) rfl rfl rfl (.inr rfl)
      (.inl (.inr ⟨rfl, rfl, rfl⟩)) (hm.not_faults (t := 0) hb (by decide)) (v := halvings v 8 8 0)
      (hm.words (by decide) 0 (by decide)) ?_
    refine LaneState.leadsTo_line 32 3 2 rfl rfl (by decide) rfl (Nat.le_of_succ_le harity) ?_
    refine LaneState.leadsTo_store (i := stGlobal 15 13) rfl rfl rfl (.inl rfl)
      (haddr ▸ ⟨rfl, rfl, rfl⟩) (haddr ▸ hok) ?_
    refine LaneState.leadsTo_exit (i := {}) rfl rfl rfl rfl (.now ⟨?_, rfl⟩)
    rintro (_ | _ | _) a hst
    · obtain ⟨-, -, rfl⟩ : 9 = 9 ∧ 0 = 0 ∧ a = element out b := hst
      have hself := BlockMemory.wordAt_write_self (m := μ) (halvings v 8 8 0)
        (fun h : Space.global = .param => nomatch h) hok
      rw [← haddr] at hself ⊢
      exact hself
    · exact absurd hst.1 (by decide)
    · exact hst.elim

/-- Every interval of a thread, from where the one before it ends. -/
theorem reduce_run (hb : ReduceBlock x out n b v base start) (hc : c ≤ 9) (ht : t < 256)
    (hm : ReduceMemory v start c μ) (hentry : (reduceOutline x out n b v start).entry c t s) :
    LeadsTo ((reduceOutline x out n b v start).Alone F reduceTree base c t)
      ((reduceOutline x out n b v start).Ends reduceTree c t) (s, μ) := by
  rcases Nat.eq_zero_or_pos c with rfl | hpos
  · obtain rfl : s = .fresh := hentry
    exact leadsTo_load_element hb hm ht
  · have hentry : ReduceEntry b c t s := (if_neg hpos.ne').mp hentry
    by_cases hone : c = 1
    · subst hone
      have hpc := hentry.pc
      rw [if_pos rfl] at hpc
      refine LaneState.leadsTo_line 15 1 0 hpc rfl (by decide) rfl (Nat.zero_le _) ?_
      exact leadsTo_round hb hm (Nat.le_refl 1) (by decide) ht rfl hentry.thread hentry.block
        hentry.offset rfl
    · have hpc := hentry.pc
      rw [if_neg hone] at hpc
      have hstride := hentry.stride (by omega)
      have hshr : s.general 8 >>> ((1 : Word) &&& shiftMask).toNat
          = BitVec.ofNat 32 (2 ^ (9 - c) / 2) := by
        have hle : 2 ^ (9 - c) ≤ 2 ^ 7 := Nat.pow_le_pow_right (by decide) (by omega)
        apply BitVec.eq_of_toNat_eq
        rw [hstride, BitVec.toNat_ushiftRight, BitVec.toNat_ofNat, BitVec.toNat_ofNat,
          Nat.mod_eq_of_lt (by omega), Nat.mod_eq_of_lt (by omega)]
        exact Nat.shiftRight_eq_div_pow _ 1
      refine LaneState.leadsTo_line 25 2 0 hpc rfl (by decide) rfl (Nat.zero_le _) ?_
      by_cases hlast : c = 9
      · subst hlast
        refine LaneState.leadsTo_braIf (p := False) rfl rfl ?_ (.inr rfl) False.elim fun _ => ?_
        · exact (congrArg (fun w : Word => decide ((0 : Word).toInt < w.toInt)) hshr).trans
            (by decide)
        · exact leadsTo_store_sum hb hm ht rfl hentry.thread hentry.block
      · have hexp : 2 ^ (9 - c) / 2 = 2 ^ (8 - c) := by
          rw [show 9 - c = 8 - c + 1 by omega, pow_succ, Nat.mul_div_cancel _ (by decide)]
        have hle : 2 ^ (8 - c) ≤ 2 ^ 7 := Nat.pow_le_pow_right (by decide) (by omega)
        have hpos' : 0 < 2 ^ (8 - c) := Nat.two_pow_pos _
        rw [hexp] at hshr
        refine LaneState.leadsTo_braIf (p := True) rfl rfl ?_ (.inr ?_) (fun _ => ?_) fun h => ?_
        · refine (congrArg (fun w : Word => decide ((0 : Word).toInt < w.toInt)) hshr).trans ?_
          rw [toInt_ofNat (by omega)]
          exact decide_eq_decide.2 (iff_true_intro (Int.natCast_pos.2 hpos'))
        · exact (decide_eq_true (by omega : c < 9)).symm
        · exact leadsTo_round hb hm hpos (by omega) ht rfl hentry.thread hentry.block
            hentry.offset hshr
        · exact absurd trivial h

theorem reduce_aligned (hb : ReduceBlock x out n b v base start) {space : Space} {a : Word}
    (h : reduceStores out b c t space a) : a.toNat % 4 = 0 := by
  rcases space with _ | _ | _
  · obtain ⟨-, -, rfl⟩ := h
    exact element_aligned hb.size hb.output (Nat.lt_succ_self b)
  · obtain ⟨-, hlt, rfl⟩ := h
    have hle : 2 ^ (8 - c) ≤ 2 ^ 8 := Nat.pow_le_pow_right (by decide) (Nat.sub_le 8 c)
    rw [toNat_element_zero (by omega)]
    omega
  · exact h.elim

/-- No thread stores a word that another one sees in the same interval. -/
theorem reduce_apart {u : Nat} (ht : t < 256) (hu : u < 256) (hne : t ≠ u) {space : Space}
    {a : Word} (h : reduceStores out b c t space a) :
    ¬((reduceOutline x out n b v start).footprint c u).Sees space a := by
  rintro (hload | hstore)
  · rcases space with _ | _ | _
    · exact absurd (h.1.symm.trans hload.1) (by decide)
    · obtain ⟨hc, hlt, rfl⟩ := h
      rcases hload with ⟨hpos, -, hlt', heq⟩ | ⟨rfl, -, -⟩
      · obtain ⟨hupper, hroom⟩ := halving_lt hpos hc hlt'
        have := element_zero_inj (by omega) (by omega) heq
        omega
      · exact absurd hc (by decide)
    · exact h.elim
  · rcases space with _ | _ | _
    · exact hne (h.2.1.trans hstore.2.1.symm)
    · obtain ⟨-, -, rfl⟩ := h
      exact hne (element_zero_inj (by omega) (by omega) hstore.2.2)
    · exact h.elim

theorem reduce_next (hc : c < 9) {m m' : BlockMemory} (hm : ReduceMemory v start c m)
    (hw : BlockMemory.Wrote ((reduceOutline x out n b v start).StoredIn 256 c) m m')
    (hst : ∀ t < 256, (reduceOutline x out n b v start).Stored c t m') :
    ReduceMemory v start (c + 1) m' := by
  refine ⟨hm.room.trans hw.room, ?_, fun _ t ht => ?_⟩
  · have hbytes : m'.global.bytes = m.global.bytes := by
      refine List.ext_getElem? fun j => ?_
      rcases hw.byte .global j with heq | ⟨a, ⟨t, -, hcontra, -, -⟩, -⟩
      · exact heq
      · exact absurd hcontra hc.ne
    rw [← hm.global]
    exact congrArg ByteMemory.mk hbytes
  · have ht' : t < 2 ^ (8 - c) := by rwa [Nat.add_sub_add_right 8 1 c] at ht
    have hle : 2 ^ (8 - c) ≤ 2 ^ 8 := Nat.pow_le_pow_right (by decide) (Nat.sub_le 8 c)
    have hindex : (element 0 t).toNat / 4 = t := by
      rw [toNat_element_zero (by omega), Nat.mul_div_cancel_left t (by decide)]
    refine (hst t (by omega) .shared (element 0 t) ⟨Nat.le_of_lt_succ hc, ht', rfl⟩).trans ?_
    exact congrArg (halvings v 8 c) hindex

theorem reduce_sound (hb : ReduceBlock x out n b v base start) :
    (reduceOutline x out n b v start).Sound F reduceTree base 256 where
  annotated := annotated_of_assembly assembly_reduce (by decide) escapes_reduce
  unguarded := by decide
  aligned := fun _ _ _ _ h => reduce_aligned hb h
  apart := fun _ _ _ ht _ hu hne _ _ h => reduce_apart ht hu hne h
  run := fun _ hc _ ht _ _ hm hentry => reduce_run hb hc ht hm hentry
  next := fun _ hc _ _ hm hw hst => reduce_next hc hm hw hst

end Run

section Launch

variable {F : FloatOps} {x out n : Nat} {g : ByteMemory}

/-- The element of a thread of the block `b`. -/
def reduceElement (x n : Nat) (g : ByteMemory) (b t : Nat) : Word :=
  if 256 * b + t < n then g.word (x + 4 * (256 * b + t)) else 0

def reduceSum (x n : Nat) (g : ByteMemory) (b : Nat) : Word :=
  ∑ t ∈ Finset.range 256, reduceElement x n g b t

def reduceOut (out blocks : Nat) (c : Dim2) (a : Word) : Prop :=
  c.x.toNat < blocks ∧ a = element out c.x.toNat

theorem halvings_reduceElement (b : Nat) :
    halvings (reduceElement x n g b) 8 8 0 = reduceSum x n g b := halvings_last _ 8

/-- A launch of the kernel with a block for each of the words of the output. -/
abbrev reduceLaunch (program : Program) (x out n blocks : Nat) : Launch :=
  .ofProgram program reduceTree ⟨BitVec.ofNat 32 blocks, 1⟩ ⟨256, 1⟩
    [BitVec.ofNat 32 x, BitVec.ofNat 32 out, BitVec.ofNat 32 n]

variable {program : Program} {blocks : Nat}

theorem reduce_block (hprogram : program.Decoded reduceTree 1024) (hsize : g.size ≤ 2 ^ 32)
    (hx : g.HasBuffer x n) (hout : g.HasBuffer out blocks)
    (hapart : ByteMemory.Apart x n out blocks) {c : Dim2} (hlt : c.x.toNat < blocks)
    (hsmall : 256 * c.x.toNat < n) {g' : ByteMemory}
    (hg : Launch.Inputs (reduceOut out blocks) g g') :
    ReduceBlock x out n c.x.toNat (reduceElement x n g c.x.toNat)
      ((reduceLaunch program x out n blocks).context c)
      ((reduceLaunch program x out n blocks).blockMemory g') where
  width := rfl
  block := (BitVec.ofNat_toNat 32 c.x).symm
  params := rfl
  shared := by
    show (ByteMemory.zeroed program.sharedBytes.toNat).size = 1024
    rw [hprogram.shared]
    exact List.length_replicate
  size := hg.size.trans_le hsize
  input := hg.hasBuffer hx
  output := ⟨hout.1, by
    have := hout.2
    have := hg.size
    show _ ≤ g'.size
    omega⟩
  small := hsmall
  elements := fun t => by
    rw [reduceElement]
    split_ifs with hlt'
    · exact (hg.word hsize (fun c' _ h => ⟨c'.x.toNat, h⟩) hx hout hapart hlt').symm
    · rfl

theorem reduce_planned (hprogram : program.Decoded reduceTree 1024) (hn : 256 * (blocks - 1) < n)
    (hsize : g.size ≤ 2 ^ 32) (hx : g.HasBuffer x n) (hout : g.HasBuffer out blocks)
    (hapart : ByteMemory.Apart x n out blocks) :
    Launch.Planned.All F (reduceLaunch program x out n blocks) 9 (reduceOut out blocks)
      (fun a => reduceSum x n g ((a.toNat - out) / 4)) g
      (blockOrder ⟨BitVec.ofNat 32 blocks, 1⟩) where
  pos := show (256 : Word) * 1 ≠ 0 by decide
  fits := show ((256 : Word) * 1).toNat ≤ 2 ^ 32 - 32 by decide
  nodup := Device.nodup_blockOrder _
  aligned := fun c a ⟨hlt, ha⟩ => ha ▸ element_aligned hsize hout hlt
  apart := by
    rintro ⟨i, j⟩ hc ⟨i', j'⟩ hc' hne a ⟨hlt, rfl⟩ ⟨hlt', heq⟩
    have hi : i = i' := BitVec.eq_of_toNat_eq (element_inj hsize hout hlt hlt' heq)
    have hj : j = j' := (mem_row hc).2.trans (mem_row hc').2.symm
    exact hne (by rw [hi, hj])
  planned := by
    intro c hc g' hg
    have hcount : (BitVec.ofNat 32 blocks).toNat = blocks := by
      have := hout.2
      exact Nat.mod_eq_of_lt (by omega)
    have hlt : c.x.toNat < blocks := hcount ▸ (mem_row hc).1
    have hb := reduce_block hprogram hsize hx hout hapart hlt (by omega) hg
    refine ⟨_, reduce_sound hb, rfl, ⟨.refl _, rfl, fun h => absurd h (by decide)⟩,
      fun _ _ => rfl, fun m hm => hm.global, fun a => ?_, ?_⟩
    · constructor
      · rintro ⟨-, ha⟩
        exact ⟨0, show 0 < ((256 : Word) * 1).toNat by decide, rfl, rfl, ha⟩
      · rintro ⟨t, -, -, -, ha⟩
        exact ⟨hlt, ha⟩
    · rintro a ⟨-, rfl⟩
      have hindex : ((element out c.x.toNat).toNat - out) / 4 = c.x.toNat := by
        rw [toNat_element hsize hout hlt, Nat.add_sub_cancel_left,
          Nat.mul_div_cancel_left _ (by decide)]
      exact (halvings_reduceElement c.x.toNat).trans (congrArg (reduceSum x n g) hindex.symm)

theorem mem_reduceOut (hsize : g.size ≤ 2 ^ 32) (hout : g.HasBuffer out blocks) {b : Nat}
    (hb : b < blocks) : Launch.OutOf (reduceOut out blocks)
      (blockOrder ⟨BitVec.ofNat 32 blocks, 1⟩) (element out b) := by
  have hroom := hout.2
  have hx : (BitVec.ofNat 32 b).toNat = b := Nat.mod_eq_of_lt (by omega)
  have hgrid : (BitVec.ofNat 32 blocks).toNat = blocks := Nat.mod_eq_of_lt (by omega)
  refine ⟨⟨BitVec.ofNat 32 b, 0⟩, mem_blockOrder.2 ⟨?_, Nat.zero_lt_one⟩, hx.trans_lt hb,
    congrArg (element out) hx.symm⟩
  rw [hx, hgrid]
  exact hb

/-- The sum of a block, from the values of the array's elements. -/
theorem reduceSum_eq (x n : Nat) (g : ByteMemory) (b : Nat) : reduceSum x n g b
    = ((List.range 256).map fun t =>
        BitVec.ofInt 32 ((g.elements x n).getD (b * 256 + t) 0)).sum := by
  have hlist : reduceSum x n g b = ((List.range 256).map (reduceElement x n g b)).sum := rfl
  rw [hlist]
  congr 1
  refine List.map_congr_left fun t _ => ?_
  rw [reduceElement, Nat.mul_comm b 256, List.getD_eq_getElem?_getD, ByteMemory.elements,
    List.getElem?_map]
  split_ifs with hlt
  · rw [List.getElem?_range hlt, Option.map_some, Option.getD_some, BitVec.ofInt_toInt]
  · rw [List.getElem?_eq_none (by rw [List.length_range]; omega)]
    rfl

theorem launch_reduceSum (hprogram : program.Decoded reduceTree 1024) (hn : 1 ≤ n)
    (hblocks : blocks = (n + 255) / 256) (hsize : g.size ≤ 2 ^ 32) (hx : g.HasBuffer x n)
    (hout : g.HasBuffer out blocks) (hapart : ByteMemory.Apart x n out blocks) :
    (∃ fuel stats g', Device.launch F program ⟨BitVec.ofNat 32 blocks, 1⟩ ⟨256, 1⟩
        [BitVec.ofNat 32 x, BitVec.ofNat 32 out, BitVec.ofNat 32 n] g fuel = some (.ok stats, g')
      ∧ ByteMemory.SameBut out blocks g g'
      ∧ ∀ b < blocks, g'.word (out + 4 * b) = reduceSum x n g b)
    ∧ ∀ ctaid s, Device.Begins F program ⟨BitVec.ofNat 32 blocks, 1⟩ ⟨256, 1⟩
        [BitVec.ofNat 32 x, BitVec.ofNat 32 out, BitVec.ofNat 32 n] g ctaid s →
      ∃ log s' b, Scheduler.Run F reduceTree s log s'
        ∧ s'.advance F reduceTree = .returned (.ok ()) b ∧ Scheduler.completions log = 9 := by
  have hcount : (⟨BitVec.ofNat 32 blocks, 1⟩ : Dim2).count ≠ 0 := by
    have := hout.2
    rw [count_row]
    intro hz
    have := congrArg BitVec.toNat hz
    rw [BitVec.toNat_ofNat, Nat.mod_eq_of_lt (by omega)] at this
    exact absurd this (by omega : blocks ≠ 0)
  obtain ⟨⟨fuel, stats, g', hlaunch, hstores⟩, hbarriers⟩ := Device.launch_planned hprogram.words
    hcount (reduce_planned hprogram (by omega) hsize hx hout hapart)
  refine ⟨⟨fuel, stats, g', hlaunch, ⟨hstores.size, fun j hj => ?_⟩, fun b hb => ?_⟩, hbarriers⟩
  · refine (hstores.bytes j).resolve_right ?_
    rintro ⟨a, ⟨c, -, hlt, rfl⟩, hle, hge⟩
    rw [toNat_element hsize hout hlt] at hle hge
    omega
  · have hword := hstores.words (element out b) (mem_reduceOut hsize hout hb)
    rwa [toNat_element hsize hout hb, Nat.add_sub_cancel_left,
      Nat.mul_div_cancel_left _ (by decide)] at hword

/-- Those are the sums of the golden model. -/
theorem elements_reduceSum {g' : ByteMemory} (hblocks : blocks = (n + 255) / 256)
    (h : ∀ b < blocks, g'.word (out + 4 * b) = reduceSum x n g b) :
    g'.elements out blocks = Golden.reduceBlocks (g.elements x n) := by
  have hlen : (g.elements x n).length = n := by
    rw [ByteMemory.elements, List.length_map, List.length_range]
  rw [Golden.reduceBlocks_eq, hlen, ← hblocks]
  refine List.map_congr_left fun b hb => ?_
  rw [h b (List.mem_range.1 hb), reduceSum_eq]

/-- The kernel leaves in each word of its output the sum, modulo 2^32, of the 256 elements of its
block, those past the end counted as 0, and completes nine barriers in each block. -/
theorem reduce_words (F : FloatOps) (C : FloatChars) (hn : 1 ≤ n)
    (hblocks : blocks = (n + 255) / 256) (hsize : g.size ≤ 2 ^ 32) (hx : g.HasBuffer x n)
    (hout : g.HasBuffer out blocks) (hapart : ByteMemory.Apart x n out blocks) :
    ∃ program, assemble C Kernels.reduce = .ok program
      ∧ (∃ fuel stats g', Device.launch F program ⟨BitVec.ofNat 32 blocks, 1⟩ ⟨256, 1⟩
          [BitVec.ofNat 32 x, BitVec.ofNat 32 out, BitVec.ofNat 32 n] g fuel = some (.ok stats, g')
        ∧ ByteMemory.SameBut out blocks g g'
        ∧ ∀ b < blocks, g'.word (out + 4 * b) = ∑ t ∈ Finset.range 256,
          if 256 * b + t < n then g.word (x + 4 * (256 * b + t)) else 0)
      ∧ ∀ ctaid s, Device.Begins F program ⟨BitVec.ofNat 32 blocks, 1⟩ ⟨256, 1⟩
          [BitVec.ofNat 32 x, BitVec.ofNat 32 out, BitVec.ofNat 32 n] g ctaid s →
        ∃ log s' b, Scheduler.Run F reduceTree s log s'
          ∧ s'.advance F reduceTree = .returned (.ok ()) b ∧ Scheduler.completions log = 9 := by
  obtain ⟨program, hassemble, hprogram⟩ := assembles_of assembly_reduce (C := C)
    (List.forall_mem_nil _)
  exact ⟨program, hassemble, launch_reduceSum hprogram hn hblocks hsize hx hout hapart⟩

/-- One element more than a block: it is the sum of the second block. -/
theorem reduce_words_ragged : ∃ program, assemble zeroChars Kernels.reduce = .ok program
    ∧ ∃ fuel stats g', Device.launch default program ⟨2, 1⟩ ⟨256, 1⟩ [0, 1028, 257]
        ⟨List.replicate 1036 7⟩ fuel = some (.ok stats, g')
      ∧ g'.word 1032 = 0x07070707 := by
  obtain ⟨program, hassemble, ⟨fuel, stats, g', hlaunch, -, hwords⟩, -⟩ := reduce_words default
    zeroChars (n := 257) (g := ⟨List.replicate 1036 7⟩) (by decide)
    (show 2 = (257 + 255) / 256 from rfl) (by decide +kernel)
    (show ByteMemory.HasBuffer _ 0 257 by decide +kernel)
    (show ByteMemory.HasBuffer _ 1028 2 by decide +kernel) (.inl (by decide))
  exact ⟨program, hassemble, fuel, stats, g', hlaunch,
    (hwords 1 (by decide)).trans (by decide +kernel)⟩

/-- The kernel leaves the sums of the blocks, of `256` elements each but for the last one, and
completes nine barriers in each block. -/
theorem reduce_sums (F : FloatOps) (C : FloatChars) (hn : 1 ≤ n)
    (hblocks : blocks = (n + 255) / 256) (hsize : g.size ≤ 2 ^ 32) (hx : g.HasBuffer x n)
    (hout : g.HasBuffer out blocks) (hapart : ByteMemory.Apart x n out blocks) :
    ∃ program, assemble C Kernels.reduce = .ok program
      ∧ (∃ fuel stats g', Device.launch F program ⟨BitVec.ofNat 32 blocks, 1⟩ ⟨256, 1⟩
          [BitVec.ofNat 32 x, BitVec.ofNat 32 out, BitVec.ofNat 32 n] g fuel = some (.ok stats, g')
        ∧ ByteMemory.SameBut out blocks g g'
        ∧ g'.elements out blocks = Golden.reduceBlocks (g.elements x n))
      ∧ ∀ ctaid s, Device.Begins F program ⟨BitVec.ofNat 32 blocks, 1⟩ ⟨256, 1⟩
          [BitVec.ofNat 32 x, BitVec.ofNat 32 out, BitVec.ofNat 32 n] g ctaid s →
        ∃ log s' b, Scheduler.Run F reduceTree s log s'
          ∧ s'.advance F reduceTree = .returned (.ok ()) b ∧ Scheduler.completions log = 9 := by
  obtain ⟨program, hassemble, hprogram⟩ := assembles_of assembly_reduce (C := C)
    (List.forall_mem_nil _)
  obtain ⟨⟨fuel, stats, g', hlaunch, hsame, hwords⟩, hbarriers⟩ :=
    launch_reduceSum (F := F) hprogram hn hblocks hsize hx hout hapart
  exact ⟨program, hassemble,
    ⟨fuel, stats, g', hlaunch, hsame, elements_reduceSum hblocks hwords⟩, hbarriers⟩

/-- Two elements, whose sum wraps. -/
theorem reduce_sums_two : ∃ program, assemble zeroChars Kernels.reduce = .ok program
    ∧ ∃ fuel stats g', Device.launch default program ⟨1, 1⟩ ⟨256, 1⟩ [0, 8, 2]
        ⟨[5, 0, 0, 0, 255, 255, 255, 255, 0, 0, 0, 0]⟩ fuel = some (.ok stats, g')
      ∧ g'.elements 8 1 = [4] := by
  obtain ⟨program, hassemble, ⟨fuel, stats, g', hlaunch, -, hsums⟩, -⟩ := reduce_sums default
    zeroChars (n := 2) (g := ⟨[5, 0, 0, 0, 255, 255, 255, 255, 0, 0, 0, 0]⟩) (by decide)
    (show 1 = (2 + 255) / 256 from rfl) (by decide) (show ByteMemory.HasBuffer _ 0 2 by decide)
    (show ByteMemory.HasBuffer _ 8 1 by decide) (.inl (by decide))
  exact ⟨program, hassemble, fuel, stats, g', hlaunch, hsums.trans (by decide +kernel)⟩

end Launch

end WarpSim
