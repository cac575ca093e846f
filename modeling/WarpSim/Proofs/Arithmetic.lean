import WarpSim.Proofs.LaneRefinement

/-!
# The integer instructions against the specification

What the specification's instruction table says of the integer opcodes, over the integers and the
single bits and not over machine operations, and that `executeAlu` computes it lane by lane
(`executeAlu_integer`).
-/

namespace WarpSim

section Specification

def isIntegerOpcode : Opcode → Bool
  | .add | .sub | .mul | .div | .rem | .min | .max | .neg | .and | .or | .xor | .not | .shl | .shr
  | .sra | .mov | .fNeg | .setpEqS32 | .setpNeS32 | .setpLtS32 | .setpLeS32 | .setpGtS32
  | .setpGeS32 | .movSreg => true
  | _ => false

/-- The immediate-capable operand is `ra` for the shape `RR` and `rb` for `RRR` and `PRR`. -/
def operandA (i : Instruction) (register : BitVec 8 → Word) : Word :=
  if (opcodeInfo i.opcode).shape = .rr ∧ i.immFlag = true then i.imm else register i.src0

def operandB (i : Instruction) (register : BitVec 8 → Word) : Word :=
  if i.immFlag then i.imm else register i.src1

/-- The special registers by index. -/
def specialValue (ctx : LaneContext) (lane : Nat) : Nat → Nat
  | 0 => (ctx.warpId.toNat * 32 + lane) % 2 ^ 32 % ctx.ntid.x.toNat
  | 1 => (ctx.warpId.toNat * 32 + lane) % 2 ^ 32 / ctx.ntid.x.toNat
  | 2 => ctx.ntid.x.toNat
  | 3 => ctx.ntid.y.toNat
  | 4 => ctx.ctaid.x.toNat
  | 5 => ctx.ctaid.y.toNat
  | 6 => ctx.nctaid.x.toNat
  | 7 => ctx.nctaid.y.toNat
  | 8 => lane
  | 9 => ctx.warpId.toNat
  | _ => 0

/-- The value `v` of an integer opcode that writes a register, from the operands `a` and `b`. -/
def SpecifiedValue (op : Opcode) (a b v : Word) : Prop :=
  match op with
  | .add => v = BitVec.ofInt 32 (a.toInt + b.toInt)
  | .sub => v = BitVec.ofInt 32 (a.toInt - b.toInt)
  | .mul => v = BitVec.ofInt 32 (a.toInt * b.toInt)
  | .neg => v = BitVec.ofInt 32 (-a.toInt)
  | .div => v.toInt = if b.toInt = 0 then 0
      else if a.toInt = int32Min ∧ b.toInt = -1 then int32Min else a.toInt.tdiv b.toInt
  | .rem => v.toInt = if b.toInt = 0 then 0
      else if a.toInt = int32Min ∧ b.toInt = -1 then 0 else a.toInt.tmod b.toInt
  | .min => v.toInt = min a.toInt b.toInt
  | .max => v.toInt = max a.toInt b.toInt
  | .and => ∀ k < 32, v.getLsbD k = (a.getLsbD k && b.getLsbD k)
  | .or => ∀ k < 32, v.getLsbD k = (a.getLsbD k || b.getLsbD k)
  | .xor => ∀ k < 32, v.getLsbD k = (a.getLsbD k ^^ b.getLsbD k)
  | .not => ∀ k < 32, v.getLsbD k = !a.getLsbD k
  | .shl => v.toNat = a.toNat * 2 ^ (b.toNat % 32) % 2 ^ 32
  | .shr => v.toNat = a.toNat / 2 ^ (b.toNat % 32)
  | .sra => v.toInt = a.toInt.fdiv (2 ^ (b.toNat % 32))
  | .mov => v = a
  | .fNeg => ∀ k < 32, v.getLsbD k = (a.getLsbD k ^^ decide (k = 31))
  | _ => False

/-- The integer comparisons. -/
def SpecifiedPredicate (op : Opcode) (a b : Int) (v : Bool) : Prop :=
  match op with
  | .setpEqS32 => v = true ↔ a = b
  | .setpNeS32 => v = true ↔ a ≠ b
  | .setpLtS32 => v = true ↔ a < b
  | .setpLeS32 => v = true ↔ a ≤ b
  | .setpGtS32 => v = true ↔ a > b
  | .setpGeS32 => v = true ↔ a ≥ b
  | _ => False

/-- What an executing lane holds after an instruction, from its registers before it. -/
def Specified (i : Instruction) (ctx : LaneContext) (lane : Nat) (before after : RegisterFile) :
    Prop :=
  let a := operandA i (before.general lane)
  let b := operandB i (before.general lane)
  if (opcodeInfo i.opcode).shape = .prr then
    SpecifiedPredicate i.opcode a.toInt b.toInt (after.predicates lane i.dst)
  else if i.opcode = .movSreg then
    (after.general lane i.dst).toNat = specialValue ctx lane i.src0.toNat
  else SpecifiedValue i.opcode a b (after.general lane i.dst)

end Specification

section Division

variable (a b : Word)

theorem toInt_bounds (a : Word) : -2147483648 ≤ a.toInt ∧ a.toInt < 2147483648 :=
  ⟨BitVec.le_toInt a, BitVec.toInt_lt⟩

theorem toInt_ofInt_of_bounds {n : Int} (h1 : -2147483648 ≤ n) (h2 : n < 2147483648) :
    (BitVec.ofInt 32 n).toInt = n :=
  BitVec.toInt_ofInt_eq_self (by decide) h1 h2

/-- Only INT_MIN by -1 has a quotient out of range. -/
theorem tdiv_bounds (hb : b.toInt ≠ 0) (h : ¬(a.toInt = int32Min ∧ b.toInt = -1)) :
    -2147483648 ≤ a.toInt.tdiv b.toInt ∧ a.toInt.tdiv b.toInt < 2147483648 := by
  obtain ⟨ha1, ha2⟩ := toInt_bounds a
  rw [int32Min] at h
  have hq : (a.toInt.tdiv b.toInt).natAbs = a.toInt.natAbs / b.toInt.natAbs := Int.natAbs_tdiv _ _
  have hmul := Nat.div_mul_le_self a.toInt.natAbs b.toInt.natAbs
  rw [← hq] at hmul
  by_cases hneg : b.toInt = -1
  · rw [hneg, Int.tdiv_neg, Int.tdiv_one]
    omega
  by_cases hone : b.toInt = 1
  · rw [hone, Int.tdiv_one]
    exact ⟨ha1, ha2⟩
  have htwo : 2 ≤ b.toInt.natAbs := by omega
  have := Nat.mul_le_mul_left (a.toInt.tdiv b.toInt).natAbs htwo
  omega

theorem toInt_s32Div : (s32Div a b).toInt = if b.toInt = 0 then 0
    else if a.toInt = int32Min ∧ b.toInt = -1 then int32Min else a.toInt.tdiv b.toInt := by
  unfold s32Div
  split_ifs with h0 hmin
  · rfl
  · exact hmin.1
  · obtain ⟨h1, h2⟩ := tdiv_bounds a b h0 hmin
    exact toInt_ofInt_of_bounds h1 h2

theorem toInt_s32Rem : (s32Rem a b).toInt = if b.toInt = 0 then 0
    else if a.toInt = int32Min ∧ b.toInt = -1 then 0 else a.toInt.tmod b.toInt := by
  unfold s32Rem
  by_cases h0 : b.toInt = 0
  · rw [if_pos (.inl h0), if_pos h0]
    rfl
  by_cases hmin : a.toInt = int32Min ∧ b.toInt = -1
  · rw [if_pos (.inr hmin), if_neg h0, if_pos hmin]
    rfl
  · rw [if_neg (not_or.2 ⟨h0, hmin⟩), if_neg h0, if_neg hmin]
    obtain ⟨hb1, hb2⟩ := toInt_bounds b
    have hr : (a.toInt.tmod b.toInt).natAbs = a.toInt.natAbs % b.toInt.natAbs := Int.natAbs_tmod _ _
    have hlt := Nat.mod_lt a.toInt.natAbs (Int.natAbs_pos.2 h0)
    exact toInt_ofInt_of_bounds (by omega) (by omega)

/-- The quotient and the remainder give the dividend back, as a number but for INT_MIN by -1, and
as a word there too. -/
theorem div_rem_identity (hb : b ≠ 0) :
    (¬(a.toInt = int32Min ∧ b.toInt = -1) →
      a.toInt = b.toInt * (s32Div a b).toInt + (s32Rem a b).toInt)
    ∧ a = b * s32Div a b + s32Rem a b := by
  have h0 : b.toInt ≠ 0 := fun h => hb (BitVec.eq_of_toInt_eq h)
  have hint : ¬(a.toInt = int32Min ∧ b.toInt = -1) →
      a.toInt = b.toInt * (s32Div a b).toInt + (s32Rem a b).toInt := by
    intro hmin
    rw [toInt_s32Div, toInt_s32Rem, if_neg h0, if_neg hmin, if_neg h0, if_neg hmin,
      Int.mul_tdiv_add_tmod]
  refine ⟨hint, ?_⟩
  by_cases hmin : a.toInt = int32Min ∧ b.toInt = -1
  · have ha : a = 0x80000000 := BitVec.eq_of_toInt_eq hmin.1
    have hb : b = 0xFFFFFFFF := BitVec.eq_of_toInt_eq hmin.2
    subst ha hb
    decide
  · rw [← BitVec.toInt_inj, BitVec.toInt_add, BitVec.toInt_mul, Int.bmod_add_bmod,
      ← hint hmin]
    exact (Int.bmod_eq_of_le (by have := toInt_bounds a; omega)
      (by have := toInt_bounds a; omega)).symm

end Division

section Shifts

variable (a b : Word)

theorem toNat_shiftCount : (b &&& shiftMask).toNat = b.toNat % 32 := by
  rw [BitVec.toNat_and]
  exact Nat.and_two_pow_sub_one_eq_mod b.toNat 5

theorem sra_eq_sshiftRight : sra a b = a.sshiftRight (b.toNat % 32) := by
  have hn : b.toNat % 32 < 32 := Nat.mod_lt _ (by decide)
  have hneg : (a.toInt < 0 ∧ 0 < b.toNat % 32) = (a.msb = true ∧ 0 < b.toNat % 32) := by
    rw [BitVec.msb_eq_toInt, decide_eq_true_eq]
  unfold sra
  simp only [toNat_shiftCount, hneg]
  generalize b.toNat % 32 = n at hn
  apply BitVec.eq_of_getLsbD_eq
  intro k hk
  have hk' : ¬ 32 ≤ k := by omega
  rw [BitVec.getLsbD_sshiftRight]
  by_cases hin : n + k < 32
  · by_cases h : a.msb = true ∧ 0 < n
    · simp [h, hin, hk', show k < 32 - n by omega]
    · rw [if_neg h]
      simp [hin, hk']
  · have hout : a.getLsbD (n + k) = false := BitVec.getLsbD_of_ge _ _ (by omega)
    by_cases h : a.msb = true ∧ 0 < n
    · have hone : (4294967295#32).getLsbD (k - (32 - n)) = true := by
        have hall : ∀ j < 32, (4294967295#32).getLsbD j = true := by decide
        exact hall _ (by omega)
      simp [h, hin, hk, hk', hout, hone, show ¬ k < 32 - n by omega]
    · have hmsb : a.msb = false := by
        rw [← Bool.not_eq_true]
        exact fun hm => h ⟨hm, by omega⟩
      rw [if_neg h]
      simp [hin, hout, hmsb]

theorem toInt_sra : (sra a b).toInt = a.toInt.fdiv (2 ^ (b.toNat % 32)) := by
  have hpos : (0 : Int) ≤ 2 ^ (b.toNat % 32) := Int.pow_nonneg (by decide)
  rw [sra_eq_sshiftRight, BitVec.toInt_sshiftRight, Int.shiftRight_eq_div_pow,
    Int.fdiv_eq_ediv_of_nonneg _ hpos, Int.natCast_pow]
  rfl

end Shifts

section Lanes

variable (F : FloatOps) {i : Instruction} (ctx : LaneContext) (lane : Nat)

/-- The operands an opcode of another shape than `RR` reads; `RR` has the first one only. -/
theorem operands_eq (i : Instruction) (s : LaneState) : (s.operands i).a = operandA i s.general
    ∧ ((opcodeInfo i.opcode).shape ≠ .rr → (s.operands i).b = operandB i s.general) := by
  unfold LaneState.operands operandA operandB
  by_cases h : (opcodeInfo i.opcode).shape = .rr
  · simp only [h, if_true, true_and]
    exact fun hne => absurd rfl hne
  · simp only [h, if_false, false_and]
    exact ⟨trivial, fun _ => trivial⟩

theorem compareS32_specified {op : Opcode} (hop : isIntegerOpcode op = true)
    (hs : (opcodeInfo op).shape = .prr) (a b : Word) :
    SpecifiedPredicate op a.toInt b.toInt (compareS32 op a b) := by
  cases op <;> try (cases hop; done)
  case setpEqS32 | setpNeS32 | setpLtS32 | setpLeS32 | setpGtS32 | setpGeS32 =>
    simp [SpecifiedPredicate, compareS32]
  all_goals exact absurd hs (by decide)

theorem evaluate_specified (hop : isIntegerOpcode i.opcode = true)
    (hs : (opcodeInfo i.opcode).shape ≠ .prr) (hm : i.opcode ≠ .movSreg) {a b : Word}
    {o : Operands} (ha : o.a = a) (hb : (opcodeInfo i.opcode).shape ≠ .rr → o.b = b) (old : Word) :
    SpecifiedValue i.opcode a b (evaluate F i o old lane ctx) := by
  obtain ⟨oa, ob⟩ := o
  subst ha
  have hbinary : (opcodeInfo i.opcode).shape ≠ .rr → b = ob := fun h => (hb h).symm
  unfold evaluate SpecifiedValue
  cases hi : i.opcode <;> rw [hi] at hop hs hm hbinary <;> try (cases hop; done)
  case neg => simp [BitVec.ofInt_neg]
  case not => simp +contextual
  case fNeg =>
    simp only [BitVec.getLsbD_xor]
    have hsign : ∀ k < 32, (2147483648 : Word).getLsbD k = decide (k = 31) := by decide
    exact fun k hk => by rw [hsign k hk]
  case movSreg => exact absurd rfl hm
  case setpEqS32 | setpNeS32 | setpLtS32 | setpLeS32 | setpGtS32 | setpGeS32 =>
    exact absurd (by decide) hs
  all_goals obtain rfl := hbinary (by decide)
  case add => simp [BitVec.ofInt_add]
  case sub => simp [Int.sub_eq_add_neg, BitVec.ofInt_add, BitVec.ofInt_neg, BitVec.sub_eq_add_neg]
  case mul => simp [BitVec.ofInt_mul]
  case div => exact toInt_s32Div oa b
  case rem => exact toInt_s32Rem oa b
  case min =>
    show (if b.toInt < oa.toInt then b else oa : Word).toInt = min oa.toInt b.toInt
    split_ifs <;> omega
  case max =>
    show (if oa.toInt < b.toInt then b else oa : Word).toInt = max oa.toInt b.toInt
    split_ifs <;> omega
  case and | or | xor => simp
  case shl => simp only [BitVec.toNat_shiftLeft, toNat_shiftCount, Nat.shiftLeft_eq]
  case shr => simp only [BitVec.toNat_ushiftRight, toNat_shiftCount, Nat.shiftRight_eq_div_pow]
  case sra => exact toInt_sra oa b

theorem toNat_linearIndex :
    (ctx.linearIndex lane).toNat = (ctx.warpId.toNat * 32 + lane) % 2 ^ 32 := by
  rw [LaneContext.linearIndex, BitVec.toNat_add, BitVec.toNat_mul, BitVec.toNat_ofNat,
    BitVec.toNat_ofNat, warpSize]
  omega

theorem specialRegister_cases (reg : BitVec 8) : (∃ r : SpecialRegister, reg = r.number)
    ∨ 10 ≤ reg.toNat ∧ specialRegisterInfoOfIndex reg = none := by
  by_cases h : reg.toNat < 10
  · have hsmall : ∀ k < 10, ∃ r : SpecialRegister, BitVec.ofNat 8 k = r.number := by
      intro k hk
      rcases k with _ | _ | _ | _ | _ | _ | _ | _ | _ | _ | k
      exacts [⟨.tidX, rfl⟩, ⟨.tidY, rfl⟩, ⟨.ntidX, rfl⟩, ⟨.ntidY, rfl⟩, ⟨.ctaidX, rfl⟩,
        ⟨.ctaidY, rfl⟩, ⟨.nctaidX, rfl⟩, ⟨.nctaidY, rfl⟩, ⟨.laneId, rfl⟩, ⟨.warpId, rfl⟩,
        by omega]
    have := hsmall reg.toNat h
    rw [BitVec.ofNat_toNat, BitVec.setWidth_eq] at this
    exact .inl this
  · refine .inr ⟨by omega, List.find?_eq_none.2 fun entry hentry he => ?_⟩
    have hall : ∀ entry ∈ specialRegisterTable, entry.reg.number.toNat < 10 := by decide
    have := hall entry hentry
    rw [beq_iff_eq.1 he] at this
    exact h this

theorem special_specified (reg : BitVec 8) (hl : lane < 32) :
    (ctx.special reg lane).toNat = specialValue ctx lane reg.toNat := by
  unfold LaneContext.special
  rcases specialRegister_cases reg with ⟨r, rfl⟩ | ⟨hbig, hnone⟩
  · have hr : (specialRegisterInfoOfIndex r.number).map SpecialRegisterInfo.reg = some r := by
      cases r <;> decide
    rw [hr]
    cases r
    case tidX =>
      rw [BitVec.toNat_umod, toNat_linearIndex]
      rfl
    case tidY =>
      rw [BitVec.toNat_udiv, toNat_linearIndex]
      rfl
    case laneId =>
      rw [BitVec.toNat_ofNat, Nat.mod_eq_of_lt (by omega)]
      rfl
    all_goals rfl
  · obtain ⟨k, hk⟩ : ∃ k, reg.toNat = k + 10 := ⟨reg.toNat - 10, by omega⟩
    rw [hnone, hk]
    rfl

/-- The opcodes of the shape `PRR` are those that write a predicate. -/
theorem isSetp_integer {op : Opcode} (hop : isIntegerOpcode op = true) :
    isSetp op = decide ((opcodeInfo op).shape = .prr)
      ∧ ((opcodeInfo op).shape = .prr → isSetpF32 op = false) := by
  cases op <;> first | cases hop; done | decide

end Lanes

section Main

variable {i : Instruction}

/-- One lane of an integer instruction. -/
theorem lane_specified (F : FloatOps) (hop : isIntegerOpcode i.opcode = true) (ctx : LaneContext)
    {lane : Nat} (hl : lane < 32) {before after : RegisterFile} {pc : Option Pc}
    (h : Warp.fileLane after pc lane = (Warp.fileLane before pc lane).executeAlu F i lane ctx) :
    Specified i ctx lane before after := by
  obtain ⟨hsetp, hf32⟩ := isSetp_integer hop
  obtain ⟨ha, hb⟩ := operands_eq i (Warp.fileLane before pc lane)
  have hgeneral := congrArg (LaneState.general · i.dst) h
  have hpredicates := congrArg (LaneState.predicates · i.dst) h
  unfold LaneState.executeAlu at hgeneral hpredicates
  unfold Specified
  by_cases hs : (opcodeInfo i.opcode).shape = .prr
  · have hrr : (opcodeInfo i.opcode).shape ≠ .rr := by rw [hs]; decide
    simp only [hsetp, hs, hf32 hs, decide_true, if_true, Bool.false_eq_true, if_false,
      LaneState.writePred, ha, hb hrr] at hpredicates ⊢
    rw [show after.predicates lane i.dst = _ from hpredicates]
    exact compareS32_specified hop hs _ _
  · simp only [hsetp, hs, decide_false, Bool.false_eq_true, if_false, if_true,
      LaneState.write] at hgeneral ⊢
    rw [show after.general lane i.dst = _ from hgeneral]
    split_ifs with hm
    · rw [← special_specified ctx lane i.src0 hl]
      unfold evaluate
      rw [hm]
    · exact evaluate_specified F ctx lane hop hs hm ha hb _

/-- The arithmetic unit computes the specification's value on each executing lane, from the
registers before the instruction, and changes nothing else. -/
theorem executeAlu_integer (F : FloatOps) (hop : isIntegerOpcode i.opcode = true)
    (exec : LaneMask) (rf : RegisterFile) (ctx : LaneContext) :
    (∀ lane, hasLane exec lane = true → Specified i ctx lane rf (executeAlu F i exec rf ctx))
    ∧ (∀ lane r, (executeAlu F i exec rf ctx).general lane r = rf.general lane r
      ∨ hasLane exec lane = true ∧ (opcodeInfo i.opcode).shape ≠ .prr ∧ r = i.dst)
    ∧ (∀ lane p, (executeAlu F i exec rf ctx).predicates lane p = rf.predicates lane p
      ∨ hasLane exec lane = true ∧ (opcodeInfo i.opcode).shape = .prr ∧ p = i.dst)
    ∧ ∀ a b : Word, b ≠ 0 →
      (¬(a.toInt = int32Min ∧ b.toInt = -1) →
        a.toInt = b.toInt * (s32Div a b).toInt + (s32Rem a b).toInt)
      ∧ a = b * s32Div a b + s32Rem a b := by
  have hlane := Warp.fileLane_executeAlu F i ctx exec rf none
  obtain ⟨hsetp, -⟩ := isSetp_integer hop
  refine ⟨fun lane hl => ?_, fun lane r => ?_, fun lane p => ?_, div_rem_identity⟩
  · have := hlane lane
    rw [if_pos hl] at this
    exact lane_specified F hop ctx (hasLane_lt hl) this
  · have hr := congrArg (LaneState.general · r) (hlane lane)
    by_cases hl : hasLane exec lane = true
    · unfold LaneState.executeAlu at hr
      by_cases hs : (opcodeInfo i.opcode).shape = .prr
      · simp only [if_pos hl, hsetp, hs, decide_true, if_true] at hr
        exact .inl hr
      · simp only [if_pos hl, hsetp, hs, decide_false, Bool.false_eq_true, if_false,
          LaneState.write] at hr
        by_cases hd : r = i.dst
        · exact .inr ⟨hl, hs, hd⟩
        · exact .inl (hr.trans (if_neg hd))
    · rw [if_neg hl] at hr
      exact .inl hr
  · have hp := congrArg (LaneState.predicates · p) (hlane lane)
    by_cases hl : hasLane exec lane = true
    · unfold LaneState.executeAlu at hp
      by_cases hs : (opcodeInfo i.opcode).shape = .prr
      · simp only [if_pos hl, hsetp, hs, decide_true, if_true, LaneState.writePred] at hp
        by_cases hd : p = i.dst
        · exact .inr ⟨hl, hs, hd⟩
        · exact .inl (hp.trans (if_neg hd))
      · simp only [if_pos hl, hsetp, hs, decide_false, Bool.false_eq_true, if_false] at hp
        exact .inl hp
    · rw [if_neg hl] at hp
      exact .inl hp

/-- `sra r1, r1, 33` on the lanes 0 and 2 of a warp whose registers hold -7. -/
theorem executeAlu_integer_shift :
    let i : Instruction := { opcode := .sra, dst := 1, src0 := 1, immFlag := true, imm := 33 }
    let rf : RegisterFile := { general := fun _ _ => BitVec.ofInt 32 (-7) }
    ((executeAlu default i 5 rf {}).general 2 1).toInt = -4
      ∧ (executeAlu default i 5 rf {}).general 1 1 = BitVec.ofInt 32 (-7) := by
  intro i rf
  obtain ⟨hvalue, hframe, -, -⟩ := executeAlu_integer default (i := i) (by decide) 5 rf {}
  refine ⟨?_, (hframe 1 1).resolve_right fun h => ?_⟩
  · have h2 : SpecifiedValue .sra (BitVec.ofInt 32 (-7)) 33 _ := hvalue 2 (by decide)
    exact h2.trans (by decide)
  · exact absurd h.1 (by decide)

end Main

end WarpSim
