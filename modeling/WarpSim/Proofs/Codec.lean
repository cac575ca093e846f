import WarpSim.Instruction
import WarpSim.Lib.BitField
import WarpSim.Lib.Check

/-!
# The instruction codec is a bijection

A word packed from the fields of a valid instruction has each field's bits in the field's place
(`getLsbD_packWord`), so unpacking gives the instruction back; the nine fields cover all 64 bits,
so packing an unpacked word gives the word back. `validate` is what cuts both sides down to the
same set: it looks at the fields only, and `decode` runs it on what it unpacked.
-/

namespace WarpSim

open BitField

section Pack

/-- The register fields of an instruction are no wider than the word's. -/
structure FieldsFit (i : Instruction) : Prop where
  pred : Fits i.guard.pred 3
  dst : Fits i.dst 6
  src0 : Fits i.src0 6
  src1 : Fits i.src1 6

theorem getLsbD_packWord {i : Instruction} (h : FieldsFit i) (j : Nat) :
    (packWord i).getLsbD j =
      ((decide (56 ≤ j ∧ j < 64) && i.opcode.number.getLsbD (j - 56))
        || (decide (j = 55) && i.guard.present) || (decide (j = 54) && i.guard.negate)
        || (decide (51 ≤ j ∧ j < 54) && i.guard.pred.getLsbD (j - 51))
        || (decide (45 ≤ j ∧ j < 51) && i.dst.getLsbD (j - 45))
        || (decide (39 ≤ j ∧ j < 45) && i.src0.getLsbD (j - 39))
        || (decide (33 ≤ j ∧ j < 39) && i.src1.getLsbD (j - 33))
        || (decide (j = 32) && i.immFlag) || (decide (j < 32) && i.imm.getLsbD j)) := by
  have hb : ∀ (b : Bool) (s : Nat), s + 1 ≤ 64 →
      ((BitVec.ofBool b).setWidth 64 <<< s).getLsbD j = (decide (j = s) && b) := by
    intro b s hs
    rw [getLsbD_put (fits_width _).setWidth hs]
    by_cases hj : j = s
    · subst hj
      simp
    · simp only [hj, decide_false, Bool.false_and, Bool.and_eq_false_iff, decide_eq_false_iff_not]
      exact .inl (by omega)
  simp only [packWord, BitVec.getLsbD_or, getLsbD_put (fits_width i.opcode.number).setWidth,
    getLsbD_put h.pred.setWidth, getLsbD_put h.dst.setWidth, getLsbD_put h.src0.setWidth,
    getLsbD_put h.src1.setWidth, hb, Nat.reduceAdd, Nat.reduceLeDiff, BitVec.getLsbD_setWidth]
  grind

/-- The bits of a field under the mask `2 ^ k - 1`. -/
theorem getLsbD_wordField (w : BitVec 64) (s k j : Nat) :
    (wordField w s (low 64 k)).getLsbD j = (w.getLsbD (s + j) && decide (j < k)) :=
  getLsbD_get w s k j

theorem wordField_ne_zero (w : BitVec 64) (s : Nat) :
    (wordField w s (low 64 1) != 0) = w.getLsbD s := by
  have hbit : wordField w s (low 64 1) = (BitVec.ofBool (w.getLsbD s)).setWidth 64 := by
    apply BitVec.eq_of_getLsbD_eq
    intro j _
    rw [getLsbD_wordField, BitVec.getLsbD_setWidth, BitVec.getLsbD_ofBool]
    rcases j with _ | j <;> simp
  rw [hbit]
  cases w.getLsbD s <;> rfl

/-- The fields `decode` reads, with each mask as the width it stands for. -/
theorem unpackWord_eq (op : Opcode) (w : BitVec 64) :
    unpackWord op w =
      { opcode := op
        guard :=
          { present := w.getLsbD 55
            negate := w.getLsbD 54
            pred := (wordField w 51 (low 64 3)).setWidth 8 }
        dst := (wordField w 45 (low 64 6)).setWidth 8
        src0 := (wordField w 39 (low 64 6)).setWidth 8
        src1 := (wordField w 33 (low 64 6)).setWidth 8
        immFlag := w.getLsbD 32
        imm := (wordField w 0 (low 64 32)).setWidth 32 } := by
  rw [← wordField_ne_zero w 55, ← wordField_ne_zero w 54, ← wordField_ne_zero w 32]
  rfl

theorem fieldsFit_unpackWord (op : Opcode) (w : BitVec 64) : FieldsFit (unpackWord op w) := by
  rw [unpackWord_eq]
  exact ⟨(fits_get w 51 3).setWidth, (fits_get w 45 6).setWidth, (fits_get w 39 6).setWidth,
    (fits_get w 33 6).setWidth⟩

/-- A field as wide as the value it was packed from is read back. -/
theorem setWidth_wordField {m k : Nat} {w : BitVec 64} {x : BitVec m} {s : Nat}
    (hx : Fits x k) (hw : ∀ j, j < k → w.getLsbD (s + j) = x.getLsbD j) :
    (wordField w s (low 64 k)).setWidth m = x := by
  apply BitVec.eq_of_getLsbD_eq
  intro j hj
  rw [BitVec.getLsbD_setWidth, getLsbD_wordField]
  by_cases hk : j < k
  · simp [hj, hk, hw j hk]
  · simp [hk, hx.getLsbD (Nat.le_of_not_lt hk)]

theorem unpackWord_packWord {i : Instruction} (h : FieldsFit i) :
    unpackWord i.opcode (packWord i) = i := by
  have hbits := getLsbD_packWord h
  rw [unpackWord_eq, setWidth_wordField h.pred fun j hj => by rw [hbits]; grind,
    setWidth_wordField h.dst fun j hj => by rw [hbits]; grind,
    setWidth_wordField h.src0 fun j hj => by rw [hbits]; grind,
    setWidth_wordField h.src1 fun j hj => by rw [hbits]; grind,
    setWidth_wordField (fits_width i.imm) fun j hj => by rw [hbits]; grind,
    hbits 55, hbits 54, hbits 32]
  simp

/-- The byte `decode` looks the opcode up by. -/
theorem opcodeByte_packWord {i : Instruction} (h : FieldsFit i) :
    (wordField (packWord i) 56 0xFF).setWidth 8 = i.opcode.number := by
  have hbits := getLsbD_packWord h
  exact setWidth_wordField (k := 8) (fits_width _) fun j hj => by rw [hbits]; grind

theorem packWord_unpackWord {op : Opcode} {w : BitVec 64}
    (hop : (wordField w 56 0xFF).setWidth 8 = op.number) : packWord (unpackWord op w) = w := by
  have hbyte : ∀ j, j < 8 → op.number.getLsbD j = w.getLsbD (56 + j) := by
    intro j hj
    rw [← hop, BitVec.getLsbD_setWidth, show (0xFF : BitVec 64) = low 64 8 from rfl,
      getLsbD_wordField]
    simp [hj]
  apply BitVec.eq_of_getLsbD_eq
  intro j hj
  rw [getLsbD_packWord (fieldsFit_unpackWord op w), unpackWord_eq]
  simp only [BitVec.getLsbD_setWidth, getLsbD_wordField]
  obtain h | h | h | h | h | h | h | h | h : (56 ≤ j ∧ j < 64) ∨ j = 55 ∨ j = 54
      ∨ (51 ≤ j ∧ j < 54) ∨ (45 ≤ j ∧ j < 51) ∨ (39 ≤ j ∧ j < 45) ∨ (33 ≤ j ∧ j < 39) ∨ j = 32
      ∨ j < 32 := by omega
  · have := hbyte (j - 56)
    grind
  all_goals grind

end Pack

section Validate

theorem opcodeInfoOfNumber_number {n : BitVec 8} {info : OpcodeInfo}
    (h : opcodeInfoOfNumber n = some info) : info.opcode.number = n := by
  have := List.find?_some h
  simpa using this

/-- The table has one row for each byte, so a row found by an opcode's byte is that opcode's. -/
theorem opcodeInfoOfNumber_opcode {op : Opcode} {info : OpcodeInfo}
    (h : opcodeInfoOfNumber op.number = some info) : info.opcode = op := by
  cases op with
  | other n =>
    have hmem := List.mem_of_find?_eq_some h
    have hnum := opcodeInfoOfNumber_number h
    have hall : ∀ e ∈ opcodeTable, e.opcode.number ≠ 0 ∧ ¬ 0x2E#8 < e.opcode.number := by decide
    obtain ⟨h0, h1⟩ := hall info hmem
    rw [hnum] at h0 h1
    exact absurd n.2 (not_or.2 ⟨h0, h1⟩)
  | _ =>
    simp only [opcodeInfoOfNumber, opcodeTable] at h
    cases h
    rfl

/-- What `validate` asks of the fields under the shape of the opcode. -/
structure Valid (info : OpcodeInfo) (i : Instruction) : Prop where
  guard : i.guard.present = false → i.guard.negate = false ∧ i.guard.pred = 0
  fit : FieldsFit i
  dst : (fieldUse info.shape).dst = false → i.dst = 0
  src0 : (fieldUse info.shape).src0 = false → i.src0 = 0
  src1 : (fieldUse info.shape).src1 = false → i.src1 = 0
  imm : validateImmediate info.shape i = .ok ()
  prr : info.shape = .prr → i.dst.toNat < 8
  sreg : info.shape = .sreg → i.src0.toNat < 10

theorem fieldsFit_iff {i : Instruction} : FieldsFit i ↔ ¬ predicateRegisterCount ≤ i.guard.pred
    ∧ ¬ (generalRegisterCount ≤ i.dst ∨ generalRegisterCount ≤ i.src0
      ∨ generalRegisterCount ≤ i.src1) := by
  simp only [predicateRegisterCount, generalRegisterCount, BitVec.le_def, not_or, Nat.not_le]
  exact ⟨fun h => ⟨h.pred, h.dst, h.src0, h.src1⟩, fun h => ⟨h.1, h.2.1, h.2.2.1, h.2.2.2⟩⟩

theorem validate_ok {i : Instruction} : validate i = .ok () ↔
    ∃ info, opcodeInfoOfNumber i.opcode.number = some info ∧ Valid info i := by
  unfold validate
  rcases opcodeInfoOfNumber i.opcode.number with _ | info
  · simp
  simp only [Check.ite_error_eq_ok, Check.unit_bind_eq_ok, Option.some.injEq, exists_eq_left',
    and_true]
  constructor
  · rintro ⟨hg, hp, hr, hd, h0, h1, hi, hprr, hsreg⟩
    exact ⟨by simpa using hg, fieldsFit_iff.2 ⟨hp, hr⟩, by simpa using hd, by simpa using h0,
      by simpa using h1, hi, fun hs => Nat.lt_of_not_le fun hle => hprr ⟨hs, hle⟩,
      fun hs => Nat.lt_of_not_le fun hle => hsreg ⟨hs, hle⟩⟩
  · intro h
    obtain ⟨hp, hr⟩ := fieldsFit_iff.1 h.fit
    exact ⟨by simpa using h.guard, hp, hr, by simpa using h.dst, by simpa using h.src0,
      by simpa using h.src1, h.imm, fun hs => absurd hs.2 (Nat.not_le.2 (h.prr hs.1)),
      fun hs => absurd hs.2 (Nat.not_le.2 (h.sreg hs.1))⟩

end Validate

section Bijection

theorem encode_ok {i : Instruction} {w : BitVec 64} :
    encode i = .ok w ↔ validate i = .ok () ∧ packWord i = w := by
  simp [encode, Check.unit_bind_eq_ok]

theorem decode_ok {w : BitVec 64} {i : Instruction} :
    decode w = .ok i ↔ ∃ info, opcodeInfoOfNumber ((wordField w 56 0xFF).setWidth 8) = some info
      ∧ unpackWord info.opcode w = i ∧ validate i = .ok () := by
  unfold decode
  rcases opcodeInfoOfNumber ((wordField w 56 0xFF).setWidth 8) with _ | info
  · simp
  simp only [Check.unit_bind_eq_ok, Except.ok.injEq, Option.some.injEq, exists_eq_left']
  exact ⟨fun ⟨hv, h⟩ => ⟨h, h ▸ hv⟩, fun ⟨h, hv⟩ => ⟨h ▸ hv, h⟩⟩

theorem decode_encode {i : Instruction} {w : BitVec 64} (h : encode i = .ok w) :
    decode w = .ok i := by
  obtain ⟨hv, rfl⟩ := encode_ok.1 h
  obtain ⟨info, hinfo, hvalid⟩ := validate_ok.1 hv
  refine decode_ok.2 ⟨info, ?_, ?_, hv⟩
  · rw [opcodeByte_packWord hvalid.fit, hinfo]
  · rw [opcodeInfoOfNumber_opcode hinfo, unpackWord_packWord hvalid.fit]

theorem encode_decode {w : BitVec 64} {i : Instruction} (h : decode w = .ok i) :
    encode i = .ok w := by
  obtain ⟨info, hinfo, rfl, hv⟩ := decode_ok.1 h
  exact encode_ok.2 ⟨hv, packWord_unpackWord (opcodeInfoOfNumber_number hinfo).symm⟩

end Bijection

section Stray

/-- The shape of the instruction whose opcode byte a word carries. -/
def wordShape (w : BitVec 64) : Option Shape :=
  (opcodeInfoOfNumber ((wordField w 56 0xFF).setWidth 8)).map OpcodeInfo.shape

/-- A word with something in it that its shape leaves no room for. -/
inductive StrayWord (w : BitVec 64) : Prop
  | opcode (h : wordShape w = none)
  | guard (h : wordField w 55 0x1 = 0) (h' : wordField w 54 0x1 ≠ 0 ∨ wordField w 51 0x7 ≠ 0)
  | dst (s : Shape) (hs : wordShape w = some s) (h : (fieldUse s).dst = false)
      (h' : wordField w 45 0x3F ≠ 0)
  | src0 (s : Shape) (hs : wordShape w = some s) (h : (fieldUse s).src0 = false)
      (h' : wordField w 39 0x3F ≠ 0)
  | src1 (s : Shape) (hs : wordShape w = some s) (h : (fieldUse s).src1 = false)
      (h' : wordField w 33 0x3F ≠ 0)
  | replaced (s : Shape) (hs : wordShape w = some s) (h : (fieldUse s).immOptional = true)
      (hf : wordField w 32 0x1 ≠ 0)
      (h' : (if s = .rr then wordField w 39 0x3F else wordField w 33 0x3F) ≠ 0)
  | noFlag (s : Shape) (hs : wordShape w = some s) (h : (fieldUse s).immAlways = true)
      (hf : wordField w 32 0x1 = 0)
  | flag (s : Shape) (hs : wordShape w = some s) (h : (fieldUse s).immAlways = false)
      (h' : (fieldUse s).immOptional = false) (hf : wordField w 32 0x1 ≠ 0)
  | immediate (s : Shape) (hs : wordShape w = some s) (h : (fieldUse s).immRaw = false)
      (hf : wordField w 32 0x1 = 0) (h' : wordField w 0 0xFFFFFFFF ≠ 0)
  | predicate (hs : wordShape w = some .prr) (h : 8 ≤ (wordField w 45 0x3F).toNat)
  | special (hs : wordShape w = some .sreg) (h : 10 ≤ (wordField w 39 0x3F).toNat)

theorem toNat_setWidth_wordField (w : BitVec 64) {s k m : Nat} (hk : k ≤ m) :
    ((wordField w s (low 64 k)).setWidth m).toNat = (wordField w s (low 64 k)).toNat := by
  rw [BitVec.toNat_setWidth]
  exact Nat.mod_eq_of_lt ((fits_get w s k).trans_le (Nat.pow_le_pow_right (by decide) hk))

theorem setWidth_wordField_eq_zero (w : BitVec 64) {s k m : Nat} (hk : k ≤ m) :
    (wordField w s (low 64 k)).setWidth m = 0 ↔ wordField w s (low 64 k) = 0 := by
  rw [← BitVec.toNat_inj, ← BitVec.toNat_inj, toNat_setWidth_wordField w hk]
  rfl

/-- Under each shape, what `validate` asks of the immediate. -/
theorem validateImmediate_ok {s : Shape} {i : Instruction} : validateImmediate s i = .ok () ↔
    ((fieldUse s).immAlways = true → i.immFlag = true)
      ∧ ((fieldUse s).immAlways = false → (fieldUse s).immOptional = false → i.immFlag = false)
      ∧ ((fieldUse s).immOptional = true → i.immFlag = true →
        (if s = .rr then i.src0 else i.src1) = 0)
      ∧ ((fieldUse s).immRaw = false → i.immFlag = false → i.imm = 0) := by
  cases s <;> cases hf : i.immFlag <;> simp [validateImmediate, fieldUse, hf]

/-- An unpacked word is valid under the shape of its opcode unless something in it is stray. -/
theorem valid_unpackWord {w : BitVec 64} {info : OpcodeInfo}
    (h : opcodeInfoOfNumber ((wordField w 56 0xFF).setWidth 8) = some info) :
    Valid info (unpackWord info.opcode w) ↔ ¬ StrayWord w := by
  have hshape : wordShape w = some info.shape := by rw [wordShape, h]; rfl
  have hpred : (unpackWord info.opcode w).guard.pred = 0 ↔ wordField w 51 0x7 = 0 :=
    setWidth_wordField_eq_zero w (k := 3) (by decide)
  have hdst : (unpackWord info.opcode w).dst = 0 ↔ wordField w 45 0x3F = 0 :=
    setWidth_wordField_eq_zero w (k := 6) (by decide)
  have hsrc0 : (unpackWord info.opcode w).src0 = 0 ↔ wordField w 39 0x3F = 0 :=
    setWidth_wordField_eq_zero w (k := 6) (by decide)
  have hsrc1 : (unpackWord info.opcode w).src1 = 0 ↔ wordField w 33 0x3F = 0 :=
    setWidth_wordField_eq_zero w (k := 6) (by decide)
  have himm : (unpackWord info.opcode w).imm = 0 ↔ wordField w 0 0xFFFFFFFF = 0 := by
    rw [unpackWord_eq]
    exact setWidth_wordField_eq_zero w (k := 32) (by decide)
  have hdst' : (unpackWord info.opcode w).dst.toNat = (wordField w 45 0x3F).toNat :=
    toNat_setWidth_wordField w (k := 6) (by decide)
  have hsrc0' : (unpackWord info.opcode w).src0.toNat = (wordField w 39 0x3F).toNat :=
    toNat_setWidth_wordField w (k := 6) (by decide)
  have hpresent : (unpackWord info.opcode w).guard.present = false ↔ wordField w 55 0x1 = 0 :=
    bne_eq_false_iff_eq
  have hnegate : (unpackWord info.opcode w).guard.negate = false ↔ wordField w 54 0x1 = 0 :=
    bne_eq_false_iff_eq
  have hflag : (unpackWord info.opcode w).immFlag = false ↔ wordField w 32 0x1 = 0 :=
    bne_eq_false_iff_eq
  have hflag' : (unpackWord info.opcode w).immFlag = true ↔ wordField w 32 0x1 ≠ 0 :=
    bne_iff_ne
  have hreplaced : (if info.shape = .rr then (unpackWord info.opcode w).src0
        else (unpackWord info.opcode w).src1) = 0
      ↔ (if info.shape = .rr then wordField w 39 0x3F else wordField w 33 0x3F) = 0 := by
    split_ifs
    · exact hsrc0
    · exact hsrc1
  constructor
  · intro hv hs
    obtain ⟨h1, h2, h3, h4⟩ := validateImmediate_ok.1 hv.imm
    have hinj : ∀ s, wordShape w = some s → s = info.shape := fun s hs =>
      Option.some.inj (hs.symm.trans hshape)
    cases hs with
    | opcode h => simp [hshape] at h
    | guard h h' =>
      obtain ⟨hn, hp⟩ := hv.guard (hpresent.2 h)
      exact h'.elim (fun h => h (hnegate.1 hn)) fun h => h (hpred.1 hp)
    | dst s hs h h' => exact h' (hdst.1 (hv.dst (hinj s hs ▸ h)))
    | src0 s hs h h' => exact h' (hsrc0.1 (hv.src0 (hinj s hs ▸ h)))
    | src1 s hs h h' => exact h' (hsrc1.1 (hv.src1 (hinj s hs ▸ h)))
    | replaced s hs h hf h' =>
      obtain rfl := hinj s hs
      exact h' (hreplaced.1 (h3 h (hflag'.2 hf)))
    | noFlag s hs h hf => exact hflag'.1 (h1 (hinj s hs ▸ h)) hf
    | flag s hs h h' hf =>
      obtain rfl := hinj s hs
      exact hf (hflag.1 (h2 h h'))
    | immediate s hs h hf h' => exact h' (himm.1 (h4 (hinj s hs ▸ h) (hflag.2 hf)))
    | predicate hs h => exact Nat.not_lt.2 h (hdst' ▸ hv.prr (hinj _ hs).symm)
    | special hs h => exact Nat.not_lt.2 h (hsrc0' ▸ hv.sreg (hinj _ hs).symm)
  · intro hs
    refine ⟨fun hp => ?_, fieldsFit_unpackWord _ _, fun hu => ?_, fun hu => ?_, fun hu => ?_,
      validateImmediate_ok.2 ⟨fun hu => ?_, fun hu ho => ?_, fun ho hf => ?_, fun hr hf => ?_⟩,
      fun hp => ?_, fun hp => ?_⟩
    · rw [hnegate, hpred]
      by_contra hc
      exact hs (.guard (hpresent.1 hp) (not_and_or.1 hc))
    · exact by_contra fun hc => hs (.dst _ hshape hu (mt hdst.2 hc))
    · exact by_contra fun hc => hs (.src0 _ hshape hu (mt hsrc0.2 hc))
    · exact by_contra fun hc => hs (.src1 _ hshape hu (mt hsrc1.2 hc))
    · exact hflag'.2 fun hc => hs (.noFlag _ hshape hu hc)
    · exact hflag.2 (by_contra fun hc => hs (.flag _ hshape hu ho hc))
    · exact hreplaced.2 (by_contra fun hc => hs (.replaced _ hshape ho (hflag'.1 hf) hc))
    · exact himm.2 (by_contra fun hc => hs (.immediate _ hshape hr (hflag.1 hf) hc))
    · rw [hdst']
      exact Nat.lt_of_not_le fun hc => hs (.predicate (hp ▸ hshape) hc)
    · rw [hsrc0']
      exact Nat.lt_of_not_le fun hc => hs (.special (hp ▸ hshape) hc)

/-- `decode` rejects exactly the words with something stray in them. -/
theorem decode_ne_ok {w : BitVec 64} : (∀ i, decode w ≠ .ok i) ↔ StrayWord w := by
  rcases hinfo : opcodeInfoOfNumber ((wordField w 56 0xFF).setWidth 8) with _ | info
  · refine iff_of_true (fun i hi => ?_) (.opcode (by rw [wordShape, hinfo]; rfl))
    obtain ⟨info, h, -⟩ := decode_ok.1 hi
    rw [hinfo] at h
    cases h
  · have hnum : opcodeInfoOfNumber info.opcode.number = some info := by
      rw [opcodeInfoOfNumber_number hinfo, hinfo]
    have hval : validate (unpackWord info.opcode w) = .ok () ↔ ¬ StrayWord w := by
      rw [validate_ok, ← valid_unpackWord hinfo]
      exact ⟨fun ⟨info', h, hv⟩ => Option.some.inj (h.symm.trans hnum) ▸ hv,
        fun hv => ⟨info, hnum, hv⟩⟩
    constructor
    · intro hne
      exact by_contra fun hs => hne _ (decode_ok.2 ⟨info, hinfo, rfl, hval.2 hs⟩)
    · intro hs i hi
      obtain ⟨info', h, rfl, hv⟩ := decode_ok.1 hi
      obtain rfl := Option.some.inj (h.symm.trans hinfo)
      exact hval.1 hv hs

end Stray

/-- Valid instructions and decodable words correspond one to one, and the words left over are the
stray ones. -/
theorem codec_bijection :
    (∀ i : Instruction, ((∃ w, encode i = .ok w) ↔ validate i = .ok ())
      ∧ ∀ w, encode i = .ok w → decode w = .ok i)
    ∧ (∀ w : BitVec 64, ((∃ i, decode w = .ok i) ↔ ∃ i, encode i = .ok w)
      ∧ ∀ i, decode w = .ok i → encode i = .ok w)
    ∧ (∀ (i : Instruction) (w w' : BitVec 64), decode w = .ok i → decode w' = .ok i → w = w')
    ∧ ∀ w : BitVec 64, (∃ e, decode w = .error e) ↔ StrayWord w := by
  refine ⟨fun i => ⟨?_, fun w => decode_encode⟩, fun w => ⟨?_, fun i => encode_decode⟩, ?_, ?_⟩
  · simp [encode_ok]
  · exact exists_congr fun i => ⟨encode_decode, decode_encode⟩
  · intro i w w' h h'
    exact Except.ok.inj ((encode_decode h).symm.trans (encode_decode h'))
  · intro w
    rw [← decode_ne_ok]
    rcases decode w with e | i <;> simp

end WarpSim
