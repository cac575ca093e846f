import WarpSim.Proofs.Listing
import WarpSim.Proofs.Symbols

/-!
# Names in a listing

The names in a listing are those of the program and those made up for PCs without one. They are
unambiguous exactly if the two do not meet (`disassemble_names`).
-/

namespace WarpSim

open Disassembler

section Specification

/-- The labels of a program are distinct identifiers, and their PCs are inside. -/
structure Labelled (p : Program) : Prop where
  identifier : ∀ pc name, p.labels pc = some name → IsIdentifier name
  distinct : ∀ pc pc' name, p.labels pc = some name → p.labels pc' = some name → pc = pc'
  inside : ∀ pc name, p.labels pc = some name → pc.toNat < p.words.length

/-- Some branch records a PC as its reconvergence point. -/
def Reconverges (is : List Instruction) (pc : Pc) : Prop :=
  ∃ i ∈ is, i.opcode = .bra ∧ i.reconvergencePc = pc ∧ pc ≠ noReconvergence

/-- No name of some lines stands for two PCs. -/
structure Unambiguous (p : Program) (is : List Instruction) (ls : Source) : Prop where
  /-- No two label lines carry the same name. -/
  labels : (ls.filterMap Line.label?).Nodup
  /-- A branch operand that labels an instruction labels the branch's target. -/
  targets : ∀ (k : Nat) i st name n, is[k]? = some i → i.opcode = .bra →
    ls.statements[k]? = some st → name ∈ st.names → (name, n) ∈ ls.definitions →
      n = i.branchTarget.toNat
  /-- The name in a comment, if it labels an instruction, labels the reconvergence point. -/
  comments : ∀ i ∈ is, i.opcode = .bra → i.reconvergencePc ≠ noReconvergence → ∀ n,
    (labelFor i.reconvergencePc (withTargets p.labels is), n) ∈ ls.definitions →
      n = i.reconvergencePc.toNat

/-- The labels of a program keep clear of the names that are made up for other PCs, and no PC that
has a name is that of two words. -/
structure NamesApart (p : Program) (is : List Instruction) : Prop where
  once : ∀ pc, p.labels pc ≠ none ∨ Targeted is pc → is.length ≤ pc.toNat + 2 ^ 16
  fresh : ∀ pc, p.labels pc = none → Targeted is pc ∨ Reconverges is pc →
    ∀ pc', p.labels pc' ≠ some ('L' :: decimalText pc.toNat)

end Specification

section Maps

variable {labels : Pc → Option Text} {is : List Instruction} {pc pc' : Pc} {name : Text}

/-- A name is a label of the program, or made up for a target without one. -/
theorem withTargets_eq_some : withTargets labels is pc = some name ↔ labels pc = some name
    ∨ labels pc = none ∧ Targeted is pc ∧ 'L' :: decimalText pc.toNat = name := by
  unfold withTargets labelFor
  by_cases ht : Targeted is pc <;> rcases labels pc with _ | name' <;> simp [ht]

theorem withTargets_eq_none :
    withTargets labels is pc = none ↔ labels pc = none ∧ ¬Targeted is pc := by
  unfold withTargets
  by_cases ht : Targeted is pc <;> simp [ht]

theorem synthesized_injective {pc pc' : Pc}
    (h : 'L' :: decimalText pc.toNat = 'L' :: decimalText pc'.toNat) : pc = pc' :=
  BitVec.eq_of_toNat_eq (decimalText_injective (List.cons.inj h).2)

theorem nodup_namesFrom (labels : Pc → Option Text) (n count : Nat) :
    (namesFrom labels n count).Nodup := by
  refine List.Nodup.filterMap (fun a a' b ha ha' => ?_) List.nodup_range'
  obtain ⟨_, -, rfl⟩ := Option.map_eq_some_iff.1 ha
  obtain ⟨_, -, hb⟩ := Option.map_eq_some_iff.1 ha'
  exact (Prod.mk.inj hb).2.symm

/-- A name that is not made up at another place is in one place. -/
theorem nodup_fst_namesFrom {n count : Nat} : ((namesFrom labels n count).map Prod.fst).Nodup
    ↔ ∀ name k k', (name, k) ∈ namesFrom labels n count → (name, k') ∈ namesFrom labels n count →
      k = k' := by
  rw [List.nodup_map_iff_inj_on (nodup_namesFrom labels n count)]
  constructor
  · intro h name k k' hk hk'
    exact (Prod.mk.inj (h _ hk _ hk' rfl)).2
  · rintro h ⟨name, k⟩ hk ⟨name', k'⟩ hk' rfl
    rw [h _ _ _ hk hk']

end Maps

section Main

variable {C : FloatChars} {p : Program} {is : List Instruction}

theorem mem_definitions_listing {name : Text} {k : Nat} :
    (name, k) ∈ Source.definitions ((listing C p is).map Prod.snd)
      ↔ k < is.length ∧ withTargets p.labels is (BitVec.ofNat 16 k) = some name := by
  rw [definitions_listing, mem_namesFrom]
  simp

theorem labels_listing : (((listing C p is).map Prod.snd).filterMap Line.label?).Nodup
    ↔ ∀ name k k', (name, k) ∈ Source.definitions ((listing C p is).map Prod.snd) →
      (name, k') ∈ Source.definitions ((listing C p is).map Prod.snd) → k = k' := by
  rw [← Source.definitionsFrom_fst _ 0, ← Source.definitions, definitions_listing]
  exact nodup_fst_namesFrom

/-- The names of a branch statement. -/
theorem names_statement {i : Instruction} (h : Known i) (hop : i.opcode = .bra)
    (labels : Pc → Option Text) (params : List Text) :
    (i.statement labels params).names = [labelFor i.branchTarget labels] := by
  unfold Statement.names Instruction.statement
  simp only [h.shape_bra.2 hop, Shape.slots, List.map_cons, List.map_nil, Slot.operand]
  rfl

/-- Only a branch names a label. -/
theorem mem_names_statement {i : Instruction} (h : Known i) {labels : Pc → Option Text}
    {params : List Text} {name : Text} (hname : name ∈ (i.statement labels params).names) :
    i.opcode = .bra ∧ name = labelFor i.branchTarget labels := by
  obtain ⟨o, ho, honame⟩ := List.mem_filterMap.1 hname
  obtain ⟨sl, hsl, rfl⟩ := List.mem_map.1 ho
  cases sl with
  | target => exact ⟨h.opcode_of_target hsl, (Option.some.inj honame).symm⟩
  | src0OrImm | src1OrImm =>
    unfold Slot.operand at honame
    split_ifs at honame <;> cases honame
  | _ => cases honame

/-- No two PCs have the same name. -/
theorem NamesApart.injective (h : NamesApart p is) (hl : Labelled p) {pc pc' : Pc} {name : Text}
    (hpc : withTargets p.labels is pc = some name)
    (hpc' : withTargets p.labels is pc' = some name) : pc = pc' := by
  rcases withTargets_eq_some.1 hpc with hlabel | ⟨hnone, ht, hname⟩ <;>
    rcases withTargets_eq_some.1 hpc' with hlabel' | ⟨hnone', ht', hname'⟩
  · exact hl.distinct _ _ _ hlabel hlabel'
  · exact absurd (hname' ▸ hlabel) (h.fresh _ hnone' (.inl ht') _)
  · exact absurd (hname ▸ hlabel') (h.fresh _ hnone (.inl ht) _)
  · exact synthesized_injective (hname.trans hname'.symm)

/-- The name that is printed for a PC is the name of no other. -/
theorem NamesApart.eq_of_labelFor (h : NamesApart p is) (hl : Labelled p) {pc pc' : Pc}
    (hpc : withTargets p.labels is pc = some (labelFor pc' (withTargets p.labels is)))
    (hused : Targeted is pc' ∨ Reconverges is pc') : pc = pc' := by
  rcases hpc' : withTargets p.labels is pc' with _ | name <;> rw [labelFor, hpc'] at hpc <;>
    simp only [] at hpc
  · obtain ⟨hnone, -⟩ := withTargets_eq_none.1 hpc'
    rcases withTargets_eq_some.1 hpc with hlabel | ⟨-, -, hname⟩
    · exact absurd hlabel (h.fresh _ hnone hused _)
    · exact synthesized_injective hname
  · exact h.injective hl hpc hpc'

/-- A PC with a name stands for one word. -/
theorem NamesApart.toNat_eq (h : NamesApart p is) {k : Nat} {pc : Pc} {name : Text}
    (hk : k < is.length) (hpc : BitVec.ofNat 16 k = pc)
    (hname : withTargets p.labels is pc = some name) :
    k = pc.toNat := by
  have hmod : pc.toNat = k % 2 ^ 16 := by rw [← hpc, BitVec.toNat_ofNat]
  have honce : is.length ≤ pc.toNat + 2 ^ 16 := by
    refine h.once pc ?_
    rcases withTargets_eq_some.1 hname with hlabel | ⟨-, ht, -⟩
    · exact .inl (by rw [hlabel]; exact Option.some_ne_none _)
    · exact .inr ht
  omega

theorem unambiguous_of_namesApart (hlist : Listable p is) (hl : Labelled p) (h : NamesApart p is) :
    Unambiguous p is ((listing C p is).map Prod.snd) where
  labels := labels_listing.2 fun name k k' hk hk' => by
    obtain ⟨hk, hname⟩ := mem_definitions_listing.1 hk
    obtain ⟨hk', hname'⟩ := mem_definitions_listing.1 hk'
    rw [h.toNat_eq hk rfl hname, h.toNat_eq hk' rfl hname', h.injective hl hname hname']
  targets := fun k i st name n hi hop hst hname hn => by
    have hmem := List.mem_of_getElem? hi
    rw [statements_listing, List.getElem?_map, hi] at hst
    cases hst
    rw [names_statement (hlist.known i hmem) hop, List.mem_singleton] at hname
    obtain ⟨hlt, hdef⟩ := mem_definitions_listing.1 hn
    rw [hname] at hdef
    have heq := h.eq_of_labelFor hl hdef (.inl ⟨i, hmem, hop, rfl⟩)
    exact h.toNat_eq hlt heq (heq ▸ hdef)
  comments := fun i hmem hop hne n hn => by
    obtain ⟨hlt, hdef⟩ := mem_definitions_listing.1 hn
    have heq := h.eq_of_labelFor hl hdef (.inr ⟨i, hmem, hop, rfl, hne⟩)
    exact h.toNat_eq hlt heq (heq ▸ hdef)

theorem namesApart_of_unambiguous (hlist : Listable p is) (hl : Labelled p)
    (h : Unambiguous p is ((listing C p is).map Prod.snd)) : NamesApart p is where
  once := fun pc hpc => by
    by_contra hlt
    obtain ⟨name, hname⟩ : ∃ name, withTargets p.labels is pc = some name := by
      refine Option.ne_none_iff_exists'.1 fun hnone => ?_
      obtain ⟨hnone, hno⟩ := withTargets_eq_none.1 hnone
      exact hpc.elim (fun hne => hne hnone) hno
    have hagain : BitVec.ofNat 16 (pc.toNat + 2 ^ 16) = pc := by
      apply BitVec.eq_of_toNat_eq
      rw [BitVec.toNat_ofNat]
      omega
    have := labels_listing.1 h.labels name pc.toNat (pc.toNat + 2 ^ 16)
      (mem_definitions_listing.2 ⟨by omega, by rwa [BitVec.ofNat_toNat, BitVec.setWidth_eq]⟩)
      (mem_definitions_listing.2 ⟨by omega, by rwa [hagain]⟩)
    omega
  fresh := fun pc hnone hused pc' hpc' => by
    have hlabel : (_, pc'.toNat) ∈ Source.definitions ((listing C p is).map Prod.snd) :=
      mem_definitions_listing.2 ⟨hlist.length ▸ hl.inside _ _ hpc', by
        rw [BitVec.ofNat_toNat, BitVec.setWidth_eq]
        exact withTargets_eq_some.2 (.inl hpc')⟩
    have hne : pc'.toNat ≠ pc.toNat := fun heq => by
      rw [BitVec.eq_of_toNat_eq heq, hnone] at hpc'
      cases hpc'
    by_cases ht : Targeted is pc
    · have hmade : (_, pc.toNat) ∈ Source.definitions ((listing C p is).map Prod.snd) :=
        mem_definitions_listing.2 ⟨by
          obtain ⟨i, hi, hop, rfl⟩ := ht
          exact hlist.targets i hi hop, by
          rw [BitVec.ofNat_toNat, BitVec.setWidth_eq]
          exact withTargets_eq_some.2 (.inr ⟨hnone, ht, rfl⟩)⟩
      exact hne (labels_listing.1 h.labels _ _ _ hlabel hmade)
    · obtain ⟨i, hi, hop, rfl, hrec⟩ := hused.resolve_left ht
      refine hne (h.comments i hi hop hrec _ ?_)
      rwa [labelFor, withTargets_eq_none.2 ⟨hnone, ht⟩]

theorem labels_plain (ls : Source) :
    (ls.map Line.plain).filterMap Line.label? = ls.filterMap Line.label? := by
  rw [List.filterMap_map]
  congr 1
  funext l
  cases l <;> rfl

/-- What names stand for does not depend on positions. -/
theorem unambiguous_plain (ls : Source) :
    Unambiguous p is (ls.map Line.plain) ↔ Unambiguous p is ls := by
  constructor <;> rintro ⟨hlabels, htargets, hcomments⟩
  · rw [labels_plain] at hlabels
    rw [Source.definitions_plain] at htargets hcomments
    refine ⟨hlabels, fun k i st name n hi hop hst hname hn => ?_, hcomments⟩
    refine htargets k i st.plain name n hi hop ?_ (by rwa [names_plain]) hn
    rw [Source.statements_plain, List.getElem?_map, hst]
    rfl
  · refine ⟨by rwa [labels_plain], fun k i st name n hi hop hst hname hn => ?_, ?_⟩
    · rw [Source.statements_plain, List.getElem?_map] at hst
      obtain ⟨st', hst', rfl⟩ := Option.map_eq_some_iff.1 hst
      rw [names_plain] at hname
      rw [Source.definitions_plain] at hn
      exact htargets k i st' name n hi hop hst' hname hn
    · rwa [Source.definitions_plain]

/-- The text of a listing is read as lines whose names are those of the listing. -/
theorem reads_listing (hC : C.Lawful) (hlist : Listable p is) (h : Spelled p) :
    ∃ (ts : List Token) (ls : Source), lex (linesText (listing C p is)) = .ok ts
      ∧ SpellsLines C ts ls
      ∧ (Unambiguous p is ls ↔ Unambiguous p is ((listing C p is).map Prod.snd)) := by
  obtain ⟨ts, ls, hlex, hspells, hplain⟩ := lex_lines (prints_listing hC hlist h)
    (listing_ne_nil C p is)
  have hsame : ls.map Line.plain = ((listing C p is).map Prod.snd).map Line.plain := by
    rw [hplain, List.map_map]
    rfl
  refine ⟨ts, ls, hlex, hspells, ?_⟩
  rw [← unambiguous_plain ls, hsame, unambiguous_plain]

end Main

section Collision

/-- A branch to the first instruction, and an exit. -/
def spinInstructions : List Instruction :=
  [{ opcode := .bra, imm := Instruction.makeBranchImm 0 noReconvergence }, { opcode := .exit }]

/-- The program of these instructions, with a name for the second. -/
def spinProgram (name : Text) : Program where
  entry := "k".toList
  words := spinInstructions.map packWord
  labels := fun pc => if pc = 1 then some name else none

theorem listable_spin (name : Text) : Listable (spinProgram name) spinInstructions where
  words := .cons (by decide) (.cons (by decide) .nil)
  targets := by decide
  ordinals := (by decide : ∀ i ∈ spinInstructions, i.opcode = .ldParam → i.imm.toNat < 0)

theorem labelled_spin {name : Text} (h : IsIdentifier name) : Labelled (spinProgram name) := by
  have hone : ∀ {pc : Pc} {name' : Text}, (spinProgram name).labels pc = some name' →
      pc = 1 ∧ name = name' := by
    intro pc name' hpc
    obtain ⟨hone, hname⟩ := Option.ite_none_right_eq_some.1 hpc
    exact ⟨hone, Option.some.inj hname⟩
  refine ⟨fun pc name' hpc => (hone hpc).2 ▸ h, fun pc pc' name' hpc hpc' => ?_,
    fun pc name' hpc => ?_⟩
  · rw [(hone hpc).1, (hone hpc').1]
  · rw [(hone hpc).1]
    exact (by decide : 1 < spinInstructions.length)

end Collision

end WarpSim
