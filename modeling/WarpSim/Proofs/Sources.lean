import WarpSim.Proofs.Assembly
import WarpSim.Proofs.Printing

/-!
# Printed sources

What a source means does not depend on the positions in it, so a text whose lines are those of an
accepted source assembles to the program of that source (`assemble_lines`).
-/

namespace WarpSim

section Plain

theorem fill_plain (params : List Text) (target : Text → Pc) (sl : Slot) (o : Operand)
    (i : Instruction) : sl.fill params target o.plain i = sl.fill params target o i := by
  cases sl <;> cases o <;> rfl

/-- Where a label stands in the text makes no difference to the instruction. -/
theorem fillSlots_plain (params : List Text) (target : Text → Pc) : ∀ (sls : List Slot)
    (os : List Operand) (i : Instruction),
    fillSlots params target sls (os.map Operand.plain) i = fillSlots params target sls os i
  | [], [], _ => rfl
  | [], _ :: _, _ => rfl
  | _ :: _, [], _ => rfl
  | sl :: sls, o :: os, i => by
    rw [List.map_cons, fillSlots, fillSlots, fill_plain]
    congr 1
    funext i
    exact fillSlots_plain params target sls os i

/-- A statement without its positions is the same instruction. -/
@[simp] theorem instruction_plain (params : List Text) (target : Text → Pc) (st : Statement) :
    st.plain.instruction params target = st.instruction params target :=
  fillSlots_plain params target _ _ _

@[simp] theorem names_plain (st : Statement) : st.plain.names = st.names := by
  have h : Operand.target? ∘ Operand.plain = Operand.target? := by
    funext o
    cases o <;> rfl
  rw [Statement.names, Statement.names, Statement.plain, List.filterMap_map, h]

namespace Source

theorem statements_plain (ls : Source) :
    statements (ls.map Line.plain) = ls.statements.map Statement.plain := by
  rw [statements, statements, List.filterMap_map, List.map_filterMap]
  congr 1
  funext l
  cases l <;> rfl

theorem params_plain (ls : Source) : params (ls.map Line.plain) = ls.params := by
  rw [params, params, List.filterMap_map]
  congr 1
  funext l
  cases l <;> rfl

/-- Lines without their positions define the same labels, before the same instructions. -/
theorem definitionsFrom_plain : ∀ (ls : Source) (n : Nat),
    definitionsFrom n (ls.map Line.plain) = definitionsFrom n ls
  | [], _ => rfl
  | l :: ls, n => by
    rw [List.map_cons, definitionsFrom, definitionsFrom, definitionsFrom_plain ls]
    congr 2
    · cases l <;> rfl
    · rw [show [l.plain] = [l].map Line.plain from rfl, statements_plain, List.length_map]

theorem definitions_plain (ls : Source) : definitions (ls.map Line.plain) = ls.definitions :=
  definitionsFrom_plain ls 0

theorem entry_plain (ls : Source) : entry (ls.map Line.plain) = ls.entry := by
  rw [entry, entry, List.foldl_map]
  congr 1
  funext name l
  cases l <;> rfl

theorem sharedBytes_plain (ls : Source) : sharedBytes (ls.map Line.plain) = ls.sharedBytes := by
  rw [sharedBytes, sharedBytes, List.foldl_map]
  congr 1
  funext bytes l
  cases l <;> rfl

/-- Whether a line may come next does not depend on positions. -/
theorem follows_plain (ls : Source) (l : Line) :
    l.plain.Follows (ls.map Line.plain) ↔ l.Follows ls := by
  cases l with
  | entry name =>
    constructor <;> intro h <;> cases h with | entry hname hfirst => ?_
    · exact .entry (by rwa [entry_plain] at hname) (by simpa [statements_plain] using hfirst)
    · exact .entry (by rwa [entry_plain]) (by simpa [statements_plain] using hfirst)
  | param name =>
    constructor <;> intro h <;> cases h with | param h => ?_
    · exact .param (by rwa [params_plain] at h)
    · exact .param (by rwa [params_plain])
  | shared bytes => exact ⟨fun _ => .shared bytes, fun _ => .shared bytes⟩
  | code label st =>
    constructor <;> intro h <;> cases h with | code hlabel hst => ?_
    · rw [definitions_plain] at hlabel
      rw [params_plain] at hst
      refine .code hlabel fun s hs => ?_
      have := hst s.plain (by rw [hs]; rfl)
      rwa [instruction_plain] at this
    · refine .code (by rwa [definitions_plain]) fun s hs => ?_
      obtain ⟨s', hs', rfl⟩ := Option.map_eq_some_iff.1 hs
      rw [params_plain, instruction_plain]
      exact hst s' hs'

theorem wellFormed_plain (ls : Source) : WellFormed (ls.map Line.plain) ↔ ls.WellFormed := by
  induction ls using List.reverseRecOn with
  | nil => rfl
  | append_singleton ls l ih =>
    rw [List.map_append, List.map_singleton, wellFormed_snoc, wellFormed_snoc, ih, follows_plain]

/-- Nor does it depend on them which sources are accepted. -/
theorem accepted_plain (ls : Source) : Accepted (ls.map Line.plain) ↔ ls.Accepted := by
  have hlen : (statements (ls.map Line.plain)).length = ls.statements.length := by
    rw [statements_plain, List.length_map]
  have hresolved : (∀ st ∈ statements (ls.map Line.plain), ∀ name ∈ st.names, ∃ n,
      (definitions (ls.map Line.plain)).lookup name = some n
        ∧ n < (statements (ls.map Line.plain)).length)
      ↔ ∀ st ∈ ls.statements, ∀ name ∈ st.names, ∃ n,
        ls.definitions.lookup name = some n ∧ n < ls.statements.length := by
    rw [hlen, definitions_plain, statements_plain]
    simp
  constructor <;> rintro ⟨hfollows, hnamed, hsmall, hres⟩
  · exact ⟨(wellFormed_plain ls).1 hfollows, entry_plain ls ▸ hnamed, hlen ▸ hsmall,
      hresolved.1 hres⟩
  · exact ⟨(wellFormed_plain ls).2 hfollows, (entry_plain ls).symm ▸ hnamed, hlen.symm ▸ hsmall,
      hresolved.2 hres⟩

theorem instructions_plain (ls : Source) (is : List Instruction) :
    Instructions (ls.map Line.plain) is ↔ ls.Instructions is := by
  have htarget : target (ls.map Line.plain) = ls.target := by
    funext name
    rw [target, target, definitions_plain]
  rw [Instructions, Instructions, statements_plain, params_plain, htarget,
    List.forall₂_map_left_iff]
  simp only [instruction_plain]

/-- A source and the one without positions describe the same program. -/
theorem assembles_plain (ls : Source) (p : Program) :
    Assembles (ls.map Line.plain) p ↔ ls.Assembles p := by
  have hlabels : labelAt (ls.map Line.plain) = ls.labelAt := by
    funext pc
    rw [labelAt, labelAt, definitions_plain]
  constructor <;> rintro ⟨h1, h2, h3, h4, is, h5, h6⟩
  · exact ⟨entry_plain ls ▸ h1, params_plain ls ▸ h2, sharedBytes_plain ls ▸ h3, hlabels ▸ h4, is,
      (instructions_plain ls is).1 h5, h6⟩
  · exact ⟨(entry_plain ls).symm ▸ h1, (params_plain ls).symm ▸ h2,
      (sharedBytes_plain ls).symm ▸ h3, hlabels.symm ▸ h4, is, (instructions_plain ls is).2 h5, h6⟩

end Source

end Plain

/-- A text whose lines are those of an accepted source assembles to its program. -/
theorem assemble_lines {C : FloatChars} {lines : List (Text × Line)}
    (h : ∀ x ∈ lines, Prints C x.1 x.2) (hne : lines ≠ []) {p : Program}
    (haccept : Source.Accepted (lines.map Prod.snd))
    (hp : Source.Assembles (lines.map Prod.snd) p) :
    assemble C (lines.flatMap fun x => x.1 ++ ['\n']) = .ok p := by
  obtain ⟨ts, ls, hlex, hspells, hplain⟩ := lex_lines h hne
  have hsame : ls.map Line.plain = (lines.map Prod.snd).map Line.plain := by
    rw [hplain, List.map_map]
    rfl
  rw [← Source.accepted_plain, ← hsame, Source.accepted_plain] at haccept
  rw [← Source.assembles_plain, ← hsame, Source.assembles_plain] at hp
  exact ((assemble_spec C _).1 p).2 ⟨ts, ls, hlex, hspells, haccept, hp⟩

end WarpSim
