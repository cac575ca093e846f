import WarpSim.Kernels
import WarpSim.Proofs.Assembly
import WarpSim.Proofs.Nesting
import WarpSim.Proofs.Launches

/-!
# The assembled kernels

The kernels assemble, whatever the host makes of float literals other than those they contain, and
these are the instructions their words decode to.
-/

namespace WarpSim

section Floats

variable {C C' : FloatChars}

/-- The host reads every float literal among the tokens alike. -/
def SameFloats (C C' : FloatChars) (ts : List Token) : Prop :=
  ∀ t ∈ ts, t.kind = .float → C'.fromChars t.text = C.fromChars t.text

theorem SameFloats.left {ts us : List Token} (h : SameFloats C C' (ts ++ us)) :
    SameFloats C C' ts := fun t ht => h t (List.mem_append_left us ht)

theorem SameFloats.right {ts us : List Token} (h : SameFloats C C' (ts ++ us)) :
    SameFloats C C' us := fun t ht => h t (List.mem_append_right ts ht)

theorem SameFloats.tail {t : Token} {ts : List Token} (h : SameFloats C C' (t :: ts)) :
    SameFloats C C' ts := fun u hu => h u (List.mem_cons_of_mem t hu)

theorem SpellsMagnitude.sameFloats {opcode : Opcode} {negative : Bool} {ts : List Token} {v : Word}
    (h : SpellsMagnitude C opcode negative ts v) (hC : SameFloats C C' ts) :
    SpellsMagnitude C' opcode negative ts v := by
  cases h with
  | integer h hneg => exact .integer h hneg
  | float h hop =>
    exact .float ⟨h.1, (hC _ List.mem_cons_self h.1).trans h.2⟩ hop

theorem SpellsImmediate.sameFloats {opcode : Opcode} {ts : List Token} {v : Word}
    (h : SpellsImmediate C opcode ts v) (hC : SameFloats C C' ts) :
    SpellsImmediate C' opcode ts v := by
  cases h with
  | positive h => exact .positive (h.sameFloats hC)
  | negative hm h => exact .negative hm (h.sameFloats hC.tail)

theorem Operand.Spells.sameFloats {opcode : Opcode} {ts : List Token} {o : Operand}
    (h : o.Spells C opcode ts) (hC : SameFloats C C' ts) : o.Spells C' opcode ts := by
  cases h with
  | register h => exact .register h
  | predicate h => exact .predicate h
  | immediate h => exact .immediate (h.sameFloats hC)
  | special h => exact .special h
  | label h => exact .label h
  | address hl hb ho => exact .address hl hb ho
  | parameter hl ht hr => exact .parameter hl ht hr

theorem SpellsRest.sameFloats {opcode : Opcode} {ts : List Token} {os : List Operand}
    (h : SpellsRest C opcode ts os) (hC : SameFloats C C' ts) : SpellsRest C' opcode ts os := by
  induction h with
  | nil => exact .nil
  | cons hc h _ ih => exact .cons hc (h.sameFloats hC.left.tail) (ih hC.right)

theorem SpellsOperands.sameFloats {opcode : Opcode} {ts : List Token} {os : List Operand}
    (h : SpellsOperands C opcode ts os) (hC : SameFloats C C' ts) :
    SpellsOperands C' opcode ts os := by
  cases h with
  | nil => exact .nil
  | cons h rest => exact .cons (h.sameFloats hC.left) (rest.sameFloats hC.right)

theorem Statement.Spells.sameFloats {ts : List Token} {st : Statement} (h : st.Spells C ts)
    (hC : SameFloats C C' ts) : st.Spells C' ts := by
  cases h with
  | mk hg hm hi ho hk => exact .mk hg hm hi (ho.sameFloats hC.right.tail) hk

theorem Line.Spells.sameFloats {ts : List Token} {l : Line} (h : l.Spells C ts)
    (hC : SameFloats C C' ts) : l.Spells C' ts := by
  cases h with
  | entry hd hn ht => exact .entry hd hn ht
  | param hd hn ht => exact .param hd hn ht
  | shared hd hn ht => exact .shared hd hn ht
  | blank => exact .blank
  | label ht hc => exact .label ht hc
  | statement h => exact .statement (h.sameFloats hC)
  | labelled ht hc h => exact .labelled ht hc (h.sameFloats hC.tail.tail)

theorem SpellsLines.sameFloats {ts : List Token} {ls : List Line} (h : SpellsLines C ts ls)
    (hC : SameFloats C C' ts) : SpellsLines C' ts ls := by
  induction h with
  | nil he => exact .nil he
  | cons h hn _ ih => exact .cons (h.sameFloats hC.left) hn (ih hC.right.tail)

/-- What a source assembles to depends on the host only through its float literals. -/
theorem assemble_sameFloats {source : Text} {ts : List Token} (hlex : lex source = .ok ts)
    (hC : SameFloats C C' ts) {p : Program} (h : assemble C source = .ok p) :
    assemble C' source = .ok p := by
  obtain ⟨ts', ls, hlex', hspells, hrest⟩ := ((assemble_spec C source).1 p).1 h
  rw [hlex, Except.ok.injEq] at hlex'
  subst hlex'
  exact ((assemble_spec C' source).1 p).2 ⟨ts, ls, hlex, hspells.sameFloats hC, hrest⟩

end Floats

section Annotated

theorem forall₂_of_mapM {α β : Type} {f : α → Except Stop β} : ∀ {as : List α} {bs : List β},
    as.mapM f = .ok bs → List.Forall₂ (fun b a => f a = .ok b) bs as
  | [], bs, h => by
    cases h
    exact .nil
  | a :: as, bs, h => by
    rw [List.mapM_cons] at h
    obtain ⟨b, hb, h⟩ := Check.bind_eq_ok.1 h
    obtain ⟨bs', hbs, h⟩ := Check.bind_eq_ok.1 h
    cases h
    exact .cons hb (forall₂_of_mapM hbs)

/-- The words of an assembled program decode to an annotated one. -/
theorem annotated_of_assemble {C : FloatChars} {source : Text} {p : Program}
    (h : assemble C source = .ok p) {decoded : List Instruction}
    (hdecode : decodeWords 0 p.words = .ok decoded) :
    annotateReconvergence decoded = (.ok (), decoded) := by
  rw [assemble] at h
  obtain ⟨ts, -, h⟩ := Check.bind_eq_ok.1 h
  obtain ⟨⟨u, s⟩, -, h⟩ := Check.bind_eq_ok.1 h
  simp only [Parser.finish] at h
  split_ifs at h
  obtain ⟨words, -, h⟩ := Check.bind_eq_ok.1 h
  obtain ⟨annotated, hannotate, h⟩ := Check.bind_eq_ok.1 h
  cases h
  rw [Parser.annotate] at hannotate
  obtain ⟨is, -, hannotate⟩ := Check.bind_eq_ok.1 hannotate
  split at hannotate
  · cases hannotate
  · rename_i is' hok
    have hwords : decodeWords 0 annotated = .ok is' :=
      decodeWords_ok.2 ((forall₂_of_mapM hannotate).imp fun w i hi => decode_encode (by
        rcases he : encode i with e | w'
        · rw [he] at hi
          cases hi
        · rw [he] at hi
          cases hi
          rfl))
    simp only [hwords, Except.ok.injEq] at hdecode
    subst hdecode
    have hidem := annotateReconvergence_idem is
    rwa [hok] at hidem

end Annotated

section Decoded

/-- A host that knows the literal `0.0` only. -/
def zeroChars : FloatChars where
  toChars := fun _ => ['0', '.', '0']
  fromChars := fun text => if text = ['0', '.', '0'] then some 0 else none

/-- The float literals of a source, the instructions that it assembles to, and its shared bytes. -/
def assembly (source : Text) : Option (List Text × List Instruction × Word) :=
  match lex source, assemble zeroChars source with
  | .ok ts, .ok p =>
    match decodeWords 0 p.words with
    | .ok decoded =>
      some ((ts.filter fun t => t.kind == .float).map Token.text, decoded, p.sharedBytes)
    | .error _ => none
  | _, _ => none

/-- A program whose words decode to the given instructions. -/
structure Program.Decoded (p : Program) (decoded : List Instruction) (shared : Word) : Prop where
  words : decodeWords 0 p.words = .ok decoded
  shared : p.sharedBytes = shared

variable {source : Text} {floats : List Text} {decoded : List Instruction} {shared : Word}

theorem assembly_some (h : assembly source = some (floats, decoded, shared)) : ∃ ts p,
    lex source = .ok ts ∧ assemble zeroChars source = .ok p ∧ p.Decoded decoded shared
      ∧ (ts.filter fun t => t.kind == .float).map Token.text = floats := by
  rw [assembly] at h
  split at h
  · rename_i ts p hlex hassemble
    split at h
    · rename_i decoded' hdecode
      rw [Option.some.injEq, Prod.mk.injEq, Prod.mk.injEq] at h
      obtain ⟨hfloats, rfl, hshared⟩ := h
      exact ⟨ts, p, hlex, hassemble, ⟨hdecode, hshared⟩, hfloats⟩
    · cases h
  · cases h

/-- A source assembles alike for every host that reads its float literals as expected. -/
theorem assembles_of (h : assembly source = some (floats, decoded, shared)) {C : FloatChars}
    (hC : ∀ text ∈ floats, C.fromChars text = zeroChars.fromChars text) :
    ∃ p, assemble C source = .ok p ∧ p.Decoded decoded shared := by
  obtain ⟨ts, p, hlex, hassemble, hp, hfloats⟩ := assembly_some h
  refine ⟨p, assemble_sameFloats hlex (fun t ht hk => hC t.text ?_) hassemble, hp⟩
  rw [← hfloats]
  exact List.mem_map_of_mem (List.mem_filter.2 ⟨ht, beq_iff_eq.2 hk⟩)

theorem annotated_of_assembly (h : assembly source = some (floats, decoded, shared))
    (hlen : decoded.length ≤ 65535) (hesc : Escapes decoded) : Warp.Annotated decoded := by
  obtain ⟨-, p, -, hassemble, hp, -⟩ := assembly_some h
  exact ⟨hlen, annotated_of_assemble hassemble hp.words, hesc⟩

/-- A property of the text of a string literal, by the list of its characters. -/
theorem text_of {P : Text → Prop} {s : String} {l : List Char} (hs : s = String.ofList l)
    (h : P l) : P s.toList := by
  rw [hs, String.toList_ofList]
  exact h

end Decoded

end WarpSim
