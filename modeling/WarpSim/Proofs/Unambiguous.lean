import WarpSim.Proofs.Lines

/-!
# Tokens spell one source

The grammar is unambiguous (`SpellsLines.unique`). Operands are told apart by their kind and the
place they stand in, and lines, operands and guards are cut at the first newline, comma and
mnemonic.
-/

namespace WarpSim

variable {C : FloatChars}

section Split

/-- Two ways to cut a list before a first element that satisfies a predicate are one. -/
theorem cut_unique {α : Type} {P : α → Prop} : ∀ {ts ts' us us' : List α},
    (∀ t ∈ ts, ¬P t) → (∀ t ∈ ts', ¬P t) → (∀ u ∈ us.head?, P u) → (∀ u ∈ us'.head?, P u) →
      ts ++ us = ts' ++ us' → ts = ts' ∧ us = us'
  | [], [], us, us', _, _, _, _, h => ⟨rfl, h⟩
  | [], t :: ts', us, us', _, hts', hus, _, h => by
    rw [List.nil_append] at h
    subst h
    exact absurd (hus t rfl) (hts' t (by simp))
  | t :: ts, [], us, us', hts, _, _, hus', h => by
    rw [List.nil_append] at h
    subst h
    exact absurd (hus' t rfl) (hts t (by simp))
  | t :: ts, t' :: ts', us, us', hts, hts', hus, hus', h => by
    simp only [List.cons_append, List.cons.injEq] at h
    obtain ⟨h1, h2⟩ := cut_unique (fun u hu => hts u (List.mem_cons_of_mem _ hu))
      (fun u hu => hts' u (List.mem_cons_of_mem _ hu)) hus hus' h.2
    exact ⟨by rw [h.1, h1], h2⟩

end Split

section Operands

variable {opcode : Opcode}

theorem SpellsMagnitude.unique {negative : Bool} {ts : List Token} {v w : Word}
    (h : SpellsMagnitude C opcode negative ts v) (h' : SpellsMagnitude C opcode negative ts w) :
    v = w := by
  cases h with
  | integer h hneg =>
    cases h' with
    | integer h' hneg' => rw [Option.some.inj (h.2.symm.trans h'.2)]
    | float h' => exact absurd (h.1.symm.trans h'.1) (by decide)
  | float h hop =>
    cases h' with
    | integer h' => exact absurd (h.1.symm.trans h'.1) (by decide)
    | float h' => rw [Option.some.inj (h.2.symm.trans h'.2)]

theorem SpellsImmediate.unique {ts : List Token} {v w : Word} (h : SpellsImmediate C opcode ts v)
    (h' : SpellsImmediate C opcode ts w) : v = w := by
  have hsign : ∀ {m : Token} {us : List Token} {v : Word}, m.kind = .minus →
      ¬SpellsMagnitude C opcode false (m :: us) v := by
    intro m us v hm h
    obtain ⟨t, ht, hk⟩ := h.head
    cases ht
    rw [hm] at hk
    rcases hk with hk | hk <;> cases hk
  cases h with
  | positive h =>
    cases h' with
    | positive h' => exact h.unique h'
    | negative hm => exact absurd h (hsign hm)
  | negative hm h =>
    cases h' with
    | positive h' => exact absurd h' (hsign hm)
    | negative _ h' => exact h.unique h'

theorem SpellsOffset.unique {ts : List Token} {v w : Word} (h : SpellsOffset ts v)
    (h' : SpellsOffset ts w) : v = w := by
  cases h with
  | none hr => cases h'; rfl
  | plus hs ht hr =>
    cases h' with
    | plus _ ht' => exact Option.some.inj (ht.2.symm.trans ht'.2)
    | minus hs' => exact absurd (hs.symm.trans hs') (by decide)
  | minus hs ht hr =>
    cases h' with
    | plus hs' => exact absurd (hs.symm.trans hs') (by decide)
    | minus _ ht' => rw [Option.some.inj (ht.2.symm.trans ht'.2)]

theorem SpellsOffset.no_comma {ts : List Token} {v : Word} (h : SpellsOffset ts v) :
    ∀ t ∈ ts, t.kind ≠ .comma := by
  cases h with
  | none hr => simp [hr]
  | plus hs ht hr => simp [hs, ht.1, hr]
  | minus hs ht hr => simp [hs, ht.1, hr]

theorem Operand.Spells.no_comma {ts : List Token} {o : Operand} (h : o.Spells C opcode ts) :
    ∀ t ∈ ts, t.kind ≠ .comma := by
  have hmagnitude : ∀ {negative : Bool} {ts : List Token} {v : Word},
      SpellsMagnitude C opcode negative ts v → ∀ t ∈ ts, t.kind ≠ .comma := by
    intro negative ts v h
    obtain ⟨t, rfl, hk⟩ := h.head
    rcases hk with hk | hk <;> simp [hk]
  cases h with
  | register h => simp [h.1]
  | predicate h => simp [h.1]
  | immediate h =>
    cases h with
    | positive h => exact hmagnitude h
    | negative hm h =>
      rintro t (_ | ⟨_, ht⟩)
      · simp [hm]
      · exact hmagnitude h t ht
  | special h => simp [h.1]
  | label h => simp [h]
  | address hl hb ho =>
    rintro t (_ | ⟨_, _ | ⟨_, ht⟩⟩)
    · simp [hl]
    · simp [hb.1]
    · exact ho.no_comma t ht
  | parameter hl ht hr => simp [hl, ht, hr]

/-- In one place, tokens spell one operand. -/
theorem Operand.Spells.unique {ts : List Token} {o o' : Operand} (h : o.Spells C opcode ts)
    (h' : o'.Spells C opcode ts) {sl : Slot} (hsl : sl.Takes o) (hsl' : sl.Takes o') : o = o' := by
  have himm : ∀ {t : Token} {us : List Token} {v : Word},
      SpellsImmediate C opcode (t :: us) v → t.kind ≠ .identifier := by
    intro t us v h
    obtain ⟨t', us', ht, hk⟩ := h.head
    cases ht
    exact hk
  cases h with
  | register h =>
    cases h' with
    | register h' => rw [Option.some.inj (h.2.symm.trans h'.2)]
    | immediate h' => exact absurd h.1 (himm h')
    | _ => cases sl <;> first | exact hsl.elim | exact hsl'.elim
  | predicate h =>
    cases h' with
    | predicate h' => rw [Option.some.inj (h.2.symm.trans h'.2)]
    | _ => cases sl <;> first | exact hsl.elim | exact hsl'.elim
  | immediate h =>
    cases h' with
    | register h' => exact absurd h'.1 (himm h)
    | immediate h' => rw [h.unique h']
    | _ => cases sl <;> first | exact hsl.elim | exact hsl'.elim
  | special h =>
    cases h' with
    | special h' => rw [Option.some.inj (h.2.symm.trans h'.2)]
    | _ => cases sl <;> first | exact hsl.elim | exact hsl'.elim
  | label h =>
    cases h' with
    | label => rfl
    | _ => cases sl <;> first | exact hsl.elim | exact hsl'.elim
  | address hl hb ho =>
    cases h' with
    | address _ hb' ho' => rw [Option.some.inj (hb.2.symm.trans hb'.2), ho.unique ho']
    | _ => cases sl <;> first | exact hsl.elim | exact hsl'.elim
  | parameter hl ht hr =>
    cases h' with
    | parameter => rfl
    | _ => cases sl <;> first | exact hsl.elim | exact hsl'.elim

/-- Tokens that stand behind an operand. -/
theorem SpellsRest.head {ts : List Token} {os : List Operand} (h : SpellsRest C opcode ts os) :
    ∀ t ∈ ts.head?, t.kind = .comma := by
  cases h <;> simp [*]

theorem SpellsRest.unique {ts : List Token} {os os' : List Operand} (h : SpellsRest C opcode ts os)
    (h' : SpellsRest C opcode ts os') {sls : List Slot} (hk : List.Forall₂ Slot.Takes sls os)
    (hk' : List.Forall₂ Slot.Takes sls os') : os = os' := by
  induction h generalizing os' sls with
  | nil =>
    cases hk
    cases hk'
    rfl
  | @cons c ts us o os hc h rest ih =>
    generalize hv : c :: ts ++ us = vs at h'
    cases h' with
    | nil => cases hv
    | @cons c' ts' us' o' os' hc' h' rest' =>
      simp only [List.cons_append, List.cons.injEq] at hv
      obtain ⟨rfl, rfl⟩ := cut_unique (P := fun t => t.kind = .comma) h.no_comma h'.no_comma
        rest.head rest'.head hv.2
      obtain _ | ⟨h1, h2⟩ := hk
      obtain _ | ⟨h1', h2'⟩ := hk'
      rw [h.unique h' h1 h1', ih rest' h2 h2']

theorem SpellsOperands.unique {ts : List Token} {os os' : List Operand}
    (h : SpellsOperands C opcode ts os) (h' : SpellsOperands C opcode ts os') {sls : List Slot}
    (hk : List.Forall₂ Slot.Takes sls os) (hk' : List.Forall₂ Slot.Takes sls os') : os = os' := by
  cases h with
  | nil =>
    cases hk
    cases hk'
    rfl
  | @cons ts us o os h rest =>
    obtain _ | ⟨h1, h2⟩ := hk
    generalize hv : ts ++ us = vs at h'
    cases h' with
    | nil => cases hk'
    | cons h' rest' =>
      obtain _ | ⟨h1', h2'⟩ := hk'
      obtain ⟨rfl, rfl⟩ := cut_unique (P := fun t => t.kind = .comma) h.no_comma h'.no_comma
        rest.head rest'.head hv
      rw [h.unique h' h1 h1', rest.unique rest' h2 h2']

end Operands

section Lines

theorem SpellsGuard.unique {ts : List Token} {g g' : Guard} (h : SpellsGuard ts g)
    (h' : SpellsGuard ts g') : g = g' := by
  cases h with
  | absent => cases h'; rfl
  | present h hp =>
    cases h' with
    | present _ hp' => rw [Option.some.inj (hp.symm.trans hp')]

/-- A statement is cut before its mnemonic in one way. -/
theorem SpellsGuard.cut {us us' vs vs' : List Token} {m m' : Token} {g g' : Guard}
    (h : SpellsGuard us g) (h' : SpellsGuard us' g') (hm : m.kind = .identifier)
    (hm' : m'.kind = .identifier) (hv : us ++ m :: vs = us' ++ m' :: vs') :
    us = us' ∧ m = m' ∧ vs = vs' := by
  have hguard : ∀ {ts : List Token} {g : Guard}, SpellsGuard ts g →
      ∀ t ∈ ts, ¬t.kind = .identifier := by
    intro ts g h t ht
    rw [h.kind t ht]
    decide
  obtain ⟨rfl, hcons⟩ := cut_unique (P := fun t => t.kind = .identifier) (hguard h)
    (hguard h') (by simpa using hm) (by simpa using hm') hv
  exact ⟨rfl, List.cons.inj hcons⟩

theorem Statement.Spells.unique {ts : List Token} {st st' : Statement} (h : st.Spells C ts)
    (h' : st'.Spells C ts) : st = st' := by
  cases h with
  | @mk gs us m _ hg hm hi ho hk =>
    generalize hv : gs ++ m :: us = vs at h'
    cases h' with
    | @mk gs' us' m' _ hg' hm' hi' ho' hk' =>
      obtain ⟨rfl, rfl, rfl⟩ := hg.cut hg' hm hm' hv
      have hinfo := Option.some.inj (hi.symm.trans hi')
      rw [← hinfo] at ho' hk'
      obtain ⟨guard, info, os⟩ := st
      obtain ⟨guard', info', os'⟩ := st'
      rw [Statement.mk.injEq]
      exact ⟨hg.unique hg', hinfo, ho.unique ho' hk hk'⟩

/-- Which directive a line is shows in its first token. -/
theorem Line.Spells.directive {d : Token} {us : List Token} {l : Line}
    (h : l.Spells C (d :: us)) (hd : d.kind = .directive) : ∃ t, us = [t]
      ∧ ((d.text = ".entry".toList ∧ l = .entry t.text)
        ∨ (d.text = ".param".toList ∧ l = .param t.text)
        ∨ (d.text = ".shared".toList ∧ ∃ bytes, t.IsInteger bytes ∧ l = .shared bytes)) := by
  generalize hv : d :: us = vs at h
  cases h with
  | entry _ hn => cases hv; exact ⟨_, rfl, .inl ⟨hn, rfl⟩⟩
  | param _ hn => cases hv; exact ⟨_, rfl, .inr (.inl ⟨hn, rfl⟩)⟩
  | shared _ hn ht => cases hv; exact ⟨_, rfl, .inr (.inr ⟨hn, _, ht, rfl⟩)⟩
  | blank => cases hv
  | label ht => cases hv; exact absurd (hd.symm.trans ht) (by decide)
  | statement h => exact absurd hd (h.inside d (by simp [← hv])).2.2.2
  | labelled ht => cases hv; exact absurd (hd.symm.trans ht) (by decide)

theorem Line.Spells.unique {ts : List Token} {l l' : Line} (h : l.Spells C ts)
    (h' : l'.Spells C ts) : l = l' := by
  have hdirective : ∀ {d t : Token}, d.kind = .directive → ts = [d, t] → l = l' := by
    rintro d t hd rfl
    obtain ⟨t, ht, h1⟩ := h.directive hd
    obtain ⟨t', ht', h2⟩ := h'.directive hd
    cases ht
    cases ht'
    rcases h1 with ⟨h1, rfl⟩ | ⟨h1, rfl⟩ | ⟨h1, b, hb, rfl⟩ <;>
      rcases h2 with ⟨h2, rfl⟩ | ⟨h2, rfl⟩ | ⟨h2, b', hb', rfl⟩
    · rfl
    · exact absurd (h1.symm.trans h2) (by decide)
    · exact absurd (h1.symm.trans h2) (by decide)
    · exact absurd (h1.symm.trans h2) (by decide)
    · rfl
    · exact absurd (h1.symm.trans h2) (by decide)
    · exact absurd (h1.symm.trans h2) (by decide)
    · exact absurd (h1.symm.trans h2) (by decide)
    · rw [Option.some.inj (hb.2.symm.trans hb'.2)]
  -- a colon is in a line's second token exactly if the line has a label
  have hlabel : ∀ {t c : Token} {us : List Token} {st : Statement}, c.kind = .colon →
      ¬st.Spells C (t :: c :: us) := fun hc hst => (hst.inside _ (by simp)).2.1 hc
  cases h with
  | entry hd => exact hdirective hd rfl
  | param hd => exact hdirective hd rfl
  | shared hd => exact hdirective hd rfl
  | blank => exact h'.blank_of_nil.symm
  | label ht hc =>
    cases h' with
    | label => rfl
    | statement h' => exact absurd h' (hlabel hc)
    | labelled _ _ h' => exact absurd rfl h'.ne_nil
    | _ => exact hdirective ‹_› rfl
  | statement h =>
    cases h' with
    | blank => exact absurd rfl h.ne_nil
    | label _ hc => exact absurd h (hlabel hc)
    | statement h' => rw [h.unique h']
    | labelled _ hc => exact absurd h (hlabel hc)
    | _ => exact hdirective ‹_› rfl
  | labelled ht hc h =>
    cases h' with
    | label => exact absurd rfl h.ne_nil
    | statement h' => exact absurd h' (hlabel hc)
    | labelled _ _ h' => rw [h.unique h']
    | _ => exact hdirective ‹_› rfl

theorem SpellsLines.unique {ts : List Token} {ls ls' : Source} (h : SpellsLines C ts ls)
    (h' : SpellsLines C ts ls') : ls = ls' := by
  induction h generalizing ls' with
  | nil he => exact (h'.end he rfl).symm
  | @cons ts us n l ls h hn rest ih =>
    generalize hv : ts ++ n :: us = vs at h'
    cases h' with
    | nil he =>
      have hcons := SpellsLines.cons h hn rest
      rw [hv] at hcons
      exact hcons.end he rfl
    | @cons ts' us' n' l' ls' h' hn' rest' =>
      obtain ⟨rfl, hcons⟩ := cut_unique (P := fun t => t.kind = .newline) h.no_newline
        h'.no_newline (by simpa using hn) (by simpa using hn') hv
      cases hcons
      rw [h.unique h', ih rest']

end Lines

end WarpSim
