import WarpSim.Proofs.Lexing

/-!
# Texts that lex to given tokens

`Lexes` says what the lexer makes of a piece of text wherever it stands, given what follows it, so
that longer texts are put together from pieces (`Lexes.append`).
-/

namespace WarpSim

namespace Lexer

/-- The way of a lexer through its source, with the tokens it delivers. -/
inductive Scan : Lexer → List Token → Lexer → Prop
  | refl (l : Lexer) : Scan l [] l
  | newline {l l' : Lexer} {cs : Text} {ts : List Token} (h : l.source = '\n' :: cs)
      (rest : Scan l.newLine ts l') : Scan l (l.make .newline ['\n'] :: ts) l'
  | blank {l l' : Lexer} {c : Char} {cs : Text} {ts : List Token} (h : l.source = c :: cs)
      (hn : c ≠ '\n') (hb : isBlank c = true) (rest : Scan l.advance ts l') : Scan l ts l'
  | comment {l l' : Lexer} {cs : Text} {ts : List Token} (h : l.source = '/' :: '/' :: cs)
      (rest : Scan (l.takeWhile (· != '\n')).2 ts l') : Scan l ts l'
  | token {l l₁ l' : Lexer} {c : Char} {cs : Text} {t : Token} {ts : List Token}
      (h : l.source = c :: cs) (hn : c ≠ '\n') (hb : isBlank c = false) (hc : c ≠ '/')
      (ht : l.nextToken c = .ok (t, l₁)) (rest : Scan l₁ ts l') : Scan l (t :: ts) l'

theorem Scan.trans {l l₁ l' : Lexer} {ts us : List Token} (h : Scan l ts l₁)
    (h' : Scan l₁ us l') : Scan l (ts ++ us) l' := by
  induction h with
  | refl => exact h'
  | newline h _ ih => exact .newline h (ih h')
  | blank h hn hb _ ih => exact .blank h hn hb (ih h')
  | comment h _ ih => exact .comment h (ih h')
  | token h hn hb hc ht _ ih => exact .token h hn hb hc ht (ih h')

/-- From where a way leads the lexer goes on, given fuel for every character, and puts the tokens of
the way before its own. -/
theorem Scan.tokens_eq {l l' : Lexer} {ts : List Token} (h : Scan l ts l') :
    ∀ fuel, l.source.length < fuel → ∃ fuel', l'.source.length < fuel'
      ∧ l.tokens fuel = (l'.tokens fuel').map fun r => (ts ++ r.1, r.2) := by
  induction h with
  | refl l =>
    refine fun fuel hfuel => ⟨fuel, hfuel, ?_⟩
    rcases l.tokens fuel with s | r <;> rfl
  | @newline l l' cs ts h rest ih =>
    rintro (_ | fuel) hfuel
    · cases hfuel
    · rw [h] at hfuel
      obtain ⟨fuel', hlt, heq⟩ := ih fuel (by simpa [newLine, h] using hfuel)
      refine ⟨fuel', hlt, ?_⟩
      rw [Lexer.tokens, h]
      simp only [↓reduceIte]
      rw [heq]
      rcases l'.tokens fuel' with s | r <;> rfl
  | @blank l l' c cs ts h hn hb rest ih =>
    rintro (_ | fuel) hfuel
    · cases hfuel
    · rw [Lexer.tokens, h]
      simp only [if_neg hn, if_pos hb]
      exact ih fuel (by have := length_advance_lt h; omega)
  | @comment l l' cs ts h rest ih =>
    rintro (_ | fuel) hfuel
    · cases hfuel
    · rw [Lexer.tokens, h]
      have hpeek : l.peek 1 = '/' := by simp [peek, h]
      have hlt : (l.takeWhile (· != '\n')).2.source.length < l.source.length :=
        length_takeWhile_lt h (by decide)
      simp only [if_neg (show ('/' : Char) ≠ '\n' by decide),
        if_neg (show ¬isBlank '/' = true by decide), hpeek, and_self, if_true]
      exact ih fuel (by omega)
  | @token l l₁ l' c cs t ts h hn hb hc ht rest ih =>
    rintro (_ | fuel) hfuel
    · cases hfuel
    · rw [Lexer.tokens, h]
      have hlt := advances_nextToken h
      rw [ht] at hlt
      have hcomment : ¬(c = '/' ∧ l.peek 1 = '/') := fun hc' => hc hc'.1
      obtain ⟨fuel', hlt', heq⟩ := ih fuel (by have := hlt.1; omega)
      refine ⟨fuel', hlt', ?_⟩
      simp only [if_neg hn, hb, Bool.false_eq_true, if_false, if_neg hcomment]
      rw [ht, Check.ok_bind]
      simp only []
      rw [heq]
      rcases l'.tokens fuel' with s | r <;> rfl

/-- A way to the end of the source is what the lexer does. -/
theorem Scan.tokens {l l' : Lexer} {ts : List Token} (h : Scan l ts l') (hend : l'.source = [])
    {fuel : Nat} (hfuel : l.source.length < fuel) : l.tokens fuel = .ok (ts, l') := by
  obtain ⟨fuel', hlt, heq⟩ := h.tokens_eq fuel hfuel
  obtain ⟨n, rfl⟩ := Nat.exists_eq_succ_of_ne_zero (Nat.ne_zero_of_lt hlt)
  rw [heq, Lexer.tokens, hend]
  simp [Except.map]

end Lexer

open Lexer

/-- A piece of text lexes to tokens with a property, where what follows it allows that. -/
def Lexes (F : Text → Prop) (text : Text) (R : List Token → Prop) : Prop :=
  ∀ (l : Lexer) (rest : Text), l.source = text ++ rest → F rest →
    ∃ ts l', Scan l ts l' ∧ l'.source = rest ∧ R ts

/-- What may follow anything that does not end by itself. -/
def Boundary (rest : Text) : Prop := ∀ c ∈ rest.head?, isIdentChar c = false

def Anything (_ : Text) : Prop := True

/-- The one token of a piece of text. -/
def Single (P : Token → Prop) (ts : List Token) : Prop := ∃ t, ts = [t] ∧ P t

section Pieces

variable {F G : Text → Prop} {a b : Text} {R S : List Token → Prop}

theorem Lexes.mono (h : Lexes F a R) (hf : ∀ rest, G rest → F rest)
    (hr : ∀ ts, R ts → S ts) : Lexes G a S := by
  intro l rest hl hrest
  obtain ⟨ts, l', hscan, hl', hts⟩ := h l rest hl (hf rest hrest)
  exact ⟨ts, l', hscan, hl', hr ts hts⟩

theorem Lexes.imp (h : Lexes F a R) (hr : ∀ ts, R ts → S ts) : Lexes F a S :=
  h.mono (fun _ h => h) hr

theorem Lexes.append (ha : Lexes F a R) (hb : Lexes G b S) (h : ∀ rest, G rest → F (b ++ rest)) :
    Lexes G (a ++ b) fun ts => ∃ us vs, ts = us ++ vs ∧ R us ∧ S vs := by
  intro l rest hl hrest
  rw [List.append_assoc] at hl
  obtain ⟨us, l₁, h1, hl₁, hus⟩ := ha l (b ++ rest) hl (h rest hrest)
  obtain ⟨vs, l', h2, hl', hvs⟩ := hb l₁ rest hl₁ hrest
  exact ⟨us ++ vs, l', h1.trans h2, hl', us, vs, rfl, hus, hvs⟩

theorem lexes_nil : Lexes F [] (· = []) := fun l _ hl _ => ⟨[], l, .refl l, hl, rfl⟩

theorem lexes_blank {c : Char} (hn : c ≠ '\n') (hb : isBlank c = true) :
    Lexes Anything [c] (· = []) := by
  intro l rest hl _
  exact ⟨[], l.advance, .blank hl hn hb (.refl _), by simp [advance, hl], rfl⟩

/-- A piece with blanks before it. -/
theorem Lexes.indent (h : Lexes F a R) : ∀ n : Nat, Lexes F (List.replicate n ' ' ++ a) R
  | 0 => h
  | n + 1 => by
    refine ((lexes_blank (by decide) (by decide)).append (h.indent n) fun _ _ => trivial).imp ?_
    rintro _ ⟨_, vs, rfl, rfl, hvs⟩
    exact hvs

theorem lexes_newline : Lexes Anything ['\n'] (Single fun t => t.kind = .newline) := by
  intro l rest hl _
  exact ⟨[_], l.newLine, .newline hl (.refl _), by simp [newLine, hl], _, rfl, rfl⟩

theorem lexes_comment (h : '\n' ∉ a) :
    Lexes (fun rest => rest.head? = some '\n') ('/' :: '/' :: a) (· = []) := by
  intro l rest hl hrest
  have hsource : l.source = ('/' :: '/' :: a) ++ rest := hl
  rcases rest with _ | ⟨c, rest⟩
  · cases hrest
  cases hrest
  refine ⟨[], _, .comment hl (.refl _), ?_, rfl⟩
  have hall : ∀ c ∈ '/' :: '/' :: a, (c != '\n') = true := by
    intro c hc
    rw [bne_iff_ne]
    rintro rfl
    rcases List.mem_cons.1 hc with hc | hc
    · revert hc; decide
    · rcases List.mem_cons.1 hc with hc | hc
      · revert hc; decide
      · exact h hc
  show l.source.dropWhile (· != '\n') = _
  rw [hsource, List.dropWhile_append_of_pos hall]
  rfl

/-- A token that the lexer makes of a piece. -/
theorem lexes_token {c : Char} {cs : Text} {P : Token → Prop} (hn : c ≠ '\n')
    (hb : isBlank c = false) (hc : c ≠ '/')
    (h : ∀ (l : Lexer) (rest : Text), l.source = c :: cs ++ rest → F rest →
      ∃ t l', l.nextToken c = .ok (t, l') ∧ l'.source = rest ∧ P t) :
    Lexes F (c :: cs) (Single P) := by
  intro l rest hl hrest
  obtain ⟨t, l', ht, hl', hp⟩ := h l rest hl hrest
  exact ⟨[t], l', .token hl hn hb hc ht (.refl _), hl', t, rfl, hp⟩

/-- Characters of one kind are taken up to the end of the piece. -/
theorem takeWhile_piece {pred : Char → Bool} {rest : Text} (ha : ∀ c ∈ a, pred c = true)
    (hrest : ∀ c ∈ rest.head?, pred c = false) {l : Lexer} (hl : l.source = a ++ rest) :
    (l.takeWhile pred).1 = a ∧ (l.takeWhile pred).2.source = rest := by
  have hnone : rest.takeWhile pred = [] ∧ rest.dropWhile pred = rest := by
    rcases rest with _ | ⟨c, rest⟩
    · exact ⟨rfl, rfl⟩
    · have := hrest c rfl
      simp [this]
  simp only [Lexer.takeWhile, hl]
  rw [List.takeWhile_append_of_pos ha, List.dropWhile_append_of_pos ha, hnone.1, hnone.2]
  simp

end Pieces

section Words

theorem isIdentChar_of_start {c : Char} (h : isIdentStart c = true) : isIdentChar c = true := by
  unfold isIdentChar
  rcases Bool.or_eq_true_iff.1 h with ha | ha <;> simp [Char.isAlphanum, ha]

theorem isIdentChar_of_digit {c : Char} (h : c.isDigit = true) : isIdentChar c = true := by
  simp [isIdentChar, Char.isAlphanum, h]

theorem isIdentChar_of_hexDigit {c : Char} (h : isHexDigit c = true) : isIdentChar c = true := by
  have : c.isAlphanum = true := by
    unfold isHexDigit Char.isDigit at h
    unfold Char.isAlphanum Char.isDigit Char.isAlpha Char.isUpper Char.isLower
    grind [Char.le_def]
  simp [isIdentChar, this]

theorem isIdentStart_of_digit {c : Char} (h : c.isDigit = true) : isIdentStart c = false := by
  have hc : c ≠ '_' := by
    rintro rfl
    revert h
    decide
  have ha : c.isAlpha = false := by
    unfold Char.isDigit at h
    unfold Char.isAlpha Char.isUpper Char.isLower
    grind
  simp [isIdentStart, ha, hc]

/-- A character of a class is none that the class does not hold. -/
theorem ne_of_class {pred : Char → Bool} {c : Char} (h : pred c = true) (d : Char)
    (hd : pred d = false) : c ≠ d := by
  rintro rfl
  rw [h] at hd
  cases hd

theorem nextToken_start {c : Char} (h : isIdentStart c = true) (l : Lexer) : l.nextToken c
    = .ok (l.make .identifier (l.takeWhile isIdentChar).1, (l.takeWhile isIdentChar).2) := by
  have hne := fun d hd => ne_of_class h d hd
  rw [nextToken, if_neg (hne ',' rfl), if_neg (hne '[' rfl), if_neg (hne ']' rfl),
    if_neg (hne '+' rfl), if_neg (hne '-' rfl), if_neg (hne ':' rfl), if_neg (hne '.' rfl),
    if_neg (hne '@' rfl), if_neg (hne '%' rfl), if_pos h]

theorem nextToken_digit {c : Char} (h : c.isDigit = true) (l : Lexer) :
    l.nextToken c = l.number := by
  have hne := fun d hd => ne_of_class h d hd
  rw [nextToken, if_neg (hne ',' rfl), if_neg (hne '[' rfl), if_neg (hne ']' rfl),
    if_neg (hne '+' rfl), if_neg (hne '-' rfl), if_neg (hne ':' rfl), if_neg (hne '.' rfl),
    if_neg (hne '@' rfl), if_neg (hne '%' rfl),
    if_neg (by rw [isIdentStart_of_digit h]; exact Bool.false_ne_true), if_pos h]

/-- A character that is a token of its own. -/
theorem lexes_punct {c : Char} {kind : TokenKind} (hn : c ≠ '\n') (hb : isBlank c = false)
    (hc : c ≠ '/') (h : ∀ l : Lexer, l.nextToken c = .ok (l.punct kind c)) :
    Lexes Anything [c] (Single fun t => t.kind = kind) :=
  lexes_token hn hb hc fun l rest hl _ => ⟨_, _, h l, by simp [advance, hl], rfl⟩

theorem lexes_identifier {text : Text} (h : IsIdentifier text) :
    Lexes Boundary text (Single fun t => t.kind = .identifier ∧ t.text = text) := by
  obtain ⟨c, cs, rfl, hc, hcs⟩ := h
  have hne := fun d hd => ne_of_class hc d hd
  have hblank : isBlank c = false := by
    simp [isBlank, hne ' ' rfl, hne '\t' rfl, hne '\r' rfl]
  refine lexes_token (hne '\n' rfl) hblank (hne '/' rfl) fun l rest hl hrest => ?_
  obtain ⟨h1, h2⟩ :=
    takeWhile_piece (List.forall_mem_cons.2 ⟨isIdentChar_of_start hc, hcs⟩) hrest hl
  exact ⟨_, _, nextToken_start hc l, h2, rfl, h1⟩

/-- A mark and the word behind it. -/
theorem lexes_marked {m : Char} {kind : TokenKind} {word : Text} (hn : m ≠ '\n')
    (hb : isBlank m = false) (hm : m ≠ '/') (hne : word ≠ [])
    (hword : ∀ c ∈ word, isIdentChar c = true)
    (h : ∀ l : Lexer, (l.advance.takeWhile isIdentChar).1 ≠ [] → l.nextToken m
      = .ok (l.make kind (m :: (l.advance.takeWhile isIdentChar).1),
        (l.advance.takeWhile isIdentChar).2)) :
    Lexes Boundary (m :: word) (Single fun t => t.kind = kind ∧ t.text = m :: word) := by
  refine lexes_token hn hb hm fun l rest hl hrest => ?_
  obtain ⟨h1, h2⟩ := takeWhile_piece hword hrest (l := l.advance) (by simp [advance, hl])
  exact ⟨_, _, h l (by rw [h1]; exact hne), h2, rfl, by rw [Lexer.make, h1]⟩

theorem lexes_directive {word : Text} (hne : word ≠ []) (hword : ∀ c ∈ word, isIdentChar c = true) :
    Lexes Boundary ('.' :: word) (Single fun t => t.kind = .directive ∧ t.text = '.' :: word) :=
  lexes_marked (by decide) rfl (by decide) hne hword fun l hl => if_neg hl

theorem lexes_special {word : Text} (hne : word ≠ []) (hword : ∀ c ∈ word, isIdentChar c = true) :
    Lexes Boundary ('%' :: word) (Single fun t => t.kind = .special ∧ t.text = '%' :: word) :=
  lexes_marked (by decide) rfl (by decide) hne hword fun l hl => if_neg hl

/-- A guard, with its predicate register. -/
theorem lexes_guard {word : Text} (negate : Bool) (hne : word ≠ [])
    (hword : ∀ c ∈ word, isIdentChar c = true) :
    Lexes Boundary ((if negate then ['@', '!'] else ['@']) ++ word)
      (Single fun t => t.kind = .guard ∧ t.text = word ∧ t.negate = negate) := by
  obtain ⟨c, cs, rfl⟩ := List.exists_cons_of_ne_nil hne
  have hc : c ≠ '!' := ne_of_class (hword c (by simp)) '!' rfl
  cases negate
  · refine lexes_token (by decide) rfl (by decide) fun l rest hl hrest => ?_
    have hl : l.source = '@' :: c :: (cs ++ rest) := hl
    obtain ⟨h1, h2⟩ := takeWhile_piece hword hrest (l := l.advance) (by simp [advance, hl])
    have hpeek : (l.advance.peek 0 == '!') = false := by simpa [peek, advance, hl] using hc
    refine ⟨{ l.make .guard (l.advance.takeWhile isIdentChar).1 with negate := false }, _, ?_, h2,
      rfl, h1, rfl⟩
    show l.guardToken = _
    rw [guardToken]
    simp only [hpeek, Bool.false_eq_true, if_false]
    exact if_neg (by rw [h1]; simp)
  · refine lexes_token (by decide) rfl (by decide) fun l rest hl hrest => ?_
    have hl : l.source = '@' :: '!' :: c :: (cs ++ rest) := hl
    obtain ⟨h1, h2⟩ := takeWhile_piece hword hrest (l := l.advance.advance) (by simp [advance, hl])
    have hpeek : (l.advance.peek 0 == '!') = true := by simp [peek, advance, hl]
    refine ⟨{ l.make .guard (l.advance.advance.takeWhile isIdentChar).1 with negate := true }, _,
      ?_, h2, rfl, h1, rfl⟩
    show l.guardToken = _
    rw [guardToken]
    simp only [hpeek, if_true]
    exact if_neg (by rw [h1]; simp)

end Words

section Numbers

/-- Digits end where what follows is no digit. -/
theorem digits_piece {ds rest : Text} (hds : Digits ds)
    (hrest : ∀ c ∈ rest.head?, c.isDigit = false) {l : Lexer} (hl : l.source = ds ++ rest) :
    (l.takeWhile Char.isDigit).1 = ds ∧ (l.takeWhile Char.isDigit).2.source = rest :=
  takeWhile_piece hds.2 hrest hl

theorem isDigit_of_boundary {rest : Text} (h : Boundary rest) :
    ∀ c ∈ rest.head?, c.isDigit = false := by
  intro c hc
  by_contra hd
  rw [Bool.not_eq_false] at hd
  have := h c hc
  rw [isIdentChar_of_digit hd] at this
  cases this

theorem fraction_piece {text rest : Text} (ht : FractionForm text)
    (hrest : ∀ c ∈ rest.head?, c ≠ '.' ∧ c.isDigit = false) {l : Lexer}
    (hl : l.source = text ++ rest) : l.fraction.1 = text ∧ l.fraction.2.source = rest := by
  rcases ht with rfl | ⟨ds, hds, rfl⟩
  · have hpeek : ¬(l.peek 0 = '.' ∧ (l.peek 1).isDigit = true) := by
      rintro ⟨h, -⟩
      rcases rest with _ | ⟨c, rest⟩
      · simp [peek, hl] at h
      · exact (hrest c rfl).1 (by simpa [peek, hl] using h)
    rw [fraction, if_neg hpeek]
    exact ⟨rfl, hl⟩
  · obtain ⟨d, ds', rfl⟩ := List.exists_cons_of_ne_nil hds.1
    have hpeek : l.peek 0 = '.' ∧ (l.peek 1).isDigit = true := by
      simpa [peek, hl] using hds.2 d (by simp)
    obtain ⟨h1, h2⟩ := digits_piece hds (fun c hc => (hrest c hc).2) (l := l.advance)
      (by simp [advance, hl])
    rw [fraction, if_pos hpeek]
    exact ⟨by rw [h1], h2⟩

theorem exponent_piece {text rest : Text} (ht : ExponentForm text) (hrest : Boundary rest)
    {l : Lexer} (hl : l.source = text ++ rest) :
    ∃ l', l.exponent = .ok (text, l') ∧ l'.source = rest := by
  rcases ht with rfl | ⟨sign, ds, hsign, hds, rfl⟩
  · have hpeek : ¬isExponentMark (l.peek 0) = true := by
      rcases rest with _ | ⟨c, rest⟩
      · simp [peek, hl]
        decide
      · have hc := hrest c rfl
        rw [show l.peek 0 = c by simp [peek, hl]]
        intro hm
        rcases Bool.or_eq_true_iff.1 hm with h | h <;> rw [beq_iff_eq.1 h] at hc <;> cases hc
    exact ⟨l, by rw [exponent, if_neg hpeek], hl⟩
  · have hpeek : isExponentMark (l.peek 0) = true := by simp [peek, hl, isExponentMark]
    have hs : l.advance.exponentSign = ([sign], l.advance.advance) := by
      have hp : l.advance.peek 0 = sign := by simp [peek, advance, hl]
      rw [exponentSign, if_pos (by rw [hp]; exact hsign), hp]
    obtain ⟨h1, h2⟩ := digits_piece hds (isDigit_of_boundary hrest) (l := l.advance.advance)
      (by simp [advance, hl])
    refine ⟨(l.advance.advance.takeWhile Char.isDigit).2, ?_, h2⟩
    rw [exponent, if_pos hpeek]
    simp only [hs]
    rw [h1, if_neg hds.1]
    rfl

/-- A number in decimal, which is a float if it has a fraction or an exponent. -/
theorem lexes_decimal {whole fraction exponent : Text} (hw : Digits whole)
    (hf : FractionForm fraction) (he : ExponentForm exponent) :
    Lexes Boundary (whole ++ fraction ++ exponent) (Single fun t =>
      t.kind = (if fraction ≠ [] ∨ exponent ≠ [] then .float else .integer)
        ∧ t.text = whole ++ fraction ++ exponent) := by
  obtain ⟨d, ds, rfl⟩ := List.exists_cons_of_ne_nil hw.1
  have hd : d.isDigit = true := hw.2 d (by simp)
  have hne := fun c hc => ne_of_class hd c hc
  have hblank : isBlank d = false := by simp [isBlank, hne ' ' rfl, hne '\t' rfl, hne '\r' rfl]
  refine lexes_token (hne '\n' rfl) hblank (hne '/' rfl) fun l rest hl hrest => ?_
  have hl : l.source = (d :: ds) ++ (fraction ++ (exponent ++ rest)) := by simp [hl]
  -- neither the exponent nor what follows continues a row of digits
  have hexp : ∀ c ∈ (exponent ++ rest).head?, c ≠ '.' ∧ c.isDigit = false := by
    rcases he with rfl | ⟨sign, es, -, -, rfl⟩
    · intro c hc
      have := isDigit_of_boundary hrest c hc
      refine ⟨?_, this⟩
      rintro rfl
      cases hrest _ hc
    · simp
  have hfrac : ∀ c ∈ (fraction ++ (exponent ++ rest)).head?,
      c.isDigit = false ∧ c ≠ 'x' ∧ c ≠ 'X' := by
    rcases hf with rfl | ⟨fs, -, rfl⟩
    · rcases he with rfl | ⟨sign, es, -, -, rfl⟩
      · intro c hc
        refine ⟨isDigit_of_boundary hrest c hc, ?_, ?_⟩ <;>
          · rintro rfl
            cases hrest _ hc
      · simp
    · simp
  obtain ⟨h1, h2⟩ := digits_piece hw (fun c hc => (hfrac c hc).1) hl
  obtain ⟨h3, h4⟩ := fraction_piece hf hexp h2
  obtain ⟨l', h5, h6⟩ := exponent_piece he hrest h4
  have hend : ¬isIdentChar (l'.peek 0) = true := by
    rcases rest with _ | ⟨c, rest⟩
    · simp [peek, h6]
      decide
    · simp [peek, h6, hrest c rfl]
  have hsecond : l.peek 1 ≠ 'x' ∧ l.peek 1 ≠ 'X' := by
    rcases ds with _ | ⟨d', ds⟩
    · rcases hx : fraction ++ (exponent ++ rest) with _ | ⟨c, cs⟩
      · simp [peek, hl, hx]
      · have := (hfrac c (by simp [hx])).2
        simpa [peek, hl, hx] using this
    · have hclass := fun c hc => ne_of_class (hw.2 d' (by simp)) c hc
      simpa [peek, hl] using ⟨hclass 'x' rfl, hclass 'X' rfl⟩
  have hhex : ¬(l.peek 0 = '0' ∧ (l.peek 1 = 'x' ∨ l.peek 1 = 'X')) :=
    fun h => h.2.elim hsecond.1 hsecond.2
  refine ⟨l.make (if fraction ≠ [] ∨ exponent ≠ [] then .float else .integer)
    (d :: ds ++ fraction ++ exponent), l', ?_, h6, rfl, rfl⟩
  rw [nextToken_digit hd, number, if_neg hhex, decimal]
  simp only [h1, h3, h5, Check.ok_bind]
  rw [if_neg hend]

/-- A number in hexadecimal. -/
theorem lexes_hex {ds : Text} (hne : ds ≠ []) (hds : ∀ c ∈ ds, isHexDigit c = true) :
    Lexes Boundary ('0' :: 'x' :: ds) (Single fun t =>
      t.kind = .integer ∧ t.text = '0' :: 'x' :: ds) := by
  refine lexes_token (by decide) rfl (by decide) fun l rest hl hrest => ?_
  have hl : l.source = '0' :: 'x' :: (ds ++ rest) := hl
  have hstop : ∀ c ∈ rest.head?, isHexDigit c = false := by
    intro c hc
    by_contra hx
    rw [Bool.not_eq_false] at hx
    have := hrest c hc
    rw [isIdentChar_of_hexDigit hx] at this
    cases this
  obtain ⟨h1, h2⟩ := takeWhile_piece hds hstop (l := l.advance.advance) (by simp [advance, hl])
  have hpeek : l.peek 0 = '0' ∧ (l.peek 1 = 'x' ∨ l.peek 1 = 'X') := by simp [peek, hl]
  refine ⟨l.make .integer ('0' :: 'x' :: ds), (l.advance.advance.takeWhile isHexDigit).2, ?_, h2,
    rfl, rfl⟩
  rw [nextToken_digit (by decide), number, if_pos hpeek]
  simp only [h1]
  rw [if_neg hne]

end Numbers

end WarpSim
