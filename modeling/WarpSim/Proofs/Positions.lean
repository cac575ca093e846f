import Mathlib.Data.List.TakeWhile
import WarpSim.Positions
import WarpSim.Proofs.Sources

/-!
# The lexer loses nothing

Every scanner takes a piece of the source, and moves the column by its length. A token spells the
piece it was read from, and the pieces make up what a text keeps. The positions are those of the
pieces modulo 2^32.
-/

namespace WarpSim

open Check

section Counting

theorem columnAt_nil : columnAt [] = 1 := rfl

theorem lineAt_append_newline (before : Text) : lineAt (before ++ ['\n']) = lineAt before + 1 := by
  simp [lineAt, Nat.add_assoc]

theorem columnAt_append_newline (before : Text) : columnAt (before ++ ['\n']) = 1 := by
  simp [columnAt]

theorem lineAt_append {piece : Text} (h : '\n' ∉ piece) (before : Text) :
    lineAt (before ++ piece) = lineAt before := by
  simp [lineAt, List.count_eq_zero.2 h]

theorem columnAt_append {piece : Text} (h : '\n' ∉ piece) (before : Text) :
    columnAt (before ++ piece) = columnAt before + piece.length := by
  have hall : ∀ c ∈ piece.reverse, (c != '\n') = true := fun c hc => by
    have : c ≠ '\n' := fun hn => h (hn ▸ List.mem_reverse.1 hc)
    simpa using this
  unfold columnAt
  rw [List.reverse_append, List.takeWhile_append_of_pos hall, List.length_append,
    List.length_reverse]
  omega

end Counting

section Keeping

/-- A comment is not kept. -/
theorem kept_comment : ∀ (k : Nat) (comment : Bool) (text : Text),
    kept k true text
      = kept (k + (text.takeWhile (· != '\n')).length) comment (text.dropWhile (· != '\n'))
  | k, comment, [] => rfl
  | k, comment, c :: cs => by
    by_cases hc : c = '\n'
    · subst hc
      rfl
    · have hne : (c != '\n') = true := by simpa using hc
      have ht : (c :: cs).takeWhile (· != '\n') = c :: cs.takeWhile (· != '\n') :=
        List.takeWhile_cons_of_pos hne
      have hd : (c :: cs).dropWhile (· != '\n') = cs.dropWhile (· != '\n') :=
        List.dropWhile_cons_of_pos hne
      rw [kept, if_neg hc, if_pos (.inl rfl), ht, hd, kept_comment (k + 1) comment cs,
        List.length_cons, Nat.add_right_comm, Nat.add_assoc]

/-- A character that no blank, comment or line end is made of. -/
def Solid (c : Char) : Prop := c ≠ '\n' ∧ Lexer.isBlank c = false ∧ c ≠ '/'

theorem kept_solid : ∀ {piece : Text} (_ : ∀ c ∈ piece, Solid c) (k : Nat) (rest : Text),
    kept k false (piece ++ rest) = piece.zipIdx k ++ kept (k + piece.length) false rest
  | [], _, k, rest => rfl
  | c :: cs, h, k, rest => by
    obtain ⟨hn, hb, hs⟩ := h c List.mem_cons_self
    rw [List.cons_append, kept, if_neg hn, if_neg (by simp [hs]), if_neg (by simp [hb]),
      kept_solid (fun d hd => h d (List.mem_cons_of_mem _ hd)), List.zipIdx_cons,
      List.cons_append, List.length_cons, Nat.add_right_comm, Nat.add_assoc]

theorem isIdentChar_solid {c : Char} (h : isIdentChar c = true) : Solid c :=
  ⟨ne_of_class h _ (by decide), by
    rcases hb : Lexer.isBlank c with _ | _
    · rfl
    · exfalso
      unfold Lexer.isBlank at hb
      simp only [Bool.or_eq_true, beq_iff_eq] at hb
      rcases hb with (rfl | rfl) | rfl <;> revert h <;> decide, ne_of_class h _ (by decide)⟩

end Keeping

namespace Lexer

/-- The lexer has taken a piece of the source that stands in one line. -/
structure Moves (l : Lexer) (piece : Text) (l' : Lexer) : Prop where
  source : l.source = piece ++ l'.source
  line : l'.line = l.line
  column : l'.column = l.column + BitVec.ofNat 32 piece.length

section Moving

variable {l l₁ l' : Lexer} {a b : Text}

theorem Moves.refl (l : Lexer) : Moves l [] l := ⟨rfl, rfl, by simp⟩

theorem Moves.trans (h : Moves l a l₁) (h' : Moves l₁ b l') : Moves l (a ++ b) l' where
  source := by rw [h.source, h'.source, List.append_assoc]
  line := h'.line.trans h.line
  column := by
    rw [h'.column, h.column, List.length_append, BitVec.ofNat_add, BitVec.add_assoc]

theorem Moves.advance {c : Char} {cs : Text} (h : l.source = c :: cs) : Moves l [c] l.advance where
  source := by rw [Lexer.advance, h]; rfl
  line := rfl
  column := rfl

theorem Moves.takeWhile (l : Lexer) (p : Char → Bool) :
    Moves l (l.takeWhile p).1 (l.takeWhile p).2 where
  source := (List.takeWhile_append_dropWhile ).symm
  line := rfl
  column := rfl

theorem peek_eq {l : Lexer} {c : Char} (hc : c ≠ Char.ofNat 0) (h : l.peek 0 = c) :
    ∃ cs, l.source = c :: cs := by
  rcases hs : l.source with _ | ⟨d, ds⟩
  · rw [peek, hs] at h
    exact absurd h.symm hc
  · rw [peek, hs] at h
    exact ⟨ds, by rw [← h]; rfl⟩

end Moving

/-- A scanner of a number's part has taken a piece, which it delivers. -/
theorem moves_fraction (l : Lexer) : Moves l l.fraction.1 l.fraction.2
    ∧ FractionForm l.fraction.1 := by
  unfold fraction
  split_ifs with h
  · obtain ⟨cs, hs⟩ := peek_eq (by decide) h.1
    refine ⟨(Moves.advance hs).trans (.takeWhile l.advance Char.isDigit), .inr ⟨_, ⟨?_, ?_⟩, rfl⟩⟩
    · obtain ⟨ds, hds⟩ : ∃ ds, cs = l.peek 1 :: ds := by
        rcases cs with _ | ⟨d, ds⟩
        · have hnone : l.peek 1 = Char.ofNat 0 := by rw [peek, hs]; rfl
          exact absurd (hnone ▸ h.2) (by decide)
        · exact ⟨ds, by rw [peek, hs]; rfl⟩
      simp [takeWhile, advance, hs, hds, h.2]
    · exact fun c hc => List.mem_takeWhile_imp hc
  · exact ⟨.refl l, .inl rfl⟩

theorem moves_exponentSign (l : Lexer) : Moves l l.exponentSign.1 l.exponentSign.2
    ∧ (l.exponentSign.1 = [] ∨ l.exponentSign.1 = ['+'] ∨ l.exponentSign.1 = ['-']) := by
  unfold exponentSign
  split_ifs with h
  · rcases h with h | h <;> obtain ⟨cs, hs⟩ := peek_eq (by decide) h <;> rw [h]
    · exact ⟨.advance hs, .inr (.inl rfl)⟩
    · exact ⟨.advance hs, .inr (.inr rfl)⟩
  · exact ⟨.refl l, .inl rfl⟩

/-- The end of an exponent, if there is one. -/
def exponentEnd (l : Lexer) : Lexer :=
  if isExponentMark (l.peek 0) then (l.advance.exponentSign.2.takeWhile Char.isDigit).2 else l

/-- The exponent is read with its mark in either case. -/
theorem moves_exponent (l : Lexer) : match l.exponent with
    | .ok (text, l') => l' = l.exponentEnd ∧ ReadExponent text
      ∧ (Moves l text l' ∨ ∃ rest, text = 'e' :: rest ∧ Moves l ('E' :: rest) l')
    | .error s => ∃ (piece : Text) (message : String), Moves l piece l.exponentEnd ∧ '\n' ∉ piece
      ∧ s = l.exponentEnd.error message := by
  unfold exponent exponentEnd
  by_cases hmark : isExponentMark (l.peek 0) = true
  · obtain ⟨hsign, hform⟩ := moves_exponentSign l.advance
    have hmove := hsign.trans (.takeWhile l.advance.exponentSign.2 Char.isDigit)
    obtain ⟨mark, hmark', cs, hs⟩ :
        ∃ mark, (mark = 'e' ∨ mark = 'E') ∧ ∃ cs, l.source = mark :: cs := by
      rcases Bool.or_eq_true_iff.1 hmark with hm | hm <;> rw [beq_iff_eq] at hm
      · exact ⟨_, .inl rfl, peek_eq (by decide) hm⟩
      · exact ⟨_, .inr rfl, peek_eq (by decide) hm⟩
    simp only [if_pos hmark]
    by_cases hempty : (l.advance.exponentSign.2.takeWhile Char.isDigit).1 = []
    · simp only [if_pos hempty]
      refine ⟨_, _, (Moves.advance hs).trans hmove, ?_, rfl⟩
      rw [hempty]
      rcases hmark' with rfl | rfl <;> rcases hform with hf | hf | hf <;> rw [hf] <;> decide
    · simp only [if_neg hempty]
      refine ⟨trivial, .inr ⟨_, _, hform, ⟨hempty, fun c hc => List.mem_takeWhile_imp hc⟩, rfl⟩, ?_⟩
      rcases hmark' with rfl | rfl
      · exact .inl ((Moves.advance hs).trans hmove)
      · exact .inr ⟨_, rfl, (Moves.advance hs).trans hmove⟩
  · simp only [if_neg hmark]
    exact ⟨trivial, .inl rfl, .inl (.refl l)⟩

theorem covers_text {t : Token} (h : t.kind ≠ .guard) : t.Covers t.text := by
  have hs : t.spelling = t.text := if_neg h
  exact hs ▸ .same

/-- What a token function delivers: a token of the form of its kind that spells the piece it was
read from and stands at its beginning. -/
structure Reads (l : Lexer) (t : Token) (l' : Lexer) (piece : Text) : Prop where
  moves : Moves l piece l'
  covers : t.Covers piece
  admits : t.kind.Admits t.text
  line : t.line = l.line
  column : t.column = l.column

/-- Where a token function gives up on a token that begins with `c`: behind the characters it has
taken. -/
def stop (l : Lexer) (c : Char) : Lexer :=
  if c = '.' ∨ c = '%' then (l.advance.takeWhile isIdentChar).2
  else if c = '@' then
    ((if l.advance.peek 0 == '!' then l.advance.advance else l.advance).takeWhile isIdentChar).2
  else if c.isDigit then
    if l.peek 0 = '0' ∧ (l.peek 1 = 'x' ∨ l.peek 1 = 'X') then
      (l.advance.advance.takeWhile isHexDigit).2
    else (l.takeWhile Char.isDigit).2.fraction.2.exponentEnd
  else l

/-- How a token function ends that gives up at `stop`: with a token that it has read, or with a
diagnostic there, in the line it began in. -/
def Yields (l stop : Lexer) : Except Stop (Token × Lexer) → Prop
  | .ok (t, l') => ∃ piece, Reads l t l' piece
  | .error s => ∃ (piece : Text) (message : String), Moves l piece stop ∧ '\n' ∉ piece
    ∧ s = stop.error message

section Yielding

variable {l l₁ : Lexer} {c : Char} {cs : Text}

theorem newline_notMem_takeWhile (l : Lexer) {p : Char → Bool} (hp : p '\n' = false) :
    '\n' ∉ (l.takeWhile p).1 := fun h =>
  absurd (List.mem_takeWhile_imp h) (by rw [hp]; exact Bool.false_ne_true)

theorem newline_notMem_append {a b : Text} (ha : '\n' ∉ a) (hb : '\n' ∉ b) : '\n' ∉ a ++ b :=
  fun h => (List.mem_append.1 h).elim ha hb

theorem newline_notMem_single {d : Char} (h : d ≠ '\n') : '\n' ∉ [d] :=
  fun hmem => h (List.mem_singleton.1 hmem).symm

/-- A row of characters of a class behind a mark, which may not be empty. -/
theorem yields_row {p : Char → Bool} (hp : p '\n' = false) {mark : Text} (hm : Moves l mark l₁)
    (hn : '\n' ∉ mark) {message : String} {t : Token} (hl : t.line = l.line)
    (hc : t.column = l.column)
    (ht : (l₁.takeWhile p).1 ≠ [] → t.Covers (mark ++ (l₁.takeWhile p).1) ∧ t.kind.Admits t.text) :
    Yields l (l₁.takeWhile p).2 (if (l₁.takeWhile p).1 = [] then
      .error ((l₁.takeWhile p).2.error message) else .ok (t, (l₁.takeWhile p).2)) := by
  have hmove := hm.trans (.takeWhile l₁ p)
  split_ifs with hempty
  · exact ⟨_, _, hmove, newline_notMem_append hn (newline_notMem_takeWhile l₁ hp), rfl⟩
  · exact ⟨_, hmove, (ht hempty).1, (ht hempty).2, hl, hc⟩

theorem nameChars_takeWhile {l : Lexer} (h : (l.takeWhile isIdentChar).1 ≠ []) :
    NameChars (l.takeWhile isIdentChar).1 :=
  ⟨h, fun _ hc => List.mem_takeWhile_imp hc⟩

/-- A directive or a special register. -/
theorem yields_marked (h : l.source = c :: cs) (hn : c ≠ '\n') {kind : TokenKind} {message : String}
    (hg : kind ≠ .guard) (hk : ∀ word, NameChars word → kind.Admits (c :: word)) :
    Yields l (l.advance.takeWhile isIdentChar).2 (if (l.advance.takeWhile isIdentChar).1 = [] then
      .error ((l.advance.takeWhile isIdentChar).2.error message)
    else .ok (l.make kind (c :: (l.advance.takeWhile isIdentChar).1),
      (l.advance.takeWhile isIdentChar).2)) :=
  yields_row (by decide) (.advance h) (newline_notMem_single hn) rfl rfl fun hne =>
    ⟨covers_text hg, hk _ (nameChars_takeWhile hne)⟩

theorem yields_guardToken (h : l.source = '@' :: cs) : Yields l (l.stop '@') l.guardToken := by
  unfold guardToken stop
  simp only []
  rcases hn : l.advance.peek 0 == '!' with _ | _
  · exact yields_row (by decide) (.advance h) (by decide) rfl rfl fun hne =>
      ⟨.same, nameChars_takeWhile hne⟩
  · obtain ⟨ds, hs⟩ := peek_eq (by decide) (beq_iff_eq.1 hn)
    exact yields_row (by decide) ((Moves.advance h).trans (.advance hs)) (by decide) rfl rfl
      fun hne => ⟨.same, nameChars_takeWhile hne⟩

theorem newline_notMem_digits {ds : Text} (h : ∀ c ∈ ds, c.isDigit = true) : '\n' ∉ ds :=
  fun hn => absurd (h _ hn) (by decide)

theorem newline_notMem_fraction {text : Text} (h : FractionForm text) : '\n' ∉ text := by
  rcases h with rfl | ⟨ds, hds, rfl⟩
  · exact List.not_mem_nil
  · exact newline_notMem_append (a := ['.']) (by decide) (newline_notMem_digits hds.2)

theorem newline_notMem_exponent {text : Text} (h : ReadExponent text) : '\n' ∉ text := by
  rcases h with rfl | ⟨sign, ds, hsign, hds, rfl⟩
  · exact List.not_mem_nil
  · refine newline_notMem_append ?_ (newline_notMem_digits hds.2)
    rcases hsign with rfl | rfl | rfl <;> decide

theorem yields_decimal (h : l.source = c :: cs) (hc : c.isDigit = true) :
    Yields l (l.takeWhile Char.isDigit).2.fraction.2.exponentEnd l.decimal := by
  have hwhole : Digits (l.takeWhile Char.isDigit).1 := by
    refine ⟨?_, fun d hd => List.mem_takeWhile_imp hd⟩
    simp [takeWhile, h, hc]
  obtain ⟨hfmove, hfrac⟩ := moves_fraction (l.takeWhile Char.isDigit).2
  have hmove := (Moves.takeWhile l Char.isDigit).trans hfmove
  have hstart : '\n' ∉ (l.takeWhile Char.isDigit).1 ++ (l.takeWhile Char.isDigit).2.fraction.1 :=
    newline_notMem_append (newline_notMem_digits hwhole.2) (newline_notMem_fraction hfrac)
  have hexp := moves_exponent (l.takeWhile Char.isDigit).2.fraction.2
  unfold decimal
  simp only []
  rcases he : (l.takeWhile Char.isDigit).2.fraction.2.exponent with s | ⟨text, l₃⟩ <;>
    rw [he] at hexp
  · obtain ⟨piece, message, hm, hn, rfl⟩ := hexp
    exact ⟨_, message, hmove.trans hm, newline_notMem_append hstart hn, rfl⟩
  obtain ⟨rfl, hread, hexp⟩ := hexp
  have hn := newline_notMem_exponent hread
  rw [ok_bind]
  refine iteInduction (fun _ => ?_) fun _ => ?_
  · rcases hexp with hexp | ⟨rest, rfl, hexp⟩
    · exact ⟨_, _, hmove.trans hexp, newline_notMem_append hstart hn, rfl⟩
    · refine ⟨_, _, hmove.trans hexp, newline_notMem_append hstart ?_, rfl⟩
      exact newline_notMem_append (newline_notMem_single (by decide))
        fun h => hn (List.mem_cons_of_mem _ h)
  · have hadmits : (if (l.takeWhile Char.isDigit).2.fraction.1 ≠ [] ∨ text ≠ []
        then TokenKind.float else .integer).Admits
        ((l.takeWhile Char.isDigit).1 ++ (l.takeWhile Char.isDigit).2.fraction.1 ++ text) := by
      split_ifs with hfloat
      · exact ⟨_, _, _, hwhole, hfrac, hread, rfl⟩
      · obtain ⟨hf, ht⟩ := not_or.1 hfloat
        rw [not_not.1 hf, not_not.1 ht, List.append_nil, List.append_nil]
        exact .inl hwhole
    have hguard : (if (l.takeWhile Char.isDigit).2.fraction.1 ≠ [] ∨ text ≠ []
        then TokenKind.float else .integer) ≠ .guard := by
      split_ifs <;> decide
    rcases hexp with hexp | ⟨rest, rfl, hexp⟩
    · exact ⟨_, hmove.trans hexp, covers_text hguard, hadmits, rfl, rfl⟩
    · refine ⟨_, hmove.trans hexp, .exponent ?_ rfl, hadmits, rfl, rfl⟩
      exact if_pos (.inr (List.cons_ne_nil _ _))

/-- The mark of a hexadecimal number, in either case. -/
theorem moves_hexMark (h : l.peek 0 = '0' ∧ (l.peek 1 = 'x' ∨ l.peek 1 = 'X')) :
    ∃ m, (m = 'x' ∨ m = 'X') ∧ Moves l ['0', m] l.advance.advance := by
  obtain ⟨ds, hs⟩ := peek_eq (by decide) h.1
  have hmark : ∀ {m : Char}, m ≠ Char.ofNat 0 → l.peek 1 = m →
      Moves l ['0', m] l.advance.advance := by
    intro m hm hp
    have hp : l.advance.peek 0 = m := by rw [← hp, peek, peek, Lexer.advance, hs]; rfl
    obtain ⟨es, he⟩ := peek_eq hm hp
    exact (Moves.advance hs).trans (.advance he)
  rcases h.2 with hm | hm
  · exact ⟨'x', .inl rfl, hmark (by decide) hm⟩
  · exact ⟨'X', .inr rfl, hmark (by decide) hm⟩

theorem yields_number (h : l.source = c :: cs) (hc : c.isDigit = true) :
    Yields l (if l.peek 0 = '0' ∧ (l.peek 1 = 'x' ∨ l.peek 1 = 'X') then
      (l.advance.advance.takeWhile isHexDigit).2
    else (l.takeWhile Char.isDigit).2.fraction.2.exponentEnd) l.number := by
  unfold number
  by_cases hx : l.peek 0 = '0' ∧ (l.peek 1 = 'x' ∨ l.peek 1 = 'X')
  · rw [if_pos hx, if_pos hx]
    obtain ⟨m, hm, hmark⟩ := moves_hexMark hx
    refine yields_row (by decide) hmark (by rcases hm with rfl | rfl <;> decide) rfl rfl
      fun hne => ⟨?_, .inr ⟨_, hne, fun d hd => List.mem_takeWhile_imp hd, rfl⟩⟩
    rcases hm with rfl | rfl
    · exact covers_text nofun
    · exact .hex rfl rfl
  · rw [if_neg hx, if_neg hx]
    exact yields_decimal h hc

/-- What the lexer makes of the characters from `c` on: the token they spell, or a diagnostic
behind those it has taken. -/
theorem yields_nextToken (h : l.source = c :: cs) (hn : c ≠ '\n') :
    Yields l (l.stop c) (l.nextToken c) := by
  refine nextToken_cases (fun kind hk => ?_) (fun hc => ?_) (fun hc => ?_) (fun hc => ?_)
    (fun hident => ?_) (fun hdigit => ?_) fun hd hg hs hdigit m => ?_
  · have hkinds : ∀ p ∈ punctuation, p.2 ≠ .guard ∧ p.2.Admits [p.1] := by
      simp [punctuation, TokenKind.Admits]
    exact ⟨[c], .advance h, covers_text (hkinds _ hk).1, (hkinds _ hk).2, rfl, rfl⟩
  · subst hc
    exact yields_marked h (by decide) (by decide) fun word hw => ⟨word, hw, rfl⟩
  · subst hc
    exact yields_guardToken h
  · subst hc
    exact yields_marked h (by decide) (by decide) fun word hw => ⟨word, hw, rfl⟩
  · refine ⟨_, .takeWhile l isIdentChar, covers_text nofun, ?_, rfl, rfl⟩
    refine ⟨c, cs.takeWhile isIdentChar, ?_, hident, fun d hd => List.mem_takeWhile_imp hd⟩
    simp [takeWhile, make, h, isIdentChar_of_start hident]
  · have hne := fun d hd => ne_of_class hdigit d hd
    have hstop := yields_number h hdigit
    rwa [stop, if_neg (by rintro (hc | hc) <;> exact hne _ rfl hc), if_neg (hne '@' rfl),
      if_pos hdigit]
  · rw [stop, if_neg (by rintro (hc | hc) <;> contradiction), if_neg hg, if_neg hdigit]
    exact ⟨[], m, .refl l, List.not_mem_nil, rfl⟩

end Yielding

section Scanning

variable {l l' : Lexer} {ts : List Token}

theorem comment_eq {c : Char} {cs : Text} (hs : l.source = c :: cs) (h : c = '/' ∧ l.peek 1 = '/') :
    c = '/' ∧ ∃ ds, cs = '/' :: ds := by
  obtain ⟨rfl, hnext⟩ := h
  rcases cs with _ | ⟨d, ds⟩
  · rw [peek, hs] at hnext
    exact absurd hnext (by decide)
  · rw [peek, hs] at hnext
    exact ⟨rfl, ds, congrArg (· :: ds) hnext⟩

/-- The tokens that the lexer delivers are scanned, to the end of the source. -/
theorem scan_of_tokens : ∀ {fuel : Nat} {l : Lexer} {ts : List Token} {l' : Lexer},
    l.tokens fuel = .ok (ts, l') → Scan l ts l' ∧ l'.source = []
  | fuel + 1, l, ts, l', h => by
    rw [tokens] at h
    rcases hs : l.source with _ | ⟨c, cs⟩ <;> rw [hs] at h <;> simp only [] at h
    · obtain ⟨rfl, rfl⟩ := Prod.mk.inj (Except.ok.inj h)
      exact ⟨.refl l, hs⟩
    · split_ifs at h with hnl hblank hcomment
      · obtain ⟨⟨us, l''⟩, hus, h⟩ := bind_eq_ok.1 h
        obtain ⟨rfl, rfl⟩ := Prod.mk.inj (Except.ok.inj h)
        obtain ⟨hscan, hend⟩ := scan_of_tokens hus
        exact ⟨.newline (hnl ▸ hs) hscan, hend⟩
      · obtain ⟨hscan, hend⟩ := scan_of_tokens h
        exact ⟨.blank hs hnl hblank hscan, hend⟩
      · obtain ⟨hscan, hend⟩ := scan_of_tokens h
        obtain ⟨rfl, ds, rfl⟩ := comment_eq hs hcomment
        exact ⟨.comment hs hscan, hend⟩
      · obtain ⟨⟨t, l₁⟩, ht, h⟩ := bind_eq_ok.1 h
        obtain ⟨⟨us, l''⟩, hus, h⟩ := bind_eq_ok.1 h
        obtain ⟨rfl, rfl⟩ := Prod.mk.inj (Except.ok.inj h)
        obtain ⟨hscan, hend⟩ := scan_of_tokens hus
        refine ⟨.token hs hnl (by simpa using hblank) ?_ ht hscan, hend⟩
        rintro rfl
        cases ht

end Scanning

end Lexer

section Spellings

variable {t : Token} {piece : Text}

/-- A token of the form of its kind is written with solid characters only. -/
theorem spelling_solid (hn : t.kind ≠ .newline) (h : t.kind.Admits t.text) :
    ∀ c ∈ t.spelling, Solid c := by
  have hdigits : ∀ {ds : Text}, Digits ds → ∀ c ∈ ds, Solid c :=
    fun hds c hc => isIdentChar_solid (isIdentChar_of_digit (hds.2 c hc))
  have hword : ∀ {w : Text}, NameChars w → ∀ c ∈ w, Solid c :=
    fun hw c hc => isIdentChar_solid (hw.2 c hc)
  have hone : ∀ {d : Char}, Solid d → ∀ c ∈ [d], Solid c :=
    fun hd c hc => List.mem_singleton.1 hc ▸ hd
  have happend : ∀ {a b : Text}, (∀ c ∈ a, Solid c) → (∀ c ∈ b, Solid c) →
      ∀ c ∈ a ++ b, Solid c :=
    fun ha hb c hc => (List.mem_append.1 hc).elim (ha c) (hb c)
  have hcons : ∀ {d : Char} {w : Text}, Solid d → (∀ c ∈ w, Solid c) → ∀ c ∈ d :: w, Solid c :=
    fun hd hw => List.forall_mem_cons.2 ⟨hd, hw⟩
  obtain ⟨kind, text, negate, line, column⟩ := t
  rcases kind <;> simp only [TokenKind.Admits] at h <;> unfold Token.spelling
  · obtain ⟨c, cs, rfl, hc, hcs⟩ := h
    exact hcons (isIdentChar_solid (isIdentChar_of_start hc))
      fun d hd => isIdentChar_solid (hcs d hd)
  · obtain ⟨w, hw, rfl⟩ := h
    exact hcons (isIdentChar_solid (by decide)) (hword hw)
  · refine hcons ⟨by decide, by decide, by decide⟩ (happend ?_ (hword h))
    rcases negate with _ | _
    · exact List.forall_mem_nil _
    · exact hone ⟨by decide, by decide, by decide⟩
  · obtain ⟨w, hw, rfl⟩ := h
    exact hcons ⟨by decide, by decide, by decide⟩ (hword hw)
  · rcases h with h | ⟨ds, -, hds, rfl⟩
    · exact hdigits h
    · exact hcons (isIdentChar_solid (by decide)) (hcons (isIdentChar_solid (by decide))
        fun d hd => isIdentChar_solid (isIdentChar_of_hexDigit (hds d hd)))
  · obtain ⟨whole, fraction, exponent, hw, hf, he, rfl⟩ := h
    refine happend (happend (hdigits hw) ?_) ?_
    · rcases hf with rfl | ⟨ds, hds, rfl⟩
      · exact List.forall_mem_nil _
      · exact hcons (isIdentChar_solid (by decide)) (hdigits hds)
    · rcases he with rfl | ⟨sign, ds, hsign, hds, rfl⟩
      · exact List.forall_mem_nil _
      · refine happend (hcons (isIdentChar_solid (by decide)) ?_) (hdigits hds)
        rcases hsign with rfl | rfl | rfl
        · exact List.forall_mem_nil _
        · exact hone ⟨by decide, by decide, by decide⟩
        · exact hone ⟨by decide, by decide, by decide⟩
  all_goals first
    | exact absurd rfl hn
    | subst h
  all_goals first
    | exact List.forall_mem_nil _
    | exact hone ⟨by decide, by decide, by decide⟩

/-- What a token covers has the characters it is written with, up to the case of a mark. -/
theorem Token.Covers.cases (h : t.Covers piece) : piece = t.spelling
    ∨ ∃ a b : Text, ∃ m m' : Char, t.spelling = a ++ m :: b ∧ piece = a ++ m' :: b ∧ Solid m' := by
  have hX : Solid 'X' := isIdentChar_solid (by decide)
  have hE : Solid 'E' := isIdentChar_solid (by decide)
  rcases h with _ | ⟨hk, ht⟩ | ⟨hk, ht⟩
  · exact .inl rfl
  · have hg : t.kind ≠ .guard := by rw [hk]; decide
    exact .inr ⟨['0'], _, 'x', 'X', by rw [Token.spelling, if_neg hg, ht]; rfl, rfl, hX⟩
  · have hg : t.kind ≠ .guard := by rw [hk]; decide
    exact .inr ⟨_, _, 'e', 'E', by rw [Token.spelling, if_neg hg, ht], rfl, hE⟩

theorem Token.Covers.newline (h : t.Covers piece) (hk : t.kind = .newline) :
    piece = t.spelling := by
  rcases h with _ | ⟨hk', -⟩ | ⟨hk', -⟩
  · rfl
  · exact absurd (hk.symm.trans hk') nofun
  · exact absurd (hk.symm.trans hk') nofun

theorem Token.Covers.solid (h : t.Covers piece) (ht : ∀ c ∈ t.spelling, Solid c) :
    ∀ c ∈ piece, Solid c := by
  rcases h.cases with rfl | ⟨a, b, m, m', hs, rfl, hm⟩
  · exact ht
  · intro c hc
    rcases List.mem_append.1 hc with hc | hc
    · exact ht c (hs ▸ List.mem_append_left _ hc)
    · rcases List.mem_cons.1 hc with rfl | hc
      · exact hm
      · exact ht c (hs ▸ List.mem_append_right _ (List.mem_cons_of_mem _ hc))

theorem spelling_ne_nil (he : t.kind ≠ .sourceEnd) (h : t.kind.Admits t.text) :
    t.spelling ≠ [] := by
  obtain ⟨kind, text, negate, line, column⟩ := t
  rcases kind <;> simp only [TokenKind.Admits] at h <;> unfold Token.spelling
  · obtain ⟨c, cs, rfl, -⟩ := h
    exact List.cons_ne_nil _ _
  · obtain ⟨w, -, rfl⟩ := h
    exact List.cons_ne_nil _ _
  · exact List.cons_ne_nil _ _
  · obtain ⟨w, -, rfl⟩ := h
    exact List.cons_ne_nil _ _
  · rcases h with h | ⟨ds, -, -, rfl⟩
    · exact h.1
    · exact List.cons_ne_nil _ _
  · obtain ⟨whole, fraction, exponent, hw, -, -, rfl⟩ := h
    exact List.append_ne_nil_of_left_ne_nil (List.append_ne_nil_of_left_ne_nil hw.1 _) _
  all_goals first
    | exact absurd rfl he
    | exact h ▸ List.cons_ne_nil _ _

theorem Token.Covers.ne_nil (h : t.Covers piece) (ht : t.spelling ≠ []) : piece ≠ [] := by
  rcases h.cases with rfl | ⟨a, b, m, m', -, rfl, -⟩
  · exact ht
  · simp

end Spellings

section Scanned

/-- The lexer has come so far in a source, and its position is that of the next character modulo
2^32. -/
structure Lexer.At (source : Text) (k : Nat) (l : Lexer) : Prop where
  rest : l.source = source.drop k
  line : l.line = BitVec.ofNat 32 (lineAt (source.take k))
  column : l.column = BitVec.ofNat 32 (columnAt (source.take k))

variable {source : Text} {k : Nat} {l l' : Lexer}

theorem Lexer.at_start (source : Text) : Lexer.At source 0 { source := source } :=
  ⟨rfl, rfl, rfl⟩

theorem take_add_of_drop {piece rest : Text} (h : source.drop k = piece ++ rest) :
    source.take (k + piece.length) = source.take k ++ piece := by
  rw [List.take_add, h, List.take_left]

theorem drop_add_of_drop {piece rest : Text} (h : source.drop k = piece ++ rest) :
    source.drop (k + piece.length) = rest := by
  rw [← List.drop_drop, h, List.drop_left]

theorem Lexer.At.moves (h : l.At source k) {piece : Text} (hm : l.Moves piece l')
    (hn : '\n' ∉ piece) : l'.At source (k + piece.length) := by
  have hdrop : source.drop k = piece ++ l'.source := h.rest ▸ hm.source
  refine ⟨(drop_add_of_drop hdrop).symm, ?_, ?_⟩ <;> rw [take_add_of_drop hdrop]
  · rw [lineAt_append hn, hm.line, h.line]
  · rw [columnAt_append hn, hm.column, h.column, BitVec.ofNat_add]

theorem Lexer.At.newLine (h : l.At source k) {cs : Text} (hs : l.source = '\n' :: cs) :
    l.newLine.At source (k + 1) := by
  have hdrop : source.drop k = ['\n'] ++ cs := h.rest ▸ hs
  have htake := take_add_of_drop hdrop
  have hrest := drop_add_of_drop hdrop
  rw [List.length_singleton] at htake hrest
  refine ⟨?_, ?_, ?_⟩
  · rw [Lexer.newLine, hs, hrest, List.tail_cons]
  · rw [htake, lineAt_append_newline, Lexer.newLine, h.line, BitVec.ofNat_add]
    rfl
  · rw [htake, columnAt_append_newline, Lexer.newLine]
    rfl

/-- A token was read at these characters of a source: it has the position of the first modulo
2^32. -/
structure Token.Read (source : Text) (t : Token) (piece : List (Char × Nat)) : Prop where
  covers : t.Covers (piece.map Prod.fst)
  admits : t.kind.Admits t.text
  notEnd : t.kind ≠ .sourceEnd
  position : ∃ x ∈ piece.head?, t.line = BitVec.ofNat 32 (lineAt (source.take x.2))
    ∧ t.column = BitVec.ofNat 32 (columnAt (source.take x.2))

theorem Lexer.At.read {t : Token} {piece : Text} (h : l.At source k)
    (hr : l.Reads t l' piece) (hend : t.kind ≠ .sourceEnd) : t.Read source (piece.zipIdx k) := by
  have hne := hr.covers.ne_nil (spelling_ne_nil hend hr.admits)
  obtain ⟨c, cs, rfl⟩ := List.exists_cons_of_ne_nil hne
  refine ⟨?_, hr.admits, hend, (c, k), ?_, ?_, ?_⟩
  · rw [List.zipIdx_map_fst]
    exact hr.covers
  · rw [List.zipIdx_cons]
    rfl
  · rw [hr.line, h.line]
  · rw [hr.column, h.column]

/-- What was scanned covers what the source keeps from there on. -/
theorem Lexer.Scan.reads {ts : List Token} (h : Scan l ts l') (hend : l'.source = []) :
    ∀ {k : Nat}, l.At source k → ∃ pieces, List.Forall₂ (Token.Read source) ts pieces
      ∧ pieces.flatten = kept k false l.source
      ∧ l'.line = BitVec.ofNat 32 (lineAt source)
      ∧ l'.column = BitVec.ofNat 32 (columnAt source) := by
  induction h with
  | refl l =>
    intro k hat
    have hk : source.take k = source :=
      List.take_of_length_le (List.drop_eq_nil_iff.1 (hat.rest ▸ hend))
    rw [hend]
    exact ⟨[], .nil, rfl, hk ▸ hat.line, hk ▸ hat.column⟩
  | @newline l l' cs ts hs _ ih =>
    intro k hat
    obtain ⟨pieces, hall, hflat, hpos⟩ := ih hend (hat.newLine hs)
    have hread : Token.Read source (l.make .newline ['\n']) [('\n', k)] :=
      ⟨.same, rfl, nofun, _, rfl, hat.line, hat.column⟩
    refine ⟨[('\n', k)] :: pieces, .cons hread hall, ?_, hpos⟩
    rw [List.flatten_cons, hflat, hs, kept, if_pos rfl, newLine, hs]
    rfl
  | @blank l l' c cs ts hs hn hb _ ih =>
    intro k hat
    have hnl : '\n' ∉ [c] := fun h => hn (List.mem_singleton.1 h).symm
    obtain ⟨pieces, hall, hflat, hpos⟩ := ih hend (hat.moves (.advance hs) hnl)
    refine ⟨pieces, hall, ?_, hpos⟩
    have hslash : c ≠ '/' := by
      rintro rfl
      exact absurd hb (by decide)
    rw [hflat, hs, kept, if_neg hn, if_neg (by simp [hslash]), if_pos hb, advance, hs]
    rfl
  | @comment l l' cs ts hs _ ih =>
    intro k hat
    have hnl : '\n' ∉ (l.takeWhile (· != '\n')).1 :=
      fun h => absurd (List.mem_takeWhile_imp h) (by decide)
    obtain ⟨pieces, hall, hflat, hpos⟩ := ih hend (hat.moves (.takeWhile l _) hnl)
    refine ⟨pieces, hall, ?_, hpos⟩
    have hbegin : kept k false l.source = kept k true l.source := by
      rw [hs, kept, if_neg (by decide), if_pos (.inr ⟨rfl, rfl⟩)]
      exact (if_neg (by decide)).trans (if_pos (.inl rfl)) |>.symm
    rw [hflat, hbegin, kept_comment k false l.source]
    rfl
  | @token l l₁ l' c cs t ts hs hn hb hc ht _ ih =>
    intro k hat
    have hadv := advances_nextToken hs
    have hreads := yields_nextToken hs hn
    rw [ht] at hadv hreads
    obtain ⟨piece, hr⟩ := hreads
    have hsolid := hr.covers.solid (spelling_solid hadv.2.1 hr.admits)
    obtain ⟨pieces, hall, hflat, hpos⟩ := ih hend (hat.moves hr.moves fun h => (hsolid _ h).1 rfl)
    refine ⟨piece.zipIdx k :: pieces, .cons (hat.read hr hadv.2.2) hall, ?_, hpos⟩
    rw [List.flatten_cons, hflat, hr.moves.source, kept_solid hsolid]

end Scanned

section Lexed

variable {source : Text} {ts : List Token}

/-- Every text that lexes is read token by token, up to the supplied newline and the end. -/
theorem lex_reads (h : lex source = .ok ts) : ∃ body supplied e pieces,
    ts = body ++ supplied ++ [e] ∧ List.Forall₂ (Token.Read source) body pieces
      ∧ pieces.flatten = kept 0 false source
      ∧ (if body.getLast?.map Token.kind = some .newline then supplied = []
        else ∃ n, supplied = [n] ∧ n.kind = .newline ∧ n.text = ['\n'] ∧ n.line = e.line
          ∧ n.column = e.column)
      ∧ e.kind = .sourceEnd ∧ e.text = [] ∧ e.line = BitVec.ofNat 32 (lineAt source)
      ∧ e.column = BitVec.ofNat 32 (columnAt source) := by
  obtain ⟨⟨body, l⟩, hbody, h⟩ := bind_eq_ok.1 h
  obtain ⟨hscan, hend⟩ := Lexer.scan_of_tokens hbody
  obtain ⟨pieces, hall, hflat, hline, hcolumn⟩ := hscan.reads hend (Lexer.at_start source)
  simp only [] at h
  by_cases hlast : body.getLast?.map Token.kind = some .newline
  · rw [if_pos hlast] at h
    refine ⟨body, [], l.make .sourceEnd [], pieces, ?_, hall, hflat, ?_, rfl, rfl, hline, hcolumn⟩
    · rw [List.append_nil]
      exact (Except.ok.inj h).symm
    · rw [if_pos hlast]
  · rw [if_neg hlast] at h
    refine ⟨body, [l.make .newline ['\n']], l.make .sourceEnd [], pieces,
      (Except.ok.inj h).symm, hall, hflat, ?_, rfl, rfl, hline, hcolumn⟩
    rw [if_neg hlast]
    exact ⟨_, rfl, rfl, rfl, rfl, rfl⟩

/-- Every token has a text of the form of its kind. -/
theorem lex_admits (h : lex source = .ok ts) : ∀ t ∈ ts, t.kind.Admits t.text := by
  obtain ⟨body, supplied, e, pieces, rfl, hall, -, hsup, hk, htext, -⟩ := lex_reads h
  obtain ⟨hforms, -⟩ := (List.forall₂_and_left (p := fun t : Token => t.kind.Admits t.text) _ _).1
    (hall.imp fun _ _ hr => And.intro hr.admits hr)
  intro t ht
  rcases List.mem_append.1 ht with ht | ht
  · rcases List.mem_append.1 ht with ht | ht
    · exact hforms t ht
    · split_ifs at hsup
      · exact absurd ht (hsup ▸ List.not_mem_nil)
      · obtain ⟨n, rfl, hn, htext, -⟩ := hsup
        rw [List.mem_singleton.1 ht, hn]
        exact htext
  · rw [List.mem_singleton.1 ht, hk]
    exact htext

/-- The column counts the characters of the line so far. -/
theorem columnAt_line (before : Text) :
    ∃ line : Text, line <:+ before ∧ '\n' ∉ line ∧ columnAt before = line.length + 1 := by
  refine ⟨(before.reverse.takeWhile (· != '\n')).reverse, ?_, fun h => ?_, ?_⟩
  · exact List.reverse_prefix.1 ((List.reverse_reverse _).symm ▸ List.takeWhile_prefix _)
  · exact absurd (List.mem_takeWhile_imp (List.mem_reverse.1 h)) (by decide)
  · rw [columnAt, List.length_reverse, Nat.add_comm]

theorem lineAt_take_le (source : Text) (k : Nat) : lineAt (source.take k) ≤ lineAt source :=
  Nat.add_le_add_left ((List.take_sublist k source).count_le _) 1

theorem lineAt_lt (h : Numbered source) (k : Nat) : lineAt (source.take k) < 2 ^ 32 := by
  have hlt : lineAt source < 2 ^ 32 := by
    rw [lineAt, Nat.add_comm]
    exact h.1
  exact (lineAt_take_le source k).trans_lt hlt

theorem columnAt_lt (h : Numbered source) (k : Nat) : columnAt (source.take k) < 2 ^ 32 := by
  obtain ⟨line, hsuffix, hn, hcol⟩ := columnAt_line (source.take k)
  rw [hcol]
  exact h.2 line (hsuffix.isInfix.trans (List.take_prefix k source).isInfix) hn

theorem toNat_ofNat_of_lt {n : Nat} (h : n < 2 ^ 32) : (BitVec.ofNat 32 n).toNat = n := by
  rw [BitVec.toNat_ofNat, Nat.mod_eq_of_lt h]

theorem exact_of_numbered (h : lex source = .ok ts) (hnum : Numbered source) :
    Exact source ts := by
  obtain ⟨body, supplied, e, pieces, rfl, hall, hflat, hsup, hk, -, hline, hcolumn⟩ := lex_reads h
  have hwhole : source.take source.length = source := List.take_length
  refine ⟨body, supplied, e, pieces, rfl, hall.imp fun t piece hr => ?_, hflat, ?_, hk, ?_, ?_⟩
  · obtain ⟨x, hx, hl, hc⟩ := hr.position
    refine ⟨hr.covers, x, hx, ?_, ?_⟩
    · rw [hl, toNat_ofNat_of_lt (lineAt_lt hnum _)]
    · rw [hc, toNat_ofNat_of_lt (columnAt_lt hnum _)]
  · split_ifs at hsup ⊢
    · exact hsup
    · obtain ⟨n, hn, hkind, -⟩ := hsup
      exact ⟨n, hn, hkind⟩
  · rw [hline, toNat_ofNat_of_lt (hwhole ▸ lineAt_lt hnum source.length)]
  · rw [hcolumn, toNat_ofNat_of_lt (hwhole ▸ columnAt_lt hnum source.length)]

theorem newline_mem_kept (rest : Text) : ∀ (before : Text) (k : Nat) (comment : Bool),
    ('\n', k + before.length) ∈ kept k comment (before ++ '\n' :: rest)
  | [], k, comment => by
    rw [List.nil_append, kept, if_pos rfl]
    exact List.mem_cons_self
  | c :: cs, k, comment => by
    have ih := newline_mem_kept rest cs (k + 1)
    rw [List.cons_append, kept, List.length_cons, ← Nat.add_assoc, Nat.add_right_comm]
    split_ifs
    · exact List.mem_cons_of_mem _ (ih false)
    · exact ih true
    · exact ih false
    · exact List.mem_cons_of_mem _ (ih false)

/-- A newline is a token of its own. -/
theorem piece_of_newline {t : Token} {piece : List (Char × Nat)} {k : Nat}
    (hadmits : t.kind.Admits t.text) (hcovers : t.Covers (piece.map Prod.fst))
    (hmem : ('\n', k) ∈ piece) : piece = [('\n', k)] := by
  have hin : '\n' ∈ piece.map Prod.fst := List.mem_map_of_mem hmem
  by_cases hk : t.kind = .newline
  · rw [hk] at hadmits
    have hspell : t.spelling = ['\n'] := by
      rw [Token.spelling, if_neg (by rw [hk]; decide)]
      exact hadmits
    obtain ⟨x, rfl, -⟩ := List.map_eq_singleton_iff.1 ((hcovers.newline hk).trans hspell)
    rw [List.mem_singleton.1 hmem]
  · exact absurd rfl (hcovers.solid (spelling_solid hk hadmits) _ hin).1

theorem numbered_of_exact (h : lex source = .ok ts) (hexact : Exact source ts) :
    Numbered source := by
  have hadmits := lex_admits h
  obtain ⟨body, supplied, e, pieces, rfl, hall, hflat, -, -, hline, hcolumn⟩ := hexact
  refine ⟨?_, ?_⟩
  · have := e.line.isLt
    rw [hline, lineAt] at this
    omega
  · rintro line ⟨a, b, rfl⟩ hnl
    by_cases hb : '\n' ∈ b
    · obtain ⟨b₁, b₂, rfl, hb₁⟩ := List.eq_append_cons_of_mem hb
      have hmem : ('\n', (a ++ line ++ b₁).length) ∈ pieces.flatten := by
        have hkept := newline_mem_kept b₂ (a ++ line ++ b₁) 0 false
        rwa [Nat.zero_add, List.append_assoc (a ++ line), ← hflat] at hkept
      obtain ⟨piece, hpiece, hmem⟩ := List.mem_flatten.1 hmem
      obtain ⟨t, ht, hstands⟩ := exists_of_forall₂_right hall piece hpiece
      have hin := List.mem_append_left [e] (List.mem_append_left supplied ht)
      have hp := piece_of_newline (hadmits t hin) hstands.covers hmem
      obtain ⟨x, hx, -, hcol⟩ := hstands.position
      rw [hp] at hx
      obtain rfl := Option.some.inj hx
      have hne : '\n' ∉ line ++ b₁ := fun h => (List.mem_append.1 h).elim hnl hb₁
      have htake : (a ++ line ++ (b₁ ++ '\n' :: b₂)).take (a ++ line ++ b₁).length
          = a ++ (line ++ b₁) := by
        rw [← List.append_assoc, List.take_left, List.append_assoc]
      have hlt := t.column.isLt
      rw [hcol, htake, columnAt_append hne, List.length_append, columnAt] at hlt
      omega
    · have hcol := e.column.isLt
      have hne : '\n' ∉ line ++ b := fun h => (List.mem_append.1 h).elim hnl hb
      rw [hcolumn, List.append_assoc, columnAt_append hne, List.length_append, columnAt] at hcol
      omega

/-- The tokens of a text that lexes lose nothing, and stand where they say exactly if 32 bits
number the lines and the characters of each. -/
theorem lex_exact (source : Text) (ts : List Token) (h : lex source = .ok ts) :
    Exact source ts ↔ Numbered source :=
  ⟨numbered_of_exact h, exact_of_numbered h⟩

/-- A guard with a hexadecimal operand, a comment, and a line that does not end. -/
theorem lex_exact_guarded : ∃ ts, lex "\t@!p0 add r0, 0XaF // x\nexit".toList = .ok ts
    ∧ ts.map (fun t => (t.line.toNat, t.column.toNat))
      = [(1, 2), (1, 7), (1, 11), (1, 13), (1, 15), (1, 24), (2, 1), (2, 5), (2, 5)]
    ∧ Exact "\t@!p0 add r0, 0XaF // x\nexit".toList ts := by
  obtain ⟨ts, hts, hpos⟩ : ∃ ts, lex "\t@!p0 add r0, 0XaF // x\nexit".toList = .ok ts
      ∧ ts.map (fun t => (t.line.toNat, t.column.toNat))
        = [(1, 2), (1, 7), (1, 11), (1, 13), (1, 15), (1, 24), (2, 1), (2, 5), (2, 5)] := by
    refine ⟨[⟨.guard, "p0".toList, true, 1, 2⟩, ⟨.identifier, "add".toList, false, 1, 7⟩,
      ⟨.identifier, "r0".toList, false, 1, 11⟩, ⟨.comma, [','], false, 1, 13⟩,
      ⟨.integer, "0xaF".toList, false, 1, 15⟩, ⟨.newline, ['\n'], false, 1, 24⟩,
      ⟨.identifier, "exit".toList, false, 2, 1⟩, ⟨.newline, ['\n'], false, 2, 5⟩,
      ⟨.sourceEnd, [], false, 2, 5⟩], ?_, ?_⟩ <;> decide +kernel
  refine ⟨ts, hts, hpos, (lex_exact _ ts hts).2 ⟨by decide, fun line hline _ => ?_⟩⟩
  have hlen : line.length ≤ 28 := hline.length_le.trans (by decide)
  omega

theorem lex_newlines {n : Nat} (hn : n ≠ 0) : ∃ ts, lex (List.replicate n '\n') = .ok ts := by
  have hblank : ∀ x ∈ List.replicate n (([] : Text), Line.code none none),
      Prints bitChars x.1 x.2 :=
    fun x hx => List.eq_of_mem_replicate hx ▸ prints_blank
  obtain ⟨ts, -, hts, -⟩ := lex_lines hblank (by rwa [Ne, List.replicate_eq_nil_iff])
  rw [List.flatMap_replicate, List.nil_append, List.flatten_replicate_singleton] at hts
  exact ⟨ts, hts⟩

/-- The line of the last of 2^32 newlines is counted as 0. -/
theorem lex_newlines_wrap : ∃ ts, lex (List.replicate (2 ^ 32) '\n') = .ok ts
    ∧ ¬ Exact (List.replicate (2 ^ 32) '\n') ts := by
  obtain ⟨ts, hts⟩ := lex_newlines (n := 2 ^ 32) (by decide)
  refine ⟨ts, hts, fun h => ?_⟩
  have hcount := (numbered_of_exact hts h).1
  rw [List.count_replicate_self] at hcount
  omega

end Lexed

end WarpSim
