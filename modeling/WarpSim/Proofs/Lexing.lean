import WarpSim.Lib.Check
import WarpSim.Proofs.Parsing

/-!
# Tokens

The lexer ends, and what it delivers is what the parser relies on.
-/

namespace WarpSim

open Check

namespace Lexer

variable {l l' : Lexer} {t : Token}

theorem length_takeWhile_le (l : Lexer) (pred : Char → Bool) :
    (l.takeWhile pred).2.source.length ≤ l.source.length :=
  (List.dropWhile_sublist pred).length_le

theorem length_advance_le (l : Lexer) : l.advance.source.length ≤ l.source.length := by
  simp [advance]

theorem length_advance_lt {c : Char} {cs : Text} (h : l.source = c :: cs) :
    l.advance.source.length < l.source.length := by
  simp [advance, h]

theorem length_takeWhile_lt {c : Char} {cs : Text} (h : l.source = c :: cs) {pred : Char → Bool}
    (hc : pred c = true) : (l.takeWhile pred).2.source.length < l.source.length := by
  have : (cs.dropWhile pred).length ≤ cs.length := (List.dropWhile_sublist pred).length_le
  simp only [takeWhile, h, List.dropWhile_cons, hc, if_true, List.length_cons]
  omega

/-- How a lexing function may end: with a token and fewer characters left, or with a diagnostic. -/
def Advances (l : Lexer) (r : Except Stop (Token × Lexer)) : Prop :=
  match r with
  | .ok (t, l') => l'.source.length < l.source.length ∧ t.kind ≠ .newline ∧ t.kind ≠ .sourceEnd
  | .error s => ∃ e, s = .error e

/-- A word after its mark. -/
theorem advances_marked {c : Char} {cs : Text} (h : l.source = c :: cs) {kind : TokenKind}
    {text : Text} {message : String} (hn : kind ≠ .newline) (he : kind ≠ .sourceEnd) :
    Advances l (if (l.advance.takeWhile isIdentChar).1 = [] then
      .error ((l.advance.takeWhile isIdentChar).2.error message)
    else .ok (l.make kind text, (l.advance.takeWhile isIdentChar).2)) := by
  split_ifs
  · exact ⟨_, rfl⟩
  · exact ⟨(l.advance.length_takeWhile_le isIdentChar).trans_lt (length_advance_lt h), hn, he⟩

theorem advances_guardToken {c : Char} {cs : Text} (h : l.source = c :: cs) :
    Advances l l.guardToken := by
  have hlt := length_advance_lt h
  have h1 := l.advance.length_takeWhile_le isIdentChar
  have h2 := l.advance.advance.length_takeWhile_le isIdentChar
  have h3 := l.advance.length_advance_le
  unfold guardToken
  simp only []
  split_ifs
  · exact ⟨_, rfl⟩
  · exact ⟨h2.trans_lt (h3.trans_lt hlt), nofun, nofun⟩
  · exact ⟨_, rfl⟩
  · exact ⟨h1.trans_lt hlt, nofun, nofun⟩

theorem length_fraction_le (l : Lexer) : l.fraction.2.source.length ≤ l.source.length := by
  unfold fraction
  split_ifs
  · exact (length_takeWhile_le _ _).trans l.length_advance_le
  · exact Nat.le_refl _

theorem length_exponentSign_le (l : Lexer) : l.exponentSign.2.source.length ≤ l.source.length := by
  unfold exponentSign
  split_ifs
  · exact l.length_advance_le
  · exact Nat.le_refl _

theorem exponent_spec (l : Lexer) : match l.exponent with
    | .ok (_, l') => l'.source.length ≤ l.source.length
    | .error s => ∃ e, s = .error e := by
  have h1 := l.length_advance_le
  have h2 := l.advance.length_exponentSign_le
  have h3 := l.advance.exponentSign.2.length_takeWhile_le Char.isDigit
  unfold exponent
  simp only []
  split_ifs
  · exact ⟨_, rfl⟩
  · simp only []
    omega
  · exact Nat.le_refl _

theorem advances_decimal {c : Char} {cs : Text} (h : l.source = c :: cs) (hc : c.isDigit = true) :
    Advances l l.decimal := by
  have h1 := length_takeWhile_lt h hc
  have h2 := (l.takeWhile Char.isDigit).2.length_fraction_le
  have h3 := exponent_spec (l.takeWhile Char.isDigit).2.fraction.2
  unfold decimal
  simp only []
  rcases he : (l.takeWhile Char.isDigit).2.fraction.2.exponent with s | ⟨x, l₃⟩ <;> rw [he] at h3
  · exact h3
  · simp only [ok_bind]
    split_ifs
    · exact ⟨_, rfl⟩
    · exact ⟨h3.trans_lt (h2.trans_lt h1), nofun, nofun⟩
    · exact ⟨h3.trans_lt (h2.trans_lt h1), nofun, nofun⟩

theorem advances_number {c : Char} {cs : Text} (h : l.source = c :: cs) (hc : c.isDigit = true) :
    Advances l l.number := by
  have h1 := length_advance_lt h
  have h2 := l.advance.length_advance_le
  have h3 := l.advance.advance.length_takeWhile_le isHexDigit
  unfold number
  simp only []
  split_ifs
  · exact ⟨_, rfl⟩
  · exact ⟨h3.trans_lt (h2.trans_lt h1), nofun, nofun⟩
  · exact advances_decimal h hc

/-- The characters that are tokens of their own. -/
def punctuation : List (Char × TokenKind) :=
  [(',', .comma), ('[', .lBracket), (']', .rBracket), ('+', .plus), ('-', .minus), (':', .colon)]

/-- The token functions, and the characters that call for them. -/
theorem nextToken_cases {P : Except Stop (Token × Lexer) → Prop} {c : Char}
    (hpunct : ∀ kind, (c, kind) ∈ punctuation → P (.ok (l.punct kind c)))
    (hdirective : c = '.' → P l.directive) (hguard : c = '@' → P l.guardToken)
    (hspecial : c = '%' → P l.special)
    (hident : isIdentStart c = true →
      P (.ok (l.make .identifier (l.takeWhile isIdentChar).1, (l.takeWhile isIdentChar).2)))
    (hnumber : c.isDigit = true → P l.number)
    (hother : c ≠ '.' → c ≠ '@' → c ≠ '%' → ¬c.isDigit = true → ∀ m, P (.error (l.error m))) :
    P (l.nextToken c) := by
  have hmember : ∀ {d : Char} (kind : TokenKind), (d, kind) ∈ punctuation → c = d →
      P (.ok (l.punct kind c)) := fun kind hmem hc => hpunct kind (hc ▸ hmem)
  unfold nextToken
  refine iteInduction (hmember .comma (by decide)) fun _ => ?_
  refine iteInduction (hmember .lBracket (by decide)) fun _ => ?_
  refine iteInduction (hmember .rBracket (by decide)) fun _ => ?_
  refine iteInduction (hmember .plus (by decide)) fun _ => ?_
  refine iteInduction (hmember .minus (by decide)) fun _ => ?_
  refine iteInduction (hmember .colon (by decide)) fun _ => ?_
  refine iteInduction hdirective fun hd => iteInduction hguard fun hg =>
    iteInduction hspecial fun hs => ?_
  exact iteInduction hident fun _ => iteInduction hnumber fun hn => hother hd hg hs hn _

theorem advances_nextToken {c : Char} {cs : Text} (h : l.source = c :: cs) :
    Advances l (l.nextToken c) := by
  refine nextToken_cases (fun kind hk => ?_) (fun _ => advances_marked h nofun nofun)
    (fun _ => advances_guardToken h) (fun _ => advances_marked h nofun nofun)
    (fun hident => ?_) (fun hdigit => advances_number h hdigit) fun _ _ _ _ _ => ⟨_, rfl⟩
  · have hkinds : ∀ p ∈ punctuation, p.2 ≠ .newline ∧ p.2 ≠ .sourceEnd := by decide
    exact ⟨length_advance_lt h, hkinds _ hk⟩
  · refine ⟨length_takeWhile_lt h ?_, nofun, nofun⟩
    unfold isIdentChar
    rcases Bool.or_eq_true_iff.1 hident with ha | ha <;> simp [Char.isAlphanum, ha]

/-- With fuel for every character the lexer ends, and no token is the end. -/
theorem tokens_spec : ∀ (fuel : Nat) (l : Lexer), l.source.length < fuel → match l.tokens fuel with
    | .ok (ts, _) => ∀ t ∈ ts, t.kind ≠ .sourceEnd
    | .error s => ∃ e, s = .error e
  | fuel + 1, l, hfuel => by
    rw [tokens]
    rcases hs : l.source with _ | ⟨c, cs⟩
    · simp
    · simp only []
      have hlt : ∀ {l' : Lexer}, l'.source.length < l.source.length → l'.source.length < fuel :=
        fun h => by omega
      split_ifs with hnl hblank hcomment
      · have h := tokens_spec fuel l.newLine (hlt (by simp [newLine, hs]))
        rcases hx : l.newLine.tokens fuel with s | ⟨ts, l'⟩ <;> rw [hx] at h
        · exact h
        · exact List.forall_mem_cons.2 ⟨nofun, h⟩
      · exact tokens_spec fuel l.advance (hlt (length_advance_lt hs))
      · exact tokens_spec fuel _ (hlt (length_takeWhile_lt hs (by rw [hcomment.1]; decide)))
      · have hnext := advances_nextToken hs
        rcases hx : l.nextToken c with s | ⟨t, l'⟩ <;> rw [hx] at hnext
        · exact hnext
        · have h := tokens_spec fuel l' (hlt hnext.1)
          rw [ok_bind]
          rcases hx : l'.tokens fuel with s | ⟨ts, l''⟩ <;> rw [hx] at h
          · exact h
          · exact List.forall_mem_cons.2 ⟨hnext.2.2, h⟩

end Lexer

/-- Tokens before a final newline and the end. -/
theorem ended_of_newline {e n : Token} (he : e.kind = .sourceEnd) (hn : n.kind = .newline) :
    ∀ {ts : List Token}, (∀ t ∈ ts, t.kind ≠ .sourceEnd) → Ended (ts ++ [n, e])
  | [], _ => .cons (by rw [hn]; decide) (fun _ => hn) (.last he)
  | t :: ts, h => .cons (h t List.mem_cons_self) (fun hl => by simp at hl)
    (ended_of_newline he hn fun u hu => h u (List.mem_cons_of_mem _ hu))

/-- The lexer ends on every text, and delivers tokens that end as the parser expects. -/
theorem lex_spec (source : Text) : match lex source with
    | .ok ts => Ended ts
    | .error s => ∃ e, s = .error e := by
  have h := Lexer.tokens_spec (source.length + 1) { source := source } (Nat.lt_succ_self _)
  rw [lex]
  rcases hx : Lexer.tokens (source.length + 1) { source := source } with s | ⟨ts, l⟩ <;>
    rw [hx] at h
  · exact h
  · rw [ok_bind]
    simp only []
    split_ifs with hlast
    · obtain ⟨n, hn, hk⟩ := Option.map_eq_some_iff.1 hlast
      obtain ⟨us, rfl⟩ := List.getLast?_eq_some_iff.1 hn
      rw [List.append_assoc]
      exact ended_of_newline rfl hk fun t ht => h t (List.mem_append_left _ ht)
    · rw [List.append_assoc]
      exact ended_of_newline rfl rfl h

end WarpSim
