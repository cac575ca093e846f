import WarpSim.Proofs.Language
import WarpSim.Proofs.Relabel

/-!
# Where diagnostics point

A failure has a place in the text: where a token breaks off, where the token stands that the
parser refuses, or the beginning (`FailsAt`). Its diagnostic has the position of that place in the
32-bit counters of the lexer, so it points into the text exactly if they have not wrapped there to
a wrong one (`Counts`). Only the last pass reports a failure that has no place.
-/

namespace WarpSim

open Check

section Places

/-- Where a token stands: the characters of the tokens before it are those that the text keeps
before it, and the tokens that end the text stand at its end. -/
def tokenPlace (source : Text) (ts : List Token) (j : Nat) : Nat :=
  ((kept 0 false source)[((ts.take j).map fun t => t.spelling.length).sum]?.map Prod.snd).getD
    source.length

/-- The place of a text where assembling it fails. -/
inductive FailsAt (C : FloatChars) (source : Text) : Nat → Prop
  /-- The lexer comes to a character that begins a token, and finds none. -/
  | lexer {ts : List Token} {l : Lexer} {c : Char} {cs : Text}
      (scan : Lexer.Scan { source := source } ts l) (h : l.source = c :: cs) (hn : c ≠ '\n')
      (hb : Lexer.isBlank c = false) (hc : ¬(c = '/' ∧ l.peek 1 = '/'))
      (hno : ∀ x, l.nextToken c ≠ .ok x) :
      FailsAt C source (source.length - (l.stop c).source.length)
  /-- The tokens are refused at the `j`-th of them, whatever positions they have. -/
  | token {ts : List Token} {j : Nat} (hlex : lex source = .ok ts)
      (h : ∀ position, ∃ message, assembleTokens C (relabel position ts)
        = .error (.error ⟨(position j).1, (position j).2, message⟩)) :
      FailsAt C source (tokenPlace source ts j)
  /-- There is no `.entry`, or there are too many instructions. -/
  | start {ts : List Token} (hlex : lex source = .ok ts)
      (h : ∀ position, ∃ message, assembleTokens C (relabel position ts)
        = .error (.error ⟨1, 1, message⟩)) : FailsAt C source 0

/-- Counters of 32 bits have at a place a position that the text has: the line and the column are
no multiples of 2^32, and where the lines are past 2^32, the column fits the line they seem to
be. -/
structure Counts (source : Text) (k : Nat) : Prop where
  line : lineAt (source.take k) % 2 ^ 32 ≠ 0
  column : columnAt (source.take k) % 2 ^ 32 ≠ 0
  fits : 2 ^ 32 ≤ lineAt (source.take k) → columnAt (source.take k) % 2 ^ 32
    ≤ (nthLine (lineAt (source.take k) % 2 ^ 32 - 1) source).length + 1

/-- A text that 32 bits number is counted all through. -/
theorem counts_of_numbered {source : Text} (h : Numbered source) (k : Nat) : Counts source k := by
  have hline := lineAt_lt h k
  have hcolumn := columnAt_lt h k
  refine ⟨?_, ?_, fun hle => absurd hline (Nat.not_lt.2 hle)⟩
  · rw [Nat.mod_eq_of_lt hline]
    exact Nat.succ_ne_zero _ ∘ (Nat.add_comm _ _).trans
  · rw [Nat.mod_eq_of_lt hcolumn]
    exact Nat.succ_ne_zero _ ∘ (Nat.add_comm _ _).trans

/-- A diagnostic has the position of a place, modulo 2^32. -/
def AssemblyError.Reports (e : AssemblyError) (source : Text) (k : Nat) : Prop :=
  e.line = BitVec.ofNat 32 (lineAt (source.take k))
    ∧ e.column = BitVec.ofNat 32 (columnAt (source.take k))

end Places

section Lines

theorem columnAt_append_line (before line : Text) :
    columnAt (before ++ '\n' :: line) = columnAt line := by
  induction line using List.reverseRecOn with
  | nil => rw [columnAt_append_newline, columnAt_nil]
  | append_singleton line c ih =>
    rw [← List.cons_append, ← List.append_assoc]
    by_cases hc : c = '\n'
    · rw [hc, columnAt_append_newline, columnAt_append_newline]
    · have hn : '\n' ∉ [c] := fun h => hc (List.mem_singleton.1 h).symm
      rw [columnAt_append hn, columnAt_append hn, ih]

theorem takeWhile_line {a : Text} (ha : '\n' ∉ a) (b : Text) :
    (a ++ b).takeWhile (· != '\n') = a ++ b.takeWhile (· != '\n') :=
  List.takeWhile_append_of_pos fun c hc => by
    have : c ≠ '\n' := fun hn => ha (hn ▸ hc)
    simpa using this

theorem dropWhile_line {a : Text} (ha : '\n' ∉ a) (b : Text) :
    (a ++ b).dropWhile (· != '\n') = b.dropWhile (· != '\n') :=
  List.dropWhile_append_of_pos fun c hc => by
    have : c ≠ '\n' := fun hn => ha (hn ▸ hc)
    simpa using this

theorem columnAt_le_nthLine : ∀ (n : Nat) (before rest : Text), before.count '\n' = n →
    columnAt before ≤ (nthLine n (before ++ rest)).length + 1
  | 0, before, rest, h => by
    have hn : '\n' ∉ before := List.count_eq_zero.1 h
    have hcol := columnAt_append hn []
    rw [List.nil_append, columnAt_nil] at hcol
    rw [hcol, nthLine, takeWhile_line hn, List.length_append]
    omega
  | n + 1, before, rest, h => by
    have hmem : '\n' ∈ before := List.count_pos_iff.1 (by omega)
    obtain ⟨a, b, rfl, ha⟩ := List.eq_append_cons_of_mem hmem
    rw [List.count_append, List.count_eq_zero.2 ha, List.count_cons_self] at h
    have ih := columnAt_le_nthLine n b rest (by omega)
    have hdrop : ('\n' :: (b ++ rest)).dropWhile (· != '\n') = '\n' :: (b ++ rest) :=
      List.dropWhile_cons_of_neg (by decide)
    rwa [columnAt_append_line, List.append_assoc, List.cons_append, nthLine,
      dropWhile_line ha, hdrop, List.tail_cons]

/-- The position of a place is one of the text exactly if it is counted right. -/
theorem positioned_iff {source : Text} {e : AssemblyError} {k : Nat} (h : e.Reports source k) :
    Positioned source e ↔ Counts source k := by
  have hle := lineAt_take_le source k
  have hcol := columnAt_le_nthLine _ (source.take k) (source.drop k) rfl
  rw [List.take_append_drop] at hcol
  have hline : e.line.toNat = lineAt (source.take k) % 2 ^ 32 := by rw [h.1, BitVec.toNat_ofNat]
  have hcolumn : e.column.toNat = columnAt (source.take k) % 2 ^ 32 := by
    rw [h.2, BitVec.toNat_ofNat]
  unfold Positioned
  rw [hline, hcolumn]
  constructor
  · rintro ⟨h1, -, h2, h3⟩
    exact ⟨Nat.ne_of_gt h1, Nat.ne_of_gt h2, fun _ => h3⟩
  · intro hc
    refine ⟨Nat.pos_of_ne_zero hc.line, ?_, Nat.pos_of_ne_zero hc.column, ?_⟩
    · exact (Nat.mod_le _ _).trans (hle.trans (Nat.add_comm _ _).le)
    · by_cases hwrap : 2 ^ 32 ≤ lineAt (source.take k)
      · exact hc.fits hwrap
      · rw [Nat.mod_eq_of_lt (Nat.not_le.1 hwrap), lineAt, Nat.add_sub_cancel_left]
        exact (Nat.mod_le _ _).trans hcol

end Lines

section Lexing

variable {C : FloatChars} {source : Text} {ts : List Token}

theorem Lexer.At.length {l : Lexer} {k : Nat} (h : l.At source k) :
    l.At source (source.length - l.source.length) := by
  by_cases hk : k ≤ source.length
  · have : source.length - l.source.length = k := by
      rw [h.rest, List.length_drop]
      omega
    rwa [this]
  · have hnil : l.source = [] := h.rest.trans (List.drop_eq_nil_of_le (Nat.not_le.1 hk).le)
    have htake : source.take k = source.take (source.length - l.source.length) := by
      rw [hnil, List.take_of_length_le (Nat.not_le.1 hk).le]
      exact List.take_length.symm
    refine ⟨?_, htake ▸ h.line, htake ▸ h.column⟩
    rw [hnil]
    exact List.drop_length.symm

theorem Lexer.At.scan {l l' : Lexer} (h : Scan l ts l') :
    ∀ {k : Nat}, l.At source k → ∃ k', l'.At source k' := by
  induction h with
  | refl l => exact fun hat => ⟨_, hat⟩
  | newline hs _ ih => exact fun hat => ih (hat.newLine hs)
  | blank hs hn _ _ ih => exact fun hat => ih (hat.moves (.advance hs) (newline_notMem_single hn))
  | comment hs _ ih =>
    exact fun hat => ih (hat.moves (.takeWhile _ _) (newline_notMem_takeWhile _ (by decide)))
  | token hs hn hb hc ht _ ih =>
    intro k hat
    have hadv := advances_nextToken hs
    have hreads := yields_nextToken hs hn
    rw [ht] at hadv hreads
    obtain ⟨piece, hr⟩ := hreads
    have hsolid := hr.covers.solid (spelling_solid hadv.2.1 hr.admits)
    exact ih (hat.moves hr.moves fun h => (hsolid _ h).1 rfl)

theorem Lexer.tokens_error {s : Stop} : ∀ {fuel : Nat} {l : Lexer}, l.source.length < fuel →
    l.tokens fuel = .error s → ∃ (ts : List Token) (l' : Lexer) (c : Char) (cs : Text),
      Scan l ts l' ∧ l'.source = c :: cs ∧ c ≠ '\n' ∧ isBlank c = false
        ∧ ¬(c = '/' ∧ l'.peek 1 = '/') ∧ ∀ x, l'.nextToken c ≠ .ok x
  | fuel + 1, l, hfuel, h => by
    rw [tokens] at h
    rcases hs : l.source with _ | ⟨c, cs⟩ <;> rw [hs] at h <;> simp only [] at h
    · cases h
    · have hlt : ∀ {l' : Lexer}, l'.source.length < l.source.length → l'.source.length < fuel :=
        fun h => by omega
      split_ifs at h with hnl hblank hcomment
      · rcases bind_eq_error.1 h with h | ⟨x, -, h⟩
        · obtain ⟨ts, l', d, ds, hscan, hrest⟩ :=
            tokens_error (hlt (by simp [newLine, hs])) h
          exact ⟨_, l', d, ds, .newline (hnl ▸ hs) hscan, hrest⟩
        · cases h
      · obtain ⟨ts, l', d, ds, hscan, hrest⟩ := tokens_error (hlt (length_advance_lt hs)) h
        exact ⟨ts, l', d, ds, .blank hs hnl hblank hscan, hrest⟩
      · obtain ⟨ts, l', d, ds, hscan, hrest⟩ :=
          tokens_error (hlt (length_takeWhile_lt hs (by rw [hcomment.1]; decide))) h
        obtain ⟨rfl, es, rfl⟩ := comment_eq hs hcomment
        exact ⟨ts, l', d, ds, .comment hs hscan, hrest⟩
      · have hb : isBlank c = false := by simpa using hblank
        rcases ht : l.nextToken c with s | ⟨t, l₁⟩ <;> rw [ht] at h
        · exact ⟨[], l, c, cs, .refl l, hs, hnl, hb, hcomment,
            fun x hx => by rw [ht] at hx; cases hx⟩
        · have hadv := advances_nextToken hs
          rw [ht] at hadv
          rw [ok_bind] at h
          rcases bind_eq_error.1 h with h | ⟨x, -, h⟩
          · obtain ⟨ts, l', d, ds, hscan, hrest⟩ := tokens_error (hlt hadv.1) h
            refine ⟨_, l', d, ds, .token hs hnl hb ?_ ht hscan, hrest⟩
            rintro rfl
            cases ht
          · cases h

theorem FailsAt.of_lex {s : Stop} (h : lex source = .error s) : ∃ k, FailsAt C source k := by
  rcases bind_eq_error.1 h with h | ⟨⟨body, l⟩, -, h⟩
  · obtain ⟨ts, l, c, cs, hscan, hs, hn, hb, hc, hno⟩ := Lexer.tokens_error (Nat.lt_succ_self _) h
    exact ⟨_, .lexer hscan hs hn hb hc hno⟩
  · simp only [] at h
    split_ifs at h

/-- Where no token begins, the lexer reports the place where it gives up. -/
theorem lex_error {l : Lexer} {c : Char} {cs : Text} (scan : Lexer.Scan { source := source } ts l)
    (h : l.source = c :: cs) (hn : c ≠ '\n') (hb : Lexer.isBlank c = false)
    (hc : ¬(c = '/' ∧ l.peek 1 = '/')) (hno : ∀ x, l.nextToken c ≠ .ok x) :
    ∃ e : AssemblyError, lex source = .error (.error e)
      ∧ e.Reports source (source.length - (l.stop c).source.length) := by
  obtain ⟨fuel, hfuel, htokens⟩ := scan.tokens_eq (source.length + 1) (Nat.lt_succ_self _)
  obtain ⟨n, rfl⟩ := Nat.exists_eq_succ_of_ne_zero (Nat.ne_zero_of_lt hfuel)
  obtain ⟨k, hat⟩ := (Lexer.at_start source).scan scan
  have hyields := Lexer.yields_nextToken h hn
  rcases hnext : l.nextToken c with s | x
  · rw [hnext] at hyields
    obtain ⟨piece, message, hm, hpiece, rfl⟩ := hyields
    have hstop := (hat.moves hm hpiece).length
    refine ⟨⟨(l.stop c).line, (l.stop c).column, message⟩, ?_, hstop.line, hstop.column⟩
    rw [lex, htokens, Lexer.tokens, h]
    simp only [if_neg hn, hb, Bool.false_eq_true, if_false, if_neg hc, hnext]
    rfl
  · exact absurd hnext (hno x)

end Lexing

section Tokens

variable {source : Text} {ts : List Token}

theorem Token.Covers.length_eq {t : Token} {piece : Text} (h : t.Covers piece) :
    piece.length = t.spelling.length := by
  rcases h.cases with rfl | ⟨a, b, m, m', hs, rfl, -⟩
  · rfl
  · rw [hs]
    simp

theorem flatten_getElem? {body : List Token} {pieces : List (List (Char × Nat))}
    (h : List.Forall₂ (Token.Read source) body pieces) :
    ∀ {j : Nat} {t : Token}, body[j]? = some t →
      ∃ x, pieces.flatten[((body.take j).map fun t => t.spelling.length).sum]? = some x
        ∧ t.line = BitVec.ofNat 32 (lineAt (source.take x.2))
        ∧ t.column = BitVec.ofNat 32 (columnAt (source.take x.2)) := by
  induction h with
  | nil => nofun
  | @cons t piece body pieces hr _ ih =>
    rintro (_ | j) u hu
    · obtain rfl := Option.some.inj hu
      obtain ⟨x, hx, hpos⟩ := hr.position
      obtain ⟨rest, rfl⟩ := List.head?_eq_some_iff.1 hx
      exact ⟨x, rfl, hpos⟩
    · obtain ⟨x, hx, hpos⟩ := ih hu
      have hlength : piece.length = t.spelling.length := by
        rw [← hr.covers.length_eq, List.length_map]
      refine ⟨x, ?_, hpos⟩
      rw [List.take_succ_cons, List.map_cons, List.sum_cons, List.flatten_cons, ← hlength,
        List.getElem?_append_right (Nat.le_add_right _ _), Nat.add_sub_cancel_left, hx]

theorem length_flatten {body : List Token} {pieces : List (List (Char × Nat))}
    (h : List.Forall₂ (Token.Read source) body pieces) :
    pieces.flatten.length = (body.map fun t => t.spelling.length).sum := by
  induction h with
  | nil => rfl
  | cons hr _ ih =>
    rw [List.flatten_cons, List.length_append, ih, List.map_cons, List.sum_cons,
      ← hr.covers.length_eq, List.length_map]

/-- Tokens have the position of their place, modulo 2^32. -/
theorem lex_places (h : lex source = .ok ts) {j : Nat} {t : Token} (ht : ts[j]? = some t) :
    t.line = BitVec.ofNat 32 (lineAt (source.take (tokenPlace source ts j)))
      ∧ t.column = BitVec.ofNat 32 (columnAt (source.take (tokenPlace source ts j))) := by
  obtain ⟨body, supplied, e, pieces, rfl, hall, hflat, hsup, -, -, hline, hcolumn⟩ := lex_reads h
  unfold tokenPlace
  rw [← hflat]
  by_cases hj : j < body.length
  · rw [List.append_assoc, List.getElem?_append_left hj] at ht
    rw [List.append_assoc, List.take_append_of_le_length hj.le]
    obtain ⟨x, hx, hpos⟩ := flatten_getElem? hall ht
    rw [hx]
    exact hpos
  · -- The newline that is supplied and the end stand at the end of the text.
    have hnone : pieces.flatten[(((body ++ supplied ++ [e]).take j).map
        fun t => t.spelling.length).sum]? = none := by
      refine List.getElem?_eq_none ?_
      rw [length_flatten hall, List.append_assoc, List.take_append,
        List.take_of_length_le (Nat.not_lt.1 hj), List.map_append, List.sum_append]
      exact Nat.le_add_right _ _
    rw [hnone]
    have hwhole : source.take source.length = source := List.take_length
    rw [Option.map_none, Option.getD_none, hwhole]
    rw [List.append_assoc, List.getElem?_append_right (Nat.not_lt.1 hj)] at ht
    rcases List.mem_append.1 (List.mem_of_getElem? ht) with ht | ht
    · split_ifs at hsup
      · exact absurd ht (hsup ▸ List.not_mem_nil)
      · obtain ⟨n, rfl, -, -, hl, hc⟩ := hsup
        rw [List.mem_singleton.1 ht, hl, hc]
        exact ⟨hline, hcolumn⟩
    · rw [List.mem_singleton.1 ht]
      exact ⟨hline, hcolumn⟩

theorem lt_length_of_blamed {C : FloatChars} {j : Nat} (h : ∀ position, ∃ message,
    assembleTokens C (relabel position ts)
      = .error (.error ⟨(position j).1, (position j).2, message⟩)) : j < ts.length := by
  by_contra hj
  obtain ⟨m, h0⟩ := h fun _ => (0, 0)
  obtain ⟨m', h1⟩ := h fun i => if i = j then (1, 1) else (0, 0)
  have hsame : relabel (fun i => if i = j then (1, 1) else (0, 0)) ts
    = relabel (fun _ => (0, 0)) ts :=
    relabel_congr fun i hi => if_neg (Nat.ne_of_lt (hi.trans_le (Nat.not_lt.1 hj)))
  rw [hsame, h0] at h1
  simp at h1

end Tokens

section Diagnostics

variable {C : FloatChars} {source : Text} {ts : List Token} {ls : Source} {e : AssemblyError}

/-- A defined label that has no instruction after it is behind the last one. -/
theorem Source.trailing_of_not_resolved (hls : ls.WellFormed) (hname : ls.entry ≠ [])
    (hlen : ls.statements.length ≤ 65535) (hdef : ls.Defined) (hout : ¬ls.Resolved) :
    ls.Trailing := by
  refine ⟨hls, hname, hlen, hdef, ?_⟩
  by_contra hno
  refine hout fun st hst name hn => ?_
  obtain ⟨n, hlookup⟩ := Option.ne_none_iff_exists'.1 (hdef st hst name hn)
  refine ⟨n, hlookup, lt_of_le_of_ne (lookup_le hlookup) fun heq => hno ⟨st, hst, name, hn, ?_⟩⟩
  rw [hlookup, heq]

theorem Source.Trailing.not_resolved (h : ls.Trailing) : ¬ls.Resolved := by
  intro hres
  obtain ⟨st, hst, name, hn, hlookup⟩ := h.trailing
  obtain ⟨n, hn', hlt⟩ := hres st hst name hn
  rw [hlookup] at hn'
  exact absurd (Option.some.inj hn') (Nat.ne_of_gt hlt)

/-- The lines of a text that lexes, and how they end. -/
structure Parsed (C : FloatChars) (ts : List Token) (ls : Source) (g : Parser.Unplaced) : Prop where
  spells : SpellsLines C ts ls
  wellFormed : ls.WellFormed
  agrees : Agrees ls (g.view (positions ts))
  assembles : ∀ position, assembleTokens C (relabel position ts) = (g.view position).finish

theorem ready_of_lex (hlex : lex source = .ok ts) :
    Ready (fun _ => True) [] { tokens := ts } := by
  have hlexed := lex_spec source
  rw [hlex] at hlexed
  exact ⟨hlexed, fun _ _ _ => trivial, rfl⟩

theorem parsed_of_lines {g : Parser.Unplaced} (hlex : lex source = .ok ts)
    (h : ∀ position, Parser.lines C (ts.length + 1) { tokens := relabel position ts }
        = .ok ((), g.view position)
      ∧ assembleTokens C (relabel position ts) = (g.view position).finish) :
    ∃ ls, Parsed C ts ls g := by
  have hown := (h (positions ts)).1
  rw [relabel_positions] at hown
  obtain ⟨h1, -, -⟩ := Parser.lines_spec (C := C) (ts.length + 1) { tokens := ts }
    (ready_of_lex hlex) (Nat.lt_succ_self _)
  obtain ⟨ls, hspells, hallow, us, hs⟩ := h1 _ hown
  have hwell := (allowsAll_iff ls (agrees_nil ts) Source.wellFormed_nil).1 hallow
  refine ⟨ls, hspells, hwell, ?_, fun position => (h position).2⟩
  have hagrees := agrees_applyAll ls (agrees_nil ts) hwell
  rw [hs]
  exact { hagrees with }

/-- Where the lines do not end in a branch behind the last instruction, a failure has a place. -/
theorem Parsed.failsAt {g : Parser.Unplaced} (hlex : lex source = .ok ts) (h : Parsed C ts ls g)
    (hno : ¬ls.Trailing) (he : assembleTokens C ts = .error (.error e)) :
    ∃ k, FailsAt C source k := by
  have hown := h.assembles (positions ts)
  rw [relabel_positions, he] at hown
  cases Parser.finish_view g with
  | start message hstart =>
    exact ⟨0, .start hlex fun position => ⟨message, (h.assembles position).trans (hstart position)⟩⟩
  | unresolved hblame _ hfinish =>
    cases hblame with
    | token j message =>
      exact ⟨_, .token hlex fun position =>
        ⟨message, (h.assembles position).trans (hfinish position)⟩⟩
    | stuck hs =>
      rw [hfinish] at hown
      exact absurd (Except.error.inj hown).symm (hs e)
  | resolved hname hlen hfold hfinish =>
    have hwords : g.program.words.length = ls.statements.length := h.agrees.length_words
    cases finish_cases h.wellFormed h.agrees h.spells.info with
    | unnamed hentry _ => exact absurd (h.agrees.entry.trans hentry) hname
    | long _ hlong _ => exact absurd hlen (Nat.not_le.2 (hwords ▸ hlong))
    | undefined _ _ _ hfold' _ =>
      have := (hfold (positions ts)).symm.trans hfold'
      cases this
    | outside hentry hsmall hdef hout _ _ =>
      exact absurd (Source.trailing_of_not_resolved h.wellFormed hentry hsmall hdef hout) hno
    | done _ _ hok =>
      have := hown.trans hok
      cases this

/-- A branch behind the last instruction is reported at line 0 and column 0, wherever the tokens
stand. -/
theorem Parsed.nowhere {g : Parser.Unplaced} (h : Parsed C ts ls g) (ht : ls.Trailing) :
    ∃ message, ∀ position, assembleTokens C (relabel position ts)
      = .error (.error ⟨0, 0, message⟩) := by
  cases finish_cases h.wellFormed h.agrees h.spells.info with
  | unnamed hentry _ => exact absurd hentry ht.named
  | long _ hlong _ => exact absurd ht.small (Nat.not_le.2 hlong)
  | undefined _ _ hdef _ _ => exact absurd ht.defined hdef
  | done haccept _ _ => exact absurd haccept.resolved ht.not_resolved
  | @outside words message _ _ _ _ hfold hfinish =>
    refine ⟨message, fun position => ?_⟩
    rw [h.assembles]
    cases Parser.finish_view g with
    | start message' hstart =>
      have := (hstart (positions ts)).symm.trans hfinish
      simp at this
    | unresolved _ hfold' _ =>
      have := (hfold' (positions ts)).symm.trans hfold
      cases this
    | resolved _ _ _ hall => rw [hall, ← hall (positions ts), hfinish]

theorem BranchesPastEnd.nowhere (h : BranchesPastEnd C source) :
    ∃ (ts : List Token) (message : String), lex source = .ok ts
      ∧ ∀ position, assembleTokens C (relabel position ts)
        = .error (.error ⟨0, 0, message⟩) := by
  obtain ⟨ts, ls, hlex, hspells, htrailing⟩ := h
  obtain ⟨-, h2, -⟩ := Parser.lines_spec (C := C) (ts.length + 1) { tokens := ts }
    (ready_of_lex hlex) (Nat.lt_succ_self _)
  obtain ⟨us, hrun⟩ := h2 ls hspells
    ((allowsAll_iff ls (agrees_nil ts) Source.wellFormed_nil).2 htrailing.follows)
  rcases Parser.assembleTokens_relabel C ts with ⟨g, hg⟩ | ⟨blamed, -, hfails⟩
  · obtain ⟨ls', hparsed⟩ := parsed_of_lines hlex hg
    obtain ⟨message, hall⟩ := hparsed.nowhere (hspells.unique hparsed.spells ▸ htrailing)
    exact ⟨ts, message, hlex, hall⟩
  · have hown := (hfails (positions ts)).1
    rw [relabel_positions, hrun] at hown
    cases hown

theorem assemble_of_lex (hlex : lex source = .ok ts) :
    assemble C source = assembleTokens C ts := by rw [assemble_eq, hlex, ok_bind]

theorem FailsAt.reports {k : Nat} (h : FailsAt C source k)
    (he : assemble C source = .error (.error e)) : e.Reports source k := by
  cases h with
  | lexer scan hs hn hb hc hno =>
    obtain ⟨e', hlex, hpos⟩ := lex_error scan hs hn hb hc hno
    rw [assemble_eq, hlex] at he
    cases he
    exact hpos
  | @token ts j hlex h =>
    obtain ⟨message, hown⟩ := h (positions ts)
    rw [relabel_positions, ← assemble_of_lex hlex, he] at hown
    cases hown
    have ht := List.getElem?_eq_getElem (lt_length_of_blamed h)
    rw [positions, ht]
    exact lex_places hlex ht
  | @start ts hlex h =>
    obtain ⟨message, hown⟩ := h (positions ts)
    rw [relabel_positions, ← assemble_of_lex hlex, he] at hown
    cases hown
    exact ⟨rfl, rfl⟩

theorem BranchesPastEnd.not_failsAt (h : BranchesPastEnd C source) {k : Nat} :
    ¬FailsAt C source k := by
  obtain ⟨ts, message, hlex, hall⟩ := h.nowhere
  have hone := hall fun _ => (1, 1)
  intro hk
  cases hk with
  | lexer scan hs hn hb hc hno =>
    obtain ⟨e', hlex', -⟩ := lex_error scan hs hn hb hc hno
    rw [hlex] at hlex'
    cases hlex'
  | token hlex' h | start hlex' h =>
    obtain rfl := Except.ok.inj (hlex.symm.trans hlex')
    obtain ⟨message', h⟩ := h fun _ => (1, 1)
    rw [hone] at h
    simp at h

theorem exists_failsAt (he : assemble C source = .error (.error e))
    (hno : ¬BranchesPastEnd C source) : ∃ k, FailsAt C source k := by
  rcases hlex : lex source with s | ts
  · exact FailsAt.of_lex hlex
  rw [assemble_of_lex hlex] at he
  rcases Parser.assembleTokens_relabel C ts with ⟨g, hg⟩ | ⟨blamed, hblame, hfails⟩
  · obtain ⟨ls, hparsed⟩ := parsed_of_lines hlex hg
    exact hparsed.failsAt hlex (fun ht => hno ⟨ts, ls, hlex, hparsed.spells, ht⟩) he
  · cases hblame with
    | token j message =>
      exact ⟨_, .token hlex fun position => ⟨message, (hfails position).2⟩⟩
    | stuck hs =>
      have hown := (hfails (positions ts)).2
      rw [relabel_positions, he] at hown
      exact absurd (Except.error.inj hown).symm (hs e)

theorem BranchesPastEnd.line (h : BranchesPastEnd C source)
    (he : assemble C source = .error (.error e)) : e.line = 0 := by
  obtain ⟨ts, message, hlex, hall⟩ := h.nowhere
  have hown := hall (positions ts)
  rw [relabel_positions, ← assemble_of_lex hlex, he] at hown
  cases hown
  rfl

/-- A diagnostic points into the text exactly if the failure has a place there at which the
counters are right. It has a place unless it is that of a branch behind the last instruction, and
in a text that 32 bits number the counters are right everywhere. -/
theorem assemble_positioned (C : FloatChars) (source : Text) (e : AssemblyError)
    (h : assemble C source = .error (.error e)) :
    (Positioned source e ↔ ∃ k, FailsAt C source k ∧ Counts source k)
      ∧ ((∃ k, FailsAt C source k) ↔ ¬BranchesPastEnd C source)
      ∧ (Numbered source → (Positioned source e ↔ ¬BranchesPastEnd C source)) := by
  have hpast : Positioned source e → ¬BranchesPastEnd C source := fun hpos hpast =>
    absurd hpos.1 (by rw [hpast.line h]; decide)
  have hcounted : ∀ {k : Nat}, FailsAt C source k → (Positioned source e ↔ Counts source k) :=
    fun hk => positioned_iff (hk.reports h)
  refine ⟨⟨fun hpos => ?_, fun ⟨k, hk, hcounts⟩ => (hcounted hk).2 hcounts⟩,
    ⟨fun ⟨k, hk⟩ hpast => hpast.not_failsAt hk, exists_failsAt h⟩,
    fun hnum => ⟨hpast, fun hno => ?_⟩⟩
  · obtain ⟨k, hk⟩ := exists_failsAt h (hpast hpos)
    exact ⟨k, hk, (hcounted hk).1 hpos⟩
  · obtain ⟨k, hk⟩ := exists_failsAt h hno
    exact (hcounted hk).2 (counts_of_numbered hnum k)

def reports {α : Type} (p : AssemblyError → Bool) : Except Stop α → Bool
  | .error (.error e) => p e
  | _ => false

theorem exists_of_reports {α : Type} {p : AssemblyError → Bool} {x : Except Stop α}
    (h : reports p x = true) : ∃ e, x = .error (.error e) ∧ p e = true := by
  rcases x with (_ | _ | _ | e) | a
  all_goals first
    | exact ⟨_, rfl, h⟩
    | cases h

/-- A branch to a label that is not defined. -/
theorem assemble_positioned_undefined :
    ∃ e, assemble bitChars ".entry k\nexit\n  bra m\n".toList = .error (.error e)
      ∧ (e.line = 3 ∧ e.column = 7)
      ∧ Positioned ".entry k\nexit\n  bra m\n".toList e := by
  obtain ⟨e, he, hpos⟩ := exists_of_reports (p := fun e => e.line = 3 ∧ e.column = 7)
    (x := assemble bitChars ".entry k\nexit\n  bra m\n".toList) (by decide +kernel)
  have hpos := of_decide_eq_true hpos
  have hnum : Numbered ".entry k\nexit\n  bra m\n".toList := by
    refine ⟨by decide, fun line hline _ => ?_⟩
    have hlen : line.length ≤ 22 := hline.length_le.trans (by decide)
    omega
  have hno : ¬BranchesPastEnd bitChars ".entry k\nexit\n  bra m\n".toList := fun hpast =>
    absurd (hpast.line he) (by rw [hpos.1]; decide)
  exact ⟨e, he, hpos, ((assemble_positioned bitChars _ e he).2.2 hnum).2 hno⟩

/-- Behind 2^32 - 1 newlines a character that begins no token is reported at line 0. -/
example : ∃ e : AssemblyError,
    lex (List.replicate (2 ^ 32 - 1) '\n' ++ ['?']) = .error (.error e) ∧ e.line = 0 := by
  have hscan : ∀ (n : Nat) (l : Lexer), l.source = List.replicate n '\n' ++ ['?'] →
      ∃ ts l', Lexer.Scan l ts l' ∧ l'.source = ['?'] := by
    intro n
    induction n with
    | zero => exact fun l hl => ⟨[], l, .refl l, hl⟩
    | succ n ih =>
      intro l hl
      obtain ⟨ts, l', hscan, hl'⟩ := ih l.newLine (by rw [Lexer.newLine, hl]; rfl)
      exact ⟨_, l', .newline (by rw [hl]; rfl) hscan, hl'⟩
  obtain ⟨ts, l, hscan, hl⟩ := hscan (2 ^ 32 - 1) { source := _ } rfl
  have hstop : l.stop '?' = l := rfl
  obtain ⟨e, he, hline, -⟩ := lex_error hscan hl (by decide) (by decide) (by simp) nofun
  refine ⟨e, he, ?_⟩
  rw [hline, hstop, hl, List.length_append, List.length_replicate]
  have htake : (List.replicate (2 ^ 32 - 1) '\n' ++ ['?']).take (2 ^ 32 - 1)
      = List.replicate (2 ^ 32 - 1) '\n' := List.take_left' (by rw [List.length_replicate])
  rw [Nat.add_sub_cancel, htake, lineAt, List.count_replicate_self]
  rfl

/-- A branch to the end of the text is reported at line 0 and column 0. -/
theorem assemble_branch_past_end :
    ¬∀ (C : FloatChars) (source : Text) (e : AssemblyError),
      assemble C source = .error (.error e) → Positioned source e := by
  intro hall
  obtain ⟨e, he, hline⟩ := exists_of_reports (p := fun e => e.line = 0)
    (x := assemble bitChars ".entry k\nbra l\nl:\n".toList) (by decide +kernel)
  have hpos := hall _ _ e he
  exact absurd hpos.1 (by rw [of_decide_eq_true hline]; decide)

end Diagnostics

end WarpSim
