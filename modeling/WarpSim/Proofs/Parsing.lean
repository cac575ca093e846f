import WarpSim.Lib.Stateful
import WarpSim.Syntax

/-!
# The parser reads the language

Each parsing function succeeds exactly on the tokens that spell something, with what they spell as
its result and with the tokens after them left. An error is at the position of one of the tokens.
-/

namespace WarpSim

open Stateful

/-- Tokens as the lexer delivers them: the end token last and only there, a newline before it. -/
inductive Ended : List Token → Prop
  | last {e : Token} (he : e.kind = .sourceEnd) : Ended [e]
  | cons {t : Token} {ts : List Token} (ht : t.kind ≠ .sourceEnd)
      (hn : ts.length = 1 → t.kind = .newline) (rest : Ended ts) : Ended (t :: ts)

theorem Ended.ne_nil {ts : List Token} (h : Ended ts) : ts ≠ [] := by
  cases h <;> simp

theorem Ended.tail {t : Token} {ts : List Token} (h : Ended (t :: ts)) (hts : ts ≠ []) :
    Ended ts := by
  cases h with
  | last => exact absurd rfl hts
  | cons _ _ rest => exact rest

theorem Ended.drop : ∀ {ts rest : List Token}, Ended (ts ++ rest) → rest ≠ [] → Ended rest
  | [], _, h, _ => h
  | _ :: ts, rest, h, hr => Ended.drop (h.tail (by simp [hr])) hr

/-- Only the end token has none after it. -/
theorem Ended.rest_ne_nil {t : Token} {ts : List Token} (h : Ended (t :: ts))
    (ht : t.kind ≠ .sourceEnd) : ts ≠ [] := by
  cases h with
  | last he => exact absurd he ht
  | cons _ _ rest => exact rest.ne_nil

/-- The token before the end token is a newline. -/
theorem Ended.before_end {ts us : List Token} {t e : Token} (h : Ended (ts ++ t :: e :: us))
    (he : e.kind = .sourceEnd) : t.kind = .newline := by
  cases h.drop (by simp) with
  | cons ht hn rest =>
    cases rest with
    | last => exact hn rfl
    | cons he' => exact absurd he he'

/-- What the parser relies on: its tokens are those of the lexer, errors at their positions are
expected, and the parameters declared so far are known. -/
structure Ready (Fail : Stop → Prop) (ps : List Text) (s : Parser) : Prop where
  ended : Ended s.tokens
  blame : ∀ t ∈ s.tokens, ∀ m, Fail (.error ⟨t.line, t.column, m⟩)
  params : s.program.params = ps

/-- The tokens of a state are some that spell the result, and then others, which are left. -/
def Consumes {α : Type} (A : List Token → α → Prop) (s : Parser) (a : α) (s' : Parser) : Prop :=
  ∃ ts rest, s.tokens = ts ++ rest ∧ rest ≠ [] ∧ A ts a ∧ s' = { s with tokens := rest }

variable {Fail : Stop → Prop} {ps : List Text} {α β : Type}

theorem Ready.consumes {A : List Token → α → Prop} {s s' : Parser} {a : α}
    (h : Ready Fail ps s) (hc : Consumes A s a s') : Ready Fail ps s' := by
  obtain ⟨ts, rest, hts, hne, -, rfl⟩ := hc
  refine ⟨(hts ▸ h.ended).drop hne, fun t ht => h.blame t ?_, h.params⟩
  rw [hts]
  exact List.mem_append_right _ ht

/-- A parsing function that leaves everything but the tokens as it is. -/
abbrev Reads (Fail : Stop → Prop) (ps : List Text) (x : ParserM α) (A : List Token → α → Prop) :
    Prop := Does (Ready Fail ps) Fail x (Consumes A)

theorem SpellsMagnitude.head {C : FloatChars} {opcode : Opcode} {negative : Bool} {ts : List Token}
    {value : Word} (h : SpellsMagnitude C opcode negative ts value) :
    ∃ t, ts = [t] ∧ (t.kind = .integer ∨ t.kind = .float) := by
  cases h with
  | integer h => exact ⟨_, rfl, .inl h.1⟩
  | float h => exact ⟨_, rfl, .inr h.1⟩

theorem SpellsImmediate.head {C : FloatChars} {opcode : Opcode} {ts : List Token} {value : Word}
    (h : SpellsImmediate C opcode ts value) : ∃ t us, ts = t :: us ∧ t.kind ≠ .identifier := by
  cases h with
  | positive h =>
    obtain ⟨t, rfl, ht⟩ := h.head
    exact ⟨t, [], rfl, by rcases ht with ht | ht <;> rw [ht] <;> decide⟩
  | negative hm h => exact ⟨_, _, rfl, by rw [hm]; decide⟩

namespace Parser

section Reading

variable {x : ParserM α} {A B : List Token → α → Prop}

theorem Reads.iff (h : Reads Fail ps x A) (hr : ∀ ts a, A ts a ↔ B ts a) : Reads Fail ps x B := by
  rwa [show A = B from funext fun ts => funext fun a => propext (hr ts a)] at h

theorem reads_pure (a : α) : Reads Fail ps (pure a) fun ts b => ts = [] ∧ b = a := by
  refine (does_pure a).congr fun s b s' hs => ⟨?_, ?_⟩
  · rintro ⟨rfl, rfl⟩
    exact ⟨[], s'.tokens, rfl, hs.ended.ne_nil, ⟨rfl, rfl⟩, rfl⟩
  · rintro ⟨ts, rest, hts, -, ⟨rfl, rfl⟩, rfl⟩
    rw [List.nil_append] at hts
    exact ⟨rfl, by rw [← hts]⟩

theorem does_then {Pre : Parser → Prop} {f : α → ParserM β} {Q : α → List Token → β → Prop}
    (hpre : ∀ s, Pre s → Ready Fail ps s) (h : Does Pre Fail x (Consumes A))
    (hf : ∀ a, Reads Fail ps (f a) (Q a)) : Does Pre Fail (x >>= f)
      (Consumes fun ts b => ∃ us a vs, A us a ∧ Q a vs b ∧ ts = us ++ vs) := by
  have hafter : ∀ a s, After Pre (Consumes A) a s → Ready Fail ps s :=
    fun a s ⟨r, hr, hc⟩ => (hpre r hr).consumes hc
  refine (does_bind h fun a => (hf a).mono (hafter a)).congr fun s b s'' hs => ⟨?_, ?_⟩
  · rintro ⟨a, s', ⟨us, r₁, h1, -, ha, rfl⟩, ⟨vs, r₂, h2, hne, hb, rfl⟩⟩
    refine ⟨us ++ vs, r₂, ?_, hne, ⟨us, a, vs, ha, hb, rfl⟩, rfl⟩
    rw [h1, show r₁ = vs ++ r₂ from h2, List.append_assoc]
  · rintro ⟨ts, rest, hts, hne, ⟨us, a, vs, ha, hb, rfl⟩, rfl⟩
    rw [List.append_assoc] at hts
    exact ⟨a, _, ⟨us, vs ++ rest, hts, by simp [hne], ha, rfl⟩, vs, rest, rfl, hne, hb, rfl⟩

theorem reads_bind {f : α → ParserM β} {Q : α → List Token → β → Prop} (h : Reads Fail ps x A)
    (hf : ∀ a, Reads Fail ps (f a) (Q a)) :
    Reads Fail ps (x >>= f) fun ts b => ∃ us a vs, A us a ∧ Q a vs b ∧ ts = us ++ vs :=
  does_then (fun _ h => h) h hf

theorem reads_map {g : α → β} (h : Reads Fail ps x A) :
    Reads Fail ps (x >>= fun a => pure (g a)) fun ts b => ∃ a, A ts a ∧ b = g a :=
  Reads.iff (reads_bind h fun a => reads_pure (g a)) fun ts b => by
    constructor
    · rintro ⟨us, a, vs, ha, ⟨rfl, rfl⟩, rfl⟩
      exact ⟨a, by rwa [List.append_nil], rfl⟩
    · rintro ⟨a, ha, rfl⟩
      exact ⟨ts, a, [], ha, ⟨rfl, rfl⟩, (List.append_nil _).symm⟩

/-- What a function of the parser makes of a state with a current token: it takes the token, or it
fails there. -/
def TakesHead (x : ParserM α) (P : Token → α → Prop) (s : Parser) (t : Token) : Prop :=
  (∃ a, P t a ∧ (∀ b, P t b → b = a) ∧ x s = (next >>= fun _ => pure a) s)
    ∨ ((∀ a, ¬P t a) ∧ ∃ m, x s = fail m s)

theorem next_eq {s : Parser} {t : Token} {ts : List Token} (hs : s.tokens = t :: ts)
    (hne : ts ≠ []) : next s = .ok ((), { s with tokens := ts }) := by
  obtain ⟨u, us, rfl⟩ := List.exists_cons_of_ne_nil hne
  rw [show next s = .ok ((), _) from rfl]
  simp only [hs]

theorem take_eq {s : Parser} {t : Token} {ts : List Token} (hs : s.tokens = t :: ts) (hne : ts ≠ [])
    (a : α) : (next >>= fun _ => pure a : ParserM α) s = .ok (a, { s with tokens := ts }) := by
  rw [show (next >>= fun _ => pure a : ParserM α) s = next s >>= fun p => .ok (a, p.2) from rfl,
    next_eq hs hne]
  rfl

theorem get_bind (s : Parser) (f : Parser → ParserM α) : (get >>= f) s = f s s := rfl

theorem cur_bind {s : Parser} {t : Token} {ts : List Token} (hs : s.tokens = t :: ts)
    (f : Token → ParserM α) : (cur >>= f) s = f t s := by
  rw [cur, bind_assoc, get_bind, hs]
  rfl

theorem peek_bind {s : Parser} {t u : Token} {ts : List Token} (hs : s.tokens = t :: u :: ts)
    (f : Token → ParserM α) : (peek >>= f) s = f u s := by
  rw [peek, bind_assoc, get_bind, hs]
  rfl

theorem fail_eq {s : Parser} {t : Token} {ts : List Token} (hs : s.tokens = t :: ts) (m : String) :
    (fail m : ParserM α) s = .error (.error ⟨t.line, t.column, m⟩) := by
  rw [fail, cur_bind hs]
  rfl

theorem does_token {Pre : Parser → Prop} {P : Token → α → Prop}
    (hpre : ∀ s, Pre s → Ready Fail ps s) (hkind : ∀ t a, P t a → t.kind ≠ .sourceEnd)
    (h : ∀ s t ts, Pre s → s.tokens = t :: ts → TakesHead x P s t) :
    Does Pre Fail x (Consumes fun ts a => ∃ t, ts = [t] ∧ P t a) := by
  refine ⟨fun {s a s'} hp => ?_, fun {s e} hp he => ?_⟩ <;> have hs := hpre s hp
  · obtain ⟨t, ts, ht⟩ := List.exists_cons_of_ne_nil hs.ended.ne_nil
    constructor
    · intro hx
      rcases h s t ts hp ht with ⟨b, hb, -, hx'⟩ | ⟨-, m, hx'⟩ <;> rw [hx'] at hx
      · have hne := (ht ▸ hs.ended).rest_ne_nil (hkind t b hb)
        rw [take_eq ht hne] at hx
        cases hx
        exact ⟨[t], ts, ht, hne, ⟨t, rfl, hb⟩, rfl⟩
      · rw [fail_eq ht] at hx
        cases hx
    · rintro ⟨us, rest, hus, hne, ⟨u, rfl, ha⟩, rfl⟩
      rcases h s u rest hp hus with ⟨b, -, hu, hx⟩ | ⟨hno, -⟩
      · rw [hx, hu a ha, take_eq (show s.tokens = u :: rest from hus) hne]
      · exact absurd ha (hno a)
  · obtain ⟨t, ts, ht⟩ := List.exists_cons_of_ne_nil hs.ended.ne_nil
    rcases h s t ts hp ht with ⟨b, hb, -, hx⟩ | ⟨-, m, hx⟩ <;> rw [hx] at he
    · rw [take_eq ht ((ht ▸ hs.ended).rest_ne_nil (hkind t b hb))] at he
      cases he
    · rw [fail_eq ht] at he
      cases he
      exact hs.blame t (ht ▸ List.mem_cons_self) m

theorem reads_token {P : Token → α → Prop} (hkind : ∀ t a, P t a → t.kind ≠ .sourceEnd)
    (h : ∀ s t ts, s.tokens = t :: ts → TakesHead x P s t) :
    Reads Fail ps x fun ts a => ∃ t, ts = [t] ∧ P t a :=
  does_token (fun _ h => h) hkind fun s t ts _ => h s t ts

theorem atKind_bind {s : Parser} {t : Token} {ts : List Token} (hs : s.tokens = t :: ts)
    (kind : TokenKind) (f : Bool → ParserM α) : (atKind kind >>= f) s = f (t.kind == kind) s := by
  unfold atKind
  rw [bind_assoc, cur_bind hs]
  rfl

theorem consumes_head {Q : Token → Prop} (ha : ∀ ts a, A ts a → ∃ t us, ts = t :: us ∧ Q t)
    {s s' : Parser} {t : Token} {ts : List Token} {a : α} (hs : s.tokens = t :: ts)
    (h : Consumes A s a s') : Q t := by
  obtain ⟨us, rest, hus, -, hu, -⟩ := h
  obtain ⟨u, vs, rfl, hq⟩ := ha us a hu
  rw [hs] at hus
  cases hus
  exact hq

theorem consumes_or {s s' : Parser} {a : α} :
    Consumes (fun ts a => A ts a ∨ B ts a) s a s' ↔ Consumes A s a s' ∨ Consumes B s a s' := by
  constructor
  · rintro ⟨ts, rest, h, hne, ha | hb, rfl⟩
    · exact .inl ⟨ts, rest, h, hne, ha, rfl⟩
    · exact .inr ⟨ts, rest, h, hne, hb, rfl⟩
  · rintro (⟨ts, rest, h, hne, ha, rfl⟩ | ⟨ts, rest, h, hne, hb, rfl⟩)
    · exact ⟨ts, rest, h, hne, .inl ha, rfl⟩
    · exact ⟨ts, rest, h, hne, .inr hb, rfl⟩

/-- A choice by the kind of the current token, which what is then read begins with. -/
theorem reads_choice {kind : TokenKind} {y : ParserM α}
    (hx : Does (fun s => Ready Fail ps s ∧ ∀ t ∈ s.tokens.head?, t.kind = kind) Fail x (Consumes A))
    (hy : Reads Fail ps y B) (ha : ∀ ts a, A ts a → ∃ t us, ts = t :: us ∧ t.kind = kind)
    (hb : ∀ ts a, B ts a → ∃ t us, ts = t :: us ∧ t.kind ≠ kind) :
    Reads Fail ps (atKind kind >>= fun c => if c then x else y) fun ts a => A ts a ∨ B ts a := by
  refine ⟨fun {s a s'} hs => ?_, fun {s e} hs he => ?_⟩ <;>
    obtain ⟨t, ts, ht⟩ := List.exists_cons_of_ne_nil hs.ended.ne_nil
  · rw [atKind_bind ht, consumes_or]
    by_cases hk : t.kind = kind
    · rw [if_pos (by simpa using hk), hx.ok ⟨hs, by simpa [ht] using hk⟩]
      exact ⟨.inl, fun h => h.resolve_right fun h => consumes_head hb ht h hk⟩
    · rw [if_neg (by simpa using hk), hy.ok hs]
      exact ⟨.inr, fun h => h.resolve_left fun h => hk (consumes_head ha ht h)⟩
  · rw [atKind_bind ht] at he
    split_ifs at he with hk
    · exact hx.fails ⟨hs, by simpa [ht] using hk⟩ he
    · exact hy.fails hs he

theorem does_next (kind : TokenKind) (hkind : kind ≠ .sourceEnd) :
    Does (fun s => Ready Fail ps s ∧ ∀ t ∈ s.tokens.head?, t.kind = kind) Fail next
      (Consumes fun ts _ => ∃ t, ts = [t] ∧ t.kind = kind) :=
  does_token (fun s h => h.1) (fun t _ ht => ht ▸ hkind) fun s t ts hp hs =>
    .inl ⟨(), hp.2 t (by simp [hs]), fun _ _ => rfl, rfl⟩

theorem reads_fail (m : String) : Reads Fail ps (fail m : ParserM α) fun _ _ => False := by
  refine ⟨fun {s a s'} hs => ?_, fun {s e} hs he => ?_⟩ <;>
    obtain ⟨t, ts, ht⟩ := List.exists_cons_of_ne_nil hs.ended.ne_nil
  · rw [fail_eq ht]
    constructor
    · intro h
      cases h
    · rintro ⟨_, _, _, _, h, _⟩
      exact h.elim
  · rw [fail_eq ht] at he
    cases he
    exact hs.blame t (ht ▸ List.mem_cons_self) m

theorem fail_blames {m : String} {s : Parser} {e : Stop} (hs : Ready Fail ps s)
    (h : (fail m : ParserM α) s = .error e) : Fail e :=
  Does.fails (reads_fail m) hs h

/-- A look at the current token that is not used. -/
theorem reads_skip (h : Reads Fail ps x A) : Reads Fail ps (cur >>= fun _ => x) A := by
  refine h.of_eq fun s hs => ?_
  obtain ⟨t, ts, ht⟩ := List.exists_cons_of_ne_nil hs.ended.ne_nil
  rw [cur_bind ht]

/-- The same, where both branches use the token. -/
theorem reads_cur_choice {kind : TokenKind} {f g : Token → ParserM α}
    (hf : Does (fun s => Ready Fail ps s ∧ ∀ t ∈ s.tokens.head?, t.kind = kind) Fail (cur >>= f)
      (Consumes A))
    (hg : Reads Fail ps (cur >>= g) B)
    (ha : ∀ ts a, A ts a → ∃ t us, ts = t :: us ∧ t.kind = kind)
    (hb : ∀ ts a, B ts a → ∃ t us, ts = t :: us ∧ t.kind ≠ kind) :
    Reads Fail ps (cur >>= fun t => if t.kind = kind then f t else g t)
      fun ts a => A ts a ∨ B ts a := by
  refine (reads_choice hf hg ha hb).of_eq fun s hs => ?_
  obtain ⟨t, ts, ht⟩ := List.exists_cons_of_ne_nil hs.ended.ne_nil
  rw [atKind_bind ht, cur_bind ht]
  by_cases hk : t.kind = kind
  · rw [if_pos hk, if_pos (by simpa using hk), cur_bind ht]
  · rw [if_neg hk, if_neg (by simpa using hk), cur_bind ht]

/-- What is read may be described for each current token apart. -/
theorem does_head {Pre : Parser → Prop} {R : Parser → α → Parser → Prop}
    (hpre : ∀ s, Pre s → Ready Fail ps s)
    (h : ∀ t, Does (fun s => Pre s ∧ s.tokens.head? = some t) Fail x R) : Does Pre Fail x R := by
  have hhead : ∀ s, Pre s → ∃ t, s.tokens.head? = some t := fun s hs =>
    Option.isSome_iff_exists.1 (by
      obtain ⟨t, ts, ht⟩ := List.exists_cons_of_ne_nil (hpre s hs).ended.ne_nil
      rw [ht]
      rfl)
  refine ⟨fun {s a s'} hs => ?_, fun {s e} hs he => ?_⟩ <;> obtain ⟨t, ht⟩ := hhead s hs
  · exact (h t).ok ⟨hs, ht⟩
  · exact (h t).fails ⟨hs, ht⟩ he

end Reading

section Operands

variable {x : ParserM α}

theorem reads_expect (kind : TokenKind) (what : String) (hkind : kind ≠ .sourceEnd) :
    Reads Fail ps (expect kind what) fun ts _ => ∃ t, ts = [t] ∧ t.kind = kind := by
  refine reads_token (P := fun t _ => t.kind = kind) (fun t _ ht => ht ▸ hkind) fun s t ts hs => ?_
  rw [TakesHead, expect, atKind_bind hs]
  by_cases hk : t.kind = kind
  · exact .inl ⟨(), hk, fun _ _ => rfl, by rw [if_pos (by simpa using hk)]; rfl⟩
  · exact .inr ⟨fun _ => hk, _, by rw [if_neg (by simpa using hk)]⟩

/-- A token of a kind with a value. -/
theorem reads_value (kind : TokenKind) (value : Token → Option α) (hkind : kind ≠ .sourceEnd)
    (hno : ∀ s t ts, s.tokens = t :: ts → t.kind ≠ kind → ∃ m, x s = fail m s)
    (hnone : ∀ s t ts, s.tokens = t :: ts → t.kind = kind → value t = none → ∃ m, x s = fail m s)
    (hsome : ∀ s t ts a, s.tokens = t :: ts → t.kind = kind → value t = some a →
      x s = (next >>= fun _ => pure a) s) :
    Reads Fail ps x fun ts a => ∃ t, ts = [t] ∧ t.kind = kind ∧ value t = some a := by
  refine reads_token (P := fun t a => t.kind = kind ∧ value t = some a)
    (fun t _ ht => ht.1 ▸ hkind) fun s t ts hs => ?_
  by_cases hk : t.kind = kind
  · rcases hv : value t with _ | a
    · exact .inr ⟨fun a h => by simp [hv] at h, hnone s t ts hs hk hv⟩
    · exact .inl ⟨a, ⟨hk, hv⟩, fun b h => by simpa [hv, eq_comm] using h.2,
        hsome s t ts a hs hk hv⟩
  · exact .inr ⟨fun a h => hk h.1, hno s t ts hs hk⟩

theorem reads_integerLiteral :
    Reads Fail ps integerLiteral fun ts value => ∃ t, ts = [t] ∧ t.IsInteger value := by
  refine reads_value .integer (fun t => integerValue t.text) (by decide) (fun s t ts hs hk => ?_)
    (fun s t ts hs hk hv => ?_) fun s t ts a hs hk hv => ?_ <;> rw [integerLiteral, cur_bind hs]
  · exact ⟨_, by rw [if_pos hk]⟩
  all_goals
    rw [if_neg (not_not.2 hk)]
    simp only [integerValue] at hv
    rcases hp : parseNumber 64 (if t.text.take 2 = ['0', 'x'] then 16 else 10)
      (if t.text.take 2 = ['0', 'x'] then t.text.drop 2 else t.text) with _ | n <;>
      simp only [hp, Option.bind_none, Option.bind_some] at hv ⊢
  · exact ⟨_, rfl⟩
  · split_ifs at hv with hn
    exact ⟨_, by rw [if_pos hn]⟩
  · cases hv
  · split_ifs at hv with hn
    cases hv
    rw [if_neg hn]

theorem reads_generalRegister :
    Reads Fail ps generalRegister fun ts n => ∃ t, ts = [t] ∧ t.IsRegister n := by
  refine reads_value .identifier (fun t => registerIndex t.text 'r' generalRegisterCount)
    (by decide) (fun s t ts hs hk => ?_) (fun s t ts hs hk hv => ?_) fun s t ts a hs hk hv => ?_ <;>
    rw [generalRegister, cur_bind hs]
  · exact ⟨_, by rw [if_neg hk]⟩
  · exact ⟨_, by rw [if_pos hk, hv]⟩
  · rw [if_pos hk, hv]

theorem reads_dstPred (out : Instruction) : Reads Fail ps (dstPred out) fun ts i =>
    ∃ t n, ts = [t] ∧ t.IsPredicate n ∧ i = { out with dst := n } := by
  refine Reads.iff (reads_value .identifier (fun t =>
      (predicateName t.text).map fun n => { out with dst := n }) (by decide)
    (fun s t ts hs hk => ?_) (fun s t ts hs hk hv => ?_) fun s t ts a hs hk hv => ?_) ?_
  case refine_4 =>
    intro ts i
    simp only [Token.IsPredicate, Option.map_eq_some_iff]
    constructor
    · rintro ⟨t, rfl, hk, n, hn, rfl⟩
      exact ⟨t, n, rfl, ⟨hk, hn⟩, rfl⟩
    · rintro ⟨t, n, rfl, ⟨hk, hn⟩, rfl⟩
      exact ⟨t, rfl, hk, n, hn, rfl⟩
  all_goals rw [dstPred, cur_bind hs]
  · exact ⟨_, by rw [if_neg hk]⟩
  · rw [Option.map_eq_none_iff] at hv
    exact ⟨_, by rw [if_pos hk, hv]⟩
  · rw [Option.map_eq_some_iff] at hv
    obtain ⟨n, hn, rfl⟩ := hv
    rw [if_pos hk, hn]

theorem reads_special (out : Instruction) : Reads Fail ps (special out) fun ts i =>
    ∃ t reg, ts = [t] ∧ t.IsSpecial reg ∧ i = { out with src0 := reg.number } := by
  refine Reads.iff (reads_value .special (fun t =>
      (specialRegisterInfoOfName (String.ofList t.text)).map fun info =>
        { out with src0 := info.reg.number }) (by decide)
    (fun s t ts hs hk => ?_) (fun s t ts hs hk hv => ?_) fun s t ts a hs hk hv => ?_) ?_
  case refine_4 =>
    intro ts i
    simp only [Token.IsSpecial, Option.map_eq_some_iff]
    constructor
    · rintro ⟨t, rfl, hk, info, hi, rfl⟩
      exact ⟨t, info.reg, rfl, ⟨hk, info, hi, rfl⟩, rfl⟩
    · rintro ⟨t, _, rfl, ⟨hk, info, hi, rfl⟩, rfl⟩
      exact ⟨t, rfl, hk, info, hi, rfl⟩
  all_goals rw [special, cur_bind hs]
  · exact ⟨_, by rw [if_neg hk]⟩
  · rw [Option.map_eq_none_iff] at hv
    exact ⟨_, by rw [if_pos hk, hv]⟩
  · rw [Option.map_eq_some_iff] at hv
    obtain ⟨info, hi, rfl⟩ := hv
    rw [if_pos hk, hi]

variable (C : FloatChars)

theorem reads_unsignedImmediate (opcode : Opcode) (negative : Bool) :
    Reads Fail ps (unsignedImmediate C opcode negative) (SpellsMagnitude C opcode negative) := by
  let neg (value : Word) : Word := if negative then negateFloat value else value
  have hinteger : Reads Fail ps (integerLiteral >>= fun magnitude =>
        if negative then
          if 0x80000000 < magnitude then fail "immediate does not fit in 32 bits"
          else return 0 - magnitude
        else return magnitude) fun ts v => ∃ t value, ts = [t] ∧ t.IsInteger value
          ∧ (negative = true → value ≤ 0x80000000)
          ∧ v = if negative then 0 - value else value := by
    refine Reads.iff (reads_bind reads_integerLiteral (Q := fun value ts v => ts = []
      ∧ (negative = true → value ≤ 0x80000000) ∧ v = if negative then 0 - value else value)
      fun value => ?_) ?_
    · rcases negative with _ | _
      · exact Reads.iff (reads_pure value) fun ts v => by simp
      · by_cases hv : 0x80000000 < value
        · rw [if_pos rfl, if_pos hv]
          exact Reads.iff (reads_fail _) fun ts v =>
            ⟨False.elim, fun h => BitVec.not_le.2 hv (h.2.1 rfl)⟩
        · rw [if_pos rfl, if_neg hv]
          exact Reads.iff (reads_pure _) fun ts v =>
            ⟨fun h => ⟨h.1, fun _ => BitVec.not_lt.1 hv, h.2⟩, fun h => ⟨h.1, h.2.2⟩⟩
    · intro ts v
      constructor
      · rintro ⟨_, value, _, ⟨t, rfl, ht⟩, ⟨rfl, hv⟩, rfl⟩
        exact ⟨t, value, rfl, ht, hv⟩
      · rintro ⟨t, value, rfl, ht, hv⟩
        exact ⟨[t], value, [], ⟨t, rfl, ht⟩, ⟨rfl, hv⟩, rfl⟩
  have hrest : Reads Fail ps (cur >>= fun t => if t.kind = .integer then (integerLiteral >>=
      fun magnitude =>
        if negative then
          if 0x80000000 < magnitude then fail "immediate does not fit in 32 bits"
          else return 0 - magnitude
        else return magnitude) else fail "expected a register or an immediate") _ :=
    reads_cur_choice ((reads_skip hinteger).mono fun s h => h.1) (reads_skip (reads_fail _))
      (by rintro ts v ⟨t, value, hts, ht, -⟩; exact ⟨t, [], hts, ht.1⟩) fun ts v h => h.elim
  rw [unsignedImmediate]
  simp only [ne_eq, ite_not]
  refine Reads.iff (reads_cur_choice (A := fun ts v => ∃ t, ts = [t] ∧ t.kind = .float
    ∧ acceptsFloatImmediate opcode = true ∧ ∃ value, t.IsFloat C value ∧ v = neg value)
    (does_token (fun s h => h.1) (fun t v ht hk => by rw [ht.1] at hk; cases hk)
      fun s t ts hp hs => ?_) hrest ?_ ?_) ?_
  · have hk : t.kind = .float := hp.2 t (by simp [hs])
    rw [TakesHead, cur_bind hs]
    rcases ha : acceptsFloatImmediate opcode with _ | _
    · refine .inr ⟨fun a h => ?_, _, by rw [if_pos (by rfl)]⟩
      simp at h
    · rw [if_neg (by simp)]
      rcases hc : C.fromChars t.text with _ | value
      · refine .inr ⟨fun a h => ?_, _, rfl⟩
        obtain ⟨-, -, v, hv, -⟩ := h
        rw [Token.IsFloat, hc] at hv
        cases hv.2
      · refine .inl ⟨neg value, ⟨hk, rfl, value, ⟨hk, hc⟩, rfl⟩, ?_, rfl⟩
        rintro b ⟨-, -, v, ⟨-, hv⟩, rfl⟩
        rw [hc] at hv
        cases hv
        rfl
  · rintro ts v ⟨t, hts, hk, -⟩
    exact ⟨t, [], hts, hk⟩
  · rintro ts v (⟨t, value, hts, ht, -⟩ | h)
    · exact ⟨t, [], hts, by rw [ht.1]; decide⟩
    · exact h.elim
  · intro ts v
    constructor
    · rintro (⟨t, rfl, -, ha, value, hv, rfl⟩ | ⟨t, value, rfl, ht, hneg, rfl⟩ | h)
      · exact .float hv ha
      · exact .integer ht hneg
      · exact h.elim
    · rintro (⟨ht, hneg⟩ | ⟨hv, ha⟩)
      · exact .inr (.inl ⟨_, _, rfl, ht, hneg, rfl⟩)
      · exact .inl ⟨_, rfl, hv.1, ha, _, hv, rfl⟩

theorem reads_immediateValue (opcode : Opcode) :
    Reads Fail ps (immediateValue C opcode) (SpellsImmediate C opcode) := by
  refine Reads.iff (reads_choice (does_then (fun _ h => h.1) (does_next .minus (by decide))
    fun _ => reads_unsignedImmediate C opcode true)
    (reads_unsignedImmediate C opcode false) ?_ ?_) ?_
  · rintro ts v ⟨_, _, vs, ⟨t, rfl, ht⟩, -, rfl⟩
    exact ⟨t, vs, rfl, ht⟩
  · intro ts v h
    obtain ⟨t, rfl, ht⟩ := h.head
    exact ⟨t, [], rfl, by rcases ht with ht | ht <;> rw [ht] <;> decide⟩
  · intro ts v
    constructor
    · rintro (⟨_, _, vs, ⟨t, rfl, ht⟩, h, rfl⟩ | h)
      · exact .negative ht h
      · exact .positive h
    · rintro (h | ⟨hm, h⟩)
      · exact .inr h
      · exact .inl ⟨_, (), _, ⟨_, rfl, hm⟩, h, rfl⟩

/-- The operand of a place in an instruction. -/
def readSlot (sl : Slot) (out : Instruction) : ParserM Instruction :=
  match sl with
  | .dst => dstReg out
  | .src0 => src0Reg out
  | .src1 => src1Reg out
  | .src0OrImm => src0RegOrImm C out
  | .src1OrImm => src1RegOrImm C out
  | .dstPred => dstPred out
  | .special => special out
  | .target => branchTarget out
  | .address => address out
  | .param => paramRef out

theorem reads_addressOffset : Reads Fail ps addressOffset SpellsOffset := by
  refine Reads.iff (reads_choice (does_then (fun _ h => h.1) (does_next .plus (by decide)) fun _ =>
    reads_bind reads_integerLiteral fun offset =>
      reads_map (g := fun _ => offset) (reads_expect .rBracket "']'" (by decide)))
    (reads_choice (does_then (fun _ h => h.1) (does_next .minus (by decide)) fun _ =>
      reads_bind reads_integerLiteral fun offset =>
        reads_map (g := fun _ => 0 - offset) (reads_expect .rBracket "']'" (by decide)))
      (reads_map (g := fun _ => 0) (reads_expect .rBracket "']'" (by decide))) ?_ ?_) ?_ ?_) ?_
  · rintro ts v ⟨_, _, vs, ⟨t, rfl, ht⟩, -, rfl⟩
    exact ⟨t, vs, rfl, ht⟩
  · rintro ts v ⟨_, ⟨t, rfl, ht⟩, -⟩
    exact ⟨t, [], rfl, by rw [ht]; decide⟩
  · rintro ts v ⟨_, _, vs, ⟨t, rfl, ht⟩, -, rfl⟩
    exact ⟨t, vs, rfl, ht⟩
  · rintro ts v (⟨_, _, vs, ⟨t, rfl, ht⟩, -, rfl⟩ | ⟨_, ⟨t, rfl, ht⟩, -⟩)
    · exact ⟨t, vs, rfl, by rw [ht]; decide⟩
    · exact ⟨t, [], rfl, by rw [ht]; decide⟩
  · intro ts v
    constructor
    · rintro (⟨_, _, _, ⟨p, rfl, hp⟩, ⟨_, n, _, ⟨t, rfl, ht⟩, ⟨_, ⟨r, rfl, hr⟩, rfl⟩, rfl⟩, rfl⟩
        | ⟨_, _, _, ⟨p, rfl, hp⟩, ⟨_, n, _, ⟨t, rfl, ht⟩, ⟨_, ⟨r, rfl, hr⟩, rfl⟩, rfl⟩, rfl⟩
        | ⟨_, ⟨r, rfl, hr⟩, rfl⟩)
      · exact .plus hp ht hr
      · exact .minus hp ht hr
      · exact .none hr
    · rintro (hr | ⟨hp, ht, hr⟩ | ⟨hp, ht, hr⟩)
      · exact .inr (.inr ⟨(), ⟨_, rfl, hr⟩, rfl⟩)
      · exact .inl
          ⟨_, (), _, ⟨_, rfl, hp⟩, ⟨_, _, _, ⟨_, rfl, ht⟩, ⟨(), ⟨_, rfl, hr⟩, rfl⟩, rfl⟩, rfl⟩
      · exact .inr (.inl
          ⟨_, (), _, ⟨_, rfl, hp⟩, ⟨_, _, _, ⟨_, rfl, ht⟩, ⟨(), ⟨_, rfl, hr⟩, rfl⟩, rfl⟩, rfl⟩)

theorem reads_address (out : Instruction) : Reads Fail ps (address out) fun ts i =>
    ∃ l b us n offset, ts = l :: b :: us ∧ l.kind = .lBracket ∧ b.IsRegister n
      ∧ SpellsOffset us offset ∧ i = { out with src0 := n, immFlag := true, imm := offset } := by
  refine Reads.iff (reads_bind (reads_expect .lBracket "'['" (by decide)) fun _ =>
    reads_bind reads_generalRegister fun base => reads_map (g := fun offset =>
      { out with src0 := base, immFlag := true, imm := offset }) reads_addressOffset) ?_
  intro ts i
  constructor
  · rintro ⟨_, _, _, ⟨l, rfl, hl⟩, ⟨_, n, us, ⟨b, rfl, hb⟩, ⟨offset, ho, rfl⟩, rfl⟩, rfl⟩
    exact ⟨l, b, us, n, offset, rfl, hl, hb, ho, rfl⟩
  · rintro ⟨l, b, us, n, offset, rfl, hl, hb, ho, rfl⟩
    exact ⟨[l], (), _, ⟨l, rfl, hl⟩, ⟨[b], n, us, ⟨b, rfl, hb⟩, ⟨offset, ho, rfl⟩, rfl⟩, rfl⟩

theorem reads_paramRef (out : Instruction) : Reads Fail ps (paramRef out) fun ts i =>
    ∃ l t r k, ts = [l, t, r] ∧ l.kind = .lBracket ∧ t.kind = .identifier ∧ r.kind = .rBracket
      ∧ ps.findIdx? (· = t.text) = some k
      ∧ i = { out with immFlag := true, imm := BitVec.ofNat 32 k } := by
  rw [paramRef]
  simp only [ne_eq, ite_not]
  refine Reads.iff (reads_bind (reads_expect .lBracket "'['" (by decide)) fun _ =>
    reads_cur_choice (A := fun ts i => ∃ t r k, ts = [t, r] ∧ t.kind = .identifier
      ∧ r.kind = .rBracket ∧ ps.findIdx? (· = t.text) = some k
      ∧ i = { out with immFlag := true, imm := BitVec.ofNat 32 k })
      ?_ (reads_skip (reads_fail "expected a parameter name")) ?_ ?_) ?_
  · refine does_head (fun s h => h.1) fun t => ?_
    rcases hk : ps.findIdx? (· = t.text) with _ | k
    · refine (((reads_fail ("undeclared parameter '" ++ String.ofList t.text ++ "'")).mono
        fun s h => h.1.1).congr fun s i s' hs => ?_).of_eq fun s hs => ?_
      · constructor
        · rintro ⟨_, _, _, _, h, _⟩
          exact h.elim
        · rintro ⟨ts, rest, hts, _, ⟨u, r, k, rfl, -, -, hk', -⟩, -⟩
          have hu : u = t := by simpa [hts] using hs.2
          rw [hu, hk] at hk'
          cases hk'
      · obtain ⟨ts, ht⟩ := List.head?_eq_some_iff.1 hs.2
        rw [cur_bind ht, get_bind, hs.1.1.params, hk]
    · refine ((does_then (fun s h => h.1.1)
        ((does_next .identifier (by decide)).mono fun s h => h.1)
        fun _ => reads_map (g := fun _ => { out with immFlag := true, imm := BitVec.ofNat 32 k })
          (reads_expect .rBracket "']'" (by decide))).congr
            fun s i s' hs => ?_).of_eq fun s hs => ?_
      · constructor
        · rintro ⟨_, rest, hts, hne, ⟨_, _, _, ⟨u, rfl, hu⟩, ⟨_, ⟨r, rfl, hr⟩, rfl⟩, rfl⟩, rfl⟩
          have hut : u = t := by simpa [hts] using hs.2
          exact ⟨_, rest, hts, hne, ⟨u, r, k, rfl, hu, hr, hut ▸ hk, rfl⟩, rfl⟩
        · rintro ⟨_, rest, hts, hne, ⟨u, r, k', rfl, hu, hr, hk', rfl⟩, rfl⟩
          have hut : u = t := by simpa [hts] using hs.2
          rw [hut, hk] at hk'
          cases hk'
          exact ⟨_, rest, hts, hne, ⟨[u], (), [r], ⟨u, rfl, hu⟩, ⟨(), ⟨r, rfl, hr⟩, rfl⟩, rfl⟩, rfl⟩
      · obtain ⟨ts, ht⟩ := List.head?_eq_some_iff.1 hs.2
        rw [cur_bind ht, get_bind, hs.1.1.params, hk]
  · rintro ts i ⟨t, r, k, rfl, ht, -⟩
    exact ⟨t, [r], rfl, ht⟩
  · rintro ts i h
    exact h.elim
  · intro ts i
    constructor
    · rintro ⟨_, _, _, ⟨l, rfl, hl⟩, ⟨t, r, k, rfl, ht, hr, hk, rfl⟩ | h, rfl⟩
      · exact ⟨l, t, r, k, rfl, hl, ht, hr, hk, rfl⟩
      · exact h.elim
    · rintro ⟨l, t, r, k, rfl, hl, ht, hr, hk, rfl⟩
      exact ⟨[l], (), _, ⟨l, rfl, hl⟩, .inl ⟨t, r, k, rfl, ht, hr, hk, rfl⟩, rfl⟩

theorem reads_register (g : BitVec 8 → Instruction) :
    Reads Fail ps (generalRegister >>= fun n => pure (g n)) fun ts i =>
      ∃ t n, ts = [t] ∧ t.IsRegister n ∧ i = g n :=
  Reads.iff (reads_map reads_generalRegister) fun _ _ =>
    ⟨fun ⟨n, ⟨t, hts, ht⟩, hi⟩ => ⟨t, n, hts, ht, hi⟩,
      fun ⟨t, n, hts, ht, hi⟩ => ⟨n, ⟨t, hts, ht⟩, hi⟩⟩

theorem reads_registerOrImm (out : Instruction) (g : BitVec 8 → Instruction) :
    Reads Fail ps (atKind .identifier >>= fun c =>
      if c then generalRegister >>= fun n => pure (g n) else immediate C out) fun ts i =>
      (∃ t n, ts = [t] ∧ t.IsRegister n ∧ i = g n)
        ∨ ∃ value, SpellsImmediate C out.opcode ts value
          ∧ i = { out with imm := value, immFlag := true } := by
  refine reads_choice ((reads_register g).mono fun s h => h.1) (reads_map (g := fun value =>
    { out with imm := value, immFlag := true }) (reads_immediateValue C out.opcode)) ?_ ?_
  · rintro ts i ⟨t, n, rfl, ht, -⟩
    exact ⟨t, [], rfl, ht.1⟩
  · rintro ts i ⟨value, h, -⟩
    exact h.head

theorem reads_slot_register {sl : Slot} {out : Instruction} {g : BitVec 8 → Instruction}
    (hx : readSlot C sl out = generalRegister >>= fun n => pure (g n))
    (hf : ∀ o i, sl.fill ps (fun _ => 0) o out = some i ↔ ∃ n, o = .register n ∧ i = g n) :
    Reads Fail ps (readSlot C sl out) fun ts i =>
      ∃ o : Operand, o.Spells C out.opcode ts ∧ sl.fill ps (fun _ => 0) o out = some i := by
  rw [hx]
  refine Reads.iff (reads_register g) fun ts i => ⟨?_, ?_⟩
  · rintro ⟨t, n, rfl, ht, rfl⟩
    exact ⟨.register n, .register ht, (hf _ _).2 ⟨n, rfl, rfl⟩⟩
  · rintro ⟨o, ho, hi⟩
    obtain ⟨n, rfl, rfl⟩ := (hf o i).1 hi
    cases ho with
    | register ht => exact ⟨_, n, rfl, ht, rfl⟩

theorem reads_slot_registerOrImm {sl : Slot} {out : Instruction} {g : BitVec 8 → Instruction}
    (hx : readSlot C sl out = atKind .identifier >>= fun c =>
      if c then generalRegister >>= fun n => pure (g n) else immediate C out)
    (hf : ∀ o i, sl.fill ps (fun _ => 0) o out = some i ↔ (∃ n, o = .register n ∧ i = g n)
      ∨ ∃ value, o = .immediate value ∧ i = { out with imm := value, immFlag := true }) :
    Reads Fail ps (readSlot C sl out) fun ts i =>
      ∃ o : Operand, o.Spells C out.opcode ts ∧ sl.fill ps (fun _ => 0) o out = some i := by
  rw [hx]
  refine Reads.iff (reads_registerOrImm C out g) fun ts i => ⟨?_, ?_⟩
  · rintro (⟨t, n, rfl, ht, rfl⟩ | ⟨value, h, rfl⟩)
    · exact ⟨.register n, .register ht, (hf _ _).2 (.inl ⟨n, rfl, rfl⟩)⟩
    · exact ⟨.immediate value, .immediate h, (hf _ _).2 (.inr ⟨value, rfl, rfl⟩)⟩
  · rintro ⟨o, ho, hi⟩
    rcases (hf o i).1 hi with ⟨n, rfl, rfl⟩ | ⟨value, rfl, rfl⟩
    · cases ho with
      | register ht => exact .inl ⟨_, n, rfl, ht, rfl⟩
    · cases ho with
      | immediate h => exact .inr ⟨value, h, rfl⟩

/-- What is read for a place other than a branch target. -/
theorem reads_slot (sl : Slot) (hsl : sl ≠ .target) (out : Instruction) :
    Reads Fail ps (readSlot C sl out) fun ts i =>
      ∃ o : Operand, o.Spells C out.opcode ts ∧ sl.fill ps (fun _ => 0) o out = some i := by
  cases sl with
  | dst => exact reads_slot_register C rfl fun o i => by cases o <;> simp [Slot.fill, eq_comm]
  | src0 => exact reads_slot_register C rfl fun o i => by cases o <;> simp [Slot.fill, eq_comm]
  | src1 => exact reads_slot_register C rfl fun o i => by cases o <;> simp [Slot.fill, eq_comm]
  | src0OrImm =>
    exact reads_slot_registerOrImm C rfl fun o i => by cases o <;> simp [Slot.fill, eq_comm]
  | src1OrImm =>
    exact reads_slot_registerOrImm C rfl fun o i => by cases o <;> simp [Slot.fill, eq_comm]
  | dstPred =>
    refine Reads.iff (reads_dstPred out) fun ts i => ⟨?_, ?_⟩
    · rintro ⟨t, n, rfl, ht, rfl⟩
      exact ⟨.predicate n, .predicate ht, rfl⟩
    · rintro ⟨o, ho, hi⟩
      cases ho <;> cases hi
      exact ⟨_, _, rfl, ‹_›, rfl⟩
  | special =>
    refine Reads.iff (reads_special out) fun ts i => ⟨?_, ?_⟩
    · rintro ⟨t, reg, rfl, ht, rfl⟩
      exact ⟨.special reg, .special ht, rfl⟩
    · rintro ⟨o, ho, hi⟩
      cases ho <;> cases hi
      exact ⟨_, _, rfl, ‹_›, rfl⟩
  | target => exact absurd rfl hsl
  | address =>
    refine Reads.iff (reads_address out) fun ts i => ⟨?_, ?_⟩
    · rintro ⟨l, b, us, n, offset, rfl, hl, hb, ho, rfl⟩
      exact ⟨.address n offset, .address hl hb ho, rfl⟩
    · rintro ⟨o, ho, hi⟩
      cases ho <;> cases hi
      exact ⟨_, _, _, _, _, rfl, ‹_›, ‹_›, ‹_›, rfl⟩
  | param =>
    refine Reads.iff (reads_paramRef out) fun ts i => ⟨?_, ?_⟩
    · rintro ⟨l, t, r, k, rfl, hl, ht, hr, hk, rfl⟩
      exact ⟨.parameter t.text, .parameter hl ht hr, by rw [Slot.fill, hk]; rfl⟩
    · rintro ⟨o, ho, hi⟩
      cases ho <;> try cases hi
      obtain ⟨k, hk, rfl⟩ := Option.map_eq_some_iff.1 hi
      exact ⟨_, _, _, k, rfl, ‹_›, ‹_›, ‹_›, hk, rfl⟩

/-- Further operands, for the places left. -/
def readRest : List Slot → Instruction → ParserM Instruction
  | [], out => return out
  | sl :: sls, out => commaThen (readSlot C sl) out >>= readRest sls

theorem fill_keeps {target : Text → Pc} {sl : Slot} {o : Operand} {i j : Instruction}
    (h : sl.fill ps target o i = some j) : j.opcode = i.opcode ∧ j.guard = i.guard := by
  cases sl <;> cases o <;> first
    | (cases h; done)
    | (cases h; exact ⟨rfl, rfl⟩)
    | (obtain ⟨k, -, rfl⟩ := Option.map_eq_some_iff.1 h; exact ⟨rfl, rfl⟩)

theorem reads_rest : ∀ (sls : List Slot) (out : Instruction), Slot.target ∉ sls →
    Reads Fail ps (readRest C sls out) fun ts i =>
      ∃ os, SpellsRest C out.opcode ts os ∧ fillSlots ps (fun _ => 0) sls os out = some i
  | [], out, _ => Reads.iff (reads_pure out) fun ts i => by
    constructor
    · rintro ⟨rfl, rfl⟩
      exact ⟨[], .nil, rfl⟩
    · rintro ⟨os, ho, hi⟩
      cases ho <;> cases hi
      exact ⟨rfl, rfl⟩
  | sl :: sls, out, hsl => by
    have hne : sl ≠ .target := fun h => hsl (h ▸ List.mem_cons_self)
    refine Reads.iff (reads_bind (reads_bind (reads_expect .comma "','" (by decide)) fun _ =>
      reads_slot C sl hne out) fun i => reads_rest sls i fun h => hsl (List.mem_cons_of_mem _ h)) ?_
    intro ts i
    constructor
    · rintro ⟨_, j, vs, ⟨_, _, us, ⟨c, rfl, hc⟩, ⟨o, ho, hj⟩, rfl⟩, ⟨os, hos, hi⟩, rfl⟩
      rw [(fill_keeps hj).1] at hos
      exact ⟨o :: os, .cons hc ho hos, by rw [fillSlots, hj]; exact hi⟩
    · rintro ⟨os, ho, hi⟩
      cases ho with
      | nil => cases hi
      | @cons c us vs o os hc ho hos =>
        obtain ⟨j, hj, hi⟩ := Option.bind_eq_some_iff.1 hi
        refine ⟨c :: us, j, vs, ⟨[c], (), us, ⟨c, rfl, hc⟩, ⟨o, ho, hj⟩, rfl⟩, ⟨os, ?_, hi⟩, rfl⟩
        rwa [(fill_keeps hj).1]

theorem parseOperands_eq {shape : Shape} {sl : Slot} {sls : List Slot} (h : shape.slots = sl :: sls)
    (out : Instruction) : parseOperands C shape out = readSlot C sl out >>= readRest C sls := by
  cases shape <;> cases h <;> simp only [parseOperands, readSlot, bind_assoc] <;>
    simp only [readRest, bind_pure] <;> rfl

theorem does_branchTarget (out : Instruction) : Does (Ready Fail ps) Fail (branchTarget out)
    fun s i s' => ∃ t rest, s.tokens = t :: rest ∧ rest ≠ [] ∧ t.kind = .identifier
      ∧ i = { out with imm := Instruction.makeBranchImm 0 noReconvergence }
      ∧ s' = { s with
        tokens := rest
        pending := s.pending ++ [⟨s.program.words.length, t.text, t.line, t.column⟩] } := by
  have hno : ∀ {s : Parser} {t : Token} {ts : List Token}, s.tokens = t :: ts →
      t.kind ≠ .identifier → branchTarget out s = (fail "expected a label" : ParserM _) s := by
    intro s t ts ht hk
    rw [branchTarget, cur_bind ht, if_pos hk]
  have hyes : ∀ {s : Parser} {t : Token} {ts : List Token}, s.tokens = t :: ts → ts ≠ [] →
      t.kind = .identifier → branchTarget out s
        = .ok ({ out with imm := Instruction.makeBranchImm 0 noReconvergence }, { s with
          tokens := ts
          pending := s.pending ++ [⟨s.program.words.length, t.text, t.line, t.column⟩] }) := by
    intro s t ts ht hne hk
    rw [branchTarget, cur_bind ht, if_neg (not_not.2 hk)]
    exact take_eq (s := { s with
      pending := s.pending ++ [⟨s.program.words.length, t.text, t.line, t.column⟩] }) ht hne _
  refine ⟨fun {s i s'} hs => ?_, fun {s e} hs he => ?_⟩ <;>
    obtain ⟨t, ts, ht⟩ := List.exists_cons_of_ne_nil hs.ended.ne_nil <;>
    by_cases hk : t.kind = .identifier
  · have hne : ts ≠ [] := (ht ▸ hs.ended).rest_ne_nil (by rw [hk]; decide)
    rw [hyes ht hne hk]
    constructor
    · intro h
      cases h
      exact ⟨t, ts, ht, hne, hk, rfl, rfl⟩
    · rintro ⟨u, rest, hu, -, -, rfl, rfl⟩
      rw [ht] at hu
      cases hu
      rfl
  · rw [hno ht hk, fail_eq ht]
    constructor
    · intro h
      cases h
    · rintro ⟨u, rest, hu, -, hu', -⟩
      rw [ht] at hu
      cases hu
      exact absurd hu' hk
  · rw [hyes ht ((ht ▸ hs.ended).rest_ne_nil (by rw [hk]; decide)) hk] at he
    cases he
  · rw [hno ht hk, fail_eq ht] at he
    cases he
    exact hs.blame t (ht ▸ List.mem_cons_self) _

theorem pending_of_fill {target : Text → Pc} {sl : Slot} (hsl : sl ≠ .target) {o : Operand}
    {i j : Instruction} (h : sl.fill ps target o i = some j) (n : Nat) : o.pending n = [] := by
  cases o <;> try rfl
  cases sl <;> first
    | exact absurd rfl hsl
    | cases h

theorem pending_of_fillSlots {target : Text → Pc} {sls : List Slot} (hsl : Slot.target ∉ sls)
    {os : List Operand} {i j : Instruction} (h : fillSlots ps target sls os i = some j) (n : Nat) :
    os.flatMap (Operand.pending n) = [] := by
  induction sls generalizing os i with
  | nil =>
    cases os with
    | nil => rfl
    | cons => cases h
  | cons sl sls ih =>
    cases os with
    | nil => rfl
    | cons o os =>
      obtain ⟨k, hk, h⟩ := Option.bind_eq_some_iff.1 h
      rw [List.flatMap_cons, pending_of_fill (fun he => hsl (he ▸ List.mem_cons_self)) hk,
        ih (fun hm => hsl (List.mem_cons_of_mem _ hm)) h]
      rfl

theorem fill_takes {target : Text → Pc} {sl : Slot} {o : Operand} {i j : Instruction}
    (h : sl.fill ps target o i = some j) : sl.Takes o := by
  cases sl <;> cases o <;> trivial

theorem fillSlots_takes {target : Text → Pc} {sls : List Slot} {os : List Operand}
    {i j : Instruction} (h : fillSlots ps target sls os i = some j) :
    List.Forall₂ Slot.Takes sls os := by
  induction sls generalizing os i with
  | nil =>
    cases os with
    | nil => exact .nil
    | cons => cases h
  | cons sl sls ih =>
    cases os with
    | nil => cases h
    | cons o os =>
      obtain ⟨k, hk, h⟩ := Option.bind_eq_some_iff.1 h
      exact .cons (fill_takes hk) (ih h)

/-- The operands of a shape are read, and a branch target is left to be resolved. -/
theorem does_parseOperands (shape : Shape) (out : Instruction) :
    Does (Ready Fail ps) Fail (parseOperands C shape out) fun s i s' =>
      ∃ ts rest os, s.tokens = ts ++ rest ∧ rest ≠ [] ∧ SpellsOperands C out.opcode ts os
        ∧ fillSlots ps (fun _ => 0) shape.slots os out = some i
        ∧ s' = { s with
          tokens := rest
          pending := s.pending ++ os.flatMap (Operand.pending s.program.words.length) } := by
  by_cases hbra : shape = .bra
  · subst hbra
    refine (does_branchTarget out).congr fun s i s' hs => ⟨?_, ?_⟩
    · rintro ⟨t, rest, ht, hne, hk, rfl, rfl⟩
      exact ⟨[t], rest, [.label t.text t.line t.column], ht, hne, .cons (.label hk) .nil, rfl, rfl⟩
    · rintro ⟨ts, rest, os, hts, hne, ho, hi, rfl⟩
      cases ho with
      | nil => cases hi
      | cons ho hos =>
        cases hos with
        | nil =>
          cases ho <;> cases hi
          exact ⟨_, rest, hts, hne, ‹_›, rfl, rfl⟩
        | cons =>
          obtain ⟨k, -, hk⟩ := Option.bind_eq_some_iff.1 hi
          cases hk
  rcases hslots : shape.slots with _ | ⟨sl, sls⟩
  · have hnone : shape = .none := by cases shape <;> simp_all [Shape.slots]
    subst hnone
    refine (reads_pure out).congr fun s i s' hs => ⟨?_, ?_⟩
    · rintro ⟨ts, rest, hts, hne, ⟨rfl, rfl⟩, rfl⟩
      exact ⟨[], rest, [], hts, hne, .nil, rfl, by simp⟩
    · rintro ⟨ts, rest, os, hts, hne, ho, hi, rfl⟩
      cases ho <;> cases hi
      exact ⟨[], rest, hts, hne, ⟨rfl, rfl⟩, by simp⟩
  · have htarget : Slot.target ∉ sl :: sls := by
      rw [← hslots]
      cases shape <;> first
        | exact absurd rfl hbra
        | decide
    rw [parseOperands_eq C hslots]
    refine (reads_bind (reads_slot C sl (fun h => htarget (h ▸ List.mem_cons_self)) out) fun i =>
      reads_rest C sls i fun h => htarget (List.mem_cons_of_mem _ h)).congr
        fun s i s' hs => ⟨?_, ?_⟩
    · rintro ⟨_, rest, hts, hne, ⟨us, j, vs, ⟨o, ho, hj⟩, ⟨os, hos, hi⟩, rfl⟩, rfl⟩
      rw [(fill_keeps hj).1] at hos
      have hfill : fillSlots ps (fun _ => 0) (sl :: sls) (o :: os) out = some i := by
        rw [fillSlots, hj]
        exact hi
      exact ⟨us ++ vs, rest, o :: os, hts, hne, .cons ho hos, hfill, by
        rw [pending_of_fillSlots htarget hfill, List.append_nil]⟩
    · rintro ⟨ts, rest, os, hts, hne, ho, hi, rfl⟩
      rw [pending_of_fillSlots htarget hi, List.append_nil]
      cases ho with
      | nil => cases hi
      | @cons us vs o os ho hos =>
        obtain ⟨j, hj, hi⟩ := Option.bind_eq_some_iff.1 hi
        exact ⟨us ++ vs, rest, hts, hne, ⟨us, j, vs, ⟨o, ho, hj⟩,
          ⟨os, by rwa [(fill_keeps hj).1], hi⟩, rfl⟩, rfl⟩

end Operands

end Parser

end WarpSim
