import Mathlib.Data.Set.Card
import Mathlib.Data.Set.Finite.Lemmas

/-!
# Walks and post-dominators

Walks in a graph given by its edge relation, and what every walk from one vertex to a fixed exit
passes through. Nothing is assumed finite: the post-dominators of a vertex that reaches the exit
lie on any one of its walks.
-/

namespace WarpSim

variable {α : Type*} (E : α → α → Prop)

/-- A walk from one vertex to another, with the vertices it visits. -/
inductive Walk : α → List α → α → Prop
  | nil (a : α) : Walk a [a] a
  | cons {a b c : α} {l : List α} (h : E a b) (w : Walk b l c) : Walk a (a :: l) c

/-- Every walk from `a` to the exit `t` passes through `d`. -/
def PostDom (t d a : α) : Prop := ∀ l, Walk E a l t → d ∈ l

def Reaches (t a : α) : Prop := ∃ l, Walk E a l t

/-- The strict post-dominator that every other one post-dominates. -/
structure Immediate (t d a : α) : Prop where
  ne : d ≠ a
  postDom : PostDom E t d a
  least : ∀ e, e ≠ a → PostDom E t e a → PostDom E t e d

variable {E} {t a b c d e : α}

section Map

variable {β : Type*} {E' : β → β → Prop} {f : α → β} {l : List α}

theorem Walk.map (hf : ∀ a b, E a b → E' (f a) (f b)) (w : Walk E a l b) :
    Walk E' (f a) (l.map f) (f b) := by
  induction w with
  | nil a => exact .nil (f a)
  | cons h _ ih => exact .cons (hf _ _ h) ih

/-- A walk from an image vertex is an image walk if every edge from one is. -/
theorem Walk.lift (hlift : ∀ a y, E' (f a) y → ∃ b, E a b ∧ f b = y) {x z : β} {m : List β}
    (w : Walk E' x m z) : ∀ a, f a = x → ∃ l b, Walk E a l b ∧ f b = z ∧ l.map f = m := by
  induction w with
  | nil x =>
    rintro a rfl
    exact ⟨[a], a, .nil a, rfl, rfl⟩
  | cons h _ ih =>
    rintro a rfl
    obtain ⟨b, hab, hb⟩ := hlift a _ h
    obtain ⟨l, c, hl, hc, hm⟩ := ih b hb
    exact ⟨a :: l, c, .cons hab hl, hc, by rw [List.map_cons, hm]⟩

variable (hinj : Function.Injective f) (hf : ∀ a b, E a b → E' (f a) (f b))
  (hlift : ∀ a y, E' (f a) y → ∃ b, E a b ∧ f b = y)

include hinj hf hlift

/-- A map that is an isomorphism onto the vertices it reaches keeps post-dominance. -/
theorem postDom_map : PostDom E' (f t) (f d) (f a) ↔ PostDom E t d a := by
  constructor
  · intro h l w
    obtain ⟨x, hx, hfx⟩ := List.mem_map.1 (h _ (w.map hf))
    rwa [← hinj hfx]
  · intro h m w
    obtain ⟨l, b, hl, hb, rfl⟩ := w.lift hlift a rfl
    rw [hinj hb] at hl
    exact List.mem_map_of_mem (h l hl)

theorem reaches_map : Reaches E' (f t) (f a) ↔ Reaches E t a := by
  constructor
  · rintro ⟨m, w⟩
    obtain ⟨l, b, hl, hb, -⟩ := w.lift hlift a rfl
    rw [hinj hb] at hl
    exact ⟨l, hl⟩
  · rintro ⟨l, w⟩
    exact ⟨_, w.map hf⟩

theorem immediate_map (hr : Reaches E t a) (h : Immediate E t d a) :
    Immediate E' (f t) (f d) (f a) := by
  refine ⟨fun he => h.ne (hinj he), (postDom_map hinj hf hlift).2 h.postDom, fun y hy hpd => ?_⟩
  obtain ⟨l, w⟩ := hr
  -- What post-dominates a vertex with a walk is on the walk, so it is an image too.
  obtain ⟨e, -, rfl⟩ := List.mem_map.1 (hpd _ (w.map hf))
  exact (postDom_map hinj hf hlift).2
    (h.least e (fun he => hy (he ▸ rfl)) ((postDom_map hinj hf hlift).1 hpd))

end Map

namespace Walk

variable {l : List α}

theorem start_mem (w : Walk E a l b) : a ∈ l := by
  cases w <;> exact List.mem_cons_self

theorem end_mem (w : Walk E a l b) : b ∈ l := by
  induction w with
  | nil => exact List.mem_cons_self
  | cons _ _ ih => exact List.mem_cons_of_mem _ ih

/-- A walk ends where it starts, or with an edge. -/
theorem last (w : Walk E a l b) : b = a ∨ ∃ x, E x b := by
  induction w with
  | nil a => exact .inl rfl
  | @cons a b c l h _ ih =>
    rcases ih with rfl | ih
    · exact .inr ⟨a, h⟩
    · exact .inr ih

theorem append (w : Walk E a l b) : ∀ {l' : List α}, Walk E b l' c →
    ∃ m, Walk E a m c ∧ ∀ x, x ∈ m ↔ x ∈ l ∨ x ∈ l' := by
  induction w with
  | nil a =>
    intro l' w'
    refine ⟨l', w', fun x => ⟨.inr, ?_⟩⟩
    rintro (h | h)
    · rw [List.mem_singleton.1 h]
      exact w'.start_mem
    · exact h
  | cons h _ ih =>
    intro l' w'
    obtain ⟨m, hm, hmem⟩ := ih w'
    exact ⟨_ :: m, .cons h hm, fun x => by simp only [List.mem_cons, hmem, or_assoc]⟩

/-- The rest of a walk from a vertex it visits. -/
theorem suffix (w : Walk E a l b) : ∀ x ∈ l, ∃ m, Walk E x m b ∧ m <:+ l := by
  induction w with
  | nil a =>
    intro x hx
    rw [List.mem_singleton.1 hx]
    exact ⟨[a], .nil a, List.suffix_refl _⟩
  | @cons a b' c l h w ih =>
    intro x hx
    rcases List.mem_cons.1 hx with rfl | hx
    · exact ⟨x :: l, .cons h w, List.suffix_refl _⟩
    · obtain ⟨m, hm, hs⟩ := ih x hx
      exact ⟨m, hm, hs.trans (List.suffix_cons _ _)⟩

/-- From a vertex other than the first the rest is shorter. -/
theorem suffix_lt (w : Walk E a l b) {x : α} (hx : x ∈ l) (hne : x ≠ a) :
    ∃ m, Walk E x m b ∧ m.length < l.length ∧ ∀ y ∈ m, y ∈ l := by
  cases w with
  | nil => exact absurd (List.mem_singleton.1 hx) hne
  | cons h w =>
    obtain ⟨m, hm, hs⟩ := w.suffix x (List.mem_of_ne_of_mem hne hx)
    refine ⟨m, hm, ?_, fun y hy => List.mem_cons_of_mem _ (hs.subset hy)⟩
    have := hs.length_le
    rw [List.length_cons]
    omega

/-- The walk up to the first vertex with a property. -/
theorem first (w : Walk E a l b) (P : α → Prop) : (∃ x ∈ l, P x) →
    ∃ x m, P x ∧ Walk E a m x ∧ (∀ y ∈ m, P y → y = x) ∧ ∀ y ∈ m, y ∈ l := by
  induction w with
  | nil a =>
    rintro ⟨x, hx, hP⟩
    rw [List.mem_singleton.1 hx] at hP
    exact ⟨a, [a], hP, .nil a, fun y hy _ => List.mem_singleton.1 hy, fun _ h => h⟩
  | @cons a b' c l h w ih =>
    rintro ⟨x, hx, hP⟩
    by_cases ha : P a
    · exact ⟨a, [a], ha, .nil a, fun y hy _ => List.mem_singleton.1 hy, fun y hy => by
        rw [List.mem_singleton.1 hy]
        exact List.mem_cons_self⟩
    · have hx : x ∈ l := List.mem_of_ne_of_mem (by rintro rfl; exact ha hP) hx
      obtain ⟨z, m, hz, hm, hfirst, hsub⟩ := ih ⟨x, hx, hP⟩
      refine ⟨z, a :: m, hz, .cons h hm, ?_, fun y hy => ?_⟩
      · intro y hy hPy
        rcases List.mem_cons.1 hy with rfl | hy
        · exact absurd hPy ha
        · exact hfirst y hy hPy
      · rcases List.mem_cons.1 hy with rfl | hy
        · exact List.mem_cons_self
        · exact List.mem_cons_of_mem _ (hsub y hy)

end Walk

section Steps

/-- A walk that does not pass `d` stays where only `d` leads out. -/
theorem Walk.stays {S : α → Prop} (hS : ∀ x, S x → x ≠ d → ∀ y, E x y → S y) {l : List α}
    (w : Walk E a l b) (ha : S a) (hd : d ∉ l) : S b := by
  induction w with
  | nil a => exact ha
  | cons h _ ih =>
    rw [List.mem_cons, not_or] at hd
    exact ih (hS _ ha (Ne.symm hd.1) _ h) hd.2

/-- The exit is reached where every vertex has a next one of lower rank. -/
theorem reaches_of_rank {P : α → Prop} (rank : α → Nat)
    (hnext : ∀ x, P x → x ≠ t → ∃ y, E x y ∧ P y ∧ rank y < rank x) (ha : P a) : Reaches E t a := by
  generalize hn : rank a = n
  induction n using Nat.strongRecOn generalizing a with
  | _ n ih =>
    by_cases hat : a = t
    · rw [hat]
      exact ⟨_, .nil t⟩
    · obtain ⟨y, hy, hP, hlt⟩ := hnext a ha hat
      obtain ⟨l, w⟩ := ih (rank y) (hn ▸ hlt) hP rfl
      exact ⟨_, .cons hy w⟩

end Steps

namespace PostDom

theorem refl (t a : α) : PostDom E t a a := fun _ w => w.start_mem

theorem exit (t a : α) : PostDom E t t a := fun _ w => w.end_mem

theorem eq_exit (h : PostDom E t d t) : d = t := List.mem_singleton.1 (h [t] (.nil t))

theorem trans (h : PostDom E t d b) (h' : PostDom E t b a) : PostDom E t d a := by
  intro l w
  obtain ⟨m, hm, hs⟩ := w.suffix b (h' l w)
  exact hs.subset (h m hm)

/-- What post-dominates a vertex is the vertex, or post-dominates every next one. -/
theorem next (h : PostDom E t d a) (hne : d ≠ a) (he : E a b) : PostDom E t d b :=
  fun _ w => List.mem_of_ne_of_mem hne (h _ (.cons he w))

/-- Sets that are closed backwards along the edges hold post-dominators only. -/
theorem of_closed (S : α → Set α) (hexit : ∀ d ∈ S t, d = t)
    (hclosed : ∀ a, a ≠ t → ∀ d ∈ S a, d = a ∨ ∀ b, E a b → d ∈ S b) (hd : d ∈ S a) :
    PostDom E t d a := by
  intro l w
  induction w with
  | nil => exact List.mem_singleton.2 (hexit d hd)
  | @cons a b c l h w ih =>
    by_cases hne : a = c
    · subst hne
      rw [hexit d hd]
      exact List.mem_cons_self
    · rcases hclosed a hne d hd with rfl | hnext
      · exact List.mem_cons_self
      · exact List.mem_cons_of_mem _ (ih hexit hclosed (hnext _ h))

theorem reaches (h : PostDom E t d a) (hr : Reaches E t a) : Reaches E t d := by
  obtain ⟨l, w⟩ := hr
  obtain ⟨m, hm, -⟩ := w.suffix d (h l w)
  exact ⟨m, hm⟩

theorem antisymm (hr : Reaches E t a) (h : PostDom E t d a) (h' : PostDom E t a d) : d = a := by
  by_contra hne
  -- Each walk from `a` would hold a shorter one.
  have hnone : ∀ n l, l.length ≤ n → ¬Walk E a l t := by
    intro n
    induction n with
    | zero =>
      intro l hl w
      rw [List.length_eq_zero_iff.1 (Nat.le_zero.1 hl)] at w
      cases w
    | succ n ih =>
      intro l hl w
      obtain ⟨m, hm, hlt, -⟩ := w.suffix_lt (h l w) hne
      obtain ⟨m', hm', hs⟩ := hm.suffix a (h' m hm)
      exact ih m' (by have := hs.length_le; omega) hm'
  obtain ⟨l, w⟩ := hr
  exact hnone l.length l (Nat.le_refl _) w

/-- The post-dominators of a vertex that reaches the exit form a chain. -/
theorem chain (hr : Reaches E t a) (hd : PostDom E t d a) (he : PostDom E t e a) :
    PostDom E t d e ∨ PostDom E t e d := by
  by_contra hc
  simp only [not_or, PostDom, not_forall] at hc
  obtain ⟨⟨m, hm, hdm⟩, ⟨m', hm', hem'⟩⟩ := hc
  obtain ⟨l, w⟩ := hr
  obtain ⟨x, p, hx, hp, hfirst, -⟩ := w.first (fun y => y = d ∨ y = e) ⟨d, hd l w, .inl rfl⟩
  rcases hx with rfl | rfl
  · obtain ⟨q, hq, hmem⟩ := hp.append hm'
    rcases (hmem e).1 (he q hq) with h | h
    · rw [hfirst e h (.inr rfl)] at hem'
      exact hem' hm'.start_mem
    · exact hem' h
  · obtain ⟨q, hq, hmem⟩ := hp.append hm
    rcases (hmem d).1 (hd q hq) with h | h
    · rw [hfirst d h (.inl rfl)] at hdm
      exact hdm hm.start_mem
    · exact hdm h

theorem finite (hr : Reaches E t a) : {d | PostDom E t d a}.Finite := by
  obtain ⟨l, w⟩ := hr
  exact (List.finite_toSet l).subset fun d hd => hd l w

end PostDom

namespace Immediate

/-- A vertex that reaches the exit has an immediate post-dominator: the strict one with the most
post-dominators of its own. -/
theorem exists_of_reaches (hr : Reaches E t a) (hne : t ≠ a) : ∃ d, Immediate E t d a := by
  have hfin : {d | d ≠ a ∧ PostDom E t d a}.Finite :=
    (PostDom.finite hr).subset fun d hd => hd.2
  obtain ⟨d, ⟨hda, hd⟩, hmax⟩ := Set.exists_max_image _
    (fun d => {x | PostDom E t x d}.ncard) hfin ⟨t, hne, PostDom.exit t a⟩
  refine ⟨d, hda, hd, fun e hea he => ?_⟩
  rcases PostDom.chain hr hd he with h | h
  · have hsub : {x | PostDom E t x d} ⊆ {x | PostDom E t x e} := fun x hx => PostDom.trans hx h
    have heq := Set.eq_of_subset_of_ncard_le hsub (hmax e ⟨hea, he⟩)
      (PostDom.finite (he.reaches hr))
    have hmem : e ∈ {x | PostDom E t x d} := by
      rw [heq]
      exact PostDom.refl t e
    exact hmem
  · exact h

end Immediate

end WarpSim
