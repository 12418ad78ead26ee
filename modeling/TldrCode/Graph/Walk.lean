import Mathlib.Data.List.Chain
import Mathlib.Logic.Relation

/-!
# Walks and dominance in a directed graph

A graph is a relation `E` on a type of nodes. A walk is the list of the nodes it visits, ends
included. `Dom E r a b`: every walk from `r` to `b` visits `a`. On reachable nodes dominance is a
partial order whose down-sets are chains (`Dom.chain`), so a reachable node other than `r` has a
closest strict dominator, its immediate dominator (`exists_idom`).
-/

namespace TldrCode.Graph

variable {α : Type*} {E : α → α → Prop} {r a b c d x y : α} {l l₁ l₂ : List α} {p : α → Prop}

/-! ## Walks -/

/-- `l` lists the nodes of a walk from `a` to `b`. -/
structure Walk (E : α → α → Prop) (a b : α) (l : List α) : Prop where
  chain : l.IsChain E
  head : l.head? = some a
  last : l.getLast? = some b

/-- `b` is reached from `a`. -/
def Reach (E : α → α → Prop) (a b : α) : Prop := ∃ l, Walk E a b l

theorem exists_first_of_mem (hx : x ∈ l) (hp : p x) :
    ∃ l₁ y l₂, l = l₁ ++ y :: l₂ ∧ p y ∧ ∀ z ∈ l₁, ¬ p z := by
  induction l with
  | nil => cases hx
  | cons a l ih =>
    by_cases ha : p a
    · exact ⟨[], a, l, rfl, ha, by simp⟩
    · have hxl : x ∈ l := (List.mem_cons.1 hx).resolve_left fun h => ha (h ▸ hp)
      obtain ⟨l₁, y, l₂, rfl, hy, hl₁⟩ := ih hxl
      exact ⟨a :: l₁, y, l₂, rfl, hy, by simpa using ⟨ha, hl₁⟩⟩

theorem exists_last_of_mem (hx : x ∈ l) (hp : p x) :
    ∃ l₁ y l₂, l = l₁ ++ y :: l₂ ∧ p y ∧ ∀ z ∈ l₂, ¬ p z := by
  obtain ⟨s, y, t, h, hy, hs⟩ := exists_first_of_mem (List.mem_reverse.2 hx) hp
  refine ⟨t.reverse, y, s.reverse, ?_, hy, by simpa using hs⟩
  rw [← List.reverse_reverse l, h]
  simp

namespace Walk

theorem single (a : α) : Walk E a a [a] := ⟨.singleton a, rfl, rfl⟩

theorem cons (h : E a b) (w : Walk E b c l) : Walk E a c (a :: l) := by
  obtain ⟨hc, hh, hl⟩ := w
  cases l with
  | nil => cases hh
  | cons x l =>
    cases hh
    exact ⟨hc.cons_cons h, rfl, by rwa [List.getLast?_cons_cons]⟩

theorem ne_nil (w : Walk E a b l) : l ≠ [] := by
  rintro rfl
  cases w.head

theorem head_mem (w : Walk E a b l) : a ∈ l := List.mem_of_mem_head? w.head

theorem last_mem (w : Walk E a b l) : b ∈ l := List.mem_of_getLast? w.last

theorem eq_cons (w : Walk E a b l) : ∃ t, l = a :: t := by
  obtain ⟨-, hh, -⟩ := w
  cases l with
  | nil => cases hh
  | cons x t => cases hh; exact ⟨t, rfl⟩

theorem eq_concat (w : Walk E a b l) : ∃ t, l = t ++ [b] := by
  obtain ⟨t, ht⟩ := List.getLast?_eq_some_iff.1 w.last
  exact ⟨t, ht⟩

theorem split_iff :
    Walk E a b (l₁ ++ x :: l₂) ↔ Walk E a x (l₁ ++ [x]) ∧ Walk E x b (x :: l₂) := by
  constructor
  · rintro ⟨hc, hh, hl⟩
    rw [List.isChain_split] at hc
    refine ⟨⟨hc.1, ?_, by simp⟩, ⟨hc.2, rfl, ?_⟩⟩
    · cases l₁ <;> simpa using hh
    · rw [List.getLast?_append] at hl
      cases hx : (x :: l₂).getLast? with
      | none => simp at hx
      | some z => rw [hx] at hl; simpa using hl
  · rintro ⟨⟨hc₁, hh, -⟩, ⟨hc₂, -, hl⟩⟩
    refine ⟨List.isChain_split.2 ⟨hc₁, hc₂⟩, ?_, ?_⟩
    · cases l₁ <;> simpa using hh
    · rw [List.getLast?_append, hl]; rfl

theorem append (w₁ : Walk E a b (l₁ ++ [b])) (w₂ : Walk E b c (b :: l₂)) :
    Walk E a c (l₁ ++ b :: l₂) :=
  split_iff.2 ⟨w₁, w₂⟩

theorem concat (w : Walk E a b l) (h : E b c) : Walk E a c (l ++ [c]) := by
  obtain ⟨t, rfl⟩ := w.eq_concat
  rw [List.append_assoc]
  exact w.append ((single c).cons h)

theorem of_mem (w : Walk E a b l) (hx : x ∈ l) :
    ∃ l₁ l₂, l = l₁ ++ x :: l₂ ∧ Walk E a x (l₁ ++ [x]) ∧ Walk E x b (x :: l₂) := by
  obtain ⟨l₁, l₂, rfl⟩ := List.append_of_mem hx
  exact ⟨l₁, l₂, rfl, split_iff.1 w⟩

theorem reach_of_mem (w : Walk E a b l) (hx : x ∈ l) : Reach E a x := by
  obtain ⟨l₁, l₂, -, w₁, -⟩ := w.of_mem hx
  exact ⟨_, w₁⟩

theorem exists_last_step (w : Walk E a b (l ++ [b])) (hl : l ≠ []) :
    ∃ y, Walk E a y l ∧ E y b := by
  obtain ⟨t, y, rfl⟩ := (List.eq_nil_or_concat' l).resolve_left hl
  rw [List.append_assoc] at w
  obtain ⟨h₁, h₂⟩ := split_iff.1 w
  exact ⟨y, h₁, (List.isChain_cons_cons.1 h₂.chain).1⟩

theorem reverse_iff : Walk (fun x y => E y x) b a l.reverse ↔ Walk E a b l := by
  refine ⟨fun ⟨hc, hh, hl⟩ => ⟨?_, ?_, ?_⟩, fun ⟨hc, hh, hl⟩ => ⟨?_, ?_, ?_⟩⟩
  · exact List.isChain_reverse.1 hc
  · rwa [List.getLast?_reverse] at hl
  · rwa [List.head?_reverse] at hh
  · exact List.isChain_reverse.2 hc
  · rwa [List.head?_reverse]
  · rwa [List.getLast?_reverse]

theorem exists_nodup (w : Walk E a b l) :
    ∃ l', Walk E a b l' ∧ l'.Nodup ∧ ∀ x ∈ l', x ∈ l := by
  induction l generalizing a with
  | nil => exact absurd rfl w.ne_nil
  | cons x t ih =>
    obtain rfl : x = a := by simpa using w.head
    cases t with
    | nil =>
      obtain rfl : x = b := by simpa using w.last
      exact ⟨[x], w, by simp, fun _ => id⟩
    | cons y t =>
      have hxy : E x y := (List.isChain_cons_cons.1 w.chain).1
      have hw : Walk E x b ([x] ++ y :: t) := w
      obtain ⟨l', w', hn, hsub⟩ := ih (split_iff.1 hw).2
      by_cases hx : x ∈ l'
      · obtain ⟨l₁, l₂, rfl, -, w₂⟩ := w'.of_mem hx
        exact ⟨x :: l₂, w₂, (List.nodup_append.1 hn).2.1,
          fun z hz => List.mem_cons_of_mem _ (hsub z (List.mem_append_right _ hz))⟩
      · refine ⟨x :: l', w'.cons hxy, List.nodup_cons.2 ⟨hx, hn⟩, fun z hz => ?_⟩
        exact List.mem_cons.2 ((List.mem_cons.1 hz).imp_right (hsub z))

end Walk

namespace Reach

theorem refl (a : α) : Reach E a a := ⟨_, .single a⟩

theorem trans (h₁ : Reach E a b) (h₂ : Reach E b c) : Reach E a c := by
  obtain ⟨l₁, w₁⟩ := h₁
  obtain ⟨l₂, w₂⟩ := h₂
  obtain ⟨t₁, rfl⟩ := w₁.eq_concat
  obtain ⟨t₂, rfl⟩ := w₂.eq_cons
  exact ⟨_, w₁.append w₂⟩

theorem edge (h : E a b) : Reach E a b := ⟨_, (Walk.single b).cons h⟩

theorem tail (h₁ : Reach E a b) (h₂ : E b c) : Reach E a c := h₁.trans (edge h₂)

theorem induct {P : α → Prop} (h : Reach E r b) (h₀ : P r)
    (hs : ∀ x y, Reach E r x → E x y → P x → P y) : P b := by
  obtain ⟨l, w⟩ := h
  induction l using List.reverseRecOn generalizing b with
  | nil => exact absurd rfl w.ne_nil
  | append_singleton l z ih =>
    have hz : z = b := by simpa using w.last
    subst hz
    by_cases hl : l = []
    · subst hl
      have : z = r := by simpa using w.head
      exact this ▸ h₀
    · obtain ⟨y, wy, hy⟩ := w.exists_last_step hl
      exact hs y z ⟨l, wy⟩ hy (ih wy)

end Reach

/-! ## Dominance -/

/-- Every walk from `r` to `b` visits `a`. -/
def Dom (E : α → α → Prop) (r a b : α) : Prop := ∀ l, Walk E r b l → a ∈ l

/-- `a` dominates `b` and is not `b`. -/
def SDom (E : α → α → Prop) (r a b : α) : Prop := Dom E r a b ∧ a ≠ b

/-- `d` is the closest strict dominator of `b`: it strictly dominates `b`, and every strict
dominator of `b` dominates it. -/
def IDom (E : α → α → Prop) (r d b : α) : Prop :=
  SDom E r d b ∧ ∀ a, SDom E r a b → Dom E r a d

namespace Dom

theorem refl (a : α) : Dom E r a a := fun _ w => w.last_mem

theorem root (b : α) : Dom E r r b := fun _ w => w.head_mem

/-- A walk to a node has, up to any of its nodes, the dominators of that node. -/
theorem mem_prefix (h : Dom E r a x) (w : Walk E r b (l₁ ++ x :: l₂)) : a ∈ l₁ ++ [x] :=
  h _ (Walk.split_iff.1 w).1

theorem trans (h₁ : Dom E r a b) (h₂ : Dom E r b c) : Dom E r a c := by
  intro l w
  obtain ⟨l₁, l₂, rfl, w₁, -⟩ := w.of_mem (h₂ l w)
  have := h₁ _ w₁
  simp only [List.mem_append, List.mem_cons, List.not_mem_nil, or_false] at this ⊢
  tauto

theorem reach (h : Dom E r a b) (hb : Reach E r b) : Reach E r a := by
  obtain ⟨l, w⟩ := hb
  obtain ⟨l₁, l₂, rfl, w₁, -⟩ := w.of_mem (h l w)
  exact ⟨_, w₁⟩

theorem reach_from (h : Dom E r a b) (hb : Reach E r b) : Reach E a b := by
  obtain ⟨l, w⟩ := hb
  obtain ⟨l₁, l₂, rfl, -, w₂⟩ := w.of_mem (h l w)
  exact ⟨_, w₂⟩

theorem antisymm (h₁ : Dom E r a b) (h₂ : Dom E r b a) (ha : Reach E r a) : a = b := by
  obtain ⟨l, w⟩ := ha
  -- cut the walk to `a` at its first visit of `a`; `b` is before it, and `a` before that
  obtain ⟨l₁, l₂, rfl, hl₁⟩ := List.eq_append_cons_of_mem w.last_mem
  by_contra hne
  have hb : b ∈ l₁ := by
    have := h₂.mem_prefix w
    simp only [List.mem_append, List.mem_cons, List.not_mem_nil, or_false] at this
    exact this.resolve_right (Ne.symm hne)
  obtain ⟨m₁, m₂, rfl⟩ := List.append_of_mem hb
  rw [List.append_assoc] at w
  have := h₁.mem_prefix w
  simp only [List.mem_append, List.mem_cons, List.not_mem_nil, or_false] at this
  simp only [List.mem_append, List.mem_cons, not_or] at hl₁
  exact this.elim hl₁.1 hne

theorem chain (ha : Dom E r a c) (hb : Dom E r b c) (hc : Reach E r c) :
    Dom E r a b ∨ Dom E r b a := by
  by_contra hn
  simp only [Dom, not_or, not_forall] at hn
  obtain ⟨⟨la, wa, hla⟩, ⟨lb, wb, hlb⟩⟩ := hn
  obtain ⟨l, w⟩ := hc
  -- after the last visit of `a`, the walk must visit `b`: `a` is reached without it
  obtain ⟨l₁, a, l₂, rfl, rfl, hlast⟩ := exists_last_of_mem (p := (· = a)) (ha l w) rfl
  have hl₂ : a ∉ l₂ := fun h => hlast a h rfl
  have hb₂ : b ∈ l₂ := by
    obtain ⟨t, rfl⟩ := wb.eq_concat
    have := hb _ (wb.append (Walk.split_iff.1 w).2)
    simp only [List.mem_append, List.mem_cons, not_or, List.not_mem_nil, or_false] at this hlb
    tauto
  -- and after that visit of `b` it must visit `a` again
  obtain ⟨m₁, m₂, rfl⟩ := List.append_of_mem hb₂
  obtain ⟨t, rfl⟩ := wa.eq_concat
  rw [← List.cons_append, ← List.append_assoc] at w
  have := ha _ (wa.append (Walk.split_iff.1 w).2)
  simp only [List.mem_append, List.mem_cons, not_or, List.not_mem_nil, or_false] at this hla hl₂
  tauto

/-- From a dominator of `p` a walk leads to `p` through nodes that it dominates. -/
theorem exists_walk (h : Dom E r a b) (hb : Reach E r b) :
    ∃ l, Walk E a b (a :: l) ∧ ∀ x ∈ l, SDom E r a x := by
  obtain ⟨l, w⟩ := hb
  obtain ⟨l₁, a, l₂, rfl, rfl, hlast⟩ := exists_last_of_mem (p := (· = a)) (h l w) rfl
  obtain ⟨-, w₂⟩ := Walk.split_iff.1 w
  refine ⟨l₂, w₂, fun x hx => ⟨fun l' w' => ?_, fun he => hlast x hx he.symm⟩⟩
  -- a walk to `x` goes on to `b` without visiting `a` again
  obtain ⟨m₁, m₂, rfl⟩ := List.append_of_mem hx
  obtain ⟨t, rfl⟩ := w'.eq_concat
  rw [← List.cons_append] at w₂
  have hmem := h _ (w'.append (Walk.split_iff.1 w₂).2)
  simp only [List.mem_append, List.mem_cons, List.not_mem_nil, or_false] at hmem ⊢
  rcases hmem with ht | he | hm
  · exact .inl ht
  · exact .inr he
  · exact absurd rfl (hlast a (by simp [hm]))

theorem pred (h : Dom E r a y) (hne : a ≠ y) (he : E x y) : Dom E r a x := by
  intro l w
  have := h _ (w.concat he)
  simp only [List.mem_append, List.mem_cons, List.not_mem_nil, or_false] at this
  exact this.resolve_right hne

end Dom

namespace SDom

theorem dom (h : SDom E r a b) : Dom E r a b := h.1

theorem irrefl : ¬ SDom E r a a := fun h => h.2 rfl

theorem trans_dom (h₁ : SDom E r a b) (h₂ : Dom E r b c) (hc : Reach E r c) : SDom E r a c := by
  refine ⟨h₁.1.trans h₂, ?_⟩
  rintro rfl
  exact h₁.2 (h₁.1.antisymm h₂ hc)

theorem dom_trans (h₁ : Dom E r a b) (h₂ : SDom E r b c) (hc : Reach E r c) : SDom E r a c := by
  refine ⟨h₁.trans h₂.1, ?_⟩
  rintro rfl
  exact h₂.2 (h₂.1.antisymm h₁ (h₂.1.reach hc))

end SDom

/-! ## Immediate dominators -/

namespace IDom

theorem sdom (h : IDom E r d b) : SDom E r d b := h.1

theorem reach (h : IDom E r d b) (hb : Reach E r b) : Reach E r d := h.1.1.reach hb

theorem unique (h₁ : IDom E r c b) (h₂ : IDom E r d b) (hb : Reach E r b) : c = d :=
  (h₂.2 c h₁.1).antisymm (h₁.2 d h₂.1) (h₁.reach hb)

/-- The strict dominators of a node are the dominators of its immediate dominator. -/
theorem sdom_iff (h : IDom E r d b) (hb : Reach E r b) : SDom E r a b ↔ Dom E r a d :=
  ⟨h.2 a, fun ha => SDom.dom_trans ha h.1 hb⟩

theorem dom_iff (h : IDom E r d b) (hb : Reach E r b) : Dom E r a b ↔ a = b ∨ Dom E r a d := by
  rw [← h.sdom_iff hb]
  by_cases hab : a = b
  · subst hab; simp [Dom.refl]
  · simp [SDom, hab]

end IDom

/-- A walk up to the first visit of its end: the end dominates no node before. -/
theorem Reach.exists_first (h : Reach E r b) :
    ∃ l, Walk E r b (l ++ [b]) ∧ ∀ x ∈ l, ¬ Dom E r b x := by
  obtain ⟨l, w⟩ := h
  obtain ⟨l₁, l₂, rfl, hl₁⟩ := List.eq_append_cons_of_mem w.last_mem
  obtain ⟨w₁, -⟩ := Walk.split_iff.1 w
  refine ⟨l₁, w₁, fun x hx hdom => ?_⟩
  obtain ⟨m₁, m₂, rfl⟩ := List.append_of_mem hx
  rw [List.append_assoc] at w₁
  have hb := hdom.mem_prefix w₁
  simp only [List.mem_append, List.mem_cons, List.not_mem_nil, or_false] at hb hl₁
  tauto

theorem dom_root_iff : Dom E r a r ↔ a = r :=
  ⟨fun h => by simpa using h _ (.single r), fun h => h ▸ .refl a⟩

theorem not_sdom_root : ¬ SDom E r a r := fun h => h.2 (dom_root_iff.1 h.1)

private theorem exists_closest (hb : Reach E r b) :
    ∀ l : List α, l ≠ [] → (∀ a ∈ l, SDom E r a b) → ∃ d ∈ l, ∀ a ∈ l, Dom E r a d := by
  intro l
  induction l with
  | nil => intro h; exact absurd rfl h
  | cons x l ih =>
    intro _ hl
    by_cases hl' : l = []
    · subst hl'
      exact ⟨x, by simp, by simp [Dom.refl]⟩
    · obtain ⟨d, hd, hmax⟩ := ih hl' fun a ha => hl a (List.mem_cons_of_mem _ ha)
      rcases (hl x (by simp)).1.chain (hl d (List.mem_cons_of_mem _ hd)).1 hb with h | h
      · exact ⟨d, List.mem_cons_of_mem _ hd, by simpa using ⟨h, hmax⟩⟩
      · refine ⟨x, by simp, ?_⟩
        simpa using ⟨Dom.refl x, fun a ha => (hmax a ha).trans h⟩

theorem exists_idom (hb : Reach E r b) (hne : b ≠ r) : ∃ d, IDom E r d b := by
  classical
  obtain ⟨l, w⟩ := hb
  have hr : r ∈ l.filter fun a => SDom E r a b := by
    simpa using ⟨w.head_mem, Dom.root b, hne.symm⟩
  obtain ⟨d, hd, hmax⟩ := exists_closest ⟨l, w⟩ (l.filter fun a => SDom E r a b)
    (List.ne_nil_of_mem hr) (by simp)
  refine ⟨d, by simpa using (List.mem_filter.1 hd).2, fun a ha => hmax a ?_⟩
  simpa using ⟨ha.1 l w, ha⟩

end TldrCode.Graph
