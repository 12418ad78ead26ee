import Mathlib.Data.Finset.Card
import Mathlib.Data.Fintype.Basic
import Mathlib.Logic.Function.Basic
import Mathlib.Logic.Relation

/-!
# Forests of parents

Every node has a parent, and roots are their own parents. A node may be hung below its root without
a change of any root (`RootOf.compress`), and a root that is hung below another one takes its nodes
along (`RootOf.link`). When the pairs whose roots have been linked are known, two nodes have the
same root exactly if they are equivalent by these pairs (`SameRoot.link_iff`).
-/

namespace TldrCode.Graph

open Relation Function

variable {α : Type*} {parent : α → α} {x y r s : α} {rank : α → Nat} {nodes : Finset α}

/-- The node that is reached from another one by parents and is its own parent. -/
inductive RootOf (parent : α → α) : α → α → Prop
  | root {r : α} (h : parent r = r) : RootOf parent r r
  | step {x r : α} (h : parent x ≠ x) (hr : RootOf parent (parent x) r) : RootOf parent x r

namespace RootOf

theorem isRoot (h : RootOf parent x r) : parent r = r := by
  induction h with
  | root h => exact h
  | step _ _ ih => exact ih

theorem eq_of_isRoot (h : RootOf parent x r) (hx : parent x = x) : r = x := by
  cases h with
  | root _ => rfl
  | step hne _ => exact absurd hx hne

theorem unique (h : RootOf parent x r) (h' : RootOf parent x s) : r = s := by
  induction h with
  | root hr => exact (h'.eq_of_isRoot hr).symm
  | step hne _ ih =>
    cases h' with
    | root hr => exact absurd hr hne
    | step _ hs => exact ih hs

theorem parent_iff : RootOf parent (parent x) r ↔ RootOf parent x r := by
  by_cases hx : parent x = x
  · rw [hx]
  · constructor
    · exact .step hx
    · intro h
      cases h with
      | root hr => exact absurd hr hx
      | step _ hr => exact hr

theorem rank_lt (hrank : ∀ x, parent x ≠ x → rank x < rank (parent x)) (h : RootOf parent x r)
    (hne : parent x ≠ x) : rank x < rank r := by
  induction h with
  | root hr => exact absurd hr hne
  | @step x r hx hr ih =>
    by_cases hp : parent (parent x) = parent x
    · rw [hr.eq_of_isRoot hp]
      exact hrank x hx
    · exact (hrank x hx).trans (ih hp)

variable [DecidableEq α]

/-- **A node is hung below its root**: all nodes keep their roots. -/
theorem compress (hx : RootOf parent x r) (h : RootOf parent y s) :
    RootOf (update parent x r) y s := by
  induction h with
  | @root s hs =>
    refine .root ?_
    by_cases hsx : s = x
    · subst hsx
      rw [update_self, hx.eq_of_isRoot hs]
    · rw [update_of_ne hsx, hs]
  | @step y s hy hs ih =>
    by_cases hyx : y = x
    · subst hyx
      have hsr : s = r := hs.unique (parent_iff.2 hx)
      subst hsr
      have hne : s ≠ y := fun heq => hy (by rw [← heq]; exact hx.isRoot)
      refine .step (by rwa [update_self]) ?_
      rw [update_self]
      exact .root (by rw [update_of_ne hne, hx.isRoot])
    · refine .step (by rwa [update_of_ne hyx]) ?_
      rwa [update_of_ne hyx]

/-- **A root is hung below another one**: its nodes get the other root. -/
theorem link {r' : α} (hr : parent r = r) (hr' : parent r' = r') (hne : r ≠ r')
    (h : RootOf parent y s) :
    RootOf (update parent r r') y (if s = r then r' else s) := by
  induction h with
  | @root s hs =>
    split_ifs with hsr
    · subst hsr
      refine .step (by rw [update_self]; exact hne.symm) ?_
      rw [update_self]
      exact .root (by rw [update_of_ne hne.symm, hr'])
    · exact .root (by rw [update_of_ne hsr, hs])
  | @step y s hy _ ih =>
    have hyr : y ≠ r := fun heq => hy (by rw [heq, hr])
    refine .step (by rwa [update_of_ne hyr]) ?_
    rwa [update_of_ne hyr]

end RootOf

/-! ## Ranks -/

/-- A rank that increases along the parents and is bounded gives every node a root. -/
theorem exists_rootOf {bound : Nat} (hrank : ∀ x, parent x ≠ x → rank x < rank (parent x))
    (hbound : ∀ x, rank x ≤ bound) (x : α) : ∃ r, RootOf parent x r := by
  generalize hn : bound - rank x = n
  induction n using Nat.strongRecOn generalizing x with
  | ind n ih =>
    by_cases hx : parent x = x
    · exact ⟨x, .root hx⟩
    · have hlt := hrank x hx
      have hle := hbound (parent x)
      obtain ⟨r, hr⟩ := ih (bound - rank (parent x)) (by omega) (parent x) rfl
      exact ⟨r, .step hx hr⟩

def above (nodes : Finset α) (rank : α → Nat) (x : α) : Nat :=
  (nodes.filter fun y => rank x < rank y).card

theorem above_lt (hy : y ∈ nodes) (h : rank x < rank y) :
    above nodes rank y < above nodes rank x := by
  refine Finset.card_lt_card ⟨fun z hz => ?_, fun hsub => ?_⟩
  · obtain ⟨hz, hlt⟩ := Finset.mem_filter.1 hz
    exact Finset.mem_filter.2 ⟨hz, h.trans hlt⟩
  · exact absurd (Finset.mem_filter.1 (hsub (Finset.mem_filter.2 ⟨hy, h⟩))).2 (Nat.lt_irrefl _)

theorem above_lt_card (hx : x ∈ nodes) : above nodes rank x < nodes.card :=
  Finset.card_lt_card ⟨Finset.filter_subset _ _, fun hsub =>
    absurd (Finset.mem_filter.1 (hsub hx)).2 (Nat.lt_irrefl _)⟩

/-! ## Equivalence -/

def SameRoot (parent : α → α) (x y : α) : Prop := ∃ r, RootOf parent x r ∧ RootOf parent y r

def Rooted (parent : α → α) : Prop := ∀ x, ∃ r, RootOf parent x r

theorem SameRoot.symm (h : SameRoot parent x y) : SameRoot parent y x := by
  obtain ⟨r, hx, hy⟩ := h
  exact ⟨r, hy, hx⟩

theorem SameRoot.trans {z : α} (h : SameRoot parent x y) (h' : SameRoot parent y z) :
    SameRoot parent x z := by
  obtain ⟨r, hx, hy⟩ := h
  obtain ⟨s, hy', hz⟩ := h'
  rw [hy'.unique hy] at hz
  exact ⟨r, hx, hz⟩

theorem Rooted.sameRoot_refl (h : Rooted parent) (x : α) : SameRoot parent x x := by
  obtain ⟨r, hr⟩ := h x
  exact ⟨r, hr, hr⟩

theorem sameRoot_iff (hx : RootOf parent x r) (hy : RootOf parent y s) :
    SameRoot parent x y ↔ r = s := by
  constructor
  · rintro ⟨t, hxt, hyt⟩
    rw [hx.unique hxt, hy.unique hyt]
  · rintro rfl
    exact ⟨r, hx, hy⟩

theorem Rooted.sameRoot_congr {parent' : α → α} (h : Rooted parent)
    (hroots : ∀ x r, RootOf parent x r → RootOf parent' x r) :
    SameRoot parent' x y ↔ SameRoot parent x y := by
  obtain ⟨r, hr⟩ := h x
  obtain ⟨s, hs⟩ := h y
  rw [sameRoot_iff hr hs, sameRoot_iff (hroots x r hr) (hroots y s hs)]

theorem Rooted.equivalence (h : Rooted parent) : Equivalence (SameRoot parent) :=
  ⟨h.sameRoot_refl, SameRoot.symm, SameRoot.trans⟩

/-- What an equivalence has of the pairs it has of all that is equivalent by them. -/
theorem eqvGen_le {R E : α → α → Prop} (hE : Equivalence E) (h : ∀ x y, R x y → E x y)
    (hxy : EqvGen R x y) : E x y := by
  induction hxy with
  | rel x y hxy => exact h x y hxy
  | refl x => exact hE.refl x
  | symm _ _ _ ih => exact hE.symm ih
  | trans _ _ _ _ _ ih ih' => exact hE.trans ih ih'

section Link

variable [DecidableEq α] {r' : α}

theorem Rooted.link (h : Rooted parent) (hr : parent r = r) (hr' : parent r' = r') (hne : r ≠ r') :
    Rooted (update parent r r') := by
  intro x
  obtain ⟨s, hs⟩ := h x
  exact ⟨_, hs.link hr hr' hne⟩

theorem SameRoot.link (h : SameRoot parent x y) (hr : parent r = r) (hr' : parent r' = r')
    (hne : r ≠ r') : SameRoot (update parent r r') x y := by
  obtain ⟨s, hx, hy⟩ := h
  exact ⟨_, hx.link hr hr' hne, hy.link hr hr' hne⟩

/-- **Linked roots**: when the roots of two nodes have been linked, two nodes have the same root
exactly if they are equivalent by the pairs before and this one. -/
theorem sameRoot_link_iff {R S : α → α → Prop} {u v : α} (hrooted : Rooted parent)
    (hR : ∀ x y, SameRoot parent x y ↔ EqvGen R x y) (hu : RootOf parent u r)
    (hv : RootOf parent v r') (hne : r ≠ r') (hRS : ∀ x y, R x y → S x y) (huv : EqvGen S u v)
    (hS : ∀ x y, S x y → R x y ∨ x = u ∧ y = v ∨ x = v ∧ y = u) :
    SameRoot (update parent r r') x y ↔ EqvGen S x y := by
  have hr := hu.isRoot
  have hr' := hv.isRoot
  have hkept : ∀ {x y}, SameRoot parent x y → EqvGen S x y := fun h =>
    ((hR _ _).1 h).mono hRS
  constructor
  · intro h
    obtain ⟨s, hs⟩ := hrooted x
    obtain ⟨t, ht⟩ := hrooted y
    rw [sameRoot_iff (hs.link hr hr' hne) (ht.link hr hr' hne)] at h
    split_ifs at h with hsr htr htr
    · exact hkept ⟨r, hsr ▸ hs, htr ▸ ht⟩
    · exact .trans _ _ _ (.trans _ _ _ (hkept ⟨r, hsr ▸ hs, hu⟩) huv) (hkept ⟨r', hv, h ▸ ht⟩)
    · exact .trans _ _ _ (.trans _ _ _ (hkept ⟨r', h ▸ hs, hv⟩) (huv.symm _ _))
        (hkept ⟨r, hu, htr ▸ ht⟩)
    · exact hkept ⟨s, hs, h ▸ ht⟩
  · have hsame : SameRoot (update parent r r') u v := by
      refine (sameRoot_iff (hu.link hr hr' hne) (hv.link hr hr' hne)).2 ?_
      rw [if_pos rfl, if_neg hne.symm]
    refine eqvGen_le (hrooted.link hr hr' hne).equivalence fun x y hxy => ?_
    rcases hS x y hxy with hxy | ⟨rfl, rfl⟩ | ⟨rfl, rfl⟩
    · exact ((hR x y).2 (.rel x y hxy)).link hr hr' hne
    · exact hsame
    · exact hsame.symm

end Link

end TldrCode.Graph
