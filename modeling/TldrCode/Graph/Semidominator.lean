import TldrCode.Graph.DfsTree
import Mathlib.Data.Nat.Find

/-!
# Semidominators

The theory behind the Lengauer–Tarjan algorithm, over an arbitrary depth-first tree. The
semidominator of `w` is the node of smallest number from which a walk leads to `w` through nodes
numbered after `w` only. Dominance is read off the tree and the semidominators
(`dom_iff_semi`): `d` dominates `w` iff it is an ancestor of `w` and no node strictly below `d` on
the tree path to `w` has a semidominator above `d`. The algorithm's two rules follow:
`isSemi_of_least` (a semidominator is the least of the predecessors before `w` and of the
semidominators above the later ones) and `idom_of_semi_le`, `idom_of_semi_lt` (the immediate
dominator is the semidominator, or that of the node with the least semidominator on the path).
-/

namespace TldrCode.Graph.DfsTree

variable {α : Type*} {E : α → α → Prop} {r : α} (T : DfsTree E r) {c d p s u v w x y : α}

/-! ## Semidominator walks -/

/-- A walk of at least one step from `v` to `w` whose inner nodes are numbered after `w`. -/
def SemiPath (v w : α) : Prop :=
  ∃ l, Walk E v w (v :: (l ++ [w])) ∧ ∀ x ∈ l, T.num w < T.num x

/-- `s` is the node of smallest number with such a walk to `w`. -/
structure IsSemi (s w : α) : Prop where
  reach : Reach E r s
  path : T.SemiPath s w
  min : ∀ v, Reach E r v → T.SemiPath v w → T.num s ≤ T.num v

variable {T}

theorem SemiPath.of_edge (h : E v w) : T.SemiPath v w :=
  ⟨[], (Walk.single w).cons h, by simp⟩

theorem SemiPath.anc (h : T.SemiPath v w) (hv : Reach E r v) (hlt : T.num v < T.num w) :
    T.Anc v w := by
  obtain ⟨l, hw, hl⟩ := h
  refine T.anc_of_min hv hw fun x hx => ?_
  rcases List.mem_cons.1 hx with rfl | hx
  · exact le_rfl
  · rcases List.mem_append.1 hx with hx | hx
    · exact (hlt.trans (hl x hx)).le
    · rw [List.mem_singleton.1 hx]; exact hlt.le

theorem SemiPath.descend (h : T.SemiPath c u) (hv : Reach E r v) (huv : T.Anc u v)
    (hlt : T.num w < T.num u) (he : E v w) : T.SemiPath c w := by
  obtain ⟨l, hl, hlu⟩ := h
  obtain ⟨t, ht, htu⟩ := T.exists_tree_walk huv hv
  obtain ⟨t', rfl⟩ := ht.eq_cons
  refine ⟨l ++ u :: t', ?_, fun x hx => ?_⟩
  · have hcu : Walk E c u ((c :: l) ++ [u]) := hl
    simpa using hcu.append (ht.concat he)
  · rcases List.mem_append.1 hx with hx | hx
    · exact hlt.trans (hlu x hx)
    · obtain ⟨h₁, h₂⟩ := htu x hx
      exact hlt.trans_le (h₁.le (h₂.reach hv))

namespace IsSemi

theorem lt (h : T.IsSemi s w) (hw : Reach E r w) (hne : w ≠ r) : T.num s < T.num w :=
  (h.min _ (T.parent_reach hw hne) (.of_edge (T.parent_edge hw hne))).trans_lt
    (T.parent_lt hw hne)

theorem anc (h : T.IsSemi s w) (hw : Reach E r w) (hne : w ≠ r) : T.Anc s w :=
  h.path.anc h.reach (h.lt hw hne)

end IsSemi

variable (T) in
theorem exists_isSemi (hw : Reach E r w) (hne : w ≠ r) : ∃ s, T.IsSemi s w := by
  classical
  have hp : ∃ n v, Reach E r v ∧ T.SemiPath v w ∧ T.num v = n :=
    ⟨_, _, T.parent_reach hw hne, .of_edge (T.parent_edge hw hne), rfl⟩
  obtain ⟨s, hs, hpath, hn⟩ := Nat.find_spec hp
  exact ⟨s, hs, hpath, fun v hv hvw => hn.trans_le (Nat.find_min' hp ⟨v, hv, hvw, rfl⟩)⟩

variable (T) in
open Classical in
/-- The semidominator of `w`; `w` itself where there is none. -/
noncomputable def semi (w : α) : α :=
  if h : Reach E r w ∧ w ≠ r then Classical.choose (T.exists_isSemi h.1 h.2) else w

variable (T) in
theorem isSemi_semi (hw : Reach E r w) (hne : w ≠ r) : T.IsSemi (T.semi w) w := by
  have h : Reach E r w ∧ w ≠ r := ⟨hw, hne⟩
  simp only [semi, h, and_self, ↓reduceDIte, ne_eq, not_false_eq_true]
  exact Classical.choose_spec (T.exists_isSemi h.1 h.2)

theorem IsSemi.eq_semi (h : T.IsSemi s w) (hw : Reach E r w) (hne : w ≠ r) : s = T.semi w := by
  have h' := T.isSemi_semi hw hne
  exact T.num_inj h.reach h'.reach
    (le_antisymm (h.min _ h'.reach h'.path) (h'.min _ h.reach h.path))

theorem anc_of_dom (h : Dom E r d w) (hw : Reach E r w) : T.Anc d w := by
  obtain ⟨l, hl, hx⟩ := T.exists_tree_walk (T.anc_root hw) hw
  exact (hx d (h l hl)).2

theorem anc_semi_of_sdom (hs : T.IsSemi s w) (h : SDom E r d w) (hw : Reach E r w) :
    T.Anc d s := by
  obtain ⟨t, ht, hx⟩ := T.exists_tree_walk (T.anc_root hs.reach) hs.reach
  obtain ⟨l, hl, hlw⟩ := hs.path
  obtain ⟨t', rfl⟩ := ht.eq_concat
  have hmem := h.1 _ (ht.append hl)
  have hle := (T.anc_of_dom h.1 hw).le hw
  rw [List.mem_append, List.mem_cons, List.mem_append, List.mem_singleton] at hmem
  rcases hmem with hm | rfl | hm | hm
  · exact (hx d (List.mem_append_left _ hm)).2
  · exact .refl
  · exact absurd (hlw d hm) (not_lt.2 hle)
  · exact absurd hm h.2

section Semi

variable (T) in
/-- What the algorithm takes the least of for `w`: a predecessor before `w`, and the semidominator
of a node after `w` at or above a predecessor. -/
inductive Candidate (w : α) : α → Prop
  | edge {v : α} (hv : Reach E r v) (he : E v w) (hlt : T.num v < T.num w) : Candidate w v
  | above {u v : α} (hv : Reach E r v) (he : E v w) (hlt : T.num w < T.num u) (h : T.Anc u v) :
    Candidate w (T.semi u)

theorem ne_root_of_lt (hw : Reach E r w) (hlt : T.num w < T.num u) : u ≠ r := by
  rintro rfl
  exact absurd (T.num_root_le hw) (not_le.2 hlt)

theorem isSemi_of_least (hw : Reach E r w) (hne : w ≠ r)
    (hs : T.Candidate w s) (hmin : ∀ c, T.Candidate w c → T.num s ≤ T.num c) :
    T.IsSemi s w := by
  have hsemi : ∀ u, Reach E r u → T.num w < T.num u → T.IsSemi (T.semi u) u :=
    fun u hu hlt => T.isSemi_semi hu (ne_root_of_lt hw hlt)
  have hpath : ∀ {c}, T.Candidate w c → Reach E r c ∧ T.SemiPath c w := by
    rintro _ (⟨hv, he, -⟩ | ⟨hv, he, hlt, h⟩)
    · exact ⟨hv, .of_edge he⟩
    · have hu := hsemi _ (h.reach hv) hlt
      exact ⟨hu.reach, hu.path.descend hv h hlt he⟩
  refine ⟨(hpath hs).1, (hpath hs).2, fun v hv ⟨l, hl, hlw⟩ => ?_⟩
  by_cases hnil : l = []
  · subst hnil
    have he : E v w := (List.isChain_cons_cons.1 hl.chain).1
    rcases lt_or_ge (T.num v) (T.num w) with hlt | hge
    · exact hmin v (.edge hv he hlt)
    · have hp := hmin _ (.edge (T.parent_reach hw hne) (T.parent_edge hw hne) (T.parent_lt hw hne))
      exact (hp.trans (T.parent_lt hw hne).le).trans hge
  · -- the first smallest inner node is above the predecessor the walk comes through
    obtain ⟨p, hp, he⟩ : ∃ p, Walk E v p (v :: l) ∧ E p w := Walk.exists_last_step hl (by simp)
    obtain ⟨a, t, rfl⟩ := List.exists_cons_of_ne_nil hnil
    have hva : E v a := (List.isChain_cons_cons.1 hp.chain).1
    have hvp : Walk E v p ([v] ++ a :: t) := hp
    have hap : Walk E a p (a :: t) := (Walk.split_iff.1 hvp).2
    obtain ⟨m, l₁, l₂, hm, hanc, -, hlt⟩ := T.exists_min_anc (hv.tail hva) hap
    have hmem : m ∈ a :: t := by rw [hm]; simp
    have hrp : Reach E r p := (hv.tail hva).trans ⟨_, hap⟩
    have hvm : T.SemiPath v m := by
      refine ⟨l₁, ?_, hlt⟩
      have := hp
      rw [hm, ← List.cons_append] at this
      simpa using (Walk.split_iff.1 this).1
    have hsm := hsemi m (hanc.reach hrp) (hlw m hmem)
    exact (hmin _ (.above hrp he (hlw m hmem) hanc)).trans (hsm.min v hv hvm)

/-! ## Dominance from semidominators -/

/-- A walk that misses an ancestor `d` of its end enters the tree path below `d` from before `d`. -/
private theorem exists_jump {l : List α} (hw : Walk E r w l) (h : T.Anc d w) (hd : d ∉ l) :
    ∃ y, T.Anc d y ∧ d ≠ y ∧ T.Anc y w ∧ T.num (T.semi y) < T.num d := by
  classical
  have hrw : Reach E r w := ⟨l, hw⟩
  have hrd : Reach E r d := h.reach hrw
  have hreach : ∀ {z}, z ∈ l → Reach E r z := fun hz => by
    obtain ⟨_, _, _, w₁, _⟩ := hw.of_mem hz
    exact ⟨_, w₁⟩
  -- `x` is the last node of the walk before `d`
  obtain ⟨l₁, x, l₂, rfl, hx, hl₂⟩ : ∃ l₁ x l₂, l = l₁ ++ x :: l₂ ∧ T.num x < T.num d ∧
      ∀ z ∈ l₂, T.num d ≤ T.num z := by
    have hr : T.num r < T.num d := lt_of_le_of_ne (T.num_root_le hrd) fun he =>
      hd (T.num_inj (.refl r) hrd he ▸ hw.head_mem)
    obtain ⟨l₁, x, l₂, h₁, h₂, h₃⟩ := exists_last_of_mem (p := fun z => T.num z < T.num d)
      hw.head_mem hr
    exact ⟨l₁, x, l₂, h₁, h₂, fun z hz => not_lt.1 (h₃ z hz)⟩
  have hxw : x ≠ w := fun he => absurd (h.le hrw) (not_le.2 (he ▸ hx))
  have hwl₂ : w ∈ l₂ := by
    have := (Walk.split_iff.1 hw).2.last_mem
    rcases List.mem_cons.1 this with he | hm
    · exact absurd he.symm hxw
    · exact hm
  -- `y` is the first node after `x` on the tree path from `d` to `w`
  obtain ⟨m₁, y, m₂, rfl, ⟨hdy, hyw⟩, hm₁⟩ := exists_first_of_mem
    (p := fun z => T.Anc d z ∧ T.Anc z w) hwl₂ ⟨h, .refl⟩
  have hdne : d ≠ y := by rintro rfl; exact hd (by simp)
  have hry : Reach E r y := hyw.reach hrw
  have hyr : y ≠ r := by
    rintro rfl
    exact hdne (hdy.antisymm (T.anc_root hrd) hry)
  have hwalk : Walk E x y (x :: (m₁ ++ [y])) := by
    have := (Walk.split_iff.1 hw).2
    rw [← List.cons_append] at this
    simpa using (Walk.split_iff.1 this).1
  have hjump : T.SemiPath x y := by
    refine ⟨m₁, hwalk, fun z hz => ?_⟩
    obtain ⟨a, t, ht⟩ := List.exists_cons_of_ne_nil (List.ne_nil_of_mem hz)
    subst ht
    have hxy : Walk E x y ([x] ++ a :: (t ++ [y])) := by simpa using hwalk
    have hay : Walk E a y (a :: (t ++ [y])) := (Walk.split_iff.1 hxy).2
    obtain ⟨m, n₁, n₂, hm, hanc, hmin, -⟩ := T.exists_min_anc (hreach (by simp)) hay
    have hmem : m ∈ (a :: t) ++ [y] := by rw [List.cons_append, hm]; simp
    have hmy : m = y := by
      rcases List.mem_append.1 hmem with hmt | hmy
      · have hdm : T.Anc d m := hdy.of_le hanc hry (hl₂ m (List.mem_append_left _ hmt))
        exact absurd ⟨hdm, hanc.trans hyw⟩ (hm₁ m hmt)
      · exact List.mem_singleton.1 hmy
    have hzne : z ≠ y := fun he => hm₁ z hz (he ▸ ⟨hdy, hyw⟩)
    have hle : T.num y ≤ T.num z := hmy ▸ hmin z (List.mem_append_left [y] hz)
    refine lt_of_le_of_ne hle fun he => hzne (T.num_inj hry ?_ he).symm
    exact hreach (List.mem_append_right _ (List.mem_cons_of_mem _ (List.mem_append_left _ hz)))
  exact ⟨y, hdy, hdne, hyw, ((T.isSemi_semi hry hyr).min x (hreach (by simp)) hjump).trans_lt hx⟩

/-- **Dominance from semidominators.** -/
theorem dom_iff_semi (hw : Reach E r w) : Dom E r d w ↔
    T.Anc d w ∧ ∀ y, T.Anc d y → d ≠ y → T.Anc y w → T.num d ≤ T.num (T.semi y) := by
  constructor
  · refine fun h => ⟨T.anc_of_dom h hw, fun y hdy hne hyw => ?_⟩
    have hry : Reach E r y := hyw.reach hw
    have hyr : y ≠ r := by
      rintro rfl
      exact hne (hdy.antisymm (T.anc_root (hdy.reach hry)) hry)
    have hs := T.isSemi_semi hry hyr
    by_contra hlt
    rw [not_le] at hlt
    -- down the tree to the semidominator of `y`, to `y` through late nodes, and down to `w`
    obtain ⟨t₁, ht₁, hx₁⟩ := T.exists_tree_walk (T.anc_root hs.reach) hs.reach
    obtain ⟨l, hl, hlw⟩ := hs.path
    obtain ⟨t₂, ht₂, hx₂⟩ := T.exists_tree_walk hyw hw
    obtain ⟨t₁', rfl⟩ := ht₁.eq_concat
    obtain ⟨t₂', rfl⟩ := ht₂.eq_cons
    have hdlt : T.num d < T.num y := hdy.lt_of_ne hry hne
    have hsy : Walk E (T.semi y) y ((T.semi y :: l) ++ [y]) := hl
    have hmem : d ∈ t₁' ++ T.semi y :: (l ++ y :: t₂') := h _ (ht₁.append (hsy.append ht₂))
    simp only [List.mem_append, List.mem_cons] at hmem
    have hne₁ : ∀ z ∈ t₁' ++ [T.semi y], d ≠ z := by
      rintro z hz rfl
      exact absurd ((hx₁ d hz).2.le hs.reach) (not_le.2 hlt)
    have hne₂ : ∀ z ∈ l, d ≠ z := by
      rintro z hz rfl
      exact absurd (hlw d hz) (not_lt.2 hdlt.le)
    have hne₃ : ∀ z ∈ y :: t₂', d ≠ z := by
      rintro z hz rfl
      exact absurd ((hx₂ d hz).1.le ((hx₂ d hz).2.reach hw)) (not_le.2 hdlt)
    rcases hmem with hm | hm | hm | hm | hm
    · exact hne₁ d (List.mem_append_left _ hm) rfl
    · exact hne₁ d (by simp [hm]) rfl
    · exact hne₂ d hm rfl
    · exact hne₃ d (by simp [hm]) rfl
    · exact hne₃ d (by simp [hm]) rfl
  · rintro ⟨hanc, hmin⟩ l hl
    by_contra hd
    obtain ⟨y, hdy, hne, hyw, hlt⟩ := exists_jump hl hanc hd
    exact absurd (hmin y hdy hne hyw) (not_le.2 hlt)

section Idom

variable (hw : Reach E r w) (hwr : w ≠ r) (hsu : T.Anc (T.semi w) u) (hne : T.semi w ≠ u)
  (huw : T.Anc u w)
  (hmin : ∀ y, T.Anc (T.semi w) y → T.semi w ≠ y → T.Anc y w → T.num (T.semi u) ≤ T.num (T.semi y))

include hw hwr hmin in
/-- If no semidominator on the path below `semi w` is above it, `semi w` is the immediate
dominator. -/
theorem idom_of_semi_le (hle : T.num (T.semi w) ≤ T.num (T.semi u)) : IDom E r (T.semi w) w := by
  have hs := T.isSemi_semi hw hwr
  have hdom : Dom E r (T.semi w) w := (dom_iff_semi hw).2
    ⟨hs.anc hw hwr, fun y h₁ h₂ h₃ => hle.trans (hmin y h₁ h₂ h₃)⟩
  refine ⟨⟨hdom, fun he => ?_⟩, fun a ha => ?_⟩
  · exact absurd (hs.lt hw hwr) (by rw [he]; exact lt_irrefl _)
  · rcases ha.1.chain hdom hw with h | h
    · exact h
    · have hanc := anc_semi_of_sdom hs ha hw
      rw [hanc.antisymm (T.anc_of_dom h (hanc.reach hs.reach)) hs.reach]
      exact .refl _

include hw hwr hsu hne huw hmin in
/-- Otherwise `w` has the strict dominators of the node `u` with the least semidominator. -/
theorem idom_of_semi_lt (hlt : T.num (T.semi u) < T.num (T.semi w)) (hd : IDom E r d u) :
    IDom E r d w := by
  have hs := T.isSemi_semi hw hwr
  have hu : Reach E r u := huw.reach hw
  have key : ∀ a, SDom E r a w ↔ SDom E r a u := by
    intro a
    constructor
    · intro ha
      have has : T.Anc a (T.semi w) := anc_semi_of_sdom hs ha hw
      have halt : T.num a < T.num u := (has.le hs.reach).trans_lt (hsu.lt_of_ne hu hne)
      refine ⟨(dom_iff_semi hu).2 ⟨has.trans hsu, fun y h₁ h₂ h₃ => ?_⟩, ?_⟩
      · exact ((dom_iff_semi hw).1 ha.1).2 y h₁ h₂ (h₃.trans huw)
      · rintro rfl; exact lt_irrefl _ halt
    · intro ha
      obtain ⟨hau, hmina⟩ := (dom_iff_semi hu).1 ha.1
      have hale : T.num a ≤ T.num (T.semi u) := hmina u hau ha.2 .refl
      have halt : T.num a < T.num (T.semi w) := hale.trans_lt hlt
      refine ⟨(dom_iff_semi hw).2 ⟨hau.trans huw, fun y h₁ h₂ h₃ => ?_⟩, ?_⟩
      · rcases le_total (T.num y) (T.num u) with hyu | huy
        · exact hmina y h₁ h₂ (h₃.of_le huw hw hyu)
        · have hsy : T.Anc (T.semi w) y := hsu.trans (huw.of_le h₃ hw huy)
          refine hale.trans (hmin y hsy ?_ h₃)
          rintro he
          exact absurd (hsu.lt_of_ne hu hne) (not_lt.2 (he ▸ huy))
      · rintro rfl
        exact absurd (hs.lt hw hwr) (not_lt.2 halt.le)
  exact ⟨(key d).2 hd.1, fun a ha => hd.2 a ((key a).1 ha)⟩

end Idom

end Semi

end TldrCode.Graph.DfsTree
