import TldrCode.Graph.Walk

/-!
# Depth-first search trees

`DfsTree E r` is what a depth-first search from `r` leaves behind: the order `num` in which the
reachable nodes were discovered and the tree edge `parent` each was discovered by. Two facts
carry everything: an edge that goes forward in the order goes down the tree (`forward`), and the
descendants of a node are an interval of the order (`interval`). The node with the smallest
number on a walk is then an ancestor of the end of the walk (`exists_min_anc`).
-/

namespace TldrCode.Graph

variable {α : Type*} {E : α → α → Prop} {r : α}

theorem exists_first_min (f : α → ℕ) : ∀ l : List α, l ≠ [] →
    ∃ m l₁ l₂, l = l₁ ++ m :: l₂ ∧ (∀ x ∈ l, f m ≤ f x) ∧ ∀ x ∈ l₁, f m < f x := by
  intro l
  induction l with
  | nil => intro h; exact absurd rfl h
  | cons x l ih =>
    intro _
    by_cases hl : l = []
    · subst hl
      exact ⟨x, [], [], by simp⟩
    · obtain ⟨m, l₁, l₂, rfl, hmin, hlt⟩ := ih hl
      rcases le_or_gt (f x) (f m) with hle | hgt
      · refine ⟨x, [], l₁ ++ m :: l₂, rfl, ?_, by simp⟩
        rintro y (_ | ⟨_, hy⟩)
        · exact le_rfl
        · exact hle.trans (hmin y hy)
      · refine ⟨m, x :: l₁, l₂, rfl, ?_, ?_⟩
        · rintro y (_ | ⟨_, hy⟩)
          · exact hgt.le
          · exact hmin y hy
        · rintro y (_ | ⟨_, hy⟩)
          · exact hgt
          · exact hlt y hy

/-- `v` is `w` or above it in the forest of the parent links. -/
inductive Anc (r : α) (parent : α → α) (v : α) : α → Prop
  | refl : Anc r parent v v
  | step {w : α} (hw : w ≠ r) (h : Anc r parent v (parent w)) : Anc r parent v w

theorem Anc.trans {parent : α → α} {u v w : α} (h₁ : Anc r parent u v) (h₂ : Anc r parent v w) :
    Anc r parent u w := by
  induction h₂ with
  | refl => exact h₁
  | step hw _ ih => exact .step hw ih

/-- The ancestors of a node depend only on the links of a set of nodes closed under them. -/
theorem Anc.congr {parent parent' : α → α} {S : α → Prop} {v w : α} (h : Anc r parent v w)
    (heq : ∀ x, S x → x ≠ r → parent' x = parent x) (hS : ∀ x, S x → x ≠ r → S (parent x))
    (hw : S w) : Anc r parent' v w := by
  induction h with
  | refl => exact .refl
  | step hne _ ih =>
    refine .step hne ?_
    rw [heq _ hw hne]
    exact ih (hS _ hw hne)

/-- A discovery order of the nodes reachable from `r` with its tree. -/
structure DfsTree (E : α → α → Prop) (r : α) where
  num : α → ℕ
  parent : α → α
  num_inj : ∀ {v w}, Reach E r v → Reach E r w → num v = num w → v = w
  parent_edge : ∀ {v}, Reach E r v → v ≠ r → E (parent v) v
  parent_reach : ∀ {v}, Reach E r v → v ≠ r → Reach E r (parent v)
  parent_lt : ∀ {v}, Reach E r v → v ≠ r → num (parent v) < num v
  forward : ∀ {v w}, Reach E r v → E v w → num v < num w → Anc r parent v w
  interval : ∀ {v x w}, Reach E r w → Reach E r x → Anc r parent v w → num v ≤ num x →
    num x ≤ num w → Anc r parent v x

namespace DfsTree

variable (T : DfsTree E r) {u v w x y : α} {l l₁ l₂ : List α}

/-- `v` is an ancestor of `w`, or `w` itself. -/
abbrev Anc (v w : α) : Prop := Graph.Anc r T.parent v w

variable {T}

theorem Anc.reach (h : T.Anc v w) (hw : Reach E r w) : Reach E r v := by
  induction h with
  | refl => exact hw
  | step hne _ ih => exact ih (T.parent_reach hw hne)

theorem Anc.le (h : T.Anc v w) (hw : Reach E r w) : T.num v ≤ T.num w := by
  induction h with
  | refl => exact le_rfl
  | step hne _ ih => exact (ih (T.parent_reach hw hne)).trans (T.parent_lt hw hne).le

theorem Anc.lt_of_ne (h : T.Anc v w) (hw : Reach E r w) (hne : v ≠ w) : T.num v < T.num w :=
  lt_of_le_of_ne (h.le hw) fun he => hne (T.num_inj (h.reach hw) hw he)

theorem Anc.antisymm (h₁ : T.Anc v w) (h₂ : T.Anc w v) (hw : Reach E r w) : v = w :=
  T.num_inj (h₁.reach hw) hw (le_antisymm (h₁.le hw) (h₂.le (h₁.reach hw)))

theorem Anc.parent (h : T.Anc v w) (hne : v ≠ w) : w ≠ r ∧ T.Anc v (T.parent w) := by
  cases h with
  | refl => exact absurd rfl hne
  | step hw h => exact ⟨hw, h⟩

theorem Anc.of_le (h₁ : T.Anc u w) (h₂ : T.Anc v w) (hw : Reach E r w)
    (hle : T.num u ≤ T.num v) : T.Anc u v :=
  T.interval hw (h₂.reach hw) h₁ hle (h₂.le hw)

variable (T)

theorem anc_parent (hne : w ≠ r) : T.Anc (T.parent w) w := .step hne .refl

theorem anc_root (hw : Reach E r w) : T.Anc r w := by
  generalize hn : T.num w = n
  induction n using Nat.strong_induction_on generalizing w with
  | _ n ih =>
    by_cases hne : w = r
    · subst hne; exact .refl
    · exact .step hne (ih _ (hn ▸ T.parent_lt hw hne) (T.parent_reach hw hne) rfl)

theorem num_root_le (hw : Reach E r w) : T.num r ≤ T.num w := (T.anc_root hw).le hw

theorem exists_tree_walk (h : T.Anc v w) (hw : Reach E r w) :
    ∃ l, Walk E v w l ∧ ∀ x ∈ l, T.Anc v x ∧ T.Anc x w := by
  induction h with
  | refl => exact ⟨_, .single v, by simp [Graph.Anc.refl]⟩
  | @step w hne h ih =>
    obtain ⟨l, hl, hx⟩ := ih (T.parent_reach hw hne)
    refine ⟨_, hl.concat (T.parent_edge hw hne), fun x hx' => ?_⟩
    rcases List.mem_append.1 hx' with h' | h'
    · exact ⟨(hx x h').1, .step hne (hx x h').2⟩
    · obtain rfl := List.mem_singleton.1 h'
      exact ⟨.step hne h, .refl⟩

theorem anc_of_min (hm : Reach E r v) (w : Walk E v u l) (hmin : ∀ x ∈ l, T.num v ≤ T.num x) :
    T.Anc v u := by
  induction l using List.reverseRecOn generalizing u with
  | nil => exact absurd rfl w.ne_nil
  | append_singleton l z ih =>
    have hz : z = u := by simpa using w.last
    subst hz
    by_cases hl : l = []
    · subst hl
      have : z = v := by simpa using w.head
      exact this ▸ .refl
    · obtain ⟨y, wy, hy⟩ := w.exists_last_step hl
      have hvy := ih wy fun x hx => hmin x (List.mem_append_left _ hx)
      have ry := hm.trans ⟨l, wy⟩
      have rz := ry.tail hy
      rcases lt_or_ge (T.num y) (T.num z) with hlt | hge
      · exact hvy.trans (T.forward ry hy hlt)
      · exact T.interval ry rz hvy (hmin z (by simp)) hge

theorem exists_min_anc (hv : Reach E r v) (w : Walk E v u l) :
    ∃ m l₁ l₂, l = l₁ ++ m :: l₂ ∧ T.Anc m u ∧ (∀ x ∈ l, T.num m ≤ T.num x) ∧
      ∀ x ∈ l₁, T.num m < T.num x := by
  obtain ⟨m, l₁, l₂, rfl, hmin, hlt⟩ := exists_first_min T.num l w.ne_nil
  obtain ⟨w₁, w₂⟩ := Walk.split_iff.1 w
  exact ⟨m, l₁, l₂, rfl, T.anc_of_min (hv.trans ⟨_, w₁⟩) w₂
    fun x hx => hmin x (List.mem_append_right _ hx), hmin, hlt⟩

/-! ## Tree paths -/

/-- `y` is on the tree path from `a` down to `v`, below `a`. -/
def OnPath (a v y : α) : Prop := T.Anc a y ∧ a ≠ y ∧ T.Anc y v

/-- `u` has the least key on the tree path from `a` down to `v`. -/
structure LeastOn (k : α → ℕ) (a v u : α) : Prop where
  on : T.OnPath a v u
  least : ∀ y, T.OnPath a v y → k u ≤ k y

variable {T} {a b : α} {k : α → ℕ}

namespace OnPath

theorem reach (h : T.OnPath a v y) (hv : Reach E r v) : Reach E r y := h.2.2.reach hv

theorem lt (h : T.OnPath a v y) (hv : Reach E r v) : T.num a < T.num y :=
  h.1.lt_of_ne (h.reach hv) h.2.1

theorem ne_root (h : T.OnPath a v y) (hv : Reach E r v) : y ≠ r := by
  rintro rfl
  exact absurd (h.lt hv) (not_lt.2 (T.num_root_le (h.1.reach (h.reach hv))))

theorem of_anc (h : T.OnPath a b y) (hbv : T.Anc b v) : T.OnPath a v y :=
  ⟨h.1, h.2.1, h.2.2.trans hbv⟩

theorem above (h : T.OnPath b v y) (hab : T.Anc a b) (hv : Reach E r v) : T.OnPath a v y := by
  refine ⟨hab.trans h.1, ?_, h.2.2⟩
  rintro rfl
  exact absurd (h.lt hv) (not_lt.2 (hab.le (h.1.reach (h.reach hv))))

/-- A node of the path from `a` to `v` is on the part above `b` or on the part below it. -/
theorem split (h : T.OnPath a v y) (hbv : T.Anc b v) (hv : Reach E r v) :
    T.OnPath a b y ∨ T.OnPath b v y := by
  rcases le_or_gt (T.num y) (T.num b) with hle | hlt
  · exact .inl ⟨h.1, h.2.1, h.2.2.of_le hbv hv hle⟩
  · refine .inr ⟨hbv.of_le h.2.2 hv hlt.le, ?_, h.2.2⟩
    rintro rfl
    exact lt_irrefl _ hlt

end OnPath

theorem onPath_last (h : T.Anc a v) (hne : a ≠ v) : T.OnPath a v v := ⟨h, hne, .refl⟩

namespace LeastOn

theorem append (h₁ : T.LeastOn k a b u) (h₂ : T.LeastOn k b v w) (hbv : T.Anc b v)
    (hv : Reach E r v) : T.LeastOn k a v (if k u < k w then u else w) := by
  have hab : T.Anc a b := h₁.on.1.trans h₁.on.2.2
  split_ifs with hlt
  · refine ⟨h₁.on.of_anc hbv, fun y hy => ?_⟩
    rcases hy.split hbv hv with h | h
    · exact h₁.least y h
    · exact hlt.le.trans (h₂.least y h)
  · refine ⟨h₂.on.above hab hv, fun y hy => ?_⟩
    rcases hy.split hbv hv with h | h
    · exact (not_lt.1 hlt).trans (h₁.least y h)
    · exact h₂.least y h

theorem congr {k' : α → ℕ} (h : T.LeastOn k a v u) (heq : ∀ y, T.OnPath a v y → k' y = k y) :
    T.LeastOn k' a v u :=
  ⟨h.on, fun y hy => by rw [heq u h.on, heq y hy]; exact h.least y hy⟩

end LeastOn

theorem OnPath.eq_of_parent (h : T.OnPath (T.parent v) v y) (hv : Reach E r v) (hne : v ≠ r) :
    y = v := by
  by_contra hyv
  obtain ⟨-, hyp⟩ := h.2.2.parent hyv
  exact h.2.1 (h.1.antisymm hyp (hyp.reach (T.parent_reach hv hne)))

theorem leastOn_parent (hv : Reach E r v) (hne : v ≠ r) : T.LeastOn k (T.parent v) v v := by
  have hpv : T.parent v ≠ v := fun he =>
    absurd (T.parent_lt hv hne) (not_lt.2 (congrArg T.num he).ge)
  exact ⟨onPath_last (T.anc_parent hne) hpv, fun y hy => by rw [hy.eq_of_parent hv hne]⟩

theorem exists_child (h : T.Anc a v) (hne : a ≠ v) :
    ∃ c, c ≠ r ∧ T.parent c = a ∧ T.Anc c v := by
  induction h with
  | refl => exact absurd rfl hne
  | @step w hw _ ih =>
    by_cases hp : a = T.parent w
    · exact ⟨w, hw, hp.symm, .refl⟩
    · obtain ⟨c, hc, hca, hcw⟩ := ih hp
      exact ⟨c, hc, hca, .step hw hcw⟩

end DfsTree

end TldrCode.Graph
