import TldrCode.Graph.Walk

/-!
# Search along a list of edges

A worklist search that visits each node once. Every visit pushes the targets of its own edges, so
the search is over after as many rounds as there are nodes to start from and edges
(`mem_search`).
-/

namespace TldrCode.Graph

variable {α : Type*} [DecidableEq α] {edges : List (α × α)} {work visited : List α} {x y : α}

/-- The targets of the edges out of `x`. -/
def targets (edges : List (α × α)) (x : α) : List α := (edges.filter (·.1 == x)).map (·.2)

theorem mem_targets : y ∈ targets edges x ↔ (x, y) ∈ edges := by
  simp [targets]

/-- The search: the worklist, whose head is popped first, and the nodes visited so far. -/
def search (edges : List (α × α)) : Nat → List α → List α → List α
  | 0, _, visited => visited
  | _ + 1, [], visited => visited
  | rounds + 1, x :: work, visited =>
    if x ∈ visited then search edges rounds work visited
    else
      let visited := x :: visited
      search edges rounds (((targets edges x).filter (· ∉ visited)).reverse ++ work) visited

/-- The rounds that are left: one for each node in the worklist and for each edge out of a node
that is still to be visited. -/
def searchBudget (edges : List (α × α)) (work visited : List α) : Nat :=
  work.length + edges.countP (·.1 ∉ visited)

theorem countP_visit (hx : x ∉ visited) :
    edges.countP (·.1 ∉ x :: visited) + (targets edges x).length =
      edges.countP (·.1 ∉ visited) := by
  rw [targets, List.length_map, ← List.countP_eq_length_filter]
  induction edges with
  | nil => rfl
  | cons e edges ih =>
    simp only [List.countP_cons, ← ih]
    by_cases he : e.1 = x
    · simp [he, hx]
      omega
    · simp [he]
      omega

theorem countP_pushed (edges : List (α × α)) (hx : x ∉ visited) :
    edges.countP (·.1 ∉ x :: visited) +
      ((targets edges x).filter (· ∉ x :: visited)).length ≤ edges.countP (·.1 ∉ visited) :=
  (Nat.add_le_add_left (List.length_filter_le _ _) _).trans (countP_visit hx).le

theorem searchBudget_visit (hx : x ∉ visited) :
    searchBudget edges (((targets edges x).filter (· ∉ x :: visited)).reverse ++ work)
      (x :: visited) + 1 ≤ searchBudget edges (x :: work) visited := by
  have hpushed := countP_pushed edges hx
  simp only [searchBudget, List.length_append, List.length_reverse, List.length_cons]
  omega

/-- What a search relies on: the worklist holds what the visited nodes lead to. -/
def SearchClosed (edges : List (α × α)) (work visited : List α) : Prop :=
  ∀ x ∈ visited, ∀ y, (x, y) ∈ edges → y ∈ visited ∨ y ∈ work

theorem SearchClosed.visit (h : SearchClosed edges (x :: work) visited) :
    SearchClosed edges (((targets edges x).filter (· ∉ x :: visited)).reverse ++ work)
      (x :: visited) := by
  intro z hz y he
  by_cases hy : y ∈ x :: visited
  · exact .inl hy
  · right
    cases List.mem_cons.1 hz with
    | inl hz =>
      subst hz
      refine List.mem_append_left _ (List.mem_reverse.2 (List.mem_filter.2 ⟨?_, by simpa using hy⟩))
      exact mem_targets.2 he
    | inr hz =>
      rw [List.mem_cons, not_or] at hy
      cases h z hz y he with
      | inl hv => exact absurd hv hy.2
      | inr hw => exact List.mem_append_right _ ((List.mem_cons.1 hw).resolve_left hy.1)

theorem search_closed (rounds : Nat) : ∀ {work visited : List α},
    SearchClosed edges work visited → searchBudget edges work visited ≤ rounds →
      (∀ x ∈ work ++ visited, x ∈ search edges rounds work visited) ∧
        SearchClosed edges [] (search edges rounds work visited) := by
  induction rounds with
  | zero =>
    intro work visited h hbudget
    obtain rfl : work = [] := by
      unfold searchBudget at hbudget
      exact List.length_eq_zero_iff.1 (by omega)
    exact ⟨fun x hx => hx, h⟩
  | succ rounds ih =>
    intro work visited h hbudget
    cases work with
    | nil => exact ⟨fun x hx => hx, h⟩
    | cons x work =>
      unfold search
      split
      · next hx =>
        have hclosed : SearchClosed edges work visited := by
          intro z hz y he
          cases h z hz y he with
          | inl hv => exact .inl hv
          | inr hw =>
            cases List.mem_cons.1 hw with
            | inl hw => exact .inl (hw ▸ hx)
            | inr hw => exact .inr hw
        obtain ⟨hmem, hres⟩ := ih hclosed (by
          simp only [searchBudget, List.length_cons] at hbudget ⊢
          omega)
        refine ⟨fun z hz => ?_, hres⟩
        cases List.mem_cons.1 hz with
        | inl hz => exact hmem z (List.mem_append_right _ (hz ▸ hx))
        | inr hz => exact hmem z hz
      · next hx =>
        have hvisit := @searchBudget_visit _ _ edges work _ _ hx
        obtain ⟨hmem, hres⟩ := ih h.visit (by omega)
        refine ⟨fun z hz => hmem z ?_, hres⟩
        simp only [List.mem_append, List.mem_cons] at hz ⊢
        rcases hz with (hz | hz) | hz
        · exact .inr (.inl hz)
        · exact .inl (.inr hz)
        · exact .inr (.inr hz)

theorem search_subset {P : α → Prop} (hP : ∀ x y, P x → (x, y) ∈ edges → P y) (rounds : Nat) :
    ∀ {work visited : List α}, (∀ x ∈ work ++ visited, P x) →
      ∀ x ∈ search edges rounds work visited, P x := by
  induction rounds with
  | zero => exact fun h x hx => h x (List.mem_append_right _ hx)
  | succ rounds ih =>
    intro work visited h
    cases work with
    | nil => exact h
    | cons x work =>
      unfold search
      split
      · exact ih fun z hz => h z (List.mem_cons_of_mem _ hz)
      · refine ih fun z hz => ?_
        simp only [List.mem_append, List.mem_reverse, List.mem_filter, List.mem_cons] at hz
        rcases hz with (hz | hz) | rfl | hz
        · exact hP x z (h x (by simp)) (mem_targets.1 hz.1)
        · exact h z (by simp [hz])
        · exact h z (by simp)
        · exact h z (by simp [hz])

/-- **The search finds what is reached** from the nodes it starts from. -/
theorem mem_search {start : List α} :
    x ∈ search edges (start.length + edges.length) start [] ↔
      ∃ s ∈ start, Reach (fun x y => (x, y) ∈ edges) s x := by
  constructor
  · refine search_subset (P := fun x => ∃ s ∈ start, Reach (fun x y => (x, y) ∈ edges) s x)
      (fun x y hx he => ?_) _ (fun s hs => ?_) x
    · obtain ⟨s, hs, hr⟩ := hx
      exact ⟨s, hs, hr.tail he⟩
    · rw [List.append_nil] at hs
      exact ⟨s, hs, .refl s⟩
  · intro h
    obtain ⟨s, hs, hr⟩ := h
    have hbudget : searchBudget edges start [] ≤ start.length + edges.length :=
      Nat.add_le_add_left List.countP_le_length _
    obtain ⟨hmem, hclosed⟩ := search_closed _ (fun x hx => by cases hx) hbudget
    refine hr.induct (hmem s (List.mem_append_left _ hs)) fun y z _ he hy => ?_
    exact (hclosed y hy z he).resolve_right List.not_mem_nil

end TldrCode.Graph
