import Mathlib.Data.List.Dedup
import TldrCode.Graph.QueueSearch
import TldrCode.Types

/-!
# Filtering an inheritance graph

`types/inheritance.rs` and `filter_by_class` of `inheritance/filter.rs`. The searches for ancestors
and for descendants share the set of the classes included, which marks what is visited, so the
second one does not go through a class that the first one has found (`mem_included`). The graph is
right exactly if it need not (`filterByClass_exact_iff`), as in a graph without cycles.
-/

namespace TldrCode.Inheritance

open TldrCode.Graph

/-- The names of the nodes, and the edges from a class to its parents in the order in which
`add_edge` is called with them, which the maps `parents` and `children` hold by their ends. -/
structure InheritanceGraph where
  nodes : List String
  edges : List (String × String)

namespace InheritanceGraph

/-- The keys of `parents`. -/
def classes (graph : InheritanceGraph) : List String := (graph.edges.map (·.1)).dedup

def parents (graph : InheritanceGraph) (className : String) : List String :=
  targets graph.edges className

def reversed (graph : InheritanceGraph) : List (String × String) := graph.edges.map Prod.swap

def children (graph : InheritanceGraph) (className : String) : List String :=
  targets graph.reversed className

/-- `parent` is one of the parents of `child`. -/
def Parent (graph : InheritanceGraph) (child parent : String) : Prop :=
  (child, parent) ∈ graph.edges

def Child (graph : InheritanceGraph) (parent child : String) : Prop := graph.Parent child parent

/-- `ancestors_bfs`, without the depths that the queue has here. -/
def ancestorsBfs (graph : InheritanceGraph) (className : String) : List String :=
  queueSearch graph.edges none ((graph.parents className).length + graph.edges.length)
    ((graph.parents className).map (·, 1)) []

end InheritanceGraph

def collectAncestors (graph : InheritanceGraph) (start : String) (maxDepth : Nat)
    (included : List String) : List String :=
  queueSearch graph.edges (some maxDepth) ((graph.parents start).length + graph.edges.length)
    ((graph.parents start).map (·, 1)) included

def collectDescendants (graph : InheritanceGraph) (start : String) (maxDepth : Nat)
    (included : List String) : List String :=
  queueSearch graph.reversed (some maxDepth) ((graph.children start).length + graph.edges.length)
    ((graph.children start).map (·, 1)) included

/-- The classes that `filter_by_class` includes. -/
def included (graph : InheritanceGraph) (className : String) (maxDepth : Nat) : List String :=
  collectDescendants graph className maxDepth
    (collectAncestors graph className maxDepth [className])

structure NotFound where
  entity : String
  name : String
  suggestion : Option String

/-- `filter_by_class`, with what `get_fuzzy_suggestions` returns. -/
def filterByClass (ord : HashOrder) (suggestions : List String) (graph : InheritanceGraph)
    (className : String) (depth : Option Nat) : Except NotFound InheritanceGraph :=
  if className ∉ graph.nodes then
    .error ⟨"class", className, if suggestions.isEmpty then none
      else some ("Did you mean: " ++ ", ".intercalate suggestions ++ "?")⟩
  else
    let included := included graph className (depth.getD usizeMax)
    .ok {
      nodes := (ord.order included).filter (· ∈ graph.nodes)
      edges := (ord.order graph.classes).flatMap fun child =>
        (if child ∈ included then (graph.parents child).filter (· ∈ included) else []).map
          (child, ·) }

/-! ## What is within the depth -/

variable {graph filtered : InheritanceGraph} {ord : HashOrder} {suggestions : List String}
  {c x y : String} {d : Nat} {depth : Option Nat}

namespace InheritanceGraph

/-- `x` is within `d` parent steps above `c`. -/
def Above (graph : InheritanceGraph) (c : String) (d : Nat) (x : String) : Prop :=
  ∃ l, Walk graph.Parent c x l ∧ l.length ≤ d + 1

/-- `x` is within `d` child steps below `c`. -/
def Below (graph : InheritanceGraph) (c : String) (d : Nat) (x : String) : Prop :=
  ∃ l, Walk graph.Child c x l ∧ l.length ≤ d + 1

/-- `x` is within `d` child steps below `c` on a path that leaves the classes above. -/
def BelowClear (graph : InheritanceGraph) (c : String) (d : Nat) (x : String) : Prop :=
  ∃ y, graph.Child c y ∧ ∃ l, Walk graph.Child y x l ∧ (∀ z ∈ l, ¬ graph.Above c d z) ∧ l.length ≤ d

theorem child_eq : (fun a b => (a, b) ∈ graph.reversed) = graph.Child := by
  funext a b
  simp [reversed, Child, Parent]

end InheritanceGraph

theorem mem_collectAncestors : x ∈ collectAncestors graph c d [c] ↔ graph.Above c d x := by
  -- the search from the class itself takes it in its first round
  have hfirst : collectAncestors graph c d [c] = queueSearch graph.edges (some d)
      ((graph.parents c).length + graph.edges.length + 1) [(c, 0)] [] := by
    rw [queueSearch, if_neg (by simp)]
    rfl
  have hrising : Rising [(c, 0)] := rising_start [c] 0
  rw [hfirst, mem_queueSearch hrising (by
    have := List.countP_le_length (p := fun e => e.1 ∉ ([] : List String)) (l := graph.edges)
    simp only [List.length_singleton]
    omega), or_iff_right List.not_mem_nil]
  simp only [Finds, List.mem_singleton, exists_eq_left, List.not_mem_nil, not_false_eq_true,
    implies_true, true_and, Option.mem_def, Option.some.injEq, forall_eq', Nat.zero_add]
  rfl

theorem mem_included : x ∈ included graph c d ↔
    graph.Above c d x ∨ graph.BelowClear c d x := by
  rw [included, collectDescendants, mem_queueSearch (rising_start _ 1) (by
    have hle := List.countP_le_length (p := fun e => e.1 ∉ collectAncestors graph c d [c])
      (l := graph.reversed)
    rw [InheritanceGraph.reversed, List.length_map] at hle
    simp only [List.length_map, InheritanceGraph.reversed] at *
    omega), mem_collectAncestors]
  refine or_congr_right ?_
  simp only [Finds, InheritanceGraph.children, List.mem_map, exists_exists_and_eq_and,
    mem_collectAncestors, mem_targets, Option.mem_def, Option.some.injEq, forall_eq',
    Nat.add_comm 1, Nat.add_le_add_iff_right, InheritanceGraph.BelowClear,
    ← InheritanceGraph.child_eq]

/-! ## What is returned -/

/-- A list of pairs made for each of its keys in turn. -/
theorem targets_flatMap {keys : List String} (h : keys.Nodup) (f : String → List String)
    (x : String) : targets (keys.flatMap fun k => (f k).map (k, ·)) x =
      if x ∈ keys then f x else [] := by
  have hmap : ∀ k, targets ((f k).map (k, ·)) x = if k = x then f k else [] := by
    intro k
    by_cases hk : k = x <;> simp [targets, List.filter_map, Function.comp_def, hk]
  induction keys with
  | nil => rfl
  | cons k keys ih =>
    obtain ⟨hk, hkeys⟩ := List.nodup_cons.1 h
    have happend : targets (((f k).map (k, ·)) ++ keys.flatMap fun k => (f k).map (k, ·)) x =
        targets ((f k).map (k, ·)) x ++ targets (keys.flatMap fun k => (f k).map (k, ·)) x := by
      simp [targets]
    rw [List.flatMap_cons, happend, hmap, ih hkeys]
    by_cases hx : k = x
    · subst hx
      simp [hk]
    · simp [hx, Ne.symm hx]

def InheritanceGraph.Kept (graph : InheritanceGraph) (c : String) (d : Nat) (x : String) : Prop :=
  graph.Above c d x ∨ graph.Below c d x

/-- The nodes and the edges of the graph are those among the classes within the depth. -/
structure FilterExact (graph : InheritanceGraph) (c : String) (d : Nat)
    (filtered : InheritanceGraph) : Prop where
  nodes : ∀ x, x ∈ filtered.nodes ↔ x ∈ graph.nodes ∧ graph.Kept c d x
  kept : ∀ e ∈ filtered.edges, graph.Kept c d e.1 ∧ graph.Kept c d e.2
  edges : ∀ x y, graph.Kept c d x → graph.Kept c d y →
    (filtered.parents x).count y = (graph.parents x).count y

theorem filterByClass_ok (h : filterByClass ord suggestions graph c depth = .ok filtered) :
    (∀ x, x ∈ filtered.nodes ↔ x ∈ graph.nodes ∧ x ∈ included graph c (depth.getD usizeMax)) ∧
    ∀ x, filtered.parents x = if x ∈ included graph c (depth.getD usizeMax) then
      (graph.parents x).filter (· ∈ included graph c (depth.getD usizeMax)) else [] := by
  unfold filterByClass at h
  split at h
  · cases h
  · obtain rfl := Except.ok.inj h
    refine ⟨fun x => by simp [and_comm], fun x => ?_⟩
    have hclasses : (ord.order graph.classes).Nodup := (ord.perm _).nodup_iff.2 (List.nodup_dedup _)
    rw [InheritanceGraph.parents, targets_flatMap hclasses]
    by_cases hx : x ∈ ord.order graph.classes
    · rw [if_pos hx]
    · -- a class that is not a key has no parents
      have hnil : graph.parents x = [] := by
        refine List.eq_nil_iff_forall_not_mem.2 fun y hy => hx ?_
        rw [HashOrder.mem_order, InheritanceGraph.classes, List.mem_dedup]
        exact List.mem_map.2 ⟨_, mem_targets.1 hy, rfl⟩
      rw [if_neg hx, hnil, List.filter_nil, ite_self]

/-- **The filtered graph** is right exactly if every class within the depth below is also within the
depth above, or within the depth below on a path that leaves the classes above. -/
theorem filterByClass_exact_iff (hc : c ∈ graph.nodes) : ∃ filtered,
    filterByClass ord suggestions graph c depth = .ok filtered ∧
      (FilterExact graph c (depth.getD usizeMax) filtered ↔ ∀ x,
        graph.Below c (depth.getD usizeMax) x → graph.Above c (depth.getD usizeMax) x ∨
          graph.BelowClear c (depth.getD usizeMax) x) := by
  obtain ⟨filtered, h⟩ : ∃ filtered,
      filterByClass ord suggestions graph c depth = .ok filtered :=
    ⟨_, if_neg (not_not_intro hc)⟩
  refine ⟨filtered, h, ?_⟩
  obtain ⟨hnodes, hparents⟩ := filterByClass_ok h
  generalize depth.getD usizeMax = d at hnodes hparents ⊢
  have hedge : ∀ e ∈ filtered.edges, e.1 ∈ included graph c d ∧ e.2 ∈ included graph c d := by
    rintro ⟨x, y⟩ he
    have hy : y ∈ filtered.parents x := mem_targets.2 he
    rw [hparents] at hy
    split_ifs at hy with hx
    · exact ⟨hx, of_decide_eq_true (List.mem_filter.1 hy).2⟩
    · cases hy
  constructor
  · intro hexact x hx
    rw [← mem_included]
    obtain ⟨l, w, hl⟩ := hx
    obtain ⟨l, rfl⟩ := w.eq_concat
    by_cases hnil : l = []
    · subst hnil
      obtain rfl : x = c := by simpa using w.head
      exact mem_included.2 (.inl ⟨[x], .single x, by simp⟩)
    · -- the edge to the class before the last one is kept
      obtain ⟨y, wy, hy⟩ := w.exists_last_step hnil
      rw [List.length_append, List.length_singleton] at hl
      have hcount := hexact.edges x y (.inr ⟨_, w, by simpa using hl⟩) (.inr ⟨l, wy, by omega⟩)
      have hmem : y ∈ filtered.parents x := by
        rw [← List.count_pos_iff, hcount, List.count_pos_iff]
        exact mem_targets.2 hy
      exact (hedge _ (mem_targets.1 hmem)).1
  · intro hall
    have hkept : ∀ x, x ∈ included graph c d ↔ graph.Kept c d x := by
      intro x
      rw [mem_included]
      constructor
      · rintro (hx | ⟨y, hy, l, w, -, hl⟩)
        · exact .inl hx
        · exact .inr ⟨c :: l, w.cons hy, Nat.succ_le_succ hl⟩
      · exact fun hx => hx.elim .inl (hall x)
    refine ⟨fun x => by rw [hnodes, hkept], fun e he => ?_, fun x y hx hy => ?_⟩
    · rw [← hkept, ← hkept]
      exact hedge e he
    · rw [hparents, if_pos ((hkept x).2 hx), List.count_filter (by simpa using (hkept y).2 hy)]

/-- `C` and its parent `P` extend each other, and `P` has another child. -/
def cyclicClasses : InheritanceGraph where
  nodes := ["C", "P", "X"]
  edges := [("C", "P"), ("P", "C"), ("X", "P")]

theorem filterByClass_exact_iff_cyclicClasses : ∃ filtered,
    filterByClass .insertion [] cyclicClasses "X" (some 1) = .ok filtered ∧
      (FilterExact cyclicClasses "X" 1 filtered ↔ ∀ x, cyclicClasses.Below "X" 1 x →
        cyclicClasses.Above "X" 1 x ∨ cyclicClasses.BelowClear "X" 1 x) :=
  filterByClass_exact_iff (by decide)

theorem not_filterByClass_exact : ¬ ∀ (ord : HashOrder) (suggestions : List String)
    (graph filtered : InheritanceGraph) (c : String) (d : Nat),
    filterByClass ord suggestions graph c (some d) = .ok filtered →
      FilterExact graph c d filtered := by
  intro h
  have hexact := h .insertion [] cyclicClasses _ "C" 2 rfl
  have hx := (hexact.nodes "X").2 ⟨by decide, .inr ⟨["C", "P", "X"], ⟨by
    simp [InheritanceGraph.Child, InheritanceGraph.Parent, cyclicClasses], rfl, rfl⟩, by simp⟩⟩
  revert hx
  decide

end TldrCode.Inheritance
