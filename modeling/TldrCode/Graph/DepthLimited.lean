import Mathlib.Logic.Function.Iterate
import TldrCode.Graph.Search

/-!
# Depth-limited search with a stack

A search that keeps the depths of the nodes on its stack, visits a node once and does not go on from
one that it visits at the limit. It finds the nodes within the limit unless it visits a node at the
limit that has a shorter path, and misses the targets of that node (`forall_mem_found_iff`).
-/

namespace TldrCode.Graph

/-- A node is at the end of a path of at most so many edges. -/
inductive ReachWithin {α : Type*} (E : α → α → Prop) (starts : List α) : Nat → α → Prop
  | start {n : Nat} {x : α} (h : x ∈ starts) : ReachWithin E starts n x
  | step {n : Nat} {x y : α} (h : ReachWithin E starts n x) (he : E x y) :
    ReachWithin E starts (n + 1) y

variable {α : Type*} {E : α → α → Prop} {edges : List (α × α)} {limit : Nat} {starts : List α}
  {x y : α} {m n depth : Nat}

theorem ReachWithin.mono (h : ReachWithin E starts m x) (hle : m ≤ n) :
    ReachWithin E starts n x := by
  induction h generalizing n with
  | start h => exact .start h
  | step h he ih =>
    cases n with
    | zero => omega
    | succ n => exact .step (ih (by omega)) he

variable [DecidableEq α]

/-- The stack, whose head is its top, with the depths of the nodes, and the nodes visited so far. -/
structure Limited (α : Type*) where
  toVisit : List (α × Nat)
  visited : List α

namespace Limited

variable {s : Limited α}

def step (edges : List (α × α)) (limit : Nat) : Limited α → Limited α
  | ⟨[], visited⟩ => ⟨[], visited⟩
  | ⟨(x, depth) :: stack, visited⟩ =>
    if x ∈ visited then ⟨stack, visited⟩
    else if limit ≤ depth then ⟨stack, x :: visited⟩
    else
      let pushed := (targets edges x).filter (· ∉ x :: visited)
      ⟨(pushed.map fun y => (y, depth + 1)).reverse ++ stack, x :: visited⟩

def init (starts : List α) : Limited α := ⟨(starts.map fun x => (x, 0)).reverse, []⟩

def after (edges : List (α × α)) (limit : Nat) (starts : List α) (n : Nat) : Limited α :=
  (step edges limit)^[n] (init starts)

theorem after_succ :
    after edges limit starts (n + 1) = step edges limit (after edges limit starts n) :=
  Function.iterate_succ_apply' ..

/-- The search is about to visit a node at a depth. -/
def Visits (edges : List (α × α)) (limit : Nat) (starts : List α) (x : α) (depth : Nat) : Prop :=
  ∃ n stack visited,
    after edges limit starts n = ⟨(x, depth) :: stack, visited⟩ ∧ x ∉ visited

/-! ## Termination -/

def budget (edges : List (α × α)) (s : Limited α) : Nat :=
  s.toVisit.length + edges.countP (·.1 ∉ s.visited)

theorem budget_step (h : s.toVisit ≠ []) : budget edges (step edges limit s) < budget edges s := by
  unfold step
  split
  · exact absurd rfl h
  · next x depth stack visited =>
    unfold budget
    split_ifs with hvisited hlimit
    · simp
    · have hpushed := countP_pushed edges hvisited
      simp only [List.length_cons]
      omega
    · have hpushed := countP_pushed edges hvisited
      simp only [List.length_append, List.length_reverse, List.length_map, List.length_cons]
      omega

theorem step_of_empty (h : s.toVisit = []) : step edges limit s = s := by
  unfold step
  split
  · rfl
  · cases h

def rounds (edges : List (α × α)) (starts : List α) : Nat := starts.length + edges.length

theorem budget_after :
    (after edges limit starts n).toVisit = [] ∨
      budget edges (after edges limit starts n) + n ≤ rounds edges starts := by
  induction n with
  | zero =>
    right
    unfold budget rounds after init
    simp
  | succ n ih =>
    rw [after_succ]
    rcases ih with hempty | hbudget
    · exact .inl (by rw [step_of_empty hempty, hempty])
    · by_cases hempty : (after edges limit starts n).toVisit = []
      · exact .inl (by rw [step_of_empty hempty, hempty])
      · have hstep : budget edges (step edges limit (after edges limit starts n)) <
            budget edges (after edges limit starts n) := budget_step hempty
        exact .inr (by omega)

/-- **The search ends.** -/
theorem toVisit_rounds : (after edges limit starts (rounds edges starts)).toVisit = [] := by
  have hafter : (after edges limit starts (rounds edges starts)).toVisit = [] ∨
      budget edges (after edges limit starts (rounds edges starts)) + rounds edges starts ≤
        rounds edges starts := budget_after
  cases hafter with
  | inl hempty => exact hempty
  | inr hbudget =>
    unfold budget at hbudget
    exact List.eq_nil_of_length_eq_zero (by omega)

theorem after_eq_of_le (h : rounds edges starts ≤ n) :
    after edges limit starts n = after edges limit starts (rounds edges starts) := by
  induction n, h using Nat.le_induction with
  | base => rfl
  | succ n _ ih => rw [after_succ, ih, step_of_empty toVisit_rounds]

/-! ## Invariants -/

def Covers (s : Limited α) (x : α) : Prop := x ∈ s.visited ∨ ∃ depth, (x, depth) ∈ s.toVisit

theorem Covers.step (h : Covers s y) : Covers (step edges limit s) y := by
  unfold Limited.step
  split
  · exact h
  · next x depth stack visited =>
    -- the node is the top of the stack or stays where it is
    have hcases : y = x ∨ y ∈ visited ∨ ∃ depth, (y, depth) ∈ stack := by
      rcases h with h | ⟨d, h⟩
      · exact .inr (.inl h)
      · cases List.mem_cons.1 h with
        | inl htop => exact .inl (congrArg Prod.fst htop)
        | inr hrest => exact .inr (.inr ⟨d, hrest⟩)
    split_ifs with hvisited hlimit
    · rcases hcases with rfl | h
      · exact .inl hvisited
      · exact h
    · rcases hcases with rfl | h | h
      · exact .inl List.mem_cons_self
      · exact .inl (List.mem_cons_of_mem _ h)
      · exact .inr h
    · rcases hcases with rfl | h | ⟨d, h⟩
      · exact .inl List.mem_cons_self
      · exact .inl (List.mem_cons_of_mem _ h)
      · exact .inr ⟨d, List.mem_append_right _ h⟩

theorem Covers.after (h : Covers (after edges limit starts m) x) (hle : m ≤ n) :
    Covers (after edges limit starts n) x := by
  induction n, hle using Nat.le_induction with
  | base => exact h
  | succ n _ ih =>
    rw [after_succ]
    exact ih.step

/-- The nodes that the search has visited in the end. -/
def found (edges : List (α × α)) (limit : Nat) (starts : List α) : List α :=
  (Limited.after edges limit starts (rounds edges starts)).visited

theorem Covers.found (h : Covers (Limited.after edges limit starts n) x) :
    x ∈ found edges limit starts := by
  have hlast : Covers (Limited.after edges limit starts (rounds edges starts)) x := by
    rw [← after_eq_of_le (Nat.le_add_left _ n)]
    exact h.after (Nat.le_add_right ..)
  rcases hlast with hvisited | ⟨depth, hstack⟩
  · exact hvisited
  · rw [toVisit_rounds] at hstack
    cases hstack

theorem found_of_start (h : x ∈ starts) : x ∈ found edges limit starts := by
  have hcovers : Covers (Limited.after edges limit starts 0) x :=
    .inr ⟨0, List.mem_reverse.2 (List.mem_map.2 ⟨x, h, rfl⟩)⟩
  exact hcovers.found

theorem Visits.found (h : Visits edges limit starts x depth) (hdepth : depth < limit)
    (he : (x, y) ∈ edges) : y ∈ found edges limit starts := by
  obtain ⟨n, stack, visited, hafter, hx⟩ := h
  have hcovers : Covers (Limited.after edges limit starts (n + 1)) y := by
    rw [after_succ, hafter]
    unfold Limited.step
    dsimp only
    rw [if_neg hx, if_neg (not_le.2 hdepth)]
    by_cases hy : y ∈ x :: visited
    · exact .inl hy
    · refine .inr ⟨depth + 1, List.mem_append_left _ (List.mem_reverse.2 ?_)⟩
      refine List.mem_map.2 ⟨y, List.mem_filter.2 ⟨mem_targets.2 he, ?_⟩, rfl⟩
      simpa using hy
  exact hcovers.found

def Pushed (edges : List (α × α)) (limit : Nat) (starts : List α) (x : α) (depth : Nat) : Prop :=
  depth ≤ limit ∧ ReachWithin (fun x y => (x, y) ∈ edges) starts depth x ∧
    (x ∈ starts ∨ ∃ y d, Visits edges limit starts y d ∧ d < limit ∧ (y, x) ∈ edges)

theorem pushed_of_mem (h : (x, depth) ∈ (Limited.after edges limit starts n).toVisit) :
    Pushed edges limit starts x depth := by
  induction n generalizing x depth with
  | zero =>
    obtain ⟨y, hy, heq⟩ := List.mem_map.1 (List.mem_reverse.1 h)
    cases heq
    exact ⟨Nat.zero_le _, .start hy, .inl hy⟩
  | succ n ih =>
    rw [after_succ] at h
    unfold Limited.step at h
    split at h
    · cases h
    · next x' depth' stack visited hafter =>
      have hstack : ∀ y d, (y, d) ∈ stack → Pushed edges limit starts y d := fun y d hmem =>
        ih (hafter ▸ List.mem_cons_of_mem _ hmem)
      split_ifs at h with hvisited hlimit
      · exact hstack x depth h
      · exact hstack x depth h
      · cases List.mem_append.1 h with
        | inr h => exact hstack x depth h
        | inl h =>
          obtain ⟨y, hy, heq⟩ := List.mem_map.1 (List.mem_reverse.1 h)
          obtain ⟨rfl, rfl⟩ := Prod.mk.inj heq
          have hedge : (x', y) ∈ edges := mem_targets.1 (List.mem_of_mem_filter hy)
          obtain ⟨-, hwithin, -⟩ : Pushed edges limit starts x' depth' :=
            ih (hafter ▸ List.mem_cons_self)
          refine ⟨by omega, .step hwithin hedge, .inr ⟨x', depth', ?_, by omega, hedge⟩⟩
          exact ⟨n, stack, visited, hafter, hvisited⟩

theorem Visits.pushed (h : Visits edges limit starts x depth) :
    Pushed edges limit starts x depth := by
  obtain ⟨n, stack, visited, hafter, -⟩ := h
  have htop : (x, depth) ∈ (Limited.after edges limit starts n).toVisit := by
    rw [hafter]
    exact List.mem_cons_self
  exact pushed_of_mem htop

theorem exists_visits_of_mem (h : x ∈ (Limited.after edges limit starts n).visited) :
    ∃ depth, Visits edges limit starts x depth := by
  induction n with
  | zero => cases h
  | succ n ih =>
    rw [after_succ] at h
    unfold Limited.step at h
    split at h
    · next visited hafter => exact ih (hafter ▸ h)
    · next y depth stack visited hafter =>
      have hcons : x ∈ y :: visited → ∃ depth, Visits edges limit starts x depth := by
        intro h
        by_cases hx : x ∈ visited
        · exact ih (hafter ▸ hx)
        · cases (List.mem_cons.1 h).resolve_right hx
          exact ⟨depth, n, stack, visited, hafter, hx⟩
      split_ifs at h with hvisited hlimit
      · exact ih (hafter ▸ h)
      · exact hcons h
      · exact hcons h

theorem within_of_found (h : x ∈ found edges limit starts) :
    ReachWithin (fun x y => (x, y) ∈ edges) starts limit x := by
  obtain ⟨depth, hvisits⟩ := exists_visits_of_mem h
  obtain ⟨hdepth, hwithin, -⟩ := hvisits.pushed
  exact hwithin.mono hdepth

/-- The search does not stop at its limit at a node that a shorter path reaches, unless the targets
of that node are starts or targets of nodes that it visits below the limit. -/
def CutsHarmless (edges : List (α × α)) (limit : Nat) (starts : List α) : Prop :=
  ∀ x, Visits edges limit starts x limit →
    (∃ n < limit, ReachWithin (fun x y => (x, y) ∈ edges) starts n x) → ∀ y, (x, y) ∈ edges →
      y ∈ starts ∨ ∃ z depth, Visits edges limit starts z depth ∧ depth < limit ∧ (z, y) ∈ edges

/-- **What is found is what is within the limit** if and only if the cuts are harmless. -/
theorem forall_mem_found_iff :
    (∀ x, x ∈ found edges limit starts ↔ ReachWithin (fun x y => (x, y) ∈ edges) starts limit x) ↔
      CutsHarmless edges limit starts := by
  constructor
  · intro h x _ hnear y he
    obtain ⟨n, hn, hwithin⟩ := hnear
    have hy : y ∈ found edges limit starts := (h y).2 ((ReachWithin.step hwithin he).mono hn)
    obtain ⟨depth, hvisits⟩ := exists_visits_of_mem hy
    exact hvisits.pushed.2.2
  · intro h x
    refine ⟨within_of_found, fun hx => ?_⟩
    -- along the path, each node is found
    have hfound : ∀ n x, ReachWithin (fun x y => (x, y) ∈ edges) starts n x → n ≤ limit →
        x ∈ found edges limit starts := by
      intro n x hwithin
      induction hwithin with
      | start hx => exact fun _ => found_of_start hx
      | @step n x y hwithin he ih =>
        intro hn
        obtain ⟨depth, hvisits⟩ := exists_visits_of_mem (ih (by omega))
        rcases lt_or_eq_of_le hvisits.pushed.1 with hdepth | rfl
        · exact hvisits.found hdepth he
        · rcases h x hvisits ⟨n, hn, hwithin⟩ y he with hy | ⟨z, d, hz, hd, hzy⟩
          · exact found_of_start hy
          · exact hz.found hd hzy
    exact hfound limit x hx le_rfl

end Limited

end TldrCode.Graph
