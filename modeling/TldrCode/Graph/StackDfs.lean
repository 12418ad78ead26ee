import Mathlib.Algebra.GroupWithZero.Nat
import TldrCode.Graph.Search

/-!
# Depth-first search with a stack

A depth-first search that keeps its own stack. A node that is visited leaves a marker on the stack
below its targets; when the marker comes up again the node is finished. It is over after at most as
many rounds as its budget (`stackDfs_add`).
-/

namespace TldrCode.Graph

variable {α : Type*} [DecidableEq α] {edges : List (α × α)} {stack : List (α × Bool)}
  {visited postorder : List α} {x y : α}

/-- The search: the stack, whose head is its top and holds nodes and, marked by `true`, nodes to
finish; the nodes visited and the nodes finished so far. -/
def stackDfs (edges : List (α × α)) : Nat → List (α × Bool) → List α → List α → List α
  | 0, _, _, postorder => postorder
  | _ + 1, [], _, postorder => postorder
  | rounds + 1, (x, finished) :: stack, visited, postorder =>
    if finished then stackDfs edges rounds stack visited (postorder ++ [x])
    else if x ∈ visited then stackDfs edges rounds stack visited postorder
    else
      let visited := x :: visited
      let pushed := ((targets edges x).filter (· ∉ visited)).map fun y => (y, false)
      stackDfs edges rounds (pushed ++ (x, true) :: stack) visited postorder

/-- The rounds that an entry of the stack takes by itself. -/
def stackWeight (entry : α × Bool) : Nat := if entry.2 then 1 else 2

def stackBudget (edges : List (α × α)) (stack : List (α × Bool)) (visited : List α) : Nat :=
  (stack.map stackWeight).sum + 2 * edges.countP (·.1 ∉ visited)

omit [DecidableEq α] in
theorem sum_stackWeight_pushed (l : List α) :
    ((l.map fun y => (y, false)).map stackWeight).sum = 2 * l.length := by
  induction l with
  | nil => rfl
  | cons y l ih =>
    simp only [List.map_cons, List.sum_cons, ih, stackWeight, List.length_cons]
    simp
    omega

theorem stackBudget_visit (hx : x ∉ visited) :
    stackBudget edges ((((targets edges x).filter (· ∉ x :: visited)).map fun y => (y, false)) ++
      (x, true) :: stack) (x :: visited) + 1 ≤ stackBudget edges ((x, false) :: stack) visited := by
  have hpushed := countP_pushed edges hx
  simp only [stackBudget, List.map_append, List.sum_append, sum_stackWeight_pushed, List.map_cons,
    List.sum_cons, stackWeight]
  simp only [if_true, Bool.false_eq_true, if_false]
  omega

theorem stackDfs_nil (rounds : Nat) (visited postorder : List α) :
    stackDfs edges rounds [] visited postorder = postorder := by
  cases rounds <;> rfl

theorem stackDfs_add (n : Nat) : ∀ (rounds : Nat) (stack : List (α × Bool))
    (visited postorder : List α), stackBudget edges stack visited ≤ rounds →
      stackDfs edges (rounds + n) stack visited postorder =
        stackDfs edges rounds stack visited postorder := by
  intro rounds
  induction rounds with
  | zero =>
    intro stack visited postorder hbudget
    cases stack with
    | nil => rw [stackDfs_nil, stackDfs_nil]
    | cons entry stack =>
      simp only [stackBudget, List.map_cons, List.sum_cons, stackWeight] at hbudget
      split at hbudget <;> omega
  | succ rounds ih =>
    intro stack visited postorder hbudget
    cases stack with
    | nil => rw [stackDfs_nil, stackDfs_nil]
    | cons entry stack =>
      obtain ⟨x, finished⟩ := entry
      rw [Nat.add_right_comm, stackDfs, stackDfs]
      cases finished with
      | true =>
        simp only [if_true]
        apply ih
        simp only [stackBudget, List.map_cons, List.sum_cons, stackWeight, if_true] at hbudget ⊢
        omega
      | false =>
        simp only [Bool.false_eq_true, if_false]
        split
        · apply ih
          simp only [stackBudget, List.map_cons, List.sum_cons, stackWeight, Bool.false_eq_true,
            if_false] at hbudget ⊢
          omega
        · next hx =>
          have hvisit := @stackBudget_visit _ _ edges stack _ _ hx
          apply ih
          omega

end TldrCode.Graph
