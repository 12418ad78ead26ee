import Mathlib.Data.List.Basic
import Mathlib.Logic.Function.Basic

/-!
# Worklists

A queue of nodes whose values are computed from the values of others. When the value of a node
changes, the nodes that read it are queued again, if they are not. What is left when the queue is
empty solves the equations (`solve_fixed`), and what every visit keeps holds of it (`solve_induct`).
-/

namespace TldrCode.Dataflow

open Function (update)

variable {ν V : Type*} [DecidableEq ν] [DecidableEq V]

/-- The nodes are put at the end of the queue, those in it apart. -/
def enqueue (queue targets : List ν) : List ν :=
  targets.foldl (fun queue b => if b ∈ queue then queue else queue ++ [b]) queue

/-- The queue, worked off in at most so many visits: the values, and whether the visits were too
few. -/
def solve (transfer : ν → (ν → V) → V) (succs : ν → List ν) :
    Nat → List ν → (ν → V) → (ν → V) × Bool
  | _, [], out => (out, false)
  | 0, _ :: _, out => (out, true)
  | visits + 1, b :: queue, out =>
    if transfer b out = out b then solve transfer succs visits queue out
    else solve transfer succs visits (enqueue queue (succs b)) (update out b (transfer b out))

variable {transfer : ν → (ν → V) → V} {succs : ν → List ν} {visits : Nat} {queue targets : List ν}
  {out out' : ν → V} {a b : ν}

omit [DecidableEq V] in
theorem mem_enqueue : a ∈ enqueue queue targets ↔ a ∈ queue ∨ a ∈ targets := by
  unfold enqueue
  induction targets generalizing queue with
  | nil => simp
  | cons b targets ih =>
    rw [List.foldl_cons, ih, List.mem_cons]
    split_ifs with hb
    · constructor
      · exact fun h => h.imp_right .inr
      · rintro (h | rfl | h)
        · exact .inl h
        · exact .inl hb
        · exact .inr h
    · rw [List.mem_append, List.mem_singleton, or_assoc]

/-- **What every visit keeps** holds of the values at the end. -/
theorem solve_induct {I : (ν → V) → Prop} (h : I out)
    (hstep : ∀ out b, I out → I (update out b (transfer b out))) :
    I (solve transfer succs visits queue out).1 := by
  induction visits generalizing queue out with
  | zero =>
    cases queue with
    | nil => exact h
    | cons b queue => exact h
  | succ visits ih =>
    cases queue with
    | nil => exact h
    | cons b queue =>
      unfold solve
      split_ifs
      · exact ih h
      · exact ih (hstep out b h)

/-- **The values solve the equations** of the nodes if the queue gets empty. -/
theorem solve_fixed {nodes : List ν}
    (hreads : ∀ b c out v, c ∉ succs b → transfer c (update out b v) = transfer c out)
    (hinit : ∀ b ∈ nodes, b ∈ queue ∨ out b = transfer b out)
    (hsolve : solve transfer succs visits queue out = (out', false)) :
    ∀ b ∈ nodes, out' b = transfer b out' := by
  induction visits generalizing queue out with
  | zero =>
    cases queue with
    | nil =>
      cases hsolve
      exact fun b hb => (hinit b hb).resolve_left List.not_mem_nil
    | cons b queue => cases hsolve
  | succ visits ih =>
    cases queue with
    | nil =>
      cases hsolve
      exact fun b hb => (hinit b hb).resolve_left List.not_mem_nil
    | cons b queue =>
      unfold solve at hsolve
      split_ifs at hsolve with heq
      · refine ih (fun c hc => ?_) hsolve
        rcases hinit c hc with hmem | hfixed
        · rcases List.mem_cons.1 hmem with rfl | hmem
          · exact .inr heq.symm
          · exact .inl hmem
        · exact .inr hfixed
      · refine ih (fun c hc => ?_) hsolve
        -- a node that does not read the one that has changed is as it was
        by_cases hread : c ∈ succs b
        · exact .inl (mem_enqueue.2 (.inr hread))
        rw [hreads b c out _ hread]
        by_cases hcb : c = b
        · subst hcb
          exact .inr (Function.update_self ..)
        rw [Function.update_of_ne hcb]
        rcases hinit c hc with hmem | hfixed
        · exact .inl (mem_enqueue.2 (.inl ((List.mem_cons.1 hmem).resolve_left hcb)))
        · exact .inr hfixed

end TldrCode.Dataflow
