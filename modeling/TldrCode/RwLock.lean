import Mathlib.Data.Finset.Basic
import Mathlib.Logic.Relation

/-!
# Reader-writer locks

A lock that many threads hold for reading or one for writing, where a waiting writer keeps readers
out. Threads do not wait for each other in a cycle if there are ranks that get less along what each
of them waits for (`acyclic_of_rank`).
-/

namespace TldrCode

inductive RwMode where
  | read
  | write
  deriving DecidableEq, Repr

/-- The holders of a lock, and the writers that wait for it. -/
structure RwLock (τ : Type*) where
  writer : Option τ
  readers : Finset τ
  waiting : Finset τ

namespace RwLock

variable {τ : Type*} [DecidableEq τ] {lock : RwLock τ} {t u : τ} {mode mode' : RwMode}

def free : RwLock τ := ⟨none, ∅, ∅⟩

def Holds (lock : RwLock τ) (t : τ) : RwMode → Prop
  | .read => t ∈ lock.readers
  | .write => lock.writer = some t

/-- The thread keeps others from taking the lock. -/
def Blocks (lock : RwLock τ) (t : τ) : RwMode → Prop
  | .read => lock.writer = some t ∨ t ∈ lock.waiting
  | .write => lock.writer = some t ∨ t ∈ lock.readers

def grantable (lock : RwLock τ) : RwMode → Bool
  | .read => lock.writer = none && lock.waiting = ∅
  | .write => lock.writer = none && lock.readers = ∅

def request (lock : RwLock τ) (t : τ) : RwMode → RwLock τ
  | .read => lock
  | .write => { lock with waiting := insert t lock.waiting }

def acquire (lock : RwLock τ) (t : τ) : RwMode → RwLock τ
  | .read => { lock with readers := insert t lock.readers }
  | .write => { lock with writer := some t, waiting := lock.waiting.erase t }

def release (lock : RwLock τ) (t : τ) : RwMode → RwLock τ
  | .read => { lock with readers := lock.readers.erase t }
  | .write => { lock with writer := none }

@[simp]
theorem holds_request : (lock.request t mode).Holds u mode' ↔ lock.Holds u mode' := by
  cases mode <;> cases mode' <;> rfl

@[simp]
theorem mem_waiting_request :
    u ∈ (lock.request t mode).waiting ↔ u ∈ lock.waiting ∨ u = t ∧ mode = .write := by
  cases mode with
  | read => simp [request]
  | write => simp [request, or_comm]

theorem holds_acquire (h : lock.grantable mode = true) :
    (lock.acquire t mode).Holds u mode' ↔ lock.Holds u mode' ∨ u = t ∧ mode = mode' := by
  cases mode with
  | read =>
    cases mode' with
    | read => simp [acquire, Holds, or_comm]
    | write => simp [acquire, Holds]
  | write =>
    simp only [grantable, Bool.and_eq_true, decide_eq_true_eq] at h
    cases mode' with
    | read => simp [acquire, Holds]
    | write => simp [acquire, Holds, h.1, eq_comm]

@[simp]
theorem mem_waiting_acquire :
    u ∈ (lock.acquire t mode).waiting ↔ u ∈ lock.waiting ∧ ¬ (u = t ∧ mode = .write) := by
  cases mode with
  | read => simp [acquire]
  | write => simp [acquire, and_comm]

theorem holds_release (h : lock.Holds t mode) :
    (lock.release t mode).Holds u mode' ↔ lock.Holds u mode' ∧ ¬ (u = t ∧ mode = mode') := by
  cases mode with
  | read =>
    cases mode' with
    | read => simp [release, Holds, and_comm]
    | write => simp [release, Holds]
  | write =>
    have hwriter : lock.writer = some t := h
    cases mode' with
    | read => simp [release, Holds]
    | write => simp [release, Holds, hwriter, eq_comm]

@[simp]
theorem waiting_release : (lock.release t mode).waiting = lock.waiting := by
  cases mode <;> rfl

end RwLock

theorem acyclic_of_rank {τ : Type*} {R : τ → τ → Prop} (rank : τ → Nat)
    (h : ∀ t u, R t u → rank u < rank t) (t : τ) : ¬ Relation.TransGen R t t := by
  intro hcycle
  have hlt : ∀ {u}, Relation.TransGen R t u → rank u < rank t := by
    intro u hu
    induction hu with
    | single hstep => exact h _ _ hstep
    | tail _ hstep ih => exact (h _ _ hstep).trans ih
  exact absurd (hlt hcycle) (lt_irrefl _)

end TldrCode
