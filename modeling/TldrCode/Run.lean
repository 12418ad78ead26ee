import Mathlib.Data.List.Basic
import Mathlib.Data.List.Induction
import Mathlib.Order.Defs.Unbundled

/-!
# Runs

Runs of a system that takes labelled steps, from the front to the back: what every step keeps holds
along the run (`Run.invariant`), a run is cut at any of its steps (`run_append_iff`), and a relation
that every step keeps relates any two states of the run, in their order (`Run.relates_iff`).
-/

namespace TldrCode

variable {σ α : Type*} {step step' : σ → α → σ → Prop} {s t u : σ} {a : α} {as bs : List α}

/-- The labels lead from one state to another. -/
inductive Run (step : σ → α → σ → Prop) (s : σ) : List α → σ → Prop
  | nil : Run step s [] s
  | concat {as : List α} {a : α} {t u : σ} (h : Run step s as t) (ha : step t a u) :
    Run step s (as ++ [a]) u

@[simp]
theorem run_nil_iff : Run step s [] t ↔ t = s := by
  constructor
  · intro h
    generalize has : ([] : List α) = as at h
    cases h with
    | nil => rfl
    | concat h ha => simp at has
  · rintro rfl
    exact .nil

theorem run_concat_iff : Run step s (as ++ [a]) u ↔ ∃ t, Run step s as t ∧ step t a u := by
  constructor
  · intro h
    generalize has : as ++ [a] = bs at h
    cases h with
    | nil => simp at has
    | concat h ha =>
      obtain ⟨rfl, hab⟩ := List.append_inj' has rfl
      cases hab
      exact ⟨_, h, ha⟩
  · rintro ⟨t, h, ha⟩
    exact .concat h ha

/-- **A run is cut anywhere.** -/
theorem run_append_iff : Run step s (as ++ bs) u ↔ ∃ t, Run step s as t ∧ Run step t bs u := by
  induction bs using List.reverseRecOn generalizing u with
  | nil => simp
  | append_singleton bs b ih =>
    rw [← List.append_assoc, run_concat_iff]
    simp only [ih, run_concat_iff]
    constructor
    · rintro ⟨v, ⟨t, h, hbs⟩, hb⟩
      exact ⟨t, h, v, hbs, hb⟩
    · rintro ⟨t, h, v, hbs, hb⟩
      exact ⟨v, ⟨t, h, hbs⟩, hb⟩

theorem run_cons_iff : Run step s (a :: as) u ↔ ∃ t, step s a t ∧ Run step t as u := by
  have h : Run step s ([a] ++ as) u ↔ _ := run_append_iff
  rw [List.singleton_append] at h
  rw [h]
  have hsingle (t : σ) : Run step s [a] t ↔ step s a t := by
    have h : Run step s ([] ++ [a]) t ↔ _ := run_concat_iff
    simpa using h
  simp only [hsingle]

namespace Run

/-- **What every step keeps** holds along a run. -/
theorem invariant {I : σ → Prop} (h : Run step s as t) (hs : I s)
    (hstep : ∀ t a u, I t → step t a u → I u) : I t := by
  induction h with
  | nil => exact hs
  | concat _ ha ih => exact hstep _ _ _ ih ha

theorem mono (h : Run step s as t) (hle : ∀ t a u, step t a u → step' t a u) :
    Run step' s as t := by
  induction h with
  | nil => exact .nil
  | concat _ ha ih => exact .concat ih (hle _ _ _ ha)

def Throughout (step : σ → α → σ → Prop) (s : σ) (as : List α) (R : σ → σ → Prop) : Prop :=
  ∀ before a after t u, as = before ++ a :: after → Run step s before t → step t a u → R t u

/-- **A reflexive and transitive relation** relates any two states of a run, in their order, if and
only if it relates the states before and after each step. -/
theorem relates_iff {R : σ → σ → Prop} [Std.Refl R] [IsTrans σ R] :
    (∀ before middle after t u, as = before ++ middle ++ after → Run step s before t →
      Run step t middle u → R t u) ↔ Throughout step s as R := by
  constructor
  · intro h before a after t u has hbefore ha
    exact h before [a] after t u (by rw [has]; simp) hbefore (.concat .nil ha)
  · intro h before middle after t u has hbefore hmiddle
    induction hmiddle generalizing after with
    | nil => exact Std.Refl.refl t
    | @concat middle a v w hmiddle ha ih =>
      refine IsTrans.trans _ _ _ (ih (a :: after) (by rw [has]; simp)) ?_
      refine h (before ++ middle) a after v w (by rw [has]; simp) ?_ ha
      exact run_append_iff.2 ⟨t, hbefore, hmiddle⟩

end Run

/-! ## Runs of functions -/

theorem place_of_split {before later : List α} (h : as = before ++ a :: later) :
    as[before.length]? = some a ∧ before = as.take before.length ∧ before.length < as.length := by
  subst h
  simp

section Functions

variable {next : σ → α → σ} {P I : σ → Prop} {Q : σ → α → Prop}

/-- What every step keeps, from states with a property that all states of the run have. -/
theorem invariant_of_states (hI : I s) (hnext : ∀ t a, I t → P t → P (next t a) → I (next t a))
    (h : ∀ before later, as = before ++ later → P (before.foldl next s)) :
    ∀ before later, as = before ++ later → I (before.foldl next s) := by
  intro before
  induction before using List.reverseRecOn with
  | nil => exact fun _ _ => hI
  | append_singleton before a ih =>
    intro later has
    have has' : as = before ++ a :: later := by rw [has]; simp
    have hafter := h _ later has
    rw [List.foldl_concat] at hafter ⊢
    exact hnext _ a (ih _ has') (h _ _ has') hafter

/-- **All states of a run** have a property if and only if all its steps meet the condition under
which a step keeps it. -/
theorem forall_states_iff (hP : P s) (hI : I s)
    (hnext : ∀ t a, I t → P t → P (next t a) → I (next t a))
    (hstep : ∀ t a, I t → P t → (P (next t a) ↔ Q t a)) :
    (∀ before later, as = before ++ later → P (before.foldl next s)) ↔
      ∀ before a later, as = before ++ a :: later → Q (before.foldl next s) a := by
  constructor
  · intro h before a later has
    have hbefore := h before _ has
    refine (hstep _ a (invariant_of_states hI hnext h before _ has) hbefore).1 ?_
    rw [← List.foldl_concat next]
    exact h (before ++ [a]) later (by rw [has]; simp)
  · intro h
    have hboth : ∀ before later, as = before ++ later →
        P (before.foldl next s) ∧ I (before.foldl next s) := by
      intro before
      induction before using List.reverseRecOn with
      | nil => exact fun _ _ => ⟨hP, hI⟩
      | append_singleton before a ih =>
        intro later has
        have has' : as = before ++ a :: later := by rw [has]; simp
        obtain ⟨hbefore, hinv⟩ := ih _ has'
        have hafter := (hstep _ a hinv hbefore).2 (h before a later has')
        rw [List.foldl_concat]
        exact ⟨hafter, hnext _ a hinv hbefore hafter⟩
    exact fun before later has => (hboth before later has).1

end Functions

end TldrCode
