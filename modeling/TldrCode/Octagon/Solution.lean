import Mathlib.Data.Finset.Lattice.Fold
import Mathlib.Data.Finset.Range
import Mathlib.Data.Real.Basic
import TldrCode.Octagon.Strong

/-!
# Real solutions of a matrix

The solutions of a matrix are the valuations of its variables that meet every entry. Closing keeps
them (`solution_iff_of_strengthened`), and a matrix without a negative chain and without an entry
`-∞` has one (`exists_solution`). `strongClosure_correct_iff` says for which matrices
`strong_closure` does what its documentation promises.
-/

namespace TldrCode.Octagon

open TldrCode.Graph

/-! ## Solutions -/

/-- `x i`: the variable `i / 2`, or its negation. -/
def literal (v : Nat → ℝ) (i : Nat) : ℝ := if i % 2 = 0 then v (i / 2) else -v (i / 2)

def Solution (n : Nat) (m : Weights Exact) (v : Nat → ℝ) : Prop :=
  ∀ i < n, ∀ j < n, Admits (m i j) (literal v j - literal v i)

variable {m D : Weights Exact} {n i j : Nat} {v : Nat → ℝ}

theorem literal_complement (v : Nat → ℝ) (i : Nat) : literal v (complement i) = -literal v i := by
  have hmod := complement_mod i
  rw [literal, literal, complement_div]
  rcases Nat.mod_two_eq_zero_or_one i with h | h
  · rw [if_neg (by omega), if_pos h]
  · rw [if_pos (by omega), if_neg (by omega), neg_neg]

theorem Solution.walk (h : Solution n m v) (l : List Nat) (hl : Within n l) :
    ∀ i < n, ∀ j < n, Admits (walkWeight m i l j) (literal v j - literal v i) := by
  induction l with
  | nil => exact h
  | cons x l ih =>
    intro i hi j hj
    obtain ⟨hx, htail⟩ := List.forall_mem_cons.1 hl
    have hadd := (h i hi x hx).add (ih htail x hx j hj)
    exact hadd.mono le_rfl (by linarith)

theorem Solution.noNegative (h : Solution n m v) : NoNegative m n := by
  intro i hi l hl
  have hw := h.walk l hl i hi i hi
  rw [sub_self] at hw
  exact admits_zero.1 hw

/-- **Closing keeps the solutions.** -/
theorem solution_iff_of_strengthened (h : IsClosure m n D) (hn : ∀ i < n, complement i < n) :
    Solution n (strengthened D) v ↔ Solution n m v := by
  constructor
  · intro hs i hi j hj
    exact (hs i hi j hj).mono ((min_le_left _ _).trans (h.le hi hj)) le_rfl
  · intro hs
    have hD : Solution n D v := by
      intro i hi j hj
      obtain ⟨l, hl, hle⟩ := h.above i hi j hj
      exact (hs.walk l hl i hi j hj).mono hle le_rfl
    intro i hi j hj
    rcases min_choice (D i j) (Bound.half (D i (complement i) + D (complement j) j)) with hc | hc
    · rw [strengthened, hc]
      exact hD i hi j hj
    · rw [strengthened, hc]
      have hadd := ((hD i hi _ (hn i hi)).add (hD _ (hn j hj) j hj)).half
      rw [literal_complement, literal_complement] at hadd
      exact hadd.mono le_rfl (by linarith)

/-! ## Existence -/

/-- The distance to `j` from an origin with an edge of weight zero to every index. -/
def potential (n : Nat) (D : Weights Exact) (j : Nat) : Exact :=
  min 0 ((Finset.range n).inf fun i => D i j)

theorem potential_le (hi : i < n) : potential n D j ≤ D i j :=
  (min_le_right _ _).trans (Finset.inf_le (Finset.mem_range.2 hi))

theorem potential_eq (n : Nat) (D : Weights Exact) (j : Nat) :
    potential n D j = 0 ∨ ∃ i < n, potential n D j = D i j := by
  rcases min_choice (0 : Exact) ((Finset.range n).inf fun i => D i j) with h | h
  · exact .inl h
  · right
    have hne : (Finset.range n).Nonempty := by
      by_contra hempty
      rw [Finset.not_nonempty_iff_eq_empty] at hempty
      rw [hempty, Finset.inf_empty, min_eq_right_iff, top_le_iff] at h
      exact absurd h (WithTop.coe_ne_top)
    obtain ⟨i, hi, heq⟩ := Finset.exists_mem_eq_inf (Finset.range n) hne fun i => D i j
    exact ⟨i, Finset.mem_range.1 hi, h.trans heq⟩

theorem potential_step (h : IsClosure m n D) (hi : i < n) (hj : j < n) :
    potential n D j ≤ potential n D i + D i j := by
  rcases potential_eq n D i with hp | ⟨k, hk, hp⟩
  · rw [hp, zero_add]
    exact potential_le hi
  · rw [hp]
    exact (potential_le hk).trans (h.triangle hk hj hi)

theorem walkWeight_ne_bot (hbot : ∀ i < n, ∀ j < n, m i j ≠ ((⊥ : WithBot ℚ) : Exact))
    (l : List Nat) (hl : Within n l) :
    ∀ i < n, ∀ j < n, walkWeight m i l j ≠ ((⊥ : WithBot ℚ) : Exact) := by
  induction l with
  | nil => exact hbot
  | cons x l ih =>
    intro i hi j hj heq
    obtain ⟨hx, htail⟩ := List.forall_mem_cons.1 hl
    rw [walkWeight, WithTop.add_eq_coe] at heq
    obtain ⟨a, b, ha, hb, hab⟩ := heq
    rcases WithBot.add_eq_bot.1 hab with rfl | rfl
    · exact hbot i hi x hx ha.symm
    · exact ih htail x hx j hj hb.symm

theorem exists_potential (h : IsClosure m n D)
    (hbot : ∀ i < n, ∀ j < n, m i j ≠ ((⊥ : WithBot ℚ) : Exact)) (hj : j < n) :
    ∃ q : ℚ, potential n D j = ((q : WithBot ℚ) : Exact) := by
  have hle : potential n D j ≤ 0 := min_le_left _ _
  have hne : potential n D j ≠ ((⊥ : WithBot ℚ) : Exact) := by
    intro heq
    rcases potential_eq n D j with hp | ⟨i, hi, hp⟩
    · rw [hp] at heq
      exact absurd (WithTop.coe_injective heq) (WithBot.coe_ne_bot)
    · obtain ⟨l, hl, hlw⟩ := h.above i hi j hj
      rw [← hp, heq] at hlw
      refine walkWeight_ne_bot hbot l hl i hi j hj (le_antisymm hlw ?_)
      exact bot_le
  generalize potential n D j = p at hle hne
  cases p using WithTop.recTopCoe with
  | top => exact absurd hle (WithTop.coe_lt_top _).not_ge
  | coe p =>
    cases p using WithBot.recBotCoe with
    | bot => exact absurd rfl hne
    | coe q => exact ⟨q, rfl⟩

/-- **A matrix without a negative chain and without `-∞` has a solution.** -/
theorem exists_solution (h : IsClosure m n D) (hm : Coherent n m) (hneg : NoNegative m n)
    (hn : ∀ i < n, complement i < n)
    (hbot : ∀ i < n, ∀ j < n, m i j ≠ ((⊥ : WithBot ℚ) : Exact)) : ∃ v, Solution n m v := by
  have hpot : ∀ j, ∃ q : ℚ, j < n → potential n D j = ((q : WithBot ℚ) : Exact) := by
    intro j
    by_cases hj : j < n
    · exact (exists_potential h hbot hj).imp fun _ hq _ => hq
    · exact ⟨0, fun hlt => absurd hlt hj⟩
  choose p hp using hpot
  have hstep : ∀ i < n, ∀ j < n, Admits (m i j) ((p j : ℝ) - p i) := by
    intro i hi j hj
    have hle := (potential_step h hi hj).trans (add_le_add le_rfl (h.le hi hj))
    rw [hp i hi, hp j hj] at hle
    generalize m i j = b at hle ⊢
    cases b using WithTop.recTopCoe with
    | top => trivial
    | coe b =>
      have hle := WithTop.coe_le_coe.1 hle
      cases b using WithBot.recBotCoe with
      | bot => exact absurd hle (WithBot.bot_lt_coe _).not_ge
      | coe b =>
        have hq : p j ≤ p i + b := WithBot.coe_le_coe.1 hle
        have hr : (p j : ℝ) ≤ ((p i + b : ℚ) : ℝ) := Rat.cast_le.2 hq
        rw [Rat.cast_add] at hr
        change (p j : ℝ) - p i ≤ (b : ℝ)
        linarith
  have hlit : ∀ i, literal (fun k => ((p (2 * k) : ℝ) - p (2 * k + 1)) / 2) i =
      ((p i : ℝ) - p (complement i)) / 2 := by
    intro i
    have hdiv := complement_div i
    have hmod := complement_mod i
    rw [literal]
    split_ifs with heven
    · rw [show 2 * (i / 2) = i by omega, show complement i = i + 1 by omega]
    · rw [show 2 * (i / 2) + 1 = i by omega, show 2 * (i / 2) = complement i by omega]
      ring
  refine ⟨fun k => ((p (2 * k) : ℝ) - p (2 * k + 1)) / 2, fun i hi j hj => ?_⟩
  rw [hlit, hlit]
  by_cases hij : i = j
  · subst hij
    rw [sub_self]
    exact admits_zero.2 (hneg i hi [] (by simp [Within]))
  · have hmirror := hstep _ (hn j hj) _ (hn i hi)
    rw [hm i hi j hj hij] at hmirror
    have hsum := ((hstep i hi j hj).add hmirror).half
    rw [← half_double (m i j)]
    exact hsum.mono le_rfl (by linarith)

namespace Dbm

def Satisfiable (dbm : Dbm Exact) : Prop := ∃ v, Solution dbm.dim dbm.get v

theorem satisfiable_iff (dbm : Dbm Exact) : dbm.Satisfiable ↔ NoNegative dbm.get dbm.dim ∧
    ∀ i < dbm.dim, ∀ j < dbm.dim, dbm.get i j ≠ ((⊥ : WithBot ℚ) : Exact) := by
  constructor
  · rintro ⟨v, hv⟩
    refine ⟨hv.noNegative, fun i hi j hj heq => ?_⟩
    have := hv i hi j hj
    rw [heq] at this
    exact not_admits_bot _ this
  · rintro ⟨hneg, hbot⟩
    obtain ⟨-, D, hD, -, -⟩ := dbm.strongClosure_get hneg
    exact exists_solution hD dbm.coherent hneg dbm.complement_lt_dim hbot

/-- What the documentation of `strong_closure` promises. -/
def StrongClosureCorrect (dbm : Dbm Exact) : Prop :=
  ((strongClosure dbm).1 = .empty ↔ ¬ dbm.Satisfiable) ∧
    ((strongClosure dbm).1 = .closed →
      (∀ v, Solution dbm.dim (strongClosure dbm).2.get v ↔ Solution dbm.dim dbm.get v) ∧
      StronglyClosed dbm.dim (strongClosure dbm).2.get)

/-- **`strong_closure`** keeps its promises where the constraints contradict each other by a
negative chain, and where no entry is `-∞` and a chain of weight zero leads through every index. -/
theorem strongClosure_correct_iff (dbm : Dbm Exact) : dbm.StrongClosureCorrect ↔
    (∃ i < dbm.dim, ∃ l, Within dbm.dim l ∧ walkWeight dbm.get i l i < 0) ∨
    (∀ i < dbm.dim, ∀ j < dbm.dim, dbm.get i j ≠ ((⊥ : WithBot ℚ) : Exact)) ∧
      ∀ i < dbm.dim, ∃ l, Within dbm.dim l ∧ walkWeight dbm.get i l i ≤ 0 := by
  have hchain : (∃ i < dbm.dim, ∃ l, Within dbm.dim l ∧ walkWeight dbm.get i l i < 0) ↔
      ¬ NoNegative dbm.get dbm.dim := by
    simp only [NoNegative, not_forall, not_le, exists_prop]
  rw [hchain, StrongClosureCorrect, strongClosure_empty_iff, satisfiable_iff]
  by_cases hneg : NoNegative dbm.get dbm.dim
  · have hclosed : (strongClosure dbm).1 = .closed := by
      have hempty := dbm.strongClosure_empty_iff
      cases hres : (strongClosure dbm).1 with
      | closed => rfl
      | empty => exact absurd hneg (hempty.1 hres)
    have hsame : ∀ v, Solution dbm.dim (strongClosure dbm).2.get v ↔
        Solution dbm.dim dbm.get v := by
      obtain ⟨-, D, hD, -, hget⟩ := dbm.strongClosure_get hneg
      intro v
      rw [← solution_iff_of_strengthened hD dbm.complement_lt_dim]
      refine forall₂_congr fun i hi => forall₂_congr fun j hj => ?_
      rw [hget i hi j hj]
    rw [dbm.strongClosure_stronglyClosed_iff hneg]
    simp only [hneg, hclosed, hsame, true_and, not_true, false_or, forall_const, false_iff, not_not]
  · simp only [hneg, false_and, not_false_eq_true, true_or, iff_true, iff_self, true_and]
    intro hclosed
    rw [dbm.strongClosure_empty_iff.2 hneg] at hclosed
    cases hclosed

/-- One variable, with the entry `1` on the diagonal. -/
def loose : Dbm Exact := (new 1).set 0 0 1

theorem loose_get {i j : Nat} (hi : i < 2) (hj : j < 2) :
    loose.get i j = if i = 0 ∧ j = 0 then 1 else if i = j then 0 else ⊤ := by
  have hdim : (new 1 : Dbm Exact).dim = 2 := rfl
  rw [loose, get_set _ _ _ _ (hdim ▸ Nat.two_pos) (hdim ▸ Nat.two_pos), get_new 1 hi hj]
  refine if_congr ?_ rfl rfl
  simp [SameCell]

theorem loose_walk (l : List Nat) (hl : Within 2 l) : ∀ i < 2, ∀ j < 2,
    0 ≤ walkWeight loose.get i l j ∧ (i = 0 → 1 ≤ walkWeight loose.get i l j) := by
  have hentry : ∀ i < 2, ∀ j < 2, 0 ≤ loose.get i j ∧ (i = 0 → 1 ≤ loose.get i j) := by
    intro i hi j hj
    rw [loose_get hi hj]
    split_ifs with h₁ h₂
    · exact ⟨zero_le_one, fun _ => le_rfl⟩
    · exact ⟨le_rfl, fun h0 => absurd ⟨h0, h₂ ▸ h0⟩ h₁⟩
    · exact ⟨le_top, fun _ => le_top⟩
  induction l with
  | nil => exact hentry
  | cons x l ih =>
    intro i hi j hj
    obtain ⟨hx, htail⟩ := List.forall_mem_cons.1 hl
    obtain ⟨h₁, h₂⟩ := hentry i hi x hx
    have hrest := (ih htail x hx j hj).1
    exact ⟨add_nonneg h₁ hrest, fun h0 => (h₂ h0).trans (le_add_of_nonneg_right hrest)⟩

/-- The entry is still there after the closure. -/
theorem loose_not_correct : ¬ loose.StrongClosureCorrect := by
  intro h
  have hneg : NoNegative loose.get loose.dim := fun i hi l hl => (loose_walk l hl i hi i hi).1
  have hclosed : (strongClosure loose).1 = .closed := by
    cases hres : (strongClosure loose).1 with
    | closed => rfl
    | empty => exact absurd hneg (loose.strongClosure_empty_iff.1 hres)
  have hstrong := (h.2 hclosed).2
  obtain ⟨l, hl, hle⟩ := (loose.strongClosure_stronglyClosed_iff hneg).1 hstrong 0 Nat.two_pos
  have hone := (loose_walk l hl 0 Nat.two_pos 0 Nat.two_pos).2 rfl
  exact absurd (hone.trans hle) zero_lt_one.not_ge

end Dbm

end TldrCode.Octagon
