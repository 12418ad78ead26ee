import Mathlib.Data.Real.Basic
import TldrCode.Octagon.Closure

/-!
# What the strong closure returns

The entry `(i, j)` of a matrix bounds `x j - x i`, where `x (2k)` is the variable `k` and `x (2k +
1)` its negation. `strong_closure` decides whether there is a negative chain of constraints and else
leaves a matrix with the same solutions, in which both inequalities of its documentation hold. It
never writes the diagonal, so `m[i, i] = 0` takes a chain of weight zero through `i`, and it does
not look for entries that are `-∞`: `strongClosure_correct_iff`.
-/

namespace TldrCode.Octagon

open TldrCode.Graph

section Closed

variable {B : Type*} [LawfulBound B] {m D : Weights B} {n i j k : Nat}

/-- What the documentation of `strong_closure` promises of the matrix it leaves. -/
structure StronglyClosed (n : Nat) (m : Weights B) : Prop where
  coherent : ∀ i < n, ∀ j < n, m (complement j) (complement i) = m i j
  diagonal : ∀ i < n, m i i = 0
  triangle : ∀ i < n, ∀ j < n, ∀ k < n, m i j ≤ m i k + m k j
  strengthening : ∀ i < n, ∀ j < n,
    m i j ≤ Bound.half (m i (complement i) + m (complement j) j)

theorem half_zero : Bound.half (0 : B) = 0 := by
  have h := half_double (0 : B)
  rwa [add_zero] at h

theorem half_nonneg {b : B} (h : 0 ≤ b) : 0 ≤ Bound.half b :=
  half_zero.symm.trans_le (LawfulBound.half_mono h)

theorem strengthened_complement_right (m : Weights B) (i : Nat) :
    strengthened m i (complement i) = m i (complement i) := by
  rw [strengthened, complement_complement, half_double, min_self]

variable (hn : ∀ i < n, complement i < n)
include hn

/-- Every walk has a mirror image that is no longer, up to steps that stay in place. -/
theorem exists_mirror_walk (hm : Coherent n m) (hneg : NoNegative m n) (l : List Nat)
    (hl : Within n l) : ∀ i < n, ∀ j < n,
      (∃ l', Within n l' ∧ walkWeight m (complement j) l' (complement i) ≤ walkWeight m i l j) ∨
        i = j ∧ 0 ≤ walkWeight m i l j := by
  have hself : ∀ x < n, 0 ≤ m x x := fun x hx => hneg x hx [] (by simp [Within])
  induction l with
  | nil =>
    intro i hi j hj
    by_cases hij : i = j
    · exact .inr ⟨hij, hij ▸ hself i hi⟩
    · exact .inl ⟨[], by simp [Within], (hm i hi j hj hij).le⟩
  | cons x l ih =>
    intro i hi j hj
    obtain ⟨hx, htail⟩ := List.forall_mem_cons.1 hl
    rw [walkWeight]
    by_cases hix : i = x
    · subst hix
      rcases ih htail i hi j hj with ⟨l', hl', hle⟩ | ⟨hij, hnn⟩
      · exact .inl ⟨l', hl', hle.trans (le_add_of_nonneg_left (hself i hi))⟩
      · exact .inr ⟨hij, add_nonneg (hself i hi) hnn⟩
    · left
      rcases ih htail x hx j hj with ⟨l', hl', hle⟩ | ⟨rfl, hnn⟩
      · refine ⟨l' ++ complement x :: [], within_append_cons.2 ⟨hl', hn x hx, by simp [Within]⟩, ?_⟩
        rw [walkWeight_append, walkWeight, hm i hi x hx hix, add_comm]
        exact add_le_add le_rfl hle
      · refine ⟨[], by simp [Within], ?_⟩
        rw [walkWeight, hm i hi x hx hix]
        exact le_add_of_nonneg_right hnn

theorem IsClosure.coherent (h : IsClosure m n D) (hm : Coherent n m) (hneg : NoNegative m n) :
    Coherent n D := by
  have key : ∀ i < n, ∀ j < n, i ≠ j → D (complement j) (complement i) ≤ D i j := by
    intro i hi j hj hij
    obtain ⟨l, hl, hle⟩ := h.above i hi j hj
    obtain ⟨l', hl', hle'⟩ := (exists_mirror_walk hn hm hneg l hl i hi j hj).resolve_right
      fun h => hij h.1
    exact (h.below _ (hn j hj) _ (hn i hi) l' hl').trans (hle'.trans hle)
  intro i hi j hj hij
  refine le_antisymm (key i hi j hj hij) ?_
  have hne : complement j ≠ complement i := complement_injective.ne (Ne.symm hij)
  have := key _ (hn j hj) _ (hn i hi) hne
  rwa [complement_complement, complement_complement] at this

/-! ## One strengthening pass is enough -/

theorem unary_le (h : IsClosure m n D) (hD : Coherent n D) (hneg : NoNegative m n) (hj : j < n)
    (hk : k < n) : Bound.half (D (complement j) j) ≤ Bound.half (D (complement k) k) + D k j := by
  by_cases hkj : k = j
  · subst hkj
    exact le_add_of_nonneg_right (h.nonneg hneg hk)
  · have hstep : D (complement j) j ≤ D (complement k) k + (D k j + D k j) := by
      calc D (complement j) j ≤ D (complement j) (complement k) + D (complement k) j :=
            h.triangle (hn j hj) hj (hn k hk)
        _ = D k j + D (complement k) j := by rw [hD k hk j hj hkj]
        _ ≤ D k j + (D (complement k) k + D k j) :=
            add_le_add le_rfl (h.triangle (hn k hk) hj hk)
        _ = D (complement k) k + (D k j + D k j) := by rw [add_left_comm]
    calc Bound.half (D (complement j) j)
        ≤ Bound.half (D (complement k) k + (D k j + D k j)) := LawfulBound.half_mono hstep
      _ = Bound.half (D (complement k) k) + D k j := by rw [LawfulBound.half_add, half_double]

theorem unary_le' (h : IsClosure m n D) (hD : Coherent n D) (hneg : NoNegative m n) (hi : i < n)
    (hk : k < n) : Bound.half (D i (complement i)) ≤ D i k + Bound.half (D k (complement k)) := by
  have hle := unary_le hn h hD hneg (hn i hi) (hn k hk)
  rw [complement_complement, complement_complement] at hle
  by_cases hki : i = k
  · subst hki
    exact le_add_of_nonneg_left (h.nonneg hneg hi)
  · rwa [hD i hi k hk hki, add_comm] at hle

theorem unary_nonneg (h : IsClosure m n D) (hneg : NoNegative m n) (hi : i < n) :
    0 ≤ Bound.half (D i (complement i)) + Bound.half (D (complement i) i) := by
  rw [← LawfulBound.half_add]
  exact half_nonneg ((h.nonneg hneg hi).trans (h.triangle hi hi (hn i hi)))

/-- **Strengthening keeps the triangle inequality.** -/
theorem strengthened_triangle (h : IsClosure m n D) (hD : Coherent n D) (hneg : NoNegative m n)
    (hi : i < n) (hj : j < n) (hk : k < n) :
    strengthened D i j ≤ strengthened D i k + strengthened D k j := by
  have hhalf : strengthened D i j ≤ Bound.half (D i (complement i)) +
      Bound.half (D (complement j) j) := (min_le_right _ _).trans (LawfulBound.half_add _ _).le
  rcases min_choice (D i k) (Bound.half (D i (complement i) + D (complement k) k)) with h₁ | h₁ <;>
    rcases min_choice (D k j)
      (Bound.half (D k (complement k) + D (complement j) j)) with h₂ | h₂ <;>
    rw [strengthened, strengthened, strengthened, h₁, h₂]
  · exact (min_le_left _ _).trans (h.triangle hi hj hk)
  · refine hhalf.trans ?_
    rw [LawfulBound.half_add, ← add_assoc]
    exact add_le_add (unary_le' hn h hD hneg hi hk) le_rfl
  · refine hhalf.trans ?_
    rw [LawfulBound.half_add, add_assoc]
    exact add_le_add le_rfl (unary_le hn h hD hneg hj hk)
  · refine hhalf.trans ?_
    rw [LawfulBound.half_add, LawfulBound.half_add, add_assoc]
    refine add_le_add le_rfl ?_
    rw [← add_assoc]
    refine le_add_of_nonneg_left ?_
    rw [add_comm]
    exact unary_nonneg hn h hneg hk

omit hn in
theorem strengthened_coherent (hD : Coherent n D) : Coherent n (strengthened D) := by
  intro i hi j hj hij
  rw [strengthened, strengthened, hD i hi j hj hij, complement_complement, complement_complement,
    add_comm]

theorem strengthened_nonneg (h : IsClosure m n D) (hneg : NoNegative m n) (hi : i < n) :
    0 ≤ strengthened D i i := by
  refine le_min (h.nonneg hneg hi) ?_
  rw [LawfulBound.half_add]
  exact unary_nonneg hn h hneg hi

theorem strengthened_diagonal (h : IsClosure m n D) (hneg : NoNegative m n) (hi : i < n) :
    strengthened D i i = 0 ↔ ∃ l, Within n l ∧ walkWeight m i l i ≤ 0 := by
  constructor
  · intro h0
    rcases min_choice (D i i) (Bound.half (D i (complement i) + D (complement i) i)) with hd | hd
    · obtain ⟨l, hl, hle⟩ := h.above i hi i hi
      exact ⟨l, hl, hle.trans (hd.symm.trans h0).le⟩
    · have hsum : D i (complement i) + D (complement i) i = 0 := by
        rw [← LawfulBound.half_add_half (D i (complement i) + D (complement i) i), ← hd]
        rw [strengthened] at h0
        rw [h0, add_zero]
      obtain ⟨l, hl, hle⟩ := h.above.add hi (hn i hi) hi
      exact ⟨l, hl, hle.trans hsum.le⟩
  · rintro ⟨l, hl, hle⟩
    refine le_antisymm ?_ (strengthened_nonneg hn h hneg hi)
    exact (min_le_left _ _).trans ((h.below i hi i hi l hl).trans hle)

def zeroed (m : Weights B) : Weights B := fun i j => if i = j then 0 else m i j

omit hn in
theorem zeroed_of_ne (h : i ≠ j) : zeroed m i j = m i j := if_neg h

omit hn in
@[simp] theorem zeroed_self (m : Weights B) (i : Nat) : zeroed m i i = 0 := if_pos rfl

/-- **The closure is strongly closed**, up to its diagonal. -/
theorem zeroed_stronglyClosed (h : IsClosure m n D) (hD : Coherent n D) (hneg : NoNegative m n) :
    StronglyClosed n (zeroed (strengthened D)) := by
  have hle : ∀ i < n, ∀ j < n, zeroed (strengthened D) i j ≤ strengthened D i j := by
    intro i hi j hj
    by_cases hij : i = j
    · rw [hij, zeroed_self]
      exact strengthened_nonneg hn h hneg hj
    · exact (zeroed_of_ne hij).le
  refine ⟨fun i hi j hj => ?_, fun i _ => zeroed_self _ i, fun i hi j hj k hk => ?_,
    fun i hi j hj => ?_⟩
  · by_cases hij : i = j
    · rw [hij, zeroed_self, zeroed_self]
    · have hne : complement j ≠ complement i := complement_injective.ne (Ne.symm hij)
      rw [zeroed_of_ne hij, zeroed_of_ne hne]
      exact strengthened_coherent hD i hi j hj hij
  · by_cases hik : i = k
    · rw [hik, zeroed_self, zero_add]
    by_cases hkj : k = j
    · rw [hkj, zeroed_self, add_zero]
    rw [zeroed_of_ne hik, zeroed_of_ne hkj]
    exact (hle i hi j hj).trans (strengthened_triangle hn h hD hneg hi hj hk)
  · rw [zeroed_of_ne (complement_ne i).symm, zeroed_of_ne (complement_ne j),
      strengthened_complement_right, strengthened_complement]
    exact (hle i hi j hj).trans (min_le_right _ _)

end Closed

/-! ## The result -/

namespace Dbm

variable {B : Type*} [LawfulBound B]

omit [LawfulBound B] in
theorem complement_lt_dim (dbm : Dbm B) : ∀ i < dbm.dim, complement i < dbm.dim :=
  fun _ hi => complement_lt hi

theorem coherent (dbm : Dbm B) : Coherent dbm.dim dbm.get :=
  fun _ _ _ _ hij => dbm.get_complement hij

/-- **When the closure is empty**: some closed chain of constraints is negative. -/
theorem strongClosure_empty_iff (dbm : Dbm B) :
    (strongClosure dbm).1 = .empty ↔ ¬ NoNegative dbm.get dbm.dim := by
  obtain ⟨habove, hbelow⟩ := floydWarshall_spec dbm.get dbm.dim
  obtain ⟨hclosure, hdiag⟩ := Graph.floydWarshall_spec habove hbelow
  have hres : (strongClosure dbm).1 = .empty ↔ ∃ i < dbm.dim,
      strengthened (floydWarshall dbm.dim dbm.get) i i < 0 := by
    have hneg := hasNegative_iff (n := dbm.dim)
      (m := strengthen dbm.dim (floydWarshall dbm.dim dbm.get))
    have happly := strengthen_apply (floydWarshall dbm.dim dbm.get) dbm.dim
    simp only [strongClosure, ite_eq_left_iff, reduceCtorEq, imp_false, Decidable.not_not, hneg]
    exact exists_congr fun i => and_congr_right fun hi => by rw [happly i hi i hi]
  rw [hres]
  constructor
  · rintro ⟨i, hi, hlt⟩ hneg
    exact absurd (strengthened_nonneg dbm.complement_lt_dim (hclosure hneg) hneg hi) hlt.not_ge
  · intro hneg
    by_contra hno
    refine hneg (hdiag fun i hi => ?_)
    refine le_trans (not_lt.1 fun hlt => hno ⟨i, hi, hlt⟩) (min_le_left _ _)

theorem strongClosure_get (dbm : Dbm B) (hneg : NoNegative dbm.get dbm.dim) :
    (strongClosure dbm).2.dim = dbm.dim ∧ ∃ D, IsClosure dbm.get dbm.dim D ∧
      Coherent dbm.dim D ∧
      ∀ i < dbm.dim, ∀ j < dbm.dim, (strongClosure dbm).2.get i j = strengthened D i j := by
  obtain ⟨habove, hbelow⟩ := floydWarshall_spec dbm.get dbm.dim
  have hclosure := (Graph.floydWarshall_spec habove hbelow).1 hneg
  have hcoh := IsClosure.coherent dbm.complement_lt_dim hclosure dbm.coherent hneg
  have happly := strengthen_apply (floydWarshall dbm.dim dbm.get) dbm.dim
  have hstr : Coherent dbm.dim (strengthen dbm.dim (floydWarshall dbm.dim dbm.get)) := by
    intro i hi j hj hij
    rw [happly i hi j hj, happly _ (dbm.complement_lt_dim j hj) _ (dbm.complement_lt_dim i hi)]
    exact strengthened_coherent hcoh i hi j hj hij
  obtain ⟨hdim, hget⟩ := writeBack_get hstr (rfl : dbm.dim = dbm.dim)
  refine ⟨hdim, _, hclosure, hcoh, fun i hi j hj => ?_⟩
  rw [strongClosure]
  exact (hget i hi j hj).trans (happly i hi j hj)

/-- The matrix that the closure leaves is strongly closed, up to its diagonal. -/
theorem strongClosure_stronglyClosed_iff (dbm : Dbm B) (hneg : NoNegative dbm.get dbm.dim) :
    StronglyClosed dbm.dim (strongClosure dbm).2.get ↔
      ∀ i < dbm.dim, ∃ l, Within dbm.dim l ∧ walkWeight dbm.get i l i ≤ 0 := by
  obtain ⟨hdim, D, hD, hcoh, hget⟩ := dbm.strongClosure_get hneg
  have hn := dbm.complement_lt_dim
  constructor
  · intro h i hi
    refine (strengthened_diagonal hn hD hneg hi).1 ?_
    rw [← hget i hi i hi, h.diagonal i hi]
  · intro h
    have hdiag : ∀ i < dbm.dim, (strongClosure dbm).2.get i i = 0 := fun i hi => by
      rw [hget i hi i hi]
      exact (strengthened_diagonal hn hD hneg hi).2 (h i hi)
    refine ⟨fun i hi j hj => ?_, hdiag, fun i hi j hj k hk => ?_, fun i hi j hj => ?_⟩
    · by_cases hij : i = j
      · subst hij
        rw [hdiag i hi, hdiag _ (hn i hi)]
      · exact (strongClosure dbm).2.get_complement hij
    · rw [hget i hi j hj, hget i hi k hk, hget k hk j hj]
      exact strengthened_triangle hn hD hcoh hneg hi hj hk
    · rw [hget i hi j hj, hget i hi _ (hn i hi), hget _ (hn j hj) j hj,
        strengthened_complement_right, strengthened_complement]
      exact min_le_right _ _

theorem new_stronglyClosed (nVars : Nat) :
    StronglyClosed (new nVars : Dbm B).dim (new nVars : Dbm B).get := by
  have htop : Bound.half (⊤ : B) = ⊤ := by
    have h := half_double (⊤ : B)
    rwa [LawfulBound.top_add] at h
  have hn := (new nVars : Dbm B).complement_lt_dim
  have hget : ∀ i < (new nVars : Dbm B).dim, ∀ j < (new nVars : Dbm B).dim,
      (new nVars : Dbm B).get i j = if i = j then 0 else ⊤ := fun i hi j hj => get_new nVars hi hj
  refine ⟨fun i hi j hj => ?_, fun i hi => ?_, fun i hi j hj k hk => ?_, fun i hi j hj => ?_⟩
  · by_cases hij : i = j
    · rw [hget _ (hn j hj) _ (hn i hi), hget i hi j hj, if_pos hij, if_pos (by rw [hij])]
    · exact get_complement _ hij
  · rw [hget i hi i hi, if_pos rfl]
  · rw [hget i hi j hj, hget i hi k hk, hget k hk j hj]
    by_cases hik : i = k
    · rw [if_pos hik, zero_add, hik]
    · rw [if_neg hik, LawfulBound.top_add]
      exact le_top
  · rw [hget i hi _ (hn i hi), if_neg (complement_ne i).symm, LawfulBound.top_add, htop]
    exact le_top

end Dbm

end TldrCode.Octagon
