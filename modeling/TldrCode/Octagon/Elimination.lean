import Mathlib.Algebra.Group.Subgroup.Basic
import Mathlib.Data.Finset.Max
import TldrCode.Octagon.Solution

/-!
# Elimination of a variable

In a strongly closed matrix every solution of the entries without a variable extends to a solution
of all entries (`exists_extension`), with a value from a group of numbers that the entries and half
of the bounds of single variables are in. So a strongly closed matrix has a solution in that group
(`exists_solution_in`), and each of its entries is attained (`exists_solution_above`).
-/

namespace TldrCode.Octagon

open TldrCode.Graph
open Function (update)

/-! ## Numbers between bounds -/

theorem exists_between {S : AddSubgroup ℝ} {uppers lowers : List ℝ} (hu : ∀ u ∈ uppers, u ∈ S)
    (hl : ∀ l ∈ lowers, l ∈ S) (h : ∀ u ∈ uppers, ∀ l ∈ lowers, l ≤ u) :
    ∃ r ∈ S, (∀ u ∈ uppers, r ≤ u) ∧ ∀ l ∈ lowers, l ≤ r := by
  by_cases hlowers : lowers = []
  · by_cases huppers : uppers = []
    · exact ⟨0, S.zero_mem, by simp [huppers], by simp [hlowers]⟩
    · obtain ⟨r, hr, hmin⟩ := uppers.toFinset.exists_min_image id (by simpa using huppers)
      rw [List.mem_toFinset] at hr
      exact ⟨r, hu r hr, fun u hu => hmin u (List.mem_toFinset.2 hu), by simp [hlowers]⟩
  · obtain ⟨r, hr, hmax⟩ := lowers.toFinset.exists_max_image id (by simpa using hlowers)
    rw [List.mem_toFinset] at hr
    exact ⟨r, hl r hr, fun u hu => h u hu r hr, fun l hl => hmax l (List.mem_toFinset.2 hl)⟩

def finite : Exact → Option ℚ
  | some (some q) => some q
  | _ => none

variable {a : Exact}

theorem finite_eq_some {q : ℚ} : finite a = some q ↔ a = ((q : WithBot ℚ) : Exact) := by
  cases a using WithTop.recTopCoe with
  | top => exact iff_of_false (by simp [finite]) (by simp)
  | coe a =>
    cases a using WithBot.recBotCoe with
    | bot => exact iff_of_false (fun h => by cases h) (by simp)
    | coe a =>
      rw [WithTop.coe_inj, WithBot.coe_inj]
      exact Option.some_inj

theorem admits_of_finite {r : ℝ} (hbot : a ≠ ((⊥ : WithBot ℚ) : Exact))
    (h : ∀ q, finite a = some q → r ≤ q) : Admits a r := by
  cases a using WithTop.recTopCoe with
  | top => trivial
  | coe a =>
    cases a using WithBot.recBotCoe with
    | bot => exact absurd rfl hbot
    | coe a => exact h a rfl

/-- A number `r` such that `r - c`, or `c - r`, is admitted by finitely many bounds. -/
theorem exists_admitted {S : AddSubgroup ℝ} {uppers lowers : List (Exact × ℝ)}
    (hbot : ∀ u ∈ uppers ++ lowers, u.1 ≠ ((⊥ : WithBot ℚ) : Exact))
    (hS : ∀ u ∈ uppers ++ lowers, u.2 ∈ S ∧ ∀ q : ℚ, u.1 = ((q : WithBot ℚ) : Exact) → (q : ℝ) ∈ S)
    (h : ∀ u ∈ uppers, ∀ l ∈ lowers, Admits (u.1 + l.1) (l.2 - u.2)) :
    ∃ r ∈ S, (∀ u ∈ uppers, Admits u.1 (r - u.2)) ∧ ∀ l ∈ lowers, Admits l.1 (l.2 - r) := by
  have hupper : ∀ x ∈ uppers.filterMap fun u => (finite u.1).map fun q : ℚ => u.2 + (q : ℝ),
      ∃ u ∈ uppers, ∃ q : ℚ, u.1 = ((q : WithBot ℚ) : Exact) ∧ x = u.2 + q := by
    intro x hx
    obtain ⟨u, hu, hmap⟩ := List.mem_filterMap.1 hx
    obtain ⟨q, hq, rfl⟩ := Option.map_eq_some_iff.1 hmap
    exact ⟨u, hu, q, finite_eq_some.1 hq, rfl⟩
  have hlower : ∀ x ∈ lowers.filterMap fun l => (finite l.1).map fun q : ℚ => l.2 - (q : ℝ),
      ∃ l ∈ lowers, ∃ q : ℚ, l.1 = ((q : WithBot ℚ) : Exact) ∧ x = l.2 - q := by
    intro x hx
    obtain ⟨l, hl, hmap⟩ := List.mem_filterMap.1 hx
    obtain ⟨q, hq, rfl⟩ := Option.map_eq_some_iff.1 hmap
    exact ⟨l, hl, q, finite_eq_some.1 hq, rfl⟩
  obtain ⟨r, hr, hru, hrl⟩ := exists_between (S := S)
    (fun x hx => by
      obtain ⟨u, hu, q, hq, rfl⟩ := hupper x hx
      obtain ⟨hc, hfinite⟩ := hS u (List.mem_append_left _ hu)
      exact S.add_mem hc (hfinite q hq))
    (fun x hx => by
      obtain ⟨l, hl, q, hq, rfl⟩ := hlower x hx
      obtain ⟨hc, hfinite⟩ := hS l (List.mem_append_right _ hl)
      exact S.sub_mem hc (hfinite q hq))
    (fun x hx y hy => by
      obtain ⟨u, hu, q, hq, rfl⟩ := hupper x hx
      obtain ⟨l, hl, q', hq', rfl⟩ := hlower y hy
      have hadmits := h u hu l hl
      rw [hq, hq'] at hadmits
      have hle : l.2 - u.2 ≤ ((q + q' : ℚ) : ℝ) := hadmits
      rw [Rat.cast_add] at hle
      linarith)
  refine ⟨r, hr, fun u hu => ?_, fun l hl => ?_⟩
  · refine admits_of_finite (hbot u (List.mem_append_left _ hu)) fun q hq => ?_
    have := hru _ (List.mem_filterMap.2 ⟨u, hu, by rw [hq]; rfl⟩)
    linarith
  · refine admits_of_finite (hbot l (List.mem_append_right _ hl)) fun q hq => ?_
    have := hrl _ (List.mem_filterMap.2 ⟨l, hl, by rw [hq]; rfl⟩)
    linarith

/-! ## Literals -/

variable {m : Weights Exact} {n i j k x : Nat} {v : Nat → ℝ} {r : ℝ} {S : AddSubgroup ℝ}
  {P : Exact × ℝ → Prop}

theorem literal_update_of_ne (h : i / 2 ≠ x) : literal (update v x r) i = literal v i := by
  rw [literal, literal, Function.update_of_ne h]

theorem literal_pos (v : Nat → ℝ) (x : Nat) : literal v (2 * x) = v x := by
  rw [literal, if_pos (by omega), Nat.mul_div_cancel_left x Nat.two_pos]

theorem literal_neg (v : Nat → ℝ) (x : Nat) : literal v (2 * x + 1) = -v x := by
  rw [literal, if_neg (by omega), show (2 * x + 1) / 2 = x by omega]

theorem literal_update_pos (v : Nat → ℝ) (x : Nat) (r : ℝ) :
    literal (update v x r) (2 * x) = r := by
  rw [literal_pos, Function.update_self]

theorem literal_update_neg (v : Nat → ℝ) (x : Nat) (r : ℝ) :
    literal (update v x r) (2 * x + 1) = -r := by
  rw [literal_neg, Function.update_self]

theorem literal_mem (h : ∀ k, v k ∈ S) (i : Nat) : literal v i ∈ S := by
  rw [literal]
  split_ifs
  · exact h _
  · exact S.neg_mem (h _)

theorem complement_pos (x : Nat) : complement (2 * x) = 2 * x + 1 := by
  have := complement_div (2 * x)
  have := complement_mod (2 * x)
  omega

theorem complement_neg (x : Nat) : complement (2 * x + 1) = 2 * x := by
  rw [← complement_pos, complement_complement]

namespace StronglyClosed

variable (h : StronglyClosed (2 * n) m)
include h

theorem restrict (hk : k ≤ n) : StronglyClosed (2 * k) m := by
  have hlt : ∀ i < 2 * k, i < 2 * n := fun i hi => by omega
  exact ⟨fun i hi j hj => h.coherent i (hlt i hi) j (hlt j hj), fun i hi => h.diagonal i (hlt i hi),
    fun i hi j hj k hk => h.triangle i (hlt i hi) j (hlt j hj) k (hlt k hk),
    fun i hi j hj => h.strengthening i (hlt i hi) j (hlt j hj)⟩

theorem unary_le (hi : i < 2 * n) (hk : k < 2 * n) :
    Bound.half (m i (complement i)) ≤ m i k + Bound.half (m k (complement k)) := by
  have hi' := complement_lt hi
  have hk' := complement_lt hk
  have hmirror : m k (complement i) = m i (complement k) := by
    have := h.coherent i hi (complement k) hk'
    rwa [complement_complement] at this
  have hle : m i (complement i) ≤ m i k + m i k + m k (complement k) := by
    calc m i (complement i) ≤ m i k + m k (complement i) := h.triangle i hi _ hi' k hk
      _ = m i k + m i (complement k) := by rw [hmirror]
      _ ≤ m i k + (m i k + m k (complement k)) :=
          add_le_add le_rfl (h.triangle i hi _ hk' k hk)
      _ = m i k + m i k + m k (complement k) := (add_assoc _ _ _).symm
  calc Bound.half (m i (complement i))
      ≤ Bound.half (m i k + m i k + m k (complement k)) := LawfulBound.half_mono hle
    _ = m i k + Bound.half (m k (complement k)) := by rw [LawfulBound.half_add, half_double]

theorem unary_le' (hj : j < 2 * n) (hk : k < 2 * n) :
    Bound.half (m (complement j) j) ≤ Bound.half (m (complement k) k) + m k j := by
  have hle := h.unary_le (complement_lt hj) (complement_lt hk)
  rwa [complement_complement, complement_complement, h.coherent k hk j hj, add_comm] at hle

theorem unary_nonneg (hi : i < 2 * n) :
    0 ≤ Bound.half (m i (complement i)) + Bound.half (m (complement i) i) := by
  rw [← LawfulBound.half_add]
  refine half_nonneg ?_
  rw [← h.diagonal i hi]
  exact h.triangle i hi i hi _ (complement_lt hi)

end StronglyClosed

/-! ## Extension -/

/-- The entries, and half of those that bound single variables, are in the group or infinite. -/
structure EntriesIn (S : AddSubgroup ℝ) (n : Nat) (m : Weights Exact) : Prop where
  finite : ∀ i < n, ∀ j < n, m i j ≠ ((⊥ : WithBot ℚ) : Exact)
  entry : ∀ i < n, ∀ j < n, ∀ q : ℚ, m i j = ((q : WithBot ℚ) : Exact) → (q : ℝ) ∈ S
  unary : ∀ i < n, ∀ q : ℚ, Bound.half (m i (complement i)) = ((q : WithBot ℚ) : Exact) →
    (q : ℝ) ∈ S

/-- The solution meets the entries without the variable. -/
def SolutionWithout (n x : Nat) (m : Weights Exact) (v : Nat → ℝ) : Prop :=
  ∀ i < n, ∀ j < n, i / 2 ≠ x → j / 2 ≠ x → Admits (m i j) (literal v j - literal v i)

theorem half_ne_bot (h : a ≠ ((⊥ : WithBot ℚ) : Exact)) :
    Bound.half a ≠ ((⊥ : WithBot ℚ) : Exact) := by
  intro hhalf
  refine h ?_
  rw [← LawfulBound.half_add_half a, hhalf]
  rfl

theorem Admits.of_half {r : ℝ} (h : Admits (Bound.half a) r) : Admits a (r + r) := by
  rw [← LawfulBound.half_add_half a]
  exact h.add h

def others (n x : Nat) : List Nat := (List.range n).filter fun k => k / 2 ≠ x

theorem mem_others : k ∈ others n x ↔ k < n ∧ k / 2 ≠ x := by
  simp [others]

/-- The bounds above the value of the variable, each with what it is to be compared with. -/
noncomputable def uppers (n x : Nat) (m : Weights Exact) (v : Nat → ℝ) : List (Exact × ℝ) :=
  (Bound.half (m (2 * x + 1) (2 * x)), 0) :: (others n x).map fun k => (m k (2 * x), literal v k)

noncomputable def lowers (n x : Nat) (m : Weights Exact) (v : Nat → ℝ) : List (Exact × ℝ) :=
  (Bound.half (m (2 * x) (2 * x + 1)), 0) :: (others n x).map fun k => (m (2 * x) k, literal v k)

theorem forall_mem_uppers : (∀ u ∈ uppers n x m v, P u) ↔
    P (Bound.half (m (2 * x + 1) (2 * x)), 0) ∧
      ∀ k, k < n → k / 2 ≠ x → P (m k (2 * x), literal v k) := by
  simp only [uppers, List.forall_mem_cons, List.forall_mem_map, mem_others, and_imp]

theorem forall_mem_lowers : (∀ u ∈ lowers n x m v, P u) ↔
    P (Bound.half (m (2 * x) (2 * x + 1)), 0) ∧
      ∀ k, k < n → k / 2 ≠ x → P (m (2 * x) k, literal v k) := by
  simp only [lowers, List.forall_mem_cons, List.forall_mem_map, mem_others, and_imp]

/-- **No bound below the value is above one above it.** -/
theorem lowers_le_uppers (h : StronglyClosed (2 * n) m) (hx : x < n)
    (hv : SolutionWithout (2 * n) x m v) : ∀ u ∈ uppers (2 * n) x m v,
      ∀ l ∈ lowers (2 * n) x m v, Admits (u.1 + l.1) (l.2 - u.2) := by
  have hpos : 2 * x < 2 * n := by omega
  have hself : ∀ k, k < 2 * n → k / 2 ≠ x →
      Admits (Bound.half (m k (complement k))) (-literal v k) := by
    intro k hk hkx
    have hunary := (hv k hk _ (complement_lt hk) hkx (by rwa [complement_div])).half
    rw [literal_complement] at hunary
    exact hunary.mono le_rfl (by linarith)
  rw [forall_mem_uppers]
  refine ⟨forall_mem_lowers.2 ⟨?_, ?_⟩, fun k hk hkx => forall_mem_lowers.2 ⟨?_, ?_⟩⟩
  · rw [sub_self, admits_zero, add_comm]
    have := h.unary_nonneg hpos
    rwa [complement_pos] at this
  · intro k hk hkx
    have hle := h.unary_le' hk hpos
    rw [complement_pos] at hle
    have hadmits := hself _ (complement_lt hk) (by rwa [complement_div])
    rw [complement_complement, literal_complement, neg_neg] at hadmits
    exact hadmits.mono hle (by linarith)
  · have hle := h.unary_le hk hpos
    rw [complement_pos] at hle
    exact (hself k hk hkx).mono hle (by linarith)
  · intro k' hk' hkx'
    exact (hv k hk k' hk' hkx hkx').mono (h.triangle k hk k' hk' _ hpos) le_rfl

theorem solution_update (h : StronglyClosed (2 * n) m) (hv : SolutionWithout (2 * n) x m v)
    (hu : ∀ u ∈ uppers (2 * n) x m v, Admits u.1 (r - u.2))
    (hl : ∀ l ∈ lowers (2 * n) x m v, Admits l.1 (l.2 - r)) :
    Solution (2 * n) m (update v x r) := by
  rw [forall_mem_uppers] at hu
  rw [forall_mem_lowers] at hl
  -- the variable on the right, and the variable on the left
  have hright : ∀ i < 2 * n, i / 2 ≠ x → ∀ j < 2 * n, j / 2 = x →
      Admits (m i j) (literal (update v x r) j - literal v i) := by
    intro i hi hix j hj hjx
    rcases Nat.mod_two_eq_zero_or_one j with hmod | hmod
    · obtain rfl : j = 2 * x := by omega
      rw [literal_update_pos]
      exact hu.2 i hi hix
    · obtain rfl : j = 2 * x + 1 := by omega
      rw [literal_update_neg, ← h.coherent i hi _ hj, complement_neg]
      have hadmits := hl.2 _ (complement_lt hi) (by rwa [complement_div])
      rw [literal_complement] at hadmits
      exact hadmits.mono le_rfl (by linarith)
  have hself : ∀ i < 2 * n, i / 2 = x → ∀ j < 2 * n, j / 2 = x →
      Admits (m i j) (literal (update v x r) j - literal (update v x r) i) := by
    intro i hi hix j hj hjx
    by_cases hij : i = j
    · rw [hij, sub_self, admits_zero, h.diagonal j hj]
    · rcases Nat.mod_two_eq_zero_or_one i with hmod | hmod
      · obtain rfl : i = 2 * x := by omega
        obtain rfl : j = 2 * x + 1 := by omega
        rw [literal_update_pos, literal_update_neg]
        exact hl.1.of_half.mono le_rfl (by linarith)
      · obtain rfl : i = 2 * x + 1 := by omega
        obtain rfl : j = 2 * x := by omega
        rw [literal_update_pos, literal_update_neg]
        exact hu.1.of_half.mono le_rfl (by linarith)
  intro i hi j hj
  by_cases hix : i / 2 = x
  · by_cases hjx : j / 2 = x
    · exact hself i hi hix j hj hjx
    · have hmirror := hright _ (complement_lt hj) (by rwa [complement_div]) _ (complement_lt hi)
        (by rwa [complement_div])
      rw [h.coherent i hi j hj, literal_complement, literal_complement] at hmirror
      rw [literal_update_of_ne hjx]
      exact hmirror.mono le_rfl (by linarith)
  · rw [literal_update_of_ne hix]
    by_cases hjx : j / 2 = x
    · exact hright i hi hix j hj hjx
    · rw [literal_update_of_ne hjx]
      exact hv i hi j hj hix hjx

/-- **Extension**: in a strongly closed matrix a solution of the entries without a variable has a
value for it. -/
theorem exists_extension (h : StronglyClosed (2 * n) m) (hm : EntriesIn S (2 * n) m) (hx : x < n)
    (hS : ∀ k, v k ∈ S) (hv : SolutionWithout (2 * n) x m v) :
    ∃ r ∈ S, Solution (2 * n) m (update v x r) := by
  have hpos : 2 * x < 2 * n := by omega
  have hneg : 2 * x + 1 < 2 * n := by omega
  have hall : ∀ u ∈ uppers (2 * n) x m v ++ lowers (2 * n) x m v,
      u.1 ≠ ((⊥ : WithBot ℚ) : Exact) ∧ u.2 ∈ S ∧
        ∀ q : ℚ, u.1 = ((q : WithBot ℚ) : Exact) → (q : ℝ) ∈ S := by
    rw [List.forall_mem_append, forall_mem_uppers, forall_mem_lowers]
    have hunary := hm.unary _ hneg
    have hunary' := hm.unary _ hpos
    rw [complement_neg] at hunary
    rw [complement_pos] at hunary'
    exact ⟨⟨⟨half_ne_bot (hm.finite _ hneg _ hpos), S.zero_mem, hunary⟩,
        fun k hk _ => ⟨hm.finite _ hk _ hpos, literal_mem hS k, hm.entry _ hk _ hpos⟩⟩,
      ⟨half_ne_bot (hm.finite _ hpos _ hneg), S.zero_mem, hunary'⟩,
      fun k hk _ => ⟨hm.finite _ hpos _ hk, literal_mem hS k, hm.entry _ hpos _ hk⟩⟩
  obtain ⟨r, hr, hu, hl⟩ := exists_admitted (fun u hu => (hall u hu).1) (fun u hu => (hall u hu).2)
    (lowers_le_uppers h hx hv)
  exact ⟨r, hr, solution_update h hv hu hl⟩

/-- **A strongly closed matrix has a solution** in the group. -/
theorem exists_solution_in (h : StronglyClosed (2 * n) m) (hm : EntriesIn S (2 * n) m) :
    ∃ v, (∀ k, v k ∈ S) ∧ Solution (2 * n) m v := by
  have key : ∀ k ≤ n, ∃ v, (∀ k, v k ∈ S) ∧ Solution (2 * k) m v := by
    intro k
    induction k with
    | zero => exact fun _ => ⟨fun _ => 0, fun _ => S.zero_mem, fun i hi => absurd hi (by omega)⟩
    | succ k ih =>
      intro hk
      obtain ⟨v, hS, hv⟩ := ih (by omega)
      have hlt : ∀ i < 2 * (k + 1), i < 2 * n := fun i hi => by omega
      have hm' : EntriesIn S (2 * (k + 1)) m :=
        ⟨fun i hi j hj => hm.finite i (hlt i hi) j (hlt j hj),
          fun i hi j hj => hm.entry i (hlt i hi) j (hlt j hj), fun i hi => hm.unary i (hlt i hi)⟩
      have hwithout : SolutionWithout (2 * (k + 1)) k m v :=
        fun i hi j hj hik hjk => hv i (by omega) j (by omega)
      obtain ⟨r, hr, hsol⟩ := exists_extension (h.restrict hk) hm' (Nat.lt_succ_self k) hS hwithout
      refine ⟨update v k r, fun x => ?_, hsol⟩
      by_cases hx : x = k
      · rw [hx, Function.update_self]
        exact hr
      · rw [Function.update_of_ne hx]
        exact hS x
  exact key n le_rfl

/-! ## Attained entries -/

/-- The entry `(j, i)` and its mirror image set to `c`. -/
def withEdge (m : Weights Exact) (i j : Nat) (c : Exact) : Weights Exact :=
  fun a b => if a = j ∧ b = i ∨ a = complement i ∧ b = complement j then c else m a b

theorem withEdge_cases (m : Weights Exact) (i j : Nat) (c : Exact) : ∀ a b,
    withEdge m i j c a b = m a b ∨ withEdge m i j c a b = c ∧
      (a = j ∧ b = i ∨ a = complement i ∧ b = complement j) := by
  intro a b
  rw [withEdge]
  split_ifs with hab
  · exact .inr ⟨rfl, hab⟩
  · exact .inl rfl

theorem withEdge_coherent (h : StronglyClosed n m) (c : Exact) : Coherent n (withEdge m i j c) := by
  intro a ha b hb _
  rw [withEdge, withEdge, h.coherent a ha b hb]
  have hswap : ∀ x y, complement x = y ↔ x = complement y := fun x y =>
    eq_comm.trans eq_complement_comm
  refine if_congr ?_ rfl rfl
  rw [hswap b j, hswap a i, complement_injective.eq_iff, complement_injective.eq_iff]
  tauto

theorem withEdge_noNegative (h : StronglyClosed (2 * n) m) (hi : i < 2 * n) (hj : j < 2 * n)
    {t : ℚ} (ht : ((t : WithBot ℚ) : Exact) ≤ m i j) :
    NoNegative (withEdge m i j (((-t : ℚ) : WithBot ℚ) : Exact)) (2 * n) := by
  have hi' := complement_lt hi
  have hj' := complement_lt hj
  have hclosed : Closed m (2 * n) := ⟨h.diagonal, h.triangle⟩
  have hcancel : ∀ a : Exact, ((t : WithBot ℚ) : Exact) ≤ a →
      0 ≤ (((-t : ℚ) : WithBot ℚ) : Exact) + a := by
    intro a ha
    have hzero : (((-t : ℚ) : WithBot ℚ) : Exact) + ((t : WithBot ℚ) : Exact) = 0 := by
      show (((-t + t : ℚ) : WithBot ℚ) : Exact) = 0
      rw [neg_add_cancel]
      rfl
    rw [← hzero]
    exact add_le_add le_rfl ha
  have hmirror : ((t : WithBot ℚ) : Exact) ≤ m (complement j) (complement i) := by
    rwa [h.coherent i hi j hj]
  have hboth : 0 ≤ (((-t : ℚ) : WithBot ℚ) : Exact) + m i (complement i) +
      (((-t : ℚ) : WithBot ℚ) : Exact) + m (complement j) j := by
    have hsum : (((t + t : ℚ) : WithBot ℚ) : Exact) ≤ m i (complement i) + m (complement j) j := by
      have hhalf := ht.trans (h.strengthening i hi j hj)
      have hdouble := add_le_add hhalf hhalf
      rwa [LawfulBound.half_add_half] at hdouble
    have hzero : (((-t : ℚ) : WithBot ℚ) : Exact) + (((-t : ℚ) : WithBot ℚ) : Exact) +
        (((t + t : ℚ) : WithBot ℚ) : Exact) = 0 := by
      show (((-t + -t + (t + t) : ℚ) : WithBot ℚ) : Exact) = 0
      rw [show -t + -t + (t + t) = 0 by ring]
      rfl
    calc 0 = (((-t : ℚ) : WithBot ℚ) : Exact) + (((-t : ℚ) : WithBot ℚ) : Exact) +
          (((t + t : ℚ) : WithBot ℚ) : Exact) := hzero.symm
      _ ≤ (((-t : ℚ) : WithBot ℚ) : Exact) + (((-t : ℚ) : WithBot ℚ) : Exact) +
          (m i (complement i) + m (complement j) j) := add_le_add le_rfl hsum
      _ = _ := by rw [add_add_add_comm, ← add_assoc]
  intro k hk l hl
  obtain ⟨w, hw, hle⟩ := hclosed.exists_crossing hj hi hi' hj' (withEdge_cases m i j _)
    (hcancel _ ht) (hcancel _ hmirror) hboth l hl k hk k hk
  refine le_trans ?_ hle
  -- a crossing that leads back to `k` is the way round the edges, through `k`
  have hround : ∀ a < 2 * n, ∀ b < 2 * n, ∀ c : Exact, 0 ≤ c + m b a → 0 ≤ m k a + c + m b k := by
    intro a ha b hb c hc
    calc (0 : Exact) ≤ c + m b a := hc
      _ ≤ c + (m b k + m k a) := add_le_add le_rfl (h.triangle b hb a ha k hk)
      _ = m k a + c + m b k := by rw [add_comm (m b k), ← add_assoc, add_comm c]
  simp only [crossings, List.mem_cons, List.not_mem_nil, or_false] at hw
  rcases hw with rfl | rfl | rfl | rfl | rfl
  · exact (h.diagonal k hk).ge
  · exact hround j hj i hi _ (hcancel _ ht)
  · exact hround _ hi' _ hj' _ (hcancel _ hmirror)
  · exact hround j hj _ hj' _ hboth
  · refine hround _ hi' i hi _ ?_
    rwa [add_assoc, add_comm, ← add_assoc] at hboth

theorem entriesIn_top (hbot : ∀ i < n, ∀ j < n, m i j ≠ ((⊥ : WithBot ℚ) : Exact)) :
    EntriesIn ⊤ n m :=
  ⟨hbot, fun _ _ _ _ _ _ => AddSubgroup.mem_top _, fun _ _ _ _ => AddSubgroup.mem_top _⟩

/-- **Every entry is attained** by a solution, or exceeded if it is infinite. -/
theorem exists_solution_above (h : StronglyClosed (2 * n) m)
    (hbot : ∀ i < 2 * n, ∀ j < 2 * n, m i j ≠ ((⊥ : WithBot ℚ) : Exact)) (hi : i < 2 * n)
    (hj : j < 2 * n) {t : ℚ} (ht : ((t : WithBot ℚ) : Exact) ≤ m i j) :
    ∃ v, Solution (2 * n) m v ∧ (t : ℝ) ≤ literal v j - literal v i := by
  have hopposite : ∀ v : Nat → ℝ,
      Admits (((-t : ℚ) : WithBot ℚ) : Exact) (literal v i - literal v j) →
        (t : ℝ) ≤ literal v j - literal v i := by
    intro v hv
    have hv : literal v i - literal v j ≤ ((-t : ℚ) : ℝ) := hv
    rw [Rat.cast_neg] at hv
    linarith
  by_cases hle : (((-t : ℚ) : WithBot ℚ) : Exact) ≤ m j i
  · have hneg := withEdge_noNegative h hi hj ht
    obtain ⟨habove, hbelow⟩ :=
      floydWarshall_spec (withEdge m i j (((-t : ℚ) : WithBot ℚ) : Exact)) (2 * n)
    have hclosure := (Graph.floydWarshall_spec habove hbelow).1 hneg
    have hfinite : ∀ a < 2 * n, ∀ b < 2 * n,
        withEdge m i j (((-t : ℚ) : WithBot ℚ) : Exact) a b ≠ ((⊥ : WithBot ℚ) : Exact) := by
      intro a ha b hb
      rw [withEdge]
      split_ifs
      · exact fun heq => WithBot.coe_ne_bot (WithTop.coe_injective heq)
      · exact hbot a ha b hb
    obtain ⟨v, hv⟩ := exists_solution hclosure (withEdge_coherent h _) hneg
      (fun i hi => complement_lt hi) hfinite
    refine ⟨v, fun a ha b hb => ?_, hopposite v ?_⟩
    · have hadmits := hv a ha b hb
      rw [withEdge] at hadmits
      split_ifs at hadmits with hab
      · refine hadmits.mono (hle.trans ?_) le_rfl
        rcases hab with ⟨rfl, rfl⟩ | ⟨rfl, rfl⟩
        · exact le_rfl
        · exact (h.coherent j hj i hi).ge
      · exact hadmits
    · have hadmits := hv j hj i hi
      rwa [withEdge, if_pos (.inl ⟨rfl, rfl⟩)] at hadmits
  · obtain ⟨v, -, hv⟩ := exists_solution_in h (entriesIn_top hbot)
    exact ⟨v, hv, hopposite v ((hv j hj i hi).mono (not_le.1 hle).le le_rfl)⟩

end TldrCode.Octagon
