import TldrCode.Octagon.Transfer

/-!
# Integer valuations

The `i64` bounds on integer valuations: what the operations of `bound.rs` do to the value of a bound
that is not infinite, and the laws of a strongly closed matrix as inequalities of values
(`stronglyClosed_iff`).
-/

namespace TldrCode.Octagon

open Dataflow (i64Min i64Max IsI64 saturate)

/-! ## Values -/

namespace I64

variable {a b c : I64} {z : Int}

theorem zero_val : (0 : I64).val = 0 := rfl

theorem half_val (h : a ≠ min) : (half a).val = a.val / 2 := by
  have hmin := a.min_le_val
  have hmax := a.val_le_max
  rw [Ne, eq_min_iff] at h
  unfold i64Min at h hmin
  unfold i64Max at hmax
  unfold half
  split_ifs with hneg
  · rw [wrap_val (by unfold IsI64 i64Min i64Max; rw [Int.tdiv_eq_ediv_of_nonneg hneg]; omega),
      Int.tdiv_eq_ediv_of_nonneg hneg]
  · have hpred : (wrap (a.val - 1)).val = a.val - 1 :=
      wrap_val (by unfold IsI64 i64Min i64Max; omega)
    have hdiv : (a.val - 1).tdiv 2 = a.val / 2 := by
      rw [Int.tdiv_eq_ediv, show Int.sign 2 = 1 from rfl]
      split_ifs <;> omega
    rw [hpred, hdiv, wrap_val (by unfold IsI64 i64Min i64Max; omega)]

theorem tighten_eq (a : I64) : Bound.tighten a = a.tighten := rfl

theorem tighten_val (hmax : a ≠ max) (hmin : a ≠ min) : (tighten a).val = 2 * (a.val / 2) := by
  have hlow := a.min_le_val
  have hhigh := a.val_le_max
  rw [tighten, if_neg (not_or.2 ⟨hmax, hmin⟩), half_val hmin]
  rw [Ne, eq_min_iff] at hmin
  unfold i64Min at hmin hlow
  unfold i64Max at hhigh
  unfold saturating saturate i64Min i64Max
  dsimp only
  omega

@[simp] theorem tighten_max : tighten max = max := rfl

@[simp] theorem tighten_min : tighten min = min := rfl

theorem tighten_ne_max (h : a ≠ max) : tighten a ≠ max := by
  by_cases hmin : a = min
  · rw [hmin]
    decide
  · rw [Ne, eq_max_iff, tighten_val h hmin]
    unfold i64Max
    omega

theorem tighten_eq_min_iff : tighten a = min ↔ a = min ∨ a.val = i64Min + 1 := by
  by_cases hmax : a = max
  · rw [hmax]
    decide
  by_cases hmin : a = min
  · rw [hmin]
    decide
  · rw [eq_min_iff, tighten_val hmax hmin, or_iff_right hmin]
    rw [eq_min_iff] at hmin
    unfold i64Min at hmin ⊢
    omega

theorem tighten_le (a : I64) : tighten a ≤ a := by
  by_cases hmax : a = max
  · rw [hmax, tighten_max]
  by_cases hmin : a = min
  · rw [hmin, tighten_min]
  · rw [le_iff, tighten_val hmax hmin]
    omega

/-! ## Inequalities -/

/-- The bound is at most the sum of two others. -/
def LeSum (a b c : I64) : Prop := b = max ∨ c = max ∨ a ≠ max ∧ a.val ≤ b.val + c.val

/-- The bound is at most half the sum of two others. -/
def LeHalfSum (a b c : I64) : Prop := b = max ∨ c = max ∨ a ≠ max ∧ 2 * a.val ≤ b.val + c.val

instance (a b c : I64) : Decidable (LeSum a b c) := inferInstanceAs (Decidable (_ ∨ _))

instance (a b c : I64) : Decidable (LeHalfSum a b c) := inferInstanceAs (Decidable (_ ∨ _))

theorem leHalfSum_self (a : I64) : LeHalfSum a a a := by
  by_cases hmax : a = max
  · exact .inl hmax
  · exact .inr (.inr ⟨hmax, by omega⟩)

theorem leSum_comm : LeSum a b c ↔ LeSum a c b := by
  rw [LeSum, LeSum, Int.add_comm, or_left_comm]

theorem leSum_zero_left (a : I64) : LeSum a 0 a := by
  by_cases hmax : a = max
  · exact .inr (.inl hmax)
  · exact .inr (.inr ⟨hmax, by rw [zero_val]; omega⟩)

theorem leSum_zero_right (a : I64) : LeSum a a 0 := leSum_comm.1 (leSum_zero_left a)

theorem LeSum.mono_left (h : LeSum a b c) {a' : I64} (ha : a' ≤ a) : LeSum a' b c := by
  refine h.imp_right (Or.imp_right fun ⟨hmax, hle⟩ => ⟨?_, ?_⟩)
  · rintro rfl
    exact hmax (eq_max_iff.2 (Int.le_antisymm a.val_le_max (le_iff.1 ha)))
  · exact (le_iff.1 ha).trans hle

/-- A bound on a sum is finite where both terms are. -/
theorem toExact_le_apply_iff {f : Exact → Exact} {q : ℚ} {P : Prop} (ha : a ≠ min) (hb : b ≠ min)
    (hc : c ≠ min) (htop : f ⊤ = ⊤)
    (hf : f (((b.val : ℚ) : WithBot ℚ) + ((c.val : ℚ) : WithBot ℚ) : WithBot ℚ) = (q : WithBot ℚ))
    (hP : (a.val : ℚ) ≤ q ↔ P) :
    toExact a ≤ f (toExact b + toExact c) ↔ b = max ∨ c = max ∨ a ≠ max ∧ P := by
  by_cases hbmax : b = max
  · rw [hbmax, toExact_max, WithTop.top_add, htop]
    exact iff_of_true le_top (.inl rfl)
  by_cases hcmax : c = max
  · rw [hcmax, toExact_max, WithTop.add_top, htop]
    exact iff_of_true le_top (.inr (.inl rfl))
  rw [or_iff_right hbmax, or_iff_right hcmax, toExact_of_ne hbmax hb, toExact_of_ne hcmax hc,
    ← WithTop.coe_add, hf]
  by_cases hamax : a = max
  · rw [hamax, toExact_max]
    exact iff_of_false (WithTop.coe_lt_top _).not_ge fun h => h.1 rfl
  · rw [toExact_of_ne hamax ha, and_iff_right hamax, WithTop.coe_le_coe, WithBot.coe_le_coe, hP]

theorem toExact_le_add_iff (ha : a ≠ min) (hb : b ≠ min) (hc : c ≠ min) :
    toExact a ≤ toExact b + toExact c ↔ LeSum a b c :=
  toExact_le_apply_iff (f := id) (q := b.val + c.val) ha hb hc rfl rfl (by norm_cast)

theorem toExact_le_half_add_iff (ha : a ≠ min) (hb : b ≠ min) (hc : c ≠ min) :
    toExact a ≤ Bound.half (toExact b + toExact c) ↔ LeHalfSum a b c := by
  refine toExact_le_apply_iff (q := ((b.val : ℚ) + (c.val : ℚ)) / 2) ha hb hc rfl rfl ?_
  rw [le_div_iff₀ (by norm_num), mul_comm]
  norm_cast

/-! ## Integers that a bound admits -/

def AdmitsInt (a : I64) (z : Int) : Prop := a = max ∨ a ≠ min ∧ z ≤ a.val

instance (a : I64) (z : Int) : Decidable (a.AdmitsInt z) := inferInstanceAs (Decidable (_ ∨ _))

theorem AdmitsInt.mono (h : a.AdmitsInt z) (hab : a ≤ b) {y : Int} (hy : y ≤ z) :
    b.AdmitsInt y := by
  rw [le_iff] at hab
  rcases h with rfl | ⟨hmin, hle⟩
  · left
    exact eq_max_iff.2 (Int.le_antisymm b.val_le_max hab)
  · right
    have hlow := a.min_le_val
    rw [Ne, eq_min_iff] at hmin ⊢
    omega

theorem admitsInt_min : (Min.min a b).AdmitsInt z ↔ a.AdmitsInt z ∧ b.AdmitsInt z := by
  constructor
  · intro h
    exact ⟨h.mono (min_le_left a b) le_rfl, h.mono (min_le_right a b) le_rfl⟩
  · rintro ⟨ha, hb⟩
    rcases min_choice a b with h | h
    · rwa [h]
    · rwa [h]

theorem admitsInt_zero : a.AdmitsInt 0 ↔ 0 ≤ a := by
  rw [AdmitsInt, le_iff, eq_max_iff, Ne, eq_min_iff, zero_val]
  unfold i64Max i64Min
  omega

theorem tighten_admitsInt (ha : a.val ≠ i64Min + 1) (hz : z % 2 = 0) :
    a.tighten.AdmitsInt z ↔ a.AdmitsInt z := by
  by_cases hmax : a = max
  · rw [hmax, tighten_max]
  by_cases hmin : a = min
  · rw [hmin, tighten_min]
  have hne : a.tighten ≠ min := fun heq => (tighten_eq_min_iff.1 heq).elim hmin ha
  rw [AdmitsInt, AdmitsInt, or_iff_right hmax, or_iff_right (tighten_ne_max hmax),
    and_iff_right hmin,
    and_iff_right hne, tighten_val hmax hmin]
  omega

theorem toExact_eq_coe {q : ℚ} (h : toExact a = ((q : WithBot ℚ) : Exact)) :
    a ≠ max ∧ q = a.val := by
  by_cases hmax : a = max
  · rw [hmax, toExact_max] at h
    exact absurd h (by simp)
  by_cases hmin : a = min
  · rw [hmin, toExact_min] at h
    exact absurd (WithTop.coe_injective h) (by simp)
  · rw [toExact_of_ne hmax hmin] at h
    exact ⟨hmax, (WithBot.coe_injective (WithTop.coe_injective h)).symm⟩

theorem toExact_ne_bot (h : a ≠ min) : toExact a ≠ ((⊥ : WithBot ℚ) : Exact) := by
  by_cases hmax : a = max
  · rw [hmax, toExact_max]
    simp
  · rw [toExact_of_ne hmax h]
    exact fun heq => WithBot.coe_ne_bot (WithTop.coe_injective heq)

end I64

/-- The value of `x` at `2x`, of `-x` at `2x + 1`. -/
def intLiteral (v : Nat → Int) (i : Nat) : Int := if i % 2 = 0 then v (i / 2) else -v (i / 2)

theorem literal_intCast (v : Nat → Int) (i : Nat) :
    literal (fun x => (v x : ℝ)) i = (intLiteral v i : ℝ) := by
  rw [literal, intLiteral]
  split_ifs
  · rfl
  · rw [Int.cast_neg]

theorem intLiteral_complement (v : Nat → Int) (i : Nat) :
    intLiteral v (complement i) = -intLiteral v i := by
  have hdiv := complement_div i
  have hmod := complement_mod i
  rw [intLiteral, intLiteral, hdiv]
  rcases Nat.mod_two_eq_zero_or_one i with h | h
  · rw [if_neg (by omega), if_pos h]
  · rw [if_pos (by omega), if_neg (by omega), neg_neg]

@[simp] theorem intLiteral_pos (v : Nat → Int) (x : Nat) : intLiteral v (2 * x) = v x := by
  rw [intLiteral, if_pos (by omega), Nat.mul_div_cancel_left x Nat.two_pos]

@[simp] theorem intLiteral_neg (v : Nat → Int) (x : Nat) : intLiteral v (2 * x + 1) = -v x := by
  rw [intLiteral, if_neg (by omega), show (2 * x + 1) / 2 = x by omega]

def IntSolution (n : Nat) (m : Graph.Weights I64) (v : Nat → Int) : Prop :=
  ∀ i < n, ∀ j < n, (m i j).AdmitsInt (intLiteral v j - intLiteral v i)

namespace Dbm

variable {d : Dbm I64} {v : Nat → Int} {i j : Nat}

/-- The integer valuation satisfies the constraints. -/
def IntSatisfies (d : Dbm I64) (v : Nat → Int) : Prop := IntSolution d.dim d.get v

theorem intSatisfies_iff (d : Dbm I64) (v : Nat → Int) :
    d.IntSatisfies v ↔ d.Satisfies fun x => (v x : ℝ) := by
  refine forall₂_congr fun i _ => forall₂_congr fun j _ => ?_
  rw [literal_intCast, literal_intCast, ← Int.cast_sub]
  exact I64.admits_int_iff.symm

theorem IntSatisfies.ne_min (h : d.IntSatisfies v) (hi : i < d.dim) (hj : j < d.dim) :
    d.get i j ≠ I64.min := by
  intro heq
  have hadmits := h i hi j hj
  rw [heq] at hadmits
  exact hadmits.elim (by decide) fun hne => hne.1 rfl

theorem exact_eq_zero_iff : d.exact i j = 0 ↔ d.get i j = 0 := by
  rw [exact, ← ExactBound.toExact_zero (B := I64), le_antisymm_iff, le_antisymm_iff,
    ExactBound.toExact_le_iff, ExactBound.toExact_le_iff]

theorem get_diagonal (h : StronglyClosed d.dim d.exact) (hi : i < d.dim) : d.get i i = 0 :=
  exact_eq_zero_iff.1 (h.diagonal i hi)

/-- **Strong closure in values**, for a matrix without `-∞`. -/
theorem stronglyClosed_iff (hmin : ∀ i < d.dim, ∀ j < d.dim, d.get i j ≠ I64.min) :
    StronglyClosed d.dim d.exact ↔ (∀ i < d.dim, d.get i i = 0) ∧
      (∀ i < d.dim, ∀ j < d.dim, ∀ k < d.dim,
        I64.LeSum (d.get i j) (d.get i k) (d.get k j)) ∧
      ∀ i < d.dim, ∀ j < d.dim,
        I64.LeHalfSum (d.get i j) (d.get i (complement i)) (d.get (complement j) j) := by
  have hn := d.complement_lt_dim
  constructor
  · intro h
    refine ⟨fun i hi => get_diagonal h hi, fun i hi j hj k hk => ?_,
      fun i hi j hj => ?_⟩
    · exact (I64.toExact_le_add_iff (hmin i hi j hj) (hmin i hi k hk) (hmin k hk j hj)).1
        (h.triangle i hi j hj k hk)
    · exact (I64.toExact_le_half_add_iff (hmin i hi j hj) (hmin i hi _ (hn i hi))
        (hmin _ (hn j hj) j hj)).1 (h.strengthening i hi j hj)
  · rintro ⟨hzero, htriangle, hstrengthening⟩
    refine ⟨fun i hi j hj => ?_, fun i hi => exact_eq_zero_iff.2 (hzero i hi),
      fun i hi j hj k hk => ?_,
      fun i hi j hj => ?_⟩
    · by_cases hij : i = j
      · rw [hij, exact_eq_zero_iff.2 (hzero j hj), exact_eq_zero_iff.2 (hzero _ (hn j hj))]
      · exact d.exact_coherent i hi j hj hij
    · exact (I64.toExact_le_add_iff (hmin i hi j hj) (hmin i hi k hk) (hmin k hk j hj)).2
        (htriangle i hi j hj k hk)
    · exact (I64.toExact_le_half_add_iff (hmin i hi j hj) (hmin i hi _ (hn i hi))
        (hmin _ (hn j hj) j hj)).2 (hstrengthening i hi j hj)

end Dbm

end TldrCode.Octagon
