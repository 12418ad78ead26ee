import TldrCode.Octagon.Integral

/-!
# Tight closure

`tight_closure` of `dataflow/octagon/closure.rs`, for integer variables. It rounds the unary bounds
down to even ones and neither closes again nor looks for a contradiction, which is correct where no
two odd unary bounds make up a binary one (`tightClosure_correct_iff`).
-/

namespace TldrCode.Octagon

open Dataflow (i64Min i64Max)

namespace Dbm

/-! ## The algorithm -/

section Algorithm

variable {B : Type*} [Bound B]

/-- The unary bounds of a variable, tightened. -/
def tightenVar (dbm : Dbm B) (var : Nat) : Dbm B :=
  let pos := 2 * var
  let neg := 2 * var + 1
  let upper := dbm.get neg pos
  let dbm := dbm.set neg pos (Bound.tighten upper)
  let lower := dbm.get pos neg
  dbm.set pos neg (Bound.tighten lower)

/-- `tight_closure`, which always returns `Closed`. -/
def tightClosure (dbm : Dbm B) : ClosureResult × Dbm B :=
  (.closed, (List.range dbm.nVars).foldl tightenVar dbm)

variable {dbm : Dbm B} {i j x : Nat}

theorem sameCell_unary (x i j : Nat) :
    (SameCell (2 * x + 1) (2 * x) i j ↔ i = 2 * x + 1 ∧ j = 2 * x) ∧
      (SameCell (2 * x) (2 * x + 1) i j ↔ i = 2 * x ∧ j = 2 * x + 1) := by
  rw [SameCell, SameCell, complement_pos, complement_neg]
  omega

theorem unary_cases (h : j = complement i) (x : Nat) :
    i / 2 = x ↔ i = 2 * x + 1 ∧ j = 2 * x ∨ i = 2 * x ∧ j = 2 * x + 1 := by
  have hdiv := complement_div i
  have hmod := complement_mod i
  omega

theorem tightenVar_get (hx : x < dbm.nVars) (i j : Nat) : (dbm.tightenVar x).get i j =
    if j = complement i ∧ i / 2 = x then Bound.tighten (dbm.get i j) else dbm.get i j := by
  obtain ⟨hpos, hneg⟩ := dbm.literals_lt hx
  have hset : ∀ b, (dbm.set (2 * x + 1) (2 * x) b).get (2 * x) (2 * x + 1) =
      dbm.get (2 * x) (2 * x + 1) := by
    intro b
    rw [dbm.get_set b _ _ hneg hpos, if_neg fun h => ?_]
    have := (sameCell_unary x _ _).1.1 h
    omega
  rw [tightenVar]
  rw [get_set _ _ i j (by rwa [set_dim]) (by rwa [set_dim]), hset, dbm.get_set _ i j hneg hpos]
  simp only [(sameCell_unary x i j).1, (sameCell_unary x i j).2]
  by_cases hlower : i = 2 * x ∧ j = 2 * x + 1
  · obtain ⟨rfl, rfl⟩ := hlower
    rw [if_pos ⟨rfl, rfl⟩, if_pos ⟨(complement_pos x).symm, by omega⟩]
  rw [if_neg hlower]
  by_cases hupper : i = 2 * x + 1 ∧ j = 2 * x
  · obtain ⟨rfl, rfl⟩ := hupper
    rw [if_pos ⟨rfl, rfl⟩, if_pos ⟨(complement_neg x).symm, by omega⟩]
  · rw [if_neg hupper, if_neg fun h => ?_]
    exact ((unary_cases h.1 x).1 h.2).elim hupper hlower

def tightened (m : Graph.Weights B) : Graph.Weights B :=
  fun i j => if j = complement i then Bound.tighten (m i j) else m i j

/-- **Tight closure** tightens the unary bounds. -/
theorem tightClosure_get (dbm : Dbm B) : (tightClosure dbm).2.dim = dbm.dim ∧
    ∀ i < dbm.dim, ∀ j < dbm.dim, (tightClosure dbm).2.get i j = tightened dbm.get i j := by
  have key : ∀ k ≤ dbm.nVars, ((List.range k).foldl tightenVar dbm).nVars = dbm.nVars ∧
      ∀ i j, ((List.range k).foldl tightenVar dbm).get i j =
        if j = complement i ∧ i / 2 < k then Bound.tighten (dbm.get i j) else dbm.get i j := by
    intro k
    induction k with
    | zero => exact fun _ => ⟨rfl, fun i j => (if_neg fun h => absurd h.2 (Nat.not_lt_zero _)).symm⟩
    | succ k ih =>
      intro hk
      obtain ⟨hvars, hget⟩ := ih (by omega)
      rw [List.range_succ, List.foldl_append, List.foldl_cons, List.foldl_nil]
      refine ⟨?_, fun i j => ?_⟩
      · rw [tightenVar, set_nVars, set_nVars, hvars]
      · rw [tightenVar_get (by omega), hget]
        split_ifs
        all_goals first | rfl | omega
  obtain ⟨hvars, hget⟩ := key dbm.nVars le_rfl
  have hdim : (tightClosure dbm).2.dim = dbm.dim := by rw [dim, dim, tightClosure, hvars]
  refine ⟨hdim, fun i hi j hj => ?_⟩
  rw [tightClosure, hget, tightened]
  refine if_congr (and_iff_left ?_) rfl rfl
  rw [dim] at hi
  omega

@[simp] theorem tightened_unary (m : Graph.Weights B) (i : Nat) :
    tightened m i (complement i) = Bound.tighten (m i (complement i)) := if_pos rfl

@[simp] theorem tightened_unary' (m : Graph.Weights B) (j : Nat) :
    tightened m (complement j) j = Bound.tighten (m (complement j) j) :=
  if_pos (complement_complement j).symm

theorem tightened_of_ne {m : Graph.Weights B} (h : j ≠ complement i) :
    tightened m i j = m i j := if_neg h

end Algorithm

/-! ## Parity -/

variable {d : Dbm I64} {i j k : Nat} {v : Nat → Int} {w : Nat → ℝ}

def OddBound (a : I64) : Prop := a ≠ I64.max ∧ a.val % 2 = 1

/-- Half the sum of two odd unary bounds is not the bound of both. -/
def NoOddPair (d : Dbm I64) : Prop :=
  ∀ i < d.dim, ∀ j < d.dim, j ≠ complement i → OddBound (d.get i (complement i)) →
    OddBound (d.get (complement j) j) →
      2 * (d.get i j).val ≠ (d.get i (complement i)).val + (d.get (complement j) j).val

/-- The laws of strong closure for the entries of `d`, without `-∞`. -/
structure ClosedVals (d : Dbm I64) (m : Graph.Weights I64) : Prop where
  diagonal : ∀ i < d.dim, m i i = 0
  triangle : ∀ i < d.dim, ∀ j < d.dim, ∀ k < d.dim, I64.LeSum (m i j) (m i k) (m k j)
  strengthening : ∀ i < d.dim, ∀ j < d.dim,
    I64.LeHalfSum (m i j) (m i (complement i)) (m (complement j) j)

theorem tightened_le (m : Graph.Weights I64) (i j : Nat) : tightened m i j ≤ m i j := by
  rw [tightened]
  split_ifs
  · exact I64.tighten_le _
  · exact le_rfl

theorem tightened_coherent (d : Dbm I64) (h : i ≠ j) :
    tightened d.get (complement j) (complement i) = tightened d.get i j := by
  rw [tightened, tightened, d.get_complement h, complement_complement]
  exact if_congr eq_comm rfl rfl

theorem tightened_diagonal (h : ClosedVals d d.get) (hi : i < d.dim) :
    tightened d.get i i = 0 := by
  rw [tightened_of_ne (complement_ne i).symm, h.diagonal i hi]

section Closed

variable (hmin : ∀ i < d.dim, ∀ j < d.dim, d.get i j ≠ I64.min)
include hmin

/-- **Strengthening survives** tightening exactly if no odd pair makes up a bound. -/
theorem tightened_strengthening_iff (h : ClosedVals d d.get) : NoOddPair d ↔
    ∀ i < d.dim, ∀ j < d.dim, I64.LeHalfSum (tightened d.get i j)
      (tightened d.get i (complement i)) (tightened d.get (complement j) j) := by
  have hn := d.complement_lt_dim
  refine forall₂_congr fun i hi => forall₂_congr fun j hj => ?_
  rw [tightened_unary, tightened_unary']
  by_cases hij : j = complement i
  · subst hij
    refine iff_of_true (fun hne => absurd rfl hne) ?_
    rw [tightened_unary, complement_complement]
    exact I64.leHalfSum_self _
  rw [tightened_of_ne hij]
  have hstrong := h.strengthening i hi j hj
  have hu := hmin i hi _ (hn i hi)
  have hw := hmin _ (hn j hj) j hj
  by_cases humax : d.get i (complement i) = I64.max
  · exact iff_of_true (fun _ hodd => absurd humax hodd.1) (.inl (by rw [humax]; rfl))
  by_cases hwmax : d.get (complement j) j = I64.max
  · exact iff_of_true (fun _ _ hodd => absurd hwmax hodd.1) (.inr (.inl (by rw [hwmax]; rfl)))
  obtain ⟨hmax, hle⟩ := (hstrong.resolve_left humax).resolve_left hwmax
  rw [I64.tighten_eq, I64.tighten_eq, I64.LeHalfSum, or_iff_right (I64.tighten_ne_max humax),
    or_iff_right (I64.tighten_ne_max hwmax),
    and_iff_right hmax]
  rw [I64.tighten_val humax hu, I64.tighten_val hwmax hw]
  simp only [OddBound, humax, hwmax, hij, ne_eq, not_false_eq_true, true_and, true_imp_iff]
  omega

theorem tightened_triangle_unary (h : ClosedVals d d.get) (hodd : NoOddPair d) (hi : i < d.dim)
    (hj : j < d.dim) (hij : j ≠ complement i) :
    I64.LeSum (d.get i j) (I64.tighten (d.get i (complement i))) (d.get (complement i) j) := by
  have hi' := d.complement_lt_dim i hi
  have hj' := d.complement_lt_dim j hj
  by_cases humax : d.get i (complement i) = I64.max
  · exact .inl (by rw [humax]; rfl)
  by_cases hcmax : d.get (complement i) j = I64.max
  · exact .inr (.inl hcmax)
  obtain ⟨hmax, hle⟩ := ((h.triangle i hi j hj _ hi').resolve_left humax).resolve_left hcmax
  -- the unary bound of `j` is at most that of `i` and twice the step
  have hmirror : d.get (complement j) i = d.get (complement i) j := by
    have hcell := d.get_complement (i := complement i) (j := j) hij.symm
    rwa [complement_complement] at hcell
  have hunary := h.triangle _ hj' j hj i hi
  rw [hmirror] at hunary
  obtain ⟨hwmax, hwle⟩ := (hunary.resolve_left hcmax).resolve_left hmax
  obtain ⟨-, hhalf⟩ := ((h.strengthening i hi j hj).resolve_left humax).resolve_left hwmax
  refine .inr (.inr ⟨hmax, ?_⟩)
  rw [I64.tighten_val humax (hmin i hi _ hi')]
  by_contra hlt
  refine hodd i hi j hj hij ⟨humax, by omega⟩ ⟨hwmax, by omega⟩ (by omega)

theorem tightened_triangle_complement (h : ClosedVals d d.get) (hodd : NoOddPair d)
    (hi : i < d.dim) (hj : j < d.dim) : I64.LeSum (tightened d.get i j)
      (tightened d.get i (complement i)) (tightened d.get (complement i) j) := by
  by_cases hij : j = complement i
  · rw [hij, tightened_diagonal h (d.complement_lt_dim i hi)]
    exact I64.leSum_zero_right _
  by_cases hself : i = j
  · subst hself
    have hstrong := (tightened_strengthening_iff hmin h).1 hodd i hi i hi
    rw [tightened_diagonal h hi] at hstrong ⊢
    exact hstrong
  · have hne : j ≠ complement (complement i) := by
      rw [complement_complement]
      exact Ne.symm hself
    rw [tightened_of_ne hij, tightened_unary, tightened_of_ne hne]
    exact tightened_triangle_unary hmin h hodd hi hj hij

/-- **The triangle inequality survives** as well. -/
theorem tightened_triangle (h : ClosedVals d d.get) (hodd : NoOddPair d) :
    ∀ i < d.dim, ∀ j < d.dim, ∀ k < d.dim,
      I64.LeSum (tightened d.get i j) (tightened d.get i k) (tightened d.get k j) := by
  have hn := d.complement_lt_dim
  intro i hi j hj k hk
  by_cases hik : i = k
  · rw [hik, tightened_diagonal h hk]
    exact I64.leSum_zero_left _
  by_cases hki : k = complement i
  · subst hki
    exact tightened_triangle_complement hmin h hodd hi hj
  by_cases hjk : j = complement k
  · -- the mirror image of the case before
    subst hjk
    have hne : i ≠ complement k := fun heq => hki (by rw [heq, complement_complement])
    have hright := tightened_coherent d hne
    rw [complement_complement] at hright
    rw [← hright, ← tightened_coherent d hik]
    exact I64.leSum_comm.1 (tightened_triangle_complement hmin h hodd hk (hn i hi))
  · rw [tightened_of_ne hki, tightened_of_ne hjk]
    exact (h.triangle i hi j hj k hk).mono_left (tightened_le _ _ _)

end Closed

/-! ## Integer points -/

/-- What tight closure is for: the same integer points, none exactly if it returns `Empty`, and
otherwise a strongly closed matrix with even unary bounds. -/
structure TightClosureCorrect (d : Dbm I64) : Prop where
  points : ∀ v, (tightClosure d).2.IntSatisfies v ↔ d.IntSatisfies v
  empty : (tightClosure d).1 = .empty ↔ ¬ ∃ v, d.IntSatisfies v
  closed : (tightClosure d).1 = .closed →
    StronglyClosed (tightClosure d).2.dim (tightClosure d).2.exact ∧
      ∀ i < d.dim, (tightClosure d).2.get i (complement i) = ⊤ ∨
        2 ∣ ((tightClosure d).2.get i (complement i)).val

/-- No bound is, or becomes, `-∞`, and no two odd unary bounds make up a binary one. -/
structure Tightenable (d : Dbm I64) : Prop where
  ne_min : ∀ i < d.dim, ∀ j < d.dim, d.get i j ≠ I64.min
  unary : ∀ i < d.dim, (d.get i (complement i)).val ≠ i64Min + 1
  odd : NoOddPair d

/-- The values of `Int` among the real numbers. -/
def intReals : AddSubgroup ℝ := (Int.castAddHom ℝ).range

theorem exists_int (h : ∀ k, w k ∈ intReals) : ∃ v : Nat → Int, w = fun k => (v k : ℝ) := by
  choose v hv using h
  exact ⟨v, funext fun k => (hv k).symm⟩

theorem entriesIn_intReals (hmin : ∀ i < d.dim, ∀ j < d.dim, d.get i j ≠ I64.min)
    (heven : ∀ i < d.dim, d.get i (complement i) = ⊤ ∨ 2 ∣ (d.get i (complement i)).val) :
    EntriesIn intReals d.dim d.exact := by
  refine ⟨fun i hi j hj => I64.toExact_ne_bot (hmin i hi j hj), fun i hi j hj q hq => ?_,
    fun i hi q hq => ?_⟩
  · obtain ⟨-, rfl⟩ := I64.toExact_eq_coe hq
    exact ⟨(d.get i j).val, by simp⟩
  · have hi' := d.complement_lt_dim i hi
    rcases heven i hi with htop | ⟨c, hc⟩
    · rw [exact, htop, ExactBound.toExact_top] at hq
      exact absurd hq (by simp [half_top])
    · refine ⟨c, ?_⟩
      have hdouble : d.exact i (complement i) = ((q + q : ℚ) : WithBot ℚ) := by
        rw [← LawfulBound.half_add_half (d.exact i (complement i)), hq]
        rfl
      obtain ⟨-, heq⟩ := I64.toExact_eq_coe hdouble
      rw [hc, Int.cast_mul, Int.cast_ofNat] at heq
      have hqc : q = c := by linarith
      simp [hqc]

theorem intLiteral_even (v : Nat → Int) (i : Nat) :
    (intLiteral v (complement i) - intLiteral v i) % 2 = 0 := by
  rw [intLiteral_complement]
  omega

theorem tightClosure_unary (hi : i < d.dim) :
    (tightClosure d).2.get i (complement i) = (d.get i (complement i)).tighten := by
  rw [(tightClosure_get d).2 i hi _ (d.complement_lt_dim i hi), tightened_unary, I64.tighten_eq]

theorem ClosedVals.of_stronglyClosed (h : StronglyClosed d.dim d.exact)
    (hmin : ∀ i < d.dim, ∀ j < d.dim, d.get i j ≠ I64.min) : ClosedVals d d.get := by
  obtain ⟨hdiag, htriangle, hstrengthening⟩ := (stronglyClosed_iff hmin).1 h
  exact ⟨hdiag, htriangle, hstrengthening⟩

namespace Tightenable

variable (h : Tightenable d)
include h

theorem tightClosure_ne_min : ∀ i < (tightClosure d).2.dim, ∀ j < (tightClosure d).2.dim,
    (tightClosure d).2.get i j ≠ I64.min := by
  obtain ⟨hdim, hget⟩ := tightClosure_get d
  rw [hdim]
  intro i hi j hj heq
  rw [hget i hi j hj, tightened] at heq
  split_ifs at heq with hij
  · subst hij
    exact (I64.tighten_eq_min_iff.1 heq).elim (h.ne_min i hi _ hj) (h.unary i hi)
  · exact h.ne_min i hi j hj heq

theorem tightClosure_stronglyClosed (hclosed : StronglyClosed d.dim d.exact) :
    StronglyClosed (tightClosure d).2.dim (tightClosure d).2.exact := by
  obtain ⟨hdim, hget⟩ := tightClosure_get d
  have hn := d.complement_lt_dim
  have hvals := ClosedVals.of_stronglyClosed hclosed h.ne_min
  rw [stronglyClosed_iff h.tightClosure_ne_min, hdim]
  refine ⟨fun i hi => ?_, fun i hi j hj k hk => ?_, fun i hi j hj => ?_⟩
  · rw [hget i hi i hi, tightened_diagonal hvals hi]
  · rw [hget i hi j hj, hget i hi k hk, hget k hk j hj]
    exact tightened_triangle h.ne_min hvals h.odd i hi j hj k hk
  · rw [hget i hi j hj, hget i hi _ (hn i hi), hget _ (hn j hj) j hj]
    exact (tightened_strengthening_iff h.ne_min hvals).1 h.odd i hi j hj

theorem tightClosure_even : ∀ i < d.dim, (tightClosure d).2.get i (complement i) = ⊤ ∨
    2 ∣ ((tightClosure d).2.get i (complement i)).val := by
  intro i hi
  rw [tightClosure_unary hi]
  by_cases hmax : d.get i (complement i) = I64.max
  · left
    rw [hmax]
    rfl
  · right
    rw [I64.tighten_val hmax (h.ne_min i hi _ (d.complement_lt_dim i hi))]
    exact Int.dvd_mul_right _ _

theorem tightClosure_points (v : Nat → Int) :
    (tightClosure d).2.IntSatisfies v ↔ d.IntSatisfies v := by
  obtain ⟨hdim, hget⟩ := tightClosure_get d
  rw [IntSatisfies, IntSolution, hdim]
  refine forall₂_congr fun i hi => forall₂_congr fun j hj => ?_
  rw [hget i hi j hj, tightened]
  split_ifs with hij
  · subst hij
    exact I64.tighten_admitsInt (h.unary i hi) (intLiteral_even v i)
  · exact Iff.rfl

/-- **An integer point** is left. -/
theorem exists_intSatisfies (hclosed : StronglyClosed d.dim d.exact) :
    ∃ v, d.IntSatisfies v := by
  have heven := h.tightClosure_even
  rw [← (tightClosure_get d).1] at heven
  obtain ⟨w, hw, hsolution⟩ := exists_solution_in (h.tightClosure_stronglyClosed hclosed)
    (entriesIn_intReals h.tightClosure_ne_min heven)
  obtain ⟨v, rfl⟩ := exists_int hw
  exact ⟨v, (h.tightClosure_points v).1 ((intSatisfies_iff _ v).2 hsolution)⟩

end Tightenable

/-- **Tight closure** is correct exactly for the matrices that it can tighten. -/
theorem tightClosure_correct_iff (d : Dbm I64) (h : StronglyClosed d.dim d.exact) :
    TightClosureCorrect d ↔ Tightenable d := by
  obtain ⟨hdim, hget⟩ := tightClosure_get d
  have hn := d.complement_lt_dim
  constructor
  · intro hcorrect
    obtain ⟨v, hv⟩ : ∃ v, d.IntSatisfies v := by
      by_contra hnone
      exact ClosureResult.noConfusion (hcorrect.empty.2 hnone)
    have hv' := (hcorrect.points v).2 hv
    have hmin : ∀ i < d.dim, ∀ j < d.dim, d.get i j ≠ I64.min :=
      fun i hi j hj => hv.ne_min hi hj
    refine ⟨hmin, fun i hi heq => ?_, ?_⟩
    · refine hv'.ne_min (hdim ▸ hi) (hdim ▸ hn i hi) ?_
      rw [tightClosure_unary hi]
      exact I64.tighten_eq_min_iff.2 (.inr heq)
    · have hstrong := ((stronglyClosed_iff fun i hi j hj => hv'.ne_min hi hj).1
        (hcorrect.closed rfl).1).2.2
      refine (tightened_strengthening_iff hmin (.of_stronglyClosed h hmin)).2 fun i hi j hj => ?_
      have hle := hstrong i (hdim ▸ hi) j (hdim ▸ hj)
      rwa [hget i hi j hj, hget i hi _ (hn i hi), hget _ (hn j hj) j hj] at hle
  · intro htight
    exact ⟨htight.tightClosure_points,
      iff_of_false ClosureResult.noConfusion (not_not_intro (htight.exists_intSatisfies h)),
      fun _ => ⟨htight.tightClosure_stronglyClosed h, htight.tightClosure_even⟩⟩

/-- A matrix without bounds. -/
theorem tightClosure_correct_new : TightClosureCorrect (new 1) ↔ Tightenable (new 1) := by
  refine tightClosure_correct_iff (new 1) ?_
  rw [stronglyClosed_iff (by decide +kernel)]
  exact ⟨by decide +kernel, by decide +kernel, by decide +kernel⟩

/-- `2 x = 1`. -/
def oddPoint : Dbm I64 := ((new 1).set 1 0 ⟨1, by decide⟩).set 0 1 ⟨-1, by decide⟩

theorem oddPoint_stronglyClosed : StronglyClosed oddPoint.dim oddPoint.exact := by
  rw [stronglyClosed_iff (by decide +kernel)]
  exact ⟨by decide +kernel, by decide +kernel, by decide +kernel⟩

/-- Tight closure misses that no integer is one half. -/
theorem not_tightClosure_correct_oddPoint :
    StronglyClosed oddPoint.dim oddPoint.exact ∧ ¬ TightClosureCorrect oddPoint := by
  refine ⟨oddPoint_stronglyClosed, fun h => ?_⟩
  have hnone : ¬ ∃ v, oddPoint.IntSatisfies v := by
    rintro ⟨v, hv⟩
    have hupper := hv 1 (by decide) 0 (by decide)
    have hlower := hv 0 (by decide) 1 (by decide)
    have hget : oddPoint.get 1 0 = ⟨1, by decide⟩ ∧ oddPoint.get 0 1 = ⟨-1, by decide⟩ := by
      decide +kernel
    rw [hget.1] at hupper
    rw [hget.2] at hlower
    obtain ⟨-, hupper⟩ := hupper.resolve_left (by decide)
    obtain ⟨-, hlower⟩ := hlower.resolve_left (by decide)
    have hpos : intLiteral v 0 = v 0 := intLiteral_pos v 0
    have hneg : intLiteral v 1 = -v 0 := intLiteral_neg v 0
    dsimp only at hupper hlower
    omega
  exact ClosureResult.noConfusion (h.empty.2 hnone)

end Dbm

end TldrCode.Octagon
