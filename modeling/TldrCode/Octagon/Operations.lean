import Mathlib.Data.Set.Card
import Mathlib.Data.Set.Finite.Lattice
import TldrCode.Octagon.Transfer

/-!
# Widening and inclusion

`dataflow/octagon/operations.rs`, and the inclusion of `query.rs`. Widening keeps a bound of the new
matrix that is tighter than the old one, so it covers the old matrix and settles down where no bound
gets tighter (`widenings_correct`). Inclusion compares entries, which decides it where the entries
of the left matrix are as tight as its closure (`isIncluded_correct_iff`).
-/

namespace TldrCode.Octagon

open Graph

namespace Dbm

section Algorithms

variable {B : Type*} [Bound B]

/-- The entries of `widen`. -/
def widenedVal (old new : Dbm B) : Weights B := fun i j =>
  let oldVal := old.get i j
  let newVal := new.get i j
  if newVal > oldVal then ⊤ else newVal

def widen (old new : Dbm B) : Dbm B :=
  writeBack old.dim (.new old.nVars) (widenedVal old new)

/-- `is_included` of `operations.rs`. -/
def isIncluded (a b : Dbm B) : Bool :=
  if a.nVars ≠ b.nVars then false
  else (List.range a.dim).all fun i => (List.range a.dim).all fun j => !(a.get i j > b.get i j)

/-- `is_included` of `query.rs`, which panics if the dimensions differ. -/
def queryIsIncluded (a b : Dbm B) : Option Bool :=
  if a.dim = b.dim then
    some <| (List.range a.dim).all fun i => (List.range a.dim).all fun j =>
      !(a.get i j > b.get i j)
  else none

end Algorithms

section Exact

variable {B : Type*} [ExactBound B] {a b old new : Dbm B} {i j k : Nat} {v : Nat → ℝ}

/-! ## Widening -/

theorem widen_get (old new : Dbm B) : (widen old new).dim = old.dim ∧
    ∀ i < old.dim, ∀ j < old.dim, (widen old new).get i j = widenedVal old new i j := by
  refine writeBack_get (fun i hi j hj hij => ?_) rfl
  rw [widenedVal, widenedVal, old.get_complement hij, new.get_complement hij]

theorem Satisfies.widen (hdim : new.nVars = old.nVars) (h : new.Satisfies v) :
    (widen old new).Satisfies v := by
  obtain ⟨hwdim, hget⟩ := widen_get old new
  intro i hi j hj
  rw [hwdim] at hi hj
  have hadmits := h i (by rwa [dim, hdim]) j (by rwa [dim, hdim])
  rw [exact, hget i hi j hj, widenedVal]
  split_ifs
  · rw [ExactBound.toExact_top]
    trivial
  · exact hadmits

/-- **Widening covers the old matrix** exactly if the old one implies what gets tighter. -/
theorem widen_covers_iff :
    (∀ v, old.Satisfies v → (Dbm.widen old new).Satisfies v) ↔
      ∀ i < old.dim, ∀ j < old.dim, new.get i j < old.get i j →
        ∀ v, old.Satisfies v → Admits (new.exact i j) (literal v j - literal v i) := by
  obtain ⟨hwdim, hget⟩ := widen_get old new
  constructor
  · intro h i hi j hj hlt v hv
    have hadmits := h v hv i (hwdim ▸ hi) j (hwdim ▸ hj)
    rwa [exact, hget i hi j hj, widenedVal, if_neg hlt.not_gt] at hadmits
  · intro h v hv i hi j hj
    rw [hwdim] at hi hj
    rw [exact, hget i hi j hj, widenedVal]
    rcases lt_trichotomy (new.get i j) (old.get i j) with hlt | heq | hgt
    · rw [if_neg hlt.not_gt]
      exact h i hi j hj hlt v hv
    · rw [if_neg heq.not_gt, heq]
      exact hv i hi j hj
    · rw [if_pos hgt, ExactBound.toExact_top]
      trivial

/-- The matrices of an iteration with widening. -/
def widenings (x : Dbm B) (y : Nat → Dbm B) : Nat → Dbm B
  | 0 => x
  | k + 1 => Dbm.widen (widenings x y k) (y k)

/-- What widening is for: it covers both matrices, and the iteration becomes constant after a number
of changes that is at most quadratic in the number of variables. -/
structure WideningsCorrect (x : Dbm B) (y : Nat → Dbm B) : Prop where
  left : ∀ k v, (widenings x y k).Satisfies v → (widenings x y (k + 1)).Satisfies v
  right : ∀ k v, (y k).Satisfies v → (widenings x y (k + 1)).Satisfies v
  changes : {k | widenings x y (k + 1) ≠ widenings x y k}.encard ≤ ((2 * x.nVars) ^ 2 : Nat)
  constant : ∃ k, ∀ l ≥ k, widenings x y l = widenings x y k

def NoTighter (old new : Dbm B) : Prop :=
  ∀ i < old.dim, ∀ j < old.dim, ¬ new.get i j < old.get i j

section Run

variable {x : Dbm B} {y : Nat → Dbm B}

theorem widenings_dim (x : Dbm B) (y : Nat → Dbm B) (k : Nat) :
    (widenings x y k).dim = x.dim := by
  induction k with
  | zero => rfl
  | succ k ih => exact (widen_get _ _).1.trans ih

theorem widenings_nVars (x : Dbm B) (y : Nat → Dbm B) (k : Nat) :
    (widenings x y k).nVars = x.nVars :=
  Nat.eq_of_mul_eq_mul_left Nat.two_pos (widenings_dim x y k)

theorem widenings_succ_get (h : NoTighter (widenings x y k) (y k)) (hi : i < x.dim)
    (hj : j < x.dim) : (widenings x y (k + 1)).get i j = (widenings x y k).get i j ∨
      (widenings x y (k + 1)).get i j = ⊤ := by
  rw [← widenings_dim x y k] at hi hj
  have hget := (widen_get (widenings x y k) (y k)).2 i hi j hj
  rw [widenedVal] at hget
  split_ifs at hget with hgt
  · exact .inr hget
  · exact .inl (hget.trans (le_antisymm (not_lt.1 hgt) (not_lt.1 (h i hi j hj))))

theorem widenings_top (h : ∀ k, NoTighter (widenings x y k) (y k)) (hi : i < x.dim) (hj : j < x.dim)
    (htop : (widenings x y k).get i j = ⊤) {l : Nat} (hkl : k ≤ l) :
    (widenings x y l).get i j = ⊤ := by
  induction l, hkl using Nat.le_induction with
  | base => exact htop
  | succ l hkl ih => exact (widenings_succ_get (h l) hi hj).elim (fun heq => heq.trans ih) id

theorem exists_widened (h : NoTighter (widenings x y k) (y k))
    (hne : widenings x y (k + 1) ≠ widenings x y k) : ∃ cell : Nat × Nat,
      cell.1 < x.dim ∧ cell.2 < x.dim ∧ (widenings x y k).get cell.1 cell.2 ≠ ⊤ ∧
        (widenings x y (k + 1)).get cell.1 cell.2 = ⊤ := by
  by_contra hnone
  refine hne (eq_of_get ((widenings_dim x y (k + 1)).trans (widenings_dim x y k).symm) ?_)
  intro i hi j hj
  rw [widenings_dim] at hi hj
  rcases widenings_succ_get h hi hj with heq | htop
  · exact heq
  · by_contra hij
    exact hnone ⟨(i, j), hi, hj, fun hk => hij (htop.trans hk.symm), htop⟩

/-- **No cell changes twice.** -/
theorem encard_changes_le (h : ∀ k, NoTighter (widenings x y k) (y k)) :
    {k | widenings x y (k + 1) ≠ widenings x y k}.encard ≤ ((2 * x.nVars) ^ 2 : Nat) := by
  have hcell : ∀ k, ∃ cell : Nat × Nat, widenings x y (k + 1) ≠ widenings x y k →
      cell.1 < x.dim ∧ cell.2 < x.dim ∧ (widenings x y k).get cell.1 cell.2 ≠ ⊤ ∧
        (widenings x y (k + 1)).get cell.1 cell.2 = ⊤ := by
    intro k
    by_cases hk : widenings x y (k + 1) = widenings x y k
    · exact ⟨(0, 0), fun hne => absurd hk hne⟩
    · obtain ⟨cell, hcell⟩ := exists_widened (h k) hk
      exact ⟨cell, fun _ => hcell⟩
  choose cell hcell using hcell
  have hmaps : Set.MapsTo cell {k | widenings x y (k + 1) ≠ widenings x y k}
      (Finset.range x.dim ×ˢ Finset.range x.dim : Finset (Nat × Nat)) := by
    intro k hk
    obtain ⟨hi, hj, -⟩ := hcell k hk
    rw [Finset.mem_coe, Finset.mem_product, Finset.mem_range, Finset.mem_range]
    exact ⟨hi, hj⟩
  have hinj : Set.InjOn cell {k | widenings x y (k + 1) ≠ widenings x y k} := by
    have hlt : ∀ k l, widenings x y (k + 1) ≠ widenings x y k →
        widenings x y (l + 1) ≠ widenings x y l → k < l → cell k ≠ cell l := by
      intro k l hk hl hkl heq
      obtain ⟨hi, hj, -, htop⟩ := hcell k hk
      have hstill := widenings_top h hi hj htop hkl
      rw [heq] at hstill
      exact (hcell l hl).2.2.1 hstill
    intro k hk l hl heq
    rcases Nat.lt_trichotomy k l with hkl | rfl | hlk
    · exact absurd heq (hlt k l hk hl hkl)
    · rfl
    · exact absurd heq.symm (hlt l k hl hk hlk)
  refine (Set.encard_le_encard_of_injOn hmaps hinj).trans ?_
  rw [Set.encard_coe_eq_coe_finsetCard, Finset.card_product, Finset.card_range, dim, sq]

theorem exists_constant (h : {k | widenings x y (k + 1) ≠ widenings x y k}.Finite) :
    ∃ k, ∀ l ≥ k, widenings x y l = widenings x y k := by
  obtain ⟨k, hk⟩ := h.bddAbove
  refine ⟨k + 1, fun l hl => ?_⟩
  induction l, hl using Nat.le_induction with
  | base => rfl
  | succ l hl ih =>
    refine Eq.trans ?_ ih
    by_contra hne
    have := hk hne
    omega

end Run

end Exact

theorem widen_self {B : Type*} [ExactBound B] (d : Dbm B) : widen d d = d := by
  obtain ⟨hdim, hget⟩ := widen_get d d
  refine eq_of_get hdim fun i hi j hj => ?_
  rw [hdim] at hi hj
  rw [hget i hi j hj, widenedVal, if_neg (lt_irrefl _)]

/-- A bound of `2 x`, which gets tighter and tighter. -/
def below (c : I64) : Dbm I64 := (new 1).set 1 0 c

section Inclusion

variable {B : Type*} [ExactBound B] {a b : Dbm B} {i j n : Nat} {m : Weights Exact} {v : Nat → ℝ}

/-- What `strong_closure` makes of the entries in exact arithmetic. -/
def closure (a : Dbm B) : Weights Exact := strengthen a.dim (floydWarshall a.dim a.exact)

/-- **The closure** of a matrix with a solution is strongly closed, up to its diagonal, and has the
same solutions. -/
theorem exists_stronglyClosed (hsat : ∃ v, a.Satisfies v) : ∃ s, StronglyClosed a.dim s ∧
    (∀ v, Solution a.dim s v ↔ a.Satisfies v) ∧
      ∀ i < a.dim, ∀ j < a.dim, i ≠ j → s i j = a.closure i j := by
  obtain ⟨w, hw⟩ := hsat
  have hn := a.complement_lt_dim
  have hneg : NoNegative a.exact a.dim := Solution.noNegative hw
  obtain ⟨habove, hbelow⟩ := floydWarshall_spec a.exact a.dim
  have hD := (Graph.floydWarshall_spec habove hbelow).1 hneg
  have hcoherent := IsClosure.coherent hn hD a.exact_coherent hneg
  refine ⟨zeroed (strengthened (floydWarshall a.dim a.exact)),
    zeroed_stronglyClosed hn hD hcoherent hneg, fun v => ?_, fun i hi j hj hij => ?_⟩
  · have hsolution : Solution a.dim (strengthened (floydWarshall a.dim a.exact)) v ↔
      a.Satisfies v :=
      solution_iff_of_strengthened hD hn
    rw [← hsolution]
    refine forall₂_congr fun i hi => forall₂_congr fun j hj => ?_
    by_cases hij : i = j
    · rw [hij, zeroed_self, sub_self, admits_zero, admits_zero]
      exact iff_of_true le_rfl (strengthened_nonneg hn hD hneg hj)
    · rw [zeroed_of_ne hij]
  · rw [zeroed_of_ne hij, closure, strengthen_apply _ _ i hi j hj]

/-- A number up to the greater of two bounds, above all that the other one admits. -/
theorem exists_rat_above {a b : Exact} (h : a < b) :
    ∃ t : ℚ, ((t : WithBot ℚ) : Exact) ≤ b ∧ ∀ r : ℝ, (t : ℝ) ≤ r → ¬ Admits a r := by
  cases a using WithTop.recTopCoe with
  | top => exact absurd h not_top_lt
  | coe a =>
    cases a using WithBot.recBotCoe with
    | bot =>
      have hle : ∃ t : ℚ, ((t : WithBot ℚ) : Exact) ≤ b := by
        cases b using WithTop.recTopCoe with
        | top => exact ⟨0, le_top⟩
        | coe b =>
          cases b using WithBot.recBotCoe with
          | bot => exact absurd h (lt_irrefl _)
          | coe b => exact ⟨b, le_rfl⟩
      obtain ⟨t, ht⟩ := hle
      exact ⟨t, ht, fun r _ => not_admits_bot r⟩
    | coe a =>
      have hlt : ∃ t : ℚ, a < t ∧ ((t : WithBot ℚ) : Exact) ≤ b := by
        cases b using WithTop.recTopCoe with
        | top => exact ⟨a + 1, lt_add_one a, le_top⟩
        | coe b =>
          cases b using WithBot.recBotCoe with
          | bot => exact absurd (WithTop.coe_lt_coe.1 h) not_lt_bot
          | coe b => exact ⟨b, WithBot.coe_lt_coe.1 (WithTop.coe_lt_coe.1 h), le_rfl⟩
      obtain ⟨t, hat, ht⟩ := hlt
      refine ⟨t, ht, fun r htr hr => ?_⟩
      have hr : r ≤ (a : ℝ) := hr
      have hat : (a : ℝ) < (t : ℝ) := Rat.cast_lt.2 hat
      linarith

/-- **Inclusion of the solutions** is comparison with the closure. -/
theorem satisfies_imp_iff (hdim : a.nVars = b.nVars) (hb : ∀ i < b.dim, b.exact i i = 0) :
    (∀ v, a.Satisfies v → b.Satisfies v) ↔ ((∃ v, a.Satisfies v) →
      ∀ i < a.dim, ∀ j < a.dim, i ≠ j → a.closure i j ≤ b.exact i j) := by
  have hdim' : b.dim = a.dim := by rw [dim, dim, hdim]
  rw [hdim'] at hb
  constructor
  · intro h hsat i hi j hj hij
    obtain ⟨s, hs, hsolution, hclosure⟩ := exists_stronglyClosed hsat
    rw [← hclosure i hi j hj hij]
    by_contra hnot
    obtain ⟨t, ht, hexceeds⟩ := exists_rat_above (not_le.1 hnot)
    have hbot : ∀ i < a.dim, ∀ j < a.dim, s i j ≠ ((⊥ : WithBot ℚ) : Exact) := by
      obtain ⟨w, hw⟩ := hsat
      intro i hi j hj heq
      have hadmits := (hsolution w).2 hw i hi j hj
      rw [heq] at hadmits
      exact not_admits_bot _ hadmits
    obtain ⟨v, hv, htv⟩ := exists_solution_above hs hbot hi hj ht
    have hadmits := h v ((hsolution v).1 hv) i (hdim' ▸ hi) j (hdim' ▸ hj)
    exact hexceeds _ htv hadmits
  · intro h v hv i hi j hj
    rw [hdim'] at hi hj
    by_cases hij : i = j
    · rw [hij, sub_self, admits_zero, hb j hj]
    · obtain ⟨s, -, hsolution, hclosure⟩ := exists_stronglyClosed ⟨v, hv⟩
      have hadmits := (hsolution v).2 hv i hi j hj
      rw [hclosure i hi j hj hij] at hadmits
      exact hadmits.mono (h ⟨v, hv⟩ i hi j hj hij) le_rfl

/-- Both inclusion tests are the inclusion of the solutions. -/
structure IncludedCorrect (a b : Dbm B) : Prop where
  operations : isIncluded a b ↔ ∀ v, a.Satisfies v → b.Satisfies v
  query : queryIsIncluded a b = some true ↔ ∀ v, a.Satisfies v → b.Satisfies v

/-- Some entry is greater than the other matrix's. -/
def ExceedsEntry (a b : Dbm B) : Prop := ∃ i < a.dim, ∃ j < a.dim, b.get i j < a.get i j

/-- Off the diagonal, some entry of the closure is greater than the other matrix's. -/
def ExceedsClosure (a b : Dbm B) : Prop :=
  ∃ i < a.dim, ∃ j < a.dim, i ≠ j ∧ b.exact i j < a.closure i j

theorem closure_le (hi : i < a.dim) (hj : j < a.dim) : a.closure i j ≤ a.exact i j := by
  rw [closure, strengthen_apply _ _ i hi j hj]
  exact (min_le_left _ _).trans
    ((floydWarshall_spec a.exact a.dim).2 i hi j hj [] List.nodup_nil (by simp [Within]))

theorem ExceedsClosure.entry (h : ExceedsClosure a b) : ExceedsEntry a b := by
  obtain ⟨i, hi, j, hj, -, hlt⟩ := h
  refine ⟨i, hi, j, hj, ?_⟩
  rw [← not_le, ← ExactBound.toExact_le_iff, not_le]
  exact hlt.trans_le (closure_le hi hj)

theorem queryIsIncluded_eq (hdim : a.nVars = b.nVars) :
    queryIsIncluded a b = some (isIncluded a b) := by
  rw [queryIsIncluded, if_pos (by rw [dim, dim, hdim]), isIncluded, if_neg (not_not.2 hdim)]

theorem isIncluded_iff (hdim : a.nVars = b.nVars) : isIncluded a b ↔ ¬ ExceedsEntry a b := by
  rw [isIncluded, if_neg (not_not.2 hdim), ExceedsEntry]
  simp only [List.all_eq_true, List.mem_range, Bool.not_eq_true', decide_eq_false_iff_not]
  push Not
  exact Iff.rfl

/-- **Inclusion** of matrices the right one of which is strongly closed is correct exactly if no
entry of the left matrix is greater than the right one's while all of its closure's are not. -/
theorem isIncluded_correct_iff (a b : Dbm B) (hdim : a.nVars = b.nVars)
    (hb : StronglyClosed b.dim b.exact) : IncludedCorrect a b ↔
      (ExceedsEntry a b → (∃ v, a.Satisfies v) ∧ ExceedsClosure a b) := by
  have hclosure : (∀ v, a.Satisfies v → b.Satisfies v) ↔
      ¬ ((∃ v, a.Satisfies v) ∧ ExceedsClosure a b) := by
    rw [satisfies_imp_iff hdim hb.diagonal, ExceedsClosure]
    push Not
    exact Iff.rfl
  have hiff : (isIncluded a b ↔ ∀ v, a.Satisfies v → b.Satisfies v) ↔
      (ExceedsEntry a b → (∃ v, a.Satisfies v) ∧ ExceedsClosure a b) := by
    rw [isIncluded_iff hdim, hclosure]
    constructor
    · intro h hexceeds
      by_contra hnot
      exact h.2 hnot hexceeds
    · intro h
      exact not_congr ⟨h, fun hsat => hsat.2.entry⟩
  rw [← hiff]
  constructor
  · exact fun h => h.operations
  · refine fun h => ⟨h, ?_⟩
    rw [queryIsIncluded_eq hdim, Option.some_inj]
    exact h

end Inclusion

/-- Every matrix without constraints is included in every such matrix. -/
theorem isIncluded_correct_new : IncludedCorrect (new 1 : Dbm Exact) (new 1) ↔
    (ExceedsEntry (new 1 : Dbm Exact) (new 1) →
      (∃ v, (new 1 : Dbm Exact).Satisfies v) ∧ ExceedsClosure (new 1 : Dbm Exact) (new 1)) :=
  isIncluded_correct_iff (new 1) (new 1) rfl (new_stronglyClosed 1)

/-- `x ≤ 0` and `y ≤ 0`. -/
def halfPlanes : Dbm Exact := ((new 2).set 1 0 0).set 3 2 0

/-- The same with `x + y ≤ 0`. -/
def corner : Dbm Exact := halfPlanes.set 3 0 0

theorem corner_stronglyClosed : StronglyClosed corner.dim corner.exact where
  coherent := by decide +kernel
  diagonal := by decide +kernel
  triangle := by decide +kernel
  strengthening := by decide +kernel

/-- Inclusion in a strongly closed matrix misses what the left one implies. -/
theorem not_isIncluded_corner : halfPlanes.nVars = corner.nVars ∧
    StronglyClosed corner.dim corner.exact ∧ ¬ IncludedCorrect halfPlanes corner := by
  refine ⟨rfl, corner_stronglyClosed, fun h => ?_⟩
  have hnot : isIncluded halfPlanes corner = false := by decide +kernel
  have hincluded : ∀ v, halfPlanes.Satisfies v → corner.Satisfies v := by
    intro v hv
    have hx := hv 1 (by decide) 0 (by decide)
    have hy := hv 3 (by decide) 2 (by decide)
    have hx0 : halfPlanes.exact 1 0 = 0 := by decide +kernel
    have hy0 : halfPlanes.exact 3 2 = 0 := by decide +kernel
    rw [hx0] at hx
    rw [hy0] at hy
    have hx : literal v 0 - literal v 1 ≤ ((0 : ℚ) : ℝ) := hx
    have hy : literal v 2 - literal v 3 ≤ ((0 : ℚ) : ℝ) := hy
    have hsum : ∀ i j, SameCell 3 0 i j → literal v j - literal v i ≤ ((0 : ℚ) : ℝ) := by
      intro i j hcell
      rw [hcell.sub_eq (literal_complement v)]
      norm_num [literal] at hx hy ⊢
      linarith
    intro i hi j hj
    have hget := halfPlanes.get_set (0 : Exact) i j (i := 3) (j := 0) (by decide) (by decide)
    rw [exact, corner, hget]
    split_ifs with hcell
    · exact hsum i j hcell
    · exact hv i hi j hj
  exact absurd (h.operations.2 hincluded) (hnot ▸ Bool.false_ne_true)

end Dbm

end TldrCode.Octagon
