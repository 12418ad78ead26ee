import TldrCode.Octagon.Integral

/-!
# Guards over the integers

`guard` of `dataflow/octagon/transfer.rs` on `i64` bounds. A guard lowers one cell to a constant,
which may be misread where it overflows or is an extreme, and it sees a contradiction only on the
diagonal (`guard_exact_iff`).
-/

namespace TldrCode.Octagon

open Dataflow (i64Min i64Max IsI64)

variable {n x : Nat} {v : Nat → Int} {g : OctGuard}

namespace OctGuard

def Holds (v : Nat → Int) : OctGuard → Prop
  | gtEq x c => v x ≥ c.val
  | ltEq x c => v x ≤ c.val
  | gt x c => v x > c.val
  | lt x c => v x < c.val
  | diffLtEq x y c => v x - v y ≤ c.val
  | sumLtEq x y c => v x + v y ≤ c.val

/-- The variables of the guard are among the first `n`. -/
def Within (n : Nat) : OctGuard → Prop
  | gtEq x _ | ltEq x _ | gt x _ | lt x _ => x < n
  | diffLtEq x y _ | sumLtEq x y _ => x < n ∧ y < n

def bound : OctGuard → Int
  | gtEq _ c => -2 * c.val
  | ltEq _ c => 2 * c.val
  | gt _ c => -2 * (c.val + 1)
  | lt _ c => 2 * (c.val - 1)
  | diffLtEq _ _ c => c.val
  | sumLtEq _ _ c => c.val

/-- The guard compares a variable with itself, and with a negative number. -/
def Contradiction : OctGuard → Prop
  | diffLtEq x y c => x = y ∧ c.val < 0
  | _ => False

def difference (g : OctGuard) (v : Nat → Int) : Int :=
  intLiteral v (Dbm.guardCell g).1.2 - intLiteral v (Dbm.guardCell g).1.1

theorem holds_iff (g : OctGuard) (v : Nat → Int) : g.Holds v ↔ g.difference v ≤ g.bound := by
  cases g <;> simp only [Holds, difference, bound, Dbm.guardCell, intLiteral_pos,
    intLiteral_neg] <;>
    omega

theorem within_cell (h : g.Within n) :
    (Dbm.guardCell g).1.1 < 2 * n ∧ (Dbm.guardCell g).1.2 < 2 * n := by
  cases g <;> simp only [Within] at h <;> simp only [Dbm.guardCell] <;> omega

theorem Contradiction.lt (h : g.Contradiction) (v : Nat → Int) :
    i64Min ≤ g.bound ∧ g.bound < g.difference v ∧ g.difference v = 0 := by
  cases g with
  | diffLtEq x y c =>
    obtain ⟨rfl, hneg⟩ := h
    have hzero : (diffLtEq x x c).difference v = 0 := sub_self (intLiteral v (2 * x))
    rw [hzero]
    exact ⟨c.isI64.1, hneg, rfl⟩
  | gtEq x c | ltEq x c | gt x c | lt x c | sumLtEq x y c => exact absurd h id

theorem Contradiction.not_holds (h : g.Contradiction) (v : Nat → Int) : ¬ g.Holds v := by
  rw [holds_iff, not_le]
  exact (h.lt v).2.1

theorem guardCell_bound (g : OctGuard) : (Dbm.guardCell g).2 = .wrap g.bound := by
  cases g with
  | diffLtEq x y c | sumLtEq x y c =>
    rw [I64.ext_iff, bound, I64.wrap_val c.isI64]
    rfl
  | gtEq x c | ltEq x c => rfl
  | gt x c | lt x c =>
    rw [I64.ext_iff]
    simp only [Dbm.guardCell, bound, I64.wrap]
    omega

theorem bound_range (g : OctGuard) :
    -2 ^ 64 - 2 ≤ g.bound ∧ g.bound ≤ 2 ^ 64 ∧ g.bound ≠ i64Min - 1 := by
  have key : ∀ c : I64, -2 ^ 63 ≤ c.val ∧ c.val ≤ 2 ^ 63 - 1 := fun c => c.isI64
  unfold i64Min
  cases g <;> rename_i c <;> have := key c <;> simp only [bound] <;> omega

end OctGuard

/-- The difference is on one side of the bound `e` and on the other side of what `e` is as an `i64`
bound: an extreme, which is infinite, or, where it overflows, a number `2^64` away. -/
def Misread (e z : Int) : Prop :=
  e = i64Max ∧ e < z ∨ (e = i64Min ∨ e = i64Max + 1) ∧ z ≤ e ∨
    e < i64Min ∧ e < z ∧ z ≤ e + 2 ^ 64 ∨ i64Max + 1 < e ∧ e - 2 ^ 64 < z ∧ z ≤ e

/-- **A doubled constant** as a bound. -/
theorem wrap_admits_iff {e z : Int} (h : -2 ^ 64 - 2 ≤ e ∧ e ≤ 2 ^ 64 ∧ e ≠ i64Min - 1) :
    ((I64.wrap e).AdmitsInt z ↔ z ≤ e) ↔ ¬ Misread e z := by
  rw [I64.AdmitsInt, I64.eq_max_iff, Ne, I64.eq_min_iff]
  unfold i64Min at h
  unfold Misread I64.wrap i64Max i64Min
  dsimp only
  omega

namespace Dbm

variable {d : Dbm I64} {i j : Nat}

theorem set_min_intSatisfies (b : I64) (hi : i < d.dim) (hj : j < d.dim) :
    (d.set i j (min (d.get i j) b)).IntSatisfies v ↔
      d.IntSatisfies v ∧ b.AdmitsInt (intLiteral v j - intLiteral v i) := by
  have hsame : ∀ k l, SameCell i j k l →
      d.get k l = d.get i j ∧ intLiteral v l - intLiteral v k =
        intLiteral v j - intLiteral v i := by
    intro k l hcell
    exact ⟨d.get_eq_of_sameCell hcell, hcell.sub_eq (intLiteral_complement v)⟩
  rw [IntSatisfies, IntSolution, set_dim]
  constructor
  · intro h
    refine ⟨fun k hk l hl => ?_, ?_⟩
    · have hadmits := h k hk l hl
      rw [d.get_set _ k l hi hj] at hadmits
      split_ifs at hadmits with hcell
      · rw [(hsame k l hcell).1]
        exact (I64.admitsInt_min.1 hadmits).1
      · exact hadmits
    · have hadmits := h i hi j hj
      rw [d.get_set _ i j hi hj, if_pos (.inl ⟨rfl, rfl⟩)] at hadmits
      exact (I64.admitsInt_min.1 hadmits).2
  · rintro ⟨h, hb⟩ k hk l hl
    rw [d.get_set _ k l hi hj]
    split_ifs with hcell
    · have hadmits := h k hk l hl
      obtain ⟨hget, hdiff⟩ := hsame k l hcell
      rw [hget] at hadmits
      rw [hdiff] at hadmits ⊢
      exact I64.admitsInt_min.2 ⟨hadmits, hb⟩
    · exact h k hk l hl

/-- What a guard is for: the solutions that satisfy it, and `Empty` if there is none. -/
structure GuardExact (d : Dbm I64) (g : OctGuard) : Prop where
  solutions : ∀ v, (guard d g).2.IntSatisfies v ↔ d.IntSatisfies v ∧ g.Holds v
  empty : (guard d g).1 = .empty ↔ ¬ ∃ v, d.IntSatisfies v ∧ g.Holds v

theorem guard_intSatisfies (hg : g.Within d.nVars) :
    (guard d g).2.IntSatisfies v ↔
      d.IntSatisfies v ∧ (I64.wrap g.bound).AdmitsInt (g.difference v) := by
  obtain ⟨hi, hj⟩ := OctGuard.within_cell hg
  rw [← OctGuard.guardCell_bound]
  exact set_min_intSatisfies _ hi hj

theorem set_min_diagonal (h : ∀ k < d.dim, d.get k k = 0) (b : I64) (hi : i < d.dim)
    (hj : j < d.dim) :
    (∃ k < d.dim, (d.set i j (min (d.get i j) b)).get k k < 0) ↔ i = j ∧ b < 0 := by
  constructor
  · rintro ⟨k, hk, hneg⟩
    rw [d.get_set _ k k hi hj] at hneg
    split_ifs at hneg with hcell
    · obtain ⟨rfl, rfl⟩ := hcell.eq_of_self
      rw [h k hk, min_lt_iff] at hneg
      exact ⟨rfl, hneg.resolve_left (lt_irrefl 0)⟩
    · rw [h k hk] at hneg
      exact absurd hneg (lt_irrefl 0)
  · rintro ⟨rfl, hneg⟩
    refine ⟨i, hi, ?_⟩
    rw [d.get_set _ i i hi hi, if_pos (.inl ⟨rfl, rfl⟩)]
    exact min_lt_iff.2 (.inr hneg)

theorem guard_empty_iff (h : ∀ k < d.dim, d.get k k = 0) (hg : g.Within d.nVars) :
    (guard d g).1 = .empty ↔ g.Contradiction := by
  obtain ⟨hi, hj⟩ := OctGuard.within_cell hg
  have hguard : (guard d g).1 = .empty ↔
      (guardCell g).1.1 = (guardCell g).1.2 ∧ (guardCell g).2 < 0 := by
    rw [← set_min_diagonal h _ hi hj, guard]
    simp [Bound.fromI64]
  rw [hguard]
  cases g with
  | diffLtEq x y c =>
    simp only [guardCell, OctGuard.Contradiction]
    refine and_congr ?_ Iff.rfl
    omega
  | gtEq x c | ltEq x c | gt x c | lt x c | sumLtEq x y c =>
    refine iff_of_false (fun hcell => ?_) id
    have hij := hcell.1
    simp only [guardCell] at hij
    omega

/-- **A guard** is exact if and only if it is a contradiction by itself, or has a solution and its
constant is misread for none. -/
theorem guard_exact_iff (d : Dbm I64) (g : OctGuard) (h : StronglyClosed d.dim d.exact)
    (hg : g.Within d.nVars) : GuardExact d g ↔ g.Contradiction ∨
      (∃ v, d.IntSatisfies v ∧ g.Holds v) ∧
        ∀ v, d.IntSatisfies v → ¬ Misread g.bound (g.difference v) := by
  have hdiag : ∀ k < d.dim, d.get k k = 0 := fun k hk => get_diagonal h hk
  have hread : ∀ v, ((I64.wrap g.bound).AdmitsInt (g.difference v) ↔ g.Holds v) ↔
      ¬ Misread g.bound (g.difference v) := fun v => by
    rw [g.holds_iff]
    exact wrap_admits_iff g.bound_range
  have hsolutions : (∀ v, (guard d g).2.IntSatisfies v ↔ d.IntSatisfies v ∧ g.Holds v) ↔
      ∀ v, d.IntSatisfies v → ¬ Misread g.bound (g.difference v) := by
    refine forall_congr' fun v => ?_
    rw [guard_intSatisfies hg, ← hread v]
    exact and_congr_right_iff
  by_cases hcontra : g.Contradiction
  · refine iff_of_true ⟨?_, ?_⟩ (.inl hcontra)
    · refine hsolutions.2 fun v _ hmisread => ?_
      obtain ⟨hmin, hlt, hzero⟩ := hcontra.lt v
      unfold Misread i64Min i64Max at hmisread
      unfold i64Min at hmin
      omega
    · rw [guard_empty_iff hdiag hg]
      exact iff_of_true hcontra fun ⟨v, _, hv⟩ => hcontra.not_holds v hv
  · rw [or_iff_right hcontra]
    constructor
    · intro hexact
      refine ⟨?_, hsolutions.1 hexact.solutions⟩
      by_contra hnone
      exact hcontra ((guard_empty_iff hdiag hg).1 (hexact.empty.2 hnone))
    · rintro ⟨hex, hright⟩
      refine ⟨hsolutions.2 hright, iff_of_false ?_ (not_not_intro hex)⟩
      rwa [guard_empty_iff hdiag hg]

/-- `2 x ≤ 0`. -/
def nonPositive : Dbm I64 := (new 1).set 1 0 0

theorem nonPositive_stronglyClosed : StronglyClosed nonPositive.dim nonPositive.exact := by
  rw [stronglyClosed_iff (by decide +kernel)]
  exact ⟨by decide +kernel, by decide +kernel, by decide +kernel⟩

/-- Without a lower bound. -/
theorem guard_exact_nonPositive : GuardExact nonPositive (.ltEq 0 0) ↔
    (OctGuard.ltEq 0 0).Contradiction ∨
      (∃ v, nonPositive.IntSatisfies v ∧ (OctGuard.ltEq 0 0).Holds v) ∧
        ∀ v, nonPositive.IntSatisfies v →
          ¬ Misread (OctGuard.ltEq 0 0).bound ((OctGuard.ltEq 0 0).difference v) :=
  guard_exact_iff nonPositive (.ltEq 0 0) nonPositive_stronglyClosed Nat.one_pos

/-- A guard misses that `x ≥ 1` fails for `x ≤ 0`. -/
theorem not_guard_exact_nonPositive : StronglyClosed nonPositive.dim nonPositive.exact ∧
    ¬ GuardExact nonPositive (.gtEq 0 ⟨1, by decide⟩) := by
  refine ⟨nonPositive_stronglyClosed, fun h => ?_⟩
  have hnone : ¬ ∃ v, nonPositive.IntSatisfies v ∧ (OctGuard.gtEq 0 ⟨1, by decide⟩).Holds v := by
    rintro ⟨v, hv, hone⟩
    have hupper := hv 1 (by decide) 0 (by decide)
    have hget : nonPositive.get 1 0 = 0 := by decide +kernel
    rw [hget] at hupper
    obtain ⟨-, hupper⟩ := hupper.resolve_left (by decide)
    have hpos : intLiteral v 0 = v 0 := intLiteral_pos v 0
    have hneg : intLiteral v 1 = -v 0 := intLiteral_neg v 0
    have hone : v 0 ≥ 1 := hone
    rw [I64.zero_val] at hupper
    omega
  have hclosed : (guard nonPositive (.gtEq 0 ⟨1, by decide⟩)).1 = .closed := by decide +kernel
  rw [h.empty.2 hnone] at hclosed
  exact ClosureResult.noConfusion hclosed

end Dbm

end TldrCode.Octagon
