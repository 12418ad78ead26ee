import TldrCode.Octagon.Integral

/-!
# Strong closure with saturating bounds

`strong_closure` of `dataflow/octagon/closure.rs` on `i64` bounds. Sums that saturate never exclude
a solution, but half of the infinite bound is a finite one, so the closure keeps the integer
solutions exactly if none of them exceeds that bound (`strongClosure_keeps_iff`).
-/

namespace TldrCode.Octagon

open Graph (Weights relax relax_apply relax_le relax_self_le foldl_relax)
open Dataflow (i64Min i64Max IsI64 saturate)

variable {n i j k : Nat} {v : Nat → Int} {m M : Weights I64}

/-! ## Bounds of a solution -/

namespace I64

variable {a b : I64} {x y z : Int}

theorem AdmitsInt.add (ha : a.AdmitsInt x) (hb : b.AdmitsInt y) (h : i64Min < x + y) :
    (a + b).AdmitsInt (x + y) := by
  show (I64.add a b).AdmitsInt (x + y)
  rw [I64.add]
  split_ifs with hmax hmin
  · exact .inl rfl
  · push Not at hmax
    exact hmin.elim (fun heq => absurd heq (ha.resolve_left hmax.1).1) fun heq =>
      absurd heq (hb.resolve_left hmax.2).1
  · push Not at hmax
    obtain ⟨-, hx⟩ := ha.resolve_left hmax.1
    obtain ⟨-, hy⟩ := hb.resolve_left hmax.2
    rw [AdmitsInt, eq_max_iff, Ne, eq_min_iff]
    unfold saturating saturate i64Min i64Max at *
    dsimp only
    omega

def halfMax : Int := 2 ^ 62 - 1

/-- **Half of a bound is finite.** -/
theorem half_le (a : I64) : (half a).val ≤ halfMax := by
  by_cases h : a = I64.min
  · rw [h]
    decide
  · have hmax := a.val_le_max
    rw [half_val h]
    unfold i64Max at hmax
    unfold halfMax
    omega

theorem AdmitsInt.half (h : a.AdmitsInt (x + x)) (hx : x ≤ halfMax) : (half a).AdmitsInt x := by
  by_cases hmax : a = max
  · rw [hmax]
    right
    exact ⟨by decide, hx⟩
  · obtain ⟨hmin, hle⟩ := h.resolve_left hmax
    right
    have hlow := a.min_le_val
    rw [Ne, eq_min_iff, half_val hmin]
    unfold i64Min at *
    omega

end I64

/-- The differences of the valuation are at most half of the infinite bound. -/
def Moderate (n : Nat) (v : Nat → Int) : Prop :=
  ∀ i < n, ∀ j < n, intLiteral v j - intLiteral v i ≤ I64.halfMax

/-! ## The loops -/

theorem IntSolution.relax (h : IntSolution n m v) {b : I64}
    (hb : b.AdmitsInt (intLiteral v j - intLiteral v i)) (hi : i < n) (hj : j < n) :
    IntSolution n (relax m i j b) v := by
  intro a ha c hc
  rw [relax_apply]
  split_ifs with hac
  · rw [hac.1, hac.2]
    exact I64.admitsInt_min.2 ⟨h i hi j hj, hb⟩
  · exact h a ha c hc

/-- **Floyd–Warshall** with saturating sums keeps a solution. -/
theorem IntSolution.floydWarshall (h : IntSolution n m v) (hv : Moderate n v) :
    IntSolution n (floydWarshall n m) v := by
  refine List.foldlRecOn (motive := fun D => IntSolution n D v) _ _ h fun D hD k hk => ?_
  have hk := List.mem_range.1 hk
  refine List.foldlRecOn (motive := fun D => IntSolution n D v) _ _ hD fun D hD i hi => ?_
  have hi := List.mem_range.1 hi
  refine List.foldlRecOn (motive := fun D => IntSolution n D v) _ _ hD fun D' hD' j hj => ?_
  have hj := List.mem_range.1 hj
  refine hD'.relax ?_ hi hj
  have hadmits := (hD i hi k hk).add (hD' k hk j hj) (by
    have := hv j hj i hi
    unfold I64.halfMax at this
    unfold i64Min
    omega)
  rwa [sub_add_sub_cancel'] at hadmits

/-- **Strengthening** keeps it as well. -/
theorem IntSolution.strengthen (h : IntSolution n m v) (hv : Moderate n v)
    (hn : ∀ i < n, complement i < n) : IntSolution n (strengthen n m) v := by
  refine List.foldlRecOn (motive := fun D => IntSolution n D v) _ _ h fun D hD i hi => ?_
  have hi := List.mem_range.1 hi
  refine List.foldlRecOn (motive := fun D => IntSolution n D v) _ _ hD fun D' hD' j hj => ?_
  have hj := List.mem_range.1 hj
  refine hD'.relax (I64.AdmitsInt.half ?_ (hv i hi j hj)) hi hj
  have hle := hv j hj i hi
  have hadmits := (hD i hi _ (hn i hi)).add (hD' _ (hn j hj) j hj) (by
    rw [intLiteral_complement, intLiteral_complement]
    unfold I64.halfMax at hle
    unfold i64Min
    omega)
  rw [intLiteral_complement, intLiteral_complement] at hadmits
  convert hadmits using 1
  ring

theorem floydWarshall_le (n : Nat) (m : Weights I64) (a b : Nat) :
    floydWarshall n m a b ≤ m a b := by
  refine List.foldlRecOn (motive := fun D : Weights I64 => D a b ≤ m a b) _ _ le_rfl
    fun D hD k _ => ?_
  refine List.foldlRecOn (motive := fun D : Weights I64 => D a b ≤ m a b) _ _ hD fun D hD i _ => ?_
  refine List.foldlRecOn (motive := fun D : Weights I64 => D a b ≤ m a b) _ _ hD
    fun D' hD' j _ => ?_
  exact (relax_le D' i j _ a b).trans hD'

/-- **Strengthening makes every bound finite.** -/
theorem strengthen_spec (n : Nat) (m : Weights I64) : (∀ a b, strengthen n m a b ≤ m a b) ∧
    ∀ i < n, ∀ j < n, (strengthen n m i j).val ≤ I64.halfMax := by
  have hrow : ∀ i, ∀ D : Weights I64, (∀ a b, strengthenRow n D i a b ≤ D a b) ∧
      ∀ j ∈ List.range n, (strengthenRow n D i i j).val ≤ I64.halfMax := by
    intro i D
    exact foldl_relax (m := D) _ (fun j D => (D i j).val ≤ I64.halfMax)
      (fun D' j a b => relax_le D' i j _ a b)
      (fun D' j _ => (I64.le_iff.1 (relax_self_le D' i j _)).trans (I64.half_le _))
      (fun j D' D'' hle h => (I64.le_iff.1 (hle i j)).trans h) (List.range n) D fun _ _ => le_rfl
  obtain ⟨hle, hall⟩ := foldl_relax (m := m) (strengthenRow n)
    (fun i D => ∀ j ∈ List.range n, (D i j).val ≤ I64.halfMax) (fun D i => (hrow i D).1)
    (fun D i _ => (hrow i D).2)
    (fun i D D' hle h j hj => (I64.le_iff.1 (hle i j)).trans (h j hj)) (List.range n) m
    fun _ _ => le_rfl
  exact ⟨hle, fun i hi j hj => hall i (List.mem_range.2 hi) j (List.mem_range.2 hj)⟩

namespace Dbm

variable {d : Dbm I64}

/-- What strong closure leaves of the solutions: all of them, so no contradiction if there is one,
and no bound for a difference without bound. -/
structure ClosureKeeps (d : Dbm I64) : Prop where
  solutions : ∀ v, d.IntSatisfies v ↔ (strongClosure d).2.IntSatisfies v
  empty : (strongClosure d).1 = .empty → ¬ ∃ v, d.IntSatisfies v
  infinite : ∀ i < d.dim, ∀ j < d.dim,
    (∀ c, ∃ v, d.IntSatisfies v ∧ c < intLiteral v j - intLiteral v i) →
      (strongClosure d).2.get i j = ⊤

theorem strongClosure_cases (d : Dbm I64) : (strongClosure d).2.dim = d.dim ∧
    ∀ i < d.dim, ∀ j < d.dim,
      (strongClosure d).2.get i j = strengthen d.dim (floydWarshall d.dim d.get) i j ∨
        i ≠ j ∧ (strongClosure d).2.get i j =
          strengthen d.dim (floydWarshall d.dim d.get) (complement j) (complement i) :=
  writeBack_cases _ rfl

theorem strongClosure_le (hi : i < d.dim) (hj : j < d.dim) :
    (strongClosure d).2.get i j ≤ d.get i j ∧ ((strongClosure d).2.get i j).val ≤ I64.halfMax := by
  have hn := d.complement_lt_dim
  obtain ⟨hle, hfinite⟩ := strengthen_spec d.dim (floydWarshall d.dim d.get)
  rcases (strongClosure_cases d).2 i hi j hj with heq | ⟨hne, heq⟩
  · rw [heq]
    exact ⟨(hle i j).trans (floydWarshall_le _ _ _ _), hfinite i hi j hj⟩
  · rw [heq, ← d.get_complement hne]
    exact ⟨(hle _ _).trans (floydWarshall_le _ _ _ _), hfinite _ (hn j hj) _ (hn i hi)⟩

theorem hasNegative_of_empty (h : (strongClosure d).1 = .empty) :
    hasNegative d.dim (strengthen d.dim (floydWarshall d.dim d.get)) := by
  rw [strongClosure] at h
  dsimp only at h
  split_ifs at h with hneg
  exact hneg

theorem IntSatisfies.strongClosure (h : d.IntSatisfies v) (hv : Moderate d.dim v) :
    IntSolution d.dim (strengthen d.dim (floydWarshall d.dim d.get)) v ∧
      (strongClosure d).2.IntSatisfies v := by
  have hn := d.complement_lt_dim
  have hsolution := (h.floydWarshall hv).strengthen hv hn
  obtain ⟨hdim, hget⟩ := strongClosure_cases d
  refine ⟨hsolution, ?_⟩
  rw [IntSatisfies, hdim]
  intro i hi j hj
  rcases hget i hi j hj with heq | ⟨-, heq⟩
  · rw [heq]
    exact hsolution i hi j hj
  · rw [heq]
    have hadmits := hsolution _ (hn j hj) _ (hn i hi)
    rw [intLiteral_complement, intLiteral_complement] at hadmits
    rwa [neg_sub_neg] at hadmits

/-- **Strong closure** on `i64` is correct exactly if no solution exceeds half of the infinite
bound. -/
theorem strongClosure_keeps_iff (d : Dbm I64) :
    ClosureKeeps d ↔ ∀ v, d.IntSatisfies v → Moderate d.dim v := by
  obtain ⟨hdim, -⟩ := strongClosure_cases d
  constructor
  · intro h v hv i hi j hj
    have hadmits := (h.solutions v).1 hv i (hdim ▸ hi) j (hdim ▸ hj)
    have hle := (strongClosure_le hi hj).2
    rcases hadmits with hmax | ⟨-, hbound⟩
    · rw [hmax] at hle
      exact absurd hle (by decide)
    · exact hbound.trans hle
  · intro h
    refine ⟨fun v => ⟨fun hv => (hv.strongClosure (h v hv)).2, fun hv i hi j hj => ?_⟩, ?_, ?_⟩
    · exact (hv i (hdim ▸ hi) j (hdim ▸ hj)).mono (strongClosure_le hi hj).1 le_rfl
    · rintro hempty ⟨v, hv⟩
      have hnonneg := hasNegative_iff.1 (hasNegative_of_empty hempty)
      obtain ⟨i, hi, hneg⟩ := hnonneg
      have hadmits := (hv.strongClosure (h v hv)).1 i hi i hi
      rw [sub_self] at hadmits
      exact not_le.2 hneg (I64.admitsInt_zero.1 hadmits)
    · intro i hi j hj hunbounded
      obtain ⟨v, hv, hlt⟩ := hunbounded I64.halfMax
      exact absurd (h v hv i hi j hj) (not_le.2 hlt)

theorem new_intSatisfies (n : Nat) (v : Nat → Int) : (new n : Dbm I64).IntSatisfies v :=
  (intSatisfies_iff _ v).2 (new_satisfies n _)

/-- Without constraints, closing makes up a bound. -/
theorem not_strongClosure_keeps_new : ¬ ClosureKeeps (new 1) := by
  intro h
  have hv := (h.solutions fun _ => 2 ^ 62).1 (new_intSatisfies 1 _)
  have hadmits := hv 1 (by decide) 0 (by decide)
  have hget : (strongClosure (new 1 : Dbm I64)).2.get 1 0 = ⟨2 ^ 62 - 1, by decide⟩ := by
    decide +kernel
  rw [hget] at hadmits
  exact absurd hadmits (by decide)

end Dbm

end TldrCode.Octagon
