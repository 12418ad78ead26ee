import TldrCode.Octagon.Operations

/-!
# Join and equality

A strongly closed matrix attains each of its entries: it is included where its entries are below,
and the greater of two entries is the best bound for both matrices.
-/

namespace TldrCode.Octagon.Dbm

section Algorithms

variable {B : Type*} [Bound B]

def join (a b : Dbm B) : Option (Dbm B) :=
  if a.nVars ≠ b.nVars then none
  else some (writeBack a.dim (.new a.nVars) fun i j => max (a.get i j) (b.get i j))

/-- `is_equal`, which panics if the dimensions differ. -/
def isEqual (a b : Dbm B) : Option Bool := do
  if ← queryIsIncluded a b then queryIsIncluded b a else pure false

end Algorithms

section Exact

variable {B : Type*} [ExactBound B] {a b c d : Dbm B}

/-- The matrix is strongly closed, and some valuation meets it. -/
structure Tight (a : Dbm B) : Prop where
  closed : StronglyClosed a.dim a.exact
  satisfiable : ∃ v, a.Satisfies v

/-- Each valuation of the first matrix is one of the second. -/
def Included (a b : Dbm B) : Prop := ∀ v, a.Satisfies v → b.Satisfies v

def Below (a b : Dbm B) : Prop := ∀ i < a.dim, ∀ j < a.dim, a.exact i j ≤ b.exact i j

theorem Below.included (h : Below a d) (hdim : d.dim = a.dim) : Included a d := by
  intro v hv i hi j hj
  rw [hdim] at hi hj
  exact (hv i hi j hj).mono (h i hi j hj) le_rfl

/-- **A tight matrix** is included where its entries are below. -/
theorem Tight.included_iff (ha : Tight a) (hdim : d.dim = a.dim) : Included a d ↔ Below a d := by
  refine ⟨fun h i hi j hj => ?_, fun h => h.included hdim⟩
  by_contra hnot
  obtain ⟨t, ht, hexceeds⟩ := exists_rat_above (not_le.1 hnot)
  obtain ⟨w, hw⟩ := ha.satisfiable
  obtain ⟨v, hv, htv⟩ :=
    exists_solution_above ha.closed (fun i hi j hj => hw.ne_bot hi hj) hi hj ht
  rw [← hdim] at hi hj
  exact hexceeds _ htv (h v hv i hi j hj)

/-! ## Join -/

theorem join_get (hdim : a.nVars = b.nVars) : ∃ c, join a b = some c ∧ c.dim = a.dim ∧
    ∀ i < a.dim, ∀ j < a.dim, c.exact i j = max (a.exact i j) (b.exact i j) := by
  have hm : Coherent a.dim fun i j => max (a.get i j) (b.get i j) := by
    intro i hi j hj hij
    simp only [a.get_complement hij, b.get_complement hij]
  have hmono : Monotone (ExactBound.toExact : B → Exact) :=
    fun _ _ h => ExactBound.toExact_le_iff.2 h
  obtain ⟨hcdim, hget⟩ := writeBack_get hm (rfl : (new a.nVars : Dbm B).dim = a.dim)
  refine ⟨_, if_neg (not_not.2 hdim), hcdim, fun i hi j hj => ?_⟩
  rw [exact, hget i hi j hj]
  exact hmono.map_max

/-- **The entrywise maximum of strongly closed matrices** is strongly closed. -/
theorem stronglyClosed_max (ha : StronglyClosed a.dim a.exact) (hb : StronglyClosed a.dim b.exact)
    (hget : ∀ i < a.dim, ∀ j < a.dim, c.exact i j = max (a.exact i j) (b.exact i j)) :
    StronglyClosed a.dim c.exact := by
  have hn := fun i (hi : i < a.dim) => complement_lt hi
  refine ⟨fun i hi j hj => ?_, fun i hi => ?_, fun i hi j hj k hk => ?_, fun i hi j hj => ?_⟩
  · rw [hget i hi j hj, hget _ (hn j hj) _ (hn i hi), ha.coherent i hi j hj,
      hb.coherent i hi j hj]
  · rw [hget i hi i hi, ha.diagonal i hi, hb.diagonal i hi, max_self]
  · rw [hget i hi j hj, hget i hi k hk, hget k hk j hj]
    apply max_le
    · exact (ha.triangle i hi j hj k hk).trans (add_le_add (le_max_left _ _) (le_max_left _ _))
    · exact (hb.triangle i hi j hj k hk).trans (add_le_add (le_max_right _ _) (le_max_right _ _))
  · rw [hget i hi j hj, hget i hi _ (hn i hi), hget _ (hn j hj) j hj]
    apply max_le
    · refine (ha.strengthening i hi j hj).trans (LawfulBound.half_mono ?_)
      exact add_le_add (le_max_left _ _) (le_max_left _ _)
    · refine (hb.strengthening i hi j hj).trans (LawfulBound.half_mono ?_)
      exact add_le_add (le_max_right _ _) (le_max_right _ _)

theorem queryIsIncluded_iff (hdim : a.dim = b.dim) : queryIsIncluded a b = some true ↔ Below a b := by
  rw [queryIsIncluded, if_pos hdim, Option.some_inj]
  simp [Below, exact, ExactBound.toExact_le_iff]

end Exact

theorem new_tight (n : Nat) : Tight (new n : Dbm Exact) :=
  ⟨new_stronglyClosed n, fun _ => 0, new_satisfies n _⟩

end TldrCode.Octagon.Dbm
