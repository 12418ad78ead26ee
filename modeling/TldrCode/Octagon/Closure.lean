import TldrCode.Graph.MinPlus
import TldrCode.Octagon.Dbm

/-!
# Closures of a matrix

`strong_closure` and `incremental_closure` of `dataflow/octagon/closure.rs`. Both copy the half
matrix into a full one, lower its entries in place and write it back. The lemmas say what each of
the loops does: `floydWarshall_spec`, `strengthen_apply`, `throughEdge_spec` and the two
write-backs.
-/

namespace TldrCode.Octagon

open TldrCode.Graph

/-! ## The algorithms -/

inductive ClosureResult where
  | closed
  | empty
  deriving DecidableEq, Repr

section Algorithms

variable {B : Type*} [Bound B]

/-- Row `i` of round `k`. -/
def floydWarshallRow (dim k : Nat) (m : Weights B) (i : Nat) : Weights B :=
  let mIk := m i k
  (List.range dim).foldl (fun m j => relax m i j (mIk + m k j)) m

/-- Phase 1 of `strong_closure`. -/
def floydWarshall (dim : Nat) (m : Weights B) : Weights B :=
  (List.range dim).foldl (fun m k => (List.range dim).foldl (floydWarshallRow dim k) m) m

/-- Row `i` of the strengthening pass. -/
def strengthenRow (dim : Nat) (m : Weights B) (i : Nat) : Weights B :=
  let mIIbar := m i (complement i)
  (List.range dim).foldl
    (fun m j => relax m i j (Bound.half (mIIbar + m (complement j) j))) m

def strengthen (dim : Nat) (m : Weights B) : Weights B :=
  (List.range dim).foldl (strengthenRow dim) m

/-- The consistency check: a negative entry on the diagonal. -/
def hasNegative (dim : Nat) (m : Weights B) : Bool := (List.range dim).any fun i => m i i < 0

def writeBack (dim : Nat) (dbm : Dbm B) (m : Weights B) : Dbm B :=
  (List.range dim).foldl (fun dbm i =>
    (List.range dim).foldl (fun dbm j => dbm.set i j (m i j)) dbm) dbm

def strongClosure (dbm : Dbm B) : ClosureResult × Dbm B :=
  let dim := dbm.dim
  let m := strengthen dim (floydWarshall dim dbm.get)
  (if hasNegative dim m then .empty else .closed, writeBack dim dbm m)

/-- The entry `(i, j)` set to `v`. -/
def setEntry (m : Weights B) (i j : Nat) (v : B) : Weights B :=
  fun a b => if a = i ∧ b = j then v else m a b

/-- The entry `(i, j)` lowered by the four ways through the edge `(a, b)` and its counterpart. -/
def throughEdge (a b : Nat) (c cBar bridgeAbBar bridgeBarAb : B) (m : Weights B) (i j : Nat) :
    Weights B :=
  let cur := m i j
  let viaAb := m i a + c + m b j
  let viaBar := m i (complement b) + cBar + m (complement a) j
  let viaAbBar := m i a + bridgeAbBar + m (complement a) j
  let viaBarAb := m i (complement b) + bridgeBarAb + m b j
  let best := min (min cur (min viaAb viaBar)) (min viaAbBar viaBarAb)
  if best ≠ cur then setEntry m i j best else m

/-- The lower triangle written back, both entries of a cell joined. -/
def writeBackLower (dim : Nat) (dbm : Dbm B) (m : Weights B) : Dbm B :=
  (List.range dim).foldl (fun dbm i =>
    (List.range (i + 1)).foldl (fun dbm j =>
      dbm.set i j (min (m i j) (m (complement j) (complement i)))) dbm) dbm

def writeBackUpper (dim : Nat) (dbm : Dbm B) (m : Weights B) : Dbm B :=
  (List.range (dim / 2)).foldl (fun dbm var =>
    let pos := 2 * var
    let neg := 2 * var + 1
    dbm.set pos neg (m pos neg)) dbm

def incrementalClosure (dbm : Dbm B) (a b : Nat) (value : B) : ClosureResult × Dbm B :=
  let dim := dbm.dim
  let m : Weights B := dbm.get
  let c := min (m a b) value
  let m := setEntry m a b c
  let cBar := min (m (complement b) (complement a)) c
  let m := setEntry m (complement b) (complement a) cBar
  let bridgeAbBar := c + m b (complement b) + cBar
  let bridgeBarAb := cBar + m (complement a) a + c
  let m := (List.range dim).foldl (fun m i => (List.range dim).foldl
    (fun m j => throughEdge a b c cBar bridgeAbBar bridgeBarAb m i j) m) m
  let m := strengthen dim m
  if hasNegative dim m then (.empty, dbm)
  else (.closed, writeBackUpper dim (writeBackLower dim dbm m) m)

end Algorithms

section Lawful

variable {B : Type*} [LawfulBound B] {m D M : Weights B} {n i j k : Nat}

theorem floydWarshallRow_spec (n k i : Nat) (M : Weights B) :
    (∀ a b, floydWarshallRow n k M i a b ≤ M a b) ∧
      ∀ j < n, floydWarshallRow n k M i i j ≤ M i k + M k j := by
  obtain ⟨hle, hP⟩ := foldl_relax (m := M) (fun m j => relax m i j (M i k + m k j))
    (fun j D => D i j ≤ M i k + M k j) (fun D j a b => relax_le D i j _ a b)
    (fun D j hD => (relax_self_le D i j _).trans (add_le_add le_rfl (hD k j)))
    (fun j D D' h hD => (h i j).trans hD) (List.range n) M fun _ _ => le_rfl
  exact ⟨hle, fun j hj => hP j (List.mem_range.2 hj)⟩

theorem floydWarshallRow_above (h : Above m n M) (hk : k < n) (hi : i < n) :
    Above m n (floydWarshallRow n k M i) := by
  refine List.foldlRecOn _ _ h fun D hD j hj => hD.relax ?_
  exact exists_walk_add hk (h i hi k hk) (hD k hk j (List.mem_range.1 hj))

theorem floydWarshallRound_spec (n k : Nat) (M : Weights B) :
    (∀ a b, (List.range n).foldl (floydWarshallRow n k) M a b ≤ M a b) ∧
      ∀ i < n, ∀ j < n, (List.range n).foldl (floydWarshallRow n k) M i j ≤ M i k + M k j := by
  obtain ⟨hle, hP⟩ := foldl_relax (m := M) (floydWarshallRow n k)
    (fun i D => ∀ j < n, D i j ≤ M i k + M k j)
    (fun D i => (floydWarshallRow_spec n k i D).1)
    (fun D i hD j hj => ((floydWarshallRow_spec n k i D).2 j hj).trans
      (add_le_add (hD i k) (hD k j)))
    (fun i D D' h hD j hj => (h i j).trans (hD j hj)) (List.range n) M fun _ _ => le_rfl
  exact ⟨hle, fun i hi => hP i (List.mem_range.2 hi)⟩

/-- **All rounds.** -/
theorem floydWarshall_spec (m : Weights B) (n : Nat) :
    Above m n (floydWarshall n m) ∧ Below m n n (floydWarshall n m) := by
  have key : ∀ k ≤ n, Above m n ((List.range k).foldl
      (fun m k => (List.range n).foldl (floydWarshallRow n k) m) m) ∧
      Below m n k ((List.range k).foldl
        (fun m k => (List.range n).foldl (floydWarshallRow n k) m) m) := by
    intro k
    induction k with
    | zero => exact fun _ => ⟨.self m n, .zero m n⟩
    | succ k ih =>
      intro hk
      obtain ⟨habove, hbelow⟩ := ih (Nat.le_of_succ_le hk)
      rw [List.range_succ, List.foldl_append, List.foldl_cons, List.foldl_nil]
      obtain ⟨hle, hround⟩ := floydWarshallRound_spec n k ((List.range k).foldl
        (fun m k => (List.range n).foldl (floydWarshallRow n k) m) m)
      refine ⟨?_, hbelow.succ hk (fun i _ j _ => hle i j) hround⟩
      exact List.foldlRecOn _ _ habove fun D hD i hi =>
        floydWarshallRow_above hD hk (List.mem_range.1 hi)
  exact key n le_rfl

/-! ## Strengthening -/

def strengthened (m : Weights B) : Weights B :=
  fun i j => min (m i j) (Bound.half (m i (complement i) + m (complement j) j))

theorem half_double (b : B) : Bound.half (b + b) = b := by
  rw [LawfulBound.half_add, LawfulBound.half_add_half]

theorem strengthened_complement (m : Weights B) (j : Nat) :
    strengthened m (complement j) j = m (complement j) j := by
  rw [strengthened, complement_complement, half_double, min_self]

/-- **The strengthening pass** in place. -/
theorem strengthen_apply (D : Weights B) (n : Nat) :
    ∀ i < n, ∀ j < n, strengthen n D i j = strengthened D i j := by
  -- the state when row `i` has come to column `j`
  have hrow : ∀ i, ∀ M : Weights B,
      (∀ a b, M a b = if a < i ∧ b < n then strengthened D a b else D a b) →
      ∀ j ≤ n, ∀ a b, (List.range j).foldl (fun m j => relax m i j
        (Bound.half (M i (complement i) + m (complement j) j))) M a b =
          if (a < i ∧ b < n) ∨ (a = i ∧ b < j) then strengthened D a b else D a b := by
    intro i M hM j
    induction j with
    | zero => exact fun _ a b => by simp [hM]
    | succ j ih =>
      intro hj a b
      rw [List.range_succ, List.foldl_append, List.foldl_cons, List.foldl_nil]
      have ih := ih (Nat.le_of_succ_le hj)
      generalize (List.range j).foldl _ M = M' at ih ⊢
      have hunary : M' (complement j) j = D (complement j) j := by
        rw [ih]
        split_ifs
        · exact strengthened_complement D j
        · rfl
      have hi : M i (complement i) = D i (complement i) := by
        rw [hM, if_neg (fun h => absurd h.1 (Nat.lt_irrefl i))]
      have hij : M' i j = D i j := by
        rw [ih, if_neg (by omega)]
      rw [relax_apply, hunary, hi, hij, ih]
      by_cases hab : a = i ∧ b = j
      · rw [if_pos hab, if_pos (by omega), hab.1, hab.2]
        rfl
      · rw [if_neg hab]
        refine if_congr ?_ rfl rfl
        omega
  have key : ∀ i ≤ n, ∀ a b, (List.range i).foldl (strengthenRow n) D a b =
      if a < i ∧ b < n then strengthened D a b else D a b := by
    intro i
    induction i with
    | zero => exact fun _ a b => by simp
    | succ i ih =>
      intro hi a b
      rw [List.range_succ, List.foldl_append, List.foldl_cons, List.foldl_nil, strengthenRow]
      rw [hrow i _ (ih (Nat.le_of_succ_le hi)) n le_rfl]
      refine if_congr ?_ rfl rfl
      omega
  intro i hi j hj
  rw [strengthen, key n le_rfl, if_pos ⟨hi, hj⟩]

end Lawful

variable {B : Type*} [Bound B] {m : Weights B} {n : Nat} {dbm : Dbm B}

theorem hasNegative_iff : hasNegative n m ↔ ∃ i < n, m i i < 0 := by
  simp [hasNegative]

/-- Off the diagonal both entries of a cell are equal. -/
def Coherent (n : Nat) (m : Weights B) : Prop :=
  ∀ i < n, ∀ j < n, i ≠ j → m (complement j) (complement i) = m i j

theorem get_foldl_set {ι : Type*} (f : ι → Nat × Nat) (v : ι → B) (hm : Coherent n m) (l : List ι)
    (hf : ∀ x ∈ l, (f x).1 < n ∧ (f x).2 < n ∧ v x = m (f x).1 (f x).2) :
    ∀ dbm : Dbm B, dbm.dim = n →
      (l.foldl (fun dbm x => dbm.set (f x).1 (f x).2 (v x)) dbm).dim = n ∧
      ∀ i < n, ∀ j < n, (dbm.get i j = m i j ∨ ∃ x ∈ l, SameCell (f x).1 (f x).2 i j) →
        (l.foldl (fun dbm x => dbm.set (f x).1 (f x).2 (v x)) dbm).get i j = m i j := by
  induction l with
  | nil =>
    intro dbm hdim
    exact ⟨hdim, fun i _ j _ h => by simpa using h⟩
  | cons x l ih =>
    intro dbm hdim
    obtain ⟨hx₁, hx₂, hv⟩ := hf x List.mem_cons_self
    obtain ⟨hd, hget⟩ := ih (fun y hy => hf y (List.mem_cons_of_mem _ hy))
      (dbm.set (f x).1 (f x).2 (v x)) (by rw [Dbm.set_dim, hdim])
    refine ⟨hd, fun i hi j hj h => hget i hi j hj ?_⟩
    have hset := dbm.get_set (v x) i j (hdim ▸ hx₁) (hdim ▸ hx₂)
    by_cases hcell : SameCell (f x).1 (f x).2 i j
    · left
      rw [hset, if_pos hcell, hv]
      rcases hcell with ⟨rfl, rfl⟩ | ⟨hne, rfl, rfl⟩
      · rfl
      · exact (hm _ hx₁ _ hx₂ hne).symm
    · rcases h with h | ⟨y, hy, hcell'⟩
      · left
        rw [hset, if_neg hcell, h]
      · rcases List.mem_cons.1 hy with rfl | hy
        · exact absurd hcell' hcell
        · exact .inr ⟨y, hy, hcell'⟩

theorem get_foldl_set_cases (m : Weights B) (l : List (Nat × Nat)) :
    ∀ dbm : Dbm B, dbm.dim = n → (∀ x ∈ l, x.1 < n ∧ x.2 < n) →
      (l.foldl (fun dbm x => dbm.set x.1 x.2 (m x.1 x.2)) dbm).dim = n ∧ ∀ i j,
        (dbm.get i j = m i j ∨ i ≠ j ∧ dbm.get i j = m (complement j) (complement i) ∨
          (i, j) ∈ l) →
        (l.foldl (fun dbm x => dbm.set x.1 x.2 (m x.1 x.2)) dbm).get i j = m i j ∨
          i ≠ j ∧ (l.foldl (fun dbm x => dbm.set x.1 x.2 (m x.1 x.2)) dbm).get i j =
            m (complement j) (complement i) := by
  induction l with
  | nil => exact fun dbm hdim _ => ⟨hdim, fun i j h => by simpa using h⟩
  | cons x l ih =>
    intro dbm hdim hl
    obtain ⟨hx₁, hx₂⟩ := hl x List.mem_cons_self
    obtain ⟨hd, hget⟩ := ih (dbm.set x.1 x.2 (m x.1 x.2)) (by rw [Dbm.set_dim, hdim])
      fun y hy => hl y (List.mem_cons_of_mem _ hy)
    refine ⟨hd, fun i j h => hget i j ?_⟩
    rw [dbm.get_set _ i j (hdim ▸ hx₁) (hdim ▸ hx₂)]
    split_ifs with hcell
    · rcases hcell with ⟨rfl, rfl⟩ | ⟨hne, rfl, rfl⟩
      · exact .inl rfl
      · refine .inr (.inl ⟨complement_injective.ne hne.symm, ?_⟩)
        rw [complement_complement, complement_complement]
    · refine h.imp_right (Or.imp_right fun hmem => ?_)
      rcases List.mem_cons.1 hmem with rfl | hmem
      · exact absurd (.inl ⟨rfl, rfl⟩) hcell
      · exact hmem

theorem writeBack_cases (m : Weights B) (hdim : dbm.dim = n) :
    (writeBack n dbm m).dim = n ∧ ∀ i < n, ∀ j < n, (writeBack n dbm m).get i j = m i j ∨
      i ≠ j ∧ (writeBack n dbm m).get i j = m (complement j) (complement i) := by
  have hflat : writeBack n dbm m = ((List.range n).flatMap fun i =>
      (List.range n).map fun j => (i, j)).foldl (fun dbm x => dbm.set x.1 x.2 (m x.1 x.2)) dbm := by
    rw [List.foldl_flatMap, writeBack]
    simp only [List.foldl_map]
  have hmem : ∀ i j, (i, j) ∈ ((List.range n).flatMap fun i => (List.range n).map fun j => (i, j)) ↔
      i < n ∧ j < n := by
    simp
  obtain ⟨hd, hget⟩ := get_foldl_set_cases m _ dbm hdim fun x hx => (hmem x.1 x.2).1 hx
  rw [hflat]
  exact ⟨hd, fun i hi j hj => hget i j (.inr (.inr ((hmem i j).2 ⟨hi, hj⟩)))⟩

/-- **Writing a coherent matrix back** in full. -/
theorem writeBack_get (hm : Coherent n m) (hdim : dbm.dim = n) :
    (writeBack n dbm m).dim = n ∧ ∀ i < n, ∀ j < n, (writeBack n dbm m).get i j = m i j := by
  obtain ⟨hd, hget⟩ := writeBack_cases m hdim
  refine ⟨hd, fun i hi j hj => ?_⟩
  rcases hget i hi j hj with heq | ⟨hne, heq⟩
  · exact heq
  · rw [heq, hm i hi j hj hne]

/-- **Writing a coherent matrix back** by the lower triangle and the upper diagonal. -/
theorem writeBackUpper_get (hm : Coherent n m)
    (hdiag : ∀ i < n, m (complement i) (complement i) = m i i) (hdim : dbm.dim = n) :
    (writeBackUpper n (writeBackLower n dbm m) m).dim = n ∧
      ∀ i < n, ∀ j < n, (writeBackUpper n (writeBackLower n dbm m) m).get i j = m i j := by
  have hn : ∀ i < n, complement i < n := by
    intro i hi
    rw [← hdim] at hi ⊢
    exact complement_lt hi
  have hcoh : ∀ i < n, ∀ j < n, m (complement j) (complement i) = m i j := by
    intro i hi j hj
    by_cases hij : i = j
    · exact hij ▸ hdiag i hi
    · exact hm i hi j hj hij
  have hlower : writeBackLower n dbm m = ((List.range n).flatMap fun i =>
      (List.range (i + 1)).map fun j => (i, j)).foldl (fun dbm x =>
        dbm.set x.1 x.2 (min (m x.1 x.2) (m (complement x.2) (complement x.1)))) dbm := by
    rw [List.foldl_flatMap, writeBackLower]
    simp only [List.foldl_map]
  obtain ⟨hd, hget⟩ := get_foldl_set (fun x => x)
    (fun x : Nat × Nat => min (m x.1 x.2) (m (complement x.2) (complement x.1))) hm
    ((List.range n).flatMap fun i => (List.range (i + 1)).map fun j => (i, j)) (fun x hx => by
      simp only [List.mem_flatMap, List.mem_range, List.mem_map] at hx
      obtain ⟨i, hi, j, hj, rfl⟩ := hx
      have hjn : j < n := by omega
      exact ⟨hi, hjn, by rw [hcoh i hi j hjn, min_self]⟩) dbm hdim
  rw [← hlower] at hd hget
  obtain ⟨hd', hget'⟩ := get_foldl_set (fun var : Nat => (2 * var, 2 * var + 1))
    (fun var => m (2 * var) (2 * var + 1)) hm (List.range (n / 2)) (fun var hvar => by
      have := List.mem_range.1 hvar
      exact ⟨by dsimp only; omega, by dsimp only; omega, rfl⟩) _ hd
  refine ⟨hd', fun i hi j hj => ?_⟩
  refine hget' i hi j hj ?_
  by_cases hu : isUpperDiag i j
  · right
    rw [isUpperDiag_iff] at hu
    have h₁ := complement_div i
    refine ⟨i / 2, List.mem_range.2 (by omega), .inl ⟨?_, ?_⟩⟩ <;> dsimp only <;> omega
  · left
    refine hget i hi j hj (.inr ?_)
    obtain ⟨a, b, hab, -, hcase⟩ := indexOf_spec hu
    have hmem : a < n → (a, b) ∈ (List.range n).flatMap fun i =>
        (List.range (i + 1)).map fun j => (i, j) := by
      intro ha
      simp only [List.mem_flatMap, List.mem_range, List.mem_map]
      exact ⟨a, ha, b, Nat.lt_succ_of_le hab, rfl⟩
    rcases hcase with ⟨rfl, rfl, -⟩ | ⟨rfl, rfl, hlt⟩
    · exact ⟨_, hmem hi, .inl ⟨rfl, rfl⟩⟩
    · refine ⟨_, hmem (hn j hj), .inr ⟨?_, by simp, by simp⟩⟩
      intro heq
      have := congrArg complement heq
      rw [complement_complement, complement_complement] at this
      omega

end TldrCode.Octagon
