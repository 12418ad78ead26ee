import TldrCode.Octagon.Elimination

/-!
# Transfer functions

`dataflow/octagon/transfer.rs`. Forgetting a variable of a strongly closed matrix projects its
solutions (`forget_projection`).
-/

namespace TldrCode.Octagon

open Function (update)

inductive OctExpr where
  | constant (c : I64)
  | variable (y : Nat)
  | varPlusConst (y : Nat) (c : I64)
  | varMinusConst (y : Nat) (c : I64)
  | negVariable (y : Nat)
  | unknown
  deriving DecidableEq

inductive OctGuard where
  | gtEq (x : Nat) (c : I64)
  | ltEq (x : Nat) (c : I64)
  | gt (x : Nat) (c : I64)
  | lt (x : Nat) (c : I64)
  | diffLtEq (x y : Nat) (c : I64)
  | sumLtEq (x y : Nat) (c : I64)
  deriving DecidableEq

namespace Dbm

section Algorithms

variable {B : Type*} [Bound B]

def forget (dbm : Dbm B) (varIdx : Nat) : Dbm B :=
  let pos := 2 * varIdx
  let neg := 2 * varIdx + 1
  (List.range dbm.dim).foldl (fun dbm k =>
    let dbm := if k ≠ pos then (dbm.set pos k ⊤).set k pos ⊤ else dbm
    if k ≠ neg then (dbm.set neg k ⊤).set k neg ⊤ else dbm) dbm

/-- The relation `x - y = c` in all four forms, for `x := y + c`; the bounds are those of `c` and
`-c`. -/
def setDifference (dbm : Dbm B) (pos neg yPos yNeg : Nat) (c negC : B) : Dbm B :=
  (((dbm.set yPos pos c).set pos yPos negC).set yNeg neg negC).set neg yNeg c

/-- The bounds of `y`, moved, are those of `x`. -/
def setUnary (dbm : Dbm B) (pos neg yPos yNeg : Nat) (upper lower : B) : Dbm B :=
  let yUpper := dbm.get yNeg yPos
  let dbm := if yUpper ≠ ⊤ then dbm.set neg pos (yUpper + upper) else dbm
  let yLower := dbm.get yPos yNeg
  if yLower ≠ ⊤ then dbm.set pos neg (yLower + lower) else dbm

/-- `assign`, which always returns `Closed`. -/
def assign (dbm : Dbm B) (varIdx : Nat) (expr : OctExpr) : ClosureResult × Dbm B :=
  let pos := 2 * varIdx
  let neg := pos + 1
  let dbm := dbm.forget varIdx
  (.closed, match expr with
  | .constant c =>
    let twoC : B := Bound.fromI64 (.wrap (2 * c.val))
    (dbm.set neg pos twoC).set pos neg (Bound.neg twoC)
  | .variable y =>
    let yPos := 2 * y
    let yNeg := yPos + 1
    let dbm := dbm.set neg pos (dbm.get yNeg yPos)
    let dbm := dbm.set pos neg (dbm.get yPos yNeg)
    (((dbm.set yPos pos 0).set pos yPos 0).set yNeg neg 0).set neg yNeg 0
  | .varPlusConst y c =>
    let yPos := 2 * y
    let yNeg := yPos + 1
    let twoC : B := Bound.fromI64 (.wrap (2 * c.val))
    let bc : B := Bound.fromI64 c
    (dbm.setUnary pos neg yPos yNeg twoC (Bound.neg twoC)).setDifference pos neg yPos yNeg bc
      (Bound.neg bc)
  | .varMinusConst y c =>
    let yPos := 2 * y
    let yNeg := yPos + 1
    let twoC : B := Bound.fromI64 (.wrap (2 * c.val))
    let bc : B := Bound.fromI64 c
    (dbm.setUnary pos neg yPos yNeg (Bound.neg twoC) twoC).setDifference pos neg yPos yNeg
      (Bound.neg bc) bc
  | .negVariable y =>
    let yPos := 2 * y
    let yNeg := yPos + 1
    let dbm := dbm.set neg pos (dbm.get yPos yNeg)
    let dbm := dbm.set pos neg (dbm.get yNeg yPos)
    (((dbm.set yNeg pos 0).set pos yNeg 0).set yPos neg 0).set neg yPos 0
  | .unknown => dbm)

/-- The cell that a guard lowers, and its bound. -/
def guardCell : OctGuard → (Nat × Nat) × I64
  | .gtEq x c => ((2 * x, 2 * x + 1), .wrap (-2 * c.val))
  | .ltEq x c => ((2 * x + 1, 2 * x), .wrap (2 * c.val))
  | .gt x c => ((2 * x, 2 * x + 1), .wrap (-2 * (I64.wrap (c.val + 1)).val))
  | .lt x c => ((2 * x + 1, 2 * x), .wrap (2 * (I64.wrap (c.val - 1)).val))
  | .diffLtEq x y c => ((2 * y, 2 * x), c)
  | .sumLtEq x y c => ((2 * y + 1, 2 * x), c)

def guard (dbm : Dbm B) (cond : OctGuard) : ClosureResult × Dbm B :=
  let ((i, j), bound) := guardCell cond
  let dbm := dbm.set i j (min (dbm.get i j) (Bound.fromI64 bound))
  (if (List.range dbm.dim).any fun i => dbm.get i i < 0 then .empty else .closed, dbm)

end Algorithms

/-! ## Satisfying valuations -/

section Exact

variable {B : Type*} [ExactBound B] {dbm : Dbm B} {i j x : Nat} {v : Nat → ℝ}

/-- The exact bounds that the entries stand for. -/
def exact (dbm : Dbm B) : Graph.Weights Exact := fun i j => ExactBound.toExact (dbm.get i j)

theorem exact_coherent (dbm : Dbm B) : Coherent dbm.dim dbm.exact :=
  fun _ _ _ _ hij => congrArg ExactBound.toExact (dbm.get_complement hij)

def Satisfies (dbm : Dbm B) (v : Nat → ℝ) : Prop := Solution dbm.dim dbm.exact v

theorem Satisfies.ne_bot (h : dbm.Satisfies v) (hi : i < dbm.dim) (hj : j < dbm.dim) :
    dbm.exact i j ≠ ((⊥ : WithBot ℚ) : Exact) := by
  intro heq
  have hadmits := h i hi j hj
  rw [heq] at hadmits
  exact not_admits_bot _ hadmits

/-! ## Forgetting -/

/-- The cells that `forget` clears in one round. -/
def forgetCells (x k : Nat) : List (Nat × Nat) :=
  (if k ≠ 2 * x then [(2 * x, k), (k, 2 * x)] else []) ++
    if k ≠ 2 * x + 1 then [(2 * x + 1, k), (k, 2 * x + 1)] else []

omit [ExactBound B] in
theorem forget_eq [Bound B] (dbm : Dbm B) (x : Nat) : dbm.forget x =
    ((List.range dbm.dim).flatMap (forgetCells x)).foldl (fun dbm cell => dbm.set cell.1 cell.2 ⊤)
      dbm := by
  rw [List.foldl_flatMap, forget]
  dsimp only
  congr 1
  funext dbm k
  rw [forgetCells, List.foldl_append]
  split_ifs <;> rfl

omit [ExactBound B] in
theorem mem_forgetCells {cell : Nat × Nat} : (∃ k < dbm.dim, cell ∈ forgetCells x k) ↔
    (cell.1 / 2 = x ∧ cell.2 < dbm.dim ∨ cell.2 / 2 = x ∧ cell.1 < dbm.dim) ∧ cell.1 ≠ cell.2 := by
  obtain ⟨i, j⟩ := cell
  simp only [forgetCells, List.mem_append, List.mem_ite_nil_right, List.mem_cons, Prod.mk.injEq,
    List.not_mem_nil, or_false]
  constructor
  · rintro ⟨k, hk, h⟩
    omega
  · rintro ⟨⟨hx, hlt⟩ | ⟨hx, hlt⟩, hne⟩
    · exact ⟨j, hlt, by omega⟩
    · exact ⟨i, hlt, by omega⟩

/-- The entries of the variable are cleared, except for the diagonal. -/
def forgotten (x : Nat) (m : Graph.Weights B) : Graph.Weights B :=
  fun i j => if i ≠ j ∧ (i / 2 = x ∨ j / 2 = x) then ⊤ else m i j

/-- **Forgetting** clears the entries of the variable. -/
theorem forget_get (dbm : Dbm B) (hx : x < dbm.nVars) : (dbm.forget x).dim = dbm.dim ∧
    ∀ i < dbm.dim, ∀ j < dbm.dim, (dbm.forget x).get i j = forgotten x dbm.get i j := by
  have hcoherent : Coherent dbm.dim (forgotten x dbm.get) := by
    intro i hi j hj hij
    rw [forgotten, forgotten, complement_div, complement_div, dbm.get_complement hij]
    refine if_congr ?_ rfl rfl
    have hne : complement j ≠ complement i := complement_injective.ne (Ne.symm hij)
    simp only [hij, hne, ne_eq, not_false_eq_true, true_and]
    exact or_comm
  have hcells : ∀ cell ∈ (List.range dbm.dim).flatMap (forgetCells x),
      cell.1 < dbm.dim ∧ cell.2 < dbm.dim ∧ ⊤ = forgotten x dbm.get cell.1 cell.2 := by
    intro cell hcell
    obtain ⟨k, hk, hcell⟩ := List.mem_flatMap.1 hcell
    obtain ⟨hcases, hne⟩ := mem_forgetCells.1 ⟨k, List.mem_range.1 hk, hcell⟩
    rw [forgotten, if_pos ⟨hne, hcases.imp And.left And.left⟩]
    rw [dim] at hcases ⊢
    exact ⟨by omega, by omega, rfl⟩
  obtain ⟨hdim, hget⟩ := get_foldl_set (fun cell => cell) (fun _ => ⊤) hcoherent _ hcells dbm rfl
  rw [← forget_eq] at hdim hget
  refine ⟨hdim, fun i hi j hj => hget i hi j hj ?_⟩
  by_cases hcell : i ≠ j ∧ (i / 2 = x ∨ j / 2 = x)
  · right
    have hmem : ∃ k < dbm.dim, (i, j) ∈ forgetCells x k := by
      refine mem_forgetCells.2 ⟨?_, hcell.1⟩
      exact hcell.2.imp (fun h => ⟨h, hj⟩) fun h => ⟨h, hi⟩
    obtain ⟨k, hk, hmem⟩ := hmem
    exact ⟨(i, j), List.mem_flatMap.2 ⟨k, List.mem_range.2 hk, hmem⟩, .inl ⟨rfl, rfl⟩⟩
  · left
    rw [forgotten, if_neg hcell]

theorem exact_forget (dbm : Dbm B) (hx : x < dbm.nVars) : ∀ i < dbm.dim, ∀ j < dbm.dim,
    (dbm.forget x).exact i j = if i ≠ j ∧ (i / 2 = x ∨ j / 2 = x) then ⊤ else dbm.exact i j := by
  intro i hi j hj
  rw [exact, (dbm.forget_get hx).2 i hi j hj, forgotten, exact]
  split_ifs
  · exact ExactBound.toExact_top
  · rfl

theorem forget_satisfies (dbm : Dbm B) (hx : x < dbm.nVars) : (dbm.forget x).Satisfies v ↔
    ∀ i < dbm.dim, ∀ j < dbm.dim, ¬ (i ≠ j ∧ (i / 2 = x ∨ j / 2 = x)) →
      Admits (dbm.exact i j) (literal v j - literal v i) := by
  rw [Satisfies, (dbm.forget_get hx).1]
  refine forall₂_congr fun i hi => forall₂_congr fun j hj => ?_
  rw [dbm.exact_forget hx i hi j hj]
  split_ifs with hcell
  · exact iff_of_true trivial fun hnot => absurd hcell hnot
  · exact ⟨fun h _ => h, fun h => h hcell⟩

/-- A solution also satisfies the matrix without the variable, with any value for it. -/
theorem Satisfies.forget (h : dbm.Satisfies v) (hx : x < dbm.nVars) (r : ℝ) :
    (dbm.forget x).Satisfies (update v x r) := by
  rw [forget_satisfies dbm hx]
  intro i hi j hj hcell
  by_cases hij : i = j
  · have hdiag := h i hi j hj
    rw [hij, sub_self] at hdiag ⊢
    exact hdiag
  · push Not at hcell
    obtain ⟨hix, hjx⟩ := hcell hij
    rw [literal_update_of_ne hix, literal_update_of_ne hjx]
    exact h i hi j hj

theorem half_top : Bound.half (⊤ : Exact) = ⊤ := rfl

theorem forget_stronglyClosed (h : StronglyClosed dbm.dim dbm.exact) (hx : x < dbm.nVars) :
    StronglyClosed dbm.dim (dbm.forget x).exact := by
  have hget := dbm.exact_forget hx
  have hn := dbm.complement_lt_dim
  have hdiag : ∀ i < dbm.dim, (dbm.forget x).exact i i = 0 := fun i hi => by
    rw [hget i hi i hi, if_neg (fun hcell => hcell.1 rfl), h.diagonal i hi]
  have htop : ∀ i < dbm.dim, ∀ j < dbm.dim, i ≠ j → (i / 2 = x ∨ j / 2 = x) →
      (dbm.forget x).exact i j = ⊤ := fun i hi j hj hij hcell => by
    rw [hget i hi j hj, if_pos ⟨hij, hcell⟩]
  have hkept : ∀ i < dbm.dim, ∀ j < dbm.dim, i / 2 ≠ x → j / 2 ≠ x →
      (dbm.forget x).exact i j = dbm.exact i j := fun i hi j hj hix hjx => by
    rw [hget i hi j hj, if_neg (fun hcell => hcell.2.elim hix hjx)]
  refine ⟨fun i hi j hj => ?_, hdiag, fun i hi j hj k hk => ?_, fun i hi j hj => ?_⟩
  · by_cases hij : i = j
    · rw [hij, hdiag j hj, hdiag _ (hn j hj)]
    · rw [exact, exact, (dbm.forget x).get_complement hij]
  · by_cases hik : i = k
    · rw [hik, hdiag k hk, zero_add]
    by_cases hkj : k = j
    · rw [hkj, hdiag j hj, add_zero]
    by_cases hix : i / 2 = x ∨ k / 2 = x
    · rw [htop i hi k hk hik hix, LawfulBound.top_add]
      exact le_top
    by_cases hjx : j / 2 = x
    · rw [htop k hk j hj hkj (.inr hjx), add_comm, LawfulBound.top_add]
      exact le_top
    push Not at hix
    rw [hkept i hi j hj hix.1 hjx, hkept i hi k hk hix.1 hix.2, hkept k hk j hj hix.2 hjx]
    exact h.triangle i hi j hj k hk
  · by_cases hix : i / 2 = x
    · rw [htop i hi _ (hn i hi) (complement_ne i).symm (.inl hix), LawfulBound.top_add, half_top]
      exact le_top
    by_cases hjx : j / 2 = x
    · rw [htop _ (hn j hj) j hj (complement_ne j) (.inr hjx), add_comm, LawfulBound.top_add,
        half_top]
      exact le_top
    rw [hkept i hi j hj hix hjx, hkept i hi _ (hn i hi) hix (by rwa [complement_div]),
      hkept _ (hn j hj) j hj (by rwa [complement_div]) hjx]
    exact h.strengthening i hi j hj

theorem exact_new (n : Nat) : ∀ i < 2 * n, ∀ j < 2 * n,
    (new n : Dbm B).exact i j = (new n : Dbm Exact).get i j := by
  intro i hi j hj
  rw [exact, get_new n hi hj, get_new n hi hj]
  split_ifs
  · exact ExactBound.toExact_zero
  · exact ExactBound.toExact_top

theorem new_satisfies (n : Nat) (v : Nat → ℝ) : (new n : Dbm B).Satisfies v := by
  intro i hi j hj
  rw [exact_new n i hi j hj, get_new n hi hj]
  split_ifs with hij
  · rw [hij, sub_self]
    exact admits_zero.2 le_rfl
  · trivial

end Exact

end Dbm

end TldrCode.Octagon
