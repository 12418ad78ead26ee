import TldrCode.Octagon.Integral

/-!
# Assignments

`assign` of `dataflow/octagon/transfer.rs`. It forgets the variable first, also where the new value
depends on it, and adds doubled constants that may overflow (`assign_sound_iff`).
-/

namespace TldrCode.Octagon

open Function (update)
open Dataflow (i64Min i64Max)

namespace OctExpr

def Value (v : Nat → ℝ) (r : ℝ) : OctExpr → Prop
  | .constant c => r = c.val
  | .variable y => r = v y
  | .varPlusConst y c => r = v y + c.val
  | .varMinusConst y c => r = v y - c.val
  | .negVariable y => r = -v y
  | .unknown => True

/-- The variables of the expression are among the first `n`. -/
def Within (n : Nat) : OctExpr → Prop
  | .variable y | .varPlusConst y _ | .varMinusConst y _ | .negVariable y => y < n
  | .constant _ | .unknown => True

end OctExpr

namespace Dbm

section Exact

variable {B : Type*} [ExactBound B] {dbm : Dbm B} {i j k l p q x y : Nat} {b c : B} {v : Nat → ℝ}
  {r : ℝ}

/-! ## Writes -/

section

variable (hi : i < dbm.dim) (hj : j < dbm.dim)
include hi hj

theorem set_of_get (h : dbm.get i j = b) : dbm.set i j b = dbm := by
  refine eq_of_get (set_dim _ _ _ _) fun k hk l hl => ?_
  rw [dbm.get_set _ k l hi hj]
  split_ifs with hcell
  · rw [← h, dbm.get_eq_of_sameCell hcell]
  · rfl

theorem set_set : (dbm.set i j b).set i j c = dbm.set i j c := by
  refine eq_of_get (by rw [set_dim, set_dim, set_dim]) fun k hk l hl => ?_
  rw [get_set _ _ k l (by rwa [set_dim]) (by rwa [set_dim]), dbm.get_set _ k l hi hj,
    dbm.get_set _ k l hi hj]
  split_ifs <;> rfl

/-- **A write** to a satisfied cell adds its constraint. -/
theorem set_satisfies (h : Admits (dbm.exact i j) (literal v j - literal v i)) :
    (dbm.set i j b).Satisfies v ↔
      dbm.Satisfies v ∧ Admits (ExactBound.toExact b) (literal v j - literal v i) := by
  have hsame : ∀ k l, SameCell i j k l →
      dbm.exact k l = dbm.exact i j ∧ literal v l - literal v k = literal v j - literal v i := by
    intro k l hcell
    exact ⟨congrArg ExactBound.toExact (dbm.get_eq_of_sameCell hcell),
      hcell.sub_eq (literal_complement v)⟩
  have hget : ∀ k l, (dbm.set i j b).exact k l =
      if SameCell i j k l then ExactBound.toExact b else dbm.exact k l := by
    intro k l
    rw [exact, dbm.get_set _ k l hi hj, exact]
    split_ifs <;> rfl
  rw [Satisfies, set_dim]
  constructor
  · intro hset
    refine ⟨fun k hk l hl => ?_, ?_⟩
    · by_cases hcell : SameCell i j k l
      · obtain ⟨hexact, hdiff⟩ := hsame k l hcell
        rw [hexact, hdiff]
        exact h
      · have hadmits := hset k hk l hl
        rwa [hget, if_neg hcell] at hadmits
    · have hadmits := hset i hi j hj
      rwa [hget, if_pos (.inl ⟨rfl, rfl⟩)] at hadmits
  · rintro ⟨hsat, hb⟩ k hk l hl
    rw [hget]
    split_ifs with hcell
    · rw [(hsame k l hcell).2]
      exact hb
    · exact hsat k hk l hl

theorem get_set_of_not (h : ¬ SameCell i j k l) : (dbm.set i j b).get k l = dbm.get k l := by
  rw [dbm.get_set _ k l hi hj, if_neg h]

theorem get_set_self : (dbm.set i j b).get i j = b := by
  rw [dbm.get_set _ i j hi hj, if_pos (.inl ⟨rfl, rfl⟩)]

end

theorem not_sameCell_swap (h : i ≠ j) : ¬ SameCell i j j i := by
  rintro (⟨heq, -⟩ | ⟨-, heq, -⟩)
  · exact h heq.symm
  · exact complement_ne j heq.symm

/-- **A relation** between two literals of different variables. -/
theorem setDifference_satisfies (hp : p < dbm.dim) (hq : q < dbm.dim) (hpq : p / 2 ≠ q / 2)
    (hpos : Admits (dbm.exact q p) (literal v p - literal v q))
    (hneg : Admits (dbm.exact p q) (literal v q - literal v p)) :
    (dbm.setDifference p (complement p) q (complement q) b c).Satisfies v ↔ dbm.Satisfies v ∧
      Admits (ExactBound.toExact b) (literal v p - literal v q) ∧
        Admits (ExactBound.toExact c) (literal v q - literal v p) := by
  have hp' := dbm.complement_lt_dim p hp
  have hq' := dbm.complement_lt_dim q hq
  have hne : q ≠ p := fun heq => hpq (by rw [heq])
  have hmirror := not_sameCell_swap hne
  have hmirror' := not_sameCell_swap hne.symm
  have hfirst : (dbm.set q p b).get p q = dbm.get p q := get_set_of_not hq hp hmirror
  have hthird : ((dbm.set q p b).set p q c).get (complement q) (complement p) = c := by
    rw [get_complement _ hne.symm, get_set_self (by rwa [set_dim]) (by rwa [set_dim])]
  have hfourth : ((dbm.set q p b).set p q c).get (complement p) (complement q) = b := by
    rw [get_complement _ hne, get_set_of_not (by rwa [set_dim]) (by rwa [set_dim]) hmirror',
      get_set_self hq hp]
  rw [setDifference, set_of_get (by rwa [set_dim, set_dim]) (by rwa [set_dim, set_dim]) hthird,
    set_of_get (by rwa [set_dim, set_dim]) (by rwa [set_dim, set_dim]) hfourth,
    set_satisfies (by rwa [set_dim]) (by rwa [set_dim]), set_satisfies hq hp hpos, and_assoc]
  rw [exact, hfirst]
  exact hneg

theorem setDifference_self_satisfies (hp : p < dbm.dim) (hsat : dbm.Satisfies v) :
    (dbm.setDifference p (complement p) p (complement p) b c).Satisfies v ↔
      Admits (ExactBound.toExact b) 0 ∧ Admits (ExactBound.toExact c) 0 := by
  have hp' := dbm.complement_lt_dim p hp
  have hcell : ¬ SameCell p p (complement p) (complement p) := fun h =>
    complement_ne p h.eq_of_self.1
  have hdiag : (dbm.set p p c).get (complement p) (complement p) =
      dbm.get (complement p) (complement p) := get_set_of_not hp hp hcell
  rw [setDifference, set_set hp hp, set_set (by rwa [set_dim]) (by rwa [set_dim]),
    set_satisfies (by rwa [set_dim]) (by rwa [set_dim]), set_satisfies hp hp (hsat p hp p hp),
    sub_self, sub_self, and_iff_right hsat, and_comm]
  rw [exact, hdiag]
  exact hsat _ hp' _ hp'

/-- **A conditional write.** -/
theorem ite_set_satisfies {P : Prop} [Decidable P] (hi : i < dbm.dim) (hj : j < dbm.dim)
    (h : Admits (dbm.exact i j) (literal v j - literal v i)) :
    (if P then dbm.set i j b else dbm).Satisfies v ↔
      dbm.Satisfies v ∧ (P → Admits (ExactBound.toExact b) (literal v j - literal v i)) := by
  split_ifs with hP
  · rw [set_satisfies hi hj h]
    simp only [hP, true_imp_iff]
  · simp only [hP, false_imp_iff, and_true]

theorem ite_set_get {P : Prop} [Decidable P] (hi : i < dbm.dim) (hj : j < dbm.dim)
    (h : ¬ SameCell i j k l) :
    (if P then dbm.set i j b else dbm).dim = dbm.dim ∧
      (if P then dbm.set i j b else dbm).get k l = dbm.get k l := by
  split_ifs
  · exact ⟨set_dim _ _ _ _, get_set_of_not hi hj h⟩
  · exact ⟨rfl, rfl⟩

theorem setUnary_get (hp : p < dbm.dim) (hk : k / 2 ≠ l / 2) :
    (dbm.setUnary p (complement p) q (complement q) b c).dim = dbm.dim ∧
      (dbm.setUnary p (complement p) q (complement q) b c).get k l = dbm.get k l := by
  have hp' := dbm.complement_lt_dim p hp
  have hdiv := complement_div p
  have hupper : ¬ SameCell (complement p) p k l := fun h =>
    hk ((h.div_eq hdiv).1.trans (h.div_eq hdiv).2.symm)
  have hlower : ¬ SameCell p (complement p) k l := fun h =>
    hk ((h.div_eq hdiv.symm).1.trans (h.div_eq hdiv.symm).2.symm)
  rw [setUnary]
  obtain ⟨hdim, hget⟩ := ite_set_get (P := dbm.get (complement q) q ≠ ⊤)
    (b := dbm.get (complement q) q + b) hp' hp hupper
  generalize (if dbm.get (complement q) q ≠ ⊤ then _ else dbm) = dbm' at hdim hget ⊢
  obtain ⟨hdim', hget'⟩ := ite_set_get (P := dbm'.get q (complement q) ≠ ⊤)
    (b := dbm'.get q (complement q) + c) (by rwa [hdim]) (by rwa [hdim]) hlower
  exact ⟨hdim'.trans hdim, hget'.trans hget⟩

/-- **The unary bounds** of one literal, moved. -/
theorem setUnary_satisfies (hp : p < dbm.dim) (hpq : p / 2 ≠ q / 2) (hsat : dbm.Satisfies v) :
    (dbm.setUnary p (complement p) q (complement q) b c).Satisfies v ↔
      (dbm.get (complement q) q ≠ ⊤ → Admits
        (ExactBound.toExact (dbm.get (complement q) q + b))
        (literal v p - literal v (complement p))) ∧
      (dbm.get q (complement q) ≠ ⊤ → Admits
        (ExactBound.toExact (dbm.get q (complement q) + c))
        (literal v (complement p) - literal v p)) := by
  have hp' := dbm.complement_lt_dim p hp
  have hother : ¬ SameCell (complement p) p q (complement q) := fun h =>
    hpq (h.div_eq (complement_div p)).1.symm
  have hswap := not_sameCell_swap (complement_ne p)
  rw [setUnary]
  obtain ⟨hdim, hlower⟩ := ite_set_get (P := dbm.get (complement q) q ≠ ⊤)
    (b := dbm.get (complement q) q + b) hp' hp hother
  obtain ⟨-, hcell⟩ := ite_set_get (P := dbm.get (complement q) q ≠ ⊤)
    (b := dbm.get (complement q) q + b) hp' hp hswap
  rw [hlower, ite_set_satisfies (by rwa [hdim]) (by rwa [hdim]),
    ite_set_satisfies hp' hp (hsat _ hp' p hp), and_iff_right hsat]
  rw [exact, hcell]
  exact hsat p hp _ hp'

theorem setBounds_satisfies (hp : p < dbm.dim) (hsat : dbm.Satisfies v) :
    ((dbm.set (complement p) p b).set p (complement p) c).Satisfies v ↔
      Admits (ExactBound.toExact b) (literal v p - literal v (complement p)) ∧
        Admits (ExactBound.toExact c) (literal v (complement p) - literal v p) := by
  have hp' := dbm.complement_lt_dim p hp
  have hcell : (dbm.set (complement p) p b).get p (complement p) = dbm.get p (complement p) :=
    get_set_of_not hp' hp (not_sameCell_swap (complement_ne p))
  rw [set_satisfies (by rwa [set_dim]) (by rwa [set_dim]), set_satisfies hp' hp (hsat _ hp' p hp),
    and_iff_right hsat]
  rw [exact, hcell]
  exact hsat p hp _ hp'

theorem zero_admits_iff : Admits 0 r ↔ r ≤ 0 := by
  change r ≤ ((0 : ℚ) : ℝ) ↔ _
  rw [Rat.cast_zero]

theorem admits_zero_zero : Admits (ExactBound.toExact (0 : B)) 0 := by
  rw [ExactBound.toExact_zero]
  exact admits_zero.2 le_rfl

/-- The unary bounds of a literal with the value of another one, copied, and both equal. -/
theorem copy_satisfies (hp : p < dbm.dim) (hq : q < dbm.dim) (hpq : p / 2 ≠ q / 2)
    (hsat : dbm.Satisfies v) (heq : literal v p = literal v q) :
    (((dbm.set (complement p) p (dbm.get (complement q) q)).set p (complement p)
      ((dbm.set (complement p) p (dbm.get (complement q) q)).get q (complement q))).setDifference p
        (complement p) q (complement q) 0 0).Satisfies v := by
  have hp' := dbm.complement_lt_dim p hp
  have hq' := dbm.complement_lt_dim q hq
  have hdiv := complement_div p
  have hcell : ∀ k l, k / 2 ≠ l / 2 ∨ k / 2 ≠ p / 2 →
      ¬ SameCell (complement p) p k l ∧ ¬ SameCell p (complement p) k l := by
    intro k l hkl
    constructor
    · intro h
      have hvar := h.div_eq hdiv
      omega
    · intro h
      have hvar := h.div_eq hdiv.symm
      omega
  have hget : ∀ k l, k / 2 ≠ l / 2 → ((dbm.set (complement p) p (dbm.get (complement q) q)).set p
      (complement p) ((dbm.set (complement p) p (dbm.get (complement q) q)).get q
        (complement q))).get k l = dbm.get k l := by
    intro k l hkl
    rw [get_set_of_not (by rwa [set_dim]) (by rwa [set_dim]) (hcell k l (.inl hkl)).2,
      get_set_of_not hp' hp (hcell k l (.inl hkl)).1]
  have hlower : (dbm.set (complement p) p (dbm.get (complement q) q)).get q (complement q) =
      dbm.get q (complement q) := get_set_of_not hp' hp (hcell q _ (.inr (Ne.symm hpq))).1
  refine (setDifference_satisfies (by rwa [set_dim, set_dim]) (by rwa [set_dim, set_dim]) hpq ?_
    ?_).2 ⟨?_, ?_⟩
  · rw [exact, hget q p (Ne.symm hpq)]
    exact hsat q hq p hp
  · rw [exact, hget p q hpq]
    exact hsat p hp q hq
  · rw [setBounds_satisfies hp hsat, hlower, literal_complement, heq, ← literal_complement]
    exact ⟨hsat _ hq' q hq, hsat q hq _ hq'⟩
  · rw [heq, sub_self]
    exact ⟨admits_zero_zero, admits_zero_zero⟩

/-! ## Assignments -/

/-- The bound admits the number, and its negation admits the negation. -/
def AdmitsBoth (b : B) (z : ℝ) : Prop :=
  Admits (ExactBound.toExact b) z ∧ Admits (ExactBound.toExact (Bound.neg b)) (-z)

/-- The finite unary bounds of `y`, moved, admit twice a number. -/
def AdmitsMoved (d : Dbm B) (y : Nat) (upper lower : B) (z : ℝ) : Prop :=
  (d.get (2 * y + 1) (2 * y) ≠ ⊤ →
      Admits (ExactBound.toExact (d.get (2 * y + 1) (2 * y) + upper)) z) ∧
    (d.get (2 * y) (2 * y + 1) ≠ ⊤ →
      Admits (ExactBound.toExact (d.get (2 * y) (2 * y + 1) + lower)) (-z))

/-- What the bounds that an assignment writes say of the new value. -/
def Written (d : Dbm B) (x : Nat) (v : Nat → ℝ) : OctExpr → Prop
  | .constant c => AdmitsBoth (Bound.fromI64 (.wrap (2 * c.val)) : B) (2 * c.val)
  | .varPlusConst y c =>
    if y = x then AdmitsBoth (Bound.fromI64 c : B) 0
    else AdmitsBoth (Bound.fromI64 c : B) c.val ∧
      AdmitsMoved d y (Bound.fromI64 (.wrap (2 * c.val)))
        (Bound.neg (Bound.fromI64 (.wrap (2 * c.val)))) (2 * (v y + c.val))
  | .varMinusConst y c =>
    if y = x then AdmitsBoth (Bound.fromI64 c : B) 0
    else AdmitsBoth (Bound.fromI64 c : B) c.val ∧
      AdmitsMoved d y (Bound.neg (Bound.fromI64 (.wrap (2 * c.val))))
        (Bound.fromI64 (.wrap (2 * c.val))) (2 * (v y - c.val))
  | .negVariable y => y = x → v x = 0
  | .variable _ | .unknown => True

section Forgotten

variable {d : Dbm B} (hx : x < d.nVars)
include hx

theorem forget_literals_lt (hy : y < d.nVars) :
    2 * y < (d.forget x).dim ∧ 2 * y + 1 < (d.forget x).dim := by
  rw [(d.forget_get hx).1]
  exact d.literals_lt hy

theorem forget_unary : (d.forget x).get (2 * x + 1) (2 * x) = ⊤ ∧
    (d.forget x).get (2 * x) (2 * x + 1) = ⊤ := by
  have hget := (d.forget_get hx).2
  obtain ⟨hpos, hneg⟩ := d.literals_lt hx
  rw [hget _ hneg _ hpos, hget _ hpos _ hneg, forgotten, forgotten, if_pos (by omega),
    if_pos (by omega)]
  exact ⟨rfl, rfl⟩

theorem forget_other (hy : y < d.nVars) (hne : y ≠ x) :
    (d.forget x).get (2 * y + 1) (2 * y) = d.get (2 * y + 1) (2 * y) ∧
      (d.forget x).get (2 * y) (2 * y + 1) = d.get (2 * y) (2 * y + 1) := by
  have hget := (d.forget_get hx).2
  obtain ⟨hpos, hneg⟩ := d.literals_lt hy
  rw [hget _ hneg _ hpos, hget _ hpos _ hneg, forgotten, forgotten, if_neg (by omega),
    if_neg (by omega)]
  exact ⟨rfl, rfl⟩

variable (hv : d.Satisfies v) {e : OctExpr}
include hv

/-- **Constants.** -/
theorem assign_constant_iff (c : I64) :
    (assign d x (.constant c)).2.Satisfies (update v x c.val) ↔ Written d x v (.constant c) := by
  have hF := hv.forget hx (c.val : ℝ)
  have hpos := (forget_literals_lt hx hx).1
  have hiff := setBounds_satisfies (b := Bound.fromI64 (I64.wrap (2 * c.val)))
    (c := Bound.neg (Bound.fromI64 (I64.wrap (2 * c.val)))) hpos hF
  rw [complement_pos, literal_update_pos, literal_update_neg] at hiff
  rw [assign]
  dsimp only
  rw [hiff, Written, AdmitsBoth]
  have htwo : (c.val : ℝ) - -(c.val : ℝ) = 2 * c.val := by ring
  have htwo' : -(c.val : ℝ) - (c.val : ℝ) = -(2 * c.val) := by ring
  rw [htwo, htwo']

/-- **Moved variables.** -/
theorem shift_iff {y : Nat} (hy : y < d.nVars) (upper lower b c : B) :
    (((d.forget x).setUnary (2 * x) (2 * x + 1) (2 * y) (2 * y + 1) upper
      lower).setDifference (2 * x)
        (2 * x + 1) (2 * y) (2 * y + 1) b c).Satisfies (update v x r) ↔
      if y = x then Admits (ExactBound.toExact b) 0 ∧ Admits (ExactBound.toExact c) 0
      else (Admits (ExactBound.toExact b) (r - v y) ∧ Admits (ExactBound.toExact c) (v y - r)) ∧
        AdmitsMoved d y upper lower (2 * r) := by
  have hF := hv.forget hx r
  have hpos := (forget_literals_lt hx hx).1
  have hpos' := (forget_literals_lt hx hy).1
  rw [← complement_pos x, ← complement_pos y]
  split_ifs with hyx
  · obtain ⟨hupper, hlower⟩ := forget_unary hx
    have hsame : (d.forget x).setUnary (2 * x) (complement (2 * x)) (2 * y)
      (complement (2 * y)) upper
        lower = d.forget x := by
      rw [hyx, complement_pos, setUnary, hupper, if_neg (not_not_intro rfl), hlower,
        if_neg (not_not_intro rfl)]
    rw [hsame, hyx]
    exact setDifference_self_satisfies hpos hF
  · have hne : 2 * x / 2 ≠ 2 * y / 2 := by omega
    have hliteral : literal (update v x r) (2 * y) = v y := by
      rw [literal_update_of_ne (by omega), literal_pos]
    obtain ⟨hdim', hright⟩ := setUnary_get (q := 2 * y) (b := upper) (c := lower) hpos hne.symm
    obtain ⟨-, hleft⟩ := setUnary_get (q := 2 * y) (b := upper) (c := lower) hpos hne
    have hadmits := hF _ hpos' _ hpos
    have hadmits' := hF _ hpos _ hpos'
    rw [setDifference_satisfies (by rwa [hdim']) (by rwa [hdim']) hne,
      setUnary_satisfies hpos hne hF]
    · rw [literal_update_pos, literal_complement, literal_update_pos, hliteral, AdmitsMoved,
        complement_pos, (forget_other hx hy hyx).1, (forget_other hx hy hyx).2, and_comm]
      have htwo : r - -r = 2 * r := by ring
      have htwo' : -r - r = -(2 * r) := by ring
      rw [htwo, htwo']
    · rwa [exact, hright]
    · rwa [exact, hleft]

/-- **Copies.** -/
theorem assign_variable {y : Nat} (hy : y < d.nVars) :
    (assign d x (.variable y)).2.Satisfies (update v x (v y)) := by
  have hF := hv.forget hx (v y)
  have hpos := (forget_literals_lt hx hx).1
  have hpos' := (forget_literals_lt hx hy).1
  by_cases hyx : y = x
  · subst hyx
    have hneg := (d.forget y).complement_lt_dim _ hpos
    rw [complement_pos] at hneg
    have hassign : (assign d y (.variable y)).2 = (d.forget y).setDifference (2 * y) (2 * y + 1)
        (2 * y) (2 * y + 1) 0 0 := by
      rw [assign]
      dsimp only
      rw [set_of_get hneg hpos rfl, set_of_get hpos hneg rfl, setDifference]
    rw [hassign, ← complement_pos, setDifference_self_satisfies hpos hF]
    exact ⟨admits_zero_zero, admits_zero_zero⟩
  · have hcopy := copy_satisfies hpos hpos' (by omega) hF (by
      rw [literal_update_pos, literal_update_of_ne (by omega), literal_pos])
    rw [complement_pos, complement_pos] at hcopy
    exact hcopy

/-- **Negations.** -/
theorem assign_negVariable_iff {y : Nat} (hy : y < d.nVars) :
    (assign d x (.negVariable y)).2.Satisfies (update v x (-v y)) ↔
      Written d x v (.negVariable y) := by
  have hF := hv.forget hx (-v y)
  have hpos := (forget_literals_lt hx hx).1
  have hneg' := (forget_literals_lt hx hy).2
  by_cases hyx : y = x
  · subst hyx
    obtain ⟨hupper, hlower⟩ := forget_unary hx
    have hcell' := not_sameCell_swap (show 2 * y ≠ 2 * y + 1 by omega)
    have hassign : (assign d y (.negVariable y)).2 =
        ((d.forget y).set (2 * y + 1) (2 * y) 0).set (2 * y) (2 * y + 1) 0 := by
      rw [assign]
      dsimp only
      rw [set_of_get hneg' hpos (by rw [hupper, hlower]),
        set_of_get hpos hneg' (by rw [hupper, hlower]),
        set_set (by rwa [set_dim]) (by rwa [set_dim]), set_of_get (by rwa [set_dim, set_dim])
        (by rwa [set_dim, set_dim])]
      rw [get_set_of_not (by rwa [set_dim]) (by rwa [set_dim]) hcell', get_set_self hneg' hpos]
    have hbounds := setBounds_satisfies (b := (0 : B)) (c := 0) hpos hF
    rw [complement_pos, literal_update_pos, literal_update_neg, ExactBound.toExact_zero] at hbounds
    rw [hassign, hbounds, Written, zero_admits_iff, zero_admits_iff]
    constructor
    · rintro ⟨hle, hge⟩ -
      linarith
    · intro heq
      rw [heq rfl]
      norm_num
  · refine iff_of_true ?_ fun heq => absurd heq hyx
    have hcopy := copy_satisfies hpos hneg' (by omega) hF (by
      rw [literal_update_pos, literal_update_of_ne (by omega), literal_neg])
    rw [complement_pos, complement_neg] at hcopy
    exact hcopy

end Forgotten

theorem forall_satisfies_const {d : Dbm B} (hsat : ∃ v, d.Satisfies v) (P : Prop) :
    (∀ v, d.Satisfies v → P) ↔ P := by
  obtain ⟨w, hw⟩ := hsat
  exact ⟨fun h => h w hw, fun h _ _ => h⟩

/-- The value of the expression satisfies the assignment. -/
def AssignSound (d : Dbm B) (x : Nat) (e : OctExpr) : Prop :=
  ∀ v, d.Satisfies v → ∀ r, e.Value v r → (assign d x e).2.Satisfies (update v x r)

/-- **Assignments** are sound for the valuations that the written bounds admit. -/
theorem assign_iff {d : Dbm B} {e : OctExpr} (hx : x < d.nVars) (he : e.Within d.nVars) :
    AssignSound d x e ↔ ∀ v, d.Satisfies v → Written d x v e := by
  refine forall₂_congr fun v hv => ?_
  cases e with
  | constant c =>
    simp only [OctExpr.Value, forall_eq]
    exact assign_constant_iff hx hv c
  | «variable» y =>
    simp only [OctExpr.Value, forall_eq]
    exact iff_of_true (assign_variable hx hv he) trivial
  | varPlusConst y c =>
    simp only [OctExpr.Value, forall_eq]
    have hshift := shift_iff (r := v y + c.val) hx hv he (Bound.fromI64 (I64.wrap (2 * c.val)))
      (Bound.neg (Bound.fromI64 (I64.wrap (2 * c.val)))) (Bound.fromI64 c)
      (Bound.neg (Bound.fromI64 c))
    refine hshift.trans ?_
    rw [Written, AdmitsBoth, AdmitsBoth, neg_zero, add_sub_cancel_left, sub_add_cancel_left]
  | varMinusConst y c =>
    simp only [OctExpr.Value, forall_eq]
    have hshift := shift_iff (r := v y - c.val) hx hv he
      (Bound.neg (Bound.fromI64 (I64.wrap (2 * c.val)))) (Bound.fromI64 (I64.wrap (2 * c.val)))
      (Bound.neg (Bound.fromI64 c)) (Bound.fromI64 c)
    refine hshift.trans ?_
    rw [Written, AdmitsBoth, AdmitsBoth, neg_zero, sub_sub_cancel, sub_sub_cancel_left, and_comm,
      and_comm (a := Admits _ (-(c.val : ℝ)))]
  | negVariable y =>
    simp only [OctExpr.Value, forall_eq]
    exact assign_negVariable_iff hx hv he
  | unknown =>
    exact iff_of_true (fun r _ => hv.forget hx r) trivial

end Exact

/-! ## Machine integers -/

section Integers

variable {a b o : I64} {z : Int} {r : ℝ}

theorem neg_val (hmax : a ≠ I64.max) (hmin : a ≠ I64.min) : (I64.neg a).val = -a.val := by
  have hlow := a.min_le_val
  have hhigh := a.val_le_max
  rw [I64.neg, if_neg hmin, if_neg hmax]
  rw [Ne, I64.eq_min_iff] at hmin
  unfold i64Min at hmin hlow
  unfold i64Max at hhigh
  refine I64.wrap_val ?_
  unfold Dataflow.IsI64 i64Min i64Max
  omega

/-- A bound is exact for a number at least as great, if it is not an extreme. -/
theorem admitsBoth_iff (h : b.val ≠ i64Min + 1 ∨ b.val ≤ z) :
    AdmitsBoth b (z : ℝ) ↔ b ≠ I64.max ∧ b ≠ I64.min ∧ z = b.val := by
  rw [AdmitsBoth, ← Int.cast_neg, I64.admits_int_iff, I64.admits_int_iff]
  show _ ∧ (I64.neg b = I64.max ∨ I64.neg b ≠ I64.min ∧ _ ≤ (I64.neg b).val) ↔ _
  by_cases hmax : b = I64.max
  · rw [hmax]
    exact iff_of_false (fun hboth => hboth.2.elim (by decide) fun hne => hne.1 (by decide))
      fun hne => hne.1 rfl
  by_cases hmin : b = I64.min
  · rw [hmin]
    exact iff_of_false (fun hboth => hboth.1.elim (by decide) fun hne => hne.1 rfl)
      fun hne => hne.2.1 rfl
  have hneg := neg_val hmax hmin
  have hhigh := b.val_le_max
  rw [I64.eq_max_iff, I64.eq_max_iff, Ne, Ne, I64.eq_min_iff, I64.eq_min_iff, hneg, Ne,
    I64.eq_max_iff]
  rw [I64.eq_max_iff] at hmax
  rw [I64.eq_min_iff] at hmin
  unfold i64Max i64Min at *
  omega

/-- The sum of a finite bound and an offset, if any, admits the number. -/
def SumFits (b o : I64) (r : ℝ) : Prop :=
  b = I64.max ∨ o = I64.max ∨ o ≠ I64.min ∧
    (i64Max ≤ b.val + o.val ∨ i64Min < b.val + o.val ∧ r ≤ (b.val + o.val : Int))

theorem sumFits_iff (hb : b ≠ I64.min) :
    (b ≠ ⊤ → Admits (ExactBound.toExact (b + o)) r) ↔ SumFits b o r := by
  show (b ≠ I64.max → Admits (ExactBound.toExact (I64.add b o)) r) ↔ _
  rw [SumFits, I64.admits_iff]
  by_cases hbmax : b = I64.max
  · exact iff_of_true (fun hne => absurd hbmax hne) (.inl hbmax)
  refine (forall_prop_of_true hbmax).trans ?_
  rw [or_iff_right hbmax]
  by_cases homax : o = I64.max
  · have hadd : I64.add b o = I64.max := if_pos (.inr homax)
    exact iff_of_true (.inl hadd) (.inl homax)
  rw [or_iff_right homax]
  by_cases homin : o = I64.min
  · have hadd : I64.add b o = I64.min := by
      rw [I64.add, if_neg (not_or.2 ⟨hbmax, homax⟩), if_pos (.inr homin)]
    rw [hadd]
    exact iff_of_false (fun hadmits => hadmits.elim (by decide) fun hne => hne.1 rfl)
      fun hne => hne.1 homin
  have hadd : I64.add b o = I64.saturating (b.val + o.val) := by
    rw [I64.add, if_neg (not_or.2 ⟨hbmax, homax⟩), if_neg (not_or.2 ⟨hb, homin⟩)]
  rw [hadd, and_iff_right homin, I64.eq_max_iff, Ne, I64.eq_min_iff]
  show Dataflow.saturate (b.val + o.val) = _ ∨ ¬ Dataflow.saturate (b.val + o.val) = _ ∧
    r ≤ (Dataflow.saturate (b.val + o.val) : ℝ) ↔ _
  generalize b.val + o.val = s
  rcases Int.lt_or_le i64Min s with hlow | hlow
  · rcases Int.lt_or_le s i64Max with hhigh | hhigh
    · have hsame : Dataflow.saturate s = s := by
        unfold Dataflow.saturate
        omega
      rw [hsame, or_iff_right hhigh.ne, or_iff_right (not_le.2 hhigh), and_iff_right hlow,
        and_iff_right hlow.ne']
    · have hmax : Dataflow.saturate s = i64Max := by
        unfold Dataflow.saturate
        unfold i64Max i64Min at *
        omega
      exact iff_of_true (.inl hmax) (.inl hhigh)
  · have hmin : Dataflow.saturate s = i64Min := by
      unfold Dataflow.saturate
      unfold i64Max i64Min at *
      omega
    rw [hmin]
    unfold i64Max i64Min at *
    exact iff_of_false (by omega) (by omega)

/-- The moved unary bounds of `y` admit the number and its negation. -/
def MovedFits (d : Dbm I64) (y : Nat) (upper lower : I64) (r : ℝ) : Prop :=
  SumFits (d.get (2 * y + 1) (2 * y)) upper r ∧ SumFits (d.get (2 * y) (2 * y + 1)) lower (-r)

/-- The assignment is not of a variable to itself, changed, and its constants do not overflow, or
only where no valuation can tell. -/
def Fits (d : Dbm I64) (x : Nat) : OctExpr → Prop
  | .constant c => -2 ^ 62 < c.val ∧ c.val < 2 ^ 62
  | .varPlusConst y c =>
    if y = x then c.val = 0
    else i64Min < c.val ∧ c.val < i64Max ∧ ∀ v, d.Satisfies v →
      MovedFits d y (.wrap (2 * c.val)) (I64.neg (.wrap (2 * c.val))) (2 * (v y + c.val))
  | .varMinusConst y c =>
    if y = x then c.val = 0
    else i64Min < c.val ∧ c.val < i64Max ∧ ∀ v, d.Satisfies v →
      MovedFits d y (I64.neg (.wrap (2 * c.val))) (.wrap (2 * c.val)) (2 * (v y - c.val))
  | .negVariable y => y = x → ∀ v, d.Satisfies v → v x = 0
  | .variable _ | .unknown => True

theorem written_constant_iff (c : I64) :
    AdmitsBoth (I64.wrap (2 * c.val)) (2 * c.val : ℝ) ↔ -2 ^ 62 < c.val ∧ c.val < 2 ^ 62 := by
  have hlow := c.min_le_val
  have hhigh := c.val_le_max
  have hcast : (2 * c.val : ℝ) = ((2 * c.val : Int) : ℝ) := by push_cast; rfl
  unfold i64Min at hlow
  unfold i64Max at hhigh
  rw [hcast, admitsBoth_iff, Ne, Ne, I64.eq_max_iff, I64.eq_min_iff]
  · unfold I64.wrap i64Max i64Min
    dsimp only
    omega
  · left
    unfold I64.wrap i64Min
    dsimp only
    omega

theorem written_self_iff (c : I64) : AdmitsBoth c (0 : ℝ) ↔ c.val = 0 := by
  rw [← Int.cast_zero, admitsBoth_iff, Ne, Ne, I64.eq_max_iff, I64.eq_min_iff]
  · unfold i64Max i64Min
    omega
  · unfold i64Min
    omega

theorem written_difference_iff (c : I64) :
    AdmitsBoth c (c.val : ℝ) ↔ i64Min < c.val ∧ c.val < i64Max := by
  have hlow := c.min_le_val
  have hhigh := c.val_le_max
  rw [admitsBoth_iff (.inr le_rfl), Ne, Ne, I64.eq_max_iff, I64.eq_min_iff]
  omega

/-- **What is written** for machine integers. -/
theorem written_iff {d : Dbm I64} {x : Nat} {e : OctExpr} (he : e.Within d.nVars)
    (hsat : ∃ v, d.Satisfies v) : (∀ v, d.Satisfies v → Written d x v e) ↔ Fits d x e := by
  have hconst := forall_satisfies_const hsat
  obtain ⟨w, hw⟩ := hsat
  have hmoved : ∀ y < d.nVars, ∀ (upper lower : I64) (r : ℝ),
      AdmitsMoved d y upper lower r ↔ MovedFits d y upper lower r := by
    intro y hy upper lower r
    obtain ⟨hpos, hneg⟩ := d.literals_lt hy
    have hne : ∀ i < d.dim, ∀ j < d.dim, d.get i j ≠ I64.min := fun i hi j hj heq =>
      hw.ne_bot hi hj (by rw [exact, heq]; rfl)
    exact and_congr (sumFits_iff (hne _ hneg _ hpos)) (sumFits_iff (hne _ hpos _ hneg))
  cases e with
  | constant c =>
    exact (hconst _).trans (written_constant_iff c)
  | «variable» y | unknown => exact iff_of_true (fun _ _ => trivial) trivial
  | varPlusConst y c | varMinusConst y c =>
    simp only [Written, Fits]
    split_ifs with hyx
    · exact (hconst _).trans (written_self_iff c)
    · rw [← and_assoc, ← written_difference_iff c, forall₂_and]
      exact and_congr (hconst _) (forall₂_congr fun v _ => hmoved y he _ _ _)
  | negVariable y => exact ⟨fun h hyx v hv => h v hv hyx, fun h v hv hyx => h hyx v hv⟩

end Integers

/-! ## Exact arithmetic -/

section Rationals

/-- The finite unary bounds of `y`, moved by a number, admit another one and its negation. -/
def ExactMovedFits (d : Dbm Exact) (y : Nat) (w : Int) (r : ℝ) : Prop :=
  (∀ u : ℚ, d.get (2 * y + 1) (2 * y) = ((u : WithBot ℚ) : Exact) → r ≤ u + w) ∧
    ∀ u : ℚ, d.get (2 * y) (2 * y + 1) = ((u : WithBot ℚ) : Exact) → -r ≤ u - w

/-- The same as `Fits`, where only the doubled constant is an `i64`. -/
def ExactFits (d : Dbm Exact) (x : Nat) : OctExpr → Prop
  | .constant c => -2 ^ 62 ≤ c.val ∧ c.val < 2 ^ 62
  | .varPlusConst y c =>
    if y = x then c.val = 0
    else ∀ v, d.Satisfies v →
      ExactMovedFits d y (I64.wrap (2 * c.val)).val (2 * (v y + c.val))
  | .varMinusConst y c =>
    if y = x then c.val = 0
    else ∀ v, d.Satisfies v →
      ExactMovedFits d y (-(I64.wrap (2 * c.val)).val) (2 * (v y - c.val))
  | .negVariable y => y = x → ∀ v, d.Satisfies v → v x = 0
  | .variable _ | .unknown => True

theorem exact_admitsBoth_iff (z : Int) (r : ℝ) :
    AdmitsBoth (((z : ℚ) : WithBot ℚ) : Exact) r ↔ r = z := by
  change r ≤ ((z : ℚ) : ℝ) ∧ -r ≤ ((-z : ℚ) : ℝ) ↔ _
  push_cast
  constructor
  · rintro ⟨hle, hge⟩
    linarith
  · rintro rfl
    exact ⟨le_rfl, le_rfl⟩

theorem exact_sum_iff {b : Exact} (hb : b ≠ ((⊥ : WithBot ℚ) : Exact)) (w : ℚ) (r : ℝ) :
    (b ≠ ⊤ → Admits (b + ((w : WithBot ℚ) : Exact)) r) ↔
      ∀ u : ℚ, b = ((u : WithBot ℚ) : Exact) → r ≤ u + w := by
  cases b using WithTop.recTopCoe with
  | top => exact iff_of_true (fun hne => absurd rfl hne) (by simp)
  | coe b =>
    cases b using WithBot.recBotCoe with
    | bot => exact absurd rfl hb
    | coe b =>
      have hsum : Admits ((((b : WithBot ℚ)) : Exact) + ((w : WithBot ℚ) : Exact)) r ↔
          r ≤ b + w := by
        change r ≤ ((b + w : ℚ) : ℝ) ↔ _
        rw [Rat.cast_add]
      rw [hsum]
      constructor
      · intro h u hu
        rw [← WithBot.coe_injective (WithTop.coe_injective hu)]
        exact h (by simp)
      · exact fun h _ => h b rfl

/-- **What is written** in exact arithmetic. -/
theorem exact_written_iff {d : Dbm Exact} {x : Nat} {e : OctExpr} (he : e.Within d.nVars)
    (hsat : ∃ v, d.Satisfies v) : (∀ v, d.Satisfies v → Written d x v e) ↔ ExactFits d x e := by
  have hconst := forall_satisfies_const hsat
  obtain ⟨w, hw⟩ := hsat
  have hself : ∀ c : I64, AdmitsBoth (Bound.fromI64 c : Exact) 0 ↔ c.val = 0 := fun c => by
    refine (exact_admitsBoth_iff c.val 0).trans ?_
    rw [eq_comm, Int.cast_eq_zero]
  have hdifference : ∀ c : I64, AdmitsBoth (Bound.fromI64 c : Exact) c.val :=
    fun c => (exact_admitsBoth_iff c.val c.val).2 rfl
  have hmoved : ∀ y < d.nVars, ∀ (z : Int) (r : ℝ),
      AdmitsMoved d y (((z : ℚ) : WithBot ℚ) : Exact) ((((-z : Int) : ℚ) : WithBot ℚ) : Exact) r ↔
        ExactMovedFits d y z r := by
    intro y hy z r
    obtain ⟨hpos, hneg⟩ := d.literals_lt hy
    refine and_congr ?_ ?_
    · refine (exact_sum_iff (hw.ne_bot hneg hpos) z r).trans ?_
      rw [Rat.cast_intCast]
      rfl
    · refine (exact_sum_iff (hw.ne_bot hpos hneg) ((-z : Int) : ℚ) (-r)).trans ?_
      rw [Rat.cast_intCast, Int.cast_neg]
      rfl
  have hnegated : ∀ o : I64, Bound.neg (Bound.fromI64 o : Exact) =
      ((((-o.val : Int) : ℚ) : WithBot ℚ) : Exact) := by
    intro o
    rw [Int.cast_neg]
    rfl
  cases e with
  | constant c =>
    have hconstant : AdmitsBoth (Bound.fromI64 (I64.wrap (2 * c.val)) : Exact) (2 * c.val) ↔
        -2 ^ 62 ≤ c.val ∧ c.val < 2 ^ 62 := by
      refine (exact_admitsBoth_iff _ _).trans ?_
      have hlow := c.min_le_val
      have hhigh := c.val_le_max
      unfold i64Min at hlow
      unfold i64Max at hhigh
      have hcast : (2 * c.val : ℝ) = ((2 * c.val : Int) : ℝ) := by push_cast; rfl
      rw [hcast, Int.cast_inj]
      unfold I64.wrap
      dsimp only
      omega
    exact (hconst _).trans hconstant
  | «variable» y | unknown => exact iff_of_true (fun _ _ => trivial) trivial
  | varPlusConst y c =>
    simp only [Written, ExactFits]
    split_ifs with hyx
    · exact (hconst _).trans (hself c)
    · refine forall₂_congr fun v hv => ?_
      rw [and_iff_right (hdifference c), hnegated]
      exact hmoved y he _ _
  | varMinusConst y c =>
    simp only [Written, ExactFits]
    split_ifs with hyx
    · exact (hconst _).trans (hself c)
    · refine forall₂_congr fun v hv => ?_
      have hminus := hmoved y he (-(I64.wrap (2 * c.val)).val) (2 * (v y - c.val))
      rw [neg_neg] at hminus
      rw [and_iff_right (hdifference c), hnegated]
      exact hminus
  | negVariable y => exact ⟨fun h hyx v hv => h v hv hyx, fun h v hv hyx => h hyx v hv⟩

end Rationals

/-- **Assignments** are sound exactly for a matrix without valuation and for the expressions that
fit. -/
theorem assign_sound_iff {x n : Nat} {e : OctExpr} (hx : x < n) (he : e.Within n) :
    (∀ d : Dbm I64, d.nVars = n →
      (AssignSound d x e ↔ (¬ ∃ v, d.Satisfies v) ∨ Fits d x e)) ∧
    ∀ d : Dbm Exact, d.nVars = n →
      (AssignSound d x e ↔ (¬ ∃ v, d.Satisfies v) ∨ ExactFits d x e) := by
  constructor
  · rintro d rfl
    rw [assign_iff hx he]
    by_cases hsat : ∃ v, d.Satisfies v
    · rw [written_iff he hsat, or_iff_right (not_not_intro hsat)]
    · exact iff_of_true (fun v hv => absurd ⟨v, hv⟩ hsat) (.inl hsat)
  · rintro d rfl
    rw [assign_iff hx he]
    by_cases hsat : ∃ v, d.Satisfies v
    · rw [exact_written_iff he hsat, or_iff_right (not_not_intro hsat)]
    · exact iff_of_true (fun v hv => absurd ⟨v, hv⟩ hsat) (.inl hsat)

/-- One variable, set to a constant. -/
theorem assign_sound_constant :
    (∀ d : Dbm I64, d.nVars = 1 → (AssignSound d 0 (.constant 0) ↔
      (¬ ∃ v, d.Satisfies v) ∨ Fits d 0 (.constant 0))) ∧
    ∀ d : Dbm Exact, d.nVars = 1 → (AssignSound d 0 (.constant 0) ↔
      (¬ ∃ v, d.Satisfies v) ∨ ExactFits d 0 (.constant 0)) :=
  assign_sound_iff Nat.one_pos trivial

/-- `x := x + 1` leaves no valuation. -/
theorem not_assign_sound_increment :
    ¬ AssignSound (new 1 : Dbm I64) 0 (.varPlusConst 0 ⟨1, by decide⟩) := by
  intro h
  have hsat := h (fun _ => 0) (new_satisfies 1 _) _ rfl
  have hadmits := hsat 0 (by decide) 0 (by decide)
  have hget : (assign (new 1 : Dbm I64) 0 (.varPlusConst 0 ⟨1, by decide⟩)).2.get 0 0 =
      ⟨-1, by decide⟩ := by
    decide +kernel
  rw [exact, hget, sub_self, I64.admits_iff] at hadmits
  rcases hadmits with hmax | ⟨-, hle⟩
  · exact absurd hmax (by decide)
  · norm_num at hle

end Dbm

end TldrCode.Octagon
