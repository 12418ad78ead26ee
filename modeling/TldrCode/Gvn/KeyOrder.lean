import Mathlib.Order.Compare
import TldrCode.Gvn.HashKey

/-!
# The order of keys

`dfg/gvn/hash_key.rs`: `compare_hash_keys` orders the keys by what it looks at. It does not look
into a boolean operator, a comparison, an attribute or a subscript, and keys that differ only there
stay in the order in which they are given (`normalizeBinop_comm_iff`).
-/

namespace TldrCode.Gvn.HashKey

open Std (TransCmp OrientedCmp TransOrd OrientedOrd)

section Chained

variable {x y z x' y' z' : Ordering}

/-- How the first and the last of three are compared, if each of the three is at most the next. -/
def Chained (x y z : Ordering) : Prop := x.isLE → y.isLE → z = x.then y

theorem Chained.then (h : Chained x y z) (h' : Chained x' y' z') :
    Chained (x.then x') (y.then y') (z.then z') := by
  unfold Chained at *
  revert h h'
  cases x <;> cases y <;> cases x' <;> cases y' <;> simp +contextual

theorem chained_compare {α : Type} [Ord α] [TransOrd α] (a b c : α) :
    Chained (Ord.compare a b) (Ord.compare b c) (Ord.compare a c) := by
  intro hab hbc
  cases h : Ord.compare a b with
  | lt => exact TransCmp.lt_of_lt_of_isLE h hbc
  | eq => exact TransCmp.congr_left h
  | gt => simp [h] at hab

end Chained

/-! ## The order -/

variable {a b c l r : HashKey} {op : String}

theorem compareHashKeys_of_ne (h : a.discriminantOrder ≠ b.discriminantOrder) :
    compareHashKeys a b = Ord.compare a.discriminantOrder b.discriminantOrder := by
  cases a <;> cases b <;> first | rfl | exact absurd rfl h

theorem compareHashKeys_swap (a b : HashKey) :
    compareHashKeys a b = (compareHashKeys b a).swap := by
  induction a, b using compareHashKeys.induct with
  | case1 t₁ r₁ t₂ r₂ =>
    simp only [compareHashKeys, Ordering.swap_then]
    rw [← OrientedOrd.eq_swap, ← OrientedOrd.eq_swap]
  | case4 o₁ l₁ r₁ _ o₂ l₂ r₂ _ ihl ihr =>
    simp only [compareHashKeys, Ordering.swap_then]
    rw [← OrientedOrd.eq_swap, ← ihl, ← ihr]
  | case5 o₁ a₁ o₂ a₂ ih =>
    simp only [compareHashKeys, Ordering.swap_then]
    rw [← OrientedOrd.eq_swap, ← ih]
  | case2 | case3 | case6 | case7 => exact OrientedOrd.eq_swap
  | case8 a b =>
    cases a <;> cases b <;> first | rfl | grind

/-- A key that is at most another one is of the same kind or of an earlier one. -/
theorem discriminantOrder_le (h : (compareHashKeys a b).isLE) :
    a.discriminantOrder ≤ b.discriminantOrder := by
  by_cases hne : a.discriminantOrder = b.discriminantOrder
  · exact Nat.le_of_eq hne
  · rw [compareHashKeys_of_ne hne, Nat.isLE_compare] at h
    exact h

theorem chained_of_ne (h : a.discriminantOrder ≠ b.discriminantOrder ∨
      b.discriminantOrder ≠ c.discriminantOrder) :
    Chained (compareHashKeys a b) (compareHashKeys b c) (compareHashKeys a c) := by
  intro hab hbc
  have hle := discriminantOrder_le hab
  have hle' := discriminantOrder_le hbc
  have hac : compareHashKeys a c = .lt := by
    rw [compareHashKeys_of_ne (by omega), Nat.compare_eq_lt]
    omega
  rw [hac]
  by_cases hne : a.discriminantOrder = b.discriminantOrder
  · have hlt : compareHashKeys b c = .lt := by
      rw [compareHashKeys_of_ne (by omega), Nat.compare_eq_lt]
      omega
    rw [hlt]
    cases hx : compareHashKeys a b with
    | lt | eq => rfl
    | gt => simp [hx] at hab
  · have hlt : compareHashKeys a b = .lt := by
      rw [compareHashKeys_of_ne hne, Nat.compare_eq_lt]
      omega
    rw [hlt]
    rfl

theorem chained_compareHashKeys (a b c : HashKey) :
    Chained (compareHashKeys a b) (compareHashKeys b c) (compareHashKeys a c) := by
  induction a, b using compareHashKeys.induct generalizing c with
  | case1 t₁ r₁ t₂ r₂ =>
    cases c with
    | const t₃ r₃ => exact (chained_compare t₁ t₂ t₃).then (chained_compare r₁ r₂ r₃)
    | _ => exact chained_of_ne (.inr (by simp [discriminantOrder]))
  | case2 v₁ v₂ =>
    cases c with
    | varVN v₃ => exact chained_compare v₁ v₂ v₃
    | _ => exact chained_of_ne (.inr (by simp [discriminantOrder]))
  | case3 n₁ n₂ =>
    cases c with
    | name n₃ => exact chained_compare n₁ n₂ n₃
    | _ => exact chained_of_ne (.inr (by simp [discriminantOrder]))
  | case4 o₁ l₁ r₁ _ o₂ l₂ r₂ _ ihl ihr =>
    cases c with
    | binOp o₃ l₃ r₃ => exact ((chained_compare o₁ o₂ o₃).then (ihl l₃)).then (ihr r₃)
    | _ => exact chained_of_ne (.inr (by simp [discriminantOrder]))
  | case5 o₁ a₁ o₂ a₂ ih =>
    cases c with
    | unaryOp o₃ a₃ => exact (chained_compare o₁ o₂ o₃).then (ih a₃)
    | _ => exact chained_of_ne (.inr (by simp [discriminantOrder]))
  | case6 u₁ u₂ =>
    cases c with
    | call u₃ => exact chained_compare u₁ u₂ u₃
    | _ => exact chained_of_ne (.inr (by simp [discriminantOrder]))
  | case7 u₁ u₂ =>
    cases c with
    | unique u₃ => exact chained_compare u₁ u₂ u₃
    | _ => exact chained_of_ne (.inr (by simp [discriminantOrder]))
  | case8 a b =>
    by_cases hne : a.discriminantOrder = b.discriminantOrder ∧
        b.discriminantOrder = c.discriminantOrder
    · -- two keys of a kind that is not looked into are equal to every third one
      intro _ _
      obtain ⟨hab, hbc⟩ := hne
      cases a <;> cases b <;> first
        | (cases hab; done)
        | grind
        | (cases c <;> rfl)
    · exact chained_of_ne (by omega)

/-- **The keys are ordered**, up to what the comparison does not look at. -/
instance : TransCmp compareHashKeys where
  eq_swap := compareHashKeys_swap _ _
  isLE_trans {a b c} hab hbc := by
    rw [chained_compareHashKeys a b c hab hbc, Ordering.isLE_then_iff_and]
    exact ⟨hab, .inr hbc⟩

/-- What the comparison looks at: it does not look into a boolean operator, a comparison, an
attribute or a subscript, and does not read whether an operator is commutative. -/
def sketch : HashKey → HashKey
  | binOp op l r _ => binOp op l.sketch r.sketch false
  | unaryOp op a => unaryOp op a.sketch
  | boolOp _ _ => boolOp "" .nil
  | compare _ => compare []
  | .attribute _ _ => .attribute (unique 0) ""
  | subscript _ _ => subscript (unique 0) (unique 0)
  | key => key

theorem compareHashKeys_eq_eq_iff : compareHashKeys a b = .eq ↔ a.sketch = b.sketch := by
  induction a, b using compareHashKeys.induct with
  | case1 | case2 | case3 | case6 | case7 =>
    simp [compareHashKeys, sketch, Ordering.then_eq_eq]
  | case4 o₁ l₁ r₁ _ o₂ l₂ r₂ _ ihl ihr =>
    simp [compareHashKeys, sketch, Ordering.then_eq_eq, ihl, ihr,
      and_assoc]
  | case5 o₁ a₁ o₂ a₂ ih =>
    simp [compareHashKeys, sketch, Ordering.then_eq_eq, ih]
  | case8 a b =>
    cases a <;> cases b <;> first
      | grind
      | exact iff_of_true rfl rfl
      | exact iff_of_false (by simp [compareHashKeys, discriminantOrder]) (by simp [sketch])

/-- **The comparison is a total order of sketches.** -/
theorem compareHashKeys_total (a b c : HashKey) :
    (compareHashKeys a b = .eq ↔ a.sketch = b.sketch) ∧
      compareHashKeys a b = (compareHashKeys b a).swap ∧
      ((compareHashKeys a b).isLE → (compareHashKeys b c).isLE → (compareHashKeys a c).isLE) :=
  ⟨compareHashKeys_eq_eq_iff, compareHashKeys_swap a b, TransCmp.isLE_trans⟩

/-! ## Commutative operators -/

theorem normalizeBinop_of_isCommutative (hop : isCommutative op) :
    normalizeBinop op l r = if compareHashKeys l r = .gt then binOp op r l true
      else binOp op l r true := by
  unfold normalizeBinop
  simp only [hop, Bool.true_and, beq_iff_eq]
  split <;> rfl

/-- **The operands of a commutative operator** may be given in either order, and the comparison
tells them apart, if and only if they are equal or differ in what the comparison looks at. -/
theorem normalizeBinop_comm_iff (op : String) (hop : isCommutative op) (l r : HashKey) :
    (normalizeBinop op l r = normalizeBinop op r l ↔ (l.sketch = r.sketch → l = r)) ∧
      ((compareHashKeys l r = .eq ↔ l = r) ↔ (l.sketch = r.sketch → l = r)) := by
  constructor
  · rw [normalizeBinop_of_isCommutative hop, normalizeBinop_of_isCommutative hop,
      ← compareHashKeys_eq_eq_iff, compareHashKeys_swap r l]
    cases h : compareHashKeys l r with
    | lt | gt => simp
    | eq => simp [and_comm, eq_comm]
  · rw [compareHashKeys_eq_eq_iff]
    exact ⟨Iff.mp, fun h => ⟨h, fun heq => congrArg sketch heq⟩⟩

/-- The sum of two names is the same either way. -/
theorem normalizeBinop_comm_iff_names :
    normalizeBinop "+" (name "a") (name "b") = normalizeBinop "+" (name "b") (name "a") :=
  ((normalizeBinop_comm_iff "+" (by decide) (name "a") (name "b")).1).2 fun h => by
    simp [sketch] at h

/-- The sum of two attributes is not. -/
theorem normalizeBinop_attributes : ¬ ∀ (op : String) (l r : HashKey), isCommutative op →
    normalizeBinop op l r = normalizeBinop op r l := by
  intro h
  have := h "+" (.attribute (name "a") "x") (.attribute (name "b") "y") (by decide)
  revert this
  decide

end TldrCode.Gvn.HashKey
