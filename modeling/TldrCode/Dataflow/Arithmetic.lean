import TldrCode.Dataflow.AbstractValue

/-!
# Arithmetic on abstract values

`apply_arithmetic` moves the bounds of a range by a constant. A bound that does not fit into an
`i64` is dropped, so what it computes is the image of the range between the bounds that fit
(`range_applyArithmetic`). The result admits every mathematical integer that the operation can give
(`applyArithmetic_spec`), and its range is the hull of these. A product with zero is the exception:
it gives zero for an empty range too, and knows nothing of a value without a range.
-/

namespace TldrCode.Dataflow

/-! ## Machine integers -/

/-- `i64::MIN`. -/
def i64Min : Int := -2 ^ 63

/-- `i64::MAX`. -/
def i64Max : Int := 2 ^ 63 - 1

/-- The number is an `i64`. -/
def IsI64 (v : Int) : Prop := i64Min ≤ v ∧ v ≤ i64Max

instance (v : Int) : Decidable (IsI64 v) := inferInstanceAs (Decidable (_ ∧ _))

/-- The `i64` closest to the number. -/
def saturate (v : Int) : Int := max i64Min (min i64Max v)

def saturatingAdd (a b : Int) : Int := saturate (a + b)

def saturatingSub (a b : Int) : Int := saturate (a - b)

def checked (v : Int) : Option Int := if IsI64 v then some v else none

def checkedAdd (a b : Int) : Option Int := checked (a + b)

def checkedSub (a b : Int) : Option Int := checked (a - b)

def checkedMul (a b : Int) : Option Int := checked (a * b)

theorem checked_eq_some {v w : Int} : checked v = some w ↔ IsI64 v ∧ v = w := by
  unfold checked
  split
  · next h => simp [h]
  · next h => simp [h]

theorem checked_eq_none {v : Int} : checked v = none ↔ ¬ IsI64 v := by
  simp [checked]

/-- The bounds of the range are `i64`s. -/
def Range.IsI64 (r : Range) : Prop :=
  (∀ low, r.1 = some low → Dataflow.IsI64 low) ∧ ∀ high, r.2 = some high → Dataflow.IsI64 high

/-- The bounds of the value are `i64`s. -/
def AbstractValue.IsI64 (a : AbstractValue) : Prop := ∀ r, a.range = some r → Range.IsI64 r

/-! ## The operations -/

/-- The bound of a sum. A sum that was saturated is dropped. -/
def addBound (constant bound : Int) : Option Int :=
  let result := saturatingAdd bound constant
  if (0 < constant && result == i64Max && bound != i64Max - constant) ||
      (constant < 0 && result == i64Min && bound != i64Min - constant) then none
  else some result

def subBound (constant bound : Int) : Option Int :=
  let result := saturatingSub bound constant
  if (0 < constant && result == i64Min && bound != i64Min + constant) ||
      (constant < 0 && result == i64Max && bound != i64Max + constant) then none
  else some result

/-- `compute_mul`: the bound of a product. -/
def mulBound (constant bound : Int) : Option Int :=
  if constant = 0 then some 0 else checkedMul bound constant

def arithmeticRange (op : Char) (constant : Int) : Range → Range
  | (low, high) =>
    match op with
    | '+' => (low.bind (addBound constant), high.bind (addBound constant))
    | '-' => (low.bind (subBound constant), high.bind (subBound constant))
    | '*' =>
      let lowMul := low.bind (mulBound constant)
      let highMul := high.bind (mulBound constant)
      if constant < 0 then (highMul, lowMul)
      else if constant = 0 then (some 0, some 0)
      else (lowMul, highMul)
    | _ => (none, none)

/-- The constant of the result, given its range. -/
def arithmeticConstant (operand : AbstractValue) (range : Option Range) : Option ConstantValue :=
  if operand.constant.isSome then
    match range with
    | some (some l, some h) => if l = h then some (.int l) else none
    | _ => none
  else none

def applyArithmetic (operand : AbstractValue) (op : Char) (constant : Int) : AbstractValue :=
  let range := operand.range.map (arithmeticRange op constant)
  { type := operand.type
    range := range
    nullable := operand.nullable
    constant := arithmeticConstant operand range }

def arithmetic (op : Char) (x constant : Int) : Int :=
  match op with
  | '+' => x + constant
  | '-' => x - constant
  | _ => x * constant

def IsOperator (op : Char) : Prop := op = '+' ∨ op = '-' ∨ op = '*'

section

variable {c l x : Int} {r s : Range} {a : AbstractValue} {op : Char} {f : Int → Int}

theorem addBound_eq (hc : IsI64 c) (hl : IsI64 l) : addBound c l = checked (l + c) := by
  unfold IsI64 i64Min i64Max at hc hl
  simp only [addBound, saturatingAdd, saturate, i64Min, i64Max, Bool.or_eq_true, Bool.and_eq_true,
    decide_eq_true_eq, beq_iff_eq, bne_iff_ne]
  symm
  split
  · rw [checked_eq_none]
    unfold IsI64 i64Min i64Max
    omega
  · rw [checked_eq_some]
    unfold IsI64 i64Min i64Max
    omega

theorem subBound_eq (hc : IsI64 c) (hl : IsI64 l) : subBound c l = checked (l - c) := by
  unfold IsI64 i64Min i64Max at hc hl
  simp only [subBound, saturatingSub, saturate, i64Min, i64Max, Bool.or_eq_true, Bool.and_eq_true,
    decide_eq_true_eq, beq_iff_eq, bne_iff_ne]
  symm
  split
  · rw [checked_eq_none]
    unfold IsI64 i64Min i64Max
    omega
  · rw [checked_eq_some]
    unfold IsI64 i64Min i64Max
    omega

theorem mulBound_eq : mulBound c l = checked (l * c) := by
  unfold mulBound
  split
  · next h =>
    subst h
    rw [Int.mul_zero]
    rfl
  · rfl

/-- The range between the images of the bounds, as far as these fit. -/
def imageRange (f : Int → Int) (r : Range) : Range :=
  (r.1.bind fun b => checked (f b), r.2.bind fun b => checked (f b))

/-- **What the bounds become.** A factor below zero exchanges them. -/
theorem arithmeticRange_eq (hc : IsI64 c) (hr : r.IsI64) (hop : IsOperator op) :
    arithmeticRange op c r =
      if op = '*' ∧ c = 0 then (some 0, some 0)
      else if op = '*' ∧ c < 0 then (imageRange (arithmetic op · c) r).swap
      else imageRange (arithmetic op · c) r := by
  obtain ⟨low, high⟩ := r
  have hbound : ∀ f g : Int → Option Int, (∀ b, IsI64 b → f b = g b) →
      low.bind f = low.bind g ∧ high.bind f = high.bind g := by
    intro f g hfg
    constructor
    · cases low with
      | none => rfl
      | some b => exact hfg b (hr.1 b rfl)
    · cases high with
      | none => rfl
      | some b => exact hfg b (hr.2 b rfl)
  obtain rfl | rfl | rfl := hop
  · obtain ⟨hlow, hhigh⟩ := hbound _ _ fun b hb => addBound_eq hc hb
    simp [arithmeticRange, imageRange, arithmetic, hlow, hhigh]
  · obtain ⟨hlow, hhigh⟩ := hbound _ _ fun b hb => subBound_eq hc hb
    simp [arithmeticRange, imageRange, arithmetic, hlow, hhigh]
  · obtain ⟨hlow, hhigh⟩ := hbound (mulBound c) _ fun b _ => mulBound_eq
    simp only [arithmeticRange, imageRange, arithmetic, hlow, hhigh, true_and]
    split
    · next h =>
      rw [if_neg (by omega)]
      rfl
    · split
      · rfl
      · rfl

/-! ## Soundness -/

theorem inRange_imageRange (hf : ∀ x y, x ≤ y → f x ≤ f y) (hx : InRange r x) :
    InRange (imageRange f r) (f x) := by
  constructor
  · intro low hlow
    obtain ⟨b, hb, hfb⟩ := Option.bind_eq_some_iff.1 hlow
    rw [← (checked_eq_some.1 hfb).2]
    exact hf b x (hx.1 b hb)
  · intro high hhigh
    obtain ⟨b, hb, hfb⟩ := Option.bind_eq_some_iff.1 hhigh
    rw [← (checked_eq_some.1 hfb).2]
    exact hf x b (hx.2 b hb)

theorem inRange_imageRange_swap (hf : ∀ x y, x ≤ y → f y ≤ f x) (hx : InRange r x) :
    InRange (imageRange f r).swap (f x) := by
  constructor
  · intro low hlow
    obtain ⟨b, hb, hfb⟩ := Option.bind_eq_some_iff.1 hlow
    rw [← (checked_eq_some.1 hfb).2]
    exact hf x b (hx.2 b hb)
  · intro high hhigh
    obtain ⟨b, hb, hfb⟩ := Option.bind_eq_some_iff.1 hhigh
    rw [← (checked_eq_some.1 hfb).2]
    exact hf b x (hx.1 b hb)

theorem inRange_zero_iff : InRange (some 0, some 0) x ↔ x = 0 := by
  simp only [InRange, Option.some.injEq, forall_eq']
  omega

theorem arithmetic_mono (hop : IsOperator op) (h : ¬ (op = '*' ∧ c < 0)) {x y : Int}
    (hxy : x ≤ y) : arithmetic op x c ≤ arithmetic op y c := by
  obtain rfl | rfl | rfl := hop
  · exact Int.add_le_add_right hxy c
  · exact Int.sub_le_sub_right hxy c
  · have hc : 0 ≤ c := by
      by_contra hneg
      exact h ⟨rfl, by omega⟩
    exact Int.mul_le_mul_of_nonneg_right hxy hc

theorem inRange_arithmeticRange (hc : IsI64 c) (hr : r.IsI64) (hop : IsOperator op)
    (hx : InRange r x) : InRange (arithmeticRange op c r) (arithmetic op x c) := by
  rw [arithmeticRange_eq hc hr hop]
  split
  · next h =>
    obtain ⟨rfl, rfl⟩ := h
    have hzero : arithmetic '*' x 0 = 0 := Int.mul_zero x
    rw [hzero]
    exact inRange_zero_iff.2 rfl
  · split
    · next h =>
      obtain ⟨rfl, hneg⟩ := h
      exact inRange_imageRange_swap
        (fun x y hxy => Int.mul_le_mul_of_nonpos_right hxy (Int.le_of_lt hneg)) hx
    · next h => exact inRange_imageRange (fun x y hxy => arithmetic_mono hop h hxy) hx

theorem admits_applyArithmetic (hc : IsI64 c) (ha : a.IsI64) (hop : IsOperator op)
    (hx : a.Admits (.int x)) : (applyArithmetic a op c).Admits (.int (arithmetic op x c)) := by
  have hrange : ∀ r, (applyArithmetic a op c).range = some r →
      InRange r (arithmetic op x c) := by
    intro r hr
    obtain ⟨s, hs, rfl⟩ := Option.map_eq_some_iff.1 hr
    exact inRange_arithmeticRange hc (ha s hs) hop (hx.range s hs x rfl)
  refine ⟨hx.nullable, hx.type, ?_, ?_⟩
  · intro k hk
    refine ⟨.int (arithmetic op x c), rfl, ?_⟩
    change arithmeticConstant a (applyArithmetic a op c).range = some k at hk
    unfold arithmeticConstant at hk
    split at hk
    · split at hk
      · next l h hr =>
        rw [Option.ite_none_right_eq_some] at hk
        obtain ⟨rfl, hk⟩ := hk
        cases hk
        have hin := hrange _ hr
        have heq : l = arithmetic op x c :=
          Int.le_antisymm (hin.1 l rfl) (hin.2 l rfl)
        simp [ConstantValue.eq, heq]
      · cases hk
    · cases hk
  · intro r hr m hm
    cases hm
    exact hrange r hr

/-! ## The hull -/

/-- The range is the least one around the numbers. -/
structure IsHull (r : Range) (S : Int → Prop) : Prop where
  mem : ∀ m, S m → InRange r m
  least : ∀ s : Range, (∀ m, S m → InRange s m) → ∀ m, InRange r m → InRange s m

/-- The bounds of a value; without a range it has none. -/
def AbstractValue.bounds (a : AbstractValue) : Range := a.range.getD (none, none)

theorem AbstractValue.bounds_of_none (h : a.range = none) : a.bounds = (none, none) := by
  unfold bounds
  rw [h]
  rfl

theorem AbstractValue.bounds_of_some (h : a.range = some r) : a.bounds = r := by
  unfold bounds
  rw [h]
  rfl

theorem inRange_none (m : Int) : InRange (none, none) m := ⟨nofun, nofun⟩

/-- What the operation gives for the numbers in the range. -/
def Results (op : Char) (c : Int) (r : Range) (m : Int) : Prop :=
  ∃ x, InRange r x ∧ m = arithmetic op x c

/-- The operation does not overflow on any bound. -/
def NoOverflow (op : Char) (c : Int) (r : Range) : Prop :=
  (∀ low, r.1 = some low → IsI64 (arithmetic op low c)) ∧
    ∀ high, r.2 = some high → IsI64 (arithmetic op high c)

theorem inRange_imageRange_iff {m : Int} (hlow : ∀ low, r.1 = some low → IsI64 (f low))
    (hhigh : ∀ high, r.2 = some high → IsI64 (f high)) : InRange (imageRange f r) m ↔
      (∀ low, r.1 = some low → f low ≤ m) ∧ ∀ high, r.2 = some high → m ≤ f high := by
  constructor
  · intro h
    constructor
    · intro low hl
      exact h.1 _ (Option.bind_eq_some_iff.2 ⟨low, hl, checked_eq_some.2 ⟨hlow low hl, rfl⟩⟩)
    · intro high hh
      exact h.2 _ (Option.bind_eq_some_iff.2 ⟨high, hh, checked_eq_some.2 ⟨hhigh high hh, rfl⟩⟩)
  · intro h
    constructor
    · intro low hl
      obtain ⟨b, hb, hfb⟩ := Option.bind_eq_some_iff.1 hl
      rw [← (checked_eq_some.1 hfb).2]
      exact h.1 b hb
    · intro high hh
      obtain ⟨b, hb, hfb⟩ := Option.bind_eq_some_iff.1 hh
      rw [← (checked_eq_some.1 hfb).2]
      exact h.2 b hb

theorem exists_multiples (hc : 0 < c) (m : Int) : ∃ x y, x * c ≤ m ∧ m ≤ y * c ∧
    (∀ low, low * c ≤ m → low ≤ x ∧ low ≤ y) ∧ ∀ high, m ≤ high * c → x ≤ high ∧ y ≤ high := by
  have hx : m / c * c ≤ m := Int.ediv_mul_le m (Int.ne_of_gt hc)
  have hy : -m / c * c ≤ -m := Int.ediv_mul_le (-m) (Int.ne_of_gt hc)
  refine ⟨m / c, -(-m / c), hx, by rw [Int.neg_mul]; omega, ?_, ?_⟩
  · intro low hlow
    constructor
    · exact Int.le_ediv_of_mul_le hc hlow
    · have hle : -m / c ≤ -low := Int.ediv_le_of_le_mul hc (by rw [Int.neg_mul]; omega)
      omega
  · intro high hhigh
    constructor
    · exact Int.ediv_le_of_le_mul hc hhigh
    · have hle : -high ≤ -m / c := Int.le_ediv_of_mul_le hc (by rw [Int.neg_mul]; omega)
      omega

theorem between_results (hc : IsI64 c) (hr : r.IsI64) (hop : IsOperator op)
    (hno : NoOverflow op c r) (hzero : ¬ (op = '*' ∧ c = 0)) {m : Int}
    (hm : InRange (arithmeticRange op c r) m) : ∃ x y, InRange r x ∧ InRange r y ∧
      arithmetic op x c ≤ m ∧ m ≤ arithmetic op y c := by
  rw [arithmeticRange_eq hc hr hop, if_neg hzero] at hm
  obtain rfl | rfl | rfl := hop
  · rw [if_neg (by simp), inRange_imageRange_iff hno.1 hno.2] at hm
    have hin : InRange r (m - c) := by
      constructor
      · intro low hl
        have hle : low + c ≤ m := hm.1 low hl
        omega
      · intro high hh
        have hle : m ≤ high + c := hm.2 high hh
        omega
    exact ⟨m - c, m - c, hin, hin, Int.le_of_eq (Int.sub_add_cancel m c),
      Int.le_of_eq (Int.sub_add_cancel m c).symm⟩
  · rw [if_neg (by simp), inRange_imageRange_iff hno.1 hno.2] at hm
    have hin : InRange r (m + c) := by
      constructor
      · intro low hl
        have hle : low - c ≤ m := hm.1 low hl
        omega
      · intro high hh
        have hle : m ≤ high - c := hm.2 high hh
        omega
    exact ⟨m + c, m + c, hin, hin, Int.le_of_eq (Int.add_sub_cancel m c),
      Int.le_of_eq (Int.add_sub_cancel m c).symm⟩
  · obtain hneg | rfl | hpos := Int.lt_trichotomy c 0
    · rw [if_pos ⟨rfl, hneg⟩] at hm
      change InRange (imageRange (arithmetic '*' · c) r.swap) m at hm
      rw [inRange_imageRange_iff hno.2 hno.1] at hm
      obtain ⟨x, y, hx, hy, hlow', hhigh⟩ := exists_multiples (Int.neg_pos_of_neg hneg) m
      have hneg_mul : ∀ z : Int, z * -c = -z * c := fun z => by rw [Int.mul_neg, Int.neg_mul]
      rw [hneg_mul] at hx hy
      have hlow : ∀ low, r.1 = some low → x ≤ -low ∧ y ≤ -low := by
        intro low hl
        refine hhigh (-low) ?_
        rw [hneg_mul, Int.neg_neg]
        exact hm.2 low hl
      have hhigh : ∀ high, r.2 = some high → -high ≤ x ∧ -high ≤ y := by
        intro high hh
        refine hlow' (-high) ?_
        rw [hneg_mul, Int.neg_neg]
        exact hm.1 high hh
      refine ⟨-x, -y, ⟨fun low hl => ?_, fun high hh => ?_⟩, ⟨fun low hl => ?_, fun high hh => ?_⟩,
        hx, hy⟩
      · have hle := (hlow low hl).1
        omega
      · have hle := (hhigh high hh).1
        omega
      · have hle := (hlow low hl).2
        omega
      · have hle := (hhigh high hh).2
        omega
    · exact absurd ⟨rfl, rfl⟩ hzero
    · rw [if_neg (by omega), inRange_imageRange_iff hno.1 hno.2] at hm
      obtain ⟨x, y, hx, hy, hlow, hhigh⟩ := exists_multiples hpos m
      exact ⟨x, y, ⟨fun low hl => (hlow low (hm.1 low hl)).1,
          fun high hh => (hhigh high (hm.2 high hh)).1⟩,
        ⟨fun low hl => (hlow low (hm.1 low hl)).2,
          fun high hh => (hhigh high (hm.2 high hh)).2⟩, hx, hy⟩


theorem InRange.between {m n p : Int} (hm : InRange r m) (hn : InRange r n) (h₁ : m ≤ p)
    (h₂ : p ≤ n) : InRange r p :=
  ⟨fun low hl => Int.le_trans (hm.1 low hl) h₁, fun high hh => Int.le_trans h₂ (hn.2 high hh)⟩

/-- Where nothing overflows, the range of the result is the hull of what the operation gives, unless
it is a product of an empty range with zero. -/
theorem isHull_arithmeticRange (hc : IsI64 c) (hr : r.IsI64) (hop : IsOperator op)
    (hno : NoOverflow op c r) (hzero : op = '*' → c = 0 → ∃ x, InRange r x) :
    IsHull (arithmeticRange op c r) (Results op c r) where
  mem := by
    rintro m ⟨x, hx, rfl⟩
    exact inRange_arithmeticRange hc hr hop hx
  least := by
    intro s hs m hm
    by_cases h : op = '*' ∧ c = 0
    · obtain ⟨x, hx⟩ := hzero h.1 h.2
      rw [arithmeticRange_eq hc hr hop, if_pos h, inRange_zero_iff] at hm
      have hresult : arithmetic op x c = 0 := by
        rw [h.1, h.2]
        exact Int.mul_zero x
      rw [hm, ← hresult]
      exact hs _ ⟨x, hx, rfl⟩
    · obtain ⟨x, y, hx, hy, hxm, hmy⟩ := between_results hc hr hop hno h hm
      exact (hs _ ⟨x, hx, rfl⟩).between (hs _ ⟨y, hy, rfl⟩) hxm hmy

/-- The value has a range, and the range is not empty. -/
def AbstractValue.HasRange (a : AbstractValue) : Prop := ∃ r x, a.range = some r ∧ InRange r x

theorem isHull_applyArithmetic (hc : IsI64 c) (ha : a.IsI64) (hop : IsOperator op)
    (hno : NoOverflow op c a.bounds) (hzero : op = '*' → c = 0 → a.HasRange) :
    IsHull (applyArithmetic a op c).bounds (Results op c a.bounds) := by
  cases hr : a.range with
  | none =>
    have hnot : ¬ (op = '*' ∧ c = 0) := by
      intro h
      obtain ⟨r, x, hsome, -⟩ := hzero h.1 h.2
      rw [hr] at hsome
      cases hsome
    have hI64 : Range.IsI64 (none, none) := ⟨nofun, nofun⟩
    have hnone : arithmeticRange op c (none, none) = (none, none) := by
      rw [arithmeticRange_eq hc hI64 hop, if_neg hnot]
      split
      · rfl
      · rfl
    have hresult : (applyArithmetic a op c).range = none := by
      simp [applyArithmetic, hr]
    rw [AbstractValue.bounds_of_none hr] at hno ⊢
    have hhull := isHull_arithmeticRange hc hI64 hop hno fun h₁ h₂ => absurd ⟨h₁, h₂⟩ hnot
    rw [hnone] at hhull
    rw [AbstractValue.bounds_of_none hresult]
    exact hhull
  | some r =>
    have hresult : (applyArithmetic a op c).range = some (arithmeticRange op c r) := by
      simp [applyArithmetic, hr]
    rw [AbstractValue.bounds_of_some hr] at hno ⊢
    rw [AbstractValue.bounds_of_some hresult]
    apply isHull_arithmeticRange hc (ha r hr) hop hno
    intro h₁ h₂
    obtain ⟨s, x, hs, hx⟩ := hzero h₁ h₂
    rw [hr] at hs
    cases hs
    exact ⟨x, hx⟩

/-- What the operation gives for the integers that the operand admits is admitted by the result.
Where no bound overflows, the range of the result is the hull, unless the operand is multiplied by
zero and has no range or an empty one. -/
theorem applyArithmetic_spec (a : AbstractValue) (op : Char) (c : Int) (hc : IsI64 c)
    (ha : a.IsI64) (hop : IsOperator op) :
    (∀ x, a.Admits (.int x) → (applyArithmetic a op c).Admits (.int (arithmetic op x c))) ∧
      (NoOverflow op c a.bounds → (op = '*' → c = 0 → a.HasRange) →
        IsHull (applyArithmetic a op c).bounds (Results op c a.bounds)) :=
  ⟨fun _ => admits_applyArithmetic hc ha hop, isHull_applyArithmetic hc ha hop⟩

/-- The integers from `-3` on, times `-2`. -/
theorem applyArithmetic_spec_neg :
    (applyArithmetic ⟨some "int", some (some (-3), none), .never, none⟩ '*' (-2)).Admits
        (.int (-14)) ∧
      IsHull (none, some 6) (Results '*' (-2) (some (-3), none)) := by
  have hI64 : AbstractValue.IsI64 ⟨some "int", some (some (-3), none), .never, none⟩ := by
    intro r hr
    cases hr
    refine ⟨fun low h => ?_, nofun⟩
    cases h
    decide
  have hspec := applyArithmetic_spec ⟨some "int", some (some (-3), none), .never, none⟩ '*' (-2)
    (by decide) hI64 (.inr (.inr rfl))
  refine ⟨hspec.1 7 ⟨nofun, ?_, nofun, ?_⟩, hspec.2 ⟨fun low h => ?_, nofun⟩ fun _ h => ?_⟩
  · intro t ht
    cases ht
    rfl
  · intro r hr m hm
    cases hr
    cases hm
    refine ⟨fun low h => ?_, nofun⟩
    cases h
    decide
  · cases h
    decide
  · exact absurd h (by decide)

/-- Nothing is known of an unknown value times zero, although the product is zero. -/
theorem top_mul_zero_not_hull : ¬ ∀ (a : AbstractValue) (op : Char) (c : Int), IsI64 c → a.IsI64 →
    IsOperator op →
      (∀ x, a.Admits (.int x) → (applyArithmetic a op c).Admits (.int (arithmetic op x c))) ∧
        (NoOverflow op c a.bounds →
          IsHull (applyArithmetic a op c).bounds (Results op c a.bounds)) := by
  intro h
  have htop : AbstractValue.top.bounds = (none, none) := AbstractValue.bounds_of_none rfl
  have hno : NoOverflow '*' 0 AbstractValue.top.bounds := by
    rw [htop]
    exact ⟨nofun, nofun⟩
  have hhull := (h .top '*' 0 (by decide) nofun (.inr (.inr rfl))).2 hno
  have hone : InRange (applyArithmetic .top '*' 0).bounds 1 := by
    rw [AbstractValue.bounds_of_none rfl]
    exact inRange_none 1
  have hzero := hhull.least (some 0, some 0)
    (by
      rintro m ⟨x, -, rfl⟩
      exact inRange_zero_iff.2 (Int.mul_zero x)) 1 hone
  exact absurd (inRange_zero_iff.1 hzero) (by decide)

end

end TldrCode.Dataflow
