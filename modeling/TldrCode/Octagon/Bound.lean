import Mathlib.Algebra.Order.Monoid.WithTop
import Mathlib.Algebra.Order.Ring.Rat
import Mathlib.Data.Rat.Cast.Order
import Mathlib.Data.Real.Basic
import TldrCode.Dataflow.Arithmetic

/-!
# Bounds

`dataflow/octagon/bound.rs`: the operations of the trait `Bound`, the exact numbers in place of
`f64`, and `i64`, whose extremes stand for the infinities and whose sums saturate. Both stand for
exact bounds (`ExactBound`), and an exact bound admits real numbers (`Admits`).
-/

namespace TldrCode.Octagon

open Dataflow (i64Min i64Max IsI64 saturate)

/-! ## Machine integers -/

@[ext]
structure I64 where
  val : Int
  isI64 : IsI64 val
  deriving DecidableEq

namespace I64

/-- The result of an operator on `i64`, which wraps around as in a release build. -/
def wrap (v : Int) : I64 where
  val := (v + 2 ^ 63) % 2 ^ 64 - 2 ^ 63
  isI64 := by
    unfold IsI64 i64Min i64Max
    omega

/-- The `i64` closest to the number. -/
def saturating (v : Int) : I64 where
  val := saturate v
  isI64 := by
    unfold IsI64 saturate i64Min i64Max
    omega

def max : I64 := ⟨i64Max, by decide⟩

def min : I64 := ⟨i64Min, by decide⟩

instance : LinearOrder I64 := LinearOrder.lift' I64.val fun _ _ => I64.ext

theorem le_iff {a b : I64} : a ≤ b ↔ a.val ≤ b.val := Iff.rfl

theorem wrap_val {v : Int} (h : IsI64 v) : (wrap v).val = v := by
  unfold IsI64 i64Min i64Max at h
  unfold wrap
  dsimp only
  omega

end I64

/-! ## The trait -/

/-- The operations of the trait `Bound`: `closure_add` is `+`, `infinity()` is `⊤` and `zero()` is
`0`. -/
class Bound (B : Type*) extends LinearOrder B, Add B, Zero B, Top B where
  half : B → B
  neg : B → B
  tighten : B → B
  fromI64 : I64 → B

class LawfulBound (B : Type*) extends Bound B, AddCommMonoid B, IsOrderedAddMonoid B,
    OrderTop B where
  top_add : ∀ a : B, ⊤ + a = ⊤
  half_mono : Monotone half
  half_add : ∀ a b : B, half (a + b) = half a + half b
  half_add_half : ∀ a : B, half a + half a = a

/-- Exact bounds: the rational numbers with `NEG_INFINITY`, and `INFINITY`, which absorbs it. -/
abbrev Exact := WithTop (WithBot ℚ)

def Exact.neg : Exact → Exact
  | none => ((⊥ : WithBot ℚ) : Exact)
  | some none => ⊤
  | some (some q) => ((-q : ℚ) : WithBot ℚ)

instance : Bound Exact where
  half := WithTop.map (WithBot.map (· / 2))
  neg := Exact.neg
  tighten a := a
  fromI64 c := ((c.val : ℚ) : WithBot ℚ)

instance : LawfulBound Exact where
  add_le_add_left := fun _ _ h c => add_le_add_left h c
  top_add := WithTop.top_add
  half_mono := by
    refine WithTop.monotone_map_iff.2 (WithBot.monotone_map_iff.2 fun a b h => ?_)
    exact div_le_div_of_nonneg_right h (by norm_num)
  half_add a b := by
    cases a using WithTop.recTopCoe with
    | top => rfl
    | coe a =>
      cases b using WithTop.recTopCoe with
      | top => rfl
      | coe b =>
        cases a using WithBot.recBotCoe with
        | bot => rfl
        | coe a =>
          cases b using WithBot.recBotCoe with
          | bot => rfl
          | coe b => exact congrArg (fun q : ℚ => ((q : WithBot ℚ) : Exact)) (add_div a b 2)
  half_add_half a := by
    cases a using WithTop.recTopCoe with
    | top => rfl
    | coe a =>
      cases a using WithBot.recBotCoe with
      | bot => rfl
      | coe a => exact congrArg (fun q : ℚ => ((q : WithBot ℚ) : Exact)) (add_halves a)

namespace I64

/-- `add` and `closure_add`. -/
def add (a b : I64) : I64 :=
  if a = max ∨ b = max then max
  else if a = min ∨ b = min then min
  else saturating (a.val + b.val)

def half (a : I64) : I64 :=
  if 0 ≤ a.val then wrap (a.val.tdiv 2) else wrap ((wrap (a.val - 1)).val.tdiv 2)

def neg (a : I64) : I64 := if a = min then max else if a = max then min else wrap (-a.val)

def tighten (a : I64) : I64 :=
  if a = max ∨ a = min then a else saturating (a.half.val * 2)

instance : Bound I64 where
  add := add
  zero := ⟨0, by decide⟩
  top := max
  half := half
  neg := neg
  tighten := tighten
  fromI64 c := c

end I64

/-! ## Bounds on reals -/

def Admits : Exact → ℝ → Prop
  | none, _ => True
  | some none, _ => False
  | some (some q), r => r ≤ q

theorem Admits.mono {a b : Exact} {r s : ℝ} (h : Admits a r) (hab : a ≤ b) (hsr : s ≤ r) :
    Admits b s := by
  cases b using WithTop.recTopCoe with
  | top => trivial
  | coe b =>
    cases a using WithTop.recTopCoe with
    | top => exact absurd hab (WithTop.coe_lt_top b).not_ge
    | coe a =>
      have hab := WithTop.coe_le_coe.1 hab
      cases a using WithBot.recBotCoe with
      | bot => exact absurd h id
      | coe a =>
        cases b using WithBot.recBotCoe with
        | bot => exact absurd hab (WithBot.bot_lt_coe a).not_ge
        | coe b =>
          have h : r ≤ (a : ℝ) := h
          have hq : (a : ℝ) ≤ (b : ℝ) := Rat.cast_le.2 (WithBot.coe_le_coe.1 hab)
          exact hsr.trans (h.trans hq)

theorem Admits.add {a b : Exact} {r s : ℝ} (ha : Admits a r) (hb : Admits b s) :
    Admits (a + b) (r + s) := by
  cases a using WithTop.recTopCoe with
  | top => trivial
  | coe a =>
    cases b using WithTop.recTopCoe with
    | top => trivial
    | coe b =>
      cases a using WithBot.recBotCoe with
      | bot => exact absurd ha id
      | coe a =>
        cases b using WithBot.recBotCoe with
        | bot => exact absurd hb id
        | coe b =>
          have ha : r ≤ (a : ℝ) := ha
          have hb : s ≤ (b : ℝ) := hb
          change r + s ≤ ((a + b : ℚ) : ℝ)
          rw [Rat.cast_add]
          exact add_le_add ha hb

theorem Admits.half {a : Exact} {r : ℝ} (h : Admits a r) : Admits (Bound.half a) (r / 2) := by
  cases a using WithTop.recTopCoe with
  | top => trivial
  | coe a =>
    cases a using WithBot.recBotCoe with
    | bot => exact absurd h id
    | coe a =>
      have h : r ≤ (a : ℝ) := h
      change r / 2 ≤ ((a / 2 : ℚ) : ℝ)
      rw [Rat.cast_div, Rat.cast_ofNat]
      exact div_le_div_of_nonneg_right h (by norm_num)

theorem admits_zero {a : Exact} : Admits a 0 ↔ 0 ≤ a := by
  constructor
  · intro h
    cases a using WithTop.recTopCoe with
    | top => exact le_top
    | coe a =>
      cases a using WithBot.recBotCoe with
      | bot => exact absurd h id
      | coe a =>
        have h : (0 : ℝ) ≤ (a : ℝ) := h
        exact WithTop.coe_le_coe.2 (WithBot.coe_le_coe.2 (Rat.cast_nonneg.1 h))
  · intro h
    have hz : Admits 0 0 := by
      change (0 : ℝ) ≤ ((0 : ℚ) : ℝ)
      rw [Rat.cast_zero]
    exact hz.mono h le_rfl

theorem not_admits_bot (r : ℝ) : ¬ Admits ((⊥ : WithBot ℚ) : Exact) r := id

/-! ## Bounds that stand for exact ones -/

/-- The bounds stand for exact ones, in the same order. -/
class ExactBound (B : Type*) extends Bound B where
  toExact : B → Exact
  toExact_le_iff : ∀ {a b : B}, toExact a ≤ toExact b ↔ a ≤ b
  toExact_top : toExact ⊤ = ⊤
  toExact_zero : toExact 0 = 0

instance : ExactBound Exact where
  toExact a := a
  toExact_le_iff := Iff.rfl
  toExact_top := rfl
  toExact_zero := rfl

namespace I64

theorem val_le_max (a : I64) : a.val ≤ i64Max := a.isI64.2

theorem min_le_val (a : I64) : i64Min ≤ a.val := a.isI64.1

theorem eq_max_iff {a : I64} : a = max ↔ a.val = i64Max := I64.ext_iff

theorem eq_min_iff {a : I64} : a = min ↔ a.val = i64Min := I64.ext_iff

def toExact (a : I64) : Exact :=
  if a = max then ⊤
  else if a = min then ((⊥ : WithBot ℚ) : Exact)
  else (((a.val : ℚ) : WithBot ℚ) : Exact)

@[simp] theorem toExact_max : toExact max = ⊤ := if_pos rfl

@[simp] theorem toExact_min : toExact min = ((⊥ : WithBot ℚ) : Exact) := rfl

theorem toExact_of_ne {a : I64} (hmax : a ≠ max) (hmin : a ≠ min) :
    a.toExact = (((a.val : ℚ) : WithBot ℚ) : Exact) := by
  rw [toExact, if_neg hmax, if_neg hmin]

theorem toExact_le_iff {a b : I64} : a.toExact ≤ b.toExact ↔ a ≤ b := by
  rw [le_iff]
  by_cases hbmax : b = max
  · rw [hbmax, toExact_max]
    exact iff_of_true le_top a.val_le_max
  by_cases hamax : a = max
  · have hlt : b.toExact < ⊤ := by
      by_cases hbmin : b = min
      · rw [hbmin]
        exact WithTop.coe_lt_top _
      · rw [toExact_of_ne hbmax hbmin]
        exact WithTop.coe_lt_top _
    rw [hamax, toExact_max]
    rw [eq_max_iff] at hbmax
    have hb := b.val_le_max
    exact iff_of_false hlt.not_ge fun h => hbmax (le_antisymm hb h)
  by_cases hamin : a = min
  · rw [hamin, toExact_min]
    exact iff_of_true bot_le b.min_le_val
  rw [toExact_of_ne hamax hamin]
  by_cases hbmin : b = min
  · rw [hbmin, toExact_min, WithTop.coe_le_coe]
    rw [eq_min_iff] at hamin
    have ha := a.min_le_val
    exact iff_of_false (WithBot.bot_lt_coe _).not_ge fun h => hamin (le_antisymm h ha)
  · rw [toExact_of_ne hbmax hbmin, WithTop.coe_le_coe, WithBot.coe_le_coe, Int.cast_le]

instance : ExactBound I64 where
  toExact := toExact
  toExact_le_iff := toExact_le_iff
  toExact_top := toExact_max
  toExact_zero := by
    show toExact ⟨0, by decide⟩ = 0
    rw [toExact_of_ne (by decide) (by decide), Int.cast_zero]
    rfl

/-- **What an `i64` admits** as a bound. -/
theorem admits_iff {a : I64} {r : ℝ} : Admits (ExactBound.toExact a) r ↔
    a = max ∨ a ≠ min ∧ r ≤ a.val := by
  show Admits a.toExact r ↔ _
  by_cases hmax : a = max
  · rw [hmax, toExact_max]
    exact iff_of_true trivial (.inl rfl)
  by_cases hmin : a = min
  · rw [hmin, toExact_min]
    have hne : min ≠ max := by decide
    exact iff_of_false (not_admits_bot r) (by simp [hne])
  rw [toExact_of_ne hmax hmin, or_iff_right hmax, and_iff_right hmin]
  show r ≤ ((a.val : ℚ) : ℝ) ↔ _
  rw [Rat.cast_intCast]

theorem admits_int_iff {a : I64} {z : Int} : Admits (ExactBound.toExact a) z ↔
    a = max ∨ a ≠ min ∧ z ≤ a.val := by
  rw [admits_iff, Int.cast_le]

end I64

end TldrCode.Octagon
