import Mathlib.Data.Set.Finite.Basic
import Mathlib.Order.OrderIsoNat
import TldrCode.Dataflow.Arithmetic

/-!
# Widening

`widen_value` takes the components of the new value, and of its bounds the ones that do not grow. So
it covers the new value always, and the old one only where the new one is not tighter
(`admits_widenValue_left_iff`). Where both values have a range the bounds move towards each other or
go; a range that only one of them has appears and disappears with the new value.
`widenings_correct_iff` says for which sequences of new values the widening does its job.
-/

namespace TldrCode.Dataflow

/-! ## The operations -/

/-- The low bound: it goes if it grows downward. -/
def widenLow : Option Int → Option Int → Option Int
  | none, _ => none
  | some _, none => none
  | some old, some new => if new < old then none else some new

/-- The high bound: it goes if it grows upward. -/
def widenHigh : Option Int → Option Int → Option Int
  | none, _ => none
  | some _, none => none
  | some old, some new => if old < new then none else some new

/-- `widened_range`. -/
def widenRange : Option Range → Option Range → Option Range
  | none, none => none
  | none, some r => some r
  | some _, none => none
  | some (oldLow, oldHigh), some (newLow, newHigh) =>
    some (widenLow oldLow newLow, widenHigh oldHigh newHigh)

def widenValue (old new : AbstractValue) : AbstractValue where
  type := new.type
  range := widenRange old.range new.range
  nullable := new.nullable
  constant := none

def widenState (ord : HashOrder) (old new : AbstractState) : AbstractState :=
  .ofVars (ord.order (AbstractState.allVars [old, new])) fun var =>
    widenValue (old.get var) (new.get var)

/-- A state is widened variable by variable: one that neither state has stays unknown. -/
theorem AbstractState.get_widenState (ord : HashOrder) (old new : AbstractState) (var : String) :
    (widenState ord old new).get var = widenValue (old.get var) (new.get var) := by
  unfold widenState
  rw [get_ofVars]
  split
  · rfl
  · next h =>
    have hnot : var ∉ old.values.keys ∧ var ∉ new.values.keys := by simpa [allVars] using h
    rw [get_of_notMem hnot.1, get_of_notMem hnot.2]
    rfl

section

variable {old new : AbstractValue} {r s : Range} {m l : Int}

theorem widenLow_eq_some {o n : Option Int} :
    widenLow o n = some l ↔ n = some l ∧ ∃ k, o = some k ∧ k ≤ l := by
  cases o with
  | none => simp [widenLow]
  | some o =>
    cases n with
    | none => simp [widenLow]
    | some n =>
      simp only [widenLow, Option.some.injEq]
      split
      · simp only [reduceCtorEq, exists_eq_left', false_iff]
        omega
      · simp only [Option.some.injEq, exists_eq_left']
        omega

theorem widenHigh_eq_some {o n : Option Int} {h : Int} :
    widenHigh o n = some h ↔ n = some h ∧ ∃ k, o = some k ∧ h ≤ k := by
  cases o with
  | none => simp [widenHigh]
  | some o =>
    cases n with
    | none => simp [widenHigh]
    | some n =>
      simp only [widenHigh, Option.some.injEq]
      split
      · simp only [reduceCtorEq, exists_eq_left', false_iff]
        omega
      · simp only [Option.some.injEq, exists_eq_left']
        omega

/-- A low bound of the result is the one of the new range, and the old range is not open there. -/
theorem low_widenRange {o n : Option Range} (h : widenRange o n = some r) (hl : r.1 = some l) :
    ∃ s, n = some s ∧ s.1 = some l ∧ ∀ t, o = some t → t.1 ≠ none := by
  cases n with
  | none => cases o <;> cases h
  | some s =>
    cases o with
    | none =>
      cases h
      exact ⟨_, rfl, hl, nofun⟩
    | some t =>
      cases h
      obtain ⟨hs, k, hk, -⟩ := widenLow_eq_some.1 hl
      refine ⟨s, rfl, hs, fun t' ht => ?_⟩
      cases ht
      rw [hk]
      exact nofun

/-- A high bound of the result is the one of the new range, and the old range is not open there. -/
theorem high_widenRange {o n : Option Range} (h : widenRange o n = some r) (hl : r.2 = some l) :
    ∃ s, n = some s ∧ s.2 = some l ∧ ∀ t, o = some t → t.2 ≠ none := by
  cases n with
  | none => cases o <;> cases h
  | some s =>
    cases o with
    | none =>
      cases h
      exact ⟨_, rfl, hl, nofun⟩
    | some t =>
      cases h
      obtain ⟨hs, k, hk, -⟩ := widenHigh_eq_some.1 hl
      refine ⟨s, rfl, hs, fun t' ht => ?_⟩
      cases ht
      rw [hk]
      exact nofun

theorem isSome_widenRange (o n : Option Range) : (widenRange o n).isSome = n.isSome := by
  cases o with
  | none => cases n <;> rfl
  | some o => cases n <;> rfl

/-! ## What a step covers -/

theorem inRange_widenRange_right {o n : Option Range} (hn : ∀ s, n = some s → InRange s m)
    (hr : widenRange o n = some r) : InRange r m := by
  constructor
  · intro l hl
    obtain ⟨s, hs, hsl, -⟩ := low_widenRange hr hl
    exact (hn s hs).1 l hsl
  · intro l hl
    obtain ⟨s, hs, hsl, -⟩ := high_widenRange hr hl
    exact (hn s hs).2 l hsl

theorem admits_widenValue_right (h : new.Admits (.int m)) :
    (widenValue old new).Admits (.int m) where
  nullable := h.nullable
  type := h.type
  constant := nofun
  range := by
    intro r hr k hk
    cases hk
    exact inRange_widenRange_right (fun s hs => h.range s hs m rfl) hr

/-- The bounds of the integers that the value stands for. -/
def AbstractValue.intBounds (a : AbstractValue) : Range :=
  match a.constant with
  | some (.int c) => (some c, some c)
  | _ => a.bounds

theorem AbstractValue.admits_int_iff {a : AbstractValue} (h : ∃ m, a.Admits (.int m)) :
    a.Admits (.int m) ↔ InRange a.intBounds m := by
  obtain ⟨m₀, h₀⟩ := h
  unfold intBounds
  split
  · next c hc =>
    have hm₀ : c = m₀ := by
      obtain ⟨k, hk, hck⟩ := h₀.constant _ hc
      cases hk
      simpa [ConstantValue.eq] using hck
    subst hm₀
    constructor
    · intro h
      obtain ⟨k, hk, hck⟩ := h.constant _ hc
      cases hk
      have hcm : c = m := by simpa [ConstantValue.eq] using hck
      rw [hcm]
      simp [InRange]
    · intro h
      have hcm : c = m := Int.le_antisymm (h.1 c rfl) (h.2 c rfl)
      rwa [← hcm]
  · next hc =>
    have hnone : a.constant = none := by
      cases hk : a.constant with
      | none => rfl
      | some k =>
        obtain ⟨k', hk', hkk'⟩ := h₀.constant k hk
        cases hk'
        cases k with
        | int c => exact absurd hk (hc c)
        | _ => simp [ConstantValue.eq] at hkk'
    cases hr : a.range with
    | none =>
      rw [bounds_of_none hr]
      refine ⟨fun _ => inRange_none m, fun _ => ⟨h₀.nullable, h₀.type, ?_, ?_⟩⟩
      · intro k hk
        rw [hnone] at hk
        cases hk
      · intro r hr'
        rw [hr] at hr'
        cases hr'
    | some r =>
      rw [bounds_of_some hr]
      refine ⟨fun h => h.range r hr m rfl, fun h => ⟨h₀.nullable, h₀.type, ?_, ?_⟩⟩
      · intro k hk
        rw [hnone] at hk
        cases hk
      · intro s hs k hk
        rw [hr] at hs
        cases hs
        cases hk
        exact h

/-- The new value is no tighter on the integers than the old one: it can be an integer, and each of
its bounds is at the one of the old integers or beyond it, unless the old range is open on that
side. -/
structure Loosens (old new : AbstractValue) : Prop where
  nullable : new.nullable ≠ .always
  type : ∀ t, new.type = some t → t = "int"
  low : ∀ l, new.bounds.1 = some l →
    (∃ r, old.range = some r ∧ r.1 = none) ∨ ∃ k, old.intBounds.1 = some k ∧ l ≤ k
  high : ∀ h, new.bounds.2 = some h →
    (∃ r, old.range = some r ∧ r.2 = none) ∨ ∃ k, old.intBounds.2 = some k ∧ k ≤ h

/-- A range that is not empty has an integer below `l`, unless its low bound is `l` or more. -/
theorem exists_inRange_lt (l : Int) (hr : InRange r m) (h : ∀ k, r.1 = some k → k < l) :
    ∃ n, n < l ∧ InRange r n := by
  cases hlow : r.1 with
  | none =>
    refine ⟨min m (l - 1), by omega, ?_, fun high hh => ?_⟩
    · rw [hlow]
      exact nofun
    · have hle := hr.2 high hh
      omega
  | some k =>
    refine ⟨k, h k hlow, ?_, fun high hh => Int.le_trans (hr.1 k hlow) (hr.2 high hh)⟩
    intro low hl
    rw [hlow] at hl
    cases hl
    exact Int.le_refl k

/-- A range that is not empty has an integer above `l`, unless its high bound is `l` or less. -/
theorem exists_inRange_gt (l : Int) (hr : InRange r m) (h : ∀ k, r.2 = some k → l < k) :
    ∃ n, l < n ∧ InRange r n := by
  cases hhigh : r.2 with
  | none =>
    refine ⟨max m (l + 1), by omega, fun low hl => ?_, ?_⟩
    · have hle := hr.1 low hl
      omega
    · rw [hhigh]
      exact nofun
  | some k =>
    refine ⟨k, h k hhigh, fun low hl => Int.le_trans (hr.1 low hl) (hr.2 k hhigh), ?_⟩
    intro high hh
    rw [hhigh] at hh
    cases hh
    exact Int.le_refl k

theorem le_of_admits_widenValue (hold : old.Admits (.int m))
    (h : (widenValue old new).Admits (.int m)) :
    (∀ l, new.bounds.1 = some l → (∀ r, old.range = some r → r.1 ≠ none) → l ≤ m) ∧
      ∀ l, new.bounds.2 = some l → (∀ r, old.range = some r → r.2 ≠ none) → m ≤ l := by
  cases hn : new.range with
  | none =>
    rw [AbstractValue.bounds_of_none hn]
    exact ⟨nofun, nofun⟩
  | some s =>
    rw [AbstractValue.bounds_of_some hn]
    cases ho : old.range with
    | none =>
      have hs : InRange s m := by
        refine h.range s ?_ m rfl
        change widenRange old.range new.range = some s
        rw [ho, hn]
        rfl
      exact ⟨fun l hl _ => hs.1 l hl, fun l hl _ => hs.2 l hl⟩
    | some r =>
      have hr : InRange r m := hold.range r ho m rfl
      have hw : InRange (widenLow r.1 s.1, widenHigh r.2 s.2) m := by
        refine h.range _ ?_ m rfl
        change widenRange old.range new.range = _
        rw [ho, hn]
        rfl
      constructor
      · intro l hl hr'
        obtain ⟨o, ho'⟩ := Option.ne_none_iff_exists'.1 (hr' r rfl)
        have hom := hr.1 o ho'
        by_cases hol : o ≤ l
        · exact hw.1 l (widenLow_eq_some.2 ⟨hl, o, ho', hol⟩)
        · omega
      · intro l hl hr'
        obtain ⟨o, ho'⟩ := Option.ne_none_iff_exists'.1 (hr' r rfl)
        have hom := hr.2 o ho'
        by_cases hol : l ≤ o
        · exact hw.2 l (widenHigh_eq_some.2 ⟨hl, o, ho', hol⟩)
        · omega

theorem admits_widenValue_left_iff :
    (∀ m, old.Admits (.int m) → (widenValue old new).Admits (.int m)) ↔
      ((∃ m, old.Admits (.int m)) → Loosens old new) := by
  constructor
  · rintro h ⟨m, hm⟩
    have hin : ∀ n, InRange old.intBounds n → old.Admits (.int n) := fun n hn =>
      (AbstractValue.admits_int_iff ⟨m, hm⟩).2 hn
    have hbounds : InRange old.intBounds m := (AbstractValue.admits_int_iff ⟨m, hm⟩).1 hm
    refine ⟨(h m hm).nullable, (h m hm).type, fun l hl => ?_, fun l hl => ?_⟩
    · by_contra hno
      rw [not_or] at hno
      obtain ⟨n, hnl, hn⟩ := exists_inRange_lt l hbounds fun k hk => by
        by_contra hlk
        exact hno.2 ⟨k, hk, by omega⟩
      have hle := (le_of_admits_widenValue (hin n hn) (h n (hin n hn))).1 l hl fun r hr hr₁ =>
        hno.1 ⟨r, hr, hr₁⟩
      omega
    · by_contra hno
      rw [not_or] at hno
      obtain ⟨n, hnl, hn⟩ := exists_inRange_gt l hbounds fun k hk => by
        by_contra hlk
        exact hno.2 ⟨k, hk, by omega⟩
      have hle := (le_of_admits_widenValue (hin n hn) (h n (hin n hn))).2 l hl fun r hr hr₁ =>
        hno.1 ⟨r, hr, hr₁⟩
      omega
  · intro h m hm
    have hl := h ⟨m, hm⟩
    have hbounds : InRange old.intBounds m := (AbstractValue.admits_int_iff ⟨m, hm⟩).1 hm
    refine ⟨hl.nullable, hl.type, nofun, ?_⟩
    intro r hr k hk
    cases hk
    constructor
    · intro l hlow
      obtain ⟨s, hn, hs, hold⟩ := low_widenRange hr hlow
      obtain ⟨t, ht, hnone⟩ | ⟨k, hk, hlk⟩ := hl.low l (by
        rw [AbstractValue.bounds_of_some hn]
        exact hs)
      · exact absurd hnone (hold t ht)
      · exact Int.le_trans hlk (hbounds.1 k hk)
    · intro l hhigh
      obtain ⟨s, hn, hs, hold⟩ := high_widenRange hr hhigh
      obtain ⟨t, ht, hnone⟩ | ⟨k, hk, hlk⟩ := hl.high l (by
        rw [AbstractValue.bounds_of_some hn]
        exact hs)
      · exact absurd hnone (hold t ht)
      · exact Int.le_trans (hbounds.2 k hk) hlk

end

/-! ## Ranges come to rest -/

/-- How far a low bound can still move: up to `i64::MAX`, and then away. -/
def lowRank : Option Int → Nat
  | none => 0
  | some l => (i64Max - l).toNat + 1

def highRank : Option Int → Nat
  | none => 0
  | some h => (h - i64Min).toNat + 1

def rangeRank (r : Range) : Nat := lowRank r.1 + highRank r.2

theorem lowRank_widenLow (o n : Option Int) (hn : ∀ l, n = some l → IsI64 l) :
    lowRank (widenLow o n) ≤ lowRank o ∧ (lowRank (widenLow o n) = lowRank o →
      widenLow o n = o) := by
  cases h : widenLow o n with
  | none =>
    refine ⟨Nat.zero_le _, fun h₀ => ?_⟩
    cases o with
    | none => rfl
    | some o => simp [lowRank] at h₀
  | some l =>
    obtain ⟨hl, k, rfl, hk⟩ := widenLow_eq_some.1 h
    have hlI := (hn l hl).2
    simp only [lowRank, Option.some.injEq]
    omega

theorem highRank_widenHigh (o n : Option Int) (hn : ∀ h, n = some h → IsI64 h) :
    highRank (widenHigh o n) ≤ highRank o ∧
      (highRank (widenHigh o n) = highRank o → widenHigh o n = o) := by
  cases h : widenHigh o n with
  | none =>
    refine ⟨Nat.zero_le _, fun h₀ => ?_⟩
    cases o with
    | none => rfl
    | some o => simp [highRank] at h₀
  | some l =>
    obtain ⟨hl, k, rfl, hk⟩ := widenHigh_eq_some.1 h
    have hlI := (hn l hl).1
    simp only [highRank, Option.some.injEq]
    omega

/-- Between two ranges a step moves the bounds towards rest, or leaves the range. -/
theorem rangeRank_widen (r s : Range) (hs : s.IsI64) :
    rangeRank (widenLow r.1 s.1, widenHigh r.2 s.2) ≤ rangeRank r ∧
      (rangeRank (widenLow r.1 s.1, widenHigh r.2 s.2) = rangeRank r →
        (widenLow r.1 s.1, widenHigh r.2 s.2) = r) := by
  obtain ⟨hlow, hlow'⟩ := lowRank_widenLow r.1 s.1 hs.1
  obtain ⟨hhigh, hhigh'⟩ := highRank_widenHigh r.2 s.2 hs.2
  simp only [rangeRank]
  refine ⟨by omega, fun h => ?_⟩
  rw [hlow' (by omega), hhigh' (by omega)]

/-- The values of a run: `x_{k+1}` is `widen_value(x_k, n_k)`. -/
def widenings (x₀ : AbstractValue) (n : Nat → AbstractValue) : Nat → AbstractValue
  | 0 => x₀
  | k + 1 => widenValue (widenings x₀ n k) (n k)

section Runs

variable {x₀ : AbstractValue} {n : Nat → AbstractValue} {k N : Nat}

theorem range_widenings_succ (x₀ : AbstractValue) (n : Nat → AbstractValue) (k : Nat) :
    (widenings x₀ n (k + 1)).range = widenRange (widenings x₀ n k).range (n k).range := rfl

theorem isSome_range_widenings_succ (x₀ : AbstractValue) (n : Nat → AbstractValue) (k : Nat) :
    (widenings x₀ n (k + 1)).range.isSome = (n k).range.isSome :=
  isSome_widenRange _ _

theorem range_eventually_of_isSome (hn : ∀ k, (n k).IsI64)
    (h : ∀ k, N ≤ k → (n k).range.isSome = true) :
    ∃ M, ∀ k, M ≤ k → (widenings x₀ n (k + 1)).range = (widenings x₀ n k).range := by
  have hrange : ∀ i, ∃ r, (widenings x₀ n (N + 1 + i)).range = some r := by
    intro i
    have hsome := isSome_range_widenings_succ x₀ n (N + i)
    rw [h (N + i) (Nat.le_add_right N i), Nat.add_right_comm] at hsome
    exact Option.isSome_iff_exists.1 hsome
  choose r hr using hrange
  have hstep : ∀ i, ∃ s : Range, s.IsI64 ∧
      r (i + 1) = (widenLow (r i).1 s.1, widenHigh (r i).2 s.2) := by
    intro i
    obtain ⟨s, hs⟩ := Option.isSome_iff_exists.1 (h (N + 1 + i) (by omega))
    refine ⟨s, hn _ s hs, ?_⟩
    have hnext := hr (i + 1)
    rw [← Nat.add_assoc, range_widenings_succ, hr i, hs] at hnext
    exact (Option.some.inj hnext).symm
  have hanti : Antitone fun i => rangeRank (r i) := by
    refine antitone_nat_of_succ_le fun i => ?_
    obtain ⟨s, hs, he⟩ := hstep i
    rw [he]
    exact (rangeRank_widen (r i) s hs).1
  obtain ⟨M, hM⟩ := WellFoundedLT.antitone_chain_condition hanti
  refine ⟨N + 1 + M, fun k hk => ?_⟩
  obtain ⟨i, rfl⟩ := Nat.exists_eq_add_of_le hk
  obtain ⟨s, hs, he⟩ := hstep (M + i)
  have hrank : rangeRank (r (M + i + 1)) = rangeRank (r (M + i)) := by
    rw [← hM (M + i) (by omega), ← hM (M + i + 1) (by omega)]
  have heq : r (M + i + 1) = r (M + i) := by
    rw [he] at hrank ⊢
    exact (rangeRank_widen _ s hs).2 hrank
  have hk₀ := hr (M + i)
  have hk₁ := hr (M + i + 1)
  rw [← Nat.add_assoc] at hk₁
  rw [Nat.add_assoc (N + 1) M i, hk₀, ← heq]
  exact hk₁

/-- The range changes finitely often if and only if the new values have ranges from some point on or
have none from some point on. -/
theorem finite_changes_iff (hn : ∀ k, (n k).IsI64) :
    {k | (widenings x₀ n (k + 1)).range ≠ (widenings x₀ n k).range}.Finite ↔
      ∃ N, ∀ k, N ≤ k → (n k).range.isSome = (n N).range.isSome := by
  constructor
  · intro h
    obtain ⟨N, hN⟩ := h.bddAbove
    have hrest : ∀ k, N < k → (widenings x₀ n (k + 1)).range = (widenings x₀ n k).range := by
      intro k hk
      by_contra hne
      have hle : k ≤ N := hN hne
      omega
    refine ⟨N + 1, fun k hk => ?_⟩
    induction k, hk using Nat.le_induction with
    | base => rfl
    | succ k hk ih =>
      rw [← isSome_range_widenings_succ x₀, hrest (k + 1) (by omega),
        isSome_range_widenings_succ, ih]
  · rintro ⟨N, hN⟩
    have hM : ∃ M, ∀ k, M ≤ k → (widenings x₀ n (k + 1)).range = (widenings x₀ n k).range := by
      cases hs : (n N).range.isSome with
      | true => exact range_eventually_of_isSome hn fun k hk => (hN k hk).trans hs
      | false =>
        have hnone : ∀ k, N ≤ k → (widenings x₀ n (k + 1)).range = none := by
          intro k hk
          have hsome := isSome_range_widenings_succ x₀ n k
          rw [hN k hk, hs] at hsome
          simpa using hsome
        refine ⟨N + 1, fun k hk => ?_⟩
        obtain ⟨k, rfl⟩ := Nat.exists_eq_add_of_le' (Nat.le_trans (Nat.le_add_left 1 N) hk)
        rw [hnone (k + 1) (by omega), hnone k (by omega)]
    obtain ⟨M, hM⟩ := hM
    refine (Set.finite_lt_nat M).subset fun k hk => ?_
    by_contra hle
    exact hk (hM k (Nat.le_of_not_lt hle))

end Runs

structure WideningsCorrect (x₀ : AbstractValue) (n : Nat → AbstractValue) : Prop where
  stabilises : {k | (widenings x₀ n (k + 1)).range ≠ (widenings x₀ n k).range}.Finite
  covers : ∀ k m, (widenings x₀ n k).Admits (.int m) ∨ (n k).Admits (.int m) →
    (widenings x₀ n (k + 1)).Admits (.int m)

/-- Widening stabilises and covers if and only if the new values do not switch between having a
range and having none for ever, and none of them is tighter than a value it is joined to. -/
theorem widenings_correct_iff (x₀ : AbstractValue) (n : Nat → AbstractValue)
    (hn : ∀ k, (n k).IsI64) : WideningsCorrect x₀ n ↔
      (∃ N, ∀ k, N ≤ k → (n k).range.isSome = (n N).range.isSome) ∧
        ∀ k, (∃ m, (widenings x₀ n k).Admits (.int m)) → Loosens (widenings x₀ n k) (n k) := by
  constructor
  · intro h
    refine ⟨(finite_changes_iff hn).1 h.stabilises, fun k => ?_⟩
    exact admits_widenValue_left_iff.1 fun m hm => h.covers k m (.inl hm)
  · rintro ⟨hN, hloose⟩
    refine ⟨(finite_changes_iff hn).2 hN, fun k m hm => ?_⟩
    cases hm with
    | inl hm => exact admits_widenValue_left_iff.2 (hloose k) m hm
    | inr hm => exact admits_widenValue_right hm

/-- A counter that starts at zero and is bounded by ten. -/
theorem widenings_correct_counter : WideningsCorrect (.fromConstant (.int 0))
    fun _ => ⟨some "int", some (some 0, some 10), .never, none⟩ := by
  have hvalue : ∀ k, widenings (.fromConstant (.int 0))
      (fun _ => ⟨some "int", some (some 0, some 10), .never, none⟩) (k + 1) =
        ⟨some "int", some (some 0, none), .never, none⟩ := by
    intro k
    induction k with
    | zero => rfl
    | succ k ih =>
      rw [widenings, ih]
      rfl
  refine (widenings_correct_iff _ _ fun _ r hr => ?_).2
    ⟨⟨0, fun _ _ => rfl⟩, fun k _ => ⟨nofun, ?_, fun l hl => .inr ?_, fun l hl => ?_⟩⟩
  · cases hr
    refine ⟨fun l hl => ?_, fun l hl => ?_⟩ <;> cases hl <;> decide
  · intro t ht
    cases ht
    rfl
  · cases hl
    cases k with
    | zero => exact ⟨0, rfl, Int.le_refl 0⟩
    | succ k => exact ⟨0, by rw [hvalue]; rfl, Int.le_refl 0⟩
  · cases hl
    cases k with
    | zero => exact .inr ⟨0, rfl, by decide⟩
    | succ k => exact .inl ⟨(some 0, none), by rw [hvalue], rfl⟩

/-- New values that are unknown and one in turns: the range comes and goes for ever. -/
theorem not_widenings_correct : ¬ ∀ (x₀ : AbstractValue) (n : Nat → AbstractValue),
    (∀ k, (n k).IsI64) → WideningsCorrect x₀ n := by
  intro h
  have hI64 : ∀ k, (if k % 2 = 0 then AbstractValue.fromConstant (.int 1)
      else AbstractValue.top).IsI64 := by
    intro k r hr
    split at hr
    · cases hr
      refine ⟨fun l hl => ?_, fun l hl => ?_⟩ <;> cases hl <;> decide
    · cases hr
  obtain ⟨N, hN⟩ := (finite_changes_iff hI64).1 (h .top _ hI64).stabilises
  have hnext := hN (N + 1) (Nat.le_succ N)
  by_cases hpar : N % 2 = 0
  · rw [if_neg (by omega), if_pos hpar] at hnext
    cases hnext
  · rw [if_pos (by omega), if_neg hpar] at hnext
    cases hnext

end TldrCode.Dataflow
