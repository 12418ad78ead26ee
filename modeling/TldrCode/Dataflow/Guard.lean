import TldrCode.Dataflow.Arithmetic

/-!
# Guards

`narrow_value` of `dataflow/guard.rs` tightens an abstract value on a branch: the range for the
comparisons, the nullability for the null checks, both for truthiness. The comparisons intersect
ranges. The null checks overwrite the nullability whatever it was, and a range that is empty makes
the result bottom, which forgets null. `narrowValue_correct_iff` says for which values each guard is
right.
-/

namespace TldrCode.Dataflow

/-! ## Guards -/

inductive GuardCondition where
  | eq (var : String) (value : Int)
  | neq (var : String) (value : Int)
  | lt (var : String) (value : Int)
  | le (var : String) (value : Int)
  | gt (var : String) (value : Int)
  | ge (var : String) (value : Int)
  | notNull (var : String)
  | isNull (var : String)
  | truthy (var : String)
  | falsy (var : String)
  deriving DecidableEq, Repr

namespace GuardCondition

def guardVariable : GuardCondition → String
  | eq var _ | neq var _ | lt var _ | le var _ | gt var _ | ge var _ => var
  | notNull var | isNull var | truthy var | falsy var => var

/-- `negate_guard`. -/
def negate : GuardCondition → GuardCondition
  | eq var value => neq var value
  | neq var value => eq var value
  | lt var value => ge var value
  | le var value => gt var value
  | gt var value => le var value
  | ge var value => lt var value
  | notNull var => isNull var
  | isNull var => notNull var
  | truthy var => falsy var
  | falsy var => truthy var

/-- The constant of the guard is an `i64`. -/
def IsI64 : GuardCondition → Prop
  | eq _ c | neq _ c | lt _ c | le _ c | gt _ c | ge _ c => Dataflow.IsI64 c
  | notNull _ | isNull _ | truthy _ | falsy _ => True

/-- The guard holds of an integer, or of null (`none`). No number is null, and null is not compared
with numbers. -/
def Holds : GuardCondition → Option Int → Prop
  | eq _ c, v => v = some c
  | neq _ c, v => v ≠ some c
  | lt _ c, v => ∃ m, v = some m ∧ m < c
  | le _ c, v => ∃ m, v = some m ∧ m ≤ c
  | gt _ c, v => ∃ m, v = some m ∧ c < m
  | ge _ c, v => ∃ m, v = some m ∧ c ≤ m
  | notNull _, v => v ≠ none
  | isNull _, v => v = none
  | truthy _, v => v ≠ none ∧ v ≠ some 0
  | falsy _, v => v = none ∨ v = some 0

end GuardCondition

/-! ## Narrowing -/

def AbstractValue.bottom : AbstractValue where
  type := some "<bottom>"
  range := some (none, none)
  nullable := .never
  constant := none

def intersectLow : Option Int → Option Int → Option Int
  | none, none => none
  | some v, none => some v
  | none, some v => some v
  | some a, some b => some (max a b)

def intersectHigh : Option Int → Option Int → Option Int
  | none, none => none
  | some v, none => some v
  | none, some v => some v
  | some a, some b => some (min a b)

def intersectRange : Option Range → Option Range → Option Range
  | none, none => none
  | none, some r => some r
  | some r, none => some r
  | some (aLow, aHigh), some (bLow, bHigh) =>
    some (intersectLow aLow bLow, intersectHigh aHigh bHigh)

def isEmptyRange : Option Range → Bool
  | some (some low, some high) => high < low
  | _ => false

def excludeZero : Option Range → Option Range
  | none => none
  | some (low, high) =>
    let lowVal := low.getD i64Min
    let highVal := high.getD i64Max
    if lowVal = 0 ∧ highVal = 0 then some (some 1, some 0)
    else if lowVal = 0 then some (some 1, high)
    else if highVal = 0 then some (low, some (-1))
    else some (low, high)

/-- The range on the branch of `!=`, or `none` for a contradiction. -/
def excludeConstant (c : Int) (range : Option Range) : Option (Option Range) :=
  match range with
  | none => some none
  | some (low, high) =>
    if low = some c ∧ high = some c then none
    else if low = some c then
      match checkedAdd c 1 with
      | some newLow => some (some (some newLow, high))
      | none => some range
    else if high = some c then
      match checkedSub c 1 with
      | some newHigh => some (some (low, some newHigh))
      | none => some range
    else some range

/-- The value on the branch where the guard holds, or `none` where bottom is returned at once. -/
def narrowed (value : AbstractValue) : GuardCondition → Option AbstractValue
  | .eq _ c => some { value with range := intersectRange value.range (some (some c, some c)) }
  | .neq _ c => (excludeConstant c value.range).map fun range => { value with range := range }
  | .lt _ c => (checkedSub c 1).map fun upper =>
      { value with range := intersectRange value.range (some (none, some upper)) }
  | .le _ c => some { value with range := intersectRange value.range (some (none, some c)) }
  | .gt _ c => (checkedAdd c 1).map fun lower =>
      { value with range := intersectRange value.range (some (some lower, none)) }
  | .ge _ c => some { value with range := intersectRange value.range (some (some c, none)) }
  | .notNull _ => some { value with nullable := .never }
  | .isNull _ => some { value with nullable := .always }
  | .truthy _ => some { value with nullable := .never, range := excludeZero value.range }
  | .falsy _ => some { value with nullable := .maybe }

/-- `narrow_value` on the branch where the guard holds. -/
def narrowTrue (value : AbstractValue) (guard : GuardCondition) : AbstractValue :=
  match narrowed value guard with
  | none => .bottom
  | some result => if isEmptyRange result.range then .bottom else result

def narrowValue (value : AbstractValue) (guard : GuardCondition) (isTrueBranch : Bool) :
    AbstractValue :=
  if isTrueBranch then narrowTrue value guard else narrowTrue value guard.negate

def narrowState (state : AbstractState) (guard : GuardCondition) (isTrueBranch : Bool) :
    AbstractState :=
  state.set guard.guardVariable (narrowValue (state.get guard.guardVariable) guard isTrueBranch)

theorem AbstractState.get_narrowState (state : AbstractState) (guard : GuardCondition)
    (isTrueBranch : Bool) (var : String) : (narrowState state guard isTrueBranch).get var =
      if var = guard.guardVariable then narrowValue (state.get var) guard isTrueBranch
      else state.get var := by
  unfold narrowState set get
  split
  · next h =>
    subst h
    rw [AList.lookup_insert]
    rfl
  · next h => rw [AList.lookup_insert_ne h]

/-! ## Integers and null -/

/-- The value admits the integer, or null (`none`). -/
def AbstractValue.AdmitsNumber (a : AbstractValue) : Option Int → Prop
  | none => a.Admits .null
  | some m => a.Admits (.int m)

/-- The components other than the nullability admit the integer. -/
def AbstractValue.FitsInt (a : AbstractValue) (m : Int) : Prop :=
  { a with nullable := .never }.Admits (.int m)

section

variable {a b : AbstractValue} {g : GuardCondition} {m c : Int} {r s : Range} {o : Option Range}
  {x y : Option Int}

structure AbstractValue.IntLike (a : AbstractValue) (m : Int) : Prop where
  type : ∀ t, a.type = some t → t = "int"
  constant : ∀ k, a.constant = some k → k.eq (.int m)

theorem AbstractValue.admits_int :
    a.Admits (.int m) ↔ a.nullable ≠ .always ∧ a.IntLike m ∧ InRange a.bounds m := by
  constructor
  · intro h
    refine ⟨h.nullable, ⟨h.type, fun k hk => ?_⟩, ?_⟩
    · obtain ⟨k', hk', heq⟩ := h.constant k hk
      cases hk'
      exact heq
    · cases hr : a.range with
      | none =>
        rw [bounds_of_none hr]
        exact inRange_none m
      | some r =>
        rw [bounds_of_some hr]
        exact h.range r hr m rfl
  · rintro ⟨hn, hl, hr⟩
    refine ⟨hn, hl.type, fun k hk => ⟨_, rfl, hl.constant k hk⟩, ?_⟩
    intro r hrange k hk
    cases hk
    rwa [bounds_of_some hrange] at hr

theorem AbstractValue.fitsInt_iff : a.FitsInt m ↔ a.IntLike m ∧ InRange a.bounds m := by
  unfold FitsInt
  rw [admits_int]
  exact ⟨fun h => ⟨⟨h.2.1.type, h.2.1.constant⟩, h.2.2⟩,
    fun h => ⟨nofun, ⟨h.1.type, h.1.constant⟩, h.2⟩⟩

/-! ## Ranges -/

/-- The integer is within the range, if there is one. -/
def InBounds (o : Option Range) (m : Int) : Prop := InRange (o.getD (none, none)) m

theorem inBounds_some : InBounds (some r) m ↔ InRange r m := .rfl

theorem inRange_intersectLow : (∀ l, intersectLow x y = some l → l ≤ m) ↔
    (∀ l, x = some l → l ≤ m) ∧ ∀ l, y = some l → l ≤ m := by
  cases x with
  | none => cases y <;> simp [intersectLow]
  | some x =>
    cases y with
    | none => simp [intersectLow]
    | some y =>
      simp only [intersectLow, Option.some.injEq, forall_eq']
      exact Int.max_le

theorem inRange_intersectHigh : (∀ h, intersectHigh x y = some h → m ≤ h) ↔
    (∀ h, x = some h → m ≤ h) ∧ ∀ h, y = some h → m ≤ h := by
  cases x with
  | none => cases y <;> simp [intersectHigh]
  | some x =>
    cases y with
    | none => simp [intersectHigh]
    | some y =>
      simp only [intersectHigh, Option.some.injEq, forall_eq']
      exact Int.le_min

theorem inBounds_intersectRange {o p : Option Range} :
    InBounds (intersectRange o p) m ↔ InBounds o m ∧ InBounds p m := by
  have hnone : InBounds none m := inRange_none m
  cases o with
  | none =>
    cases p with
    | none => simp [intersectRange, hnone]
    | some p => simp [intersectRange, hnone]
  | some o =>
    cases p with
    | none => simp [intersectRange, hnone]
    | some p =>
      simp only [intersectRange, inBounds_some, InRange, inRange_intersectLow,
        inRange_intersectHigh]
      tauto

theorem not_inBounds_of_isEmptyRange (h : isEmptyRange o) : ¬ InBounds o m := by
  unfold isEmptyRange at h
  split at h
  · next low high =>
    intro hm
    have hlow := hm.1 low rfl
    have hhigh := hm.2 high rfl
    simp only [decide_eq_true_eq] at h
    omega
  · cases h

def ZeroBound (o : Option Range) : Prop := ∃ r, o = some r ∧ (r.1 = some 0 ∨ r.2 = some 0)

theorem inBounds_excludeZero :
    InBounds (excludeZero o) m ↔ InBounds o m ∧ (m = 0 → ¬ ZeroBound o) := by
  cases o with
  | none =>
    simp only [excludeZero, ZeroBound]
    simp
  | some r =>
    obtain ⟨low, high⟩ := r
    have hlow : low.getD i64Min = 0 ↔ low = some 0 := by
      cases low with
      | none => simp [i64Min]
      | some l => simp
    have hhigh : high.getD i64Max = 0 ↔ high = some 0 := by
      cases high with
      | none => simp [i64Max]
      | some h => simp
    simp only [excludeZero, hlow, hhigh, ZeroBound, Option.some.injEq, exists_eq_left']
    split
    · next h =>
      simp only [inBounds_some, InRange, h.1, h.2, Option.some.injEq, forall_eq', true_or, not_true,
        imp_false]
      omega
    · split
      · next h =>
        simp only [inBounds_some, InRange, h, Option.some.injEq, forall_eq', true_or, not_true,
          imp_false]
        constructor
        · intro hm
          exact ⟨⟨by omega, hm.2⟩, by omega⟩
        · intro hm
          exact ⟨by omega, hm.1.2⟩
      · split
        · next h =>
          simp only [inBounds_some, InRange, h, Option.some.injEq, forall_eq', or_true, not_true,
            imp_false]
          constructor
          · intro hm
            exact ⟨⟨hm.1, by omega⟩, by omega⟩
          · intro hm
            exact ⟨hm.1.1, by omega⟩
        · next h₁ h₂ h₃ =>
          simp only [h₂, h₃, or_false, not_false_eq_true, implies_true, and_true]

theorem excludeConstant_eq_none : excludeConstant c o = none ↔ o = some (some c, some c) := by
  cases o with
  | none => simp [excludeConstant]
  | some r =>
    obtain ⟨low, high⟩ := r
    simp only [excludeConstant, Option.some.injEq, Prod.mk.injEq]
    split
    · next h => simp [h]
    · next h =>
      simp only [h, iff_false]
      split
      · split <;> exact nofun
      · split
        · split <;> exact nofun
        · exact nofun

/-- What the branch of `!=` makes of the range: it loses at most the constant, and is empty only if
it was. -/
theorem excludeConstant_spec {o p : Option Range} (h : excludeConstant c o = some p) :
    (∀ m, InBounds p m → InBounds o m) ∧ (∀ m, m ≠ c → InBounds o m → InBounds p m) ∧
      isEmptyRange p = isEmptyRange o := by
  cases o with
  | none =>
    cases h
    exact ⟨fun _ => id, fun _ _ => id, rfl⟩
  | some r =>
    obtain ⟨low, high⟩ := r
    simp only [excludeConstant] at h
    split at h
    · cases h
    · next hne =>
      split at h
      · next hlow =>
        subst hlow
        split at h
        · next newLow hnew =>
          obtain ⟨-, rfl⟩ := checked_eq_some.1 hnew
          cases h
          refine ⟨fun m hm => ⟨fun l hl => ?_, hm.2⟩, fun m hmc hm => ⟨fun l hl => ?_, hm.2⟩, ?_⟩
          · cases hl
            have hle := hm.1 _ rfl
            omega
          · cases hl
            have hle := hm.1 c rfl
            omega
          · cases high with
            | none => rfl
            | some high =>
              have hhc : high ≠ c := fun he => hne ⟨rfl, by rw [he]⟩
              simp only [isEmptyRange, decide_eq_decide]
              omega
        · cases h
          exact ⟨fun _ => id, fun _ _ => id, rfl⟩
      · next hlow =>
        split at h
        · next hhigh =>
          subst hhigh
          split at h
          · next newHigh hnew =>
            obtain ⟨-, rfl⟩ := checked_eq_some.1 hnew
            cases h
            refine ⟨fun m hm => ⟨hm.1, fun l hl => ?_⟩, fun m hmc hm => ⟨hm.1, fun l hl => ?_⟩, ?_⟩
            · cases hl
              have hle := hm.2 _ rfl
              omega
            · cases hl
              have hle := hm.2 c rfl
              omega
            · cases low with
              | none => rfl
              | some low =>
                have hlc : low ≠ c := fun he => hlow (by rw [he])
                simp only [isEmptyRange, decide_eq_decide]
                omega
          · cases h
            exact ⟨fun _ => id, fun _ _ => id, rfl⟩
        · cases h
          exact ⟨fun _ => id, fun _ _ => id, rfl⟩

/-! ## What a branch admits -/

theorem admitsNumber_some : a.AdmitsNumber (some m) ↔
    a.nullable ≠ .always ∧ a.IntLike m ∧ InBounds a.range m :=
  AbstractValue.admits_int

theorem admitsNumber_none : a.AdmitsNumber none ↔ a.nullable ≠ .never := .rfl

theorem not_admitsNumber_bottom (v : Option Int) : ¬ AbstractValue.bottom.AdmitsNumber v := by
  cases v with
  | none => exact fun h => h rfl
  | some m =>
    intro h
    have htype : "<bottom>" = "int" := (admitsNumber_some.1 h).2.1.type _ rfl
    exact absurd htype (by decide)

theorem narrowTrue_of_none (h : narrowed a g = none) : narrowTrue a g = .bottom := by
  unfold narrowTrue
  rw [h]

/-- An empty range admits no integer, so the check for it matters for null only. -/
theorem admitsNumber_narrowTrue_some (h : narrowed a g = some b) :
    (narrowTrue a g).AdmitsNumber (some m) ↔ b.AdmitsNumber (some m) := by
  unfold narrowTrue
  rw [h]
  dsimp only
  split
  · next hempty =>
    have hnot : ¬ b.AdmitsNumber (some m) := fun hb =>
      not_inBounds_of_isEmptyRange hempty (admitsNumber_some.1 hb).2.2
    exact iff_of_false (not_admitsNumber_bottom _) hnot
  · rfl

theorem admitsNumber_narrowTrue_none (h : narrowed a g = some b) :
    (narrowTrue a g).AdmitsNumber none ↔ isEmptyRange b.range = false ∧ b.nullable ≠ .never := by
  unfold narrowTrue
  rw [h]
  dsimp only
  split
  · next hempty =>
    refine iff_of_false (not_admitsNumber_bottom _) fun hb => ?_
    rw [hempty] at hb
    cases hb.1
  · next hempty =>
    rw [admitsNumber_none]
    simp [hempty]

/-- `b` is a narrowing of `a` by the guard: it keeps what the guard holds of and admits nothing
new. -/
structure Narrows (a b : AbstractValue) (g : GuardCondition) : Prop where
  keeps : ∀ v, a.AdmitsNumber v → g.Holds v → b.AdmitsNumber v
  only : ∀ v, b.AdmitsNumber v → a.AdmitsNumber v

theorem narrows_narrowTrue_iff (h : narrowed a g = some b) : Narrows a (narrowTrue a g) g ↔
    ((∀ m, a.AdmitsNumber (some m) → g.Holds (some m) → b.AdmitsNumber (some m)) ∧
      ∀ m, b.AdmitsNumber (some m) → a.AdmitsNumber (some m)) ∧
    (a.nullable ≠ .never → g.Holds none → isEmptyRange b.range = false ∧ b.nullable ≠ .never) ∧
      (isEmptyRange b.range = false → b.nullable ≠ .never → a.nullable ≠ .never) := by
  constructor
  · intro hn
    refine ⟨⟨fun m ha hg => ?_, fun m hb => ?_⟩, fun ha hg => ?_, fun he hb => ?_⟩
    · exact (admitsNumber_narrowTrue_some h).1 (hn.keeps _ ha hg)
    · exact hn.only _ ((admitsNumber_narrowTrue_some h).2 hb)
    · exact (admitsNumber_narrowTrue_none h).1 (hn.keeps none ha hg)
    · exact hn.only none ((admitsNumber_narrowTrue_none h).2 ⟨he, hb⟩)
  · rintro ⟨⟨hkeep, honly⟩, hkeep', honly'⟩
    constructor
    · intro v ha hg
      cases v with
      | none => exact (admitsNumber_narrowTrue_none h).2 (hkeep' ha hg)
      | some m => exact (admitsNumber_narrowTrue_some h).2 (hkeep m ha hg)
    · intro v hb
      cases v with
      | none =>
        have hb' := (admitsNumber_narrowTrue_none h).1 hb
        exact honly' hb'.1 hb'.2
      | some m => exact honly m ((admitsNumber_narrowTrue_some h).1 hb)

/-- A branch that is bottom at once is right if the guard holds of nothing that is admitted. -/
theorem narrows_iff_of_none (h : narrowed a g = none) :
    Narrows a (narrowTrue a g) g ↔ ∀ v, a.AdmitsNumber v → ¬ g.Holds v := by
  rw [narrowTrue_of_none h]
  constructor
  · intro hn v ha hg
    exact not_admitsNumber_bottom v (hn.keeps v ha hg)
  · intro hno
    exact ⟨fun v ha hg => absurd hg (hno v ha), fun v hb => absurd hb (not_admitsNumber_bottom v)⟩

theorem narrows_intersect
    (h : narrowed a g = some { a with range := intersectRange a.range (some s) })
    (hg : ∀ v, g.Holds v ↔ ∃ m, v = some m ∧ InRange s m) : Narrows a (narrowTrue a g) g := by
  rw [narrows_narrowTrue_iff h]
  refine ⟨⟨fun m ha hm => ?_, fun m hb => ?_⟩, fun _ hnull => ?_, fun _ hb => hb⟩
  · obtain ⟨hn, hl, hr⟩ := admitsNumber_some.1 ha
    obtain ⟨m', hm', hs⟩ := (hg _).1 hm
    cases hm'
    exact admitsNumber_some.2 ⟨hn, ⟨hl.type, hl.constant⟩, inBounds_intersectRange.2 ⟨hr, hs⟩⟩
  · obtain ⟨hn, hl, hr⟩ := admitsNumber_some.1 hb
    exact admitsNumber_some.2 ⟨hn, ⟨hl.type, hl.constant⟩, (inBounds_intersectRange.1 hr).1⟩
  · obtain ⟨m, hm, -⟩ := (hg none).1 hnull
    cases hm

/-! ## When a guard narrows rightly -/

/-- The values for which the branch where the guard holds is right: for `!=`, null is not forgotten
with a range that becomes empty; for `<` and `>`, there is nothing beyond the `i64`s; the null and
truth checks agree with the nullability that they overwrite. -/
def NarrowsRight (a : AbstractValue) : GuardCondition → Prop
  | .eq _ _ => True
  | .neq _ c => a.nullable = .never ∨
      a.range ≠ some (some c, some c) ∧ isEmptyRange a.range = false
  | .lt _ c => c = i64Min → ∀ m, m < i64Min → ¬ a.Admits (.int m)
  | .le _ _ => True
  | .gt _ c => c = i64Max → ∀ m, i64Max < m → ¬ a.Admits (.int m)
  | .ge _ _ => True
  | .notNull _ => a.nullable = .always → ∀ m, ¬ a.FitsInt m
  | .isNull _ => a.nullable = .never ↔ isEmptyRange a.range = true
  | .truthy _ => a.nullable = .always → ∀ m, a.FitsInt m → m = 0 ∧ ZeroBound a.range
  | .falsy _ => if isEmptyRange a.range then a.nullable = .never
      else a.nullable = .maybe ∨ a.nullable = .always ∧ ∀ m, ¬ a.FitsInt m

section

variable {var : String}

theorem narrows_neq_iff : Narrows a (narrowTrue a (.neq var c)) (.neq var c) ↔
    NarrowsRight a (.neq var c) := by
  cases h : excludeConstant c a.range with
  | none =>
    have hnone : narrowed a (.neq var c) = none := by simp [narrowed, h]
    rw [narrows_iff_of_none hnone]
    have hr := excludeConstant_eq_none.1 h
    simp only [NarrowsRight, hr, ne_eq, not_true, false_and, or_false]
    constructor
    · intro hno
      by_contra hn
      exact hno none hn nofun
    · intro hn v ha hg
      cases v with
      | none => exact ha hn
      | some m =>
        have hm := (admitsNumber_some.1 ha).2.2
        rw [hr] at hm
        exact hg (congrArg some (Int.le_antisymm (hm.2 c rfl) (hm.1 c rfl)))
  | some p =>
    have hsome : narrowed a (.neq var c) = some { a with range := p } := by simp [narrowed, h]
    obtain ⟨hsub, hkeep, hempty⟩ := excludeConstant_spec h
    have hne : a.range ≠ some (some c, some c) := by
      intro he
      rw [excludeConstant_eq_none.2 he] at h
      cases h
    rw [narrows_narrowTrue_iff hsome]
    simp only [NarrowsRight, hempty]
    constructor
    · intro hn
      by_cases hnull : a.nullable = .never
      · exact .inl hnull
      · exact .inr ⟨hne, (hn.2.1 hnull nofun).1⟩
    · intro hn
      refine ⟨⟨fun m ha hm => ?_, fun m hb => ?_⟩, fun ha _ => ?_, fun _ hb => hb⟩
      · obtain ⟨ha, hl, hr⟩ := admitsNumber_some.1 ha
        have hmc : m ≠ c := fun he => hm (congrArg some he)
        exact admitsNumber_some.2 ⟨ha, ⟨hl.type, hl.constant⟩, hkeep m hmc hr⟩
      · obtain ⟨hb, hl, hr⟩ := admitsNumber_some.1 hb
        exact admitsNumber_some.2 ⟨hb, ⟨hl.type, hl.constant⟩, hsub m hr⟩
      · exact ⟨(hn.resolve_left ha).2, ha⟩

theorem narrows_lt_iff (hc : IsI64 c) :
    Narrows a (narrowTrue a (.lt var c)) (.lt var c) ↔ NarrowsRight a (.lt var c) := by
  unfold IsI64 i64Min i64Max at hc
  simp only [NarrowsRight]
  cases h : checkedSub c 1 with
  | none =>
    have hmin : c = i64Min := by
      have hno := checked_eq_none.1 h
      unfold IsI64 i64Min i64Max at hno
      unfold i64Min
      omega
    have hnone : narrowed a (.lt var c) = none := by simp [narrowed, h]
    rw [narrows_iff_of_none hnone]
    constructor
    · intro hno _ m hm ha
      exact hno (some m) ha ⟨m, rfl, hmin ▸ hm⟩
    · rintro hno v ha ⟨m, rfl, hm⟩
      exact hno hmin m (hmin ▸ hm) ha
  | some upper =>
    obtain ⟨hI, rfl⟩ := checked_eq_some.1 h
    have hmin : c ≠ i64Min := by
      unfold IsI64 at hI
      omega
    refine iff_of_true (narrows_intersect (s := (none, some (c - 1))) (by simp [narrowed, h]) ?_)
      fun he => absurd he hmin
    intro v
    refine exists_congr fun m => and_congr_right fun _ => ?_
    simp only [InRange, reduceCtorEq, false_implies, implies_true, Option.some.injEq, forall_eq',
      true_and]
    omega

theorem narrows_gt_iff (hc : IsI64 c) :
    Narrows a (narrowTrue a (.gt var c)) (.gt var c) ↔ NarrowsRight a (.gt var c) := by
  unfold IsI64 i64Min i64Max at hc
  simp only [NarrowsRight]
  cases h : checkedAdd c 1 with
  | none =>
    have hmax : c = i64Max := by
      have hno := checked_eq_none.1 h
      unfold IsI64 i64Min i64Max at hno
      unfold i64Max
      omega
    have hnone : narrowed a (.gt var c) = none := by simp [narrowed, h]
    rw [narrows_iff_of_none hnone]
    constructor
    · intro hno _ m hm ha
      exact hno (some m) ha ⟨m, rfl, hmax ▸ hm⟩
    · rintro hno v ha ⟨m, rfl, hm⟩
      exact hno hmax m (hmax ▸ hm) ha
  | some lower =>
    obtain ⟨hI, rfl⟩ := checked_eq_some.1 h
    have hmax : c ≠ i64Max := by
      unfold IsI64 at hI
      omega
    refine iff_of_true (narrows_intersect (s := (some (c + 1), none)) (by simp [narrowed, h]) ?_)
      fun he => absurd he hmax
    intro v
    refine exists_congr fun m => and_congr_right fun _ => ?_
    simp only [InRange, reduceCtorEq, false_implies, implies_true, Option.some.injEq, forall_eq',
      and_true]
    omega

theorem narrows_eq : Narrows a (narrowTrue a (.eq var c)) (.eq var c) := by
  refine narrows_intersect (s := (some c, some c)) rfl fun v => ?_
  simp only [GuardCondition.Holds, InRange, Option.some.injEq, forall_eq']
  constructor
  · rintro rfl
    exact ⟨c, rfl, Int.le_refl c, Int.le_refl c⟩
  · rintro ⟨m, rfl, h₁, h₂⟩
    rw [Int.le_antisymm h₁ h₂]

theorem narrows_le : Narrows a (narrowTrue a (.le var c)) (.le var c) := by
  refine narrows_intersect (s := (none, some c)) rfl fun v => ?_
  simp [GuardCondition.Holds, InRange]

theorem narrows_ge : Narrows a (narrowTrue a (.ge var c)) (.ge var c) := by
  refine narrows_intersect (s := (some c, none)) rfl fun v => ?_
  simp [GuardCondition.Holds, InRange]

theorem narrows_notNull_iff :
    Narrows a (narrowTrue a (.notNull var)) (.notNull var) ↔ NarrowsRight a (.notNull var) := by
  rw [narrows_narrowTrue_iff rfl]
  simp only [NarrowsRight]
  constructor
  · intro hn halways m hm
    have ha := hn.1.2 m hm
    exact (admitsNumber_some.1 ha).1 halways
  · intro hn
    refine ⟨⟨fun m ha _ => ?_, fun m hb => ?_⟩, fun _ hg => absurd rfl hg,
      fun _ hb => absurd rfl hb⟩
    · obtain ⟨-, hl, hr⟩ := admitsNumber_some.1 ha
      exact admitsNumber_some.2 ⟨nofun, ⟨hl.type, hl.constant⟩, hr⟩
    · obtain ⟨-, hl, hr⟩ := admitsNumber_some.1 hb
      exact admitsNumber_some.2 ⟨fun halways => hn halways m hb, ⟨hl.type, hl.constant⟩, hr⟩

theorem narrows_isNull_iff :
    Narrows a (narrowTrue a (.isNull var)) (.isNull var) ↔ NarrowsRight a (.isNull var) := by
  rw [narrows_narrowTrue_iff rfl]
  simp only [NarrowsRight]
  constructor
  · intro hn
    constructor
    · intro hnever
      by_contra hempty
      exact hn.2.2 (by simpa using hempty) nofun hnever
    · intro hempty
      by_contra hnever
      have hfalse := (hn.2.1 hnever rfl).1
      rw [hempty] at hfalse
      cases hfalse
  · intro hn
    refine ⟨⟨fun m _ hg => absurd hg nofun, fun m hb => ?_⟩, fun ha _ => ⟨?_, nofun⟩,
      fun he _ ha => ?_⟩
    · exact absurd rfl (admitsNumber_some.1 hb).1
    · by_contra hempty
      exact ha (hn.2 (by simpa using hempty))
    · rw [hn.1 ha] at he
      cases he

theorem narrows_truthy_iff :
    Narrows a (narrowTrue a (.truthy var)) (.truthy var) ↔ NarrowsRight a (.truthy var) := by
  rw [narrows_narrowTrue_iff rfl]
  simp only [NarrowsRight]
  constructor
  · intro hn halways m hm
    by_contra hno
    rw [AbstractValue.fitsInt_iff] at hm
    refine (admitsNumber_some.1 (hn.1.2 m (admitsNumber_some.2
      ⟨nofun, ⟨hm.1.type, hm.1.constant⟩, ?_⟩))).1 halways
    exact inBounds_excludeZero.2 ⟨hm.2, fun h₀ hz => hno ⟨h₀, hz⟩⟩
  · intro hn
    refine ⟨⟨fun m ha hg => ?_, fun m hb => ?_⟩, fun _ hg => absurd rfl hg.1,
      fun _ hb => absurd rfl hb⟩
    · obtain ⟨-, hl, hr⟩ := admitsNumber_some.1 ha
      have hzero : m ≠ 0 := fun he => hg.2 (congrArg some he)
      exact admitsNumber_some.2 ⟨nofun, ⟨hl.type, hl.constant⟩,
        inBounds_excludeZero.2 ⟨hr, fun he => absurd he hzero⟩⟩
    · obtain ⟨-, hl, hr⟩ := admitsNumber_some.1 hb
      obtain ⟨hr, hzero⟩ := inBounds_excludeZero.1 hr
      refine admitsNumber_some.2 ⟨fun halways => ?_, ⟨hl.type, hl.constant⟩, hr⟩
      have hz := hn halways m (AbstractValue.fitsInt_iff.2 ⟨⟨hl.type, hl.constant⟩, hr⟩)
      exact hzero hz.1 hz.2

theorem narrows_falsy_iff :
    Narrows a (narrowTrue a (.falsy var)) (.falsy var) ↔ NarrowsRight a (.falsy var) := by
  have hadmits : ∀ m, { a with nullable := .maybe }.AdmitsNumber (some m) ↔ a.FitsInt m := by
    intro m
    rw [AbstractValue.fitsInt_iff, admitsNumber_some]
    exact ⟨fun h => ⟨⟨h.2.1.type, h.2.1.constant⟩, h.2.2⟩,
      fun h => ⟨nofun, ⟨h.1.type, h.1.constant⟩, h.2⟩⟩
  have hfits : ∀ m, a.AdmitsNumber (some m) ↔ a.nullable ≠ .always ∧ a.FitsInt m := by
    intro m
    rw [AbstractValue.fitsInt_iff, admitsNumber_some]
    rfl
  rw [narrows_narrowTrue_iff rfl]
  simp only [NarrowsRight, hadmits, hfits]
  cases he : isEmptyRange a.range with
  | true =>
    have hno : ∀ m, ¬ a.FitsInt m := fun m hm =>
      not_inBounds_of_isEmptyRange he (AbstractValue.fitsInt_iff.1 hm).2
    simp only [if_true]
    constructor
    · intro hn
      by_contra hnull
      cases (hn.2.1 hnull (.inl rfl)).1
    · intro hnull
      exact ⟨⟨fun m ha _ => ha.2, fun m hb => absurd hb (hno m)⟩,
        fun ha _ => absurd hnull ha, nofun⟩
  | false =>
    simp only [Bool.false_eq_true, if_false]
    constructor
    · intro hn
      have hnever := hn.2.2 trivial nofun
      cases hnull : a.nullable with
      | never => exact absurd hnull hnever
      | maybe => exact .inl rfl
      | always => exact .inr ⟨rfl, fun m hm => (hn.1.2 m hm).1 hnull⟩
    · intro hn
      refine ⟨⟨fun m ha _ => ha.2, fun m hb => ⟨fun halways => ?_, hb⟩⟩,
        fun _ _ => ⟨trivial, nofun⟩,
        fun _ _ hnever => ?_⟩
      · rw [halways] at hn
        exact (hn.resolve_left nofun).2 m hb
      · rw [hnever] at hn
        obtain hn | hn := hn
        · cases hn
        · cases hn.1

end

theorem narrows_iff (hg : g.IsI64) : Narrows a (narrowTrue a g) g ↔ NarrowsRight a g := by
  cases g with
  | eq var c => exact iff_of_true narrows_eq trivial
  | neq var c => exact narrows_neq_iff
  | lt var c => exact narrows_lt_iff hg
  | le var c => exact iff_of_true narrows_le trivial
  | gt var c => exact narrows_gt_iff hg
  | ge var c => exact iff_of_true narrows_ge trivial
  | notNull var => exact narrows_notNull_iff
  | isNull var => exact narrows_isNull_iff
  | truthy var => exact narrows_truthy_iff
  | falsy var => exact narrows_falsy_iff

end

theorem GuardCondition.isI64_negate {g : GuardCondition} (h : g.IsI64) : g.negate.IsI64 := by
  cases g <;> exact h

structure NarrowingCorrect (value : AbstractValue) (guard : GuardCondition) : Prop where
  onTrue : Narrows value (narrowValue value guard true) guard
  onFalse : Narrows value (narrowValue value guard false) guard.negate

/-- `narrow_value` is right on both branches if and only if the value is one that the guard and its
negation narrow rightly. -/
theorem narrowValue_correct_iff (value : AbstractValue) (guard : GuardCondition)
    (hg : guard.IsI64) : NarrowingCorrect value guard ↔
      NarrowsRight value guard ∧ NarrowsRight value guard.negate := by
  rw [← narrows_iff hg, ← narrows_iff (GuardCondition.isI64_negate hg)]
  exact ⟨fun h => ⟨h.onTrue, h.onFalse⟩, fun h => ⟨h.1, h.2⟩⟩

/-- A value from one on that may be null, compared with five. -/
theorem narrowValue_correct_lt :
    NarrowingCorrect ⟨some "int", some (some 1, none), .maybe, none⟩ (.lt "x" 5) :=
  (narrowValue_correct_iff _ (.lt "x" 5) (by change IsI64 5; decide)).2
    ⟨fun h => absurd h (by decide), trivial⟩

/-- A value that is null is not null where it is checked to be none: the branch admits every
integer. -/
theorem not_narrowingCorrect_notNull : ¬ ∀ (value : AbstractValue) (guard : GuardCondition),
    guard.IsI64 → NarrowingCorrect value guard := by
  intro h
  have hone := (h ⟨none, none, .always, none⟩ (.notNull "x") trivial).onTrue.only (some 1)
    ⟨nofun, nofun, nofun, nofun⟩
  exact (admitsNumber_some.1 hone).1 rfl

end TldrCode.Dataflow
