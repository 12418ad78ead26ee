import Mathlib.Data.List.AList
import Mathlib.Data.List.Dedup
import TldrCode.Types

/-!
# Abstract values

The values and states of `dataflow/abstract_interp.rs`, and their joins. `Admits` is what an
abstract value stands for. A join keeps what both sides admit in every component but one: where only
one side has a range, the join takes it over, although no range stands for every integer.
`join_sound_iff` says when no value is lost by it.
-/

namespace TldrCode.Dataflow

/-! ## Constants -/

inductive Nullability where
  | never
  | maybe
  | always
  deriving DecidableEq, Repr

/-- An `f64`, by its bits. -/
structure F64 where
  bits : BitVec 64
  deriving DecidableEq, Repr

namespace F64

/-- `is_nan`: all bits of the exponent, and some bit of the fraction. -/
def isNan (x : F64) : Bool :=
  x.bits.extractLsb' 52 11 == 0x7ff#11 && x.bits.extractLsb' 0 52 != 0#52

def isZero (x : F64) : Bool := x.bits.extractLsb' 0 63 == 0#63

/-- `==`: both zeros are equal, and no NaN is equal to anything. -/
def eq (x y : F64) : Bool :=
  !x.isNan && !y.isNan && (x == y || x.isZero && y.isZero)

end F64

inductive ConstantValue where
  | int (v : Int)
  | float (x : F64)
  | string (s : String)
  | bool (b : Bool)
  | null
  deriving DecidableEq, Repr

/-- `PartialEq` for `ConstantValue`. -/
def ConstantValue.eq : ConstantValue → ConstantValue → Bool
  | .int a, .int b => a == b
  | .float a, .float b => (a.isNan && b.isNan) || a.eq b
  | .string a, .string b => a == b
  | .bool a, .bool b => a == b
  | .null, .null => true
  | _, _ => false

theorem F64.eq_trans {x y z : F64} (h₁ : x.eq y) (h₂ : y.eq z) : x.eq z := by
  simp only [F64.eq, Bool.and_eq_true, Bool.or_eq_true, Bool.not_eq_true', beq_iff_eq] at h₁ h₂ ⊢
  obtain ⟨⟨hx, -⟩, hxy⟩ := h₁
  obtain ⟨⟨-, hz⟩, hyz⟩ := h₂
  refine ⟨⟨hx, hz⟩, ?_⟩
  cases hxy with
  | inl hxy => exact hxy ▸ hyz
  | inr hxy =>
    cases hyz with
    | inl hyz => exact .inr (hyz ▸ hxy)
    | inr hyz => exact .inr ⟨hxy.1, hyz.2⟩

theorem F64.isNan_of_eq {x y : F64} (h : x.eq y) : x.isNan = false ∧ y.isNan = false := by
  simp only [F64.eq, Bool.and_eq_true, Bool.not_eq_true'] at h
  exact h.1

theorem ConstantValue.eq_refl (a : ConstantValue) : a.eq a := by
  cases a with
  | float x => cases h : x.isNan <;> simp [ConstantValue.eq, F64.eq, h]
  | _ => simp [ConstantValue.eq]

theorem ConstantValue.eq_trans {a b c : ConstantValue} (h₁ : a.eq b) (h₂ : b.eq c) : a.eq c := by
  cases a with
  | float x =>
    cases b with
    | float y =>
      cases c with
      | float z =>
        simp only [ConstantValue.eq, Bool.or_eq_true, Bool.and_eq_true] at h₁ h₂ ⊢
        cases h₁ with
        | inl h₁ =>
          cases h₂ with
          | inl h₂ => exact .inl ⟨h₁.1, h₂.2⟩
          | inr h₂ => exact absurd h₁.2 (by simp [(F64.isNan_of_eq h₂).1])
        | inr h₁ =>
          cases h₂ with
          | inl h₂ => exact absurd h₂.1 (by simp [(F64.isNan_of_eq h₁).2])
          | inr h₂ => exact .inr (F64.eq_trans h₁ h₂)
      | _ => simp [ConstantValue.eq] at h₂
    | _ => simp [ConstantValue.eq] at h₁
  | _ => cases b <;> cases c <;> simp_all [ConstantValue.eq]

/-! ## Values -/

/-- The bounds of a range; `none` is infinity. -/
abbrev Range := Option Int × Option Int

structure AbstractValue where
  type : Option String
  range : Option Range
  nullable : Nullability
  constant : Option ConstantValue
  deriving DecidableEq, Repr

namespace AbstractValue

def top : AbstractValue where
  type := none
  range := none
  nullable := .maybe
  constant := none

def fromConstant : ConstantValue → AbstractValue
  | .int v => ⟨some "int", some (some v, some v), .never, some (.int v)⟩
  | .float x => ⟨some "float", none, .never, some (.float x)⟩
  | .string s =>
    ⟨some "str", some (some s.utf8ByteSize, some s.utf8ByteSize), .never, some (.string s)⟩
  | .bool b =>
    let v := if b then 1 else 0
    ⟨some "bool", some (some v, some v), .never, some (.bool b)⟩
  | .null => ⟨some "NoneType", none, .always, none⟩

def mayBeZero (a : AbstractValue) : Bool :=
  match a.range with
  | none => true
  | some (low, high) => low.getD (-2 ^ 63) ≤ 0 && 0 ≤ high.getD (2 ^ 63 - 1)

/-- The lower bound of a join: `none` if one side has none. -/
def joinLow : Option Int → Option Int → Option Int
  | some a, some b => some (min a b)
  | _, _ => none

def joinHigh : Option Int → Option Int → Option Int
  | some a, some b => some (max a b)
  | _, _ => none

def joinRange : Option Range → Option Range → Option Range
  | none, none => none
  | some r, none => some r
  | none, some r => some r
  | some (aLow, aHigh), some (bLow, bHigh) => some (joinLow aLow bLow, joinHigh aHigh bHigh)

def joinNullable : Nullability → Nullability → Nullability
  | .never, .never => .never
  | .always, .always => .always
  | _, _ => .maybe

def joinConstant : Option ConstantValue → Option ConstantValue → Option ConstantValue
  | some ca, some cb => if ca.eq cb then some ca else none
  | _, _ => none

def joinValues (a b : AbstractValue) : AbstractValue where
  type := if a.type = b.type then a.type else none
  range := joinRange a.range b.range
  nullable := joinNullable a.nullable b.nullable
  constant := joinConstant a.constant b.constant

end AbstractValue

structure AbstractState where
  values : AList fun _ : String => AbstractValue

namespace AbstractState

def get (s : AbstractState) (var : String) : AbstractValue :=
  (s.values.lookup var).getD .top

def set (s : AbstractState) (var : String) (value : AbstractValue) : AbstractState :=
  ⟨s.values.insert var value⟩

def allVars (states : List AbstractState) : List String :=
  (states.flatMap fun s => s.values.keys).dedup

/-- The state that maps each of the variables to its value. -/
def ofVars (vars : List String) (value : String → AbstractValue) : AbstractState :=
  ⟨vars.foldl (fun values var => values.insert var (value var)) ∅⟩

def joinStates (ord : HashOrder) : List AbstractState → AbstractState
  | [] => ⟨∅⟩
  | [s] => s
  | s :: states => ofVars (ord.order (allVars (s :: states))) fun var =>
      (states.map (·.get var)).foldl AbstractValue.joinValues (s.get var)

end AbstractState

/-! ## What abstract values stand for -/

/-- The values of a run: null, those that constants denote, and others, by their type. -/
inductive Concrete where
  | null
  | int (v : Int)
  | float (x : F64)
  | string (s : String)
  | bool (b : Bool)
  | other (typeName : String)

namespace Concrete

/-- The name of the type, as abstract values have it. -/
def typeName : Concrete → String
  | null => "NoneType"
  | int _ => "int"
  | float _ => "float"
  | string _ => "str"
  | bool _ => "bool"
  | other name => name

def constant : Concrete → Option ConstantValue
  | null => some .null
  | int v => some (.int v)
  | float x => some (.float x)
  | string s => some (.string s)
  | bool b => some (.bool b)
  | other _ => none

/-- What a range is about: the value of an integer, `0` or `1` for a boolean, the length of a
string. -/
def measure : Concrete → Option Int
  | int v => some v
  | string s => some s.utf8ByteSize
  | bool b => some (if b then 1 else 0)
  | _ => none

end Concrete

def InRange (r : Range) (m : Int) : Prop := (∀ low, r.1 = some low → low ≤ m) ∧
  ∀ high, r.2 = some high → m ≤ high

/-- The value is within the range, if a range is about it. -/
def Within (r : Range) (c : Concrete) : Prop := ∀ m, c.measure = some m → InRange r m

/-- The abstract value admits a value that is not null. -/
structure AbstractValue.AdmitsSome (a : AbstractValue) (c : Concrete) : Prop where
  nullable : a.nullable ≠ .always
  type : ∀ t, a.type = some t → t = c.typeName
  constant : ∀ k, a.constant = some k → ∃ k', c.constant = some k' ∧ k.eq k'
  range : ∀ r, a.range = some r → Within r c

def AbstractValue.Admits (a : AbstractValue) : Concrete → Prop
  | .null => a.nullable ≠ .never
  | c => a.AdmitsSome c

def AbstractState.Admits (s : AbstractState) (ρ : String → Concrete) : Prop :=
  ∀ var, (s.get var).Admits (ρ var)

variable {a b : AbstractValue} {c : Concrete} {r : Range} {k : ConstantValue}

theorem AbstractValue.admits_of_ne (h : c ≠ .null) : a.Admits c ↔ a.AdmitsSome c := by
  cases c with
  | null => exact absurd rfl h
  | _ => exact .rfl

theorem AbstractValue.mayBeZero_of_admits (h : a.Admits (.int 0)) : a.mayBeZero := by
  unfold mayBeZero
  split
  · rfl
  · next low high hr =>
    have hzero := h.range _ hr 0 rfl
    cases low with
    | none => cases high with
      | none => simp
      | some high => simpa using hzero.2 high rfl
    | some low => cases high with
      | none => simpa using hzero.1 low rfl
      | some high => simpa using ⟨hzero.1 low rfl, hzero.2 high rfl⟩

/-! ## Joins of values -/

namespace AbstractValue

theorem inRange_join_left {r s : Range} {m : Int} (h : InRange r m) :
    InRange (joinLow r.1 s.1, joinHigh r.2 s.2) m := by
  obtain ⟨rLow, rHigh⟩ := r
  obtain ⟨sLow, sHigh⟩ := s
  constructor
  · intro low hlow
    cases rLow <;> cases sLow <;> cases hlow
    exact Int.le_trans (Int.min_le_left ..) (h.1 _ rfl)
  · intro high hhigh
    cases rHigh <;> cases sHigh <;> cases hhigh
    exact Int.le_trans (h.2 _ rfl) (Int.le_max_left ..)

theorem joinLow_comm (x y : Option Int) : joinLow x y = joinLow y x := by
  cases x <;> cases y <;> simp [joinLow, Int.min_comm]

theorem joinHigh_comm (x y : Option Int) : joinHigh x y = joinHigh y x := by
  cases x <;> cases y <;> simp [joinHigh, Int.max_comm]

theorem joinRange_comm (x y : Option Range) : joinRange x y = joinRange y x := by
  cases x with
  | none => cases y <;> rfl
  | some x =>
    cases y with
    | none => rfl
    | some y => simp only [joinRange, joinLow_comm x.1, joinHigh_comm x.2]

theorem joinNullable_comm (x y : Nullability) : joinNullable x y = joinNullable y x := by
  cases x <;> cases y <;> rfl

theorem joinNullable_ne_never {x y : Nullability} (h : x ≠ .never) :
    joinNullable x y ≠ .never := by
  cases x <;> cases y <;> simp_all [joinNullable]

theorem joinNullable_ne_always {x y : Nullability} (h : x ≠ .always) :
    joinNullable x y ≠ .always := by
  cases x <;> cases y <;> simp_all [joinNullable]

theorem joinConstant_eq {x y : Option ConstantValue} (h : joinConstant x y = some k) :
    ∃ kx ky, x = some kx ∧ y = some ky ∧ k.eq kx ∧ k.eq ky := by
  cases x with
  | none => cases h
  | some kx =>
    cases y with
    | none => cases h
    | some ky =>
      simp only [joinConstant, Option.ite_none_right_eq_some, Option.some.injEq] at h
      obtain ⟨hxy, rfl⟩ := h
      exact ⟨kx, ky, rfl, rfl, kx.eq_refl, hxy⟩

theorem admitsSome_join_left (h : a.AdmitsSome c)
    (hr : a.range = none → ∀ r, b.range = some r → Within r c) : (joinValues a b).AdmitsSome c := by
  constructor
  · exact joinNullable_ne_always h.nullable
  · intro t ht
    simp only [joinValues, Option.ite_none_right_eq_some] at ht
    exact h.type t ht.2
  · intro k hk
    obtain ⟨ka, -, hka, -, hkka, -⟩ := joinConstant_eq hk
    obtain ⟨k', hk', hkak'⟩ := h.constant ka hka
    exact ⟨k', hk', ConstantValue.eq_trans hkka hkak'⟩
  · intro r hjoin
    change joinRange a.range b.range = some r at hjoin
    cases ha : a.range with
    | none =>
      rw [ha] at hjoin
      cases hb : b.range with
      | none => simp [hb, joinRange] at hjoin
      | some s =>
        rw [hb] at hjoin
        exact hr ha r (hb.trans hjoin)
    | some s =>
      rw [ha] at hjoin
      cases hb : b.range with
      | none =>
        rw [hb] at hjoin
        exact h.range r (ha.trans hjoin)
      | some t =>
        rw [hb] at hjoin
        cases hjoin
        intro m hm
        exact inRange_join_left (h.range s ha m hm)

theorem admitsSome_join_right (h : b.AdmitsSome c)
    (hr : b.range = none → ∀ r, a.range = some r → Within r c) : (joinValues a b).AdmitsSome c := by
  have hba := admitsSome_join_left h hr
  constructor
  · change joinNullable a.nullable b.nullable ≠ .always
    rw [joinNullable_comm]
    exact hba.nullable
  · intro t ht
    refine hba.type t ?_
    simp only [joinValues, Option.ite_none_right_eq_some] at ht ⊢
    exact ⟨ht.1.symm, ht.1 ▸ ht.2⟩
  · intro k hk
    obtain ⟨-, kb, -, hkb, -, hkkb⟩ := joinConstant_eq hk
    obtain ⟨k', hk', hkbk'⟩ := h.constant kb hkb
    exact ⟨k', hk', ConstantValue.eq_trans hkkb hkbk'⟩
  · intro r hjoin
    refine hba.range r ?_
    simp only [joinValues] at hjoin ⊢
    rw [joinRange_comm, hjoin]

theorem admits_join_left (h : a.Admits c)
    (hr : a.range = none → ∀ r, b.range = some r → c ≠ .null → Within r c) :
    (joinValues a b).Admits c := by
  by_cases hc : c = .null
  · subst hc
    exact joinNullable_ne_never h
  · rw [admits_of_ne hc] at h ⊢
    exact admitsSome_join_left h fun ha r hb => hr ha r hb hc

theorem admits_join_right (h : b.Admits c)
    (hr : b.range = none → ∀ r, a.range = some r → c ≠ .null → Within r c) :
    (joinValues a b).Admits c := by
  by_cases hc : c = .null
  · subst hc
    change joinNullable a.nullable b.nullable ≠ .never
    rw [joinNullable_comm]
    exact joinNullable_ne_never h
  · rw [admits_of_ne hc] at h ⊢
    exact admitsSome_join_right h fun hb r ha => hr hb r ha hc

theorem within_of_admits_join (h : (joinValues a b).Admits c) (hc : c ≠ .null)
    (hr : a.range = none ∧ b.range = some r ∨ a.range = some r ∧ b.range = none) : Within r c := by
  rw [admits_of_ne hc] at h
  refine h.range r ?_
  change joinRange a.range b.range = some r
  cases hr with
  | inl hr => rw [hr.1, hr.2]; rfl
  | inr hr => rw [hr.1, hr.2]; rfl

end AbstractValue

/-! ## When a join takes over a range -/

namespace ConstantValue

/-- The type `from_constant` gives the constant. -/
def typeName : ConstantValue → String
  | int _ => "int"
  | float _ => "float"
  | string _ => "str"
  | bool _ => "bool"
  | null => "NoneType"

def measure : ConstantValue → Option Int
  | int v => some v
  | string s => some s.utf8ByteSize
  | bool b => some (if b then 1 else 0)
  | _ => none

def concrete : ConstantValue → Concrete
  | int v => .int v
  | float x => .float x
  | string s => .string s
  | bool b => .bool b
  | null => .null

@[simp] theorem constant_concrete (k : ConstantValue) : k.concrete.constant = some k := by
  cases k <;> rfl

@[simp] theorem typeName_concrete (k : ConstantValue) : k.concrete.typeName = k.typeName := by
  cases k <;> rfl

@[simp] theorem measure_concrete (k : ConstantValue) : k.concrete.measure = k.measure := by
  cases k <;> rfl

theorem concrete_of_constant (h : c.constant = some k) : c = k.concrete := by
  cases c <;> cases h <;> rfl

theorem measure_of_eq {k k' : ConstantValue} (h : k.eq k') : k.measure = k'.measure := by
  cases k <;> cases k' <;> simp_all [ConstantValue.eq, measure]

theorem typeName_of_eq {k k' : ConstantValue} (h : k.eq k') : k.typeName = k'.typeName := by
  cases k <;> cases k' <;> simp_all [ConstantValue.eq, typeName]

end ConstantValue

def Unbounded (r : Range) : Prop := r = (none, none)

/-- What a type says about the measures of its values does not exceed the range. -/
def TypeKept (r : Range) (t : String) : Prop :=
  (t = "int" → Unbounded r) ∧ (t = "str" → InRange r 0 ∧ r.2 = none) ∧
    (t = "bool" → InRange r 0 ∧ InRange r 1)

/-- The abstract value, which has no range of its own, loses nothing by taking over this one: it
stands for null only, its constant is in the range, or all values of its type are. -/
def AbstractValue.KeptBy (a : AbstractValue) (r : Range) : Prop :=
  a.nullable = .always ∨
    match a.constant, a.type with
    | some k, t => (∀ t', t = some t' → t' = k.typeName) → ∀ m, k.measure = some m → InRange r m
    | none, some t => TypeKept r t
    | none, none => Unbounded r

theorem unbounded_iff : Unbounded r ↔ ∀ m, InRange r m := by
  constructor
  · intro h m
    subst h
    exact ⟨nofun, nofun⟩
  · intro h
    obtain ⟨low, high⟩ := r
    cases low with
    | some low =>
      have := (h (low - 1)).1 low rfl
      omega
    | none =>
      cases high with
      | some high =>
        have := (h (high + 1)).2 high rfl
        omega
      | none => rfl

theorem exists_utf8ByteSize (n : Nat) : ∃ s : String, s.utf8ByteSize = n := by
  induction n with
  | zero => exact ⟨"", rfl⟩
  | succ n ih =>
    obtain ⟨s, hs⟩ := ih
    exact ⟨s.push 'a', by rw [String.utf8ByteSize_push, hs]; rfl⟩

theorem inRange_natCast_iff : (InRange r 0 ∧ r.2 = none) ↔ ∀ n : Nat, InRange r n := by
  constructor
  · intro h n
    refine ⟨fun low hlow => ?_, fun high hhigh => by rw [h.2] at hhigh; cases hhigh⟩
    have := h.1.1 low hlow
    omega
  · intro h
    refine ⟨h 0, ?_⟩
    cases hhigh : r.2 with
    | none => rfl
    | some high =>
      have := (h (high.toNat + 1)).2 high hhigh
      omega

theorem typeKept_iff {t : String} : TypeKept r t ↔ ∀ c : Concrete, t = c.typeName → Within r c := by
  constructor
  · intro h c ht m hm
    cases c with
    | int v => exact unbounded_iff.1 (h.1 ht) m
    | string s =>
      cases hm
      exact inRange_natCast_iff.1 (h.2.1 ht) _
    | bool b =>
      cases hm
      cases b with
      | false => exact (h.2.2 ht).1
      | true => exact (h.2.2 ht).2
    | _ => cases hm
  · intro h
    refine ⟨fun ht => ?_, fun ht => ?_, fun ht => ⟨?_, ?_⟩⟩
    · exact unbounded_iff.2 fun m => h (.int m) ht m rfl
    · refine inRange_natCast_iff.2 fun n => ?_
      obtain ⟨s, rfl⟩ := exists_utf8ByteSize n
      exact h (.string s) ht _ rfl
    · exact h (.bool false) ht 0 rfl
    · exact h (.bool true) ht 1 rfl

theorem AbstractValue.keptBy_iff (ha : a.range = none) :
    a.KeptBy r ↔ ∀ c, a.Admits c → c ≠ .null → Within r c := by
  have hadmits : ∀ c : Concrete, c ≠ .null → a.nullable ≠ .always →
      (∀ t, a.type = some t → t = c.typeName) →
      (∀ k, a.constant = some k → ∃ k', c.constant = some k' ∧ k.eq k') → a.Admits c := by
    intro c hc hnull ht hk
    rw [admits_of_ne hc]
    exact ⟨hnull, ht, hk, fun r hr => by rw [ha] at hr; cases hr⟩
  unfold KeptBy
  cases hk : a.constant with
  | some k =>
    constructor
    · intro h c hac hc m hm
      rw [admits_of_ne hc] at hac
      obtain ⟨k', hk', hkk'⟩ := hac.constant k hk
      have hck := ConstantValue.concrete_of_constant hk'
      rw [hck, ConstantValue.measure_concrete, ← ConstantValue.measure_of_eq hkk'] at hm
      refine (h.resolve_left hac.nullable) (fun t ht => ?_) m hm
      rw [hac.type t ht, hck, ConstantValue.typeName_concrete, ConstantValue.typeName_of_eq hkk']
    · intro h
      refine or_iff_not_imp_left.2 fun hnull htype m hm => ?_
      have hne : k.concrete ≠ .null := by
        intro hnull
        rw [← ConstantValue.measure_concrete, hnull] at hm
        cases hm
      refine h k.concrete (hadmits _ hne hnull (fun t ht => ?_) fun k' hk' => ?_) hne m ?_
      · rw [ConstantValue.typeName_concrete, htype t ht]
      · rw [hk] at hk'
        cases hk'
        exact ⟨k, k.constant_concrete, k.eq_refl⟩
      · rw [ConstantValue.measure_concrete, hm]
  | none =>
    have hconst : ∀ (c : Concrete) k, a.constant = some k →
        ∃ k', c.constant = some k' ∧ k.eq k' := by
      intro c k hk'
      rw [hk] at hk'
      cases hk'
    cases ht : a.type with
    | some t =>
      constructor
      · intro h c hac hc
        rw [admits_of_ne hc] at hac
        exact typeKept_iff.1 (h.resolve_left hac.nullable) c (hac.type t ht)
      · intro h
        refine or_iff_not_imp_left.2 fun hnull => typeKept_iff.2 fun c htc => ?_
        by_cases hc : c = .null
        · subst hc
          intro m hm
          cases hm
        · exact h c (hadmits c hc hnull (fun t' ht' => by rw [ht] at ht'; cases ht'; exact htc)
            (hconst c)) hc
    | none =>
      constructor
      · intro h c hac hc m _
        rw [admits_of_ne hc] at hac
        exact unbounded_iff.1 (h.resolve_left hac.nullable) m
      · intro h
        refine or_iff_not_imp_left.2 fun hnull => unbounded_iff.2 fun m => ?_
        refine h (.int m) (hadmits _ nofun hnull (fun t' ht' => ?_) (hconst _)) nofun m rfl
        rw [ht] at ht'
        cases ht'

/-- Where `a` has no range and `b` has one, `a` loses nothing by it. -/
def AbstractValue.Kept (a b : AbstractValue) : Prop :=
  ∀ r, a.range = none → b.range = some r → a.KeptBy r

/-- A join of values keeps what the left side admits if and only if the range it may take over
does. -/
theorem AbstractValue.join_left_iff :
    (∀ c, a.Admits c → (joinValues a b).Admits c) ↔ a.Kept b := by
  constructor
  · intro h r ha hb
    refine (keptBy_iff ha).2 fun c hac hc => ?_
    exact within_of_admits_join (h c hac) hc (.inl ⟨ha, hb⟩)
  · intro h c hac
    exact admits_join_left hac fun ha r hb hc => (keptBy_iff ha).1 (h r ha hb) c hac hc

theorem AbstractValue.join_right_iff :
    (∀ c, b.Admits c → (joinValues a b).Admits c) ↔ b.Kept a := by
  constructor
  · intro h r hb ha
    refine (keptBy_iff hb).2 fun c hbc hc => ?_
    exact within_of_admits_join (h c hbc) hc (.inr ⟨ha, hb⟩)
  · intro h c hbc
    exact admits_join_right hbc fun hb r ha hc => (keptBy_iff hb).1 (h r hb ha) c hbc hc

/-! ## Joins of states -/

namespace AbstractState

variable {s t : AbstractState} {ord : HashOrder} {var : String}

theorem get_ofVars (vars : List String) (value : String → AbstractValue) (var : String) :
    (ofVars vars value).get var = if var ∈ vars then value var else .top := by
  have step : ∀ (vars : List String) (values : AList fun _ : String => AbstractValue),
      (vars.foldl (fun values var => values.insert var (value var)) values).lookup var =
        if var ∈ vars then some (value var) else values.lookup var := by
    intro vars
    induction vars with
    | nil => simp
    | cons v vars ih =>
      intro values
      rw [List.foldl_cons, ih]
      by_cases hvars : var ∈ vars
      · simp [hvars]
      · by_cases hv : var = v
        · subst hv
          simp
        · simp [hvars, hv, AList.lookup_insert_ne]
  unfold get ofVars
  rw [step]
  split <;> rfl

theorem get_of_notMem (h : var ∉ s.values.keys) : s.get var = .top := by
  unfold get
  rw [AList.lookup_eq_none.2 (by simpa [AList.mem_keys] using h)]
  rfl

/-- The join of two states is their join variable by variable: a variable that neither has is
unknown in both. -/
theorem get_joinStates : (joinStates ord [s, t]).get var =
    AbstractValue.joinValues (s.get var) (t.get var) := by
  change (ofVars _ _).get var = _
  rw [get_ofVars]
  split
  · rfl
  · next h =>
    have hnot : var ∉ s.values.keys ∧ var ∉ t.values.keys := by simpa [allVars] using h
    rw [get_of_notMem hnot.1, get_of_notMem hnot.2]
    rfl

theorem Admits.update {ρ : String → Concrete} (h : s.Admits ρ) (hc : (s.get var).Admits c) :
    s.Admits (Function.update ρ var c) := by
  intro v
  by_cases hv : v = var
  · subst hv
    rwa [Function.update_self]
  · rw [Function.update_of_ne hv]
    exact h v

theorem join_left_iff :
    (∀ ρ, s.Admits ρ → (joinStates ord [s, t]).Admits ρ) ↔
      ((∃ ρ, s.Admits ρ) → ∀ var, (s.get var).Kept (t.get var)) := by
  constructor
  · rintro h ⟨ρ, hρ⟩ var
    refine AbstractValue.join_left_iff.1 fun c hc => ?_
    have hjoin := h _ (hρ.update hc) var
    rwa [get_joinStates, Function.update_self] at hjoin
  · intro h ρ hρ var
    rw [get_joinStates]
    exact AbstractValue.join_left_iff.2 (h ⟨ρ, hρ⟩ var) _ (hρ var)

theorem join_right_iff :
    (∀ ρ, t.Admits ρ → (joinStates ord [s, t]).Admits ρ) ↔
      ((∃ ρ, t.Admits ρ) → ∀ var, (t.get var).Kept (s.get var)) := by
  constructor
  · rintro h ⟨ρ, hρ⟩ var
    refine AbstractValue.join_right_iff.1 fun c hc => ?_
    have hjoin := h _ (hρ.update hc) var
    rwa [get_joinStates, Function.update_self] at hjoin
  · intro h ρ hρ var
    rw [get_joinStates]
    exact AbstractValue.join_right_iff.2 (h ⟨ρ, hρ⟩ var) _ (hρ var)

end AbstractState

/-- A join of values keeps all that either side admits if and only if no side without a range has
values out of the range of the other, and a join of states if and only if this is so for every
variable. -/
theorem join_sound_iff (ord : HashOrder) (a b : AbstractValue) (s t : AbstractState) :
    ((∀ c, a.Admits c ∨ b.Admits c → (AbstractValue.joinValues a b).Admits c) ↔
      a.Kept b ∧ b.Kept a) ∧
    ((∀ ρ, s.Admits ρ ∨ t.Admits ρ → (AbstractState.joinStates ord [s, t]).Admits ρ) ↔
      ((∃ ρ, s.Admits ρ) → ∀ var, (s.get var).Kept (t.get var)) ∧
      ((∃ ρ, t.Admits ρ) → ∀ var, (t.get var).Kept (s.get var))) := by
  constructor
  · rw [← AbstractValue.join_left_iff, ← AbstractValue.join_right_iff, ← forall_and]
    exact forall_congr' fun c => or_imp
  · have hleft : (∀ ρ, s.Admits ρ → (AbstractState.joinStates ord [s, t]).Admits ρ) ↔ _ :=
      AbstractState.join_left_iff
    have hright : (∀ ρ, t.Admits ρ → (AbstractState.joinStates ord [s, t]).Admits ρ) ↔ _ :=
      AbstractState.join_right_iff
    rw [← hleft, ← hright, ← forall_and]
    exact forall_congr' fun ρ => or_imp

/-- An unknown value joined with the constant one loses zero, and division by the result passes as
safe. -/
theorem join_top_one_unsound :
    ¬ ((∀ (a b : AbstractValue) (c : Concrete), a.Admits c ∨ b.Admits c →
        (AbstractValue.joinValues a b).Admits c) ∧
      ∀ (ord : HashOrder) (s t : AbstractState) (ρ : String → Concrete),
        s.Admits ρ ∨ t.Admits ρ → (AbstractState.joinStates ord [s, t]).Admits ρ) := by
  intro h
  have hzero := h.1 .top (.fromConstant (.int 1)) (.int 0) (.inl ⟨nofun, nofun, nofun, nofun⟩)
  exact absurd (AbstractValue.mayBeZero_of_admits hzero) (by decide)

end TldrCode.Dataflow
