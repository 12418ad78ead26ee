import Mathlib.Data.List.Dedup
import TldrCode.Ssa.Types
import TldrCode.Types

/-!
# Value numbers

`compute_value_numbers` of `ssa/analysis.rs` walks over the blocks in the order of the list and
gives every name the number of the canonical expression that defines it. It is one fold over the
definitions (`numbering_eq_foldl`); `Numbers` says what numbers and keys they get, if every name is
defined once.
-/

namespace TldrCode.Ssa

open Function (update)

/-! ## The computation -/

inductive CanonicalExpr where
  | leaf (key : String)
  | binaryOp (op : String) (operands : Nat × Nat)
  | unaryOp (op : String) (operand : Nat)
  | phi (sources : List Nat)
  | call (counter : Nat)
  deriving DecidableEq, Repr

/-- The variables of `compute_value_numbers`. -/
structure NumberingState where
  valueNumbers : Nat → Option Nat
  exprToNumber : CanonicalExpr → Option Nat
  nextNumber : Nat
  callCounter : Nat

structure ValueNumbering where
  function : String
  valueNumbers : Nat → Option Nat
  equivalences : Nat → Option (List Nat)

def opName (sourceText : Option String) : String :=
  (sourceText.bind fun s =>
    if '+' ∈ s.toList then some "+"
    else if '*' ∈ s.toList then some "*"
    else if '-' ∈ s.toList then some "-"
    else if '/' ∈ s.toList then some "/"
    else none).getD "binop"

/-- What an instruction with a target is given: the number of an operand, the number of an
expression, or nothing. -/
inductive InstNumber where
  | copy (number : Nat)
  | expr (e : CanonicalExpr)
  | skip
  deriving DecidableEq, Repr

namespace NumberingState

def start : NumberingState := ⟨fun _ => none, fun _ => none, 0, 0⟩

variable (s : NumberingState)

/-- `get_or_create_number`, whose result becomes the number of `target`. -/
def insertExpr (target : Nat) (expr : CanonicalExpr) : NumberingState :=
  match s.exprToNumber expr with
  | some number => { s with valueNumbers := update s.valueNumbers target (some number) }
  | none =>
    { s with
      valueNumbers := update s.valueNumbers target (some s.nextNumber)
      exprToNumber := update s.exprToNumber expr (some s.nextNumber)
      nextNumber := s.nextNumber + 1 }

def numberPhi (phi : PhiFunction) : NumberingState :=
  s.insertExpr phi.target (.phi (phi.sources.filterMap fun source => s.valueNumbers source.name))

end NumberingState

/-- `Param | Assign`. -/
def assignExpr (sourceText : Option String) (target : Nat) : List Nat → InstNumber
  | [] => .expr (.leaf (sourceText.getD s!"const_{target}"))
  -- simple assignment x = y: same value number as source
  | [sourceVn] => .copy sourceVn
  | _ :: _ :: _ => .expr (.leaf s!"assign_{target}")

/-- `BinaryOp`, with the operands sorted for commutative operations. -/
def binaryExpr (sourceText : Option String) (target : Nat) : List Nat → InstNumber
  | left :: right :: _ =>
    let op := opName sourceText
    let operands := if (op = "+" ∨ op = "*") ∧ left > right then (right, left) else (left, right)
    .expr (.binaryOp op operands)
  | [] => .expr (.leaf s!"binop_{target}")
  | [_] => .expr (.leaf s!"binop_{target}")

/-- `UnaryOp`. -/
def unaryExpr (target : Nat) : List Nat → InstNumber
  | operand :: _ => .expr (.unaryOp "unary" operand)
  | [] => .expr (.leaf s!"unary_{target}")

/-- The expression of an instruction whose numbered operands have the numbers `useNumbers`;
`callCounter` is the value after its increment for a call. -/
def canonicalExpr (instr : SsaInstruction) (target : Nat) (useNumbers : List Nat)
    (callCounter : Nat) : InstNumber :=
  match instr.kind with
  | .param => assignExpr instr.sourceText target useNumbers
  | .assign => assignExpr instr.sourceText target useNumbers
  | .binaryOp => binaryExpr instr.sourceText target useNumbers
  | .unaryOp => unaryExpr target useNumbers
  | .call => .expr (.call callCounter)
  | .return => .skip
  | .branch => .skip

namespace NumberingState

variable (s : NumberingState)

def numberInst (instr : SsaInstruction) : NumberingState :=
  match instr.target with
  | none => s
  | some target =>
    let callCounter := if instr.kind = .call then s.callCounter + 1 else s.callCounter
    match canonicalExpr instr target (instr.uses.filterMap s.valueNumbers) callCounter with
    | .copy number => { s with valueNumbers := update s.valueNumbers target (some number) }
    | .expr e => { s with callCounter }.insertExpr target e
    | .skip => s

def numberBlock (block : SsaBlock) : NumberingState :=
  block.instructions.foldl numberInst (block.phiFunctions.foldl numberPhi s)

end NumberingState

def numbering (ssa : SsaFunction) : NumberingState :=
  ssa.blocks.foldl NumberingState.numberBlock .start

def computeValueNumbers (ord : HashOrder) (ssa : SsaFunction) : ValueNumbering where
  function := ssa.function
  valueNumbers := (numbering ssa).valueNumbers
  equivalences := fun number =>
    let names := (ord.order ssa.targets.dedup).filter fun name =>
      (numbering ssa).valueNumbers name = some number
    if names.isEmpty then none else some names

/-! ## Definitions in order -/

/-- A definition of a name, by a phi function of a block or by an instruction. -/
inductive ValueDef where
  | phi (block : Nat) (phi : PhiFunction)
  | inst (instr : SsaInstruction)
  deriving DecidableEq, Repr

namespace ValueDef

def numbered : ValueDef → Option Nat
  | phi _ f => some f.target
  | inst instr => if instr.kind = .return ∨ instr.kind = .branch then none else instr.target

def number (s : NumberingState) : ValueDef → NumberingState
  | phi _ f => s.numberPhi f
  | inst instr => s.numberInst instr

/-- What the name `target` of the definition is given, where the names have the numbers `nums` and
`callCounter` calls came before. -/
def instNumber (nums : Nat → Option Nat) (target callCounter : Nat) : ValueDef → InstNumber
  | phi _ f => .expr (.phi (f.sources.filterMap fun source => nums source.name))
  | inst instr => canonicalExpr instr target (instr.uses.filterMap nums)
      (if instr.kind = .call then callCounter + 1 else callCounter)

end ValueDef

def SsaBlock.valueDefs (block : SsaBlock) : List ValueDef :=
  block.phiFunctions.map (.phi block.id) ++ block.instructions.map .inst

/-- All definitions, in the order of the walk. -/
def SsaFunction.valueDefs (ssa : SsaFunction) : List ValueDef :=
  ssa.blocks.flatMap (·.valueDefs)

/-- The variables before the definition number `i`. -/
def stateAt (ssa : SsaFunction) (i : Nat) : NumberingState :=
  (ssa.valueDefs.take i).foldl ValueDef.number .start

/-- The names that are numbered before the definition number `i`. -/
def earlier (ssa : SsaFunction) (i : Nat) : List Nat :=
  (ssa.valueDefs.take i).filterMap (·.numbered)

variable {ssa : SsaFunction} {s : NumberingState} {d d' : ValueDef} {defs : List ValueDef}
  {instr : SsaInstruction} {e e' : CanonicalExpr} {i j n t v : Nat} {nums : List Nat}

theorem numbering_eq_foldl (ssa : SsaFunction) :
    numbering ssa = ssa.valueDefs.foldl ValueDef.number .start := by
  rw [SsaFunction.valueDefs, List.foldl_flatMap, numbering]
  congr 1
  funext s block
  rw [SsaBlock.valueDefs, List.foldl_append, List.foldl_map, List.foldl_map]
  rfl

theorem filterMap_numbered_sublist (ssa : SsaFunction) :
    (ssa.valueDefs.filterMap (·.numbered)).Sublist ssa.targets := by
  have hblock : ∀ block : SsaBlock,
      (block.valueDefs.filterMap (·.numbered)).Sublist block.targets := by
    intro block
    rw [SsaBlock.valueDefs, SsaBlock.targets, List.filterMap_append, List.filterMap_map,
      List.filterMap_map]
    have hphi : (block.phiFunctions.filterMap ((·.numbered) ∘ ValueDef.phi block.id)) =
        block.phiFunctions.map (·.target) := congrFun List.filterMap_eq_map _
    rw [hphi]
    refine List.Sublist.append (List.Sublist.refl _) ?_
    induction block.instructions with
    | nil => exact .slnil
    | cons instr instrs ih =>
      rw [List.filterMap_cons, List.filterMap_cons, Function.comp_apply, ValueDef.numbered]
      split_ifs with hkind
      · cases instr.target with
        | none => exact ih
        | some t => exact ih.cons t
      · cases instr.target with
        | none => exact ih
        | some t => exact ih.cons_cons t
  rw [SsaFunction.valueDefs, SsaFunction.targets, List.filterMap_flatMap]
  induction ssa.blocks with
  | nil => exact .slnil
  | cons block blocks ih =>
    rw [List.flatMap_cons, List.flatMap_cons]
    exact (hblock block).append ih

/-! ## One definition -/

namespace NumberingState

/-- Every number in the table is one that was handed out, and no two expressions have the same. -/
structure TableOk (s : NumberingState) : Prop where
  lt : ∀ e v, s.exprToNumber e = some v → v < s.nextNumber
  inj : ∀ e e' v, s.exprToNumber e = some v → s.exprToNumber e' = some v → e = e'

theorem TableOk.insertExpr (h : s.TableOk) (target : Nat) (e : CanonicalExpr) :
    (s.insertExpr target e).TableOk := by
  rw [NumberingState.insertExpr]
  cases he : s.exprToNumber e with
  | some v => exact ⟨h.lt, h.inj⟩
  | none =>
    refine ⟨fun e' v hv => ?_, fun e₁ e₂ v h₁ h₂ => ?_⟩
    · simp only [Function.update_apply] at hv
      dsimp only
      split_ifs at hv with heq
      · simp only [Option.some_inj] at hv
        omega
      · have := h.lt e' v hv
        omega
    · simp only [Function.update_apply] at h₁ h₂
      split_ifs at h₁ h₂ with heq₁ heq₂ heq₂
      · rw [heq₁, heq₂]
      · have := h.lt e₂ v h₂
        simp only [Option.some_inj] at h₁
        omega
      · have := h.lt e₁ v h₁
        simp only [Option.some_inj] at h₂
        omega
      · exact h.inj e₁ e₂ v h₁ h₂

/-- The expression is in the table afterwards, with the number of the target. -/
theorem insertExpr_target (s : NumberingState) (t : Nat) (e : CanonicalExpr) :
    ∃ v, (s.insertExpr t e).valueNumbers t = some v ∧
      (s.insertExpr t e).exprToNumber e = some v := by
  rw [insertExpr]
  cases he : s.exprToNumber e with
  | some v => exact ⟨v, by simp, he⟩
  | none => exact ⟨s.nextNumber, by simp, by simp⟩

theorem insertExpr_of_ne (s : NumberingState) (e : CanonicalExpr) (h : n ≠ t) :
    (s.insertExpr t e).valueNumbers n = s.valueNumbers n := by
  rw [insertExpr]
  cases s.exprToNumber e with
  | some v => exact Function.update_of_ne h ..
  | none => exact Function.update_of_ne h ..

theorem insertExpr_mono (s : NumberingState) (t : Nat) (e : CanonicalExpr)
    (h : s.exprToNumber e' = some v) : (s.insertExpr t e).exprToNumber e' = some v := by
  rw [insertExpr]
  cases he : s.exprToNumber e with
  | some v' => exact h
  | none =>
    have hne : e' ≠ e := fun heq => by simp [heq, he] at h
    exact (Function.update_of_ne hne ..).trans h

theorem insertExpr_callCounter (s : NumberingState) (t : Nat) (e : CanonicalExpr) :
    (s.insertExpr t e).callCounter = s.callCounter := by
  rw [insertExpr]
  cases s.exprToNumber e <;> rfl

end NumberingState

theorem canonicalExpr_call {target callCounter c : Nat}
    (h : canonicalExpr instr target nums callCounter = .expr (.call c)) :
    instr.kind = .call ∧ c = callCounter := by
  cases hkind : instr.kind with
  | call =>
    simp only [canonicalExpr, hkind, InstNumber.expr.injEq, CanonicalExpr.call.injEq] at h
    exact ⟨rfl, h.symm⟩
  | param | assign =>
    match nums with
    | [] | [_] | _ :: _ :: _ => simp [canonicalExpr, hkind, assignExpr] at h
  | binaryOp =>
    match nums with
    | [] | [_] | _ :: _ :: _ => simp [canonicalExpr, hkind, binaryExpr] at h
  | unaryOp => match nums with | [] | _ :: _ => simp [canonicalExpr, hkind, unaryExpr] at h
  | «return» => simp [canonicalExpr, hkind] at h
  | branch => simp [canonicalExpr, hkind] at h

theorem canonicalExpr_skip {target callCounter : Nat} :
    canonicalExpr instr target nums callCounter = .skip ↔
      instr.kind = .return ∨ instr.kind = .branch := by
  cases hkind : instr.kind with
  | param => match nums with | [] | [_] | _ :: _ :: _ => simp [canonicalExpr, hkind, assignExpr]
  | assign => match nums with | [] | [_] | _ :: _ :: _ => simp [canonicalExpr, hkind, assignExpr]
  | binaryOp => match nums with | [] | [_] | _ :: _ :: _ => simp [canonicalExpr, hkind, binaryExpr]
  | unaryOp => match nums with | [] | _ :: _ => simp [canonicalExpr, hkind, unaryExpr]
  | call => simp [canonicalExpr, hkind]
  | «return» => simp [canonicalExpr, hkind]
  | branch => simp [canonicalExpr, hkind]

theorem ValueDef.number_of_none (h : d.numbered = none) : d.number s = s := by
  cases d with
  | phi block f => cases h
  | inst instr =>
    rw [ValueDef.number, NumberingState.numberInst]
    cases ht : instr.target with
    | none => rfl
    | some t =>
      have hkind : instr.kind = .return ∨ instr.kind = .branch := by
        by_contra hkind
        simp [ValueDef.numbered, hkind, ht] at h
      dsimp only
      rw [canonicalExpr_skip.2 hkind]

theorem ValueDef.number_of_some (h : d.numbered = some t) :
    (∃ v, d.instNumber s.valueNumbers t s.callCounter = .copy v ∧
      d.number s = { s with valueNumbers := update s.valueNumbers t (some v) }) ∨
    ∃ e c, d.instNumber s.valueNumbers t s.callCounter = .expr e ∧ s.callCounter ≤ c ∧
      (∀ c', e = .call c' → c' = c ∧ s.callCounter < c) ∧
      d.number s = { s with callCounter := c }.insertExpr t e := by
  cases d with
  | phi block f =>
    obtain rfl := Option.some_inj.1 h
    exact .inr ⟨_, s.callCounter, rfl, le_rfl, fun _ he => (by cases he), rfl⟩
  | inst instr =>
    rw [ValueDef.numbered] at h
    split_ifs at h with hkind
    rw [ValueDef.number, NumberingState.numberInst, h, ValueDef.instNumber]
    dsimp only
    cases hc : canonicalExpr instr t (instr.uses.filterMap s.valueNumbers)
        (if instr.kind = .call then s.callCounter + 1 else s.callCounter) with
    | copy v => exact .inl ⟨v, rfl, rfl⟩
    | expr e =>
      refine .inr ⟨e, _, rfl, ?_, fun c' he => ?_, rfl⟩
      · split_ifs <;> omega
      · rw [he] at hc
        obtain ⟨hcall, rfl⟩ := canonicalExpr_call hc
        rw [if_pos hcall]
        exact ⟨rfl, Nat.lt_succ_self _⟩
    | skip => exact absurd (canonicalExpr_skip.1 hc) hkind

/-! ## All definitions -/

/-- The variables only grow, but for numbers of names that are defined again. -/
structure NumberingState.Grows (s s' : NumberingState) : Prop where
  table : ∀ e v, s.exprToNumber e = some v → s'.exprToNumber e = some v
  calls : s.callCounter ≤ s'.callCounter

theorem ValueDef.number_grows (d : ValueDef) (s : NumberingState) : s.Grows (d.number s) := by
  cases h : d.numbered with
  | none =>
    rw [ValueDef.number_of_none h]
    exact ⟨fun _ _ => id, le_rfl⟩
  | some t =>
    rcases ValueDef.number_of_some (s := s) h with ⟨v, -, heq⟩ | ⟨e, c, -, hc, -, heq⟩
    · rw [heq]
      exact ⟨fun _ _ => id, le_rfl⟩
    · rw [heq]
      refine ⟨fun e' v hv => NumberingState.insertExpr_mono _ t e hv, ?_⟩
      rw [NumberingState.insertExpr_callCounter]
      exact hc

theorem ValueDef.number_tableOk (d : ValueDef) (h : s.TableOk) : (d.number s).TableOk := by
  cases hd : d.numbered with
  | none => rwa [ValueDef.number_of_none hd]
  | some t =>
    rcases ValueDef.number_of_some (s := s) hd with ⟨v, -, heq⟩ | ⟨e, c, -, -, -, heq⟩
    · rw [heq]
      exact ⟨h.lt, h.inj⟩
    · rw [heq]
      exact NumberingState.TableOk.insertExpr (s := { s with callCounter := c }) ⟨h.lt, h.inj⟩ t e

theorem ValueDef.number_of_ne (h : d.numbered ≠ some n) :
    (d.number s).valueNumbers n = s.valueNumbers n := by
  cases hd : d.numbered with
  | none => rw [ValueDef.number_of_none hd]
  | some t =>
    have hne : n ≠ t := fun he => h (he ▸ hd)
    rcases ValueDef.number_of_some (s := s) hd with ⟨v, -, heq⟩ | ⟨e, c, -, -, -, heq⟩
    · rw [heq]
      exact Function.update_of_ne hne ..
    · rw [heq, NumberingState.insertExpr_of_ne _ e hne]

theorem foldl_number_grows (defs : List ValueDef) :
    ∀ s : NumberingState, s.Grows (defs.foldl ValueDef.number s) := by
  induction defs with
  | nil => exact fun _ => ⟨fun _ _ => id, le_rfl⟩
  | cons d defs ih =>
    intro s
    have h₁ := d.number_grows s
    have h₂ := ih (d.number s)
    exact ⟨fun e v hv => h₂.table e v (h₁.table e v hv), h₁.calls.trans h₂.calls⟩

theorem foldl_number_tableOk (defs : List ValueDef) :
    ∀ s : NumberingState, s.TableOk → (defs.foldl ValueDef.number s).TableOk :=
  fun _ h => List.foldlRecOn defs _ h fun _ h d _ => d.number_tableOk h

theorem foldl_number_of_notMem (defs : List ValueDef) (h : n ∉ defs.filterMap (·.numbered)) :
    ∀ s : NumberingState, (defs.foldl ValueDef.number s).valueNumbers n = s.valueNumbers n := by
  induction defs with
  | nil => exact fun _ => rfl
  | cons d defs ih =>
    intro s
    have hd : d.numbered ≠ some n := by
      intro hd
      exact h (List.mem_filterMap.2 ⟨d, List.mem_cons_self, hd⟩)
    have hn : n ∉ defs.filterMap (·.numbered) := by
      intro hn
      obtain ⟨d', hm, hd'⟩ := List.mem_filterMap.1 hn
      exact h (List.mem_filterMap.2 ⟨d', List.mem_cons_of_mem _ hm, hd'⟩)
    rw [List.foldl_cons, ih hn, ValueDef.number_of_ne hd]

theorem numbering_tableOk (ssa : SsaFunction) : (numbering ssa).TableOk := by
  rw [numbering_eq_foldl]
  exact foldl_number_tableOk _ _ ⟨fun _ _ h => (by cases h), fun _ _ _ h => (by cases h)⟩

theorem numbering_eq_drop (ssa : SsaFunction) (i : Nat) :
    numbering ssa = (ssa.valueDefs.drop i).foldl ValueDef.number (stateAt ssa i) := by
  rw [numbering_eq_foldl, stateAt, ← List.foldl_append, List.take_append_drop]

theorem stateAt_succ (h : ssa.valueDefs[i]? = some d) :
    stateAt ssa (i + 1) = d.number (stateAt ssa i) := by
  rw [stateAt, List.take_add_one, h, Option.toList_some, List.foldl_append]
  rfl

/-- The numbers that the definition number `i` sees. -/
def numberAt (ssa : SsaFunction) (i n : Nat) : Option Nat :=
  if n ∈ earlier ssa i then (numbering ssa).valueNumbers n else none

section Nodup

variable (hnodup : (ssa.valueDefs.filterMap (·.numbered)).Nodup)
include hnodup

theorem stateAt_valueNumbers (i : Nat) : (stateAt ssa i).valueNumbers = numberAt ssa i := by
  funext n
  rw [numberAt]
  split_ifs with hn
  · rw [numbering_eq_drop ssa i, foldl_number_of_notMem]
    intro hn'
    have := ssa.valueDefs.take_append_drop i ▸ hnodup
    rw [List.filterMap_append] at this
    exact (List.nodup_append.1 this).2.2 n hn n hn' rfl
  · exact foldl_number_of_notMem _ hn .start

/-- **What a name is numbered by.** -/
theorem valueNumbers_spec (hd : ssa.valueDefs[i]? = some d) (ht : d.numbered = some t) :
    (∃ v, d.instNumber (numberAt ssa i) t (stateAt ssa i).callCounter = .copy v ∧
      (numbering ssa).valueNumbers t = some v) ∨
    ∃ e v, d.instNumber (numberAt ssa i) t (stateAt ssa i).callCounter = .expr e ∧
      (numbering ssa).valueNumbers t = some v ∧ (numbering ssa).exprToNumber e = some v ∧
      ∀ c, e = .call c → (stateAt ssa i).callCounter < c ∧
        c ≤ (stateAt ssa (i + 1)).callCounter := by
  have hlater : t ∉ (ssa.valueDefs.drop (i + 1)).filterMap (·.numbered) := by
    intro hm
    have hsplit := ssa.valueDefs.take_append_drop (i + 1) ▸ hnodup
    rw [List.filterMap_append] at hsplit
    refine (List.nodup_append.1 hsplit).2.2 t ?_ t hm rfl
    refine List.mem_filterMap.2 ⟨d, ?_, ht⟩
    rw [List.take_add_one, hd]
    simp
  have hnum : (numbering ssa).valueNumbers t = (d.number (stateAt ssa i)).valueNumbers t := by
    rw [numbering_eq_drop ssa (i + 1), foldl_number_of_notMem _ hlater, stateAt_succ hd]
  have hgrows : (d.number (stateAt ssa i)).Grows (numbering ssa) := by
    rw [numbering_eq_drop ssa (i + 1), stateAt_succ hd]
    exact foldl_number_grows _ _
  rw [← stateAt_valueNumbers hnodup i, hnum, stateAt_succ hd]
  rcases ValueDef.number_of_some (s := stateAt ssa i) ht with
    ⟨v, hv, heq⟩ | ⟨e, c, he, -, hcall, heq⟩
  · refine .inl ⟨v, hv, ?_⟩
    rw [heq]
    exact Function.update_self ..
  · obtain ⟨v, hv, hv'⟩ :=
      NumberingState.insertExpr_target { stateAt ssa i with callCounter := c } t e
    rw [← heq] at hv hv'
    refine .inr ⟨e, v, he, hv, hgrows.table e v hv', fun c' he' => ?_⟩
    obtain ⟨rfl, hlt⟩ := hcall c' he'
    rw [heq, NumberingState.insertExpr_callCounter]
    exact ⟨hlt, le_rfl⟩

end Nodup

end TldrCode.Ssa
