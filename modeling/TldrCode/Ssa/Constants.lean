import Mathlib.Data.Int.Order.Basic
import TldrCode.Dataflow.Expressions
import TldrCode.Ssa.Types

/-!
# Constants

The values of `run_sccp` and how an instruction gets its value from those of its operands. A value
that is not there yet is above all others, one that varies below. An instruction whose operands get
less has a value that gets less (`evaluateInstruction_above`).
-/

namespace TldrCode.Ssa

open Dataflow (CharTables containsText dropSign parseI64)

inductive ConstantValue where
  | int (i : Int)
  | float (text : String)
  | string (text : String)
  | bool (b : Bool)
  | none
  deriving DecidableEq, Repr

inductive LatticeValue where
  | top
  | constant (c : ConstantValue)
  | bottom
  deriving DecidableEq, Repr

def latticeMeet : LatticeValue → LatticeValue → LatticeValue
  | .top, x => x
  | x, .top => x
  | .constant c₁, .constant c₂ => if c₁ = c₂ then .constant c₁ else .bottom
  | .bottom, _ => .bottom
  | _, .bottom => .bottom

def isExponent : List Char → Bool
  | [] => true
  | c :: text =>
    (c == 'e' || c == 'E') && dropSign text != [] && (dropSign text).all Char.isDigit

/-- `parse::<f64>().is_ok()`, for texts with a point. -/
def isDecimal (text : List Char) : Bool :=
  match (dropSign text).dropWhile Char.isDigit with
  | '.' :: rest => ((dropSign text).takeWhile Char.isDigit != [] ||
      rest.takeWhile Char.isDigit != []) && isExponent (rest.dropWhile Char.isDigit)
  | _ => false

def isQuoted (quote : Char) (text : List Char) : Bool :=
  text.head? == some quote && text.getLast? == some quote

/-- `parse_constant`: `none` where the source panics, as it does for a quote alone. -/
def parseConstant (tables : CharTables) (sourceText : List Char) : Option (Option ConstantValue) :=
  let trimmed := tables.trim sourceText
  let value :=
    if '=' ∈ trimmed then tables.trim (trimmed.dropWhile (· != '=')).tail else trimmed
  if value = "True".toList ∨ value = "true".toList then some (some (.bool true))
  else if value = "False".toList ∨ value = "false".toList then some (some (.bool false))
  else if value = "None".toList ∨ value = "null".toList ∨ value = "nil".toList then
    some (some .none)
  else match parseI64 value with
    | some i => some (some (.int i))
    | none =>
      if '.' ∈ value ∧ isDecimal value then some (some (.float (String.ofList value)))
      else if isQuoted '"' value || isQuoted '\'' value then
        if value.length = 1 then none
        else some (some (.string (String.ofList value.tail.dropLast)))
      else some none

/-! ## Operations -/

/-- The result of a checked operation on `i64`. -/
def checkedI64 (i : Int) : Option ConstantValue :=
  if -2 ^ 63 ≤ i ∧ i < 2 ^ 63 then some (.int i) else none

/-- `eval_binary_op`, for the operations that are found in a text. -/
def evalBinaryOp (op : String) : ConstantValue → ConstantValue → Option ConstantValue
  | .int l, .int r =>
    match op with
    | "+" => checkedI64 (l + r)
    | "-" => checkedI64 (l - r)
    | "*" => checkedI64 (l * r)
    | "/" => if r = 0 then none else checkedI64 (l.tdiv r)
    | "%" => if r = 0 then none else if l = -2 ^ 63 ∧ r = -1 then none else some (.int (l.tmod r))
    | "<" => some (.bool (l < r))
    | ">" => some (.bool (r < l))
    | "<=" => some (.bool (l ≤ r))
    | ">=" => some (.bool (r ≤ l))
    | "==" => some (.bool (l = r))
    | "!=" => some (.bool (l ≠ r))
    | _ => none
  | .bool l, .bool r =>
    match op with
    | "and" | "&&" => some (.bool (l && r))
    | "or" | "||" => some (.bool (l || r))
    | "==" => some (.bool (l == r))
    | "!=" => some (.bool (l != r))
    | _ => none
  | _, _ => none

def operatorOf (s : List Char) : Option String :=
  if '+' ∈ s then some "+"
  else if '-' ∈ s ∧ s.head? ≠ some '-' then some "-"
  else if '*' ∈ s then some "*"
  else if '/' ∈ s then some "/"
  else if '<' ∈ s ∧ '=' ∈ s then some "<="
  else if '>' ∈ s ∧ '=' ∈ s then some ">="
  else if '<' ∈ s then some "<"
  else if '>' ∈ s then some ">"
  else if containsText "==".toList s then some "=="
  else if containsText "!=".toList s then some "!="
  else none

def binaryValue (sourceText : Option String) (l r : ConstantValue) : LatticeValue :=
  match sourceText.bind fun s => operatorOf s.toList with
  | some op =>
    match evalBinaryOp op l r with
    | some c => .constant c
    | none => .bottom
  | none => .bottom

def unaryValue (sourceText : Option String) (c : ConstantValue) : LatticeValue :=
  match sourceText with
  | none => .bottom
  | some src =>
    let negated := containsText "not".toList src.toList || decide ('!' ∈ src.toList)
    match negated, decide ('-' ∈ src.toList), c with
    | true, _, .bool b => .constant (.bool !b)
    | _, true, .int i =>
      match checkedI64 (-i) with
      | some c => .constant c
      | none => .bottom
    | _, _, _ => .bottom

/-- What is known of the names; a name that is not there has the value `top`. -/
abbrev LatticeValues := Nat → Option LatticeValue

/-- `lattice_values.get(name).cloned().unwrap_or(Top)`. -/
def LatticeValues.value (values : LatticeValues) (name : Nat) : LatticeValue :=
  (values name).getD .top

/-- `evaluate_instruction`: `none` where the source panics. -/
def evaluateInstruction (tables : CharTables) (inst : SsaInstruction) (values : LatticeValues) :
    Option LatticeValue :=
  match inst.kind with
  | .param | .call | .return | .branch => some .bottom
  | .assign =>
    match inst.uses with
    | [] =>
      match inst.sourceText with
      | some src =>
        (parseConstant tables src.toList).map fun
          | some c => .constant c
          | none => .bottom
      | none => some .bottom
    | [source] => some (values.value source)
    | _ :: _ :: _ => some .bottom
  | .binaryOp =>
    match inst.uses with
    | left :: right :: _ =>
      match values.value left, values.value right with
      | .bottom, _ => some .bottom
      | _, .bottom => some .bottom
      | .top, _ => some .top
      | _, .top => some .top
      | .constant l, .constant r => some (binaryValue inst.sourceText l r)
    | _ => some .bottom
  | .unaryOp =>
    match inst.uses with
    | [] => some .bottom
    | operand :: _ =>
      match values.value operand with
      | .bottom => some .bottom
      | .top => some .top
      | .constant c => some (unaryValue inst.sourceText c)

/-! ## The order of values -/

/-- The value is the other, or says less of what there is: nothing was seen yet, or all may be. -/
def LatticeValue.Above (a b : LatticeValue) : Prop := a = .top ∨ b = .bottom ∨ a = b

namespace LatticeValue

variable {a b c : LatticeValue}

theorem Above.refl (a : LatticeValue) : a.Above a := .inr (.inr rfl)

theorem above_bottom (a : LatticeValue) : a.Above .bottom := .inr (.inl rfl)

theorem top_above (a : LatticeValue) : Above .top a := .inl rfl

theorem top_of_above (h : a.Above .top) : a = .top := by
  rcases h with h | h | h
  · exact h
  · cases h
  · exact h

theorem of_above_constant {k : ConstantValue} (h : a.Above (.constant k)) :
    a = .top ∨ a = .constant k := by
  rcases h with h | h | h
  · exact .inl h
  · cases h
  · exact .inr h

theorem above_meet_left (a b : LatticeValue) : a.Above (latticeMeet a b) := by
  unfold latticeMeet
  split
  · exact top_above _
  · exact .refl _
  · split_ifs with h
    · exact .refl _
    · exact above_bottom _
  · exact above_bottom _
  · exact above_bottom _

theorem above_meet_right (a b : LatticeValue) : b.Above (latticeMeet a b) := by
  unfold latticeMeet
  split
  · exact .refl _
  · exact top_above _
  · split_ifs with h
    · rw [h]
      exact .refl _
    · exact above_bottom _
  · exact above_bottom _
  · exact above_bottom _

theorem Above.trans (h : a.Above b) (h' : b.Above c) : a.Above c := by
  rcases h with rfl | rfl | rfl
  · exact top_above _
  · rcases h' with h' | rfl | rfl
    · cases h'
    · exact above_bottom _
    · exact above_bottom _
  · exact h'

end LatticeValue

variable {tables : CharTables} {inst : SsaInstruction} {values values' : LatticeValues}
  {a b : LatticeValue}

theorem evaluateInstruction_congr (h : ∀ u ∈ inst.uses, values.value u = values'.value u) :
    evaluateInstruction tables inst values = evaluateInstruction tables inst values' := by
  unfold evaluateInstruction
  cases inst.kind with
  | param | call | «return» | branch => rfl
  | assign =>
    cases huses : inst.uses with
    | nil => rfl
    | cons u us =>
      have hu := h u (by rw [huses]; exact List.mem_cons_self)
      cases us with
      | nil => exact congrArg some hu
      | cons u' us => rfl
  | binaryOp =>
    cases huses : inst.uses with
    | nil => rfl
    | cons u us =>
      have hu := h u (by rw [huses]; exact List.mem_cons_self)
      cases us with
      | nil => rfl
      | cons u' us =>
        have hu' := h u' (by rw [huses]; simp)
        dsimp only
        rw [hu, hu']
  | unaryOp =>
    cases huses : inst.uses with
    | nil => rfl
    | cons u us =>
      have hu := h u (by rw [huses]; exact List.mem_cons_self)
      dsimp only
      rw [hu]

/-- **Operands that are above** give a value that is above. -/
theorem evaluateInstruction_above (h : ∀ u ∈ inst.uses, (values.value u).Above (values'.value u))
    (ha : evaluateInstruction tables inst values = some a)
    (hb : evaluateInstruction tables inst values' = some b) : a.Above b := by
  unfold evaluateInstruction at ha hb
  cases hkind : inst.kind with
  | param | call | «return» | branch =>
    rw [hkind] at hb
    cases hb
    exact a.above_bottom
  | assign =>
    rw [hkind] at ha hb
    cases huses : inst.uses with
    | nil =>
      rw [huses] at ha hb
      obtain rfl := Option.some_inj.1 (ha.symm.trans hb)
      exact .refl a
    | cons u us =>
      have hu := h u (by rw [huses]; exact List.mem_cons_self)
      rw [huses] at ha hb
      cases us with
      | nil =>
        cases ha
        cases hb
        exact hu
      | cons u' us =>
        cases hb
        exact a.above_bottom
  | binaryOp =>
    rw [hkind] at ha hb
    cases huses : inst.uses with
    | nil =>
      rw [huses] at hb
      cases hb
      exact a.above_bottom
    | cons u us =>
      have hu := h u (by rw [huses]; exact List.mem_cons_self)
      rw [huses] at ha hb
      cases us with
      | nil =>
        cases hb
        exact a.above_bottom
      | cons u' us =>
        have hu' := h u' (by rw [huses]; simp)
        dsimp only at ha hb
        generalize values.value u = l at *
        generalize values.value u' = r at *
        cases hv : values'.value u with
        | bottom =>
          rw [hv] at hb
          cases hb
          exact a.above_bottom
        | top =>
          rw [hv] at hu hb
          obtain rfl := LatticeValue.top_of_above hu
          cases hv' : values'.value u' with
          | bottom =>
            rw [hv'] at hb
            cases hb
            exact a.above_bottom
          | top =>
            rw [hv'] at hu'
            obtain rfl := LatticeValue.top_of_above hu'
            cases ha
            exact b.top_above
          | constant k =>
            rw [hv'] at hu'
            rcases LatticeValue.of_above_constant hu' with rfl | rfl
            · cases ha
              exact b.top_above
            · cases ha
              exact b.top_above
        | constant k =>
          rw [hv] at hu hb
          cases hv' : values'.value u' with
          | bottom =>
            rw [hv'] at hb
            cases hb
            exact a.above_bottom
          | top =>
            rw [hv'] at hu'
            obtain rfl := LatticeValue.top_of_above hu'
            rcases LatticeValue.of_above_constant hu with rfl | rfl
            · cases ha
              exact b.top_above
            · cases ha
              exact b.top_above
          | constant k' =>
            rw [hv'] at hu' hb
            rcases LatticeValue.of_above_constant hu with rfl | rfl
            · rcases LatticeValue.of_above_constant hu' with rfl | rfl
              · cases ha
                exact b.top_above
              · cases ha
                exact b.top_above
            · rcases LatticeValue.of_above_constant hu' with rfl | rfl
              · cases ha
                exact b.top_above
              · obtain rfl := Option.some_inj.1 (ha.symm.trans hb)
                exact .refl a
  | unaryOp =>
    rw [hkind] at ha hb
    cases huses : inst.uses with
    | nil =>
      rw [huses] at hb
      cases hb
      exact a.above_bottom
    | cons u us =>
      have hu := h u (by rw [huses]; exact List.mem_cons_self)
      rw [huses] at ha hb
      dsimp only at ha hb
      cases hv' : values'.value u with
      | bottom =>
        rw [hv'] at hb
        cases hb
        exact a.above_bottom
      | top =>
        rw [hv'] at hu
        rw [LatticeValue.top_of_above hu] at ha
        cases ha
        exact b.top_above
      | constant k =>
        rw [hv'] at hu hb
        rcases LatticeValue.of_above_constant hu with hv | hv
        · rw [hv] at ha
          cases ha
          exact b.top_above
        · rw [hv] at ha
          obtain rfl := Option.some_inj.1 (ha.symm.trans hb)
          exact .refl a

end TldrCode.Ssa
