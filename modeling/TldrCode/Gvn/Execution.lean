import TldrCode.Gvn.Engine

/-!
# Executions of straight-line code

What the statements mean, over any values and any meaning of the operators for which the commutative
ones commute. Everything the code cannot be asked about is left to an oracle: the value of an
expression with a call in it, the values that an unpacking or an augmented assignment gives its
variables, and what a call or a store leaves in the objects.
-/

namespace TldrCode.Gvn

open Function (update)

variable {V : Type}

structure Semantics (V : Type) where
  const : String → String → V
  string : String → List V → V
  binary : String → V → V → V
  unary : String → V → V
  boolean : String → V → V → V
  compare : List String → List V → V
  comm : ∀ op, isCommutative op → ∀ a b, binary op a b = binary op b a

/-- The values of the variables, and the attributes and items of the objects. -/
structure World (V : Type) where
  env : String → V
  attr : String → V → V
  item : V → List V → V

/-- What is not determined, for each statement by its position. -/
structure Oracle (V : Type) where
  value : Nat → V
  bound : Nat → String → V
  attr : Nat → String → V → V
  item : Nat → V → List V → V

/-! ## Expressions -/

mutual

/-- The value of an expression, unless it contains a call. -/
def Expr.eval (S : Semantics V) (world : World V) : Expr → Option V
  | .const kind repr => some (S.const kind.typeName repr)
  | .string repr interpolations => (interpolations.evals S world).map (S.string repr)
  | .name x => some (world.env x)
  | .binary op left right => do
    let a ← left.eval S world
    let b ← right.eval S world
    return S.binary (binaryName op) a b
  | .unary op operand => (operand.eval S world).map (S.unary ((unaryName op).getD op))
  | .boolean op left right => do
    let a ← left.eval S world
    let b ← right.eval S world
    return S.boolean op a b
  | .compare _ ops operands => (operands.evals S world).map (S.compare ops)
  | .call => none
  | .attribute object attr => (object.eval S world).map (world.attr attr)
  | .subscript value slice more => do
    let a ← value.eval S world
    let b ← slice.eval S world
    let bs ← more.evals S world
    return world.item a (b :: bs)
  | .paren inner => inner.eval S world
  | .other => none

def Exprs.evals (S : Semantics V) (world : World V) : Exprs → Option (List V)
  | .nil => some []
  | .cons e es => do
    let a ← e.eval S world
    let as ← es.evals S world
    return a :: as

end

mutual

def Expr.isPure : Expr → Bool
  | .const .. => true
  | .string _ interpolations => interpolations.arePure
  | .name _ => true
  | .binary _ left right => left.isPure && right.isPure
  | .unary _ operand => operand.isPure
  | .boolean _ left right => left.isPure && right.isPure
  | .compare _ _ operands => operands.arePure
  | .call => false
  | .attribute object _ => object.isPure
  | .subscript value slice more => value.isPure && slice.isPure && more.arePure
  | .paren inner => inner.isPure
  | .other => false

def Exprs.arePure : Exprs → Bool
  | .nil => true
  | .cons e es => e.isPure && es.arePure

end

/-! ## Statements -/

namespace Target

/-- The variables after an assignment of `v` to the target. -/
def bindEnv (v : V) (bound : String → V) (env : String → V) : Target → String → V
  | .name x => update env x v
  | .pattern _ items => items.foldl (fun env item => match item with
    | .name x => update env x (bound x)
    | .other xs => fun x => if x ∈ xs then bound x else env x) env
  | .attribute .. => env
  | .subscript .. => env

def affects (c : Cell) : Target → Bool
  | .name _ => false
  | .attribute _ object attr => c == .attribute attr || !object.isPure
  | .subscript _ value slice => c == .item || !value.isPure || !slice.isPure
  | .pattern _ items => items.any fun item => match item with
    | .name _ => false
    | .other _ => true

end Target

namespace Rhs

/-- The expression that is assigned in the end. -/
def value : Rhs → Expr
  | .expr e => e
  | .chain _ rhs => rhs.value

/-- The targets of the assignments in it, from left to right. -/
def targets : Rhs → List Target
  | .expr _ => []
  | .chain target rhs => target :: rhs.targets

end Rhs

namespace Stmt

def value : Stmt → Expr
  | .assign _ rhs => rhs.value
  | .augAssign _ value => value
  | .expr value => value

/-- The targets of a statement, from left to right. -/
def targets : Stmt → List Target
  | .assign target rhs => target :: rhs.targets
  | .augAssign target _ => [target]
  | .expr _ => []

def affects (stmt : Stmt) (c : Cell) : Bool :=
  !stmt.value.isPure || stmt.targets.any (·.affects c)

/-- The variables after the statement at position `k`, given the value of its expression. -/
def bindEnv (oracle : Oracle V) (k : Nat) (v : V) (env : String → V) : Stmt → String → V
  | .assign target rhs =>
    (target :: rhs.targets).foldl (fun env target => target.bindEnv v (oracle.bound k) env) env
  | .augAssign (.name x) _ => update env x (oracle.bound k x)
  | .augAssign _ _ => env
  | .expr _ => env

end Stmt

/-- An execution so far: the world, and the values of the expressions of the statements. -/
structure Run (V : Type) where
  world : World V
  values : List V

def Run.step (S : Semantics V) (oracle : Oracle V) (run : Run V) (stmt : Stmt) : Run V :=
  let k := run.values.length
  let v := (stmt.value.eval S run.world).getD (oracle.value k)
  { world :=
      { env := stmt.bindEnv oracle k v run.world.env
        attr := fun attr =>
          if stmt.affects (.attribute attr) then oracle.attr k attr else run.world.attr attr
        item := if stmt.affects .item then oracle.item k else run.world.item }
    values := run.values ++ [v] }

def execute (S : Semantics V) (oracle : Oracle V) (start : World V) (body : List Stmt) : Run V :=
  body.foldl (Run.step S oracle) ⟨start, []⟩

/-- Expressions with one value number have one value, in every execution. -/
def SameValues (body : List Stmt) : Prop :=
  ∀ (V : Type) (S : Semantics V) (oracle : Oracle V) (start : World V) (i j vn : Nat) (v w : V),
    (walkStmts body).expressions[i]? = some vn → (walkStmts body).expressions[j]? = some vn →
    (execute S oracle start body).values[i]? = some v →
    (execute S oracle start body).values[j]? = some w → v = w

end TldrCode.Gvn
