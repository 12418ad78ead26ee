import TldrCode.Gvn.HashKey
import Mathlib.Logic.Function.Basic

/-!
# Value numbering

`dfg/gvn/engine.rs` on straight-line code: the engine numbers the expression of each statement by
its key and keeps the number of each variable. An expression is what the parser's tree says about
it. The constructs that the engine does not know are `other`.
-/

namespace TldrCode.Gvn

open Function (update)

/-! ## Statements -/

/-- The kinds of the constants other than strings. -/
inductive ConstKind where
  | integer
  | float
  | bool
  | none
  deriving DecidableEq, Repr

def ConstKind.typeName : ConstKind → String
  | integer => "int"
  | float => "float"
  | bool => "bool"
  | none => "NoneType"

mutual

/-- An expression. A string has its interpolations, a comparison the texts of all its parts, its
operators and its operands, a subscript its first index and the others. -/
inductive Expr where
  | const (kind : ConstKind) (repr : String)
  | string (repr : String) (interpolations : Exprs)
  | name (x : String)
  | binary (op : String) (left right : Expr)
  | unary (op : String) (operand : Expr)
  | boolean (op : String) (left right : Expr)
  | compare (parts ops : List String) (operands : Exprs)
  | call
  | attribute (object : Expr) (attr : String)
  | subscript (value slice : Expr) (more : Exprs)
  | paren (inner : Expr)
  | other

inductive Exprs where
  | nil
  | cons (e : Expr) (es : Exprs)

end

/-- A member of a pattern: a variable, or a nested or starred pattern, an attribute or a subscript
with the variables in it. -/
inductive PatternItem where
  | name (x : String)
  | other (bound : List String)
  deriving DecidableEq, Repr

inductive Target where
  | name (x : String)
  | attribute (text : String) (object : Expr) (attr : String)
  | subscript (text : String) (value slice : Expr)
  | pattern (text : String) (items : List PatternItem)

def Target.text : Target → String
  | .name x => x
  | .attribute text .. => text
  | .subscript text .. => text
  | .pattern text _ => text

/-- The right side of an assignment, which may be an assignment. -/
inductive Rhs where
  | expr (e : Expr)
  | chain (target : Target) (rhs : Rhs)

/-- A statement; that of a returned value is `expr`. -/
inductive Stmt where
  | assign (target : Target) (rhs : Rhs)
  | augAssign (target : Target) (value : Expr)
  | expr (value : Expr)

/-! ## Keys -/

def maxDepth : Nat := 10

def binaryName : String → String
  | "+" => "Add"
  | "-" => "Sub"
  | "*" => "Mult"
  | "/" => "Div"
  | "//" => "FloorDiv"
  | "%" => "Mod"
  | "**" => "Pow"
  | "|" => "BitOr"
  | "&" => "BitAnd"
  | "^" => "BitXor"
  | "<<" => "LShift"
  | ">>" => "RShift"
  | "@" => "MatMult"
  | op => op

def unaryName : String → Option String
  | "-" => some "USub"
  | "+" => some "UAdd"
  | "~" => some "Invert"
  | "not" => some "Not"
  | _ => none

/-- A key, whether it is commutative, and the next value number. -/
abbrev Hashed := HashKey × Bool × Nat

/-- `HashKey::Unique` with a fresh number. -/
def uniqueKey (next : Nat) : Hashed := (.unique next, false, next + 1)

/-- `hash_node`: the check of the depth, before what `hash_node_inner` does. -/
def hashNode (inner : Nat → Nat → Hashed) (depth next : Nat) : Hashed :=
  if maxDepth < depth + 1 then uniqueKey next else inner (depth + 1) next

def hashNodeInner (varVn : String → Option Nat) : Expr → Nat → Nat → Hashed
  | .const kind repr, _, next => (.const kind.typeName repr, false, next)
  | .string repr _, _, next => (.const "str" repr, false, next)
  | .name x, _, next => match varVn x with
    | some vn => (.varVN vn, false, next)
    | none => (.name x, false, next)
  | .binary op left right, depth, next =>
    let (leftKey, _, next) := hashNode (hashNodeInner varVn left) depth next
    let (rightKey, _, next) := hashNode (hashNodeInner varVn right) depth next
    let opName := binaryName op
    (.normalizeBinop opName leftKey rightKey, isCommutative opName, next)
  | .unary op operand, depth, next => match unaryName op with
    | some opName =>
      let (operandKey, _, next) := hashNode (hashNodeInner varVn operand) depth next
      (.unaryOp opName operandKey, false, next)
    | none => uniqueKey next
  | .boolean op left right, depth, next =>
    let (leftKey, _, next) := hashNode (hashNodeInner varVn left) depth next
    let (rightKey, _, next) := hashNode (hashNodeInner varVn right) depth next
    (.boolOp op (.cons leftKey (.cons rightKey .nil)), false, next)
  | .compare parts _ _, _, next => (.compare parts, false, next)
  | .call, _, next => (.call next, false, next + 1)
  | .attribute object attr, depth, next =>
    let (valueKey, _, next) := hashNode (hashNodeInner varVn object) depth next
    (.attribute valueKey attr, false, next)
  | .subscript value slice _, depth, next =>
    let (valueKey, _, next) := hashNode (hashNodeInner varVn value) depth next
    let (sliceKey, _, next) := hashNode (hashNodeInner varVn slice) depth next
    (.subscript valueKey sliceKey, false, next)
  | .paren inner, depth, next => hashNodeInner varVn inner depth next
  | .other, _, next => uniqueKey next

/-! ## The engine -/

/-- `GVNEngine`. Of the expressions it keeps the value numbers. -/
structure Engine where
  nextVn : Nat
  hashToVn : HashKey → Option Nat
  varVn : String → Option Nat
  expressions : List Nat
  vnIsCommutative : Nat → Bool

namespace Engine

def new : Engine where
  nextVn := 0
  hashToVn _ := none
  varVn _ := none
  expressions := []
  vnIsCommutative _ := false

variable (engine : Engine)

/-- The part of `number_expression` after the key is known. -/
def numberKey (hashed : Hashed) : Nat × Engine :=
  let (hashKey, isComm, next) := hashed
  let (vn, next, hashToVn) := match engine.hashToVn hashKey with
    | some existingVn => (existingVn, next, engine.hashToVn)
    | none => (next, next + 1, update engine.hashToVn hashKey (some next))
  (vn, { engine with
    nextVn := next
    hashToVn
    expressions := engine.expressions ++ [vn]
    vnIsCommutative :=
      if isComm then update engine.vnIsCommutative vn true else engine.vnIsCommutative })

def numberExpression (e : Expr) : Nat × Engine :=
  let known := match e with
    | .name x => engine.varVn x
    | _ => none
  match known with
  | some vn => (vn, { engine with expressions := engine.expressions ++ [vn] })
  | none => engine.numberKey (hashNode (hashNodeInner engine.varVn e) 0 engine.nextVn)

/-- `number_expression` of the right side of an assignment. One that is an assignment again is not
known to `hash_node_inner`. -/
def numberRhs : Rhs → Nat × Engine
  | .expr e => engine.numberExpression e
  | .chain _ _ => engine.numberKey (uniqueKey engine.nextVn)

def assignVariable (name : String) (vn : Nat) : Engine :=
  { engine with varVn := update engine.varVn name (some vn) }

def killVariable (name : String) : Engine :=
  { engine with varVn := update engine.varVn name none }

def assignTargets (vn : Nat) : Target → Engine
  | .name x => engine.assignVariable x vn
  | .pattern _ items => items.foldl (fun engine item => match item with
    | .name x => engine.killVariable x
    | .other _ => engine) engine
  | .attribute .. => engine
  | .subscript .. => engine

def handleAssignment (target : Target) (rhs : Rhs) : Engine :=
  let (vn, engine) := engine.numberRhs rhs
  engine.assignTargets vn target

def handleAugAssignment (target : Target) (value : Expr) : Engine :=
  let (_, engine) := engine.numberExpression value
  let engine := engine.killVariable target.text
  { engine with nextVn := engine.nextVn + 1 }.assignVariable target.text engine.nextVn

def walkStmt : Stmt → Engine
  | .assign target rhs => engine.handleAssignment target rhs
  | .augAssign target value => engine.handleAugAssignment target value
  | .expr value => (engine.numberExpression value).2

end Engine

/-- `walk_stmts` on a function body. -/
def walkStmts (body : List Stmt) : Engine := body.foldl Engine.walkStmt .new

end TldrCode.Gvn
