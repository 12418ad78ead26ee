import TldrCode.Dataflow.Expressions
import TldrCode.Dataflow.MustRounds
import TldrCode.Types

/-!
# Available expressions of the SSA module

`ssa/analysis.rs`: `compute_available_expressions` reads expressions and definitions off the source,
and `compute_available_expressions_from_refs` guesses them from the references of the data flow
graph. Both solve the equations of a must analysis in rounds, from the sets that the blocks
generate. An expression is the index of the first one with its text. What the parser or the regular
expressions find in the source is given.
-/

namespace TldrCode.Ssa

open Function (update)
open Dataflow (CharTables MustProblem Solution solveRounds)

structure Expression where
  text : String
  uses : List String
  firstLine : Nat
  deriving DecidableEq, Repr

structure ExpressionSets where
  inSet : Finset Nat
  outSet : Finset Nat
  deriving DecidableEq

structure AvailableExpressions where
  function : String
  blocks : Nat → Option ExpressionSets
  expressions : List Expression

/-! ## The equations -/

section Equations

variable (cfg : CfgInfo) (expressions : List Expression) (gen kill : CfgBlock → Finset Nat)

/-- `gen_sets` and `kill_sets`: of the blocks with one id the last counts. -/
def setOf (sets : CfgBlock → Finset Nat) (b : Nat) : Finset Nat :=
  cfg.blocks.foldl (fun found block => if block.id = b then sets block else found) ∅

def equations : MustProblem Nat Nat where
  nodes := cfg.blockIds
  preds := cfg.predecessors
  facts := Finset.range expressions.length
  gen := setOf cfg gen
  kill := setOf cfg kill

/-- `avail_in` and `avail_out` before the first round. -/
def initialSets : Solution Nat Nat where
  before b := if b = cfg.entryBlock then ∅ else Finset.range expressions.length
  after := setOf cfg gen

/-- The part that both functions share: the rounds and the result. -/
def solveEquations : AvailableExpressions :=
  if expressions = [] then
    { function := cfg.function
      blocks := fun b => if b ∈ cfg.blockIds then some ⟨∅, ∅⟩ else none
      expressions := expressions }
  else
    let P := equations cfg expressions gen kill
    let sol := solveRounds P.visit cfg.blockIds (cfg.blockIds.length * 2 + 10)
      (initialSets cfg expressions gen)
    { function := cfg.function
      blocks := fun b => if b ∈ cfg.blockIds then some ⟨sol.before b, sol.after b⟩ else none
      expressions := expressions }

/-- `kill` of a block: the expressions with an operand among the definitions. -/
def killOf (defs : List String) : Finset Nat :=
  (Finset.range expressions.length).filter fun idx =>
    expressions[idx]?.any fun expr => expr.uses.any (· ∈ defs)

end Equations

/-! ## Expressions from the source -/

/-- A binary expression in the source: its line, operands and operator. -/
structure BinaryOccurrence where
  line : Nat
  left : String
  op : String
  right : String
  deriving DecidableEq, Repr

/-- The definitions, with their lines, and the binary expressions that are found in the source, in
this order. -/
structure Occurrences where
  defs : List (Nat × String)
  binops : List BinaryOccurrence
  deriving DecidableEq, Repr

/-- How the source has been read: with the parser of its language, or else with regular
expressions. -/
inductive Parsed where
  | ast (found : Occurrences)
  | regex (found : Occurrences)
  deriving DecidableEq, Repr

def isArithmeticOp (op : String) : Bool :=
  op ∈ ["+", "-", "*", "/", "%", "**", "//", "<<", ">>", "&", "|", "^"]

def isSimpleIdentifier (tables : CharTables) (text : List Char) : Bool :=
  match text.dropWhile (· == '$') with
  | [] => false
  | first :: rest => (tables.isAlphabetic first || first == '_') && tables.isIdent (first :: rest)

namespace BinaryOccurrence

variable (o : BinaryOccurrence)

/-- The operands, sorted if their order does not matter. -/
def canonicalOperands : String × String :=
  if o.op = "+" ∨ o.op = "*" then
    if o.left < o.right then (o.left, o.right) else (o.right, o.left)
  else (o.left, o.right)

def exprText : String := o.canonicalOperands.1 ++ " " ++ o.op ++ " " ++ o.canonicalOperands.2

/-- The expression that is recorded where its text is new. -/
def toExpression : Expression where
  text := o.exprText
  uses := [o.canonicalOperands.1, o.canonicalOperands.2]
  firstLine := o.line

end BinaryOccurrence

namespace Parsed

def defs : Parsed → List (Nat × String)
  | ast found => found.defs
  | regex found => found.defs

/-- The expressions that are tracked. The pattern of the regular expressions leaves none out. -/
def tracked (tables : CharTables) : Parsed → List BinaryOccurrence
  | ast found => found.binops.filter fun o => isArithmeticOp o.op &&
      isSimpleIdentifier tables o.left.toList && isSimpleIdentifier tables o.right.toList
  | regex found => found.binops

end Parsed

/-- `ExpressionExtraction`, whose `expr_to_index` is `exprToIndex`. -/
structure ExpressionExtraction where
  allExpressions : List Expression
  blockDefs : Nat → List String
  blockExprs : Nat → List (Nat × Expression)
  defsByLine : List (Nat × String)

/-- `expr_to_index.get`. -/
def exprToIndex (expressions : List Expression) (text : String) : Option Nat :=
  expressions.findIdx? (·.text == text)

namespace ExpressionExtraction

def empty : ExpressionExtraction where
  allExpressions := []
  blockDefs _ := []
  blockExprs _ := []
  defsByLine := []

variable (cfg : CfgInfo)

/-- A definition, which replaces an earlier one on its line in `defs_by_line`. -/
def recordDef (x : ExpressionExtraction) (d : Nat × String) : ExpressionExtraction :=
  match lineToBlock cfg d.1 with
  | some b =>
    { x with
      blockDefs := update x.blockDefs b (d.2 :: x.blockDefs b)
      defsByLine := x.defsByLine.filter (·.1 != d.1) ++ [d] }
  | none => x

/-- An expression, recorded for the block of its line. -/
def recordExpr (x : ExpressionExtraction) (line : Nat) (expr : Expression) : ExpressionExtraction :=
  match lineToBlock cfg line with
  | some b => { x with blockExprs := update x.blockExprs b (x.blockExprs b ++ [(line, expr)]) }
  | none => x

/-- A binary expression, which gets an index if its text is new. -/
def recordBinop (x : ExpressionExtraction) (o : BinaryOccurrence) : ExpressionExtraction :=
  match x.allExpressions.find? (·.text == o.exprText) with
  | some expr => x.recordExpr cfg o.line expr
  | none =>
    { x with allExpressions := x.allExpressions ++ [o.toExpression] }.recordExpr cfg o.line
      o.toExpression

end ExpressionExtraction

section Source

variable (tables : CharTables) (cfg : CfgInfo) (parsed : Parsed)

def extractExpressionsAndDefs : ExpressionExtraction :=
  (parsed.tracked tables).foldl (ExpressionExtraction.recordBinop cfg)
    (parsed.defs.foldl (ExpressionExtraction.recordDef cfg) .empty)

def killedAfter (x : ExpressionExtraction) (block : CfgBlock) (line : Nat) (expr : Expression) :
    Bool :=
  x.defsByLine.any fun d => line < d.1 && d.1 ≤ block.lines.2 && expr.uses.contains d.2

/-- `gen` of a block. -/
def genOf (x : ExpressionExtraction) (block : CfgBlock) : Finset Nat :=
  ((x.blockExprs block.id).filterMap fun e =>
    if killedAfter x block e.1 e.2 then none
    else exprToIndex x.allExpressions e.2.text).toFinset

def computeAvailableExpressions : AvailableExpressions :=
  let x := extractExpressionsAndDefs tables cfg parsed
  solveEquations cfg x.allExpressions (genOf x) fun block =>
    killOf x.allExpressions (x.blockDefs block.id)

end Source

/-! ## Expressions from references -/

section Refs

variable (ord : HashOrder) (lineOrd : Nat → HashOrder) (cfg : CfgInfo) (refs : List VarRef)

/-- `block_defs`. -/
def refBlockDefs (b : Nat) : List String :=
  (refs.filter fun r => r.isDef && lineToBlock cfg r.line == some b).map (·.name)

/-- `block_uses`. -/
def refBlockUses (b : Nat) : List VarRef :=
  refs.filter fun r => r.refType == .use && lineToBlock cfg r.line == some b

/-- An expression that gets an index if its text is new. -/
def addExpression (expressions : List Expression) (expr : Expression) : List Expression :=
  if expressions.any (·.text == expr.text) then expressions else expressions ++ [expr]

/-- The expression of all uses on a line, if there are two. -/
def pairExpression (uses : List VarRef) (line : Nat) : Option Expression :=
  let lineUses := uses.filter (·.line == line)
  if 2 ≤ lineUses.length then
    let operands := (lineUses.map (·.name)).insertionSort (· ≤ ·)
    some ⟨" op ".intercalate operands, operands, line⟩
  else none

def useExpression (r : VarRef) : Expression := ⟨"use_" ++ r.name, [r.name], r.line⟩

/-- The expressions of a block. The order of its lines is that of a hash table. -/
def blockExpressions (expressions : List Expression) (b : Nat) : List Expression :=
  let uses := refBlockUses cfg refs b
  let lines := (lineOrd b).order (uses.map (·.line)).dedup
  uses.foldl (fun expressions r => addExpression expressions (useExpression r))
    ((lines.filterMap (pairExpression uses)).foldl addExpression expressions)

/-- The expressions of all blocks. Their order is that of a hash table. -/
def refExpressions : List Expression :=
  let used := (refs.filter (·.refType == .use)).filterMap fun r => lineToBlock cfg r.line
  (ord.order used.dedup).foldl (blockExpressions lineOrd cfg refs) []

/-- `gen` of a block. -/
def refGenOf (expressions : List Expression) (block : CfgBlock) : Finset Nat :=
  (Finset.range expressions.length).filter fun idx => expressions[idx]?.any fun expr =>
    block.lines.1 ≤ expr.firstLine && expr.firstLine ≤ block.lines.2 &&
      !refs.any fun r => expr.firstLine < r.line && r.line ≤ block.lines.2 && r.isDef &&
        expr.uses.contains r.name

def computeAvailableExpressionsFromRefs : AvailableExpressions :=
  let expressions := refExpressions ord lineOrd cfg refs
  solveEquations cfg expressions (refGenOf refs expressions) fun block =>
    killOf expressions (refBlockDefs cfg refs block.id)

end Refs

end TldrCode.Ssa
