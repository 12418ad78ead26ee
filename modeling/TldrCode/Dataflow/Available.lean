import Mathlib.Data.List.Perm.Subperm
import TldrCode.Dataflow.Expressions
import TldrCode.Dataflow.Types

/-!
# Available expressions

`dataflow/available.rs`: the expressions of a function are read off its source lines, or guessed
from its references, and a round-robin iteration from above finds those available at the start of
each block. A `HashSet<Expression>` is a list without two expressions of the same text, since
expressions are compared by their texts; which of two equal ones an intersection or a union keeps
depends on the sizes of the sets, as in the standard library.
-/

namespace TldrCode.Dataflow

open Function (update)

/-! ## Sets of expressions -/

/-- `HashSet<Expression>`. -/
structure ExprSet where
  exprs : List Expression
  nodup : (exprs.map (·.text)).Nodup

namespace ExprSet

/-- `contains`. -/
def has (s : ExprSet) (text : String) : Bool := s.exprs.any (·.text == text)

theorem has_iff {s : ExprSet} {text : String} : s.has text ↔ ∃ e ∈ s.exprs, e.text = text := by
  simp [has]

theorem not_has_iff {s : ExprSet} {text : String} :
    s.has text = false ↔ ∀ e ∈ s.exprs, e.text ≠ text := by
  simp [has]

/-- `HashSet::new`. -/
def empty : ExprSet := ⟨[], List.nodup_nil⟩

/-- `iter().filter(..).cloned().collect()`. -/
def filter (s : ExprSet) (p : Expression → Bool) : ExprSet where
  exprs := s.exprs.filter p
  nodup := s.nodup.sublist (List.filter_sublist.map _)

/-- The expressions of two sets without a common text. -/
def append (s t : ExprSet) (h : ∀ e ∈ t.exprs, s.has e.text = false) : ExprSet where
  exprs := s.exprs ++ t.exprs
  nodup := by
    rw [List.map_append, List.nodup_append]
    refine ⟨s.nodup, t.nodup, fun x hx y hy => ?_⟩
    obtain ⟨e, he, rfl⟩ := List.mem_map.1 hx
    obtain ⟨f, hf, rfl⟩ := List.mem_map.1 hy
    exact not_has_iff.1 (h f hf) e he

@[simp] theorem has_filter {s : ExprSet} {p : String → Bool} {text : String} :
    (s.filter fun e => p e.text).has text = (s.has text && p text) := by
  rw [Bool.eq_iff_iff, Bool.and_eq_true, has_iff, has_iff]
  simp only [filter, List.mem_filter]
  constructor
  · rintro ⟨e, ⟨he, hp⟩, rfl⟩
    exact ⟨⟨e, he, rfl⟩, hp⟩
  · rintro ⟨⟨e, he, rfl⟩, hp⟩
    exact ⟨e, ⟨he, hp⟩, rfl⟩

theorem not_has_of_mem_filter {s t : ExprSet} (e : Expression)
    (h : e ∈ (t.filter fun e => !s.has e.text).exprs) : s.has e.text = false := by
  simpa using (List.mem_filter.1 h).2

/-- `insert`, which keeps an equal expression that is there. -/
def add (s : ExprSet) (expr : Expression) : ExprSet :=
  if h : s.has expr.text then s
  else s.append ⟨[expr], List.nodup_singleton _⟩ (by simpa using h)

/-- `intersection(..).cloned().collect()`: goes through the smaller set. -/
def inter (s t : ExprSet) : ExprSet :=
  if s.exprs.length ≤ t.exprs.length then s.filter fun e => t.has e.text
  else t.filter fun e => s.has e.text

/-- `union(..).cloned().collect()`: the larger set, and what the other one has on top. -/
def union (s t : ExprSet) : ExprSet :=
  if t.exprs.length ≤ s.exprs.length then
    s.append (t.filter fun e => !s.has e.text) not_has_of_mem_filter
  else t.append (s.filter fun e => !t.has e.text) not_has_of_mem_filter

/-- `==`. -/
def eq (s t : ExprSet) : Bool :=
  s.exprs.length == t.exprs.length && s.exprs.all fun e => t.has e.text

variable {s t : ExprSet} {expr e : Expression} {text : String} {p : Expression → Bool}

@[simp] theorem mem_empty : ¬ e ∈ empty.exprs := by simp [empty]

@[simp] theorem has_empty : empty.has text = false := rfl

theorem mem_add (h : e ∈ (s.add expr).exprs) : e ∈ s.exprs ∨ e = expr := by
  unfold add at h
  split at h
  · exact .inl h
  · simpa [append] using h

@[simp] theorem has_add : (s.add expr).has text = (s.has text || expr.text == text) := by
  unfold add
  split
  · next h =>
    cases heq : expr.text == text with
    | true => rw [← beq_iff_eq.1 heq, h, Bool.or_true]
    | false => rw [Bool.or_false]
  · simp [append, has]

theorem mem_inter (h : e ∈ (s.inter t).exprs) : e ∈ s.exprs ∨ e ∈ t.exprs := by
  unfold inter at h
  split at h
  · exact .inl (List.mem_of_mem_filter h)
  · exact .inr (List.mem_of_mem_filter h)

@[simp] theorem has_inter : (s.inter t).has text = (s.has text && t.has text) := by
  unfold inter
  split
  · exact has_filter
  · rw [has_filter, Bool.and_comm]

theorem mem_union (h : e ∈ (s.union t).exprs) : e ∈ s.exprs ∨ e ∈ t.exprs := by
  unfold union at h
  split at h
  · exact (List.mem_append.1 h).imp_right List.mem_of_mem_filter
  · exact ((List.mem_append.1 h).imp_right List.mem_of_mem_filter).symm

theorem has_append_filter :
    (s.append (t.filter fun e => !s.has e.text) not_has_of_mem_filter).has text =
      (s.has text || t.has text) := by
  have happend : (s.append (t.filter fun e => !s.has e.text) not_has_of_mem_filter).has text =
      (s.has text || (t.filter fun e => !s.has e.text).has text) := by
    simp [has, append]
  rw [happend, has_filter (p := fun x => !s.has x)]
  cases s.has text <;> simp

@[simp] theorem has_union : (s.union t).has text = (s.has text || t.has text) := by
  unfold union
  split
  · exact has_append_filter
  · rw [has_append_filter, Bool.or_comm]

theorem has_of_eq (h : s.eq t) : s.has text = t.has text := by
  obtain ⟨hlength, hsub⟩ := Bool.and_eq_true_iff.1 h
  have hperm : (s.exprs.map (·.text)).Subperm (t.exprs.map (·.text)) := by
    refine s.nodup.subperm fun x hx => ?_
    obtain ⟨e, he, rfl⟩ := List.mem_map.1 hx
    obtain ⟨f, hf, hfe⟩ := has_iff.1 (List.all_eq_true.1 hsub e he)
    exact List.mem_map.2 ⟨f, hf, hfe⟩
  have hmem := (hperm.perm_of_length_le (by
    rw [List.length_map, List.length_map]
    exact (beq_iff_eq.1 hlength).ge)).mem_iff (a := text)
  rw [Bool.eq_iff_iff, has_iff, has_iff]
  simpa using hmem

end ExprSet

/-! ## Extraction -/

structure BlockExpressions where
  gen : ExprSet
  kill : List String

structure ExprInstance where
  expr : Expression
  blockId : Nat
  deriving DecidableEq, Repr

structure ExtractionResult where
  allExprs : ExprSet
  blockInfo : Nat → Option BlockExpressions
  exprInstances : List Expression
  exprInstancesWithBlocks : List ExprInstance
  defsPerLine : Nat → List String
  lineToBlock : Nat → Option Nat
  uncertainExprs : List UncertainFinding

/-- What the syntax tree of the source adds: the lines inside comments and strings, and the binary
expressions between two lines, with normalized text, operands and line. -/
structure SyntaxTree where
  commentAndStringLines : List Nat
  binaryExprs : Nat → Nat → List (String × String × String × Nat)

/-- The distance of a line from the ends of a block. -/
def lineDistance (block : CfgBlock) (line : Nat) : Nat :=
  min ((block.lines.1 : Int) - line).natAbs ((block.lines.2 : Int) - line).natAbs

/-- `min_by_key`: the first block with the least distance. -/
def closestBlock (line : Nat) : List CfgBlock → Option CfgBlock
  | [] => none
  | block :: blocks => match closestBlock line blocks with
    | some other =>
      if lineDistance other line < lineDistance block line then some other else some block
    | none => some block

def findBlockForLine (cfg : CfgInfo) (line : Nat) : Option Nat :=
  match cfg.blocks.find? fun b => b.lines.1 ≤ line ∧ line ≤ b.lines.2 with
  | some block => some block.id
  | none => (closestBlock line cfg.blocks).map (·.id)

namespace ExtractionResult

/-- The result before any expression is found: the blocks, the lines and the definitions. -/
def start (cfg : CfgInfo) (dfg : DfgInfo) : ExtractionResult where
  allExprs := .empty
  blockInfo b :=
    if b ∈ cfg.blockIds then
      some { gen := .empty
             kill := (dfg.refs.filter fun r =>
               r.isDef && findBlockForLine cfg r.line == some b).map (·.name) }
    else none
  exprInstances := []
  exprInstancesWithBlocks := []
  defsPerLine line := (dfg.refs.filter fun r => r.isDef && r.line == line).map (·.name)
  lineToBlock := TldrCode.lineToBlock cfg
  uncertainExprs := []

def record (result : ExtractionResult) (expr : Expression) (block : Nat) : ExtractionResult :=
  { result with
    allExprs := result.allExprs.add expr
    exprInstances := result.exprInstances ++ [expr]
    exprInstancesWithBlocks := result.exprInstancesWithBlocks ++ [⟨expr, block⟩]
    blockInfo := update result.blockInfo block
      ((result.blockInfo block).map fun info => { info with gen := info.gen.add expr }) }

/-- `record`, in the block of the expression's line. -/
def recordAt (cfg : CfgInfo) (result : ExtractionResult) (expr : Expression) : ExtractionResult :=
  match findBlockForLine cfg expr.line with
  | some block => result.record expr block
  | none => result

/-- `sort_by_key(|e| e.line)`, which is stable. -/
def sorted (result : ExtractionResult) : ExtractionResult :=
  { result with
    exprInstances := result.exprInstances.insertionSort fun e f => e.line ≤ f.line
    exprInstancesWithBlocks :=
      result.exprInstancesWithBlocks.insertionSort fun i j => i.expr.line ≤ j.expr.line }

end ExtractionResult

section Extraction

variable (ord : HashOrder) (tables : CharTables) (cfg : CfgInfo) (dfg : DfgInfo)

def extractLine (result : ExtractionResult) (lineNum : Nat) (text : List Char) :
    Option ExtractionResult := do
  match ← tables.parseExpressionFromLine text with
  | some (left, op, right) =>
    let refsOnLine := dfg.refs.filter (·.line == lineNum)
    if refsOnLine.any (·.name == String.ofList left) ||
        refsOnLine.any (·.name == String.ofList right) ||
        tables.isNumericLiteral left || tables.isNumericLiteral right then
      some (result.recordAt cfg (.new (tables.normalizeExpression left op right)
        [String.ofList left, String.ofList right] lineNum))
    else some result
  | none =>
    match tables.detectUncertainExpression text lineNum, findBlockForLine cfg lineNum with
    | some uncertain, some _ =>
      some { result with uncertainExprs := result.uncertainExprs ++ [uncertain] }
    | _, _ => some result

/-- The textual extraction: all lines but those inside comments and strings. -/
def extractLines (lines : List String) (skipped : List Nat) (result : ExtractionResult) :
    Option ExtractionResult :=
  (lines.zipIdx 1).foldlM (fun result line =>
    if line.2 ∈ skipped then some result
    else extractLine tables cfg dfg result line.2 line.1.toList) result

/-- The expression guessed for a line: the sum of the first two variables used on it, if there are
a definition and two uses. -/
def guessExpression (block line : Nat) : Option Expression :=
  let refs := dfg.refs.filter fun r => findBlockForLine cfg r.line == some block && r.line == line
  let uses := (refs.filter (·.refType == .use)).map (·.name)
  let operands := uses.dedup.insertionSort (· ≤ ·)
  if refs.any (·.refType == .definition) then
    match operands with
    | first :: second :: _ =>
      some (.new (tables.normalizeExpression first.toList "+".toList second.toList) operands line)
    | _ => none
  else none

/-- The extraction without source: the groups of references by block and line. -/
def extractRefs (result : ExtractionResult) : ExtractionResult :=
  let groups := (dfg.refs.filterMap fun r =>
    (findBlockForLine cfg r.line).map fun block => (block, r.line)).dedup
  (ord.order groups).foldl (fun result group =>
    match guessExpression tables cfg dfg group.1 group.2 with
    | some expr => result.record expr group.1
    | none => result) result

/-- What the syntax tree adds: expressions whose text has not been found on their line. -/
def extractTree (tree : SyntaxTree) (result : ExtractionResult) : ExtractionResult :=
  let minLine := ((cfg.blocks.map (·.lines.1)).min?).getD 1
  let maxLine := ((cfg.blocks.map (·.lines.2)).max?).getD 1
  (tree.binaryExprs minLine maxLine).foldl (fun result found =>
    let (text, left, right, line) := found
    if result.allExprs.exprs.any fun e => e.text == text && e.line == line then result
    else result.recordAt cfg (.new text [left, right] line)) result

/-- `extract_expressions_full_with_lang`; `none` if the parser panics. -/
def extractExpressionsFullWithLang (sourceLines : Option (List String))
    (tree : Option SyntaxTree) : Option ExtractionResult :=
  let skipped := match sourceLines, tree with
    | some _, some tree => tree.commentAndStringLines
    | _, _ => []
  let found := match sourceLines with
    | some lines => extractLines tables cfg dfg lines skipped (.start cfg dfg)
    | none => some (extractRefs ord tables cfg dfg (.start cfg dfg))
  found.map fun result =>
    (match sourceLines, tree with
    | some _, some tree => extractTree cfg tree result
    | _, _ => result).sorted

end Extraction

/-! ## Analysis -/

inductive Confidence where
  | low
  | medium
  | high
  deriving DecidableEq, Repr

def computeConfidence (confirmed uncertain : Nat) : Confidence :=
  if confirmed = 0 ∧ uncertain = 0 then .low
  else if uncertain = 0 then .high
  else if uncertain ≤ confirmed then .medium
  else .low

structure AvailableExprsInfo where
  availIn : Nat → Option ExprSet
  availOut : Nat → Option ExprSet
  allExprs : ExprSet
  entryBlock : Nat
  exprInstances : List Expression
  exprInstancesWithBlocks : List ExprInstance
  defsPerLine : Nat → List String
  lineToBlock : Nat → Option Nat
  uncertainExprs : List UncertainFinding
  confidence : Confidence

def isKilled (expr : Expression) (kills : List String) : Bool :=
  expr.operands.any (· ∈ kills)

/-- `avail_in` and `avail_out`. -/
structure AvailState where
  availIn : Nat → Option ExprSet
  availOut : Nat → Option ExprSet

section Analysis

variable (cfg : CfgInfo) (extraction : ExtractionResult)

def AvailState.init : AvailState where
  availIn b :=
    if b = cfg.entryBlock then some .empty
    else if b ∈ cfg.blockIds then some extraction.allExprs
    else none
  availOut b :=
    if b = cfg.entryBlock then some (((extraction.blockInfo b).map (·.gen)).getD .empty)
    else if b ∈ cfg.blockIds then some extraction.allExprs
    else none

/-- `avail_out` of a predecessor. -/
def AvailState.outOf (state : AvailState) (pred : Nat) : ExprSet :=
  (state.availOut pred).getD extraction.allExprs

/-- `new_in` of a block. -/
def newIn (state : AvailState) (block : Nat) : ExprSet :=
  match cfg.predecessors block with
  | [] => .empty
  | pred :: preds => preds.foldl (fun result pred => result.inter (state.outOf extraction pred))
      (state.outOf extraction pred)

/-- `new_out` of a block. -/
def newOut (block : Nat) (newIn : ExprSet) : ExprSet :=
  let gen := ((extraction.blockInfo block).map (·.gen)).getD .empty
  let kill := ((extraction.blockInfo block).map (·.kill)).getD []
  gen.union (newIn.filter fun expr => !isKilled expr kill)

def availStep (run : AvailState × Bool) (block : Nat) : AvailState × Bool :=
  let (state, _) := run
  if block = cfg.entryBlock then run
  else
    let newIn := newIn cfg extraction state block
    let newOut := newOut extraction block newIn
    if (state.availIn block).any (·.eq newIn) && (state.availOut block).any (·.eq newOut) then run
    else
      ({ availIn := update state.availIn block (some newIn)
         availOut := update state.availOut block (some newOut) }, true)

/-- The rounds, `left` of them before the limit. -/
def availRounds (limit : Nat) : Nat → AvailState → Except DataflowError AvailState
  | 0, _ => .error (.iterationLimit limit)
  | left + 1, state =>
    let (state, changed) := (reversePostorder cfg).foldl (availStep cfg extraction) (state, false)
    if changed then availRounds limit left state
    else if left = 0 then .error (.iterationLimit limit)
    else .ok state

/-- The part of the analysis after the extraction. -/
def availableInfo : Except DataflowError AvailableExprsInfo :=
  let confidence :=
    computeConfidence extraction.allExprs.exprs.length extraction.uncertainExprs.length
  if extraction.allExprs.exprs.isEmpty then
    let empty := fun b => if b ∈ cfg.blockIds then some .empty else none
    .ok { availIn := empty, availOut := empty, allExprs := .empty, entryBlock := cfg.entryBlock,
          exprInstances := [], exprInstancesWithBlocks := [], defsPerLine := fun _ => [],
          lineToBlock := fun _ => none, uncertainExprs := extraction.uncertainExprs, confidence }
  else do
    let maxIterations := cfg.blocks.length * extraction.allExprs.exprs.length * 2 + 10
    let state ← availRounds cfg extraction maxIterations maxIterations (.init cfg extraction)
    return { availIn := state.availIn, availOut := state.availOut,
             allExprs := extraction.allExprs, entryBlock := cfg.entryBlock,
             exprInstances := extraction.exprInstances,
             exprInstancesWithBlocks := extraction.exprInstancesWithBlocks,
             defsPerLine := extraction.defsPerLine, lineToBlock := extraction.lineToBlock,
             uncertainExprs := extraction.uncertainExprs, confidence }

end Analysis

/-- The analysis, with source lines or without; `none` if the parser panics. -/
def computeAvailable (ord : HashOrder) (tables : CharTables) (cfg : CfgInfo) (dfg : DfgInfo)
    (sourceLines : Option (List String)) (tree : Option SyntaxTree) :
    Option (Except DataflowError AvailableExprsInfo) :=
  match validateCfg cfg with
  | .error e => some (.error e)
  | .ok () => (extractExpressionsFullWithLang ord tables cfg dfg sourceLines tree).map
      (availableInfo cfg)

def computeAvailableExprs (ord : HashOrder) (tables : CharTables) (cfg : CfgInfo)
    (dfg : DfgInfo) : Option (Except DataflowError AvailableExprsInfo) :=
  computeAvailable ord tables cfg dfg none none

def computeAvailableExprsWithSourceAndLang (ord : HashOrder) (tables : CharTables) (cfg : CfgInfo)
    (dfg : DfgInfo) (sourceLines : List String) (tree : Option SyntaxTree) :
    Option (Except DataflowError AvailableExprsInfo) :=
  computeAvailable ord tables cfg dfg (some sourceLines) tree

end TldrCode.Dataflow
