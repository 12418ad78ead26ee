import Mathlib.Data.Finset.Union
import Mathlib.Data.List.AList
import Mathlib.Data.List.Sort
import TldrCode.Dataflow.Worklist
import TldrCode.Types

/-!
# Taint analysis

`compute_taint_with_tree` of `security/taint.rs` without SSA: the worklist over the blocks, the
check of the sinks and the flows. The sources, the sinks and the lines with a sanitizer are given.
-/

namespace TldrCode.Security

open Function (update)

inductive TaintSourceType where
  | userInput | stdin | httpParam | httpBody | envVar | fileRead
  deriving DecidableEq, Repr

inductive TaintSinkType where
  | sqlQuery | codeEval | codeExec | codeCompile | shellExec | fileWrite | htmlOutput | fileOpen
  | httpRequest | deserialize | openRedirect
  deriving DecidableEq, Repr

structure TaintSource where
  var : String
  line : Nat
  sourceType : TaintSourceType
  statement : Option String
  deriving DecidableEq, Repr

structure TaintSink where
  var : String
  line : Nat
  sinkType : TaintSinkType
  tainted : Bool
  statement : Option String
  deriving DecidableEq, Repr

structure TaintFlow where
  source : TaintSource
  sink : TaintSink
  path : List Nat
  deriving DecidableEq, Repr

structure TaintInfo where
  functionName : String
  taintedVars : Nat → Finset String
  sources : List TaintSource
  sinks : List TaintSink
  flows : List TaintFlow
  sanitizedVars : Finset String
  convergence : Option String

structure TaintInput where
  cfg : CfgInfo
  refs : List VarRef
  statements : AList fun _ : Nat => String
  sources : List TaintSource
  sinks : List TaintSink
  sanitizerLines : List Nat

def validateCfg (ord : HashOrder) (cfg : CfgInfo) : Except TldrError Unit :=
  let suggestion := some s!"Valid block IDs are: {ord.order cfg.blockIds.dedup}"
  if cfg.blocks = [] then .error (.invalidArgs "cfg" "Empty CFG" none)
  else if cfg.entryBlock ∉ cfg.blockIds then
    .error (.invalidArgs "cfg" s!"Entry block {cfg.entryBlock} not in blocks" suggestion)
  else
    cfg.edges.forM fun edge =>
      if edge.fromBlock ∉ cfg.blockIds then
        .error (.invalidArgs "cfg"
          s!"Edge references invalid source block: {edge.fromBlock} -> {edge.toBlock}" suggestion)
      else if edge.toBlock ∉ cfg.blockIds then
        .error (.invalidArgs "cfg"
          s!"Edge references invalid target block: {edge.fromBlock} -> {edge.toBlock}" suggestion)
      else .ok ()

/-- `build_line_to_block` followed by a lookup: the largest block over a line counts, and of those
the one with the highest id. -/
def lineToBlock (cfg : CfgInfo) (line : Nat) : Option Nat :=
  let best := cfg.blocks.foldl (fun (best : Option (Nat × Nat)) block =>
    if block.lines.1 ≤ line ∧ line ≤ block.lines.2 then
      let size := block.lines.2 - block.lines.1 + 1
      match best with
      | none => some (block.id, size)
      | some (id, bestSize) =>
        if bestSize < size ∨ size = bestSize ∧ id < block.id then some (block.id, size)
        else best
    else best) none
  best.map (·.1)

/-- `c.is_ascii_alphanumeric() || c == '_'`. -/
def isIdentifierChar (c : Char) : Bool := c.isAlphanum || c = '_'

/-- The identifier stands in the text, whose characters follow `previous`. -/
def identifierFrom (ident : List Char) (previous : Option Char) : List Char → Bool
  | [] => false
  | c :: text =>
    ident.isPrefixOf (c :: text) && !previous.any isIdentifierChar &&
      !((c :: text).drop ident.length).head?.any isIdentifierChar ||
      identifierFrom ident (some c) text

def identifierInText (text ident : String) : Bool :=
  ident ≠ "" && identifierFrom ident.toList none text.toList

/-! ## The worklist -/

namespace TaintInput

variable (input : TaintInput)

/-- `build_refs_by_block` followed by a lookup. -/
def refsByBlock (b : Nat) : List VarRef :=
  (input.refs.filter fun r => lineToBlock input.cfg r.line = some b).insertionSort
    fun r r' => r.line ≤ r'.line

def sourceVarsByBlock (b : Nat) : Finset String :=
  ((input.sources.filter fun source => lineToBlock input.cfg source.line = some b).map
    (·.var)).toFinset

def sourcesByLine (line : Nat) : Finset String :=
  ((input.sources.filter fun source => source.line = line).map (·.var)).toFinset

def rhsUsesTainted (line : Nat) (currentTaint : Finset String) (blockRefs : List VarRef) : Bool :=
  blockRefs.any fun r => r.line = line && r.refType = .use && r.name ∈ currentTaint

/-- A reference in `process_block`: what it makes of the tainted and the sanitized variables. -/
def processRef (blockRefs : List VarRef) (state : Finset String × Finset String) (r : VarRef) :
    Finset String × Finset String :=
  let (currentTaint, sanitizedVars) := state
  let rhsTainted := rhsUsesTainted r.line currentTaint blockRefs
  match r.refType with
  | .definition =>
    if r.line ∈ input.sanitizerLines then
      (currentTaint.erase r.name, insert r.name sanitizedVars)
    else if rhsTainted ∨ r.name ∈ input.sourcesByLine r.line then
      (insert r.name currentTaint, sanitizedVars)
    else (currentTaint.erase r.name, sanitizedVars)
  | .use => (currentTaint, sanitizedVars)
  | .update =>
    if rhsTainted then (insert r.name currentTaint, sanitizedVars)
    else (currentTaint, sanitizedVars)

def processBlock (b : Nat) (taintIn sanitizedVars : Finset String) :
    Finset String × Finset String :=
  (input.refsByBlock b).foldl (input.processRef (input.refsByBlock b)) (taintIn, sanitizedVars)

def taintIn (b : Nat) (tainted : Nat → Finset String) : Finset String :=
  (input.cfg.predecessors b).toFinset.biUnion tainted ∪ input.sourceVarsByBlock b

def maxIterations : Nat :=
  min (input.cfg.blocks.length * max (input.refs.map (·.name)).dedup.length 1 + 10) 1000

/-- The worklist iteration, with the iterations that are left: the tainted variables of the blocks,
the sanitized variables and `iteration_limit_reached`. -/
def iterate : Nat → List Nat → (Nat → Finset String) → Finset String →
    (Nat → Finset String) × Finset String × Bool
  | _, [], tainted, sanitizedVars => (tainted, sanitizedVars, false)
  | 0, _ :: _, tainted, sanitizedVars => (tainted, sanitizedVars, true)
  | iterations + 1, b :: worklist, tainted, sanitizedVars =>
    let (taintOut, sanitizedVars) := input.processBlock b (input.taintIn b tainted) sanitizedVars
    if taintOut ≠ tainted b then
      iterate iterations (Dataflow.enqueue worklist (input.cfg.successors b))
        (update tainted b taintOut) sanitizedVars
    else iterate iterations worklist tainted sanitizedVars

/-! ## The flows -/

def blockText (block : CfgBlock) : String :=
  " ".intercalate ((List.range' block.lines.1 (block.lines.2 + 1 - block.lines.1)).filterMap
    fun line => input.statements.lookup line)

def sinkTainted (tainted : Nat → Finset String) (sink : TaintSink) : Bool :=
  match lineToBlock input.cfg sink.line with
  | none => sink.tainted
  | some sinkBlock =>
    if sink.var ∈ tainted sinkBlock then true
    else
      match input.cfg.blocks.find? (·.id = sinkBlock) with
      | none => sink.tainted
      | some block =>
        sink.tainted ||
          decide (∃ tvar ∈ tainted sinkBlock, identifierInText (input.blockText block) tvar)

/-- The search in `compute_flow_path`: the queue of paths, each with its last block first, and the
blocks visited. -/
def searchFlowPath (sinkBlock : Nat) : Nat → List (List Nat) → List Nat → Option (List Nat)
  | 0, _, _ => none
  | _ + 1, [], _ => none
  | rounds + 1, path :: queue, visited =>
    let succs := input.cfg.successors (path.headD 0)
    if sinkBlock ∈ succs then some (sinkBlock :: path).reverse
    else
      let (queue, visited) := succs.foldl (fun (state : List (List Nat) × List Nat) next =>
        if next ∈ state.2 then state else (state.1 ++ [next :: path], next :: state.2))
        (queue, visited)
      searchFlowPath sinkBlock rounds queue visited

/-- `compute_flow_path`: a path is queued for the source and for the target of each edge at most. -/
def computeFlowPath (sourceBlock sinkBlock : Nat) : List Nat :=
  if sourceBlock = sinkBlock then [sourceBlock]
  else
    (input.searchFlowPath sinkBlock (input.cfg.edges.length + 1) [[sourceBlock]]
      [sourceBlock]).getD [sourceBlock, sinkBlock]

/-- The flow from a source to a sink, if there is one. -/
def flow? (tainted : Nat → Finset String) (sanitizedVars : Finset String) (sink : TaintSink)
    (source : TaintSource) : Option TaintFlow :=
  match lineToBlock input.cfg sink.line, lineToBlock input.cfg source.line with
  | some sinkBlock, some sourceBlock =>
    let direct := sink.var ∈ tainted sinkBlock
    let indirect := source.var ∉ sanitizedVars ∧ source.var ∈ tainted sinkBlock ∧
      (sink.statement.any fun stmt => identifierInText stmt source.var)
    let isSanitized := sink.var ∈ sanitizedVars ∨ source.var ∈ sanitizedVars
    if (direct ∨ indirect) ∧ ¬ isSanitized ∧ source.line ≤ sink.line then
      some ⟨source, { sink with tainted := true }, input.computeFlowPath sourceBlock sinkBlock⟩
    else none
  | _, _ => none

/-- `compute_taint_with_tree` without SSA. -/
def computeTaintWithTree (ord : HashOrder) : Except TldrError TaintInfo := do
  validateCfg ord input.cfg
  let (tainted, sanitizedVars, iterationLimitReached) :=
    input.iterate input.maxIterations input.cfg.blockIds input.sourceVarsByBlock ∅
  let sinks := input.sinks.map fun sink =>
    { sink with tainted := input.sinkTainted tainted sink }
  let flows := (sinks.filter (·.tainted)).flatMap fun sink =>
    input.sources.filterMap (input.flow? tainted sanitizedVars sink)
  .ok {
    functionName := input.cfg.function
    taintedVars := tainted
    sources := input.sources
    sinks := sinks
    flows := flows
    sanitizedVars := sanitizedVars
    convergence := if iterationLimitReached then some "iteration_limit_reached" else none }

end TaintInput

end TldrCode.Security
