import Mathlib.Data.Finset.Option
import TldrCode.Security.Taint
import TldrCode.Ssa.Types

/-!
# Taint analysis with SSA

`compute_taint_with_tree` of `security/taint.rs` with an SSA function: the worklist over keys, which
are SSA names and, where the function has no name, variables. The names are numbered from one and
looked up by position, so that each lookup finds the next name (`variableAt`).
-/

namespace TldrCode.Security

open Function (update)
open Ssa (SsaFunction SsaInstruction PhiFunction)

inductive TaintKey where
  | versioned (id : Nat)
  | raw (var : String)
  deriving DecidableEq, Repr

/-! ## The SSA function -/

/-- The variable of `ssa.ssa_names.get(id.0 as usize)`. -/
def variableAt (ssa : SsaFunction) (id : Nat) : Option String := (ssa.ssaNames[id]?).map (·.var)

/-- `block_insts` followed by a lookup. -/
def blockInsts (ssa : SsaFunction) (b : Nat) : List SsaInstruction :=
  match ssa.blocks.reverse.find? (·.id = b) with
  | some block => block.instructions.insertionSort fun inst inst' => inst.line ≤ inst'.line
  | none => []

/-- `block_phis` followed by a lookup. -/
def blockPhis (ssa : SsaFunction) (b : Nat) : List PhiFunction :=
  match ssa.blocks.reverse.find? (·.id = b) with
  | some block => block.phiFunctions
  | none => []

/-- The names on the line of a source that are found to be of its variable. -/
def seededNames (ssa : SsaFunction) (source : TaintSource) (b : Nat) : List Nat :=
  (blockInsts ssa b).filterMap fun inst =>
    if inst.line ≠ source.line then none
    else inst.target.filter fun target => variableAt ssa target = some source.var

/-- The keys that a source seeds in its block. -/
def seededKeys (ssa : SsaFunction) (source : TaintSource) (b : Nat) : List TaintKey :=
  let names := seededNames ssa source b
  if names.isEmpty then [.raw source.var] else names.map .versioned

/-- The phi functions at the start of a block. -/
def mergePhis (phis : List PhiFunction) (taintIn : Finset TaintKey) : Finset TaintKey :=
  phis.foldl (fun taintIn phi =>
    if phi.sources.any fun source => TaintKey.versioned source.name ∈ taintIn then
      insert (.versioned phi.target) taintIn
    else taintIn) taintIn

def usesTainted (ssa : SsaFunction) (inst : SsaInstruction) (currentTaint : Finset TaintKey) :
    Bool :=
  inst.uses.any fun use => TaintKey.versioned use ∈ currentTaint ||
    (variableAt ssa use).any fun var => TaintKey.raw var ∈ currentTaint

/-- The variables that keys stand for in the tainted variables of a block. -/
def keyVariables (ssa : SsaFunction) (keys : Finset TaintKey) : Finset String :=
  keys.biUnion fun
    | .versioned id => (variableAt ssa id).toFinset
    | .raw var => {var}

namespace TaintInput

variable (input : TaintInput) (ssa : SsaFunction)

/-! ## The worklist -/

def ssaSeeds (b : Nat) : Finset TaintKey :=
  ((input.sources.filter fun source => lineToBlock input.cfg source.line = some b).flatMap
    fun source => seededKeys ssa source b).toFinset

/-- What is tainted before the instructions of a block. -/
def ssaTaintIn (b : Nat) (tainted : Nat → Finset TaintKey) : Finset TaintKey :=
  mergePhis (blockPhis ssa b) ((input.cfg.predecessors b).toFinset.biUnion tainted) ∪
    input.ssaSeeds ssa b

/-- An instruction in `ssa_propagate`: what it makes of the tainted keys and the sanitized
variables. -/
def processInst (state : Finset TaintKey × Finset String) (inst : SsaInstruction) :
    Finset TaintKey × Finset String :=
  let (currentTaint, sanitizedVars) := state
  match inst.target with
  | none => state
  | some target =>
    let targetVar := variableAt ssa target
    if inst.line ∈ input.sanitizerLines then (currentTaint, sanitizedVars ∪ targetVar.toFinset)
    else if usesTainted ssa inst currentTaint then
      (insert (.versioned target) currentTaint, sanitizedVars)
    else (currentTaint \ (targetVar.toFinset.image .raw), sanitizedVars)

def processInsts (b : Nat) (taintIn : Finset TaintKey) (sanitizedVars : Finset String) :
    Finset TaintKey × Finset String :=
  (blockInsts ssa b).foldl (input.processInst ssa) (taintIn, sanitizedVars)

/-- The worklist iteration of `ssa_propagate`, with the iterations that are left: the tainted keys
of the blocks, the sanitized variables, and whether the loop is left by its `break`, which is not
reported. -/
def ssaIterate : Nat → List Nat → (Nat → Finset TaintKey) → Finset String →
    (Nat → Finset TaintKey) × Finset String × Bool
  | _, [], tainted, sanitizedVars => (tainted, sanitizedVars, false)
  | 0, _ :: _, tainted, sanitizedVars => (tainted, sanitizedVars, true)
  | iterations + 1, b :: worklist, tainted, sanitizedVars =>
    let (currentTaint, sanitizedVars) :=
      input.processInsts ssa b (input.ssaTaintIn ssa b tainted) sanitizedVars
    if currentTaint ≠ tainted b then
      ssaIterate iterations (Dataflow.enqueue worklist (input.cfg.successors b))
        (update tainted b currentTaint) sanitizedVars
    else ssaIterate iterations worklist tainted sanitizedVars

def ssaPropagate : (Nat → Finset TaintKey) × Finset String × Bool :=
  input.ssaIterate ssa input.maxIterations (ssa.blocks.map (·.id)) (input.ssaSeeds ssa) ∅

def ssaSinkIsTainted (sink : TaintSink) (sinkBlock : Nat) (blockTaint : Finset TaintKey) : Bool :=
  match ssa.blocks.find? (·.id = sinkBlock) with
  | none => false
  | some block =>
    (block.instructions.any fun inst => inst.line = sink.line && inst.uses.any fun use =>
      variableAt ssa use = some sink.var &&
        (TaintKey.versioned use ∈ blockTaint || TaintKey.raw sink.var ∈ blockTaint)) ||
      TaintKey.raw sink.var ∈ blockTaint

/-- Whether a sink is tainted, given the keys and the variables that are. -/
def sinkTaintedSsa (taintedSsa : Nat → Finset TaintKey) (tainted : Nat → Finset String)
    (sanitizedVars : Finset String) (sink : TaintSink) : Bool :=
  match lineToBlock input.cfg sink.line with
  | none => sink.tainted
  | some sinkBlock =>
    sink.tainted || ssaSinkIsTainted ssa sink sinkBlock (taintedSsa sinkBlock) ||
      (!ssa.ssaNames.any (·.var = sink.var) && sink.var ∉ sanitizedVars &&
        (input.cfg.blocks.find? (·.id = sinkBlock)).any fun block =>
          decide (∃ tvar ∈ tainted sinkBlock,
            tvar ∉ sanitizedVars ∧ identifierInText (input.blockText block) tvar))

/-- The result for given tainted variables and sinks. -/
def taintInfo (tainted : Nat → Finset String) (sanitizedVars : Finset String)
    (sinks : List TaintSink) (convergence : Option String) : TaintInfo where
  functionName := input.cfg.function
  taintedVars := tainted
  sources := input.sources
  sinks
  flows := (sinks.filter (·.tainted)).flatMap fun sink =>
    input.sources.filterMap (input.flow? tainted sanitizedVars sink)
  sanitizedVars
  convergence

/-- `compute_taint_with_tree`. An SSA function without blocks is not used. -/
def computeTaint (ord : HashOrder) (ssa : Option SsaFunction) : Except TldrError TaintInfo := do
  validateCfg ord input.cfg
  match ssa.filter fun ssa => !ssa.blocks.isEmpty with
  | some ssa =>
    let (taintedSsa, sanitizedVars, _) := input.ssaPropagate ssa
    let tainted := fun b => keyVariables ssa (taintedSsa b)
    let sinks := input.sinks.map fun sink =>
      { sink with tainted := input.sinkTaintedSsa ssa taintedSsa tainted sanitizedVars sink }
    .ok (input.taintInfo tainted sanitizedVars sinks none)
  | none =>
    let (tainted, sanitizedVars, iterationLimitReached) :=
      input.iterate input.maxIterations input.cfg.blockIds input.sourceVarsByBlock ∅
    let sinks := input.sinks.map fun sink =>
      { sink with tainted := input.sinkTainted tainted sink }
    .ok (input.taintInfo tainted sanitizedVars sinks
      (if iterationLimitReached then some "iteration_limit_reached" else none))

variable {input} {ssa} {ord : HashOrder} {info : TaintInfo} {option : Option SsaFunction}

theorem computeTaint_none : input.computeTaint ord none = input.computeTaintWithTree ord := rfl

theorem exists_taintInfo (h : input.computeTaint ord option = .ok info) :
    ∃ tainted sanitizedVars sinks convergence,
      info = input.taintInfo tainted sanitizedVars sinks convergence ∧
        ∀ sink ∈ sinks, ∃ old ∈ input.sinks, sink = { old with tainted := sink.tainted } := by
  unfold computeTaint at h
  cases hvalid : validateCfg ord input.cfg with
  | error e =>
    rw [hvalid] at h
    cases h
  | ok u =>
    rw [hvalid] at h
    cases hssa : option.filter fun ssa => !ssa.blocks.isEmpty with
    | none | some ssa =>
      rw [hssa] at h
      cases h
      refine ⟨_, _, _, _, rfl, fun sink hsink => ?_⟩
      obtain ⟨old, hold, rfl⟩ := List.mem_map.1 hsink
      exact ⟨old, hold, rfl⟩

end TaintInput

end TldrCode.Security
