import TldrCode.Ssa.DominanceFrontier
import TldrCode.Ssa.LiveVariables
import TldrCode.Ssa.Types

/-!
# SSA construction

`ssa/construct.rs`: phi functions are placed at the iterated dominance frontiers of the blocks
that define a variable (`placePhiFunctions`), and a walk over the dominator tree names the
definitions and resolves the uses (`renameVariablesRecursive`). The SSA names are numbered in the
order they are created, so the list of names in that order is the one sorted by id.
-/

namespace TldrCode.Ssa

open Function (update)

/-- The `for &y in frontier` of `compute_iterated_df`; the state is the frontier found so far and
the worklist, whose head is popped first. -/
def iteratedStep (processed : List Nat) (state : List Nat × List Nat) (y : Nat) :
    List Nat × List Nat :=
  if y ∈ state.1 then state
  else (state.1.insert y, if y ∈ processed then state.2 else y :: state.2)

/-- The loop of `compute_iterated_df`. -/
def iteratedLoop (ord : HashOrder) (df : DominanceFrontier) :
    Nat → List Nat → List Nat → List Nat → List Nat
  | 0, _, _, idf => idf
  | _ + 1, [], _, idf => idf
  | rounds + 1, block :: worklist, processed, idf =>
    if block ∈ processed then iteratedLoop ord df rounds worklist processed idf
    else
      let processed := processed.insert block
      match df.frontier block with
      | none => iteratedLoop ord df rounds worklist processed idf
      | some frontier =>
        let (idf, worklist) := (ord.order frontier).foldl (iteratedStep processed) (idf, worklist)
        iteratedLoop ord df rounds worklist processed idf

/-- `compute_iterated_df`; a block is pushed when it is given or first found, so `rounds` is the
number of the blocks given and of all blocks. -/
def computeIteratedDf (ord : HashOrder) (df : DominanceFrontier) (rounds : Nat)
    (blocks : List Nat) : List Nat :=
  iteratedLoop ord df rounds (ord.order blocks).reverse [] []

def getSourceText (line : Nat) (statements : List String) : Option String :=
  if statements.isEmpty || line == 0 then none else statements[line - 1]?

/-- `map.entry(name).or_default().insert(block)`. -/
def insertBlock (map : List (String × List Nat)) (name : String) (block : Nat) :
    List (String × List Nat) :=
  if map.any (·.1 == name) then
    map.map fun entry => if entry.1 = name then (entry.1, entry.2.insert block) else entry
  else map ++ [(name, [block])]

def collectVariableDefinitions (cfg : CfgInfo) (dfg : DfgInfo) : List (String × List Nat) :=
  dfg.refs.foldl (fun varDefs varRef =>
    if varRef.isDef then
      insertBlock varDefs varRef.name ((lineToBlock cfg varRef.line).getD cfg.entryBlock)
    else varDefs) []

def filterNonLocalVariables (cfg : CfgInfo) (dfg : DfgInfo) : List String :=
  let varBlocks := dfg.refs.foldl (fun varBlocks varRef =>
    match lineToBlock cfg varRef.line with
    | some block => insertBlock varBlocks varRef.name block
    | none => varBlocks) []
  (varBlocks.filter fun entry => 1 < entry.2.length).map (·.1)

/-- `place_phi_functions` and `place_phi_functions_pruned`, which asks `isLive` first. -/
def placePhis (ord : HashOrder) (df : DominanceFrontier) (numBlocks : Nat)
    (isLive : Nat → String → Bool) (varDefs : List (String × List Nat)) : Nat → List String :=
  (ord.order varDefs).foldl (fun placements entry =>
    (computeIteratedDf ord df (entry.2.length + numBlocks) entry.2).foldl (fun placements block =>
      if isLive block entry.1 then update placements block (placements block ++ [entry.1])
      else placements) placements) fun _ => []

def placePhiFunctions (ord : HashOrder) (df : DominanceFrontier) (numBlocks : Nat)
    (varDefs : List (String × List Nat)) : Nat → List String :=
  placePhis ord df numBlocks (fun _ _ => true) varDefs

def buildInitialSsaBlocks (cfg : CfgInfo) (phiPlacements : Nat → List String) : List SsaBlock :=
  cfg.blocks.map fun block =>
    { id := block.id
      label := if cfg.entryBlock = block.id then some "entry"
        else if block.id ∈ cfg.exitBlocks then some "exit" else none
      lines := block.lines
      phiFunctions := (phiPlacements block.id).map fun var =>
        { target := 0, var, sources := [], line := block.lines.1 }
      instructions := []
      successors := cfg.successors block.id
      predecessors := cfg.predecessors block.id }

/-! ## Renaming -/

/-- `RenamingState`. The top of a stack is its head. -/
structure RenamingState where
  nextId : Nat
  versionStacks : String → List Nat
  names : List SsaName
  counters : String → Nat
  blockExitVersions : String → Nat → Option Nat

namespace RenamingState

def new : RenamingState where
  nextId := 1
  versionStacks _ := []
  names := []
  counters _ := 0
  blockExitVersions _ _ := none

/-- `new_name`; the id it returns is the `nextId` of the state it is called on. -/
def newName (state : RenamingState) (var : String) (blockId line : Nat) : RenamingState :=
  let id := state.nextId
  let version := state.counters var + 1
  { state with
    nextId := id + 1
    counters := update state.counters var version
    names := state.names ++
      [{ id, var, version, defBlock := some blockId, defLine := line }]
    versionStacks := update state.versionStacks var (id :: state.versionStacks var) }

def current (state : RenamingState) (var : String) : Option Nat := (state.versionStacks var).head?

def stackDepth (state : RenamingState) (var : String) : Nat := (state.versionStacks var).length

/-- `restore_depth` for all variables of `initial_depths`. -/
def restoreDepths (state : RenamingState) (initialDepths : String → Option Nat) : RenamingState :=
  { state with
    versionStacks := fun var => match initialDepths var with
      | some depth => (state.versionStacks var).drop ((state.versionStacks var).length - depth)
      | none => state.versionStacks var }

/-- The versions at the exit of a block: for the variables touched in it and all others that have
one. -/
def recordExit (state : RenamingState) (blockId : Nat) : RenamingState :=
  { state with
    blockExitVersions := fun var block =>
      if block = blockId then (state.current var).or (state.blockExitVersions var block)
      else state.blockExitVersions var block }

end RenamingState

/-- The references of a block: those on its lines, and in the entry block the definitions outside
all blocks. -/
def refsInBlock (cfg : CfgInfo) (dfg : DfgInfo) (blockId : Nat) : List VarRef :=
  dfg.refs.filter fun r =>
    match lineToBlock cfg r.line with
    | some b => b == blockId
    | none => blockId == cfg.entryBlock && r.isDef

/-- `sort_by_key(|r| (r.line, matches!(r.ref_type, RefType::Use)))`, which is stable. -/
def refsSorted (cfg : CfgInfo) (dfg : DfgInfo) (blockId : Nat) : List VarRef :=
  (refsInBlock cfg dfg blockId).insertionSort fun r s =>
    r.line < s.line ∨ r.line = s.line ∧ (r.refType = .use → s.refType = .use)

structure SsaRenamingContext where
  cfg : CfgInfo
  dfg : DfgInfo
  domTree : DominatorTree
  statements : List String

namespace SsaRenamingContext

variable (ctx : SsaRenamingContext)

def resolveUsesOnLine (line : Nat) (defVarName : String) (blockId : Nat)
    (state : RenamingState) : List Nat :=
  (ctx.dfg.refs.filter fun r => r.line == line && r.name != defVarName && r.refType == .use &&
    lineToBlock ctx.cfg r.line == some blockId).filterMap fun r => state.current r.name

end SsaRenamingContext

/-- The instruction that defines `target` for the reference `r`. -/
def instructionFor (ctx : SsaRenamingContext) (r : VarRef) (target : Nat) (uses : List Nat) :
    SsaInstruction where
  kind := .assign
  target := some target
  uses
  line := r.line
  sourceText := getSourceText r.line ctx.statements

/-- What one block is renamed in: the block, the state, and the stack depths to restore. -/
structure BlockPass where
  block : SsaBlock
  state : RenamingState
  initialDepths : String → Option Nat

namespace BlockPass

/-- `initial_depths.entry(var).or_insert_with(|| state.stack_depth(var))`. -/
def noteDepth (pass : BlockPass) (var : String) : BlockPass :=
  match pass.initialDepths var with
  | some _ => pass
  | none =>
    { pass with
      initialDepths := update pass.initialDepths var (some (pass.state.stackDepth var)) }

/-- A new name for `var` and the instruction that defines it. -/
def define (pass : BlockPass) (ctx : SsaRenamingContext) (r : VarRef) (uses : List Nat) :
    BlockPass :=
  { pass with
    block := { pass.block with
      instructions := pass.block.instructions ++
        [instructionFor ctx r pass.state.nextId uses] }
    state := pass.state.newName r.name pass.block.id r.line }

def renamePhi (pass : BlockPass) (phi : PhiFunction) : BlockPass :=
  { pass with
    block := { pass.block with
      phiFunctions := pass.block.phiFunctions ++ [{ phi with target := pass.state.nextId }] }
    state := pass.state.newName phi.var pass.block.id pass.block.lines.1 }

def renameRef (ctx : SsaRenamingContext) (pass : BlockPass) (r : VarRef) : BlockPass :=
  let pass := pass.noteDepth r.name
  match r.refType with
  | .definition =>
    pass.define ctx r (ctx.resolveUsesOnLine r.line r.name pass.block.id pass.state)
  | .update =>
    let uses := ctx.resolveUsesOnLine r.line r.name pass.block.id pass.state
    pass.define ctx r <| match pass.state.current r.name with
      | some selfUse => if selfUse ∈ uses then uses else selfUse :: uses
      | none => uses
  | .use => pass

end BlockPass

/-- Steps 1 and 2 of `rename_variables_recursive`: the phi functions of the block get their
targets, in place, then come the references. -/
def renameBlock (ctx : SsaRenamingContext) (block : SsaBlock) (state : RenamingState) : BlockPass :=
  let phis := block.phiFunctions
  let pass := (phis.map (·.var)).foldl BlockPass.noteDepth ⟨block, state, fun _ => none⟩
  let pass := phis.foldl BlockPass.renamePhi
    { pass with block := { pass.block with phiFunctions := [] } }
  let pass := (refsSorted ctx.cfg ctx.dfg block.id).foldl (BlockPass.renameRef ctx) pass
  { pass with state := pass.state.recordExit block.id }

/-- `rename_variables_recursive`. The recursion goes down the dominator tree, so `fuel` is the
number of its nodes. -/
def renameVariablesRecursive (ctx : SsaRenamingContext) :
    Nat → Nat → List SsaBlock × RenamingState → List SsaBlock × RenamingState
  | 0, _, run => run
  | fuel + 1, blockId, (ssaBlocks, state) =>
    let idx := ssaBlocks.findIdx (·.id == blockId)
    match ssaBlocks[idx]? with
    | none => (ssaBlocks, state)
    | some block =>
      let pass := renameBlock ctx block state
      let children := ((ctx.domTree.get? blockId).map (·.children)).getD []
      let (ssaBlocks, state) := children.foldl
        (fun run child => renameVariablesRecursive ctx fuel child run)
        (ssaBlocks.set idx pass.block, pass.state)
      (ssaBlocks, state.restoreDepths pass.initialDepths)

def fillPhiSources (ssaBlocks : List SsaBlock) (state : RenamingState) : List SsaBlock :=
  ssaBlocks.map fun block =>
    { block with
      phiFunctions := block.phiFunctions.map fun phi =>
        { phi with
          sources := phi.sources ++ block.predecessors.map fun predId =>
            { block := predId
              name := (state.blockExitVersions phi.var predId).getD 0 } } }

/-- `def_use.entry(name).or_default()`. -/
def ensureEntry (defUse : Nat → Option (List Nat)) (name : Nat) : Nat → Option (List Nat) :=
  update defUse name (some ((defUse name).getD []))

/-- `def_use.entry(name).or_default().push(user)`. -/
def pushUse (defUse : Nat → Option (List Nat)) (name user : Nat) : Nat → Option (List Nat) :=
  update defUse name (some ((defUse name).getD [] ++ [user]))

def buildDefUseChains (ssaBlocks : List SsaBlock) : Nat → Option (List Nat) :=
  ssaBlocks.foldl (fun defUse block =>
    let defUse := block.phiFunctions.foldl (fun defUse phi =>
      phi.sources.foldl (fun defUse source => pushUse defUse source.name phi.target)
        (ensureEntry defUse phi.target)) defUse
    block.instructions.foldl (fun defUse inst =>
      match inst.target with
      | some target =>
        inst.uses.foldl (fun defUse useId => pushUse defUse useId target)
          (ensureEntry defUse target)
      | none => defUse) defUse) fun _ => none

def computeSsaStats (ssaBlocks : List SsaBlock) (state : RenamingState) : SsaStats where
  phiCount := (ssaBlocks.map (·.phiFunctions.length)).sum
  ssaNames := state.names.length
  blocks := ssaBlocks.length
  instructions := (ssaBlocks.map (·.instructions.length)).sum
  deadPhiCount := 0

/-! ## The constructions -/

/-- Phases 2 to 6, which the three constructions share. -/
def buildSsa (ctx : SsaRenamingContext) (ssaType : SsaType) (phiPlacements : Nat → List String) :
    SsaFunction :=
  let (ssaBlocks, state) := renameVariablesRecursive ctx (ctx.domTree.nodes.length + 1)
    ctx.cfg.entryBlock (buildInitialSsaBlocks ctx.cfg phiPlacements, .new)
  let ssaBlocks := fillPhiSources ssaBlocks state
  { function := ctx.cfg.function
    ssaType
    blocks := ssaBlocks
    ssaNames := state.names
    defUse := buildDefUseChains ssaBlocks
    stats := computeSsaStats ssaBlocks state }

def constructMinimalSsaWithStatements (ord : HashOrder) (cfg : CfgInfo) (dfg : DfgInfo)
    (statements : List String) : Except TldrError SsaFunction := do
  let domTree ← buildDominatorTree cfg
  let domFrontier ← computeDominanceFrontier cfg domTree
  return buildSsa { cfg, dfg, domTree, statements } .minimal
    (placePhiFunctions ord domFrontier cfg.blocks.length (collectVariableDefinitions cfg dfg))

def constructMinimalSsa (ord : HashOrder) (cfg : CfgInfo) (dfg : DfgInfo) :
    Except TldrError SsaFunction :=
  constructMinimalSsaWithStatements ord cfg dfg []

def constructSemiPrunedSsaWithStatements (ord : HashOrder) (cfg : CfgInfo) (dfg : DfgInfo)
    (statements : List String) : Except TldrError SsaFunction := do
  let domTree ← buildDominatorTree cfg
  let domFrontier ← computeDominanceFrontier cfg domTree
  let nonLocalVars := filterNonLocalVariables cfg dfg
  let filteredDefs := (collectVariableDefinitions cfg dfg).filter (·.1 ∈ nonLocalVars)
  return buildSsa { cfg, dfg, domTree, statements } .semiPruned
    (placePhiFunctions ord domFrontier cfg.blocks.length filteredDefs)

def constructSemiPrunedSsa (ord : HashOrder) (cfg : CfgInfo) (dfg : DfgInfo) :
    Except TldrError SsaFunction :=
  constructSemiPrunedSsaWithStatements ord cfg dfg []

def constructPrunedSsaWithStatements (ord : HashOrder) (cfg : CfgInfo) (dfg : DfgInfo)
    (liveVars : LiveVariables) (statements : List String) : Except TldrError SsaFunction := do
  let domTree ← buildDominatorTree cfg
  let domFrontier ← computeDominanceFrontier cfg domTree
  return buildSsa { cfg, dfg, domTree, statements } .pruned
    (placePhis ord domFrontier cfg.blocks.length liveVars.isLiveIn
      (collectVariableDefinitions cfg dfg))

def constructPrunedSsa (ord : HashOrder) (cfg : CfgInfo) (dfg : DfgInfo)
    (liveVars : LiveVariables) : Except TldrError SsaFunction :=
  constructPrunedSsaWithStatements ord cfg dfg liveVars []

end TldrCode.Ssa
