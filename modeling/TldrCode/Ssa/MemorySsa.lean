import TldrCode.Dataflow.Expressions
import TldrCode.Ssa.Construct

/-!
# Memory SSA

`ssa/memory.rs`: the memory operations are read off the source texts of the instructions
(`extractMemoryOperations`); one variable, the memory, gets phi functions at the iterated dominance
frontier of the blocks that define it and is renamed by a walk over the dominator tree
(`renameMemoryVersions`). A memory version is its number, 0 the state at the start.
-/

namespace TldrCode.Ssa

open Function (update)
open Dataflow (CharTables containsText)

/-! ## Memory operations -/

inductive MemoryOpKind where
  | store
  | load
  | call
  | alloc
  deriving DecidableEq, Repr

structure MemoryOp where
  block : Nat
  line : Nat
  isDef : Bool
  kind : MemoryOpKind
  deriving DecidableEq, Repr

def isAttributeAccess (source : List Char) : Bool := '.' ∈ source || '[' ∈ source

def isAllocation (tables : CharTables) (source : List Char) : Bool :=
  containsText "new ".toList source ||
    '(' ∈ source && ')' ∈ source && !"def ".toList.isPrefixOf source &&
      !"fn ".toList.isPrefixOf source && source.head?.any tables.isUppercase

/-- `parse_attribute_assignment`: whether the access is a store. -/
def parseAttributeAssignment (tables : CharTables) (source : List Char) : Bool :=
  if '=' ∈ source then
    let lhs := tables.trim (source.takeWhile (· != '='))
    '.' ∈ lhs || '[' ∈ lhs
  else false

def memoryOperation (tables : CharTables) (block : Nat) (instr : SsaInstruction) :
    Option MemoryOp :=
  match instr.kind with
  | .call => some { block, line := instr.line, isDef := true, kind := .call }
  | .assign =>
    match instr.sourceText with
    | none => none
    | some source =>
      if isAttributeAccess source.toList then
        if parseAttributeAssignment tables source.toList then
          some { block, line := instr.line, isDef := true, kind := .store }
        else some { block, line := instr.line, isDef := false, kind := .load }
      else if isAllocation tables source.toList then
        some { block, line := instr.line, isDef := true, kind := .alloc }
      else none
  | _ => none

def extractMemoryOperations (tables : CharTables) (ssa : SsaFunction) : List MemoryOp :=
  ssa.blocks.flatMap fun block => block.instructions.filterMap (memoryOperation tables block.id)

/-! ## The result -/

structure MemoryPhiSource where
  block : Nat
  version : Nat
  deriving DecidableEq, Repr

structure MemoryPhi where
  result : Nat
  block : Nat
  sources : List MemoryPhiSource
  deriving DecidableEq, Repr

/-- `MemoryDef`; its kind is the one of the operation. -/
structure MemoryDef where
  version : Nat
  clobbers : Nat
  block : Nat
  line : Nat
  kind : MemoryOpKind
  deriving DecidableEq, Repr

/-- `MemoryUse`; its kind is the one of the operation. -/
structure MemoryUse where
  version : Nat
  block : Nat
  line : Nat
  kind : MemoryOpKind
  deriving DecidableEq, Repr

structure MemorySsaStats where
  defs : Nat
  uses : Nat
  phis : Nat
  maxVersion : Nat
  deriving DecidableEq, Repr

structure MemorySsa where
  function : String
  memoryPhis : List MemoryPhi
  memoryDefs : List MemoryDef
  memoryUses : List MemoryUse
  defUse : Nat → Option (List Nat)
  stats : MemorySsaStats

/-! ## The builder -/

/-- `MemorySsaBuilder`; the top of the stack is its head. -/
structure MemorySsaBuilder where
  nextVersion : Nat
  blockOutVersion : Nat → Option Nat
  versionStack : List Nat
  memoryDefs : List MemoryDef
  memoryUses : List MemoryUse
  memoryPhis : List MemoryPhi

/-- `while version_stack.len() > stack_depth`, for depths of at least one. -/
def popTo (stackDepth : Nat) : List Nat → List Nat
  | [] => []
  | version :: versions =>
    if versions.length + 1 > stackDepth then popTo stackDepth versions else version :: versions

namespace MemorySsaBuilder

def new : MemorySsaBuilder := ⟨1, fun _ => none, [0], [], [], []⟩

variable (builder : MemorySsaBuilder)

def currentVersion : Nat := builder.versionStack.head?.getD 0

def pushVersion (version : Nat) : MemorySsaBuilder :=
  { builder with versionStack := version :: builder.versionStack }

def addDef (block line : Nat) (kind : MemoryOpKind) : MemorySsaBuilder :=
  { builder with
    nextVersion := builder.nextVersion + 1
    memoryDefs := builder.memoryDefs ++
      [{ version := builder.nextVersion, clobbers := builder.currentVersion, block, line, kind }]
    versionStack := builder.nextVersion :: builder.versionStack }

def addUse (block line : Nat) (kind : MemoryOpKind) : MemorySsaBuilder :=
  { builder with
    memoryUses := builder.memoryUses ++ [{ version := builder.currentVersion, block, line, kind }] }

/-- `add_phi`, whose result goes to `phi_versions`. -/
def addPhi (phiVersions : Nat → Option Nat) (block : Nat) :
    MemorySsaBuilder × (Nat → Option Nat) :=
  ({ builder with
    nextVersion := builder.nextVersion + 1
    memoryPhis := builder.memoryPhis ++ [{ result := builder.nextVersion, block, sources := [] }] },
  update phiVersions block (some builder.nextVersion))

/-- One memory operation of the block that is renamed. -/
def process (block : Nat) (op : MemoryOp) : MemorySsaBuilder :=
  match op.kind with
  | .store => builder.addDef block op.line .store
  | .load => builder.addUse block op.line .load
  -- calls may read memory first, then clobber
  | .call => (builder.addUse block op.line .call).addDef block op.line .call
  | .alloc => builder.addDef block op.line .alloc

/-- `block_out_version.insert(block_id, current_version())`. -/
def recordOut (block : Nat) : MemorySsaBuilder :=
  { builder with
    blockOutVersion := update builder.blockOutVersion block (some builder.currentVersion) }

end MemorySsaBuilder

/-- What `rename_memory_versions` does before it turns to the children: the phi function, the
operations and the version at the exit. -/
def renameMemoryBlock (memoryOps : List MemoryOp) (phiVersions : Nat → Option Nat)
    (blockId : Nat) (builder : MemorySsaBuilder) : MemorySsaBuilder :=
  let builder := match phiVersions blockId with
    | some phiVersion => builder.pushVersion phiVersion
    | none => builder
  ((memoryOps.filter (·.block == blockId)).foldl (fun builder op => builder.process blockId op)
    builder).recordOut blockId

/-- `rename_memory_versions`. The recursion goes down the dominator tree, so `fuel` is the number
of its nodes. -/
def renameMemoryVersions (memoryOps : List MemoryOp) (phiVersions : Nat → Option Nat)
    (domTree : DominatorTree) : Nat → Nat → MemorySsaBuilder → MemorySsaBuilder
  | 0, _, builder => builder
  | fuel + 1, blockId, builder =>
    let children := ((domTree.get? blockId).map (·.children)).getD []
    let after := children.foldl
      (fun builder child => renameMemoryVersions memoryOps phiVersions domTree fuel child builder)
      (renameMemoryBlock memoryOps phiVersions blockId builder)
    { after with versionStack := popTo builder.versionStack.length after.versionStack }

def fillMemoryPhiSources (cfg : CfgInfo) (builder : MemorySsaBuilder) : List MemoryPhi :=
  builder.memoryPhis.map fun phi =>
    { phi with
      sources := phi.sources ++ (cfg.predecessors phi.block).map fun predBlock =>
        { block := predBlock, version := (builder.blockOutVersion predBlock).getD 0 } }

/-- `if let Some(uses) = chains.get_mut(&version) { uses.push(user) }`. -/
def pushIfEntry (chains : Nat → Option (List Nat)) (version user : Nat) :
    Nat → Option (List Nat) :=
  match chains version with
  | some uses => update chains version (some (uses ++ [user]))
  | none => chains

def buildMemoryDefUseChains (memoryDefs : List MemoryDef) (memoryUses : List MemoryUse)
    (memoryPhis : List MemoryPhi) : Nat → Option (List Nat) :=
  let chains := (memoryDefs.map (·.version)).foldl ensureEntry fun _ => none
  let chains := (memoryPhis.map (·.result)).foldl ensureEntry chains
  let chains := memoryUses.foldl (fun chains use => pushIfEntry chains use.version use.version)
    chains
  memoryPhis.foldl (fun chains phi =>
    phi.sources.foldl (fun chains source => pushIfEntry chains source.version phi.result) chains)
    chains

def memoryDefBlocks (memoryOps : List MemoryOp) : List Nat :=
  ((memoryOps.filter (·.isDef)).map (·.block)).dedup

/-- The phi functions of phase 4, in the order of the hash set, with the versions of their
blocks. -/
def addMemoryPhis (phiBlocks : List Nat) : MemorySsaBuilder × (Nat → Option Nat) :=
  phiBlocks.foldl (fun state block => state.1.addPhi state.2 block) (.new, fun _ => none)

def buildMemorySsa (tables : CharTables) (ord : HashOrder) (cfg : CfgInfo) (ssa : SsaFunction) :
    Except TldrError MemorySsa :=
  let memoryOps := extractMemoryOperations tables ssa
  if memoryOps.isEmpty then
    .ok { function := ssa.function, memoryPhis := [], memoryDefs := [], memoryUses := []
          defUse := fun _ => none, stats := ⟨0, 0, 0, 0⟩ }
  else do
    let domTree ← buildDominatorTree cfg
    let domFrontier ← computeDominanceFrontier cfg domTree
    let defBlocks := memoryDefBlocks memoryOps
    let phiBlocks := computeIteratedDf ord domFrontier (defBlocks.length + cfg.blocks.length)
      defBlocks
    let (builder, phiVersions) := addMemoryPhis (ord.order phiBlocks)
    let builder := renameMemoryVersions memoryOps phiVersions domTree (domTree.nodes.length + 1)
      cfg.entryBlock builder
    let memoryPhis := fillMemoryPhiSources cfg builder
    return {
      function := ssa.function
      memoryPhis
      memoryDefs := builder.memoryDefs
      memoryUses := builder.memoryUses
      defUse := buildMemoryDefUseChains builder.memoryDefs builder.memoryUses memoryPhis
      stats := {
        defs := builder.memoryDefs.length
        uses := builder.memoryUses.length
        phis := memoryPhis.length
        maxVersion := builder.nextVersion - 1 } }

end TldrCode.Ssa
