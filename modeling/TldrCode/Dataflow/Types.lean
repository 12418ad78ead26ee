import TldrCode.Graph.DepthFirst
import TldrCode.Types

/-!
# Helpers of the dataflow analyses

`dataflow/types.rs`: the checks and block orders that the analyses share.
-/

namespace TldrCode.Dataflow

open TldrCode.Graph

def maxBlocks : Nat := 10000

/-- `DataflowError`, the variants that the analyses raise. -/
inductive DataflowError where
  | noCfg
  | tooManyBlocks (count : Nat)
  | iterationLimit (iterations : Nat)
  deriving DecidableEq, Repr

def validateCfg (cfg : CfgInfo) : Except DataflowError Unit :=
  if cfg.blocks.isEmpty then .error .noCfg
  else if maxBlocks < cfg.blocks.length then .error (.tooManyBlocks cfg.blocks.length)
  else .ok ()

def reversePostorder (cfg : CfgInfo) : List Nat :=
  if cfg.blocks.isEmpty then []
  else
    let edges := cfg.edges.map fun e => (e.fromBlock, e.toBlock)
    (stackDfs edges (2 * edges.length + 2) [(cfg.entryBlock, false)] [] []).reverse

variable {cfg : CfgInfo} {b : Nat}

theorem mem_reversePostorder (h : cfg.blocks ≠ []) :
    b ∈ reversePostorder cfg ↔ cfg.Reachable b := by
  have hedges : (fun x y => (x, y) ∈ cfg.edges.map fun e => (e.fromBlock, e.toBlock)) =
      cfg.Edge := by
    funext x y
    simp [CfgInfo.Edge, Prod.ext_iff]
  unfold reversePostorder
  rw [if_neg (by simpa using h)]
  dsimp only
  rw [List.mem_reverse, mem_stackDfs, hedges]

end TldrCode.Dataflow
