import TldrCode.Types
import Mathlib.Data.Finset.Insert
import Mathlib.Data.List.Sort
import Mathlib.Logic.Function.Basic

/-!
# The dominator tree

`ssa/dominators.rs`: the Lengauer–Tarjan algorithm (`LengauerTarjan`) and the tree built from it
(`buildDominatorTree`). A HashMap is the function that looks a key up, `none` where the key is
absent; loops that run until a stack or a link runs out take a bound on their number of rounds,
which their specifications show is never reached.
-/

namespace TldrCode.Ssa

open Function (update)

/-! ## The tree -/

structure DominatorNode where
  blockId : Nat
  idom : Option Nat
  children : List Nat
  depth : Nat
  deriving DecidableEq, Repr

/-- `DominatorTree`. `nodes` holds the values of the HashMap, whose keys are their block ids. -/
structure DominatorTree where
  function : String
  nodes : List DominatorNode
  entry : Nat
  preorder : List Nat
  postorder : List Nat
  deriving DecidableEq, Repr

namespace DominatorTree

/-- `nodes.get(b)`. -/
def get? (tree : DominatorTree) (b : Nat) : Option DominatorNode :=
  tree.nodes.find? (·.blockId == b)

/-- The loop of `dominates`: walk up from `current`. -/
def dominatesFrom (tree : DominatorTree) (a : Nat) : Nat → Nat → Bool
  | 0, _ => false
  | fuel + 1, current =>
    match tree.get? current with
    | none => false
    | some node =>
      match node.idom with
      | none => false
      | some idom => if idom = a then true else tree.dominatesFrom a fuel idom

def dominates (tree : DominatorTree) (a b : Nat) : Bool :=
  if a = b then true else tree.dominatesFrom a tree.nodes.length b

def strictlyDominates (tree : DominatorTree) (a b : Nat) : Bool :=
  a != b && tree.dominates a b

end DominatorTree

/-! ## The algorithm -/

structure LengauerTarjan where
  entry : Nat
  successors : Nat → List Nat
  predecessors : Nat → List Nat
  dfnum : Nat → Option Nat
  vertex : List Nat
  parent : Nat → Option Nat
  semi : Nat → Option Nat
  ancestor : Nat → Option (Option Nat)
  label : Nat → Option Nat
  idom : Nat → Option Nat
  bucket : Nat → Option (List Nat)

namespace LengauerTarjan

def new (entry : Nat) (successors predecessors : Nat → List Nat) : LengauerTarjan where
  entry
  successors
  predecessors
  dfnum _ := none
  vertex := []
  parent _ := none
  semi _ := none
  ancestor _ := none
  label _ := none
  idom _ := none
  bucket _ := none

/-- Number `v`, discovered from `parent`. -/
def discover (lt : LengauerTarjan) (v : Nat) (parent : Option Nat) : LengauerTarjan :=
  let num := lt.vertex.length
  { lt with
    dfnum := update lt.dfnum v (some num)
    vertex := lt.vertex ++ [v]
    semi := update lt.semi v (some num)
    parent := match parent with
      | some p => update lt.parent v (some p)
      | none => lt.parent }

/-- The loop of `dfs`; the top of the stack is the head of the list. -/
def dfsLoop : Nat → List (Nat × Option Nat × Bool) → Finset Nat → LengauerTarjan →
    LengauerTarjan
  | 0, _, _, lt => lt
  | _ + 1, [], _, lt => lt
  | fuel + 1, (v, parent, processed) :: stack, visited, lt =>
    if processed then dfsLoop fuel stack visited lt
    else if v ∈ visited then dfsLoop fuel stack visited lt
    else
      let visited := insert v visited
      let lt := lt.discover v parent
      -- pushed last to first, so that the first successor is on top
      let next := (lt.successors v).filter (· ∉ visited)
      dfsLoop fuel (next.map (fun w => (w, some v, false)) ++ stack) visited lt

def dfs (lt : LengauerTarjan) (rounds start : Nat) : LengauerTarjan :=
  dfsLoop rounds [(start, none, false)] ∅ lt

/-- `self.ancestor.get(&v).copied().flatten()`. -/
def anc? (lt : LengauerTarjan) (v : Nat) : Option Nat := (lt.ancestor v).join

/-- First half of `compress`: the nodes on the way up from `current` whose ancestor has one. -/
def compressPath (lt : LengauerTarjan) : Nat → Nat → List Nat
  | 0, _ => []
  | fuel + 1, current =>
    match lt.anc? current with
    | none => []
    | some anc =>
      if (lt.anc? anc).isSome then current :: lt.compressPath fuel anc else []

/-- Second half of `compress`: one node of the path. -/
def compressNode (lt : LengauerTarjan) (node : Nat) : LengauerTarjan :=
  match lt.anc? node with
  | none => lt
  | some anc =>
    let labelAnc := (lt.label anc).getD anc
    let semiLabelAnc := (lt.semi labelAnc).getD usizeMax
    let labelNode := (lt.label node).getD node
    let semiLabelNode := (lt.semi labelNode).getD usizeMax
    let lt := if semiLabelAnc < semiLabelNode then
      { lt with label := update lt.label node (some labelAnc) } else lt
    match lt.anc? anc with
    | none => lt
    | some ancAnc => { lt with ancestor := update lt.ancestor node (some (some ancAnc)) }

def compress (lt : LengauerTarjan) (v : Nat) : LengauerTarjan :=
  (lt.compressPath lt.vertex.length v).reverse.foldl compressNode lt

def eval (lt : LengauerTarjan) (v : Nat) : Nat × LengauerTarjan :=
  match lt.anc? v with
  | none => (v, lt)
  | some _ =>
    let lt := lt.compress v
    ((lt.label v).getD v, lt)

def link (lt : LengauerTarjan) (v w : Nat) : LengauerTarjan :=
  { lt with ancestor := update lt.ancestor w (some (some v)) }

/-- The data structures `compute` sets up for a vertex. -/
def initVertex (lt : LengauerTarjan) (v : Nat) : LengauerTarjan :=
  { lt with
    ancestor := update lt.ancestor v (some none)
    label := update lt.label v (some v)
    bucket := update lt.bucket v (some ((lt.bucket v).getD [])) }

/-- Step 2 of `compute` for the predecessor `v` of `w`. -/
def semiStep (n w : Nat) (lt : LengauerTarjan) (v : Nat) : LengauerTarjan :=
  if (lt.dfnum v).isSome then
    let (u, lt) := lt.eval v
    let semiU := (lt.semi u).getD n
    let semiW := (lt.semi w).getD n
    if semiU < semiW then { lt with semi := update lt.semi w (some semiU) } else lt
  else lt

/-- Step 3 of `compute` for the member `v` of the bucket of `p`. -/
def bucketStep (n p : Nat) (lt : LengauerTarjan) (v : Nat) : LengauerTarjan :=
  let (u, lt) := lt.eval v
  let semiU := (lt.semi u).getD n
  let semiV := (lt.semi v).getD n
  { lt with idom := update lt.idom v (some (if semiU < semiV then u else p)) }

/-- `self.vertex[self.semi[w]]`. -/
def semiVertex (lt : LengauerTarjan) (w : Nat) : Nat :=
  lt.vertex.getD ((lt.semi w).getD ((lt.dfnum w).getD 0)) 0

/-- `self.bucket[vertex[semi[w]]].push(w)`. -/
def pushBucket (lt : LengauerTarjan) (w : Nat) : LengauerTarjan :=
  let s := lt.semiVertex w
  { lt with bucket := update lt.bucket s (some ((lt.bucket s).getD [] ++ [w])) }

/-- Step 3 of `compute`: the bucket of `p`. -/
def drainBucket (n p : Nat) (lt : LengauerTarjan) : LengauerTarjan :=
  match lt.bucket p with
  | none => lt
  | some toProcess =>
    toProcess.foldl (bucketStep n p) { lt with bucket := update lt.bucket p (some []) }

/-- One round of phase 2 of `compute`. -/
def processVertex (lt : LengauerTarjan) (i : Nat) : LengauerTarjan :=
  let n := lt.vertex.length
  let w := lt.vertex.getD i 0
  let lt := ((lt.predecessors w).foldl (semiStep n w) lt).pushBucket w
  match lt.parent w with
  | none => lt
  | some p => (lt.link p w).drainBucket n p

/-- One round of phase 3 of `compute`. -/
def finalizeVertex (lt : LengauerTarjan) (i : Nat) : LengauerTarjan :=
  let w := lt.vertex.getD i 0
  match lt.idom w with
  | none => lt
  | some idomW =>
    if idomW ≠ lt.semiVertex w then
      match lt.idom idomW with
      | none => lt
      | some idomIdomW => { lt with idom := update lt.idom w (some idomIdomW) }
    else lt

def compute (lt : LengauerTarjan) (rounds : Nat) : LengauerTarjan :=
  let lt := lt.dfs rounds lt.entry
  if lt.vertex.isEmpty then lt
  else
    let lt := lt.vertex.foldl initVertex lt
    let indices := List.range' 1 (lt.vertex.length - 1)
    let lt := indices.reverse.foldl processVertex lt
    indices.foldl finalizeVertex lt

end LengauerTarjan

/-! ## Building the tree -/

/-- Replace the node of block `b`. -/
def modifyNode (nodes : List DominatorNode) (b : Nat) (f : DominatorNode → DominatorNode) :
    List DominatorNode :=
  nodes.map fun node => if node.blockId = b then f node else node

/-- The loop of `compute_depths`. -/
def computeDepthsLoop : Nat → List (Nat × Nat) → List DominatorNode → List DominatorNode
  | 0, _, nodes => nodes
  | _ + 1, [], nodes => nodes
  | fuel + 1, (block, depth) :: queue, nodes =>
    match nodes.find? (·.blockId == block) with
    | none => computeDepthsLoop fuel queue nodes
    | some node =>
      computeDepthsLoop fuel (queue ++ node.children.map fun child => (child, depth + 1))
        (modifyNode nodes block fun node => { node with depth })

/-- `compute_depths`: every block is queued once. -/
def computeDepths (nodes : List DominatorNode) (entry : Nat) : List DominatorNode :=
  computeDepthsLoop (nodes.length + 1) [(entry, 0)] nodes

/-- The loop of `compute_traversals`. -/
def computeTraversalsLoop (nodes : List DominatorNode) :
    Nat → List (Nat × Bool) → List Nat → List Nat → List Nat × List Nat
  | 0, _, preorder, postorder => (preorder, postorder)
  | _ + 1, [], preorder, postorder => (preorder, postorder)
  | fuel + 1, (block, true) :: stack, preorder, postorder =>
    computeTraversalsLoop nodes fuel stack preorder (postorder ++ [block])
  | fuel + 1, (block, false) :: stack, preorder, postorder =>
    let children := ((nodes.find? (·.blockId == block)).map (·.children)).getD []
    computeTraversalsLoop nodes fuel
      (children.map (fun child => (child, false)) ++ (block, true) :: stack)
      (preorder ++ [block]) postorder

/-- `compute_traversals`: every block is pushed twice. -/
def computeTraversals (nodes : List DominatorNode) (entry : Nat) : List Nat × List Nat :=
  computeTraversalsLoop nodes (2 * nodes.length + 2) [(entry, false)] [] []

/-- The first pass of `build_dominator_tree` for one block. -/
def newNode (lt : LengauerTarjan) (entry block : Nat) : DominatorNode :=
  { blockId := block, idom := if block = entry then none else lt.idom block, children := [],
    depth := 0 }

/-- The second pass of `build_dominator_tree` for one node: enter it among the children of its
immediate dominator. -/
def addChild (nodes : List DominatorNode) (child : DominatorNode) : List DominatorNode :=
  match child.idom with
  | none => nodes
  | some idom =>
    modifyNode nodes idom fun node => { node with children := node.children ++ [child.blockId] }

/-- `build_dominator_tree`. The children are sorted, so the order in which the second pass meets
the nodes does not matter. -/
def buildDominatorTree (cfg : CfgInfo) : Except TldrError DominatorTree :=
  if cfg.blocks.isEmpty then
    .error (.invalidArgs "cfg" "Empty CFG has no blocks" none)
  else
    let entry := cfg.entryBlock
    let lt := (LengauerTarjan.new entry cfg.successors cfg.predecessors).compute
      (cfg.edges.length + 1)
    let nodes := lt.vertex.map (newNode lt entry)
    let nodes := nodes.foldl addChild nodes
    let nodes := nodes.map fun node =>
      { node with children := node.children.insertionSort (· ≤ ·) }
    let nodes := computeDepths nodes entry
    let (preorder, postorder) := computeTraversals nodes entry
    .ok { function := cfg.function, nodes, entry, preorder, postorder }

end TldrCode.Ssa
