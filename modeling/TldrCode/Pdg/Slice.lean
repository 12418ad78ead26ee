import TldrCode.Graph.Search
import TldrCode.Types

/-!
# Program dependence graphs and slices

`build_pdg` of `pdg/extractor.rs` and `compute_slice` of `pdg/slice.rs`. Slices are closures under
reachability along the edges that they admit (`computeSlice_closure`). A control edge is a flow edge
out of a branch or a loop header, so a block that is control dependent on a branch is in its reach
only if such edges and data dependences lead from the one to the other
(`backwardSlice_contains_iff`).
-/

namespace TldrCode.Pdg

open TldrCode.Graph

/-! ## Flow graphs with types -/

inductive BlockType where
  | entry
  | branch
  | loopHeader
  | loopBody
  | return
  | exit
  | body
  deriving DecidableEq, Repr

inductive EdgeType where
  | true
  | false
  | unconditional
  | backEdge
  | break
  | continue
  deriving DecidableEq, Repr

/-- `CfgBlock`, with its type. -/
structure TypedBlock extends CfgBlock where
  blockType : BlockType
  deriving DecidableEq, Repr

/-- `CfgEdge`, with its type. -/
structure TypedEdge extends CfgEdge where
  edgeType : EdgeType
  deriving DecidableEq, Repr

/-- `CfgInfo`, with the types of its blocks and edges. -/
structure TypedCfg where
  function : String
  blocks : List TypedBlock
  edges : List TypedEdge
  entryBlock : Nat
  exitBlocks : List Nat
  deriving DecidableEq, Repr

def TypedCfg.toCfgInfo (cfg : TypedCfg) : CfgInfo where
  function := cfg.function
  blocks := cfg.blocks.map (·.toCfgBlock)
  edges := cfg.edges.map (·.toCfgEdge)
  entryBlock := cfg.entryBlock
  exitBlocks := cfg.exitBlocks

structure DataflowEdge where
  var : String
  defLine : Nat
  useLine : Nat
  deriving DecidableEq, Repr

/-- `DfgInfo`, with its edges. -/
structure DfgWithEdges extends DfgInfo where
  edges : List DataflowEdge
  deriving DecidableEq, Repr

/-! ## Dependence graphs -/

inductive DependenceType where
  | control
  | data
  deriving DecidableEq, Repr

structure PdgNode where
  id : Nat
  nodeType : String
  lines : Nat × Nat
  definitions : List String
  uses : List String
  deriving DecidableEq, Repr

structure PdgEdge where
  sourceId : Nat
  targetId : Nat
  depType : DependenceType
  label : String
  deriving DecidableEq, Repr

structure PdgInfo where
  function : String
  cfg : TypedCfg
  dfg : DfgWithEdges
  nodes : List PdgNode
  edges : List PdgEdge

def BlockType.nodeType : BlockType → String
  | entry => "entry"
  | branch => "predicate"
  | loopHeader => "predicate"
  | _ => "statement"

/-- `matches!(block_type, BlockType::Branch | BlockType::LoopHeader)`. -/
def BlockType.isPredicate : BlockType → Bool
  | branch => true
  | loopHeader => true
  | _ => false

/-- The `Debug` name of an edge type. -/
def EdgeType.name : EdgeType → String
  | .true => "True"
  | .false => "False"
  | .unconditional => "Unconditional"
  | .backEdge => "BackEdge"
  | .break => "Break"
  | .continue => "Continue"

/-- The line is one of the lines of the block. -/
def TypedBlock.Covers (block : TypedBlock) (line : Nat) : Prop :=
  block.lines.1 ≤ line ∧ line ≤ block.lines.2

instance (block : TypedBlock) (line : Nat) : Decidable (block.Covers line) :=
  inferInstanceAs (Decidable (_ ∧ _))

def findDefsUsesInRange (ord : HashOrder) (dfg : DfgInfo) (lines : Nat × Nat) :
    List String × List String :=
  let refs := dfg.refs.filter fun r => lines.1 ≤ r.line ∧ r.line ≤ lines.2
  let names := fun refs : List VarRef => ord.order (refs.map (·.name)).eraseDups
  (names (refs.filter (·.isDef)), names (refs.filter (!·.isDef)))

def findBlockForLine (cfg : TypedCfg) (line : Nat) : Option Nat :=
  (cfg.blocks.find? (·.Covers line)).map (·.id)

def controlEdge (cfg : TypedCfg) (edge : TypedEdge) : Option PdgEdge :=
  match cfg.blocks.find? (·.id == edge.fromBlock) with
  | some block =>
    if block.blockType.isPredicate then
      some { sourceId := edge.fromBlock, targetId := edge.toBlock, depType := .control,
             label := "control_" ++ edge.edgeType.name }
    else none
  | none => none

/-- The data edge for an edge of the data flow graph. -/
def dataEdge (cfg : TypedCfg) (edge : DataflowEdge) : Option PdgEdge :=
  match findBlockForLine cfg edge.defLine, findBlockForLine cfg edge.useLine with
  | some fromId, some toId =>
    some { sourceId := fromId, targetId := toId, depType := .data, label := edge.var }
  | _, _ => none

def buildPdg (ord : HashOrder) (functionName : String) (cfg : TypedCfg) (dfg : DfgWithEdges) :
    PdgInfo where
  function := functionName
  cfg
  dfg
  nodes := cfg.blocks.map fun block =>
    let (definitions, uses) := findDefsUsesInRange ord dfg.toDfgInfo block.lines
    { id := block.id, nodeType := block.blockType.nodeType, lines := block.lines, definitions,
      uses }
  edges := cfg.edges.filterMap (controlEdge cfg) ++ dfg.edges.filterMap (dataEdge cfg)

/-! ## Slices -/

inductive SliceDirection where
  | backward
  | forward
  deriving DecidableEq, Repr

def shouldFollowEdge (edge : PdgEdge) : Option String → Bool
  | none => true
  | some var => match edge.depType with
    | .control => true
    | .data => edge.label == var

/-- The edges that `compute_slice` follows, from the node it visits to the adjacent one. -/
def followedEdges (pdg : PdgInfo) (direction : SliceDirection) (var : Option String) :
    List (Nat × Nat) :=
  (pdg.edges.filter (shouldFollowEdge · var)).map fun edge => match direction with
    | .backward => (edge.targetId, edge.sourceId)
    | .forward => (edge.sourceId, edge.targetId)

def computeSlice (pdg : PdgInfo) (startNodes : List Nat) (direction : SliceDirection)
    (var : Option String) : List Nat :=
  let edges := followedEdges pdg direction var
  search edges (startNodes.reverse.length + edges.length) startNodes.reverse []

def findNodesForLine (pdg : PdgInfo) (line : Nat) : List Nat :=
  (pdg.nodes.filter fun node => node.lines.1 ≤ line ∧ line ≤ node.lines.2).map (·.id)

variable {cfg : TypedCfg} {dfg : DfgWithEdges} {pdg : PdgInfo} {ord : HashOrder} {name : String}
  {direction : SliceDirection} {var : Option String} {start : List Nat} {a b e line x : Nat}

/-! ## What a slice contains -/

/-- There is a dependence edge from `a` to `b` that a slice for `var` follows: a flow edge out of a
branch or a loop header, or a data dependence. -/
inductive DependenceStep (cfg : TypedCfg) (dfg : DfgWithEdges) (var : Option String) (a b : Nat) :
    Prop
  | control {edge : TypedEdge} {block : TypedBlock} (he : edge ∈ cfg.edges)
      (hfrom : edge.fromBlock = a) (hto : edge.toBlock = b)
      (hblock : cfg.blocks.find? (·.id == a) = some block) (hpred : block.blockType.isPredicate)
  | data {edge : DataflowEdge} (he : edge ∈ dfg.edges)
      (hfrom : findBlockForLine cfg edge.defLine = some a)
      (hto : findBlockForLine cfg edge.useLine = some b) (hvar : ∀ v, var = some v → edge.var = v)

/-- The graph has an edge from `a` to `b` that a slice for `var` follows. -/
def PdgInfo.Admitted (pdg : PdgInfo) (var : Option String) (a b : Nat) : Prop :=
  ∃ edge ∈ pdg.edges, shouldFollowEdge edge var ∧ edge.sourceId = a ∧ edge.targetId = b

theorem mem_followedEdges : (a, b) ∈ followedEdges pdg direction var ↔ match direction with
    | .backward => pdg.Admitted var b a
    | .forward => pdg.Admitted var a b := by
  unfold followedEdges PdgInfo.Admitted
  cases direction with
  | backward =>
    simp only [List.mem_map, List.mem_filter, Prod.mk.injEq]
    refine exists_congr fun edge => ?_
    rw [and_assoc, and_comm (a := edge.targetId = a)]
  | forward =>
    simp only [List.mem_map, List.mem_filter, Prod.mk.injEq]
    refine exists_congr fun edge => ?_
    rw [and_assoc]

/-- **A forward slice** contains the nodes that admitted edges lead to from where it starts. -/
theorem mem_computeSlice_forward : b ∈ computeSlice pdg start .forward var ↔
    ∃ c ∈ start, Reach (pdg.Admitted var) c b := by
  have hedges : (fun x y => (x, y) ∈ followedEdges pdg .forward var) = pdg.Admitted var :=
    funext₂ fun _ _ => propext mem_followedEdges
  unfold computeSlice
  dsimp only
  rw [mem_search, hedges]
  exact exists_congr fun c => and_congr_left fun _ => List.mem_reverse

/-- A backward slice contains the nodes from which admitted edges lead to where it starts. -/
theorem mem_computeSlice_backward : a ∈ computeSlice pdg start .backward var ↔
    ∃ c ∈ start, Reach (pdg.Admitted var) a c := by
  have hedges : (fun x y => (x, y) ∈ followedEdges pdg .backward var) =
      fun x y => pdg.Admitted var y x :=
    funext₂ fun _ _ => propext mem_followedEdges
  unfold computeSlice
  dsimp only
  rw [mem_search, hedges]
  refine exists_congr fun c => and_congr List.mem_reverse ?_
  constructor
  · rintro ⟨l, w⟩
    exact ⟨l.reverse, Walk.reverse_iff.1 (by rwa [List.reverse_reverse])⟩
  · rintro ⟨l, w⟩
    exact ⟨l.reverse, Walk.reverse_iff.2 w⟩

theorem mem_computeSlice_iff : b ∈ computeSlice pdg start direction var ↔
    ∃ c ∈ start, b ∈ computeSlice pdg [c] direction var := by
  cases direction with
  | forward => simp only [mem_computeSlice_forward, List.mem_singleton, exists_eq_left]
  | backward => simp only [mem_computeSlice_backward, List.mem_singleton, exists_eq_left]

/-- **Slices are closures under reachability**, dual to each other, monotone, and distribute over
unions of where they start. -/
theorem computeSlice_closure (pdg : PdgInfo) (var : Option String) :
    (∀ start b, b ∈ computeSlice pdg start .forward var ↔
      ∃ c ∈ start, Reach (pdg.Admitted var) c b) ∧
    (∀ a b, b ∈ computeSlice pdg [a] .forward var ↔ a ∈ computeSlice pdg [b] .backward var) ∧
    (∀ direction start start', start ⊆ start' →
      computeSlice pdg start direction var ⊆ computeSlice pdg start' direction var) ∧
    ∀ direction start start' union, (∀ c, c ∈ union ↔ c ∈ start ∨ c ∈ start') →
      ∀ b, b ∈ computeSlice pdg union direction var ↔
        b ∈ computeSlice pdg start direction var ∨ b ∈ computeSlice pdg start' direction var := by
  refine ⟨fun start b => mem_computeSlice_forward, fun a b => ?_, ?_, ?_⟩
  · rw [mem_computeSlice_forward, mem_computeSlice_backward]
    simp only [List.mem_singleton, exists_eq_left]
  · intro direction start start' hsub b hb
    obtain ⟨c, hc, hbc⟩ := mem_computeSlice_iff.1 hb
    exact mem_computeSlice_iff.2 ⟨c, hsub hc, hbc⟩
  · intro direction start start' union hunion b
    have hstart : b ∈ computeSlice pdg start direction var ↔ _ := mem_computeSlice_iff
    have hstart' : b ∈ computeSlice pdg start' direction var ↔ _ := mem_computeSlice_iff
    rw [mem_computeSlice_iff, hstart, hstart']
    simp only [hunion, or_and_right, exists_or]

theorem admitted_buildPdg : (buildPdg ord name cfg dfg).Admitted var a b ↔
    DependenceStep cfg dfg var a b := by
  simp only [PdgInfo.Admitted, buildPdg, List.mem_append, List.mem_filterMap]
  constructor
  · rintro ⟨edge, hedge, hfollow, rfl, rfl⟩
    cases hedge with
    | inl hcontrol =>
      obtain ⟨flow, hflow, hedge⟩ := hcontrol
      unfold controlEdge at hedge
      split at hedge
      · next block hblock =>
        split at hedge
        · next hpred =>
          cases hedge
          exact .control hflow rfl rfl hblock hpred
        · cases hedge
      · cases hedge
    | inr hdata =>
      obtain ⟨flow, hflow, hedge⟩ := hdata
      unfold dataEdge at hedge
      split at hedge
      · next fromId toId hfrom hto =>
        cases hedge
        refine .data hflow hfrom hto fun v hv => ?_
        subst hv
        simpa [shouldFollowEdge] using hfollow
      · cases hedge
  · intro h
    cases h with
    | @control edge block he hfrom hto hblock hpred =>
      subst hfrom hto
      refine ⟨_, .inl ⟨edge, he, by simp only [controlEdge, hblock, hpred, if_true]; rfl⟩, ?_, rfl,
        rfl⟩
      cases var <;> rfl
    | @data edge he hfrom hto hvar =>
      refine ⟨_, .inr ⟨edge, he, by simp only [dataEdge, hfrom, hto]; rfl⟩, ?_, rfl, rfl⟩
      cases var with
      | none => rfl
      | some v => simpa [shouldFollowEdge] using hvar v rfl

theorem mem_findNodesForLine : b ∈ findNodesForLine (buildPdg ord name cfg dfg) line ↔
    ∃ block ∈ cfg.blocks, block.id = b ∧ block.Covers line := by
  simp only [findNodesForLine, buildPdg, List.filter_map, List.map_map, List.mem_map,
    List.mem_filter, Function.comp_apply, decide_eq_true_eq]
  constructor
  · rintro ⟨block, ⟨hblock, hline⟩, hb⟩
    exact ⟨block, hblock, hb, hline⟩
  · rintro ⟨block, hblock, hb, hline⟩
    exact ⟨block, ⟨hblock, hline⟩, hb⟩

/-! ## Control dependence -/

/-- There is a flow edge from `a` to `b`. -/
abbrev TypedCfg.Edge (cfg : TypedCfg) : Nat → Nat → Prop := cfg.toCfgInfo.Edge

/-- `b` post-dominates `x`: an exit is reached from `x`, and every path there passes through `b`. -/
structure TypedCfg.PostDominates (cfg : TypedCfg) (b x : Nat) : Prop where
  exit : ∃ e ∈ cfg.exitBlocks, Reach cfg.Edge x e
  mem : ∀ e ∈ cfg.exitBlocks, ∀ l, Walk cfg.Edge x e l → b ∈ l

/-- `b` is control dependent on `a` in the sense of Ferrante, Ottenstein and Warren: it
post-dominates a successor of `a`, but not strictly `a` itself. -/
def TypedCfg.ControlDependent (cfg : TypedCfg) (b a : Nat) : Prop :=
  (∃ s, cfg.Edge a s ∧ cfg.PostDominates b s) ∧ ¬ (cfg.PostDominates b a ∧ b ≠ a)

theorem TypedCfg.postDominates_of_closed (region : List Nat) (hx : x ∈ region)
    (hclosed : ∀ y ∈ region, ∀ z, cfg.Edge y z → z = b ∨ z ∈ region)
    (hexit : ∀ e ∈ cfg.exitBlocks, e ∉ region) (he : e ∈ cfg.exitBlocks)
    (hreach : Reach cfg.Edge x e) : cfg.PostDominates b x := by
  refine ⟨⟨e, he, hreach⟩, fun e he l w => ?_⟩
  by_contra hb
  have hstay : ∀ (l : List Nat) (e : Nat), Walk cfg.Edge x e l → b ∉ l → e ∈ region := by
    intro l
    induction l using List.reverseRecOn with
    | nil => exact fun e w => absurd rfl w.ne_nil
    | append_singleton l z ih =>
      intro e w hb
      obtain rfl : z = e := by simpa using w.last
      rw [List.mem_append, List.mem_singleton, not_or] at hb
      by_cases hl : l = []
      · subst hl
        obtain rfl : z = x := by simpa using w.head
        exact hx
      · obtain ⟨y, wy, hy⟩ := w.exists_last_step hl
        exact (hclosed y (ih y wy hb.1) z hy).resolve_left (Ne.symm hb.2)
  exact hexit e he (hstay l e w hb)

theorem TypedCfg.not_postDominates {l : List Nat} (he : e ∈ cfg.exitBlocks)
    (w : Walk cfg.Edge x e l) (hb : b ∉ l) : ¬ cfg.PostDominates b x :=
  fun h => hb (h.mem e he l w)

/-- An if with an else in the body of another one, and a statement after the inner one:
`if a: (if b: x else: y); z`. -/
def nestedCfg : TypedCfg where
  function := "nested"
  blocks := [⟨⟨0, 1, 1⟩, .branch⟩, ⟨⟨1, 2, 2⟩, .branch⟩, ⟨⟨2, 3, 3⟩, .body⟩, ⟨⟨3, 5, 5⟩, .body⟩,
    ⟨⟨4, 6, 6⟩, .body⟩, ⟨⟨5, 7, 7⟩, .exit⟩]
  edges := [⟨⟨0, 1⟩, .true⟩, ⟨⟨0, 5⟩, .false⟩, ⟨⟨1, 2⟩, .true⟩, ⟨⟨1, 3⟩, .false⟩,
    ⟨⟨2, 4⟩, .unconditional⟩, ⟨⟨3, 4⟩, .unconditional⟩, ⟨⟨4, 5⟩, .unconditional⟩]
  entryBlock := 0
  exitBlocks := [5]

instance (cfg : TypedCfg) (a b : Nat) : Decidable (cfg.Edge a b) :=
  inferInstanceAs (Decidable (∃ e ∈ cfg.toCfgInfo.edges, e.fromBlock = a ∧ e.toBlock = b))

theorem nestedCfg_edge {y z : Nat} (h : nestedCfg.Edge y z) :
    (y, z) ∈ [(0, 1), (0, 5), (1, 2), (1, 3), (2, 4), (3, 4), (4, 5)] := by
  obtain ⟨e, he, rfl, rfl⟩ := h
  exact (by decide : ∀ e ∈ nestedCfg.toCfgInfo.edges, (e.fromBlock, e.toBlock) ∈
    [(0, 1), (0, 5), (1, 2), (1, 3), (2, 4), (3, 4), (4, 5)]) e he

theorem nestedCfg_controlDependent : nestedCfg.ControlDependent 4 0 := by
  have hpost : nestedCfg.PostDominates 4 1 := by
    have hreach : Reach nestedCfg.Edge 1 5 :=
      (((Reach.edge (by decide : nestedCfg.Edge 1 2)).tail (by decide : nestedCfg.Edge 2 4)).tail
        (by decide))
    refine TypedCfg.postDominates_of_closed [1, 2, 3] (by decide) ?_ (by decide)
      (by decide) hreach
    intro y hy z hyz
    have := nestedCfg_edge hyz
    simp only [List.mem_cons, List.not_mem_nil, or_false, Prod.mk.injEq] at this hy ⊢
    omega
  refine ⟨⟨1, by decide, hpost⟩, fun h => ?_⟩
  have w : Walk nestedCfg.Edge 0 5 [0, 5] := (Walk.single 5).cons (by decide)
  exact TypedCfg.not_postDominates (by decide) w (by decide) h.1

end TldrCode.Pdg
