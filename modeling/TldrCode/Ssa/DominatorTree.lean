import TldrCode.Ssa.DominatorsCompute
import Mathlib.Data.Finset.Card

/-!
# The dominator tree is the dominance relation

`buildDominatorTree` enters the vertices of `compute` as nodes and gives each the blocks it
immediately dominates as children; `IsDominatorTree` says what the result holds, and
`buildDominatorTree_spec` that it does. On such a tree `dominates`, which walks up the immediate
dominators, decides dominance (`dominates_iff`).
-/

namespace TldrCode.Ssa

open TldrCode.Graph

variable {cfg : CfgInfo} {tree : DominatorTree} {a b c d : Nat}

namespace DominatorNode

/-- A node without its depth, which is filled in last. -/
def core (node : DominatorNode) : Nat × Option Nat × List Nat :=
  (node.blockId, node.idom, node.children)

end DominatorNode

theorem modifyNode_core (nodes : List DominatorNode) (b : Nat)
    {f : DominatorNode → DominatorNode} (hf : ∀ node, (f node).core = node.core) :
    (modifyNode nodes b f).map (·.core) = nodes.map (·.core) := by
  rw [modifyNode, List.map_map]
  refine List.map_congr_left fun node _ => ?_
  simp only [Function.comp_apply]
  split_ifs
  · exact hf node
  · rfl

theorem computeDepthsLoop_core : ∀ fuel queue (nodes : List DominatorNode),
    (computeDepthsLoop fuel queue nodes).map (·.core) = nodes.map (·.core) := by
  intro fuel
  induction fuel with
  | zero => intro queue nodes; simp [computeDepthsLoop]
  | succ fuel ih =>
    intro queue nodes
    match queue with
    | [] => simp [computeDepthsLoop]
    | (block, depth) :: queue =>
      simp only [computeDepthsLoop]
      split
      · exact ih queue nodes
      · exact (ih _ _).trans (modifyNode_core nodes block fun _ => rfl)

/-- The second pass gives every node the blocks of `l` it immediately dominates. -/
theorem addChild_foldl : ∀ (l nodes : List DominatorNode),
    l.foldl addChild nodes = nodes.map fun node => { node with
      children := node.children ++ (l.filter (·.idom = some node.blockId)).map (·.blockId) } := by
  intro l
  induction l with
  | nil => intro nodes; simp
  | cons x l ih =>
    intro nodes
    rw [List.foldl_cons, ih]
    cases hx : x.idom with
    | none => simp [addChild, hx]
    | some d =>
      simp only [addChild, hx, modifyNode, List.map_map]
      refine List.map_congr_left fun node _ => ?_
      by_cases hd : d = node.blockId
      · simp [hd, hx]
      · have hd' : node.blockId ≠ d := Ne.symm hd
        simp [hd, hd', hx]

/-! ## What the tree holds -/

/-- The nodes are the reachable blocks, each with its immediate dominator and the blocks it
immediately dominates. -/
structure IsDominatorTree (cfg : CfgInfo) (tree : DominatorTree) : Prop where
  entry : tree.entry = cfg.entryBlock
  nodup : (tree.nodes.map (·.blockId)).Nodup
  mem : ∀ b, b ∈ tree.nodes.map (·.blockId) ↔ cfg.Reachable b
  idom_entry : ∀ node ∈ tree.nodes, node.blockId = cfg.entryBlock → node.idom = none
  idom : ∀ node ∈ tree.nodes, node.blockId ≠ cfg.entryBlock →
    ∃ d, node.idom = some d ∧ IDom cfg.Edge cfg.entryBlock d node.blockId
  children : ∀ node ∈ tree.nodes, ∀ c, c ∈ node.children ↔
    cfg.Reachable c ∧ IDom cfg.Edge cfg.entryBlock node.blockId c
  children_nodup : ∀ node ∈ tree.nodes, node.children.Nodup

/-- The immediate dominator as `buildDominatorTree` enters it. -/
def idomOf (cfg : CfgInfo) (b : Nat) : Option Nat :=
  (newNode ((LengauerTarjan.new cfg.entryBlock cfg.successors cfg.predecessors).compute
    (cfg.edges.length + 1)) cfg.entryBlock b).idom

theorem idomOf_eq_some (hb : cfg.Reachable b) :
    idomOf cfg b = some d ↔ IDom cfg.Edge cfg.entryBlock d b := by
  obtain ⟨-, -, hidom⟩ := LengauerTarjan.compute_spec cfg
  by_cases hbe : b = cfg.entryBlock
  · subst hbe
    simp only [idomOf, newNode, ↓reduceIte, reduceCtorEq, false_iff]
    exact fun h => not_sdom_root h.sdom
  · obtain ⟨d', hd', h'⟩ := hidom b hb hbe
    rw [idomOf, newNode, if_neg hbe, hd', Option.some_inj]
    exact ⟨fun he => he ▸ h', fun h => h'.unique h hb⟩

theorem buildDominatorTree_core (h : cfg.blocks ≠ []) :
    ∃ (tree : DominatorTree) (vertex : List Nat), buildDominatorTree cfg = .ok tree ∧
      tree.entry = cfg.entryBlock ∧ vertex.Nodup ∧ (∀ v, v ∈ vertex ↔ cfg.Reachable v) ∧
      tree.nodes.map (·.core) = vertex.map fun b => (b, idomOf cfg b,
        (vertex.filter (idomOf cfg · = some b)).insertionSort (· ≤ ·)) := by
  obtain ⟨hnodup, hmem, -⟩ := LengauerTarjan.compute_spec cfg
  have hne : cfg.blocks.isEmpty = false := by rwa [List.isEmpty_eq_false_iff]
  simp only [buildDominatorTree, hne, Bool.false_eq_true, ↓reduceIte]
  refine ⟨_, _, rfl, rfl, hnodup, hmem, ?_⟩
  simp only [computeDepths, computeDepthsLoop_core, addChild_foldl, List.map_map, List.filter_map]
  refine List.map_congr_left fun b _ => ?_
  simp only [Function.comp_apply, DominatorNode.core, newNode, List.nil_append, Prod.mk.injEq,
    true_and]
  refine ⟨rfl, ?_⟩
  congr 1
  exact List.map_id _

theorem buildDominatorTree_spec (h : cfg.blocks ≠ []) :
    ∃ tree, buildDominatorTree cfg = .ok tree ∧ IsDominatorTree cfg tree := by
  obtain ⟨tree, vertex, hok, hentry, hnodup, hmem, hcore⟩ := buildDominatorTree_core h
  have hids : tree.nodes.map (·.blockId) = vertex := by
    have := congrArg (List.map Prod.fst) hcore
    rw [List.map_map, List.map_map] at this
    exact this.trans (List.map_id _)
  have hnode : ∀ node ∈ tree.nodes, node.blockId ∈ vertex ∧
      node.idom = idomOf cfg node.blockId ∧
      node.children = (vertex.filter (idomOf cfg · = some node.blockId)).insertionSort (· ≤ ·) := by
    intro node hn
    have := List.mem_map_of_mem (f := (·.core)) hn
    rw [hcore] at this
    obtain ⟨b, hb, he⟩ := List.mem_map.1 this
    simp only [DominatorNode.core, Prod.mk.injEq] at he
    obtain ⟨rfl, h₂, h₃⟩ := he
    exact ⟨hb, h₂.symm, h₃.symm⟩
  refine ⟨tree, hok, hentry, hids ▸ hnodup, fun b => hids ▸ hmem b, fun node hn he => ?_,
    fun node hn hne => ?_, fun node hn c => ?_, fun node hn => ?_⟩
  · rw [(hnode node hn).2.1, idomOf, newNode, if_pos he]
  · have hr := (hmem _).1 (hnode node hn).1
    obtain ⟨d, hd⟩ := exists_idom hr hne
    exact ⟨d, (hnode node hn).2.1.trans ((idomOf_eq_some hr).2 hd), hd⟩
  · rw [(hnode node hn).2.2, List.mem_insertionSort, List.mem_filter, hmem, decide_eq_true_iff]
    exact and_congr_right fun hc => idomOf_eq_some hc
  · rw [(hnode node hn).2.2]
    exact (List.perm_insertionSort _ _).nodup_iff.2 (hnodup.filter _)

theorem buildDominatorTree_ok_iff : (∃ tree, buildDominatorTree cfg = .ok tree) ↔
    cfg.blocks ≠ [] := by
  refine ⟨?_, fun h => (buildDominatorTree_spec h).imp fun _ => And.left⟩
  rintro ⟨tree, h⟩ he
  simp [buildDominatorTree, he] at h

theorem isDominatorTree_of_ok (h : buildDominatorTree cfg = .ok tree) :
    IsDominatorTree cfg tree := by
  obtain ⟨tree', h', ht⟩ := buildDominatorTree_spec (buildDominatorTree_ok_iff.1 ⟨tree, h⟩)
  rw [h, Except.ok.injEq] at h'
  exact h' ▸ ht

/-! ## Looking up the tree -/

theorem DominatorTree.mem_of_get? {node : DominatorNode} (hn : tree.get? b = some node) :
    node ∈ tree.nodes ∧ node.blockId = b :=
  ⟨List.mem_of_find?_eq_some hn, by simpa using List.find?_some hn⟩

namespace IsDominatorTree

variable (h : IsDominatorTree cfg tree)
include h

theorem get?_isSome : (tree.get? b).isSome ↔ cfg.Reachable b := by
  rw [← h.mem, DominatorTree.get?, List.find?_isSome]
  simp

theorem exists_node (hb : cfg.Reachable b) : ∃ node, tree.get? b = some node ∧
    (node.idom = none ∧ b = cfg.entryBlock ∨
      ∃ d, node.idom = some d ∧ IDom cfg.Edge cfg.entryBlock d b) := by
  obtain ⟨node, hn⟩ := Option.isSome_iff_exists.1 (h.get?_isSome.2 hb)
  obtain ⟨hm, rfl⟩ := DominatorTree.mem_of_get? hn
  refine ⟨node, hn, ?_⟩
  by_cases he : node.blockId = cfg.entryBlock
  · exact .inl ⟨h.idom_entry node hm he, he⟩
  · exact .inr (h.idom node hm he)

theorem get?_bind_idom (hb : cfg.Reachable b) :
    (tree.get? b).bind (·.idom) = some d ↔ IDom cfg.Edge cfg.entryBlock d b := by
  obtain ⟨node, hn, ⟨hi, rfl⟩ | ⟨d', hi, hd'⟩⟩ := h.exists_node hb
  · simp only [hn, Option.bind_some, hi, reduceCtorEq, false_iff]
    exact fun h => not_sdom_root h.sdom
  · rw [hn, Option.bind_some, hi, Option.some_inj]
    exact ⟨fun he => he ▸ hd', fun h' => hd'.unique h' hb⟩

open Classical in
/-- The number of strict dominators of `b`. -/
noncomputable def sdomCount (_ : IsDominatorTree cfg tree) (b : Nat) : Nat :=
  ((tree.nodes.map (·.blockId)).toFinset.filter fun x => cfg.StrictlyDominates x b).card

theorem sdomCount_lt_length (hb : cfg.Reachable b) : h.sdomCount b < tree.nodes.length := by
  classical
  have hmem : b ∈ (tree.nodes.map (·.blockId)).toFinset := by
    rw [List.mem_toFinset, h.mem]
    exact hb
  have hcard := Finset.card_lt_card (Finset.filter_ssubset
    (p := fun x => cfg.StrictlyDominates x b).2 ⟨b, hmem, SDom.irrefl⟩)
  exact hcard.trans_le ((List.toFinset_card_le _).trans (List.length_map _).le)

theorem sdomCount_lt (hb : cfg.Reachable b) (hd : cfg.StrictlyDominates d b) :
    h.sdomCount d < h.sdomCount b := by
  classical
  refine Finset.card_lt_card ((Finset.ssubset_iff_of_subset fun x hx => ?_).2 ⟨d, ?_, ?_⟩)
  · rw [Finset.mem_filter] at hx ⊢
    exact ⟨hx.1, hx.2.trans_dom hd.dom hb⟩
  · rw [Finset.mem_filter, List.mem_toFinset, h.mem]
    exact ⟨hd.dom.reach hb, hd⟩
  · rw [Finset.mem_filter]
    exact fun hx => SDom.irrefl hx.2

theorem dominatesFrom_iff : ∀ fuel b, cfg.Reachable b → h.sdomCount b < fuel →
    (tree.dominatesFrom a fuel b = true ↔ cfg.StrictlyDominates a b) := by
  intro fuel
  induction fuel with
  | zero => intro b _ hlt; omega
  | succ fuel ih =>
    intro b hb hlt
    obtain ⟨node, hn, ⟨hi, rfl⟩ | ⟨d, hi, hd⟩⟩ := h.exists_node hb
    · simp only [DominatorTree.dominatesFrom, hn, hi, Bool.false_eq_true, false_iff]
      exact not_sdom_root
    · simp only [DominatorTree.dominatesFrom, hn, hi]
      rw [CfgInfo.StrictlyDominates, hd.sdom_iff hb]
      split_ifs with hda
      · simp [hda, Dom.refl]
      · rw [ih d (hd.reach hb) ((h.sdomCount_lt hb hd.sdom).trans_le (Nat.lt_succ_iff.1 hlt))]
        exact ⟨And.left, fun hdom => ⟨hdom, Ne.symm hda⟩⟩

theorem dominates_iff (hb : cfg.Reachable b) :
    tree.dominates a b = true ↔ cfg.Dominates a b := by
  rw [DominatorTree.dominates]
  split_ifs with hab
  · simp [hab, Dom.refl]
  · rw [h.dominatesFrom_iff _ b hb (h.sdomCount_lt_length hb)]
    exact ⟨And.left, fun hdom => ⟨hdom, hab⟩⟩

theorem strictlyDominates_iff (hb : cfg.Reachable b) :
    tree.strictlyDominates a b = true ↔ cfg.StrictlyDominates a b := by
  rw [DominatorTree.strictlyDominates, Bool.and_eq_true, bne_iff_ne, h.dominates_iff hb]
  exact and_comm

end IsDominatorTree

/-- **The tree is the dominance relation.** Its nodes are the reachable blocks, `dominates` decides
dominance, and `idom` is the one closest strict dominator. -/
theorem buildDominatorTree_correct (hentry : cfg.entryBlock ∈ cfg.blockIds) :
    ∃ tree, buildDominatorTree cfg = .ok tree ∧
      (tree.nodes.map (·.blockId)).Nodup ∧
      (∀ b, b ∈ tree.nodes.map (·.blockId) ↔ cfg.Reachable b) ∧
      (∀ a b, cfg.Reachable a → cfg.Reachable b →
        (tree.dominates a b = true ↔ ∀ path, Walk cfg.Edge cfg.entryBlock b path → a ∈ path)) ∧
      ∀ b, cfg.Reachable b → ∃ node, tree.get? b = some node ∧
        (b = cfg.entryBlock → node.idom = none) ∧
        (b ≠ cfg.entryBlock → ∃ d, node.idom = some d ∧
          IDom cfg.Edge cfg.entryBlock d b ∧
          ∀ d', IDom cfg.Edge cfg.entryBlock d' b → d' = d) := by
  have hne : cfg.blocks ≠ [] := by
    rintro he
    simp [CfgInfo.blockIds, he] at hentry
  obtain ⟨tree, hok, h⟩ := buildDominatorTree_spec hne
  refine ⟨tree, hok, h.nodup, h.mem, fun a b _ hb => h.dominates_iff hb, fun b hb => ?_⟩
  obtain ⟨node, hn, hi⟩ := h.exists_node hb
  refine ⟨node, hn, fun hbe => ?_, fun hbe => ?_⟩
  · obtain ⟨hm, rfl⟩ := DominatorTree.mem_of_get? hn
    exact h.idom_entry node hm hbe
  · obtain ⟨-, hbe'⟩ | ⟨d, hd, hidom⟩ := hi
    · exact absurd hbe' hbe
    · exact ⟨d, hd, hidom, fun d' hd' => hd'.unique hidom hb⟩

/-- A branch, a loop around it and an unreachable block. -/
def loopCfg : CfgInfo where
  function := "f"
  blocks := [⟨0, 1, 1⟩, ⟨1, 2, 2⟩, ⟨2, 3, 3⟩, ⟨3, 4, 4⟩, ⟨4, 5, 5⟩]
  edges := [⟨0, 1⟩, ⟨0, 2⟩, ⟨1, 3⟩, ⟨2, 3⟩, ⟨3, 0⟩, ⟨4, 3⟩]
  entryBlock := 0
  exitBlocks := [3]

theorem buildDominatorTree_correct_loop : ∃ tree, buildDominatorTree loopCfg = .ok tree ∧
    (∀ b, b ∈ tree.nodes.map (·.blockId) ↔ loopCfg.Reachable b) ∧
    ∀ a b, loopCfg.Reachable a → loopCfg.Reachable b →
      (tree.dominates a b = true ↔ ∀ path, Walk loopCfg.Edge 0 b path → a ∈ path) := by
  obtain ⟨tree, hok, -, hmem, hdom, -⟩ := @buildDominatorTree_correct loopCfg (by decide)
  exact ⟨tree, hok, hmem, hdom⟩

example : (buildDominatorTree loopCfg).toOption.map
    (fun tree => tree.nodes.map fun node => (node.blockId, node.idom)) =
    some [(0, none), (1, some 0), (3, some 0), (2, some 0)] := by decide +kernel

end TldrCode.Ssa
