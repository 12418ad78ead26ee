import TldrCode.Analysis.ChangeImpact
import TldrCode.Grouping
import TldrCode.Output.ImpactCompact

/-!
# Caller trees

`analysis/impact.rs`: `build_caller_tree` marks a caller as a cycle if it is the function itself,
but not if it is further up in the tree: each call has a visited set of its own. A tree is right if
and only if no chain of callers within the depth comes back to a function other than by a call of
itself (`treeExact_iff`).
-/

namespace TldrCode.Analysis

open Output (CallerNode CallerTree)
open Tsv (Text)

abbrev FunctionKey := FunctionRef Text

/-- `ProjectCallGraph`: a set of edges, in the order in which they are walked. -/
structure ProjectCallGraph where
  edges : List (CallEdge Text)
  nodup : edges.Nodup

def buildReverseGraph (graph : ProjectCallGraph) : AList fun _ : FunctionKey => List FunctionKey :=
  graph.edges.foldl (fun reverse edge => reverse.insert edge.callee
    ((reverse.lookup edge.callee).getD [] ++ [edge.caller])) ∅

/-- A `CallerTree` without its callers. -/
def keyNode (key : FunctionKey) (callerCount : Nat) (truncated : Bool) (note : Option String) :
    CallerNode where
  function := key.name.toList
  file := key.file
  callerCount
  truncated
  note := note.map String.toList
  confidence := none
  receiverType := none

/-- The leaf of a caller that has been visited. -/
def cycleLeaf (key : FunctionKey) : CallerTree :=
  .node (keyNode key 0 true (some "Cycle detected")) []

/-- The leaf of a function that nothing calls. -/
def entryPoint (key : FunctionKey) : CallerTree :=
  .node (keyNode key 0 false (some "Entry point - no callers found")) []

def buildCallerTree (reverse : AList fun _ : FunctionKey => List FunctionKey) :
    Nat → FunctionKey → CallerTree
  | 0, key =>
    let callerCount := ((reverse.lookup key).map List.length).getD 0
    if callerCount = 0 then entryPoint key
    else .node (keyNode key callerCount true
      (some s!"Truncated at depth limit ({callerCount} callers)")) []
  | maxDepth + 1, key =>
    let callerCount := ((reverse.lookup key).map List.length).getD 0
    if callerCount = 0 then entryPoint key
    else
      let callers := (reverse.lookup key).getD []
      let (_, childTrees) := callers.foldl (fun (visited, childTrees) caller =>
        if caller ∈ visited then (visited, childTrees ++ [cycleLeaf caller])
        else (caller :: visited, childTrees ++ [buildCallerTree reverse maxDepth caller]))
        ([key], ([] : List CallerTree))
      .node (keyNode key callerCount false none) childTrees

/-! ## What a tree should be -/

def label : CallerTree → CallerNode
  | .node value _ => value

def childTrees : CallerTree → List CallerTree
  | .node _ children => children

def keyOf (tree : CallerTree) : FunctionKey := ⟨(label tree).file, .ofList (label tree).function⟩

/-- A part of a tree, below the functions on the path from the root. -/
inductive Part (tree : CallerTree) : List FunctionKey → CallerTree → Prop
  | root : Part tree [] tree
  | child {path : List FunctionKey} {parent child : CallerTree} (h : Part tree path parent)
    (hchild : child ∈ childTrees parent) : Part tree (path ++ [keyOf parent]) child

/-- Above the limit a node has the direct callers of its function as its children, each once, and a
function comes again below itself only as a leaf that is marked as a cycle. -/
structure TreeExact (graph : ProjectCallGraph) (maxDepth : Nat) (tree : CallerTree) : Prop where
  complete : ∀ path part, Part tree path part → keyOf part ∉ path → path.length < maxDepth →
    ((childTrees part).map keyOf).Nodup ∧
      ∀ key, key ∈ (childTrees part).map keyOf ↔ Calls graph.edges key (keyOf part)
  cycles : ∀ path part, Part tree path part → keyOf part ∈ path → childTrees part = [] ∧
    (label part).truncated = true ∧ (label part).note = some "Cycle detected".toList

/-- A chain of callers that ends in a function, without calls of a function by itself. -/
inductive CallerChain (graph : ProjectCallGraph) (target : FunctionKey) :
    List FunctionKey → FunctionKey → Prop
  | target : CallerChain graph target [] target
  | step {path : List FunctionKey} {key caller : FunctionKey}
    (h : CallerChain graph target path key) (hcall : Calls graph.edges caller key)
    (hne : caller ≠ key) : CallerChain graph target (path ++ [key]) caller

/-! ## The reverse graph -/

variable {graph : ProjectCallGraph} {key caller target : FunctionKey} {maxDepth : Nat}
  {path : List FunctionKey} {tree part : CallerTree}

/-- The callers of a function, in the order of the edges. -/
def callersOf (graph : ProjectCallGraph) (key : FunctionKey) : List FunctionKey :=
  (graph.edges.filter (·.callee = key)).map (·.caller)

theorem mem_callersOf : caller ∈ callersOf graph key ↔ Calls graph.edges caller key := by
  simp only [callersOf, Calls, List.mem_map, List.mem_filter, decide_eq_true_eq]
  constructor
  · rintro ⟨edge, ⟨hedge, hcallee⟩, hcaller⟩
    exact ⟨edge, hedge, hcaller, hcallee⟩
  · rintro ⟨edge, hedge, hcaller, hcallee⟩
    exact ⟨edge, ⟨hedge, hcallee⟩, hcaller⟩

section

variable (graph : ProjectCallGraph) (key : FunctionKey)

theorem callersOf_nodup : (callersOf graph key).Nodup := by
  refine (graph.nodup.filter _).map_on ?_
  rintro ⟨srcFile, srcFunc, dstFile, dstFunc⟩ h ⟨srcFile', srcFunc', dstFile', dstFunc'⟩ h' heq
  have hcallee := of_decide_eq_true (List.mem_filter.1 h).2
  have hcallee' := of_decide_eq_true (List.mem_filter.1 h').2
  obtain ⟨rfl, rfl⟩ := FunctionRef.mk.inj heq
  obtain ⟨rfl, rfl⟩ := FunctionRef.mk.inj (hcallee.trans hcallee'.symm)
  rfl

theorem lookup_buildReverseGraph :
    (buildReverseGraph graph).lookup key = nonempty (callersOf graph key) :=
  lookup_foldl_push CallEdge.callee CallEdge.caller graph.edges key

theorem getD_lookup_buildReverseGraph :
    ((buildReverseGraph graph).lookup key).getD [] = callersOf graph key := by
  rw [lookup_buildReverseGraph, getD_nonempty]

theorem callerCount_eq :
    (((buildReverseGraph graph).lookup key).map List.length).getD 0 =
      (callersOf graph key).length := by
  rw [lookup_buildReverseGraph]
  cases callersOf graph key <;> rfl

end

/-! ## The tree of a function -/

def treeOf (graph : ProjectCallGraph) (maxDepth : Nat) (key : FunctionKey) : CallerTree :=
  buildCallerTree (buildReverseGraph graph) maxDepth key

theorem keyOf_node (callerCount : Nat) (truncated : Bool) (note : Option String)
    (children : List CallerTree) :
    keyOf (.node (keyNode key callerCount truncated note) children) = key := by
  unfold keyOf label keyNode
  rw [String.ofList_toList]

theorem keyOf_cycleLeaf (key : FunctionKey) : keyOf (cycleLeaf key) = key := keyOf_node ..

theorem keyOf_treeOf (graph : ProjectCallGraph) (maxDepth : Nat) (key : FunctionKey) :
    keyOf (treeOf graph maxDepth key) = key := by
  unfold treeOf
  cases maxDepth with
  | zero | succ maxDepth =>
    unfold buildCallerTree
    dsimp only
    split_ifs <;> exact keyOf_node ..

theorem note_treeOf (graph : ProjectCallGraph) (maxDepth : Nat) (key : FunctionKey)
    (h : (label (treeOf graph maxDepth key)).truncated = true) :
    (label (treeOf graph maxDepth key)).note ≠ some "Cycle detected".toList := by
  cases maxDepth with
  | zero =>
    unfold treeOf buildCallerTree at h ⊢
    dsimp only at h ⊢
    split_ifs at h ⊢ with hnone
    · cases h
    · intro hnote
      have htext := Option.some.inj hnote
      simp only [String.toList_append] at htext
      have hhead : some 'T' = some 'C' := congrArg List.head? htext
      exact absurd hhead (by decide)
  | succ maxDepth =>
    unfold treeOf at h
    rw [buildCallerTree] at h
    dsimp only at h
    split_ifs at h <;> cases h

/-- The callers of different functions that are visited: only the function itself is a cycle. -/
theorem foldl_visited {callers : List FunctionKey} (hnodup : callers.Nodup)
    (subtree : FunctionKey → CallerTree) :
    (callers.foldl (fun (visited, childTrees) caller =>
      if caller ∈ visited then (visited, childTrees ++ [cycleLeaf caller])
      else (caller :: visited, childTrees ++ [subtree caller])) ([key], ([] : List CallerTree))).2 =
      callers.map fun caller => if caller = key then cycleLeaf caller else subtree caller := by
  have hfold : ∀ l, l <+: callers → ∃ visited, (∀ k, k ∈ visited ↔ k = key ∨ k ∈ l) ∧
      l.foldl (fun (visited, childTrees) caller =>
        if caller ∈ visited then (visited, childTrees ++ [cycleLeaf caller])
        else (caller :: visited, childTrees ++ [subtree caller])) ([key], ([] : List CallerTree)) =
          (visited,
            l.map fun caller => if caller = key then cycleLeaf caller else subtree caller) := by
    intro l hl
    induction l using List.reverseRecOn with
    | nil => exact ⟨[key], fun k => by simp, rfl⟩
    | append_singleton l caller ih =>
      obtain ⟨visited, hvisited, hrun⟩ := ih ((List.prefix_append l [caller]).trans hl)
      have hnew : caller ∉ l := by
        have := hnodup.sublist hl.sublist
        rw [List.nodup_append] at this
        exact fun hmem => this.2.2 caller hmem caller List.mem_cons_self rfl
      rw [List.foldl_concat, hrun, List.map_append, List.map_singleton]
      dsimp only
      by_cases hkey : caller = key
      · rw [if_pos ((hvisited caller).2 (.inl hkey)), if_pos hkey]
        refine ⟨visited, fun k => ?_, rfl⟩
        rw [hvisited, List.mem_append, List.mem_singleton]
        constructor
        · exact Or.imp_right .inl
        · rintro (hk | hk | rfl)
          · exact .inl hk
          · exact .inr hk
          · exact .inl hkey
      · have hnot : caller ∉ visited := fun hmem => ((hvisited caller).1 hmem).elim hkey hnew
        rw [if_neg hnot, if_neg hkey]
        refine ⟨caller :: visited, fun k => ?_, rfl⟩
        rw [List.mem_cons, hvisited, List.mem_append, List.mem_singleton]
        tauto
  obtain ⟨visited, -, hrun⟩ := hfold callers List.prefix_rfl
  rw [hrun]

/-- **The children of the root**: the trees of the callers, with one level less, and a leaf for a
call of the function by itself. -/
theorem childTrees_treeOf_succ (graph : ProjectCallGraph) (maxDepth : Nat) (key : FunctionKey) :
    childTrees (treeOf graph (maxDepth + 1) key) = (callersOf graph key).map fun caller =>
      if caller = key then cycleLeaf caller else treeOf graph maxDepth caller := by
  unfold treeOf
  rw [buildCallerTree]
  simp only [callerCount_eq, getD_lookup_buildReverseGraph]
  split_ifs with hnone
  · rw [List.eq_nil_of_length_eq_zero hnone]
    rfl
  · exact foldl_visited (callersOf_nodup graph key) _

theorem childTrees_treeOf_zero (graph : ProjectCallGraph) (key : FunctionKey) :
    childTrees (treeOf graph 0 key) = [] := by
  unfold treeOf buildCallerTree
  dsimp only
  split_ifs <;> rfl

/-! ## Parts -/

/-- **The parts of the tree**: the trees of the functions that chains of callers end in, and leaves
for calls of a function by itself. -/
theorem Part.cases (h : Part (treeOf graph maxDepth target) path part) :
    (∃ key, CallerChain graph target path key ∧ path.length ≤ maxDepth ∧
        part = treeOf graph (maxDepth - path.length) key) ∨
      ∃ key ∈ path, part = cycleLeaf key := by
  induction h with
  | root => exact .inl ⟨target, .target, Nat.zero_le _, rfl⟩
  | @child path parent child _ hchild ih =>
    rcases ih with ⟨key, hchain, hlength, rfl⟩ | ⟨key, -, rfl⟩
    · rw [keyOf_treeOf]
      rcases Nat.lt_or_eq_of_le hlength with hlt | heq
      · obtain ⟨rest, hrest⟩ := Nat.exists_eq_add_of_lt hlt
        have hsucc : maxDepth - path.length = rest + 1 := by omega
        rw [hsucc, childTrees_treeOf_succ] at hchild
        obtain ⟨caller, hcaller, rfl⟩ := List.mem_map.1 hchild
        split_ifs with hself
        · exact .inr ⟨caller, List.mem_append_right _ (List.mem_singleton.2 hself), rfl⟩
        · refine .inl ⟨caller, hchain.step (mem_callersOf.1 hcaller) hself, ?_, ?_⟩
          · rw [List.length_append, List.length_singleton]
            omega
          · rw [List.length_append, List.length_singleton]
            congr 1
            omega
      · rw [heq, Nat.sub_self, childTrees_treeOf_zero] at hchild
        cases hchild
    · cases hchild

theorem CallerChain.exists_part (h : CallerChain graph target path key)
    (hlength : path.length ≤ maxDepth) :
    Part (treeOf graph maxDepth target) path (treeOf graph (maxDepth - path.length) key) := by
  induction h with
  | target => exact .root
  | @step path key caller _ hcall hne ih =>
    rw [List.length_append, List.length_singleton] at hlength ⊢
    have hparent := ih (by omega)
    obtain ⟨rest, hrest⟩ : ∃ rest, maxDepth - path.length = rest + 1 :=
      ⟨maxDepth - path.length - 1, by omega⟩
    have hchild : treeOf graph rest caller ∈
        childTrees (treeOf graph (maxDepth - path.length) key) := by
      rw [hrest, childTrees_treeOf_succ]
      refine List.mem_map.2 ⟨caller, mem_callersOf.2 hcall, ?_⟩
      rw [if_neg hne]
    have hpart := hparent.child hchild
    rw [keyOf_treeOf] at hpart
    rwa [Nat.sub_add_eq, hrest, Nat.add_sub_cancel]

/-- **Caller trees** are exact if and only if no chain of callers within the depth comes back to a
function, calls of a function by itself aside. -/
theorem treeExact_iff (graph : ProjectCallGraph) (target : FunctionKey) (maxDepth : Nat) :
    TreeExact graph maxDepth (buildCallerTree (buildReverseGraph graph) maxDepth target) ↔
      ∀ path key, CallerChain graph target path key → path.length ≤ maxDepth → key ∉ path := by
  change TreeExact graph maxDepth (treeOf graph maxDepth target) ↔ _
  constructor
  · intro h path key hchain hlength hmem
    have hpart := hchain.exists_part hlength
    obtain ⟨-, htruncated, hnote⟩ := h.cycles path _ hpart (by rwa [keyOf_treeOf])
    exact note_treeOf graph _ key htruncated hnote
  · intro h
    refine ⟨fun path part hpart hnew hlength => ?_, fun path part hpart hold => ?_⟩
    · rcases hpart.cases with ⟨key, -, -, rfl⟩ | ⟨key, hmem, rfl⟩
      · obtain ⟨rest, hrest⟩ : ∃ rest, maxDepth - path.length = rest + 1 :=
          ⟨maxDepth - path.length - 1, by omega⟩
        have hkeys : (childTrees (treeOf graph (maxDepth - path.length) key)).map keyOf =
            callersOf graph key := by
          rw [hrest, childTrees_treeOf_succ, List.map_map]
          refine (List.map_congr_left fun caller _ => ?_).trans (List.map_id _)
          rw [Function.comp_apply]
          split_ifs
          · exact keyOf_cycleLeaf caller
          · exact keyOf_treeOf graph rest caller
        rw [hkeys, keyOf_treeOf]
        exact ⟨callersOf_nodup graph key, fun caller => mem_callersOf⟩
      · rw [keyOf_cycleLeaf] at hnew
        exact absurd hmem hnew
    · rcases hpart.cases with ⟨key, hchain, hlength, rfl⟩ | ⟨key, -, rfl⟩
      · rw [keyOf_treeOf] at hold
        exact absurd hold (h path key hchain hlength)
      · exact ⟨rfl, rfl, rfl⟩

def mutualCalls : ProjectCallGraph where
  edges := [⟨"a.py".toList, "f", "a.py".toList, "g"⟩,
    ⟨"a.py".toList, "g", "a.py".toList, "f"⟩]
  nodup := by decide

/-- **A cycle of two functions** is followed around. -/
theorem not_treeExact_mutualCalls : ¬ ∀ (graph : ProjectCallGraph) target maxDepth,
    TreeExact graph maxDepth (buildCallerTree (buildReverseGraph graph) maxDepth target) := by
  intro h
  let f : FunctionKey := ⟨"a.py".toList, "f"⟩
  let g : FunctionKey := ⟨"a.py".toList, "g"⟩
  have hchain : CallerChain mutualCalls f ([] ++ [f] ++ [g]) f :=
    (CallerChain.target.step (mem_callersOf.1 (by decide)) (by decide)).step
      (mem_callersOf.1 (by decide)) (by decide)
  have hpart := hchain.exists_part (Nat.le_refl 2)
  obtain ⟨-, htruncated, hnote⟩ := (h mutualCalls f 2).cycles _ _ hpart
    (by rw [keyOf_treeOf]; exact List.mem_cons_self)
  exact note_treeOf mutualCalls _ f htruncated hnote

end TldrCode.Analysis
