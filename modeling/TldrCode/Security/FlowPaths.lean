import TldrCode.Graph.PathSearch
import TldrCode.Security.SsaTaint
import TldrCode.Security.TaintSolution

/-!
# The paths of flows

A flow is reported for each source on an earlier line and each sink whose variable is tainted at the
end of its block, whichever source that is from. Its path is a path in the graph if there is one
(`flow_spec`); a sink that the block of the source does not lead to gets the two blocks as its path
(`not_realizable_branches`).
-/

namespace TldrCode.Security

open TldrCode.Graph
open Ssa (SsaFunction)

namespace TaintInput

variable {input : TaintInput} {ord : HashOrder} {option : Option SsaFunction} {info : TaintInfo}
  {flow : TaintFlow} {sourceBlock sinkBlock : Nat}

/-- The path of a flow is a path in the graph, from the block of the source to that of the sink. -/
def Realizable (input : TaintInput) (flow : TaintFlow) : Prop :=
  ∃ sourceBlock sinkBlock, lineToBlock input.cfg flow.source.line = some sourceBlock ∧
    lineToBlock input.cfg flow.sink.line = some sinkBlock ∧
      Walk input.cfg.Edge sourceBlock sinkBlock flow.path

/-! ## The search -/

theorem searchFlowPath_eq (rounds : Nat) (queue : List (List Nat)) (visited : List Nat) :
    input.searchFlowPath sinkBlock rounds queue visited =
      pathSearch input.cfg.successors sinkBlock rounds queue visited := by
  induction rounds generalizing queue visited with
  | zero => rfl
  | succ rounds ih =>
    cases queue with
    | nil => rfl
    | cons path queue =>
      unfold searchFlowPath pathSearch
      dsimp only
      rw [show (default : Nat) = 0 from rfl]
      split_ifs with hfound
      · rfl
      · exact ih _ _

theorem successors_edge :
    (fun a b => b ∈ input.cfg.successors a) = input.cfg.Edge := by
  funext a b
  exact propext CfgInfo.mem_successors

theorem walk_of_searchFlowPath {rounds : Nat} {path : List Nat}
    (h : input.searchFlowPath sinkBlock rounds [[sourceBlock]] [sourceBlock] = some path) :
    Walk input.cfg.Edge sourceBlock sinkBlock path := by
  rw [searchFlowPath_eq] at h
  rw [← successors_edge]
  refine pathSearch_walk (fun path hpath => ?_) h
  rw [List.mem_singleton.1 hpath]
  exact ⟨sourceBlock, .single sourceBlock⟩

theorem isSome_searchFlowPath (hne : sourceBlock ≠ sinkBlock)
    (hreach : Reach input.cfg.Edge sourceBlock sinkBlock) :
    (input.searchFlowPath sinkBlock (input.cfg.edges.length + 1) [[sourceBlock]]
      [sourceBlock]).isSome := by
  rw [searchFlowPath_eq]
  rw [← successors_edge] at hreach
  have hnodes : ∀ x, ∀ y ∈ input.cfg.successors x, y ∈ input.cfg.edges.map (·.toBlock) := by
    intro x y hy
    obtain ⟨edge, hedge, -, rfl⟩ := CfgInfo.mem_successors.1 hy
    exact List.mem_map_of_mem hedge
  refine pathSearch_isSome hnodes ?_ (fun x hx => ?_) List.mem_cons_self ?_ hreach
  · have hle : unvisited (input.cfg.edges.map (·.toBlock)) [sourceBlock] ≤
        input.cfg.edges.length := by
      rw [unvisited]
      exact (List.length_filter_le _ _).trans_eq (List.length_map _)
    simp only [List.length_singleton]
    omega
  · rw [List.mem_singleton.1 hx]
    exact .inl ⟨_, List.mem_cons_self, rfl⟩
  · rw [List.mem_singleton]
    exact hne.symm

/-- **The path of a flow** is a path in the graph if there is one, and else just the two blocks. -/
theorem computeFlowPath_spec (input : TaintInput) (sourceBlock sinkBlock : Nat) :
    (Reach input.cfg.Edge sourceBlock sinkBlock →
      Walk input.cfg.Edge sourceBlock sinkBlock (input.computeFlowPath sourceBlock sinkBlock)) ∧
    (¬ Reach input.cfg.Edge sourceBlock sinkBlock →
      input.computeFlowPath sourceBlock sinkBlock = [sourceBlock, sinkBlock]) := by
  unfold computeFlowPath
  split_ifs with heq
  · subst heq
    exact ⟨fun _ => .single _, fun hnot => absurd (.refl _) hnot⟩
  · cases hsearch : input.searchFlowPath sinkBlock (input.cfg.edges.length + 1) [[sourceBlock]]
      [sourceBlock] with
    | some path =>
      have hwalk := walk_of_searchFlowPath hsearch
      exact ⟨fun _ => hwalk, fun hnot => absurd ⟨path, hwalk⟩ hnot⟩
    | none =>
      refine ⟨fun hreach => ?_, fun _ => rfl⟩
      have hsome := isSome_searchFlowPath heq hreach
      rw [hsearch] at hsome
      cases hsome

theorem computeFlowPath_ends (input : TaintInput) (sourceBlock sinkBlock : Nat) :
    (input.computeFlowPath sourceBlock sinkBlock).head? = some sourceBlock ∧
      (input.computeFlowPath sourceBlock sinkBlock).getLast? = some sinkBlock := by
  obtain ⟨hwalk, hpair⟩ := computeFlowPath_spec input sourceBlock sinkBlock
  by_cases hreach : Reach input.cfg.Edge sourceBlock sinkBlock
  · exact ⟨(hwalk hreach).head, (hwalk hreach).last⟩
  · rw [hpair hreach]
    exact ⟨rfl, rfl⟩

/-! ## Flows -/

theorem mem_flows_taintInfo {tainted : Nat → Finset String} {sanitizedVars : Finset String}
    {sinks : List TaintSink} {convergence : Option String}
    (h : flow ∈ (input.taintInfo tainted sanitizedVars sinks convergence).flows) :
    flow.source ∈ input.sources ∧ ∃ sourceBlock sinkBlock,
      lineToBlock input.cfg flow.source.line = some sourceBlock ∧
      lineToBlock input.cfg flow.sink.line = some sinkBlock ∧
      flow.path = input.computeFlowPath sourceBlock sinkBlock ∧
      flow.source.line ≤ flow.sink.line ∧
      flow.sink.var ∉ sanitizedVars ∧ flow.source.var ∉ sanitizedVars ∧
      (flow.sink.var ∈ tainted sinkBlock ∨ flow.source.var ∈ tainted sinkBlock ∧
        flow.sink.statement.any fun stmt => identifierInText stmt flow.source.var) := by
  obtain ⟨sink, hsink, hflow⟩ := List.mem_flatMap.1 h
  obtain ⟨source, hsource, hflow⟩ := List.mem_filterMap.1 hflow
  unfold flow? at hflow
  split at hflow
  · next sinkBlock sourceBlock hsinkBlock hsourceBlock =>
    dsimp only at hflow
    split_ifs at hflow with hreported
    obtain rfl := Option.some_inj.1 hflow
    obtain ⟨htainted, hsanitized, hline⟩ := hreported
    rw [not_or] at hsanitized
    refine ⟨hsource, sourceBlock, sinkBlock, hsourceBlock, hsinkBlock, rfl, hline, hsanitized.1,
      hsanitized.2, htainted.imp id fun h => h.2⟩
  · cases hflow

theorem taintedVars_of_noSsa (hoption : (option.filter fun ssa => !ssa.blocks.isEmpty) = none)
    (h : input.computeTaint ord option = .ok info) :
    info.taintedVars = input.worklistResult.1 := by
  have hsame : input.computeTaint ord option = input.computeTaintWithTree ord := by
    rw [← computeTaint_none]
    unfold computeTaint
    rw [hoption]
    rfl
  exact (computeTaintWithTree_ok (hsame ▸ h)).2.1

/-- **What a flow is**: from a source to a sink on no earlier line, along a path in the graph if
there is one, and what is tainted at the end of the block of the sink is the variable of the sink,
or that of the source if the statement of the sink names it. Without SSA some source taints it. -/
theorem flow_spec (h : input.computeTaint ord option = .ok info) (hflow : flow ∈ info.flows) :
    flow.source ∈ input.sources ∧ flow.source.line ≤ flow.sink.line ∧
      ∃ sourceBlock sinkBlock, lineToBlock input.cfg flow.source.line = some sourceBlock ∧
        lineToBlock input.cfg flow.sink.line = some sinkBlock ∧
        flow.path.head? = some sourceBlock ∧ flow.path.getLast? = some sinkBlock ∧
        (Reach input.cfg.Edge sourceBlock sinkBlock → input.Realizable flow) ∧
        (¬ Reach input.cfg.Edge sourceBlock sinkBlock → flow.path = [sourceBlock, sinkBlock]) ∧
        ∃ var, (var = flow.sink.var ∨ var = flow.source.var ∧
            flow.sink.statement.any fun stmt => identifierInText stmt flow.source.var) ∧
          var ∈ info.taintedVars sinkBlock ∧ var ∉ info.sanitizedVars ∧
          ((option.filter fun ssa => !ssa.blocks.isEmpty) = none →
            TaintedAt input True sinkBlock var ∨ var ∈ input.sourceVarsByBlock sinkBlock) := by
  have hchain : ∀ var sinkBlock, var ∈ info.taintedVars sinkBlock →
      (option.filter fun ssa => !ssa.blocks.isEmpty) = none →
        TaintedAt input True sinkBlock var ∨ var ∈ input.sourceVarsByBlock sinkBlock := by
    intro var sinkBlock hvar hoption
    rw [taintedVars_of_noSsa hoption h] at hvar
    exact chain_of_mem_worklistResult sinkBlock var hvar
  obtain ⟨tainted, sanitizedVars, sinks, convergence, rfl, -⟩ := exists_taintInfo h
  obtain ⟨hsource, sourceBlock, sinkBlock, hsourceBlock, hsinkBlock, hpath, hline, hsinkVar,
    hsourceVar, htainted⟩ := mem_flows_taintInfo hflow
  obtain ⟨hhead, hlast⟩ := computeFlowPath_ends input sourceBlock sinkBlock
  obtain ⟨hwalk, hpair⟩ := computeFlowPath_spec input sourceBlock sinkBlock
  rw [← hpath] at hhead hlast hwalk hpair
  refine ⟨hsource, hline, sourceBlock, sinkBlock, hsourceBlock, hsinkBlock, hhead, hlast,
    fun hreach => ⟨sourceBlock, sinkBlock, hsourceBlock, hsinkBlock, hwalk hreach⟩, hpair, ?_⟩
  rcases htainted with hdirect | ⟨hindirect, hnamed⟩
  · exact ⟨flow.sink.var, .inl rfl, hdirect, hsinkVar, hchain _ _ hdirect⟩
  · exact ⟨flow.source.var, .inr ⟨rfl, hnamed⟩, hindirect, hsourceVar, hchain _ _ hindirect⟩

/-- `x = input()` on one branch, and `y = input(); eval(y)` on the other. -/
def branches : TaintInput where
  cfg := ⟨"main", [⟨0, (1, 1)⟩, ⟨1, (2, 2)⟩, ⟨2, (3, 4)⟩], [⟨0, 1⟩, ⟨0, 2⟩], 0, [1, 2]⟩
  refs := [⟨"x", .definition, 2, 0⟩, ⟨"y", .definition, 3, 0⟩, ⟨"y", .use, 4, 5⟩]
  statements := ∅
  sources := [⟨"x", 2, .userInput, none⟩, ⟨"y", 3, .userInput, none⟩]
  sinks := [⟨"y", 4, .codeEval, false, none⟩]
  sanitizerLines := []

theorem branches_flows : ((branches.computeTaint .insertion none).toOption.map fun info =>
    info.flows.map fun flow => (flow.source.var, flow.path)) =
      some [("x", [1, 2]), ("y", [2])] := by
  decide +kernel

/-- The source on the other branch is reported, with a path that is none. -/
theorem not_realizable_branches : ∃ info, branches.computeTaint .insertion none = .ok info ∧
    ¬ ∀ flow ∈ info.flows, branches.Realizable flow := by
  obtain ⟨info, hok, hflows⟩ := exists_ok_of_map branches_flows
  refine ⟨info, hok, fun hall => ?_⟩
  obtain ⟨flow, hflow, hpath⟩ : ∃ flow ∈ info.flows,
      (flow.source.var, flow.path) = ("x", [1, 2]) := by
    refine List.mem_map.1 ?_
    rw [hflows]
    exact List.mem_cons_self
  obtain ⟨sourceBlock, sinkBlock, -, -, hwalk⟩ := hall flow hflow
  have hpath : flow.path = [1, 2] := congrArg Prod.snd hpath
  rw [hpath] at hwalk
  have hedge : branches.cfg.Edge 1 2 := (List.isChain_cons_cons.1 hwalk.chain).1
  exact absurd (CfgInfo.mem_successors.2 hedge) (by decide)

/-- The flow from the source on the branch of the sink. -/
theorem flow_spec_branches : ∃ info, branches.computeTaint .insertion none = .ok info ∧
    ∃ flow ∈ info.flows, flow.path = [2] ∧ flow.source ∈ branches.sources ∧
      branches.Realizable flow := by
  obtain ⟨info, hok, hflows⟩ := exists_ok_of_map branches_flows
  obtain ⟨flow, hflow, hpath⟩ : ∃ flow ∈ info.flows, (flow.source.var, flow.path) = ("y", [2]) := by
    refine List.mem_map.1 ?_
    rw [hflows]
    exact List.mem_cons_of_mem _ List.mem_cons_self
  obtain ⟨hsource, -, sourceBlock, sinkBlock, -, -, hhead, hlast, hwalk, -⟩ := flow_spec hok hflow
  have hpath : flow.path = [2] := congrArg Prod.snd hpath
  rw [hpath] at hhead hlast
  obtain rfl := Option.some_inj.1 hhead
  obtain rfl := Option.some_inj.1 hlast
  exact ⟨info, hok, flow, hflow, hpath, hsource, hwalk (.refl 2)⟩

end TaintInput

end TldrCode.Security
