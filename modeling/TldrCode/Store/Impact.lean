import TldrCode.Output.ImpactCompact
import TldrCode.Store.GraphIndex

/-!
# Impact reports

`impact_report` of `artifact_store/graph_snapshot.rs` builds a tree of callers for each definition
of a name, from the rows of a graph snapshot. The trees are entered in a table under the file and
the name, so that of two definitions in one file only the later one has a tree, while calls are
resolved to the earlier one: the report is complete if and only if the definitions are in files of
their own (`complete_iff`).
-/

namespace TldrCode.Store

open Output (CallerNode CallerTree ImpactReport)
open Tsv (Text)

structure FunctionNotFound where
  name : String
  file : Option String
  suggestions : List String
  deriving DecidableEq, Repr

def functionNotFound (name : String) : FunctionNotFound := ⟨name, none, []⟩

namespace GraphSnapshot

/-! ## The report -/

/-- A `CallerTree` without its callers. -/
def callerNode (node : FunctionNode) (callerCount : Nat) (truncated : Bool) (note : Option String) :
    CallerNode where
  function := node.name.toList
  file := node.file.toList
  callerCount
  truncated
  note := note.map String.toList
  confidence := none
  receiverType := none

/-- `caller_tree`. There is none if an `expect` fails. -/
def callerTree (graph : GraphSnapshot) : Nat → FuncId → List FuncId → Option CallerTree
  | 0, id, _ => do
    let node ← graph.nodes[id]?
    let direct := graph.inNeighbors id
    if direct.isEmpty then some (.node (callerNode node 0 false none) [])
    else some (.node (callerNode node direct.length true (some "Depth limit reached")) [])
  | remaining + 1, id, path => do
    let node ← graph.nodes[id]?
    let direct := graph.inNeighbors id
    let callers ← direct.mapM fun caller =>
      if caller ∈ path then do
        let cycleNode ← graph.nodes[caller]?
        some (.node (callerNode cycleNode (graph.inNeighbors caller).length true
          (some "Cycle detected")) [])
      else callerTree graph remaining caller (path ++ [caller])
    some (.node (callerNode node direct.length false none) callers)

def passes (fileFilter : Option String) (file : String) : Bool :=
  fileFilter.all fun filter => file = filter || filter.toList.isSuffixOf file.toList

def candidates (graph : GraphSnapshot) (target : String) (fileFilter : Option String) :
    List FuncId :=
  (graph.byName target).filter fun id =>
    fileFilter.isNone || (graph.nodes[id]?).any fun node => passes fileFilter node.file

def targetKey (ambiguous : Bool) (target : String) (node : FunctionNode) : Text :=
  if ambiguous then node.file.toList ++ ':' :: node.name.toList else target.toList

/-- `impact_report`. There is none if an `expect` fails. -/
def impactReport (graph : GraphSnapshot) (target : String) (depth : Nat)
    (fileFilter : Option String) : Option (Except FunctionNotFound ImpactReport) :=
  let candidates := graph.candidates target fileFilter
  if candidates.isEmpty then some (.error (functionNotFound target))
  else do
    let ambiguous := decide (1 < candidates.length)
    let targets ← candidates.foldlM (fun (targets : AList fun _ : Text => CallerTree) id => do
      let node ← graph.nodes[id]?
      let tree ← graph.callerTree depth id [id]
      some (targets.insert (targetKey ambiguous target node) tree)) ∅
    some (.ok { targets, totalTargets := targets.keys.length })

/-! ## What it should say -/

/-- A definition with the name, in a file that passes the filter. -/
def Matches (graph : GraphSnapshot) (target : String) (fileFilter : Option String) (id : FuncId) :
    Prop :=
  ∃ node, graph.nodes[id]? = some node ∧ node.name = target ∧ passes fileFilter node.file

/-- The callers that a tree lists below its root. -/
def directCallers : CallerTree → List CallerNode
  | .node _ callers => callers.map fun
    | .node caller _ => caller

/-- The report has a tree for each definition, as many as it says, and lists all calls. -/
structure ReportComplete (graph : GraphSnapshot) (edges : List ProjectCallEdgeFact)
    (target : String)
    (fileFilter : Option String) (depth : Nat) (report : ImpactReport) : Prop where
  total : ∃ ids : List FuncId, ids.Nodup ∧ (∀ id, id ∈ ids ↔ graph.Matches target fileFilter id) ∧
    report.totalTargets = ids.length
  trees : ∃ key : FuncId → Text, Set.InjOn key {id | graph.Matches target fileFilter id} ∧
    ∀ id, graph.Matches target fileFilter id → (report.targets.lookup (key id)).isSome ∧
      report.targets.lookup (key id) = graph.callerTree depth id [id]
  calls : ∀ edge ∈ edges, edge.callee = target → passes fileFilter edge.destinationFile →
    ∃ key tree, report.targets.lookup key = some tree ∧ ∃ caller ∈ directCallers tree,
      caller.function = edge.caller.toList ∧ caller.file = edge.sourceFile.toList

/-- There is a complete report, or the name is not found because there is no definition. -/
def Complete (graph : GraphSnapshot) (edges : List ProjectCallEdgeFact) (target : String)
    (fileFilter : Option String) (depth : Nat) : Prop :=
  match graph.impactReport target depth fileFilter with
  | some (.ok report) => graph.ReportComplete edges target fileFilter depth report
  | some (.error _) => ∀ id, ¬ graph.Matches target fileFilter id
  | none => False

/-- No two of the definitions are in one file. -/
def FilesDistinct (graph : GraphSnapshot) (target : String) (fileFilter : Option String) : Prop :=
  ∀ id id' node node', graph.Matches target fileFilter id → graph.Matches target fileFilter id' →
    graph.nodes[id]? = some node → graph.nodes[id']? = some node' →
      node.file = node'.file → id = id'

/-! ## Tables -/

section Tables

variable {α β γ : Type} [DecidableEq β] {l : List α} {key : α → β} {value : α → γ}

/-- The table with a value for each member of a list. -/
def tableOf (key : α → β) (value : α → γ) (l : List α) : AList fun _ : β => γ :=
  l.foldl (fun table a => table.insert (key a) (value a)) ∅

theorem tableOf_concat (l : List α) (a : α) :
    tableOf key value (l ++ [a]) = (tableOf key value l).insert (key a) (value a) := by
  rw [tableOf, List.foldl_append]
  rfl

theorem mem_keys_tableOf {k : β} : k ∈ (tableOf key value l).keys ↔ k ∈ l.map key := by
  induction l using List.reverseRecOn with
  | nil => simp [tableOf]
  | append_singleton l a ih =>
    rw [tableOf_concat, ← AList.mem_keys, AList.mem_insert, AList.mem_keys, ih, List.map_append,
      List.mem_append, or_comm]
    simp

/-- The table has a key for each member exactly when no two members share one. -/
theorem length_keys_tableOf :
    (tableOf key value l).keys.length = l.length ↔ (l.map key).Nodup := by
  have hnodup : (tableOf key value l).keys.Nodup := AList.keys_nodup _
  have hsubperm : (tableOf key value l).keys.Subperm (l.map key) :=
    hnodup.subperm fun k hk => mem_keys_tableOf.1 hk
  constructor
  · intro hlength
    have hperm : (tableOf key value l).keys.Perm (l.map key) := by
      refine hsubperm.perm_of_length_le ?_
      rw [List.length_map]
      exact hlength.ge
    exact hperm.nodup_iff.1 hnodup
  · intro h
    have hperm : (tableOf key value l).keys.Perm (l.map key) :=
      (List.perm_ext_iff_of_nodup hnodup h).2 fun k => mem_keys_tableOf
    rw [hperm.length_eq, List.length_map]

theorem lookup_tableOf (value : α → γ) (h : (l.map key).Nodup) {a : α} (ha : a ∈ l) :
    (tableOf key value l).lookup (key a) = some (value a) := by
  induction l using List.reverseRecOn with
  | nil => cases ha
  | append_singleton l b ih =>
    rw [List.map_append, List.map_singleton] at h
    rw [tableOf_concat]
    rcases List.mem_append.1 ha with hl | hb
    · have hne : key a ≠ key b := fun heq =>
        (List.nodup_append.1 h).2.2 _ (List.mem_map_of_mem hl) _ (List.mem_singleton.2 rfl) heq
      rw [AList.lookup_insert_ne hne]
      exact ih (List.nodup_append.1 h).1 hl
    · rw [List.mem_singleton.1 hb, AList.lookup_insert]

theorem foldlM_eq_some {σ : Type} {step : σ → α → Option σ} {f : σ → α → σ}
    (h : ∀ a ∈ l, ∀ s, step s a = some (f s a)) (s : σ) :
    l.foldlM step s = some (l.foldl f s) := by
  induction l generalizing s with
  | nil => rfl
  | cons a l ih =>
    rw [List.foldlM_cons, h a List.mem_cons_self]
    exact ih (fun b hb => h b (List.mem_cons_of_mem _ hb)) _

theorem exists_mapM_eq_some {f : α → Option γ} (h : ∀ a ∈ l, ∃ c, f a = some c) :
    ∃ cs, l.mapM f = some cs ∧ ∀ a ∈ l, ∃ c ∈ cs, f a = some c := by
  induction l with
  | nil => exact ⟨[], rfl, by simp⟩
  | cons a l ih =>
    obtain ⟨c, hc⟩ := h a List.mem_cons_self
    obtain ⟨cs, hcs, hall⟩ := ih fun b hb => h b (List.mem_cons_of_mem _ hb)
    refine ⟨c :: cs, ?_, ?_⟩
    · rw [List.mapM_cons, hc, hcs]
      rfl
    · intro b hb
      cases List.mem_cons.1 hb with
      | inl heq => exact ⟨c, List.mem_cons_self, heq ▸ hc⟩
      | inr hb =>
        obtain ⟨d, hd, hfd⟩ := hall b hb
        exact ⟨d, List.mem_cons_of_mem _ hd, hfd⟩

end Tables

section Faithful

variable {graph : GraphSnapshot} {edges : List ProjectCallEdgeFact} {target : String}
  {fileFilter : Option String} {depth : Nat} {id : FuncId}
variable (h : Faithful graph edges)
include h

theorem mem_candidates :
    id ∈ graph.candidates target fileFilter ↔ graph.Matches target fileFilter id := by
  rw [candidates, List.mem_filter, h.byName]
  constructor
  · rintro ⟨⟨node, hnode, hname⟩, hfile⟩
    refine ⟨node, hnode, hname, ?_⟩
    cases fileFilter with
    | none => rfl
    | some filter => simpa [hnode] using hfile
  · rintro ⟨node, hnode, hname, hfile⟩
    refine ⟨⟨node, hnode, hname⟩, ?_⟩
    cases fileFilter with
    | none => rfl
    | some filter => simpa [hnode] using hfile

theorem nodup_candidates : (graph.candidates target fileFilter).Nodup := by
  have hsorted : (graph.byName target).Nodup := (h.byNameSorted target).imp fun hlt => hlt.ne
  exact hsorted.filter _

theorem exists_node_of_mem_inNeighbors {u : FuncId} (hu : u ∈ graph.inNeighbors id) :
    ∃ node, graph.nodes[u]? = some node := by
  obtain ⟨edge, -, ⟨⟨node, hnode, -⟩, -⟩, -⟩ := (h.into u id).1 hu
  exact ⟨node, hnode⟩

theorem exists_callerTree (remaining : Nat) {node : FunctionNode} (path : List FuncId)
    (hnode : graph.nodes[id]? = some node) :
    ∃ tree, graph.callerTree remaining id path = some tree ∧
      (∃ value callers, tree = .node value callers ∧ value.function = node.name.toList ∧
        value.file = node.file.toList) ∧
      (remaining ≠ 0 → ∀ u ∈ graph.inNeighbors id, ∀ other, graph.nodes[u]? = some other →
        ∃ caller ∈ directCallers tree,
          caller.function = other.name.toList ∧ caller.file = other.file.toList) := by
  induction remaining generalizing id node path with
  | zero =>
    unfold callerTree
    rw [hnode]
    cases hdirect : (graph.inNeighbors id).isEmpty with
    | true =>
      refine ⟨_, ?_, ⟨callerNode node 0 false none, [], rfl, rfl, rfl⟩, fun hne => absurd rfl hne⟩
      simp [hdirect]
    | false =>
      refine ⟨_, ?_, ⟨callerNode node (graph.inNeighbors id).length true
        (some "Depth limit reached"), [], rfl, rfl, rfl⟩, fun hne => absurd rfl hne⟩
      simp [hdirect]
  | succ remaining ih =>
    -- each caller has an entry
    obtain ⟨callers, hcallers, hall⟩ := exists_mapM_eq_some (l := graph.inNeighbors id)
      (f := fun caller => if caller ∈ path then do
          let cycleNode ← graph.nodes[caller]?
          some (.node (callerNode cycleNode (graph.inNeighbors caller).length true
            (some "Cycle detected")) [])
        else graph.callerTree remaining caller (path ++ [caller])) (by
      intro u hu
      obtain ⟨other, hother⟩ := exists_node_of_mem_inNeighbors h hu
      split_ifs with hpath
      · rw [hother]
        exact ⟨_, rfl⟩
      · obtain ⟨tree, htree, -⟩ := ih (path ++ [u]) hother
        exact ⟨tree, htree⟩)
    refine ⟨.node (callerNode node (graph.inNeighbors id).length false none) callers, ?_,
      ⟨_, _, rfl, rfl, rfl⟩, fun _ u hu other hother => ?_⟩
    · unfold callerTree
      rw [hnode]
      exact congrArg (fun result : Option (List CallerTree) => result.bind fun callers => some
        (RoseTree.node (callerNode node (graph.inNeighbors id).length false none) callers)) hcallers
    · obtain ⟨tree, htree, heq⟩ := hall u hu
      have hvalue : ∃ value below, tree = .node value below ∧
          value.function = other.name.toList ∧ value.file = other.file.toList := by
        split_ifs at heq with hpath
        · rw [hother] at heq
          exact ⟨_, _, (Option.some_inj.1 heq).symm, rfl, rfl⟩
        · obtain ⟨tree', htree', hvalue, -⟩ := ih (path ++ [u]) hother
          rw [heq, Option.some_inj] at htree'
          exact htree' ▸ hvalue
      obtain ⟨value, below, rfl, hfunction, hfile⟩ := hvalue
      exact ⟨value, List.mem_map.2 ⟨_, htree, rfl⟩, hfunction, hfile⟩

end Faithful

/-! ## Completeness -/

variable {graph : GraphSnapshot} {edges : List ProjectCallEdgeFact} {target : String}
  {fileFilter : Option String} {depth : Nat} {id : FuncId} {ambiguous : Bool}

/-- The key that the report enters a definition under. -/
def keyOf (graph : GraphSnapshot) (ambiguous : Bool) (target : String) (id : FuncId) : Text :=
  ((graph.nodes[id]?).map (targetKey ambiguous target)).getD []

def treeOf (graph : GraphSnapshot) (depth : Nat) (id : FuncId) : CallerTree :=
  (graph.callerTree depth id [id]).getD
    (.node (callerNode ⟨"", "", "", "", 0, 0, ""⟩ 0 false none) [])

def reportOf (graph : GraphSnapshot) (target : String) (depth : Nat) (ids : List FuncId) :
    ImpactReport :=
  let targets := tableOf (graph.keyOf (decide (1 < ids.length)) target) (graph.treeOf depth) ids
  { targets, totalTargets := targets.keys.length }

theorem callerTree_eq_treeOf (h : Faithful graph edges) (hid : graph.Matches target fileFilter id) :
    graph.callerTree depth id [id] = some (graph.treeOf depth id) := by
  obtain ⟨node, hnode, -⟩ := hid
  obtain ⟨tree, htree, -⟩ := exists_callerTree h depth [id] hnode
  rw [treeOf, htree]
  rfl

/-- **What the report is.** -/
theorem impactReport_eq (h : Faithful graph edges) : graph.impactReport target depth fileFilter =
    some (if (graph.candidates target fileFilter).isEmpty then .error (functionNotFound target)
      else .ok (graph.reportOf target depth (graph.candidates target fileFilter))) := by
  unfold impactReport
  dsimp only
  split_ifs with hempty
  · rfl
  · rw [foldlM_eq_some (f := fun targets id => targets.insert (graph.keyOf (decide
        (1 < (graph.candidates target fileFilter).length)) target id) (graph.treeOf depth id))]
    · rfl
    · intro id hid targets
      have hmatches := (mem_candidates h).1 hid
      have htree : graph.callerTree depth id [id] = some (graph.treeOf depth id) :=
        callerTree_eq_treeOf h hmatches
      obtain ⟨node, hnode, -⟩ := hmatches
      rw [htree, keyOf, hnode]
      rfl

theorem keyOf_inj {id' : FuncId} {node node' : FunctionNode} (hnode : graph.nodes[id]? = some node)
    (hnode' : graph.nodes[id']? = some node') (hname : node.name = node'.name) :
    graph.keyOf true target id = graph.keyOf true target id' ↔ node.file = node'.file := by
  simp only [keyOf, hnode, hnode', Option.map_some, Option.getD_some, targetKey, if_true, hname]
  rw [List.append_left_inj, String.toList_inj]

theorem nodup_keys_iff (h : Faithful graph edges) :
    ((graph.candidates target fileFilter).map (graph.keyOf (decide
      (1 < (graph.candidates target fileFilter).length)) target)).Nodup ↔
      graph.FilesDistinct target fileFilter := by
  have hnodup : (graph.candidates target fileFilter).Nodup := nodup_candidates h
  rw [List.nodup_map_iff_inj_on hnodup]
  constructor
  · intro hinj id id' node node' hid hid' hnode hnode' hfile
    by_contra hne
    have hmem := (mem_candidates h).2 hid
    have hmem' := (mem_candidates h).2 hid'
    have hmany : decide (1 < (graph.candidates target fileFilter).length) = true := by
      have hsub : [id, id'].Subperm (graph.candidates target fileFilter) := by
        refine List.Nodup.subperm (by simpa using hne) fun x hx => ?_
        rcases List.mem_cons.1 hx with rfl | hx
        · exact hmem
        · rw [List.mem_singleton.1 hx]
          exact hmem'
      have hle := hsub.length_le
      simp only [List.length_cons, List.length_nil] at hle
      exact decide_eq_true (by omega)
    rw [hmany] at hinj
    refine hne (hinj id hmem id' hmem' ?_)
    obtain ⟨other, hother, hname, -⟩ := hid
    obtain ⟨other', hother', hname', -⟩ := hid'
    cases hnode.symm.trans hother
    cases hnode'.symm.trans hother'
    exact (keyOf_inj hnode hnode' (hname.trans hname'.symm)).2 hfile
  · intro hdistinct id hmem id' hmem' hkey
    have hid := (mem_candidates h).1 hmem
    have hid' := (mem_candidates h).1 hmem'
    by_cases hmany : 1 < (graph.candidates target fileFilter).length
    · rw [decide_eq_true hmany] at hkey
      obtain ⟨node, hnode, hname, -⟩ := (mem_candidates h).1 hmem
      obtain ⟨node', hnode', hname', -⟩ := (mem_candidates h).1 hmem'
      refine hdistinct id id' node node' hid hid' hnode hnode' ?_
      exact (keyOf_inj hnode hnode' (hname.trans hname'.symm)).1 hkey
    · obtain ⟨i, hi, rfl⟩ := List.mem_iff_getElem.1 hmem
      obtain ⟨j, hj, rfl⟩ := List.mem_iff_getElem.1 hmem'
      obtain rfl : i = j := by omega
      rfl

theorem complete_iff_of_faithful (h : Faithful graph edges) :
    graph.Complete edges target fileFilter (depth + 1) ↔
      graph.FilesDistinct target fileFilter := by
  unfold Complete
  rw [impactReport_eq h, ← nodup_keys_iff h]
  cases hempty : (graph.candidates target fileFilter).isEmpty with
  | true =>
    rw [List.isEmpty_iff.1 hempty]
    refine iff_of_true (fun id hid => ?_) List.nodup_nil
    have hmem := (mem_candidates h).2 hid
    rw [List.isEmpty_iff.1 hempty] at hmem
    cases hmem
  | false =>
    simp only [Bool.false_eq_true, if_false]
    constructor
    · rintro ⟨⟨ids, hnodup, hids, htotal⟩, -, -⟩
      have hperm : ids.Perm (graph.candidates target fileFilter) :=
        (List.perm_ext_iff_of_nodup hnodup (nodup_candidates h)).2 fun id => by
          rw [hids, mem_candidates h]
      rw [hperm.length_eq] at htotal
      exact length_keys_tableOf.1 htotal
    · intro hkeys
      refine ⟨⟨_, nodup_candidates h, fun id => mem_candidates h, length_keys_tableOf.2 hkeys⟩,
        ⟨graph.keyOf (decide (1 < (graph.candidates target fileFilter).length)) target,
          fun id hid id' hid' => ?_, fun id hid => ?_⟩, fun edge hedge hcallee hfile => ?_⟩
      · exact fun hkey => List.inj_on_of_nodup_map hkeys ((mem_candidates h).2 hid)
          ((mem_candidates h).2 hid') hkey
      · have hlookup := lookup_tableOf (graph.treeOf (depth + 1)) hkeys
          ((mem_candidates h).2 hid)
        rw [callerTree_eq_treeOf h hid]
        refine ⟨?_, hlookup⟩
        rw [reportOf]
        dsimp only
        rw [hlookup]
        rfl
      · -- the call goes to the first definition of its file
        obtain ⟨u, v, hedgeTo⟩ := h.ends edge hedge
        have hrow := (h.into u v).2 ⟨edge, hedge, hedgeTo⟩
        obtain ⟨⟨⟨source, hsource, hsourceId⟩, -⟩, ⟨destination, hdestination, hdestId⟩,
          -⟩ := hedgeTo
        have hmatches : graph.Matches target fileFilter v := by
          refine ⟨destination, hdestination, ?_, ?_⟩
          · exact (congrArg (·.2.2) hdestId).trans hcallee
          · rw [show destination.file = edge.destinationFile from congrArg (·.2.1) hdestId]
            exact hfile
        obtain ⟨tree, htree, -, hcallers⟩ := exists_callerTree h (depth + 1) [v] hdestination
        obtain ⟨caller, hcaller, hfunction, hcallerFile⟩ :=
          hcallers (Nat.succ_ne_zero _) u hrow source hsource
        have hlookup := lookup_tableOf (graph.treeOf (depth + 1)) hkeys
          ((mem_candidates h).2 hmatches)
        have hsame : tree = graph.treeOf (depth + 1) v := by
          rw [callerTree_eq_treeOf h hmatches, Option.some_inj] at htree
          exact htree.symm
        refine ⟨_, _, hlookup, caller, hsame ▸ hcaller, ?_, ?_⟩
        · rw [hfunction, show source.name = edge.caller from congrArg (·.2.2) hsourceId]
        · rw [hcallerFile, show source.file = edge.sourceFile from congrArg (·.2.1) hsourceId]

/-- **The report is complete exactly when the definitions are in files of their own.** -/
theorem complete_iff (ord : HashOrder) (sort : UnstableSort NodeKey FunctionNode) (files : Files)
    (edges : List ProjectCallEdgeFact) (target : String) (fileFilter : Option String)
      (depth : Nat) :
    (build ord sort files edges).Complete edges target fileFilter (depth + 1) ↔
      (build ord sort files edges).FilesDistinct target fileFilter :=
  complete_iff_of_faithful (build_isFaithful ord sort files edges)

/-- Two classes of one file have a method `run`. -/
def twoMethods : Files := AList.singleton "m.py"
  { language := "python"
    definitions := [⟨"run", "method", "def run(self)", 2, 3⟩,
      ⟨"run", "method", "def run(self)", 6, 7⟩]
    calls := []
    semanticChunks := []
    callgraphIr := []
    path := "m.py"
    revision := ⟨0⟩
    source := [] }

/-- `main` calls `run`. -/
def callOfRun : List ProjectCallEdgeFact := [⟨"python", "main.py", "main", "m.py", "run", "direct"⟩]

/-- Both methods match, and neither the count nor the callers are reported. -/
theorem not_complete_twoMethods :
    ((build .insertion .stable twoMethods callOfRun).impactReport "run" 1 none).map
        (·.toOption.map fun report => (report.totalTargets,
          report.targets.entries.map fun entry => directCallers entry.2)) =
      some (some (1, [[]])) ∧
    ¬ (build .insertion .stable twoMethods callOfRun).Complete callOfRun "run" none 1 := by
  refine ⟨by decide +kernel, fun h => ?_⟩
  rw [complete_iff_of_faithful (build_isFaithful _ _ _ _)] at h
  have hmatches : ∀ id, id = 0 ∨ id = 1 →
      (build .insertion .stable twoMethods callOfRun).Matches "run" none id := by
    rintro id (rfl | rfl)
    · exact ⟨⟨"python", "m.py", "run", "method", 2, 3, "def run(self)"⟩, by decide +kernel, rfl,
        rfl⟩
    · exact ⟨⟨"python", "m.py", "run", "method", 6, 7, "def run(self)"⟩, by decide +kernel, rfl,
        rfl⟩
  have hsame := h 0 1 ⟨"python", "m.py", "run", "method", 2, 3, "def run(self)"⟩
    ⟨"python", "m.py", "run", "method", 6, 7, "def run(self)"⟩ (hmatches 0 (.inl rfl))
    (hmatches 1 (.inr rfl)) (by decide +kernel) (by decide +kernel) rfl
  cases hsame

end GraphSnapshot

end TldrCode.Store
