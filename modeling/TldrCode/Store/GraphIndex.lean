import Mathlib.Data.List.GetD
import TldrCode.Store.GraphSnapshot

/-!
# Graph indexes

`artifact_store/graph_snapshot.rs`: what the tables of a graph snapshot say. The rows of both
directions hold the edges of the graph, each edge has nodes at its ends, and the tables by name and
by file list the nodes that have the name or are in the file (`faithful_build`).
-/

namespace TldrCode.Store

namespace GraphSnapshot

/-! ## Rows in one table -/

section Csr

variable {α : Type*} {rows : List (List α)} {i : Nat}

def csrRow (offsets : List Nat) (targets : List α) (id : Nat) : List α :=
  if offsets.length ≤ id + 1 then []
  else (targets.drop (offsets.getD id 0)).take (offsets.getD (id + 1) 0 - offsets.getD id 0)

theorem getD_offsets (offset : Nat) (hi : i ≤ rows.length) :
    (rows.scanl (fun offset row => offset + row.length) offset).getD i 0 =
      offset + (rows.take i).flatten.length := by
  induction rows generalizing offset i with
  | nil => simp [Nat.le_zero.1 hi]
  | cons row rows ih =>
    cases i with
    | zero => simp
    | succ i =>
      rw [List.scanl_cons, List.getD_cons_succ, ih _ (Nat.le_of_succ_le_succ hi),
        List.take_succ_cons, List.flatten_cons, List.length_append, Nat.add_assoc]

/-- **The rows are found again.** -/
theorem csrRow_scanl :
    csrRow (rows.scanl (fun offset row => offset + row.length) 0) rows.flatten i =
    rows.getD i [] := by
  unfold csrRow
  rw [List.length_scanl]
  split_ifs with hlength
  · rw [List.getD_eq_default _ _ (by omega)]
  · have hi : i < rows.length := by omega
    rw [getD_offsets 0 (by omega), getD_offsets 0 (by omega), Nat.zero_add, Nat.zero_add,
      List.getD_eq_getElem _ _ hi]
    have hflatten : rows.flatten =
        (rows.take i).flatten ++ (rows[i] ++ (rows.drop (i + 1)).flatten) := by
      rw [← List.flatten_cons, ← List.drop_eq_getElem_cons hi, ← List.flatten_append,
        List.take_append_drop]
    have hwidth : (rows.take (i + 1)).flatten.length - (rows.take i).flatten.length =
        rows[i].length := by
      rw [List.take_succ_eq_append_getElem hi, List.flatten_append, List.length_append,
        List.flatten_singleton, Nat.add_sub_cancel_left]
    rw [hflatten, List.drop_left, hwidth, List.take_left]

end Csr

def outNeighbors (graph : GraphSnapshot) (id : FuncId) : List FuncId :=
  csrRow graph.forwardOffsets graph.forwardTargets id

def inNeighbors (graph : GraphSnapshot) (id : FuncId) : List FuncId :=
  csrRow graph.reverseOffsets graph.reverseTargets id

def identity (node : FunctionNode) : String × String × String :=
  (node.language, node.file, node.name)

/-- An end of an edge is the first node with its language, file and name. -/
def Resolves (nodes : List FunctionNode) (base : String × String × String) (id : FuncId) : Prop :=
  (∃ node, nodes[id]? = some node ∧ identity node = base) ∧
    ∀ other < id, ∀ node, nodes[other]? = some node → identity node ≠ base

def ResolvesTo (nodes : List FunctionNode) (edge : ProjectCallEdgeFact)
    (source destination : FuncId) :
    Prop :=
  Resolves nodes (edge.language, edge.sourceFile, edge.caller) source ∧
    Resolves nodes (edge.language, edge.destinationFile, edge.callee) destination

/-- A graph is an index of its nodes and of edges, both ways. -/
structure Faithful (graph : GraphSnapshot) (edges : List ProjectCallEdgeFact) : Prop where
  out : ∀ u v, v ∈ graph.outNeighbors u ↔ ∃ edge ∈ edges, ResolvesTo graph.nodes edge u v
  into : ∀ u v, u ∈ graph.inNeighbors v ↔ ∃ edge ∈ edges, ResolvesTo graph.nodes edge u v
  ends : ∀ edge ∈ edges, ∃ u v, ResolvesTo graph.nodes edge u v
  outSorted : ∀ u, (graph.outNeighbors u).Pairwise (· < ·)
  intoSorted : ∀ v, (graph.inNeighbors v).Pairwise (· < ·)
  byName : ∀ name id, id ∈ graph.byName name ↔
    ∃ node, graph.nodes[id]? = some node ∧ node.name = name
  byNameSorted : ∀ name, (graph.byName name).Pairwise (· < ·)
  byFile : ∀ file id, id ∈ graph.byFile file ↔
    ∃ node, graph.nodes[id]? = some node ∧ node.file = file
  byFileSorted : ∀ file, (graph.byFile file).Pairwise (· < ·)

/-! ## Nodes by a property -/

variable {nodes : List FunctionNode} {p : FunctionNode → Bool} {id source destination u v : FuncId}
  {base : String × String × String} {edges : List ProjectCallEdgeFact} {edge : ProjectCallEdgeFact}

theorem mem_ids : id ∈ ids nodes p ↔ ∃ node, nodes[id]? = some node ∧ p node := by
  unfold ids
  simp only [List.mem_map, List.mem_filter, List.mem_zipIdx_iff_getElem?]
  constructor
  · rintro ⟨⟨node, id⟩, ⟨hnode, hp⟩, rfl⟩
    exact ⟨node, hnode, hp⟩
  · rintro ⟨node, hnode, hp⟩
    exact ⟨(node, id), ⟨hnode, hp⟩, rfl⟩

theorem pairwise_ids : (ids nodes p).Pairwise (· < ·) := by
  have hsublist : (ids nodes p).Sublist (nodes.zipIdx.map (·.2)) := List.filter_sublist.map _
  have hsnd : nodes.zipIdx.map (·.2) = List.range' 0 nodes.length := List.zipIdx_map_snd 0 nodes
  rw [hsnd] at hsublist
  exact (List.pairwise_lt_range' ..).sublist hsublist

theorem endpointId_eq_some_iff : endpointId nodes base = some id ↔ Resolves nodes base id := by
  have hmem : ∀ id, id ∈ ids nodes (fun node => (node.language, node.file, node.name) = base) ↔
      ∃ node, nodes[id]? = some node ∧ identity node = base := by
    intro id
    rw [mem_ids]
    simp only [decide_eq_true_eq, identity]
  have hsorted : (ids nodes fun node => (node.language, node.file, node.name) = base).Pairwise
      (· < ·) := pairwise_ids
  unfold endpointId Resolves
  rw [← hmem]
  cases hids : ids nodes (fun node => (node.language, node.file, node.name) = base) with
  | nil => simp
  | cons first rest =>
    rw [hids] at hsorted
    simp only [hids, List.mem_cons] at hmem
    rw [List.head?_cons, Option.some.injEq]
    have hfirst : ∀ other ∈ rest, first < other := (List.pairwise_cons.1 hsorted).1
    constructor
    · rintro rfl
      refine ⟨List.mem_cons_self, fun other hlt node hnode heq => ?_⟩
      rcases (hmem other).2 ⟨node, hnode, heq⟩ with rfl | hother
      · exact lt_irrefl _ hlt
      · exact lt_asymm hlt (hfirst other hother)
    · rintro ⟨hid, hleast⟩
      cases List.mem_cons.1 hid with
      | inl heq => exact heq.symm
      | inr hrest =>
        obtain ⟨node, hnode, heq⟩ := (hmem first).1 (.inl rfl)
        exact absurd heq (hleast first (hfirst id hrest) node hnode)

theorem Resolves.lt_length (h : Resolves nodes base id) : id < nodes.length := by
  obtain ⟨⟨node, hnode, -⟩, -⟩ := h
  exact (List.getElem?_eq_some_iff.1 hnode).1

theorem exists_resolves {node : FunctionNode} (hnode : node ∈ nodes) :
    ∃ id, Resolves nodes (identity node) id := by
  have hsome : (endpointId nodes (identity node)).isSome := by
    unfold endpointId
    rw [List.isSome_head?]
    obtain ⟨i, hi⟩ := List.mem_iff_getElem?.1 hnode
    intro hnil
    have hmem : i ∈ ids nodes fun other =>
        (other.language, other.file, other.name) = identity node :=
      mem_ids.2 ⟨node, hi, by simp [identity]⟩
    rw [hnil] at hmem
    cases hmem
  obtain ⟨id, hid⟩ := Option.isSome_iff_exists.1 hsome
  exact ⟨id, endpointId_eq_some_iff.1 hid⟩

/-! ## Rows of edges -/

section Rows

variable {rows : List (List FuncId)} {source destination : ProjectCallEdgeFact → Option FuncId}

theorem length_foldl_pushRow :
    (edges.foldl (fun rows edge => pushRow rows (source edge) (destination edge)) rows).length =
      rows.length := by
  induction edges generalizing rows with
  | nil => rfl
  | cons edge edges ih =>
    rw [List.foldl_cons, ih]
    unfold pushRow
    split
    · rw [List.length_modify]
    · rfl

theorem mem_pushRow {a b : Option FuncId} (ha : ∀ s, a = some s → s < rows.length) :
    v ∈ (pushRow rows a b).getD u [] ↔ v ∈ rows.getD u [] ∨ a = some u ∧ b = some v := by
  unfold pushRow
  split
  · next s d =>
    simp only [List.getD_eq_getElem?_getD, List.getElem?_modify, Option.some.injEq]
    split_ifs with hs
    · subst hs
      obtain ⟨row, hrow⟩ : ∃ row, rows[s]? = some row :=
        ⟨_, List.getElem?_eq_getElem (ha s rfl)⟩
      simp [hrow, eq_comm]
    · simp [hs]
  · next hnone =>
    constructor
    · exact .inl
    · rintro (h | ⟨rfl, rfl⟩)
      · exact h
      · exact absurd rfl (hnone u v rfl)

theorem mem_foldl_pushRow (hsource : ∀ edge s, source edge = some s → s < rows.length) :
    v ∈ (edges.foldl (fun rows edge => pushRow rows (source edge)
      (destination edge)) rows).getD u []
      ↔ v ∈ rows.getD u [] ∨ ∃ edge ∈ edges, source edge = some u ∧ destination edge = some v := by
  induction edges generalizing rows with
  | nil => simp
  | cons edge edges ih =>
    have hlength : ([edge].foldl (fun rows edge => pushRow rows (source edge) (destination edge))
        rows).length = rows.length := length_foldl_pushRow
    rw [List.foldl_cons, List.foldl_nil] at hlength
    rw [List.foldl_cons, ih fun edge s hs => (hsource edge s hs).trans_eq hlength.symm,
      mem_pushRow (hsource edge), or_assoc, List.exists_mem_cons_iff]

/-- The row of a node, as it is found in the table. -/
def row (rows : List (List FuncId)) (u : FuncId) : List FuncId :=
  csrRow (buildCsr rows).1 (buildCsr rows).2 u

theorem row_eq : row rows u = ((rows.getD u []).insertionSort (· ≤ ·)).destutter (· ≠ ·) := by
  unfold row buildCsr
  dsimp only
  rw [csrRow_scanl]
  simp only [List.getD_eq_getElem?_getD, List.getElem?_map]
  cases rows[u]? <;> rfl

theorem mem_row : v ∈ row rows u ↔ v ∈ rows.getD u [] := by
  rw [row_eq, mem_destutter, List.mem_insertionSort]

theorem pairwise_row : (row rows u).Pairwise (· < ·) := by
  rw [row_eq]
  exact pairwise_destutter_insertionSort

/-- **A table of rows holds the edges.** -/
theorem mem_row_foldl
    (hsource : ∀ edge s, source edge = some s → s < nodes.length) :
    v ∈ row (edges.foldl (fun rows edge => pushRow rows (source edge) (destination edge))
        (List.replicate nodes.length [])) u ↔
      ∃ edge ∈ edges, source edge = some u ∧ destination edge = some v := by
  rw [mem_row, mem_foldl_pushRow]
  · simp [List.getD_eq_getElem?_getD, List.getElem?_replicate]
    grind
  · simpa using hsource

end Rows

/-! ## Nodes of edges -/

theorem exists_mem_externalNodes {defined bases : List (String × String × String)}
    (hbase : base ∈ bases) :
    base ∈ defined ∨ externalNode base ∈ externalNodes defined bases := by
  induction bases generalizing defined with
  | nil => cases hbase
  | cons first bases ih =>
    unfold externalNodes
    rcases List.mem_cons.1 hbase with rfl | hbase
    · split_ifs with hdefined
      · exact .inl hdefined
      · exact .inr List.mem_cons_self
    · split_ifs with hdefined
      · exact ih hbase
      · have hrest : base ∈ first :: defined ∨ externalNode base ∈
            externalNodes (first :: defined) bases := ih hbase
        rcases hrest with h | h
        · rcases List.mem_cons.1 h with rfl | h
          · exact .inr List.mem_cons_self
          · exact .inl h
        · exact .inr (List.mem_cons_of_mem _ h)

theorem exists_mem_keyed {values : List FileFacts} (hbase : base ∈ endpoints edges) :
    ∃ node, entry node ∈ keyed values edges ∧ identity node = base := by
  unfold keyed
  dsimp only
  have hexternal : ∀ defined, base ∈ defined ∨ externalNode base ∈
      externalNodes defined (endpoints edges) := fun _ => exists_mem_externalNodes hbase
  rcases hexternal ((values.flatMap fun facts =>
      facts.definitions.map (definitionNode facts)).map identity) with h | h
  · obtain ⟨node, hnode, heq⟩ := List.mem_map.1 h
    exact ⟨node, List.mem_map_of_mem (List.mem_append_left _ hnode), heq⟩
  · exact ⟨externalNode base, List.mem_map_of_mem (List.mem_append_right _ h), rfl⟩

variable {ord : HashOrder} {sort : UnstableSort NodeKey FunctionNode} {files : Files}

theorem byName_build (name : String) : (build ord sort files edges).byName name =
    ids (build ord sort files edges).nodes (·.name = name) := rfl

theorem byFile_build (file : String) : (build ord sort files edges).byFile file =
    ids (build ord sort files edges).nodes (·.file = file) := rfl

theorem exists_mem_nodes (hbase : base ∈ endpoints edges) :
    ∃ node ∈ (build ord sort files edges).nodes, identity node = base := by
  obtain ⟨node, hnode, rfl⟩ : ∃ node, entry node ∈ keyed (files.values ord) edges ∧
    identity node = base := exists_mem_keyed hbase
  obtain ⟨e, he, hkey⟩ := UnstableSort.exists_mem_distinct (s := sort) hnode
  obtain ⟨node', -, rfl⟩ := List.mem_map.1 (UnstableSort.mem_of_mem_distinct he)
  have hkey : node'.key = node.key := hkey
  refine ⟨node', List.mem_map.2 ⟨_, he, rfl⟩, ?_⟩
  exact Prod.ext (congrArg NodeKey.language hkey)
    (Prod.ext (congrArg NodeKey.file hkey) (congrArg NodeKey.name hkey))

theorem build_isFaithful (ord : HashOrder) (sort : UnstableSort NodeKey FunctionNode)
    (files : Files)
    (edges : List ProjectCallEdgeFact) : Faithful (build ord sort files edges) edges := by
  have hlength : ∀ base id,
      endpointId (build ord sort files edges).nodes base = some id →
        id < (build ord sort files edges).nodes.length := fun base id h =>
    (endpointId_eq_some_iff.1 h).lt_length
  constructor
  case out =>
    intro u v
    refine (mem_row_foldl (fun edge s => hlength _ s)).trans ?_
    simp only [endpointId_eq_some_iff, ResolvesTo]
    rfl
  case into =>
    intro u v
    refine (mem_row_foldl (fun edge s => hlength _ s)).trans ?_
    simp only [endpointId_eq_some_iff, ResolvesTo]
    exact exists_congr fun edge => and_congr_right fun _ => and_comm
  case ends =>
    intro edge hedge
    have hresolves : ∀ base ∈ endpoints [edge],
        ∃ id, Resolves (build ord sort files edges).nodes base id := by
      intro base hbase
      have hend : base ∈ endpoints edges := by
        unfold endpoints at hbase ⊢
        rw [List.flatMap_singleton] at hbase
        exact List.mem_flatMap.2 ⟨edge, hedge, hbase⟩
      obtain ⟨node, hnode, rfl⟩ : ∃ node ∈ (build ord sort files edges).nodes,
        identity node = base := exists_mem_nodes hend
      exact exists_resolves hnode
    obtain ⟨u, hu⟩ := hresolves (edge.language, edge.sourceFile, edge.caller) (by simp [endpoints])
    obtain ⟨v, hv⟩ := hresolves (edge.language, edge.destinationFile, edge.callee)
      (by simp [endpoints])
    exact ⟨u, v, hu, hv⟩
  case outSorted => exact fun u => pairwise_row
  case intoSorted => exact fun v => pairwise_row
  case byName =>
    intro name id
    rw [byName_build, mem_ids]
    simp only [decide_eq_true_eq]
  case byNameSorted =>
    intro name
    rw [byName_build]
    exact pairwise_ids
  case byFile =>
    intro file id
    rw [byFile_build, mem_ids]
    simp only [decide_eq_true_eq]
  case byFileSorted =>
    intro file
    rw [byFile_build]
    exact pairwise_ids

/-- **The graph is a faithful index**, for all files and edges. -/
theorem faithful_build (ord : HashOrder) (sort : UnstableSort NodeKey FunctionNode) (files : Files)
    (edges : List ProjectCallEdgeFact) : Faithful (build ord sort files edges) edges :=
  build_isFaithful ord sort files edges

end GraphSnapshot

end TldrCode.Store
