import Mathlib.Data.List.AList
import Mathlib.Data.Prod.Lex
import Mathlib.Data.String.Basic
import TldrCode.Store.Ingestion
import TldrCode.Types
import TldrCode.UnstableSort

/-!
# Graph snapshots

`artifact_store/graph_snapshot.rs`: the nodes and the rows of the call graph of the files of a
generation. The files are met in the order of a hash table and the nodes are sorted by an unstable
sort: the graph is the same for all of them if and only if no file defines a name twice on one line
(`build_congr`, `exists_build_ne`).
-/

namespace TldrCode.Store

open Function (update)

abbrev FuncId := Nat

structure FunctionNode where
  language : String
  file : String
  name : String
  kind : String
  lineStart : Nat
  lineEnd : Nat
  signature : String
  deriving DecidableEq, Repr

structure NodeKey where
  language : String
  file : String
  name : String
  line : Nat
  deriving DecidableEq, Repr

namespace NodeKey

/-- The fields, in the order that they are compared in. -/
def fields (key : NodeKey) : String ×ₗ String ×ₗ String ×ₗ Nat :=
  toLex (key.language, toLex (key.file, toLex (key.name, key.line)))

theorem fields_injective : Function.Injective fields := by
  intro key key' h
  cases key
  cases key'
  simpa [fields] using h

instance : LinearOrder NodeKey := LinearOrder.lift' fields fields_injective

end NodeKey

def FunctionNode.key (node : FunctionNode) : NodeKey where
  language := node.language
  file := node.file
  name := node.name
  line := node.lineStart

/-- `HashMap<String, Arc<FileFacts>>`. -/
abbrev Files := AList fun _ : String => FileFacts

/-- `files.values()`. -/
def Files.values (ord : HashOrder) (files : Files) : List FileFacts :=
  (ord.order files.entries).map (·.2)

structure GraphSnapshot where
  nodes : List FunctionNode
  forwardOffsets : List Nat
  forwardTargets : List FuncId
  reverseOffsets : List Nat
  reverseTargets : List FuncId
  byName : String → List FuncId
  byFile : String → List FuncId

namespace GraphSnapshot

/-! ## Nodes -/

def definitionNode (facts : FileFacts) (definition : DefinitionFact) : FunctionNode where
  language := facts.language
  file := facts.path
  name := definition.name
  kind := definition.kind
  lineStart := definition.lineStart
  lineEnd := definition.lineEnd
  signature := definition.signature

/-- The node of an end of an edge that no file defines. -/
def externalNode (base : String × String × String) : FunctionNode where
  language := base.1
  file := base.2.1
  name := base.2.2
  kind := "external"
  lineStart := 0
  lineEnd := 0
  signature := ""

def entry (node : FunctionNode) : NodeKey × FunctionNode := (node.key, node)

def endpoints (edges : List ProjectCallEdgeFact) : List (String × String × String) :=
  edges.flatMap fun edge =>
    [(edge.language, edge.sourceFile, edge.caller),
      (edge.language, edge.destinationFile, edge.callee)]

/-- The nodes of the ends that no node has been entered for. -/
def externalNodes : List (String × String × String) → List (String × String × String) →
    List FunctionNode
  | _, [] => []
  | defined, base :: bases =>
    if base ∈ defined then externalNodes defined bases
    else externalNode base :: externalNodes (base :: defined) bases

/-- `keyed`, before it is sorted. -/
def keyed (values : List FileFacts) (edges : List ProjectCallEdgeFact) :
    List (NodeKey × FunctionNode) :=
  let definitions := values.flatMap fun facts => facts.definitions.map (definitionNode facts)
  (definitions ++ externalNodes (definitions.map fun node => (node.language, node.file, node.name))
    (endpoints edges)).map entry

/-! ## Rows -/

def ids (nodes : List FunctionNode) (p : FunctionNode → Bool) : List FuncId :=
  (nodes.zipIdx.filter (p ·.1)).map (·.2)

/-- The first id of `by_identity`. -/
def endpointId (nodes : List FunctionNode) (base : String × String × String) : Option FuncId :=
  (ids nodes fun node => (node.language, node.file, node.name) = base).head?

def pushRow (rows : List (List FuncId)) : Option FuncId → Option FuncId → List (List FuncId)
  | some source, some destination => rows.modify source (· ++ [destination])
  | _, _ => rows

def buildCsr (rows : List (List FuncId)) : List Nat × List FuncId :=
  let rows := rows.map fun row => (row.insertionSort (· ≤ ·)).destutter (· ≠ ·)
  (rows.scanl (fun offset row => offset + row.length) 0, rows.flatten)

/-- The part of `build` after the sort. -/
def ofNodes (nodes : List FunctionNode) (edges : List ProjectCallEdgeFact) : GraphSnapshot :=
  let empty := List.replicate nodes.length []
  let source := fun edge : ProjectCallEdgeFact =>
    endpointId nodes (edge.language, edge.sourceFile, edge.caller)
  let destination := fun edge : ProjectCallEdgeFact =>
    endpointId nodes (edge.language, edge.destinationFile, edge.callee)
  let forward := edges.foldl (fun rows edge => pushRow rows (source edge) (destination edge)) empty
  let reverse := edges.foldl (fun rows edge => pushRow rows (destination edge) (source edge)) empty
  { nodes
    forwardOffsets := (buildCsr forward).1
    forwardTargets := (buildCsr forward).2
    reverseOffsets := (buildCsr reverse).1
    reverseTargets := (buildCsr reverse).2
    byName := fun name => ids nodes (·.name = name)
    byFile := fun file => ids nodes (·.file = file) }

def build (ord : HashOrder) (sort : UnstableSort NodeKey FunctionNode) (files : Files)
    (edges : List ProjectCallEdgeFact) : GraphSnapshot :=
  ofNodes ((sort.distinct (keyed (files.values ord) edges)).map (·.2)) edges

end GraphSnapshot

/-! ## Canonical graphs -/

def Unambiguous (files : String → Option FileFacts) : Prop :=
  ∀ path facts, files path = some facts → ∀ d ∈ facts.definitions, ∀ d' ∈ facts.definitions,
    d.name = d'.name → d.lineStart = d'.lineStart → d = d'

def Named (files : String → Option FileFacts) : Prop :=
  ∀ path facts, files path = some facts → facts.path = path

variable {ord ord' : HashOrder} {sort sort' : UnstableSort NodeKey FunctionNode}
  {files files' : Files} {edges : List ProjectCallEdgeFact} {facts : FileFacts}
  {defined defined' bases : List (String × String × String)} {node : FunctionNode}

theorem Files.mem_values : facts ∈ files.values ord ↔ ∃ path, files.lookup path = some facts := by
  unfold Files.values
  rw [List.mem_map]
  constructor
  · rintro ⟨⟨path, facts'⟩, hmem, rfl⟩
    rw [HashOrder.mem_order] at hmem
    exact ⟨path, AList.mem_lookup_iff.2 hmem⟩
  · rintro ⟨path, hlookup⟩
    exact ⟨⟨path, facts⟩, (HashOrder.mem_order ord).2 (AList.mem_lookup_iff.1 hlookup), rfl⟩

theorem Files.entries_perm (h : ∀ path, files.lookup path = files'.lookup path) :
    files.entries.Perm files'.entries := by
  refine List.lookup_ext files.nodupKeys files'.nodupKeys fun path facts => ?_
  change facts ∈ files.lookup path ↔ facts ∈ files'.lookup path
  rw [h]

theorem Files.values_perm (h : ∀ path, files.lookup path = files'.lookup path) :
    (files.values ord).Perm (files'.values ord') :=
  (((ord.perm _).trans (Files.entries_perm h)).trans (ord'.perm _).symm).map _

namespace GraphSnapshot

theorem externalNodes_congr (h : ∀ base, base ∈ defined ↔ base ∈ defined') :
    externalNodes defined bases = externalNodes defined' bases := by
  induction bases generalizing defined defined' with
  | nil => rfl
  | cons base bases ih =>
    unfold externalNodes
    rw [if_congr (h base) (ih h) (congrArg _ (ih fun other => ?_))]
    rw [List.mem_cons, List.mem_cons, h]

theorem mem_externalNodes (h : node ∈ externalNodes defined bases) :
    ∃ base, base ∉ defined ∧ node = externalNode base := by
  induction bases generalizing defined with
  | nil => cases h
  | cons base bases ih =>
    unfold externalNodes at h
    split_ifs at h with hdefined
    · exact ih h
    · cases List.mem_cons.1 h with
      | inl heq => exact ⟨base, hdefined, heq⟩
      | inr hmem =>
        obtain ⟨other, hother, heq⟩ := ih hmem
        exact ⟨other, fun hmem => hother (List.mem_cons_of_mem _ hmem), heq⟩

theorem mem_keyed_congr (h : ∀ path, files.lookup path = files'.lookup path)
    (e : NodeKey × FunctionNode) :
    e ∈ keyed (files.values ord) edges ↔ e ∈ keyed (files'.values ord') edges := by
  have hdefinitions : ((files.values ord).flatMap fun facts =>
        facts.definitions.map (definitionNode facts)).Perm
      ((files'.values ord').flatMap fun facts => facts.definitions.map (definitionNode facts)) :=
    (Files.values_perm h).flatMap_right _
  unfold keyed
  dsimp only
  rw [externalNodes_congr fun base => (hdefinitions.map _).mem_iff]
  exact ((hdefinitions.append_right _).map _).mem_iff

/-- The key of an entry tells its node, unless a file defines a name twice on one line. -/
theorem eq_of_mem_keyed (hnamed : Named (files.lookup ·))
    (hunambiguous : Unambiguous (files.lookup ·)) {e e' : NodeKey × FunctionNode}
      (he : e ∈ keyed (files.values ord) edges)
    (he' : e' ∈ keyed (files.values ord) edges) (hkey : e.1 = e'.1) : e = e' := by
  unfold keyed at he he'
  dsimp only at he he'
  obtain ⟨node, hnode, rfl⟩ := List.mem_map.1 he
  obtain ⟨node', hnode', rfl⟩ := List.mem_map.1 he'
  have hkey : node.key = node'.key := hkey
  refine congrArg entry ?_
  -- an external node does not have the base of a definition
  have hexternal : ∀ {node node' : FunctionNode} {nodes : List FunctionNode},
      node.key = node'.key → node ∈ nodes →
      node' ∉ externalNodes (nodes.map fun node => (node.language, node.file, node.name))
        (endpoints edges) := by
    intro node node' nodes hkey hnode hmem
    obtain ⟨base, hbase, rfl⟩ := mem_externalNodes hmem
    refine hbase (List.mem_map.2 ⟨node, hnode, ?_⟩)
    have hlanguage := congrArg NodeKey.language hkey
    have hfile := congrArg NodeKey.file hkey
    have hname := congrArg NodeKey.name hkey
    exact Prod.ext hlanguage (Prod.ext hfile hname)
  rcases List.mem_append.1 hnode with hdefined | hdefined <;>
    rcases List.mem_append.1 hnode' with hdefined' | hdefined'
  · obtain ⟨facts, hfacts, hdefinition⟩ := List.mem_flatMap.1 hdefined
    obtain ⟨facts', hfacts', hdefinition'⟩ := List.mem_flatMap.1 hdefined'
    obtain ⟨definition, hmem, rfl⟩ := List.mem_map.1 hdefinition
    obtain ⟨definition', hmem', rfl⟩ := List.mem_map.1 hdefinition'
    obtain ⟨path, hlookup⟩ := Files.mem_values.1 hfacts
    obtain ⟨path', hlookup'⟩ := Files.mem_values.1 hfacts'
    have hpath : facts.path = facts'.path := congrArg NodeKey.file hkey
    rw [hnamed path facts hlookup, hnamed path' facts' hlookup'] at hpath
    subst hpath
    cases hlookup.symm.trans hlookup'
    rw [hunambiguous path facts hlookup definition hmem definition' hmem'
      (congrArg NodeKey.name hkey) (congrArg NodeKey.line hkey)]
  · exact absurd hdefined' (hexternal hkey hdefined)
  · exact absurd hdefined (hexternal hkey.symm hdefined')
  · obtain ⟨base, -, rfl⟩ := mem_externalNodes hdefined
    obtain ⟨base', -, rfl⟩ := mem_externalNodes hdefined'
    have hbase : base = base' := Prod.ext (congrArg NodeKey.language hkey)
      (Prod.ext (congrArg NodeKey.file hkey) (congrArg NodeKey.name hkey))
    rw [hbase]

/-- **The graph is canonical** if no file defines a name twice on one line. -/
theorem build_congr (h : ∀ path, files.lookup path = files'.lookup path)
    (hnamed : Named (files.lookup ·)) (hunambiguous : Unambiguous (files.lookup ·)) :
    build ord sort files edges = build ord' sort' files' edges := by
  unfold build
  rw [UnstableSort.distinct_congr (mem_keyed_congr h) fun e he e' he' =>
    eq_of_mem_keyed hnamed hunambiguous he he']

/-- **The graph is not canonical** if a file defines a name twice on one line. -/
theorem exists_build_ne (hambiguous : ¬ Unambiguous (files.lookup ·)) (ord : HashOrder)
    (edges : List ProjectCallEdgeFact) :
    ∃ sort sort', build ord sort files edges ≠ build ord sort' files edges := by
  unfold Unambiguous at hambiguous
  push Not at hambiguous
  obtain ⟨path, facts, hlookup, d, hd, d', hd', hname, hline, hne⟩ := hambiguous
  have hmem : ∀ d ∈ facts.definitions,
      entry (definitionNode facts d) ∈ keyed (files.values ord) edges := by
    intro d hd
    refine List.mem_map_of_mem (List.mem_append_left _ (List.mem_flatMap.2 ⟨facts, ?_, ?_⟩))
    · exact Files.mem_values.2 ⟨path, hlookup⟩
    · exact List.mem_map_of_mem hd
  refine ⟨.preferring (entry (definitionNode facts d)),
    .preferring (entry (definitionNode facts d')), fun heq => hne ?_⟩
  have hnodes := congrArg GraphSnapshot.nodes heq
  have hleft := UnstableSort.mem_distinct_preferring (hmem d hd)
  have hleft' := UnstableSort.mem_distinct_preferring (hmem d' hd')
  have hnode : definitionNode facts d ∈ (build ord
      (.preferring (entry (definitionNode facts d'))) files edges).nodes := by
    rw [← hnodes]
    exact List.mem_map.2 ⟨_, hleft, rfl⟩
  obtain ⟨e, he, hentry⟩ := List.mem_map.1 hnode
  obtain ⟨node, -, rfl⟩ := List.mem_map.1 (UnstableSort.mem_of_mem_distinct he)
  have hnode : node = definitionNode facts d := hentry
  subst hnode
  have hkey : (definitionNode facts d).key = (definitionNode facts d').key := by
    unfold FunctionNode.key definitionNode
    rw [hname, hline]
  have hsame : definitionNode facts d = definitionNode facts d' :=
    congrArg Prod.snd (UnstableSort.eq_of_mem_distinct he hleft' hkey)
  cases d
  cases d'
  simp only [definitionNode, FunctionNode.mk.injEq] at hsame
  simp only [DefinitionFact.mk.injEq]
  grind

end GraphSnapshot

end TldrCode.Store
