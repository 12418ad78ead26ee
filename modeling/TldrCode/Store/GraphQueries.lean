import TldrCode.Graph.BreadthFirst
import TldrCode.Store.GraphIndex

/-!
# Queries of graph snapshots

`artifact_store/graph_snapshot.rs`: the callers of functions up to a depth are found by a search
along the reverse rows. Each comes once, with the length of its shortest call path
(`reverseBfs_shortest`).
-/

namespace TldrCode.Store.GraphSnapshot

open TldrCode.Graph

/-- `GraphSnapshot::default`. -/
def empty : GraphSnapshot where
  nodes := []
  forwardOffsets := []
  forwardTargets := []
  reverseOffsets := []
  reverseTargets := []
  byName _ := []
  byFile _ := []

inductive IsSnapshot : GraphSnapshot → Prop
  | empty : IsSnapshot empty
  | build (ord : HashOrder) (sort : UnstableSort NodeKey FunctionNode) (files : Files)
    (edges : List ProjectCallEdgeFact) : IsSnapshot (build ord sort files edges)

def Calls (graph : GraphSnapshot) (u v : FuncId) : Prop := v ∈ graph.outNeighbors u

def reverseBfs (graph : GraphSnapshot) (starts : List FuncId) (maxDepth : Nat) :
    List (FuncId × Nat) :=
  breadthFirst graph.inNeighbors maxDepth graph.nodes.length
    (.init (starts.filter (· < graph.nodes.length)))

/-- The length of the shortest call path from a function to one of the starts. -/
structure CallDistance (graph : GraphSnapshot) (starts : List FuncId) (id : FuncId) (depth : Nat) :
    Prop where
  path : ∃ start ∈ starts, ∃ l, Walk graph.Calls id start l ∧ l.length = depth + 1
  shortest : ∀ start ∈ starts, ∀ l, Walk graph.Calls id start l → depth + 1 ≤ l.length

variable {graph : GraphSnapshot} {starts : List FuncId} {maxDepth depth n : Nat} {u v id : FuncId}

/-! ## Both directions -/

theorem faithful_empty : Faithful empty [] := by
  have hrow : ∀ id, csrRow [] ([] : List FuncId) id = [] := fun id => if_pos (Nat.zero_le _)
  constructor <;> simp [outNeighbors, inNeighbors, empty, hrow]

section

variable (h : graph.IsSnapshot)
include h

theorem IsSnapshot.exists_faithful : ∃ edges, Faithful graph edges := by
  cases h with
  | empty => exact ⟨[], faithful_empty⟩
  | build ord sort files edges => exact ⟨edges, build_isFaithful ord sort files edges⟩

theorem IsSnapshot.mem_inNeighbors : u ∈ graph.inNeighbors v ↔ graph.Calls u v := by
  obtain ⟨edges, hfaithful⟩ := h.exists_faithful
  exact (hfaithful.into u v).trans (hfaithful.out u v).symm

theorem IsSnapshot.lt_length (hcalls : graph.Calls u v) :
    u < graph.nodes.length ∧ v < graph.nodes.length := by
  obtain ⟨edges, hfaithful⟩ := h.exists_faithful
  obtain ⟨edge, -, hu, hv⟩ := (hfaithful.out u v).1 hcalls
  exact ⟨hu.lt_length, hv.lt_length⟩

theorem IsSnapshot.lt_of_walk {l : List FuncId} (w : Walk graph.Calls u v l) :
    u < graph.nodes.length ↔ v < graph.nodes.length := by
  obtain ⟨t, rfl⟩ := w.eq_concat
  by_cases ht : t = []
  · subst ht
    cases w.head
    rfl
  · obtain ⟨y, w', hyv⟩ := w.exists_last_step ht
    refine iff_of_true ?_ (h.lt_length hyv).2
    obtain ⟨t', rfl⟩ := w'.eq_cons
    have hchain := w.chain
    cases t' with
    | nil | cons x t' => exact (h.lt_length (List.isChain_cons_cons.1 hchain).1).1

/-! ## Callers -/

theorem IsSnapshot.reachWithin_iff :
    ReachWithin (fun x y => y ∈ graph.inNeighbors x) (starts.filter (· < graph.nodes.length)) n id ↔
      id < graph.nodes.length ∧
        ∃ start ∈ starts, ∃ l, Walk graph.Calls id start l ∧ l.length ≤ n + 1 := by
  have hstep : (fun x y => y ∈ graph.inNeighbors x) = fun x y => graph.Calls y x := by
    funext x y
    exact propext h.mem_inNeighbors
  rw [hstep, reachWithin_iff_walk]
  constructor
  · rintro ⟨start, hstart, l, w, hl⟩
    obtain ⟨hmem, hlt⟩ := List.mem_filter.1 hstart
    exact ⟨(h.lt_of_walk w).2 (by simpa using hlt), start, hmem, l, w, hl⟩
  · rintro ⟨hid, start, hstart, l, w, hl⟩
    refine ⟨start, List.mem_filter.2 ⟨hstart, ?_⟩, l, w, hl⟩
    simpa using (h.lt_of_walk w).1 hid

theorem IsSnapshot.shortestFrom_iff :
    ShortestFrom (fun x y => y ∈ graph.inNeighbors x) (starts.filter (· < graph.nodes.length))
        depth id ↔
      id < graph.nodes.length ∧ graph.CallDistance starts id depth := by
  unfold ShortestFrom
  simp only [h.reachWithin_iff]
  constructor
  · rintro ⟨⟨hid, start, hstart, l, w, hl⟩, hleast⟩
    have hshortest : ∀ start ∈ starts, ∀ l, Walk graph.Calls id start l → depth + 1 ≤ l.length := by
      intro start hstart l w
      by_contra hlt
      have hpos : 0 < l.length := List.length_pos_of_ne_nil w.ne_nil
      exact hleast (l.length - 1) (by omega) ⟨hid, start, hstart, l, w, by omega⟩
    exact ⟨hid, ⟨start, hstart, l, w, Nat.le_antisymm hl (hshortest start hstart l w)⟩, hshortest⟩
  · rintro ⟨hid, ⟨start, hstart, l, w, hl⟩, hshortest⟩
    refine ⟨⟨hid, start, hstart, l, w, Nat.le_of_eq hl⟩, ?_⟩
    rintro n hn ⟨-, start', hstart', l', w', hl'⟩
    have := hshortest start' hstart' l' w'
    omega

end

/-- **The callers of the starts**, each once, with the lengths of their shortest call paths and in
the order of these. -/
theorem reverseBfs_shortest (h : graph.IsSnapshot) (starts : List FuncId) (maxDepth : Nat) :
    ((graph.reverseBfs starts maxDepth).map (·.1)).Nodup ∧
      ((graph.reverseBfs starts maxDepth).map (·.2)).Pairwise (· ≤ ·) ∧
      ∀ id depth, (id, depth) ∈ graph.reverseBfs starts maxDepth ↔
        id < graph.nodes.length ∧ depth ≤ maxDepth ∧ graph.CallDistance starts id depth := by
  have hclosed : ∀ x ∈ List.range graph.nodes.length, ∀ y ∈ graph.inNeighbors x,
      y ∈ List.range graph.nodes.length := fun x _ y hy =>
    List.mem_range.2 (h.lt_length (h.mem_inNeighbors.1 hy)).1
  have hstarts : ∀ x ∈ starts.filter (· < graph.nodes.length),
      x ∈ List.range graph.nodes.length := fun x hx =>
    List.mem_range.2 (by simpa using (List.mem_filter.1 hx).2)
  have hsearch : graph.reverseBfs starts maxDepth =
      breadthFirst graph.inNeighbors maxDepth (List.range graph.nodes.length).length
        (.init (starts.filter (· < graph.nodes.length))) := by
    rw [List.length_range]
    rfl
  rw [hsearch]
  refine ⟨breadthFirst_nodup hclosed hstarts, breadthFirst_sorted hclosed hstarts,
    fun id depth => ?_⟩
  rw [mem_breadthFirst hclosed hstarts, h.shortestFrom_iff]
  tauto

def oneCall : ProjectCallEdgeFact where
  language := "python"
  sourceFile := "a.py"
  caller := "f"
  destinationFile := "a.py"
  callee := "g"
  callType := "direct"

/-- Its caller is found one call before it. -/
theorem reverseBfs_shortest_oneCall :
    (build .insertion (.preferring (entry (externalNode ("", "", "")))) ∅ [oneCall]).CallDistance
      [1] 0 1 :=
  (((reverseBfs_shortest (.build .insertion (.preferring (entry (externalNode ("", "", "")))) ∅
    [oneCall]) [1] 1).2.2 0 1).1 (by decide +kernel)).2.2

end TldrCode.Store.GraphSnapshot
