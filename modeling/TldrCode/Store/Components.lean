import Mathlib.Data.List.Sort
import Mathlib.Data.Finset.Card
import TldrCode.Analysis.Tarjan
import TldrCode.Store.GraphQueries

/-!
# Cycles in graph snapshots

`artifact_store/graph_snapshot.rs`: Tarjan's algorithm by recursion. It follows the same rules as
the search with a work stack, and of the components it keeps those with more than one member and
those whose member calls itself (`components_exact`).
-/

namespace TldrCode.Store

open Function (update)
open TldrCode.Graph

/-- `Tarjan`. The stack begins with its top. -/
structure Tarjan where
  next : Nat
  indexes : List (Option Nat)
  low : List Nat
  stack : List FuncId
  onStack : List Bool
  components : List (List FuncId)

/-- An assignment to an entry of a vector. It panics out of bounds. -/
def assign {α : Type} (vec : List α) (i : Nat) (value : α) : Option (List α) :=
  if i < vec.length then some (vec.set i value) else none

namespace Tarjan

def init (nodes : Nat) : Tarjan where
  next := 0
  indexes := .replicate nodes none
  low := .replicate nodes 0
  stack := []
  onStack := .replicate nodes false
  components := []

def enter (node : FuncId) (state : Tarjan) : Option Tarjan := do
  let indexes ← assign state.indexes node (some state.next)
  let low ← assign state.low node state.next
  let onStack ← assign state.onStack node true
  return { state with
    next := state.next + 1, indexes, low, stack := node :: state.stack, onStack }

def lower (node : FuncId) (n : Nat) (state : Tarjan) : Option Tarjan := do
  let value ← state.low[node]?
  let low ← assign state.low node (min value n)
  return { state with low }

/-- The loop that takes a component from the stack. -/
def popComponent (node : FuncId) :
    List FuncId → List Bool → Option (List FuncId × List FuncId × List Bool)
  | [], _ => none
  | member :: stack, onStack => do
    let onStack ← assign onStack member false
    if member = node then return ([member], stack, onStack)
    else
      let (component, stack, onStack) ← popComponent node stack onStack
      return (member :: component, stack, onStack)

end Tarjan

namespace GraphSnapshot

def IsCycle (graph : GraphSnapshot) : List FuncId → Prop
  | [] => False
  | [member] => member ∈ graph.outNeighbors member
  | _ :: _ :: _ => True

instance (graph : GraphSnapshot) : DecidablePred graph.IsCycle
  | [] => inferInstanceAs (Decidable False)
  | [member] => inferInstanceAs (Decidable (member ∈ graph.outNeighbors member))
  | _ :: _ :: _ => inferInstanceAs (Decidable True)

def finish (graph : GraphSnapshot) (node : FuncId) (state : Tarjan) : Option Tarjan := do
  let low ← state.low[node]?
  let index ← (← state.indexes[node]?)
  if low = index then
    let (component, stack, onStack) ← Tarjan.popComponent node state.stack state.onStack
    let component := component.insertionSort (· ≤ ·)
    let components :=
      if graph.IsCycle component then state.components ++ [component] else state.components
    return { state with stack, onStack, components }
  else return state

/-- What a node does with one of its neighbours. -/
def look (visit : FuncId → Tarjan → Option Tarjan) (node : FuncId) (state : Tarjan)
    (next : FuncId) : Option Tarjan := do
  match ← state.indexes[next]? with
  | none =>
    let state ← visit next state
    state.lower node (← state.low[next]?)
  | some index => if ← state.onStack[next]? then state.lower node index else return state

/-- `visit`, for at most so many nested visits. -/
def visit (graph : GraphSnapshot) : Nat → FuncId → Tarjan → Option Tarjan
  | 0, _, _ => none
  | depth + 1, node, state => do
    let state ← state.enter node
    let state ← (graph.outNeighbors node).foldlM (look (visit graph depth) node) state
    graph.finish node state

/-- The visit of a node that has not been visited. -/
def visitRoot (graph : GraphSnapshot) (depth : Nat) (state : Tarjan) (node : FuncId) :
    Option Tarjan := do
  match ← state.indexes[node]? with
  | none => graph.visit depth node state
  | some _ => return state

/-- The components in the order of their first members. None of them is empty. -/
def sortByFirst (components : List (List FuncId)) : List (List FuncId) :=
  components.mergeSort fun C C' => C.headD 0 ≤ C'.headD 0

/-- `strongly_connected_components`, with no more nested visits than there are nodes. -/
def stronglyConnectedComponents (graph : GraphSnapshot) : Option (List (List FuncId)) := do
  let state ← (List.range graph.nodes.length).foldlM (graph.visitRoot graph.nodes.length)
    (.init graph.nodes.length)
  return sortByFirst state.components

end GraphSnapshot

variable {graph : GraphSnapshot} {state state' : Tarjan} {roots : List FuncId}
  {frames rest : List (FuncId × List FuncId)} {done : List (List FuncId)} {v w x n : Nat}
  {ws : List FuncId}

/-! ## Vectors -/

theorem assign_eq_some {α : Type} {vec : List α} {i : Nat} (value : α) (hi : i < vec.length) :
    assign vec i value = some (vec.set i value) := if_pos hi

theorem getElem?_set_eq {α : Type} {vec : List α} {i : Nat} (value : α) (hi : i < vec.length)
    (x : Nat) : (vec.set i value)[x]? = if x = i then some value else vec[x]? := by
  rw [List.getElem?_set]
  split_ifs with h h'
  · rfl
  · exact absurd h.symm h'
  · omega
  · rfl

namespace Tarjan

def numbers (state : Tarjan) : TarjanState FuncId where
  index x := state.indexes[x]?.join
  low x := state.low[x]?.getD 0
  stack := state.stack
  count := state.next

/-- The vectors have an entry for each node, and they agree with the stack. -/
structure Sized (state : Tarjan) (n : Nat) : Prop where
  indexes : state.indexes.length = n
  low : state.low.length = n
  onStack : state.onStack.length = n
  mem_stack : ∀ x < n, state.onStack[x]? = some (decide (x ∈ state.stack))

theorem Sized.exists_enter (h : state.Sized n) (hw : w < n) :
    ∃ state', state.enter w = some state' ∧ state'.Sized n ∧
      state'.numbers = state.numbers.enter w ∧ state'.components = state.components := by
  have hindexes := h.indexes.symm ▸ hw
  have hlow := h.low.symm ▸ hw
  have honStack := h.onStack.symm ▸ hw
  unfold enter
  simp only [assign_eq_some _ hindexes, assign_eq_some _ hlow, assign_eq_some _ honStack,
    Option.bind_eq_bind, Option.bind_some]
  refine ⟨_, rfl, ⟨?_, ?_, ?_, fun x hx => ?_⟩, ?_, rfl⟩
  · rw [List.length_set, h.indexes]
  · rw [List.length_set, h.low]
  · rw [List.length_set, h.onStack]
  · dsimp only
    rw [getElem?_set_eq _ honStack, h.mem_stack x hx]
    split_ifs with heq <;> simp [heq]
  · unfold numbers TarjanState.enter
    congr 1
    · funext x
      rw [getElem?_set_eq _ hindexes, Function.update_apply]
      split_ifs <;> rfl
    · funext x
      rw [getElem?_set_eq _ hlow, Function.update_apply]
      split_ifs <;> rfl

theorem Sized.exists_lower (h : state.Sized n) (hv : v < n) (m : Nat) :
    ∃ state', state.lower v m = some state' ∧ state'.Sized n ∧
      state'.numbers = state.numbers.lower v m ∧ state'.components = state.components := by
  have hlow := h.low.symm ▸ hv
  unfold lower
  simp only [List.getElem?_eq_getElem hlow, assign_eq_some _ hlow, Option.bind_eq_bind,
    Option.bind_some]
  refine ⟨_, rfl, ⟨h.indexes, ?_, h.onStack, h.mem_stack⟩, ?_, rfl⟩
  · rw [List.length_set, h.low]
  · unfold numbers TarjanState.lower
    congr 1
    funext x
    rw [getElem?_set_eq _ hlow, Function.update_apply]
    split_ifs
    · simp [List.getElem?_eq_getElem hlow]
    · rfl

theorem exists_popComponent {top : List FuncId} (under : List FuncId) (onStack : List Bool)
    (hv : v ∉ top)
    (hlength : ∀ x ∈ top ++ [v], x < onStack.length) :
    ∃ onStack', popComponent v (top ++ v :: under) onStack = some (top ++ [v], under, onStack') ∧
      onStack'.length = onStack.length ∧
      ∀ x, onStack'[x]? = if x ∈ top ++ [v] then some false else onStack[x]? := by
  induction top generalizing onStack with
  | nil =>
    have hlt : v < onStack.length := hlength v List.mem_cons_self
    refine ⟨onStack.set v false, ?_, List.length_set, fun x => ?_⟩
    · simp only [List.nil_append, popComponent, assign_eq_some _ hlt, Option.bind_eq_bind,
        Option.bind_some, if_true, Option.pure_def]
    · simp [getElem?_set_eq _ hlt]
  | cons w top ih =>
    have hne : w ≠ v := (List.ne_of_not_mem_cons hv).symm
    have hlt : w < onStack.length := hlength w List.mem_cons_self
    obtain ⟨onStack', hpop, hlength', hget⟩ := ih (onStack.set w false)
      (List.not_mem_of_not_mem_cons hv) fun x hx => by
        rw [List.length_set]
        exact hlength x (List.mem_cons_of_mem w hx)
    refine ⟨onStack', ?_, by rw [hlength', List.length_set], fun x => ?_⟩
    · simp only [List.cons_append, popComponent, assign_eq_some _ hlt, Option.bind_eq_bind,
        Option.bind_some, if_neg hne, hpop, Option.pure_def]
    · rw [hget, getElem?_set_eq _ hlt]
      by_cases heq : x = w <;> simp [heq]

end Tarjan

namespace GraphSnapshot

/-! ## Visits -/

def cycles (graph : GraphSnapshot) (classes : List (List FuncId)) : List (List FuncId) :=
  (classes.map (·.insertionSort (· ≤ ·))).filter graph.IsCycle

structure Follows (graph : GraphSnapshot) (state : Tarjan) (frames : List (FuncId × List FuncId))
    (done : List (List FuncId)) : Prop where
  sized : state.Sized graph.nodes.length
  components : state.components = graph.cycles done.reverse
  inv : TarjanInv graph.outNeighbors (List.range graph.nodes.length) state.numbers frames done

def unvisited (graph : GraphSnapshot) (state : Tarjan) : Finset FuncId :=
  (Finset.range graph.nodes.length).filter fun x => state.numbers.index x = none

theorem IsSnapshot.lt_of_reached (h : graph.IsSnapshot)
    (hinv : TarjanInv graph.outNeighbors (List.range graph.nodes.length) state.numbers frames done)
    (hx : state.numbers.index x ≠ none) : x < graph.nodes.length := by
  obtain ⟨r, hr, hreach⟩ := hinv.reached x hx
  exact hreach.induct (P := (· < graph.nodes.length)) (List.mem_range.1 hr)
    fun a b _ hab _ => (h.lt_length hab).2

theorem numbers_index (hv : v < state.indexes.length) :
    state.indexes[v]? = some (state.numbers.index v) := by
  simp [Tarjan.numbers, hv]

theorem numbers_low (hv : v < state.low.length) :
    state.low[v]? = some (state.numbers.low v) := by
  simp [Tarjan.numbers, hv]

/-- The state follows the algorithm once what a visit has found is counted for the node before. -/
structure Returns (graph : GraphSnapshot) (state : Tarjan) (v : FuncId)
    (rest : List (FuncId × List FuncId)) (done : List (List FuncId)) : Prop where
  sized : state.Sized graph.nodes.length
  components : state.components = graph.cycles done.reverse
  inv : TarjanInv graph.outNeighbors (List.range graph.nodes.length) (state.numbers.back v rest)
    rest done

/-- **A visit ends.** -/
theorem IsSnapshot.exists_finish (hgraph : graph.IsSnapshot)
    (h : graph.Follows state ((v, []) :: rest) done) :
    ∃ state' done', graph.finish v state = some state' ∧ graph.Returns state' v rest done' ∧
      state'.numbers.index = state.numbers.index := by
  have hmem : v ∈ state.stack := h.inv.mem_stack_of_open TarjanInv.open_top
  have hvisited : ∀ x ∈ state.stack, state.numbers.index x ≠ none := fun x hx =>
    (h.inv.visited x).2 (.inl hx)
  have hlt : ∀ x ∈ state.stack, x < graph.nodes.length := fun x hx =>
    hgraph.lt_of_reached h.inv (hvisited x hx)
  obtain ⟨index, hindex⟩ := Option.ne_none_iff_exists'.1 (hvisited v hmem)
  have hnum : state.numbers.num v = index := by
    unfold TarjanState.num
    rw [hindex]
    rfl
  have hle := h.inv.low_le v TarjanInv.open_top
  unfold finish
  simp only [numbers_low (h.sized.low.symm ▸ hlt v hmem),
    numbers_index (h.sized.indexes.symm ▸ hlt v hmem), hindex, Option.bind_eq_bind,
    Option.bind_some]
  by_cases hroot : state.numbers.low v = index
  · obtain ⟨top, under, hstack⟩ := List.append_of_mem hmem
    have hnodup : state.stack.Nodup := h.inv.nodup_stack
    rw [hstack, List.append_cons, List.nodup_append] at hnodup
    have hvtop : v ∉ top := fun hx =>
      (List.nodup_append.1 hnodup.1).2.2 v hx v List.mem_cons_self rfl
    have hmembers : ∀ x ∈ top ++ [v], x ∈ state.stack := by
      intro x hx
      rw [hstack, List.append_cons]
      exact List.mem_append_left _ hx
    obtain ⟨onStack, hpop, hlength, hget⟩ := Tarjan.exists_popComponent under state.onStack hvtop
      fun x hx => h.sized.onStack.symm ▸ hlt x (hmembers x hx)
    rw [if_pos hroot, hstack, hpop]
    refine ⟨_, (top ++ [v]) :: done, rfl, ⟨⟨h.sized.indexes, h.sized.low,
      hlength.trans h.sized.onStack, fun x hx => ?_⟩, ?_,
      h.inv.pop_back (hroot.trans hnum.symm) hstack⟩, rfl⟩
    · dsimp only
      rw [hget]
      by_cases hx' : x ∈ top ++ [v]
      · have hunder : x ∉ under := fun hunder => hnodup.2.2 x hx' x hunder rfl
        rw [if_pos hx', decide_eq_false hunder]
      · have hiff : x ∈ state.stack ↔ x ∈ under := by
          rw [hstack, List.append_cons, List.mem_append]
          exact or_iff_right hx'
        rw [if_neg hx', h.sized.mem_stack x hx, decide_eq_decide.2 hiff]
    · dsimp only
      rw [h.components, List.reverse_cons, cycles, cycles, List.map_append, List.filter_append]
      split_ifs with hcycle <;> simp [hcycle]
  · rw [if_neg hroot]
    refine ⟨state, done, rfl, ⟨h.sized, h.components, h.inv.close_back ?_⟩, rfl⟩
    omega

/-- What the visit of a node does, with at most so many nested visits. -/
def Visits (graph : GraphSnapshot) (depth : Nat) : Prop :=
  ∀ state w rest done, state.Sized graph.nodes.length →
    state.components = graph.cycles done.reverse →
    TarjanInv graph.outNeighbors (List.range graph.nodes.length) (state.numbers.enter w)
      ((w, graph.outNeighbors w) :: rest) done →
    w < graph.nodes.length → state.numbers.index w = none → (graph.unvisited state).card ≤ depth →
    ∃ state' done', graph.visit depth w state = some state' ∧ graph.Returns state' w rest done' ∧
      (∀ x, state.numbers.index x ≠ none → state'.numbers.index x ≠ none) ∧
      state'.numbers.index w ≠ none

theorem unvisited_subset (graph : GraphSnapshot)
    (h : ∀ x, state.numbers.index x ≠ none → state'.numbers.index x ≠ none) :
    graph.unvisited state' ⊆ graph.unvisited state := by
  intro x hx
  obtain ⟨hrange, hnone⟩ := Finset.mem_filter.1 hx
  refine Finset.mem_filter.2 ⟨hrange, ?_⟩
  by_contra hne
  exact h x hne hnone

variable {depth : Nat}

/-- **A neighbour is looked at.** -/
theorem IsSnapshot.exists_look (hgraph : graph.IsSnapshot) (hvisits : graph.Visits depth)
    (h : graph.Follows state ((v, w :: ws) :: rest) done)
    (hdepth : (graph.unvisited state).card ≤ depth) :
    ∃ state' done', look (graph.visit depth) v state w = some state' ∧
      graph.Follows state' ((v, ws) :: rest) done' ∧
      ∀ x, state.numbers.index x ≠ none → state'.numbers.index x ≠ none := by
  have hedge : w ∈ graph.outNeighbors v :=
    h.inv.pending v w (TarjanInv.pending_cons_iff.2 (.inl ⟨rfl, List.mem_cons_self⟩))
  obtain ⟨hv, hw⟩ : v < graph.nodes.length ∧ w < graph.nodes.length := hgraph.lt_length hedge
  unfold look
  simp only [numbers_index (h.sized.indexes.symm ▸ hw), Option.bind_eq_bind, Option.bind_some]
  cases hindex : state.numbers.index w with
  | none =>
    obtain ⟨state₁, done', hvisit, hreturns, hkept, -⟩ := hvisits state w ((v, ws) :: rest) done
      h.sized h.components (h.inv.enter_next hindex) hw hindex hdepth
    obtain ⟨state', hlower, hsized, hnumbers, hcomponents⟩ :=
      hreturns.sized.exists_lower hv (state₁.numbers.low w)
    dsimp only
    rw [hvisit, Option.bind_some, numbers_low (hreturns.sized.low.symm ▸ hw), Option.bind_some,
      hlower]
    refine ⟨state', done', rfl, ⟨hsized, hcomponents.trans hreturns.components, ?_⟩, fun x hx => ?_⟩
    · rw [hnumbers]
      exact hreturns.inv
    · rw [hnumbers]
      exact hkept x hx
  | some index =>
    have hvisited : state.numbers.index w ≠ none := by
      rw [hindex]
      exact Option.some_ne_none _
    dsimp only
    rw [h.sized.mem_stack w hw, Option.bind_some]
    by_cases hmem : w ∈ state.stack
    · obtain ⟨state', hlower, hsized, hnumbers, hcomponents⟩ := h.sized.exists_lower hv index
      have hnum : state.numbers.num w = index := by
        unfold TarjanState.num
        rw [hindex]
        rfl
      have hinv := h.inv.lower_next hmem
      rw [hnum, ← hnumbers] at hinv
      rw [if_pos (decide_eq_true hmem), hlower]
      refine ⟨state', done, rfl, ⟨hsized, hcomponents.trans h.components, hinv⟩, fun x hx => ?_⟩
      rw [hnumbers]
      exact hx
    · rw [if_neg (by simpa using hmem)]
      have hinv := h.inv.advance hvisited fun hmem' => absurd hmem' hmem
      exact ⟨state, done, rfl, ⟨h.sized, h.components, hinv⟩, fun x hx => hx⟩

theorem IsSnapshot.exists_foldlM_look (hgraph : graph.IsSnapshot) (hvisits : graph.Visits depth)
    (h : graph.Follows state ((v, ws) :: rest) done)
    (hdepth : (graph.unvisited state).card ≤ depth) :
    ∃ state' done', ws.foldlM (look (graph.visit depth) v) state = some state' ∧
      graph.Follows state' ((v, []) :: rest) done' ∧
      ∀ x, state.numbers.index x ≠ none → state'.numbers.index x ≠ none := by
  induction ws generalizing state done with
  | nil => exact ⟨state, done, rfl, h, fun x hx => hx⟩
  | cons w ws ih =>
    obtain ⟨state₁, done₁, hlook, hfollows, hkept⟩ := hgraph.exists_look hvisits h hdepth
    have hle := Finset.card_le_card (unvisited_subset graph hkept)
    obtain ⟨state', done', hfold, hfollows', hkept'⟩ := ih hfollows (Nat.le_trans hle hdepth)
    refine ⟨state', done', ?_, hfollows', fun x hx => hkept' x (hkept x hx)⟩
    rw [List.foldlM_cons, hlook]
    exact hfold

/-- **A visit** does not run out of nested visits. -/
theorem IsSnapshot.visits (hgraph : graph.IsSnapshot) (depth : Nat) : graph.Visits depth := by
  induction depth with
  | zero =>
    intro state w rest done hsized hcomponents hinv hw hindex hdepth
    have hmem : w ∈ graph.unvisited state := Finset.mem_filter.2 ⟨Finset.mem_range.2 hw, hindex⟩
    exact absurd (Finset.card_pos.2 ⟨w, hmem⟩) (Nat.not_lt.2 hdepth)
  | succ depth ih =>
    intro state w rest done hsized hcomponents hinv hw hindex hdepth
    obtain ⟨state₁, henter, hsized₁, hnumbers₁, hcomponents₁⟩ := hsized.exists_enter hw
    rw [← hnumbers₁] at hinv
    have hfollows₁ : graph.Follows state₁ ((w, graph.outNeighbors w) :: rest) done :=
      ⟨hsized₁, hcomponents₁.trans hcomponents, hinv⟩
    have hkept₁ : ∀ x, state.numbers.index x ≠ none → state₁.numbers.index x ≠ none := by
      intro x hx
      rw [hnumbers₁]
      exact TarjanInv.index_enter_ne_none_iff.2 (.inr hx)
    have hw₁ : state₁.numbers.index w ≠ none := by
      rw [hnumbers₁]
      exact TarjanInv.index_enter_ne_none_iff.2 (.inl rfl)
    have hdepth₁ : (graph.unvisited state₁).card ≤ depth := by
      have hmem : w ∈ graph.unvisited state := Finset.mem_filter.2 ⟨Finset.mem_range.2 hw, hindex⟩
      have hnew : w ∉ graph.unvisited state₁ := fun h => hw₁ (Finset.mem_filter.1 h).2
      have hlt := Finset.card_lt_card (Finset.ssubset_iff_subset_ne.2
        ⟨unvisited_subset graph hkept₁, fun heq => hnew (heq ▸ hmem)⟩)
      omega
    obtain ⟨state₂, done₂, hfold, hfollows₂, hkept₂⟩ :=
      hgraph.exists_foldlM_look ih hfollows₁ hdepth₁
    obtain ⟨state', done', hfinish, hreturns, hsame⟩ := hgraph.exists_finish hfollows₂
    refine ⟨state', done', ?_, hreturns, fun x hx => ?_, ?_⟩
    · unfold visit
      simp only [henter, hfold, hfinish, Option.bind_eq_bind, Option.bind_some]
    · rw [hsame]
      exact hkept₂ x (hkept₁ x hx)
    · rw [hsame]
      exact hkept₂ w hw₁

/-! ## All nodes -/

theorem IsSnapshot.exists_foldlM_visitRoot (hgraph : graph.IsSnapshot) {nodes : List FuncId}
    (h : graph.Follows state [] done) (hnodes : ∀ r ∈ nodes, r < graph.nodes.length)
    (hdepth : (graph.unvisited state).card ≤ depth) :
    ∃ state' done', nodes.foldlM (graph.visitRoot depth) state = some state' ∧
      graph.Follows state' [] done' ∧
      (∀ x, state.numbers.index x ≠ none → state'.numbers.index x ≠ none) ∧
      ∀ r ∈ nodes, state'.numbers.index r ≠ none := by
  induction nodes generalizing state done with
  | nil => exact ⟨state, done, rfl, h, fun x hx => hx, fun r hr => absurd hr List.not_mem_nil⟩
  | cons r nodes ih =>
    have hr : r < graph.nodes.length := hnodes r List.mem_cons_self
    have hroot : ∃ state₁ done₁, graph.visitRoot depth state r = some state₁ ∧
        graph.Follows state₁ [] done₁ ∧
        (∀ x, state.numbers.index x ≠ none → state₁.numbers.index x ≠ none) ∧
        state₁.numbers.index r ≠ none := by
      unfold visitRoot
      simp only [numbers_index (h.sized.indexes.symm ▸ hr), Option.bind_eq_bind, Option.bind_some]
      cases hindex : state.numbers.index r with
      | none =>
        obtain ⟨state₁, done₁, hvisit, hreturns, hkept, hvisited⟩ :=
          hgraph.visits depth state r [] done h.sized h.components
            (h.inv.enter_root hindex (List.mem_range.2 hr)) hr hindex hdepth
        exact ⟨state₁, done₁, hvisit, ⟨hreturns.sized, hreturns.components, hreturns.inv⟩, hkept,
          hvisited⟩
      | some index =>
        refine ⟨state, done, rfl, h, fun x hx => hx, ?_⟩
        rw [hindex]
        exact Option.some_ne_none _
    obtain ⟨state₁, done₁, hvisit, hfollows, hkept, hvisited⟩ := hroot
    have hle := Finset.card_le_card (unvisited_subset graph hkept)
    obtain ⟨state', done', hfold, hfollows', hkept', hvisited'⟩ :=
      ih hfollows (fun r hr => hnodes r (List.mem_cons_of_mem _ hr)) (Nat.le_trans hle hdepth)
    refine ⟨state', done', ?_, hfollows', fun x hx => hkept' x (hkept x hx), ?_⟩
    · rw [List.foldlM_cons, hvisit]
      exact hfold
    · intro x hx
      cases List.mem_cons.1 hx with
      | inl heq => exact heq ▸ hkept' r hvisited
      | inr hx => exact hvisited' x hx

theorem follows_init (graph : GraphSnapshot) : graph.Follows (.init graph.nodes.length) [] [] where
  sized := by
    refine ⟨List.length_replicate, List.length_replicate, List.length_replicate, fun x hx => ?_⟩
    simp [Tarjan.init, hx]
  components := rfl
  inv := by
    have hnumbers : (Tarjan.init graph.nodes.length).numbers =
        ⟨fun _ => none, fun _ => 0, [], 0⟩ := by
      unfold Tarjan.init Tarjan.numbers
      congr 1
      · funext x
        rw [List.getElem?_replicate]
        split_ifs <;> rfl
      · funext x
        rw [List.getElem?_replicate]
        split_ifs <;> rfl
    rw [hnumbers]
    exact tarjanInv_init _ _ _

theorem pairwise_sortByFirst (components : List (List FuncId)) :
    (sortByFirst components).Pairwise fun C C' => C.headD 0 ≤ C'.headD 0 := by
  have hsorted : (sortByFirst components).Pairwise
      fun C C' => decide (C.headD 0 ≤ C'.headD 0) = true := by
    refine List.pairwise_mergeSort (fun C C' C'' h h' => ?_) (fun C C' => ?_) components
    · exact decide_eq_true (Nat.le_trans (of_decide_eq_true h) (of_decide_eq_true h'))
    · rw [Bool.or_eq_true, decide_eq_true_eq, decide_eq_true_eq]
      exact Nat.le_total _ _
  exact hsorted.imp of_decide_eq_true

/-- **The cycles of a snapshot**: the classes of mutual reachability that have more than one member
or a member that calls itself, in the order of their first members. -/
theorem IsSnapshot.exists_stronglyConnectedComponents_eq (hgraph : graph.IsSnapshot) :
    ∃ classes components, Components graph.outNeighbors (List.range graph.nodes.length) classes ∧
      (∀ C ∈ classes, C.Pairwise (· < ·)) ∧
      graph.stronglyConnectedComponents = some components ∧
      components.Perm (classes.filter graph.IsCycle) ∧
      components.Pairwise fun C C' => C.headD 0 ≤ C'.headD 0 := by
  have hcard : (graph.unvisited (.init graph.nodes.length)).card ≤ graph.nodes.length :=
    Nat.le_trans (Finset.card_filter_le _ _) (Nat.le_of_eq (Finset.card_range _))
  obtain ⟨state, done, hfold, hfollows, -, hvisited⟩ := hgraph.exists_foldlM_visitRoot
    graph.follows_init (fun r hr => List.mem_range.1 hr) hcard
  have hclasses := ((hfollows.inv.components hvisited).perm done.reverse_perm).map
    fun C => List.perm_insertionSort (· ≤ ·) C
  refine ⟨_, sortByFirst (graph.cycles done.reverse), hclasses, fun C hC => ?_, ?_, ?_, ?_⟩
  · obtain ⟨C', -, rfl⟩ := List.mem_map.1 hC
    have hnodup : (C'.insertionSort (· ≤ ·)).Nodup :=
      hclasses.nodup.sublist (List.sublist_flatten_of_mem hC)
    have hsorted : (C'.insertionSort (· ≤ ·)).Pairwise (· ≤ ·) := List.pairwise_insertionSort _ _
    exact (hsorted.and hnodup).imp fun h => Nat.lt_of_le_of_ne h.1 h.2
  · unfold stronglyConnectedComponents
    rw [hfold, ← hfollows.components]
    rfl
  · exact List.mergeSort_perm _ _
  · exact pairwise_sortByFirst _

/-- **The components are exact**, those of any graph that are found without recursion and those that
a snapshot finds for itself. -/
theorem components_exact {N : Type} [DecidableEq N] (edges : AList fun _ : N => List N)
    (toSccString : N → String) (nodes : List N) (hgraph : graph.IsSnapshot) :
    (∃ classes, Components (Analysis.successors edges) nodes classes ∧
      ∃ rounds, ∀ n, rounds ≤ n → Analysis.findSccs edges toSccString n nodes =
        some (classes.map fun C => .new (C.map toSccString))) ∧
    ∃ classes components, Components graph.outNeighbors (List.range graph.nodes.length) classes ∧
      (∀ C ∈ classes, C.Pairwise (· < ·)) ∧
      graph.stronglyConnectedComponents = some components ∧
      components.Perm (classes.filter graph.IsCycle) ∧
      components.Pairwise fun C C' => C.headD 0 ≤ C'.headD 0 :=
  ⟨Analysis.exists_findSccs_eq edges toSccString nodes,
    hgraph.exists_stronglyConnectedComponents_eq⟩

/-- Two nodes with edges both ways, and the graph of one call. -/
theorem components_exact_oneCall :
    (∃ classes, Components
      (Analysis.successors [⟨"a", ["b"]⟩, ⟨"b", ["a"]⟩].toAList) ["a"] classes) ∧
    (build .insertion (.preferring (entry (externalNode ("", "", "")))) ∅
      [oneCall]).stronglyConnectedComponents.isSome := by
  obtain ⟨⟨classes, hclasses, -⟩, _, components, -, -, hcomponents, -⟩ :=
    components_exact [⟨"a", ["b"]⟩, ⟨"b", ["a"]⟩].toAList id ["a"]
      (.build .insertion (.preferring (entry (externalNode ("", "", "")))) ∅ [oneCall])
  refine ⟨⟨classes, hclasses⟩, ?_⟩
  rw [hcomponents]
  rfl

end GraphSnapshot

end TldrCode.Store
