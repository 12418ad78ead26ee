import Mathlib.Algebra.BigOperators.Group.Finset.Basic
import Mathlib.Algebra.GroupWithZero.Nat
import Mathlib.Algebra.Order.BigOperators.Group.Finset
import Mathlib.Data.List.AList
import TldrCode.Graph.Tarjan

/-!
# Strongly connected components without recursion

`analysis/tarjan.rs`: Tarjan's algorithm with a work stack of nodes and the phases in which they
are. Below the top the work stack holds the open nodes, and what each of its entries does follows a
rule of the algorithm. The components that are found are the classes of mutual reachability
(`findSccs_components`).
-/

namespace TldrCode.Analysis

open Function (update)
open TldrCode.Graph

structure SCC where
  nodes : List String
  size : Nat
  edges : List (String × String)
  deriving DecidableEq, Repr

def SCC.new (nodes : List String) : SCC := ⟨nodes, nodes.length, []⟩

inductive TarjanPhase
  | entering
  | processingSuccessors
  | finishing
  deriving DecidableEq, Repr

structure NodeState where
  index : Nat
  lowlink : Nat
  onStack : Bool
  successorIdx : Nat
  deriving DecidableEq, Repr

def NodeState.new (index : Nat) : NodeState := ⟨index, index, true, 0⟩

/-- The variables of `find_sccs`. Both stacks begin with their tops. -/
structure SccSearch (N : Type) where
  indexCounter : Nat
  states : N → Option NodeState
  nodeStack : List N
  sccs : List SCC
  workStack : List (N × TarjanPhase)

variable {N : Type} [DecidableEq N]

section

variable (edges : AList fun _ : N => List N) (toSccString : N → String)

def successors (node : N) : List N := (edges.lookup node).getD []

namespace SccSearch

def init : SccSearch N := ⟨0, fun _ => none, [], [], []⟩

/-- The loop that takes a component from the stack. It panics if it does not find the node. -/
def popScc (node : N) : List N → (N → Option NodeState) →
    Option (List String × List N × (N → Option NodeState))
  | [], _ => none
  | w :: nodeStack, states => do
    let state ← states w
    let states := update states w (some { state with onStack := false })
    if w = node then return ([toSccString w], nodeStack, states)
    else
      let (members, nodeStack, states) ← popScc node nodeStack states
      return (toSccString w :: members, nodeStack, states)

/-- The phase `Entering` of a node. -/
def entering (node : N) (search : SccSearch N) : SccSearch N where
  indexCounter := search.indexCounter + 1
  states := update search.states node (some (.new search.indexCounter))
  nodeStack := node :: search.nodeStack
  sccs := search.sccs
  workStack := (node, .processingSuccessors) :: search.workStack

/-- What a node that has returned to the work stack does with its next successor. -/
def lookAt (node successor : N) (search : SccSearch N) : Option (SccSearch N) :=
  match search.states successor with
  | none => some { search with workStack := (successor, .entering) :: search.workStack }
  | some succState =>
    if succState.onStack then do
      let state ← search.states node
      let state := { state with lowlink := min state.lowlink succState.index }
      return { search with states := update search.states node (some state) }
    else some search

/-- The phase `ProcessingSuccessors` of a node. -/
def processingSuccessors (node : N) (search : SccSearch N) : Option (SccSearch N) := do
  let state ← search.states node
  match (successors edges node)[state.successorIdx]? with
  | some successor =>
    let state := { state with successorIdx := state.successorIdx + 1 }
    lookAt node successor { search with
      states := update search.states node (some state)
      workStack := (node, .processingSuccessors) :: search.workStack }
  | none => return { search with workStack := (node, .finishing) :: search.workStack }

/-- What a node that is finished leaves to the entry on top of the work stack. -/
def updateParent (node : N) (search : SccSearch N) : Option (SccSearch N) :=
  match search.workStack with
  | (parentNode, .processingSuccessors) :: _ => do
    let state ← search.states node
    let parentState ← search.states parentNode
    let parentState := { parentState with lowlink := min parentState.lowlink state.lowlink }
    return { search with states := update search.states parentNode (some parentState) }
  | _ => search

/-- The phase `Finishing` of a node. -/
def finishing (node : N) (search : SccSearch N) : Option (SccSearch N) := do
  let state ← search.states node
  if state.lowlink = state.index then
    let (sccNodes, nodeStack, states) ← popScc toSccString node search.nodeStack search.states
    updateParent node { search with nodeStack, states, sccs := search.sccs ++ [.new sccNodes] }
  else updateParent node search

/-- One round of the loop, for the entry that is taken from the work stack. -/
def round (node : N) (phase : TarjanPhase) (search : SccSearch N) : Option (SccSearch N) :=
  match phase with
  | .entering => search.entering node
  | .processingSuccessors => search.processingSuccessors edges node
  | .finishing => search.finishing toSccString node

/-- The loop over the work stack, for at most so many rounds. -/
def run : Nat → SccSearch N → Option (SccSearch N)
  | 0, _ => none
  | rounds + 1, search =>
    match search.workStack with
    | [] => search
    | (node, phase) :: workStack =>
      ({ search with workStack }.round edges toSccString node phase).bind (run rounds)

def start (rounds : Nat) (search : SccSearch N) (startNode : N) : Option (SccSearch N) :=
  if (search.states startNode).isSome then search
  else
    run edges toSccString rounds
      { search with workStack := (startNode, .entering) :: search.workStack }

end SccSearch

/-- `find_sccs`, with a bound of the rounds of each loop over the work stack. -/
def findSccs (rounds : Nat) (nodes : List N) : Option (List SCC) := do
  let search ← nodes.foldlM (SccSearch.start edges toSccString rounds) .init
  return search.sccs

end

namespace SccSearch

variable {edges : AList fun _ : N => List N} {toSccString : N → String} {roots : List N}
  {search : SccSearch N} {states : N → Option NodeState} {nodeStack : List N}
  {frames rest : List (N × List N)} {done : List (List N)} {v w x : N} {ws : List N}
  {state state' : NodeState} {sccs : List SCC} {count : Nat} {search' : SccSearch N}
  {top under : List N} {nodes : List N}

/-! ## Numbers -/

/-- The numbers that the states of the nodes hold. -/
def numbers (states : N → Option NodeState) (nodeStack : List N) (count : Nat) : TarjanState N where
  index x := (states x).map (·.index)
  low x := ((states x).map (·.lowlink)).getD 0
  stack := nodeStack
  count := count

omit [DecidableEq N] in
theorem num_numbers (h : states x = some state) :
    (numbers states nodeStack count).num x = state.index := by
  simp [TarjanState.num, numbers, h]

omit [DecidableEq N] in
theorem low_numbers (h : states x = some state) :
    (numbers states nodeStack count).low x = state.lowlink := by
  simp [numbers, h]

omit [DecidableEq N] in
theorem index_numbers_eq_none : (numbers states nodeStack count).index x = none ↔
    states x = none := by
  simp [numbers]

theorem numbers_new : numbers (update states w (some (.new count))) (w :: nodeStack) (count + 1) =
    (numbers states nodeStack count).enter w := by
  unfold numbers TarjanState.enter
  congr 1
  · funext x
    simp only [Function.update_apply]
    split_ifs <;> rfl
  · funext x
    simp only [Function.update_apply]
    split_ifs <;> rfl

theorem numbers_update (hv : states v = some state) (hindex : state'.index = state.index) :
    numbers (update states v (some state')) nodeStack count =
      { numbers states nodeStack count with
        low := update (numbers states nodeStack count).low v state'.lowlink } := by
  unfold numbers
  congr 1
  · funext x
    simp only [Function.update_apply]
    split_ifs with heq
    · subst heq
      simp [hv, hindex]
    · rfl
  · funext x
    simp only [Function.update_apply]
    split_ifs <;> rfl

theorem numbers_update_eq_self (hv : states v = some state) (hindex : state'.index = state.index)
    (hlow : state'.lowlink = state.lowlink) :
    numbers (update states v (some state')) nodeStack count = numbers states nodeStack count := by
  rw [numbers_update hv hindex, hlow, ← low_numbers hv, Function.update_eq_self]

theorem numbers_update_min {n : Nat} (hv : states v = some state)
    (hindex : state'.index = state.index) (hlow : state'.lowlink = min state.lowlink n) :
    numbers (update states v (some state')) nodeStack count =
      (numbers states nodeStack count).lower v n := by
  rw [numbers_update hv hindex, hlow, ← low_numbers hv]
  rfl

/-! ## Following the algorithm -/

/-- What the states of the nodes say of the open nodes `frames`, and what has been found. -/
structure Keeps (edges : AList fun _ : N => List N) (toSccString : N → String)
    (states : N → Option NodeState) (nodeStack : List N) (sccs : List SCC)
    (frames : List (N × List N)) (done : List (List N)) : Prop where
  todo : ∀ v ws, (v, ws) ∈ frames → ∃ state, states v = some state ∧
    ws = (successors edges v).drop state.successorIdx
  onStack : ∀ x state, states x = some state → (state.onStack = true ↔ x ∈ nodeStack)
  sccs : sccs = done.reverse.map fun C => .new (C.map toSccString)

/-- The entries of the work stack for open nodes. -/
def entries (frames : List (N × List N)) : List (N × TarjanPhase) :=
  frames.map fun frame => (frame.1, .processingSuccessors)

structure Follows (edges : AList fun _ : N => List N) (toSccString : N → String) (roots : List N)
    (search : SccSearch N) (frames : List (N × List N)) (done : List (List N)) : Prop where
  keeps : Keeps edges toSccString search.states search.nodeStack search.sccs frames done
  inv : TarjanInv (successors edges) roots
    (numbers search.states search.nodeStack search.indexCounter) frames done
  work : search.workStack = entries frames

omit [DecidableEq N] in
theorem ne_of_mem_rest {tarjan : TarjanState N} {succ : N → List N}
    (h : TarjanInv succ roots tarjan ((v, ws) :: rest) done) {u : N} {us : List N}
    (hu : (u, us) ∈ rest) : u ≠ v := by
  rintro rfl
  exact Nat.lt_irrefl _ (h.num_lt_top (List.mem_map.2 ⟨_, hu, rfl⟩))

theorem update_eq_none_iff (hv : states v = some state) :
    update states v (some state') x = none ↔ states x = none := by
  by_cases heq : x = v
  · subst heq
    simp [hv]
  · rw [Function.update_of_ne heq]

theorem onStack_update
    (h : ∀ x state, states x = some state → (state.onStack = true ↔ x ∈ nodeStack))
    (hv : states v = some state) (honStack : state'.onStack = state.onStack) (x : N)
    (xstate : NodeState) (hx : update states v (some state') x = some xstate) :
    xstate.onStack = true ↔ x ∈ nodeStack := by
  by_cases heq : x = v
  · subst heq
    rw [Function.update_self] at hx
    cases hx
    rw [honStack, h x state hv]
  · rw [Function.update_of_ne heq] at hx
    exact h x xstate hx

namespace Keeps

theorem exists_state (h : Keeps edges toSccString states nodeStack sccs frames done)
    (hv : Open frames v) : ∃ state, states v = some state := by
  obtain ⟨⟨_, us⟩, hu, rfl⟩ := List.mem_map.1 hv
  obtain ⟨state, hstate, -⟩ := h.todo _ us hu
  exact ⟨state, hstate⟩

theorem getElem?_successors
    (h : Keeps edges toSccString states nodeStack sccs ((v, ws) :: rest) done)
    (hv : states v = some state) : (successors edges v)[state.successorIdx]? = ws.head? := by
  obtain ⟨_, hstate, hdrop⟩ := h.todo v ws List.mem_cons_self
  cases hv.symm.trans hstate
  rw [hdrop, List.head?_drop]

theorem update_lowlink (h : Keeps edges toSccString states nodeStack sccs frames done)
    (hv : states v = some state) (honStack : state'.onStack = state.onStack)
    (hidx : state'.successorIdx = state.successorIdx) :
    Keeps edges toSccString (update states v (some state')) nodeStack sccs frames done where
  todo u us hu := by
    obtain ⟨ustate, hustate, hus⟩ := h.todo u us hu
    by_cases heq : u = v
    · subst heq
      cases hv.symm.trans hustate
      exact ⟨state', Function.update_self .., by rw [hidx, hus]⟩
    · exact ⟨ustate, (Function.update_of_ne heq ..).trans hustate, hus⟩
  onStack := onStack_update h.onStack hv honStack
  sccs := h.sccs

theorem next (h : Keeps edges toSccString states nodeStack sccs ((v, w :: ws) :: rest) done)
    (hne : ∀ u us, (u, us) ∈ rest → u ≠ v) (hv : states v = some state) :
    Keeps edges toSccString
      (update states v (some { state with successorIdx := state.successorIdx + 1 })) nodeStack sccs
      ((v, ws) :: rest) done where
  todo u us hu := by
    cases List.mem_cons.1 hu with
    | inl heq =>
      cases heq
      obtain ⟨_, hstate, hdrop⟩ := h.todo v (w :: ws) List.mem_cons_self
      cases hv.symm.trans hstate
      refine ⟨_, Function.update_self .., ?_⟩
      rw [← List.tail_drop, ← hdrop, List.tail_cons]
    | inr hu =>
      obtain ⟨ustate, hustate, hus⟩ := h.todo u us (List.mem_cons_of_mem _ hu)
      exact ⟨ustate, (Function.update_of_ne (hne u us hu) ..).trans hustate, hus⟩
  onStack := onStack_update h.onStack hv rfl
  sccs := h.sccs

theorem tail (h : Keeps edges toSccString states nodeStack sccs ((v, ws) :: rest) done) :
    Keeps edges toSccString states nodeStack sccs rest done where
  todo u us hu := h.todo u us (List.mem_cons_of_mem _ hu)
  onStack := h.onStack
  sccs := h.sccs

theorem enter (h : Keeps edges toSccString states nodeStack sccs frames done)
    (hw : states w = none) :
    Keeps edges toSccString (update states w (some (.new count))) (w :: nodeStack) sccs
      ((w, successors edges w) :: frames) done where
  todo u us hu := by
    cases List.mem_cons.1 hu with
    | inl heq =>
      cases heq
      exact ⟨_, Function.update_self .., List.drop_zero.symm⟩
    | inr hu =>
      obtain ⟨ustate, hustate, hus⟩ := h.todo u us hu
      refine ⟨ustate, (Function.update_of_ne ?_ ..).trans hustate, hus⟩
      rintro rfl
      cases hw.symm.trans hustate
  onStack x xstate hx := by
    rw [List.mem_cons]
    by_cases heq : x = w
    · subst heq
      rw [Function.update_self] at hx
      cases hx
      simp [NodeState.new]
    · rw [Function.update_of_ne heq] at hx
      simpa [heq] using h.onStack x xstate hx
  sccs := h.sccs

end Keeps

/-- **The next successor** of the open node on top is looked at. -/
theorem Follows.processingSuccessors_cons
    (h : Follows edges toSccString roots search ((v, w :: ws) :: rest) done) :
    ∃ search', processingSuccessors edges v { search with workStack := entries rest } =
        lookAt v w search' ∧
      search'.workStack = entries ((v, ws) :: rest) ∧
      Keeps edges toSccString search'.states search'.nodeStack search'.sccs ((v, ws) :: rest) done ∧
      TarjanInv (successors edges) roots
        (numbers search'.states search'.nodeStack search'.indexCounter) ((v, w :: ws) :: rest)
          done ∧
      ∀ x, search'.states x = none ↔ search.states x = none := by
  obtain ⟨state, hv⟩ := h.keeps.exists_state TarjanInv.open_top
  have hsuccessor : (successors edges v)[state.successorIdx]? = some w :=
    h.keeps.getElem?_successors hv
  have hsame : numbers (update search.states v
      (some { state with successorIdx := state.successorIdx + 1 })) search.nodeStack
      search.indexCounter = numbers search.states search.nodeStack search.indexCounter :=
    numbers_update_eq_self hv rfl rfl
  unfold processingSuccessors
  simp only [hv, hsuccessor, Option.bind_eq_bind, Option.bind_some]
  exact ⟨_, rfl, rfl, h.keeps.next (fun u us => ne_of_mem_rest h.inv) hv, hsame ▸ h.inv,
    fun x => update_eq_none_iff hv⟩

theorem lookAt_unvisited (hw : search.states w = none) : lookAt v w search =
    some { search with workStack := (w, .entering) :: search.workStack } := by
  unfold lookAt
  rw [hw]

/-- **A successor that is visited.** -/
theorem Keeps.lookAt_visited
    (h : Keeps edges toSccString search.states search.nodeStack search.sccs ((v, ws) :: rest) done)
    (hinv : TarjanInv (successors edges) roots
      (numbers search.states search.nodeStack search.indexCounter) ((v, w :: ws) :: rest) done)
    (hwork : search.workStack = entries ((v, ws) :: rest)) (hw : search.states w ≠ none) :
    ∃ search', lookAt v w search = some search' ∧
      Follows edges toSccString roots search' ((v, ws) :: rest) done ∧
      ∀ x, search'.states x = none ↔ search.states x = none := by
  obtain ⟨state, hv⟩ := h.exists_state TarjanInv.open_top
  obtain ⟨wstate, hwstate⟩ := Option.ne_none_iff_exists'.1 hw
  have hindex : (numbers search.states search.nodeStack search.indexCounter).index w ≠ none :=
    index_numbers_eq_none.not.2 hw
  have honStack := h.onStack w wstate hwstate
  unfold lookAt
  rw [hwstate]
  dsimp only [Option.bind_eq_bind]
  cases hon : wstate.onStack with
  | false =>
    rw [hon] at honStack
    rw [if_neg Bool.false_ne_true]
    refine ⟨search, rfl, ⟨h, hinv.advance hindex fun hmem => ?_, hwork⟩, fun x => Iff.rfl⟩
    exact absurd (honStack.2 hmem) Bool.false_ne_true
  | true =>
    have hmem : w ∈ search.nodeStack := honStack.1 hon
    have hnumbers : numbers (update search.states v
        (some { state with lowlink := min state.lowlink wstate.index })) search.nodeStack
        search.indexCounter =
        (numbers search.states search.nodeStack search.indexCounter).lower v wstate.index :=
      numbers_update_min hv rfl rfl
    have hlower := hinv.lower_next hmem
    rw [num_numbers hwstate] at hlower
    rw [if_pos rfl, hv, Option.bind_some]
    exact ⟨_, rfl, ⟨h.update_lowlink hv rfl rfl, hnumbers ▸ hlower, hwork⟩,
      fun x => update_eq_none_iff hv⟩

/-- **A node is entered** that is not visited. -/
theorem Keeps.entering
    (h : Keeps edges toSccString search.states search.nodeStack search.sccs frames done)
    (hinv : TarjanInv (successors edges) roots
      ((numbers search.states search.nodeStack search.indexCounter).enter w)
      ((w, successors edges w) :: frames) done)
    (hwork : search.workStack = entries frames) (hw : search.states w = none) :
    Follows edges toSccString roots (search.entering w) ((w, successors edges w) :: frames)
      done where
  keeps := h.enter hw
  inv := by
    unfold SccSearch.entering
    dsimp only
    rw [numbers_new]
    exact hinv
  work := by
    unfold SccSearch.entering
    dsimp only
    rw [hwork]
    rfl

/-! ## Components -/

def taken (members : List N) (states : N → Option NodeState) (x : N) : Option NodeState :=
  if x ∈ members then (states x).map fun state => { state with onStack := false } else states x

theorem popScc_append (hv : v ∉ top) (hstates : ∀ x ∈ top ++ [v], states x ≠ none) :
    popScc toSccString v (top ++ v :: under) states =
      some ((top ++ [v]).map toSccString, under, taken (top ++ [v]) states) := by
  induction top generalizing states with
  | nil =>
    obtain ⟨state, hstate⟩ := Option.ne_none_iff_exists'.1 (hstates v List.mem_cons_self)
    have htaken : update states v (some { state with onStack := false }) = taken [v] states := by
      funext x
      unfold taken
      by_cases heq : x = v
      · subst heq
        simp [hstate]
      · rw [Function.update_of_ne heq, if_neg (by simpa using heq)]
    simp only [List.nil_append, popScc, hstate, Option.bind_eq_bind, Option.bind_some, if_true,
      htaken, List.map_cons, List.map_nil, Option.pure_def]
  | cons w top ih =>
    have hne : w ≠ v := (List.ne_of_not_mem_cons hv).symm
    have hvtop : v ∉ top := List.not_mem_of_not_mem_cons hv
    obtain ⟨state, hstate⟩ := Option.ne_none_iff_exists'.1 (hstates w List.mem_cons_self)
    have hnext : ∀ x ∈ top ++ [v],
        update states w (some { state with onStack := false }) x ≠ none := fun x hx =>
      (update_eq_none_iff hstate).not.2 (hstates x (List.mem_cons_of_mem w hx))
    have htaken : taken (top ++ [v]) (update states w (some { state with onStack := false })) =
        taken (w :: top ++ [v]) states := by
      funext x
      unfold taken
      by_cases heq : x = w
      · subst heq
        simp [hstate]
      · simp [heq]
    simp only [List.cons_append, popScc, hstate, Option.bind_eq_bind, Option.bind_some,
      if_neg hne, ih hvtop hnext, htaken, List.map_cons, Option.pure_def]

theorem numbers_taken (members : List N) :
    numbers (taken members states) nodeStack count = numbers states nodeStack count := by
  unfold numbers taken
  congr 1
  · funext x
    split_ifs
    · rw [Option.map_map]
      rfl
    · rfl
  · funext x
    split_ifs
    · rw [Option.map_map]
      rfl
    · rfl

theorem taken_eq_none_iff {members : List N} : taken members states x = none ↔
    states x = none := by
  unfold taken
  split_ifs
  · exact Option.map_eq_none_iff
  · rfl

theorem Keeps.taken
    (h : Keeps edges toSccString states (top ++ v :: under) sccs ((v, []) :: rest) done)
    (hnodup : (top ++ v :: under).Nodup) :
    Keeps edges toSccString (taken (top ++ [v]) states) under
      (sccs ++ [.new ((top ++ [v]).map toSccString)]) rest ((top ++ [v]) :: done) where
  todo u us hu := by
    obtain ⟨ustate, hustate, hus⟩ := h.todo u us (List.mem_cons_of_mem _ hu)
    unfold SccSearch.taken
    split_ifs
    · exact ⟨_, congrArg (Option.map _) hustate, hus⟩
    · exact ⟨ustate, hustate, hus⟩
  onStack x xstate hx := by
    rw [List.append_cons, List.nodup_append] at hnodup
    unfold SccSearch.taken at hx
    split_ifs at hx with hmem
    · obtain ⟨state, -, rfl⟩ := Option.map_eq_some_iff.1 hx
      refine iff_of_false Bool.false_ne_true fun hunder => ?_
      exact hnodup.2.2 x hmem x hunder rfl
    · rw [h.onStack x xstate hx, List.append_cons, List.mem_append]
      exact or_iff_right hmem
  sccs := by
    rw [h.sccs, List.reverse_cons]
    simp

theorem Keeps.updateParent
    (h : Keeps edges toSccString search.states search.nodeStack search.sccs rest done)
    (hinv : TarjanInv (successors edges) roots
      ((numbers search.states search.nodeStack search.indexCounter).back v rest) rest done)
    (hv : search.states v = some state) (hwork : search.workStack = entries rest) :
    ∃ search', updateParent v search = some search' ∧
      Follows edges toSccString roots search' rest done ∧
      ∀ x, search'.states x = none ↔ search.states x = none := by
  cases rest with
  | nil =>
    refine ⟨search, ?_, ⟨h, hinv, hwork⟩, fun x => Iff.rfl⟩
    unfold SccSearch.updateParent
    rw [hwork]
    rfl
  | cons frame rest =>
    obtain ⟨p, ps⟩ := frame
    obtain ⟨pstate, hp⟩ := h.exists_state TarjanInv.open_top
    have hnumbers : numbers (update search.states p
        (some { pstate with lowlink := min pstate.lowlink state.lowlink })) search.nodeStack
        search.indexCounter =
        (numbers search.states search.nodeStack search.indexCounter).back v ((p, ps) :: rest) := by
      rw [TarjanState.back, low_numbers hv]
      exact numbers_update_min hp rfl rfl
    unfold SccSearch.updateParent
    simp only [hwork, entries, List.map_cons, hv, hp, Option.bind_eq_bind, Option.bind_some]
    exact ⟨_, rfl, ⟨h.update_lowlink hp rfl rfl, hnumbers ▸ hinv, rfl⟩,
      fun x => update_eq_none_iff hp⟩

/-- **A node is finished.** -/
theorem Follows.finishing (h : Follows edges toSccString roots search ((v, []) :: rest) done) :
    ∃ search' done', finishing toSccString v { search with workStack := entries rest } =
        some search' ∧
      Follows edges toSccString roots search' rest done' ∧
      ∀ x, search'.states x = none ↔ search.states x = none := by
  obtain ⟨state, hv⟩ := h.keeps.exists_state TarjanInv.open_top
  have hnum : (numbers search.states search.nodeStack search.indexCounter).num v = state.index :=
    num_numbers hv
  have hlow : (numbers search.states search.nodeStack search.indexCounter).low v =
      state.lowlink := low_numbers hv
  have hle := h.inv.low_le v TarjanInv.open_top
  rw [hnum, hlow] at hle
  unfold SccSearch.finishing
  simp only [hv, Option.bind_eq_bind, Option.bind_some]
  by_cases hroot : state.lowlink = state.index
  · have hmem : v ∈ search.nodeStack := h.inv.mem_stack_of_open TarjanInv.open_top
    obtain ⟨top, under, hstack⟩ := List.append_of_mem hmem
    have hnodup : search.nodeStack.Nodup := h.inv.nodup_stack
    have hstates : ∀ x ∈ top ++ [v], search.states x ≠ none := by
      intro x hx
      refine index_numbers_eq_none.not.1 ((h.inv.visited x).2 (.inl ?_))
      show x ∈ search.nodeStack
      rw [hstack, List.append_cons]
      exact List.mem_append_left _ hx
    have hkeeps := h.keeps
    rw [hstack] at hkeeps hnodup
    have hvtop : v ∉ top := fun hx => (List.nodup_append.1 hnodup).2.2 v hx v List.mem_cons_self rfl
    have hinv := h.inv.pop_back (hlow.trans (hroot.trans hnum.symm)) hstack
    rw [if_pos hroot, hstack, popScc_append hvtop hstates]
    rw [← numbers_taken (top ++ [v])] at hinv
    have hvtaken : taken (top ++ [v]) search.states v = some { state with onStack := false } := by
      simp [SccSearch.taken, hv]
    let search₁ : SccSearch N := ⟨search.indexCounter, taken (top ++ [v]) search.states, under,
      search.sccs ++ [.new ((top ++ [v]).map toSccString)], entries rest⟩
    have hkeeps₁ : Keeps edges toSccString search₁.states search₁.nodeStack search₁.sccs rest
        ((top ++ [v]) :: done) := hkeeps.taken hnodup
    obtain ⟨search', hsearch', hfollows, hnone⟩ := hkeeps₁.updateParent hinv hvtaken rfl
    exact ⟨search', _, hsearch', hfollows, fun x => (hnone x).trans taken_eq_none_iff⟩
  · have hlt : state.lowlink < state.index := Nat.lt_of_le_of_ne hle hroot
    have hinv := h.inv.close_back (by rw [hnum, hlow]; exact hlt)
    let search₁ : SccSearch N := { search with workStack := entries rest }
    have hkeeps₁ : Keeps edges toSccString search₁.states search₁.nodeStack search₁.sccs rest
        done := h.keeps.tail
    obtain ⟨search', hsearch', hfollows, hnone⟩ := hkeeps₁.updateParent hinv hv rfl
    rw [if_neg hroot]
    exact ⟨search', _, hsearch', hfollows, hnone⟩

/-! ## Rounds -/

/-- The rounds that the nodes still take that are not visited. -/
def remaining (edges : AList fun _ : N => List N) (U : Finset N) (states : N → Option NodeState) :
    Nat := ∑ x ∈ U with states x = none, ((successors edges x).length + 2)

/-- The rounds that the open nodes still take. -/
def openRounds (frames : List (N × List N)) : Nat :=
  (frames.map fun frame => frame.2.length + 1).sum

theorem entering_ne_none (hx : search.states x ≠ none) : (search.entering w).states x ≠ none := by
  unfold SccSearch.entering
  dsimp only
  rw [Function.update_apply]
  split_ifs
  · exact Option.some_ne_none _
  · exact hx

theorem entering_self_ne_none : (search.entering w).states w ≠ none := by
  unfold SccSearch.entering
  dsimp only
  rw [Function.update_self]
  exact Option.some_ne_none _

theorem remaining_entering (edges : AList fun _ : N => List N) {U : Finset N}
    (hw : search.states w = none) (hU : w ∈ U) :
    remaining edges U (search.entering w).states + ((successors edges w).length + 2) =
      remaining edges U search.states := by
  have herase : U.filter (fun x => (search.entering w).states x = none) =
      (U.filter fun x => search.states x = none).erase w := by
    ext x
    unfold SccSearch.entering
    simp only [Finset.mem_filter, Finset.mem_erase, Function.update_apply]
    split_ifs with heq <;> simp [heq]
  unfold remaining
  rw [herase]
  exact Finset.sum_erase_add _ _ (Finset.mem_filter.2 ⟨hU, hw⟩)

theorem remaining_congr {U : Finset N} {states' : N → Option NodeState}
    (h : ∀ x, states' x = none ↔ states x = none) :
    remaining edges U states' = remaining edges U states := by
  unfold remaining
  simp only [h]

theorem run_succ {node : N} {phase : TarjanPhase} {workStack : List (N × TarjanPhase)}
    (hwork : search.workStack = (node, phase) :: workStack) (rounds : Nat) :
    run edges toSccString (rounds + 1) search =
      ({ search with workStack }.round edges toSccString node phase).bind
        (run edges toSccString rounds) := by
  rw [run, hwork]

/-- At most two rounds bring the search nearer to its end. -/
def Advances (edges : AList fun _ : N => List N) (toSccString : N → String) (roots : List N)
    (U : Finset N) (search : SccSearch N) (frames : List (N × List N)) : Prop :=
  ∃ rounds search' frames' done', 0 < rounds ∧ rounds ≤ 2 ∧
    (∀ n, run edges toSccString (n + rounds) search = run edges toSccString n search') ∧
    Follows edges toSccString roots search' frames' done' ∧
    (∀ x, search.states x ≠ none → search'.states x ≠ none) ∧
    openRounds frames' + remaining edges U search'.states <
      openRounds frames + remaining edges U search.states

theorem Follows.run_succ (h : Follows edges toSccString roots search ((v, ws) :: rest) done)
    (rounds : Nat) : run edges toSccString (rounds + 1) search =
      (processingSuccessors edges v { search with workStack := entries rest }).bind
        (run edges toSccString rounds) := SccSearch.run_succ h.work rounds

/-- **A node is left** that has looked at its successors. -/
theorem Follows.advances_nil {U : Finset N}
    (h : Follows edges toSccString roots search ((v, []) :: rest) done) :
    Advances edges toSccString roots U search ((v, []) :: rest) := by
  obtain ⟨state, hv⟩ := h.keeps.exists_state TarjanInv.open_top
  obtain ⟨search', done', hfinishing, hfollows, hnone⟩ := h.finishing
  have hround : ({ search with workStack := entries rest }).processingSuccessors edges v =
      some { search with workStack := (v, .finishing) :: entries rest } := by
    unfold processingSuccessors
    simp only [hv, Option.bind_eq_bind, Option.bind_some, h.keeps.getElem?_successors hv]
    rfl
  refine ⟨2, search', rest, done', Nat.two_pos, Nat.le_refl _, fun n => ?_, hfollows,
    fun x hx => (hnone x).not.2 hx, ?_⟩
  · rw [h.run_succ, hround, Option.bind_some, SccSearch.run_succ rfl]
    exact congrArg (Option.bind · (run edges toSccString n)) hfinishing
  · rw [remaining_congr hnone]
    simp [openRounds]

/-- **A node looks at its next successor.** -/
theorem Follows.advances_cons {U : Finset N}
    (h : Follows edges toSccString roots search ((v, w :: ws) :: rest) done)
    (hU : ∀ x, ∀ y ∈ successors edges x, y ∈ U) :
    Advances edges toSccString roots U search ((v, w :: ws) :: rest) := by
  obtain ⟨search₁, hround, hwork, hkeeps, hinv, hnone⟩ := h.processingSuccessors_cons
  by_cases hw : search₁.states w = none
  · have hnew : w ∈ U := hU v w (h.inv.pending v w
      (TarjanInv.pending_cons_iff.2 (.inl ⟨rfl, List.mem_cons_self⟩)))
    have hfollows := hkeeps.entering (hinv.enter_next (index_numbers_eq_none.2 hw)) hwork hw
    refine ⟨2, search₁.entering w, _, done, Nat.two_pos, Nat.le_refl _, fun n => ?_, hfollows,
      fun x hx => ?_, ?_⟩
    · rw [h.run_succ, hround, lookAt_unvisited hw, Option.bind_some, SccSearch.run_succ rfl]
      rfl
    · exact entering_ne_none ((hnone x).not.2 hx)
    · have hremaining := remaining_entering edges hw hnew
      rw [remaining_congr hnone] at hremaining
      simp only [openRounds, List.map_cons, List.sum_cons, List.length_cons]
      omega
  · obtain ⟨search', hlook, hfollows, hnone'⟩ := hkeeps.lookAt_visited hinv hwork hw
    refine ⟨1, search', _, done, Nat.one_pos, Nat.le_succ 1, fun n => ?_, hfollows,
      fun x hx => ?_, ?_⟩
    · rw [h.run_succ, hround, hlook]
      rfl
    · exact (hnone' x).not.2 ((hnone x).not.2 hx)
    · rw [remaining_congr hnone', remaining_congr hnone]
      simp only [openRounds, List.map_cons, List.sum_cons, List.length_cons]
      omega

section

variable {U : Finset N} (hU : ∀ x, ∀ y ∈ successors edges x, y ∈ U) {rounds : Nat}
include hU

/-- **The loop ends** and leaves no open node. -/
theorem Follows.run_eq_some (h : Follows edges toSccString roots search frames done)
    (hrounds : 2 * (openRounds frames + remaining edges U search.states) + 1 ≤ rounds) :
    ∃ search' done', run edges toSccString rounds search = some search' ∧
      Follows edges toSccString roots search' [] done' ∧
      (∀ x, search.states x ≠ none → search'.states x ≠ none) ∧
      remaining edges U search'.states ≤ openRounds frames + remaining edges U search.states := by
  induction rounds using Nat.strong_induction_on generalizing search frames done with
  | _ rounds ih =>
  cases frames with
  | nil =>
    obtain ⟨rounds, rfl⟩ := Nat.exists_eq_add_of_le' (Nat.le_trans (Nat.le_add_left 1 _) hrounds)
    refine ⟨search, done, ?_, h, fun x hx => hx, Nat.le_add_left _ _⟩
    rw [run, h.work]
    rfl
  | cons frame rest =>
    have hadvances : Advances edges toSccString roots U search (frame :: rest) := by
      obtain ⟨v, ws⟩ := frame
      cases ws with
      | nil => exact h.advances_nil
      | cons w ws => exact h.advances_cons hU
    obtain ⟨k, search₁, frames₁, done₁, hpos, hk, hrun, hfollows, hkept, hlt⟩ := hadvances
    obtain ⟨n, rfl⟩ : ∃ n, rounds = n + k := ⟨rounds - k, by omega⟩
    obtain ⟨search', done', hsearch', hfollows', hkept', hle⟩ := ih n (by omega) hfollows (by omega)
    refine ⟨search', done', (hrun n).trans hsearch', hfollows',
      fun x hx => hkept' x (hkept x hx), ?_⟩
    omega

/-- **A search from one node** ends and leaves no open node. -/
theorem Follows.start_eq_some (h : Follows edges toSccString roots search [] done)
    (hroot : w ∈ roots) (hw : w ∈ U) (hrounds : 2 * remaining edges U search.states ≤ rounds) :
    ∃ search' done', start edges toSccString rounds search w = some search' ∧
      Follows edges toSccString roots search' [] done' ∧
      (∀ x, search.states x ≠ none → search'.states x ≠ none) ∧ search'.states w ≠ none ∧
      remaining edges U search'.states ≤ remaining edges U search.states := by
  unfold start
  cases hstate : search.states w with
  | some state =>
    refine ⟨search, done, rfl, h, fun x hx => hx, ?_, Nat.le_refl _⟩
    rw [hstate]
    exact Option.some_ne_none _
  | none =>
    have hfollows := h.keeps.entering (h.inv.enter_root (index_numbers_eq_none.2 hstate) hroot)
      h.work hstate
    have hremaining := remaining_entering edges hstate hw
    have hopen : openRounds [(w, successors edges w)] = (successors edges w).length + 1 := rfl
    obtain ⟨n, rfl⟩ : ∃ n, rounds = n + 1 := ⟨rounds - 1, by omega⟩
    have hn : 2 * (openRounds [(w, successors edges w)] +
        remaining edges U (search.entering w).states) + 1 ≤ n := by omega
    obtain ⟨search', done', hrun, hfollows', hkept, hle⟩ := hfollows.run_eq_some hU hn
    refine ⟨search', done', ?_, hfollows', fun x hx => hkept x (entering_ne_none hx),
      hkept w entering_self_ne_none, by omega⟩
    rw [if_neg (by simp), SccSearch.run_succ rfl]
    exact hrun

theorem Follows.foldlM_start_eq_some (h : Follows edges toSccString roots search [] done)
    (hroots : ∀ r ∈ nodes, r ∈ roots ∧ r ∈ U)
    (hrounds : 2 * remaining edges U search.states ≤ rounds) :
    ∃ search' done', nodes.foldlM (start edges toSccString rounds) search = some search' ∧
      Follows edges toSccString roots search' [] done' ∧
      (∀ x, search.states x ≠ none → search'.states x ≠ none) ∧
      ∀ r ∈ nodes, search'.states r ≠ none := by
  induction nodes generalizing search done with
  | nil => exact ⟨search, done, rfl, h, fun x hx => hx, fun r hr => absurd hr List.not_mem_nil⟩
  | cons r nodes ih =>
    obtain ⟨hroot, hr⟩ := hroots r List.mem_cons_self
    obtain ⟨search₁, done₁, hstart, hfollows, hkept, hvisited, hle⟩ :=
      h.start_eq_some hU hroot hr hrounds
    obtain ⟨search', done', hfold, hfollows', hkept', hvisited'⟩ :=
      ih hfollows (fun r hr => hroots r (List.mem_cons_of_mem _ hr)) (by omega)
    refine ⟨search', done', ?_, hfollows', fun x hx => hkept' x (hkept x hx), ?_⟩
    · rw [List.foldlM_cons, hstart]
      exact hfold
    · rintro x (_ | ⟨_, hx⟩)
      · exact hkept' r hvisited
      · exact hvisited' x hx

end

theorem run_mono {n m : Nat} (hle : n ≤ m) (h : run edges toSccString n search = some search') :
    run edges toSccString m search = some search' := by
  induction n generalizing m search with
  | zero => cases h
  | succ n ih =>
    obtain ⟨m, rfl⟩ : ∃ k, m = k + 1 := ⟨m - 1, by omega⟩
    unfold run at h ⊢
    cases hwork : search.workStack with
    | nil =>
      rw [hwork] at h
      exact h
    | cons entry workStack =>
      rw [hwork] at h
      obtain ⟨search₁, hround, hrun⟩ := Option.bind_eq_some_iff.1 h
      exact Option.bind_eq_some_iff.2 ⟨search₁, hround, ih (Nat.le_of_succ_le_succ hle) hrun⟩

theorem foldlM_start_mono {n m : Nat} (hle : n ≤ m)
    (h : nodes.foldlM (start edges toSccString n) search = some search') :
    nodes.foldlM (start edges toSccString m) search = some search' := by
  induction nodes generalizing search with
  | nil => exact h
  | cons r nodes ih =>
    rw [List.foldlM_cons] at h ⊢
    obtain ⟨search₁, hstart, hfold⟩ := Option.bind_eq_some_iff.1 h
    refine Option.bind_eq_some_iff.2 ⟨search₁, ?_, ih hfold⟩
    unfold start at hstart ⊢
    split_ifs at hstart ⊢ with hstate
    · exact hstart
    · exact run_mono hle hstart

end SccSearch

def graphNodes (edges : AList fun _ : N => List N) (nodes : List N) : Finset N :=
  (nodes ++ edges.entries.flatMap (·.2)).toFinset

theorem mem_graphNodes_of_mem_successors {edges : AList fun _ : N => List N} {x y : N}
    (nodes : List N) (hy : y ∈ successors edges x) : y ∈ graphNodes edges nodes := by
  unfold successors at hy
  cases hlookup : edges.lookup x with
  | none =>
    rw [hlookup] at hy
    exact absurd hy List.not_mem_nil
  | some ys =>
    rw [hlookup] at hy
    have hentry : (⟨x, ys⟩ : Sigma fun _ : N => List N) ∈ edges.entries :=
      AList.mem_lookup_iff.1 hlookup
    refine List.mem_toFinset.2 (List.mem_append_right _ ?_)
    exact List.mem_flatMap.2 ⟨_, hentry, hy⟩

/-- **The components** of every graph are found, whatever number of rounds beyond some number the
loops may take. -/
theorem exists_findSccs_eq (edges : AList fun _ : N => List N) (toSccString : N → String)
    (nodes : List N) :
    ∃ classes, Components (successors edges) nodes classes ∧ ∃ rounds, ∀ n, rounds ≤ n →
      findSccs edges toSccString n nodes =
        some (classes.map fun C => .new (C.map toSccString)) := by
  have hinit : SccSearch.Follows edges toSccString nodes .init [] [] :=
    ⟨⟨fun _ _ hframe => absurd hframe List.not_mem_nil, fun _ _ hstate => (nomatch hstate), rfl⟩,
      tarjanInv_init _ _ _, rfl⟩
  obtain ⟨search, done, hfold, hfollows, -, hvisited⟩ := hinit.foldlM_start_eq_some
    (fun x y hy => mem_graphNodes_of_mem_successors nodes hy)
    (fun r hr => ⟨hr, List.mem_toFinset.2 (List.mem_append_left _ hr)⟩) (Nat.le_refl _)
  have hcomponents := hfollows.inv.components fun r hr =>
    SccSearch.index_numbers_eq_none.not.2 (hvisited r hr)
  refine ⟨done.reverse, hcomponents.perm done.reverse_perm,
    2 * SccSearch.remaining edges (graphNodes edges nodes) SccSearch.init.states, fun n hn => ?_⟩
  unfold findSccs
  rw [SccSearch.foldlM_start_mono hn hfold, ← hfollows.keeps.sccs]
  rfl

end TldrCode.Analysis
