import TldrCode.Graph.Postorder

/-!
# Search for a path

A breadth-first search with a queue of paths, each with its last node first. The path that it finds
is a walk to the goal (`pathSearch_walk`), and it finds one whenever the goal is reached, given a
round for the start and for each node that is the target of an edge (`pathSearch_isSome`).
-/

namespace TldrCode.Graph

variable {α : Type*} [DecidableEq α]

/-- A node that a path leads to is queued, unless it is visited already. -/
def visitNext (path : List α) (state : List (List α) × List α) (next : α) :
    List (List α) × List α :=
  if next ∈ state.2 then state else (state.1 ++ [next :: path], next :: state.2)

variable [Inhabited α]

/-- The search, with the paths in the queue and the nodes visited so far. -/
def pathSearch (succ : α → List α) (goal : α) : Nat → List (List α) → List α → Option (List α)
  | 0, _, _ => none
  | _ + 1, [], _ => none
  | rounds + 1, path :: queue, visited =>
    let succs := succ (path.headD default)
    if goal ∈ succs then some (goal :: path).reverse
    else
      let (queue, visited) := succs.foldl (visitNext path) (queue, visited)
      pathSearch succ goal rounds queue visited

variable {succ : α → List α} {goal start x y : α} {rounds : Nat} {path succs visited : List α}
  {queue : List (List α)} {nodes path' : List α}

omit [Inhabited α] in
theorem mem_queue_foldl_visitNext (h : path' ∈ (succs.foldl (visitNext path) (queue, visited)).1) :
    path' ∈ queue ∨ ∃ y ∈ succs, path' = y :: path := by
  induction succs generalizing queue visited with
  | nil => exact .inl h
  | cons y succs ih =>
    rw [List.foldl_cons, visitNext] at h
    dsimp only at h
    split_ifs at h with hy
    · refine (ih h).imp_right ?_
      rintro ⟨z, hz, heq⟩
      exact ⟨z, List.mem_cons_of_mem _ hz, heq⟩
    · rcases ih h with hmem | ⟨z, hz, heq⟩
      · rcases List.mem_append.1 hmem with hmem | hmem
        · exact .inl hmem
        · exact .inr ⟨y, List.mem_cons_self, List.mem_singleton.1 hmem⟩
      · exact .inr ⟨z, List.mem_cons_of_mem _ hz, heq⟩

omit [Inhabited α] in
/-- What a visit queues: nothing is lost, all successors are visited and the new ones queued. -/
theorem foldl_visitNext_spec (path succs : List α) (queue : List (List α)) (visited : List α) :
    (∀ path' ∈ queue, path' ∈ (succs.foldl (visitNext path) (queue, visited)).1) ∧
    (∀ y, y ∈ (succs.foldl (visitNext path) (queue, visited)).2 ↔ y ∈ visited ∨ y ∈ succs) ∧
    (∀ y ∈ (succs.foldl (visitNext path) (queue, visited)).2, y ∈ visited ∨
      y :: path ∈ (succs.foldl (visitNext path) (queue, visited)).1) := by
  induction succs generalizing queue visited with
  | nil => exact ⟨fun _ h => h, fun y => by simp, fun y hy => .inl hy⟩
  | cons z succs ih =>
    rw [List.foldl_cons, visitNext]
    dsimp only
    split_ifs with hz
    · obtain ⟨hkeep, hvisited, hnew⟩ := ih queue visited
      refine ⟨hkeep, fun y => ?_, hnew⟩
      rw [hvisited, List.mem_cons]
      refine ⟨fun h => h.imp_right .inr, ?_⟩
      rintro (h | rfl | h)
      · exact .inl h
      · exact .inl hz
      · exact .inr h
    · obtain ⟨hkeep, hvisited, hnew⟩ := ih (queue ++ [z :: path]) (z :: visited)
      refine ⟨fun path' h => hkeep path' (List.mem_append_left _ h), fun y => ?_, fun y hy => ?_⟩
      · rw [hvisited, List.mem_cons, List.mem_cons, or_assoc, or_left_comm]
      · rcases hnew y hy with h | h
        · rcases List.mem_cons.1 h with rfl | h
          · exact .inr (hkeep _ (by simp))
          · exact .inl h
        · exact .inr h

omit [Inhabited α] in
theorem foldl_visitNext_budget (path : List α) (queue : List (List α)) (visited : List α)
    (hnodes : ∀ y ∈ succs, y ∈ nodes) :
    (succs.foldl (visitNext path) (queue, visited)).1.length +
        unvisited nodes (succs.foldl (visitNext path) (queue, visited)).2 ≤
      queue.length + unvisited nodes visited := by
  induction succs generalizing queue visited with
  | nil => exact le_rfl
  | cons z succs ih =>
    rw [List.foldl_cons, visitNext]
    dsimp only
    have hrest : ∀ y ∈ succs, y ∈ nodes := fun y hy => hnodes y (List.mem_cons_of_mem _ hy)
    split_ifs with hz
    · exact ih queue visited hrest
    · refine (ih _ _ hrest).trans ?_
      have hlt := unvisited_cons_lt (hnodes z List.mem_cons_self) hz
      rw [List.length_append, List.length_singleton]
      omega

/-- **What is found is a walk to the goal.** -/
theorem pathSearch_walk
    (hqueue : ∀ path ∈ queue, ∃ x, Walk (fun a b => b ∈ succ a) start x path.reverse)
    (h : pathSearch succ goal rounds queue visited = some path) :
    Walk (fun a b => b ∈ succ a) start goal path := by
  induction rounds generalizing queue visited with
  | zero => cases h
  | succ rounds ih =>
    cases queue with
    | nil => cases h
    | cons first queue =>
      obtain ⟨x, hwalk⟩ := hqueue first List.mem_cons_self
      have hhead : first.headD default = x := by
        have hlast := hwalk.last
        rw [List.getLast?_reverse] at hlast
        rw [List.headD_eq_head?_getD, hlast]
        rfl
      unfold pathSearch at h
      dsimp only at h
      rw [hhead] at h
      split_ifs at h with hgoal
      · obtain rfl := Option.some_inj.1 h
        rw [List.reverse_cons]
        exact hwalk.concat hgoal
      · refine ih (fun path' hpath' => ?_) h
        rcases mem_queue_foldl_visitNext hpath' with hmem | ⟨y, hy, rfl⟩
        · exact hqueue path' (List.mem_cons_of_mem _ hmem)
        · refine ⟨y, ?_⟩
          rw [List.reverse_cons]
          exact hwalk.concat hy

/-- Visited nodes are in the queue or have been worked off. -/
def PathsExplored (succ : α → List α) (goal : α) (queue : List (List α)) (visited : List α) :
    Prop :=
  ∀ x ∈ visited, (∃ path ∈ queue, path.head? = some x) ∨
    goal ∉ succ x ∧ ∀ y ∈ succ x, y ∈ visited

omit [DecidableEq α] [Inhabited α] in
theorem PathsExplored.not_reach (h : PathsExplored succ goal [] visited) (hstart : start ∈ visited)
    (hgoal : goal ∉ visited) : ¬ Reach (fun a b => b ∈ succ a) start goal := by
  intro hreach
  refine hgoal (hreach.induct (P := (· ∈ visited)) hstart fun a b _ hedge ha => ?_)
  rcases h a ha with ⟨path, hpath, -⟩ | ⟨-, hclosed⟩
  · cases hpath
  · exact hclosed b hedge

/-- **A goal that is reached is found.** -/
theorem pathSearch_isSome (hnodes : ∀ x, ∀ y ∈ succ x, y ∈ nodes)
    (hrounds : queue.length + unvisited nodes visited ≤ rounds)
    (hexplored : PathsExplored succ goal queue visited) (hstart : start ∈ visited)
    (hgoal : goal ∉ visited) (hreach : Reach (fun a b => b ∈ succ a) start goal) :
    (pathSearch succ goal rounds queue visited).isSome := by
  induction rounds generalizing queue visited with
  | zero =>
    obtain rfl : queue = [] := List.length_eq_zero_iff.1 (by omega)
    exact absurd hreach (hexplored.not_reach hstart hgoal)
  | succ rounds ih =>
    cases queue with
    | nil => exact absurd hreach (hexplored.not_reach hstart hgoal)
    | cons first queue =>
      unfold pathSearch
      dsimp only
      split_ifs with hfound
      · rfl
      · obtain ⟨hkeep, hvisited, hnew⟩ := foldl_visitNext_spec first
          (succ (first.headD default)) queue visited
        refine ih ?_ (fun x hx => ?_) ((hvisited start).2 (.inl hstart)) fun hmem => ?_
        · have hbudget := foldl_visitNext_budget first queue visited
            (hnodes (first.headD default))
          rw [List.length_cons] at hrounds
          omega
        · rcases hnew x hx with hold | hqueued
          · rcases hexplored x hold with ⟨path', hpath', hhead⟩ | ⟨hno, hclosed⟩
            · rcases List.mem_cons.1 hpath' with rfl | hpath'
              · -- the node that is worked off now
                have hx' : path'.headD default = x := by
                  rw [List.headD_eq_head?_getD, hhead]
                  rfl
                rw [hx'] at hfound hvisited ⊢
                exact .inr ⟨hfound, fun y hy => (hvisited y).2 (.inr hy)⟩
              · exact .inl ⟨path', hkeep path' hpath', hhead⟩
            · exact .inr ⟨hno, fun y hy => (hvisited y).2 (.inl (hclosed y hy))⟩
          · exact .inl ⟨_, hqueued, rfl⟩
        · rcases (hvisited goal).1 hmem with hmem | hmem
          · exact hgoal hmem
          · exact hfound hmem

end TldrCode.Graph
