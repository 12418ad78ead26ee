import TldrCode.Analysis.CallerTrees
import TldrCode.Graph.ShortestPaths

/-!
# Betweenness of functions

`analysis/hubs.rs`: `compute_betweenness`, over exact rationals. From each source a breadth-first
search counts the shortest paths, and a pass over its order from the end sums up their
dependencies. Without sampling each function gets its betweenness in the call graph
(`computeBetweenness_spec`).
-/

namespace TldrCode.Analysis

open Graph

/-- A set of functions and the functions that each calls, each of them once. -/
structure CallGraph (N : Type) [DecidableEq N] where
  nodes : List N
  forward : AList fun _ : N => List N
  nodup : nodes.Nodup
  forward_nodup : ∀ u, ((forward.lookup u).getD []).Nodup

def buildForwardGraph (graph : ProjectCallGraph) : AList fun _ : FunctionKey => List FunctionKey :=
  graph.edges.foldl (fun forward edge => forward.insert edge.caller
    ((forward.lookup edge.caller).getD [] ++ [edge.callee])) ∅

def collectNodes (graph : ProjectCallGraph) : List FunctionKey :=
  graph.edges.foldl (fun nodes edge => (nodes.insert edge.caller).insert edge.callee) []

/-! ## Shortest paths from a source -/

section Model

variable {N : Type} [DecidableEq N]

abbrev Table (N β : Type) := N → Option β

/-- The value of each of the functions is zero. -/
def zeroTable (nodes : List N) : Table N ℚ := fun node => if node ∈ nodes then some 0 else none

structure PathState (N : Type) where
  dist : Table N Nat
  sigma : Table N ℚ
  pred : N → List N
  queue : List N
  order : List N

def PathState.start (source : N) : PathState N where
  dist := Function.update (fun _ => none) source (some 0)
  sigma := Function.update (fun _ => none) source (some 1)
  pred := fun _ => []
  queue := [source]
  order := []

/-- A neighbour that has no distance yet gets one and is queued. -/
def PathState.discover (distCurrent : Nat) (s : PathState N) (neighbor : N) : PathState N :=
  if (s.dist neighbor).isNone then
    { s with
      dist := Function.update s.dist neighbor (some (distCurrent + 1))
      queue := s.queue ++ [neighbor] }
  else s

/-- The shortest paths to a neighbour go on from the current function. -/
def PathState.extend (current : N) (sigmaCurrent : ℚ) (s : PathState N) (neighbor : N) :
    PathState N :=
  { s with
    sigma := Function.update s.sigma neighbor (some ((s.sigma neighbor).getD 0 + sigmaCurrent))
    pred := Function.update s.pred neighbor (s.pred neighbor ++ [current]) }

/-- A neighbour is looked at; `none` is an index that is missing. -/
def PathState.visitNeighbor (nodes : List N) (current : N) (s : PathState N) (neighbor : N) :
    Option (PathState N) :=
  if neighbor ∈ nodes then do
    let distCurrent ← s.dist current
    let s := s.discover distCurrent neighbor
    if s.dist neighbor = some (distCurrent + 1) then do
      let sigmaCurrent ← s.sigma current
      return s.extend current sigmaCurrent neighbor
    else return s
  else return s

def PathState.search (nodes : List N) (forward : AList fun _ : N => List N) :
    Nat → PathState N → Option (PathState N)
  | 0, s => if s.queue.isEmpty then some s else none
  | rounds + 1, s =>
    match s.queue with
    | [] => some s
    | current :: queue => do
      let s ← ((forward.lookup current).getD []).foldlM (visitNeighbor nodes current)
        { s with queue, order := s.order ++ [current] }
      search nodes forward rounds s

def contribute (s : PathState N) (w : N) (delta : Table N ℚ) (v : N) : Option (Table N ℚ) :=
  let sigmaV := (s.sigma v).getD 0
  let sigmaW := (s.sigma w).getD 0
  if 0 < sigmaW then do
    let deltaW ← delta w
    let deltaV ← delta v
    return Function.update delta v (some (deltaV + sigmaV / sigmaW * (1 + deltaW)))
  else return delta

/-- A function is taken from the end of the order. -/
def propagate (source : N) (s : PathState N) (tables : Table N ℚ × Table N ℚ) (w : N) :
    Option (Table N ℚ × Table N ℚ) := do
  let delta ← (s.pred w).foldlM (contribute s w) tables.1
  if w = source then return (delta, tables.2)
  else do
    let deltaW ← delta w
    let value ← tables.2 w
    return (delta, Function.update tables.2 w (some (value + deltaW)))

def addSource (nodes : List N) (forward : AList fun _ : N => List N) (betweenness : Table N ℚ)
    (source : N) : Option (Table N ℚ) := do
  let s ← PathState.search nodes forward nodes.length (.start source)
  let (_, betweenness) ← s.order.reverse.foldlM (propagate source s) (zeroTable nodes, betweenness)
  return betweenness

structure BetweennessConfig where
  sampleSize : Option Nat
  maxNodes : Nat

/-- `sources`: all functions or a sample of them. -/
def chooseSources (nodeList : List N) : Option Nat → Option (List N)
  | none => some nodeList
  | some k =>
    if k < nodeList.length then
      let step := nodeList.length / max k 1
      (List.range k).mapM fun i => nodeList[i * step % nodeList.length]?
    else some nodeList

def mapValues (f : ℚ → ℚ) (table : Table N ℚ) : Table N ℚ := fun node => (table node).map f

def computeBetweenness (ord : HashOrder) (nodes : List N) (forward : AList fun _ : N => List N)
    (config : BetweennessConfig) : Option (Table N ℚ) :=
  let n := nodes.length
  if n ≤ 2 then some (zeroTable nodes)
  else if config.maxNodes < n then some (zeroTable nodes)
  else do
    let nodeList := ord.order nodes
    let sources ← chooseSources nodeList config.sampleSize
    let numSources := sources.length
    let scalingFactor : ℚ := if numSources < n then n / numSources else 1
    let betweenness ← sources.foldlM (addSource nodes forward) (zeroTable nodes)
    let betweenness := if 1 < scalingFactor then mapValues (· * scalingFactor) betweenness
      else betweenness
    let normalizer : ℚ := ((n - 1) * (n - 2) : Nat)
    let betweenness := if 0 < normalizer then mapValues (· / normalizer) betweenness
      else betweenness
    let maxVal := (nodeList.filterMap betweenness).foldl max 0
    return if 1 < maxVal then mapValues (· / maxVal) betweenness else betweenness

/-! ## One neighbour after the other -/

variable {nodes done ys : List N} {forward : AList fun _ : N => List N} {s s' : PathState N}
  {source current neighbor v w x y : N} {d : Nat} {q : ℚ}

/-- The functions of the graph that a function calls. -/
def calls (nodes : List N) (forward : AList fun _ : N => List N) (u : N) : List N :=
  ((forward.lookup u).getD []).filter (· ∈ nodes)

structure Looked (current : N) (d : Nat) (q : ℚ) (ys : List N) (s s' : PathState N) : Prop where
  dist : ∀ x, s'.dist x = if s.dist x = none ∧ x ∈ ys then some (d + 1) else s.dist x
  queue : s'.queue = s.queue ++ ys.filter fun x => (s.dist x).isNone
  order : s'.order = s.order
  sigma : ∀ x, s'.sigma x = if x ∈ ys ∧ s'.dist x = some (d + 1)
    then some ((s.sigma x).getD 0 + q) else s.sigma x
  pred : ∀ x, s'.pred x = if x ∈ ys ∧ s'.dist x = some (d + 1)
    then s.pred x ++ [current] else s.pred x

theorem looked_nil (current : N) (d : Nat) (q : ℚ) (s : PathState N) :
    Looked current d q [] s s := by
  constructor <;> simp

theorem Looked.discover (h : Looked current d q ys s s') (hnew : neighbor ∉ ys) :
    (∀ x, (s'.discover d neighbor).dist x =
      if s.dist x = none ∧ x ∈ ys ++ [neighbor] then some (d + 1) else s.dist x) ∧
    (s'.discover d neighbor).queue =
      s.queue ++ (ys ++ [neighbor]).filter fun x => (s.dist x).isNone := by
  have hneighbor : s'.dist neighbor = s.dist neighbor := by
    rw [h.dist, if_neg fun hy => hnew hy.2]
  unfold PathState.discover
  rw [hneighbor, List.filter_append, ← List.append_assoc, ← h.queue, List.filter_singleton]
  split_ifs with hnone
  · refine ⟨fun x => ?_, by rw [hnone]; rfl⟩
    dsimp only
    by_cases hx : x = neighbor
    · subst hx
      rw [Function.update_self, if_pos ⟨Option.isNone_iff_eq_none.1 hnone, by simp⟩]
    · rw [Function.update_of_ne hx, h.dist]
      simp [hx]
  · refine ⟨fun x => ?_, ?_⟩
    swap
    · rw [Bool.not_eq_true] at hnone
      rw [hnone]
      exact (List.append_nil _).symm
    rw [h.dist]
    by_cases hx : x = neighbor
    · subst hx
      rw [if_neg fun hy => hnew hy.2, if_neg fun hy => hnone (Option.isNone_iff_eq_none.2 hy.1)]
    · simp [hx]

theorem discover_fields (d : Nat) (s : PathState N) (neighbor : N) :
    (s.discover d neighbor).sigma = s.sigma ∧ (s.discover d neighbor).pred = s.pred ∧
      (s.discover d neighbor).order = s.order := by
  unfold PathState.discover
  split_ifs
  · exact ⟨rfl, rfl, rfl⟩
  · exact ⟨rfl, rfl, rfl⟩

/-- **A neighbour is looked at.** -/
theorem Looked.visitNeighbor (h : Looked current d q ys s s') (hd : s.dist current = some d)
    (hq : s.sigma current = some q) (hmem : neighbor ∈ nodes) (hnew : neighbor ∉ ys) :
    ∃ s'', s'.visitNeighbor nodes current neighbor = some s'' ∧
      Looked current d q (ys ++ [neighbor]) s s'' := by
  have hd' : s'.dist current = some d := by
    rw [h.dist, hd, if_neg (by simp)]
  have hq' : s'.sigma current = some q := by
    rw [h.sigma, hd', if_neg (by simp), hq]
  obtain ⟨hdist, hqueue⟩ := h.discover hnew
  obtain ⟨hsigma, hpred, horder⟩ := discover_fields d s' neighbor
  -- on the other functions nothing changes
  have hsame : ∀ x, x ≠ neighbor →
      (x ∈ ys ++ [neighbor] ∧ (s'.discover d neighbor).dist x = some (d + 1) ↔
        x ∈ ys ∧ s'.dist x = some (d + 1)) := by
    intro x hx
    have hmem : x ∈ ys ++ [neighbor] ↔ x ∈ ys := by
      rw [List.mem_append, List.mem_singleton, or_iff_left hx]
    rw [hdist, h.dist]
    simp only [hmem]
  have hself : neighbor ∈ ys ++ [neighbor] := List.mem_append_right _ (List.mem_singleton_self _)
  unfold PathState.visitNeighbor
  rw [if_pos hmem, hd']
  dsimp only [Option.bind_eq_bind, Option.bind_some]
  rw [hsigma, hq']
  by_cases hnear : (s'.discover d neighbor).dist neighbor = some (d + 1)
  · rw [if_pos hnear]
    refine ⟨_, rfl, hdist, hqueue, horder.trans h.order, fun x => ?_, fun x => ?_⟩
    · unfold PathState.extend
      dsimp only
      by_cases hx : x = neighbor
      · subst hx
        rw [Function.update_self, if_pos ⟨hself, hnear⟩, hsigma, h.sigma,
          if_neg fun hy => hnew hy.1]
      · rw [Function.update_of_ne hx, hsigma, h.sigma]
        exact if_congr (hsame x hx).symm rfl rfl
    · unfold PathState.extend
      dsimp only
      by_cases hx : x = neighbor
      · subst hx
        rw [Function.update_self, if_pos ⟨hself, hnear⟩, hpred, h.pred,
          if_neg fun hy => hnew hy.1]
      · rw [Function.update_of_ne hx, hpred, h.pred]
        exact if_congr (hsame x hx).symm rfl rfl
  · rw [if_neg hnear]
    have hmem : ∀ x, (x ∈ ys ++ [neighbor] ∧ (s'.discover d neighbor).dist x = some (d + 1) ↔
        x ∈ ys ∧ s'.dist x = some (d + 1)) := by
      intro x
      by_cases hx : x = neighbor
      · subst hx
        exact ⟨fun hy => absurd hy.2 hnear, fun hy => absurd hy.1 hnew⟩
      · exact hsame x hx
    refine ⟨_, rfl, hdist, hqueue, horder.trans h.order, fun x => ?_, fun x => ?_⟩
    · rw [hsigma, h.sigma]
      exact if_congr (hmem x).symm rfl rfl
    · rw [hpred, h.pred]
      exact if_congr (hmem x).symm rfl rfl

/-- **All neighbours are looked at**; those outside of the graph are passed over. -/
theorem Looked.foldlM {rest : List N} (h : Looked current d q (ys.filter (· ∈ nodes)) s s')
    (hd : s.dist current = some d) (hq : s.sigma current = some q) (hnodup : (ys ++ rest).Nodup) :
    ∃ s'', rest.foldlM (PathState.visitNeighbor nodes current) s' = some s'' ∧
      Looked current d q ((ys ++ rest).filter (· ∈ nodes)) s s'' := by
  induction rest generalizing ys s' with
  | nil => exact ⟨s', rfl, by rwa [List.append_nil]⟩
  | cons y rest ih =>
    have hassoc : ys ++ y :: rest = (ys ++ [y]) ++ rest := by rw [List.append_assoc]; rfl
    rw [hassoc] at hnodup ⊢
    rw [List.foldlM_cons]
    by_cases hy : y ∈ nodes
    · have hnew : y ∉ ys.filter (· ∈ nodes) := fun hmem =>
        (List.nodup_append.1 (List.nodup_append.1 hnodup).1).2.2 y (List.mem_of_mem_filter hmem) y
          (List.mem_singleton_self y) rfl
      obtain ⟨s₁, hvisit, h₁⟩ := h.visitNeighbor hd hq hy hnew
      rw [hvisit]
      refine ih ?_ hnodup
      rwa [List.filter_append, List.filter_singleton, decide_eq_true hy]
    · have hvisit : s'.visitNeighbor nodes current y = some s' := if_neg hy
      rw [hvisit]
      refine ih ?_ hnodup
      rwa [List.filter_append, List.filter_singleton, decide_eq_false hy, cond_false,
        List.append_nil]

theorem exists_looked (nodes : List N) (hd : s.dist current = some d)
    (hq : s.sigma current = some q) (hys : ys.Nodup) :
    ∃ s', ys.foldlM (PathState.visitNeighbor nodes current) s = some s' ∧
      Looked current d q (ys.filter (· ∈ nodes)) s s' := by
  have hnil : Looked current d q (([] : List N).filter (· ∈ nodes)) s s := looked_nil current d q s
  exact hnil.foldlM hd hq (show ([] ++ ys).Nodup from hys)

/-! ## The search -/

/-- What the search has found when it has taken functions from the queue: their distances, and the
shortest paths that end with a call of one of them. -/
structure Discovered (next : N → List N) (source : N) (limit : Nat) (dist : N → Nat)
    (done : List N) (s : PathState N) : Prop where
  order : s.order = done
  frontier : ∃ seen, BreadthInv next limit [source] (done.map fun x => (x, dist x))
    ⟨s.queue.map fun x => (x, dist x), seen⟩
  distances : ∀ x, s.dist x = if x ∈ done ++ s.queue then some (dist x) else none
  preds : ∀ x, s.pred x = done.filter fun u => x ∈ next u ∧ dist x = dist u + 1
  counts : ∀ x, s.sigma x = if x ∈ done ++ s.queue
    then some ((if x = source then 1 else 0) +
      ((s.pred x).map (pathCount next source dist)).sum)
    else none

section Search

variable {next : N → List N} {limit : Nat} {dist : N → Nat} {R : Finset N} {queue : List N}

omit [DecidableEq N] in
theorem mem_map_pair {l : List N} {n : Nat} :
    (x, n) ∈ l.map (fun x => (x, dist x)) ↔ x ∈ l ∧ n = dist x := by
  rw [List.mem_map]
  constructor
  · rintro ⟨y, hy, heq⟩
    cases heq
    exact ⟨hy, rfl⟩
  · rintro ⟨hx, rfl⟩
    exact ⟨x, hx, rfl⟩

omit [DecidableEq N] in
theorem mem_seen_iff {seen : List N} (hinv : BreadthInv next limit [source]
    (done.map fun x => (x, dist x)) ⟨queue.map fun x => (x, dist x), seen⟩) :
    x ∈ seen ↔ x ∈ done ++ queue := by
  rw [hinv.seen, ← List.map_append]
  simp only [mem_map_pair]
  exact ⟨fun ⟨_, hx, _⟩ => hx, fun hx => ⟨_, hx, rfl⟩⟩

theorem Discovered.nodup (h : Discovered next source limit dist done s) :
    (done ++ s.queue).Nodup := by
  obtain ⟨seen, hinv⟩ := h.frontier
  have hnodup := hinv.nodup
  have hid : (fun e : N × Nat => e.1) ∘ (fun x => (x, dist x)) = id := rfl
  rwa [← List.map_append, List.map_map, hid, List.map_id] at hnodup

theorem Discovered.sorted (h : Discovered next source limit dist done s) :
    (done ++ s.queue).Pairwise fun x y => dist x ≤ dist y := by
  obtain ⟨seen, hinv⟩ := h.frontier
  have hsorted := hinv.sorted
  rw [← List.map_append, List.map_map] at hsorted
  exact List.pairwise_map.1 hsorted

variable (hR : Distances next source R dist) (hlimit : R.card ≤ limit)

include hR

theorem Discovered.mem_reached (h : Discovered next source limit dist done s)
    (hx : x ∈ done ++ s.queue) : x ∈ R := by
  obtain ⟨seen, hinv⟩ := h.frontier
  have hmem : (x, dist x) ∈ (done ++ s.queue).map fun x => (x, dist x) :=
    mem_map_pair.2 ⟨hx, rfl⟩
  rw [List.map_append] at hmem
  have hdist := shortestFrom_iff.1 (hinv.shortest x (dist x) hmem).1
  exact hR.mem_of_walk hR.source hdist.1

include hlimit

section

variable (h : Discovered next source limit dist done s)
include h

/-- **What is nearer than the queue** has been taken from it. -/
theorem Discovered.mem_done (hx : x ∈ R) (hqueue : ∀ y ∈ s.queue, dist x < dist y) : x ∈ done := by
  obtain ⟨seen, hinv⟩ := h.frontier
  have hfar : ∀ e ∈ s.queue.map fun x => (x, dist x), dist x ≤ e.2 := by
    intro e he
    obtain ⟨y, hy, rfl⟩ := List.mem_map.1 he
    exact (hqueue y hy).le
  have hseen : x ∈ seen := hinv.seen_of_reachWithin hfar ((hR.dist_lt_card hx).le.trans hlimit)
    (shortestFrom_iff.2 (hR.isDist x hx)).1 (Nat.le_refl _)
  rcases List.mem_append.1 ((mem_seen_iff hinv).1 hseen) with hdone | hmem
  · exact hdone
  · exact absurd (hqueue x hmem) (lt_irrefl _)

/-- **The number of shortest paths** is known when what is nearer has been taken. -/
theorem Discovered.sigma_eq (hx : x ∈ done ++ s.queue) (hqueue : ∀ y ∈ s.queue, dist x ≤ dist y) :
    s.sigma x = some (pathCount next source dist x) := by
  rw [h.counts, if_pos hx, h.preds, Option.some_inj]
  by_cases hsource : x = source
  · subst hsource
    have hnone : done.filter (fun u => x ∈ next u ∧ dist x = dist u + 1) = [] := by
      rw [hR.dist_source, List.filter_eq_nil_iff]
      simp
    rw [hnone, if_pos rfl, hR.pathCount_source, List.map_nil, List.sum_nil, add_zero]
  · have hnodup := ((List.nodup_append.1 h.nodup).1).filter
      fun u => x ∈ next u ∧ dist x = dist u + 1
    rw [if_neg hsource, zero_add, hR.pathCount_eq (h.mem_reached hR hx) hsource,
      ← List.sum_toFinset _ hnodup]
    refine Finset.sum_congr (Finset.ext fun u => ?_) fun _ _ => rfl
    rw [List.mem_toFinset, List.mem_filter, Finset.mem_filter, decide_eq_true_eq]
    refine and_congr_left fun hu => ⟨fun hdone => ?_, fun hmem => ?_⟩
    · exact h.mem_reached hR (List.mem_append_left _ hdone)
    · refine h.mem_done hR hlimit hmem fun y hy => ?_
      have hle := hqueue y hy
      omega

theorem Discovered.getD_sigma (x : N) :
    (s.sigma x).getD 0 =
      (if x = source then 1 else 0) + ((s.pred x).map (pathCount next source dist)).sum := by
  rw [h.counts]
  split_ifs with hx hsource hsource
  · rfl
  · rfl
  all_goals obtain ⟨seen, hinv⟩ := h.frontier
  · exact absurd ((mem_seen_iff hinv).1 (hinv.start x (hsource ▸ List.mem_singleton_self _))) hx
  · have hpred : s.pred x = [] := by
      rw [h.preds, List.filter_eq_nil_iff]
      intro u hu hnext
      have hmem := hinv.closed u (dist u) (mem_map_pair.2 ⟨hu, rfl⟩)
        ((hR.dist_lt_card (h.mem_reached hR (List.mem_append_left _ hu))).trans_le hlimit)
      exact hx ((mem_seen_iff hinv).1 (hmem x (of_decide_eq_true hnext).1))
    rw [hpred, List.map_nil, List.sum_nil, add_zero]
    rfl

/-- The functions that are found when one is taken from the queue are one further. -/
theorem Discovered.frontier_take (hqueue : s.queue = current :: queue)
    (hnext : (next current).Nodup) {new : List N}
    (hnew : new = (next current).filter fun x => (s.dist x).isNone) :
    (∀ x ∈ new, dist x = dist current + 1) ∧ ∃ seen, BreadthInv next limit [source]
      ((done ++ [current]).map fun x => (x, dist x))
      ⟨(queue ++ new).map fun x => (x, dist x), seen⟩ := by
  obtain ⟨seen, hinv⟩ := h.frontier
  have hcurrent : current ∈ R := h.mem_reached hR
    (List.mem_append_right _ (hqueue ▸ List.mem_cons_self))
  have hfilter : (next current).filter (· ∉ seen) = new := by
    rw [hnew]
    refine List.filter_congr fun x _ => ?_
    have hseen : x ∈ seen ↔ x ∈ done ++ s.queue := mem_seen_iff hinv
    by_cases hx : x ∈ done ++ s.queue
    · rw [h.distances, if_pos hx, decide_eq_false (not_not.2 (hseen.2 hx))]
      rfl
    · rw [h.distances, if_neg hx, decide_eq_true (mt hseen.1 hx)]
      rfl
  rw [hqueue] at hinv
  have hexpand := hinv.expand
  have hlt : dist current ≠ limit := ((hR.dist_lt_card hcurrent).trans_le hlimit).ne
  rw [Frontier.expand, if_neg hlt, foldl_push_eq hnext, hfilter] at hexpand
  have hdist : ∀ x ∈ new, dist x = dist current + 1 := by
    intro x hx
    have hmem : (x, dist current + 1) ∈ new.map (·, dist current + 1) :=
      List.mem_map.2 ⟨x, hx, rfl⟩
    have hshortest := (hexpand.shortest x (dist current + 1)
      (List.mem_append_right _ (List.mem_append_right _ hmem))).1
    have hxdist := shortestFrom_iff.1 hshortest
    exact (hR.isDist x (hR.mem_of_walk hR.source hxdist.1)).unique hxdist
  have hmap : new.map (·, dist current + 1) = new.map fun x => (x, dist x) :=
    List.map_congr_left fun x hx => by rw [hdist x hx]
  refine ⟨hdist, new.reverse ++ seen, ?_⟩
  rw [List.map_append, List.map_append, ← hmap]
  exact hexpand

/-- **A function is taken from the queue.** -/
theorem Discovered.take (hqueue : s.queue = current :: queue) (hnext : (next current).Nodup)
    (hlooked : Looked current (dist current) (pathCount next source dist current) (next current)
      { s with queue, order := s.order ++ [current] } s') :
    Discovered next source limit dist (done ++ [current]) s' := by
  obtain ⟨hnewdist, hfrontier⟩ := h.frontier_take hR hlimit hqueue hnext rfl
  obtain ⟨seen, hinv⟩ := h.frontier
  have hqueue' : s'.queue = queue ++ (next current).filter fun x => (s.dist x).isNone :=
    hlooked.queue
  have hdist : ∀ x, s'.dist x =
      if s.dist x = none ∧ x ∈ next current then some (dist current + 1) else s.dist x :=
    hlooked.dist
  have hnone : ∀ x, s.dist x = none ↔ x ∉ done ++ s.queue := by
    intro x
    rw [h.distances]
    split_ifs with hx
    · exact ⟨nofun, fun hn => absurd hx hn⟩
    · exact ⟨fun _ => hx, fun _ => rfl⟩
  have hmem : ∀ x, x ∈ done ++ [current] ++ s'.queue ↔
      x ∈ done ++ s.queue ∨ s.dist x = none ∧ x ∈ next current := by
    intro x
    rw [hqueue', hqueue]
    simp only [List.mem_append, List.mem_cons, List.mem_filter, Option.isNone_iff_eq_none,
      List.not_mem_nil, or_false]
    tauto
  have hdistances : ∀ x, s'.dist x =
      if x ∈ done ++ [current] ++ s'.queue then some (dist x) else none := by
    intro x
    rw [hdist]
    split_ifs with hx hx' hx'
    · rw [hnewdist x (List.mem_filter.2 ⟨hx.2, Option.isNone_iff_eq_none.2 hx.1⟩)]
    · exact absurd ((hmem x).2 (.inr hx)) hx'
    · rw [h.distances, if_pos (((hmem x).1 hx').resolve_right hx)]
    · exact (hnone x).2 fun hold => hx' ((hmem x).2 (.inl hold))
  -- the neighbours that are one further are those whose shortest paths go on
  have hnear : ∀ x, x ∈ next current ∧ s'.dist x = some (dist current + 1) ↔
      x ∈ next current ∧ dist x = dist current + 1 := by
    refine fun x => and_congr_right fun hx => ?_
    have hfound : x ∈ done ++ [current] ++ s'.queue := by
      rw [hmem, hnone]
      by_cases hold : x ∈ done ++ s.queue
      · exact .inl hold
      · exact .inr ⟨hold, hx⟩
    rw [hdistances, if_pos hfound, Option.some_inj]
  have hpreds : ∀ x, s'.pred x =
      (done ++ [current]).filter fun u => x ∈ next u ∧ dist x = dist u + 1 := by
    intro x
    rw [hlooked.pred, List.filter_append, List.filter_singleton, ← h.preds]
    by_cases hx : x ∈ next current ∧ dist x = dist current + 1
    · rw [if_pos ((hnear x).2 hx), decide_eq_true hx]
      rfl
    · rw [if_neg (mt (hnear x).1 hx), decide_eq_false hx]
      exact (List.append_nil _).symm
  refine ⟨hlooked.order.trans (congrArg (· ++ [current]) h.order), ?_, hdistances, hpreds,
    fun x => ?_⟩
  · rw [hqueue']
    exact hfrontier
  · have hsigma : s'.sigma x = if x ∈ next current ∧ s'.dist x = some (dist current + 1)
        then some ((s.sigma x).getD 0 + pathCount next source dist current) else s.sigma x :=
      hlooked.sigma x
    by_cases hx : x ∈ next current ∧ dist x = dist current + 1
    · have hfound : x ∈ done ++ [current] ++ s'.queue := by
        by_contra hfound
        have hdist' := ((hnear x).2 hx).2
        rw [hdistances, if_neg hfound] at hdist'
        cases hdist'
      rw [hsigma, if_pos ((hnear x).2 hx), if_pos hfound, h.getD_sigma hR hlimit, hpreds,
        List.filter_append, List.filter_singleton, ← h.preds, decide_eq_true hx, cond_true,
        List.map_append, List.sum_append, List.map_singleton, List.sum_singleton, add_assoc]
    · have hold : x ∈ done ++ [current] ++ s'.queue ↔ x ∈ done ++ s.queue := by
        refine (hmem x).trans (or_iff_left fun hnew => hx ⟨hnew.2, ?_⟩)
        exact hnewdist x (List.mem_filter.2 ⟨hnew.2, Option.isNone_iff_eq_none.2 hnew.1⟩)
      rw [hsigma, if_neg (mt (hnear x).1 hx), h.counts, hpreds, List.filter_append,
        List.filter_singleton, ← h.preds, decide_eq_false hx, cond_false, List.append_nil]
      exact if_congr hold.symm rfl rfl

end

omit hlimit in
theorem discovered_start : Discovered next source limit dist [] (.start source) := by
  have hinit : Frontier.init [source] = ⟨[(source, dist source)], [source]⟩ := by
    rw [hR.dist_source]
    simp [Frontier.init, Frontier.push]
  have hqueue : ∀ x, x ∈ [] ++ (PathState.start source).queue ↔ x = source := fun x =>
    List.mem_singleton
  refine ⟨rfl, ⟨[source], hinit ▸ breadthInv_init next limit [source]⟩, fun x => ?_, fun x => rfl,
    fun x => ?_⟩
  · simp only [hqueue]
    unfold PathState.start
    dsimp only
    by_cases hx : x = source
    · rw [hx, Function.update_self, if_pos rfl, hR.dist_source]
    · rw [Function.update_of_ne hx, if_neg hx]
  · simp only [hqueue]
    unfold PathState.start
    dsimp only
    by_cases hx : x = source
    · rw [hx, Function.update_self, if_pos rfl, if_pos rfl, List.map_nil, List.sum_nil, add_zero]
    · rw [Function.update_of_ne hx, if_neg hx]

end Search

/-- What the search returns: the functions that the source reaches, by their distances, and the
numbers of shortest paths. -/
structure Counted (next : N → List N) (source : N) (R : Finset N) (dist : N → Nat)
    (s : PathState N) : Prop where
  nodup : s.order.Nodup
  mem : ∀ x, x ∈ s.order ↔ x ∈ R
  sorted : s.order.Pairwise fun x y => dist x ≤ dist y
  preds : ∀ x, s.pred x = s.order.filter fun u => x ∈ next u ∧ dist x = dist u + 1
  counts : ∀ x ∈ R, s.sigma x = some (pathCount next source dist x)

section Run

theorem card_le_length {R : Finset N} (hsub : ∀ x ∈ R, x ∈ nodes) : R.card ≤ nodes.length :=
  (Finset.card_le_card fun x hx => List.mem_toFinset.2 (hsub x hx)).trans nodes.toFinset_card_le

variable {dist : N → Nat} {R : Finset N}
  (hR : Distances (calls nodes forward) source R dist) (hsub : ∀ x ∈ R, x ∈ nodes)
  (hforward : ∀ u, ((forward.lookup u).getD []).Nodup)

include hR hsub

theorem Discovered.counted
    (h : Discovered (calls nodes forward) source nodes.length dist done s)
    (hqueue : s.queue = []) : Counted (calls nodes forward) source R dist s := by
  have hlimit : R.card ≤ nodes.length := card_le_length hsub
  have hmem : ∀ x, x ∈ done ↔ x ∈ R := fun x =>
    ⟨fun hx => h.mem_reached hR (List.mem_append_left _ hx), fun hx =>
      h.mem_done hR hlimit hx fun y hy => by rw [hqueue] at hy; cases hy⟩
  have horder : s.order = done := h.order
  have hnodup : done.Nodup := (List.nodup_append.1 h.nodup).1
  have hsorted : done.Pairwise fun x y => dist x ≤ dist y := (List.pairwise_append.1 h.sorted).1
  refine ⟨horder ▸ hnodup, fun x => horder ▸ hmem x, horder ▸ hsorted, horder ▸ h.preds,
    fun x hx => ?_⟩
  refine h.sigma_eq hR hlimit (List.mem_append_left _ ((hmem x).2 hx)) fun y hy => ?_
  rw [hqueue] at hy
  cases hy

include hforward

/-- **The search empties its queue** in as many rounds as there are functions. -/
theorem Discovered.search {rounds : Nat}
    (h : Discovered (calls nodes forward) source nodes.length dist done s)
    (hrounds : nodes.length ≤ done.length + rounds) : ∃ s',
      PathState.search nodes forward rounds s = some s' ∧
        Counted (calls nodes forward) source R dist s' := by
  have hlimit : R.card ≤ nodes.length := card_le_length hsub
  induction rounds generalizing done s with
  | zero =>
    have hlength : (done ++ s.queue).length ≤ nodes.length :=
      (List.subperm_of_subset h.nodup fun x hx => hsub x (h.mem_reached hR hx)).length_le
    rw [List.length_append] at hlength
    have hqueue : s.queue = [] := List.length_eq_zero_iff.1 (by omega)
    refine ⟨s, ?_, h.counted hR hsub hqueue⟩
    rw [PathState.search, hqueue]
    rfl
  | succ rounds ih =>
    rw [PathState.search]
    cases hqueue : s.queue with
    | nil => exact ⟨s, rfl, h.counted hR hsub hqueue⟩
    | cons current queue =>
      have hcurrent : current ∈ done ++ s.queue :=
        List.mem_append_right _ (hqueue ▸ List.mem_cons_self)
      have hsorted : ∀ y ∈ s.queue, dist current ≤ dist y := by
        have hpairwise := (List.pairwise_append.1 h.sorted).2.1
        rw [hqueue, List.pairwise_cons] at hpairwise
        intro y hy
        rw [hqueue] at hy
        rcases List.mem_cons.1 hy with rfl | hy
        · exact Nat.le_refl _
        · exact hpairwise.1 y hy
      have hdist : s.dist current = some (dist current) :=
        (h.distances current).trans (if_pos hcurrent)
      have hsigma := h.sigma_eq hR hlimit hcurrent hsorted
      obtain ⟨s', hvisit, hlooked⟩ := exists_looked nodes
        (s := { s with queue, order := s.order ++ [current] }) hdist hsigma (hforward current)
      have htake := h.take hR hlimit hqueue ((hforward current).filter _) hlooked
      have hrounds' : nodes.length ≤ (done ++ [current]).length + rounds := by
        rw [List.length_append, List.length_singleton]
        omega
      obtain ⟨s'', hrun, hcounted⟩ := ih htake hrounds'
      refine ⟨s'', ?_, hcounted⟩
      rw [← hrun]
      exact congrArg (Option.bind · (PathState.search nodes forward rounds)) hvisit

end Run

/-! ## The pass from the end -/

def tableOf (nodes : List N) (f : N → ℚ) : Table N ℚ := fun v =>
  if v ∈ nodes then some (f v) else none

/-- **The dependencies of the predecessors** of a function grow. -/
theorem foldlM_contribute {count : N → ℚ} {delta : Table N ℚ} {vs : List N} {deltaW : ℚ}
    (hvs : vs.Nodup) (hw : w ∉ vs) (hcount : ∀ v ∈ w :: vs, s.sigma v = some (count v))
    (hpos : 0 < count w) (hdelta : delta w = some deltaW) (hmem : ∀ v ∈ vs, delta v ≠ none) :
    ∃ delta', vs.foldlM (contribute s w) delta = some delta' ∧ ∀ v, delta' v =
      if v ∈ vs then (delta v).map (· + count v / count w * (1 + deltaW)) else delta v := by
  induction vs generalizing delta with
  | nil => exact ⟨delta, rfl, fun v => by rw [if_neg List.not_mem_nil]⟩
  | cons u vs ih =>
    obtain ⟨hu, hvs⟩ := List.nodup_cons.1 hvs
    rw [List.mem_cons, not_or] at hw
    obtain ⟨deltaU, hdeltaU⟩ := Option.ne_none_iff_exists'.1 (hmem u List.mem_cons_self)
    have hstep : contribute s w delta u =
        some (Function.update delta u (some (deltaU + count u / count w * (1 + deltaW)))) := by
      unfold contribute
      rw [hcount w List.mem_cons_self, hcount u (List.mem_cons_of_mem _ List.mem_cons_self),
        hdelta, hdeltaU]
      exact if_pos hpos
    have hcount' : ∀ v ∈ w :: vs, s.sigma v = some (count v) := by
      intro v hv
      rcases List.mem_cons.1 hv with rfl | hv
      · exact hcount v List.mem_cons_self
      · exact hcount v (List.mem_cons_of_mem w (List.mem_cons_of_mem u hv))
    have hmem' : ∀ v ∈ vs, Function.update delta u
        (some (deltaU + count u / count w * (1 + deltaW))) v ≠ none := by
      intro v hv
      have hvu : v ≠ u := fun heq => hu (heq ▸ hv)
      rw [Function.update_of_ne hvu]
      exact hmem v (List.mem_cons_of_mem u hv)
    obtain ⟨delta', hrun, hdelta'⟩ := ih hvs hw.2 hcount'
      ((Function.update_of_ne hw.1 ..).trans hdelta) hmem'
    refine ⟨delta', ?_, fun v => ?_⟩
    · rw [List.foldlM_cons, hstep]
      exact hrun
    · rw [hdelta']
      by_cases hv : v = u
      · subst hv
        rw [if_neg hu, Function.update_self, if_pos List.mem_cons_self, hdeltaU]
        rfl
      · rw [Function.update_of_ne hv]
        exact if_congr (by rw [List.mem_cons, or_iff_right hv]) rfl rfl

section Back

variable {next : N → List N} {dist : N → Nat} {R : Finset N} {processed rest : List N}
  {f : N → ℚ} {tables : Table N ℚ × Table N ℚ}

theorem sum_ite_concat {S : Finset N} {c : N → ℚ} (hw : w ∉ processed) :
    (∑ x ∈ S, if x ∈ processed ++ [w] then c x else 0) =
      (∑ x ∈ S, if x ∈ processed then c x else 0) + if w ∈ S then c w else 0 := by
  rw [← Finset.sum_ite_eq' S w c, ← Finset.sum_add_distrib]
  refine Finset.sum_congr rfl fun x _ => ?_
  by_cases hx : x = w
  · subst hx
    rw [if_pos (by simp), if_neg hw, if_pos rfl, zero_add]
  · have hmem : x ∈ processed ++ [w] ↔ x ∈ processed := by
      rw [List.mem_append, List.mem_singleton, or_iff_left hx]
    simp only [hmem, if_neg hx, add_zero]

/-- What has been summed up when functions have been taken from the end of the order. -/
structure Backed (nodes : List N) (next : N → List N) (source : N) (R : Finset N) (dist : N → Nat)
    (f : N → ℚ) (processed : List N) (tables : Table N ℚ × Table N ℚ) : Prop where
  delta : ∀ v ∈ R, tables.1 v = some (∑ w ∈ nextOnPaths next R dist v, if w ∈ processed then
    pathCount next source dist v / pathCount next source dist w *
      (1 + dependency next source R dist w) else 0)
  betweenness : tables.2 = tableOf nodes fun v => f v +
    if v ∈ processed ∧ v ≠ source then dependency next source R dist v else 0

theorem Counted.mem_pred_iff (h : Counted next source R dist s) :
    v ∈ s.pred w ↔ v ∈ R ∧ w ∈ next v ∧ dist w = dist v + 1 := by
  rw [h.preds, List.mem_filter, h.mem, decide_eq_true_eq]

variable (hR : Distances next source R dist) (hsub : ∀ x ∈ R, x ∈ nodes)
  (hcounted : Counted next source R dist s)

include hR hcounted

/-- The dependency of a function is complete when the functions after it have been taken. -/
theorem Backed.delta_eq (h : Backed nodes next source R dist f processed tables) (hw : w ∈ R)
    (horder : s.order.reverse = processed ++ w :: rest) :
    tables.1 w = some (dependency next source R dist w) := by
  rw [h.delta w hw, hR.dependency_eq hw, Option.some_inj]
  refine Finset.sum_congr rfl fun x hx => if_pos ?_
  obtain ⟨hxR, -, hdist⟩ := Finset.mem_filter.1 hx
  have hmem : x ∈ s.order.reverse := List.mem_reverse.2 ((hcounted.mem x).2 hxR)
  have hsorted : s.order.reverse.Pairwise fun x y => dist y ≤ dist x :=
    List.pairwise_reverse.2 hcounted.sorted
  rw [horder] at hmem hsorted
  have hle := (List.pairwise_cons.1 (List.pairwise_append.1 hsorted).2.1).1
  rcases List.mem_append.1 hmem with hmem | hmem
  · exact hmem
  · -- the functions that are left are no further than `w`
    rcases List.mem_cons.1 hmem with rfl | hmem
    · omega
    · have := hle x hmem
      omega

include hsub

/-- **A function is taken** from the end of the order. -/
theorem Backed.take (h : Backed nodes next source R dist f processed tables)
    (horder : s.order.reverse = processed ++ w :: rest) :
    ∃ tables', propagate source s tables w = some tables' ∧
      Backed nodes next source R dist f (processed ++ [w]) tables' := by
  have hnodup : (processed ++ w :: rest).Nodup := horder ▸ List.nodup_reverse.2 hcounted.nodup
  have hwR : w ∈ R := (hcounted.mem w).1 (List.mem_reverse.1
    (horder ▸ List.mem_append_right _ List.mem_cons_self))
  have hnew : w ∉ processed := fun hmem =>
    (List.nodup_append.1 hnodup).2.2 w hmem w List.mem_cons_self rfl
  have hdeltaW := h.delta_eq hR hcounted hwR horder
  have hpreds : ∀ v ∈ s.pred w, v ∈ R := fun v hv => (hcounted.mem_pred_iff.1 hv).1
  have hself : w ∉ s.pred w := fun hmem => by
    have := (hcounted.mem_pred_iff.1 hmem).2.2
    omega
  have hcount : ∀ v ∈ w :: s.pred w, s.sigma v = some (pathCount next source dist v) := by
    intro v hv
    rcases List.mem_cons.1 hv with rfl | hv
    · exact hcounted.counts v hwR
    · exact hcounted.counts v (hpreds v hv)
  have hpredNodup : (s.pred w).Nodup := hcounted.preds w ▸ hcounted.nodup.filter _
  obtain ⟨delta', hrun, hdelta'⟩ := foldlM_contribute hpredNodup hself hcount
    (hR.pathCount_pos hwR) hdeltaW fun v hv => by rw [h.delta v (hpreds v hv)]; exact nofun
  have hdelta : ∀ v ∈ R, delta' v = some (∑ x ∈ nextOnPaths next R dist v,
      if x ∈ processed ++ [w] then pathCount next source dist v / pathCount next source dist x *
        (1 + dependency next source R dist x) else 0) := by
    intro v hv
    have hmem : w ∈ nextOnPaths next R dist v ↔ v ∈ s.pred w := by
      rw [hcounted.mem_pred_iff, nextOnPaths, Finset.mem_filter]
      exact ⟨fun hw => ⟨hv, hw.2⟩, fun hw => ⟨hwR, hw.2⟩⟩
    rw [hdelta', h.delta v hv, sum_ite_concat hnew]
    by_cases hpred : v ∈ s.pred w
    · rw [if_pos hpred, if_pos (hmem.2 hpred)]
      rfl
    · rw [if_neg hpred, if_neg (mt hmem.1 hpred), add_zero]
  unfold propagate
  rw [hrun]
  by_cases hsource : w = source
  · refine ⟨(delta', tables.2), if_pos hsource, hdelta, ?_⟩
    rw [h.betweenness]
    refine congrArg (tableOf nodes) (funext fun v => congrArg (f v + ·) (if_congr ?_ rfl rfl))
    rw [List.mem_append, List.mem_singleton, hsource, or_and_right,
      or_iff_left fun hv => hv.2 hv.1]
  · have hdeltaW' : delta' w = some (dependency next source R dist w) := by
      rw [hdelta', if_neg hself, hdeltaW]
    have hvalue : tables.2 w = some (f w) := by
      rw [h.betweenness, tableOf, if_pos (hsub w hwR), if_neg fun hw => hnew hw.1, add_zero]
    refine ⟨(delta', Function.update tables.2 w (some (f w + dependency next source R dist w))),
      ?_, hdelta, ?_⟩
    · dsimp only [Option.bind_eq_bind, Option.bind_some]
      rw [if_neg hsource, hdeltaW', hvalue]
      rfl
    · funext v
      dsimp only
      by_cases hv : v = w
      · subst hv
        have hlast : v ∈ processed ++ [v] ∧ v ≠ source :=
          ⟨List.mem_append_right _ (List.mem_singleton_self v), hsource⟩
        rw [Function.update_self, tableOf, if_pos (hsub v hwR), if_pos hlast]
      · rw [Function.update_of_ne hv, h.betweenness, tableOf, tableOf]
        have hmem : v ∈ processed ++ [w] ↔ v ∈ processed := by
          rw [List.mem_append, List.mem_singleton, or_iff_left hv]
        simp only [hmem]

/-- **All functions are taken** from the end of the order. -/
theorem Backed.foldlM (h : Backed nodes next source R dist f processed tables)
    (horder : s.order.reverse = processed ++ rest) :
    ∃ tables', rest.foldlM (propagate source s) tables = some tables' ∧
      Backed nodes next source R dist f s.order.reverse tables' := by
  induction rest generalizing processed tables with
  | nil =>
    rw [List.append_nil] at horder
    exact ⟨tables, rfl, horder ▸ h⟩
  | cons w rest ih =>
    obtain ⟨tables₁, hstep, h₁⟩ := h.take hR hsub hcounted horder
    have horder' : s.order.reverse = (processed ++ [w]) ++ rest := by
      rw [horder, List.append_assoc]
      rfl
    rw [List.foldlM_cons, hstep]
    exact ih h₁ horder'

end Back

/-! ## All sources -/

section Sources

variable {f : N → ℚ} {sources : List N}

/-- What the shortest paths from a source to the other functions add to a function. -/
noncomputable def gain (nodes : List N) (forward : AList fun _ : N => List N) (source v : N) : ℚ :=
  if v = source then 0
  else ∑ t ∈ (nodes.toFinset.erase v).erase source,
    fractionThrough (fun a b => b ∈ calls nodes forward a) v source t

theorem mem_of_mem_calls {u : N} (h : v ∈ calls nodes forward u) : v ∈ nodes :=
  of_decide_eq_true (List.mem_filter.1 h).2

/-- **A source adds its fractions.** -/
theorem addSource_eq (hforward : ∀ u, ((forward.lookup u).getD []).Nodup)
    (hsource : source ∈ nodes) : addSource nodes forward (tableOf nodes f) source =
      some (tableOf nodes fun v => f v + gain nodes forward source v) := by
  obtain ⟨R, dist, hsub, hR⟩ := exists_distances (V := nodes.toFinset) (s := source)
    (fun x _ y hy => List.mem_toFinset.2 (mem_of_mem_calls hy)) (List.mem_toFinset.2 hsource)
  have hnodes : ∀ x ∈ R, x ∈ nodes := fun x hx => List.mem_toFinset.1 (hsub hx)
  obtain ⟨s, hsearch, hcounted⟩ := (discovered_start hR).search hR hnodes hforward
    (Nat.le_add_left _ _)
  have hstart : Backed nodes (calls nodes forward) source R dist f []
      (zeroTable nodes, tableOf nodes f) := by
    refine ⟨fun v hv => ?_, ?_⟩
    · refine (if_pos (hnodes v hv)).trans (congrArg some ?_)
      exact (Finset.sum_eq_zero fun w _ => if_neg List.not_mem_nil).symm
    · refine congrArg (tableOf nodes) (funext fun v => ?_)
      rw [if_neg fun hv => List.not_mem_nil hv.1, add_zero]
  obtain ⟨tables, hrun, hbacked⟩ := hstart.foldlM hR hnodes hcounted (List.nil_append _).symm
  have hgain : ∀ v, (if v ∈ s.order.reverse ∧ v ≠ source
      then dependency (calls nodes forward) source R dist v else 0) =
        gain nodes forward source v := by
    intro v
    have hmem : v ∈ s.order.reverse ↔ v ∈ R := List.mem_reverse.trans (hcounted.mem v)
    rw [gain]
    by_cases hv : v = source
    · rw [if_pos hv, if_neg fun hback => hback.2 hv]
    · rw [if_neg hv]
      by_cases hvR : v ∈ R
      · rw [if_pos ⟨hmem.2 hvR, hv⟩, hR.dependency_eq_sum hvR hv hsub]
      · rw [if_neg fun hback => hvR (hmem.1 hback.1)]
        exact (Finset.sum_eq_zero fun t _ => hR.fractionThrough_of_not_mem_through hvR).symm
  unfold addSource
  rw [hsearch]
  dsimp only [Option.bind_eq_bind, Option.bind_some]
  rw [hrun]
  refine congrArg some (hbacked.betweenness.trans ?_)
  simp only [hgain]

/-- **All sources add their fractions.** -/
theorem foldlM_addSource (hforward : ∀ u, ((forward.lookup u).getD []).Nodup)
    (hsources : ∀ source ∈ sources, source ∈ nodes) :
    sources.foldlM (addSource nodes forward) (tableOf nodes f) =
      some (tableOf nodes fun v => f v + (sources.map (gain nodes forward · v)).sum) := by
  induction sources generalizing f with
  | nil => simp
  | cons source sources ih =>
    rw [List.foldlM_cons, addSource_eq hforward (hsources source List.mem_cons_self)]
    refine (ih fun s hs => hsources s (List.mem_cons_of_mem source hs)).trans ?_
    simp only [List.map_cons, List.sum_cons, add_assoc]

theorem sum_gain (hnodup : nodes.Nodup) (v : N) : (nodes.map (gain nodes forward · v)).sum =
    ∑ s ∈ nodes.toFinset.erase v, ∑ t ∈ (nodes.toFinset.erase v).erase s,
      fractionThrough (fun a b => b ∈ calls nodes forward a) v s t := by
  have hself : (fun s => gain nodes forward s v) v = 0 := if_pos rfl
  calc (nodes.map (gain nodes forward · v)).sum
      = ∑ s ∈ nodes.toFinset, gain nodes forward s v := (List.sum_toFinset _ hnodup).symm
    _ = ∑ s ∈ nodes.toFinset.erase v, gain nodes forward s v :=
        (Finset.sum_erase (f := fun s => gain nodes forward s v) _ hself).symm
    _ = _ := Finset.sum_congr rfl fun s hs => if_neg (Finset.ne_of_mem_erase hs).symm

end Sources

/-! ## Betweenness -/

omit [DecidableEq N] in
theorem chooseSources_eq {nodeList : List N} {sampleSize : Option Nat}
    (h : ∀ k, sampleSize = some k → nodeList.length ≤ k) :
    chooseSources nodeList sampleSize = some nodeList := by
  cases sampleSize with
  | none => rfl
  | some k => exact if_neg (Nat.not_lt.2 (h k rfl))

theorem mapValues_tableOf (g : ℚ → ℚ) (f : N → ℚ) :
    mapValues g (tableOf nodes f) = tableOf nodes fun v => g (f v) := by
  funext v
  unfold mapValues tableOf
  split_ifs <;> rfl

omit [DecidableEq N] in
theorem foldl_max_le {l : List ℚ} {a b : ℚ} (ha : a ≤ b) (h : ∀ x ∈ l, x ≤ b) :
    l.foldl max a ≤ b :=
  List.foldlRecOn (motive := (· ≤ b)) l max ha fun _ ha x hx => max_le ha (h x hx)

end Model

/-- One function of the graph calls another one. -/
def CallGraph.Calls {N : Type} [DecidableEq N] (graph : CallGraph N) (u v : N) : Prop :=
  v ∈ calls graph.nodes graph.forward u

/-- **Betweenness of a call graph.** Without sampling the value of each function is the mean, over
the ordered pairs of distinct other functions, of the fraction of the shortest paths between them
that go through it; it lies between zero and one. -/
theorem computeBetweenness_spec {N : Type} [DecidableEq N] (ord : HashOrder) (graph : CallGraph N)
    (config : BetweennessConfig) (htwo : 2 < graph.nodes.length)
    (hmax : graph.nodes.length ≤ config.maxNodes)
    (hsample : ∀ k, config.sampleSize = some k → graph.nodes.length ≤ k) :
    ∃ result, computeBetweenness ord graph.nodes graph.forward config = some result ∧
      ∀ v ∈ graph.nodes,
        result v = some (betweenness graph.Calls graph.nodes.toFinset v) ∧
        betweenness graph.Calls graph.nodes.toFinset v ∈ Set.Icc 0 1 := by
  obtain ⟨nodes, forward, hnodup, hforward⟩ := graph
  dsimp only at htwo hmax hsample ⊢
  have hperm := ord.perm nodes
  have hvalue : ∀ v ∈ nodes, betweenness (fun a b => b ∈ calls nodes forward a)
      nodes.toFinset v ∈ Set.Icc 0 1 := fun v hv =>
    betweenness_mem_Icc (calls nodes forward) (List.mem_toFinset.2 hv)
  have hcard : nodes.toFinset.card = nodes.length := List.toFinset_card_of_nodup hnodup
  have hpos : 0 < (((nodes.length - 1) * (nodes.length - 2) : Nat) : ℚ) :=
    Nat.cast_pos.2 (Nat.mul_pos (by omega) (by omega))
  have hsources : chooseSources (ord.order nodes) config.sampleSize = some (ord.order nodes) :=
    chooseSources_eq fun k hk => hperm.length_eq.trans_le (hsample k hk)
  have hrun : (ord.order nodes).foldlM (addSource nodes forward) (zeroTable nodes) =
      some (tableOf nodes fun v => betweenness (fun a b => b ∈ calls nodes forward a)
        nodes.toFinset v * ((nodes.length - 1) * (nodes.length - 2) : Nat)) := by
    refine (foldlM_addSource (f := fun _ => 0) hforward fun s hs => hperm.mem_iff.1 hs).trans ?_
    refine congrArg some (congrArg (tableOf nodes) (funext fun v => ?_))
    rw [(hperm.map _).sum_eq, sum_gain hnodup, betweenness, hcard, zero_add,
      div_mul_cancel₀ _ hpos.ne']
  refine ⟨tableOf nodes (betweenness (fun a b => b ∈ calls nodes forward a) nodes.toFinset), ?_,
    fun v hv => ⟨if_pos hv, hvalue v hv⟩⟩
  unfold computeBetweenness
  dsimp only
  rw [if_neg (Nat.not_le.2 htwo), if_neg (Nat.not_lt.2 hmax), hsources]
  dsimp only [Option.bind_eq_bind, Option.bind_some]
  rw [hrun]
  dsimp only [Option.bind_some]
  rw [hperm.length_eq, if_neg (Nat.lt_irrefl _), if_neg (lt_irrefl _), if_pos hpos,
    mapValues_tableOf]
  have hdiv : (tableOf nodes fun v => betweenness (fun a b => b ∈ calls nodes forward a)
      nodes.toFinset v * ((nodes.length - 1) * (nodes.length - 2) : Nat) /
        ((nodes.length - 1) * (nodes.length - 2) : Nat)) =
      tableOf nodes (betweenness (fun a b => b ∈ calls nodes forward a) nodes.toFinset) :=
    congrArg (tableOf nodes) (funext fun v => mul_div_cancel_right₀ _ hpos.ne')
  rw [hdiv, if_neg]
  · rfl
  · -- no value is above one, so that the last division is not made
    refine not_lt.2 (foldl_max_le zero_le_one fun x hx => ?_)
    obtain ⟨v, hv, hvalue'⟩ := List.mem_filterMap.1 hx
    have hv := hperm.mem_iff.1 hv
    obtain rfl := Option.some.inj ((if_pos hv).symm.trans hvalue')
    exact (hvalue v hv).2

/-! ## The graph of a project -/

theorem nodup_collectNodes (graph : ProjectCallGraph) : (collectNodes graph).Nodup := by
  unfold collectNodes
  induction graph.edges using List.reverseRecOn with
  | nil => exact List.nodup_nil
  | append_singleton edges edge ih =>
    rw [List.foldl_concat]
    exact (ih.insert).insert

theorem nodup_lookup_buildForwardGraph (graph : ProjectCallGraph) (key : FunctionKey) :
    (((buildForwardGraph graph).lookup key).getD []).Nodup := by
  have hlookup := lookup_foldl_push CallEdge.caller CallEdge.callee graph.edges key
  rw [buildForwardGraph, hlookup, getD_nonempty]
  refine (graph.nodup.filter _).map_on ?_
  rintro ⟨srcFile, srcFunc, dstFile, dstFunc⟩ h ⟨srcFile', srcFunc', dstFile', dstFunc'⟩ h' heq
  have hcaller := of_decide_eq_true (List.mem_filter.1 h).2
  have hcaller' := of_decide_eq_true (List.mem_filter.1 h').2
  obtain ⟨rfl, rfl⟩ := FunctionRef.mk.inj heq
  obtain ⟨rfl, rfl⟩ := FunctionRef.mk.inj (hcaller.trans hcaller'.symm)
  rfl

def ProjectCallGraph.callGraph (graph : ProjectCallGraph) : CallGraph FunctionKey where
  nodes := collectNodes graph
  forward := buildForwardGraph graph
  nodup := nodup_collectNodes graph
  forward_nodup := nodup_lookup_buildForwardGraph graph

def diamondCalls : ProjectCallGraph where
  edges := [⟨"a.py".toList, "f", "a.py".toList, "g"⟩, ⟨"a.py".toList, "f", "a.py".toList, "h"⟩,
    ⟨"a.py".toList, "g", "a.py".toList, "k"⟩, ⟨"a.py".toList, "h", "a.py".toList, "k"⟩]
  nodup := by decide

theorem computeBetweenness_diamondCalls : ∃ result,
    computeBetweenness .insertion (collectNodes diamondCalls) (buildForwardGraph diamondCalls)
      ⟨none, 5000⟩ = some result ∧ ∀ v ∈ collectNodes diamondCalls,
        result v = some (betweenness diamondCalls.callGraph.Calls
          (collectNodes diamondCalls).toFinset v) ∧
        betweenness diamondCalls.callGraph.Calls (collectNodes diamondCalls).toFinset v ∈
          Set.Icc 0 1 :=
  computeBetweenness_spec .insertion diamondCalls.callGraph ⟨none, 5000⟩ (by decide) (by decide)
    (fun _ h => nomatch h)

end TldrCode.Analysis
