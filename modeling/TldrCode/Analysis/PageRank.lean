import Mathlib.Tactic.Linarith
import Mathlib.Tactic.Positivity
import TldrCode.Analysis.Betweenness
import TldrCode.Fallible

/-!
# Ranks of functions

`analysis/hubs.rs`: `compute_pagerank`, over exact rationals. A function passes its score on to the
functions it calls, in equal parts for each call, and the score of a function without calls goes to
all functions. No score gets lost (`sum_nextScore`), so the scores are a distribution after every
iteration (`computePagerank_spec`).
-/

namespace TldrCode.Analysis

/-! ## The algorithm -/

structure PageRankConfig where
  damping : ℚ
  maxIterations : Nat
  epsilon : ℚ

structure PageRankResult (N : Type) where
  scores : Table N ℚ
  iterationsUsed : Nat
  converged : Bool

section Model

variable {N : Type} [DecidableEq N] (le : N → N → Bool) (nodes : List N)
  (reverse forward : AList fun _ : N => List N) (config : PageRankConfig)

def outDegrees : Table N Nat := fun node =>
  if node ∈ nodes then some (((forward.lookup node).map List.length).getD 0) else none

/-- What a caller passes on to a function, for one call. -/
def passedOn (degrees : Table N Nat) (scores : Table N ℚ) (caller : N) : Option ℚ :=
  let callerOutDeg := (degrees caller).getD 0
  if 0 < callerOutDeg then (scores caller).map (· / callerOutDeg) else some 0

def incomingContrib (degrees : Table N Nat) (scores : Table N ℚ) (node : N) : Option ℚ :=
  match reverse.lookup node with
  | none => some 0
  | some callers => ((callers.mergeSort le).mapM (passedOn degrees scores)).map List.sum

/-- One iteration: the new scores and `max_delta`. The index of a missing score is `none`. -/
def iteratePagerank (scores : Table N ℚ) : Option (Table N ℚ × ℚ) := do
  let n : ℚ := nodes.length
  let sortedNodes := nodes.mergeSort le
  let degrees := outDegrees nodes forward
  let danglingNodes := sortedNodes.filter fun node => (degrees node).getD 0 = 0
  let dangling ← danglingNodes.mapM scores
  let danglingContrib := dangling.sum / n
  sortedNodes.foldlM (fun (newScores, maxDelta) node => do
    let incoming ← incomingContrib le reverse degrees scores node
    let newScore := (1 - config.damping) / n + config.damping * (incoming + danglingContrib)
    let score ← scores node
    let delta := |newScore - score|
    return (Function.update newScores node (some newScore),
      if maxDelta < delta then delta else maxDelta)) (fun _ => none, 0)

/-- The loop: the scores, the number of iterations and whether they converged. -/
def pagerankLoop : Nat → Nat → Table N ℚ → Option (Table N ℚ × Nat × Bool)
  | 0, used, scores => some (scores, used, false)
  | rounds + 1, used, scores => do
    let (newScores, maxDelta) ← iteratePagerank le nodes reverse forward config scores
    if maxDelta < config.epsilon then return (newScores, used + 1, true)
    else pagerankLoop rounds (used + 1) newScores

def computePagerank : Option (PageRankResult N) :=
  let n := nodes.length
  if n = 0 then some ⟨fun _ => none, 0, true⟩
  else if n = 1 then some ⟨tableOf nodes fun _ => 1, 0, true⟩
  else do
    let (scores, iterationsUsed, converged) ← pagerankLoop le nodes reverse forward config
      config.maxIterations 0 (tableOf nodes fun _ => 1 / n)
    let maxScore := (nodes.filterMap scores).foldl max 0
    let scores := if 0 < maxScore then mapValues (· / maxScore) scores else scores
    return ⟨scores, iterationsUsed, converged⟩

/-- The scores after so many iterations, before they are normalised. -/
def scoresAfter : Nat → Option (Table N ℚ)
  | 0 => some (tableOf nodes fun _ => 1 / nodes.length)
  | k + 1 => do
    let scores ← scoresAfter k
    let (newScores, _) ← iteratePagerank le nodes reverse forward config scores
    return newScores

end Model

/-- Positive scores of the functions that sum up to 1. -/
structure IsDistribution {N : Type} [DecidableEq N] (nodes : List N) (scores : Table N ℚ) :
    Prop where
  pos : ∀ node ∈ nodes, ∃ score > 0, scores node = some score
  sum : (nodes.filterMap scores).sum = 1

/-- The scores are a distribution after every iteration. In the result they are positive and at most
1, and one of them is 1. -/
structure ConservesScore (graph : ProjectCallGraph) (le : FunctionKey → FunctionKey → Bool)
    (config : PageRankConfig) : Prop where
  distribution : ∀ k, ∃ scores, scoresAfter le (collectNodes graph) (buildReverseGraph graph)
    (buildForwardGraph graph) config k = some scores ∧ IsDistribution (collectNodes graph) scores
  normalised : ∃ result scores m, computePagerank le (collectNodes graph) (buildReverseGraph graph)
      (buildForwardGraph graph) config = some result ∧
    scoresAfter le (collectNodes graph) (buildReverseGraph graph) (buildForwardGraph graph)
      config result.iterationsUsed = some scores ∧
    result.scores = mapValues (· / m) scores ∧
    (∀ v ∈ collectNodes graph, ∃ s ∈ Set.Ioc 0 1, result.scores v = some s) ∧
    ∃ v ∈ collectNodes graph, result.scores v = some 1

/-! ## One iteration -/

variable {graph : ProjectCallGraph} {le : FunctionKey → FunctionKey → Bool}
  {config : PageRankConfig} {score : FunctionKey → ℚ} {v : FunctionKey}

def outDegree (graph : ProjectCallGraph) (v : FunctionKey) : Nat :=
  (graph.edges.filter (·.caller = v)).length

/-- The score of a function, for each of its calls. -/
def share (graph : ProjectCallGraph) (score : FunctionKey → ℚ) (v : FunctionKey) : ℚ :=
  if 0 < outDegree graph v then score v / outDegree graph v else 0

/-- The scores of the functions without calls. -/
def danglingSum (graph : ProjectCallGraph) (score : FunctionKey → ℚ) : ℚ :=
  ∑ v ∈ (collectNodes graph).toFinset, if outDegree graph v = 0 then score v else 0

/-- The score of a function after an iteration. -/
def nextScore (graph : ProjectCallGraph) (d : ℚ) (score : FunctionKey → ℚ) (v : FunctionKey) : ℚ :=
  (1 - d) / (collectNodes graph).length + d * (((callersOf graph v).map (share graph score)).sum +
    danglingSum graph score / (collectNodes graph).length)

theorem mem_collectNodes :
    v ∈ collectNodes graph ↔ ∃ edge ∈ graph.edges, edge.caller = v ∨ edge.callee = v := by
  unfold collectNodes
  induction graph.edges using List.reverseRecOn with
  | nil => simp
  | append_singleton edges edge ih =>
    rw [List.foldl_concat]
    simp only [List.mem_insert_iff, ih, List.mem_append, List.mem_singleton]
    grind

theorem outDegrees_eq (v : FunctionKey) :
    (outDegrees (collectNodes graph) (buildForwardGraph graph) v).getD 0 = outDegree graph v := by
  have hlookup := lookup_foldl_push CallEdge.caller CallEdge.callee graph.edges v
  have hlength : (((buildForwardGraph graph).lookup v).map List.length).getD 0 =
      outDegree graph v := by
    rw [buildForwardGraph, hlookup, outDegree, ← List.length_map (f := CallEdge.callee)]
    cases (graph.edges.filter (·.caller = v)).map CallEdge.callee <;> rfl
  unfold outDegrees
  split_ifs with hv
  · simpa using hlength
  · -- a function that calls another one is in the graph
    rw [Option.getD_none, outDegree, eq_comm, List.length_eq_zero_iff, List.filter_eq_nil_iff]
    exact fun edge hedge hcaller =>
      hv (mem_collectNodes.2 ⟨edge, hedge, .inl (of_decide_eq_true hcaller)⟩)

theorem mapM_eq_some_map {α β : Type} {f : α → Option β} {g : α → β} {l : List α}
    (h : ∀ a ∈ l, f a = some (g a)) : l.mapM f = some (l.map g) := by
  rw [mapM_eq_some_iff, List.map_map]
  exact List.map_congr_left h

theorem incomingContrib_eq (v : FunctionKey) :
    incomingContrib le (buildReverseGraph graph)
      (outDegrees (collectNodes graph) (buildForwardGraph graph))
      (tableOf (collectNodes graph) score) v =
        some ((callersOf graph v).map (share graph score)).sum := by
  have hpassed : ∀ u ∈ (callersOf graph v).mergeSort le,
      passedOn (outDegrees (collectNodes graph) (buildForwardGraph graph))
        (tableOf (collectNodes graph) score) u = some (share graph score u) := by
    intro u hu
    obtain ⟨edge, hedge, hcaller, -⟩ := mem_callersOf.1 (List.mem_mergeSort.1 hu)
    have hmem : u ∈ collectNodes graph := mem_collectNodes.2 ⟨edge, hedge, .inl hcaller⟩
    simp only [passedOn, share, outDegrees_eq, tableOf, if_pos hmem, Option.map_some]
    split_ifs <;> rfl
  have hperm := (List.mergeSort_perm (callersOf graph v) le).map (share graph score)
  unfold incomingContrib
  rw [lookup_buildReverseGraph]
  cases hnil : callersOf graph v with
  | nil => rfl
  | cons u callers =>
    simp only [nonempty, List.isEmpty_cons, Bool.false_eq_true, if_false]
    rw [← hnil, mapM_eq_some_map hpassed, Option.map_some, hperm.sum_eq]

theorem foldlM_scores {f old : FunctionKey → Option ℚ} {new : FunctionKey → ℚ}
    {l : List FunctionKey} (hnew : ∀ v ∈ l, f v = some (new v)) (hold : ∀ v ∈ l, (old v).isSome) :
    ∃ maxDelta, l.foldlM (fun (state : Table FunctionKey ℚ × ℚ) v => do
      let newScore ← f v
      let score ← old v
      let delta := |newScore - score|
      return (Function.update state.1 v (some newScore),
        if state.2 < delta then delta else state.2)) (fun _ => none, 0) =
          some (tableOf l new, maxDelta) := by
  induction l using List.reverseRecOn with
  | nil => exact ⟨0, rfl⟩
  | append_singleton l v ih =>
    obtain ⟨maxDelta, ih⟩ := ih (fun u hu => hnew u (List.mem_append_left _ hu))
      fun u hu => hold u (List.mem_append_left _ hu)
    obtain ⟨score, hscore⟩ := Option.isSome_iff_exists.1 (hold v (by simp))
    refine ⟨if maxDelta < |new v - score| then |new v - score| else maxDelta, ?_⟩
    rw [List.foldlM_append, ih]
    simp only [Option.bind_eq_bind, Option.bind_some, List.foldlM_cons, List.foldlM_nil,
      hnew v (by simp), hscore]
    refine congrArg some (Prod.ext (funext fun u => ?_) rfl)
    by_cases hu : u = v <;> simp [hu, tableOf]

theorem iteratePagerank_eq (graph : ProjectCallGraph) (le : FunctionKey → FunctionKey → Bool)
    (config : PageRankConfig) (score : FunctionKey → ℚ) :
    ∃ maxDelta, iteratePagerank le (collectNodes graph) (buildReverseGraph graph)
      (buildForwardGraph graph) config (tableOf (collectNodes graph) score) =
        some (tableOf (collectNodes graph) (nextScore graph config.damping score), maxDelta) := by
  have hsorted := List.mergeSort_perm (collectNodes graph) le
  have hnodup := nodup_collectNodes graph
  have hdangling : ((((collectNodes graph).mergeSort le).filter fun v => outDegree graph v = 0).map
      score).sum = danglingSum graph score := by
    rw [((hsorted.filter _).map score).sum_eq, danglingSum, ← Finset.sum_filter,
      ← List.sum_toFinset score (hnodup.filter _), List.toFinset_filter]
    simp
  have hscores : ∀ v ∈ ((collectNodes graph).mergeSort le).filter fun v => outDegree graph v = 0,
      tableOf (collectNodes graph) score v = some (score v) := fun v hv =>
    if_pos (List.mem_mergeSort.1 (List.mem_filter.1 hv).1)
  have hold : ∀ v ∈ (collectNodes graph).mergeSort le,
      (tableOf (collectNodes graph) score v).isSome := fun v hv => by
    simp [tableOf, List.mem_mergeSort.1 hv]
  obtain ⟨maxDelta, hfold⟩ := foldlM_scores
    (f := fun v => some (nextScore graph config.damping score v)) (fun _ _ => rfl) hold
  refine ⟨maxDelta, ?_⟩
  unfold iteratePagerank
  simp only [outDegrees_eq, mapM_eq_some_map hscores, hdangling, incomingContrib_eq,
    Option.bind_eq_bind, Option.bind_some]
  refine hfold.trans (congrArg some (Prod.ext (funext fun v => ?_) rfl))
  exact if_congr List.mem_mergeSort rfl rfl

theorem sum_filter_key {α κ : Type} [DecidableEq κ] {nodes : Finset κ} {key : α → κ} {l : List α}
    (h : ∀ a ∈ l, key a ∈ nodes) (f : α → ℚ) :
    ∑ v ∈ nodes, ((l.filter (key · = v)).map f).sum = (l.map f).sum := by
  induction l with
  | nil => simp
  | cons a l ih =>
    have hsplit : ∀ v, (((a :: l).filter (key · = v)).map f).sum =
        (if key a = v then f a else 0) + ((l.filter (key · = v)).map f).sum := by
      intro v
      by_cases hv : key a = v <;> simp [hv]
    simp only [hsplit, Finset.sum_add_distrib, Finset.sum_ite_eq, h a List.mem_cons_self, if_true,
      ih fun b hb => h b (List.mem_cons_of_mem a hb), List.map_cons, List.sum_cons]

theorem sum_incoming (graph : ProjectCallGraph) (score : FunctionKey → ℚ) :
    ∑ v ∈ (collectNodes graph).toFinset, ((callersOf graph v).map (share graph score)).sum =
      ∑ v ∈ (collectNodes graph).toFinset, if outDegree graph v = 0 then 0 else score v := by
  have hcallee : ∀ edge ∈ graph.edges, edge.callee ∈ (collectNodes graph).toFinset :=
    fun edge hedge => List.mem_toFinset.2 (mem_collectNodes.2 ⟨edge, hedge, .inr rfl⟩)
  have hcaller : ∀ edge ∈ graph.edges, edge.caller ∈ (collectNodes graph).toFinset :=
    fun edge hedge => List.mem_toFinset.2 (mem_collectNodes.2 ⟨edge, hedge, .inl rfl⟩)
  calc
    _ = (graph.edges.map fun edge => share graph score edge.caller).sum := by
      rw [← sum_filter_key hcallee]
      simp only [callersOf, List.map_map, Function.comp_def]
    _ = ∑ v ∈ (collectNodes graph).toFinset, outDegree graph v * share graph score v := by
      rw [← sum_filter_key hcaller]
      refine Finset.sum_congr rfl fun v _ => ?_
      have hconst : ∀ edge ∈ graph.edges.filter (·.caller = v),
          share graph score edge.caller = share graph score v := fun edge hedge =>
        congrArg _ (of_decide_eq_true (List.mem_filter.1 hedge).2)
      rw [List.map_congr_left hconst, List.map_const', List.sum_replicate, nsmul_eq_mul, outDegree]
    _ = _ := by
      refine Finset.sum_congr rfl fun v _ => ?_
      unfold share
      by_cases hzero : outDegree graph v = 0
      · simp [hzero]
      · rw [if_pos (Nat.pos_of_ne_zero hzero), if_neg hzero]
        exact mul_div_cancel₀ _ (Nat.cast_ne_zero.2 hzero)

/-- **No score gets lost** in an iteration. -/
theorem sum_nextScore (hne : collectNodes graph ≠ []) (d : ℚ)
    (hsum : ∑ v ∈ (collectNodes graph).toFinset, score v = 1) :
    ∑ v ∈ (collectNodes graph).toFinset, nextScore graph d score v = 1 := by
  have hcard : ((collectNodes graph).toFinset.card : ℚ) = (collectNodes graph).length := by
    rw [List.toFinset_card_of_nodup (nodup_collectNodes graph)]
  have hpos : ((collectNodes graph).length : ℚ) ≠ 0 := by simpa using hne
  have hsplit : (∑ v ∈ (collectNodes graph).toFinset, if outDegree graph v = 0 then 0 else score v)
      + danglingSum graph score = 1 := by
    rw [danglingSum, ← Finset.sum_add_distrib, ← hsum]
    refine Finset.sum_congr rfl fun v _ => ?_
    split_ifs <;> simp
  simp only [nextScore, Finset.sum_add_distrib, ← Finset.mul_sum, sum_incoming, Finset.sum_const,
    nsmul_eq_mul, hcard]
  rw [mul_div_cancel₀ _ hpos, mul_div_cancel₀ _ hpos, hsplit]
  ring

theorem nextScore_pos (hne : collectNodes graph ≠ []) {d : ℚ} (hd : 0 < d) (hd' : d < 1)
    (hscore : ∀ v ∈ collectNodes graph, 0 < score v) (v : FunctionKey) :
    0 < nextScore graph d score v := by
  have hn : (0 : ℚ) < (collectNodes graph).length := by
    exact_mod_cast List.length_pos_iff.2 hne
  have hincoming : 0 ≤ ((callersOf graph v).map (share graph score)).sum := by
    apply List.sum_nonneg
    intro x hx
    obtain ⟨u, hu, rfl⟩ := List.mem_map.1 hx
    obtain ⟨edge, hedge, hcaller, -⟩ := mem_callersOf.1 hu
    have hpos := hscore u (mem_collectNodes.2 ⟨edge, hedge, .inl hcaller⟩)
    unfold share
    split_ifs <;> positivity
  have hdangling : 0 ≤ danglingSum graph score := by
    apply Finset.sum_nonneg
    intro u hu
    have hpos := hscore u (List.mem_toFinset.1 hu)
    split_ifs <;> positivity
  unfold nextScore
  positivity

/-! ## All iterations -/

def scoreAfter (graph : ProjectCallGraph) (d : ℚ) (k : Nat) : FunctionKey → ℚ :=
  (nextScore graph d)^[k] fun _ => 1 / (collectNodes graph).length

theorem scoreAfter_succ (graph : ProjectCallGraph) (d : ℚ) (k : Nat) :
    scoreAfter graph d (k + 1) = nextScore graph d (scoreAfter graph d k) :=
  Function.iterate_succ_apply' ..

section

variable (graph : ProjectCallGraph) (le : FunctionKey → FunctionKey → Bool)
  (config : PageRankConfig)

theorem scoresAfter_eq (k : Nat) :
    scoresAfter le (collectNodes graph) (buildReverseGraph graph) (buildForwardGraph graph) config
      k = some (tableOf (collectNodes graph) (scoreAfter graph config.damping k)) := by
  induction k with
  | zero => rfl
  | succ k ih =>
    obtain ⟨maxDelta, hiterate⟩ :=
      iteratePagerank_eq graph le config (scoreAfter graph config.damping k)
    rw [scoresAfter, ih]
    simp only [Option.bind_eq_bind, Option.bind_some, hiterate, scoreAfter_succ]
    rfl

theorem pagerankLoop_eq (rounds used : Nat) :
    ∃ used' converged, pagerankLoop le (collectNodes graph) (buildReverseGraph graph)
      (buildForwardGraph graph) config rounds used
      (tableOf (collectNodes graph) (scoreAfter graph config.damping used)) =
        some (tableOf (collectNodes graph) (scoreAfter graph config.damping used'), used',
          converged) := by
  induction rounds generalizing used with
  | zero => exact ⟨used, false, rfl⟩
  | succ rounds ih =>
    obtain ⟨maxDelta, hiterate⟩ :=
      iteratePagerank_eq graph le config (scoreAfter graph config.damping used)
    rw [← scoreAfter_succ] at hiterate
    unfold pagerankLoop
    simp only [hiterate, Option.bind_eq_bind, Option.bind_some]
    split_ifs
    · exact ⟨used + 1, true, rfl⟩
    · exact ih (used + 1)

end

theorem scoreAfter_spec (hne : collectNodes graph ≠ []) {d : ℚ} (hd : 0 < d) (hd' : d < 1)
    (k : Nat) : (∀ v ∈ collectNodes graph, 0 < scoreAfter graph d k v) ∧
      ∑ v ∈ (collectNodes graph).toFinset, scoreAfter graph d k v = 1 := by
  induction k with
  | zero =>
    have hn : (0 : ℚ) < (collectNodes graph).length := by
      exact_mod_cast List.length_pos_iff.2 hne
    refine ⟨fun v _ => one_div_pos.2 hn, ?_⟩
    simp only [scoreAfter, Function.iterate_zero, id, Finset.sum_const, nsmul_eq_mul,
      List.toFinset_card_of_nodup (nodup_collectNodes graph)]
    exact mul_one_div_cancel hn.ne'
  | succ k ih =>
    rw [scoreAfter_succ]
    exact ⟨fun v _ => nextScore_pos hne hd hd' ih.1 v, sum_nextScore hne d ih.2⟩

theorem filterMap_tableOf (graph : ProjectCallGraph) (score : FunctionKey → ℚ) :
    (collectNodes graph).filterMap (tableOf (collectNodes graph) score) =
      (collectNodes graph).map score := by
  rw [← List.filterMap_eq_map]
  exact List.filterMap_congr fun v hv => if_pos hv

theorem foldl_max_mem {l : List ℚ} (hne : l ≠ []) (hpos : ∀ x ∈ l, 0 < x) :
    l.foldl max 0 ∈ l ∧ ∀ x ∈ l, x ≤ l.foldl max 0 := by
  induction l using List.reverseRecOn with
  | nil => exact absurd rfl hne
  | append_singleton l x ih =>
    have hx : 0 < x := hpos x (by simp)
    rw [List.foldl_concat]
    by_cases hnil : l = []
    · simp [hnil, hx.le]
    · obtain ⟨hmem, hle⟩ := ih hnil fun y hy => hpos y (List.mem_append_left _ hy)
      constructor
      · rcases max_choice (l.foldl max 0) x with h | h <;> rw [h] <;> simp [hmem]
      · simp only [List.mem_append, List.mem_singleton]
        rintro y (hy | rfl)
        · exact (hle y hy).trans (le_max_left ..)
        · exact le_max_right ..

/-- **PageRank conserves the score.** After every iteration the scores are positive and sum up to 1.
The result is what the iterations used leave, divided by its maximum. -/
theorem computePagerank_spec (graph : ProjectCallGraph) (le : FunctionKey → FunctionKey → Bool)
    (config : PageRankConfig) (htwo : 2 ≤ (collectNodes graph).length)
    (hd : 0 < config.damping) (hd' : config.damping < 1) : ConservesScore graph le config := by
  have hne : collectNodes graph ≠ [] := by
    rintro hnil
    simp [hnil] at htwo
  have hspec := scoreAfter_spec hne hd hd'
  constructor
  · intro k
    refine ⟨_, scoresAfter_eq graph le config k, fun v hv => ⟨_, (hspec k).1 v hv, if_pos hv⟩, ?_⟩
    rw [filterMap_tableOf, ← List.sum_toFinset _ (nodup_collectNodes graph)]
    exact (hspec k).2
  · obtain ⟨used, converged, hloop⟩ :=
      pagerankLoop_eq graph le config config.maxIterations 0
    have hscore := (hspec used).1
    generalize hf : scoreAfter graph config.damping used = score at hloop hscore
    have hvalues : ∀ x ∈ (collectNodes graph).map score, 0 < x := by simpa using hscore
    obtain ⟨hmax, hle⟩ := foldl_max_mem (by simpa using hne) hvalues
    generalize hm : ((collectNodes graph).map score).foldl max 0 = m at hmax hle
    have hpos : 0 < m := hvalues m hmax
    refine ⟨⟨mapValues (· / m) (tableOf (collectNodes graph) score), used, converged⟩,
      tableOf (collectNodes graph) score, m, ?_, hf ▸ scoresAfter_eq graph le config used, rfl, ?_,
      ?_⟩
    · have hzero : (collectNodes graph).length ≠ 0 := by omega
      have hone : (collectNodes graph).length ≠ 1 := by omega
      unfold computePagerank
      dsimp only
      rw [if_neg hzero, if_neg hone]
      refine (congrArg (· >>= _) hloop).trans ?_
      simp only [Option.bind_eq_bind, Option.bind_some, filterMap_tableOf, hm, if_pos hpos]
      rfl
    · intro v hv
      refine ⟨score v / m, ⟨div_pos (hscore v hv) hpos, ?_⟩, ?_⟩
      · exact (div_le_one hpos).2 (hle _ (List.mem_map_of_mem hv))
      · simp [mapValues, tableOf, hv]
    · obtain ⟨v, hv, rfl⟩ := List.mem_map.1 hmax
      exact ⟨v, hv, by simp [mapValues, tableOf, hv, hpos.ne']⟩

theorem computePagerank_diamondCalls :
    ConservesScore diamondCalls (fun _ _ => true) ⟨17 / 20, 100, 0⟩ :=
  computePagerank_spec diamondCalls (fun _ _ => true) ⟨17 / 20, 100, 0⟩ (by decide) (by norm_num)
    (by norm_num)

end TldrCode.Analysis
