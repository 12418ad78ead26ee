import TldrCode.Inheritance.Filter

/-!
# Diamonds

`detect_diamonds` of `inheritance/patterns.rs`. The paths that are reported are right, but the
common ancestors are those that all parents have, and a parent is none of its own ancestors: the
diamonds are exact if and only if an ancestor that is reached through two parents is a proper
ancestor of every parent (`detectDiamonds_exact_iff`).
-/

namespace TldrCode.Inheritance

open TldrCode.Graph

structure DiamondPattern where
  className : String
  commonAncestor : String
  paths : List (List String)
  deriving DecidableEq, Repr

/-- The state of `find_path_to_ancestor`. The last entry of `parent_map` comes first. -/
structure PathSearch where
  queue : List String
  visited : List String
  parentMap : List (String × String)

/-- The nodes that `parent_map` leads through. The entry of a node is made after that of the node
that it leads to. -/
def follow : List (String × String) → String → List String
  | [], curr => [curr]
  | (x, child) :: parentMap, curr =>
    if x = curr then curr :: follow parentMap child else follow parentMap curr

/-- The loop over the parents of `current`, which ends at the ancestor with a path to it. -/
def visitParents (ancestor current : String) : List String → PathSearch → PathSearch ⊕ List String
  | [], s => .inl s
  | parent :: parents, s =>
    if parent ∈ s.visited then visitParents ancestor current parents s
    else
      let parentMap := (parent, current) :: s.parentMap
      if parent = ancestor then .inr (follow parentMap ancestor).reverse
      else visitParents ancestor current parents
        ⟨s.queue ++ [parent], parent :: s.visited, parentMap⟩

/-- The loop of `find_path_to_ancestor`, in so many rounds. -/
def searchPath (graph : InheritanceGraph) (ancestor : String) :
    Nat → PathSearch → Option (List String)
  | 0, _ => none
  | _ + 1, ⟨[], _, _⟩ => none
  | rounds + 1, ⟨current :: queue, visited, parentMap⟩ =>
    match visitParents ancestor current (graph.parents current) ⟨queue, visited, parentMap⟩ with
    | .inl s => searchPath graph ancestor rounds s
    | .inr path => some path

def findPathToAncestor (graph : InheritanceGraph) (start ancestor : String) :
    Option (List String) :=
  if start = ancestor then some [start]
  else searchPath graph ancestor (graph.edges.length + 1) ⟨[start], [start], []⟩

def computePathsToAncestor (graph : InheritanceGraph) (className ancestor : String)
    (parents : List String) : List (List String) :=
  parents.filterMap fun parent =>
    (findPathToAncestor graph parent ancestor).map fun path => className :: path

/-- The elements of a list, each where it is first. -/
def distinct {α : Type} [DecidableEq α] (l : List α) : List α := l.reverse.dedup.reverse

/-- The patterns of one class with several parents. -/
def diamondsOf (ord : HashOrder) (graph : InheritanceGraph) (className : String) :
    List DiamondPattern :=
  let parents := distinct (graph.parents className)
  if (graph.parents className).length < 2 ∨ parents.length < 2 then []
  else match parents.map graph.ancestorsBfs with
    | [] => []
    | first :: rest =>
      let common := rest.foldl (fun acc s => acc.filter (· ∈ s)) first
      (ord.order common).filterMap fun ancestor =>
        let uniquePaths := distinct (computePathsToAncestor graph className ancestor parents)
        if 2 ≤ uniquePaths.length then some ⟨className, ancestor, uniquePaths⟩ else none

def detectDiamonds (ord : HashOrder) (graph : InheritanceGraph) : List DiamondPattern :=
  (ord.order graph.classes).flatMap (diamondsOf ord graph)

variable {graph : InheritanceGraph} {ord : HashOrder} {start ancestor current p c a : String}
  {s s' : PathSearch} {parents path : List String}

/-! ## Paths to an ancestor -/

/-- What the search for a path relies on: `parent_map` leads back to the start. -/
structure Searched (graph : InheritanceGraph) (start ancestor : String) (s : PathSearch) :
    Prop where
  walks : ∀ x ∈ s.visited, Walk graph.Parent start x (follow s.parentMap x).reverse
  queued : ∀ x ∈ s.queue, x ∈ s.visited
  missing : ancestor ∉ s.visited

section

variable (h : Searched graph start ancestor s) (hcurrent : current ∈ s.visited)
  (hp : graph.Parent current p)
include h hcurrent hp

theorem Searched.walk_push :
    Walk graph.Parent start p (follow ((p, current) :: s.parentMap) p).reverse := by
  rw [follow, if_pos rfl, List.reverse_cons]
  exact (h.walks current hcurrent).concat hp

theorem Searched.push (hne : p ≠ ancestor) : Searched graph start ancestor
      ⟨s.queue ++ [p], p :: s.visited, (p, current) :: s.parentMap⟩ where
  walks x hx := by
    by_cases hxp : p = x
    · exact hxp ▸ h.walk_push hcurrent hp
    · rw [follow, if_neg hxp]
      exact h.walks x ((List.mem_cons.1 hx).resolve_left (Ne.symm hxp))
  queued x hx := by
    rcases List.mem_append.1 hx with hx | hx
    · exact List.mem_cons_of_mem _ (h.queued x hx)
    · exact List.mem_cons.2 (.inl (List.mem_singleton.1 hx))
  missing hx := (List.mem_cons.1 hx).elim (fun he => hne he.symm) h.missing

end

/-- The rounds that are left: one for each node in the queue and for each edge to a parent that is
still to be visited. -/
def PathSearch.budget (graph : InheritanceGraph) (s : PathSearch) : Nat :=
  s.queue.length + graph.reversed.countP (·.1 ∉ s.visited)

/-- The parents have been visited, those that had not been by way of the queue. -/
structure Advances (graph : InheritanceGraph) (parents : List String) (s s' : PathSearch) :
    Prop where
  visited : ∀ x ∈ s.visited, x ∈ s'.visited
  parents : ∀ x ∈ parents, x ∈ s'.visited
  queue : ∀ x ∈ s.queue, x ∈ s'.queue
  fresh : ∀ x ∈ s'.visited, x ∈ s.visited ∨ x ∈ s'.queue
  budget : s'.budget graph ≤ s.budget graph

/-- **The loop over the parents.** -/
theorem visitParents_spec (hparents : ∀ p ∈ parents, graph.Parent current p)
    (h : Searched graph start ancestor s) (hcurrent : current ∈ s.visited) :
    (∀ path, visitParents ancestor current parents s = .inr path →
      Walk graph.Parent start ancestor path) ∧
    ∀ s', visitParents ancestor current parents s = .inl s' →
      Searched graph start ancestor s' ∧ Advances graph parents s s' := by
  induction parents generalizing s with
  | nil =>
    refine ⟨nofun, fun s' hs' => ?_⟩
    obtain rfl := Sum.inl.inj hs'
    exact ⟨h, fun _ => id, nofun, fun _ => id, fun _ => .inl, le_rfl⟩
  | cons p parents ih =>
    obtain ⟨hp, hparents⟩ := List.forall_mem_cons.1 hparents
    rw [visitParents]
    split_ifs with hv he
    · obtain ⟨hpath, hnext⟩ := ih hparents h hcurrent
      refine ⟨hpath, fun s' hs' => ?_⟩
      obtain ⟨hsearched, hadv⟩ := hnext s' hs'
      exact ⟨hsearched, { hadv with
        parents := List.forall_mem_cons.2 ⟨hadv.visited p hv, hadv.parents⟩ }⟩
    · refine ⟨fun path hpath => ?_, nofun⟩
      obtain rfl := Sum.inr.inj hpath
      exact he ▸ h.walk_push hcurrent hp
    · obtain ⟨hpath, hnext⟩ := ih hparents (h.push hcurrent hp he) (List.mem_cons_of_mem _ hcurrent)
      refine ⟨hpath, fun s' hs' => ?_⟩
      obtain ⟨hsearched, hadv⟩ := hnext s' hs'
      have hcount : graph.reversed.countP (·.1 ∉ p :: s.visited) +
          (targets graph.reversed p).length = graph.reversed.countP (·.1 ∉ s.visited) :=
        countP_visit hv
      have hchild : current ∈ targets graph.reversed p :=
        mem_targets.2 (List.mem_map.2 ⟨_, hp, rfl⟩)
      have hpos := List.length_pos_of_mem hchild
      refine ⟨hsearched, fun x hx => hadv.visited x (List.mem_cons_of_mem _ hx),
        List.forall_mem_cons.2 ⟨hadv.visited p List.mem_cons_self, hadv.parents⟩,
        fun x hx => hadv.queue x (List.mem_append_left _ hx), fun x hx => ?_, ?_⟩
      · rcases hadv.fresh x hx with hx | hx
        · rcases List.mem_cons.1 hx with rfl | hx
          · exact .inr (hadv.queue x (List.mem_append_right _ (List.mem_singleton_self x)))
          · exact .inl hx
        · exact .inr hx
      · have hle := hadv.budget
        unfold PathSearch.budget at hle ⊢
        simp only [List.length_append, List.length_singleton] at hle
        omega

/-- A node that is not in the queue any more has had its parents visited. -/
def Closed (graph : InheritanceGraph) (s : PathSearch) : Prop :=
  ∀ x ∈ s.visited, x ∉ s.queue → ∀ p, graph.Parent x p → p ∈ s.visited

theorem Searched.not_reach (h : Searched graph start ancestor s) (hstart : start ∈ s.visited)
    (hclosed : Closed graph s) (hnil : s.queue = []) : ¬ Reach graph.Parent start ancestor :=
  fun hreach => h.missing (hreach.induct (P := (· ∈ s.visited)) hstart fun x p _ hp hx =>
    hclosed x hx (hnil ▸ List.not_mem_nil) p hp)

/-- The search returns a path to the ancestor, or there is none. -/
theorem searchPath_spec (rounds : Nat) (h : Searched graph start ancestor s)
    (hstart : start ∈ s.visited) (hclosed : Closed graph s) (hrounds : s.budget graph ≤ rounds) :
    (∀ path, searchPath graph ancestor rounds s = some path →
      Walk graph.Parent start ancestor path) ∧
    (searchPath graph ancestor rounds s = none → ¬ Reach graph.Parent start ancestor) := by
  induction rounds generalizing s with
  | zero =>
    refine ⟨nofun, fun _ => h.not_reach hstart hclosed (List.eq_nil_of_length_eq_zero ?_)⟩
    unfold PathSearch.budget at hrounds
    omega
  | succ rounds ih =>
    obtain ⟨queue, visited, parentMap⟩ := s
    cases queue with
    | nil => exact ⟨nofun, fun _ => h.not_reach hstart hclosed rfl⟩
    | cons current queue =>
      have hs : Searched graph start ancestor ⟨queue, visited, parentMap⟩ :=
        ⟨h.walks, fun x hx => h.queued x (List.mem_cons_of_mem _ hx), h.missing⟩
      have hparents : ∀ p ∈ graph.parents current, graph.Parent current p := fun p hp =>
        mem_targets.1 hp
      obtain ⟨hpath, hnext⟩ := visitParents_spec hparents hs (h.queued current List.mem_cons_self)
      rw [searchPath]
      cases hvisit : visitParents ancestor current (graph.parents current)
          ⟨queue, visited, parentMap⟩ with
      | inr path =>
        refine ⟨fun path' heq => ?_, nofun⟩
        obtain rfl := Option.some_inj.1 heq
        exact hpath path hvisit
      | inl s' =>
        obtain ⟨hsearched, hadv⟩ := hnext s' hvisit
        refine ih hsearched (hadv.visited start hstart) (fun x hx hqueue p hp => ?_) ?_
        · by_cases hxc : x = current
          · exact hadv.parents p (mem_targets.2 (hxc ▸ hp))
          · refine hadv.visited p (hclosed x ((hadv.fresh x hx).resolve_right hqueue) ?_ p hp)
            exact fun hmem => hqueue (hadv.queue x ((List.mem_cons.1 hmem).resolve_left hxc))
        · have hle := hadv.budget
          unfold PathSearch.budget at hrounds hle
          simp only [List.length_cons] at hrounds hle
          unfold PathSearch.budget
          omega

theorem findPathToAncestor_spec (graph : InheritanceGraph) (start ancestor : String) :
    (∀ path, findPathToAncestor graph start ancestor = some path →
      Walk graph.Parent start ancestor path) ∧
    (findPathToAncestor graph start ancestor = none → ¬ Reach graph.Parent start ancestor) := by
  unfold findPathToAncestor
  split_ifs with he
  · refine ⟨fun path heq => ?_, nofun⟩
    obtain rfl := Option.some_inj.1 heq
    exact he ▸ .single start
  · refine searchPath_spec _ ⟨fun x hx => ?_, fun _ => id, ?_⟩ List.mem_cons_self
      (fun x hx hq => absurd hx hq) ?_
    · obtain rfl := List.mem_singleton.1 hx
      exact .single x
    · exact fun hx => he (List.mem_singleton.1 hx).symm
    · have hle := List.countP_le_length (p := fun e => e.1 ∉ [start]) (l := graph.reversed)
      rw [InheritanceGraph.reversed, List.length_map] at hle
      simp only [PathSearch.budget, InheritanceGraph.reversed, List.length_singleton]
      omega

/-! ## Diamonds -/

theorem nodup_distinct {α : Type} [DecidableEq α] (l : List α) : (distinct l).Nodup :=
  List.nodup_reverse.2 (List.nodup_dedup _)

theorem mem_distinct {α : Type} [DecidableEq α] {l : List α} {x : α} : x ∈ distinct l ↔ x ∈ l := by
  simp [distinct]

theorem mem_distinct_parents : p ∈ distinct (graph.parents c) ↔ graph.Parent c p :=
  mem_distinct.trans mem_targets

theorem distinct_eq_self {α : Type} [DecidableEq α] {l : List α} (h : l.Nodup) :
    distinct l = l := by
  rw [distinct, (List.nodup_reverse.2 h).dedup, List.reverse_reverse]

/-- The ancestor is reached through two parents of the class. -/
def Diamond (graph : InheritanceGraph) (c a : String) : Prop :=
  ∃ p q, p ≠ q ∧ graph.Parent c p ∧ graph.Parent c q ∧ Reach graph.Parent p a ∧
    Reach graph.Parent q a

/-- `a` is an ancestor of `p` other than by being `p`. -/
def ProperAncestor (graph : InheritanceGraph) (p a : String) : Prop :=
  ∃ q, graph.Parent p q ∧ Reach graph.Parent q a

/-- Each diamond is reported once, and nothing else, with paths that are through different
parents. -/
structure DiamondsExact (graph : InheritanceGraph) (diamonds : List DiamondPattern) : Prop where
  once : (diamonds.map fun d => (d.className, d.commonAncestor)).Nodup
  reported : ∀ c a, (c, a) ∈ diamonds.map (fun d => (d.className, d.commonAncestor)) ↔
    Diamond graph c a
  chains : ∀ d ∈ diamonds, ∀ path ∈ d.paths, Walk graph.Parent d.className d.commonAncestor path
  parents : ∀ d ∈ diamonds, 2 ≤ d.paths.length ∧ (d.paths.map fun path => path.tail.head?).Nodup

theorem mem_ancestorsBfs : a ∈ graph.ancestorsBfs p ↔ ProperAncestor graph p a := by
  rw [InheritanceGraph.ancestorsBfs, mem_queueSearch (rising_start _ 1) (by
    have hle := List.countP_le_length (p := fun e => e.1 ∉ ([] : List String)) (l := graph.edges)
    rw [List.length_map]
    omega), or_iff_right List.not_mem_nil]
  simp only [Finds, InheritanceGraph.parents, List.mem_map, exists_exists_and_eq_and, mem_targets,
    List.not_mem_nil, not_false_eq_true, implies_true, Option.mem_def, reduceCtorEq, false_implies,
    and_true]
  rfl

/-- The paths that are reported for an ancestor of all parents. -/
theorem computePathsToAncestor_spec (hparents : ∀ p ∈ parents, graph.Parent c p)
    (h : ∀ p ∈ parents, Reach graph.Parent p a) :
    (computePathsToAncestor graph c a parents).map (·.tail.head?) = parents.map some ∧
    ∀ path ∈ computePathsToAncestor graph c a parents, Walk graph.Parent c a path := by
  induction parents with
  | nil => exact ⟨rfl, nofun⟩
  | cons p parents ih =>
    obtain ⟨hp, hparents⟩ := List.forall_mem_cons.1 hparents
    obtain ⟨hreach, h⟩ := List.forall_mem_cons.1 h
    obtain ⟨hmap, hwalk⟩ := ih hparents h
    obtain ⟨hpath, hnone⟩ := findPathToAncestor_spec graph p a
    unfold computePathsToAncestor at *
    cases hfind : findPathToAncestor graph p a with
    | none => exact absurd hreach (hnone hfind)
    | some path =>
      have w := hpath path hfind
      rw [List.filterMap_cons_some (by rw [hfind]; rfl), List.map_cons, hmap, List.map_cons]
      exact ⟨congrArg (· :: _) w.head, List.forall_mem_cons.2 ⟨w.cons hp, hwalk⟩⟩

theorem foldl_filter_mem (first : List String) (rest : List (List String)) :
    rest.foldl (fun acc s => acc.filter (· ∈ s)) first =
      first.filter fun x => rest.all fun s => x ∈ s := by
  induction rest generalizing first with
  | nil => simp
  | cons s rest ih =>
    rw [List.foldl_cons, ih, List.filter_filter]
    refine List.filter_congr fun x _ => ?_
    rw [List.all_cons, Bool.and_comm]

def Forked (graph : InheritanceGraph) (c : String) : Prop :=
  ∃ p q, p ≠ q ∧ graph.Parent c p ∧ graph.Parent c q

theorem two_le_length_distinct : 2 ≤ (distinct (graph.parents c)).length ↔ Forked graph c := by
  have hmem : ∀ p, p ∈ distinct (graph.parents c) ↔ graph.Parent c p := fun _ =>
    mem_distinct_parents
  have hnodup := nodup_distinct (graph.parents c)
  unfold Forked
  simp only [← hmem]
  clear hmem
  generalize distinct (graph.parents c) = parents at *
  cases parents with
  | nil => simp
  | cons p l =>
    cases l with
    | nil =>
      simp only [List.length_singleton, List.mem_singleton]
      exact iff_of_false (by omega) fun ⟨p, q, hne, hp, hq⟩ => hne (hp.trans hq.symm)
    | cons q l =>
      refine iff_of_true (by simp) ⟨p, q, fun he => ?_, by simp, by simp⟩
      subst he
      exact (List.nodup_cons.1 hnodup).1 List.mem_cons_self

/-- **The patterns of a class**: one for each proper ancestor that all its parents have. -/
theorem diamondsOf_eq (ord : HashOrder) (graph : InheritanceGraph) (c : String) :
    ∃ common : List String, common.Nodup ∧
      (∀ a, a ∈ common ↔ Forked graph c ∧ ∀ p, graph.Parent c p → ProperAncestor graph p a) ∧
      diamondsOf ord graph c = common.map fun a =>
        ⟨c, a, computePathsToAncestor graph c a (distinct (graph.parents c))⟩ := by
  have hmem : ∀ p, p ∈ distinct (graph.parents c) ↔ graph.Parent c p := fun _ =>
    mem_distinct_parents
  unfold diamondsOf
  dsimp only
  by_cases hforked : Forked graph c
  · have htwo := two_le_length_distinct.2 hforked
    have hle : (distinct (graph.parents c)).length ≤ (graph.parents c).length := by
      simpa [distinct] using (List.dedup_sublist (graph.parents c).reverse).length_le
    rw [if_neg (by omega)]
    have hnodup := nodup_distinct (graph.parents c)
    generalize distinct (graph.parents c) = parents at *
    cases parents with
    | nil => simp at htwo
    | cons p parents =>
      rw [List.map_cons]
      dsimp only
      rw [foldl_filter_mem]
      have hanc : (graph.ancestorsBfs p).Nodup := nodup_queueSearch List.nodup_nil
      refine ⟨ord.order ((graph.ancestorsBfs p).filter fun x =>
        (parents.map graph.ancestorsBfs).all fun s => x ∈ s),
        (ord.perm _).nodup_iff.2 (hanc.filter _), fun a => ?_, ?_⟩
      · rw [and_iff_right hforked, HashOrder.mem_order, List.mem_filter]
        simp [← hmem, mem_ancestorsBfs]
      · refine (List.filterMap_congr fun a ha => ?_).trans (congrFun List.filterMap_eq_map _)
        rw [HashOrder.mem_order, List.mem_filter] at ha
        have hproper : ∀ q ∈ p :: parents, Reach graph.Parent q a := by
          intro q hq
          have hanc : ProperAncestor graph q a := by
            rcases List.mem_cons.1 hq with rfl | hq
            · exact mem_ancestorsBfs.1 ha.1
            · simp only [List.all_map, List.all_eq_true, Function.comp_apply,
                decide_eq_true_eq] at ha
              exact mem_ancestorsBfs.1 (ha.2 q hq)
          obtain ⟨r, hr, hreach⟩ := hanc
          exact (Reach.edge hr).trans hreach
        have hmap := (computePathsToAncestor_spec (fun q hq => (hmem q).1 hq) hproper).1
        have hpaths : (computePathsToAncestor graph c a (p :: parents)).Nodup := by
          refine List.Nodup.of_map (·.tail.head?) ?_
          rw [hmap]
          exact hnodup.map fun _ _ => Option.some.inj
        have hlength := congrArg List.length hmap
        rw [List.length_map, List.length_map] at hlength
        rw [distinct_eq_self hpaths, if_pos (by omega)]
        rfl
  · rw [if_pos (.inr (Nat.lt_of_not_le (hforked ∘ two_le_length_distinct.1)))]
    exact ⟨[], List.nodup_nil, fun a => by simp [hforked], rfl⟩

/-- **The diamonds are exact** if and only if an ancestor that is reached through two parents of a
class is a proper ancestor of all of them. -/
theorem detectDiamonds_exact_iff (ord : HashOrder) (graph : InheritanceGraph) :
    DiamondsExact graph (detectDiamonds ord graph) ↔
      ∀ c a, Diamond graph c a → ∀ p, graph.Parent c p → ProperAncestor graph p a := by
  choose common hnodup hcommon hdiamonds using diamondsOf_eq ord graph
  have hkeys : (detectDiamonds ord graph).map (fun d => (d.className, d.commonAncestor)) =
      (ord.order graph.classes).flatMap fun c => (common c).map (c, ·) := by
    rw [detectDiamonds, List.map_flatMap]
    refine List.flatMap_congr fun c _ => ?_
    rw [hdiamonds, List.map_map]
    rfl
  have hmem : ∀ c a, (c, a) ∈ (detectDiamonds ord graph).map
      (fun d => (d.className, d.commonAncestor)) ↔ a ∈ common c := by
    intro c a
    rw [hkeys]
    simp only [List.mem_flatMap, List.mem_map, Prod.mk.injEq, HashOrder.mem_order]
    refine ⟨?_, fun ha => ⟨c, ?_, a, ha, rfl, rfl⟩⟩
    · rintro ⟨c', -, a', ha, rfl, rfl⟩
      exact ha
    obtain ⟨p, -, -, hp, -⟩ := ((hcommon c a).1 ha).1
    rw [InheritanceGraph.classes, List.mem_dedup]
    exact List.mem_map.2 ⟨_, hp, rfl⟩
  have hdiamond : ∀ c a, a ∈ common c → Diamond graph c a := by
    intro c a ha
    obtain ⟨⟨p, q, hne, hp, hq⟩, hall⟩ := (hcommon c a).1 ha
    obtain ⟨p', hp', hreach⟩ := hall p hp
    obtain ⟨q', hq', hreach'⟩ := hall q hq
    exact ⟨p, q, hne, hp, hq, (Reach.edge hp').trans hreach, (Reach.edge hq').trans hreach'⟩
  constructor
  · intro hexact c a hd
    exact ((hcommon c a).1 ((hmem c a).1 ((hexact.reported c a).2 hd))).2
  · intro hall
    have hpaths : ∀ d ∈ detectDiamonds ord graph, Forked graph d.className ∧
        (d.paths.map (·.tail.head?) = (distinct (graph.parents d.className)).map some) ∧
        ∀ path ∈ d.paths, Walk graph.Parent d.className d.commonAncestor path := by
      intro d hd
      obtain ⟨c, -, hd⟩ := List.mem_flatMap.1 hd
      rw [hdiamonds] at hd
      obtain ⟨a, ha, rfl⟩ := List.mem_map.1 hd
      obtain ⟨hforked, hproper⟩ := (hcommon c a).1 ha
      refine ⟨hforked, computePathsToAncestor_spec (fun p hp => ?_) fun p hp => ?_⟩
      · exact mem_distinct_parents.1 hp
      · obtain ⟨q, hq, hreach⟩ := hproper p (mem_distinct_parents.1 hp)
        exact (Reach.edge hq).trans hreach
    refine ⟨?_, fun c a => (hmem c a).trans ⟨hdiamond c a, fun hd => ?_⟩,
      fun d hd => (hpaths d hd).2.2, fun d hd => ?_⟩
    · rw [hkeys, List.nodup_flatMap]
      refine ⟨fun c _ => (hnodup c).map fun a b h => (Prod.mk.inj h).2, ?_⟩
      refine ((ord.perm _).nodup_iff.2 (List.nodup_dedup _)).imp fun hne => ?_
      intro e he he'
      obtain ⟨a, -, rfl⟩ := List.mem_map.1 he
      obtain ⟨a', -, heq⟩ := List.mem_map.1 he'
      exact hne (Prod.mk.inj heq).1.symm
    · have hproper := hall c a hd
      obtain ⟨p, q, hne, hp, hq, -⟩ := hd
      exact (hcommon c a).2 ⟨⟨p, q, hne, hp, hq⟩, hproper⟩
    · obtain ⟨hforked, hmap, -⟩ := hpaths d hd
      have hlength := congrArg List.length hmap
      rw [List.length_map, List.length_map] at hlength
      rw [hmap, hlength]
      exact ⟨two_le_length_distinct.2 hforked,
        (nodup_distinct _).map fun _ _ => Option.some.inj⟩

/-- A class with three parents, two of which have the same parent. -/
def thirdParent : InheritanceGraph where
  nodes := ["A", "B", "C", "D", "M"]
  edges := [("D", "B"), ("D", "C"), ("D", "M"), ("B", "A"), ("C", "A")]

theorem not_detectDiamonds_exact : ¬ ∀ (ord : HashOrder) (graph : InheritanceGraph),
    DiamondsExact graph (detectDiamonds ord graph) := by
  intro h
  have hreach : ∀ p, thirdParent.Parent p "A" → Reach thirdParent.Parent p "A" := fun p => .edge
  have hmem := ((h .insertion thirdParent).reported "D" "A").2 ⟨"B", "C", by decide, by
    unfold InheritanceGraph.Parent; decide, by unfold InheritanceGraph.Parent; decide,
    hreach "B" (by unfold InheritanceGraph.Parent; decide),
    hreach "C" (by unfold InheritanceGraph.Parent; decide)⟩
  revert hmem
  decide

end TldrCode.Inheritance
