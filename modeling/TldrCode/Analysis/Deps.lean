import Mathlib.Data.List.AList
import Mathlib.Data.List.Sort
import Mathlib.Order.WellFoundedSet
import TldrCode.Types

/-!
# Depths of dependencies

`analysis/deps.rs`: the dependency map and `calculate_depth_stats`, which takes files from a queue
once all files that depend on them have been taken. On a map without cycles the depth that it
returns is the length of a longest path (`calculateDepthStats_spec`).
-/

namespace TldrCode.Analysis

open Relation

/-! ## Dependencies -/

/-- `BTreeMap<PathBuf, Vec<PathBuf>>`. -/
abbrev DepMap (N : Type) := AList fun _ : N => List N

namespace DepMap

variable {N : Type} [DecidableEq N]

def targets (deps : DepMap N) (n : N) : List N := (deps.lookup n).getD []

def walk [LinearOrder N] (deps : DepMap N) : List (Sigma fun _ : N => List N) :=
  deps.entries.insertionSort (·.1 ≤ ·.1)

def Edge (deps : DepMap N) (u v : N) : Prop := v ∈ deps.targets u

/-- No file depends on itself, through other files or directly. -/
def Acyclic (deps : DepMap N) : Prop := ∀ v, ¬ TransGen deps.Edge v v

/-- A path among the keys: the files before its last one. -/
inductive PathTo (deps : DepMap N) : List N → N → Prop
  | start {v : N} (hv : v ∈ deps) : PathTo deps [] v
  | step {l : List N} {u v : N} (h : PathTo deps l u) (huv : deps.Edge u v) (hv : v ∈ deps) :
    PathTo deps (l ++ [u]) v

/-- The number of edges of a longest path among the keys. -/
structure IsLongest (deps : DepMap N) (n : Nat) : Prop where
  le : ∀ l v, PathTo deps l v → l.length ≤ n
  attained : deps.keys ≠ [] → ∃ l v, PathTo deps l v ∧ l.length = n
  empty : deps.keys = [] → n = 0

end DepMap

/-! ## Depth statistics -/

section Depth

variable {N : Type} [LinearOrder N]

abbrev Counts (N : Type) := AList fun _ : N => Nat

/-- `*counts.entry(n).or_insert(0) += 1`. -/
def bump (counts : Counts N) (n : N) : Counts N :=
  counts.insert n ((counts.lookup n).getD 0 + 1)

def zeros (deps : DepMap N) : Counts N :=
  deps.walk.foldl (fun counts entry =>
    if entry.1 ∈ counts then counts else counts.insert entry.1 0) ∅

def incoming (deps : DepMap N) : Counts N :=
  deps.walk.foldl (fun counts entry => entry.2.foldl bump counts) (zeros deps)

/-- `in_degree`. -/
def inDegrees (deps : DepMap N) : Counts N :=
  deps.walk.foldl (fun counts entry => entry.2.foldl (fun counts dep =>
    if dep ∈ deps then bump counts dep else counts) counts) (zeros deps)

structure DepthState (N : Type) [LinearOrder N] where
  inDegree : Counts N
  distances : Counts N
  maxDepth : Nat
  queue : List N

/-- The files without incoming edges are queued, in the order of the table. -/
def DepthState.start (ord : HashOrder) (deps : DepMap N) : DepthState N :=
  let inDegree := inDegrees deps
  let roots := ((ord.order inDegree.entries).filter (·.2 = 0)).map (·.1)
  { inDegree
    distances := roots.foldl (fun distances node => distances.insert node 0) ∅
    maxDepth := 0
    queue := roots }

/-- A neighbour is looked at; `none` is an underflow of its in-degree. -/
def DepthState.lookAt (currentDist : Nat) (s : DepthState N) (neighbor : N) :
    Option (DepthState N) :=
  match s.inDegree.lookup neighbor with
  | none => some s
  | some inDeg =>
    let newDist := currentDist + 1
    let entry := (s.distances.lookup neighbor).getD 0
    if inDeg = 0 then none
    else some {
      inDegree := s.inDegree.insert neighbor (inDeg - 1)
      distances := s.distances.insert neighbor (if newDist > entry then newDist else entry)
      maxDepth := if newDist > s.maxDepth then newDist else s.maxDepth
      queue := if inDeg - 1 = 0 then s.queue ++ [neighbor] else s.queue }

def DepthState.visit (deps : DepMap N) (s : DepthState N) (node : N) : Option (DepthState N) :=
  (deps.targets node).foldlM (lookAt ((s.distances.lookup node).getD 0)) s

def DepthState.visitAll (deps : DepMap N) : Nat → DepthState N → Option (DepthState N)
  | 0, s => if s.queue.isEmpty then some s else none
  | rounds + 1, s =>
    match s.queue with
    | [] => some s
    | node :: queue => do
      let s ← visit deps { s with queue } node
      visitAll deps rounds s

/-- `calculate_depth_stats`: the depth, the leaves and the roots. -/
def calculateDepthStats (ord : HashOrder) (deps : DepMap N) : Option (Nat × Nat × Nat) :=
  if deps.keys.isEmpty then some (0, 0, 0) else do
    let leafFiles := (deps.walk.filter (·.2.isEmpty)).length
    let rootFiles := (deps.walk.filter fun entry =>
      ((incoming deps).lookup entry.1).getD 0 = 0).length
    let s ← DepthState.visitAll deps deps.keys.length (.start ord deps)
    return (s.maxDepth, leafFiles, rootFiles)

/-! ## In-degrees -/

variable {deps : DepMap N} {v node : N} {s : DepthState N}

def allTargets (deps : DepMap N) : List N := deps.keys.flatMap deps.targets

theorem mem_walk {entry : Sigma fun _ : N => List N} :
    entry ∈ deps.walk ↔ entry ∈ deps.entries := List.mem_insertionSort _

theorem mem_iff_mem_walk : v ∈ deps ↔ ∃ entry ∈ deps.walk, entry.1 = v := by
  simp only [mem_walk]
  rw [AList.mem_keys, AList.keys, List.keys, List.mem_map]

theorem flatMap_walk_perm (deps : DepMap N) : (deps.walk.flatMap (·.2)).Perm (allTargets deps) := by
  refine ((List.perm_insertionSort _ _).flatMap_right _).trans (List.Perm.of_eq ?_)
  rw [allTargets, AList.keys, List.keys, List.flatMap_map]
  refine List.flatMap_congr fun entry hentry => ?_
  rw [DepMap.targets, AList.mem_lookup_iff.2 hentry]
  rfl

theorem lookup_zeros (deps : DepMap N) (v : N) :
    (zeros deps).lookup v = if v ∈ deps then some 0 else none := by
  have hfold : ∀ l : List (Sigma fun _ : N => List N), (l.foldl (fun counts entry =>
      if entry.1 ∈ counts then counts else counts.insert entry.1 0) (∅ : Counts N)).lookup v =
        if ∃ entry ∈ l, entry.1 = v then some 0 else none := by
    intro l
    induction l using List.reverseRecOn with
    | nil => simp
    | append_singleton l entry ih =>
      rw [List.foldl_concat]
      simp only [List.mem_append, List.mem_singleton, or_and_right, exists_or, exists_eq_left]
      split_ifs with hmem hv hv
      · rw [ih]
        split_ifs with hold
        · rfl
        · rcases hv with hv | rfl
          · exact absurd hv hold
          · rw [← AList.lookup_isSome, ih, if_neg hold] at hmem
            cases hmem
      · rw [ih, if_neg fun hold => hv (.inl hold)]
      · rcases hv with hv | rfl
        · by_cases hentry : v = entry.1
          · rw [hentry, AList.lookup_insert]
          · rw [AList.lookup_insert_ne hentry, ih, if_pos hv]
        · rw [AList.lookup_insert]
      · rw [not_or] at hv
        rw [AList.lookup_insert_ne (Ne.symm hv.2), ih, if_neg hv.1]
  rw [zeros, hfold]
  exact if_congr mem_iff_mem_walk.symm rfl rfl

theorem lookup_inDegrees (deps : DepMap N) (v : N) :
    (inDegrees deps).lookup v = if v ∈ deps then some ((allTargets deps).count v) else none := by
  have hfold : ∀ l : List N, (l.foldl (fun counts dep =>
      if dep ∈ deps then bump counts dep else counts) (zeros deps)).lookup v =
        if v ∈ deps then some (l.count v) else none := by
    intro l
    induction l using List.reverseRecOn with
    | nil => rw [List.foldl_nil, lookup_zeros, List.count_nil]
    | append_singleton l dep ih =>
      rw [List.foldl_concat, List.count_append, List.count_singleton]
      by_cases hdep : dep = v
      · subst hdep
        rw [beq_self_eq_true, if_pos rfl]
        by_cases hmem : dep ∈ deps
        · rw [if_pos hmem, if_pos hmem, bump, AList.lookup_insert, ih, if_pos hmem]
          rfl
        · rw [if_neg hmem, if_neg hmem, ih, if_neg hmem]
      · have hbeq : (dep == v) = false := beq_false_of_ne hdep
        simp only [hbeq, Bool.false_eq_true, if_false, Nat.add_zero]
        split_ifs with hmem hv hv
        · rw [bump, AList.lookup_insert_ne (Ne.symm hdep), ih, if_pos hv]
        · rw [bump, AList.lookup_insert_ne (Ne.symm hdep), ih, if_neg hv]
        · rw [ih, if_pos hv]
        · rw [ih, if_neg hv]
  have hflat := hfold (deps.walk.flatMap (·.2))
  rw [List.foldl_flatMap, (flatMap_walk_perm deps).count_eq] at hflat
  exact hflat

/-! ## The loop -/

/-- The dependencies that are still to be looked at: the rest of a file, and those of the files that
have not been taken. -/
def pending (deps : DepMap N) (rest todo : List N) : List N := rest ++ todo.flatMap deps.targets

def DepthState.dist (s : DepthState N) (v : N) : Nat := (s.distances.lookup v).getD 0

/-- The files that have been taken, those that have not, and the dependencies of the last one that
are still to be looked at. -/
structure Taken (deps : DepMap N) (done todo : List N) (current : Option N) (rest : List N)
    (s : DepthState N) : Prop where
  keys : (done ++ todo).Perm deps.keys
  inDegree : ∀ v, s.inDegree.lookup v =
    if v ∈ deps then some ((pending deps rest todo).count v) else none
  queue : ∀ v, v ∈ s.queue ↔ v ∈ todo ∧ (pending deps rest todo).count v = 0
  nodup : s.queue.Nodup
  settled : ∀ v ∈ done, (pending deps rest todo).count v = 0
  attained : ∀ v ∈ deps, ∃ l, DepMap.PathTo deps l v ∧ l.length = s.dist v
  maxAttained : s.maxDepth = 0 ∨ ∃ l v, DepMap.PathTo deps l v ∧ l.length = s.maxDepth
  looked : ∀ u ∈ done, ∀ v ∈ deps, deps.Edge u v → some u = current ∧ v ∈ rest ∨
    s.dist u + 1 ≤ s.dist v ∧ s.dist u + 1 ≤ s.maxDepth

variable {done todo rest : List N} {current : Option N}

theorem Taken.mem_iff (h : Taken deps done todo current rest s) :
    v ∈ deps ↔ v ∈ done ∨ v ∈ todo := by
  rw [AList.mem_keys, ← h.keys.mem_iff, List.mem_append]

theorem count_pending_cons (deps : DepMap N) (v w : N) (rest todo : List N) :
    (pending deps (v :: rest) todo).count w =
      (pending deps rest todo).count w + if v = w then 1 else 0 := by
  rw [pending, List.cons_append, List.count_cons]
  simp only [beq_iff_eq, pending]

/-- What is left when a key has been looked at. -/
def DepthState.relaxed (s : DepthState N) (currentDist : Nat) (v : N) (inDeg : Nat) :
    DepthState N where
  inDegree := s.inDegree.insert v inDeg
  distances := s.distances.insert v
    (if currentDist + 1 > s.dist v then currentDist + 1 else s.dist v)
  maxDepth := if currentDist + 1 > s.maxDepth then currentDist + 1 else s.maxDepth
  queue := if inDeg = 0 then s.queue ++ [v] else s.queue

theorem dist_relaxed_self (s : DepthState N) (currentDist : Nat) (v : N) (inDeg : Nat) :
    (s.relaxed currentDist v inDeg).dist v =
      if currentDist + 1 > s.dist v then currentDist + 1 else s.dist v := by
  unfold DepthState.relaxed DepthState.dist
  rw [AList.lookup_insert]
  rfl

theorem dist_relaxed_of_ne {w : N} (s : DepthState N) (currentDist : Nat) (inDeg : Nat)
    (h : w ≠ v) : (s.relaxed currentDist v inDeg).dist w = s.dist w := by
  unfold DepthState.relaxed DepthState.dist
  rw [AList.lookup_insert_ne h]

theorem le_dist_relaxed (s : DepthState N) (currentDist : Nat) (v w : N) (inDeg : Nat) :
    s.dist w ≤ (s.relaxed currentDist v inDeg).dist w := by
  by_cases h : w = v
  · subst h
    rw [dist_relaxed_self]
    split_ifs <;> omega
  · rw [dist_relaxed_of_ne s currentDist inDeg h]

/-- **A key is looked at.** -/
theorem Taken.relaxed (h : Taken deps done todo (some node) (v :: rest) s) (hnode : node ∈ done)
    (hv : deps.Edge node v) (hmem : v ∈ deps) : Taken deps done todo (some node) rest
      (s.relaxed (s.dist node) v ((pending deps rest todo).count v)) := by
  have hcount := count_pending_cons deps v
  set inDeg := (pending deps rest todo).count v with hinDeg
  have hdone : v ∉ done := fun hdone => by
    have hsettled := h.settled v hdone
    rw [hcount, if_pos rfl] at hsettled
    cases hsettled
  have htodo : v ∈ todo := (h.mem_iff.1 hmem).resolve_left hdone
  have hqueue : v ∉ s.queue := fun hqueue => by
    have hzero := ((h.queue v).1 hqueue).2
    rw [hcount, if_pos rfl] at hzero
    cases hzero
  have hpath : ∃ l, DepMap.PathTo deps l v ∧ l.length = s.dist node + 1 := by
    obtain ⟨l, hl, hlength⟩ := h.attained node (h.mem_iff.2 (.inl hnode))
    refine ⟨l ++ [node], hl.step hv hmem, ?_⟩
    rw [List.length_append, hlength, List.length_singleton]
  refine ⟨h.keys, fun w => ?_, fun w => ?_, ?_, fun w hw => ?_, fun w hw => ?_, ?_,
    fun u hu w hw huw => ?_⟩
  · unfold DepthState.relaxed
    dsimp only
    by_cases hwv : w = v
    · subst hwv
      rw [AList.lookup_insert, if_pos hmem]
    · rw [AList.lookup_insert_ne hwv, h.inDegree, hcount, if_neg (Ne.symm hwv), Nat.add_zero]
  · have hbefore := h.queue w
    rw [hcount] at hbefore
    unfold DepthState.relaxed
    dsimp only
    by_cases hwv : w = v
    · subst hwv
      rw [← hinDeg]
      split_ifs with hzero
      · exact ⟨fun _ => ⟨htodo, hzero⟩, fun _ => List.mem_append_right _ List.mem_cons_self⟩
      · exact ⟨fun hmem' => absurd hmem' hqueue, fun hmem' => absurd hmem'.2 hzero⟩
    · rw [if_neg (Ne.symm hwv), Nat.add_zero] at hbefore
      rw [← hbefore]
      split_ifs
      · rw [List.mem_append, List.mem_singleton]
        exact ⟨fun hmem' => hmem'.resolve_right hwv, .inl⟩
      · exact .rfl
  · unfold DepthState.relaxed
    dsimp only
    split_ifs
    · rw [List.nodup_append]
      refine ⟨h.nodup, List.nodup_singleton v, fun a ha b hb hab => ?_⟩
      exact hqueue (List.mem_singleton.1 hb ▸ hab ▸ ha)
    · exact h.nodup
  · have hsettled := h.settled w hw
    rw [hcount] at hsettled
    omega
  · by_cases hwv : w = v
    · subst hwv
      rw [dist_relaxed_self]
      split_ifs
      · exact hpath
      · exact h.attained w hw
    · rw [dist_relaxed_of_ne s _ _ hwv]
      exact h.attained w hw
  · unfold DepthState.relaxed
    dsimp only
    split_ifs
    · obtain ⟨l, hl⟩ := hpath
      exact .inr ⟨l, v, hl⟩
    · exact h.maxAttained
  · have huv : u ≠ v := fun heq => hdone (heq ▸ hu)
    have hmax : s.maxDepth ≤ (s.relaxed (s.dist node) v inDeg).maxDepth ∧
        s.dist node + 1 ≤ (s.relaxed (s.dist node) v inDeg).maxDepth := by
      unfold DepthState.relaxed
      dsimp only
      split_ifs <;> omega
    rw [dist_relaxed_of_ne s _ _ huv]
    rcases h.looked u hu w hw huw with ⟨hcurrent, hrest⟩ | ⟨hdist, hdepth⟩
    · rcases List.mem_cons.1 hrest with rfl | hrest
      · obtain rfl := Option.some.inj hcurrent
        refine .inr ⟨?_, hmax.2⟩
        rw [dist_relaxed_self]
        split_ifs <;> omega
      · exact .inl ⟨hcurrent, hrest⟩
    · exact .inr ⟨hdist.trans (le_dist_relaxed ..), hdepth.trans hmax.1⟩

/-- **A neighbour is looked at.** -/
theorem Taken.lookAt (h : Taken deps done todo (some node) (v :: rest) s) (hnode : node ∈ done)
    (hv : deps.Edge node v) : ∃ s', s.lookAt (s.dist node) v = some s' ∧
      Taken deps done todo (some node) rest s' ∧ s'.dist node = s.dist node := by
  have hcount := count_pending_cons deps v
  have hlookup := h.inDegree v
  unfold DepthState.lookAt
  by_cases hmem : v ∈ deps
  · rw [if_pos hmem, hcount, if_pos rfl] at hlookup
    rw [hlookup]
    dsimp only
    rw [if_neg (Nat.succ_ne_zero _), Nat.add_sub_cancel]
    refine ⟨_, rfl, h.relaxed hnode hv hmem, dist_relaxed_of_ne s _ _ ?_⟩
    rintro rfl
    have hsettled := h.settled node hnode
    rw [hcount, if_pos rfl] at hsettled
    cases hsettled
  · rw [if_neg hmem] at hlookup
    rw [hlookup]
    have hne : ∀ w, w ∈ deps → ¬v = w := fun w hw heq => hmem (heq ▸ hw)
    refine ⟨s, rfl, ⟨h.keys, fun w => ?_, fun w => ?_, h.nodup, fun w hw => ?_, h.attained,
      h.maxAttained, fun u hu w hw huw => ?_⟩, rfl⟩
    · rw [h.inDegree]
      split_ifs with hw
      · rw [hcount, if_neg (hne w hw), Nat.add_zero]
      · rfl
    · rw [h.queue]
      refine and_congr_right fun hw => ?_
      rw [hcount, if_neg (hne w (h.mem_iff.2 (.inr hw))), Nat.add_zero]
    · have hsettled := h.settled w hw
      rw [hcount] at hsettled
      omega
    · refine (h.looked u hu w hw huw).imp_left fun hcurrent => ⟨hcurrent.1, ?_⟩
      exact (List.mem_cons.1 hcurrent.2).resolve_left fun heq => hne w hw heq.symm

/-- **All neighbours are looked at.** -/
theorem Taken.foldlM_lookAt (h : Taken deps done todo (some node) rest s) (hnode : node ∈ done)
    (hrest : ∀ v ∈ rest, deps.Edge node v) :
    ∃ s', rest.foldlM (DepthState.lookAt (s.dist node)) s = some s' ∧
      Taken deps done todo (some node) [] s' := by
  induction rest generalizing s with
  | nil => exact ⟨s, rfl, h⟩
  | cons v rest ih =>
    obtain ⟨s₁, hlook, h₁, hdist⟩ := h.lookAt hnode (hrest v List.mem_cons_self)
    obtain ⟨s₂, hrun, h₂⟩ := ih h₁ fun w hw => hrest w (List.mem_cons_of_mem _ hw)
    refine ⟨s₂, ?_, h₂⟩
    rw [List.foldlM_cons, hlook]
    rw [hdist] at hrun
    exact hrun

/-- **A file is taken from the queue.** -/
theorem Taken.take {queue : List N} (h : Taken deps done todo current [] s)
    (hqueue : s.queue = node :: queue) : node ∈ todo ∧
      Taken deps (node :: done) (todo.erase node) (some node) (deps.targets node)
        { s with queue } := by
  obtain ⟨htodo, hzero⟩ := (h.queue node).1 (hqueue ▸ List.mem_cons_self)
  have hnodup : (done ++ todo).Nodup := h.keys.nodup_iff.2 deps.keys_nodup
  have htodoNodup : todo.Nodup := (List.nodup_append.1 hnodup).2.1
  have hperm : (node :: todo.erase node).Perm todo := (List.perm_cons_erase htodo).symm
  have hcount : ∀ v, (pending deps (deps.targets node) (todo.erase node)).count v =
      (pending deps [] todo).count v := by
    intro v
    refine List.Perm.count_eq ?_ v
    exact (List.Perm.of_eq List.flatMap_cons.symm).trans (hperm.flatMap_right _)
  have hqueueNodup := h.nodup
  rw [hqueue, List.nodup_cons] at hqueueNodup
  refine ⟨htodo, ?_, fun v => ?_, fun v => ?_, hqueueNodup.2, fun v hv => ?_, h.attained,
    h.maxAttained, fun u hu v hv huv => ?_⟩
  · refine (List.Perm.trans ?_ h.keys)
    rw [List.cons_append]
    exact (List.perm_middle.symm).trans (hperm.append_left done)
  · rw [h.inDegree, hcount]
  · rw [hcount, htodoNodup.mem_erase_iff]
    have hv := h.queue v
    rw [hqueue, List.mem_cons] at hv
    constructor
    · intro hmem
      obtain ⟨hmem', hzero'⟩ := hv.1 (.inr hmem)
      exact ⟨⟨fun heq => hqueueNodup.1 (heq ▸ hmem), hmem'⟩, hzero'⟩
    · rintro ⟨⟨hne, hmem⟩, hzero'⟩
      exact (hv.2 ⟨hmem, hzero'⟩).resolve_left hne
  · rw [hcount]
    rcases List.mem_cons.1 hv with rfl | hv
    · exact hzero
    · exact h.settled v hv
  · rcases List.mem_cons.1 hu with rfl | hu
    · exact .inl ⟨rfl, huv⟩
    · rcases h.looked u hu v hv huv with ⟨-, hmem⟩ | hdist
      · cases hmem
      · exact .inr hdist

/-- **The queue is emptied** in as many rounds as there are files to take. -/
theorem Taken.visitAll (h : Taken deps done todo current [] s) {rounds : Nat}
    (hrounds : todo.length ≤ rounds) : ∃ s' done' todo' current',
      DepthState.visitAll deps rounds s = some s' ∧ Taken deps done' todo' current' [] s' ∧
        s'.queue = [] := by
  induction rounds generalizing done todo current s with
  | zero =>
    obtain rfl := List.length_eq_zero_iff.1 (Nat.le_zero.1 hrounds)
    have hqueue : s.queue = [] := List.eq_nil_iff_forall_not_mem.2 fun v hv =>
      absurd ((h.queue v).1 hv).1 List.not_mem_nil
    refine ⟨s, done, [], current, ?_, h, hqueue⟩
    rw [DepthState.visitAll, hqueue]
    rfl
  | succ rounds ih =>
    rw [DepthState.visitAll]
    cases hqueue : s.queue with
    | nil => exact ⟨s, done, todo, current, rfl, h, hqueue⟩
    | cons node queue =>
      obtain ⟨htodo, htaken⟩ := h.take hqueue
      obtain ⟨s', hvisit, h'⟩ := htaken.foldlM_lookAt List.mem_cons_self fun v hv => hv
      have hlength : (todo.erase node).length ≤ rounds := by
        rw [List.length_erase_of_mem htodo]
        omega
      obtain ⟨s'', done'', todo'', current'', hrun, h'', hempty⟩ := ih h' hlength
      refine ⟨s'', done'', todo'', current'', ?_, h'', hempty⟩
      rw [← hrun]
      exact congrArg (Option.bind · (DepthState.visitAll deps rounds)) hvisit

theorem taken_start (ord : HashOrder) (deps : DepMap N) :
    Taken deps [] deps.keys none [] (.start ord deps) := by
  have hroots : ∀ v, v ∈ ((ord.order (inDegrees deps).entries).filter (·.2 = 0)).map (·.1) ↔
      v ∈ deps ∧ (allTargets deps).count v = 0 := by
    intro v
    have hentry : (⟨v, 0⟩ : Sigma fun _ : N => Nat) ∈ (inDegrees deps).entries ↔
        v ∈ deps ∧ (allTargets deps).count v = 0 := by
      rw [← AList.mem_lookup_iff, lookup_inDegrees, Option.mem_def]
      split_ifs with hv
      · rw [Option.some_inj]
        exact ⟨fun h => ⟨hv, h⟩, And.right⟩
      · exact ⟨nofun, fun h => absurd h.1 hv⟩
    rw [← hentry, List.mem_map]
    constructor
    · rintro ⟨⟨w, n⟩, hmem, rfl⟩
      obtain ⟨hmem, hzero⟩ := List.mem_filter.1 hmem
      obtain rfl : n = 0 := of_decide_eq_true hzero
      exact ord.mem_order.1 hmem
    · intro hmem
      exact ⟨⟨v, 0⟩, List.mem_filter.2 ⟨ord.mem_order.2 hmem, rfl⟩, rfl⟩
  have hdist : ∀ v, (DepthState.start ord deps).dist v = 0 := by
    intro v
    have hfold : ∀ roots : List N, ((roots.foldl (fun distances node =>
        distances.insert node 0) (∅ : Counts N)).lookup v).getD 0 = 0 := by
      intro roots
      induction roots using List.reverseRecOn with
      | nil => rfl
      | append_singleton roots node ih =>
        rw [List.foldl_concat]
        by_cases hv : v = node
        · rw [hv, AList.lookup_insert]
          rfl
        · rw [AList.lookup_insert_ne hv, ih]
    exact hfold _
  refine ⟨.refl _, lookup_inDegrees deps, fun v => ?_, ?_, fun v hv => absurd hv List.not_mem_nil,
    fun v hv => ?_, .inl rfl, fun u hu => absurd hu List.not_mem_nil⟩
  · exact (hroots v).trans (and_congr_left fun _ => AList.mem_keys)
  · refine List.Nodup.sublist (List.Sublist.map _ List.filter_sublist) ?_
    exact ((ord.perm _).map _).nodup_iff.2 (inDegrees deps).nodupKeys
  · exact ⟨[], .start hv, (hdist v).symm⟩

/-! ## The depth -/

theorem exists_source (h : deps.Acyclic) {l : List N} (hl : l ≠ []) :
    ∃ v ∈ l, ∀ u ∈ l, ¬ deps.Edge u v := by
  have : IsStrictOrder N (TransGen deps.Edge) := { irrefl := h }
  have hwf : {v | v ∈ l}.WellFoundedOn (TransGen deps.Edge) := l.finite_toSet.wellFoundedOn
  obtain ⟨v, hv⟩ := List.exists_mem_of_ne_nil l hl
  obtain ⟨⟨w, hw⟩, -, hmin⟩ := WellFounded.has_min hwf Set.univ ⟨⟨v, hv⟩, trivial⟩
  exact ⟨w, hw, fun u hu huw => hmin ⟨u, hu⟩ trivial (.single huw)⟩

theorem Taken.todo_eq_nil (h : Taken deps done todo current [] s) (hacyclic : deps.Acyclic)
    (hqueue : s.queue = []) : todo = [] := by
  by_contra hne
  obtain ⟨v, hv, hsource⟩ := exists_source hacyclic hne
  have hcount : (pending deps [] todo).count v = 0 := by
    rw [List.count_eq_zero, pending, List.nil_append, List.mem_flatMap]
    rintro ⟨u, hu, huv⟩
    exact hsource u hu huv
  have hmem := (h.queue v).2 ⟨hv, hcount⟩
  rw [hqueue] at hmem
  cases hmem

variable {path : List N}

theorem DepMap.PathTo.mem (h : DepMap.PathTo deps path v) : v ∈ deps := by
  cases h <;> assumption

theorem Taken.length_le_dist (h : Taken deps done [] current [] s)
    (hpath : DepMap.PathTo deps path v) : path.length ≤ s.dist v := by
  induction hpath with
  | start => exact Nat.zero_le _
  | @step path u v hu huv hv ih =>
    have hdone : u ∈ done := (h.mem_iff.1 hu.mem).resolve_right List.not_mem_nil
    rw [List.length_append, List.length_singleton]
    rcases h.looked u hdone v hv huv with ⟨-, hrest⟩ | ⟨hdist, -⟩
    · cases hrest
    · omega

theorem Taken.length_le_maxDepth (h : Taken deps done [] current [] s)
    (hpath : DepMap.PathTo deps path v) : path.length ≤ s.maxDepth := by
  cases hpath with
  | start => exact Nat.zero_le _
  | @step path u v hu huv hv =>
    have hdone : u ∈ done := (h.mem_iff.1 hu.mem).resolve_right List.not_mem_nil
    have hle := h.length_le_dist hu
    rw [List.length_append, List.length_singleton]
    rcases h.looked u hdone v hv huv with ⟨-, hrest⟩ | ⟨-, hdepth⟩
    · cases hrest
    · omega

/-- **The depth at the end is that of a longest path.** -/
theorem Taken.isLongest (h : Taken deps done [] current [] s) (hkeys : deps.keys ≠ []) :
    deps.IsLongest s.maxDepth := by
  refine ⟨fun l v hl => h.length_le_maxDepth hl, fun _ => ?_, fun hempty => absurd hempty hkeys⟩
  rcases h.maxAttained with hzero | hattained
  · obtain ⟨v, hv⟩ := List.exists_mem_of_ne_nil _ hkeys
    exact ⟨[], v, .start (AList.mem_keys.2 hv), hzero.symm⟩
  · exact hattained

/-- **The depth of an acyclic map.** No in-degree underflows, the queue runs empty, and the depth
is the number of edges of a longest path among the keys, whatever the order of the tables. -/
theorem calculateDepthStats_spec (ord : HashOrder) (deps : DepMap N) (h : deps.Acyclic) :
    ∃ depth leafFiles rootFiles,
      calculateDepthStats ord deps = some (depth, leafFiles, rootFiles) ∧
        deps.IsLongest depth := by
  unfold calculateDepthStats
  by_cases hkeys : deps.keys = []
  · refine ⟨0, 0, 0, if_pos (List.isEmpty_iff.2 hkeys), fun l v hl => ?_,
      fun hne => absurd hkeys hne, fun _ => rfl⟩
    have hv := AList.mem_keys.1 hl.mem
    rw [hkeys] at hv
    cases hv
  · obtain ⟨s, done, todo, current, hrun, htaken, hqueue⟩ :=
      (taken_start ord deps).visitAll (le_refl _)
    obtain rfl := htaken.todo_eq_nil h hqueue
    exact ⟨_, _, _, (if_neg (mt List.isEmpty_iff.1 hkeys)).trans (congrArg (Option.bind · _) hrun),
      htaken.isLongest hkeys⟩

/-- A file with a doubled dependency and one that is not a key. -/
def doubledDeps : DepMap Nat where
  entries := [⟨1, [2, 2, 9]⟩, ⟨2, []⟩]
  nodupKeys := show [1, 2].Nodup by decide

theorem calculateDepthStats_doubledDeps : ∃ depth leafFiles rootFiles,
    calculateDepthStats .insertion doubledDeps =
      some (depth, leafFiles, rootFiles) ∧ doubledDeps.IsLongest depth := by
  refine calculateDepthStats_spec _ _ fun v hv => ?_
  have hlt : ∀ u w, doubledDeps.Edge u w → u < w := by
    intro u w huw
    have hlookup : doubledDeps.targets u = if u = 1 then [2, 2, 9] else [] := by
      unfold DepMap.targets AList.lookup doubledDeps
      by_cases h1 : u = 1
      · subst h1
        rfl
      · by_cases h2 : u = 2
        · subst h2
          rfl
        · rw [List.dlookup_cons_ne _ _ h1, List.dlookup_cons_ne _ _ h2, if_neg h1]
          rfl
    unfold DepMap.Edge at huw
    rw [hlookup] at huw
    split_ifs at huw with h1
    · simp only [List.mem_cons, List.not_mem_nil, or_false] at huw
      omega
    · cases huw
  have hle : ∀ w, TransGen doubledDeps.Edge v w → v < w := by
    intro w hvw
    induction hvw with
    | single huw => exact hlt _ _ huw
    | tail _ huw ih => exact ih.trans (hlt _ _ huw)
  exact lt_irrefl v (hle v hv)

end Depth

end TldrCode.Analysis
