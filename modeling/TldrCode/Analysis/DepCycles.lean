import TldrCode.Analysis.Deps
import TldrCode.Graph.FirstPaths

/-!
# Cycles of dependencies

`analysis/deps.rs`: `detect_cycles` and the identity of its cycles. One search with one set of
visited files finds the cycles that are closed from the end of a first path
(`mem_cycles_detectCycles`), so all short ones are returned exactly when each of them is closed so
(`detectCycles_exact_iff`).
-/

namespace TldrCode.Analysis

open Graph

variable {N : Type} [LinearOrder N]

/-! ## Identity of cycles -/

structure DepCycle (N : Type) where
  path : List N
  length : Nat

namespace DepCycle

def new (path : List N) : DepCycle N := ⟨path, path.length⟩

/-- The index of the smallest file, the first one of them. -/
def minIdx (path : List N) : Nat := ((path.zipIdx.argmin (·.1)).map (·.2)).getD 0

/-- `canonical`: the path starts with its smallest file. -/
def canonical (c : DepCycle N) : DepCycle N :=
  if c.path.isEmpty then c
  else { path := c.path.drop (minIdx c.path) ++ c.path.take (minIdx c.path), length := c.length }

/-- `eq`. -/
def Same (c d : DepCycle N) : Prop := c.canonical.path = d.canonical.path

instance (c d : DepCycle N) : Decidable (c.Same d) :=
  inferInstanceAs (Decidable (c.canonical.path = d.canonical.path))

/-- The cycle without a place where it starts. -/
def cycle (c : DepCycle N) : Cycle N := c.path

end DepCycle

/-- `cycles.insert(cycle)`, of a cycle within `max_length`. -/
def insertCycle (maxLength : Nat) (cycles : List (DepCycle N)) (cyclePath : List N) :
    List (DepCycle N) :=
  if cyclePath.length ≤ maxLength then
    if ∃ c ∈ cycles, c.Same (.new cyclePath) then cycles else cycles ++ [.new cyclePath]
  else cycles

def DepMap.sortedKeys (deps : DepMap N) : List N := deps.walk.map (·.1)

def DepMap.files (deps : DepMap N) : List N := deps.keys ++ allTargets deps

/-- `detect_cycles`, with `dfs_find_cycles` from each key; `rec_set` holds the files of
`rec_stack`. -/
def detectCycles (ord : HashOrder) (deps : DepMap N) (maxLength : Nat) :
    Option (List (DepCycle N)) :=
  (searchCycles deps.targets (insertCycle maxLength) (deps.files.length + 1) deps.sortedKeys
    []).map fun state => ord.order state.cycles

namespace DepMap

structure SimpleCycle (deps : DepMap N) (c : Cycle N) : Prop where
  ne_nil : c ≠ Cycle.nil
  nodup : c.Nodup
  chain : c.Chain deps.Edge
  keys : ∀ v ∈ c, v ∈ deps

/-- Each short simple cycle of keys is in the list once up to rotation, and nothing else is. -/
structure CyclesExact (deps : DepMap N) (maxLength : Nat) (cycles : List (DepCycle N)) : Prop where
  once : ∀ c, deps.SimpleCycle c → c.length ≤ maxLength →
    (cycles.map DepCycle.cycle).count c = 1
  only : ∀ d ∈ cycles, deps.SimpleCycle d.cycle ∧ d.path.length ≤ maxLength

/-- The cycle is closed by an edge from the end of a first path: of the paths without repetitions
from the keys, the one that takes the earlier key or dependency where two of them part. -/
def ClosesFirstPath (deps : DepMap N) (c : Cycle N) : Prop :=
  ∃ path x, FirstPath deps.sortedKeys deps.targets path ∧ Closes deps.targets path x ∧
    (cycleFrom path x : Cycle N) = c

end DepMap

instance (deps : DepMap N) : DecidableRel deps.Edge := fun u v =>
  inferInstanceAs (Decidable (v ∈ deps.targets u))

namespace DepCycle

variable {c d : DepCycle N} {path : List N}

theorem canonical_isRotated (c : DepCycle N) : c.canonical.path ~r c.path := by
  unfold canonical
  split_ifs
  · exact .refl _
  · have h : c.path.drop (minIdx c.path) ++ c.path.take (minIdx c.path) ~r
        c.path.take (minIdx c.path) ++ c.path.drop (minIdx c.path) := List.isRotated_append
    rwa [List.take_append_drop] at h

theorem exists_canonical (h : c.path ≠ []) :
    ∃ m rest, c.canonical.path = m :: rest ∧ ∀ y ∈ c.path, m ≤ y := by
  cases hmin : c.path.zipIdx.argmin (·.1) with
  | none =>
    rw [List.argmin_eq_none, List.zipIdx_eq_nil_iff] at hmin
    exact absurd hmin h
  | some entry =>
    obtain ⟨m, i⟩ := entry
    have hidx : minIdx c.path = i := by rw [minIdx, hmin]; rfl
    have hget : c.path[i]? = some m := List.mem_zipIdx_iff_getElem?.1 (List.argmin_mem hmin)
    obtain ⟨hlt, rfl⟩ := List.getElem?_eq_some_iff.1 hget
    refine ⟨c.path[i], c.path.drop (i + 1) ++ c.path.take i, ?_, fun y hy => ?_⟩
    · rw [canonical, if_neg (mt List.isEmpty_iff.1 h), hidx]
      exact congrArg (· ++ c.path.take i) (List.drop_eq_getElem_cons hlt)
    · obtain ⟨j, hj⟩ := List.mem_iff_getElem?.1 hy
      have hmem : (y, j) ∈ c.path.zipIdx := List.mem_zipIdx_iff_getElem?.2 hj
      exact List.le_of_mem_argmin hmem hmin

omit [LinearOrder N] in
/-- Rotations of a list without repetitions that start with the same member are equal. -/
theorem eq_of_isRotated_of_head {m : N} {rest rest' : List N} (h : m :: rest ~r m :: rest')
    (hnodup : (m :: rest).Nodup) : m :: rest = m :: rest' := by
  obtain ⟨n, hn, hrotate⟩ := List.isRotated_iff_mod.1 h
  rcases hn.lt_or_eq with hlt | rfl
  · have hhead := List.head?_rotate hlt
    rw [hrotate, List.head?_cons, eq_comm, List.getElem?_eq_some_iff] at hhead
    obtain ⟨hlt', hget⟩ := hhead
    have hget' : (m :: rest)[n] = (m :: rest)[0] := hget
    have hzero : n = 0 := (List.Nodup.getElem_inj_iff hnodup).1 hget'
    rw [← hrotate, hzero, List.rotate_zero]
  · rw [← hrotate, List.rotate_length]

/-- **Two cycles are the same** when they are rotations of each other. -/
theorem same_iff (h : c.path.Nodup) : c.Same d ↔ c.cycle = d.cycle := by
  unfold Same cycle
  rw [Cycle.coe_eq_coe]
  constructor
  · intro hsame
    exact (hsame ▸ c.canonical_isRotated.symm).trans d.canonical_isRotated
  · intro hrotated
    by_cases hc : c.path = []
    · have hd : d.path = [] := List.isRotated_nil_iff'.1 (hc ▸ hrotated) |>.symm
      unfold canonical
      rw [hc, hd]
      exact hc.trans hd.symm
    · have hd : d.path ≠ [] := fun hd => hc (List.isRotated_nil_iff.1 (hd ▸ hrotated))
      obtain ⟨m, rest, hcanonical, hm⟩ := exists_canonical hc
      obtain ⟨m', rest', hcanonical', hm'⟩ := exists_canonical hd
      have hboth : c.canonical.path ~r d.canonical.path :=
        (c.canonical_isRotated.trans hrotated).trans d.canonical_isRotated.symm
      have hmem : m ∈ d.path := hrotated.mem_iff.1
        (c.canonical_isRotated.mem_iff.1 (hcanonical ▸ List.mem_cons_self))
      have hmem' : m' ∈ c.path := hrotated.mem_iff.2
        (d.canonical_isRotated.mem_iff.1 (hcanonical' ▸ List.mem_cons_self))
      obtain rfl : m = m' := le_antisymm (hm m' hmem') (hm' m hmem)
      have hnodup := c.canonical_isRotated.nodup_iff.2 h
      rw [hcanonical] at hboth hnodup ⊢
      rw [hcanonical'] at hboth ⊢
      exact eq_of_isRotated_of_head hboth hnodup

end DepCycle

variable {deps : DepMap N} {maxLength : Nat} {paths : List (List N)} {path : List N} {x : N}
  {c : Cycle N}

/-- The set after the cycles of the search have been inserted. -/
def collected (maxLength : Nat) (paths : List (List N)) : List (DepCycle N) :=
  paths.foldl (insertCycle maxLength) []

theorem exists_of_mem_collected {d : DepCycle N} (h : d ∈ collected maxLength paths) :
    ∃ path ∈ paths, path.length ≤ maxLength ∧ d = .new path := by
  induction paths using List.reverseRecOn with
  | nil => cases h
  | append_singleton paths path ih =>
    rw [collected, List.foldl_concat, ← collected, insertCycle] at h
    have hlast : path ∈ paths ++ [path] := List.mem_append_right _ (List.mem_singleton_self path)
    split_ifs at h with hlength hsame
    · obtain ⟨path', hmem, h'⟩ := ih h
      exact ⟨path', List.mem_append_left _ hmem, h'⟩
    · rcases List.mem_append.1 h with h | h
      · obtain ⟨path', hmem, h'⟩ := ih h
        exact ⟨path', List.mem_append_left _ hmem, h'⟩
      · exact ⟨path, hlast, hlength, List.mem_singleton.1 h⟩
    · obtain ⟨path', hmem, h'⟩ := ih h
      exact ⟨path', List.mem_append_left _ hmem, h'⟩

/-- **Each cycle is kept once** up to rotation. -/
theorem nodup_collected (h : ∀ path ∈ paths, path.Nodup) :
    ((collected maxLength paths).map DepCycle.cycle).Nodup := by
  induction paths using List.reverseRecOn with
  | nil => exact List.nodup_nil
  | append_singleton paths path ih =>
    have ih := ih fun path hmem => h path (List.mem_append_left _ hmem)
    rw [collected, List.foldl_concat, ← collected, insertCycle]
    split_ifs with hlength hsame
    · exact ih
    · rw [List.map_append, List.map_singleton, List.nodup_append]
      refine ⟨ih, List.nodup_singleton _, fun a ha b hb hab => ?_⟩
      obtain ⟨d, hd, rfl⟩ := List.mem_map.1 ha
      obtain rfl := List.mem_singleton.1 hb
      obtain ⟨path', hmem, -, rfl⟩ := exists_of_mem_collected hd
      have hnodup : path'.Nodup := h path' (List.mem_append_left _ hmem)
      exact hsame ⟨.new path', hd, (DepCycle.same_iff hnodup).2 hab⟩
    · exact ih

theorem mem_collected (h : ∀ path ∈ paths, path.Nodup) (hmem : path ∈ paths)
    (hlength : path.length ≤ maxLength) :
    (path : Cycle N) ∈ (collected maxLength paths).map DepCycle.cycle := by
  induction paths using List.reverseRecOn with
  | nil => cases hmem
  | append_singleton paths path' ih =>
    have ih := ih fun path hmem => h path (List.mem_append_left _ hmem)
    rw [collected, List.foldl_concat, ← collected, insertCycle]
    rcases List.mem_append.1 hmem with hmem | hmem
    · have hold := ih hmem
      split_ifs
      · exact hold
      · rw [List.map_append]
        exact List.mem_append_left _ hold
      · exact hold
    · obtain rfl := List.mem_singleton.1 hmem
      rw [if_pos hlength]
      split_ifs with hsame
      · obtain ⟨d, hd, hsame⟩ := hsame
        obtain ⟨path', hmem', -, rfl⟩ := exists_of_mem_collected hd
        have hnodup : path'.Nodup := h path' (List.mem_append_left _ hmem')
        exact List.mem_map.2 ⟨.new path', hd, (DepCycle.same_iff hnodup).1 hsame⟩
      · exact List.mem_map.2 ⟨.new path, List.mem_append_right _ (List.mem_singleton_self _), rfl⟩

/-! ## What is detected -/

theorem DepMap.mem_of_edge {u v : N} (h : deps.Edge u v) : u ∈ deps := by
  unfold DepMap.Edge DepMap.targets at h
  cases hlookup : deps.lookup u with
  | none =>
    rw [hlookup] at h
    cases h
  | some targets => exact AList.lookup_isSome.1 (hlookup ▸ rfl)

theorem DepMap.mem_files_of_edge {u v : N} (h : deps.Edge u v) : v ∈ deps.files :=
  List.mem_append_right _
    (List.mem_flatMap.2 ⟨u, AList.mem_keys.1 (DepMap.mem_of_edge h), h⟩)

theorem DepMap.mem_files_of_mem_sortedKeys {v : N} (h : v ∈ deps.sortedKeys) : v ∈ deps.files :=
  List.mem_append_left _ (AList.mem_keys.1 (mem_iff_mem_walk.2 (List.mem_map.1 h)))

theorem DepMap.ClosesFirstPath.simpleCycle (h : deps.ClosesFirstPath c) : deps.SimpleCycle c := by
  obtain ⟨path, x, hfirst, hcloses, rfl⟩ := h
  obtain ⟨hne, hnodup, hchain⟩ := hfirst.simple.cycle hcloses
  refine ⟨hne, hnodup, hchain, fun v hv => ?_⟩
  obtain ⟨w, hw⟩ := exists_of_chain hchain hv
  exact DepMap.mem_of_edge hw

/-- **The cycles detected** are the short ones that are closed from the end of a first path. -/
theorem mem_cycles_detectCycles (ord : HashOrder) (deps : DepMap N) (maxLength : Nat) :
    ∃ cycles, detectCycles ord deps maxLength = some cycles ∧
      (cycles.map DepCycle.cycle).Nodup ∧
      (∀ d ∈ cycles, deps.ClosesFirstPath d.cycle ∧ d.path.length ≤ maxLength) ∧
      ∀ c, deps.ClosesFirstPath c → c.length ≤ maxLength → c ∈ cycles.map DepCycle.cycle := by
  have hclosed : ∀ u ∈ deps.files, ∀ v ∈ deps.targets u, v ∈ deps.files := fun u _ v hv =>
    DepMap.mem_files_of_edge hv
  obtain ⟨state, hrun, hstate⟩ := mem_cycles_searchCycles hclosed
    (fun v hv => DepMap.mem_files_of_mem_sortedKeys hv) (Nat.lt_succ_self _)
  have hcloses : ∀ path ∈ state.cycles, deps.ClosesFirstPath path := by
    intro path hpath
    obtain ⟨path', x, hfirst, hcloses, rfl⟩ := (hstate path).1 hpath
    exact ⟨path', x, hfirst, hcloses, rfl⟩
  have hnodup : ∀ path ∈ state.cycles, path.Nodup := fun path hpath =>
    Cycle.nodup_coe_iff.1 (hcloses path hpath).simpleCycle.nodup
  have hperm := ord.perm (collected maxLength state.cycles)
  refine ⟨ord.order (collected maxLength state.cycles), ?_, ?_, fun d hd => ?_, ?_⟩
  · rw [detectCycles, searchCycles_replay, hrun]
    rfl
  · exact (hperm.map _).nodup_iff.2 (nodup_collected hnodup)
  · obtain ⟨path, hpath, hlength, rfl⟩ := exists_of_mem_collected (hperm.mem_iff.1 hd)
    exact ⟨hcloses path hpath, hlength⟩
  · rintro c ⟨path, x, hfirst, hcloses, rfl⟩ hlength
    have hpath := (hstate _).2 ⟨path, x, hfirst, hcloses, rfl⟩
    exact (hperm.map _).mem_iff.2 (mem_collected hnodup hpath hlength)

/-- **All short cycles are found** exactly when each of them is closed from the end of a first
path. -/
theorem detectCycles_exact_iff (ord : HashOrder) (deps : DepMap N) (maxLength : Nat) :
    (∃ cycles, detectCycles ord deps maxLength = some cycles ∧
      deps.CyclesExact maxLength cycles) ↔
    ∀ c, deps.SimpleCycle c → c.length ≤ maxLength → deps.ClosesFirstPath c := by
  obtain ⟨cycles, hrun, hnodup, hsound, hcomplete⟩ := mem_cycles_detectCycles ord deps maxLength
  constructor
  · rintro ⟨cycles', hrun', hexact⟩ c hc hlength
    obtain rfl := Option.some.inj (hrun.symm.trans hrun')
    have hcount : 0 < (cycles.map DepCycle.cycle).count c := by
      rw [hexact.once c hc hlength]
      exact Nat.one_pos
    obtain ⟨d, hd, rfl⟩ := List.mem_map.1 (List.count_pos_iff.1 hcount)
    exact (hsound d hd).1
  · intro h
    refine ⟨cycles, hrun, fun c hc hlength => ?_, fun d hd => ?_⟩
    · exact List.count_eq_one_of_mem hnodup (hcomplete c (h c hc hlength) hlength)
    · obtain ⟨hcloses, hlength⟩ := hsound d hd
      exact ⟨hcloses.simpleCycle, hlength⟩

/-- The first file depends on the last one, and through the second one too. -/
def chordDeps : DepMap Nat where
  entries := [⟨0, [2, 1]⟩, ⟨1, [2]⟩, ⟨2, [0]⟩]
  nodupKeys := show [0, 1, 2].Nodup by decide

/-- The longer cycle is missed: when the search comes to the second file the last one is visited. -/
theorem not_detectCycles_exact_chord : ¬ ∃ cycles,
    detectCycles .insertion chordDeps 10 = some cycles ∧ chordDeps.CyclesExact 10 cycles := by
  have hrun : (detectCycles .insertion chordDeps 10).map (·.map DepCycle.path) =
      some [[0, 2]] := by decide
  have hchain : Cycle.Chain chordDeps.Edge ([0, 1, 2] : List Nat) :=
    (Cycle.chain_coe_cons _ _ _).2 (by decide)
  have hsimple : chordDeps.SimpleCycle ([0, 1, 2] : List Nat) :=
    ⟨by decide, by decide, hchain, fun v hv =>
      (exists_of_chain hchain hv).elim fun w => DepMap.mem_of_edge⟩
  rintro ⟨cycles, hcycles, hexact⟩
  have honce := hexact.once _ hsimple (by decide)
  rw [hcycles, Option.map_some, Option.some_inj] at hrun
  have hpaths : cycles.map DepCycle.cycle = [[0, 2]].map Cycle.ofList := by
    rw [← hrun, List.map_map]
    rfl
  rw [hpaths] at honce
  exact absurd honce (by decide)

end TldrCode.Analysis
