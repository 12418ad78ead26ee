import TldrCode.Alias.Solution

/-!
# Iterations of the solver

Each iteration of `solve` takes every constraint one step further, whatever the order
(`iterate_transfers`), so after `n` iterations the sets hold what is derived in `n` steps, and an
iteration that adds nothing is the last one. The limit is met where every location is derived in
fewer steps (`solve_terminates`); a chain of copies as long as the limit exceeds it (`solve_chain`).
-/

namespace TldrCode.Alias

variable {ord : HashOrder} {cs : List Constraint} {params : List String}
  {v var target source base field l : String} {n : Nat}

/-- `PointsTo`, by at most so many copies, loads and stores in a row. -/
inductive PointsToWithin (cs : List Constraint) (params : List String) :
    Nat → String → String → Prop
  | alloc {n : Nat} {target : String} {site : AbstractLocation} (h : .alloc target site ∈ cs) :
      PointsToWithin cs params n target site.format
  | param {n : Nat} {p : String} (h : p ∈ params) :
      PointsToWithin cs params n p (AbstractLocation.param p).format
  | copy {n : Nat} {target source l : String} (h : .copy target source ∈ cs)
      (ht : ¬ Loaded cs target) (hl : PointsToWithin cs params n source l) :
      PointsToWithin cs params (n + 1) target l
  | load {n : Nat} {target base field l : String} (h : .fieldLoad target base field ∈ cs)
      (hl : PointsToWithin cs params n base l) :
      PointsToWithin cs params (n + 1) target (createFieldLocation l field)
  | store {n : Nat} {base field source l l' : String} (h : .fieldStore base field source ∈ cs)
      (hl : PointsToWithin cs params n base l) (hl' : PointsToWithin cs params n source l') :
      PointsToWithin cs params (n + 1) (createFieldLocation l field) l'

namespace AliasSolver

variable {ι : Type} {s s' : AliasSolver} {c : Constraint} {f : AliasSolver → ι → AliasSolver}
  {locs : List String}

/-- **An iteration** takes every constraint one step further. -/
theorem iterate_transfers (ord : HashOrder) (h : SolverInv cs params s) :
    ∀ c ∈ cs, Transfers cs s (iterate ord cs s) c := by
  have hvalid : Valid cs params
      { s with worklist := [], inWorklist := [], iterations := s.iterations + 1 } :=
    ⟨by simp, h.valid.sound⟩
  obtain ⟨-, hg, hF⟩ := Step.foldl_from (F := fun var s' => ∀ c ∈ cs, var ∈ reads c →
      Transfers cs { s with worklist := [], inWorklist := [], iterations := s.iterations + 1 } s' c)
    (fun var _ _ hg h c hc hreads => (h c hc hreads).mono
      (fun _ _ hl => hl) hg.pointsTo) _ s.worklist
    (fun s' hs hgrown var _ => by
      obtain ⟨hv, hg, hF⟩ := propagateVariable_transfers ord var hs
      exact ⟨hv, hg, fun c hc hreads => (hF c hc hreads).mono hgrown.pointsTo fun _ _ hl =>
        hl⟩) _ hvalid (.refl _)
  intro c hc
  rcases (h.holds c hc).transfers with ⟨v, hreads, hv⟩ | htransfers
  · exact hF v hv c hc hreads
  · exact htransfers.mono (fun _ _ hl => hl) hg.pointsTo

/-- The sets hold what is derived in so many steps. -/
def HasWithin (cs : List Constraint) (params : List String) (n : Nat) (s : AliasSolver) : Prop :=
  ∀ v l, PointsToWithin cs params n v l → l ∈ s.getPointsTo v

theorem SolverInv.hasWithin_zero (h : SolverInv cs params s) : HasWithin cs params 0 s := by
  intro v l hl
  cases hl with
  | alloc hc => exact h.holds _ hc
  | param hp => exact h.params _ hp

/-- **One more step** with each iteration. -/
theorem HasWithin.iterate (h : HasWithin cs params n s) (hinv : SolverInv cs params s) :
    HasWithin cs params (n + 1) (iterate ord cs s) := by
  have htransfers := iterate_transfers ord hinv
  intro v l hl
  cases hl with
  | alloc hc => exact htransfers _ hc
  | param hp => exact hinv.iterate.params _ hp
  | copy hc ht hl => exact htransfers _ hc ht _ (h _ _ hl)
  | load hc hl => exact htransfers _ hc _ (h _ _ hl)
  | store hc hl hl' => exact htransfers _ hc _ (h _ _ hl) _ (h _ _ hl')

/-! ## The last iteration -/

structure Idle (s s' : AliasSolver) : Prop where
  pointsTo : ∀ v, s'.getPointsTo v = s.getPointsTo v
  worklist : s'.worklist = s.worklist

theorem Idle.refl (s : AliasSolver) : Idle s s := ⟨fun _ => rfl, rfl⟩

theorem Idle.foldl (xs : List ι) (hf : ∀ s', Idle s s' → ∀ x ∈ xs, Idle s (f s' x)) :
    ∀ s', Idle s s' → Idle s (xs.foldl f s') :=
  fun _ h => List.foldlRecOn xs _ h hf

theorem foldl_insert_of_mem (locs pts : List String) (h : ∀ l ∈ locs, l ∈ pts) :
    locs.foldl (fun pts loc => pts.insert loc) pts = pts := by
  induction locs with
  | nil => rfl
  | cons loc locs ih =>
    rw [List.foldl_cons, List.insert_of_mem (h loc List.mem_cons_self)]
    exact ih fun l hl => h l (List.mem_cons_of_mem _ hl)

theorem Idle.extend (h : Idle s s') (hlocs : ∀ l ∈ locs, l ∈ s.getPointsTo target) :
    Idle s (s'.extend target locs) := by
  have hsame : locs.foldl (fun pts loc => pts.insert loc) (s'.getPointsTo target) =
      s'.getPointsTo target :=
    foldl_insert_of_mem locs _ fun l hl => h.pointsTo target ▸ hlocs l hl
  rw [AliasSolver.extend, hsame, if_neg (lt_irrefl _)]
  refine ⟨fun v => ?_, h.worklist⟩
  rw [getPointsTo_insert]
  split_ifs with hv
  · rw [hv, h.pointsTo]
  · exact h.pointsTo v

section Met

variable (hmet : ∀ c ∈ cs, Transfers cs s s c) {pts : List String}
include hmet

theorem Idle.propagateTarget (ord : HashOrder) (h : Idle s s')
    (htarget : target ∈ reverseCopy cs var) (hpts : ∀ l ∈ pts, l ∈ s.getPointsTo var) :
    Idle s (propagateTarget ord cs var pts s' target) := by
  unfold AliasSolver.propagateTarget
  by_cases ht : Loaded cs target
  · rw [if_pos (fieldLoads_ne_nil.2 ht)]
    refine Idle.foldl _ (fun s' h load hload => ?_) s' h
    split_ifs with hvar
    · refine h.extend fun l hl => ?_
      obtain ⟨l₀, hl₀, rfl⟩ := List.mem_map.1 hl
      exact hmet _ (mem_fieldLoads.1 hload) l₀ (hvar ▸ hpts l₀ (ord.mem_order.1 hl₀))
    · exact h
  · rw [if_neg (fun hn => ht (fieldLoads_ne_nil.1 hn))]
    have hc : .copy target var ∈ cs :=
      (mem_reverseCopy.1 htarget).resolve_right fun ⟨field, hl⟩ => ht ⟨var, field, hl⟩
    rw [if_pos (List.ne_nil_of_mem (mem_copyConstraints.2 hc))]
    exact h.extend fun l hl => hmet _ hc ht l (hpts l (ord.mem_order.1 hl))

theorem Idle.propagateFieldStore (ord : HashOrder) (h : Idle s s')
    (hc : .fieldStore base field source ∈ cs) (hpts : ∀ l ∈ pts, l ∈ s.getPointsTo base) :
    Idle s (propagateFieldStore ord pts field source s') := by
  unfold AliasSolver.propagateFieldStore
  refine Idle.foldl _ (fun s'' h' fieldLoc hmem => ?_) s' h
  obtain ⟨l, hl, rfl⟩ := List.mem_map.1 hmem
  refine h'.extend fun l' hl' => ?_
  rw [ord.mem_order, h.pointsTo] at hl'
  exact hmet _ hc l (hpts l (ord.mem_order.1 hl)) l' hl'

/-- **A name** whose constraints are met is idle. -/
theorem Idle.propagateVariable (h : Idle s s') (var : String) :
    Idle s (propagateVariable ord cs s' var) := by
  have hpts : ∀ l ∈ s'.getPointsTo var, l ∈ s.getPointsTo var := fun l hl => h.pointsTo var ▸ hl
  unfold AliasSolver.propagateVariable
  have h₁ := Idle.foldl (reverseCopy cs var)
    (fun s'' h target ht => Idle.propagateTarget hmet ord h ht hpts) s' h
  have h₂ := Idle.foldl (fieldStores cs var) (fun s'' h store hstore =>
    Idle.propagateFieldStore hmet ord h (mem_fieldStores.1 hstore) hpts) _ h₁
  refine Idle.foldl (reverseFieldStores cs var) (fun s'' h store hstore => ?_) _ h₂
  exact Idle.propagateFieldStore hmet ord h (mem_reverseFieldStores.1 hstore)
    fun l hl => h.pointsTo store.1 ▸ hl

/-- **An iteration** in which all constraints are met is the last one. -/
theorem iterate_worklist : (iterate ord cs s).worklist = [] := by
  have hstart : Idle { s with worklist := [], inWorklist := [], iterations := s.iterations + 1 }
      { s with worklist := [], inWorklist := [], iterations := s.iterations + 1 } := .refl _
  refine (Idle.foldl s.worklist (fun s' h var _ => h.propagateVariable (fun c hc => ?_) var) _
    hstart).worklist
  exact (hmet c hc).mono (fun _ _ hl => hl) fun _ _ hl => hl

end Met

/-! ## The limit -/

theorem Transfers.of_hasWithin (h : SolverInv cs params s) (hwithin : HasWithin cs params n s)
    (hall : ∀ v l, PointsTo cs params v l → PointsToWithin cs params n v l) :
    ∀ c ∈ cs, Transfers cs s s c := by
  have hsound := h.valid.sound
  intro c hc
  cases c with
  | copy target source =>
    exact fun ht l hl => hwithin _ _ (hall _ _ (.copy hc ht (hsound _ l hl)))
  | alloc target site => exact hwithin _ _ (hall _ _ (.alloc hc))
  | fieldLoad target base field =>
    exact fun l hl => hwithin _ _ (hall _ _ (.load hc (hsound _ l hl)))
  | fieldStore base field source =>
    exact fun l hl l' hl' =>
      hwithin _ _ (hall _ _ (.store hc (hsound _ l hl) (hsound _ l' hl')))

theorem solveLoop_ok {N : Nat} (hall : ∀ v l, PointsTo cs params v l →
    PointsToWithin cs params N v l) :
    ∀ (left n : Nat) (s : AliasSolver), SolverInv cs params s → HasWithin cs params n s →
      N + 1 ≤ n + left → n ≤ N ∨ s.worklist = [] → ∃ s', solveLoop ord cs left s = .ok s' := by
  intro left
  induction left with
  | zero =>
    intro n s h hwithin hle hempty
    refine ⟨s, ?_⟩
    unfold solveLoop
    exact if_pos (hempty.resolve_left (by omega))
  | succ left ih =>
    intro n s h hwithin hle hempty
    unfold solveLoop
    split_ifs with hw
    · exact ⟨s, rfl⟩
    · have hn := hempty.resolve_right hw
      refine ih (n + 1) _ h.iterate (hwithin.iterate h) (by omega) ?_
      rcases Nat.lt_or_ge n N with hlt | hge
      · exact .inl hlt
      · right
        obtain rfl : n = N := le_antisymm hn hge
        exact iterate_worklist (.of_hasWithin h hwithin hall)

theorem addToWorklist_iterations (s : AliasSolver) (var : String) :
    (s.addToWorklist var).iterations = s.iterations := by
  rw [addToWorklist]
  split_ifs <;> rfl

theorem extend_iterations (s : AliasSolver) (target : String) (locs : List String) :
    (s.extend target locs).iterations = s.iterations := by
  rw [extend]
  split_ifs
  · exact addToWorklist_iterations _ _
  · rfl

theorem foldl_iterations (hf : ∀ s x, (f s x).iterations = s.iterations) (xs : List ι)
    (s : AliasSolver) : (xs.foldl f s).iterations = s.iterations := by
  induction xs generalizing s with
  | nil => rfl
  | cons x xs ih => rw [List.foldl_cons, ih, hf]

theorem propagateVariable_iterations (s : AliasSolver) (var : String) :
    (propagateVariable ord cs s var).iterations = s.iterations := by
  have hstore : ∀ (pts : List String) (field source : String) (s : AliasSolver),
      (propagateFieldStore ord pts field source s).iterations = s.iterations := by
    intro pts field source s
    exact foldl_iterations (fun s x => extend_iterations s x _) _ s
  have htarget : ∀ (pts : List String) (s : AliasSolver) (target : String),
      (propagateTarget ord cs var pts s target).iterations = s.iterations := by
    intro pts s target
    unfold propagateTarget
    split_ifs
    · refine foldl_iterations (fun s load => ?_) _ s
      split_ifs
      · exact extend_iterations _ _ _
      · rfl
    · exact extend_iterations _ _ _
    · rfl
  unfold propagateVariable
  dsimp only
  rw [foldl_iterations fun s store => hstore _ _ _ s,
    foldl_iterations fun s store => hstore _ _ _ s,
    foldl_iterations fun s target => htarget _ s target]

theorem iterate_iterations (s : AliasSolver) :
    (iterate ord cs s).iterations = s.iterations + 1 :=
  foldl_iterations propagateVariable_iterations _ _

theorem solveLoop_cases (ord : HashOrder) (cs : List Constraint) (left : Nat) : ∀ s : AliasSolver,
    (∃ s', solveLoop ord cs left s = .ok s') ∨
      solveLoop ord cs left s = .error (.iterationLimit (s.iterations + left + 1)) := by
  induction left with
  | zero =>
    intro s
    unfold solveLoop
    split_ifs
    · exact .inl ⟨s, rfl⟩
    · exact .inr rfl
  | succ left ih =>
    intro s
    unfold solveLoop
    split_ifs
    · exact .inl ⟨s, rfl⟩
    · have hnext := ih (iterate ord cs s)
      rwa [iterate_iterations, Nat.add_assoc s.iterations, Nat.add_comm 1] at hnext

/-- **`solve` terminates**, by the limit if nothing else, and with `Ok` if all locations are derived
in fewer steps than the limit. -/
theorem solve_terminates (ord : HashOrder) (extractor : ConstraintExtractor) :
    ((∃ s, solve ord extractor.constraints (new ord extractor) = .ok s) ∨
      solve ord extractor.constraints (new ord extractor) =
        .error (.iterationLimit (maxIterations + 1))) ∧
    ((∀ v l, PointsTo extractor.constraints extractor.parameters v l →
        PointsToWithin extractor.constraints extractor.parameters (maxIterations - 1) v l) →
      ∃ s, solve ord extractor.constraints (new ord extractor) = .ok s) := by
  have hstart := start_inv ord extractor
  constructor
  · have hcases := solveLoop_cases ord extractor.constraints maxIterations
      { new ord extractor with iterations := 0 }
    rwa [Nat.zero_add] at hcases
  · intro hall
    exact solveLoop_ok hall maxIterations 0 _ hstart hstart.hasWithin_zero le_rfl
      (.inl (Nat.zero_le _))

def copyCycle : ConstraintExtractor :=
  { ConstraintExtractor.new with
    constraints := [.alloc "x" (.alloc 1), .copy "y" "x", .copy "x" "y"] }

theorem solve_terminates_copyCycle : ∃ s,
    solve .insertion copyCycle.constraints (new .insertion copyCycle) = .ok s := by
  refine (solve_terminates .insertion copyCycle).2 fun v l h => ?_
  have hloaded : ∀ target, ¬ Loaded copyCycle.constraints target := by
    rintro target ⟨base, field, h⟩
    simp [copyCycle] at h
  have hx : PointsToWithin copyCycle.constraints copyCycle.parameters (maxIterations - 2) "x"
      (AbstractLocation.alloc 1).format := .alloc (by decide)
  have key : (v = "x" ∨ v = "y") ∧ l = (AbstractLocation.alloc 1).format := by
    induction h with
    | alloc h =>
      simp only [copyCycle, List.mem_cons, Constraint.alloc.injEq, List.not_mem_nil, reduceCtorEq,
        or_false] at h
      exact ⟨.inl h.1, by rw [h.2]⟩
    | param h => cases h
    | copy h _ _ ih =>
      simp only [copyCycle, List.mem_cons, Constraint.copy.injEq, List.not_mem_nil, reduceCtorEq,
        or_false, false_or] at h
      exact ⟨h.symm.imp And.left And.left, ih.2⟩
    | load h => exact absurd ⟨_, _, h⟩ (hloaded _)
    | store h => simp [copyCycle] at h
  obtain ⟨rfl | rfl, rfl⟩ := key
  · exact .alloc (by decide)
  · exact .copy (by decide) (hloaded _) hx

/-! ## A chain of copies -/

def chainVar (i : Nat) : String := String.ofList (List.replicate (i + 1) 'x')

def copyChain (n : Nat) : ConstraintExtractor :=
  { ConstraintExtractor.new with
    constraints := .alloc (chainVar 0) (.alloc 1) ::
      (List.range n).map fun i => .copy (chainVar (i + 1)) (chainVar i) }

theorem chainVar_inj {i j : Nat} : chainVar i = chainVar j ↔ i = j := by
  constructor
  · intro h
    have hlength := congrArg (fun s => s.toList.length) h
    simpa [chainVar] using hlength
  · exact congrArg chainVar

variable {k : Nat}

theorem mem_copyChain : c ∈ (copyChain n).constraints ↔
    c = .alloc (chainVar 0) (.alloc 1) ∨ ∃ i < n, .copy (chainVar (i + 1)) (chainVar i) = c := by
  simp [copyChain]

theorem reverseCopy_copyChain (hk : k < n) :
    reverseCopy (copyChain n).constraints (chainVar k) = [chainVar (k + 1)] := by
  have hrange : ∀ m, (List.range m).filterMap (fun i =>
      if i = k then some (chainVar (i + 1)) else none) =
        if k < m then [chainVar (k + 1)] else [] := by
    intro m
    induction m with
    | zero => rfl
    | succ m ih =>
      rw [List.range_succ, List.filterMap_append, ih]
      by_cases hm : m = k
      · subst hm
        simp
      · simp only [List.filterMap_cons, hm, if_false, List.filterMap_nil, List.append_nil]
        refine if_congr ?_ rfl rfl
        omega
  have hmap : reverseCopy (copyChain n).constraints (chainVar k) =
      (List.range n).filterMap fun i => if i = k then some (chainVar (i + 1)) else none := by
    rw [reverseCopy, copyChain, List.filterMap_cons, List.filterMap_map]
    simp only [Function.comp_def, chainVar_inj]
  rw [hmap, hrange, if_pos hk]

theorem propagateVariable_copyChain (ord : HashOrder) (hk : k < n) (s : AliasSolver) :
    propagateVariable ord (copyChain n).constraints s (chainVar k) =
      s.extend (chainVar (k + 1)) (ord.order (s.getPointsTo (chainVar k))) := by
  have hloads : fieldLoads (copyChain n).constraints (chainVar (k + 1)) = [] := by
    rw [List.eq_nil_iff_forall_not_mem]
    rintro ⟨base, field⟩ hload
    rcases mem_copyChain.1 (mem_fieldLoads.1 hload) with h | ⟨i, -, h⟩ <;> cases h
  have hstores : fieldStores (copyChain n).constraints (chainVar k) = [] := by
    rw [List.eq_nil_iff_forall_not_mem]
    rintro ⟨field, source⟩ hstore
    rcases mem_copyChain.1 (mem_fieldStores.1 hstore) with h | ⟨i, -, h⟩ <;> cases h
  have hsources : reverseFieldStores (copyChain n).constraints (chainVar k) = [] := by
    rw [List.eq_nil_iff_forall_not_mem]
    rintro ⟨base, field⟩ hstore
    rcases mem_copyChain.1 (mem_reverseFieldStores.1 hstore) with h | ⟨i, -, h⟩ <;> cases h
  have hcopies : copyConstraints (copyChain n).constraints (chainVar (k + 1)) ≠ [] :=
    List.ne_nil_of_mem (mem_copyConstraints.2 (mem_copyChain.2 (.inr ⟨k, hk, rfl⟩)))
  rw [propagateVariable, reverseCopy_copyChain hk, hstores, hsources]
  dsimp only [List.foldl_cons, List.foldl_nil]
  rw [propagateTarget, hloads, if_neg (not_not_intro rfl), if_pos hcopies, propagateCopy]

/-- The chain has been followed up to `k`. -/
structure AtLink (k : Nat) (s : AliasSolver) : Prop where
  worklist : s.worklist = [chainVar k]
  reached : s.getPointsTo (chainVar k) ≠ []
  ahead : ∀ j > k, s.getPointsTo (chainVar j) = []
  iterations : s.iterations = k

theorem extend_fresh (hempty : s.getPointsTo target = []) (hlocs : locs ≠ [])
    (hw : s.worklist = []) (hin : s.inWorklist = []) :
    (s.extend target locs).worklist = [target] ∧ (s.extend target locs).getPointsTo target ≠ [] ∧
      ∀ v, v ≠ target → (s.extend target locs).getPointsTo v = s.getPointsTo v := by
  obtain ⟨loc, hloc⟩ := List.exists_mem_of_ne_nil _ hlocs
  have hmem : loc ∈ locs.foldl (fun pts loc => pts.insert loc) [] :=
    (mem_foldl_insert locs []).2 (.inr hloc)
  have hne := List.ne_nil_of_mem hmem
  have hgrown : (locs.foldl (fun pts loc => pts.insert loc) []).length >
    ([] : List String).length :=
    List.length_pos_of_ne_nil hne
  rw [extend, hempty, if_pos hgrown]
  refine ⟨?_, ?_, fun v hv => ?_⟩
  · rw [addToWorklist, hin, if_neg List.not_mem_nil, hw, List.nil_append]
  · rw [getPointsTo_addToWorklist, getPointsTo_insert, if_pos rfl]
    exact hne
  · rw [getPointsTo_addToWorklist, getPointsTo_insert, if_neg hv]
    rfl

/-- **One iteration** follows one copy. -/
theorem AtLink.iterate (h : AtLink k s) (hk : k < n) :
    AtLink (k + 1) (iterate ord (copyChain n).constraints s) := by
  have hreached : ord.order (s.getPointsTo (chainVar k)) ≠ [] := by
    obtain ⟨l, hl⟩ := List.exists_mem_of_ne_nil _ h.reached
    exact List.ne_nil_of_mem (ord.mem_order.2 hl)
  have heq : AliasSolver.iterate ord (copyChain n).constraints s =
      { s with worklist := [], inWorklist := [], iterations := s.iterations + 1 }.extend
        (chainVar (k + 1)) (ord.order (s.getPointsTo (chainVar k))) := by
    rw [AliasSolver.iterate, h.worklist, List.foldl_cons, List.foldl_nil,
      propagateVariable_copyChain ord hk]
    rfl
  obtain ⟨hworklist, hset, hothers⟩ := extend_fresh
    (s := { s with worklist := [], inWorklist := [], iterations := s.iterations + 1 })
    (h.ahead (k + 1) (Nat.lt_succ_self k)) hreached rfl rfl
  rw [heq]
  refine ⟨hworklist, hset, fun j hj => ?_, ?_⟩
  · rw [hothers _ (fun hv => by rw [chainVar_inj] at hv; omega)]
    exact h.ahead j (by omega)
  · rw [extend_iterations, h.iterations]

/-- **A long chain** meets the limit. -/
theorem AtLink.limit (left : Nat) : ∀ (k : Nat) (s : AliasSolver), AtLink k s → k + left ≤ n →
    solveLoop ord (copyChain n).constraints left s = .error (.iterationLimit (k + left + 1)) := by
  induction left with
  | zero =>
    intro k s h _
    unfold solveLoop
    rw [if_neg (by rw [h.worklist]; exact List.cons_ne_nil _ _), h.iterations]
  | succ left ih =>
    intro k s h hle
    unfold solveLoop
    rw [if_neg (by rw [h.worklist]; exact List.cons_ne_nil _ _),
      ih (k + 1) _ (h.iterate (by omega)) (by omega)]
    congr 2
    omega

theorem atLink_zero (ord : HashOrder) (n : Nat) :
    AtLink 0 { new ord (copyChain n) with iterations := 0 } := by
  have hparams : ord.order (copyChain n).parameters = [] := (ord.perm []).eq_nil
  have hnew : new ord (copyChain n) = seed ⟨∅, [], [], 0⟩ (chainVar 0)
      (AbstractLocation.alloc 1).format := by
    rw [new, initializeParameters, hparams, List.foldl_nil, initializeAllocs, copyChain,
      List.foldl_cons, List.foldl_map, List.foldl_fixed]
  have hget : ∀ v, (new ord (copyChain n)).getPointsTo v =
      if v = chainVar 0 then [(AbstractLocation.alloc 1).format] else [] := by
    intro v
    rw [hnew, seed, getPointsTo_addToWorklist, getPointsTo_insert]
    split_ifs <;> rfl
  refine ⟨?_, ?_, fun j hj => ?_, rfl⟩
  · show (new ord (copyChain n)).worklist = _
    rw [hnew]
    rfl
  · show (new ord (copyChain n)).getPointsTo _ ≠ []
    rw [hget, if_pos rfl]
    exact List.cons_ne_nil _ _
  · show (new ord (copyChain n)).getPointsTo _ = []
    rw [hget, if_neg (fun hv => by rw [chainVar_inj] at hv; omega)]

theorem solve_chain (ord : HashOrder) (hn : maxIterations ≤ n) :
    solve ord (copyChain n).constraints (new ord (copyChain n)) =
      .error (.iterationLimit (maxIterations + 1)) := by
  rw [solve, (atLink_zero ord n).limit maxIterations 0 _ (by omega), Nat.zero_add]

theorem solve_copyChain :
    solve .insertion (copyChain 100).constraints (new .insertion (copyChain 100)) =
      .error (.iterationLimit 101) :=
  solve_chain .insertion le_rfl

end AliasSolver

end TldrCode.Alias
