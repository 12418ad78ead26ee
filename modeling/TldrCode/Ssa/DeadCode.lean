import TldrCode.Ssa.Pruning

/-!
# Dead code and dead stores

`find_dead_code` of `ssa/analysis.rs` counts how often each SSA name is used and takes names
without uses out until nothing changes; `find_dead_stores_ssa` of `contracts/dead_stores.rs` lists
the names that nothing uses. What the first takes out is closed under users
(`findDeadCode_closed`): whatever uses a dead name is dead itself. So a definition whose name gets
along a path to an operand is no dead store, and dead code only if what the operand is for is.
-/

namespace TldrCode.Ssa

open Function (update)
open TldrCode.Graph

/-- `construct_ssa`, on the graphs extracted from the source. -/
def constructSsa (ord : HashOrder) (cfg : CfgInfo) (dfg : DfgInfo) (statements : List String) :
    SsaType → Except TldrError SsaFunction
  | .minimal => constructMinimalSsaWithStatements ord cfg dfg statements
  | .semiPruned => constructSemiPrunedSsaWithStatements ord cfg dfg statements
  | .pruned =>
    constructPrunedSsaWithStatements ord cfg dfg (computeLiveVariables cfg dfg.refs) statements

/-! ## Dead code -/

/-- The uses of a block: the name that is used, and what the user defines. -/
def SsaBlock.uses (block : SsaBlock) : List (Nat × Option Nat) :=
  (block.instructions.flatMap fun instr => instr.uses.map fun use => (use, instr.target)) ++
    block.phiFunctions.flatMap fun phi =>
      phi.sources.map fun source => (source.name, some phi.target)

def SsaFunction.uses (ssa : SsaFunction) : List (Nat × Option Nat) := ssa.blocks.flatMap (·.uses)

def hasSideEffects : SsaInstructionKind → Bool
  | .call | .return => true
  | _ => false

/-- `use_count`. -/
def useCounts (ssa : SsaFunction) : Nat → Nat :=
  ssa.uses.foldl (fun useCount use => update useCount use.1 (useCount use.1 + 1)) fun _ => 0

/-- `def_info`: the block and, unless it is a phi function, the instruction that defines a name. -/
def defInfo (ssa : SsaFunction) : Nat → Option (Nat × Option SsaInstruction) :=
  ssa.blocks.foldl (fun info block =>
    let info := block.instructions.foldl (fun info instr =>
      match instr.target with
      | some target => update info target (some (block.id, some instr))
      | none => info) info
    block.phiFunctions.foldl (fun info phi => update info phi.target (some (block.id, none))) info)
    fun _ => none

/-- The variables of the loop of `find_dead_code`. -/
structure DeadCodeState where
  useCount : Nat → Nat
  dead : List Nat
  changed : Bool

/-- The operands of what defines `name` in a block are used once less. -/
def releaseUses (block : SsaBlock) (name : Nat) (useCount : Nat → Nat) : Nat → Nat :=
  (block.uses.filter (·.2 == some name)).foldl
    (fun useCount use => update useCount use.1 (useCount use.1 - 1)) useCount

/-- One name in a round of `find_dead_code`. -/
def deadCodeStep (ssa : SsaFunction) (state : DeadCodeState) (name : SsaName) : DeadCodeState :=
  if name.id ∈ state.dead then state
  else if state.useCount name.id = 0 then
    let info := defInfo ssa name.id
    let hasEffects := match info with
      | some (_, some instr) => hasSideEffects instr.kind
      | _ => false
    if hasEffects then state
    else
      { useCount := match info.bind fun i => ssa.blocks.find? (·.id == i.1) with
          | some block => releaseUses block name.id state.useCount
          | none => state.useCount
        dead := name.id :: state.dead
        changed := true }
  else state

/-- The rounds of `find_dead_code`. -/
def deadCodeLoop (ssa : SsaFunction) : Nat → DeadCodeState → DeadCodeState
  | 0, state => state
  | rounds + 1, state =>
    let state := ssa.ssaNames.foldl (deadCodeStep ssa) { state with changed := false }
    if state.changed then deadCodeLoop ssa rounds state else state

def findDeadCode (ssa : SsaFunction) : List Nat :=
  (deadCodeLoop ssa (ssa.ssaNames.length + 10) ⟨useCounts ssa, [], true⟩).dead.insertionSort (· ≤ ·)

/-! ## Dead stores -/

structure DeadStore where
  var : String
  ssaName : String
  line : Nat
  blockId : Nat
  isPhi : Bool
  deriving DecidableEq, Repr

/-- The names with a def-use chain: those that are defined or used. -/
def SsaFunction.chainNames (ssa : SsaFunction) : List Nat := ssa.targets ++ ssa.uses.map (·.1)

/-- `used_names`: all users in the def-use chains, and all names that are used. -/
def usedNames (ssa : SsaFunction) : List Nat :=
  (ssa.chainNames.flatMap fun name => (ssa.defUse name).getD []) ++ ssa.uses.map (·.1)

def isPhiDefinition (ssa : SsaFunction) (name : Nat) : Bool :=
  ssa.blocks.any fun block => block.phiFunctions.any (·.target == name)

def getDefLocation (ssa : SsaFunction) (name : Nat) : Nat × Nat :=
  let phi := ssa.blocks.findSome? fun block =>
    (block.phiFunctions.find? (·.target == name)).map fun phi => (phi.line, block.id)
  let inst := ssa.blocks.findSome? fun block =>
    (block.instructions.find? (·.target == some name)).map fun inst => (inst.line, block.id)
  let listed := (ssa.ssaNames.find? (·.id == name)).map fun name =>
    (name.defLine, name.defBlock.getD 0)
  ((phi.or inst).or listed).getD (0, 0)

/-- `format!("{}_{}", variable, version)`. -/
def SsaName.format (name : SsaName) : String := name.var ++ "_" ++ toString name.version

def findDeadStoresSsa (ssa : SsaFunction) : List DeadStore :=
  (ssa.ssaNames.filter fun name =>
    !(ssa.defUse name.id).any (!·.isEmpty) && name.id ∉ usedNames ssa).map fun name =>
      let (line, blockId) := getDefLocation ssa name.id
      { var := name.var, ssaName := name.format, line, blockId,
        isPhi := isPhiDefinition ssa name.id }

variable {ssa : SsaFunction} {state : DeadCodeState} {u n : Nat} {use : Nat × Option Nat}
  {dead : List Nat}

/-! ## Dead names and their users -/

theorem countUses_foldl (l : List (Nat × Option Nat)) (count : Nat → Nat) (u : Nat) :
    l.foldl (fun count use => update count use.1 (count use.1 + 1)) count u =
      count u + l.countP (·.1 == u) := by
  induction l generalizing count with
  | nil => rfl
  | cons use l ih =>
    rw [List.foldl_cons, ih, List.countP_cons]
    by_cases hu : use.1 = u
    · subst hu
      simp only [Function.update_self, beq_self_eq_true, if_true]
      omega
    · simp [hu, Function.update_of_ne (Ne.symm hu)]

theorem releaseUses_foldl (l : List (Nat × Option Nat)) (count : Nat → Nat) (u : Nat) :
    l.foldl (fun count use => update count use.1 (count use.1 - 1)) count u =
      count u - l.countP (·.1 == u) := by
  induction l generalizing count with
  | nil => rfl
  | cons use l ih =>
    rw [List.foldl_cons, ih, List.countP_cons]
    by_cases hu : use.1 = u
    · subst hu
      simp only [Function.update_self, beq_self_eq_true, if_true]
      omega
    · simp [hu, Function.update_of_ne (Ne.symm hu)]

/-- The number of uses of `u` whose user is not known to be dead. -/
def liveUses (ssa : SsaFunction) (dead : List Nat) (u : Nat) : Nat :=
  ssa.uses.countP fun use => use.1 == u && !use.2.any (· ∈ dead)

theorem liveUses_cons {name : Nat} (hname : name ∉ dead) (u : Nat) :
    liveUses ssa (name :: dead) u + ssa.uses.countP (fun use => use.1 == u && use.2 == some name) =
      liveUses ssa dead u := by
  unfold liveUses
  induction ssa.uses with
  | nil => rfl
  | cons use l ih =>
    simp only [List.countP_cons, ← ih]
    cases huse : use.2 with
    | none =>
      simp
      omega
    | some t =>
      by_cases hu : use.1 = u
      · by_cases ht : t = name
        · simp [hu, ht, hname]
          omega
        · simp [hu, ht]
          omega
      · simp [hu]

/-- What a round of `find_dead_code` keeps: uses by names that are not dead are counted, and only
dead names use a dead one. -/
structure DeadCodeState.Inv (ssa : SsaFunction) (state : DeadCodeState) : Prop where
  counted : ∀ u, liveUses ssa state.dead u ≤ state.useCount u
  closed : ∀ use ∈ ssa.uses, use.1 ∈ state.dead → ∃ t ∈ state.dead, use.2 = some t

def hasEffects (ssa : SsaFunction) (n : Nat) : Bool :=
  match defInfo ssa n with
  | some (_, some instr) => hasSideEffects instr.kind
  | _ => false

/-- The counts once the operands of the definition of a name are released. -/
def releaseName (ssa : SsaFunction) (n : Nat) (useCount : Nat → Nat) : Nat → Nat :=
  match (defInfo ssa n).bind fun i => ssa.blocks.find? (·.id == i.1) with
  | some block => releaseUses block n useCount
  | none => useCount

theorem deadCodeStep_cases (ssa : SsaFunction) (state : DeadCodeState) (name : SsaName) :
    (deadCodeStep ssa state name = state ∧
      (name.id ∈ state.dead ∨ state.useCount name.id ≠ 0 ∨ hasEffects ssa name.id)) ∨
    (name.id ∉ state.dead ∧ state.useCount name.id = 0 ∧ hasEffects ssa name.id = false ∧
      deadCodeStep ssa state name =
        ⟨releaseName ssa name.id state.useCount, name.id :: state.dead, true⟩) := by
  by_cases hdead : name.id ∈ state.dead
  · exact .inl ⟨by simp [deadCodeStep, hdead], .inl hdead⟩
  · by_cases hzero : state.useCount name.id = 0
    · cases heffects : hasEffects ssa name.id with
      | true =>
        refine .inl ⟨?_, .inr (.inr rfl)⟩
        rw [deadCodeStep, if_neg hdead, if_pos hzero]
        exact if_pos heffects
      | false =>
        refine .inr ⟨hdead, hzero, rfl, ?_⟩
        rw [deadCodeStep, if_neg hdead, if_pos hzero]
        exact if_neg (Bool.eq_false_iff.1 heffects)
    · exact .inl ⟨by simp [deadCodeStep, hdead, hzero], .inr (.inl hzero)⟩

theorem user_dead_of_liveUses (hzero : liveUses ssa dead n = 0) (huse : use ∈ ssa.uses)
    (hn : use.1 = n) : ∃ t ∈ dead, use.2 = some t := by
  have hnot := List.countP_eq_zero.1 hzero use huse
  cases ht : use.2 with
  | none => simp [hn, ht] at hnot
  | some t =>
    refine ⟨t, ?_, rfl⟩
    simpa [hn, ht] using hnot

theorem DeadCodeState.Inv.step (h : state.Inv ssa) (name : SsaName) :
    (deadCodeStep ssa state name).Inv ssa := by
  obtain ⟨heq, -⟩ | ⟨hname, hzero, -, heq⟩ := deadCodeStep_cases ssa state name
  · rwa [heq]
  · rw [heq]
    constructor
    · intro u
      have hcons : liveUses ssa (name.id :: state.dead) u + ssa.uses.countP (fun use =>
          use.1 == u && use.2 == some name.id) = liveUses ssa state.dead u :=
        liveUses_cons hname u
      have hcounted := h.counted u
      dsimp only
      unfold releaseName
      cases hblock : (defInfo ssa name.id).bind fun i => ssa.blocks.find? (·.id == i.1) with
      | none =>
        dsimp only
        omega
      | some block =>
        obtain ⟨i, -, hi⟩ := Option.bind_eq_some_iff.1 hblock
        have hsub : block.uses.countP (fun use => use.1 == u && use.2 == some name.id) ≤
            ssa.uses.countP (fun use => use.1 == u && use.2 == some name.id) :=
          (List.sublist_flatten_of_mem
            (List.mem_map_of_mem (List.mem_of_find?_eq_some hi))).countP_le
        dsimp only
        rw [releaseUses, releaseUses_foldl, List.countP_filter]
        omega
    · intro use huse hdead
      cases List.mem_cons.1 hdead with
      | inl heq =>
        -- a name that nothing counts has no live user
        have hlive : liveUses ssa state.dead name.id = 0 := Nat.eq_zero_of_le_zero
          (hzero ▸ h.counted name.id)
        obtain ⟨t, ht, he⟩ := user_dead_of_liveUses hlive huse heq
        exact ⟨t, List.mem_cons_of_mem _ ht, he⟩
      | inr hdead =>
        obtain ⟨t, ht, heq⟩ := h.closed use huse hdead
        exact ⟨t, List.mem_cons_of_mem _ ht, heq⟩

theorem DeadCodeState.Inv.loop (rounds : Nat) {state : DeadCodeState} (h : state.Inv ssa) :
    (deadCodeLoop ssa rounds state).Inv ssa := by
  induction rounds generalizing state with
  | zero => exact h
  | succ rounds ih =>
    have hcleared : DeadCodeState.Inv ssa { state with changed := false } := ⟨h.counted, h.closed⟩
    have hround : (ssa.ssaNames.foldl (deadCodeStep ssa) { state with changed := false }).Inv ssa :=
      List.foldlRecOn ssa.ssaNames _ hcleared fun _ h name _ => h.step name
    unfold deadCodeLoop
    dsimp only
    split
    · exact ih hround
    · exact hround

/-- **Whatever uses a dead name is dead.** -/
theorem findDeadCode_closed (huse : use ∈ ssa.uses) (hdead : use.1 ∈ findDeadCode ssa) :
    ∃ t ∈ findDeadCode ssa, use.2 = some t := by
  have hinv : (deadCodeLoop ssa (ssa.ssaNames.length + 10) ⟨useCounts ssa, [], true⟩).Inv ssa := by
    refine DeadCodeState.Inv.loop _ ⟨fun u => ?_, fun _ _ h => by cases h⟩
    change liveUses ssa [] u ≤ useCounts ssa u
    rw [useCounts, countUses_foldl, Nat.zero_add]
    exact List.countP_mono_left fun use _ h => (Bool.and_eq_true_iff.1 h).1
  unfold findDeadCode at hdead ⊢
  simp only [List.mem_insertionSort] at hdead ⊢
  exact hinv.closed use huse hdead

theorem mem_usedNames (huse : use ∈ ssa.uses) : use.1 ∈ usedNames ssa :=
  List.mem_append_right _ (List.mem_map_of_mem huse)

/-! ## Versions -/

/-- No two names of a variable have the same version. -/
structure VersionsOk (s : RenamingState) : Prop where
  nodup : (s.names.map fun name => (name.var, name.version)).Nodup
  le : ∀ name ∈ s.names, name.version ≤ s.counters name.var

namespace VersionsOk

variable {s : RenamingState} {ctx : SsaRenamingContext}

theorem newName (h : VersionsOk s) (var : String) (blockId line : Nat) :
    VersionsOk (s.newName var blockId line) := by
  constructor
  · simp only [RenamingState.newName, List.map_append, List.map_cons, List.map_nil]
    refine h.nodup.append (List.nodup_singleton _) ?_
    simp only [List.disjoint_singleton, List.mem_map, Prod.mk.injEq, not_exists, not_and]
    intro name hname hvar hversion
    have := h.le name hname
    rw [hvar] at this
    omega
  · intro name hname
    simp only [RenamingState.newName, List.mem_append, List.mem_singleton] at hname ⊢
    cases hname with
    | inl hname =>
      have := h.le name hname
      by_cases hvar : name.var = var
      · rw [hvar] at this ⊢
        rw [Function.update_self]
        omega
      · rwa [Function.update_of_ne hvar]
    | inr hname =>
      subst hname
      rw [Function.update_self]

theorem noteDepth_state (pass : BlockPass) (v : String) :
    (pass.noteDepth v).state = pass.state := by
  unfold BlockPass.noteDepth
  split <;> rfl

theorem renameRef {pass : BlockPass} (h : VersionsOk pass.state) (r : VarRef) :
    VersionsOk (BlockPass.renameRef ctx pass r).state := by
  have hnote := noteDepth_state pass r.name
  unfold BlockPass.renameRef
  dsimp only
  cases r.refType with
  | definition => exact (hnote ▸ h).newName ..
  | update => exact (hnote ▸ h).newName ..
  | use => exact hnote ▸ h

theorem renameBlock {block : SsaBlock} (h : VersionsOk s) :
    VersionsOk (renameBlock ctx block s).state := by
  have hexit : ∀ {s : RenamingState} {b : Nat}, VersionsOk s → VersionsOk (s.recordExit b) :=
    fun h => ⟨h.nodup, h.le⟩
  have hfold : ∀ {α : Type} {step : BlockPass → α → BlockPass},
      (∀ pass x, VersionsOk pass.state → VersionsOk (step pass x).state) → ∀ (l : List α) pass,
        VersionsOk pass.state → VersionsOk (l.foldl step pass).state := fun hstep l _ h =>
    List.foldlRecOn (motive := fun pass : BlockPass => VersionsOk pass.state) l _ h
      fun pass h x _ => hstep pass x h
  unfold Ssa.renameBlock
  refine hexit (hfold (fun _ r h => h.renameRef r) _ _ (hfold (fun _ _ h => h.newName ..) _ _
    (hfold (fun pass v h => ?_) _ _ h)))
  rwa [noteDepth_state]

theorem rename (fuel : Nat) : ∀ (b : Nat) {blocks : List SsaBlock},
    VersionsOk s → VersionsOk (renameVariablesRecursive ctx fuel b (blocks, s)).2 := by
  induction fuel generalizing s with
  | zero => exact fun _ _ h => h
  | succ fuel ih =>
    intro b blocks h
    unfold renameVariablesRecursive
    dsimp only
    split
    · exact h
    · have hrestore : ∀ {s : RenamingState} {depths : String → Option Nat},
          VersionsOk s → VersionsOk (s.restoreDepths depths) := fun h => ⟨h.nodup, h.le⟩
      exact hrestore (List.foldlRecOn (motive := fun run : List SsaBlock × RenamingState =>
        VersionsOk run.2) _ _ h.renameBlock fun _ h child _ => ih child h)

end VersionsOk

end TldrCode.Ssa
