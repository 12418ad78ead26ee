import TldrCode.Ssa.Construct

/-!
# Renaming one block

`renameBlock` creates one name for each phi function and each definition of the block, numbered
in order (`namesFrom`), and resolves the uses of each definition by the names current before it
(`instructionsFrom`). `renameBlock_spec` says so, and that all of a block's names are on top of
the stacks it found, so that `restoreDepths` takes them off again.
-/

namespace TldrCode.Ssa

open Function (update update_apply)

variable {ctx : SsaRenamingContext} {state s : RenamingState} {pass : BlockPass}
  {cur : String → Option Nat} {vars : List String} {v w : String} {b n : Nat}

/-! ## Names and instructions -/

/-- The current names after the variables `vars` get the names from `n` on. -/
def namesFrom (cur : String → Option Nat) (n : Nat) : List String → String → Option Nat
  | [] => cur
  | x :: xs => namesFrom (update cur x (some n)) (n + 1) xs

theorem namesFrom_concat (cur : String → Option Nat) (n : Nat) (vars : List String) (v : String) :
    namesFrom cur n (vars ++ [v]) = update (namesFrom cur n vars) v (some (n + vars.length)) := by
  induction vars generalizing cur n with
  | nil => rfl
  | cons x xs ih =>
    simp only [List.cons_append, namesFrom, ih, List.length_cons]
    rw [Nat.add_assoc, Nat.add_comm 1]

theorem namesFrom_append (cur : String → Option Nat) (n : Nat) (vars vars' : List String) :
    namesFrom cur n (vars ++ vars') =
      namesFrom (namesFrom cur n vars) (n + vars.length) vars' := by
  induction vars generalizing cur n with
  | nil => rfl
  | cons x xs ih =>
    simp only [List.cons_append, namesFrom, ih, List.length_cons]
    rw [Nat.add_assoc, Nat.add_comm 1]

/-- The operands of the instruction for the definition `d`. -/
def usesOf (ctx : SsaRenamingContext) (b : Nat) (d : VarRef) (cur : String → Option Nat) :
    List Nat :=
  let uses := (ctx.dfg.refs.filter fun r => r.line == d.line && r.name != d.name &&
    r.refType == .use && lineToBlock ctx.cfg r.line == some b).filterMap fun r => cur r.name
  if d.refType = .update then
    match cur d.name with
    | some selfUse => if selfUse ∈ uses then uses else selfUse :: uses
    | none => uses
  else uses

/-- The instructions for the definitions `defs`, whose names are numbered from `n` on. -/
def instructionsFrom (ctx : SsaRenamingContext) (b : Nat) (cur : String → Option Nat) (n : Nat) :
    List VarRef → List SsaInstruction
  | [] => []
  | d :: ds =>
    instructionFor ctx d n (usesOf ctx b d cur) ::
      instructionsFrom ctx b (update cur d.name (some n)) (n + 1) ds

/-- The definitions of a block in the order they are renamed in. -/
def blockDefs (cfg : CfgInfo) (dfg : DfgInfo) (b : Nat) : List VarRef :=
  (refsSorted cfg dfg b).filter (·.isDef)

/-- The variables that get a name in a block, in order. -/
def namedVars (ctx : SsaRenamingContext) (block : SsaBlock) : List String :=
  block.phiFunctions.map (·.var) ++ (blockDefs ctx.cfg ctx.dfg block.id).map (·.name)

/-! ## The pass over a block -/

/-- The pass `pass` over block `b`, started in the state `s`, has named the variables `vars`. -/
structure PassInv (s : RenamingState) (b : Nat) (pass : BlockPass) (vars : List String) : Prop where
  id : pass.block.id = b
  nextId : pass.state.nextId = s.nextId + vars.length
  current : pass.state.current = namesFrom s.current s.nextId vars
  pushed : ∀ v, ∃ new, pass.state.versionStacks v = new ++ s.versionStacks v ∧
    (pass.initialDepths v = none → new = [])
  depths : ∀ v d, pass.initialDepths v = some d → d = (s.versionStacks v).length
  exits : pass.state.blockExitVersions = s.blockExitVersions
  names : ∃ new, pass.state.names = s.names ++ new ∧
    new.map (fun name => (name.id, name.var, name.defBlock)) =
      (vars.zipIdx s.nextId).map fun p => (p.2, p.1, some b)

namespace PassInv

theorem note (h : PassInv s b pass vars) (v : String) :
    PassInv s b (pass.noteDepth v) vars ∧ (pass.noteDepth v).initialDepths v ≠ none ∧
      (pass.noteDepth v).block = pass.block ∧ (pass.noteDepth v).state = pass.state ∧
      ∀ w, pass.initialDepths w ≠ none → (pass.noteDepth v).initialDepths w ≠ none := by
  cases hv : pass.initialDepths v with
  | some d =>
    have : pass.noteDepth v = pass := by simp [BlockPass.noteDepth, hv]
    rw [this]
    exact ⟨h, by simp [hv], rfl, rfl, fun _ hw => hw⟩
  | none =>
    have hnote : pass.noteDepth v = { pass with
        initialDepths := update pass.initialDepths v (some (pass.state.stackDepth v)) } := by
      simp [BlockPass.noteDepth, hv]
    rw [hnote]
    refine ⟨⟨h.id, h.nextId, h.current, fun w => ?_, fun w d hw => ?_, h.exits, h.names⟩,
      by simp, rfl, rfl, fun w hw => ?_⟩
    · obtain ⟨new, hnew, hnil⟩ := h.pushed w
      refine ⟨new, hnew, fun hw => hnil ?_⟩
      by_cases hwv : w = v
      · simp [hwv] at hw
      · simpa [update, hwv] using hw
    · by_cases hwv : w = v
      · subst hwv
        obtain ⟨new, hnew, hnil⟩ := h.pushed w
        simp only [Function.update_self, Option.some_inj] at hw
        rw [← hw, RenamingState.stackDepth, hnew, hnil hv, List.nil_append]
      · simp only [Function.update_of_ne hwv] at hw
        exact h.depths w d hw
    · by_cases hwv : w = v
      · simp [hwv]
      · simpa [update, hwv] using hw

theorem newName (h : PassInv s b pass vars) (hv : pass.initialDepths v ≠ none) (block : SsaBlock)
    (hb : block.id = b) (line : Nat) :
    PassInv s b { pass with block, state := pass.state.newName v pass.block.id line }
      (vars ++ [v]) := by
  rw [h.id]
  refine ⟨hb, ?_, ?_, fun w => ?_, h.depths, h.exits, ?_⟩
  · simp [RenamingState.newName, h.nextId, Nat.add_assoc]
  · rw [namesFrom_concat, ← h.current, ← h.nextId]
    funext w
    by_cases hw : w = v
    · subst hw; simp [RenamingState.current, RenamingState.newName]
    · simp [RenamingState.current, RenamingState.newName, update, hw]
  · obtain ⟨new, hnew, hnil⟩ := h.pushed w
    by_cases hw : w = v
    · subst hw
      exact ⟨pass.state.nextId :: new, by simp [RenamingState.newName, hnew],
        fun hn => absurd hn hv⟩
    · exact ⟨new, by simp [RenamingState.newName, update, hw, hnew], hnil⟩
  · obtain ⟨new, hnew, hmap⟩ := h.names
    simp only [RenamingState.newName, hnew, List.append_assoc]
    refine ⟨_, rfl, ?_⟩
    simp [hmap, h.nextId, List.zipIdx_append]

theorem noteAll (l : List String) : ∀ {pass : BlockPass}, PassInv s b pass vars →
    PassInv s b (l.foldl BlockPass.noteDepth pass) vars ∧
      (l.foldl BlockPass.noteDepth pass).block = pass.block ∧
      (∀ w ∈ l, (l.foldl BlockPass.noteDepth pass).initialDepths w ≠ none) ∧
      ∀ w, pass.initialDepths w ≠ none →
        (l.foldl BlockPass.noteDepth pass).initialDepths w ≠ none := by
  induction l with
  | nil => exact fun h => ⟨h, rfl, by simp, fun _ hw => hw⟩
  | cons v l ih =>
    intro pass h
    obtain ⟨hn, hv, hb, -, hkeep⟩ := h.note v
    obtain ⟨h', hb', hin, hkeep'⟩ := ih hn
    refine ⟨h', hb'.trans hb, fun w hw => ?_, fun w hw => hkeep' w (hkeep w hw)⟩
    rcases List.mem_cons.1 hw with rfl | hw
    · exact hkeep' w hv
    · exact hin w hw

theorem renamePhis (phis : List PhiFunction) : ∀ {pass : BlockPass} {vars : List String},
    PassInv s b pass vars → (∀ phi ∈ phis, pass.initialDepths phi.var ≠ none) →
    PassInv s b (phis.foldl BlockPass.renamePhi pass) (vars ++ phis.map (·.var)) ∧
      (phis.foldl BlockPass.renamePhi pass).block = { pass.block with
        phiFunctions := pass.block.phiFunctions ++ (phis.zipIdx pass.state.nextId).map fun p =>
          { p.1 with target := p.2 } } := by
  induction phis with
  | nil => exact fun h _ => ⟨by simpa using h, by simp⟩
  | cons phi phis ih =>
    intro pass vars h hd
    have hnew : PassInv s b (pass.renamePhi phi) (vars ++ [phi.var]) :=
      h.newName (hd phi List.mem_cons_self) (pass.renamePhi phi).block h.id _
    obtain ⟨h', hb⟩ := ih hnew fun x hx => hd x (List.mem_cons_of_mem _ hx)
    refine ⟨by simpa using h', ?_⟩
    rw [List.foldl_cons, hb]
    simp [BlockPass.renamePhi, RenamingState.newName]

theorem define_uses (h : PassInv s b pass vars) (ctx : SsaRenamingContext) (d : VarRef)
    (hd : d.isDef) :
    (pass.noteDepth d.name).define ctx d (usesOf ctx b d (namesFrom s.current s.nextId vars)) =
      pass.renameRef ctx d := by
  obtain ⟨hn, -, hb, hs, -⟩ := h.note d.name
  have hid : (pass.noteDepth d.name).block.id = b := hn.id
  rw [BlockPass.renameRef, ← hn.current]
  cases hr : d.refType with
  | definition =>
    subst hid
    exact congrArg ((pass.noteDepth d.name).define ctx d) (if_neg (by simp [hr]))
  | update =>
    subst hid
    exact congrArg ((pass.noteDepth d.name).define ctx d) (if_pos hr)
  | use => simp [VarRef.isDef, hr] at hd

theorem renameRefs (ctx : SsaRenamingContext) (refs : List VarRef) :
    ∀ {pass : BlockPass} {vars : List String},
    PassInv s b pass vars →
    let defs := refs.filter (·.isDef)
    PassInv s b (refs.foldl (BlockPass.renameRef ctx) pass) (vars ++ defs.map (·.name)) ∧
      (refs.foldl (BlockPass.renameRef ctx) pass).block = { pass.block with
        instructions := pass.block.instructions ++
          instructionsFrom ctx b (namesFrom s.current s.nextId vars) pass.state.nextId defs } := by
  induction refs with
  | nil => exact fun h => ⟨by simpa using h, by simp [instructionsFrom]⟩
  | cons r refs ih =>
    intro pass vars h
    obtain ⟨hn, hv, hb, hs, -⟩ := h.note r.name
    by_cases hr : r.isDef
    · have hstep := h.define_uses ctx r hr
      have hnew : PassInv s b (pass.renameRef ctx r) (vars ++ [r.name]) := by
        rw [← hstep]
        exact hn.newName hv (BlockPass.block (.define _ ctx r _)) hn.id r.line
      obtain ⟨h', hb'⟩ := ih hnew
      refine ⟨by simpa [hr] using h', ?_⟩
      rw [List.foldl_cons, hb', ← hstep]
      simp [hr, BlockPass.define, instructionsFrom, namesFrom_concat, RenamingState.newName, hb, hs,
        h.nextId]
    · have huse : r.refType = .use := by
        cases hrt : r.refType <;> simp [VarRef.isDef, hrt] at hr ⊢
      have hstep : pass.renameRef ctx r = pass.noteDepth r.name := by
        simp [BlockPass.renameRef, huse]
      obtain ⟨h', hb'⟩ := @ih (pass.renameRef ctx r) vars (hstep ▸ hn)
      refine ⟨by simpa [hr] using h', ?_⟩
      rw [List.foldl_cons, hb', hstep]
      simp [hr, hb, hs]

end PassInv

/-- What renaming the block `block` in the state `s` leaves behind. -/
structure BlockRenamed (ctx : SsaRenamingContext) (block : SsaBlock) (s : RenamingState)
    (pass : BlockPass) : Prop where
  content : pass.block = { block with
    phiFunctions := (block.phiFunctions.zipIdx s.nextId).map fun p => { p.1 with target := p.2 }
    instructions := block.instructions ++ instructionsFrom ctx block.id
      (namesFrom s.current s.nextId (block.phiFunctions.map (·.var)))
      (s.nextId + block.phiFunctions.length) (blockDefs ctx.cfg ctx.dfg block.id) }
  nextId : pass.state.nextId = s.nextId + (namedVars ctx block).length
  current : pass.state.current = namesFrom s.current s.nextId (namedVars ctx block)
  restore : ∀ v, (match pass.initialDepths v with
    | some depth => (pass.state.versionStacks v).drop
        ((pass.state.versionStacks v).length - depth)
    | none => pass.state.versionStacks v) = s.versionStacks v
  exits : ∀ v c, pass.state.blockExitVersions v c =
    if c = block.id then (pass.state.current v).or (s.blockExitVersions v c)
    else s.blockExitVersions v c
  names : ∃ new, pass.state.names = s.names ++ new ∧
    new.map (fun name => (name.id, name.var, name.defBlock)) =
      ((namedVars ctx block).zipIdx s.nextId).map fun p => (p.2, p.1, some block.id)

theorem renameBlock_spec (ctx : SsaRenamingContext) (block : SsaBlock) (s : RenamingState) :
    BlockRenamed ctx block s (renameBlock ctx block s) := by
  have h₀ : PassInv s block.id ⟨block, s, fun _ => none⟩ [] :=
    ⟨rfl, rfl, rfl, fun v => ⟨[], rfl, fun _ => rfl⟩, by simp, rfl, [], by simp, rfl⟩
  -- the depths of the phi variables, the phi functions, the references
  obtain ⟨h₁, hb₁, hin, -⟩ := h₀.noteAll (block.phiFunctions.map (·.var))
  obtain ⟨pass₁, hp₁⟩ : ∃ p, p = (block.phiFunctions.map (·.var)).foldl BlockPass.noteDepth
    ⟨block, s, fun _ => none⟩ := ⟨_, rfl⟩
  rw [← hp₁] at h₁ hb₁ hin
  have h₁' : PassInv s block.id
      { pass₁ with block := { pass₁.block with phiFunctions := [] } } [] :=
    ⟨h₁.id, h₁.nextId, h₁.current, h₁.pushed, h₁.depths, h₁.exits, h₁.names⟩
  obtain ⟨h₂, hb₂⟩ := h₁'.renamePhis block.phiFunctions fun phi hphi =>
    hin _ (List.mem_map_of_mem hphi)
  obtain ⟨pass₂, hp₂⟩ : ∃ p, p = block.phiFunctions.foldl BlockPass.renamePhi
    { pass₁ with block := { pass₁.block with phiFunctions := [] } } := ⟨_, rfl⟩
  rw [← hp₂, List.nil_append] at h₂
  rw [← hp₂] at hb₂
  obtain ⟨h₃, hb₃⟩ := h₂.renameRefs ctx (refsSorted ctx.cfg ctx.dfg block.id)
  obtain ⟨pass₃, hp₃⟩ : ∃ p, p = (refsSorted ctx.cfg ctx.dfg block.id).foldl
    (BlockPass.renameRef ctx) pass₂ :=
    ⟨_, rfl⟩
  rw [← hp₃] at h₃ hb₃
  have hpass : renameBlock ctx block s =
      { pass₃ with state := pass₃.state.recordExit block.id } := by
    simp only [renameBlock, ← hp₁, ← hp₂, ← hp₃]
  have hnamed : block.phiFunctions.map (·.var) ++
      ((refsSorted ctx.cfg ctx.dfg block.id).filter (·.isDef)).map (·.name) =
        namedVars ctx block := rfl
  rw [hnamed] at h₃
  rw [hpass]
  refine ⟨?_, h₃.nextId, h₃.current, fun v => ?_, fun v c => ?_, h₃.names⟩
  · have hn : s.nextId + block.phiFunctions.length = pass₂.state.nextId := by
      rw [h₂.nextId, List.length_map]
    rw [hn]
    simp only [hb₃, hb₂, hb₁, List.nil_append, h₁.nextId, List.length_nil, Nat.add_zero]
    rfl
  · obtain ⟨new, hnew, hnil⟩ := h₃.pushed v
    simp only [RenamingState.recordExit]
    cases hd : pass₃.initialDepths v with
    | none => rw [hnew, hnil hd, List.nil_append]
    | some d =>
      dsimp only
      rw [h₃.depths v d hd, hnew, List.length_append, Nat.add_sub_cancel, List.drop_left]
  · simp only [RenamingState.recordExit, h₃.exits]
    rfl

end TldrCode.Ssa
