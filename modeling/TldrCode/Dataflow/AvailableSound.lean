import TldrCode.Dataflow.Evaluations

/-!
# What available expressions mean

The analysis computes the expressions that survive every path if a block generates whatever it
evaluates anywhere and kills the expressions whose operands it redefines (`has_availIn_iff`). A
block that evaluates an expression and redefines an operand on the same line or below generates it
nevertheless, so an expression can be reported that is not available; `availableExprs_sound_iff`
says when this does not happen.
-/

namespace TldrCode.Dataflow

open Function (update)
open TldrCode.Graph

variable {cfg : CfgInfo} {dfg : DfgInfo} {extraction : ExtractionResult} {text : String}
  {operands : List String} {state : AvailState} {changed : Bool} {b p : Nat} {s : ExprSet}

/-- All expressions of the set have been found by the extraction. -/
def ExprSet.Found (extraction : ExtractionResult) (s : ExprSet) : Prop :=
  ∀ e ∈ s.exprs, ∃ i ∈ extraction.exprInstancesWithBlocks, i.expr = e

/-- All expressions of one text have the same operands. -/
def SameOperands (instances : List ExprInstance) (text : String) (operands : List String) : Prop :=
  ∀ i ∈ instances, i.expr.text = text → i.expr.operands = operands

/-- The sets hold expressions that have been found, and miss none that survive every path. -/
structure AvailState.Above (cfg : CfgInfo) (extraction : ExtractionResult) (text : String)
    (Kill : Nat → Prop) (state : AvailState) : Prop where
  found_in : ∀ b s, state.availIn b = some s → s.Found extraction
  found_out : ∀ b s, state.availOut b = some s → s.Found extraction
  above_in : extraction.allExprs.has text → ∀ b s, state.availIn b = some s →
    SurvivesAll cfg.Edge (Evaluates extraction.exprInstancesWithBlocks text) Kill cfg.entryBlock b →
    s.has text
  above_out : extraction.allExprs.has text → ∀ b s, state.availOut b = some s →
    SurvivesThrough cfg.Edge (Evaluates extraction.exprInstancesWithBlocks text) Kill
      cfg.entryBlock b → s.has text
  entry_in : state.availIn cfg.entryBlock = some .empty
  entry_out : state.availOut cfg.entryBlock = some (extraction.genOf cfg.entryBlock)

section State

variable {Kill : Nat → Prop} {run : AvailState × Bool}

theorem init_above (h : extraction.Records cfg dfg) :
    (AvailState.init cfg extraction).Above cfg extraction text Kill := by
  have hall : extraction.allExprs.Found extraction := h.all_mem
  constructor
  case found_in =>
    intro b s hs e he
    unfold AvailState.init at hs
    dsimp only at hs
    split at hs
    · cases hs
      exact absurd he ExprSet.mem_empty
    · split at hs
      · cases hs; exact hall e he
      · cases hs
  case found_out =>
    intro b s hs
    unfold AvailState.init at hs
    dsimp only at hs
    split at hs
    · cases hs; exact h.gen_mem b
    · split at hs
      · cases hs; exact hall
      · cases hs
  case above_in =>
    intro htext b s hs hsurvives
    unfold AvailState.init at hs
    dsimp only at hs
    split at hs
    · next hb => exact absurd (hb ▸ hsurvives) not_survivesAll_root
    · split at hs
      · cases hs; exact htext
      · cases hs
  case above_out =>
    intro htext b s hs hsurvives
    unfold AvailState.init at hs
    dsimp only at hs
    split at hs
    · next hb =>
      cases hs
      have hgen := (hb ▸ hsurvives).gen_or (Reach.refl _)
      subst hb
      exact (h.gen _ _).2 (hgen.resolve_right fun hroot => not_survivesAll_root hroot.1)
    · split at hs
      · cases hs; exact htext
      · cases hs
  case entry_in => simp [AvailState.init]
  case entry_out => simp [AvailState.init, ExtractionResult.genOf]

theorem AvailState.Above.outOf_found (h : extraction.Records cfg dfg)
    (hs : state.Above cfg extraction text Kill) (p : Nat) :
    (state.outOf extraction p).Found extraction := by
  unfold AvailState.outOf
  cases hp : state.availOut p with
  | some out => exact hs.found_out p out hp
  | none => exact h.all_mem

theorem AvailState.Above.outOf_has (htext : extraction.allExprs.has text)
    (hs : state.Above cfg extraction text Kill)
    (hp : SurvivesThrough cfg.Edge (Evaluates extraction.exprInstancesWithBlocks text) Kill
      cfg.entryBlock p) : (state.outOf extraction p).has text := by
  unfold AvailState.outOf
  cases hout : state.availOut p with
  | some out => exact hs.above_out htext p out hout hp
  | none => exact htext

/-! ## One block -/

theorem has_newIn : (newIn cfg extraction state b).has text ↔
    (∃ p, cfg.Edge p b) ∧ ∀ p, cfg.Edge p b → (state.outOf extraction p).has text := by
  have hfold : ∀ (preds : List Nat) (result : ExprSet),
      (preds.foldl (fun result pred => result.inter
        (state.outOf extraction pred)) result).has text ↔
        result.has text ∧ ∀ p ∈ preds, (state.outOf extraction p).has text := by
    intro preds
    induction preds with
    | nil => simp
    | cons p preds ih =>
      intro result
      rw [List.foldl_cons, ih, ExprSet.has_inter, Bool.and_eq_true, and_assoc, List.forall_mem_cons]
  simp only [← CfgInfo.mem_predecessors]
  unfold newIn
  split
  · next hpreds => simp [hpreds]
  · next pred preds hpreds =>
    rw [hfold, hpreds, List.forall_mem_cons]
    exact ⟨fun h => ⟨⟨pred, List.mem_cons_self⟩, h⟩, And.right⟩

theorem newIn_found (hout : ∀ p, (state.outOf extraction p).Found extraction) :
    (newIn cfg extraction state b).Found extraction := by
  have hfold : ∀ (preds : List Nat) (result : ExprSet), result.Found extraction →
      (preds.foldl (fun result pred => result.inter (state.outOf extraction pred))
        result).Found extraction := fun preds _ h =>
    List.foldlRecOn (motive := (ExprSet.Found extraction ·)) preds _ h fun _ h p _ e he =>
      (ExprSet.mem_inter he).elim (h e) (hout p e)
  unfold newIn
  split
  · exact fun e he => absurd he ExprSet.mem_empty
  · exact hfold _ _ (hout _)

theorem newOut_found (h : extraction.Records cfg dfg) (hs : s.Found extraction) :
    (newOut extraction b s).Found extraction := by
  intro e he
  cases ExprSet.mem_union he with
  | inl he => exact h.gen_mem b e he
  | inr he => exact hs e (List.mem_of_mem_filter he)

section

variable (h : extraction.Records cfg dfg)
  (hops : SameOperands extraction.exprInstancesWithBlocks text operands)
include h hops

/-- What goes out is evaluated in the block, or has come in and keeps its operands. -/
theorem has_newOut (hs : s.Found extraction) : (newOut extraction b s).has text ↔
      Evaluates extraction.exprInstancesWithBlocks text b ∨
        s.has text ∧ ¬ Redefines cfg dfg operands b := by
  have hkilled : ∀ e ∈ s.exprs, e.text = text →
      (isKilled e (extraction.killOf b) ↔ Redefines cfg dfg operands b) := by
    intro e he htext
    obtain ⟨i, hi, rfl⟩ := hs e he
    rw [← h.kill, ← hops i hi htext]
    simp [isKilled]
  show ((extraction.genOf b).union
    (s.filter fun e => !isKilled e (extraction.killOf b))).has text ↔ _
  rw [ExprSet.has_union, Bool.or_eq_true, h.gen]
  refine or_congr_right ?_
  rw [ExprSet.has_iff, ExprSet.has_iff]
  simp only [ExprSet.filter, List.mem_filter, Bool.not_eq_true']
  constructor
  · rintro ⟨e, ⟨he, hkill⟩, htext⟩
    refine ⟨⟨e, he, htext⟩, fun hredefines => ?_⟩
    rw [(hkilled e he htext).2 hredefines] at hkill
    cases hkill
  · rintro ⟨⟨e, he, htext⟩, hredefines⟩
    refine ⟨e, ⟨he, ?_⟩, htext⟩
    rw [Bool.eq_false_iff]
    exact fun hkill => hredefines ((hkilled e he htext).1 hkill)

/-- The block is the entry, or its sets are those of its equations. -/
def Stable (cfg : CfgInfo) (extraction : ExtractionResult) (state : AvailState) (b : Nat) : Prop :=
  b = cfg.entryBlock ∨
    ((state.availIn b).any (·.eq (newIn cfg extraction state b)) &&
      (state.availOut b).any (·.eq (newOut extraction b (newIn cfg extraction state b)))) = true

/-- **A step keeps the sets above**, for a block that is reached. -/
theorem availStep_above (hs : state.Above cfg extraction text (Redefines cfg dfg operands))
    (hb : cfg.Reachable b) :
    (availStep cfg extraction (state, changed) b).1.Above cfg extraction text
      (Redefines cfg dfg operands) := by
  have hfound : (newIn cfg extraction state b).Found extraction := newIn_found (hs.outOf_found h)
  have hin : extraction.allExprs.has text → b ≠ cfg.entryBlock →
      SurvivesAll cfg.Edge (Evaluates extraction.exprInstancesWithBlocks text)
        (Redefines cfg dfg operands) cfg.entryBlock b →
      (newIn cfg extraction state b).has text := by
    intro htext hne hsurvives
    rw [has_newIn]
    refine ⟨?_, fun p hp => hs.outOf_has htext (hsurvives.through hp)⟩
    obtain ⟨l, w⟩ := hb
    obtain ⟨l, rfl⟩ := w.eq_concat
    have hl : l ≠ [] := by
      intro hl
      subst hl
      exact hne (by simpa using w.head)
    obtain ⟨p, -, hp⟩ := w.exists_last_step hl
    exact ⟨p, hp⟩
  unfold availStep
  dsimp only
  split
  · exact hs
  · next hne =>
    split
    · exact hs
    · constructor
      case found_in =>
        intro c s hc
        simp only [Function.update_apply] at hc
        split at hc
        · cases hc; exact hfound
        · exact hs.found_in c s hc
      case found_out =>
        intro c s hc
        simp only [Function.update_apply] at hc
        split at hc
        · cases hc; exact newOut_found h hfound
        · exact hs.found_out c s hc
      case above_in =>
        intro htext c s hc hsurvives
        simp only [Function.update_apply] at hc
        split at hc
        · next hcb =>
          cases hc
          exact hin htext hne (hcb ▸ hsurvives)
        · exact hs.above_in htext c s hc hsurvives
      case above_out =>
        intro htext c s hc hsurvives
        simp only [Function.update_apply] at hc
        split at hc
        · next hcb =>
          cases hc
          subst hcb
          rw [has_newOut h hops hfound]
          exact (hsurvives.gen_or hb).imp_right fun hk => ⟨hin htext hne hk.1, hk.2⟩
        · exact hs.above_out htext c s hc hsurvives
      case entry_in => exact (Function.update_of_ne (Ne.symm hne) _ _).trans hs.entry_in
      case entry_out => exact (Function.update_of_ne (Ne.symm hne) _ _).trans hs.entry_out

end

theorem availStep_stable (h : (availStep cfg extraction run b).2 = false) :
    availStep cfg extraction run b = run ∧ Stable cfg extraction run.1 b := by
  unfold availStep at h ⊢
  dsimp only at h ⊢
  by_cases hb : b = cfg.entryBlock
  · rw [if_pos hb]
    exact ⟨rfl, .inl hb⟩
  · rw [if_neg hb] at h ⊢
    split at h
    · next hstable =>
      rw [if_pos hstable]
      exact ⟨rfl, .inr hstable⟩
    · cases h

theorem availStep_foldl_stable {order : List Nat}
    (h : (order.foldl (availStep cfg extraction) run).2 = false) :
    order.foldl (availStep cfg extraction) run = run ∧
      ∀ b ∈ order, Stable cfg extraction run.1 b := by
  induction order generalizing run with
  | nil => exact ⟨rfl, by simp⟩
  | cons b order ih =>
    rw [List.foldl_cons] at h ⊢
    obtain ⟨heq, hstable⟩ := ih h
    rw [heq] at h ⊢
    obtain ⟨hrun, hb⟩ := availStep_stable h
    rw [hrun] at hstable ⊢
    exact ⟨rfl, List.forall_mem_cons.2 ⟨hb, hstable⟩⟩

section

variable (h : extraction.Records cfg dfg)
  (hops : SameOperands extraction.exprInstancesWithBlocks text operands)
include h hops

/-- **A result of the rounds** is above, and stable at every block that is reached. -/
theorem availRounds_spec (hblocks : cfg.blocks ≠ []) {limit left : Nat} {result : AvailState}
    (hs : state.Above cfg extraction text (Redefines cfg dfg operands))
    (hr : availRounds cfg extraction limit left state = .ok result) :
    result.Above cfg extraction text (Redefines cfg dfg operands) ∧
      ∀ b, cfg.Reachable b → Stable cfg extraction result b := by
  have hround : ∀ (order : List Nat) (changed : Bool) (state : AvailState),
      (∀ b ∈ order, cfg.Reachable b) →
      state.Above cfg extraction text (Redefines cfg dfg operands) →
      (order.foldl (availStep cfg extraction) (state, changed)).1.Above cfg extraction text
        (Redefines cfg dfg operands) := fun order _ _ horder hs =>
    List.foldlRecOn (motive := fun run : AvailState × Bool =>
      run.1.Above cfg extraction text (Redefines cfg dfg operands)) order _ hs
      fun _ hs b hb => availStep_above h hops hs (horder b hb)
  have horder := fun b => mem_reversePostorder (b := b) hblocks
  induction left generalizing state with
  | zero => cases hr
  | succ left ih =>
    unfold availRounds at hr
    dsimp only at hr
    have habove := hround _ false state (fun b hb => (horder b).1 hb) hs
    split at hr
    · exact ih habove hr
    · next hchanged =>
      split at hr
      · cases hr
      · cases hr
        obtain ⟨heq, hstable⟩ := availStep_foldl_stable (Bool.eq_false_iff.2 hchanged)
        rw [heq] at habove ⊢
        exact ⟨habove, fun b hb => hstable b ((horder b).2 hb)⟩

/-- **What the analysis computes**: the expression is in the set of a block that is reached exactly
if it survives every path in terms of whole blocks. -/
theorem has_availIn_iff (hs : state.Above cfg extraction text (Redefines cfg dfg operands))
    (hstable : ∀ b, cfg.Reachable b → Stable cfg extraction state b) (hb : cfg.Reachable b) :
    (∃ s, state.availIn b = some s ∧ s.has text) ↔
      SurvivesAll cfg.Edge (Evaluates extraction.exprInstancesWithBlocks text)
        (Redefines cfg dfg operands) cfg.entryBlock b := by
  have heqs : ∀ b, cfg.Reachable b → b ≠ cfg.entryBlock →
      (∃ s, state.availIn b = some s ∧ s.eq (newIn cfg extraction state b)) ∧
      ∃ s, state.availOut b = some s ∧
        s.eq (newOut extraction b (newIn cfg extraction state b)) := by
    intro b hb hne
    have := (hstable b hb).resolve_left hne
    simpa only [Bool.and_eq_true, Option.any_eq_true] using this
  constructor
  · intro hin
    refine survives_of_solution (fun b => ∃ s, state.availIn b = some s ∧ s.has text)
      (fun b => (state.outOf extraction b).has text) ?_ ?_ ?_ ?_ hb hin
    · intro hout
      rw [AvailState.outOf, hs.entry_out] at hout
      exact (h.gen _ _).1 hout
    · rintro ⟨s, hs', htext⟩
      rw [hs.entry_in] at hs'
      cases hs'
      cases htext
    · rintro a b hb hne ⟨s, hs', htext⟩ hab
      obtain ⟨s', hs'', heq⟩ := (heqs b hb hne).1
      obtain rfl : s = s' := Option.some.inj (hs'.symm.trans hs'')
      rw [ExprSet.has_of_eq heq, has_newIn] at htext
      exact htext.2 a hab
    · intro b hb hne hout
      obtain ⟨⟨s, hs', hin⟩, t, ht, hnew⟩ := heqs b hb hne
      rw [AvailState.outOf, ht, Option.getD_some, ExprSet.has_of_eq hnew,
        has_newOut h hops (newIn_found (hs.outOf_found h)), ← ExprSet.has_of_eq hin] at hout
      exact hout.imp_right fun hk => ⟨⟨s, hs', hk.1⟩, hk.2⟩
  · intro hsurvives
    by_cases hne : b = cfg.entryBlock
    · exact absurd (hne ▸ hsurvives) not_survivesAll_root
    · obtain ⟨⟨s, hs', -⟩, -⟩ := heqs b hb hne
      refine ⟨s, hs', hs.above_in ?_ b s hs' hsurvives⟩
      -- on a path there, some block evaluates the expression
      obtain ⟨l, w⟩ := hb
      obtain ⟨l, rfl⟩ := w.eq_concat
      obtain ⟨c, -, hc⟩ := (hsurvives l w).exists_gen
      exact h.all c text hc

end

end State

/-! ## Soundness -/

variable {ord : HashOrder} {tables : CharTables} {sourceLines : Option (List String)}
  {tree : Option SyntaxTree} {info : AvailableExprsInfo}

theorem computeAvailable_eq_ok
    (hok : computeAvailable ord tables cfg dfg sourceLines tree = some (.ok info)) :
    cfg.blocks ≠ [] ∧ ∃ extraction, extraction.Records cfg dfg ∧
      availableInfo cfg extraction = .ok info := by
  unfold computeAvailable at hok
  split at hok
  · cases hok
  · next hvalid =>
    obtain ⟨extraction, hextraction, hinfo⟩ := Option.map_eq_some_iff.1 hok
    refine ⟨?_, extraction, extractExpressionsFullWithLang_records hextraction, hinfo⟩
    intro hblocks
    simp [validateCfg, hblocks] at hvalid

theorem computeAvailable_spec
    (hok : computeAvailable ord tables cfg dfg sourceLines tree = some (.ok info))
    (hops : SameOperands info.exprInstancesWithBlocks text operands) :
    (∀ b s, info.availIn b = some s → ∀ e ∈ s.exprs, e.text = text → e.operands = operands) ∧
      ∀ b, cfg.Reachable b → ((∃ s, info.availIn b = some s ∧ s.has text) ↔
        SurvivesAll cfg.Edge (Evaluates info.exprInstancesWithBlocks text)
          (Redefines cfg dfg operands) cfg.entryBlock b) := by
  obtain ⟨hblocks, extraction, h, hinfo⟩ := computeAvailable_eq_ok hok
  unfold availableInfo at hinfo
  dsimp only at hinfo
  split at hinfo
  · cases hinfo
    have hempty : ∀ b s, (if b ∈ cfg.blockIds then some ExprSet.empty else none) = some s →
        s = .empty := by
      intro b s hs
      split at hs
      · exact (Option.some.inj hs).symm
      · cases hs
    refine ⟨fun b s hs e he => ?_, fun b hb => ?_⟩
    · rw [hempty b s hs] at he
      exact absurd he ExprSet.mem_empty
    · constructor
      · rintro ⟨s, hs, htext⟩
        rw [hempty b s hs] at htext
        cases htext
      · intro hsurvives
        obtain ⟨l, w⟩ := hb
        obtain ⟨l, rfl⟩ := w.eq_concat
        obtain ⟨c, -, line, i, hi, -⟩ := (hsurvives l w).exists_gen
        exact absurd hi List.not_mem_nil
  · generalize hstate : availRounds cfg extraction _ _ _ = result at hinfo
    cases result with
    | error e => cases hinfo
    | ok state =>
      cases hinfo
      obtain ⟨habove, hstable⟩ := availRounds_spec h hops hblocks (init_above h) hstate
      refine ⟨fun b s hs e he htext => ?_, fun b hb => has_availIn_iff h hops habove hstable hb⟩
      obtain ⟨i, hi, rfl⟩ := habove.found_in b s hs e he
      exact hops i hi htext

/-- **The expressions reported for a block are available there** exactly if no block that is reached
evaluates one of them, then redefines an operand, and leads to a block at whose start the expression
survives every path in terms of whole blocks. -/
theorem availableExprs_sound_iff
    (hok : computeAvailable ord tables cfg dfg sourceLines tree = some (.ok info))
    (hops : SameOperands info.exprInstancesWithBlocks text operands) :
    (∀ b, cfg.Reachable b → ∀ s, info.availIn b = some s → ∀ e ∈ s.exprs, e.text = text →
      AvailableAt cfg dfg info.exprInstancesWithBlocks text e.operands b) ↔
    ∀ c b, cfg.Reachable c → cfg.Edge c b → Evaluates info.exprInstancesWithBlocks text c →
      ¬ EvaluatesLast cfg dfg info.exprInstancesWithBlocks text operands c →
      ¬ SurvivesAll cfg.Edge (Evaluates info.exprInstancesWithBlocks text)
        (Redefines cfg dfg operands) cfg.entryBlock b := by
  obtain ⟨hoperands, hhas⟩ := computeAvailable_spec hok hops
  rw [← survivesAll_real_iff fun c => redefines_of_not_last]
  refine forall₂_congr fun b hb => ?_
  rw [← hhas b hb]
  constructor
  · rintro h ⟨s, hs, htext⟩
    obtain ⟨e, he, htext⟩ := ExprSet.has_iff.1 htext
    exact hoperands b s hs e he htext ▸ h s hs e he htext
  · intro h s hs e he htext
    rw [hoperands b s hs e he htext]
    exact h ⟨s, hs, ExprSet.has_iff.2 ⟨e, he, htext⟩⟩

/-- `x = a + b`, `a = 5` and, in a second block, `y = a + b`. -/
def killedCfg : CfgInfo where
  function := "killed"
  blocks := [⟨0, 1, 2⟩, ⟨1, 3, 3⟩]
  edges := [⟨0, 1⟩]
  entryBlock := 0
  exitBlocks := [1]

def killedDfg : DfgInfo where
  refs := [⟨"x", .definition, 1, 0⟩, ⟨"a", .use, 1, 4⟩, ⟨"b", .use, 1, 8⟩, ⟨"a", .definition, 2, 0⟩,
    ⟨"y", .definition, 3, 0⟩, ⟨"a", .use, 3, 4⟩, ⟨"b", .use, 3, 8⟩]

def killedLines : List String := ["x = a + b", "a = 5", "y = a + b"]

theorem killed_computed : ∃ info,
    computeAvailableExprsWithSourceAndLang .insertion .ascii killedCfg killedDfg killedLines none =
      some (.ok info) ∧
    info.exprInstancesWithBlocks = [⟨⟨"a + b", ["a", "b"], 1⟩, 0⟩, ⟨⟨"a + b", ["a", "b"], 3⟩, 1⟩] ∧
    ∃ s, info.availIn 1 = some s ∧ s.exprs = [⟨"a + b", ["a", "b"], 1⟩] := by
  have hrun : ((computeAvailableExprsWithSourceAndLang .insertion .ascii killedCfg killedDfg
      killedLines none).bind Except.toOption).map (fun info => (info.exprInstancesWithBlocks,
        (info.availIn 1).map (·.exprs))) =
      some ([⟨⟨"a + b", ["a", "b"], 1⟩, 0⟩, ⟨⟨"a + b", ["a", "b"], 3⟩, 1⟩],
        some [⟨"a + b", ["a", "b"], 1⟩]) := by decide +kernel
  obtain ⟨info, hok, hinfo⟩ := exists_some_ok_of_map hrun
  obtain ⟨hinstances, hin⟩ := Prod.mk.inj hinfo
  exact ⟨info, hok, hinstances, Option.map_eq_some_iff.1 hin⟩

theorem killedCfg_edge : killedCfg.Edge 0 1 := ⟨⟨0, 1⟩, by decide, rfl, rfl⟩

theorem availableExprs_sound_iff_killed : ∃ info : AvailableExprsInfo,
    computeAvailableExprsWithSourceAndLang .insertion .ascii killedCfg killedDfg killedLines none =
      some (.ok info) ∧
    ((∀ b, killedCfg.Reachable b → ∀ s, info.availIn b = some s → ∀ e ∈ s.exprs, e.text = "a + b" →
      AvailableAt killedCfg killedDfg info.exprInstancesWithBlocks "a + b" e.operands b) ↔
    ∀ c b, killedCfg.Reachable c → killedCfg.Edge c b →
      Evaluates info.exprInstancesWithBlocks "a + b" c →
      ¬ EvaluatesLast killedCfg killedDfg info.exprInstancesWithBlocks "a + b" ["a", "b"] c →
      ¬ SurvivesAll killedCfg.Edge (Evaluates info.exprInstancesWithBlocks "a + b")
        (Redefines killedCfg killedDfg ["a", "b"]) killedCfg.entryBlock b) := by
  obtain ⟨info, hok, hinstances, -⟩ := killed_computed
  refine ⟨info, hok, availableExprs_sound_iff hok ?_⟩
  rw [hinstances]
  unfold SameOperands
  decide

/-- `a + b` is reported for the second block, although `a` has been redefined. -/
theorem availIn_killed : ∃ info,
    computeAvailableExprsWithSourceAndLang .insertion .ascii killedCfg killedDfg killedLines none =
      some (.ok info) ∧
    ¬ ∀ b, killedCfg.Reachable b → ∀ s, info.availIn b = some s → ∀ e ∈ s.exprs,
      AvailableAt killedCfg killedDfg info.exprInstancesWithBlocks e.text e.operands b := by
  obtain ⟨info, hok, hinstances, s, hs, hexprs⟩ := killed_computed
  refine ⟨info, hok, fun h => ?_⟩
  have havailable := h 1 (.edge killedCfg_edge) s hs ⟨"a + b", ["a", "b"], 1⟩ (by simp [hexprs])
  have hpath : Walk killedCfg.Edge 0 1 ([0] ++ [1]) := (Walk.single 0).concat killedCfg_edge
  have hsurvives := havailable [0] hpath
  rw [← List.nil_append [0], survives_concat] at hsurvives
  obtain ⟨line, ⟨i, hi, hblock, -, rfl⟩, hlast⟩ :=
    hsurvives.resolve_right fun hnil => not_survives_nil hnil.1
  rw [hinstances] at hi
  have hline : i.expr.line ≤ 2 := by
    have : ∀ i ∈ ([⟨⟨"a + b", ["a", "b"], 1⟩, 0⟩, ⟨⟨"a + b", ["a", "b"], 3⟩, 1⟩] :
      List ExprInstance), i.blockId = 0 → i.expr.line ≤ 2 := by decide
    exact this i hi hblock
  exact hlast 2 hline ⟨⟨"a", .definition, 2, 0⟩, by decide, rfl, by decide, rfl, by decide⟩

end TldrCode.Dataflow
