import TldrCode.Ssa.AvailableExpressions

/-!
# When an expression reported for a block is available there

The statements on a line evaluate their expressions before they define variables, and a block
executes the lines of its range. An expression is available at a block if every path from the entry
evaluates it and redefines no operand afterwards (`AvailableAt`). Both functions report what is
delivered to a block along what they take for evaluations and definitions; they lose sight of a
definition on the line of the evaluation, of all definitions on a line but one, and of the start of
the function. `availableExpressions_sound_iff` says where that matters.
-/

namespace TldrCode.Ssa

open Dataflow (CharTables MustProblem DeliveredTo deliveredTo_survives_iff)
open TldrCode.Graph

/-! ## What is available -/

/-- The expressions that are evaluated on the lines of the source, and the variables defined. -/
structure Statements where
  evaluates : Nat → String → Prop
  defines : Nat → String → Prop

def Covers (cfg : CfgInfo) (b line : Nat) : Prop :=
  ∃ block ∈ cfg.blocks, block.id = b ∧ block.lines.1 ≤ line ∧ line ≤ block.lines.2

section Events

variable (cfg : CfgInfo) (st : Statements) (e : Expression) (b : Nat)

def EvaluatesExpr : Prop := ∃ line, Covers cfg b line ∧ st.evaluates line e.text

def RedefinesOperand : Prop := ∃ line v, Covers cfg b line ∧ st.defines line v ∧ v ∈ e.uses

/-- The block evaluates the expression, and neither this line nor a later one redefines an
operand. -/
def EvaluatesExprLast : Prop := ∃ line, Covers cfg b line ∧ st.evaluates line e.text ∧
  ∀ line' v, line ≤ line' → Covers cfg b line' → st.defines line' v → v ∉ e.uses

/-- Every path from the entry to the block evaluates the expression, and no operand is redefined
after the last evaluation. -/
def ExprAvailableAt : Prop :=
  SurvivesAll cfg.Edge (EvaluatesExprLast cfg st e) (RedefinesOperand cfg st e) cfg.entryBlock b

/-- What is reported for a block is available there. -/
def ReportsAvailable (info : AvailableExpressions) : Prop :=
  ∀ b sets, info.blocks b = some sets → ∀ idx ∈ sets.inSet,
    ∃ e, info.expressions[idx]? = some e ∧ ExprAvailableAt cfg st e b

/-- The blocks that generate and kill an expression deliver it to nothing that they should not:
not to the entry, and from no block that redefines an operand after it has evaluated the
expression. -/
def DeliversSoundly (Generates Kills : Nat → Prop) : Prop :=
  ¬ DeliveredTo cfg.predecessors Generates Kills cfg.entryBlock ∧
    ∀ x b, cfg.Reachable x → cfg.Edge x b → DeliveredTo cfg.predecessors Generates Kills b →
      RedefinesOperand cfg st e x → EvaluatesExprLast cfg st e x

end Events

variable {cfg : CfgInfo} {st : Statements} {e : Expression} {b line : Nat} {v : String}
  {expressions : List Expression} {gen kill : CfgBlock → Finset Nat} {idx : Nat} {block : CfgBlock}

theorem EvaluatesExpr.last (h : EvaluatesExpr cfg st e b) (hkept : ¬ RedefinesOperand cfg st e b) :
    EvaluatesExprLast cfg st e b := by
  obtain ⟨line, hcovers, heval⟩ := h
  exact ⟨line, hcovers, heval, fun line' v _ hline' hdef hv => hkept ⟨line', v, hline', hdef, hv⟩⟩

theorem covers_of_lineToBlock (h : lineToBlock cfg line = some b) : Covers cfg b line := by
  have key : ∀ (blocks : List CfgBlock) (found : Option Nat),
      blocks.foldl (fun found block =>
        if block.lines.1 ≤ line ∧ line ≤ block.lines.2 then some block.id else found) found =
          some b →
      found = some b ∨
        ∃ block ∈ blocks, block.id = b ∧ block.lines.1 ≤ line ∧ line ≤ block.lines.2 := by
    intro blocks
    induction blocks with
    | nil => exact fun found h => .inl h
    | cons block blocks ih =>
      intro found h
      rw [List.foldl_cons] at h
      cases ih _ h with
      | inl h =>
        split at h
        · next hline => exact .inr ⟨block, by simp, Option.some.inj h, hline⟩
        · exact .inl h
      | inr h =>
        obtain ⟨other, hother, hline⟩ := h
        exact .inr ⟨other, List.mem_cons_of_mem _ hother, hline⟩
  exact (key cfg.blocks none h).resolve_left (by simp)

/-! ## The equations -/

theorem mem_setOf (hcfg : cfg.WellFormed) {sets : CfgBlock → Finset Nat} :
    idx ∈ setOf cfg sets b ↔ ∃ block ∈ cfg.blocks, block.id = b ∧ idx ∈ sets block := by
  have key : ∀ blocks : List CfgBlock, (blocks.map (·.id)).Nodup →
      (idx ∈ blocks.foldl (fun found block => if block.id = b then sets block else found) ∅ ↔
        ∃ block ∈ blocks, block.id = b ∧ idx ∈ sets block) := by
    intro blocks
    induction blocks using List.reverseRecOn with
    | nil => simp
    | append_singleton blocks last ih =>
      intro hnodup
      rw [List.map_append, List.nodup_append] at hnodup
      obtain ⟨hblocks, -, hlast⟩ := hnodup
      rw [List.foldl_append, List.foldl_cons, List.foldl_nil]
      split
      · next hb =>
        constructor
        · exact fun hidx => ⟨last, by simp, hb, hidx⟩
        · rintro ⟨block, hblock, hid, hidx⟩
          rw [List.mem_append, List.mem_singleton] at hblock
          cases hblock with
          | inl hblock =>
            have hne := hlast block.id (List.mem_map_of_mem hblock) last.id (by simp)
            exact absurd (hid.trans hb.symm) hne
          | inr hblock => exact hblock ▸ hidx
      · next hb =>
        rw [ih hblocks]
        constructor
        · rintro ⟨block, hblock, h⟩
          exact ⟨block, List.mem_append_left _ hblock, h⟩
        · rintro ⟨block, hblock, hid, hidx⟩
          rw [List.mem_append, List.mem_singleton] at hblock
          refine ⟨block, hblock.resolve_right fun hlast => ?_, hid, hidx⟩
          exact hb (hlast ▸ hid)
  exact key cfg.blocks hcfg.nodup

theorem equations_wellFormed (hcfg : cfg.WellFormed)
    (hgen : ∀ block, gen block ⊆ Finset.range expressions.length) :
    (equations cfg expressions gen kill).WellFormed where
  preds := by
    intro b _ p hp
    obtain ⟨e, he, hfrom, -⟩ := CfgInfo.mem_predecessors.1 hp
    exact hfrom ▸ hcfg.from_mem e he
  gen := by
    intro b idx hidx
    obtain ⟨block, -, -, hidx⟩ := (mem_setOf hcfg).1 hidx
    exact hgen block hidx

/-- **What is reported** for a block is what is delivered to it. -/
theorem mem_inSet (hcfg : cfg.WellFormed)
    (hgen : ∀ block, gen block ⊆ Finset.range expressions.length) :
    (∃ sets, (solveEquations cfg expressions gen kill).blocks b = some sets ∧ idx ∈ sets.inSet) ↔
      (equations cfg expressions gen kill).In idx b := by
  have hP : (equations cfg expressions gen kill).WellFormed := equations_wellFormed hcfg hgen
  -- edges lead to blocks, so nothing is delivered elsewhere
  have hblock : (equations cfg expressions gen kill).In idx b → b ∈ cfg.blockIds := by
    rintro ⟨hpreds, -⟩
    obtain ⟨p, hp⟩ := List.exists_mem_of_ne_nil _ hpreds
    exact hcfg.edge_mem (CfgInfo.mem_predecessors.1 hp)
  unfold solveEquations
  split
  · next hempty =>
    constructor
    · rintro ⟨sets, hsets, hidx⟩
      dsimp only at hsets
      split at hsets
      · cases hsets
        exact absurd hidx (Finset.notMem_empty _)
      · cases hsets
    · rintro ⟨hpreds, hall⟩
      obtain ⟨p, hp⟩ := List.exists_mem_of_ne_nil _ hpreds
      have hfact := hP.mem_facts (hall p hp)
      rw [equations, hempty] at hfact
      exact absurd hfact (by simp)
  · have hlength : (equations cfg expressions gen kill).nodes.length <
        cfg.blockIds.length * 2 + 10 := by
      show cfg.blockIds.length < _
      omega
    have hinit : (initialSets cfg expressions gen).after =
        (equations cfg expressions gen kill).gen := rfl
    obtain ⟨-, hbefore⟩ := MustProblem.mem_after_rounds hP hlength hinit
    constructor
    · rintro ⟨sets, hsets, hidx⟩
      dsimp only at hsets
      split at hsets
      · next hb =>
        cases hsets
        exact (hbefore b hb idx).1 hidx
      · cases hsets
    · intro hin
      have hb := hblock hin
      refine ⟨_, if_pos hb, ?_⟩
      exact (hbefore b hb idx).2 hin

theorem solveEquations_expressions :
    (solveEquations cfg expressions gen kill).expressions = expressions := by
  unfold solveEquations
  split
  · rfl
  · rfl

/-- **The report is right** exactly if all expressions are delivered soundly, where the sets follow
predicates on the input. -/
theorem reportsAvailable_iff (hcfg : cfg.WellFormed)
    (hgen : ∀ block, gen block ⊆ Finset.range expressions.length)
    {Generates Kills : Expression → Nat → Prop}
    (hGenerates : ∀ idx e b, expressions[idx]? = some e →
      (idx ∈ setOf cfg gen b ↔ Generates e b))
    (hKills : ∀ idx e b, expressions[idx]? = some e → (idx ∈ setOf cfg kill b ↔ Kills e b))
    (heval : ∀ e ∈ expressions, ∀ b, Generates e b → EvaluatesExpr cfg st e b) :
    ReportsAvailable cfg st (solveEquations cfg expressions gen kill) ↔
      ∀ e ∈ expressions, DeliversSoundly cfg st e (Generates e) (Kills e) := by
  have hin : ∀ idx e b, expressions[idx]? = some e →
      ((equations cfg expressions gen kill).In idx b ↔
        DeliveredTo cfg.predecessors (Generates e) (Kills e) b) := by
    intro idx e b he
    have h₁ : (idx ∈ setOf cfg gen ·) = Generates e := funext fun b =>
      propext (hGenerates idx e b he)
    have h₂ : (idx ∈ setOf cfg kill ·) = Kills e := funext fun b => propext (hKills idx e b he)
    show DeliveredTo cfg.predecessors (idx ∈ setOf cfg gen ·) (idx ∈ setOf cfg kill ·) b ↔ _
    rw [h₁, h₂]
  have hsurvives : ∀ e ∈ expressions, ((∀ b,
      DeliveredTo cfg.predecessors (Generates e) (Kills e) b → ExprAvailableAt cfg st e b) ↔
        DeliversSoundly cfg st e (Generates e) (Kills e)) := fun e he =>
    deliveredTo_survives_iff (fun _ _ => CfgInfo.mem_predecessors)
      fun b hb hkept => (heval e he b hb).last hkept
  unfold ReportsAvailable
  rw [solveEquations_expressions]
  constructor
  · intro h e he
    obtain ⟨idx, hidx⟩ := List.getElem?_of_mem he
    refine (hsurvives e he).1 fun b hb => ?_
    obtain ⟨sets, hsets, hmem⟩ := (mem_inSet hcfg hgen).2 ((hin idx e b hidx).2 hb)
    obtain ⟨e', he', havail⟩ := h b sets hsets idx hmem
    rw [hidx] at he'
    exact Option.some.inj he' ▸ havail
  · intro h b sets hsets idx hidx
    have hdelivered := (mem_inSet hcfg hgen).1 ⟨sets, hsets, hidx⟩
    have hfact : idx < expressions.length := by
      obtain ⟨p, hp⟩ := List.exists_mem_of_ne_nil _ hdelivered.1
      exact Finset.mem_range.1
        ((equations_wellFormed hcfg hgen).mem_facts (hdelivered.2 p hp))
    have he := List.getElem?_eq_getElem hfact
    refine ⟨_, he, (hsurvives _ (List.getElem_mem hfact)).2 (h _ (List.getElem_mem hfact)) b ?_⟩
    exact (hin idx _ b he).1 hdelivered

theorem mem_killOf {defs : List String} (he : expressions[idx]? = some e) :
    idx ∈ killOf expressions defs ↔ ∃ v ∈ defs, v ∈ e.uses := by
  have hlt : idx < expressions.length := (List.getElem?_eq_some_iff.1 he).1
  simp only [killOf, Finset.mem_filter, Finset.mem_range, hlt, he, Option.any_some,
    List.any_eq_true, decide_eq_true_eq, true_and]
  exact ⟨fun ⟨v, hv, hdef⟩ => ⟨v, hdef, hv⟩, fun ⟨v, hdef, hv⟩ => ⟨v, hv, hdef⟩⟩

/-! ## Expressions from the source -/

section Source

variable (tables : CharTables) (cfg : CfgInfo) (parsed : Parsed)

/-- The statements that the source has been found to contain. -/
def Parsed.statements : Statements where
  evaluates line text := ∃ o ∈ parsed.tracked tables, o.line = line ∧ o.exprText = text
  defines line v := (line, v) ∈ parsed.defs

/-- The definition that is kept for a line: the last one. -/
def KeptDef (line : Nat) (v : String) : Prop :=
  lineToBlock cfg line ≠ none ∧
    (parsed.defs.filter (·.1 == line)).getLast? = some (line, v)

/-- The block is taken to end with the expression: it is evaluated on a line of the block, and no
operand is defined by a definition that is kept for a later line up to the end of the block. -/
def GeneratesExpr (e : Expression) (b : Nat) : Prop :=
  ∃ o ∈ parsed.tracked tables, o.exprText = e.text ∧ lineToBlock cfg o.line = some b ∧
    ∀ block ∈ cfg.blocks, block.id = b → ∀ line v, KeptDef cfg parsed line v → o.line < line →
      line ≤ block.lines.2 → v ∉ e.uses

/-- The block is taken to redefine an operand of the expression. -/
def KillsExpr (e : Expression) (b : Nat) : Prop :=
  ∃ d ∈ parsed.defs, lineToBlock cfg d.1 = some b ∧ d.2 ∈ e.uses

end Source

namespace ExpressionExtraction

structure DefsRecorded (cfg : CfgInfo) (x : ExpressionExtraction) (defs : List (Nat × String)) :
    Prop where
  blockDefs : ∀ b v, v ∈ x.blockDefs b ↔ ∃ d ∈ defs, lineToBlock cfg d.1 = some b ∧ d.2 = v
  defsByLine : ∀ d, d ∈ x.defsByLine ↔
    lineToBlock cfg d.1 ≠ none ∧ (defs.filter (·.1 == d.1)).getLast? = some d

structure ExprsRecorded (cfg : CfgInfo) (x : ExpressionExtraction)
    (found : List BinaryOccurrence) : Prop where
  nodup : (x.allExpressions.map (·.text)).Nodup
  texts : ∀ o ∈ found, ∃ e ∈ x.allExpressions, e.text = o.exprText
  blockExprs : ∀ b line e, (line, e) ∈ x.blockExprs b ↔ e ∈ x.allExpressions ∧
    ∃ o ∈ found, o.line = line ∧ o.exprText = e.text ∧ lineToBlock cfg line = some b

variable {x : ExpressionExtraction} {defs : List (Nat × String)} {found : List BinaryOccurrence}

/-- **A definition is recorded** for its block, and for its line instead of an earlier one. -/
theorem DefsRecorded.recordDef (h : x.DefsRecorded cfg defs) (d : Nat × String) :
    (x.recordDef cfg d).DefsRecorded cfg (defs ++ [d]) := by
  have hlast : ∀ line, ((defs ++ [d]).filter (·.1 == line)).getLast? =
      if d.1 = line then some d else (defs.filter (·.1 == line)).getLast? := by
    intro line
    rw [List.filter_append, List.filter_singleton]
    by_cases hd : d.1 = line
    · simp [hd]
    · rw [if_neg hd, beq_false_of_ne hd, cond_false, List.append_nil]
  unfold ExpressionExtraction.recordDef
  cases hb : lineToBlock cfg d.1 with
  | none =>
    constructor
    · intro b v
      rw [h.blockDefs]
      simp [hb]
    · intro d'
      rw [hlast, h.defsByLine]
      split
      · next hd => rw [← hd, hb]; simp
      · rfl
  | some c =>
    constructor
    · intro b v
      dsimp only
      by_cases hbc : b = c
      · subst hbc
        rw [Function.update_self, List.mem_cons, h.blockDefs]
        simp [or_and_right, exists_or, hb, or_comm, eq_comm]
      · rw [Function.update_of_ne hbc, h.blockDefs]
        simp [or_and_right, exists_or, hb, Ne.symm hbc]
    · intro d'
      dsimp only
      rw [hlast, List.mem_append, List.mem_filter, h.defsByLine, List.mem_singleton]
      by_cases hd : d.1 = d'.1
      · rw [if_pos hd, ← hd, hb]
        simp [eq_comm]
      · have hne : d' ≠ d := fun h => hd (h ▸ rfl)
        rw [if_neg hd]
        simp [hne, Ne.symm hd]

theorem DefsRecorded.empty : empty.DefsRecorded cfg [] where
  blockDefs := by simp [ExpressionExtraction.empty]
  defsByLine := by simp [ExpressionExtraction.empty]

theorem defsRecorded_foldl (cfg : CfgInfo) (defs : List (Nat × String)) :
    (defs.foldl (recordDef cfg) empty).DefsRecorded cfg defs := by
  induction defs using List.reverseRecOn with
  | nil => exact .empty
  | append_singleton defs d ih =>
    rw [List.foldl_append, List.foldl_cons, List.foldl_nil]
    exact ih.recordDef d

theorem recordDef_allExpressions (x : ExpressionExtraction) (d : Nat × String) :
    (x.recordDef cfg d).allExpressions = x.allExpressions := by
  unfold recordDef
  split
  · rfl
  · rfl

theorem recordDef_blockExprs (x : ExpressionExtraction) (d : Nat × String) :
    (x.recordDef cfg d).blockExprs = x.blockExprs := by
  unfold recordDef
  split
  · rfl
  · rfl

theorem exprsRecorded_defs (cfg : CfgInfo) (defs : List (Nat × String)) :
    (defs.foldl (recordDef cfg) empty).ExprsRecorded cfg [] := by
  have hnone : ∀ defs : List (Nat × String),
      (defs.foldl (recordDef cfg) empty).allExpressions = [] ∧
        ∀ b, (defs.foldl (recordDef cfg) empty).blockExprs b = [] := by
    intro defs
    induction defs using List.reverseRecOn with
    | nil => exact ⟨rfl, fun _ => rfl⟩
    | append_singleton defs d ih =>
      rw [List.foldl_append, List.foldl_cons, List.foldl_nil, recordDef_allExpressions,
        recordDef_blockExprs]
      exact ih
  obtain ⟨hall, hblocks⟩ := hnone defs
  constructor
  · rw [hall]
    exact List.nodup_nil
  · simp
  · simp [hall, hblocks]

theorem recordExpr_defs (x : ExpressionExtraction) (expr : Expression) :
    (x.recordExpr cfg line expr).blockDefs = x.blockDefs ∧
      (x.recordExpr cfg line expr).defsByLine = x.defsByLine := by
  unfold recordExpr
  split
  · exact ⟨rfl, rfl⟩
  · exact ⟨rfl, rfl⟩

theorem recordExpr_allExpressions (x : ExpressionExtraction) (expr : Expression) :
    (x.recordExpr cfg line expr).allExpressions = x.allExpressions := by
  unfold recordExpr
  split
  · rfl
  · rfl

theorem mem_recordExpr {x : ExpressionExtraction} {expr : Expression} {line' : Nat} :
    (line', e) ∈ (x.recordExpr cfg line expr).blockExprs b ↔
      (line', e) ∈ x.blockExprs b ∨ lineToBlock cfg line = some b ∧ line' = line ∧ e = expr := by
  unfold recordExpr
  split
  · next c hc =>
    dsimp only
    by_cases hbc : b = c
    · subst hbc
      rw [Function.update_self, List.mem_append, List.mem_singleton, Prod.mk.injEq]
      simp [hc]
    · rw [Function.update_of_ne hbc]
      simp [hc, Ne.symm hbc]
  · next hc => simp [hc]

theorem recordBinop_defs (x : ExpressionExtraction) (o : BinaryOccurrence) :
    (x.recordBinop cfg o).blockDefs = x.blockDefs ∧
      (x.recordBinop cfg o).defsByLine = x.defsByLine := by
  unfold recordBinop
  split
  · exact recordExpr_defs x _
  · exact recordExpr_defs { x with allExpressions := x.allExpressions ++ [o.toExpression] } _

/-- **A binary expression is recorded** for its block under the first expression with its text. -/
theorem ExprsRecorded.recordBinop (h : x.ExprsRecorded cfg found) (o : BinaryOccurrence) :
    (x.recordBinop cfg o).ExprsRecorded cfg (found ++ [o]) := by
  unfold ExpressionExtraction.recordBinop
  split
  · next expr hexpr =>
    have hmem : expr ∈ x.allExpressions := List.mem_of_find?_eq_some hexpr
    have htext : expr.text = o.exprText := by simpa using List.find?_some hexpr
    constructor
    · rw [recordExpr_allExpressions]
      exact h.nodup
    · rw [recordExpr_allExpressions]
      intro o' ho'
      rw [List.mem_append, List.mem_singleton] at ho'
      cases ho' with
      | inl ho' => exact h.texts o' ho'
      | inr ho' => exact ⟨expr, hmem, ho' ▸ htext⟩
    · intro b line e
      rw [mem_recordExpr, h.blockExprs, recordExpr_allExpressions]
      constructor
      · rintro (⟨he, o', ho', h'⟩ | ⟨hline, rfl, rfl⟩)
        · exact ⟨he, o', List.mem_append_left _ ho', h'⟩
        · exact ⟨hmem, o, by simp, rfl, htext.symm, hline⟩
      · rintro ⟨he, o', ho', hline, htext', hb⟩
        rw [List.mem_append, List.mem_singleton] at ho'
        cases ho' with
        | inl ho' => exact .inl ⟨he, o', ho', hline, htext', hb⟩
        | inr ho' =>
          subst ho' hline
          have heq := List.inj_on_of_nodup_map h.nodup he hmem (htext'.symm.trans htext.symm)
          exact .inr ⟨hb, rfl, heq⟩
  · next hnone =>
    have hnew : ∀ e ∈ x.allExpressions, e.text ≠ o.exprText := by
      simpa using hnone
    constructor
    · rw [recordExpr_allExpressions]
      dsimp only
      rw [List.map_append, List.nodup_append]
      refine ⟨h.nodup, List.nodup_singleton _, fun text htext text' htext' => ?_⟩
      obtain ⟨e, he, rfl⟩ := List.mem_map.1 htext
      rw [List.map_singleton, List.mem_singleton] at htext'
      exact htext' ▸ hnew e he
    · rw [recordExpr_allExpressions]
      intro o' ho'
      rw [List.mem_append, List.mem_singleton] at ho'
      cases ho' with
      | inl ho' =>
        obtain ⟨e, he, htext⟩ := h.texts o' ho'
        exact ⟨e, List.mem_append_left _ he, htext⟩
      | inr ho' => exact ⟨o.toExpression, by simp, ho' ▸ rfl⟩
    · intro b line e
      rw [mem_recordExpr, recordExpr_allExpressions]
      dsimp only
      rw [h.blockExprs, List.mem_append, List.mem_singleton]
      constructor
      · rintro (⟨he, o', ho', h'⟩ | ⟨hline, rfl, rfl⟩)
        · exact ⟨.inl he, o', List.mem_append_left _ ho', h'⟩
        · exact ⟨.inr rfl, o, by simp, rfl, rfl, hline⟩
      · rintro ⟨he, o', ho', hline, htext, hb⟩
        rw [List.mem_append, List.mem_singleton] at ho'
        cases he with
        | inl he =>
          refine .inl ⟨he, o', ho'.resolve_right fun ho => ?_, hline, htext, hb⟩
          exact hnew e he (ho ▸ htext.symm)
        | inr he =>
          -- the text is new, so nothing that has been found before has it
          subst he
          have ho : o' = o := ho'.resolve_left fun ho' => by
            obtain ⟨e', he', htext'⟩ := h.texts o' ho'
            exact hnew e' he' (htext'.trans htext)
          subst ho hline
          exact .inr ⟨hb, rfl, rfl⟩

theorem recorded_foldl {defs : List (Nat × String)} (found : List BinaryOccurrence) :
    let x := found.foldl (recordBinop cfg) (defs.foldl (recordDef cfg) empty)
    x.DefsRecorded cfg defs ∧ x.ExprsRecorded cfg found := by
  induction found using List.reverseRecOn with
  | nil => exact ⟨defsRecorded_foldl cfg defs, exprsRecorded_defs cfg defs⟩
  | append_singleton found o ih =>
    obtain ⟨hdefs, hexprs⟩ := ih
    dsimp only
    rw [List.foldl_append, List.foldl_cons, List.foldl_nil]
    refine ⟨?_, hexprs.recordBinop o⟩
    have hkept := @recordBinop_defs cfg
      (found.foldl (recordBinop cfg) (defs.foldl (recordDef cfg) empty)) o
    constructor
    · rw [hkept.1]
      exact hdefs.blockDefs
    · rw [hkept.2]
      exact hdefs.defsByLine

end ExpressionExtraction

theorem exprToIndex_eq_some {text : String} (hnodup : (expressions.map (·.text)).Nodup)
    (he : expressions[idx]? = some e) : exprToIndex expressions text = some idx ↔
      e.text = text := by
  obtain ⟨hlt, rfl⟩ := List.getElem?_eq_some_iff.1 he
  unfold exprToIndex
  rw [List.findIdx?_eq_some_iff_getElem]
  constructor
  · intro h
    obtain ⟨_, htext, -⟩ := h
    exact beq_iff_eq.1 htext
  · intro htext
    refine ⟨hlt, beq_iff_eq.2 htext, fun j hj hsame => ?_⟩
    have hj' : j < (expressions.map (·.text)).length := by
      rw [List.length_map]
      omega
    have htexts : (expressions.map (·.text))[j]? = (expressions.map (·.text))[idx]? := by
      rw [List.getElem?_map, List.getElem?_map, List.getElem?_eq_getElem (hj.trans hlt),
        List.getElem?_eq_getElem hlt]
      exact congrArg some ((beq_iff_eq.1 hsame).trans htext.symm)
    exact hj.ne ((List.getElem?_inj hj' hnodup).1 htexts)

theorem genOf_subset (x : ExpressionExtraction) (block : CfgBlock) :
    genOf x block ⊆ Finset.range x.allExpressions.length := by
  intro idx hidx
  obtain ⟨f, -, hf⟩ := List.mem_filterMap.1 (List.mem_toFinset.1 hidx)
  split at hf
  · cases hf
  · exact Finset.mem_range.2 (List.findIdx?_eq_some_iff_getElem.1 hf).1

theorem mem_genOf {x : ExpressionExtraction} (hnodup : (x.allExpressions.map (·.text)).Nodup)
    (hexprs : ∀ b line e, (line, e) ∈ x.blockExprs b → e ∈ x.allExpressions)
    (he : x.allExpressions[idx]? = some e) : idx ∈ genOf x block ↔
      ∃ line, (line, e) ∈ x.blockExprs block.id ∧ killedAfter x block line e = false := by
  unfold genOf
  rw [List.mem_toFinset, List.mem_filterMap]
  constructor
  · rintro ⟨⟨line, f⟩, hmem, hf⟩
    dsimp only at hf
    split at hf
    · cases hf
    · next hkilled =>
      have htext := (exprToIndex_eq_some hnodup he).1 hf
      obtain rfl : e = f := List.inj_on_of_nodup_map hnodup (List.mem_of_getElem? he)
        (hexprs _ _ _ hmem) htext
      exact ⟨line, hmem, by simpa using hkilled⟩
  · rintro ⟨line, hmem, hkilled⟩
    refine ⟨(line, e), hmem, ?_⟩
    dsimp only
    rw [hkilled]
    exact (exprToIndex_eq_some hnodup he).2 rfl

theorem killedAfter_eq_false {x : ExpressionExtraction} :
    killedAfter x block line e = false ↔ ∀ line' v, (line', v) ∈ x.defsByLine → line < line' →
      line' ≤ block.lines.2 → v ∉ e.uses := by
  simp [killedAfter]

section Source

variable {tables : CharTables} {parsed : Parsed}

theorem recorded_extraction (tables : CharTables) (cfg : CfgInfo) (parsed : Parsed) :
    (extractExpressionsAndDefs tables cfg parsed).DefsRecorded cfg parsed.defs ∧
      (extractExpressionsAndDefs tables cfg parsed).ExprsRecorded cfg (parsed.tracked tables) :=
  ExpressionExtraction.recorded_foldl _

section

variable (hcfg : cfg.WellFormed)
  (he : (extractExpressionsAndDefs tables cfg parsed).allExpressions[idx]? = some e)
include hcfg he

/-- **What a block generates**, in terms of what has been found in the source. -/
theorem mem_gen_source :
    idx ∈ setOf cfg (genOf (extractExpressionsAndDefs tables cfg parsed)) b ↔
      GeneratesExpr tables cfg parsed e b := by
  obtain ⟨hdefs, hexprs⟩ := recorded_extraction tables cfg parsed
  have hgen : ∀ block, idx ∈ genOf (extractExpressionsAndDefs tables cfg parsed) block ↔ _ :=
    fun block => mem_genOf hexprs.nodup (fun b line e h => ((hexprs.blockExprs b line e).1 h).1) he
  have hkept : ∀ line v, (line, v) ∈ (extractExpressionsAndDefs tables cfg parsed).defsByLine ↔
      KeptDef cfg parsed line v := fun line v => hdefs.defsByLine (line, v)
  rw [mem_setOf hcfg]
  constructor
  · rintro ⟨block, hblock, rfl, hidx⟩
    obtain ⟨line, hmem, hkilled⟩ := (hgen block).1 hidx
    obtain ⟨-, o, ho, rfl, htext, hline⟩ := (hexprs.blockExprs _ _ _).1 hmem
    refine ⟨o, ho, htext, hline, fun other hother hid line v hdef hlt hle => ?_⟩
    obtain rfl : other = block := List.inj_on_of_nodup_map hcfg.nodup hother hblock hid
    exact killedAfter_eq_false.1 hkilled line v ((hkept line v).2 hdef) hlt hle
  · rintro ⟨o, ho, htext, hline, hkilled⟩
    obtain ⟨block, hblock, rfl, -⟩ := covers_of_lineToBlock hline
    refine ⟨block, hblock, rfl, (hgen block).2 ⟨o.line, ?_, killedAfter_eq_false.2 ?_⟩⟩
    · exact (hexprs.blockExprs _ _ _).2 ⟨List.mem_of_getElem? he, o, ho, rfl, htext, hline⟩
    · exact fun line v hdef => hkilled block hblock rfl line v ((hkept line v).1 hdef)

/-- **What a block kills**, in terms of what has been found in the source. -/
theorem mem_kill_source :
    idx ∈ setOf cfg (fun block =>
        killOf (extractExpressionsAndDefs tables cfg parsed).allExpressions
          ((extractExpressionsAndDefs tables cfg parsed).blockDefs block.id)) b ↔
      KillsExpr cfg parsed e b := by
  obtain ⟨hdefs, -⟩ := recorded_extraction tables cfg parsed
  rw [mem_setOf hcfg]
  constructor
  · rintro ⟨block, -, rfl, hidx⟩
    obtain ⟨v, hv, hmem⟩ := (mem_killOf he).1 hidx
    obtain ⟨d, hd, hline, rfl⟩ := (hdefs.blockDefs _ _).1 hv
    exact ⟨d, hd, hline, hmem⟩
  · rintro ⟨d, hd, hline, hmem⟩
    obtain ⟨block, hblock, rfl, -⟩ := covers_of_lineToBlock hline
    exact ⟨block, hblock, rfl, (mem_killOf he).2
      ⟨d.2, (hdefs.blockDefs _ _).2 ⟨d, hd, hline, rfl⟩, hmem⟩⟩

end

theorem GeneratesExpr.evaluates (h : GeneratesExpr tables cfg parsed e b) :
    EvaluatesExpr cfg (parsed.statements tables) e b := by
  obtain ⟨o, ho, htext, hline, -⟩ := h
  exact ⟨o.line, covers_of_lineToBlock hline, o, ho, rfl, htext⟩

theorem reportsAvailable_source (hcfg : cfg.WellFormed) :
    ReportsAvailable cfg (parsed.statements tables)
        (computeAvailableExpressions tables cfg parsed) ↔
      ∀ e ∈ (extractExpressionsAndDefs tables cfg parsed).allExpressions,
        DeliversSoundly cfg (parsed.statements tables) e (GeneratesExpr tables cfg parsed e)
          (KillsExpr cfg parsed e) :=
  reportsAvailable_iff hcfg (genOf_subset _) (fun _ _ _ he => mem_gen_source hcfg he)
    (fun _ _ _ he => mem_kill_source hcfg he) fun _ _ _ h => h.evaluates

end Source

/-! ## Expressions from references -/

section Refs

variable (cfg : CfgInfo) (refs : List VarRef)

/-- The statements that the references stand for. -/
def refStatements : Statements where
  evaluates line text :=
    (∃ e, pairExpression (refs.filter (·.refType == .use)) line = some e ∧ e.text = text) ∨
      ∃ r ∈ refs, r.refType = .use ∧ r.line = line ∧ (useExpression r).text = text
  defines line v := ∃ r ∈ refs, r.isDef ∧ r.line = line ∧ r.name = v

/-- The block is taken to end with the expression: its first line is in the block, and no operand
is defined on a later line up to the end of the block. -/
def RefsGenerate (e : Expression) (b : Nat) : Prop :=
  ∃ block ∈ cfg.blocks, block.id = b ∧ block.lines.1 ≤ e.firstLine ∧ e.firstLine ≤ block.lines.2 ∧
    ∀ r ∈ refs, r.isDef → e.firstLine < r.line → r.line ≤ block.lines.2 → r.name ∉ e.uses

/-- The block is taken to redefine an operand of the expression. -/
def RefsKill (e : Expression) (b : Nat) : Prop :=
  ∃ r ∈ refs, r.isDef ∧ lineToBlock cfg r.line = some b ∧ r.name ∈ e.uses

variable {cfg} {refs} {ord : HashOrder} {lineOrd : Nat → HashOrder} {found : List Expression}

theorem mem_foldl_addExpression (h : e ∈ found.foldl addExpression expressions) :
    e ∈ expressions ∨ e ∈ found := by
  induction found generalizing expressions with
  | nil => exact .inl h
  | cons f found ih =>
    rw [List.foldl_cons] at h
    cases ih h with
    | inl h =>
      unfold addExpression at h
      split at h
      · exact .inl h
      · rw [List.mem_append, List.mem_singleton] at h
        exact h.imp_right fun he => List.mem_cons.2 (.inl he)
    | inr h => exact .inr (List.mem_cons_of_mem _ h)

theorem pairExpression_blockUses {r : VarRef} (hr : r ∈ refBlockUses cfg refs b) :
    pairExpression (refBlockUses cfg refs b) r.line =
      pairExpression (refs.filter (·.refType == .use)) r.line := by
  have hline : lineToBlock cfg r.line = some b := by
    simpa using (Bool.and_eq_true_iff.1 (List.mem_filter.1 hr).2).2
  have hsame : (refBlockUses cfg refs b).filter (·.line == r.line) =
      (refs.filter (·.refType == .use)).filter (·.line == r.line) := by
    unfold refBlockUses
    rw [List.filter_filter, List.filter_filter]
    refine List.filter_congr fun s _ => ?_
    cases hs : s.line == r.line with
    | false => rfl
    | true => simp [beq_iff_eq.1 hs, hline]
  unfold pairExpression
  rw [hsame]

theorem pairExpression_firstLine {uses : List VarRef} (h : pairExpression uses line = some e) :
    e.firstLine = line := by
  unfold pairExpression at h
  dsimp only at h
  split at h
  · cases h
    rfl
  · cases h

theorem mem_blockExpressions (h : e ∈ blockExpressions lineOrd cfg refs expressions b) :
    e ∈ expressions ∨ (refStatements refs).evaluates e.firstLine e.text := by
  unfold blockExpressions at h
  dsimp only at h
  rw [← List.foldl_map] at h
  cases mem_foldl_addExpression h with
  | inl h =>
    refine (mem_foldl_addExpression h).imp_right fun h => .inl ?_
    obtain ⟨line, hline, he⟩ := List.mem_filterMap.1 h
    rw [HashOrder.mem_order, List.mem_dedup] at hline
    obtain ⟨r, hr, rfl⟩ := List.mem_map.1 hline
    rw [pairExpression_blockUses hr] at he
    exact ⟨e, pairExpression_firstLine he ▸ he, rfl⟩
  | inr h =>
    obtain ⟨r, hr, rfl⟩ := List.mem_map.1 h
    obtain ⟨hmem, huse⟩ := List.mem_filter.1 hr
    have huse' : r.refType = .use := by simpa using (Bool.and_eq_true_iff.1 huse).1
    exact .inr (.inr ⟨r, hmem, huse', rfl, rfl⟩)

theorem evaluates_of_mem_refExpressions (h : e ∈ refExpressions ord lineOrd cfg refs) :
    (refStatements refs).evaluates e.firstLine e.text := by
  unfold refExpressions at h
  dsimp only at h
  have key : ∀ blocks : List Nat, e ∈ blocks.foldl (blockExpressions lineOrd cfg refs) [] →
      (refStatements refs).evaluates e.firstLine e.text := by
    intro blocks
    induction blocks using List.reverseRecOn with
    | nil => exact fun h => absurd h List.not_mem_nil
    | append_singleton blocks b ih =>
      intro h
      rw [List.foldl_append, List.foldl_cons, List.foldl_nil] at h
      exact (mem_blockExpressions h).elim ih id
  exact key _ h

theorem refGenOf_subset (block : CfgBlock) :
    refGenOf refs expressions block ⊆ Finset.range expressions.length := Finset.filter_subset _ _

/-- **What a block generates**, in terms of the references. -/
theorem mem_gen_refs (hcfg : cfg.WellFormed) (he : expressions[idx]? = some e) :
    idx ∈ setOf cfg (refGenOf refs expressions) b ↔ RefsGenerate cfg refs e b := by
  obtain ⟨hlt, rfl⟩ := List.getElem?_eq_some_iff.1 he
  rw [mem_setOf hcfg]
  refine exists_congr fun block => and_congr_right fun _ => and_congr_right fun _ => ?_
  simp only [refGenOf, Finset.mem_filter, Finset.mem_range, hlt, he, Option.any_some, true_and,
    Bool.and_eq_true, decide_eq_true_eq, Bool.not_eq_true', List.any_eq_false, and_assoc]
  refine and_congr_right fun _ => and_congr_right fun _ => forall₂_congr fun r _ => ?_
  rw [List.contains_iff_mem]
  exact ⟨fun h hdef hlt hle hmem => h ⟨hlt, hle, hdef, hmem⟩,
    fun h ⟨hlt, hle, hdef, hmem⟩ => h hdef hlt hle hmem⟩

/-- **What a block kills**, in terms of the references. -/
theorem mem_kill_refs (hcfg : cfg.WellFormed) (he : expressions[idx]? = some e) :
    idx ∈ setOf cfg (fun block => killOf expressions (refBlockDefs cfg refs block.id)) b ↔
      RefsKill cfg refs e b := by
  have hdefs : ∀ b v, v ∈ refBlockDefs cfg refs b ↔
      ∃ r ∈ refs, (r.isDef ∧ lineToBlock cfg r.line = some b) ∧ r.name = v := by
    simp [refBlockDefs, and_assoc]
  rw [mem_setOf hcfg]
  constructor
  · rintro ⟨block, -, rfl, hidx⟩
    obtain ⟨v, hv, hmem⟩ := (mem_killOf he).1 hidx
    obtain ⟨r, hr, ⟨hdef, hline⟩, rfl⟩ := (hdefs _ _).1 hv
    exact ⟨r, hr, hdef, hline, hmem⟩
  · rintro ⟨r, hr, hdef, hline, hmem⟩
    obtain ⟨block, hblock, rfl, -⟩ := covers_of_lineToBlock hline
    exact ⟨block, hblock, rfl, (mem_killOf he).2
      ⟨r.name, (hdefs _ _).2 ⟨r, hr, ⟨hdef, hline⟩, rfl⟩, hmem⟩⟩

theorem reportsAvailable_refs (hcfg : cfg.WellFormed) :
    ReportsAvailable cfg (refStatements refs)
        (computeAvailableExpressionsFromRefs ord lineOrd cfg refs) ↔
      ∀ e ∈ refExpressions ord lineOrd cfg refs,
        DeliversSoundly cfg (refStatements refs) e (RefsGenerate cfg refs e)
          (RefsKill cfg refs e) := by
  refine reportsAvailable_iff hcfg refGenOf_subset (fun _ _ _ he => mem_gen_refs hcfg he)
    (fun _ _ _ he => mem_kill_refs hcfg he) ?_
  rintro e he b ⟨block, hblock, hid, hfrom, hto, -⟩
  exact ⟨e.firstLine, ⟨block, hblock, hid, hfrom, hto⟩, evaluates_of_mem_refExpressions he⟩

end Refs

/-- **The expressions reported for the blocks are available there** exactly if every expression that
is found is delivered soundly, for both functions. -/
theorem availableExpressions_sound_iff (tables : CharTables) (ord : HashOrder)
    (lineOrd : Nat → HashOrder) (cfg : CfgInfo) (parsed : Parsed) (refs : List VarRef)
    (hcfg : cfg.WellFormed) :
    (ReportsAvailable cfg (parsed.statements tables)
        (computeAvailableExpressions tables cfg parsed) ↔
      ∀ e ∈ (extractExpressionsAndDefs tables cfg parsed).allExpressions,
        DeliversSoundly cfg (parsed.statements tables) e (GeneratesExpr tables cfg parsed e)
          (KillsExpr cfg parsed e)) ∧
    (ReportsAvailable cfg (refStatements refs)
        (computeAvailableExpressionsFromRefs ord lineOrd cfg refs) ↔
      ∀ e ∈ refExpressions ord lineOrd cfg refs,
        DeliversSoundly cfg (refStatements refs) e (RefsGenerate cfg refs e)
          (RefsKill cfg refs e)) :=
  ⟨reportsAvailable_source hcfg, reportsAvailable_refs hcfg⟩

/-- `a = a + b`, and a second block. -/
def selfAddCfg : CfgInfo where
  function := "accumulate"
  blocks := [⟨0, 1, 1⟩, ⟨1, 2, 2⟩]
  edges := [⟨0, 1⟩]
  entryBlock := 0
  exitBlocks := [1]

def selfAddParsed : Parsed := .ast ⟨[(1, "a")], [⟨1, "a", "+", "b"⟩]⟩

theorem selfAddCfg_wellFormed : selfAddCfg.WellFormed :=
  ⟨by decide, by decide, by decide, by decide⟩

theorem availableExpressions_sound_iff_selfAdd :
    (ReportsAvailable selfAddCfg (selfAddParsed.statements .ascii)
        (computeAvailableExpressions .ascii selfAddCfg selfAddParsed) ↔
      ∀ e ∈ (extractExpressionsAndDefs .ascii selfAddCfg selfAddParsed).allExpressions,
        DeliversSoundly selfAddCfg (selfAddParsed.statements .ascii) e
          (GeneratesExpr .ascii selfAddCfg selfAddParsed e)
          (KillsExpr selfAddCfg selfAddParsed e)) ∧
    (ReportsAvailable selfAddCfg (refStatements [])
        (computeAvailableExpressionsFromRefs .insertion (fun _ => .insertion) selfAddCfg []) ↔
      ∀ e ∈ refExpressions .insertion (fun _ => .insertion) selfAddCfg [],
        DeliversSoundly selfAddCfg (refStatements []) e (RefsGenerate selfAddCfg [] e)
          (RefsKill selfAddCfg [] e)) :=
  availableExpressions_sound_iff .ascii .insertion (fun _ => .insertion) selfAddCfg selfAddParsed []
    selfAddCfg_wellFormed

/-- `a + b` is reported for the second block, although the statement that evaluates it redefines
`a`. -/
theorem selfAdd_not_available : ¬ ∀ (tables : CharTables) (cfg : CfgInfo) (parsed : Parsed),
    cfg.WellFormed → ReportsAvailable cfg (parsed.statements tables)
      (computeAvailableExpressions tables cfg parsed) := by
  intro h
  have hrun : ((computeAvailableExpressions .ascii selfAddCfg selfAddParsed).blocks 1).map
      (·.inSet) = some {0} := by decide +kernel
  have hexprs : (computeAvailableExpressions .ascii selfAddCfg selfAddParsed).expressions =
      [⟨"a + b", ["a", "b"], 1⟩] := by decide +kernel
  obtain ⟨sets, hsets, hin⟩ := Option.map_eq_some_iff.1 hrun
  obtain ⟨e, he, havail⟩ := h .ascii selfAddCfg selfAddParsed selfAddCfg_wellFormed 1 sets hsets 0
    (by rw [hin]; exact Finset.mem_singleton_self 0)
  rw [hexprs] at he
  obtain rfl := Option.some.inj he
  have hedge : selfAddCfg.Edge 0 1 := ⟨⟨0, 1⟩, by decide, rfl, rfl⟩
  have hpath : Walk selfAddCfg.Edge 0 1 ([0] ++ [1]) := (Walk.single 0).concat hedge
  have hsurvives := havail [0] hpath
  rw [← List.nil_append [0], survives_concat] at hsurvives
  obtain ⟨line, ⟨block, hblock, hid, hline⟩, -, hlast⟩ :=
    hsurvives.resolve_right fun hnil => not_survives_nil hnil.1
  have hcovers : Covers selfAddCfg 0 1 := ⟨⟨0, 1, 1⟩, by decide, rfl, by decide, by decide⟩
  have hle : line ≤ 1 := by
    have hblocks : ∀ block ∈ selfAddCfg.blocks, block.id = 0 → block.lines.2 ≤ 1 := by decide
    exact hline.2.trans (hblocks block hblock hid)
  exact hlast 1 "a" hle hcovers (List.mem_singleton_self _) (by decide)

end TldrCode.Ssa
