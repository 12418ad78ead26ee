import TldrCode.Dataflow.Available
import TldrCode.Graph.MustPath

/-!
# Evaluations and redefinitions

What an extraction says about a function: the blocks that evaluate an expression, and the lines on
which a variable is redefined. `ExtractionResult.Records` holds of every extraction
(`extractExpressionsFullWithLang_records`): its sets and lists are about the same expressions, each
in the block of its line, and its definitions are those of the references.
-/

namespace TldrCode.Dataflow

open Function (update)
open TldrCode.Graph

/-! ## Events -/

section Events

variable (cfg : CfgInfo) (dfg : DfgInfo) (instances : List ExprInstance) (text : String)
  (operands : List String) (b : Nat)

/-- An operand is defined on a line of the block. -/
def RedefinedAt (line : Nat) : Prop :=
  ∃ r ∈ dfg.refs, r.isDef ∧ r.name ∈ operands ∧ r.line = line ∧ findBlockForLine cfg line = some b

def Redefines : Prop := ∃ line, RedefinedAt cfg dfg operands b line

/-- The block evaluates the expression on a line. -/
def EvaluatedAt (line : Nat) : Prop :=
  ∃ i ∈ instances, i.blockId = b ∧ i.expr.text = text ∧ i.expr.line = line

def Evaluates : Prop := ∃ line, EvaluatedAt instances text b line

/-- The block evaluates the expression and redefines no operand after that. A statement evaluates
its expressions before it defines its variable. -/
def EvaluatesLast : Prop :=
  ∃ line, EvaluatedAt instances text b line ∧
    ∀ later, line ≤ later → ¬ RedefinedAt cfg dfg operands b later

/-- On every path from the entry up to `b` the expression is evaluated, and no operand is redefined
after the last evaluation. -/
def AvailableAt : Prop :=
  SurvivesAll cfg.Edge (fun c => EvaluatesLast cfg dfg instances text operands c)
    (fun c => Redefines cfg dfg operands c) cfg.entryBlock b

end Events

variable {cfg : CfgInfo} {dfg : DfgInfo} {instances : List ExprInstance} {text : String}
  {operands : List String} {b block line : Nat} {expr : Expression}

theorem redefines_of_not_last (h : Evaluates instances text b)
    (hlast : ¬ EvaluatesLast cfg dfg instances text operands b) :
    Redefines cfg dfg operands b := by
  obtain ⟨line, hline⟩ := h
  by_contra hnot
  exact hlast ⟨line, hline, fun later _ hlater => hnot ⟨later, hlater⟩⟩

theorem closestBlock_mem {line : Nat} {blocks : List CfgBlock} {block : CfgBlock}
    (h : closestBlock line blocks = some block) : block ∈ blocks := by
  induction blocks generalizing block with
  | nil => cases h
  | cons x blocks ih =>
    unfold closestBlock at h
    split at h
    · next other hother =>
      split at h
      · cases h
        exact List.mem_cons_of_mem _ (ih hother)
      · cases h
        exact List.mem_cons_self
    · cases h
      exact List.mem_cons_self

theorem findBlockForLine_mem (h : findBlockForLine cfg line = some b) : b ∈ cfg.blockIds := by
  unfold findBlockForLine at h
  split at h
  · next block hblock =>
    cases h
    exact List.mem_map_of_mem (List.mem_of_find?_eq_some hblock)
  · obtain ⟨block, hblock, rfl⟩ := Option.map_eq_some_iff.1 h
    exact List.mem_map_of_mem (closestBlock_mem hblock)

/-! ## What is recorded -/

namespace ExtractionResult

/-- `gen` of a block. -/
def genOf (result : ExtractionResult) (b : Nat) : ExprSet :=
  ((result.blockInfo b).map (·.gen)).getD .empty

/-- `kill` of a block. -/
def killOf (result : ExtractionResult) (b : Nat) : List String :=
  ((result.blockInfo b).map (·.kill)).getD []

/-- The sets and lists are about the same expressions, each in the block of its line. -/
structure Records (cfg : CfgInfo) (dfg : DfgInfo) (result : ExtractionResult) : Prop where
  placed : ∀ i ∈ result.exprInstancesWithBlocks, findBlockForLine cfg i.expr.line = some i.blockId
  isSome : ∀ b ∈ cfg.blockIds, (result.blockInfo b).isSome
  gen : ∀ b text, (result.genOf b).has text ↔ Evaluates result.exprInstancesWithBlocks text b
  gen_mem : ∀ b, ∀ e ∈ (result.genOf b).exprs, ∃ i ∈ result.exprInstancesWithBlocks, i.expr = e
  kill : ∀ b operands, (∃ v ∈ operands, v ∈ result.killOf b) ↔ Redefines cfg dfg operands b
  all : ∀ b text, Evaluates result.exprInstancesWithBlocks text b → result.allExprs.has text
  all_mem : ∀ e ∈ result.allExprs.exprs, ∃ i ∈ result.exprInstancesWithBlocks, i.expr = e
  instances : result.exprInstances = [] ↔ result.exprInstancesWithBlocks = []
  defs : ∀ line v, v ∈ result.defsPerLine line ↔ ∃ r ∈ dfg.refs,
      r.isDef ∧ r.line = line ∧ r.name = v

theorem start_genOf : (start cfg dfg).genOf b = .empty := by
  unfold genOf start
  dsimp only
  split <;> rfl

theorem start_records (cfg : CfgInfo) (dfg : DfgInfo) : (start cfg dfg).Records cfg dfg where
  placed i hi := absurd hi (List.not_mem_nil)
  isSome b hb := by simp [start, hb]
  gen b text := by
    have hnone : ¬ Evaluates (start cfg dfg).exprInstancesWithBlocks text b := by
      rintro ⟨line, i, hi, -⟩
      exact absurd hi List.not_mem_nil
    rw [start_genOf, ExprSet.has_empty]
    simpa using hnone
  gen_mem b e he := by
    rw [start_genOf] at he
    exact absurd he ExprSet.mem_empty
  kill b operands := by
    unfold killOf start Redefines RedefinedAt
    dsimp only
    split
    · simp only [Option.map_some, Option.getD_some, List.mem_map, List.mem_filter,
        Bool.and_eq_true, beq_iff_eq]
      constructor
      · rintro ⟨v, hv, r, ⟨hr, hdef, hline⟩, rfl⟩
        exact ⟨r.line, r, hr, hdef, hv, rfl, hline⟩
      · rintro ⟨line, r, hr, hdef, hv, rfl, hline⟩
        exact ⟨r.name, hv, r, ⟨hr, hdef, hline⟩, rfl⟩
    · next hb =>
      constructor
      · rintro ⟨v, -, hv⟩
        exact absurd hv List.not_mem_nil
      · rintro ⟨line, r, -, -, -, -, hline⟩
        exact absurd (findBlockForLine_mem hline) hb
  all b text h := by
    obtain ⟨line, i, hi, -⟩ := h
    exact absurd hi List.not_mem_nil
  all_mem e he := absurd he ExprSet.mem_empty
  instances := by simp [start]
  defs line v := by simp [start, and_assoc]

variable {result : ExtractionResult}

theorem record_blockInfo : (result.record expr block).blockInfo b =
    if b = block then (result.blockInfo b).map fun info => { info with gen := info.gen.add expr }
    else result.blockInfo b := by
  unfold record
  dsimp only
  rw [Function.update_apply]
  split
  · next h => rw [h]
  · rfl

theorem record_genOf (h : (result.blockInfo block).isSome) :
    (result.record expr block).genOf b =
      if b = block then (result.genOf b).add expr else result.genOf b := by
  obtain ⟨info, hinfo⟩ := Option.isSome_iff_exists.1 h
  unfold genOf
  rw [record_blockInfo]
  split
  · next hb => rw [hb, hinfo]; rfl
  · rfl

theorem record_killOf : (result.record expr block).killOf b = result.killOf b := by
  unfold killOf
  rw [record_blockInfo]
  split
  · rw [Option.map_map]; rfl
  · rfl

theorem record_evaluates : Evaluates (result.record expr block).exprInstancesWithBlocks text b ↔
    Evaluates result.exprInstancesWithBlocks text b ∨ block = b ∧ expr.text = text := by
  simp only [Evaluates, EvaluatedAt, record, List.mem_append, List.mem_singleton]
  constructor
  · rintro ⟨line, i, hi | rfl, hb, ht, hl⟩
    · exact .inl ⟨line, i, hi, hb, ht, hl⟩
    · exact .inr ⟨hb, ht⟩
  · rintro (⟨line, i, hi, h⟩ | ⟨rfl, rfl⟩)
    · exact ⟨line, i, .inl hi, h⟩
    · exact ⟨expr.line, ⟨expr, block⟩, .inr rfl, rfl, rfl, rfl⟩

theorem record_mem {i : ExprInstance} : i ∈ (result.record expr block).exprInstancesWithBlocks ↔
    i ∈ result.exprInstancesWithBlocks ∨ i = ⟨expr, block⟩ := by
  simp [record]

theorem Records.record (h : result.Records cfg dfg)
    (hblock : findBlockForLine cfg expr.line = some block) :
    (result.record expr block).Records cfg dfg := by
  have hsome := h.isSome block (findBlockForLine_mem hblock)
  constructor
  case placed =>
    intro i hi
    cases record_mem.1 hi with
    | inl hi => exact h.placed i hi
    | inr hi => rw [hi]; exact hblock
  case isSome =>
    intro b hb
    rw [record_blockInfo]
    split
    · rw [Option.isSome_map]; exact h.isSome b hb
    · exact h.isSome b hb
  case gen =>
    intro b text
    rw [record_genOf hsome, record_evaluates, ← h.gen]
    split
    · next hb => simp [hb]
    · next hb => simp [Ne.symm hb]
  case gen_mem =>
    intro b e he
    rw [record_genOf hsome] at he
    split at he
    · cases ExprSet.mem_add he with
      | inl he =>
        obtain ⟨i, hi, rfl⟩ := h.gen_mem b e he
        exact ⟨i, record_mem.2 (.inl hi), rfl⟩
      | inr he => exact ⟨⟨expr, block⟩, record_mem.2 (.inr rfl), he.symm⟩
    · obtain ⟨i, hi, rfl⟩ := h.gen_mem b e he
      exact ⟨i, record_mem.2 (.inl hi), rfl⟩
  case kill =>
    intro b operands
    rw [record_killOf]
    exact h.kill b operands
  case all =>
    intro b text hb
    show (result.allExprs.add expr).has text
    rw [ExprSet.has_add, Bool.or_eq_true, beq_iff_eq]
    exact (record_evaluates.1 hb).imp (h.all b text) And.right
  case all_mem =>
    intro e he
    cases ExprSet.mem_add he with
    | inl he =>
      obtain ⟨i, hi, rfl⟩ := h.all_mem e he
      exact ⟨i, record_mem.2 (.inl hi), rfl⟩
    | inr he => exact ⟨⟨expr, block⟩, record_mem.2 (.inr rfl), he.symm⟩
  case instances => simp [ExtractionResult.record]
  case defs => exact h.defs

theorem Records.recordAt (h : result.Records cfg dfg) :
    (result.recordAt cfg expr).Records cfg dfg := by
  unfold ExtractionResult.recordAt
  split
  · next block hblock => exact h.record hblock
  · exact h

theorem Records.sorted (h : result.Records cfg dfg) : result.sorted.Records cfg dfg := by
  have hmem : ∀ i, i ∈ result.sorted.exprInstancesWithBlocks ↔
      i ∈ result.exprInstancesWithBlocks :=
    fun i => (List.perm_insertionSort _ _).mem_iff
  have hevaluates : ∀ text b, Evaluates result.sorted.exprInstancesWithBlocks text b ↔
      Evaluates result.exprInstancesWithBlocks text b := by
    intro text b
    simp only [Evaluates, EvaluatedAt, hmem]
  constructor
  case placed => exact fun i hi => h.placed i ((hmem i).1 hi)
  case isSome => exact h.isSome
  case gen => exact fun b text => (h.gen b text).trans (hevaluates text b).symm
  case gen_mem => exact fun b e he => by simpa only [hmem] using h.gen_mem b e he
  case kill => exact h.kill
  case all => exact fun b text hb => h.all b text ((hevaluates text b).1 hb)
  case all_mem => exact fun e he => by simpa only [hmem] using h.all_mem e he
  case instances =>
    unfold ExtractionResult.sorted
    rw [← List.length_eq_zero_iff, ← List.length_eq_zero_iff, List.length_insertionSort,
      List.length_insertionSort, List.length_eq_zero_iff, List.length_eq_zero_iff]
    exact h.instances
  case defs => exact h.defs

end ExtractionResult

/-! ## Extraction -/

section Extraction

variable {ord : HashOrder} {tables : CharTables} {result result' : ExtractionResult}

theorem extractLine_records {lineNum : Nat} {line : List Char} (h : result.Records cfg dfg)
    (hr : extractLine tables cfg dfg result lineNum line = some result') :
    result'.Records cfg dfg := by
  unfold extractLine at hr
  obtain ⟨parsed, -, hr⟩ := Option.bind_eq_some_iff.1 hr
  cases parsed with
  | some parsed =>
    obtain ⟨left, op, right⟩ := parsed
    dsimp only at hr
    split at hr
    · cases hr; exact h.recordAt
    · cases hr; exact h
  | none =>
    dsimp only at hr
    split at hr
    · cases hr; exact { h with }
    · cases hr; exact h

theorem extractLines_records {lines : List String} {skipped : List Nat}
    (h : result.Records cfg dfg)
    (hr : extractLines tables cfg dfg lines skipped result = some result') :
    result'.Records cfg dfg := by
  unfold extractLines at hr
  generalize lines.zipIdx 1 = numbered at hr
  induction numbered generalizing result with
  | nil =>
    cases hr
    exact h
  | cons line rest ih =>
    rw [List.foldlM_cons] at hr
    obtain ⟨next, hnext, hr⟩ := Option.bind_eq_some_iff.1 hr
    refine ih ?_ hr
    split at hnext
    · cases hnext; exact h
    · exact extractLine_records h hnext

theorem guessExpression_line {line : Nat}
    (h : guessExpression tables cfg dfg block line = some expr) :
    expr.line = line ∧ findBlockForLine cfg line = some block := by
  unfold guessExpression at h
  dsimp only at h
  split at h
  · next hany =>
    obtain ⟨r, hr, -⟩ := List.any_eq_true.1 hany
    obtain ⟨hblock, hline⟩ := Bool.and_eq_true_iff.1 (List.mem_filter.1 hr).2
    split at h
    · rw [← Option.some.inj h]
      exact ⟨rfl, beq_iff_eq.1 hline ▸ beq_iff_eq.1 hblock⟩
    · cases h
  · cases h

theorem extractRefs_records (h : result.Records cfg dfg) :
    (extractRefs ord tables cfg dfg result).Records cfg dfg := by
  unfold extractRefs
  dsimp only
  induction ord.order _ generalizing result with
  | nil => exact h
  | cons group groups ih =>
    rw [List.foldl_cons]
    apply ih
    split
    · next expr hexpr =>
      obtain ⟨hline, hblock⟩ := guessExpression_line hexpr
      exact h.record (hline ▸ hblock)
    · exact h

theorem extractTree_records {tree : SyntaxTree} (h : result.Records cfg dfg) :
    (extractTree cfg tree result).Records cfg dfg := by
  unfold extractTree
  dsimp only
  induction tree.binaryExprs _ _ generalizing result with
  | nil => exact h
  | cons found rest ih =>
    rw [List.foldl_cons]
    apply ih
    split
    · exact h
    · exact h.recordAt

/-- **Every extraction records consistently.** -/
theorem extractExpressionsFullWithLang_records {sourceLines : Option (List String)}
    {tree : Option SyntaxTree}
    (hr : extractExpressionsFullWithLang ord tables cfg dfg sourceLines tree = some result) :
    result.Records cfg dfg := by
  unfold extractExpressionsFullWithLang at hr
  obtain ⟨found, hfound, rfl⟩ := Option.map_eq_some_iff.1 hr
  have hstart := ExtractionResult.start_records cfg dfg
  have hrecords : found.Records cfg dfg := by
    cases sourceLines with
    | some lines => exact extractLines_records hstart hfound
    | none =>
      rw [← Option.some.inj hfound]
      exact extractRefs_records hstart
  refine ExtractionResult.Records.sorted ?_
  split
  · exact extractTree_records hrecords
  · exact hrecords

end Extraction

end TldrCode.Dataflow
