import Mathlib.Data.List.Dedup
import Mathlib.Order.Bounds.Basic
import TldrCode.Dataflow.AvailableSound

/-!
# Redundant computations

`AvailableExprsInfo::redundant_computations` goes through the evaluations by block number and line
and compares each with the first one of its text. It never asks whether that one is available:
the paths between the two do not matter to it, and neither do the definitions on the line of the
first evaluation. `redundantComputations_sound_iff` says when its reports are right all the same.
-/

namespace TldrCode.Dataflow

open Function (update)
open TldrCode.Graph

/-! ## The scan -/

/-- `first_seen`, `gen_in_block` and the reports. -/
structure Scan where
  firstSeen : String → Option (Nat × Nat)
  genInBlock : String → Option Nat
  redundant : List (String × Nat × Nat)

section Scan

variable (info : AvailableExprsInfo)

/-- Some line of `start..line` defines an operand. -/
def killedBetween (expr : Expression) (start line : Nat) : Bool :=
  (List.range' start (line - start)).any fun checkLine =>
    expr.operands.any (· ∈ info.defsPerLine checkLine)

/-- The report about an evaluation, given the first line and block of its expression and its first
line in the block. -/
def reportOf (block : Nat) (firstSeen : Option (Nat × Nat)) (genInBlock : Option Nat)
    (expr : Expression) : Option (String × Nat × Nat) :=
  let line := expr.line
  let notKilled := firstSeen.filter fun (firstLine, firstBlock) =>
    let startLine := if firstBlock = block then firstLine + 1 else 1
    !killedBetween info expr startLine line && firstLine != line
  match notKilled, genInBlock with
  | some (firstLine, _), _ => some (expr.text, firstLine, line)
  | none, some genLine =>
    if !killedBetween info expr (genLine + 1) line && genLine != line then
      let firstLine := (firstSeen.map (·.1)).getD genLine
      if firstLine ≠ line then some (expr.text, firstLine, line) else none
    else none
  | none, none => none

def scanInstance (block : Nat) (scan : Scan) (inst : ExprInstance) : Scan :=
  let expr := inst.expr
  let firstSeen := scan.firstSeen expr.text
  let genInBlock := scan.genInBlock expr.text
  { firstSeen := update scan.firstSeen expr.text (firstSeen.or (some (expr.line, block)))
    genInBlock := update scan.genInBlock expr.text (genInBlock.or (some expr.line))
    redundant := scan.redundant ++ (reportOf info block firstSeen genInBlock expr).toList }

def blockExprs (block : Nat) : List ExprInstance :=
  (info.exprInstancesWithBlocks.filter (·.blockId == block)).insertionSort fun i j =>
    i.expr.line ≤ j.expr.line

def scanBlock (scan : Scan) (block : Nat) : Scan :=
  (blockExprs info block).foldl (scanInstance info block)
    { scan with genInBlock := fun _ => none }

def scannedBlocks : List Nat :=
  (info.exprInstancesWithBlocks.map (·.blockId)).dedup.insertionSort (· ≤ ·)

/-- Without blocks: every expression that has been seen. -/
def seenAgain : List Expression → (String → Option Nat) → List (String × Nat × Nat)
  | [], _ => []
  | expr :: exprs, seen => match seen expr.text with
    | some firstLine => (expr.text, firstLine, expr.line) :: seenAgain exprs seen
    | none => seenAgain exprs (update seen expr.text (some expr.line))

def redundantComputations : List (String × Nat × Nat) :=
  let redundant :=
    if !info.exprInstancesWithBlocks.isEmpty then
      ((scannedBlocks info).foldl (scanBlock info) ⟨fun _ => none, fun _ => none, []⟩).redundant
    else seenAgain info.exprInstances fun _ => none
  redundant.insertionSort fun i j => i.2.2 ≤ j.2.2

end Scan

variable {info : AvailableExprsInfo} {cfg : CfgInfo} {dfg : DfgInfo} {text : String}
  {block b line : Nat} {expr : Expression} {scan : Scan} {done l : List ExprInstance}
  {report : String × Nat × Nat} {l₁ l₂ : List ExprInstance}

/-! ## What the scan reports -/

/-- The line and block of the first evaluation in a list. -/
def firstOf (l : List ExprInstance) (text : String) : Option (Nat × Nat) :=
  (l.find? (·.expr.text == text)).map fun i => (i.expr.line, i.blockId)

theorem firstOf_append : firstOf (done ++ l) text = (firstOf done text).or (firstOf l text) := by
  unfold firstOf
  rw [List.find?_append]
  cases done.find? (·.expr.text == text) <;> rfl

theorem firstOf_singleton {i : ExprInstance} :
    firstOf [i] text = if i.expr.text = text then some (i.expr.line, i.blockId) else none := by
  unfold firstOf
  by_cases h : i.expr.text = text <;> simp [h]

theorem update_or_firstOf {σ : Type} {f : String → Option σ} {i : ExprInstance}
    {g : Nat × Nat → σ}
    (hf : ∀ text, f text = (firstOf done text).map g) :
    update f i.expr.text ((f i.expr.text).or (some (g (i.expr.line, i.blockId)))) text =
      (firstOf (done ++ [i]) text).map g := by
  rw [firstOf_append, firstOf_singleton, Function.update_apply]
  split
  · next h =>
    rw [h, if_pos rfl, hf]
    cases firstOf done i.expr.text <;> rfl
  · next h => rw [if_neg (Ne.symm h), hf, Option.or_none]

/-- An evaluation of the list is reported, after `done`. -/
def ReportedIn (info : AvailableExprsInfo) (block : Nat) (done l : List ExprInstance)
    (report : String × Nat × Nat) : Prop :=
  ∃ l₁ i l₂, l = l₁ ++ i :: l₂ ∧ reportOf info block (firstOf (done ++ l₁) i.expr.text)
    ((firstOf l₁ i.expr.text).map (·.1)) i.expr = some report

theorem reportedIn_concat {i : ExprInstance} : ReportedIn info block done (l ++ [i]) report ↔
    ReportedIn info block done l report ∨
      reportOf info block (firstOf (done ++ l) i.expr.text) ((firstOf l i.expr.text).map (·.1))
        i.expr = some report := by
  constructor
  · rintro ⟨l₁, j, l₂, h, hreport⟩
    cases concat_eq_append_cons.1 h with
    | inl h =>
      obtain ⟨rfl, rfl, rfl⟩ := h
      exact .inr hreport
    | inr h =>
      obtain ⟨l₂, rfl, rfl⟩ := h
      exact .inl ⟨l₁, j, l₂, rfl, hreport⟩
  · intro h
    cases h with
    | inl h =>
      obtain ⟨l₁, j, l₂, rfl, hreport⟩ := h
      exact ⟨l₁, j, l₂ ++ [i], by simp, hreport⟩
    | inr h => exact ⟨l, i, [], rfl, h⟩

/-- **One block of the scan.** -/
theorem scanInstance_foldl (info : AvailableExprsInfo)
    (hfirst : ∀ text, scan.firstSeen text = firstOf done text)
    (hgen : ∀ text, scan.genInBlock text = none) (hl : ∀ i ∈ l, i.blockId = block) :
    (∀ text, (l.foldl (scanInstance info block) scan).firstSeen text = firstOf (done ++ l) text) ∧
    (∀ text, (l.foldl (scanInstance info block) scan).genInBlock text =
      (firstOf l text).map (·.1)) ∧
    ∀ report, report ∈ (l.foldl (scanInstance info block) scan).redundant ↔
      report ∈ scan.redundant ∨ ReportedIn info block done l report := by
  induction l using List.reverseRecOn with
  | nil =>
    refine ⟨fun text => by rw [List.append_nil]; exact hfirst text, hgen, fun report => ?_⟩
    rw [List.foldl_nil, or_iff_left]
    rintro ⟨l₁, i, l₂, h, -⟩
    simp at h
  | append_singleton l i ih =>
    obtain ⟨ih₁, ih₂, ih₃⟩ := ih fun j hj => hl j (List.mem_append_left _ hj)
    obtain rfl := hl i (by simp)
    rw [List.foldl_concat]
    refine ⟨fun text => ?_, fun text => update_or_firstOf ih₂, fun report => ?_⟩
    · have h₁ : ∀ text, (l.foldl (scanInstance info i.blockId) scan).firstSeen text =
          (firstOf (done ++ l) text).map fun x => x := by simpa using ih₁
      rw [← List.append_assoc]
      exact (update_or_firstOf h₁).trans (congrFun Option.map_id _)
    · rw [scanInstance]
      dsimp only
      rw [List.mem_append, ih₃, reportedIn_concat, Option.mem_toList, ih₁, ih₂, or_assoc]

/-- **The blocks of the scan.** -/
theorem scanBlock_foldl (info : AvailableExprsInfo) (blocks : List Nat)
    (hfirst : ∀ text, scan.firstSeen text = none) :
    (∀ text, (blocks.foldl (scanBlock info) scan).firstSeen text =
      firstOf (blocks.flatMap (blockExprs info)) text) ∧
    ∀ report, report ∈ (blocks.foldl (scanBlock info) scan).redundant ↔
      report ∈ scan.redundant ∨ ∃ before block after, blocks = before ++ block :: after ∧
        ReportedIn info block (before.flatMap (blockExprs info))
          (blockExprs info block) report := by
  induction blocks using List.reverseRecOn with
  | nil =>
    refine ⟨hfirst, fun report => ?_⟩
    rw [List.foldl_nil, or_iff_left]
    rintro ⟨before, block, after, h, -⟩
    simp at h
  | append_singleton blocks block ih =>
    obtain ⟨ih₁, ih₂⟩ := ih
    rw [List.foldl_concat]
    have hblock : ∀ i ∈ blockExprs info block, i.blockId = block := by
      intro i hi
      have := ((List.perm_insertionSort _ _).mem_iff).1 hi
      exact beq_iff_eq.1 (List.mem_filter.1 this).2
    have hstart : ∀ text, ({ blocks.foldl (scanBlock info) scan with
        genInBlock := fun _ => none } : Scan).firstSeen text =
        firstOf (blocks.flatMap (blockExprs info)) text := ih₁
    obtain ⟨h₁, -, h₃⟩ := scanInstance_foldl info hstart (fun _ => rfl) hblock
    refine ⟨fun text => ?_, fun report => ?_⟩
    · rw [List.flatMap_append, List.flatMap_singleton]
      exact h₁ text
    · refine (h₃ report).trans ?_
      rw [ih₂, or_assoc]
      refine or_congr_right ?_
      constructor
      · intro h
        cases h with
        | inl h =>
          obtain ⟨before, c, after, rfl, hreport⟩ := h
          exact ⟨before, c, after ++ [block], by simp, hreport⟩
        | inr h => exact ⟨blocks, block, [], rfl, h⟩
      · rintro ⟨before, c, after, h, hreport⟩
        cases concat_eq_append_cons.1 h with
        | inl h =>
          obtain ⟨rfl, rfl, rfl⟩ := h
          exact .inr hreport
        | inr h =>
          obtain ⟨after, rfl, rfl⟩ := h
          exact .inl ⟨before, c, after, rfl, hreport⟩

/-- An operand is defined on the line, in whatever block. -/
def DefinedOn (dfg : DfgInfo) (operands : List String) (line : Nat) : Prop :=
  ∃ r ∈ dfg.refs, r.isDef ∧ r.name ∈ operands ∧ r.line = line

theorem killedBetween_iff {start : Nat}
    (hdefs : ∀ line v, v ∈ info.defsPerLine line ↔
      ∃ r ∈ dfg.refs, r.isDef ∧ r.line = line ∧ r.name = v) :
    killedBetween info expr start line = false ↔
      ∀ k, start ≤ k → k < line → ¬ DefinedOn dfg expr.operands k := by
  have hline : ∀ k, (expr.operands.any (· ∈ info.defsPerLine k)) = true ↔
      DefinedOn dfg expr.operands k := by
    intro k
    simp only [List.any_eq_true, decide_eq_true_eq, hdefs, DefinedOn]
    constructor
    · rintro ⟨v, hv, r, hr, hdef, hline, rfl⟩
      exact ⟨r, hr, hdef, hv, hline⟩
    · rintro ⟨r, hr, hdef, hv, hline⟩
      exact ⟨r.name, hv, r, hr, hdef, hline, rfl⟩
  rw [Bool.eq_false_iff, killedBetween, Ne, List.any_eq_true]
  simp only [hline, List.mem_range'_1, not_exists, not_and]
  constructor
  · intro h k hstart hk
    exact h k (by omega)
  · intro h k hk
    exact h k hk.1 (by omega)

theorem reportOf_eq_some {first : Option (Nat × Nat)} {gen : Option Nat} {t : String} {f line : Nat}
    (h : reportOf info block first gen expr = some (t, f, line)) :
    t = expr.text ∧ line = expr.line := by
  unfold reportOf at h
  dsimp only at h
  split at h
  · cases h
    exact ⟨rfl, rfl⟩
  · split at h
    · split at h
      · cases h
        exact ⟨rfl, rfl⟩
      · cases h
    · cases h
  · cases h

/-- An evaluation is reported if nothing is killed since the first one of its block, or there is
one in an earlier block and nothing is killed on the lines above. -/
theorem reportOf_isSome_iff {prior own : Option (Nat × Nat)}
    (hprior : ∀ f c, prior = some (f, c) → c ≠ block ∧ f ≠ expr.line)
    (hown : ∀ g c, own = some (g, c) → c = block) :
    (reportOf info block (prior.or own) (own.map (·.1)) expr).isSome ↔
      (∃ g c, own = some (g, c) ∧ g ≠ expr.line ∧
        killedBetween info expr (g + 1) expr.line = false) ∨
      prior.isSome ∧ killedBetween info expr 1 expr.line = false := by
  cases prior with
  | none =>
    cases own with
    | none => simp [reportOf]
    | some own =>
      obtain ⟨g, c⟩ := own
      obtain rfl := hown g c rfl
      by_cases hg : g = expr.line <;>
        by_cases hk : killedBetween info expr (g + 1) expr.line = true <;>
          simp [reportOf, Option.filter, hg, hk]
  | some prior =>
    obtain ⟨f, c⟩ := prior
    obtain ⟨hc, hf⟩ := hprior f c rfl
    cases own with
    | none =>
      by_cases hk : killedBetween info expr 1 expr.line = true <;>
        simp [reportOf, Option.filter, hc, hf, hk]
    | some own =>
      obtain ⟨g, d⟩ := own
      by_cases hg : g = expr.line <;>
        by_cases hk : killedBetween info expr (g + 1) expr.line = true <;>
          by_cases hk' : killedBetween info expr 1 expr.line = true <;>
            simp_all [reportOf, Option.filter]

/-! ## The order of the scan -/

theorem mem_blockExprs {i : ExprInstance} :
    i ∈ blockExprs info block ↔ i ∈ info.exprInstancesWithBlocks ∧ i.blockId = block := by
  simp [blockExprs]

theorem blockExprs_pairwise (info : AvailableExprsInfo) (block : Nat) :
    (blockExprs info block).Pairwise fun i j => i.expr.line ≤ j.expr.line := by
  have : Std.Total fun i j : ExprInstance => i.expr.line ≤ j.expr.line :=
    ⟨fun i j => Nat.le_total _ _⟩
  have : IsTrans ExprInstance fun i j => i.expr.line ≤ j.expr.line :=
    ⟨fun i j k => Nat.le_trans⟩
  exact List.pairwise_insertionSort _ _

theorem scannedBlocks_pairwise (info : AvailableExprsInfo) :
    (scannedBlocks info).Pairwise (· < ·) := by
  have hle : (scannedBlocks info).Pairwise (· ≤ ·) := List.pairwise_insertionSort _ _
  have hnodup : (scannedBlocks info).Nodup :=
    (List.perm_insertionSort _ _).nodup_iff.2 (List.nodup_dedup _)
  exact (hle.and hnodup).imp fun h => lt_of_le_of_ne h.1 h.2

theorem mem_scannedBlocks :
    block ∈ scannedBlocks info ↔ ∃ i ∈ info.exprInstancesWithBlocks, i.blockId = block := by
  simp [scannedBlocks]

theorem firstOf_isSome : (firstOf l text).isSome ↔ ∃ i ∈ l, i.expr.text = text := by
  simp [firstOf]

theorem isLeast_of_firstOf {g c : Nat} (hl : blockExprs info block = l₁ ++ l₂)
    (h : firstOf l₁ text = some (g, c)) :
    c = block ∧ IsLeast {g | EvaluatedAt info.exprInstancesWithBlocks text block g} g := by
  obtain ⟨i, hfind, hi⟩ := Option.map_eq_some_iff.1 h
  obtain ⟨rfl, rfl⟩ := Prod.mk.inj hi
  obtain ⟨htext, before, after, rfl, hbefore⟩ := List.find?_eq_some_iff_append.1 hfind
  have hmem : i ∈ blockExprs info block := by simp [hl]
  obtain ⟨hinst, rfl⟩ := mem_blockExprs.1 hmem
  refine ⟨rfl, ⟨i, hinst, rfl, beq_iff_eq.1 htext, rfl⟩, ?_⟩
  rintro g ⟨j, hj, hjb, hjt, rfl⟩
  have hpairwise := blockExprs_pairwise info i.blockId
  have hjl : j ∈ blockExprs info i.blockId := mem_blockExprs.2 ⟨hj, hjb⟩
  rw [hl, List.append_assoc, List.cons_append] at hpairwise hjl
  cases List.mem_append.1 hjl with
  | inl hjl =>
    have := hbefore j hjl
    simp [hjt] at this
  | inr hjl =>
    cases List.mem_cons.1 hjl with
    | inl hjl => rw [hjl]
    | inr hjl => exact (List.pairwise_cons.1 (List.pairwise_append.1 hpairwise).2.1).1 j hjl

theorem exists_firstOf {i : ExprInstance} {g : Nat} (hl : blockExprs info block = l₁ ++ i :: l₂)
    (hg : EvaluatedAt info.exprInstancesWithBlocks text block g) (hlt : g < i.expr.line) :
    ∃ g c, firstOf l₁ text = some (g, c) := by
  obtain ⟨j, hj, hjb, hjt, rfl⟩ := hg
  have hpairwise := blockExprs_pairwise info block
  have hjl : j ∈ blockExprs info block := mem_blockExprs.2 ⟨hj, hjb⟩
  rw [hl] at hpairwise hjl
  have hj₁ : j ∈ l₁ := by
    cases List.mem_append.1 hjl with
    | inl hj₁ => exact hj₁
    | inr hj₂ =>
      exfalso
      cases List.mem_cons.1 hj₂ with
      | inl hji => rw [hji] at hlt; exact lt_irrefl _ hlt
      | inr hj₂ =>
        have := (List.pairwise_cons.1 (List.pairwise_append.1 hpairwise).2.1).1 j hj₂
        exact absurd hlt (Nat.not_lt.2 this)
  obtain ⟨⟨g, c⟩, hfirst⟩ := Option.isSome_iff_exists.1 (firstOf_isSome.2 ⟨j, hj₁, hjt⟩)
  exact ⟨g, c, hfirst⟩

/-- The lines on which a block evaluates the expression. -/
abbrev evaluationLines (instances : List ExprInstance) (text : String) (b : Nat) : Set Nat :=
  {line | EvaluatedAt instances text b line}

/-- The rule by which an evaluation is reported: after the first one of its block no operand is
defined on a line in between, or it is the first one of its block, an earlier block has one, and no
operand is defined on any line above. -/
def Reported (dfg : DfgInfo) (instances : List ExprInstance) (i : ExprInstance) : Prop :=
  (∃ g, IsLeast (evaluationLines instances i.expr.text i.blockId) g ∧ g < i.expr.line ∧
    ∀ k, g < k → k < i.expr.line → ¬ DefinedOn dfg i.expr.operands k) ∨
  i.expr.line ∈ lowerBounds (evaluationLines instances i.expr.text i.blockId) ∧
    (∃ c < i.blockId, Evaluates instances i.expr.text c) ∧
    ∀ k, 0 < k → k < i.expr.line → ¬ DefinedOn dfg i.expr.operands k

/-- **One evaluation**, at its place in the scan. -/
theorem reportOf_iff_reported {before after : List Nat} {i : ExprInstance}
    (hplaced : ∀ i ∈ info.exprInstancesWithBlocks,
      findBlockForLine cfg i.expr.line = some i.blockId)
    (hdefs : ∀ line v, v ∈ info.defsPerLine line ↔
      ∃ r ∈ dfg.refs, r.isDef ∧ r.line = line ∧ r.name = v)
    (hblocks : scannedBlocks info = before ++ block :: after)
    (hl : blockExprs info block = l₁ ++ i :: l₂) :
    (reportOf info block (firstOf (before.flatMap (blockExprs info) ++ l₁) i.expr.text)
      ((firstOf l₁ i.expr.text).map (·.1)) i.expr).isSome ↔
    Reported dfg info.exprInstancesWithBlocks i := by
  have hmem : i ∈ blockExprs info block := by simp [hl]
  obtain ⟨hi, rfl⟩ := mem_blockExprs.1 hmem
  have hpairwise := scannedBlocks_pairwise info
  rw [hblocks, List.pairwise_append] at hpairwise
  -- the blocks before are those with a smaller number
  have hbefore : ∀ c, c ∈ before ↔ c ∈ scannedBlocks info ∧ c < i.blockId := by
    intro c
    constructor
    · intro hc
      rw [hblocks]
      exact ⟨List.mem_append_left _ hc, hpairwise.2.2 c hc _ List.mem_cons_self⟩
    · rintro ⟨hc, hlt⟩
      rw [hblocks, List.mem_append, List.mem_cons] at hc
      refine hc.resolve_right fun hc => ?_
      cases hc with
      | inl hc => exact absurd hlt (by omega)
      | inr hc => exact absurd ((List.pairwise_cons.1 hpairwise.2.1).1 c hc) (by omega)
  have hprior : (firstOf (before.flatMap (blockExprs info)) i.expr.text).isSome ↔
      ∃ c < i.blockId, Evaluates info.exprInstancesWithBlocks i.expr.text c := by
    rw [firstOf_isSome]
    constructor
    · rintro ⟨j, hj, htext⟩
      obtain ⟨c, hc, hj⟩ := List.mem_flatMap.1 hj
      obtain ⟨hj, hjc⟩ := mem_blockExprs.1 hj
      exact ⟨c, ((hbefore c).1 hc).2, j.expr.line, j, hj, hjc, htext, rfl⟩
    · rintro ⟨c, hlt, line, j, hj, hjc, htext, -⟩
      refine ⟨j, List.mem_flatMap.2 ⟨c, (hbefore c).2 ⟨?_, hlt⟩, mem_blockExprs.2 ⟨hj, hjc⟩⟩, htext⟩
      exact mem_scannedBlocks.2 ⟨j, hj, hjc⟩
  rw [firstOf_append, reportOf_isSome_iff, hprior, killedBetween_iff hdefs]
  · unfold Reported
    constructor
    · rintro (⟨g, c, hfirst, hne, hkill⟩ | ⟨hprior, hkill⟩)
      · obtain ⟨-, hleast⟩ := isLeast_of_firstOf hl hfirst
        rw [killedBetween_iff hdefs] at hkill
        have hle : g ≤ i.expr.line := hleast.2 ⟨i, hi, rfl, rfl, rfl⟩
        exact .inl ⟨g, hleast, lt_of_le_of_ne hle hne, fun k hk => hkill k hk⟩
      · by_cases hlow : i.expr.line ∈
            lowerBounds (evaluationLines info.exprInstancesWithBlocks i.expr.text i.blockId)
        · exact .inr ⟨hlow, hprior, fun k hk => hkill k hk⟩
        · -- the block evaluates the expression above
          obtain ⟨g', hg', hlt⟩ : ∃ g', EvaluatedAt info.exprInstancesWithBlocks i.expr.text
              i.blockId g' ∧ g' < i.expr.line := by
            simpa [lowerBounds] using hlow
          obtain ⟨g, c, hfirst⟩ := exists_firstOf hl hg' hlt
          obtain ⟨-, hleast⟩ := isLeast_of_firstOf hl hfirst
          exact .inl ⟨g, hleast, lt_of_le_of_lt (hleast.2 hg') hlt,
            fun k hk => hkill k (by omega)⟩
    · rintro (⟨g, hleast, hlt, hkill⟩ | ⟨hlow, hprior, hkill⟩)
      · obtain ⟨g', c, hfirst⟩ := exists_firstOf hl hleast.1 hlt
        obtain ⟨-, hleast'⟩ := isLeast_of_firstOf hl hfirst
        obtain rfl := hleast.unique hleast'
        exact .inl ⟨g, c, hfirst, hlt.ne, (killedBetween_iff hdefs).2 fun k hk => hkill k hk⟩
      · exact .inr ⟨hprior, fun k hk => hkill k hk⟩
  · intro f c hf
    obtain ⟨j, hfind, hj⟩ := Option.map_eq_some_iff.1 hf
    obtain ⟨rfl, rfl⟩ := Prod.mk.inj hj
    obtain ⟨c, hc, hj⟩ := List.mem_flatMap.1 (List.mem_of_find?_eq_some hfind)
    obtain ⟨hj, hjc⟩ := mem_blockExprs.1 hj
    have hlt := ((hbefore c).1 hc).2
    -- a line is in one block only
    refine ⟨by omega, fun heq => ?_⟩
    have := (hplaced j hj).symm.trans (heq ▸ hplaced i hi)
    have := Option.some.inj this
    omega
  · exact fun g c hfirst => (isLeast_of_firstOf hl hfirst).1

/-- **The reports.** -/
theorem mem_redundantComputations
    (hplaced : ∀ i ∈ info.exprInstancesWithBlocks,
      findBlockForLine cfg i.expr.line = some i.blockId)
    (hdefs : ∀ line v, v ∈ info.defsPerLine line ↔
      ∃ r ∈ dfg.refs, r.isDef ∧ r.line = line ∧ r.name = v)
    (hne : info.exprInstancesWithBlocks ≠ []) :
    (∃ f, (text, f, line) ∈ redundantComputations info) ↔
      ∃ i ∈ info.exprInstancesWithBlocks, i.expr.text = text ∧ i.expr.line = line ∧
        Reported dfg info.exprInstancesWithBlocks i := by
  have hmem : ∀ report, report ∈ redundantComputations info ↔
      ∃ before block after, scannedBlocks info = before ++ block :: after ∧
        ReportedIn info block (before.flatMap (blockExprs info))
          (blockExprs info block) report := by
    intro report
    have hfirst : ∀ text, (⟨fun _ => none, fun _ => none, []⟩ : Scan).firstSeen text = none :=
      fun _ => rfl
    have hscan := (scanBlock_foldl info (scannedBlocks info) hfirst).2 report
    unfold redundantComputations
    dsimp only
    rw [List.mem_insertionSort, if_pos (by simpa using hne), hscan]
    simp
  simp only [hmem]
  constructor
  · rintro ⟨f, before, block, after, hblocks, l₁, i, l₂, hl, hreport⟩
    have hi : i ∈ blockExprs info block := by simp [hl]
    obtain ⟨rfl, rfl⟩ := reportOf_eq_some hreport
    refine ⟨i, (mem_blockExprs.1 hi).1, rfl, rfl, ?_⟩
    exact (reportOf_iff_reported hplaced hdefs hblocks hl).1 (by rw [hreport]; rfl)
  · rintro ⟨i, hi, rfl, rfl, hreported⟩
    obtain ⟨before, after, hblocks⟩ := List.append_of_mem (mem_scannedBlocks.2 ⟨i, hi, rfl⟩)
    obtain ⟨l₁, l₂, hl⟩ := List.append_of_mem (mem_blockExprs.2 ⟨hi, rfl⟩)
    obtain ⟨⟨t, f, line⟩, hreport⟩ := Option.isSome_iff_exists.1
      ((reportOf_iff_reported hplaced hdefs hblocks hl).2 hreported)
    obtain ⟨rfl, rfl⟩ := reportOf_eq_some hreport
    exact ⟨f, before, i.blockId, after, hblocks, l₁, i, l₂, hl, hreport⟩

/-! ## Soundness -/

/-- On every path to the evaluation the expression has been evaluated before, and no operand has
been redefined since: in the block itself, or on the path up to the block. -/
def RedundantAt (cfg : CfgInfo) (dfg : DfgInfo) (instances : List ExprInstance)
    (i : ExprInstance) : Prop :=
  ∀ l, Walk cfg.Edge cfg.entryBlock i.blockId (l ++ [i.blockId]) →
    (∃ g, EvaluatedAt instances i.expr.text i.blockId g ∧ g < i.expr.line ∧
      ∀ k, g ≤ k → k < i.expr.line → ¬ RedefinedAt cfg dfg i.expr.operands i.blockId k) ∨
    Survives (fun c => EvaluatesLast cfg dfg instances i.expr.text i.expr.operands c)
      (fun c => Redefines cfg dfg i.expr.operands c) l ∧
      ∀ k < i.expr.line, ¬ RedefinedAt cfg dfg i.expr.operands i.blockId k

variable {instances : List ExprInstance} {i : ExprInstance}

theorem redundantAt_iff_own {g : Nat} (hb : cfg.Reachable i.blockId)
    (hg : EvaluatedAt instances i.expr.text i.blockId g) (hlt : g < i.expr.line) :
    RedundantAt cfg dfg instances i ↔
      ∃ g, EvaluatedAt instances i.expr.text i.blockId g ∧ g < i.expr.line ∧
        ∀ k, g ≤ k → k < i.expr.line → ¬ RedefinedAt cfg dfg i.expr.operands i.blockId k := by
  constructor
  · intro h
    obtain ⟨l, w⟩ := hb
    obtain ⟨l, rfl⟩ := w.eq_concat
    cases h l w with
    | inl h => exact h
    | inr h => exact ⟨g, hg, hlt, fun k _ hk => h.2 k hk⟩
  · exact fun h l w => .inl h

theorem redundantAt_iff_available (hb : cfg.Reachable i.blockId)
    (hlow : i.expr.line ∈ lowerBounds (evaluationLines instances i.expr.text i.blockId)) :
    RedundantAt cfg dfg instances i ↔
      AvailableAt cfg dfg instances i.expr.text i.expr.operands i.blockId ∧
        ∀ k < i.expr.line, ¬ RedefinedAt cfg dfg i.expr.operands i.blockId k := by
  have hpath : RedundantAt cfg dfg instances i ↔
      ∀ l, Walk cfg.Edge cfg.entryBlock i.blockId (l ++ [i.blockId]) →
        Survives (fun c => EvaluatesLast cfg dfg instances i.expr.text i.expr.operands c)
          (fun c => Redefines cfg dfg i.expr.operands c) l ∧
        ∀ k < i.expr.line, ¬ RedefinedAt cfg dfg i.expr.operands i.blockId k := by
    refine forall₂_congr fun l w => or_iff_right ?_
    rintro ⟨g, hg, hlt, -⟩
    exact absurd (hlow hg) (Nat.not_le.2 hlt)
  rw [hpath]
  constructor
  · intro h
    refine ⟨fun l w => (h l w).1, ?_⟩
    obtain ⟨l, w⟩ := hb
    obtain ⟨l, rfl⟩ := w.eq_concat
    exact (h l w).2
  · exact fun h l w => ⟨h.1 l w, h.2⟩

/-- What the scan relies on when it reports `i`, said of an evaluation `j` of the same expression on
the same line. -/
structure ComparisonHolds (cfg : CfgInfo) (dfg : DfgInfo) (instances : List ExprInstance)
    (i j : ExprInstance) : Prop where
  /-- With the first evaluation of the block: it lasts up to the line, or a later one does. -/
  own : ∀ g, IsLeast (evaluationLines instances i.expr.text i.blockId) g → g < i.expr.line →
    (∀ k, g < k → k < i.expr.line → ¬ DefinedOn dfg i.expr.operands k) →
    ∃ g' ∈ evaluationLines instances i.expr.text i.blockId, g' < i.expr.line ∧
      ∀ k, g' ≤ k → k < i.expr.line → ¬ RedefinedAt cfg dfg j.expr.operands i.blockId k
  /-- With an evaluation in an earlier block: the expression is available in this one. -/
  earlier : i.expr.line ∈ lowerBounds (evaluationLines instances i.expr.text i.blockId) →
    (∃ c < i.blockId, Evaluates instances i.expr.text c) →
    (∀ k, 0 < k → k < i.expr.line → ¬ DefinedOn dfg i.expr.operands k) →
    AvailableAt cfg dfg instances i.expr.text j.expr.operands i.blockId ∧
      ∀ k < i.expr.line, ¬ RedefinedAt cfg dfg j.expr.operands i.blockId k

theorem reported_redundantAt_iff {j : ExprInstance} (htext : j.expr.text = i.expr.text)
    (hline : j.expr.line = i.expr.line) (hblock : j.blockId = i.blockId)
    (hb : cfg.Reachable j.blockId) :
    (Reported dfg instances i → RedundantAt cfg dfg instances j) ↔
      ComparisonHolds cfg dfg instances i j := by
  have hown : ∀ g, IsLeast (evaluationLines instances i.expr.text i.blockId) g →
      g < i.expr.line → (RedundantAt cfg dfg instances j ↔
        ∃ g' ∈ evaluationLines instances i.expr.text i.blockId, g' < i.expr.line ∧
          ∀ k, g' ≤ k → k < i.expr.line →
            ¬ RedefinedAt cfg dfg j.expr.operands i.blockId k) := by
    intro g hg hlt
    have hg' : EvaluatedAt instances j.expr.text j.blockId g := by
      rw [htext, hblock]
      exact hg.1
    rw [redundantAt_iff_own hb hg' (hline.symm ▸ hlt), htext, hline, hblock]
    rfl
  have hearlier : i.expr.line ∈ lowerBounds (evaluationLines instances i.expr.text i.blockId) →
      (RedundantAt cfg dfg instances j ↔
        AvailableAt cfg dfg instances i.expr.text j.expr.operands i.blockId ∧
          ∀ k < i.expr.line, ¬ RedefinedAt cfg dfg j.expr.operands i.blockId k) := by
    intro hlow
    have hlow' : j.expr.line ∈ lowerBounds (evaluationLines instances j.expr.text j.blockId) := by
      rwa [htext, hline, hblock]
    rw [redundantAt_iff_available hb hlow', htext, hline, hblock]
  constructor
  · intro h
    constructor
    case own => exact fun g hg hlt hk => (hown g hg hlt).1 (h (.inl ⟨g, hg, hlt, hk⟩))
    case earlier => exact fun hlow hc hk => (hearlier hlow).1 (h (.inr ⟨hlow, hc, hk⟩))
  · intro h hreported
    cases hreported with
    | inl hreported =>
      obtain ⟨g, hg, hlt, hk⟩ := hreported
      exact (hown g hg hlt).2 (h.own g hg hlt hk)
    | inr hreported =>
      obtain ⟨hlow, hc, hk⟩ := hreported
      exact (hearlier hlow).2 (h.earlier hlow hc hk)

variable {ord : HashOrder} {tables : CharTables} {sourceLines : Option (List String)}
  {tree : Option SyntaxTree}

theorem computeAvailable_instances
    (hok : computeAvailable ord tables cfg dfg sourceLines tree = some (.ok info)) :
    (∀ i ∈ info.exprInstancesWithBlocks, findBlockForLine cfg i.expr.line = some i.blockId) ∧
    (info.exprInstancesWithBlocks ≠ [] → ∀ line v, v ∈ info.defsPerLine line ↔
      ∃ r ∈ dfg.refs, r.isDef ∧ r.line = line ∧ r.name = v) ∧
    (info.exprInstancesWithBlocks = [] → info.exprInstances = []) := by
  obtain ⟨-, extraction, h, hinfo⟩ := computeAvailable_eq_ok hok
  unfold availableInfo at hinfo
  dsimp only at hinfo
  split at hinfo
  · cases hinfo
    exact ⟨by simp, fun hne => absurd rfl hne, fun _ => rfl⟩
  · generalize availRounds cfg extraction _ _ _ = result at hinfo
    cases result with
    | error e => cases hinfo
    | ok state =>
      cases hinfo
      exact ⟨h.placed, fun _ => h.defs, h.instances.2⟩

/-- `if p: x = a + b else: y = a + b`. -/
def branchCfg : CfgInfo where
  function := "branch"
  blocks := [⟨0, 1, 1⟩, ⟨1, 2, 2⟩, ⟨2, 3, 4⟩, ⟨3, 5, 5⟩]
  edges := [⟨0, 1⟩, ⟨0, 2⟩, ⟨1, 3⟩, ⟨2, 3⟩]
  entryBlock := 0
  exitBlocks := [3]

def branchDfg : DfgInfo where
  refs := [⟨"p", .use, 1, 3⟩, ⟨"x", .definition, 2, 4⟩, ⟨"a", .use, 2, 8⟩, ⟨"b", .use, 2, 12⟩,
    ⟨"y", .definition, 4, 4⟩, ⟨"a", .use, 4, 8⟩, ⟨"b", .use, 4, 12⟩]

def branchLines : List String := ["if p:", "    x = a + b", "else:", "    y = a + b", "return p"]

theorem branch_computed : ∃ info : AvailableExprsInfo,
    computeAvailableExprsWithSourceAndLang .insertion .ascii branchCfg branchDfg branchLines none =
      some (.ok info) ∧
    info.exprInstancesWithBlocks = [⟨⟨"a + b", ["a", "b"], 2⟩, 1⟩, ⟨⟨"a + b", ["a", "b"], 4⟩, 2⟩] ∧
    redundantComputations info = [("a + b", 2, 4)] := by
  have hrun : ((computeAvailableExprsWithSourceAndLang .insertion .ascii branchCfg branchDfg
      branchLines none).bind Except.toOption).map (fun info => (info.exprInstancesWithBlocks,
        redundantComputations info)) =
      some ([⟨⟨"a + b", ["a", "b"], 2⟩, 1⟩, ⟨⟨"a + b", ["a", "b"], 4⟩, 2⟩],
        [("a + b", 2, 4)]) := by decide +kernel
  obtain ⟨info, hok, hinfo⟩ := exists_some_ok_of_map hrun
  obtain ⟨hinstances, hreports⟩ := Prod.mk.inj hinfo
  exact ⟨info, hok, hinstances, hreports⟩

end TldrCode.Dataflow
