import Mathlib.Data.Char
import Mathlib.Data.List.AList
import Mathlib.Data.List.Lex
import Mathlib.Data.List.Sort
import TldrCode.Output.Paths
import TldrCode.RoseTree
import TldrCode.Types

/-!
# Compact impact answers

`format_impact_compact` of `output.rs`, and a reader of the rows it writes. The prefix that the file
cells leave out is shared by all components of a path, not only by its directories, so that a file
in which all nodes lie is not found again (`lossless_iff`).
-/

namespace TldrCode.Output

open Tsv (Text)

inductive Confidence where
  | high | medium | low
  deriving DecidableEq, Repr

/-- A node of a `CallerTree`, without its callers. -/
structure CallerNode where
  function : Text
  file : Text
  callerCount : Nat
  truncated : Bool
  note : Option Text
  confidence : Option Confidence
  receiverType : Option Text
  deriving DecidableEq, Repr

abbrev CallerTree := RoseTree CallerNode

structure ImpactReport where
  targets : AList fun _ : Text => CallerTree
  totalTargets : Nat

/-! ## The rows -/

/-- `str::replace` of a character. -/
def replace (c : Char) (escaped text : Text) : Text :=
    text.flatMap fun d => if d = c then escaped else [d]

def compactCell (value : Text) : Text :=
  replace '\n' ['\\', 'n'] (replace '\r' ['\\', 'r'] (replace '\t' ['\\', 't']
    (replace '\\' ['\\', '\\'] value)))

def number (n : Nat) : Text := Nat.toDigits 10 n

def callerRow (depth : Nat) (node : CallerNode) (pre : List Text) : Text :=
  Tsv.renderRow ["caller".toList, number depth,
    compactCell (stripPrefixDisplay (normalized node.file) pre), compactCell node.function,
    number node.callerCount, (toString node.truncated).toList, compactCell (node.note.getD []),
    compactCell (node.receiverType.getD [])]

mutual

def formatCompactCallerRows (depth : Nat) (pre : List Text) : CallerTree → Text
  | .node node callers =>
    callerRow depth node pre ++ formatCompactCallers (depth + 1) pre callers

def formatCompactCallers (depth : Nat) (pre : List Text) : List CallerTree → Text
  | [] => []
  | caller :: callers =>
    formatCompactCallerRows depth pre caller ++ formatCompactCallers depth pre callers

end

namespace ImpactReport

/-- The targets with their trees, in the order of a traversal. -/
def entries (ord : HashOrder) (report : ImpactReport) : List (Text × CallerTree) :=
  (ord.order report.targets.entries).map fun entry => (entry.1, entry.2)

def nodes (ord : HashOrder) (report : ImpactReport) : List CallerNode :=
  (report.entries ord).flatMap fun target => target.2.values

/-- The prefix of `format_impact_compact`. -/
def pathPrefix (ord : HashOrder) (report : ImpactReport) : List Text :=
  commonPathPrefix ((report.nodes ord).map fun node => normalized node.file)

def sortedTargets (ord : HashOrder) (report : ImpactReport) : List (Text × CallerTree) :=
  (report.entries ord).insertionSort fun left right => left.1 ≤ right.1

def formatImpactCompact (ord : HashOrder) (report : ImpactReport) : Text :=
  Tsv.renderRow ["@impact".toList, number 1, "targets=".toList ++ number report.totalTargets,
      "prefix=".toList ++ compactCell (display (report.pathPrefix ord))] ++
    Tsv.renderRow ["@columns".toList, "kind".toList, "depth".toList, "file".toList,
      "function".toList, "callers".toList, "truncated".toList, "note".toList,
      "receiver".toList] ++
    (report.sortedTargets ord).flatMap fun target =>
      Tsv.renderRow ["target".toList, number 0, [], compactCell target.1, number 0,
        "false".toList, [], []] ++ formatCompactCallerRows 0 (report.pathPrefix ord) target.2

end ImpactReport

/-- What the columns name of a node. A text that is absent is empty. -/
structure Columns where
  file : Text
  function : Text
  callers : Nat
  truncated : Bool
  note : Text
  receiver : Text
  deriving DecidableEq, Repr

/-- The columns of a node whose file is written so. -/
def CallerNode.columns (node : CallerNode) (file : Text) : Columns where
  file := file
  function := node.function
  callers := node.callerCount
  truncated := node.truncated
  note := node.note.getD []
  receiver := node.receiverType.getD []

/-- The targets of rows, read from the last one: a target owns the rows up to the next. -/
def groupRows (pre : Text) (rows : List (List Text)) :
    List (Nat × Columns) × List (Text × List (Nat × Columns)) :=
  rows.foldr (fun row groups =>
    match row with
    | [kind, depth, file, function, callers, truncated, note, receiver] =>
      if kind = "target".toList then ([], (function, groups.1) :: groups.2)
      else ((Nat.ofDigitChars 10 depth 0, ⟨push pre file, function, Nat.ofDigitChars 10 callers 0,
        truncated = "true".toList, note, receiver⟩) :: groups.1, groups.2)
    | _ => groups) ([], [])

/-- The targets with their trees, as a reader of the answer finds them. -/
def readImpactCompact (answer : Text) : List (Text × List (RoseTree Columns)) :=
  match Tsv.readRows answer with
  | [_, _, _, pre] :: _ :: rows =>
    (groupRows (pre.drop "prefix=".length) rows).2.map fun target =>
      (target.1, (RoseTree.rebuild target.2).map (·.2))
  | _ => []

/-! ## Cells -/

theorem replace_append (c : Char) (escaped first rest : Text) :
    replace c escaped (first ++ rest) = replace c escaped first ++ replace c escaped rest :=
  List.flatMap_append

theorem compactCell_append (first rest : Text) :
    compactCell (first ++ rest) = compactCell first ++ compactCell rest := by
  unfold compactCell
  rw [replace_append, replace_append, replace_append, replace_append]

theorem compactCell_singleton (c : Char) : compactCell [c] = Tsv.escapeChar c := by
  unfold Tsv.escapeChar
  split_ifs with hbackslash htab hreturn hnewline
  · subst hbackslash
    rfl
  · subst htab
    rfl
  · subst hreturn
    rfl
  · subst hnewline
    rfl
  · simp [compactCell, replace, hbackslash, htab, hreturn, hnewline]

/-- **The replacements** escape a cell, one after the other. -/
theorem compactCell_eq_escape (value : Text) : compactCell value = Tsv.escape value := by
  induction value with
  | nil => rfl
  | cons c value ih =>
    have hcons : compactCell (c :: value) = compactCell [c] ++ compactCell value :=
      compactCell_append [c] value
    rw [hcons, compactCell_singleton, ih]
    rfl

theorem escape_number (n : Nat) : Tsv.escape (number n) = number n := by
  apply Tsv.escape_of_forall
  intro c hc
  have hdigit : c.isDigit = true := Nat.isDigit_of_mem_toDigits (by decide) (by decide) hc
  refine ⟨?_, ?_, ?_, ?_⟩
  all_goals
    rintro rfl
    exact absurd hdigit (by decide)

theorem ofDigitChars_number (n : Nat) : Nat.ofDigitChars 10 (number n) 0 = n :=
  Nat.ofDigitChars_ten_toDigits

theorem escape_toString (b : Bool) :
    Tsv.escape (toString b).toList = (toString b).toList := by
  cases b <;> decide

/-! ## Rows -/

def callerCells (pre : List Text) (row : Nat × CallerNode) : List Text :=
  ["caller".toList, number row.1, stripPrefixDisplay (normalized row.2.file) pre, row.2.function,
    number row.2.callerCount, (toString row.2.truncated).toList, row.2.note.getD [],
    row.2.receiverType.getD []]

def targetCells (target : Text) : List Text :=
  ["target".toList, number 0, [], target, number 0, "false".toList, [], []]

def targetRows (pre : List Text) (target : Text × CallerTree) : List (List Text) :=
  targetCells target.1 :: (RoseTree.preorder 0 target.2).map (callerCells pre)

variable {pre : List Text} {depth : Nat} {targets : List (Text × CallerTree)} {tree : CallerTree}
  {ord : HashOrder} {report : ImpactReport} {node : CallerNode}

theorem callerRow_eq (depth : Nat) (node : CallerNode) (pre : List Text) :
    callerRow depth node pre = Tsv.renderRow ((callerCells pre (depth, node)).map Tsv.escape) := by
  have hkind : Tsv.escape "caller".toList = "caller".toList := by decide
  unfold callerRow callerCells
  simp only [List.map_cons, List.map_nil, compactCell_eq_escape, hkind, escape_number,
    escape_toString]

mutual

theorem formatCompactCallerRows_eq (depth : Nat) (pre : List Text) (tree : CallerTree) :
    formatCompactCallerRows depth pre tree =
      ((RoseTree.preorder depth tree).map (callerCells pre)).flatMap fun row =>
        Tsv.renderRow (row.map Tsv.escape) := by
  cases tree with
  | node node callers =>
    unfold formatCompactCallerRows RoseTree.preorder
    rw [List.map_cons, List.flatMap_cons, ← callerRow_eq, formatCompactCallers_eq]

theorem formatCompactCallers_eq (depth : Nat) (pre : List Text) (callers : List CallerTree) :
    formatCompactCallers depth pre callers =
      ((RoseTree.preorders depth callers).map (callerCells pre)).flatMap fun row =>
        Tsv.renderRow (row.map Tsv.escape) := by
  cases callers with
  | nil => rfl
  | cons caller callers =>
    unfold formatCompactCallers RoseTree.preorders
    rw [List.map_append, List.flatMap_append, formatCompactCallerRows_eq,
      formatCompactCallers_eq]

end

def answerRows (ord : HashOrder) (report : ImpactReport) : List (List Text) :=
  ["@impact".toList, number 1, "targets=".toList ++ number report.totalTargets,
      "prefix=".toList ++ display (report.pathPrefix ord)] ::
    ["@columns".toList, "kind".toList, "depth".toList, "file".toList, "function".toList,
      "callers".toList, "truncated".toList, "note".toList, "receiver".toList] ::
    (report.sortedTargets ord).flatMap (targetRows (report.pathPrefix ord))

theorem escape_append (first rest : Text) :
    Tsv.escape (first ++ rest) = Tsv.escape first ++ Tsv.escape rest := List.flatMap_append

/-- **The answer** is a table. -/
theorem formatImpactCompact_eq (ord : HashOrder) (report : ImpactReport) :
    report.formatImpactCompact ord =
      (answerRows ord report).flatMap fun row => Tsv.renderRow (row.map Tsv.escape) := by
  have htargets : Tsv.escape "targets=".toList = "targets=".toList := by decide
  have hshared : Tsv.escape "prefix=".toList = "prefix=".toList := by decide
  have hcommand : Tsv.escape "@impact".toList = "@impact".toList := by decide
  unfold ImpactReport.formatImpactCompact answerRows
  rw [List.flatMap_cons, List.flatMap_cons, List.flatMap_assoc, List.append_assoc]
  refine congrArg₂ (· ++ ·) ?_ (congrArg₂ (· ++ ·) ?_ ?_)
  · simp only [List.map_cons, List.map_nil, compactCell_eq_escape, escape_append, escape_number,
      htargets, hshared, hcommand]
  · decide
  · apply List.flatMap_congr
    intro target _
    have hkind : Tsv.escape "target".toList = "target".toList := by decide
    have htruncated : Tsv.escape "false".toList = "false".toList := by decide
    have hempty : Tsv.escape [] = [] := rfl
    unfold targetRows targetCells
    rw [List.flatMap_cons, formatCompactCallerRows_eq]
    simp only [List.map_cons, List.map_nil, compactCell_eq_escape, escape_number, hkind,
      htruncated, hempty]

def readColumns (pre : List Text) (node : CallerNode) : Columns :=
  node.columns (push (display pre) (stripPrefixDisplay (normalized node.file) pre))

theorem groupRows_callers (pre : List Text) (nodes : List (Nat × CallerNode))
    (rows : List (List Text)) :
    groupRows (display pre) (nodes.map (callerCells pre) ++ rows) =
      (nodes.map (fun row => (row.1, readColumns pre row.2)) ++ (groupRows (display pre) rows).1,
        (groupRows (display pre) rows).2) := by
  induction nodes with
  | nil => rfl
  | cons row nodes ih =>
    have hkind : "caller".toList ≠ "target".toList := by decide
    have htruncated : decide ((toString row.2.truncated).toList = "true".toList) =
        row.2.truncated := by
      cases row.2.truncated <;> decide
    have hcons : groupRows (display pre) (callerCells pre row :: (nodes.map (callerCells pre) ++
        rows)) = ((row.1, readColumns pre row.2) ::
          (groupRows (display pre) (nodes.map (callerCells pre) ++ rows)).1,
          (groupRows (display pre) (nodes.map (callerCells pre) ++ rows)).2) := by
      unfold groupRows callerCells readColumns CallerNode.columns
      rw [List.foldr_cons]
      dsimp only
      rw [if_neg hkind, ofDigitChars_number, ofDigitChars_number, htruncated]
    rw [List.map_cons, List.cons_append, hcons, ih]
    rfl

/-- **The rows of targets** are found again. -/
theorem groupRows_targets (pre : List Text) (targets : List (Text × CallerTree)) :
    groupRows (display pre) (targets.flatMap (targetRows pre)) =
      ([], targets.map fun target => (target.1, (RoseTree.preorder 0 target.2).map fun row =>
        (row.1, readColumns pre row.2))) := by
  induction targets with
  | nil => rfl
  | cons target targets ih =>
    have hcons : ∀ rows, groupRows (display pre) (targetCells target.1 :: rows) =
        ([], (target.1, (groupRows (display pre) rows).1) :: (groupRows (display pre) rows).2) :=
      fun rows => rfl
    unfold targetRows at ih ⊢
    rw [List.flatMap_cons, List.cons_append, hcons, groupRows_callers, ih, List.append_nil,
      List.map_cons]

theorem readImpactCompact_format (ord : HashOrder) (report : ImpactReport) :
    readImpactCompact (report.formatImpactCompact ord) =
      (report.sortedTargets ord).map fun target =>
        (target.1, [RoseTree.map (readColumns (report.pathPrefix ord)) target.2]) := by
  have hrows : Tsv.readRows (report.formatImpactCompact ord) = answerRows ord report := by
    rw [formatImpactCompact_eq, Tsv.readRows_flatMap]
    intro row hrow
    unfold answerRows targetRows at hrow
    simp only [List.mem_cons, List.mem_flatMap, List.mem_map] at hrow
    rcases hrow with rfl | rfl | ⟨target, -, rfl | ⟨row, -, rfl⟩⟩
    · exact List.cons_ne_nil _ _
    · exact List.cons_ne_nil _ _
    · exact List.cons_ne_nil _ _
    · exact List.cons_ne_nil _ _
  have hshared : ("prefix=".toList ++ display (report.pathPrefix ord)).drop "prefix=".length =
      display (report.pathPrefix ord) := List.drop_left' rfl
  unfold readImpactCompact
  rw [hrows]
  unfold answerRows
  dsimp only
  rw [hshared, groupRows_targets, List.map_map]
  refine List.map_congr_left fun target _ => ?_
  dsimp only [Function.comp_apply]
  rw [← RoseTree.preorder_map, RoseTree.rebuild_preorder]
  rfl

/-! ## Losslessness -/

/-- **The answer is lossless**: its reader finds each target's tree, with the path of each node. -/
def Lossless (ord : HashOrder) (report : ImpactReport) : Prop :=
  readImpactCompact (report.formatImpactCompact ord) =
    (report.sortedTargets ord).map fun target =>
      (target.1, [RoseTree.map (fun node => node.columns
        (display (normalized node.file))) target.2])

/-- The node lies in a file at whose relative path all the paths of the report begin. -/
def Spanning (ord : HashOrder) (report : ImpactReport) (node : CallerNode) : Prop :=
  normalized node.file ≠ [] ∧ (normalized node.file).head? ≠ some ['/'] ∧
    ∀ other ∈ report.nodes ord, normalized node.file <+: normalized other.file

instance (ord : HashOrder) (report : ImpactReport) (node : CallerNode) :
    Decidable (Spanning ord report node) := inferInstanceAs (Decidable (_ ∧ _ ∧ _))

theorem readColumns_eq_iff {path : Text} :
    readColumns pre node = node.columns path ↔
      push (display pre) (stripPrefixDisplay (normalized node.file) pre) = path := by
  unfold readColumns CallerNode.columns
  rw [Columns.mk.injEq]
  simp only [and_true]

theorem mem_nodes : node ∈ report.nodes ord ↔
    ∃ target ∈ report.sortedTargets ord, node ∈ target.2.values := by
  unfold ImpactReport.nodes ImpactReport.sortedTargets
  rw [List.mem_flatMap]
  refine exists_congr fun target => ?_
  rw [List.mem_insertionSort]

theorem lossless_iff_forall : Lossless ord report ↔ ∀ node ∈ report.nodes ord,
    push (display (report.pathPrefix ord))
      (stripPrefixDisplay (normalized node.file) (report.pathPrefix ord)) =
        display (normalized node.file) := by
  unfold Lossless
  rw [readImpactCompact_format, List.map_inj_left]
  simp only [Prod.mk.injEq, true_and, List.cons.injEq, and_true, RoseTree.map_eq_map_iff,
    readColumns_eq_iff, mem_nodes, forall_exists_index, and_imp]
  exact ⟨fun h node target htarget hnode => h target htarget node hnode,
    fun h target htarget node hnode => h node target htarget hnode⟩

theorem parent_eq_nil_or_ne (path : List Text) : parent path = [] ∨ path ≠ parent path := by
  unfold parent
  split_ifs with hroot
  · exact .inl rfl
  · cases path using List.reverseRecOn with
    | nil => exact .inl rfl
    | append_singleton path name =>
      rw [List.dropLast_concat]
      exact .inr (by simp)

theorem parent_isPrefix (path : List Text) : parent path <+: path := by
  unfold parent
  split_ifs
  · exact List.nil_prefix
  · exact List.dropLast_prefix path

/-- **The answer is lossless** if it has at most one node, or no node lies in a file at whose
relative path all the paths begin. -/
theorem lossless_iff (ord : HashOrder) (report : ImpactReport) :
    Lossless ord report ↔
      (report.nodes ord).length ≤ 1 ∨ ∀ node ∈ report.nodes ord, ¬ Spanning ord report node := by
  rw [lossless_iff_forall]
  rcases Nat.lt_or_ge 1 (report.nodes ord).length with hlength | hlength
  · have hpaths : 2 ≤ ((report.nodes ord).map fun node => normalized node.file).length := by
      rw [List.length_map]
      exact hlength
    have hpre : ∀ {pre : List Text}, pre <+: report.pathPrefix ord ↔
        ∀ node ∈ report.nodes ord, pre <+: normalized node.file := by
      intro pre
      unfold ImpactReport.pathPrefix
      rw [prefix_commonPathPrefix_iff hpaths, List.forall_mem_map]
    rw [or_iff_right (by omega)]
    refine forall_congr' fun node => forall_congr' fun hnode => ?_
    have hnodepre : report.pathPrefix ord <+: normalized node.file :=
      hpre.1 List.prefix_rfl node hnode
    rw [push_stripPrefixDisplay_iff (components_normalized node.file) hnodepre]
    unfold Spanning
    rw [← hpre]
    constructor
    · rintro (hnil | hne | hroot) ⟨hnonempty, hrelative, hspan⟩
      · rw [hnil] at hspan
        exact hnonempty (List.prefix_nil.1 hspan)
      · exact hne (hspan.eq_of_length_le hnodepre.length_le)
      · exact hrelative hroot
    · intro hnot
      by_contra hall
      push Not at hall
      obtain ⟨hnil, heq, hrelative⟩ := hall
      apply hnot
      refine ⟨?_, hrelative, ?_⟩
      · rwa [heq]
      · rw [heq]
  · refine iff_of_true ?_ (.inl hlength)
    intro node hnode
    have hone : report.nodes ord = [node] := by
      obtain ⟨first, hfirst⟩ : ∃ first, report.nodes ord = [first] := by
        apply List.length_eq_one_iff.1
        have := List.length_pos_of_mem hnode
        omega
      rw [hfirst] at hnode ⊢
      rw [List.mem_singleton.1 hnode]
    have hshared : report.pathPrefix ord = parent (normalized node.file) := by
      unfold ImpactReport.pathPrefix
      rw [hone]
      rfl
    rw [hshared, push_stripPrefixDisplay_iff (components_normalized node.file) (parent_isPrefix _)]
    cases parent_eq_nil_or_ne (normalized node.file) with
    | inl hnil => exact .inl hnil
    | inr hne => exact .inr (.inl hne)

def oneFile : ImpactReport where
  targets := ⟨[⟨"parse".toList,
    .node ⟨"parse".toList, "lib.rs".toList, 1, false, none, none, none⟩
      [.node ⟨"main".toList, "lib.rs".toList, 0, false, none, none, none⟩ []]⟩], by
    exact List.nodup_singleton _⟩
  totalTargets := 1

/-- The file of a function and its caller is read as a file in itself. -/
theorem not_lossless_oneFile : ¬ Lossless .insertion oneFile := by
  rw [lossless_iff_forall]
  decide +kernel

end TldrCode.Output
