import Mathlib.Data.List.Dedup
import TldrCode.Dataflow.Text
import TldrCode.Pdg.Slice

/-!
# Chops

`compute_chop` of `contracts/chop.rs`. A forward and a backward slice are sets of nodes, but the
chop intersects the lines that they cover. Whether there is a path is decided exactly; the lines are
those of the nodes on the paths exactly if no line is shared by a node that the source reaches and a
node that reaches the target without a node on a path over it (`computeChop_isChop_iff`).
-/

namespace TldrCode.Pdg

open TldrCode.Graph
open TldrCode.Dataflow (containsText)

structure ChopResult where
  file : String
  lines : List Nat
  count : Nat
  lineCount : Nat
  sourceLine : Nat
  targetLine : Nat
  pathExists : Bool
  function : String
  explanation : Option String
  deriving DecidableEq, Repr

inductive ContractsError where
  | functionNotFound (function file : String)
  | lineOutsideFunction (line : Nat) (function : String) (start stop : Nat)
  | parseError (file message : String)
  deriving DecidableEq, Repr

def ChopResult.sameLine (line : Nat) (function : String) : ChopResult where
  file := ""
  lines := [line]
  count := 1
  lineCount := 1
  sourceLine := line
  targetLine := line
  pathExists := true
  function
  explanation := some s!"Source and target are the same line ({line})."

def ChopResult.noPath (source target : Nat) (function : String) : ChopResult where
  file := ""
  lines := []
  count := 0
  lineCount := 0
  sourceLine := source
  targetLine := target
  pathExists := false
  function
  explanation := some (s!"No dependency path from line {source} to line {target}. " ++
    "The source line does not affect the target line.")

/-- The lines of a node: `node.lines.0..=node.lines.1`, without line 0. -/
def PdgNode.linesOf (node : PdgNode) : List Nat :=
  (List.range' node.lines.1 (node.lines.2 + 1 - node.lines.1)).filter (0 < ·)

def nodesToLines (pdg : PdgInfo) (nodeIds : List Nat) : List Nat :=
  (nodeIds.flatMap fun id => match pdg.nodes.find? (·.id == id) with
    | some node => node.linesOf
    | none => []).dedup

/-- `get_slice`, with what `get_pdg_context` returns. -/
def getSlice (context : Except String PdgInfo) (line : Nat) (direction : SliceDirection)
    (var : Option String) : Except String (List Nat) :=
  context.map fun pdg =>
    let startNodes := findNodesForLine pdg line
    if startNodes.isEmpty then [] else nodesToLines pdg (computeSlice pdg startNodes direction var)

/-- `line_outside_with_bounds`, with what `resolve_fn_bounds` returns. -/
def lineOutsideWithBounds (bounds : Option (Nat × Nat)) (line : Nat) (function source : String) :
    ContractsError :=
  match bounds with
  | some (start, stop) =>
    if start ≤ line ∧ line ≤ stop then
      .parseError source (s!"line {line} is within function '{function}' (lines {start}-{stop}) " ++
        "but no PDG node is anchored there (likely a brace, comment, or part of a " ++
        "multi-line statement attributed to a neighbouring line)")
    else .lineOutsideFunction line function start stop
  | none =>
    .parseError source s!"could not determine function bounds for '{function}' in source"

def mentions (error text : String) : Bool := containsText text.toList error.toList

def computeChop (context : Except String PdgInfo) (bounds : Option (Nat × Nat))
    (source function : String) (sourceLine targetLine : Nat) : Except ContractsError ChopResult :=
  let outside := fun line => lineOutsideWithBounds bounds line function source
  if sourceLine = targetLine then .ok (.sameLine sourceLine function)
  else if sourceLine = 0 then .error (outside sourceLine)
  else if targetLine = 0 then .error (outside targetLine)
  else match getSlice context sourceLine .forward none with
    | .error e =>
      if mentions e "not found" || mentions e "Function" then
        .error (.functionNotFound function source)
      else if mentions e "outside" || mentions e "line" then .error (outside sourceLine)
      else .error (.parseError source e)
    | .ok forward =>
      if forward.isEmpty then .error (outside sourceLine)
      else match getSlice context targetLine .backward none with
        | .error e =>
          if mentions e "outside" || mentions e "line" then .error (outside targetLine)
          else .error (.parseError source e)
        | .ok backward =>
          if backward.isEmpty then .error (outside targetLine)
          else if sourceLine ∉ backward then .ok (.noPath sourceLine targetLine function)
          else
            let lines := (forward.filter (· ∈ backward)).mergeSort (· ≤ ·)
            .ok {
              file := source
              lines
              count := lines.length
              lineCount := lines.length
              sourceLine
              targetLine
              pathExists := true
              function
              explanation := some (s!"Found {lines.length} lines on the dependency path from " ++
                s!"line {sourceLine} to line {targetLine}.") }

/-! ## Dependency paths -/

variable {pdg : PdgInfo} {context : Except String PdgInfo} {bounds : Option (Nat × Nat)}
  {source function : String} {s t line x : Nat} {node : PdgNode}
  {direction : SliceDirection} {lines : List Nat} {result : ChopResult}

def PdgNode.Covers (node : PdgNode) (line : Nat) : Prop :=
  node.lines.1 ≤ line ∧ line ≤ node.lines.2

/-- A node over line `s` reaches `x`. -/
def PdgInfo.ReachedFrom (pdg : PdgInfo) (s x : Nat) : Prop :=
  ∃ a ∈ findNodesForLine pdg s, Reach (pdg.Admitted none) a x

/-- `x` reaches a node over line `t`. -/
def PdgInfo.Reaches (pdg : PdgInfo) (x t : Nat) : Prop :=
  ∃ b ∈ findNodesForLine pdg t, Reach (pdg.Admitted none) x b

/-- `x` lies on a dependency path from a node over line `s` to a node over line `t`. -/
def PdgInfo.OnPath (pdg : PdgInfo) (s t x : Nat) : Prop :=
  ∃ a ∈ findNodesForLine pdg s, ∃ b ∈ findNodesForLine pdg t, ∃ l,
    Walk (pdg.Admitted none) a b l ∧ x ∈ l

/-- The result tells whether there is a dependency path between the lines, and which lines, counted
from 1, the nodes on the paths cover. -/
structure IsChop (pdg : PdgInfo) (s t : Nat) (result : ChopResult) : Prop where
  pathExists : result.pathExists ↔ ∃ a ∈ findNodesForLine pdg s, ∃ b ∈ findNodesForLine pdg t,
    Reach (pdg.Admitted none) a b
  sorted : result.pathExists → result.lines.Pairwise (· < ·)
  ends : result.pathExists → s ∈ result.lines ∧ t ∈ result.lines
  mem_lines : result.pathExists → ∀ line, line ∈ result.lines ↔
    0 < line ∧ ∃ node ∈ pdg.nodes, node.Covers line ∧ pdg.OnPath s t node.id

theorem onPath_iff : pdg.OnPath s t x ↔ pdg.ReachedFrom s x ∧ pdg.Reaches x t := by
  constructor
  · rintro ⟨a, ha, b, hb, l, w, hx⟩
    obtain ⟨l₁, l₂, rfl⟩ := List.append_of_mem hx
    obtain ⟨w₁, w₂⟩ := Walk.split_iff.1 w
    exact ⟨⟨a, ha, _, w₁⟩, b, hb, _, w₂⟩
  · rintro ⟨⟨a, ha, l, w₁⟩, b, hb, l', w₂⟩
    obtain ⟨l₁, rfl⟩ := w₁.eq_concat
    obtain ⟨l₂, rfl⟩ := w₂.eq_cons
    exact ⟨a, ha, b, hb, _, w₁.append w₂, by simp⟩

theorem mem_findNodesForLine_iff :
    x ∈ findNodesForLine pdg line ↔ ∃ node ∈ pdg.nodes, node.Covers line ∧ node.id = x := by
  simp [findNodesForLine, PdgNode.Covers, and_assoc]

theorem mem_linesOf : line ∈ node.linesOf ↔ 0 < line ∧ node.Covers line := by
  simp only [PdgNode.linesOf, PdgNode.Covers, List.mem_filter, List.mem_range'_1,
    decide_eq_true_eq]
  omega

theorem find?_node (hids : (pdg.nodes.map (·.id)).Nodup) (hnode : node ∈ pdg.nodes) :
    pdg.nodes.find? (·.id == node.id) = some node := by
  cases hfind : pdg.nodes.find? (·.id == node.id) with
  | none => simpa using List.find?_eq_none.1 hfind node hnode
  | some other =>
    have hid : other.id = node.id := by simpa using List.find?_some hfind
    exact congrArg some (List.inj_on_of_nodup_map hids (List.mem_of_find?_eq_some hfind) hnode hid)

theorem mem_nodesToLines (hids : (pdg.nodes.map (·.id)).Nodup) {ids : List Nat} :
    line ∈ nodesToLines pdg ids ↔
      0 < line ∧ ∃ node ∈ pdg.nodes, node.Covers line ∧ node.id ∈ ids := by
  simp only [nodesToLines, List.mem_dedup, List.mem_flatMap]
  constructor
  · rintro ⟨id, hid, hline⟩
    split at hline
    · next node hfind =>
      obtain ⟨hpos, hcovers⟩ := mem_linesOf.1 hline
      obtain rfl : node.id = id := by simpa using List.find?_some hfind
      exact ⟨hpos, node, List.mem_of_find?_eq_some hfind, hcovers, hid⟩
    · cases hline
  · rintro ⟨hpos, node, hnode, hcovers, hid⟩
    refine ⟨node.id, hid, ?_⟩
    rw [find?_node hids hnode]
    exact mem_linesOf.2 ⟨hpos, hcovers⟩

theorem nodup_getSlice (h : getSlice (.ok pdg) s direction none = .ok lines) : lines.Nodup := by
  obtain rfl := Except.ok.inj h
  dsimp only
  split
  · exact List.nodup_nil
  · exact List.nodup_dedup _

theorem mem_getSlice (hids : (pdg.nodes.map (·.id)).Nodup) {var : Option String}
    (h : getSlice (.ok pdg) s direction var = .ok lines) : line ∈ lines ↔ 0 < line ∧
      ∃ node ∈ pdg.nodes, node.Covers line ∧
        node.id ∈ computeSlice pdg (findNodesForLine pdg s) direction var := by
  obtain rfl := Except.ok.inj h
  dsimp only
  split
  · next hempty =>
    rw [List.isEmpty_iff] at hempty
    refine iff_of_false List.not_mem_nil ?_
    rintro ⟨-, node, -, -, hid⟩
    rw [hempty] at hid
    obtain ⟨c, hc, -⟩ := mem_computeSlice_iff.1 hid
    cases hc
  · exact mem_nodesToLines hids

/-- **Slices of lines are dual**: a line is in the backward slice of another one if and only if that
one is in its forward slice. -/
theorem getSlice_dual (hids : (pdg.nodes.map (·.id)).Nodup) (var : Option String) (hs : 0 < s)
    (ht : 0 < t) : ∃ back front, getSlice (.ok pdg) t .backward var = .ok back ∧
      getSlice (.ok pdg) s .forward var = .ok front ∧ (s ∈ back ↔ t ∈ front) := by
  refine ⟨_, _, rfl, rfl, ?_⟩
  rw [mem_getSlice hids rfl, mem_getSlice hids rfl, and_iff_right hs, and_iff_right ht]
  simp only [mem_computeSlice_backward, mem_computeSlice_forward, mem_findNodesForLine_iff]
  constructor
  · rintro ⟨node, hnode, hcovers, _, ⟨node', hnode', hcovers', rfl⟩, hreach⟩
    exact ⟨node', hnode', hcovers', _, ⟨node, hnode, hcovers, rfl⟩, hreach⟩
  · rintro ⟨node, hnode, hcovers, _, ⟨node', hnode', hcovers', rfl⟩, hreach⟩
    exact ⟨node', hnode', hcovers', _, ⟨node, hnode, hcovers, rfl⟩, hreach⟩

theorem pairwise_lt_mergeSort (h : lines.Nodup) :
    (lines.mergeSort (· ≤ ·)).Pairwise (· < ·) := by
  have hsorted : (lines.mergeSort (· ≤ ·)).Pairwise fun a b => decide (a ≤ b) :=
    List.pairwise_mergeSort (fun a b c => by simpa using Nat.le_trans)
      (fun a b => by simpa using Nat.le_total a b) lines
  have hnodup := (List.mergeSort_perm lines (· ≤ ·)).nodup_iff.2 h
  exact (hsorted.and hnodup).imp fun ⟨hle, hne⟩ => lt_of_le_of_ne (of_decide_eq_true hle) hne

/-! ## The chop of two lines -/

/-- What a chop that is computed consists of. -/
theorem computeChop_ok (hne : s ≠ t)
    (h : computeChop (.ok pdg) bounds source function s t = .ok result) :
    0 < s ∧ 0 < t ∧ ∃ forward backward, getSlice (.ok pdg) s .forward none = .ok forward ∧
      getSlice (.ok pdg) t .backward none = .ok backward ∧
      (result.pathExists ↔ s ∈ backward) ∧
      (s ∈ backward → result.lines = (forward.filter (· ∈ backward)).mergeSort (· ≤ ·)) := by
  obtain ⟨forward, hforward⟩ : ∃ lines, getSlice (.ok pdg) s .forward none = .ok lines := ⟨_, rfl⟩
  obtain ⟨backward, hbackward⟩ : ∃ lines, getSlice (.ok pdg) t .backward none = .ok lines :=
    ⟨_, rfl⟩
  unfold computeChop at h
  rw [hforward, hbackward] at h
  dsimp only at h
  rw [if_neg hne] at h
  split at h
  · cases h
  · next hs =>
    split at h
    · cases h
    · next ht =>
      refine ⟨Nat.pos_of_ne_zero hs, Nat.pos_of_ne_zero ht, forward, backward, hforward, hbackward,
        ?_⟩
      split at h
      · cases h
      · split at h
        · cases h
        · split at h
          · next hmem =>
            obtain rfl := Except.ok.inj h
            exact ⟨iff_of_false Bool.false_ne_true hmem, fun hs => absurd hs hmem⟩
          · next hmem =>
            obtain rfl := Except.ok.inj h
            exact ⟨iff_of_true rfl (not_not.1 hmem), fun _ => rfl⟩

/-- No line is shared by a node that line `s` reaches and a node that reaches line `t` without a
node on a path over it. -/
def PdgInfo.PathsCover (pdg : PdgInfo) (s t : Nat) : Prop :=
  ∀ x ∈ pdg.nodes, ∀ y ∈ pdg.nodes, ∀ line, 0 < line → x.Covers line → y.Covers line →
    pdg.ReachedFrom s x.id → pdg.Reaches y.id t →
    ∃ node ∈ pdg.nodes, node.Covers line ∧ pdg.OnPath s t node.id

/-- **A chop is the dependency paths** exactly if there is no path or the paths cover every line
that both slices cover. -/
theorem computeChop_isChop_iff (hids : (pdg.nodes.map (·.id)).Nodup) (hne : s ≠ t)
    (h : computeChop (.ok pdg) bounds source function s t = .ok result) :
    IsChop pdg s t result ↔
      ((∃ a ∈ findNodesForLine pdg s, ∃ b ∈ findNodesForLine pdg t,
        Reach (pdg.Admitted none) a b) → pdg.PathsCover s t) := by
  obtain ⟨hs, ht, forward, backward, hforward, hbackward, hpath, hlines⟩ := computeChop_ok hne h
  have hmem_forward : ∀ line, line ∈ forward ↔
      0 < line ∧ ∃ node ∈ pdg.nodes, node.Covers line ∧ pdg.ReachedFrom s node.id := by
    intro line
    rw [mem_getSlice hids hforward]
    simp only [mem_computeSlice_forward, PdgInfo.ReachedFrom]
  have hmem_backward : ∀ line, line ∈ backward ↔
      0 < line ∧ ∃ node ∈ pdg.nodes, node.Covers line ∧ pdg.Reaches node.id t := by
    intro line
    rw [mem_getSlice hids hbackward]
    simp only [mem_computeSlice_backward, PdgInfo.Reaches]
  have hexists : s ∈ backward ↔ ∃ a ∈ findNodesForLine pdg s, ∃ b ∈ findNodesForLine pdg t,
      Reach (pdg.Admitted none) a b := by
    rw [hmem_backward]
    constructor
    · rintro ⟨-, node, hnode, hcovers, b, hb, hreach⟩
      exact ⟨node.id, mem_findNodesForLine_iff.2 ⟨node, hnode, hcovers, rfl⟩, b, hb, hreach⟩
    · rintro ⟨a, ha, b, hb, hreach⟩
      obtain ⟨node, hnode, hcovers, rfl⟩ := mem_findNodesForLine_iff.1 ha
      exact ⟨hs, node, hnode, hcovers, b, hb, hreach⟩
  have hmem : s ∈ backward → ∀ line, line ∈ result.lines ↔ line ∈ forward ∧ line ∈ backward := by
    intro hback line
    rw [hlines hback, List.mem_mergeSort, List.mem_filter, decide_eq_true_eq]
  rw [← hexists]
  constructor
  · intro hchop hback x hx y hy line hpos hcx hcy hreached hreaches
    have hline : line ∈ result.lines := (hmem hback line).2
      ⟨(hmem_forward line).2 ⟨hpos, x, hx, hcx, hreached⟩,
        (hmem_backward line).2 ⟨hpos, y, hy, hcy, hreaches⟩⟩
    exact ((hchop.mem_lines (hpath.2 hback) line).1 hline).2
  · intro hcover
    refine ⟨hpath.trans hexists, fun hp => ?_, fun hp => ?_, fun hp line => ?_⟩
    · rw [hlines (hpath.1 hp)]
      exact pairwise_lt_mergeSort ((nodup_getSlice hforward).filter _)
    · have hback := hpath.1 hp
      obtain ⟨a, ha, b, hb, hreach⟩ := hexists.1 hback
      obtain ⟨x, hx, hcx, rfl⟩ := mem_findNodesForLine_iff.1 ha
      obtain ⟨y, hy, hcy, rfl⟩ := mem_findNodesForLine_iff.1 hb
      exact ⟨(hmem hback s).2 ⟨(hmem_forward s).2 ⟨hs, x, hx, hcx, _, ha, .refl _⟩, hback⟩,
        (hmem hback t).2 ⟨(hmem_forward t).2 ⟨ht, y, hy, hcy, _, ha, hreach⟩,
          (hmem_backward t).2 ⟨ht, y, hy, hcy, _, hb, .refl _⟩⟩⟩
    · have hback := hpath.1 hp
      rw [hmem hback, hmem_forward, hmem_backward]
      constructor
      · rintro ⟨⟨hpos, x, hx, hcx, hreached⟩, -, y, hy, hcy, hreaches⟩
        exact ⟨hpos, hcover hback x hx y hy line hpos hcx hcy hreached hreaches⟩
      · rintro ⟨hpos, node, hnode, hcovers, hon⟩
        obtain ⟨hreached, hreaches⟩ := onPath_iff.1 hon
        exact ⟨⟨hpos, node, hnode, hcovers, hreached⟩, hpos, node, hnode, hcovers, hreaches⟩

/-- A statement of line 1 with an effect on the statements of lines 2 and 3, and another statement
of line 2 with an effect on that of line 3. -/
def sharedLine : PdgInfo where
  function := "f"
  cfg := ⟨"f", [], [], 0, []⟩
  dfg := ⟨⟨[]⟩, []⟩
  nodes := [⟨0, "statement", (1, 1), [], []⟩, ⟨1, "statement", (3, 3), [], []⟩,
    ⟨2, "statement", (2, 2), [], []⟩, ⟨3, "statement", (2, 2), [], []⟩]
  edges := [⟨0, 1, .data, "x"⟩, ⟨0, 2, .data, "x"⟩, ⟨3, 1, .data, "y"⟩]

theorem getSlice_dual_sharedLine : ∃ back front,
    getSlice (.ok sharedLine) 3 .backward (some "x") = .ok back ∧
      getSlice (.ok sharedLine) 1 .forward (some "x") = .ok front ∧ (1 ∈ back ↔ 3 ∈ front) :=
  getSlice_dual (by decide) (some "x") (by decide) (by decide)

theorem computeChop_isChop_iff_sharedLine : ∃ result,
    computeChop (.ok sharedLine) none "" "f" 1 3 = .ok result ∧ (IsChop sharedLine 1 3 result ↔
      ((∃ a ∈ findNodesForLine sharedLine 1, ∃ b ∈ findNodesForLine sharedLine 3,
        Reach (sharedLine.Admitted none) a b) → sharedLine.PathsCover 1 3)) := by
  obtain ⟨result, hok⟩ : ∃ result, computeChop (.ok sharedLine) none "" "f" 1 3 = .ok result :=
    ⟨_, rfl⟩
  exact ⟨result, hok, computeChop_isChop_iff (by decide) (by decide) hok⟩

instance (node : PdgNode) (line : Nat) : Decidable (node.Covers line) :=
  inferInstanceAs (Decidable (_ ∧ _))

theorem not_computeChop_isChop : ¬ ∀ (pdg : PdgInfo) (bounds : Option (Nat × Nat))
    (source function : String) (s t : Nat) (result : ChopResult),
    (pdg.nodes.map (·.id)).Nodup → s ≠ t →
    computeChop (.ok pdg) bounds source function s t = .ok result → IsChop pdg s t result := by
  intro hall
  obtain ⟨result, hok⟩ : ∃ result, computeChop (.ok sharedLine) none "" "f" 1 3 = .ok result :=
    ⟨_, rfl⟩
  have hchop := hall sharedLine none "" "f" 1 3 result (by decide) (by decide) hok
  obtain ⟨-, -, forward, backward, hforward, hbackward, hpath, hlines⟩ :=
    computeChop_ok (by decide) hok
  obtain rfl := Except.ok.inj hforward
  obtain rfl := Except.ok.inj hbackward
  have hone := hpath.2 (by decide)
  have htwo : 2 ∈ result.lines := by
    rw [hlines (by decide), List.mem_mergeSort]
    decide
  -- neither statement of line 2 is in both slices
  obtain ⟨-, node, hnode, hcovers, hon⟩ := (hchop.mem_lines hone 2).1 htwo
  obtain ⟨hreached, hreaches⟩ := onPath_iff.1 hon
  exact (by decide : ∀ node ∈ sharedLine.nodes, node.Covers 2 →
    node.id ∈ computeSlice sharedLine (findNodesForLine sharedLine 1) .forward none →
    node.id ∉ computeSlice sharedLine (findNodesForLine sharedLine 3) .backward none) node hnode
    hcovers (mem_computeSlice_forward.2 hreached) (mem_computeSlice_backward.2 hreaches)

end TldrCode.Pdg
