import TldrCode.Dataflow.Types
import TldrCode.Dfg.ReachingRpo
import TldrCode.Graph.DepthFirst

/-!
# The order of the blocks

Two functions order the blocks of a control flow graph: `reverse_postorder` of the dataflow
analyses, which keeps a stack of its own, and `compute_rpo` of the data flow graph, which recurses.
They return the same sequence (`reversePostorder_eq_computeRpo`).
-/

namespace TldrCode.Dfg

open Dataflow TldrCode.Graph

variable {cfg : CfgInfo} {a b : Nat}

def Acyclic (cfg : CfgInfo) : Prop := ∀ a b, cfg.Edge a b → ¬ Reach cfg.Edge b a

/-- `a` is somewhere before `b` in the list. -/
def Before (l : List Nat) (a b : Nat) : Prop := ∃ l₁ l₂ l₃, l = l₁ ++ a :: l₂ ++ b :: l₃

/-- What an order of the blocks is for: it consists of the blocks that are reached, each once, from
the entry on, and follows the edges where these close no cycle. -/
structure IsForwardOrder (cfg : CfgInfo) (order : List Nat) : Prop where
  nodup : order.Nodup
  mem : ∀ b, b ∈ order ↔ cfg.Reachable b
  head : order.head? = some cfg.entryBlock
  follows : Acyclic cfg → ∀ a b, cfg.Edge a b → a ∈ order → Before order a b

/-- The nodes that a search from the entry can come to. -/
def searchNodes (cfg : CfgInfo) : List Nat := cfg.entryBlock :: cfg.edges.map (·.toBlock)

theorem mem_searchNodes_of_mem_successors : ∀ x ∈ searchNodes cfg, ∀ y ∈ cfg.successors x,
    y ∈ searchNodes cfg := by
  intro x _ y hy
  obtain ⟨e, he, -, rfl⟩ := CfgInfo.mem_successors.1 hy
  exact List.mem_cons_of_mem _ (List.mem_map_of_mem he)

theorem length_searchNodes_lt (cfg : CfgInfo) :
    (searchNodes cfg).length < cfg.edges.length + 2 := by
  simp [searchNodes]

theorem successors_eq_targets (cfg : CfgInfo) :
    cfg.successors = targets (cfg.edges.map fun e => (e.fromBlock, e.toBlock)) := by
  funext b
  simp only [CfgInfo.successors, targets, List.filter_map, List.map_map]
  rfl

theorem reversePostorder_eq (h : cfg.blocks ≠ []) : reversePostorder cfg = computeRpo cfg := by
  have hclosed : ∀ x ∈ searchNodes cfg, ∀ y ∈ cfg.successors x, y ∈ searchNodes cfg :=
    mem_searchNodes_of_mem_successors
  rw [successors_eq_targets] at hclosed
  have heq := stackDfs_eq_dfs hclosed List.mem_cons_self (length_searchNodes_lt cfg)
  rw [← successors_eq_targets] at heq
  unfold reversePostorder computeRpo
  rw [if_neg (by simpa using h)]
  exact congrArg List.reverse heq

theorem before_reverse {l : List Nat} (h : SuccessorsFirst cfg.successors l)
    (he : cfg.Edge a b) (ha : a ∈ l) : Before l.reverse a b := by
  obtain ⟨l₁, l₂, rfl⟩ := List.append_of_mem ha
  have hb := h l₁ a l₂ rfl b (CfgInfo.mem_successors.2 he)
  obtain ⟨l₃, l₄, rfl⟩ := List.append_of_mem hb
  exact ⟨l₂.reverse, l₄.reverse, l₃.reverse, by simp⟩

theorem isForwardOrder_computeRpo (cfg : CfgInfo) : IsForwardOrder cfg (computeRpo cfg) where
  nodup := (computeRpo_spec cfg).1
  mem := (computeRpo_spec cfg).2
  head := by
    have hlast : ∃ l, (dfs cfg.successors (cfg.edges.length + 2) cfg.entryBlock ([], [])).2 =
        l ++ [cfg.entryBlock] := dfs_root_eq (cfg.edges.length + 1) cfg.entryBlock
    obtain ⟨l, hl⟩ := hlast
    unfold computeRpo
    rw [hl, List.reverse_append]
    rfl
  follows := by
    intro hacyclic a b he ha
    have hedge : (fun a b => b ∈ cfg.successors a) = cfg.Edge := by
      funext a b
      exact propext CfgInfo.mem_successors
    have hord := dfs_ordered mem_searchNodes_of_mem_successors List.mem_cons_self
      (fun x y hy => by
        rw [hedge]
        exact hacyclic x y (CfgInfo.mem_successors.1 hy)) (length_searchNodes_lt cfg)
    exact before_reverse hord he (List.mem_reverse.1 ha)

/-- `reverse_postorder` and `compute_rpo` return the same sequence of a graph with blocks: the
blocks that are reached, each once, from the entry on, and along the edges where these close no
cycle. -/
theorem reversePostorder_eq_computeRpo (cfg : CfgInfo) (h : cfg.blocks ≠ []) :
    reversePostorder cfg = computeRpo cfg ∧ IsForwardOrder cfg (reversePostorder cfg) := by
  rw [reversePostorder_eq h]
  exact ⟨rfl, isForwardOrder_computeRpo cfg⟩

/-- A branch whose sides meet. -/
theorem reversePostorder_eq_computeRpo_branch :
    IsForwardOrder ⟨"f", [⟨0, 1, 1⟩, ⟨1, 2, 2⟩, ⟨2, 3, 3⟩, ⟨3, 4, 4⟩],
      [⟨0, 1⟩, ⟨0, 2⟩, ⟨1, 3⟩, ⟨2, 3⟩], 0, [3]⟩ [0, 2, 1, 3] := by
  have h := reversePostorder_eq_computeRpo ⟨"f", [⟨0, 1, 1⟩, ⟨1, 2, 2⟩, ⟨2, 3, 3⟩, ⟨3, 4, 4⟩],
    [⟨0, 1⟩, ⟨0, 2⟩, ⟨1, 3⟩, ⟨2, 3⟩], 0, [3]⟩ (by decide)
  have heval : reversePostorder ⟨"f", [⟨0, 1, 1⟩, ⟨1, 2, 2⟩, ⟨2, 3, 3⟩, ⟨3, 4, 4⟩],
      [⟨0, 1⟩, ⟨0, 2⟩, ⟨1, 3⟩, ⟨2, 3⟩], 0, [3]⟩ = [0, 2, 1, 3] := by decide
  rw [← heval]
  exact h.2

end TldrCode.Dfg
