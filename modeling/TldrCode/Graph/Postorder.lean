import TldrCode.Graph.Walk
import Mathlib.Data.List.Nodup

/-!
# Depth-first postorder

A depth-first search over a successor function, with the nodes it has visited and those it has
finished, in order. The recursion is bounded by `fuel`; `mem_dfs_root` says that with as much fuel
as there are nodes the search finishes exactly the nodes that are reached, each once.
-/

namespace TldrCode.Graph

variable {α : Type*} [DecidableEq α]

/-- Depth-first search from a node, given the nodes visited and the nodes finished. -/
def dfs (succ : α → List α) : Nat → α → List α × List α → List α × List α
  | 0, _, state => state
  | fuel + 1, x, (visited, postorder) =>
    if x ∈ visited then (visited, postorder)
    else
      let (visited, postorder) := (succ x).foldl (fun state y => dfs succ fuel y state)
        (x :: visited, postorder)
      (visited, postorder ++ [x])

variable {succ : α → List α} {nodes visited postorder : List α} {x y : α} {state : List α × List α}

/-- What a part of the search has done: it has finished the nodes `new`, all of them reached from
`roots`, and left none of their successors unvisited. -/
structure DfsStep (succ : α → List α) (roots : List α) (state state' : List α × List α)
    (new : List α) : Prop where
  postorder : state'.2 = state.2 ++ new
  visited : ∀ y, y ∈ state'.1 ↔ y ∈ state.1 ∨ y ∈ new
  nodup : new.Nodup
  fresh : ∀ y ∈ new, y ∉ state.1
  roots_mem : ∀ x ∈ roots, x ∈ state'.1
  reach : ∀ y ∈ new, ∃ x ∈ roots, Reach (fun a b => b ∈ succ a) x y
  closed : ∀ y ∈ new, ∀ z ∈ succ y, z ∈ state'.1

def unvisited (nodes visited : List α) : Nat := (nodes.filter (· ∉ visited)).length

theorem unvisited_le {visited' : List α} (h : ∀ y ∈ visited, y ∈ visited') :
    unvisited nodes visited' ≤ unvisited nodes visited := by
  refine (List.Sublist.length_le (List.monotone_filter_right nodes fun y hy => ?_))
  simp only [decide_eq_true_eq] at hy ⊢
  exact fun hv => hy (h y hv)

theorem unvisited_cons_lt (hx : x ∈ nodes) (hv : x ∉ visited) :
    unvisited nodes (x :: visited) < unvisited nodes visited := by
  have hsub : nodes.filter (· ∉ x :: visited) =
      (nodes.filter (· ∉ visited)).filter (· ≠ x) := by
    rw [List.filter_filter]
    refine List.filter_congr fun y _ => ?_
    simp [not_or]
  rw [unvisited, hsub, unvisited]
  refine List.length_filter_lt_length_iff_exists.2 ⟨x, List.mem_filter.2 ⟨hx, ?_⟩, ?_⟩ <;>
    simp [hv]

theorem dfs_foldl {fuel : Nat}
    (ih : ∀ x state, x ∈ nodes → unvisited nodes state.1 < fuel →
      ∃ new, DfsStep succ [x] state (dfs succ fuel x state) new) (roots : List α) :
    ∀ state : List α × List α, (∀ x ∈ roots, x ∈ nodes) → unvisited nodes state.1 < fuel →
      ∃ new, DfsStep succ roots state
        (roots.foldl (fun state y => dfs succ fuel y state) state) new := by
  induction roots with
  | nil => exact fun state _ _ =>
      ⟨[], by simp, by simp, by simp, by simp, by simp, by simp, by simp⟩
  | cons x roots ihr =>
    intro state hroots hfuel
    obtain ⟨new₁, h₁⟩ := ih x state (hroots x List.mem_cons_self) hfuel
    have hmono : ∀ y ∈ state.1, y ∈ (dfs succ fuel x state).1 :=
      fun y hy => (h₁.visited y).2 (.inl hy)
    obtain ⟨new₂, h₂⟩ := ihr _ (fun y hy => hroots y (List.mem_cons_of_mem _ hy))
      (lt_of_le_of_lt (unvisited_le hmono) hfuel)
    refine ⟨new₁ ++ new₂, ?_, fun y => ?_, ?_, ?_, ?_, ?_, ?_⟩
    · rw [List.foldl_cons, h₂.postorder, h₁.postorder, List.append_assoc]
    · rw [List.foldl_cons, h₂.visited, h₁.visited, List.mem_append, or_assoc]
    · refine List.nodup_append.2 ⟨h₁.nodup, h₂.nodup, ?_⟩
      rintro y hy₁ z hz rfl
      exact h₂.fresh y hz ((h₁.visited y).2 (.inr hy₁))
    · intro y hy
      rcases List.mem_append.1 hy with hy | hy
      · exact h₁.fresh y hy
      · exact fun hv => h₂.fresh y hy (hmono y hv)
    · intro y hy
      rcases List.mem_cons.1 hy with rfl | hy
      · exact (h₂.visited y).2 (.inl (h₁.roots_mem y (List.mem_singleton_self y)))
      · exact h₂.roots_mem y hy
    · intro y hy
      rcases List.mem_append.1 hy with hy | hy
      · obtain ⟨z, hz, hr⟩ := h₁.reach y hy
        exact ⟨x, List.mem_cons_self, List.mem_singleton.1 hz ▸ hr⟩
      · obtain ⟨z, hz, hr⟩ := h₂.reach y hy
        exact ⟨z, List.mem_cons_of_mem _ hz, hr⟩
    · intro y hy z hz
      rcases List.mem_append.1 hy with hy | hy
      · exact (h₂.visited z).2 (.inl (h₁.closed y hy z hz))
      · exact h₂.closed y hy z hz

/-- **One search**, by induction on the fuel. -/
theorem dfs_step (hclosed : ∀ x ∈ nodes, ∀ y ∈ succ x, y ∈ nodes) : ∀ (fuel : Nat) (x : α)
    (state : List α × List α), x ∈ nodes → unvisited nodes state.1 < fuel →
      ∃ new, DfsStep succ [x] state (dfs succ fuel x state) new := by
  intro fuel
  induction fuel with
  | zero => exact fun _ _ _ h => absurd h (Nat.not_lt_zero _)
  | succ fuel ih =>
    rintro x ⟨visited, postorder⟩ hx hfuel
    by_cases hv : x ∈ visited
    · rw [dfs, if_pos hv]
      exact ⟨[], by simp, by simp, by simp, by simp, by simpa using hv, by simp, by simp⟩
    · have hfuel' : unvisited nodes (x :: visited) < fuel :=
        Nat.lt_of_lt_of_le (unvisited_cons_lt hx hv) (Nat.lt_succ_iff.1 hfuel)
      obtain ⟨new, h⟩ := dfs_foldl ih (succ x) (x :: visited, postorder) (hclosed x hx) hfuel'
      rw [dfs, if_neg hv]
      generalize (succ x).foldl (fun state y => dfs succ fuel y state) (x :: visited, postorder) =
        state' at h ⊢
      obtain ⟨visited', postorder'⟩ := state'
      have hxnew : x ∉ new := fun hn => h.fresh x hn List.mem_cons_self
      refine ⟨new ++ [x], ?_, fun y => ?_, ?_, ?_, ?_, ?_, ?_⟩
      · have hpost : postorder' = postorder ++ new := h.postorder
        rw [hpost]
        exact List.append_assoc _ _ _
      · refine (h.visited y).trans ?_
        simp only [List.mem_cons, List.mem_append, List.not_mem_nil, or_false]
        tauto
      · exact List.nodup_append.2 ⟨h.nodup, List.nodup_singleton x, fun y hy z hz hyz =>
          hxnew (List.mem_singleton.1 hz ▸ hyz ▸ hy)⟩
      · intro y hy hyv
        rcases List.mem_append.1 hy with hy | hy
        · exact h.fresh y hy (List.mem_cons_of_mem _ hyv)
        · exact hv (List.mem_singleton.1 hy ▸ hyv)
      · intro y hy
        obtain rfl := List.mem_singleton.1 hy
        exact (h.visited y).2 (.inl List.mem_cons_self)
      · intro y hy
        refine ⟨x, List.mem_singleton_self x, ?_⟩
        rcases List.mem_append.1 hy with hy | hy
        · obtain ⟨z, hz, hr⟩ := h.reach y hy
          exact (Reach.edge hz).trans hr
        · rw [List.mem_singleton.1 hy]
          exact .refl x
      · intro y hy z hz
        rcases List.mem_append.1 hy with hy | hy
        · exact h.closed y hy z hz
        · obtain rfl := List.mem_singleton.1 hy
          exact h.roots_mem z hz

/-- **A search from the start** finishes the nodes that are reached, each once. -/
theorem dfs_root (hclosed : ∀ x ∈ nodes, ∀ y ∈ succ x, y ∈ nodes) (hx : x ∈ nodes) {fuel : Nat}
    (hfuel : nodes.length < fuel) : (dfs succ fuel x ([], [])).2.Nodup ∧
      ∀ y, y ∈ (dfs succ fuel x ([], [])).2 ↔ Reach (fun a b => b ∈ succ a) x y := by
  obtain ⟨new, h⟩ := dfs_step hclosed fuel x ([], []) hx (by simpa [unvisited] using hfuel)
  have hpost : (dfs succ fuel x ([], [])).2 = new := h.postorder
  have hvis : ∀ y, y ∈ (dfs succ fuel x ([], [])).1 ↔ y ∈ new := fun y => by simp [h.visited]
  rw [hpost]
  refine ⟨h.nodup, fun y => ⟨fun hy => ?_, fun hr => ?_⟩⟩
  · obtain ⟨z, hz, hr⟩ := h.reach y hy
    exact List.mem_singleton.1 hz ▸ hr
  · have hroot : x ∈ new := (hvis x).1 (h.roots_mem x (List.mem_singleton_self x))
    exact hr.induct (P := (· ∈ new)) hroot fun a b _ he ha => (hvis b).1 (h.closed a ha b he)

end TldrCode.Graph
