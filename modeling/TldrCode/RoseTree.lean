import Mathlib.Data.List.Basic

/-!
# Trees by depths

Trees whose nodes have any number of children, in preorder with the depths of the nodes. The trees
are found again from that (`rebuild_preorder`).
-/

namespace TldrCode

inductive RoseTree (α : Type*) where
  | node (value : α) (children : List (RoseTree α))

namespace RoseTree

variable {α β : Type*}

mutual

/-- The nodes of a tree with their depths, each before its children. -/
def preorder (depth : Nat) : RoseTree α → List (Nat × α)
  | node value children => (depth, value) :: preorders (depth + 1) children

def preorders (depth : Nat) : List (RoseTree α) → List (Nat × α)
  | [] => []
  | tree :: trees => preorder depth tree ++ preorders depth trees

end

mutual

def map (f : α → β) : RoseTree α → RoseTree β
  | node value children => node (f value) (maps f children)

def maps (f : α → β) : List (RoseTree α) → List (RoseTree β)
  | [] => []
  | tree :: trees => map f tree :: maps f trees

end

def values (tree : RoseTree α) : List α := (preorder 0 tree).map (·.2)

/-- The trees of nodes in preorder, read from the last node to the first: the trees at the front
that are one deeper are the children of a node. -/
def rebuild (rows : List (Nat × α)) : List (Nat × RoseTree α) :=
  rows.foldr (fun row trees =>
    (row.1, node row.2 ((trees.takeWhile (·.1 = row.1 + 1)).map (·.2))) ::
      trees.dropWhile (·.1 = row.1 + 1)) []

variable {tree : RoseTree α} {trees : List (RoseTree α)} {rows : List (Nat × α)} {depth : Nat}

theorem rebuild_cons (row : Nat × α) (rows : List (Nat × α)) : rebuild (row :: rows) =
    (row.1, node row.2 (((rebuild rows).takeWhile (·.1 = row.1 + 1)).map (·.2))) ::
      (rebuild rows).dropWhile (·.1 = row.1 + 1) := rfl

mutual

theorem rebuild_preorder_append (tree : RoseTree α) (depth : Nat) (rows : List (Nat × α))
    (h : ∀ e ∈ (rebuild rows).head?, e.1 ≤ depth) :
    rebuild (preorder depth tree ++ rows) = (depth, tree) :: rebuild rows := by
  cases tree with
  | node value children =>
    have hnone : ∀ e ∈ (rebuild rows).head?, e.1 ≠ depth + 1 := fun e he => by
      have := h e he
      omega
    have hchildren : rebuild (preorders (depth + 1) children ++ rows) =
        children.map (fun child => (depth + 1, child)) ++ rebuild rows :=
      rebuild_preorders_append children (depth + 1) rows fun e he => Nat.le_succ_of_le (h e he)
    unfold preorder
    rw [List.cons_append, rebuild_cons, hchildren]
    have htake : (rebuild rows).takeWhile (fun e => e.1 = depth + 1) = [] := by
      cases hrows : rebuild rows with
      | nil => rfl
      | cons e trees => exact List.takeWhile_cons_of_neg (by simpa using hnone e (by simp [hrows]))
    have hdrop : (rebuild rows).dropWhile (fun e => e.1 = depth + 1) = rebuild rows := by
      cases hrows : rebuild rows with
      | nil => rfl
      | cons e trees => exact List.dropWhile_cons_of_neg (by simpa using hnone e (by simp [hrows]))
    have hall : ∀ e ∈ children.map (fun child => (depth + 1, child)),
        decide (e.1 = depth + 1) = true := by simp
    rw [List.takeWhile_append_of_pos hall, List.dropWhile_append_of_pos hall, htake, hdrop,
      List.append_nil, List.map_map]
    have hid : children.map ((fun e : Nat × RoseTree α => e.2) ∘ fun child => (depth + 1, child)) =
        children := List.map_id children
    rw [hid]

theorem rebuild_preorders_append (trees : List (RoseTree α)) (depth : Nat) (rows : List (Nat × α))
    (h : ∀ e ∈ (rebuild rows).head?, e.1 ≤ depth) :
    rebuild (preorders depth trees ++ rows) =
      trees.map (fun tree => (depth, tree)) ++ rebuild rows := by
  cases trees with
  | nil => rfl
  | cons tree trees =>
    have htrees : rebuild (preorders depth trees ++ rows) =
        trees.map (fun tree => (depth, tree)) ++ rebuild rows :=
      rebuild_preorders_append trees depth rows h
    unfold preorders
    rw [List.append_assoc, rebuild_preorder_append tree depth, htrees]
    · rfl
    · rw [htrees]
      cases trees with
      | nil => exact h
      | cons => simp

end

/-- **A tree is found again.** -/
theorem rebuild_preorder (tree : RoseTree α) (depth : Nat) :
    rebuild (preorder depth tree) = [(depth, tree)] := by
  have h : rebuild (preorder depth tree ++ []) = (depth, tree) :: rebuild [] := by
    apply rebuild_preorder_append
    simp [rebuild]
  rwa [List.append_nil] at h

mutual

theorem preorder_map (f : α → β) (depth : Nat) (tree : RoseTree α) :
    preorder depth (map f tree) = (preorder depth tree).map fun row => (row.1, f row.2) := by
  cases tree with
  | node value children =>
    unfold map preorder
    rw [List.map_cons, preorders_maps]

theorem preorders_maps (f : α → β) (depth : Nat) (trees : List (RoseTree α)) :
    preorders depth (maps f trees) = (preorders depth trees).map fun row => (row.1, f row.2) := by
  cases trees with
  | nil => rfl
  | cons tree trees =>
    unfold maps preorders
    rw [List.map_append, preorder_map, preorders_maps]

end

theorem values_map (f : α → β) (tree : RoseTree α) : values (map f tree) = (values tree).map f := by
  unfold values
  rw [preorder_map, List.map_map, List.map_map]
  rfl

theorem map_eq_map_iff {f g : α → β} : map f tree = map g tree ↔ ∀ a ∈ values tree, f a = g a := by
  constructor
  · intro h
    have hvalues : (values tree).map f = (values tree).map g := by
      rw [← values_map, ← values_map, h]
    exact fun a ha => List.map_inj_left.1 hvalues a ha
  · intro h
    have hpreorder : preorder 0 (map f tree) = preorder 0 (map g tree) := by
      rw [preorder_map, preorder_map]
      refine List.map_congr_left fun row hrow => ?_
      rw [h row.2 (List.mem_map_of_mem hrow)]
    have hrebuild := congrArg rebuild hpreorder
    rw [rebuild_preorder, rebuild_preorder] at hrebuild
    simpa using hrebuild

end RoseTree

end TldrCode
