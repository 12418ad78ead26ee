import TldrCode.Graph.Postorder
import TldrCode.Graph.StackDfs

/-!
# The two depth-first searches agree

`stackDfs` keeps its own stack where `dfs` recurses. Both visit the same nodes in the same order: an
entry on the stack is worked off as the recursive call works off its node (`stackDfs_call`), so both
finish the same nodes in the same order (`stackDfs_eq_dfs`). Where no edge closes a cycle, a node is
finished after all its successors (`dfs_ordered`).
-/

namespace TldrCode.Graph

variable {α : Type*} [DecidableEq α] {edges : List (α × α)} {succ : α → List α}
  {nodes visited postorder : List α} {stack : List (α × Bool)} {state : List α × List α} {x y : α}
  {fuel : Nat}

/-! ## A call on the stack -/

theorem dfs_of_mem (fuel : Nat) (h : x ∈ state.1) : dfs succ fuel x state = state := by
  cases fuel with
  | zero => rfl
  | succ fuel => rw [dfs, if_pos h]

theorem mem_dfs_of_mem : ∀ (fuel : Nat) (x : α) (state : List α × List α), y ∈ state.1 →
    y ∈ (dfs succ fuel x state).1 := by
  intro fuel
  induction fuel with
  | zero => exact fun _ _ h => h
  | succ fuel ih =>
    rintro x ⟨visited, postorder⟩ h
    rw [dfs]
    split
    · exact h
    · exact List.foldlRecOn (motive := fun state : List α × List α => y ∈ state.1) _ _
        (List.mem_cons_of_mem _ h) fun state h z _ => ih z state h

theorem foldl_dfs_filter (fuel : Nat) (seen : List α) : ∀ (l : List α) (state : List α × List α),
    (∀ y ∈ seen, y ∈ state.1) → l.foldl (fun state y => dfs succ fuel y state) state =
      (l.filter (· ∉ seen)).foldl (fun state y => dfs succ fuel y state) state := by
  intro l
  induction l with
  | nil => exact fun _ _ => rfl
  | cons x l ih =>
    intro state hseen
    by_cases hx : x ∈ seen
    · rw [List.foldl_cons, dfs_of_mem fuel (hseen x hx), ih state hseen,
        List.filter_cons_of_neg (by simpa using hx)]
    · rw [List.filter_cons_of_pos (by simpa using hx), List.foldl_cons, List.foldl_cons]
      exact ih _ fun y hy => mem_dfs_of_mem fuel x state (hseen y hy)

/-- Entries on the stack are worked off as the calls are made one after the other. -/
theorem stackDfs_calls
    (ih : ∀ x state, x ∈ nodes → unvisited nodes state.1 < fuel → ∃ n, ∀ rounds stack,
      stackDfs edges (n + rounds) ((x, false) :: stack) state.1 state.2 =
        stackDfs edges rounds stack (dfs succ fuel x state).1 (dfs succ fuel x state).2) :
    ∀ (l : List α) (state : List α × List α), (∀ x ∈ l, x ∈ nodes) →
      unvisited nodes state.1 < fuel → ∃ n, ∀ rounds stack,
        stackDfs edges (n + rounds) ((l.map fun y => (y, false)) ++ stack) state.1 state.2 =
          stackDfs edges rounds stack (l.foldl (fun state y => dfs succ fuel y state) state).1
            (l.foldl (fun state y => dfs succ fuel y state) state).2 := by
  intro l
  induction l with
  | nil => exact fun state _ _ => ⟨0, fun rounds stack => by rw [Nat.zero_add]; rfl⟩
  | cons x l ihl =>
    intro state hl hfuel
    obtain ⟨n₁, h₁⟩ := ih x state (hl x List.mem_cons_self) hfuel
    have hmono : ∀ y ∈ state.1, y ∈ (dfs succ fuel x state).1 := fun y hy =>
      mem_dfs_of_mem fuel x state hy
    obtain ⟨n₂, h₂⟩ := ihl (dfs succ fuel x state) (fun y hy => hl y (List.mem_cons_of_mem _ hy))
      (lt_of_le_of_lt (unvisited_le hmono) hfuel)
    refine ⟨n₁ + n₂, fun rounds stack => ?_⟩
    rw [List.map_cons, List.cons_append, Nat.add_assoc, h₁, h₂, List.foldl_cons]

/-- **A call.** An entry on the stack is worked off as the recursive call works off its node. -/
theorem stackDfs_call (hclosed : ∀ x ∈ nodes, ∀ y ∈ targets edges x, y ∈ nodes) :
    ∀ (fuel : Nat) (x : α) (state : List α × List α), x ∈ nodes →
      unvisited nodes state.1 < fuel → ∃ n, ∀ rounds stack,
        stackDfs edges (n + rounds) ((x, false) :: stack) state.1 state.2 =
          stackDfs edges rounds stack (dfs (targets edges) fuel x state).1
            (dfs (targets edges) fuel x state).2 := by
  intro fuel
  induction fuel with
  | zero => exact fun _ _ _ h => absurd h (Nat.not_lt_zero _)
  | succ fuel ih =>
    rintro x ⟨visited, postorder⟩ hx hfuel
    by_cases hv : x ∈ visited
    · refine ⟨1, fun rounds stack => ?_⟩
      rw [dfs_of_mem _ hv, Nat.add_comm, stackDfs]
      simp only [Bool.false_eq_true, if_false]
      rw [if_pos hv]
    · have hfuel' : unvisited nodes (x :: visited) < fuel :=
        Nat.lt_of_lt_of_le (unvisited_cons_lt hx hv) (Nat.lt_succ_iff.1 hfuel)
      obtain ⟨n, hn⟩ := stackDfs_calls ih ((targets edges x).filter (· ∉ x :: visited))
        (x :: visited, postorder) (fun y hy => hclosed x hx y (List.mem_of_mem_filter hy)) hfuel'
      refine ⟨n + 2, fun rounds stack => ?_⟩
      -- the visit, the calls, and the marker
      have hrounds : n + 2 + rounds = n + (rounds + 1) + 1 := by omega
      rw [hrounds, stackDfs]
      simp only [Bool.false_eq_true, if_false]
      rw [if_neg hv, hn, ← foldl_dfs_filter fuel (x :: visited) (targets edges x) _ fun _ h => h,
        stackDfs, dfs, if_neg hv]
      simp only [if_true]

/-- **The searches agree.** -/
theorem stackDfs_eq_dfs (hclosed : ∀ x ∈ nodes, ∀ y ∈ targets edges x, y ∈ nodes) {root : α}
    (hroot : root ∈ nodes) (hfuel : nodes.length < fuel) :
    stackDfs edges (2 * edges.length + 2) [(root, false)] [] [] =
      (dfs (targets edges) fuel root ([], [])).2 := by
  obtain ⟨n, hn⟩ := stackDfs_call hclosed fuel root ([], []) hroot
    (by simpa [unvisited] using hfuel)
  have hcount : edges.countP (·.1 ∉ ([] : List α)) ≤ edges.length := List.countP_le_length
  have hbudget : stackBudget edges [(root, false)] ([] : List α) ≤ 2 * edges.length + 2 := by
    simp only [stackBudget, List.map_cons, List.map_nil, List.sum_cons, List.sum_nil, stackWeight,
      Bool.false_eq_true, if_false]
    omega
  rw [← stackDfs_add n _ _ _ _ hbudget, Nat.add_comm, hn, stackDfs_nil]

/-- **The search from a node finishes what is reached from it.** -/
theorem mem_stackDfs {root : α} :
    x ∈ stackDfs edges (2 * edges.length + 2) [(root, false)] [] [] ↔
      Reach (fun x y => (x, y) ∈ edges) root x := by
  have hclosed : ∀ x ∈ root :: edges.map (·.2), ∀ y ∈ targets edges x,
      y ∈ root :: edges.map (·.2) := fun x _ y hy =>
    List.mem_cons_of_mem _ (List.mem_map.2 ⟨_, mem_targets.1 hy, rfl⟩)
  rw [stackDfs_eq_dfs hclosed List.mem_cons_self (Nat.lt_succ_self _),
    (dfs_root hclosed List.mem_cons_self (Nat.lt_succ_self _)).2]
  simp only [mem_targets]

/-! ## Order -/

theorem dfs_root_eq (fuel : Nat) (x : α) :
    ∃ l, (dfs succ (fuel + 1) x ([], [])).2 = l ++ [x] := by
  rw [dfs, if_neg (by simp)]
  exact ⟨_, rfl⟩

def SuccessorsFirst (succ : α → List α) (l : List α) : Prop :=
  ∀ l₁ x l₂, l = l₁ ++ x :: l₂ → ∀ y ∈ succ x, y ∈ l₁

omit [DecidableEq α] in
theorem SuccessorsFirst.append_singleton {l : List α} (h : SuccessorsFirst succ l)
    (hx : ∀ y ∈ succ x, y ∈ l) : SuccessorsFirst succ (l ++ [x]) := by
  intro l₁ z l₂ heq y hy
  obtain ⟨l', rfl, hl⟩ | ⟨l', rfl, hl⟩ := List.append_eq_append_iff.1 heq
  · cases l' with
    | nil =>
      cases hl
      simpa using hx y hy
    | cons w l' => simp at hl
  · cases l' with
    | nil =>
      cases hl
      simpa using hx y hy
    | cons w l' =>
      cases hl
      exact h l₁ z l' rfl y hy

/-- What a search from `x` relies on: the nodes visited but not finished lead to `x`. -/
structure Leading (succ : α → List α) (x : α) (state : List α × List α) : Prop where
  finished : ∀ y ∈ state.2, y ∈ state.1
  leads : ∀ y ∈ state.1, y ∈ state.2 ∨ Reach (fun a b => b ∈ succ a) y x

omit [DecidableEq α] in
theorem DfsStep.leading {roots new : List α} {state' : List α × List α}
    (h : DfsStep succ roots state state' new) (hl : Leading succ x state) :
    Leading succ x state' := by
  constructor
  · intro y hy
    rw [h.postorder, List.mem_append] at hy
    exact (h.visited y).2 (hy.imp_left (hl.finished y))
  · intro y hy
    rw [h.postorder, List.mem_append]
    cases (h.visited y).1 hy with
    | inl hy => exact (hl.leads y hy).imp_left .inl
    | inr hy => exact .inl (.inr hy)

/-- **A search keeps the order**, where no edge closes a cycle. -/
theorem dfs_keeps_order (hclosed : ∀ x ∈ nodes, ∀ y ∈ succ x, y ∈ nodes)
    (hacyclic : ∀ x y, y ∈ succ x → ¬ Reach (fun a b => b ∈ succ a) y x) :
    ∀ (fuel : Nat) (x : α) (state : List α × List α), x ∈ nodes →
      unvisited nodes state.1 < fuel → Leading succ x state → SuccessorsFirst succ state.2 →
        SuccessorsFirst succ (dfs succ fuel x state).2 := by
  intro fuel
  induction fuel with
  | zero => exact fun _ _ _ h => absurd h (Nat.not_lt_zero _)
  | succ fuel ih =>
    rintro x ⟨visited, postorder⟩ hx hfuel hlead hord
    by_cases hv : x ∈ visited
    · rw [dfs_of_mem _ hv]
      exact hord
    · have hfuel' : unvisited nodes (x :: visited) < fuel :=
        Nat.lt_of_lt_of_le (unvisited_cons_lt hx hv) (Nat.lt_succ_iff.1 hfuel)
      have hlead' : Leading succ x (x :: visited, postorder) := by
        refine ⟨fun y hy => List.mem_cons_of_mem _ (hlead.finished y hy), fun y hy => ?_⟩
        cases List.mem_cons.1 hy with
        | inl hy =>
          subst hy
          exact .inr (.refl y)
        | inr hy => exact hlead.leads y hy
      -- the successors keep the order one after the other
      have hfold : ∀ (l : List α) (state : List α × List α), (∀ y ∈ l, y ∈ succ x) →
          unvisited nodes state.1 < fuel → Leading succ x state → SuccessorsFirst succ state.2 →
            SuccessorsFirst succ (l.foldl (fun state y => dfs succ fuel y state) state).2 := by
        intro l
        induction l with
        | nil => exact fun _ _ _ _ h => h
        | cons y l ihl =>
          intro state hl hfuel hlead hord
          have hy := hl y List.mem_cons_self
          have hlead_y : Leading succ y state :=
            ⟨hlead.finished, fun z hz => (hlead.leads z hz).imp_right fun hr => hr.tail hy⟩
          obtain ⟨new, hstep⟩ := dfs_step hclosed fuel y state (hclosed x hx y hy) hfuel
          refine ihl _ (fun z hz => hl z (List.mem_cons_of_mem _ hz)) ?_ (hstep.leading hlead)
            (ih y state (hclosed x hx y hy) hfuel hlead_y hord)
          exact lt_of_le_of_lt (unvisited_le fun z hz => (hstep.visited z).2 (.inl hz)) hfuel
      have hord' := hfold (succ x) (x :: visited, postorder) (fun _ h => h) hfuel' hlead' hord
      obtain ⟨new, hnew⟩ := dfs_foldl (dfs_step hclosed fuel) (succ x) (x :: visited, postorder)
        (hclosed x hx) hfuel'
      have hleading := hnew.leading hlead'
      rw [dfs, if_neg hv]
      refine hord'.append_singleton fun y hy => ?_
      exact (hleading.leads y (hnew.roots_mem y hy)).resolve_right (hacyclic x y hy)

/-- **Where no edge closes a cycle a node is finished after its successors.** -/
theorem dfs_ordered (hclosed : ∀ x ∈ nodes, ∀ y ∈ succ x, y ∈ nodes) (hx : x ∈ nodes)
    (hacyclic : ∀ x y, y ∈ succ x → ¬ Reach (fun a b => b ∈ succ a) y x)
    (hfuel : nodes.length < fuel) : SuccessorsFirst succ (dfs succ fuel x ([], [])).2 := by
  refine dfs_keeps_order hclosed hacyclic fuel x ([], []) hx (by simpa [unvisited] using hfuel)
    ⟨by simp, by simp⟩ ?_
  intro l₁ y l₂ h
  simp at h

end TldrCode.Graph
