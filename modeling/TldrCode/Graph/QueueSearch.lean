import TldrCode.Graph.Search

/-!
# Search with a queue of nodes and depths

A node is marked when it is taken from the queue, which may hold it more than once, and is dropped
beyond the limit. The depths in the queue grow, so a node is marked on a shortest path: the search
finds what is within the limit on paths that avoid the nodes marked at first (`mem_queueSearch`).
-/

namespace TldrCode.Graph

variable {α : Type*} {edges : List (α × α)} {limit : Option Nat} {queue : List (α × Nat)}
  {marked : List α} {a x : α} {depth rounds : Nat}

/-- The search: the queue, whose head is taken first, and the nodes marked so far. -/
def queueSearch [DecidableEq α] (edges : List (α × α)) (limit : Option Nat) :
    Nat → List (α × Nat) → List α → List α
  | 0, _, marked => marked
  | _ + 1, [], marked => marked
  | rounds + 1, (x, depth) :: queue, marked =>
    if (∃ m ∈ limit, m < depth) ∨ x ∈ marked then queueSearch edges limit rounds queue marked
    else
      queueSearch edges limit rounds (queue ++ (targets edges x).map (·, depth + 1)) (x :: marked)

/-- A path from a node in the queue to `x` is within the limit and avoids what is marked. -/
def Finds (edges : List (α × α)) (limit : Option Nat) (queue : List (α × Nat)) (marked : List α)
    (x : α) : Prop :=
  ∃ e ∈ queue, ∃ l, Walk (fun a b => (a, b) ∈ edges) e.1 x l ∧ (∀ y ∈ l, y ∉ marked) ∧
    ∀ m ∈ limit, e.2 + l.length ≤ m + 1

/-- The order in which the depths stand in the queue. -/
structure Rising (queue : List (α × Nat)) : Prop where
  sorted : queue.Pairwise fun e e' => e.2 ≤ e'.2
  spread : ∀ e ∈ queue, ∀ e' ∈ queue, e'.2 ≤ e.2 + 1

theorem rising_start (xs : List α) (depth : Nat) : Rising (xs.map (·, depth)) where
  sorted := List.pairwise_map.2 (List.pairwise_of_forall fun _ _ => le_rfl)
  spread e he e' he' := by
    obtain ⟨y, -, rfl⟩ := List.mem_map.1 he
    obtain ⟨y', -, rfl⟩ := List.mem_map.1 he'
    exact Nat.le_succ _

theorem Rising.tail (h : Rising ((a, depth) :: queue)) : Rising queue where
  sorted := h.sorted.of_cons
  spread e he e' he' := h.spread e (List.mem_cons_of_mem _ he) e' (List.mem_cons_of_mem _ he')

theorem Rising.push (h : Rising ((a, depth) :: queue)) (xs : List α) :
    Rising (queue ++ xs.map (·, depth + 1)) := by
  have hge : ∀ e ∈ queue, depth ≤ e.2 := fun _ => List.rel_of_pairwise_cons h.sorted
  have hle : ∀ e ∈ queue, e.2 ≤ depth + 1 := fun e he =>
    h.spread _ List.mem_cons_self e (List.mem_cons_of_mem _ he)
  have hnew : ∀ e ∈ xs.map (·, depth + 1), e.2 = depth + 1 := by
    intro e he
    obtain ⟨y, -, rfl⟩ := List.mem_map.1 he
    rfl
  constructor
  · refine List.pairwise_append.2 ⟨h.sorted.of_cons, (rising_start xs _).sorted, ?_⟩
    exact fun e he e' he' => (hle e he).trans_eq (hnew e' he').symm
  · intro e he e' he'
    rw [List.mem_append] at he he'
    have h₁ : depth ≤ e.2 := he.elim (hge e) fun h => (hnew e h).symm ▸ Nat.le_succ _
    have h₂ : e'.2 ≤ depth + 1 := he'.elim (hle e') fun h => (hnew e' h).le
    omega

theorem finds_drop (h : (∃ m ∈ limit, m < depth) ∨ a ∈ marked) :
    Finds edges limit ((a, depth) :: queue) marked x ↔ Finds edges limit queue marked x := by
  constructor
  · rintro ⟨e, he, l, w, hl, hm⟩
    rcases List.mem_cons.1 he with rfl | he
    · rcases h with ⟨m, hlimit, hlt⟩ | h
      · have hpos := List.length_pos_iff.2 w.ne_nil
        have := hm m hlimit
        dsimp only at *
        omega
      · exact absurd h (hl _ w.head_mem)
    · exact ⟨e, he, l, w, hl, hm⟩
  · rintro ⟨e, he, h⟩
    exact ⟨e, List.mem_cons_of_mem _ he, h⟩

variable [DecidableEq α]

/-- What is found is the node that is marked or is found from its targets or the rest. -/
theorem finds_mark (hrising : Rising ((a, depth) :: queue)) (hlimit : ∀ m ∈ limit, depth ≤ m)
    (ha : a ∉ marked) : (x ∈ marked ∨ Finds edges limit ((a, depth) :: queue) marked x) ↔
      x ∈ a :: marked ∨
        Finds edges limit (queue ++ (targets edges a).map (·, depth + 1)) (a :: marked) x := by
  have hge : ∀ e ∈ (a, depth) :: queue, depth ≤ e.2 := fun e he =>
    (List.mem_cons.1 he).elim (fun h => h ▸ le_rfl) (List.rel_of_pairwise_cons hrising.sorted ·)
  constructor
  · rintro (hx | ⟨e, he, l, w, hl, hm⟩)
    · exact .inl (List.mem_cons_of_mem _ hx)
    · by_cases hal : a ∈ l
      · -- the path goes on from the last time that it is at the node
        obtain ⟨l₁, y, l₂, rfl, rfl, hl₂⟩ := exists_last_of_mem (p := (· = a)) hal rfl
        obtain ⟨-, w₂⟩ := Walk.split_iff.1 w
        cases l₂ with
        | nil => exact .inl (List.mem_cons.2 (.inl (by simpa using w₂.last.symm)))
        | cons z l₂ =>
          have hedge : (y, z) ∈ edges := (List.isChain_cons_cons.1 w₂.chain).1
          have wz : Walk (fun a b => (a, b) ∈ edges) z x (z :: l₂) :=
            ⟨(List.isChain_cons_cons.1 w₂.chain).2, rfl, by simpa using w₂.last⟩
          refine .inr ⟨(z, depth + 1), List.mem_append_right _ (List.mem_map.2
            ⟨z, mem_targets.2 hedge, rfl⟩), z :: l₂, wz, fun u hu => ?_, fun m hlim => ?_⟩
          · rw [List.mem_cons, not_or]
            exact ⟨hl₂ u hu, hl u (by simp_all)⟩
          · have := hm m hlim
            have := hge e he
            simp only [List.length_append, List.length_cons] at *
            omega
      · rcases List.mem_cons.1 he with rfl | he
        · exact absurd w.head_mem hal
        · exact .inr ⟨e, List.mem_append_left _ he, l, w, fun u hu => List.mem_cons.not.2
            (not_or.2 ⟨fun h => hal (h ▸ hu), hl u hu⟩), hm⟩
  · rintro (hx | ⟨e, he, l, w, hl, hm⟩)
    · rcases List.mem_cons.1 hx with rfl | hx
      · exact .inr ⟨_, List.mem_cons_self, [x], .single x, by simpa using ha, fun m h => by
          simpa using hlimit m h⟩
      · exact .inl hx
    · have hl' : ∀ u ∈ l, u ∉ marked := fun u hu h => hl u hu (List.mem_cons_of_mem _ h)
      rcases List.mem_append.1 he with he | he
      · exact .inr ⟨e, List.mem_cons_of_mem _ he, l, w, hl', hm⟩
      · obtain ⟨y, hy, rfl⟩ := List.mem_map.1 he
        refine .inr ⟨_, List.mem_cons_self, a :: l, w.cons (mem_targets.1 hy), ?_, fun m h => ?_⟩
        · exact List.forall_mem_cons.2 ⟨ha, hl'⟩
        · have := hm m h
          simp only [List.length_cons] at *
          omega

/-- **What the search finds**, in as many rounds as there are nodes in the queue and edges. -/
theorem mem_queueSearch (hrising : Rising queue)
    (hrounds : queue.length + edges.countP (·.1 ∉ marked) ≤ rounds) :
    x ∈ queueSearch edges limit rounds queue marked ↔
      x ∈ marked ∨ Finds edges limit queue marked x := by
  induction rounds generalizing queue marked with
  | zero =>
    obtain rfl : queue = [] := List.eq_nil_of_length_eq_zero (by omega)
    exact (or_iff_left (by rintro ⟨e, he, -⟩; cases he)).symm
  | succ rounds ih =>
    cases queue with
    | nil => exact (or_iff_left (by rintro ⟨e, he, -⟩; cases he)).symm
    | cons e queue =>
      obtain ⟨a, depth⟩ := e
      rw [queueSearch]
      split_ifs with h
      · rw [ih hrising.tail (by simp only [List.length_cons] at hrounds; omega), finds_drop h]
      · rw [not_or] at h
        have hcount : edges.countP (·.1 ∉ a :: marked) + (targets edges a).length =
            edges.countP (·.1 ∉ marked) := countP_visit h.2
        rw [ih (hrising.push _) (by
          simp only [List.length_append, List.length_map, List.length_cons] at *; omega)]
        refine (finds_mark hrising (fun m hm => ?_) h.2).symm
        by_contra hlt
        exact h.1 ⟨m, hm, not_le.1 hlt⟩

theorem nodup_queueSearch (h : marked.Nodup) :
    (queueSearch edges limit rounds queue marked).Nodup := by
  induction rounds generalizing queue marked with
  | zero => exact h
  | succ rounds ih =>
    cases queue with
    | nil => exact h
    | cons e queue =>
      rw [queueSearch]
      split_ifs with hskip
      · exact ih h
      · exact ih (List.nodup_cons.2 ⟨fun hx => hskip (.inr hx), h⟩)

end TldrCode.Graph
