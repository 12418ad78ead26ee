import TldrCode.Graph.DepthLimited
import TldrCode.Graph.Postorder
import TldrCode.Graph.Walk

/-!
# Breadth-first search

A search with a queue that sees a node once and does not go on from one at the limit. It finds the
nodes within the limit, each once, with the lengths of their shortest paths and in the order of
these
(`mem_breadthFirst`, `breadthFirst_nodup`, `breadthFirst_sorted`).
-/

namespace TldrCode.Graph

variable {α : Type*} [DecidableEq α]

/-- The queue, with the depths of the nodes, and the nodes that have been seen. -/
structure Frontier (α : Type*) where
  queue : List (α × Nat)
  seen : List α

namespace Frontier

/-- A node that has not been seen is put into the queue. -/
def push (depth : Nat) (s : Frontier α) (x : α) : Frontier α :=
  if x ∈ s.seen then s else ⟨s.queue ++ [(x, depth)], x :: s.seen⟩

def init (starts : List α) : Frontier α := starts.foldl (push 0) ⟨[], []⟩

/-- What follows after a node is taken from the queue. -/
def expand (next : α → List α) (limit : Nat) (x : α) (depth : Nat) (s : Frontier α) : Frontier α :=
  if depth = limit then s else (next x).foldl (push (depth + 1)) s

end Frontier

/-- The nodes, with their depths, as they are taken from the queue. -/
def breadthFirst (next : α → List α) (limit : Nat) : Nat → Frontier α → List (α × Nat)
  | 0, _ => []
  | _ + 1, ⟨[], _⟩ => []
  | fuel + 1, ⟨(x, depth) :: queue, seen⟩ =>
    (x, depth) :: breadthFirst next limit fuel (Frontier.expand next limit x depth ⟨queue, seen⟩)

/-- The least number of edges on a path to a node. -/
def ShortestFrom (E : α → α → Prop) (starts : List α) (depth : Nat) (x : α) : Prop :=
  ReachWithin E starts depth x ∧ ∀ n < depth, ¬ ReachWithin E starts n x

variable {next : α → List α} {limit depth n : Nat} {starts nodes ys : List α} {x y : α}
  {s : Frontier α} {taken queue : List (α × Nat)} {seen : List α}

omit [DecidableEq α] in
theorem map_fst_pushed (new : List α) (depth : Nat) : (new.map (·, depth)).map (·.1) = new := by
  simp [Function.comp_def]

omit [DecidableEq α] in
theorem pairwise_snd_pushed (new : List α) (depth : Nat) :
    ((new.map (·, depth)).map (·.2)).Pairwise (· ≤ ·) := by
  rw [List.map_map]
  exact List.pairwise_map.2 (List.pairwise_of_forall fun _ _ => Nat.le_refl depth)

theorem foldl_push_spec (depth : Nat) (ys : List α) (s : Frontier α) :
    ∃ new : List α, (ys.foldl (Frontier.push depth) s).queue = s.queue ++ new.map (·, depth) ∧
      (∀ z, z ∈ (ys.foldl (Frontier.push depth) s).seen ↔ z ∈ s.seen ∨ z ∈ new) ∧
      new.Nodup ∧ (∀ z ∈ new, z ∈ ys ∧ z ∉ s.seen) ∧
      ∀ z ∈ ys, z ∈ (ys.foldl (Frontier.push depth) s).seen := by
  induction ys generalizing s with
  | nil => exact ⟨[], by simp⟩
  | cons y ys ih =>
    rw [List.foldl_cons]
    obtain ⟨new, hqueue, hseen, hnodup, hnew, hys⟩ := ih (s.push depth y)
    by_cases hy : y ∈ s.seen
    · have hpush : s.push depth y = s := if_pos hy
      rw [hpush] at hqueue hseen hnew hys ⊢
      refine ⟨new, hqueue, hseen, hnodup, fun z hz => ?_, fun z hz => ?_⟩
      · exact ⟨List.mem_cons_of_mem _ (hnew z hz).1, (hnew z hz).2⟩
      · cases List.mem_cons.1 hz with
        | inl heq => exact (hseen z).2 (.inl (heq ▸ hy))
        | inr hz => exact hys z hz
    · have hpush : s.push depth y = ⟨s.queue ++ [(y, depth)], y :: s.seen⟩ := if_neg hy
      rw [hpush] at hqueue hseen hnew hys ⊢
      refine ⟨y :: new, ?_, fun z => ?_, ?_, fun z hz => ?_, fun z hz => ?_⟩
      · rw [hqueue]
        simp
      · rw [hseen, List.mem_cons, List.mem_cons]
        tauto
      · exact List.nodup_cons.2 ⟨fun hmem => (hnew y hmem).2 List.mem_cons_self, hnodup⟩
      · cases List.mem_cons.1 hz with
      | inl heq =>
          subst heq
          exact ⟨List.mem_cons_self, hy⟩
        | inr hz =>
          obtain ⟨hmem, hnot⟩ := hnew z hz
          exact ⟨List.mem_cons_of_mem _ hmem, fun h => hnot (List.mem_cons_of_mem _ h)⟩
      · cases List.mem_cons.1 hz with
        | inl heq => exact (hseen z).2 (.inl (heq ▸ List.mem_cons_self))
        | inr hz => exact hys z hz

theorem foldl_push_eq (hys : ys.Nodup) (depth : Nat) (s : Frontier α) :
    ys.foldl (Frontier.push depth) s =
      ⟨s.queue ++ (ys.filter (· ∉ s.seen)).map (·, depth),
        (ys.filter (· ∉ s.seen)).reverse ++ s.seen⟩ := by
  induction ys using List.reverseRecOn with
  | nil =>
    rw [List.foldl_nil, List.filter_nil, List.map_nil, List.append_nil]
    rfl
  | append_singleton ys y ih =>
    obtain ⟨hys, -, hy⟩ := List.nodup_append.1 hys
    have hymem : y ∉ ys := fun hmem => hy y hmem y (List.mem_singleton_self y) rfl
    rw [List.foldl_concat, ih hys, Frontier.push, List.filter_append]
    by_cases hseen : y ∈ s.seen
    · rw [if_pos (List.mem_append_right _ hseen), List.filter_singleton]
      simp [hseen]
    · have hnew : y ∉ (ys.filter (· ∉ s.seen)).reverse ++ s.seen := by
        simp [hseen, hymem]
      rw [if_neg hnew, List.filter_singleton]
      simp [hseen]

/-- What holds when nodes have been taken from the queue. -/
structure BreadthInv (next : α → List α) (limit : Nat) (starts : List α) (taken : List (α × Nat))
    (s : Frontier α) : Prop where
  sorted : ((taken ++ s.queue).map (·.2)).Pairwise (· ≤ ·)
  span : ∀ first ∈ s.queue.head?, ∀ e ∈ s.queue, e.2 ≤ first.2 + 1
  nodup : ((taken ++ s.queue).map (·.1)).Nodup
  seen : ∀ x, x ∈ s.seen ↔ ∃ depth, (x, depth) ∈ taken ++ s.queue
  shortest : ∀ x depth, (x, depth) ∈ taken ++ s.queue →
    ShortestFrom (fun x y => y ∈ next x) starts depth x ∧ depth ≤ limit
  closed : ∀ x depth, (x, depth) ∈ taken → depth < limit → ∀ y ∈ next x, y ∈ s.seen
  start : ∀ x ∈ starts, x ∈ s.seen

theorem breadthInv_init (next : α → List α) (limit : Nat) (starts : List α) :
    BreadthInv next limit starts [] (Frontier.init starts) := by
  obtain ⟨new, hqueue, hseen, hnodup, hnew, hstarts⟩ := foldl_push_spec 0 starts ⟨[], []⟩
  unfold Frontier.init
  have hqueue : (starts.foldl (Frontier.push 0) ⟨[], []⟩).queue = new.map (·, 0) := by
    rw [hqueue]
    rfl
  constructor
  case sorted =>
    rw [hqueue]
    exact pairwise_snd_pushed new 0
  case span =>
    rw [hqueue]
    intro first _ e he
    obtain ⟨z, -, rfl⟩ := List.mem_map.1 he
    exact Nat.zero_le _
  case nodup =>
    rw [hqueue, List.nil_append, map_fst_pushed]
    exact hnodup
  case seen =>
    intro x
    rw [hseen, hqueue]
    simp
  case shortest =>
    intro x depth hmem
    rw [hqueue] at hmem
    obtain ⟨z, hz, heq⟩ := List.mem_map.1 hmem
    cases heq
    exact ⟨⟨.start (hnew x hz).1, fun n hn => absurd hn (Nat.not_lt_zero n)⟩, Nat.zero_le _⟩
  case closed => intro x depth hmem; cases hmem
  case start => exact hstarts

theorem BreadthInv.seen_of_reachWithin (h : BreadthInv next limit starts taken s)
    (hqueue : ∀ e ∈ s.queue, depth ≤ e.2) (hdepth : depth ≤ limit)
    (hx : ReachWithin (fun x y => y ∈ next x) starts n x) (hn : n ≤ depth) : x ∈ s.seen := by
  induction hx with
  | start hx => exact h.start _ hx
  | @step n z x hz he ih =>
    obtain ⟨dz, hmem⟩ := (h.seen z).1 (ih (by omega))
    have hle : dz ≤ n := Nat.le_of_not_lt fun hlt => (h.shortest z dz hmem).1.2 n hlt hz
    cases List.mem_append.1 hmem with
    | inl htaken => exact h.closed z dz htaken (by omega) x he
    | inr hqueued =>
      have := hqueue _ hqueued
      dsimp only at this
      omega

/-- **A node is taken from the queue.** -/
theorem BreadthInv.expand (h : BreadthInv next limit starts taken ⟨(x, depth) :: queue, seen⟩) :
    BreadthInv next limit starts (taken ++ [(x, depth)])
      (Frontier.expand next limit x depth ⟨queue, seen⟩) := by
  have hassoc : ∀ l, taken ++ [(x, depth)] ++ (queue ++ l) = taken ++ (x, depth) :: queue ++ l := by
    simp
  have hassoc' : taken ++ [(x, depth)] ++ queue = taken ++ (x, depth) :: queue := by simp
  have hhead : ∀ e ∈ (x, depth) :: queue, depth ≤ e.2 := by
    have hsorted := h.sorted
    rw [List.map_append, List.pairwise_append, List.map_cons, List.pairwise_cons] at hsorted
    intro e he
    cases List.mem_cons.1 he with
    | inl heq => exact heq ▸ Nat.le_refl _
    | inr hmem => exact hsorted.2.1.1 _ (List.mem_map_of_mem hmem)
  have hspan : ∀ e ∈ queue, e.2 ≤ depth + 1 := fun e he =>
    h.span (x, depth) rfl e (List.mem_cons_of_mem _ he)
  have hx := h.shortest x depth (by simp)
  unfold Frontier.expand
  by_cases hlimit : depth = limit
  · rw [if_pos hlimit]
    constructor
    case sorted => exact hassoc' ▸ h.sorted
    case span =>
      intro first hfirst e he
      have hle := hhead first (List.mem_cons_of_mem _ (List.mem_of_mem_head? hfirst))
      have := hspan e he
      omega
    case nodup => exact hassoc' ▸ h.nodup
    case seen => exact fun y => hassoc' ▸ h.seen y
    case shortest => exact fun y d hmem => h.shortest y d (hassoc' ▸ hmem)
    case closed =>
      intro y d hmem hlt
      cases List.mem_append.1 hmem with
      | inl hmem => exact h.closed y d hmem hlt
      | inr hmem =>
        cases List.mem_singleton.1 hmem
        omega
    case start => exact h.start
  · rw [if_neg hlimit]
    obtain ⟨new, hqueue, hseen, hnodup, hnew, hys⟩ := foldl_push_spec (depth + 1) (next x)
      ⟨queue, seen⟩
    dsimp only at hqueue hseen hnew
    have hlt : depth < limit := Nat.lt_of_le_of_ne hx.2 hlimit
    constructor
    case sorted =>
      rw [hqueue, hassoc, List.map_append, List.pairwise_append]
      refine ⟨h.sorted, pairwise_snd_pushed new (depth + 1), ?_⟩
      intro a ha b hb
      obtain ⟨e, he, rfl⟩ := List.mem_map.1 ha
      simp only [List.map_map, List.mem_map, Function.comp_apply] at hb
      obtain ⟨z, -, rfl⟩ := hb
      have hsorted := h.sorted
      rw [List.map_append, List.pairwise_append] at hsorted
      cases List.mem_append.1 he with
      | inl htaken =>
        have := hsorted.2.2 e.2 (List.mem_map_of_mem htaken) depth (by simp)
        omega
      | inr hmem =>
        cases List.mem_cons.1 hmem with
        | inl heq => exact heq ▸ Nat.le_succ _
        | inr hmem => exact hspan e hmem
    case span =>
      rw [hqueue]
      have hall : ∀ e ∈ queue ++ new.map (·, depth + 1), depth ≤ e.2 ∧ e.2 ≤ depth + 1 := by
        intro e he
        cases List.mem_append.1 he with
        | inl hmem => exact ⟨hhead e (List.mem_cons_of_mem _ hmem), hspan e hmem⟩
        | inr hmem =>
          obtain ⟨z, -, rfl⟩ := List.mem_map.1 hmem
          exact ⟨Nat.le_succ _, Nat.le_refl _⟩
      intro first hfirst e he
      have := (hall first (List.mem_of_mem_head? hfirst)).1
      have := (hall e he).2
      omega
    case nodup =>
      rw [hqueue, hassoc, List.map_append, map_fst_pushed, List.nodup_append]
      refine ⟨h.nodup, hnodup, ?_⟩
      rintro a ha _ hb rfl
      obtain ⟨e, he, rfl⟩ := List.mem_map.1 ha
      exact (hnew _ hb).2 ((h.seen _).2 ⟨e.2, he⟩)
    case seen =>
      intro y
      rw [hseen, hqueue, hassoc]
      have hold := h.seen y
      dsimp only at hold
      rw [hold]
      simp only [List.mem_append, List.mem_map, Prod.mk.injEq]
      constructor
      · rintro (⟨d, hmem⟩ | hmem)
        · exact ⟨d, .inl hmem⟩
        · exact ⟨depth + 1, .inr ⟨y, hmem, rfl, rfl⟩⟩
      · rintro ⟨d, hmem | ⟨z, hz, rfl, -⟩⟩
        · exact .inl ⟨d, hmem⟩
        · exact .inr hz
    case shortest =>
      intro y d hmem
      rw [hqueue, hassoc] at hmem
      cases List.mem_append.1 hmem with
      | inl hmem => exact h.shortest y d hmem
      | inr hmem =>
        obtain ⟨z, hz, heq⟩ := List.mem_map.1 hmem
        cases heq
        refine ⟨⟨.step hx.1.1 (hnew y hz).1, fun n hn hreach => (hnew y hz).2 ?_⟩, hlt⟩
        exact h.seen_of_reachWithin hhead hx.2 hreach (by omega)
    case closed =>
      intro y d hmem hd z hz
      cases List.mem_append.1 hmem with
      | inl hmem => exact (hseen z).2 (.inl (h.closed y d hmem hd z hz))
      | inr hmem =>
        cases List.mem_singleton.1 hmem
        exact hys z hz
    case start => exact fun y hy => (hseen y).2 (.inl (h.start y hy))

/-! ## The search -/

theorem length_foldl_push_le (hys : ∀ y ∈ ys, y ∈ nodes) (depth : Nat) (s : Frontier α) :
    (ys.foldl (Frontier.push depth) s).queue.length +
        unvisited nodes (ys.foldl (Frontier.push depth) s).seen ≤
      s.queue.length + unvisited nodes s.seen := by
  induction ys generalizing s with
  | nil => exact Nat.le_refl _
  | cons y ys ih =>
    rw [List.foldl_cons]
    refine Nat.le_trans (ih (fun z hz => hys z (List.mem_cons_of_mem _ hz)) _) ?_
    by_cases hy : y ∈ s.seen
    · rw [Frontier.push, if_pos hy]
    · rw [Frontier.push, if_neg hy, List.length_append, List.length_singleton]
      have := unvisited_cons_lt (hys y List.mem_cons_self) hy
      dsimp only
      omega

/-- With fuel for the queue and the nodes that have not been seen, the search ends with an empty
queue. -/
theorem BreadthInv.exists_end (hclosed : ∀ x ∈ nodes, ∀ y ∈ next x, y ∈ nodes) :
    ∀ (fuel : Nat) (taken : List (α × Nat)) (s : Frontier α),
      BreadthInv next limit starts taken s → (∀ x ∈ s.seen, x ∈ nodes) →
      s.queue.length + unvisited nodes s.seen ≤ fuel →
      ∃ seen, BreadthInv next limit starts (taken ++ breadthFirst next limit fuel s)
        ⟨[], seen⟩ := by
  intro fuel
  induction fuel with
  | zero =>
    intro taken s h _ hfuel
    have hqueue : s.queue = [] := List.length_eq_zero_iff.1 (by omega)
    refine ⟨s.seen, ?_⟩
    rw [breadthFirst, List.append_nil, ← hqueue]
    exact h
  | succ fuel ih =>
    rintro taken ⟨queue, seen⟩ h hseen hfuel
    cases queue with
    | nil =>
      refine ⟨seen, ?_⟩
      rw [breadthFirst, List.append_nil]
      exact h
    | cons e queue =>
      obtain ⟨x, depth⟩ := e
      have hx : x ∈ nodes := hseen x ((h.seen x).2 ⟨depth, by simp⟩)
      have hseen' : ∀ y ∈ (Frontier.expand next limit x depth ⟨queue, seen⟩).seen, y ∈ nodes := by
        unfold Frontier.expand
        split_ifs
        · exact hseen
        · obtain ⟨new, -, hmem, -, hnew, -⟩ := foldl_push_spec (depth + 1) (next x) ⟨queue, seen⟩
          intro y hy
          cases (hmem y).1 hy with
          | inl hy => exact hseen y hy
          | inr hy => exact hclosed x hx y (hnew y hy).1
      have hfuel' : (Frontier.expand next limit x depth ⟨queue, seen⟩).queue.length +
          unvisited nodes (Frontier.expand next limit x depth ⟨queue, seen⟩).seen ≤ fuel := by
        simp only [List.length_cons] at hfuel
        unfold Frontier.expand
        split_ifs
        · dsimp only
          omega
        · have := length_foldl_push_le (hclosed x hx) (depth + 1) ⟨queue, seen⟩
          dsimp only at this
          omega
      obtain ⟨seen', hend⟩ := ih (taken ++ [(x, depth)]) _ h.expand hseen' hfuel'
      refine ⟨seen', ?_⟩
      rw [breadthFirst, ← List.singleton_append, ← List.append_assoc]
      exact hend

theorem exists_breadthInv (limit : Nat)
    (hclosed : ∀ x ∈ nodes, ∀ y ∈ next x, y ∈ nodes) (hstarts : ∀ x ∈ starts, x ∈ nodes) :
    ∃ seen, BreadthInv next limit starts
      (breadthFirst next limit nodes.length (Frontier.init starts)) ⟨[], seen⟩ := by
  refine BreadthInv.exists_end hclosed nodes.length [] (Frontier.init starts)
    (breadthInv_init next limit starts) ?_ ?_
  · obtain ⟨new, -, hmem, -, hnew, -⟩ := foldl_push_spec 0 starts ⟨[], []⟩
    intro x hx
    cases (hmem x).1 hx with
    | inl hx => cases hx
    | inr hx => exact hstarts x (hnew x hx).1
  · refine Nat.le_trans (length_foldl_push_le hstarts 0 ⟨[], []⟩) ?_
    rw [List.length_nil, Nat.zero_add]
    exact List.length_filter_le _ _

section

variable (hclosed : ∀ x ∈ nodes, ∀ y ∈ next x, y ∈ nodes) (hstarts : ∀ x ∈ starts, x ∈ nodes)
include hclosed hstarts

/-- **The search finds the nodes within the limit**, with the lengths of their shortest paths. -/
theorem mem_breadthFirst :
    (x, depth) ∈ breadthFirst next limit nodes.length (Frontier.init starts) ↔
      ShortestFrom (fun x y => y ∈ next x) starts depth x ∧ depth ≤ limit := by
  obtain ⟨seen, h⟩ := exists_breadthInv limit hclosed hstarts
  constructor
  · intro hmem
    exact h.shortest x depth (List.mem_append_left _ hmem)
  · rintro ⟨hshortest, hle⟩
    have hseen := h.seen_of_reachWithin (by simp) hle hshortest.1 (Nat.le_refl depth)
    obtain ⟨d, hmem⟩ := (h.seen x).1 hseen
    rw [List.append_nil] at hmem
    have hd := (h.shortest x d (List.mem_append_left _ hmem)).1
    have heq : d = depth := by
      refine Nat.le_antisymm (Nat.le_of_not_lt fun hlt => ?_) (Nat.le_of_not_lt fun hlt => ?_)
      · exact hd.2 depth hlt hshortest.1
      · exact hshortest.2 d hlt hd.1
    exact heq ▸ hmem

theorem breadthFirst_nodup :
    ((breadthFirst next limit nodes.length (Frontier.init starts)).map (·.1)).Nodup := by
  obtain ⟨seen, h⟩ := exists_breadthInv limit hclosed hstarts
  have hnodup := h.nodup
  rwa [List.append_nil] at hnodup

theorem breadthFirst_sorted :
    ((breadthFirst next limit nodes.length (Frontier.init starts)).map (·.2)).Pairwise
      (· ≤ ·) := by
  obtain ⟨seen, h⟩ := exists_breadthInv limit hclosed hstarts
  have hsorted := h.sorted
  rwa [List.append_nil] at hsorted

end

omit [DecidableEq α] in
/-- A node is reached within a number of edges if there is a walk with no more of them. -/
theorem reachWithin_iff_walk {E : α → α → Prop} :
    ReachWithin (fun x y => E y x) starts n x ↔
      ∃ s ∈ starts, ∃ l, Walk E x s l ∧ l.length ≤ n + 1 := by
  constructor
  · intro h
    induction h with
    | @start n x hx => exact ⟨x, hx, [x], .single x, by simp⟩
    | @step n x y _ he ih =>
      obtain ⟨s, hs, l, w, hl⟩ := ih
      exact ⟨s, hs, y :: l, w.cons he, by simpa using hl⟩
  · rintro ⟨s, hs, l, w, hl⟩
    induction l generalizing x n with
    | nil => exact absurd rfl w.ne_nil
    | cons y l ih =>
      obtain ⟨hchain, hhead, hlast⟩ := w
      cases hhead
      cases l with
      | nil =>
        cases hlast
        exact .start hs
      | cons z l =>
        rw [List.isChain_cons_cons] at hchain
        cases n with
        | zero => simp at hl
        | succ n =>
          refine .step (ih ⟨hchain.2, rfl, by rwa [List.getLast?_cons_cons] at hlast⟩ ?_) hchain.1
          simpa using hl

end TldrCode.Graph
