import Mathlib.Data.List.Nodup
import Mathlib.Data.List.Perm.Basic
import Mathlib.Logic.Function.Basic
import TldrCode.Graph.Walk

/-!
# Strongly connected components

What Tarjan's algorithm keeps, whatever carries its recursion. The nodes that are open, with the
successors that are still to be looked at, stand in a list of frames. There is a rule for each thing
that the algorithm does, and in the end the components that it has taken from the stack are the
classes of mutual reachability (`TarjanInv.components`).
-/

namespace TldrCode.Graph

open Function (update)

variable {α : Type*}

def Mutual (succ : α → List α) (x y : α) : Prop :=
  Reach (fun a b => b ∈ succ a) x y ∧ Reach (fun a b => b ∈ succ a) y x

/-- The classes of mutual reachability of the nodes that are reached from the roots, each once. -/
structure Components (succ : α → List α) (roots : List α) (classes : List (List α)) : Prop where
  nodup : classes.flatten.Nodup
  nonempty : ∀ C ∈ classes, C ≠ []
  mem_flatten : ∀ x, x ∈ classes.flatten ↔ ∃ r ∈ roots, Reach (fun a b => b ∈ succ a) r x
  mem_iff : ∀ C ∈ classes, ∀ x ∈ C, ∀ y, y ∈ C ↔ Mutual succ x y

theorem Components.perm {succ : α → List α} {roots : List α} {classes classes' : List (List α)}
    (h : Components succ roots classes) (hperm : classes'.Perm classes) :
    Components succ roots classes' where
  nodup := hperm.flatten.nodup_iff.2 h.nodup
  nonempty C hC := h.nonempty C (hperm.mem_iff.1 hC)
  mem_flatten x := hperm.flatten.mem_iff.trans (h.mem_flatten x)
  mem_iff C hC := h.mem_iff C (hperm.mem_iff.1 hC)

theorem Components.map {succ : α → List α} {roots : List α} {classes : List (List α)}
    (h : Components succ roots classes) {f : List α → List α} (hf : ∀ C, (f C).Perm C) :
    Components succ roots (classes.map f) where
  nodup := by
    have hperm : (classes.map f).flatten.Perm classes.flatten :=
      List.Perm.flatten_congr (List.forall₂_map_left_iff.2 (List.forall₂_same.2 fun C _ => hf C))
    exact hperm.nodup_iff.2 h.nodup
  nonempty := by
    intro C hC hnil
    obtain ⟨C', hC', rfl⟩ := List.mem_map.1 hC
    exact h.nonempty C' hC' (List.nil_perm.1 (hnil ▸ hf C'))
  mem_flatten x := by
    rw [← h.mem_flatten]
    simp only [List.mem_flatten, List.mem_map, exists_exists_and_eq_and, (hf _).mem_iff]
  mem_iff := by
    intro C hC x hx y
    obtain ⟨C', hC', rfl⟩ := List.mem_map.1 hC
    rw [(hf C').mem_iff] at hx ⊢
    exact h.mem_iff C' hC' x hx y

/-- The numbers of the nodes that have been visited, the least numbers that are known to be reached,
and the stack. -/
structure TarjanState (α : Type*) where
  index : α → Option Nat
  low : α → Nat
  stack : List α
  count : Nat

namespace TarjanState

def num (s : TarjanState α) (x : α) : Nat := (s.index x).getD 0

variable [DecidableEq α]

def enter (s : TarjanState α) (w : α) : TarjanState α where
  index := update s.index w (some s.count)
  low := update s.low w s.count
  stack := w :: s.stack
  count := s.count + 1

def lower (s : TarjanState α) (v : α) (n : Nat) : TarjanState α :=
  { s with low := update s.low v (min (s.low v) n) }

/-- The node before a node that is left takes over what that has reached. -/
def back (s : TarjanState α) (v : α) : List (α × List α) → TarjanState α
  | [] => s
  | (p, _) :: _ => s.lower p (s.low v)

end TarjanState

/-- A node is open, with successors that are to be looked at. -/
def Open (frames : List (α × List α)) (v : α) : Prop := v ∈ frames.map (·.1)

def Pending (frames : List (α × List α)) (x y : α) : Prop := ∃ ws, (x, ws) ∈ frames ∧ y ∈ ws

structure Owner (s : TarjanState α) (frames : List (α × List α)) (v x : α) : Prop where
  isOpen : Open frames v
  le : s.num v ≤ s.num x
  last : ∀ u, Open frames u → s.num u ≤ s.num x → s.num u ≤ s.num v

structure TarjanInv (succ : α → List α) (roots : List α) (s : TarjanState α)
    (frames : List (α × List α)) (done : List (List α)) : Prop where
  lt_count : ∀ x n, s.index x = some n → n < s.count
  sorted : s.stack.Pairwise fun x y => s.num y < s.num x
  frames_sublist : (frames.map (·.1)).Sublist s.stack
  visited : ∀ x, s.index x ≠ none ↔ x ∈ s.stack ∨ x ∈ done.flatten
  disjoint : ∀ x ∈ s.stack, x ∉ done.flatten
  reached : ∀ x, s.index x ≠ none → ∃ r ∈ roots, Reach (fun a b => b ∈ succ a) r x
  pending : ∀ x y, Pending frames x y → y ∈ succ x
  explored : ∀ x, s.index x ≠ none → ∀ y ∈ succ x, s.index y ≠ none ∨ Pending frames x y
  done_closed : ∀ x ∈ done.flatten, ∀ y ∈ succ x, y ∈ done.flatten
  done_nodup : done.flatten.Nodup
  done_class : ∀ C ∈ done, C ≠ [] ∧ ∀ x ∈ C, ∀ y, y ∈ C ↔ Mutual succ x y
  up : ∀ x ∈ s.stack, ∃ u, Open frames u ∧ s.num u ≤ s.num x ∧ Reach (fun a b => b ∈ succ a) x u
  down : ∀ u, Open frames u → ∀ x ∈ s.stack, s.num u ≤ s.num x →
    Reach (fun a b => b ∈ succ a) u x
  low_le : ∀ v, Open frames v → s.low v ≤ s.num v
  low_sound : ∀ v, Open frames v → ∃ y ∈ s.stack, s.num y = s.low v ∧
    Reach (fun a b => b ∈ succ a) v y
  low_complete : ∀ v, ∀ x ∈ s.stack, Owner s frames v x → ∀ y ∈ succ x, y ∈ s.stack →
    Pending frames x y ∨ s.low v ≤ s.num y

variable {succ : α → List α} {roots : List α} {s : TarjanState α} {frames rest : List (α × List α)}
  {done : List (List α)} {u v w x y p : α} {ws ps : List α} {n : Nat}

theorem tarjanInv_init (succ : α → List α) (roots : List α) (low : α → Nat) :
    TarjanInv succ roots ⟨fun _ => none, low, [], 0⟩ [] [] := by
  constructor <;> simp [Open, Pending]

namespace TarjanInv

/-! ## Numbers -/

section

variable (h : TarjanInv succ roots s frames done)
include h

theorem mem_stack_of_open (hv : Open frames v) :
    v ∈ s.stack := h.frames_sublist.subset hv

theorem num_lt_count (hx : x ∈ s.stack) : s.num x < s.count := by
  obtain ⟨n, hn⟩ := Option.ne_none_iff_exists'.1 ((h.visited x).2 (.inl hx))
  unfold TarjanState.num
  rw [hn]
  exact h.lt_count x n hn

theorem nodup_stack : s.stack.Nodup := by
  refine h.sorted.imp fun hlt heq => ?_
  subst heq
  exact Nat.lt_irrefl _ hlt

theorem eq_of_num_eq (hx : x ∈ s.stack) (hy : y ∈ s.stack) (hnum : s.num x = s.num y) : x = y := by
  by_contra hne
  obtain ⟨i, hi, rfl⟩ := List.mem_iff_getElem.1 hx
  obtain ⟨j, hj, rfl⟩ := List.mem_iff_getElem.1 hy
  have hsorted := List.pairwise_iff_getElem.1 h.sorted
  rcases Nat.lt_trichotomy i j with hij | hij | hij
  · exact absurd (hsorted i j hi hj hij) (by omega)
  · subst hij
    exact hne rfl
  · exact absurd (hsorted j i hj hi hij) (by omega)

end

theorem num_lt_top (h : TarjanInv succ roots s ((v, ws) :: rest) done) (hu : Open rest u) :
    s.num u < s.num v := by
  have hsorted := h.sorted.sublist h.frames_sublist
  rw [List.map_cons, List.pairwise_cons] at hsorted
  exact hsorted.1 u hu

theorem open_top : Open ((v, ws) :: rest) v := List.mem_cons_self

theorem open_cons_iff : Open ((v, ws) :: rest) u ↔ u = v ∨ Open rest u := List.mem_cons

theorem pending_cons_iff : Pending ((v, ws) :: rest) x y ↔
    x = v ∧ y ∈ ws ∨ Pending rest x y := by
  unfold Pending
  simp only [List.mem_cons, Prod.mk.injEq]
  constructor
  · rintro ⟨ws', ⟨rfl, rfl⟩ | hmem, hy⟩
    · exact .inl ⟨rfl, hy⟩
    · exact .inr ⟨ws', hmem, hy⟩
  · rintro (⟨rfl, hy⟩ | ⟨ws', hmem, hy⟩)
    · exact ⟨ws, .inl ⟨rfl, rfl⟩, hy⟩
    · exact ⟨ws', .inr hmem, hy⟩

theorem mem_done_of_reach (h : TarjanInv succ roots s frames done) (hx : x ∈ done.flatten)
    (hreach : Reach (fun a b => b ∈ succ a) x y) : y ∈ done.flatten :=
  hreach.induct hx fun a b _ hab ha => h.done_closed a ha b hab

/-! ## Visiting -/

section Rules

variable [DecidableEq α]

theorem num_enter : (s.enter w).num x = if x = w then s.count else s.num x := by
  unfold TarjanState.enter TarjanState.num
  dsimp only
  rw [Function.update_apply]
  split_ifs <;> rfl

theorem index_enter_ne_none_iff : (s.enter w).index x ≠ none ↔ x = w ∨ s.index x ≠ none := by
  unfold TarjanState.enter
  dsimp only
  rw [Function.update_apply]
  split_ifs with heq <;> simp [heq]

/-- **A node is visited** that all open nodes reach. -/
theorem enter {frames' : List (α × List α)} (h : TarjanInv succ roots s frames done)
    (hw : s.index w = none) (hnodes : frames'.map (·.1) = frames.map (·.1))
    (hpending : ∀ x y, Pending frames' x y → Pending frames x y)
    (hpending' : ∀ x y, Pending frames x y → y ≠ w → Pending frames' x y)
    (hreach : ∀ u, Open frames u → Reach (fun a b => b ∈ succ a) u w)
    (hroot : ∃ r ∈ roots, Reach (fun a b => b ∈ succ a) r w) :
    TarjanInv succ roots (s.enter w) ((w, succ w) :: frames') done := by
  have hopen : ∀ u, Open ((w, succ w) :: frames') u ↔ u = w ∨ Open frames u := by
    intro u
    rw [open_cons_iff, Open, hnodes]
    rfl
  have hfresh : w ∉ s.stack ∧ w ∉ done.flatten := by
    refine ⟨fun hmem => ?_, fun hmem => ?_⟩
    · exact (h.visited w).2 (.inl hmem) hw
    · exact (h.visited w).2 (.inr hmem) hw
  have hne : ∀ x ∈ s.stack, x ≠ w := fun x hx heq => hfresh.1 (heq ▸ hx)
  have hold : ∀ x ∈ s.stack, (s.enter w).num x = s.num x := by
    intro x hx
    rw [num_enter, if_neg (hne x hx)]
  have hnew : (s.enter w).num w = s.count := by rw [num_enter, if_pos rfl]
  have hindex : ∀ x, (s.enter w).index x ≠ none ↔ x = w ∨ s.index x ≠ none := fun x =>
    index_enter_ne_none_iff
  have hstack : ∀ x, x ∈ (s.enter w).stack ↔ x = w ∨ x ∈ s.stack := fun x => List.mem_cons
  have hlow : ∀ v, Open frames v → (s.enter w).low v = s.low v := by
    intro v hv
    unfold TarjanState.enter
    dsimp only
    rw [Function.update_of_ne (hne v (h.mem_stack_of_open hv))]
  have hloww : (s.enter w).low w = s.count := Function.update_self ..
  constructor
  case lt_count =>
    intro x n hx
    unfold TarjanState.enter at hx ⊢
    dsimp only at hx ⊢
    rw [Function.update_apply] at hx
    split_ifs at hx with heq
    · cases hx
      exact Nat.lt_succ_self _
    · exact Nat.lt_succ_of_lt (h.lt_count x n hx)
  case sorted =>
    change (w :: s.stack).Pairwise _
    rw [List.pairwise_cons]
    constructor
    · intro x hx
      rw [hold x hx, hnew]
      exact h.num_lt_count hx
    · refine h.sorted.imp_of_mem fun hx hy hlt => ?_
      rw [hold _ hx, hold _ hy]
      exact hlt
  case frames_sublist =>
    change ((w, succ w) :: frames').map (·.1) |>.Sublist (w :: s.stack)
    rw [List.map_cons, hnodes]
    exact h.frames_sublist.cons_cons w
  case visited =>
    intro x
    rw [hindex, hstack, h.visited, or_assoc]
  case disjoint =>
    intro x hx
    cases (hstack x).1 hx with
    | inl heq => exact heq ▸ hfresh.2
    | inr hx => exact h.disjoint x hx
  case reached =>
    intro x hx
    cases (hindex x).1 hx with
    | inl heq => exact heq ▸ hroot
    | inr hx => exact h.reached x hx
  case pending =>
    intro x y hxy
    cases pending_cons_iff.1 hxy with
    | inl hw => exact hw.1 ▸ hw.2
    | inr hxy => exact h.pending x y (hpending x y hxy)
  case explored =>
    intro x hx y hy
    rw [hindex, pending_cons_iff]
    cases (hindex x).1 hx with
    | inl heq => exact .inr (.inl ⟨heq, heq ▸ hy⟩)
    | inr hx =>
      by_cases hyw : y = w
      · exact .inl (.inl hyw)
      · cases h.explored x hx y hy with
        | inl hvisited => exact .inl (.inr hvisited)
        | inr hxy => exact .inr (.inr (hpending' x y hxy hyw))
  case done_closed => exact h.done_closed
  case done_nodup => exact h.done_nodup
  case done_class => exact h.done_class
  case up =>
    intro x hx
    cases (hstack x).1 hx with
    | inl heq =>
      subst heq
      exact ⟨x, (hopen x).2 (.inl rfl), Nat.le_refl _, .refl x⟩
    | inr hx =>
      obtain ⟨u, hu, hle, hreach⟩ := h.up x hx
      refine ⟨u, (hopen u).2 (.inr hu), ?_, hreach⟩
      rw [hold u (h.mem_stack_of_open hu), hold x hx]
      exact hle
  case down =>
    intro u hu x hx hle
    cases (hopen u).1 hu with
    | inl heq =>
      subst heq
      cases (hstack x).1 hx with
      | inl heq => exact heq ▸ .refl _
      | inr hx =>
        rw [hnew, hold x hx] at hle
        exact absurd (h.num_lt_count hx) (by omega)
    | inr hu =>
      cases (hstack x).1 hx with
      | inl heq => exact heq ▸ hreach u hu
      | inr hx =>
        rw [hold u (h.mem_stack_of_open hu), hold x hx] at hle
        exact h.down u hu x hx hle
  case low_le =>
    intro v hv
    cases (hopen v).1 hv with
    | inl heq =>
      subst heq
      rw [hloww, hnew]
    | inr hv =>
      rw [hlow v hv, hold v (h.mem_stack_of_open hv)]
      exact h.low_le v hv
  case low_sound =>
    intro v hv
    cases (hopen v).1 hv with
    | inl heq =>
      subst heq
      exact ⟨v, List.mem_cons_self, hnew.trans hloww.symm, .refl v⟩
    | inr hv =>
      obtain ⟨y, hy, hnum, hreach⟩ := h.low_sound v hv
      exact ⟨y, List.mem_cons_of_mem _ hy, by rw [hold y hy, hnum, hlow v hv], hreach⟩
  case low_complete =>
    intro v x hmem howner y hy hymem
    rw [pending_cons_iff]
    cases (hstack x).1 hmem with
    | inl heq => exact .inl (.inl ⟨heq, heq ▸ hy⟩)
    | inr hx =>
      -- an older node is not owned by the new one
      have hvw : v ≠ w := by
        rintro rfl
        have hle := howner.le
        rw [hnew, hold x hx] at hle
        exact absurd (h.num_lt_count hx) (by omega)
      have hv : Open frames v := ((hopen v).1 howner.isOpen).resolve_left hvw
      have hvstack := h.mem_stack_of_open hv
      cases (hstack y).1 hymem with
      | inl heq =>
        right
        rw [heq, hnew, hlow v hv]
        have := h.low_le v hv
        have := h.num_lt_count hvstack
        omega
      | inr hystack =>
        have hle := howner.le
        rw [hold v hvstack, hold x hx] at hle
        have howner' : Owner s frames v x := by
          refine ⟨hv, hle, fun u hu hux => ?_⟩
          have hustack := h.mem_stack_of_open hu
          have := howner.last u ((hopen u).2 (.inr hu)) (by rwa [hold u hustack, hold x hx])
          rwa [hold u hustack, hold v hvstack] at this
        cases h.low_complete v x hx howner' y hy hystack with
        | inl hxy => exact .inl (.inr (hpending' x y hxy (hne y hystack)))
        | inr hle =>
          right
          rw [hlow v hv, hold y hystack]
          exact hle

theorem enter_root (h : TarjanInv succ roots s [] done) (hw : s.index w = none)
    (hroot : w ∈ roots) : TarjanInv succ roots (s.enter w) [(w, succ w)] done :=
  h.enter hw rfl (fun _ _ hxy => hxy) (fun _ _ hxy _ => hxy)
    (fun _ hu => absurd hu List.not_mem_nil) ⟨w, hroot, .refl w⟩

theorem enter_next (h : TarjanInv succ roots s ((v, w :: ws) :: rest) done)
    (hw : s.index w = none) :
    TarjanInv succ roots (s.enter w) ((w, succ w) :: (v, ws) :: rest) done := by
  have hpending : ∀ x y, Pending ((v, w :: ws) :: rest) x y ↔
      x = v ∧ y = w ∨ Pending ((v, ws) :: rest) x y := by
    intro x y
    rw [pending_cons_iff, pending_cons_iff, List.mem_cons]
    tauto
  have hv : v ∈ s.stack := h.mem_stack_of_open open_top
  have hedge : w ∈ succ v := h.pending v w ((hpending v w).2 (.inl ⟨rfl, rfl⟩))
  obtain ⟨r, hr, hrv⟩ := h.reached v ((h.visited v).2 (.inl hv))
  refine h.enter hw rfl (fun x y hxy => (hpending x y).2 (.inr hxy)) ?_ ?_ ⟨r, hr, hrv.tail hedge⟩
  · exact fun x y hxy hne => ((hpending x y).1 hxy).resolve_left fun heq => hne heq.2
  · intro u hu
    refine (h.down u hu v hv ?_).tail hedge
    cases open_cons_iff.1 hu with
    | inl heq => exact heq ▸ Nat.le_refl _
    | inr hu => exact Nat.le_of_lt (h.num_lt_top hu)

/-- **A number is reached.** -/
theorem lower (h : TarjanInv succ roots s frames done) (hv : Open frames v) (hy : y ∈ s.stack)
    (hreach : Reach (fun a b => b ∈ succ a) v y) :
    TarjanInv succ roots (s.lower v (s.num y)) frames done := by
  have hlow : ∀ u, (s.lower v (s.num y)).low u ≤ s.low u := by
    intro u
    unfold TarjanState.lower
    dsimp only
    rw [Function.update_apply]
    split_ifs with heq
    · exact heq ▸ Nat.min_le_left _ _
    · exact Nat.le_refl _
  refine { h with low_le := ?_, low_sound := ?_, low_complete := ?_ }
  · exact fun u hu => Nat.le_trans (hlow u) (h.low_le u hu)
  · intro u hu
    by_cases heq : u = v
    · subst heq
      have hvalue : (s.lower u (s.num y)).low u = min (s.low u) (s.num y) := Function.update_self ..
      rw [hvalue]
      rcases Nat.le_total (s.low u) (s.num y) with hle | hle
      · rw [Nat.min_eq_left hle]
        exact h.low_sound u hu
      · rw [Nat.min_eq_right hle]
        exact ⟨y, hy, rfl, hreach⟩
    · have hvalue : (s.lower v (s.num y)).low u = s.low u := Function.update_of_ne heq ..
      rw [hvalue]
      exact h.low_sound u hu
  · intro u x hx howner z hz hzstack
    exact (h.low_complete u x hx ⟨howner.isOpen, howner.le, howner.last⟩ z hz hzstack).imp_right
      (Nat.le_trans (hlow u))

end Rules

/-- **A successor has been looked at**: it is visited, and if it is on the stack its number is no
less than what is known to be reached. -/
theorem advance (h : TarjanInv succ roots s ((v, w :: ws) :: rest) done) (hw : s.index w ≠ none)
    (hlow : w ∈ s.stack → s.low v ≤ s.num w) :
    TarjanInv succ roots s ((v, ws) :: rest) done := by
  have hpending : ∀ x y, Pending ((v, w :: ws) :: rest) x y →
      x = v ∧ y = w ∨ Pending ((v, ws) :: rest) x y := by
    intro x y hxy
    rw [pending_cons_iff] at hxy ⊢
    rw [List.mem_cons] at hxy
    tauto
  refine { h with pending := ?_, explored := ?_, low_complete := ?_ }
  · intro x y hxy
    refine h.pending x y ?_
    rw [pending_cons_iff] at hxy ⊢
    rw [List.mem_cons]
    tauto
  · intro x hx y hy
    cases h.explored x hx y hy with
    | inl hvisited => exact .inl hvisited
    | inr hxy =>
      cases hpending x y hxy with
      | inl heq => exact .inl (heq.2 ▸ hw)
      | inr hxy => exact .inr hxy
  · intro u x hx howner y hy hystack
    cases h.low_complete u x hx ⟨howner.isOpen, howner.le, howner.last⟩ y hy hystack with
    | inr hle => exact .inr hle
    | inl hxy =>
      cases hpending x y hxy with
      | inr hxy => exact .inl hxy
      | inl heq =>
        -- an open node is its own owner
        obtain ⟨rfl, rfl⟩ := heq
        have hle := howner.last x open_top (Nat.le_refl _)
        have heq : u = x := h.eq_of_num_eq (h.mem_stack_of_open howner.isOpen) hx
          (Nat.le_antisymm howner.le hle)
        exact .inr (heq ▸ hlow hystack)

theorem lower_next [DecidableEq α] (h : TarjanInv succ roots s ((v, w :: ws) :: rest) done)
    (hw : w ∈ s.stack) : TarjanInv succ roots (s.lower v (s.num w)) ((v, ws) :: rest) done := by
  have hedge : w ∈ succ v := h.pending v w (pending_cons_iff.2 (.inl ⟨rfl, List.mem_cons_self⟩))
  refine (h.lower open_top hw (.edge hedge)).advance ((h.visited w).2 (.inl hw)) fun _ => ?_
  exact Nat.le_trans (Nat.le_of_eq (Function.update_self ..)) (Nat.min_le_right _ _)

/-! ## Closing -/

theorem pending_of_top (hxy : Pending ((v, []) :: rest) x y) : Pending rest x y := by
  rw [pending_cons_iff] at hxy
  exact hxy.resolve_left fun h => List.not_mem_nil h.2

theorem owner_top (h : TarjanInv succ roots s ((v, ws) :: rest) done) (hle : s.num v ≤ s.num x) :
    Owner s ((v, ws) :: rest) v x := by
  refine ⟨open_top, hle, fun u hu _ => ?_⟩
  cases open_cons_iff.1 hu with
  | inl heq => exact heq ▸ Nat.le_refl _
  | inr hu => exact Nat.le_of_lt (h.num_lt_top hu)

theorem owner_below (howner : Owner s rest u x) (hlt : s.num x < s.num v) :
    Owner s ((v, ws) :: rest) u x := by
  refine ⟨open_cons_iff.2 (.inr howner.isOpen), howner.le, fun q hq hle => ?_⟩
  cases open_cons_iff.1 hq with
  | inl heq =>
    subst heq
    omega
  | inr hq => exact howner.last q hq hle

/-- **A node is closed** that is not the first of its component: its parent reaches what it
reaches. -/
theorem close (h : TarjanInv succ roots s ((v, []) :: rest) done) (hlt : s.low v < s.num v)
    (hparent : ∀ p ps, rest.head? = some (p, ps) → s.low p ≤ s.low v) :
    TarjanInv succ roots s rest done := by
  have hopen : ∀ u, Open rest u → Open ((v, []) :: rest) u := fun u hu =>
    open_cons_iff.2 (.inr hu)
  refine { h with
    frames_sublist := ?_, pending := ?_, explored := ?_, up := ?_, down := ?_, low_le := ?_
    low_sound := ?_, low_complete := ?_ }
  · exact (List.sublist_cons_self v _).trans h.frames_sublist
  · exact fun x y hxy => h.pending x y (pending_cons_iff.2 (.inr hxy))
  · exact fun x hx y hy => (h.explored x hx y hy).imp_right pending_of_top
  · intro x hx
    obtain ⟨u, hu, hle, hreach⟩ := h.up x hx
    cases open_cons_iff.1 hu with
    | inr hu => exact ⟨u, hu, hle, hreach⟩
    | inl heq =>
      subst heq
      -- what the closed node reaches reaches an older open node
      obtain ⟨y, hy, hnum, hvy⟩ := h.low_sound u open_top
      obtain ⟨u', hu', hle', hreach'⟩ := h.up y hy
      refine ⟨u', (open_cons_iff.1 hu').resolve_left ?_, by omega,
        (hreach.trans hvy).trans hreach'⟩
      rintro rfl
      omega
  · exact fun u hu => h.down u (hopen u hu)
  · exact fun u hu => h.low_le u (hopen u hu)
  · exact fun u hu => h.low_sound u (hopen u hu)
  · intro u x hx howner y hy hystack
    by_cases hle : s.num v ≤ s.num x
    · have hcomplete := h.low_complete v x hx (h.owner_top hle) y hy hystack
      refine hcomplete.imp pending_of_top fun hlow => Nat.le_trans ?_ hlow
      cases rest with
      | nil => cases howner.isOpen
      | cons frame rest =>
        obtain ⟨p, ps⟩ := frame
        have hp := h.num_lt_top (u := p) open_top
        have hlast := howner.last p open_top (by omega)
        have hu : u = p := by
          refine (open_cons_iff.1 howner.isOpen).resolve_right fun hu => ?_
          have hsorted := h.sorted.sublist h.frames_sublist
          rw [List.map_cons, List.map_cons, List.pairwise_cons, List.pairwise_cons] at hsorted
          have hlt : s.num u < s.num p := hsorted.2.1 u hu
          omega
        exact hu ▸ hparent p ps rfl
    · exact (h.low_complete u x hx (owner_below howner (by omega)) y hy hystack).imp_left
        pending_of_top

/-- **A component is taken from the stack**: the nodes down to the first one of it. -/
theorem pop {top under : List α} (h : TarjanInv succ roots s ((v, []) :: rest) done)
    (hroot : s.low v = s.num v) (hstack : s.stack = top ++ v :: under) :
    TarjanInv succ roots { s with stack := under } rest ((top ++ [v]) :: done) := by
  have hv : v ∈ s.stack := h.mem_stack_of_open open_top
  have hopen : ∀ u, Open rest u → Open ((v, []) :: rest) u := fun u hu =>
    open_cons_iff.2 (.inr hu)
  have hsorted := h.sorted
  rw [hstack, List.pairwise_append, List.pairwise_cons] at hsorted
  have hmem : ∀ x, x ∈ top ++ [v] ↔ x ∈ s.stack ∧ s.num v ≤ s.num x := by
    intro x
    rw [hstack, List.mem_append, List.mem_singleton, List.mem_append, List.mem_cons]
    constructor
    · rintro (hx | rfl)
      · exact ⟨.inl hx, Nat.le_of_lt (hsorted.2.2 x hx v List.mem_cons_self)⟩
      · exact ⟨.inr (.inl rfl), Nat.le_refl _⟩
    · rintro ⟨hx | rfl | hx, hle⟩
      · exact .inl hx
      · exact .inr rfl
      · exact absurd (hsorted.2.1.1 x hx) (by omega)
  have hunder : ∀ x, x ∈ under ↔ x ∈ s.stack ∧ s.num x < s.num v := by
    intro x
    constructor
    · intro hx
      rw [hstack]
      exact ⟨by simp [hx], hsorted.2.1.1 x hx⟩
    · rintro ⟨hx, hlt⟩
      rw [hstack, List.mem_append, List.mem_cons] at hx
      rcases hx with hx | rfl | hx
      · exact absurd (hsorted.2.2 x hx v List.mem_cons_self) (by omega)
      · exact absurd hlt (Nat.lt_irrefl _)
      · exact hx
  -- the edges from the component stay in it or lead to nodes that are done
  have hsucc : ∀ x ∈ top ++ [v], ∀ y ∈ succ x, y ∈ top ++ [v] ∨ y ∈ done.flatten := by
    intro x hx y hy
    obtain ⟨hxstack, hle⟩ := (hmem x).1 hx
    have hpending : ¬ Pending ((v, []) :: rest) x y := by
      intro hxy
      obtain ⟨ws, hws, -⟩ := pending_of_top hxy
      have := h.num_lt_top (u := x) (List.mem_map.2 ⟨_, hws, rfl⟩)
      omega
    have hvisited := (h.explored x ((h.visited x).2 (.inl hxstack)) y hy).resolve_right hpending
    refine ((h.visited y).1 hvisited).imp_left fun hystack => (hmem y).2 ⟨hystack, ?_⟩
    have := (h.low_complete v x hxstack (h.owner_top hle) y hy hystack).resolve_left hpending
    omega
  have hmutual : ∀ x ∈ top ++ [v], Mutual succ x v := by
    intro x hx
    obtain ⟨hxstack, hle⟩ := (hmem x).1 hx
    obtain ⟨u, hu, -, hreach⟩ := h.up x hxstack
    refine ⟨hreach.trans (h.down u hu v hv ?_), h.down v open_top x hxstack hle⟩
    cases open_cons_iff.1 hu with
    | inl heq => exact heq ▸ Nat.le_refl _
    | inr hu => exact Nat.le_of_lt (h.num_lt_top hu)
  have hdisjoint : ∀ x ∈ top ++ [v], x ∉ done.flatten := fun x hx => h.disjoint x ((hmem x).1 hx).1
  have hclass : ∀ x ∈ top ++ [v], ∀ y, y ∈ top ++ [v] ↔ Mutual succ x y := by
    intro x hx y
    obtain ⟨hxv, hvx⟩ := hmutual x hx
    constructor
    · intro hy
      obtain ⟨hyv, hvy⟩ := hmutual y hy
      exact ⟨hxv.trans hvy, hyv.trans hvx⟩
    · rintro ⟨hxy, hyx⟩
      have hy : y ∈ top ++ [v] ∨ y ∈ done.flatten := by
        refine hxy.induct (P := fun y => y ∈ top ++ [v] ∨ y ∈ done.flatten) (.inl hx)
          fun a b _ hab ha => ?_
        rcases ha with ha | ha
        · exact hsucc a ha b hab
        · exact .inr (h.done_closed a ha b hab)
      exact hy.resolve_right fun hy => hdisjoint x hx (h.mem_done_of_reach hy hyx)
  constructor
  case lt_count => exact h.lt_count
  case sorted => exact hsorted.2.1.2
  case frames_sublist =>
    have hsublist := ((List.sublist_cons_self v _).trans h.frames_sublist).filter
      (fun x => s.num x < s.num v)
    have hrest : (rest.map (·.1)).filter (fun x => s.num x < s.num v) = rest.map (·.1) :=
      List.filter_eq_self.2 fun x hx => by simpa using h.num_lt_top hx
    have hfilter : s.stack.filter (fun x => s.num x < s.num v) = under := by
      have htop : top.filter (fun x => s.num x < s.num v) = [] := by
        refine List.filter_eq_nil_iff.2 fun x hx => ?_
        have := hsorted.2.2 x hx v List.mem_cons_self
        simp only [decide_eq_true_eq]
        omega
      have hbelow : under.filter (fun x => s.num x < s.num v) = under :=
        List.filter_eq_self.2 fun x hx => by simpa using hsorted.2.1.1 x hx
      rw [hstack, List.filter_append, htop, List.filter_cons_of_neg (by simp), hbelow,
        List.nil_append]
    rw [hrest, hfilter] at hsublist
    exact hsublist
  case visited =>
    intro x
    rw [h.visited x, List.flatten_cons, List.mem_append, hunder, hmem]
    have := Nat.lt_or_ge (s.num x) (s.num v)
    tauto
  case disjoint =>
    intro x hx
    obtain ⟨hxstack, hlt⟩ := (hunder x).1 hx
    rw [List.flatten_cons, List.mem_append, hmem]
    rintro (⟨-, hle⟩ | hxdone)
    · omega
    · exact h.disjoint x hxstack hxdone
  case reached => exact h.reached
  case pending => exact fun x y hxy => h.pending x y (pending_cons_iff.2 (.inr hxy))
  case explored => exact fun x hx y hy => (h.explored x hx y hy).imp_right pending_of_top
  case done_closed =>
    intro x hx y hy
    rw [List.flatten_cons, List.mem_append] at hx ⊢
    rcases hx with hx | hx
    · exact hsucc x hx y hy
    · exact .inr (h.done_closed x hx y hy)
  case done_nodup =>
    rw [List.flatten_cons, List.nodup_append]
    refine ⟨?_, h.done_nodup, ?_⟩
    · have hnodup := h.nodup_stack
      rw [hstack] at hnodup
      exact hnodup.sublist (List.Sublist.append_left (by simp) top)
    · rintro x hx _ hx' rfl
      exact hdisjoint x hx hx'
  case done_class =>
    intro C hC
    cases List.mem_cons.1 hC with
    | inl heq => exact heq ▸ ⟨by simp, hclass⟩
    | inr hC => exact h.done_class C hC
  case up =>
    intro x hx
    obtain ⟨hxstack, hlt⟩ := (hunder x).1 hx
    obtain ⟨u, hu, hle, hreach⟩ := h.up x hxstack
    refine ⟨u, (open_cons_iff.1 hu).resolve_left ?_, hle, hreach⟩
    rintro rfl
    omega
  case down => exact fun u hu x hx => h.down u (hopen u hu) x ((hunder x).1 hx).1
  case low_le => exact fun u hu => h.low_le u (hopen u hu)
  case low_sound =>
    intro u hu
    obtain ⟨y, hy, hnum, hreach⟩ := h.low_sound u (hopen u hu)
    have := h.low_le u (hopen u hu)
    have := h.num_lt_top hu
    exact ⟨y, (hunder y).2 ⟨hy, by omega⟩, hnum, hreach⟩
  case low_complete =>
    intro u x hx howner y hy hystack
    obtain ⟨hxstack, hlt⟩ := (hunder x).1 hx
    exact (h.low_complete u x hxstack (owner_below ⟨howner.isOpen, howner.le, howner.last⟩ hlt) y hy
      ((hunder y).1 hystack).1).imp_left pending_of_top

theorem ne_nil_of_low_lt (h : TarjanInv succ roots s ((v, []) :: rest) done)
    (hlt : s.low v < s.num v) : rest ≠ [] := by
  rintro rfl
  obtain ⟨y, hy, hnum, -⟩ := h.low_sound v open_top
  obtain ⟨u, hu, hle, -⟩ := h.up y hy
  cases open_cons_iff.1 hu with
  | inl heq =>
    subst heq
    omega
  | inr hu => cases hu

section Leaving

variable [DecidableEq α]

/-- **A node is left** that is not the first of its component. -/
theorem close_back (h : TarjanInv succ roots s ((v, []) :: rest) done)
    (hlt : s.low v < s.num v) : TarjanInv succ roots (s.back v rest) rest done := by
  cases rest with
  | nil => exact absurd rfl (h.ne_nil_of_low_lt hlt)
  | cons frame rest =>
    obtain ⟨p, ps⟩ := frame
    have hp : Open ((v, []) :: (p, ps) :: rest) p := open_cons_iff.2 (.inr open_top)
    have hnum : s.num p < s.num v := h.num_lt_top open_top
    obtain ⟨y, hy, hlow, hreach⟩ := h.low_sound v open_top
    have hv : v ∈ s.stack := h.mem_stack_of_open open_top
    have hlower := h.lower hp hy ((h.down p hp v hv (Nat.le_of_lt hnum)).trans hreach)
    rw [hlow] at hlower
    have hkept : (s.lower p (s.low v)).low v = s.low v := by
      refine Function.update_of_ne ?_ ..
      rintro rfl
      exact Nat.lt_irrefl _ hnum
    have hlt' : (s.lower p (s.low v)).low v < (s.lower p (s.low v)).num v := by
      rw [hkept]
      exact hlt
    refine hlower.close hlt' fun p' ps' hhead => ?_
    cases hhead
    rw [hkept]
    exact Nat.le_trans (Nat.le_of_eq (Function.update_self ..)) (Nat.min_le_right _ _)

/-- **A node is left** that is the first of its component. -/
theorem pop_back {top under : List α} (h : TarjanInv succ roots s ((v, []) :: rest) done)
    (hroot : s.low v = s.num v) (hstack : s.stack = top ++ v :: under) :
    TarjanInv succ roots (TarjanState.back { s with stack := under } v rest) rest
      ((top ++ [v]) :: done) := by
  have hpop := h.pop hroot hstack
  cases rest with
  | nil => exact hpop
  | cons frame rest =>
    obtain ⟨p, ps⟩ := frame
    have hle : s.low p ≤ s.low v := by
      have := h.low_le p (open_cons_iff.2 (.inr open_top))
      have : s.num p < s.num v := h.num_lt_top open_top
      omega
    have hsame : TarjanState.back { s with stack := under } v ((p, ps) :: rest) =
        { s with stack := under } := by
      unfold TarjanState.back TarjanState.lower
      dsimp only
      rw [Nat.min_eq_left hle, Function.update_eq_self]
    rw [hsame]
    exact hpop

end Leaving

theorem stack_eq_nil (h : TarjanInv succ roots s [] done) : s.stack = [] := by
  refine List.eq_nil_iff_forall_not_mem.2 fun x hx => ?_
  obtain ⟨u, hu, -⟩ := h.up x hx
  cases hu

/-- **The components are the classes** of mutual reachability. -/
theorem components (h : TarjanInv succ roots s [] done) (hroots : ∀ r ∈ roots, s.index r ≠ none) :
    Components succ roots done where
  nodup := h.done_nodup
  nonempty C hC := (h.done_class C hC).1
  mem_flatten x := by
    have hvisited : s.index x ≠ none ↔ x ∈ done.flatten := by
      rw [h.visited, h.stack_eq_nil]
      simp
    rw [← hvisited]
    refine ⟨h.reached x, ?_⟩
    rintro ⟨r, hr, hreach⟩
    refine hreach.induct (P := fun x => s.index x ≠ none) (hroots r hr) fun a b _ hab ha => ?_
    refine (h.explored a ha b hab).resolve_right ?_
    rintro ⟨ws, hws, -⟩
    cases hws
  mem_iff C hC := (h.done_class C hC).2

end TarjanInv

end TldrCode.Graph
