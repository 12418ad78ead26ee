import Mathlib.Algebra.BigOperators.Field
import Mathlib.Algebra.BigOperators.Ring.Finset
import Mathlib.Algebra.Order.BigOperators.Ring.Finset
import Mathlib.Data.Rat.Cast.Order
import Mathlib.Data.Set.Card
import Mathlib.Tactic.FieldSimp
import TldrCode.Graph.BreadthFirst

/-!
# Counting shortest paths

The walks of a length between two nodes are finite in number, and the shortest ones are those whose
length is the distance. A shortest path through a node is a shortest path to it and a walk from it
(`card_through`). So the sum over all ends of the fractions of the shortest paths that go through a
node, its dependency, is known from the dependencies of the nodes one further from the source
(`Distances.dependency_eq`).
-/

namespace TldrCode.Graph

variable {α : Type*} [DecidableEq α]

/-! ## Walks of a length -/

/-- The walks with so many edges from a node to another. -/
def walks (next : α → List α) : Nat → α → α → Finset (List α)
  | 0, x, t => if x = t then {[x]} else ∅
  | n + 1, x, t => (next x).toFinset.biUnion fun y => (walks next n y t).image (x :: ·)

variable {next : α → List α} {m n k : Nat} {s t u v x y : α} {l p q : List α} {V : Finset α}

theorem mem_walks :
    l ∈ walks next n x t ↔ Walk (fun a b => b ∈ next a) x t l ∧ l.length = n + 1 := by
  induction n generalizing x l with
  | zero =>
    rw [walks]
    constructor
    · intro h
      split_ifs at h with hxt
      · subst hxt
        obtain rfl := Finset.mem_singleton.1 h
        exact ⟨.single x, rfl⟩
      · cases h
    · rintro ⟨w, hlength⟩
      obtain ⟨a, rfl⟩ := List.length_eq_one_iff.1 hlength
      obtain ⟨-, hhead, hlast⟩ := w
      rw [List.head?_cons, Option.some_inj] at hhead
      rw [List.getLast?_singleton, Option.some_inj] at hlast
      rw [← hhead, ← hlast, if_pos rfl]
      exact Finset.mem_singleton_self _
  | succ n ih =>
    rw [walks]
    simp only [Finset.mem_biUnion, List.mem_toFinset, Finset.mem_image, ih]
    constructor
    · rintro ⟨y, hy, l, ⟨w, hlength⟩, rfl⟩
      exact ⟨w.cons hy, congrArg (· + 1) hlength⟩
    · rintro ⟨⟨hchain, hhead, hlast⟩, hlength⟩
      match l, hlength with
      | [a], hlength => cases hlength
      | a :: b :: l, hlength =>
        obtain rfl := Option.some_inj.1 hhead
        rw [List.isChain_cons_cons] at hchain
        rw [List.getLast?_cons_cons] at hlast
        exact ⟨b, hchain.1, b :: l, ⟨⟨hchain.2, rfl, hlast⟩, Nat.succ.inj hlength⟩, rfl⟩

theorem card_walks_succ :
    (walks next (n + 1) x t).card = ∑ y ∈ (next x).toFinset, (walks next n y t).card := by
  rw [walks, Finset.card_biUnion]
  · exact Finset.sum_congr rfl fun y _ => Finset.card_image_of_injective _ List.cons_injective
  · intro y _ z _ hyz
    rw [Function.onFun, Finset.disjoint_left]
    intro l hl hl'
    obtain ⟨p, hp, rfl⟩ := Finset.mem_image.1 hl
    obtain ⟨q, hq, heq⟩ := Finset.mem_image.1 hl'
    obtain rfl := (List.cons.inj heq).2
    exact hyz (Option.some_inj.1 ((mem_walks.1 hp).1.head.symm.trans (mem_walks.1 hq).1.head))

theorem card_walks_succ_last (hclosed : ∀ x ∈ V, ∀ y ∈ next x, y ∈ V) (hx : x ∈ V) :
    (walks next (n + 1) x t).card = ∑ y ∈ V with t ∈ next y, (walks next n x y).card := by
  induction n generalizing x with
  | zero =>
    rw [card_walks_succ]
    have hone : ∀ a b : α, (walks next 0 a b).card = if a = b then 1 else 0 := by
      intro a b
      rw [walks]
      split_ifs <;> rfl
    simp only [hone, Finset.sum_ite_eq, Finset.sum_ite_eq', List.mem_toFinset, Finset.mem_filter]
    exact if_congr ⟨fun h => ⟨hx, h⟩, And.right⟩ rfl rfl
  | succ n ih =>
    rw [card_walks_succ]
    simp only [card_walks_succ (n := n)]
    rw [Finset.sum_comm]
    refine Finset.sum_congr rfl fun y hy => ?_
    rw [← card_walks_succ]
    exact ih (hclosed x hx y (List.mem_toFinset.1 hy))

theorem walks_append (hp : p ∈ walks next m x y) (hq : y :: q ∈ walks next n y t) :
    p ++ q ∈ walks next (m + n) x t := by
  obtain ⟨w, hlength⟩ := mem_walks.1 hp
  obtain ⟨w', hlength'⟩ := mem_walks.1 hq
  obtain ⟨p, rfl⟩ := w.eq_concat
  rw [List.length_append, List.length_singleton] at hlength
  rw [List.length_cons] at hlength'
  rw [List.append_assoc]
  refine mem_walks.2 ⟨w.append w', ?_⟩
  rw [List.length_append, List.singleton_append, List.length_cons]
  omega

theorem nonempty_walks_add (h : (walks next m x y).Nonempty) (h' : (walks next n y t).Nonempty) :
    (walks next (m + n) x t).Nonempty := by
  obtain ⟨p, hp⟩ := h
  obtain ⟨q, hq⟩ := h'
  obtain ⟨q, rfl⟩ := (mem_walks.1 hq).1.eq_cons
  exact ⟨_, walks_append hp hq⟩

theorem nonempty_walks_one (h : y ∈ next x) : (walks next 1 x y).Nonempty :=
  ⟨[x, y], mem_walks.2 ⟨(Walk.single y).cons h, rfl⟩⟩

/-! ## Distances -/

/-- The number of edges of the shortest walks to a node. -/
def IsDist (next : α → List α) (s x : α) (n : Nat) : Prop :=
  (walks next n s x).Nonempty ∧ ∀ m < n, walks next m s x = ∅

theorem IsDist.le (h : IsDist next s x n) (hm : (walks next m s x).Nonempty) : n ≤ m :=
  Nat.le_of_not_lt fun hlt => hm.ne_empty (h.2 m hlt)

theorem IsDist.unique (h : IsDist next s x m) (h' : IsDist next s x n) : m = n :=
  Nat.le_antisymm (h.le h'.1) (h'.le h.1)

theorem exists_isDist (h : (walks next m s x).Nonempty) : ∃ n ≤ m, IsDist next s x n := by
  induction m using Nat.strong_induction_on with
  | _ m ih =>
    by_cases hmin : ∀ k < m, walks next k s x = ∅
    · exact ⟨m, Nat.le_refl m, h, hmin⟩
    · push Not at hmin
      obtain ⟨k, hk, hne⟩ := hmin
      obtain ⟨n, hn, hdist⟩ := ih k hk hne
      exact ⟨n, hn.trans hk.le, hdist⟩

theorem isDist_self : IsDist next s s 0 :=
  ⟨⟨[s], mem_walks.2 ⟨.single s, rfl⟩⟩, fun _ h => absurd h (Nat.not_lt_zero _)⟩

theorem reachWithin_iff : ReachWithin (fun x y => y ∈ next x) [s] n x ↔
    ∃ m ≤ n, (walks next m s x).Nonempty := by
  rw [reachWithin_iff_walk (E := fun y x => y ∈ next x)]
  constructor
  · rintro ⟨a, ha, l, w, hl⟩
    obtain rfl := List.mem_singleton.1 ha
    have hpos : 0 < l.length := List.length_pos_of_ne_nil w.ne_nil
    refine ⟨l.length - 1, by omega, l.reverse, mem_walks.2 ⟨Walk.reverse_iff.2 w, ?_⟩⟩
    rw [List.length_reverse]
    omega
  · rintro ⟨m, hm, l, hl⟩
    obtain ⟨w, hlength⟩ := mem_walks.1 hl
    refine ⟨s, List.mem_singleton_self s, l.reverse, Walk.reverse_iff.2 w, ?_⟩
    rw [List.length_reverse]
    omega

theorem shortestFrom_iff :
    ShortestFrom (fun x y => y ∈ next x) [s] n x ↔ IsDist next s x n := by
  unfold ShortestFrom
  simp only [reachWithin_iff, not_exists, not_and, Finset.not_nonempty_iff_eq_empty]
  constructor
  · rintro ⟨⟨m, hm, hne⟩, hmin⟩
    obtain rfl : m = n := by
      by_contra hmn
      exact hne.ne_empty (hmin m (by omega) m (Nat.le_refl m))
    exact ⟨hne, fun k hk => hmin k hk k (Nat.le_refl k)⟩
  · rintro ⟨hne, hmin⟩
    exact ⟨⟨n, Nat.le_refl n, hne⟩, fun k hk m hm => hmin m (by omega)⟩

/-! ## Shortest paths -/

/-- A walk that no other one between its ends is shorter than. -/
structure ShortestPath (E : α → α → Prop) (s t : α) (p : List α) : Prop where
  walk : Walk E s t p
  shortest : ∀ q, Walk E s t q → p.length ≤ q.length

theorem shortestPath_iff (h : IsDist next s t n) :
    ShortestPath (fun a b => b ∈ next a) s t p ↔ p ∈ walks next n s t := by
  constructor
  · rintro ⟨w, hshortest⟩
    obtain ⟨q, hq⟩ := h.1
    obtain ⟨w', hlength⟩ := mem_walks.1 hq
    have hle := hshortest q w'
    have hpos : 0 < p.length := List.length_pos_of_ne_nil w.ne_nil
    have hmem : p ∈ walks next (p.length - 1) s t := mem_walks.2 ⟨w, by omega⟩
    have hge := h.le ⟨p, hmem⟩
    have heq : p.length - 1 = n := by omega
    exact heq ▸ hmem
  · intro hp
    obtain ⟨w, hlength⟩ := mem_walks.1 hp
    refine ⟨w, fun q w' => ?_⟩
    have hpos : 0 < q.length := List.length_pos_of_ne_nil w'.ne_nil
    have hge := h.le ⟨q, mem_walks.2 ⟨w', (Nat.sub_add_cancel hpos).symm⟩⟩
    omega

/-- The fraction of the shortest paths between two nodes that go through a node. -/
noncomputable def fractionThrough (E : α → α → Prop) (v s t : α) : ℚ :=
  {p | ShortestPath E s t p ∧ v ∈ p}.ncard / {p | ShortestPath E s t p}.ncard

theorem fractionThrough_eq (h : IsDist next s t n) :
    fractionThrough (fun a b => b ∈ next a) v s t =
      ((walks next n s t).filter (v ∈ ·)).card / (walks next n s t).card := by
  have hall : {p | ShortestPath (fun a b => b ∈ next a) s t p} = ↑(walks next n s t) := by
    ext p
    exact shortestPath_iff h
  have hthrough : {p | ShortestPath (fun a b => b ∈ next a) s t p ∧ v ∈ p} =
      ↑((walks next n s t).filter (v ∈ ·)) := by
    ext p
    rw [Finset.mem_coe, Finset.mem_filter]
    exact and_congr_left fun _ => shortestPath_iff h
  rw [fractionThrough, hall, hthrough, Set.ncard_coe_finset, Set.ncard_coe_finset]

omit [DecidableEq α] in
theorem fractionThrough_eq_zero (h : ∀ p, ¬ Walk (fun a b => b ∈ next a) s t p) :
    fractionThrough (fun a b => b ∈ next a) v s t = 0 := by
  have hall : {p | ShortestPath (fun a b => b ∈ next a) s t p} = ∅ :=
    Set.eq_empty_of_forall_notMem fun p hp => h p hp.walk
  rw [fractionThrough, hall, Set.ncard_empty, Nat.cast_zero, div_zero]

theorem fractionThrough_mem_Icc (next : α → List α) (v s t : α) :
    fractionThrough (fun a b => b ∈ next a) v s t ∈ Set.Icc 0 1 := by
  refine ⟨div_nonneg (Nat.cast_nonneg _) (Nat.cast_nonneg _), ?_⟩
  by_cases h : ∃ n, IsDist next s t n
  · obtain ⟨n, h⟩ := h
    rw [fractionThrough_eq h]
    refine div_le_one_of_le₀ ?_ (Nat.cast_nonneg _)
    exact Nat.cast_le.2 (Finset.card_le_card (Finset.filter_subset _ _))
  · rw [fractionThrough_eq_zero]
    · exact zero_le_one
    · intro p w
      have hpos : 0 < p.length := List.length_pos_of_ne_nil w.ne_nil
      obtain ⟨n, -, hn⟩ :=
        exists_isDist ⟨p, mem_walks.2 ⟨w, (Nat.sub_add_cancel hpos).symm⟩⟩
      exact h ⟨n, hn⟩

theorem fractionThrough_source (hne : v ≠ s) :
    fractionThrough (fun a b => b ∈ next a) v s s = 0 := by
  have hempty : (walks next 0 s s).filter (v ∈ ·) = ∅ := by
    rw [walks, if_pos rfl]
    exact Finset.filter_eq_empty_iff.2 fun p hp hmem =>
      hne (List.mem_singleton.1 (Finset.mem_singleton.1 hp ▸ hmem))
  rw [fractionThrough_eq isDist_self, hempty, Finset.card_empty, Nat.cast_zero, zero_div]

/-- The betweenness of a node: the mean of the fractions of the shortest paths that go through it,
over the ordered pairs of other nodes. -/
noncomputable def betweenness (E : α → α → Prop) (V : Finset α) (v : α) : ℚ :=
  (∑ s ∈ V.erase v, ∑ t ∈ (V.erase v).erase s, fractionThrough E v s t) /
    ((V.card - 1) * (V.card - 2) : Nat)

theorem betweenness_mem_Icc (next : α → List α) (hv : v ∈ V) :
    betweenness (fun a b => b ∈ next a) V v ∈ Set.Icc 0 1 := by
  have hfraction := fun s t => fractionThrough_mem_Icc next v s t
  have hinner : ∀ s ∈ V.erase v,
      ∑ t ∈ (V.erase v).erase s, fractionThrough (fun a b => b ∈ next a) v s t ≤
        (V.card - 2 : Nat) := by
    intro s hs
    refine (Finset.sum_le_card_nsmul _ _ 1 fun t _ => (hfraction s t).2).trans ?_
    rw [Finset.card_erase_of_mem hs, Finset.card_erase_of_mem hv, nsmul_one, Nat.sub_sub]
  refine ⟨div_nonneg ?_ (Nat.cast_nonneg _), div_le_one_of_le₀ ?_ (Nat.cast_nonneg _)⟩
  · exact Finset.sum_nonneg fun s _ => Finset.sum_nonneg fun t _ => (hfraction s t).1
  · refine (Finset.sum_le_card_nsmul _ _ _ hinner).trans ?_
    rw [Finset.card_erase_of_mem hv, nsmul_eq_mul, Nat.cast_mul]

theorem exists_of_mem_walks (hp : p ∈ walks next n s t) (hv : v ∈ p) :
    ∃ k l₁ l₂, p = l₁ ++ v :: l₂ ∧ l₁.length = k ∧ k ≤ n ∧
      l₁ ++ [v] ∈ walks next k s v ∧ v :: l₂ ∈ walks next (n - k) v t := by
  obtain ⟨w, hlength⟩ := mem_walks.1 hp
  obtain ⟨l₁, l₂, rfl, w₁, w₂⟩ := w.of_mem hv
  rw [List.length_append, List.length_cons] at hlength
  refine ⟨l₁.length, l₁, l₂, rfl, rfl, by omega, mem_walks.2 ⟨w₁, by simp⟩,
    mem_walks.2 ⟨w₂, ?_⟩⟩
  rw [List.length_cons]
  omega

theorem exists_of_mem_shortest (hv : IsDist next s v m) (ht : IsDist next s t n)
    (hp : p ∈ walks next n s t) (hmem : v ∈ p) : m ≤ n ∧ ∃ l₁ l₂, p = l₁ ++ v :: l₂ ∧
      l₁.length = m ∧ l₁ ++ [v] ∈ walks next m s v ∧ v :: l₂ ∈ walks next (n - m) v t := by
  obtain ⟨k, l₁, l₂, heq, hlength, hk, h₁, h₂⟩ := exists_of_mem_walks hp hmem
  have hmk : m ≤ k := hv.le ⟨_, h₁⟩
  have hle := ht.le (nonempty_walks_add hv.1 ⟨_, h₂⟩)
  obtain rfl : k = m := by omega
  exact ⟨hk, l₁, l₂, heq, hlength, h₁, h₂⟩

/-- **The shortest paths through a node** are made of a shortest path to it and a walk from it. -/
theorem card_through (hv : IsDist next s v m) (ht : IsDist next s t n) (hmn : m ≤ n) :
    ((walks next n s t).filter (v ∈ ·)).card =
      (walks next m s v).card * (walks next (n - m) v t).card := by
  rw [← Finset.card_product]
  refine Finset.card_nbij' (fun p => (p.take (m + 1), p.drop m)) (fun c => c.1 ++ c.2.tail)
    ?_ ?_ ?_ ?_
  · intro p hp
    obtain ⟨hp, hmem⟩ := Finset.mem_filter.1 hp
    obtain ⟨-, l₁, l₂, rfl, rfl, h₁, h₂⟩ := exists_of_mem_shortest hv ht hp hmem
    rw [Finset.mem_coe, Finset.mem_product]
    refine ⟨?_, ?_⟩
    · dsimp only
      rw [List.take_length_add_append, List.take_succ_cons, List.take_zero]
      exact h₁
    · dsimp only
      rw [List.drop_left]
      exact h₂
  · rintro ⟨p, q⟩ hc
    obtain ⟨hp, hq⟩ := Finset.mem_product.1 hc
    obtain ⟨q, rfl⟩ := (mem_walks.1 hq).1.eq_cons
    have happend := walks_append hp hq
    rw [Nat.add_sub_cancel' hmn] at happend
    exact Finset.mem_filter.2
      ⟨happend, List.mem_append_left _ (mem_walks.1 hp).1.last_mem⟩
  · intro p hp
    obtain ⟨hp, hmem⟩ := Finset.mem_filter.1 hp
    dsimp only
    rw [List.tail_drop, List.take_append_drop]
  · rintro ⟨p, q⟩ hc
    obtain ⟨hp, hq⟩ := Finset.mem_product.1 hc
    obtain ⟨w, hlength⟩ := mem_walks.1 hp
    obtain ⟨q, rfl⟩ := (mem_walks.1 hq).1.eq_cons
    obtain ⟨p, rfl⟩ := w.eq_concat
    dsimp only at hlength ⊢
    rw [List.length_append, List.length_singleton] at hlength
    obtain rfl := Nat.succ.inj hlength
    rw [List.tail_cons, List.append_assoc, List.take_length_add_append, List.drop_left]
    rfl

/-! ## Dependencies -/

/-- The nodes that a source reaches, with their distances. -/
structure Distances (next : α → List α) (s : α) (R : Finset α) (dist : α → Nat) : Prop where
  source : s ∈ R
  closed : ∀ x ∈ R, ∀ y ∈ next x, y ∈ R
  isDist : ∀ x ∈ R, IsDist next s x (dist x)

def pathCount (next : α → List α) (s : α) (dist : α → Nat) (x : α) : ℚ :=
  (walks next (dist x) s x).card

/-- The number of ways in which a shortest path through a node goes on to its end. -/
def countAfter (next : α → List α) (dist : α → Nat) (v t : α) : Nat :=
  if dist v ≤ dist t then (walks next (dist t - dist v) v t).card else 0

/-- The sum of the fractions of the shortest paths through a node to the other nodes. -/
def dependency (next : α → List α) (s : α) (R : Finset α) (dist : α → Nat) (v : α) : ℚ :=
  ∑ t ∈ R.erase v, pathCount next s dist v * countAfter next dist v t / pathCount next s dist t

/-- The nodes that come next on the shortest paths through a node. -/
def nextOnPaths (next : α → List α) (R : Finset α) (dist : α → Nat) (v : α) : Finset α :=
  R.filter fun w => w ∈ next v ∧ dist w = dist v + 1

variable {R : Finset α} {dist : α → Nat} {w : α}

theorem countAfter_self (v : α) : countAfter next dist v v = 1 := by
  rw [countAfter, if_pos (Nat.le_refl _), Nat.sub_self, walks, if_pos rfl, Finset.card_singleton]

theorem exists_distances (hclosed : ∀ x ∈ V, ∀ y ∈ next x, y ∈ V) (hs : s ∈ V) :
    ∃ (R : Finset α) (dist : α → Nat), R ⊆ V ∧ Distances next s R dist := by
  classical
  have hdist : ∀ x, ∃ n, (∃ m, (walks next m s x).Nonempty) → IsDist next s x n := by
    intro x
    by_cases hx : ∃ m, (walks next m s x).Nonempty
    · obtain ⟨m, hm⟩ := hx
      obtain ⟨n, -, hn⟩ := exists_isDist hm
      exact ⟨n, fun _ => hn⟩
    · exact ⟨0, fun h => absurd h hx⟩
  choose dist hdist using hdist
  refine ⟨V.filter fun x => ∃ m, (walks next m s x).Nonempty, dist, Finset.filter_subset _ _,
    ⟨Finset.mem_filter.2 ⟨hs, 0, isDist_self.1⟩, fun x hx y hy => ?_, fun x hx => ?_⟩⟩
  · obtain ⟨hx, m, hm⟩ := Finset.mem_filter.1 hx
    exact Finset.mem_filter.2
      ⟨hclosed x hx y hy, m + 1, nonempty_walks_add hm (nonempty_walks_one hy)⟩
  · exact hdist x (Finset.mem_filter.1 hx).2

namespace Distances

variable (h : Distances next s R dist)

include h

theorem mem_of_walk (hx : x ∈ R) (hn : (walks next n x t).Nonempty) : t ∈ R := by
  obtain ⟨l, hl⟩ := hn
  obtain ⟨w, -⟩ := mem_walks.1 hl
  exact Reach.induct (P := (· ∈ R)) ⟨l, w⟩ hx fun a b _ hab ha => h.closed a ha b hab

theorem dist_source : dist s = 0 := (h.isDist s h.source).unique isDist_self

theorem dist_le_add (hv : v ∈ R) (hk : (walks next k v t).Nonempty) : dist t ≤ dist v + k :=
  (h.isDist t (h.mem_of_walk hv hk)).le (nonempty_walks_add (h.isDist v hv).1 hk)

theorem pathCount_source : pathCount next s dist s = 1 := by
  rw [pathCount, h.dist_source, walks, if_pos rfl, Finset.card_singleton, Nat.cast_one]

theorem pathCount_pos (hx : x ∈ R) : 0 < pathCount next s dist x :=
  Nat.cast_pos.2 (Finset.card_pos.2 (h.isDist x hx).1)

theorem dist_lt_card (hx : x ∈ R) : dist x < R.card := by
  obtain ⟨l, hl⟩ := (h.isDist x hx).1
  obtain ⟨l, w, hnodup, -⟩ := (mem_walks.1 hl).1.exists_nodup
  have hpos : 0 < l.length := List.length_pos_of_ne_nil w.ne_nil
  have hle := (h.isDist x hx).le ⟨l, mem_walks.2 ⟨w, (Nat.sub_add_cancel hpos).symm⟩⟩
  have hsub : l.toFinset ⊆ R := fun y hy => by
    obtain ⟨q, w'⟩ := w.reach_of_mem (List.mem_toFinset.1 hy)
    have hpos' : 0 < q.length := List.length_pos_of_ne_nil w'.ne_nil
    exact h.mem_of_walk h.source ⟨q, mem_walks.2 ⟨w', (Nat.sub_add_cancel hpos').symm⟩⟩
  have hcard := Finset.card_le_card hsub
  rw [List.toFinset_card_of_nodup hnodup] at hcard
  omega

/-- **The shortest paths to a node** are counted at the nodes before it. -/
theorem pathCount_eq (hx : x ∈ R) (hne : x ≠ s) : pathCount next s dist x =
    ∑ u ∈ R with x ∈ next u ∧ dist x = dist u + 1, pathCount next s dist u := by
  have hpos : dist x ≠ 0 := by
    intro hzero
    obtain ⟨l, hl⟩ := (h.isDist x hx).1
    rw [hzero, walks] at hl
    split_ifs at hl with hsx
    · exact hne hsx.symm
    · cases hl
  obtain ⟨k, hk⟩ := Nat.exists_eq_succ_of_ne_zero hpos
  unfold pathCount
  rw [hk, card_walks_succ_last h.closed h.source, ← Finset.filter_filter, Nat.cast_sum,
    Finset.sum_filter (fun u => k.succ = dist u + 1)]
  refine Finset.sum_congr rfl fun u hu => ?_
  obtain ⟨hu, hux⟩ := Finset.mem_filter.1 hu
  split_ifs with hku
  · rw [Nat.succ.inj hku]
  · -- a shorter walk to a node before `x` would be a shorter one to `x`
    have hempty : walks next k s u = ∅ := by
      by_contra hne
      have hle := (h.isDist u hu).le (Finset.nonempty_iff_ne_empty.2 hne)
      have hge := h.dist_le_add hu (nonempty_walks_one hux)
      omega
    rw [hempty, Finset.card_empty, Nat.cast_zero]

/-- **What goes on from a node** goes on from one of the nodes that come next. -/
theorem countAfter_eq (hv : v ∈ R) : countAfter next dist v t =
    (if t = v then 1 else 0) + ∑ w ∈ nextOnPaths next R dist v, countAfter next dist w t := by
  have hnone : dist t ≤ dist v →
      ∑ w ∈ nextOnPaths next R dist v, countAfter next dist w t = 0 := by
    intro hle
    refine Finset.sum_eq_zero fun w hw => ?_
    obtain ⟨-, -, hw⟩ := Finset.mem_filter.1 hw
    exact if_neg (by omega)
  by_cases htv : t = v
  · subst htv
    rw [countAfter_self, hnone (Nat.le_refl _), if_pos rfl]
  · rw [if_neg htv, Nat.zero_add]
    by_cases hlt : dist v < dist t
    · obtain ⟨k, hk⟩ := Nat.exists_eq_add_of_lt hlt
      have hnext : nextOnPaths next R dist v =
          (next v).toFinset.filter fun w => dist w = dist v + 1 := by
        ext w
        rw [nextOnPaths, Finset.mem_filter, Finset.mem_filter, List.mem_toFinset]
        exact ⟨And.right, fun hw => ⟨h.closed v hv w hw.1, hw⟩⟩
      rw [countAfter, if_pos hlt.le, show dist t - dist v = k + 1 by omega, card_walks_succ, hnext,
        Finset.sum_filter]
      refine Finset.sum_congr rfl fun w hw => ?_
      have hw := List.mem_toFinset.1 hw
      split_ifs with hdist
      · rw [countAfter, if_pos (by omega), show dist t - dist w = k by omega]
      · have hempty : walks next k w t = ∅ := by
          by_contra hne
          have hwR := h.closed v hv w hw
          have hle := h.dist_le_add hv (nonempty_walks_one hw)
          have hge := h.dist_le_add hwR (Finset.nonempty_iff_ne_empty.2 hne)
          omega
        rw [hempty, Finset.card_empty]
    · rw [hnone (by omega), countAfter]
      split_ifs with hle
      · rw [show dist t - dist v = 0 by omega, walks, if_neg (Ne.symm htv), Finset.card_empty]
      · rfl

theorem one_add_dependency (hv : v ∈ R) : 1 + dependency next s R dist v =
    pathCount next s dist v *
      ∑ t ∈ R, (countAfter next dist v t : ℚ) / pathCount next s dist t := by
  have hpos := h.pathCount_pos hv
  rw [← Finset.add_sum_erase R _ hv, mul_add, countAfter_self, dependency, Finset.mul_sum]
  congr 1
  · rw [Nat.cast_one, mul_one_div_cancel hpos.ne']
  · exact Finset.sum_congr rfl fun t _ => mul_div_assoc _ _ _

/-- **The dependency of a node** from those of the nodes that come next. -/
theorem dependency_eq (hv : v ∈ R) : dependency next s R dist v =
    ∑ w ∈ nextOnPaths next R dist v,
      pathCount next s dist v / pathCount next s dist w * (1 + dependency next s R dist w) := by
  have hnext : ∀ w ∈ nextOnPaths next R dist v, w ∈ R := fun w hw => (Finset.mem_filter.1 hw).1
  calc dependency next s R dist v
      = ∑ t ∈ R, pathCount next s dist v *
          (∑ w ∈ nextOnPaths next R dist v, (countAfter next dist w t : ℚ)) /
            pathCount next s dist t := by
        have hself : ∑ w ∈ nextOnPaths next R dist v, (countAfter next dist w v : ℚ) = 0 := by
          have hcount := h.countAfter_eq (t := v) hv
          rw [countAfter_self, if_pos rfl] at hcount
          exact_mod_cast (Nat.add_eq_left.1 hcount.symm)
        rw [← Finset.sum_erase R (a := v) (by rw [hself, mul_zero, zero_div]), dependency]
        refine Finset.sum_congr rfl fun t ht => ?_
        rw [h.countAfter_eq hv, if_neg (Finset.ne_of_mem_erase ht), Nat.zero_add, Nat.cast_sum]
    _ = ∑ w ∈ nextOnPaths next R dist v, pathCount next s dist v *
          ∑ t ∈ R, (countAfter next dist w t : ℚ) / pathCount next s dist t := by
        simp only [Finset.mul_sum, Finset.sum_div, mul_div_assoc]
        exact Finset.sum_comm
    _ = ∑ w ∈ nextOnPaths next R dist v,
          pathCount next s dist v / pathCount next s dist w *
            (1 + dependency next s R dist w) := by
        refine Finset.sum_congr rfl fun w hw => ?_
        have hpos := h.pathCount_pos (hnext w hw)
        rw [h.one_add_dependency (hnext w hw), ← mul_assoc, div_mul_cancel₀ _ hpos.ne']

theorem fractionThrough_of_not_mem (ht : t ∉ R) :
    fractionThrough (fun a b => b ∈ next a) v s t = 0 := by
  refine fractionThrough_eq_zero fun p w => ht ?_
  have hpos : 0 < p.length := List.length_pos_of_ne_nil w.ne_nil
  exact h.mem_of_walk h.source ⟨p, mem_walks.2 ⟨w, (Nat.sub_add_cancel hpos).symm⟩⟩

theorem fractionThrough_of_not_mem_through (hv : v ∉ R) :
    fractionThrough (fun a b => b ∈ next a) v s t = 0 := by
  by_cases ht : t ∈ R
  · have hempty : (walks next (dist t) s t).filter (v ∈ ·) = ∅ := by
      refine Finset.filter_eq_empty_iff.2 fun p hp hmem => hv ?_
      obtain ⟨k, l₁, l₂, -, -, -, hwalk, -⟩ := exists_of_mem_walks hp hmem
      exact h.mem_of_walk h.source ⟨_, hwalk⟩
    rw [fractionThrough_eq (h.isDist t ht), hempty, Finset.card_empty, Nat.cast_zero, zero_div]
  · exact h.fractionThrough_of_not_mem ht

theorem fractionThrough_eq_div (hv : v ∈ R) (ht : t ∈ R) :
    fractionThrough (fun a b => b ∈ next a) v s t =
      pathCount next s dist v * countAfter next dist v t / pathCount next s dist t := by
  rw [fractionThrough_eq (h.isDist t ht), countAfter]
  split_ifs with hle
  · rw [card_through (h.isDist v hv) (h.isDist t ht) hle, Nat.cast_mul]
    rfl
  · have hempty : (walks next (dist t) s t).filter (v ∈ ·) = ∅ :=
      Finset.filter_eq_empty_iff.2 fun p hp hmem =>
        hle (exists_of_mem_shortest (h.isDist v hv) (h.isDist t ht) hp hmem).1
    rw [hempty, Finset.card_empty, Nat.cast_zero, zero_div, mul_zero, zero_div]

/-- **The dependency is a sum of fractions** of the shortest paths through the node. -/
theorem dependency_eq_sum (hv : v ∈ R) (hne : v ≠ s) (hR : R ⊆ V) :
    dependency next s R dist v =
      ∑ t ∈ (V.erase v).erase s, fractionThrough (fun a b => b ∈ next a) v s t := by
  rw [Finset.sum_erase _ (fractionThrough_source hne),
    ← Finset.sum_subset (Finset.erase_subset_erase v hR)]
  · exact Finset.sum_congr rfl fun t ht =>
      (h.fractionThrough_eq_div hv (Finset.mem_of_mem_erase ht)).symm
  · intro t ht htR
    exact h.fractionThrough_of_not_mem fun hmem =>
      htR (Finset.mem_erase.2 ⟨Finset.ne_of_mem_erase ht, hmem⟩)

end Distances

end TldrCode.Graph
