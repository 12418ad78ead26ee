import Mathlib.Algebra.Order.Monoid.Defs
import Mathlib.Algebra.Order.Monoid.Unbundled.Basic
import Mathlib.Data.List.Nodup

/-!
# Shortest walks

The entries of a square matrix over an ordered monoid are the weights of the edges of a graph on the
numbers below its dimension. `IsClosure`: the entries of a matrix are the weights of the shortest
walks of another. A matrix has at most one closure, and if it has one no closed walk is negative.

`floydWarshall_spec` says what is known of a matrix `D` whose entries are above some walk (`Above`)
and below all walks without repetition (`Below`): it is the closure if there is one, and else its
diagonal has a negative entry. `Closed.exists_crossing`: in a matrix that is its own closure two
more edges need to be crossed only once.
-/

namespace TldrCode.Graph

variable {B : Type*} [AddCommMonoid B] [LinearOrder B] [IsOrderedAddMonoid B]

abbrev Weights (B : Type*) := Nat → Nat → B

/-- The weight of the walk from `i` through `l` to `j`. -/
def walkWeight (m : Weights B) : Nat → List Nat → Nat → B
  | i, [], j => m i j
  | i, x :: l, j => m i x + walkWeight m x l j

/-- The members of `l` are below `n`. -/
def Within (n : Nat) (l : List Nat) : Prop := ∀ x ∈ l, x < n

variable {m m' D D' : Weights B} {n i j k x : Nat} {l l₁ l₂ : List Nat}

omit [LinearOrder B] [IsOrderedAddMonoid B] in
theorem walkWeight_append (m : Weights B) (l₁ : List Nat) (x : Nat) (l₂ : List Nat) (j : Nat) :
    ∀ i, walkWeight m i (l₁ ++ x :: l₂) j = walkWeight m i l₁ x + walkWeight m x l₂ j := by
  induction l₁ with
  | nil => exact fun i => rfl
  | cons y l₁ ih => exact fun i => by rw [List.cons_append, walkWeight, ih, walkWeight, add_assoc]

theorem within_append_cons : Within n (l₁ ++ x :: l₂) ↔ Within n l₁ ∧ x < n ∧ Within n l₂ := by
  simp [Within, List.mem_append, or_imp, forall_and]

def NoNegative (m : Weights B) (n : Nat) : Prop :=
  ∀ i < n, ∀ l, Within n l → 0 ≤ walkWeight m i l i

/-- The entries of `D` are above the weight of some walk. -/
def Above (m : Weights B) (n : Nat) (D : Weights B) : Prop :=
  ∀ i < n, ∀ j < n, ∃ l, Within n l ∧ walkWeight m i l j ≤ D i j

/-- The entries of `D` are the weights of the shortest walks. -/
structure IsClosure (m : Weights B) (n : Nat) (D : Weights B) : Prop where
  above : Above m n D
  below : ∀ i < n, ∀ j < n, ∀ l, Within n l → D i j ≤ walkWeight m i l j

/-- The entry `(i, j)` lowered to `v`, unless it is below already. -/
def relax (m : Weights B) (i j : Nat) (v : B) : Weights B :=
  let current := m i j
  let tighter := min current v
  if tighter ≠ current then fun a b => if a = i ∧ b = j then tighter else m a b else m

/-! ## Closures -/

omit [IsOrderedAddMonoid B] in
theorem Above.self (m : Weights B) (n : Nat) : Above m n m :=
  fun _ _ _ _ => ⟨[], by simp [Within], le_rfl⟩

theorem exists_walk_add {u v : B} (hk : k < n) (hu : ∃ l, Within n l ∧ walkWeight m i l k ≤ u)
    (hv : ∃ l, Within n l ∧ walkWeight m k l j ≤ v) :
    ∃ l, Within n l ∧ walkWeight m i l j ≤ u + v := by
  obtain ⟨l₁, hl₁, h₁⟩ := hu
  obtain ⟨l₂, hl₂, h₂⟩ := hv
  refine ⟨l₁ ++ k :: l₂, within_append_cons.2 ⟨hl₁, hk, hl₂⟩, ?_⟩
  rw [walkWeight_append]
  exact add_le_add h₁ h₂

theorem Above.add (h : Above m n D) (hi : i < n) (hk : k < n) (hj : j < n) :
    ∃ l, Within n l ∧ walkWeight m i l j ≤ D i k + D k j :=
  exists_walk_add hk (h i hi k hk) (h k hk j hj)

namespace IsClosure

variable (h : IsClosure m n D)
include h

omit [IsOrderedAddMonoid B] in
theorem le (hi : i < n) (hj : j < n) : D i j ≤ m i j := h.below i hi j hj [] (by simp [Within])

theorem triangle (hi : i < n) (hj : j < n) (hk : k < n) : D i j ≤ D i k + D k j := by
  obtain ⟨l, hl, hle⟩ := h.above.add hi hk hj
  exact (h.below i hi j hj l hl).trans hle

omit [IsOrderedAddMonoid B] in
theorem unique (h' : IsClosure m n D') (hi : i < n) (hj : j < n) : D i j = D' i j := by
  obtain ⟨l, hl, hle⟩ := h.above i hi j hj
  obtain ⟨l', hl', hle'⟩ := h'.above i hi j hj
  exact le_antisymm ((h.below i hi j hj l' hl').trans hle') ((h'.below i hi j hj l hl).trans hle)

omit [IsOrderedAddMonoid B] in
theorem nonneg (hm : NoNegative m n) (hi : i < n) : 0 ≤ D i i := by
  obtain ⟨l, hl, hle⟩ := h.above i hi i hi
  exact (hm i hi l hl).trans hle

end IsClosure

theorem exists_repeated (h : ¬ l.Nodup) : ∃ a x b c, l = a ++ x :: (b ++ x :: c) := by
  induction l with
  | nil => exact absurd List.nodup_nil h
  | cons y l ih =>
    by_cases hy : y ∈ l
    · obtain ⟨b, c, rfl⟩ := List.append_of_mem hy
      exact ⟨[], y, b, c, rfl⟩
    · obtain ⟨a, x, b, c, rfl⟩ := ih fun hl => h (List.nodup_cons.2 ⟨hy, hl⟩)
      exact ⟨y :: a, x, b, c, rfl⟩

/-- A walk with a closed part that is not negative is shortened by leaving it out. -/
theorem walkWeight_skip (a b c : List Nat) (h : 0 ≤ walkWeight m x b x) :
    walkWeight m i (a ++ x :: c) j ≤ walkWeight m i (a ++ x :: (b ++ x :: c)) j := by
  rw [walkWeight_append, walkWeight_append, walkWeight_append]
  exact add_le_add_right (le_add_of_nonneg_left h) _

/-- The closed walks without repetition decide whether a closed walk is negative. -/
theorem noNegative_of_nodup
    (h : ∀ i < n, ∀ l : List Nat, l.Nodup → Within n l → 0 ≤ walkWeight m i l i) :
    NoNegative m n := by
  intro i hi l
  induction hlen : l.length using Nat.strong_induction_on generalizing i l with
  | _ len ih =>
    intro hl
    by_cases hn : l.Nodup
    · exact h i hi l hn hl
    · obtain ⟨a, x, b, c, rfl⟩ := exists_repeated hn
      obtain ⟨ha, hx, hbc⟩ := within_append_cons.1 hl
      obtain ⟨hb, -, hc⟩ := within_append_cons.1 hbc
      simp only [List.length_append, List.length_cons] at hlen
      have hclosed : 0 ≤ walkWeight m x b x := ih b.length (by omega) x hx b rfl hb
      refine (ih (a ++ x :: c).length ?_ i hi _ rfl
        (within_append_cons.2 ⟨ha, hx, hc⟩)).trans (walkWeight_skip a b c hclosed)
      simp only [List.length_append, List.length_cons]
      omega

/-- Where no closed walk is negative, repetitions do not make a walk shorter. -/
theorem NoNegative.exists_nodup (h : NoNegative m n) (hl : Within n l) :
    ∃ l', l'.Nodup ∧ Within n l' ∧ walkWeight m i l' j ≤ walkWeight m i l j := by
  induction hlen : l.length using Nat.strong_induction_on generalizing l with
  | _ len ih =>
    by_cases hn : l.Nodup
    · exact ⟨l, hn, hl, le_rfl⟩
    · obtain ⟨a, x, b, c, rfl⟩ := exists_repeated hn
      obtain ⟨ha, hx, hbc⟩ := within_append_cons.1 hl
      obtain ⟨hb, -, hc⟩ := within_append_cons.1 hbc
      simp only [List.length_append, List.length_cons] at hlen
      obtain ⟨l', hn', hl', hle⟩ := ih (a ++ x :: c).length
        (by simp only [List.length_append, List.length_cons]; omega)
        (within_append_cons.2 ⟨ha, hx, hc⟩) rfl
      exact ⟨l', hn', hl', hle.trans (walkWeight_skip a b c (h x hx b hb))⟩

/-! ## Lowering entries -/

omit [AddCommMonoid B] [IsOrderedAddMonoid B] in
theorem relax_apply (m : Weights B) (i j : Nat) (v : B) (a b : Nat) :
    relax m i j v a b = if a = i ∧ b = j then min (m i j) v else m a b := by
  unfold relax
  split_ifs with hne hab hab
  · exact if_pos hab
  · exact if_neg hab
  · rw [not_not.1 hne, hab.1, hab.2]
  · rfl

omit [AddCommMonoid B] [IsOrderedAddMonoid B] in
theorem relax_le (m : Weights B) (i j : Nat) (v : B) (a b : Nat) : relax m i j v a b ≤ m a b := by
  rw [relax_apply]
  split_ifs with hab
  · rw [hab.1, hab.2]
    exact min_le_left _ _
  · exact le_rfl

omit [AddCommMonoid B] [IsOrderedAddMonoid B] in
theorem relax_self_le (m : Weights B) (i j : Nat) (v : B) : relax m i j v i j ≤ v := by
  rw [relax_apply, if_pos ⟨rfl, rfl⟩]
  exact min_le_right _ _

omit [IsOrderedAddMonoid B] in
theorem Above.relax (h : Above m n D) {v : B} (hv : ∃ l, Within n l ∧ walkWeight m i l j ≤ v) :
    Above m n (relax D i j v) := by
  intro a ha b hb
  rw [relax_apply]
  split_ifs with hab
  · obtain ⟨rfl, rfl⟩ := hab
    rcases min_choice (D a b) v with hmin | hmin
    · rw [hmin]
      exact h a ha b hb
    · rw [hmin]
      exact hv
  · exact h a ha b hb

omit [AddCommMonoid B] [IsOrderedAddMonoid B] in
/-- Steps that only lower entries, each of which brings its own entry below a bound. -/
theorem foldl_relax {ι : Type*} (step : Weights B → ι → Weights B) (P : ι → Weights B → Prop)
    (hle : ∀ D x a b, step D x a b ≤ D a b) (hP : ∀ D x, (∀ a b, D a b ≤ m a b) → P x (step D x))
    (hmono : ∀ x D D', (∀ a b, D' a b ≤ D a b) → P x D → P x D') (l : List ι) :
    ∀ D : Weights B, (∀ a b, D a b ≤ m a b) →
      (∀ a b, l.foldl step D a b ≤ D a b) ∧ ∀ x ∈ l, P x (l.foldl step D) := by
  induction l with
  | nil => exact fun D _ => ⟨fun _ _ => le_rfl, by simp⟩
  | cons x l ih =>
    intro D hD
    have hD' : ∀ a b, step D x a b ≤ m a b := fun a b => (hle D x a b).trans (hD a b)
    obtain ⟨h₁, h₂⟩ := ih (step D x) hD'
    refine ⟨fun a b => (h₁ a b).trans (hle D x a b), fun y hy => ?_⟩
    rcases List.mem_cons.1 hy with rfl | hy
    · exact hmono y _ _ h₁ (hP D y hD)
    · exact h₂ y hy

/-- The entries of `D` are below the walks without repetition through numbers below `k`. -/
def Below (m : Weights B) (n k : Nat) (D : Weights B) : Prop :=
  ∀ i < n, ∀ j < n, ∀ l : List Nat, l.Nodup → Within k l → D i j ≤ walkWeight m i l j

omit [IsOrderedAddMonoid B] in
theorem Below.zero (m : Weights B) (n : Nat) : Below m n 0 m := by
  intro i _ j _ l _ hl
  cases l with
  | nil => exact le_rfl
  | cons x l => exact absurd (hl x List.mem_cons_self) (Nat.not_lt_zero x)

theorem Below.succ (h : Below m n k D) (hk : k < n)
    (hle : ∀ i < n, ∀ j < n, D' i j ≤ D i j)
    (hround : ∀ i < n, ∀ j < n, D' i j ≤ D i k + D k j) : Below m n (k + 1) D' := by
  intro i hi j hj l hn hl
  have hless : ∀ l' : List Nat, (∀ x ∈ l', x ∈ l) → k ∉ l' → Within k l' := by
    intro l' hsub hkl x hx
    have hne : x ≠ k := fun he => hkl (he ▸ hx)
    have := hl x (hsub x hx)
    omega
  by_cases hkl : k ∈ l
  · obtain ⟨l₁, l₂, rfl⟩ := List.append_of_mem hkl
    rw [List.nodup_middle, List.nodup_cons, List.mem_append, not_or, List.nodup_append] at hn
    obtain ⟨⟨hk₁, hk₂⟩, hn₁, hn₂, -⟩ := hn
    rw [walkWeight_append]
    refine (hround i hi j hj).trans (add_le_add ?_ ?_)
    · exact h i hi k hk l₁ hn₁ (hless l₁ (fun x hx => by simp [hx]) hk₁)
    · exact h k hk j hj l₂ hn₂ (hless l₂ (fun x hx => by simp [hx]) hk₂)
  · exact (hle i hi j hj).trans (h i hi j hj l hn (hless l (fun _ hx => hx) hkl))

/-- **What Floyd–Warshall finds**: the closure, or a negative entry on the diagonal. -/
theorem floydWarshall_spec (habove : Above m n D) (hbelow : Below m n n D) :
    (NoNegative m n → IsClosure m n D) ∧ ((∀ i < n, 0 ≤ D i i) → NoNegative m n) := by
  constructor
  · refine fun h => ⟨habove, fun i hi j hj l hl => ?_⟩
    obtain ⟨l', hn', hl', hle⟩ := h.exists_nodup hl
    exact (hbelow i hi j hj l' hn' hl').trans hle
  · exact fun h => noNegative_of_nodup fun i hi l hn hl => (h i hi).trans (hbelow i hi i hi l hn hl)

/-! ## Two more edges -/

/-- The walks in a closed matrix that use the edges `(a, b)` and `(a', b')` of weight `c`, each of
them at most once. -/
def crossings (m : Weights B) (a b a' b' : Nat) (c : B) (i j : Nat) : List B :=
  [m i j, m i a + c + m b j, m i a' + c + m b' j, m i a + (c + m b a' + c) + m b' j,
    m i a' + (c + m b' a + c) + m b j]

structure Closed (m : Weights B) (n : Nat) : Prop where
  diagonal : ∀ i < n, m i i = 0
  triangle : ∀ i < n, ∀ j < n, ∀ k < n, m i j ≤ m i k + m k j

section Crossings

variable {a b a' b' : Nat} {c w : B}

omit [LinearOrder B] [IsOrderedAddMonoid B] in
theorem mem_crossings_swap (h : w ∈ crossings m a' b' a b c i j) :
    w ∈ crossings m a b a' b' c i j := by
  simp only [crossings, List.mem_cons, List.not_mem_nil, or_false] at h ⊢
  rcases h with h | h | h | h | h
  · exact .inl h
  · exact .inr (.inr (.inl h))
  · exact .inr (.inl h)
  · exact .inr (.inr (.inr (.inr h)))
  · exact .inr (.inr (.inr (.inl h)))

variable (hm : Closed m n)
include hm

theorem Closed.crossings_old (ha : a < n) (ha' : a' < n) (hi : i < n) (hk : k < n) (hj : j < n)
    (hw : w ∈ crossings m a b a' b' c k j) :
    ∃ w' ∈ crossings m a b a' b' c i j, w' ≤ m i k + w := by
  have hvia : ∀ x < n, ∀ u v : B, m i x + u + v ≤ m i k + (m k x + u + v) := fun x hx u v => by
    rw [add_assoc, add_assoc, ← add_assoc (m i k)]
    exact add_le_add (hm.triangle i hi x hx k hk) le_rfl
  simp only [crossings, List.mem_cons, List.not_mem_nil, or_false] at hw ⊢
  rcases hw with rfl | rfl | rfl | rfl | rfl
  · exact ⟨_, .inl rfl, hm.triangle i hi j hj k hk⟩
  · exact ⟨_, .inr (.inl rfl), hvia a ha _ _⟩
  · exact ⟨_, .inr (.inr (.inl rfl)), hvia a' ha' _ _⟩
  · exact ⟨_, .inr (.inr (.inr (.inl rfl))), hvia a ha _ _⟩
  · exact ⟨_, .inr (.inr (.inr (.inr rfl))), hvia a' ha' _ _⟩

theorem Closed.crossings_new (ha : a < n) (hba : 0 ≤ c + m b a)
    (hbb : 0 ≤ c + m b a' + c + m b' a) (hw : w ∈ crossings m a b a' b' c b j) :
    ∃ w' ∈ crossings m a b a' b' c a j, w' ≤ c + w := by
  have hdrop : ∀ x y : B, 0 ≤ x → m a a + y ≤ x + y := fun x y hx => by
    rw [hm.diagonal a ha]
    exact add_le_add hx le_rfl
  simp only [crossings, List.mem_cons, List.not_mem_nil, or_false] at hw ⊢
  rcases hw with rfl | rfl | rfl | rfl | rfl
  · refine ⟨_, .inr (.inl rfl), ?_⟩
    rw [hm.diagonal a ha, zero_add]
  · refine ⟨_, .inr (.inl rfl), ?_⟩
    rw [add_assoc, add_assoc (m b a), ← add_assoc c (m b a)]
    exact hdrop _ _ hba
  · refine ⟨_, .inr (.inr (.inr (.inl rfl))), ?_⟩
    rw [hm.diagonal a ha, zero_add, add_assoc, add_assoc, add_assoc]
  · refine ⟨_, .inr (.inr (.inr (.inl rfl))), ?_⟩
    rw [add_assoc, add_assoc (m b a), ← add_assoc c (m b a)]
    exact hdrop _ _ hba
  · refine ⟨_, .inr (.inl rfl), ?_⟩
    have hsum : c + (m b a' + (c + m b' a + c) + m b j) =
        (c + m b a' + c + m b' a) + (c + m b j) := by
      simp only [add_assoc]
    rw [hsum, add_assoc]
    exact hdrop _ _ hbb

/-- **Every walk with two more edges** is above a crossing, unless the edges close a negative
walk. -/
theorem Closed.exists_crossing (ha : a < n) (hb : b < n) (ha' : a' < n) (hb' : b' < n)
    (hm' : ∀ i j, m' i j = m i j ∨ m' i j = c ∧ (i = a ∧ j = b ∨ i = a' ∧ j = b'))
    (hba : 0 ≤ c + m b a) (hba' : 0 ≤ c + m b' a') (hbb : 0 ≤ c + m b a' + c + m b' a)
    (l : List Nat) (hl : Within n l) : ∀ i < n, ∀ j < n,
      ∃ w ∈ crossings m a b a' b' c i j, w ≤ walkWeight m' i l j := by
  have hbb' : 0 ≤ c + m b' a + c + m b a' := by
    rwa [add_assoc, add_comm, ← add_assoc] at hbb
  induction l with
  | nil =>
    intro i hi j hj
    rw [walkWeight]
    rcases hm' i j with h | ⟨h, ⟨rfl, rfl⟩ | ⟨rfl, rfl⟩⟩
    · exact ⟨m i j, List.mem_cons_self, h.ge⟩
    · refine ⟨m i i + c + m j j, by simp [crossings], ?_⟩
      rw [hm.diagonal i hi, hm.diagonal j hj, zero_add, add_zero, h]
    · refine ⟨m i i + c + m j j, by simp [crossings], ?_⟩
      rw [hm.diagonal i hi, hm.diagonal j hj, zero_add, add_zero, h]
  | cons x l ih =>
    intro i hi j hj
    obtain ⟨hx, htail⟩ := List.forall_mem_cons.1 hl
    obtain ⟨w, hw, hle⟩ := ih htail x hx j hj
    have key : ∃ w' ∈ crossings m a b a' b' c i j, w' ≤ m' i x + w := by
      rcases hm' i x with h | ⟨h, ⟨rfl, rfl⟩ | ⟨rfl, rfl⟩⟩
      · rw [h]
        exact hm.crossings_old ha ha' hi hx hj hw
      · rw [h]
        exact hm.crossings_new ha hba hbb hw
      · rw [h]
        obtain ⟨w', hw', hle'⟩ := hm.crossings_new ha' hba' hbb' (mem_crossings_swap hw)
        exact ⟨w', mem_crossings_swap hw', hle'⟩
    obtain ⟨w', hw', hle'⟩ := key
    exact ⟨w', hw', hle'.trans (add_le_add le_rfl hle)⟩

end Crossings

end TldrCode.Graph
