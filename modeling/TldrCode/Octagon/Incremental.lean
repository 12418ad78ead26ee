import TldrCode.Octagon.Strong

/-!
# The incremental closure

`incremental_closure` lowers one entry of a strongly closed matrix and its mirror image, and closes
again in one pass over the entries. No shortest walk crosses an edge twice
(`Closed.exists_crossing`), and the four terms of the pass are the ways to cross both edges once, so
the pass finds the closure: `incrementalClosure_eq_strongClosure`.
-/

namespace TldrCode.Octagon

open TldrCode.Graph

variable {B : Type*} [LawfulBound B] {m m' M R : Weights B} {n a b i j : Nat} {c : B}

/-! ## The pass over the entries -/

/-- The least of the four ways through the edges. -/
def bestThrough (a b : Nat) (c cBar bridgeAbBar bridgeBarAb : B) (m : Weights B) (i j : Nat) : B :=
  min (min (m i a + c + m b j) (m i (complement b) + cBar + m (complement a) j))
    (min (m i a + bridgeAbBar + m (complement a) j) (m i (complement b) + bridgeBarAb + m b j))

theorem throughEdge_eq (a b : Nat) (c cBar bridgeAbBar bridgeBarAb : B) (m : Weights B)
    (i j : Nat) : throughEdge a b c cBar bridgeAbBar bridgeBarAb m i j =
      relax m i j (bestThrough a b c cBar bridgeAbBar bridgeBarAb m i j) := by
  unfold throughEdge relax setEntry bestThrough
  simp only [min_assoc]

/-- The pass of `incremental_closure`. -/
def throughEdges (n a b : Nat) (c bridgeAbBar bridgeBarAb : B) (m : Weights B) : Weights B :=
  (List.range n).foldl (fun m i => (List.range n).foldl
    (fun m j => throughEdge a b c c bridgeAbBar bridgeBarAb m i j) m) m

/-- **The pass** brings every entry below its crossings in the old matrix. -/
theorem throughEdges_le (hle : ∀ i j, m' i j ≤ m i j) {u v : B}
    (hu : u = c + m b (complement b) + c) (hv : v = c + m (complement a) a + c) :
    ∀ i < n, ∀ j < n, ∀ w ∈ crossings m a b (complement b) (complement a) c i j,
      throughEdges n a b c u v m' i j ≤ w := by
  have hstep : ∀ D : Weights B, ∀ i j, (∀ x y, D x y ≤ m' x y) →
      ∀ w ∈ crossings m a b (complement b) (complement a) c i j,
        throughEdge a b c c u v D i j i j ≤ w := by
    intro D i j hD w hw
    have hDm : ∀ x y, D x y ≤ m x y := fun x y => (hD x y).trans (hle x y)
    have hbest := relax_self_le D i j (bestThrough a b c c u v D i j)
    rw [throughEdge_eq]
    simp only [crossings, List.mem_cons, List.not_mem_nil, or_false] at hw
    rcases hw with rfl | rfl | rfl | rfl | rfl
    · exact (relax_le D i j _ i j).trans (hDm i j)
    · refine hbest.trans ((min_le_left _ _).trans ((min_le_left _ _).trans ?_))
      exact add_le_add (add_le_add (hDm i a) le_rfl) (hDm b j)
    · refine hbest.trans ((min_le_left _ _).trans ((min_le_right _ _).trans ?_))
      exact add_le_add (add_le_add (hDm i _) le_rfl) (hDm _ j)
    · refine hbest.trans ((min_le_right _ _).trans ((min_le_left _ _).trans ?_))
      exact add_le_add (add_le_add (hDm i a) hu.le) (hDm _ j)
    · refine hbest.trans ((min_le_right _ _).trans ((min_le_right _ _).trans ?_))
      exact add_le_add (add_le_add (hDm i _) hv.le) (hDm b j)
  have hmono : ∀ D : Weights B, ∀ i j x y, throughEdge a b c c u v D i j x y ≤ D x y := by
    intro D i j x y
    rw [throughEdge_eq]
    exact relax_le D i j _ x y
  obtain ⟨-, hP⟩ := foldl_relax (m := m')
    (fun M i => (List.range n).foldl (fun m j => throughEdge a b c c u v m i j) M)
    (fun i D => ∀ j < n, ∀ w ∈ crossings m a b (complement b) (complement a) c i j, D i j ≤ w)
    (fun D i => (foldl_relax (m := D) (fun m j => throughEdge a b c c u v m i j) (fun _ _ => True)
      (fun D j => hmono D i j) (fun _ _ _ => trivial) (fun _ _ _ _ h => h) (List.range n) D
      fun _ _ => le_rfl).1)
    (fun D i hD j hj w hw => (foldl_relax (m := m') (fun m j => throughEdge a b c c u v m i j)
      (fun j D => ∀ w ∈ crossings m a b (complement b) (complement a) c i j, D i j ≤ w)
      (fun D j => hmono D i j) (fun D j hD => hstep D i j hD)
      (fun j D D' h hP w hw => (h i j).trans (hP w hw)) (List.range n) D hD).2 j
        (List.mem_range.2 hj) w hw)
    (fun i D D' h hP j hj w hw => (h i j).trans (hP j hj w hw)) (List.range n) m' fun _ _ => le_rfl
  exact fun i hi => hP i (List.mem_range.2 hi)

/-- **The pass** keeps every entry above some walk. -/
theorem throughEdges_above (hn : ∀ i < n, complement i < n) (ha : a < n) (hb : b < n)
    (hc : m' a b = c) (hcBar : m' (complement b) (complement a) = c) :
    Above m' n (throughEdges n a b c (c + m' b (complement b) + c)
      (c + m' (complement a) a + c) m') := by
  have ha' := hn a ha
  have hb' := hn b hb
  have hself := Above.self m' n
  have hab : ∃ l, Within n l ∧ walkWeight m' a l b ≤ c := hc ▸ hself a ha b hb
  have hbar : ∃ l, Within n l ∧ walkWeight m' (complement b) l (complement a) ≤ c :=
    hcBar ▸ hself _ hb' _ ha'
  refine List.foldlRecOn _ _ hself fun D hD i hi => List.foldlRecOn _ _ hD fun D hD j hj => ?_
  have hi := List.mem_range.1 hi
  have hj := List.mem_range.1 hj
  rw [throughEdge_eq]
  refine hD.relax ?_
  have hfirst := exists_walk_add hb (exists_walk_add ha (hD i hi a ha) hab) (hD b hb j hj)
  have hsecond := exists_walk_add ha' (exists_walk_add hb' (hD i hi _ hb') hbar) (hD _ ha' j hj)
  have hboth := exists_walk_add ha' (exists_walk_add ha (hD i hi a ha)
    (exists_walk_add hb' (exists_walk_add hb hab (hself b hb _ hb')) hbar)) (hD _ ha' j hj)
  have hboth' := exists_walk_add hb (exists_walk_add hb' (hD i hi _ hb')
    (exists_walk_add ha (exists_walk_add ha' hbar (hself _ ha' a ha)) hab)) (hD b hb j hj)
  have hmin : ∀ {u v : B}, (∃ l, Within n l ∧ walkWeight m' i l j ≤ u) →
      (∃ l, Within n l ∧ walkWeight m' i l j ≤ v) →
      ∃ l, Within n l ∧ walkWeight m' i l j ≤ min u v := by
    intro u v hu hv
    rcases min_choice u v with h | h
    · rwa [h]
    · rwa [h]
  exact hmin (hmin hfirst hsecond) (hmin hboth hboth')

/-! ## The lowered matrix -/

/-- The entry and its mirror image at `c`. -/
def lowered (m : Weights B) (a b : Nat) (c : B) : Weights B :=
  setEntry (setEntry m a b c) (complement b) (complement a) c

omit [LawfulBound B] in
theorem lowered_apply (m : Weights B) (a b : Nat) (c : B) (i j : Nat) : lowered m a b c i j =
    if i = complement b ∧ j = complement a then c else if i = a ∧ j = b then c else m i j := rfl

omit [LawfulBound B] in
theorem lowered_cases (m : Weights B) (a b : Nat) (c : B) (i j : Nat) :
    lowered m a b c i j = m i j ∨
      lowered m a b c i j = c ∧ (i = a ∧ j = b ∨ i = complement b ∧ j = complement a) := by
  rw [lowered_apply]
  split_ifs with h₁ h₂
  · exact .inr ⟨rfl, .inr h₁⟩
  · exact .inr ⟨rfl, .inl h₂⟩
  · exact .inl rfl

omit [LawfulBound B] in
theorem lowered_left (m : Weights B) (a b : Nat) (c : B) : lowered m a b c a b = c := by
  rw [lowered_apply]
  split_ifs with h₁ h₂
  · rfl
  · rfl
  · exact absurd ⟨rfl, rfl⟩ h₂

omit [LawfulBound B] in
theorem lowered_right (m : Weights B) (a b : Nat) (c : B) :
    lowered m a b c (complement b) (complement a) = c := if_pos ⟨rfl, rfl⟩

omit [LawfulBound B] in
theorem lowered_bridge (m : Weights B) (a b : Nat) (c : B) :
    lowered m a b c b (complement b) = m b (complement b) ∧
      lowered m a b c (complement a) a = m (complement a) a := by
  have ha := complement_ne a
  have hb := complement_ne b
  constructor
  · rw [lowered_apply, if_neg (fun h => hb h.1.symm), if_neg (fun h => hb h.2)]
  · rw [lowered_apply, if_neg (fun h => ha h.2.symm), if_neg (fun h => ha h.1)]

section StronglyClosed

variable (hm : StronglyClosed n m) (hc : c ≤ m a b) (ha : a < n) (hb : b < n)
include hm hc ha hb

theorem lowered_le (i j : Nat) : lowered m a b c i j ≤ m i j := by
  rcases lowered_cases m a b c i j with h | ⟨h, ⟨rfl, rfl⟩ | ⟨rfl, rfl⟩⟩
  · exact h.le
  · exact h.trans_le hc
  · rw [h, hm.coherent a ha b hb]
    exact hc

/-- **The pass closes the lowered matrix**, if no entry on the diagonal becomes negative. -/
theorem throughEdges_closure (hn : ∀ i < n, complement i < n)
    (hR : R = throughEdges n a b c (c + m b (complement b) + c) (c + m (complement a) a + c)
      (lowered m a b c)) :
    (NoNegative (lowered m a b c) n ↔ ∀ i < n, 0 ≤ R i i) ∧
      (NoNegative (lowered m a b c) n → IsClosure (lowered m a b c) n R) := by
  have ha' := hn a ha
  have hb' := hn b hb
  have hclosed : Closed m n := ⟨hm.diagonal, hm.triangle⟩
  have hle : ∀ i < n, ∀ j < n, ∀ w ∈ crossings m a b (complement b) (complement a) c i j,
      R i j ≤ w := hR ▸ throughEdges_le (lowered_le hm hc ha hb) rfl rfl
  have habove : Above (lowered m a b c) n R := by
    have h := throughEdges_above hn ha hb (lowered_left m a b c) (lowered_right m a b c)
    rwa [(lowered_bridge m a b c).1, (lowered_bridge m a b c).2, ← hR] at h
  have hbelow : (∀ i < n, 0 ≤ R i i) → ∀ i < n, ∀ j < n, ∀ l, Within n l →
      R i j ≤ walkWeight (lowered m a b c) i l j := by
    intro hdiag
    -- the crossings that lead back to where an edge starts are not negative
    have hba : 0 ≤ c + m b a := by
      refine (hdiag b hb).trans (hle b hb b hb _ ?_)
      simp [crossings, hclosed.diagonal b hb, add_comm]
    have hba' : 0 ≤ c + m (complement a) (complement b) := by
      rwa [hm.coherent b hb a ha]
    have hbb : 0 ≤ c + m b (complement b) + c + m (complement a) a := by
      refine (hdiag _ ha').trans (hle _ ha' _ ha' _ ?_)
      simp [crossings, hclosed.diagonal _ ha', add_comm, add_left_comm, add_assoc]
    intro i hi j hj l hl
    obtain ⟨w, hw, hwl⟩ := hclosed.exists_crossing ha hb hb' ha'
      (lowered_cases m a b c) hba hba' hbb
      l hl i hi j hj
    exact (hle i hi j hj w hw).trans hwl
  have hdiag : NoNegative (lowered m a b c) n → ∀ i < n, 0 ≤ R i i := by
    intro hneg i hi
    obtain ⟨l, hl, hlw⟩ := habove i hi i hi
    exact (hneg i hi l hl).trans hlw
  refine ⟨⟨hdiag, fun h i hi l hl => (h i hi).trans (hbelow h i hi i hi l hl)⟩, fun hneg => ?_⟩
  exact ⟨habove, hbelow (hdiag hneg)⟩

end StronglyClosed

/-! ## Against the strong closure -/

namespace Dbm

variable (dbm : Dbm B)

/-- The matrix with the entry `(a, b)` lowered. -/
def lower (dbm : Dbm B) (a b : Nat) (value : B) : Dbm B := dbm.set a b (min (dbm.get a b) value)

section

variable (hm : StronglyClosed dbm.dim dbm.get) (ha : a < dbm.dim) (hb : b < dbm.dim) (value : B)
  (hc : c = min (dbm.get a b) value)
include hm ha hb hc

/-- Writing the half matrix lowers both entries, except that a negative entry on the diagonal has
no mirror image. -/
theorem lower_get :
    (dbm.lower a b value).get = lowered dbm.get a b c ∨
      ¬ NoNegative (dbm.lower a b value).get dbm.dim ∧
      ¬ NoNegative (lowered dbm.get a b c) dbm.dim := by
  have hget : ∀ i j, (dbm.lower a b value).get i j =
      if SameCell a b i j then c else dbm.get i j := fun i j => by
    rw [lower, get_set dbm _ i j ha hb, hc]
  by_cases hab : a = b
  · subst hab
    have hdiag := hm.diagonal a ha
    rcases (show c ≤ 0 by rw [hc, hdiag]; exact min_le_left _ _).lt_or_eq with hlt | heq
    · right
      have hwalk : ∀ m : Weights B, m a a = c → ¬ NoNegative m dbm.dim := fun m hma hneg => by
        have h := hneg a ha [] (by simp [Within])
        rw [walkWeight, hma] at h
        exact absurd h hlt.not_ge
      refine ⟨hwalk _ ?_, hwalk _ (lowered_left dbm.get a a c)⟩
      rw [hget, if_pos (.inl ⟨rfl, rfl⟩)]
    · left
      have hbar := hm.diagonal _ (dbm.complement_lt_dim a ha)
      funext i j
      trans dbm.get i j
      · rw [hget]
        split_ifs with hcell
        · rcases hcell with ⟨rfl, rfl⟩ | ⟨hne, -⟩
          · rw [heq, hdiag]
          · exact absurd rfl hne
        · rfl
      · rcases lowered_cases dbm.get a a c i j with h | ⟨h, ⟨rfl, rfl⟩ | ⟨rfl, rfl⟩⟩
        · exact h.symm
        · rw [h, heq, hdiag]
        · rw [h, heq, hbar]
  · left
    funext i j
    rw [hget, lowered_apply]
    by_cases h₁ : i = a ∧ j = b
    · rw [if_pos (.inl h₁), if_pos h₁, ite_self]
    · by_cases h₂ : i = complement b ∧ j = complement a
      · rw [if_pos (.inr ⟨hab, h₂⟩), if_pos h₂]
      · rw [if_neg (fun h => h.elim h₁ fun h => h₂ h.2), if_neg h₂, if_neg h₁]

theorem incrementalClosure_eq (hM : M = strengthen dbm.dim (throughEdges dbm.dim a b c
      (c + dbm.get b (complement b) + c) (c + dbm.get (complement a) a + c)
      (lowered dbm.get a b c))) :
    incrementalClosure dbm a b value =
      if hasNegative dbm.dim M then (.empty, dbm)
      else (.closed, writeBackUpper dbm.dim (writeBackLower dbm.dim dbm M) M) := by
  have hcBar : min (setEntry dbm.get a b c (complement b) (complement a)) c = c := by
    refine min_eq_right ?_
    rw [setEntry]
    split_ifs with h
    · exact le_rfl
    · rw [hm.coherent a ha b hb, hc]
      exact min_le_left _ _
  obtain ⟨h₁, h₂⟩ := lowered_bridge dbm.get a b c
  rw [incrementalClosure]
  simp only [← hc, hcBar]
  rw [← lowered, h₁, h₂, ← throughEdges, ← hM]

end

/-- **The incremental closure** is empty when the strong closure of the lowered matrix is, and
leaves the same matrix otherwise. -/
theorem incrementalClosure_eq_strongClosure (hm : StronglyClosed dbm.dim dbm.get)
    (ha : a < dbm.dim) (hb : b < dbm.dim) (value : B) :
    ((incrementalClosure dbm a b value).1 = .empty ↔
      (strongClosure (dbm.lower a b value)).1 = .empty) ∧
    ((incrementalClosure dbm a b value).1 ≠ .empty →
      (incrementalClosure dbm a b value).2 = (strongClosure (dbm.lower a b value)).2) := by
  obtain ⟨c, hc⟩ : ∃ c, c = min (dbm.get a b) value := ⟨_, rfl⟩
  obtain ⟨R, hR⟩ : ∃ R, R = throughEdges dbm.dim a b c (c + dbm.get b (complement b) + c)
    (c + dbm.get (complement a) a + c) (lowered dbm.get a b c) := ⟨_, rfl⟩
  have hn := dbm.complement_lt_dim
  have hdim : (dbm.lower a b value).dim = dbm.dim := set_dim _ _ _ _
  obtain ⟨hneg, hclosure⟩ := throughEdges_closure hm (hc.trans_le (min_le_left _ _)) ha hb hn hR
  have happly := strengthen_apply R dbm.dim
  have hsame : NoNegative (dbm.lower a b value).get dbm.dim ↔
      NoNegative (lowered dbm.get a b c) dbm.dim := by
    rcases dbm.lower_get hm ha hb value hc with h | ⟨h₁, h₂⟩
    · rw [h]
    · exact iff_of_false h₁ h₂
  have hempty : hasNegative dbm.dim (strengthen dbm.dim R) ↔
      ¬ NoNegative (lowered dbm.get a b c) dbm.dim := by
    rw [hasNegative_iff]
    constructor
    · rintro ⟨i, hi, hlt⟩ hno
      rw [happly i hi i hi] at hlt
      exact absurd (strengthened_nonneg hn (hclosure hno) hno hi) hlt.not_ge
    · intro hno
      by_contra hdiag
      refine hno (hneg.2 fun i hi => ?_)
      refine (not_lt.1 fun hlt => hdiag ⟨i, hi, ?_⟩)
      rw [happly i hi i hi]
      exact (min_le_left _ _).trans_lt hlt
  rw [dbm.incrementalClosure_eq hm ha hb value hc (congrArg _ hR), strongClosure_empty_iff, hdim,
    hsame, ← hempty]
  split_ifs with h
  · exact ⟨iff_of_true rfl h, fun hne => absurd rfl hne⟩
  · refine ⟨iff_of_false (fun h => by cases h) h, fun _ => ?_⟩
    have hno : NoNegative (lowered dbm.get a b c) dbm.dim := by
      by_contra hno
      exact h (hempty.2 hno)
    have hD := hclosure hno
    have hlow : (dbm.lower a b value).get = lowered dbm.get a b c :=
      (dbm.lower_get hm ha hb value hc).resolve_right fun h => h.2 hno
    obtain ⟨hdim', D, hD', -, hget'⟩ :=
      (dbm.lower a b value).strongClosure_get (hdim.symm ▸ hsame.2 hno)
    rw [hdim] at hdim' hget' hD'
    rw [hlow] at hD'
    have hDR : ∀ i < dbm.dim, ∀ j < dbm.dim, strengthened D i j = strengthened R i j := by
      intro i hi j hj
      rw [strengthened, strengthened, hD'.unique hD hi hj, hD'.unique hD hi (hn i hi),
        hD'.unique hD (hn j hj) hj]
    have hdiag : ∀ i < dbm.dim, strengthened R i i = 0 := by
      intro i hi
      refine (strengthened_diagonal hn hD hno hi).2 ⟨[], by simp [Within], ?_⟩
      exact (lowered_le hm (hc.trans_le (min_le_left _ _)) ha hb i i).trans (hm.diagonal i hi).le
    have hcoh : Coherent dbm.dim (strengthen dbm.dim R) := by
      intro i hi j hj hij
      rw [happly i hi j hj, happly _ (hn j hj) _ (hn i hi), ← hDR i hi j hj,
        ← hDR _ (hn j hj) _ (hn i hi), ← hget' i hi j hj, ← hget' _ (hn j hj) _ (hn i hi)]
      exact (strongClosure (dbm.lower a b value)).2.get_complement hij
    obtain ⟨hdim'', hget''⟩ := writeBackUpper_get hcoh (fun i hi => by
      rw [happly _ (hn i hi) _ (hn i hi), happly i hi i hi, hdiag i hi, hdiag _ (hn i hi)])
      (rfl : dbm.dim = dbm.dim)
    refine eq_of_get (hdim''.trans hdim'.symm) fun i hi j hj => ?_
    rw [hdim''] at hi hj
    rw [hget'' i hi j hj, happly i hi j hj, hget' i hi j hj, hDR i hi j hj]

theorem incrementalClosure_new :
    ((incrementalClosure (new 2 : Dbm Exact) 0 3 5).1 = .empty ↔
      (strongClosure ((new 2 : Dbm Exact).lower 0 3 5)).1 = .empty) ∧
    ((incrementalClosure (new 2 : Dbm Exact) 0 3 5).1 ≠ .empty →
      (incrementalClosure (new 2 : Dbm Exact) 0 3 5).2 =
        (strongClosure ((new 2 : Dbm Exact).lower 0 3 5)).2) :=
  incrementalClosure_eq_strongClosure (new 2) (new_stronglyClosed 2) (by decide) (by decide) 5

end Dbm

end TldrCode.Octagon
