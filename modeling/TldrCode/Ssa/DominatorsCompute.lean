import TldrCode.Ssa.DominatorsForest
import TldrCode.Graph.Semidominator

/-!
# Lengauer–Tarjan computes the immediate dominators

`Phase2` is the state after the vertices numbered after `i` are processed: their semidominators
are final, they are linked, and each waits in the bucket of its semidominator or has the vertex
with the least semidominator on its path recorded (`IdomSet`). `processVertex_spec` goes from `i`
to `i - 1`, `finalizeVertex_spec` turns the records into immediate dominators, and `compute_spec`
is the whole run.
-/

namespace TldrCode.Ssa.LengauerTarjan

open Function (update update_apply)
open TldrCode.Graph

variable {cfg : CfgInfo} {T : DfsTree cfg.Edge cfg.entryBlock} {lt₀ lt lt' : LengauerTarjan}
  {i m n p u v w : Nat}

/-! ## Semidominators -/

/-- The key of `v` while the vertices numbered after `i` are linked. -/
noncomputable def semiKey (T : DfsTree cfg.Edge cfg.entryBlock) (i v : Nat) : Nat :=
  if i < T.num v then T.num (T.semi v) else T.num v

/-- The semidominators are compared by their numbers. -/
noncomputable abbrev semiNum (T : DfsTree cfg.Edge cfg.entryBlock) (v : Nat) : Nat :=
  T.num (T.semi v)

/-- `m` is at most every candidate for the semidominator of `w` that the predecessor `v` gives. -/
def Covers (T : DfsTree cfg.Edge cfg.entryBlock) (w v m : Nat) : Prop :=
  (T.num v < T.num w → m ≤ T.num v) ∧
    ∀ u, T.num w < T.num u → T.Anc u v → m ≤ semiNum T u

theorem Covers.mono {m' : Nat} (h : Covers T w v m) (hle : m' ≤ m) : Covers T w v m' :=
  ⟨fun hlt => hle.trans (h.1 hlt), fun u hlt hu => hle.trans (h.2 u hlt hu)⟩

/-- The key that `eval` finds at a predecessor of `w` is the least candidate it gives. -/
theorem EvalResult.covers (hw : cfg.Reachable w) (hi : T.num w = i) (hv : cfg.Reachable v)
    (he : cfg.Edge v w) (hu : EvalResult T i (update (semiKey T i) w m) v u)
    (hm : m ≤ T.num w) :
    ∃ m', m' = update (semiKey T i) w m u ∧ Covers T w v (min m m') ∧
      (m' < m → ∃ c, T.Candidate w c ∧ T.num c = m') := by
  refine ⟨_, rfl, ?_⟩
  rcases hu with ⟨hle, rfl⟩ | ⟨hlt, a, ha, hleast, hlater⟩
  · have hnone : ∀ x, T.num w < T.num x → ¬ T.Anc x u := fun x hx hanc =>
      absurd (hanc.le hv) (by omega)
    by_cases huw : u = w
    · subst huw
      rw [Function.update_self, min_self]
      exact ⟨⟨fun h => absurd h (lt_irrefl _), fun x hx hanc => absurd hanc (hnone x hx)⟩,
        fun h => absurd h (lt_irrefl _)⟩
    · have hlt : T.num u < T.num w :=
        lt_of_le_of_ne (by omega) fun hn => huw (T.num_inj hv hw hn)
      have hk : update (semiKey T i) w m u = T.num u := by
        simp [update, huw, semiKey, not_lt.2 hle]
      rw [hk]
      exact ⟨⟨fun _ => min_le_right _ _, fun x hx hanc => absurd hanc (hnone x hx)⟩,
        fun _ => ⟨u, .edge hv he hlt, rfl⟩⟩
  · have hk : ∀ y, i < T.num y → update (semiKey T i) w m y = semiNum T y := by
      intro y hy
      have : y ≠ w := by
        rintro rfl
        omega
      simp [update, this, semiKey, hy]
    have hui := hlater u hleast.on
    rw [hk u hui]
    refine ⟨⟨fun h => absurd h (by omega), fun x hx hanc => ?_⟩, fun _ =>
      ⟨_, .above hv he (by omega) hleast.on.2.2, rfl⟩⟩
    have hav : T.Anc a v := hleast.on.1.trans hleast.on.2.2
    have hax : T.OnPath a v x := by
      refine ⟨hav.of_le hanc hv (by omega), ?_, hanc⟩
      rintro rfl
      omega
    have := hleast.least x hax
    rw [hk u hui, hk x (by omega)] at this
    exact (min_le_right _ _).trans this

/-- The state while the predecessors of `w` are looked at. -/
structure SemiInv (T : DfsTree cfg.Edge cfg.entryBlock) (lt : LengauerTarjan) (i w m : Nat) :
    Prop where
  forest : Forest T lt i (update (semiKey T i) w m)
  attained : m = T.num w ∨ ∃ c, T.Candidate w c ∧ T.num c = m
  le : m ≤ T.num w

structure Fixed (cfg : CfgInfo) (lt₀ lt : LengauerTarjan) : Prop where
  vertex : lt.vertex = lt₀.vertex
  dfnum : lt.dfnum = lt₀.dfnum
  parent : lt.parent = lt₀.parent
  predecessors : lt.predecessors = cfg.predecessors

section Dfs

variable (h : DfsDone cfg lt₀)
include h

theorem DfsDone.num_lt_length (hf : Fixed cfg lt₀ lt) (hv : cfg.Reachable v) :
    h.dfsTree.num v < lt.vertex.length := by
  rw [hf.vertex]
  exact h.num_lt ((h.mem_vertex v).2 hv)

theorem DfsDone.dfnum_isSome (hf : Fixed cfg lt₀ lt) :
    (lt.dfnum v).isSome ↔ cfg.Reachable v := by
  rw [hf.dfnum, Option.isSome_iff_exists, ← h.mem_iff, h.mem_vertex]

theorem semiStep_spec (hf : Fixed cfg lt₀ lt) (hw : cfg.Reachable w)
    (hi : h.dfsTree.num w = i) (he : cfg.Edge v w) (hs : SemiInv h.dfsTree lt i w m) :
    ∃ m' ≤ m, SemiInv h.dfsTree (semiStep n w lt v) i w m' ∧
      (∃ semi ancestor label, semiStep n w lt v = { lt with semi, ancestor, label }) ∧
      (cfg.Reachable v → Covers h.dfsTree w v m') := by
  by_cases hv : cfg.Reachable v
  · obtain ⟨hF, hr, hu⟩ := eval_spec hs.forest hv (h.num_lt_length hf hv).le
    obtain ⟨_, rfl, hcov, hcand⟩ := hu.covers hw hi hv he hs.le
    have hru : cfg.Reachable (lt.eval v).1 := by
      rcases hu with ⟨-, hu⟩ | ⟨-, a, -, hu, -⟩
      · rw [hu]; exact hv
      · exact hu.on.reach hv
    have hsu := hF.semi _ hru
    have hsw := hF.semi w hw
    rw [Function.update_self] at hsw
    have hstep : semiStep n w lt v =
        if update (semiKey h.dfsTree i) w m (lt.eval v).1 < m then
          { (lt.eval v).2 with
            semi := update (lt.eval v).2.semi w
              (some (update (semiKey h.dfsTree i) w m (lt.eval v).1)) }
        else (lt.eval v).2 := by
      simp only [semiStep, (h.dfnum_isSome hf).2 hv, ↓reduceIte, hsu, hsw, Option.getD_some]
    obtain ⟨ancestor, label, hr⟩ := hr
    rw [hstep]
    split_ifs with hlt
    · refine ⟨_, hlt.le, ⟨?_, .inr (hcand hlt), hlt.le.trans hs.le⟩, ?_, fun _ => ?_⟩
      · refine (hF.setSemi hi.le _).congr fun x _ => ?_
        by_cases hx : x = w <;> simp [update, hx]
      · rw [hr]
        exact ⟨_, _, _, rfl⟩
      · rwa [min_eq_right hlt.le] at hcov
    · refine ⟨m, le_rfl, ⟨hF, hs.attained, hs.le⟩, ?_, fun _ => ?_⟩
      · rw [hr]
        exact ⟨_, _, _, rfl⟩
      · rwa [min_eq_left (not_lt.1 hlt)] at hcov
  · have : semiStep n w lt v = lt := by
      rw [semiStep, if_neg fun hs => hv ((h.dfnum_isSome hf).1 hs)]
    rw [this]
    exact ⟨m, le_rfl, hs, ⟨_, _, _, rfl⟩, fun hv' => absurd hv' hv⟩

theorem semiFold_spec (hw : cfg.Reachable w) (hi : h.dfsTree.num w = i) :
    ∀ (l : List Nat) (lt : LengauerTarjan) (m : Nat), Fixed cfg lt₀ lt →
      (∀ v ∈ l, cfg.Edge v w) → SemiInv h.dfsTree lt i w m →
      ∃ m' ≤ m, SemiInv h.dfsTree (l.foldl (semiStep n w) lt) i w m' ∧
        (∃ semi ancestor label, l.foldl (semiStep n w) lt = { lt with semi, ancestor, label }) ∧
        ∀ v ∈ l, cfg.Reachable v → Covers h.dfsTree w v m' := by
  intro l
  induction l with
  | nil => exact fun lt m _ _ hs => ⟨m, le_rfl, hs, ⟨_, _, _, rfl⟩, by simp⟩
  | cons v l ih =>
    intro lt m hf he hs
    obtain ⟨m₁, hm₁, hs₁, ⟨semi, ancestor, label, heq⟩, hc₁⟩ :=
      semiStep_spec h (n := n) hf hw hi (he v List.mem_cons_self) hs
    have hf₁ : Fixed cfg lt₀ (semiStep n w lt v) := by
      rw [heq]
      exact ⟨hf.vertex, hf.dfnum, hf.parent, hf.predecessors⟩
    obtain ⟨m₂, hm₂, hs₂, ⟨semi', ancestor', label', heq'⟩, hc₂⟩ :=
      ih _ m₁ hf₁ (fun x hx => he x (List.mem_cons_of_mem _ hx)) hs₁
    refine ⟨m₂, hm₂.trans hm₁, hs₂, ⟨semi', ancestor', label', ?_⟩, fun x hx hrx => ?_⟩
    · rw [List.foldl_cons, heq', heq]
    · rcases List.mem_cons.1 hx with rfl | hx
      · exact (hc₁ hrx).mono hm₂
      · exact hc₂ x hx hrx

theorem semi_spec (hf : Fixed cfg lt₀ lt) (hw : cfg.Reachable w) (hne : w ≠ cfg.entryBlock)
    (hi : h.dfsTree.num w = i) (hF : Forest h.dfsTree lt i (semiKey h.dfsTree i)) :
    let lt' := (lt.predecessors w).foldl (semiStep n w) lt
    Forest h.dfsTree lt' i (semiKey h.dfsTree (i - 1)) ∧
      ∃ semi ancestor label, lt' = { lt with semi, ancestor, label } := by
  have hs : SemiInv h.dfsTree lt i w (h.dfsTree.num w) := by
    refine ⟨hF.congr fun v _ => ?_, .inl rfl, le_rfl⟩
    by_cases hv : v = w <;> simp [update, hv, semiKey, hi]
  have hedge : ∀ v ∈ lt.predecessors w, cfg.Edge v w := by
    rw [hf.predecessors]
    exact fun v hv => CfgInfo.mem_predecessors.1 hv
  obtain ⟨m, -, hs', hrest, hcov⟩ := semiFold_spec h (n := n) hw hi _ lt _ hf hedge hs
  have hcov' : ∀ v, cfg.Reachable v → cfg.Edge v w → Covers h.dfsTree w v m := by
    intro v hv he
    refine hcov v ?_ hv
    rw [hf.predecessors]
    exact CfgInfo.mem_predecessors.2 he
  have hlt : m < h.dfsTree.num w :=
    ((hcov' _ (h.dfsTree.parent_reach hw hne) (h.dfsTree.parent_edge hw hne)).1
      (h.dfsTree.parent_lt hw hne)).trans_lt
      (h.dfsTree.parent_lt hw hne)
  have hm : m = semiNum h.dfsTree w := by
    rcases hs'.attained with he | ⟨c, hc, rfl⟩
    · exact absurd hlt (he ▸ lt_irrefl _)
    · refine congrArg h.dfsTree.num (DfsTree.IsSemi.eq_semi ?_ hw hne)
      refine DfsTree.isSemi_of_least hw hne hc fun c' hc' => ?_
      cases hc' with
      | edge hv he hlt => exact (hcov' _ hv he).1 hlt
      | above hv he hlt hanc => exact (hcov' _ hv he).2 _ hlt hanc
  refine ⟨hs'.forest.congr fun v hv => ?_, hrest⟩
  by_cases hvw : v = w
  · subst hvw
    simp [semiKey, hi, hm, show i - 1 < i by omega]
  · have : h.dfsTree.num v ≠ i := fun hn => hvw (h.dfsTree.num_inj hv hw (hn.trans hi.symm))
    rw [Function.update_of_ne hvw, semiKey, semiKey]
    congr 1
    exact propext ⟨by omega, by omega⟩

/-! ## Buckets -/

/-- The vertex `idom` is set to for `v`: the one with the least semidominator on its path if that
is above the semidominator of `v`, else the latter. -/
def IdomSet (T : DfsTree cfg.Edge cfg.entryBlock) (lt : LengauerTarjan) (v : Nat) : Prop :=
  ∃ u, T.LeastOn (semiNum T) (T.semi v) v u ∧
    lt.idom v = some (if semiNum T u < semiNum T v then u else T.semi v)

omit h in
theorem IdomSet.congr (hs : IdomSet T lt v) (he : lt'.idom v = lt.idom v) : IdomSet T lt' v := by
  obtain ⟨u, hu, hv⟩ := hs
  exact ⟨u, hu, he.trans hv⟩

/-- A member of the bucket of `p` that is due: all of its path below `p` is linked. -/
structure Due (T : DfsTree cfg.Edge cfg.entryBlock) (i p v : Nat) : Prop where
  reach : cfg.Reachable v
  later : i < T.num v
  root : T.num p ≤ i
  anc : T.Anc p v
  path : ∀ y, T.OnPath p v y → i < T.num y
  semi : T.semi v = p

omit h in
theorem Due.eval (hd : Due T i p v) {k : Nat → Nat} (hu : EvalResult T i k v u) :
    T.LeastOn k p v u := by
  rcases hu with ⟨hle, -⟩ | ⟨-, a, hai, hleast, hlater⟩
  · exact absurd hd.later (not_lt.2 hle)
  · have hav : T.Anc a v := hleast.on.1.trans hleast.on.2.2
    suffices hap : a = p by rwa [← hap]
    by_contra hne
    rcases le_total (T.num a) (T.num p) with hle | hle
    · exact absurd (hlater p ⟨hav.of_le hd.anc hd.reach hle, hne, hd.anc⟩) (not_lt.2 hd.root)
    · exact absurd (hd.path a ⟨hd.anc.of_le hav hd.reach hle, Ne.symm hne, hav⟩) (not_lt.2 hai)

theorem bucketStep_spec (hf : Fixed cfg lt₀ lt)
    (hF : Forest h.dfsTree lt i (semiKey h.dfsTree i)) (hd : Due h.dfsTree i p v) :
    Forest h.dfsTree (bucketStep n p lt v) i (semiKey h.dfsTree i) ∧
      (∃ ancestor label idom, bucketStep n p lt v = { lt with ancestor, label, idom }) ∧
      IdomSet h.dfsTree (bucketStep n p lt v) v ∧
      ∀ x, x ≠ v → (bucketStep n p lt v).idom x = lt.idom x := by
  obtain ⟨hF', hr, hu⟩ := eval_spec hF hd.reach (h.num_lt_length hf hd.reach).le
  have hleast := hd.eval hu
  have hk : ∀ y, h.dfsTree.OnPath p v y → semiNum h.dfsTree y = semiKey h.dfsTree i y :=
    fun y hy => by rw [semiKey, if_pos (hd.path y hy)]
  have hsu := hF'.semi _ (hleast.on.reach hd.reach)
  have hsv := hF'.semi v hd.reach
  have hpv : p ≠ v := by
    rintro rfl
    exact absurd hd.later (not_lt.2 hd.root)
  rw [← hk _ hleast.on] at hsu
  rw [← hk v (DfsTree.onPath_last hd.anc hpv)] at hsv
  have hstep : bucketStep n p lt v = { (lt.eval v).2 with
      idom := update (lt.eval v).2.idom v
        (some (if semiNum h.dfsTree (lt.eval v).1 < semiNum h.dfsTree v then (lt.eval v).1
          else p)) } := by
    simp only [bucketStep, hsu, hsv, Option.getD_some]
  obtain ⟨ancestor, label, hr⟩ := hr
  refine ⟨?_, ?_, ⟨(lt.eval v).1, ?_, ?_⟩, fun x hx => ?_⟩
  · rw [hstep]
    exact hF'.frame rfl rfl rfl
  · rw [hstep, hr]
    exact ⟨_, _, _, rfl⟩
  · rw [hd.semi]
    exact hleast.congr hk
  · rw [hstep, hd.semi]
    simp
  · rw [hstep, hr]
    simp [update, hx]

theorem bucketFold_spec : ∀ (l : List Nat) (lt : LengauerTarjan), Fixed cfg lt₀ lt →
    Forest h.dfsTree lt i (semiKey h.dfsTree i) → (∀ v ∈ l, Due h.dfsTree i p v) →
    Forest h.dfsTree (l.foldl (bucketStep n p) lt) i (semiKey h.dfsTree i) ∧
      (∃ ancestor label idom,
        l.foldl (bucketStep n p) lt = { lt with ancestor, label, idom }) ∧
      (∀ v ∈ l, IdomSet h.dfsTree (l.foldl (bucketStep n p) lt) v) ∧
      ∀ x, x ∉ l → (l.foldl (bucketStep n p) lt).idom x = lt.idom x := by
  intro l
  induction l with
  | nil => exact fun lt _ hF _ => ⟨hF, ⟨_, _, _, rfl⟩, by simp, fun _ _ => rfl⟩
  | cons v l ih =>
    intro lt hf hF hd
    obtain ⟨hF₁, ⟨a₁, l₁, i₁, hr₁⟩, hv₁, hx₁⟩ :=
      bucketStep_spec h (n := n) hf hF (hd v List.mem_cons_self)
    have hf₁ : Fixed cfg lt₀ (bucketStep n p lt v) := by
      rw [hr₁]
      exact ⟨hf.vertex, hf.dfnum, hf.parent, hf.predecessors⟩
    obtain ⟨hF₂, ⟨a₂, l₂, i₂, hr₂⟩, hv₂, hx₂⟩ :=
      ih _ hf₁ hF₁ fun x hx => hd x (List.mem_cons_of_mem _ hx)
    refine ⟨hF₂, ⟨a₂, l₂, i₂, ?_⟩, fun x hx => ?_, fun x hx => ?_⟩
    · rw [List.foldl_cons, hr₂, hr₁]
    · by_cases hxl : x ∈ l
      · exact hv₂ x hxl
      · obtain rfl : x = v := (List.mem_cons.1 hx).resolve_right hxl
        exact hv₁.congr (hx₂ x hxl)
    · rw [List.mem_cons, not_or] at hx
      exact (hx₂ x hx.2).trans (hx₁ x hx.1)

/-! ## Phase 2 -/

omit h in
/-- A member of the bucket of `q` waits for the child of `q` on its path to be linked; `j` bounds
the vertices that may still be. -/
structure Waiting (T : DfsTree cfg.Edge cfg.entryBlock) (i j q v : Nat) : Prop where
  reach : cfg.Reachable v
  later : i < T.num v
  semi : T.semi v = q
  child : ∃ c, c ≠ cfg.entryBlock ∧ T.parent c = q ∧ T.Anc c v ∧ T.num c ≤ j

/-- The vertices numbered after `i` are linked; the buckets wait for those up to `j`. -/
structure Phase2 (lt : LengauerTarjan) (i j : Nat) : Prop extends Fixed cfg lt₀ lt where
  forest : Forest h.dfsTree lt i (semiKey h.dfsTree i)
  bucket : ∀ q, ∀ v ∈ (lt.bucket q).getD [], Waiting h.dfsTree i j q v
  idom : ∀ v, cfg.Reachable v → i < h.dfsTree.num v →
    v ∈ (lt.bucket (h.dfsTree.semi v)).getD [] ∨ IdomSet h.dfsTree lt v

theorem DfsDone.vertex_getD (hf : Fixed cfg lt₀ lt) (hv : cfg.Reachable v) :
    lt.vertex.getD (h.dfsTree.num v) 0 = v := by
  have := h.getElem?_num ((h.mem_vertex v).2 hv)
  rw [hf.vertex, List.getD_eq_getElem?_getD]
  exact congrArg (Option.getD · 0) this

theorem DfsDone.exists_vertex (hpos : 0 < i) (hlt : i < lt₀.vertex.length) :
    ∃ w, cfg.Reachable w ∧ w ≠ cfg.entryBlock ∧ h.dfsTree.num w = i := by
  have hw : lt₀.vertex[i]? = some lt₀.vertex[i] := List.getElem?_eq_getElem hlt
  have hi : h.dfsTree.num lt₀.vertex[i] = i := h.num_eq hw
  refine ⟨_, (h.mem_vertex _).1 (List.mem_of_getElem? hw), fun he => ?_, hi⟩
  have : h.dfsTree.num cfg.entryBlock = 0 := h.num_eq h.root
  rw [he] at hi
  omega

theorem DfsDone.parent_eq (hf : Fixed cfg lt₀ lt) (hw : cfg.Reachable w)
    (hne : w ≠ cfg.entryBlock) : lt.parent w = some (h.dfsTree.parent w) := by
  obtain ⟨p, -, hp, -⟩ := h.tree_of_ne ((h.mem_vertex w).2 hw) hne
  have : h.dfsTree.parent w = (lt₀.parent w).getD 0 := rfl
  rw [hf.parent, this, hp, Option.getD_some]

section Vertex

variable (hw : cfg.Reachable w) (hne : w ≠ cfg.entryBlock) (hi : h.dfsTree.num w = i)
include hw hne hi

/-- The child that a member of the bucket of the parent of `w` waits for is `w`. -/
theorem Waiting.child_eq (hwait : Waiting h.dfsTree (i - 1) i (h.dfsTree.parent w) v) :
    h.dfsTree.Anc w v := by
  obtain ⟨c, hc, hcp, hcv, hci⟩ := hwait.child
  by_cases hcw : c = w
  · exact hcw ▸ hcv
  · have hlater := hwait.later
    have hanc : h.dfsTree.Anc c w := h.dfsTree.interval hwait.reach hw hcv (by omega) (by omega)
    obtain ⟨-, hanc⟩ := hanc.parent hcw
    have h₁ := hanc.le (h.dfsTree.parent_reach hw hne)
    have h₂ := h.dfsTree.parent_lt (hcv.reach hwait.reach) hc
    rw [hcp] at h₂
    omega

theorem Waiting.due (hwait : Waiting h.dfsTree (i - 1) i (h.dfsTree.parent w) v) :
    Due h.dfsTree (i - 1) (h.dfsTree.parent w) v := by
  have hplt := h.dfsTree.parent_lt hw hne
  have hwv := hwait.child_eq h hw hne hi
  refine ⟨hwait.reach, hwait.later, by omega, (h.dfsTree.anc_parent hne).trans hwv,
    fun y hy => ?_, hwait.semi⟩
  rcases hy.split hwv hwait.reach with hy | hy
  · rw [hy.eq_of_parent hw hne]
    omega
  · have := hy.lt hwait.reach
    omega

theorem Waiting.other {q : Nat} (hwait : Waiting h.dfsTree (i - 1) i q v)
    (hq : q ≠ h.dfsTree.parent w) : Waiting h.dfsTree (i - 1) (i - 1) q v := by
  obtain ⟨c, hc, hcp, hcv, hci⟩ := hwait.child
  refine ⟨hwait.reach, hwait.later, hwait.semi, c, hc, hcp, hcv, ?_⟩
  have : h.dfsTree.num c ≠ i := by
    intro hn
    obtain rfl := h.dfsTree.num_inj (hcv.reach hwait.reach) hw (hn.trans hi.symm)
    exact hq hcp.symm
  omega

theorem link_spec (hP : Phase2 h lt i i) : Phase2 h
    ((((lt.predecessors w).foldl (semiStep n w) lt).pushBucket w).link (h.dfsTree.parent w) w)
    (i - 1) i := by
  have hss := h.dfsTree.isSemi_semi hw hne
  obtain ⟨hF, semi, ancestor, label, hlt₁⟩ := semi_spec h (n := n) hP.toFixed hw hne hi hP.forest
  have hpos : 0 < i := hi ▸ (h.dfsTree.parent_lt hw hne).trans_le' (Nat.zero_le _)
  have hsv : ((lt.predecessors w).foldl (semiStep n w) lt).semiVertex w = h.dfsTree.semi w := by
    have hf₁ : Fixed cfg lt₀ ((lt.predecessors w).foldl (semiStep n w) lt) := by
      rw [hlt₁]
      exact ⟨hP.vertex, hP.dfnum, hP.parent, hP.predecessors⟩
    rw [semiVertex, hF.semi w hw, Option.getD_some, semiKey, if_pos (by omega)]
    exact h.vertex_getD hf₁ hss.reach
  have hbucket : ∀ q v, v ∈ (((((lt.predecessors w).foldl (semiStep n w) lt).pushBucket w).link
      (h.dfsTree.parent w) w).bucket q).getD [] ↔
      v ∈ (lt.bucket q).getD [] ∨ v = w ∧ q = h.dfsTree.semi w := by
    intro q v
    simp only [pushBucket, hsv, LengauerTarjan.link]
    rw [hlt₁]
    by_cases hq : q = h.dfsTree.semi w
    · subst hq; simp
    · simp [update, hq]
  refine ⟨?_, (hF.link_parent hw hne hi).frame rfl rfl rfl, fun q v hv => ?_, fun v hv hvi => ?_⟩
  · simp only [pushBucket, LengauerTarjan.link]
    rw [hlt₁]
    exact ⟨hP.vertex, hP.dfnum, hP.parent, hP.predecessors⟩
  · rcases (hbucket q v).1 hv with hv | ⟨rfl, rfl⟩
    · have hwait := hP.bucket q v hv
      exact ⟨hwait.reach, by have := hwait.later; omega, hwait.semi, hwait.child⟩
    · obtain ⟨c, hc, hcp, hcv⟩ := DfsTree.exists_child (hss.anc hw hne)
        fun he => absurd (hss.lt hw hne) (by rw [he]; exact lt_irrefl _)
      exact ⟨hw, by omega, rfl, c, hc, hcp, hcv, hi ▸ hcv.le hw⟩
  · by_cases hvw : v = w
    · exact .inl ((hbucket _ v).2 (.inr ⟨hvw, hvw ▸ rfl⟩))
    · have : h.dfsTree.num v ≠ i := fun hn => hvw (h.dfsTree.num_inj hv hw (hn.trans hi.symm))
      rcases hP.idom v hv (by omega) with hm | hset
      · exact .inl ((hbucket _ v).2 (.inl hm))
      · refine .inr (hset.congr ?_)
        simp only [pushBucket, LengauerTarjan.link]
        rw [hlt₁]

theorem drainBucket_spec (hP : Phase2 h lt (i - 1) i) :
    Phase2 h (drainBucket n (h.dfsTree.parent w) lt) (i - 1) (i - 1) := by
  have hdue : ∀ v ∈ (lt.bucket (h.dfsTree.parent w)).getD [],
      Due h.dfsTree (i - 1) (h.dfsTree.parent w) v :=
    fun v hv => (hP.bucket _ v hv).due h hw hne hi
  rw [drainBucket]
  cases hb : lt.bucket (h.dfsTree.parent w) with
  | none =>
    refine ⟨hP.toFixed, hP.forest, fun q v hv => (hP.bucket q v hv).other h hw hne hi ?_, hP.idom⟩
    rintro rfl
    simp [hb] at hv
  | some toProcess =>
    rw [hb, Option.getD_some] at hdue
    dsimp only
    obtain ⟨hF, ⟨ancestor, label, idom, hr⟩, hin, hout⟩ := bucketFold_spec h (n := n) toProcess
      { lt with bucket := update lt.bucket (h.dfsTree.parent w) (some []) }
      ⟨hP.vertex, hP.dfnum, hP.parent, hP.predecessors⟩ (hP.forest.frame rfl rfl rfl) hdue
    have hbucket : ∀ q, q ≠ h.dfsTree.parent w →
        (toProcess.foldl (bucketStep n (h.dfsTree.parent w))
          { lt with bucket := update lt.bucket (h.dfsTree.parent w) (some []) }).bucket q =
          lt.bucket q := by
      intro q hq
      rw [hr]
      simp [update, hq]
    refine ⟨?_, hF, fun q v hv => ?_, fun v hv hvi => ?_⟩
    · rw [hr]
      exact ⟨hP.vertex, hP.dfnum, hP.parent, hP.predecessors⟩
    · by_cases hq : q = h.dfsTree.parent w
      · subst hq
        rw [hr] at hv
        simp at hv
      · rw [hbucket q hq] at hv
        exact (hP.bucket q v hv).other h hw hne hi hq
    · by_cases hmem : v ∈ toProcess
      · exact .inr (hin v hmem)
      · rcases hP.idom v hv hvi with hm | hset
        · by_cases hsp : h.dfsTree.semi v = h.dfsTree.parent w
          · rw [hsp, hb, Option.getD_some] at hm
            exact absurd hm hmem
          · left
            rwa [hbucket _ hsp]
        · exact .inr (hset.congr (hout v hmem))

end Vertex

theorem processVertex_spec (hP : Phase2 h lt i i) (hpos : 0 < i) (hlt : i < lt₀.vertex.length) :
    Phase2 h (processVertex lt i) (i - 1) (i - 1) := by
  obtain ⟨w, hw, hne, hi⟩ := h.exists_vertex hpos hlt
  have hwi : lt.vertex.getD i 0 = w := hi ▸ h.vertex_getD hP.toFixed hw
  have hlink := link_spec h (n := lt.vertex.length) hw hne hi hP
  have hstep : processVertex lt i = drainBucket lt.vertex.length (h.dfsTree.parent w)
      ((((lt.predecessors w).foldl (semiStep lt.vertex.length w) lt).pushBucket w).link
        (h.dfsTree.parent w) w) := by
    have hp := h.parent_eq hlink.toFixed hw hne
    simp only [LengauerTarjan.link] at hp
    simp only [processVertex, hwi, hp]
  rw [hstep]
  exact drainBucket_spec h hw hne hi hlink

theorem phase2_spec : ∀ i (lt : LengauerTarjan), i < lt₀.vertex.length → Phase2 h lt i i →
    Phase2 h ((List.range' 1 i).reverse.foldl processVertex lt) 0 0 := by
  intro i
  induction i with
  | zero => exact fun lt _ hP => hP
  | succ i ih =>
    intro lt hlt hP
    rw [List.range'_concat, List.reverse_append]
    simp only [Nat.one_mul, List.reverse_singleton, List.singleton_append, List.foldl_cons]
    rw [Nat.add_comm 1 i]
    exact ih _ (by omega) (processVertex_spec h hP i.succ_pos hlt)

theorem phase2_start (hlt : ∀ v, lt₀.bucket v = none) (hp : lt₀.predecessors = cfg.predecessors) :
    Phase2 h (lt₀.vertex.foldl initVertex lt₀) (lt₀.vertex.length - 1)
      (lt₀.vertex.length - 1) := by
  have key : ∀ (l : List Nat) (lt : LengauerTarjan), Fixed cfg lt₀ lt → lt.semi = lt₀.semi →
      (∀ q, (lt.bucket q).getD [] = []) →
      Fixed cfg lt₀ (l.foldl initVertex lt) ∧ (l.foldl initVertex lt).semi = lt₀.semi ∧
        (∀ q, ((l.foldl initVertex lt).bucket q).getD [] = []) ∧
        (∀ v ∈ l, (l.foldl initVertex lt).ancestor v = some none ∧
          (l.foldl initVertex lt).label v = some v) ∧
        ∀ v, lt.ancestor v = some none → lt.label v = some v →
          (l.foldl initVertex lt).ancestor v = some none ∧
          (l.foldl initVertex lt).label v = some v := by
    intro l
    induction l with
    | nil => exact fun lt hf hs hb => ⟨hf, hs, hb, by simp, fun _ h₁ h₂ => ⟨h₁, h₂⟩⟩
    | cons x l ih =>
      intro lt hf hs hb
      obtain ⟨hf', hs', hb', hin, hout⟩ := ih (initVertex lt x)
        ⟨hf.vertex, hf.dfnum, hf.parent, hf.predecessors⟩ hs fun q => by
          by_cases hq : q = x
          · simp [initVertex, hq, hb]
          · simp [initVertex, update, hq, hb]
      refine ⟨hf', hs', hb', fun v hv => ?_, fun v h₁ h₂ => hout v ?_ ?_⟩
      · by_cases hvl : v ∈ l
        · exact hin v hvl
        · obtain rfl : v = x := (List.mem_cons.1 hv).resolve_right hvl
          exact hout v (by simp [initVertex]) (by simp [initVertex])
      · by_cases hvx : v = x <;> simp [initVertex, update, hvx, h₁]
      · by_cases hvx : v = x <;> simp [initVertex, update, hvx, h₂]
  obtain ⟨hf, hs, hb, hin, -⟩ := key lt₀.vertex lt₀ ⟨rfl, rfl, rfl, hp⟩ rfl fun q => by simp [hlt]
  have hle : ∀ v, cfg.Reachable v → ¬ lt₀.vertex.length - 1 < h.dfsTree.num v := by
    intro v hv
    have : h.dfsTree.num v < lt₀.vertex.length := h.num_lt ((h.mem_vertex v).2 hv)
    omega
  refine ⟨hf, ⟨fun v hv => ?_, fun v hv _ => ?_, fun v hv _ => ?_, fun v hv hlt => ?_⟩, ?_, ?_⟩
  · obtain ⟨j, hj⟩ := h.mem_iff.1 ((h.mem_vertex v).2 hv)
    have hn : h.dfsTree.num v = (lt₀.dfnum v).getD 0 := rfl
    rw [semiKey, if_neg (hle v hv), hs, h.semi, hn, hj, Option.getD_some]
  · exact (hin v ((h.mem_vertex v).2 hv)).1
  · exact (hin v ((h.mem_vertex v).2 hv)).2
  · exact absurd hlt (hle v hv)
  · intro q v hv
    rw [hb q] at hv
    exact absurd hv List.not_mem_nil
  · exact fun v hv hlt => absurd hlt (hle v hv)

/-! ## Phase 3 -/

/-- The immediate dominators of the vertices numbered before `i` are final. -/
structure Phase3 (lt : LengauerTarjan) (i : Nat) : Prop extends Fixed cfg lt₀ lt where
  semi : ∀ v, cfg.Reachable v → v ≠ cfg.entryBlock → lt.semi v = some (semiNum h.dfsTree v)
  done : ∀ v, cfg.Reachable v → v ≠ cfg.entryBlock → h.dfsTree.num v < i →
    ∃ d, lt.idom v = some d ∧ IDom cfg.Edge cfg.entryBlock d v
  todo : ∀ v, cfg.Reachable v → i ≤ h.dfsTree.num v → IdomSet h.dfsTree lt v

theorem Phase2.phase3 (hP : Phase2 h lt 0 0) : Phase3 h lt 1 := by
  have hpos : ∀ v, cfg.Reachable v → v ≠ cfg.entryBlock → 0 < h.dfsTree.num v :=
    fun v hv hne => (h.dfsTree.parent_lt hv hne).trans_le' (Nat.zero_le _)
  refine ⟨hP.toFixed, fun v hv hne => ?_, fun v hv hne hlt => ?_, fun v hv hle => ?_⟩
  · rw [hP.forest.semi v hv, semiKey, if_pos (hpos v hv hne)]
  · exact absurd (hpos v hv hne) (by omega)
  · refine (hP.idom v hv hle).resolve_left fun hm => ?_
    obtain ⟨c, hc, -, hcv, hle⟩ := (hP.bucket _ v hm).child
    exact absurd (hpos c (hcv.reach hv) hc) (by omega)

theorem finalizeVertex_spec (hP : Phase3 h lt i) (hpos : 0 < i) (hlt : i < lt₀.vertex.length) :
    Phase3 h (finalizeVertex lt i) (i + 1) := by
  obtain ⟨w, hw, hne, hi⟩ := h.exists_vertex hpos hlt
  have hwi : lt.vertex.getD i 0 = w := hi ▸ h.vertex_getD hP.toFixed hw
  have hss := h.dfsTree.isSemi_semi hw hne
  have hsv : lt.semiVertex w = h.dfsTree.semi w := by
    rw [semiVertex, hP.semi w hw hne, Option.getD_some]
    exact h.vertex_getD hP.toFixed hss.reach
  obtain ⟨u, hu, hidom⟩ := hP.todo w hw hi.ge
  -- what the round does, and that it is right for `w`
  obtain ⟨idom, d, hstep, hd, hdom, hrest⟩ : ∃ idom d, finalizeVertex lt i = { lt with idom } ∧
      idom w = some d ∧ IDom cfg.Edge cfg.entryBlock d w ∧ ∀ x, x ≠ w → idom x = lt.idom x := by
    rcases lt_or_ge (semiNum h.dfsTree u) (semiNum h.dfsTree w) with hsu | hsu
    · rw [if_pos hsu] at hidom
      have hru := hu.on.reach hw
      have hune : u ≠ cfg.entryBlock := hu.on.ne_root hw
      have huw : h.dfsTree.num u < i := by
        rw [← hi]
        refine hu.on.2.2.lt_of_ne hw ?_
        rintro rfl
        exact lt_irrefl _ hsu
      obtain ⟨d, hd, hdom⟩ := hP.done u hru hune huw
      refine ⟨update lt.idom w (some d), d, ?_, Function.update_self .., ?_, fun x hx => ?_⟩
      · simp only [finalizeVertex, hwi, hidom, hsv, ne_eq, Ne.symm hu.on.2.1, not_false_eq_true,
          ↓reduceIte, hd]
      · exact DfsTree.idom_of_semi_lt hw hne hu.on.1 hu.on.2.1 hu.on.2.2
          (fun y h₁ h₂ h₃ => hu.least y ⟨h₁, h₂, h₃⟩) hsu hdom
      · exact Function.update_of_ne hx ..
    · rw [if_neg (not_lt.2 hsu)] at hidom
      refine ⟨lt.idom, _, ?_, hidom, ?_, fun _ _ => rfl⟩
      · simp only [finalizeVertex, hwi, hidom, hsv, ne_eq, not_true_eq_false, ↓reduceIte]
      · exact DfsTree.idom_of_semi_le hw hne (fun y h₁ h₂ h₃ => hu.least y ⟨h₁, h₂, h₃⟩) hsu
  rw [hstep]
  refine ⟨⟨hP.vertex, hP.dfnum, hP.parent, hP.predecessors⟩, hP.semi, fun v hv hvne hvi => ?_,
    fun v hv hvi => ?_⟩
  · by_cases hvw : v = w
    · exact ⟨d, hvw ▸ hd, hvw ▸ hdom⟩
    · have : h.dfsTree.num v ≠ i := fun hn => hvw (h.dfsTree.num_inj hv hw (hn.trans hi.symm))
      obtain ⟨d', hd', hdom'⟩ := hP.done v hv hvne (by omega)
      exact ⟨d', (hrest v hvw).trans hd', hdom'⟩
  · have hvw : v ≠ w := by
      rintro rfl
      omega
    exact (hP.todo v hv (by omega)).congr (hrest v hvw)

theorem phase3_spec : ∀ k i (lt : LengauerTarjan), 0 < i → i + k = lt₀.vertex.length →
    Phase3 h lt i →
    Phase3 h ((List.range' i k).foldl finalizeVertex lt) lt₀.vertex.length := by
  intro k
  induction k with
  | zero => exact fun i lt _ hk hP => (show i = lt₀.vertex.length by omega) ▸ hP
  | succ k ih =>
    intro i lt hpos hk hP
    rw [List.range'_succ, List.foldl_cons]
    exact ih (i + 1) _ (by omega) (by omega) (finalizeVertex_spec h hP hpos (by omega))

end Dfs

/-- `compute` numbers the reachable blocks and finds the immediate dominator of each but the
entry. -/
theorem compute_spec (cfg : CfgInfo) :
    let lt := (new cfg.entryBlock cfg.successors cfg.predecessors).compute (cfg.edges.length + 1)
    lt.vertex.Nodup ∧ (∀ v, v ∈ lt.vertex ↔ cfg.Reachable v) ∧
      ∀ v, cfg.Reachable v → v ≠ cfg.entryBlock →
        ∃ d, lt.idom v = some d ∧ IDom cfg.Edge cfg.entryBlock d v := by
  set lt₀ := (new cfg.entryBlock cfg.successors cfg.predecessors).dfs (cfg.edges.length + 1)
    cfg.entryBlock with hlt₀
  have h : DfsDone cfg lt₀ := dfs_spec cfg
  obtain ⟨-, -, hpred, -, -, -, hbucket⟩ := dfsLoop_frame (cfg.edges.length + 1)
    [(cfg.entryBlock, none, false)] ∅ (new cfg.entryBlock cfg.successors cfg.predecessors)
  have hlen : 0 < lt₀.vertex.length := List.length_pos_of_mem h.root_mem
  have hstart := phase2_start h (fun v => congrFun hbucket v) hpred
  have h₂ := (phase2_spec h _ _ (by omega) hstart).phase3
  have h₃ := phase3_spec h (lt₀.vertex.length - 1) 1 _ (by omega) (by omega) h₂
  have hcompute : (new cfg.entryBlock cfg.successors cfg.predecessors).compute
      (cfg.edges.length + 1) = (List.range' 1 (lt₀.vertex.length - 1)).foldl finalizeVertex
        ((List.range' 1 (lt₀.vertex.length - 1)).reverse.foldl processVertex
          (lt₀.vertex.foldl initVertex lt₀)) := by
    have hne : lt₀.vertex.isEmpty = false := by
      rw [List.isEmpty_eq_false_iff]
      exact List.ne_nil_of_length_pos hlen
    have hv : (lt₀.vertex.foldl initVertex lt₀).vertex = lt₀.vertex := hstart.vertex
    have hentry : (new cfg.entryBlock cfg.successors cfg.predecessors).entry = cfg.entryBlock :=
      rfl
    simp only [compute, hentry, ← hlt₀, hne, Bool.false_eq_true, ↓reduceIte, hv]
  rw [hcompute]
  dsimp only
  rw [h₃.vertex]
  refine ⟨?_, h.mem_vertex, fun v hv hne => h₃.done v hv hne (h.num_lt ((h.mem_vertex v).2 hv))⟩
  refine List.nodup_iff_injective_getElem.2 fun a b hab => Fin.ext ?_
  have ha := h.num_eq (List.getElem?_eq_getElem a.2)
  have hb := h.num_eq (List.getElem?_eq_getElem b.2)
  dsimp only at hab
  rw [hab, hb] at ha
  exact ha.symm

end TldrCode.Ssa.LengauerTarjan
