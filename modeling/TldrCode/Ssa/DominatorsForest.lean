import TldrCode.Ssa.DominatorsDfs

/-!
# Path compression

`Forest T lt i k` describes the `ancestor` and `label` maps while the vertices numbered after `i`
are linked: the ancestor link of a linked vertex skips a stretch of its tree path, and its label
is the vertex with the least key on that stretch. `compress` shortens links and keeps this
(`compress_spec`), and `eval` finds the vertex with the least key between a vertex and the root of
its tree in the forest (`eval_spec`).
-/

namespace TldrCode.Ssa.LengauerTarjan

open Function (update update_apply)
open TldrCode.Graph

variable {cfg : CfgInfo} {T : DfsTree cfg.Edge cfg.entryBlock} {lt lt' : LengauerTarjan}
  {i a b u v w : Nat} {k : Nat → Nat}

/-! ## The forest -/

/-- What `eval` may change. -/
def Relabel (lt lt' : LengauerTarjan) : Prop :=
  ∃ ancestor label, lt' = { lt with ancestor, label }

theorem Relabel.refl (lt : LengauerTarjan) : Relabel lt lt := ⟨lt.ancestor, lt.label, rfl⟩

theorem Relabel.trans {lt₁ lt₂ lt₃ : LengauerTarjan} (h₁ : Relabel lt₁ lt₂)
    (h₂ : Relabel lt₂ lt₃) : Relabel lt₁ lt₃ := by
  obtain ⟨a₁, l₁, rfl⟩ := h₁
  obtain ⟨a₂, l₂, rfl⟩ := h₂
  exact ⟨a₂, l₂, rfl⟩

/-- The link of `v` goes up to `a`, over vertices numbered after `i`, and its label has the least
key among those. -/
structure Linked (T : DfsTree cfg.Edge cfg.entryBlock) (lt : LengauerTarjan) (i : Nat)
    (k : Nat → Nat) (v a u : Nat) : Prop where
  ancestor : lt.ancestor v = some (some a)
  label : lt.label v = some u
  least : T.LeastOn k a v u
  later : ∀ y, T.OnPath a v y → i < T.num y

/-- The forest of the vertices numbered after `i`, each linked to a proper ancestor. -/
structure Forest (T : DfsTree cfg.Edge cfg.entryBlock) (lt : LengauerTarjan) (i : Nat)
    (k : Nat → Nat) : Prop where
  semi : ∀ v, cfg.Reachable v → lt.semi v = some (k v)
  root : ∀ v, cfg.Reachable v → T.num v ≤ i → lt.ancestor v = some none
  rootLabel : ∀ v, cfg.Reachable v → T.num v ≤ i → lt.label v = some v
  link : ∀ v, cfg.Reachable v → i < T.num v → ∃ a u, Linked T lt i k v a u

namespace Linked

section

variable (h : Linked T lt i k v a u)
include h

theorem anc : T.Anc a v := h.least.on.1.trans h.least.on.2.2

theorem ne (hv : cfg.Reachable v) : a ≠ v := by
  rintro rfl
  exact absurd (h.least.on.lt hv) (not_lt.2 (h.least.on.2.2.le hv))

theorem num_lt (hv : cfg.Reachable v) : T.num a < T.num v :=
  h.anc.lt_of_ne hv (h.ne hv)

theorem anc? : lt.anc? v = some a := by
  rw [LengauerTarjan.anc?, h.ancestor]
  rfl

theorem congr (ha : lt'.ancestor v = lt.ancestor v) (hl : lt'.label v = lt.label v) :
    Linked T lt' i k v a u :=
  ⟨ha.trans h.ancestor, hl.trans h.label, h.least, h.later⟩

end

end Linked

theorem Forest.anc?_root (h : Forest T lt i k) (hv : cfg.Reachable v) (hle : T.num v ≤ i) :
    lt.anc? v = none := by
  rw [anc?, h.root v hv hle]
  rfl

theorem Forest.later_of_anc? (h : Forest T lt i k) (hv : cfg.Reachable v)
    (ha : lt.anc? v = some a) : i < T.num v := by
  by_contra hle
  rw [h.anc?_root hv (not_lt.1 hle)] at ha
  exact absurd ha (by simp)

theorem Forest.congr {k' : Nat → Nat} (h : Forest T lt i k)
    (heq : ∀ v, cfg.Reachable v → k' v = k v) : Forest T lt i k' := by
  refine ⟨fun v hv => by rw [heq v hv]; exact h.semi v hv, h.root, h.rootLabel,
    fun v hv hlt => ?_⟩
  obtain ⟨a, u, hl⟩ := h.link v hv hlt
  exact ⟨a, u, hl.ancestor, hl.label, hl.least.congr fun y hy => heq y (hy.reach hv), hl.later⟩

theorem Forest.frame (h : Forest T lt i k) (hs : lt'.semi = lt.semi)
    (ha : lt'.ancestor = lt.ancestor) (hl : lt'.label = lt.label) : Forest T lt' i k := by
  refine ⟨fun v hv => ?_, fun v hv hle => ?_, fun v hv hle => ?_, fun v hv hlt => ?_⟩
  · rw [hs]
    exact h.semi v hv
  · rw [ha]
    exact h.root v hv hle
  · rw [hl]
    exact h.rootLabel v hv hle
  · obtain ⟨a, u, hlk⟩ := h.link v hv hlt
    exact ⟨a, u, hlk.congr (congrFun ha v) (congrFun hl v)⟩

theorem Forest.setSemi (h : Forest T lt i k) (hw : T.num w ≤ i) (m : Nat) :
    Forest T { lt with semi := update lt.semi w (some m) } i (update k w m) := by
  refine ⟨fun v hv => ?_, h.root, h.rootLabel, fun v hv hlt => ?_⟩
  · by_cases hvw : v = w
    · subst hvw; simp [update]
    · simpa [update, hvw] using h.semi v hv
  · obtain ⟨a, u, hl⟩ := h.link v hv hlt
    refine ⟨a, u, hl.ancestor, hl.label, hl.least.congr fun y hy => ?_, hl.later⟩
    have : y ≠ w := by
      rintro rfl
      exact absurd (hl.later y hy) (not_lt.2 hw)
    simp [update, this]

theorem Forest.link_parent (h : Forest T lt i k) (hw : cfg.Reachable w)
    (hne : w ≠ cfg.entryBlock) (hi : T.num w = i) :
    Forest T (lt.link (T.parent w) w) (i - 1) k := by
  have hpos : 0 < i := hi ▸ (T.parent_lt hw hne).trans_le' (Nat.zero_le _)
  have hvw : ∀ v, T.num v ≤ i - 1 → v ≠ w := by
    rintro v hv rfl
    omega
  refine ⟨h.semi, fun v hv hle => ?_, fun v hv hle => h.rootLabel v hv (by omega),
    fun v hv hlt => ?_⟩
  · simpa [LengauerTarjan.link, update, hvw v hle] using h.root v hv (by omega)
  · by_cases he : v = w
    · subst he
      refine ⟨T.parent v, v, by simp [LengauerTarjan.link], h.rootLabel v hv hi.le,
        DfsTree.leastOn_parent hv hne, fun y hy => ?_⟩
      rw [hy.eq_of_parent hv hne]
      omega
    · have hvi : T.num v ≠ i := fun hn => he (T.num_inj hv hw (hn.trans hi.symm))
      obtain ⟨a, u, hl⟩ := h.link v hv (by omega)
      refine ⟨a, u, ?_, hl.label, hl.least, fun y hy => by have := hl.later y hy; omega⟩
      simpa [LengauerTarjan.link, update, he] using hl.ancestor

/-! ## Compression -/

theorem compressNode_frame (lt : LengauerTarjan) (x : Nat) : Relabel lt (lt.compressNode x) ∧
    ∀ y, y ≠ x → (lt.compressNode x).ancestor y = lt.ancestor y ∧
      (lt.compressNode x).label y = lt.label y := by
  simp only [compressNode]
  cases lt.anc? x with
  | none => exact ⟨.refl lt, fun _ _ => ⟨rfl, rfl⟩⟩
  | some anc =>
    dsimp only
    split_ifs
    · cases LengauerTarjan.anc? { lt with label := _ } anc with
      | none | some _ => exact ⟨⟨_, _, rfl⟩, fun y hy => by simp [update, hy]⟩
    · cases lt.anc? anc with
      | none => exact ⟨⟨_, _, rfl⟩, fun y hy => ⟨rfl, rfl⟩⟩
      | some _ => exact ⟨⟨_, _, rfl⟩, fun y hy => by simp [update, hy]⟩

theorem compress_frame (l : List Nat) : ∀ lt : LengauerTarjan,
    Relabel lt (l.foldl compressNode lt) ∧
    ∀ y, y ∉ l → (l.foldl compressNode lt).ancestor y = lt.ancestor y ∧
      (l.foldl compressNode lt).label y = lt.label y := by
  induction l with
  | nil => exact fun lt => ⟨.refl lt, fun _ _ => ⟨rfl, rfl⟩⟩
  | cons x l ih =>
    intro lt
    obtain ⟨hr, hx⟩ := compressNode_frame lt x
    obtain ⟨hr', hl⟩ := ih (lt.compressNode x)
    refine ⟨hr.trans hr', fun y hy => ?_⟩
    rw [List.mem_cons, not_or] at hy
    exact ⟨((hl y hy.2).1).trans (hx y hy.1).1, ((hl y hy.2).2).trans (hx y hy.1).2⟩

section

variable (h : Forest T lt i k) (hv : cfg.Reachable v) (hva : Linked T lt i k v a u) {w : Nat}
  (hab : Linked T lt i k a b w)
include h hv hva hab

/-- A node linked to a linked node takes over its link, and the better label of the two. -/
theorem compressNode_linked :
    Linked T (lt.compressNode v) i k v b (if k w < k u then w else u) := by
  have hra : cfg.Reachable a := hva.anc.reach hv
  have hu : lt.semi u = some (k u) := h.semi u (hva.least.on.reach hv)
  have hw : lt.semi w = some (k w) := h.semi w (hab.least.on.reach hra)
  have hnode : (lt.compressNode v).ancestor v = some (some b) ∧
      (lt.compressNode v).label v = some (if k w < k u then w else u) := by
    simp only [compressNode, hva.anc?, hab.label, hva.label, Option.getD_some, hu, hw]
    have hanc : ∀ label, LengauerTarjan.anc? { lt with label } a = some b := fun _ => hab.anc?
    split_ifs with hlt
    · simp [hanc, update]
    · simp [hab.anc?, update, hva.label]
  refine ⟨hnode.1, hnode.2, hab.least.append hva.least hva.anc hv, fun y hy => ?_⟩
  rcases hy.split hva.anc hv with hy | hy
  · exact hab.later y hy
  · exact hva.later y hy

theorem compressNode_forest : Forest T (lt.compressNode v) i k := by
  obtain ⟨⟨_, _, hr⟩, hframe⟩ := compressNode_frame lt v
  have hvi : i < T.num v := h.later_of_anc? hv hva.anc?
  have hne : ∀ x, T.num x ≤ i → x ≠ v := by
    rintro x hx rfl
    exact absurd hvi (not_lt.2 hx)
  refine ⟨fun x hx => ?_, fun x hx hle => ?_, fun x hx hle => ?_, fun x hx hlt => ?_⟩
  · rw [hr]; exact h.semi x hx
  · rw [(hframe x (hne x hle)).1]; exact h.root x hx hle
  · rw [(hframe x (hne x hle)).2]; exact h.rootLabel x hx hle
  · by_cases hxv : x = v
    · subst hxv
      exact ⟨b, _, compressNode_linked h hx hva hab⟩
    · obtain ⟨c, t, hl⟩ := h.link x hx hlt
      exact ⟨c, t, hl.congr (hframe x hxv).1 (hframe x hxv).2⟩

end

theorem compressPath_le (h : Forest T lt i k) : ∀ fuel v, cfg.Reachable v →
    ∀ x ∈ lt.compressPath fuel v, T.num x ≤ T.num v := by
  intro fuel
  induction fuel with
  | zero => simp [compressPath]
  | succ fuel ih =>
    intro v hv x hx
    simp only [compressPath] at hx
    cases hav : lt.anc? v with
    | none => simp [hav] at hx
    | some a =>
      simp only [hav] at hx
      split_ifs at hx
      · obtain ⟨a', u, hl⟩ := h.link v hv (h.later_of_anc? hv hav)
        obtain rfl : a = a' := Option.some_inj.1 (hav.symm.trans hl.anc?)
        rcases List.mem_cons.1 hx with rfl | hx
        · exact le_rfl
        · exact (ih a (hl.anc.reach hv) x hx).trans (hl.num_lt hv).le
      · simp at hx

theorem compress_spec (h : Forest T lt i k) : ∀ fuel v, cfg.Reachable v → i < T.num v →
    T.num v ≤ fuel →
    Forest T ((lt.compressPath fuel v).reverse.foldl compressNode lt) i k ∧
    ∃ a u, T.num a ≤ i ∧
      Linked T ((lt.compressPath fuel v).reverse.foldl compressNode lt) i k v a u := by
  intro fuel
  induction fuel with
  | zero => intro v _ hi hf; omega
  | succ fuel ih =>
    intro v hv hi hf
    obtain ⟨a, u, hva⟩ := h.link v hv hi
    have hra : cfg.Reachable a := hva.anc.reach hv
    rcases le_or_gt (T.num a) i with hai | hai
    · -- `v` hangs off the root already
      have : lt.compressPath (fuel + 1) v = [] := by
        simp [compressPath, hva.anc?, h.anc?_root hra hai]
      rw [this]
      exact ⟨h, a, u, hai, hva⟩
    · obtain ⟨b, w, hab⟩ := h.link a hra hai
      have hpath : lt.compressPath (fuel + 1) v = v :: lt.compressPath fuel a := by
        simp [compressPath, hva.anc?, hab.anc?]
      rw [hpath, List.reverse_cons, List.foldl_append, List.foldl_cons, List.foldl_nil]
      have hav : T.num a < T.num v := hva.num_lt hv
      obtain ⟨h', c, t, hci, hac⟩ := ih a hra hai (by omega)
      -- the nodes compressed first are above `v`
      have hvnot : v ∉ (lt.compressPath fuel a).reverse := fun hm =>
        absurd (compressPath_le h fuel a hra v (List.mem_reverse.1 hm)) (not_le.2 hav)
      obtain ⟨-, hframe⟩ := compress_frame (lt.compressPath fuel a).reverse lt
      have hva' := hva.congr (hframe v hvnot).1 (hframe v hvnot).2
      exact ⟨compressNode_forest h' hv hva' hac, c, _, hci, compressNode_linked h' hv hva' hac⟩

/-- What `eval v` answers: `v` itself where it is a root of the forest, else the vertex with the
least key between the root and `v`. -/
def EvalResult (T : DfsTree cfg.Edge cfg.entryBlock) (i : Nat) (k : Nat → Nat) (v u : Nat) :
    Prop :=
  (T.num v ≤ i ∧ u = v) ∨
    i < T.num v ∧ ∃ a, T.num a ≤ i ∧ T.LeastOn k a v u ∧ ∀ y, T.OnPath a v y → i < T.num y

theorem eval_spec (h : Forest T lt i k) (hv : cfg.Reachable v)
    (hn : T.num v ≤ lt.vertex.length) :
    Forest T (lt.eval v).2 i k ∧ Relabel lt (lt.eval v).2 ∧ EvalResult T i k v (lt.eval v).1 := by
  rcases le_or_gt (T.num v) i with hle | hlt
  · have : lt.eval v = (v, lt) := by simp [eval, h.anc?_root hv hle]
    rw [this]
    exact ⟨h, .refl lt, .inl ⟨hle, rfl⟩⟩
  · obtain ⟨a, u, hva⟩ := h.link v hv hlt
    obtain ⟨h', c, t, hci, hvc⟩ := compress_spec h lt.vertex.length v hv hlt hn
    have : lt.eval v = (t, lt.compress v) := by
      simp only [eval, hva.anc?, compress]
      rw [hvc.label, Option.getD_some]
    rw [this]
    exact ⟨h', (compress_frame _ lt).1, .inr ⟨hlt, c, hci, hvc.least, hvc.later⟩⟩

end TldrCode.Ssa.LengauerTarjan
