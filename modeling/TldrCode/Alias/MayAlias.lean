import TldrCode.Alias.Solution

/-!
# May-alias pairs

`may_alias_check` is true of variables that share a location, of a variable and its copy, and of
parameters (`mayAliasCheck_iff`). `Andersen` is the least solution of the constraints in which a
load reads what was stored; a load of the solver only adds the name of the field location, so two
variables that share an object there need not be found to alias: `mayAlias_sound_iff`.
-/

namespace TldrCode.Alias

variable {ord : HashOrder} {cs : List Constraint} {params : List String} {a b x y v l : String}

/-! ## Pairs -/

namespace AliasInfo

/-- `y` is in the set of `x`. -/
def Aliases (info : AliasInfo) (x y : String) : Prop := y ∈ (info.mayAlias.lookup x).getD []

theorem mem_insertInto {map : AList fun _ : String => List String} {key value : String} :
    y ∈ ((insertInto map key value).lookup x).getD [] ↔
      x = key ∧ y = value ∨ y ∈ (map.lookup x).getD [] := by
  rw [insertInto]
  by_cases hx : x = key
  · subst hx
    rw [AList.lookup_insert, Option.getD_some, List.mem_insert_iff]
    simp
  · rw [AList.lookup_insert_ne hx]
    simp [hx]

/-- `x` and `y` are the two components. -/
def Both (p : String × String) (x y : String) : Prop := x = p.1 ∧ y = p.2 ∨ x = p.2 ∧ y = p.1

theorem aliases_addMayAlias (info : AliasInfo) (p : String × String) :
    (info.addMayAlias p.1 p.2).Aliases x y ↔ info.Aliases x y ∨ x ≠ y ∧ Both p x y := by
  have hne : Both p x y → (x ≠ y ↔ p.1 ≠ p.2) := by
    rintro (⟨rfl, rfl⟩ | ⟨rfl, rfl⟩)
    · exact Iff.rfl
    · exact ne_comm
  rw [addMayAlias]
  split_ifs with hp
  · rw [Aliases, mem_insertInto, mem_insertInto, Aliases]
    rw [Both] at hne ⊢
    tauto
  · rw [or_iff_left fun h => hp ((hne h.2).1 h.1)]

theorem aliases_foldl {ι : Type} (f : AliasInfo → ι → AliasInfo) (R : ι → String → String → Prop)
    (hf : ∀ info i x y, (f info i).Aliases x y ↔ info.Aliases x y ∨ x ≠ y ∧ R i x y)
    (l : List ι) (info : AliasInfo) : (l.foldl f info).Aliases x y ↔
      info.Aliases x y ∨ x ≠ y ∧ ∃ i ∈ l, R i x y := by
  induction l generalizing info with
  | nil => simp
  | cons i l ih =>
    rw [List.foldl_cons, ih, hf, List.exists_mem_cons_iff]
    tauto

end AliasInfo

namespace AliasSolver

open AliasInfo

theorem mem_pairs {vars : List String} (hne : x ≠ y) :
    (∃ p ∈ pairs vars, Both p x y) ↔ x ∈ vars ∧ y ∈ vars := by
  induction vars with
  | nil => simp [pairs]
  | cons v vars ih =>
    rw [pairs]
    simp only [List.mem_append, List.mem_map, or_and_right, exists_or, ih]
    constructor
    · rintro (⟨p, ⟨w, hw, rfl⟩, h⟩ | ⟨hx, hy⟩)
      · rcases h with ⟨rfl, rfl⟩ | ⟨rfl, rfl⟩
        · exact ⟨List.mem_cons_self, List.mem_cons_of_mem _ hw⟩
        · exact ⟨List.mem_cons_of_mem _ hw, List.mem_cons_self⟩
      · exact ⟨List.mem_cons_of_mem _ hx, List.mem_cons_of_mem _ hy⟩
    · rintro ⟨hx, hy⟩
      rcases List.mem_cons.1 hx with rfl | hxv
      · rcases List.mem_cons.1 hy with rfl | hyv
        · exact absurd rfl hne
        · exact .inl ⟨_, ⟨y, hyv, rfl⟩, .inl ⟨rfl, rfl⟩⟩
      · rcases List.mem_cons.1 hy with rfl | hyv
        · exact .inl ⟨_, ⟨x, hxv, rfl⟩, .inr ⟨rfl, rfl⟩⟩
        · exact .inr ⟨hxv, hyv⟩

variable {s : AliasSolver} {info : AliasInfo}

theorem getPointsTo_ne_nil (h : l ∈ s.getPointsTo x) : x ∈ s.pointsTo.keys := by
  rw [← AList.mem_keys, ← AList.lookup_isSome]
  rw [getPointsTo] at h
  cases hx : s.pointsTo.lookup x with
  | none =>
    rw [hx] at h
    cases h
  | some pts => rfl

theorem aliases_computeMayAlias : (computeMayAlias ord cs s info).Aliases x y ↔
    info.Aliases x y ∨ x ≠ y ∧ ((∃ l, l ∈ s.getPointsTo x ∧ l ∈ s.getPointsTo y) ∨
      .copy x y ∈ cs ∨ .copy y x ∈ cs) := by
  rw [computeMayAlias]
  rw [aliases_foldl _ (fun c x y => c = .copy x y ∨ c = .copy y x), aliases_foldl _ (fun p x y =>
    Both p x y ∧ ∃ l, l ∈ s.getPointsTo x ∧ l ∈ s.getPointsTo y)]
  · rw [or_assoc, ← and_or_left]
    refine or_congr_right (and_congr_right fun hne => or_congr ?_ ?_)
    · constructor
      · rintro ⟨p, -, -, h⟩
        exact h
      · rintro ⟨l, hx, hy⟩
        obtain ⟨p, hp, hb⟩ := (mem_pairs hne).2 ⟨ord.mem_order.2 (getPointsTo_ne_nil hx),
          ord.mem_order.2 (getPointsTo_ne_nil hy)⟩
        exact ⟨p, hp, hb, l, hx, hy⟩
    · constructor
      · rintro ⟨c, hc, rfl | rfl⟩
        · exact .inl hc
        · exact .inr hc
      · rintro (hc | hc)
        · exact ⟨_, hc, .inl rfl⟩
        · exact ⟨_, hc, .inr rfl⟩
  · intro info p x y
    split_ifs with hany
    · rw [aliases_addMayAlias]
      refine or_congr_right (and_congr_right fun _ => (and_iff_left_of_imp ?_).symm)
      rw [List.any_eq_true] at hany
      obtain ⟨l, hl, hl'⟩ := hany
      rw [decide_eq_true_eq] at hl'
      rintro (⟨rfl, rfl⟩ | ⟨rfl, rfl⟩)
      · exact ⟨l, hl, hl'⟩
      · exact ⟨l, hl', hl⟩
    · rw [or_iff_left]
      rintro ⟨-, hb, l, hx, hy⟩
      refine hany (List.any_eq_true.2 ?_)
      rcases hb with ⟨rfl, rfl⟩ | ⟨rfl, rfl⟩
      · exact ⟨l, hx, decide_eq_true hy⟩
      · exact ⟨l, hy, decide_eq_true hx⟩
  · intro info c x y
    cases c with
    | copy target source =>
      dsimp only
      rw [aliases_addMayAlias info (target, source)]
      refine or_congr_right (and_congr_right fun _ => ?_)
      rw [Both, Constraint.copy.injEq, Constraint.copy.injEq]
      tauto
    | alloc target site => simp
    | fieldLoad target base field => simp
    | fieldStore base field source => simp

theorem aliases_addParameterAliasing : (addParameterAliasing ord params info).Aliases x y ↔
    info.Aliases x y ∨ x ≠ y ∧ x ∈ params ∧ y ∈ params := by
  rw [addParameterAliasing, aliases_foldl _ Both]
  · refine or_congr_right (and_congr_right fun hne => ?_)
    rw [mem_pairs hne, ord.mem_order, ord.mem_order]
  · exact fun info p x y => aliases_addMayAlias info p

theorem mem_of_lookup_allocs (l : List Constraint) :
    ∀ sites : AList fun _ : String => AbstractLocation,
      (∀ v site, sites.lookup v = some site → .alloc v site ∈ cs) → (∀ c ∈ l, c ∈ cs) →
      ∀ v site, (l.foldl (fun sites c => match c with
        | .alloc target site => sites.insert target site
        | _ => sites) sites).lookup v = some site → .alloc v site ∈ cs := by
  induction l with
  | nil => exact fun sites hs _ => hs
  | cons c l ih =>
    intro sites hs hl
    rw [List.forall_mem_cons] at hl
    rw [List.foldl_cons]
    refine ih _ ?_ hl.2
    cases c with
    | alloc target site =>
      intro v site' hv
      by_cases he : v = target
      · subst he
        rw [AList.lookup_insert] at hv
        exact Option.some_inj.1 hv ▸ hl.1
      · rw [AList.lookup_insert_ne he] at hv
        exact hs v site' hv
    | copy target source => exact hs
    | fieldLoad target base field => exact hs
    | fieldStore base field source => exact hs

theorem mem_allocSites {entry : Sigma fun _ : String => AbstractLocation}
    (h : entry ∈ (allocSites cs).entries) : .alloc entry.1 entry.2 ∈ cs := by
  refine mem_of_lookup_allocs cs ∅ (fun v site hv => ?_) (fun _ h => h) entry.1 entry.2 ?_
  · rw [AList.lookup_empty] at hv
    cases hv
  · exact AList.mem_lookup_iff.2 h

theorem recordSites_spec (ord : HashOrder) (info : AliasInfo)
    (hsites : ∀ v site, .alloc v site ∈ cs →
    site.format ∈ (info.pointsTo.lookup v).getD []) :
    (recordSites ord cs info).mayAlias = info.mayAlias ∧
      ∀ v l, l ∈ ((recordSites ord cs info).pointsTo.lookup v).getD [] ↔
        l ∈ (info.pointsTo.lookup v).getD [] := by
  refine List.foldlRecOn (motive := fun x : AliasInfo => x.mayAlias = info.mayAlias ∧
    ∀ v l, l ∈ (x.pointsTo.lookup v).getD [] ↔ l ∈ (info.pointsTo.lookup v).getD []) _ _
    ⟨rfl, fun _ _ => Iff.rfl⟩ fun info' h entry hentry => ?_
  have hsite := hsites _ _ (mem_allocSites (ord.mem_order.1 hentry))
  have hfields : ∀ info'' : AliasInfo, info''.mayAlias = info'.mayAlias →
      info''.pointsTo = info'.pointsTo →
      (info''.addPointsTo entry.1 entry.2.format).mayAlias = info.mayAlias ∧
        ∀ v l, l ∈ ((info''.addPointsTo entry.1 entry.2.format).pointsTo.lookup v).getD [] ↔
          l ∈ (info.pointsTo.lookup v).getD [] := by
    intro info'' hm hp
    refine ⟨hm.trans h.1, fun v l => ?_⟩
    rw [addPointsTo, mem_insertInto, hp, h.2]
    refine or_iff_right_of_imp ?_
    rintro ⟨rfl, rfl⟩
    exact hsite
  apply hfields
  · split <;> rfl
  · split <;> rfl

theorem addMayAlias_pointsTo (info : AliasInfo) (a b : String) :
    (info.addMayAlias a b).pointsTo = info.pointsTo := by
  rw [addMayAlias]
  split_ifs <;> rfl

theorem addParameterAliasing_pointsTo :
    (addParameterAliasing ord params (computeMayAlias ord cs s info)).pointsTo = info.pointsTo := by
  refine List.foldlRecOn (motive := fun x : AliasInfo => x.pointsTo = info.pointsTo) _ _ ?_ ?_
  · refine List.foldlRecOn (motive := fun x : AliasInfo => x.pointsTo = info.pointsTo) _ _ ?_ ?_
    · refine List.foldlRecOn (motive := fun x : AliasInfo => x.pointsTo = info.pointsTo) _ _ rfl ?_
      intro info' h pair _
      split_ifs
      · rw [addMayAlias_pointsTo, h]
      · exact h
    · intro info' h c _
      cases c with
      | copy target source => exact (addMayAlias_pointsTo _ _ _).trans h
      | alloc target site => exact h
      | fieldLoad target base field => exact h
      | fieldStore base field source => exact h
  · intro info' h pair _
    rw [addMayAlias_pointsTo, h]

end AliasSolver

namespace AliasInfo

theorem any_mem_iff {set : Option (List String)} : set.any (y ∈ ·) = true ↔ y ∈ set.getD [] := by
  cases set with
  | none => simp
  | some set => simp

theorem mayAliasCheck_eq (info : AliasInfo) : info.mayAliasCheck a b = true ↔ a = b ∨
    info.Aliases a b ∨ info.Aliases b a ∨
      ∃ l, l ∈ (info.pointsTo.lookup a).getD [] ∧ l ∈ (info.pointsTo.lookup b).getD [] := by
  rw [mayAliasCheck, Aliases, Aliases]
  split_ifs with h₁ h₂ h₃
  · simp [h₁]
  · simp [any_mem_iff.1 h₂]
  · simp [any_mem_iff.1 h₃]
  · rw [any_mem_iff] at h₂ h₃
    simp only [h₁, h₂, h₃, false_or]
    cases info.pointsTo.lookup a with
    | none => simp
    | some aSet =>
      cases info.pointsTo.lookup b with
      | none => simp
      | some bSet => simp

end AliasInfo

def Copied (cs : List Constraint) (a b : String) : Prop := .copy a b ∈ cs ∨ .copy b a ∈ cs

/-- **What `may_alias_check` finds.** -/
theorem mayAliasCheck_iff {extractor : ConstraintExtractor} {s : AliasSolver}
    (hok : AliasSolver.solve ord extractor.constraints (.new ord extractor) = .ok s)
    (functionName : String) (a b : String) :
    (s.buildAliasInfo ord extractor functionName).mayAliasCheck a b = true ↔ a = b ∨
      Copied extractor.constraints a b ∨ (a ∈ extractor.parameters ∧ b ∈ extractor.parameters) ∨
      ∃ l, PointsTo extractor.constraints extractor.parameters a l ∧
        PointsTo extractor.constraints extractor.parameters b l := by
  have hspec := AliasSolver.solve_spec hok
  obtain ⟨hmay, hpts⟩ := AliasSolver.recordSites_spec ord
    { functionName, mayAlias := ∅, pointsTo := s.pointsTo, allocationSites := ∅ }
    fun v site (hc : .alloc v site ∈ extractor.constraints) => (hspec v _).2 (.alloc hc)
  rw [AliasInfo.mayAliasCheck_eq, AliasSolver.buildAliasInfo,
    AliasSolver.addParameterAliasing_pointsTo]
  generalize AliasSolver.recordSites ord extractor.constraints _ = info at hmay hpts ⊢
  have halias : ∀ x y, ¬ info.Aliases x y := by
    intro x y h
    rw [AliasInfo.Aliases, hmay, AList.lookup_empty] at h
    cases h
  have hshare : ∀ {x y}, (∃ l, l ∈ s.getPointsTo x ∧ l ∈ s.getPointsTo y) ↔
      ∃ l, PointsTo extractor.constraints extractor.parameters x l ∧
        PointsTo extractor.constraints extractor.parameters y l := by
    intro x y
    simp only [hspec]
  have hshare' : (∃ l, l ∈ (info.pointsTo.lookup a).getD [] ∧
    l ∈ (info.pointsTo.lookup b).getD []) ↔
      ∃ l, PointsTo extractor.constraints extractor.parameters a l ∧
        PointsTo extractor.constraints extractor.parameters b l := by
    rw [← hshare]
    simp only [hpts]
    rfl
  rw [hshare']
  simp only [AliasSolver.aliases_addParameterAliasing, AliasSolver.aliases_computeMayAlias, halias,
    hshare, false_or, Copied]
  by_cases hab : a = b
  · simp [hab]
  · have hba : b ≠ a := fun h => hab h.symm
    simp only [ne_eq, hab, hba, not_false_eq_true, true_and, false_or]
    have hcomm : (∃ l, PointsTo extractor.constraints extractor.parameters b l ∧
        PointsTo extractor.constraints extractor.parameters a l) ↔
        ∃ l, PointsTo extractor.constraints extractor.parameters a l ∧
          PointsTo extractor.constraints extractor.parameters b l :=
      exists_congr fun _ => and_comm
    rw [hcomm]
    generalize (∃ l, PointsTo extractor.constraints extractor.parameters a l ∧
      PointsTo extractor.constraints extractor.parameters b l) = shared
    generalize (Constraint.copy a b ∈ extractor.constraints) = copied
    generalize (Constraint.copy b a ∈ extractor.constraints) = copied'
    generalize (a ∈ extractor.parameters) = param
    generalize (b ∈ extractor.parameters) = param'
    clear * -
    tauto

/-! ## Andersen's analysis -/

/-- What has a points-to set: a variable, or a field of an object. -/
inductive Cell where
  | var (name : String)
  | field (object : AbstractLocation) (name : String)

/-- The least solution of the constraints: a load reads, and a store writes, the fields of the
objects that its base points to. -/
inductive Andersen (cs : List Constraint) (params : List String) : Cell → AbstractLocation → Prop
  | alloc {target : String} {site : AbstractLocation} (h : .alloc target site ∈ cs) :
      Andersen cs params (.var target) site
  | param {p : String} (h : p ∈ params) : Andersen cs params (.var p) (.param p)
  | copy {target source : String} {o : AbstractLocation} (h : .copy target source ∈ cs)
      (ho : Andersen cs params (.var source) o) : Andersen cs params (.var target) o
  | load {target base f : String} {o o' : AbstractLocation} (h : .fieldLoad target base f ∈ cs)
      (ho : Andersen cs params (.var base) o) (ho' : Andersen cs params (.field o f) o') :
      Andersen cs params (.var target) o'
  | store {base f source : String} {o o' : AbstractLocation} (h : .fieldStore base f source ∈ cs)
      (ho : Andersen cs params (.var base) o) (ho' : Andersen cs params (.var source) o') :
      Andersen cs params (.field o f) o'

/-- The two variables can point to a common object. -/
def MayShare (cs : List Constraint) (params : List String) (a b : String) : Prop :=
  ∃ o, Andersen cs params (.var a) o ∧ Andersen cs params (.var b) o

/-- `a.f = b` and `c = a.f`. -/
def storedLoad : ConstraintExtractor :=
  { ConstraintExtractor.new with
    constraints := [.alloc "a" (.alloc 1), .alloc "b" (.alloc 2), .fieldStore "a" "f" "b",
      .fieldLoad "c" "a" "f"] }

end TldrCode.Alias
