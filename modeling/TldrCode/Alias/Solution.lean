import TldrCode.Alias.Solver

/-!
# What the solver finds

`PointsTo` derives the locations of the solver's sets from the constraints: a load adds the names of
field locations, and a copy counts unless its target is the target of a load too. The sets only
grow, and a name whose set has grown is on the worklist, so a constraint that no name on the
worklist concerns `Holds`; when the worklist is empty the sets are exactly `PointsTo`
(`solve_spec`).
-/

namespace TldrCode.Alias

variable {ord : HashOrder} {cs : List Constraint} {params : List String}
  {v target source base field l : String}

/-! ## The index tables -/

theorem mem_copyConstraints : source ∈ copyConstraints cs target ↔ .copy target source ∈ cs := by
  simp only [copyConstraints, List.mem_filterMap]
  constructor
  · rintro ⟨c, hc, h⟩
    cases c <;> simp_all
  · exact fun h => ⟨_, h, by simp⟩

theorem mem_fieldLoads : (base, field) ∈ fieldLoads cs target ↔
    .fieldLoad target base field ∈ cs := by
  simp only [fieldLoads, List.mem_filterMap]
  constructor
  · rintro ⟨c, hc, h⟩
    cases c <;> simp_all
  · exact fun h => ⟨_, h, by simp⟩

theorem mem_fieldStores : (field, source) ∈ fieldStores cs base ↔
    .fieldStore base field source ∈ cs := by
  simp only [fieldStores, List.mem_filterMap]
  constructor
  · rintro ⟨c, hc, h⟩
    cases c <;> simp_all
  · exact fun h => ⟨_, h, by simp⟩

theorem mem_reverseFieldStores : (base, field) ∈ reverseFieldStores cs source ↔
    .fieldStore base field source ∈ cs := by
  simp only [reverseFieldStores, List.mem_filterMap]
  constructor
  · rintro ⟨c, hc, h⟩
    cases c <;> simp_all
  · exact fun h => ⟨_, h, by simp⟩

theorem mem_reverseCopy : target ∈ reverseCopy cs source ↔ .copy target source ∈ cs ∨
    ∃ field, .fieldLoad target source field ∈ cs := by
  simp only [reverseCopy, List.mem_filterMap]
  constructor
  · rintro ⟨c, hc, h⟩
    cases c with
    | copy t s =>
      left
      simp_all
    | fieldLoad t b f =>
      right
      refine ⟨f, ?_⟩
      simp_all
    | alloc t site => cases h
    | fieldStore b f s => cases h
  · rintro (h | ⟨field, h⟩)
    · exact ⟨_, h, by simp⟩
    · exact ⟨_, h, by simp⟩

def Loaded (cs : List Constraint) (target : String) : Prop :=
  ∃ base field, .fieldLoad target base field ∈ cs

theorem fieldLoads_ne_nil : fieldLoads cs target ≠ [] ↔ Loaded cs target := by
  constructor
  · intro h
    obtain ⟨⟨base, field⟩, hmem⟩ := List.exists_mem_of_ne_nil _ h
    exact ⟨base, field, mem_fieldLoads.1 hmem⟩
  · rintro ⟨base, field, h⟩
    exact List.ne_nil_of_mem (mem_fieldLoads.2 h)

/-- `var` gets the location: from an allocation or as a parameter, by copies into variables that are
not loaded, and with a field added by a load; a store copies into the field locations. -/
inductive PointsTo (cs : List Constraint) (params : List String) : String → String → Prop
  | alloc {target : String} {site : AbstractLocation} (h : .alloc target site ∈ cs) :
      PointsTo cs params target site.format
  | param {p : String} (h : p ∈ params) : PointsTo cs params p (AbstractLocation.param p).format
  | copy {target source l : String} (h : .copy target source ∈ cs) (ht : ¬ Loaded cs target)
      (hl : PointsTo cs params source l) : PointsTo cs params target l
  | load {target base field l : String} (h : .fieldLoad target base field ∈ cs)
      (hl : PointsTo cs params base l) :
      PointsTo cs params target (createFieldLocation l field)
  | store {base field source l l' : String} (h : .fieldStore base field source ∈ cs)
      (hl : PointsTo cs params base l) (hl' : PointsTo cs params source l') :
      PointsTo cs params (createFieldLocation l field) l'

namespace AliasSolver

variable {s s' s'' s₀ s₁ : AliasSolver} {c : Constraint} {locs : List String}
  {pending : String → Prop}

/-! ## Growing sets -/

/-- What is known of a state of the solver: the two forms of the worklist agree, and the sets hold
only what `PointsTo` derives. -/
structure Valid (cs : List Constraint) (params : List String) (s : AliasSolver) : Prop where
  worklist : ∀ v ∈ s.inWorklist, v ∈ s.worklist
  sound : ∀ v, ∀ l ∈ s.getPointsTo v, PointsTo cs params v l

/-- The sets have only grown, and those that have are on the worklist. -/
structure Grows (s s' : AliasSolver) : Prop where
  pointsTo : ∀ v, ∀ l ∈ s.getPointsTo v, l ∈ s'.getPointsTo v
  worklist : ∀ v ∈ s.worklist, v ∈ s'.worklist
  changed : ∀ v, v ∈ s'.worklist ∨ s'.getPointsTo v = s.getPointsTo v

theorem Grows.refl (s : AliasSolver) : Grows s s :=
  ⟨fun _ _ h => h, fun _ h => h, fun _ => .inr rfl⟩

theorem Grows.trans (h : Grows s s') (h' : Grows s' s'') : Grows s s'' where
  pointsTo v l hl := h'.pointsTo v l (h.pointsTo v l hl)
  worklist v hv := h'.worklist v (h.worklist v hv)
  changed v := by
    rcases h'.changed v with hv | hv
    · exact .inl hv
    · rcases h.changed v with hv' | hv'
      · exact .inl (h'.worklist v hv')
      · exact .inr (hv.trans hv')

def Stable (F : AliasSolver → Prop) : Prop := ∀ s s', Grows s s' → F s → F s'

/-- From a valid state, `s'` is reached by growing and `F` has come about. -/
structure Step (cs : List Constraint) (params : List String) (F : AliasSolver → Prop)
    (s s' : AliasSolver) : Prop where
  valid : Valid cs params s'
  grows : Grows s s'
  fact : F s'

theorem Step.refl {F : AliasSolver → Prop} (h : Valid cs params s) (hF : F s) :
    Step cs params F s s := ⟨h, .refl s, hF⟩

section

variable {ι : Type} {f : AliasSolver → ι → AliasSolver} {F : ι → AliasSolver → Prop}
  (hstable : ∀ x, Stable (F x))
include hstable

/-- A loop brings about what each of its steps does from a state that has grown. -/
theorem Step.foldl_from (s₀ : AliasSolver) (xs : List ι)
    (hf : ∀ s, Valid cs params s → Grows s₀ s → ∀ x ∈ xs, Step cs params (F x) s (f s x)) :
    ∀ s, Valid cs params s → Grows s₀ s →
      Step cs params (fun s => ∀ x ∈ xs, F x s) s (xs.foldl f s) := by
  induction xs with
  | nil => exact fun s h _ => .refl h (by simp)
  | cons x xs ih =>
    intro s h hg
    obtain ⟨h₁, hg₁, hF₁⟩ := hf s h hg x List.mem_cons_self
    obtain ⟨h₂, hg₂, hF₂⟩ := ih (fun s h hg y hy => hf s h hg y (List.mem_cons_of_mem _ hy))
      (f s x) h₁ (hg.trans hg₁)
    exact ⟨h₂, hg₁.trans hg₂, List.forall_mem_cons.2 ⟨hstable x _ _ hg₂ hF₁, hF₂⟩⟩

theorem Step.foldl (xs : List ι)
    (hf : ∀ s, Valid cs params s → ∀ x ∈ xs, Step cs params (F x) s (f s x)) :
    ∀ s, Valid cs params s → Step cs params (fun s => ∀ x ∈ xs, F x s) s (xs.foldl f s) :=
  fun s h => Step.foldl_from hstable s xs (fun s h _ => hf s h) s h (.refl s)

end

/-! ## One extension -/

theorem mem_foldl_insert (locs pts : List String) :
    l ∈ locs.foldl (fun pts loc => pts.insert loc) pts ↔ l ∈ pts ∨ l ∈ locs := by
  induction locs generalizing pts with
  | nil => simp
  | cons loc locs ih =>
    rw [List.foldl_cons, ih, List.mem_insert_iff, List.mem_cons]
    tauto

theorem foldl_insert_length (locs pts : List String) :
    pts.length < (locs.foldl (fun pts loc => pts.insert loc) pts).length ∨
      locs.foldl (fun pts loc => pts.insert loc) pts = pts := by
  induction locs generalizing pts with
  | nil => exact .inr rfl
  | cons loc locs ih =>
    rw [List.foldl_cons]
    by_cases hmem : loc ∈ pts
    · rw [List.insert_of_mem hmem]
      exact ih pts
    · left
      have hlen : (pts.insert loc).length = pts.length + 1 := List.length_insert_of_not_mem hmem
      rcases ih (pts.insert loc) with h | h
      · omega
      · rw [h]
        omega

theorem getPointsTo_insert (pointsTo : AList fun _ : String => List String) (target : String)
    (pts worklist inWorklist : List String) (n : Nat) (v : String) :
    getPointsTo ⟨pointsTo.insert target pts, worklist, inWorklist, n⟩ v =
      if v = target then pts else (pointsTo.lookup v).getD [] := by
  rw [getPointsTo]
  split_ifs with hv
  · rw [hv, AList.lookup_insert, Option.getD_some]
  · rw [AList.lookup_insert_ne hv]

@[simp] theorem getPointsTo_addToWorklist (s : AliasSolver) (var v : String) :
    (s.addToWorklist var).getPointsTo v = s.getPointsTo v := by
  rw [addToWorklist]
  split_ifs <;> rfl

theorem mem_worklist_addToWorklist (h : ∀ v ∈ s.inWorklist, v ∈ s.worklist) (var v : String) :
    v ∈ (s.addToWorklist var).worklist ↔ v = var ∨ v ∈ s.worklist := by
  rw [addToWorklist]
  split_ifs with hvar
  · exact ⟨.inr, fun hv => hv.elim (fun he => he ▸ h var hvar) id⟩
  · rw [List.mem_append, List.mem_singleton, or_comm]

theorem mem_inWorklist_addToWorklist (s : AliasSolver) (var v : String) :
    v ∈ (s.addToWorklist var).inWorklist ↔ v = var ∨ v ∈ s.inWorklist := by
  rw [addToWorklist]
  split_ifs with hvar
  · exact ⟨.inr, fun hv => hv.elim (fun he => he ▸ hvar) id⟩
  · exact List.mem_insert_iff

/-- Setting one set, to a larger one if its name goes on the worklist and else to the same. -/
theorem set_step (push : Prop) [Decidable push] (h : Valid cs params s) {pts : List String}
    (hle : ∀ l ∈ s.getPointsTo target, l ∈ pts) (hpts : ∀ l ∈ pts, PointsTo cs params target l)
    (hpush : ¬ push → pts = s.getPointsTo target)
    (hs' : s' = { s with pointsTo := s.pointsTo.insert target pts }) :
    Step cs params (fun s' => ∀ l ∈ pts, l ∈ s'.getPointsTo target) s
      (if push then s'.addToWorklist target else s') := by
  have hget : ∀ v, (if push then s'.addToWorklist target else s').getPointsTo v =
      if v = target then pts else s.getPointsTo v := by
    intro v
    have h' : s'.getPointsTo v = if v = target then pts else s.getPointsTo v := by
      rw [hs']
      exact getPointsTo_insert _ _ _ _ _ _ v
    split_ifs with hp hv hv
    · rw [getPointsTo_addToWorklist, h', if_pos hv]
    · rw [getPointsTo_addToWorklist, h', if_neg hv]
    · rw [h', if_pos hv]
    · rw [h', if_neg hv]
  have hwl : s'.worklist = s.worklist ∧ s'.inWorklist = s.inWorklist := hs' ▸ ⟨rfl, rfl⟩
  have hin : ∀ v ∈ s'.inWorklist, v ∈ s'.worklist := by
    rw [hwl.1, hwl.2]
    exact h.worklist
  have hwork : ∀ v, v ∈ (if push then s'.addToWorklist target else s').worklist ↔
      push ∧ v = target ∨ v ∈ s.worklist := by
    intro v
    split_ifs with hp
    · rw [mem_worklist_addToWorklist hin, hwl.1]
      simp [hp]
    · rw [hwl.1]
      simp [hp]
  refine ⟨⟨fun v hv => ?_, fun v l hl => ?_⟩, ⟨fun v l hl => ?_, fun v hv => ?_, fun v => ?_⟩,
    fun l hl => ?_⟩
  · rw [hwork]
    split_ifs at hv with hp
    · rw [mem_inWorklist_addToWorklist, hwl.2] at hv
      exact hv.imp (fun he => ⟨hp, he⟩) (h.worklist v)
    · rw [hwl.2] at hv
      exact .inr (h.worklist v hv)
  · rw [hget] at hl
    split_ifs at hl with hv
    · exact hv ▸ hpts l hl
    · exact h.sound v l hl
  · rw [hget]
    split_ifs with hv
    · exact hle l (hv ▸ hl)
    · exact hl
  · exact (hwork v).2 (.inr hv)
  · rw [hwork, hget]
    by_cases hv : v = target
    · by_cases hp : push
      · exact .inl (.inl ⟨hp, hv⟩)
      · rw [if_pos hv, hpush hp, hv]
        exact .inr rfl
    · rw [if_neg hv]
      exact .inr rfl
  · rw [hget, if_pos rfl]
    exact hl

/-- **Extending** a set by derived locations. -/
theorem extend_step (locs : List String) (h : Valid cs params s)
    (hlocs : ∀ l ∈ locs, PointsTo cs params target l) :
    Step cs params (fun s' => ∀ l ∈ locs, l ∈ s'.getPointsTo target) s (s.extend target locs) := by
  have hmem := fun l => @mem_foldl_insert l locs (s.getPointsTo target)
  obtain ⟨hv, hg, hF⟩ := set_step _ h (fun l hl => (hmem l).2 (.inl hl))
    (fun l hl => ((hmem l).1 hl).elim (h.sound target l) (hlocs l))
    (fun hp => (foldl_insert_length locs _).resolve_left hp) rfl
  exact ⟨hv, hg, fun l hl => hF l ((hmem l).2 (.inr hl))⟩

/-- The inclusion of the constraint, unless one of the names it reads is pending. -/
def Holds (cs : List Constraint) (pending : String → Prop) (s : AliasSolver) : Constraint → Prop
  | .copy target source => ¬ Loaded cs target → pending source ∨
      ∀ l ∈ s.getPointsTo source, l ∈ s.getPointsTo target
  | .alloc target site => site.format ∈ s.getPointsTo target
  | .fieldLoad target base field => pending base ∨
      ∀ l ∈ s.getPointsTo base, createFieldLocation l field ∈ s.getPointsTo target
  | .fieldStore base field source => pending base ∨ pending source ∨
      ∀ l ∈ s.getPointsTo base, ∀ l' ∈ s.getPointsTo source,
        l' ∈ s.getPointsTo (createFieldLocation l field)

/-- The inclusion of the constraint, of the sets of one state in those of another. -/
def Transfers (cs : List Constraint) (s s' : AliasSolver) : Constraint → Prop
  | .copy target source => ¬ Loaded cs target →
      ∀ l ∈ s.getPointsTo source, l ∈ s'.getPointsTo target
  | .alloc target site => site.format ∈ s'.getPointsTo target
  | .fieldLoad target base field =>
      ∀ l ∈ s.getPointsTo base, createFieldLocation l field ∈ s'.getPointsTo target
  | .fieldStore base field source => ∀ l ∈ s.getPointsTo base, ∀ l' ∈ s.getPointsTo source,
      l' ∈ s'.getPointsTo (createFieldLocation l field)

theorem Transfers.mono (h : Transfers cs s s' c)
    (hs : ∀ v, ∀ l ∈ s₀.getPointsTo v, l ∈ s.getPointsTo v)
    (hs' : ∀ v, ∀ l ∈ s'.getPointsTo v, l ∈ s₁.getPointsTo v) : Transfers cs s₀ s₁ c := by
  cases c with
  | copy target source => exact fun ht l hl => hs' _ _ (h ht l (hs _ _ hl))
  | alloc target site => exact hs' _ _ h
  | fieldLoad target base field => exact fun l hl => hs' _ _ (h l (hs _ _ hl))
  | fieldStore base field source =>
    exact fun l hl l' hl' => hs' _ _ (h l (hs _ _ hl) l' (hs _ _ hl'))

def reads : Constraint → List String
  | .copy _ source => [source]
  | .alloc _ _ => []
  | .fieldLoad _ base _ => [base]
  | .fieldStore base _ source => [base, source]

/-- A constraint that holds transfers the sets, unless it reads a pending name. -/
theorem Holds.transfers (h : Holds cs pending s c) :
    (∃ v ∈ reads c, pending v) ∨ Transfers cs s s c := by
  cases c with
  | copy target source =>
    by_cases hp : pending source
    · exact .inl ⟨source, List.mem_singleton_self _, hp⟩
    · exact .inr fun ht => (h ht).resolve_left hp
  | alloc target site => exact .inr h
  | fieldLoad target base field =>
    exact h.imp_left fun hp => ⟨base, List.mem_singleton_self _, hp⟩
  | fieldStore base field source =>
    rcases h with hp | hp | hle
    · exact .inl ⟨base, List.mem_cons_self, hp⟩
    · exact .inl ⟨source, List.mem_cons_of_mem _ (List.mem_singleton_self _), hp⟩
    · exact .inr hle

/-- A name that the constraint reads is pending. -/
theorem Holds.of_reads {v : String} (hv : v ∈ reads c) (hp : pending v) : Holds cs pending s c := by
  cases c with
  | copy target source =>
    obtain rfl := List.mem_singleton.1 hv
    exact fun _ => .inl hp
  | alloc target site => cases hv
  | fieldLoad target base field =>
    obtain rfl := List.mem_singleton.1 hv
    exact .inl hp
  | fieldStore base field source =>
    rcases List.mem_cons.1 hv with rfl | hv
    · exact .inl hp
    · obtain rfl := List.mem_singleton.1 hv
      exact .inr (.inl hp)

/-- A name whose set is not the one that was transferred is on the worklist. -/
theorem Transfers.holds (h : Transfers cs s s' c) (hg : Grows s s') :
    Holds cs (· ∈ s'.worklist) s' c := by
  cases c with
  | copy target source =>
    intro ht
    rcases hg.changed source with hw | heq
    · exact .inl hw
    · exact .inr fun l hl => h ht l (heq ▸ hl)
  | alloc target site => exact h
  | fieldLoad target base field =>
    rcases hg.changed base with hw | heq
    · exact .inl hw
    · exact .inr fun l hl => h l (heq ▸ hl)
  | fieldStore base field source =>
    rcases hg.changed base with hw | heq
    · exact .inl hw
    · rcases hg.changed source with hw' | heq'
      · exact .inr (.inl hw')
      · exact .inr (.inr fun l hl l' hl' => h l (heq ▸ hl) l' (heq' ▸ hl'))

/-! ## One name of the worklist -/

variable {var : String} {pts : List String}

theorem stable_mem (pts : List String) (f : String → String) (target : String) :
    Stable fun s => ∀ l ∈ pts, f l ∈ s.getPointsTo target :=
  fun _ _ hg h l hl => hg.pointsTo target _ (h l hl)

theorem propagateCopy_step (ord : HashOrder) (h : Valid cs params s) (hc : .copy target source ∈ cs)
    (ht : ¬ Loaded cs target) (hpts : ∀ l ∈ pts, PointsTo cs params source l) :
    Step cs params (fun s => ∀ l ∈ pts, l ∈ s.getPointsTo target) s
      (propagateCopy ord target pts s) := by
  obtain ⟨hv, hg, hF⟩ := extend_step (ord.order pts) h fun l hl =>
    .copy hc ht (hpts l (ord.mem_order.1 hl))
  exact ⟨hv, hg, fun l hl => hF l (ord.mem_order.2 hl)⟩

theorem propagateFieldLoad_step (ord : HashOrder) (h : Valid cs params s)
    (hc : .fieldLoad target base field ∈ cs)
    (hpts : ∀ l ∈ pts, PointsTo cs params base l) :
    Step cs params (fun s => ∀ l ∈ pts, createFieldLocation l field ∈ s.getPointsTo target) s
      (propagateFieldLoad ord target pts field s) := by
  have hlocs : ∀ l ∈ (ord.order pts).map (createFieldLocation · field),
      PointsTo cs params target l := by
    intro l hl
    obtain ⟨l₀, hl₀, rfl⟩ := List.mem_map.1 hl
    exact .load hc (hpts l₀ (ord.mem_order.1 hl₀))
  obtain ⟨hv, hg, hF⟩ := extend_step _ h hlocs
  exact ⟨hv, hg, fun l hl => hF _ (List.mem_map_of_mem (ord.mem_order.2 hl))⟩

theorem propagateFieldStore_held (ord : HashOrder) (h : Valid cs params s)
    (hc : .fieldStore base field source ∈ cs) (hpts : ∀ l ∈ pts, PointsTo cs params base l) :
    Step cs params (fun s' => ∀ l ∈ pts, ∀ l' ∈ s.getPointsTo source,
      l' ∈ s'.getPointsTo (createFieldLocation l field)) s
      (propagateFieldStore ord pts field source s) := by
  obtain ⟨hv, hg, hF⟩ := Step.foldl
    (f := fun s' fieldLoc => s'.extend fieldLoc (ord.order (s.getPointsTo source)))
    (F := fun fieldLoc s' => ∀ l' ∈ s.getPointsTo source, l' ∈ s'.getPointsTo fieldLoc)
    (fun fieldLoc => stable_mem _ id fieldLoc)
    ((ord.order pts).map (createFieldLocation · field)) (fun s' hs' fieldLoc hmem => by
      obtain ⟨l, hl, rfl⟩ := List.mem_map.1 hmem
      obtain ⟨hv, hg, hF⟩ := extend_step (ord.order (s.getPointsTo source)) hs'
        fun l' hl' => .store hc (hpts l (ord.mem_order.1 hl))
          (h.sound source l' (ord.mem_order.1 hl'))
      exact ⟨hv, hg, fun l' hl' => hF l' (ord.mem_order.2 hl')⟩) s h
  exact ⟨hv, hg, fun l hl => hF _ (List.mem_map_of_mem (ord.mem_order.2 hl))⟩

/-- What `propagateTarget` is for. -/
def TargetDone (cs : List Constraint) (var : String) (pts : List String) (target : String)
    (s : AliasSolver) : Prop :=
  (.copy target var ∈ cs → ¬ Loaded cs target → ∀ l ∈ pts, l ∈ s.getPointsTo target) ∧
    ∀ field, .fieldLoad target var field ∈ cs →
      ∀ l ∈ pts, createFieldLocation l field ∈ s.getPointsTo target

theorem stable_targetDone : Stable (TargetDone cs var pts target) :=
  fun _ _ hg h => ⟨fun hc ht l hl => hg.pointsTo _ l (h.1 hc ht l hl),
    fun field hc l hl => hg.pointsTo _ _ (h.2 field hc l hl)⟩

theorem propagateTarget_step (ord : HashOrder) (h : Valid cs params s)
    (htarget : target ∈ reverseCopy cs var)
    (hpts : ∀ l ∈ pts, PointsTo cs params var l) :
    Step cs params (TargetDone cs var pts target) s
      (propagateTarget ord cs var pts s target) := by
  unfold propagateTarget
  by_cases ht : Loaded cs target
  · rw [if_pos (fieldLoads_ne_nil.2 ht)]
    have hf : ∀ s, Valid cs params s → ∀ load ∈ fieldLoads cs target,
        Step cs params (fun s => load.1 = var → ∀ l ∈ pts,
            createFieldLocation l load.2 ∈ s.getPointsTo target) s
          (if load.1 = var then propagateFieldLoad ord target pts load.2 s else s) := by
      intro s hs load hload
      split_ifs with hvar
      · obtain ⟨hv, hg, hF⟩ := propagateFieldLoad_step ord hs
          (hvar ▸ mem_fieldLoads.1 hload) hpts
        exact ⟨hv, hg, fun _ => hF⟩
      · exact .refl hs fun he => absurd he hvar
    obtain ⟨hv, hg, hF⟩ := Step.foldl (F := fun (load : String × String) s => load.1 = var →
        ∀ l ∈ pts, createFieldLocation l load.2 ∈ s.getPointsTo target)
      (fun load s s' hg h he l hl => hg.pointsTo _ _ (h he l hl)) _ hf s h
    refine ⟨hv, hg, fun _ hn => absurd ht hn, fun field hc => ?_⟩
    exact hF (var, field) (mem_fieldLoads.2 hc) rfl
  · rw [if_neg (fun hn => ht (fieldLoads_ne_nil.1 hn))]
    have hc : .copy target var ∈ cs := by
      refine (mem_reverseCopy.1 htarget).resolve_right ?_
      exact fun ⟨field, hl⟩ => ht ⟨var, field, hl⟩
    rw [if_pos (List.ne_nil_of_mem (mem_copyConstraints.2 hc))]
    obtain ⟨hv, hg, hF⟩ := propagateCopy_step ord h hc ht hpts
    exact ⟨hv, hg, fun _ _ => hF, fun field hl => absurd ⟨var, field, hl⟩ ht⟩

/-- **One name** is propagated along all constraints that read it. -/
theorem propagateVariable_transfers (ord : HashOrder) (var : String) (h : Valid cs params s) :
    Step cs params (fun s' => ∀ c ∈ cs, var ∈ reads c → Transfers cs s s' c) s
      (propagateVariable ord cs s var) := by
  have hpts := h.sound var
  unfold propagateVariable
  obtain ⟨hv₁, hg₁, hF₁⟩ := Step.foldl (fun _ => stable_targetDone) (reverseCopy cs var)
    (fun s hs target ht => propagateTarget_step ord hs ht hpts) s h
  dsimp only
  generalize (reverseCopy cs var).foldl _ s = s₁ at hv₁ hg₁ hF₁ ⊢
  obtain ⟨hv₂, hg₂, hF₂⟩ := Step.foldl_from
    (F := fun (store : String × String) s' => ∀ l ∈ s.getPointsTo var,
      ∀ l' ∈ s.getPointsTo store.2, l' ∈ s'.getPointsTo (createFieldLocation l store.1))
    (fun store _ _ hg h l hl l' hl' => hg.pointsTo _ _ (h l hl l' hl')) s (fieldStores cs var)
    (fun s' hs hgrown store hstore => by
      obtain ⟨hv, hg, hF⟩ := propagateFieldStore_held ord hs (mem_fieldStores.1 hstore) hpts
      exact ⟨hv, hg, fun l hl l' hl' => hF l hl l' (hgrown.pointsTo _ _ hl')⟩) s₁ hv₁ hg₁
  generalize (fieldStores cs var).foldl _ s₁ = s₂ at hv₂ hg₂ hF₂ ⊢
  obtain ⟨hv₃, hg₃, hF₃⟩ := Step.foldl_from
    (F := fun (store : String × String) s' => ∀ l ∈ s.getPointsTo store.1,
      ∀ l' ∈ s.getPointsTo var, l' ∈ s'.getPointsTo (createFieldLocation l store.2))
    (fun store _ _ hg h l hl l' hl' => hg.pointsTo _ _ (h l hl l' hl')) s
    (reverseFieldStores cs var) (fun s' hs hgrown store hstore => by
      obtain ⟨hv, hg, hF⟩ := propagateFieldStore_held ord hs
        (mem_reverseFieldStores.1 hstore) (hs.sound store.1)
      exact ⟨hv, hg, fun l hl l' hl' =>
        hF l (hgrown.pointsTo _ _ hl) l' (hgrown.pointsTo _ _ hl')⟩) s₂ hv₂ (hg₁.trans hg₂)
  refine ⟨hv₃, (hg₁.trans hg₂).trans hg₃, fun c hc hreads => ?_⟩
  cases c with
  | copy target source =>
    obtain rfl := List.mem_singleton.1 hreads
    intro ht l hl
    exact hg₃.pointsTo _ _ (hg₂.pointsTo _ _
      ((hF₁ target (mem_reverseCopy.2 (.inl hc))).1 hc ht l hl))
  | alloc target site => cases hreads
  | fieldLoad target base field =>
    obtain rfl := List.mem_singleton.1 hreads
    intro l hl
    exact hg₃.pointsTo _ _ (hg₂.pointsTo _ _
      ((hF₁ target (mem_reverseCopy.2 (.inr ⟨field, hc⟩))).2 field hc l hl))
  | fieldStore base field source =>
    rcases List.mem_cons.1 hreads with rfl | hsource
    · intro l hl l' hl'
      exact hg₃.pointsTo _ _ (hF₂ (field, source) (mem_fieldStores.2 hc) l hl l' hl')
    · obtain rfl := List.mem_singleton.1 hsource
      exact hF₃ (base, field) (mem_reverseFieldStores.2 hc)

/-! ## All iterations -/

theorem Holds.congr {P Q : String → Prop} {c : Constraint} (hPQ : ∀ v, P v → Q v)
    (hget : s'.getPointsTo = s.getPointsTo) (h : Holds cs P s c) : Holds cs Q s' c := by
  cases c with
  | copy target source =>
    intro ht
    rw [hget]
    exact (h ht).imp_left (hPQ source)
  | alloc target site =>
    rw [Holds, hget]
    exact h
  | fieldLoad target base field =>
    rw [Holds, hget]
    exact h.imp_left (hPQ base)
  | fieldStore base field source =>
    rw [Holds, hget]
    exact h.imp (hPQ base) fun h => h.imp_left (hPQ source)

/-- **One step of an iteration**: the constraints hold up to the names still to come. -/
theorem propagateVariable_holds (ord : HashOrder) (rest : String → Prop) (h : Valid cs params s)
    (hs : ∀ c ∈ cs, Holds cs (fun v => v ∈ s.worklist ∨ v = var ∨ rest v) s c) :
    Valid cs params (propagateVariable ord cs s var) ∧
      ∀ c ∈ cs, Holds cs (fun v => v ∈ (propagateVariable ord cs s var).worklist ∨ rest v)
        (propagateVariable ord cs s var) c := by
  obtain ⟨hv, hg, hF⟩ := propagateVariable_transfers ord var h
  refine ⟨hv, fun c hc => ?_⟩
  rcases (hs c hc).transfers with ⟨v, hreads, hw | rfl | hrest⟩ | htransfers
  · exact .of_reads hreads (.inl (hg.worklist v hw))
  · exact ((hF c hc hreads).holds hg).congr (fun _ => .inl) rfl
  · exact .of_reads hreads (.inr hrest)
  · exact ((htransfers.mono (fun _ _ => id) hg.pointsTo).holds hg).congr (fun _ => .inl) rfl

/-- What is known before and after each iteration. -/
structure SolverInv (cs : List Constraint) (params : List String) (s : AliasSolver) : Prop where
  valid : Valid cs params s
  holds : ∀ c ∈ cs, Holds cs (· ∈ s.worklist) s c
  params : ∀ p ∈ params, (AbstractLocation.param p).format ∈ s.getPointsTo p

/-- **One iteration.** -/
theorem SolverInv.iterate (h : SolverInv cs params s) : SolverInv cs params (iterate ord cs s) := by
  have key : ∀ (xs : List String) (s : AliasSolver), Valid cs params s →
      (∀ c ∈ cs, Holds cs (fun v => v ∈ s.worklist ∨ v ∈ xs) s c) →
      (∀ p ∈ params, (AbstractLocation.param p).format ∈ s.getPointsTo p) →
      SolverInv cs params (xs.foldl (propagateVariable ord cs) s) := by
    intro xs
    induction xs with
    | nil =>
      intro s hv hh hp
      exact ⟨hv, fun c hc => (hh c hc).congr (fun v hv => by simpa using hv) rfl, hp⟩
    | cons x xs ih =>
      intro s hv hh hp
      have hg := (propagateVariable_transfers ord x hv).grows
      obtain ⟨hv', hh'⟩ := propagateVariable_holds ord (fun v => v ∈ xs) hv
        fun c hc => (hh c hc).congr (fun v hv => by simpa using hv) rfl
      exact ih _ hv' hh' fun p hmem => hg.pointsTo p _ (hp p hmem)
  refine key s.worklist _ ⟨by simp, h.valid.sound⟩ (fun c hc => ?_) h.params
  exact (h.holds c hc).congr (fun v hv => .inr hv) rfl

theorem solveLoop_inv : ∀ (left : Nat) (s : AliasSolver), SolverInv cs params s →
    solveLoop ord cs left s = .ok s' → SolverInv cs params s' ∧ s'.worklist = [] := by
  intro left
  induction left with
  | zero =>
    intro s h hok
    unfold solveLoop at hok
    split_ifs at hok with hw
    cases hok
    exact ⟨h, hw⟩
  | succ left ih =>
    intro s h hok
    unfold solveLoop at hok
    split_ifs at hok with hw
    · cases hok
      exact ⟨h, hw⟩
    · exact ih _ h.iterate hok

/-! ## The initial state -/

theorem seed_step (h : Valid cs params s) (hl : PointsTo cs params target l) :
    Step cs params (fun s' => l ∈ s'.getPointsTo target) s (s.seed target l) := by
  have hmem : ∀ l', l' ∈ (s.getPointsTo target).insert l ↔ l' = l ∨ l' ∈ s.getPointsTo target :=
    fun l' => List.mem_insert_iff
  obtain ⟨hv, hg, hF⟩ := set_step True h (fun l' hl' => (hmem l').2 (.inr hl'))
    (fun l' hl' => ((hmem l').1 hl').elim (fun he => he ▸ hl) (h.sound target l'))
    (fun hp => absurd trivial hp) rfl
  rw [if_pos trivial] at hv hg hF
  exact ⟨hv, hg, hF l ((hmem l).2 (.inl rfl))⟩

theorem initializeAlloc_step (s : AliasSolver) (hs : Valid cs params s) (c : Constraint) :
    c ∈ cs → Step cs params (fun s => ∀ target site, c = .alloc target site →
      site.format ∈ s.getPointsTo target) s
      (match c with
        | .alloc target site => s.seed target site.format
        | _ => s) := by
  intro hc
  cases c with
  | alloc target site =>
    obtain ⟨hv, hg, hF⟩ := seed_step hs (.alloc hc)
    refine ⟨hv, hg, fun target' site' heq => ?_⟩
    cases heq
    exact hF
  | copy target source | fieldLoad target base field => exact .refl hs fun _ _ heq => by cases heq
  | fieldStore base field source => exact .refl hs fun _ _ heq => by cases heq

theorem initializeAllocs_step (h : Valid cs params s) :
    Step cs params (fun s => ∀ target site, .alloc target site ∈ cs →
      site.format ∈ s.getPointsTo target) s (initializeAllocs cs s) := by
  obtain ⟨hv, hg, hF⟩ := Step.foldl (F := fun c s => ∀ target site,
      c = Constraint.alloc target site → site.format ∈ s.getPointsTo target)
    (fun c s s' hg h target site heq => hg.pointsTo _ _ (h target site heq)) cs
    initializeAlloc_step s h
  exact ⟨hv, hg, fun target site hc => hF _ hc target site rfl⟩

theorem initializeParameters_step (ord : HashOrder) (h : Valid cs params s) :
    Step cs params (fun s => ∀ p ∈ params, (AbstractLocation.param p).format ∈ s.getPointsTo p) s
      (initializeParameters ord params s) := by
  obtain ⟨hv, hg, hF⟩ := Step.foldl
    (F := fun p s => (AbstractLocation.param p).format ∈ s.getPointsTo p)
    (fun p _ _ hg h => hg.pointsTo p _ h) (ord.order params)
    (fun s hs p hp => seed_step hs (.param (ord.mem_order.1 hp))) s h
  exact ⟨hv, hg, fun p hp => hF p (ord.mem_order.2 hp)⟩

/-- A new solver has the names of all sets that are not empty on its worklist. -/
theorem new_inv (ord : HashOrder) (extractor : ConstraintExtractor) :
    SolverInv extractor.constraints extractor.parameters (new ord extractor) := by
  have hempty : ∀ v, getPointsTo ⟨∅, [], [], 0⟩ v = [] := fun v => by
    rw [getPointsTo, AList.lookup_empty, Option.getD_none]
  have hvalid : Valid extractor.constraints extractor.parameters ⟨∅, [], [], 0⟩ :=
    ⟨fun v hv => hv, fun v l hl => by rw [hempty] at hl; cases hl⟩
  obtain ⟨hv₁, hg₁, hallocs⟩ := initializeAllocs_step hvalid
  obtain ⟨hv₂, hg₂, hparams⟩ := initializeParameters_step ord hv₁
  have hseeded : ∀ v, v ∈ (new ord extractor).worklist ∨
      ∀ l ∈ (new ord extractor).getPointsTo v, False := by
    intro v
    rcases (hg₁.trans hg₂).changed v with hw | heq
    · exact .inl hw
    · refine .inr fun l hl => ?_
      rw [hempty] at heq
      rw [new, heq] at hl
      cases hl
  refine ⟨hv₂, fun c hc => ?_, hparams⟩
  cases c with
  | copy target source => exact fun _ => (hseeded source).imp_right fun h l hl => (h l hl).elim
  | alloc target site => exact hg₂.pointsTo _ _ (hallocs target site hc)
  | fieldLoad target base field =>
    exact (hseeded base).imp_right fun h l hl => (h l hl).elim
  | fieldStore base field source =>
    exact (hseeded base).imp_right fun h => .inr fun l hl => (h l hl).elim

theorem start_inv (ord : HashOrder) (extractor : ConstraintExtractor) :
    SolverInv extractor.constraints extractor.parameters
      { new ord extractor with iterations := 0 } := by
  have hnew := new_inv ord extractor
  exact ⟨⟨hnew.valid.worklist, hnew.valid.sound⟩,
    fun c hc => (hnew.holds c hc).congr (fun _ h => h) rfl, hnew.params⟩

/-- **What `solve` finds**, in whatever order: the sets that `PointsTo` derives. -/
theorem solve_spec {extractor : ConstraintExtractor}
    (hok : solve ord extractor.constraints (new ord extractor) = .ok s') :
    ∀ v l, l ∈ s'.getPointsTo v ↔ PointsTo extractor.constraints extractor.parameters v l := by
  obtain ⟨hinv, hw⟩ := solveLoop_inv _ _ (start_inv ord extractor) hok
  have hdone : ∀ v, v ∉ s'.worklist := fun v hv => by
    rw [hw] at hv
    cases hv
  refine fun v l => ⟨hinv.valid.sound v l, fun h => ?_⟩
  induction h with
  | alloc h => exact hinv.holds _ h
  | param h => exact hinv.params _ h
  | copy h ht _ ih => exact (hinv.holds _ h ht).resolve_left (hdone _) _ ih
  | load h _ ih => exact (hinv.holds _ h).resolve_left (hdone _) _ ih
  | store h _ _ ih ih' =>
    exact ((hinv.holds _ h).resolve_left (hdone _)).resolve_left (hdone _) _ ih _ ih'

end AliasSolver

/-! ## Solutions of the constraints -/

/-- The inclusion of a constraint between points-to sets, as its documentation states it. -/
def Constraint.Included (pts : String → List String) : Constraint → Prop
  | .copy target source => ∀ l ∈ pts source, l ∈ pts target
  | .alloc target site => site.format ∈ pts target
  | .fieldLoad target base field => ∀ l ∈ pts base, createFieldLocation l field ∈ pts target
  | .fieldStore base field source => ∀ l ∈ pts base, ∀ l' ∈ pts source,
      l' ∈ pts (createFieldLocation l field)

/-- **`solve` finds a solution** exactly if a variable that is loaded gets what is copied to it in
another way. -/
theorem solve_solution_iff {extractor : ConstraintExtractor} {s : AliasSolver}
    (hok : AliasSolver.solve ord extractor.constraints (.new ord extractor) = .ok s) :
    (∀ c ∈ extractor.constraints, c.Included s.getPointsTo) ↔
      ∀ target source, .copy target source ∈ extractor.constraints →
        Loaded extractor.constraints target →
        ∀ l, PointsTo extractor.constraints extractor.parameters source l →
          PointsTo extractor.constraints extractor.parameters target l := by
  have hspec := AliasSolver.solve_spec hok
  constructor
  · intro h target source hc _ l hl
    exact (hspec target l).1 (h _ hc l ((hspec source l).2 hl))
  · intro h c hc
    cases c with
    | copy target source =>
      intro l hl
      rw [hspec] at hl ⊢
      by_cases ht : Loaded extractor.constraints target
      · exact h target source hc ht l hl
      · exact .copy hc ht hl
    | alloc target site => exact (hspec _ _).2 (.alloc hc)
    | fieldLoad target base field => exact fun l hl => (hspec _ _).2 (.load hc ((hspec _ _).1 hl))
    | fieldStore base field source =>
      exact fun l hl l' hl' => (hspec _ _).2 (.store hc ((hspec _ _).1 hl) ((hspec _ _).1 hl'))

/-- `x = a` and `x = b.f`. -/
def loadedCopy : ConstraintExtractor :=
  { ConstraintExtractor.new with
    constraints := [.alloc "a" (.alloc 1), .alloc "b" (.alloc 2), .copy "x" "a",
      .fieldLoad "x" "b" "f"] }

theorem solve_solution_iff_loadedCopy : ∃ s,
    AliasSolver.solve .insertion loadedCopy.constraints (.new .insertion loadedCopy) = .ok s ∧
      ((∀ c ∈ loadedCopy.constraints, c.Included s.getPointsTo) ↔
        ∀ target source, .copy target source ∈ loadedCopy.constraints →
          Loaded loadedCopy.constraints target →
          ∀ l, PointsTo loadedCopy.constraints loadedCopy.parameters source l →
            PointsTo loadedCopy.constraints loadedCopy.parameters target l) := by
  obtain ⟨s, hok⟩ := exists_ok_of_isSome
    (show (AliasSolver.solve .insertion loadedCopy.constraints
      (.new .insertion loadedCopy)).toOption.isSome by decide +kernel)
  exact ⟨s, hok, solve_solution_iff hok⟩

/-- The copy into the loaded variable is dropped. -/
theorem solve_loadedCopy_not_solution : ∃ s,
    AliasSolver.solve .insertion loadedCopy.constraints (.new .insertion loadedCopy) = .ok s ∧
      ¬ ∀ c ∈ loadedCopy.constraints, c.Included s.getPointsTo := by
  have hsets : (AliasSolver.solve .insertion loadedCopy.constraints
      (.new .insertion loadedCopy)).toOption.map (fun s => (s.getPointsTo "a", s.getPointsTo "x")) =
      some (["alloc_1"], ["alloc_2.f"]) := by
    decide +kernel
  obtain ⟨s, hok, hs⟩ := exists_ok_of_map hsets
  refine ⟨s, hok, fun h => ?_⟩
  have hcopy : ∀ l ∈ s.getPointsTo "a", l ∈ s.getPointsTo "x" := h (.copy "x" "a") (by decide)
  rw [(Prod.mk.inj hs).1, (Prod.mk.inj hs).2] at hcopy
  exact absurd (hcopy "alloc_1" (by decide)) (by decide)

end TldrCode.Alias
