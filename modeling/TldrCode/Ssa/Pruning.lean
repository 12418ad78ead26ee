import TldrCode.Ssa.Preservation

/-!
# Pruned constructions

The semi-pruned and the pruned construction leave out phi functions of minimal SSA. As long as a
variable is not live where they do, every recorded use finds the same definitions
(`SsaShape.sameDefinitions`): the names of two constructions that are current at the same place
are `Related`, and so are, edge by edge, the sources of related phi functions.
-/

namespace TldrCode.Ssa

open TldrCode.Graph
open scoped List

/-! ## Definitions found through phi functions -/

/-- The definition `site`, a block and a number in it, is found from a name by following phi
operands. -/
inductive ReachesDef (ssa : SsaFunction) (site : Nat × Nat) : Nat → Prop
  | inst {block : SsaBlock} {inst : SsaInstruction} {id : Nat} (hb : block ∈ ssa.blocks)
      (hid : block.id = site.1) (hi : block.instructions[site.2]? = some inst)
      (ht : inst.target = some id) : ReachesDef ssa site id
  | phi {block : SsaBlock} {phi : PhiFunction} {source : PhiSource} (hb : block ∈ ssa.blocks)
      (hp : phi ∈ block.phiFunctions) (hs : source ∈ phi.sources)
      (h : ReachesDef ssa site source.name) : ReachesDef ssa site phi.target

theorem ReachesDef.mem_targets {ssa : SsaFunction} {site : Nat × Nat} {id : Nat}
    (h : ReachesDef ssa site id) : id ∈ ssa.targets := by
  cases h with
  | @inst block inst id hb hid hi ht =>
    refine List.mem_flatMap.2 ⟨block, hb, List.mem_append_right _ ?_⟩
    exact List.mem_filterMap.2 ⟨inst, List.mem_of_getElem? hi, ht⟩
  | @phi block phi source hb hp =>
    exact List.mem_flatMap.2 ⟨block, hb, List.mem_append_left _ (List.mem_map_of_mem hp)⟩

theorem mem_refs_of_blockDefs {r : VarRef} {cfg : CfgInfo} {dfg : DfgInfo} {b : Nat}
    (h : r ∈ blockDefs cfg dfg b) : r ∈ dfg.refs := by
  simp only [blockDefs, refsSorted, refsInBlock, List.mem_filter, List.mem_insertionSort] at h
  exact h.1.1

/-- The name that the use of `v` in the instruction number `k` of the block `b` resolves to. -/
def SsaFunction.useName (ssa : SsaFunction) (b k : Nat) (v : String) : Nat :=
  ((lookupBlock ssa.blocks b).bind fun block =>
    block.instructions[k]?.map fun inst => inst.operand ssa v).getD 0

/-- Every recorded use finds the same definitions in both functions. -/
def SameDefinitions (cfg : CfgInfo) (dfg : DfgInfo) (ssa₁ ssa₂ : SsaFunction) : Prop :=
  ∀ b k v, RecordsUse cfg dfg b k v → ∀ site,
    ReachesDef ssa₁ site (ssa₁.useName b k v) ↔ ReachesDef ssa₂ site (ssa₂.useName b k v)

variable {cfg : CfgInfo} {dfg : DfgInfo} {ctx : SsaRenamingContext} {v : String}
  {placements₁ placements₂ : Nat → List String} {ssa ssa₁ ssa₂ : SsaFunction} {N₁ N₂ : Naming}
  {b c d k p x : Nat} {l l₁ l₂ : List Nat} {site : Nat × Nat}

theorem PhiAt.reachable (h : PhiAt cfg dfg v b) : cfg.Reachable b := by
  obtain ⟨d, hd, -, hr⟩ := h.exists_def
  exact hd.trans hr

/-- A variable that is live after a path that leaves it alone is live before it. -/
theorem LiveIn.of_walk (h : LiveIn cfg dfg v b) (w : Walk cfg.Edge x b (l ++ [b]))
    (hl : ∀ y ∈ l, ¬ DefinesIn cfg dfg v y) : LiveIn cfg dfg v x := by
  obtain ⟨c, k, hu, l', w', hl', hk⟩ := h
  obtain ⟨t, ht⟩ := w'.eq_cons
  have hw : Walk cfg.Edge x c ((l ++ l') ++ [c]) := by
    rw [ht] at w'
    rw [List.append_assoc, ht]
    exact w.append w'
  refine ⟨c, k, hu, l ++ l', hw, fun y hy => ?_, hk⟩
  exact (List.mem_append.1 hy).elim (hl y) (hl' y)

/-- On a path below `d` from a block `x` that names `v` to one that `x` does not dominate, some
block has a phi function for `v`. -/
theorem exists_phiAt (hcfg : cfg.WellFormed) (hd : cfg.Reachable d)
    (w : Walk cfg.Edge d b (d :: (l₁ ++ x :: l₂))) (hn : (d :: (l₁ ++ x :: l₂)).Nodup)
    (hbelow : ∀ z ∈ l₁ ++ x :: l₂, cfg.StrictlyDominates d z)
    (hx : DefinesIn cfg dfg v x ∨ PhiAt cfg dfg v x) (hxb : ∃ z ∈ l₂, ¬ cfg.Dominates x z) :
    ∃ y ∈ l₂, PhiAt cfg dfg v y := by
  obtain ⟨z, hz, hxz⟩ := hxb
  -- the first block that `x` does not dominate
  obtain ⟨m₁, y, m₂, rfl, hxy, hm₁⟩ :=
    exists_first_of_mem (p := fun z => ¬ cfg.Dominates x z) hz hxz
  refine ⟨y, by simp, ?_⟩
  have hw : Walk cfg.Edge d y ((d :: (l₁ ++ x :: m₁)) ++ [y]) := by
    have w' : Walk cfg.Edge d b ((d :: (l₁ ++ x :: m₁)) ++ y :: m₂) := by simpa using w
    exact (Walk.split_iff.1 w').1
  obtain ⟨q, hq, he⟩ := hw.exists_last_step (List.cons_ne_nil _ _)
  have hrq : cfg.Reachable q := hd.trans ⟨_, hq⟩
  have hxq : cfg.Dominates x q := by
    have hmem : q ∈ x :: m₁ := by
      have hlast : (x :: m₁).getLast? = some q := by
        have := hq.last
        rwa [← List.cons_append, List.getLast?_append_of_ne_nil _ (List.cons_ne_nil x m₁)] at this
      exact List.mem_of_getLast? hlast
    rcases List.mem_cons.1 hmem with rfl | hmem
    · exact .refl q
    · exact not_not.1 (hm₁ q hmem)
  have hnot : ¬ cfg.StrictlyDominates x y := fun h => hxy h.dom
  have hyq : ¬ cfg.Dominates y q := by
    intro hyq
    rcases hxq.chain hyq hrq with h | h
    · exact hxy h
    · -- but `x` is reached without `y`: to `d` first, and on along the path
      obtain ⟨t, wt, ht⟩ := hd.exists_first
      have hxw : Walk cfg.Edge d x ((d :: l₁) ++ [x]) := by
        have w' : Walk cfg.Edge d b ((d :: l₁) ++ x :: (m₁ ++ y :: m₂)) := w
        exact (Walk.split_iff.1 w').1
      have hrx : Walk cfg.Edge cfg.entryBlock x (t ++ d :: (l₁ ++ [x])) := wt.append hxw
      have hmem := h _ hrx
      have hdy : cfg.StrictlyDominates d y := hbelow y (by simp)
      simp only [List.mem_append, List.mem_cons, List.not_mem_nil, or_false] at hmem
      simp only [List.nodup_cons, List.nodup_append, List.mem_append, List.mem_cons] at hn
      rcases hmem with hmem | rfl | hmem | rfl
      · exact ht y hmem hdy.dom
      · exact hdy.2 rfl
      · exact hn.2.2.2 y hmem y (by simp) rfl
      · exact hn.2.2.1.1 (by simp)
  have hne : x ≠ y := by
    rintro rfl
    exact hxy (.refl x)
  have hjoin : JoinFrontier cfg x y :=
    ⟨hcfg.reachable_mem (hrq.tail he), two_le_predecessors hrq he hxq hnot hyq, hne, q, hrq, he,
      hxq, hnot⟩
  exact hx.elim (fun hx => .definition hx hjoin) fun hx => .phi hx hjoin

/-- **Liveness goes up the dominator tree**: where a live variable has no phi function it is live
at the end of the immediate dominator. -/
theorem LiveIn.idom (hcfg : cfg.WellFormed) (hlive : LiveIn cfg dfg v b) (hb : cfg.Reachable b)
    (hi : IDom cfg.Edge cfg.entryBlock d b) (hphi : ¬ PhiAt cfg dfg v b) :
    ∃ y, cfg.Edge d y ∧ LiveIn cfg dfg v y := by
  have hd := hi.reach hb
  obtain ⟨l, w, hl⟩ := hi.1.1.exists_walk hb
  obtain ⟨l', w', hn, hsub⟩ := w.exists_nodup
  obtain ⟨t, rfl⟩ := w'.eq_cons
  have ht : ∀ z ∈ t, cfg.StrictlyDominates d z := by
    intro z hz
    have hzd : z ≠ d := fun he => (List.nodup_cons.1 hn).1 (he ▸ hz)
    exact hl z ((List.mem_cons.1 (hsub z (List.mem_cons_of_mem _ hz))).resolve_left hzd)
  obtain ⟨t, rfl⟩ : ∃ t', t = t' ++ [b] := by
    rcases List.eq_nil_or_concat' t with rfl | ⟨t', y, rfl⟩
    · exact absurd (by simpa using w'.last) hi.1.2
    · have hlast := w'.last
      rw [← List.cons_append, List.getLast?_concat, Option.some_inj] at hlast
      exact ⟨t', by rw [hlast]⟩
  -- no block between `d` and `b` names the variable: else the last one that does would lead to a
  -- phi function after it
  have hclear : ∀ x ∈ t, ¬ (DefinesIn cfg dfg v x ∨ PhiAt cfg dfg v x) := by
    by_contra hcon
    push Not at hcon
    obtain ⟨x, hx, hv⟩ := hcon
    obtain ⟨t₁, x, t₂, rfl, hv, hlast⟩ := exists_last_of_mem
      (p := fun x => DefinesIn cfg dfg v x ∨ PhiAt cfg dfg v x) hx hv
    rw [List.append_assoc] at w' hn ht
    have hxb : ¬ cfg.Dominates x b := by
      intro hxb
      have hdx := ht x (by simp)
      have hne : x ≠ b := by
        rintro rfl
        simp [List.nodup_append] at hn
      exact hdx.2 (hdx.1.antisymm (hi.2 x ⟨hxb, hne⟩) hd)
    obtain ⟨y, hy, hphi'⟩ := exists_phiAt hcfg hd w' hn ht hv ⟨b, by simp, hxb⟩
    rcases List.mem_append.1 hy with hy | hy
    · exact hlast y hy (.inr hphi')
    · exact hphi (List.mem_singleton.1 hy ▸ hphi')
  obtain ⟨y, s, hs⟩ := List.exists_cons_of_ne_nil (List.append_ne_nil_of_right_ne_nil t
    (List.cons_ne_nil b []))
  have hw : Walk cfg.Edge y b (t ++ [b]) := by
    have hdy : Walk cfg.Edge d b ([d] ++ y :: s) := hs ▸ w'
    rw [hs]
    exact (Walk.split_iff.1 hdy).2
  refine ⟨y, ?_, hlive.of_walk hw fun z hz hdef => hclear z hz (.inl hdef)⟩
  rw [hs] at w'
  exact (List.isChain_cons_cons.1 w'.chain).1

/-! ## Related names -/

/-- Where a variable is live, the placement has the phi functions of minimal SSA for it, and
nowhere others. -/
def PlacedWhereLive (cfg : CfgInfo) (dfg : DfgInfo) (placements : Nat → List String) : Prop :=
  ∀ v b, (v ∈ placements b → PhiAt cfg dfg v b) ∧
    (LiveIn cfg dfg v b → PhiAt cfg dfg v b → v ∈ placements b)

/-- Names of two constructions for the same definition, or for phi functions of the same live
variable in the same block. -/
inductive Related (ctx : SsaRenamingContext) (placements₁ placements₂ : Nat → List String)
    (N₁ N₂ : Naming) : Nat → Nat → Prop
  | definition {b k : Nat} (hb : ctx.Visited b) (hk : k < (blockDefs ctx.cfg ctx.dfg b).length) :
      Related ctx placements₁ placements₂ N₁ N₂ (N₁.start b + (placements₁ b).length + k)
        (N₂.start b + (placements₂ b).length + k)
  | phi {b i j : Nat} {v : String} (hb : ctx.Visited b) (hv : LiveIn ctx.cfg ctx.dfg v b)
      (hi : (placements₁ b)[i]? = some v) (hj : (placements₂ b)[j]? = some v) :
      Related ctx placements₁ placements₂ N₁ N₂ (N₁.start b + i) (N₂.start b + j)

theorem related_after (hb : ctx.Visited b)
    (hv : v ∈ ((blockDefs ctx.cfg ctx.dfg b).take k).map (·.name)) :
    Option.Rel (Related ctx placements₁ placements₂ N₁ N₂) (N₁.after ctx placements₁ b k v)
      (N₂.after ctx placements₂ b k v) := by
  obtain ⟨i, hi, hn⟩ := namesFrom_of_mem hv
  rw [← N₁.after_append, ← N₂.after_append, hn, hn]
  refine .some (.definition hb ?_)
  have := (List.getElem?_eq_some_iff.1 hi).1
  rw [List.length_map, List.length_take] at this
  omega

theorem related_out_of_definesIn (hb : ctx.Visited b) (hd : DefinesIn ctx.cfg ctx.dfg v b) :
    Option.Rel (Related ctx placements₁ placements₂ N₁ N₂) (N₁.out ctx placements₁ b v)
      (N₂.out ctx placements₂ b v) := by
  rw [← N₁.after_length, ← N₂.after_length]
  refine related_after hb ?_
  rw [List.take_length]
  exact mem_blockDefs.2 hd

/-- A block that does not define `v` ends with the name it has after the phi functions. -/
theorem Naming.out_eq_after_zero {N : Naming} {placements : Nat → List String}
    (hd : ¬ DefinesIn ctx.cfg ctx.dfg v b) :
    N.out ctx placements b v = N.after ctx placements b 0 v := by
  rw [← N.after_length]
  refine Naming.after_of_notMem ?_
  rw [List.take_length]
  exact fun hv => hd (mem_blockDefs.1 hv)

section Two

variable (h₁ : SsaShape ctx placements₁ ssa₁ N₁) (h₂ : SsaShape ctx placements₂ ssa₂ N₂)
  (hcfg : ctx.cfg.WellFormed) (hp₁ : PlacedWhereLive ctx.cfg ctx.dfg placements₁)
  (hp₂ : PlacedWhereLive ctx.cfg ctx.dfg placements₂)
include h₁ h₂ hcfg hp₁ hp₂

/-- The names of a live variable are related where a block starts, if they are at the end of its
immediate dominator. -/
theorem related_start (hb : ctx.Visited b) (hlive : LiveIn ctx.cfg ctx.dfg v b)
    (hidom : ∀ d y, ctx.Visited d → IDom ctx.cfg.Edge ctx.cfg.entryBlock d b → ctx.cfg.Edge d y →
      LiveIn ctx.cfg ctx.dfg v y → Option.Rel (Related ctx placements₁ placements₂ N₁ N₂)
        (N₁.out ctx placements₁ d v) (N₂.out ctx placements₂ d v)) :
    Option.Rel (Related ctx placements₁ placements₂ N₁ N₂) (N₁.after ctx placements₁ b 0 v)
      (N₂.after ctx placements₂ b 0 v) := by
  by_cases hphi : PhiAt ctx.cfg ctx.dfg v b
  · obtain ⟨i, hi, ha₁⟩ := N₁.after_zero_of_mem ctx ((hp₁ v b).2 hlive hphi)
    obtain ⟨j, hj, ha₂⟩ := N₂.after_zero_of_mem ctx ((hp₂ v b).2 hlive hphi)
    rw [ha₁, ha₂]
    exact .some (.phi hb hlive hi hj)
  · rw [Naming.after_zero_of_notMem (fun hv => hphi ((hp₁ v b).1 hv)),
      Naming.after_zero_of_notMem (fun hv => hphi ((hp₂ v b).1 hv))]
    cases hb with
    | self hb =>
      rw [h₁.cur_entry (.self hb), h₂.cur_entry (.self hb)]
      exact .none
    | @child c d hd hi hr hc =>
      obtain ⟨y, he, hy⟩ := hlive.idom hcfg hr hi hphi
      rw [h₁.cur_child b d (.child hd hi hr hc) hd hi, h₂.cur_child b d (.child hd hi hr hc) hd hi]
      exact hidom d y hd hi he hy

/-- The names of a variable that is live in a successor are related where a block ends. -/
theorem related_out (hp : ctx.Visited p) : ∀ {y : Nat}, ctx.cfg.Edge p y →
    LiveIn ctx.cfg ctx.dfg v y → Option.Rel (Related ctx placements₁ placements₂ N₁ N₂)
      (N₁.out ctx placements₁ p v) (N₂.out ctx placements₂ p v) := by
  induction hp with
  | self hb =>
    intro y he hlive
    by_cases hd : DefinesIn ctx.cfg ctx.dfg v ctx.cfg.entryBlock
    · exact related_out_of_definesIn (.self hb) hd
    · rw [Naming.out_eq_after_zero hd, Naming.out_eq_after_zero hd]
      refine related_start h₁ h₂ hcfg hp₁ hp₂ (.self hb) (hlive.of_edge he hd) ?_
      exact fun d y _ hi => absurd hi.sdom not_sdom_root
  | @child c d hdv hi hr hc ih =>
    intro y he hlive
    by_cases hd : DefinesIn ctx.cfg ctx.dfg v c
    · exact related_out_of_definesIn (.child hdv hi hr hc) hd
    · rw [Naming.out_eq_after_zero hd, Naming.out_eq_after_zero hd]
      refine related_start h₁ h₂ hcfg hp₁ hp₂ (.child hdv hi hr hc) (hlive.of_edge he hd) ?_
      intro d' y hd' hi' he' hy
      obtain rfl := hi'.unique hi hr
      exact ih he' hy

theorem related_use (hb : ctx.Visited b) (hu : RecordsUse ctx.cfg ctx.dfg b k v) :
    Option.Rel (Related ctx placements₁ placements₂ N₁ N₂) (N₁.after ctx placements₁ b k v)
      (N₂.after ctx placements₂ b k v) := by
  by_cases hv : v ∈ ((blockDefs ctx.cfg ctx.dfg b).take k).map (·.name)
  · exact related_after hb hv
  · rw [Naming.after_of_notMem hv, Naming.after_of_notMem hv]
    refine related_start h₁ h₂ hcfg hp₁ hp₂ hb (.of_use hu hv) fun d y hd _ he hy => ?_
    exact related_out h₁ h₂ hcfg hp₁ hp₂ hd he hy

end Two

/-! ## Related names find the same definitions -/

section One

variable {N : Naming} {placements : Nat → List String} (h : SsaShape ctx placements ssa N)
  (hcfg : ctx.cfg.WellFormed) (htree : IsDominatorTree ctx.cfg ctx.domTree)
  (hp : PlacedWhereLive ctx.cfg ctx.dfg placements) {block : SsaBlock}
include h hcfg htree hp

theorem renamed_or_empty (hb : block ∈ ssa.blocks) :
    ctx.Visited block.id ∧ IsRenamed ctx placements N block ∨
      ¬ ctx.Visited block.id ∧ block.instructions = [] ∧ block.phiFunctions = [] := by
  by_cases hv : ctx.Visited block.id
  · left
    obtain ⟨block', hl, hid, hb', hr⟩ := h.lookup hv
    have hnodup : (ssa.blocks.map (·.id)).Nodup := h.ids ▸ hcfg.nodup
    obtain rfl : block = block' := List.inj_on_of_nodup_map hnodup hb hb' hid.symm
    exact ⟨hv, hr⟩
  · right
    obtain ⟨i, hi⟩ := List.mem_iff_getElem?.1 hb
    obtain ⟨hv', -⟩ | ⟨hinst, hvars, -⟩ := h.others i block hi
    · exact absurd hv' hv
    · refine ⟨hv, hinst, List.map_eq_nil_iff.1 (hvars.trans ?_)⟩
      refine List.eq_nil_iff_forall_not_mem.2 fun v hmem => hv ?_
      exact visited_of_reachable hcfg htree ((hp v block.id).1 hmem).reachable

omit hcfg htree hp in
theorem var_of_target (hb : block ∈ ssa.blocks) (hren : IsRenamed ctx placements N block)
    {phi : PhiFunction} (hphi : phi ∈ block.phiFunctions) {i : Nat}
    (hi : (placements block.id)[i]? = some v) (ht : phi.target = N.start block.id + i) :
    phi.var = v ∧ phi.sources = N.sources (ctx.cfg.predecessors block.id) v := by
  obtain ⟨phi', hphi', ht', hv⟩ := hren.exists_phi hi
  have hnodup : (block.phiFunctions.map (·.target)).Nodup := by
    rw [hren.phi_targets]
    exact List.nodup_range'
  obtain rfl := List.inj_on_of_nodup_map hnodup hphi hphi' (ht.trans ht'.symm)
  exact ⟨hv, hv ▸ h.sources block hb phi hphi⟩

theorem not_reachesDef_zero : ¬ ReachesDef ssa site 0 := by
  have hpos : ∀ {id : Nat}, ReachesDef ssa site id → id ≠ 0 := by
    intro id hr
    cases hr with
    | @inst block inst id hb hid hi ht =>
      obtain ⟨hv, hren⟩ | ⟨-, he, -⟩ := renamed_or_empty h hcfg htree hp hb
      · have hmem : id ∈ block.targets :=
          List.mem_append_right _ (List.mem_filterMap.2 ⟨inst, List.mem_of_getElem? hi, ht⟩)
        rw [hren.targets_eq, List.mem_range'_1] at hmem
        have := h.start_pos _ hv
        omega
      · rw [he] at hi
        cases hi
    | @phi block phi source hb hphi hs hr =>
      obtain ⟨hv, hren⟩ | ⟨-, -, he⟩ := renamed_or_empty h hcfg htree hp hb
      · have hmem : phi.target ∈ block.phiFunctions.map (·.target) := List.mem_map_of_mem hphi
        rw [hren.phi_targets, List.mem_range'_1] at hmem
        have := h.start_pos _ hv
        omega
      · rw [he] at hphi
        cases hphi
  exact fun hr => hpos hr rfl

end One

section Two

variable (h₁ : SsaShape ctx placements₁ ssa₁ N₁) (h₂ : SsaShape ctx placements₂ ssa₂ N₂)
  (hcfg : ctx.cfg.WellFormed) (htree : IsDominatorTree ctx.cfg ctx.domTree)
  (hp₁ : PlacedWhereLive ctx.cfg ctx.dfg placements₁)
  (hp₂ : PlacedWhereLive ctx.cfg ctx.dfg placements₂)
include h₁ h₂ hcfg htree hp₁ hp₂

/-- **Related names find the same definitions**, by induction on how a definition is found. -/
theorem Related.reachesDef {i : Nat} (hr : ReachesDef ssa₁ site i) : ∀ {j : Nat},
    Related ctx placements₁ placements₂ N₁ N₂ i j → ReachesDef ssa₂ site j := by
  induction hr with
  | @inst block inst id hb hid hi ht =>
    intro j hrel
    obtain ⟨hv, hren⟩ | ⟨-, he, -⟩ := renamed_or_empty h₁ hcfg htree hp₁ hb
    swap
    · rw [he] at hi
      cases hi
    have hget := hren.getElem?_instructions site.2
    rw [hi] at hget
    obtain ⟨r, hr, rfl⟩ := Option.map_eq_some_iff.1 hget.symm
    obtain rfl := Option.some_inj.1 ht
    generalize hx : N₁.start block.id + (placements₁ block.id).length + site.2 = x at hrel
    have hown : Owned ctx placements₁ N₁ block.id x := hx ▸ owned_definition N₁ hr
    cases hrel with
    | @definition b k hb' hk =>
      obtain rfl := h₁.eq_of_owned hv hb' hown (owned_definition N₁ (List.getElem?_eq_getElem hk))
      obtain rfl : site.2 = k := by omega
      obtain ⟨block', -, hid', hb'', hren'⟩ := h₂.lookup hv
      have hget' := hren'.getElem?_instructions site.2
      rw [hid', hr, Option.map_some] at hget'
      exact .inst hb'' (hid'.trans hid) hget' (by rw [instructionFor])
    | @phi b i j v hb' hv' hi' hj =>
      have hlen := (List.getElem?_eq_some_iff.1 hi').1
      obtain rfl := h₁.eq_of_owned hv hb' hown (owned_phi N₁ hlen)
      omega
  | @phi block phi source hb hphi hs hr ih =>
    intro j hrel
    obtain ⟨hv, hren⟩ | ⟨-, -, he⟩ := renamed_or_empty h₁ hcfg htree hp₁ hb
    swap
    · rw [he] at hphi
      cases hphi
    have hmem : phi.target ∈ block.phiFunctions.map (·.target) := List.mem_map_of_mem hphi
    rw [hren.phi_targets, List.mem_range'_1] at hmem
    generalize hx : phi.target = x at hrel hmem
    have hown : Owned ctx placements₁ N₁ block.id x := by
      refine ⟨by omega, ?_⟩
      rw [Naming.stop, blockVars, List.length_append]
      omega
    cases hrel with
    | @definition b k hb' hk =>
      obtain rfl := h₁.eq_of_owned hv hb' hown (owned_definition N₁ (List.getElem?_eq_getElem hk))
      omega
    | @phi b i j v hb' hlive hi hj =>
      have hlen := (List.getElem?_eq_some_iff.1 hi).1
      obtain rfl := h₁.eq_of_owned hv hb' hown (owned_phi N₁ hlen)
      obtain ⟨-, hsrc⟩ := var_of_target h₁ hb hren hphi hi hx
      obtain ⟨block', -, hid', hb'', hren'⟩ := h₂.lookup hv
      rw [← hid'] at hj
      obtain ⟨phi', hphi', ht', -⟩ := hren'.exists_phi hj
      obtain ⟨-, hsrc'⟩ := var_of_target h₂ hb'' hren' hphi' hj ht'
      rw [hsrc, Naming.sources, List.mem_map] at hs
      obtain ⟨p, hpred, rfl⟩ := hs
      rw [← hid', ← ht']
      have hs' : ⟨p, (N₂.exit p v).getD 0⟩ ∈ phi'.sources := by
        rw [hsrc', Naming.sources, hid']
        exact List.mem_map_of_mem hpred
      refine .phi hb'' hphi' hs' ?_
      -- a source that finds the definition has a name, which is related to the other source
      by_cases hvp : ctx.Visited p
      · have hrel := related_out h₁ h₂ hcfg hp₁ hp₂ hvp (CfgInfo.mem_predecessors.1 hpred) hlive
        rw [← h₁.exit_visited p hvp, ← h₂.exit_visited p hvp] at hrel
        dsimp only at hr ih ⊢
        generalize N₁.exit p v = e₁ at hr ih hrel
        generalize N₂.exit p v = e₂ at hrel
        cases hrel with
        | some hrel => exact ih hrel
        | none => exact absurd hr (not_reachesDef_zero h₁ hcfg htree hp₁)
      · rw [h₁.exit_other p hvp] at hr
        exact absurd hr (not_reachesDef_zero h₁ hcfg htree hp₁)

theorem reachesDef_useName (hu : RecordsUse ctx.cfg ctx.dfg b k v)
    (hr : ReachesDef ssa₁ site (ssa₁.useName b k v)) :
    ReachesDef ssa₂ site (ssa₂.useName b k v) := by
  have hzero : ¬ ReachesDef ssa₁ site 0 := not_reachesDef_zero h₁ hcfg htree hp₁
  by_cases hv : ctx.Visited b
  · have hname : ∀ {placements ssa N}, SsaShape ctx placements ssa N →
        ssa.useName b k v = (N.after ctx placements b k v).getD 0 := by
      intro placements ssa N h
      obtain ⟨block, hl, hid, -, hren⟩ := h.lookup hv
      obtain ⟨inst, hinst, hop⟩ := h.operand_eq hv hu hren hid
      rw [SsaFunction.useName, hl, Option.bind_some, hinst, Option.map_some, Option.getD_some, hop]
    rw [hname h₁] at hr
    rw [hname h₂]
    have hrel := related_use h₁ h₂ hcfg hp₁ hp₂ hv hu
    cases ha : N₁.after ctx placements₁ b k v with
    | none =>
      rw [ha] at hr
      exact absurd hr hzero
    | some i =>
      rw [ha] at hr hrel
      cases hb : N₂.after ctx placements₂ b k v with
      | none =>
        rw [hb] at hrel
        cases hrel
      | some j =>
        rw [hb] at hrel
        cases hrel with
        | some hrel => exact Related.reachesDef h₁ h₂ hcfg htree hp₁ hp₂ hr hrel
  · -- an unreachable block has no instructions
    have hname : ssa₁.useName b k v = 0 := by
      unfold SsaFunction.useName
      cases hl : lookupBlock ssa₁.blocks b with
      | none => rfl
      | some block =>
        obtain ⟨hb, hid⟩ := lookupBlock_id hl
        obtain ⟨hv', -⟩ | ⟨-, he, -⟩ := renamed_or_empty h₁ hcfg htree hp₁ hb
        · exact absurd (hid ▸ hv') hv
        · rw [Option.bind_some, he]
          rfl
    rw [hname] at hr
    exact absurd hr hzero

end Two

/-- **Two constructions with the phi functions that are live** resolve every recorded use to the
same definitions. -/
theorem SsaShape.sameDefinitions (h₁ : SsaShape ctx placements₁ ssa₁ N₁)
    (h₂ : SsaShape ctx placements₂ ssa₂ N₂) (hcfg : ctx.cfg.WellFormed)
    (htree : IsDominatorTree ctx.cfg ctx.domTree)
    (hp₁ : PlacedWhereLive ctx.cfg ctx.dfg placements₁)
    (hp₂ : PlacedWhereLive ctx.cfg ctx.dfg placements₂) :
    SameDefinitions ctx.cfg ctx.dfg ssa₁ ssa₂ := fun _ _ _ hu _ =>
  ⟨reachesDef_useName h₁ h₂ hcfg htree hp₁ hp₂ hu, reachesDef_useName h₂ h₁ hcfg htree hp₂ hp₁ hu⟩

/-! ## The placements of the three constructions -/

/-- The references to `v` are on lines of more than one block. -/
def NonLocal (cfg : CfgInfo) (dfg : DfgInfo) (v : String) : Prop :=
  ∃ b c, b ≠ c ∧ (∃ r ∈ dfg.refs, r.name = v ∧ lineToBlock cfg r.line = some b) ∧
    ∃ r ∈ dfg.refs, r.name = v ∧ lineToBlock cfg r.line = some c

theorem insertBlock_nodup {m : List (String × List Nat)} (name : String) (block : Nat)
    (hm : ∀ entry ∈ m, entry.2.Nodup) : ∀ entry ∈ insertBlock m name block, entry.2.Nodup := by
  rw [insertBlock]
  split_ifs with hany
  · intro new hnew
    obtain ⟨entry, he, rfl⟩ := List.mem_map.1 hnew
    split_ifs with hn
    · exact (hm entry he).insert
    · exact hm entry he
  · intro entry he
    rcases List.mem_append.1 he with he | he
    · exact hm entry he
    · rw [List.mem_singleton.1 he]
      exact List.nodup_singleton block

theorem varBlocks_spec (refs : List VarRef) : ∀ m : List (String × List Nat),
    (m.map (·.1)).Nodup → (∀ entry ∈ m, entry.2.Nodup) →
    let m' := refs.foldl (fun varBlocks varRef => match lineToBlock cfg varRef.line with
      | some block => insertBlock varBlocks varRef.name block
      | none => varBlocks) m
    (m'.map (·.1)).Nodup ∧ (∀ entry ∈ m', entry.2.Nodup) ∧
      ∀ v b, (∃ entry ∈ m', entry.1 = v ∧ b ∈ entry.2) ↔
        (∃ entry ∈ m, entry.1 = v ∧ b ∈ entry.2) ∨
          ∃ r ∈ refs, r.name = v ∧ lineToBlock cfg r.line = some b := by
  induction refs with
  | nil => intro m hm hm'; simpa using ⟨hm, fun a b h => hm' (a, b) h⟩
  | cons r refs ih =>
    intro m hm hm'
    rw [List.foldl_cons]
    cases hr : lineToBlock cfg r.line with
    | some block =>
      obtain ⟨h₁, h₂, h₃⟩ := ih _ (insertBlock_keys r.name block hm)
        (insertBlock_nodup r.name block hm')
      refine ⟨h₁, h₂, fun v b => (h₃ v b).trans ?_⟩
      rw [mem_insertBlock]
      simp [hr, or_assoc]
    | none =>
      obtain ⟨h₁, h₂, h₃⟩ := ih m hm hm'
      refine ⟨h₁, h₂, fun v b => (h₃ v b).trans ?_⟩
      simp [hr]

theorem mem_filterNonLocalVariables :
    v ∈ filterNonLocalVariables cfg dfg ↔ NonLocal cfg dfg v := by
  obtain ⟨h₁, h₂, h₃⟩ := varBlocks_spec dfg.refs [] (by simp) (by simp)
  simp only [filterNonLocalVariables, List.mem_map, List.mem_filter, decide_eq_true_eq]
  generalize dfg.refs.foldl _ _ = m at h₁ h₂ h₃ ⊢
  have hmem : ∀ b, (∃ entry ∈ m, entry.1 = v ∧ b ∈ entry.2) ↔
      ∃ r ∈ dfg.refs, r.name = v ∧ lineToBlock cfg r.line = some b := fun b => by
    rw [h₃]
    simp
  constructor
  · rintro ⟨entry, ⟨he, hlen⟩, hv⟩
    refine ⟨entry.2[0], entry.2[1], ?_, (hmem _).1 ⟨entry, he, hv, List.getElem_mem _⟩,
      (hmem _).1 ⟨entry, he, hv, List.getElem_mem _⟩⟩
    exact fun heq => absurd ((h₂ entry he).getElem_inj_iff.1 heq) (by omega)
  · rintro ⟨b, c, hne, hb, hc⟩
    obtain ⟨entry, he, hv, hb⟩ := (hmem b).2 hb
    obtain ⟨entry', he', hv', hc⟩ := (hmem c).2 hc
    obtain rfl := List.inj_on_of_nodup_map h₁ he he' (hv.trans hv'.symm)
    refine ⟨entry, ⟨he, ?_⟩, hv⟩
    have hsub : [b, c] <+~ entry.2 := by
      refine List.Nodup.subperm (by simpa using hne) fun x hx => ?_
      rcases List.mem_pair.1 hx with rfl | rfl
      · exact hb
      · exact hc
    exact hsub.length_le

/-- A construction that leaves out phi functions of variables that are not live only. -/
theorem placedWhereLive_placePhis (ord : HashOrder) (dfg : DfgInfo) {tree : DominatorTree}
    {df : DominanceFrontier} (h : IsDominatorTree cfg tree)
    (hdf : computeDominanceFrontier cfg tree = .ok df) (isLive : Nat → String → Bool)
    (keep : String → Bool)
    (hkeep : ∀ v b, PhiAt cfg dfg v b → LiveIn cfg dfg v b → keep v ∧ isLive b v) :
    PlacedWhereLive cfg dfg (placePhis ord df cfg.blocks.length isLive
      ((collectVariableDefinitions cfg dfg).filter (keep ·.1))) := by
  intro v b
  have hmem := (mem_placePhis_filter ord dfg h hdf isLive keep b).2 v
  exact ⟨fun hv => (hmem.1 hv).1, fun hlive hphi => hmem.2 ⟨hphi, hkeep v b hphi hlive⟩⟩

/-- **The three constructions find the same definitions** if every phi function of a live variable
belongs to a variable with references in more than one block and is where the variable is live by
the lines. -/
theorem constructions_sameDefinitions {ord₁ ord₂ ord₃ : HashOrder}
    {minimal semi pruned : SsaFunction} (hcfg : cfg.WellFormed)
    (hmin : constructMinimalSsa ord₁ cfg dfg = .ok minimal)
    (hsemi : constructSemiPrunedSsa ord₂ cfg dfg = .ok semi)
    (hpruned : constructPrunedSsa ord₃ cfg dfg (computeLiveVariables cfg dfg.refs) = .ok pruned)
    (hkeep : ∀ v b, PhiAt cfg dfg v b → LiveIn cfg dfg v b →
      NonLocal cfg dfg v ∧ LiveOnLines cfg dfg.refs v b) :
    SameDefinitions cfg dfg minimal semi ∧ SameDefinitions cfg dfg minimal pruned := by
  obtain ⟨tree, df, htree, hdf, rfl⟩ := construct_ok hmin
  have ht := isDominatorTree_of_ok htree
  -- all three are built on the same tree and frontier
  have hsame : ∀ {build : DominatorTree → DominanceFrontier → SsaFunction} {ssa : SsaFunction},
      (do
        let domTree ← buildDominatorTree cfg
        let domFrontier ← computeDominanceFrontier cfg domTree
        return build domTree domFrontier) = Except.ok ssa → ssa = build tree df := by
    intro build ssa hok
    obtain ⟨tree', df', htree', hdf', rfl⟩ := construct_ok hok
    obtain rfl : tree = tree' := Except.ok.inj (htree.symm.trans htree')
    obtain rfl : df = df' := Except.ok.inj (hdf.symm.trans hdf')
    rfl
  obtain rfl := hsame hsemi
  obtain rfl := hsame hpruned
  obtain ⟨N₁, h₁⟩ := @buildSsa_shape ⟨cfg, dfg, tree, []⟩ ht .minimal
    (placePhiFunctions ord₁ df cfg.blocks.length (collectVariableDefinitions cfg dfg))
  have hp₁ : PlacedWhereLive cfg dfg (placePhiFunctions ord₁ df cfg.blocks.length
      (collectVariableDefinitions cfg dfg)) := by
    have := placedWhereLive_placePhis ord₁ dfg ht hdf (fun _ _ => true) (fun _ => true)
      fun _ _ _ _ => ⟨rfl, rfl⟩
    simpa [placePhiFunctions] using this
  constructor
  · obtain ⟨N₂, h₂⟩ := @buildSsa_shape ⟨cfg, dfg, tree, []⟩ ht .semiPruned
      (placePhiFunctions ord₂ df cfg.blocks.length
        ((collectVariableDefinitions cfg dfg).filter (·.1 ∈ filterNonLocalVariables cfg dfg)))
    refine h₁.sameDefinitions h₂ hcfg ht hp₁ ?_
    refine placedWhereLive_placePhis ord₂ dfg ht hdf (fun _ _ => true)
      (fun v => v ∈ filterNonLocalVariables cfg dfg) fun v b hphi hlive => ?_
    exact ⟨decide_eq_true (mem_filterNonLocalVariables.2 (hkeep v b hphi hlive).1), rfl⟩
  · obtain ⟨N₃, h₃⟩ := @buildSsa_shape ⟨cfg, dfg, tree, []⟩ ht .pruned
      (placePhis ord₃ df cfg.blocks.length (computeLiveVariables cfg dfg.refs).isLiveIn
        (collectVariableDefinitions cfg dfg))
    refine h₁.sameDefinitions h₃ hcfg ht hp₁ ?_
    have := placedWhereLive_placePhis ord₃ dfg ht hdf
      (computeLiveVariables cfg dfg.refs).isLiveIn (fun _ => true) fun v b hphi hlive => by
        have hb : b ∈ cfg.blockIds := hcfg.reachable_mem hphi.reachable
        exact ⟨rfl, (isLiveIn_iff hcfg hb).2 (hkeep v b hphi hlive).2⟩
    simpa using this

theorem constructions_sameDefinitions_counter : ∃ minimal semi pruned,
    constructMinimalSsa .insertion whileCfg counterDfg = .ok minimal ∧
      SameDefinitions whileCfg counterDfg minimal semi ∧
        SameDefinitions whileCfg counterDfg minimal pruned := by
  have hkeep : ∀ v b, PhiAt whileCfg counterDfg v b → LiveIn whileCfg counterDfg v b →
      NonLocal whileCfg counterDfg v ∧ LiveOnLines whileCfg counterDfg.refs v b := by
    rintro v b hphi ⟨c, k, ⟨d, hd, hu⟩, -⟩
    -- only `x` is used, and only the header joins two edges
    obtain rfl : v = "x" := by
      rcases hu with ⟨hupd, rfl⟩ | ⟨-, r, hr, -, rfl, huse, -⟩
      · have hmem : d ∈ counterDfg.refs := mem_refs_of_blockDefs (List.mem_of_getElem? hd)
        exact (by decide : ∀ d ∈ counterDfg.refs, d.refType = .update → d.name = "x") d hmem hupd
      · exact (by decide : ∀ d ∈ counterDfg.refs, d.refType = .use → d.name = "x") r hr huse
    obtain rfl : b = 1 := by
      have hjoin : ∀ b ∈ whileCfg.blockIds, 2 ≤ (whileCfg.predecessors b).length → b = 1 := by
        decide
      cases hphi with
      | definition _ hj => exact hjoin b hj.1 hj.2.1
      | phi _ hj => exact hjoin b hj.1 hj.2.1
    have hedge : whileCfg.Edge 1 2 := ⟨⟨1, 2⟩, by decide, rfl, rfl⟩
    refine ⟨⟨0, 2, by decide, ⟨⟨"x", .definition, 1, 0⟩, by decide⟩, ⟨"x", .update, 3, 0⟩,
      by decide⟩, 2, [1], (Walk.single 2).cons hedge, ?_, ?_⟩
    · rintro x hx ⟨r, hr, hd, -, hb⟩
      rw [List.mem_singleton.1 hx] at hb
      exact (by decide : ∀ r ∈ counterDfg.refs, r.isDef → lineToBlock whileCfg r.line ≠ some 1)
        r hr hd hb
    · exact ⟨[], ⟨"x", .update, 3, 0⟩, [], by decide +kernel, rfl, by decide, by simp⟩
  have hmin : (constructMinimalSsa .insertion whileCfg counterDfg).toOption.isSome := by
    decide +kernel
  have hsemi : (constructSemiPrunedSsa .insertion whileCfg counterDfg).toOption.isSome := by
    decide +kernel
  have hpruned : (constructPrunedSsa .insertion whileCfg counterDfg
      (computeLiveVariables whileCfg counterDfg.refs)).toOption.isSome := by
    decide +kernel
  obtain ⟨minimal, hmin⟩ := exists_ok_of_isSome hmin
  obtain ⟨semi, hsemi⟩ := exists_ok_of_isSome hsemi
  obtain ⟨pruned, hpruned⟩ := exists_ok_of_isSome hpruned
  exact ⟨minimal, semi, pruned, hmin,
    constructions_sameDefinitions whileCfg_wellFormed hmin hsemi hpruned hkeep⟩

/-- A loop that updates a variable of the surroundings: `while ..: x += 1`. -/
def surroundingDfg : DfgInfo where
  refs := [⟨"x", .update, 3, 0⟩]

/-- Semi-pruned SSA takes a variable that is updated in a loop only for local. -/
theorem constructSemiPrunedSsa_update_missed : ∃ minimal semi,
    constructMinimalSsa .insertion whileCfg surroundingDfg = .ok minimal ∧
      constructSemiPrunedSsa .insertion whileCfg surroundingDfg = .ok semi ∧
        ¬ SameDefinitions whileCfg surroundingDfg minimal semi := by
  have hmin : (constructMinimalSsa .insertion whileCfg surroundingDfg).toOption.map (fun ssa =>
      decide (∃ block ∈ ssa.blocks, ∃ phi ∈ block.phiFunctions, phi.target = ssa.useName 2 0 "x" ∧
        ∃ source ∈ phi.sources, ∃ block ∈ ssa.blocks, block.id = 2 ∧
          ∃ inst ∈ block.instructions[0]?, inst.target = some source.name)) = some true := by
    decide +kernel
  have hsemi : (constructSemiPrunedSsa .insertion whileCfg surroundingDfg).toOption.map
      (fun ssa => decide (ssa.useName 2 0 "x" ∈ ssa.targets)) = some false := by
    decide +kernel
  obtain ⟨minimal, hok, hmin⟩ := exists_ok_of_map hmin
  obtain ⟨semi, hok', hsemi⟩ := exists_ok_of_map hsemi
  refine ⟨minimal, semi, hok, hok', fun hsame => ?_⟩
  have hu : RecordsUse whileCfg surroundingDfg 2 0 "x" :=
    ⟨⟨"x", .update, 3, 0⟩, by decide +kernel, .inl ⟨rfl, rfl⟩⟩
  obtain ⟨block, hb, phi, hphi, ht, source, hs, block', hb', hid, inst, hi, hti⟩ :=
    of_decide_eq_true hmin
  have hreach : ReachesDef minimal (2, 0) phi.target := .phi hb hphi hs (.inst hb' hid hi hti)
  rw [ht, hsame 2 0 "x" hu] at hreach
  exact of_decide_eq_false hsemi hreach.mem_targets

end TldrCode.Ssa
