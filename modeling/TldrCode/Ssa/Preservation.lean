import TldrCode.Ssa.Execution

/-!
# When minimal SSA preserves the uses

`constructMinimalSsa_preserves_iff`: the uses are preserved exactly if no step loses a live
variable. A lost step leads to a block that defines the variable and dominates the start of the
step, or to the entry (`Lost.header_or_entry`); where the variable is live there, a path that takes
the step reaches a use with the value from before (`SsaShape.not_preserves_header`) or without a
value (`SsaShape.not_preserves_entry`).
-/

namespace TldrCode.Ssa

open TldrCode.Graph

variable {cfg : CfgInfo} {dfg : DfgInfo} {ctx : SsaRenamingContext}
  {placements : Nat → List String} {ssa : SsaFunction} {N : Naming} {block : SsaBlock}
  {path l : List Nat} {v : String} {b c p q x k : Nat}

theorem JoinFrontier.reach (h : JoinFrontier cfg x b) :
    cfg.Reachable x ∧ Reach cfg.Edge x b := by
  obtain ⟨-, -, -, p, hp, he, hdom, -⟩ := h
  exact ⟨hdom.reach hp, (hdom.reach_from hp).tail he⟩

theorem PhiAt.exists_def (h : PhiAt cfg dfg v x) :
    ∃ d, cfg.Reachable d ∧ DefinesIn cfg dfg v d ∧ Reach cfg.Edge d x := by
  induction h with
  | definition hx hy => exact ⟨_, hy.reach.1, hx, hy.reach.2⟩
  | phi _ hy ih =>
    obtain ⟨d, hd, hdef, hr⟩ := ih
    exact ⟨d, hd, hdef, hr.trans hy.reach.2⟩

/-- A block other than the entry that dominates one of its predecessors has another one. -/
theorem two_le_predecessors_of_dom (hb : cfg.Reachable b) (hne : b ≠ cfg.entryBlock)
    (he : cfg.Edge p b) (hdom : cfg.Dominates b p) : 2 ≤ (cfg.predecessors b).length := by
  obtain ⟨l, w, hl⟩ := hb.exists_first
  have hnil : l ≠ [] := by
    rintro rfl
    exact hne (by simpa using w.head)
  obtain ⟨q, hq, heq⟩ := w.exists_last_step hnil
  have hqp : q ≠ p := by
    rintro rfl
    exact hl q hq.last_mem hdom
  have hsub : [q, p].Subperm (cfg.predecessors b) := by
    refine List.subperm_of_subset (by simpa using hqp) ?_
    simpa [CfgInfo.mem_predecessors] using ⟨heq, he⟩
  exact hsub.length_le

/-- A step is lost back to a block that defines after it has used, or to the entry. -/
theorem header_or_entry {Defines HasPhi : Nat → Prop} (hcfg : cfg.WellFormed)
    (hp : cfg.Reachable p) (he : cfg.Edge p b)
    (hplaced : ∀ x, Defines x ∨ HasPhi x → JoinFrontier cfg x b → HasPhi b) (hphi : ¬ HasPhi b)
    (hnamed : ∃ x, cfg.Dominates x p ∧ ¬ cfg.StrictlyDominates x b ∧ (Defines x ∨ HasPhi x)) :
    Defines b ∧ cfg.Dominates b p ∨ b = cfg.entryBlock := by
  obtain ⟨x, hxp, hxb, hx⟩ := hnamed
  have hb := hp.tail he
  have hnot : ¬ JoinFrontier cfg x b := fun hj => hphi (hplaced x hx hj)
  have hmem := hcfg.reachable_mem hb
  by_contra hcon
  rw [not_or, not_and] at hcon
  by_cases hbp : cfg.Dominates b p
  · have hxne : x ≠ b := by
      rintro rfl
      exact hx.elim (hcon.1 · hbp) hphi
    exact hnot ⟨hmem, two_le_predecessors_of_dom hb hcon.2 he hbp, hxne, p, hp, he, hxp, hxb⟩
  · refine hnot ⟨hmem, two_le_predecessors hp he hxp hxb hbp, ?_, p, hp, he, hxp, hxb⟩
    rintro rfl
    exact hbp hxp

theorem Lost.header_or_entry (hcfg : cfg.WellFormed) (h : Lost cfg dfg (PhiAt cfg dfg) v p b) :
    DefinesIn cfg dfg v b ∧ cfg.Dominates b p ∨ b = cfg.entryBlock :=
  Ssa.header_or_entry hcfg h.reachable h.edge
    (fun _ hx hj => hx.elim (.definition · hj) (.phi · hj)) h.notMem h.named

/-! ## Paths that reach a wrong name -/

namespace SsaShape

variable (h : SsaShape ctx placements ssa N)
include h

theorem run_value_zero (hl : ∀ c ∈ l, ctx.Visited c) : (ssa.run l).value 0 = 0 :=
  h.run_value (l := []) fun c hc => ⟨hl c hc, h.not_owned_zero (hl c hc)⟩

theorem run_value_cases (hl : ∀ c ∈ l, ctx.Visited c) : ∀ id, (ssa.run l).value id = 0 ∨
    ∃ c ∈ l, Owned ctx placements N c ((ssa.run l).value id) := by
  induction l using List.reverseRecOn with
  | nil => exact fun id => .inl rfl
  | append_singleton l c ih =>
    intro id
    have hc := hl c (by simp)
    have ih := ih fun d hd => hl d (List.mem_append_left _ hd)
    obtain ⟨block, -, rfl, -, hr, hrun⟩ := h.runBlock_eq hc (ssa.run l)
    rw [run_concat, hrun]
    dsimp only
    rcases hr.execTo_value_cases h hc id _ with hv | hv
    · have henter : (block.enter (ssa.run l)).value id = 0 ∨
          ∃ id', (block.enter (ssa.run l)).value id = (ssa.run l).value id' := by
        rw [SsaBlock.enter]
        dsimp only
        split
        · rename_i phi _
          cases hf : phi.sources.find? fun source => some source.block == (ssa.run l).prev with
          | none => exact .inl rfl
          | some source => exact .inr ⟨source.name, rfl⟩
        · exact .inr ⟨id, rfl⟩
      rw [hv]
      rcases henter with he | ⟨id', he⟩
      · exact .inl he
      · rw [he]
        exact (ih id').imp_right (Exists.imp fun d => And.imp_left (List.mem_append_left _))
    · exact .inr ⟨block.id, by simp, hv⟩

/-- If the uses are preserved, the name of `v` has the right value where a use is reached. -/
theorem enter_agrees_of_preserves (hpres : PreservesUses ctx.cfg ctx.dfg ssa)
    (hw : Walk ctx.cfg.Edge ctx.cfg.entryBlock block.id (path ++ [block.id]))
    (hl : lookupBlock ssa.blocks block.id = some block) (hc : ctx.Visited block.id)
    (hr : IsRenamed ctx placements N block) (hu : RecordsUse ctx.cfg ctx.dfg block.id k v)
    (hk : v ∉ ((blockDefs ctx.cfg ctx.dfg block.id).take k).map (·.name)) :
    (block.enter (ssa.run path)).value ((N.after ctx placements block.id 0 v).getD 0) =
      (ssa.run path).last v := by
  obtain ⟨block', inst, hl', hinst, heq⟩ := hpres path block.id hw k v hu
  rw [hl, Option.some_inj] at hl'
  subst hl'
  obtain ⟨inst', hinst', hop⟩ := h.operand_eq hc hu hr rfl
  rw [hinst, Option.some_inj] at hinst'
  subst hinst'
  rw [hop, hr.execTo_current h hc hk] at heq
  rcases hr.execTo_last h hc (s := ssa.run path) v k with ⟨-, hlast⟩ | ⟨hin, -⟩
  · exact heq.trans hlast
  · exact absurd hin hk

section

variable (hcfg : ctx.cfg.WellFormed) (htree : IsDominatorTree ctx.cfg ctx.domTree)
include hcfg htree

/-- The first kind of lost step: back to a block that defines `v` after it has used it. -/
theorem not_preserves_header (hp : ctx.cfg.Reachable p) (he : ctx.cfg.Edge p b)
    (hphi : v ∉ placements b) (hdef : DefinesIn ctx.cfg ctx.dfg v b)
    (hdom : ctx.cfg.Dominates b p) (hlive : LiveIn ctx.cfg ctx.dfg v b) :
    ¬ PreservesUses ctx.cfg ctx.dfg ssa := by
  intro hpres
  have hvis : ∀ {c}, ctx.cfg.Reachable c → ctx.Visited c := visited_of_reachable hcfg htree
  have hrb := hp.tail he
  -- the use is in `b` itself, before the definition
  obtain ⟨c, k, hu, l, w, hl, hk⟩ := hlive
  obtain rfl : b = c := by
    cases l with
    | nil => exact (by simpa using w.head : c = b).symm
    | cons x l =>
      obtain rfl : x = b := by simpa using w.head
      exact absurd hdef (hl x List.mem_cons_self)
  -- to `b`, on to `p` below `b`, and back
  obtain ⟨l₁, w₁, hl₁⟩ := hrb.exists_first
  obtain ⟨m, w₂, hm⟩ := hdom.exists_walk hp
  have hw : Walk ctx.cfg.Edge ctx.cfg.entryBlock b ((l₁ ++ b :: m) ++ [b]) :=
    (w₁.append w₂).concat he
  have hv₁ : ∀ c ∈ l₁, ctx.Visited c := fun c hc => hvis (w₁.reach_of_mem (by simp [hc]))
  have hv₂ : ∀ c ∈ b :: m, ctx.Visited c := fun c hc =>
    hvis (hrb.trans (w₂.reach_of_mem hc))
  have hdom₂ : ∀ c ∈ b :: m, ctx.cfg.Dominates b c := by
    simpa using ⟨Dom.refl b, fun c hc => (hm c hc).dom⟩
  have hc := hvis hrb
  obtain ⟨block, hlook, rfl, -, hr⟩ := h.lookup hc
  have heq := h.enter_agrees_of_preserves hpres hw hlook hc hr hu hk
  -- the name of `v` still has the value from before `b`
  have hfree : ∀ c ∈ block.id :: m, ctx.Visited c ∧
      ¬ Owned ctx placements N c ((N.cur block.id v).getD 0) := by
    refine fun c hcm => ⟨hv₂ c hcm, ?_⟩
    cases hcur : N.cur block.id v with
    | none => exact h.not_owned_zero (hv₂ c hcm)
    | some id =>
      obtain ⟨d, hd, hsd, hn⟩ := h.cur_spec hc hcur
      refine h.not_owned_of_ne hd (hv₂ c hcm) ?_ hn.owned
      rintro rfl
      exact hsd.2 (hsd.1.antisymm (hdom₂ d hcm) (hsd.1.reach hrb))
  rw [hr.enter_cur h hc hphi, h.run_value hfree] at heq
  -- but the last definition is in a block that `b` dominates
  rcases h.run_last (l := l₁) v hv₂ with ⟨hnone, -⟩ | ⟨d, hd, hown⟩
  · exact hnone block.id List.mem_cons_self hdef
  · rw [← heq] at hown
    rcases h.run_value_cases hv₁ ((N.cur block.id v).getD 0) with hz | ⟨d', hd', hown'⟩
    · rw [hz] at hown
      exact h.not_owned_zero (hv₂ d hd) hown
    · have hdd : d = d' := by
        by_contra hne
        exact h.not_owned_of_ne (hv₂ d hd) (hv₁ d' hd') hne hown hown'
      exact hl₁ d' hd' (hdd ▸ hdom₂ d hd)

/-- On a simple path from the entry that does not define `v`, its name has no value, whatever came
before. -/
theorem value_of_simple {l₀ : List Nat} (hl₀ : ∀ c ∈ l₀, ctx.Visited c)
    (hentry : v ∉ placements ctx.cfg.entryBlock)
    (hw : Walk ctx.cfg.Edge ctx.cfg.entryBlock block.id (l ++ [block.id]))
    (hn : (l ++ [block.id]).Nodup) (hl : ∀ x ∈ l, ¬ DefinesIn ctx.cfg ctx.dfg v x)
    (hb : block ∈ ssa.blocks) (hr : IsRenamed ctx placements N block) :
    (∀ y ∈ l, (ssa.run (l₀ ++ l)).value ((N.out ctx placements y v).getD 0) = 0) ∧
      (block.enter (ssa.run (l₀ ++ l))).value
        ((N.after ctx placements block.id 0 v).getD 0) = 0 := by
  have hvis : ∀ {c}, ctx.cfg.Reachable c → ctx.Visited c := visited_of_reachable hcfg htree
  have hc : ctx.Visited block.id := hvis ⟨_, hw⟩
  induction l using List.reverseRecOn generalizing block with
  | nil =>
    have he : block.id = ctx.cfg.entryBlock := by simpa using hw.head
    refine ⟨by simp, ?_⟩
    have hcur : N.cur block.id v = none := by
      rw [he]
      exact h.cur_entry (he ▸ hc) v
    rw [hr.enter_cur h hc (he ▸ hentry), hcur, List.append_nil]
    exact h.run_value_zero hl₀
  | append_singleton l p ih =>
    obtain ⟨q, hq, he⟩ := hw.exists_last_step (by simp)
    obtain rfl : q = p := by simpa using hq.last.symm
    have hp : ctx.Visited q := hvis ⟨_, hq⟩
    obtain ⟨blockP, -, rfl, hbP, hrP, hrun⟩ := h.runBlock_eq hp (ssa.run (l₀ ++ l))
    have hdefP : ¬ DefinesIn ctx.cfg ctx.dfg v blockP.id := hl _ (by simp)
    obtain ⟨hold, hnew⟩ := ih hq (List.nodup_append.1 hn).1
      (fun x hx => hl x (List.mem_append_left _ hx)) hbP hrP hp
    have hmem : ∀ y ∈ l ++ [blockP.id],
        (ssa.run (l₀ ++ (l ++ [blockP.id]))).value ((N.out ctx placements y v).getD 0) = 0 := by
      intro y hy
      rw [← List.append_assoc, run_concat, hrun]
      dsimp only
      rcases List.mem_append.1 hy with hy | hy
      · rw [hrP.execTo_value h hp, hold y hy]
        -- the name comes from a dominator of `y`, which is on the walk to `y`
        cases hout : N.out ctx placements y v with
        | none => exact h.not_owned_zero hp
        | some id =>
          obtain ⟨d, hd, hdy, hnd⟩ := h.out_spec (hvis (hq.reach_of_mem (by simp [hy]))) hout
          refine h.not_owned_of_ne hd hp ?_ hnd.owned
          rintro rfl
          obtain ⟨m₁, m₂, rfl⟩ := List.append_of_mem hy
          rw [List.append_assoc] at hq
          have hdm := hdy.mem_prefix hq
          have hdisj := List.nodup_append.1 (List.nodup_append.1 hn).1
          simp only [List.mem_append, List.mem_cons, List.not_mem_nil, or_false] at hdm
          exact hdisj.2.2 blockP.id (by simp; tauto) blockP.id (by simp) rfl
      · rw [List.mem_singleton] at hy
        subst hy
        rw [← Naming.after_length, hrP.execTo_current h hp]
        · exact hnew
        · rw [List.take_length, mem_blockDefs]
          exact hdefP
    refine ⟨hmem, ?_⟩
    by_cases hphi : v ∈ placements block.id
    · obtain ⟨i, hi, ha⟩ := N.after_zero_of_mem ctx hphi
      have hprev : (ssa.run (l₀ ++ (l ++ [blockP.id]))).prev = some blockP.id := by
        rw [← List.append_assoc]
        exact run_concat_prev
      rw [ha, Option.getD_some, hr.enter_phi h hb hi hprev he, h.exit_visited _ hp]
      exact hmem blockP.id (by simp)
    · rw [hr.enter_cur h hc hphi]
      have hne : block.id ≠ ctx.cfg.entryBlock := by
        intro hbe
        have hstart : ctx.cfg.entryBlock ∈ l ++ [blockP.id] := hq.head_mem
        exact (List.nodup_append.1 hn).2.2 _ hstart _ (by simp) hbe.symm
      obtain ⟨d, hd⟩ := exists_idom ⟨_, hw⟩ hne
      rw [h.cur_child block.id d hc (hvis (hd.reach ⟨_, hw⟩)) hd]
      refine hmem d ?_
      have := hd.1.1 _ hw
      simp only [List.mem_append, List.mem_singleton] at this ⊢
      exact this.resolve_right hd.1.2

/-- The second kind of lost step: back to the entry, which has no phi functions for the variable. -/
theorem not_preserves_entry (he : ctx.cfg.Edge p ctx.cfg.entryBlock)
    (hphi : v ∉ placements ctx.cfg.entryBlock)
    (hdef : ∃ d, ctx.cfg.Reachable d ∧ DefinesIn ctx.cfg ctx.dfg v d ∧ Reach ctx.cfg.Edge d p)
    (hlive : LiveIn ctx.cfg ctx.dfg v ctx.cfg.entryBlock) :
    ¬ PreservesUses ctx.cfg ctx.dfg ssa := by
  intro hpres
  have hvis : ∀ {c}, ctx.cfg.Reachable c → ctx.Visited c := visited_of_reachable hcfg htree
  -- a path to `p` over a definition
  obtain ⟨d, ⟨l₁, w₁⟩, hdd, l₂, w₂⟩ := hdef
  obtain ⟨t₁, rfl⟩ := w₁.eq_concat
  obtain ⟨t₂, rfl⟩ := w₂.eq_cons
  have hw₀ := w₁.append w₂
  have hv₀ : ∀ c ∈ t₁ ++ d :: t₂, ctx.Visited c := fun c hc => hvis (hw₀.reach_of_mem hc)
  -- and a simple one from the entry to the use
  obtain ⟨c, k, hu, l, w, hl, hk⟩ := hlive
  obtain ⟨l', w', hn, hsub⟩ := w.exists_nodup
  obtain ⟨l', rfl⟩ := w'.eq_concat
  have hl' : ∀ x ∈ l', ¬ DefinesIn ctx.cfg ctx.dfg v x := by
    intro x hx
    have hne : x ≠ c := by
      rintro rfl
      exact (List.nodup_append.1 hn).2.2 x hx x (by simp) rfl
    have := hsub x (List.mem_append_left _ hx)
    simp only [List.mem_append, List.mem_singleton, hne, or_false] at this
    exact hl x this
  have hv' : ∀ x ∈ l', ctx.Visited x := fun x hx => hvis (w'.reach_of_mem (by simp [hx]))
  have hc := hvis ⟨_, w'⟩
  obtain ⟨block, hlook, rfl, hb, hr⟩ := h.lookup hc
  obtain ⟨-, hzero⟩ := h.value_of_simple hcfg htree hv₀ hphi w' hn hl' hb hr
  have hw : Walk ctx.cfg.Edge ctx.cfg.entryBlock block.id
      (((t₁ ++ d :: t₂) ++ l') ++ [block.id]) := by
    obtain ⟨t, ht⟩ := w'.eq_cons
    have hback := hw₀.concat he
    rw [List.append_assoc, ht]
    rw [ht] at w'
    exact hback.append w'
  have heq := h.enter_agrees_of_preserves hpres hw hlook hc hr hu hk
  rw [hzero] at heq
  -- but the variable has been defined
  rcases h.run_last (l := t₁ ++ d :: t₂) v hv' with ⟨-, hlast⟩ | ⟨x, hx, hown⟩
  · rw [hlast] at heq
    rcases h.run_last (l := []) v hv₀ with ⟨hnone, -⟩ | ⟨x, hx, hown⟩
    · exact hnone d (by simp) hdd
    · rw [List.nil_append, ← heq] at hown
      exact h.not_owned_zero (hv₀ x hx) hown
  · rw [← heq] at hown
    exact h.not_owned_zero (hv' x hx) hown

end

end SsaShape

/-- **Minimal SSA preserves the uses** exactly if no step loses a live variable. -/
theorem constructMinimalSsa_preserves_iff {ord : HashOrder} (hcfg : cfg.WellFormed)
    (hok : constructMinimalSsa ord cfg dfg = .ok ssa) : PreservesUses cfg dfg ssa ↔
      ∀ v p b, Lost cfg dfg (PhiAt cfg dfg) v p b → ¬ LiveIn cfg dfg v b := by
  obtain ⟨tree, df, htree, hdf, rfl⟩ := construct_ok hok
  have ht := isDominatorTree_of_ok htree
  obtain ⟨N, hN⟩ := @buildSsa_shape ⟨cfg, dfg, tree, []⟩ ht .minimal
    (placePhiFunctions ord df cfg.blocks.length (collectVariableDefinitions cfg dfg))
  have hphi : (fun v b => v ∈ placePhiFunctions ord df cfg.blocks.length
      (collectVariableDefinitions cfg dfg) b) = PhiAt cfg dfg := by
    funext v b
    exact propext ((mem_placePhiFunctions ord dfg ht hdf b).2 v)
  have hmem : ∀ {v b}, ¬ PhiAt cfg dfg v b → v ∉ placePhiFunctions ord df cfg.blocks.length
      (collectVariableDefinitions cfg dfg) b := fun {v b} hn hv => hn (congrFun₂ hphi v b ▸ hv)
  constructor
  · intro hpres v p b hlost hlive
    rcases hlost.header_or_entry hcfg with ⟨hdef, hdom⟩ | rfl
    · exact hN.not_preserves_header hcfg ht hlost.reachable hlost.edge (hmem hlost.notMem) hdef
        hdom hlive hpres
    · refine hN.not_preserves_entry hcfg ht hlost.edge (hmem hlost.notMem) ?_ hlive hpres
      obtain ⟨x, hxp, -, hx | hx⟩ := hlost.named
      · exact ⟨x, hxp.reach hlost.reachable, hx, hxp.reach_from hlost.reachable⟩
      · obtain ⟨d, hd, hdef, hdx⟩ := hx.exists_def
        exact ⟨d, hd, hdef, hdx.trans (hxp.reach_from hlost.reachable)⟩
  · intro hlost
    refine hN.preservesUses hcfg ht fun v p b hl => hlost v p b ?_
    rwa [← hphi]

theorem constructMinimalSsa_preserves_iff_counter :
    ∃ ssa, constructMinimalSsa .insertion whileCfg counterDfg = .ok ssa ∧
      (PreservesUses whileCfg counterDfg ssa ↔ ∀ v p b,
        Lost whileCfg counterDfg (PhiAt whileCfg counterDfg) v p b →
          ¬ LiveIn whileCfg counterDfg v b) := by
  have hok : (constructMinimalSsa .insertion whileCfg counterDfg).toOption.isSome := by
    decide +kernel
  cases h : constructMinimalSsa .insertion whileCfg counterDfg with
  | error e => rw [h] at hok; cases hok
  | ok ssa => exact ⟨ssa, rfl, constructMinimalSsa_preserves_iff whileCfg_wellFormed h⟩

/-- A loop whose header counts: `x = 0; while (x += 1) ..`. -/
def headerDfg : DfgInfo where
  refs := [⟨"x", .definition, 1, 0⟩, ⟨"x", .update, 2, 0⟩]

/-- Counting in the header of a loop, the second round adds to the initial value. -/
theorem constructMinimalSsa_header_stale : ∃ ssa,
    constructMinimalSsa .insertion whileCfg headerDfg = .ok ssa ∧
      ¬ PreservesUses whileCfg headerDfg ssa := by
  have heval : ((constructMinimalSsa .insertion whileCfg headerDfg).toOption.bind fun ssa =>
      (lookupBlock ssa.blocks 1).bind fun block => block.instructions[0]?.map fun inst =>
        let s := ssa.execTo block (ssa.run [0, 1, 2]) 0
        (s.value (inst.operand ssa "x"), s.last "x")) = some (1, 2) := by
    decide +kernel
  cases h : constructMinimalSsa .insertion whileCfg headerDfg with
  | error e => rw [h] at heval; cases heval
  | ok ssa =>
    refine ⟨ssa, rfl, fun hpres => ?_⟩
    obtain ⟨block, inst, hl, hinst, heq⟩ := hpres [0, 1, 2] 1 whileCfg_walk 0 "x"
      ⟨⟨"x", .update, 2, 0⟩, by decide +kernel, .inl ⟨rfl, rfl⟩⟩
    rw [h] at heval
    simp only [Except.toOption, Option.bind_some, hl, hinst, Option.map_some, Option.some_inj,
      Prod.mk.injEq] at heval
    rw [heval.1, heval.2] at heq
    cases heq

end TldrCode.Ssa
