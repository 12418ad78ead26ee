import TldrCode.Ssa.DeadCode

/-!
# Definitions that are used

A definition that gets to an operand along a path without lost steps is linked to it: its name is
the operand, or gets there through phi functions (`SsaShape.feeds_of_walk`). So it is no dead
store, and dead code only together with the definition the operand is for
(`constructSsa_used_not_dead`).
-/

namespace TldrCode.Ssa

open TldrCode.Graph

variable {cfg : CfgInfo} {dfg : DfgInfo} {ctx : SsaRenamingContext} {v : String}
  {placements : Nat → List String} {ssa : SsaFunction} {N : Naming} {E : Nat → Nat → Prop}
  {ssaType : SsaType} {b c p j k u : Nat} {l : List Nat} {block : SsaBlock}

/-! ## Paths from definitions to uses -/

/-- The definition number `k` of `b`, of the variable `v`, gets to the definition number `j` of `c`
by steps of `E`, without another definition of `v` in between. -/
inductive ReachesUse (cfg : CfgInfo) (dfg : DfgInfo) (E : Nat → Nat → Prop) (v : String)
    (b k c j : Nat) : Prop
  | within (hc : c = b) (hk : k < j)
      (hbetween : v ∉ (((blockDefs cfg dfg b).take j).drop (k + 1)).map (·.name))
  | along (l : List Nat) (w : Walk E b c (b :: l ++ [c]))
      (hrest : v ∉ ((blockDefs cfg dfg b).drop (k + 1)).map (·.name))
      (hbetween : ∀ x ∈ l, ¬ DefinesIn cfg dfg v x)
      (hbefore : v ∉ ((blockDefs cfg dfg c).take j).map (·.name))

def PhiPlaced (cfg : CfgInfo) (dfg : DfgInfo) : SsaType → String → Nat → Prop
  | .minimal, v, b => PhiAt cfg dfg v b
  | .semiPruned, v, b => PhiAt cfg dfg v b ∧ NonLocal cfg dfg v
  | .pruned, v, b => PhiAt cfg dfg v b ∧ LiveOnLines cfg dfg.refs v b

/-- A step that does not lose `v`. -/
def KeptEdge (cfg : CfgInfo) (dfg : DfgInfo) (ssaType : SsaType) (v : String) (p b : Nat) : Prop :=
  cfg.Edge p b ∧ ¬ Lost cfg dfg (PhiPlaced cfg dfg ssaType) v p b

/-- The instruction number `k` of the block `b` defines `id`. -/
def SsaFunction.DefinesAt (ssa : SsaFunction) (b k id : Nat) : Prop :=
  ∃ block ∈ ssa.blocks, block.id = b ∧ ∃ inst, block.instructions[k]? = some inst ∧
    inst.target = some id

instance (ssa : SsaFunction) (b k id : Nat) : Decidable (ssa.DefinesAt b k id) :=
  inferInstanceAs (Decidable (∃ block ∈ ssa.blocks, block.id = b ∧
    ∃ inst ∈ block.instructions[k]?, inst.target = some id))

/-- A name gets through phi functions to another. -/
abbrev SsaFunction.Feeds (ssa : SsaFunction) : Nat → Nat → Prop :=
  Relation.ReflTransGen fun u t => (u, some t) ∈ ssa.uses

theorem mem_uses_of_instruction {inst : SsaInstruction} (hb : block ∈ ssa.blocks)
    (hi : inst ∈ block.instructions) (hu : u ∈ inst.uses) : (u, inst.target) ∈ ssa.uses := by
  refine List.mem_flatMap.2 ⟨block, hb, List.mem_append_left _ ?_⟩
  exact List.mem_flatMap.2 ⟨inst, hi, List.mem_map.2 ⟨u, hu, rfl⟩⟩

theorem mem_uses_of_phi {phi : PhiFunction} {source : PhiSource} (hb : block ∈ ssa.blocks)
    (hphi : phi ∈ block.phiFunctions) (hs : source ∈ phi.sources) :
    (source.name, some phi.target) ∈ ssa.uses := by
  refine List.mem_flatMap.2 ⟨block, hb, List.mem_append_right _ ?_⟩
  exact List.mem_flatMap.2 ⟨phi, hphi, List.mem_map.2 ⟨source, hs, rfl⟩⟩

theorem SsaFunction.Feeds.dead {id : Nat} (h : ssa.Feeds id u) (hdead : id ∈ findDeadCode ssa) :
    u ∈ findDeadCode ssa := by
  induction h with
  | refl => exact hdead
  | tail _ huse ih =>
    obtain ⟨t, ht, heq⟩ := findDeadCode_closed huse ih
    cases heq
    exact ht

/-- The name of `v` after its definition number `k`, as long as no other one follows. -/
theorem Naming.after_definition {r : VarRef} (hd : (blockDefs ctx.cfg ctx.dfg c)[k]? = some r)
    (hj : k < j)
    (hbetween : r.name ∉ (((blockDefs ctx.cfg ctx.dfg c).take j).drop (k + 1)).map (·.name)) :
    N.after ctx placements c j r.name = some (N.start c + (placements c).length + k) := by
  have hsplit : (blockDefs ctx.cfg ctx.dfg c).take j = (blockDefs ctx.cfg ctx.dfg c).take (k + 1) ++
      ((blockDefs ctx.cfg ctx.dfg c).take j).drop (k + 1) := by
    have := List.take_append_drop (k + 1) ((blockDefs ctx.cfg ctx.dfg c).take j)
    rwa [List.take_take, Nat.min_eq_left hj, eq_comm] at this
  have hafter : N.after ctx placements c (k + 1) r.name =
      some (N.start c + (placements c).length + k) := by
    rw [Naming.after_succ hd, Function.update_self]
  rw [← hafter, Naming.after, hsplit, List.map_append, ← List.append_assoc, namesFrom_append]
  exact namesFrom_of_notMem hbetween

namespace SsaShape

variable (h : SsaShape ctx placements ssa N)
include h

section

variable (hcfg : ctx.cfg.WellFormed) (htree : IsDominatorTree ctx.cfg ctx.domTree)
include hcfg htree

/-- A step that is not lost hands the name of `v` over, to the block or to its phi function. -/
theorem feeds_of_edge (hp : ctx.Visited p) (he : ctx.cfg.Edge p b)
    (hlost : ¬ Lost ctx.cfg ctx.dfg (fun v b => v ∈ placements b) v p b)
    (hu : N.out ctx placements p v = some u) :
    ctx.Visited b ∧ ∃ u', N.after ctx placements b 0 v = some u' ∧ ssa.Feeds u u' := by
  have hb : ctx.Visited b :=
    visited_of_reachable hcfg htree ((hp.reachable (.refl _)).tail he)
  refine ⟨hb, ?_⟩
  by_cases hphi : v ∈ placements b
  · obtain ⟨i, hi, hafter⟩ := N.after_zero_of_mem ctx hphi
    obtain ⟨block, hblock, hid, hr⟩ := h.visited b hb
    have hmem := List.mem_of_getElem? hblock
    subst hid
    obtain ⟨phi, hm, ht, hv⟩ := hr.exists_phi hi
    refine ⟨_, hafter, .single ?_⟩
    have hsource : (⟨p, u⟩ : PhiSource) ∈ phi.sources := by
      rw [h.sources block hmem phi hm, Naming.sources, List.mem_map]
      refine ⟨p, CfgInfo.mem_predecessors.2 he, ?_⟩
      rw [hv, h.exit_visited p hp, hu, Option.getD_some]
    exact ht ▸ mem_uses_of_phi hmem hm hsource
  · refine ⟨u, ?_, .refl⟩
    rw [Naming.after_zero_of_notMem hphi, h.cur_eq_out hp hb he hphi hlost, hu]

/-- **Along a path without lost steps** the name of `v` feeds the one current at its end. -/
theorem feeds_of_walk (hE : ∀ p b, E p b →
      ctx.cfg.Edge p b ∧ ¬ Lost ctx.cfg ctx.dfg (fun v b => v ∈ placements b) v p b)
    (hbefore : v ∉ ((blockDefs ctx.cfg ctx.dfg c).take j).map (·.name)) (l : List Nat)
    (hbetween : ∀ x ∈ l, ¬ DefinesIn ctx.cfg ctx.dfg v x) :
    ∀ {p u : Nat}, Walk E p c (p :: l ++ [c]) → ctx.Visited p →
      N.out ctx placements p v = some u →
      ctx.Visited c ∧ ∃ u', N.after ctx placements c j v = some u' ∧ ssa.Feeds u u' := by
  induction l with
  | nil =>
    intro p u w hp hu
    obtain ⟨q, hq, he⟩ := w.exists_last_step (List.cons_ne_nil _ _)
    obtain rfl : q = p := by simpa using hq.last.symm
    obtain ⟨hc, u', hu', hfeeds⟩ := h.feeds_of_edge hcfg htree hp (hE _ _ he).1 (hE _ _ he).2 hu
    exact ⟨hc, u', (Naming.after_of_notMem hbefore).trans hu', hfeeds⟩
  | cons q l ih =>
    intro p u w hp hu
    have wsplit : Walk E p c ([p] ++ q :: (l ++ [c])) := w
    obtain ⟨wp, wq⟩ := Walk.split_iff.1 wsplit
    obtain ⟨p', hp', he⟩ := wp.exists_last_step (List.cons_ne_nil _ _)
    obtain rfl : p' = p := by simpa using hp'.last.symm
    obtain ⟨hq, u₁, hu₁, hfeeds₁⟩ := h.feeds_of_edge hcfg htree hp (hE _ _ he).1 (hE _ _ he).2 hu
    have hout : N.out ctx placements q v = some u₁ := by
      rw [← Naming.after_length, Naming.after_of_notMem, hu₁]
      rw [List.take_length, mem_blockDefs]
      exact hbetween q (by simp)
    obtain ⟨hc, u', hu', hfeeds⟩ := ih (fun x hx => hbetween x (by simp [hx])) wq hq hout
    exact ⟨hc, u', hu', hfeeds₁.trans hfeeds⟩

/-- **From a definition to an operand**: the name of the definition feeds one that the instruction
of the recorded use has as an operand. -/
theorem feeds_operand (hE : ∀ p b, E p b →
      ctx.cfg.Edge p b ∧ ¬ Lost ctx.cfg ctx.dfg (fun v b => v ∈ placements b) v p b)
    (hb : ctx.Visited b) {r : VarRef} (hd : (blockDefs ctx.cfg ctx.dfg b)[k]? = some r)
    (hv : r.name = v) (hreach : ReachesUse ctx.cfg ctx.dfg E v b k c j)
    (huse : RecordsUse ctx.cfg ctx.dfg c j v) :
    ∃ u t, ssa.Feeds (N.start b + (placements b).length + k) u ∧ (u, some t) ∈ ssa.uses ∧
      ssa.DefinesAt c j t := by
  subst hv
  -- the name of the variable before the instruction
  obtain ⟨hc, u, hu, hfeeds⟩ : ctx.Visited c ∧ ∃ u, N.after ctx placements c j r.name = some u ∧
      ssa.Feeds (N.start b + (placements b).length + k) u := by
    cases hreach with
    | within hc hk hbetween =>
      subst hc
      exact ⟨hb, _, Naming.after_definition hd hk hbetween, .refl⟩
    | along l w hrest hbetween hbefore =>
      refine h.feeds_of_walk hcfg htree hE hbefore l hbetween w hb ?_
      rw [← Naming.after_length]
      refine Naming.after_definition hd (List.getElem?_eq_some_iff.1 hd).1 ?_
      rwa [List.take_length]
  -- which is one of its operands
  obtain ⟨d, hdj, hrec⟩ := huse
  obtain ⟨block, hblock, hid, hr⟩ := h.visited c hc
  subst hid
  have hmem := List.mem_of_getElem? hblock
  have hinst := hr.getElem?_instructions j
  rw [hdj, Option.map_some] at hinst
  refine ⟨u, _, hfeeds, mem_uses_of_instruction hmem (List.mem_of_getElem? hinst) ?_, block, hmem,
    rfl, _, hinst, rfl⟩
  refine mem_usesOf.2 ?_
  cases hrec with
  | inl hupd => exact .inl ⟨hupd.1, hupd.2 ▸ hu⟩
  | inr hline =>
    obtain ⟨hne, r', hr', hline, hname, htype, hblk⟩ := hline
    exact .inr ⟨r', hr', hline, hname ▸ hne.symm, htype, hblk, hname ▸ hu⟩

end

end SsaShape

/-! ## The constructions -/

theorem buildSsa_versions (ctx : SsaRenamingContext) (ssaType : SsaType)
    (placements : Nat → List String) :
    ((buildSsa ctx ssaType placements).ssaNames.map fun name =>
      (name.var, name.version)).Nodup := by
  have hnew : VersionsOk .new := ⟨List.nodup_nil, fun _ h => by cases h⟩
  exact (hnew.rename (ctx.domTree.nodes.length + 1) ctx.cfg.entryBlock).nodup

theorem constructSsa_shape {ord : HashOrder} {statements : List String} (hcfg : cfg.WellFormed)
    (hok : constructSsa ord cfg dfg statements ssaType = .ok ssa) :
    (ssa.ssaNames.map fun name => (name.var, name.version)).Nodup ∧
    ∃ tree placements N, IsDominatorTree cfg tree ∧
      SsaShape ⟨cfg, dfg, tree, statements⟩ placements ssa N ∧
      (fun v b => v ∈ placements b) = PhiPlaced cfg dfg ssaType := by
  suffices h : ∃ tree placements, IsDominatorTree cfg tree ∧
      (∀ v b, v ∈ placements b ↔ PhiPlaced cfg dfg ssaType v b) ∧
      ssa = buildSsa ⟨cfg, dfg, tree, statements⟩ ssaType placements by
    obtain ⟨tree, placements, ht, hplaced, rfl⟩ := h
    obtain ⟨N, hN⟩ := @buildSsa_shape ⟨cfg, dfg, tree, statements⟩ ht ssaType placements
    exact ⟨buildSsa_versions _ _ _, tree, placements, N, ht, hN,
      funext₂ fun v b => propext (hplaced v b)⟩
  cases ssaType with
  | minimal =>
    obtain ⟨tree, df, htree, hdf, heq⟩ := construct_ok hok
    have ht := isDominatorTree_of_ok htree
    exact ⟨tree, _, ht, fun v b => (mem_placePhiFunctions ord dfg ht hdf b).2 v, heq⟩
  | semiPruned =>
    obtain ⟨tree, df, htree, hdf, heq⟩ := construct_ok hok
    have ht := isDominatorTree_of_ok htree
    refine ⟨tree, _, ht, fun v b => ?_, heq⟩
    have hmem := (mem_placePhis_filter ord dfg ht hdf (fun _ _ => true)
      (fun v => v ∈ filterNonLocalVariables cfg dfg) b).2 v
    refine hmem.trans (and_congr_right fun _ => ?_)
    rw [decide_eq_true_eq, mem_filterNonLocalVariables]
    exact and_iff_left rfl
  | pruned =>
    obtain ⟨tree, df, htree, hdf, heq⟩ := construct_ok hok
    have ht := isDominatorTree_of_ok htree
    refine ⟨tree, _, ht, fun v b => ?_, heq⟩
    have hmem := (mem_placePhis_filter ord dfg ht hdf
      (computeLiveVariables cfg dfg.refs).isLiveIn (fun _ => true) b).2 v
    rw [List.filter_eq_self.2 fun _ _ => rfl] at hmem
    refine hmem.trans (and_congr_right fun hphi => ?_)
    rw [isLiveIn_iff hcfg (hcfg.reachable_mem hphi.reachable)]
    exact and_iff_right rfl

theorem SsaName.format_inj {name name' : SsaName} (hvar : name.var = name'.var)
    (h : name.format = name'.format) : name.version = name'.version := by
  have hdigits : ∀ n : Nat, Nat.ofDigitChars 10 (toString n).toList 0 = n := fun n => by
    rw [Nat.toString_eq_ofList_toDigits, String.toList_ofList]
    exact Nat.ofDigitChars_toDigits (by decide) (by decide)
  have hlist := congrArg String.toList h
  simp only [SsaName.format, hvar, String.toList_append, List.append_assoc,
    List.append_cancel_left_eq] at hlist
  rw [← hdigits name.version, hlist, hdigits]

theorem findDeadStoresSsa_of_used (hversions : (ssa.ssaNames.map fun name =>
      (name.var, name.version)).Nodup) {name : SsaName} (hname : name ∈ ssa.ssaNames)
    (hused : name.id ∈ usedNames ssa) {store : DeadStore} (hs : store ∈ findDeadStoresSsa ssa)
    (hvar : store.var = name.var) : store.ssaName ≠ name.format := by
  intro hformat
  obtain ⟨name', hmem, rfl⟩ := List.mem_map.1 hs
  obtain ⟨hmem, hdead⟩ := List.mem_filter.1 hmem
  obtain rfl : name' = name := by
    refine List.inj_on_of_nodup_map hversions hmem hname ?_
    exact Prod.ext hvar (SsaName.format_inj hvar hformat)
  simp [hused] at hdead

/-- **A definition that is used is not reported dead**: it is no dead store, and it is dead code
only if the definition that uses it is. -/
theorem constructSsa_used_not_dead {ord : HashOrder} {statements : List String} {id : Nat}
    {r : VarRef} (hcfg : cfg.WellFormed)
    (hok : constructSsa ord cfg dfg statements ssaType = .ok ssa)
    (hd : (blockDefs cfg dfg b)[k]? = some r) (hv : r.name = v) (hid : ssa.DefinesAt b k id)
    (hreach : ReachesUse cfg dfg (KeptEdge cfg dfg ssaType v) v b k c j)
    (huse : RecordsUse cfg dfg c j v) :
    (id ∈ findDeadCode ssa → ∃ t ∈ findDeadCode ssa, ssa.DefinesAt c j t) ∧
    ∃ name ∈ ssa.ssaNames, name.id = id ∧ name.var = v ∧ ∀ store ∈ findDeadStoresSsa ssa,
      store.var = v → store.ssaName ≠ name.format := by
  obtain ⟨hversions, tree, placements, N, ht, hN, hplaced⟩ := constructSsa_shape hcfg hok
  -- the name of the definition
  obtain ⟨block, hblock, rfl, inst, hinst, htarget⟩ := hid
  obtain ⟨i, hi⟩ := List.mem_iff_getElem?.1 hblock
  obtain ⟨hb, -, hr⟩ | ⟨hempty, -⟩ := hN.isRenamed_or hi
  swap
  · simp [hempty] at hinst
  have hget := hr.getElem?_instructions k
  rw [hinst, hd, Option.map_some, Option.some_inj] at hget
  obtain rfl : id = N.start block.id + (placements block.id).length + k := by
    rw [hget] at htarget
    exact (Option.some_inj.1 htarget).symm
  have hvars : (blockVars ⟨cfg, dfg, tree, statements⟩ placements block.id)[
      (placements block.id).length + k]? = some v := by
    rw [blockVars, List.getElem?_append_right (Nat.le_add_right _ _), Nat.add_sub_cancel_left,
      List.getElem?_map, hd, Option.map_some, hv]
  obtain ⟨name, hname, hnid, hnvar, -⟩ := hN.named block.id hb _ v hvars
  obtain ⟨u, t, hfeeds, hused, hdef⟩ := hN.feeds_operand hcfg ht
    (E := KeptEdge cfg dfg ssaType v) (fun p b he => ⟨he.1, hplaced ▸ he.2⟩) hb hd hv hreach huse
  constructor
  · intro hdead
    obtain ⟨t', ht', heq⟩ := findDeadCode_closed hused (hfeeds.dead hdead)
    cases heq
    exact ⟨t, ht', hdef⟩
  · refine ⟨name, hname, by rw [hnid, Nat.add_assoc], hnvar, fun store hs hvar => ?_⟩
    refine findDeadStoresSsa_of_used hversions hname ?_ hs (hvar.trans hnvar.symm)
    rw [hnid, ← Nat.add_assoc]
    cases hfeeds.cases_head with
    | inl heq => exact mem_usedNames (heq ▸ hused)
    | inr hstep =>
      obtain ⟨t', hstep, -⟩ := hstep
      exact mem_usedNames hstep

/-- `x = 1` in one block, and `y = x` in the next. -/
def copyCfg : CfgInfo where
  function := "copy"
  blocks := [⟨0, 1, 1⟩, ⟨1, 2, 2⟩]
  edges := [⟨0, 1⟩]
  entryBlock := 0
  exitBlocks := [1]

def copyDfg : DfgInfo where
  refs := [⟨"x", .definition, 1, 0⟩, ⟨"x", .use, 2, 4⟩, ⟨"y", .definition, 2, 0⟩]

theorem copyDfg_recordsUse : RecordsUse copyCfg copyDfg 1 0 "x" :=
  ⟨⟨"y", .definition, 2, 0⟩, by decide +kernel, .inr ⟨by decide, ⟨"x", .use, 2, 4⟩, by decide, rfl,
    rfl, rfl, by decide⟩⟩

theorem copyDfg_reachesUse {E : Nat → Nat → Prop} (he : E 0 1) :
    ReachesUse copyCfg copyDfg E "x" 0 0 1 0 :=
  .along [] ((Walk.single 1).cons he) (by decide +kernel) (by simp) (by decide +kernel)

theorem constructSsa_used_not_dead_copy : ∃ ssa,
    constructSsa .insertion copyCfg copyDfg [] .minimal = .ok ssa ∧
      (1 ∈ findDeadCode ssa → ∃ t ∈ findDeadCode ssa, ssa.DefinesAt 1 0 t) ∧
      ∃ name ∈ ssa.ssaNames, name.id = 1 ∧ name.var = "x" ∧ ∀ store ∈ findDeadStoresSsa ssa,
        store.var = "x" → store.ssaName ≠ name.format := by
  have hdef : (constructSsa .insertion copyCfg copyDfg [] .minimal).toOption.map (fun ssa =>
      decide (ssa.DefinesAt 0 0 1)) = some true := by
    decide +kernel
  obtain ⟨ssa, hok, hdef⟩ := exists_ok_of_map hdef
  refine ⟨ssa, hok, constructSsa_used_not_dead ⟨by decide, by decide, by decide, by decide⟩ hok
    (r := ⟨"x", .definition, 1, 0⟩) (by decide +kernel) rfl (of_decide_eq_true hdef)
    (copyDfg_reachesUse ⟨⟨⟨0, 1⟩, by decide, rfl, rfl⟩, fun hlost => ?_⟩) copyDfg_recordsUse⟩
  obtain ⟨x, hx, hnot, -⟩ := hlost.named
  obtain rfl : x = 0 := dom_root_iff.1 hx
  exact hnot ⟨.root 1, by decide⟩

/-- A definition whose only user is dead is dead code itself. -/
theorem findDeadCode_cascades : ∃ ssa,
    constructSsa .insertion copyCfg copyDfg [] .minimal = .ok ssa ∧ ssa.DefinesAt 0 0 1 ∧
      ReachesUse copyCfg copyDfg copyCfg.Edge "x" 0 0 1 0 ∧ RecordsUse copyCfg copyDfg 1 0 "x" ∧
        1 ∈ findDeadCode ssa := by
  have hdef : (constructSsa .insertion copyCfg copyDfg [] .minimal).toOption.map (fun ssa =>
      decide (ssa.DefinesAt 0 0 1) && decide (1 ∈ findDeadCode ssa)) = some true := by
    decide +kernel
  obtain ⟨ssa, hok, hdef⟩ := exists_ok_of_map hdef
  rw [Bool.and_eq_true] at hdef
  exact ⟨ssa, hok, of_decide_eq_true hdef.1, copyDfg_reachesUse ⟨⟨0, 1⟩, by decide, rfl, rfl⟩,
    copyDfg_recordsUse, of_decide_eq_true hdef.2⟩

end TldrCode.Ssa
