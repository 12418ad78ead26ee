import TldrCode.Ssa.Rename

/-!
# What a construction returns

`SsaShape` describes the result of `buildSsa` block by block. A block that the walk visits gets
the names from `start` on for its phi functions and its definitions, in order; it starts with the
names `cur`, which are those its immediate dominator ends with. `buildSsa_shape` derives it from
the walk; everything later reads the shape and not the walk.
-/

namespace TldrCode.Ssa

open TldrCode.Graph

variable {ctx : SsaRenamingContext} {placements : Nat → List String} {ssa : SsaFunction}
  {b c d i : Nat} {v : String} {block : SsaBlock}

/-! ## Names of blocks -/

/-- The names of a construction: the first one each block creates, the ones current where it
starts, and the ones recorded at its exit. -/
structure Naming where
  start : Nat → Nat
  cur : Nat → String → Option Nat
  exit : Nat → String → Option Nat

/-- The variables that a block names: those of its phi functions and of its definitions. -/
def blockVars (ctx : SsaRenamingContext) (placements : Nat → List String) (c : Nat) :
    List String :=
  placements c ++ (blockDefs ctx.cfg ctx.dfg c).map (·.name)

namespace Naming

/-- The names current in `c` after its phi functions and its first `k` definitions. -/
def after (N : Naming) (ctx : SsaRenamingContext) (placements : Nat → List String) (c k : Nat) :
    String → Option Nat :=
  namesFrom (N.cur c) (N.start c) (placements c ++
    ((blockDefs ctx.cfg ctx.dfg c).take k).map (·.name))

/-- The names current where `c` ends. -/
def out (N : Naming) (ctx : SsaRenamingContext) (placements : Nat → List String) (c : Nat) :
    String → Option Nat :=
  namesFrom (N.cur c) (N.start c) (blockVars ctx placements c)

/-- The first name after those of `c`. -/
def stop (N : Naming) (ctx : SsaRenamingContext) (placements : Nat → List String) (c : Nat) : Nat :=
  N.start c + (blockVars ctx placements c).length

end Naming

/-- The sources of a phi function for `v` in a block with the predecessors `preds`. -/
def Naming.sources (N : Naming) (preds : List Nat) (v : String) : List PhiSource :=
  preds.map fun p => { block := p, name := (N.exit p v).getD 0 }

abbrev SsaRenamingContext.Visited (ctx : SsaRenamingContext) : Nat → Prop :=
  Ssa.Visited ctx.cfg ctx.cfg.blockIds ctx.cfg.entryBlock

/-- The block `block` is renamed by `N`. -/
structure IsRenamed (ctx : SsaRenamingContext) (placements : Nat → List String) (N : Naming)
    (block : SsaBlock) : Prop where
  phis : block.phiFunctions.map (fun phi => (phi.target, phi.var)) =
    ((placements block.id).zipIdx (N.start block.id)).map Prod.swap
  instructions : block.instructions = instructionsFrom ctx block.id
    (N.after ctx placements block.id 0) (N.start block.id + (placements block.id).length)
    (blockDefs ctx.cfg ctx.dfg block.id)

/-- What `buildSsa` returns. -/
structure SsaShape (ctx : SsaRenamingContext) (placements : Nat → List String)
    (ssa : SsaFunction) (N : Naming) : Prop where
  ids : ssa.blocks.map (·.id) = ctx.cfg.blockIds
  cur_entry : ctx.Visited ctx.cfg.entryBlock → ∀ v, N.cur ctx.cfg.entryBlock v = none
  cur_child : ∀ c d, ctx.Visited c → ctx.Visited d →
    IDom ctx.cfg.Edge ctx.cfg.entryBlock d c → N.cur c = N.out ctx placements d
  exit_visited : ∀ c, ctx.Visited c → N.exit c = N.out ctx placements c
  exit_other : ∀ c, ¬ ctx.Visited c → ∀ v, N.exit c v = none
  start_pos : ∀ c, ctx.Visited c → 1 ≤ N.start c
  disjoint : ∀ c d, ctx.Visited c → ctx.Visited d → c ≠ d →
    N.stop ctx placements c ≤ N.start d ∨ N.stop ctx placements d ≤ N.start c
  cover : ∀ i, 1 ≤ i → i ≤ ssa.ssaNames.length → ∃ c, ctx.Visited c ∧ N.start c ≤ i ∧
    i < N.stop ctx placements c
  names : ssa.ssaNames.map (·.id) = List.range' 1 ssa.ssaNames.length
  named : ∀ c, ctx.Visited c → ∀ i v, (blockVars ctx placements c)[i]? = some v →
    ∃ name ∈ ssa.ssaNames, name.id = N.start c + i ∧ name.var = v ∧ name.defBlock = some c
  visited : ∀ c, ctx.Visited c → ∃ block,
    ssa.blocks[ctx.cfg.blockIds.findIdx (· == c)]? = some block ∧ block.id = c ∧
      IsRenamed ctx placements N block
  others : ∀ i block, ssa.blocks[i]? = some block →
    ctx.Visited block.id ∧ i = ctx.cfg.blockIds.findIdx (· == block.id) ∨
      block.instructions = [] ∧ block.phiFunctions.map (·.var) = placements block.id ∧
        ∀ phi ∈ block.phiFunctions, phi.target = 0
  predecessors : ∀ block ∈ ssa.blocks, block.predecessors = ctx.cfg.predecessors block.id
  sources : ∀ block ∈ ssa.blocks, ∀ phi ∈ block.phiFunctions,
    phi.sources = N.sources (ctx.cfg.predecessors block.id) phi.var

theorem map_id_buildInitialSsaBlocks (cfg : CfgInfo) (placements : Nat → List String) :
    (buildInitialSsaBlocks cfg placements).map (·.id) = cfg.blockIds := by
  simp [buildInitialSsaBlocks, CfgInfo.blockIds, Function.comp_def]

theorem mem_buildInitialSsaBlocks {cfg : CfgInfo}
    (h : block ∈ buildInitialSsaBlocks cfg placements) :
    block.instructions = [] ∧ block.predecessors = cfg.predecessors block.id ∧
      block.phiFunctions = (placements block.id).map fun var =>
        { target := 0, var, sources := [], line := block.lines.1 } := by
  obtain ⟨b, -, rfl⟩ := List.mem_map.1 h
  exact ⟨rfl, rfl, rfl⟩

/-! ## From the walk to the shape -/

section Run

variable {σ : List SsaBlock × RenamingState} {run : Nat → SsaBlock × RenamingState}

def namingOf (σ : List SsaBlock × RenamingState) (run : Nat → SsaBlock × RenamingState) :
    Naming where
  start c := (run c).2.nextId
  cur c := (run c).2.current
  exit c v := σ.2.blockExitVersions v c

variable (hrun : RenameStep ctx ctx.Visited (buildInitialSsaBlocks ctx.cfg placements, .new) σ run)
include hrun

theorem run_initial (hc : ctx.Visited c) : (run c).1.id = c ∧ (run c).1.instructions = [] ∧
    (run c).1.phiFunctions.map (·.var) = placements c ∧
    namedVars ctx (run c).1 = blockVars ctx placements c := by
  obtain ⟨hm, hid⟩ := lookupBlock_id (hrun.initial c hc)
  obtain ⟨hi, -, hp⟩ := mem_buildInitialSsaBlocks hm
  have hp' : (run c).1.phiFunctions.map (·.var) = placements c := by
    rw [hp, hid, List.map_map]
    exact List.map_id _
  exact ⟨hid, hi, hp', by rw [namedVars, hp', hid, blockVars]⟩

theorem run_stop (hc : ctx.Visited c) : (namingOf σ run).stop ctx placements c =
    (renameBlock ctx (run c).1 (run c).2).state.nextId := by
  rw [(renameBlock_spec ctx _ _).nextId, (run_initial hrun hc).2.2.2]
  rfl

theorem run_out (hc : ctx.Visited c) : (namingOf σ run).out ctx placements c =
    (renameBlock ctx (run c).1 (run c).2).state.current := by
  rw [(renameBlock_spec ctx _ _).current, (run_initial hrun hc).2.2.2]
  rfl

theorem run_block (hi : σ.1[i]? = some block) :
    (buildInitialSsaBlocks ctx.cfg placements)[i]? = some block ∨
      ctx.Visited block.id ∧ i = ctx.cfg.blockIds.findIdx (· == block.id) ∧
        block = (renameBlock ctx (run block.id).1 (run block.id).2).block := by
  refine (hrun.others i block hi).imp_right fun ⟨hv, hidx⟩ => ⟨hv, ?_, ?_⟩
  · rw [hidx, ← map_id_buildInitialSsaBlocks ctx.cfg placements, List.findIdx_map]
    rfl
  · have hdone := hrun.done block.id hv
    rw [← getElem?_findIdx_id, findIdx_id_congr hrun.ids, ← hidx, hi] at hdone
    exact Option.some_inj.1 hdone

/-- No phi function has a source yet, and no block has lost its predecessors. -/
theorem run_unfilled (hi : σ.1[i]? = some block) :
    block.predecessors = ctx.cfg.predecessors block.id ∧
      ∀ phi ∈ block.phiFunctions, phi.sources = [] := by
  have hinit : ∀ {x : SsaBlock}, x ∈ buildInitialSsaBlocks ctx.cfg placements →
      x.predecessors = ctx.cfg.predecessors x.id ∧ ∀ phi ∈ x.phiFunctions, phi.sources = [] := by
    intro x hx
    obtain ⟨-, hp, hphi⟩ := mem_buildInitialSsaBlocks hx
    refine ⟨hp, fun phi hm => ?_⟩
    rw [hphi] at hm
    obtain ⟨_, -, rfl⟩ := List.mem_map.1 hm
    rfl
  rcases run_block hrun hi with hi | ⟨hv, -, heq⟩
  · exact hinit (List.mem_of_getElem? hi)
  · obtain ⟨hm, hid⟩ := lookupBlock_id (hrun.initial _ hv)
    obtain ⟨hp, hs⟩ := hinit hm
    have hcontent := (renameBlock_spec ctx (run block.id).1 (run block.id).2).content
    rw [heq, hcontent]
    refine ⟨hp.trans (by rw [hid]), fun phi hphi => ?_⟩
    obtain ⟨⟨phi', n⟩, hm', rfl⟩ := List.mem_map.1 hphi
    exact hs phi' (List.fst_mem_of_mem_zipIdx hm')

theorem run_isRenamed (hc : ctx.Visited c) {fill : PhiFunction → List PhiSource}
    (hf : block = { (renameBlock ctx (run c).1 (run c).2).block with
      phiFunctions := (renameBlock ctx (run c).1 (run c).2).block.phiFunctions.map
        fun phi : PhiFunction => { phi with sources := fill phi } }) :
    block.id = c ∧ IsRenamed ctx placements (namingOf σ run) block := by
  obtain ⟨hid, hi, hp, -⟩ := run_initial hrun hc
  have hcontent := (renameBlock_spec ctx (run c).1 (run c).2).content
  have hbid : block.id = c := by rw [hf, hcontent]; exact hid
  have hlen : (run c).1.phiFunctions.length = (placements c).length := by
    rw [← hp, List.length_map]
  refine ⟨hbid, ?_, ?_⟩
  · rw [hbid, hf, hcontent, ← hp, List.zipIdx_map]
    simp [Function.comp_def, namingOf]
  · rw [hbid, hf, hcontent, hid]
    simp only [hi, List.nil_append, hlen, hp, Naming.after, List.take_zero, List.map_nil,
      List.append_nil, namingOf]

theorem RenameStep.shape (hok : NamesOk σ.2) {ssa : SsaFunction}
    (hblocks : ssa.blocks = fillPhiSources σ.1 σ.2) (hnames : ssa.ssaNames = σ.2.names) :
    SsaShape ctx placements ssa (namingOf σ run) := by
  have hget : ∀ {i : Nat} {block : SsaBlock}, ssa.blocks[i]? = some block → ∃ x : SsaBlock,
    σ.1[i]? = some x ∧
      block = { x with phiFunctions := x.phiFunctions.map fun phi : PhiFunction =>
        { phi with sources := (namingOf σ run).sources (ctx.cfg.predecessors x.id) phi.var } } := by
    intro i block hb
    rw [hblocks, fillPhiSources, List.getElem?_map, Option.map_eq_some_iff] at hb
    obtain ⟨x, hx, rfl⟩ := hb
    obtain ⟨hp, hs⟩ := run_unfilled hrun hx
    refine ⟨x, hx, ?_⟩
    congr 1
    refine List.map_congr_left fun phi hphi => ?_
    rw [hs phi hphi, List.nil_append, hp]
    rfl
  have hmem : ∀ block ∈ ssa.blocks, ∃ x ∈ σ.1, block.id = x.id ∧
      block.predecessors = ctx.cfg.predecessors block.id ∧ ∀ phi ∈ block.phiFunctions,
        phi.sources = (namingOf σ run).sources (ctx.cfg.predecessors block.id) phi.var := by
    intro block hb
    obtain ⟨i, hi⟩ := List.mem_iff_getElem?.1 hb
    obtain ⟨x, hx, rfl⟩ := hget hi
    refine ⟨x, List.mem_of_getElem? hx, rfl, (run_unfilled hrun hx).1, fun phi hphi => ?_⟩
    obtain ⟨phi', -, rfl⟩ := List.mem_map.1 hphi
    rfl
  have hids : ssa.blocks.map (·.id) = ctx.cfg.blockIds := by
    rw [hblocks, fillPhiSources, List.map_map, ← map_id_buildInitialSsaBlocks ctx.cfg placements,
      ← hrun.ids]
    rfl
  exact {
    ids := hids
    cur_entry := fun hv v => by
      have := hrun.root _ hv fun d _ hi => not_sdom_root hi.sdom
      exact congrFun this v
    cur_child := fun c d hc hd hi => (hrun.child c d hc hd hi).trans (run_out hrun hd).symm
    exit_visited := fun c hc => by
      funext v
      refine (hrun.exits c hc v).trans ?_
      rw [run_out hrun hc]
      exact Option.or_none
    exit_other := fun c hc v => (hrun.frame c hc).2 v
    start_pos := fun c hc => hrun.lower c hc
    disjoint := fun c d hc hd hne => by
      rw [run_stop hrun hc, run_stop hrun hd]
      exact hrun.disjoint c d hc hd hne
    cover := fun i h₁ h₂ => by
      obtain ⟨c, hc, hlo, hhi⟩ := hrun.cover i h₁ (by rw [hok.2, ← hnames]; omega)
      exact ⟨c, hc, hlo, by rw [run_stop hrun hc]; exact hhi⟩
    names := by rw [hnames]; exact hok.1
    named := fun c hc i v hi => by
      obtain ⟨new, hnew, hmap⟩ := (renameBlock_spec ctx (run c).1 (run c).2).names
      rw [(run_initial hrun hc).2.2.2, (run_initial hrun hc).1] at hmap
      have hm : (((run c).2.nextId + i, v, some c) : Nat × String × Option Nat) ∈
          new.map fun name => (name.id, name.var, name.defBlock) := by
        rw [hmap]
        refine List.mem_map.2 ⟨(v, (run c).2.nextId + i), ?_, rfl⟩
        exact List.mem_iff_getElem?.2 ⟨i, by rw [List.getElem?_zipIdx, hi]; rfl⟩
      obtain ⟨name, hname, heq⟩ := List.mem_map.1 hm
      simp only [Prod.mk.injEq] at heq
      refine ⟨name, ?_, heq⟩
      rw [hnames]
      exact (hrun.created c hc).subset (hnew ▸ List.mem_append_right _ hname)
    visited := fun c hc => by
      have hdone := hrun.done c hc
      rw [← getElem?_findIdx_id, findIdx_id_congr hrun.ids] at hdone
      have hidx : (buildInitialSsaBlocks ctx.cfg placements).findIdx (·.id == c) =
          ctx.cfg.blockIds.findIdx (· == c) := by
        rw [← map_id_buildInitialSsaBlocks ctx.cfg placements, List.findIdx_map]
        rfl
      obtain ⟨x, hx⟩ : ∃ x, x = (renameBlock ctx (run c).1 (run c).2).block := ⟨_, rfl⟩
      rw [hidx, ← hx] at hdone
      refine ⟨_, by rw [hblocks, fillPhiSources, List.getElem?_map, hdone]; rfl, ?_⟩
      exact run_isRenamed hrun hc (by rw [hx])
    others := fun i block hi => by
      obtain ⟨x, hx, rfl⟩ := hget hi
      refine (run_block hrun hx).symm.imp (fun h => ⟨h.1, h.2.1⟩) fun hinit => ?_
      obtain ⟨h₁, -, h₃⟩ := mem_buildInitialSsaBlocks (List.mem_of_getElem? hinit)
      refine ⟨h₁, ?_, fun phi hphi => ?_⟩
      · rw [h₃, List.map_map, List.map_map]
        exact List.map_id _
      obtain ⟨phi', hphi', rfl⟩ := List.mem_map.1 hphi
      rw [h₃] at hphi'
      obtain ⟨_, -, rfl⟩ := List.mem_map.1 hphi'
      rfl
    predecessors := fun block hb => (hmem block hb).choose_spec.2.2.1
    sources := fun block hb => (hmem block hb).choose_spec.2.2.2 }

end Run

/-- **What `buildSsa` returns** on the dominator tree. -/
theorem buildSsa_shape (h : IsDominatorTree ctx.cfg ctx.domTree) (ssaType : SsaType)
    (placements : Nat → List String) :
    ∃ N, SsaShape ctx placements (buildSsa ctx ssaType placements) N := by
  obtain ⟨run, hrun⟩ := rename_spec h (ctx.domTree.nodes.length + 1) ctx.cfg.entryBlock
    (buildInitialSsaBlocks ctx.cfg placements, .new) (.refl _) (by omega)
  rw [map_id_buildInitialSsaBlocks] at hrun
  exact ⟨_, hrun.shape (hrun.namesOk ⟨rfl, rfl⟩) rfl rfl⟩

end TldrCode.Ssa
