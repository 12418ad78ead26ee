import TldrCode.Alias.Constraints
import TldrCode.Ssa.Pruning

/-!
# Extraction from constructed SSA

`fill_phi_sources` writes the undefined name 0 for a variable that has no name where a predecessor
ends, and the extraction looks that name up like any other. `constructMinimalSsa_extract_iff` says
for which graphs no phi function of minimal SSA has such a source.
-/

namespace TldrCode.Alias

open TldrCode.Graph TldrCode.Ssa

variable {ctx : SsaRenamingContext} {cfg : CfgInfo} {dfg : DfgInfo}
  {placements : Nat → List String} {ssa : SsaFunction} {N : Naming} {block : SsaBlock} {v : String}
  {b p : Nat}

namespace ConstructedSsa

variable (h : SsaShape ctx placements ssa N)
include h

theorem mem_names (hc : ctx.Visited b) {id : Nat} (hn : NamedIn ctx placements N b v id) :
    id ∈ ssa.ssaNames.map (·.id) := by
  obtain ⟨i, hi, rfl⟩ := hn
  obtain ⟨name, hname, hid, -, -⟩ := h.named b hc i v hi
  exact hid ▸ List.mem_map_of_mem hname

theorem zero_notMem : 0 ∉ ssa.ssaNames.map (·.id) := by
  rw [h.names, List.mem_range'_1]
  omega

/-- A variable has a name where a block ends if a dominator of the block names it. -/
theorem exit_mem_names_iff (hp : ctx.Visited p) :
    (N.exit p v).getD 0 ∈ ssa.ssaNames.map (·.id) ↔
      ∃ x, ctx.cfg.Dominates x p ∧ v ∈ blockVars ctx placements x := by
  rw [h.exit_visited p hp]
  constructor
  · intro hmem
    cases hout : N.out ctx placements p v with
    | none =>
      rw [hout] at hmem
      exact absurd hmem (zero_notMem h)
    | some id =>
      obtain ⟨d, -, hd, i, hi, -⟩ := h.out_spec hp hout
      exact ⟨d, hd, List.mem_of_getElem? hi⟩
  · rintro ⟨x, hx, hv⟩
    have hsome : ∃ id, N.out ctx placements p v = some id := by
      induction hp with
      | self hb =>
        rw [dom_root_iff.1 hx] at hv
        obtain ⟨i, -, hi⟩ := namesFrom_of_mem hv
        exact ⟨_, hi _ _⟩
      | @child c d hd hi hr hc ih =>
        by_cases hvc : v ∈ blockVars ctx placements c
        · obtain ⟨i, -, hi⟩ := namesFrom_of_mem hvc
          exact ⟨_, hi _ _⟩
        · have hxc : x ≠ c := fun he => hvc (he ▸ hv)
          rw [Naming.out_of_notMem hvc, h.cur_child c d (.child hd hi hr hc) hd hi]
          exact ih (hi.2 x ⟨hx, hxc⟩)
    obtain ⟨id, hid⟩ := hsome
    obtain ⟨d, hd, -, hn⟩ := h.out_spec hp hid
    rw [hid]
    exact mem_names h hd hn

/-- **When the extraction succeeds** on a constructed function: every predecessor of a block with a
phi function for `v` is reachable, and a dominator of it names `v`. -/
theorem extract_iff (hcfg : ctx.cfg.WellFormed) (htree : IsDominatorTree ctx.cfg ctx.domTree)
    (hp : PlacedWhereLive ctx.cfg ctx.dfg placements) (tables : CharTables) :
    (∃ extractor, ConstraintExtractor.extractFromSsa tables ssa = .ok extractor) ↔
      ∀ v b, v ∈ placements b → ∀ p, ctx.cfg.Edge p b → ctx.cfg.Reachable p ∧
        ∃ x, ctx.cfg.Dominates x p ∧ (DefinesIn ctx.cfg ctx.dfg v x ∨ v ∈ placements x) := by
  have hsource : ∀ v p, (N.exit p v).getD 0 ∈ ssa.ssaNames.map (·.id) ↔ ctx.cfg.Reachable p ∧
      ∃ x, ctx.cfg.Dominates x p ∧ (DefinesIn ctx.cfg ctx.dfg v x ∨ v ∈ placements x) := by
    intro v p
    by_cases hv : ctx.Visited p
    · rw [exit_mem_names_iff h hv]
      simp only [mem_blockVars, hv.reachable (.refl _), true_and]
    · refine iff_of_false ?_ fun hr => hv (visited_of_reachable hcfg htree hr.1)
      rw [h.exit_other p hv]
      exact zero_notMem h
  rw [ConstraintExtractor.extractFromSsa_ok_iff]
  constructor
  · intro hok v b hvb p he
    have hb : ctx.Visited b :=
      visited_of_reachable hcfg htree ((hp v b).1 hvb).reachable
    obtain ⟨block, -, rfl, hmem, hren⟩ := h.lookup hb
    obtain ⟨i, hi⟩ := List.mem_iff_getElem?.1 hvb
    obtain ⟨phi, hphi, -, hvar⟩ := hren.exists_phi hi
    have hsources := h.sources block hmem phi hphi
    rw [← hsource, ← hvar]
    refine ((hok block hmem).1 phi hphi).2 ⟨p, (N.exit p phi.var).getD 0⟩ ?_
    rw [hsources]
    exact List.mem_map_of_mem (CfgInfo.mem_predecessors.2 he)
  · intro hall block hmem
    obtain ⟨hv, hren⟩ | ⟨-, hinst, hphi⟩ := renamed_or_empty h hcfg htree hp hmem
    · have htargets : ∀ id ∈ block.targets, id ∈ ssa.ssaNames.map (·.id) := by
        intro id hid
        rw [hren.targets_eq, List.mem_range'_1] at hid
        obtain ⟨i, rfl⟩ := Nat.exists_eq_add_of_le hid.1
        have hi : i < (blockVars ctx placements block.id).length := by omega
        exact mem_names h hv ⟨i, List.getElem?_eq_getElem hi, rfl⟩
      refine ⟨fun phi hphi => ⟨htargets _ ?_, fun source hs => ?_⟩, fun inst hi _ id hid => ?_⟩
      · exact List.mem_append_left _ (List.mem_map_of_mem hphi)
      · rw [h.sources block hmem phi hphi] at hs
        obtain ⟨p, hpred, rfl⟩ := List.mem_map.1 hs
        have hvb : phi.var ∈ placements block.id := by
          have hphis := congrArg (List.map Prod.snd) hren.phis
          rw [List.map_map, List.map_map] at hphis
          have hvar : phi.var ∈ block.phiFunctions.map fun phi => phi.var :=
            List.mem_map_of_mem hphi
          have hfst : ∀ l : List (String × Nat), l.map (Prod.snd ∘ Prod.swap) = l.map Prod.fst :=
            fun l => rfl
          rw [hfst, List.zipIdx_map_fst] at hphis
          exact hphis ▸ hvar
        exact (hsource _ _).2 (hall _ _ hvb p (CfgInfo.mem_predecessors.1 hpred))
      · exact htargets id (List.mem_append_right _ (List.mem_filterMap.2 ⟨inst, hi, hid⟩))
    · rw [hinst, hphi]
      simp

end ConstructedSsa

/-- **Extracting from minimal SSA** succeeds exactly if every predecessor of a block with a phi
function for `v` is reachable and dominated by a block that defines `v` or has a phi function
for it. -/
theorem constructMinimalSsa_extract_iff {ord : HashOrder} (hcfg : cfg.WellFormed)
    (hok : constructMinimalSsa ord cfg dfg = .ok ssa) (tables : CharTables) :
    (∃ extractor, ConstraintExtractor.extractFromSsa tables ssa = .ok extractor) ↔
      ∀ v b, PhiAt cfg dfg v b → ∀ p, cfg.Edge p b → cfg.Reachable p ∧
        ∃ x, cfg.Dominates x p ∧ (DefinesIn cfg dfg v x ∨ PhiAt cfg dfg v x) := by
  obtain ⟨tree, df, htree, hdf, rfl⟩ := construct_ok hok
  have ht := isDominatorTree_of_ok htree
  obtain ⟨N, hN⟩ := @buildSsa_shape ⟨cfg, dfg, tree, []⟩ ht .minimal
    (placePhiFunctions ord df cfg.blocks.length (collectVariableDefinitions cfg dfg))
  have hphi := fun v b => (mem_placePhiFunctions ord dfg ht hdf b).2 v
  have hp : PlacedWhereLive cfg dfg (placePhiFunctions ord df cfg.blocks.length
      (collectVariableDefinitions cfg dfg)) := fun v b => ⟨(hphi v b).1, fun _ => (hphi v b).2⟩
  have h := ConstructedSsa.extract_iff hN hcfg ht hp tables
  simp only [hphi] at h
  exact h

/-- `if c: x = 1` and then a join. -/
def branchCfg : CfgInfo where
  function := "branch"
  blocks := [⟨0, (1, 1)⟩, ⟨1, (2, 2)⟩, ⟨2, (3, 3)⟩]
  edges := [⟨0, 1⟩, ⟨0, 2⟩, ⟨1, 2⟩]
  entryBlock := 0
  exitBlocks := [2]

def branchDfg : DfgInfo where
  refs := [⟨"x", .definition, 2, 4⟩]

theorem branchCfg_wellFormed : branchCfg.WellFormed :=
  ⟨by decide, by decide, by decide, by decide⟩

theorem constructMinimalSsa_extract_iff_branch :
    ∃ ssa, constructMinimalSsa .insertion branchCfg branchDfg = .ok ssa ∧
      ((∃ extractor, ConstraintExtractor.extractFromSsa .ascii ssa = .ok extractor) ↔
        ∀ v b, PhiAt branchCfg branchDfg v b → ∀ p, branchCfg.Edge p b →
          branchCfg.Reachable p ∧ ∃ x, branchCfg.Dominates x p ∧
            (DefinesIn branchCfg branchDfg v x ∨ PhiAt branchCfg branchDfg v x)) := by
  obtain ⟨ssa, hok⟩ := exists_ok_of_isSome
    (show (constructMinimalSsa .insertion branchCfg branchDfg).toOption.isSome by decide +kernel)
  exact ⟨ssa, hok, constructMinimalSsa_extract_iff branchCfg_wellFormed hok .ascii⟩

/-- The phi function at the join has the undefined name from the block before the branch. -/
theorem constructMinimalSsa_extract_fails :
    ∃ ssa, constructMinimalSsa .insertion branchCfg branchDfg = .ok ssa ∧
      ¬ ∃ extractor, ConstraintExtractor.extractFromSsa .ascii ssa = .ok extractor := by
  have hfail : (constructMinimalSsa .insertion branchCfg branchDfg).toOption.map
      (fun ssa => (ConstraintExtractor.extractFromSsa .ascii ssa).toOption.isSome) =
        some false := by
    decide +kernel
  obtain ⟨ssa, hok, hnone⟩ := exists_ok_of_map hfail
  refine ⟨ssa, hok, fun ⟨extractor, he⟩ => ?_⟩
  rw [he] at hnone
  cases hnone

end TldrCode.Alias
