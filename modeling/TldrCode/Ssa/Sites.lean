import TldrCode.Ssa.StrictForm

/-!
# Where names are defined

In a function that a construction returns the instructions of a block are in the order of their
lines, and a name is the target of one phi function or of one instruction.
-/

namespace TldrCode.Ssa

open TldrCode.Graph

variable {ctx : SsaRenamingContext} {placements : Nat → List String} {ssa : SsaFunction}
  {N : Naming} {block block' : SsaBlock} {inst inst' : SsaInstruction} {j k t : Nat}

theorem exists_shape_of_constructMinimalSsa {ord : HashOrder} {cfg : CfgInfo} {dfg : DfgInfo}
    (h : constructMinimalSsa ord cfg dfg = .ok ssa) :
    ∃ tree placements N, SsaShape ⟨cfg, dfg, tree, []⟩ placements ssa N := by
  obtain ⟨tree, df, htree, -, rfl⟩ := construct_ok h
  obtain ⟨N, hN⟩ := @buildSsa_shape ⟨cfg, dfg, tree, []⟩ (isDominatorTree_of_ok htree)
    .minimal (placePhiFunctions ord df cfg.blocks.length (collectVariableDefinitions cfg dfg))
  exact ⟨tree, _, N, hN⟩

theorem pairwise_refsSorted (cfg : CfgInfo) (dfg : DfgInfo) (b : Nat) :
    (refsSorted cfg dfg b).Pairwise fun r s => r.line ≤ s.line := by
  have htotal : Std.Total fun r s : VarRef =>
      r.line < s.line ∨ r.line = s.line ∧ (r.refType = .use → s.refType = .use) := by
    refine ⟨fun r s => ?_⟩
    rcases lt_trichotomy r.line s.line with hlt | heq | hgt
    · exact .inl (.inl hlt)
    · by_cases hs : s.refType = .use
      · exact .inl (.inr ⟨heq, fun _ => hs⟩)
      · exact .inr (.inr ⟨heq.symm, fun h => absurd h hs⟩)
    · exact .inr (.inl hgt)
  have htrans : IsTrans VarRef fun r s =>
      r.line < s.line ∨ r.line = s.line ∧ (r.refType = .use → s.refType = .use) := by
    refine ⟨fun r s t hrs hst => ?_⟩
    rcases hrs with hrs | ⟨hrs, hrs'⟩ <;> rcases hst with hst | ⟨hst, hst'⟩
    · exact .inl (hrs.trans hst)
    · exact .inl (hst ▸ hrs)
    · exact .inl (hrs ▸ hst)
    · exact .inr ⟨hrs.trans hst, fun h => hst' (hrs' h)⟩
  refine (List.pairwise_insertionSort _ _).imp fun hrs => ?_
  exact hrs.elim le_of_lt fun h => h.1.le

theorem map_line_instructionsFrom (b : Nat) (defs : List VarRef) :
    ∀ (cur : String → Option Nat) (n : Nat),
      (instructionsFrom ctx b cur n defs).map (·.line) = defs.map (·.line) := by
  induction defs with
  | nil => exact fun _ _ => rfl
  | cons d defs ih =>
    intro cur n
    rw [instructionsFrom, List.map_cons, List.map_cons, ih]
    rfl

namespace SsaShape

variable (h : SsaShape ctx placements ssa N)
include h

section

variable (hblock : block ∈ ssa.blocks)
include hblock

/-- **The instructions of a block are in the order of their lines.** -/
theorem pairwise_instructions :
    block.instructions.Pairwise fun inst inst' => inst.line ≤ inst'.line := by
  obtain ⟨i, hi⟩ := List.mem_iff_getElem?.1 hblock
  rcases h.isRenamed_or hi with ⟨-, -, hr⟩ | ⟨hnil, -⟩
  · have hsorted : (block.instructions.map (·.line)).Pairwise (· ≤ ·) := by
      rw [hr.instructions, map_line_instructionsFrom, List.pairwise_map]
      exact (pairwise_refsSorted ctx.cfg ctx.dfg block.id).filter _
    exact List.pairwise_map.1 hsorted
  · rw [hnil]
    exact List.Pairwise.nil

theorem visited_of_mem_targets (ht : t ∈ block.targets) (hne : t ≠ 0) :
    ctx.Visited block.id ∧ IsRenamed ctx placements N block := by
  obtain ⟨i, hi⟩ := List.mem_iff_getElem?.1 hblock
  rcases h.isRenamed_or hi with ⟨hv, -, hr⟩ | ⟨hnil, hphis⟩
  · exact ⟨hv, hr⟩
  · rw [SsaBlock.targets, hnil, List.filterMap_nil, List.append_nil] at ht
    obtain ⟨phi, hphi, rfl⟩ := List.mem_map.1 ht
    exact absurd (hphis phi hphi) hne

/-- **A name is defined in one block.** -/
theorem eq_of_mem_targets (hblock' : block' ∈ ssa.blocks) (ht : t ∈ block.targets)
    (ht' : t ∈ block'.targets) (hne : t ≠ 0) : block = block' := by
  obtain ⟨i, hi⟩ := List.mem_iff_getElem?.1 hblock
  obtain ⟨i', hi'⟩ := List.mem_iff_getElem?.1 hblock'
  have hindex : ∀ {block : SsaBlock} {i : Nat}, ssa.blocks[i]? = some block → t ∈ block.targets →
      ctx.Visited block.id ∧ i = ctx.cfg.blockIds.findIdx (· == block.id) ∧
        N.start block.id ≤ t ∧ t < N.stop ctx placements block.id := by
    intro block i hi ht
    rcases h.isRenamed_or hi with ⟨hv, hidx, hr⟩ | ⟨hnil, hphis⟩
    · rw [hr.targets_eq, List.mem_range'_1] at ht
      exact ⟨hv, hidx, ht.1, by rw [Naming.stop]; omega⟩
    · rw [SsaBlock.targets, hnil, List.filterMap_nil, List.append_nil] at ht
      obtain ⟨phi, hphi, rfl⟩ := List.mem_map.1 ht
      exact absurd (hphis phi hphi) hne
  obtain ⟨hv, hidx, hlo, hhi⟩ := hindex hi ht
  obtain ⟨hv', hidx', hlo', hhi'⟩ := hindex hi' ht'
  have hid := h.eq_of_range hv hv' hlo hhi hlo' hhi'
  rw [hidx, hid, ← hidx', hi'] at hi
  exact (Option.some_inj.1 hi).symm

theorem eq_of_target_eq (hj : block.instructions[j]? = some inst)
    (hk : block.instructions[k]? = some inst') (ht : inst.target = some t)
    (ht' : inst'.target = some t) : j = k := by
  obtain ⟨i, hi⟩ := List.mem_iff_getElem?.1 hblock
  rcases h.isRenamed_or hi with ⟨-, -, hr⟩ | ⟨hnil, -⟩
  · rw [hr.getElem?_instructions, Option.map_eq_some_iff] at hj hk
    obtain ⟨r, -, rfl⟩ := hj
    obtain ⟨r', -, rfl⟩ := hk
    have hsame := ht.trans ht'.symm
    simp only [instructionFor, Option.some_inj] at hsame
    omega
  · rw [hnil] at hj
    cases hj

theorem target_ne_phi (hj : block.instructions[j]? = some inst) (ht : inst.target = some t) :
    t ∉ block.phiFunctions.map (·.target) := by
  obtain ⟨i, hi⟩ := List.mem_iff_getElem?.1 hblock
  rcases h.isRenamed_or hi with ⟨-, -, hr⟩ | ⟨hnil, -⟩
  · rw [hr.getElem?_instructions, Option.map_eq_some_iff] at hj
    obtain ⟨r, -, rfl⟩ := hj
    obtain rfl := Option.some_inj.1 ht
    rw [hr.phi_targets, List.mem_range'_1]
    omega
  · rw [hnil] at hj
    cases hj

/-- **What a phi function reads** is undefined, or defined in a dominator of the edge's start, which
is reached. -/
theorem phi_source {phi : PhiFunction} (hphi : phi ∈ block.phiFunctions) {source : PhiSource}
    (hsource : source ∈ phi.sources) (hne : source.name ≠ 0) :
    ctx.cfg.Edge source.block block.id ∧ ctx.Visited source.block ∧
      ∃ d ∈ ssa.blocks, ctx.cfg.Dominates d.id source.block ∧ source.name ∈ d.targets := by
  rw [h.sources block hblock phi hphi] at hsource
  obtain ⟨p, hp, rfl⟩ := List.mem_map.1 hsource
  have hedge := CfgInfo.mem_predecessors.1 hp
  dsimp only at hne
  by_cases hvisited : ctx.Visited p
  · refine ⟨hedge, hvisited, ?_⟩
    dsimp only
    rw [h.exit_visited p hvisited] at hne ⊢
    cases hout : N.out ctx placements p phi.var with
    | none =>
      rw [hout] at hne
      exact absurd rfl hne
    | some id =>
      obtain ⟨d, hd, hdom, hn⟩ := h.out_spec hvisited hout
      obtain ⟨block', hb', hid', hm⟩ := h.exists_block hd hn
      exact ⟨block', hb', hid' ▸ hdom, hm⟩
  · rw [h.exit_other p hvisited] at hne
    exact absurd rfl hne

end

end SsaShape

end TldrCode.Ssa
