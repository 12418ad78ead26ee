import TldrCode.Ssa.SsaShape

/-!
# Strict SSA form

Every construction returns a function in strict SSA form (`StrictForm`): each name is defined at
one place, every operand is defined before it on the dominator tree, and every phi function has
one source for each edge into its block, defined where that edge starts from.
-/

namespace TldrCode.Ssa

open Function (update)
open TldrCode.Graph

variable {ctx : SsaRenamingContext} {placements : Nat → List String} {ssa : SsaFunction}
  {N : Naming} {cur : String → Option Nat} {vars : List String} {v : String}
  {b c d i id k n u : Nat}

theorem namesFrom_of_notMem (h : v ∉ vars) : namesFrom cur n vars v = cur v := by
  induction vars generalizing cur n with
  | nil => rfl
  | cons x xs ih =>
    rw [List.mem_cons, not_or] at h
    rw [namesFrom, ih h.2, Function.update_of_ne h.1]

theorem namesFrom_of_mem (h : v ∈ vars) : ∃ i, vars[i]? = some v ∧
    ∀ (cur : String → Option Nat) (n : Nat), namesFrom cur n vars v = some (n + i) := by
  induction vars using List.reverseRecOn with
  | nil => simp at h
  | append_singleton xs x ih =>
    by_cases hx : v = x
    · subst hx
      exact ⟨xs.length, by simp, fun cur n => by simp [namesFrom_concat]⟩
    · obtain ⟨i, hi, hn⟩ := ih (by simpa [hx] using h)
      have hlt := (List.getElem?_eq_some_iff.1 hi).1
      refine ⟨i, by rw [List.getElem?_append_left hlt, hi], fun cur n => ?_⟩
      rw [namesFrom_concat, Function.update_of_ne hx, hn]

theorem namesFrom_eq_some (h : namesFrom cur n vars v = some id) :
    (∃ i, vars[i]? = some v ∧ id = n + i) ∨ v ∉ vars ∧ cur v = some id := by
  by_cases hv : v ∈ vars
  · obtain ⟨i, hi, hn⟩ := namesFrom_of_mem hv
    rw [hn, Option.some_inj] at h
    exact .inl ⟨i, hi, h.symm⟩
  · exact .inr ⟨hv, by rw [← h, namesFrom_of_notMem hv]⟩

theorem instructionsFrom_targets (ctx : SsaRenamingContext) (b : Nat) (defs : List VarRef) :
    ∀ (cur : String → Option Nat) (n : Nat), (instructionsFrom ctx b cur n defs).map (·.target) =
      (List.range' n defs.length).map some := by
  induction defs with
  | nil => intro cur n; rfl
  | cons d ds ih => intro cur n; simp [instructionsFrom, instructionFor, ih, List.range'_succ]

theorem instructionsFrom_getElem? (defs : List VarRef) :
    ∀ (cur : String → Option Nat) (n k : Nat), (instructionsFrom ctx b cur n defs)[k]? =
      defs[k]?.map fun d => instructionFor ctx d (n + k)
        (usesOf ctx b d (namesFrom cur n ((defs.take k).map (·.name)))) := by
  induction defs with
  | nil => intro cur n k; simp [instructionsFrom]
  | cons d ds ih =>
    intro cur n k
    cases k with
    | zero => simp [instructionsFrom, namesFrom]
    | succ k =>
      simp only [instructionsFrom, List.getElem?_cons_succ, ih, List.take_succ_cons,
        List.map_cons, namesFrom]
      rw [Nat.add_assoc, Nat.add_comm 1]

/-- The operands: the current names of the variables used on the line, and that of the variable
itself for an update. -/
theorem mem_usesOf {r : VarRef} : u ∈ usesOf ctx b r cur ↔
    (r.refType = .update ∧ cur r.name = some u) ∨ ∃ r' ∈ ctx.dfg.refs, r'.line = r.line ∧
      r'.name ≠ r.name ∧ r'.refType = .use ∧ lineToBlock ctx.cfg r'.line = some b ∧
      cur r'.name = some u := by
  obtain ⟨uses, huses⟩ : ∃ uses, uses = (ctx.dfg.refs.filter fun r' => r'.line == r.line &&
      r'.name != r.name && r'.refType == .use &&
      lineToBlock ctx.cfg r'.line == some b).filterMap fun r' => cur r'.name := ⟨_, rfl⟩
  have hmem : u ∈ uses ↔ ∃ r' ∈ ctx.dfg.refs, r'.line = r.line ∧ r'.name ≠ r.name ∧
      r'.refType = .use ∧ lineToBlock ctx.cfg r'.line = some b ∧ cur r'.name = some u := by
    simp only [huses, List.mem_filterMap, List.mem_filter, Bool.and_eq_true, beq_iff_eq,
      bne_iff_ne, and_assoc]
  rw [← hmem, usesOf, ← huses]
  split_ifs with hupd
  · cases hc : cur r.name with
    | none => simp [hupd]
    | some self =>
      dsimp only
      split_ifs with hin
      · refine ⟨.inr, ?_⟩
        rintro (⟨-, hu⟩ | hu)
        · exact Option.some_inj.1 hu ▸ hin
        · exact hu
      · simp [hupd, eq_comm]
  · simp [hupd]

theorem exists_of_mem_usesOf {r : VarRef} (h : u ∈ usesOf ctx b r cur) :
    ∃ v, cur v = some u := by
  rcases mem_usesOf.1 h with ⟨-, hu⟩ | ⟨r', -, -, -, -, -, hu⟩
  · exact ⟨_, hu⟩
  · exact ⟨_, hu⟩

/-! ## The names of a shape -/

/-- `id` is the name that `d` creates for `v`. -/
def NamedIn (ctx : SsaRenamingContext) (placements : Nat → List String) (N : Naming) (d : Nat)
    (v : String) (id : Nat) : Prop :=
  ∃ i, (blockVars ctx placements d)[i]? = some v ∧ id = N.start d + i

theorem Naming.after_append (N : Naming) (c k : Nat) :
    namesFrom (N.after ctx placements c 0) (N.start c + (placements c).length)
      (((blockDefs ctx.cfg ctx.dfg c).take k).map (·.name)) = N.after ctx placements c k := by
  simp only [Naming.after, List.take_zero, List.map_nil, List.append_nil]
  rw [← namesFrom_append]

theorem Naming.after_length (N : Naming) (c : Nat) :
    N.after ctx placements c (blockDefs ctx.cfg ctx.dfg c).length = N.out ctx placements c := by
  rw [Naming.after, Naming.out, blockVars, List.take_length]

theorem Naming.after_eq_some (h : N.after ctx placements c k v = some id) :
    (∃ i < (placements c).length + k, (blockVars ctx placements c)[i]? = some v ∧
      id = N.start c + i) ∨ N.cur c v = some id := by
  refine (namesFrom_eq_some h).imp (fun ⟨i, hi, hid⟩ => ?_) And.right
  have hlt := (List.getElem?_eq_some_iff.1 hi).1
  simp only [List.length_append, List.length_map, List.length_take] at hlt
  refine ⟨i, by omega, ?_, hid⟩
  obtain ⟨t, ht⟩ : placements c ++ ((blockDefs ctx.cfg ctx.dfg c).take k).map (·.name) <+:
      blockVars ctx placements c := by
    rw [blockVars, List.prefix_append_right_inj]
    exact (List.take_prefix k _).map _
  rw [← ht, List.getElem?_append_left (List.getElem?_eq_some_iff.1 hi).1, hi]

namespace IsRenamed

variable {block : SsaBlock} (hb : IsRenamed ctx placements N block)
include hb

theorem phi_targets : block.phiFunctions.map (·.target) =
    List.range' (N.start block.id) (placements block.id).length := by
  have := congrArg (List.map Prod.fst) hb.phis
  rw [List.map_map, List.map_map] at this
  refine this.trans ?_
  rw [List.zipIdx_eq_zip_range']
  exact List.map_snd_zip (by simp)

theorem targets_eq : block.targets =
    List.range' (N.start block.id) (blockVars ctx placements block.id).length := by
  have hinsts := congrArg (List.filterMap id) (instructionsFrom_targets ctx
    block.id (blockDefs ctx.cfg ctx.dfg block.id) (N.after ctx placements block.id 0)
    (N.start block.id + (placements block.id).length))
  rw [← hb.instructions, List.filterMap_map, List.filterMap_map] at hinsts
  rw [SsaBlock.targets, hb.phi_targets, blockVars, List.length_append, List.length_map,
    ← List.range'_append_1]
  exact congrArg _ (hinsts.trans (by simp))

theorem getElem?_instructions (k : Nat) : block.instructions[k]? =
    (blockDefs ctx.cfg ctx.dfg block.id)[k]?.map fun r => instructionFor ctx r
      (N.start block.id + (placements block.id).length + k)
      (usesOf ctx block.id r (N.after ctx placements block.id k)) := by
  rw [hb.instructions, instructionsFrom_getElem?, N.after_append]

/-- An early name of the block is the target of a phi function or of an earlier instruction. -/
theorem own_target (hi : i < (placements block.id).length + k)
    (hlt : i < (blockVars ctx placements block.id).length) :
    N.start block.id + i ∈ block.phiFunctions.map (·.target) ∨
      ∃ j < k, ∃ earlier : SsaInstruction, block.instructions[j]? = some earlier ∧
        earlier.target = some (N.start block.id + i) := by
  rcases lt_or_ge i (placements block.id).length with hp | hp
  · left
    rw [hb.phi_targets, List.mem_range'_1]
    omega
  · rw [blockVars, List.length_append, List.length_map] at hlt
    obtain ⟨j, rfl⟩ := Nat.exists_eq_add_of_le hp
    have hj : j < (blockDefs ctx.cfg ctx.dfg block.id).length := by omega
    have hget := hb.getElem?_instructions j
    rw [List.getElem?_eq_getElem hj, Option.map_some] at hget
    exact .inr ⟨j, by omega, _, hget, by rw [instructionFor, Nat.add_assoc]⟩

end IsRenamed

namespace SsaShape

variable (h : SsaShape ctx placements ssa N)
include h

theorem cur_spec (hc : ctx.Visited c) (hcur : N.cur c v = some id) : ∃ d, ctx.Visited d ∧
    ctx.cfg.StrictlyDominates d c ∧ NamedIn ctx placements N d v id := by
  induction hc with
  | self hb => rw [h.cur_entry (.self hb)] at hcur; exact absurd hcur (by simp)
  | @child c d hd hi hr hc ih =>
    rw [h.cur_child c d (.child hd hi hr hc) hd hi] at hcur
    rcases namesFrom_eq_some hcur with hn | ⟨-, hn⟩
    · exact ⟨d, hd, hi.sdom, hn⟩
    · obtain ⟨e, he, hdom, hn⟩ := ih hn
      exact ⟨e, he, hdom.trans_dom hi.1.1 hr, hn⟩

theorem out_spec (hc : ctx.Visited c) (hout : N.out ctx placements c v = some id) : ∃ d,
    ctx.Visited d ∧ ctx.cfg.Dominates d c ∧ NamedIn ctx placements N d v id := by
  rcases namesFrom_eq_some hout with hn | ⟨-, hn⟩
  · exact ⟨c, hc, .refl c, hn⟩
  · obtain ⟨d, hd, hdom, hn⟩ := h.cur_spec hc hn
    exact ⟨d, hd, hdom.dom, hn⟩

theorem exists_block (hc : ctx.Visited c) (hn : NamedIn ctx placements N c v id) :
    ∃ block ∈ ssa.blocks, block.id = c ∧ id ∈ block.targets := by
  obtain ⟨block, hb, hid, hr⟩ := h.visited c hc
  obtain ⟨i, hi, rfl⟩ := hn
  refine ⟨block, List.mem_of_getElem? hb, hid, ?_⟩
  rw [hr.targets_eq, hid, List.mem_range'_1]
  have := (List.getElem?_eq_some_iff.1 hi).1
  omega

theorem isRenamed_or {block : SsaBlock} (hi : ssa.blocks[i]? = some block) :
    ctx.Visited block.id ∧ i = ctx.cfg.blockIds.findIdx (· == block.id) ∧
        IsRenamed ctx placements N block ∨
      block.instructions = [] ∧ ∀ phi ∈ block.phiFunctions, phi.target = 0 := by
  refine (h.others i block hi).imp (fun ⟨hv, hidx⟩ => ⟨hv, hidx, ?_⟩) fun h => ⟨h.1, h.2.2⟩
  obtain ⟨block', hb', -, hr⟩ := h.visited _ hv
  rw [← hidx, hi] at hb'
  rwa [Option.some_inj.1 hb']

theorem eq_of_range (hc : ctx.Visited c) (hd : ctx.Visited d) (h₁ : N.start c ≤ id)
    (h₂ : id < N.stop ctx placements c) (h₃ : N.start d ≤ id) (h₄ : id < N.stop ctx placements d) :
    c = d := by
  by_contra hne
  rcases h.disjoint c d hc hd hne with hle | hle <;> omega

end SsaShape

/-- The name defined at a site: the block at a position, and one of its targets. -/
def SsaFunction.definedAt (ssa : SsaFunction) (site : Nat × Nat) : Option Nat :=
  ssa.blocks[site.1]?.bind (·.targets[site.2]?)

/-- Strict SSA form of a function over `cfg`. -/
structure StrictForm (cfg : CfgInfo) (ssa : SsaFunction) : Prop where
  /-- every name is defined at exactly one site -/
  unique : ∀ name ∈ ssa.ssaNames, name.id ≠ 0 ∧ ∃! site, ssa.definedAt site = some name.id
  /-- and everything that is defined is a name -/
  named : ∀ site id, ssa.definedAt site = some id → id ≠ 0 → ∃ name ∈ ssa.ssaNames, name.id = id
  /-- operands are defined in a strict dominator, or earlier in the block -/
  operands : ∀ block ∈ ssa.blocks, ∀ (k : Nat) (inst : SsaInstruction),
    block.instructions[k]? = some inst → ∀ u ∈ inst.uses,
      (∃ d ∈ ssa.blocks, cfg.StrictlyDominates d.id block.id ∧ u ∈ d.targets) ∨
      u ∈ block.phiFunctions.map (·.target) ∨
      ∃ j < k, ∃ earlier : SsaInstruction, block.instructions[j]? = some earlier ∧
        earlier.target = some u
  /-- phi functions have one source for each edge, undefined or defined in a dominator of its
  block -/
  phis : ∀ block ∈ ssa.blocks, ∀ phi ∈ block.phiFunctions,
    phi.sources.map (·.block) = cfg.predecessors block.id ∧ ∀ source ∈ phi.sources,
      source.name = 0 ∨
        ∃ d ∈ ssa.blocks, cfg.Dominates d.id source.block ∧ source.name ∈ d.targets

namespace SsaShape

variable (h : SsaShape ctx placements ssa N)
include h

theorem definedAt_iff {site : Nat × Nat} (hid : id ≠ 0) : ssa.definedAt site = some id ↔
    ∃ c, ctx.Visited c ∧ site.1 = ctx.cfg.blockIds.findIdx (· == c) ∧
      site.2 < (blockVars ctx placements c).length ∧ id = N.start c + site.2 := by
  rw [SsaFunction.definedAt, Option.bind_eq_some_iff]
  constructor
  · rintro ⟨block, hb, ht⟩
    rcases h.isRenamed_or hb with ⟨hv, hidx, hr⟩ | ⟨hi, hp⟩
    · rw [hr.targets_eq] at ht
      obtain ⟨hlt, heq⟩ := List.getElem?_eq_some_iff.1 ht
      rw [List.length_range'] at hlt
      rw [List.getElem_range', Nat.one_mul] at heq
      exact ⟨block.id, hv, hidx, hlt, heq.symm⟩
    · have hm := List.mem_of_getElem? ht
      simp only [SsaBlock.targets, hi, List.filterMap_nil, List.append_nil, List.mem_map] at hm
      obtain ⟨phi, hphi, rfl⟩ := hm
      exact absurd (hp phi hphi) hid
  · rintro ⟨c, hv, hidx, hlt, rfl⟩
    obtain ⟨block, hb, hbid, hr⟩ := h.visited c hv
    refine ⟨block, hidx ▸ hb, ?_⟩
    rw [hr.targets_eq, hbid, List.getElem?_range' hlt, Nat.one_mul]

/-- **Every construction returns strict SSA form.** -/
theorem strictForm : StrictForm ctx.cfg ssa where
  unique name hname := by
    have hrange : name.id ∈ List.range' 1 ssa.ssaNames.length := by
      rw [← h.names]
      exact List.mem_map_of_mem hname
    rw [List.mem_range'_1] at hrange
    have hne : name.id ≠ 0 := by omega
    obtain ⟨c, hc, hlo, hhi⟩ := h.cover name.id hrange.1 (by omega)
    have hlt : name.id - N.start c < (blockVars ctx placements c).length := by
      rw [Naming.stop] at hhi
      omega
    refine ⟨hne, (ctx.cfg.blockIds.findIdx (· == c), name.id - N.start c),
      (h.definedAt_iff hne).2 ⟨c, hc, rfl, hlt, by dsimp only; omega⟩, ?_⟩
    rintro ⟨i, j⟩ hsite
    obtain ⟨d, hd, hi, hj, hid⟩ := (h.definedAt_iff hne).1 hsite
    dsimp only at hi hj hid
    obtain rfl : c = d := h.eq_of_range hc hd hlo hhi (by omega) (by rw [Naming.stop]; omega)
    rw [Prod.mk.injEq]
    exact ⟨hi, by omega⟩
  named site id hsite hid := by
    obtain ⟨c, hc, -, hlt, rfl⟩ := (h.definedAt_iff hid).1 hsite
    obtain ⟨name, hname, heq, -⟩ := h.named c hc site.2 _ (List.getElem?_eq_getElem hlt)
    exact ⟨name, hname, heq⟩
  operands block hblock k inst hinst u hu := by
    obtain ⟨i, hi⟩ := List.mem_iff_getElem?.1 hblock
    rcases h.isRenamed_or hi with ⟨hv, -, hr⟩ | ⟨hnil, -⟩
    · rw [hr.getElem?_instructions, Option.map_eq_some_iff] at hinst
      obtain ⟨r, -, rfl⟩ := hinst
      obtain ⟨v, hcur⟩ := exists_of_mem_usesOf hu
      rcases Naming.after_eq_some hcur with ⟨j, hj, hjv, rfl⟩ | hcur
      · exact .inr (hr.own_target hj (List.getElem?_eq_some_iff.1 hjv).1)
      · obtain ⟨d, hd, hdom, hn⟩ := h.cur_spec hv hcur
        obtain ⟨block', hb', hid', hm⟩ := h.exists_block hd hn
        exact .inl ⟨block', hb', hid' ▸ hdom, hm⟩
    · rw [hnil] at hinst
      simp at hinst
  phis block hblock phi hphi := by
    rw [h.sources block hblock phi hphi]
    refine ⟨by simp [Naming.sources, Function.comp_def], fun source hs => ?_⟩
    obtain ⟨p, -, rfl⟩ := List.mem_map.1 hs
    by_cases hp : ctx.Visited p
    · rw [h.exit_visited p hp]
      cases hout : N.out ctx placements p phi.var with
      | none => exact .inl rfl
      | some id =>
        obtain ⟨d, hd, hdom, hn⟩ := h.out_spec hp hout
        obtain ⟨block', hb', hid', hm⟩ := h.exists_block hd hn
        exact .inr ⟨block', hb', hid' ▸ hdom, hm⟩
    · rw [h.exit_other p hp]
      exact .inl rfl

end SsaShape

theorem construct_ok {cfg : CfgInfo} {build : DominatorTree → DominanceFrontier → SsaFunction}
    (h : (do
      let domTree ← buildDominatorTree cfg
      let domFrontier ← computeDominanceFrontier cfg domTree
      return build domTree domFrontier) = Except.ok ssa) :
    ∃ tree df, buildDominatorTree cfg = .ok tree ∧ computeDominanceFrontier cfg tree = .ok df ∧
      ssa = build tree df := by
  cases htree : buildDominatorTree cfg with
  | error e => rw [htree] at h; cases h
  | ok tree =>
    cases hdf : computeDominanceFrontier cfg tree with
    | error e =>
      simp only [htree, bind, Except.bind, hdf] at h
      cases h
    | ok df =>
      simp only [htree, bind, Except.bind, hdf] at h
      exact ⟨tree, df, rfl, hdf, (Except.ok.inj h).symm⟩

/-- **`constructMinimalSsa` returns strict SSA form.** -/
theorem constructMinimalSsa_strictForm {ord : HashOrder} {cfg : CfgInfo} {dfg : DfgInfo}
    (h : constructMinimalSsa ord cfg dfg = .ok ssa) : StrictForm cfg ssa := by
  obtain ⟨tree, df, htree, -, rfl⟩ := construct_ok h
  obtain ⟨N, hN⟩ := @buildSsa_shape ⟨cfg, dfg, tree, []⟩ (isDominatorTree_of_ok htree)
    .minimal (placePhiFunctions ord df cfg.blocks.length (collectVariableDefinitions cfg dfg))
  exact hN.strictForm

/-- A counter: `x = 0; while ..: x = x + 1; y = x`. -/
def counterDfg : DfgInfo where
  refs := [⟨"x", .definition, 1, 0⟩, ⟨"x", .update, 3, 0⟩, ⟨"x", .use, 4, 4⟩,
    ⟨"y", .definition, 4, 0⟩]

theorem constructMinimalSsa_strictForm_counter :
    ∃ ssa, constructMinimalSsa .insertion whileCfg counterDfg = .ok ssa ∧
      StrictForm whileCfg ssa := by
  have hok : (constructMinimalSsa .insertion whileCfg counterDfg).toOption.isSome := by
    decide +kernel
  cases h : constructMinimalSsa .insertion whileCfg counterDfg with
  | error e => rw [h] at hok; cases hok
  | ok ssa => exact ⟨ssa, rfl, constructMinimalSsa_strictForm h⟩

end TldrCode.Ssa
