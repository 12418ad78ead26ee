import TldrCode.Security.SsaTaint
import TldrCode.Security.TaintSolution
import TldrCode.Ssa.Sites

/-!
# Taint along def-use chains

With SSA the taint of a source goes along the def-use chains to all names that are derived from it,
if the sources are seeded as names and the worklist gets empty (`complete_of_followed`). A source is
seeded as the name that its line defines only if the next name is one of the same variable, because
the names are looked up by position (`not_complete_copied`).
-/

namespace TldrCode.Security

open Function (update)
open TldrCode.Graph
open Ssa (SsaFunction SsaBlock SsaInstruction PhiFunction SsaShape constructMinimalSsa)

def IsVersion (ssa : SsaFunction) (id : Nat) (var : String) : Prop :=
  ∃ name ∈ ssa.ssaNames, name.id = id ∧ name.var = var

namespace TaintInput

variable (input : TaintInput) (ssa : SsaFunction)

/-- The block defines the name on the line of the source, as its variable. -/
def DefinesSource (source : TaintSource) (block : SsaBlock) (id : Nat) : Prop :=
  source ∈ input.sources ∧ block ∈ ssa.blocks ∧ IsVersion ssa id source.var ∧
    ∃ inst ∈ block.instructions, inst.line = source.line ∧ inst.target = some id

/-- The names derived from a source's definition by phi functions and by instructions on lines
without a sanitizer. -/
inductive Derived : Nat → Prop
  | source {source : TaintSource} {block : SsaBlock} {id : Nat}
    (h : input.DefinesSource ssa source block id) : Derived id
  | inst {block : SsaBlock} {inst : SsaInstruction} {used id : Nat} (hused : Derived used)
    (hblock : block ∈ ssa.blocks) (hinst : inst ∈ block.instructions)
    (hsanitizer : inst.line ∉ input.sanitizerLines) (huse : used ∈ inst.uses)
    (htarget : inst.target = some id) (hname : ∃ var, IsVersion ssa id var) : Derived id
  | phi {block : SsaBlock} {phi : PhiFunction} {used : Nat} (hused : Derived used)
    (hblock : block ∈ ssa.blocks) (hphi : phi ∈ block.phiFunctions)
    (huse : used ∈ phi.sources.map (·.name)) (hname : ∃ var, IsVersion ssa phi.target var) :
    Derived phi.target

/-- **Every derived name is tainted** at the ends of the blocks that its definition dominates. -/
def SsaComplete : Prop :=
  ∀ id, input.Derived ssa id → ∀ d ∈ ssa.blocks, id ∈ d.targets → ∀ b, input.cfg.Reachable b →
    input.cfg.Dominates d.id b → TaintKey.versioned id ∈ (input.ssaPropagate ssa).1 b

/-- The definitions of the sources are found: in the block of the source's line, and by the
variable of the name that comes after. -/
def SourcesFound : Prop :=
  ∀ source block id, input.DefinesSource ssa source block id →
    lineToBlock input.cfg source.line = some block.id ∧ variableAt ssa id = some source.var

/-- What is tainted at the end of a block that its predecessors leave this to. -/
def ssaTransfer (b : Nat) (tainted : Nat → Finset TaintKey) : Finset TaintKey :=
  (input.processInsts ssa b (input.ssaTaintIn ssa b tainted) ∅).1

variable {input} {ssa} {b k j id : Nat} {A : Finset TaintKey} {sanitized sanitized' : Finset String}
  {tainted : Nat → Finset TaintKey} {inst : SsaInstruction} {insts : List SsaInstruction}
  {phis : List PhiFunction} {phi : PhiFunction}

theorem fst_foldl_processInst (insts : List SsaInstruction) (A : Finset TaintKey)
    (sanitized sanitized' : Finset String) :
    (insts.foldl (input.processInst ssa) (A, sanitized)).1 =
      (insts.foldl (input.processInst ssa) (A, sanitized')).1 := by
  induction insts generalizing A sanitized sanitized' with
  | nil => rfl
  | cons inst insts ih =>
    rw [List.foldl_cons, List.foldl_cons]
    have hfst : ∀ sanitized, ∃ sanitized'', input.processInst ssa (A, sanitized) inst =
        ((input.processInst ssa (A, ∅) inst).1, sanitized'') := by
      intro sanitized
      unfold processInst
      dsimp only
      cases inst.target with
      | none => exact ⟨_, rfl⟩
      | some target =>
        dsimp only
        split_ifs
        · exact ⟨_, rfl⟩
        · exact ⟨_, rfl⟩
        · exact ⟨_, rfl⟩
    obtain ⟨s, hs⟩ := hfst sanitized
    obtain ⟨s', hs'⟩ := hfst sanitized'
    rw [hs, hs']
    exact ih _ _ _

theorem ssaIterate_eq_solve (iterations : Nat) (worklist : List Nat)
    (tainted : Nat → Finset TaintKey) (sanitized : Finset String) :
    ((input.ssaIterate ssa iterations worklist tainted sanitized).1,
      (input.ssaIterate ssa iterations worklist tainted sanitized).2.2) =
        Dataflow.solve (input.ssaTransfer ssa) input.cfg.successors iterations worklist
          tainted := by
  induction iterations generalizing worklist tainted sanitized with
  | zero => cases worklist <;> rfl
  | succ iterations ih =>
    cases worklist with
    | nil => rfl
    | cons b worklist =>
      have htransfer : (input.processInsts ssa b (input.ssaTaintIn ssa b tainted) sanitized).1 =
          input.ssaTransfer ssa b tainted := fst_foldl_processInst _ _ _ _
      unfold ssaIterate Dataflow.solve
      dsimp only
      rw [htransfer]
      by_cases heq : input.ssaTransfer ssa b tainted = tainted b
      · rw [if_neg (not_not.2 heq), if_pos heq]
        exact ih _ _ _
      · rw [if_pos heq, if_neg heq]
        exact ih _ _ _

/-- **The values solve the equations** unless the loop is left early. -/
theorem ssaPropagate_fixed (h : (input.ssaPropagate ssa).2.2 = false) :
    ∀ b ∈ ssa.blocks.map (·.id),
      (input.ssaPropagate ssa).1 b = input.ssaTransfer ssa b (input.ssaPropagate ssa).1 := by
  have hsolve : Dataflow.solve (input.ssaTransfer ssa) input.cfg.successors input.maxIterations
      (ssa.blocks.map (·.id)) (input.ssaSeeds ssa) = ((input.ssaPropagate ssa).1, false) := by
    rw [← h]
    exact (ssaIterate_eq_solve _ _ _ ∅).symm
  apply Dataflow.solve_fixed _ _ hsolve
  · intro a c tainted keys hc
    have hpreds : ∀ p ∈ (input.cfg.predecessors c).toFinset,
        update tainted a keys p = tainted p := by
      intro p hp
      rw [List.mem_toFinset, CfgInfo.mem_predecessors] at hp
      refine Function.update_of_ne ?_ _ _
      rintro rfl
      exact hc (CfgInfo.mem_successors.2 hp)
    unfold ssaTransfer ssaTaintIn
    rw [Finset.biUnion_congr rfl hpreds]
  · exact fun b hb => .inl hb

/-! ## Names stay tainted -/

theorem versioned_mem_processInst (h : TaintKey.versioned id ∈ A) :
    TaintKey.versioned id ∈ (input.processInst ssa (A, sanitized) inst).1 := by
  unfold processInst
  dsimp only
  cases inst.target with
  | none => exact h
  | some target =>
    dsimp only
    split_ifs
    · exact h
    · exact Finset.mem_insert_of_mem h
    · refine Finset.mem_sdiff.2 ⟨h, fun hmem => ?_⟩
      obtain ⟨var, -, heq⟩ := Finset.mem_image.1 hmem
      cases heq

theorem versioned_mem_foldl (h : TaintKey.versioned id ∈ A) :
    TaintKey.versioned id ∈ (insts.foldl (input.processInst ssa) (A, sanitized)).1 :=
  List.foldlRecOn (motive := fun state : _ × _ => TaintKey.versioned id ∈ state.1) insts _ h
    fun _ h _ _ => versioned_mem_processInst h

theorem target_mem_processInst {used : Nat} (hused : TaintKey.versioned used ∈ A)
    (huse : used ∈ inst.uses) (htarget : inst.target = some id)
    (hsanitizer : inst.line ∉ input.sanitizerLines) :
    TaintKey.versioned id ∈ (input.processInst ssa (A, sanitized) inst).1 := by
  have huses : usesTainted ssa inst A = true := by
    refine List.any_eq_true.2 ⟨used, huse, ?_⟩
    rw [Bool.or_eq_true]
    exact .inl (decide_eq_true hused)
  unfold processInst
  dsimp only
  rw [htarget]
  dsimp only
  rw [if_neg hsanitizer, if_pos huses]
  exact Finset.mem_insert_self _ _

theorem mem_mergePhis {key : TaintKey} (h : key ∈ A) : key ∈ mergePhis phis A := by
  unfold mergePhis
  induction phis generalizing A with
  | nil => exact h
  | cons phi phis ih =>
    rw [List.foldl_cons]
    refine ih ?_
    split_ifs
    · exact Finset.mem_insert_of_mem h
    · exact h

theorem target_mem_mergePhis (hphi : phi ∈ phis) {used : Nat}
    (huse : used ∈ phi.sources.map (·.name)) (hused : TaintKey.versioned used ∈ A) :
    TaintKey.versioned phi.target ∈ mergePhis phis A := by
  induction phis generalizing A with
  | nil => cases hphi
  | cons first phis ih =>
    unfold mergePhis
    rw [List.foldl_cons]
    rcases List.mem_cons.1 hphi with rfl | hphi
    · have htainted : (phi.sources.any fun source => TaintKey.versioned source.name ∈ A) =
        true := by
        obtain ⟨source, hsource, rfl⟩ := List.mem_map.1 huse
        exact List.any_eq_true.2 ⟨source, hsource, decide_eq_true hused⟩
      rw [if_pos htainted]
      exact mem_mergePhis (Finset.mem_insert_self _ _)
    · refine ih hphi ?_
      split_ifs
      · exact Finset.mem_insert_of_mem hused
      · exact hused

theorem mem_of_mem_foldl_processInst (huses : ∀ inst ∈ insts, inst.target = some id →
    inst.uses = [])
    (h : TaintKey.versioned id ∈ (insts.foldl (input.processInst ssa) (A, sanitized)).1) :
    TaintKey.versioned id ∈ A := by
  induction insts generalizing A sanitized with
  | nil => exact h
  | cons inst insts ih =>
    rw [List.foldl_cons] at h
    have hrest := ih (fun inst' hinst' => huses inst' (List.mem_cons_of_mem _ hinst')) h
    cases htarget : inst.target with
    | none =>
      simpa only [processInst, htarget] using hrest
    | some target =>
      simp only [htarget] at hrest
      split_ifs at hrest with _ htainted
      · exact hrest
      · rcases Finset.mem_insert.1 hrest with heq | hrest
        · cases heq
          rw [usesTainted, huses inst List.mem_cons_self htarget] at htainted
          cases htainted
        · exact hrest
      · exact (Finset.mem_sdiff.1 hrest).1

theorem mem_of_mem_mergePhis (htargets : ∀ phi ∈ phis, phi.target ≠ id)
    (h : TaintKey.versioned id ∈ mergePhis phis A) : TaintKey.versioned id ∈ A := by
  unfold mergePhis at h
  induction phis generalizing A with
  | nil => exact h
  | cons phi phis ih =>
    rw [List.foldl_cons] at h
    have hrest := ih (fun phi' hphi' => htargets phi' (List.mem_cons_of_mem _ hphi')) h
    split_ifs at hrest
    · rcases Finset.mem_insert.1 hrest with heq | hrest
      · cases heq
        exact absurd rfl (htargets phi List.mem_cons_self)
      · exact hrest
    · exact hrest

/-- What is tainted after so many instructions of a block. -/
def instsAfter (input : TaintInput) (ssa : SsaFunction) (block : SsaBlock) (k : Nat)
    (A : Finset TaintKey) : Finset TaintKey :=
  ((block.instructions.take k).foldl (input.processInst ssa) (A, ∅)).1

theorem instsAfter_mono {block : SsaBlock} (hjk : j ≤ k)
    (h : TaintKey.versioned id ∈ instsAfter input ssa block j A) :
    TaintKey.versioned id ∈ instsAfter input ssa block k A := by
  have hsplit : block.instructions.take k =
      block.instructions.take j ++ (block.instructions.take k).drop j := by
    conv_lhs => rw [← List.take_append_drop j (block.instructions.take k), List.take_take,
      Nat.min_eq_left hjk]
  unfold instsAfter
  rw [hsplit, List.foldl_append]
  exact versioned_mem_foldl h

theorem target_mem_instsAfter {block : SsaBlock} {used : Nat}
    (hinst : block.instructions[k]? = some inst)
    (hused : TaintKey.versioned used ∈ instsAfter input ssa block k A) (huse : used ∈ inst.uses)
    (htarget : inst.target = some id) (hsanitizer : inst.line ∉ input.sanitizerLines) :
    TaintKey.versioned id ∈ instsAfter input ssa block (k + 1) A := by
  unfold instsAfter
  rw [List.take_add_one, hinst, Option.toList_some, List.foldl_concat]
  exact target_mem_processInst hused huse htarget hsanitizer

section Blocks

variable {block : SsaBlock} (hids : (ssa.blocks.map (·.id)).Nodup) (hblock : block ∈ ssa.blocks)
include hids hblock

theorem find?_reverse_blocks : ssa.blocks.reverse.find? (·.id = block.id) = some block := by
  cases hfind : ssa.blocks.reverse.find? (·.id = block.id) with
  | none => exact absurd (List.find?_eq_none.1 hfind block (List.mem_reverse.2 hblock)) (by simp)
  | some block' =>
    have hid : block'.id = block.id := by simpa using List.find?_some hfind
    rw [List.inj_on_of_nodup_map hids (List.mem_reverse.1 (List.mem_of_find?_eq_some hfind))
      hblock hid]

theorem blockPhis_eq : blockPhis ssa block.id = block.phiFunctions := by
  unfold blockPhis
  rw [find?_reverse_blocks hids hblock]

theorem blockInsts_eq
    (hsorted : block.instructions.Pairwise fun inst inst' => inst.line ≤ inst'.line) :
    blockInsts ssa block.id = block.instructions := by
  unfold blockInsts
  rw [find?_reverse_blocks hids hblock]
  exact List.Pairwise.insertionSort_eq hsorted

end Blocks

/-! ## Chains -/

/-- The conditions under which chains are followed. -/
structure Followed (input : TaintInput) (ssa : SsaFunction) : Prop where
  ids : input.cfg.blockIds.Nodup
  found : input.SourcesFound ssa
  finished : (input.ssaPropagate ssa).2.2 = false

theorem mem_ssaTaintIn_of_edge {a : Nat} {A : Nat → Finset TaintKey} (hedge : input.cfg.Edge a b)
    (hid : TaintKey.versioned id ∈ A a) : TaintKey.versioned id ∈ input.ssaTaintIn ssa b A := by
  refine Finset.mem_union_left _ (mem_mergePhis (Finset.mem_biUnion.2 ⟨a, ?_, hid⟩))
  rw [List.mem_toFinset]
  exact CfgInfo.mem_predecessors.2 hedge

/-- A name is tainted from its definition on: where its block begins, or after the instruction. -/
def TaintedFromDef (input : TaintInput) (ssa : SsaFunction) (id : Nat) (block : SsaBlock) : Prop :=
  block ∈ ssa.blocks ∧ id ∈ block.targets ∧
    (TaintKey.versioned id ∈ input.ssaTaintIn ssa block.id (input.ssaPropagate ssa).1 ∨
      ∃ j inst, block.instructions[j]? = some inst ∧ inst.target = some id ∧
        TaintKey.versioned id ∈ instsAfter input ssa block (j + 1)
          (input.ssaTaintIn ssa block.id (input.ssaPropagate ssa).1))

section Shape

variable {dfg : DfgInfo} {tree : Ssa.DominatorTree} {placements : Nat → List String}
  {N : Ssa.Naming} {block d : SsaBlock} {a : Nat}
variable (h : SsaShape ⟨input.cfg, dfg, tree, []⟩ placements ssa N)
include h

theorem mem_taintOut_of_instsAfter (hf : Followed input ssa) (hblock : block ∈ ssa.blocks)
    (hid : TaintKey.versioned id ∈ instsAfter input ssa block k
      (input.ssaTaintIn ssa block.id (input.ssaPropagate ssa).1)) :
    TaintKey.versioned id ∈ (input.ssaPropagate ssa).1 block.id := by
  have hids : (ssa.blocks.map (·.id)).Nodup := h.ids ▸ hf.ids
  rw [ssaPropagate_fixed hf.finished block.id (List.mem_map_of_mem hblock)]
  unfold ssaTransfer processInsts
  rw [blockInsts_eq hids hblock (h.pairwise_instructions hblock)]
  have hall := instsAfter_mono (k := max k block.instructions.length) (le_max_left _ _) hid
  unfold instsAfter at hall
  rwa [List.take_of_length_le (le_max_right _ _)] at hall

theorem mem_taintOut_of_reach (hf : Followed input ssa)
    (hedges : ∀ a b, input.cfg.Edge a b → b ∈ input.cfg.blockIds)
    (hreach : Reach input.cfg.Edge a b)
    (hid : TaintKey.versioned id ∈ (input.ssaPropagate ssa).1 a) :
    TaintKey.versioned id ∈ (input.ssaPropagate ssa).1 b := by
  refine hreach.induct (P := fun b => TaintKey.versioned id ∈ (input.ssaPropagate ssa).1 b) hid
    fun p c _ hedge hp => ?_
  have hc : c ∈ ssa.blocks.map (·.id) := by
    rw [h.ids]
    exact hedges p c hedge
  rw [ssaPropagate_fixed hf.finished c hc]
  exact versioned_mem_foldl (mem_ssaTaintIn_of_edge hedge hp)

theorem TaintedFromDef.mem_taintOut (hf : Followed input ssa) (ht : TaintedFromDef input ssa id d) :
    TaintKey.versioned id ∈ (input.ssaPropagate ssa).1 d.id := by
  obtain ⟨hd, -, hin | ⟨j, inst, -, -, hafter⟩⟩ := ht
  · exact mem_taintOut_of_instsAfter h (k := 0) hf hd hin
  · exact mem_taintOut_of_instsAfter h hf hd hafter

theorem ne_zero_of_isVersion {var : String} (hversion : IsVersion ssa id var) : id ≠ 0 := by
  obtain ⟨name, hname, rfl, -⟩ := hversion
  exact (h.strictForm.unique name hname).1

theorem Derived.ne_zero (hderived : input.Derived ssa id) : id ≠ 0 := by
  cases hderived with
  | source hsource => exact ne_zero_of_isVersion h hsource.2.2.1
  | inst _ _ _ _ _ _ hname | phi _ _ _ _ hname => exact ne_zero_of_isVersion h hname.choose_spec

theorem taintedFromDef_of_source (hf : Followed input ssa) {source : TaintSource}
    (hsource : input.DefinesSource ssa source block id) : TaintedFromDef input ssa id block := by
  obtain ⟨hline, hvariable⟩ := hf.found source block id hsource
  obtain ⟨hmem, hblock, -, inst, hinst, hinstLine, htarget⟩ := hsource
  have hids : (ssa.blocks.map (·.id)).Nodup := h.ids ▸ hf.ids
  refine ⟨hblock, List.mem_append_right _ (List.mem_filterMap.2 ⟨inst, hinst, htarget⟩), .inl ?_⟩
  have hname : id ∈ seededNames ssa source block.id := by
    unfold seededNames
    rw [blockInsts_eq hids hblock (h.pairwise_instructions hblock)]
    refine List.mem_filterMap.2 ⟨inst, hinst, ?_⟩
    rw [if_neg (not_not.2 hinstLine), htarget]
    simp [hvariable]
  have hkey : TaintKey.versioned id ∈ seededKeys ssa source block.id := by
    unfold seededKeys
    dsimp only
    rw [if_neg]
    · exact List.mem_map_of_mem hname
    · rw [List.isEmpty_iff]
      exact List.ne_nil_of_mem hname
  refine Finset.mem_union_right _ (List.mem_toFinset.2 (List.mem_flatMap.2 ⟨source, ?_, hkey⟩))
  exact List.mem_filter.2 ⟨hmem, decide_eq_true hline⟩

section

variable (hf : Followed input ssa) (hedges : ∀ a b, input.cfg.Edge a b → b ∈ input.cfg.blockIds)
  {used : Nat} (hne : used ≠ 0) (hused : TaintedFromDef input ssa used d)
  (hblock : block ∈ ssa.blocks)
include hf hedges hne hused hblock

theorem taintedFromDef_of_inst (hinst : inst ∈ block.instructions)
    (hsanitizer : inst.line ∉ input.sanitizerLines) (huse : used ∈ inst.uses)
    (htarget : inst.target = some id) (hid : id ≠ 0) : TaintedFromDef input ssa id block := by
  have hmem : id ∈ block.targets :=
    List.mem_append_right _ (List.mem_filterMap.2 ⟨inst, hinst, htarget⟩)
  obtain ⟨k, hk⟩ := List.mem_iff_getElem?.1 hinst
  refine ⟨hblock, hmem, .inr ⟨k, inst, hk, htarget, ?_⟩⟩
  refine target_mem_instsAfter hk ?_ huse htarget hsanitizer
  have hsame : ∀ {block' : SsaBlock}, block' ∈ ssa.blocks → used ∈ block'.targets → block' = d :=
    fun hblock' hmem' => h.eq_of_mem_targets hblock' hused.1 hmem' hused.2.1 hne
  rcases h.strictForm.operands block hblock k inst hk used huse with
    ⟨d', hd', hdom, hmem'⟩ | hphi | ⟨j, hjk, earlier, hj, htarget'⟩
  · -- from a strict dominator the name gets along a path to an edge into the block
    obtain rfl := hsame hd' hmem'
    have hvisited := (h.visited_of_mem_targets hblock hmem hid).1
    have hreachable : input.cfg.Reachable block.id := hvisited.reachable (.refl _)
    obtain ⟨l, w⟩ := hdom.1.reach_from hreachable
    obtain ⟨l, rfl⟩ := w.eq_concat
    have hl : l ≠ [] := by
      rintro rfl
      have hhead := w.head
      rw [List.nil_append, List.head?_cons, Option.some_inj] at hhead
      exact hdom.2 hhead.symm
    obtain ⟨p, wp, hedge⟩ := w.exists_last_step hl
    refine instsAfter_mono (j := 0) (Nat.zero_le _) (mem_ssaTaintIn_of_edge hedge ?_)
    exact mem_taintOut_of_reach h hf hedges ⟨l, wp⟩ (hused.mem_taintOut h hf)
  · obtain rfl := hsame hblock (List.mem_append_left _ hphi)
    obtain ⟨-, -, hin | ⟨j, earlier, hj, htarget', -⟩⟩ := hused
    · exact instsAfter_mono (j := 0) (Nat.zero_le _) hin
    · exact absurd hphi (h.target_ne_phi hblock hj htarget')
  · obtain rfl := hsame hblock
      (List.mem_append_right _ (List.mem_filterMap.2 ⟨earlier, List.mem_of_getElem? hj, htarget'⟩))
    obtain ⟨-, -, hin | ⟨j', earlier', hj', htarget'', hafter⟩⟩ := hused
    · exact instsAfter_mono (j := 0) (Nat.zero_le _) hin
    · obtain rfl := h.eq_of_target_eq hblock hj hj' htarget' htarget''
      exact instsAfter_mono hjk hafter

theorem taintedFromDef_of_phi (hphi : phi ∈ block.phiFunctions)
    (huse : used ∈ phi.sources.map (·.name)) : TaintedFromDef input ssa phi.target block := by
  have hids : (ssa.blocks.map (·.id)).Nodup := h.ids ▸ hf.ids
  refine ⟨hblock, List.mem_append_left _ (List.mem_map_of_mem hphi), .inl ?_⟩
  obtain ⟨source, hsource, rfl⟩ := List.mem_map.1 huse
  obtain ⟨hedge, hvisited, d', hd', hdom, hmem⟩ := h.phi_source hblock hphi hsource hne
  obtain rfl := h.eq_of_mem_targets hd' hused.1 hmem hused.2.1 hne
  have hreachable : input.cfg.Reachable source.block := hvisited.reachable (.refl _)
  have hpred := mem_taintOut_of_reach h hf hedges (hdom.reach_from hreachable)
    (hused.mem_taintOut h hf)
  unfold ssaTaintIn
  rw [blockPhis_eq hids hblock]
  refine Finset.mem_union_left _ (target_mem_mergePhis hphi huse ?_)
  refine Finset.mem_biUnion.2 ⟨source.block, ?_, hpred⟩
  rw [List.mem_toFinset]
  exact CfgInfo.mem_predecessors.2 hedge

end

/-- **Derived names are tainted from their definitions on.** -/
theorem Derived.exists_taintedFromDef (hf : Followed input ssa)
    (hedges : ∀ a b, input.cfg.Edge a b → b ∈ input.cfg.blockIds)
    (hderived : input.Derived ssa id) :
    ∃ block, TaintedFromDef input ssa id block := by
  induction hderived with
  | source hsource => exact ⟨_, taintedFromDef_of_source h hf hsource⟩
  | inst hused hblock hinst hsanitizer huse htarget hname ih =>
    obtain ⟨d, hd⟩ := ih
    exact ⟨_, taintedFromDef_of_inst h hf hedges (hused.ne_zero h) hd hblock hinst hsanitizer
      huse htarget (ne_zero_of_isVersion h hname.choose_spec)⟩
  | phi hused hblock hphi huse _ ih =>
    obtain ⟨d, hd⟩ := ih
    exact ⟨_, taintedFromDef_of_phi h hf hedges (hused.ne_zero h) hd hblock hphi huse⟩

/-- The name is defined by one instruction, in one block. -/
theorem eq_of_mem_blockInsts {a : Nat} {inst' : SsaInstruction} (hblock : block ∈ ssa.blocks)
    (hinst : inst ∈ block.instructions) (htarget : inst.target = some id) (hid : id ≠ 0)
    (hinst' : inst' ∈ blockInsts ssa a) (htarget' : inst'.target = some id) :
    inst' = inst ∧ block.id = a := by
  unfold blockInsts at hinst'
  cases hfind : ssa.blocks.reverse.find? (·.id = a) with
  | none =>
    rw [hfind] at hinst'
    cases hinst'
  | some block' =>
    rw [hfind] at hinst'
    have hblock' := List.mem_reverse.1 (List.mem_of_find?_eq_some hfind)
    have hinst' : inst' ∈ block'.instructions := (List.mem_insertionSort _).1 hinst'
    obtain rfl := h.eq_of_mem_targets hblock hblock'
      (List.mem_append_right _ (List.mem_filterMap.2 ⟨inst, hinst, htarget⟩))
      (List.mem_append_right _ (List.mem_filterMap.2 ⟨inst', hinst', htarget'⟩)) hid
    obtain ⟨k, hk⟩ := List.mem_iff_getElem?.1 hinst
    obtain ⟨k', hk'⟩ := List.mem_iff_getElem?.1 hinst'
    obtain rfl := h.eq_of_target_eq hblock hk hk' htarget htarget'
    rw [hk] at hk'
    exact ⟨(Option.some_inj.1 hk').symm, by simpa using List.find?_some hfind⟩

theorem exists_seed_of_mem_taintOut (hblock : block ∈ ssa.blocks)
    (hinst : inst ∈ block.instructions)
    (htarget : inst.target = some id) (hid : id ≠ 0) (huses : inst.uses = [])
    (hmem : TaintKey.versioned id ∈ (input.ssaPropagate ssa).1 b) :
    ∃ a, TaintKey.versioned id ∈ input.ssaSeeds ssa a := by
  have hphi : ∀ a, ∀ phi ∈ blockPhis ssa a, phi.target ≠ id := by
    intro a phi hphi heq
    unfold blockPhis at hphi
    cases hfind : ssa.blocks.reverse.find? (·.id = a) with
    | none =>
      rw [hfind] at hphi
      cases hphi
    | some block' =>
      rw [hfind] at hphi
      have hblock' := List.mem_reverse.1 (List.mem_of_find?_eq_some hfind)
      have hmem' : id ∈ block'.phiFunctions.map (·.target) := List.mem_map.2 ⟨phi, hphi, heq⟩
      obtain rfl := h.eq_of_mem_targets hblock hblock'
        (List.mem_append_right _ (List.mem_filterMap.2 ⟨inst, hinst, htarget⟩))
        (List.mem_append_left _ hmem') hid
      obtain ⟨k, hk⟩ := List.mem_iff_getElem?.1 hinst
      exact h.target_ne_phi hblock hk htarget hmem'
  have hinsts : ∀ a, ∀ inst' ∈ blockInsts ssa a, inst'.target = some id → inst'.uses = [] := by
    intro a inst' hinst' htarget'
    obtain ⟨rfl, -⟩ := eq_of_mem_blockInsts h hblock hinst htarget hid hinst' htarget'
    exact huses
  have hfst : (input.ssaPropagate ssa).1 = (Dataflow.solve (input.ssaTransfer ssa)
      input.cfg.successors input.maxIterations (ssa.blocks.map (·.id)) (input.ssaSeeds ssa)).1 := by
    rw [← ssaIterate_eq_solve _ _ _ ∅]
    rfl
  rw [hfst] at hmem
  refine Dataflow.solve_induct (I := fun out => ∀ b, TaintKey.versioned id ∈ out b →
    ∃ a, TaintKey.versioned id ∈ input.ssaSeeds ssa a) (fun b hb => ⟨b, hb⟩) ?_ b hmem
  intro out c hout b hb
  by_cases hbc : b = c
  · subst hbc
    rw [Function.update_self] at hb
    have hin := mem_of_mem_foldl_processInst (hinsts b) hb
    rcases Finset.mem_union.1 hin with hin | hin
    · have hpred := mem_of_mem_mergePhis (hphi b) hin
      obtain ⟨p, -, hp⟩ := Finset.mem_biUnion.1 hpred
      exact hout p hp
    · exact ⟨b, hin⟩
  · rw [Function.update_of_ne hbc] at hb
    exact hout b hb

theorem variableAt_of_mem_ssaSeeds {a : Nat} (hblock : block ∈ ssa.blocks)
    (hinst : inst ∈ block.instructions) (htarget : inst.target = some id) (hid : id ≠ 0)
    (hseed : TaintKey.versioned id ∈ input.ssaSeeds ssa a) :
    ∃ source ∈ input.sources, source.line = inst.line ∧
      lineToBlock input.cfg inst.line = some block.id ∧ variableAt ssa id = some source.var := by
  obtain ⟨source, hsource, hkey⟩ := List.mem_flatMap.1 (List.mem_toFinset.1 hseed)
  obtain ⟨hsource, hline⟩ := List.mem_filter.1 hsource
  rw [decide_eq_true_eq] at hline
  have hname : id ∈ seededNames ssa source a := by
    unfold seededKeys at hkey
    dsimp only at hkey
    split_ifs at hkey with hnil
    · cases List.mem_singleton.1 hkey
    · obtain ⟨id', hid', heq⟩ := List.mem_map.1 hkey
      cases heq
      exact hid'
  obtain ⟨inst', hinst', hname⟩ := List.mem_filterMap.1 hname
  split_ifs at hname with hinstLine
  rw [Option.filter_eq_some_iff, decide_eq_true_eq] at hname
  obtain ⟨rfl, hida⟩ := eq_of_mem_blockInsts h hblock hinst htarget hid hinst' hname.1
  have hsame : inst'.line = source.line := by simpa using hinstLine
  refine ⟨source, hsource, hsame.symm, ?_, hname.2⟩
  rw [hsame, hline, hida]

end Shape

/-! ## Completeness -/

variable {dfg : DfgInfo} {ord ord' : HashOrder} {info : TaintInfo}

theorem convergence_eq_none (hblocks : ssa.blocks ≠ [])
    (hok : input.computeTaint ord (some ssa) = .ok info) :
    validateCfg ord input.cfg = .ok () ∧ info.convergence = none := by
  unfold computeTaint at hok
  cases hvalid : validateCfg ord input.cfg with
  | error e =>
    rw [hvalid] at hok
    cases hok
  | ok u =>
    have hsome : (some ssa).filter (fun ssa => !ssa.blocks.isEmpty) = some ssa := by
      simp [Option.filter, hblocks]
    rw [hvalid, hsome] at hok
    cases hok
    exact ⟨rfl, rfl⟩

theorem exists_computeTaint (ord : HashOrder) (input : TaintInput) (ssa : SsaFunction)
    (hvalid : validateCfg ord input.cfg = .ok ()) :
    ∃ info, input.computeTaint ord (some ssa) = .ok info := by
  unfold computeTaint
  rw [hvalid]
  cases (some ssa).filter fun ssa => !ssa.blocks.isEmpty with
  | none => exact ⟨_, rfl⟩
  | some ssa => exact ⟨_, rfl⟩

/-- **Taint follows the chains** where the definitions of the sources are found, the loop is not
left early and the blocks have ids of their own. A definition without operands has to be found; a
limit is not reported in any case. -/
theorem complete_of_followed (hssa : constructMinimalSsa ord input.cfg dfg = .ok ssa)
    (hok : input.computeTaint ord' (some ssa) = .ok info) :
    info.convergence = none ∧ (Followed input ssa → input.SsaComplete ssa) ∧
      (input.SsaComplete ssa → ∀ source block id, input.DefinesSource ssa source block id →
        (∀ inst ∈ block.instructions, inst.target = some id → inst.uses = []) →
          lineToBlock input.cfg source.line = some block.id ∧
            ∃ source' ∈ input.sources, source'.line = source.line ∧
              variableAt ssa id = some source'.var) := by
  obtain ⟨tree, placements, N, h⟩ := Ssa.exists_shape_of_constructMinimalSsa hssa
  have hvalid : validateCfg ord' input.cfg = .ok () := by
    unfold computeTaint at hok
    cases hvalid : validateCfg ord' input.cfg with
    | error e =>
      rw [hvalid] at hok
      cases hok
    | ok u => rfl
  have hblocks : ssa.blocks ≠ [] := by
    intro hnil
    have hids := h.ids
    rw [hnil, List.map_nil] at hids
    unfold validateCfg at hvalid
    have hcfg : input.cfg.blocks = [] := List.map_eq_nil_iff.1 hids.symm
    simp [hcfg] at hvalid
  refine ⟨(convergence_eq_none hblocks hok).2, ?_, ?_⟩
  · intro hf id hderived d hd hid b hb hdom
    have hedges : ∀ a b, input.cfg.Edge a b → b ∈ input.cfg.blockIds := fun a b hedge =>
      (edge_mem hvalid hedge).2
    obtain ⟨block, hblock⟩ := hderived.exists_taintedFromDef h hf hedges
    obtain rfl := h.eq_of_mem_targets hblock.1 hd hblock.2.1 hid (hderived.ne_zero h)
    exact mem_taintOut_of_reach h hf hedges (hdom.reach_from hb) (hblock.mem_taintOut h hf)
  · intro hcomplete source block id hsource huses
    have hid := ne_zero_of_isVersion h hsource.2.2.1
    have hdefines := hsource
    obtain ⟨-, hblock, -, inst, hinst, hline, htarget⟩ := hdefines
    have hmem : id ∈ block.targets :=
      List.mem_append_right _ (List.mem_filterMap.2 ⟨inst, hinst, htarget⟩)
    have hvisited := (h.visited_of_mem_targets hblock hmem hid).1
    have htainted := hcomplete id (.source hsource) block hblock hmem block.id
      (hvisited.reachable (.refl _)) (.refl _)
    obtain ⟨a, hseed⟩ := exists_seed_of_mem_taintOut h hblock hinst htarget hid
      (huses inst hinst htarget) htainted
    obtain ⟨source', hsource', hline', hfound, hvariable⟩ :=
      variableAt_of_mem_ssaSeeds h hblock hinst htarget hid hseed
    rw [hline] at hline' hfound
    exact ⟨hfound, source', hsource', hline', hvariable⟩

/-- `x = input(); y = x`. -/
def copied : TaintInput where
  cfg := ⟨"main", [⟨0, (1, 2)⟩], [], 0, [0]⟩
  refs := [⟨"x", .definition, 1, 0⟩, ⟨"x", .use, 2, 4⟩, ⟨"y", .definition, 2, 0⟩]
  statements := ∅
  sources := [⟨"x", 1, .userInput, none⟩]
  sinks := []
  sanitizerLines := []

/-- The name after `x` is one of `y`, and neither is tainted. -/
theorem not_complete_copied : ∃ ssa info,
    constructMinimalSsa .insertion copied.cfg ⟨copied.refs⟩ = .ok ssa ∧
      copied.computeTaint .insertion (some ssa) = .ok info ∧ info.convergence = none ∧
        ¬ copied.SsaComplete ssa := by
  have hcheck : (constructMinimalSsa .insertion copied.cfg ⟨copied.refs⟩).toOption.map (fun ssa =>
      decide ((∃ block ∈ ssa.blocks, block.id = 0 ∧
          ∃ inst ∈ block.instructions, inst.line = 1 ∧ inst.target = some 1) ∧
        (∃ name ∈ ssa.ssaNames, name.id = 1 ∧ name.var = "x") ∧
        TaintKey.versioned 1 ∉ (copied.ssaPropagate ssa).1 0)) = some true := by
    decide +kernel
  obtain ⟨ssa, hok, hcheck⟩ := exists_ok_of_map hcheck
  obtain ⟨⟨block, hblock, hid, inst, hinst, hline, htarget⟩, hversion, hclean⟩ :=
    of_decide_eq_true hcheck
  obtain ⟨info, hinfo⟩ := exists_computeTaint .insertion copied ssa rfl
  refine ⟨ssa, info, hok, hinfo, (convergence_eq_none (List.ne_nil_of_mem hblock) hinfo).2,
    fun hcomplete => hclean ?_⟩
  have hderived : copied.Derived ssa 1 :=
    .source ⟨List.mem_singleton.2 rfl, hblock, hversion, inst, hinst, hline, htarget⟩
  refine hcomplete 1 hderived block hblock ?_ 0 (.refl 0) (by rw [hid]; exact .refl 0)
  exact List.mem_append_right _ (List.mem_filterMap.2 ⟨inst, hinst, htarget⟩)

/-- `x = input(); x += 1`. -/
def counted : TaintInput :=
  { copied with refs := [⟨"x", .definition, 1, 0⟩, ⟨"x", .update, 2, 0⟩] }

theorem complete_of_followed_counted : ∃ ssa info,
    constructMinimalSsa .insertion counted.cfg ⟨counted.refs⟩ = .ok ssa ∧
      counted.computeTaint .insertion (some ssa) = .ok info ∧ Followed counted ssa ∧
        info.convergence = none ∧ counted.SsaComplete ssa := by
  have hcheck : (constructMinimalSsa .insertion counted.cfg ⟨counted.refs⟩).toOption.map
      (fun ssa => decide ((counted.ssaPropagate ssa).2.2 = false ∧
        ∀ source ∈ counted.sources, ∀ block ∈ ssa.blocks, ∀ inst ∈ block.instructions,
          inst.line = source.line → ∀ id ∈ inst.target,
            lineToBlock counted.cfg source.line = some block.id ∧
              variableAt ssa id = some source.var)) = some true := by
    decide +kernel
  obtain ⟨ssa, hok, hcheck⟩ := exists_ok_of_map hcheck
  obtain ⟨hfinished, hfound⟩ := of_decide_eq_true hcheck
  obtain ⟨info, hinfo⟩ := exists_computeTaint .insertion counted ssa rfl
  have hf : Followed counted ssa := by
    refine ⟨by decide, ?_, hfinished⟩
    rintro source block id ⟨hsource, hblock, -, inst, hinst, hline, htarget⟩
    exact hfound source hsource block hblock inst hinst hline id htarget
  have hspec := complete_of_followed hok hinfo
  exact ⟨ssa, info, hok, hinfo, hf, hspec.1, hspec.2.1 hf⟩

end TaintInput

end TldrCode.Security
