import TldrCode.Ssa.SsaShape

/-!
# Phi placement

`computeIteratedDf` is the closure of the dominance frontier (`mem_computeIteratedDf`), and a
variable gets a phi function at the blocks of this closure over its definitions
(`mem_placePhis`). `PhiAt` puts this together: the blocks where minimal SSA has phi functions, in
terms of the graph and the references (`mem_placePhiFunctions`).
-/

namespace TldrCode.Ssa

open Function (update)
open TldrCode.Graph

variable {ord : HashOrder} {df : DominanceFrontier} {blocks worklist processed idf ids : List Nat}
  {b x y : Nat} {v : String} {m : List (String × List Nat)}

/-! ## Iterated dominance frontiers -/

/-- The blocks reached from `S` by one or more steps to a dominance frontier. -/
inductive IteratedDf (df : DominanceFrontier) (S : Nat → Prop) : Nat → Prop
  | base {b y : Nat} (hb : S b) (hy : y ∈ df.get b) : IteratedDf df S y
  | step {b y : Nat} (hb : IteratedDf df S b) (hy : y ∈ df.get b) : IteratedDf df S y

theorem IteratedDf.mono {S S' : Nat → Prop} (h : IteratedDf df S y) (hS : ∀ x, S x → S' x) :
    IteratedDf df S' y := by
  induction h with
  | base hb hy => exact .base (hS _ hb) hy
  | step _ hy ih => exact .step ih hy

theorem iteratedDf_exists {ι : Type*} {S : ι → Nat → Prop} :
    IteratedDf df (fun x => ∃ i, S i x) y ↔ ∃ i, IteratedDf df (S i) y := by
  refine ⟨fun h => ?_, fun ⟨i, h⟩ => h.mono fun x hx => ⟨i, hx⟩⟩
  induction h with
  | base hb hy => exact hb.imp fun i hi => .base hi hy
  | step _ hy ih => exact ih.imp fun i hi => .step hi hy

/-- The members of one frontier enter the result, and the worklist if they are new. -/
theorem iteratedStep_foldl (processed l : List Nat) : ∀ idf worklist,
    let state := l.foldl (iteratedStep processed) (idf, worklist)
    (∀ x, x ∈ state.1 ↔ x ∈ idf ∨ x ∈ l) ∧ (idf.Nodup → state.1.Nodup) ∧
      (∀ x ∈ worklist, x ∈ state.2) ∧ (∀ x ∈ state.2, x ∈ worklist ∨ x ∈ l) ∧
      (∀ x ∈ state.1, x ∈ idf ∨ x ∈ processed ∨ x ∈ state.2) ∧
      state.2.length + idf.length ≤ worklist.length + state.1.length := by
  induction l with
  | nil => intro idf worklist; simp +contextual
  | cons y l ih =>
    intro idf worklist
    rw [List.foldl_cons]
    by_cases hy : y ∈ idf
    · have : iteratedStep processed (idf, worklist) y = (idf, worklist) := by
        simp [iteratedStep, hy]
      rw [this]
      obtain ⟨h₁, h₂, h₃, h₄, h₅, h₆⟩ := ih idf worklist
      refine ⟨fun x => ?_, h₂, h₃, fun x hx => ?_, h₅, h₆⟩
      · rw [h₁, List.mem_cons]
        constructor
        · tauto
        · rintro (hx | rfl | hx) <;> tauto
      · exact (h₄ x hx).imp_right (List.mem_cons_of_mem _)
    · have : iteratedStep processed (idf, worklist) y =
          (idf.insert y, if y ∈ processed then worklist else y :: worklist) := by
        simp [iteratedStep, hy]
      rw [this]
      obtain ⟨h₁, h₂, h₃, h₄, h₅, h₆⟩ :=
        ih (idf.insert y) (if y ∈ processed then worklist else y :: worklist)
      refine ⟨fun x => ?_, fun hn => h₂ (hn.insert), fun x hx => h₃ x ?_, fun x hx => ?_,
        fun x hx => ?_, ?_⟩
      · rw [h₁, List.mem_insert_iff, List.mem_cons]
        tauto
      · split_ifs
        · exact hx
        · exact List.mem_cons_of_mem _ hx
      · rcases h₄ x hx with hx | hx
        · split_ifs at hx
          · exact .inl hx
          · rcases List.mem_cons.1 hx with rfl | hx
            · exact .inr List.mem_cons_self
            · exact .inl hx
        · exact .inr (List.mem_cons_of_mem _ hx)
      · rcases h₅ x hx with hx | hx
        · rcases List.mem_insert_iff.1 hx with rfl | hx
          · by_cases hp : x ∈ processed
            · exact .inr (.inl hp)
            · exact .inr (.inr (h₃ x (by simp [hp])))
          · exact .inl hx
        · exact .inr hx
      · rw [List.length_insert_of_not_mem hy] at h₆
        split_ifs at h₆ ⊢
        · omega
        · rw [List.length_cons] at h₆
          omega

/-- The state of `compute_iterated_df` between two rounds, for the blocks given `S`. -/
structure IteratedInv (df : DominanceFrontier) (S : Nat → Prop) (ids worklist processed idf :
    List Nat) : Prop where
  nodup : idf.Nodup
  subset : ∀ x ∈ idf, x ∈ ids
  sound : ∀ x ∈ idf, IteratedDf df S x
  pushed : ∀ x ∈ worklist, S x ∨ x ∈ idf
  closed : ∀ x ∈ processed, ∀ y ∈ df.get x, y ∈ idf
  pending : ∀ x, S x ∨ x ∈ idf → x ∈ processed ∨ x ∈ worklist

theorem IteratedInv.mem_iff {S : Nat → Prop} (h : IteratedInv df S ids [] processed idf) :
    y ∈ idf ↔ IteratedDf df S y := by
  refine ⟨h.sound y, fun hy => ?_⟩
  have hall : ∀ x, S x ∨ x ∈ idf → x ∈ processed := fun x hx => by simpa using h.pending x hx
  induction hy with
  | base hb hy => exact h.closed _ (hall _ (.inl hb)) _ hy
  | step _ hy ih => exact h.closed _ (hall _ (.inr ih)) _ hy

theorem iteratedLoop_spec {S : Nat → Prop} (hids : ∀ x, ∀ y ∈ df.get x, y ∈ ids) :
    ∀ rounds worklist processed idf, IteratedInv df S ids worklist processed idf →
      worklist.length + ids.length ≤ rounds + idf.length →
      (iteratedLoop ord df rounds worklist processed idf).Nodup ∧
        ∀ y, y ∈ iteratedLoop ord df rounds worklist processed idf ↔ IteratedDf df S y := by
  intro rounds
  induction rounds with
  | zero =>
    intro worklist processed idf h hle
    have hlen := (h.nodup.subperm h.subset).length_le
    obtain rfl : worklist = [] := List.length_eq_zero_iff.1 (by omega)
    exact ⟨h.nodup, fun y => h.mem_iff⟩
  | succ rounds ih =>
    intro worklist processed idf h hle
    match worklist with
    | [] => exact ⟨h.nodup, fun y => h.mem_iff⟩
    | block :: worklist =>
      rw [List.length_cons] at hle
      simp only [iteratedLoop]
      split_ifs with hp
      · refine ih _ _ _ ⟨h.nodup, h.subset, h.sound,
          fun x hx => h.pushed x (List.mem_cons_of_mem _ hx), h.closed, fun x hx => ?_⟩ (by omega)
        rcases h.pending x hx with hx | hx
        · exact .inl hx
        · rcases List.mem_cons.1 hx with rfl | hx
          · exact .inl hp
          · exact .inr hx
      · have hblock := h.pushed block List.mem_cons_self
        cases hf : df.frontier block with
        | none =>
          have hget : df.get block = [] := by simp [DominanceFrontier.get, hf]
          refine ih _ _ _ ⟨h.nodup, h.subset, h.sound,
            fun x hx => h.pushed x (List.mem_cons_of_mem _ hx), fun x hx y hy => ?_,
            fun x hx => ?_⟩ (by omega)
          · rcases List.mem_insert_iff.1 hx with rfl | hx
            · simp [hget] at hy
            · exact h.closed x hx y hy
          · rw [List.mem_insert_iff]
            rcases h.pending x hx with hx | hx
            · exact .inl (.inr hx)
            · exact (List.mem_cons.1 hx).imp_left .inl
        | some frontier =>
          have hget : ∀ y, y ∈ df.get block ↔ y ∈ ord.order frontier := by
            simp [DominanceFrontier.get, hf]
          obtain ⟨h₁, h₂, h₃, h₄, h₅, h₆⟩ :=
            iteratedStep_foldl (processed.insert block) (ord.order frontier) idf worklist
          dsimp only at h₁ h₂ h₃ h₄ h₅ h₆ ⊢
          refine ih _ _ _ ⟨h₂ h.nodup, fun x hx => ?_, fun x hx => ?_, fun x hx => ?_,
            fun x hx y hy => ?_, fun x hx => ?_⟩ (by omega)
          · rcases (h₁ x).1 hx with hx | hx
            · exact h.subset x hx
            · exact hids block x ((hget x).2 hx)
          · rcases (h₁ x).1 hx with hx | hx
            · exact h.sound x hx
            · rcases hblock with hb | hb
              · exact .base hb ((hget x).2 hx)
              · exact .step (h.sound _ hb) ((hget x).2 hx)
          · rw [h₁]
            rcases h₄ x hx with hx | hx
            · exact (h.pushed x (List.mem_cons_of_mem _ hx)).imp_right .inl
            · exact .inr (.inr hx)
          · rw [h₁]
            rcases List.mem_insert_iff.1 hx with rfl | hx
            · exact .inr ((hget y).1 hy)
            · exact .inl (h.closed x hx y hy)
          · have hpend : S x ∨ x ∈ idf → x ∈ processed.insert block ∨ x ∈
                ((ord.order frontier).foldl (iteratedStep (processed.insert block))
                  (idf, worklist)).2 := fun hx => by
              rw [List.mem_insert_iff]
              rcases h.pending x hx with hx | hx
              · exact .inl (.inr hx)
              · exact (List.mem_cons.1 hx).imp .inl (h₃ x)
            rcases hx with hx | hx
            · exact hpend (.inl hx)
            · rcases h₅ x hx with hx | hx
              · exact hpend (.inr hx)
              · exact hx

/-- **`computeIteratedDf` is the closure**, without repetitions. -/
theorem mem_computeIteratedDf (hids : ∀ x, ∀ y ∈ df.get x, y ∈ ids) {rounds : Nat}
    (hr : blocks.length + ids.length ≤ rounds) :
    (computeIteratedDf ord df rounds blocks).Nodup ∧
      ∀ y, y ∈ computeIteratedDf ord df rounds blocks ↔ IteratedDf df (· ∈ blocks) y := by
  refine iteratedLoop_spec hids rounds _ [] [] ⟨List.nodup_nil, by simp, by simp, ?_, by simp, ?_⟩
    ?_
  · simp
  · simp
  · have := (ord.perm blocks).length_eq
    simp only [List.length_reverse, List.length_nil]
    omega

/-! ## The definitions -/

/-- `v` is defined in `b`: a definition of it is on a line of `b`, or outside all blocks and `b`
is the entry. -/
def DefinesIn (cfg : CfgInfo) (dfg : DfgInfo) (v : String) (b : Nat) : Prop :=
  ∃ r ∈ dfg.refs, r.isDef ∧ r.name = v ∧ (lineToBlock cfg r.line).getD cfg.entryBlock = b

theorem insertBlock_keys (name : String) (block : Nat) (hm : (m.map (·.1)).Nodup) :
    ((insertBlock m name block).map (·.1)).Nodup := by
  rw [insertBlock]
  split_ifs with hany
  · rw [List.map_map]
    have hkeys : (Prod.fst ∘ fun entry : String × List Nat =>
        if entry.1 = name then (entry.1, entry.2.insert block) else entry) = Prod.fst := by
      funext entry
      by_cases h : entry.1 = name <;> simp [h]
    rw [hkeys]
    exact hm
  · rw [List.map_append, List.nodup_append]
    refine ⟨hm, by simp, ?_⟩
    simp only [List.any_eq_true, beq_iff_eq, not_exists, not_and] at hany
    rintro a ha b hb rfl
    obtain ⟨entry, he, rfl⟩ := List.mem_map.1 ha
    exact hany entry he (by simpa using hb)

theorem mem_insertBlock {name : String} {block : Nat} :
    (∃ entry ∈ insertBlock m name block, entry.1 = v ∧ b ∈ entry.2) ↔
      (∃ entry ∈ m, entry.1 = v ∧ b ∈ entry.2) ∨ name = v ∧ block = b := by
  rw [insertBlock]
  split_ifs with hany
  · simp only [List.any_eq_true, beq_iff_eq] at hany
    obtain ⟨known, hknown, hk⟩ := hany
    simp only [List.mem_map, exists_exists_and_eq_and]
    constructor
    · rintro ⟨entry, he, hv, hb⟩
      split_ifs at hv hb with hn
      · rcases List.mem_insert_iff.1 hb with rfl | hb
        · exact .inr ⟨hn.symm.trans hv, rfl⟩
        · exact .inl ⟨entry, he, hv, hb⟩
      · exact .inl ⟨entry, he, hv, hb⟩
    · rintro (⟨entry, he, hv, hb⟩ | ⟨hn, rfl⟩)
      · refine ⟨entry, he, ?_⟩
        split_ifs
        · exact ⟨hv, List.mem_insert_of_mem hb⟩
        · exact ⟨hv, hb⟩
      · exact ⟨known, hknown, by simp [hk, hn]⟩
  · simp [or_and_right, exists_or, eq_comm]

/-- **`collectVariableDefinitions`** lists every variable once, with the blocks that define it. -/
theorem collectVariableDefinitions_spec (cfg : CfgInfo) (dfg : DfgInfo) :
    ((collectVariableDefinitions cfg dfg).map (·.1)).Nodup ∧
      ∀ v b, (∃ entry ∈ collectVariableDefinitions cfg dfg, entry.1 = v ∧ b ∈ entry.2) ↔
        DefinesIn cfg dfg v b := by
  have key : ∀ (refs : List VarRef) (m : List (String × List Nat)), (m.map (·.1)).Nodup →
      let m' := refs.foldl (fun varDefs varRef => if varRef.isDef then
        insertBlock varDefs varRef.name ((lineToBlock cfg varRef.line).getD cfg.entryBlock)
        else varDefs) m
      (m'.map (·.1)).Nodup ∧ ∀ v b, (∃ entry ∈ m', entry.1 = v ∧ b ∈ entry.2) ↔
        (∃ entry ∈ m, entry.1 = v ∧ b ∈ entry.2) ∨ ∃ r ∈ refs, r.isDef ∧ r.name = v ∧
          (lineToBlock cfg r.line).getD cfg.entryBlock = b := by
    intro refs
    induction refs with
    | nil => intro m hm; simpa using hm
    | cons r refs ih =>
      intro m hm
      rw [List.foldl_cons]
      by_cases hr : r.isDef
      · rw [if_pos hr]
        obtain ⟨h₁, h₂⟩ := ih _ (insertBlock_keys r.name _ hm)
        refine ⟨h₁, fun v b => (h₂ v b).trans ?_⟩
        rw [mem_insertBlock]
        simp [hr, or_assoc]
      · rw [if_neg hr]
        obtain ⟨h₁, h₂⟩ := ih m hm
        refine ⟨h₁, fun v b => (h₂ v b).trans ?_⟩
        simp [hr]
  obtain ⟨h₁, h₂⟩ := key dfg.refs [] (by simp)
  exact ⟨h₁, fun v b => (h₂ v b).trans (by simp [DefinesIn])⟩

theorem placeVar_apply (isLive : Nat → String → Bool) (l : List Nat) (hl : l.Nodup) :
    ∀ (placements : Nat → List String) (b : Nat), l.foldl (fun placements block =>
      if isLive block v then update placements block (placements block ++ [v]) else placements)
      placements b = placements b ++ if b ∈ l ∧ isLive b v then [v] else [] := by
  induction l with
  | nil => simp
  | cons x l ih =>
    intro placements b
    obtain ⟨hx, hl⟩ := List.nodup_cons.1 hl
    rw [List.foldl_cons, ih hl]
    by_cases hb : b = x
    · subst hb
      by_cases hlive : isLive b v <;> simp [hlive, hx]
    · by_cases hlive : isLive x v <;> simp [hlive, hb]

theorem placePhis_apply (hids : ∀ x, ∀ y ∈ df.get x, y ∈ ids) (isLive : Nat → String → Bool)
    (varDefs : List (String × List Nat)) (b : Nat) :
    placePhis ord df ids.length isLive varDefs b = ((ord.order varDefs).filter fun entry =>
      b ∈ computeIteratedDf ord df (entry.2.length + ids.length) entry.2 ∧
        isLive b entry.1).map (·.1) := by
  have key : ∀ (l : List (String × List Nat)) (placements : Nat → List String),
      l.foldl (fun placements entry =>
        (computeIteratedDf ord df (entry.2.length + ids.length) entry.2).foldl
          (fun placements block => if isLive block entry.1 then
            update placements block (placements block ++ [entry.1]) else placements) placements)
        placements b = placements b ++ (l.filter fun entry =>
          b ∈ computeIteratedDf ord df (entry.2.length + ids.length) entry.2 ∧
            isLive b entry.1).map (·.1) := by
    intro l
    induction l with
    | nil => simp
    | cons entry l ih =>
      intro placements
      rw [List.foldl_cons, ih, placeVar_apply isLive _ (mem_computeIteratedDf hids le_rfl).1,
        List.append_assoc]
      congr 1
      by_cases hb : b ∈ computeIteratedDf ord df (entry.2.length + ids.length) entry.2 ∧
          isLive b entry.1 <;> simp [hb]
  exact (key _ _).trans (List.nil_append _)

/-- **Where phi functions go.** A variable gets at most one in a block, and gets one exactly where
it is live on the iterated dominance frontier of the blocks that define it. -/
theorem mem_placePhis (ord : HashOrder) (hids : ∀ x, ∀ y ∈ df.get x, y ∈ ids)
    (isLive : Nat → String → Bool) {varDefs : List (String × List Nat)}
    (hkeys : (varDefs.map (·.1)).Nodup) (b : Nat) :
    (placePhis ord df ids.length isLive varDefs b).Nodup ∧
      ∀ v, v ∈ placePhis ord df ids.length isLive varDefs b ↔
        IteratedDf df (fun x => ∃ entry ∈ varDefs, entry.1 = v ∧ x ∈ entry.2) b ∧ isLive b v := by
  rw [placePhis_apply hids]
  refine ⟨?_, fun v => ?_⟩
  · refine List.Nodup.sublist (List.filter_sublist.map _) ?_
    exact ((ord.perm varDefs).map _).nodup_iff.2 hkeys
  · simp only [List.mem_map, List.mem_filter, HashOrder.mem_order, decide_eq_true_eq,
      (mem_computeIteratedDf hids le_rfl).2]
    constructor
    · rintro ⟨entry, ⟨hm, hi, hlive⟩, rfl⟩
      exact ⟨hi.mono fun x hx => ⟨entry, hm, rfl, hx⟩, hlive⟩
    · rintro ⟨hi, hlive⟩
      obtain ⟨entry, hentry⟩ := iteratedDf_exists.1 hi
      obtain ⟨hm, rfl⟩ : entry ∈ varDefs ∧ entry.1 = v := by
        clear hi hlive
        induction hentry with
        | base hb _ => exact ⟨hb.1, hb.2.1⟩
        | step _ _ ih => exact ih
      exact ⟨entry, ⟨hm, hentry.mono fun x hx => hx.2.2, hlive⟩, rfl⟩

/-! ## Placement in terms of the graph -/

/-- `y` is in the frontier of `x` that `computeDominanceFrontier` finds: there are two edges into
`y`, one of them from a block that `x` dominates, and `x` neither strictly dominates `y` nor
is `y`. -/
def JoinFrontier (cfg : CfgInfo) (x y : Nat) : Prop :=
  y ∈ cfg.blockIds ∧ 2 ≤ (cfg.predecessors y).length ∧ x ≠ y ∧ ∃ p, cfg.Reachable p ∧
    cfg.Edge p y ∧ cfg.Dominates x p ∧ ¬ cfg.StrictlyDominates x y

/-- The variable `v` gets a phi function in the block: it is on the frontier of a block that
defines `v` or gets a phi function for it. -/
inductive PhiAt (cfg : CfgInfo) (dfg : DfgInfo) (v : String) : Nat → Prop
  | definition {x y : Nat} (hx : DefinesIn cfg dfg v x) (hy : JoinFrontier cfg x y) :
      PhiAt cfg dfg v y
  | phi {x y : Nat} (hx : PhiAt cfg dfg v x) (hy : JoinFrontier cfg x y) : PhiAt cfg dfg v y

variable {cfg : CfgInfo} {dfg : DfgInfo} {tree : DominatorTree}

theorem phiAt_iff (hdf : ∀ b y, y ∈ df.get b ↔ JoinFrontier cfg b y) :
    PhiAt cfg dfg v y ↔ IteratedDf df (DefinesIn cfg dfg v) y := by
  constructor
  · intro h
    induction h with
    | definition hx hy => exact .base hx ((hdf _ _).2 hy)
    | phi _ hy ih => exact .step ih ((hdf _ _).2 hy)
  · intro h
    induction h with
    | base hx hy => exact .definition hx ((hdf _ _).1 hy)
    | step _ hy ih => exact .phi ih ((hdf _ _).1 hy)

theorem IsDominatorTree.mem_frontier (h : IsDominatorTree cfg tree)
    (hdf : computeDominanceFrontier cfg tree = .ok df) :
    y ∈ df.get x ↔ JoinFrontier cfg x y := by
  rcases le_or_gt (frontierCost cfg tree) (tree.nodes.length * tree.nodes.length) with hle | hlt
  · obtain ⟨df', hdf', hmem⟩ := h.computeDominanceFrontier_spec.1 hle
    obtain rfl : df = df' := Except.ok.inj (hdf.symm.trans hdf')
    exact hmem x y
  · rw [h.computeDominanceFrontier_spec.2 hlt] at hdf
    cases hdf

section

variable (ord : HashOrder) (dfg : DfgInfo) (h : IsDominatorTree cfg tree)
  (hdf : computeDominanceFrontier cfg tree = .ok df)
include h hdf

/-- The placement of a construction that keeps the variables `keep` and places a phi function
where `isLive`. -/
theorem mem_placePhis_filter (isLive : Nat → String → Bool) (keep : String → Bool) (b : Nat) :
    let placements := placePhis ord df cfg.blocks.length isLive
      ((collectVariableDefinitions cfg dfg).filter (keep ·.1))
    (placements b).Nodup ∧ ∀ v, v ∈ placements b ↔ PhiAt cfg dfg v b ∧ keep v ∧ isLive b v := by
  obtain ⟨hkeys, hdefs⟩ := collectVariableDefinitions_spec cfg dfg
  have hids : ∀ x, ∀ y ∈ df.get x, y ∈ cfg.blockIds := fun x y hy => ((h.mem_frontier hdf).1 hy).1
  have hlen : cfg.blocks.length = cfg.blockIds.length := (List.length_map _).symm
  dsimp only
  rw [hlen]
  obtain ⟨hnodup, hmem⟩ := mem_placePhis ord hids isLive
    (hkeys.sublist (List.filter_sublist.map _)) b
  refine ⟨hnodup, fun v => (hmem v).trans ?_⟩
  rw [phiAt_iff fun _ _ => h.mem_frontier hdf, ← and_assoc]
  refine and_congr_left fun hlive => ?_
  have hS : ∀ x, (∃ entry ∈ (collectVariableDefinitions cfg dfg).filter (keep ·.1),
      entry.1 = v ∧ x ∈ entry.2) ↔ DefinesIn cfg dfg v x ∧ keep v := by
    intro x
    rw [← hdefs]
    constructor
    · rintro ⟨entry, hm, rfl, hx⟩
      obtain ⟨hm, hk⟩ := List.mem_filter.1 hm
      exact ⟨⟨entry, hm, rfl, hx⟩, hk⟩
    · rintro ⟨⟨entry, hm, rfl, hx⟩, hk⟩
      exact ⟨entry, List.mem_filter.2 ⟨hm, hk⟩, rfl, hx⟩
  by_cases hk : keep v
  · refine ⟨fun hi => ⟨hi.mono fun x hx => ((hS x).1 hx).1, hk⟩, fun ⟨hi, _⟩ => ?_⟩
    exact hi.mono fun x hx => (hS x).2 ⟨hx, hk⟩
  · refine ⟨fun hi => ?_, fun ⟨_, hk'⟩ => absurd hk' hk⟩
    exfalso
    clear hlive hnodup hmem
    induction hi with
    | base hx _ => exact absurd ((hS _).1 hx).2 hk
    | step _ _ ih => exact ih

/-- **Where minimal SSA has phi functions.** -/
theorem mem_placePhiFunctions (b : Nat) :
    let placements := placePhiFunctions ord df cfg.blocks.length
      (collectVariableDefinitions cfg dfg)
    (placements b).Nodup ∧ ∀ v, v ∈ placements b ↔ PhiAt cfg dfg v b := by
  have := mem_placePhis_filter ord dfg h hdf (fun _ _ => true) (fun _ => true) b
  simpa [placePhiFunctions] using this

end

theorem mem_blockDefs : v ∈ (blockDefs cfg dfg b).map (·.name) ↔ DefinesIn cfg dfg v b := by
  simp only [blockDefs, refsSorted, refsInBlock, DefinesIn, List.mem_map, List.mem_filter,
    List.mem_insertionSort]
  constructor
  · rintro ⟨r, ⟨⟨hr, hb⟩, hd⟩, rfl⟩
    refine ⟨r, hr, hd, rfl, ?_⟩
    cases hl : lineToBlock cfg r.line with
    | some c => simpa [hl] using hb
    | none =>
      simp only [hl, Bool.and_eq_true, beq_iff_eq] at hb
      exact hb.1.symm
  · rintro ⟨r, hr, hd, rfl, hb⟩
    refine ⟨r, ⟨⟨hr, ?_⟩, hd⟩, rfl⟩
    cases hl : lineToBlock cfg r.line with
    | some c => simpa [hl] using hb
    | none => simp [← hb, hl, hd]

end TldrCode.Ssa
