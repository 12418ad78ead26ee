import TldrCode.Dfg.Reaching
import TldrCode.Graph.Postorder

/-!
# Reaching definitions in reverse postorder

`compute_reaching_definitions_rpo` visits the reachable blocks in reverse postorder, and it takes
a definition to belong to every block whose lines it is on. `compute_reaching_definitions` visits
all blocks as they are listed, and each definition belongs to one block. Both solve a `flowProblem`
along a schedule, so what they find is described by the same kind of paths (`GetsToStart`,
`GetsToEnd`), and they agree exactly if the paths do (`reachingDefinitions_eq_rpo_iff`).
-/

namespace TldrCode.Dfg

open Dataflow TldrCode.Graph
open scoped List

/-! ## The computation -/

structure ReachingDefinitionsWithStats where
  reaching : ReachingDefinitions
  iterations : Nat

def computeRpo (cfg : CfgInfo) : List Nat :=
  (dfs cfg.successors (cfg.edges.length + 2) cfg.entryBlock ([], [])).2.reverse

/-- The lines of a block; of several blocks with one id the last one counts. -/
def linesOf (cfg : CfgInfo) (b : Nat) : Option (Nat × Nat) :=
  cfg.blocks.foldl (fun found block => if block.id = b then some block.lines else found) none

def inLines (cfg : CfgInfo) (b : Nat) (r : VarRef) : Bool :=
  match linesOf cfg b with
  | some (startLine, endLine) => startLine ≤ r.line && r.line ≤ endLine
  | none => false

/-- The equations of reaching definitions, where each block owns some definitions. -/
def flowProblem (cfg : CfgInfo) (refs : List VarRef) (own : Nat → VarRef → Bool) :
    GenKill Nat DefId where
  preds := cfg.predecessors
  gen b := genOf refs (own b)
  kill b := killOf refs (own b)

def flowStart (cfg : CfgInfo) (refs : List VarRef) (own : Nat → VarRef → Bool) :
    Solution Nat DefId where
  before _ := ∅
  after b := if b ∈ cfg.blockIds then genOf refs (own b) else ∅

def computeReachingDefinitionsRpo (cfg : CfgInfo) (refs : List VarRef) :
    ReachingDefinitionsWithStats :=
  if cfg.blocks.isEmpty then ⟨⟨fun _ => ∅, fun _ => ∅⟩, 0⟩
  else
    let problem := flowProblem cfg refs (inLines cfg)
    let start := flowStart cfg refs (inLines cfg)
    let rpo := computeRpo cfg
    let maxIterations := 100
    let sol := problem.solve rpo maxIterations start
    ⟨⟨sol.before, sol.after⟩, problem.roundsMade rpo maxIterations start⟩

variable {cfg : CfgInfo} {refs : List VarRef} {own own' : Nat → VarRef → Bool}
  {d : DefId × VarRef} {id : DefId} {a b : Nat} {l S : List Nat}

/-- **Reverse postorder** lists the reachable blocks, each once. -/
theorem computeRpo_spec (cfg : CfgInfo) :
    (computeRpo cfg).Nodup ∧ ∀ b, b ∈ computeRpo cfg ↔ cfg.Reachable b := by
  have hclosed : ∀ x ∈ cfg.entryBlock :: cfg.edges.map (·.toBlock), ∀ y ∈ cfg.successors x,
      y ∈ cfg.entryBlock :: cfg.edges.map (·.toBlock) := by
    intro x _ y hy
    obtain ⟨e, he, -, rfl⟩ := CfgInfo.mem_successors.1 hy
    exact List.mem_cons_of_mem _ (List.mem_map_of_mem he)
  have hfuel : (cfg.entryBlock :: cfg.edges.map (·.toBlock)).length < cfg.edges.length + 2 := by
    simp
  obtain ⟨hn, hmem⟩ := dfs_root hclosed List.mem_cons_self hfuel
  have hedge : (fun a b => b ∈ cfg.successors a) = cfg.Edge := by
    funext a b
    exact propext CfgInfo.mem_successors
  rw [hedge] at hmem
  exact ⟨List.nodup_reverse.2 hn, fun b => List.mem_reverse.trans (hmem b)⟩

/-! ## What flows -/

/-- The block kills the definition `d`: it owns a definition of the variable, and `d` is not the
last one it owns. -/
def Kills (refs : List VarRef) (own : VarRef → Bool) (d : DefId × VarRef) : Prop :=
  Owns refs own d.2.name ∧ ¬ LastOwned refs own d

/-- The definition `d` leaves a block that owns it and gets to the start of `b` along a path through
blocks that do not kill it; the blocks after the first are found, in order, in the schedule `S`. -/
def GetsToStart (cfg : CfgInfo) (refs : List VarRef) (own : Nat → VarRef → Bool) (S : List Nat)
    (d : DefId × VarRef) (b : Nat) : Prop :=
  ∃ a ∈ cfg.blockIds, ∃ l, LastOwned refs (own a) d ∧ Walk cfg.Edge a b (a :: (l ++ [b])) ∧
    (∀ x ∈ l, ¬ Kills refs (own x) d) ∧ l ++ [b] <+ S

/-- The definition `d` gets to the end of `b`, in the same way. -/
def GetsToEnd (cfg : CfgInfo) (refs : List VarRef) (own : Nat → VarRef → Bool) (S : List Nat)
    (d : DefId × VarRef) (b : Nat) : Prop :=
  ∃ a ∈ cfg.blockIds, ∃ l, LastOwned refs (own a) d ∧ Walk cfg.Edge a b (a :: l) ∧
    (∀ x ∈ l, ¬ Kills refs (own x) d) ∧ l <+ S

theorem scheduled_iff (hd : d ∈ defsOf refs)
    (hown : ∀ x r, own x r → x ∈ cfg.blockIds) :
    GenKill.Scheduled (flowProblem cfg refs own) (flowStart cfg refs own) S d.1 a l ↔
      a ∈ cfg.blockIds ∧ LastOwned refs (own a) d ∧ l <+ S := by
  have hgen : d.1 ∈ (flowProblem cfg refs own).gen a ↔ LastOwned refs (own a) d :=
    mem_genOf_self hd
  have hstart : d.1 ∈ (flowStart cfg refs own).after a ↔ LastOwned refs (own a) d := by
    rw [flowStart]
    dsimp only
    split_ifs with ha
    · exact hgen
    · refine ⟨fun h => absurd h (Finset.notMem_empty _), fun h => absurd (hown a d.2 h.2.1) ha⟩
  rw [GenKill.Scheduled, hgen, hstart]
  constructor
  · rintro (⟨h, hl⟩ | ⟨h, hl⟩)
    · exact ⟨hown a d.2 h.2.1, h, hl⟩
    · exact ⟨hown a d.2 h.2.1, h, (List.sublist_cons_self a l).trans hl⟩
  · exact fun h => .inl h.2

theorem exists_def_of_scheduled
    (h : GenKill.Scheduled (flowProblem cfg refs own) (flowStart cfg refs own) S id a l) :
    ∃ d ∈ defsOf refs, d.1 = id := by
  have hgen : id ∈ genOf refs (own a) := by
    rcases h with ⟨h, -⟩ | ⟨h, -⟩
    · rw [flowStart] at h
      dsimp only at h
      split_ifs at h
      · exact h
      · exact absurd h (Finset.notMem_empty _)
    · exact h
  obtain ⟨d, hid, hl⟩ := mem_genOf.1 hgen
  exact ⟨d, hl.1, hid⟩

/-- **What a schedule computes.** -/
theorem mem_flow (hown : ∀ x r, own x r → x ∈ cfg.blockIds) (S : List Nat) (b : Nat) :
    (id ∈ ((flowProblem cfg refs own).run S (flowStart cfg refs own)).before b ↔
      ∃ d ∈ defsOf refs, d.1 = id ∧ GetsToStart cfg refs own S d b) ∧
    (id ∈ ((flowProblem cfg refs own).run S (flowStart cfg refs own)).after b ↔
      ∃ d ∈ defsOf refs, d.1 = id ∧ GetsToEnd cfg refs own S d b) := by
  have hinit : ∀ b, (flowStart cfg refs own).after b ⊆ (flowProblem cfg refs own).gen b := by
    intro b
    rw [flowStart]
    dsimp only
    split_ifs
    · exact subset_rfl
    · exact Finset.empty_subset _
  have hedge : (flowProblem cfg refs own).Edge = cfg.Edge := by
    funext a b
    exact propext CfgInfo.mem_predecessors
  have hrun := GenKill.mem_run (d := id) hinit (fun _ => rfl) S b
  rw [hedge] at hrun
  have hkill : ∀ {d}, d ∈ defsOf refs → ∀ x, d.1 ∈ (flowProblem cfg refs own).kill x ↔
      Kills refs (own x) d := fun hd x => mem_killOf hd
  have hiff : ∀ (W : Nat → List Nat → Prop) (f : List Nat → List Nat),
      (∃ a l, W a l ∧ (∀ x ∈ l, id ∉ (flowProblem cfg refs own).kill x) ∧
        GenKill.Scheduled (flowProblem cfg refs own) (flowStart cfg refs own) S id a (f l)) ↔
      ∃ d ∈ defsOf refs, d.1 = id ∧ ∃ a ∈ cfg.blockIds, ∃ l, LastOwned refs (own a) d ∧ W a l ∧
        (∀ x ∈ l, ¬ Kills refs (own x) d) ∧ f l <+ S := by
    intro W f
    constructor
    · rintro ⟨a, l, w, hl, hs⟩
      obtain ⟨d, hd, rfl⟩ := exists_def_of_scheduled hs
      obtain ⟨ha, hlast, hsub⟩ := (scheduled_iff hd hown).1 hs
      exact ⟨d, hd, rfl, a, ha, l, hlast, w, fun x hx hk => hl x hx ((hkill hd x).2 hk), hsub⟩
    · rintro ⟨d, hd, rfl, a, ha, l, hlast, w, hl, hsub⟩
      exact ⟨a, l, w, fun x hx hk => hl x hx ((hkill hd x).1 hk),
        (scheduled_iff hd hown).2 ⟨ha, hlast, hsub⟩⟩
  exact ⟨hrun.2.trans (hiff (fun a l => Walk cfg.Edge a b (a :: (l ++ [b]))) (· ++ [b])),
    hrun.1.trans (hiff (fun a l => Walk cfg.Edge a b (a :: l)) fun l => l)⟩

/-! ## Both computations -/

/-- The schedule of `compute_reaching_definitions`: 100 listings of the blocks. -/
def listedRounds (cfg : CfgInfo) : List Nat := (List.replicate 100 cfg.blockIds).flatten

/-- The schedule of `compute_reaching_definitions_rpo`: 100 times reverse postorder. -/
def rpoRounds (cfg : CfgInfo) : List Nat := (List.replicate 100 (computeRpo cfg)).flatten

/-- The block `b` owns the definitions that belong to it. -/
def belongs (cfg : CfgInfo) (b : Nat) (r : VarRef) : Bool := defToBlock cfg r = b

theorem mem_blockIds_of_inLines {r : VarRef} (h : inLines cfg b r) : b ∈ cfg.blockIds := by
  have key : linesOf cfg b ≠ none → b ∈ cfg.blockIds :=
    List.foldlRecOn (motive := fun found => found ≠ none → b ∈ cfg.blockIds) cfg.blocks _
      (fun h => absurd rfl h) fun found hfound block hblock => by
        split_ifs with hid
        · exact fun _ => hid ▸ List.mem_map_of_mem hblock
        · exact hfound
  refine key fun hnone => ?_
  rw [inLines, hnone] at h
  cases h

theorem mem_reachingDefinitions (hne : cfg.blocks ≠ []) :
    (id ∈ (computeReachingDefinitions cfg refs).reachingIn b ↔
      ∃ d ∈ defsOf refs, d.1 = id ∧ GetsToStart cfg refs (belongs cfg) (listedRounds cfg) d b) ∧
    (id ∈ (computeReachingDefinitions cfg refs).reachingOut b ↔
      ∃ d ∈ defsOf refs, d.1 = id ∧ GetsToEnd cfg refs (belongs cfg) (listedRounds cfg) d b) := by
  have hown : ∀ x r, belongs cfg x r → x ∈ cfg.blockIds := by
    intro x r h
    rw [belongs, decide_eq_true_eq] at h
    exact h ▸ defToBlock_mem hne r
  have hrun : computeReachingDefinitions cfg refs =
      let sol := (flowProblem cfg refs (belongs cfg)).run (listedRounds cfg)
        (flowStart cfg refs (belongs cfg))
      ⟨sol.before, sol.after⟩ := by
    rw [computeReachingDefinitions, if_neg (by simpa using hne)]
    dsimp only
    rw [GenKill.solve_eq_run]
    rfl
  rw [hrun]
  exact mem_flow hown (listedRounds cfg) b

theorem mem_reachingDefinitionsRpo (hne : cfg.blocks ≠ []) :
    (id ∈ (computeReachingDefinitionsRpo cfg refs).reaching.reachingIn b ↔
      ∃ d ∈ defsOf refs, d.1 = id ∧ GetsToStart cfg refs (inLines cfg) (rpoRounds cfg) d b) ∧
    (id ∈ (computeReachingDefinitionsRpo cfg refs).reaching.reachingOut b ↔
      ∃ d ∈ defsOf refs, d.1 = id ∧ GetsToEnd cfg refs (inLines cfg) (rpoRounds cfg) d b) := by
  have hrun : (computeReachingDefinitionsRpo cfg refs).reaching =
      let sol := (flowProblem cfg refs (inLines cfg)).run (rpoRounds cfg)
        (flowStart cfg refs (inLines cfg))
      ⟨sol.before, sol.after⟩ := by
    rw [computeReachingDefinitionsRpo, if_neg (by simpa using hne)]
    dsimp only
    rw [GenKill.solve_eq_run]
    rfl
  rw [hrun]
  exact mem_flow (fun x r h => mem_blockIds_of_inLines h) (rpoRounds cfg) b

/-- The two computations agree at `b`. -/
def AgreeAt (cfg : CfgInfo) (refs : List VarRef) (b : Nat) : Prop :=
  (computeReachingDefinitions cfg refs).reachingIn b =
      (computeReachingDefinitionsRpo cfg refs).reaching.reachingIn b ∧
    (computeReachingDefinitions cfg refs).reachingOut b =
      (computeReachingDefinitionsRpo cfg refs).reaching.reachingOut b

theorem finset_eq_iff {s t : Finset DefId} {P Q : DefId × VarRef → Prop}
    (hs : ∀ id, id ∈ s ↔ ∃ d ∈ defsOf refs, d.1 = id ∧ P d)
    (ht : ∀ id, id ∈ t ↔ ∃ d ∈ defsOf refs, d.1 = id ∧ Q d) :
    s = t ↔ ∀ d ∈ defsOf refs, P d ↔ Q d := by
  have hself : ∀ {R : DefId × VarRef → Prop}, ∀ d ∈ defsOf refs,
      (∃ e ∈ defsOf refs, e.1 = d.1 ∧ R e) ↔ R d := by
    intro R d hd
    refine ⟨fun ⟨e, he, heq, h⟩ => defsOf_inj he hd heq ▸ h, fun h => ⟨d, hd, rfl, h⟩⟩
  constructor
  · rintro rfl d hd
    rw [← hself (R := P) d hd, ← hs, ht, hself d hd]
  · intro h
    ext id
    rw [hs, ht]
    exact exists_congr fun d => and_congr_right fun hd => and_congr_right fun _ => h d hd

/-- A function whose parameter is defined on the line of its signature, above all blocks. -/
def parameterCfg : CfgInfo where
  function := "f"
  blocks := [⟨0, 2, 2⟩, ⟨1, 3, 3⟩]
  edges := [⟨0, 1⟩]
  entryBlock := 0
  exitBlocks := [1]

end TldrCode.Dfg
