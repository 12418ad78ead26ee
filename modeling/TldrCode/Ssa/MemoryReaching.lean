import TldrCode.Ssa.MemoryRename
import TldrCode.Ssa.Preservation

/-!
# What memory SSA computes

Every recorded operation has a version, and from a version the memory phi functions lead to
definitions (`Leads`). Memory SSA is correct where these are the definitions that can be the last
one executed before the operation (`MemoryCorrect`). What it computes are the definitions that
arrive by steps which are not lost (`MemoryShape.leads_cur_iff`): a lost step goes to a block
without a phi function although the version changes on the way (`MemoryLost`).
-/

namespace TldrCode.Ssa

open TldrCode.Graph

variable {cfg : CfgInfo} {domTree : DominatorTree} {df : DominanceFrontier}
  {memoryOps ops : List MemoryOp} {phiVersions : Nat → Option Nat} {ms : MemorySsa}
  {op : MemoryOp} {defs : List MemoryDef} {uses : List MemoryUse} {path l : List Nat}
  {site : Option (Nat × Nat)} {b c d k p q v w x : Nat} {j : Nat}

/-- The operations of the block `c`. -/
def opsIn (memoryOps : List MemoryOp) (c : Nat) : List MemoryOp :=
  memoryOps.filter (·.block == c)

/-- The last of the first `k` operations that writes. -/
def lastWrite (ops : List MemoryOp) : Nat → Option Nat
  | 0 => none
  | k + 1 => if ops[k]?.any (·.Writes) then some k else lastWrite ops k

/-- The definition executed last after the first `k` operations of the block `c`, if it was `site`
before. A definition is given by its block and its place among the operations there. -/
def lastDefFrom (memoryOps : List MemoryOp) (site : Option (Nat × Nat)) (c k : Nat) :
    Option (Nat × Nat) :=
  match lastWrite (opsIn memoryOps c) k with
  | some j => some (c, j)
  | none => site

def lastDefOn (memoryOps : List MemoryOp) (path : List Nat) : Option (Nat × Nat) :=
  path.foldl (fun site c => lastDefFrom memoryOps site c (opsIn memoryOps c).length) none

/-! ## What the result says -/

/-- The recorded definitions of the block `c`. -/
def MemorySsa.defsIn (ms : MemorySsa) (c : Nat) : List MemoryDef :=
  ms.memoryDefs.filter (·.block == c)

/-- The recorded uses of the block `c`. -/
def MemorySsa.usesIn (ms : MemorySsa) (c : Nat) : List MemoryUse :=
  ms.memoryUses.filter (·.block == c)

/-- The record of the definition that the operation number `k` of the block `c` makes. -/
def MemorySsa.defAt (ms : MemorySsa) (memoryOps : List MemoryOp) (c k : Nat) : Option MemoryDef :=
  (ms.defsIn c)[((opsIn memoryOps c).take k).countP (·.Writes)]?

/-- The record of the use that the operation number `k` of the block `c` makes. -/
def MemorySsa.useAt (ms : MemorySsa) (memoryOps : List MemoryOp) (c k : Nat) : Option MemoryUse :=
  (ms.usesIn c)[((opsIn memoryOps c).take k).countP (·.Reads)]?

/-- The version of a definition, 0 if there is none. -/
def MemorySsa.versionAt (ms : MemorySsa) (memoryOps : List MemoryOp) :
    Option (Nat × Nat) → Nat
  | none => 0
  | some (c, k) => ((ms.defAt memoryOps c k).map (·.version)).getD 0

/-- Following memory phi functions from a version leads to a version without one. -/
inductive Leads (ms : MemorySsa) : Nat → Nat → Prop
  | leaf {v : Nat} (hv : ∀ phi ∈ ms.memoryPhis, phi.result ≠ v) : Leads ms v v
  | phi {phi : MemoryPhi} {source : MemoryPhiSource} {w : Nat} (hphi : phi ∈ ms.memoryPhis)
      (hs : source ∈ phi.sources) (h : Leads ms source.version w) : Leads ms phi.result w

/-- From the version `v` the phi functions lead to the definitions that can be the last one
executed before the operation number `k` of the block `b`. -/
def YieldsLast (cfg : CfgInfo) (memoryOps : List MemoryOp) (ms : MemorySsa) (v b k : Nat) : Prop :=
  ∀ w, Leads ms v w ↔ ∃ path, Walk cfg.Edge cfg.entryBlock b (path ++ [b]) ∧
    ms.versionAt memoryOps (lastDefFrom memoryOps (lastDefOn memoryOps path) b k) = w

/-- Memory SSA is correct: the operations of the reachable blocks are recorded, in versions that
yield the definitions executed last, and different definitions and phi functions have different
versions. -/
structure MemoryCorrect (cfg : CfgInfo) (memoryOps : List MemoryOp) (ms : MemorySsa) : Prop where
  distinct : (0 :: (ms.memoryPhis.map (·.result) ++ ms.memoryDefs.map (·.version))).Nodup
  defs_length : ∀ b, cfg.Reachable b →
    (ms.defsIn b).length = (opsIn memoryOps b).countP (·.Writes)
  uses_length : ∀ b, cfg.Reachable b →
    (ms.usesIn b).length = (opsIn memoryOps b).countP (·.Reads)
  clobbers : ∀ b k op, cfg.Reachable b → (opsIn memoryOps b)[k]? = some op → op.Writes →
    ∃ d, ms.defAt memoryOps b k = some d ∧ YieldsLast cfg memoryOps ms d.clobbers b k
  uses : ∀ b k op, cfg.Reachable b → (opsIn memoryOps b)[k]? = some op → op.Reads →
    ∃ use, ms.useAt memoryOps b k = some use ∧ YieldsLast cfg memoryOps ms use.version b k

def DefinesMemory (memoryOps : List MemoryOp) (b : Nat) : Prop :=
  ∃ op ∈ memoryOps, op.block = b ∧ op.Writes

/-- The block gets a memory phi function: it is on the frontier of a block that has a memory
definition or gets a phi function. -/
inductive MemoryPhiAt (cfg : CfgInfo) (memoryOps : List MemoryOp) : Nat → Prop
  | definition {x y : Nat} (hx : DefinesMemory memoryOps x) (hy : JoinFrontier cfg x y) :
      MemoryPhiAt cfg memoryOps y
  | phi {x y : Nat} (hx : MemoryPhiAt cfg memoryOps x) (hy : JoinFrontier cfg x y) :
      MemoryPhiAt cfg memoryOps y

/-- The step from `p` to `b` loses the memory: `b` has no phi function for it, but some dominator
of `p` that does not strictly dominate `b` defines it or has one. -/
structure MemoryLost (cfg : CfgInfo) (memoryOps : List MemoryOp) (p b : Nat) : Prop where
  notMem : ¬ MemoryPhiAt cfg memoryOps b
  named : ∃ x, cfg.Dominates x p ∧ ¬ cfg.StrictlyDominates x b ∧
    (DefinesMemory memoryOps x ∨ MemoryPhiAt cfg memoryOps x)

/-- A definition, or the start without one, arrives at the start of a block by steps that are not
lost. The start is lost where the entry has a phi function, and a phi function counts a
predecessor that is not reachable as a start. -/
inductive Arrives (cfg : CfgInfo) (memoryOps : List MemoryOp) : Option (Nat × Nat) → Nat → Prop
  | entry (h : ¬ MemoryPhiAt cfg memoryOps cfg.entryBlock) :
      Arrives cfg memoryOps none cfg.entryBlock
  | unreachable {p b : Nat} (hb : MemoryPhiAt cfg memoryOps b) (he : cfg.Edge p b)
      (hp : ¬ cfg.Reachable p) : Arrives cfg memoryOps none b
  | written {p b j : Nat} (hp : cfg.Reachable p) (he : cfg.Edge p b)
      (hl : ¬ MemoryLost cfg memoryOps p b)
      (hj : lastWrite (opsIn memoryOps p) (opsIn memoryOps p).length = some j) :
      Arrives cfg memoryOps (some (p, j)) b
  | passed {p b : Nat} {site : Option (Nat × Nat)} (hp : cfg.Reachable p) (he : cfg.Edge p b)
      (hl : ¬ MemoryLost cfg memoryOps p b)
      (hj : lastWrite (opsIn memoryOps p) (opsIn memoryOps p).length = none)
      (h : Arrives cfg memoryOps site p) : Arrives cfg memoryOps site b

/-! ## Records of one block -/

theorem lastWrite_lt (h : lastWrite ops k = some j) : j < k ∧ ops[j]?.any (·.Writes) := by
  induction k with
  | zero => cases h
  | succ k ih =>
    rw [lastWrite] at h
    split_ifs at h with hw
    · obtain rfl := Option.some_inj.1 h
      exact ⟨Nat.lt_succ_self _, hw⟩
    · obtain ⟨hlt, hw'⟩ := ih h
      exact ⟨by omega, hw'⟩

theorem exists_writes_of_lastWrite (h : lastWrite ops k = some j) :
    ∃ op, ops[j]? = some op ∧ op.Writes := by
  obtain ⟨-, hw⟩ := lastWrite_lt h
  cases hop : ops[j]? with
  | none =>
    rw [hop] at hw
    cases hw
  | some op => exact ⟨op, rfl, by simpa [hop] using hw⟩

theorem lastWrite_eq_none_iff :
    lastWrite ops ops.length = none ↔ ∀ op ∈ ops, ¬ op.Writes := by
  have key : ∀ k, lastWrite ops k = none ↔ ∀ j < k, ¬ ops[j]?.any (·.Writes) := by
    intro k
    induction k with
    | zero => simp [lastWrite]
    | succ k ih =>
      rw [lastWrite]
      constructor
      · intro h j hj
        split_ifs at h with hw
        rcases Nat.lt_succ_iff_lt_or_eq.1 hj with hj | rfl
        · exact ih.1 h j hj
        · exact hw
      · intro h
        rw [if_neg (h k (Nat.lt_succ_self k))]
        exact ih.2 fun j hj => h j (Nat.lt_succ_of_lt hj)
  rw [key]
  constructor
  · intro h op hop hw
    obtain ⟨j, hj⟩ := List.mem_iff_getElem?.1 hop
    refine h j (List.getElem?_eq_some_iff.1 hj).1 ?_
    simp [hj, hw]
  · intro h j hj hw
    rw [List.getElem?_eq_getElem hj] at hw
    exact h _ (List.getElem_mem hj) (by simpa using hw)

theorem Recorded.length_eq (h : Recorded ops v defs uses) :
    defs.length = ops.countP (·.Writes) ∧ uses.length = ops.countP (·.Reads) := by
  induction h with
  | nil => simp
  | load hk _ _ ih | call hk _ _ _ ih => simp [MemoryOp.Writes, MemoryOp.Reads, hk, ih.1, ih.2]
  | write hk _ _ ih => rcases hk with hk | hk <;>
      simp [MemoryOp.Writes, MemoryOp.Reads, hk, ih.1, ih.2]

/-- The records of the operation number `k` have the version that is current there. -/
theorem Recorded.getElem? (h : Recorded ops v defs uses) (hop : ops[k]? = some op) :
    (op.Reads → ∃ use, uses[(ops.take k).countP (·.Reads)]? = some use ∧
      use.version = versionAfter (defs.take ((ops.take k).countP (·.Writes))) v) ∧
    (op.Writes → ∃ d, defs[(ops.take k).countP (·.Writes)]? = some d ∧
      d.clobbers = versionAfter (defs.take ((ops.take k).countP (·.Writes))) v) := by
  induction h generalizing k with
  | nil => cases hop
  | @load op' ops v use defs uses hk hu h ih =>
    cases k with
    | zero =>
      obtain rfl : op' = op := by simpa using hop
      exact ⟨fun _ => ⟨use, by simp, by simp [hu]⟩, fun hw => absurd hk hw⟩
    | succ k =>
      have hr : op'.Reads := .inl hk
      have hw : ¬ op'.Writes := fun hw => hw hk
      simpa [hr, hw] using ih (k := k) (by simpa using hop)
  | @call op' ops v use d defs uses hk hu hd h ih =>
    cases k with
    | zero => exact ⟨fun _ => ⟨use, by simp, by simp [hu]⟩, fun _ => ⟨d, by simp, by simp [hd]⟩⟩
    | succ k =>
      have hr : op'.Reads := .inr hk
      have hw : op'.Writes := by simp [MemoryOp.Writes, hk]
      simpa [hr, hw, versionAfter_cons] using ih (k := k) (by simpa using hop)
  | @write op' ops v d defs uses hk hd h ih =>
    have hr : ¬ op'.Reads := by rcases hk with hk | hk <;> simp [MemoryOp.Reads, hk]
    cases k with
    | zero =>
      obtain rfl : op' = op := by simpa using hop
      exact ⟨fun h => absurd h hr, fun _ => ⟨d, by simp, by simp [hd]⟩⟩
    | succ k =>
      have hw : op'.Writes := by rcases hk with hk | hk <;> simp [MemoryOp.Writes, hk]
      simpa [hr, hw, versionAfter_cons] using ih (k := k) (by simpa using hop)

/-- The version that is current after `k` operations is the one of the last definition. -/
theorem Recorded.versionAfter_take (h : Recorded ops v defs uses) (hk : k ≤ ops.length) :
    versionAfter (defs.take ((ops.take k).countP (·.Writes))) v =
      match lastWrite ops k with
      | some j => ((defs[(ops.take j).countP (·.Writes)]?).map (·.version)).getD 0
      | none => v := by
  induction k with
  | zero => rfl
  | succ k ih =>
    obtain ⟨op, hop⟩ : ∃ op, ops[k]? = some op := ⟨ops[k], List.getElem?_eq_getElem hk⟩
    have ih := ih (by omega)
    have htake : ops.take (k + 1) = ops.take k ++ [op] := by
      rw [List.take_add_one, hop, Option.toList_some]
    by_cases hw : op.Writes
    · obtain ⟨d, hd, -⟩ := (h.getElem? hop).2 hw
      have hn : ((ops.take (k + 1)).countP (·.Writes)) =
          (ops.take k).countP (·.Writes) + 1 := by
        rw [htake, List.countP_append, List.countP_singleton, if_pos (by simpa using hw)]
      rw [hn, List.take_add_one, hd, Option.toList_some, lastWrite, if_pos (by simp [hop, hw])]
      simp [hd, versionAfter]
    · have hn : ((ops.take (k + 1)).countP (·.Writes)) = (ops.take k).countP (·.Writes) := by
        rw [htake, List.countP_append, List.countP_singleton, if_neg (by simpa using hw),
          Nat.add_zero]
      rw [hn, ih, lastWrite, if_neg (by simp [hop, hw])]

/-! ## The shape of the result -/

/-- What `buildMemorySsa` returns, with the versions where the blocks start and end. -/
structure MemoryShape (cfg : CfgInfo) (memoryOps : List MemoryOp) (ms : MemorySsa)
    (cur out : Nat → Nat) : Prop where
  recorded : ∀ c, cfg.Reachable c →
    Recorded (opsIn memoryOps c) (cur c) (ms.defsIn c) (ms.usesIn c)
  out_eq : ∀ c, cfg.Reachable c → out c = versionAfter (ms.defsIn c) (cur c)
  out_other : ∀ c, ¬ cfg.Reachable c → out c = 0
  cur_entry : ¬ MemoryPhiAt cfg memoryOps cfg.entryBlock → cur cfg.entryBlock = 0
  cur_child : ∀ c d, cfg.Reachable c → ¬ MemoryPhiAt cfg memoryOps c →
    IDom cfg.Edge cfg.entryBlock d c → cur c = out d
  cur_phi : ∀ c, MemoryPhiAt cfg memoryOps c →
    ∃ phi ∈ ms.memoryPhis, phi.block = c ∧ phi.result = cur c
  phis : ∀ phi ∈ ms.memoryPhis, MemoryPhiAt cfg memoryOps phi.block ∧
    phi.sources = (cfg.predecessors phi.block).map fun p => { block := p, version := out p }
  distinct : (0 :: (ms.memoryPhis.map (·.result) ++ ms.memoryDefs.map (·.version))).Nodup

theorem memoryPhiAt_iff {S : Nat → Prop} (hS : ∀ x, S x ↔ DefinesMemory memoryOps x)
    (hdf : ∀ b y, y ∈ df.get b ↔ JoinFrontier cfg b y) :
    MemoryPhiAt cfg memoryOps b ↔ IteratedDf df S b := by
  constructor
  · intro h
    induction h with
    | definition hx hy => exact .base ((hS _).2 hx) ((hdf _ _).2 hy)
    | phi _ hy ih => exact .step ih ((hdf _ _).2 hy)
  · intro h
    induction h with
    | base hx hy => exact .definition ((hS _).1 hx) ((hdf _ _).1 hy)
    | step _ hy ih => exact .phi ih ((hdf _ _).1 hy)

section

variable {tables : Dataflow.CharTables} {ssa : SsaFunction}

theorem isDef_iff_writes (h : op ∈ extractMemoryOperations tables ssa) :
    op.isDef = true ↔ op.Writes := by
  obtain ⟨block, -, h⟩ := List.mem_flatMap.1 h
  obtain ⟨instr, -, h⟩ := List.mem_filterMap.1 h
  rw [memoryOperation] at h
  split at h
  · obtain rfl := Option.some_inj.1 h
    simp [MemoryOp.Writes]
  · split at h
    · cases h
    · split_ifs at h
      all_goals
        obtain rfl := Option.some_inj.1 h
        simp [MemoryOp.Writes]
  · cases h

theorem mem_memoryDefBlocks :
    b ∈ memoryDefBlocks (extractMemoryOperations tables ssa) ↔
      DefinesMemory (extractMemoryOperations tables ssa) b := by
  simp only [memoryDefBlocks, List.mem_dedup, List.mem_map, List.mem_filter, DefinesMemory]
  constructor
  · intro ⟨op, ⟨hop, hd⟩, hb⟩
    exact ⟨op, hop, hb, (isDef_iff_writes hop).1 hd⟩
  · intro ⟨op, hop, hb, hw⟩
    exact ⟨op, ⟨hop, (isDef_iff_writes hop).2 hw⟩, hb⟩

theorem memoryShape_of_rename (ht : IsDominatorTree cfg domTree)
    (hdf : computeDominanceFrontier cfg domTree = .ok df) (ord : HashOrder) (function : String)
    (defUse : Nat → Option (List Nat)) (stats : MemorySsaStats) :
    let memoryOps := extractMemoryOperations tables ssa
    let start := addMemoryPhis (ord.order (computeIteratedDf ord df
      ((memoryDefBlocks memoryOps).length + cfg.blocks.length) (memoryDefBlocks memoryOps)))
    let builder := renameMemoryVersions memoryOps start.2 domTree (domTree.nodes.length + 1)
      cfg.entryBlock start.1
    ∃ cur out, MemoryShape cfg memoryOps
      ⟨function, fillMemoryPhiSources cfg builder, builder.memoryDefs, builder.memoryUses, defUse,
        stats⟩ cur out := by
  intro memoryOps start builder
  have hids : ∀ x, ∀ y ∈ df.get x, y ∈ cfg.blockIds := fun x y hy =>
    ((ht.mem_frontier hdf).1 hy).1
  have hlen : cfg.blocks.length = cfg.blockIds.length := (List.length_map _).symm
  obtain ⟨hnodup, hidf⟩ := @mem_computeIteratedDf ord df (memoryDefBlocks memoryOps) cfg.blockIds
    hids ((memoryDefBlocks memoryOps).length + cfg.blocks.length) (by omega)
  obtain ⟨hnum, hstack, hdefs, huses, hout, hsome, hphis, hver⟩ := addMemoryPhis_spec _
    ((ord.perm _).nodup_iff.2 hnodup)
  have hat : ∀ c, (start.2 c).isSome ↔ MemoryPhiAt cfg memoryOps c := by
    intro c
    rw [hsome, HashOrder.mem_order, hidf]
    exact (memoryPhiAt_iff (fun _ => mem_memoryDefBlocks) fun _ _ => ht.mem_frontier hdf).symm
  have hren : MemoryRenamed cfg memoryOps start.2 _ start.1 builder :=
    renameMemoryVersions_spec ht _ cfg.entryBlock start.1 (.refl _) (by omega)
  have hvis : ∀ {c}, Visited cfg (domTree.nodes.map (·.blockId)) cfg.entryBlock c ↔
      cfg.Reachable c := visited_nodes_iff ht
  choose! v hv using hren.done
  have hdefsIn : ∀ c, start.1.defsIn c = [] := by
    intro c
    rw [MemorySsaBuilder.defsIn, show start.1.memoryDefs = [] from hdefs]
    rfl
  have husesIn : ∀ c, start.1.usesIn c = [] := by
    intro c
    rw [MemorySsaBuilder.usesIn, show start.1.memoryUses = [] from huses]
    rfl
  have hfilled : ∀ phi ∈ fillMemoryPhiSources cfg builder, ∃ phi₀ ∈ start.1.memoryPhis,
      phi.block = phi₀.block ∧ phi.result = phi₀.result ∧
      phi.sources = (cfg.predecessors phi.block).map fun p =>
        { block := p, version := (builder.blockOutVersion p).getD 0 } := by
    intro phi hphi
    obtain ⟨phi₀, hphi₀, rfl⟩ := List.mem_map.1 hphi
    rw [hren.phis] at hphi₀
    refine ⟨phi₀, hphi₀, rfl, rfl, ?_⟩
    dsimp only
    rw [(hphis phi₀ hphi₀).1, List.nil_append]
  refine ⟨fun c => (start.2 c).getD (v c), fun c => (builder.blockOutVersion c).getD 0, ?_, ?_, ?_,
    ?_, ?_, ?_, ?_, ?_⟩
  · intro c hc
    obtain ⟨⟨defs, uses, hrec, hd, hu, -⟩, -⟩ := hv c (hvis.2 hc)
    rw [hdefsIn, List.nil_append] at hd
    rw [husesIn, List.nil_append] at hu
    rw [← hd, ← hu] at hrec
    exact hrec
  · intro c hc
    obtain ⟨⟨defs, uses, -, hd, -, ho⟩, -⟩ := hv c (hvis.2 hc)
    rw [hdefsIn, List.nil_append] at hd
    rw [ho, ← hd]
    rfl
  · intro c hc
    have ho := (hren.frame c fun h => hc (hvis.1 h)).2.2
    rw [ho, show start.1.blockOutVersion = _ from hout]
    rfl
  · intro hno
    have hnone : start.2 cfg.entryBlock = none := by
      rwa [← hat, Option.not_isSome_iff_eq_none] at hno
    rw [hnone, Option.getD_none, (hv cfg.entryBlock (hvis.2 (.refl _))).2.1 ?_,
      MemorySsaBuilder.currentVersion, show start.1.versionStack = [0] from hstack]
    · rfl
    · exact fun d _ hi => not_sdom_root hi.sdom
  · intro c d hc hno hi
    have hnone : start.2 c = none := by
      rwa [← hat, Option.not_isSome_iff_eq_none] at hno
    rw [hnone, Option.getD_none, (hv c (hvis.2 hc)).2.2 d (hvis.2 (hi.reach hc)) hi]
    rfl
  · intro c hc
    obtain ⟨version, hversion⟩ := Option.isSome_iff_exists.1 ((hat c).2 hc)
    obtain ⟨phi, hphi, hb, hr⟩ := hver c version hversion
    rw [hversion, Option.getD_some]
    rw [← hren.phis] at hphi
    exact ⟨_, List.mem_map_of_mem hphi, hb, hr⟩
  · intro phi hphi
    obtain ⟨phi₀, hphi₀, hb, -, hs⟩ := hfilled phi hphi
    refine ⟨(hat phi.block).1 ?_, hs⟩
    rw [hb, (hphis phi₀ hphi₀).2]
    rfl
  · have hrenamed : Numbered (renameMemoryVersions memoryOps start.2 domTree
        (domTree.nodes.length + 1) cfg.entryBlock _) :=
      hnum.renameMemoryVersions (domTree.nodes.length + 1) cfg.entryBlock
    obtain ⟨heq, hpos⟩ := hrenamed
    have hres : (fillMemoryPhiSources cfg builder).map (·.result) =
        builder.memoryPhis.map (·.result) := by
      rw [fillMemoryPhiSources, List.map_map]
      rfl
    dsimp only
    rw [hres]
    have hr : builder.memoryPhis.map (·.result) ++ builder.memoryDefs.map (·.version) =
        List.range' 1 (builder.nextVersion - 1) := heq
    rw [hr, List.nodup_cons, List.mem_range'_1]
    exact ⟨by omega, List.nodup_range'⟩

end

/-- **The shape of the result.** -/
theorem buildMemorySsa_shape {tables : Dataflow.CharTables} {ord : HashOrder} {ssa : SsaFunction}
    (hok : buildMemorySsa tables ord cfg ssa = .ok ms) :
    ∃ cur out, MemoryShape cfg (extractMemoryOperations tables ssa) ms cur out := by
  rw [buildMemorySsa] at hok
  dsimp only at hok
  split_ifs at hok with hempty
  · -- without operations nothing is recorded
    rw [List.isEmpty_iff] at hempty
    have hphi : ∀ c, ¬ MemoryPhiAt cfg (extractMemoryOperations tables ssa) c := by
      intro c hc
      induction hc with
      | definition hx _ =>
        obtain ⟨op, hop, -⟩ := hx
        rw [hempty] at hop
        cases hop
      | phi _ _ ih => exact ih
    obtain rfl := Except.ok.inj hok
    refine ⟨fun _ => 0, fun _ => 0, ⟨fun c _ => ?_, fun _ _ => rfl, fun _ _ => rfl, fun _ => rfl,
      fun _ _ _ _ _ => rfl, fun c hc => absurd hc (hphi c), fun _ h => (by cases h), ?_⟩⟩
    · rw [hempty]
      exact .nil 0
    · simp
  · cases htree : buildDominatorTree cfg with
    | error e =>
      rw [htree] at hok
      cases hok
    | ok domTree =>
      cases hdf : computeDominanceFrontier cfg domTree with
      | error e =>
        simp only [htree, hdf, bind, Except.bind] at hok
        cases hok
      | ok df =>
        simp only [htree, hdf, bind, Except.bind, pure, Except.pure] at hok
        obtain rfl := Except.ok.inj hok
        exact memoryShape_of_rename (isDominatorTree_of_ok htree) hdf ord _ _ _

/-! ## Steps that keep the version -/

theorem definesMemory_iff : DefinesMemory memoryOps c ↔
    ∃ j, lastWrite (opsIn memoryOps c) (opsIn memoryOps c).length = some j := by
  rw [← Option.ne_none_iff_exists', ne_eq, lastWrite_eq_none_iff]
  simp [DefinesMemory, opsIn]

theorem MemoryLost.header_or_entry (hcfg : cfg.WellFormed) (hp : cfg.Reachable p)
    (he : cfg.Edge p b) (h : MemoryLost cfg memoryOps p b) :
    DefinesMemory memoryOps b ∧ cfg.Dominates b p ∨ b = cfg.entryBlock :=
  Ssa.header_or_entry hcfg hp he (fun _ hx hj => hx.elim (.definition · hj) (.phi · hj)) h.notMem
    h.named

theorem leads_leaf_iff (hv : ∀ phi ∈ ms.memoryPhis, phi.result ≠ v) : Leads ms v w ↔ w = v := by
  constructor
  · intro h
    cases h with
    | leaf => rfl
    | phi hphi => exact absurd rfl (hv _ hphi)
  · intro h
    rw [h]
    exact .leaf hv

namespace MemoryShape

variable {cur out : Nat → Nat} (h : MemoryShape cfg memoryOps ms cur out) {phi : MemoryPhi}
include h

theorem versionAt_lastDefFrom (hc : cfg.Reachable c) (hk : k ≤ (opsIn memoryOps c).length) :
    versionAfter ((ms.defsIn c).take (((opsIn memoryOps c).take k).countP (·.Writes))) (cur c) =
      match lastWrite (opsIn memoryOps c) k with
      | some j => ms.versionAt memoryOps (some (c, j))
      | none => cur c :=
  (h.recorded c hc).versionAfter_take hk

theorem out_eq_match (hc : cfg.Reachable c) : out c =
    match lastWrite (opsIn memoryOps c) (opsIn memoryOps c).length with
    | some j => ms.versionAt memoryOps (some (c, j))
    | none => cur c := by
  rw [← h.versionAt_lastDefFrom hc le_rfl, List.take_length,
    ← (h.recorded c hc).length_eq.1, List.take_length]
  exact h.out_eq c hc

theorem out_eq_cur (hc : cfg.Reachable c) (hd : ¬ DefinesMemory memoryOps c) : out c = cur c := by
  have hnone : lastWrite (opsIn memoryOps c) (opsIn memoryOps c).length = none := by
    rw [Option.eq_none_iff_forall_ne_some]
    exact fun j hj => hd (definesMemory_iff.2 ⟨j, hj⟩)
  rw [h.out_eq_match hc, hnone]

/-- The version at the end of `p` is the one at the end of a dominator `s`, if no block below `s`
on the way up from `p` changes it. -/
theorem out_eq_out {s : Nat} (hp : cfg.Reachable p) (hs : cfg.Dominates s p)
    (hnone : ∀ x, cfg.Dominates x p → cfg.StrictlyDominates s x →
      ¬ DefinesMemory memoryOps x ∧ ¬ MemoryPhiAt cfg memoryOps x) : out p = out s := by
  obtain ⟨l, hl⟩ := hp
  induction hn : l.length using Nat.strong_induction_on generalizing p l with
  | _ n ih =>
    by_cases hsp : s = p
    · rw [hsp]
    · have hp : cfg.Reachable p := ⟨l, hl⟩
      have hne : p ≠ cfg.entryBlock := by
        intro he
        rw [he] at hs hsp
        exact hsp (dom_root_iff.1 hs)
      obtain ⟨d, hd⟩ := exists_idom hp hne
      obtain ⟨hdef, hphi⟩ := hnone p (.refl p) ⟨hs, hsp⟩
      have hsd : cfg.Dominates s d := hd.2 s ⟨hs, hsp⟩
      obtain ⟨l₁, l₂, rfl, w₁, w₂⟩ := hl.of_mem (hd.1.1 l hl)
      have hl₂ : l₂ ≠ [] := by
        intro he
        rw [he] at w₂
        exact hd.1.2 (by simpa using w₂.last)
      have hlt : (l₁ ++ [d]).length < n := by
        have := List.length_pos_iff.2 hl₂
        simp only [List.length_append, List.length_cons, List.length_nil] at hn ⊢
        omega
      rw [h.out_eq_cur hp hdef, h.cur_child p d hp hphi hd]
      exact ih _ hlt hsd (fun x hx hsx => hnone x (hx.trans hd.1.1) hsx) _ w₁ rfl

/-- **A step that is not lost** hands the version over, where it does not enter a phi function. -/
theorem cur_eq_out (hp : cfg.Reachable p) (he : cfg.Edge p b)
    (hphi : ¬ MemoryPhiAt cfg memoryOps b) (hlost : ¬ MemoryLost cfg memoryOps p b) :
    cur b = out p := by
  have hb : cfg.Reachable b := hp.tail he
  have hnone : ∀ x, cfg.Dominates x p → ¬ cfg.StrictlyDominates x b →
      ¬ DefinesMemory memoryOps x ∧ ¬ MemoryPhiAt cfg memoryOps x := by
    intro x hx hxb
    rw [← not_or]
    exact fun hn => hlost ⟨hphi, x, hx, hxb, hn⟩
  by_cases hbe : b = cfg.entryBlock
  · rw [hbe] at hphi hnone ⊢
    have hentry := hnone cfg.entryBlock (.root p) not_sdom_root
    rw [h.out_eq_out hp (.root p) fun x hx _ => hnone x hx not_sdom_root,
      h.out_eq_cur (.refl _) hentry.1]
  · obtain ⟨d, hd⟩ := exists_idom hb hbe
    have hdp : cfg.Dominates d p := hd.1.1.pred hd.1.2 he
    rw [h.cur_child b d hb hphi hd]
    refine (h.out_eq_out hp hdp fun x hx hdx => hnone x hx fun hxb => ?_).symm
    exact hdx.2 (hdx.1.antisymm (hd.2 x hxb) (hd.reach hb))

/-! ## Where the phi functions lead -/

theorem result_ne_zero (hphi : phi ∈ ms.memoryPhis) : phi.result ≠ 0 := by
  intro he
  have hmem : phi.result ∈ ms.memoryPhis.map (·.result) := List.mem_map_of_mem hphi
  rw [he] at hmem
  exact (List.nodup_cons.1 h.distinct).1 (List.mem_append_left _ hmem)

theorem result_ne_version {d : MemoryDef} (hphi : phi ∈ ms.memoryPhis) (hd : d ∈ ms.memoryDefs) :
    phi.result ≠ d.version :=
  (List.nodup_append.1 (List.nodup_cons.1 h.distinct).2).2.2 _ (List.mem_map_of_mem hphi) _
    (List.mem_map_of_mem hd)

theorem phi_unique {phi phi' : MemoryPhi} (hphi : phi ∈ ms.memoryPhis)
    (hphi' : phi' ∈ ms.memoryPhis) (he : phi.result = phi'.result) : phi = phi' :=
  List.inj_on_of_nodup_map (List.nodup_append.1 (List.nodup_cons.1 h.distinct).2).1 hphi hphi' he

theorem exists_defAt (hc : cfg.Reachable c) (hj : lastWrite (opsIn memoryOps c) k = some j) :
    ∃ d ∈ ms.memoryDefs, ms.defAt memoryOps c j = some d := by
  obtain ⟨op, hop, hw⟩ := exists_writes_of_lastWrite hj
  obtain ⟨d, hd, -⟩ := ((h.recorded c hc).getElem? hop).2 hw
  exact ⟨d, (List.mem_filter.1 (List.mem_of_getElem? hd)).1, hd⟩

theorem result_ne_versionAt (hphi : phi ∈ ms.memoryPhis) (hc : cfg.Reachable c)
    (hj : lastWrite (opsIn memoryOps c) k = some j) :
    phi.result ≠ ms.versionAt memoryOps (some (c, j)) := by
  obtain ⟨d, hd, heq⟩ := h.exists_defAt hc hj
  simp only [MemorySsa.versionAt, heq, Option.map_some, Option.getD_some]
  exact h.result_ne_version hphi hd

theorem result_ne_of_arrives (hphi : phi ∈ ms.memoryPhis) (ha : Arrives cfg memoryOps site b) :
    phi.result ≠ ms.versionAt memoryOps site := by
  induction ha with
  | entry => exact h.result_ne_zero hphi
  | unreachable => exact h.result_ne_zero hphi
  | written hp _ _ hj => exact h.result_ne_versionAt hphi hp hj
  | passed _ _ _ _ _ ih => exact ih

theorem leads_step (hp : cfg.Reachable p) (he : cfg.Edge p b)
    (hlost : ¬ MemoryLost cfg memoryOps p b) (hl : Leads ms (out p) w) : Leads ms (cur b) w := by
  by_cases hphi : MemoryPhiAt cfg memoryOps b
  · obtain ⟨phi, hm, hb, hr⟩ := h.cur_phi b hphi
    rw [← hr]
    have hsource : ⟨p, out p⟩ ∈ phi.sources := by
      rw [(h.phis phi hm).2, hb]
      exact List.mem_map_of_mem (CfgInfo.mem_predecessors.2 he)
    exact .phi hm hsource hl
  · rw [h.cur_eq_out hp he hphi hlost]
    exact hl

theorem leads_of_arrives (ha : Arrives cfg memoryOps site b) :
    Leads ms (cur b) (ms.versionAt memoryOps site) := by
  have hself : ∀ {site b}, Arrives cfg memoryOps site b →
      Leads ms (ms.versionAt memoryOps site) (ms.versionAt memoryOps site) := fun ha =>
    .leaf fun _ hphi => h.result_ne_of_arrives hphi ha
  induction ha with
  | entry hno =>
    rw [h.cur_entry hno]
    exact hself (.entry hno)
  | @unreachable p b hb he hp =>
    obtain ⟨phi, hm, hpb, hr⟩ := h.cur_phi b hb
    rw [← hr]
    have hsource : ⟨p, out p⟩ ∈ phi.sources := by
      rw [(h.phis phi hm).2, hpb]
      exact List.mem_map_of_mem (CfgInfo.mem_predecessors.2 he)
    refine .phi hm hsource ?_
    change Leads ms (out p) _
    rw [h.out_other p hp]
    exact hself (.unreachable hb he hp)
  | written hp he hl hj =>
    refine h.leads_step hp he hl ?_
    rw [h.out_eq_match hp, hj]
    exact hself (.written hp he hl hj)
  | passed hp he hl hj _ ih =>
    refine h.leads_step hp he hl ?_
    rw [h.out_eq_match hp, hj]
    exact ih

/-- The version where a block starts comes from a phi function or from a definition, by steps that
are not lost. -/
theorem cur_origin (hcfg : cfg.WellFormed) (hb : cfg.Reachable b) :
    (∃ c, MemoryPhiAt cfg memoryOps c ∧ cur b = cur c ∧
      ∀ site, Arrives cfg memoryOps site c → Arrives cfg memoryOps site b) ∨
    ∃ site, Arrives cfg memoryOps site b ∧ cur b = ms.versionAt memoryOps site := by
  obtain ⟨l₀, hl₀⟩ := hb
  obtain ⟨l, hl, hn, -⟩ := hl₀.exists_nodup
  clear hl₀
  induction l using List.reverseRecOn generalizing b with
  | nil => exact absurd rfl hl.ne_nil
  | append_singleton l c ih =>
    obtain rfl : c = b := by simpa using hl.last
    by_cases hphi : MemoryPhiAt cfg memoryOps c
    · exact .inl ⟨c, hphi, rfl, fun _ => id⟩
    rcases eq_or_ne l [] with rfl | hnil
    · obtain rfl : c = cfg.entryBlock := by simpa using hl.head
      exact .inr ⟨none, .entry hphi, h.cur_entry hphi⟩
    obtain ⟨p, hlp, he⟩ := hl.exists_last_step hnil
    have hp : cfg.Reachable p := ⟨l, hlp⟩
    obtain ⟨hnl, -, hdisj⟩ := List.nodup_append.1 hn
    have hcl : c ∉ l := fun hc => hdisj c hc c (by simp) rfl
    -- the walk to `p` avoids the block, so this step is not lost
    have hlost : ¬ MemoryLost cfg memoryOps p c := by
      intro hlost
      rcases hlost.header_or_entry hcfg hp he with ⟨-, hdom⟩ | hentry
      · exact hcl (hdom l hlp)
      · exact hcl (hentry ▸ hlp.head_mem)
    rw [h.cur_eq_out hp he hphi hlost]
    cases hj : lastWrite (opsIn memoryOps p) (opsIn memoryOps p).length with
    | some j =>
      refine .inr ⟨some (p, j), .written hp he hlost hj, ?_⟩
      rw [h.out_eq_match hp, hj]
    | none =>
      have hout : out p = cur p := by rw [h.out_eq_match hp, hj]
      rw [hout]
      rcases ih hlp hnl with ⟨d, hd, hcur, harr⟩ | ⟨site, harr, hcur⟩
      · exact .inl ⟨d, hd, hcur, fun site hs => .passed hp he hlost hj (harr site hs)⟩
      · exact .inr ⟨site, .passed hp he hlost hj harr, hcur⟩

/-- **What memory SSA computes**: the version where a block starts leads to the definitions that
arrive there. -/
theorem leads_cur_iff (hcfg : cfg.WellFormed) (hb : cfg.Reachable b) :
    Leads ms (cur b) w ↔ ∃ site, Arrives cfg memoryOps site b ∧
      ms.versionAt memoryOps site = w := by
  constructor
  · intro hl
    generalize hv : cur b = v at hl
    induction hl generalizing b with
    | @leaf v hleaf =>
      rcases h.cur_origin hcfg hb with ⟨c, hc, hcur, -⟩ | ⟨site, harr, hcur⟩
      · obtain ⟨phi, hm, -, hr⟩ := h.cur_phi c hc
        exact absurd (hr.trans (hcur.symm.trans hv)) (hleaf phi hm)
      · exact ⟨site, harr, hcur.symm.trans hv⟩
    | @phi phi source w hphi hs hl ih =>
      rcases h.cur_origin hcfg hb with ⟨c, hc, hcur, harr⟩ | ⟨site, harr, hcur⟩
      · obtain ⟨phi', hm, hpb, hr⟩ := h.cur_phi c hc
        obtain rfl : phi' = phi := h.phi_unique hm hphi (hr.trans (hcur.symm.trans hv))
        rw [(h.phis phi' hm).2, hpb] at hs
        obtain ⟨p, hp, rfl⟩ := List.mem_map.1 hs
        have he : cfg.Edge p c := CfgInfo.mem_predecessors.1 hp
        have hlost : ¬ MemoryLost cfg memoryOps p c := fun hlost => hlost.notMem hc
        dsimp only at hl ih
        by_cases hrp : cfg.Reachable p
        · cases hj : lastWrite (opsIn memoryOps p) (opsIn memoryOps p).length with
          | some j =>
            have hout : out p = ms.versionAt memoryOps (some (p, j)) := by
              rw [h.out_eq_match hrp, hj]
            rw [hout, leads_leaf_iff fun _ hphi => h.result_ne_versionAt hphi hrp hj] at hl
            exact ⟨some (p, j), harr _ (.written hrp he hlost hj), hl.symm⟩
          | none =>
            have hout : out p = cur p := by rw [h.out_eq_match hrp, hj]
            obtain ⟨site, hs, hw⟩ := ih hrp hout.symm
            exact ⟨site, harr _ (.passed hrp he hlost hj hs), hw⟩
        · rw [h.out_other p hrp, leads_leaf_iff fun _ hphi => h.result_ne_zero hphi] at hl
          exact ⟨none, harr _ (.unreachable hc he hrp), hl.symm⟩
      · exact absurd (hv.symm.trans hcur) (h.result_ne_of_arrives hphi harr)
  · intro ⟨site, harr, hw⟩
    rw [← hw]
    exact h.leads_of_arrives harr

end MemoryShape

/-! ## Definitions and their versions -/

/-- The start, or a definition of a reachable block. -/
def IsSite (cfg : CfgInfo) (memoryOps : List MemoryOp) (site : Option (Nat × Nat)) : Prop :=
  ∀ c j, site = some (c, j) → cfg.Reachable c ∧ ∃ op, (opsIn memoryOps c)[j]? = some op ∧ op.Writes

theorem isSite_none : IsSite cfg memoryOps none := fun _ _ h => by cases h

theorem isSite_of_lastWrite (hc : cfg.Reachable c) (hj : lastWrite (opsIn memoryOps c) k = some j) :
    IsSite cfg memoryOps (some (c, j)) := by
  intro c' j' he
  obtain ⟨rfl, rfl⟩ := Prod.mk.inj (Option.some_inj.1 he)
  exact ⟨hc, exists_writes_of_lastWrite hj⟩

theorem Arrives.isSite (h : Arrives cfg memoryOps site b) : IsSite cfg memoryOps site := by
  induction h with
  | entry => exact isSite_none
  | unreachable => exact isSite_none
  | written hp _ _ hj => exact isSite_of_lastWrite hp hj
  | passed _ _ _ _ _ ih => exact ih

theorem isSite_lastDefFrom (hc : cfg.Reachable c) (hs : IsSite cfg memoryOps site) :
    IsSite cfg memoryOps (lastDefFrom memoryOps site c k) := by
  rw [lastDefFrom]
  cases hj : lastWrite (opsIn memoryOps c) k with
  | some j => exact isSite_of_lastWrite hc hj
  | none => exact hs

theorem isSite_lastDefOn (hpath : ∀ c ∈ path, cfg.Reachable c) :
    IsSite cfg memoryOps (lastDefOn memoryOps path) := by
  induction path using List.reverseRecOn with
  | nil => exact isSite_none
  | append_singleton path c ih =>
    rw [lastDefOn, List.foldl_append]
    refine isSite_lastDefFrom (hpath c (by simp)) ?_
    exact ih fun d hd => hpath d (List.mem_append_left _ hd)

theorem countP_take_lt {i j : Nat} (hij : i < j) (hop : ops[i]? = some op) (hw : op.Writes) :
    (ops.take i).countP (·.Writes) < (ops.take j).countP (·.Writes) := by
  have hsucc : (ops.take (i + 1)).countP (·.Writes) = (ops.take i).countP (·.Writes) + 1 := by
    rw [List.take_add_one, hop, Option.toList_some, List.countP_append, List.countP_singleton,
      if_pos (by simpa using hw)]
  have hsub : (ops.take (i + 1)).countP (·.Writes) ≤ (ops.take j).countP (·.Writes) :=
    (List.take_sublist_take_left hij).countP_le
  omega

namespace MemoryShape

variable {cur out : Nat → Nat} (h : MemoryShape cfg memoryOps ms cur out)
include h

theorem versionAt_inj {site' : Option (Nat × Nat)} (hs : IsSite cfg memoryOps site)
    (hs' : IsSite cfg memoryOps site')
    (he : ms.versionAt memoryOps site = ms.versionAt memoryOps site') : site = site' := by
  have hrec : ∀ {c j}, IsSite cfg memoryOps (some (c, j)) →
      ∃ d ∈ ms.memoryDefs, d.block = c ∧ ms.defAt memoryOps c j = some d := by
    intro c j hs
    obtain ⟨hc, op, hop, hw⟩ := hs c j rfl
    obtain ⟨d, hd, -⟩ := ((h.recorded c hc).getElem? hop).2 hw
    obtain ⟨hm, hb⟩ := List.mem_filter.1 (List.mem_of_getElem? hd)
    exact ⟨d, hm, by simpa using hb, hd⟩
  obtain ⟨hzero, hnodup⟩ := List.nodup_cons.1 h.distinct
  have hpos : ∀ d ∈ ms.memoryDefs, d.version ≠ 0 := fun d hd hz =>
    hzero (List.mem_append_right _ (hz ▸ List.mem_map_of_mem hd))
  have hinj := List.inj_on_of_nodup_map (List.nodup_append.1 hnodup).2.1
  match site, site' with
  | none, none => rfl
  | none, some (c, j) =>
    obtain ⟨d, hd, -, hat⟩ := hrec hs'
    simp only [MemorySsa.versionAt, hat, Option.map_some, Option.getD_some] at he
    exact absurd he.symm (hpos d hd)
  | some (c, j), none =>
    obtain ⟨d, hd, -, hat⟩ := hrec hs
    simp only [MemorySsa.versionAt, hat, Option.map_some, Option.getD_some] at he
    exact absurd he (hpos d hd)
  | some (c, j), some (c', j') =>
    obtain ⟨d, hd, hb, hat⟩ := hrec hs
    obtain ⟨d', hd', hb', hat'⟩ := hrec hs'
    simp only [MemorySsa.versionAt, hat, hat', Option.map_some, Option.getD_some] at he
    obtain rfl : d = d' := hinj hd hd' he
    obtain rfl : c = c' := hb.symm.trans hb'
    -- one record has one place among those of the block
    have hdefs : (ms.defsIn c).Nodup :=
      (List.Nodup.of_map _ (List.nodup_append.1 hnodup).2.1).filter _
    have hn := (List.getElem?_inj (List.getElem?_eq_some_iff.1 hat).1 hdefs).1 (hat.trans hat'.symm)
    obtain ⟨-, op, hop, hw⟩ := hs c j rfl
    obtain ⟨-, op', hop', hw'⟩ := hs' c j' rfl
    rcases lt_trichotomy j j' with hlt | rfl | hlt
    · exact absurd hn (countP_take_lt hlt hop hw).ne
    · rfl
    · exact absurd hn (countP_take_lt hlt hop' hw').ne'

/-- The version recorded for an operation yields the definitions executed last, if those of the
paths to its block are the ones that arrive there. -/
theorem yields (hcfg : cfg.WellFormed) (hb : cfg.Reachable b)
    (hk : k ≤ (opsIn memoryOps b).length)
    (hcond : ∀ site, (∃ path, Walk cfg.Edge cfg.entryBlock b (path ++ [b]) ∧
      lastDefOn memoryOps path = site) ↔ Arrives cfg memoryOps site b) :
    YieldsLast cfg memoryOps ms (versionAfter
      ((ms.defsIn b).take (((opsIn memoryOps b).take k).countP (·.Writes))) (cur b)) b k := by
  intro w
  rw [h.versionAt_lastDefFrom hb hk]
  cases hj : lastWrite (opsIn memoryOps b) k with
  | some j =>
    dsimp only
    rw [leads_leaf_iff fun _ hphi => h.result_ne_versionAt hphi hb hj]
    simp only [lastDefFrom, hj]
    constructor
    · intro hw
      obtain ⟨l, hl⟩ := hb
      obtain ⟨path, rfl⟩ := hl.eq_concat
      exact ⟨path, hl, hw.symm⟩
    · intro ⟨_, _, hw⟩
      exact hw.symm
  | none =>
    dsimp only
    rw [h.leads_cur_iff hcfg hb]
    simp only [lastDefFrom, hj]
    constructor
    · intro ⟨site, harr, hw⟩
      obtain ⟨path, hpath, hlast⟩ := (hcond site).2 harr
      exact ⟨path, hpath, hlast ▸ hw⟩
    · intro ⟨path, hpath, hw⟩
      exact ⟨_, (hcond _).1 ⟨path, hpath, rfl⟩, hw⟩

end MemoryShape

/-- **Memory SSA is correct** exactly if, for every reachable block with a memory operation, the
definitions executed last on the paths to it are those that arrive by steps which are not lost. -/
theorem buildMemorySsa_correct_iff {tables : Dataflow.CharTables} {ord : HashOrder}
    {ssa : SsaFunction} (hcfg : cfg.WellFormed)
    (hok : buildMemorySsa tables ord cfg ssa = .ok ms) :
    MemoryCorrect cfg (extractMemoryOperations tables ssa) ms ↔
      ∀ b, cfg.Reachable b → opsIn (extractMemoryOperations tables ssa) b ≠ [] → ∀ site,
        (∃ path, Walk cfg.Edge cfg.entryBlock b (path ++ [b]) ∧
          lastDefOn (extractMemoryOperations tables ssa) path = site) ↔
        Arrives cfg (extractMemoryOperations tables ssa) site b := by
  obtain ⟨cur, out, h⟩ := buildMemorySsa_shape hok
  generalize extractMemoryOperations tables ssa = memoryOps at h
  constructor
  · intro hcorrect b hb hops
    -- the first operation of the block sees what arrives there
    have hyields : YieldsLast cfg memoryOps ms (cur b) b 0 := by
      obtain ⟨op, hop⟩ : ∃ op, (opsIn memoryOps b)[0]? = some op :=
        ⟨_, List.getElem?_eq_getElem (List.length_pos_iff.2 hops)⟩
      have hrec := (h.recorded b hb).getElem? hop
      by_cases hr : op.Reads
      · obtain ⟨use, huse, hy⟩ := hcorrect.uses b 0 op hb hop hr
        obtain ⟨use', huse', hv⟩ := hrec.1 hr
        obtain rfl : use = use' := Option.some_inj.1 (huse.symm.trans huse')
        rwa [hv] at hy
      · have hw : op.Writes := fun hk => hr (.inl hk)
        obtain ⟨d, hd, hy⟩ := hcorrect.clobbers b 0 op hb hop hw
        obtain ⟨d', hd', hv⟩ := hrec.2 hw
        obtain rfl : d = d' := Option.some_inj.1 (hd.symm.trans hd')
        rwa [hv] at hy
    have hiff : ∀ w, (∃ site, Arrives cfg memoryOps site b ∧ ms.versionAt memoryOps site = w) ↔
        ∃ path, Walk cfg.Edge cfg.entryBlock b (path ++ [b]) ∧
          ms.versionAt memoryOps (lastDefOn memoryOps path) = w := fun w =>
      (h.leads_cur_iff hcfg hb).symm.trans (hyields w)
    have hsite : ∀ {path}, Walk cfg.Edge cfg.entryBlock b (path ++ [b]) →
        IsSite cfg memoryOps (lastDefOn memoryOps path) := fun hw =>
      isSite_lastDefOn fun c hc => hw.reach_of_mem (List.mem_append_left _ hc)
    intro site
    constructor
    · intro ⟨path, hpath, hlast⟩
      obtain ⟨site', harr, hv⟩ := (hiff _).2 ⟨path, hpath, rfl⟩
      rw [← hlast, ← h.versionAt_inj harr.isSite (hsite hpath) hv]
      exact harr
    · intro harr
      obtain ⟨path, hpath, hv⟩ := (hiff _).1 ⟨site, harr, rfl⟩
      exact ⟨path, hpath, h.versionAt_inj (hsite hpath) harr.isSite hv⟩
  · intro hcond
    have hyields : ∀ {b k op}, cfg.Reachable b → (opsIn memoryOps b)[k]? = some op →
        YieldsLast cfg memoryOps ms (versionAfter
          ((ms.defsIn b).take (((opsIn memoryOps b).take k).countP (·.Writes))) (cur b)) b k := by
      intro b k op hb hop
      refine h.yields hcfg hb (List.getElem?_eq_some_iff.1 hop).1.le (hcond b hb ?_)
      exact List.ne_nil_of_mem (List.mem_of_getElem? hop)
    refine ⟨h.distinct, fun b hb => (h.recorded b hb).length_eq.1,
      fun b hb => (h.recorded b hb).length_eq.2, fun b k op hb hop hw => ?_,
      fun b k op hb hop hr => ?_⟩
    · obtain ⟨d, hd, hv⟩ := ((h.recorded b hb).getElem? hop).2 hw
      exact ⟨d, hd, hv ▸ hyields hb hop⟩
    · obtain ⟨use, huse, hv⟩ := ((h.recorded b hb).getElem? hop).1 hr
      exact ⟨use, huse, hv ▸ hyields hb hop⟩

/-- A function with a call in the block `b` of the loop. -/
def callIn (b : Nat) : SsaFunction where
  function := "f"
  ssaType := .minimal
  blocks := [⟨b, none, (b + 1, b + 1), [], [⟨.call, some 1, [], b + 1, some "x = g()"⟩], [], []⟩]
  ssaNames := [⟨1, "x", 1, some b, b + 1⟩]
  defUse _ := none
  stats := ⟨0, 1, 1, 1, 0⟩

theorem buildMemorySsa_correct_iff_body : ∃ ms,
    buildMemorySsa .ascii .insertion whileCfg (callIn 2) = .ok ms ∧
      (MemoryCorrect whileCfg (extractMemoryOperations .ascii (callIn 2)) ms ↔
        ∀ b, whileCfg.Reachable b → opsIn (extractMemoryOperations .ascii (callIn 2)) b ≠ [] →
          ∀ site, (∃ path, Walk whileCfg.Edge whileCfg.entryBlock b (path ++ [b]) ∧
            lastDefOn (extractMemoryOperations .ascii (callIn 2)) path = site) ↔
          Arrives whileCfg (extractMemoryOperations .ascii (callIn 2)) site b) := by
  have hok : (buildMemorySsa .ascii .insertion whileCfg (callIn 2)).toOption.isSome := by
    decide +kernel
  cases h : buildMemorySsa .ascii .insertion whileCfg (callIn 2) with
  | error e => rw [h] at hok; cases hok
  | ok ms => exact ⟨ms, rfl, buildMemorySsa_correct_iff whileCfg_wellFormed h⟩

/-- A call in the header of a loop sees the state at the start only, also in the second round. -/
theorem not_memoryCorrect_header : ∃ ms,
    buildMemorySsa .ascii .insertion whileCfg (callIn 1) = .ok ms ∧
      ¬ MemoryCorrect whileCfg (extractMemoryOperations .ascii (callIn 1)) ms := by
  have heval : (buildMemorySsa .ascii .insertion whileCfg (callIn 1)).toOption.map (fun ms =>
      let memoryOps := extractMemoryOperations .ascii (callIn 1)
      (ms.memoryPhis, (ms.useAt memoryOps 1 0).map (·.version),
        ms.versionAt memoryOps (lastDefFrom memoryOps (lastDefOn memoryOps [0, 1, 2]) 1 0))) =
      some ([], some 0, 1) := by
    decide +kernel
  obtain ⟨ms, hok, heval⟩ := exists_ok_of_map heval
  refine ⟨ms, hok, fun hcorrect => ?_⟩
  simp only [Prod.mk.injEq] at heval
  obtain ⟨hphis, huse, hversion⟩ := heval
  have hop : (opsIn (extractMemoryOperations .ascii (callIn 1)) 1)[0]? =
      some ⟨1, 2, true, .call⟩ := by
    decide +kernel
  obtain ⟨use, huse', hyields⟩ := hcorrect.uses 1 0 _ (.edge (whileCfg_edge (by decide))) hop
    (.inr rfl)
  have hzero : use.version = 0 := by simpa [huse'] using huse
  have hleads := (hyields 1).2 ⟨[0, 1, 2], whileCfg_walk, hversion⟩
  rw [hzero, leads_leaf_iff (by simp [hphis])] at hleads
  cases hleads

end TldrCode.Ssa
