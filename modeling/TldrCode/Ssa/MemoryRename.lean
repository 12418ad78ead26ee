import TldrCode.Ssa.MemorySsa
import TldrCode.Ssa.Rename

/-!
# Renaming the memory

`renameMemoryVersions` records the operations of every block it visits in the version that the
immediate dominator left, or in the one of the phi function of the block (`MemoryRenamed`). The
versions it and phase 4 hand out are all different (`Numbered`).
-/

namespace TldrCode.Ssa

open Function (update)
open TldrCode.Graph

variable {cfg : CfgInfo} {domTree : DominatorTree} {memoryOps ops : List MemoryOp}
  {phiVersions : Nat → Option Nat} {builder s s₁ s₂ : MemorySsaBuilder} {U U₁ U₂ : Nat → Prop}
  {op : MemoryOp} {defs : List MemoryDef} {uses : List MemoryUse} {ids : List Nat}
  {b c d v x : Nat}

/-! ## One block -/

def MemoryOp.Reads (op : MemoryOp) : Prop := op.kind = .load ∨ op.kind = .call

def MemoryOp.Writes (op : MemoryOp) : Prop := op.kind ≠ .load

instance : DecidablePred MemoryOp.Reads := fun _ => inferInstanceAs (Decidable (_ ∨ _))

instance : DecidablePred MemoryOp.Writes := fun _ => inferInstanceAs (Decidable (¬ _))

/-- The version after the definitions `defs`, if it was `v` before. -/
def versionAfter (defs : List MemoryDef) (v : Nat) : Nat :=
  (defs.getLast?.map (·.version)).getD v

@[simp] theorem versionAfter_nil : versionAfter [] v = v := rfl

theorem versionAfter_cons (d : MemoryDef) (defs : List MemoryDef) :
    versionAfter (d :: defs) v = versionAfter defs d.version := by
  cases defs with
  | nil => rfl
  | cons x xs => simp [versionAfter, List.getLast?_eq_some_getLast]

/-- The operations `ops` are recorded by `defs` and `uses`, if the version before is `v`. -/
inductive Recorded : List MemoryOp → Nat → List MemoryDef → List MemoryUse → Prop
  | nil (v : Nat) : Recorded [] v [] []
  | load {op : MemoryOp} {ops : List MemoryOp} {v : Nat} {use : MemoryUse}
      {defs : List MemoryDef} {uses : List MemoryUse} (hk : op.kind = .load)
      (hu : use.version = v) (h : Recorded ops v defs uses) :
      Recorded (op :: ops) v defs (use :: uses)
  | call {op : MemoryOp} {ops : List MemoryOp} {v : Nat} {use : MemoryUse} {d : MemoryDef}
      {defs : List MemoryDef} {uses : List MemoryUse} (hk : op.kind = .call)
      (hu : use.version = v) (hd : d.clobbers = v) (h : Recorded ops d.version defs uses) :
      Recorded (op :: ops) v (d :: defs) (use :: uses)
  | write {op : MemoryOp} {ops : List MemoryOp} {v : Nat} {d : MemoryDef}
      {defs : List MemoryDef} {uses : List MemoryUse} (hk : op.kind = .store ∨ op.kind = .alloc)
      (hd : d.clobbers = v) (h : Recorded ops d.version defs uses) :
      Recorded (op :: ops) v (d :: defs) uses

/-- From `s` on, the definitions `defs` and the uses `uses` of the block `b` are recorded. -/
structure Extends (b : Nat) (s s' : MemorySsaBuilder) (defs : List MemoryDef)
    (uses : List MemoryUse) : Prop where
  defs_eq : s'.memoryDefs = s.memoryDefs ++ defs
  uses_eq : s'.memoryUses = s.memoryUses ++ uses
  def_block : ∀ d ∈ defs, d.block = b
  use_block : ∀ u ∈ uses, u.block = b
  stack : s'.versionStack = (defs.map (·.version)).reverse ++ s.versionStack
  out : s'.blockOutVersion = s.blockOutVersion
  phis : s'.memoryPhis = s.memoryPhis

theorem Extends.refl (b : Nat) (s : MemorySsaBuilder) : Extends b s s [] [] := by
  constructor <;> simp

theorem Extends.trans {defs' : List MemoryDef} {uses' : List MemoryUse}
    (h₁ : Extends b s s₁ defs uses) (h₂ : Extends b s₁ s₂ defs' uses') :
    Extends b s s₂ (defs ++ defs') (uses ++ uses') where
  defs_eq := by rw [h₂.defs_eq, h₁.defs_eq, List.append_assoc]
  uses_eq := by rw [h₂.uses_eq, h₁.uses_eq, List.append_assoc]
  def_block := by
    intro d hd
    exact (List.mem_append.1 hd).elim (h₁.def_block d) (h₂.def_block d)
  use_block := by
    intro u hu
    exact (List.mem_append.1 hu).elim (h₁.use_block u) (h₂.use_block u)
  stack := by
    rw [h₂.stack, h₁.stack, List.map_append, List.reverse_append, List.append_assoc]
  out := h₂.out.trans h₁.out
  phis := h₂.phis.trans h₁.phis

theorem extends_addDef (b line : Nat) (kind : MemoryOpKind) (s : MemorySsaBuilder) :
    Extends b s (s.addDef b line kind) [⟨s.nextVersion, s.currentVersion, b, line, kind⟩] [] := by
  constructor <;> simp [MemorySsaBuilder.addDef]

theorem extends_addUse (b line : Nat) (kind : MemoryOpKind) (s : MemorySsaBuilder) :
    Extends b s (s.addUse b line kind) [] [⟨s.currentVersion, b, line, kind⟩] := by
  constructor <;> simp [MemorySsaBuilder.addUse]

theorem Extends.currentVersion_eq (h : Extends b s s₁ defs uses) :
    s₁.currentVersion = versionAfter defs s.currentVersion := by
  rw [MemorySsaBuilder.currentVersion, h.stack, versionAfter, MemorySsaBuilder.currentVersion]
  cases defs using List.reverseRecOn with
  | nil => rfl
  | append_singleton defs d => simp

theorem process_spec (b : Nat) (op : MemoryOp) (s : MemorySsaBuilder) : ∃ ds us,
    Extends b s (s.process b op) ds us ∧ ∀ ops defs uses,
      Recorded ops (s.process b op).currentVersion defs uses →
        Recorded (op :: ops) s.currentVersion (ds ++ defs) (us ++ uses) := by
  rw [MemorySsaBuilder.process]
  cases hk : op.kind with
  | load => exact ⟨_, _, extends_addUse b op.line .load s, fun _ _ _ h => .load hk rfl h⟩
  | call =>
    exact ⟨_, _, (extends_addUse b op.line .call s).trans (extends_addDef b op.line .call _),
      fun _ _ _ h => .call hk rfl rfl h⟩
  | store =>
    exact ⟨_, _, extends_addDef b op.line .store s, fun _ _ _ h => .write (.inl hk) rfl h⟩
  | alloc =>
    exact ⟨_, _, extends_addDef b op.line .alloc s, fun _ _ _ h => .write (.inr hk) rfl h⟩

theorem foldl_process (b : Nat) (ops : List MemoryOp) : ∀ s : MemorySsaBuilder, ∃ defs uses,
    Extends b s (ops.foldl (fun s op => s.process b op) s) defs uses ∧
      Recorded ops s.currentVersion defs uses := by
  induction ops with
  | nil => exact fun s => ⟨[], [], .refl b s, .nil _⟩
  | cons op ops ih =>
    intro s
    obtain ⟨ds, us, hext, hrec⟩ := process_spec b op s
    obtain ⟨defs, uses, hext', hrec'⟩ := ih (s.process b op)
    exact ⟨ds ++ defs, us ++ uses, hext.trans hext', hrec ops defs uses hrec'⟩

/-! ## What a part of the walk does -/

/-- The recorded definitions of the block `c`. -/
def MemorySsaBuilder.defsIn (s : MemorySsaBuilder) (c : Nat) : List MemoryDef :=
  s.memoryDefs.filter (·.block == c)

/-- The recorded uses of the block `c`. -/
def MemorySsaBuilder.usesIn (s : MemorySsaBuilder) (c : Nat) : List MemoryUse :=
  s.memoryUses.filter (·.block == c)

/-- The operations of the block `c` are recorded from `s` to `s'`, if the version handed to it is
`v`. -/
def BlockRecorded (memoryOps : List MemoryOp) (phiVersions : Nat → Option Nat)
    (s s' : MemorySsaBuilder) (c v : Nat) : Prop :=
  ∃ defs uses, Recorded (memoryOps.filter (·.block == c)) ((phiVersions c).getD v) defs uses ∧
    s'.defsIn c = s.defsIn c ++ defs ∧ s'.usesIn c = s.usesIn c ++ uses ∧
    s'.blockOutVersion c = some (versionAfter defs ((phiVersions c).getD v))

/-- A part of the walk renames the blocks in `U`. -/
structure MemoryRenamed (cfg : CfgInfo) (memoryOps : List MemoryOp)
    (phiVersions : Nat → Option Nat) (U : Nat → Prop) (s s' : MemorySsaBuilder) : Prop where
  stack : s'.versionStack = s.versionStack
  phis : s'.memoryPhis = s.memoryPhis
  frame : ∀ c, ¬ U c → s'.defsIn c = s.defsIn c ∧ s'.usesIn c = s.usesIn c ∧
    s'.blockOutVersion c = s.blockOutVersion c
  done : ∀ c, U c → ∃ v, BlockRecorded memoryOps phiVersions s s' c v ∧
    ((∀ d, U d → ¬ IDom cfg.Edge cfg.entryBlock d c) → v = s.currentVersion) ∧
    ∀ d, U d → IDom cfg.Edge cfg.entryBlock d c → s'.blockOutVersion d = some v

theorem filter_block {α : Type} {f : α → Nat} {l : List α} (hl : ∀ a ∈ l, f a = b) (c : Nat) :
    l.filter (f · == c) = if c = b then l else [] := by
  split_ifs with hc
  · rw [List.filter_eq_self]
    intro a ha
    simp [hl a ha, hc]
  · rw [List.filter_eq_nil_iff]
    intro a ha
    simpa [hl a ha] using Ne.symm hc

theorem renameMemoryBlock_eq (b : Nat) (s : MemorySsaBuilder) : ∃ s₀ : MemorySsaBuilder,
    renameMemoryBlock memoryOps phiVersions b s = ((memoryOps.filter (·.block == b)).foldl
      (fun s op => s.process b op) s₀).recordOut b ∧
    s₀.currentVersion = (phiVersions b).getD s.currentVersion ∧
    (∃ l, s₀.versionStack = l ++ s.versionStack) ∧ s₀.memoryDefs = s.memoryDefs ∧
    s₀.memoryUses = s.memoryUses ∧ s₀.blockOutVersion = s.blockOutVersion ∧
    s₀.memoryPhis = s.memoryPhis := by
  rw [renameMemoryBlock]
  cases phiVersions b with
  | none => exact ⟨s, rfl, rfl, ⟨[], rfl⟩, rfl, rfl, rfl, rfl⟩
  | some v => exact ⟨s.pushVersion v, rfl, rfl, ⟨[v], rfl⟩, rfl, rfl, rfl, rfl⟩

theorem renameMemoryBlock_spec (b : Nat) (s : MemorySsaBuilder) :
    let s' := renameMemoryBlock memoryOps phiVersions b s
    BlockRecorded memoryOps phiVersions s s' b s.currentVersion ∧
      s'.blockOutVersion b = some s'.currentVersion ∧
      (∃ l, s'.versionStack = l ++ s.versionStack) ∧ s'.memoryPhis = s.memoryPhis ∧
      ∀ c, c ≠ b → s'.defsIn c = s.defsIn c ∧ s'.usesIn c = s.usesIn c ∧
        s'.blockOutVersion c = s.blockOutVersion c := by
  obtain ⟨s₀, heq, hcur, ⟨l, hl⟩, hdefs, huses, hout, hphis⟩ :=
    @renameMemoryBlock_eq memoryOps phiVersions b s
  obtain ⟨defs, uses, hext, hrec⟩ := foldl_process b (memoryOps.filter (·.block == b)) s₀
  rw [heq]
  dsimp only
  generalize (memoryOps.filter (·.block == b)).foldl (fun s op => s.process b op) s₀ = s₁ at hext
  have hcur' := hext.currentVersion_eq
  rw [hcur] at hrec hcur'
  have hdefsIn : ∀ c, (s₁.recordOut b).defsIn c = s.defsIn c ++ if c = b then defs else [] := by
    intro c
    rw [← filter_block hext.def_block, MemorySsaBuilder.defsIn, MemorySsaBuilder.defsIn, ← hdefs,
      ← List.filter_append, ← hext.defs_eq]
    rfl
  have husesIn : ∀ c, (s₁.recordOut b).usesIn c = s.usesIn c ++ if c = b then uses else [] := by
    intro c
    rw [← filter_block hext.use_block, MemorySsaBuilder.usesIn, MemorySsaBuilder.usesIn, ← huses,
      ← List.filter_append, ← hext.uses_eq]
    rfl
  have hblock : ∀ c, (s₁.recordOut b).blockOutVersion c =
      if c = b then some s₁.currentVersion else s.blockOutVersion c := by
    intro c
    rw [MemorySsaBuilder.recordOut]
    dsimp only
    rw [hext.out, hout, Function.update_apply]
  refine ⟨⟨defs, uses, hrec, ?_, ?_, ?_⟩, ?_, ?_, hext.phis.trans hphis, fun c hc => ⟨?_, ?_, ?_⟩⟩
  · simpa using hdefsIn b
  · simpa using husesIn b
  · rw [hblock, if_pos rfl, hcur']
  · rw [hblock, if_pos rfl]
    rfl
  · refine ⟨(defs.map (·.version)).reverse ++ l, ?_⟩
    rw [List.append_assoc, ← hl, ← hext.stack]
    rfl
  · simpa [hc] using hdefsIn c
  · simpa [hc] using husesIn c
  · simpa [hc] using hblock c

namespace MemoryRenamed

theorem refl (s : MemorySsaBuilder) :
    MemoryRenamed cfg memoryOps phiVersions (fun _ => False) s s where
  stack := rfl
  phis := rfl
  frame _ _ := ⟨rfl, rfl, rfl⟩
  done _ := False.elim

theorem currentVersion_eq (h : MemoryRenamed cfg memoryOps phiVersions U s s₁) :
    s₁.currentVersion = s.currentVersion := by
  rw [MemorySsaBuilder.currentVersion, MemorySsaBuilder.currentVersion, h.stack]

/-- Two parts one after the other, on blocks that have nothing to do with each other. -/
theorem append (h₁ : MemoryRenamed cfg memoryOps phiVersions U₁ s s₁)
    (h₂ : MemoryRenamed cfg memoryOps phiVersions U₂ s₁ s₂)
    (hapart : Apart cfg U₁ U₂) :
    MemoryRenamed cfg memoryOps phiVersions (fun c => U₁ c ∨ U₂ c) s s₂ where
  stack := h₂.stack.trans h₁.stack
  phis := h₂.phis.trans h₁.phis
  frame c hc := by
    obtain ⟨hd₁, hu₁, ho₁⟩ := h₁.frame c fun h => hc (.inl h)
    obtain ⟨hd₂, hu₂, ho₂⟩ := h₂.frame c fun h => hc (.inr h)
    exact ⟨hd₂.trans hd₁, hu₂.trans hu₁, ho₂.trans ho₁⟩
  done c hc := by
    rcases hc with hc | hc
    · obtain ⟨v, ⟨defs, uses, hrec, hd, hu, ho⟩, hroot, hchild⟩ := h₁.done c hc
      obtain ⟨hd₂, hu₂, ho₂⟩ := h₂.frame c (hapart.disjoint c hc)
      refine ⟨v, ⟨defs, uses, hrec, hd₂.trans hd, hu₂.trans hu, ho₂.trans ho⟩,
        fun h => hroot fun d hd => h d (.inl hd), ?_⟩
      intro d hd hi
      rcases hd with hd | hd
      · rw [(h₂.frame d (hapart.disjoint d hd)).2.2]
        exact hchild d hd hi
      · exact absurd hc (hapart.right c d hd hi)
    · obtain ⟨v, ⟨defs, uses, hrec, hd, hu, ho⟩, hroot, hchild⟩ := h₂.done c hc
      obtain ⟨hd₁, hu₁, -⟩ := h₁.frame c fun h => hapart.disjoint c h hc
      refine ⟨v, ⟨defs, uses, hrec, hd₁ ▸ hd, hu₁ ▸ hu, ho⟩, fun h => ?_, ?_⟩
      · rw [hroot fun d hd => h d (.inr hd), h₁.currentVersion_eq]
      · intro d hd hi
        rcases hd with hd | hd
        · exact absurd hc (hapart.left c d hd hi)
        · exact hchild d hd hi

end MemoryRenamed

theorem popTo_append (base : List Nat) : ∀ l, popTo base.length (l ++ base) = base := by
  intro l
  induction l with
  | nil =>
    cases base with
    | nil => rfl
    | cons v base => simp [popTo]
  | cons v l ih =>
    have hlt : base.length < (l ++ base).length + 1 := by
      rw [List.length_append]
      omega
    rw [List.cons_append, popTo, if_pos hlt]
    exact ih

theorem MemoryRenamed.node (h : MemoryRenamed cfg memoryOps phiVersions U
      (renameMemoryBlock memoryOps phiVersions b s) s₂)
    (hU : BelowParent cfg b U) :
    MemoryRenamed cfg memoryOps phiVersions (fun c => c = b ∨ U c) s
      { s₂ with versionStack := popTo s.versionStack.length s₂.versionStack } := by
  obtain ⟨⟨defs, uses, hrec, hd, hu, ho⟩, hout, ⟨l, hl⟩, hphis, hother⟩ :=
    @renameMemoryBlock_spec memoryOps phiVersions b s
  obtain ⟨hdb, hub, hob⟩ := h.frame b hU.notMem
  have hself : ¬ IDom cfg.Edge cfg.entryBlock b b := fun hi => hi.1.2 rfl
  refine ⟨?_, h.phis.trans hphis, ?_, ?_⟩
  · dsimp only
    rw [h.stack, hl, popTo_append]
  · intro c hc
    rw [not_or] at hc
    obtain ⟨hd₁, hu₁, ho₁⟩ := hother c hc.1
    obtain ⟨hd₂, hu₂, ho₂⟩ := h.frame c hc.2
    exact ⟨hd₂.trans hd₁, hu₂.trans hu₁, ho₂.trans ho₁⟩
  · intro c hc
    rcases hc with rfl | hc
    · refine ⟨s.currentVersion, ⟨defs, uses, hrec, hdb.trans hd, hub.trans hu, hob.trans ho⟩,
        fun _ => rfl, ?_⟩
      intro d hd hi
      rcases hd with rfl | hd
      · exact absurd hi hself
      · exact absurd hi (hU.up d hd)
    · have hne : c ≠ b := fun he => hU.notMem (he ▸ hc)
      obtain ⟨v, ⟨defs, uses, hrec, hd, hu, ho⟩, hr, hchild⟩ := h.done c hc
      obtain ⟨hd₁, hu₁, -⟩ := hother c hne
      refine ⟨v, ⟨defs, uses, hrec, hd₁ ▸ hd, hu₁ ▸ hu, ho⟩, fun hno => ?_, ?_⟩
      · have hi := hU.root c hc fun d hd => hno d (.inr hd)
        exact absurd hi (hno b (.inl rfl))
      · intro d hd hi
        rcases hd with rfl | hd
        · -- the version handed to a child is the one its parent ends with
          have hno : ∀ d', U d' → ¬ IDom cfg.Edge cfg.entryBlock d' c := by
            intro d' hd' hi'
            exact hU.notMem (hi.unique hi' (hU.reachable c hc) ▸ hd')
          rw [hr hno]
          exact hob.trans hout
        · exact hchild d hd hi

/-- **The walk from `b`.** -/
theorem renameMemoryVersions_spec (h : IsDominatorTree cfg domTree) : ∀ fuel b s,
    cfg.Reachable b → domTree.nodes.length ≤ h.sdomCount b + fuel →
      MemoryRenamed cfg memoryOps phiVersions
        (Visited cfg (domTree.nodes.map (·.blockId)) b) s
        (renameMemoryVersions memoryOps phiVersions domTree fuel b s) := by
  intro fuel
  induction fuel with
  | zero =>
    intro b s hb hle
    have := h.sdomCount_lt_length hb
    omega
  | succ fuel ih =>
    intro b s hb hle
    rw [renameMemoryVersions]
    obtain ⟨node, hnode⟩ := Option.isSome_iff_exists.1 (h.get?_isSome.2 hb)
    obtain ⟨hmem, hnb⟩ := DominatorTree.mem_of_get? hnode
    have hchildren : ∀ c, c ∈ node.children ↔
        cfg.Reachable c ∧ IDom cfg.Edge cfg.entryBlock b c :=
      hnb ▸ h.children node hmem
    have hrun := visited_foldl (domTree.nodes.map (·.blockId)) (b := b) .refl
      (fun h₁ h₂ hapart => h₁.append h₂ hapart)
      (fun x s hx hi => ih x s hx (by have := h.sdomCount_lt hx hi.sdom; omega))
      node.children (renameMemoryBlock memoryOps phiVersions b s) (h.children_nodup node hmem)
      fun x hx => (hchildren x).1 hx
    simp only [hchildren] at hrun
    have hstep := hrun.node below_visited
    rw [visited_eq ((h.mem b).2 hb)] at hstep
    simp only [hnode, Option.map_some, Option.getD_some]
    exact hstep

theorem visited_nodes_iff (h : IsDominatorTree cfg domTree) :
    Visited cfg (domTree.nodes.map (·.blockId)) cfg.entryBlock c ↔ cfg.Reachable c := by
  refine ⟨fun hc => (h.mem c).1 hc.mem, fun hc => ?_⟩
  induction hn : h.sdomCount c using Nat.strong_induction_on generalizing c with
  | _ n ih =>
    by_cases he : c = cfg.entryBlock
    · exact he ▸ .self ((h.mem c).2 hc)
    · obtain ⟨d, hd⟩ := exists_idom hc he
      have hlt : h.sdomCount d < n := hn ▸ h.sdomCount_lt hc hd.sdom
      exact .child (ih _ hlt (hd.reach hc) rfl) hd hc ((h.mem c).2 hc)

/-! ## Numbers -/

/-- The versions of the phi functions and of the definitions are numbered from 1 on. -/
def Numbered (s : MemorySsaBuilder) : Prop :=
  s.memoryPhis.map (·.result) ++ s.memoryDefs.map (·.version) =
    List.range' 1 (s.nextVersion - 1) ∧ 1 ≤ s.nextVersion

theorem Numbered.addDef (h : Numbered s) (b line : Nat) (kind : MemoryOpKind) :
    Numbered (s.addDef b line kind) := by
  obtain ⟨heq, hpos⟩ := h
  refine ⟨?_, Nat.le_add_left _ _⟩
  have hn : s.nextVersion - 1 + 1 = s.nextVersion := by omega
  simp only [MemorySsaBuilder.addDef, List.map_append, List.map_cons, List.map_nil,
    ← List.append_assoc, heq, Nat.add_sub_cancel]
  conv_rhs => rw [← hn, List.range'_concat]
  simp only [List.append_cancel_left_eq, List.cons.injEq, and_true]
  omega

theorem Numbered.process (h : Numbered s) (b : Nat) (op : MemoryOp) :
    Numbered (s.process b op) := by
  rw [MemorySsaBuilder.process]
  cases op.kind with
  | load => exact h
  | call => exact Numbered.addDef (s := s.addUse b op.line .call) h b op.line .call
  | store => exact h.addDef b op.line .store
  | alloc => exact h.addDef b op.line .alloc

theorem Numbered.renameMemoryBlock (h : Numbered s) (b : Nat) :
    Numbered (renameMemoryBlock memoryOps phiVersions b s) := by
  rw [Ssa.renameMemoryBlock]
  cases phiVersions b with
  | none => exact List.foldlRecOn _ _ h fun _ hs op _ => hs.process b op
  | some v => exact List.foldlRecOn (motive := Numbered) _ _ h fun _ hs op _ => hs.process b op

theorem Numbered.renameMemoryVersions : ∀ fuel b (s : MemorySsaBuilder), Numbered s →
    Numbered (renameMemoryVersions memoryOps phiVersions domTree fuel b s) := by
  intro fuel
  induction fuel with
  | zero => exact fun _ _ h => h
  | succ fuel ih =>
    intro b s h
    exact List.foldlRecOn (motive := Numbered) _ _ (h.renameMemoryBlock b) fun s hs x _ => ih x s hs

theorem addMemoryPhis_spec (l : List Nat) (hl : l.Nodup) :
    let state := addMemoryPhis l
    Numbered state.1 ∧ state.1.versionStack = [0] ∧ state.1.memoryDefs = [] ∧
      state.1.memoryUses = [] ∧ state.1.blockOutVersion = (fun _ => none) ∧
      (∀ c, (state.2 c).isSome ↔ c ∈ l) ∧ (∀ phi ∈ state.1.memoryPhis, phi.sources = [] ∧
        state.2 phi.block = some phi.result) ∧
      ∀ c v, state.2 c = some v → ∃ phi ∈ state.1.memoryPhis, phi.block = c ∧ phi.result = v := by
  induction l using List.reverseRecOn with
  | nil => simp [addMemoryPhis, MemorySsaBuilder.new, Numbered]
  | append_singleton l b ih =>
    obtain ⟨hb, hl⟩ : b ∉ l ∧ l.Nodup := by
      have := List.nodup_append.1 hl
      exact ⟨fun hm => this.2.2 b hm b (by simp) rfl, this.1⟩
    obtain ⟨⟨heq, hpos⟩, hstack, hdefs, huses, hout, hmem, hphis, hver⟩ := ih hl
    have hstep : addMemoryPhis (l ++ [b]) =
        (addMemoryPhis l).1.addPhi (addMemoryPhis l).2 b := by
      simp [addMemoryPhis]
    rw [hstep]
    generalize addMemoryPhis l = state at *
    have hn : state.1.nextVersion - 1 + 1 = state.1.nextVersion := by omega
    rw [hdefs, List.map_nil, List.append_nil] at heq
    refine ⟨⟨?_, Nat.le_add_left _ _⟩, hstack, hdefs, huses, hout, fun c => ?_, ?_, ?_⟩
    · simp only [MemorySsaBuilder.addPhi, List.map_append, List.map_cons, List.map_nil, hdefs,
        List.append_nil, heq, Nat.add_sub_cancel]
      conv_rhs => rw [← hn, List.range'_concat]
      simp only [List.append_cancel_left_eq, List.cons.injEq, and_true]
      omega
    · simp only [MemorySsaBuilder.addPhi, Function.update_apply, List.mem_append,
        List.mem_singleton]
      split_ifs with hc
      · simp [hc]
      · simp [hc, hmem c]
    · intro phi hphi
      simp only [MemorySsaBuilder.addPhi, List.mem_append, List.mem_singleton] at hphi ⊢
      rcases hphi with hphi | rfl
      · obtain ⟨hs, hv⟩ := hphis phi hphi
        have hne : phi.block ≠ b := by
          intro he
          exact hb ((hmem b).1 (by rw [← he, hv]; rfl))
        exact ⟨hs, by rw [Function.update_of_ne hne, hv]⟩
      · simp
    · intro c v hv
      simp only [MemorySsaBuilder.addPhi, Function.update_apply] at hv ⊢
      split_ifs at hv with hc
      · refine ⟨⟨state.1.nextVersion, b, []⟩, by simp, hc.symm, Option.some_inj.1 hv⟩
      · obtain ⟨phi, hphi, hpb, hpr⟩ := hver c v hv
        exact ⟨phi, List.mem_append_left _ hphi, hpb, hpr⟩

end TldrCode.Ssa
