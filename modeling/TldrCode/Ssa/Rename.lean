import TldrCode.Ssa.RenameBlock

/-!
# Renaming over the dominator tree

`renameVariablesRecursive` renames every block it visits once, in the state its immediate
dominator left (`RenameStep`): the names a block starts with are the ones current at the end of
its immediate dominator, the ids each block creates are an interval, and these intervals tile the
ids of the whole walk. `rename_spec` proves it by induction on the walk, one step per dominator
tree node (`RenameStep.node`) and one per child (`RenameStep.append`).
-/

namespace TldrCode.Ssa

open Function (update)
open TldrCode.Graph

variable {ctx : SsaRenamingContext} {cfg : CfgInfo} {ids : List Nat} {b c d x y : Nat}

/-! ## The blocks visited -/

/-- The walk from `b` visits `c`: it gets there down the dominator tree through blocks with the
ids `ids`. -/
inductive Visited (cfg : CfgInfo) (ids : List Nat) (b : Nat) : Nat → Prop
  | self (hb : b ∈ ids) : Visited cfg ids b b
  | child {c d : Nat} (hd : Visited cfg ids b d) (hi : IDom cfg.Edge cfg.entryBlock d c)
    (hr : cfg.Reachable c) (hc : c ∈ ids) : Visited cfg ids b c

namespace Visited

theorem mem (h : Visited cfg ids b c) : c ∈ ids := by
  cases h with
  | self hb => exact hb
  | child _ _ _ hc => exact hc

theorem start_mem (h : Visited cfg ids b c) : b ∈ ids := by
  induction h with
  | self hb => exact hb
  | child _ _ _ _ ih => exact ih

theorem reachable (h : Visited cfg ids b c) (hb : cfg.Reachable b) : cfg.Reachable c := by
  cases h with
  | self => exact hb
  | child _ _ hr _ => exact hr

theorem dom (h : Visited cfg ids b c) : cfg.Dominates b c := by
  induction h with
  | self => exact .refl b
  | child _ hi _ _ ih => exact ih.trans hi.1.1

theorem of_child (h : Visited cfg ids x c) (hi : IDom cfg.Edge cfg.entryBlock b x)
    (hr : cfg.Reachable x) (hb : b ∈ ids) : Visited cfg ids b c := by
  induction h with
  | self hx => exact .child (.self hb) hi hr hx
  | child _ hi hr hc ih => exact .child ih hi hr hc

theorem cases_child (h : Visited cfg ids b c) : c = b ∨
    ∃ x, IDom cfg.Edge cfg.entryBlock b x ∧ cfg.Reachable x ∧ Visited cfg ids x c := by
  induction h with
  | self => exact .inl rfl
  | child hd hi hr hc ih =>
    rcases ih with rfl | ⟨x, hx, hrx, hv⟩
    · exact .inr ⟨_, hi, hr, .self hc⟩
    · exact .inr ⟨x, hx, hrx, .child hv hi hr hc⟩

theorem disjoint (hx : IDom cfg.Edge cfg.entryBlock b x) (hy : IDom cfg.Edge cfg.entryBlock b y)
    (hrx : cfg.Reachable x) (hry : cfg.Reachable y) (hxy : x ≠ y) (h₁ : Visited cfg ids x c) :
    ¬ Visited cfg ids y c := by
  intro h₂
  rcases h₁.dom.chain h₂.dom (h₁.reachable hrx) with h | h
  · exact hx.1.2 (hx.1.1.antisymm (hy.2 x ⟨h, hxy⟩) (hx.reach hrx))
  · exact hy.1.2 (hy.1.1.antisymm (hx.2 y ⟨h, hxy.symm⟩) (hy.reach hry))

theorem not_parent (hx : IDom cfg.Edge cfg.entryBlock b x) (hr : cfg.Reachable x) :
    ¬ Visited cfg ids x b := fun h => hx.1.2 (hx.1.1.antisymm h.dom (hx.reach hr))

end Visited

/-! ## Walks over the dominator tree -/

/-- Sets of blocks without a common block or an edge of the dominator tree between them. -/
structure Apart (cfg : CfgInfo) (U₁ U₂ : Nat → Prop) : Prop where
  disjoint : ∀ c, U₁ c → ¬ U₂ c
  left : ∀ c d, U₁ d → IDom cfg.Edge cfg.entryBlock d c → ¬ U₂ c
  right : ∀ c d, U₂ d → IDom cfg.Edge cfg.entryBlock d c → ¬ U₁ c

/-- **The children of `b`** are visited one after the other, each apart from the rest. -/
theorem visited_foldl (ids : List Nat) {σ : Type} {R : (Nat → Prop) → σ → σ → Prop}
    {f : σ → Nat → σ}
    (hrefl : ∀ s, R (fun _ => False) s s)
    (happend : ∀ {U₁ U₂ s s₁ s₂}, R U₁ s s₁ → R U₂ s₁ s₂ → Apart cfg U₁ U₂ →
      R (fun c => U₁ c ∨ U₂ c) s s₂)
    (hvisit : ∀ x s, cfg.Reachable x → IDom cfg.Edge cfg.entryBlock b x →
      R (Visited cfg ids x) s (f s x)) : ∀ (l : List Nat) (s : σ), l.Nodup →
      (∀ x ∈ l, cfg.Reachable x ∧ IDom cfg.Edge cfg.entryBlock b x) →
      R (fun c => ∃ x ∈ l, Visited cfg ids x c) s (l.foldl f s) := by
  intro l
  induction l with
  | nil =>
    intro s _ _
    simpa using hrefl s
  | cons x l ihl =>
    intro s hnodup hl
    obtain ⟨hx, hnodup⟩ := List.nodup_cons.1 hnodup
    obtain ⟨hrx, hix⟩ := hl x List.mem_cons_self
    have hdisj : ∀ c, Visited cfg ids x c → ¬ ∃ y ∈ l, Visited cfg ids y c := by
      rintro c hc ⟨y, hy, hyc⟩
      obtain ⟨hry, hiy⟩ := hl y (List.mem_cons_of_mem _ hy)
      exact hc.disjoint hix hiy hrx hry (fun he => hx (he ▸ hy)) hyc
    have hstep := happend (hvisit x s hrx hix)
      (ihl (f s x) hnodup fun y hy => hl y (List.mem_cons_of_mem _ hy))
      { disjoint := hdisj
        left := by
          rintro c d hd hi ⟨y, hy, hyc⟩
          have hry := (hl y (List.mem_cons_of_mem _ hy)).1
          exact hdisj c (.child hd hi (hyc.reachable hry) hyc.mem) ⟨y, hy, hyc⟩
        right := by
          rintro c d ⟨y, hy, hd⟩ hi hc
          exact hdisj c hc ⟨y, hy, .child hd hi (hc.reachable hrx) hc.mem⟩ }
    have hU : (fun c => Visited cfg ids x c ∨ ∃ y ∈ l, Visited cfg ids y c) =
        fun c => ∃ y ∈ x :: l, Visited cfg ids y c := by
      funext c
      simp
    rwa [hU] at hstep

/-- Blocks strictly below `b` in the dominator tree, from some of its children on. -/
structure BelowParent (cfg : CfgInfo) (b : Nat) (U : Nat → Prop) : Prop where
  notMem : ¬ U b
  reachable : ∀ c, U c → cfg.Reachable c
  root : ∀ c, U c → (∀ d, U d → ¬ IDom cfg.Edge cfg.entryBlock d c) →
    IDom cfg.Edge cfg.entryBlock b c
  up : ∀ d, U d → ¬ IDom cfg.Edge cfg.entryBlock d b

theorem below_visited : BelowParent cfg b fun c =>
    ∃ x, (cfg.Reachable x ∧ IDom cfg.Edge cfg.entryBlock b x) ∧ Visited cfg ids x c where
  notMem := by
    rintro ⟨x, ⟨hrx, hix⟩, hv⟩
    exact Visited.not_parent hix hrx hv
  reachable := fun c ⟨x, ⟨hrx, _⟩, hv⟩ => hv.reachable hrx
  root := by
    rintro c ⟨x, ⟨hrx, hix⟩, hv⟩ hroot
    cases hv with
    | self => exact hix
    | child hd hi => exact absurd hi (hroot _ ⟨x, ⟨hrx, hix⟩, hd⟩)
  up := by
    rintro d ⟨x, ⟨hrx, hix⟩, hv⟩ hi
    exact hix.1.2 (hix.1.1.antisymm (hv.dom.trans hi.1.1) (hix.reach hrx))

theorem visited_eq (hb : b ∈ ids) : (fun c => c = b ∨
    ∃ x, (cfg.Reachable x ∧ IDom cfg.Edge cfg.entryBlock b x) ∧ Visited cfg ids x c) =
    Visited cfg ids b := by
  funext c
  refine propext ⟨?_, fun hv => ?_⟩
  · rintro (rfl | ⟨x, ⟨hrx, hix⟩, hv⟩)
    · exact .self hb
    · exact hv.of_child hix hrx hb
  · rcases hv.cases_child with rfl | ⟨x, hix, hrx, hv⟩
    · exact .inl rfl
    · exact .inr ⟨x, ⟨hrx, hix⟩, hv⟩

/-! ## What a part of the walk does -/

/-- The block with the id `c`. -/
def lookupBlock (blocks : List SsaBlock) (c : Nat) : Option SsaBlock := blocks.find? (·.id == c)

theorem lookupBlock_isSome {blocks : List SsaBlock} :
    (lookupBlock blocks c).isSome ↔ c ∈ blocks.map (·.id) := by
  simp [lookupBlock, List.find?_isSome]

theorem lookupBlock_cons (x : SsaBlock) (xs : List SsaBlock) (c : Nat) :
    lookupBlock (x :: xs) c = if x.id = c then some x else lookupBlock xs c := by
  rw [lookupBlock, List.find?_cons]
  by_cases hx : x.id = c
  · simp [hx]
  · simp [hx, beq_eq_false_iff_ne.2 hx, lookupBlock]

theorem findIdx_id_cons (x : SsaBlock) (xs : List SsaBlock) (b : Nat) :
    (x :: xs).findIdx (·.id == b) = if x.id = b then 0 else xs.findIdx (·.id == b) + 1 := by
  rw [List.findIdx_cons]
  by_cases hx : x.id = b
  · simp [hx]
  · simp [hx, beq_eq_false_iff_ne.2 hx]

theorem findIdx_id_congr {blocks blocks' : List SsaBlock}
    (h : blocks.map (·.id) = blocks'.map (·.id)) (b : Nat) :
    blocks.findIdx (·.id == b) = blocks'.findIdx (·.id == b) := by
  have hmap : ∀ l : List SsaBlock, l.findIdx (·.id == b) = (l.map (·.id)).findIdx (· == b) := by
    intro l
    rw [List.findIdx_map]
    rfl
  rw [hmap, hmap, h]

theorem getElem?_findIdx_id (blocks : List SsaBlock) (b : Nat) :
    blocks[blocks.findIdx (·.id == b)]? = lookupBlock blocks b := by
  induction blocks with
  | nil => rfl
  | cons x xs ih =>
    rw [lookupBlock_cons, findIdx_id_cons]
    split_ifs
    · rfl
    · simpa using ih

section

variable {blocks : List SsaBlock} {block new : SsaBlock} (hb : lookupBlock blocks b = some block)
  (hid : new.id = b)
include hb hid

theorem lookupBlock_set (c : Nat) :
    lookupBlock (blocks.set (blocks.findIdx (·.id == b)) new) c =
      if c = b then some new else lookupBlock blocks c := by
  induction blocks with
  | nil => simp [lookupBlock] at hb
  | cons x xs ih =>
    rw [lookupBlock_cons] at hb
    rw [findIdx_id_cons]
    by_cases hx : x.id = b
    · rw [if_pos hx, List.set_cons_zero, lookupBlock_cons, lookupBlock_cons, hid, hx]
      by_cases hc : b = c <;> simp [hc, eq_comm]
    · rw [if_neg hx] at hb
      rw [if_neg hx, List.set_cons_succ, lookupBlock_cons, lookupBlock_cons, ih hb]
      by_cases hxc : x.id = c
      · simp [hxc, show ¬ c = b from fun h => hx (hxc.trans h)]
      · simp [hxc]

theorem map_id_set :
    (blocks.set (blocks.findIdx (·.id == b)) new).map (·.id) = blocks.map (·.id) := by
  induction blocks with
  | nil => rfl
  | cons x xs ih =>
    rw [lookupBlock_cons] at hb
    rw [findIdx_id_cons]
    by_cases hx : x.id = b
    · simp [hx, hid]
    · rw [if_neg hx] at hb
      simpa [hx] using ih hb

end

theorem lookupBlock_id {blocks : List SsaBlock} {block : SsaBlock}
    (h : lookupBlock blocks c = some block) : block ∈ blocks ∧ block.id = c :=
  ⟨List.mem_of_find?_eq_some h, by simpa using List.find?_some h⟩

def NamesOk (s : RenamingState) : Prop :=
  s.names.map (·.id) = List.range' 1 s.names.length ∧ s.nextId = s.names.length + 1

/-- A part of the walk renames the blocks in `U`; `run c` is the block `c` and the state it is
renamed in. -/
structure RenameStep (ctx : SsaRenamingContext) (U : Nat → Prop)
    (before after : List SsaBlock × RenamingState) (run : Nat → SsaBlock × RenamingState) :
    Prop where
  restored : after.2.versionStacks = before.2.versionStacks
  nextId_le : before.2.nextId ≤ after.2.nextId
  ids : after.1.map (·.id) = before.1.map (·.id)
  frame : ∀ c, ¬ U c → lookupBlock after.1 c = lookupBlock before.1 c ∧
    ∀ v, after.2.blockExitVersions v c = before.2.blockExitVersions v c
  names : before.2.names <+: after.2.names
  namesOk : NamesOk before.2 → NamesOk after.2
  initial : ∀ c, U c → lookupBlock before.1 c = some (run c).1
  done : ∀ c, U c → lookupBlock after.1 c = some (renameBlock ctx (run c).1 (run c).2).block
  others : ∀ i block, after.1[i]? = some block → before.1[i]? = some block ∨
    U block.id ∧ i = before.1.findIdx (·.id == block.id)
  exits : ∀ c, U c → ∀ v, after.2.blockExitVersions v c =
    ((renameBlock ctx (run c).1 (run c).2).state.current v).or (before.2.blockExitVersions v c)
  created : ∀ c, U c → (renameBlock ctx (run c).1 (run c).2).state.names <+: after.2.names
  lower : ∀ c, U c → before.2.nextId ≤ (run c).2.nextId
  upper : ∀ c, U c → (renameBlock ctx (run c).1 (run c).2).state.nextId ≤ after.2.nextId
  root : ∀ c, U c → (∀ d, U d → ¬ IDom ctx.cfg.Edge ctx.cfg.entryBlock d c) →
    (run c).2.current = before.2.current
  child : ∀ c d, U c → U d → IDom ctx.cfg.Edge ctx.cfg.entryBlock d c →
    (run c).2.current = (renameBlock ctx (run d).1 (run d).2).state.current
  disjoint : ∀ c d, U c → U d → c ≠ d →
    (renameBlock ctx (run c).1 (run c).2).state.nextId ≤ (run d).2.nextId ∨
      (renameBlock ctx (run d).1 (run d).2).state.nextId ≤ (run c).2.nextId
  cover : ∀ i, before.2.nextId ≤ i → i < after.2.nextId → ∃ c, U c ∧ (run c).2.nextId ≤ i ∧
    i < (renameBlock ctx (run c).1 (run c).2).state.nextId

namespace RenameStep

variable {U U₁ U₂ : Nat → Prop} {σ σ₁ σ₂ : List SsaBlock × RenamingState}
  {run run₁ run₂ : Nat → SsaBlock × RenamingState}

theorem refl (σ : List SsaBlock × RenamingState) (run : Nat → SsaBlock × RenamingState) :
    RenameStep ctx (fun _ => False) σ σ run where
  restored := rfl
  nextId_le := le_rfl
  ids := rfl
  frame _ _ := ⟨rfl, fun _ => rfl⟩
  names := List.prefix_rfl
  namesOk := id
  initial _ := False.elim
  done _ := False.elim
  others _ _ := .inl
  exits _ := False.elim
  created _ := False.elim
  lower _ := False.elim
  upper _ := False.elim
  root _ := False.elim
  child _ _ := False.elim
  disjoint _ _ := False.elim
  cover _ h₁ h₂ := absurd h₁ (not_le.2 h₂)

theorem current_eq (h : RenameStep ctx U σ σ₁ run) : σ₁.2.current = σ.2.current := by
  funext v
  rw [RenamingState.current, RenamingState.current, h.restored]

open Classical in
/-- Two parts one after the other, on blocks that have nothing to do with each other. -/
theorem append (h₁ : RenameStep ctx U₁ σ σ₁ run₁) (h₂ : RenameStep ctx U₂ σ₁ σ₂ run₂)
    (hapart : Apart ctx.cfg U₁ U₂) :
    RenameStep ctx (fun c => U₁ c ∨ U₂ c) σ σ₂ fun c => if U₁ c then run₁ c else run₂ c := by
  have hr₁ : ∀ c, U₁ c → (if U₁ c then run₁ c else run₂ c) = run₁ c := fun c hc => if_pos hc
  have hr₂ : ∀ c, U₂ c → (if U₁ c then run₁ c else run₂ c) = run₂ c := fun c hc =>
    if_neg fun hc' => hapart.disjoint c hc' hc
  have hn₁ : ∀ c, U₂ c → ¬ U₁ c := fun c hc hc' => hapart.disjoint c hc' hc
  refine ⟨h₂.restored.trans h₁.restored, h₁.nextId_le.trans h₂.nextId_le, h₂.ids.trans h₁.ids,
    fun c hc => ?_, h₁.names.trans h₂.names, fun hn => h₂.namesOk (h₁.namesOk hn), ?_, ?_, ?_,
    ?_, ?_, ?_, ?_, ?_, ?_, ?_, fun i hi hi' => ?_⟩
  · rw [not_or] at hc
    exact ⟨((h₂.frame c hc.2).1).trans (h₁.frame c hc.1).1,
      fun v => ((h₂.frame c hc.2).2 v).trans ((h₁.frame c hc.1).2 v)⟩
  · rintro c (hc | hc)
    · rw [hr₁ c hc]; exact h₁.initial c hc
    · rw [hr₂ c hc, ← (h₁.frame c (hn₁ c hc)).1]; exact h₂.initial c hc
  · rintro c (hc | hc)
    · rw [hr₁ c hc, (h₂.frame c (hapart.disjoint c hc)).1]; exact h₁.done c hc
    · rw [hr₂ c hc]; exact h₂.done c hc
  · intro i block hi
    rcases h₂.others i block hi with hi | ⟨hU, hi⟩
    · rcases h₁.others i block hi with hi | ⟨hU, hi⟩
      · exact .inl hi
      · exact .inr ⟨.inl hU, hi⟩
    · exact .inr ⟨.inr hU, hi.trans (findIdx_id_congr h₁.ids _)⟩
  · rintro c (hc | hc) v
    · rw [hr₁ c hc, (h₂.frame c (hapart.disjoint c hc)).2]; exact h₁.exits c hc v
    · rw [hr₂ c hc, ← (h₁.frame c (hn₁ c hc)).2]; exact h₂.exits c hc v
  · rintro c (hc | hc)
    · rw [hr₁ c hc]; exact (h₁.created c hc).trans h₂.names
    · rw [hr₂ c hc]; exact h₂.created c hc
  · rintro c (hc | hc)
    · rw [hr₁ c hc]; exact h₁.lower c hc
    · rw [hr₂ c hc]; exact h₁.nextId_le.trans (h₂.lower c hc)
  · rintro c (hc | hc)
    · rw [hr₁ c hc]; exact (h₁.upper c hc).trans h₂.nextId_le
    · rw [hr₂ c hc]; exact h₂.upper c hc
  · rintro c (hc | hc) hroot
    · rw [hr₁ c hc]; exact h₁.root c hc fun d hd => hroot d (.inl hd)
    · rw [hr₂ c hc, h₂.root c hc fun d hd => hroot d (.inr hd), h₁.current_eq]
  · rintro c d (hc | hc) (hd | hd) hi
    · rw [hr₁ c hc, hr₁ d hd]; exact h₁.child c d hc hd hi
    · exact absurd hc (hapart.right c d hd hi)
    · exact absurd hc (hapart.left c d hd hi)
    · rw [hr₂ c hc, hr₂ d hd]; exact h₂.child c d hc hd hi
  · rintro c d (hc | hc) (hd | hd) hne
    · rw [hr₁ c hc, hr₁ d hd]; exact h₁.disjoint c d hc hd hne
    · rw [hr₁ c hc, hr₂ d hd]; exact .inl ((h₁.upper c hc).trans (h₂.lower d hd))
    · rw [hr₂ c hc, hr₁ d hd]; exact .inr ((h₁.upper d hd).trans (h₂.lower c hc))
    · rw [hr₂ c hc, hr₂ d hd]; exact h₂.disjoint c d hc hd hne
  · rcases lt_or_ge i σ₁.2.nextId with hlt | hge
    · obtain ⟨c, hc, hlo, hhi⟩ := h₁.cover i hi hlt
      exact ⟨c, .inl hc, by rw [hr₁ c hc]; exact ⟨hlo, hhi⟩⟩
    · obtain ⟨c, hc, hlo, hhi⟩ := h₂.cover i hge hi'
      exact ⟨c, .inr hc, by rw [hr₂ c hc]; exact ⟨hlo, hhi⟩⟩

end RenameStep

theorem NamesOk.renameBlock {block : SsaBlock} {s : RenamingState} (h : NamesOk s) :
    NamesOk (renameBlock ctx block s).state := by
  have hspec := renameBlock_spec ctx block s
  obtain ⟨new, hnew, hmap⟩ := hspec.names
  have hids : new.map (·.id) = List.range' s.nextId (namedVars ctx block).length := by
    have := congrArg (List.map Prod.fst) hmap
    rw [List.map_map, List.map_map] at this
    refine this.trans ?_
    rw [List.zipIdx_eq_zip_range']
    exact List.map_snd_zip (by simp)
  have hlen : new.length = (namedVars ctx block).length := by
    have := congrArg List.length hids
    simpa using this
  refine ⟨?_, ?_⟩
  · rw [hnew, List.map_append, h.1, hids, List.length_append, hlen, h.2, Nat.add_comm _ 1,
      List.range'_append_1]
  · rw [hspec.nextId, hnew, List.length_append, hlen, h.2]
    omega

theorem RenameStep.node {U : Nat → Prop} {σ σ₂ : List SsaBlock × RenamingState} {block : SsaBlock}
    {run : Nat → SsaBlock × RenamingState} (hb : lookupBlock σ.1 b = some block)
    (h : RenameStep ctx U (σ.1.set (σ.1.findIdx (·.id == b)) (renameBlock ctx block σ.2).block,
      (renameBlock ctx block σ.2).state) σ₂ run)
    (hU : BelowParent ctx.cfg b U) :
    RenameStep ctx (fun c => c = b ∨ U c) σ
      (σ₂.1, σ₂.2.restoreDepths (renameBlock ctx block σ.2).initialDepths)
      (update run b (block, σ.2)) := by
  have hid : block.id = b := (lookupBlock_id hb).2
  have hspec := renameBlock_spec ctx block σ.2
  have hnew : (renameBlock ctx block σ.2).block.id = b := by rw [hspec.content]; exact hid
  have hle : σ.2.nextId ≤ (renameBlock ctx block σ.2).state.nextId := by
    rw [hspec.nextId]; exact Nat.le_add_right ..
  have hne : ∀ c, U c → c ≠ b := fun c hc he => hU.notMem (he ▸ hc)
  have hrun : ∀ c, U c → update run b (block, σ.2) c = run c := fun c hc =>
    Function.update_of_ne (hne c hc) ..
  have hexits : ∀ c, c ≠ b → ∀ v, (renameBlock ctx block σ.2).state.blockExitVersions v c =
      σ.2.blockExitVersions v c := fun c hc v => by
    rw [hspec.exits, hid, if_neg hc]
  have hset := lookupBlock_set hb hnew
  refine ⟨?_, hle.trans h.nextId_le, h.ids.trans (map_id_set hb hnew), fun c hc => ?_, ?_,
    fun hn => ?_, ?_, ?_, ?_, ?_, ?_, ?_, ?_, ?_, ?_, ?_, fun i hi hi' => ?_⟩
  · funext v
    simp only [RenamingState.restoreDepths]
    rw [h.restored]
    exact hspec.restore v
  · rw [not_or] at hc
    refine ⟨((h.frame c hc.2).1).trans ((hset c).trans (if_neg hc.1)), fun v => ?_⟩
    exact ((h.frame c hc.2).2 v).trans (hexits c hc.1 v)
  · obtain ⟨new, hn, -⟩ := hspec.names
    exact (hn ▸ List.prefix_append _ new).trans h.names
  · exact h.namesOk hn.renameBlock
  · rintro c (rfl | hc)
    · rw [Function.update_self]; exact hb
    · rw [hrun c hc, ← h.initial c hc, hset, if_neg (hne c hc)]
  · rintro c (rfl | hc)
    · rw [Function.update_self, (h.frame c hU.notMem).1, hset, if_pos rfl]
    · rw [hrun c hc]; exact h.done c hc
  · intro i x hi
    rcases h.others i x hi with hi | ⟨hUx, hi⟩
    · by_cases hib : i = σ.1.findIdx (·.id == b)
      · rw [hib, List.getElem?_set_self', getElem?_findIdx_id, hb] at hi
        obtain rfl : (renameBlock ctx block σ.2).block = x := by simpa using hi
        exact .inr ⟨.inl hnew, by rw [hnew]; exact hib⟩
      · rw [List.getElem?_set_ne (Ne.symm hib)] at hi
        exact .inl hi
    · exact .inr ⟨.inr hUx, hi.trans (findIdx_id_congr (map_id_set hb hnew) _)⟩
  · rintro c (rfl | hc) v
    · rw [Function.update_self]
      refine ((h.frame c hU.notMem).2 v).trans ?_
      rw [hspec.exits, hid, if_pos rfl]
    · rw [hrun c hc, ← hexits c (hne c hc)]; exact h.exits c hc v
  · rintro c (rfl | hc)
    · rw [Function.update_self]; exact h.names
    · rw [hrun c hc]; exact h.created c hc
  · rintro c (rfl | hc)
    · rw [Function.update_self]
    · rw [hrun c hc]; exact hle.trans (h.lower c hc)
  · rintro c (rfl | hc)
    · rw [Function.update_self]; exact h.nextId_le
    · rw [hrun c hc]; exact h.upper c hc
  · rintro c (rfl | hc) hroot'
    · rw [Function.update_self]
    · exact absurd (hU.root c hc fun d hd => hroot' d (.inr hd)) (hroot' b (.inl rfl))
  · rintro c d (rfl | hc) (rfl | hd) hi
    · exact absurd rfl hi.1.2
    · exact absurd hi (hU.up d hd)
    · -- the names a child starts with are those its parent leaves
      rw [hrun c hc, Function.update_self]
      refine h.root c hc fun d' hd' hi' => ?_
      exact hU.notMem (hi.unique hi' (hU.reachable c hc) ▸ hd')
    · rw [hrun c hc, hrun d hd]; exact h.child c d hc hd hi
  · rintro c d (rfl | hc) (rfl | hd) hcd
    · exact absurd rfl hcd
    · rw [hrun d hd, Function.update_self]; exact .inl (h.lower d hd)
    · rw [hrun c hc, Function.update_self]; exact .inr (h.lower c hc)
    · rw [hrun c hc, hrun d hd]; exact h.disjoint c d hc hd hcd
  · rcases lt_or_ge i (renameBlock ctx block σ.2).state.nextId with hlt | hge
    · exact ⟨b, .inl rfl, by rw [Function.update_self]; exact ⟨hi, hlt⟩⟩
    · obtain ⟨c, hc, hlo, hhi⟩ := h.cover i hge hi'
      exact ⟨c, .inr hc, by rw [hrun c hc]; exact ⟨hlo, hhi⟩⟩

/-- **The walk from `b`.** -/
theorem rename_spec (h : IsDominatorTree ctx.cfg ctx.domTree) : ∀ fuel b
    (σ : List SsaBlock × RenamingState), ctx.cfg.Reachable b →
    ctx.domTree.nodes.length ≤ h.sdomCount b + fuel → ∃ run,
      RenameStep ctx (Visited ctx.cfg (σ.1.map (·.id)) b) σ
        (renameVariablesRecursive ctx fuel b σ) run := by
  intro fuel
  induction fuel with
  | zero =>
    intro b σ hb hle
    have := h.sdomCount_lt_length hb
    omega
  | succ fuel ih =>
    intro b σ hb hle
    rw [renameVariablesRecursive, getElem?_findIdx_id]
    cases hbl : lookupBlock σ.1 b with
    | none =>
      have hb' : b ∉ σ.1.map (·.id) := by
        rw [← lookupBlock_isSome, hbl]
        simp
      refine ⟨fun _ => (⟨0, none, (0, 0), [], [], [], []⟩, σ.2), ?_⟩
      have hnone : Visited ctx.cfg (σ.1.map (·.id)) b = fun _ => False := by
        funext c
        exact eq_false fun hv => hb' hv.start_mem
      rw [hnone]
      exact .refl σ _
    | some block =>
      have hb' : b ∈ σ.1.map (·.id) := by
        rw [← lookupBlock_isSome, hbl]
        rfl
      have hnew : (renameBlock ctx block σ.2).block.id = b := by
        rw [(renameBlock_spec ctx block σ.2).content]
        exact (lookupBlock_id hbl).2
      obtain ⟨node, hnode⟩ := Option.isSome_iff_exists.1 (h.get?_isSome.2 hb)
      obtain ⟨hmem, hnb⟩ := DominatorTree.mem_of_get? hnode
      have hchildren : ∀ c, c ∈ node.children ↔
          ctx.cfg.Reachable c ∧ IDom ctx.cfg.Edge ctx.cfg.entryBlock b c :=
        hnb ▸ h.children node hmem
      have hids := map_id_set hbl hnew
      obtain ⟨run, hrun⟩ := visited_foldl (σ.1.map (·.id)) (b := b)
        (R := fun U s s' => s.1.map (·.id) = σ.1.map (·.id) → ∃ run, RenameStep ctx U s s' run)
        (f := fun s x => renameVariablesRecursive ctx fuel x s)
        (fun s _ => ⟨fun _ => (⟨0, none, (0, 0), [], [], [], []⟩, s.2), .refl s _⟩)
        (fun h₁ h₂ hapart hs => by
          obtain ⟨run₁, h₁⟩ := h₁ hs
          obtain ⟨run₂, h₂⟩ := h₂ (h₁.ids.trans hs)
          exact ⟨_, h₁.append h₂ hapart⟩)
        (fun x s hx hi hs => hs ▸ ih x s hx (by have := h.sdomCount_lt hx hi.sdom; omega))
        node.children (σ.1.set (σ.1.findIdx (·.id == b)) (renameBlock ctx block σ.2).block,
          (renameBlock ctx block σ.2).state) (h.children_nodup node hmem)
        (fun x hx => (hchildren x).1 hx) hids
      simp only [hchildren] at hrun
      have hstep := hrun.node hbl below_visited
      rw [visited_eq hb'] at hstep
      simp only [hnode, Option.map_some, Option.getD_some]
      exact ⟨_, hstep⟩

end TldrCode.Ssa
