import TldrCode.Ssa.DeadCode
import Mathlib.Order.Bounds.Basic

/-!
# What dead code is

`find_dead_code` of `ssa/analysis.rs` takes names out in rounds, with a bound on the rounds. In a
function that defines each name once it finds the least set of names that only members of the set
use (`findDeadCode_isLeast`), before the rounds run out, and without the definitions of the set
every operand that had a definition still has it. A name that two blocks define releases the
operands of the later one only, which `findDeadCode_not_least` shows to be too few.
-/

namespace TldrCode.Ssa

open Function (update)

/-- An instruction with side effects defines the name. -/
def SsaFunction.HasEffects (ssa : SsaFunction) (n : Nat) : Prop :=
  ∃ block ∈ ssa.blocks, ∃ instr ∈ block.instructions,
    instr.target = some n ∧ hasSideEffects instr.kind

/-- A name without side effects whose users are all in the set is in the set. -/
def SsaFunction.ClosedUnderDead (ssa : SsaFunction) (D : Set Nat) : Prop :=
  ∀ name ∈ ssa.ssaNames, ¬ ssa.HasEffects name.id →
    (∀ use ∈ ssa.uses, use.1 = name.id → ∃ t ∈ D, use.2 = some t) → name.id ∈ D

/-- Every name has one definition at most, and the blocks have ids of their own. -/
structure SsaFunction.SingleDefinitions (ssa : SsaFunction) : Prop where
  ids : (ssa.blocks.map (·.id)).Nodup
  once : ∀ name ∈ ssa.ssaNames, ssa.targets.count name.id ≤ 1

/-- The function without the definitions of some names. -/
def SsaFunction.deleteDefinitions (ssa : SsaFunction) (dead : List Nat) : SsaFunction :=
  { ssa with
    blocks := ssa.blocks.map fun block =>
      { block with
        phiFunctions := block.phiFunctions.filter fun phi => phi.target ∉ dead
        instructions := block.instructions.filter fun instr => ¬ instr.target.any (· ∈ dead) } }

variable {ssa : SsaFunction} {block block' : SsaBlock} {state : DeadCodeState} {n u : Nat}
  {use : Nat × Option Nat} {dead : List Nat}

/-! ## Definitions -/

/-- What a block defines: a name, and the instruction unless it is a phi function. -/
def SsaBlock.definitions (block : SsaBlock) : List (Nat × Option SsaInstruction) :=
  (block.phiFunctions.map fun phi => (phi.target, none)) ++
    block.instructions.filterMap fun instr => instr.target.map fun target => (target, some instr)

/-- The definitions of a function and their blocks. -/
def SsaFunction.definitions (ssa : SsaFunction) : List (SsaBlock × Nat × Option SsaInstruction) :=
  ssa.blocks.flatMap fun block => block.definitions.map fun d => (block, d)

theorem SsaBlock.targets_eq_map (block : SsaBlock) :
    block.targets = block.definitions.map Prod.fst := by
  rw [SsaBlock.targets, SsaBlock.definitions, List.map_append, List.map_map, List.map_filterMap]
  congr 1
  refine List.filterMap_congr fun instr _ => ?_
  cases instr.target with
  | none => rfl
  | some target => rfl

theorem SsaFunction.targets_eq_map (ssa : SsaFunction) :
    ssa.targets = ssa.definitions.map fun d => d.2.1 := by
  rw [SsaFunction.targets, SsaFunction.definitions, List.map_flatMap]
  refine List.flatMap_congr fun block _ => ?_
  rw [block.targets_eq_map, List.map_map]
  rfl

theorem SsaFunction.mem_definitions {d : Nat × Option SsaInstruction} :
    (block, d) ∈ ssa.definitions ↔ block ∈ ssa.blocks ∧ d ∈ block.definitions := by
  simp [SsaFunction.definitions]

theorem SsaBlock.mem_definitions_instr {instr : SsaInstruction} :
    (n, some instr) ∈ block.definitions ↔
      instr ∈ block.instructions ∧ instr.target = some n := by
  simp only [SsaBlock.definitions, List.mem_append, List.mem_map, List.mem_filterMap,
    Option.map_eq_some_iff, Prod.mk.injEq, reduceCtorEq, and_false, exists_false, false_or,
    Option.some_inj]
  constructor
  · rintro ⟨i, hi, t, ht, rfl, rfl⟩
    exact ⟨hi, ht⟩
  · rintro ⟨hi, ht⟩
    exact ⟨instr, hi, n, ht, rfl, rfl⟩

/-- Members of a list at which a function takes a value that it takes once are equal. -/
theorem eq_of_count_map_le_one {α : Type*} {l : List α} {f : α → Nat} {x y : α}
    (h : (l.map f).count n ≤ 1) (hx : x ∈ l) (hy : y ∈ l) (hfx : f x = n) (hfy : f y = n) : x = y := by
  induction l with
  | nil => cases hx
  | cons a l ih =>
    have hpos : ∀ z ∈ l, f z = n → 0 < (l.map f).count n := fun z hz hfz =>
      List.count_pos_iff.2 (List.mem_map.2 ⟨z, hz, hfz⟩)
    rw [List.map_cons, List.count_cons] at h
    cases List.mem_cons.1 hx with
    | inl hxa =>
      cases List.mem_cons.1 hy with
      | inl hya => rw [hxa, hya]
      | inr hy =>
        have := hpos y hy hfy
        rw [← hxa, hfx, beq_self_eq_true, if_pos rfl] at h
        omega
    | inr hx =>
      cases List.mem_cons.1 hy with
      | inl hya =>
        have := hpos x hx hfx
        rw [← hya, hfy, beq_self_eq_true, if_pos rfl] at h
        omega
      | inr hy => exact ih (by omega) hx hy

theorem SsaFunction.definition_unique {d d' : Nat × Option SsaInstruction}
    (h : ssa.targets.count n ≤ 1) (hd : (block, d) ∈ ssa.definitions)
    (hd' : (block', d') ∈ ssa.definitions) (hn : d.1 = n) (hn' : d'.1 = n) :
    block = block' ∧ d = d' := by
  rw [SsaFunction.targets_eq_map] at h
  exact Prod.mk.inj (eq_of_count_map_le_one h hd hd' hn hn')

/-- One instruction in the construction of `def_info`. -/
def noteInstr (b : Nat) (info : Nat → Option (Nat × Option SsaInstruction))
    (instr : SsaInstruction) : Nat → Option (Nat × Option SsaInstruction) :=
  match instr.target with
  | some target => update info target (some (b, some instr))
  | none => info

/-- One phi function in the construction of `def_info`. -/
def notePhi (b : Nat) (info : Nat → Option (Nat × Option SsaInstruction)) (phi : PhiFunction) :
    Nat → Option (Nat × Option SsaInstruction) :=
  update info phi.target (some (b, none))

/-- One block in the construction of `def_info`. -/
def defInfoStep (info : Nat → Option (Nat × Option SsaInstruction)) (block : SsaBlock) :
    Nat → Option (Nat × Option SsaInstruction) :=
  block.phiFunctions.foldl (notePhi block.id) (block.instructions.foldl (noteInstr block.id) info)

theorem defInfo_eq_foldl (ssa : SsaFunction) :
    defInfo ssa = ssa.blocks.foldl defInfoStep fun _ => none := rfl

theorem noteInstr_foldl {b : Nat} (l : List SsaInstruction)
    (info : Nat → Option (Nat × Option SsaInstruction)) :
    (∃ instr ∈ l, instr.target = some n ∧ l.foldl (noteInstr b) info n = some (b, some instr)) ∨
      n ∉ l.filterMap (·.target) ∧ l.foldl (noteInstr b) info n = info n := by
  induction l using List.reverseRecOn with
  | nil => exact .inr ⟨by simp, rfl⟩
  | append_singleton l instr ih =>
    rw [List.foldl_append, List.foldl_cons, List.foldl_nil, noteInstr]
    cases ht : instr.target with
    | none =>
      obtain ⟨i, hi, htarget, heq⟩ | ⟨hnot, heq⟩ := ih
      · exact .inl ⟨i, List.mem_append_left _ hi, htarget, heq⟩
      · exact .inr ⟨by simpa [ht] using hnot, heq⟩
    | some target =>
      dsimp only
      by_cases hn : target = n
      · subst hn
        exact .inl ⟨instr, by simp, ht, Function.update_self ..⟩
      · rw [Function.update_of_ne (Ne.symm hn)]
        obtain ⟨i, hi, htarget, heq⟩ | ⟨hnot, heq⟩ := ih
        · exact .inl ⟨i, List.mem_append_left _ hi, htarget, heq⟩
        · refine .inr ⟨?_, heq⟩
          simpa [ht, Ne.symm hn] using hnot

theorem notePhi_foldl {b : Nat} (l : List PhiFunction)
    (info : Nat → Option (Nat × Option SsaInstruction)) :
    (n ∈ l.map (·.target) ∧ l.foldl (notePhi b) info n = some (b, none)) ∨
      n ∉ l.map (·.target) ∧ l.foldl (notePhi b) info n = info n := by
  induction l using List.reverseRecOn with
  | nil => exact .inr ⟨by simp, rfl⟩
  | append_singleton l phi ih =>
    rw [List.foldl_append, List.foldl_cons, List.foldl_nil, List.map_append, List.mem_append,
      notePhi]
    by_cases hn : phi.target = n
    · exact .inl ⟨.inr (by simp [hn]), by rw [hn, Function.update_self]⟩
    · rw [Function.update_of_ne (Ne.symm hn)]
      obtain ⟨hmem, heq⟩ | ⟨hnot, heq⟩ := ih
      · exact .inl ⟨.inl hmem, heq⟩
      · refine .inr ⟨?_, heq⟩
        simpa [Ne.symm hn] using hnot

theorem defInfoStep_cases (info : Nat → Option (Nat × Option SsaInstruction)) (block : SsaBlock)
    (n : Nat) :
    (∃ i, (n, i) ∈ block.definitions ∧ defInfoStep info block n = some (block.id, i)) ∨
      n ∉ block.targets ∧ defInfoStep info block n = info n := by
  unfold defInfoStep
  obtain ⟨hmem, heq⟩ | ⟨hnot, heq⟩ := notePhi_foldl (n := n) (b := block.id) block.phiFunctions
    (block.instructions.foldl (noteInstr block.id) info)
  · refine .inl ⟨none, ?_, heq⟩
    obtain ⟨phi, hphi, rfl⟩ := List.mem_map.1 hmem
    exact List.mem_append_left _ (List.mem_map.2 ⟨phi, hphi, rfl⟩)
  · rw [heq]
    obtain ⟨instr, hi, ht, heq'⟩ | ⟨hnot', heq'⟩ := noteInstr_foldl (n := n) (b := block.id)
      block.instructions info
    · exact .inl ⟨some instr, SsaBlock.mem_definitions_instr.2 ⟨hi, ht⟩, heq'⟩
    · refine .inr ⟨?_, heq'⟩
      rw [SsaBlock.targets, List.mem_append]
      exact fun h => h.elim hnot hnot'

/-- What `def_info` records is a definition, and a name without an entry has none. -/
theorem defInfo_cases (ssa : SsaFunction) (n : Nat) :
    (∃ block i, (block, n, i) ∈ ssa.definitions ∧ defInfo ssa n = some (block.id, i)) ∨
      n ∉ ssa.targets ∧ defInfo ssa n = none := by
  rw [defInfo_eq_foldl, SsaFunction.targets]
  simp only [SsaFunction.mem_definitions]
  induction ssa.blocks using List.reverseRecOn with
  | nil => exact .inr ⟨by simp, rfl⟩
  | append_singleton l block ih =>
    rw [List.foldl_append, List.foldl_cons, List.foldl_nil]
    obtain ⟨i, hi, heq⟩ | ⟨hnot, heq⟩ := defInfoStep_cases
      (l.foldl defInfoStep fun _ => none) block n
    · exact .inl ⟨block, i, ⟨by simp, hi⟩, heq⟩
    · rw [heq]
      obtain ⟨block', i, ⟨hmem, hi⟩, heq'⟩ | ⟨hnot', heq'⟩ := ih
      · exact .inl ⟨block', i, ⟨List.mem_append_left _ hmem, hi⟩, heq'⟩
      · refine .inr ⟨?_, heq'⟩
        simpa [hnot] using hnot'

/-! ## One name of a round -/

section SingleDefinitions

variable (h : ssa.targets.count n ≤ 1)
include h

theorem hasEffects_iff : hasEffects ssa n ↔ ssa.HasEffects n := by
  have hdef : ∀ {block : SsaBlock} {instr : SsaInstruction}, block ∈ ssa.blocks →
      instr ∈ block.instructions → instr.target = some n →
        (block, n, some instr) ∈ ssa.definitions := fun hblock hinstr ht =>
    SsaFunction.mem_definitions.2 ⟨hblock, SsaBlock.mem_definitions_instr.2 ⟨hinstr, ht⟩⟩
  unfold hasEffects
  obtain ⟨block, i, hmem, heq⟩ | ⟨hnot, heq⟩ := defInfo_cases ssa n
  · rw [heq]
    constructor
    · intro heffects
      cases i with
      | none => cases heffects
      | some instr =>
        obtain ⟨hblock, hd⟩ := SsaFunction.mem_definitions.1 hmem
        obtain ⟨hinstr, ht⟩ := SsaBlock.mem_definitions_instr.1 hd
        exact ⟨block, hblock, instr, hinstr, ht, heffects⟩
    · rintro ⟨block', hblock', instr, hinstr, ht, heffects⟩
      obtain ⟨-, hd⟩ := ssa.definition_unique h hmem (hdef hblock' hinstr ht) rfl rfl
      obtain rfl : i = some instr := (Prod.mk.inj hd).2
      exact heffects
  · rw [heq]
    refine iff_of_false (by simp) ?_
    rintro ⟨block', hblock', instr, hinstr, ht, -⟩
    refine hnot ?_
    rw [ssa.targets_eq_map]
    exact List.mem_map.2 ⟨_, hdef hblock' hinstr ht, rfl⟩

end SingleDefinitions

theorem countP_flatMap_of_unique {α β : Type*} {f : α → List β} {p : β → Bool} {l : List α} {a : α}
    (hl : l.Nodup) (ha : a ∈ l) (hothers : ∀ b ∈ l, b ≠ a → (f b).countP p = 0) :
    (l.flatMap f).countP p = (f a).countP p := by
  obtain ⟨l₁, l₂, rfl⟩ := List.append_of_mem ha
  have hnone : ∀ m : List α, (∀ b ∈ m, (f b).countP p = 0) → (m.flatMap f).countP p = 0 := by
    intro m hm
    simp only [List.countP_eq_zero, List.mem_flatMap] at hm ⊢
    rintro x ⟨b, hb, hx⟩
    exact hm b hb x hx
  obtain ⟨hn₁, hn₂, hdisj⟩ := List.nodup_append.1 hl
  have h₁ : (l₁.flatMap f).countP p = 0 := hnone l₁ fun b hb =>
    hothers b (by simp [hb]) (hdisj b hb a List.mem_cons_self)
  have h₂ : (l₂.flatMap f).countP p = 0 := hnone l₂ fun b hb =>
    hothers b (by simp [hb]) fun he => (List.nodup_cons.1 hn₂).1 (he ▸ hb)
  simp [List.countP_append, h₁, h₂]

theorem SsaBlock.mem_targets_of_use (huse : use ∈ block.uses) (hn : use.2 = some n) :
    n ∈ block.targets := by
  simp only [SsaBlock.uses, List.mem_append, List.mem_flatMap, List.mem_map] at huse
  rw [SsaBlock.targets, List.mem_append]
  rcases huse with ⟨instr, hinstr, u, -, rfl⟩ | ⟨phi, hphi, source, -, rfl⟩
  · exact .inr (List.mem_filterMap.2 ⟨instr, hinstr, hn⟩)
  · exact .inl (List.mem_map.2 ⟨phi, hphi, Option.some_inj.1 hn⟩)

/-- **All operands of a dead definition are released.** -/
theorem releaseName_apply (hids : (ssa.blocks.map (·.id)).Nodup) (h : ssa.targets.count n ≤ 1)
    (useCount : Nat → Nat) (u : Nat) :
    releaseName ssa n useCount u =
      useCount u - ssa.uses.countP fun use => use.1 == u && use.2 == some n := by
  unfold releaseName
  obtain ⟨block, i, hmem, heq⟩ | ⟨hnot, heq⟩ := defInfo_cases ssa n
  · obtain ⟨hblock, hd⟩ := SsaFunction.mem_definitions.1 hmem
    have hfind : ssa.blocks.find? (·.id == block.id) = some block := by
      cases hf : ssa.blocks.find? (·.id == block.id) with
      | none => exact absurd (List.find?_eq_none.1 hf block hblock) (by simp)
      | some block' =>
        have hid : block'.id = block.id := by simpa using List.find?_some hf
        rw [List.inj_on_of_nodup_map hids (List.mem_of_find?_eq_some hf) hblock hid]
    have huses : ssa.uses.countP (fun use => use.1 == u && use.2 == some n) =
        block.uses.countP fun use => use.1 == u && use.2 == some n := by
      refine countP_flatMap_of_unique hids.of_map hblock fun block' hblock' hne => ?_
      rw [List.countP_eq_zero]
      intro use huse hcount
      simp only [Bool.and_eq_true, beq_iff_eq] at hcount
      have htarget := SsaBlock.mem_targets_of_use huse hcount.2
      rw [SsaBlock.targets_eq_map] at htarget
      obtain ⟨d, hd', hdn⟩ := List.mem_map.1 htarget
      exact hne (ssa.definition_unique h (SsaFunction.mem_definitions.2 ⟨hblock', hd'⟩) hmem hdn
        rfl).1
    rw [heq, Option.bind_some, hfind]
    dsimp only
    rw [releaseUses, releaseUses_foldl, List.countP_filter, huses]
  · rw [heq, Option.bind_none]
    have hnone : ssa.uses.countP (fun use => use.1 == u && use.2 == some n) = 0 := by
      rw [List.countP_eq_zero]
      intro use huse hcount
      simp only [Bool.and_eq_true, beq_iff_eq] at hcount
      obtain ⟨block, hblock, huse⟩ := List.mem_flatMap.1 huse
      exact hnot (List.mem_flatMap.2 ⟨block, hblock, SsaBlock.mem_targets_of_use huse hcount.2⟩)
    rw [hnone, Nat.sub_zero]

/-! ## Rounds -/

/-- What a round of `find_dead_code` keeps when no name is defined twice: exactly the uses by names
that are not dead are counted, and only names of the least set are dead. -/
structure DeadCodeState.Exact (ssa : SsaFunction) (state : DeadCodeState) : Prop where
  counted : ∀ u, state.useCount u = liveUses ssa state.dead u
  nodup : state.dead.Nodup
  listed : ∀ n ∈ state.dead, n ∈ ssa.ssaNames.map (·.id)
  least : ∀ D, ssa.ClosedUnderDead D → ∀ n ∈ state.dead, n ∈ D

theorem DeadCodeState.Exact.step (hssa : ssa.SingleDefinitions) {name : SsaName}
    (hname : name ∈ ssa.ssaNames) (h : state.Exact ssa) :
    (deadCodeStep ssa state name).Exact ssa := by
  obtain ⟨heq, -⟩ | ⟨hdead, hzero, heffects, heq⟩ := deadCodeStep_cases ssa state name
  · rw [heq]
    exact h
  · rw [heq]
    constructor
    · intro u
      have hcons : liveUses ssa (name.id :: state.dead) u + ssa.uses.countP (fun use =>
          use.1 == u && use.2 == some name.id) = liveUses ssa state.dead u :=
        liveUses_cons hdead u
      have hcounted := h.counted u
      dsimp only
      rw [releaseName_apply hssa.ids (hssa.once name hname)]
      omega
    · exact List.nodup_cons.2 ⟨hdead, h.nodup⟩
    · intro n hn
      cases List.mem_cons.1 hn with
      | inl heq => exact heq ▸ List.mem_map_of_mem hname
      | inr hn => exact h.listed n hn
    · intro D hD n hn
      cases List.mem_cons.1 hn with
      | inl heq =>
        rw [heq]
        refine hD name hname ?_ fun use huse hu => ?_
        · rw [← hasEffects_iff (hssa.once name hname), heffects]
          exact Bool.false_ne_true
        · have hlive : liveUses ssa state.dead name.id = 0 := (h.counted _).symm.trans hzero
          obtain ⟨t, ht, heq⟩ := user_dead_of_liveUses hlive huse hu
          exact ⟨t, h.least D hD t ht, heq⟩
      | inr hn => exact h.least D hD n hn

theorem deadCodeRound_cases (ssa : SsaFunction) (names : List SsaName) (state : DeadCodeState) :
    (names.foldl (deadCodeStep ssa) state = state ∧
      ∀ name ∈ names, deadCodeStep ssa state name = state) ∨
    ((names.foldl (deadCodeStep ssa) state).changed = true ∧
      state.dead.length < (names.foldl (deadCodeStep ssa) state).dead.length) := by
  induction names generalizing state with
  | nil => exact .inl ⟨rfl, fun _ h => by cases h⟩
  | cons name names ih =>
    rw [List.foldl_cons]
    obtain ⟨heq, -⟩ | ⟨-, -, -, heq⟩ := deadCodeStep_cases ssa state name
    · rw [heq]
      obtain ⟨hsame, hall⟩ | hmore := ih state
      · refine .inl ⟨hsame, fun name' hname' => ?_⟩
        cases List.mem_cons.1 hname' with
        | inl he => exact he ▸ heq
        | inr hname' => exact hall name' hname'
      · exact .inr hmore
    · rw [heq]
      refine .inr ?_
      obtain ⟨hsame, -⟩ | ⟨hchanged, hlt⟩ := ih
        ⟨releaseName ssa name.id state.useCount, name.id :: state.dead, true⟩
      · rw [hsame]
        exact ⟨rfl, Nat.lt_succ_self _⟩
      · exact ⟨hchanged, Nat.lt_of_succ_lt hlt⟩

/-- The rounds end at a state that no name changes, or each has taken out a name. -/
theorem DeadCodeState.Exact.loop (hssa : ssa.SingleDefinitions) (rounds : Nat)
    {state : DeadCodeState} (h : state.Exact ssa) :
    (deadCodeLoop ssa rounds state).Exact ssa ∧
      ((deadCodeLoop ssa rounds state).changed = false ∧ (∀ name ∈ ssa.ssaNames,
        deadCodeStep ssa (deadCodeLoop ssa rounds state) name = deadCodeLoop ssa rounds state) ∨
      state.dead.length + rounds ≤ (deadCodeLoop ssa rounds state).dead.length) := by
  induction rounds generalizing state with
  | zero => exact ⟨h, .inr le_rfl⟩
  | succ rounds ih =>
    have hcleared : DeadCodeState.Exact ssa { state with changed := false } :=
      ⟨h.counted, h.nodup, h.listed, h.least⟩
    have hexact : DeadCodeState.Exact ssa
        (ssa.ssaNames.foldl (deadCodeStep ssa) { state with changed := false }) :=
      List.foldlRecOn ssa.ssaNames _ hcleared fun _ h _ hname => h.step hssa hname
    unfold deadCodeLoop
    dsimp only
    obtain ⟨hsame, hall⟩ | ⟨hchanged, hlt⟩ :=
      deadCodeRound_cases ssa ssa.ssaNames { state with changed := false }
    · rw [hsame]
      simp only [Bool.false_eq_true, if_false]
      exact ⟨hcleared, .inl ⟨trivial, hall⟩⟩
    · rw [if_pos hchanged]
      obtain ⟨hfinal, hend⟩ := ih hexact
      refine ⟨hfinal, hend.imp id fun hle => ?_⟩
      dsimp only at hlt
      omega

/-- The state `find_dead_code` ends with. -/
def deadCodeEnd (ssa : SsaFunction) : DeadCodeState :=
  deadCodeLoop ssa (ssa.ssaNames.length + 10) ⟨useCounts ssa, [], true⟩

theorem mem_findDeadCode : n ∈ findDeadCode ssa ↔ n ∈ (deadCodeEnd ssa).dead := by
  rw [findDeadCode, List.mem_insertionSort]
  rfl

theorem deadCodeEnd_exact (hssa : ssa.SingleDefinitions) :
    (deadCodeEnd ssa).Exact ssa ∧ (deadCodeEnd ssa).changed = false ∧
      ∀ name ∈ ssa.ssaNames, deadCodeStep ssa (deadCodeEnd ssa) name = deadCodeEnd ssa := by
  have hstart : DeadCodeState.Exact ssa ⟨useCounts ssa, [], true⟩ := by
    refine ⟨fun u => ?_, List.nodup_nil, fun _ h => absurd h List.not_mem_nil,
      fun _ _ _ h => absurd h List.not_mem_nil⟩
    change useCounts ssa u = liveUses ssa [] u
    rw [useCounts, countUses_foldl, Nat.zero_add]
    refine List.countP_congr fun use _ => ?_
    cases use.2 with
    | none => simp
    | some t => simp
  obtain ⟨hexact, hend⟩ := hstart.loop hssa (ssa.ssaNames.length + 10)
  refine ⟨hexact, hend.resolve_right fun hle => ?_⟩
  have hlen := (hexact.nodup.subperm hexact.listed).length_le
  rw [List.length_map] at hlen
  dsimp only [List.length_nil] at hle
  omega

/-! ## The result -/

theorem closedUnderDead_end (hssa : ssa.SingleDefinitions) :
    ssa.ClosedUnderDead {n | n ∈ (deadCodeEnd ssa).dead} := by
  obtain ⟨hexact, -, hstable⟩ := deadCodeEnd_exact hssa
  intro name hname heffects huses
  obtain ⟨-, hdead | hcount | heff⟩ | ⟨hdead, -, -, heq⟩ :=
    deadCodeStep_cases ssa (deadCodeEnd ssa) name
  · exact hdead
  · refine absurd ?_ hcount
    rw [hexact.counted, liveUses, List.countP_eq_zero]
    intro use huse hlive
    simp only [Bool.and_eq_true, beq_iff_eq, Bool.not_eq_true'] at hlive
    obtain ⟨t, ht, heq⟩ := huses use huse hlive.1
    have hmem : t ∈ (deadCodeEnd ssa).dead := ht
    simp [heq, hmem] at hlive
  · exact absurd ((hasEffects_iff (hssa.once name hname)).1 heff) heffects
  · have hsame := heq.symm.trans (hstable name hname)
    have hcons := congrArg DeadCodeState.dead hsame
    exact absurd (congrArg List.length hcons) (by simp)

theorem mem_targets_deleteDefinitions (hn : n ∈ ssa.targets) (hdead : n ∉ dead) :
    n ∈ (ssa.deleteDefinitions dead).targets := by
  obtain ⟨block, hblock, hn⟩ := List.mem_flatMap.1 hn
  refine List.mem_flatMap.2 ⟨_, List.mem_map_of_mem hblock, ?_⟩
  rw [SsaBlock.targets, List.mem_append] at hn ⊢
  refine hn.imp (fun h => ?_) fun h => ?_
  · obtain ⟨phi, hphi, rfl⟩ := List.mem_map.1 h
    exact List.mem_map.2 ⟨phi, List.mem_filter.2 ⟨hphi, by simpa using hdead⟩, rfl⟩
  · obtain ⟨instr, hinstr, ht⟩ := List.mem_filterMap.1 h
    refine List.mem_filterMap.2 ⟨instr, List.mem_filter.2 ⟨hinstr, ?_⟩, ht⟩
    simpa [ht] using hdead

theorem mem_uses_deleteDefinitions (h : use ∈ (ssa.deleteDefinitions dead).uses) :
    use ∈ ssa.uses ∧ ∀ t ∈ dead, use.2 ≠ some t := by
  obtain ⟨block', hblock', huse⟩ := List.mem_flatMap.1 h
  obtain ⟨block, hblock, rfl⟩ := List.mem_map.1 hblock'
  simp only [SsaBlock.uses, List.mem_append, List.mem_flatMap, List.mem_map,
    List.mem_filter] at huse
  rcases huse with ⟨instr, ⟨hinstr, hkeep⟩, u, hu, rfl⟩ | ⟨phi, ⟨hphi, hkeep⟩, source, hs, rfl⟩
  · refine ⟨List.mem_flatMap.2 ⟨block, hblock, ?_⟩, fun t ht heq => ?_⟩
    · exact List.mem_append_left _ (List.mem_flatMap.2 ⟨instr, hinstr, List.mem_map_of_mem hu⟩)
    · dsimp only at heq
      simp [heq, ht] at hkeep
  · refine ⟨List.mem_flatMap.2 ⟨block, hblock, ?_⟩, fun t ht heq => ?_⟩
    · refine List.mem_append_right _ (List.mem_flatMap.2 ⟨phi, hphi, ?_⟩)
      exact List.mem_map.2 ⟨source, hs, rfl⟩
    · obtain rfl := Option.some_inj.1 heq
      simp [ht] at hkeep

/-- **Dead code is the least set of names that only its members use**, the rounds find all of it,
and deleting it takes no definition away from an operand that stays. -/
theorem findDeadCode_isLeast (hssa : ssa.SingleDefinitions) :
    IsLeast {D | ssa.ClosedUnderDead D} {n | n ∈ findDeadCode ssa} ∧
      (deadCodeEnd ssa).changed = false ∧
      ∀ use ∈ (ssa.deleteDefinitions (findDeadCode ssa)).uses, use.1 ∈ ssa.targets →
        use.1 ∈ (ssa.deleteDefinitions (findDeadCode ssa)).targets := by
  obtain ⟨hexact, hchanged, -⟩ := deadCodeEnd_exact hssa
  have hset : {n | n ∈ findDeadCode ssa} = {n | n ∈ (deadCodeEnd ssa).dead} :=
    Set.ext fun _ => mem_findDeadCode
  refine ⟨⟨?_, fun D hD n hn => ?_⟩, hchanged, fun use huse htarget => ?_⟩
  · rw [hset]
    exact closedUnderDead_end hssa
  · exact hexact.least D hD n (mem_findDeadCode.1 hn)
  · obtain ⟨hold, huser⟩ := mem_uses_deleteDefinitions huse
    refine mem_targets_deleteDefinitions htarget fun hdead => ?_
    obtain ⟨t, ht, heq⟩ := findDeadCode_closed hold hdead
    exact huser t ht heq

/-- `a = f(); b = a; c = b; return a`: nothing needs `b` and `c`. -/
def copiesOfResult : SsaFunction where
  function := "copies"
  ssaType := .minimal
  blocks := [⟨0, none, (1, 4), [],
    [⟨.call, some 1, [], 1, none⟩, ⟨.assign, some 2, [1], 2, none⟩, ⟨.assign, some 3, [2], 3, none⟩,
      ⟨.return, none, [1], 4, none⟩], [], []⟩]
  ssaNames := [⟨1, "a", 1, some 0, 1⟩, ⟨2, "b", 1, some 0, 2⟩, ⟨3, "c", 1, some 0, 3⟩]
  defUse := fun _ => none
  stats := ⟨0, 3, 1, 4, 0⟩

theorem findDeadCode_isLeast_copies :
    (findDeadCode copiesOfResult = [2, 3] ∧ copiesOfResult.SingleDefinitions) ∧
      IsLeast {D | copiesOfResult.ClosedUnderDead D} {n | n ∈ findDeadCode copiesOfResult} ∧
      (deadCodeEnd copiesOfResult).changed = false ∧
      ∀ use ∈ (copiesOfResult.deleteDefinitions (findDeadCode copiesOfResult)).uses,
        use.1 ∈ copiesOfResult.targets →
          use.1 ∈ (copiesOfResult.deleteDefinitions (findDeadCode copiesOfResult)).targets := by
  have hssa : copiesOfResult.SingleDefinitions := ⟨by decide, by decide⟩
  exact ⟨⟨by decide +kernel, hssa⟩, findDeadCode_isLeast hssa⟩

/-- `y = x` in two blocks under one name, and nothing needs it. -/
def definedTwice : SsaFunction where
  function := "twice"
  ssaType := .minimal
  blocks := [⟨0, none, (1, 2), [], [⟨.assign, some 1, [], 1, none⟩,
    ⟨.assign, some 2, [1], 2, none⟩],
      [1], []⟩,
    ⟨1, none, (3, 3), [], [⟨.assign, some 2, [1], 3, none⟩], [], [0]⟩]
  ssaNames := [⟨1, "x", 1, some 0, 1⟩, ⟨2, "y", 1, some 0, 2⟩]
  defUse := fun _ => none
  stats := ⟨0, 2, 2, 3, 0⟩

/-- Of a name with two definitions only one releases its operand. -/
theorem findDeadCode_not_least :
    findDeadCode definedTwice = [2] ∧
      ¬ IsLeast {D | definedTwice.ClosedUnderDead D} {n | n ∈ findDeadCode definedTwice} := by
  have hdead : findDeadCode definedTwice = [2] := by decide +kernel
  refine ⟨hdead, fun h => ?_⟩
  have hmem : 1 ∈ {n | n ∈ findDeadCode definedTwice} := by
    refine h.1 ⟨1, "x", 1, some 0, 1⟩ (by decide) ?_ ?_
    · rintro ⟨block, hblock, instr, hinstr, -, heffects⟩
      have hnone : ∀ block ∈ definedTwice.blocks, ∀ instr ∈ block.instructions,
          hasSideEffects instr.kind = false := by decide
      rw [hnone block hblock instr hinstr] at heffects
      cases heffects
    · intro use huse hu
      refine ⟨2, ?_, ?_⟩
      · change 2 ∈ findDeadCode definedTwice
        rw [hdead]
        exact List.mem_singleton.2 rfl
      · have husers : ∀ use ∈ definedTwice.uses, use.2 = some 2 := by decide
        exact husers use huse
  change 1 ∈ findDeadCode definedTwice at hmem
  rw [hdead] at hmem
  cases hmem with
  | tail _ h => cases h

end TldrCode.Ssa
