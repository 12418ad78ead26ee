import Mathlib.Data.List.Rotate
import TldrCode.Dfg.Reaching

/-!
# Def-use and use-def chains

`build_def_use_chains` and `build_use_def_chains` go through the uses one by one. A use sees the
last definition of its variable on the earlier lines of its block, or, where there is none, what
reaches the block. Of several last definitions on one line the one function takes the last in the
order of the references, the other the last in the order of a hash set: `chains_inverse_iff` says
when the chains are inverse for every such order.
-/

namespace TldrCode.Dfg

/-! ## The last maximum -/

/-- `max_by_key`: of several maxima the last one. -/
def maxByKey {α : Type} (key : α → Nat) (l : List α) : Option α :=
  l.foldl (fun best a =>
    match best with
    | none => some a
    | some b => if key b ≤ key a then some a else some b) none

section MaxByKey

variable {α : Type} {key : α → Nat} {l : List α} {a b : α}

theorem maxByKey_append_singleton (key : α → Nat) (l : List α) (a : α) :
    maxByKey key (l ++ [a]) =
      match maxByKey key l with
      | none => some a
      | some b => if key b ≤ key a then some a else some b := by
  simp [maxByKey]

theorem maxByKey_eq_some (h : maxByKey key l = some a) : a ∈ l ∧ ∀ b ∈ l, key b ≤ key a := by
  induction l using List.reverseRecOn generalizing a with
  | nil => cases h
  | append_singleton l x ih =>
    rw [maxByKey_append_singleton] at h
    cases hl : maxByKey key l with
    | none =>
      rw [hl] at h
      cases h
      have hnil : l = [] := by
        cases l using List.reverseRecOn with
        | nil => rfl
        | append_singleton l y =>
          rw [maxByKey_append_singleton] at hl
          split at hl
          · cases hl
          · split at hl <;> cases hl
      subst hnil
      simp
    | some y =>
      rw [hl] at h
      obtain ⟨hy, hmax⟩ := ih hl
      dsimp only at h
      split at h
      · next hle =>
        cases h
        refine ⟨by simp, fun b hb => ?_⟩
        rw [List.mem_append, List.mem_singleton] at hb
        cases hb with
        | inl hb => exact Nat.le_trans (hmax b hb) hle
        | inr hb => exact hb ▸ Nat.le_refl _
      · next hlt =>
        cases h
        refine ⟨List.mem_append_left _ hy, fun b hb => ?_⟩
        rw [List.mem_append, List.mem_singleton] at hb
        cases hb with
        | inl hb => exact hmax b hb
        | inr hb => exact hb ▸ Nat.le_of_lt (Nat.lt_of_not_le hlt)

theorem maxByKey_eq_none : maxByKey key l = none ↔ l = [] := by
  cases l using List.reverseRecOn with
  | nil => exact iff_of_true rfl rfl
  | append_singleton l a =>
    rw [maxByKey_append_singleton]
    refine iff_of_false ?_ (by simp)
    split
    · exact nofun
    · split <;> exact nofun

theorem maxByKey_append_of_le (h : ∀ b ∈ l, key b ≤ key a) :
    maxByKey key (l ++ [a]) = some a := by
  rw [maxByKey_append_singleton]
  split
  · rfl
  · next b hb => rw [if_pos (h b (maxByKey_eq_some hb).1)]

end MaxByKey

/-! ## The chains -/

/-- `Use`; its context is not read. -/
structure Use where
  line : Nat
  column : Nat
  block : Nat
  deriving DecidableEq, Repr

/-- `Definition`; its source text is never there. -/
structure Definition where
  var : String
  line : Nat
  column : Nat
  block : Nat
  deriving DecidableEq, Repr

structure DefUseChain where
  definition : Definition
  uses : List Use
  deriving DecidableEq, Repr

structure UseDefChain where
  useSite : Use
  var : String
  reachingDefs : List Definition
  deriving DecidableEq, Repr

def blockAt (cfg : CfgInfo) (line : Nat) : Option Nat :=
  (cfg.blocks.find? fun b => b.lines.1 ≤ line ∧ line ≤ b.lines.2).map (·.id)

def definitionOf (cfg : CfgInfo) (r : VarRef) : Definition :=
  ⟨r.name, r.line, r.column, (blockAt cfg r.line).getD 0⟩

def useOf (r : VarRef) (block : Nat) : Use := ⟨r.line, r.column, block⟩

/-- `block_defs_before_use`: the definitions of the variable on the earlier lines of the block. -/
def localDefs (cfg : CfgInfo) (refs : List VarRef) (u : VarRef) (block : Nat) :
    List (DefId × VarRef) :=
  (defsOf refs).filter fun d =>
    d.2.name = u.name ∧ d.2.line < u.line ∧ blockAt cfg d.2.line = some block

/-- `reaches`: the last local definition is the only one that does. -/
def sees (lastLocalDef : Option DefId) (reachingIn : Finset DefId) (id : DefId) : Bool :=
  match lastLocalDef with
  | some lastLocal => id = lastLocal
  | none => id ∈ reachingIn

section DefUse

variable (ord : HashOrder) (setOrd : Nat → HashOrder) (reaching : ReachingDefinitions)
  (cfg : CfgInfo) (refs : List VarRef)

/-- `def_chains` before the uses are entered. -/
def defChains : List (DefId × DefUseChain) :=
  (defsOf refs).map fun d => (d.1, ⟨definitionOf cfg d.2, []⟩)

/-- What the reference number `j` enters in the chains: the definitions it sees, if it is a use in a
block, and its record. -/
def entered (j : Nat) (u : VarRef) : Option (List DefId × Use) :=
  if u.refType = .use then
    (blockAt cfg u.line).map fun block =>
      let varDefs := ((ord.order (defChains cfg refs)).filter
        (·.2.definition.var = u.name)).map (·.1)
      let blockDefsBeforeUse := (setOrd j).order ((localDefs cfg refs u block).map (·.1))
      let lastLocalDef := maxByKey (·.line) blockDefsBeforeUse
      (varDefs.filter (sees lastLocalDef (reaching.reachingIn block)), useOf u block)
  else none

/-- The use is entered in the chains of the definitions. -/
def pushUse (chains : List (DefId × DefUseChain)) (ids : List DefId) (u : Use) :
    List (DefId × DefUseChain) :=
  chains.map fun (id, chain) =>
    (id, if id ∈ ids then { chain with uses := chain.uses ++ [u] } else chain)

/-- `build_def_use_chains`. The hash set of the reference number `j` has the order `setOrd j`. -/
def buildDefUseChains : List DefUseChain :=
  let chains := refs.zipIdx.foldl (fun chains (u, j) =>
    match entered ord setOrd reaching cfg refs j u with
    | none => chains
    | some (ids, use) => pushUse chains ids use) (defChains cfg refs)
  (ord.order chains).map (·.2)

end DefUse

def buildUseDefChains (reaching : ReachingDefinitions) (cfg : CfgInfo) (refs : List VarRef) :
    List UseDefChain :=
  refs.filterMap fun u =>
    if u.refType = .use then
      (blockAt cfg u.line).map fun block =>
        let varDefs := (defsOf refs).filter (·.2.name = u.name)
        if varDefs.isEmpty then ⟨useOf u block, u.name, []⟩
        else
          let lastLocalDef := (maxByKey (·.1.line) (localDefs cfg refs u block)).map (·.1)
          let reachingDefs := varDefs.filter fun d =>
            sees lastLocalDef (reaching.reachingIn block) d.1
          ⟨useOf u block, u.name, reachingDefs.map fun d => definitionOf cfg d.2⟩
    else none

/-! ## What is in the chains -/

variable {ord : HashOrder} {setOrd : Nat → HashOrder} {reaching : ReachingDefinitions}
  {cfg : CfgInfo} {refs : List VarRef} {u : VarRef} {d d' : DefId × VarRef} {block j : Nat}
  {use : Use} {D : Definition}

theorem mem_localDefs : d ∈ localDefs cfg refs u block ↔ d ∈ defsOf refs ∧ d.2.name = u.name ∧
    d.2.line < u.line ∧ blockAt cfg d.2.line = some block := by
  simp [localDefs]

theorem foldl_pushUse (enter : VarRef × Nat → Option (List DefId × Use)) :
    ∀ (steps : List (VarRef × Nat)) (chains : List (DefId × DefUseChain)),
      steps.foldl (fun chains step =>
        match enter step with
        | none => chains
        | some (ids, use) => pushUse chains ids use) chains =
      chains.map fun (id, chain) => (id, ⟨chain.definition, chain.uses ++
        steps.filterMap fun step => (enter step).bind fun (ids, use) =>
          if id ∈ ids then some use else none⟩) := by
  intro steps
  induction steps with
  | nil =>
    intro chains
    simp
  | cons step steps ih =>
    intro chains
    rw [List.foldl_cons, ih]
    cases he : enter step with
    | none => simp [he]
    | some p =>
      obtain ⟨ids, use⟩ := p
      simp only [pushUse, List.map_map, Function.comp_def, he, List.filterMap_cons,
        Option.bind_some]
      refine List.map_congr_left fun e _ => ?_
      by_cases hid : e.1 ∈ ids
      · simp [hid]
      · simp [hid]

/-- The definition of a use's variable that the order of a hash set makes the last local one. -/
def hashLast (setOrd : Nat → HashOrder) (cfg : CfgInfo) (refs : List VarRef) (j : Nat)
    (u : VarRef) (block : Nat) : Option DefId :=
  maxByKey (·.line) ((setOrd j).order ((localDefs cfg refs u block).map (·.1)))

/-- The last local definition in the order of the references. -/
def listLast (cfg : CfgInfo) (refs : List VarRef) (u : VarRef) (block : Nat) : Option DefId :=
  (maxByKey (·.1.line) (localDefs cfg refs u block)).map (·.1)

/-- `use` is a use in the chain of the definition `D`. -/
def InDefUse (chains : List DefUseChain) (D : Definition) (use : Use) : Prop :=
  ∃ chain ∈ chains, chain.definition = D ∧ use ∈ chain.uses

/-- `D` is a definition in the chain of the use. -/
def InUseDef (chains : List UseDefChain) (D : Definition) (use : Use) : Prop :=
  ∃ chain ∈ chains, chain.useSite = use ∧ D ∈ chain.reachingDefs

theorem mem_varDefs (hd : d ∈ defsOf refs) {name : String} :
    d.1 ∈ ((ord.order (defChains cfg refs)).filter (·.2.definition.var = name)).map (·.1) ↔
      d.2.name = name := by
  simp only [List.mem_map, List.mem_filter, HashOrder.mem_order, defChains, decide_eq_true_eq]
  constructor
  · rintro ⟨-, ⟨⟨e, he, rfl⟩, hname⟩, hid⟩
    rw [← defsOf_inj he hd hid]
    exact hname
  · intro hname
    exact ⟨_, ⟨⟨d, hd, rfl⟩, hname⟩, rfl⟩

theorem entered_bind_iff (hd : d ∈ defsOf refs) :
    ((entered ord setOrd reaching cfg refs j u).bind fun (ids, use) =>
      if d.1 ∈ ids then some use else none) = some use ↔
      u.refType = .use ∧ ∃ block, blockAt cfg u.line = some block ∧ d.2.name = u.name ∧
        sees (hashLast setOrd cfg refs j u block) (reaching.reachingIn block) d.1 ∧
        use = useOf u block := by
  unfold entered
  by_cases hu : u.refType = .use
  · cases hb : blockAt cfg u.line with
    | none => simp [hu]
    | some block =>
      simp only [hu, if_true, Option.map_some, Option.bind_some, List.mem_filter, mem_varDefs hd,
        true_and, Option.some.injEq, Option.ite_none_right_eq_some, exists_eq_left']
      rw [and_assoc, eq_comm (a := useOf u block)]
      rfl
  · simp [hu]

theorem inDefUse_iff :
    InDefUse (buildDefUseChains ord setOrd reaching cfg refs) D use ↔
      ∃ d ∈ defsOf refs, ∃ u j, refs[j]? = some u ∧ u.refType = .use ∧ ∃ block,
        blockAt cfg u.line = some block ∧ d.2.name = u.name ∧
        sees (hashLast setOrd cfg refs j u block) (reaching.reachingIn block) d.1 ∧
        use = useOf u block ∧ D = definitionOf cfg d.2 := by
  unfold InDefUse buildDefUseChains
  have hfold := foldl_pushUse (fun (u, j) => entered ord setOrd reaching cfg refs j u)
    refs.zipIdx (defChains cfg refs)
  dsimp only at hfold ⊢
  rw [hfold]
  simp only [List.mem_map, HashOrder.mem_order]
  constructor
  · rintro ⟨_, ⟨_, ⟨e, he, rfl⟩, rfl⟩, rfl, huse⟩
    obtain ⟨d, hd, rfl⟩ := List.mem_map.1 he
    rw [List.nil_append, List.mem_filterMap] at huse
    obtain ⟨⟨u, j⟩, hu, hentered⟩ := huse
    obtain ⟨huse, block, hb, hname, hsees, rfl⟩ := (entered_bind_iff hd).1 hentered
    exact ⟨d, hd, u, j, List.mem_zipIdx_iff_getElem?.1 hu, huse, block, hb, hname, hsees, rfl, rfl⟩
  · rintro ⟨d, hd, u, j, hu, huse, block, hb, hname, hsees, rfl, rfl⟩
    refine ⟨_, ⟨_, ⟨_, List.mem_map_of_mem hd, rfl⟩, rfl⟩, rfl, ?_⟩
    rw [List.nil_append, List.mem_filterMap]
    exact ⟨(u, j), List.mem_zipIdx_iff_getElem?.2 hu,
      (entered_bind_iff hd).2 ⟨huse, block, hb, hname, hsees, rfl⟩⟩

theorem mem_buildUseDefChains {chain : UseDefChain} :
    chain ∈ buildUseDefChains reaching cfg refs ↔ ∃ u ∈ refs, u.refType = .use ∧ ∃ block,
      blockAt cfg u.line = some block ∧ chain = ⟨useOf u block, u.name,
        (((defsOf refs).filter (·.2.name = u.name)).filter fun d =>
          sees (listLast cfg refs u block) (reaching.reachingIn block) d.1).map
            fun d => definitionOf cfg d.2⟩ := by
  simp only [buildUseDefChains, List.mem_filterMap, Option.ite_none_right_eq_some,
    Option.map_eq_some_iff]
  constructor
  · rintro ⟨u, hu, huse, block, hb, rfl⟩
    refine ⟨u, hu, huse, block, hb, ?_⟩
    split
    · next hempty => rw [List.isEmpty_iff.1 hempty]; rfl
    · rfl
  · rintro ⟨u, hu, huse, block, hb, rfl⟩
    refine ⟨u, hu, huse, block, hb, ?_⟩
    split
    · next hempty => rw [List.isEmpty_iff.1 hempty]; rfl
    · rfl

theorem inUseDef_iff :
    InUseDef (buildUseDefChains reaching cfg refs) D use ↔
      ∃ d ∈ defsOf refs, ∃ u ∈ refs, u.refType = .use ∧ ∃ block,
        blockAt cfg u.line = some block ∧ d.2.name = u.name ∧
        sees (listLast cfg refs u block) (reaching.reachingIn block) d.1 ∧
        use = useOf u block ∧ D = definitionOf cfg d.2 := by
  unfold InUseDef
  constructor
  · rintro ⟨chain, hchain, rfl, hD⟩
    obtain ⟨u, hu, huse, block, hb, rfl⟩ := mem_buildUseDefChains.1 hchain
    obtain ⟨d, hd, rfl⟩ := List.mem_map.1 hD
    simp only [List.mem_filter, decide_eq_true_eq] at hd
    exact ⟨d, hd.1.1, u, hu, huse, block, hb, hd.1.2, hd.2, rfl, rfl⟩
  · rintro ⟨d, hd, u, hu, huse, block, hb, hname, hsees, rfl, rfl⟩
    refine ⟨_, mem_buildUseDefChains.2 ⟨u, hu, huse, block, hb, rfl⟩, rfl, ?_⟩
    refine List.mem_map_of_mem (List.mem_filter.2 ⟨List.mem_filter.2 ⟨hd, ?_⟩, hsees⟩)
    simpa using hname

/-! ## When the chains are inverse -/

/-- The definition is on the last line of the block, before the use, that defines its variable. -/
def LastLocal (cfg : CfgInfo) (refs : List VarRef) (u : VarRef) (block : Nat)
    (d : DefId × VarRef) : Prop :=
  d ∈ localDefs cfg refs u block ∧ ∀ d' ∈ localDefs cfg refs u block, d'.2.line ≤ d.2.line

theorem line_eq (hd : d ∈ defsOf refs) : d.1.line = d.2.line := by
  obtain ⟨i, r, -, -, rfl⟩ := mem_defsOf.1 hd
  rfl

theorem lastLocal_of_hashLast {id : DefId} (h : hashLast setOrd cfg refs j u block = some id) :
    ∃ d, d.1 = id ∧ LastLocal cfg refs u block d := by
  obtain ⟨hid, hmax⟩ := maxByKey_eq_some h
  simp only [HashOrder.mem_order, List.mem_map] at hid hmax
  obtain ⟨d, hd, rfl⟩ := hid
  refine ⟨d, rfl, hd, fun d' hd' => ?_⟩
  have hle := hmax d'.1 ⟨d', hd', rfl⟩
  rwa [line_eq (mem_localDefs.1 hd).1, line_eq (mem_localDefs.1 hd').1] at hle

theorem lastLocal_of_listLast {id : DefId} (h : listLast cfg refs u block = some id) :
    ∃ d, d.1 = id ∧ LastLocal cfg refs u block d := by
  obtain ⟨d, hmax, rfl⟩ := Option.map_eq_some_iff.1 h
  obtain ⟨hd, hmax⟩ := maxByKey_eq_some hmax
  refine ⟨d, rfl, hd, fun d' hd' => ?_⟩
  have hle := hmax d' hd'
  rwa [line_eq (mem_localDefs.1 hd).1, line_eq (mem_localDefs.1 hd').1] at hle

theorem hashLast_eq_none :
    hashLast setOrd cfg refs j u block = none ↔ localDefs cfg refs u block = [] := by
  unfold hashLast
  rw [maxByKey_eq_none, ← List.length_eq_zero_iff, ((setOrd j).perm _).length_eq,
    List.length_eq_zero_iff, List.map_eq_nil_iff]

theorem listLast_eq_none : listLast cfg refs u block = none ↔ localDefs cfg refs u block = [] := by
  unfold listLast
  rw [Option.map_eq_none_iff, maxByKey_eq_none]

theorem definitionOf_eq (hd : LastLocal cfg refs u block d) (hd' : LastLocal cfg refs u block d')
    (hcol : d.2.column = d'.2.column) : definitionOf cfg d.2 = definitionOf cfg d'.2 := by
  have hline : d.2.line = d'.2.line := Nat.le_antisymm (hd'.2 d hd.1) (hd.2 d' hd'.1)
  have hname : d.2.name = d'.2.name :=
    (mem_localDefs.1 hd.1).2.1.trans (mem_localDefs.1 hd'.1).2.1.symm
  simp only [definitionOf, hline, hname, hcol]

/-- The last local definitions before each use in a block are in one column. -/
def OneColumn (cfg : CfgInfo) (refs : List VarRef) : Prop :=
  ∀ u ∈ refs, u.refType = .use → ∀ block, blockAt cfg u.line = some block →
    ∀ d d', LastLocal cfg refs u block d → LastLocal cfg refs u block d' →
      d.2.column = d'.2.column

/-- The order in which any given last local definition comes last in its hash set. -/
theorem exists_hashLast_eq (hd : LastLocal cfg refs u block d) :
    ∃ ord : HashOrder, hashLast (fun _ => ord) cfg refs j u block = some d.1 := by
  obtain ⟨l₁, l₂, hl⟩ := List.append_of_mem (List.mem_map_of_mem (f := (·.1)) hd.1)
  refine ⟨⟨fun l => l.rotate (l₁ ++ [d.1]).length, fun l => List.rotate_perm l _⟩, ?_⟩
  have hlist : (localDefs cfg refs u block).map (·.1) = (l₁ ++ [d.1]) ++ l₂ := by
    rw [hl]
    simp
  unfold hashLast
  dsimp only
  rw [hlist, List.rotate_append_length_eq, ← List.append_assoc]
  apply maxByKey_append_of_le
  intro id hid
  have hmem : id ∈ (localDefs cfg refs u block).map (·.1) := by
    rw [hl]
    simp only [List.mem_append, List.mem_cons] at hid ⊢
    tauto
  obtain ⟨d', hd', rfl⟩ := List.mem_map.1 hmem
  rw [line_eq (mem_localDefs.1 hd').1, line_eq (mem_localDefs.1 hd.1).1]
  exact hd.2 d' hd'

theorem inverse_of_oneColumn (h : OneColumn cfg refs) (D : Definition) (use : Use) :
    InDefUse (buildDefUseChains ord setOrd reaching cfg refs) D use ↔
      InUseDef (buildUseDefChains reaching cfg refs) D use := by
  rw [inDefUse_iff, inUseDef_iff]
  constructor
  · rintro ⟨d, hd, u, j, hu, huse, block, hb, hname, hsees, rfl, rfl⟩
    have hmem := List.mem_of_getElem? hu
    cases hlast : hashLast setOrd cfg refs j u block with
    | none =>
      have hnone := listLast_eq_none.2 (hashLast_eq_none.1 hlast)
      rw [hlast] at hsees
      exact ⟨d, hd, u, hmem, huse, block, hb, hname, by rw [hnone]; exact hsees, rfl, rfl⟩
    | some id =>
      obtain ⟨e, rfl, he⟩ := lastLocal_of_hashLast hlast
      have hde : d = e := by
        rw [hlast] at hsees
        exact defsOf_inj hd (mem_localDefs.1 he.1).1 (by simpa [sees] using hsees)
      subst hde
      cases hlist : listLast cfg refs u block with
      | none =>
        rw [hashLast_eq_none.2 (listLast_eq_none.1 hlist)] at hlast
        cases hlast
      | some id' =>
        obtain ⟨e', rfl, he'⟩ := lastLocal_of_listLast hlist
        obtain ⟨hdefs, hname', -⟩ := mem_localDefs.1 he'.1
        exact ⟨e', hdefs, u, hmem, huse, block, hb, hname', by simp [hlist, sees], rfl,
          definitionOf_eq he he' (h u hmem huse block hb _ _ he he')⟩
  · rintro ⟨d, hd, u, hmem, huse, block, hb, hname, hsees, rfl, rfl⟩
    obtain ⟨j, hu⟩ := List.mem_iff_getElem?.1 hmem
    cases hlist : listLast cfg refs u block with
    | none =>
      have hnone : hashLast setOrd cfg refs j u block = none :=
        hashLast_eq_none.2 (listLast_eq_none.1 hlist)
      rw [hlist] at hsees
      exact ⟨d, hd, u, j, hu, huse, block, hb, hname, by rw [hnone]; exact hsees, rfl, rfl⟩
    | some id =>
      obtain ⟨e, rfl, he⟩ := lastLocal_of_listLast hlist
      have hde : d = e := by
        rw [hlist] at hsees
        exact defsOf_inj hd (mem_localDefs.1 he.1).1 (by simpa [sees] using hsees)
      subst hde
      cases hlast : hashLast setOrd cfg refs j u block with
      | none =>
        rw [listLast_eq_none.2 (hashLast_eq_none.1 hlast)] at hlist
        cases hlist
      | some id' =>
        obtain ⟨e', rfl, he'⟩ := lastLocal_of_hashLast hlast
        obtain ⟨hdefs, hname', -⟩ := mem_localDefs.1 he'.1
        exact ⟨e', hdefs, u, j, hu, huse, block, hb, hname', by simp [hlast, sees], rfl,
          definitionOf_eq he he' (h u hmem huse block hb _ _ he he')⟩

/-- **The chains are inverse for every hash order** if and only if the last definitions of a
variable before a use, in its block and on one line, are in one column. -/
theorem chains_inverse_iff (reaching : ReachingDefinitions) (cfg : CfgInfo) (refs : List VarRef) :
    (∀ ord setOrd D use, InDefUse (buildDefUseChains ord setOrd reaching cfg refs) D use ↔
      InUseDef (buildUseDefChains reaching cfg refs) D use) ↔ OneColumn cfg refs := by
  constructor
  · intro h
    -- a definition that a hash set can put last is the last one in the list
    have hlist : ∀ u ∈ refs, u.refType = .use → ∀ block, blockAt cfg u.line = some block →
        ∀ d e, LastLocal cfg refs u block d → LastLocal cfg refs u block e →
          listLast cfg refs u block = some e.1 → d.2.column = e.2.column := by
      intro u hu huse block hb d e hd he hlast
      obtain ⟨j, hj⟩ := List.mem_iff_getElem?.1 hu
      obtain ⟨ord, hord⟩ := exists_hashLast_eq (j := j) hd
      obtain ⟨hdefs, hname, -⟩ := mem_localDefs.1 hd.1
      have hin : InDefUse (buildDefUseChains ord (fun _ => ord) reaching cfg refs)
          (definitionOf cfg d.2) (useOf u block) :=
        inDefUse_iff.2 ⟨d, hdefs, u, j, hj, huse, block, hb, hname, by simp [hord, sees], rfl, rfl⟩
      obtain ⟨d', hd', u', -, -, block', -, hname', hsees, hsite, hD⟩ :=
        inUseDef_iff.1 ((h _ _ _ _).1 hin)
      simp only [useOf, Use.mk.injEq] at hsite
      simp only [definitionOf, Definition.mk.injEq] at hD
      have hsame : listLast cfg refs u' block' = listLast cfg refs u block := by
        unfold listLast localDefs
        rw [← hname', ← hD.1, hname, ← hsite.1, ← hsite.2.2]
      rw [hsame, hlast] at hsees
      have hde : d' = e :=
        defsOf_inj hd' (mem_localDefs.1 he.1).1 (by simpa [sees] using hsees)
      rw [← hde]
      exact hD.2.2.1
    intro u hu huse block hb d d' hd hd'
    cases hlast : listLast cfg refs u block with
    | none =>
      have hmem := hd.1
      rw [listLast_eq_none.1 hlast] at hmem
      cases hmem
    | some id =>
      obtain ⟨e, rfl, he⟩ := lastLocal_of_listLast hlast
      exact (hlist u hu huse block hb d e hd he hlast).trans
        (hlist u hu huse block hb d' e hd' he hlast).symm
  · exact fun h _ _ D use => inverse_of_oneColumn h D use

/-- Two definitions of `x` on one line: a hash set that turns its entries around makes the first of
them the last one. -/
theorem chains_not_inverse : ¬ ∀ (cfg : CfgInfo) (refs : List VarRef) (ord : HashOrder)
    (setOrd : Nat → HashOrder) (D : Definition) (use : Use),
    InDefUse (buildDefUseChains ord setOrd (computeReachingDefinitions cfg refs) cfg refs) D use ↔
      InUseDef (buildUseDefChains (computeReachingDefinitions cfg refs) cfg refs) D use := by
  intro h
  have hin := (h ⟨"f", [⟨0, 1, 2⟩], [], 0, [0]⟩
    [⟨"x", .definition, 1, 0⟩, ⟨"x", .definition, 1, 7⟩, ⟨"x", .use, 2, 4⟩] .insertion
    (fun _ => ⟨List.reverse, fun l => l.reverse_perm⟩) ⟨"x", 1, 0, 0⟩ ⟨2, 4, 0⟩).1
      ⟨⟨⟨"x", 1, 0, 0⟩, [⟨2, 4, 0⟩]⟩, by decide +kernel, rfl, by decide⟩
  obtain ⟨chain, hchain, -, hD⟩ := hin
  have hchains : buildUseDefChains (computeReachingDefinitions ⟨"f", [⟨0, 1, 2⟩], [], 0, [0]⟩
      [⟨"x", .definition, 1, 0⟩, ⟨"x", .definition, 1, 7⟩, ⟨"x", .use, 2, 4⟩])
      ⟨"f", [⟨0, 1, 2⟩], [], 0, [0]⟩
      [⟨"x", .definition, 1, 0⟩, ⟨"x", .definition, 1, 7⟩, ⟨"x", .use, 2, 4⟩] =
        [⟨⟨2, 4, 0⟩, "x", [⟨"x", 1, 7, 0⟩]⟩] := by decide +kernel
  rw [hchains, List.mem_singleton] at hchain
  subst hchain
  simp at hD

end TldrCode.Dfg
