import TldrCode.Dfg.UseDef

/-!
# Uninitialized uses

`detect_uninitialized` reports a use in a block if no definition of its variable comes before it
there and either none reaches the block or the block is reached from the entry along blocks without
a definition. Both are iterated for at most 100 rounds. Where these suffice a use that the entry
reaches is reported exactly if a path to it contains no definition (`detectUninitialized_spec`).
Severity is not about paths: it says whether the variable is defined anywhere.
-/

namespace TldrCode.Dfg

open Dataflow TldrCode.Graph
open scoped List

/-! ## The detection -/

inductive UninitSeverity where
  | definite
  | possible
  deriving DecidableEq, Repr

structure UninitializedUse where
  var : String
  line : Nat
  column : Nat
  block : Nat
  reason : String
  severity : UninitSeverity
  deriving DecidableEq, Repr

/-- The block that a definition is in: of the blocks over its line the largest, of several of one
size the one with the highest id. -/
def bestBlock (cfg : CfgInfo) (r : VarRef) : Option Nat :=
  (cfg.blocks.foldl (betterBlock r) none).map (·.1)

section Propagation

variable (cfg : CfgInfo) (blocksWithDef : List Nat)

/-- One block hands "no definition" on to its successors. -/
def propagateBlock (noDefReaches : Finset Nat) (b : Nat) : Finset Nat :=
  if b ∈ noDefReaches ∧ b ∉ blocksWithDef then noDefReaches ∪ (cfg.successors b).toFinset
  else noDefReaches

/-- The rounds over the blocks, until one changes nothing. -/
def propagate : Nat → Finset Nat → Finset Nat
  | 0, noDefReaches => noDefReaches
  | rounds + 1, noDefReaches =>
    let next := cfg.blockIds.foldl (propagateBlock cfg blocksWithDef) noDefReaches
    if next = noDefReaches then noDefReaches else propagate rounds next

def hasUndefinedPath (block : Nat) : Bool :=
  block ∈ propagate cfg blocksWithDef 100 {cfg.entryBlock}

end Propagation

def uninitializedUse (reaching : ReachingDefinitions) (cfg : CfgInfo) (refs : List VarRef)
    (params globals : List String) (u : VarRef) : Option UninitializedUse :=
  if u.refType ≠ .use then none
  else if u.name ∈ params ++ globals then none
  else
    match blockAt cfg u.line with
    | none => some ⟨u.name, u.line, u.column, 0, "use not within any block", .definite⟩
    | some block =>
      let varDefs := (defsOf refs).filter (·.2.name = u.name)
      if varDefs.isEmpty then
        some ⟨u.name, u.line, u.column, block, "no definition of this variable exists", .definite⟩
      else if !(localDefs cfg refs u block).isEmpty then none
      else if (varDefs.filter (·.1 ∈ reaching.reachingIn block)).isEmpty then
        some ⟨u.name, u.line, u.column, block,
          "definition exists but does not reach this use on any path", .possible⟩
      else if hasUndefinedPath cfg (varDefs.filterMap fun d => bestBlock cfg d.2) block then
        some ⟨u.name, u.line, u.column, block,
          "definition does not reach this use on all paths", .possible⟩
      else none

def detectUninitialized (reaching : ReachingDefinitions) (cfg : CfgInfo) (refs : List VarRef)
    (params globals : List String) : List UninitializedUse :=
  refs.filterMap (uninitializedUse reaching cfg refs params globals)

section

variable {cfg : CfgInfo} {blocksWithDef : List Nat} {s t : Finset Nat} {b c : Nat} {S l : List Nat}

theorem mem_propagateBlock : c ∈ propagateBlock cfg blocksWithDef s b ↔
    c ∈ s ∨ b ∈ s ∧ b ∉ blocksWithDef ∧ cfg.Edge b c := by
  unfold propagateBlock
  split
  · next h =>
    rw [Finset.mem_union, List.mem_toFinset, CfgInfo.mem_successors]
    simp [h.1, h.2]
  · next h =>
    refine ⟨.inl, fun hc => hc.resolve_right fun hc => h ⟨hc.1, hc.2.1⟩⟩

theorem mem_foldl_propagateBlock {entry : Nat} (S : List Nat) :
    ∀ b, b ∈ S.foldl (propagateBlock cfg blocksWithDef) {entry} ↔
      ∃ l, Walk cfg.Edge entry b (l ++ [b]) ∧ (∀ x ∈ l, x ∉ blocksWithDef) ∧ l <+ S := by
  induction S using List.reverseRecOn with
  | nil =>
    intro b
    rw [List.foldl_nil, Finset.mem_singleton]
    constructor
    · rintro rfl
      exact ⟨[], .single b, by simp, .refl _⟩
    · rintro ⟨l, w, -, hl⟩
      rw [List.sublist_nil.1 hl] at w
      have hhead := w.head
      simpa using hhead
  | append_singleton S x ih =>
    intro b
    rw [List.foldl_append, List.foldl_cons, List.foldl_nil, mem_propagateBlock, ih, ih]
    constructor
    · rintro (⟨l, w, hl, hsub⟩ | ⟨⟨l, w, hl, hsub⟩, hx, he⟩)
      · exact ⟨l, w, hl, hsub.trans (List.sublist_append_left _ _)⟩
      · refine ⟨l ++ [x], w.concat he, fun y hy => ?_, hsub.append (.refl [x])⟩
        rw [List.mem_append, List.mem_singleton] at hy
        cases hy with
        | inl hy => exact hl y hy
        | inr hy => exact hy ▸ hx
    · rintro ⟨l, w, hl, hsub⟩
      rcases List.eq_nil_or_concat' l with rfl | ⟨l, y, rfl⟩
      · exact .inl ⟨[], w, hl, List.nil_sublist _⟩
      · have hlast : Walk cfg.Edge entry y (l ++ [y]) ∧ cfg.Edge y b := by
          rw [List.append_assoc] at w
          obtain ⟨w₁, w₂⟩ := Walk.split_iff.1 w
          exact ⟨w₁, (List.isChain_cons_cons.1 w₂.chain).1⟩
        obtain ⟨l₁, l₂, heq, h₁, h₂⟩ := List.sublist_append_iff.1 hsub
        cases l₂ with
        | nil =>
          rw [List.append_nil] at heq
          exact .inl ⟨l ++ [y], w, hl, heq ▸ h₁⟩
        | cons z l₂ =>
          have hz : z = x ∧ l₂ = [] := by
            have hlen := h₂.length_le
            obtain rfl : l₂ = [] := by
              cases l₂ with
              | nil => rfl
              | cons _ _ => simp at hlen
            exact ⟨List.mem_singleton.1 (h₂.subset List.mem_cons_self), rfl⟩
          obtain ⟨rfl, rfl⟩ := hz
          obtain ⟨rfl, hyz⟩ := List.append_inj' heq rfl
          obtain rfl : y = z := by simpa using hyz
          exact .inr ⟨⟨l, hlast.1, fun v hv => hl v (by simp [hv]), h₁⟩, hl y (by simp), hlast.2⟩

theorem propagate_eq_foldl (cfg : CfgInfo) (blocksWithDef : List Nat) :
    ∀ (rounds : Nat) (s : Finset Nat), propagate cfg blocksWithDef rounds s =
      (List.replicate rounds cfg.blockIds).flatten.foldl (propagateBlock cfg blocksWithDef) s := by
  intro rounds
  induction rounds with
  | zero => exact fun s => rfl
  | succ rounds ih =>
    intro s
    rw [List.replicate_succ, List.flatten_cons, List.foldl_append, propagate]
    split
    · next h =>
      rw [h]
      clear ih
      induction rounds with
      | zero => rfl
      | succ rounds ih =>
        rw [List.replicate_succ, List.flatten_cons, List.foldl_append, h]
        exact ih
    · exact ih _

/-- **Which blocks are found to be reached without a definition.** -/
theorem hasUndefinedPath_iff : hasUndefinedPath cfg blocksWithDef b ↔
    ∃ l, Walk cfg.Edge cfg.entryBlock b (l ++ [b]) ∧ (∀ x ∈ l, x ∉ blocksWithDef) ∧
      l <+ (List.replicate 100 cfg.blockIds).flatten := by
  unfold hasUndefinedPath
  rw [decide_eq_true_eq, propagate_eq_foldl, mem_foldl_propagateBlock]

end

/-! ## Reports -/

variable {cfg : CfgInfo} {refs : List VarRef} {params globals : List String} {u : VarRef}
  {reaching : ReachingDefinitions} {b : Nat} {v : String} {r : UninitializedUse} {x : Nat}

def UninitializedUse.About (r : UninitializedUse) (u : VarRef) : Prop :=
  r.var = u.name ∧ r.line = u.line ∧ r.column = u.column

def Reported (reaching : ReachingDefinitions) (cfg : CfgInfo) (refs : List VarRef)
    (params globals : List String) (u : VarRef) : Prop :=
  ∃ r ∈ detectUninitialized reaching cfg refs params globals, r.About u

theorem about_of_eq_some (h : uninitializedUse reaching cfg refs params globals u = some r) :
    r.About u ∧ u.refType = .use := by
  unfold uninitializedUse at h
  split at h
  · cases h
  · next huse =>
    refine ⟨?_, by simpa using huse⟩
    split at h
    · cases h
    · split at h
      · cases h
        exact ⟨rfl, rfl, rfl⟩
      · dsimp only at h
        split at h
        · cases h
          exact ⟨rfl, rfl, rfl⟩
        · split at h
          · cases h
          · split at h
            · cases h
              exact ⟨rfl, rfl, rfl⟩
            · split at h
              · cases h
                exact ⟨rfl, rfl, rfl⟩
              · cases h

theorem mem_detectUninitialized_iff (hu : u ∈ refs) (huse : u.refType = .use) :
    r ∈ detectUninitialized reaching cfg refs params globals ∧ r.About u ↔
      uninitializedUse reaching cfg refs params globals u = some r := by
  constructor
  · rintro ⟨hr, hname, hline, hcol⟩
    obtain ⟨u', -, hu'⟩ := List.mem_filterMap.1 hr
    obtain ⟨⟨hname', hline', hcol'⟩, huse'⟩ := about_of_eq_some hu'
    have hsame : u' = u := by
      cases u
      cases u'
      simp_all
    rwa [← hsame]
  · intro h
    exact ⟨List.mem_filterMap.2 ⟨u, hu, h⟩, (about_of_eq_some h).1⟩

theorem reported_iff (hu : u ∈ refs) (huse : u.refType = .use) :
    Reported reaching cfg refs params globals u ↔
      (uninitializedUse reaching cfg refs params globals u).isSome := by
  rw [Option.isSome_iff_exists]
  exact exists_congr fun r => mem_detectUninitialized_iff hu huse

/-! ## Paths -/

/-- The block has a definition of the variable. -/
def DefinedIn (cfg : CfgInfo) (refs : List VarRef) (x : Nat) (v : String) : Prop :=
  ∃ d ∈ defsOf refs, d.2.name = v ∧ bestBlock cfg d.2 = some x

/-- The entry leads to the block along blocks, listed in `l`, that do not define the variable. -/
def DefFree (cfg : CfgInfo) (refs : List VarRef) (v : String) (b : Nat) (l : List Nat) : Prop :=
  Walk cfg.Edge cfg.entryBlock b (l ++ [b]) ∧ ∀ x ∈ l, ¬ DefinedIn cfg refs x v

/-- Some path from the entry to the use contains no definition of its variable: neither in the
blocks before that of the use nor before the use in there. -/
def UndefinedPath (cfg : CfgInfo) (refs : List VarRef) (u : VarRef) : Prop :=
  ∃ b l, blockAt cfg u.line = some b ∧ DefFree cfg refs u.name b l ∧ localDefs cfg refs u b = []

/-- No path from the entry to the use contains a definition of its variable. -/
def UndefinedOnAllPaths (cfg : CfgInfo) (refs : List VarRef) (u : VarRef) : Prop :=
  ∀ b l, blockAt cfg u.line = some b → Walk cfg.Edge cfg.entryBlock b (l ++ [b]) →
    DefFree cfg refs u.name b l ∧ localDefs cfg refs u b = []

/-- 100 rounds find a definition that reaches the block of the use, if there is one, and a path from
the entry without a definition, if there is one. -/
def RoundsSuffice (cfg : CfgInfo) (refs : List VarRef) (u : VarRef) : Prop :=
  ∀ b, blockAt cfg u.line = some b →
    ((∃ d ∈ defsOf refs, d.2.name = u.name ∧ Reaches cfg refs d.1 b) →
      ∃ d ∈ defsOf refs, d.2.name = u.name ∧ FoundToReach cfg refs d b) ∧
    ((∃ l, DefFree cfg refs u.name b l) →
      ∃ l, DefFree cfg refs u.name b l ∧ l <+ (List.replicate 100 cfg.blockIds).flatten)

theorem mem_blocksWithDef :
    x ∈ ((defsOf refs).filter (·.2.name = v)).filterMap (fun d => bestBlock cfg d.2) ↔
      DefinedIn cfg refs x v := by
  simp only [List.mem_filterMap, List.mem_filter, decide_eq_true_eq, DefinedIn, and_assoc]

theorem DefinedIn.redefines (h : DefinedIn cfg refs x v) : Redefines cfg refs x v := by
  obtain ⟨d, hd, hname, hbest⟩ := h
  refine ⟨d, hd, ?_, hname⟩
  obtain ⟨p, hp, rfl⟩ := Option.map_eq_some_iff.1 hbest
  unfold defToBlock
  rw [hp]

theorem Redefines.exists_leaves (h : Redefines cfg refs x v) :
    ∃ d, LeavesBlock cfg refs d ∧ defToBlock cfg d.2 = x ∧ d.2.name = v := by
  have hmem : ∀ d, d ∈ (defsOf refs).filter (fun d => defToBlock cfg d.2 = x ∧ d.2.name = v) ↔
      d ∈ defsOf refs ∧ defToBlock cfg d.2 = x ∧ d.2.name = v := by simp
  obtain ⟨d₀, h₀⟩ := h
  cases hmax : maxByKey (·.1.refIndex)
      ((defsOf refs).filter fun d => defToBlock cfg d.2 = x ∧ d.2.name = v) with
  | none =>
    have hd₀ := (hmem d₀).2 h₀
    rw [maxByKey_eq_none.1 hmax] at hd₀
    cases hd₀
  | some d =>
    obtain ⟨hd, hle⟩ := maxByKey_eq_some hmax
    obtain ⟨hdefs, rfl, rfl⟩ := (hmem d).1 hd
    exact ⟨d, ⟨hdefs, fun d' hd' hx hv => hle d' ((hmem d').2 ⟨hd', hx, hv⟩)⟩, rfl, rfl⟩

/-- If no definition of the variable reaches a block, no path to it contains one. -/
theorem defFree_of_not_reaches (h : ∀ d ∈ defsOf refs, d.2.name = v → ¬ Reaches cfg refs d.1 b)
    {l : List Nat} (w : Walk cfg.Edge cfg.entryBlock b (l ++ [b])) : DefFree cfg refs v b l := by
  refine ⟨w, fun x hx hdef => ?_⟩
  obtain ⟨l₁, y, l₂, rfl, hy, hlast⟩ := exists_last_of_mem (p := (Redefines cfg refs · v)) hx
    hdef.redefines
  obtain ⟨d, hleaves, rfl, hname⟩ := hy.exists_leaves
  refine h d hleaves.1 hname ⟨d, l₂, rfl, hleaves, ?_, fun z hz => ?_⟩
  · rw [List.append_assoc] at w
    exact (Walk.split_iff.1 w).2
  · rw [hname]
    exact hlast z hz

theorem roundsSuffice_of_length_le (hcfg : cfg.WellFormed) (hlen : cfg.blocks.length ≤ 100) :
    RoundsSuffice cfg refs u := by
  intro b _
  constructor
  · rintro ⟨d, hd, hv, hreach⟩
    refine ⟨d, hd, hv, (mem_reachingIn_self hd).1 ?_⟩
    rwa [computeReachingDefinitions_exact_of_length_le hcfg hlen]
  · rintro ⟨l, w, hl⟩
    obtain ⟨l', w', hnodup, hsub⟩ := w.exists_nodup
    obtain ⟨l', rfl⟩ := w'.eq_concat
    have hb : b ∉ l' := by simpa using (List.nodup_append'.1 hnodup).2.2
    have hmem : ∀ x ∈ l', x ∈ l := by
      intro x hx
      have hx' := hsub x (List.mem_append_left _ hx)
      rw [List.mem_append, List.mem_singleton] at hx'
      exact hx'.resolve_right fun h => hb (h ▸ hx)
    have hids : ∀ x ∈ l', x ∈ cfg.blockIds := fun x hx =>
      hcfg.reach_mem hcfg.entry_mem (w'.reach_of_mem (List.mem_append_left _ hx))
    have hlength : l'.length ≤ cfg.blockIds.length :=
      ((List.nodup_append'.1 hnodup).1.subperm hids).length_le
    rw [CfgInfo.blockIds, List.length_map] at hlength
    exact ⟨l', ⟨w', fun x hx => hl x (hmem x hx)⟩,
      GenKill.sublist_rounds hids (hlength.trans hlen)⟩

/-! ## What is reported -/

theorem isSome_uninitializedUse_iff (huse : u.refType = .use) (hname : u.name ∉ params ++ globals)
    (hb : blockAt cfg u.line = some b) :
    (uninitializedUse (computeReachingDefinitions cfg refs) cfg refs params globals u).isSome ↔
      (∀ d ∈ defsOf refs, d.2.name ≠ u.name) ∨ localDefs cfg refs u b = [] ∧
        ((∀ d ∈ defsOf refs, d.2.name = u.name → ¬ FoundToReach cfg refs d b) ∨
          ∃ l, DefFree cfg refs u.name b l ∧ l <+ (List.replicate 100 cfg.blockIds).flatten) := by
  have hdefs : ((defsOf refs).filter (·.2.name = u.name)).isEmpty ↔
      ∀ d ∈ defsOf refs, d.2.name ≠ u.name := by
    simp [List.filter_eq_nil_iff]
  have hfound : (((defsOf refs).filter (·.2.name = u.name)).filter fun d =>
      d.1 ∈ (computeReachingDefinitions cfg refs).reachingIn b).isEmpty ↔
        ∀ d ∈ defsOf refs, d.2.name = u.name → ¬ FoundToReach cfg refs d b := by
    rw [List.isEmpty_iff, List.filter_eq_nil_iff]
    simp only [List.mem_filter, decide_eq_true_eq, and_imp]
    refine forall_congr' fun d => forall_congr' fun hd => ?_
    rw [mem_reachingIn_self hd]
  have hpath : hasUndefinedPath cfg (((defsOf refs).filter (·.2.name = u.name)).filterMap
      fun d => bestBlock cfg d.2) b ↔
        ∃ l, DefFree cfg refs u.name b l ∧ l <+ (List.replicate 100 cfg.blockIds).flatten := by
    simp only [hasUndefinedPath_iff, mem_blocksWithDef, DefFree, and_assoc]
  generalize (List.replicate 100 cfg.blockIds).flatten = S at hpath ⊢
  unfold uninitializedUse
  rw [if_neg (by simpa using huse), if_neg hname, hb]
  dsimp only
  split
  · next h => exact iff_of_true rfl (.inl (hdefs.1 h))
  · next h =>
    have hsome : ¬ ∀ d ∈ defsOf refs, d.2.name ≠ u.name := fun hno => h (hdefs.2 hno)
    split
    · next hlocal =>
      have hne : localDefs cfg refs u b ≠ [] := by simpa using hlocal
      simp only [Option.isSome_none, Bool.false_eq_true, hsome, hne, false_and, or_self]
    · next hlocal =>
      have hnil : localDefs cfg refs u b = [] := by simpa using hlocal
      split
      · next hno => exact iff_of_true rfl (.inr ⟨hnil, .inl (hfound.1 hno)⟩)
      · next hno =>
        have hsomeFound : ¬ ∀ d ∈ defsOf refs, d.2.name = u.name → ¬ FoundToReach cfg refs d b :=
          fun hall => hno (hfound.2 hall)
        simp only [hsome, hnil, hsomeFound, true_and, false_or, ← hpath]
        split
        · next hun => simp only [Option.isSome_some, hun]
        · next hun => simp only [Option.isSome_none, Bool.false_eq_true, hun]

/-- Where the rounds suffice a use in a block is reported if nothing before it in the block defines
its variable and no definition reaches the block, or not along every path. -/
theorem isSome_iff_of_rounds (huse : u.refType = .use) (hname : u.name ∉ params ++ globals)
    (hrounds : RoundsSuffice cfg refs u) (hb : blockAt cfg u.line = some b) :
    (uninitializedUse (computeReachingDefinitions cfg refs) cfg refs params globals u).isSome ↔
      localDefs cfg refs u b = [] ∧ ((∃ l, DefFree cfg refs u.name b l) ∨
        ∀ d ∈ defsOf refs, d.2.name = u.name → ¬ Reaches cfg refs d.1 b) := by
  obtain ⟨hreach, hfree⟩ := hrounds b hb
  have hfound : ∀ d, FoundToReach cfg refs d b → Reaches cfg refs d.1 b := fun d ⟨l, hl, _⟩ =>
    ⟨d, l, rfl, hl⟩
  rw [isSome_uninitializedUse_iff huse hname hb]
  constructor
  · rintro (hno | ⟨hlocal, hno | ⟨l, hl, -⟩⟩)
    · refine ⟨?_, .inr fun d hd hv => absurd hv (hno d hd)⟩
      refine List.filter_eq_nil_iff.2 fun d hd => ?_
      simp [hno d hd]
    · refine ⟨hlocal, .inr fun d hd hv hr => ?_⟩
      obtain ⟨d', hd', hv', hf⟩ := hreach ⟨d, hd, hv, hr⟩
      exact hno d' hd' hv' hf
    · exact ⟨hlocal, .inl ⟨l, hl⟩⟩
  · rintro ⟨hlocal, hl | hno⟩
    · exact .inr ⟨hlocal, .inr (hfree hl)⟩
    · exact .inr ⟨hlocal, .inl fun d hd hv hf => hno d hd hv (hfound d hf)⟩

/-- A report is definite if the use is in no block or its variable is defined nowhere. -/
theorem severity_iff (h : uninitializedUse reaching cfg refs params globals u = some r) :
    r.severity = .definite ↔
      blockAt cfg u.line = none ∨ ∀ d ∈ defsOf refs, d.2.name ≠ u.name := by
  unfold uninitializedUse at h
  split at h
  · cases h
  · split at h
    · cases h
    · split at h
      · next hat =>
        cases h
        exact iff_of_true rfl (.inl hat)
      · next block hat =>
        have hdefs : ((defsOf refs).filter (·.2.name = u.name)).isEmpty ↔
            ∀ d ∈ defsOf refs, d.2.name ≠ u.name := by
          simp [List.filter_eq_nil_iff]
        have hblock : blockAt cfg u.line ≠ none := by simp [hat]
        dsimp only at h
        split at h
        · next hempty =>
          cases h
          exact iff_of_true rfl (.inr (hdefs.1 hempty))
        · next hempty =>
          have hno : ¬ (blockAt cfg u.line = none ∨ ∀ d ∈ defsOf refs, d.2.name ≠ u.name) :=
            fun hor => hempty (hdefs.2 (hor.resolve_left hblock))
          split at h
          · cases h
          · split at h
            · cases h
              exact iff_of_false nofun hno
            · split at h
              · cases h
                exact iff_of_false nofun hno
              · cases h

/-- **Uninitialized uses.** A use that is neither of a parameter nor of a global, in a block that
the entry reaches, is reported if and only if some path to it contains no definition of its
variable. In a block that is not reached it is reported if no definition comes before it there and
none reaches the block, and in no block always. It is reported as definite if it is in no block or
its variable is defined nowhere. -/
theorem detectUninitialized_spec (cfg : CfgInfo) (refs : List VarRef) (params globals : List String)
    (u : VarRef) (hu : u ∈ refs) (huse : u.refType = .use) (hname : u.name ∉ params ++ globals)
    (hrounds : RoundsSuffice cfg refs u) :
    (∀ b, blockAt cfg u.line = some b → cfg.Reachable b →
      (Reported (computeReachingDefinitions cfg refs) cfg refs params globals u ↔
        UndefinedPath cfg refs u)) ∧
    (∀ b, blockAt cfg u.line = some b → ¬ cfg.Reachable b →
      (Reported (computeReachingDefinitions cfg refs) cfg refs params globals u ↔
        localDefs cfg refs u b = [] ∧
          ∀ d ∈ defsOf refs, d.2.name = u.name → ¬ Reaches cfg refs d.1 b)) ∧
    (blockAt cfg u.line = none →
      Reported (computeReachingDefinitions cfg refs) cfg refs params globals u) ∧
    ∀ r ∈ detectUninitialized (computeReachingDefinitions cfg refs) cfg refs params globals,
      r.About u → (r.severity = .definite ↔
        blockAt cfg u.line = none ∨ ∀ d ∈ defsOf refs, d.2.name ≠ u.name) := by
  rw [reported_iff hu huse]
  refine ⟨fun b hb hreach => ?_, fun b hb hreach => ?_, fun hat => ?_, fun r hr habout => ?_⟩
  · rw [isSome_iff_of_rounds huse hname hrounds hb]
    constructor
    · rintro ⟨hlocal, ⟨l, hl⟩ | hno⟩
      · exact ⟨b, l, hb, hl, hlocal⟩
      · obtain ⟨l, w⟩ := hreach
        obtain ⟨l, rfl⟩ := w.eq_concat
        exact ⟨b, l, hb, defFree_of_not_reaches hno w, hlocal⟩
    · rintro ⟨b', l, hb', hl, hlocal⟩
      obtain rfl : b' = b := Option.some.inj (hb'.symm.trans hb)
      exact ⟨hlocal, .inl ⟨l, hl⟩⟩
  · rw [isSome_iff_of_rounds huse hname hrounds hb]
    refine and_congr_right fun _ => or_iff_right ?_
    rintro ⟨l, w, -⟩
    exact hreach ⟨_, w⟩
  · unfold uninitializedUse
    rw [if_neg (by simpa using huse), if_neg hname, hat]
    rfl
  · exact severity_iff ((mem_detectUninitialized_iff hu huse).1 ⟨hr, habout⟩)

/-- A branch that skips the definition. -/
theorem detectUninitialized_spec_branch : UndefinedPath
    ⟨"f", [⟨0, 1, 1⟩, ⟨1, 2, 2⟩, ⟨2, 3, 3⟩], [⟨0, 1⟩, ⟨0, 2⟩, ⟨1, 2⟩], 0, [2]⟩
    [⟨"x", .definition, 2, 4⟩, ⟨"x", .use, 3, 7⟩] ⟨"x", .use, 3, 7⟩ := by
  have hcfg : CfgInfo.WellFormed
      ⟨"f", [⟨0, 1, 1⟩, ⟨1, 2, 2⟩, ⟨2, 3, 3⟩], [⟨0, 1⟩, ⟨0, 2⟩, ⟨1, 2⟩], 0, [2]⟩ :=
    ⟨by decide, by decide, by decide, by decide⟩
  refine ((detectUninitialized_spec _ _ [] [] _ (by decide) rfl (by decide)
    (roundsSuffice_of_length_le hcfg (by decide))).1 2 (by decide) ?_).1 ?_
  · exact Reach.edge ⟨⟨0, 2⟩, by decide, rfl, rfl⟩
  · rw [reported_iff (by decide) rfl]
    decide +kernel

/-- A variable defined after its use only: no path to the use contains a definition, but the report
is not definite. -/
theorem severity_not_by_paths : ¬ ∀ (cfg : CfgInfo) (refs : List VarRef)
    (params globals : List String), cfg.WellFormed →
    ∀ u ∈ refs, u.refType = .use → u.name ∉ params ++ globals →
      (Reported (computeReachingDefinitions cfg refs) cfg refs params globals u ↔
        UndefinedPath cfg refs u) ∧
      ∀ r ∈ detectUninitialized (computeReachingDefinitions cfg refs) cfg refs params globals,
        r.About u → (r.severity = .definite ↔ UndefinedOnAllPaths cfg refs u) := by
  intro h
  have hclaim := (h ⟨"f", [⟨0, 1, 2⟩], [], 0, [0]⟩
    [⟨"x", .use, 1, 11⟩, ⟨"x", .definition, 2, 4⟩] [] []
    ⟨by decide, by decide, by decide, by decide⟩ ⟨"x", .use, 1, 11⟩ (by decide) rfl (by decide)).2
    ⟨"x", 1, 11, 0, "definition exists but does not reach this use on any path", .possible⟩
    (by decide +kernel) ⟨rfl, rfl, rfl⟩
  have hnot : ¬ UndefinedOnAllPaths ⟨"f", [⟨0, 1, 2⟩], [], 0, [0]⟩
      [⟨"x", .use, 1, 11⟩, ⟨"x", .definition, 2, 4⟩] ⟨"x", .use, 1, 11⟩ := fun hall =>
    absurd (hclaim.2 hall) (by decide)
  apply hnot
  intro b l hb w
  obtain rfl : b = 0 := by
    have h0 : blockAt ⟨"f", [⟨0, 1, 2⟩], [], 0, [0]⟩ 1 = some 0 := by decide
    exact Option.some.inj (hb.symm.trans h0)
  have hl : l = [] := by
    refine Decidable.byContradiction fun hne => ?_
    obtain ⟨y, -, hy⟩ := w.exists_last_step hne
    simp [CfgInfo.Edge] at hy
  subst hl
  exact ⟨⟨w, by simp⟩, by decide⟩

end TldrCode.Dfg
