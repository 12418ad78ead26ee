import TldrCode.Dfg.Chains

/-!
# What the use-def chains contain

Where the lines of the blocks are disjoint and a line defines a variable at most once, the chain of
a use should hold the definitions that reach it: the last one on the earlier lines of its block, or
else those that get to the block along a path without another definition (`ReachesUse`).
`useDefCorrect_iff` says when it does. A definition on no line of a block belongs to the first
block, as it does for `compute_reaching_definitions`.
-/

namespace TldrCode.Dfg

open Dataflow TldrCode.Graph
open scoped List

/-! ## What reaches a use -/

def Covers (block : CfgBlock) (line : Nat) : Prop := block.lines.1 ≤ line ∧ line ≤ block.lines.2

/-- The blocks have different ids and no line in common. -/
structure Apart (a b : CfgBlock) : Prop where
  id : a.id ≠ b.id
  lines : ∀ line, Covers a line → ¬ Covers b line

instance : Std.Symm Apart where
  symm _ _ h := ⟨h.id.symm, fun line hb ha => h.lines line ha hb⟩

/-- No two blocks have an id or a line in common. -/
def DisjointBlocks (cfg : CfgInfo) : Prop := cfg.blocks.Pairwise Apart

def OneStatementPerLine (refs : List VarRef) : Prop :=
  ∀ d ∈ defsOf refs, ∀ d' ∈ defsOf refs, d.2.name = d'.2.name → d.2.line = d'.2.line → d = d'

instance (refs : List VarRef) : Decidable (OneStatementPerLine refs) :=
  inferInstanceAs (Decidable (∀ d ∈ defsOf refs, ∀ d' ∈ defsOf refs,
    d.2.name = d'.2.name → d.2.line = d'.2.line → d = d'))

variable (cfg : CfgInfo) (refs : List VarRef)

/-- The block defines the variable on a line between the two. -/
def DefinedBetween (b : Nat) (v : String) (low high : Nat) : Prop :=
  ∃ d ∈ defsOf refs, defToBlock cfg d.2 = b ∧ d.2.name = v ∧ low < d.2.line ∧ d.2.line < high

/-- The block defines the variable before the line. -/
def DefinedBefore (b : Nat) (v : String) (line : Nat) : Prop :=
  ∃ d ∈ defsOf refs, defToBlock cfg d.2 = b ∧ d.2.name = v ∧ d.2.line < line

/-- The definition is on the last line of its block that defines the variable. -/
def LastInBlock (d : DefId × VarRef) : Prop :=
  ∀ d' ∈ defsOf refs, defToBlock cfg d'.2 = defToBlock cfg d.2 → d'.2.name = d.2.name →
    d'.2.line ≤ d.2.line

/-- The definition reaches the use of its variable in the block `b`: from an earlier line of the
block, or from the end of its own block along a path. In both cases nothing in between defines the
variable. -/
def ReachesUse (d : DefId × VarRef) (u : VarRef) (b : Nat) : Prop :=
  d ∈ defsOf refs ∧ d.2.name = u.name ∧
    (defToBlock cfg d.2 = b ∧ d.2.line < u.line ∧
        ¬ DefinedBetween cfg refs b u.name d.2.line u.line ∨
      LastInBlock cfg refs d ∧ ¬ DefinedBefore cfg refs b u.name u.line ∧
        ∃ l, Walk cfg.Edge (defToBlock cfg d.2) b (defToBlock cfg d.2 :: (l ++ [b])) ∧
          ∀ x ∈ l, ¬ Redefines cfg refs x u.name)

/-- The chain of every use in a block contains exactly the definitions that reach it. -/
def UseDefCorrect : Prop :=
  ∀ u ∈ refs, u.refType = .use → ∀ b, blockAt cfg u.line = some b → ∀ D,
    (∃ chain ∈ buildUseDefChains (computeReachingDefinitions cfg refs) cfg refs,
      chain.useSite = useOf u b ∧ chain.var = u.name ∧ D ∈ chain.reachingDefs) ↔
    ∃ d, ReachesUse cfg refs d u b ∧ D = definitionOf cfg d.2

variable {cfg refs} {u : VarRef} {d d' : DefId × VarRef} {b line : Nat} {block : CfgBlock}

/-! ## Blocks and lines -/

theorem blockAt_eq_some : blockAt cfg line = some b →
    ∃ block ∈ cfg.blocks, Covers block line ∧ block.id = b := by
  intro h
  obtain ⟨block, hfind, rfl⟩ := Option.map_eq_some_iff.1 h
  have hcovers := List.find?_some hfind
  exact ⟨block, List.mem_of_find?_eq_some hfind, by simpa [Covers] using hcovers, rfl⟩

theorem DisjointBlocks.eq_of_covers (h : DisjointBlocks cfg) {a b : CfgBlock} (ha : a ∈ cfg.blocks)
    (hb : b ∈ cfg.blocks) (hla : Covers a line) (hlb : Covers b line) : a = b := by
  by_contra hne
  exact (h.forall ha hb hne).lines line hla hlb

theorem DisjointBlocks.eq_of_id (h : DisjointBlocks cfg) {a b : CfgBlock} (ha : a ∈ cfg.blocks)
    (hb : b ∈ cfg.blocks) (hid : a.id = b.id) : a = b := by
  by_contra hne
  exact (h.forall ha hb hne).id hid

theorem DisjointBlocks.blockAt_eq (h : DisjointBlocks cfg) (hb : block ∈ cfg.blocks)
    (hl : Covers block line) : blockAt cfg line = some block.id := by
  cases hat : blockAt cfg line with
  | none =>
    have hnone := List.find?_eq_none.1 (Option.map_eq_none_iff.1 hat) block hb
    exact absurd (by simpa [Covers] using hl) hnone
  | some b =>
    obtain ⟨block', hb', hl', rfl⟩ := blockAt_eq_some hat
    rw [h.eq_of_covers hb' hb hl' hl]

/-- What the search for the largest block over the line of `r` finds is over the line; it finds
something if any block is. -/
theorem foldl_betterBlock (r : VarRef) : ∀ (blocks : List CfgBlock) (best : Option (Nat × Nat)),
    (∀ p, blocks.foldl (betterBlock r) best = some p →
      best = some p ∨ ∃ block ∈ blocks, Covers block r.line ∧ block.id = p.1) ∧
    (blocks.foldl (betterBlock r) best = none →
      best = none ∧ ∀ block ∈ blocks, ¬ Covers block r.line) := by
  intro blocks
  induction blocks with
  | nil => exact fun best => ⟨fun p hp => .inl hp, fun h => ⟨h, by simp⟩⟩
  | cons block blocks ih =>
    intro best
    obtain ⟨hsome, hnone⟩ := ih (betterBlock r best block)
    constructor
    · intro p hp
      cases hsome p hp with
      | inl hp =>
        have hbetter : best = some p ∨ Covers block r.line ∧ block.id = p.1 := by
          unfold betterBlock at hp
          split at hp
          · next hcovers =>
            cases best with
            | none =>
              cases hp
              exact .inr ⟨hcovers, rfl⟩
            | some q =>
              dsimp only at hp
              split at hp
              · cases hp
                exact .inr ⟨hcovers, rfl⟩
              · exact .inl hp
          · exact .inl hp
        exact hbetter.imp_right fun hc => ⟨block, List.mem_cons_self, hc⟩
      | inr hp =>
        obtain ⟨block', hb', hc⟩ := hp
        exact .inr ⟨block', List.mem_cons_of_mem _ hb', hc⟩
    · intro h
      obtain ⟨hbest, hblocks⟩ := hnone h
      unfold betterBlock at hbest
      split at hbest
      · cases best with
        | none => cases hbest
        | some p =>
          dsimp only at hbest
          split at hbest <;> cases hbest
      · next hcovers =>
        refine ⟨hbest, fun block' hb' => ?_⟩
        cases List.mem_cons.1 hb' with
        | inl hb' => exact hb' ▸ hcovers
        | inr hb' => exact hblocks block' hb'

theorem DisjointBlocks.defToBlock_eq (h : DisjointBlocks cfg) {r : VarRef}
    (hat : blockAt cfg r.line = some b) : defToBlock cfg r = b := by
  obtain ⟨block, hb, hl, rfl⟩ := blockAt_eq_some hat
  obtain ⟨hsome, hnone⟩ := foldl_betterBlock r cfg.blocks none
  unfold defToBlock
  cases hbest : cfg.blocks.foldl (betterBlock r) none with
  | none => exact absurd hl ((hnone hbest).2 block hb)
  | some p =>
    obtain ⟨block', hb', hl', hid⟩ := (hsome p hbest).resolve_left nofun
    dsimp only
    rw [← hid, h.eq_of_covers hb' hb hl' hl]

theorem DisjointBlocks.blockAt_between (h : DisjointBlocks cfg) {low high : Nat}
    (hlow : blockAt cfg low = some b) (hhigh : blockAt cfg high = some b) (h₁ : low ≤ line)
    (h₂ : line ≤ high) : blockAt cfg line = some b := by
  obtain ⟨block, hb, hl, rfl⟩ := blockAt_eq_some hlow
  obtain ⟨block', hb', hh, hid⟩ := blockAt_eq_some hhigh
  obtain rfl := h.eq_of_id hb' hb hid
  exact h.blockAt_eq hb ⟨Nat.le_trans hl.1 h₁, Nat.le_trans h₂ hh.2⟩

/-- After a definition on an earlier line of the block, only the last of these reaches the use. -/
theorem reachesUse_iff_of_lastLocal (h : DisjointBlocks cfg) (hone : OneStatementPerLine refs)
    (hu : blockAt cfg u.line = some b) (hd : LastLocal cfg refs u b d) :
    ReachesUse cfg refs d' u b ↔ d' = d := by
  obtain ⟨hdefs, hname, hline, hat⟩ := mem_localDefs.1 hd.1
  have howner := h.defToBlock_eq hat
  constructor
  · rintro ⟨hdefs', hname', hlocal | ⟨-, hbefore, -⟩⟩
    · obtain ⟨-, hline', hbetween⟩ := hlocal
      have hle : d.2.line ≤ d'.2.line := by
        by_contra hlt
        exact hbetween ⟨d, hdefs, howner, hname, Nat.lt_of_not_le hlt, hline⟩
      have hat' := h.blockAt_between hat hu hle (Nat.le_of_lt hline')
      have hmax := hd.2 d' (mem_localDefs.2 ⟨hdefs', hname', hline', hat'⟩)
      exact hone d' hdefs' d hdefs (hname'.trans hname.symm) (Nat.le_antisymm hmax hle)
    · exact absurd ⟨d, hdefs, howner, hname, hline⟩ hbefore
  · rintro rfl
    refine ⟨hdefs, hname, .inl ⟨howner, hline, ?_⟩⟩
    rintro ⟨e, he, -, hename, hlow, hhigh⟩
    have hate := h.blockAt_between hat hu (Nat.le_of_lt hlow) (Nat.le_of_lt hhigh)
    have hle := hd.2 e (mem_localDefs.2 ⟨he, hename, hhigh, hate⟩)
    omega

/-! ## The chains -/

/-- The definition gets to the block along a path that 100 rounds over the listed blocks follow: it
is the last in the list of its block's, and no block on the way defines its variable. -/
def FoundToReach (cfg : CfgInfo) (refs : List VarRef) (d : DefId × VarRef) (b : Nat) : Prop :=
  ∃ l, ReachesAlong cfg refs d l b ∧ l ++ [b] <+ (List.replicate 100 cfg.blockIds).flatten

theorem mem_reachingIn_self (hd : d ∈ defsOf refs) :
    d.1 ∈ (computeReachingDefinitions cfg refs).reachingIn b ↔ FoundToReach cfg refs d b := by
  rw [mem_reachingIn]
  constructor
  · rintro ⟨d', l, hid, hreach, hsub⟩
    obtain rfl := defsOf_inj hreach.1.1 hd hid
    exact ⟨l, hreach, hsub⟩
  · rintro ⟨l, hreach, hsub⟩
    exact ⟨d, l, rfl, hreach, hsub⟩

theorem mem_chain_iff {reaching : ReachingDefinitions} (hu : u ∈ refs) (huse : u.refType = .use)
    (hb : blockAt cfg u.line = some b) {D : Definition} :
    (∃ chain ∈ buildUseDefChains reaching cfg refs, chain.useSite = useOf u b ∧
      chain.var = u.name ∧ D ∈ chain.reachingDefs) ↔
    ∃ d ∈ defsOf refs, d.2.name = u.name ∧
      sees (listLast cfg refs u b) (reaching.reachingIn b) d.1 ∧ D = definitionOf cfg d.2 := by
  constructor
  · rintro ⟨chain, hchain, hsite, hvar, hD⟩
    obtain ⟨u', -, -, b', -, rfl⟩ := mem_buildUseDefChains.1 hchain
    simp only [useOf, Use.mk.injEq] at hsite
    obtain ⟨hline, -, rfl⟩ := hsite
    dsimp only at hvar hD
    have hlast : listLast cfg refs u' b' = listLast cfg refs u b' := by
      unfold listLast localDefs
      rw [hvar, hline]
    rw [hlast, hvar] at hD
    obtain ⟨d, hd, rfl⟩ := List.mem_map.1 hD
    simp only [List.mem_filter, decide_eq_true_eq] at hd
    exact ⟨d, hd.1.1, hd.1.2, hd.2, rfl⟩
  · rintro ⟨d, hd, hname, hsees, rfl⟩
    refine ⟨_, mem_buildUseDefChains.2 ⟨u, hu, huse, b, hb, rfl⟩, rfl, rfl, ?_⟩
    refine List.mem_map_of_mem (List.mem_filter.2 ⟨List.mem_filter.2 ⟨hd, ?_⟩, hsees⟩)
    simpa using hname

/-- With at most 100 blocks, definitions on the lines of blocks and references in the order of their
lines, exactly the definitions that reach a use are found. -/
theorem found_iff_reachesUse_of_length_le (hcfg : cfg.WellFormed) (hlen : cfg.blocks.length ≤ 100)
    (hblocks : DisjointBlocks cfg) (hin : ∀ d ∈ defsOf refs, blockAt cfg d.2.line ≠ none)
    (hsorted : ∀ d ∈ defsOf refs, ∀ d' ∈ defsOf refs,
      d'.1.refIndex ≤ d.1.refIndex ↔ d'.2.line ≤ d.2.line)
    (hlocal : localDefs cfg refs u b = []) (hd : d ∈ defsOf refs) (hname : d.2.name = u.name) :
    FoundToReach cfg refs d b ↔ ReachesUse cfg refs d u b := by
  have hbefore : ¬ DefinedBefore cfg refs b u.name u.line := by
    rintro ⟨e, he, howner, hename, hline⟩
    obtain ⟨b', hat⟩ := Option.ne_none_iff_exists'.1 (hin e he)
    obtain rfl : b' = b := (hblocks.defToBlock_eq hat).symm.trans howner
    have hmem := mem_localDefs.2 ⟨he, hename, hline, hat⟩
    rw [hlocal] at hmem
    cases hmem
  have hlast : LeavesBlock cfg refs d ↔ LastInBlock cfg refs d := by
    constructor
    · intro h d' hd' howner hname'
      exact (hsorted d hd d' hd').1 (h.2 d' hd' howner hname')
    · intro h
      exact ⟨hd, fun d' hd' howner hname' => (hsorted d hd d' hd').2 (h d' hd' howner hname')⟩
  rw [← mem_reachingIn_self hd, computeReachingDefinitions_exact_of_length_le hcfg hlen]
  constructor
  · rintro ⟨d', l, hid, hleaves, w, hl⟩
    obtain rfl := defsOf_inj hleaves.1 hd hid
    rw [hname] at hl
    exact ⟨hd, hname, .inr ⟨hlast.1 hleaves, hbefore, l, w, hl⟩⟩
  · rintro ⟨-, -, hlocal' | ⟨hl, -, l, w, hclear⟩⟩
    · exact absurd ⟨d, hd, hlocal'.1, hname, hlocal'.2.1⟩ hbefore
    · rw [← hname] at hclear
      exact ⟨d, l, rfl, hlast.2 hl, w, hclear⟩

/-- **The chains contain exactly the definitions that reach the uses** if and only if this is so for
the uses without an earlier definition on the lines of their block: exactly the definitions that
reach them are found within the rounds. -/
theorem useDefCorrect_iff (cfg : CfgInfo) (refs : List VarRef) (hblocks : DisjointBlocks cfg)
    (hone : OneStatementPerLine refs) : UseDefCorrect cfg refs ↔
      ∀ u ∈ refs, u.refType = .use → ∀ b, blockAt cfg u.line = some b →
        localDefs cfg refs u b = [] → ∀ d ∈ defsOf refs, d.2.name = u.name →
          (FoundToReach cfg refs d b ↔ ReachesUse cfg refs d u b) := by
  constructor
  · intro h u hu huse b hb hlocal d hd hname
    have hchain := h u hu huse b hb
    simp only [mem_chain_iff hu huse hb, listLast_eq_none.2 hlocal] at hchain
    rw [← mem_reachingIn_self hd]
    constructor
    · intro hin
      obtain ⟨d', hreach, hrec⟩ := (hchain (definitionOf cfg d.2)).1
        ⟨d, hd, hname, by simpa [sees] using hin, rfl⟩
      simp only [definitionOf, Definition.mk.injEq] at hrec
      rwa [hone d hd d' hreach.1 hrec.1 hrec.2.1]
    · intro hreach
      obtain ⟨d', hd', -, hsees, hrec⟩ := (hchain (definitionOf cfg d.2)).2 ⟨d, hreach, rfl⟩
      simp only [definitionOf, Definition.mk.injEq] at hrec
      rw [hone d hd d' hd' hrec.1 hrec.2.1]
      simpa [sees] using hsees
  · intro h u hu huse b hb D
    rw [mem_chain_iff hu huse hb]
    cases hlast : listLast cfg refs u b with
    | none =>
      have hfound := h u hu huse b hb (listLast_eq_none.1 hlast)
      constructor
      · rintro ⟨d, hd, hname, hsees, rfl⟩
        have hin : d.1 ∈ (computeReachingDefinitions cfg refs).reachingIn b := by
          simpa [sees] using hsees
        exact ⟨d, (hfound d hd hname).1 ((mem_reachingIn_self hd).1 hin), rfl⟩
      · rintro ⟨d, hreach, rfl⟩
        have hin := (mem_reachingIn_self hreach.1).2 ((hfound d hreach.1 hreach.2.1).2 hreach)
        exact ⟨d, hreach.1, hreach.2.1, by simpa [sees] using hin, rfl⟩
    | some id =>
      obtain ⟨e, rfl, he⟩ := lastLocal_of_listLast hlast
      have hedefs := mem_localDefs.1 he.1
      constructor
      · rintro ⟨d, hd, hname, hsees, rfl⟩
        have hde : d = e := defsOf_inj hd hedefs.1 (by simpa [sees] using hsees)
        exact ⟨d, (reachesUse_iff_of_lastLocal hblocks hone hb he).2 hde, rfl⟩
      · rintro ⟨d, hreach, rfl⟩
        obtain rfl := (reachesUse_iff_of_lastLocal hblocks hone hb he).1 hreach
        exact ⟨d, hreach.1, hreach.2.1, by simp [sees], rfl⟩

/-- A loop that reads and redefines its variable. -/
theorem useDefCorrect_loop : UseDefCorrect
    ⟨"f", [⟨0, 1, 1⟩, ⟨1, 2, 2⟩, ⟨2, 3, 3⟩], [⟨0, 1⟩, ⟨1, 1⟩, ⟨1, 2⟩], 0, [2]⟩
    [⟨"x", .definition, 1, 0⟩, ⟨"x", .use, 2, 8⟩, ⟨"x", .definition, 2, 4⟩, ⟨"x", .use, 3, 7⟩] := by
  have hblocks : DisjointBlocks
      ⟨"f", [⟨0, 1, 1⟩, ⟨1, 2, 2⟩, ⟨2, 3, 3⟩], [⟨0, 1⟩, ⟨1, 1⟩, ⟨1, 2⟩], 0, [2]⟩ := by
    have hapart : ∀ i j : Nat, i ≠ j → Apart ⟨i, i + 1, i + 1⟩ ⟨j, j + 1, j + 1⟩ := by
      intro i j hij
      refine ⟨hij, fun line hi hj => hij ?_⟩
      have h₁ : i + 1 = line := Nat.le_antisymm hi.1 hi.2
      have h₂ : j + 1 = line := Nat.le_antisymm hj.1 hj.2
      omega
    refine .cons ?_ (.cons ?_ (.cons (by simp) .nil))
    · simp only [List.mem_cons, List.not_mem_nil, or_false, forall_eq_or_imp, forall_eq]
      exact ⟨hapart 0 1 (by omega), hapart 0 2 (by omega)⟩
    · simp only [List.mem_cons, List.not_mem_nil, or_false, forall_eq]
      exact hapart 1 2 (by omega)
  refine (useDefCorrect_iff _ _ hblocks (by decide)).2 fun u _ _ b _ hlocal d hd hname => ?_
  exact found_iff_reachesUse_of_length_le ⟨by decide, by decide, by decide, by decide⟩ (by decide)
    hblocks (by decide) (by decide) hlocal hd hname

/-- A parameter, defined on the signature line, reaches its use in the first block, but is not in
the chain of the use. -/
theorem not_useDefCorrect_parameter : ¬ ∀ (cfg : CfgInfo) (refs : List VarRef),
    DisjointBlocks cfg → OneStatementPerLine refs → UseDefCorrect cfg refs := by
  intro h
  have hblocks : DisjointBlocks ⟨"f", [⟨0, 2, 2⟩], [], 0, [0]⟩ := .cons (by simp) .nil
  have hcorrect := h ⟨"f", [⟨0, 2, 2⟩], [], 0, [0]⟩
    [⟨"x", .definition, 1, 6⟩, ⟨"x", .use, 2, 11⟩] hblocks (by decide)
    ⟨"x", .use, 2, 11⟩ (by decide) rfl 0 (by decide) ⟨"x", 1, 6, 0⟩
  have hreach : ReachesUse ⟨"f", [⟨0, 2, 2⟩], [], 0, [0]⟩
      [⟨"x", .definition, 1, 6⟩, ⟨"x", .use, 2, 11⟩] (⟨0, 1⟩, ⟨"x", .definition, 1, 6⟩)
      ⟨"x", .use, 2, 11⟩ 0 := by
    refine ⟨by decide, rfl, .inl ⟨by decide, by decide, ?_⟩⟩
    rintro ⟨d, -, -, -, hlow, hhigh⟩
    dsimp only at hlow hhigh
    omega
  obtain ⟨chain, hchain, -, -, hD⟩ := hcorrect.2 ⟨_, hreach, by decide⟩
  have hchains : buildUseDefChains (computeReachingDefinitions ⟨"f", [⟨0, 2, 2⟩], [], 0, [0]⟩
      [⟨"x", .definition, 1, 6⟩, ⟨"x", .use, 2, 11⟩]) ⟨"f", [⟨0, 2, 2⟩], [], 0, [0]⟩
      [⟨"x", .definition, 1, 6⟩, ⟨"x", .use, 2, 11⟩] = [⟨⟨2, 11, 0⟩, "x", []⟩] := by
    decide +kernel
  rw [hchains, List.mem_singleton] at hchain
  subst hchain
  cases hD

end TldrCode.Dfg
