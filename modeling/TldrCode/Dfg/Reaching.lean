import TldrCode.Dataflow.RoundRobin
import TldrCode.Types

/-!
# Reaching definitions

`compute_reaching_definitions` of `dfg/reaching.rs` iterates over the blocks in the order they are
listed, for at most 100 rounds. `mem_reachingIn` says which definitions it finds: those that get
to a block along a path whose blocks are, in order, among 100 listings of the blocks. So it finds
all definitions that reach a block exactly if the paths they take are found within the rounds
(`computeReachingDefinitions_exact_iff`).
-/

namespace TldrCode.Dfg

open Dataflow TldrCode.Graph
open scoped List

/-! ## The computation -/

structure DefId where
  refIndex : Nat
  line : Nat
  deriving DecidableEq, Repr

/-- `ReachingDefinitions`. A block without an entry has the empty set. -/
structure ReachingDefinitions where
  reachingIn : Nat → Finset DefId
  reachingOut : Nat → Finset DefId

/-- The definitions among the references, with their ids. -/
def defsOf (refs : List VarRef) : List (DefId × VarRef) :=
  (refs.zipIdx.filter (·.1.isDef)).map fun (r, i) => (⟨i, r.line⟩, r)

/-- One block in the search for the best block over the line of `r`, with its size. -/
def betterBlock (r : VarRef) (bestBlock : Option (Nat × Nat)) (block : CfgBlock) :
    Option (Nat × Nat) :=
  if block.lines.1 ≤ r.line ∧ r.line ≤ block.lines.2 then
    let size := block.lines.2 - block.lines.1 + 1
    match bestBlock with
    | none => some (block.id, size)
    | some (best, bestSize) =>
      if bestSize < size ∨ size = bestSize ∧ best < block.id then some (block.id, size)
      else bestBlock
  else bestBlock

/-- The owning block of a definition, `def_to_block`: of the blocks over its line the largest, of
several of one size the one with the highest id; else the first block. -/
def defToBlock (cfg : CfgInfo) (r : VarRef) : Nat :=
  match cfg.blocks.foldl (betterBlock r) none with
  | some (block, _) => block
  | none => (cfg.blocks.head?.map (·.id)).getD 0

/-- The definitions that belong to the block `b`. -/
def ownDefs (cfg : CfgInfo) (refs : List VarRef) (b : Nat) : List (DefId × VarRef) :=
  (defsOf refs).filter fun d => defToBlock cfg d.2 = b

/-- The loop over the definitions of a block. It keeps the definitions found to be killed and
`last_def_for_var`. -/
def scanDefs (defs : List (DefId × VarRef)) : Finset DefId × List (String × DefId) :=
  defs.foldl (fun (blockKill, lastDefForVar) d =>
    (match lastDefForVar.lookup d.2.name with
      | some prev => insert prev blockKill
      | none => blockKill,
    (d.2.name, d.1) :: lastDefForVar.filter (·.1 != d.2.name))) (∅, [])

/-- GEN for the definitions that a block owns: the last one of each variable. -/
def genOf (refs : List VarRef) (own : VarRef → Bool) : Finset DefId :=
  ((scanDefs ((defsOf refs).filter fun d => own d.2)).2.map (·.2)).toFinset

/-- KILL for the definitions that a block owns: the other definitions of its variables. -/
def killOf (refs : List VarRef) (own : VarRef → Bool) : Finset DefId :=
  let (blockKill, lastDefForVar) := scanDefs ((defsOf refs).filter fun d => own d.2)
  blockKill ∪ (((defsOf refs).filter fun d =>
    lastDefForVar.any (·.1 == d.2.name) && !own d.2).map (·.1)).toFinset

/-- GEN of a block: the last definition of each variable. -/
def genSet (cfg : CfgInfo) (refs : List VarRef) (b : Nat) : Finset DefId :=
  ((scanDefs (ownDefs cfg refs b)).2.map (·.2)).toFinset

/-- KILL of a block: the other definitions of its variables. -/
def killSet (cfg : CfgInfo) (refs : List VarRef) (b : Nat) : Finset DefId :=
  let (blockKill, lastDefForVar) := scanDefs (ownDefs cfg refs b)
  blockKill ∪ (((defsOf refs).filter fun d =>
    lastDefForVar.any (·.1 == d.2.name) && defToBlock cfg d.2 != b).map (·.1)).toFinset

def reachingProblem (cfg : CfgInfo) (refs : List VarRef) : GenKill Nat DefId where
  preds := cfg.predecessors
  gen := genSet cfg refs
  kill := killSet cfg refs

def computeReachingDefinitions (cfg : CfgInfo) (refs : List VarRef) : ReachingDefinitions :=
  if cfg.blocks.isEmpty then ⟨fun _ => ∅, fun _ => ∅⟩
  else
    let start : Solution Nat DefId :=
      ⟨fun _ => ∅, fun b => if b ∈ cfg.blockIds then genSet cfg refs b else ∅⟩
    let maxIterations := 100
    let sol := (reachingProblem cfg refs).solve cfg.blockIds maxIterations start
    ⟨sol.before, sol.after⟩

/-- The block `b` owns a definition of `v`. -/
def Redefines (cfg : CfgInfo) (refs : List VarRef) (b : Nat) (v : String) : Prop :=
  ∃ d ∈ defsOf refs, defToBlock cfg d.2 = b ∧ d.2.name = v

/-- The definition `d` is the last one of its variable in its own block. -/
def LeavesBlock (cfg : CfgInfo) (refs : List VarRef) (d : DefId × VarRef) : Prop :=
  d ∈ defsOf refs ∧ ∀ d' ∈ defsOf refs, defToBlock cfg d'.2 = defToBlock cfg d.2 →
    d'.2.name = d.2.name → d'.1.refIndex ≤ d.1.refIndex

/-- `l` lists the blocks between the block of `d` and `b` on a path along which `d` reaches `b`. -/
def ReachesAlong (cfg : CfgInfo) (refs : List VarRef) (d : DefId × VarRef) (l : List Nat)
    (b : Nat) : Prop :=
  LeavesBlock cfg refs d ∧ Walk cfg.Edge (defToBlock cfg d.2) b (defToBlock cfg d.2 :: (l ++ [b])) ∧
    ∀ x ∈ l, ¬ Redefines cfg refs x d.2.name

/-- The definition `id` reaches `b`. -/
def Reaches (cfg : CfgInfo) (refs : List VarRef) (id : DefId) (b : Nat) : Prop :=
  ∃ d l, d.1 = id ∧ ReachesAlong cfg refs d l b

variable {cfg : CfgInfo} {refs : List VarRef} {d : DefId × VarRef} {id : DefId} {v : String}
  {b i : Nat} {l : List Nat}

/-! ## GEN and KILL -/

theorem mem_defsOf : d ∈ defsOf refs ↔ ∃ i r,
    refs[i]? = some r ∧ r.isDef ∧ d = (⟨i, r.line⟩, r) := by
  simp only [defsOf, List.mem_map, List.mem_filter, Prod.exists, List.mem_zipIdx_iff_getElem?]
  constructor
  · rintro ⟨r, i, ⟨hr, hd⟩, rfl⟩
    exact ⟨i, r, hr, hd, rfl⟩
  · rintro ⟨i, r, hr, hd, rfl⟩
    exact ⟨r, i, ⟨hr, hd⟩, rfl⟩

theorem defsOf_inj {d' : DefId × VarRef} (hd : d ∈ defsOf refs) (hd' : d' ∈ defsOf refs)
    (h : d.1 = d'.1) : d = d' := by
  obtain ⟨i, r, hr, -, rfl⟩ := mem_defsOf.1 hd
  obtain ⟨j, r', hr', -, rfl⟩ := mem_defsOf.1 hd'
  simp only [DefId.mk.injEq] at h
  obtain ⟨rfl, -⟩ := h
  rw [hr, Option.some_inj] at hr'
  rw [hr']

theorem pairwise_defsOf (refs : List VarRef) :
    (defsOf refs).Pairwise fun d d' => d.1.refIndex < d'.1.refIndex := by
  rw [defsOf, List.pairwise_map]
  refine List.Pairwise.filter _ ?_
  have hidx : (refs.zipIdx.map Prod.snd).Pairwise (· < ·) := by
    rw [List.zipIdx_map_snd]
    exact List.pairwise_lt_range'
  exact List.pairwise_map.1 hidx

theorem lookup_filter_ne {l : List (String × DefId)} {n v : String} (hv : v ≠ n) :
    (l.filter (·.1 != n)).lookup v = l.lookup v := by
  induction l with
  | nil => rfl
  | cons e l ih =>
    obtain ⟨w, id⟩ := e
    by_cases hw : w = n
    · subst hw
      have hvw : (v == w) = false := beq_eq_false_iff_ne.2 hv
      simp [List.lookup_cons, hvw, ih]
    · simp [List.lookup_cons, hw, ih]

/-- What `scanDefs` finds in the definitions `defs`: the last definition of each variable, and all
others. -/
theorem scanDefs_spec (defs : List (DefId × VarRef))
    (h : defs.Pairwise fun d d' => d.1.refIndex < d'.1.refIndex) :
    let state := scanDefs defs
    (∀ v id, (v, id) ∈ state.2 ↔ state.2.lookup v = some id) ∧
    (∀ v id, state.2.lookup v = some id ↔ ∃ d ∈ defs, d.1 = id ∧ d.2.name = v ∧
      ∀ d' ∈ defs, d'.2.name = v → d'.1.refIndex ≤ d.1.refIndex) ∧
    (∀ id, id ∈ state.1 ↔ ∃ d ∈ defs, d.1 = id ∧ state.2.lookup d.2.name ≠ some id) ∧
    ∀ d ∈ defs, state.2.lookup d.2.name ≠ none := by
  induction defs using List.reverseRecOn with
  | nil => simp [scanDefs]
  | append_singleton defs d ih =>
    rw [List.pairwise_append] at h
    obtain ⟨hdefs, -, hlt⟩ := h
    obtain ⟨hmem, hlast, hkill, hsome⟩ := ih hdefs
    replace hlt : ∀ e ∈ defs, e.1.refIndex < d.1.refIndex := fun e he => hlt e he d (by simp)
    have hne : ∀ e ∈ defs, e.1 ≠ d.1 := fun e he heq => (hlt e he).ne (by rw [heq])
    have hstep : scanDefs (defs ++ [d]) =
        (match (scanDefs defs).2.lookup d.2.name with
          | some prev => insert prev (scanDefs defs).1
          | none => (scanDefs defs).1,
        (d.2.name, d.1) :: (scanDefs defs).2.filter (·.1 != d.2.name)) := by
      simp [scanDefs]
    have hlookup : ∀ v, ((d.2.name, d.1) ::
        (scanDefs defs).2.filter (·.1 != d.2.name)).lookup v =
          if v = d.2.name then some d.1 else (scanDefs defs).2.lookup v := by
      intro v
      by_cases hv : v = d.2.name
      · simp [hv]
      · have hvn : (v == d.2.name) = false := beq_eq_false_iff_ne.2 hv
        simp [List.lookup_cons, hvn, hv, lookup_filter_ne hv]
    rw [hstep]
    dsimp only
    simp only [hlookup]
    refine ⟨fun v id => ?_, fun v id => ?_, fun id => ?_, fun e he => ?_⟩
    · by_cases hv : v = d.2.name
      · simp [hv, eq_comm]
      · simp [hv, hmem]
    · by_cases hv : v = d.2.name
      · rw [if_pos hv, Option.some_inj]
        constructor
        · rintro rfl
          refine ⟨d, by simp, rfl, hv.symm, fun e he _ => ?_⟩
          rcases List.mem_append.1 he with he | he
          · exact (hlt e he).le
          · rw [List.mem_singleton.1 he]
        · rintro ⟨e, he, rfl, -, hmax⟩
          rcases List.mem_append.1 he with he | he
          · exact absurd (hmax d (by simp) hv.symm) (not_le.2 (hlt e he))
          · rw [List.mem_singleton.1 he]
      · rw [if_neg hv, hlast]
        have hdv : d.2.name ≠ v := Ne.symm hv
        constructor
        · rintro ⟨e, he, hid, hev, hmax⟩
          refine ⟨e, List.mem_append_left _ he, hid, hev, fun e' he' hev' => ?_⟩
          rcases List.mem_append.1 he' with he' | he'
          · exact hmax e' he' hev'
          · exact absurd hev' (List.mem_singleton.1 he' ▸ hdv)
        · rintro ⟨e, he, hid, hev, hmax⟩
          rcases List.mem_append.1 he with he | he
          · exact ⟨e, he, hid, hev, fun e' he' => hmax e' (List.mem_append_left _ he')⟩
          · exact absurd hev (List.mem_singleton.1 he ▸ hdv)
    · have hin : (id ∈ match (scanDefs defs).2.lookup d.2.name with
          | some prev => insert prev (scanDefs defs).1
          | none => (scanDefs defs).1) ↔
            (scanDefs defs).2.lookup d.2.name = some id ∨ id ∈ (scanDefs defs).1 := by
        cases (scanDefs defs).2.lookup d.2.name <;> simp [eq_comm]
      rw [hin, hkill]
      constructor
      · rintro (hl | ⟨e, he, rfl, hl⟩)
        · obtain ⟨e, he, rfl, hev, -⟩ := (hlast _ _).1 hl
          refine ⟨e, List.mem_append_left _ he, rfl, ?_⟩
          rw [if_pos hev]
          simpa using (hne e he).symm
        · refine ⟨e, List.mem_append_left _ he, rfl, ?_⟩
          split_ifs
          · simpa using (hne e he).symm
          · exact hl
      · rintro ⟨e, he, rfl, hl⟩
        rcases List.mem_append.1 he with he | he
        · split_ifs at hl with hev
          · by_cases hold : (scanDefs defs).2.lookup e.2.name = some e.1
            · exact .inl (hev ▸ hold)
            · exact .inr ⟨e, he, rfl, hold⟩
          · exact .inr ⟨e, he, rfl, hl⟩
        · rw [List.mem_singleton.1 he] at hl
          simp at hl
    · split_ifs with hev
      · simp
      · rcases List.mem_append.1 he with he | he
        · exact hsome e he
        · exact absurd (List.mem_singleton.1 he ▸ rfl) hev

/-- A definition is the last one of its variable among those owned. -/
def LastOwned (refs : List VarRef) (own : VarRef → Bool) (d : DefId × VarRef) : Prop :=
  d ∈ defsOf refs ∧ own d.2 ∧ ∀ d' ∈ defsOf refs, own d'.2 → d'.2.name = d.2.name →
    d'.1.refIndex ≤ d.1.refIndex

/-- A definition of `v` is owned. -/
def Owns (refs : List VarRef) (own : VarRef → Bool) (v : String) : Prop :=
  ∃ d ∈ defsOf refs, own d.2 ∧ d.2.name = v

section Own

variable {own : VarRef → Bool}

theorem mem_owned : d ∈ (defsOf refs).filter (fun d => own d.2) ↔ d ∈ defsOf refs ∧ own d.2 :=
  List.mem_filter

theorem mem_genOf_iff_lookup : id ∈ genOf refs own ↔
    ∃ v, (scanDefs ((defsOf refs).filter fun d => own d.2)).2.lookup v = some id := by
  obtain ⟨hmem, -⟩ := scanDefs_spec _ ((pairwise_defsOf refs).filter fun d => own d.2)
  simp [genOf, hmem]

theorem mem_genOf : id ∈ genOf refs own ↔ ∃ d, d.1 = id ∧ LastOwned refs own d := by
  obtain ⟨-, hlast, -⟩ := scanDefs_spec _ ((pairwise_defsOf refs).filter fun d => own d.2)
  simp only [mem_genOf_iff_lookup, hlast]
  constructor
  · rintro ⟨v, d, hd, rfl, rfl, hmax⟩
    obtain ⟨hd, ho⟩ := mem_owned.1 hd
    exact ⟨d, rfl, hd, ho, fun d' hd' ho' hname => hmax d' (mem_owned.2 ⟨hd', ho'⟩) hname⟩
  · rintro ⟨d, rfl, hd, ho, hmax⟩
    refine ⟨d.2.name, d, mem_owned.2 ⟨hd, ho⟩, rfl, rfl, fun d' hd' hname => ?_⟩
    obtain ⟨hd', ho'⟩ := mem_owned.1 hd'
    exact hmax d' hd' ho' hname

theorem mem_genOf_self (hd : d ∈ defsOf refs) : d.1 ∈ genOf refs own ↔ LastOwned refs own d := by
  rw [mem_genOf]
  refine ⟨fun ⟨e, he, hl⟩ => ?_, fun hl => ⟨d, rfl, hl⟩⟩
  rwa [← defsOf_inj hl.1 hd he]

/-- A block kills the definitions of its variables that it does not generate. -/
theorem mem_killOf (hd : d ∈ defsOf refs) :
    d.1 ∈ killOf refs own ↔ Owns refs own d.2.name ∧ ¬ LastOwned refs own d := by
  obtain ⟨hmem, hlast, hkill, hsome⟩ :=
    scanDefs_spec _ ((pairwise_defsOf refs).filter fun d => own d.2)
  have hgen : (LastOwned refs own d ↔
      (scanDefs ((defsOf refs).filter fun d => own d.2)).2.lookup d.2.name = some d.1) := by
    rw [← mem_genOf_self hd, mem_genOf_iff_lookup]
    refine ⟨fun ⟨v, hv⟩ => ?_, fun hl => ⟨_, hl⟩⟩
    obtain ⟨e, he, heq, rfl, -⟩ := (hlast _ _).1 hv
    rw [defsOf_inj (mem_owned.1 he).1 hd heq] at hv
    exact hv
  have hscan : d.1 ∈ (scanDefs ((defsOf refs).filter fun d => own d.2)).1 ↔
      own d.2 ∧ ¬ LastOwned refs own d := by
    rw [hkill, hgen]
    constructor
    · rintro ⟨e, he, heq, hl⟩
      obtain ⟨he, ho⟩ := mem_owned.1 he
      obtain rfl := defsOf_inj he hd heq
      exact ⟨ho, hl⟩
    · exact fun ⟨ho, hl⟩ => ⟨d, mem_owned.2 ⟨hd, ho⟩, rfl, hl⟩
  have hany : (scanDefs ((defsOf refs).filter fun d => own d.2)).2.any (·.1 == d.2.name) ↔
      Owns refs own d.2.name := by
    simp only [List.any_eq_true, Prod.exists, beq_iff_eq]
    constructor
    · rintro ⟨v, id, hv, rfl⟩
      obtain ⟨e, he, -, hev, -⟩ := (hlast _ _).1 ((hmem _ _).1 hv)
      obtain ⟨he, ho⟩ := mem_owned.1 he
      exact ⟨e, he, ho, hev⟩
    · rintro ⟨e, he, ho, hev⟩
      obtain ⟨id, hid⟩ := Option.ne_none_iff_exists'.1 (hsome e (mem_owned.2 ⟨he, ho⟩))
      exact ⟨_, id, (hmem _ _).2 hid, hev⟩
  have hother : d.1 ∈ (((defsOf refs).filter fun e =>
      (scanDefs ((defsOf refs).filter fun d => own d.2)).2.any (·.1 == e.2.name) &&
        !own e.2).map (·.1)).toFinset ↔ Owns refs own d.2.name ∧ ¬ own d.2 := by
    rw [← hany]
    simp only [List.mem_toFinset, List.mem_map, List.mem_filter, Bool.and_eq_true,
      Bool.not_eq_true',
      Bool.not_eq_true]
    constructor
    · rintro ⟨e, ⟨he, hk⟩, heq⟩
      rwa [← defsOf_inj he hd heq]
    · exact fun hk => ⟨d, ⟨hd, hk⟩, rfl⟩
  rw [killOf, Finset.mem_union, hscan, hother]
  by_cases ho : own d.2
  · have howns : Owns refs own d.2.name := ⟨d, hd, ho, rfl⟩
    simp [ho, howns]
  · have hlast : ¬ LastOwned refs own d := fun hl => ho hl.2.1
    simp [ho, hlast]

end Own

theorem mem_genSet (hd : d ∈ defsOf refs) :
    d.1 ∈ genSet cfg refs b ↔ defToBlock cfg d.2 = b ∧ LeavesBlock cfg refs d := by
  have hgen : genSet cfg refs b = genOf refs fun r => defToBlock cfg r = b := rfl
  rw [hgen, mem_genOf_self hd]
  simp only [LastOwned, LeavesBlock, decide_eq_true_eq]
  constructor
  · rintro ⟨hd, rfl, hmax⟩
    exact ⟨rfl, hd, hmax⟩
  · rintro ⟨rfl, hd, hmax⟩
    exact ⟨hd, rfl, hmax⟩

/-- A block kills the definitions of its variables that it does not generate. -/
theorem mem_killSet (hd : d ∈ defsOf refs) : d.1 ∈ killSet cfg refs b ↔
    Redefines cfg refs b d.2.name ∧ d.1 ∉ genSet cfg refs b := by
  have hkill : killSet cfg refs b = killOf refs fun r => defToBlock cfg r = b := rfl
  have hgen : genSet cfg refs b = genOf refs fun r => defToBlock cfg r = b := rfl
  rw [hkill, hgen, mem_killOf hd, mem_genOf_self hd]
  simp only [Owns, Redefines, decide_eq_true_eq]

/-! ## Paths -/

theorem exists_def_of_mem_genSet (h : id ∈ genSet cfg refs b) : ∃ d ∈ defsOf refs, d.1 = id := by
  have hgen : genSet cfg refs b = genOf refs fun r => defToBlock cfg r = b := rfl
  obtain ⟨d, hid, hl⟩ := mem_genOf.1 (hgen ▸ h)
  exact ⟨d, hl.1, hid⟩

theorem reachingProblem_edge : (reachingProblem cfg refs).Edge = cfg.Edge := by
  funext a b
  exact propext CfgInfo.mem_predecessors

theorem defToBlock_mem (h : cfg.blocks ≠ []) (r : VarRef) : defToBlock cfg r ∈ cfg.blockIds := by
  have key : ∀ (blocks : List CfgBlock) (best : Option (Nat × Nat)),
      (∀ p, best = some p → p.1 ∈ cfg.blockIds) → (∀ block ∈ blocks, block.id ∈ cfg.blockIds) →
      ∀ p, blocks.foldl (betterBlock r) best = some p → p.1 ∈ cfg.blockIds := by
    intro blocks
    induction blocks with
    | nil => exact fun best hbest _ => hbest
    | cons block blocks ih =>
      intro best hbest hblocks
      refine ih _ (fun p hp => ?_) fun x hx => hblocks x (List.mem_cons_of_mem _ hx)
      have hmem := hblocks block List.mem_cons_self
      rw [betterBlock] at hp
      split_ifs at hp
      · cases best with
        | none =>
          obtain rfl := Option.some_inj.1 hp
          exact hmem
        | some q =>
          dsimp only at hp
          split_ifs at hp
          · obtain rfl := Option.some_inj.1 hp
            exact hmem
          · exact hbest p hp
      · exact hbest p hp
  rw [defToBlock]
  split
  · rename_i block size heq
    exact key cfg.blocks none (by simp) (fun block hb => List.mem_map_of_mem hb) _ heq
  · cases hb : cfg.blocks with
    | nil => exact absurd hb h
    | cons block blocks => simp [CfgInfo.blockIds, hb]

/-- **What `computeReachingDefinitions` finds**: the definitions that reach a block along a path
whose blocks are found, in order, in 100 listings of the blocks. -/
theorem mem_reachingIn : id ∈ (computeReachingDefinitions cfg refs).reachingIn b ↔
    ∃ d l, d.1 = id ∧ ReachesAlong cfg refs d l b ∧
      l ++ [b] <+ (List.replicate 100 cfg.blockIds).flatten := by
  by_cases hne : cfg.blocks.isEmpty
  · have hnil : cfg.blockIds = [] := by
      rw [CfgInfo.blockIds, List.isEmpty_iff.1 hne, List.map_nil]
    simp only [computeReachingDefinitions, hne, ↓reduceIte, Finset.notMem_empty, hnil, false_iff]
    rintro ⟨d, l, -, -, hl⟩
    simp at hl
  obtain ⟨S, hS⟩ : ∃ S, S = (List.replicate 100 cfg.blockIds).flatten := ⟨_, rfl⟩
  rw [← hS]
  obtain ⟨start, hstart⟩ : ∃ start : Solution Nat DefId, start = ⟨fun _ => ∅,
    fun b => if b ∈ cfg.blockIds then genSet cfg refs b else ∅⟩ := ⟨_, rfl⟩
  have hinit : ∀ b, start.after b ⊆ (reachingProblem cfg refs).gen b := by
    intro b
    rw [hstart]
    dsimp only
    split_ifs
    · exact subset_rfl
    · exact Finset.empty_subset _
  have hrun : (computeReachingDefinitions cfg refs).reachingIn =
      ((reachingProblem cfg refs).run S start).before := by
    rw [computeReachingDefinitions, if_neg hne, hS, hstart, ← GenKill.solve_eq_run]
  rw [hrun, (GenKill.mem_run hinit (fun b => by rw [hstart]) S b).2, reachingProblem_edge]
  constructor
  · rintro ⟨a, l, w, hl, hs⟩
    have hgen : id ∈ genSet cfg refs a := hs.elim (fun h => hinit a h.1) And.left
    obtain ⟨d, hd, rfl⟩ := exists_def_of_mem_genSet hgen
    obtain ⟨rfl, hleaves⟩ := (mem_genSet hd).1 hgen
    -- a path that comes back to the block of the definition starts there again
    obtain ⟨l₁, a, l₂, heq, rfl, hlast⟩ := exists_last_of_mem
      (p := (· = defToBlock cfg d.2)) (List.mem_cons_self (l := l)) rfl
    have hsub : l₂ <+ l := by
      refine List.Sublist.of_cons_cons (a := defToBlock cfg d.2) (b := defToBlock cfg d.2) ?_
      rw [heq]
      exact List.sublist_append_right _ _
    refine ⟨d, l₂, rfl, ⟨hleaves, ?_, fun x hx hredef => ?_⟩, ?_⟩
    · rw [← List.cons_append, heq, List.append_assoc] at w
      exact (Walk.split_iff.1 w).2
    · refine hl x (hsub.subset hx) ((mem_killSet hd).2 ⟨hredef, fun hx' => ?_⟩)
      exact hlast x hx ((mem_genSet hd).1 hx').1.symm
    · refine (hsub.append (.refl [b])).trans (hs.elim And.right fun h => ?_)
      exact (List.sublist_cons_self _ _).trans h.2
  · rintro ⟨d, l, rfl, ⟨hleaves, w, hl⟩, hsub⟩
    refine ⟨defToBlock cfg d.2, l, w, fun x hx hk => ?_, .inl ⟨?_, hsub⟩⟩
    · exact hl x hx ((mem_killSet hleaves.1).1 hk).1
    · rw [hstart]
      dsimp only
      rw [if_pos (defToBlock_mem (by simpa using hne) _)]
      exact (mem_genSet hleaves.1).2 ⟨rfl, hleaves⟩

/-- **All definitions that reach a block are found** exactly if each does along some path whose
blocks are found, in order, in 100 listings of the blocks. -/
theorem computeReachingDefinitions_exact_iff (cfg : CfgInfo) (refs : List VarRef) :
    (∀ b ∈ cfg.blockIds, ∀ id,
      id ∈ (computeReachingDefinitions cfg refs).reachingIn b ↔ Reaches cfg refs id b) ↔
    ∀ b ∈ cfg.blockIds, ∀ id, Reaches cfg refs id b → ∃ d l, d.1 = id ∧
      ReachesAlong cfg refs d l b ∧ l ++ [b] <+ (List.replicate 100 cfg.blockIds).flatten := by
  refine forall_congr' fun b => forall_congr' fun _ => forall_congr' fun id => ?_
  rw [mem_reachingIn]
  refine ⟨And.right ∘ iff_def.1, fun h => ⟨?_, h⟩⟩
  rintro ⟨d, l, hid, hd, -⟩
  exact ⟨d, l, hid, hd⟩

theorem computeReachingDefinitions_exact_of_length_le (hcfg : cfg.WellFormed)
    (hlen : cfg.blocks.length ≤ 100) :
    id ∈ (computeReachingDefinitions cfg refs).reachingIn b ↔ Reaches cfg refs id b := by
  rw [mem_reachingIn]
  constructor
  · rintro ⟨d, l, hid, hd, -⟩
    exact ⟨d, l, hid, hd⟩
  · rintro ⟨d, l, rfl, hleaves, w, hl⟩
    have hne : cfg.blocks ≠ [] := by
      rintro hnil
      have := hcfg.entry_mem
      rw [CfgInfo.blockIds, hnil] at this
      cases this
    have hids : ∀ x ∈ l ++ [b], x ∈ cfg.blockIds := fun x hx =>
      hcfg.reach_mem (defToBlock_mem hne d.2) (w.reach_of_mem (List.mem_cons_of_mem _ hx))
    have hlen' : cfg.blockIds.length ≤ 100 := by rwa [CfgInfo.blockIds, List.length_map]
    obtain ⟨l', w', hl', hsub⟩ := GenKill.exists_scheduled_walk w hids (fun _ hx => hx) hlen'
    exact ⟨d, l', rfl, ⟨hleaves, w', fun x hx => hl x (hl' x hx)⟩, hsub⟩

/-! ## A chain of blocks listed from its end -/

/-- A chain of `n` blocks, numbered from its end, whose start defines `x`. -/
def reverseChain (n : Nat) : CfgInfo where
  function := "f"
  blocks := (List.range n).map fun i => ⟨i, (i + 1, i + 1)⟩
  edges := (List.range (n - 1)).map fun i => ⟨i + 1, i⟩
  entryBlock := n - 1
  exitBlocks := [0]

def chainRefs (n : Nat) : List VarRef := [⟨"x", .definition, n, 0⟩]

theorem chainRefs_defs (n : Nat) :
    defsOf (chainRefs n) = [(⟨0, n⟩, ⟨"x", .definition, n, 0⟩)] := rfl

theorem reverseChain_blockIds (n : Nat) : (reverseChain n).blockIds = List.range n := by
  simp [reverseChain, CfgInfo.blockIds, Function.comp_def]

theorem reverseChain_wellFormed {n : Nat} (hn : 0 < n) : (reverseChain n).WellFormed := by
  refine ⟨?_, ?_, ?_, ?_⟩ <;> rw [reverseChain_blockIds]
  · exact List.nodup_range
  · exact List.mem_range.2 (Nat.sub_lt hn Nat.one_pos)
  · simp only [reverseChain, List.mem_map, List.mem_range]
    rintro e ⟨i, hi, rfl⟩
    exact (by omega : i + 1 < n)
  · simp only [reverseChain, List.mem_map, List.mem_range]
    rintro e ⟨i, hi, rfl⟩
    exact (by omega : i < n)

theorem reverseChain_edge {n a b : Nat} :
    (reverseChain n).Edge a b ↔ a = b + 1 ∧ b < n - 1 := by
  simp only [reverseChain, CfgInfo.Edge, List.mem_map, List.mem_range]
  constructor
  · rintro ⟨e, ⟨i, hi, rfl⟩, rfl, rfl⟩
    exact ⟨rfl, hi⟩
  · rintro ⟨rfl, hb⟩
    exact ⟨_, ⟨b, hb, rfl⟩, rfl, rfl⟩

theorem reverseChain_walk {n : Nat} : ∀ k < n,
    Walk (reverseChain n).Edge k 0 (List.range (k + 1)).reverse := by
  intro k
  induction k with
  | zero => exact fun _ => .single 0
  | succ k ih =>
    intro hk
    rw [List.range_succ, List.reverse_append]
    exact (ih (by omega)).cons (reverseChain_edge.2 ⟨rfl, by omega⟩)

theorem reverseChain_length {n a b : Nat} : ∀ l, Walk (reverseChain n).Edge a b (a :: l) →
    (a :: l).Pairwise (· > ·) ∧ a = b + l.length := by
  intro l
  induction l generalizing a with
  | nil =>
    intro w
    exact ⟨List.pairwise_singleton _ _, by simpa using w.last⟩
  | cons x l ih =>
    intro w
    obtain ⟨he, -⟩ := reverseChain_edge.1 (List.isChain_cons_cons.1 w.chain).1
    have w' : Walk (reverseChain n).Edge a b ([a] ++ x :: l) := w
    obtain ⟨hpw, hlen⟩ := ih (Walk.split_iff.1 w').2
    refine ⟨List.pairwise_cons.2 ⟨fun y hy => ?_, hpw⟩, by simp; omega⟩
    rcases List.mem_cons.1 hy with rfl | hy
    · omega
    · have := (List.pairwise_cons.1 hpw).1 y hy
      omega

theorem length_le_rounds {nodes : List Nat} (hnodes : nodes.Pairwise (· < ·)) : ∀ n l,
    l.Pairwise (· > ·) → l <+ (List.replicate n nodes).flatten → l.length ≤ n := by
  intro n
  induction n with
  | zero =>
    intro l _ hl
    obtain rfl : l = [] := by simpa using hl
    exact le_rfl
  | succ n ih =>
    intro l hpw hl
    rw [List.replicate_succ, List.flatten_cons, List.sublist_append_iff] at hl
    obtain ⟨l₁, l₂, rfl, h₁, h₂⟩ := hl
    rw [List.pairwise_append] at hpw
    have hone : l₁.length ≤ 1 := by
      match l₁, hpw.1, hnodes.sublist h₁ with
      | [], _, _ => exact Nat.zero_le _
      | [x], _, _ => exact le_rfl
      | x :: y :: l₁, hgt, hlt =>
        have h₁ := (List.pairwise_cons.1 hgt).1 y List.mem_cons_self
        have h₂ := (List.pairwise_cons.1 hlt).1 y List.mem_cons_self
        omega
    rw [List.length_append]
    have := ih l₂ hpw.2.1 h₂
    omega

theorem reaches_reverseChain {n : Nat} (hn : 1 < n)
    (howner : defToBlock (reverseChain n) ⟨"x", .definition, n, 0⟩ = n - 1) :
    Reaches (reverseChain n) (chainRefs n) ⟨0, n⟩ 0 := by
  refine ⟨(⟨0, n⟩, ⟨"x", .definition, n, 0⟩), (List.range' 1 (n - 2)).reverse, rfl,
    ⟨by simp [chainRefs_defs], by simp [chainRefs_defs]⟩, ?_, fun x hx => ?_⟩
  · obtain ⟨m, rfl⟩ := Nat.exists_eq_add_of_le' hn
    have hw := reverseChain_walk (n := m + 2) (m + 1) (by omega)
    rw [howner]
    have hlist : (List.range (m + 1 + 1)).reverse =
        (m + 1) :: ((List.range' 1 m).reverse ++ [0]) := by
      rw [List.range_eq_range', List.range'_succ, Nat.zero_add, List.range'_1_concat,
        Nat.add_comm 1 m]
      simp
    rw [hlist] at hw
    exact hw
  · rw [List.mem_reverse, List.mem_range'_1] at hx
    rintro ⟨d, hd, hb, -⟩
    rw [chainRefs_defs, List.mem_singleton] at hd
    subst hd
    rw [howner] at hb
    omega

/-- From 102 blocks on, the definition at the start of a chain is not found to reach its end. -/
theorem reverseChain_missed {n : Nat} (hn : 102 ≤ n)
    (howner : defToBlock (reverseChain n) ⟨"x", .definition, n, 0⟩ = n - 1) :
    ¬ ∀ b ∈ (reverseChain n).blockIds, ∀ id,
      id ∈ (computeReachingDefinitions (reverseChain n) (chainRefs n)).reachingIn b ↔
        Reaches (reverseChain n) (chainRefs n) id b := by
  intro hall
  have hmem : 0 ∈ (reverseChain n).blockIds := by
    rw [reverseChain_blockIds, List.mem_range]
    omega
  have hfound := (hall 0 hmem ⟨0, n⟩).2 (reaches_reverseChain (by omega) howner)
  obtain ⟨d, l, -, ⟨hleaves, w, -⟩, hsub⟩ := mem_reachingIn.1 hfound
  have hd := hleaves.1
  rw [chainRefs_defs, List.mem_singleton] at hd
  subst hd
  rw [howner] at w
  obtain ⟨hpw, hlen⟩ := reverseChain_length _ w
  have hnodes : (reverseChain n).blockIds.Pairwise (· < ·) := by
    rw [reverseChain_blockIds]
    exact List.pairwise_lt_range
  have := length_le_rounds hnodes 100 _ (List.pairwise_cons.1 hpw).2 hsub
  omega

/-- On a chain of 102 blocks, listed from its end, a definition that reaches the end is missed. -/
theorem computeReachingDefinitions_chain_missed : (reverseChain 102).WellFormed ∧
    ¬ ∀ b ∈ (reverseChain 102).blockIds, ∀ id,
      id ∈ (computeReachingDefinitions (reverseChain 102) (chainRefs 102)).reachingIn b ↔
        Reaches (reverseChain 102) (chainRefs 102) id b :=
  ⟨reverseChain_wellFormed (by omega), reverseChain_missed le_rfl (by decide +kernel)⟩

end TldrCode.Dfg
