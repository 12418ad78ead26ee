import TldrCode.Dataflow.RoundRobin
import TldrCode.Types
import Mathlib.Data.List.Sort

/-!
# Live variables

`compute_live_variables` of `ssa/analysis.rs` iterates backwards over the blocks, for a number of
rounds that grows with the number of blocks, which is always enough: `computeLiveVariables_exact`
gives the variables live at the start of a block in terms of paths, whatever the graph.
-/

namespace TldrCode.Ssa

open Dataflow TldrCode.Graph
open scoped List

/-! ## The computation -/

structure LiveSets where
  liveIn : Finset String
  liveOut : Finset String

structure LiveVariables where
  function : String
  blocks : Nat → Option LiveSets

def LiveVariables.isLiveIn (liveVars : LiveVariables) (block : Nat) (var : String) : Bool :=
  ((liveVars.blocks block).map fun sets => decide (var ∈ sets.liveIn)).getD false

def LiveVariables.isLiveOut (liveVars : LiveVariables) (block : Nat) (var : String) : Bool :=
  ((liveVars.blocks block).map fun sets => decide (var ∈ sets.liveOut)).getD false

/-- The references on the lines of a block, sorted by line only. -/
def refsByLine (cfg : CfgInfo) (refs : List VarRef) (b : Nat) : List VarRef :=
  (refs.filter fun r => lineToBlock cfg r.line == some b).insertionSort fun r s => r.line ≤ s.line

/-- One reference in the computation of USE and DEF. -/
def useDefStep (sets : Finset String × Finset String) (r : VarRef) :
    Finset String × Finset String :=
  match r.refType with
  | .use => (if r.name ∈ sets.2 then sets.1 else insert r.name sets.1, sets.2)
  | .definition => (sets.1, insert r.name sets.2)
  | .update =>
    (if r.name ∈ sets.2 then sets.1 else insert r.name sets.1, insert r.name sets.2)

def useDefSets (cfg : CfgInfo) (refs : List VarRef) (b : Nat) : Finset String × Finset String :=
  (refsByLine cfg refs b).foldl useDefStep (∅, ∅)

/-- The equations that are iterated: facts flow from a block to its predecessors. -/
def livenessProblem (cfg : CfgInfo) (refs : List VarRef) : GenKill Nat String where
  preds := cfg.successors
  gen b := (useDefSets cfg refs b).1
  kill b := (useDefSets cfg refs b).2

/-- `compute_live_variables`, which never fails. -/
def computeLiveVariables (cfg : CfgInfo) (refs : List VarRef) : LiveVariables :=
  let maxIterations := cfg.blocks.length * 2 + 10
  let sol := (livenessProblem cfg refs).solve cfg.blockIds.reverse maxIterations
    ⟨fun _ => ∅, fun _ => ∅⟩
  { function := cfg.function
    blocks := fun b =>
      if b ∈ cfg.blockIds then some { liveIn := sol.after b, liveOut := sol.before b } else none }

/-! ## What it computes -/

/-- In the order of the lines, `v` is used in `c` before it is defined there. -/
def UsedFirst (cfg : CfgInfo) (refs : List VarRef) (v : String) (c : Nat) : Prop :=
  ∃ l₁ r l₂, refsByLine cfg refs c = l₁ ++ r :: l₂ ∧ r.name = v ∧ r.refType ≠ .definition ∧
    ∀ r' ∈ l₁, r'.name = v → ¬ r'.isDef

/-- A definition of `v` is on a line of `c`. -/
def DefinedOnLine (cfg : CfgInfo) (refs : List VarRef) (v : String) (c : Nat) : Prop :=
  ∃ r ∈ refs, r.isDef ∧ r.name = v ∧ lineToBlock cfg r.line = some c

/-- A path leads from the start of `b` to a block that uses `v` first, through blocks that do not
define it. -/
def LiveOnLines (cfg : CfgInfo) (refs : List VarRef) (v : String) (b : Nat) : Prop :=
  ∃ c l, Walk cfg.Edge b c (l ++ [c]) ∧ (∀ x ∈ l, ¬ DefinedOnLine cfg refs v x) ∧
    UsedFirst cfg refs v c

variable {cfg : CfgInfo} {refs : List VarRef} {v : String} {b c : Nat} {S : List Nat}

theorem useDefStep_foldl (l : List VarRef) :
    (v ∈ (l.foldl useDefStep (∅, ∅)).1 ↔ ∃ l₁ r l₂, l = l₁ ++ r :: l₂ ∧ r.name = v ∧
      r.refType ≠ .definition ∧ ∀ r' ∈ l₁, r'.name = v → ¬ r'.isDef) ∧
    (v ∈ (l.foldl useDefStep (∅, ∅)).2 ↔ ∃ r ∈ l, r.isDef ∧ r.name = v) := by
  induction l using List.reverseRecOn with
  | nil => simp
  | append_singleton l r ih =>
    obtain ⟨huse, hdef⟩ := ih
    rw [List.foldl_append, List.foldl_cons, List.foldl_nil]
    -- a first use is in the part before, or it is the last reference
    have hsplit : (∃ l₁ s l₂, l ++ [r] = l₁ ++ s :: l₂ ∧ s.name = v ∧ s.refType ≠ .definition ∧
        ∀ r' ∈ l₁, r'.name = v → ¬ r'.isDef) ↔
        v ∈ (l.foldl useDefStep (∅, ∅)).1 ∨ r.name = v ∧ r.refType ≠ .definition ∧
          v ∉ (l.foldl useDefStep (∅, ∅)).2 := by
      rw [huse, hdef]
      constructor
      · rintro ⟨l₁, s, l₂, heq, hs⟩
        rcases List.eq_nil_or_concat' l₂ with rfl | ⟨l₂, t, rfl⟩
        · obtain ⟨rfl, he⟩ := List.append_inj' heq rfl
          obtain rfl : r = s := by simpa using he
          refine .inr ⟨hs.1, hs.2.1, ?_⟩
          rintro ⟨r', hr', hd, hn⟩
          exact hs.2.2 r' hr' hn hd
        · rw [← List.cons_append, ← List.append_assoc] at heq
          obtain ⟨rfl, -⟩ := List.append_inj' heq rfl
          exact .inl ⟨l₁, s, l₂, rfl, hs⟩
      · rintro (⟨l₁, s, l₂, rfl, hs⟩ | ⟨hn, hr, hd⟩)
        · exact ⟨l₁, s, l₂ ++ [r], by simp, hs⟩
        · exact ⟨l, r, [], rfl, hn, hr, fun r' hr' hn' hd' => hd ⟨r', hr', hd', hn'⟩⟩
    rw [hsplit]
    simp only [List.mem_append, List.mem_singleton, or_and_right, exists_or, ← hdef,
      exists_eq_left]
    cases hr : r.refType with
    | use =>
      have hnd : r.isDef = false := by simp [VarRef.isDef, hr]
      simp only [useDefStep, hr, hnd]
      split_ifs with hmem
      · refine ⟨?_, by simp⟩
        by_cases hv : r.name = v
        · subst hv
          simp [hmem]
        · simp [hv]
      · refine ⟨?_, by simp⟩
        by_cases hv : r.name = v
        · subst hv
          simp [hmem]
        · simp [hv, Ne.symm hv]
    | definition =>
      have hd : r.isDef = true := by simp [VarRef.isDef, hr]
      simp [useDefStep, hr, hd, eq_comm, or_comm]
    | update =>
      have hd : r.isDef = true := by simp [VarRef.isDef, hr]
      simp only [useDefStep, hr, hd]
      split_ifs with hmem
      · refine ⟨?_, by simp [eq_comm, or_comm]⟩
        by_cases hv : r.name = v
        · subst hv
          simp [hmem]
        · simp [hv]
      · refine ⟨?_, by simp [eq_comm, or_comm]⟩
        by_cases hv : r.name = v
        · subst hv
          simp [hmem]
        · simp [hv, Ne.symm hv]

theorem mem_useSet : v ∈ (useDefSets cfg refs b).1 ↔ UsedFirst cfg refs v b :=
  (useDefStep_foldl _).1

theorem mem_defSet : v ∈ (useDefSets cfg refs b).2 ↔ DefinedOnLine cfg refs v b := by
  rw [useDefSets, (useDefStep_foldl _).2]
  simp only [refsByLine, List.mem_insertionSort, List.mem_filter, beq_iff_eq, DefinedOnLine]
  constructor
  · rintro ⟨r, ⟨hr, hb⟩, hd, hn⟩
    exact ⟨r, hr, hd, hn, hb⟩
  · rintro ⟨r, hr, hd, hn, hb⟩
    exact ⟨r, ⟨hr, hb⟩, hd, hn⟩

/-- As `LiveOnLines`, along the blocks of the graph only. -/
def LiveOnBlocks (cfg : CfgInfo) (refs : List VarRef) (v : String) (b : Nat) : Prop :=
  ∃ c l, Walk cfg.Edge b c (l ++ [c]) ∧ (∀ x ∈ l ++ [c], x ∈ cfg.blockIds) ∧
    (∀ x ∈ l, ¬ DefinedOnLine cfg refs v x) ∧ UsedFirst cfg refs v c

theorem LiveOnBlocks.mem (h : LiveOnBlocks cfg refs v b) : b ∈ cfg.blockIds := by
  obtain ⟨c, l, w, hmem, -⟩ := h
  exact hmem b w.head_mem

theorem liveOnBlocks_iff (hcfg : cfg.WellFormed) (hb : b ∈ cfg.blockIds) :
    LiveOnBlocks cfg refs v b ↔ LiveOnLines cfg refs v b := by
  constructor
  · rintro ⟨c, l, w, -, hl⟩
    exact ⟨c, l, w, hl⟩
  · rintro ⟨c, l, w, hl⟩
    exact ⟨c, l, w, fun x hx => hcfg.reach_mem hb (w.reach_of_mem hx), hl⟩

/-! ## Rounds -/

def noneLive : Solution Nat String := ⟨fun _ => ∅, fun _ => ∅⟩

def backwardRounds (cfg : CfgInfo) (rounds : Nat) : List Nat :=
  (List.replicate rounds cfg.blockIds.reverse).flatten

theorem mem_backwardRounds {rounds : Nat} (hb : b ∈ backwardRounds cfg rounds) :
    b ∈ cfg.blockIds := by
  obtain ⟨ids, hids, hb⟩ := List.mem_flatten.1 hb
  rw [List.eq_of_mem_replicate hids] at hb
  exact List.mem_reverse.1 hb

theorem backwardRounds_sublist {m n : Nat} (h : m ≤ n) :
    backwardRounds cfg m <+ backwardRounds cfg n := by
  obtain ⟨k, rfl⟩ := Nat.exists_eq_add_of_le h
  rw [backwardRounds, backwardRounds, List.replicate_add, List.flatten_append]
  exact List.sublist_append_left _ _

theorem livenessProblem_edge :
    (livenessProblem cfg refs).Edge = fun x y => cfg.Edge y x := by
  funext x y
  exact propext CfgInfo.mem_successors

/-- A path without detours is in as many rounds as there are blocks, from its end to its start. -/
theorem LiveOnBlocks.scheduled (h : LiveOnBlocks cfg refs v b) :
    ∃ c l, Walk (livenessProblem cfg refs).Edge c b (c :: l) ∧
      (∀ x ∈ l, v ∉ (livenessProblem cfg refs).kill x) ∧ v ∈ (livenessProblem cfg refs).gen c ∧
        c :: l <+ backwardRounds cfg cfg.blocks.length := by
  obtain ⟨c, l, w, hmem, hl, huse⟩ := h
  obtain ⟨l', w', hn, hsub⟩ := w.exists_nodup
  obtain ⟨l', rfl⟩ := w'.eq_concat
  have hw := Walk.reverse_iff.2 w'
  rw [List.reverse_append, List.reverse_singleton, List.singleton_append] at hw
  rw [livenessProblem_edge]
  refine ⟨c, l'.reverse, hw, fun x hx hd => ?_, mem_useSet.2 huse, ?_⟩
  · rw [List.mem_reverse] at hx
    have hxc : x ≠ c := fun he => (List.nodup_append.1 hn).2.2 x hx c (by simp) he
    have hxl := hsub x (List.mem_append_left _ hx)
    rw [List.mem_append, List.mem_singleton, or_iff_left hxc] at hxl
    exact hl x hxl (mem_defSet.1 hd)
  · have hrev : c :: l'.reverse = (l' ++ [c]).reverse := by simp
    rw [hrev]
    refine GenKill.sublist_rounds (fun x hx => ?_) ?_
    · rw [List.mem_reverse] at hx ⊢
      exact hmem x (hsub x hx)
    · have := (hn.subperm fun x hx => hmem x (hsub x hx)).length_le
      rw [List.length_reverse]
      simpa [CfgInfo.blockIds] using this

theorem LiveOnBlocks.of_scheduled {S l : List Nat} (hS : ∀ x ∈ S, x ∈ cfg.blockIds)
    (w : Walk (livenessProblem cfg refs).Edge c b (c :: l))
    (hl : ∀ x ∈ l, v ∉ (livenessProblem cfg refs).kill x)
    (hs : GenKill.Scheduled (livenessProblem cfg refs) noneLive S v c l) :
    LiveOnBlocks cfg refs v b := by
  rcases hs with ⟨hd, -⟩ | ⟨hd, hs⟩
  · exact absurd hd (Finset.notMem_empty v)
  · rw [livenessProblem_edge] at w
    have hw := Walk.reverse_iff.2 w
    rw [List.reverse_cons] at hw
    refine ⟨c, l.reverse, hw, fun x hx => ?_, fun x hx hx' => ?_, mem_useSet.1 hd⟩
    · refine hS x (hs.subset ?_)
      rw [← List.reverse_cons, List.mem_reverse] at hx
      exact hx
    · exact hl x (List.mem_reverse.1 hx) (mem_defSet.2 hx')

/-- After as many rounds as there are blocks the sets at the starts are final. -/
theorem mem_run_after (hS : ∀ x ∈ S, x ∈ cfg.blockIds)
    (hrounds : backwardRounds cfg cfg.blocks.length <+ S) :
    v ∈ ((livenessProblem cfg refs).run S noneLive).after b ↔ LiveOnBlocks cfg refs v b := by
  rw [(GenKill.mem_run (fun b => Finset.empty_subset _) (fun b => rfl) S b).1]
  constructor
  · rintro ⟨c, l, w, hl, hs⟩
    exact .of_scheduled hS w hl hs
  · intro h
    obtain ⟨c, l, w, hl, hgen, hs⟩ := h.scheduled
    exact ⟨c, l, w, hl, .inr ⟨hgen, hs.trans hrounds⟩⟩

theorem mem_run_before (hS : ∀ x ∈ S, x ∈ cfg.blockIds)
    (hrounds : backwardRounds cfg (cfg.blocks.length + 1) <+ S) :
    v ∈ ((livenessProblem cfg refs).run S noneLive).before b ↔
      b ∈ cfg.blockIds ∧ ∃ s, cfg.Edge b s ∧ LiveOnBlocks cfg refs v s := by
  rw [(GenKill.mem_run (fun b => Finset.empty_subset _) (fun b => rfl) S b).2]
  constructor
  · rintro ⟨c, l, w, hl, hs⟩
    rw [← List.cons_append] at w
    obtain ⟨s, ws, he⟩ := w.exists_last_step (List.cons_ne_nil _ _)
    rw [livenessProblem_edge] at he
    refine ⟨?_, s, he, .of_scheduled hS ws hl ?_⟩
    · have hsub : l ++ [b] <+ S := hs.elim And.right fun h => (List.sublist_cons_self _ _).trans h.2
      exact hS b (hsub.subset (by simp))
    · exact hs.imp (fun h => ⟨h.1, (List.sublist_append_left _ _).trans h.2⟩)
        fun h => ⟨h.1, (List.sublist_append_left (c :: l) [b]).trans h.2⟩
  · rintro ⟨hb, s, he, h⟩
    obtain ⟨c, l, w, hl, hgen, hs⟩ := h.scheduled
    have he' : (livenessProblem cfg refs).Edge s b := by rwa [livenessProblem_edge]
    have hlast : [b] <+ backwardRounds cfg 1 := by simpa [backwardRounds] using hb
    refine ⟨c, l, w.concat he', hl, .inr ⟨hgen, ?_⟩⟩
    have hsplit : backwardRounds cfg (cfg.blocks.length + 1) =
        backwardRounds cfg cfg.blocks.length ++ backwardRounds cfg 1 := by
      rw [backwardRounds, List.replicate_add, List.flatten_append]
      rfl
    have happ := hs.append hlast
    rw [← hsplit] at happ
    exact happ.trans hrounds

theorem visit_run_backwardRounds (hb : b ∈ cfg.blockIds.reverse) :
    (livenessProblem cfg refs).visit
        ((livenessProblem cfg refs).run (backwardRounds cfg (cfg.blocks.length + 1)) noneLive) b =
      (livenessProblem cfg refs).run (backwardRounds cfg (cfg.blocks.length + 1)) noneLive := by
  obtain ⟨S, hS⟩ : ∃ S, S = backwardRounds cfg (cfg.blocks.length + 1) := ⟨_, rfl⟩
  have hmem : ∀ x ∈ S, x ∈ cfg.blockIds := fun x hx => mem_backwardRounds (hS ▸ hx)
  have hmem' : ∀ x ∈ S ++ [b], x ∈ cfg.blockIds := by
    intro x hx
    rcases List.mem_append.1 hx with hx | hx
    · exact hmem x hx
    · rw [List.mem_singleton.1 hx]
      exact List.mem_reverse.1 hb
  have hrounds : backwardRounds cfg (cfg.blocks.length + 1) <+ S := hS ▸ .refl _
  have hrounds' : backwardRounds cfg (cfg.blocks.length + 1) <+ S ++ [b] :=
    hrounds.trans (List.sublist_append_left _ _)
  have hfewer : backwardRounds cfg cfg.blocks.length <+
      backwardRounds cfg (cfg.blocks.length + 1) := backwardRounds_sublist (Nat.le_succ _)
  have hvisit : (livenessProblem cfg refs).visit ((livenessProblem cfg refs).run S noneLive) b =
      (livenessProblem cfg refs).run (S ++ [b]) noneLive := by
    rw [GenKill.run_append]
    rfl
  rw [← hS]
  apply GenKill.local_visit
  · rw [hvisit]
    ext v
    rw [mem_run_before hmem hrounds, mem_run_before hmem' hrounds']
  · rw [hvisit]
    ext v
    rw [mem_run_after hmem (hfewer.trans hrounds), mem_run_after hmem' (hfewer.trans hrounds')]

theorem computeLiveVariables_blocks (hb : b ∈ cfg.blockIds) :
    (computeLiveVariables cfg refs).blocks b = some
      { liveIn := ((livenessProblem cfg refs).run
          (backwardRounds cfg (cfg.blocks.length * 2 + 10)) noneLive).after b
        liveOut := ((livenessProblem cfg refs).run
          (backwardRounds cfg (cfg.blocks.length * 2 + 10)) noneLive).before b } := by
  simp only [computeLiveVariables, hb, ↓reduceIte, GenKill.solve_eq_run]
  rfl

theorem isLiveIn_iff_onBlocks :
    (computeLiveVariables cfg refs).isLiveIn b v ↔ LiveOnBlocks cfg refs v b := by
  by_cases hb : b ∈ cfg.blockIds
  · rw [LiveVariables.isLiveIn, computeLiveVariables_blocks hb]
    simp only [Option.map_some, Option.getD_some, decide_eq_true_eq]
    exact mem_run_after (fun _ => mem_backwardRounds) (backwardRounds_sublist (by omega))
  · simp only [LiveVariables.isLiveIn, computeLiveVariables, hb, ↓reduceIte, Option.map_none,
      Option.getD_none, Bool.false_eq_true, false_iff]
    exact fun h => hb h.mem

/-- **The live variables** of a well formed graph. -/
theorem isLiveIn_iff (hcfg : cfg.WellFormed) (hb : b ∈ cfg.blockIds) :
    (computeLiveVariables cfg refs).isLiveIn b v ↔ LiveOnLines cfg refs v b :=
  isLiveIn_iff_onBlocks.trans (liveOnBlocks_iff hcfg hb)

theorem isLiveOut_iff :
    (computeLiveVariables cfg refs).isLiveOut b v ↔
      b ∈ cfg.blockIds ∧ ∃ s, cfg.Edge b s ∧ (computeLiveVariables cfg refs).isLiveIn s v := by
  by_cases hb : b ∈ cfg.blockIds
  · rw [LiveVariables.isLiveOut, computeLiveVariables_blocks hb]
    simp only [Option.map_some, Option.getD_some, decide_eq_true_eq, isLiveIn_iff_onBlocks]
    exact mem_run_before (fun _ => mem_backwardRounds) (backwardRounds_sublist (by omega))
  · simp [LiveVariables.isLiveOut, computeLiveVariables, hb]

/-- **The sets are exact**: what is live at the start of a block is used first on some path from
there, what is live at its end is live at the start of a successor, and a round that changes nothing
comes before the rounds run out. -/
theorem computeLiveVariables_exact (cfg : CfgInfo) (refs : List VarRef) :
    (∀ b v, (computeLiveVariables cfg refs).isLiveIn b v ↔ LiveOnBlocks cfg refs v b) ∧
    (∀ b v, (computeLiveVariables cfg refs).isLiveOut b v ↔
      b ∈ cfg.blockIds ∧ ∃ s, cfg.Edge b s ∧ (computeLiveVariables cfg refs).isLiveIn s v) ∧
    (livenessProblem cfg refs).roundsMade cfg.blockIds.reverse (cfg.blocks.length * 2 + 10)
      noneLive < cfg.blocks.length * 2 + 10 := by
  refine ⟨fun b v => isLiveIn_iff_onBlocks, fun b v => isLiveOut_iff, ?_⟩
  have hmade : (livenessProblem cfg refs).roundsMade cfg.blockIds.reverse
      (cfg.blocks.length * 2 + 10) noneLive ≤ cfg.blocks.length + 1 + 1 :=
    GenKill.roundsMade_le (by omega) fun b hb => visit_run_backwardRounds hb
  omega

end TldrCode.Ssa
