import TldrCode.Security.Taint

/-!
# What the worklist computes

The iteration starts with the variables of the sources at the ends of their blocks, even if the
blocks do not leave them tainted. What it stops with solves the equations (`taintedVars_spec`), and
is what chains of references carry from the sources and from there. It is the least solution if
that is where the sources get by themselves.
-/

namespace TldrCode.Security

open Function (update)

namespace TaintInput

variable (input : TaintInput)

/-- What is tainted at the end of a block that its predecessors leave this to. -/
def transfer (b : Nat) (tainted : Nat → Finset String) : Finset String :=
  (input.processBlock b (input.taintIn b tainted) ∅).1

/-- The sets solve the equations of the blocks. -/
def Solves (tainted : Nat → Finset String) : Prop :=
  ∀ b ∈ input.cfg.blockIds, tainted b = input.transfer b tainted

/-- The sets are closed under the equations of the blocks. -/
def Closed (tainted : Nat → Finset String) : Prop :=
  ∀ b ∈ input.cfg.blockIds, input.transfer b tainted ⊆ tainted b

def Least (tainted : Nat → Finset String) : Prop :=
  input.Closed tainted ∧
    ∀ other, input.Closed other → ∀ b ∈ input.cfg.blockIds, tainted b ⊆ other b

/-! ## References -/

/-- The line of a reference uses the variable. -/
def UsedOn (b line : Nat) (y : String) : Prop :=
  ∃ r ∈ input.refsByBlock b, r.line = line ∧ r.refType = .use ∧ r.name = y

/-- If `y` is tainted before the reference, then `x` is after it. -/
def Passes (b : Nat) (r : VarRef) (y x : String) : Prop :=
  x = y ∧ (r.refType = .definition → r.name ≠ y) ∨
    x = r.name ∧ r.refType ≠ .use ∧
      (r.refType = .definition → r.line ∉ input.sanitizerLines) ∧ input.UsedOn b r.line y

/-- The reference defines the variable of a source. -/
def Generates (r : VarRef) (x : String) : Prop :=
  r.refType = .definition ∧ r.line ∉ input.sanitizerLines ∧ x = r.name ∧
    x ∈ input.sourcesByLine r.line

/-- What is tainted after so many references of a block. -/
def stateAfter (b k : Nat) (taintIn : Finset String) : Finset String :=
  (((input.refsByBlock b).take k).foldl (input.processRef (input.refsByBlock b)) (taintIn, ∅)).1

variable {input} {b k : Nat} {x y : String} {r : VarRef} {A sanitized sanitized' : Finset String}
  {tainted : Nat → Finset String}

theorem rhsUsesTainted_iff {line : Nat} :
    rhsUsesTainted line A (input.refsByBlock b) = true ↔ ∃ y ∈ A, input.UsedOn b line y := by
  unfold rhsUsesTainted UsedOn
  simp only [List.any_eq_true, Bool.and_eq_true, decide_eq_true_eq, and_assoc]
  constructor
  · rintro ⟨r, hr, hline, htype, hA⟩
    exact ⟨r.name, hA, r, hr, hline, htype, rfl⟩
  · rintro ⟨y, hA, r, hr, hline, htype, rfl⟩
    exact ⟨r, hr, hline, htype, hA⟩

/-- **What a reference taints.** -/
theorem mem_processRef : x ∈ (input.processRef (input.refsByBlock b) (A, sanitized) r).1 ↔
    input.Generates r x ∨ ∃ y ∈ A, input.Passes b r y x := by
  have hrhs : rhsUsesTainted r.line A (input.refsByBlock b) = true ↔
      ∃ y ∈ A, input.UsedOn b r.line y := rhsUsesTainted_iff
  unfold processRef Generates Passes
  cases r.refType with
  | definition =>
    dsimp only
    by_cases hsanitizer : r.line ∈ input.sanitizerLines
    · rw [if_pos hsanitizer, Finset.mem_erase]
      grind
    · rw [if_neg hsanitizer]
      split_ifs with htainted
      · rw [hrhs] at htainted
        rw [Finset.mem_insert]
        grind
      · rw [not_or, hrhs] at htainted
        rw [Finset.mem_erase]
        grind
  | use =>
    dsimp only
    grind
  | update =>
    dsimp only
    split_ifs with htainted
    · rw [hrhs] at htainted
      rw [Finset.mem_insert]
      grind
    · rw [hrhs] at htainted
      grind

theorem fst_foldl_processRef (refs : List VarRef) (A sanitized sanitized' : Finset String) :
    (refs.foldl (input.processRef (input.refsByBlock b)) (A, sanitized)).1 =
      (refs.foldl (input.processRef (input.refsByBlock b)) (A, sanitized')).1 := by
  induction refs generalizing A sanitized sanitized' with
  | nil => rfl
  | cons r refs ih =>
    have hfst : (input.processRef (input.refsByBlock b) (A, sanitized) r).1 =
        (input.processRef (input.refsByBlock b) (A, sanitized') r).1 := by
      ext x
      rw [mem_processRef, mem_processRef]
    rw [List.foldl_cons, List.foldl_cons]
    calc (refs.foldl _ (input.processRef (input.refsByBlock b) (A, sanitized) r)).1
        = (refs.foldl (input.processRef (input.refsByBlock b))
            ((input.processRef (input.refsByBlock b) (A, sanitized) r).1, ∅)).1 := ih _ _ _
      _ = _ := by rw [hfst]; exact ih _ _ _

theorem mem_stateAfter_succ (hr : (input.refsByBlock b)[k]? = some r) :
    x ∈ input.stateAfter b (k + 1) A ↔
      input.Generates r x ∨ ∃ y ∈ input.stateAfter b k A, input.Passes b r y x := by
  unfold stateAfter
  rw [List.take_add_one, hr, Option.toList_some, List.foldl_concat]
  exact mem_processRef

theorem stateAfter_length (b : Nat) (A sanitized : Finset String) :
    input.stateAfter b (input.refsByBlock b).length A =
      (input.processBlock b A sanitized).1 := by
  unfold stateAfter processBlock
  rw [List.take_length]
  exact fst_foldl_processRef _ _ _ _

/-! ## Chains -/

/-- The variable is tainted after so many references of the block: by a chain from a source that
begins where the block of the source does, or at the reference that defines its variable, or, if the
ends of the blocks count, where the block of the source ends. -/
inductive Chain (input : TaintInput) (ends : Prop) : Nat → Nat → String → Prop
  | source {b : Nat} {x : String} (h : x ∈ input.sourceVarsByBlock b) : Chain input ends b 0 x
  | generate {b k : Nat} {r : VarRef} {x : String} (hr : (input.refsByBlock b)[k]? = some r)
      (h : input.Generates r x) : Chain input ends b (k + 1) x
  | pass {b k : Nat} {r : VarRef} {x y : String} (hr : (input.refsByBlock b)[k]? = some r)
      (hchain : Chain input ends b k y) (h : input.Passes b r y x) : Chain input ends b (k + 1) x
  | edge {a b : Nat} {x : String} (hchain : Chain input ends a (input.refsByBlock a).length x)
      (h : input.cfg.Edge a b) : Chain input ends b 0 x
  | seed {a b : Nat} {x : String} (hends : ends) (hsource : x ∈ input.sourceVarsByBlock a)
      (h : input.cfg.Edge a b) : Chain input ends b 0 x

/-- The variable is tainted at the end of the block. -/
abbrev TaintedAt (input : TaintInput) (ends : Prop) (b : Nat) (x : String) : Prop :=
  Chain input ends b (input.refsByBlock b).length x

variable {ends : Prop}

theorem mem_taintIn : x ∈ input.taintIn b tainted ↔
    (∃ a, input.cfg.Edge a b ∧ x ∈ tainted a) ∨ x ∈ input.sourceVarsByBlock b := by
  unfold taintIn
  rw [Finset.mem_union, Finset.mem_biUnion]
  simp only [List.mem_toFinset, CfgInfo.mem_predecessors]

/-- **Chains carry** what is tainted in a block. -/
theorem chain_of_mem_stateAfter
    (h : ∀ a x, x ∈ tainted a → TaintedAt input True a x ∨ x ∈ input.sourceVarsByBlock a)
    (hk : k ≤ (input.refsByBlock b).length)
    (hx : x ∈ input.stateAfter b k (input.taintIn b tainted)) : Chain input True b k x := by
  induction k generalizing x with
  | zero =>
    rcases mem_taintIn.1 hx with ⟨a, hedge, ha⟩ | hsource
    · rcases h a x ha with hchain | hsource
      · exact .edge hchain hedge
      · exact .seed trivial hsource hedge
    · exact .source hsource
  | succ k ih =>
    have hr : (input.refsByBlock b)[k]? = some ((input.refsByBlock b)[k]) :=
      List.getElem?_eq_getElem hk
    rcases (mem_stateAfter_succ hr).1 hx with hgenerates | ⟨y, hy, hpasses⟩
    · exact .generate hr hgenerates
    · exact .pass hr (ih (Nat.le_of_succ_le hk) hy) hpasses

/-- The ends of the blocks add nothing to where the sources get by themselves. -/
theorem Chain.of_seeds (hseeds : ∀ a x, x ∈ input.sourceVarsByBlock a → TaintedAt input False a x)
    (hchain : Chain input True b k x) : Chain input False b k x := by
  induction hchain with
  | source h => exact .source h
  | generate hr h => exact .generate hr h
  | pass hr _ h ih => exact .pass hr ih h
  | edge _ h ih => exact .edge ih h
  | seed _ hsource h => exact .edge (hseeds _ _ hsource) h

/-- **What chains carry** is in every family that is closed. -/
theorem Chain.mem_of_closed (hchain : Chain input False b k x) (hclosed : input.Closed tainted)
    (hedges : ∀ a b, input.cfg.Edge a b → a ∈ input.cfg.blockIds) :
    x ∈ input.stateAfter b k (input.taintIn b tainted) := by
  induction hchain with
  | source h => exact mem_taintIn.2 (.inr h)
  | generate hr h => exact (mem_stateAfter_succ hr).2 (.inl h)
  | pass hr _ h ih => exact (mem_stateAfter_succ hr).2 (.inr ⟨_, ih, h⟩)
  | edge _ h ih =>
    refine mem_taintIn.2 (.inl ⟨_, h, hclosed _ (hedges _ _ h) ?_⟩)
    rwa [stateAfter_length] at ih
  | seed hends => exact absurd hends not_false

/-! ## The worklist -/

theorem iterate_eq_solve (iterations : Nat) (worklist : List Nat) (tainted : Nat → Finset String)
    (sanitized : Finset String) :
    ((input.iterate iterations worklist tainted sanitized).1,
      (input.iterate iterations worklist tainted sanitized).2.2) =
        Dataflow.solve input.transfer input.cfg.successors iterations worklist tainted := by
  induction iterations generalizing worklist tainted sanitized with
  | zero => cases worklist <;> rfl
  | succ iterations ih =>
    cases worklist with
    | nil => rfl
    | cons b worklist =>
      have htransfer : (input.processBlock b (input.taintIn b tainted) sanitized).1 =
          input.transfer b tainted := by
        unfold transfer
        rw [← stateAfter_length, ← stateAfter_length]
      unfold iterate Dataflow.solve
      dsimp only
      rw [htransfer]
      by_cases heq : input.transfer b tainted = tainted b
      · rw [if_neg (not_not.2 heq), if_pos heq]
        exact ih _ _ _
      · rw [if_pos heq, if_neg heq]
        exact ih _ _ _

theorem transfer_update {c : Nat} {v : Finset String} (hc : c ∉ input.cfg.successors b) :
    input.transfer c (update tainted b v) = input.transfer c tainted := by
  have htaintIn : input.taintIn c (update tainted b v) = input.taintIn c tainted := by
    ext x
    rw [mem_taintIn, mem_taintIn]
    refine or_congr_left (exists_congr fun a => and_congr_right fun hedge => ?_)
    rw [Function.update_of_ne]
    rintro rfl
    exact hc (CfgInfo.mem_successors.2 hedge)
  unfold transfer
  rw [htaintIn]

def worklistResult (input : TaintInput) : (Nat → Finset String) × Finset String × Bool :=
  input.iterate input.maxIterations input.cfg.blockIds input.sourceVarsByBlock ∅

/-- **The iteration solves the equations** unless it reaches its limit. -/
theorem solves_worklistResult (h : input.worklistResult.2.2 = false) :
    input.Solves input.worklistResult.1 := by
  have hsolve : Dataflow.solve input.transfer input.cfg.successors input.maxIterations
      input.cfg.blockIds input.sourceVarsByBlock = (input.worklistResult.1, false) := by
    rw [← h]
    exact (iterate_eq_solve _ _ _ ∅).symm
  apply Dataflow.solve_fixed _ _ hsolve
  · exact fun b c out v hc => transfer_update hc
  · exact fun b hb => .inl hb

/-- **Chains carry** what the iteration ends with. -/
theorem chain_of_mem_worklistResult :
    ∀ b x, x ∈ input.worklistResult.1 b →
      TaintedAt input True b x ∨ x ∈ input.sourceVarsByBlock b := by
  have hfst : input.worklistResult.1 = (Dataflow.solve input.transfer input.cfg.successors
      input.maxIterations input.cfg.blockIds input.sourceVarsByBlock).1 := by
    rw [← iterate_eq_solve _ _ _ ∅]
    rfl
  rw [hfst]
  refine Dataflow.solve_induct (I := fun out => ∀ b x, x ∈ out b →
    TaintedAt input True b x ∨ x ∈ input.sourceVarsByBlock b) ?_ ?_
  · exact fun b x hx => .inr hx
  · intro out b hout c x hx
    by_cases hcb : c = b
    · subst hcb
      rw [Function.update_self] at hx
      unfold transfer at hx
      rw [← stateAfter_length] at hx
      exact .inl (chain_of_mem_stateAfter hout le_rfl hx)
    · rw [Function.update_of_ne hcb] at hx
      exact hout c x hx

/-! ## The analysis -/

variable {ord : HashOrder} {info : TaintInfo} {cfg : CfgInfo}

theorem ok_of_forM_ok {ε α : Type} {f : α → Except ε Unit} {l : List α} (h : l.forM f = .ok ()) :
    ∀ a ∈ l, f a = .ok () := by
  induction l with
  | nil => exact fun a ha => nomatch ha
  | cons a l ih =>
    change (f a >>= fun _ => l.forM f) = .ok () at h
    cases ha : f a with
    | error e =>
      rw [ha] at h
      cases h
    | ok u =>
      rw [ha] at h
      exact List.forall_mem_cons.2 ⟨ha, ih h⟩

theorem edge_mem (h : validateCfg ord cfg = .ok ()) {a b : Nat} (hedge : cfg.Edge a b) :
    a ∈ cfg.blockIds ∧ b ∈ cfg.blockIds := by
  obtain ⟨edge, hmem, rfl, rfl⟩ := hedge
  unfold validateCfg at h
  dsimp only at h
  split_ifs at h
  have hedge := ok_of_forM_ok h edge hmem
  split_ifs at hedge with hfrom hto
  exact ⟨hfrom, hto⟩

/-- What chains carry to the end of a block is tainted there in every family that is closed. -/
theorem TaintedAt.mem_of_closed (hvalid : validateCfg ord input.cfg = .ok ())
    (hchain : TaintedAt input False b x) (hclosed : input.Closed tainted)
    (hb : b ∈ input.cfg.blockIds) : x ∈ tainted b := by
  have hstate := Chain.mem_of_closed hchain hclosed fun a b hedge => (edge_mem hvalid hedge).1
  rw [stateAfter_length] at hstate
  exact hclosed b hb hstate

theorem computeTaintWithTree_ok (h : input.computeTaintWithTree ord = .ok info) :
    validateCfg ord input.cfg = .ok () ∧ info.taintedVars = input.worklistResult.1 ∧
      info.sanitizedVars = input.worklistResult.2.1 ∧
      (info.convergence = none → input.worklistResult.2.2 = false) ∧
      info.flows = ((input.sinks.map fun sink =>
        { sink with tainted := input.sinkTainted input.worklistResult.1 sink }).filter
          (·.tainted)).flatMap fun sink =>
            input.sources.filterMap (input.flow? input.worklistResult.1
              input.worklistResult.2.1 sink) := by
  unfold computeTaintWithTree at h
  cases hvalid : validateCfg ord input.cfg with
  | error e =>
    rw [hvalid] at h
    cases h
  | ok u =>
    rw [hvalid] at h
    cases h
    refine ⟨rfl, rfl, rfl, fun hconvergence => ?_, rfl⟩
    dsimp only at hconvergence
    split_ifs at hconvergence with hlimit
    exact Bool.eq_false_iff.2 hlimit

theorem computeTaintWithTree_of_valid (h : validateCfg ord input.cfg = .ok ()) :
    ∃ info, input.computeTaintWithTree ord = .ok info ∧
      info.taintedVars = input.worklistResult.1 ∧
      (input.worklistResult.2.2 = false → info.convergence = none) := by
  unfold computeTaintWithTree
  rw [h]
  refine ⟨_, rfl, rfl, fun hlimit => ?_⟩
  exact if_neg (Bool.eq_false_iff.1 hlimit)

/-- **What the analysis computes**: a solution of its equations that holds what chains carry from
the sources, and nothing but what chains carry from there or from the ends of the blocks of the
sources. It is the least if the variables of the sources are tainted at these ends. -/
theorem taintedVars_spec (ord : HashOrder) (input : TaintInput) (info : TaintInfo)
    (h : input.computeTaintWithTree ord = .ok info) (hconvergence : info.convergence = none) :
    input.Solves info.taintedVars ∧
      (∀ b ∈ input.cfg.blockIds, ∀ x, TaintedAt input False b x → x ∈ info.taintedVars b) ∧
      (∀ b ∈ input.cfg.blockIds, ∀ x, x ∈ info.taintedVars b → TaintedAt input True b x) ∧
      ((∀ b x, x ∈ input.sourceVarsByBlock b → TaintedAt input False b x) →
        input.Least info.taintedVars) := by
  obtain ⟨hvalid, htainted, -, hlimit, -⟩ := computeTaintWithTree_ok h
  rw [htainted]
  have hsolves : input.Solves input.worklistResult.1 := solves_worklistResult (hlimit hconvergence)
  have hclosed : input.Closed input.worklistResult.1 := fun b hb => (hsolves b hb).ge
  have hchain : ∀ b ∈ input.cfg.blockIds, ∀ x, x ∈ input.worklistResult.1 b →
      TaintedAt input True b x := by
    intro b hb x hx
    rw [hsolves b hb] at hx
    unfold transfer at hx
    rw [← stateAfter_length] at hx
    exact chain_of_mem_stateAfter chain_of_mem_worklistResult le_rfl hx
  refine ⟨hsolves, fun b hb x hx => TaintedAt.mem_of_closed hvalid hx hclosed hb, hchain,
    fun hseeds => ?_⟩
  refine ⟨hclosed, fun other hother b hb x hx => ?_⟩
  exact TaintedAt.mem_of_closed hvalid ((hchain b hb x hx).of_seeds hseeds) hother hb

/-- A variable that is read and then set to a constant, before a loop. The loop comes first in the
list of blocks. -/
def readBeforeLoop : TaintInput where
  cfg := ⟨"main", [⟨1, (3, 3)⟩, ⟨0, (1, 2)⟩], [⟨0, 1⟩, ⟨1, 1⟩], 0, [1]⟩
  refs := [⟨"x", .definition, 1, 0⟩, ⟨"x", .definition, 2, 0⟩]
  statements := ∅
  sources := [⟨"x", 1, .userInput, none⟩]
  sinks := []
  sanitizerLines := []

/-- The loop keeps the variable tainted. -/
theorem not_least_readBeforeLoop : ∃ info,
    readBeforeLoop.computeTaintWithTree .insertion = .ok info ∧
    info.convergence = none ∧ ¬ readBeforeLoop.Least info.taintedVars := by
  have hvalid : validateCfg .insertion readBeforeLoop.cfg = .ok () := rfl
  obtain ⟨info, hok, htainted, hconvergence⟩ := computeTaintWithTree_of_valid hvalid
  refine ⟨info, hok, hconvergence (by decide +kernel), fun hleast => ?_⟩
  rw [htainted] at hleast
  have hempty : readBeforeLoop.Closed fun _ => ∅ := by
    unfold Closed
    decide +kernel
  exact absurd (hleast.2 _ hempty 1 (by decide)) (by decide +kernel)

/-- A variable that is read, as the analysis takes it. -/
def readOnce : TaintInput := { readBeforeLoop with refs := [⟨"x", .definition, 1, 0⟩] }

theorem taintedVars_spec_readOnce : ∃ info, readOnce.computeTaintWithTree .insertion = .ok info ∧
    info.convergence = none ∧ readOnce.Solves info.taintedVars := by
  have hvalid : validateCfg .insertion readOnce.cfg = .ok () := rfl
  obtain ⟨info, hok, -, hconvergence⟩ := computeTaintWithTree_of_valid hvalid
  have hnone : info.convergence = none := hconvergence (by decide +kernel)
  exact ⟨info, hok, hnone, (taintedVars_spec .insertion readOnce info hok hnone).1⟩

end TaintInput

end TldrCode.Security
