import TldrCode.Security.TaintSolution

/-!
# The taint that is reported

A flow is reported from the blocks in which the variable of the sink is tainted at the end, unless
the source is on a later line or one of the names is the name of a variable that is sanitized
somewhere in the function. What reaches a sink otherwise is reported if it is there at the end of
the block of the sink as well (`exists_flow`).
-/

namespace TldrCode.Security

namespace TaintInput

variable (input : TaintInput)

/-- How many references of a block are on lines up to this one. -/
def countUpTo (b line : Nat) : Nat := (input.refsByBlock b).countP (·.line ≤ line)

/-- How many references of a block are on earlier lines. -/
def countBefore (b line : Nat) : Nat := (input.refsByBlock b).countP (·.line < line)

/-- After its line the source's value is in its variable. -/
def Begins (source : TaintSource) (b : Nat) : Prop :=
  lineToBlock input.cfg source.line = some b ∧
    ∀ r ∈ input.refsByBlock b, r.line = source.line → r.refType = .definition →
      r.name = source.var → r.line ∉ input.sanitizerLines

/-- The source's value is in the variable after so many references of the block: definitions and
updates on lines that use a variable it is in, and that have no sanitizer, have carried it there. -/
inductive Carries (source : TaintSource) : Nat → Nat → String → Prop
  | begins {b : Nat} (h : input.Begins source b) :
    Carries source b (input.countUpTo b source.line) source.var
  | define {b k : Nat} {r : VarRef} {y : String} (hr : (input.refsByBlock b)[k]? = some r)
      (hcarries : Carries source b k y) (htype : r.refType ≠ .use)
      (hsanitizer : r.line ∉ input.sanitizerLines) (hused : input.UsedOn b r.line y) :
    Carries source b (k + 1) r.name
  | keep {b k : Nat} {r : VarRef} {y : String} (hr : (input.refsByBlock b)[k]? = some r)
      (hcarries : Carries source b k y) (h : r.refType = .definition → r.name ≠ y) :
    Carries source b (k + 1) y
  | edge {a b : Nat} {y : String} (hcarries : Carries source a (input.refsByBlock a).length y)
      (h : input.cfg.Edge a b) : Carries source b 0 y

/-- **No tainted path is missed**: there is a flow from each source to each sink that its value
reaches just before the line of the sink. -/
def Complete (info : TaintInfo) : Prop :=
  ∀ source ∈ input.sources, ∀ sink ∈ input.sinks, ∀ b, lineToBlock input.cfg sink.line = some b →
    input.Carries source b (input.countBefore b sink.line) sink.var →
      ∃ flow ∈ info.flows, flow.source = source ∧ flow.sink = { sink with tainted := true }

/-- The line of the source defines its variable, or its block does not define it on an earlier
line. -/
def Kept (source : TaintSource) : Prop :=
  ∀ b, lineToBlock input.cfg source.line = some b →
    (∃ r ∈ input.refsByBlock b, r.line = source.line ∧ r.refType = .definition ∧
      r.name = source.var) ∨
    ∀ r ∈ input.refsByBlock b, r.line < source.line → r.refType = .definition →
      r.name ≠ source.var

variable {input} {source : TaintSource} {b k i j : Nat} {x y : String} {r : VarRef}
  {tainted : Nat → Finset String} {sanitized : Finset String} {refs : List VarRef}

theorem pairwise_refsByBlock (b : Nat) :
    (input.refsByBlock b).Pairwise fun r r' => r.line ≤ r'.line := by
  exact List.pairwise_insertionSort _ _

theorem mem_refsByBlock : r ∈ input.refsByBlock b ↔
    r ∈ input.refs ∧ lineToBlock input.cfg r.line = some b := by
  unfold refsByBlock
  rw [List.mem_insertionSort, List.mem_filter, decide_eq_true_eq]

theorem lt_countP_iff {line : Nat} (hsorted : refs.Pairwise fun r r' => r.line ≤ r'.line)
    (hr : refs[k]? = some r) : k < refs.countP (·.line ≤ line) ↔ r.line ≤ line := by
  induction refs generalizing k with
  | nil => cases hr
  | cons first refs ih =>
    rw [List.pairwise_cons] at hsorted
    by_cases hfirst : first.line ≤ line
    · rw [List.countP_cons_of_pos (by simpa using hfirst)]
      cases k with
      | zero =>
        cases hr
        exact iff_of_true (Nat.succ_pos _) hfirst
      | succ k =>
        rw [List.getElem?_cons_succ] at hr
        rw [Nat.succ_lt_succ_iff, ih hsorted.2 hr]
    · have hall : ∀ r ∈ first :: refs, ¬ r.line ≤ line := by
        intro r hr hle
        rcases List.mem_cons.1 hr with rfl | hr
        · exact hfirst hle
        · exact hfirst ((hsorted.1 r hr).trans hle)
      have hzero : (first :: refs).countP (·.line ≤ line) = 0 := by
        apply List.countP_eq_zero.2
        intro r hr
        simpa using hall r hr
      rw [hzero]
      exact iff_of_false (Nat.not_lt_zero k) (hall r (List.mem_of_getElem? hr))

/-- References that do not define a variable, or generate it, keep it tainted. -/
theorem Chain.keep {ends : Prop} (hchain : Chain input ends b i x) (hij : i ≤ j)
    (h : ∀ m r, i ≤ m → m < j → (input.refsByBlock b)[m]? = some r → r.refType = .definition →
      r.name = x → input.Generates r x)
    (hj : j ≤ (input.refsByBlock b).length) : Chain input ends b j x := by
  induction j, hij using Nat.le_induction with
  | base => exact hchain
  | succ j hij ih =>
    have ih : Chain input ends b j x :=
      ih (fun m r him hmj => h m r him (Nat.lt_succ_of_lt hmj)) (Nat.le_of_succ_le hj)
    have hr : (input.refsByBlock b)[j]? = some ((input.refsByBlock b)[j]) :=
      List.getElem?_eq_getElem hj
    by_cases hdefines : ((input.refsByBlock b)[j]).refType = .definition ∧
        ((input.refsByBlock b)[j]).name = x
    · exact .generate hr (h j _ hij (Nat.lt_succ_self j) hr hdefines.1 hdefines.2)
    · exact .pass hr ih (.inl ⟨rfl, fun htype hname => hdefines ⟨htype, hname⟩⟩)

theorem chain_of_begins (hsource : source ∈ input.sources) (hkept : input.Kept source)
    (h : input.Begins source b) :
    Chain input False b (input.countUpTo b source.line) source.var := by
  obtain ⟨hblock, hsanitizer⟩ := h
  have hline : source.var ∈ input.sourcesByLine source.line := by
    unfold sourcesByLine
    rw [List.mem_toFinset]
    exact List.mem_map_of_mem (List.mem_filter.2 ⟨hsource, decide_eq_true rfl⟩)
  have hgenerates : ∀ r ∈ input.refsByBlock b, r.line = source.line → r.refType = .definition →
      r.name = source.var → input.Generates r source.var := fun r hr heq htype hname =>
    ⟨htype, hsanitizer r hr heq htype hname, hname.symm, heq ▸ hline⟩
  have hle : ∀ {m r}, m < input.countUpTo b source.line → (input.refsByBlock b)[m]? = some r →
      r.line ≤ source.line := fun hm hr => (lt_countP_iff (pairwise_refsByBlock b) hr).1 hm
  have hcount : input.countUpTo b source.line ≤ (input.refsByBlock b).length :=
    List.countP_le_length
  rcases hkept b hblock with ⟨r, hr, heq, htype, hname⟩ | hearlier
  · obtain ⟨i, hi⟩ := List.mem_iff_getElem?.1 hr
    have hlt : i < input.countUpTo b source.line :=
      (lt_countP_iff (pairwise_refsByBlock b) hi).2 heq.le
    have hchain : Chain input False b (i + 1) source.var :=
      .generate hi (hgenerates r hr heq htype hname)
    refine hchain.keep hlt (fun m r' him hm hr' htype' hname' => ?_) hcount
    have hmem : r' ∈ input.refsByBlock b := List.mem_of_getElem? hr'
    refine hgenerates r' hmem (le_antisymm (hle hm hr') ?_) htype' hname'
    -- what follows the definition on the line of the source is not on an earlier line
    rw [← heq]
    obtain ⟨hi', rfl⟩ := List.getElem?_eq_some_iff.1 hi
    obtain ⟨hm', rfl⟩ := List.getElem?_eq_some_iff.1 hr'
    exact List.pairwise_iff_getElem.1 (pairwise_refsByBlock b) i m hi' hm' him
  · have hentry : Chain input False b 0 source.var := by
      apply Chain.source
      unfold sourceVarsByBlock
      rw [List.mem_toFinset]
      exact List.mem_map_of_mem (List.mem_filter.2 ⟨hsource, decide_eq_true hblock⟩)
    refine hentry.keep (Nat.zero_le _) (fun m r' _ hm hr' htype' hname' => ?_) hcount
    have hmem : r' ∈ input.refsByBlock b := List.mem_of_getElem? hr'
    refine hgenerates r' hmem ?_ htype' hname'
    rcases (hle hm hr').eq_or_lt with heq | hlt
    · exact heq
    · exact absurd hname' (hearlier r' hmem hlt htype')

/-- **What carries a source's value** are chains. -/
theorem Carries.chain (hsource : source ∈ input.sources) (hkept : input.Kept source)
    (h : input.Carries source b k x) : Chain input False b k x := by
  induction h with
  | begins h => exact chain_of_begins hsource hkept h
  | define hr _ htype hsanitizer hused ih =>
    exact .pass hr ih (.inr ⟨rfl, htype, fun _ => hsanitizer, hused⟩)
  | keep hr _ h ih => exact .pass hr ih (.inl ⟨rfl, h⟩)
  | edge _ h ih => exact .edge ih h

theorem Carries.exists_block (h : input.Carries source b k x) :
    ∃ a, lineToBlock input.cfg source.line = some a := by
  induction h with
  | begins h => exact ⟨_, h.1⟩
  | define _ _ _ _ _ ih => exact ih
  | keep _ _ _ ih => exact ih
  | edge _ _ ih => exact ih

/-- The variable is defined on a line with a sanitizer. -/
def Sanitized (input : TaintInput) (x : String) : Prop :=
  ∃ r ∈ input.refs, r.refType = .definition ∧ r.line ∈ input.sanitizerLines ∧ r.name = x

theorem sanitized_of_mem_processRef {A sanitized : Finset String}
    (hx : x ∈ (input.processRef (input.refsByBlock b) (A, sanitized) r).2) :
    x ∈ sanitized ∨ r.refType = .definition ∧ r.line ∈ input.sanitizerLines ∧ r.name = x := by
  unfold processRef at hx
  dsimp only at hx
  cases htype : r.refType with
  | definition =>
    rw [htype] at hx
    dsimp only at hx
    split_ifs at hx with hsanitizer
    · rcases Finset.mem_insert.1 hx with rfl | hx
      · exact .inr ⟨rfl, hsanitizer, rfl⟩
      · exact .inl hx
    · exact .inl hx
    · exact .inl hx
  | use =>
    rw [htype] at hx
    exact .inl hx
  | update =>
    rw [htype] at hx
    dsimp only at hx
    split_ifs at hx <;> exact .inl hx

theorem sanitized_of_mem_foldl {state : Finset String × Finset String}
    (hrefs : ∀ r ∈ refs, r ∈ input.refs)
    (hx : x ∈ (refs.foldl (input.processRef (input.refsByBlock b)) state).2) :
    x ∈ state.2 ∨ input.Sanitized x := by
  induction refs generalizing state with
  | nil => exact .inl hx
  | cons r refs ih =>
    rw [List.foldl_cons] at hx
    rcases ih (fun r hr => hrefs r (List.mem_cons_of_mem _ hr)) hx with hmem | hsanitized
    · rcases sanitized_of_mem_processRef hmem with hmem | hdefined
      · exact .inl hmem
      · exact .inr ⟨r, hrefs r List.mem_cons_self, hdefined⟩
    · exact .inr hsanitized

theorem sanitized_of_mem_iterate {iterations : Nat} {worklist : List Nat}
    (hx : x ∈ (input.iterate iterations worklist tainted sanitized).2.1) :
    x ∈ sanitized ∨ input.Sanitized x := by
  induction iterations generalizing worklist tainted sanitized with
  | zero => cases worklist <;> exact .inl hx
  | succ iterations ih =>
    cases worklist with
    | nil => exact .inl hx
    | cons b worklist =>
      have hblock : x ∈ (input.processBlock b (input.taintIn b tainted) sanitized).2 ∨
          input.Sanitized x := by
        unfold iterate at hx
        dsimp only at hx
        split_ifs at hx
        · exact ih hx
        · exact ih hx
      rcases hblock with hmem | hsanitized
      · exact sanitized_of_mem_foldl (fun r hr => (mem_refsByBlock.1 hr).1) hmem
      · exact .inr hsanitized

variable {ord : HashOrder} {info : TaintInfo} {sink : TaintSink}

theorem mem_blockIds_of_lineToBlock {cfg : CfgInfo} {line : Nat}
    (h : lineToBlock cfg line = some b) : b ∈ cfg.blockIds := by
  unfold lineToBlock at h
  obtain ⟨best, hbest, rfl⟩ := Option.map_eq_some_iff.1 h
  refine List.foldlRecOn (motive := fun best : Option (Nat × Nat) => ∀ b ∈ best, b.1 ∈ cfg.blockIds)
    cfg.blocks _ (by simp) (fun init hinit block hblock best hbest => ?_) best hbest
  have hid : block.id ∈ cfg.blockIds := List.mem_map_of_mem hblock
  split_ifs at hbest with hline
  · cases init with
    | none =>
      cases hbest
      exact hid
    | some old =>
      dsimp only at hbest
      split_ifs at hbest
      · cases hbest
        exact hid
      · exact hinit best hbest
  · exact hinit best hbest

/-- A flow is reported if the variable of the sink is tainted at the end of its block. -/
theorem exists_flow_of_mem {a : Nat} (hblock : lineToBlock input.cfg sink.line = some b)
    (hx : sink.var ∈ tainted b) (hsource : lineToBlock input.cfg source.line = some a)
    (hline : source.line ≤ sink.line) (hsinkvar : sink.var ∉ sanitized)
    (hsourcevar : source.var ∉ sanitized) :
    input.sinkTainted tainted sink = true ∧
      input.flow? tainted sanitized { sink with tainted := input.sinkTainted tainted sink } source =
        some ⟨source, { sink with tainted := true }, input.computeFlowPath a b⟩ := by
  constructor
  · unfold sinkTainted
    rw [hblock]
    exact if_pos hx
  · unfold flow?
    rw [hblock, hsource]
    exact if_pos ⟨.inl hx, not_or.2 ⟨hsinkvar, hsourcevar⟩, hline⟩

theorem not_complete_of_flows_eq_nil (h : info.flows = []) (hsource : source ∈ input.sources)
    (hsink : sink ∈ input.sinks) (hblock : lineToBlock input.cfg sink.line = some b)
    (hcarries : input.Carries source b (input.countBefore b sink.line) sink.var) :
    ¬ input.Complete info := by
  intro hcomplete
  obtain ⟨flow, hflow, -⟩ := hcomplete source hsource sink hsink b hblock hcarries
  rw [h] at hflow
  cases hflow

/-- **A tainted path is reported** if the value is in the variable of the sink at the end of the
block of the sink, the source is not on a later line, and neither name is sanitized anywhere. -/
theorem exists_flow (ord : HashOrder) (input : TaintInput) (info : TaintInfo)
    (h : input.computeTaintWithTree ord = .ok info) (hconvergence : info.convergence = none)
    (source : TaintSource) (hsource : source ∈ input.sources) (hkept : input.Kept source)
    (sink : TaintSink) (hsink : sink ∈ input.sinks) (b : Nat)
    (hblock : lineToBlock input.cfg sink.line = some b)
    (hcarries : input.Carries source b (input.refsByBlock b).length sink.var)
    (hline : source.line ≤ sink.line) (hsinkvar : ¬ input.Sanitized sink.var)
    (hsourcevar : ¬ input.Sanitized source.var) :
    ∃ flow ∈ info.flows, flow.source = source ∧ flow.sink = { sink with tainted := true } := by
  obtain ⟨hvalid, -, -, hlimit, hflows⟩ := computeTaintWithTree_ok h
  have hsolves : input.Solves input.worklistResult.1 := solves_worklistResult (hlimit hconvergence)
  have htainted : sink.var ∈ input.worklistResult.1 b :=
    TaintedAt.mem_of_closed hvalid (hcarries.chain hsource hkept) (fun b hb => (hsolves b hb).ge)
      (mem_blockIds_of_lineToBlock hblock)
  obtain ⟨a, ha⟩ := hcarries.exists_block
  have hnot : ∀ x, ¬ input.Sanitized x → x ∉ input.worklistResult.2.1 := by
    intro x hx hmem
    exact hx ((sanitized_of_mem_iterate hmem).resolve_left (Finset.notMem_empty x))
  obtain ⟨hsinkTainted, hflow⟩ := exists_flow_of_mem hblock htainted ha hline
    (hnot _ hsinkvar) (hnot _ hsourcevar)
  refine ⟨⟨source, { sink with tainted := true }, input.computeFlowPath a b⟩, ?_, rfl, rfl⟩
  rw [hflows, List.mem_flatMap]
  refine ⟨_, List.mem_filter.2 ⟨List.mem_map_of_mem hsink, hsinkTainted⟩, ?_⟩
  exact List.mem_filterMap.2 ⟨source, hsource, hflow⟩

/-! ## Paths that are missed -/

/-- A variable that is read at the end of a loop and evaluated at its beginning. -/
def readAtEndOfLoop : TaintInput where
  cfg := ⟨"main", [⟨0, (1, 2)⟩], [⟨0, 0⟩], 0, [0]⟩
  refs := [⟨"x", .use, 1, 0⟩, ⟨"x", .definition, 2, 0⟩]
  statements := ∅
  sources := [⟨"x", 2, .userInput, none⟩]
  sinks := [⟨"x", 1, .codeEval, false, none⟩]
  sanitizerLines := []

/-- A variable that is sanitized on one branch only. -/
def sanitizedOnBranch : TaintInput where
  cfg := ⟨"main", [⟨0, (1, 1)⟩, ⟨1, (2, 2)⟩, ⟨2, (3, 3)⟩], [⟨0, 1⟩, ⟨0, 2⟩, ⟨1, 2⟩], 0, [2]⟩
  refs := [⟨"x", .definition, 1, 0⟩, ⟨"x", .use, 2, 0⟩, ⟨"x", .definition, 2, 0⟩,
    ⟨"x", .use, 3, 0⟩]
  statements := ∅
  sources := [⟨"x", 1, .userInput, none⟩]
  sinks := [⟨"x", 3, .codeEval, false, none⟩]
  sanitizerLines := [2]

/-- A variable that is set to a constant after it is evaluated. -/
def clearedAfterSink : TaintInput where
  cfg := ⟨"main", [⟨0, (1, 3)⟩], [], 0, [0]⟩
  refs := [⟨"x", .definition, 1, 0⟩, ⟨"x", .use, 2, 0⟩, ⟨"x", .definition, 3, 0⟩]
  statements := ∅
  sources := [⟨"x", 1, .userInput, none⟩]
  sinks := [⟨"x", 2, .codeEval, false, none⟩]
  sanitizerLines := []

/-- A variable that is set to a buffer that is filled by a source. -/
def filledBuffer : TaintInput where
  cfg := ⟨"main", [⟨0, (1, 3)⟩], [], 0, [0]⟩
  refs := [⟨"x", .definition, 1, 0⟩, ⟨"x", .use, 2, 0⟩, ⟨"x", .use, 3, 0⟩]
  statements := ∅
  sources := [⟨"x", 2, .fileRead, none⟩]
  sinks := [⟨"x", 3, .codeEval, false, none⟩]
  sanitizerLines := []

def MissesPath (input : TaintInput) : Prop :=
  ∃ info, input.computeTaintWithTree .insertion = .ok info ∧ info.convergence = none ∧
    ¬ input.Complete info

theorem missesPath_of (hvalid : validateCfg .insertion input.cfg = .ok ())
    (hlimit : input.worklistResult.2.2 = false)
    (hflows : ((input.sinks.map fun sink =>
        { sink with tainted := input.sinkTainted input.worklistResult.1 sink }).filter
          (·.tainted)).flatMap (fun sink =>
            input.sources.filterMap (input.flow? input.worklistResult.1
              input.worklistResult.2.1 sink)) = [])
    (hsource : source ∈ input.sources) (hsink : sink ∈ input.sinks)
    (hblock : lineToBlock input.cfg sink.line = some b)
    (hcarries : input.Carries source b (input.countBefore b sink.line) sink.var) :
    MissesPath input := by
  obtain ⟨info, hok, -, hconvergence⟩ := computeTaintWithTree_of_valid hvalid
  obtain ⟨-, -, -, -, hinfo⟩ := computeTaintWithTree_ok hok
  refine ⟨info, hok, hconvergence hlimit, ?_⟩
  exact not_complete_of_flows_eq_nil (hinfo.trans hflows) hsource hsink hblock hcarries

/-- Paths that are missed: around a loop, past a branch that sanitizes, to a sink before a
definition in its block, and from a source whose variable was defined before it in its block. -/
theorem misses_paths : MissesPath readAtEndOfLoop ∧ MissesPath sanitizedOnBranch ∧
    MissesPath clearedAfterSink ∧ MissesPath filledBuffer := by
  refine ⟨?_, ?_, ?_, ?_⟩
  · have hbegins : readAtEndOfLoop.Begins ⟨"x", 2, .userInput, none⟩ 0 := by
      unfold Begins
      decide +kernel
    have hcarries : readAtEndOfLoop.Carries ⟨"x", 2, .userInput, none⟩ 0 0 "x" :=
      .edge (.begins hbegins) ⟨⟨0, 0⟩, by decide, rfl, rfl⟩
    exact missesPath_of rfl (by decide +kernel) (by decide +kernel) (List.mem_singleton_self _)
      (List.mem_singleton_self _) (by decide +kernel) hcarries
  · have hbegins : sanitizedOnBranch.Begins ⟨"x", 1, .userInput, none⟩ 0 := by
      unfold Begins
      decide +kernel
    have hcarries : sanitizedOnBranch.Carries ⟨"x", 1, .userInput, none⟩ 2 0 "x" :=
      .edge (.begins hbegins) ⟨⟨0, 2⟩, by decide, rfl, rfl⟩
    exact missesPath_of rfl (by decide +kernel) (by decide +kernel) (List.mem_singleton_self _)
      (List.mem_singleton_self _) (by decide +kernel) hcarries
  · have hbegins : clearedAfterSink.Begins ⟨"x", 1, .userInput, none⟩ 0 := by
      unfold Begins
      decide +kernel
    exact missesPath_of rfl (by decide +kernel) (by decide +kernel) (List.mem_singleton_self _)
      (List.mem_singleton_self _) (by decide +kernel) (.begins hbegins)
  · have hbegins : filledBuffer.Begins ⟨"x", 2, .fileRead, none⟩ 0 := by
      unfold Begins
      decide +kernel
    exact missesPath_of rfl (by decide +kernel) (by decide +kernel) (List.mem_singleton_self _)
      (List.mem_singleton_self _) (by decide +kernel) (.begins hbegins)

def evaluated : TaintInput := { clearedAfterSink with
  refs := [⟨"x", .definition, 1, 0⟩, ⟨"x", .use, 2, 0⟩] }

theorem exists_flow_evaluated : ∃ info, evaluated.computeTaintWithTree .insertion = .ok info ∧
    ∃ flow ∈ info.flows, flow.sink.line = 2 := by
  have hvalid : validateCfg .insertion evaluated.cfg = .ok () := rfl
  obtain ⟨info, hok, -, hconvergence⟩ := computeTaintWithTree_of_valid hvalid
  have hbegins : evaluated.Begins ⟨"x", 1, .userInput, none⟩ 0 := by
    unfold Begins
    decide +kernel
  have hcarries : evaluated.Carries ⟨"x", 1, .userInput, none⟩ 0 2 "x" :=
    .keep (k := 1) (r := ⟨"x", .use, 2, 0⟩) (by decide +kernel) (.begins hbegins)
      (fun h => nomatch h)
  have hkept : evaluated.Kept ⟨"x", 1, .userInput, none⟩ := by
    intro b hb
    have hzero : b = 0 := by
      have hb : lineToBlock evaluated.cfg 1 = some b := hb
      have h0 : lineToBlock evaluated.cfg 1 = some 0 := by decide +kernel
      rw [h0] at hb
      exact (Option.some_inj.1 hb).symm
    subst hzero
    exact .inl ⟨⟨"x", .definition, 1, 0⟩, by decide +kernel, rfl, rfl, rfl⟩
  have hclean : ∀ x, ¬ evaluated.Sanitized x := by
    rintro x ⟨r, -, -, hline, -⟩
    cases hline
  obtain ⟨flow, hflow, -, hsink⟩ := exists_flow .insertion evaluated info hok
    (hconvergence (by decide +kernel)) ⟨"x", 1, .userInput, none⟩ (List.mem_singleton_self _)
    hkept ⟨"x", 2, .codeEval, false, none⟩ (List.mem_singleton_self _) 0 (by decide +kernel)
    hcarries (by decide) (hclean _) (hclean _)
  refine ⟨info, hok, flow, hflow, ?_⟩
  rw [hsink]

end TaintInput

end TldrCode.Security
