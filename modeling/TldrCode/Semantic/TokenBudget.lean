import TldrCode.Semantic.Boundaries
import TldrCode.UnstableSort

/-!
# Windows of a token budget

`semantic/token_budget.rs`: a text is cut into windows of at most so many tokens, by the offsets of
the tokenizer. Whatever the tokenizer counts, the windows start one after the other and leave no
gap (`byteWindows_spec`).
-/

namespace TldrCode.Semantic

open TldrCode.Dataflow

/-! ## Budgets -/

/-- What is read of an `Encoding`: the ids of its tokens, and where they are in the text. -/
structure Encoding where
  ids : List Nat
  offsets : List (Nat × Nat)
  deriving DecidableEq, Repr

inductive TokenBudgetError where
  | encode (message : String)
  | impossibleBudget (maxTokens : Nat)
  deriving DecidableEq, Repr

/-- How a run ends without a value: with an error, by a panic, or not within its rounds. -/
inductive Stop (ε : Type) where
  | error (e : ε)
  | panic
  | running
  deriving DecidableEq, Repr

/-- `TokenBudget`, with a tokenizer that adds the special tokens. -/
structure TokenBudget where
  tokenizer : List Char → Except String Encoding
  budget : Nat

structure TokenCheck where
  originalTokens : Nat
  budget : Nat
  truncated : Bool
  embeddedTokens : Nat
  deriving DecidableEq, Repr

def orPanic {ε α : Type} : Option α → Except (Stop ε) α
  | some a => .ok a
  | none => .error .panic

namespace TokenBudget

variable (budget : TokenBudget)

def encode (text : List Char) : Except TokenBudgetError Encoding :=
  (budget.tokenizer text).mapError .encode

def tokenCount (text : List Char) : Except TokenBudgetError Nat :=
  (budget.encode text).map (·.ids.length)

def check (text : List Char) : Except TokenBudgetError TokenCheck :=
  (budget.tokenCount text).map fun originalTokens =>
    { originalTokens
      budget := budget.budget
      truncated := budget.budget < originalTokens
      embeddedTokens := min originalTokens budget.budget }

/-! ## Windows -/

def orStop {α : Type} (x : Except TokenBudgetError α) : Except (Stop TokenBudgetError) α :=
  x.mapError .error

/-- The first of the ends up to which the text fits. -/
def findEnd (text : List Char) (maxTokens start : Nat) :
    List Nat → Except (Stop TokenBudgetError) (Option Nat)
  | [] => .ok none
  | stop :: ends => do
    let part ← orPanic (slice text start stop)
    match budget.tokenCount part with
    | .ok n => if n ≤ maxTokens then return some stop else findEnd text maxTokens start ends
    | .error _ => findEnd text maxTokens start ends

/-- The ends that the offsets of an encoding give, in their order. -/
def candidateEnds (start : Nat) (encoding : Encoding) : List Nat :=
  let ends := encoding.offsets.filterMap fun (_, stop) =>
    if 0 < stop then some (start + stop) else none
  (ends.insertionSort (· ≤ ·)).destutter (· ≠ ·)

/-- Where a window ends, as the position of a boundary. -/
def endIndex (text : List Char) (maxTokens startIndex start : Nat) (suffix : List Char) :
    Except (Stop TokenBudgetError) Nat := do
  let encoding ← orStop (budget.encode suffix)
  let contentSlots := maxTokens - (← orStop (budget.tokenCount []))
  let ends := (candidateEnds start encoding).take (max contentSlots 1)
  let found ← budget.findEnd text maxTokens start ends.reverse
  let endIndex := (found.bind fun stop => (boundaries text).idxOf? stop).getD startIndex
  if endIndex ≤ startIndex then
    let next := startIndex + 1
    if next < (boundaries text).length then
      let part ← orPanic (slice text start (← orPanic (boundaries text)[next]?))
      if (← orStop (budget.tokenCount part)) ≤ maxTokens then return next
  return endIndex

/-- Where the next window would start, as the position of a boundary. -/
def nextIndex (text : List Char) (overlap start stop endIndex : Nat) :
    Except (Stop TokenBudgetError) Nat := do
  if overlap = 0 then return endIndex
  let part ← orPanic (slice text start stop)
  let prefixed ← orStop (budget.encode part)
  let inside := prefixed.offsets.filter fun (offsetStart, offsetEnd) =>
    offsetStart < offsetEnd ∧ offsetEnd ≤ stop - start
  return (((inside.reverse.take overlap).getLast?).bind fun (offsetStart, _) =>
    (boundaries text).idxOf? (start + offsetStart)).getD endIndex

/-- The windows from a position on, in so many rounds. -/
def windowsFrom (text : List Char) (maxTokens overlapTokens : Nat) :
    Nat → Nat → Except (Stop TokenBudgetError) (List (Nat × Nat))
  | 0, _ => .error .running
  | rounds + 1, startIndex => do
    let start ← orPanic (boundaries text)[startIndex]?
    if start < byteLen text then
      let suffix ← orPanic (slice text start (byteLen text))
      if (← orStop (budget.tokenCount suffix)) ≤ maxTokens then return [(start, byteLen text)]
      let endIndex ← budget.endIndex text maxTokens startIndex start suffix
      if endIndex ≤ startIndex then throw (.error (.impossibleBudget maxTokens))
      let stop ← orPanic (boundaries text)[endIndex]?
      if stop = byteLen text then return [(start, stop)]
      let overlap := min overlapTokens (maxTokens - 1)
      let next ← budget.nextIndex text overlap start stop endIndex
      let windows ← windowsFrom text maxTokens overlapTokens rounds
        (min (max next (startIndex + 1)) endIndex)
      return (start, stop) :: windows
    else return []

/-- `byte_windows`. Every round starts at a later boundary. -/
def byteWindows (text : List Char) (maxTokens overlapTokens : Nat) :
    Except (Stop TokenBudgetError) (List (Nat × Nat)) := do
  if text.isEmpty then return []
  if maxTokens = 0 then throw (.error (.impossibleBudget maxTokens))
  if maxTokens < (← orStop (budget.tokenCount [])) then
    throw (.error (.impossibleBudget maxTokens))
  budget.windowsFrom text maxTokens overlapTokens (boundaries text).length 0

/-! ## What windows are -/

/-- The offsets of every encoding are boundaries of its text. -/
def OffsetsOnBoundaries : Prop :=
  ∀ text encoding, budget.tokenizer text = .ok encoding →
    ∀ offset ∈ encoding.offsets, IsBoundary text offset.1 ∧ IsBoundary text offset.2

/-- The text between two boundaries is of at most so many tokens. -/
def FitsBetween (text : List Char) (maxTokens : Nat) (window : Nat × Nat) : Prop :=
  ∃ part n, slice text window.1 window.2 = some part ∧ budget.tokenCount part = .ok n ∧
    n ≤ maxTokens

/-- A window follows another: it starts later and not behind the other, without an overlap where
the other ends. -/
def Follows (overlap : Nat) (window next : Nat × Nat) : Prop :=
  window.1 < next.1 ∧ next.1 ≤ window.2 ∧ next.1 < next.2 ∧ (overlap = 0 → window.2 = next.1)

/-- A run of a budget ends with a value, or the budget is impossible, or the tokenizer fails, or it
has offsets that are not on boundaries. -/
inductive Runs {α : Type} (maxTokens : Nat) (x : Except (Stop TokenBudgetError) α)
    (I : α → Prop) : Prop
  | ok (a : α) (hx : x = .ok a) (ha : I a)
  | impossible (hx : x = .error (.error (.impossibleBudget maxTokens)))
  | encode (text : List Char) (message : String) (htext : budget.tokenizer text = .error message)
    (hx : x = .error (.error (.encode message)))
  | panic (hoffsets : ¬budget.OffsetsOnBoundaries) (hx : x = .error .panic)

/-- The windows of a text: each fits, they cover the text without a gap, and they start one after
the other. They end one after the other where they do not overlap. -/
structure IsWindowing (text : List Char) (maxTokens overlapTokens : Nat)
    (windows : List (Nat × Nat)) : Prop where
  boundaries : ∀ window ∈ windows, IsBoundary text window.1 ∧ IsBoundary text window.2
  fits : ∀ window ∈ windows, budget.FitsBetween text maxTokens window
  first : text ≠ [] → windows.head?.map (·.1) = some 0
  gapless : windows.IsChain fun window next => next.1 ≤ window.2
  last : text ≠ [] → windows.getLast?.map (·.2) = some (byteLen text)
  starts : windows.Pairwise fun window next => window.1 < next.1
  ends : min overlapTokens (maxTokens - 1) = 0 →
    windows.Pairwise fun window next => window.2 < next.2

/-! ## Runs -/

section Runs

variable {budget : TokenBudget} {α β : Type} {maxTokens : Nat} {I : α → Prop} {J : β → Prop}

theorem Runs.bind {x : Except (Stop TokenBudgetError) α}
    {f : α → Except (Stop TokenBudgetError) β} (hx : budget.Runs maxTokens x I)
    (hf : ∀ a, I a → budget.Runs maxTokens (f a) J) : budget.Runs maxTokens (x >>= f) J := by
  cases hx with
  | ok a hx ha =>
    rw [hx]
    exact hf a ha
  | impossible hx =>
    rw [hx]
    exact .impossible rfl
  | encode text message htext hx =>
    rw [hx]
    exact .encode text message htext rfl
  | panic hoffsets hx =>
    rw [hx]
    exact .panic hoffsets rfl

theorem Runs.mono {x : Except (Stop TokenBudgetError) α} {I' : α → Prop}
    (hx : budget.Runs maxTokens x I) (h : ∀ a, I a → I' a) : budget.Runs maxTokens x I' := by
  cases hx with
  | ok a hx ha => exact .ok a hx (h a ha)
  | impossible hx => exact .impossible hx
  | encode text message htext hx => exact .encode text message htext hx
  | panic hoffsets hx => exact .panic hoffsets hx

theorem Runs.pure {a : α} (ha : I a) : budget.Runs maxTokens (pure a) I :=
  .ok a rfl ha

theorem Runs.orPanic {x : Option α} {a : α} (hx : x = some a) (ha : I a) :
    budget.Runs maxTokens (orPanic x) I := by
  rw [hx]
  exact .ok a rfl ha

theorem runs_orPanic {x : Option α} (hx : budget.OffsetsOnBoundaries → ∃ a, x = some a) :
    budget.Runs maxTokens (orPanic x) fun a => x = some a := by
  cases x with
  | some a => exact .ok a rfl rfl
  | none =>
    refine .panic (fun hoffsets => ?_) rfl
    obtain ⟨a, ha⟩ := hx hoffsets
    cases ha

theorem runs_encode (text : List Char) :
    budget.Runs maxTokens (orStop (budget.encode text))
      fun encoding => budget.tokenizer text = .ok encoding := by
  unfold encode
  cases htext : budget.tokenizer text with
  | ok encoding => exact .ok encoding rfl rfl
  | error message => exact .encode text message htext rfl

theorem runs_tokenCount (text : List Char) :
    budget.Runs maxTokens (orStop (budget.tokenCount text))
      fun n => budget.tokenCount text = .ok n := by
  unfold tokenCount encode
  cases htext : budget.tokenizer text with
  | ok encoding => exact .ok encoding.ids.length rfl rfl
  | error message => exact .encode text message htext rfl

end Runs

variable {budget} {text : List Char} {maxTokens startIndex : Nat}

theorem runs_findEnd {ends : List Nat} (hends : budget.OffsetsOnBoundaries → ∀ stop ∈ ends,
      ∃ j, startIndex < j ∧ j ≤ text.length ∧ stop = boundaryAt text j) :
    budget.Runs maxTokens (budget.findEnd text maxTokens (boundaryAt text startIndex) ends)
      fun found => ∀ stop ∈ found,
        budget.FitsBetween text maxTokens (boundaryAt text startIndex, stop) := by
  induction ends with
  | nil => exact .ok none rfl nofun
  | cons stop ends ih =>
    have hlater := ih fun hoffsets => (List.forall_mem_cons.1 (hends hoffsets)).2
    have hslice : budget.OffsetsOnBoundaries →
        ∃ part, slice text (boundaryAt text startIndex) stop = some part := by
      intro hoffsets
      obtain ⟨j, hlt, -, rfl⟩ := hends hoffsets stop List.mem_cons_self
      exact ⟨_, slice_boundaryAt text hlt.le⟩
    unfold findEnd
    refine Runs.bind (runs_orPanic hslice) fun part hpart => ?_
    cases hcount : budget.tokenCount part with
    | error e => exact hlater
    | ok n =>
      by_cases hn : n ≤ maxTokens
      · simp only [if_pos hn]
        refine Runs.pure fun stop hstop => ?_
        obtain rfl := Option.some.inj hstop
        exact ⟨part, n, hpart, hcount, hn⟩
      · simpa only [if_neg hn] using hlater

theorem mem_candidateEnds {suffix : List Char} {encoding : Encoding}
    (hsuffix : text.drop startIndex = suffix) (hstart : startIndex ≤ text.length)
    (hoffsets : ∀ offset ∈ encoding.offsets, IsBoundary suffix offset.2) {stop : Nat}
    (h : stop ∈ candidateEnds (boundaryAt text startIndex) encoding) :
    ∃ j, startIndex < j ∧ j ≤ text.length ∧ stop = boundaryAt text j := by
  rw [candidateEnds, mem_destutter, List.mem_insertionSort] at h
  obtain ⟨offset, hoffset, heq⟩ := List.mem_filterMap.1 h
  change (if 0 < offset.2 then some (boundaryAt text startIndex + offset.2) else none) = _ at heq
  split_ifs at heq with hpos
  obtain rfl := Option.some.inj heq
  obtain ⟨k, hk, hat⟩ := (hoffsets offset hoffset).exists_boundaryAt
  subst hsuffix
  rw [List.length_drop] at hk
  have hne : k ≠ 0 := by
    rintro rfl
    rw [hat, boundaryAt_zero] at hpos
    exact Nat.lt_irrefl 0 hpos
  refine ⟨startIndex + k, by omega, by omega, ?_⟩
  have hpart : boundaryAt text startIndex + boundaryAt ((text.take text.length).drop startIndex) k =
      boundaryAt text (startIndex + k) := boundaryAt_part (by omega)
  rw [List.take_length] at hpart
  rw [hat, hpart]

theorem runs_endIndex (hstart : startIndex < text.length) :
    budget.Runs maxTokens (budget.endIndex text maxTokens startIndex (boundaryAt text startIndex)
      (text.drop startIndex)) fun endIndex => startIndex < endIndex →
        endIndex ≤ text.length ∧
          budget.FitsBetween text maxTokens
            (boundaryAt text startIndex, boundaryAt text endIndex) := by
  unfold endIndex
  refine Runs.bind (runs_encode _) fun encoding hencoding => ?_
  refine Runs.bind (runs_tokenCount []) fun special _ => ?_
  have hends : budget.OffsetsOnBoundaries →
      ∀ stop ∈ ((candidateEnds (boundaryAt text startIndex) encoding).take
        (max (maxTokens - special) 1)).reverse,
      ∃ j, startIndex < j ∧ j ≤ text.length ∧ stop = boundaryAt text j :=
    fun hoffsets stop hstop => mem_candidateEnds rfl hstart.le
      (fun offset hoffset => (hoffsets _ _ hencoding offset hoffset).2)
      (List.mem_of_mem_take (List.mem_reverse.1 hstop))
  refine Runs.bind (runs_findEnd hends) fun found hfound => ?_
  have hfits : startIndex < (found.bind fun stop => (boundaries text).idxOf? stop).getD startIndex →
      (found.bind fun stop => (boundaries text).idxOf? stop).getD startIndex ≤ text.length ∧
        budget.FitsBetween text maxTokens (boundaryAt text startIndex, boundaryAt text
          ((found.bind fun stop => (boundaries text).idxOf? stop).getD startIndex)) := by
    intro hlt
    cases hfound' : found.bind fun stop => (boundaries text).idxOf? stop with
    | none =>
      rw [hfound'] at hlt
      exact absurd hlt (Nat.lt_irrefl _)
    | some j =>
      obtain ⟨stop, hstop, hindex⟩ := Option.bind_eq_some_iff.1 hfound'
      obtain ⟨hj, rfl⟩ := eq_boundaryAt_of_idxOf? hindex
      exact ⟨hj, hfound _ hstop⟩
  dsimp only
  split
  · rw [if_pos (by rw [length_boundaries]; omega)]
    refine Runs.bind (Runs.orPanic (getElem?_boundaries hstart) rfl) fun stop hstop => ?_
    subst hstop
    have hslice := slice_boundaryAt text (Nat.le_add_right startIndex 1)
    refine Runs.bind (Runs.orPanic hslice rfl) fun part hpart => ?_
    subst hpart
    refine Runs.bind (runs_tokenCount _) fun n hn => ?_
    split
    · next hle => exact Runs.pure fun _ => ⟨hstart, _, n, hslice, hn, hle⟩
    · exact Runs.pure hfits
  · exact Runs.pure hfits

theorem runs_nextIndex {overlap endIndex : Nat} (hle : startIndex ≤ endIndex) :
    budget.Runs maxTokens (budget.nextIndex text overlap (boundaryAt text startIndex)
      (boundaryAt text endIndex) endIndex) fun next => overlap = 0 → next = endIndex := by
  unfold nextIndex
  split
  · exact Runs.pure fun _ => rfl
  · next hoverlap =>
    refine Runs.bind (Runs.orPanic (slice_boundaryAt text hle) rfl) fun part _ => ?_
    exact Runs.bind (runs_encode _) fun _ _ => Runs.pure fun h => absurd h hoverlap

/-! ## All windows -/

variable {windows : List (Nat × Nat)}

variable (budget) in
structure AreWindows (text : List Char) (maxTokens overlap start : Nat)
    (windows : List (Nat × Nat)) : Prop where
  fits : ∀ window ∈ windows, budget.FitsBetween text maxTokens window
  first : windows.head?.map (·.1) = some start
  follows : windows.IsChain (Follows overlap)
  last : windows.getLast?.map (·.2) = some (byteLen text)

theorem AreWindows.single {overlap start : Nat}
    (hfits : budget.FitsBetween text maxTokens (start, byteLen text)) :
    budget.AreWindows text maxTokens overlap start [(start, byteLen text)] where
  fits := by simpa using hfits
  first := rfl
  follows := .singleton _
  last := rfl

theorem AreWindows.cons {overlap start stop next : Nat}
    (h : budget.AreWindows text maxTokens overlap next windows)
    (hfits : budget.FitsBetween text maxTokens (start, stop)) (hstart : start < next)
    (hstop : next ≤ stop) (hoverlap : overlap = 0 → stop = next)
    (hordered : ∀ window ∈ windows.head?, window.1 < window.2) :
    budget.AreWindows text maxTokens overlap start ((start, stop) :: windows) where
  fits := List.forall_mem_cons.2 ⟨hfits, h.fits⟩
  first := rfl
  follows := by
    refine List.isChain_cons.2 ⟨fun window hwindow => ?_, h.follows⟩
    have hnext : window.1 = next := by
      have hfirst := h.first
      rw [hwindow] at hfirst
      exact Option.some.inj hfirst
    subst hnext
    exact ⟨hstart, hstop, hordered window hwindow, hoverlap⟩
  last := by
    cases windows with
    | nil => cases h.first
    | cons window windows => exact h.last

theorem runs_windowsFrom (overlapTokens : Nat) {rounds : Nat}
    (hstart : startIndex < text.length) (hrounds : text.length ≤ startIndex + rounds) :
    budget.Runs maxTokens (budget.windowsFrom text maxTokens overlapTokens rounds startIndex)
      fun windows => budget.AreWindows text maxTokens (min overlapTokens (maxTokens - 1))
        (boundaryAt text startIndex) windows ∧
        ∀ window ∈ windows.head?, window.1 < window.2 := by
  induction rounds generalizing startIndex with
  | zero => omega
  | succ rounds ih =>
    have hsuffix : slice text (boundaryAt text startIndex) (byteLen text) =
        some (text.drop startIndex) := by
      have h := slice_boundaryAt text hstart.le
      rwa [boundaryAt_length, List.take_length] at h
    have hlt : boundaryAt text startIndex < byteLen text := by
      rw [← boundaryAt_length]
      exact boundaryAt_lt hstart (Nat.le_refl _)
    unfold windowsFrom
    refine Runs.bind (Runs.orPanic (getElem?_boundaries hstart.le) rfl) fun start h => ?_
    subst h
    rw [if_pos hlt]
    refine Runs.bind (Runs.orPanic hsuffix rfl) fun suffix h => ?_
    subst h
    refine Runs.bind (runs_tokenCount _) fun n hn => ?_
    by_cases hfits : n ≤ maxTokens
    · rw [if_pos hfits]
      refine Runs.pure ⟨.single ⟨_, n, hsuffix, hn, hfits⟩, ?_⟩
      simpa using hlt
    rw [if_neg hfits]
    refine Runs.bind (runs_endIndex hstart) fun endIndex hend => ?_
    by_cases hle : endIndex ≤ startIndex
    · rw [if_pos hle]
      exact .impossible rfl
    rw [if_neg hle]
    have hlater := Nat.not_le.1 hle
    obtain ⟨hlength, hfit⟩ := hend hlater
    refine Runs.bind (Runs.orPanic (getElem?_boundaries hlength) rfl) fun stop h => ?_
    subst h
    by_cases hstop : boundaryAt text endIndex = byteLen text
    · rw [if_pos hstop, hstop]
      rw [hstop] at hfit
      exact Runs.pure ⟨.single hfit, by simpa using hlt⟩
    rw [if_neg hstop]
    refine Runs.bind (runs_nextIndex hlater.le) fun next hnext => ?_
    have hinside : endIndex < text.length := by
      refine Nat.lt_of_le_of_ne hlength ?_
      rintro rfl
      exact hstop boundaryAt_length
    set nextStart := min (max next (startIndex + 1)) endIndex with hnextStart
    have hnextLt : nextStart < text.length := by omega
    refine Runs.bind (ih hnextLt (by omega)) fun windows hwindows => ?_
    refine Runs.pure ⟨hwindows.1.cons hfit (boundaryAt_lt (by omega) (by omega))
      (boundaryAt_le (by omega)) (fun hoverlap => ?_) hwindows.2, ?_⟩
    · have heq : nextStart = endIndex := by
        rw [hnextStart, hnext hoverlap]
        omega
      rw [heq]
    · simpa using boundaryAt_lt hlater hlength

theorem FitsBetween.isBoundary {window : Nat × Nat}
    (h : budget.FitsBetween text maxTokens window) :
    IsBoundary text window.1 ∧ IsBoundary text window.2 := by
  obtain ⟨part, -, hslice, -, -⟩ := h
  exact isBoundary_of_slice hslice

theorem AreWindows.isWindowing {overlapTokens : Nat}
    (h : budget.AreWindows text maxTokens (min overlapTokens (maxTokens - 1)) 0 windows) :
    budget.IsWindowing text maxTokens overlapTokens windows where
  boundaries window hwindow := (h.fits window hwindow).isBoundary
  fits := h.fits
  first _ := h.first
  gapless := h.follows.imp fun _ _ hfollows => hfollows.2.1
  last _ := h.last
  starts := by
    rw [← List.isChain_iff_pairwise]
    exact h.follows.imp fun _ _ hfollows => hfollows.1
  ends hoverlap := by
    rw [← List.isChain_iff_pairwise]
    refine h.follows.imp fun window next hfollows => ?_
    rw [hfollows.2.2.2 hoverlap]
    exact hfollows.2.2.1

theorem runs_byteWindows (text : List Char) (maxTokens overlapTokens : Nat) :
    budget.Runs maxTokens (budget.byteWindows text maxTokens overlapTokens)
      (budget.IsWindowing text maxTokens overlapTokens) := by
  unfold byteWindows
  cases text with
  | nil => exact .ok [] rfl (by constructor <;> simp)
  | cons c text =>
    rw [if_neg (by simp)]
    by_cases hzero : maxTokens = 0
    · rw [if_pos hzero]
      exact .impossible rfl
    rw [if_neg hzero]
    refine Runs.bind (runs_tokenCount []) fun special _ => ?_
    by_cases hspecial : maxTokens < special
    · rw [if_pos hspecial]
      exact .impossible rfl
    rw [if_neg hspecial]
    have hrounds : (c :: text).length ≤ 0 + (boundaries (c :: text)).length := by
      rw [length_boundaries]
      omega
    refine (runs_windowsFrom overlapTokens (Nat.succ_pos text.length) hrounds).mono ?_
    exact fun windows hwindows => hwindows.1.isWindowing

/-- **The windows of a text**, whatever the tokenizer counts: the run ends, and unless the budget
is impossible or the tokenizer fails there are windows that fit and cover the text. -/
theorem byteWindows_spec (hoffsets : budget.OffsetsOnBoundaries) (text : List Char)
    (maxTokens overlapTokens : Nat) :
    budget.byteWindows text maxTokens overlapTokens =
        .error (.error (.impossibleBudget maxTokens)) ∨
      (∃ part message, budget.tokenizer part = .error message ∧
        budget.byteWindows text maxTokens overlapTokens = .error (.error (.encode message))) ∨
      ∃ windows, budget.byteWindows text maxTokens overlapTokens = .ok windows ∧
        budget.IsWindowing text maxTokens overlapTokens windows := by
  cases budget.runs_byteWindows text maxTokens overlapTokens with
  | ok windows hx hwindows => exact .inr (.inr ⟨windows, hx, hwindows⟩)
  | impossible hx => exact .inl hx
  | encode part message hpart hx => exact .inr (.inl ⟨part, message, hpart, hx⟩)
  | panic hpanic _ => exact absurd hoffsets hpanic

/-! ## Pieces of a text -/

/-- The offsets of pieces that come one after the other. -/
def offsetsOf : Nat → List (List Char) → List (Nat × Nat)
  | _, [] => []
  | n, piece :: pieces => (n, n + byteLen piece) :: offsetsOf (n + byteLen piece) pieces

def ofPieces (pieces : List Char → List (List Char)) (budget : Nat) : TokenBudget :=
  ⟨fun text => .ok ⟨(pieces text).map fun _ => 0, offsetsOf 0 (pieces text)⟩, budget⟩

theorem isBoundary_offsetsOf {l : List Char} {pieces : List (List Char)} {offset : Nat × Nat}
    (h : offset ∈ offsetsOf (byteLen l) pieces) :
    IsBoundary (l ++ pieces.flatten) offset.1 ∧ IsBoundary (l ++ pieces.flatten) offset.2 := by
  induction pieces generalizing l with
  | nil => cases h
  | cons piece pieces ih =>
    rw [offsetsOf, ← byteLen_append, List.mem_cons] at h
    rw [List.flatten_cons, ← List.append_assoc]
    rcases h with rfl | h
    · exact ⟨⟨l, piece ++ pieces.flatten, List.append_assoc .., rfl⟩,
        ⟨l ++ piece, pieces.flatten, rfl, rfl⟩⟩
    · exact ih h

theorem offsetsOnBoundaries_ofPieces {pieces : List Char → List (List Char)} {n : Nat}
    (h : ∀ text, (pieces text).flatten = text) : (ofPieces pieces n).OffsetsOnBoundaries := by
  intro text encoding hencoding offset hoffset
  obtain rfl := Except.ok.inj hencoding
  have hboundary := isBoundary_offsetsOf (l := []) hoffset
  rwa [List.nil_append, h] at hboundary

/-- The word `abc` is two pieces, and without its start as many as its characters. -/
def piecesOf : List Char → List (List Char)
  | 'a' :: 'b' :: 'c' :: rest => ['a'] :: ['b', 'c'] :: rest.map ([·])
  | text => text.map ([·])

theorem flatten_map_singleton (text : List Char) : (text.map ([·])).flatten = text := by
  induction text with
  | nil => rfl
  | cons c text ih => rw [List.map_cons, List.flatten_cons, ih, List.singleton_append]

theorem flatten_piecesOf (text : List Char) : (piecesOf text).flatten = text := by
  unfold piecesOf
  split
  · rw [List.flatten_cons, List.flatten_cons, flatten_map_singleton]
    rfl
  · exact flatten_map_singleton text

theorem byteWindows_spec_abcd :
    (ofPieces piecesOf 2).byteWindows ['a', 'b', 'c', 'd'] 2 1 =
        .error (.error (.impossibleBudget 2)) ∨
      (∃ part message, (ofPieces piecesOf 2).tokenizer part = .error message ∧
        (ofPieces piecesOf 2).byteWindows ['a', 'b', 'c', 'd'] 2 1 =
          .error (.error (.encode message))) ∨
      ∃ windows, (ofPieces piecesOf 2).byteWindows ['a', 'b', 'c', 'd'] 2 1 = .ok windows ∧
        (ofPieces piecesOf 2).IsWindowing ['a', 'b', 'c', 'd'] 2 1 windows :=
  byteWindows_spec (offsetsOnBoundaries_ofPieces flatten_piecesOf) _ _ _

/-- **Windows that overlap need not end one after the other.** -/
theorem not_increasing_ends : ¬∀ budget : TokenBudget, budget.OffsetsOnBoundaries →
    ∀ text maxTokens overlapTokens windows,
      budget.byteWindows text maxTokens overlapTokens = .ok windows →
      windows.Pairwise fun window next => window.2 < next.2 := by
  intro h
  have hrun : (ofPieces piecesOf 2).byteWindows ['a', 'b', 'c', 'd'] 2 1 =
      .ok [(0, 3), (1, 3), (2, 4)] := by decide +kernel
  have hpairwise := h _ (offsetsOnBoundaries_ofPieces flatten_piecesOf) _ _ _ _ hrun
  exact absurd hpairwise (by decide)

end TokenBudget

end TldrCode.Semantic
