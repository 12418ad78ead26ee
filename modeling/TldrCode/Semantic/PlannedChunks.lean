import TldrCode.Semantic.TokenBudget
import TldrCode.Semantic.Lineage

/-!
# Chunks of a file by byte ranges

`semantic/structural_planner.rs`: a chunk is derived from a range of the file, and a range that
cannot be divided is cut into windows of tokens. What is planned of a range is the text of the range
(`Tiles`), and the composed document of every chunk fits the budget (`yields_fallback`).
-/

namespace TldrCode.Semantic.Planning

open TldrCode.Dataflow

/-! ## Chunks -/

structure ChunkStructure where
  role : StructuralRole
  astPath : List UInt32
  sourceRange : Nat × Nat
  overlapRange : Option (Nat × Nat)
  overlapBytes : Nat
  repositoryPath : List Char
  qualifiedSymbol : Option (List Char)
  signature : Option (List Char)
  deriving DecidableEq, Repr

/-- `CodeChunk`, with the language as it is displayed. -/
structure CodeChunk where
  filePath : List Char
  functionName : Option (List Char)
  className : Option (List Char)
  lineStart : UInt32
  lineEnd : UInt32
  content : List Char
  contentHash : List Char
  language : List Char
  structure_ : ChunkStructure
  deriving DecidableEq, Repr

structure StructuralContext where
  qualifiedSymbol : Option (List Char)
  signature : Option (List Char)
  deriving DecidableEq, Repr

def StructuralContext.default : StructuralContext := ⟨none, none⟩

/-- How a `StructuralRole` is written. -/
def roleName : StructuralRole → String
  | .wholeRoot => "WholeRoot"
  | .parentSummary => "ParentSummary"
  | .astChild => "AstChild"
  | .tokenizerFallback => "TokenizerFallback"
  | .parseFallback => "ParseFallback"

/-- How a `TokenBudgetError` is written. -/
def errorMessage : TokenBudgetError → String
  | .encode e => s!"tokenizer encode failed: {e}"
  | .impossibleBudget n => s!"token budget {n} cannot fit one input unit"

/-- An error of the budget ends a run of the planner, with what it was for. -/
def Stop.inPlanner (what : String) : Stop TokenBudgetError → Stop String
  | .error e => .error s!"{what}: {errorMessage e}"
  | .panic => .panic
  | .running => .running

/-- A field before a document, while that fits. -/
def withField (budget : TokenBudget) (document field : List Char) :
    Except TokenBudgetError (List Char) := do
  let candidate := field ++ '\n' :: document
  if (← budget.check candidate).truncated then return document else return candidate

def composeMinimal (chunk : CodeChunk) (budget : TokenBudget) :
    Except TokenBudgetError (List Char) :=
  let document := "Code:\n".toList ++ chunk.content
  let path := ['.'].intercalate (chunk.structure_.astPath.map fun n => (toString n.toNat).toList)
  let fields := [
    chunk.structure_.qualifiedSymbol.map ("Symbol: ".toList ++ ·),
    chunk.structure_.signature.map ("Signature: ".toList ++ ·),
    some ("File: ".toList ++ chunk.structure_.repositoryPath),
    some ("Language: ".toList ++ chunk.language),
    some ("Role: ".toList ++ (roleName chunk.structure_.role).toList),
    some ("AST path: ".toList ++ path)]
  fields.reduceOption.foldlM (withField budget) document

def fits (chunk : CodeChunk) (budget : TokenBudget) : Except (Stop String) Bool :=
  ((composeMinimal chunk budget >>= budget.check).map fun check => !check.truncated).mapError
    fun e => Stop.inPlanner "structural token accounting failed" (.error e)

/-! ## Chunks of ranges -/

/-- `rsplit_once("::")`, with the owner before the name. -/
def ownerAndName (qualified : List Char) : Option (List Char) × List Char :=
  match splitOnce [':', ':'] qualified.reverse with
  | some (name, owner) => (some owner.reverse, name.reverse)
  | none => (none, qualified)

def newlines (text : List Char) : UInt32 := UInt32.ofNat (text.count '\n')

/-- `derived`. The hash of a text is given. -/
def derived (md5 : List Char → List Char) (file : CodeChunk) (start stop : Nat)
    (path : List UInt32) (role : StructuralRole) (context : StructuralContext) :
    Except (Stop String) CodeChunk := do
  let content ← orPanic (slice file.content start stop)
  let (functionName, className) := match context.qualifiedSymbol with
    | some qualified => (some (ownerAndName qualified).2, (ownerAndName qualified).1)
    | none => (none, none)
  let before ← orPanic (slice file.content 0 start)
  let lineStart := file.lineStart + newlines before
  return { file with
    functionName
    className
    contentHash := md5 content
    content
    structure_ := {
      role
      astPath := path
      sourceRange := (start, stop)
      overlapRange := none
      overlapBytes := 0
      repositoryPath := file.structure_.repositoryPath
      qualifiedSymbol := context.qualifiedSymbol
      signature := context.signature }
    lineStart
    lineEnd := lineStart + newlines (dropLast '\n' content) }

def fallbackOverlapTokens : Nat := 16

/-- What is planned of windows, the first after a window with this end, and whether all of it
fits. -/
def planWindows (md5 : List Char → List Char) (file : CodeChunk) (start : Nat)
    (path : List UInt32) (role : StructuralRole) (context : StructuralContext)
    (budget : TokenBudget) : Nat → List (Nat × Nat) → Except (Stop String) (List CodeChunk × Bool)
  | _, [] => .ok ([], true)
  | previousEnd, window :: windows => do
    let chunk ← derived md5 file (start + window.1) (start + window.2) path role context
    let chunk := if window.1 < previousEnd then
        { chunk with structure_ := { chunk.structure_ with
          overlapRange := some (start + window.1, start + previousEnd)
          overlapBytes := previousEnd - window.1 } }
      else chunk
    let fit ← fits chunk budget
    let (planned, allFit) ← planWindows md5 file start path role context budget window.2 windows
    return (chunk :: planned, fit && allFit)

/-- The allowances of a fallback, one after the other. -/
def fallbackFrom (md5 : List Char → List Char) (file : CodeChunk) (start : Nat)
    (source : List Char) (path : List UInt32) (role : StructuralRole)
    (context : StructuralContext) (budget : TokenBudget) :
    Nat → Nat → Except (Stop String) (List CodeChunk)
  | 0, _ => .error .running
  | rounds + 1, allowance => do
    let overlap := min fallbackOverlapTokens (allowance - 1)
    let windows ← (budget.byteWindows source allowance overlap).mapError
      (Stop.inPlanner "tokenizer fallback failed")
    let (planned, allFit) ← planWindows md5 file start path role context budget 0 windows
    if allFit && !planned.isEmpty then return planned
    else if allowance ≤ 1 then
      throw (.error "token budget cannot fit source plus structural context")
    else
      fallbackFrom md5 file start source path role context budget rounds
        (max (allowance * 3 / 4) 1)

/-- `fallback`. Every round has a smaller allowance. -/
def fallback (md5 : List Char → List Char) (file : CodeChunk) (start stop : Nat)
    (path : List UInt32) (role : StructuralRole) (context : StructuralContext)
    (budget : TokenBudget) : Except (Stop String) (List CodeChunk) :=
  if stop ≤ start then .ok []
  else do
    let source ← orPanic (slice file.content start stop)
    fallbackFrom md5 file start source path role context budget (budget.budget + 1) budget.budget

/-! ## What is planned -/

/-- The newlines that start before a byte, in a text that is at another byte. -/
def newlinesBefore (n k : Nat) (text : List Char) : Nat :=
  ((charIndices n text).zip text).countP fun (i, c) => i < k ∧ c = '\n'

def lineAt (file : CodeChunk) (n : Nat) : UInt32 :=
  file.lineStart + UInt32.ofNat (newlinesBefore 0 n file.content)

/-- The composed document of a chunk fits: it is not truncated. -/
def Fits (chunk : CodeChunk) (budget : TokenBudget) : Prop :=
  ∃ document check, composeMinimal chunk budget = .ok document ∧
    budget.check document = .ok check ∧ check.truncated = false

/-- A chunk that is planned: it has the text and the lines of its range, its overlap is the start
of that range, and its composed document fits. -/
structure Planned (file : CodeChunk) (budget : TokenBudget) (chunk : CodeChunk) : Prop where
  content : slice file.content chunk.structure_.sourceRange.1 chunk.structure_.sourceRange.2 =
    some chunk.content
  lineStart : chunk.lineStart = lineAt file chunk.structure_.sourceRange.1
  lineEnd : chunk.lineEnd =
    lineAt file (max chunk.structure_.sourceRange.1 (chunk.structure_.sourceRange.2 - 1))
  overlapRange : chunk.structure_.overlapRange = if chunk.structure_.overlapBytes = 0 then none
    else some (chunk.structure_.sourceRange.1,
      chunk.structure_.sourceRange.1 + chunk.structure_.overlapBytes)
  fits : Fits chunk budget

/-- The chunks are planned and, without their overlaps, lie one behind the other between two
bytes. -/
inductive Tiles (file : CodeChunk) (budget : TokenBudget) : Nat → Nat → List CodeChunk → Prop
  | nil (n : Nat) : Tiles file budget n n []
  | cons {stop : Nat} {chunk : CodeChunk} {chunks : List CodeChunk}
    (hchunk : Planned file budget chunk)
    (hle : chunk.structure_.sourceRange.1 + chunk.structure_.overlapBytes ≤
      chunk.structure_.sourceRange.2)
    (h : Tiles file budget chunk.structure_.sourceRange.2 stop chunks) :
    Tiles file budget (chunk.structure_.sourceRange.1 + chunk.structure_.overlapBytes) stop
      (chunk :: chunks)

/-- The windows of a fallback never end before the window before them. -/
def EndsAdvance (budget : TokenBudget) : Prop :=
  ∀ text allowance windows,
    budget.byteWindows text allowance (min fallbackOverlapTokens (allowance - 1)) = .ok windows →
    windows.Pairwise fun window next => window.2 ≤ next.2

/-- The text of chunks without their overlaps. -/
def textOf (chunks : List CodeChunk) : Option (List Char) :=
  (chunks.mapM fun chunk =>
    (splitAtByte chunk.content chunk.structure_.overlapBytes).map (·.2)).map List.flatten

/-! ## Lines -/

section Lines

variable {n k : Nat} {l r : List Char} {c : Char}

theorem newlinesBefore_cons : newlinesBefore n k (c :: l) =
    (if n < k ∧ c = '\n' then 1 else 0) + newlinesBefore (n + c.utf8Size) k l := by
  unfold newlinesBefore
  rw [charIndices, List.zip_cons_cons, List.countP_cons, Nat.add_comm]
  simp

theorem newlinesBefore_append : newlinesBefore n k (l ++ r) =
    newlinesBefore n k l + newlinesBefore (n + byteLen l) k r := by
  induction l generalizing n with
  | nil => rw [List.nil_append, byteLen_nil, Nat.add_zero, newlinesBefore]; simp [newlinesBefore]
  | cons c l ih =>
    rw [List.cons_append, newlinesBefore_cons, ih, newlinesBefore_cons, byteLen_cons,
      Nat.add_assoc, Nat.add_assoc]

theorem newlinesBefore_of_le (h : n + byteLen l ≤ k) : newlinesBefore n k l = l.count '\n' := by
  induction l generalizing n with
  | nil => rfl
  | cons c l ih =>
    have hc := c.utf8Size_pos
    rw [byteLen_cons] at h
    rw [newlinesBefore_cons, ih (by omega), List.count_cons, Nat.add_comm]
    congr 1
    have hlt : n < k := by omega
    simp [hlt]

theorem newlinesBefore_of_ge (h : k ≤ n) : newlinesBefore n k l = 0 := by
  induction l generalizing n with
  | nil => rfl
  | cons c l ih =>
    rw [newlinesBefore_cons, ih (by omega), if_neg (by omega)]

variable {left part right : List Char}

theorem newlinesBefore_start :
    newlinesBefore 0 (byteLen left) (left ++ part ++ right) = left.count '\n' := by
  rw [List.append_assoc, newlinesBefore_append, newlinesBefore_of_le (by omega),
    newlinesBefore_of_ge (by omega), Nat.add_zero]

theorem newlinesBefore_last (hpart : part ≠ []) :
    newlinesBefore 0 (byteLen (left ++ part) - 1) (left ++ part ++ right) =
      left.count '\n' + (dropLast '\n' part).count '\n' := by
  obtain ⟨init, c, rfl⟩ : ∃ init c, part = init ++ [c] :=
    ⟨part.dropLast, part.getLast hpart, (List.dropLast_append_getLast hpart).symm⟩
  have hc := c.utf8Size_pos
  have hlen : byteLen (left ++ (init ++ [c])) = byteLen (left ++ init) + c.utf8Size := by
    simp [Nat.add_assoc]
  have hlast : newlinesBefore (0 + byteLen (left ++ init))
      (byteLen (left ++ init) + c.utf8Size - 1) [c] = 0 := by
    rw [newlinesBefore_cons, if_neg]
    · rfl
    · rintro ⟨hlt, rfl⟩
      have : ('\n' : Char).utf8Size = 1 := by decide
      omega
  have hdrop : (dropLast '\n' (init ++ [c])).count '\n' = init.count '\n' := by
    unfold dropLast
    rw [List.getLast?_concat, List.dropLast_concat]
    split
    · rfl
    · next hne =>
      have hne' : c ≠ '\n' := fun h => hne (congrArg some h)
      rw [List.count_append, List.count_singleton]
      simp [hne']
  rw [hlen, ← List.append_assoc, newlinesBefore_append, newlinesBefore_append, hlast,
    newlinesBefore_of_le (by omega), newlinesBefore_of_ge (by rw [byteLen_append]; simp; omega),
    hdrop, List.count_append, Nat.add_zero]

end Lines

/-! ## Runs -/

/-- A run of the planner ends, and a value that it ends with is of this kind. -/
inductive Yields {α : Type} (x : Except (Stop String) α) (I : α → Prop) : Prop
  | ok (a : α) (hx : x = .ok a) (ha : I a)
  | error (message : String) (hx : x = .error (.error message))
  | panic (hx : x = .error .panic)

section Yields

variable {α β : Type} {x : Except (Stop String) α} {I I' : α → Prop} {J : β → Prop}
  {f : α → Except (Stop String) β}

theorem Yields.bind_eq (hx : Yields x I) (hf : ∀ a, x = .ok a → I a → Yields (f a) J) :
    Yields (x >>= f) J := by
  cases hx with
  | ok a hx ha =>
    have hfa := hf a hx ha
    rw [hx]
    exact hfa
  | error message hx =>
    rw [hx]
    exact .error message rfl
  | panic hx =>
    rw [hx]
    exact .panic rfl

theorem Yields.bind (hx : Yields x I) (hf : ∀ a, I a → Yields (f a) J) : Yields (x >>= f) J :=
  hx.bind_eq fun a _ => hf a

theorem Yields.mono (hx : Yields x I) (h : ∀ a, I a → I' a) : Yields x I' := by
  cases hx with
  | ok a hx ha => exact .ok a hx (h a ha)
  | error message hx => exact .error message hx
  | panic hx => exact .panic hx

theorem Yields.pure {a : α} (ha : I a) : Yields (pure a) I := .ok a rfl ha

theorem yields_orPanic (x : Option α) : Yields (orPanic x) fun a => x = some a := by
  cases x with
  | some a => exact .ok a rfl rfl
  | none => exact .panic rfl

theorem Yields.of_eq_ok {a : α} (h : Yields x I) (hx : x = .ok a) : I a := by
  cases h with
  | ok b hb hI =>
    obtain rfl := Except.ok.inj (hx.symm.trans hb)
    exact hI
  | error message he => exact nomatch hx.symm.trans he
  | panic hp => exact nomatch hx.symm.trans hp

end Yields

variable {md5 : List Char → List Char} {file chunk : CodeChunk} {budget : TokenBudget}
  {start stop : Nat} {path : List UInt32} {role : StructuralRole} {context : StructuralContext}
  {chunks : List CodeChunk}

theorem yields_fits (chunk : CodeChunk) (budget : TokenBudget) :
    Yields (fits chunk budget) fun fit =>
      fits chunk budget = .ok fit ∧ (fit = true → Fits chunk budget) := by
  suffices h : Yields (fits chunk budget) fun fit => fit = true → Fits chunk budget by
    cases h with
    | ok fit hx hfit => exact .ok fit hx ⟨hx, hfit⟩
    | error message hx => exact .error message hx
    | panic hx => exact .panic hx
  unfold fits
  cases hdocument : composeMinimal chunk budget with
  | error e => exact .error _ rfl
  | ok document =>
    change Yields (((budget.check document).map fun check => !check.truncated).mapError _) _
    cases hcheck : budget.check document with
    | error e => exact .error _ rfl
    | ok check =>
      refine .ok (!check.truncated) rfl fun hfit => ⟨document, check, hdocument, hcheck, ?_⟩
      simpa using hfit

structure OfRange (file : CodeChunk) (start stop : Nat) (chunk : CodeChunk) : Prop where
  sourceRange : chunk.structure_.sourceRange = (start, stop)
  overlapRange : chunk.structure_.overlapRange = none
  overlapBytes : chunk.structure_.overlapBytes = 0
  content : slice file.content start stop = some chunk.content
  lineStart : chunk.lineStart = lineAt file start
  lineEnd : chunk.lineEnd = lineAt file (max start (stop - 1))

theorem yields_derived :
    Yields (derived md5 file start stop path role context) (OfRange file start stop) := by
  unfold derived
  refine Yields.bind (yields_orPanic _) fun content hcontent => ?_
  refine Yields.bind (yields_orPanic _) fun before hbefore => ?_
  obtain ⟨left, right, htext, hstart, hstop⟩ := slice_eq_some.1 hcontent
  have hleft : before = left := by
    have hslice : slice file.content 0 start = some left :=
      slice_eq_some.2 ⟨[], content ++ right, by simp [htext], rfl, hstart⟩
    exact Option.some.inj (hbefore.symm.trans hslice)
  subst hleft hstart hstop
  have hlineStart : file.lineStart + newlines before = lineAt file (byteLen before) := by
    rw [lineAt, htext, newlinesBefore_start, newlines]
  refine Yields.pure ⟨rfl, rfl, rfl, hcontent, hlineStart, ?_⟩
  by_cases hempty : content = []
  · subst hempty
    rw [List.append_nil, Nat.max_eq_left (Nat.sub_le _ _), ← hlineStart]
    simp [newlines, dropLast]
  · have hlength : byteLen before ≤ byteLen (before ++ content) - 1 := by
      have := length_le_byteLen content
      have := List.length_pos_iff.2 hempty
      rw [byteLen_append]
      omega
    rw [Nat.max_eq_right hlength, lineAt, htext, newlinesBefore_last hempty, UInt32.ofNat_add,
      ← UInt32.add_assoc]
    rfl

/-! ## Tiles -/

theorem OfRange.planned (h : OfRange file start stop chunk) (hfits : Fits chunk budget) :
    Planned file budget chunk where
  content := by
    rw [h.sourceRange]
    exact h.content
  lineStart := by
    rw [h.sourceRange]
    exact h.lineStart
  lineEnd := by
    rw [h.sourceRange]
    exact h.lineEnd
  overlapRange := by rw [h.overlapRange, if_pos h.overlapBytes]
  fits := hfits

theorem OfRange.tiles (h : OfRange file start stop chunk) (hfits : Fits chunk budget) :
    Tiles file budget start stop [chunk] := by
  have hle : chunk.structure_.sourceRange.1 + chunk.structure_.overlapBytes ≤
      chunk.structure_.sourceRange.2 := by
    rw [h.sourceRange, h.overlapBytes]
    exact (Nat.le_add_right _ _).trans_eq (byteLen_of_slice h.content)
  have htiles : Tiles file budget chunk.structure_.sourceRange.2
      chunk.structure_.sourceRange.2 [] := .nil _
  have hcons := Tiles.cons (h.planned hfits) hle htiles
  rwa [h.sourceRange, h.overlapBytes] at hcons

theorem OfRange.overlapping (h : OfRange file start stop chunk) (previousEnd : Nat)
    (hstart : start < previousEnd) (hstop : previousEnd ≤ stop)
    (hfits : Fits { chunk with structure_ := { chunk.structure_ with
      overlapRange := some (start, previousEnd)
      overlapBytes := previousEnd - start } } budget) :
    Tiles file budget previousEnd stop [{ chunk with structure_ := { chunk.structure_ with
      overlapRange := some (start, previousEnd)
      overlapBytes := previousEnd - start } }] := by
  have hend : start + (previousEnd - start) = previousEnd := by omega
  have hplanned : Planned file budget { chunk with structure_ := { chunk.structure_ with
      overlapRange := some (start, previousEnd)
      overlapBytes := previousEnd - start } } := by
    constructor
    · rw [h.sourceRange]
      exact h.content
    · rw [h.sourceRange]
      exact h.lineStart
    · rw [h.sourceRange]
      exact h.lineEnd
    · have hne : previousEnd - start ≠ 0 := by omega
      rw [if_neg hne, h.sourceRange, hend]
    · exact hfits
  have hcons := Tiles.cons hplanned (by rw [h.sourceRange, hend]; exact hstop) (.nil _)
  rwa [h.sourceRange, hend] at hcons

theorem Tiles.append {middle : Nat} {chunks later : List CodeChunk}
    (h : Tiles file budget start middle chunks) (hlater : Tiles file budget middle stop later) :
    Tiles file budget start stop (chunks ++ later) := by
  induction h with
  | nil => exact hlater
  | cons hchunk hle _ ih => exact .cons hchunk hle (ih hlater)

theorem Tiles.le (h : Tiles file budget start stop chunks) : start ≤ stop := by
  induction h with
  | nil => exact Nat.le_refl _
  | cons _ hle _ ih => exact hle.trans ih

theorem Tiles.planned (h : Tiles file budget start stop chunks) :
    ∀ chunk ∈ chunks, Planned file budget chunk := by
  induction h with
  | nil => exact nofun
  | cons hchunk _ _ ih => exact List.forall_mem_cons.2 ⟨hchunk, ih⟩

theorem Tiles.textOf_eq {part : List Char} (h : Tiles file budget start stop chunks)
    (hpart : slice file.content start stop = some part) : textOf chunks = some part := by
  induction h generalizing part with
  | nil n =>
    have hlength := length_le_byteLen part
    have hpart := byteLen_of_slice hpart
    obtain rfl : part = [] := List.length_eq_zero_iff.1 (by omega)
    rfl
  | @cons stop chunk chunks hchunk hle h ih =>
    obtain ⟨first, second, hfirst, hsecond, rfl⟩ :=
      slice_split hpart (isBoundary_of_slice hchunk.content).2 hle h.le
    obtain ⟨overlap, fresh, hoverlap, hfresh, hcontent⟩ :=
      slice_split hchunk.content (isBoundary_of_slice hpart).1 (Nat.le_add_right _ _) hle
    obtain rfl : fresh = first := Option.some.inj (hfresh.symm.trans hfirst)
    have hbytes := byteLen_of_slice hoverlap
    have hsplit : splitAtByte chunk.content chunk.structure_.overlapBytes =
        some (overlap, fresh) := splitAtByte_eq_some.2 ⟨hcontent, by omega⟩
    have hlater := ih hsecond
    obtain ⟨parts, hparts, hflatten⟩ := Option.map_eq_some_iff.1 hlater
    unfold textOf
    rw [List.mapM_cons, hsplit, hparts, ← hflatten]
    rfl

theorem yields_planWindows {windows : List (Nat × Nat)} {previousEnd : Nat}
    (hgapless : windows.IsChain fun window next => next.1 ≤ window.2)
    (hends : windows.IsChain fun window next => window.2 ≤ next.2)
    (hfirst : ∀ window ∈ windows.head?, window.1 ≤ previousEnd ∧ previousEnd ≤ window.2) :
    Yields (planWindows md5 file start path role context budget previousEnd windows)
      fun planned => planned.2 = true → Tiles file budget (start + previousEnd)
        (start + (windows.getLast?.map (·.2)).getD previousEnd) planned.1 := by
  induction windows generalizing previousEnd with
  | nil => exact .ok _ rfl fun _ => .nil _
  | cons window windows ih =>
    obtain ⟨hnext, hgapless⟩ := List.isChain_cons.1 hgapless
    obtain ⟨hnextEnd, hends⟩ := List.isChain_cons.1 hends
    obtain ⟨hle, hend⟩ := hfirst window rfl
    unfold planWindows
    refine Yields.bind yields_derived fun chunk hchunk => ?_
    refine Yields.bind (yields_fits _ _) fun fit ⟨_, hfit⟩ => ?_
    refine Yields.bind (ih hgapless hends fun next h => ⟨hnext next h, hnextEnd next h⟩)
      fun planned hplanned => ?_
    refine Yields.pure fun hall => ?_
    obtain ⟨hfitTrue, hrest⟩ := (Bool.and_eq_true _ _).mp hall
    have hlast : ((window :: windows).getLast?.map (·.2)).getD previousEnd =
        (windows.getLast?.map (·.2)).getD window.2 := by
      cases windows with
      | nil => rfl
      | cons next windows => simp [List.getLast?_eq_some_getLast]
    rw [hlast]
    by_cases hlt : window.1 < previousEnd
    · rw [if_pos hlt] at hfit ⊢
      have htiles := hchunk.overlapping (start + previousEnd) (by omega) (by omega)
        (by rw [Nat.add_sub_add_left]; exact hfit hfitTrue)
      rw [Nat.add_sub_add_left] at htiles
      exact htiles.append (hplanned hrest)
    · rw [if_neg hlt] at hfit ⊢
      have heq : window.1 = previousEnd := by omega
      rw [heq] at hchunk
      exact (hchunk.tiles (hfit hfitTrue)).append (hplanned hrest)

theorem yields_byteWindows (text : List Char) (allowance overlap : Nat) :
    Yields ((budget.byteWindows text allowance overlap).mapError
        (Stop.inPlanner "tokenizer fallback failed"))
      fun windows => budget.byteWindows text allowance overlap = .ok windows ∧
        budget.IsWindowing text allowance overlap windows := by
  cases budget.runs_byteWindows text allowance overlap with
  | ok windows hx hwindows =>
    rw [hx]
    exact .ok windows rfl ⟨rfl, hwindows⟩
  | impossible hx =>
    rw [hx]
    exact .error _ rfl
  | encode part message hpart hx =>
    rw [hx]
    exact .error _ rfl
  | panic hoffsets hx =>
    rw [hx]
    exact .panic rfl

theorem yields_fallbackFrom (hends : EndsAdvance budget) {source : List Char}
    (hsource : slice file.content start stop = some source) (hlt : start < stop) {rounds : Nat}
    {allowance : Nat} (hrounds : max allowance 1 ≤ rounds) :
    Yields (fallbackFrom md5 file start source path role context budget rounds allowance)
      (Tiles file budget start stop) := by
  have hbytes := byteLen_of_slice hsource
  have hne : source ≠ [] := by
    rintro rfl
    rw [byteLen_nil] at hbytes
    omega
  induction rounds generalizing allowance with
  | zero => omega
  | succ rounds ih =>
    unfold fallbackFrom
    refine Yields.bind (yields_byteWindows _ _ _) fun windows ⟨hrun, hwindows⟩ => ?_
    have hchain := List.isChain_iff_pairwise.2 (hends _ _ _ hrun)
    have hfirst : ∀ window ∈ windows.head?, window.1 ≤ 0 ∧ 0 ≤ window.2 := by
      intro window hwindow
      have hfirst := hwindows.first hne
      rw [hwindow] at hfirst
      exact ⟨(Option.some.inj hfirst).le, Nat.zero_le _⟩
    refine Yields.bind (yields_planWindows hwindows.gapless hchain hfirst)
      fun ⟨planned, allFit⟩ hplanned => ?_
    dsimp only
    by_cases hfit : (allFit && !planned.isEmpty) = true
    · rw [if_pos hfit]
      have htiles := hplanned ((Bool.and_eq_true _ _).mp hfit).1
      rw [hwindows.last hne, Option.getD_some, hbytes, Nat.add_zero] at htiles
      exact .pure htiles
    · rw [if_neg hfit]
      by_cases hone : allowance ≤ 1
      · rw [if_pos hone]
        exact .error _ rfl
      · rw [if_neg hone]
        exact ih (by omega)

/-- **What is planned of a range that is not divided** tiles it. -/
theorem yields_fallback (hends : EndsAdvance budget) (hle : start ≤ stop) :
    Yields (fallback md5 file start stop path role context budget)
      (Tiles file budget start stop) := by
  unfold fallback
  by_cases hempty : stop ≤ start
  · rw [if_pos hempty, Nat.le_antisymm hle hempty]
    exact .ok [] rfl (.nil _)
  · rw [if_neg hempty]
    refine Yields.bind (yields_orPanic _) fun source hsource => ?_
    exact yields_fallbackFrom hends hsource (Nat.not_le.1 hempty) (by omega)

end TldrCode.Semantic.Planning
