import Mathlib.Data.List.Forall2
import Mathlib.Logic.Function.Basic
import Mathlib.Data.List.Perm.Basic
import Mathlib.Algebra.Order.BigOperators.Group.List
import Mathlib.Tactic.NormNum

/-!
# Batches of fixed shapes

`semantic/fixed_shape.rs`: tokenized inputs are put into batches of four sequence lengths, the
longest first, where the last batch of a length takes shorter inputs into rows that it has left.
Every input is one row of one batch, and there are no more batches than without that (`plan_spec`).
-/

namespace TldrCode.Semantic.FixedShape

open Function (update)
open scoped List

/-! ## Buckets and inputs -/

inductive SequenceBucket where
  | tokens128
  | tokens256
  | tokens384
  | tokens512
  deriving DecidableEq, Repr

namespace SequenceBucket

def forTokenCount (tokens : Nat) : Except String SequenceBucket :=
  if 1 ≤ tokens ∧ tokens ≤ 128 then .ok tokens128
  else if 129 ≤ tokens ∧ tokens ≤ 256 then .ok tokens256
  else if 257 ≤ tokens ∧ tokens ≤ 384 then .ok tokens384
  else if 385 ≤ tokens ∧ tokens ≤ 512 then .ok tokens512
  else .error s!"fixed-shape input has {tokens} tokens; valid range is 1..=512"

def sequenceLength : SequenceBucket → Nat
  | tokens128 => 128
  | tokens256 => 256
  | tokens384 => 384
  | tokens512 => 512

def batchSize : SequenceBucket → Nat
  | tokens128 => 64
  | tokens256 => 32
  | tokens384 => 14
  | tokens512 => 8

end SequenceBucket

structure TokenizedInput where
  requestIndex : Nat
  inputIds : List Int
  attentionMask : List Int
  tokenTypeIds : Option (List Int)
  deriving DecidableEq, Repr

def shapeError (message : String) : String := "invalid fixed-shape batch: " ++ message

def TokenizedInput.validate (input : TokenizedInput) (label : String) : Except String Unit :=
  if input.inputIds.isEmpty then .error (shapeError s!"{label} has no tokens")
  else if input.inputIds.any (· < 0) then .error (shapeError s!"{label} has a negative token ID")
  else if input.inputIds.length ≠ input.attentionMask.length then
    .error (shapeError (s!"{label} token/mask lengths differ: " ++
      s!"{input.inputIds.length} != {input.attentionMask.length}"))
  else if input.tokenTypeIds.any (·.length ≠ input.inputIds.length) then
    .error (shapeError s!"{label} token-type length differs from token length")
  else if !input.attentionMask.any (· ≠ 0) then .error (shapeError s!"{label} is fully masked")
  else if input.attentionMask.any fun value => value ≠ 0 ∧ value ≠ 1 then
    .error (shapeError s!"{label} attention mask contains a value other than 0 or 1")
  else .ok ()

/-- An input that is valid, whatever it is called. -/
structure TokenizedInput.Valid (input : TokenizedInput) : Prop where
  nonempty : input.inputIds ≠ []
  nonneg : ∀ id ∈ input.inputIds, 0 ≤ id
  mask_length : input.attentionMask.length = input.inputIds.length
  types_length : ∀ ids ∈ input.tokenTypeIds, ids.length = input.inputIds.length
  not_masked : ∃ value ∈ input.attentionMask, value ≠ 0
  zero_or_one : ∀ value ∈ input.attentionMask, value = 0 ∨ value = 1

theorem ite_error_eq_ok_iff {α : Type} {c : Prop} [Decidable c] {message : String}
    {x : Except String α} {a : α} :
    (if c then .error message else x) = .ok a ↔ ¬c ∧ x = .ok a := by
  by_cases h : c
  · simp [h]
  · simp [h]

theorem TokenizedInput.validate_eq_ok_iff {input : TokenizedInput} {label : String} :
    input.validate label = .ok () ↔ input.Valid := by
  have htypes : input.tokenTypeIds.any (·.length ≠ input.inputIds.length) = true ↔
      ¬∀ ids ∈ input.tokenTypeIds, ids.length = input.inputIds.length := by
    cases input.tokenTypeIds <;> simp
  simp only [validate, ite_error_eq_ok_iff, htypes, not_not]
  constructor
  · intro ⟨hids, hneg, hlength, htypes, hmask, hvalues, _⟩
    refine ⟨by simpa using hids, by simpa using hneg, hlength.symm, htypes,
      by simpa using hmask, ?_⟩
    intro value hvalue
    by_contra hne
    exact hvalues (List.any_eq_true.2 ⟨value, hvalue, decide_eq_true (not_or.1 hne)⟩)
  · intro h
    refine ⟨by simpa using h.nonempty, by simpa using h.nonneg, h.mask_length.symm,
      h.types_length, by simpa using h.not_masked, ?_, trivial⟩
    intro hany
    obtain ⟨value, hvalue, hne⟩ := List.any_eq_true.1 hany
    exact not_or.2 (of_decide_eq_true hne) (h.zero_or_one value hvalue)

/-! ## Batches -/

structure FixedShapeBatch where
  bucket : SequenceBucket
  batchSize : Nat
  requestIndices : List Nat
  inputIds : List Int
  attentionMask : List Int
  tokenTypeIds : Option (List Int)
  deriving DecidableEq, Repr

def resize (values : List Int) (length : Nat) (value : Int) : List Int :=
  values.take length ++ List.replicate (length - values.length) value

def chunksExact (values : List Int) (size : Nat) : List (List Int) :=
  (List.range (values.length / size)).map fun i => (values.drop (i * size)).take size

namespace FixedShapeBatch

def validate (batch : FixedShapeBatch) : Except String Unit :=
  let rows := batch.batchSize
  let columns := batch.bucket.sequenceLength
  let expected := rows * columns
  let realRows := batch.requestIndices.length
  if realRows = 0 ∨ rows < realRows then
    .error (shapeError s!"real row count {realRows} is outside 1..={rows}")
  else if batch.inputIds.length ≠ expected ∨ batch.attentionMask.length ≠ expected then
    .error (shapeError (s!"tensor buffers must contain {expected} values " ++
      s!"for shape ({rows}, {columns})"))
  else if batch.tokenTypeIds.any (·.length ≠ expected) then
    .error (shapeError s!"token-type tensor must contain {expected} values")
  else if (chunksExact batch.attentionMask columns).any (!·.any (· ≠ 0)) then
    .error (shapeError "fixed-shape batch contains a fully masked row")
  else .ok ()

/-- `append_padded`. The token types are there when they are included. -/
def appendPadded (batch : FixedShapeBatch) (input : TokenizedInput) (columns : Nat)
    (padTokenId : Int) (includeTokenTypes : Bool) : Except String FixedShapeBatch :=
  if columns < input.inputIds.length then
    .error (shapeError (s!"row with {input.inputIds.length} tokens does not fit " ++
      s!"{columns}-token bucket"))
  else
    let inputIds := batch.inputIds ++ input.inputIds
    let attentionMask := batch.attentionMask ++ input.attentionMask
    let extend (target : List Int) :=
      let target := match input.tokenTypeIds with
        | some ids => target ++ ids
        | none => resize target (target.length + input.inputIds.length) 0
      resize target (target.length + columns - input.inputIds.length) 0
    .ok { batch with
      inputIds := resize inputIds (inputIds.length + columns - input.inputIds.length) padTokenId
      attentionMask :=
        resize attentionMask (attentionMask.length + columns - input.attentionMask.length) 0
      tokenTypeIds :=
        if includeTokenTypes then batch.tokenTypeIds.map extend else batch.tokenTypeIds }

end FixedShapeBatch

/-! ## Plans -/

/-- `FixedShapePlanner`, with a dummy input that is valid and fits every bucket. -/
structure FixedShapePlanner where
  padTokenId : Int
  dummy : TokenizedInput
  pad_nonneg : 0 ≤ padTokenId
  dummy_valid : dummy.Valid
  dummy_fits : dummy.inputIds.length ≤ 128

namespace FixedShapePlanner

def new (padTokenId : Int) (dummy : TokenizedInput) : Except String FixedShapePlanner :=
  if hpad : padTokenId < 0 then .error (shapeError "pad token ID is negative")
  else match hdummy : dummy.validate "dummy input" with
    | .error e => .error e
    | .ok () =>
      if hlength : 128 < dummy.inputIds.length then
        .error (shapeError (s!"dummy input has {dummy.inputIds.length} tokens; " ++
          "it must fit every bucket"))
      else .ok ⟨padTokenId, dummy, Int.not_lt.1 hpad, TokenizedInput.validate_eq_ok_iff.1 hdummy,
        Nat.not_lt.1 hlength⟩

variable (planner : FixedShapePlanner)

def buildBatch (bucket : SequenceBucket) (rows : List TokenizedInput) (rowCapacity : Nat) :
    Except String FixedShapeBatch := do
  let columns := bucket.sequenceLength
  let includeTokenTypes :=
    rows.any (·.tokenTypeIds.isSome) || planner.dummy.tokenTypeIds.isSome
  let batch : FixedShapeBatch := {
    bucket
    batchSize := rowCapacity
    requestIndices := rows.map (·.requestIndex)
    inputIds := []
    attentionMask := []
    tokenTypeIds := if includeTokenTypes then some [] else none }
  let batch ← (List.range rowCapacity).foldlM (fun batch rowIndex =>
    batch.appendPadded (rows[rowIndex]?.getD planner.dummy) columns planner.padTokenId
      includeTokenTypes) batch
  batch.validate
  return batch

/-- The inputs that have not been planned, by their buckets. -/
abbrev Grouped := SequenceBucket → List TokenizedInput

/-- The checks of the inputs, and their groups. -/
def groupInputs : List TokenizedInput → List Nat → Grouped → Except String Grouped
  | [], _, grouped => .ok grouped
  | input :: inputs, requestIndices, grouped => do
    input.validate "input"
    if input.requestIndex ∈ requestIndices then
      throw (shapeError s!"duplicate request index {input.requestIndex}")
    let bucket ← SequenceBucket.forTokenCount input.inputIds.length
    groupInputs inputs (input.requestIndex :: requestIndices)
      (update grouped bucket (grouped bucket ++ [input]))

/-- The full batches of a group, at most so many, and what is left of it. -/
def drainFull (capacity : Nat) :
    Nat → List TokenizedInput → List (List TokenizedInput) × List TokenizedInput
  | 0, inputs => ([], inputs)
  | n + 1, inputs =>
    if capacity ≤ inputs.length then
      let (full, rest) := drainFull capacity n (inputs.drop capacity)
      (inputs.take capacity :: full, rest)
    else ([], inputs)

/-- Inputs of shorter groups, for rows that are available. -/
def promote : List SequenceBucket → Nat → Grouped → List TokenizedInput × Grouped
  | [], _, grouped => ([], grouped)
  | bucket :: smaller, available, grouped =>
    if available = 0 then ([], grouped)
    else
      let take := min available (grouped bucket).length
      let (rows, grouped') := promote smaller (available - take)
        (update grouped bucket ((grouped bucket).drop take))
      ((grouped bucket).take take ++ rows, grouped')

/-- The batches of the groups, from the longest to the shortest. -/
def planBuckets : List SequenceBucket → Grouped → Except String (List FixedShapeBatch)
  | [], _ => .ok []
  | bucket :: smaller, grouped => do
    let capacity := bucket.batchSize
    let (full, rest) := drainFull capacity (grouped bucket).length (grouped bucket)
    let batches ← full.mapM fun rows => planner.buildBatch bucket rows capacity
    if rest.isEmpty then
      return batches ++ (← planBuckets smaller grouped)
    else
      let (rows, grouped) := promote smaller (capacity - rest.length) grouped
      let batch ← planner.buildBatch bucket (rest ++ rows) capacity
      return batches ++ batch :: (← planBuckets smaller grouped)

def planWithBatchSize (inputs : List TokenizedInput) (batchSize : Option Nat) :
    Except String (List FixedShapeBatch) := do
  if batchSize = some 0 then
    throw (shapeError "fixed-shape batch size must be positive")
  let grouped ← groupInputs inputs [] fun _ => []
  match batchSize with
  | some rowCapacity =>
    let batches ← [.tokens128, .tokens256, .tokens384, .tokens512].mapM fun bucket =>
      ((grouped bucket).toChunks rowCapacity).mapM fun rows =>
        planner.buildBatch bucket rows rowCapacity
    return batches.flatten
  | none => planner.planBuckets [.tokens512, .tokens384, .tokens256, .tokens128] grouped

def plan (inputs : List TokenizedInput) : Except String (List FixedShapeBatch) :=
  planner.planWithBatchSize inputs none

/-! ## What a plan is -/

/-- A row with values behind it up to a length. -/
def padded (columns : Nat) (value : Int) (ids : List Int) : List Int :=
  ids ++ List.replicate (columns - ids.length) value

def filled (rows : List TokenizedInput) (rowCapacity : Nat) : List TokenizedInput :=
  rows ++ List.replicate (rowCapacity - rows.length) planner.dummy

/-- The token types of a row, or zeros for them. -/
def typesOf (row : TokenizedInput) : List Int :=
  row.tokenTypeIds.getD (List.replicate row.inputIds.length 0)

/-- A batch has these rows, which fit its bucket, and one of which has it as its own. -/
structure IsBatch (batch : FixedShapeBatch) (rows : List TokenizedInput) : Prop where
  batchSize : batch.batchSize = batch.bucket.batchSize
  rows_le : rows.length ≤ batch.batchSize
  fits : ∀ row ∈ rows, row.inputIds.length ≤ batch.bucket.sequenceLength
  needed : ∃ row ∈ rows, SequenceBucket.forTokenCount row.inputIds.length = .ok batch.bucket
  requestIndices : batch.requestIndices = rows.map (·.requestIndex)
  inputIds : batch.inputIds = (planner.filled rows batch.batchSize).flatMap fun row =>
    padded batch.bucket.sequenceLength planner.padTokenId row.inputIds
  attentionMask : batch.attentionMask = (planner.filled rows batch.batchSize).flatMap fun row =>
    padded batch.bucket.sequenceLength 0 row.attentionMask
  tokenTypeIds : batch.tokenTypeIds =
    if (rows.any (·.tokenTypeIds.isSome) || planner.dummy.tokenTypeIds.isSome) = true then
      some ((planner.filled rows batch.batchSize).flatMap fun row =>
        padded batch.bucket.sequenceLength 0 (typesOf row))
    else none

/-- An input is in this bucket when it is planned in its own. -/
def native (bucket : SequenceBucket) (input : TokenizedInput) : Bool :=
  SequenceBucket.forTokenCount input.inputIds.length = .ok bucket

/-- The batches that a group of this many inputs fills, with what is left of it. -/
def batchCount (bucket : SequenceBucket) (inputs : Nat) : Nat :=
  (inputs + bucket.batchSize - 1) / bucket.batchSize

/-- The batches when every input is planned in its own bucket. -/
def nativeBatches (inputs : List TokenizedInput) : Nat :=
  ([.tokens512, .tokens384, .tokens256, .tokens128].map fun bucket =>
    batchCount bucket (inputs.countP (native bucket))).sum

end FixedShapePlanner

/-! ## Rows of a batch -/

theorem resize_of_le {values : List Int} {length : Nat} (h : values.length ≤ length) (value : Int) :
    resize values length value = values ++ List.replicate (length - values.length) value := by
  rw [resize, List.take_of_length_le h]

variable {columns : Nat}

theorem resize_append {ids : List Int} (h : ids.length ≤ columns) (values : List Int)
    (value : Int) :
    resize (values ++ ids) ((values ++ ids).length + columns - ids.length) value =
      values ++ FixedShapePlanner.padded columns value ids := by
  rw [resize_of_le (by omega), List.append_assoc, FixedShapePlanner.padded]
  congr 3
  omega

theorem length_padded {ids : List Int} (h : ids.length ≤ columns) (value : Int) :
    (FixedShapePlanner.padded columns value ids).length = columns := by
  simp only [FixedShapePlanner.padded, List.length_append, List.length_replicate]
  omega

theorem TokenizedInput.Valid.length_typesOf {row : TokenizedInput} (h : row.Valid) :
    (FixedShapePlanner.typesOf row).length = row.inputIds.length := by
  unfold FixedShapePlanner.typesOf
  cases htypes : row.tokenTypeIds with
  | none => simp
  | some ids => exact h.types_length ids htypes

namespace FixedShapeBatch

/-- A batch with rows behind those that it has. -/
def withRows (batch : FixedShapeBatch) (rows : List TokenizedInput) (columns : Nat)
    (padTokenId : Int) (includeTokenTypes : Bool) : FixedShapeBatch :=
  { batch with
    inputIds := batch.inputIds ++
      rows.flatMap fun row => FixedShapePlanner.padded columns padTokenId row.inputIds
    attentionMask := batch.attentionMask ++
      rows.flatMap fun row => FixedShapePlanner.padded columns 0 row.attentionMask
    tokenTypeIds :=
      if includeTokenTypes then batch.tokenTypeIds.map (· ++
        rows.flatMap fun row => FixedShapePlanner.padded columns 0 (FixedShapePlanner.typesOf row))
      else batch.tokenTypeIds }

theorem appendPadded_eq_ok (batch : FixedShapeBatch) {row : TokenizedInput} (hvalid : row.Valid)
    (hfits : row.inputIds.length ≤ columns) (padTokenId : Int) (includeTokenTypes : Bool) :
    batch.appendPadded row columns padTokenId includeTokenTypes =
      .ok (batch.withRows [row] columns padTokenId includeTokenTypes) := by
  have hmask : row.attentionMask.length ≤ columns := by rw [hvalid.mask_length]; exact hfits
  have htypes : ∀ target : List Int,
      (match row.tokenTypeIds with
        | some ids => target ++ ids
        | none => resize target (target.length + row.inputIds.length) 0) =
      target ++ FixedShapePlanner.typesOf row := by
    intro target
    unfold FixedShapePlanner.typesOf
    cases row.tokenTypeIds with
    | some ids => rfl
    | none =>
      rw [resize_of_le (Nat.le_add_right _ _), Nat.add_sub_cancel_left]
      rfl
  have hextend : ∀ target : List Int,
      resize (target ++ FixedShapePlanner.typesOf row)
        ((target ++ FixedShapePlanner.typesOf row).length + columns - row.inputIds.length) 0 =
      target ++ FixedShapePlanner.padded columns 0 (FixedShapePlanner.typesOf row) := by
    intro target
    rw [← hvalid.length_typesOf]
    exact resize_append (hvalid.length_typesOf ▸ hfits) target 0
  simp only [appendPadded, if_neg (Nat.not_lt.2 hfits), resize_append hfits, resize_append hmask,
    htypes, hextend, withRows, List.flatMap_cons, List.flatMap_nil, List.append_nil]

theorem withRows_withRows (batch : FixedShapeBatch) (row : TokenizedInput)
    (rows : List TokenizedInput) (columns : Nat) (padTokenId : Int) (includeTokenTypes : Bool) :
    (batch.withRows [row] columns padTokenId includeTokenTypes).withRows rows columns padTokenId
      includeTokenTypes = batch.withRows (row :: rows) columns padTokenId includeTokenTypes := by
  cases includeTokenTypes with
  | false => simp [withRows, List.append_assoc]
  | true =>
    simp [withRows, List.append_assoc, Option.map_map, Function.comp_def]

theorem foldlM_appendPadded (batch : FixedShapeBatch) {rows : List TokenizedInput}
    (hvalid : ∀ row ∈ rows, row.Valid) (hfits : ∀ row ∈ rows, row.inputIds.length ≤ columns)
    (padTokenId : Int) (includeTokenTypes : Bool) :
    rows.foldlM (fun batch row => batch.appendPadded row columns padTokenId includeTokenTypes)
      batch = .ok (batch.withRows rows columns padTokenId includeTokenTypes) := by
  induction rows generalizing batch with
  | nil =>
    cases includeTokenTypes <;> simp [withRows, pure, Except.pure]
  | cons row rows ih =>
    rw [List.forall_mem_cons] at hvalid hfits
    rw [List.foldlM_cons, appendPadded_eq_ok batch hvalid.1 hfits.1]
    refine (ih _ hvalid.2 hfits.2).trans ?_
    rw [withRows_withRows]

end FixedShapeBatch

theorem chunksExact_flatten {pieces : List (List Int)} {size : Nat} (hsize : 0 < size)
    (h : ∀ piece ∈ pieces, piece.length = size) : chunksExact pieces.flatten size = pieces := by
  induction pieces with
  | nil => simp [chunksExact]
  | cons piece pieces ih =>
    rw [List.forall_mem_cons] at h
    obtain ⟨rfl, h⟩ := h
    have hlength : (piece :: pieces).flatten.length / piece.length =
        pieces.flatten.length / piece.length + 1 := by
      rw [List.flatten_cons, List.length_append, Nat.add_comm, Nat.add_div_right _ hsize]
    have hdrop : ∀ i, (piece ++ pieces.flatten).drop ((i + 1) * piece.length) =
        pieces.flatten.drop (i * piece.length) := by
      intro i
      rw [Nat.succ_mul, Nat.add_comm, ← List.drop_drop, List.drop_left]
    rw [chunksExact, hlength, List.range_succ_eq_map, List.map_cons, List.map_map,
      Nat.zero_mul, List.drop_zero, List.flatten_cons, List.take_left]
    congr 1
    refine Eq.trans (List.map_congr_left fun i _ => ?_) (ih h)
    rw [Function.comp_apply, hdrop]

theorem length_flatMap_padded {rows : List TokenizedInput} (value : Int)
    {ids : TokenizedInput → List Int} (h : ∀ row ∈ rows, (ids row).length ≤ columns) :
    (rows.flatMap fun row => FixedShapePlanner.padded columns value (ids row)).length =
      rows.length * columns := by
  rw [List.length_flatMap, List.map_congr_left fun row hrow => length_padded (h row hrow) value]
  simp

namespace FixedShapePlanner

variable (planner : FixedShapePlanner)

section

variable {rows : List TokenizedInput} {rowCapacity : Nat}

theorem length_filled (h : rows.length ≤ rowCapacity) :
    (planner.filled rows rowCapacity).length = rowCapacity := by
  simp only [filled, List.length_append, List.length_replicate]
  omega

theorem map_getD_range (h : rows.length ≤ rowCapacity) :
    ((List.range rowCapacity).map fun rowIndex => rows[rowIndex]?.getD planner.dummy) =
      planner.filled rows rowCapacity := by
  apply List.ext_getElem
  · rw [planner.length_filled h, List.length_map, List.length_range]
  · intro i hi hi'
    rw [List.getElem_map, List.getElem_range]
    simp only [filled]
    by_cases hlt : i < rows.length
    · rw [List.getElem_append_left hlt, List.getElem?_eq_getElem hlt, Option.getD_some]
    · rw [List.getElem_append_right (Nat.not_lt.1 hlt), List.getElem_replicate,
        List.getElem?_eq_none (Nat.not_lt.1 hlt), Option.getD_none]

theorem forall_filled {p : TokenizedInput → Prop} (hrows : ∀ row ∈ rows, p row)
    (hdummy : p planner.dummy) : ∀ row ∈ planner.filled rows rowCapacity, p row := by
  intro row hrow
  rcases List.mem_append.1 hrow with hrow | hdummies
  · exact hrows row hrow
  · rw [List.eq_of_mem_replicate hdummies]
    exact hdummy

theorem dummy_fits_bucket (bucket : SequenceBucket) :
    planner.dummy.inputIds.length ≤ bucket.sequenceLength := by
  refine planner.dummy_fits.trans ?_
  cases bucket <;> decide

/-- The batch that `build_batch` makes of rows. -/
def batchOf (bucket : SequenceBucket) (rows : List TokenizedInput) (rowCapacity : Nat) :
    FixedShapeBatch :=
  let columns := bucket.sequenceLength
  { bucket
    batchSize := rowCapacity
    requestIndices := rows.map (·.requestIndex)
    inputIds := (planner.filled rows rowCapacity).flatMap fun row =>
      padded columns planner.padTokenId row.inputIds
    attentionMask := (planner.filled rows rowCapacity).flatMap fun row =>
      padded columns 0 row.attentionMask
    tokenTypeIds :=
      if (rows.any (·.tokenTypeIds.isSome) || planner.dummy.tokenTypeIds.isSome) = true then
        some ((planner.filled rows rowCapacity).flatMap fun row => padded columns 0 (typesOf row))
      else none }

variable {bucket : SequenceBucket} (hne : rows ≠ []) (hlength : rows.length ≤ rowCapacity)
  (hvalid : ∀ row ∈ rows, row.Valid) (hfits : ∀ row ∈ rows, row.inputIds.length ≤ bucket.sequenceLength)
include hne hlength hvalid hfits

theorem validate_batchOf : (planner.batchOf bucket rows rowCapacity).validate = .ok () := by
  have hvalid' : ∀ row ∈ planner.filled rows rowCapacity, row.Valid :=
    planner.forall_filled hvalid planner.dummy_valid
  have hfits' : ∀ row ∈ planner.filled rows rowCapacity,
      row.inputIds.length ≤ bucket.sequenceLength :=
    planner.forall_filled hfits (planner.dummy_fits_bucket bucket)
  have hmask : ∀ row ∈ planner.filled rows rowCapacity,
      row.attentionMask.length ≤ bucket.sequenceLength := fun row hrow =>
    (hvalid' row hrow).mask_length ▸ hfits' row hrow
  have htypes : ∀ row ∈ planner.filled rows rowCapacity,
      (typesOf row).length ≤ bucket.sequenceLength := fun row hrow =>
    (hvalid' row hrow).length_typesOf ▸ hfits' row hrow
  have hchunks : chunksExact (planner.batchOf bucket rows rowCapacity).attentionMask
      bucket.sequenceLength = (planner.filled rows rowCapacity).map fun row =>
        padded bucket.sequenceLength 0 row.attentionMask := by
    refine chunksExact_flatten (by cases bucket <;> decide) ?_
    intro piece hpiece
    obtain ⟨row, hrow, rfl⟩ := List.mem_map.1 hpiece
    exact length_padded (hmask row hrow) 0
  have hrows := List.length_pos_iff.2 hne
  simp only [FixedShapeBatch.validate, ite_error_eq_ok_iff]
  refine ⟨?_, ?_, ?_, ?_, trivial⟩
  · simp only [batchOf, List.length_map]
    omega
  · simp only [batchOf]
    rw [length_flatMap_padded _ hfits', length_flatMap_padded _ hmask,
      planner.length_filled hlength]
    simp
  · have hlen := length_flatMap_padded 0 htypes
    rw [planner.length_filled hlength] at hlen
    simp only [batchOf]
    split_ifs
    · simpa using hlen
    · simp
  · intro hany
    obtain ⟨piece, hpiece, hzero⟩ := List.any_eq_true.1 hany
    rw [show (planner.batchOf bucket rows rowCapacity).bucket = bucket from rfl, hchunks] at hpiece
    obtain ⟨row, hrow, rfl⟩ := List.mem_map.1 hpiece
    obtain ⟨value, hvalue, hne⟩ := (hvalid' row hrow).not_masked
    have hzero : ∀ x ∈ padded bucket.sequenceLength 0 row.attentionMask, x = 0 := by
      simpa using hzero
    exact hne (hzero value (List.mem_append_left _ hvalue))

theorem buildBatch_eq_ok :
    planner.buildBatch bucket rows rowCapacity = .ok (planner.batchOf bucket rows rowCapacity) := by
  have hfold (batch : FixedShapeBatch) (includeTokenTypes : Bool) :
      (List.range rowCapacity).foldlM (fun batch rowIndex =>
        batch.appendPadded (rows[rowIndex]?.getD planner.dummy) bucket.sequenceLength
          planner.padTokenId includeTokenTypes) batch =
      .ok (batch.withRows (planner.filled rows rowCapacity) bucket.sequenceLength
        planner.padTokenId includeTokenTypes) := by
    rw [← batch.foldlM_appendPadded (planner.forall_filled hvalid planner.dummy_valid)
      (planner.forall_filled hfits (planner.dummy_fits_bucket bucket)),
      ← planner.map_getD_range hlength, List.foldlM_map]
  have hbatch : FixedShapeBatch.withRows
      { bucket
        batchSize := rowCapacity
        requestIndices := rows.map (·.requestIndex)
        inputIds := []
        attentionMask := []
        tokenTypeIds :=
          if (rows.any (·.tokenTypeIds.isSome) || planner.dummy.tokenTypeIds.isSome) = true then
            some [] else none }
      (planner.filled rows rowCapacity) bucket.sequenceLength planner.padTokenId
      (rows.any (·.tokenTypeIds.isSome) || planner.dummy.tokenTypeIds.isSome) =
      planner.batchOf bucket rows rowCapacity := by
    cases h : rows.any (·.tokenTypeIds.isSome) || planner.dummy.tokenTypeIds.isSome with
    | false | true => simp only [FixedShapeBatch.withRows, batchOf, h]; rfl
  unfold buildBatch
  simp only [hfold, hbatch]
  change ((planner.batchOf bucket rows rowCapacity).validate >>= fun _ =>
    pure (planner.batchOf bucket rows rowCapacity)) = _
  rw [planner.validate_batchOf hne hlength hvalid hfits]
  rfl

end

theorem isBatch_batchOf {bucket : SequenceBucket} {rows : List TokenizedInput}
    (hlength : rows.length ≤ bucket.batchSize)
    (hfits : ∀ row ∈ rows, row.inputIds.length ≤ bucket.sequenceLength)
    (hneeded : ∃ row ∈ rows, SequenceBucket.forTokenCount row.inputIds.length = .ok bucket) :
    planner.IsBatch (planner.batchOf bucket rows bucket.batchSize) rows where
  batchSize := rfl
  rows_le := hlength
  fits := hfits
  needed := hneeded
  requestIndices := rfl
  inputIds := rfl
  attentionMask := rfl
  tokenTypeIds := rfl

end FixedShapePlanner

/-! ## Groups -/

theorem SequenceBucket.batchSize_pos (bucket : SequenceBucket) : 0 < bucket.batchSize := by
  cases bucket <;> decide

variable {tokens : Nat}

theorem SequenceBucket.le_of_forTokenCount {bucket : SequenceBucket}
    (h : forTokenCount tokens = .ok bucket) : tokens ≤ bucket.sequenceLength := by
  unfold forTokenCount at h
  split_ifs at h with h128 h256 h384 h512
  · obtain rfl := Except.ok.inj h
    exact h128.2
  · obtain rfl := Except.ok.inj h
    exact h256.2
  · obtain rfl := Except.ok.inj h
    exact h384.2
  · obtain rfl := Except.ok.inj h
    exact h512.2

theorem SequenceBucket.exists_forTokenCount (hpos : 0 < tokens) (hle : tokens ≤ 512) :
    ∃ bucket, forTokenCount tokens = .ok bucket := by
  unfold forTokenCount
  split_ifs with h128 h256 h384 h512
  · exact ⟨_, rfl⟩
  · exact ⟨_, rfl⟩
  · exact ⟨_, rfl⟩
  · exact ⟨_, rfl⟩
  · omega

namespace FixedShapePlanner

variable (planner : FixedShapePlanner) {inputs : List TokenizedInput}
  {buckets : List SequenceBucket} {grouped : Grouped}

theorem groupInputs_eq_ok {requestIndices : List Nat} (hvalid : ∀ input ∈ inputs, input.Valid)
    (hnodup : (inputs.map (·.requestIndex)).Nodup)
    (hseen : ∀ input ∈ inputs, input.requestIndex ∉ requestIndices)
    (hlength : ∀ input ∈ inputs, input.inputIds.length ≤ 512) :
    groupInputs inputs requestIndices grouped =
      .ok fun bucket => grouped bucket ++ inputs.filter (native bucket) := by
  induction inputs generalizing requestIndices grouped with
  | nil => simp [groupInputs]
  | cons input inputs ih =>
    rw [List.forall_mem_cons] at hvalid hseen hlength
    rw [List.map_cons, List.nodup_cons] at hnodup
    obtain ⟨bucket, hbucket⟩ := SequenceBucket.exists_forTokenCount
      (List.length_pos_iff.2 hvalid.1.nonempty) hlength.1
    have hseen' : ∀ later ∈ inputs, later.requestIndex ∉ input.requestIndex :: requestIndices := by
      intro later hlater hmem
      rcases List.mem_cons.1 hmem with heq | hmem
      · exact hnodup.1 (List.mem_map.2 ⟨later, hlater, heq⟩)
      · exact hseen.2 later hlater hmem
    rw [groupInputs, TokenizedInput.validate_eq_ok_iff.2 hvalid.1]
    simp only [hseen.1, hbucket, if_false, bind, Except.bind]
    rw [ih hvalid.2 hnodup.2 hseen' hlength.2]
    congr 1
    funext other
    by_cases h : other = bucket
    · subst h
      rw [Function.update_self, List.filter_cons_of_pos (by simpa [native] using hbucket),
        List.append_assoc, List.singleton_append]
    · rw [Function.update_of_ne h, List.filter_cons_of_neg]
      simp [native, hbucket, Ne.symm h]

/-- Inputs are in as many full batches as they fill, and what is left fills none. -/
theorem drainFull_spec {capacity : Nat} (hcapacity : 0 < capacity) {n : Nat}
    (h : inputs.length ≤ n) :
    (drainFull capacity n inputs).1.flatten ++ (drainFull capacity n inputs).2 = inputs ∧
      (∀ rows ∈ (drainFull capacity n inputs).1, rows.length = capacity) ∧
      (drainFull capacity n inputs).2.length < capacity := by
  induction n generalizing inputs with
  | zero =>
    obtain rfl := List.length_eq_zero_iff.1 (Nat.le_zero.1 h)
    exact ⟨rfl, by simp [drainFull], hcapacity⟩
  | succ n ih =>
    by_cases hle : capacity ≤ inputs.length
    · have hdrop : (inputs.drop capacity).length ≤ n := by
        rw [List.length_drop]
        omega
      obtain ⟨hflatten, hlength, hrest⟩ := ih hdrop
      simp only [drainFull, if_pos hle]
      refine ⟨?_, ?_, hrest⟩
      · rw [List.flatten_cons, List.append_assoc, hflatten, List.take_append_drop]
      · rw [List.forall_mem_cons]
        exact ⟨by rw [List.length_take]; omega, hlength⟩
    · simp only [drainFull, if_neg hle]
      exact ⟨rfl, by simp, Nat.not_le.1 hle⟩

/-- What is promoted fits the rows that are available, and the groups have the rest. -/
theorem promote_spec {smaller : List SequenceBucket} (hnodup : smaller.Nodup) (available : Nat)
    (grouped : Grouped) :
    (promote smaller available grouped).1.length ≤ available ∧
      ((promote smaller available grouped).1 ++
        smaller.flatMap (promote smaller available grouped).2).Perm (smaller.flatMap grouped) ∧
      (∀ bucket, (promote smaller available grouped).2 bucket <:+ grouped bucket) ∧
      ∀ bucket ∉ smaller, (promote smaller available grouped).2 bucket = grouped bucket := by
  induction smaller generalizing available grouped with
  | nil => simp [promote]
  | cons bucket smaller ih =>
    obtain ⟨hmem, hnodup⟩ := List.nodup_cons.1 hnodup
    by_cases havailable : available = 0
    · simp [promote, havailable]
    · simp only [promote, if_neg havailable]
      set take := min available (grouped bucket).length with htake
      set dropped := update grouped bucket ((grouped bucket).drop take) with hdropped
      obtain ⟨hlength, hperm, hsuffix, hsame⟩ := ih hnodup (available - take) dropped
      refine ⟨?_, ?_, ?_, ?_⟩
      · rw [List.length_append, List.length_take]
        omega
      · have hothers : smaller.flatMap dropped = smaller.flatMap grouped :=
          List.flatMap_congr fun other hother =>
            Function.update_of_ne (ne_of_mem_of_not_mem hother hmem) _ _
        rw [List.flatMap_cons, List.flatMap_cons, hsame bucket hmem, hdropped,
          Function.update_self, ← hdropped]
        set rows := (promote smaller (available - take) dropped).1
        set rest := smaller.flatMap (promote smaller (available - take) dropped).2
        calc (grouped bucket).take take ++ rows ++ ((grouped bucket).drop take ++ rest)
            = (grouped bucket).take take ++ (rows ++ ((grouped bucket).drop take ++ rest)) :=
              List.append_assoc ..
          _ ~ (grouped bucket).take take ++ ((grouped bucket).drop take ++ (rows ++ rest)) :=
              List.Perm.append_left _ (List.perm_append_comm_assoc _ _ _)
          _ ~ (grouped bucket).take take ++ ((grouped bucket).drop take ++
                smaller.flatMap dropped) := (hperm.append_left _).append_left _
          _ = grouped bucket ++ smaller.flatMap grouped := by
              rw [← List.append_assoc, List.take_append_drop, hothers]
      · intro other
        refine (hsuffix other).trans ?_
        by_cases h : other = bucket
        · subst h
          rw [hdropped, Function.update_self]
          exact List.drop_suffix _ _
        · have hrest : dropped other = grouped other := by
            rw [hdropped, Function.update_of_ne h]
          exact hrest ▸ List.suffix_rfl
      · intro other hother
        rw [hsame other (List.not_mem_of_not_mem_cons hother), hdropped,
          Function.update_of_ne (List.ne_of_not_mem_cons hother)]

/-- Every input of a group is valid and in its own bucket. -/
def Sorted (buckets : List SequenceBucket) (grouped : Grouped) : Prop :=
  ∀ bucket ∈ buckets, ∀ input ∈ grouped bucket,
    input.Valid ∧ SequenceBucket.forTokenCount input.inputIds.length = .ok bucket

theorem mapM_buildBatch {bucket : SequenceBucket} {full : List (List TokenizedInput)}
    (hlength : ∀ rows ∈ full, rows.length = bucket.batchSize)
    (hgroup : ∀ rows ∈ full, ∀ input ∈ rows,
      input.Valid ∧ SequenceBucket.forTokenCount input.inputIds.length = .ok bucket) :
    ∃ batches, full.mapM (fun rows => planner.buildBatch bucket rows bucket.batchSize) =
      .ok batches ∧ List.Forall₂ planner.IsBatch batches full := by
  induction full with
  | nil => exact ⟨[], rfl, .nil⟩
  | cons rows full ih =>
    rw [List.forall_mem_cons] at hlength hgroup
    obtain ⟨batches, hbatches, hforall⟩ := ih hlength.2 hgroup.2
    have hne : rows ≠ [] :=
      List.ne_nil_of_length_pos (hlength.1 ▸ SequenceBucket.batchSize_pos bucket)
    have hfits : ∀ row ∈ rows, row.inputIds.length ≤ bucket.sequenceLength := fun row hrow =>
      SequenceBucket.le_of_forTokenCount (hgroup.1 row hrow).2
    obtain ⟨row, hrow⟩ := List.exists_mem_of_ne_nil rows hne
    refine ⟨planner.batchOf bucket rows bucket.batchSize :: batches, ?_, .cons ?_ hforall⟩
    · rw [List.mapM_cons, hbatches, planner.buildBatch_eq_ok hne hlength.1.le
        (fun row hrow => (hgroup.1 row hrow).1) hfits]
      rfl
    · exact planner.isBatch_batchOf hlength.1.le hfits ⟨row, hrow, (hgroup.1 row hrow).2⟩

/-- The batches of the groups have every input of them, and are not more than without promotion. -/
theorem planBuckets_spec (hdescending : buckets.Pairwise fun longer shorter =>
      shorter.sequenceLength < longer.sequenceLength) (hsorted : Sorted buckets grouped) :
    ∃ batches rows, planner.planBuckets buckets grouped = .ok batches ∧
      List.Forall₂ planner.IsBatch batches rows ∧
      rows.flatten.Perm (buckets.flatMap grouped) ∧
      batches.length ≤
        (buckets.map fun bucket => batchCount bucket (grouped bucket).length).sum := by
  induction buckets generalizing grouped with
  | nil => exact ⟨[], [], rfl, .nil, .refl _, Nat.le_refl _⟩
  | cons bucket smaller ih =>
    obtain ⟨hshorter, hdescending⟩ := List.pairwise_cons.1 hdescending
    have hbucket := hsorted bucket List.mem_cons_self
    have hsmaller : Sorted smaller grouped := fun other hother =>
      hsorted other (List.mem_cons_of_mem _ hother)
    have hpos := SequenceBucket.batchSize_pos bucket
    obtain ⟨hflatten, hfull, hrest⟩ :=
      drainFull_spec hpos (Nat.le_refl (grouped bucket).length)
    set full := (drainFull bucket.batchSize (grouped bucket).length (grouped bucket)).1
    set rest := (drainFull bucket.batchSize (grouped bucket).length (grouped bucket)).2
    have hmem {input : TokenizedInput} (h : input ∈ full.flatten ++ rest) :=
      hbucket input (hflatten ▸ h)
    obtain ⟨batches, hbatches, hforall⟩ := planner.mapM_buildBatch hfull
      fun rows hrows input hinput =>
        hmem (List.mem_append_left _ (List.mem_flatten_of_mem hrows hinput))
    have hcount : (grouped bucket).length = full.length * bucket.batchSize + rest.length := by
      rw [← hflatten, List.length_append, List.length_flatten, List.map_congr_left hfull]
      simp
    have hceil (extra : Nat) (h : extra ≤ rest.length) (hle : extra ≤ 1) :
        full.length + extra ≤ batchCount bucket (grouped bucket).length := by
      rw [batchCount, Nat.le_div_iff_mul_le hpos, hcount, Nat.add_mul]
      have : extra * bucket.batchSize ≤ rest.length + bucket.batchSize - 1 := by
        rcases Nat.le_one_iff_eq_zero_or_eq_one.1 hle with rfl | rfl <;> omega
      omega
    by_cases hempty : rest = []
    · obtain ⟨later, rows, hlater, hforall', hperm, hle⟩ := ih hdescending hsmaller
      refine ⟨batches ++ later, full ++ rows, ?_, List.rel_append hforall hforall', ?_, ?_⟩
      · change (full.mapM _ >>= fun batches => if rest.isEmpty = true then _ else _) = _
        rw [hbatches]
        simp only [hempty, hlater, List.isEmpty_nil, if_true]
        rfl
      · rw [List.flatten_append, List.flatMap_cons, ← hflatten, hempty, List.append_nil]
        exact hperm.append_left _
      · rw [List.length_append, hforall.length_eq, List.map_cons, List.sum_cons]
        exact Nat.add_le_add (hceil 0 (Nat.zero_le _) (Nat.zero_le _)) hle
    · have hnodup : smaller.Nodup := hdescending.imp fun h => by
        rintro rfl
        exact Nat.lt_irrefl _ h
      obtain ⟨hlength, hpermuted, hsuffix, -⟩ :=
        promote_spec hnodup (bucket.batchSize - rest.length) grouped
      set promoted := (promote smaller (bucket.batchSize - rest.length) grouped).1
      set grouped' := (promote smaller (bucket.batchSize - rest.length) grouped).2
      have hsmaller' : Sorted smaller grouped' := fun other hother input hinput =>
        hsmaller other hother input ((hsuffix other).mem hinput)
      obtain ⟨later, rows, hlater, hforall', hperm, hle⟩ := ih hdescending hsmaller'
      have hne : rest ++ promoted ≠ [] := List.append_ne_nil_of_left_ne_nil hempty _
      have hcapacity : (rest ++ promoted).length ≤ bucket.batchSize := by
        rw [List.length_append]
        omega
      have hrow : ∀ row ∈ rest ++ promoted,
          row.Valid ∧ row.inputIds.length ≤ bucket.sequenceLength := by
        intro row hrow
        rcases List.mem_append.1 hrow with hrow | hrow
        · have h := hmem (List.mem_append_right _ hrow)
          exact ⟨h.1, SequenceBucket.le_of_forTokenCount h.2⟩
        · obtain ⟨other, hother, hinput⟩ :=
            List.mem_flatMap.1 (hpermuted.subset (List.mem_append_left _ hrow))
          have h := hsmaller other hother row hinput
          exact ⟨h.1, (SequenceBucket.le_of_forTokenCount h.2).trans (hshorter other hother).le⟩
      obtain ⟨input, hinput⟩ := List.exists_mem_of_ne_nil rest hempty
      have hbatch := planner.isBatch_batchOf hcapacity (fun row h => (hrow row h).2)
        ⟨input, List.mem_append_left _ hinput, (hmem (List.mem_append_right _ hinput)).2⟩
      refine ⟨batches ++ planner.batchOf bucket (rest ++ promoted) bucket.batchSize :: later,
        full ++ (rest ++ promoted) :: rows, ?_, List.rel_append hforall (.cons hbatch hforall'),
        ?_, ?_⟩
      · change (full.mapM _ >>= fun batches => if rest.isEmpty = true then _ else _) = _
        rw [hbatches]
        simp only [List.isEmpty_iff, hempty, if_false]
        change (planner.buildBatch bucket (rest ++ promoted) bucket.batchSize >>= fun _ => _) = _
        rw [planner.buildBatch_eq_ok hne hcapacity (fun row h => (hrow row h).1)
          fun row h => (hrow row h).2]
        change (planner.planBuckets smaller grouped' >>= fun later => _) = _
        rw [hlater]
        rfl
      · calc (full ++ (rest ++ promoted) :: rows).flatten
            = full.flatten ++ (rest ++ (promoted ++ rows.flatten)) := by simp
          _ ~ full.flatten ++ (rest ++ smaller.flatMap grouped) :=
              (((hperm.append_left _).trans hpermuted).append_left _).append_left _
          _ = (bucket :: smaller).flatMap grouped := by
              rw [← List.append_assoc, hflatten, List.flatMap_cons]
      · have hless : (smaller.map fun other => batchCount other (grouped' other).length).sum ≤
            (smaller.map fun other => batchCount other (grouped other).length).sum := by
          refine List.sum_le_sum fun other _ => Nat.div_le_div_right ?_
          have := (hsuffix other).length_le
          omega
        have hone := hceil 1 (List.length_pos_iff.2 hempty) (Nat.le_refl _)
        rw [List.length_append, hforall.length_eq, List.length_cons, List.map_cons, List.sum_cons]
        omega

theorem flatMap_filter_perm (hnodup : buckets.Nodup) (h : ∀ input ∈ inputs, ∃ bucket ∈ buckets,
      SequenceBucket.forTokenCount input.inputIds.length = .ok bucket) :
    (buckets.flatMap fun bucket => inputs.filter (native bucket)).Perm inputs := by
  induction buckets generalizing inputs with
  | nil =>
    have hnil : inputs = [] := List.eq_nil_iff_forall_not_mem.2 fun input hinput => by
      obtain ⟨bucket, hbucket, -⟩ := h input hinput
      exact List.not_mem_nil hbucket
    rw [hnil]
    exact .refl _
  | cons bucket buckets ih =>
    obtain ⟨hmem, hnodup⟩ := List.nodup_cons.1 hnodup
    have hothers : (buckets.flatMap fun other => inputs.filter (native other)) =
        buckets.flatMap fun other =>
          (inputs.filter fun input => !native bucket input).filter (native other) := by
      refine List.flatMap_congr fun other hother => ?_
      rw [List.filter_filter]
      refine List.filter_congr fun input _ => ?_
      have hne : bucket ≠ other := (ne_of_mem_of_not_mem hother hmem).symm
      cases hnative : native other input with
      | false => rfl
      | true =>
        have := of_decide_eq_true hnative
        simp [native, this, hne.symm]
    rw [List.flatMap_cons, hothers]
    refine ((ih hnodup fun input hinput => ?_).append_left _).trans
      (List.filter_append_perm (native bucket) inputs)
    obtain ⟨hinput, hnative⟩ := List.mem_filter.1 hinput
    obtain ⟨other, hother, heq⟩ := h input hinput
    rcases List.mem_cons.1 hother with rfl | hother
    · simp [native, heq] at hnative
    · exact ⟨other, hother, heq⟩

/-- Valid inputs of at most 512 tokens with different indices are planned: every one of them is
one row of one batch, which some row of the batch needs, and promotion never costs a batch. -/
theorem plan_spec {inputs : List TokenizedInput} (hvalid : ∀ input ∈ inputs, input.Valid)
    (hnodup : (inputs.map (·.requestIndex)).Nodup)
    (hlength : ∀ input ∈ inputs, input.inputIds.length ≤ 512) :
    ∃ batches rows, planner.plan inputs = .ok batches ∧
      List.Forall₂ planner.IsBatch batches rows ∧ rows.flatten.Perm inputs ∧
      batches.length ≤ nativeBatches inputs := by
  have hgroup : groupInputs inputs [] (fun _ => []) =
      .ok fun bucket => inputs.filter (native bucket) := by
    rw [groupInputs_eq_ok hvalid hnodup (fun _ _ => List.not_mem_nil) hlength]
    rfl
  have hsorted : Sorted [.tokens512, .tokens384, .tokens256, .tokens128] fun bucket =>
      inputs.filter (native bucket) := by
    intro bucket _ input hinput
    obtain ⟨hinput, hnative⟩ := List.mem_filter.1 hinput
    exact ⟨hvalid input hinput, of_decide_eq_true hnative⟩
  obtain ⟨batches, rows, hbatches, hforall, hperm, hle⟩ :=
    planner.planBuckets_spec (by decide) hsorted
  refine ⟨batches, rows, ?_, hforall, hperm.trans (flatMap_filter_perm (by decide) ?_), ?_⟩
  · unfold plan planWithBatchSize
    rw [hgroup]
    exact hbatches
  · intro input hinput
    obtain ⟨bucket, hbucket⟩ := SequenceBucket.exists_forTokenCount
      (List.length_pos_iff.2 (hvalid input hinput).nonempty) (hlength input hinput)
    exact ⟨bucket, by cases bucket <;> decide, hbucket⟩
  · simpa only [nativeBatches, List.countP_eq_length_filter] using hle

def ones (requestIndex tokens : Nat) : TokenizedInput :=
  ⟨requestIndex, List.replicate tokens 1, List.replicate tokens 1, none⟩

theorem ones_valid (requestIndex : Nat) (h : 0 < tokens) :
    (ones requestIndex tokens).Valid where
  nonempty := by simp only [ones, ne_eq, List.replicate_eq_nil_iff]; omega
  nonneg id hid := by rw [List.eq_of_mem_replicate hid]; decide
  mask_length := rfl
  types_length ids hids := by simp [ones] at hids
  not_masked := ⟨1, List.mem_replicate.2 ⟨by omega, rfl⟩, by decide⟩
  zero_or_one value hvalue := .inr (List.eq_of_mem_replicate hvalue)

/-- A planner whose dummy input is of two tokens. -/
def twoTokens : FixedShapePlanner :=
  ⟨0, ones 9 2, Int.le_refl 0, ones_valid 9 Nat.two_pos, by decide⟩

theorem plan_spec_twoInputs :
    ∃ batches rows, twoTokens.plan [ones 0 100, ones 1 200] = .ok batches ∧
      List.Forall₂ twoTokens.IsBatch batches rows ∧ rows.flatten.Perm [ones 0 100, ones 1 200] ∧
      batches.length ≤ nativeBatches [ones 0 100, ones 1 200] := by
  refine twoTokens.plan_spec ?_ (by decide) ?_
  · simp [ones_valid]
  · simp [ones]

end FixedShapePlanner

end TldrCode.Semantic.FixedShape
