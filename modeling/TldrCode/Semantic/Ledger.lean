import Mathlib.Algebra.GroupWithZero.Nat
import Mathlib.Data.List.AList
import Mathlib.Logic.Function.Basic

/-!
# The ledger of generations

The tables of `semantic/redb_store.rs` that hold the generations of vectors, and the transactions on
them. A transaction that fails leaves the tables as they are. A generation that is complete has as
many vectors as it says, and the generations that are served are complete (`Ledger.Sound`).
-/

namespace TldrCode.Semantic

open Function (update)

structure ManifestId where
  embeddingModel : String
  modelRevision : String
  dimensions : Nat
  metric : String
  scalarKind : String
  searchMode : String
  embedSchema : String
  chunkParams : String
  walkerVersion : String
  root : String
  deriving DecidableEq, Repr

inductive GenerationState where
  | staged
  | complete
  deriving DecidableEq, Repr

structure StoredGeneration where
  generation : Nat
  state : GenerationState
  chunkCount : Nat
  dimensions : Nat
  manifestIdentity : List UInt8
  corpusDigest : Nat
  files : List UInt8
  deriving DecidableEq, Repr

/-- `GenerationVectorWrite`, with the bits of the values. -/
structure GenerationVectorWrite where
  key : Nat
  vector : List (BitVec 32)
  metadata : List UInt8
  deriving DecidableEq, Repr

/-- `is_finite` of a single-precision value. -/
def isFinite (value : BitVec 32) : Bool := value.extractLsb 30 23 ≠ 255#8

/-- The generations, their vectors, and the values at `ACTIVE_GENERATION_KEY` and
`PREVIOUS_GENERATION_KEY`. -/
structure Ledger where
  generations : Nat → Option StoredGeneration
  vectors : Nat → AList fun _ : Nat => List (BitVec 32) × List UInt8
  activeGeneration : Option Nat
  previousGeneration : Option Nat

namespace Ledger

def empty : Ledger where
  generations _ := none
  vectors _ := ∅
  activeGeneration := none
  previousGeneration := none

/-! ## Transactions -/

def insertGeneration (ledger : Ledger) (generation : Nat) (record : StoredGeneration) : Ledger :=
  { ledger with generations := update ledger.generations generation (some record) }

def stageGeneration (ledger : Ledger) (generation : StoredGeneration) : Except String Ledger :=
  if generation.generation = 0 ∨ generation.state ≠ .staged then
    .error "new generation must be non-zero and staged"
  else if (ledger.generations generation.generation).isSome then
    .error s!"generation {generation.generation} already exists"
  else .ok (ledger.insertGeneration generation.generation generation)

/-- What `encode_generation_vector` checks. -/
def checkGenerationVector (dimensions : Nat) (write : GenerationVectorWrite) : Except String Unit :=
  if write.vector.length ≠ dimensions ∨ write.vector.any (! isFinite ·) then
    .error "generation vector dimensions or values are invalid"
  else if 2 ^ 32 ≤ write.metadata.length then .error "generation metadata too large"
  else .ok ()

def putGenerationVectors (ledger : Ledger) (generation dimensions : Nat)
    (writes : List GenerationVectorWrite) : Except String Ledger := do
  writes.forM (checkGenerationVector dimensions)
  match ledger.generations generation with
  | none => .error s!"generation {generation} is not staged"
  | some record =>
    if record.state ≠ .staged ∨ record.dimensions ≠ dimensions then
      .error s!"generation {generation} is not a compatible staged generation"
    else
      let vectors := writes.foldl (fun vectors write =>
        vectors.insert write.key (write.vector, write.metadata)) (ledger.vectors generation)
      .ok { ledger with vectors := update ledger.vectors generation vectors }

/-- A generation becomes the active one, and the active one the previous. -/
def activate (ledger : Ledger) (generation : Nat) : Ledger := { ledger with
  activeGeneration := some generation
  previousGeneration := ledger.activeGeneration.or ledger.previousGeneration }

def completeAndActivateGeneration (ledger : Ledger) (generation : Nat) : Except String Ledger :=
  match ledger.generations generation with
  | none => .error s!"generation {generation} is missing"
  | some record =>
    let actual := (ledger.vectors generation).keys.length
    if actual ≠ record.chunkCount then
      .error s!"generation {generation} expected {record.chunkCount} vectors, found {actual}"
    else
      let ledger := ledger.insertGeneration generation { record with state := .complete }
      .ok (ledger.activate generation)

def selectCompleteGeneration (ledger : Ledger) (generation : Nat) : Except String Ledger :=
  match ledger.generations generation with
  | none => .error s!"generation {generation} is missing"
  | some record =>
    if record.state ≠ .complete then .error s!"generation {generation} is not complete"
    else .ok (ledger.activate generation)

/-! ## Soundness -/

/-- A generation is complete and has all its vectors. -/
def Complete (ledger : Ledger) (generation : Nat) : Prop :=
  ∃ record, ledger.generations generation = some record ∧ record.state = .complete ∧
    (ledger.vectors generation).keys.length = record.chunkCount

/-- Complete generations have all their vectors, and the generations that are served are complete.
-/
structure Sound (ledger : Ledger) : Prop where
  complete : ∀ generation record, ledger.generations generation = some record →
    record.state = .complete → ledger.Complete generation
  active : ∀ generation, ledger.activeGeneration = some generation → ledger.Complete generation
  previous : ∀ generation, ledger.previousGeneration = some generation → ledger.Complete generation

variable {ledger ledger' : Ledger} {generation other dimensions : Nat} {record : StoredGeneration}
  {writes : List GenerationVectorWrite}

theorem Sound.empty : Sound empty := by
  constructor
  case complete =>
    intro generation record h
    cases h
  case active =>
    intro generation h
    cases h
  case previous =>
    intro generation h
    cases h

theorem Sound.of_complete (hs : ledger.Sound)
    (hcomplete : ∀ generation record, ledger'.generations generation = some record →
      record.state = .complete → ledger'.Complete generation)
    (hmono : ∀ generation, ledger.Complete generation → ledger'.Complete generation)
    (hactive : ledger'.activeGeneration = ledger.activeGeneration)
    (hprevious : ledger'.previousGeneration = ledger.previousGeneration) : ledger'.Sound where
  complete := hcomplete
  active := fun generation h => hmono generation (hs.active generation (hactive ▸ h))
  previous := fun generation h => hmono generation (hs.previous generation (hprevious ▸ h))

theorem insertGeneration_self :
    (ledger.insertGeneration generation record).generations generation = some record :=
  Function.update_self ..

theorem insertGeneration_of_ne (h : other ≠ generation) :
    (ledger.insertGeneration generation record).generations other = ledger.generations other :=
  Function.update_of_ne h ..

theorem Sound.insertGeneration (hs : ledger.Sound)
    (hrecord : record.state = .complete →
      (ledger.vectors generation).keys.length = record.chunkCount)
    (hother : ledger.Complete generation → record.state = .complete) :
    (ledger.insertGeneration generation record).Sound := by
  have hself : record.state = .complete →
      (ledger.insertGeneration generation record).Complete generation := fun hstate =>
    ⟨record, insertGeneration_self, hstate, hrecord hstate⟩
  have hmono : ∀ other, ledger.Complete other →
      (ledger.insertGeneration generation record).Complete other := by
    intro other hcomplete
    by_cases heq : other = generation
    · subst heq
      exact hself (hother hcomplete)
    · obtain ⟨old, hold, hstate⟩ := hcomplete
      exact ⟨old, by rw [insertGeneration_of_ne heq, hold], hstate⟩
  apply hs.of_complete _ hmono rfl rfl
  intro other old hold hstate
  by_cases heq : other = generation
  · subst heq
    rw [insertGeneration_self] at hold
    cases hold
    exact hself hstate
  · rw [insertGeneration_of_ne heq] at hold
    exact hmono other (hs.complete other old hold hstate)

/-- **A generation is staged** under a number that is free. -/
theorem of_stageGeneration_eq_ok (h : ledger.stageGeneration record = .ok ledger') :
    record.state = .staged ∧ ledger.generations record.generation = none ∧
      ledger' = ledger.insertGeneration record.generation record := by
  unfold stageGeneration at h
  split_ifs at h with hrecord hexists
  rw [not_or, not_not] at hrecord
  cases h
  exact ⟨hrecord.2, by simpa using hexists, rfl⟩

theorem Sound.stageGeneration (hs : ledger.Sound)
    (h : ledger.stageGeneration record = .ok ledger') :
    ledger'.Sound := by
  obtain ⟨hstaged, hnone, rfl⟩ := of_stageGeneration_eq_ok h
  apply hs.insertGeneration
  · intro hstate
    rw [hstaged] at hstate
    cases hstate
  · rintro ⟨old, hold, -⟩
    rw [hnone] at hold
    cases hold

theorem of_putGenerationVectors_eq_ok
    (h : ledger.putGenerationVectors generation dimensions writes = .ok ledger') :
    ∃ vectors, ledger' = { ledger with vectors := update ledger.vectors generation vectors } ∧
      ∃ record, ledger.generations generation = some record ∧ record.state = .staged := by
  unfold putGenerationVectors at h
  cases hchecks : writes.forM (checkGenerationVector dimensions) with
  | error e =>
    rw [hchecks] at h
    cases h
  | ok =>
    rw [hchecks] at h
    cases hrecord : ledger.generations generation with
    | none =>
      simp only [hrecord] at h
      cases h
    | some record =>
      simp only [hrecord] at h
      by_cases hcompatible : record.state ≠ .staged ∨ record.dimensions ≠ dimensions
      · rw [if_pos hcompatible] at h
        cases h
      · rw [if_neg hcompatible] at h
        rw [not_or, not_not] at hcompatible
        cases h
        exact ⟨_, rfl, record, rfl, hcompatible.1⟩

theorem Sound.putGenerationVectors (hs : ledger.Sound)
    (h : ledger.putGenerationVectors generation dimensions writes = .ok ledger') :
    ledger'.Sound := by
  obtain ⟨vectors, rfl, record, hrecord, hstaged⟩ := of_putGenerationVectors_eq_ok h
  have hmono : ∀ other, ledger.Complete other → ({ ledger with
      vectors := update ledger.vectors generation vectors } : Ledger).Complete other := by
    rintro other ⟨old, hold, hstate, hcount⟩
    refine ⟨old, hold, hstate, ?_⟩
    dsimp only
    rw [Function.update_of_ne, hcount]
    rintro rfl
    cases hrecord.symm.trans hold
    rw [hstaged] at hstate
    cases hstate
  apply hs.of_complete _ hmono rfl rfl
  exact fun other old hold hstate => hmono other (hs.complete other old hold hstate)

theorem Sound.activate (hs : ledger.Sound) (h : ledger.Complete generation) :
    (ledger.activate generation).Sound where
  complete := hs.complete
  active := by
    intro other hother
    cases hother
    exact h
  previous := by
    intro other hother
    rcases Option.or_eq_some_iff.1 hother with hactive | ⟨-, hprevious⟩
    · exact hs.active other hactive
    · exact hs.previous other hprevious

theorem of_completeAndActivateGeneration_eq_ok
    (h : ledger.completeAndActivateGeneration generation = .ok ledger') :
    ∃ record, ledger.generations generation = some record ∧
      (ledger.vectors generation).keys.length = record.chunkCount ∧
      ledger' = (ledger.insertGeneration generation
        { record with state := .complete }).activate generation := by
  unfold completeAndActivateGeneration at h
  split at h
  · cases h
  · next record hrecord =>
    dsimp only at h
    split_ifs at h with hcount
    rw [not_not] at hcount
    cases h
    exact ⟨record, hrecord, hcount, rfl⟩

theorem Sound.completeAndActivateGeneration (hs : ledger.Sound)
    (h : ledger.completeAndActivateGeneration generation = .ok ledger') : ledger'.Sound := by
  obtain ⟨record, hrecord, hcount, rfl⟩ := of_completeAndActivateGeneration_eq_ok h
  apply Sound.activate
  · exact hs.insertGeneration (fun _ => hcount) fun _ => rfl
  · exact ⟨_, insertGeneration_self, rfl, hcount⟩

theorem of_selectCompleteGeneration_eq_ok
    (h : ledger.selectCompleteGeneration generation = .ok ledger') :
    (∃ record, ledger.generations generation = some record ∧ record.state = .complete) ∧
      ledger' = ledger.activate generation := by
  unfold selectCompleteGeneration at h
  split at h
  · cases h
  · next record hrecord =>
    split_ifs at h with hstate
    rw [not_not] at hstate
    cases h
    exact ⟨⟨record, hrecord, hstate⟩, rfl⟩

theorem Sound.selectCompleteGeneration (hs : ledger.Sound)
    (h : ledger.selectCompleteGeneration generation = .ok ledger') : ledger'.Sound := by
  obtain ⟨⟨record, hrecord, hstate⟩, rfl⟩ := of_selectCompleteGeneration_eq_ok h
  exact hs.activate (hs.complete generation record hrecord hstate)

end Ledger

end TldrCode.Semantic
