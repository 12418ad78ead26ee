import Mathlib.Data.List.Sort
import Mathlib.Logic.Function.Basic
import TldrCode.Store.Types

/-!
# The artifact store

`artifact_store/redb.rs`: the tables of the store and its transactions. A transaction commits all
its writes or returns an error and none. The tables are keyed by the keys themselves, their encoding
being injective; a multimap table lists the values of a key in the order of their bytes, which is
given by `le`.
-/

namespace TldrCode.Store

open Function (update)

def storeError (message : String) : StoreError := .parseError "<artifact-store>" none message

/-- `insert` of a multimap table. -/
def insertValue {α : Type} [DecidableEq α] (values : List α) (value : α) : List α :=
  if value ∈ values then values else values ++ [value]

/-- The tables of `RedbArtifactStore`: the two generations of `METADATA`, `GENERATIONS`,
`ARTIFACTS`, `ARTIFACT_DEPS`, `GENERATION_ARTIFACTS` and `JOBS`. -/
structure RedbArtifactStore where
  activeGeneration : Option Nat
  previousGeneration : Option Nat
  generations : Nat → Option GenerationManifest
  records : ArtifactKey → Option ArtifactEnvelope
  deps : ArtifactKey → List ArtifactKey
  links : Nat → List ArtifactKey
  jobs : String → Option IngestionJob

namespace RedbArtifactStore

/-- The store that `open` creates. -/
def empty : RedbArtifactStore where
  activeGeneration := none
  previousGeneration := none
  generations _ := none
  records _ := none
  deps _ := []
  links _ := []
  jobs _ := none

variable (blake3 : Blake3) (le : ArtifactKey → ArtifactKey → Bool) (store : RedbArtifactStore)

/-! ## Reads -/

def artifact (key : ArtifactKey) : Except StoreError (Option ArtifactEnvelope) :=
  match store.records key with
  | none => .ok none
  | some artifact =>
    if artifact.isValid blake3 then .ok (some artifact)
    else .error (storeError "artifact checksum validation failed")

/-- The record of a link that `artifacts` reads. -/
def linked (key : ArtifactKey) : Except StoreError ArtifactEnvelope :=
  match store.records key with
  | none => .error (storeError "generation references a missing artifact")
  | some envelope =>
    if envelope.isValid blake3 then .ok envelope
    else .error (storeError "artifact checksum validation failed")

def artifacts (generation : Nat) (kind : ArtifactKind) :
    Except StoreError (List ArtifactEnvelope) := do
  let envelopes ← ((store.links generation).insertionSort (le · ·)).mapM (store.linked blake3)
  return envelopes.filter (·.key.kind = kind)

/-! ## Writes -/

/-- `insert` of the records of a batch. -/
def insertRecords (records : ArtifactKey → Option ArtifactEnvelope)
    (artifacts : List ArtifactEnvelope) : ArtifactKey → Option ArtifactEnvelope :=
  artifacts.foldl (fun records artifact => update records artifact.key (some artifact)) records

/-- `insert` of the links of a generation. -/
def insertLinks (links : Nat → List ArtifactKey) (generation : Nat) (keys : List ArtifactKey) :
    Nat → List ArtifactKey :=
  update links generation (keys.foldl insertValue (links generation))

/-- `insert` of the inputs of a record. -/
def insertDeps (deps : ArtifactKey → List ArtifactKey) (artifact : ArtifactEnvelope) :
    ArtifactKey → List ArtifactKey :=
  artifact.dependencies.foldl
    (fun deps input => update deps input (insertValue (deps input) artifact.key)) deps

/-- A checkpoint that does not follow the stored one. -/
def badTransition (existing job : IngestionJob) : Bool :=
  existing.targetGeneration ≠ job.targetGeneration || existing.scope ≠ job.scope ||
    existing.sourceRevision ≠ job.sourceRevision || job.nextBatch < existing.nextBatch ||
    existing.nextBatch + 1 < job.nextBatch

def commitBatch (batch : ArtifactBatch) (job : IngestionJob) :
    Except StoreError RedbArtifactStore :=
  if batch.generation = 0 ∨ batch.generation ≠ job.targetGeneration then
    .error (storeError "artifact batch and job generation differ")
  else if batch.artifacts.any fun artifact =>
      artifact.generation ≠ batch.generation || !artifact.isValid blake3 then
    .error (storeError "artifact batch contains an invalid record")
  else if (store.jobs job.id).any (badTransition · job) then
    .error (storeError "invalid ingestion checkpoint transition")
  else
    .ok { store with
      records := insertRecords store.records batch.artifacts
      links := insertLinks store.links batch.generation (batch.artifacts.map (·.key))
      deps := batch.artifacts.foldl insertDeps store.deps
      jobs := update store.jobs job.id (some job) }

def commitOptional (artifact : ArtifactEnvelope) : Except StoreError RedbArtifactStore :=
  if !artifact.isValid blake3 then .error (storeError "optional artifact is invalid")
  else match store.activeGeneration with
  | none => .error (storeError "no active generation for optional artifact")
  | some active =>
    if active ≠ artifact.generation then
      .error (storeError "optional artifact does not target the active generation")
    else if artifact.dependencies.any fun dependency => (store.records dependency).isNone then
      .error (storeError "optional artifact dependency is missing")
    else match store.generations active with
    | none => .error (storeError "active generation manifest is missing")
    | some manifest =>
      .ok { store with
        records := insertRecords store.records [artifact]
        links := insertLinks store.links active [artifact.key]
        deps := insertDeps store.deps artifact
        generations := update store.generations active
          (some { manifest with artifacts := insertValue manifest.artifacts artifact.key }) }

def setVectorGeneration (generation vectorGeneration : Nat) :
    Except StoreError RedbArtifactStore :=
  if store.activeGeneration ≠ some generation then
    .error (storeError "vector generation targets a stale manifest")
  else match store.generations generation with
  | none => .error (storeError "active generation manifest is missing")
  | some manifest =>
    .ok { store with
      generations := update store.generations generation
        (some { manifest with vectorGeneration := some vectorGeneration }) }

def publish (manifest : GenerationManifest) : Except StoreError RedbArtifactStore :=
  if manifest.generation = 0 then .error (storeError "generation zero cannot be published")
  else if store.activeGeneration.any (manifest.generation ≤ ·) then
    .error (storeError "published generation must be newer than the active generation")
  else if manifest.artifacts.any fun key => (store.records key).isNone then
    .error (storeError "cannot publish a generation with missing artifacts")
  else if (store.generations manifest.generation).isSome then
    .error (storeError "generation already exists")
  else
    .ok { store with
      generations := update store.generations manifest.generation (some manifest)
      links := insertLinks store.links manifest.generation manifest.artifacts
      previousGeneration := store.activeGeneration.or store.previousGeneration
      activeGeneration := some manifest.generation }

end RedbArtifactStore

end TldrCode.Store
