import Mathlib.Data.BitVec

/-!
# Identities and envelopes of artifacts

`artifact_store/types.rs`: the keys of artifacts, the records that the store holds under them, the
jobs that write them and the manifests of the generations that are published.
-/

namespace TldrCode.Store

/-- `[u8; 32]`, a hash. -/
abbrev Digest := BitVec 256

/-- `blake3::hash`. -/
abbrev Blake3 := List UInt8 → Digest

structure ProjectId where
  digest : Digest
  deriving DecidableEq, Repr

structure RevisionId where
  digest : Digest
  deriving DecidableEq, Repr

def RevisionId.forBytes (blake3 : Blake3) (bytes : List UInt8) : RevisionId := ⟨blake3 bytes⟩

inductive ArtifactSubject where
  | project
  | file (path : String)
  | symbol (anchor : String)
  deriving DecidableEq, Repr

inductive ArtifactKind where
  | fileFacts
  | symbols
  | references
  | callEdges
  | callGraph
  | cfg
  | dfg
  | pdg
  | semanticChunks
  | embeddings
  deriving DecidableEq, Repr

structure ProducerId where
  name : String
  version : Nat
  deriving DecidableEq, Repr

structure ArtifactKey where
  project : ProjectId
  revision : RevisionId
  subject : ArtifactSubject
  kind : ArtifactKind
  producer : ProducerId
  deriving DecidableEq, Repr

structure ArtifactEnvelope where
  key : ArtifactKey
  generation : Nat
  dependencies : List ArtifactKey
  payloadChecksum : Digest
  payload : List UInt8
  deriving DecidableEq, Repr

namespace ArtifactEnvelope

def new (blake3 : Blake3) (key : ArtifactKey) (generation : Nat) (dependencies : List ArtifactKey)
    (payload : List UInt8) : ArtifactEnvelope where
  key
  generation
  dependencies
  payloadChecksum := blake3 payload
  payload

def isValid (blake3 : Blake3) (artifact : ArtifactEnvelope) : Bool :=
  0 < artifact.generation && artifact.payloadChecksum == blake3 artifact.payload

theorem isValid_new {blake3 : Blake3} {key : ArtifactKey} {generation : Nat}
    {dependencies : List ArtifactKey} {payload : List UInt8} :
    (new blake3 key generation dependencies payload).isValid blake3 ↔ 0 < generation := by
  unfold isValid new
  simp

end ArtifactEnvelope

structure ArtifactBatch where
  generation : Nat
  artifacts : List ArtifactEnvelope
  deriving DecidableEq, Repr

inductive IngestionScope where
  | project
  | files (files : List String)
  deriving DecidableEq, Repr

inductive IngestionStage where
  | discovery
  | derivation
  | commit
  | validation
  | published
  | failed
  deriving DecidableEq, Repr

structure IngestionJob where
  id : String
  targetGeneration : Nat
  scope : IngestionScope
  stage : IngestionStage
  nextBatch : Nat
  totalBatches : Nat
  sourceRevision : RevisionId
  deriving DecidableEq, Repr

structure GenerationManifest where
  generation : Nat
  project : ProjectId
  sourceRevision : RevisionId
  artifacts : List ArtifactKey
  vectorGeneration : Option Nat
  deriving DecidableEq, Repr

/-- `TldrError`, the variants that the store and its users raise. -/
inductive StoreError where
  | parseError (file : String) (line : Option Nat) (message : String)
  | daemonError (message : String)
  deriving DecidableEq, Repr

end TldrCode.Store
