import Mathlib.Data.List.Defs
import TldrCode.Store.Redb

/-!
# Ingestion

`artifact_store/ingestion.rs` and the identity part of `artifact_store/file_facts.rs`: an invocation
plans the files it has to parse, commits their artifacts in batches, each with a checkpoint,
composes the call graph of all files and publishes the generation. The parser, the composer and the
codecs are given by `Tools`, the source files by `Sources`.
-/

namespace TldrCode.Store

open Function (update)

/-! ## Text -/

/-- The bytes that may follow the first byte of a UTF-8 sequence, if there is one. -/
def utf8Follow (b : UInt8) : Option (List (UInt8 × UInt8)) :=
  if b ≤ 0x7F then some []
  else if 0xC2 ≤ b ∧ b ≤ 0xDF then some [(0x80, 0xBF)]
  else if b = 0xE0 then some [(0xA0, 0xBF), (0x80, 0xBF)]
  else if b = 0xED then some [(0x80, 0x9F), (0x80, 0xBF)]
  else if 0xE1 ≤ b ∧ b ≤ 0xEF then some [(0x80, 0xBF), (0x80, 0xBF)]
  else if b = 0xF0 then some [(0x90, 0xBF), (0x80, 0xBF), (0x80, 0xBF)]
  else if 0xF1 ≤ b ∧ b ≤ 0xF3 then some [(0x80, 0xBF), (0x80, 0xBF), (0x80, 0xBF)]
  else if b = 0xF4 then some [(0x80, 0x8F), (0x80, 0xBF), (0x80, 0xBF)]
  else none

/-- The number of bytes that are as they may be. -/
def utf8Matched : List (UInt8 × UInt8) → List UInt8 → Nat
  | range :: ranges, b :: bytes =>
    if range.1 ≤ b ∧ b ≤ range.2 then utf8Matched ranges bytes + 1 else 0
  | [], _ => 0
  | _, [] => 0

/-- `String::from_utf8_lossy`, as bytes: what does not begin a sequence is replaced. -/
def lossyLoop : Nat → List UInt8 → List UInt8
  | 0, _ => []
  | _, [] => []
  | rounds + 1, b :: bytes =>
    let ranges := (utf8Follow b).getD []
    let matched := utf8Matched ranges bytes
    if (utf8Follow b).isSome && matched == ranges.length then
      b :: bytes.take matched ++ lossyLoop rounds (bytes.drop matched)
    else [0xEF, 0xBF, 0xBD] ++ lossyLoop rounds (bytes.drop matched)

def fromUtf8Lossy (bytes : List UInt8) : List UInt8 := lossyLoop bytes.length bytes

def utf8 (s : String) : List UInt8 := s.toUTF8.toList

def Digest.bytes (digest : Digest) : List UInt8 :=
  (List.range 32).map fun i => (digest.extractLsb' (8 * (31 - i)) 8).toNat.toUInt8

/-- The first eight bytes of a hash in hexadecimal digits. -/
def Digest.tag (digest : Digest) : String :=
  String.ofList ((digest.bytes.take 8).flatMap fun byte =>
    [Nat.digitChar (byte.toNat / 16), Nat.digitChar (byte.toNat % 16)])

/-! ## Facts -/

structure DefinitionFact where
  name : String
  kind : String
  signature : String
  lineStart : Nat
  lineEnd : Nat
  deriving DecidableEq, Repr

structure CallFact where
  caller : String
  callee : String
  deriving DecidableEq, Repr

structure SemanticChunkFact where
  functionName : Option String
  className : Option String
  lineStart : Nat
  lineEnd : Nat
  content : String
  contentHash : String
  deriving DecidableEq, Repr

structure ProjectCallEdgeFact where
  language : String
  sourceFile : String
  caller : String
  destinationFile : String
  callee : String
  callType : String
  deriving DecidableEq, Repr

structure Extraction where
  language : String
  definitions : List DefinitionFact
  calls : List CallFact
  semanticChunks : List SemanticChunkFact
  callgraphIr : List UInt8
  deriving DecidableEq, Repr

/-- `FileFacts`, with the parts of the extraction that ingestion reads. -/
structure FileFacts extends Extraction where
  path : String
  revision : RevisionId
  source : List UInt8
  deriving DecidableEq, Repr

/-- The hash, the order of encoded keys, the `Debug` form of strings, the codecs and the composer of
the call graph from the languages and the call-graph parts of the files. -/
structure Tools where
  blake3 : Blake3
  le : ArtifactKey → ArtifactKey → Bool
  debug : String → String
  encodeFacts : FileFacts → List UInt8
  decodeFacts : List UInt8 → Except StoreError FileFacts
  encodeDefinitions : List DefinitionFact → List UInt8
  encodeCalls : List CallFact → List UInt8
  encodeChunks : List SemanticChunkFact → List UInt8
  encodeEdges : List ProjectCallEdgeFact → List UInt8
  compose : List (String × List UInt8) → Except StoreError (List ProjectCallEdgeFact)

/-- The source files by their root-relative paths: what discovery finds, what is in them, which of
them a file scope accepts and what the parser makes of their texts. -/
structure Sources where
  discovered : List String
  nodup : discovered.Nodup
  read : String → Except StoreError (List UInt8)
  isFileScopeSource : String → Bool
  extract : String → List UInt8 → Except StoreError Extraction

section

variable (tools : Tools) (sources : Sources)

/-- The revision of a file in the source manifests: that of its bytes. -/
def Sources.byteRevision (path : String) : Except StoreError RevisionId := do
  return .forBytes tools.blake3 (← sources.read path)

/-- The revision of a file in its facts: that of its text. -/
def Sources.textRevision (path : String) : Except StoreError RevisionId := do
  return .forBytes tools.blake3 (fromUtf8Lossy (← sources.read path))

def parse (path : String) : Except StoreError FileFacts := do
  let source := fromUtf8Lossy (← sources.read path)
  let extraction ← sources.extract path source
  return { extraction with path, revision := .forBytes tools.blake3 source, source }

end

/-! ## Plans -/

def batchFiles : Nat := 32

/-- `FILE_FACTS_PRODUCER` and `FILE_FACTS_VERSION`. -/
def fileFactsProducer : ProducerId := ⟨"file-facts", 7⟩

def allArtifactKinds : List ArtifactKind :=
  [.fileFacts, .symbols, .references, .callEdges, .callGraph, .cfg, .dfg, .pdg, .semanticChunks,
    .embeddings]

/-- `chunks` of a slice. -/
def chunks {α : Type} (size : Nat) (l : List α) : List (List α) :=
  (List.range ((l.length + (size - 1)) / size)).map fun i => (l.drop (i * size)).take size

def ingestionError (message : String) : StoreError := .parseError "<ingestion>" none message

/-- A path whose components are all normal: relative, and without `.` at its front or `..`. -/
def isNormalPath (path : String) : Bool :=
  let components := path.toList.splitOn '/'
  path ≠ "" && components.head? ≠ some [] && components.head? ≠ some ['.'] &&
    !components.contains ['.', '.']

/-- `anchor.split_once("::")`, the part before. -/
def beforeColons : List Char → Option (List Char)
  | ':' :: ':' :: _ => some []
  | c :: cs => (beforeColons cs).map (c :: ·)
  | [] => none

def subjectFile : ArtifactSubject → Option String
  | .file path => some path
  | .symbol anchor => (beforeColons anchor.toList).map String.ofList
  | .project => none

def subjectChanged (changed : List String) : ArtifactSubject → Bool
  | .file path => path ∈ changed
  | .symbol anchor =>
    changed.any fun path => anchor = path || (path ++ "::").toList.isPrefixOf anchor.toList
  | .project => false

def artifactOrder (debug : String → String) (key : ArtifactKey) : String :=
  let subject := match key.subject with
    | .project => "Project"
    | .file path => "File(" ++ debug path ++ ")"
    | .symbol anchor => "Symbol(" ++ debug anchor ++ ")"
  let kind := match key.kind with
    | .fileFacts => "FileFacts"
    | .symbols => "Symbols"
    | .references => "References"
    | .callEdges => "CallEdges"
    | .callGraph => "CallGraph"
    | .cfg => "Cfg"
    | .dfg => "Dfg"
    | .pdg => "Pdg"
    | .semanticChunks => "SemanticChunks"
    | .embeddings => "Embeddings"
  subject ++ ":" ++ kind

/-- `sort_by_key(artifact_order)` on records. -/
def sortArtifacts (debug : String → String) (artifacts : List ArtifactEnvelope) :
    List ArtifactEnvelope :=
  artifacts.insertionSort fun a b => artifactOrder debug a.key ≤ artifactOrder debug b.key

/-- `sort_by_key(artifact_order)` and `dedup` on keys. -/
def sortKeys (debug : String → String) (keys : List ArtifactKey) : List ArtifactKey :=
  (keys.insertionSort fun a b => artifactOrder debug a ≤ artifactOrder debug b).destutter (· ≠ ·)

def normalizeScope : IngestionScope → IngestionScope
  | .project => .project
  | .files files => .files ((files.insertionSort (· ≤ ·)).destutter (· ≠ ·))

def scopeTag (blake3 : Blake3) : IngestionScope → String
  | .project => "project"
  | .files files => Digest.tag (blake3 (files.flatMap fun file => utf8 file ++ [0]))

/-- The files of a scope: `all_files`, `source_revision` and `revisions`. -/
structure SourceManifest where
  allFiles : List String
  sourceRevision : RevisionId
  revisions : String → Option RevisionId

section

variable (tools : Tools) (sources : Sources)

def revisionMap (revisions : List (String × RevisionId)) (path : String) : Option RevisionId :=
  (revisions.find? (·.1 = path)).map (·.2)

/-- `source_manifest` of the discovered files. -/
def sourceManifest : Except StoreError SourceManifest := do
  let revisions ← sources.discovered.mapM fun path => do
    return (path, ← sources.byteRevision tools path)
  return {
    allFiles := sources.discovered
    sourceRevision := .forBytes tools.blake3
      (revisions.flatMap fun (path, revision) => utf8 path ++ revision.digest.bytes)
    revisions := revisionMap revisions }

/-- A requested file of a file scope, with its revision if it is a source. -/
def fileScopeEntry (path : String) : Except StoreError (String × Option RevisionId) :=
  if !isNormalPath path then
    .error (ingestionError
      ("file-scoped ingestion requires a normalized root-relative path: " ++ path))
  else if sources.isFileScopeSource path then do
    return (path, some (← sources.byteRevision tools path))
  else return (path, none)

def fileScopeManifest (files : List String) (previousRevision : Option RevisionId) :
    Except StoreError SourceManifest := do
  let entries ← files.mapM (fileScopeEntry tools sources)
  let present := entries.filterMap fun (path, revision) => revision.map (path, ·)
  return {
    allFiles := present.map (·.1)
    sourceRevision := .forBytes tools.blake3 (utf8 "file-scope-generation-v1" ++
      (previousRevision.map (·.digest.bytes)).getD [] ++ entries.flatMap fun (path, revision) =>
        utf8 path ++ match revision with
          | some revision => utf8 "present" ++ revision.digest.bytes
          | none => utf8 "absent")
    revisions := revisionMap present }

end

/-- The keys of the facts of the previous generation that need no parsing: `fresh_file_facts`. -/
def freshFileFacts (previousKeys : List ArtifactKey) : List (ArtifactSubject × RevisionId) :=
  (previousKeys.filter fun key => key.kind = .fileFacts ∧ key.producer = fileFactsProducer).map
    fun key => (key.subject, key.revision)

/-- `removed_files` of the project scope. -/
def removedFiles (previousKeys : List ArtifactKey) (revisions : String → Option RevisionId) :
    List String :=
  ((previousKeys.filter (·.kind = .fileFacts)).filterMap fun key => subjectFile key.subject).filter
    fun path => (revisions path).isNone

structure Plan where
  scope : IngestionScope
  generation : Nat
  sourceRevision : RevisionId
  revisions : String → Option RevisionId
  jobId : String
  selected : List String
  regenerated : List String
  carried : List ArtifactKey
  nextBatch : Nat
  resumed : Bool

namespace Plan

variable (plan : Plan)

def totalBatches : Nat := (plan.selected.length + (batchFiles - 1)) / batchFiles

/-- The checkpoint that an invocation resumes: `existing`. -/
def existing (store : RedbArtifactStore) : Option IngestionJob :=
  (store.jobs plan.jobId).filter fun job =>
    job.targetGeneration = plan.generation ∧ job.scope = plan.scope ∧
      job.sourceRevision = plan.sourceRevision ∧ job.stage ≠ .published

def resume (existing : Option IngestionJob) : Plan :=
  { plan with nextBatch := (existing.map (·.nextBatch)).getD 0, resumed := existing.isSome }

def remaining : List String := plan.selected.drop (plan.nextBatch * batchFiles)

def job (stage : IngestionStage) (nextBatch : Nat) : IngestionJob where
  id := plan.jobId
  targetGeneration := plan.generation
  scope := plan.scope
  stage
  nextBatch
  totalBatches := plan.totalBatches
  sourceRevision := plan.sourceRevision

end Plan

section

variable (tools : Tools) (project : ProjectId) (sources : Sources)

/-- The plan of a generation from its beginning. -/
def basePlan (scope : IngestionScope) (store : RedbArtifactStore) : Except StoreError Plan := do
  let scope := normalizeScope scope
  let active := store.activeGeneration.getD 0
  let generation := active + 1
  let previous := store.generations active
  let manifest ← match scope with
    | .project => sourceManifest tools sources
    | .files files => fileScopeManifest tools sources files (previous.map (·.sourceRevision))
  let jobId := "ingestion-" ++ toString generation ++ "-" ++
    Digest.tag manifest.sourceRevision.digest ++ "-" ++ scopeTag tools.blake3 scope
  let previousKeys := (previous.map (·.artifacts)).getD []
  let fresh := freshFileFacts previousKeys
  let stale := fun path => match manifest.revisions path with
    | some revision => (.file path, revision) ∉ fresh
    | none => true
  let selected := match scope with
    | .project => manifest.allFiles.filter stale
    | .files files => manifest.allFiles.filter fun path => path ∈ files && stale path
  let regenerated := match scope with
    | .project => selected ++ removedFiles previousKeys manifest.revisions
    | .files files => files.filter fun path => path ∈ selected || (manifest.revisions path).isNone
  return {
    scope, generation, sourceRevision := manifest.sourceRevision, revisions := manifest.revisions,
    jobId, selected, regenerated
    carried := previousKeys.filter fun key => !subjectChanged regenerated key.subject
    nextBatch := 0
    resumed := false }

/-- The part of `ingest_with_batch_limit` before the parsing. -/
def makePlan (scope : IngestionScope) (store : RedbArtifactStore) : Except StoreError Plan := do
  let plan ← basePlan tools sources scope store
  return plan.resume (plan.existing store)

/-- A committed record of an earlier attempt that the generation keeps. -/
def Plan.recovers (plan : Plan) (key : ArtifactKey) : Bool :=
  match subjectFile key.subject with
  | some path => path ∈ plan.regenerated && plan.revisions path = some key.revision
  | none => false

/-- The keys that an invocation recovers from earlier attempts. -/
def Plan.recovered (plan : Plan) (store : RedbArtifactStore) :
    Except StoreError (List ArtifactKey) := do
  let artifacts ← allArtifactKinds.mapM (store.artifacts tools.blake3 tools.le plan.generation)
  return (artifacts.flatten.map (·.key)).filter plan.recovers

/-! ## Batches -/

def fileKey (path : String) (revision : RevisionId) (kind : ArtifactKind) : ArtifactKey where
  project
  revision
  subject := .file path
  kind
  producer := fileFactsProducer

def derive (generation : Nat) (facts : FileFacts) : List ArtifactEnvelope :=
  let key := fileKey project facts.path facts.revision
  let new := fun kind dependencies payload =>
    ArtifactEnvelope.new tools.blake3 (key kind) generation dependencies payload
  [new .fileFacts [] (tools.encodeFacts facts),
    new .symbols [key .fileFacts] (tools.encodeDefinitions facts.definitions),
    new .references [key .fileFacts] (tools.encodeCalls facts.calls),
    new .callEdges [key .fileFacts] (tools.encodeCalls facts.calls),
    new .semanticChunks [key .fileFacts] (tools.encodeChunks facts.semanticChunks)]

def batchOf (generation : Nat) (chunk : List FileFacts) : ArtifactBatch where
  generation
  artifacts := sortArtifacts tools.debug (chunk.flatMap (derive tools project generation))

def interruption : StoreError := ingestionError "certification interruption"

/-- What committing batches leaves: the store, the files whose facts were committed, and the keys or
an error. -/
structure Committed where
  store : RedbArtifactStore
  committed : List String
  result : Except StoreError (List ArtifactKey)

def commitBatches (plan : Plan) (limit : Option Nat) :
    List (List FileFacts) → Nat → RedbArtifactStore → Committed
  | [], _, store => ⟨store, [], .ok []⟩
  | chunk :: chunks, offset, store =>
    let batch := batchOf tools project plan.generation chunk
    match store.commitBatch tools.blake3 batch
        (plan.job .commit (plan.nextBatch + offset + 1)) with
    | .error e => ⟨store, [], .error e⟩
    | .ok store =>
      if limit.any (· ≤ offset + 1) then ⟨store, chunk.map (·.path), .error interruption⟩
      else
        let rest := commitBatches plan limit chunks (offset + 1) store
        { rest with
          committed := chunk.map (·.path) ++ rest.committed
          result := rest.result.map (batch.artifacts.map (·.key) ++ ·) }

/-! ## Publication -/

/-- The facts that a file contributes to the call graph. -/
def callInput (store : RedbArtifactStore) (key : ArtifactKey) :
    Except StoreError (String × List UInt8) := do
  match ← store.artifact tools.blake3 key with
  | none => throw (ingestionError "file-facts dependency disappeared")
  | some artifact =>
    let facts ← tools.decodeFacts artifact.payload
    return (facts.language, facts.callgraphIr)

def graphKey (sourceRevision : RevisionId) : ArtifactKey where
  project
  revision := sourceRevision
  subject := .project
  kind := .callGraph
  producer := ⟨"project-call-graph", 2⟩

/-- The part of `ingest_with_batch_limit` after the batches: the store and an error, if there is
one. -/
def publishPlan (plan : Plan) (keys : List ArtifactKey) (store : RedbArtifactStore) :
    RedbArtifactStore × Except StoreError Unit :=
  let keys := sortKeys tools.debug keys
  let callDependencies := keys.filter (·.kind = .fileFacts)
  match callDependencies.mapM (callInput tools store) >>= tools.compose with
  | .error e => (store, .error e)
  | .ok calls =>
    let key := graphKey project plan.sourceRevision
    let graph := ArtifactEnvelope.new tools.blake3 key plan.generation callDependencies
      (tools.encodeEdges calls)
    match store.commitBatch tools.blake3 ⟨plan.generation, [graph]⟩
        (plan.job .validation plan.totalBatches) with
    | .error e => (store, .error e)
    | .ok store =>
      match store.publish
          { generation := plan.generation, project, sourceRevision := plan.sourceRevision
            artifacts := keys.filter (·.kind ≠ .callGraph) ++ [key], vectorGeneration := none } with
      | .error e => (store, .error e)
      | .ok store =>
        match store.commitBatch tools.blake3 ⟨plan.generation, []⟩
            (plan.job .published plan.totalBatches) with
        | .error e => (store, .error e)
        | .ok store => (store, .ok ())

/-- `IngestionReport`, without the timings. -/
structure IngestionReport where
  generation : Nat
  parsedFiles : Nat
  artifacts : Nat
  resumed : Bool
  deriving DecidableEq, Repr

/-- What an invocation leaves: the store, the files it parsed, the files whose facts it committed,
and a report or an error. -/
structure Invocation where
  store : RedbArtifactStore
  parsed : List String
  committed : List String
  result : Except StoreError IngestionReport

def ingestWithBatchLimit (scope : IngestionScope) (limit : Option Nat)
    (store : RedbArtifactStore) : Invocation :=
  match makePlan tools sources scope store with
  | .error e => ⟨store, [], [], .error e⟩
  | .ok plan =>
    match plan.remaining.mapM (parse tools sources) with
    | .error e => ⟨store, [], [], .error e⟩
    | .ok facts =>
      match plan.recovered tools store with
      | .error e => ⟨store, plan.remaining, [], .error e⟩
      | .ok recovered =>
        let batches := commitBatches tools project plan limit (chunks batchFiles facts) 0 store
        match batches.result with
        | .error e => ⟨batches.store, plan.remaining, batches.committed, .error e⟩
        | .ok keys =>
          let (store, published) :=
            publishPlan tools project plan (plan.carried ++ recovered ++ keys) batches.store
          ⟨store, plan.remaining, batches.committed, published.map fun _ =>
            { generation := plan.generation, parsedFiles := plan.remaining.length
              artifacts := keys.length + 1, resumed := plan.resumed }⟩

def ingest (scope : IngestionScope) (store : RedbArtifactStore) : Invocation :=
  ingestWithBatchLimit tools project sources scope none store

def ingestInterruptedAfter (scope : IngestionScope) (committedBatches : Nat)
    (store : RedbArtifactStore) : Invocation :=
  ingestWithBatchLimit tools project sources scope (some committedBatches) store

end

end TldrCode.Store
