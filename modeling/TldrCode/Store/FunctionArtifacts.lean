import Mathlib.Tactic.IntervalCases
import TldrCode.Store.Scopes

/-!
# Function artifacts

`artifact_store/function_artifacts.rs` and the calls of `ArtifactManager::cfg` and `dfg`, beside
ingestion: calls look up a record, build, read the active generation and attach their artifact to
it, each in a step of its own, while an ingestion commits its batches and publishes. The active
manifest is consistent in every state if and only if every artifact is attached to a manifest that
lists the facts of its file with its revision and what it depends on (`consistent_iff_attached`).
-/

namespace TldrCode.Store

open Function (update)
open RedbArtifactStore

/-! ## Requests -/

/-- The artifacts that `ArtifactManager` builds on demand. -/
inductive FunctionKind where
  | cfg
  | dfg
  deriving DecidableEq, Repr

/-- What a call of `cfg` or `dfg` is about: the path and the revision of the facts of its snapshot,
the function, and the artifact. -/
structure Request where
  path : String
  revision : RevisionId
  function : String
  kind : FunctionKind
  deriving DecidableEq, Repr

namespace Request

variable (project : ProjectId) (request : Request)

/-- The key of the facts, in `function_keys_for_facts`. -/
def factsKey : ArtifactKey := fileKey project request.path request.revision .fileFacts

/-- The key of an artifact of the function, in `function_keys_for_facts`. -/
def functionKey (kind : ArtifactKind) (producer : String) (version : Nat) : ArtifactKey where
  project
  revision := request.revision
  subject := .symbol (request.path ++ "::" ++ request.function)
  kind
  producer := ⟨producer, version⟩

def key : ArtifactKey :=
  match request.kind with
  | .cfg => request.functionKey project .cfg "cfg" 1
  | .dfg => request.functionKey project .dfg "dfg" 1

def dependencies : List ArtifactKey :=
  match request.kind with
  | .cfg => [request.factsKey project]
  | .dfg => [request.functionKey project .cfg "cfg" 1]

end Request

/-! ## The system -/

/-- Where a call of `materialize` is. -/
inductive Phase where
  | idle
  | missing (request : Request)
  | built (request : Request) (payload : List UInt8)
  | pinned (request : Request) (payload : List UInt8) (generation : Nat)
  deriving DecidableEq, Repr

/-- An ingestion that has parsed its files: the batches that it has not committed, the number of the
next one, and the keys that it will publish. -/
structure Ingesting where
  plan : Plan
  pending : List (List FileFacts)
  index : Nat
  keys : List ArtifactKey

/-- The store, the ingestion that holds the writer lock, if there is one, and the calls. -/
structure System where
  store : RedbArtifactStore
  ingesting : Option Ingesting
  calls : Nat → Phase

inductive Event where
  | begin (sources : Sources) (scope : IngestionScope)
  | commit
  | publish
  | abort
  | lookup (id : Nat) (request : Request)
  | build (id : Nat) (payload : List UInt8)
  | readActive (id : Nat)
  | commitOptional (id : Nat)

namespace System

variable (tools : Tools) (project : ProjectId)

def initial : System := ⟨.empty, none, fun _ => .idle⟩

/-- `ingest_with_batch_limit` before the loop over the batches. -/
def beginIngestion (sources : Sources) (scope : IngestionScope) (store : RedbArtifactStore) :
    Except StoreError Ingesting := do
  let plan ← makePlan tools sources scope store
  let facts ← plan.remaining.mapM (parse tools sources)
  let recovered ← plan.recovered tools store
  return ⟨plan, chunks batchFiles facts, plan.nextBatch, plan.carried ++ recovered⟩

def artifactOf (request : Request) (payload : List UInt8) (generation : Nat) : ArtifactEnvelope :=
  .new tools.blake3 (request.key project) generation (request.dependencies project) payload

def next (s : System) : Event → System
  | .begin sources scope =>
    match s.ingesting, beginIngestion tools sources scope s.store with
    | none, .ok ingesting => { s with ingesting := some ingesting }
    | _, _ => s
  | .commit =>
    match s.ingesting with
    | some ⟨plan, chunk :: pending, index, keys⟩ =>
      let batch := batchOf tools project plan.generation chunk
      match s.store.commitBatch tools.blake3 batch (plan.job .commit (index + 1)) with
      | .ok store => { s with
          store
          ingesting := some ⟨plan, pending, index + 1, keys ++ batch.artifacts.map (·.key)⟩ }
      | .error _ => { s with ingesting := none }
    | _ => s
  | .publish =>
    match s.ingesting with
    | some ⟨plan, [], _, keys⟩ => { s with
        store := (publishPlan tools project plan keys s.store).1
        ingesting := none }
    | _ => s
  | .abort => { s with ingesting := none }
  | .lookup id request =>
    match s.calls id, s.store.artifact tools.blake3 (request.key project) with
    | .idle, .ok none => { s with calls := update s.calls id (.missing request) }
    | _, _ => s
  | .build id payload =>
    match s.calls id with
    | .missing request => { s with calls := update s.calls id (.built request payload) }
    | _ => s
  | .readActive id =>
    match s.calls id, s.store.activeGeneration with
    | .built request payload, some generation =>
      { s with calls := update s.calls id (.pinned request payload generation) }
    | .built _ _, none => { s with calls := update s.calls id .idle }
    | _, _ => s
  | .commitOptional id =>
    match s.calls id with
    | .pinned request payload generation => { s with
        store := s.store.perform tools.blake3
          (.commitOptional (artifactOf tools project request payload generation))
        calls := update s.calls id .idle }
    | _ => s

def afterEvents (events : List Event) : System := events.foldl (next tools project) initial

end System

/-- The sources that the ingestions of events read. -/
def sourcesOf (events : List Event) : List Sources :=
  events.filterMap fun event => match event with
    | .begin sources _ => some sources
    | _ => none

/-- The facts of a file are listed, with a revision. -/
def FactsListed (listed : List ArtifactKey) (path : String) (revision : RevisionId) : Prop :=
  ∃ facts ∈ listed, facts.kind = .fileFacts ∧ facts.subject = .file path ∧ facts.revision = revision

/-- The facts of the file of a symbol are listed, with a revision. -/
def SymbolListed (listed : List ArtifactKey) (anchor : String) (revision : RevisionId) : Prop :=
  ∃ path function, anchor = path ++ "::" ++ function ∧ FactsListed listed path revision

/-- The active manifest lists each artifact of a file or symbol with the revision of the facts of
its file, and with all its dependencies. -/
structure Consistent (store : RedbArtifactStore) : Prop where
  listed : ∀ key ∈ store.activeArtifacts, ∀ path, key.subject = .file path →
    FactsListed store.activeArtifacts path key.revision
  unique : ∀ key ∈ store.activeArtifacts, ∀ path, key.subject = .file path →
    ∀ facts ∈ store.activeArtifacts, facts.kind = .fileFacts → facts.subject = .file path →
      facts.revision = key.revision
  symbols : ∀ key ∈ store.activeArtifacts, ∀ anchor, key.subject = .symbol anchor →
    SymbolListed store.activeArtifacts anchor key.revision
  dependencies : ∀ key ∈ store.activeArtifacts, key.subject ≠ .project →
    ∀ record, store.records key = some record → record.dependencies ⊆ store.activeArtifacts

/-- An artifact that is attached has the revision that its file has in the active manifest, which
lists its dependencies. -/
def Attaches (tools : Tools) (project : ProjectId) (s : System) : Event → Prop
  | .commitOptional id =>
    match s.calls id with
    | .pinned request payload generation =>
      (Call.commitOptional (System.artifactOf tools project request payload generation)).accepted
          tools.blake3 s.store →
        SymbolListed s.store.activeArtifacts (request.path ++ "::" ++ request.function)
            request.revision ∧
          request.dependencies project ⊆ s.store.activeArtifacts
    | _ => True
  | _ => True

/-! ## Keys and records -/

variable {tools : Tools} {project : ProjectId} {trees : List Sources} {sources : Sources}
  {scope : IngestionScope} {store store' : RedbArtifactStore} {key facts : ArtifactKey}
  {request : Request} {path : String} {revision : RevisionId} {kind : ArtifactKind}
  {changed : List String} {plan : Plan} {ingesting : Ingesting} {s : System}
  {keys : List ArtifactKey} {chunk : List FileFacts} {event : Event} {artifact : ArtifactEnvelope}
  {index : Nat} {events : List Event} {g : Nat}

inductive ProgramKey (tools : Tools) (project : ProjectId) (trees : List Sources) :
    ArtifactKey → Prop
  | file (tree : Sources) (htree : tree ∈ trees) (path : String) (revision : RevisionId)
    (kind : ArtifactKind) (hkind : kind ∈ fileKinds)
    (htext : tree.textRevision tools path = .ok revision) :
    ProgramKey tools project trees (fileKey project path revision kind)
  | graph (revision : RevisionId) : ProgramKey tools project trees (graphKey project revision)
  | function (request : Request) : ProgramKey tools project trees (request.key project)

/-- The dependencies that the program gives to keys. -/
inductive DependsOn (project : ProjectId) : ArtifactKey → List ArtifactKey → Prop
  | file (path : String) (revision : RevisionId) (kind : ArtifactKind) (hkind : kind ∈ fileKinds)
    (dependencies : List ArtifactKey)
    (h : dependencies ⊆ [fileKey project path revision .fileFacts]) :
    DependsOn project (fileKey project path revision kind) dependencies
  | graph (revision : RevisionId) (dependencies : List ArtifactKey) :
    DependsOn project (graphKey project revision) dependencies
  | function (request : Request) :
    DependsOn project (request.key project) (request.dependencies project)

theorem Request.key_subject :
    (request.key project).subject = .symbol (request.path ++ "::" ++ request.function) := by
  unfold Request.key
  cases request.kind <;> rfl

theorem Request.key_revision : (request.key project).revision = request.revision := by
  unfold Request.key
  cases request.kind <;> rfl

theorem Request.key_kind_notMem : (request.key project).kind ∉ fileKinds := by
  unfold Request.key
  cases request.kind with
  | cfg => exact (by decide : ArtifactKind.cfg ∉ fileKinds)
  | dfg => exact (by decide : ArtifactKind.dfg ∉ fileKinds)

theorem Request.key_ne_fileKey : request.key project ≠ fileKey project path revision kind := by
  intro h
  have := congrArg ArtifactKey.subject h
  rw [Request.key_subject] at this
  cases this

theorem Request.key_ne_graphKey : request.key project ≠ graphKey project revision := by
  intro h
  have := congrArg ArtifactKey.subject h
  rw [Request.key_subject] at this
  cases this

theorem Request.functionKey_congr {other : Request} (h : other.key project = request.key project) :
    other.functionKey project .cfg "cfg" 1 = request.functionKey project .cfg "cfg" 1 := by
  have hsubject := congrArg ArtifactKey.subject h
  have hrevision := congrArg ArtifactKey.revision h
  rw [Request.key_subject, Request.key_subject] at hsubject
  rw [Request.key_revision, Request.key_revision] at hrevision
  unfold Request.functionKey
  rw [hsubject, hrevision]

theorem ProgramKey.eq_fileKey (h : ProgramKey tools project trees facts)
    (hkind : facts.kind = .fileFacts) (hsubject : facts.subject = .file path) :
    facts = fileKey project path facts.revision .fileFacts := by
  cases h with
  | file tree htree path' revision kind =>
    cases hsubject
    cases hkind
    rfl
  | graph => cases hsubject
  | function request =>
    rw [Request.key_subject] at hsubject
    cases hsubject

theorem subjectChanged_file : subjectChanged changed (.file path) ↔ path ∈ changed := by
  simp [subjectChanged]

theorem subjectChanged_symbol {function : String} (h : path ∈ changed) :
    subjectChanged changed (.symbol (path ++ "::" ++ function)) := by
  unfold subjectChanged
  rw [List.any_eq_true]
  refine ⟨path, h, ?_⟩
  rw [Bool.or_eq_true]
  right
  rw [List.isPrefixOf_iff_prefix]
  exact ⟨function.toList, String.toList_append.symm⟩

/-! ## The store -/

structure StoreInv (tools : Tools) (project : ProjectId) (trees : List Sources)
    (store : RedbArtifactStore) : Prop where
  linked : Linked tools (ProgramKey tools project trees) store
  siblings : ∀ g path revision, ∀ kind ∈ fileKinds,
    fileKey project path revision kind ∈ store.links g →
      fileKey project path revision .fileFacts ∈ store.links g
  early : ∀ g (request : Request), request.key project ∈ store.links g →
    ∃ active, store.activeGeneration = some active ∧ g ≤ active
  records : ∀ key record, store.records key = some record →
    DependsOn project key record.dependencies
  fresh : store.activeGeneration = none → ∀ g, store.generations g = none
  consistent : Consistent store

theorem exists_links_of_active (hs : store.Sound tools.blake3)
    (hkey : key ∈ store.activeArtifacts) :
    ∃ g, key ∈ store.links g := by
  unfold RedbArtifactStore.activeArtifacts at hkey
  cases hmanifest : store.activeGeneration.bind store.generations with
  | none => rw [hmanifest] at hkey; cases hkey
  | some manifest =>
    rw [hmanifest] at hkey
    obtain ⟨g, -, hg⟩ := Option.bind_eq_some_iff.1 hmanifest
    exact ⟨g, (hs.manifest g manifest hg).2 hkey⟩

theorem activeArtifacts_congr (hactive : store'.activeGeneration = store.activeGeneration)
    (hgenerations : store'.generations = store.generations) :
    store'.activeArtifacts = store.activeArtifacts := by
  unfold RedbArtifactStore.activeArtifacts
  rw [hactive, hgenerations]

namespace StoreInv

section

variable (h : StoreInv tools project trees store)
include h

theorem programKey (hkey : key ∈ store.activeArtifacts) : ProgramKey tools project trees key := by
  obtain ⟨g, hg⟩ := exists_links_of_active h.linked.sound hkey
  exact h.linked.linked g key hg

theorem previousKeys_eq : store.previousKeys = store.activeArtifacts := by
  unfold RedbArtifactStore.previousKeys RedbArtifactStore.activeArtifacts
  cases hactive : store.activeGeneration with
  | none => rw [h.fresh hactive]; rfl
  | some g => rfl

theorem facts_mem (hkey : fileKey project path revision kind ∈ store.activeArtifacts) :
    fileKey project path revision .fileFacts ∈ store.activeArtifacts := by
  obtain ⟨facts, hfacts, hkind, hsubject, hrevision⟩ := h.consistent.listed _ hkey path rfl
  have heq := (h.programKey hfacts).eq_fileKey hkind hsubject
  rw [hrevision] at heq
  exact heq ▸ hfacts

theorem flow_mem (hkind : request.kind = .dfg)
    (hkey : request.key project ∈ store.activeArtifacts) :
    request.functionKey project .cfg "cfg" 1 ∈ store.activeArtifacts := by
  obtain ⟨g, hg⟩ := exists_links_of_active h.linked.sound hkey
  obtain ⟨record, hrecord⟩ := Option.isSome_iff_exists.1 (h.linked.sound.linked g _ hg)
  have hsubject : (request.key project).subject ≠ .project := by
    rw [Request.key_subject]
    exact ArtifactSubject.noConfusion
  have hsub := h.consistent.dependencies _ hkey hsubject record hrecord
  have hdepends := h.records _ _ hrecord
  generalize hrequest : request.key project = key at hdepends
  generalize record.dependencies = dependencies at hdepends hsub
  cases hdepends with
  | file => exact absurd hrequest Request.key_ne_fileKey
  | graph => exact absurd hrequest Request.key_ne_graphKey
  | function other =>
    have hother : other.kind = .dfg := by
      have := congrArg ArtifactKey.kind hrequest
      unfold Request.key at this
      rw [hkind] at this
      cases hkind' : other.kind with
      | cfg => rw [hkind'] at this; cases this
      | dfg => rfl
    apply hsub
    unfold Request.dependencies
    rw [hother, Request.functionKey_congr hrequest]
    exact List.mem_singleton_self _

theorem dependencies_of_file (hkey : fileKey project path revision kind ∈ store.activeArtifacts)
    {dependencies : List ArtifactKey}
    (hdepends : DependsOn project (fileKey project path revision kind) dependencies) :
    dependencies ⊆ store.activeArtifacts := by
  generalize hfile : fileKey project path revision kind = key at hdepends
  cases hdepends with
  | file path' revision' kind' hkind dependencies hsub =>
    cases hfile
    intro dependency hdependency
    rw [List.mem_singleton.1 (hsub hdependency)]
    exact h.facts_mem hkey
  | graph => cases hfile
  | function request => exact absurd hfile.symm Request.key_ne_fileKey

end

/-- **A batch of files or of the call graph.** -/
theorem commitBatch {batch : ArtifactBatch} {job : IngestionJob}
    (h : StoreInv tools project trees store)
    (he : Effect tools.blake3 store (.commitBatch batch job) store')
    (hartifacts : ∀ artifact ∈ batch.artifacts, ProgramKey tools project trees artifact.key ∧
      DependsOn project artifact.key artifact.dependencies ∧
        ∀ request : Request, request.key project ≠ artifact.key)
    (hsiblings : ∀ path revision, ∀ kind ∈ fileKinds,
      fileKey project path revision kind ∈ batch.artifacts.map (·.key) →
        fileKey project path revision .fileFacts ∈ batch.artifacts.map (·.key)) :
    StoreInv tools project trees store' ∧ store'.activeGeneration = store.activeGeneration ∧
      store'.activeArtifacts = store.activeArtifacts := by
  have hactive : store'.activeGeneration = store.activeGeneration := by cases he; rfl
  have hgenerations : store'.generations = store.generations := by cases he; rfl
  have hlisted := activeArtifacts_congr hactive hgenerations
  have hlinks : ∀ g key, key ∈ store'.links g ↔
      key ∈ store.links g ∨ g = batch.generation ∧ key ∈ batch.artifacts.map (·.key) :=
    fun g key => he.mem_links
  refine ⟨?_, hactive, hlisted⟩
  constructor
  case linked =>
    apply h.linked.effect he
    intro key hkey
    obtain ⟨artifact, hartifact, rfl⟩ := List.mem_map.1 hkey
    exact (hartifacts artifact hartifact).1
  case siblings =>
    intro g path revision kind hkind hkey
    rw [hlinks] at hkey ⊢
    exact hkey.imp (h.siblings g path revision kind hkind) fun hnew =>
      ⟨hnew.1, hsiblings path revision kind hkind hnew.2⟩
  case early =>
    intro g request hkey
    rw [hactive]
    apply h.early g request
    refine ((hlinks g _).1 hkey).resolve_right fun hnew => ?_
    obtain ⟨artifact, hartifact, heq⟩ := List.mem_map.1 hnew.2
    exact (hartifacts artifact hartifact).2.2 request heq.symm
  case records =>
    intro key record hrecord
    cases he.record_cases hrecord with
    | inl hwritten => exact hwritten.2 ▸ (hartifacts record hwritten.1).2.1
    | inr hold => exact h.records key record hold
  case fresh =>
    rw [hactive, hgenerations]
    exact h.fresh
  case consistent =>
    constructor
    case listed => rw [hlisted]; exact h.consistent.listed
    case unique => rw [hlisted]; exact h.consistent.unique
    case symbols => rw [hlisted]; exact h.consistent.symbols
    case dependencies =>
      rw [hlisted]
      intro key hkey hsubject record hrecord
      cases he.record_cases hrecord with
      | inr hold => exact h.consistent.dependencies key hkey hsubject record hold
      | inl hwritten =>
        obtain ⟨hwritten, rfl⟩ := hwritten
        obtain ⟨-, hdepends, hfunction⟩ := hartifacts record hwritten
        generalize record.key = key at *
        cases h.programKey hkey with
        | file tree htree path revision kind => exact h.dependencies_of_file hkey hdepends
        | graph => exact absurd rfl hsubject
        | function request => exact absurd rfl (hfunction request)

end StoreInv

theorem batchOf_artifacts (hchunk : ∀ facts ∈ chunk, ∃ tree ∈ trees,
      tree.textRevision tools facts.path = .ok facts.revision) :
    ∀ artifact ∈ (batchOf tools project g chunk).artifacts,
      ProgramKey tools project trees artifact.key ∧
        DependsOn project artifact.key artifact.dependencies ∧
          ∀ request : Request, request.key project ≠ artifact.key := by
  intro artifact hartifact
  unfold batchOf sortArtifacts at hartifact
  rw [List.mem_insertionSort, List.mem_flatMap] at hartifact
  obtain ⟨facts, hfacts, hderive⟩ := hartifact
  obtain ⟨tree, htree, htext⟩ := hchunk facts hfacts
  have hform : ∃ kind ∈ fileKinds, artifact.key = fileKey project facts.path facts.revision kind ∧
      artifact.dependencies ⊆ [fileKey project facts.path facts.revision .fileFacts] := by
    simp only [derive, List.mem_cons, List.not_mem_nil, or_false] at hderive
    rcases hderive with rfl | rfl | rfl | rfl | rfl
    · exact ⟨.fileFacts, by decide, rfl, List.nil_subset _⟩
    · exact ⟨.symbols, by decide, rfl, List.Subset.refl _⟩
    · exact ⟨.references, by decide, rfl, List.Subset.refl _⟩
    · exact ⟨.callEdges, by decide, rfl, List.Subset.refl _⟩
    · exact ⟨.semanticChunks, by decide, rfl, List.Subset.refl _⟩
  obtain ⟨kind, hkind, hkey, hdependencies⟩ := hform
  rw [hkey]
  exact ⟨.file tree htree _ _ kind hkind htext, .file _ _ kind hkind _ hdependencies,
    fun _ => Request.key_ne_fileKey⟩

theorem batchOf_siblings (path : String) (revision : RevisionId) :
    ∀ kind ∈ fileKinds, fileKey project path revision kind ∈
        (batchOf tools project g chunk).artifacts.map (·.key) →
      fileKey project path revision .fileFacts ∈
        (batchOf tools project g chunk).artifacts.map (·.key) := by
  intro kind hkind hkey
  obtain ⟨facts, hfacts, hmem⟩ := mem_batchOf_keys.1 hkey
  obtain ⟨kind', -, heq⟩ := List.mem_map.1 hmem
  cases heq
  exact mem_batchOf_keys.2 ⟨facts, hfacts, List.mem_map_of_mem (by decide)⟩

theorem mem_activeArtifacts_of_commitOptional
    (he : Effect tools.blake3 store (.commitOptional artifact) store') :
    store'.activeGeneration = store.activeGeneration ∧ ∀ key,
      key ∈ store'.activeArtifacts ↔ key ∈ store.activeArtifacts ∨ key = artifact.key := by
  cases he with
  | commitOptional artifact manifest hvalid hactive hdeps hmanifest =>
    refine ⟨rfl, fun key => ?_⟩
    unfold RedbArtifactStore.activeArtifacts
    dsimp only
    rw [hactive, Option.bind_some, Option.bind_some, Function.update_self, hmanifest]
    exact mem_insertValue

namespace StoreInv

/-- **An artifact that is attached** to a manifest that lists the facts of its file and what it
depends on. -/
theorem commitOptional {payload : List UInt8} (h : StoreInv tools project trees store)
    (he : Effect tools.blake3 store
      (.commitOptional (System.artifactOf tools project request payload g)) store')
    (hsymbol : SymbolListed store.activeArtifacts (request.path ++ "::" ++ request.function)
      request.revision) (hdependencies : request.dependencies project ⊆ store.activeArtifacts) :
    StoreInv tools project trees store' := by
  obtain ⟨hsame, hmem⟩ := mem_activeArtifacts_of_commitOptional he
  have hactive : store.activeGeneration = some g := by
    cases he with
    | commitOptional artifact manifest hvalid hactive => exact hactive
  have hkey : (System.artifactOf tools project request payload g).key = request.key project := rfl
  rw [hkey] at hmem
  have hsub : store.activeArtifacts ⊆ store'.activeArtifacts := fun key hkey =>
    (hmem key).2 (.inl hkey)
  have hlinks : ∀ g' key, key ∈ store'.links g' ↔
      key ∈ store.links g' ∨ g' = g ∧ key = request.key project := by
    intro g' key
    rw [he.mem_links, Call.linked, List.mem_singleton]
    rfl
  have hfacts : ∀ path revision, FactsListed store.activeArtifacts path revision →
      FactsListed store'.activeArtifacts path revision := by
    rintro path revision ⟨facts, hfacts, h⟩
    exact ⟨facts, hsub hfacts, h⟩
  have hold : ∀ key ∈ store'.activeArtifacts, ∀ path, key.subject = .file path →
      key ∈ store.activeArtifacts := by
    intro key hkey path hsubject
    refine ((hmem key).1 hkey).resolve_right ?_
    rintro rfl
    rw [Request.key_subject] at hsubject
    cases hsubject
  constructor
  case linked =>
    apply h.linked.effect he
    intro key hkey
    rw [List.mem_singleton.1 hkey]
    exact .function request
  case siblings =>
    intro g' path revision kind hkind hkey
    rw [hlinks] at hkey ⊢
    exact .inl (h.siblings g' path revision kind hkind
      (hkey.resolve_right fun hnew => Request.key_ne_fileKey hnew.2.symm))
  case early =>
    intro g' other hkey
    rw [hsame]
    cases (hlinks g' _).1 hkey with
    | inl hold => exact h.early g' other hold
    | inr hnew => exact ⟨g, hactive, hnew.1.le⟩
  case records =>
    intro key record hrecord
    cases he.record_cases hrecord with
    | inr hold => exact h.records key record hold
    | inl hwritten =>
      obtain ⟨hwritten, rfl⟩ := hwritten
      rw [List.mem_singleton.1 hwritten]
      exact .function request
  case fresh =>
    intro hnone
    rw [hsame, hactive] at hnone
    cases hnone
  case consistent =>
    constructor
    case listed =>
      intro key hkey path hsubject
      exact hfacts _ _ (h.consistent.listed key (hold key hkey path hsubject) path hsubject)
    case unique =>
      intro key hkey path hsubject facts hfacts hkind hfile
      exact h.consistent.unique key (hold key hkey path hsubject) path hsubject facts
        (hold facts hfacts path hfile) hkind hfile
    case symbols =>
      intro key hkey anchor hsubject
      have hlisted : SymbolListed store.activeArtifacts anchor key.revision := by
        rcases (hmem key).1 hkey with hkey | rfl
        · exact h.consistent.symbols key hkey anchor hsubject
        · rw [Request.key_subject] at hsubject
          cases hsubject
          rw [Request.key_revision]
          exact hsymbol
      obtain ⟨path, function, hanchor, hlisted⟩ := hlisted
      exact ⟨path, function, hanchor, hfacts path _ hlisted⟩
    case dependencies =>
      intro key hkey hsubject record hrecord
      refine List.Subset.trans ?_ hsub
      have hnew : store'.records (request.key project) =
          some (System.artifactOf tools project request payload g) := by
        rw [he.records_eq]
        exact Function.update_self ..
      by_cases hrequest : key = request.key project
      · rw [hrequest, hnew] at hrecord
        cases hrecord
        exact hdependencies
      · refine h.consistent.dependencies key (((hmem key).1 hkey).resolve_right hrequest) hsubject
          record ((he.record_cases hrecord).resolve_left fun hwritten => hrequest ?_)
        rw [← hwritten.2, List.mem_singleton.1 hwritten.1]
        rfl

end StoreInv

/-! ## Ingestion -/

/-- The keys that an ingestion will publish: those that it carries over from the active manifest,
and those that it makes from the texts of the files that it regenerates. -/
structure Prepared (tools : Tools) (project : ProjectId) (sources : Sources)
    (store : RedbArtifactStore) (ingesting : Ingesting) : Prop where
  generation : ingesting.plan.generation = store.activeGeneration.getD 0 + 1
  keys : ∀ key ∈ ingesting.keys,
    (key ∈ store.activeArtifacts ∧ ¬ subjectChanged ingesting.plan.regenerated key.subject) ∨
      ∃ path ∈ ingesting.plan.regenerated, ∃ revision,
        sources.textRevision tools path = .ok revision ∧
          ∃ kind ∈ fileKinds, key = fileKey project path revision kind
  kept : ∀ path revision kind, fileKey project path revision kind ∈ store.activeArtifacts →
    path ∉ ingesting.plan.regenerated → fileKey project path revision kind ∈ ingesting.keys
  facts : ∀ path revision, ∀ kind ∈ fileKinds,
    fileKey project path revision kind ∈ ingesting.keys →
      fileKey project path revision .fileFacts ∈ ingesting.keys
  flow : ∀ request : Request, request.kind = .dfg → request.key project ∈ ingesting.keys →
    request.functionKey project .cfg "cfg" 1 ∈ ingesting.keys
  pending : ∀ facts ∈ ingesting.pending.flatten, facts.path ∈ ingesting.plan.regenerated ∧
    sources.textRevision tools facts.path = .ok facts.revision

theorem prepared_of_begin (h : StoreInv tools project trees store)
    (hhash : NoCollision tools trees sources)
    (hbegin : System.beginIngestion tools sources scope store = .ok ingesting) :
    Prepared tools project sources store ingesting := by
  unfold System.beginIngestion at hbegin
  cases hplan : makePlan tools sources scope store with
  | error e => rw [hplan] at hbegin; cases hbegin
  | ok plan =>
    rw [hplan] at hbegin
    change (plan.remaining.mapM (parse tools sources) >>= fun facts => _) = _ at hbegin
    cases hparsed : plan.remaining.mapM (parse tools sources) with
    | error e => rw [hparsed] at hbegin; cases hbegin
    | ok parsed =>
      obtain ⟨recovered, hrecovered, hmem⟩ := exists_recovered plan h.linked.sound
      rw [hparsed] at hbegin
      change (plan.recovered tools store >>= fun recovered => _) = _ at hbegin
      rw [hrecovered] at hbegin
      cases hbegin
      obtain ⟨base, hbase, rfl⟩ := exists_basePlan hplan
      have hplanned := planned_of_basePlan hbase
      have hcarried : ∀ key, key ∈ base.carried ↔
          key ∈ store.activeArtifacts ∧ ¬ subjectChanged base.regenerated key.subject := by
        intro key
        rw [hplanned.carried, h.previousKeys_eq, List.mem_filter]
        simp
      have hrecoveredKey : ∀ key ∈ recovered, ∃ path ∈ base.regenerated, ∃ revision,
          sources.textRevision tools path = .ok revision ∧
            ∃ kind ∈ fileKinds, key = fileKey project path revision kind := by
        intro key hkey
        obtain ⟨hlink, hrecovers⟩ := (hmem key).1 hkey
        cases h.linked.linked _ key hlink with
        | file tree htree path revision kind hkind htext =>
          simp only [Plan.recovers, fileKey, subjectFile, Bool.and_eq_true] at hrecovers
          obtain ⟨-, hbytes⟩ := (hplanned.revisions path revision).1
            (of_decide_eq_true hrecovers.2)
          exact ⟨path, of_decide_eq_true hrecovers.1, revision,
            hhash.textRevision htree htext hbytes, kind, hkind, rfl⟩
        | graph => cases hrecovers
        | function request =>
          -- no function artifact is attached to a generation before it is active
          obtain ⟨active, hactive, hle⟩ := h.early _ request hlink
          have hgeneration : base.generation = store.activeGeneration.getD 0 + 1 :=
            hplanned.generation
          rw [hactive, Option.getD_some] at hgeneration
          have hlater : base.generation ≤ active := hle
          omega
      constructor
      case generation => exact hplanned.generation
      case keys =>
        intro key hkey
        exact (List.mem_append.1 hkey).imp (hcarried key).1 (hrecoveredKey key)
      case kept =>
        intro path revision kind hkey hpath
        refine List.mem_append_left _ ((hcarried _).2 ⟨hkey, ?_⟩)
        exact fun hchanged => hpath (subjectChanged_file.1 hchanged)
      case facts =>
        intro path revision kind hkind hkey
        cases List.mem_append.1 hkey with
        | inl hkey =>
          obtain ⟨hlisted, hchanged⟩ := (hcarried _).1 hkey
          exact List.mem_append_left _ ((hcarried _).2 ⟨h.facts_mem hlisted, hchanged⟩)
        | inr hkey =>
          obtain ⟨hlink, hrecovers⟩ := (hmem _).1 hkey
          refine List.mem_append_right _ ((hmem _).2 ⟨?_, hrecovers⟩)
          exact h.siblings _ path revision kind hkind hlink
      case flow =>
        intro request hkind hkey
        cases List.mem_append.1 hkey with
        | inl hkey =>
          obtain ⟨hlisted, hchanged⟩ := (hcarried _).1 hkey
          refine List.mem_append_left _ ((hcarried _).2 ⟨h.flow_mem hkind hlisted, ?_⟩)
          rw [Request.key_subject] at hchanged
          exact hchanged
        | inr hkey =>
          obtain ⟨path, -, revision, -, kind, -, heq⟩ := hrecoveredKey _ hkey
          exact absurd heq Request.key_ne_fileKey
      case pending =>
        intro facts hfacts
        rw [flatten_chunks (by decide)] at hfacts
        obtain ⟨path, hpath, hparse⟩ := (mem_of_mapM_eq_ok hparsed).1 hfacts
        obtain ⟨rfl, htext⟩ := parse_eq_ok hparse
        exact ⟨hplanned.selected_subset (List.mem_of_mem_drop hpath), htext⟩

theorem Prepared.commit {pending : List (List FileFacts)}
    (h : Prepared tools project sources store ⟨plan, chunk :: pending, index, keys⟩)
    (hactive : store'.activeGeneration = store.activeGeneration)
    (hlisted : store'.activeArtifacts = store.activeArtifacts) :
    Prepared tools project sources store' ⟨plan, pending, index + 1,
      keys ++ (batchOf tools project plan.generation chunk).artifacts.map (·.key)⟩ := by
  have hchunk : ∀ facts ∈ chunk, facts.path ∈ plan.regenerated ∧
      sources.textRevision tools facts.path = .ok facts.revision := fun facts hfacts =>
    h.pending facts (List.mem_append_left _ hfacts)
  constructor
  case generation => rw [hactive]; exact h.generation
  case keys =>
    rw [hlisted]
    intro key hkey
    cases List.mem_append.1 hkey with
    | inl hkey => exact h.keys key hkey
    | inr hkey =>
      obtain ⟨facts, hfacts, hmem⟩ := mem_batchOf_keys.1 hkey
      obtain ⟨kind, hkind, rfl⟩ := List.mem_map.1 hmem
      exact .inr ⟨_, (hchunk facts hfacts).1, _, (hchunk facts hfacts).2, kind, hkind, rfl⟩
  case kept =>
    rw [hlisted]
    exact fun path revision kind hkey hpath =>
      List.mem_append_left _ (h.kept path revision kind hkey hpath)
  case facts =>
    intro path revision kind hkind hkey
    rw [List.mem_append] at hkey ⊢
    exact hkey.imp (h.facts path revision kind hkind) (batchOf_siblings path revision kind hkind)
  case flow =>
    intro request hkind hkey
    refine List.mem_append_left _ (h.flow request hkind ?_)
    refine (List.mem_append.1 hkey).resolve_right fun hkey => ?_
    obtain ⟨facts, -, hmem⟩ := mem_batchOf_keys.1 hkey
    obtain ⟨kind, -, heq⟩ := List.mem_map.1 hmem
    exact Request.key_ne_fileKey heq.symm
  case pending => exact fun facts hfacts => h.pending facts (List.mem_append_right _ hfacts)

theorem Prepared.commitOptional (h : Prepared tools project sources store ingesting)
    (he : Effect tools.blake3 store (.commitOptional artifact) store')
    (hkey : artifact.key = request.key project) :
    Prepared tools project sources store' ingesting := by
  obtain ⟨hactive, hmem⟩ := mem_activeArtifacts_of_commitOptional he
  constructor
  case generation => rw [hactive]; exact h.generation
  case keys =>
    intro key hmember
    exact (h.keys key hmember).imp_left fun hold => ⟨(hmem key).2 (.inl hold.1), hold.2⟩
  case kept =>
    intro path revision kind hlisted hpath
    refine h.kept path revision kind (((hmem _).1 hlisted).resolve_right fun hnew => ?_) hpath
    exact Request.key_ne_fileKey (hkey ▸ hnew).symm
  case facts => exact h.facts
  case flow => exact h.flow
  case pending => exact h.pending

theorem Prepared.file_of_mem (h : Prepared tools project sources store ingesting)
    (hs : StoreInv tools project trees store) (hkey : key ∈ ingesting.keys)
    (hsubject : key.subject = .file path) :
    (∃ kind ∈ fileKinds, key = fileKey project path key.revision kind) ∧
      (key ∈ store.activeArtifacts ∧ path ∉ ingesting.plan.regenerated ∨
        path ∈ ingesting.plan.regenerated ∧
          sources.textRevision tools path = .ok key.revision) := by
  rcases h.keys key hkey with ⟨hlisted, hchanged⟩ |
    ⟨path', hpath, revision, htext, kind, hkind, rfl⟩
  · rw [hsubject, subjectChanged_file] at hchanged
    refine ⟨?_, .inl ⟨hlisted, hchanged⟩⟩
    cases hs.programKey hlisted with
    | file tree htree path' revision kind hkind =>
      cases hsubject
      exact ⟨kind, hkind, rfl⟩
    | graph => cases hsubject
    | function request =>
      rw [Request.key_subject] at hsubject
      cases hsubject
  · cases hsubject
    exact ⟨⟨kind, hkind, rfl⟩, .inr ⟨hpath, htext⟩⟩

/-- **A publication keeps the invariant.** -/
theorem StoreInv.publish (h : StoreInv tools project trees store)
    (hp : Prepared tools project sources store ⟨plan, [], index, keys⟩)
    (hsources : sources ∈ trees)
    (he : Effect tools.blake3 store (.publish (manifestOf tools project plan keys)) store') :
    StoreInv tools project trees store' := by
  have hactive : store'.activeGeneration = some plan.generation := by cases he; rfl
  have hrecords : store'.records = store.records := by cases he; rfl
  have hmem : ∀ key, key ∈ store'.activeArtifacts ↔
      key ∈ keys ∧ key.kind ≠ .callGraph ∨ key = graphKey project plan.sourceRevision := by
    intro key
    have hmanifest : store'.generations plan.generation =
        some (manifestOf tools project plan keys) := by
      cases he
      exact Function.update_self ..
    unfold RedbArtifactStore.activeArtifacts
    rw [hactive, Option.bind_some, hmanifest]
    exact mem_manifestOf
  have hfile : ∀ path revision kind, kind ∈ fileKinds →
      (fileKey project path revision kind ∈ store'.activeArtifacts ↔
        fileKey project path revision kind ∈ keys) := by
    intro path revision kind hkind
    rw [hmem, or_iff_left (by simp [fileKey, graphKey]), and_iff_left]
    intro hcall
    have hcall : kind = .callGraph := hcall
    rw [hcall] at hkind
    revert hkind
    decide
  have hold : ∀ key ∈ store'.activeArtifacts, key.subject ≠ .project → key ∈ keys := by
    intro key hkey hsubject
    refine ((hmem key).1 hkey).elim And.left ?_
    rintro rfl
    exact absurd rfl hsubject
  have hform : ∀ key ∈ keys, ProgramKey tools project trees key := by
    intro key hkey
    rcases hp.keys key hkey with ⟨hlisted, -⟩ | ⟨path, -, revision, htext, kind, hkind, rfl⟩
    · exact h.programKey hlisted
    · exact .file sources hsources path revision kind hkind htext
  have hlinks : ∀ g key, key ∈ store'.links g ↔
      key ∈ store.links g ∨ g = plan.generation ∧ key ∈ store'.activeArtifacts := by
    intro g key
    rw [he.mem_links, hmem, Call.linked, mem_manifestOf]
    rfl
  constructor
  case linked =>
    apply h.linked.effect he
    intro key hkey
    rcases mem_manifestOf.1 hkey with hkey | rfl
    · exact hform key hkey.1
    · exact .graph _
  case siblings =>
    intro g path revision kind hkind hkey
    rw [hlinks] at hkey ⊢
    refine hkey.imp (h.siblings g path revision kind hkind) fun hnew => ⟨hnew.1, ?_⟩
    rw [hfile path revision kind hkind] at hnew
    exact (hfile path revision .fileFacts (by decide)).2
      (hp.facts path revision kind hkind hnew.2)
  case early =>
    intro g request hkey
    refine ⟨plan.generation, hactive, ?_⟩
    cases (hlinks g _).1 hkey with
    | inl hkey =>
      obtain ⟨active, hactive, hle⟩ := h.early g request hkey
      have hgeneration : plan.generation = store.activeGeneration.getD 0 + 1 := hp.generation
      rw [hactive, Option.getD_some] at hgeneration
      omega
    | inr hkey => exact hkey.1.le
  case records => rw [hrecords]; exact h.records
  case fresh =>
    intro hnone
    rw [hactive] at hnone
    cases hnone
  case consistent =>
    constructor
    case listed =>
      intro key hkey path hsubject
      have hkeys := hold key hkey (by rw [hsubject]; exact ArtifactSubject.noConfusion)
      obtain ⟨⟨kind, hkind, heq⟩, -⟩ := hp.file_of_mem h hkeys hsubject
      refine ⟨fileKey project path key.revision .fileFacts, ?_, rfl, rfl, rfl⟩
      exact (hfile path key.revision .fileFacts (by decide)).2
        (hp.facts path key.revision kind hkind (heq ▸ hkeys))
    case unique =>
      intro key hkey path hsubject facts hfacts hkind hfacts'
      have hkeys := hold key hkey (by rw [hsubject]; exact ArtifactSubject.noConfusion)
      have hfactsKeys := hold facts hfacts (by rw [hfacts']; exact ArtifactSubject.noConfusion)
      rcases (hp.file_of_mem h hkeys hsubject).2 with ⟨hlisted, hpath⟩ | ⟨hpath, htext⟩
      · rcases (hp.file_of_mem h hfactsKeys hfacts').2 with ⟨hlisted', -⟩ | ⟨hpath', -⟩
        · exact h.consistent.unique key hlisted path hsubject facts hlisted' hkind hfacts'
        · exact absurd hpath' hpath
      · rcases (hp.file_of_mem h hfactsKeys hfacts').2 with ⟨-, hpath'⟩ | ⟨-, htext'⟩
        · exact absurd hpath hpath'
        · rw [htext, Except.ok.injEq] at htext'
          exact htext'.symm
    case symbols =>
      intro key hkey anchor hsubject
      have hkeys := hold key hkey (by rw [hsubject]; exact ArtifactSubject.noConfusion)
      rcases hp.keys key hkeys with ⟨hlisted, hchanged⟩ | ⟨path, -, revision, -, kind, -, rfl⟩
      · obtain ⟨path, function, rfl, facts, hfacts, hkind, hfacts', hrevision⟩ :=
          h.consistent.symbols key hlisted anchor hsubject
        have heq := (h.programKey hfacts).eq_fileKey hkind hfacts'
        rw [hrevision] at heq
        refine ⟨path, function, rfl, fileKey project path key.revision .fileFacts, ?_, rfl,
          rfl, rfl⟩
        rw [hfile path key.revision .fileFacts (by decide)]
        refine hp.kept path key.revision .fileFacts (heq ▸ hfacts) fun hpath => hchanged ?_
        rw [hsubject]
        exact subjectChanged_symbol hpath
      · cases hsubject
    case dependencies =>
      intro key hkey hsubject record hrecord
      rw [hrecords] at hrecord
      have hkeys := hold key hkey hsubject
      have hdepends := h.records key record hrecord
      have hkept := fun hlisted => h.consistent.dependencies key hlisted hsubject record hrecord
      generalize record.dependencies = dependencies at hdepends hkept
      cases hdepends with
      | file path revision kind hkind dependencies hsub =>
        intro dependency hdependency
        rw [List.mem_singleton.1 (hsub hdependency), hfile path revision .fileFacts (by decide)]
        exact hp.facts path revision kind hkind hkeys
      | graph => exact absurd rfl hsubject
      | function request =>
        rcases hp.keys _ hkeys with ⟨hlisted, hchanged⟩ | ⟨path, -, revision, -, kind, -, heq⟩
        · rw [Request.key_subject] at hchanged
          have hpath : request.path ∉ plan.regenerated := fun hpath =>
            hchanged (subjectChanged_symbol hpath)
          have hsub := hkept hlisted
          unfold Request.dependencies at hsub ⊢
          cases hkind : request.kind with
          | cfg =>
            rw [hkind] at hsub
            intro dependency hdependency
            rw [List.mem_singleton.1 hdependency]
            apply (hfile request.path request.revision .fileFacts (by decide)).2
            exact hp.kept _ _ _ (hsub (List.mem_singleton_self _)) hpath
          | dfg =>
            intro dependency hdependency
            rw [List.mem_singleton.1 hdependency, hmem]
            exact .inl ⟨hp.flow request hkind hkeys, by simp [Request.functionKey]⟩
        · exact absurd heq Request.key_ne_fileKey

theorem Prepared.congr (h : Prepared tools project sources store ingesting)
    (hactive : store'.activeGeneration = store.activeGeneration)
    (hlisted : store'.activeArtifacts = store.activeArtifacts) :
    Prepared tools project sources store' ingesting where
  generation := by rw [hactive]; exact h.generation
  keys := by rw [hlisted]; exact h.keys
  kept := by rw [hlisted]; exact h.kept
  facts := h.facts
  flow := h.flow
  pending := h.pending

theorem StoreInv.publishPlan (h : StoreInv tools project trees store)
    (hp : Prepared tools project sources store ⟨plan, [], index, keys⟩)
    (hsources : sources ∈ trees) :
    StoreInv tools project trees (publishPlan tools project plan keys store).1 := by
  unfold Store.publishPlan
  dsimp only
  split
  · exact h
  · next calls hcalls =>
    split
    · exact h
    · next store₁ hcommit =>
      have hcommit : Effect tools.blake3 store
        (.commitBatch ⟨plan.generation, [graphOf tools project plan keys calls]⟩ _) store₁ :=
        apply_eq_ok_iff.1 hcommit
      obtain ⟨h₁, hactive₁, hlisted₁⟩ := h.commitBatch hcommit (fun artifact hartifact => by
          rw [List.mem_singleton.1 hartifact]
          exact ⟨.graph _, .graph _ _, fun _ => Request.key_ne_graphKey⟩)
        (fun path revision kind hkind hkey => by
          have := List.mem_singleton.1 hkey
          cases this)
      split
      · exact h₁
      · next store₂ hpublish =>
        have hpublish : Effect tools.blake3 store₁ (.publish (manifestOf tools project plan keys))
          store₂ := apply_eq_ok_iff.1 hpublish
        have h₂ := h₁.publish (hp.congr hactive₁ hlisted₁) hsources hpublish
        split
        · exact h₂
        · next store₃ hlast =>
          have hlast : Effect tools.blake3 store₂ (.commitBatch ⟨plan.generation, []⟩ _) store₃ :=
            apply_eq_ok_iff.1 hlast
          exact (h₂.commitBatch hlast (fun _ h => absurd h List.not_mem_nil)
            (fun _ _ _ _ h => absurd h List.not_mem_nil)).1

/-! ## Runs -/

structure System.Inv (tools : Tools) (project : ProjectId) (trees : List Sources) (s : System) :
    Prop where
  store : StoreInv tools project trees s.store
  ingesting : ∀ ingesting, s.ingesting = some ingesting →
    ∃ sources ∈ trees, Prepared tools project sources s.store ingesting

theorem storeInv_empty : StoreInv tools project trees empty where
  linked := ⟨sound_empty, fun _ _ h => absurd h List.not_mem_nil⟩
  siblings _ _ _ _ _ h := absurd h List.not_mem_nil
  early _ _ h := absurd h List.not_mem_nil
  records _ _ h := by cases h
  fresh _ _ := rfl
  consistent := ⟨fun _ h => absurd h List.not_mem_nil, fun _ h => absurd h List.not_mem_nil,
    fun _ h => absurd h List.not_mem_nil, fun _ h => absurd h List.not_mem_nil⟩

/-- **A step keeps the invariant** if what it attaches is listed. -/
theorem System.Inv.next (h : s.Inv tools project trees)
    (hsources : ∀ sources scope, event = .begin sources scope → sources ∈ trees)
    (hhash : ∀ tree ∈ trees, NoCollision tools trees tree)
    (hattaches : Attaches tools project s event) :
    (s.next tools project event).Inv tools project trees := by
  cases event with
  | begin sources scope =>
    have hmem := hsources sources scope rfl
    dsimp only [System.next]
    split
    · next ingesting hnone hbegin =>
      refine ⟨h.store, fun ingesting' hsome => ?_⟩
      cases hsome
      exact ⟨sources, hmem, prepared_of_begin h.store (hhash sources hmem) hbegin⟩
    · exact h
  | commit =>
    dsimp only [System.next]
    split
    · next plan chunk pending index keys hingesting =>
      obtain ⟨sources, hmem, hp⟩ := h.ingesting _ hingesting
      split
      · next store hcommit =>
        have hcommit : Effect tools.blake3 s.store (.commitBatch _ _) store :=
          apply_eq_ok_iff.1 hcommit
        have hchunk : ∀ facts ∈ chunk, ∃ tree ∈ trees,
            tree.textRevision tools facts.path = .ok facts.revision := fun facts hfacts =>
          ⟨sources, hmem, (hp.pending facts (List.mem_append_left _ hfacts)).2⟩
        obtain ⟨hstore, hactive, hlisted⟩ :=
          h.store.commitBatch hcommit (batchOf_artifacts hchunk) batchOf_siblings
        refine ⟨hstore, fun ingesting hsome => ?_⟩
        cases hsome
        exact ⟨sources, hmem, hp.commit hactive hlisted⟩
      · exact ⟨h.store, fun ingesting hsome => by cases hsome⟩
    · exact h
  | publish =>
    dsimp only [System.next]
    split
    · next plan index keys hingesting =>
      obtain ⟨sources, hmem, hp⟩ := h.ingesting _ hingesting
      exact ⟨h.store.publishPlan hp hmem, fun ingesting hsome => by cases hsome⟩
    · exact h
  | abort => exact ⟨h.store, fun ingesting hsome => by cases hsome⟩
  | lookup id request | build id payload =>
    dsimp only [System.next]
    split
    · exact ⟨h.store, h.ingesting⟩
    · exact h
  | readActive id =>
    dsimp only [System.next]
    split
    · exact ⟨h.store, h.ingesting⟩
    · exact ⟨h.store, h.ingesting⟩
    · exact h
  | commitOptional id =>
    dsimp only [System.next, Attaches] at hattaches ⊢
    split
    · next request payload generation hcall =>
      rw [hcall] at hattaches
      cases perform_cases tools.blake3 s.store
          (.commitOptional (System.artifactOf tools project request payload generation)) with
      | inl hfailed =>
        rw [hfailed.2]
        exact ⟨h.store, h.ingesting⟩
      | inr hdone =>
        obtain ⟨hsymbol, hdependencies⟩ := hattaches hdone.1
        refine ⟨h.store.commitOptional hdone.2 hsymbol hdependencies, fun ingesting hsome => ?_⟩
        obtain ⟨sources, hmem, hp⟩ := h.ingesting ingesting hsome
        exact ⟨sources, hmem, hp.commitOptional hdone.2 rfl⟩
    · exact h

theorem attaches_of_consistent (h : Consistent (s.next tools project event).store) :
    Attaches tools project s event := by
  cases event with
  | commitOptional id =>
    dsimp only [System.next, Attaches] at h ⊢
    split
    · next request payload generation hcall =>
      rw [hcall] at h
      intro haccepted
      cases perform_cases tools.blake3 s.store
          (.commitOptional (System.artifactOf tools project request payload generation)) with
      | inl hfailed =>
        rw [hfailed.1] at haccepted
        cases haccepted
      | inr hdone =>
        obtain ⟨-, he⟩ := hdone
        dsimp only at h
        generalize s.store.perform tools.blake3 _ = store' at h he
        obtain ⟨-, hmem⟩ := mem_activeArtifacts_of_commitOptional he
        have hkey : (System.artifactOf tools project request payload generation).key =
          request.key project := rfl
        rw [hkey] at hmem
        have hself : request.key project ∈ store'.activeArtifacts := (hmem _).2 (.inr rfl)
        have hrecord : store'.records (request.key project) =
            some (System.artifactOf tools project request payload generation) := by
          rw [he.records_eq]
          exact Function.update_self ..
        have hsubject : (request.key project).subject ≠ .project := by
          rw [Request.key_subject]
          exact ArtifactSubject.noConfusion
        constructor
        · obtain ⟨path, function, hanchor, facts, hfacts, hkind, hfile, hrevision⟩ :=
            h.symbols _ hself _ Request.key_subject
          rw [Request.key_revision] at hrevision
          refine ⟨path, function, hanchor, facts, ((hmem facts).1 hfacts).resolve_right ?_, hkind,
            hfile, hrevision⟩
          rintro rfl
          have hfunction : (request.key project).kind ∉ fileKinds := Request.key_kind_notMem
          rw [hkind] at hfunction
          exact hfunction (by decide)
        · have hsub := h.dependencies _ hself hsubject _ hrecord
          change request.dependencies project ⊆ _ at hsub
          unfold Request.dependencies at hsub ⊢
          unfold Request.key at hmem
          cases hkind : request.kind with
          | cfg | dfg =>
            rw [hkind] at hsub hmem
            intro dependency hdependency
            refine ((hmem dependency).1 (hsub hdependency)).resolve_right fun heq => ?_
            rw [List.mem_singleton.1 hdependency] at heq
            cases heq
    · trivial
  | begin | commit | publish | abort | lookup | build | readActive => trivial

theorem afterEvents_concat :
    System.afterEvents tools project (events ++ [event]) =
      (System.afterEvents tools project events).next tools project event := List.foldl_concat ..

theorem inv_afterEvents
    (hsources : ∀ sources scope, .begin sources scope ∈ events → sources ∈ trees)
    (hhash : ∀ tree ∈ trees, NoCollision tools trees tree)
    (hattaches : ∀ before event later, events = before ++ event :: later →
      Attaches tools project (System.afterEvents tools project before) event) :
    (System.afterEvents tools project events).Inv tools project trees := by
  induction events using List.reverseRecOn with
  | nil => exact ⟨storeInv_empty, fun ingesting hsome => by cases hsome⟩
  | append_singleton events event ih =>
    rw [afterEvents_concat]
    apply System.Inv.next
    · refine ih (fun sources scope hmem => hsources sources scope (List.mem_append_left _ hmem))
        fun before event' later heq => ?_
      exact hattaches before event' (later ++ [event]) (by rw [heq]; simp)
    · rintro sources scope rfl
      exact hsources sources scope (List.mem_append_right _ (List.mem_singleton_self _))
    · exact hhash
    · exact hattaches events event [] rfl

/-- **The active manifest is consistent in every state** of a run if and only if every step that
attaches a function artifact finds the facts of its file with its revision, and what it depends on,
in the active manifest. -/
theorem consistent_iff_attached (tools : Tools) (project : ProjectId) (events : List Event)
    (hhash : ∀ tree ∈ sourcesOf events, NoCollision tools (sourcesOf events) tree) :
    (∀ before later, events = before ++ later →
        Consistent (System.afterEvents tools project before).store) ↔
      ∀ before event later, events = before ++ event :: later →
        Attaches tools project (System.afterEvents tools project before) event := by
  constructor
  · intro h before event later heq
    have hnext := h (before ++ [event]) later (by rw [heq]; simp)
    rw [afterEvents_concat] at hnext
    exact attaches_of_consistent hnext
  · intro h before later heq
    have hinv : (System.afterEvents tools project before).Inv tools project (sourcesOf events) := by
      apply inv_afterEvents
      · intro sources scope hmem
        rw [sourcesOf, List.mem_filterMap]
        exact ⟨.begin sources scope, heq ▸ List.mem_append_left _ hmem, rfl⟩
      · exact hhash
      · intro before' event later' heq'
        exact h before' event (later' ++ later) (by rw [heq, heq']; simp)
    exact hinv.store.consistent

/-- A request for the control flow graph of a function of a file with one byte. -/
def graphRequest (b : UInt8) : Request := ⟨"a.py", ⟨plainHash [b]⟩, "f", .cfg⟩

/-- A control flow graph is built and attached after the ingestion of its file. -/
def attachEvents : List Event :=
  [.begin (oneFile [0x61]) .project, .commit, .publish, .lookup 0 (graphRequest 0x61), .build 0 [],
    .readActive 0, .commitOptional 0]

theorem consistent_iff_attached_graph :
    Consistent (System.afterEvents plainTools ⟨0⟩ attachEvents).store := by
  refine (consistent_iff_attached plainTools ⟨0⟩ attachEvents ?_).2 ?_ attachEvents [] (by simp)
  · intro tree htree tree' htree' path bytes bytes' hread hread' _
    have htree : tree = oneFile [0x61] := by simpa [sourcesOf, attachEvents] using htree
    have htree' : tree' = oneFile [0x61] := by simpa [sourcesOf, attachEvents] using htree'
    subst htree htree'
    cases hread
    cases hread'
    decide
  · intro before event later heq
    cases event with
    | commitOptional id =>
      obtain ⟨hget, htake, hlength⟩ := place_of_split heq
      change before.length < 7 at hlength
      rw [htake]
      generalize before.length = n at hget hlength
      interval_cases n <;> cases hget
      have hcall : (System.afterEvents plainTools ⟨0⟩ (attachEvents.take 6)).calls 0 =
          .pinned (graphRequest 0x61) [] 1 := by
        decide +kernel
      dsimp only [Attaches]
      rw [hcall]
      refine fun _ => ⟨⟨"a.py", "f", rfl, (graphRequest 0x61).factsKey ⟨0⟩, ?_, rfl, rfl, rfl⟩, ?_⟩
      · decide +kernel
      · decide +kernel
    | begin | commit | publish | abort | lookup | build | readActive => trivial

/-- The file changes and is ingested while its control flow graph is built. -/
def staleEvents : List Event :=
  [.begin (oneFile [0x61]) .project, .commit, .publish, .lookup 0 (graphRequest 0x61), .build 0 [],
    .begin (oneFile [0x62]) (.files ["a.py"]), .commit, .publish, .readActive 0, .commitOptional 0]

/-- The graph of the old text is attached to the generation of the new one. -/
theorem consistent_stale_graph :
    ¬ ∀ (tools : Tools) (project : ProjectId) (events : List Event),
      (∀ tree ∈ sourcesOf events, NoCollision tools (sourcesOf events) tree) →
      ∀ before later, events = before ++ later →
        Consistent (System.afterEvents tools project before).store := by
  intro h
  have hconsistent := h plainTools ⟨0⟩ staleEvents ?_ staleEvents [] (by simp)
  · obtain ⟨path, function, -, facts, hfacts, hkind, -, hrevision⟩ := hconsistent.symbols
      ((graphRequest 0x61).key ⟨0⟩) (by decide +kernel) _ Request.key_subject
    have hnew : ∀ facts ∈ (System.afterEvents plainTools ⟨0⟩ staleEvents).store.activeArtifacts,
        facts.kind = .fileFacts → facts.revision ≠ ((graphRequest 0x61).key ⟨0⟩).revision := by
      decide +kernel
    exact hnew facts hfacts hkind hrevision
  · have hbyte : ∀ b ∈ [(0x61 : UInt8), 0x62], ∀ b' ∈ [(0x61 : UInt8), 0x62],
        plainHash (fromUtf8Lossy [b]) = plainHash [b'] → fromUtf8Lossy [b] = [b'] := by
      decide +kernel
    intro tree htree tree' htree' path bytes bytes' hread hread' hhash
    have hform : ∀ tree ∈ sourcesOf staleEvents, ∃ b ∈ [(0x61 : UInt8), 0x62],
      tree = oneFile [b] := by
      simp [sourcesOf, staleEvents]
    obtain ⟨b', hb', rfl⟩ := hform tree htree
    obtain ⟨b, hb, rfl⟩ := hform tree' htree'
    cases hread
    cases hread'
    exact hbyte b hb b' hb' hhash

end TldrCode.Store
