import Mathlib.Data.String.Basic
import TldrCode.Fallible
import TldrCode.Store.Ingestion
import TldrCode.UnstableSort

/-!
# What a plan holds

The plan of a scope selects the source files of the scope that have no current facts in the previous
generation (`Planned`). It depends on the store through the active generation and the manifests
alone (`basePlan_congr`).
-/

namespace TldrCode.Store

variable {tools : Tools} {project : ProjectId} {sources : Sources}
  {store store' : RedbArtifactStore}
  {scope : IngestionScope} {plan : Plan} {path : String} {revision : RevisionId}
  {manifest : SourceManifest} {files : List String}

/-! ## Scopes -/

def Sources.scopeFiles (sources : Sources) : IngestionScope → List String
  | .project => sources.discovered
  | .files files => files.filter sources.isFileScopeSource

def RedbArtifactStore.previousKeys (store : RedbArtifactStore) : List ArtifactKey :=
  ((store.generations (store.activeGeneration.getD 0)).map (·.artifacts)).getD []

/-- The previous generation has no current facts of the file. -/
def Sources.stale (tools : Tools) (sources : Sources) (store : RedbArtifactStore) (path : String) :
    Bool :=
  match sources.byteRevision tools path with
  | .ok revision => !store.previousKeys.any fun key =>
      key.kind = .fileFacts ∧ key.producer = fileFactsProducer ∧ key.subject = .file path ∧
        key.revision = revision
  | .error _ => true

/-- The source files of a scope that have no current facts. -/
def Sources.toParse (tools : Tools) (sources : Sources) (scope : IngestionScope)
    (store : RedbArtifactStore) : List String :=
  (sources.scopeFiles (normalizeScope scope)).filter (sources.stale tools store)

theorem nodup_scopeFiles : (sources.scopeFiles (normalizeScope scope)).Nodup := by
  cases scope with
  | project => exact sources.nodup
  | files files =>
    have hnodup : ((files.insertionSort (· ≤ ·)).destutter (· ≠ ·)).Nodup :=
      pairwise_destutter_insertionSort.imp fun h => ne_of_lt h
    exact hnodup.filter _

theorem nodup_toParse : (sources.toParse tools scope store).Nodup := nodup_scopeFiles.filter _

/-! ## Manifests of sources -/

theorem revisionMap_eq_some_iff {revisions : List (String × RevisionId)}
    (h : ∀ entry ∈ revisions, sources.byteRevision tools entry.1 = .ok entry.2) :
    revisionMap revisions path = some revision ↔ (path, revision) ∈ revisions := by
  unfold revisionMap
  constructor
  · intro hfind
    obtain ⟨⟨p, r⟩, hentry, rfl⟩ := Option.map_eq_some_iff.1 hfind
    have hp : p = path := by simpa using List.find?_some hentry
    subst hp
    exact List.mem_of_find?_eq_some hentry
  · intro hmem
    cases hfind : revisions.find? (·.1 = path) with
    | none =>
      have := List.find?_eq_none.1 hfind _ hmem
      simp at this
    | some entry =>
      have hp : entry.1 = path := by simpa using List.find?_some hfind
      have hok := h entry (List.mem_of_find?_eq_some hfind)
      rw [hp, h _ hmem, Except.ok.injEq] at hok
      exact congrArg some hok.symm

/-- The manifest lists the source files of a scope and their revisions. -/
structure SourceManifest.Lists (tools : Tools) (sources : Sources) (scope : IngestionScope)
    (manifest : SourceManifest) : Prop where
  allFiles : manifest.allFiles = sources.scopeFiles scope
  revisions : ∀ path revision, manifest.revisions path = some revision ↔
    path ∈ sources.scopeFiles scope ∧ sources.byteRevision tools path = .ok revision
  readable : ∀ path ∈ sources.scopeFiles scope,
    ∃ revision, sources.byteRevision tools path = .ok revision

theorem SourceManifest.Lists.revisions_ne_none (h : manifest.Lists tools sources scope)
    (hpath : path ∈ sources.scopeFiles scope) : manifest.revisions path ≠ none := by
  obtain ⟨revision, hrevision⟩ := h.readable path hpath
  rw [(h.revisions path revision).2 ⟨hpath, hrevision⟩]
  exact Option.some_ne_none _

theorem sourceManifest_lists (h : sourceManifest tools sources = .ok manifest) :
    manifest.Lists tools sources .project := by
  unfold sourceManifest at h
  cases hentries : sources.discovered.mapM fun path => do
      return (path, ← sources.byteRevision tools path) with
  | error e => rw [hentries] at h; cases h
  | ok entries =>
    rw [hentries] at h
    cases h
    have hmem : ∀ path revision, (path, revision) ∈ entries ↔
        path ∈ sources.discovered ∧ sources.byteRevision tools path = .ok revision := by
      intro path revision
      rw [mem_of_mapM_eq_ok hentries]
      constructor
      · rintro ⟨p, hp, hentry⟩
        cases hrevision : sources.byteRevision tools p with
        | error e => rw [hrevision] at hentry; cases hentry
        | ok r => rw [hrevision] at hentry; cases hentry; exact ⟨hp, hrevision⟩
      · rintro ⟨hp, hrevision⟩
        exact ⟨path, hp, by rw [hrevision]; rfl⟩
    refine ⟨rfl, fun path revision => ?_, fun path hpath => ?_⟩
    · exact (revisionMap_eq_some_iff fun entry h => ((hmem _ _).1 h).2).trans (hmem path revision)
    · obtain ⟨entry, -, hentry⟩ := exists_ok_of_mem hentries hpath
      cases hrevision : sources.byteRevision tools path with
      | error e => rw [hrevision] at hentry; cases hentry
      | ok r => exact ⟨r, rfl⟩

theorem fileScopeEntry_eq_ok_iff {found : Option RevisionId} {p : String} :
    fileScopeEntry tools sources path = .ok (p, found) ↔ isNormalPath path ∧ p = path ∧
      if sources.isFileScopeSource path then
        ∃ revision, found = some revision ∧ sources.byteRevision tools path = .ok revision
      else found = none := by
  unfold fileScopeEntry
  cases hnormal : isNormalPath path with
  | false => simp
  | true =>
    rw [if_neg (by simp)]
    split_ifs
    · cases hrevision : sources.byteRevision tools path with
      | error e =>
        change Except.error e = Except.ok (p, found) ↔ _
        simp
      | ok r =>
        change Except.ok (path, some r) = Except.ok (p, found) ↔ _
        simp only [Except.ok.injEq, Prod.mk.injEq, true_and]
        constructor
        · rintro ⟨rfl, rfl⟩
          exact ⟨rfl, r, rfl, rfl⟩
        · rintro ⟨rfl, _, rfl, rfl⟩
          exact ⟨rfl, rfl⟩
    · change Except.ok (path, none) = Except.ok (p, found) ↔ _
      simp only [Except.ok.injEq, Prod.mk.injEq, true_and]
      exact ⟨fun h => ⟨h.1.symm, h.2.symm⟩, fun h => ⟨h.1.symm, h.2.symm⟩⟩

theorem present_eq {entries : List (String × Option RevisionId)}
    (h : files.mapM (fileScopeEntry tools sources) = .ok entries) :
    (entries.filterMap fun (path, revision) => revision.map (path, ·)).map (·.1) =
      files.filter sources.isFileScopeSource := by
  rw [mapM_eq_ok_iff] at h
  induction h with
  | nil => rfl
  | @cons path entry files entries hentry _ ih =>
    obtain ⟨p, found⟩ := entry
    obtain ⟨-, rfl, hfound⟩ := fileScopeEntry_eq_ok_iff.1 hentry
    rw [List.filter_cons]
    split_ifs at hfound ⊢
    · obtain ⟨r, rfl, -⟩ := hfound
      rw [List.filterMap_cons_some (by rfl), List.map_cons, ih]
    · subst hfound
      rw [List.filterMap_cons_none (by rfl), ih]

theorem fileScopeManifest_lists {previous : Option RevisionId}
    (h : fileScopeManifest tools sources files previous = .ok manifest) :
    manifest.Lists tools sources (.files files) := by
  unfold fileScopeManifest at h
  cases hentries : files.mapM (fileScopeEntry tools sources) with
  | error e => rw [hentries] at h; cases h
  | ok entries =>
    rw [hentries] at h
    cases h
    have hmem : ∀ path revision,
        (path, revision) ∈ (entries.filterMap fun (path, revision) => revision.map (path, ·)) ↔
        path ∈ sources.scopeFiles (.files files) ∧
          sources.byteRevision tools path = .ok revision := by
      intro path revision
      rw [Sources.scopeFiles, List.mem_filterMap, List.mem_filter]
      constructor
      · rintro ⟨⟨p, found⟩, hentry, hfound⟩
        obtain ⟨r, rfl, heq⟩ := Option.map_eq_some_iff.1 hfound
        cases heq
        obtain ⟨path', hpath', hok⟩ := (mem_of_mapM_eq_ok hentries).1 hentry
        obtain ⟨-, rfl, hcase⟩ := fileScopeEntry_eq_ok_iff.1 hok
        split_ifs at hcase with hsource
        obtain ⟨r, heq, hrevision⟩ := hcase
        cases heq
        exact ⟨⟨hpath', hsource⟩, hrevision⟩
      · rintro ⟨⟨hpath, hsource⟩, hrevision⟩
        refine ⟨(path, some revision), ?_, rfl⟩
        obtain ⟨⟨p, found⟩, hentry, hok⟩ := exists_ok_of_mem hentries hpath
        obtain ⟨-, rfl, hcase⟩ := fileScopeEntry_eq_ok_iff.1 hok
        rw [if_pos hsource] at hcase
        obtain ⟨r, rfl, hr⟩ := hcase
        rw [hrevision, Except.ok.injEq] at hr
        rwa [hr]
    refine ⟨present_eq hentries, fun path revision => ?_, fun path hpath => ?_⟩
    · exact (revisionMap_eq_some_iff fun entry h => ((hmem _ _).1 h).2).trans (hmem path revision)
    · rw [Sources.scopeFiles, List.mem_filter] at hpath
      obtain ⟨⟨p, found⟩, -, hok⟩ := exists_ok_of_mem hentries hpath.1
      obtain ⟨-, -, hcase⟩ := fileScopeEntry_eq_ok_iff.1 hok
      rw [if_pos hpath.2] at hcase
      exact hcase.imp fun r hr => hr.2

/-! ## Plans -/

structure Planned (tools : Tools) (sources : Sources) (scope : IngestionScope)
    (store : RedbArtifactStore) (plan : Plan) : Prop where
  scope_eq : plan.scope = normalizeScope scope
  generation : plan.generation = store.activeGeneration.getD 0 + 1
  revisions : ∀ path revision, plan.revisions path = some revision ↔
    path ∈ sources.scopeFiles (normalizeScope scope) ∧
      sources.byteRevision tools path = .ok revision
  readable : ∀ path ∈ sources.scopeFiles (normalizeScope scope), plan.revisions path ≠ none
  selected : plan.selected = sources.toParse tools scope store
  regenerated : ∀ path, path ∈ plan.regenerated ↔
    path ∈ plan.selected ∨ plan.revisions path = none ∧
      match normalizeScope scope with
      | .project => path ∈ removedFiles store.previousKeys plan.revisions
      | .files files => path ∈ files
  carried : plan.carried =
    store.previousKeys.filter fun key => !subjectChanged plan.regenerated key.subject
  nextBatch : plan.nextBatch = 0
  resumed : plan.resumed = false

def scopeManifest (tools : Tools) (sources : Sources) (previous : Option GenerationManifest) :
    IngestionScope → Except StoreError SourceManifest
  | .project => sourceManifest tools sources
  | .files files => fileScopeManifest tools sources files (previous.map (·.sourceRevision))

theorem mem_freshFileFacts {keys : List ArtifactKey} :
    (.file path, revision) ∈ freshFileFacts keys ↔ ∃ key ∈ keys, key.kind = .fileFacts ∧
      key.producer = fileFactsProducer ∧ key.subject = .file path ∧ key.revision = revision := by
  unfold freshFileFacts
  simp only [List.mem_map, List.mem_filter, decide_eq_true_eq, Prod.mk.injEq]
  grind

theorem Sources.stale_eq {scope : IngestionScope} (hm : manifest.Lists tools sources scope)
    (hpath : path ∈ sources.scopeFiles scope) :
    (match manifest.revisions path with
      | some revision => decide ((.file path, revision) ∉ freshFileFacts store.previousKeys)
      | none => true) = sources.stale tools store path := by
  unfold Sources.stale
  cases hrevision : sources.byteRevision tools path with
  | error e =>
    cases hfound : manifest.revisions path with
    | none => rfl
    | some r =>
      have := ((hm.revisions path r).1 hfound).2
      rw [hrevision] at this
      cases this
  | ok r =>
    rw [(hm.revisions path r).2 ⟨hpath, hrevision⟩]
    dsimp only
    rw [Bool.eq_iff_iff]
    simp [mem_freshFileFacts]

theorem planned_of_basePlan (h : basePlan tools sources scope store = .ok plan) :
    Planned tools sources scope store plan := by
  unfold basePlan at h
  cases hscope : normalizeScope scope with
  | project =>
    rw [hscope] at h
    dsimp only at h
    cases hm : sourceManifest tools sources with
    | error e => rw [hm] at h; cases h
    | ok manifest =>
      rw [hm] at h
      cases h
      have hlists := sourceManifest_lists hm
      constructor
      case scope_eq => exact hscope.symm
      case generation => rfl
      case revisions => rw [hscope]; exact hlists.revisions
      case readable =>
        rw [hscope]
        exact fun path hpath => hlists.revisions_ne_none hpath
      case selected =>
        unfold Sources.toParse
        rw [hscope, ← hlists.allFiles]
        exact List.filter_congr fun path hpath =>
          Sources.stale_eq hlists (hlists.allFiles ▸ hpath)
      case regenerated =>
        intro path
        rw [hscope]
        dsimp only
        rw [List.mem_append]
        refine or_congr_right ⟨fun h => ⟨?_, h⟩, And.right⟩
        simpa using (List.mem_filter.1 h).2
      case carried => rfl
      case nextBatch => rfl
      case resumed => rfl
  | files files =>
    rw [hscope] at h
    dsimp only at h
    cases hm : fileScopeManifest tools sources files
        ((store.generations (store.activeGeneration.getD 0)).map (·.sourceRevision)) with
    | error e => rw [hm] at h; cases h
    | ok manifest =>
      rw [hm] at h
      cases h
      have hlists := fileScopeManifest_lists hm
      have hfiles : ∀ path ∈ manifest.allFiles, path ∈ files := by
        rw [hlists.allFiles]
        exact fun path hpath => (List.mem_filter.1 hpath).1
      constructor
      case scope_eq => exact hscope.symm
      case generation => rfl
      case revisions => rw [hscope]; exact hlists.revisions
      case readable =>
        rw [hscope]
        exact fun path hpath => hlists.revisions_ne_none hpath
      case selected =>
        unfold Sources.toParse
        rw [hscope, ← hlists.allFiles]
        refine List.filter_congr fun path hpath => ?_
        rw [decide_eq_true (hfiles path hpath), Bool.true_and]
        exact Sources.stale_eq hlists (hlists.allFiles ▸ hpath)
      case regenerated =>
        intro path
        rw [hscope]
        dsimp only
        rw [List.mem_filter, Bool.or_eq_true, decide_eq_true_eq, Option.isNone_iff_eq_none,
          and_or_left]
        refine or_congr ⟨And.right, fun h => ⟨?_, h⟩⟩ and_comm
        exact hfiles path (List.mem_filter.1 h).1
      case carried => rfl
      case nextBatch => rfl
      case resumed => rfl

theorem exists_basePlan (h : makePlan tools sources scope store = .ok plan) :
    ∃ base, basePlan tools sources scope store = .ok base ∧
      plan = base.resume (base.existing store) := by
  unfold makePlan at h
  cases hbase : basePlan tools sources scope store with
  | error e => rw [hbase] at h; cases h
  | ok base =>
    rw [hbase] at h
    cases h
    exact ⟨base, rfl, rfl⟩

theorem basePlan_congr (hactive : store'.activeGeneration = store.activeGeneration)
    (hgenerations : store'.generations = store.generations) :
    basePlan tools sources scope store' = basePlan tools sources scope store := by
  unfold basePlan
  rw [hactive, hgenerations]

namespace Planned

theorem nodup_selected (h : Planned tools sources scope store plan) : plan.selected.Nodup :=
  h.selected ▸ nodup_toParse

theorem selected_subset (h : Planned tools sources scope store plan) :
    plan.selected ⊆ plan.regenerated := fun path hpath => (h.regenerated path).2 (.inl hpath)

theorem revisions_of_selected (h : Planned tools sources scope store plan)
    (hpath : path ∈ plan.selected) :
    plan.revisions path = some revision ↔ sources.byteRevision tools path = .ok revision := by
  rw [h.selected] at hpath
  rw [h.revisions]
  exact and_iff_right (List.mem_filter.1 hpath).1

end Planned

end TldrCode.Store
