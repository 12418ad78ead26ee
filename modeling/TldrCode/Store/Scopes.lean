import TldrCode.Store.Resume
import TldrCode.Store.Text

/-!
# File-scoped and full ingestion

In a store that the program itself wrote, an ingestion of the changed files and one of the whole
project publish the artifacts of the texts of all source files, if they resume no earlier attempt
(`scopes_agree`). An ingestion of files carries over whatever the previous generation holds of the
others, also what an older producer made (`scopes_older_producer`).
-/

namespace TldrCode.Store

open RedbArtifactStore

/-! ## What the program does -/

/-- An invocation of the engine on the sources of its time, a function artifact that is attached, or
a vector generation that is. -/
inductive Action where
  | ingest (sources : Sources) (scope : IngestionScope) (limit : Option Nat)
  | attach (artifact : ArtifactEnvelope)
  | setVectorGeneration (generation vectorGeneration : Nat)

/-- The kinds that `FunctionArtifactCoordinator::materialize` accepts. -/
def functionKinds : List ArtifactKind := [.cfg, .dfg, .pdg]

theorem not_fileKind_of_functionKind {kind : ArtifactKind} (h : kind ∈ functionKinds) :
    kind ∉ fileKinds := by
  revert h
  cases kind <;> decide

def Action.perform (tools : Tools) (project : ProjectId) (store : RedbArtifactStore) :
    Action → RedbArtifactStore
  | ingest sources scope limit =>
    (ingestWithBatchLimit tools project sources scope limit store).store
  | attach artifact =>
    if artifact.key.kind ∈ functionKinds then store.perform tools.blake3 (.commitOptional artifact)
    else store
  | setVectorGeneration generation vectorGeneration =>
    store.perform tools.blake3 (.setVectorGeneration generation vectorGeneration)

def stored (tools : Tools) (project : ProjectId) (actions : List Action) : RedbArtifactStore :=
  actions.foldl (Action.perform tools project) empty

def treesOf (actions : List Action) : List Sources :=
  actions.filterMap fun action => match action with
    | .ingest sources _ _ => some sources
    | _ => none

/-! ## What is linked -/

variable {tools : Tools} {project : ProjectId} {sources : Sources} {scope : IngestionScope}
  {store store' : RedbArtifactStore} {call : Call} {plan : Plan} {limit : Option Nat}
  {Q : ArtifactKey → Prop} {keys : List ArtifactKey} {key : ArtifactKey}
  {batches : List (List FileFacts)}

/-- The tables are sound, and everything that is linked has a property. -/
structure Linked (tools : Tools) (Q : ArtifactKey → Prop) (store : RedbArtifactStore) : Prop where
  sound : store.Sound tools.blake3
  linked : ∀ g, ∀ key ∈ store.links g, Q key

namespace Linked

theorem effect (h : Linked tools Q store) (he : Effect tools.blake3 store call store')
    (hcall : ∀ key ∈ call.linked, Q key) : Linked tools Q store' := by
  refine ⟨h.sound.effect he, fun g key hkey => ?_⟩
  cases he.mem_links.1 hkey with
  | inl hold => exact h.linked g key hold
  | inr hnew => exact hcall key hnew.2

theorem performCall (h : Linked tools Q store) (hcall : ∀ key ∈ call.linked, Q key) :
    Linked tools Q (store.perform tools.blake3 call) := by
  cases perform_cases tools.blake3 store call with
  | inl hfailed => rwa [hfailed.2]
  | inr hdone => exact h.effect hdone.2 hcall

theorem previousKeys (h : Linked tools Q store) : ∀ key ∈ store.previousKeys, Q key := by
  intro key hkey
  unfold RedbArtifactStore.previousKeys at hkey
  cases hmanifest : store.generations (store.activeGeneration.getD 0) with
  | none =>
    rw [hmanifest] at hkey
    cases hkey
  | some manifest =>
    rw [hmanifest] at hkey
    exact h.linked _ key ((h.sound.manifest _ manifest hmanifest).2 hkey)

theorem commitBatches (plan : Plan) (limit : Option Nat) (offset : Nat) (h : Linked tools Q store)
    (hfacts : ∀ facts ∈ batches.flatten, ∀ key ∈ factsKeys project facts, Q key) :
    Linked tools Q (commitBatches tools project plan limit batches offset store).store ∧
      ∀ keys, (Store.commitBatches tools project plan limit batches offset store).result =
        .ok keys →
        ∀ key ∈ keys, Q key := by
  induction batches generalizing offset store with
  | nil =>
    refine ⟨h, fun keys hkeys => ?_⟩
    cases hkeys
    exact fun key hkey => absurd hkey List.not_mem_nil
  | cons chunk batches ih =>
    rw [List.flatten_cons, List.forall_mem_append] at hfacts
    have hchunk : ∀ key ∈ (batchOf tools project plan.generation chunk).artifacts.map (·.key),
        Q key := by
      intro key hkey
      obtain ⟨facts, hmem, hkey⟩ := mem_batchOf_keys.1 hkey
      exact hfacts.1 facts hmem key hkey
    rw [Store.commitBatches]
    dsimp only
    cases hcommit : store.commitBatch tools.blake3 (batchOf tools project plan.generation chunk)
        (plan.job .commit (plan.nextBatch + offset + 1)) with
    | error e =>
      refine ⟨h, fun keys hkeys => ?_⟩
      cases hkeys
    | ok next =>
      have heffect : Effect tools.blake3 store (.commitBatch _ _) next := apply_eq_ok_iff.1 hcommit
      have hnext : Linked tools Q next := h.effect heffect hchunk
      dsimp only
      split_ifs
      · refine ⟨hnext, fun keys hkeys => ?_⟩
        cases hkeys
      · obtain ⟨hrest, hkeys⟩ := ih (offset + 1) hnext hfacts.2
        refine ⟨hrest, fun keys hok key hkey => ?_⟩
        cases hresult : (Store.commitBatches tools project plan limit batches
          (offset + 1) next).result with
        | error e => rw [hresult] at hok; cases hok
        | ok rest =>
          rw [hresult] at hok
          cases hok
          cases List.mem_append.1 hkey with
          | inl hkey => exact hchunk key hkey
          | inr hkey => exact hkeys rest hresult key hkey

theorem publishPlan (h : Linked tools Q store) (hkeys : ∀ key ∈ keys, Q key)
    (hgraph : Q (graphKey project plan.sourceRevision)) :
    Linked tools Q (publishPlan tools project plan keys store).1 := by
  unfold Store.publishPlan
  dsimp only
  split
  · exact h
  · split
    · exact h
    · next store₁ hcommit =>
      have hcommit : Effect tools.blake3 store (.commitBatch _ _) store₁ :=
        apply_eq_ok_iff.1 hcommit
      have h₁ : Linked tools Q store₁ := h.effect hcommit fun key hkey => by
        rw [List.mem_singleton.1 hkey]
        exact hgraph
      split
      · exact h₁
      · next store₂ hpublish =>
        have hpublish : Effect tools.blake3 store₁ (.publish (manifestOf tools project plan keys))
            store₂ := apply_eq_ok_iff.1 hpublish
        have h₂ : Linked tools Q store₂ := h₁.effect hpublish fun key hkey => by
          rcases mem_manifestOf.1 hkey with hold | rfl
          · exact hkeys key hold.1
          · exact hgraph
        split
        · exact h₂
        · next store₃ hlast =>
          have hlast : Effect tools.blake3 store₂ (.commitBatch _ _) store₃ :=
            apply_eq_ok_iff.1 hlast
          exact h₂.effect hlast fun key hkey => absurd hkey List.not_mem_nil

/-- **An invocation links** what it derives from its sources, and what was linked before. -/
theorem ingest (h : Linked tools Q store)
    (hfacts : ∀ path revision, sources.textRevision tools path = .ok revision →
      ∀ kind ∈ fileKinds, Q (fileKey project path revision kind))
    (hgraph : ∀ revision, Q (graphKey project revision)) :
    Linked tools Q (ingestWithBatchLimit tools project sources scope limit store).store := by
  unfold ingestWithBatchLimit
  split
  · exact h
  · next plan hplan =>
    split
    · exact h
    · next parsed hparsed =>
      obtain ⟨recovered, hrecovered, hmem⟩ := exists_recovered plan h.sound
      rw [hrecovered]
      dsimp only
      have hparsedKeys : ∀ facts ∈ (chunks batchFiles parsed).flatten,
          ∀ key ∈ factsKeys project facts, Q key := by
        rw [flatten_chunks (by decide)]
        intro facts hmem key hkey
        obtain ⟨path, -, hparse⟩ := (mem_of_mapM_eq_ok hparsed).1 hmem
        obtain ⟨rfl, hrevision⟩ := parse_eq_ok hparse
        obtain ⟨kind, hkind, rfl⟩ := List.mem_map.1 hkey
        exact hfacts _ _ hrevision kind hkind
      obtain ⟨hbatches, hcommitted⟩ :=
        h.commitBatches plan limit 0 hparsedKeys
      split
      · exact hbatches
      · next keys hkeys =>
        refine hbatches.publishPlan (fun key hkey => ?_) (hgraph _)
        rw [List.mem_append, List.mem_append] at hkey
        rcases hkey with (hcarried | hrecovered) | hcommit
        · obtain ⟨base, hbase, rfl⟩ := exists_basePlan hplan
          have hcarried : key ∈ base.carried := hcarried
          rw [(planned_of_basePlan hbase).carried] at hcarried
          exact h.previousKeys key (List.mem_filter.1 hcarried).1
        · exact h.linked _ key ((hmem key).1 hrecovered).1
        · exact hcommitted keys hkeys key hcommit

end Linked

/-- A key of the kinds that ingestion derives for a file is that of a text of the file. -/
def TextKey (tools : Tools) (project : ProjectId) (trees : List Sources)
    (key : ArtifactKey) : Prop :=
  key.kind ∈ fileKinds → ∃ tree ∈ trees, ∃ path revision,
    tree.textRevision tools path = .ok revision ∧ key = fileKey project path revision key.kind

/-- **The store of the program** links what its ingestions derive, and function artifacts. -/
theorem linked_stored_of (actions : List Action)
    (hfile : ∀ tree ∈ treesOf actions, ∀ path revision,
      tree.textRevision tools path = .ok revision → ∀ kind ∈ fileKinds,
        Q (fileKey project path revision kind))
    (hgraph : ∀ revision, Q (graphKey project revision))
    (hfunction : ∀ key : ArtifactKey, key.kind ∈ functionKinds → Q key) :
    Linked tools Q (stored tools project actions) := by
  induction actions using List.reverseRecOn with
  | nil => exact ⟨sound_empty, fun _ _ h => absurd h List.not_mem_nil⟩
  | append_singleton actions action ih =>
    have htrees : treesOf actions ⊆ treesOf (actions ++ [action]) := by
      rw [treesOf, treesOf, List.filterMap_append]
      exact List.subset_append_left _ _
    have hstored : stored tools project (actions ++ [action]) =
        action.perform tools project (stored tools project actions) := List.foldl_concat ..
    have ih := ih fun tree htree => hfile tree (htrees htree)
    rw [hstored]
    cases action with
    | ingest sources scope limit =>
      exact ih.ingest (hfile sources (by simp [treesOf])) hgraph
    | attach artifact =>
      dsimp only [Action.perform]
      split_ifs with hkind
      · refine ih.performCall fun key hkey => ?_
        rw [List.mem_singleton.1 hkey]
        exact hfunction _ hkind
      · exact ih
    | setVectorGeneration generation vectorGeneration =>
      exact ih.performCall fun key hkey => absurd hkey List.not_mem_nil

theorem linked_stored (actions : List Action) :
    Linked tools (TextKey tools project (treesOf actions)) (stored tools project actions) := by
  apply linked_stored_of
  · exact fun tree htree path revision hrevision kind _ _ =>
      ⟨tree, htree, path, revision, hrevision, rfl⟩
  · exact fun revision hkind => absurd hkind (by decide : ArtifactKind.callGraph ∉ fileKinds)
  · exact fun key hfunction hkind => absurd hkind (not_fileKind_of_functionKind hfunction)

/-! ## Agreement -/

/-- The artifacts of files in the active generation are those of the texts of a tree, made by a
producer. -/
def Over (tools : Tools) (project : ProjectId) (producer : ProducerId) (tree : Sources)
    (store : RedbArtifactStore) : Prop :=
  ∀ key, key.kind ∈ fileKinds → (key ∈ store.activeArtifacts ↔
    ∃ path ∈ tree.discovered, ∃ revision, tree.textRevision tools path = .ok revision ∧
      key = { fileKey project path revision key.kind with producer })

/-- The files hold every path whose presence or content differs. -/
def Covers (files : List String) (tree tree' : Sources) : Prop :=
  ∀ path ∉ files, (path ∈ tree.discovered ↔ path ∈ tree'.discovered) ∧
    (path ∈ tree'.discovered → tree.read path = tree'.read path)

/-- The files whose facts the call graph of the active generation was composed of. -/
def RedbArtifactStore.callInputs (store : RedbArtifactStore) : List ArtifactKey :=
  (store.activeArtifacts.filter (·.kind = .callGraph)).flatMap fun key =>
    ((store.records key).map (·.dependencies)).getD []

/-- The active generation has one key of the facts of each source file, and none of other files. -/
structure FactsOf (tree : Sources) (store : RedbArtifactStore) : Prop where
  unique : ∀ path ∈ tree.discovered,
    ∃! key, key ∈ store.activeArtifacts ∧ key.kind = .fileFacts ∧ key.subject = .file path
  removed : ∀ path ∉ tree.discovered,
    ¬ ∃ key ∈ store.activeArtifacts, key.kind = .fileFacts ∧ key.subject = .file path

/-- Two stores have the same artifacts of files and the same inputs of the call graph. -/
structure ScopesAgree (tree : Sources) (store store' : RedbArtifactStore) : Prop where
  perFile : ∀ key, key.kind ∈ fileKinds →
    (key ∈ store.activeArtifacts ↔ key ∈ store'.activeArtifacts)
  inputs : ∀ key, key ∈ store.callInputs ↔ key ∈ store'.callInputs
  facts : FactsOf tree store
  facts' : FactsOf tree store'

section Agreement

variable {tree tree' : Sources} {trees : List Sources} {g : Nat} {path : String}
  {revision : RevisionId} {parsed : List FileFacts} {finish : RedbArtifactStore}
  {producer : ProducerId}

/-- No text of a file of the trees has the hash of other bytes of the file in the tree. -/
def NoCollision (tools : Tools) (trees : List Sources) (tree' : Sources) : Prop :=
  ∀ tree ∈ trees, ∀ path bytes bytes', tree.read path = .ok bytes → tree'.read path = .ok bytes' →
    tools.blake3 (fromUtf8Lossy bytes) = tools.blake3 bytes' → fromUtf8Lossy bytes = bytes'

theorem byteRevision_eq_ok_iff : sources.byteRevision tools path = .ok revision ↔
    ∃ bytes, sources.read path = .ok bytes ∧ revision = ⟨tools.blake3 bytes⟩ := by
  unfold Sources.byteRevision
  cases sources.read path with
  | error e =>
    change Except.error e = Except.ok revision ↔ _
    simp
  | ok bytes =>
    change Except.ok (RevisionId.forBytes tools.blake3 bytes) = Except.ok revision ↔ _
    simp [RevisionId.forBytes, eq_comm]

theorem textRevision_eq_ok_iff : sources.textRevision tools path = .ok revision ↔
    ∃ bytes, sources.read path = .ok bytes ∧ revision = ⟨tools.blake3 (fromUtf8Lossy bytes)⟩ := by
  unfold Sources.textRevision
  cases sources.read path with
  | error e =>
    change Except.error e = Except.ok revision ↔ _
    simp
  | ok bytes =>
    change Except.ok (RevisionId.forBytes tools.blake3 (fromUtf8Lossy bytes)) = _ ↔ _
    simp [RevisionId.forBytes, eq_comm]

/-- **A file with the revision of a text** is that text. -/
theorem NoCollision.textRevision (h : NoCollision tools trees tree') (htree : tree ∈ trees)
    (htext : tree.textRevision tools path = .ok revision)
    (hbytes : tree'.byteRevision tools path = .ok revision) :
    tree'.textRevision tools path = .ok revision := by
  obtain ⟨bytes, hread, rfl⟩ := textRevision_eq_ok_iff.1 htext
  obtain ⟨bytes', hread', heq⟩ := byteRevision_eq_ok_iff.1 hbytes
  have hsame := h tree htree path bytes bytes' hread hread' (RevisionId.mk.inj heq)
  refine textRevision_eq_ok_iff.2 ⟨bytes', hread', ?_⟩
  rw [← hsame, fromUtf8Lossy_idempotent]

def InScope (path : String) : IngestionScope → Prop
  | .project => True
  | .files files => path ∈ files

/-- The scope holds every path whose presence or content differs. -/
def ScopeCovers (scope : IngestionScope) (tree tree' : Sources) : Prop :=
  ∀ path, ¬ InScope path scope → (path ∈ tree.discovered ↔ path ∈ tree'.discovered) ∧
    (path ∈ tree'.discovered → tree.read path = tree'.read path)

/-- Project discovery and the file-scope test accept the same files. -/
def SameSources (tree : Sources) : Prop :=
  ∀ path, path ∈ tree.discovered ↔ tree.isFileScopeSource path

theorem mem_normalized {files : List String} :
    path ∈ (files.insertionSort (· ≤ ·)).destutter (· ≠ ·) ↔ path ∈ files := by
  rw [mem_destutter, List.mem_insertionSort]

theorem SameSources.mem_scopeFiles (h : SameSources tree') :
    path ∈ tree'.scopeFiles (normalizeScope scope) ↔
      path ∈ tree'.discovered ∧ InScope path scope := by
  cases scope with
  | project => exact (and_iff_left trivial).symm
  | files files =>
    dsimp only [normalizeScope, Sources.scopeFiles, InScope]
    rw [List.mem_filter, mem_normalized, h path, and_comm]

theorem previousKeys_eq (hactive : store.activeGeneration = some g) :
    store.previousKeys = store.activeArtifacts := by
  unfold RedbArtifactStore.previousKeys RedbArtifactStore.activeArtifacts
  rw [hactive]
  rfl

namespace Planned

section

variable (h : Planned tools tree' scope store plan)
include h

theorem selected_of_regenerated (hsame : SameSources tree') (hpath : path ∈ tree'.discovered)
    (hregenerated : path ∈ plan.regenerated) : path ∈ plan.selected := by
  refine ((h.regenerated path).1 hregenerated).resolve_right fun hremoved => ?_
  refine h.readable path (hsame.mem_scopeFiles.2 ⟨hpath, ?_⟩) hremoved.1
  cases scope with
  | project => trivial
  | files files => exact mem_normalized.1 hremoved.2

/-- A file that is gone is regenerated, if the previous generation had its facts. -/
theorem regenerated_of_removed (hsame : SameSources tree') (hpath : path ∉ tree'.discovered)
    (hscope : InScope path scope) (hkey : key ∈ store.previousKeys)
    (hkind : key.kind = .fileFacts) (hsubject : key.subject = .file path) :
    path ∈ plan.regenerated := by
  have hnone : plan.revisions path = none := by
    cases hrevision : plan.revisions path with
    | none => rfl
    | some r =>
      have hfiles := ((h.revisions path r).1 hrevision).1
      exact absurd (hsame.mem_scopeFiles.1 hfiles).1 hpath
  refine (h.regenerated path).2 (.inr ⟨hnone, ?_⟩)
  cases scope with
  | project =>
    simp only [normalizeScope, removedFiles, List.mem_filter, List.mem_filterMap, hnone]
    exact ⟨⟨key, ⟨hkey, by simpa using hkind⟩, by rw [hsubject]; rfl⟩, rfl⟩
  | files files => exact mem_normalized.2 hscope

/-- A file that need not be parsed has, in the previous generation, the facts of its bytes. -/
theorem fresh_of_not_selected (hover : Over tools project fileFactsProducer tree store)
    (hactive : store.activeGeneration = some g)
    (hpath : path ∈ tree'.scopeFiles (normalizeScope scope)) (hselected : path ∉ plan.selected) :
    ∃ revision, tree'.byteRevision tools path = .ok revision ∧ path ∈ tree.discovered ∧
      tree.textRevision tools path = .ok revision := by
  rw [h.selected, Sources.toParse, List.mem_filter, not_and] at hselected
  have hfresh := hselected hpath
  unfold Sources.stale at hfresh
  cases hrevision : tree'.byteRevision tools path with
  | error e =>
    rw [hrevision] at hfresh
    exact absurd rfl hfresh
  | ok revision =>
    rw [hrevision, previousKeys_eq hactive] at hfresh
    simp only [Bool.not_eq_true', Bool.not_eq_false, List.any_eq_true, decide_eq_true_eq] at hfresh
    obtain ⟨key, hkey, hkind, -, hsubject, rfl⟩ := hfresh
    obtain ⟨path', hpath', revision', htext, heq⟩ :=
      (hover key (by rw [hkind]; decide)).1 hkey
    rw [heq] at hsubject ⊢
    cases hsubject
    exact ⟨revision', rfl, hpath', htext⟩

/-- **What is not regenerated** is as in the tree of the previous generation. -/
theorem text_of_kept (hsame : SameSources tree') (hcovers : ScopeCovers scope tree tree')
    (hover : Over tools project fileFactsProducer tree store)
    (hactive : store.activeGeneration = some g) (hhash : NoCollision tools trees tree')
    (htree : tree ∈ trees) (hpath : path ∉ plan.regenerated) :
    (path ∈ tree.discovered ∧ tree.textRevision tools path = .ok revision) ↔
      (path ∈ tree'.discovered ∧ tree'.textRevision tools path = .ok revision) := by
  by_cases hscope : InScope path scope
  · by_cases hfound : path ∈ tree'.discovered
    · have hselected : path ∉ plan.selected := fun hselected => hpath (h.selected_subset hselected)
      obtain ⟨r, hbytes, hold, htext⟩ := h.fresh_of_not_selected hover hactive
        (hsame.mem_scopeFiles.2 ⟨hfound, hscope⟩) hselected
      rw [htext, hhash.textRevision htree htext hbytes]
      simp [hold, hfound]
    · refine iff_of_false (fun hold => ?_) fun hnew => hfound hnew.1
      have hkey := (hover (fileKey project path revision .fileFacts)
        (by simp [fileKey, fileKinds])).2
        ⟨path, hold.1, revision, hold.2, rfl⟩
      rw [← previousKeys_eq hactive] at hkey
      exact hpath (h.regenerated_of_removed hsame hfound hscope hkey rfl rfl)
  · obtain ⟨hpresent, hread⟩ := hcovers path hscope
    rw [hpresent]
    refine and_congr_right fun hfound => ?_
    rw [textRevision_eq_ok_iff, textRevision_eq_ok_iff, hread hfound]

end

end Planned

theorem derived_iff (hu : Uninterrupted tools project tree' scope store plan parsed finish)
    {kind : ArtifactKind} (hkind : kind ∈ fileKinds) :
    (∃ facts ∈ parsed, fileKey project path revision kind ∈ factsKeys project facts) ↔
      path ∈ plan.selected ∧ tree'.textRevision tools path = .ok revision := by
  constructor
  · rintro ⟨facts, hfacts, hkey⟩
    obtain ⟨path', hpath', hparse⟩ := (mem_of_mapM_eq_ok hu.facts).1 hfacts
    obtain ⟨rfl, hrevision⟩ := parse_eq_ok hparse
    obtain ⟨hsubject, hsame, -⟩ := Uninterrupted.mem_factsKeys hkey
    cases hsubject
    have hsame : revision = facts.revision := hsame
    exact ⟨hpath', hsame ▸ hrevision⟩
  · rintro ⟨hpath, hrevision⟩
    obtain ⟨facts, hfacts, hparse⟩ := exists_ok_of_mem hu.facts hpath
    obtain ⟨rfl, htext⟩ := parse_eq_ok hparse
    rw [hrevision, Except.ok.injEq] at htext
    exact ⟨facts, hfacts, htext ▸ List.mem_map_of_mem hkind⟩

/-- **What an ingestion publishes of files** are the artifacts of their texts. -/
theorem keyAt_iff_over (hu : Uninterrupted tools project tree' scope store plan parsed finish)
    (hlinked : Linked tools (TextKey tools project trees) store) (hsame : SameSources tree')
    (hcovers : ScopeCovers scope tree tree')
    (hover : Over tools project fileFactsProducer tree store)
    (hactive : store.activeGeneration = some g) (hhash : NoCollision tools trees tree')
    (htree : tree ∈ trees) (hkind : key.kind ∈ fileKinds) :
    Uninterrupted.KeyAt project store plan parsed 0 key ↔
      ∃ path ∈ tree'.discovered, ∃ revision, tree'.textRevision tools path = .ok revision ∧
        key = { fileKey project path revision key.kind with producer := fileFactsProducer } := by
  have hplanned := planned_of_basePlan hu.base
  have hselected : plan.selected ⊆ tree'.discovered := fun path hpath => by
    rw [hplanned.selected, Sources.toParse, List.mem_filter] at hpath
    exact (hsame.mem_scopeFiles.1 hpath.1).1
  have hkept : ∀ path revision, path ∉ plan.regenerated →
      ((path ∈ tree.discovered ∧ tree.textRevision tools path = .ok revision) ↔
        (path ∈ tree'.discovered ∧ tree'.textRevision tools path = .ok revision)) :=
    fun _ _ => hplanned.text_of_kept hsame hcovers hover hactive hhash htree
  unfold Uninterrupted.KeyAt
  rw [Nat.zero_mul, List.take_zero, List.drop_zero, hplanned.carried, List.mem_filter,
    previousKeys_eq hactive, hover key hkind]
  constructor
  · rintro (⟨⟨path, hpath, revision, htext, heq⟩, hchanged⟩ | ⟨hold, hrecovers⟩ |
      ⟨facts, hfacts, hkey⟩)
    · have hregenerated : path ∉ plan.regenerated := by
        rw [heq] at hchanged
        simpa [fileKey, subjectChanged] using hchanged
      obtain ⟨hfound, htext'⟩ := (hkept path revision hregenerated).1 ⟨hpath, htext⟩
      exact ⟨path, hfound, revision, htext', heq⟩
    · -- what earlier attempts left is recovered if it is of the text of the file
      obtain ⟨tree₀, htree₀, path, revision, htext, heq⟩ :=
        hlinked.linked _ key (hold.resolve_right (by simp)) hkind
      rw [heq] at hrecovers
      simp only [Plan.recovers, fileKey, subjectFile, Bool.and_eq_true] at hrecovers
      obtain ⟨hfiles, hbytes⟩ := (hplanned.revisions path revision).1
        (of_decide_eq_true hrecovers.2)
      exact ⟨path, (hsame.mem_scopeFiles.1 hfiles).1, revision,
        hhash.textRevision htree₀ htext hbytes, heq⟩
    · obtain ⟨kind, hkind', rfl⟩ := List.mem_map.1 hkey
      obtain ⟨hpath, htext⟩ := (derived_iff hu hkind').1 ⟨facts, hfacts, hkey⟩
      exact ⟨facts.path, hselected hpath, facts.revision, htext, rfl⟩
  · rintro ⟨path, hpath, revision, htext, heq⟩
    by_cases hregenerated : path ∈ plan.regenerated
    · refine .inr (.inr ?_)
      rw [heq]
      exact (derived_iff hu hkind).2
        ⟨hplanned.selected_of_regenerated hsame hpath hregenerated, htext⟩
    · obtain ⟨hfound, htext'⟩ := (hkept path revision hregenerated).2 ⟨hpath, htext⟩
      refine .inl ⟨⟨path, hfound, revision, htext', heq⟩, ?_⟩
      rw [heq]
      simpa [fileKey, subjectChanged] using hregenerated

theorem mem_callInputs (h : Published project plan keys store) :
    key ∈ store.callInputs ↔ key ∈ store.activeArtifacts ∧ key.kind = .fileFacts := by
  obtain ⟨graph, hgraph, hdeps⟩ := h.graph
  unfold RedbArtifactStore.callInputs
  rw [List.mem_flatMap]
  constructor
  · rintro ⟨input, hinput, hkey⟩
    rw [List.mem_filter, mem_activeArtifacts h] at hinput
    have hcall : input.kind = .callGraph := by simpa using hinput.2
    rcases hinput.1 with hold | rfl
    · exact absurd hcall hold.2
    · rw [hgraph] at hkey
      obtain ⟨hmem, hkind⟩ := (hdeps key).1 hkey
      exact ⟨(mem_activeArtifacts h).2 (.inl ⟨hmem, by rw [hkind]; decide⟩), hkind⟩
  · rintro ⟨hkey, hkind⟩
    refine ⟨graphKey project plan.sourceRevision, ?_, ?_⟩
    · rw [List.mem_filter, mem_activeArtifacts h]
      exact ⟨.inr rfl, rfl⟩
    · rw [hgraph]
      refine (hdeps key).2 ⟨?_, hkind⟩
      rcases (mem_activeArtifacts h).1 hkey with hold | rfl
      · exact hold.1
      · cases hkind

/-- **A successful ingestion** that resumes no attempt and whose scope covers the changes publishes
the artifacts of the texts of the tree. -/
theorem over_of_ingest {report : IngestionReport}
    (hlinked : Linked tools (TextKey tools project trees) store) (hsame : SameSources tree')
    (hcovers : ScopeCovers scope tree tree')
    (hover : Over tools project fileFactsProducer tree store)
    (hactive : store.activeGeneration = some g) (hhash : NoCollision tools trees tree')
    (htree : tree ∈ trees) (hok : (ingest tools project tree' scope store).result = .ok report)
    (hfirst : report.resumed = false) :
    Over tools project fileFactsProducer tree' (ingest tools project tree' scope store).store ∧
      ∀ key, key ∈ (ingest tools project tree' scope store).store.callInputs ↔
        key ∈ (ingest tools project tree' scope store).store.activeArtifacts ∧
          key.kind = .fileFacts := by
  obtain ⟨plan, parsed, finish, hu⟩ := exists_uninterrupted hlinked.sound hok hfirst
  obtain ⟨keys, report', hkeys, hingest⟩ := hu.exists_ingest Uninterrupted.atBatch_start
  rw [hingest] at hok
  obtain ⟨store', hpublish⟩ := exists_publishPlan_of_map hok
  obtain ⟨-, -, hpublished⟩ := published_of_publishPlan hpublish
  rw [hingest, hpublish]
  refine ⟨fun key hkind => ?_, fun key => mem_callInputs hpublished⟩
  have hfile : key.kind ≠ .callGraph := by
    rintro hcall
    rw [hcall] at hkind
    revert hkind
    decide
  have hgraph : key ≠ graphKey project plan.sourceRevision := by
    rintro rfl
    exact hfile rfl
  rw [mem_activeArtifacts hpublished, or_iff_left hgraph, and_iff_left hfile, hkeys]
  exact keyAt_iff_over hu hlinked hsame hcovers hover hactive hhash htree hkind

theorem factsOf_of_over (hover : Over tools project producer tree store)
    (hread : ∀ path ∈ tree.discovered, ∃ revision, tree.textRevision tools path = .ok revision) :
    FactsOf tree store := by
  have hkind : ∀ {key : ArtifactKey}, key.kind = .fileFacts → key.kind ∈ fileKinds := by
    intro key h
    rw [h]
    decide
  constructor
  case unique =>
    intro path hpath
    obtain ⟨revision, hrevision⟩ := hread path hpath
    refine ⟨{ fileKey project path revision .fileFacts with producer }, ⟨?_, rfl, rfl⟩, ?_⟩
    · exact (hover _ (hkind rfl)).2 ⟨path, hpath, revision, hrevision, rfl⟩
    · rintro key ⟨hkey, hfacts, hsubject⟩
      obtain ⟨path', hpath', revision', hrevision', heq⟩ := (hover key (hkind hfacts)).1 hkey
      rw [heq] at hsubject
      cases hsubject
      rw [hrevision, Except.ok.injEq] at hrevision'
      rw [heq, hfacts, hrevision']
  case removed =>
    rintro path hpath ⟨key, hkey, hfacts, hsubject⟩
    obtain ⟨path', hpath', revision', -, heq⟩ := (hover key (hkind hfacts)).1 hkey
    rw [heq] at hsubject
    cases hsubject
    exact hpath hpath'

end Agreement

/-- **File-scoped ingestion agrees with full ingestion**, in every store that the program wrote, if
neither resumes an earlier attempt and no text has the hash of other bytes. -/
theorem scopes_agree (tools : Tools) (project : ProjectId) (actions : List Action) (g : Nat)
    (hactive : (stored tools project actions).activeGeneration = some g) (tree tree' : Sources)
    (hover : Over tools project fileFactsProducer tree (stored tools project actions))
    (hsame : SameSources tree') (files : List String) (hcovers : Covers files tree tree')
    (hhash : NoCollision tools (tree :: treesOf actions) tree') (full delta : IngestionReport)
    (hfull : (ingest tools project tree' .project (stored tools project actions)).result = .ok full)
    (hdelta : (ingest tools project tree' (.files files) (stored tools project actions)).result =
      .ok delta)
    (hfirst : full.resumed = false) (hfirst' : delta.resumed = false) :
    ScopesAgree tree' (ingest tools project tree' .project (stored tools project actions)).store
      (ingest tools project tree' (.files files) (stored tools project actions)).store := by
  have hlinked : Linked tools (TextKey tools project (tree :: treesOf actions))
      (stored tools project actions) := by
    refine ⟨(linked_stored actions).sound, fun g key hkey hkind => ?_⟩
    obtain ⟨tree₀, htree₀, h⟩ := (linked_stored actions).linked g key hkey hkind
    exact ⟨tree₀, List.mem_cons_of_mem _ htree₀, h⟩
  have hproject : ScopeCovers .project tree tree' := fun path hpath => absurd trivial hpath
  have hfiles : ScopeCovers (.files files) tree tree' := hcovers
  obtain ⟨hover₁, hinputs₁⟩ := over_of_ingest hlinked hsame hproject hover hactive hhash
    List.mem_cons_self hfull hfirst
  obtain ⟨hover₂, hinputs₂⟩ := over_of_ingest hlinked hsame hfiles hover hactive hhash
    List.mem_cons_self hdelta hfirst'
  have hread : ∀ path ∈ tree'.discovered,
      ∃ revision, tree'.textRevision tools path = .ok revision := by
    intro path hpath
    obtain ⟨plan, parsed, finish, hu⟩ := exists_uninterrupted hlinked.sound hfull hfirst
    have hplanned := planned_of_basePlan hu.base
    obtain ⟨revision, hrevision⟩ := Option.ne_none_iff_exists'.1 (hplanned.readable path hpath)
    obtain ⟨bytes, hread, -⟩ := byteRevision_eq_ok_iff.1
      ((hplanned.revisions path revision).1 hrevision).2
    exact ⟨_, textRevision_eq_ok_iff.2 ⟨bytes, hread, rfl⟩⟩
  have hperFile : ∀ key, key.kind ∈ fileKinds →
      (key ∈ (ingest tools project tree' .project
        (stored tools project actions)).store.activeArtifacts ↔
        key ∈ (ingest tools project tree' (.files files)
          (stored tools project actions)).store.activeArtifacts) :=
    fun key hkind => (hover₁ key hkind).trans (hover₂ key hkind).symm
  constructor
  case perFile => exact hperFile
  case inputs =>
    intro key
    rw [hinputs₁, hinputs₂]
    exact and_congr_left fun hkind => hperFile key (by rw [hkind]; decide)
  case facts => exact factsOf_of_over hover₁ hread
  case facts' => exact factsOf_of_over hover₂ hread

theorem over_oneFile (artifacts : List ArtifactKey) {b : UInt8}
    (hlist : store.activeArtifacts.Perm (fileKinds.map
        (fun kind =>
          { fileKey project "a.py" ⟨plainHash (fromUtf8Lossy [b])⟩ kind with producer }) ++
      artifacts)) (hother : ∀ key ∈ artifacts, key.kind ∉ fileKinds) :
    Over plainTools project producer (oneFile [b]) store := by
  intro key hkind
  rw [hlist.mem_iff, List.mem_append, List.mem_map]
  constructor
  · rintro (⟨kind, -, rfl⟩ | hkey)
    · exact ⟨"a.py", List.mem_singleton_self _, _, rfl, rfl⟩
    · exact absurd hkind (hother key hkey)
  · rintro ⟨path, hpath, revision, htext, heq⟩
    cases htext
    cases List.mem_singleton.1 hpath
    exact .inl ⟨key.kind, hkind, heq.symm⟩

theorem sameSources_oneFile {bytes : List UInt8} : SameSources (oneFile bytes) := by
  intro path
  simp [oneFile]

def ingestedOnce : List Action := [.ingest (oneFile [0x61]) .project none]

theorem scopes_agree_changed :
    ScopesAgree (oneFile [0x62])
      (ingest plainTools ⟨0⟩ (oneFile [0x62]) .project (stored plainTools ⟨0⟩ ingestedOnce)).store
      (ingest plainTools ⟨0⟩ (oneFile [0x62]) (.files ["a.py"])
        (stored plainTools ⟨0⟩ ingestedOnce)).store := by
  refine scopes_agree plainTools ⟨0⟩ ingestedOnce 1 (by decide +kernel) (oneFile [0x61])
    (oneFile [0x62]) ?_ sameSources_oneFile ["a.py"] ?_ ?_ ⟨2, 1, 6, false⟩ ⟨2, 1, 6, false⟩
    (by decide +kernel) (by decide +kernel) rfl rfl
  · exact over_oneFile [graphKey ⟨0⟩ ⟨0⟩] (by decide +kernel) (by decide)
  · refine fun path hpath => ⟨Iff.rfl, fun hfound => ?_⟩
    exact absurd hfound hpath
  · intro tree htree path bytes bytes' hread hread' hhash
    have htree : tree = oneFile [0x61] := by simpa [treesOf, ingestedOnce] using htree
    subst htree
    cases hread
    cases hread'
    revert hhash
    decide +kernel

/-- A store whose generation an older producer made. -/
def olderCalls : List Call :=
  let artifacts := fileKinds.map fun kind =>
    ArtifactEnvelope.new plainHash
      { fileKey ⟨0⟩ "a.py" ⟨0x61⟩ kind with producer := ⟨"file-facts", 6⟩ } 1 [] [0x61]
  [.commitBatch ⟨1, artifacts⟩ ⟨"older", 1, .project, .commit, 1, 1, ⟨0⟩⟩,
    .publish ⟨1, ⟨0⟩, ⟨0⟩, artifacts.map (·.key), none⟩]

/-- An ingestion of no files carries over what an older producer made, and one of the project does
not. -/
theorem scopes_older_producer :
    ¬ ∀ (tools : Tools) (project : ProjectId) (calls : List Call) (g : Nat) (producer : ProducerId)
      (tree tree' : Sources) (files : List String) (full delta : IngestionReport),
      (after tools.blake3 calls).activeGeneration = some g →
      Over tools project producer tree (after tools.blake3 calls) → SameSources tree' →
      Covers files tree tree' → NoCollision tools [tree] tree' →
      (ingest tools project tree' .project (after tools.blake3 calls)).result = .ok full →
      (ingest tools project tree' (.files files) (after tools.blake3 calls)).result = .ok delta →
      full.resumed = false → delta.resumed = false →
      ScopesAgree tree' (ingest tools project tree' .project (after tools.blake3 calls)).store
        (ingest tools project tree' (.files files) (after tools.blake3 calls)).store := by
  intro h
  have hagree := h plainTools ⟨0⟩ olderCalls 1 ⟨"file-facts", 6⟩ (oneFile [0x61])
    (oneFile [0x61]) []
    ⟨2, 1, 6, false⟩ ⟨2, 0, 1, false⟩ (by decide +kernel)
    (over_oneFile [] (by decide +kernel) (by decide)) sameSources_oneFile
    (fun path _ => ⟨Iff.rfl, fun _ => rfl⟩) ?_ (by decide +kernel) (by decide +kernel) rfl rfl
  · have hkey := hagree.perFile (fileKey ⟨0⟩ "a.py" ⟨0x61⟩ .fileFacts) (by decide)
    revert hkey
    decide +kernel
  · intro tree htree path bytes bytes' hread hread' _
    cases List.mem_singleton.1 htree
    cases hread
    cases hread'
    decide

end TldrCode.Store
