import TldrCode.Run
import TldrCode.Store.Batches

/-!
# Interrupted ingestion

After interruptions, an ingestion of the same sources publishes what one uninterrupted ingestion
publishes, with every file parsed and committed once, if and only if the first attempt was
interrupted after its last batch and every file is UTF-8 text (`resumes_iff`). In general, an
attempt parses again all files that are not yet committed (`Progress`), and the keys that earlier
attempts committed are recovered if their files have, as text, the revision of their bytes.
-/

namespace TldrCode.Store

open RedbArtifactStore

/-! ## Attempts -/

/-- The store after attempts, and the files that they parsed and committed. -/
structure Attempts where
  store : RedbArtifactStore
  parsed : List String
  committed : List String

def Attempts.extend (attempts : Attempts) (invocation : Invocation) : Attempts where
  store := invocation.store
  parsed := attempts.parsed ++ invocation.parsed
  committed := attempts.committed ++ invocation.committed

/-- An attempt that is interrupted after a number of batches. -/
structure Interrupted (tools : Tools) (project : ProjectId) (sources : Sources)
    (scope : IngestionScope) (attempts : Attempts) (k : Nat) (attempts' : Attempts) : Prop where
  interrupted : (ingestInterruptedAfter tools project sources scope k attempts.store).result =
    .error interruption
  next : attempts' =
    attempts.extend (ingestInterruptedAfter tools project sources scope k attempts.store)

def RedbArtifactStore.activeArtifacts (store : RedbArtifactStore) : List ArtifactKey :=
  ((store.activeGeneration.bind store.generations).map (·.artifacts)).getD []

/-- The attempts end as an uninterrupted one does, and do every part of its work once. -/
structure Resumes (uninterrupted : Invocation) (attempts : Attempts)
    (last : Invocation) : Prop where
  succeeds : ∃ report, last.result = .ok report
  generation : last.store.activeGeneration = uninterrupted.store.activeGeneration
  artifacts : ∀ key, key ∈ last.store.activeArtifacts ↔ key ∈ uninterrupted.store.activeArtifacts
  parsed : ∀ path ∈ uninterrupted.parsed, (attempts.parsed ++ last.parsed).count path = 1
  committed : ∀ path ∈ uninterrupted.parsed, (attempts.committed ++ last.committed).count path = 1

/-! ## Positions -/

variable {keys : List ArtifactKey}

section Positions

variable {tools : Tools} {project : ProjectId} {sources : Sources} {scope : IngestionScope}
  {start store store' : RedbArtifactStore} {plan : Plan} {parsed : List FileFacts} {i k : Nat}
  {existing : Option IngestionJob} {key : ArtifactKey}

/-- An uninterrupted attempt: its plan, its facts and the store after its batches. -/
structure Uninterrupted (tools : Tools) (project : ProjectId) (sources : Sources)
    (scope : IngestionScope) (start : RedbArtifactStore) (plan : Plan) (parsed : List FileFacts)
    (finish : RedbArtifactStore) : Prop where
  sound : start.Sound tools.blake3
  base : basePlan tools sources scope start = .ok plan
  first : plan.existing start = none
  facts : plan.selected.mapM (parse tools sources) = .ok parsed
  commits : commitAll tools project plan (chunks batchFiles parsed) 0 start = .ok finish

def AtBatch (tools : Tools) (project : ProjectId) (start : RedbArtifactStore) (plan : Plan)
    (parsed : List FileFacts) (i : Nat) (store : RedbArtifactStore) : Prop :=
  i ≤ (chunks batchFiles parsed).length ∧
    commitAll tools project plan ((chunks batchFiles parsed).take i) 0 start = .ok store

theorem commitAll_resume (existing : Option IngestionJob) {batches : List (List FileFacts)} :
    commitAll tools project (plan.resume existing) batches i store =
      commitAll tools project plan batches i store := by
  induction batches generalizing i store with
  | nil => rfl
  | cons chunk batches ih =>
    rw [commitAll, commitAll]
    simp only [ih]
    rfl

namespace Uninterrupted

variable {finish : RedbArtifactStore}

section

variable (hu : Uninterrupted tools project sources scope start plan parsed finish)
include hu

theorem exists_makePlan (h : AtBatch tools project start plan parsed i store) :
    ∃ existing, makePlan tools sources scope store = .ok (plan.resume existing) ∧
      (plan.resume existing).nextBatch = i := by
  have hcommitting := committing_of_commitAll h.2
  have hbase : basePlan tools sources scope store = .ok plan :=
    (basePlan_congr hcommitting.active hcommitting.generations).trans hu.base
  refine ⟨plan.existing store, ?_, ?_⟩
  · unfold makePlan
    rw [hbase]
    rfl
  · cases i with
    | zero =>
      have hstart : store = start := by
        have := h.2
        rw [List.take_zero] at this
        cases this
        rfl
      rw [hstart, hu.first]
      rfl
    | succ i =>
      have hne : (chunks batchFiles parsed).take (i + 1) ≠ [] := by
        rw [← List.length_pos_iff, List.length_take]
        have := h.1
        omega
      have hjob := hcommitting.job hne
      rw [List.length_take_of_le h.1, Nat.zero_add] at hjob
      have hexisting : plan.existing store = some (plan.job .commit (i + 1)) := by
        unfold Plan.existing
        rw [hjob]
        simp [Plan.job]
      rw [hexisting]
      rfl

theorem mapM_remaining (hnext : (plan.resume existing).nextBatch = i) :
    (plan.resume existing).remaining = plan.selected.drop (i * batchFiles) ∧
      (plan.resume existing).remaining.mapM (parse tools sources) =
        .ok (parsed.drop (i * batchFiles)) := by
  have hremaining : (plan.resume existing).remaining = plan.selected.drop (i * batchFiles) := by
    unfold Plan.remaining
    rw [hnext]
    rfl
  exact ⟨hremaining, hremaining ▸ mapM_drop hu.facts _⟩

theorem length_parsed : parsed.length = plan.selected.length := by
  rw [← pathsOf_eq hu.facts, pathsOf, List.length_map]

theorem length_batches : (chunks batchFiles parsed).length = (plan.selected.length + 31) / 32 := by
  rw [length_chunks, hu.length_parsed]
  rfl

theorem length_selected_le :
    plan.selected.length ≤ (chunks batchFiles parsed).length * batchFiles := by
  rw [hu.length_batches, batchFiles]
  omega

theorem commitAll_drop (h : AtBatch tools project start plan parsed i store) :
    commitAll tools project plan (chunks batchFiles (parsed.drop (i * batchFiles))) i store =
      .ok finish := by
  have hcommits := hu.commits
  rw [← List.take_append_drop i (chunks batchFiles parsed), commitAll_append] at hcommits
  obtain ⟨middle, hmiddle, hrest⟩ := hcommits
  rw [h.2] at hmiddle
  cases hmiddle
  rwa [List.length_take_of_le h.1, Nat.zero_add, ← chunks_drop (by decide)] at hrest

theorem exists_atBatch (h : AtBatch tools project start plan parsed i store) {m : Nat}
    (hm : i + m ≤ (chunks batchFiles parsed).length) :
    ∃ store', AtBatch tools project start plan parsed (i + m) store' ∧
      commitAll tools project plan ((chunks batchFiles (parsed.drop (i * batchFiles))).take m) i
        store = .ok store' := by
  have hall := hu.commitAll_drop h
  rw [← List.take_append_drop m (chunks batchFiles _), commitAll_append] at hall
  obtain ⟨store', htake, -⟩ := hall
  refine ⟨store', ⟨hm, ?_⟩, htake⟩
  rw [List.take_add, commitAll_append]
  refine ⟨store, h.2, ?_⟩
  rwa [List.length_take_of_le h.1, Nat.zero_add, ← chunks_drop (by decide)]

/-- The number of the batch that is next after an interruption. -/
def nextBatch (parsed : List FileFacts) (i k : Nat) : Nat :=
  min (chunks batchFiles parsed).length (i + max k 1)

/-- **What an interrupted attempt does**: it parses all files that are left and commits as many
batches of them as it was to. -/
theorem atBatch_of_interrupted (h : AtBatch tools project start plan parsed i store)
    (hinterrupted : (ingestInterruptedAfter tools project sources scope k store).result =
      .error interruption) :
    AtBatch tools project start plan parsed (nextBatch parsed i k)
        (ingestInterruptedAfter tools project sources scope k store).store ∧
      (ingestInterruptedAfter tools project sources scope k store).parsed =
        plan.selected.drop (i * batchFiles) ∧
      plan.selected.take (i * batchFiles) ++
          (ingestInterruptedAfter tools project sources scope k store).committed =
        plan.selected.take (nextBatch parsed i k * batchFiles) := by
  obtain ⟨existing, hplan, hnext⟩ := hu.exists_makePlan h
  obtain ⟨hremaining, hparsed⟩ := hu.mapM_remaining hnext
  have hs : store.Sound tools.blake3 := (committing_of_commitAll h.2).sound hu.sound
  by_cases hstop : i + max k 1 ≤ (chunks batchFiles parsed).length
  · -- the loop stops
    obtain ⟨store', hat, htake⟩ := hu.exists_atBatch h hstop
    have hlength : max k 1 ≤ (chunks batchFiles (parsed.drop (i * batchFiles))).length := by
      rw [chunks_drop (by decide), List.length_drop]
      omega
    have hnextBatch : nextBatch parsed i k = i + max k 1 := min_eq_right hstop
    unfold ingestInterruptedAfter
    rw [ingest_of_stopped hs hplan hparsed hlength
      (by rw [hnext, commitAll_resume]; exact htake), hnextBatch, Nat.add_mul, List.take_add,
      hremaining]
    exact ⟨hat, rfl, rfl⟩
  · -- the loop does not stop, and the publication failed
    have hlength : (chunks batchFiles (parsed.drop (i * batchFiles))).length < max k 1 := by
      rw [chunks_drop (by decide), List.length_drop]
      omega
    have hnextBatch : nextBatch parsed i k = (chunks batchFiles parsed).length :=
      min_eq_left (by omega)
    obtain ⟨keys, artifacts, -, hingest⟩ := ingest_of_commitAll hs hplan hparsed
      (by rw [hnext, commitAll_resume]; exact hu.commitAll_drop h)
      (fun k' (hk' : some k = some k') => Option.some.inj hk' ▸ hlength)
    unfold ingestInterruptedAfter at hinterrupted ⊢
    rw [hingest] at hinterrupted ⊢
    dsimp only at hinterrupted ⊢
    have hfailed : (publishPlan tools project (plan.resume existing) keys finish).2 =
        .error interruption := by
      cases hpublished : (publishPlan tools project (plan.resume existing) keys finish).2 with
      | error e => rw [hpublished] at hinterrupted; cases hinterrupted; rfl
      | ok _ => rw [hpublished] at hinterrupted; cases hinterrupted
    rw [publishPlan_of_interruption hfailed, hremaining, hnextBatch, List.take_append_drop,
      List.take_of_length_le hu.length_selected_le]
    refine ⟨⟨le_rfl, ?_⟩, rfl, rfl⟩
    rw [List.take_length]
    exact hu.commits

end

/-- The attempts from the first interruption on: all is committed before the next batch, and each
attempt parsed all files that were left. -/
structure Progress (tools : Tools) (project : ProjectId) (start : RedbArtifactStore) (plan : Plan)
    (parsed : List FileFacts) (first i : Nat) (attempts : Attempts) : Prop where
  atBatch : AtBatch tools project start plan parsed i attempts.store
  le : first ≤ i
  committed : attempts.committed = plan.selected.take (i * batchFiles)
  parsed : attempts.parsed = plan.selected ∧ i = first ∨
    ∃ rest, attempts.parsed =
        plan.selected ++ plan.selected.drop (first * batchFiles) ++ rest ∧
      (first = (chunks batchFiles parsed).length → rest = [])

variable {attempts attempts' : Attempts} {first : Nat} {ks : List Nat} {facts : FileFacts}

theorem atBatch_start : AtBatch tools project start plan parsed 0 start :=
  ⟨Nat.zero_le _, rfl⟩

section

variable (hu : Uninterrupted tools project sources scope start plan parsed finish)
include hu

theorem progress_first (h : Interrupted tools project sources scope ⟨start, [], []⟩ k attempts) :
    Progress tools project start plan parsed (nextBatch parsed 0 k) (nextBatch parsed 0 k)
      attempts := by
  obtain ⟨hinterrupted, rfl⟩ := h
  obtain ⟨hat, hparsed, hcommitted⟩ := hu.atBatch_of_interrupted atBatch_start hinterrupted
  rw [Nat.zero_mul] at hparsed hcommitted
  exact ⟨hat, le_rfl, hcommitted, .inl ⟨hparsed, rfl⟩⟩

theorem drop_eq_nil (hi : (chunks batchFiles parsed).length ≤ i) :
    plan.selected.drop (i * batchFiles) = [] :=
  List.drop_of_length_le (hu.length_selected_le.trans (Nat.mul_le_mul_right _ hi))

theorem Progress.exists_parsed (h : Progress tools project start plan parsed first i attempts) :
    ∃ rest, attempts.parsed ++ plan.selected.drop (i * batchFiles) =
        plan.selected ++ plan.selected.drop (first * batchFiles) ++ rest ∧
      (first = (chunks batchFiles parsed).length → rest = []) := by
  cases h.parsed with
  | inl hfirst => exact ⟨[], by rw [hfirst.1, hfirst.2, List.append_nil], fun _ => rfl⟩
  | inr hlater =>
    obtain ⟨rest, hparsed, hrest⟩ := hlater
    refine ⟨rest ++ plan.selected.drop (i * batchFiles), ?_, fun hfirst => ?_⟩
    · rw [hparsed, List.append_assoc _ rest]
    · rw [hrest hfirst, hu.drop_eq_nil (hfirst ▸ h.le), List.append_nil]

/-- **An interruption makes progress.** -/
theorem Progress.step (h : Progress tools project start plan parsed first i attempts)
    (hstep : Interrupted tools project sources scope attempts k attempts') :
    Progress tools project start plan parsed first (nextBatch parsed i k) attempts' := by
  obtain ⟨hinterrupted, rfl⟩ := hstep
  obtain ⟨hat, hparsed, hcommitted⟩ := hu.atBatch_of_interrupted h.atBatch hinterrupted
  constructor
  case atBatch => exact hat
  case le => exact le_min (h.le.trans h.atBatch.1) (h.le.trans (Nat.le_add_right _ _))
  case committed =>
    rw [Attempts.extend, h.committed]
    exact hcommitted
  case parsed =>
    refine .inr ?_
    rw [Attempts.extend, hparsed]
    exact h.exists_parsed hu

theorem exists_progress
    (hrun : Run (Interrupted tools project sources scope) ⟨start, [], []⟩ (k :: ks) attempts) :
    ∃ i, Progress tools project start plan parsed (nextBatch parsed 0 k) i attempts := by
  obtain ⟨next, hfirst, hrest⟩ := run_cons_iff.1 hrun
  exact hrest.invariant (I := fun attempts =>
      ∃ i, Progress tools project start plan parsed (nextBatch parsed 0 k) i attempts)
    ⟨_, hu.progress_first hfirst⟩ fun _ _ _ ⟨_, h⟩ hstep => ⟨_, h.step hu hstep⟩

end

/-! ## The last attempt -/

theorem publishPlan_resume :
    publishPlan tools project (plan.resume existing) keys store =
      publishPlan tools project plan keys store := rfl

/-- The keys that an ingestion publishes that resumes at a batch. -/
def KeyAt (project : ProjectId) (start : RedbArtifactStore) (plan : Plan) (parsed : List FileFacts)
    (i : Nat) (key : ArtifactKey) : Prop :=
  key ∈ plan.carried ∨
    ((key ∈ start.links plan.generation ∨
      ∃ facts ∈ parsed.take (i * batchFiles), key ∈ factsKeys project facts) ∧ plan.recovers key) ∨
    ∃ facts ∈ parsed.drop (i * batchFiles), key ∈ factsKeys project facts

/-- **An ingestion that resumes at a batch.** -/
theorem exists_ingest (hu : Uninterrupted tools project sources scope start plan parsed finish)
    (h : AtBatch tools project start plan parsed i store) :
    ∃ keys report, (∀ key, key ∈ keys ↔ KeyAt project start plan parsed i key) ∧
      ingest tools project sources scope store =
        ⟨(publishPlan tools project plan keys finish).1, plan.selected.drop (i * batchFiles),
          plan.selected.drop (i * batchFiles),
          (publishPlan tools project plan keys finish).2.map fun _ => report⟩ := by
  obtain ⟨existing, hplan, hnext⟩ := hu.exists_makePlan h
  obtain ⟨hremaining, hparsed⟩ := hu.mapM_remaining hnext
  have hcommitting := committing_of_commitAll h.2
  obtain ⟨keys, artifacts, hkeys, hingest⟩ := ingest_of_commitAll (hcommitting.sound hu.sound)
    hplan hparsed (by rw [hnext, commitAll_resume]; exact hu.commitAll_drop h)
    (fun _ (hnone : none = some _) => by cases hnone)
  refine ⟨keys, ⟨plan.generation, (plan.selected.drop (i * batchFiles)).length, artifacts,
    (plan.resume existing).resumed⟩, fun key => ?_, ?_⟩
  · rw [hkeys, hcommitting.links, flatten_take_chunks (by decide)]
    change _ ∨ ((_ ∨ plan.generation = plan.generation ∧ _) ∧ _) ∨ _ ↔ _
    rw [eq_self, true_and]
    rfl
  · unfold ingest
    rw [hingest, hremaining, publishPlan_resume]
    rfl

/-- The revision of facts is that of the bytes. -/
def Agree (plan : Plan) (facts : FileFacts) : Prop :=
  plan.revisions facts.path = some facts.revision

theorem mem_factsKeys (h : key ∈ factsKeys project facts) :
    key.subject = .file facts.path ∧ key.revision = facts.revision ∧ key.kind ≠ .callGraph := by
  obtain ⟨kind, hkind, rfl⟩ := List.mem_map.1 h
  refine ⟨rfl, rfl, ?_⟩
  rintro rfl
  revert hkind
  decide

section

variable (hu : Uninterrupted tools project sources scope start plan parsed finish)
include hu

theorem path_mem_regenerated (h : facts ∈ parsed) : facts.path ∈ plan.regenerated := by
  refine (planned_of_basePlan hu.base).selected_subset ?_
  rw [← pathsOf_eq hu.facts]
  exact List.mem_map_of_mem h

/-- Facts that are published wherever the ingestion resumes agree with the bytes. -/
theorem agree_of_keyAt (hfacts : facts ∈ parsed.take (i * batchFiles))
    (h : KeyAt project start plan parsed i (fileKey project facts.path facts.revision .fileFacts)) :
    Agree plan facts := by
  have hpath := hu.path_mem_regenerated (List.mem_of_mem_take hfacts)
  rcases h with hcarried | hrecovered | ⟨facts', hfacts', hkey'⟩
  · -- keys of a selected file are not carried over
    rw [(planned_of_basePlan hu.base).carried, List.mem_filter] at hcarried
    simp [fileKey, subjectChanged, hpath] at hcarried
  · have hrecovers := hrecovered.2
    simp only [Plan.recovers, fileKey, subjectFile, Bool.and_eq_true] at hrecovers
    exact (of_decide_eq_true hrecovers.2 : plan.revisions facts.path = some facts.revision)
  · -- a file is in one batch only
    have hpath : facts.path = facts'.path := by
      have := (mem_factsKeys hkey').1
      simpa [fileKey] using this
    have hnodup : (pathsOf parsed).Nodup :=
      pathsOf_eq hu.facts ▸ (planned_of_basePlan hu.base).nodup_selected
    rw [← List.take_append_drop (i * batchFiles) parsed, pathsOf, List.map_append] at hnodup
    exact absurd (hpath ▸ List.mem_map_of_mem hfacts')
      (List.disjoint_of_nodup_append hnodup (List.mem_map_of_mem hfacts))

/-- **Facts that agree with the bytes** are published wherever the ingestion resumes. -/
theorem keyAt_iff (h : ∀ facts ∈ parsed.take (i * batchFiles), Agree plan facts)
    (key : ArtifactKey) :
    KeyAt project start plan parsed 0 key ↔ KeyAt project start plan parsed i key := by
  have hrecovers : ∀ facts ∈ parsed.take (i * batchFiles), key ∈ factsKeys project facts →
      plan.recovers key := by
    intro facts hfacts hkey
    obtain ⟨hsubject, hrevision, -⟩ := mem_factsKeys hkey
    simp only [Plan.recovers, hsubject, subjectFile, Bool.and_eq_true, decide_eq_true_eq]
    exact ⟨hu.path_mem_regenerated (List.mem_of_mem_take hfacts), hrevision ▸ h facts hfacts⟩
  have hsplit : (∃ facts ∈ parsed, key ∈ factsKeys project facts) ↔
      (∃ facts ∈ parsed.take (i * batchFiles), key ∈ factsKeys project facts) ∨
        ∃ facts ∈ parsed.drop (i * batchFiles), key ∈ factsKeys project facts := by
    conv_lhs => rw [← List.take_append_drop (i * batchFiles) parsed]
    simp only [List.mem_append, or_and_right, exists_or]
  unfold KeyAt
  rw [Nat.zero_mul, List.take_zero, List.drop_zero, hsplit]
  grind

/-- The facts of a selected file agree with its bytes if the revision of its text does. -/
theorem agree_iff (h : facts ∈ parsed) :
    Agree plan facts ↔
      sources.byteRevision tools facts.path = sources.textRevision tools facts.path := by
  obtain ⟨path, hpath, hparse⟩ := (mem_of_mapM_eq_ok hu.facts).1 h
  obtain ⟨rfl, hrevision⟩ := parse_eq_ok hparse
  rw [hrevision]
  exact (planned_of_basePlan hu.base).revisions_of_selected hpath

/-- **Every file is parsed once** if and only if the first attempt committed all batches. -/
theorem count_parsed_iff (h : Progress tools project start plan parsed first i attempts) :
    (∀ path ∈ plan.selected,
        (attempts.parsed ++ plan.selected.drop (i * batchFiles)).count path = 1) ↔
      first = (chunks batchFiles parsed).length := by
  have hnodup := (planned_of_basePlan hu.base).nodup_selected
  obtain ⟨rest, hparsed, hrest⟩ := h.exists_parsed hu
  rw [hparsed]
  constructor
  · intro hcount
    by_contra hne
    have hlt : first * batchFiles < plan.selected.length := by
      have hle := h.le.trans h.atBatch.1
      have hlength := hu.length_batches
      rw [batchFiles]
      omega
    -- the next file is parsed again by the second attempt
    have hmem : plan.selected[first * batchFiles] ∈ plan.selected.drop (first * batchFiles) := by
      rw [List.drop_eq_getElem_cons hlt]
      exact List.mem_cons_self
    have hone := hcount _ (List.mem_of_mem_drop hmem)
    rw [List.count_append, List.count_append] at hone
    have := List.count_pos_iff.2 hmem
    have := List.count_pos_iff.2 (List.mem_of_mem_drop hmem)
    omega
  · intro hfirst path hpath
    rw [hrest hfirst, List.append_nil, hu.drop_eq_nil hfirst.ge, List.append_nil]
    exact List.count_eq_one_of_mem hnodup hpath

end

end Uninterrupted

theorem mem_activeArtifacts (h : Published project plan keys store) : key ∈ store.activeArtifacts ↔
      key ∈ keys ∧ key.kind ≠ .callGraph ∨ key = graphKey project plan.sourceRevision := by
  obtain ⟨manifest, hmanifest, -, hmem⟩ := h.manifest
  unfold RedbArtifactStore.activeArtifacts
  rw [h.active, Option.bind_some, hmanifest]
  exact hmem key

theorem exists_uninterrupted {report : IngestionReport} (hs : start.Sound tools.blake3)
    (h : (ingest tools project sources scope start).result = .ok report)
    (hfirst : report.resumed = false) :
    ∃ plan parsed finish, Uninterrupted tools project sources scope start plan parsed finish := by
  obtain ⟨plan', parsed, finish, hplan, hparsed, hcommit⟩ := exists_of_ingest_ok h
  obtain ⟨keys, artifacts, -, hingest⟩ := ingest_of_commitAll hs hplan hparsed hcommit
    (fun _ (hnone : none = some _) => by cases hnone)
  have hresumed : plan'.resumed = report.resumed := by
    unfold ingest at h
    rw [hingest] at h
    dsimp only at h
    cases hpublished : (publishPlan tools project plan' keys finish).2 with
    | error e => rw [hpublished] at h; cases h
    | ok _ => rw [hpublished] at h; cases h; rfl
  obtain ⟨plan, hbase, rfl⟩ := exists_basePlan hplan
  have hexisting : plan.existing start = none := by
    rw [hfirst] at hresumed
    exact Option.isNone_iff_eq_none.1 (by simpa [Plan.resume] using hresumed)
  have hselected : (plan.resume (plan.existing start)).remaining = plan.selected := by
    simp [Plan.remaining, Plan.resume, hexisting]
  rw [hselected] at hparsed
  rw [commitAll_resume] at hcommit
  refine ⟨plan, parsed, finish, hs, hbase, hexisting, hparsed, ?_⟩
  rwa [hexisting] at hcommit

end Positions

/-! ## Resumption -/

section Resumption

variable {tools : Tools} {project : ProjectId} {sources : Sources} {scope : IngestionScope}
  {start finish : RedbArtifactStore} {plan : Plan} {parsed : List FileFacts}
  {report : IngestionReport} {attempts : Attempts} {i first : Nat}

theorem exists_publishPlan_of_map {report' : IngestionReport}
    (h : (publishPlan tools project plan keys finish).2.map (fun _ => report') = .ok report) :
    ∃ store', publishPlan tools project plan keys finish = (store', .ok ()) := by
  cases hpublished : publishPlan tools project plan keys finish with
  | mk store' result =>
    rw [hpublished] at h
    cases result with
    | error e => cases h
    | ok _ => exact ⟨store', rfl⟩

theorem Uninterrupted.take_parsed
    (hu : Uninterrupted tools project sources scope start plan parsed finish)
    (hi : (chunks batchFiles parsed).length ≤ i) : parsed.take (i * batchFiles) = parsed := by
  refine List.take_of_length_le ?_
  rw [hu.length_parsed]
  exact hu.length_selected_le.trans (Nat.mul_le_mul_right _ hi)

/-- **After interruptions** all is done once if and only if the first attempt committed all batches
and the facts agree with the bytes. -/
theorem Uninterrupted.resumes_iff_first
    (hu : Uninterrupted tools project sources scope start plan parsed finish)
    (hcompose : tools.Deterministic)
    (hfull : (ingest tools project sources scope start).result = .ok report)
    (h : Progress tools project start plan parsed first i attempts) :
    Resumes (ingest tools project sources scope start) attempts
        (ingest tools project sources scope attempts.store) ↔
      first = (chunks batchFiles parsed).length ∧ ∀ facts ∈ parsed, Agree plan facts := by
  obtain ⟨keys, report₀, hkeys, hingest⟩ := hu.exists_ingest atBatch_start
  obtain ⟨keys', report', hkeys', hingest'⟩ := hu.exists_ingest h.atBatch
  rw [hingest] at hfull ⊢
  rw [hingest', Nat.zero_mul, List.drop_zero]
  obtain ⟨store, hpublish⟩ := exists_publishPlan_of_map hfull
  obtain ⟨-, -, hpublished⟩ := published_of_publishPlan hpublish
  constructor
  · intro hresumes
    obtain ⟨report'', hok⟩ := hresumes.succeeds
    obtain ⟨store', hpublish'⟩ := exists_publishPlan_of_map hok
    obtain ⟨-, -, hpublished'⟩ := published_of_publishPlan hpublish'
    have hfirst := (hu.count_parsed_iff h).1 hresumes.parsed
    refine ⟨hfirst, fun facts hfacts => ?_⟩
    have hi : (chunks batchFiles parsed).length ≤ i := hfirst ▸ h.le
    have hkey : KeyAt project start plan parsed 0
        (fileKey project facts.path facts.revision .fileFacts) :=
      .inr (.inr ⟨facts, by simpa using hfacts, List.mem_map_of_mem (by decide)⟩)
    have hactive := (hresumes.artifacts (fileKey project facts.path facts.revision .fileFacts)).2
    rw [hpublish, hpublish', mem_activeArtifacts hpublished, mem_activeArtifacts hpublished', hkeys,
      hkeys'] at hactive
    refine hu.agree_of_keyAt (by rwa [hu.take_parsed hi]) (i := i) ?_
    exact ((hactive (.inl ⟨hkey, by simp [fileKey]⟩)).resolve_right
      (by simp [fileKey, graphKey])).1
  · rintro ⟨hfirst, hagree⟩
    have hsame : ∀ key, key ∈ keys ↔ key ∈ keys' := by
      intro key
      rw [hkeys, hkeys']
      exact hu.keyAt_iff (fun facts hfacts => hagree facts (List.mem_of_mem_take hfacts)) key
    obtain ⟨store', hpublish'⟩ := publishPlan_congr hcompose hsame hpublish
    obtain ⟨-, -, hpublished'⟩ := published_of_publishPlan hpublish'
    rw [hpublish, hpublish']
    constructor
    case succeeds => exact ⟨report', rfl⟩
    case generation => exact hpublished'.active.trans hpublished.active.symm
    case artifacts =>
      intro key
      rw [mem_activeArtifacts hpublished, mem_activeArtifacts hpublished', hsame]
    case parsed => exact (hu.count_parsed_iff h).2 hfirst
    case committed =>
      intro path hpath
      rw [h.committed, List.take_append_drop]
      exact List.count_eq_one_of_mem (planned_of_basePlan hu.base).nodup_selected hpath

end Resumption

/-- **Interrupted ingestion resumes to the same generation** if and only if there was no
interruption, or the first attempt committed all batches and the facts of every file have the
revision of its bytes. -/
theorem resumes_iff (tools : Tools) (hcompose : tools.Deterministic) (project : ProjectId)
    (sources : Sources) (scope : IngestionScope) (calls : List Call) (report : IngestionReport)
    (hfull : (ingest tools project sources scope (after tools.blake3 calls)).result = .ok report)
    (hfirst : report.resumed = false) (ks : List Nat) (attempts : Attempts)
    (hattempts : Run (Interrupted tools project sources scope) ⟨after tools.blake3 calls, [], []⟩ ks
      attempts) :
    Resumes (ingest tools project sources scope (after tools.blake3 calls)) attempts
        (ingest tools project sources scope attempts.store) ↔
      ∀ k, ks.head? = some k →
        (sources.toParse tools scope (after tools.blake3 calls)).length ≤ batchFiles * max k 1 ∧
        ∀ path ∈ sources.toParse tools scope (after tools.blake3 calls),
          sources.byteRevision tools path = sources.textRevision tools path := by
  obtain ⟨plan, parsed, finish, hu⟩ := exists_uninterrupted (sound_after calls) hfull hfirst
  have hplanned := planned_of_basePlan hu.base
  rw [← hplanned.selected]
  cases ks with
  | nil =>
    rw [run_nil_iff] at hattempts
    subst hattempts
    refine iff_of_true ?_ fun k hk => by cases hk
    have hcount : ∀ path ∈ plan.selected, plan.selected.count path = 1 := fun path hpath =>
      List.count_eq_one_of_mem hplanned.nodup_selected hpath
    obtain ⟨keys, report', -, hingest⟩ := hu.exists_ingest Uninterrupted.atBatch_start
    rw [Nat.zero_mul, List.drop_zero] at hingest
    refine ⟨⟨report, hfull⟩, rfl, fun key => Iff.rfl, ?_, ?_⟩
    · rw [hingest]
      exact hcount
    · rw [hingest]
      exact hcount
  | cons k ks =>
    obtain ⟨i, hprogress⟩ := hu.exists_progress hattempts
    rw [hu.resumes_iff_first hcompose hfull hprogress]
    have hlength : Uninterrupted.nextBatch parsed 0 k = (chunks batchFiles parsed).length ↔
        plan.selected.length ≤ batchFiles * max k 1 := by
      have := hu.length_batches
      have hfiles : batchFiles * max k 1 = 32 * max k 1 := rfl
      unfold Uninterrupted.nextBatch
      omega
    have hagree : (∀ facts ∈ parsed, Uninterrupted.Agree plan facts) ↔ ∀ path ∈ plan.selected,
        sources.byteRevision tools path = sources.textRevision tools path := by
      rw [← pathsOf_eq hu.facts]
      unfold pathsOf
      rw [List.forall_mem_map]
      exact forall₂_congr fun facts hfacts => hu.agree_iff hfacts
    rw [hlength, hagree]
    simp

/-- What a parser makes of a file without definitions. -/
def plainExtraction : Extraction := ⟨"python", [], [], [], []⟩

def plainHash : Blake3
  | [b] => BitVec.ofNat 256 b.toNat
  | _ => 0

/-- The codecs and the composer for one file without definitions. -/
def plainTools : Tools where
  blake3 := plainHash
  le _ _ := true
  debug := id
  encodeFacts facts := facts.source
  decodeFacts source :=
    .ok { plainExtraction with path := "a.py", revision := ⟨plainHash source⟩, source }
  encodeDefinitions _ := []
  encodeCalls _ := []
  encodeChunks _ := []
  encodeEdges _ := []
  compose _ := .ok []

def oneFile (bytes : List UInt8) : Sources where
  discovered := ["a.py"]
  nodup := List.nodup_singleton _
  read _ := .ok bytes
  isFileScopeSource path := path = "a.py"
  extract _ _ := .ok plainExtraction

/-- One interruption of the ingestion of one file. -/
def interruptedOnce (bytes : List UInt8) : Attempts :=
  Attempts.extend ⟨after plainTools.blake3 [], [], []⟩
    (ingestInterruptedAfter plainTools ⟨0⟩ (oneFile bytes) .project 1 (after plainTools.blake3 []))

theorem resumes_iff_text :
    Resumes (ingest plainTools ⟨0⟩ (oneFile [0x61]) .project (after plainTools.blake3 []))
      (interruptedOnce [0x61])
      (ingest plainTools ⟨0⟩ (oneFile [0x61]) .project (interruptedOnce [0x61]).store) := by
  refine (resumes_iff plainTools (fun _ _ _ => Iff.rfl) ⟨0⟩ (oneFile [0x61]) .project []
    ⟨1, 1, 6, false⟩ (by decide +kernel) rfl [1] (interruptedOnce [0x61])
    (.concat .nil ⟨by decide +kernel, rfl⟩)).2 fun k hk => ?_
  cases hk
  decide +kernel

/-- The keys of a committed file that is no UTF-8 text are lost when its ingestion resumes. -/
theorem resumes_not_utf8 :
    ¬ ∀ (tools : Tools), tools.Deterministic → ∀ (project : ProjectId) (sources : Sources)
      (scope : IngestionScope) (calls : List Call) (report : IngestionReport),
      (ingest tools project sources scope (after tools.blake3 calls)).result = .ok report →
      report.resumed = false → ∀ (ks : List Nat) (attempts : Attempts),
      Run (Interrupted tools project sources scope) ⟨after tools.blake3 calls, [], []⟩ ks attempts →
      Resumes (ingest tools project sources scope (after tools.blake3 calls)) attempts
        (ingest tools project sources scope attempts.store) := by
  intro h
  have hresumes := h plainTools (fun _ _ _ => Iff.rfl) ⟨0⟩ (oneFile [0xFF]) .project []
    ⟨1, 1, 6, false⟩ (by decide +kernel) rfl [1] (interruptedOnce [0xFF])
    (.concat .nil ⟨by decide +kernel, rfl⟩)
  have hkey := (hresumes.artifacts (fileKey ⟨0⟩ "a.py" ⟨0⟩ .fileFacts)).2 (by decide +kernel)
  revert hkey
  decide +kernel

end TldrCode.Store
