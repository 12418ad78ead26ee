import TldrCode.Store.Calls
import TldrCode.Store.Plans

/-!
# Batches and publication

The commits of the batches of a plan (`commitAll`), what they leave in the store (`Committing`), and
where the loop of an invocation stops. A publication depends on its keys as a set
(`publishPlan_congr`) and publishes them (`Published`).
-/

namespace TldrCode.Store

open Function (update)
open RedbArtifactStore

/-! ## Chunks -/

section Chunks

variable {α : Type} {size : Nat} {l : List α}

@[simp]
theorem length_chunks : (chunks size l).length = (l.length + (size - 1)) / size := by
  simp [chunks]

@[simp]
theorem getElem_chunks {i : Nat} (hi : i < (chunks size l).length) :
    (chunks size l)[i] = (l.drop (i * size)).take size := by
  simp [chunks]

theorem chunks_nil (hsize : 0 < size) : chunks size ([] : List α) = [] := by
  rw [← List.length_eq_zero_iff, length_chunks, List.length_nil, Nat.zero_add]
  exact Nat.div_eq_of_lt (by omega)

theorem chunks_drop (hsize : 0 < size) (i : Nat) :
    chunks size (l.drop (i * size)) = (chunks size l).drop i := by
  refine List.ext_getElem ?_ fun j hj hj' => ?_
  · rw [List.length_drop, length_chunks, length_chunks, List.length_drop]
    by_cases hle : i * size ≤ l.length
    · obtain ⟨k, hk⟩ := Nat.exists_eq_add_of_le hle
      rw [hk, Nat.add_sub_cancel_left, Nat.add_assoc, Nat.add_comm (i * size),
        Nat.add_mul_div_right _ _ hsize, Nat.add_sub_cancel]
    · have hlt : (l.length + (size - 1)) / size ≤ i := by
        rw [Nat.div_le_iff_le_mul_add_pred hsize]
        have := Nat.mul_comm i size
        omega
      rw [Nat.sub_eq_zero_of_le (by omega), Nat.zero_add, Nat.div_eq_of_lt (by omega)]
      omega
  · rw [List.getElem_drop, getElem_chunks, getElem_chunks, List.drop_drop, Nat.add_mul]

theorem chunks_eq_cons (hsize : 0 < size) (hl : l ≠ []) :
    chunks size l = l.take size :: chunks size (l.drop size) := by
  have hdrop : chunks size (l.drop size) = (chunks size l).drop 1 := by
    rw [← chunks_drop hsize, Nat.one_mul]
  have hpos : 0 < (chunks size l).length := by
    rw [length_chunks]
    have := List.length_pos_iff.2 hl
    exact Nat.div_pos (by omega) hsize
  have hhead : (chunks size l)[0] = l.take size := by simp
  rw [hdrop, ← hhead, ← List.drop_eq_getElem_cons hpos, List.drop_zero]

theorem flatten_chunks (hsize : 0 < size) : (chunks size l).flatten = l := by
  induction h : l.length using Nat.strong_induction_on generalizing l with
  | _ n ih =>
    by_cases hl : l = []
    · rw [hl, chunks_nil hsize, List.flatten_nil]
    · have hlt : (l.drop size).length < n := by
        have := List.length_pos_iff.2 hl
        rw [List.length_drop]
        omega
      rw [chunks_eq_cons hsize hl, List.flatten_cons, ih _ hlt rfl, List.take_append_drop]

theorem flatten_drop_chunks (hsize : 0 < size) (i : Nat) :
    ((chunks size l).drop i).flatten = l.drop (i * size) := by
  rw [← chunks_drop hsize, flatten_chunks hsize]

theorem flatten_take_chunks (hsize : 0 < size) (i : Nat) :
    ((chunks size l).take i).flatten = l.take (i * size) := by
  have happend : ((chunks size l).take i).flatten ++ l.drop (i * size) =
      l.take (i * size) ++ l.drop (i * size) := by
    rw [List.take_append_drop, ← flatten_drop_chunks hsize, ← List.flatten_append,
      List.take_append_drop, flatten_chunks hsize]
  exact List.append_cancel_right happend

end Chunks

/-! ## Commits -/

section Commits

variable (tools : Tools) (project : ProjectId)

def fileKinds : List ArtifactKind := [.fileFacts, .symbols, .references, .callEdges,
    .semanticChunks]

def factsKeys (facts : FileFacts) : List ArtifactKey :=
  fileKinds.map (fileKey project facts.path facts.revision)

/-- The commits of batches, counted from a number on. -/
def commitAll (plan : Plan) :
    List (List FileFacts) → Nat → RedbArtifactStore → Except StoreError RedbArtifactStore
  | [], _, store => .ok store
  | chunk :: chunks, index, store => do
    let store ← store.commitBatch tools.blake3 (batchOf tools project plan.generation chunk)
      (plan.job .commit (index + 1))
    commitAll plan chunks (index + 1) store

end Commits

variable {tools : Tools} {project : ProjectId} {sources : Sources}
  {store store' : RedbArtifactStore}
  {plan : Plan} {chunk : List FileFacts} {batches batches' : List (List FileFacts)} {index : Nat}
  {key : ArtifactKey} {facts : FileFacts}

theorem derive_map_key (tools : Tools) (generation : Nat) :
    (derive tools project generation facts).map (·.key) = factsKeys project facts := rfl

theorem mem_batchOf_keys {generation : Nat} :
    key ∈ (batchOf tools project generation chunk).artifacts.map (·.key) ↔
      ∃ facts ∈ chunk, key ∈ factsKeys project facts := by
  unfold batchOf sortArtifacts
  rw [List.mem_map]
  simp only [List.mem_insertionSort, List.mem_flatMap, ← derive_map_key tools generation,
    List.mem_map]
  grind

theorem commitAll_append :
    commitAll tools project plan (batches ++ batches') index store = .ok store' ↔
      ∃ middle, commitAll tools project plan batches index store = .ok middle ∧
        commitAll tools project plan batches' (index + batches.length) middle = .ok store' := by
  induction batches generalizing index store with
  | nil => simp [commitAll]
  | cons chunk batches ih =>
    rw [List.cons_append, commitAll, commitAll, List.length_cons]
    cases store.commitBatch tools.blake3 (batchOf tools project plan.generation chunk)
        (plan.job .commit (index + 1)) with
    | error e =>
      constructor
      · intro h
        cases h
      · rintro ⟨middle, h, -⟩
        cases h
    | ok next =>
      change commitAll tools project plan (batches ++ batches') (index + 1) next = _ ↔
        ∃ middle, commitAll tools project plan batches (index + 1) next = _ ∧ _
      rw [ih, Nat.add_assoc index 1, Nat.add_comm 1]

structure Committing (tools : Tools) (project : ProjectId) (plan : Plan)
    (batches : List (List FileFacts)) (index : Nat) (store store' : RedbArtifactStore) : Prop where
  active : store'.activeGeneration = store.activeGeneration
  generations : store'.generations = store.generations
  sound : store.Sound tools.blake3 → store'.Sound tools.blake3
  links : ∀ g key, key ∈ store'.links g ↔
    key ∈ store.links g ∨ g = plan.generation ∧
      ∃ facts ∈ batches.flatten, key ∈ factsKeys project facts
  job : batches ≠ [] →
    store'.jobs plan.jobId = some (plan.job .commit (index + batches.length))

theorem committing_of_commitAll
    (h : commitAll tools project plan batches index store = .ok store') :
    Committing tools project plan batches index store store' := by
  induction batches generalizing index store with
  | nil =>
    cases h
    exact ⟨rfl, rfl, id, by simp, fun h => absurd rfl h⟩
  | cons chunk batches ih =>
    rw [commitAll] at h
    cases hcommit : store.commitBatch tools.blake3 (batchOf tools project plan.generation chunk)
        (plan.job .commit (index + 1)) with
    | error e => rw [hcommit] at h; cases h
    | ok next =>
      rw [hcommit] at h
      have heffect : Effect tools.blake3 store (.commitBatch _ _) next := apply_eq_ok_iff.1 hcommit
      have hrest := ih h
      constructor
      case active => cases heffect; exact hrest.active
      case generations => cases heffect; exact hrest.generations
      case sound => exact fun hs => hrest.sound (hs.effect heffect)
      case links =>
        intro g key
        have hgeneration : (batchOf tools project plan.generation chunk).generation =
          plan.generation := rfl
        rw [hrest.links, heffect.mem_links, or_assoc, Call.generation, Call.linked,
          mem_batchOf_keys, hgeneration, ← and_or_left]
        simp only [List.flatten_cons, List.mem_append, or_and_right, exists_or]
      case job =>
        intro _
        cases batches with
        | nil =>
          cases h
          cases heffect
          exact Function.update_self ..
        | cons chunk' batches =>
          have hlength : index + 1 + (chunk' :: batches).length =
              index + (chunk :: chunk' :: batches).length := by
            simp only [List.length_cons]
            omega
          rw [hrest.job (List.cons_ne_nil _ _), hlength]

def pathsOf (facts : List FileFacts) : List String := facts.map (·.path)

variable {limit : Option Nat} {offset k m : Nat} {keys keys' : List ArtifactKey}

theorem exists_commitAll_of_commitBatches
    (h : (commitBatches tools project plan none batches offset store).result = .ok keys) :
    ∃ store', commitAll tools project plan batches (plan.nextBatch + offset) store =
      .ok store' := by
  induction batches generalizing offset store keys with
  | nil => exact ⟨store, rfl⟩
  | cons chunk batches ih =>
    rw [commitBatches] at h
    dsimp only at h
    rw [commitAll]
    cases hcommit : store.commitBatch tools.blake3 (batchOf tools project plan.generation chunk)
        (plan.job .commit (plan.nextBatch + offset + 1)) with
    | error e => rw [hcommit] at h; cases h
    | ok next =>
      rw [hcommit] at h
      cases hrest : (commitBatches tools project plan none batches (offset + 1) next).result with
      | error e =>
        simp only [Option.any_none, Bool.false_eq_true, if_false, hrest] at h
        cases h
      | ok keys => exact ih hrest

theorem commitBatches_of_commitAll
    (h : commitAll tools project plan batches (plan.nextBatch + offset) store = .ok store')
    (hlimit : ∀ k, limit = some k → offset + batches.length < max k (offset + 1)) :
    ∃ keys, commitBatches tools project plan limit batches offset store =
        ⟨store', pathsOf batches.flatten, .ok keys⟩ ∧
      ∀ key, key ∈ keys ↔ ∃ facts ∈ batches.flatten, key ∈ factsKeys project facts := by
  induction batches generalizing offset store with
  | nil =>
    cases h
    exact ⟨[], rfl, by simp⟩
  | cons chunk batches ih =>
    rw [commitAll] at h
    rw [commitBatches]
    dsimp only
    cases hcommit : store.commitBatch tools.blake3 (batchOf tools project plan.generation chunk)
        (plan.job .commit (plan.nextBatch + offset + 1)) with
    | error e => rw [hcommit] at h; cases h
    | ok next =>
      rw [hcommit] at h
      have hcontinue : limit.any (· ≤ offset + 1) = false := by
        cases limit with
        | none => rfl
        | some k =>
          have := hlimit k rfl
          rw [List.length_cons] at this
          exact decide_eq_false (by omega)
      obtain ⟨keys, hloop, hkeys⟩ := @ih next (offset + 1) h fun k hk => by
        have := hlimit k hk
        rw [List.length_cons] at this
        omega
      refine ⟨(batchOf tools project plan.generation chunk).artifacts.map (·.key) ++ keys, ?_, ?_⟩
      · dsimp only
        rw [hcontinue, hloop]
        simp [pathsOf, Except.map]
      · intro key
        rw [List.mem_append, mem_batchOf_keys, hkeys]
        simp only [List.flatten_cons, List.mem_append, or_and_right, exists_or]

/-- **Where the loop stops** that is limited. -/
theorem commitBatches_of_stopped
    (h : commitAll tools project plan (batches.take m) (plan.nextBatch + offset) store = .ok store')
    (hm : m ≤ batches.length) (hpos : 0 < m) (hk : offset + m = max k (offset + 1)) :
    commitBatches tools project plan (some k) batches offset store =
      ⟨store', pathsOf (batches.take m).flatten, .error interruption⟩ := by
  induction batches generalizing offset store m with
  | nil => simp at hm; omega
  | cons chunk batches ih =>
    obtain ⟨m, rfl⟩ := Nat.exists_eq_add_of_lt hpos
    rw [Nat.zero_add, List.take_succ_cons, commitAll] at h
    rw [commitBatches]
    dsimp only
    cases hcommit : store.commitBatch tools.blake3 (batchOf tools project plan.generation chunk)
        (plan.job .commit (plan.nextBatch + offset + 1)) with
    | error e => rw [hcommit] at h; cases h
    | ok next =>
      rw [hcommit] at h
      dsimp only
      by_cases hstop : k ≤ offset + 1
      · have hm : m = 0 := by omega
        subst hm
        cases h
        rw [if_pos (by simpa using hstop)]
        simp [pathsOf]
      · rw [List.length_cons] at hm
        have hrest := @ih next (offset + 1) m h (by omega) (by omega) (by omega)
        rw [if_neg (by simpa using hstop), hrest]
        simp [pathsOf, Except.map]

/-! ## Publication -/

@[simp]
theorem mem_sortKeys {debug : String → String} : key ∈ sortKeys debug keys ↔ key ∈ keys := by
  unfold sortKeys
  rw [mem_destutter, List.mem_insertionSort]

/-- Whether the composer fails depends on the files that it is given, as a set. -/
def Tools.Deterministic (tools : Tools) : Prop :=
  ∀ inputs inputs', (∀ input, input ∈ inputs ↔ input ∈ inputs') →
    ((tools.compose inputs).isOk ↔ (tools.compose inputs').isOk)

def composed (tools : Tools) (keys : List ArtifactKey) (store : RedbArtifactStore) :
    Except StoreError (List ProjectCallEdgeFact) :=
  ((sortKeys tools.debug keys).filter (·.kind = .fileFacts)).mapM (callInput tools store) >>=
    tools.compose

structure Published (project : ProjectId) (plan : Plan) (keys : List ArtifactKey)
    (store : RedbArtifactStore) : Prop where
  active : store.activeGeneration = some plan.generation
  manifest : ∃ manifest, store.generations plan.generation = some manifest ∧
    manifest.sourceRevision = plan.sourceRevision ∧
    ∀ key, key ∈ manifest.artifacts ↔
      key ∈ keys ∧ key.kind ≠ .callGraph ∨ key = graphKey project plan.sourceRevision
  graph : ∃ graph, store.records (graphKey project plan.sourceRevision) = some graph ∧
    ∀ key, key ∈ graph.dependencies ↔ key ∈ keys ∧ key.kind = .fileFacts

/-- What a publication needs, apart from the composer. -/
structure Publishable (project : ProjectId) (plan : Plan) (keys : List ArtifactKey)
    (store : RedbArtifactStore) : Prop where
  generation : plan.generation ≠ 0
  checkpoint : ∀ existing, store.jobs plan.jobId = some existing →
    ¬ badTransition existing (plan.job .validation plan.totalBatches)
  active : ∀ active, store.activeGeneration = some active → active < plan.generation
  records : ∀ key ∈ keys, key.kind ≠ .callGraph → key ≠ graphKey project plan.sourceRevision →
    (store.records key).isSome
  new : store.generations plan.generation = none

def graphOf (tools : Tools) (project : ProjectId) (plan : Plan) (keys : List ArtifactKey)
    (calls : List ProjectCallEdgeFact) : ArtifactEnvelope :=
  .new tools.blake3 (graphKey project plan.sourceRevision) plan.generation
    ((sortKeys tools.debug keys).filter (·.kind = .fileFacts)) (tools.encodeEdges calls)

def manifestOf (tools : Tools) (project : ProjectId) (plan : Plan) (keys : List ArtifactKey) :
    GenerationManifest where
  generation := plan.generation
  project
  sourceRevision := plan.sourceRevision
  artifacts := (sortKeys tools.debug keys).filter (·.kind ≠ .callGraph) ++
    [graphKey project plan.sourceRevision]
  vectorGeneration := none

variable {graph : ArtifactEnvelope} {calls : List ProjectCallEdgeFact}

theorem isSome_insertRecords {records : ArtifactKey → Option ArtifactEnvelope} :
    (insertRecords records [graph] key).isSome ↔ key = graph.key ∨ (records key).isSome := by
  rw [insertRecords_apply, Option.isSome_or, Bool.or_eq_true]
  refine or_congr_left ?_
  rw [List.reverse_singleton, List.find?_isSome]
  simp only [List.mem_singleton, decide_eq_true_eq, exists_eq_left]
  exact eq_comm

/-- **The calls of a publication.** -/
theorem publishPlan_eq_ok_iff : publishPlan tools project plan keys store = (store', .ok ()) ↔
    ∃ calls store₁ store₂, composed tools keys store = .ok calls ∧
      Effect tools.blake3 store (.commitBatch
        ⟨plan.generation, [graphOf tools project plan keys calls]⟩
        (plan.job .validation plan.totalBatches)) store₁ ∧
      Effect tools.blake3 store₁ (.publish (manifestOf tools project plan keys)) store₂ ∧
      Effect tools.blake3 store₂ (.commitBatch ⟨plan.generation, []⟩
        (plan.job .published plan.totalBatches)) store' := by
  simp only [← apply_eq_ok_iff, Call.apply]
  constructor
  · intro h
    unfold publishPlan at h
    dsimp only at h
    split at h
    · cases h
    · next calls hcalls =>
      split at h
      · cases h
      · next store₁ hcommit =>
        split at h
        · cases h
        · next store₂ hpublish =>
          split at h
          · cases h
          · next store₃ hlast =>
            cases h
            exact ⟨calls, store₁, store₂, hcalls, hcommit, hpublish, hlast⟩
  · rintro ⟨calls, store₁, store₂, hcalls, hcommit, hpublish, hlast⟩
    unfold publishPlan
    dsimp only
    unfold composed at hcalls
    unfold graphOf at hcommit
    unfold manifestOf at hpublish
    rw [hcalls]
    dsimp only
    rw [hcommit]
    dsimp only
    rw [hpublish]
    dsimp only
    rw [hlast]

theorem mem_manifestOf : key ∈ (manifestOf tools project plan keys).artifacts ↔
    key ∈ keys ∧ key.kind ≠ .callGraph ∨ key = graphKey project plan.sourceRevision := by
  simp [manifestOf]

theorem published_of_publishPlan
    (h : publishPlan tools project plan keys store = (store', .ok ())) :
    Publishable project plan keys store ∧ (∃ calls, composed tools keys store = .ok calls) ∧
      Published project plan keys store' := by
  obtain ⟨calls, store₁, store₂, hcalls, hcommit, hpublish, hlast⟩ := publishPlan_eq_ok_iff.1 h
  refine ⟨?_, ⟨calls, hcalls⟩, ?_⟩
  · cases hcommit with
    | commitBatch _ _ hgeneration hjob hvalid hcheckpoint =>
      cases hpublish with
      | publish _ hgeneration' hactive' hrecords' hnew =>
        refine ⟨hgeneration, hcheckpoint, hactive', fun key hkey hkind hgraph => ?_, hnew⟩
        have := hrecords' key (mem_manifestOf.2 (.inl ⟨hkey, hkind⟩))
        exact (isSome_insertRecords.1 this).resolve_left hgraph
  · constructor
    case active =>
      cases hpublish
      cases hlast
      rfl
    case manifest =>
      cases hpublish
      cases hlast
      exact ⟨_, Function.update_self .., rfl, fun key => mem_manifestOf⟩
    case graph =>
      refine ⟨graphOf tools project plan keys calls, ?_, by simp [graphOf, ArtifactEnvelope.new]⟩
      have hrecords₂ : store₂.records = store₁.records := by cases hpublish; rfl
      rw [hlast.records_eq, hrecords₂, hcommit.records_eq]
      exact Function.update_self ..

/-- **A publication succeeds** on what it needs. -/
theorem publishPlan_of_publishable (hp : Publishable project plan keys store)
    (hcalls : composed tools keys store = .ok calls) :
    ∃ store', publishPlan tools project plan keys store = (store', .ok ()) := by
  have hvalid : ∀ artifact ∈ [graphOf tools project plan keys calls],
      artifact.generation = plan.generation ∧ artifact.isValid tools.blake3 := by
    intro artifact hartifact
    rw [List.mem_singleton.1 hartifact]
    exact ⟨rfl, ArtifactEnvelope.isValid_new.2 (Nat.pos_of_ne_zero hp.generation)⟩
  obtain ⟨store₁, hcommit⟩ : ∃ store₁, Effect tools.blake3 store
      (.commitBatch ⟨plan.generation, [graphOf tools project plan keys calls]⟩
        (plan.job .validation plan.totalBatches)) store₁ :=
    ⟨_, .commitBatch _ _ hp.generation rfl hvalid hp.checkpoint⟩
  have hactive : store₁.activeGeneration = store.activeGeneration := by cases hcommit; rfl
  have hgenerations : store₁.generations = store.generations := by cases hcommit; rfl
  have hrecords : ∀ key ∈ (manifestOf tools project plan keys).artifacts,
      (store₁.records key).isSome := by
    intro key hkey
    rw [hcommit.records_eq]
    refine isSome_insertRecords.2 ?_
    by_cases hgraph : key = graphKey project plan.sourceRevision
    · exact .inl hgraph
    · have hold := (mem_manifestOf.1 hkey).resolve_right hgraph
      exact .inr (hp.records key hold.1 hold.2 hgraph)
  obtain ⟨store₂, hpublish⟩ : ∃ store₂, Effect tools.blake3 store₁
      (.publish (manifestOf tools project plan keys)) store₂ :=
    ⟨_, .publish _ hp.generation (hactive ▸ hp.active) hrecords (hgenerations ▸ hp.new)⟩
  have hjob : store₂.jobs plan.jobId = some (plan.job .validation plan.totalBatches) := by
    cases hpublish
    cases hcommit
    exact Function.update_self ..
  have hcheckpoint : ∀ existing, store₂.jobs plan.jobId = some existing →
      ¬ badTransition existing (plan.job .published plan.totalBatches) := by
    intro existing hexisting
    rw [hjob] at hexisting
    cases hexisting
    simp [badTransition, Plan.job]
  exact ⟨_, publishPlan_eq_ok_iff.2 ⟨calls, store₁, store₂, hcalls, hcommit, hpublish,
    .commitBatch _ _ hp.generation rfl (fun _ h => absurd h List.not_mem_nil) hcheckpoint⟩⟩

theorem commitBatch_ne_interruption {batch : ArtifactBatch} {job : IngestionJob} :
    store.commitBatch tools.blake3 batch job ≠ .error interruption := by
  unfold RedbArtifactStore.commitBatch
  split_ifs <;> simp [storeError, interruption, ingestionError]

theorem publish_ne_interruption {manifest : GenerationManifest} :
    store.publish manifest ≠ .error interruption := by
  unfold RedbArtifactStore.publish
  split_ifs <;> simp [storeError, interruption, ingestionError]

theorem publishPlan_of_interruption
    (h : (publishPlan tools project plan keys store).2 = .error interruption) :
    (publishPlan tools project plan keys store).1 = store := by
  unfold publishPlan at h ⊢
  dsimp only at h ⊢
  split
  · rfl
  · next calls hcalls =>
    rw [hcalls] at h
    dsimp only at h
    split
    · rfl
    · next store₁ hcommit =>
      rw [hcommit] at h
      dsimp only at h
      split at h
      · next e he =>
        cases h
        exact absurd he publish_ne_interruption
      · split at h
        · next e he =>
          cases h
          exact absurd he commitBatch_ne_interruption
        · cases h

theorem exists_composed (hcompose : tools.Deterministic) (hkeys : ∀ key, key ∈ keys ↔ key ∈ keys')
    (h : composed tools keys store = .ok calls) :
    ∃ calls', composed tools keys' store = .ok calls' := by
  have hmem : ∀ key, key ∈ (sortKeys tools.debug keys').filter (·.kind = .fileFacts) ↔
      key ∈ (sortKeys tools.debug keys).filter (·.kind = .fileFacts) := by
    intro key
    rw [List.mem_filter, List.mem_filter, mem_sortKeys, mem_sortKeys, hkeys]
  unfold composed at h ⊢
  cases hinputs : ((sortKeys tools.debug keys).filter (·.kind = .fileFacts)).mapM
      (callInput tools store) with
  | error e => rw [hinputs] at h; cases h
  | ok inputs =>
    rw [hinputs] at h
    obtain ⟨inputs', hinputs'⟩ := exists_mapM_eq_ok (f := callInput tools store) fun key hkey => by
      obtain ⟨input, -, hinput⟩ := exists_ok_of_mem hinputs ((hmem key).1 hkey)
      exact ⟨input, hinput⟩
    have hsame : ∀ input, input ∈ inputs ↔ input ∈ inputs' := by
      intro input
      rw [mem_of_mapM_eq_ok hinputs, mem_of_mapM_eq_ok hinputs']
      simp only [hmem]
    have hok := (hcompose inputs inputs' hsame).1 (by
      change tools.compose inputs = _ at h
      rw [h]
      rfl)
    rw [hinputs']
    change ∃ calls', tools.compose inputs' = _
    cases hcalls : tools.compose inputs' with
    | error e => rw [hcalls] at hok; cases hok
    | ok calls' => exact ⟨calls', rfl⟩

/-- **A publication succeeds on the same keys** in any order. -/
theorem publishPlan_congr (hcompose : tools.Deterministic) (hkeys : ∀ key, key ∈ keys ↔ key ∈ keys')
    (h : publishPlan tools project plan keys store = (store', .ok ())) :
    ∃ store', publishPlan tools project plan keys' store = (store', .ok ()) := by
  obtain ⟨hp, ⟨calls, hcalls⟩, -⟩ := published_of_publishPlan h
  obtain ⟨calls', hcalls'⟩ := exists_composed hcompose hkeys hcalls
  exact publishPlan_of_publishable
    ⟨hp.generation, hp.checkpoint, hp.active, fun key hkey => hp.records key ((hkeys key).2 hkey),
      hp.new⟩ hcalls'

/-! ## Invocations -/

theorem exists_recovered (plan : Plan) (hs : store.Sound tools.blake3) :
    ∃ recovered, plan.recovered tools store = .ok recovered ∧
      ∀ key, key ∈ recovered ↔ key ∈ store.links plan.generation ∧ plan.recovers key := by
  obtain ⟨artifacts, hartifacts⟩ := exists_mapM_eq_ok (l := allArtifactKinds)
    (f := store.artifacts tools.blake3 tools.le plan.generation) fun kind _ =>
      (hs.exists_artifacts tools.le plan.generation kind).imp fun _ h => h.1
  refine ⟨(artifacts.flatten.map (·.key)).filter plan.recovers, ?_, fun key => ?_⟩
  · unfold Plan.recovered
    rw [hartifacts]
    rfl
  · rw [List.mem_filter, List.mem_map]
    refine and_congr_left fun _ => ⟨?_, fun hkey => ?_⟩
    · rintro ⟨envelope, henvelope, rfl⟩
      obtain ⟨envelopes, henvelopes, hmem⟩ := List.mem_flatten.1 henvelope
      obtain ⟨kind, -, hkind⟩ := (mem_of_mapM_eq_ok hartifacts).1 henvelopes
      obtain ⟨envelopes', hok, -, hiff⟩ := hs.exists_artifacts tools.le plan.generation kind
      rw [hkind] at hok
      cases hok
      obtain ⟨key, hkey, -, hrecord⟩ := (hiff envelope).1 hmem
      rwa [(hs.record key envelope hrecord).1]
    · obtain ⟨envelope, henvelope⟩ := Option.isSome_iff_exists.1 (hs.linked _ key hkey)
      obtain ⟨envelopes, hok, -, hiff⟩ := hs.exists_artifacts tools.le plan.generation key.kind
      obtain ⟨envelopes', hmem, hok'⟩ := exists_ok_of_mem hartifacts (a := key.kind) (by
        cases key.kind <;> decide)
      rw [hok] at hok'
      cases hok'
      exact ⟨envelope, List.mem_flatten.2 ⟨envelopes, hmem,
        (hiff envelope).2 ⟨key, hkey, rfl, henvelope⟩⟩, (hs.record key envelope henvelope).1⟩

section Invocation

variable {scope : IngestionScope} {parsed : List FileFacts} {report : IngestionReport}
  {path : String}

theorem parse_eq_ok (h : parse tools sources path = .ok facts) :
    facts.path = path ∧ sources.textRevision tools path = .ok facts.revision := by
  unfold parse at h
  unfold Sources.textRevision
  cases hread : sources.read path with
  | error e => rw [hread] at h; cases h
  | ok bytes =>
    rw [hread] at h
    change (sources.extract path (fromUtf8Lossy bytes) >>= fun extraction => _) = _ at h
    cases hextract : sources.extract path (fromUtf8Lossy bytes) with
    | error e => rw [hextract] at h; cases h
    | ok extraction =>
      rw [hextract] at h
      cases h
      exact ⟨rfl, rfl⟩

theorem pathsOf_eq {paths : List String} (h : paths.mapM (parse tools sources) = .ok parsed) :
    pathsOf parsed = paths := by
  rw [mapM_eq_ok_iff] at h
  induction h with
  | nil => rfl
  | cons hfacts _ ih =>
    unfold pathsOf at ih ⊢
    rw [List.map_cons, ih, (parse_eq_ok hfacts).1]

section

variable (hs : store.Sound tools.blake3) (hplan : makePlan tools sources scope store = .ok plan)
  (hparsed : plan.remaining.mapM (parse tools sources) = .ok parsed)
include hs hplan hparsed

/-- **An invocation whose loop is not stopped** publishes what it carries over, what it recovers and
what it commits. -/
theorem ingest_of_commitAll
    (hcommit : commitAll tools project plan (chunks batchFiles parsed) plan.nextBatch store =
      .ok store') (hlimit : ∀ k, limit = some k → (chunks batchFiles parsed).length < max k 1) :
    ∃ keys artifacts, (∀ key, key ∈ keys ↔ key ∈ plan.carried ∨
        (key ∈ store.links plan.generation ∧ plan.recovers key) ∨
        ∃ facts ∈ parsed, key ∈ factsKeys project facts) ∧
      ingestWithBatchLimit tools project sources scope limit store =
        ⟨(publishPlan tools project plan keys store').1, plan.remaining, plan.remaining,
          (publishPlan tools project plan keys store').2.map fun _ =>
            ⟨plan.generation, plan.remaining.length, artifacts, plan.resumed⟩⟩ := by
  obtain ⟨recovered, hrecovered, hmem⟩ := exists_recovered plan hs
  obtain ⟨keys, hloop, hkeys⟩ := commitBatches_of_commitAll hcommit
    (by simpa using hlimit : ∀ k, limit = some k → 0 + _ < max k (0 + 1))
  rw [flatten_chunks (by decide)] at hloop hkeys
  refine ⟨plan.carried ++ recovered ++ keys, keys.length + 1, fun key => ?_, ?_⟩
  · rw [List.mem_append, List.mem_append, hmem, hkeys, or_assoc]
  · unfold ingestWithBatchLimit
    rw [hplan]
    dsimp only
    rw [hparsed]
    dsimp only
    rw [hrecovered]
    dsimp only
    rw [hloop, pathsOf_eq hparsed]

/-- **An invocation whose loop is stopped** leaves the batches that it committed. -/
theorem ingest_of_stopped (hk : max k 1 ≤ (chunks batchFiles parsed).length)
    (hcommit : commitAll tools project plan ((chunks batchFiles parsed).take (max k 1))
      plan.nextBatch store = .ok store') :
    ingestWithBatchLimit tools project sources scope (some k) store =
      ⟨store', plan.remaining, plan.remaining.take (max k 1 * batchFiles),
        .error interruption⟩ := by
  obtain ⟨recovered, hrecovered, -⟩ := exists_recovered plan hs
  have hloop := commitBatches_of_stopped hcommit hk (by omega)
    (Nat.zero_add _ : 0 + max k 1 = max k (0 + 1))
  unfold ingestWithBatchLimit
  rw [hplan]
  dsimp only
  rw [hparsed]
  dsimp only
  rw [hrecovered]
  dsimp only
  rw [hloop, flatten_take_chunks (by decide), ← pathsOf_eq hparsed]
  unfold pathsOf
  rw [List.map_take]

end

theorem exists_of_ingest_ok
    (h : (ingest tools project sources scope store).result = .ok report) :
    ∃ plan parsed store', makePlan tools sources scope store = .ok plan ∧
      plan.remaining.mapM (parse tools sources) = .ok parsed ∧
      commitAll tools project plan (chunks batchFiles parsed) plan.nextBatch store =
        .ok store' := by
  unfold ingest ingestWithBatchLimit at h
  split at h
  · cases h
  · next plan hplan =>
    split at h
    · cases h
    · next parsed hparsed =>
      split at h
      · cases h
      · dsimp only at h
        split at h
        · cases h
        · next keys hkeys =>
          obtain ⟨store', hcommit⟩ := exists_commitAll_of_commitBatches hkeys
          exact ⟨plan, parsed, store', hplan, hparsed, hcommit⟩

end Invocation

end TldrCode.Store
