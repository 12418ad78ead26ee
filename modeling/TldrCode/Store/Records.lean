import TldrCode.Store.Scopes

/-!
# Records

An invocation makes no calls but those that commit what it derives from its sources, the call graph
and its checkpoints (`invocationCalls`). So in the store of the program a record of the facts of a
file holds encoded facts that the parser made of it, and that of a call graph encoded edges
(`recorded_stored`).
-/

namespace TldrCode.Store

open RedbArtifactStore

variable {tools : Tools} {project : ProjectId} {sources : Sources} {trees : List Sources}
  {scope : IngestionScope} {store store' store'' : RedbArtifactStore} {call : Call} {plan : Plan}
  {limit : Option Nat} {keys : List ArtifactKey} {batches : List (List FileFacts)}
  {blake3 : Blake3} {P : Call → Prop}

/-! ## Calls -/

/-- Calls with a property lead from a store to another. -/
def Reaches (blake3 : Blake3) (P : Call → Prop) (store store' : RedbArtifactStore) : Prop :=
  ∃ calls : List Call, (∀ call ∈ calls, P call) ∧ store' = calls.foldl (perform blake3) store

namespace Reaches

theorem refl : Reaches blake3 P store store := ⟨[], by simp, rfl⟩

theorem apply (hcall : P call) (h : call.apply blake3 store = .ok store') :
    Reaches blake3 P store store' := by
  refine ⟨[call], by simpa using hcall, ?_⟩
  rw [List.foldl_cons, List.foldl_nil, perform, h]

theorem trans (h : Reaches blake3 P store store') (h' : Reaches blake3 P store' store'') :
    Reaches blake3 P store store'' := by
  obtain ⟨calls, hcalls, rfl⟩ := h
  obtain ⟨calls', hcalls', rfl⟩ := h'
  refine ⟨calls ++ calls', fun call hcall => ?_, (List.foldl_append ..).symm⟩
  exact (List.mem_append.1 hcall).elim (hcalls call) (hcalls' call)

theorem invariant {I : RedbArtifactStore → Prop}
    (hstep : ∀ store call, P call → I store → I (store.perform blake3 call))
    (h : Reaches blake3 P store store') (hI : I store) : I store' := by
  obtain ⟨calls, hcalls, rfl⟩ := h
  induction calls generalizing store with
  | nil => exact hI
  | cons call calls ih =>
    rw [List.forall_mem_cons] at hcalls
    exact ih (hstep store call hcalls.1 hI) hcalls.2

end Reaches

def graphArtifact (tools : Tools) (project : ProjectId) (generation : Nat)
    (sourceRevision : RevisionId) (dependencies : List ArtifactKey)
    (calls : List ProjectCallEdgeFact) : ArtifactEnvelope :=
  .new tools.blake3 (graphKey project sourceRevision) generation dependencies
    (tools.encodeEdges calls)

inductive InvocationCall (tools : Tools) (project : ProjectId) (sources : Sources) : Call → Prop
  | batch (generation : Nat) (chunk : List FileFacts) (job : IngestionJob)
    (hchunk : ∀ facts ∈ chunk, ∃ path, parse tools sources path = .ok facts) :
    InvocationCall tools project sources (.commitBatch (batchOf tools project generation chunk) job)
  | graph (generation : Nat) (sourceRevision : RevisionId) (dependencies : List ArtifactKey)
    (inputs : List (String × List UInt8)) (calls : List ProjectCallEdgeFact) (job : IngestionJob)
    (hcompose : tools.compose inputs = .ok calls) :
    InvocationCall tools project sources (.commitBatch
      ⟨generation, [graphArtifact tools project generation sourceRevision dependencies calls]⟩ job)
  | publish (manifest : GenerationManifest) :
    InvocationCall tools project sources (.publish manifest)
  | finish (generation : Nat) (job : IngestionJob) :
    InvocationCall tools project sources (.commitBatch ⟨generation, []⟩ job)

theorem reaches_commitBatches (plan : Plan) (limit : Option Nat) (offset : Nat)
    (hfacts : ∀ facts ∈ batches.flatten, ∃ path, parse tools sources path = .ok facts) :
    Reaches tools.blake3 (InvocationCall tools project sources) store
      (commitBatches tools project plan limit batches offset store).store := by
  induction batches generalizing offset store with
  | nil => exact .refl
  | cons chunk batches ih =>
    rw [List.flatten_cons, List.forall_mem_append] at hfacts
    rw [commitBatches]
    dsimp only
    cases hcommit : store.commitBatch tools.blake3 (batchOf tools project plan.generation chunk)
        (plan.job .commit (plan.nextBatch + offset + 1)) with
    | error e => exact .refl
    | ok next =>
      have hnext : Reaches tools.blake3 (InvocationCall tools project sources) store next :=
        .apply (.batch plan.generation chunk _ hfacts.1) hcommit
      dsimp only
      split_ifs
      · exact hnext
      · exact hnext.trans (ih (offset + 1) hfacts.2)

theorem reaches_publishPlan :
    Reaches tools.blake3 (InvocationCall tools project sources) store
      (publishPlan tools project plan keys store).1 := by
  unfold publishPlan
  dsimp only
  split
  · exact .refl
  · next calls hcalls =>
    -- what was composed is of what the files contribute
    obtain ⟨inputs, hcompose⟩ : ∃ inputs, tools.compose inputs = .ok calls := by
      revert hcalls
      generalize ((sortKeys tools.debug keys).filter (·.kind = .fileFacts)).mapM
        (callInput tools store) = inputs
      cases inputs with
      | error e => exact fun h => by cases h
      | ok inputs => exact fun h => ⟨inputs, h⟩
    split
    · exact .refl
    · next store₁ hcommit =>
      have h₁ : Reaches tools.blake3 (InvocationCall tools project sources) store store₁ :=
        .apply (.graph plan.generation plan.sourceRevision _ inputs calls _ hcompose) hcommit
      split
      · exact h₁
      · next store₂ hpublish =>
        have h₂ := h₁.trans (.apply (.publish _) hpublish)
        split
        · exact h₂
        · next store₃ hlast => exact h₂.trans (.apply (.finish plan.generation _) hlast)

/-- **The calls of an invocation.** -/
theorem invocationCalls (tools : Tools) (project : ProjectId) (sources : Sources)
    (scope : IngestionScope) (limit : Option Nat) (store : RedbArtifactStore) :
    Reaches tools.blake3 (InvocationCall tools project sources) store
      (ingestWithBatchLimit tools project sources scope limit store).store := by
  unfold ingestWithBatchLimit
  split
  · exact .refl
  · next plan hplan =>
    split
    · exact .refl
    · next parsed hparsed =>
      split
      · exact .refl
      · next recovered hrecovered =>
        have hbatches : Reaches tools.blake3 (InvocationCall tools project sources) store
            (commitBatches tools project plan limit (chunks batchFiles parsed) 0 store).store := by
          apply reaches_commitBatches
          intro facts hfacts
          rw [flatten_chunks (by decide)] at hfacts
          obtain ⟨path, -, hparse⟩ := (mem_of_mapM_eq_ok hparsed).1 hfacts
          exact ⟨path, hparse⟩
        dsimp only
        split
        · exact hbatches
        · exact hbatches.trans reaches_publishPlan

/-! ## Payloads -/

/-- What the records of the facts of files and of call graphs hold. -/
structure Recorded (tools : Tools) (project : ProjectId) (trees : List Sources)
    (store : RedbArtifactStore) : Prop where
  facts : ∀ path revision record,
    store.records (fileKey project path revision .fileFacts) = some record →
      ∃ tree ∈ trees, ∃ facts, parse tools tree path = .ok facts ∧
        record.payload = tools.encodeFacts facts
  graph : ∀ revision record, store.records (graphKey project revision) = some record →
    ∃ inputs calls, tools.compose inputs = .ok calls ∧ record.payload = tools.encodeEdges calls

theorem mem_batchOf_facts {generation : Nat} {chunk : List FileFacts} {record : ArtifactEnvelope}
    {path : String} {revision : RevisionId}
    (hmem : record ∈ (batchOf tools project generation chunk).artifacts)
    (hkey : record.key = fileKey project path revision .fileFacts) :
    ∃ facts ∈ chunk, facts.path = path ∧ record.payload = tools.encodeFacts facts := by
  unfold batchOf sortArtifacts at hmem
  rw [List.mem_insertionSort, List.mem_flatMap] at hmem
  obtain ⟨facts, hfacts, hmem⟩ := hmem
  refine ⟨facts, hfacts, ?_⟩
  simp only [derive, ArtifactEnvelope.new, List.mem_cons, List.not_mem_nil, or_false] at hmem
  rcases hmem with rfl | rfl | rfl | rfl | rfl <;> simp_all [fileKey]

/-- The records that a call writes are those of its sources. -/
structure Writes (tools : Tools) (project : ProjectId) (trees : List Sources) (call : Call) :
    Prop where
  facts : ∀ record ∈ call.written, ∀ path revision,
    record.key = fileKey project path revision .fileFacts →
      ∃ tree ∈ trees, ∃ facts, parse tools tree path = .ok facts ∧
        record.payload = tools.encodeFacts facts
  graph : ∀ record ∈ call.written, ∀ revision, record.key = graphKey project revision →
    ∃ inputs calls, tools.compose inputs = .ok calls ∧ record.payload = tools.encodeEdges calls

theorem InvocationCall.writes (h : InvocationCall tools project sources call)
    (hsources : sources ∈ trees) : Writes tools project trees call := by
  cases h with
  | batch generation chunk job hchunk =>
    constructor
    · intro record hmem path revision hkey
      obtain ⟨facts, hfacts, rfl, hpayload⟩ := mem_batchOf_facts hmem hkey
      obtain ⟨path, hparse⟩ := hchunk facts hfacts
      exact ⟨sources, hsources, facts, by rwa [(parse_eq_ok hparse).1], hpayload⟩
    · intro record hmem revision hkey
      have hkeys := mem_batchOf_keys.1 (List.mem_map_of_mem (f := (·.key)) hmem)
      rw [hkey] at hkeys
      obtain ⟨facts, -, hmem⟩ := hkeys
      obtain ⟨kind, -, heq⟩ := List.mem_map.1 hmem
      cases heq
  | graph generation sourceRevision dependencies inputs calls job hcompose =>
    constructor
    · intro record hmem path revision hkey
      rw [List.mem_singleton.1 hmem] at hkey
      cases hkey
    · intro record hmem revision hkey
      rw [List.mem_singleton.1 hmem]
      exact ⟨inputs, calls, hcompose, rfl⟩
  | publish => exact ⟨fun _ h => absurd h List.not_mem_nil, fun _ h => absurd h List.not_mem_nil⟩
  | finish => exact ⟨fun _ h => absurd h List.not_mem_nil, fun _ h => absurd h List.not_mem_nil⟩

theorem Recorded.perform (h : Recorded tools project trees store)
    (hwrites : Writes tools project trees call) :
    Recorded tools project trees (store.perform blake3 call) := by
  cases perform_cases blake3 store call with
  | inl hfailed => rwa [hfailed.2]
  | inr hdone =>
    constructor
    · intro path revision record hrecord
      cases hdone.2.record_cases hrecord with
      | inl hnew => exact hwrites.facts record hnew.1 path revision hnew.2
      | inr hold => exact h.facts path revision record hold
    · intro revision record hrecord
      cases hdone.2.record_cases hrecord with
      | inl hnew => exact hwrites.graph record hnew.1 revision hnew.2
      | inr hold => exact h.graph revision record hold

/-- **The records of the program.** -/
theorem recorded_stored (actions : List Action) :
    Recorded tools project (treesOf actions) (stored tools project actions) := by
  induction actions using List.reverseRecOn with
  | nil =>
    constructor
    · intro path revision record h
      cases h
    · intro revision record h
      cases h
  | append_singleton actions action ih =>
    have htrees : treesOf actions ⊆ treesOf (actions ++ [action]) := by
      rw [treesOf, treesOf, List.filterMap_append]
      exact List.subset_append_left _ _
    have hmono : Recorded tools project (treesOf (actions ++ [action]))
        (stored tools project actions) := by
      refine ⟨fun path revision record hrecord => ?_, ih.graph⟩
      obtain ⟨tree, htree, h⟩ := ih.facts path revision record hrecord
      exact ⟨tree, htrees htree, h⟩
    have hstored : stored tools project (actions ++ [action]) =
        action.perform tools project (stored tools project actions) := List.foldl_concat ..
    rw [hstored]
    cases action with
    | ingest sources scope limit =>
      refine (invocationCalls tools project sources scope limit _).invariant
        (fun store call hcall hrecorded => ?_) hmono
      exact hrecorded.perform (hcall.writes (by simp [treesOf]))
    | attach artifact =>
      dsimp only [Action.perform]
      split_ifs with hkind
      · refine hmono.perform ⟨fun record hmem path revision hkey => ?_,
          fun record hmem revision hkey => ?_⟩
        all_goals
          rw [← List.mem_singleton.1 hmem, hkey] at hkind
          exact absurd hkind (by simp [functionKinds, fileKey, graphKey])
      · exact hmono
    | setVectorGeneration generation vectorGeneration =>
      exact hmono.perform ⟨fun _ h => absurd h List.not_mem_nil,
        fun _ h => absurd h List.not_mem_nil⟩

end TldrCode.Store
