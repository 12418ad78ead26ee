import TldrCode.Store.Calls

/-!
# Published generations

The artifacts of a published generation are those that its manifest lists if and only if the
accepted batches of that generation bring no others (`artifacts_exact_iff`). Records and the lists
of published generations do not change if and only if no accepted call writes another record under
a key, and no batch brings more to a generation that is published (`immutable_iff`).
-/

namespace TldrCode.Store

open Function (update)
open RedbArtifactStore

variable {blake3 : Blake3} {le : ArtifactKey → ArtifactKey → Bool}
  {store store' : RedbArtifactStore}
  {call : Call} {calls later : List Call} {g : Nat} {key : ArtifactKey}
  {envelope : ArtifactEnvelope} {manifest : GenerationManifest}

/-! ## Links -/

/-- `artifacts` of a generation are the records of the keys that its manifest lists. -/
def RedbArtifactStore.Exact (blake3 : Blake3) (le : ArtifactKey → ArtifactKey → Bool)
    (store : RedbArtifactStore) (g : Nat) (manifest : GenerationManifest) : Prop :=
  ∀ kind, ∃ envelopes, store.artifacts blake3 le g kind = .ok envelopes ∧ envelopes.Nodup ∧
    ∀ envelope, envelope ∈ envelopes ↔ ∃ key ∈ manifest.artifacts, key.kind = kind ∧
      store.artifact blake3 key = .ok (some envelope)

/-- An accepted batch of the generation brings the key. -/
def Brought (blake3 : Blake3) (calls : List Call) (g : Nat) (key : ArtifactKey) : Prop :=
  ∃ before batch job later, calls = before ++ .commitBatch batch job :: later ∧
    (Call.commitBatch batch job).accepted blake3 (after blake3 before) ∧ batch.generation = g ∧
    ∃ artifact ∈ batch.artifacts, artifact.key = key

theorem after_concat : after blake3 (calls ++ [call]) = (after blake3 calls).perform blake3 call :=
  List.foldl_concat ..

theorem Effect.exists_manifest (h : Effect blake3 store call store')
    (hmanifest : store.generations g = some manifest) :
    ∃ manifest', store'.generations g = some manifest' ∧
      manifest.artifacts ⊆ manifest'.artifacts := by
  cases h with
  | commitBatch => exact ⟨manifest, hmanifest, List.Subset.refl _⟩
  | commitOptional artifact old hvalid hactive hdeps hold =>
    dsimp only
    rw [Function.update_apply]
    split
    · next hg =>
      subst hg
      rw [hmanifest] at hold
      cases hold
      exact ⟨_, rfl, fun key hkey => mem_insertValue.2 (.inl hkey)⟩
    · exact ⟨manifest, hmanifest, List.Subset.refl _⟩
  | setVectorGeneration generation vector old hactive hold =>
    dsimp only
    rw [Function.update_apply]
    split
    · next hg =>
      subst hg
      rw [hmanifest] at hold
      cases hold
      exact ⟨_, rfl, List.Subset.refl _⟩
    · exact ⟨manifest, hmanifest, List.Subset.refl _⟩
  | publish new hgeneration hactive hrecords hnew =>
    dsimp only
    rw [Function.update_apply]
    split
    · next hg =>
      subst hg
      rw [hmanifest] at hnew
      cases hnew
    · exact ⟨manifest, hmanifest, List.Subset.refl _⟩

theorem Effect.exists_manifest_of_linked (h : Effect blake3 store call store')
    (hkey : key ∈ call.linked) :
    (∃ batch job, call = .commitBatch batch job) ∨
      ∃ manifest, store'.generations call.generation = some manifest ∧
        key ∈ manifest.artifacts := by
  cases h with
  | commitBatch batch job => exact .inl ⟨batch, job, rfl⟩
  | commitOptional artifact old =>
    exact .inr ⟨_, Function.update_self .., mem_insertValue.2 (.inr (List.mem_singleton.1 hkey))⟩
  | setVectorGeneration => exact absurd hkey List.not_mem_nil
  | publish new => exact .inr ⟨new, Function.update_self .., hkey⟩

theorem links_subset_perform : store.links g ⊆ (store.perform blake3 call).links g := by
  intro key hkey
  cases perform_cases blake3 store call with
  | inl h => rwa [h.2]
  | inr h => exact h.2.mem_links.2 (.inl hkey)

theorem links_subset_after : (after blake3 calls).links g ⊆
    (after blake3 (calls ++ later)).links g := by
  induction later using List.reverseRecOn with
  | nil => rw [List.append_nil]; exact List.Subset.refl _
  | append_singleton later call ih =>
    rw [← List.append_assoc, after_concat]
    exact List.Subset.trans ih links_subset_perform

/-- **The links of a generation** are what its batches bring and what its manifest lists. -/
theorem mem_links_after : key ∈ (after blake3 calls).links g ↔ Brought blake3 calls g key ∨
    ∃ manifest, (after blake3 calls).generations g = some manifest ∧ key ∈ manifest.artifacts := by
  constructor
  · induction calls using List.reverseRecOn with
    | nil => exact fun h => absurd h List.not_mem_nil
    | append_singleton calls call ih =>
      rw [after_concat]
      intro hkey
      have hbrought : Brought blake3 calls g key → Brought blake3 (calls ++ [call]) g key := by
        rintro ⟨before, batch, job, later, rfl, h⟩
        exact ⟨before, batch, job, later ++ [call], by simp, h⟩
      cases perform_cases blake3 (after blake3 calls) call with
      | inl h =>
        rw [h.2] at hkey ⊢
        exact (ih hkey).imp_left hbrought
      | inr h =>
        obtain ⟨haccepted, heffect⟩ := h
        cases heffect.mem_links.1 hkey with
        | inl hold =>
          refine (ih hold).imp hbrought fun ⟨manifest, hmanifest, hmem⟩ => ?_
          obtain ⟨manifest', hmanifest', hsub⟩ := heffect.exists_manifest hmanifest
          exact ⟨manifest', hmanifest', hsub hmem⟩
        | inr hnew =>
          obtain ⟨rfl, hlinked⟩ := hnew
          refine (heffect.exists_manifest_of_linked hlinked).imp_left ?_
          rintro ⟨batch, job, rfl⟩
          exact ⟨calls, batch, job, [], rfl, haccepted, rfl, List.mem_map.1 hlinked⟩
  · rintro (⟨before, batch, job, later, rfl, haccepted, rfl, hkey⟩ | ⟨manifest, hmanifest, hkey⟩)
    · rw [List.append_cons]
      refine links_subset_after ?_
      rw [after_concat]
      cases perform_cases blake3 (after blake3 before) (.commitBatch batch job) with
      | inl h => rw [h.1] at haccepted; cases haccepted
      | inr h => exact h.2.mem_links.2 (.inr ⟨rfl, List.mem_map.2 hkey⟩)
    · exact ((sound_after calls).manifest g manifest hmanifest).2 hkey

/-- **The artifacts of a published generation** are those of its manifest if and only if no accepted
batch of the generation brings a key that the manifest does not list. -/
theorem artifacts_exact_iff (blake3 : Blake3) (le : ArtifactKey → ArtifactKey → Bool)
    (calls : List Call) (g : Nat) (manifest : GenerationManifest)
    (hmanifest : (after blake3 calls).generations g = some manifest) :
    (after blake3 calls).Exact blake3 le g manifest ↔
      ∀ key, Brought blake3 calls g key → key ∈ manifest.artifacts := by
  have hs : (after blake3 calls).Sound blake3 := sound_after calls
  have hlinks : ∀ key, key ∈ (after blake3 calls).links g ↔
      Brought blake3 calls g key ∨ key ∈ manifest.artifacts := by
    intro key
    rw [mem_links_after, hmanifest]
    simp
  constructor
  · intro h key hbrought
    have hlinked := (hlinks key).2 (.inl hbrought)
    obtain ⟨envelope, henvelope⟩ := Option.isSome_iff_exists.1 (hs.linked g key hlinked)
    obtain ⟨envelopes, hok, -, hmem⟩ := h key.kind
    obtain ⟨envelopes', hok', -, hmem'⟩ := hs.exists_artifacts le g key.kind
    rw [hok] at hok'
    cases hok'
    obtain ⟨key', hkey', -, hartifact⟩ :=
      (hmem envelope).1 ((hmem' envelope).2 ⟨key, hlinked, rfl, henvelope⟩)
    rw [hs.artifact_eq, Except.ok.injEq] at hartifact
    rwa [← (hs.record _ _ henvelope).1, (hs.record _ _ hartifact).1]
  · intro h kind
    obtain ⟨envelopes, hok, hnodup, hmem⟩ := hs.exists_artifacts le g kind
    refine ⟨envelopes, hok, hnodup, fun envelope => ?_⟩
    rw [hmem]
    refine exists_congr fun key => ?_
    rw [hs.artifact_eq, Except.ok.injEq, hlinks]
    exact and_congr_left fun _ => ⟨fun hkey => hkey.elim (h key) id, .inr⟩

def factsKey (path : String) : ArtifactKey where
  project := ⟨0⟩
  revision := ⟨0⟩
  subject := .file path
  kind := .fileFacts
  producer := ⟨"file-facts", 7⟩

def factsBatch (id : String) (generation : Nat) (path : String) : Call :=
  .commitBatch
    { generation, artifacts := [.new (fun _ => 0) (factsKey path) generation [] []] }
    { id, targetGeneration := generation, scope := .files [path], stage := .commit,
      nextBatch := 1, totalBatches := 1, sourceRevision := ⟨0⟩ }

def factsManifest (generation : Nat) (path : String) : GenerationManifest where
  generation
  project := ⟨0⟩
  sourceRevision := ⟨0⟩
  artifacts := [factsKey path]
  vectorGeneration := none

theorem artifacts_exact_iff_published :
    (after (fun _ => 0) [factsBatch "a" 1 "a.py", .publish (factsManifest 1 "a.py")]).Exact
      (fun _ => 0) (fun _ _ => true) 1 (factsManifest 1 "a.py") := by
  refine (artifacts_exact_iff _ _ _ 1 (factsManifest 1 "a.py") rfl).2 ?_
  rintro key ⟨before, batch, job, later, hcalls, -, -, artifact, hartifact, rfl⟩
  have hmem : Call.commitBatch batch job ∈
      [factsBatch "a" 1 "a.py", .publish (factsManifest 1 "a.py")] :=
    hcalls ▸ by simp
  have hbatch : batch.artifacts = [.new (fun _ => 0) (factsKey "a.py") 1 [] []] := by
    simp only [factsBatch, List.mem_cons, Call.commitBatch.injEq, List.not_mem_nil, or_false,
      reduceCtorEq] at hmem
    rw [hmem.1]
  rw [hbatch, List.mem_singleton] at hartifact
  rw [hartifact]
  exact List.mem_singleton_self _

/-- The facts of a file that an abandoned job committed are artifacts of the generation that another
job publishes without them. -/
theorem artifacts_abandoned :
    ¬ ∀ (blake3 : Blake3) (le : ArtifactKey → ArtifactKey → Bool) (calls : List Call) (g : Nat)
      (manifest : GenerationManifest), (after blake3 calls).generations g = some manifest →
        (after blake3 calls).Exact blake3 le g manifest := by
  intro h
  obtain ⟨envelopes, hok, -, hmem⟩ := h (fun _ => 0) (fun _ _ => true)
    [factsBatch "a" 1 "a.py", factsBatch "b" 1 "b.py", .publish (factsManifest 1 "b.py")] 1
    (factsManifest 1 "b.py") rfl .fileFacts
  have hs : (after (fun _ => 0)
      [factsBatch "a" 1 "a.py", factsBatch "b" 1 "b.py", .publish (factsManifest 1 "b.py")]).Sound
      (fun _ => 0) := sound_after _
  obtain ⟨envelopes', hok', -, hmem'⟩ := hs.exists_artifacts (fun _ _ => true) 1 .fileFacts
  rw [hok] at hok'
  cases hok'
  obtain ⟨key, hkey, -, hartifact⟩ := (hmem (.new (fun _ => 0) (factsKey "a.py") 1 [] [])).1
    ((hmem' _).2 ⟨factsKey "a.py", by decide, rfl, by decide⟩)
  rw [factsManifest, List.mem_singleton] at hkey
  subst hkey
  rw [hs.artifact_eq] at hartifact
  revert hartifact
  decide

/-! ## Immutability -/

/-- The call writes no other record under a key, and no batch adds to a published generation. -/
structure Call.Harmless (store : RedbArtifactStore) (call : Call) : Prop where
  record : ∀ key envelope written, store.records key = some envelope →
    call.lastWritten key = some written → written = envelope
  batch : ∀ batch job, call = .commitBatch batch job → (store.generations batch.generation).isSome →
    ∀ artifact ∈ batch.artifacts, artifact.key ∈ store.links batch.generation

/-- The list of artifacts of a published generation stays, or an optional artifact is added to the
active one. -/
inductive ListKept (blake3 : Blake3) (le : ArtifactKey → ArtifactKey → Bool)
    (store : RedbArtifactStore) (call : Call) (store' : RedbArtifactStore) (g : Nat)
    (manifest : GenerationManifest) : Prop
  | kept (manifest' : GenerationManifest) (hmanifest : store'.generations g = some manifest')
      (hlisted : manifest'.artifacts = manifest.artifacts)
      (hartifacts : ∀ kind, store'.artifacts blake3 le g kind = store.artifacts blake3 le g kind)
  | added (artifact : ArtifactEnvelope) (manifest' : GenerationManifest)
      (hcall : call = .commitOptional artifact) (hactive : store.activeGeneration = some g)
      (hmanifest : store'.generations g = some manifest')
      (hlisted : manifest'.artifacts = insertValue manifest.artifacts artifact.key)

/-- Published generations and records do not change along the calls. -/
structure Immutable (blake3 : Blake3) (le : ArtifactKey → ArtifactKey → Bool) (calls : List Call) :
    Prop where
  record : ∀ before middle later key envelope, calls = before ++ middle ++ later →
    (after blake3 before).artifact blake3 key = .ok (some envelope) →
    (after blake3 (before ++ middle)).artifact blake3 key = .ok (some envelope)
  list : ∀ before call later g manifest, calls = before ++ call :: later →
    (after blake3 before).generations g = some manifest →
    ListKept blake3 le (after blake3 before) call (after blake3 (before ++ [call])) g manifest

theorem Call.Harmless.records_eq (hc : call.Harmless store) (h : Effect blake3 store call store')
    (hkey : store.records key = some envelope) : store'.records key = some envelope := by
  rw [h.records_eq, insertRecords_apply, Option.or_eq_some_iff]
  change call.lastWritten key = _ ∨ call.lastWritten key = _ ∧ _
  cases hwritten : call.lastWritten key with
  | none => exact .inr ⟨rfl, hkey⟩
  | some written => exact .inl (congrArg some (hc.record key envelope written hkey hwritten))

theorem artifacts_congr (hlinks : store'.links g = store.links g)
    (hrecords : ∀ key ∈ store.links g, store'.records key = store.records key)
    (kind : ArtifactKind) :
    store'.artifacts blake3 le g kind = store.artifacts blake3 le g kind := by
  have hmapM : ((store.links g).insertionSort (le · ·)).mapM (store'.linked blake3) =
      ((store.links g).insertionSort (le · ·)).mapM (store.linked blake3) := by
    refine mapM_congr_left fun key hkey => ?_
    have hrecord := hrecords key ((List.perm_insertionSort _ _).mem_iff.1 hkey)
    unfold RedbArtifactStore.linked
    rw [hrecord]
  unfold RedbArtifactStore.artifacts
  rw [hlinks, hmapM]

/-- **A harmless call** keeps the list of every published generation. -/
theorem Call.Harmless.listKept (hs : store.Sound blake3) (hc : call.Harmless store)
    (h : Effect blake3 store call store') (hmanifest : store.generations g = some manifest) :
    ListKept blake3 le store call store' g manifest := by
  have hrecords : ∀ key ∈ store.links g, store'.records key = store.records key := by
    intro key hkey
    obtain ⟨envelope, henvelope⟩ := Option.isSome_iff_exists.1 (hs.linked g key hkey)
    rw [hc.records_eq h henvelope, henvelope]
  cases h with
  | commitBatch batch job =>
    refine .kept manifest hmanifest rfl (artifacts_congr ?_ hrecords)
    change insertLinks _ _ _ _ = _
    unfold insertLinks
    rw [Function.update_apply]
    split
    · next hg =>
      subst hg
      have hlinked := hc.batch batch job rfl (by rw [hmanifest]; rfl)
      refine foldl_insertValue_of_subset fun key hkey => ?_
      obtain ⟨artifact, hartifact, rfl⟩ := List.mem_map.1 hkey
      exact hlinked artifact hartifact
    · rfl
  | commitOptional artifact old hvalid hactive hdeps hold =>
    by_cases hg : g = artifact.generation
    · subst hg
      rw [hmanifest] at hold
      cases hold
      exact .added artifact _ rfl hactive (Function.update_self ..) rfl
    · refine .kept manifest ?_ rfl (artifacts_congr ?_ hrecords)
      · exact (Function.update_of_ne hg _ _).trans hmanifest
      · exact Function.update_of_ne hg _ _
  | setVectorGeneration generation vector old hactive hold =>
    by_cases hg : g = generation
    · subst hg
      rw [hmanifest] at hold
      cases hold
      exact .kept _ (Function.update_self ..) rfl (artifacts_congr rfl hrecords)
    · exact .kept manifest ((Function.update_of_ne hg _ _).trans hmanifest) rfl
        (artifacts_congr rfl hrecords)
  | publish new hgeneration hactive hnewRecords hnew =>
    have hg : g ≠ new.generation := by
      rintro rfl
      rw [hmanifest] at hnew
      cases hnew
    refine .kept manifest ?_ rfl (artifacts_congr ?_ hrecords)
    · exact (Function.update_of_ne hg _ _).trans hmanifest
    · exact Function.update_of_ne hg _ _

theorem records_perform (hc : call.accepted blake3 store → call.Harmless store)
    (hkey : store.records key = some envelope) :
    (store.perform blake3 call).records key = some envelope := by
  cases perform_cases blake3 store call with
  | inl h => rwa [h.2]
  | inr h => exact (hc h.1).records_eq h.2 hkey

theorem listKept_perform (hs : store.Sound blake3)
    (hc : call.accepted blake3 store → call.Harmless store)
    (hmanifest : store.generations g = some manifest) :
    ListKept blake3 le store call (store.perform blake3 call) g manifest := by
  cases perform_cases blake3 store call with
  | inl h =>
    rw [h.2]
    exact .kept manifest hmanifest rfl fun _ => rfl
  | inr h => exact (hc h.1).listKept hs h.2 hmanifest

theorem harmless_of_kept (hs : store.Sound blake3) (h : Effect blake3 store call store')
    (hrecords : ∀ key envelope, store.records key = some envelope →
      store'.records key = some envelope)
    (hlists : ∀ g manifest, store.generations g = some manifest →
      ListKept blake3 le store call store' g manifest) : call.Harmless store := by
  constructor
  case record =>
    intro key envelope written henvelope hwritten
    have hrecord := hrecords key envelope henvelope
    rw [h.records_eq, insertRecords_apply, Option.or_eq_some_iff] at hrecord
    change call.lastWritten key = _ ∨ call.lastWritten key = _ ∧ _ at hrecord
    rw [hwritten] at hrecord
    simpa using hrecord
  case batch =>
    rintro batch job rfl hpublished artifact hartifact
    obtain ⟨manifest, hmanifest⟩ := Option.isSome_iff_exists.1 hpublished
    have hs' := hs.effect h
    have hlinked : artifact.key ∈ store'.links batch.generation :=
      h.mem_links.2 (.inr ⟨rfl, List.mem_map_of_mem hartifact⟩)
    obtain ⟨envelope, henvelope⟩ := Option.isSome_iff_exists.1 (hs'.linked _ _ hlinked)
    cases hlists batch.generation manifest hmanifest with
    | added artifact manifest' hcall => cases hcall
    | kept manifest' hmanifest' hlisted hartifacts =>
      -- the record of the key is listed after the call, and so it was before
      obtain ⟨after, hafter, -, hmem⟩ :=
        hs'.exists_artifacts le batch.generation artifact.key.kind
      obtain ⟨before, hbefore, -, hmem'⟩ :=
        hs.exists_artifacts le batch.generation artifact.key.kind
      rw [hartifacts, hbefore] at hafter
      cases hafter
      obtain ⟨key, hkey, -, hrecord⟩ :=
        (hmem' envelope).1 ((hmem envelope).2 ⟨_, hlinked, rfl, henvelope⟩)
      rwa [← (hs'.record _ _ henvelope).1, (hs.record _ _ hrecord).1]

/-- **Records and published generations do not change** along calls if and only if every accepted
call writes no other record under a key that has one, and brings to a published generation only what
is linked to it. -/
theorem immutable_iff (blake3 : Blake3) (le : ArtifactKey → ArtifactKey → Bool)
    (calls : List Call) : Immutable blake3 le calls ↔
      ∀ before call later, calls = before ++ call :: later →
        call.accepted blake3 (after blake3 before) → call.Harmless (after blake3 before) := by
  have hsound : ∀ calls, (after blake3 calls).Sound blake3 := sound_after
  constructor
  · intro h before call later hcalls haccepted
    cases perform_cases blake3 (after blake3 before) call with
    | inl hfailed => rw [hfailed.1] at haccepted; cases haccepted
    | inr heffect =>
      refine harmless_of_kept (hsound before) heffect.2 ?_
        (?_ : ∀ g manifest, _ → ListKept blake3 le _ _ _ g manifest)
      · intro key envelope henvelope
        have := h.record before [call] later key envelope (by rw [hcalls]; simp)
          (by rw [(hsound before).artifact_eq, henvelope])
        rwa [(hsound _).artifact_eq, Except.ok.injEq, after_concat] at this
      · intro g manifest hmanifest
        have := h.list before call later g manifest hcalls hmanifest
        rwa [after_concat] at this
  · intro h
    constructor
    case record =>
      intro before middle later key envelope hcalls henvelope
      rw [(hsound _).artifact_eq, Except.ok.injEq] at henvelope ⊢
      induction middle using List.reverseRecOn generalizing later with
      | nil => rwa [List.append_nil]
      | append_singleton middle call ih =>
        have hmiddle := ih (call :: later) (by rw [hcalls]; simp)
        rw [← List.append_assoc, after_concat]
        exact records_perform (h (before ++ middle) call later (by rw [hcalls]; simp)) hmiddle
    case list =>
      intro before call later g manifest hcalls hmanifest
      rw [after_concat]
      exact listKept_perform (hsound before) (h before call later hcalls) hmanifest

/-- The facts of a file that has again the content of an earlier generation replace its record. -/
theorem immutable_recommitted :
    ¬ ∀ (blake3 : Blake3) (le : ArtifactKey → ArtifactKey → Bool) (calls : List Call),
      Immutable blake3 le calls := by
  intro h
  let first : List Call := [factsBatch "1" 1 "a.py", .publish (factsManifest 1 "a.py")]
  let second : List Call := [factsBatch "2" 2 "a.py"]
  have hrecord := (h (fun _ => 0) (fun _ _ => true) (first ++ second)).record first second []
    (factsKey "a.py") (.new (fun _ => 0) (factsKey "a.py") 1 [] []) rfl
  revert hrecord
  decide

/-! ## The order of generations -/

/-- The active generation is the newest one that is published, and the previous one the newest of
the others. -/
structure RedbArtifactStore.Ordered (store : RedbArtifactStore) : Prop where
  active : ∀ g, store.activeGeneration = some g → g ≠ 0 ∧ (store.generations g).isSome
  newest : ∀ p, (store.generations p).isSome → ∃ g, store.activeGeneration = some g ∧ p ≤ g
  previous : ∀ p, store.previousGeneration = some p →
    (store.generations p).isSome ∧ ∃ g, store.activeGeneration = some g ∧ p < g
  others : ∀ p, (store.generations p).isSome → store.activeGeneration ≠ some p →
    ∃ q, store.previousGeneration = some q ∧ p ≤ q

theorem isSome_update {generations : Nat → Option GenerationManifest} {p : Nat} :
    (update generations g (some manifest) p).isSome ↔ p = g ∨ (generations p).isSome := by
  rw [Function.update_apply]
  split_ifs with h <;> simp [h]

theorem RedbArtifactStore.Ordered.effect (h : store.Ordered)
    (he : Effect blake3 store call store') : store'.Ordered := by
  -- every call but the last one keeps the set of published generations
  have hkept : ∀ {g old new}, store.generations g = some old →
      ∀ p, (update store.generations g (some new) p).isSome ↔ (store.generations p).isSome := by
    intro g old new hg p
    rw [isSome_update, or_iff_right_of_imp]
    intro hp
    rw [hp, hg]
    rfl
  cases he with
  | commitBatch => exact ⟨h.active, h.newest, h.previous, h.others⟩
  | commitOptional artifact manifest _ _ _ hmanifest =>
    constructor <;> simp only [hkept hmanifest]
    exacts [h.active, h.newest, h.previous, h.others]
  | setVectorGeneration g vector manifest _ hmanifest =>
    constructor <;> simp only [hkept hmanifest]
    exacts [h.active, h.newest, h.previous, h.others]
  | publish manifest hzero hactive =>
    have hlt : ∀ p, (store.generations p).isSome → p < manifest.generation := by
      intro p hp
      obtain ⟨g, hg, hle⟩ := h.newest p hp
      exact hle.trans_lt (hactive g hg)
    constructor <;> simp only [isSome_update, Option.some_inj]
    · rintro g rfl
      exact ⟨hzero, .inl rfl⟩
    · rintro p (rfl | hp)
      · exact ⟨_, rfl, le_rfl⟩
      · exact ⟨_, rfl, (hlt p hp).le⟩
    · intro p hp
      have hpublished : (store.generations p).isSome := by
        rcases Option.or_eq_some_iff.1 hp with hp | ⟨-, hp⟩
        · exact (h.active p hp).2
        · exact (h.previous p hp).1
      exact ⟨.inr hpublished, _, rfl, hlt p hpublished⟩
    · rintro p (rfl | hp) hne
      · exact absurd rfl hne
      · obtain ⟨g, hg, hle⟩ := h.newest p hp
        exact ⟨g, by rw [hg]; rfl, hle⟩

/-- **In every run** the active generation is the newest published one. -/
theorem ordered_after (blake3 : Blake3) (calls : List Call) : (after blake3 calls).Ordered := by
  induction calls using List.reverseRecOn with
  | nil => constructor <;> simp [after, empty]
  | append_singleton calls call ih =>
    rw [after_concat]
    rcases perform_cases blake3 (after blake3 calls) call with ⟨-, h⟩ | ⟨-, h⟩
    · rw [h]
      exact ih
    · exact ih.effect h

end TldrCode.Store
