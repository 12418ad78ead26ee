import TldrCode.Fallible
import TldrCode.Run
import TldrCode.Store.Redb

/-!
# Calls of the store

What each call that succeeds does to the tables (`Effect`), and what all sequences of calls keep of
them (`RedbArtifactStore.Sound`). A call that fails leaves the store as it is.
-/

namespace TldrCode.Store

open Function (update)

inductive Call where
  | commitBatch (batch : ArtifactBatch) (job : IngestionJob)
  | commitOptional (artifact : ArtifactEnvelope)
  | setVectorGeneration (generation vectorGeneration : Nat)
  | publish (manifest : GenerationManifest)
  deriving DecidableEq, Repr

namespace Call

def apply (blake3 : Blake3) (store : RedbArtifactStore) : Call → Except StoreError RedbArtifactStore
  | commitBatch batch job => store.commitBatch blake3 batch job
  | commitOptional artifact => store.commitOptional blake3 artifact
  | setVectorGeneration generation vector => store.setVectorGeneration generation vector
  | publish manifest => store.publish manifest

def accepted (blake3 : Blake3) (store : RedbArtifactStore) (call : Call) : Bool :=
  (call.apply blake3 store).isOk

def generation : Call → Nat
  | commitBatch batch _ => batch.generation
  | commitOptional artifact => artifact.generation
  | setVectorGeneration generation _ => generation
  | publish manifest => manifest.generation

def written : Call → List ArtifactEnvelope
  | commitBatch batch _ => batch.artifacts
  | commitOptional artifact => [artifact]
  | setVectorGeneration _ _ => []
  | publish _ => []

/-- The keys that a call links to its generation. -/
def linked : Call → List ArtifactKey
  | commitBatch batch _ => batch.artifacts.map (·.key)
  | commitOptional artifact => [artifact.key]
  | setVectorGeneration _ _ => []
  | publish manifest => manifest.artifacts

/-- The record that a call leaves under a key. -/
def lastWritten (call : Call) (key : ArtifactKey) : Option ArtifactEnvelope :=
  call.written.reverse.find? (·.key = key)

end Call

namespace RedbArtifactStore

def perform (blake3 : Blake3) (store : RedbArtifactStore) (call : Call) : RedbArtifactStore :=
  match call.apply blake3 store with
  | .ok store' => store'
  | .error _ => store

def after (blake3 : Blake3) (calls : List Call) : RedbArtifactStore :=
  calls.foldl (perform blake3) empty

end RedbArtifactStore

/-! ## Tables -/

section Tables

variable {α : Type} [DecidableEq α] {a b : α} {as bs : List α}

@[simp]
theorem mem_insertValue : a ∈ insertValue as b ↔ a ∈ as ∨ a = b := by
  unfold insertValue
  split
  · next hb =>
    constructor
    · exact .inl
    · rintro (ha | rfl)
      · exact ha
      · exact hb
  · simp

theorem nodup_insertValue (h : as.Nodup) : (insertValue as b).Nodup := by
  unfold insertValue
  split
  · exact h
  · next hb => exact List.nodup_append.2 ⟨h, by simp, by simpa using fun x hx => by grind⟩

theorem insertValue_of_mem (h : b ∈ as) : insertValue as b = as := if_pos h

@[simp]
theorem mem_foldl_insertValue : a ∈ bs.foldl insertValue as ↔ a ∈ as ∨ a ∈ bs := by
  induction bs generalizing as with
  | nil => simp
  | cons b bs ih => rw [List.foldl_cons, ih, mem_insertValue, List.mem_cons, or_assoc]

theorem nodup_foldl_insertValue (h : as.Nodup) : (bs.foldl insertValue as).Nodup :=
  List.foldlRecOn bs _ h fun _ h _ _ => nodup_insertValue h

theorem foldl_insertValue_of_subset (h : bs ⊆ as) : bs.foldl insertValue as = as := by
  induction bs with
  | nil => rfl
  | cons b bs ih =>
    rw [List.cons_subset] at h
    rw [List.foldl_cons, insertValue_of_mem h.1, ih h.2]

end Tables

namespace RedbArtifactStore

variable {records : ArtifactKey → Option ArtifactEnvelope} {written : List ArtifactEnvelope}
  {links : Nat → List ArtifactKey} {generation g : Nat} {keys : List ArtifactKey}
  {key : ArtifactKey} {envelope : ArtifactEnvelope}

theorem insertRecords_apply : insertRecords records written key =
    (written.reverse.find? (·.key = key)).or (records key) := by
  unfold insertRecords
  induction written using List.reverseRecOn with
  | nil => rfl
  | append_singleton written last ih =>
    rw [List.foldl_concat, List.reverse_concat, List.find?_cons]
    by_cases hkey : last.key = key
    · subst hkey
      rw [Function.update_self]
      simp
    · rw [Function.update_of_ne (Ne.symm hkey), ih]
      simp [hkey]

theorem mem_insertLinks :
    key ∈ insertLinks links generation keys g ↔ key ∈ links g ∨ g = generation ∧ key ∈ keys := by
  unfold insertLinks
  by_cases hg : g = generation
  · subst hg
    rw [Function.update_self, mem_foldl_insertValue]
    simp
  · rw [Function.update_of_ne hg]
    simp [hg]

end RedbArtifactStore

/-! ## Effects -/

open RedbArtifactStore

inductive Effect (blake3 : Blake3) (store : RedbArtifactStore) : Call → RedbArtifactStore → Prop
  | commitBatch (batch : ArtifactBatch) (job : IngestionJob) (hgeneration : batch.generation ≠ 0)
      (hjob : batch.generation = job.targetGeneration)
      (hvalid : ∀ a ∈ batch.artifacts, a.generation = batch.generation ∧ a.isValid blake3)
      (hcheckpoint : ∀ existing, store.jobs job.id = some existing → ¬ badTransition existing job) :
      Effect blake3 store (.commitBatch batch job) { store with
        records := insertRecords store.records batch.artifacts
        links := insertLinks store.links batch.generation (batch.artifacts.map (·.key))
        deps := batch.artifacts.foldl insertDeps store.deps
        jobs := update store.jobs job.id (some job) }
  | commitOptional (artifact : ArtifactEnvelope) (manifest : GenerationManifest)
      (hvalid : artifact.isValid blake3) (hactive :
        store.activeGeneration = some artifact.generation)
      (hdeps : ∀ key ∈ artifact.dependencies, (store.records key).isSome)
      (hmanifest : store.generations artifact.generation = some manifest) :
      Effect blake3 store (.commitOptional artifact) { store with
        records := insertRecords store.records [artifact]
        links := insertLinks store.links artifact.generation [artifact.key]
        deps := insertDeps store.deps artifact
        generations := update store.generations artifact.generation
          (some { manifest with artifacts := insertValue manifest.artifacts artifact.key }) }
  | setVectorGeneration (generation vector : Nat) (manifest : GenerationManifest)
      (hactive : store.activeGeneration = some generation)
      (hmanifest : store.generations generation = some manifest) :
      Effect blake3 store (.setVectorGeneration generation vector) { store with
        generations := update store.generations generation
          (some { manifest with vectorGeneration := some vector }) }
  | publish (manifest : GenerationManifest) (hgeneration : manifest.generation ≠ 0)
      (hactive : ∀ active, store.activeGeneration = some active → active < manifest.generation)
      (hrecords : ∀ key ∈ manifest.artifacts, (store.records key).isSome)
      (hnew : store.generations manifest.generation = none) :
      Effect blake3 store (.publish manifest) { store with
        generations := update store.generations manifest.generation (some manifest)
        links := insertLinks store.links manifest.generation manifest.artifacts
        previousGeneration := store.activeGeneration.or store.previousGeneration
        activeGeneration := some manifest.generation }

section Effect

variable {blake3 : Blake3} {store store' : RedbArtifactStore} {call : Call} {g : Nat}
  {key : ArtifactKey}

/-- **A call succeeds with its effect.** -/
theorem apply_eq_ok_iff : call.apply blake3 store = .ok store' ↔
    Effect blake3 store call store' := by
  constructor
  · intro h
    cases call with
    | commitBatch batch job =>
      dsimp only [Call.apply, RedbArtifactStore.commitBatch] at h
      split_ifs at h with hgeneration hvalid hcheckpoint
      cases h
      rw [not_or, not_not] at hgeneration
      refine .commitBatch batch job hgeneration.1 hgeneration.2 ?_ ?_
      · simpa using hvalid
      · intro existing hexisting
        simpa [hexisting] using hcheckpoint
    | commitOptional artifact =>
      dsimp only [Call.apply, RedbArtifactStore.commitOptional] at h
      split at h
      · cases h
      · next hvalid =>
        split at h
        · cases h
        · next active hactive =>
          split at h
          · cases h
          · next hgeneration =>
            rw [not_not] at hgeneration
            subst hgeneration
            split_ifs at h with hdeps
            split at h
            · cases h
            · next manifest hmanifest =>
              cases h
              refine .commitOptional artifact manifest (by simpa using hvalid) hactive ?_ hmanifest
              simpa [Option.isSome_iff_ne_none] using hdeps
    | setVectorGeneration generation vector =>
      dsimp only [Call.apply, RedbArtifactStore.setVectorGeneration] at h
      split_ifs at h with hactive
      rw [not_not] at hactive
      split at h
      · cases h
      · next manifest hmanifest =>
        cases h
        exact .setVectorGeneration generation vector manifest hactive hmanifest
    | publish manifest =>
      dsimp only [Call.apply, RedbArtifactStore.publish] at h
      split_ifs at h with hgeneration hactive hrecords hnew
      cases h
      refine .publish manifest hgeneration ?_ ?_ (by simpa using hnew)
      · intro active heq
        simpa [heq] using hactive
      · simpa [Option.isSome_iff_ne_none] using hrecords
  · intro h
    cases h with
    | commitBatch batch job hgeneration hjob hvalid hcheckpoint =>
      dsimp only [Call.apply, RedbArtifactStore.commitBatch]
      rw [if_neg (not_or.2 ⟨hgeneration, not_not.2 hjob⟩), if_neg (by simpa using hvalid),
        if_neg ?_]
      cases hexisting : store.jobs job.id with
      | none => simp
      | some existing => simpa using hcheckpoint existing hexisting
    | commitOptional artifact manifest hvalid hactive hdeps hmanifest =>
      dsimp only [Call.apply, RedbArtifactStore.commitOptional]
      rw [if_neg (by simpa using hvalid), hactive]
      dsimp only
      rw [if_neg (by simp), if_neg (by simpa [Option.isSome_iff_ne_none] using hdeps), hmanifest]
    | setVectorGeneration generation vector manifest hactive hmanifest =>
      dsimp only [Call.apply, RedbArtifactStore.setVectorGeneration]
      rw [if_neg (by simpa using hactive), hmanifest]
    | publish manifest hgeneration hactive hrecords hnew =>
      dsimp only [Call.apply, RedbArtifactStore.publish]
      rw [if_neg hgeneration, if_neg ?_, if_neg ?_, if_neg (by simp [hnew])]
      · simpa [Option.isSome_iff_ne_none] using hrecords
      · cases hactive' : store.activeGeneration with
        | none => simp
        | some active => simpa using hactive active hactive'

theorem perform_cases (blake3 : Blake3) (store : RedbArtifactStore) (call : Call) :
    call.accepted blake3 store = false ∧ store.perform blake3 call = store ∨
      call.accepted blake3 store ∧ Effect blake3 store call (store.perform blake3 call) := by
  unfold Call.accepted perform
  cases h : call.apply blake3 store with
  | error e => exact .inl ⟨rfl, rfl⟩
  | ok store' => exact .inr ⟨rfl, apply_eq_ok_iff.1 h⟩

namespace Effect

section

variable (h : Effect blake3 store call store')
include h

theorem records_eq : store'.records = insertRecords store.records call.written := by
  cases h <;> rfl

theorem mem_links :
    key ∈ store'.links g ↔ key ∈ store.links g ∨ g = call.generation ∧ key ∈ call.linked := by
  cases h with
  | setVectorGeneration => simp [Call.linked]
  | commitBatch => exact mem_insertLinks
  | commitOptional => exact mem_insertLinks
  | publish => exact mem_insertLinks

theorem written_valid : ∀ a ∈ call.written, a.isValid blake3 := by
  cases h with
  | commitBatch batch job hgeneration hjob hvalid => exact fun a ha => (hvalid a ha).2
  | commitOptional artifact manifest hvalid =>
    intro a ha
    rw [List.mem_singleton.1 ha]
    exact hvalid
  | setVectorGeneration | publish => exact fun a ha => absurd ha List.not_mem_nil

theorem linked_cases (hkey : key ∈ call.linked) :
    (∃ a ∈ call.written, a.key = key) ∨ (store.records key).isSome := by
  cases h with
  | commitBatch => exact .inl (List.mem_map.1 hkey)
  | commitOptional artifact =>
    rw [Call.linked, List.mem_singleton] at hkey
    exact .inl ⟨artifact, List.mem_singleton_self _, hkey.symm⟩
  | setVectorGeneration => exact absurd hkey List.not_mem_nil
  | publish manifest hgeneration hactive hrecords => exact .inr (hrecords key hkey)

end

end Effect

end Effect

/-! ## The tables after calls -/

structure RedbArtifactStore.Sound (blake3 : Blake3) (store : RedbArtifactStore) : Prop where
  /-- A record is valid and stands under its key. -/
  record : ∀ key envelope, store.records key = some envelope →
    envelope.key = key ∧ envelope.isValid blake3
  /-- What is linked has a record. -/
  linked : ∀ g, ∀ key ∈ store.links g, (store.records key).isSome
  /-- A manifest stands under its generation, and its artifacts are linked to it. -/
  manifest : ∀ g manifest, store.generations g = some manifest →
    manifest.generation = g ∧ manifest.artifacts ⊆ store.links g
  nodup : ∀ g, (store.links g).Nodup

section Sound

variable {blake3 : Blake3} {store store' : RedbArtifactStore} {call : Call} {g : Nat}
  {key : ArtifactKey} {envelope : ArtifactEnvelope}

theorem sound_empty : RedbArtifactStore.empty.Sound blake3 where
  record _ _ h := by cases h
  linked _ _ h := absurd h List.not_mem_nil
  manifest _ _ h := by cases h
  nodup _ := List.nodup_nil

theorem Effect.isSome_records (h : Effect blake3 store call store')
    (hkey : (∃ a ∈ call.written, a.key = key) ∨ (store.records key).isSome) :
    (store'.records key).isSome := by
  rw [h.records_eq, insertRecords_apply, Option.isSome_or, Bool.or_eq_true]
  refine hkey.imp_left fun ⟨a, ha, hkey⟩ => ?_
  rw [List.find?_isSome]
  exact ⟨a, List.mem_reverse.2 ha, decide_eq_true hkey⟩

theorem Effect.record_cases (h : Effect blake3 store call store')
    (henvelope : store'.records key = some envelope) :
    envelope ∈ call.written ∧ envelope.key = key ∨ store.records key = some envelope := by
  rw [h.records_eq, insertRecords_apply, Option.or_eq_some_iff] at henvelope
  refine henvelope.imp (fun hfind => ?_) And.right
  exact ⟨List.mem_reverse.1 (List.mem_of_find?_eq_some hfind),
    by simpa using List.find?_some hfind⟩

/-- **A call keeps the tables sound.** -/
theorem RedbArtifactStore.Sound.effect (hs : store.Sound blake3)
    (h : Effect blake3 store call store') : store'.Sound blake3 := by
  have hlinks : ∀ g, store.links g ⊆ store'.links g := fun g key hkey => h.mem_links.2 (.inl hkey)
  constructor
  case record =>
    intro key envelope henvelope
    cases h.record_cases henvelope with
    | inl hwritten => exact ⟨hwritten.2, h.written_valid envelope hwritten.1⟩
    | inr hold => exact hs.record key envelope hold
  case linked =>
    intro g key hkey
    apply h.isSome_records
    cases h.mem_links.1 hkey with
    | inl hold => exact .inr (hs.linked g key hold)
    | inr hnew => exact h.linked_cases hnew.2
  case manifest =>
    intro g manifest hmanifest
    have hkept : ∀ {m : GenerationManifest}, store.generations g = some m →
        m.generation = g ∧ m.artifacts ⊆ store'.links g := fun {m} hm =>
      ⟨(hs.manifest g m hm).1, List.Subset.trans (hs.manifest g m hm).2 (hlinks g)⟩
    cases h with
    | commitBatch => exact hkept hmanifest
    | commitOptional artifact old hvalid hactive hdeps hold =>
      dsimp only at hmanifest
      rw [Function.update_apply] at hmanifest
      split at hmanifest
      · next hg =>
        subst hg
        cases hmanifest
        refine ⟨(hkept hold).1, fun key hkey => ?_⟩
        rw [mem_insertValue] at hkey
        cases hkey with
        | inl hkey => exact (hkept hold).2 hkey
        | inr hkey => exact mem_insertLinks.2 (.inr ⟨rfl, by simp [hkey]⟩)
      · exact hkept hmanifest
    | setVectorGeneration generation vector old hactive hold =>
      dsimp only at hmanifest
      rw [Function.update_apply] at hmanifest
      split at hmanifest
      · next hg =>
        subst hg
        cases hmanifest
        exact ⟨(hkept hold).1, (hkept hold).2⟩
      · exact hkept hmanifest
    | publish new =>
      dsimp only at hmanifest
      rw [Function.update_apply] at hmanifest
      split at hmanifest
      · next hg =>
        subst hg
        cases hmanifest
        exact ⟨rfl, fun key hkey => mem_insertLinks.2 (.inr ⟨rfl, hkey⟩)⟩
      · exact hkept hmanifest
  case nodup =>
    intro g
    have hinsert : ∀ generation keys, (insertLinks store.links generation keys g).Nodup := by
      intro generation keys
      unfold insertLinks
      rw [Function.update_apply]
      split
      · exact nodup_foldl_insertValue (hs.nodup _)
      · exact hs.nodup g
    cases h with
    | setVectorGeneration => exact hs.nodup g
    | commitBatch => exact hinsert _ _
    | commitOptional => exact hinsert _ _
    | publish => exact hinsert _ _

theorem RedbArtifactStore.Sound.perform (hs : store.Sound blake3) :
    (store.perform blake3 call).Sound blake3 := by
  cases perform_cases blake3 store call with
  | inl h => rwa [h.2]
  | inr h => exact hs.effect h.2

theorem sound_after (calls : List Call) : (after blake3 calls).Sound blake3 := by
  induction calls using List.reverseRecOn with
  | nil => exact sound_empty
  | append_singleton calls call ih =>
    unfold after at ih ⊢
    rw [List.foldl_concat]
    exact ih.perform

theorem RedbArtifactStore.Sound.artifact_eq (hs : store.Sound blake3) (key : ArtifactKey) :
    store.artifact blake3 key = .ok (store.records key) := by
  unfold RedbArtifactStore.artifact
  cases h : store.records key with
  | none => rfl
  | some envelope => exact if_pos (hs.record key envelope h).2

theorem RedbArtifactStore.Sound.linked_eq_ok_iff (hs : store.Sound blake3) :
    store.linked blake3 key = .ok envelope ↔ store.records key = some envelope := by
  unfold RedbArtifactStore.linked
  cases h : store.records key with
  | none => simp
  | some envelope' =>
    dsimp only
    rw [if_pos (hs.record key envelope' h).2]
    simp

theorem RedbArtifactStore.Sound.map_key_of_mapM (hs : store.Sound blake3) {keys : List ArtifactKey}
    {envelopes : List ArtifactEnvelope} (h : keys.mapM (store.linked blake3) = .ok envelopes) :
    envelopes.map (·.key) = keys := by
  rw [mapM_eq_ok_iff] at h
  induction h with
  | nil => rfl
  | cons hhead _ ih =>
    rw [List.map_cons, ih, (hs.record _ _ (hs.linked_eq_ok_iff.1 hhead)).1]

/-- **What `artifacts` lists** are the records of the links. -/
theorem RedbArtifactStore.Sound.exists_artifacts (hs : store.Sound blake3)
    (le : ArtifactKey → ArtifactKey → Bool) (g : Nat) (kind : ArtifactKind) : ∃ envelopes,
      store.artifacts blake3 le g kind = .ok envelopes ∧
      envelopes.Nodup ∧ ∀ envelope, envelope ∈ envelopes ↔
        ∃ key ∈ store.links g, key.kind = kind ∧ store.records key = some envelope := by
  have hperm : ((store.links g).insertionSort (le · ·)).Perm (store.links g) :=
    List.perm_insertionSort _ _
  have hlinked : ∀ key ∈ (store.links g).insertionSort (le · ·),
      ∃ envelope, store.linked blake3 key = .ok envelope := by
    intro key hkey
    obtain ⟨envelope, henvelope⟩ := Option.isSome_iff_exists.1
      (hs.linked g key (hperm.mem_iff.1 hkey))
    exact ⟨envelope, hs.linked_eq_ok_iff.2 henvelope⟩
  obtain ⟨envelopes, hok⟩ := exists_mapM_eq_ok hlinked
  refine ⟨envelopes.filter (·.key.kind = kind), ?_, ?_, fun envelope => ?_⟩
  · unfold RedbArtifactStore.artifacts
    rw [hok]
    rfl
  · -- the key of a record is that of its link
    have hnodup : (envelopes.map (·.key)).Nodup :=
      hs.map_key_of_mapM hok ▸ hperm.nodup_iff.2 (hs.nodup g)
    exact hnodup.of_map.filter _
  · rw [List.mem_filter, mem_of_mapM_eq_ok hok, decide_eq_true_iff]
    constructor
    · rintro ⟨⟨key, hkey, henvelope⟩, hkind⟩
      have hrecord := hs.linked_eq_ok_iff.1 henvelope
      exact ⟨key, hperm.mem_iff.1 hkey, (hs.record _ _ hrecord).1 ▸ hkind, hrecord⟩
    · rintro ⟨key, hkey, hkind, hrecord⟩
      exact ⟨⟨key, hperm.mem_iff.2 hkey, hs.linked_eq_ok_iff.2 hrecord⟩,
        (hs.record _ _ hrecord).1.symm ▸ hkind⟩

end Sound

end TldrCode.Store
