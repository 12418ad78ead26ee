import TldrCode.Run
import TldrCode.Semantic.Ledger

/-!
# Publication of generations

`semantic/generation.rs`: the calls of a `GenerationManager` on its ledger. What is served is always
complete. The generation to go back to is another than the one that is served if and only if no call
selects the one that is served already (`serves_iff`).
-/

namespace TldrCode.Semantic

inductive PublicationFault where
  | stage
  | records
  | artifact
  | activation
  deriving DecidableEq, Repr

/-- The transactions of a call; those that put vectors by the number of records left to visit. -/
inductive Transaction where
  | stage
  | vectors (left : Nat)
  | complete
  | select
  deriving DecidableEq, Repr

/-- What the file system and the database do in a call: `next_generation` of the directory, whether
a transaction is committed, `write_artifact`, `activate_current` and the load of what is selected.
-/
structure Environment where
  nextGeneration : Except String Nat
  commit : Transaction → Except String Unit
  writeArtifact : Nat → Except String Unit
  activateCurrent : Nat → Except String Unit
  load : Except String Unit

/-- What a publication reads of a `VectorStore`: `visit_records` yields the records in the order of
their keys, or fails at one. -/
structure VectorStore where
  dimensions : Nat
  len : Nat
  records : List (Except String GenerationVectorWrite)
  files : List UInt8
  corpusDigest : Nat

def recordBatch : Nat := 128

def inject (actual : Option PublicationFault) (expected : PublicationFault) : Except String Unit :=
  if actual = some expected then .error "injected publication failure" else .ok ()

section Publish

variable (encodeBinary : ManifestId → List UInt8) (env : Environment)

/-- The first generation from one on that the ledger does not have; `left` numbers follow it. -/
def freeGeneration (ledger : Ledger) : Nat → Nat → Except String Nat
  | generation, left =>
    if (ledger.generations generation).isNone then .ok generation
    else
      match left with
      | 0 => .error "generation counter overflow"
      | left + 1 => freeGeneration ledger (generation + 1) left

def flush (generation dimensions left : Nat) (batch : List GenerationVectorWrite)
    (ledger : Ledger) : Except String Ledger := do
  if batch = [] then
    return ledger
  env.commit (.vectors left)
  ledger.putGenerationVectors generation dimensions batch

def flushRecords (generation dimensions : Nat) : List (Except String GenerationVectorWrite) →
    List GenerationVectorWrite → Ledger → Except String Unit × Ledger
  | [], batch, ledger =>
    match flush env generation dimensions 0 batch ledger with
    | .error error => (.error error, ledger)
    | .ok ledger => (.ok (), ledger)
  | .error error :: _, _, ledger => (.error error, ledger)
  | .ok record :: records, batch, ledger =>
    let batch := batch ++ [record]
    if batch.length = recordBatch then
      match flush env generation dimensions (records.length + 1) batch ledger with
      | .error error => (.error error, ledger)
      | .ok ledger => flushRecords generation dimensions records [] ledger
    else flushRecords generation dimensions records batch ledger

/-- The record of a generation that is to be staged. -/
def stagedGeneration (store : VectorStore) (identity : ManifestId) (generation : Nat) :
    StoredGeneration where
  generation := generation
  state := .staged
  chunkCount := store.len
  dimensions := store.dimensions % 2 ^ 32
  manifestIdentity := encodeBinary identity
  corpusDigest := store.corpusDigest
  files := store.files

/-- The first transaction of `publish_with_fault_measured`. -/
def stage (store : VectorStore) (identity : ManifestId) (ledger : Ledger) :
    Except String (Nat × Ledger) := do
  let next ← env.nextGeneration
  let generation ← freeGeneration ledger next (2 ^ 64 - 1 - next)
  env.commit .stage
  let ledger ← ledger.stageGeneration (stagedGeneration encodeBinary store identity generation)
  return (generation, ledger)

/-- `publish_with_fault_measured`, up to the activation. -/
def prepare (store : VectorStore) (identity : ManifestId) (fault : Option PublicationFault)
    (ledger : Ledger) : Except String Nat × Ledger :=
  match stage encodeBinary env store identity ledger with
  | .error error => (.error error, ledger)
  | .ok (generation, ledger) =>
    match inject fault .stage with
    | .error error => (.error error, ledger)
    | .ok () =>
      match flushRecords env generation store.dimensions store.records [] ledger with
      | (.error error, ledger) => (.error error, ledger)
      | (.ok (), ledger) =>
        let written := do
          inject fault .records
          env.writeArtifact generation
          inject fault .artifact
        (written.map fun () => generation, ledger)

/-- `publish_with_fault_measured`, with its activation. -/
def prepareAndActivate (store : VectorStore) (identity : ManifestId)
    (fault : Option PublicationFault) (ledger : Ledger) : Except String Nat × Ledger :=
  match prepare encodeBinary env store identity fault ledger with
  | (.error error, ledger) => (.error error, ledger)
  | (.ok generation, ledger) =>
    match env.commit .complete *> ledger.completeAndActivateGeneration generation with
    | .error error => (.error error, ledger)
    | .ok ledger => (.ok generation, ledger)

/-- `publish_with_fault_measured`. -/
def publish (store : VectorStore) (identity : ManifestId) (fault : Option PublicationFault)
    (ledger : Ledger) : Except String Nat × Ledger :=
  match prepareAndActivate encodeBinary env store identity fault ledger with
  | (.error error, ledger) => (.error error, ledger)
  | (.ok generation, ledger) =>
    let mirrored := do
      inject fault .activation
      env.activateCurrent generation
    (mirrored.map fun () => generation, ledger)

/-- What `select` checks first. -/
def checkSelection (generation : Nat) (identity : ManifestId) (ledger : Ledger) :
    Except String Unit :=
  match ledger.generations generation with
  | none => .error s!"generation {generation} is missing"
  | some record =>
    if record.state ≠ .complete ∨ record.dimensions ≠ identity.dimensions ∨
        record.manifestIdentity ≠ encodeBinary identity then
      .error "selected generation is incomplete or incompatible"
    else .ok ()

def select (generation : Nat) (identity : ManifestId) (ledger : Ledger) :
    Except String Unit × Ledger :=
  let selected := do
    checkSelection encodeBinary generation identity ledger
    env.commit .select
    ledger.selectCompleteGeneration generation
  match selected with
  | .error error => (.error error, ledger)
  | .ok ledger =>
    let mirrored := do
      env.activateCurrent generation
      env.load
    (mirrored, ledger)

def selectPrevious (identity : ManifestId) (ledger : Ledger) :
    Except String (Option Unit) × Ledger :=
  match ledger.previousGeneration with
  | none => (.ok none, ledger)
  | some generation =>
    let (result, ledger) := select encodeBinary env generation identity ledger
    (result.map some, ledger)

end Publish

/-! ## Calls -/

inductive Call where
  | publish (env : Environment) (store : VectorStore) (identity : ManifestId)
    (fault : Option PublicationFault)
  | select (env : Environment) (generation : Nat) (identity : ManifestId)
  | selectPrevious (env : Environment) (identity : ManifestId)

/-- The ledger, and the generations that have been active. -/
structure History where
  ledger : Ledger
  actives : List Nat

namespace History

def initial : History := ⟨.empty, []⟩

variable (encodeBinary : ManifestId → List UInt8)

def ledgerAfter (ledger : Ledger) : Call → Ledger
  | .publish env store identity fault => (publish encodeBinary env store identity fault ledger).2
  | .select env generation identity => (select encodeBinary env generation identity ledger).2
  | .selectPrevious env identity => (selectPrevious encodeBinary env identity ledger).2

def next (s : History) (call : Call) : History where
  ledger := ledgerAfter encodeBinary s.ledger call
  actives := (ledgerAfter encodeBinary s.ledger call).activeGeneration.toList ++ s.actives

def TwoActive (s : History) : Prop := ∃ a ∈ s.actives, ∃ b ∈ s.actives, a ≠ b

/-- There is a complete generation to go back to, once two have been active. -/
def RollbackKept (s : History) : Prop :=
  s.TwoActive → ∃ previous, s.ledger.previousGeneration = some previous ∧
    s.ledger.Complete previous ∧ s.ledger.activeGeneration ≠ some previous

/-- The generation that is served is complete. -/
def ActiveComplete (s : History) : Prop :=
  ∀ generation, s.ledger.activeGeneration = some generation → s.ledger.Complete generation

/-- A publication that fails before it activates leaves what is served. -/
def FailureKeeps (s : History) : Call → Prop
  | .publish env store identity fault =>
    (prepareAndActivate encodeBinary env store identity fault s.ledger).1.isOk = false →
      (next encodeBinary s (.publish env store identity fault)).ledger.activeGeneration =
          s.ledger.activeGeneration ∧
        (next encodeBinary s (.publish env store identity fault)).ledger.previousGeneration =
          s.ledger.previousGeneration
  | _ => True

/-- The call does not select the generation that is served, once two have been active. -/
def SelectsOther (s : History) : Call → Prop
  | .select env generation identity =>
    s.TwoActive → s.ledger.activeGeneration = some generation →
      ¬ ((checkSelection encodeBinary generation identity s.ledger).isOk ∧
        (env.commit .select).isOk)
  | _ => True

end History

/-! ## One call -/

section Calls

variable {encodeBinary : ManifestId → List UInt8} {env : Environment} {store : VectorStore}
  {identity : ManifestId} {fault : Option PublicationFault} {ledger ledger' : Ledger}
  {generation dimensions left : Nat} {batch : List GenerationVectorWrite}
  {records : List (Except String GenerationVectorWrite)}

/-- What putting vectors leaves: the generations and the pointers. -/
structure Fills (ledger ledger' : Ledger) : Prop where
  sound : ledger.Sound → ledger'.Sound
  generations : ledger'.generations = ledger.generations
  active : ledger'.activeGeneration = ledger.activeGeneration
  previous : ledger'.previousGeneration = ledger.previousGeneration

theorem Fills.refl (ledger : Ledger) : Fills ledger ledger := ⟨id, rfl, rfl, rfl⟩

theorem Fills.trans {ledger'' : Ledger} (h : Fills ledger ledger') (h' : Fills ledger' ledger'') :
    Fills ledger ledger'' where
  sound := h'.sound ∘ h.sound
  generations := h'.generations.trans h.generations
  active := h'.active.trans h.active
  previous := h'.previous.trans h.previous

theorem fills_flush (h : flush env generation dimensions left batch ledger = .ok ledger') :
    Fills ledger ledger' := by
  unfold flush at h
  by_cases hbatch : batch = []
  · rw [if_pos hbatch] at h
    cases h
    exact .refl _
  · rw [if_neg hbatch] at h
    cases hcommit : env.commit (.vectors left) with
    | error e =>
      simp only [hcommit] at h
      cases h
    | ok =>
      simp only [hcommit] at h
      have hput : ledger.putGenerationVectors generation dimensions batch = .ok ledger' := h
      obtain ⟨vectors, heq, -⟩ := Ledger.of_putGenerationVectors_eq_ok hput
      exact ⟨fun hs => hs.putGenerationVectors hput, by rw [heq], by rw [heq], by rw [heq]⟩

theorem fills_flushRecords :
    Fills ledger (flushRecords env generation dimensions records batch ledger).2 := by
  induction records generalizing batch ledger with
  | nil =>
    unfold flushRecords
    cases hflush : flush env generation dimensions 0 batch ledger with
    | error e => exact .refl _
    | ok ledger' => exact fills_flush hflush
  | cons record records ih =>
    unfold flushRecords
    cases record with
    | error e => exact .refl _
    | ok record =>
      dsimp only
      split_ifs with hlength
      · cases hflush : flush env generation dimensions (records.length + 1) (batch ++ [record])
          ledger with
        | error e => exact .refl _
        | ok ledger' => exact (fills_flush hflush).trans ih
      · exact ih

/-- What a call leaves that does not activate: the pointers. -/
structure Prepares (ledger ledger' : Ledger) : Prop where
  sound : ledger.Sound → ledger'.Sound
  active : ledger'.activeGeneration = ledger.activeGeneration
  previous : ledger'.previousGeneration = ledger.previousGeneration

theorem Prepares.refl (ledger : Ledger) : Prepares ledger ledger := ⟨id, rfl, rfl⟩

theorem of_stage_eq_ok (h : stage encodeBinary env store identity ledger =
    .ok (generation, ledger')) :
    Prepares ledger ledger' ∧
      ∃ record, ledger'.generations generation = some record ∧ record.state = .staged := by
  unfold stage at h
  cases hnext : env.nextGeneration with
  | error e =>
    rw [hnext] at h
    cases h
  | ok next =>
    cases hfree : freeGeneration ledger next (2 ^ 64 - 1 - next) with
    | error e =>
      simp only [hnext, hfree, bind, Except.bind] at h
      cases h
    | ok free =>
      cases hcommit : env.commit .stage with
      | error e =>
        simp only [hnext, hfree, hcommit, bind, Except.bind] at h
        cases h
      | ok =>
        cases hstage : ledger.stageGeneration
            (stagedGeneration encodeBinary store identity free) with
        | error e =>
          simp only [hnext, hfree, hcommit, hstage, bind, Except.bind] at h
          cases h
        | ok staged =>
          simp only [hnext, hfree, hcommit, hstage, bind, Except.bind, pure, Except.pure] at h
          cases h
          obtain ⟨-, -, heq⟩ := Ledger.of_stageGeneration_eq_ok hstage
          refine ⟨⟨fun hs => hs.stageGeneration hstage, by rw [heq]; rfl, by rw [heq]; rfl⟩, ?_⟩
          refine ⟨stagedGeneration encodeBinary store identity generation, ?_, rfl⟩
          rw [heq]
          exact Ledger.insertGeneration_self

/-- **A generation that is prepared** is staged, and nothing else is served. -/
theorem prepares_prepare :
    Prepares ledger (prepare encodeBinary env store identity fault ledger).2 ∧
      ∀ generation, (prepare encodeBinary env store identity fault ledger).1 = .ok generation →
        ∃ record, (prepare encodeBinary env store identity fault ledger).2.generations generation =
          some record ∧ record.state = .staged := by
  unfold prepare
  cases hstage : stage encodeBinary env store identity ledger with
  | error e => exact ⟨.refl _, fun generation h => nomatch h⟩
  | ok result =>
    obtain ⟨generation, staged⟩ := result
    obtain ⟨hprepares, record, hrecord, hstate⟩ := of_stage_eq_ok hstage
    dsimp only
    cases inject fault .stage with
    | error e => exact ⟨hprepares, fun generation h => nomatch h⟩
    | ok =>
      dsimp only
      have hfills : Fills staged
          (flushRecords env generation store.dimensions store.records [] staged).2 :=
        fills_flushRecords
      cases hflush : flushRecords env generation store.dimensions store.records [] staged with
      | mk result filled =>
        rw [hflush] at hfills
        have hfilled : Prepares ledger filled :=
          ⟨hfills.sound ∘ hprepares.sound, hfills.active.trans hprepares.active,
            hfills.previous.trans hprepares.previous⟩
        cases result with
        | error e => exact ⟨hfilled, fun generation h => nomatch h⟩
        | ok =>
          refine ⟨hfilled, fun other h => ?_⟩
          have hother : other = generation := by
            dsimp only at h
            revert h
            cases (do
                inject fault .records
                env.writeArtifact generation
                inject fault .artifact) with
            | error e => exact fun h => nomatch h
            | ok => exact fun h => (Except.ok.inj h).symm
          subst hother
          exact ⟨record, by rw [hfills.generations, hrecord], hstate⟩

/-- What a call leaves that activates a generation. -/
structure Activates (ledger : Ledger) (generation : Nat) (ledger' : Ledger) : Prop where
  sound : ledger.Sound → ledger'.Sound
  active : ledger'.activeGeneration = some generation
  previous : ledger'.previousGeneration = ledger.activeGeneration.or ledger.previousGeneration

/-- **A publication** leaves what is served or activates another generation. -/
theorem prepareAndActivate_cases (hs : ledger.Sound) :
    (prepareAndActivate encodeBinary env store identity fault ledger).1.isOk = false ∧
        Prepares ledger (prepareAndActivate encodeBinary env store identity fault ledger).2 ∨
      (prepareAndActivate encodeBinary env store identity fault ledger).1.isOk ∧
        ∃ generation, ledger.activeGeneration ≠ some generation ∧ Activates ledger generation
          (prepareAndActivate encodeBinary env store identity fault ledger).2 := by
  have hprepare : Prepares ledger (prepare encodeBinary env store identity fault ledger).2 ∧ _ :=
    prepares_prepare
  unfold prepareAndActivate
  cases hresult : prepare encodeBinary env store identity fault ledger with
  | mk result prepared =>
    rw [hresult] at hprepare
    obtain ⟨hprepares, hstaged⟩ := hprepare
    cases result with
    | error e => exact .inl ⟨rfl, hprepares⟩
    | ok generation =>
      dsimp only
      cases hcommit : env.commit .complete with
      | error e => exact .inl ⟨rfl, hprepares⟩
      | ok =>
        cases hcomplete : prepared.completeAndActivateGeneration generation with
        | error e => exact .inl ⟨rfl, hprepares⟩
        | ok activated =>
          refine .inr ⟨rfl, generation, fun hactive => ?_, ?_⟩
          · obtain ⟨record, hrecord, hstate⟩ := hstaged generation rfl
            obtain ⟨record', hrecord', hstate', -⟩ :=
              (hprepares.sound hs).active generation (hprepares.active.trans hactive)
            cases hrecord.symm.trans hrecord'
            rw [hstate] at hstate'
            cases hstate'
          · obtain ⟨record, -, -, heq⟩ :=
              Ledger.of_completeAndActivateGeneration_eq_ok hcomplete
            constructor
            · exact fun hs => (hprepares.sound hs).completeAndActivateGeneration hcomplete
            · exact congrArg Ledger.activeGeneration heq
            · refine (congrArg Ledger.previousGeneration heq).trans ?_
              change prepared.activeGeneration.or prepared.previousGeneration = _
              rw [hprepares.active, hprepares.previous]

theorem publish_snd : (publish encodeBinary env store identity fault ledger).2 =
    (prepareAndActivate encodeBinary env store identity fault ledger).2 := by
  unfold publish
  cases prepareAndActivate encodeBinary env store identity fault ledger with
  | mk result prepared => cases result <;> rfl

/-- **A selection** leaves the ledger or activates the generation. -/
theorem select_cases (encodeBinary : ManifestId → List UInt8) (env : Environment)
    (generation : Nat) (identity : ManifestId) (ledger : Ledger) :
    ((checkSelection encodeBinary generation identity ledger).isOk ∧ (env.commit .select).isOk) ∧
        Activates ledger generation (select encodeBinary env generation identity ledger).2 ∨
      ¬ ((checkSelection encodeBinary generation identity ledger).isOk ∧
          (env.commit .select).isOk) ∧
        (select encodeBinary env generation identity ledger).2 = ledger := by
  unfold select
  cases hcheck : checkSelection encodeBinary generation identity ledger with
  | error e => exact .inr ⟨fun h => absurd h.1 (by simp [Except.isOk, Except.toBool]), rfl⟩
  | ok =>
    cases hcommit : env.commit .select with
    | error e => exact .inr ⟨fun h => absurd h.2 (by simp [Except.isOk, Except.toBool]), rfl⟩
    | ok =>
      have hselect : ledger.selectCompleteGeneration generation =
          .ok (ledger.activate generation) := by
        unfold checkSelection at hcheck
        unfold Ledger.selectCompleteGeneration
        cases hrecord : ledger.generations generation with
        | none =>
          rw [hrecord] at hcheck
          cases hcheck
        | some record =>
          rw [hrecord] at hcheck
          dsimp only at hcheck ⊢
          split_ifs at hcheck with hrefused
          rw [if_neg fun hstate => hrefused (.inl hstate)]
      left
      refine ⟨⟨rfl, rfl⟩, ?_⟩
      simp only [hselect, bind, Except.bind]
      exact ⟨fun hs => hs.selectCompleteGeneration hselect, rfl, rfl⟩

end Calls

/-! ## All calls -/

namespace History

variable {encodeBinary : ManifestId → List UInt8} {s : History} {ledger : Ledger}
  {generation : Nat} {call : Call}

structure Inv (s : History) : Prop where
  sound : s.ledger.Sound
  unused : s.ledger.activeGeneration = none → s.actives = []
  mem : ∀ generation, s.ledger.activeGeneration = some generation → generation ∈ s.actives

theorem Inv.initial : Inv initial := ⟨.empty, fun _ => rfl, fun _ h => nomatch h⟩

/-- The history after a call that leaves this ledger. -/
def after (s : History) (ledger : Ledger) : History :=
  ⟨ledger, ledger.activeGeneration.toList ++ s.actives⟩

theorem next_eq_after : next encodeBinary s call =
    s.after (ledgerAfter encodeBinary s.ledger call) :=
  rfl

theorem Inv.after (h : Inv s) (hsound : ledger.Sound)
    (hnone : ledger.activeGeneration = none → s.ledger.activeGeneration = none) :
    Inv (s.after ledger) := by
  constructor
  case sound => exact hsound
  case unused =>
    intro hactive
    have hactive : ledger.activeGeneration = none := hactive
    unfold History.after
    rw [hactive, h.unused (hnone hactive)]
    rfl
  case mem =>
    intro generation hactive
    have hactive : ledger.activeGeneration = some generation := hactive
    unfold History.after
    rw [hactive]
    exact List.mem_cons_self

theorem rollbackKept_after_prepares (h : Inv s) (hkept : s.RollbackKept)
    (hprepares : Prepares s.ledger ledger) : (s.after ledger).RollbackKept := by
  intro htwo
  have hmem : ∀ a, a ∈ (s.after ledger).actives → a ∈ s.actives := by
    intro a ha
    unfold History.after at ha
    rw [hprepares.active] at ha
    cases hactive : s.ledger.activeGeneration with
    | none => simpa [hactive] using ha
    | some generation =>
      rw [hactive] at ha
      rcases List.mem_cons.1 ha with rfl | ha
      · exact h.mem a hactive
      · exact ha
  obtain ⟨a, ha, b, hb, hne⟩ := htwo
  obtain ⟨previous, hprevious, -, hother⟩ := hkept ⟨a, hmem a ha, b, hmem b hb, hne⟩
  have hprevious : ledger.previousGeneration = some previous := hprepares.previous.trans hprevious
  refine ⟨previous, hprevious, (hprepares.sound h.sound).previous previous hprevious, ?_⟩
  change ledger.activeGeneration ≠ some previous
  rwa [hprepares.active]

/-- A call that activates a generation keeps the other one, if it is another. -/
theorem rollbackKept_after_activates (h : Inv s)
    (hactivates : Activates s.ledger generation ledger) :
    (s.after ledger).RollbackKept ↔
      (s.TwoActive → s.ledger.activeGeneration ≠ some generation) := by
  have hactives : (s.after ledger).actives = generation :: s.actives := by
    unfold History.after
    rw [hactivates.active]
    rfl
  unfold RollbackKept TwoActive
  rw [hactives]
  change (_ → ∃ previous, ledger.previousGeneration = some previous ∧ ledger.Complete previous ∧
    ledger.activeGeneration ≠ some previous) ↔ _
  rw [hactivates.previous, hactivates.active]
  cases hactive : s.ledger.activeGeneration with
  | none =>
    have hnil : s.actives = [] := h.unused hactive
    simp [hnil]
  | some active =>
    have hmem : active ∈ s.actives := h.mem active hactive
    have hcomplete : ledger.Complete active :=
      (hactivates.sound h.sound).previous active (by rw [hactivates.previous, hactive]; rfl)
    rw [Option.some_or]
    constructor
    · rintro hkept ⟨a, ha, b, hb, hne⟩ heq
      obtain ⟨previous, hprevious, -, hother⟩ :=
        hkept ⟨a, List.mem_cons_of_mem _ ha, b, List.mem_cons_of_mem _ hb, hne⟩
      exact hother (heq.symm.trans hprevious)
    · rintro hother ⟨a, ha, b, hb, hne⟩
      refine ⟨active, rfl, hcomplete, ?_⟩
      rw [ne_eq, Option.some.injEq]
      rintro rfl
      have hold : ∀ x ∈ generation :: s.actives, x ∈ s.actives := fun x hx =>
        (List.mem_cons.1 hx).elim (fun heq => heq ▸ hmem) id
      exact hother ⟨a, hold a ha, b, hold b hb, hne⟩ rfl

/-- **A call** keeps the invariant, and what there is to go back to unless it selects what is
served. -/
theorem next_spec (h : Inv s) (hkept : s.RollbackKept) :
    Inv (next encodeBinary s call) ∧
      ((next encodeBinary s call).RollbackKept ↔ SelectsOther encodeBinary s call) := by
  have hprepares : ∀ ledger, Prepares s.ledger ledger →
      Inv (s.after ledger) ∧ (s.after ledger).RollbackKept := fun ledger hprepares =>
    ⟨h.after (hprepares.sound h.sound) fun hactive => hprepares.active.symm.trans hactive,
      rollbackKept_after_prepares h hkept hprepares⟩
  have hactivates : ∀ generation ledger, Activates s.ledger generation ledger →
      Inv (s.after ledger) := fun generation ledger hactivates =>
    h.after (hactivates.sound h.sound) fun hactive =>
      nomatch hactivates.active.symm.trans hactive
  have hselect : ∀ env generation identity,
      Inv (s.after (select encodeBinary env generation identity s.ledger).2) ∧
        ((s.after (select encodeBinary env generation identity s.ledger).2).RollbackKept ↔
          SelectsOther encodeBinary s (.select env generation identity)) := by
    intro env generation identity
    rcases select_cases encodeBinary env generation identity s.ledger with
      ⟨haccepted, hselected⟩ | ⟨hrefused, heq⟩
    · refine ⟨hactivates generation _ hselected, ?_⟩
      rw [rollbackKept_after_activates h hselected]
      constructor
      · exact fun hother htwo hactive _ => hother htwo hactive
      · exact fun hother htwo hactive => hother htwo hactive haccepted
    · rw [heq]
      obtain ⟨hinv, hkept⟩ := hprepares _ (.refl _)
      exact ⟨hinv, iff_of_true hkept fun _ _ => hrefused⟩
  rw [next_eq_after]
  cases call with
  | publish env store identity fault =>
    unfold ledgerAfter
    dsimp only
    rw [publish_snd]
    rcases prepareAndActivate_cases h.sound with
      ⟨-, hprepared⟩ | ⟨-, generation, hother, hactivated⟩
    · obtain ⟨hinv, hkept⟩ := hprepares _ hprepared
      exact ⟨hinv, iff_of_true hkept trivial⟩
    · refine ⟨hactivates generation _ hactivated, iff_of_true ?_ trivial⟩
      exact (rollbackKept_after_activates h hactivated).2 fun _ => hother
  | select env generation identity => exact hselect env generation identity
  | selectPrevious env identity =>
    unfold ledgerAfter selectPrevious
    dsimp only
    cases hprevious : s.ledger.previousGeneration with
    | none =>
      obtain ⟨hinv, hkept⟩ := hprepares _ (.refl _)
      exact ⟨hinv, iff_of_true hkept trivial⟩
    | some previous =>
      obtain ⟨hinv, hiff⟩ := hselect env previous identity
      refine ⟨hinv, iff_of_true (hiff.2 fun htwo hactive => ?_) trivial⟩
      obtain ⟨other, hother, -, hne⟩ := hkept htwo
      cases hprevious.symm.trans hother
      exact absurd hactive hne

/-- What a sequence of calls serves, and what it keeps to go back to. -/
structure Serves (encodeBinary : ManifestId → List UInt8) (calls : List Call) : Prop where
  active : ∀ before later, calls = before ++ later →
    (before.foldl (next encodeBinary) initial).ActiveComplete
  failure : ∀ before call later, calls = before ++ call :: later →
    FailureKeeps encodeBinary (before.foldl (next encodeBinary) initial) call
  rollback : ∀ before later, calls = before ++ later →
    (before.foldl (next encodeBinary) initial).RollbackKept

theorem failureKeeps (h : Inv s) : FailureKeeps encodeBinary s call := by
  cases call with
  | publish env store identity fault =>
    intro hfails
    rw [next_eq_after]
    change (publish encodeBinary env store identity fault s.ledger).2.activeGeneration = _ ∧
      (publish encodeBinary env store identity fault s.ledger).2.previousGeneration = _
    rw [publish_snd]
    rcases prepareAndActivate_cases h.sound with ⟨-, hprepared⟩ | ⟨hok, -⟩
    · exact ⟨hprepared.active, hprepared.previous⟩
    · rw [hfails] at hok
      cases hok
  | select => exact trivial
  | selectPrevious => exact trivial

/-- **What is served is complete and rollback is kept** if and only if no call selects the
generation that is served. -/
theorem serves_iff (encodeBinary : ManifestId → List UInt8) (calls : List Call) :
    Serves encodeBinary calls ↔ ∀ before call later, calls = before ++ call :: later →
      SelectsOther encodeBinary (before.foldl (next encodeBinary) initial) call := by
  have hkept : initial.RollbackKept := fun ⟨_, ha, _⟩ => nomatch ha
  have hrollback : (∀ before later, calls = before ++ later →
      (before.foldl (next encodeBinary) initial).RollbackKept) ↔
        ∀ before call later, calls = before ++ call :: later →
          SelectsOther encodeBinary (before.foldl (next encodeBinary) initial) call :=
    forall_states_iff hkept Inv.initial (fun s call h hkept _ => (next_spec h hkept).1)
      fun s call h hkept => (next_spec h hkept).2
  constructor
  · exact fun h => hrollback.1 h.rollback
  · intro hothers
    have hinv := invariant_of_states Inv.initial
      (fun s call h hkept _ => (next_spec h hkept).1) (hrollback.2 hothers)
    constructor
    case active => exact fun before later h => (hinv before later h).sound.active
    case failure =>
      intro before call later h
      exact failureKeeps (hinv before (call :: later) h)
    case rollback => exact hrollback.2 hothers

/-- A manager whose directory has no newer generation, and whose calls all go through. -/
def quiet (generation : Nat) : Environment where
  nextGeneration := .ok generation
  commit _ := .ok ()
  writeArtifact _ := .ok ()
  activateCurrent _ := .ok ()
  load := .ok ()

def single : VectorStore where
  dimensions := 1
  len := 1
  records := [.ok ⟨7, [0#32], []⟩]
  files := []
  corpusDigest := 0

def identity : ManifestId := ⟨"ArcticL", "1", 1, "cos", "f32", "exact", "raw-v2", "", "", "/"⟩

/-- Two publications, and the selection of the second. -/
def reselection : List Call :=
  [.publish (quiet 1) single identity none, .publish (quiet 2) single identity none,
    .select (quiet 3) 2 identity]

/-- The first publication can no longer be gone back to. -/
theorem not_serves_reselection : ¬ Serves (fun _ => []) reselection := by
  intro h
  have hactives : (reselection.foldl (next fun _ => []) initial).actives =
    [2, 2, 1] := by decide +kernel
  have hactive : (reselection.foldl (next fun _ => []) initial).ledger.activeGeneration =
    some 2 := by
    decide +kernel
  have hprevious : (reselection.foldl (next fun _ => []) initial).ledger.previousGeneration =
    some 2 := by
    decide +kernel
  obtain ⟨previous, hsome, -, hother⟩ := h.rollback reselection [] rfl
    ⟨1, by rw [hactives]; decide, 2, by rw [hactives]; decide, by decide⟩
  cases hprevious.symm.trans hsome
  exact hother hactive

end History

end TldrCode.Semantic
