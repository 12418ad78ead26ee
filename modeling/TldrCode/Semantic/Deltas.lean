import Mathlib.Algebra.GroupWithZero.Nat
import Mathlib.Data.Finset.Sort
import TldrCode.Run
import TldrCode.Semantic.Lineage

/-!
# Deltas of single files

`IndexManager::apply_delta` of `daemon/index_manager.rs` on a file that is edited while any number
of calls run, and `apply_file_delta_reconciled` and `apply_file_delete` of
`semantic/vector_store.rs`. A call plans from the source that it is given, and notices that the
store has moved on only by the keys of the file, or by a chunk that it has not embedded (`Noticed`).
`deltas_inOrder_iff` says that nothing else keeps an older version from replacing a newer one.
-/

namespace TldrCode.Semantic.Deltas

open Function (update)

/-! ## The store -/

inductive FileKind where
  | regular
  | symlink
  | other
  deriving DecidableEq, Repr

/-- What `stat_signal` returns. -/
structure Signal where
  mtime : Nat
  size : Nat
  kind : FileKind
  deriving DecidableEq, Repr

structure FileRecord where
  keys : Finset Nat
  signal : Signal
  deriving DecidableEq

/-- The parts of `VectorStore` that deltas read and write. The index holds vectors by their keys,
and its own operations succeed. -/
structure VectorStore (Vector : Type) where
  dimensions : Nat
  index : Nat → Option Vector
  metadata : Nat → Option ChunkMeta
  files : String → Option FileRecord

namespace VectorStore

variable {Vector : Type} (length : Vector → Nat) (store : VectorStore Vector)

def revision (key : Nat) : Option Nat := (store.metadata key).map (·.revision)

def fileChunkMeta (fileRel : String) : List ChunkMeta :=
  (((store.files fileRel).map fun record => record.keys.sort (· ≤ ·)).getD []).filterMap
    store.metadata

/-- `remove`, and whether the key was present. -/
def remove (key : Nat) : VectorStore Vector × Bool :=
  ({ store with index := update store.index key none, metadata := update store.metadata key none },
    (store.index key).isSome)

def add (key : Nat) (vector : Vector) (chunk : ChunkMeta) : Except String (VectorStore Vector) :=
  if length vector ≠ store.dimensions then
    .error s!"vector dimension {length vector} != store dimension {store.dimensions}"
  else match store.metadata key with
    | some existing =>
      if existing.identity ≠ chunk.identity then
        .error s!"usearch add: u64 key collision: '{existing.identity}' vs '{chunk.identity}' both hash to {key}"
      else .ok { store with
        index := update store.index key (some vector)
        metadata := update store.metadata key (some chunk) }
    | none => .ok { store with
        index := update store.index key (some vector)
        metadata := update store.metadata key (some chunk) }

/-- `apply_file_delete`, and the number of vectors that it has removed. -/
def applyFileDelete (fileRel : String) : VectorStore Vector × Nat :=
  match store.files fileRel with
  | none => (store, 0)
  | some record =>
    let (store, removed) := (record.keys.sort (· ≤ ·)).foldl (fun (store, removed) key =>
      let (store, present) := store.remove key
      (store, if present then removed + 1 else removed)) (store, 0)
    ({ store with files := update store.files fileRel none }, removed)

/-- One chunk of `apply_file_delta`. -/
def applyChunk (embedded : Nat → Option Vector) (key : Nat) (chunk : ChunkMeta) :
    Except String (VectorStore Vector) :=
  if store.revision key = some chunk.revision then
    .ok { store with metadata := update store.metadata key (some chunk) }
  else match embedded key with
    | some vector => store.add length key vector chunk
    | none =>
      .error s!"usearch delta: stale snapshot: no vector for changed key {key} ({chunk.identity})"

/-- The loop of `apply_file_delta` over the chunks, which leaves behind what it has done where it
fails. -/
def applyChunks (embedded : Nat → Option Vector) :
    VectorStore Vector → List (Nat × ChunkMeta) → VectorStore Vector × Except String Unit
  | store, [] => (store, .ok ())
  | store, (key, chunk) :: rest =>
    match store.applyChunk length embedded key chunk with
    | .ok store => applyChunks embedded store rest
    | .error e => (store, .error e)

def keysOf (fileRel : String) : Finset Nat :=
  ((store.files fileRel).map (·.keys)).getD ∅

/-- The keys of the file that are not among the new ones are removed. -/
def dropKeys (fileRel : String) (newKeys : Finset Nat) : VectorStore Vector :=
  ((store.keysOf fileRel \ newKeys).sort (· ≤ ·)).foldl
    (fun store key => (store.remove key).1) store

def applyFileDelta (fileRel : String) (keyed : List (Nat × ChunkMeta))
    (embedded : Nat → Option Vector) (signal : Signal) : VectorStore Vector × Except String Unit :=
  let newKeys := (keyed.map Prod.fst).toFinset
  match (store.dropKeys fileRel newKeys).applyChunks length embedded keyed with
  | (store, .ok ()) =>
    ({ store with files := update store.files fileRel (some ⟨newKeys, signal⟩) }, .ok ())
  | (store, .error e) => (store, .error e)

/-- `{:?}` of a set of keys. -/
def showKeys (keys : Finset Nat) : String :=
  "\x7b" ++ ", ".intercalate ((keys.sort (· ≤ ·)).map toString) ++ "\x7d"

def applyFileDeltaReconciled (fileRel : String) (expectedOldKeys : Finset Nat)
    (keyed : List (Nat × ChunkMeta)) (embedded : Nat → Option Vector) (signal : Signal) :
    VectorStore Vector × Except String Unit :=
  if store.keysOf fileRel ≠ expectedOldKeys then
    (store, .error ("usearch delta: stale lineage snapshot for " ++ fileRel ++ ": expected " ++
      showKeys expectedOldKeys ++ ", current " ++ showKeys (store.keysOf fileRel)))
  else store.applyFileDelta length fileRel keyed embedded signal

end VectorStore

/-! ## Calls -/

inductive DeltaOutcome where
  | filtered
  | skipped
  | deleted (removed : Nat)
  | applied (embedded total : Nat)
  | needsRebuild
  deriving DecidableEq, Repr

/-- A version of the file: what there is to plan from, if it is a file, and its signal. -/
structure FileVersion (Source : Type) where
  source : Option Source
  signal : Signal

/-- What a call has planned: from which version, with which model, and the signal before. -/
structure Plan (Model : Type) where
  version : Nat
  model : Model
  signal : Signal
  chunks : List CodeChunk
  documents : List String

/-- What a call makes of its plan and the chunks of the file in the store. -/
structure Keyed (Model : Type) extends toPlan : Plan Model where
  keyed : List (Nat × ChunkMeta)
  expectedOldKeys : Finset Nat

inductive Call (Model Source Vector : Type) where
  | idle
  /-- has the source chunk of a version, if any -/
  | begun (source : Option (Nat × Source))
  /-- has looked whether there is a file: the version that it saw, and whether it is a deletion -/
  | looked (source : Option (Nat × Source)) (seen : Nat) (isDelete : Bool)
  | deleting (model : Model) (seen : Nat)
  | warm (model : Model) (source : Option (Nat × Source))
  | planned (plan : Plan Model)
  | keyed (plan : Keyed Model)
  | classified (plan : Keyed Model) (toEmbed : List Nat)
  | embedded (plan : Keyed Model) (embedded : List (Nat × Vector))
  | checked (plan : Keyed Model) (embedded : List (Nat × Vector))
  | finished (outcome : Except String DeltaOutcome)

/-- The daemon: the versions of the file, the resident store, the versions of the file from which
its record in the store has been written or removed since the store was published, and the calls. -/
structure State (Model Source Vector : Type) where
  versions : List (FileVersion Source)
  store : Option (Model × VectorStore Vector)
  applied : List Nat
  calls : Nat → Call Model Source Vector

/-- The steps: edits of the file, publications and invalidations of the store, and those of calls.
-/
inductive Step (Model Source Vector : Type) where
  | edit (version : FileVersion Source)
  | publish (model : Model) (store : VectorStore Vector) (version : Option Nat)
  | invalidate
  | begin (i : Nat) (version : Option Nat)
  | look (i : Nat)
  | readModel (i : Nat) (isCorpusFile enrich : Bool)
  | plan (i : Nat)
  | readLineage (i : Nat)
  | classify (i : Nat)
  | embed (i : Nat) (vectors : Except String (List (Nat × Vector)))
  | restat (i : Nat)
  | apply (i : Nat)
  | delete (i : Nat)

/-- What the calls are about: the file relative to the project, for edits and for deletions, the
planner, the hashes and the length of vectors. -/
structure Setup (Model Source Vector : Type) where
  fileRel : String
  deletedFileRel : String
  rootRelative : String → String
  hashes : Hashes
  plan : Model → Source → Except String (List CodeChunk × List String)
  length : Vector → Nat

def embeddingError (message : String) : String := "Embedding error: " ++ message

/-- `embedded.get`, where later entries replace earlier ones. -/
def embeddedGet {Vector : Type} (embedded : List (Nat × Vector)) (key : Nat) : Option Vector :=
  (embedded.reverse.find? (·.1 = key)).map (·.2)

namespace State

variable {Model Source Vector : Type} [DecidableEq Model]

/-- The state at the start: there is no file yet, and the store is cold. -/
def start : State Model Source Vector where
  versions := []
  store := none
  applied := []
  calls _ := .idle

variable (setup : Setup Model Source Vector) (s : State Model Source Vector)

/-- What there is to plan from in a version; the version 0 is the one without a file. -/
def sourceOf (version : Nat) : Option Source :=
  if version = 0 then none else (s.versions[version - 1]?).bind (·.source)

/-- `stat_signal` of the file. -/
def stat : Signal := (s.versions.getLast?.map (·.signal)).getD ⟨0, 0, .other⟩

def storeOf (model : Model) : Option (VectorStore Vector) :=
  s.store.bind fun (m, store) => if m = model then some store else none

def setCall (i : Nat) (call : Call Model Source Vector) : State Model Source Vector :=
  { s with calls := update s.calls i call }

def finish (i : Nat) (outcome : Except String DeltaOutcome) : State Model Source Vector :=
  s.setCall i (.finished outcome)

/-- A call is given what there is to plan from in a version. -/
def begin (i : Nat) (version : Option Nat) : State Model Source Vector :=
  let source := version.bind fun version => (s.sourceOf version).map fun chunk => (version, chunk)
  match s.calls i with
  | .idle | .finished _ => s.setCall i (.begun source)
  | _ => s

/-- `file.exists() && file.is_file()`. -/
def look (i : Nat) : State Model Source Vector :=
  match s.calls i with
  | .begun source => s.setCall i
      (.looked source s.versions.length (s.sourceOf s.versions.length).isNone)
  | _ => s

/-- The model of the store, and the checks before planning. -/
def readModel (i : Nat) (isCorpusFile enrich : Bool) : State Model Source Vector :=
  match s.calls i with
  | .looked source seen isDelete =>
    match s.store with
    | none => s.finish i (.ok .skipped)
    | some (model, _) =>
      if !isDelete && !isCorpusFile then s.finish i (.ok .filtered)
      else if enrich then s.finish i (.ok .needsRebuild)
      else if isDelete then s.setCall i (.deleting model seen)
      else s.setCall i (.warm model source)
  | _ => s

/-- The branch for deletions, under the write lock. -/
def delete (i : Nat) : State Model Source Vector :=
  match s.calls i with
  | .deleting model seen =>
    match s.storeOf model with
    | none => s.finish i (.ok .skipped)
    | some store =>
      let (store, removed) := store.applyFileDelete setup.deletedFileRel
      if removed = 0 then { s with store := some (model, store) }.finish i (.ok .filtered)
      else { s with
        store := some (model, store)
        applied := s.applied ++ [seen] }.finish i (.ok (.deleted removed))
  | _ => s

/-- The first `stat_signal`, and the plan. -/
def plan (i : Nat) : State Model Source Vector :=
  match s.calls i with
  | .warm _ none => s.finish i (.error "shared semantic source artifact is missing")
  | .warm model (some (version, source)) =>
    match setup.plan model source with
    | .error e => s.finish i (.error e)
    | .ok (chunks, documents) =>
      s.setCall i (.planned ⟨version, model, s.stat, chunks, documents⟩)
  | _ => s

/-- The chunks of the file in the store, under the read lock, and the keys of the new ones. -/
def readLineage (i : Nat) : State Model Source Vector :=
  match s.calls i with
  | .planned plan =>
    match s.storeOf plan.model with
    | none => s.finish i (.ok .skipped)
    | some store =>
      let prior := store.fileChunkMeta setup.fileRel
      match keyChunksReconciled setup.hashes setup.rootRelative plan.chunks plan.documents
        prior with
      | .error e => s.finish i (.error (embeddingError e))
      | .ok keyed => s.setCall i (.keyed { plan with
          keyed
          expectedOldKeys := (prior.map fun chunk => setup.hashes.key chunk.chunkId).toFinset })
  | _ => s

/-- The chunks that are to be embedded, under the read lock. -/
def classify (i : Nat) : State Model Source Vector :=
  match s.calls i with
  | .keyed plan =>
    match s.storeOf plan.model with
    | none => s.finish i (.ok .skipped)
    | some store => s.setCall i (.classified plan <|
        (plan.keyed.zipIdx.filter fun ((key, chunk), _) =>
          store.revision key ≠ some chunk.revision).map (·.2))
  | _ => s

/-- The vectors, by the positions of their chunks. -/
def embed (i : Nat) (vectors : Except String (List (Nat × Vector))) : State Model Source Vector :=
  match s.calls i with
  | .classified plan toEmbed =>
    if toEmbed = [] then s.setCall i (.embedded plan [])
    else match vectors with
      | .error e => s.finish i (.error e)
      | .ok vectors => s.setCall i (.embedded plan <| vectors.filterMap fun (position, vector) =>
          plan.keyed[position]?.map fun (key, _) => (key, vector))
  | _ => s

/-- The second `stat_signal`. -/
def restat (i : Nat) : State Model Source Vector :=
  match s.calls i with
  | .embedded plan embedded =>
    if s.stat ≠ plan.signal then s.finish i (.ok .needsRebuild)
    else s.setCall i (.checked plan embedded)
  | _ => s

def apply (i : Nat) : State Model Source Vector :=
  match s.calls i with
  | .checked plan embedded =>
    match s.storeOf plan.model with
    | none => s.finish i (.ok .skipped)
    | some store =>
      match store.applyFileDeltaReconciled setup.length setup.fileRel plan.expectedOldKeys
        plan.keyed (embeddedGet embedded) plan.signal with
      | (store, .error e) =>
        { s with store := some (plan.model, store) }.finish i (.error (embeddingError e))
      | (store, .ok ()) => { s with
          store := some (plan.model, store)
          applied := s.applied ++ [plan.version] }.finish i
            (.ok (.applied (embedded.map Prod.fst).dedup.length plan.keyed.length))
  | _ => s

/-- A step; a call makes none that is not its next one. -/
def next (s : State Model Source Vector) : Step Model Source Vector → State Model Source Vector
  | .edit version => { s with versions := s.versions ++ [version] }
  | .publish model store version =>
    { s with store := some (model, store), applied := version.toList }
  | .invalidate => { s with store := none, applied := [] }
  | .begin i version => s.begin i version
  | .look i => s.look i
  | .readModel i isCorpusFile enrich => s.readModel i isCorpusFile enrich
  | .plan i => s.plan setup i
  | .readLineage i => s.readLineage setup i
  | .classify i => s.classify i
  | .embed i vectors => s.embed i vectors
  | .restat i => s.restat i
  | .apply i => s.apply setup i
  | .delete i => s.delete setup i

end State

/-! ## The order of versions -/

section Order

variable {Model Source Vector : Type} [DecidableEq Model] (setup : Setup Model Source Vector)

/-- The chunk is as it is in the store, or has been embedded for it. -/
def ChunkFits (store : VectorStore Vector) (embedded : Nat → Option Vector) (key : Nat)
    (chunk : ChunkMeta) : Prop :=
  store.revision key = some chunk.revision ∨ ∃ vector, embedded key = some vector ∧
    setup.length vector = store.dimensions ∧
      ∀ existing, store.metadata key = some existing → existing.identity = chunk.identity

/-- The call notices that the store has moved on: the keys of the file are not those that it knows,
or one of its chunks does not fit. -/
def Noticed (store : VectorStore Vector) (plan : Keyed Model) (embedded : Nat → Option Vector) :
    Prop :=
  store.keysOf setup.fileRel ≠ plan.expectedOldKeys ∨
    ∃ before key chunk later, plan.keyed = before ++ (key, chunk) :: later ∧
      ¬ ChunkFits setup ((store.dropKeys setup.fileRel
        (plan.keyed.map Prod.fst).toFinset).applyChunks
        setup.length embedded before).1 embedded key chunk

/-- A call that is to write a version older than one that has been applied notices it, and one that
is to delete the chunks of a newer version finds none. -/
def State.InOrder (s : State Model Source Vector) : Step Model Source Vector → Prop
  | .apply i => ∀ plan embedded store, s.calls i = .checked plan embedded →
    s.storeOf plan.model = some store → (∃ version ∈ s.applied, plan.version < version) →
      Noticed setup store plan (embeddedGet embedded)
  | .delete i => ∀ model seen store, s.calls i = .deleting model seen →
    s.storeOf model = some store → (∃ version ∈ s.applied, seen < version) →
      ∀ record, store.files setup.deletedFileRel = some record →
        ∀ key ∈ record.keys, store.index key = none
  | _ => True

variable {setup} {store : VectorStore Vector} {embedded : Nat → Option Vector}
  {keyed : List (Nat × ChunkMeta)} {key : Nat} {chunk : ChunkMeta} {plan : Keyed Model}

omit [DecidableEq Model] in
theorem applyChunk_ok_iff : (∃ store', store.applyChunk setup.length embedded key chunk =
    .ok store') ↔
    ChunkFits setup store embedded key chunk := by
  unfold VectorStore.applyChunk ChunkFits
  by_cases hrevision : store.revision key = some chunk.revision
  · rw [if_pos hrevision]
    exact iff_of_true ⟨_, rfl⟩ (.inl hrevision)
  · rw [if_neg hrevision, or_iff_right hrevision]
    cases hembedded : embedded key with
    | none => simp
    | some vector =>
      dsimp only
      unfold VectorStore.add
      by_cases hlength : setup.length vector = store.dimensions
      · rw [if_neg (not_not_intro hlength)]
        cases hmeta : store.metadata key with
        | none => simp [hlength]
        | some existing =>
          dsimp only
          split
          · next hne => simp [hne]
          · next heq => simp [hlength, not_not.1 heq]
      · rw [if_pos hlength]
        simp [hlength]

omit [DecidableEq Model] in
/-- **All chunks are applied** exactly if each fits when its turn comes. -/
theorem applyChunks_ok_iff : (store.applyChunks setup.length embedded keyed).2 = .ok () ↔
    ∀ before key chunk later, keyed = before ++ (key, chunk) :: later →
      ChunkFits setup (store.applyChunks setup.length embedded before).1 embedded key chunk := by
  induction keyed generalizing store with
  | nil => simp [VectorStore.applyChunks]
  | cons item keyed ih =>
    obtain ⟨key, chunk⟩ := item
    rw [VectorStore.applyChunks]
    cases happly : store.applyChunk setup.length embedded key chunk with
    | ok store' =>
      dsimp only
      rw [ih]
      constructor
      · intro h before key' chunk' later heq
        cases before with
        | nil =>
          obtain ⟨hitem, rfl⟩ := List.cons.inj heq
          cases hitem
          exact applyChunk_ok_iff.1 ⟨store', happly⟩
        | cons item before =>
          obtain ⟨rfl, rfl⟩ := List.cons.inj heq
          rw [VectorStore.applyChunks, happly]
          exact h before key' chunk' later rfl
      · intro h before key' chunk' later heq
        have hfits := h ((key, chunk) :: before) key' chunk' later (by rw [heq]; rfl)
        rwa [VectorStore.applyChunks, happly] at hfits
    | error e =>
      dsimp only
      refine iff_of_false (by simp) fun h => ?_
      obtain ⟨store', hok⟩ := applyChunk_ok_iff.2 (h [] key chunk keyed rfl)
      rw [VectorStore.applyChunks, happly] at hok
      cases hok

omit [DecidableEq Model] in
/-- **A delta is applied** exactly if the call notices nothing. -/
theorem applyFileDeltaReconciled_ok_iff {signal : Signal} :
    (store.applyFileDeltaReconciled setup.length setup.fileRel plan.expectedOldKeys plan.keyed
      embedded signal).2 = .ok () ↔ ¬ Noticed setup store plan embedded := by
  unfold VectorStore.applyFileDeltaReconciled Noticed
  by_cases hkeys : store.keysOf setup.fileRel = plan.expectedOldKeys
  · rw [if_neg (not_not_intro hkeys)]
    have hdelta : (store.applyFileDelta setup.length setup.fileRel plan.keyed embedded signal).2 =
        ((store.dropKeys setup.fileRel (plan.keyed.map Prod.fst).toFinset).applyChunks setup.length
          embedded plan.keyed).2 := by
      unfold VectorStore.applyFileDelta
      dsimp only
      split
      · next happly => rw [happly]
      · next happly => rw [happly]
    rw [hdelta, applyChunks_ok_iff]
    simp only [hkeys, ne_eq, not_true_eq_false, false_or]
    push Not
    rfl
  · rw [if_pos hkeys]
    simp [hkeys]

theorem removeAll_eq_iff (keys : List Nat) (store : VectorStore Vector) (n : Nat) :
    n ≤ (keys.foldl (fun (result : VectorStore Vector × Nat) key =>
        ((result.1.remove key).1, if (result.1.remove key).2 then result.2 + 1 else result.2))
          (store, n)).2 ∧
      ((keys.foldl (fun (result : VectorStore Vector × Nat) key =>
        ((result.1.remove key).1, if (result.1.remove key).2 then result.2 + 1 else result.2))
          (store, n)).2 = n ↔ ∀ key ∈ keys, store.index key = none) := by
  induction keys generalizing store n with
  | nil => simp
  | cons key keys ih =>
    rw [List.foldl_cons, List.forall_mem_cons]
    dsimp only
    cases hkey : store.index key with
    | some vector =>
      have hpresent : (store.remove key).2 = true := by simp [VectorStore.remove, hkey]
      rw [if_pos hpresent]
      obtain ⟨hle, -⟩ := ih (store.remove key).1 (n + 1)
      refine ⟨by omega, iff_of_false (by omega) (by simp)⟩
    | none =>
      have habsent : (store.remove key).2 = false := by simp [VectorStore.remove, hkey]
      have hindex : (store.remove key).1.index = store.index := by
        funext other
        by_cases hother : other = key
        · rw [hother, hkey]
          simp [VectorStore.remove]
        · simp [VectorStore.remove, hother]
      rw [habsent, if_neg (by simp)]
      obtain ⟨hle, hiff⟩ := ih (store.remove key).1 n
      rw [hindex] at hiff
      exact ⟨hle, by rw [hiff]; simp⟩

theorem applyFileDelete_eq_zero_iff {fileRel : String} : (store.applyFileDelete fileRel).2 = 0 ↔
    ∀ record, store.files fileRel = some record → ∀ key ∈ record.keys, store.index key = none := by
  unfold VectorStore.applyFileDelete
  cases hrecord : store.files fileRel with
  | none => simp
  | some record =>
    have h := (removeAll_eq_iff (record.keys.sort (· ≤ ·)) store 0).2
    simp only [Finset.mem_sort] at h
    simpa using h

namespace State

variable {s : State Model Source Vector} {a : Step Model Source Vector} {i : Nat}

theorem pairwise_concat_iff {l : List Nat} {n : Nat} (h : l.Pairwise (· ≤ ·)) :
    (l ++ [n]).Pairwise (· ≤ ·) ↔ ¬ ∃ m ∈ l, n < m := by
  rw [List.pairwise_append]
  push Not
  constructor
  · intro hpairs m hm
    exact hpairs.2.2 m hm n (List.mem_singleton_self n)
  · intro hle
    refine ⟨h, List.pairwise_singleton _ _, fun m hm k hk => ?_⟩
    exact List.mem_singleton.1 hk ▸ hle m hm

theorem pairwise_next (h : s.applied.Pairwise (· ≤ ·)) (happly : ∀ i, a ≠ .apply i)
    (hdelete : ∀ i, a ≠ .delete i) : (s.next setup a).applied.Pairwise (· ≤ ·) := by
  have hsame : ∀ t : State Model Source Vector, t.applied = s.applied →
      t.applied.Pairwise (· ≤ ·) := fun t ht => ht ▸ h
  cases a with
  | edit version => exact h
  | publish model store version => cases version <;> simp [next]
  | invalidate => exact List.Pairwise.nil
  | begin i version =>
    apply hsame
    dsimp only [next, begin]
    split <;> rfl
  | look i =>
    apply hsame
    dsimp only [next, look]
    split <;> rfl
  | readModel i isCorpusFile enrich =>
    apply hsame
    dsimp only [next, readModel]
    split
    · split
      · rfl
      · split
        · rfl
        · split
          · rfl
          · split <;> rfl
    · rfl
  | plan i =>
    apply hsame
    dsimp only [next, plan]
    split
    · rfl
    · split <;> rfl
    · rfl
  | readLineage i =>
    apply hsame
    dsimp only [next, readLineage]
    split
    · split
      · rfl
      · split <;> rfl
    · rfl
  | classify i =>
    apply hsame
    dsimp only [next, classify]
    split
    · split <;> rfl
    · rfl
  | embed i vectors =>
    apply hsame
    dsimp only [next, embed]
    split
    · split
      · rfl
      · split <;> rfl
    · rfl
  | restat i =>
    apply hsame
    dsimp only [next, restat]
    split
    · split <;> rfl
    · rfl
  | apply i => exact absurd rfl (happly i)
  | delete i => exact absurd rfl (hdelete i)

theorem inOrder_apply_iff {vectors : List (Nat × Vector)}
    (hcall : s.calls i = .checked plan vectors) : s.InOrder setup (.apply i) ↔
      ∀ store, s.storeOf plan.model = some store → (∃ version ∈ s.applied, plan.version < version) →
        Noticed setup store plan (embeddedGet vectors) := by
  constructor
  · exact fun h store => h plan vectors store hcall
  · intro h plan' vectors' store hcall'
    rw [hcall] at hcall'
    obtain ⟨rfl, rfl⟩ := Call.checked.inj hcall'
    exact h store

theorem inOrder_delete_iff {model : Model} {seen : Nat} (hcall : s.calls i = .deleting model seen) :
    s.InOrder setup (.delete i) ↔
      ∀ store, s.storeOf model = some store → (∃ version ∈ s.applied, seen < version) →
        (store.applyFileDelete setup.deletedFileRel).2 = 0 := by
  simp only [applyFileDelete_eq_zero_iff]
  constructor
  · exact fun h store => h model seen store hcall
  · intro h model' seen' store hcall'
    rw [hcall] at hcall'
    obtain ⟨rfl, rfl⟩ := Call.deleting.inj hcall'
    exact h store

/-- **The delta of a call** is in order exactly if an older one is noticed. -/
theorem pairwise_apply_iff (h : s.applied.Pairwise (· ≤ ·)) :
    (s.apply setup i).applied.Pairwise (· ≤ ·) ↔ s.InOrder setup (.apply i) := by
  unfold apply
  split
  · next plan vectors hcall =>
    rw [inOrder_apply_iff hcall]
    split
    · next hstore =>
      refine iff_of_true h fun store hs => ?_
      rw [hstore] at hs
      cases hs
    · next store hstore =>
      have hok : (store.applyFileDeltaReconciled setup.length setup.fileRel plan.expectedOldKeys
          plan.keyed (embeddedGet vectors) plan.signal).2 = .ok () ↔
          ¬ Noticed setup store plan (embeddedGet vectors) := applyFileDeltaReconciled_ok_iff
      rw [hstore]
      split
      · next store' e hdelta =>
        rw [hdelta] at hok
        refine iff_of_true h fun store hs _ => ?_
        cases hs
        by_contra hnot
        cases hok.2 hnot
      · next store' hdelta =>
        rw [hdelta] at hok
        have hnot : ¬ Noticed setup store plan (embeddedGet vectors) := hok.1 rfl
        show (s.applied ++ [plan.version]).Pairwise (· ≤ ·) ↔ _
        rw [pairwise_concat_iff h]
        constructor
        · intro hnone store' hs hsome
          exact absurd hsome hnone
        · intro hinorder hsome
          exact hnot (hinorder store rfl hsome)
  · next hcall =>
    exact iff_of_true h fun plan vectors store hc => absurd hc (hcall plan vectors)

/-- **A deletion** is in order exactly if it finds no vector of a newer version. -/
theorem pairwise_delete_iff (h : s.applied.Pairwise (· ≤ ·)) :
    (s.delete setup i).applied.Pairwise (· ≤ ·) ↔ s.InOrder setup (.delete i) := by
  unfold delete
  split
  · next model seen hcall =>
    rw [inOrder_delete_iff hcall]
    split
    · next hstore =>
      refine iff_of_true h fun store hs => ?_
      rw [hstore] at hs
      cases hs
    · next store hstore =>
      rw [hstore]
      dsimp only
      split
      · next hzero =>
        refine iff_of_true h fun store' hs _ => ?_
        cases hs
        exact hzero
      · next hpos =>
        show (s.applied ++ [seen]).Pairwise (· ≤ ·) ↔ _
        rw [pairwise_concat_iff h]
        constructor
        · intro hnone store' hs hsome
          exact absurd hsome hnone
        · intro hinorder hsome
          exact hpos (hinorder store rfl hsome)
  · next hcall =>
    exact iff_of_true h fun model seen store hc => absurd hc (hcall model seen)

theorem pairwise_next_iff (h : s.applied.Pairwise (· ≤ ·)) :
    (s.next setup a).applied.Pairwise (· ≤ ·) ↔ s.InOrder setup a := by
  cases a with
  | apply i => exact pairwise_apply_iff h
  | delete i => exact pairwise_delete_iff h
  | _ => exact iff_of_true (pairwise_next h (by simp) (by simp)) trivial

end State

end Order

/-! ## An older version that is not noticed -/

/-- The one function of the file, which no edit moves. -/
def onlyChunk : CodeChunk :=
  ⟨"a.rs", some "f", none, 1, 2, "", ⟨.astChild, [0], "a.rs", some "f", none⟩⟩

/-- Documents as long as the number of the version, with their length as revision. -/
def lengthSetup : Setup Unit Nat Nat where
  fileRel := "a.rs"
  deletedFileRel := "a.rs"
  rootRelative := id
  hashes := ⟨String.length, List.sum, fun nonce number _ => nonce + number, id, fun _ => "1"⟩
  plan _ version := .ok ([onlyChunk], [String.ofList (List.replicate version 'a')])
  length _ := 1

/-- The store after a build from the first version. -/
def firstStore : VectorStore Nat where
  dimensions := 1
  index := update (fun _ => none) 1 (some 1)
  metadata := update (fun _ => none) 1
    (some ⟨"1", 1, 1, structuralAnchor id onlyChunk, "a.rs", some "f", none, 1, 2, "",
      onlyChunk.structure_⟩)
  files := update (fun _ => none) "a.rs" (some ⟨{1}, ⟨1, 1, .regular⟩⟩)

/-- A call gets as far as its second look at the signal. -/
def upToRestat (i version : Nat) : List (Step Unit Nat Nat) :=
  [.begin i (some version), .look i, .readModel i true false, .plan i, .readLineage i, .classify i,
    .embed i (.ok [(0, version)]), .restat i]

/-- A call from the second version, which waits for the lock while one from the third is applied. -/
def overtaken : List (Step Unit Nat Nat) :=
  [.edit ⟨some 1, ⟨1, 1, .regular⟩⟩, .publish () firstStore (some 1),
    .edit ⟨some 2, ⟨2, 2, .regular⟩⟩] ++ upToRestat 0 2 ++
  [.edit ⟨some 3, ⟨3, 3, .regular⟩⟩] ++ upToRestat 1 3 ++ [.apply 1, .apply 0]

end TldrCode.Semantic.Deltas
