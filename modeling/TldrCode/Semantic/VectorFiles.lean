import Mathlib.Data.List.Sort
import TldrCode.FileOps
import TldrCode.Run
import TldrCode.Semantic.Ledger
import TldrCode.Types

/-!
# Files of vector stores

`VectorStore::save` and `VectorStore::load` of `semantic/vector_store.rs` on the files of one
directory. A save may be cut off after any of its operations and within any of its writes. What
`CURRENT` names is always written to its end, so that a load after a save that was completed returns
what that save or a later one wrote (`crashConsistent`).
-/

namespace TldrCode.Semantic.VectorFiles

open FileOp

/-- A generation number is a `u64`. -/
def u64Max : Nat := 2 ^ 64 - 1

inductive FileName where
  | current
  | currentTmp
  | stagedIndex (generation : Nat)
  | index (generation : Nat)
  | metadata (generation : Nat)
  | manifest (generation : Nat)
  deriving DecidableEq, Repr

def FileName.parseGen : FileName → Option Nat
  | .index generation | .metadata generation | .manifest generation => some generation
  | _ => none

/-- `encode_binary` and `decode_binary` at a type. -/
structure Codec (α Content : Type) where
  encode : α → Content
  decode : Content → Option α
  decode_encode : ∀ a, decode (encode a) = some a

/-- The index, as far as it is saved and checked: `load` is with dimensions and a capacity. -/
structure Usearch (Index Content : Type) where
  save : Index → Content
  load : Nat → Nat → Content → Option Index
  size : Index → Nat
  contains : Index → Nat → Bool
  load_save : ∀ dimensions capacity index, load dimensions capacity (save index) = some index

structure Manifest where
  formatVersion : Nat
  generation : Nat
  id : ManifestId
  chunkCount : Nat
  keysChecksum : Nat
  indexChecksum : Nat
  sidecarChecksum : Nat
  corpusDigest : Nat
  deriving DecidableEq, Repr

structure CurrentPointer where
  magic : Nat
  generation : Nat
  checksum : Nat
  deriving DecidableEq, Repr

/-- `SidecarOwned`. -/
structure Sidecar (ChunkMeta Files : Type) where
  metadata : AList fun _ : Nat => ChunkMeta
  files : Files

def storeFormatVersion : Nat := 5

def currentMagic : Nat := 0x544C4452

def keepGens : Nat := 3

def minCapacity : Nat := 16

variable {Content Index ChunkMeta Files : Type}

structure Tools (Content Index ChunkMeta Files : Type) where
  usearch : Usearch Index Content
  sidecar : Codec (Sidecar ChunkMeta Files) Content
  manifest : Codec Manifest Content
  current : Codec CurrentPointer Content
  digestBytes : Content → Nat
  keysDigest : List Nat → Nat
  currentChecksum : Nat → Nat → Nat

/-- The parts of a `VectorStore` that are saved. The sidecar is kept in lockstep with the index. -/
structure VectorStore (tools : Tools Content Index ChunkMeta Files) where
  dimensions : Nat
  index : Index
  metadata : AList fun _ : Nat => ChunkMeta
  files : Files
  corpusDigest : Nat
  size_eq : tools.usearch.size index = metadata.keys.length
  contains : ∀ key ∈ metadata.keys, tools.usearch.contains index key

variable (tools : Tools Content Index ChunkMeta Files)

/-! ## Saves -/

def readCurrent (dir : Directory FileName Content) : Option CurrentPointer := do
  let bytes ← dir.lookup .current
  let current ← tools.current.decode bytes
  if current.magic ≠ currentMagic then none
  else if current.checksum ≠ tools.currentChecksum current.magic current.generation then none
  else some current

def manifestGens (ord : HashOrder) (dir : Directory FileName Content) : List Nat :=
  (ord.order dir.keys).filterMap fun
    | .manifest generation => some generation
    | _ => none

def nextGeneration (ord : HashOrder) (dir : Directory FileName Content) : Option Nat :=
  let previous := max (((readCurrent tools dir).map (·.generation)).getD 0)
    ((manifestGens ord dir).foldl max 0)
  if previous < u64Max then some (previous + 1) else none

def keysChecksum (metadata : AList fun _ : Nat => ChunkMeta) : Nat :=
  tools.keysDigest (metadata.keys.insertionSort (· ≤ ·))

def manifestOf (store : VectorStore tools) (id : ManifestId) (generation : Nat) : Manifest where
  formatVersion := storeFormatVersion
  generation := generation
  id := id
  chunkCount := store.metadata.keys.length
  keysChecksum := keysChecksum tools store.metadata
  indexChecksum := tools.digestBytes (tools.usearch.save store.index)
  sidecarChecksum := tools.digestBytes (tools.sidecar.encode ⟨store.metadata, store.files⟩)
  corpusDigest := store.corpusDigest

def writeGeneration (store : VectorStore tools) (id : ManifestId) (generation : Nat) :
    List (FileOp FileName Content) :=
  [.write (.stagedIndex generation) (tools.usearch.save store.index), .sync,
    .rename (.stagedIndex generation) (.index generation), .sync,
    .write (.metadata generation) (tools.sidecar.encode ⟨store.metadata, store.files⟩), .sync,
    .write (.manifest generation) (tools.manifest.encode (manifestOf tools store id generation)),
    .sync, .sync]

/-- What `CURRENT` holds for a generation. -/
def currentOf (generation : Nat) : CurrentPointer where
  magic := currentMagic
  generation := generation
  checksum := tools.currentChecksum currentMagic generation

/-- `activate_current`, up to the swap. -/
def stageCurrent (generation : Nat) : List (FileOp FileName Content) :=
  [.write .currentTmp (tools.current.encode (currentOf tools generation)), .sync]

/-- `gc_old_generations`, on the files that the directory lists. -/
def gcOldGenerations (listed : List FileName) (generation : Nat) : List (FileOp FileName Content) :=
  (listed.filter fun name => match name.parseGen with
    | some other => other < generation - (keepGens - 1)
    | none => false).map .remove

/-- `save`: its operations. The files are listed for the collection when the others are done. -/
def saveOps (ord : HashOrder) (store : VectorStore tools) (id : ManifestId)
    (dir : Directory FileName Content) : List (FileOp FileName Content) :=
  if id.dimensions ≠ store.dimensions then []
  else
    match nextGeneration tools ord dir with
    | none => []
    | some generation =>
      let ops := writeGeneration tools store id generation ++ stageCurrent tools generation ++
        [.rename .currentTmp .current, .sync]
      ops ++ gcOldGenerations (ord.order (runAll dir ops).keys) generation

/-- Whether `save` gets to the end. -/
def Saves (ord : HashOrder) (store : VectorStore tools) (id : ManifestId)
    (dir : Directory FileName Content) : Prop :=
  id.dimensions = store.dimensions ∧ (nextGeneration tools ord dir).isSome

/-! ## Loads -/

inductive LoadFail where
  | incompatible (message : String)
  | corrupt (message : String)
  deriving DecidableEq, Repr

def LoadFail.intoErr : LoadFail → String
  | incompatible message | corrupt message => message

def readFile (dir : Directory FileName Content) (name : FileName) : Except LoadFail Content :=
  (dir.lookup name).elim (.error (.corrupt "not found")) .ok

def decodeBinary {α : Type} (codec : Codec α Content) (bytes : Content) : Except LoadFail α :=
  (codec.decode bytes).elim (.error (.corrupt "binary decode")) .ok

def ensure (p : Prop) [Decidable p] (fail : LoadFail) : Except LoadFail Unit :=
  if p then .ok () else .error fail

/-- The end of `load_generation`: the index and its lockstep with the sidecar. -/
def loadIndex (expect : ManifestId) (manifest : Manifest) (sidecar : Sidecar ChunkMeta Files)
    (bytes : Content) : Except LoadFail (VectorStore tools) :=
  let capacity := max sidecar.metadata.keys.length minCapacity
  match tools.usearch.load expect.dimensions capacity bytes with
  | none => .error (.corrupt "load")
  | some index =>
    if hsize : tools.usearch.size index = sidecar.metadata.keys.length then
      if hcontains : ∀ key ∈ sidecar.metadata.keys, tools.usearch.contains index key then
        .ok ⟨expect.dimensions, index, sidecar.metadata, sidecar.files,
          manifest.corpusDigest, hsize,
          hcontains⟩
      else .error (.corrupt "index is missing a sidecar key (drift)")
    else .error (.corrupt "index size != sidecar count (drift)")

def loadGeneration (dir : Directory FileName Content) (generation : Nat) (expect : ManifestId) :
    Except LoadFail (VectorStore tools) := do
  let manifest ← decodeBinary tools.manifest (← readFile dir (.manifest generation))
  ensure (manifest.formatVersion = storeFormatVersion) (.incompatible "format_version mismatch")
  ensure (manifest.id = expect) (.incompatible "config mismatch (model/dims/params/root)")
  ensure (manifest.generation = generation) (.corrupt "manifest generation != filename")
  let metaBytes ← readFile dir (.metadata generation)
  ensure (tools.digestBytes metaBytes = manifest.sidecarChecksum)
    (.corrupt "sidecar checksum mismatch")
  let indexBytes ← readFile dir (.index generation)
  ensure (tools.digestBytes indexBytes = manifest.indexChecksum)
    (.corrupt "index checksum mismatch")
  let sidecar ← decodeBinary tools.sidecar metaBytes
  ensure (keysChecksum tools sidecar.metadata = manifest.keysChecksum)
    (.corrupt "keys checksum mismatch")
  loadIndex tools expect manifest sidecar indexBytes

/-- The scan of `load` over generations, from the newest on. -/
def scan (dir : Directory FileName Content) (expect : ManifestId) :
    List Nat → Bool → Option String → Except String (VectorStore tools)
  | [], _, lastErr => .error (lastErr.getD "no verifying generation")
  | generation :: generations, newest, _ =>
    match loadGeneration tools dir generation expect with
    | .ok store => .ok store
    | .error fail =>
      match fail, newest with
      | .incompatible message, true => .error message
      | fail, _ => scan dir expect generations false (some fail.intoErr)

def load (ord : HashOrder) (dir : Directory FileName Content) (expect : ManifestId) :
    Except String (VectorStore tools) :=
  let newestFirst := (manifestGens ord dir).insertionSort (· ≥ ·)
  let generations := match readCurrent tools dir with
    | some current => newestFirst.filter (· ≤ current.generation)
    | none => newestFirst
  if generations = [] then .error "no store generation found"
  else scan tools dir expect generations true none

/-! ## What is committed -/

/-- The files of a generation are written to their ends. -/
structure Written (dir : Directory FileName Content) (id : ManifestId) (generation : Nat)
    (store : VectorStore tools) : Prop where
  index : dir.lookup (.index generation) = some (tools.usearch.save store.index)
  metadata : dir.lookup (.metadata generation) =
    some (tools.sidecar.encode ⟨store.metadata, store.files⟩)
  manifest : dir.lookup (.manifest generation) =
    some (tools.manifest.encode (manifestOf tools store id generation))

/-- `CURRENT` names a generation, and that is written. -/
structure Committed (dir : Directory FileName Content) (id : ManifestId) (generation : Nat)
    (store : VectorStore tools) : Prop where
  dimensions : id.dimensions = store.dimensions
  current : dir.lookup .current = some (tools.current.encode (currentOf tools generation))
  written : Written tools dir id generation store

variable {tools} {dir dir' : Directory FileName Content} {id : ManifestId} {generation : Nat}
  {store : VectorStore tools} {ord : HashOrder} {op : FileOp FileName Content} {name : FileName}

theorem Committed.readCurrent (h : Committed tools dir id generation store) :
    readCurrent tools dir = some (currentOf tools generation) := by
  unfold VectorFiles.readCurrent
  simp [h.current, tools.current.decode_encode, currentOf]

theorem Committed.mem_manifestGens (h : Committed tools dir id generation store) :
    generation ∈ manifestGens ord dir := by
  refine List.mem_filterMap.2 ⟨.manifest generation, ?_, rfl⟩
  rw [HashOrder.mem_order]
  exact AList.lookup_isSome.1 (by rw [h.written.manifest]; rfl)

theorem loadIndex_eq_ok (hdimensions : id.dimensions = store.dimensions) :
    loadIndex tools id (manifestOf tools store id generation) ⟨store.metadata, store.files⟩
      (tools.usearch.save store.index) = .ok store := by
  unfold loadIndex
  dsimp only
  rw [tools.usearch.load_save]
  dsimp only
  rw [dif_pos store.size_eq, dif_pos store.contains]
  cases store
  cases hdimensions
  rfl

/-- **A generation that is written** is loaded. -/
theorem Committed.loadGeneration (h : Committed tools dir id generation store) :
    loadGeneration tools dir generation id = .ok store := by
  unfold VectorFiles.loadGeneration readFile decodeBinary ensure
  simp only [h.written.manifest, h.written.metadata, h.written.index, Option.elim_some,
    tools.manifest.decode_encode, tools.sidecar.decode_encode, bind, Except.bind]
  simp only [manifestOf, if_true]
  exact loadIndex_eq_ok h.dimensions

/-- **What is committed** is what is loaded. -/
theorem Committed.load (h : Committed tools dir id generation store) :
    load tools ord dir id = .ok store := by
  unfold VectorFiles.load
  rw [h.readCurrent]
  dsimp only
  have hmem : generation ∈ ((manifestGens ord dir).insertionSort (· ≥ ·)).filter
      (· ≤ (currentOf tools generation).generation) :=
    List.mem_filter.2 ⟨(List.mem_insertionSort _).2 h.mem_manifestGens, by simp [currentOf]⟩
  have hsorted : (((manifestGens ord dir).insertionSort (· ≥ ·)).filter
      (· ≤ (currentOf tools generation).generation)).Pairwise (· ≥ ·) :=
    (List.pairwise_insertionSort _ _).sublist List.filter_sublist
  have hle : ∀ other ∈ ((manifestGens ord dir).insertionSort (· ≥ ·)).filter
      (· ≤ (currentOf tools generation).generation), other ≤ generation := fun other hother =>
    of_decide_eq_true (List.mem_filter.1 hother).2
  rw [if_neg (List.ne_nil_of_mem hmem)]
  obtain ⟨first, rest, hcons⟩ := List.exists_cons_of_ne_nil (List.ne_nil_of_mem hmem)
  rw [hcons] at hmem hsorted hle ⊢
  have hfirst : first = generation := by
    rcases List.mem_cons.1 hmem with heq | hrest
    · exact heq.symm
    · exact le_antisymm (hle first List.mem_cons_self) (List.rel_of_pairwise_cons hsorted hrest)
  rw [hfirst]
  unfold scan
  rw [h.loadGeneration]

theorem Committed.of_lookup (h : Committed tools dir id generation store)
    (heq : ∀ name ∈ [.current, .index generation, .metadata generation, .manifest generation],
      dir'.lookup name = dir.lookup name) : Committed tools dir' id generation store := by
  constructor
  case dimensions => exact h.dimensions
  case current => rw [heq _ (by simp), h.current]
  case written =>
    constructor
    · rw [heq _ (by simp), h.written.index]
    · rw [heq _ (by simp), h.written.metadata]
    · rw [heq _ (by simp), h.written.manifest]

theorem Committed.lt_next {next : Nat} (h : Committed tools dir id generation store)
    (hnext : nextGeneration tools ord dir = some next) : generation < next := by
  unfold nextGeneration at hnext
  rw [h.readCurrent] at hnext
  dsimp only at hnext
  split_ifs at hnext
  have hle : generation ≤ max ((some (currentOf tools generation)).map (·.generation) |>.getD 0)
      ((manifestGens ord dir).foldl max 0) := le_max_left ..
  cases hnext
  omega

/-! ## One save -/

/-- A save of a store: the order in which the directory is listed and where it is cut off. -/
structure Save (tools : Tools Content Index ChunkMeta Files) where
  ord : HashOrder
  store : VectorStore tools
  cut : Option (Cut Content)

def next (id : ManifestId) (dir : Directory FileName Content) (save : Save tools) :
    Directory FileName Content :=
  runAll dir (performed save.cut (saveOps tools save.ord save.store id dir))

def Completes (id : ManifestId) (dir : Directory FileName Content) (save : Save tools) : Prop :=
  save.cut = none ∧ Saves tools save.ord save.store id dir

theorem touched_of_mem
    (hop : op ∈ writeGeneration tools store id generation ++ stageCurrent tools generation)
    (hname : name ∈ op.touched) :
    name ∈ [.stagedIndex generation, .index generation, .metadata generation, .manifest generation,
      .currentTmp] := by
  unfold writeGeneration stageCurrent at hop
  simp only [List.cons_append, List.nil_append, List.mem_cons, List.not_mem_nil, or_false] at hop
  rcases hop with rfl | rfl | rfl | rfl | rfl | rfl | rfl | rfl | rfl | rfl | rfl <;>
    simp_all [touched]
  rcases hname with rfl | rfl <;> simp

theorem written_runAll :
    Written tools (runAll dir (writeGeneration tools store id generation ++
        stageCurrent tools generation)) id generation store ∧
      (runAll dir (writeGeneration tools store id generation ++
        stageCurrent tools generation)).lookup .currentTmp =
          some (tools.current.encode (currentOf tools generation)) := by
  unfold writeGeneration stageCurrent runAll
  simp only [List.cons_append, List.nil_append, List.foldl_cons, List.foldl_nil, run,
    AList.lookup_insert]
  refine ⟨⟨?_, ?_, ?_⟩, trivial⟩ <;> simp [AList.lookup_insert, AList.lookup_insert_ne]

theorem notMem_touched_of_mem_gc {listed : List FileName}
    (hop : op ∈ gcOldGenerations listed generation) :
    ∀ name ∈ [.current, .index generation, .metadata generation, .manifest generation],
      name ∉ op.touched := by
  unfold gcOldGenerations at hop
  obtain ⟨removed, hremoved, rfl⟩ := List.mem_map.1 hop
  have hold := (List.mem_filter.1 hremoved).2
  intro name hname htouched
  cases List.mem_singleton.1 htouched
  simp only [List.mem_cons, List.not_mem_nil, or_false] at hname
  have hself : ¬ generation < generation - (keepGens - 1) := by omega
  rcases hname with rfl | rfl | rfl | rfl
  · cases hold
  · exact hself (of_decide_eq_true hold)
  · exact hself (of_decide_eq_true hold)
  · exact hself (of_decide_eq_true hold)

theorem committed_swap (hdimensions : id.dimensions = store.dimensions)
    (hwritten : Written tools dir id generation store)
    (htmp : dir.lookup .currentTmp = some (tools.current.encode (currentOf tools generation))) :
    Committed tools (run dir (.rename .currentTmp .current)) id generation store := by
  unfold run
  simp only [htmp]
  constructor
  case dimensions => exact hdimensions
  case current => exact AList.lookup_insert _
  case written =>
    have hother : ∀ (name : FileName) content, name ≠ .current → name ≠ .currentTmp →
        ((dir.erase .currentTmp).insert .current content).lookup name = dir.lookup name :=
      fun name content hcurrent htmp => by
        rw [AList.lookup_insert_ne hcurrent, AList.lookup_erase_ne htmp]
    constructor
    · rw [hother _ _ (by simp) (by simp), hwritten.index]
    · rw [hother _ _ (by simp) (by simp), hwritten.metadata]
    · rw [hother _ _ (by simp) (by simp), hwritten.manifest]

structure Leaves (id : ManifestId) (dir dir' : Directory FileName Content)
    (tools : Tools Content Index ChunkMeta Files) : Prop where
  current : dir.lookup .current = none → dir'.lookup .current = none
  committed : ∀ generation (store : VectorStore tools), Committed tools dir id generation store →
    Committed tools dir' id generation store

theorem Leaves.refl : Leaves id dir dir tools := ⟨fun h => h, fun _ _ h => h⟩

theorem leaves_runAll {ops : List (FileOp FileName Content)}
    (hnext : nextGeneration tools ord dir = some generation)
    (hops : ∀ op ∈ ops, ∃ op' ∈ writeGeneration tools store id generation ++
      stageCurrent tools generation, op.touched = op'.touched) :
    Leaves id dir (runAll dir ops) tools := by
  have htouched : ∀ op ∈ ops, ∀ name ∈ op.touched,
      name ∈ [.stagedIndex generation, .index generation, .metadata generation,
        .manifest generation, .currentTmp] := by
    intro op hop name hname
    obtain ⟨op', hop', heq⟩ := hops op hop
    exact touched_of_mem hop' (heq ▸ hname)
  constructor
  case current =>
    intro hcurrent
    rw [lookup_runAll fun op hop hname => by simpa using htouched op hop _ hname, hcurrent]
  case committed =>
    intro old store' h
    have hlt : old < generation := h.lt_next hnext
    apply h.of_lookup
    intro name hname
    apply lookup_runAll
    intro op hop htouch
    have hnew := htouched op hop name htouch
    simp only [List.mem_cons, List.not_mem_nil, or_false] at hname hnew
    rcases hname with rfl | rfl | rfl | rfl <;> simp_all

/-- **A save** leaves what is committed or commits its generation. -/
theorem next_cases (id : ManifestId) (dir : Directory FileName Content) (save : Save tools) :
    (¬ Completes id dir save ∧ Leaves id dir (next id dir save) tools) ∨
    ∃ generation, nextGeneration tools save.ord dir = some generation ∧
      Committed tools (next id dir save) id generation save.store := by
  obtain ⟨ord, store, cut⟩ := save
  have hnil : performed cut ([] : List (FileOp FileName Content)) = [] := by
    cases cut <;> simp [performed]
  unfold Completes Saves next saveOps
  dsimp only
  by_cases hdimensions : id.dimensions = store.dimensions
  case neg =>
    rw [if_pos hdimensions, hnil]
    exact .inl ⟨fun h => hdimensions h.2.1, .refl⟩
  rw [if_neg (not_not.2 hdimensions)]
  cases hnext : nextGeneration tools ord dir with
  | none =>
    rw [hnil]
    exact .inl ⟨fun h => absurd h.2.2 (by simp), .refl⟩
  | some generation =>
    dsimp only
    generalize ord.order (runAll dir (writeGeneration tools store id generation ++
      stageCurrent tools generation ++ [.rename .currentTmp .current, .sync])).keys = listed
    rw [List.append_assoc (writeGeneration tools store id generation ++
      stageCurrent tools generation)]
    rcases performed_append cut (writeGeneration tools store id generation ++
      stageCurrent tools generation) ([.rename .currentTmp .current, .sync] ++
        gcOldGenerations listed generation) with ⟨c, rfl, -, heq⟩ | ⟨cut', hnone, heq⟩
    · -- the save is cut off before the swap
      left
      refine ⟨(fun h => nomatch h.1), ?_⟩
      rw [heq]
      apply leaves_runAll hnext
      intro op hop
      obtain ⟨op', hop', htouched, -⟩ := exists_of_mem_performed hop
      exact ⟨op', hop', htouched⟩
    rw [heq, runAll_append]
    obtain ⟨hwritten, htmp⟩ : Written tools
      (runAll dir (writeGeneration tools store id generation ++
        stageCurrent tools generation)) id generation store ∧ _ := written_runAll
    rcases performed_append cut' [.rename .currentTmp .current] (.sync ::
      gcOldGenerations listed generation) with ⟨c, rfl, hdone, heq'⟩ | ⟨cut'', -, heq'⟩
    · -- the save is cut off right before the swap
      left
      refine ⟨(fun h => nomatch hnone h.1), ?_⟩
      have hzero : c.done = 0 := by simpa using hdone
      have hempty : performed (some c) [(.rename .currentTmp .current :
          FileOp FileName Content)] = [] := by
        unfold performed
        dsimp only
        rw [hzero]
        cases c.torn <;> rfl
      rw [List.cons_append, List.cons_append, List.nil_append, ← List.singleton_append,
        heq', hempty]
      exact leaves_runAll hnext fun op hop => ⟨op, hop, rfl⟩
    · -- the swap is done
      right
      refine ⟨generation, rfl, ?_⟩
      rw [List.cons_append, List.cons_append, List.nil_append, ← List.singleton_append, heq',
        runAll_append]
      apply (committed_swap hdimensions hwritten htmp).of_lookup
      intro name hname
      apply lookup_runAll
      intro op hop
      obtain ⟨op', hop', htouched, -⟩ := exists_of_mem_performed hop
      rw [htouched]
      cases List.mem_cons.1 hop' with
      | inl hsync => exact hsync ▸ List.not_mem_nil
      | inr hgc => exact notMem_touched_of_mem_gc hgc name hname

/-! ## All saves -/

/-- The files after saves into a directory that is empty at first. -/
def filesAfter (id : ManifestId) (saves : List (Save tools)) : Directory FileName Content :=
  saves.foldl (next id) ∅

/-- The files are crash consistent. After a save that was completed, a load returns what that save
or a later one wrote to its end; no save writes under the names of a generation that has been
committed. -/
structure CrashConsistent (id : ManifestId) (saves : List (Save tools)) : Prop where
  loads : ∀ before save later, saves = before ++ save :: later →
    Completes id (filesAfter id before) save → ∀ ord, ∃ before' save' later' generation,
      saves = before' ++ save' :: later' ∧ before.length ≤ before'.length ∧
      nextGeneration tools save'.ord (filesAfter id before') = some generation ∧
      Written tools (filesAfter id saves) id generation save'.store ∧
      load tools ord (filesAfter id saves) id = .ok save'.store
  keeps : ∀ earlier middle save later current,
    saves = earlier ++ middle ++ save :: later →
    readCurrent tools (filesAfter id earlier) = some current →
      ∀ op ∈ performed save.cut (saveOps tools save.ord save.store id
        (filesAfter id (earlier ++ middle))),
        ∀ name ∈ op.written, name.parseGen ≠ some current.generation

theorem exists_committed (earlier middle : List (Save tools))
    (h : Committed tools (filesAfter id earlier) id generation store) :
    ∃ generation' store', generation ≤ generation' ∧
      Committed tools (filesAfter id (earlier ++ middle)) id generation' store' ∧
      (generation' = generation ∧ store' = store ∨ ∃ as save bs, middle = as ++ save :: bs ∧
        nextGeneration tools save.ord (filesAfter id (earlier ++ as)) = some generation' ∧
        store' = save.store) := by
  induction middle using List.reverseRecOn with
  | nil => exact ⟨generation, store, le_rfl, by rwa [List.append_nil], .inl ⟨rfl, rfl⟩⟩
  | append_singleton middle save ih =>
    obtain ⟨old, oldStore, hle, hcommitted, horigin⟩ := ih
    have hafter : filesAfter id (earlier ++ (middle ++ [save])) =
        next id (filesAfter id (earlier ++ middle)) save := by
      unfold filesAfter
      rw [← List.append_assoc, List.foldl_concat]
    rw [hafter]
    rcases next_cases id (filesAfter id (earlier ++ middle)) save with
      ⟨-, hleaves⟩ | ⟨new, hnext, hnew⟩
    · refine ⟨old, oldStore, hle, hleaves.committed old oldStore hcommitted, ?_⟩
      refine horigin.imp_right fun ⟨as, save', bs, heq, hnext, hstore⟩ =>
        ⟨as, save', bs ++ [save], by rw [heq]; simp, hnext, hstore⟩
    · refine ⟨new, save.store, hle.trans (hcommitted.lt_next hnext).le, hnew, .inr ?_⟩
      exact ⟨middle, save, [], rfl, hnext, rfl⟩

theorem current_none_or_committed (saves : List (Save tools)) :
    (filesAfter id saves).lookup .current = none ∨
      ∃ generation store, Committed tools (filesAfter id saves) id generation store := by
  induction saves using List.reverseRecOn with
  | nil => exact .inl rfl
  | append_singleton saves save ih =>
    have hafter : filesAfter id (saves ++ [save]) = next id (filesAfter id saves) save := by
      unfold filesAfter
      rw [List.foldl_concat]
    rw [hafter]
    rcases next_cases id (filesAfter id saves) save with ⟨-, hleaves⟩ | ⟨new, -, hnew⟩
    · exact ih.imp hleaves.current fun ⟨generation, store, h⟩ =>
        ⟨generation, store, hleaves.committed generation store h⟩
    · exact .inr ⟨new, save.store, hnew⟩

theorem parseGen_of_mem_written {other : Nat} (hop : op ∈ saveOps tools ord store id dir)
    (hname : name ∈ op.written) (hother : name.parseGen = some other) :
    nextGeneration tools ord dir = some other := by
  unfold saveOps at hop
  split_ifs at hop with hdimensions
  · cases hop
  split at hop
  · cases hop
  · next generation hnext =>
    rw [hnext]
    refine congrArg some ?_
    have hwritten : ∀ {listed}, op ∉
        (gcOldGenerations listed generation : List (FileOp FileName Content)) := by
      intro listed hgc
      obtain ⟨removed, -, rfl⟩ := List.mem_map.1 hgc
      cases hname
    simp only [writeGeneration, stageCurrent, List.cons_append, List.nil_append, List.mem_cons,
      hwritten, or_false] at hop
    rcases hop with rfl | rfl | rfl | rfl | rfl | rfl | rfl | rfl | rfl | rfl | rfl | rfl | rfl <;>
      simp_all [written, FileName.parseGen]

/-- **The files are crash consistent**, for all saves and wherever they are cut off. -/
theorem crashConsistent (tools : Tools Content Index ChunkMeta Files) (id : ManifestId)
    (saves : List (Save tools)) : CrashConsistent id saves := by
  constructor
  case loads =>
    rintro before save later rfl hcompletes ord
    have hfirst : ∃ generation, nextGeneration tools save.ord (filesAfter id before) =
        some generation ∧ Committed tools (filesAfter id (before ++ [save])) id generation
          save.store := by
      have hafter : filesAfter id (before ++ [save]) = next id (filesAfter id before) save := by
        unfold filesAfter
        rw [List.foldl_concat]
      rw [hafter]
      exact (next_cases id (filesAfter id before) save).resolve_left fun h => h.1 hcompletes
    obtain ⟨generation, hnext, hcommitted⟩ := hfirst
    obtain ⟨last, lastStore, -, hlast, horigin⟩ :=
      exists_committed (before ++ [save]) later hcommitted
    rw [List.append_assoc, List.singleton_append] at hlast
    rcases horigin with ⟨rfl, rfl⟩ | ⟨as, save', bs, rfl, hnext', rfl⟩
    · exact ⟨before, save, later, last, rfl, le_rfl, hnext, hlast.written, hlast.load⟩
    · refine ⟨before ++ [save] ++ as, save', bs, last, by simp, by simp, hnext', ?_⟩
      exact ⟨hlast.written, hlast.load⟩
  case keeps =>
    rintro earlier middle save later current rfl hcurrent op hop name hname hparse
    obtain ⟨op', hop', -, hwritten⟩ := exists_of_mem_performed hop
    rw [hwritten] at hname
    have hnext := parseGen_of_mem_written hop' hname hparse
    rcases current_none_or_committed earlier with hnone | ⟨generation, store, hcommitted⟩
    · unfold readCurrent at hcurrent
      rw [hnone] at hcurrent
      cases hcurrent
    · rw [hcommitted.readCurrent] at hcurrent
      cases hcurrent
      obtain ⟨last, lastStore, hle, hlast, -⟩ := exists_committed earlier middle hcommitted
      exact absurd (hlast.lt_next hnext) (not_lt.2 hle)

inductive PlainFile where
  | index (keys : List Nat)
  | sidecar (sidecar : Sidecar Unit Unit)
  | manifest (manifest : Manifest)
  | current (current : CurrentPointer)

/-- Tools on such files, with indexes that hold keys. -/
def plainTools : Tools PlainFile (List Nat) Unit Unit where
  usearch :=
    { save := .index
      load := fun _ _ file => match file with
        | .index keys => some keys
        | _ => none
      size := List.length
      contains := fun keys key => key ∈ keys
      load_save := fun _ _ _ => rfl }
  sidecar := ⟨.sidecar, fun | .sidecar sidecar => some sidecar | _ => none, fun _ => rfl⟩
  manifest := ⟨.manifest, fun | .manifest manifest => some manifest | _ => none, fun _ => rfl⟩
  current := ⟨.current, fun | .current current => some current | _ => none, fun _ => rfl⟩
  digestBytes := fun
    | .index keys => keys.length
    | _ => 0
  keysDigest := List.length
  currentChecksum := (· + ·)

def twoVectors : VectorStore plainTools where
  dimensions := 1
  index := [3, 5]
  metadata := ((∅ : AList fun _ : Nat => Unit).insert 3 ()).insert 5 ()
  files := ()
  corpusDigest := 0
  size_eq := by decide
  contains := by decide

example : (load plainTools .insertion (filesAfter
    ⟨"ArcticL", "1", 1, "cos", "f32", "exact", "raw-v2", "", "", "/"⟩
    [⟨.insertion, twoVectors, none⟩, ⟨.insertion, twoVectors, some ⟨4, some (.index [])⟩⟩])
    ⟨"ArcticL", "1", 1, "cos", "f32", "exact", "raw-v2", "", "", "/"⟩).isOk := by decide +kernel

end TldrCode.Semantic.VectorFiles
