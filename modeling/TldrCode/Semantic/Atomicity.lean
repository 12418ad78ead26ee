import TldrCode.Semantic.Deltas

/-!
# Deltas that fail

`apply_file_delta_reconciled` of `semantic/vector_store.rs`, where it returns an error. Keys are
removed and chunks are applied one by one, and a chunk that fails leaves what came before it: the
store is as before the call only if all of that came to nothing (`atomic_iff`).
-/

namespace TldrCode.Semantic.Deltas

open Function (update)

variable {Vector : Type} {length : Vector → Nat} {store : VectorStore Vector} {fileRel : String}
  {expectedOldKeys newKeys : Finset Nat} {keyed before : List (Nat × ChunkMeta)}
  {embedded : Nat → Option Vector} {signal : Signal} {key : Nat} {chunk : ChunkMeta}

def lastChunk (keyed : List (Nat × ChunkMeta)) (key : Nat) : Option ChunkMeta :=
  (keyed.reverse.find? (·.1 = key)).map (·.2)

theorem lastChunk_concat :
    lastChunk (before ++ [(key, chunk)]) = update (lastChunk before) key (some chunk) := by
  funext other
  unfold lastChunk
  rw [List.reverse_append, List.reverse_singleton, List.singleton_append, List.find?_cons,
    Function.update_apply]
  by_cases heq : other = key
  · simp [heq]
  · simp [heq, Ne.symm heq]

theorem lastChunk_eq_none (h : key ∉ keyed.map Prod.fst) : lastChunk keyed key = none := by
  unfold lastChunk
  rw [Option.map_eq_none_iff, List.find?_eq_none]
  intro item hitem
  have hne : item.1 ≠ key := by
    rintro rfl
    exact h (List.mem_map_of_mem (List.mem_reverse.1 hitem))
  simpa using hne

namespace VectorStore

/-! ## What is expected -/

/-- The metadata that a key has after the chunks of a list. -/
def metadataAfter (store : VectorStore Vector) (before : List (Nat × ChunkMeta)) (key : Nat) :
    Option ChunkMeta := (lastChunk before key).or (store.metadata key)

/-- The chunk has another revision than its key has after the chunks before it. -/
def Changes (store : VectorStore Vector) (before : List (Nat × ChunkMeta)) (key : Nat)
    (chunk : ChunkMeta) : Prop :=
  (store.metadataAfter before key).map (·.revision) ≠ some chunk.revision

/-- The chunk does not change its key, or there is a vector for it with the dimensions of the store
and the key has no other identity. -/
def Fits (length : Vector → Nat) (store : VectorStore Vector) (embedded : Nat → Option Vector)
    (before : List (Nat × ChunkMeta)) (key : Nat) (chunk : ChunkMeta) : Prop :=
  ¬ store.Changes before key chunk ∨ ∃ vector, embedded key = some vector ∧
    length vector = store.dimensions ∧
      ∀ existing, store.metadataAfter before key = some existing →
        existing.identity = chunk.identity

/-- Each chunk of a list fits after those before it. -/
def AllFit (length : Vector → Nat) (store : VectorStore Vector) (embedded : Nat → Option Vector)
    (keyed : List (Nat × ChunkMeta)) : Prop :=
  ∀ before key chunk later, keyed = before ++ (key, chunk) :: later →
    store.Fits length embedded before key chunk

/-- Chunks come to nothing: the last one of each key is the one of the store, and where one of them
changes its key, the vector for it is the one of the store. -/
structure ComesToNothing (store : VectorStore Vector) (embedded : Nat → Option Vector)
    (keyed : List (Nat × ChunkMeta)) : Prop where
  metadata : ∀ key chunk, lastChunk keyed key = some chunk → store.metadata key = some chunk
  index : ∀ before key chunk later, keyed = before ++ (key, chunk) :: later →
    store.Changes before key chunk → store.index key = embedded key

/-- The keys are in the store neither with a vector nor with metadata. -/
def Lacks (store : VectorStore Vector) (keys : Finset Nat) : Prop :=
  ∀ key ∈ keys, store.index key = none ∧ store.metadata key = none

/-- Where a chunk is the first that does not fit, the keys that are removed are not there, and the
chunks before it come to nothing. -/
def FailsClean (length : Vector → Nat) (store : VectorStore Vector) (fileRel : String)
    (keyed : List (Nat × ChunkMeta)) (embedded : Nat → Option Vector) : Prop :=
  ∀ before key chunk later, keyed = before ++ (key, chunk) :: later →
    store.AllFit length embedded before → ¬ store.Fits length embedded before key chunk →
    store.Lacks (store.keysOf fileRel \ (keyed.map Prod.fst).toFinset) ∧
      store.ComesToNothing embedded before

theorem foldl_remove (keys : List Nat) (store : VectorStore Vector) :
    keys.foldl (fun store key => (store.remove key).1) store =
      { store with
        index := fun key => if key ∈ keys then none else store.index key
        metadata := fun key => if key ∈ keys then none else store.metadata key } := by
  induction keys generalizing store with
  | nil => simp
  | cons key keys ih =>
    rw [List.foldl_cons, ih]
    unfold remove
    dsimp only
    congr 1
    · funext other
      by_cases heq : other = key <;> simp [heq]
    · funext other
      by_cases heq : other = key <;> simp [heq]

theorem dropKeys_eq : store.dropKeys fileRel newKeys =
    { store with
      index := fun key => if key ∈ store.keysOf fileRel \ newKeys then none else store.index key
      metadata := fun key =>
        if key ∈ store.keysOf fileRel \ newKeys then none else store.metadata key } := by
  unfold dropKeys
  rw [foldl_remove]
  simp only [Finset.mem_sort]

theorem metadata_dropKeys (hkey : key ∈ newKeys) :
    (store.dropKeys fileRel newKeys).metadata key = store.metadata key := by
  rw [dropKeys_eq]
  exact if_neg fun h => (Finset.mem_sdiff.1 h).2 hkey

/-! ## Applied chunks -/

theorem changes_nil_iff : store.Changes [] key chunk ↔
    store.revision key ≠ some chunk.revision := Iff.rfl

/-- **A chunk that fits** is applied. -/
theorem applyChunk_of_fits (h : store.Fits length embedded [] key chunk) :
    ∃ index, store.applyChunk length embedded key chunk =
        .ok { store with index, metadata := update store.metadata key (some chunk) } ∧
      (store.Changes [] key chunk → index = update store.index key (embedded key)) ∧
      (¬ store.Changes [] key chunk → index = store.index) := by
  unfold applyChunk
  by_cases hchanges : store.Changes [] key chunk
  · obtain ⟨vector, hvector, hlength, hidentity⟩ := h.resolve_left (not_not_intro hchanges)
    rw [if_neg (changes_nil_iff.1 hchanges), hvector]
    refine ⟨update store.index key (some vector), ?_, fun _ => rfl, fun h => absurd hchanges h⟩
    dsimp only
    unfold add
    rw [if_neg (not_not_intro hlength)]
    cases hmeta : store.metadata key with
    | none => rfl
    | some existing => exact if_neg (not_not_intro (hidentity existing hmeta))
  · rw [if_pos (not_not.1 (changes_nil_iff.not.1 hchanges))]
    exact ⟨store.index, rfl, fun h => absurd h hchanges, fun _ => rfl⟩

/-- **A chunk that does not fit** fails. -/
theorem applyChunk_of_not_fits (h : ¬ store.Fits length embedded [] key chunk) :
    ∃ e, store.applyChunk length embedded key chunk = .error e := by
  obtain ⟨hchanges, hvector⟩ := not_or.1 h
  unfold applyChunk
  rw [if_neg (changes_nil_iff.1 (not_not.1 hchanges))]
  cases hembedded : embedded key with
  | none => exact ⟨_, rfl⟩
  | some vector =>
    dsimp only
    unfold add
    by_cases hlength : length vector = store.dimensions
    · rw [if_neg (not_not_intro hlength)]
      cases hmeta : store.metadata key with
      | none =>
        refine absurd ⟨vector, hembedded, hlength, fun existing hexisting => ?_⟩ hvector
        cases hmeta.symm.trans hexisting
      | some existing =>
        refine ⟨_, if_pos fun hidentity => hvector ⟨vector, hembedded, hlength, ?_⟩⟩
        intro existing' hexisting
        cases hmeta.symm.trans hexisting
        exact hidentity
    · exact ⟨_, if_pos hlength⟩

theorem applyChunks_concat {store' : VectorStore Vector}
    (h : store.applyChunks length embedded before = (store', .ok ()))
    (later : List (Nat × ChunkMeta)) :
    store.applyChunks length embedded (before ++ later) =
      store'.applyChunks length embedded later := by
  induction before generalizing store with
  | nil =>
    cases h
    rfl
  | cons item before ih =>
    obtain ⟨key, chunk⟩ := item
    rw [List.cons_append, applyChunks]
    rw [applyChunks] at h
    cases happly : store.applyChunk length embedded key chunk with
    | ok store₁ =>
      rw [happly] at h
      exact ih h
    | error e =>
      rw [happly] at h
      cases h

/-- A key has been changed by one of the chunks. -/
def Changed (store : VectorStore Vector) (keyed : List (Nat × ChunkMeta)) (key : Nat) : Prop :=
  ∃ before chunk later, keyed = before ++ (key, chunk) :: later ∧ store.Changes before key chunk

theorem allFit_concat_iff : store.AllFit length embedded (before ++ [(key, chunk)]) ↔
    store.AllFit length embedded before ∧ store.Fits length embedded before key chunk := by
  constructor
  · intro h
    refine ⟨fun b k c l hb => h b k c (l ++ [(key, chunk)]) (by rw [hb]; simp), ?_⟩
    exact h before key chunk [] rfl
  · rintro ⟨hbefore, hlast⟩ b k c l heq
    rcases List.eq_nil_or_concat l with rfl | ⟨l, item, rfl⟩
    · obtain ⟨rfl, hitem⟩ := List.append_inj' heq rfl
      cases hitem
      exact hlast
    · rw [List.concat_eq_append, ← List.cons_append, ← List.append_assoc] at heq
      exact hbefore b k c l (List.append_inj' heq rfl).1

theorem changed_concat_iff {other : Nat} : store.Changed (before ++ [(key, chunk)]) other ↔
    store.Changed before other ∨ other = key ∧ store.Changes before key chunk := by
  constructor
  · rintro ⟨b, c, l, heq, hchanges⟩
    rcases List.eq_nil_or_concat l with rfl | ⟨l, item, rfl⟩
    · obtain ⟨rfl, hitem⟩ := List.append_inj' heq rfl
      cases hitem
      exact .inr ⟨rfl, hchanges⟩
    · rw [List.concat_eq_append, ← List.cons_append, ← List.append_assoc] at heq
      exact .inl ⟨b, c, l, (List.append_inj' heq rfl).1, hchanges⟩
  · rintro (⟨b, c, l, rfl, hchanges⟩ | ⟨rfl, hchanges⟩)
    · exact ⟨b, c, l ++ [(key, chunk)], by simp, hchanges⟩
    · exact ⟨before, chunk, [], rfl, hchanges⟩

/-- **Chunks that fit** are applied: each key has the metadata of its last chunk, and the vector for
it if one of its chunks has changed it. -/
theorem applyChunks_of_allFit (h : store.AllFit length embedded before) :
    ∃ index, store.applyChunks length embedded before =
        ({ store with index, metadata := store.metadataAfter before }, .ok ()) ∧
      ∀ key, (store.Changed before key → index key = embedded key) ∧
        (¬ store.Changed before key → index key = store.index key) := by
  induction before using List.reverseRecOn with
  | nil =>
    refine ⟨store.index, rfl, fun key => ⟨?_, fun _ => rfl⟩⟩
    rintro ⟨b, c, l, heq, -⟩
    simp at heq
  | append_singleton before item ih =>
    obtain ⟨key, chunk⟩ := item
    obtain ⟨hbefore, hfits⟩ := allFit_concat_iff.1 h
    obtain ⟨index, happly, hindex⟩ := ih hbefore
    have hfits' : ({ store with index, metadata := store.metadataAfter before } :
        VectorStore Vector).Fits length embedded [] key chunk := hfits
    obtain ⟨index', hchunk, hchanged, hunchanged⟩ := applyChunk_of_fits hfits'
    refine ⟨index', ?_, fun other => ⟨fun hother => ?_, fun hother => ?_⟩⟩
    · have hmetadata : update (store.metadataAfter before) key (some chunk) =
          store.metadataAfter (before ++ [(key, chunk)]) := by
        funext other
        unfold metadataAfter
        rw [lastChunk_concat, Function.update_apply, Function.update_apply]
        split_ifs <;> rfl
      rw [applyChunks_concat happly, applyChunks, hchunk]
      dsimp only
      rw [hmetadata]
      rfl
    · by_cases hchanges : store.Changes before key chunk
      · rw [hchanged hchanges, Function.update_apply]
        split_ifs with heq
        · rw [heq]
        · refine (hindex other).1 ((changed_concat_iff.1 hother).resolve_right fun h => heq h.1)
      · rw [hunchanged hchanges]
        exact (hindex other).1 ((changed_concat_iff.1 hother).resolve_right fun h => hchanges h.2)
    · obtain ⟨hbefore, hnot⟩ := not_or.1 (changed_concat_iff.not.1 hother)
      by_cases hchanges : store.Changes before key chunk
      · rw [hchanged hchanges, Function.update_of_ne fun heq => hnot ⟨heq, hchanges⟩]
        exact (hindex other).2 hbefore
      · rw [hunchanged hchanges]
        exact (hindex other).2 hbefore

theorem exists_first_not_fits (h : ¬ store.AllFit length embedded keyed) :
    ∃ before key chunk later, keyed = before ++ (key, chunk) :: later ∧
      store.AllFit length embedded before ∧ ¬ store.Fits length embedded before key chunk := by
  induction keyed using List.reverseRecOn with
  | nil => exact absurd (fun b k c l heq => by simp at heq) h
  | append_singleton keyed item ih =>
    obtain ⟨key, chunk⟩ := item
    by_cases hkeyed : store.AllFit length embedded keyed
    · exact ⟨keyed, key, chunk, [], rfl, hkeyed,
        fun hfits => h (allFit_concat_iff.2 ⟨hkeyed, hfits⟩)⟩
    · obtain ⟨b, k, c, l, rfl, hb, hnot⟩ := ih hkeyed
      exact ⟨b, k, c, l ++ [(key, chunk)], by simp, hb, hnot⟩

/-! ## Atomic deltas -/

theorem metadataAfter_dropKeys (hkey : key ∈ newKeys) :
    (store.dropKeys fileRel newKeys).metadataAfter before key = store.metadataAfter before key := by
  unfold metadataAfter
  rw [metadata_dropKeys hkey]

theorem changes_dropKeys (hkey : key ∈ newKeys) :
    (store.dropKeys fileRel newKeys).Changes before key chunk ↔ store.Changes before key chunk := by
  unfold Changes
  rw [metadataAfter_dropKeys hkey]

theorem fits_dropKeys (hkey : key ∈ newKeys) :
    (store.dropKeys fileRel newKeys).Fits length embedded before key chunk ↔
      store.Fits length embedded before key chunk := by
  have hdimensions : (store.dropKeys fileRel newKeys).dimensions = store.dimensions := by
    rw [dropKeys_eq]
  unfold Fits
  rw [changes_dropKeys hkey, metadataAfter_dropKeys hkey, hdimensions]

theorem allFit_dropKeys (hkeys : ∀ item ∈ before, item.1 ∈ newKeys) :
    (store.dropKeys fileRel newKeys).AllFit length embedded before ↔
      store.AllFit length embedded before := by
  unfold AllFit
  refine forall₅_congr fun b k c l heq => fits_dropKeys (hkeys (k, c) ?_)
  rw [heq]
  simp

theorem changed_dropKeys (hkeys : ∀ item ∈ before, item.1 ∈ newKeys) :
    (store.dropKeys fileRel newKeys).Changed before key ↔ store.Changed before key := by
  unfold Changed
  refine exists₃_congr fun b c l => and_congr_right fun heq => changes_dropKeys (hkeys (key, c) ?_)
  rw [heq]
  simp

/-- **What comes to nothing.** -/
theorem eq_store_iff {index : Nat → Option Vector} (hkeys : ∀ item ∈ before, item.1 ∈ newKeys)
    (hindex : ∀ key, (store.Changed before key → index key = embedded key) ∧
      (¬ store.Changed before key → index key = (store.dropKeys fileRel newKeys).index key)) :
    ({ store.dropKeys fileRel newKeys with
        index, metadata := (store.dropKeys fileRel newKeys).metadataAfter before } :
      VectorStore Vector) = store ↔
      store.Lacks (store.keysOf fileRel \ newKeys) ∧ store.ComesToNothing embedded before := by
  have hremoved : ∀ key ∈ store.keysOf fileRel \ newKeys, lastChunk before key = none ∧
      ¬ store.Changed before key := by
    intro key hkey
    have hnot : key ∉ newKeys := (Finset.mem_sdiff.1 hkey).2
    refine ⟨lastChunk_eq_none fun hmem => ?_, ?_⟩
    · obtain ⟨item, hitem, rfl⟩ := List.mem_map.1 hmem
      exact hnot (hkeys item hitem)
    · rintro ⟨b, c, l, rfl, -⟩
      exact hnot (hkeys (key, c) (by simp))
  rw [dropKeys_eq] at hindex ⊢
  constructor
  · intro heq
    have hmetadata := fun key => congrFun (congrArg VectorStore.metadata heq) key
    have hsame := fun key => congrFun (congrArg VectorStore.index heq) key
    dsimp only at hmetadata hsame
    refine ⟨fun key hkey => ?_, ⟨fun key chunk hlast => ?_, ?_⟩⟩
    · obtain ⟨hlast, hchanged⟩ := hremoved key hkey
      rw [← hsame, ← hmetadata, (hindex key).2 hchanged]
      unfold metadataAfter
      rw [hlast]
      exact ⟨if_pos hkey, if_pos hkey⟩
    · rw [← hmetadata]
      unfold metadataAfter
      rw [hlast]
      rfl
    · rintro b key c l rfl hchanges
      rw [← hsame]
      exact (hindex key).1 ⟨b, c, l, rfl, hchanges⟩
  · rintro ⟨hlacks, hnothing⟩
    have hmetadata : (fun key => (lastChunk before key).or
        (if key ∈ store.keysOf fileRel \ newKeys then none else store.metadata key)) =
        store.metadata := by
      funext key
      cases hlast : lastChunk before key with
      | some chunk => exact (hnothing.metadata key chunk hlast).symm
      | none =>
        rw [Option.none_or]
        split_ifs with hkey
        · exact (hlacks key hkey).2.symm
        · rfl
    have hsame : index = store.index := by
      funext key
      by_cases hchanged : store.Changed before key
      · obtain ⟨b, c, l, heq, hchanges⟩ := hchanged
        rw [(hindex key).1 ⟨b, c, l, heq, hchanges⟩]
        exact (hnothing.index b key c l heq hchanges).symm
      · rw [(hindex key).2 hchanged]
        dsimp only
        split_ifs with hkey
        · exact (hlacks key hkey).1.symm
        · rfl
    unfold metadataAfter
    rw [hmetadata, hsame]

/-- What fits and is followed by what does not is no longer than another such list. -/
theorem length_le_of_first {before' later later' : List (Nat × ChunkMeta)} {key' : Nat}
    {chunk' : ChunkMeta}
    (heq : before ++ (key, chunk) :: later = before' ++ (key', chunk') :: later')
    (hnot : ¬ store.Fits length embedded before key chunk)
    (hfit' : store.AllFit length embedded before') : before'.length ≤ before.length := by
  by_contra hlt
  rcases List.append_eq_append_iff.1 heq with ⟨m, rfl, hm⟩ | ⟨m, rfl, hm⟩
  · cases m with
    | nil => simp at hlt
    | cons item m =>
      obtain ⟨rfl, -⟩ := List.cons.inj hm
      exact hnot (hfit' before key chunk m rfl)
  · rw [List.length_append] at hlt
    omega

/-- The first chunk that does not fit leaves what the chunks before it have done. -/
theorem applyChunks_of_first (hfit : store.AllFit length embedded before)
    (hnot : ¬ store.Fits length embedded before key chunk) (later : List (Nat × ChunkMeta)) :
    ∃ index e, store.applyChunks length embedded (before ++ (key, chunk) :: later) =
        ({ store with index, metadata := store.metadataAfter before }, .error e) ∧
      ∀ key, (store.Changed before key → index key = embedded key) ∧
        (¬ store.Changed before key → index key = store.index key) := by
  obtain ⟨index, happly, hindex⟩ := applyChunks_of_allFit hfit
  have hnot' : ¬ ({ store with index, metadata := store.metadataAfter before } :
      VectorStore Vector).Fits length embedded [] key chunk := hnot
  obtain ⟨e, hchunk⟩ := applyChunk_of_not_fits hnot'
  refine ⟨index, e, ?_, hindex⟩
  rw [applyChunks_concat happly, applyChunks, hchunk]

theorem applyFileDelta_of_first {later : List (Nat × ChunkMeta)}
    (heq : keyed = before ++ (key, chunk) :: later)
    (hfit : store.AllFit length embedded before)
    (hnot : ¬ store.Fits length embedded before key chunk) :
    ∃ e, (store.applyFileDelta length fileRel keyed embedded signal).2 = .error e ∧
      ((store.applyFileDelta length fileRel keyed embedded signal).1 = store ↔
        store.Lacks (store.keysOf fileRel \ (keyed.map Prod.fst).toFinset) ∧
          store.ComesToNothing embedded before) := by
  unfold applyFileDelta
  dsimp only
  have hmem : ∀ item ∈ keyed, item.1 ∈ (keyed.map Prod.fst).toFinset := fun item hitem =>
    List.mem_toFinset.2 (List.mem_map_of_mem hitem)
  generalize (keyed.map Prod.fst).toFinset = newKeys at *
  have hkeys : ∀ item ∈ before, item.1 ∈ newKeys := fun item hitem =>
    hmem item (heq ▸ List.mem_append_left _ hitem)
  have hkey : key ∈ newKeys := hmem (key, chunk) (heq ▸ List.mem_append_right _ List.mem_cons_self)
  have hfit' : (store.dropKeys fileRel newKeys).AllFit length embedded before :=
    (allFit_dropKeys hkeys).2 hfit
  obtain ⟨index, e, happly, hindex⟩ :=
    applyChunks_of_first hfit' ((fits_dropKeys hkey).not.2 hnot) later
  rw [heq, happly]
  refine ⟨e, rfl, eq_store_iff hkeys fun key => ?_⟩
  rw [← changed_dropKeys hkeys]
  exact hindex key

theorem applyFileDelta_of_allFit (hfit : store.AllFit length embedded keyed) :
    (store.applyFileDelta length fileRel keyed embedded signal).2 = .ok () := by
  unfold applyFileDelta
  dsimp only
  have hmem : ∀ item ∈ keyed, item.1 ∈ (keyed.map Prod.fst).toFinset := fun item hitem =>
    List.mem_toFinset.2 (List.mem_map_of_mem hitem)
  obtain ⟨index, happly, -⟩ := applyChunks_of_allFit ((allFit_dropKeys hmem).2 hfit)
  rw [happly]

/-- **A delta is atomic** if and only if the keys of the file are not those that it expects, or
nothing comes of what it does before the first chunk that does not fit. -/
theorem atomic_iff (length : Vector → Nat) (store : VectorStore Vector) (fileRel : String)
    (expectedOldKeys : Finset Nat) (keyed : List (Nat × ChunkMeta))
    (embedded : Nat → Option Vector) (signal : Signal) :
    (∀ e, (store.applyFileDeltaReconciled length fileRel expectedOldKeys keyed embedded
        signal).2 = .error e →
      (store.applyFileDeltaReconciled length fileRel expectedOldKeys keyed embedded signal).1 =
        store) ↔
      store.keysOf fileRel ≠ expectedOldKeys ∨
        store.FailsClean length fileRel keyed embedded := by
  unfold applyFileDeltaReconciled
  by_cases hexpected : store.keysOf fileRel = expectedOldKeys
  · rw [if_neg (not_not_intro hexpected), or_iff_right (not_not_intro hexpected)]
    by_cases hfit : store.AllFit length embedded keyed
    · rw [applyFileDelta_of_allFit hfit]
      exact iff_of_true nofun fun b k c l heq _ hnot => absurd (hfit b k c l heq) hnot
    · obtain ⟨before, key, chunk, later, heq, hbefore, hnot⟩ := exists_first_not_fits hfit
      obtain ⟨e, herror, hiff⟩ := applyFileDelta_of_first heq hbefore hnot
      rw [herror]
      constructor
      · intro h b k c l heq' hb hnot'
        have hlength : b.length = before.length :=
          Nat.le_antisymm (length_le_of_first (heq.symm.trans heq') hnot hb)
            (length_le_of_first (heq'.symm.trans heq) hnot' hbefore)
        obtain ⟨rfl, -⟩ := List.append_inj (heq'.symm.trans heq) hlength
        exact hiff.1 (h e rfl)
      · exact fun h _ _ => hiff.2 (h before key chunk later heq hbefore hnot)
  · rw [if_pos hexpected]
    exact iff_of_true (fun _ _ => rfl) (.inl hexpected)

/-- The one function of the file under another key. -/
def renamedChunk : ChunkMeta :=
  ⟨"2", 2, 1, structuralAnchor id onlyChunk, "a.rs", some "f", none, 1, 2, "", onlyChunk.structure_⟩

/-- The old key is removed before the vector for the new one is missed. -/
theorem not_atomic_renamedChunk :
    ¬ ∀ (length : Nat → Nat) (store : VectorStore Nat) fileRel expectedOldKeys keyed embedded signal
        e,
      (store.applyFileDeltaReconciled length fileRel expectedOldKeys keyed embedded signal).2 =
        .error e →
      (store.applyFileDeltaReconciled length fileRel expectedOldKeys keyed embedded signal).1 =
        store := by
  intro h
  have hindex : (firstStore.applyFileDeltaReconciled (fun _ => 1) "a.rs" {1} [(2, renamedChunk)]
      (fun _ => none) ⟨2, 2, .regular⟩).1.index 1 ≠ firstStore.index 1 := by decide +kernel
  cases hresult : (firstStore.applyFileDeltaReconciled (fun _ => 1) "a.rs" {1} [(2, renamedChunk)]
      (fun _ => none) ⟨2, 2, .regular⟩).2 with
  | error e => exact hindex (congrFun (congrArg VectorStore.index (h _ _ _ _ _ _ _ e hresult)) 1)
  | ok =>
    have herror : (firstStore.applyFileDeltaReconciled (fun _ => 1) "a.rs" {1}
        [(2, renamedChunk)] (fun _ => none) ⟨2, 2, .regular⟩).2.toOption = none := by
      decide +kernel
    rw [hresult] at herror
    cases herror

end VectorStore

end TldrCode.Semantic.Deltas
