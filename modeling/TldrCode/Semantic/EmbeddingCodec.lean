import Mathlib.Data.List.Basic
import TldrCode.Fallible
import TldrCode.LittleEndian
import TldrCode.Types

/-!
# Embedding records as bytes

`semantic/redb_store.rs`: the layouts of an embedding record and of a generation vector. Both
directions of a codec are described by one list of bytes (`embeddingLayout`, `generationLayout`):
the encoder writes it when its checks pass, and the decoder accepts nothing else. A float is its
four bytes; all that the codecs ask of it is whether it is finite.
-/

namespace TldrCode.Semantic

/-! ## Memory -/

/-- `isize::MAX` on a 64-bit target, which no allocation exceeds. -/
def isizeMax : Nat := 2 ^ 63 - 1

structure ByteSlice where
  bytes : List UInt8
  fits : bytes.length ≤ isizeMax

/-- `Vec::with_capacity`, which panics when the allocation would be too large. -/
def withCapacity (capacity : Nat) : Except String Unit :=
  reject (isizeMax < capacity) "capacity overflow"

/-- `usize::checked_add`. -/
def checkedAddUsize (a b : Nat) : Option Nat := if a + b ≤ usizeMax then some (a + b) else none

/-- `usize::saturating_mul`. -/
def saturatingMulUsize (a b : Nat) : Nat := min (a * b) usizeMax

def storeError (message : String) : String := "semantic redb store: " ++ message

/-- `bytes[start..stop]`. -/
def bytesIn (bytes : List UInt8) (start stop : Nat) : List UInt8 :=
  (bytes.drop start).take (stop - start)

/-! ## Words -/

/-- `u32::try_from`. -/
def u32TryFrom (n : Nat) : Option UInt32 := if n < 2 ^ 32 then some (UInt32.ofNat n) else none

/-- `u32::to_le_bytes`. -/
def u32Bytes (x : UInt32) : List UInt8 := LittleEndian.bytes 4 x.toNat

/-- `u64::to_le_bytes`. -/
def u64Bytes (x : UInt64) : List UInt8 := LittleEndian.bytes 8 x.toNat

def decodeU32 (bytes : List UInt8) : Option UInt32 :=
  if bytes.length = 4 then some (UInt32.ofNat (LittleEndian.value bytes)) else none

def decodeU64 (bytes : List UInt8) : Option UInt64 :=
  if bytes.length = 8 then some (UInt64.ofNat (LittleEndian.value bytes)) else none

/-- `f32`: its bits. -/
structure F32 where
  bits : UInt32
  deriving DecidableEq, Repr

/-- `f32::is_finite`: the exponent is not all ones. -/
def F32.isFinite (x : F32) : Bool := (x.bits >>> 23) &&& 0xFF != 0xFF

/-- `f32::to_le_bytes`. -/
def F32.toBytes (x : F32) : List UInt8 := u32Bytes x.bits

/-- `f32::from_le_bytes` of four bytes. -/
def F32.ofBytes (bytes : List UInt8) : F32 := ⟨UInt32.ofNat (LittleEndian.value bytes)⟩

def vectorBytes (vector : List F32) : List UInt8 := vector.flatMap F32.toBytes

/-- `bytes.chunks_exact(4)`, each read as a float. -/
def chunksExact : List UInt8 → List F32
  | b₀ :: b₁ :: b₂ :: b₃ :: rest => F32.ofBytes [b₀, b₁, b₂, b₃] :: chunksExact rest
  | _ => []

/-- The floats of a payload, all of which have to be finite. -/
def decodeVector (message : String) (payload : List UInt8) : Except String (List F32) :=
  (chunksExact payload).mapM fun value =>
    if value.isFinite then .ok value else .error (storeError message)

def encodeGenerationVector (vector : List F32) (metadata : List UInt8) (dimensions : Nat) :
    Except String (List UInt8) := do
  reject (vector.length ≠ dimensions ∨ vector.any (fun value => !value.isFinite))
    (storeError "generation vector dimensions or values are invalid")
  let metadataLen ← okOr (u32TryFrom metadata.length) (storeError "generation metadata too large")
  withCapacity (4 + metadata.length + vector.length * 4)
  return u32Bytes metadataLen ++ metadata ++ vectorBytes vector

def decodeGenerationVector (bytes : List UInt8) (dimensions : Nat) :
    Except String (List F32 × List UInt8) := do
  reject (bytes.length < 4) (storeError "truncated generation vector")
  let metadataLen ← okOr (decodeU32 (bytesIn bytes 0 4))
    (storeError "invalid generation metadata length")
  let vectorStart ← okOr (checkedAddUsize 4 metadataLen.toNat)
    (storeError "generation vector length overflow")
  let expected ← okOr (checkedAddUsize vectorStart (saturatingMulUsize dimensions 4))
    (storeError "generation vector length overflow")
  reject (bytes.length ≠ expected) (storeError "generation vector byte length mismatch")
  let vector ← decodeVector "generation vector contains a non-finite value"
    (bytes.drop vectorStart)
  return (vector, bytesIn bytes 4 vectorStart)

/-! ## Embeddings -/

def embeddingRecordVersion : UInt32 := 1

def embeddingHeaderBytes : Nat := 4 + 4 + 8 + 8 + 32

/-- `NO_FILE_MTIME`: `u64::MAX`. -/
def noFileMtime : UInt64 := UInt64.ofNat (2 ^ 64 - 1)

structure StoredEmbedding where
  recipe : Vector UInt8 32
  vector : List F32
  cachedAt : UInt64
  fileMtime : Option UInt64
  deriving DecidableEq, Repr

def encodeEmbedding (recipe : Vector UInt8 32) (vector : List F32) (cachedAt : UInt64)
    (fileMtime : Option UInt64) : Except String (List UInt8) := do
  let dimensions ← okOr (u32TryFrom vector.length)
    (storeError "embedding dimensions exceed u32")
  reject (dimensions = 0 ∨ vector.any (fun value => !value.isFinite))
    (storeError "embedding must contain finite values and at least one dimension")
  withCapacity (embeddingHeaderBytes + vector.length * 4)
  return u32Bytes embeddingRecordVersion ++ u32Bytes dimensions ++ u64Bytes cachedAt ++
    u64Bytes (fileMtime.getD noFileMtime) ++ recipe.toList ++ vectorBytes vector

/-- `bytes.try_into()` for a recipe. -/
def recipeTryFrom (bytes : List UInt8) : Option (Vector UInt8 32) :=
  if h : bytes.length = 32 then some ⟨bytes.toArray, h⟩ else none

def decodeEmbedding (bytes : List UInt8) (expectedRecipe : Vector UInt8 32)
    (expectedDimensions : Nat) : Except String StoredEmbedding := do
  reject (bytes.length < embeddingHeaderBytes) (storeError "truncated embedding record")
  let version ← okOr (decodeU32 (bytesIn bytes 0 4)) (storeError "invalid record version")
  reject (version ≠ embeddingRecordVersion)
    (storeError s!"incompatible embedding record version {version}")
  let dimensions ← okOr (decodeU32 (bytesIn bytes 4 8)) (storeError "invalid dimension field")
  reject (dimensions.toNat ≠ expectedDimensions) (storeError
    s!"embedding dimension mismatch: expected {expectedDimensions}, found {dimensions}")
  let expectedBytes ← okOr
    (checkedAddUsize embeddingHeaderBytes (saturatingMulUsize dimensions.toNat 4))
    (storeError "embedding byte length overflow")
  reject (bytes.length ≠ expectedBytes) (storeError
    s!"embedding byte length mismatch: expected {expectedBytes}, found {bytes.length}")
  let cachedAt ← okOr (decodeU64 (bytesIn bytes 8 16)) (storeError "invalid timestamp")
  let encodedMtime ← okOr (decodeU64 (bytesIn bytes 16 24)) (storeError "invalid file mtime")
  let recipe ← okOr (recipeTryFrom (bytesIn bytes 24 56))
    (storeError "invalid recipe fingerprint")
  reject (recipe ≠ expectedRecipe) (storeError "embedding recipe mismatch")
  let vector ← decodeVector "embedding contains a non-finite value"
    (bytes.drop embeddingHeaderBytes)
  return {
    recipe
    vector
    cachedAt
    fileMtime := if encodedMtime ≠ noFileMtime then some encodedMtime else none }

/-! ## Words and floats -/

theorem length_u32Bytes (x : UInt32) : (u32Bytes x).length = 4 := LittleEndian.length_bytes _ _

theorem length_u64Bytes (x : UInt64) : (u64Bytes x).length = 8 := LittleEndian.length_bytes _ _

theorem value_u32Bytes (x : UInt32) : UInt32.ofNat (LittleEndian.value (u32Bytes x)) = x := by
  rw [u32Bytes, LittleEndian.value_bytes x.toNat_lt, UInt32.ofNat_toNat]

theorem value_u64Bytes (x : UInt64) : UInt64.ofNat (LittleEndian.value (u64Bytes x)) = x := by
  rw [u64Bytes, LittleEndian.value_bytes x.toNat_lt, UInt64.ofNat_toNat]

variable {bytes : List UInt8} {n : Nat}

theorem u32Bytes_value (h : bytes.length = 4) :
    u32Bytes (UInt32.ofNat (LittleEndian.value bytes)) = bytes := by
  have hlt := LittleEndian.value_lt bytes
  rw [h] at hlt
  rw [u32Bytes, UInt32.toNat_ofNat_of_lt' hlt, ← h]
  exact LittleEndian.bytes_value bytes

theorem u64Bytes_value (h : bytes.length = 8) :
    u64Bytes (UInt64.ofNat (LittleEndian.value bytes)) = bytes := by
  have hlt := LittleEndian.value_lt bytes
  rw [h] at hlt
  rw [u64Bytes, UInt64.toNat_ofNat_of_lt' hlt, ← h]
  exact LittleEndian.bytes_value bytes

theorem decodeU32_eq_some {x : UInt32} : decodeU32 bytes = some x ↔ bytes = u32Bytes x := by
  unfold decodeU32
  constructor
  · intro h
    split_ifs at h with hlength
    cases h
    exact (u32Bytes_value hlength).symm
  · rintro rfl
    rw [if_pos (length_u32Bytes x), value_u32Bytes]

theorem decodeU64_eq_some {x : UInt64} : decodeU64 bytes = some x ↔ bytes = u64Bytes x := by
  unfold decodeU64
  constructor
  · intro h
    split_ifs at h with hlength
    cases h
    exact (u64Bytes_value hlength).symm
  · rintro rfl
    rw [if_pos (length_u64Bytes x), value_u64Bytes]

theorem recipeTryFrom_eq_some {recipe : Vector UInt8 32} :
    recipeTryFrom bytes = some recipe ↔ bytes = recipe.toList := by
  unfold recipeTryFrom
  constructor
  · intro h
    split_ifs at h
    cases h
    rfl
  · rintro rfl
    rw [dif_pos (Vector.length_toList ..)]
    rfl

theorem u32TryFrom_eq_some {x : UInt32} : u32TryFrom n = some x ↔ n = x.toNat := by
  unfold u32TryFrom
  constructor
  · intro h
    split_ifs at h with hlt
    cases h
    exact (UInt32.toNat_ofNat_of_lt' hlt).symm
  · rintro rfl
    rw [if_pos x.toNat_lt, UInt32.ofNat_toNat]

variable {vector : List F32} {start stop : Nat}

theorem length_vectorBytes (vector : List F32) :
    (vectorBytes vector).length = vector.length * 4 := by
  induction vector with
  | nil => rfl
  | cons x vector ih =>
    rw [vectorBytes, List.flatMap_cons, List.length_append, List.length_cons, F32.toBytes,
      length_u32Bytes, ← vectorBytes, ih]
    omega

theorem chunksExact_vectorBytes (vector : List F32) :
    chunksExact (vectorBytes vector) = vector := by
  induction vector with
  | nil => rfl
  | cons x vector ih =>
    have hvalue : F32.ofBytes (u32Bytes x.bits) = x := by
      rw [F32.ofBytes, value_u32Bytes]
    rw [vectorBytes, List.flatMap_cons, ← vectorBytes, F32.toBytes]
    refine Eq.trans ?_ (congrArg₂ List.cons hvalue ih)
    rfl

theorem exists_vectorBytes (h : bytes.length = n * 4) : ∃ vector, vectorBytes vector = bytes := by
  induction n generalizing bytes with
  | zero =>
    rw [Nat.zero_mul, List.length_eq_zero_iff] at h
    exact ⟨[], h.symm⟩
  | succ n ih =>
    have hrest : (bytes.drop 4).length = n * 4 := by
      rw [List.length_drop]
      omega
    have hfirst : (bytes.take 4).length = 4 := by
      rw [List.length_take]
      omega
    obtain ⟨vector, hvector⟩ := ih hrest
    refine ⟨⟨UInt32.ofNat (LittleEndian.value (bytes.take 4))⟩ :: vector, ?_⟩
    rw [vectorBytes, List.flatMap_cons, ← vectorBytes, hvector, F32.toBytes, u32Bytes_value hfirst]
    exact List.take_append_drop 4 bytes

/-- **A payload is read** as the vector that it is the bytes of. -/
theorem decodeVector_eq_ok_iff {message : String} (h : bytes.length = n * 4) :
    decodeVector message bytes = .ok vector ↔
      bytes = vectorBytes vector ∧ ∀ x ∈ vector, x.isFinite := by
  obtain ⟨payload, rfl⟩ := exists_vectorBytes h
  have hinj : vectorBytes payload = vectorBytes vector ↔ payload = vector := by
    refine ⟨fun heq => ?_, congrArg vectorBytes⟩
    rw [← chunksExact_vectorBytes payload, heq, chunksExact_vectorBytes]
  rw [decodeVector, chunksExact_vectorBytes, mapM_eq_ok_iff, hinj]
  constructor
  · intro hall
    have hstep : ∀ x y : F32, (if x.isFinite then Except.ok x
        else Except.error (storeError message)) = .ok y → x = y ∧ y.isFinite := by
      intro x y hxy
      split_ifs at hxy with hfinite
      cases hxy
      exact ⟨rfl, hfinite⟩
    have heq : payload = vector := List.forall₂_eq_eq_eq ▸ hall.imp fun x y hxy => (hstep x y hxy).1
    subst heq
    exact ⟨rfl, fun x hx => (hstep x x (List.forall₂_same.1 hall x hx)).2⟩
  · rintro ⟨rfl, hfinite⟩
    refine List.forall₂_same.2 fun x hx => ?_
    rw [if_pos (hfinite x hx)]

/-! ## Layouts -/

theorem bytesIn_append_drop (h : start ≤ stop) :
    bytesIn bytes start stop ++ bytes.drop stop = bytes.drop start := by
  have hdrop : bytes.drop stop = (bytes.drop start).drop (stop - start) := by
    rw [List.drop_drop, Nat.add_sub_cancel' h]
  rw [bytesIn, hdrop]
  exact List.take_append_drop _ _

theorem bytesIn_eq {front middle : List UInt8} (back : List UInt8)
    (h : bytes = front ++ (middle ++ back)) (hstart : front.length = start)
    (hstop : start + middle.length = stop) : bytesIn bytes start stop = middle := by
  subst h
  rw [bytesIn, List.drop_left' hstart, List.take_left']
  omega

def generationLayout (vector : List F32) (metadata : List UInt8) (metadataLen : UInt32) :
    List UInt8 :=
  u32Bytes metadataLen ++ (metadata ++ vectorBytes vector)

def embeddingLayout (recipe : Vector UInt8 32) (vector : List F32) (dimensions : UInt32)
    (cachedAt mtime : UInt64) : List UInt8 :=
  u32Bytes embeddingRecordVersion ++ (u32Bytes dimensions ++ (u64Bytes cachedAt ++
    (u64Bytes mtime ++ (recipe.toList ++ vectorBytes vector))))

theorem any_not_isFinite : vector.any (fun value => !value.isFinite) = true ↔
    ¬ ∀ x ∈ vector, x.isFinite := by
  rw [List.any_eq_true]
  push Not
  simp only [Bool.not_eq_true', Bool.not_eq_true]

variable {metadata : List UInt8} {dimensions : Nat}

/-- **What the encoder of generation vectors writes**, and when. -/
theorem encodeGenerationVector_eq_ok_iff :
    encodeGenerationVector vector metadata dimensions = .ok bytes ↔
      vector.length = dimensions ∧ (∀ x ∈ vector, x.isFinite) ∧ bytes.length ≤ isizeMax ∧
        ∃ metadataLen : UInt32, metadata.length = metadataLen.toNat ∧
          bytes = generationLayout vector metadata metadataLen := by
  have hlength : ∀ metadataLen, (generationLayout vector metadata metadataLen).length =
      4 + metadata.length + vector.length * 4 := by
    intro metadataLen
    rw [generationLayout, List.length_append, List.length_append, length_u32Bytes,
      length_vectorBytes]
    omega
  unfold encodeGenerationVector withCapacity
  simp only [bind_eq_ok_iff, reject_eq_ok_iff, okOr_eq_ok_iff, u32TryFrom_eq_some,
    any_not_isFinite, not_or, not_not, not_lt, exists_const]
  constructor
  · rintro ⟨⟨hdimensions, hfinite⟩, metadataLen, hlen, hcapacity, hbytes⟩
    have hbytes' : bytes = generationLayout vector metadata metadataLen := by
      cases hbytes
      exact List.append_assoc ..
    refine ⟨hdimensions, hfinite, ?_, metadataLen, hlen, hbytes'⟩
    rwa [hbytes', hlength]
  · rintro ⟨hdimensions, hfinite, hcapacity, metadataLen, hlen, rfl⟩
    rw [hlength] at hcapacity
    refine ⟨⟨hdimensions, hfinite⟩, metadataLen, hlen, hcapacity, ?_⟩
    rw [generationLayout, ← List.append_assoc]
    rfl

theorem checkedAddUsize_eq_some {a b c : Nat} :
    checkedAddUsize a b = some c ↔ a + b ≤ usizeMax ∧ a + b = c := by
  unfold checkedAddUsize
  split_ifs with h
  · rw [Option.some_inj]
    exact ⟨fun heq => ⟨h, heq⟩, And.right⟩
  · exact ⟨nofun, fun hle => absurd hle.1 h⟩

/-- **What the decoder of generation vectors accepts.** -/
theorem decodeGenerationVector_eq_ok_iff :
    decodeGenerationVector bytes dimensions = .ok (vector, metadata) ↔
      vector.length = dimensions ∧ (∀ x ∈ vector, x.isFinite) ∧ bytes.length ≤ usizeMax ∧
        ∃ metadataLen : UInt32, metadata.length = metadataLen.toNat ∧
          bytes = generationLayout vector metadata metadataLen := by
  unfold decodeGenerationVector
  simp only [bind_eq_ok_iff, reject_eq_ok_iff, okOr_eq_ok_iff, decodeU32_eq_some,
    checkedAddUsize_eq_some, saturatingMulUsize, not_not, not_lt, exists_const]
  constructor
  · rintro ⟨hheader, metadataLen, hlen, vectorStart, ⟨-, rfl⟩, expected, ⟨hmax, rfl⟩, hlength,
      payload, hpayload, hresult⟩
    have hmin : min (dimensions * 4) usizeMax = dimensions * 4 := by
      omega
    rw [hmin] at hmax hlength
    have hdrop : (bytes.drop (4 + metadataLen.toNat)).length = dimensions * 4 := by
      rw [List.length_drop]
      omega
    obtain ⟨hvector, hfinite⟩ := (decodeVector_eq_ok_iff hdrop).1 hpayload
    cases hresult
    have hvectorLength : vector.length = dimensions := by
      rw [hvector, length_vectorBytes] at hdrop
      omega
    refine ⟨hvectorLength, hfinite, by omega, metadataLen, ?_, ?_⟩
    · rw [bytesIn, List.length_take, List.length_drop]
      omega
    · have hsplit : bytesIn bytes 4 (4 + metadataLen.toNat) ++ bytes.drop (4 + metadataLen.toNat) =
          bytes.drop 4 := bytesIn_append_drop (Nat.le_add_right 4 metadataLen.toNat)
      rw [generationLayout, ← hlen, ← hvector, hsplit, bytesIn_append_drop (Nat.zero_le 4)]
      rfl
  · rintro ⟨hdimensions, hfinite, hmax, metadataLen, hlen, rfl⟩
    have hlength : (generationLayout vector metadata metadataLen).length =
        4 + metadataLen.toNat + dimensions * 4 := by
      rw [generationLayout, List.length_append, List.length_append, length_u32Bytes,
        length_vectorBytes, hlen, hdimensions]
      omega
    have hmin : min (dimensions * 4) usizeMax = dimensions * 4 := by
      omega
    have hdrop : (generationLayout vector metadata metadataLen).drop (4 + metadataLen.toNat) =
        vectorBytes vector := by
      rw [generationLayout, ← List.append_assoc]
      refine List.drop_left' ?_
      rw [List.length_append, length_u32Bytes, hlen]
    have hheader : bytesIn (generationLayout vector metadata metadataLen) 0 4 =
        u32Bytes metadataLen :=
      bytesIn_eq _ (List.nil_append _).symm rfl
        ((Nat.zero_add _).trans (length_u32Bytes metadataLen))
    rw [hmin]
    refine ⟨by omega, metadataLen, hheader, _,
      ⟨by omega, rfl⟩, _, ⟨by omega, rfl⟩, hlength, vector, ?_, ?_⟩
    · rw [hdrop, decodeVector_eq_ok_iff (length_vectorBytes vector)]
      exact ⟨rfl, hfinite⟩
    · have hmetadata : bytesIn (generationLayout vector metadata metadataLen) 4
          (4 + metadataLen.toNat) = metadata :=
        bytesIn_eq _ rfl (length_u32Bytes metadataLen) (congrArg (4 + ·) hlen)
      rw [hmetadata]
      rfl

/-! ## Embeddings as bytes -/

variable {recipe expectedRecipe : Vector UInt8 32} {cachedAt : UInt64} {fileMtime : Option UInt64}
  {record : StoredEmbedding}

theorem length_embeddingLayout (recipe : Vector UInt8 32) (vector : List F32) (dim : UInt32)
    (cachedAt mtime : UInt64) : (embeddingLayout recipe vector dim cachedAt mtime).length =
      embeddingHeaderBytes + vector.length * 4 := by
  simp only [embeddingLayout, List.length_append, length_u32Bytes, length_u64Bytes,
    length_vectorBytes, Vector.length_toList, embeddingHeaderBytes]
  omega

theorem toNat_eq_zero {x : UInt32} : x = 0 ↔ x.toNat = 0 := by
  rw [← UInt32.toNat_inj]
  rfl

/-- **What the encoder of embeddings writes**, and when. -/
theorem encodeEmbedding_eq_ok_iff :
    encodeEmbedding recipe vector cachedAt fileMtime = .ok bytes ↔
      vector ≠ [] ∧ (∀ x ∈ vector, x.isFinite) ∧ ∃ dim : UInt32, vector.length = dim.toNat ∧
        bytes = embeddingLayout recipe vector dim cachedAt (fileMtime.getD noFileMtime) := by
  unfold encodeEmbedding withCapacity
  simp only [bind_eq_ok_iff, reject_eq_ok_iff, okOr_eq_ok_iff, u32TryFrom_eq_some,
    any_not_isFinite, not_or, not_not, not_lt, exists_const, toNat_eq_zero]
  have hwrite : ∀ dim, u32Bytes embeddingRecordVersion ++ u32Bytes dim ++ u64Bytes cachedAt ++
      u64Bytes (fileMtime.getD noFileMtime) ++ recipe.toList ++ vectorBytes vector =
        embeddingLayout recipe vector dim cachedAt (fileMtime.getD noFileMtime) := by
    intro dim
    simp only [embeddingLayout, List.append_assoc]
  constructor
  · rintro ⟨dim, hdim, ⟨hpos, hfinite⟩, -, hbytes⟩
    refine ⟨fun hnil => hpos ?_, hfinite, dim, hdim, ?_⟩
    · rw [← hdim, hnil]
      rfl
    · rw [← hwrite]
      cases hbytes
      rfl
  · rintro ⟨hne, hfinite, dim, hdim, rfl⟩
    have hlt := dim.toNat_lt
    refine ⟨dim, hdim, ⟨fun hzero => hne ?_, hfinite⟩, ?_, ?_⟩
    · rw [← hdim, List.length_eq_zero_iff] at hzero
      exact hzero
    · rw [hdim, embeddingHeaderBytes, isizeMax]
      omega
    · rw [← hwrite]
      rfl

/-- **The fields of a record** are where its layout puts them. -/
theorem eq_embeddingLayout_iff {dim : UInt32} {mtime : UInt64} :
    bytes = embeddingLayout recipe vector dim cachedAt mtime ↔
      bytesIn bytes 0 4 = u32Bytes embeddingRecordVersion ∧ bytesIn bytes 4 8 = u32Bytes dim ∧
        bytesIn bytes 8 16 = u64Bytes cachedAt ∧ bytesIn bytes 16 24 = u64Bytes mtime ∧
          bytesIn bytes 24 56 = recipe.toList ∧ bytes.drop 56 = vectorBytes vector := by
  constructor
  · rintro rfl
    have hversion := length_u32Bytes embeddingRecordVersion
    have hdim := length_u32Bytes dim
    have hcachedAt := length_u64Bytes cachedAt
    have hmtime := length_u64Bytes mtime
    have hrecipe : recipe.toList.length = 32 := Vector.length_toList ..
    have hfront : (u32Bytes embeddingRecordVersion ++ u32Bytes dim).length = 8 := by
      rw [List.length_append, hversion, hdim]
    have hfront' : (u32Bytes embeddingRecordVersion ++ u32Bytes dim ++
        u64Bytes cachedAt).length = 16 := by
      rw [List.length_append, hfront, hcachedAt]
    have hfront'' : (u32Bytes embeddingRecordVersion ++ u32Bytes dim ++ u64Bytes cachedAt ++
        u64Bytes mtime).length = 24 := by
      rw [List.length_append, hfront', hmtime]
    refine ⟨bytesIn_eq _ (List.nil_append _).symm rfl (by rw [hversion]),
      bytesIn_eq _ rfl hversion (by rw [hdim]), bytesIn_eq
        (u64Bytes mtime ++ (recipe.toList ++ vectorBytes vector)) ?_ hfront (by rw [hcachedAt]),
      bytesIn_eq (recipe.toList ++ vectorBytes vector) ?_ hfront' (by rw [hmtime]),
      bytesIn_eq (vectorBytes vector) ?_ hfront'' (by rw [hrecipe]), ?_⟩
    · simp only [embeddingLayout, List.append_assoc]
    · simp only [embeddingLayout, List.append_assoc]
    · simp only [embeddingLayout, List.append_assoc]
    · simp only [embeddingLayout, ← List.append_assoc]
      refine List.drop_left' ?_
      rw [List.length_append, hfront'', hrecipe]
  · rintro ⟨hversion, hdim, hcachedAt, hmtime, hrecipe, hvector⟩
    rw [embeddingLayout, ← hversion, ← hdim, ← hcachedAt, ← hmtime, ← hrecipe, ← hvector,
      bytesIn_append_drop (by omega), bytesIn_append_drop (by omega),
      bytesIn_append_drop (by omega), bytesIn_append_drop (by omega),
      bytesIn_append_drop (by omega)]
    rfl

/-- The time that a field of a record stands for. -/
def mtimeOf (encoded : UInt64) : Option UInt64 :=
  if encoded ≠ noFileMtime then some encoded else none

/-- **What the decoder of embeddings accepts.** -/
theorem decodeEmbedding_eq_ok_iff :
    decodeEmbedding bytes expectedRecipe dimensions = .ok record ↔
      record.recipe = expectedRecipe ∧ record.vector.length = dimensions ∧
        (∀ x ∈ record.vector, x.isFinite) ∧ ∃ (dim : UInt32) (mtime : UInt64),
          dimensions = dim.toNat ∧ record.fileMtime = mtimeOf mtime ∧
            bytes = embeddingLayout record.recipe record.vector dim record.cachedAt mtime := by
  unfold decodeEmbedding
  simp only [bind_eq_ok_iff, reject_eq_ok_iff, okOr_eq_ok_iff, decodeU32_eq_some,
    decodeU64_eq_some, recipeTryFrom_eq_some, checkedAddUsize_eq_some, saturatingMulUsize, not_not,
    not_lt, exists_const]
  have hchecked : ∀ dim : UInt32,
      embeddingHeaderBytes + min (dim.toNat * 4) usizeMax ≤ usizeMax ∧
        min (dim.toNat * 4) usizeMax = dim.toNat * 4 := by
    intro dim
    have hlt := dim.toNat_lt
    unfold embeddingHeaderBytes usizeMax
    omega
  constructor
  · rintro ⟨hheader, version, hversion, rfl, dim, hdim, rfl, expected, ⟨-, rfl⟩, hlength, cachedAt,
      hcachedAt, mtime, hmtime, recipe, hrecipe, rfl, vector, hvector, hresult⟩
    rw [(hchecked dim).2] at hlength
    have hdrop : (bytes.drop embeddingHeaderBytes).length = dim.toNat * 4 := by
      rw [List.length_drop]
      omega
    obtain ⟨hpayload, hfinite⟩ := (decodeVector_eq_ok_iff hdrop).1 hvector
    rw [hpayload, length_vectorBytes] at hdrop
    cases hresult
    exact ⟨rfl, Nat.eq_of_mul_eq_mul_right (by decide) hdrop, hfinite, dim, mtime, rfl, rfl,
      eq_embeddingLayout_iff.2 ⟨hversion, hdim, hcachedAt, hmtime, hrecipe, hpayload⟩⟩
  · obtain ⟨recipe, vector, cachedAt, fileMtime⟩ := record
    rintro ⟨rfl, rfl, hfinite, dim, mtime, hdim, rfl, hlayout⟩
    dsimp only at hdim hfinite hlayout ⊢
    have hlength := length_embeddingLayout recipe vector dim cachedAt mtime
    rw [← hlayout, hdim] at hlength
    obtain ⟨hversion, hdim', hcachedAt, hmtime, hrecipe, hpayload⟩ :=
      eq_embeddingLayout_iff.1 hlayout
    refine ⟨hlength ▸ Nat.le_add_right _ _, _, hversion, rfl, dim, hdim', hdim.symm, _,
      ⟨(hchecked dim).1, rfl⟩, hlength.trans (congrArg (_ + ·) (hchecked dim).2.symm), cachedAt,
      hcachedAt, mtime, hmtime, recipe, hrecipe, rfl, vector, ?_, rfl⟩
    rw [embeddingHeaderBytes, hpayload]
    exact (decodeVector_eq_ok_iff (length_vectorBytes vector)).2 ⟨rfl, hfinite⟩

/-! ## Round trips -/

theorem exists_toNat_eq (h : n < 2 ^ 32) : ∃ x : UInt32, n = x.toNat :=
  ⟨UInt32.ofNat n, (UInt32.toNat_ofNat_of_lt' h).symm⟩

theorem mtimeOf_getD (h : fileMtime ≠ some noFileMtime) :
    mtimeOf (fileMtime.getD noFileMtime) = fileMtime := by
  cases fileMtime with
  | none => exact if_neg (not_not.2 rfl)
  | some mtime => exact if_pos fun heq => h (congrArg some heq)

theorem getD_mtimeOf (mtime : UInt64) : (mtimeOf mtime).getD noFileMtime = mtime := by
  unfold mtimeOf
  split_ifs with h
  · rfl
  · exact (not_not.1 h).symm

theorem mtimeOf_ne (mtime : UInt64) : mtimeOf mtime ≠ some noFileMtime := by
  unfold mtimeOf
  split_ifs with h
  · exact fun heq => h (Option.some.inj heq)
  · exact nofun

/-- An encoded record is decoded again, save that no record has the time that stands for none. -/
theorem decodeEmbedding_encodeEmbedding (hmtime : fileMtime ≠ some noFileMtime)
    (h : encodeEmbedding recipe vector cachedAt fileMtime = .ok bytes) :
    decodeEmbedding bytes recipe vector.length =
      .ok { recipe, vector, cachedAt, fileMtime } := by
  obtain ⟨-, hfinite, dim, hdim, hbytes⟩ := encodeEmbedding_eq_ok_iff.1 h
  exact decodeEmbedding_eq_ok_iff.2
    ⟨rfl, rfl, hfinite, dim, _, hdim, (mtimeOf_getD hmtime).symm, hbytes⟩

/-- A record that is accepted and has a dimension is the encoding of what was read. -/
theorem encodeEmbedding_decodeEmbedding (hpos : 0 < dimensions)
    (h : decodeEmbedding bytes expectedRecipe dimensions = .ok record) :
    encodeEmbedding record.recipe record.vector record.cachedAt record.fileMtime = .ok bytes := by
  obtain ⟨-, hlength, hfinite, dim, mtime, hdim, hmtime, hbytes⟩ := decodeEmbedding_eq_ok_iff.1 h
  refine encodeEmbedding_eq_ok_iff.2
    ⟨fun hnil => ?_, hfinite, dim, hlength.trans hdim, ?_⟩
  · rw [hnil, List.length_nil] at hlength
    omega
  · rw [hmtime, getD_mtimeOf]
    exact hbytes

theorem decodeGenerationVector_encodeGenerationVector
    (h : encodeGenerationVector vector metadata dimensions = .ok bytes) :
    decodeGenerationVector bytes dimensions = .ok (vector, metadata) := by
  obtain ⟨hlength, hfinite, hfits, hlayout⟩ := encodeGenerationVector_eq_ok_iff.1 h
  exact decodeGenerationVector_eq_ok_iff.2
    ⟨hlength, hfinite, hfits.trans (by decide), hlayout⟩

theorem encodeGenerationVector_decodeGenerationVector (hfits : bytes.length ≤ isizeMax)
    (h : decodeGenerationVector bytes dimensions = .ok (vector, metadata)) :
    encodeGenerationVector vector metadata dimensions = .ok bytes := by
  obtain ⟨hlength, hfinite, -, hlayout⟩ := decodeGenerationVector_eq_ok_iff.1 h
  exact encodeGenerationVector_eq_ok_iff.2 ⟨hlength, hfinite, hfits, hlayout⟩

/-- **The codecs are lossless** for vectors and metadata whose lengths fit their fields, for records
with a dimension and for times other than the one that stands for none. -/
theorem codecs_lossless :
    (∀ (recipe : Vector UInt8 32) vector cachedAt fileMtime, vector ≠ [] → vector.length < 2 ^ 32 →
      (∀ x ∈ vector, x.isFinite) → fileMtime ≠ some noFileMtime → ∃ bytes,
        encodeEmbedding recipe vector cachedAt fileMtime = .ok bytes ∧
          decodeEmbedding bytes recipe vector.length =
            .ok { recipe, vector, cachedAt, fileMtime }) ∧
    (∀ vector metadata, (∀ x ∈ vector, x.isFinite) → metadata.length < 2 ^ 32 →
      4 + metadata.length + vector.length * 4 ≤ isizeMax → ∃ bytes,
        encodeGenerationVector vector metadata vector.length = .ok bytes ∧
          decodeGenerationVector bytes vector.length = .ok (vector, metadata)) ∧
    (∀ (slice : ByteSlice) recipe dimensions record, 0 < dimensions →
      decodeEmbedding slice.bytes recipe dimensions = .ok record →
        encodeEmbedding record.recipe record.vector record.cachedAt record.fileMtime =
          .ok slice.bytes) ∧
    ∀ (slice : ByteSlice) dimensions vector metadata,
      decodeGenerationVector slice.bytes dimensions = .ok (vector, metadata) →
        encodeGenerationVector vector metadata dimensions = .ok slice.bytes := by
  refine ⟨fun recipe vector cachedAt fileMtime hne hlength hfinite hmtime => ?_,
    fun vector metadata hfinite hlength hfits => ?_,
    fun _ _ _ _ hpos h => encodeEmbedding_decodeEmbedding hpos h,
    fun slice _ _ _ h => encodeGenerationVector_decodeGenerationVector slice.fits h⟩
  · obtain ⟨dim, hdim⟩ := exists_toNat_eq hlength
    have hencode : encodeEmbedding recipe vector cachedAt fileMtime = .ok _ :=
      encodeEmbedding_eq_ok_iff.2 ⟨hne, hfinite, dim, hdim, rfl⟩
    exact ⟨_, hencode, decodeEmbedding_encodeEmbedding hmtime hencode⟩
  · obtain ⟨metadataLen, hlen⟩ := exists_toNat_eq hlength
    have hlayout : (generationLayout vector metadata metadataLen).length ≤ isizeMax := by
      rw [generationLayout, List.length_append, List.length_append, length_u32Bytes,
        length_vectorBytes]
      omega
    have hencode := encodeGenerationVector_eq_ok_iff.2
      ⟨rfl, hfinite, hlayout, metadataLen, hlen, rfl⟩
    exact ⟨_, hencode, decodeGenerationVector_encodeGenerationVector hencode⟩

/-- **The last time of all** is read back as none. -/
theorem not_lossless_noFileMtime : ¬ ∀ (recipe : Vector UInt8 32) vector cachedAt fileMtime,
    vector ≠ [] → (∀ x ∈ vector, x.isFinite) → ∃ bytes,
      encodeEmbedding recipe vector cachedAt fileMtime = .ok bytes ∧
        decodeEmbedding bytes recipe vector.length =
          .ok { recipe, vector, cachedAt, fileMtime } := by
  intro h
  obtain ⟨bytes, -, hdecode⟩ := h (.replicate 32 0) [⟨0⟩] 0 (some noFileMtime) (by decide)
    (by decide)
  obtain ⟨-, -, -, dim, mtime, -, hmtime, -⟩ := decodeEmbedding_eq_ok_iff.1 hdecode
  exact mtimeOf_ne mtime hmtime.symm

/-- **No record that is cut off is accepted**, nor is one that goes on. -/
theorem codecs_prefix_free :
    (∀ bytes bytes' recipe recipe' dimensions record record',
      decodeEmbedding bytes recipe dimensions = .ok record →
      decodeEmbedding bytes' recipe' dimensions = .ok record' → bytes <+: bytes' →
        bytes = bytes') ∧
    ∀ bytes bytes' dimensions decoded decoded',
      decodeGenerationVector bytes dimensions = .ok decoded →
      decodeGenerationVector bytes' dimensions = .ok decoded' → bytes <+: bytes' →
        bytes = bytes' := by
  refine ⟨fun bytes bytes' recipe recipe' dimensions record record' h h' hprefix => ?_,
    fun bytes bytes' dimensions decoded decoded' h h' hprefix => ?_⟩
  · obtain ⟨-, hlength, -, dim, mtime, -, -, rfl⟩ := decodeEmbedding_eq_ok_iff.1 h
    obtain ⟨-, hlength', -, dim', mtime', -, -, rfl⟩ := decodeEmbedding_eq_ok_iff.1 h'
    apply hprefix.eq_of_length
    rw [length_embeddingLayout, length_embeddingLayout, hlength, hlength']
  · obtain ⟨hlength, -, -, n, hn, rfl⟩ := decodeGenerationVector_eq_ok_iff.1 h
    obtain ⟨hlength', -, -, n', hn', rfl⟩ := decodeGenerationVector_eq_ok_iff.1 h'
    -- both begin with the length of their metadata
    have hbytes : u32Bytes n = u32Bytes n' := by
      obtain ⟨rest, hrest⟩ := hprefix
      rw [generationLayout, generationLayout, List.append_assoc] at hrest
      apply List.append_inj_left hrest
      rw [length_u32Bytes, length_u32Bytes]
    have hlen : n = n' := by
      rw [← value_u32Bytes n, hbytes, value_u32Bytes]
    apply hprefix.eq_of_length
    simp only [generationLayout, List.length_append, length_u32Bytes, length_vectorBytes, hn, hn',
      hlen, hlength, hlength']

end TldrCode.Semantic
