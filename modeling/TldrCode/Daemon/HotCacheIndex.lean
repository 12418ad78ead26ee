import TldrCode.Daemon.HotCache

/-!
# The index of hot responses

`daemon/hot_cache.rs`: the dependents of an input are the keys of the live entries that have it, and
the cache stays within its bound. An entry that replaces another one under its key is not removed
from the dependents of the inputs that it leaves out, and nothing else makes the index wrong
(`indexed_iff`).
-/

namespace TldrCode.Daemon.HotCache

open Function (update)

namespace HotResponseCache

/-- A call, with the order of the hash table where it matters. A value that is not serialized is not
inserted. -/
inductive CacheCall where
  | insert (ord : HashOrder) (key : HotQueryKey) (value : Option Response) (inputs : List UInt64)
  | get (key : HotQueryKey)
  | invalidate (key : HotQueryKey)
  | invalidateByInput (input : UInt64)

def afterCall (cache : HotResponseCache) : CacheCall → HotResponseCache
  | .insert ord key (some value) inputs => cache.insert ord key value inputs
  | .insert _ _ none _ => cache
  | .get key => (cache.get key).2
  | .invalidate key => (cache.invalidate key).1
  | .invalidateByInput input => (cache.invalidateByInput input).1

def afterCalls (maxEntries : Nat) (calls : List CacheCall) : HotResponseCache :=
  calls.foldl afterCall (new maxEntries)

/-- A key is listed under an input if and only if it has a live entry with that input. -/
def Exact (cache : HotResponseCache) : Prop :=
  ∀ key input, key ∈ cache.dependents input ↔
    ∃ entry, cache.entries.lookup key = some entry ∧ input ∈ entry.inputs

/-- The index is exact, an input takes exactly the entries with it, and the cache is bounded. -/
structure Indexed (cache : HotResponseCache) : Prop where
  exact : cache.Exact
  removes : ∀ input key entry, cache.entries.lookup key = some entry →
    ((cache.invalidateByInput input).1.entries.lookup key = none ↔ input ∈ entry.inputs)
  bounded : cache.entries.entries.length ≤ cache.maxEntries

/-- The entry of the key is removed to make room. -/
def Evicts (cache : HotResponseCache) (ord : HashOrder) (key : HotQueryKey) : Prop :=
  cache.maxEntries ≤ cache.entries.entries.length ∧
    (ord.order cache.entries.entries).head?.map (·.1) = some key

/-- An entry that is replaced, and not removed first, has no input that the new one leaves out. -/
def KeepsInputs (cache : HotResponseCache) : CacheCall → Prop
  | .insert ord key (some _) inputs => ∀ entry, cache.entries.lookup key = some entry →
    ¬ cache.Evicts ord key → ∀ input ∈ entry.inputs, input ∈ inputs
  | _ => True

variable {cache : HotResponseCache} {key k : HotQueryKey} {input i : UInt64} {inputs : List UInt64}
  {entry : HotEntry} {value : Response} {ord : HashOrder} {keys : List HotQueryKey}
  {call : CacheCall}

/-! ## Invalidation -/

theorem mem_dependents_invalidate_iff : k ∈ (cache.invalidate key).1.dependents i ↔
    k ∈ cache.dependents i ∧
      ¬ (k = key ∧ ∃ entry, cache.entries.lookup key = some entry ∧ i ∈ entry.inputs) := by
  unfold HotResponseCache.invalidate
  cases hentry : cache.entries.lookup key with
  | none => simp
  | some entry => simp [mem_unregister]

theorem mem_dependents_invalidateAll : k ∈ (cache.invalidateAll keys).1.dependents i ↔
    k ∈ cache.dependents i ∧
      ¬ (k ∈ keys ∧ ∃ entry, cache.entries.lookup k = some entry ∧ i ∈ entry.inputs) := by
  rw [invalidateAll_fst]
  induction keys generalizing cache with
  | nil => simp
  | cons key keys ih =>
    rw [List.foldl_cons, ih, mem_dependents_invalidate_iff, lookup_invalidate]
    by_cases hk : k = key
    · subst hk
      simp
    · simp [hk]

theorem Exact.invalidate (h : cache.Exact) : (cache.invalidate key).1.Exact := by
  intro k i
  rw [mem_dependents_invalidate_iff, lookup_invalidate, h k i]
  by_cases hk : k = key
  · subst hk
    simp
  · simp [hk]

theorem Exact.lookup_invalidateByInput (h : cache.Exact) :
    (cache.invalidateByInput input).1.entries.lookup k =
      (cache.entries.lookup k).filter fun entry => input ∉ entry.inputs := by
  unfold HotResponseCache.invalidateByInput
  rw [lookup_invalidateAll]
  dsimp only
  rw [if_congr (h k input) rfl rfl]
  cases cache.entries.lookup k with
  | none => simp
  | some entry => by_cases hinput : input ∈ entry.inputs <;> simp [Option.filter, hinput]

theorem Exact.invalidateByInput (h : cache.Exact) : (cache.invalidateByInput input).1.Exact := by
  intro k i
  rw [h.lookup_invalidateByInput]
  unfold HotResponseCache.invalidateByInput
  rw [mem_dependents_invalidateAll]
  dsimp only
  rw [h k input, Function.update_apply]
  by_cases hi : i = input
  · subst hi
    simp
  · rw [if_neg hi, h k i]
    cases cache.entries.lookup k with
    | none => simp
    | some entry =>
      simp
      tauto

theorem lookup_makeRoom_eq : (cache.makeRoom ord).entries.lookup k =
    open Classical in if cache.Evicts ord k then none else cache.entries.lookup k := by
  unfold HotResponseCache.makeRoom Evicts
  by_cases hfull : cache.maxEntries ≤ cache.entries.entries.length
  · cases hhead : (ord.order cache.entries.entries).head? with
    | none => simp [hfull]
    | some oldest => simp [hfull, lookup_invalidate, eq_comm]
  · simp [hfull]

theorem Exact.makeRoom (h : cache.Exact) : (cache.makeRoom ord).Exact := by
  unfold HotResponseCache.makeRoom
  split
  · split
    · exact h.invalidate
    · exact h
  · exact h

/-- **An insertion** keeps the index exact if and only if the entry that it replaces has no input
that the new one leaves out. -/
theorem Exact.insert_iff (h : cache.Exact) : (cache.insert ord key value inputs).Exact ↔
    cache.KeepsInputs (.insert ord key (some value) inputs) := by
  have hroom : (cache.makeRoom ord).Exact := h.makeRoom
  have hother : ∀ k i, k ≠ key → (k ∈ (cache.insert ord key value inputs).dependents i ↔
      ∃ entry, (cache.insert ord key value inputs).entries.lookup k = some entry ∧
        i ∈ entry.inputs) := by
    intro k i hk
    unfold HotResponseCache.insert
    dsimp only
    rw [mem_register, AList.lookup_insert_ne hk, hroom k i]
    simp [hk]
  have hkey : ∀ i, (key ∈ (cache.insert ord key value inputs).dependents i ↔
      ∃ entry, (cache.insert ord key value inputs).entries.lookup key = some entry ∧
        i ∈ entry.inputs) ↔
      ∀ entry, cache.entries.lookup key = some entry → ¬ cache.Evicts ord key →
        i ∈ entry.inputs → i ∈ inputs := by
    intro i
    unfold HotResponseCache.insert
    dsimp only
    rw [mem_register, AList.lookup_insert, hroom key i, lookup_makeRoom_eq]
    by_cases hevict : cache.Evicts ord key
    · simp [hevict]
    · cases hentry : cache.entries.lookup key with
      | none => simp
      | some entry => simp [hevict, or_iff_right_iff_imp]
  unfold KeepsInputs
  constructor
  · intro hexact entry hentry hevict i hi
    exact (hkey i).1 (hexact key i) entry hentry hevict hi
  · intro hkeeps k i
    by_cases hk : k = key
    · subst hk
      exact (hkey i).2 fun entry hentry hevict hi => hkeeps entry hentry hevict i hi
    · exact hother k i hk

/-! ## The bound -/

structure Bounded (cache : HotResponseCache) : Prop where
  pos : 0 < cache.maxEntries
  le : cache.entries.entries.length ≤ cache.maxEntries

theorem length_erase_le (entries : AList fun _ : HotQueryKey => HotEntry) (key : HotQueryKey) :
    (entries.erase key).entries.length ≤ entries.entries.length :=
  (List.kerase_sublist key entries.entries).length_le

theorem length_erase_lt {entries : AList fun _ : HotQueryKey => HotEntry}
    (h : entries.lookup key = some entry) :
    (entries.erase key).entries.length < entries.entries.length := by
  have hmem : ⟨key, entry⟩ ∈ entries.entries := AList.mem_lookup_iff.1 h
  have hlength : (entries.erase key).entries.length = entries.entries.length - 1 :=
    List.length_eraseP_of_mem hmem (by simp)
  have hpos : 0 < entries.entries.length := List.length_pos_of_mem hmem
  omega

theorem maxEntries_invalidate : (cache.invalidate key).1.maxEntries = cache.maxEntries := by
  unfold HotResponseCache.invalidate
  cases cache.entries.lookup key <;> rfl

theorem length_invalidate_le :
    (cache.invalidate key).1.entries.entries.length ≤ cache.entries.entries.length := by
  unfold HotResponseCache.invalidate
  cases cache.entries.lookup key with
  | none => exact Nat.le_refl _
  | some entry => exact length_erase_le _ _

theorem Bounded.invalidate (h : cache.Bounded) : (cache.invalidate key).1.Bounded where
  pos := by rw [maxEntries_invalidate]; exact h.pos
  le := by
    rw [maxEntries_invalidate]
    exact Nat.le_trans length_invalidate_le h.le

theorem Bounded.invalidateByInput (h : cache.Bounded) :
    (cache.invalidateByInput input).1.Bounded := by
  unfold HotResponseCache.invalidateByInput
  rw [invalidateAll_fst]
  have h' : Bounded { cache with dependents := update cache.dependents input [] } := ⟨h.pos, h.le⟩
  revert h'
  generalize { cache with dependents := update cache.dependents input [] } = cache'
  induction cache.dependents input generalizing cache' with
  | nil => exact id
  | cons key keys ih => exact fun h' => ih _ h'.invalidate

theorem Bounded.length_makeRoom (h : cache.Bounded) :
    (cache.makeRoom ord).entries.entries.length < cache.maxEntries := by
  have hpos := h.pos
  have hle := h.le
  unfold HotResponseCache.makeRoom
  split_ifs with hfull
  · cases hhead : (ord.order cache.entries.entries).head? with
    | none =>
      have hlength := (ord.perm cache.entries.entries).length_eq
      rw [List.head?_eq_none_iff.1 hhead, List.length_nil] at hlength
      omega
    | some oldest =>
      have hmem := (HashOrder.mem_order ord).1 (List.mem_of_head? hhead)
      have hentry : cache.entries.lookup oldest.1 = some oldest.2 := AList.mem_lookup_iff.2 hmem
      have hlt := length_erase_lt hentry
      unfold HotResponseCache.invalidate
      simp only [hentry]
      omega
  · omega

theorem maxEntries_makeRoom : (cache.makeRoom ord).maxEntries = cache.maxEntries := by
  unfold HotResponseCache.makeRoom
  split
  · split
    · exact maxEntries_invalidate
    · rfl
  · rfl

theorem Bounded.insert (h : cache.Bounded) : (cache.insert ord key value inputs).Bounded := by
  have hroom : (cache.makeRoom ord).entries.entries.length < cache.maxEntries := h.length_makeRoom
  have hmax : (cache.makeRoom ord).maxEntries = cache.maxEntries := maxEntries_makeRoom
  have herase := length_erase_le (cache.makeRoom ord).entries key
  constructor
  · show 0 < (cache.makeRoom ord).maxEntries
    rw [hmax]
    exact h.pos
  · show ((cache.makeRoom ord).entries.erase key).entries.length + 1 ≤
      (cache.makeRoom ord).maxEntries
    omega

theorem Bounded.afterCall (h : cache.Bounded) : (cache.afterCall call).Bounded := by
  cases call with
  | insert ord key value inputs =>
    cases value with
    | none => exact h
    | some value => exact h.insert
  | get key =>
    change (cache.get key).2.Bounded
    unfold HotResponseCache.get
    cases cache.entries.lookup key <;> exact ⟨h.pos, h.le⟩
  | invalidate key => exact h.invalidate
  | invalidateByInput input => exact h.invalidateByInput

/-! ## Runs -/

theorem exact_new (maxEntries : Nat) : (new maxEntries).Exact := by
  intro key input
  simp [new]

theorem bounded_new (maxEntries : Nat) : (new maxEntries).Bounded :=
  ⟨Nat.lt_of_lt_of_le Nat.one_pos (Nat.le_max_right _ _), Nat.zero_le _⟩

theorem Indexed.of_exact (h : cache.Exact) (hbounded : cache.Bounded) : cache.Indexed where
  exact := h
  removes input key entry hentry := by
    rw [h.lookup_invalidateByInput, hentry]
    simp [Option.filter]
  bounded := hbounded.le

/-- A call keeps the index exact if and only if it keeps the inputs of what it replaces. -/
theorem Exact.afterCall_iff (h : cache.Exact) : (cache.afterCall call).Exact ↔
    cache.KeepsInputs call := by
  cases call with
  | insert ord key value inputs =>
    cases value with
    | none => exact iff_of_true h trivial
    | some value => exact h.insert_iff
  | get key =>
    refine iff_of_true ?_ trivial
    change (cache.get key).2.Exact
    unfold HotResponseCache.get
    cases cache.entries.lookup key <;> exact h
  | invalidate key => exact iff_of_true h.invalidate trivial
  | invalidateByInput input => exact iff_of_true h.invalidateByInput trivial

/-- **The index is exact and the cache bounded in every state** of a run if and only if no insertion
replaces an entry by one that leaves out one of its inputs. -/
theorem indexed_iff (maxEntries : Nat) (calls : List CacheCall) :
    (∀ before later, calls = before ++ later → (afterCalls maxEntries before).Indexed) ↔
      ∀ before call later, calls = before ++ call :: later →
        (afterCalls maxEntries before).KeepsInputs call := by
  refine forall_states_iff (I := Bounded)
    (Indexed.of_exact (exact_new maxEntries) (bounded_new maxEntries)) (bounded_new maxEntries)
    ?_ ?_
  · intro cache call hbounded _ _
    exact hbounded.afterCall
  · intro cache call hbounded hindexed
    rw [← hindexed.exact.afterCall_iff]
    exact ⟨Indexed.exact, fun h => .of_exact h hbounded.afterCall⟩

/-- A response is computed again from another file. -/
def overwritten : List CacheCall :=
  [.insert .insertion smellsKey (some ⟨fun _ => 0⟩) [1],
    .insert .insertion smellsKey (some ⟨fun _ => 0⟩) [2]]

/-- The key stays among the dependents of the first file. -/
theorem not_indexed_overwritten :
    ¬ ∀ maxEntries calls, (afterCalls maxEntries calls).Indexed := by
  intro h
  have hexact := ((h 2 overwritten).exact smellsKey 1).1 (by decide)
  revert hexact
  decide

end HotResponseCache

end TldrCode.Daemon.HotCache
