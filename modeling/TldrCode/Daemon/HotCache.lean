import Mathlib.Data.List.AList
import Mathlib.Data.List.Dedup
import Mathlib.Data.List.Sort
import Mathlib.Data.String.Basic
import Mathlib.Logic.Function.Basic
import Mathlib.Tactic.IntervalCases
import TldrCode.Run
import TldrCode.Types

/-!
# Hot responses

`daemon/hot_cache.rs` and the handlers of queries beside `process_dirty_files` of `daemon.rs`. The
content of a file is known by its version, and a response by the versions that it was computed from.
No response is served from before a change that has been processed, if no handler inserts one after
the invalidation that was to remove it (`no_stale_hit`).
-/

namespace TldrCode.Daemon.HotCache

open Function (update)

/-! ## The cache -/

structure HotQueryKey where
  queryName : String
  argsHash : UInt64
  language : Language
  deriving DecidableEq, Repr

/-- A response, by the versions of the files that it was computed from. -/
structure Response where
  seen : String → Nat

structure HotEntry where
  value : Response
  inputs : List UInt64

structure HotResponseCache where
  entries : AList fun _ : HotQueryKey => HotEntry
  dependents : UInt64 → List HotQueryKey
  maxEntries : Nat
  hits : Nat
  misses : Nat
  invalidations : Nat

namespace HotResponseCache

def new (maxEntries : Nat) : HotResponseCache where
  entries := ∅
  dependents _ := []
  maxEntries := max maxEntries 1
  hits := 0
  misses := 0
  invalidations := 0

def get (cache : HotResponseCache) (key : HotQueryKey) : Option Response × HotResponseCache :=
  match cache.entries.lookup key with
  | some entry => (some entry.value, { cache with hits := cache.hits + 1 })
  | none => (none, { cache with misses := cache.misses + 1 })

/-- `remove` of a key from the dependents of inputs. -/
def unregister (dependents : UInt64 → List HotQueryKey) (key : HotQueryKey)
    (inputs : List UInt64) : UInt64 → List HotQueryKey :=
  inputs.foldl
    (fun dependents input => update dependents input ((dependents input).filter (· ≠ key)))
    dependents

/-- `invalidate`, and whether there was an entry. -/
def invalidate (cache : HotResponseCache) (key : HotQueryKey) : HotResponseCache × Bool :=
  match cache.entries.lookup key with
  | none => (cache, false)
  | some entry => ({ cache with
      entries := cache.entries.erase key
      dependents := unregister cache.dependents key entry.inputs
      invalidations := cache.invalidations + 1 }, true)

/-- The loop of `invalidate_by_input` over the dependents. -/
def invalidateAll (cache : HotResponseCache) (keys : List HotQueryKey) : HotResponseCache × Nat :=
  keys.foldl (fun (cache, count) key =>
    let (cache, removed) := cache.invalidate key
    (cache, if removed then count + 1 else count)) (cache, 0)

def invalidateByInput (cache : HotResponseCache) (input : UInt64) : HotResponseCache × Nat :=
  invalidateAll { cache with dependents := update cache.dependents input [] }
    (cache.dependents input)

/-- The part of `insert` that makes room. -/
def makeRoom (cache : HotResponseCache) (ord : HashOrder) : HotResponseCache :=
  if cache.maxEntries ≤ cache.entries.entries.length then
    match (ord.order cache.entries.entries).head? with
    | some oldest => (cache.invalidate oldest.1).1
    | none => cache
  else cache

/-- `insert` of a key into the dependents of inputs. -/
def register (dependents : UInt64 → List HotQueryKey) (key : HotQueryKey)
    (inputs : List UInt64) : UInt64 → List HotQueryKey :=
  inputs.foldl
    (fun dependents input => update dependents input (key :: (dependents input).filter (· ≠ key)))
    dependents

/-- `insert`, in the order of the hash table. -/
def insert (cache : HotResponseCache) (ord : HashOrder) (key : HotQueryKey) (value : Response)
    (inputs : List UInt64) : HotResponseCache :=
  let cache := cache.makeRoom ord
  { cache with
    entries := cache.entries.insert key { value, inputs }
    dependents := register cache.dependents key inputs }

end HotResponseCache

/-! ## Handlers and changes -/

inductive Phase where
  | idle
  | missed (key : HotQueryKey)
  | computed (key : HotQueryKey) (value : Response)

inductive Origin where
  | sources
  | snapshot
  deriving DecidableEq, Repr

/-- A run of `process_dirty_files`: the files and the versions that they had when it began, the
inputs that it has not invalidated, and whether it has published and is completed. -/
structure DirtyRun where
  files : List String
  versions : String → Nat
  pending : List UInt64
  published : Bool
  completed : Bool

/-- The versions of the files, on disk and in the snapshot, the cache, the handlers and the runs of
`process_dirty_files`. -/
structure System where
  sources : String → Nat
  snapshot : String → Nat
  cache : HotResponseCache
  handlers : Nat → Phase
  runs : Nat → Option DirtyRun

/-- The steps of files, handlers and runs. A run publishes the files whose deltas are applied. -/
inductive Event where
  | edit (file : String)
  | get (handler : Nat) (key : HotQueryKey)
  | compute (handler : Nat) (origin : Origin)
  | insert (handler : Nat) (inputs : List UInt64)
  | begin (run : Nat) (files : List String)
  | invalidate (run : Nat)
  | publish (run : Nat) (applied : List String)
  | complete (run : Nat)

namespace System

variable (ord : HashOrder) (hashPath : String → UInt64) (project : String)

def initial (maxEntries : Nat) : System where
  sources _ := 0
  snapshot _ := 0
  cache := .new maxEntries
  handlers _ := .idle
  runs _ := none

def next (s : System) : Event → System
  | .edit file => { s with sources := update s.sources file (s.sources file + 1) }
  | .get handler key =>
    match s.handlers handler with
    | .idle =>
      match s.cache.get key with
      | (some _, cache) => { s with cache }
      | (none, cache) => { s with cache, handlers := update s.handlers handler (.missed key) }
    | _ => s
  | .compute handler origin =>
    match s.handlers handler with
    | .missed key =>
      let value : Response := match origin with
        | .sources => ⟨s.sources⟩
        | .snapshot => ⟨s.snapshot⟩
      { s with handlers := update s.handlers handler (.computed key value) }
    | _ => s
  | .insert handler inputs =>
    match s.handlers handler with
    | .computed key value => { s with
        cache := s.cache.insert ord key value inputs
        handlers := update s.handlers handler .idle }
    | _ => s
  | .begin run files =>
    let files := files.dedup.insertionSort (· ≤ ·)
    if (s.runs run).isSome ∨ files = [] then s
    else { s with runs := update s.runs run (some {
        files, versions := s.sources, pending := files.map hashPath ++ [hashPath project]
        published := false
        completed := false }) }
  | .invalidate run =>
    match s.runs run with
    | some ⟨files, versions, input :: pending, published, completed⟩ => { s with
        cache := (s.cache.invalidateByInput input).1
        runs := update s.runs run (some ⟨files, versions, pending, published, completed⟩) }
    | _ => s
  | .publish run applied =>
    match s.runs run with
    | some ⟨files, versions, [], false, completed⟩ => { s with
        snapshot := fun file =>
          if file ∈ files ∧ file ∈ applied then s.sources file else s.snapshot file
        runs := update s.runs run (some ⟨files, versions, [], true, completed⟩) }
    | _ => s
  | .complete run =>
    match s.runs run with
    | some ⟨files, versions, [], true, false⟩ => { s with
        runs := update s.runs run (some ⟨files, versions, [], true, true⟩) }
    | _ => s

def afterEvents (maxEntries : Nat) (events : List Event) : System :=
  events.foldl (next ord hashPath project) (initial maxEntries)

end System

/-- An input that stands for a file: that of the file or that of the project root. -/
def StandsFor (hashPath : String → UInt64) (project file : String) (input : UInt64) : Prop :=
  input = hashPath file ∨ input = hashPath project

/-- Nothing is served that was computed from a file before a change that has been processed, with
the file or the project root among its inputs. -/
def NoStaleHit (hashPath : String → UInt64) (project : String) (s : System) : Prop :=
  ∀ key entry, s.cache.entries.lookup key = some entry →
    ∀ id run, s.runs id = some run → run.completed → ∀ file ∈ run.files,
      (∃ input ∈ entry.inputs, StandsFor hashPath project file input) →
        run.versions file ≤ entry.value.seen file

/-- What a response with inputs that stand for a file was computed from is what the file was when a
run began, or later, or the run has yet to invalidate one of them. -/
def UpToDate (hashPath : String → UInt64) (project : String) (value : Response)
    (inputs : List UInt64) (run : DirtyRun) : Prop :=
  ∀ file ∈ run.files, (∃ input ∈ inputs, StandsFor hashPath project file input) →
    run.versions file ≤ value.seen file ∨
      ∃ input ∈ inputs, StandsFor hashPath project file input ∧ input ∈ run.pending

def InsertsUpToDate (hashPath : String → UInt64) (project : String) (s : System) : Event → Prop
  | .insert handler inputs =>
    match s.handlers handler with
    | .computed _ value =>
      ∀ id run, s.runs id = some run → UpToDate hashPath project value inputs run
    | _ => True
  | _ => True

variable {cache : HotResponseCache} {key k : HotQueryKey} {input i : UInt64} {inputs : List UInt64}
  {entry : HotEntry} {value : Response} {ord : HashOrder} {keys : List HotQueryKey}
  {dependents : UInt64 → List HotQueryKey} {hashPath : String → UInt64} {project : String}
  {s : System}

/-! ## Registration -/

namespace HotResponseCache

/-- Every entry is among the dependents of its inputs. -/
def Registered (cache : HotResponseCache) : Prop :=
  ∀ key entry, cache.entries.lookup key = some entry →
    ∀ input ∈ entry.inputs, key ∈ cache.dependents input

theorem mem_unregister :
    k ∈ unregister dependents key inputs i ↔ k ∈ dependents i ∧ ¬ (k = key ∧ i ∈ inputs) := by
  unfold unregister
  induction inputs generalizing dependents with
  | nil => simp
  | cons first inputs ih =>
    rw [List.foldl_cons, ih, Function.update_apply]
    by_cases hi : i = first
    · subst hi
      simp only [↓reduceIte, List.mem_filter, decide_eq_true_eq, List.mem_cons, true_or]
      tauto
    · simp only [hi, ↓reduceIte, List.mem_cons, false_or]

theorem mem_register :
    k ∈ register dependents key inputs i ↔ k ∈ dependents i ∨ k = key ∧ i ∈ inputs := by
  unfold register
  induction inputs generalizing dependents with
  | nil => simp
  | cons first inputs ih =>
    rw [List.foldl_cons, ih, Function.update_apply]
    by_cases hi : i = first
    · subst hi
      simp only [↓reduceIte, List.mem_cons, List.mem_filter, decide_eq_true_eq, true_or]
      tauto
    · simp only [hi, ↓reduceIte, List.mem_cons, false_or]

theorem lookup_invalidate : (cache.invalidate key).1.entries.lookup k =
    if k = key then none else cache.entries.lookup k := by
  unfold invalidate
  cases hentry : cache.entries.lookup key with
  | none =>
    split_ifs with hk
    · rw [hk, hentry]
    · rfl
  | some entry =>
    split_ifs with hk
    · rw [hk, AList.lookup_erase]
    · exact AList.lookup_erase_ne hk

theorem mem_dependents_invalidate (hk : k ≠ key) :
    k ∈ (cache.invalidate key).1.dependents i ↔ k ∈ cache.dependents i := by
  unfold invalidate
  cases cache.entries.lookup key with
  | none => rfl
  | some entry =>
    dsimp only
    rw [mem_unregister]
    tauto

theorem Registered.invalidate (h : cache.Registered) : (cache.invalidate key).1.Registered := by
  intro k entry hentry input hinput
  rw [lookup_invalidate] at hentry
  split_ifs at hentry with hk
  exact (mem_dependents_invalidate hk).2 (h k entry hentry input hinput)

theorem invalidateAll_fst : (cache.invalidateAll keys).1 =
    keys.foldl (fun cache key => (cache.invalidate key).1) cache := by
  have hloop : ∀ (cache : HotResponseCache) (count : Nat),
      (keys.foldl (fun (state : HotResponseCache × Nat) key =>
        ((state.1.invalidate key).1,
          if (state.1.invalidate key).2 then state.2 + 1 else state.2)) (cache, count)).1 =
      keys.foldl (fun cache key => (cache.invalidate key).1) cache := by
    induction keys with
    | nil => exact fun _ _ => rfl
    | cons key keys ih => exact fun cache count => ih _ _
  exact hloop cache 0

theorem lookup_invalidateAll : (cache.invalidateAll keys).1.entries.lookup k =
    if k ∈ keys then none else cache.entries.lookup k := by
  rw [invalidateAll_fst]
  induction keys generalizing cache with
  | nil => exact (if_neg List.not_mem_nil).symm
  | cons key keys ih =>
    rw [List.foldl_cons, ih, lookup_invalidate]
    by_cases hk : k = key
    · simp [hk]
    · simp [hk]

theorem registered_invalidateAll
    (h : ∀ key entry, cache.entries.lookup key = some entry → key ∉ keys →
      ∀ input ∈ entry.inputs, key ∈ cache.dependents input) :
    (cache.invalidateAll keys).1.Registered := by
  rw [invalidateAll_fst]
  induction keys generalizing cache with
  | nil => exact fun key entry hentry => h key entry hentry List.not_mem_nil
  | cons first keys ih =>
    apply ih
    intro key entry hentry hkey input hinput
    rw [lookup_invalidate] at hentry
    split_ifs at hentry with hfirst
    apply (mem_dependents_invalidate hfirst).2
    exact h key entry hentry (by simp [hfirst, hkey]) input hinput

theorem Registered.of_invalidateByInput (h : cache.Registered)
    (hentry : (cache.invalidateByInput input).1.entries.lookup key = some entry) :
    cache.entries.lookup key = some entry ∧ input ∉ entry.inputs := by
  unfold invalidateByInput at hentry
  rw [lookup_invalidateAll] at hentry
  split_ifs at hentry with hkey
  exact ⟨hentry, fun hinput => hkey (h key entry hentry input hinput)⟩

theorem Registered.invalidateByInput (h : cache.Registered) :
    (cache.invalidateByInput input).1.Registered := by
  apply registered_invalidateAll
  intro key entry hentry hkey other hother
  have hmem := h key entry hentry other hother
  dsimp only
  rw [Function.update_apply, if_neg]
  · exact hmem
  · rintro rfl
    exact hkey hmem

theorem lookup_makeRoom (hentry : (cache.makeRoom ord).entries.lookup key = some entry) :
    cache.entries.lookup key = some entry := by
  unfold makeRoom at hentry
  split at hentry
  · split at hentry
    · rw [lookup_invalidate] at hentry
      split_ifs at hentry
      exact hentry
    · exact hentry
  · exact hentry

theorem Registered.makeRoom (h : cache.Registered) : (cache.makeRoom ord).Registered := by
  unfold HotResponseCache.makeRoom
  split
  · split
    · exact h.invalidate
    · exact h
  · exact h

theorem of_insert (hentry : (cache.insert ord key value inputs).entries.lookup k = some entry) :
    k = key ∧ entry = ⟨value, inputs⟩ ∨ k ≠ key ∧ cache.entries.lookup k = some entry := by
  unfold insert at hentry
  dsimp only at hentry
  by_cases hk : k = key
  · subst hk
    rw [AList.lookup_insert] at hentry
    exact .inl ⟨rfl, (Option.some.inj hentry).symm⟩
  · rw [AList.lookup_insert_ne hk] at hentry
    exact .inr ⟨hk, lookup_makeRoom hentry⟩

theorem Registered.insert (h : cache.Registered) :
    (cache.insert ord key value inputs).Registered := by
  intro k entry hentry input hinput
  unfold HotResponseCache.insert at hentry ⊢
  dsimp only at hentry ⊢
  rw [mem_register]
  by_cases hk : k = key
  · subst hk
    rw [AList.lookup_insert] at hentry
    cases hentry
    exact .inr ⟨rfl, hinput⟩
  · rw [AList.lookup_insert_ne hk] at hentry
    exact .inl (h.makeRoom k entry hentry input hinput)

end HotResponseCache

/-! ## Runs -/

/-- What every step keeps: entries are registered and up to date. -/
structure System.Inv (hashPath : String → UInt64) (project : String) (s : System) : Prop where
  registered : s.cache.Registered
  upToDate : ∀ key entry, s.cache.entries.lookup key = some entry →
    ∀ id run, s.runs id = some run → UpToDate hashPath project entry.value entry.inputs run
  pending : ∀ id run, s.runs id = some run → run.completed → run.pending = []

namespace System

variable {event : Event} {maxEntries : Nat}

theorem inv_initial : (initial maxEntries).Inv hashPath project where
  registered _ _ h := by cases h
  upToDate _ _ h := by cases h
  pending _ _ h := by cases h

theorem Inv.noStaleHit (h : s.Inv hashPath project) : NoStaleHit hashPath project s := by
  intro key entry hentry id run hrun hcompleted file hfile hinput
  cases h.upToDate key entry hentry id run hrun file hfile hinput with
  | inl hseen => exact hseen
  | inr hpending =>
    obtain ⟨input, -, -, hmem⟩ := hpending
    rw [h.pending id run hrun hcompleted] at hmem
    cases hmem

theorem Inv.update_run {id : Nat} {run run' : DirtyRun} {snapshot : String → Nat}
    (h : s.Inv hashPath project) (hrun : s.runs id = some run) (hfiles : run'.files = run.files)
    (hversions : run'.versions = run.versions) (hpending : run'.pending = run.pending)
    (hcompleted : run'.pending = []) :
    ({ s with snapshot, runs := update s.runs id (some run') } : System).Inv hashPath project := by
  refine ⟨h.registered, fun key entry hentry other r hr => ?_, fun other r hr hc => ?_⟩
  all_goals
    dsimp only at hr
    rw [Function.update_apply] at hr
    split_ifs at hr with hid
  · cases hr
    have hold := h.upToDate key entry hentry id run hrun
    unfold UpToDate at hold ⊢
    rwa [hfiles, hversions, hpending]
  · exact h.upToDate key entry hentry other r hr
  · cases hr
    exact hcompleted
  · exact h.pending other r hr hc

/-- **A step keeps the invariant**, if what it inserts is up to date. -/
theorem Inv.next (h : s.Inv hashPath project)
    (hinsert : InsertsUpToDate hashPath project s event) :
    (s.next ord hashPath project event).Inv hashPath project := by
  cases event with
  | edit file => exact ⟨h.registered, h.upToDate, h.pending⟩
  | get handler key =>
    unfold System.next
    dsimp only
    split
    · -- a lookup changes no entry
      unfold HotResponseCache.get
      cases s.cache.entries.lookup key with
      | none | some entry => exact ⟨h.registered, h.upToDate, h.pending⟩
    · exact h
  | compute handler origin =>
    unfold System.next
    dsimp only
    split
    · exact ⟨h.registered, h.upToDate, h.pending⟩
    · exact h
  | insert handler inputs =>
    unfold System.next
    dsimp only
    unfold InsertsUpToDate at hinsert
    dsimp only at hinsert
    split
    · next key value hphase =>
      rw [hphase] at hinsert
      refine ⟨h.registered.insert, fun k entry hentry => ?_, h.pending⟩
      rcases HotResponseCache.of_insert hentry with ⟨-, rfl⟩ | ⟨-, hold⟩
      · exact hinsert
      · exact h.upToDate k entry hold
    · exact h
  | begin id files =>
    unfold System.next
    dsimp only
    split_ifs
    · exact h
    · refine ⟨h.registered, fun key entry hentry other run hrun => ?_,
        fun other run hrun hcompleted => ?_⟩
      all_goals
        dsimp only at hrun
        rw [Function.update_apply] at hrun
        split_ifs at hrun
      · -- a run that begins invalidates all inputs of its files
        cases hrun
        rintro file hfile ⟨input, hinput, hstands⟩
        refine .inr ⟨input, hinput, hstands, ?_⟩
        rw [List.mem_append, List.mem_singleton]
        cases hstands with
        | inl hpath => exact .inl (List.mem_map.2 ⟨file, hfile, hpath.symm⟩)
        | inr hproject => exact .inr hproject
      · exact h.upToDate key entry hentry other run hrun
      · cases hrun
        cases hcompleted
      · exact h.pending other run hrun hcompleted
  | invalidate id =>
    unfold System.next
    dsimp only
    split
    · next files versions input pending published completed hid =>
      refine ⟨h.registered.invalidateByInput, fun key entry hentry other run hrun => ?_,
        fun other run hrun hcompleted => ?_⟩
      · obtain ⟨hold, hinput⟩ := h.registered.of_invalidateByInput hentry
        dsimp only at hrun
        rw [Function.update_apply] at hrun
        split_ifs at hrun
        · cases hrun
          intro file hfile hstands
          refine (h.upToDate key entry hold id _ hid file hfile hstands).imp_right ?_
          rintro ⟨other, hother, hstands, hmem⟩
          refine ⟨other, hother, hstands, (List.mem_cons.1 hmem).resolve_left ?_⟩
          rintro rfl
          exact hinput hother
        · exact h.upToDate key entry hold other run hrun
      · dsimp only at hrun
        rw [Function.update_apply] at hrun
        split_ifs at hrun
        · cases hrun
          cases h.pending id _ hid hcompleted
        · exact h.pending other run hrun hcompleted
    · exact h
  | publish id applied =>
    unfold System.next
    dsimp only
    split
    · next files versions completed hid => exact h.update_run hid rfl rfl rfl rfl
    · exact h
  | complete id =>
    unfold System.next
    dsimp only
    split
    · next files versions hid => exact h.update_run hid rfl rfl rfl rfl
    · exact h

end System

/-- **No stale response is served** in any state of a run, if everything that is inserted is up to
date. -/
theorem no_stale_hit (ord : HashOrder) (hashPath : String → UInt64) (project : String)
    (maxEntries : Nat) (events : List Event)
    (hinsert : ∀ before event later, events = before ++ event :: later →
      InsertsUpToDate hashPath project
        (System.afterEvents ord hashPath project maxEntries before) event) :
    ∀ before later, events = before ++ later →
      NoStaleHit hashPath project (System.afterEvents ord hashPath project maxEntries before) := by
  have hinv : ∀ before later, events = before ++ later →
      (System.afterEvents ord hashPath project maxEntries before).Inv hashPath project := by
    intro before
    induction before using List.reverseRecOn with
    | nil => exact fun _ _ => System.inv_initial
    | append_singleton before event ih =>
      intro later hevents
      have hevents' : events = before ++ event :: later := by rw [hevents]; simp
      unfold System.afterEvents at ih hinsert ⊢
      rw [List.foldl_concat]
      exact (ih _ hevents').next (hinsert before event later hevents')
  exact fun before later hevents => (hinv before later hevents).noStaleHit

/-- A hash that tells a file from the project root. -/
def fileHash (path : String) : UInt64 := if path = "a.py" then 1 else 0

def smellsKey : HotQueryKey := ⟨"smells", 0, .python⟩

/-- A response is inserted before its inputs are invalidated. -/
def insertedEvents : List Event :=
  [.get 0 smellsKey, .compute 0 .sources, .edit "a.py", .begin 0 ["a.py"], .insert 0 [0],
    .invalidate 0, .invalidate 0, .publish 0 ["a.py"], .complete 0]

theorem no_stale_hit_inserted :
    NoStaleHit fileHash "/" (System.afterEvents .insertion fileHash "/" 1024 insertedEvents) := by
  refine no_stale_hit .insertion fileHash "/" 1024 insertedEvents (fun before event later heq => ?_)
    insertedEvents [] (by simp)
  cases event with
  | insert handler inputs =>
    obtain ⟨hget, htake, hlength⟩ := place_of_split heq
    change before.length < 9 at hlength
    rw [htake]
    generalize before.length = n at hget hlength
    interval_cases n <;> cases hget
    intro id run hrun file hfile hstands
    refine .inr ⟨0, List.mem_singleton_self _, .inr (by decide), ?_⟩
    by_cases hid : id = 0
    · subst hid
      cases hrun
      decide
    · have hnone : (System.afterEvents .insertion fileHash "/" 1024
          (insertedEvents.take 4)).runs id = none := by
        exact Function.update_of_ne hid _ _
      rw [hnone] at hrun
      cases hrun
  | edit | get | compute | begin | invalidate | publish | complete => trivial

/-- A response is inserted after its inputs are invalidated. -/
def overtakenEvents : List Event :=
  [.get 0 smellsKey, .compute 0 .sources, .edit "a.py", .begin 0 ["a.py"], .invalidate 0,
    .invalidate 0, .publish 0 ["a.py"], .complete 0, .insert 0 [0]]

/-- A response that was computed before a change is served after the change has been processed. -/
theorem stale_hit_overtaken :
    ¬ ∀ (ord : HashOrder) (hashPath : String → UInt64) (project : String) (maxEntries : Nat)
      (events before later : List Event), events = before ++ later →
      NoStaleHit hashPath project
        (System.afterEvents ord hashPath project maxEntries before) := by
  intro h
  have hrun : (System.afterEvents .insertion fileHash "/" 1024 overtakenEvents).runs 0 = some
      ⟨["a.py"], update (fun _ => 0) "a.py" 1, [], true, true⟩ := rfl
  have hstale := h .insertion fileHash "/" 1024 overtakenEvents overtakenEvents [] (by simp)
    smellsKey ⟨⟨fun _ => 0⟩, [0]⟩ rfl 0 _ hrun rfl "a.py" (List.mem_singleton_self _)
    ⟨0, List.mem_singleton_self _, .inr (by decide)⟩
  exact absurd hstale (by decide)

end TldrCode.Daemon.HotCache
