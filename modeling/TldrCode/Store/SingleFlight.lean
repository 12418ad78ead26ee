import Mathlib.Data.Finset.Card
import Mathlib.Logic.Function.Basic
import TldrCode.Run
import TldrCode.Store.Types

/-!
# Single flights

`artifact_store/function_artifacts.rs`: calls of `materialize`, in any number and any order of their
steps. Calls with one key share a flight, whose handles are counted. Builds of a key never overlap,
and a record that the store keeps is committed once. The last call to check a flight takes it out of
the map, but only if no call still holds the handle that it does not need any more
(`singleFlight_of_attended`).
-/

namespace TldrCode.Store

open Function (update)

/-- Where a call of `materialize` is, with the flight whose handle it holds. -/
inductive FlightPhase where
  | idle
  | missed
  | waiting (flight : Nat)
  | locked (flight : Nat)
  | building (flight : Nat)
  | finished (flight : Nat)
  | released (flight : Nat)
  | checked (flight : Nat)
  | returned
  | unwinding (flight : Nat)
  | unwound
  deriving DecidableEq, Repr

namespace FlightPhase

def handle : FlightPhase → Option Nat
  | waiting f | locked f | building f | finished f | released f | checked f | unwinding f => some f
  | idle | missed | returned | unwound => none

/-- The flight that the call has yet to check. -/
def unchecked : FlightPhase → Option Nat
  | waiting f | locked f | building f | finished f | released f => some f
  | idle | missed | checked _ | returned | unwinding _ | unwound => none

def guard : FlightPhase → Option Nat
  | locked f | building f | finished f => some f
  | idle | missed | waiting _ | released _ | checked _ | returned | unwinding _ | unwound => none

def Panicked : FlightPhase → Prop
  | unwinding _ | unwound => True
  | _ => False

end FlightPhase

inductive BuildOutcome where
  | committed
  | failed
  | panicked
  deriving DecidableEq, Repr

/-- The steps of calls, and that a record is lost. -/
inductive FlightEvent (ι : Type) where
  | lookup (call : ι) (failed : Bool)
  | fetch (call : ι)
  | acquire (call : ι)
  | lookupAgain (call : ι) (failed : Bool)
  | build (call : ι) (outcome : BuildOutcome)
  | release (call : ι)
  | check (call : ι)
  | drop (call : ι)
  | evict (key : ArtifactKey)

/-- The coordinator and its calls: the keys that the store has records of, the map of flights, the
strong counts and the locks of the flights, the next new flight, and where the calls are. -/
structure Coordinator (ι : Type) where
  records : ArtifactKey → Bool
  flights : ArtifactKey → Option Nat
  strong : Nat → Nat
  locked : Nat → Bool
  next : Nat
  calls : ι → FlightPhase

namespace Coordinator

variable {ι : Type} [DecidableEq ι]

def initial (records : ArtifactKey → Bool) : Coordinator ι where
  records
  flights _ := none
  strong _ := 0
  locked _ := false
  next := 0
  calls _ := .idle

def move (s : Coordinator ι) (call : ι) (phase : FlightPhase) : Coordinator ι :=
  { s with calls := update s.calls call phase }

/-- The handle of a flight that is fetched from the map, or put into it. -/
def fetch (s : Coordinator ι) (key : ArtifactKey) (call : ι) : Coordinator ι :=
  match s.flights key with
  | some f => { s with strong := update s.strong f (s.strong f + 1) }.move call (.waiting f)
  | none =>
    { s with
      flights := update s.flights key (some s.next)
      strong := update s.strong s.next 2
      locked := update s.locked s.next false
      next := s.next + 1 }.move call (.waiting s.next)

def unlock (s : Coordinator ι) (f : Nat) : Coordinator ι :=
  { s with locked := update s.locked f false }

def dropHandle (s : Coordinator ι) (f : Nat) : Coordinator ι :=
  { s with strong := update s.strong f (s.strong f - 1) }

def check (s : Coordinator ι) (key : ArtifactKey) (f : Nat) : Coordinator ι :=
  if s.flights key = some f ∧ s.strong f = 2 then
    { s with flights := update s.flights key none }.dropHandle f
  else s

/-- `materialize`, step by step. -/
def step (key : ι → ArtifactKey) (s : Coordinator ι) : FlightEvent ι → Option (Coordinator ι)
  | .lookup call failed =>
    match s.calls call with
    | .idle =>
      if (key call).kind ∈ [.cfg, .dfg, .pdg] ∧ failed = false ∧ s.records (key call) = false then
        some (s.move call .missed)
      else some (s.move call .returned)
    | _ => none
  | .fetch call =>
    match s.calls call with
    | .missed => some (s.fetch (key call) call)
    | _ => none
  | .acquire call =>
    match s.calls call with
    | .waiting f =>
      if s.locked f then none
      else some ({ s with locked := update s.locked f true }.move call (.locked f))
    | _ => none
  | .lookupAgain call failed =>
    match s.calls call with
    | .locked f =>
      if failed = false ∧ s.records (key call) = false then some (s.move call (.building f))
      else some (s.move call (.finished f))
    | _ => none
  | .build call outcome =>
    match s.calls call with
    | .building f =>
      match outcome with
      | .committed =>
        some ({ s with records := update s.records (key call) true }.move call (.finished f))
      | .failed => some (s.move call (.finished f))
      | .panicked => some ((s.unlock f).move call (.unwinding f))
    | _ => none
  | .release call =>
    match s.calls call with
    | .finished f => some ((s.unlock f).move call (.released f))
    | _ => none
  | .check call =>
    match s.calls call with
    | .released f => some ((s.check (key call) f).move call (.checked f))
    | _ => none
  | .drop call =>
    match s.calls call with
    | .checked f => some ((s.dropHandle f).move call .returned)
    | .unwinding f => some ((s.dropHandle f).move call .unwound)
    | _ => none
  | .evict key => some { s with records := update s.records key false }

def Steps (key : ι → ArtifactKey) (s : Coordinator ι) (event : FlightEvent ι)
    (s' : Coordinator ι) : Prop := s.step key event = some s'

/-! ## What is promised -/

omit [DecidableEq ι] in
def Exclusive (key : ι → ArtifactKey) (s : Coordinator ι) : Prop :=
  ∀ call call' f f', s.calls call = .building f → s.calls call' = .building f' →
    key call = key call' → call = call'

/-- Between two commits of a key its record is lost. -/
def CommitsOnce (key : ι → ArtifactKey) (events : List (FlightEvent ι)) : Prop :=
  ∀ before middle after call call', events =
      before ++ .build call .committed :: (middle ++ .build call' .committed :: after) →
    key call = key call' → .evict (key call) ∈ middle

def AllReturned (s : Coordinator ι) : Prop :=
  ∀ call, s.calls call = .idle ∨ s.calls call = .returned

/-- The map of flights is empty once all calls have returned. -/
def LeakFree (s : Coordinator ι) : Prop := s.AllReturned → ∀ key, s.flights key = none

/-- A call that checks its flight is the only one that holds the flight, or another one that holds
it has yet to check it. -/
def Attended (s : Coordinator ι) : FlightEvent ι → Prop
  | .check call => ∀ f, s.calls call = .released f →
    (∃ other, other ≠ call ∧ (s.calls other).handle = some f) →
    ∃ other, other ≠ call ∧ (s.calls other).unchecked = some f
  | _ => True

variable {key : ι → ArtifactKey} {s s' : Coordinator ι} {event : FlightEvent ι} {call : ι}
  {phase : FlightPhase} {f : Nat} {events : List (FlightEvent ι)} {k : ArtifactKey}

inductive Stepped (key : ι → ArtifactKey) (s : Coordinator ι) :
    FlightEvent ι → Coordinator ι → Prop
  | missed {call : ι} {failed : Bool} (h : s.calls call = .idle) :
    Stepped key s (.lookup call failed) (s.move call .missed)
  | found {call : ι} {failed : Bool} (h : s.calls call = .idle) :
    Stepped key s (.lookup call failed) (s.move call .returned)
  | fetch {call : ι} (h : s.calls call = .missed) :
    Stepped key s (.fetch call) (s.fetch (key call) call)
  | acquire {call : ι} {f : Nat} (h : s.calls call = .waiting f) (hfree : s.locked f = false) :
    Stepped key s (.acquire call)
      ({ s with locked := update s.locked f true }.move call (.locked f))
  | missedAgain {call : ι} {failed : Bool} {f : Nat} (h : s.calls call = .locked f)
    (habsent : s.records (key call) = false) :
    Stepped key s (.lookupAgain call failed) (s.move call (.building f))
  | foundAgain {call : ι} {failed : Bool} {f : Nat} (h : s.calls call = .locked f) :
    Stepped key s (.lookupAgain call failed) (s.move call (.finished f))
  | committed {call : ι} {f : Nat} (h : s.calls call = .building f) :
    Stepped key s (.build call .committed)
      ({ s with records := update s.records (key call) true }.move call (.finished f))
  | failed {call : ι} {f : Nat} (h : s.calls call = .building f) :
    Stepped key s (.build call .failed) (s.move call (.finished f))
  | panicked {call : ι} {f : Nat} (h : s.calls call = .building f) :
    Stepped key s (.build call .panicked) ((s.unlock f).move call (.unwinding f))
  | release {call : ι} {f : Nat} (h : s.calls call = .finished f) :
    Stepped key s (.release call) ((s.unlock f).move call (.released f))
  | check {call : ι} {f : Nat} (h : s.calls call = .released f) :
    Stepped key s (.check call) ((s.check (key call) f).move call (.checked f))
  | drop {call : ι} {f : Nat} (h : s.calls call = .checked f) :
    Stepped key s (.drop call) ((s.dropHandle f).move call .returned)
  | unwound {call : ι} {f : Nat} (h : s.calls call = .unwinding f) :
    Stepped key s (.drop call) ((s.dropHandle f).move call .unwound)
  | evict (key' : ArtifactKey) :
    Stepped key s (.evict key') { s with records := update s.records key' false }

theorem Steps.stepped (h : s.Steps key event s') : Stepped key s event s' := by
  unfold Steps step at h
  cases event with
  | lookup call failed =>
    dsimp only at h
    split at h
    · split at h
      · cases h
        exact .missed ‹_›
      · cases h
        exact .found ‹_›
    · cases h
  | fetch call =>
    dsimp only at h
    split at h
    · cases h
      exact .fetch ‹_›
    · cases h
  | acquire call =>
    dsimp only at h
    split at h
    · split at h
      · cases h
      · rename_i f hcall hlocked
        cases h
        exact .acquire hcall (Bool.eq_false_of_not_eq_true hlocked)
    · cases h
  | lookupAgain call failed =>
    dsimp only at h
    split at h
    · split at h
      · cases h
        exact .missedAgain ‹_› (And.right ‹_›)
      · cases h
        exact .foundAgain ‹_›
    · cases h
  | build call outcome =>
    dsimp only at h
    split at h
    · cases outcome with
      | committed =>
        cases h
        exact .committed ‹_›
      | failed =>
        cases h
        exact .failed ‹_›
      | panicked =>
        cases h
        exact .panicked ‹_›
    · cases h
  | release call =>
    dsimp only at h
    split at h
    · cases h
      exact .release ‹_›
    · cases h
  | check call =>
    dsimp only at h
    split at h
    · cases h
      exact .check ‹_›
    · cases h
  | drop call =>
    dsimp only at h
    split at h
    · cases h
      exact .drop ‹_›
    · cases h
      exact .unwound ‹_›
    · cases h
  | evict key' =>
    cases h
    exact .evict key'

theorem calls_move (s : Coordinator ι) (call : ι) (phase : FlightPhase) (other : ι) :
    (s.move call phase).calls other = if other = call then phase else s.calls other :=
  Function.update_apply ..

/-! ## Handles -/

/-- The handles of flights: a flight in the map is counted with its holders, and a call that has yet
to check its flight finds it in the map. -/
structure Handles (key : ι → ArtifactKey) (s : Coordinator ι) : Prop where
  flights_lt : ∀ k f, s.flights k = some f → f < s.next
  handle_lt : ∀ call f, (s.calls call).handle = some f → f < s.next
  injective : ∀ k k' f, s.flights k = some f → s.flights k' = some f → k = k'
  strong : ∀ k f, s.flights k = some f → ∃ holders : Finset ι,
    (∀ call, call ∈ holders ↔ (s.calls call).handle = some f) ∧ s.strong f = holders.card + 1
  attached : ∀ call f, (s.calls call).unchecked = some f → s.flights (key call) = some f

theorem FlightPhase.handle_of_unchecked (h : phase.unchecked = some f) :
    phase.handle = some f := by
  cases phase <;> simp_all [FlightPhase.unchecked, FlightPhase.handle]

theorem FlightPhase.unchecked_of_guard (h : phase.guard = some f) :
    phase.unchecked = some f := by
  cases phase <;> simp_all [FlightPhase.unchecked, FlightPhase.guard]

omit [DecidableEq ι] in
theorem Handles.congr (h : s.Handles key) (hflights : s'.flights = s.flights)
    (hstrong : s'.strong = s.strong) (hnext : s'.next = s.next)
    (hhandle : ∀ call, (s'.calls call).handle = (s.calls call).handle)
    (hunchecked : ∀ call f, (s'.calls call).unchecked = some f →
      (s.calls call).unchecked = some f) : s'.Handles key where
  flights_lt k f hk := hnext ▸ h.flights_lt k f (hflights ▸ hk)
  handle_lt call f hf := hnext ▸ h.handle_lt call f (hhandle call ▸ hf)
  injective k k' f hk hk' := h.injective k k' f (hflights ▸ hk) (hflights ▸ hk')
  strong k f hk := by
    obtain ⟨holders, hholders, hcard⟩ := h.strong k f (hflights ▸ hk)
    exact ⟨holders, fun call => hhandle call ▸ hholders call, hstrong ▸ hcard⟩
  attached call f hf := hflights ▸ h.attached call f (hunchecked call f hf)

theorem Handles.move (h : s.Handles key) (hhandle : phase.handle = (s.calls call).handle)
    (hunchecked : ∀ f, phase.unchecked = some f → (s.calls call).unchecked = some f) :
    (s.move call phase).Handles key := by
  refine h.congr rfl rfl rfl (fun other => ?_) (fun other f hf => ?_)
  · rw [calls_move]
    split_ifs with heq
    · rw [heq, hhandle]
    · rfl
  · rw [calls_move] at hf
    split_ifs at hf with heq
    · exact heq ▸ hunchecked f hf
    · exact hf

omit [DecidableEq ι] in
theorem handle_waiting_iff [DecidableEq ι] {g : Nat} {other : ι}
    (hcall : (s.calls call).handle = none) :
    (if other = call then FlightPhase.waiting f else s.calls other).handle = some g ↔
      other = call ∧ f = g ∨ (s.calls other).handle = some g := by
  split_ifs with heq
  · subst heq
    rw [hcall]
    simp [FlightPhase.handle]
  · simp [heq]

section

variable (h : s.Handles key) (hcall : (s.calls call).handle = none)
include h hcall

theorem Handles.fetch_some (hflight : s.flights (key call) = some f) :
    ({ s with strong := update s.strong f (s.strong f + 1) }.move call
      (.waiting f)).Handles key := by
  constructor
  case flights_lt => exact h.flights_lt
  case handle_lt =>
    intro other g hg
    rw [calls_move] at hg
    rcases (handle_waiting_iff hcall).1 hg with ⟨-, rfl⟩ | hg
    · exact h.flights_lt _ f hflight
    · exact h.handle_lt other g hg
  case injective => exact h.injective
  case strong =>
    intro k g hk
    obtain ⟨holders, hholders, hcard⟩ := h.strong k g hk
    have hnew : call ∉ holders := by
      rw [hholders, hcall]
      exact nofun
    by_cases heq : g = f
    · subst heq
      refine ⟨insert call holders, fun other => ?_, ?_⟩
      · rw [calls_move, handle_waiting_iff hcall, Finset.mem_insert, hholders]
        simp
      · rw [Finset.card_insert_of_notMem hnew]
        exact (Function.update_self ..).trans (congrArg (· + 1) hcard)
    · refine ⟨holders, fun other => ?_, (Function.update_of_ne heq ..).trans hcard⟩
      rw [calls_move, handle_waiting_iff hcall, hholders]
      exact (or_iff_right fun hf => heq hf.2.symm).symm
  case attached =>
    intro other g hg
    rw [calls_move] at hg
    split_ifs at hg with heq
    · cases hg
      exact heq ▸ hflight
    · exact h.attached other g hg

theorem Handles.fetch_none (hflight : s.flights (key call) = none) :
    ({ s with
      flights := update s.flights (key call) (some s.next)
      strong := update s.strong s.next 2
      locked := update s.locked s.next false
      next := s.next + 1 }.move call (.waiting s.next)).Handles key := by
  have hflights : ∀ k f, update s.flights (key call) (some s.next) k = some f ↔
      k = key call ∧ f = s.next ∨ s.flights k = some f := by
    intro k f
    rw [Function.update_apply]
    split_ifs with heq
    · simp [heq, hflight, eq_comm]
    · simp [heq]
  constructor
  case flights_lt =>
    intro k f hk
    rcases (hflights k f).1 hk with ⟨-, rfl⟩ | hk
    · exact Nat.lt_succ_self _
    · exact Nat.lt_succ_of_lt (h.flights_lt k f hk)
  case handle_lt =>
    intro other g hg
    rw [calls_move] at hg
    rcases (handle_waiting_iff hcall).1 hg with ⟨-, rfl⟩ | hg
    · exact Nat.lt_succ_self _
    · exact Nat.lt_succ_of_lt (h.handle_lt other g hg)
  case injective =>
    intro k k' f hk hk'
    rcases (hflights k f).1 hk with ⟨rfl, rfl⟩ | hk
    · rcases (hflights k' _).1 hk' with ⟨rfl, -⟩ | hk'
      · rfl
      · exact absurd (h.flights_lt k' _ hk') (Nat.lt_irrefl _)
    · rcases (hflights k' f).1 hk' with ⟨rfl, rfl⟩ | hk'
      · exact absurd (h.flights_lt k _ hk) (Nat.lt_irrefl _)
      · exact h.injective k k' f hk hk'
  case strong =>
    intro k f hk
    rcases (hflights k f).1 hk with ⟨rfl, rfl⟩ | hk
    · refine ⟨{call}, fun other => ?_, Function.update_self ..⟩
      rw [calls_move, handle_waiting_iff hcall, Finset.mem_singleton]
      refine ⟨fun heq => .inl ⟨heq, rfl⟩, fun hother => ?_⟩
      exact (hother.resolve_right fun hf => absurd (h.handle_lt other _ hf) (Nat.lt_irrefl _)).1
    · have hne : f ≠ s.next := Nat.ne_of_lt (h.flights_lt k f hk)
      obtain ⟨holders, hholders, hcard⟩ := h.strong k f hk
      refine ⟨holders, fun other => ?_, (Function.update_of_ne hne ..).trans hcard⟩
      rw [calls_move, handle_waiting_iff hcall, hholders]
      exact (or_iff_right fun hf => hne hf.2.symm).symm
  case attached =>
    intro other g hg
    rw [calls_move] at hg
    refine (hflights _ g).2 ?_
    split_ifs at hg with heq
    · cases hg
      exact .inl ⟨heq ▸ rfl, rfl⟩
    · exact .inr (h.attached other g hg)

theorem Handles.fetch : (s.fetch (key call) call).Handles key := by
  unfold Coordinator.fetch
  split
  · exact h.fetch_some hcall ‹_›
  · exact h.fetch_none hcall ‹_›

end

theorem Handles.dropHandle (h : s.Handles key) (hcall : (s.calls call).handle = some f)
    (hphase : phase.handle = none) : ((s.dropHandle f).move call phase).Handles key := by
  have hhandle : ∀ g other, ((((s.dropHandle f).move call phase).calls other).handle = some g) ↔
      other ≠ call ∧ (s.calls other).handle = some g := by
    intro g other
    rw [calls_move]
    split_ifs with heq
    · simp [hphase, heq]
    · exact (and_iff_right heq).symm
  constructor
  case flights_lt => exact h.flights_lt
  case handle_lt =>
    exact fun other g hg => h.handle_lt other g ((hhandle g other).1 hg).2
  case injective => exact h.injective
  case strong =>
    intro k g hk
    obtain ⟨holders, hholders, hcard⟩ := h.strong k g hk
    by_cases heq : g = f
    · subst heq
      refine ⟨holders.erase call, fun other => ?_, ?_⟩
      · rw [hhandle, Finset.mem_erase, hholders]
      · rw [Finset.card_erase_of_mem ((hholders call).2 hcall)]
        have hpos : 0 < holders.card := Finset.card_pos.2 ⟨call, (hholders call).2 hcall⟩
        refine (Function.update_self ..).trans ?_
        omega
    · refine ⟨holders, fun other => ?_, (Function.update_of_ne heq ..).trans hcard⟩
      rw [hhandle, hholders]
      refine ⟨fun hg => ⟨?_, hg⟩, And.right⟩
      rintro rfl
      exact heq (Option.some.inj (hg.symm.trans hcall))
  case attached =>
    intro other g hg
    have hne := ((hhandle g other).1 (FlightPhase.handle_of_unchecked hg)).1
    rw [calls_move, if_neg hne] at hg
    exact h.attached other g hg

/-- **A call checks its flight**: it takes the flight out of the map only if no other call holds
it. -/
theorem Handles.check (h : s.Handles key) (hcall : s.calls call = .released f) :
    ((s.check (key call) f).move call (.checked f)).Handles key := by
  have hhandle : (s.calls call).handle = some f := by
    rw [hcall]
    rfl
  unfold Coordinator.check
  split_ifs with hlast
  · obtain ⟨hflight, htwo⟩ := hlast
    have hflights : ∀ k g, update s.flights (key call) none k = some g ↔
        k ≠ key call ∧ s.flights k = some g := by
      intro k g
      rw [Function.update_apply]
      split_ifs with heq <;> simp [heq]
    have hhandles : ∀ other, ((s.move call (.checked f)).calls other).handle =
        (s.calls other).handle := by
      intro other
      rw [calls_move]
      split_ifs with heq
      · rw [heq, hhandle]
        rfl
      · rfl
    have honly : ∀ other, (s.calls other).handle = some f → other = call := by
      obtain ⟨holders, hholders, hcard⟩ := h.strong _ f hflight
      intro other hother
      exact Finset.card_le_one.1 (by omega) other ((hholders other).2 hother) call
        ((hholders call).2 hhandle)
    constructor
    case flights_lt => exact fun k g hk => h.flights_lt k g ((hflights k g).1 hk).2
    case handle_lt => exact fun other g hg => h.handle_lt other g (hhandles other ▸ hg)
    case injective =>
      exact fun k k' g hk hk' =>
        h.injective k k' g ((hflights k g).1 hk).2 ((hflights k' g).1 hk').2
    case strong =>
      intro k g hk
      obtain ⟨hne, hkept⟩ := (hflights k g).1 hk
      obtain ⟨holders, hholders, hcard⟩ := h.strong k g hkept
      have hother : g ≠ f := by
        rintro rfl
        exact hne (h.injective k _ g hkept hflight)
      exact ⟨holders, fun other => (hhandles other).symm ▸ hholders other,
        (Function.update_of_ne hother ..).trans hcard⟩
    case attached =>
      intro other g hg
      rw [calls_move] at hg
      split_ifs at hg with heq
      · cases hg
      · have hattached := h.attached other g hg
        refine (hflights _ g).2 ⟨fun hkey => heq (honly other ?_), hattached⟩
        rw [hkey, hflight] at hattached
        cases hattached
        exact FlightPhase.handle_of_unchecked hg
  · exact h.move hhandle.symm nofun

/-! ## Guards -/

/-- The guard of a flight is held by one call at most. -/
structure Guards (s : Coordinator ι) : Prop where
  locked : ∀ call f, (s.calls call).guard = some f → s.locked f = true
  exclusive : ∀ call call' f, (s.calls call).guard = some f → (s.calls call').guard = some f →
    call = call'

omit [DecidableEq ι] in
theorem Guards.congr (h : s.Guards)
    (hlocked : ∀ call f, (s.calls call).guard = some f → s'.locked f = s.locked f)
    (hguard : ∀ call f, (s'.calls call).guard = some f → (s.calls call).guard = some f) :
    s'.Guards where
  locked call f hf := (hlocked call f (hguard call f hf)).trans (h.locked call f (hguard call f hf))
  exclusive call call' f hf hf' := h.exclusive call call' f (hguard call f hf) (hguard call' f hf')

theorem guard_move (hguard : ∀ f, phase.guard = some f → (s.calls call).guard = some f)
    (other : ι) (f : Nat) (hf : ((s.move call phase).calls other).guard = some f) :
    (s.calls other).guard = some f := by
  rw [calls_move] at hf
  split_ifs at hf with heq
  · exact heq ▸ hguard f hf
  · exact hf

theorem Guards.acquire (h : s.Guards) (hfree : s.locked f = false) :
    ({ s with locked := update s.locked f true }.move call (.locked f)).Guards := by
  have hguard : ∀ other g, (({ s with locked := update s.locked f true }.move call
      (.locked f)).calls other).guard = some g →
      other = call ∧ g = f ∨ g ≠ f ∧ (s.calls other).guard = some g := by
    intro other g hg
    rw [calls_move] at hg
    split_ifs at hg with heq
    · cases hg
      exact .inl ⟨heq, rfl⟩
    · refine .inr ⟨?_, hg⟩
      rintro rfl
      exact absurd ((h.locked other g hg).symm.trans hfree) nofun
  constructor
  · intro other g hg
    rcases hguard other g hg with ⟨-, rfl⟩ | ⟨hne, hg⟩
    · exact Function.update_self ..
    · exact (Function.update_of_ne hne ..).trans (h.locked other g hg)
  · intro other other' g hg hg'
    rcases hguard other g hg with ⟨rfl, rfl⟩ | ⟨hne, hg⟩
    · rcases hguard other' _ hg' with ⟨rfl, -⟩ | ⟨hne, -⟩
      · rfl
      · exact absurd rfl hne
    · rcases hguard other' g hg' with ⟨-, rfl⟩ | ⟨-, hg'⟩
      · exact absurd rfl hne
      · exact h.exclusive other other' g hg hg'

theorem Guards.unlock (h : s.Guards) (hcall : (s.calls call).guard = some f)
    (hphase : phase.guard = none) : ((s.unlock f).move call phase).Guards := by
  have hguard : ∀ other g, (((s.unlock f).move call phase).calls other).guard = some g →
      other ≠ call ∧ (s.calls other).guard = some g := by
    intro other g hg
    rw [calls_move] at hg
    split_ifs at hg with heq
    · rw [hphase] at hg
      cases hg
    · exact ⟨heq, hg⟩
  constructor
  · intro other g hg
    obtain ⟨hne, hkept⟩ := hguard other g hg
    have hother : g ≠ f := by
      rintro rfl
      exact hne (h.exclusive other call g hkept hcall)
    exact (Function.update_of_ne hother ..).trans (h.locked other g hkept)
  · exact fun other other' g hg hg' =>
      h.exclusive other other' g (hguard other g hg).2 (hguard other' g hg').2

/-! ## Runs -/

def Absent (key : ι → ArtifactKey) (s : Coordinator ι) : Prop :=
  ∀ call f, s.calls call = .building f → s.records (key call) = false

structure Inv (key : ι → ArtifactKey) (s : Coordinator ι) : Prop where
  handles : s.Handles key
  guards : s.Guards
  absent : s.Absent key

theorem Absent.move (h : s.Absent key) (hrecords : s'.records = s.records)
    (hcalls : s'.calls = s.calls)
    (hphase : ∀ f, phase = .building f → s.records (key call) = false) :
    (s'.move call phase).Absent key := by
  intro other f hf
  rw [calls_move, hcalls] at hf
  show s'.records (key other) = false
  rw [hrecords]
  split_ifs at hf with heq
  · exact heq ▸ hphase f hf
  · exact h other f hf

omit [DecidableEq ι] in
theorem Inv.eq_of_guard (h : s.Inv key) {call call' : ι} {f f' : Nat}
    (hf : (s.calls call).guard = some f) (hf' : (s.calls call').guard = some f')
    (hkey : key call = key call') : call = call' := by
  have hflight := h.handles.attached call f (FlightPhase.unchecked_of_guard hf)
  have hflight' := h.handles.attached call' f' (FlightPhase.unchecked_of_guard hf')
  rw [← hkey, hflight] at hflight'
  cases hflight'
  exact h.guards.exclusive call call' f hf hf'

theorem Inv.move (h : s.Inv key) (hhandle : phase.handle = (s.calls call).handle)
    (hunchecked : ∀ f, phase.unchecked = some f → (s.calls call).unchecked = some f)
    (hguard : ∀ f, phase.guard = some f → (s.calls call).guard = some f)
    (hphase : ∀ f, phase = .building f → s.records (key call) = false) :
    (s.move call phase).Inv key :=
  ⟨h.handles.move hhandle hunchecked, h.guards.congr (fun _ _ _ => rfl) (guard_move hguard),
    h.absent.move rfl rfl hphase⟩

theorem Inv.unlock (h : s.Inv key) (hcall : (s.calls call).guard = some f)
    (hhandle : phase.handle = some f) (hguard : phase.guard = none) :
    ((s.unlock f).move call phase).Inv key := by
  have hunchecked : (s.calls call).unchecked = some f := FlightPhase.unchecked_of_guard hcall
  refine ⟨Handles.move (h.handles.congr rfl rfl rfl (fun _ => rfl) (fun _ _ hg => hg)) ?_ ?_,
    h.guards.unlock hcall hguard, h.absent.move rfl rfl ?_⟩
  · exact hhandle.trans (FlightPhase.handle_of_unchecked hunchecked).symm
  · intro g hg
    have heq := (FlightPhase.handle_of_unchecked hg).symm.trans hhandle
    exact heq ▸ hunchecked
  · rintro g rfl
    cases hguard

theorem Inv.dropHandle (h : s.Inv key) (hcall : (s.calls call).handle = some f)
    (hphase : phase.handle = none) : ((s.dropHandle f).move call phase).Inv key := by
  refine ⟨h.handles.dropHandle hcall hphase, h.guards.congr (fun _ _ _ => rfl) (guard_move ?_),
    h.absent.move rfl rfl ?_⟩
  · intro g hg
    have hnone := FlightPhase.handle_of_unchecked (FlightPhase.unchecked_of_guard hg)
    rw [hphase] at hnone
    cases hnone
  · rintro g rfl
    cases hphase

/-- **Every step** keeps the invariant. -/
theorem Inv.step (h : s.Inv key) (hstep : s.Steps key event s') : s'.Inv key := by
  cases hstep.stepped with
  | missed hcall | found hcall => exact h.move (hcall ▸ rfl) nofun nofun nofun
  | @fetch call hcall =>
    have hhandle : (s.calls call).handle = none := hcall ▸ rfl
    refine ⟨h.handles.fetch hhandle, h.guards.congr ?_ ?_, ?_⟩
    · intro other g hg
      have hlt := h.handles.handle_lt other g
        (FlightPhase.handle_of_unchecked (FlightPhase.unchecked_of_guard hg))
      unfold Coordinator.fetch
      split
      · rfl
      · exact Function.update_of_ne (Nat.ne_of_lt hlt) ..
    · unfold Coordinator.fetch
      split <;> exact guard_move nofun
    · unfold Coordinator.fetch
      split <;> exact h.absent.move rfl rfl nofun
  | acquire hcall hfree =>
    refine ⟨Handles.move (h.handles.congr rfl rfl rfl (fun _ => rfl) (fun _ _ hg => hg)) ?_ ?_,
      h.guards.acquire hfree, h.absent.move rfl rfl nofun⟩
    · exact (congrArg FlightPhase.handle hcall).symm
    · exact fun g hg => (congrArg FlightPhase.unchecked hcall).trans hg
  | missedAgain hcall habsent =>
    exact h.move (hcall ▸ rfl) (fun g hg => hcall ▸ hg) (fun g hg => hcall ▸ hg) fun _ _ => habsent
  | foundAgain hcall | failed hcall =>
    exact h.move (hcall ▸ rfl) (fun g hg => hcall ▸ hg) (fun g hg => hcall ▸ hg) nofun
  | @committed call f hcall =>
    refine ⟨Handles.move (h.handles.congr rfl rfl rfl (fun _ => rfl) (fun _ _ hg => hg))
        (congrArg FlightPhase.handle hcall).symm fun g hg =>
          (congrArg FlightPhase.unchecked hcall).trans hg,
      h.guards.congr (fun _ _ _ => rfl) (guard_move fun g hg => hcall ▸ hg), ?_⟩
    -- another call that builds has another key
    intro other g hg
    rw [calls_move] at hg
    split_ifs at hg with heq
    have hkey : key other ≠ key call := fun hkey =>
      heq (h.eq_of_guard (congrArg FlightPhase.guard hg) (congrArg FlightPhase.guard hcall) hkey)
    exact (Function.update_of_ne hkey ..).trans (h.absent other g hg)
  | panicked hcall => exact h.unlock (hcall ▸ rfl) rfl rfl
  | release hcall => exact h.unlock (hcall ▸ rfl) rfl rfl
  | @check call f hcall =>
    refine ⟨h.handles.check hcall, h.guards.congr ?_ ?_, ?_⟩
    · intro other g hg
      unfold Coordinator.check
      split <;> rfl
    · unfold Coordinator.check
      split <;> exact guard_move nofun
    · unfold Coordinator.check
      split <;> exact h.absent.move rfl rfl nofun
  | drop hcall => exact h.dropHandle (hcall ▸ rfl) rfl
  | unwound hcall => exact h.dropHandle (hcall ▸ rfl) rfl
  | evict key' =>
    refine ⟨h.handles.congr rfl rfl rfl (fun _ => rfl) (fun _ _ hg => hg),
      h.guards.congr (fun _ _ _ => rfl) (fun _ _ hg => hg), ?_⟩
    intro other g hg
    show update s.records key' false (key other) = false
    rw [Function.update_apply]
    split_ifs
    · rfl
    · exact h.absent other g hg

omit [DecidableEq ι] in
theorem inv_initial (key : ι → ArtifactKey) (records : ArtifactKey → Bool) :
    (initial records).Inv key where
  handles := ⟨nofun, nofun, nofun, nofun, nofun⟩
  guards := ⟨nofun, nofun⟩
  absent := nofun

omit [DecidableEq ι] in
/-- **Builds of a key** do not overlap. -/
theorem Inv.exclusive (h : s.Inv key) : s.Exclusive key := by
  intro call call' f f' hf hf' hkey
  exact h.eq_of_guard (congrArg FlightPhase.guard hf) (congrArg FlightPhase.guard hf') hkey

/-! ## Commits -/

/-- A record that is in the store stays there. -/
def Keeps (k : ArtifactKey) (s s' : Coordinator ι) : Prop :=
  s.records k = true → s'.records k = true

omit [DecidableEq ι] in
instance (k : ArtifactKey) : Std.Refl (Keeps (ι := ι) k) := ⟨fun _ h => h⟩

omit [DecidableEq ι] in
instance (k : ArtifactKey) : IsTrans (Coordinator ι) (Keeps k) := ⟨fun _ _ _ h h' => h' ∘ h⟩

theorem Keeps.of_steps (hstep : s.Steps key event s') (h : event ≠ .evict k) : Keeps k s s' := by
  intro hrecord
  cases hstep.stepped with
  | committed hcall =>
    show update s.records _ true k = true
    rw [Function.update_apply]
    split_ifs
    · rfl
    · exact hrecord
  | evict key' =>
    refine (Function.update_of_ne ?_ ..).trans hrecord
    rintro rfl
    exact h rfl
  | fetch hcall =>
    unfold Coordinator.fetch
    split <;> exact hrecord
  | check hcall =>
    unfold Coordinator.check
    split <;> exact hrecord
  | _ => exact hrecord

theorem Keeps.of_run (hrun : Run (Steps key) s events s') (hkept : .evict k ∉ events) :
    Keeps k s s' := by
  have hthroughout : Run.Throughout (Steps key) s events (Keeps k) := by
    rintro before event later t u rfl - hstep
    refine Keeps.of_steps hstep ?_
    rintro rfl
    exact hkept (List.mem_append_right _ List.mem_cons_self)
  exact Run.relates_iff.2 hthroughout [] events [] s s' (by simp) .nil hrun

/-- **A record is committed once** while it is kept. -/
theorem commitsOnce_of_run {records : ArtifactKey → Bool}
    (hrun : Run (Steps key) (initial records) events s) : CommitsOnce key events := by
  rintro before middle after call call' rfl hkey
  by_contra hkept
  obtain ⟨t, hbefore, hafter⟩ := run_append_iff.1 hrun
  obtain ⟨u, hcommit, hafter⟩ := run_cons_iff.1 hafter
  obtain ⟨v, hmiddle, hafter⟩ := run_append_iff.1 hafter
  obtain ⟨w, hcommit', -⟩ := run_cons_iff.1 hafter
  have hinv : ∀ {events s}, Run (Steps key) (initial records) events s → s.Inv key := fun hrun =>
    hrun.invariant (inv_initial key records) fun _ _ _ h hstep => h.step hstep
  have hrecord : u.records (key call) = true := by
    cases (show t.Steps key _ u from hcommit).stepped
    exact Function.update_self ..
  have hrecord' := Keeps.of_run hmiddle hkept hrecord
  have hv := hinv (run_append_iff.2 ⟨t, hbefore, run_cons_iff.2 ⟨u, hcommit, hmiddle⟩⟩)
  cases (show v.Steps key _ w from hcommit').stepped with
  | committed hcall =>
    have habsent := hv.absent call' _ hcall
    rw [← hkey, hrecord'] at habsent
    cases habsent

/-! ## Leaks -/

/-- A flight in the map has a call that is yet to check it, unless a build has panicked. -/
def Awaited (s : Coordinator ι) : Prop :=
  ∀ k f, s.flights k = some f →
    (∃ call, (s.calls call).unchecked = some f) ∨ ∃ call, (s.calls call).Panicked

omit [DecidableEq ι] in
theorem Awaited.leakFree (h : s.Awaited) : s.LeakFree := by
  intro hreturned k
  by_contra hne
  obtain ⟨f, hf⟩ := Option.ne_none_iff_exists'.1 hne
  rcases h k f hf with ⟨call, hcall⟩ | ⟨call, hcall⟩
  · rcases hreturned call with heq | heq <;> rw [heq] at hcall <;> cases hcall
  · rcases hreturned call with heq | heq <;> rw [heq] at hcall <;> exact hcall

theorem calls_move_of_ne {other : ι} (hcalls : s'.calls = s.calls) (hne : other ≠ call) :
    (s'.move call phase).calls other = s.calls other := by
  rw [calls_move, if_neg hne, hcalls]

theorem Awaited.move (h : s.Awaited)
    (hflights : ∀ k f, s'.flights k = some f → s.flights k = some f ∨ phase.unchecked = some f)
    (hcalls : s'.calls = s.calls)
    (hunchecked : ∀ f, (s.calls call).unchecked = some f → phase.unchecked = some f)
    (hpanicked : (s.calls call).Panicked → phase.Panicked) : (s'.move call phase).Awaited := by
  have hself : (s'.move call phase).calls call = phase := by rw [calls_move, if_pos rfl]
  intro k f hk
  rcases hflights k f hk with hk | hnew
  · rcases h k f hk with ⟨other, hf⟩ | ⟨other, hf⟩
    · refine .inl ⟨other, ?_⟩
      by_cases heq : other = call
      · rw [heq, hself]
        exact hunchecked f (heq ▸ hf)
      · rw [calls_move_of_ne hcalls heq]
        exact hf
    · refine .inr ⟨other, ?_⟩
      by_cases heq : other = call
      · rw [heq, hself]
        exact hpanicked (heq ▸ hf)
      · rw [calls_move_of_ne hcalls heq]
        exact hf
  · refine .inl ⟨call, ?_⟩
    rw [hself]
    exact hnew

omit [DecidableEq ι] in
theorem calls_check : (s.check k f).calls = s.calls := by
  unfold Coordinator.check
  split <;> rfl

omit [DecidableEq ι] in
/-- A flight that is in the map after a check is another one, or there is another call that has yet
to check it. -/
theorem Inv.flights_check (hinv : s.Inv key) (hcall : s.calls call = .released f)
    (hattended : s.Attended (.check call)) {g : Nat}
    (hk : (s.check (key call) f).flights k = some g) :
    s.flights k = some g ∧
      (g = f → ∃ other, other ≠ call ∧ (s.calls other).unchecked = some f) := by
  have hflight : s.flights (key call) = some f := hinv.handles.attached call f (hcall ▸ rfl)
  unfold Coordinator.check at hk
  split_ifs at hk with hlast
  · have hk' : update s.flights (key call) none k = some g := hk
    rw [Function.update_apply] at hk'
    split_ifs at hk' with heq
    refine ⟨hk', ?_⟩
    rintro rfl
    exact absurd (hinv.handles.injective k _ g hk' hflight) heq
  · refine ⟨hk, fun _ => hattended f hcall ?_⟩
    obtain ⟨holders, hholders, hcard⟩ := hinv.handles.strong _ f hflight
    have hmem : call ∈ holders := (hholders call).2 (hcall ▸ rfl)
    by_contra hnone
    have hsingle : holders = {call} := by
      refine Finset.eq_singleton_iff_unique_mem.2 ⟨hmem, fun other hother => ?_⟩
      by_contra hne
      exact hnone ⟨other, hne, (hholders other).1 hother⟩
    rw [hsingle, Finset.card_singleton] at hcard
    exact hlast ⟨hflight, hcard⟩

/-- **A check that is attended** leaves no flight behind. -/
theorem Awaited.check (h : s.Awaited) (hinv : s.Inv key) (hcall : s.calls call = .released f)
    (hattended : s.Attended (.check call)) :
    ((s.check (key call) f).move call (.checked f)).Awaited := by
  intro k g hk
  obtain ⟨hk, hwaiting⟩ := hinv.flights_check hcall hattended hk
  by_cases heq : g = f
  · obtain ⟨other, hne, hother⟩ := hwaiting heq
    refine .inl ⟨other, ?_⟩
    rw [calls_move_of_ne calls_check hne, heq]
    exact hother
  · rcases h k g hk with ⟨other, hg⟩ | ⟨other, hg⟩
    · refine .inl ⟨other, ?_⟩
      rw [calls_move_of_ne calls_check]
      · exact hg
      · rintro rfl
        rw [hcall] at hg
        exact heq (Option.some.inj hg).symm
    · refine .inr ⟨other, ?_⟩
      rw [calls_move_of_ne calls_check]
      · exact hg
      · rintro rfl
        rw [hcall] at hg
        exact hg

/-- **Every step** that is attended leaves no flight behind. -/
theorem Awaited.step (h : s.Awaited) (hinv : s.Inv key) (hstep : s.Steps key event s')
    (hattended : s.Attended event) : s'.Awaited := by
  cases hstep.stepped with
  | missed hcall | found hcall => exact h.move (fun _ _ => .inl) rfl (hcall ▸ nofun) (hcall ▸ nofun)
  | @fetch call hcall =>
    unfold Coordinator.fetch
    split
    · exact h.move (fun _ _ => .inl) rfl (hcall ▸ nofun) (hcall ▸ nofun)
    · refine h.move (fun k f hk => ?_) rfl (hcall ▸ nofun) (hcall ▸ nofun)
      have hk' : update s.flights (key call) (some s.next) k = some f := hk
      rw [Function.update_apply] at hk'
      split_ifs at hk'
      · exact .inr hk'
      · exact .inl hk'
  | acquire hcall hfree =>
    exact h.move (fun _ _ => .inl) rfl (hcall ▸ fun _ => id) (hcall ▸ nofun)
  | missedAgain hcall => exact h.move (fun _ _ => .inl) rfl (hcall ▸ fun _ => id) (hcall ▸ nofun)
  | foundAgain hcall => exact h.move (fun _ _ => .inl) rfl (hcall ▸ fun _ => id) (hcall ▸ nofun)
  | committed hcall => exact h.move (fun _ _ => .inl) rfl (hcall ▸ fun _ => id) (hcall ▸ nofun)
  | failed hcall => exact h.move (fun _ _ => .inl) rfl (hcall ▸ fun _ => id) (hcall ▸ nofun)
  | @panicked call f hcall =>
    refine fun k g _ => .inr ⟨call, ?_⟩
    rw [calls_move, if_pos rfl]
    trivial
  | release hcall => exact h.move (fun _ _ => .inl) rfl (hcall ▸ fun _ => id) (hcall ▸ nofun)
  | check hcall => exact h.check hinv hcall hattended
  | drop hcall => exact h.move (fun _ _ => .inl) rfl (hcall ▸ nofun) (hcall ▸ nofun)
  | unwound hcall => exact h.move (fun _ _ => .inl) rfl (hcall ▸ nofun) (fun _ => trivial)
  | evict key' => exact h

/-! ## Single flights -/

/-- **Single flights**: when every check of a flight is attended, builds of a key do not overlap, a
record is committed once while it is kept, and no flight is left once all calls have returned. -/
theorem singleFlight_of_attended {records : ArtifactKey → Bool} {events : List (FlightEvent ι)}
    (hrun : Run (fun s event s' => s.Steps key event s' ∧ s.Attended event) (initial records)
      events s) :
    s.Exclusive key ∧ CommitsOnce key events ∧ s.LeakFree := by
  have hboth : s.Inv key ∧ s.Awaited := by
    refine hrun.invariant (I := fun s => s.Inv key ∧ s.Awaited)
      ⟨inv_initial key records, nofun⟩ ?_
    rintro t event u ⟨hinv, hawaited⟩ ⟨hstep, hattended⟩
    exact ⟨hinv.step hstep, hawaited.step hinv hstep hattended⟩
  exact ⟨hboth.1.exclusive, commitsOnce_of_run (hrun.mono fun _ _ _ h => h.1), hboth.2.leakFree⟩

theorem run_of_foldlM (h : events.foldlM (step key) s = some s') : Run (Steps key) s events s' := by
  induction events generalizing s with
  | nil =>
    cases h
    exact .nil
  | cons event events ih =>
    rw [List.foldlM_cons] at h
    obtain ⟨t, hstep, hrest⟩ := Option.bind_eq_some_iff.1 h
    exact run_cons_iff.2 ⟨t, hstep, ih hrest⟩

def cfgKey : ArtifactKey where
  project := ⟨0⟩
  revision := ⟨0⟩
  subject := .symbol "a.py::f"
  kind := .cfg
  producer := ⟨"cfg", 1⟩

def buildAlone {ι : Type} (call : ι) : List (FlightEvent ι) :=
  [.lookup call false, .fetch call, .acquire call, .lookupAgain call false, .build call .committed,
    .release call, .check call, .drop call]

/-- A call by itself takes its flight away. -/
theorem singleFlight_of_attended_alone :
    ∃ s : Coordinator Unit, s.calls () = .returned ∧ s.flights cfgKey = none := by
  have hcall : ((buildAlone ()).foldlM (step fun _ => cfgKey) (initial fun _ => false)).map
      (·.calls ()) = some .returned := by decide +kernel
  obtain ⟨s, hs, hreturned⟩ := Option.map_eq_some_iff.1 hcall
  have hattended : ∀ (t : Coordinator Unit) event, t.Attended event := by
    intro t event
    cases event with
    | check call => exact fun f _ ⟨other, hne, _⟩ => absurd rfl hne
    | _ => trivial
  have hrun := (run_of_foldlM hs).mono fun t event u h => And.intro h (hattended t event)
  exact ⟨s, hreturned, (singleFlight_of_attended hrun).2.2 (fun _ => .inr hreturned) cfgKey⟩

/-- Two calls share a flight, and both check it while both hold it. -/
def overlapping : List (FlightEvent Bool) :=
  [.lookup true false, .lookup false false, .fetch true, .fetch false, .acquire true,
    .lookupAgain true false, .build true .committed, .release true, .acquire false,
    .lookupAgain false false, .release false, .check true, .check false, .drop true, .drop false]

/-- Nobody takes the flight away. -/
theorem not_leakFree_overlapping :
    ¬ ∀ events (s : Coordinator Bool),
      Run (Steps fun _ => cfgKey) (initial fun _ => false) events s → s.LeakFree := by
  intro h
  have hcalls : (overlapping.foldlM (step fun _ => cfgKey) (initial fun _ => false)).map
      (fun s => (s.calls true, s.calls false, s.flights cfgKey)) =
      some (.returned, .returned, some 0) := by decide +kernel
  obtain ⟨s, hs, heq⟩ := Option.map_eq_some_iff.1 hcalls
  obtain ⟨htrue, hfalse, hflight⟩ : s.calls true = .returned ∧ s.calls false = .returned ∧
      s.flights cfgKey = some 0 := by simpa using heq
  have hreturned : s.AllReturned := fun call => .inr (by cases call <;> assumption)
  have hnone := h overlapping s (run_of_foldlM hs) hreturned cfgKey
  rw [hflight] at hnone
  cases hnone

/-- **Whoever checks a flight**, builds of a key do not overlap, a key is built while it has no
record, and its record is committed once while it is kept. -/
theorem exclusive_of_run {records : ArtifactKey → Bool}
    (hrun : Run (Steps key) (initial records) events s) :
    s.Exclusive key ∧ s.Absent key ∧ CommitsOnce key events := by
  have hinv : s.Inv key :=
    hrun.invariant (inv_initial key records) fun _ _ _ h hstep => h.step hstep
  exact ⟨hinv.exclusive, hinv.absent, commitsOnce_of_run hrun⟩

theorem exclusive_of_run_overlapping : ∃ s : Coordinator Bool,
    s.Exclusive (fun _ => cfgKey) ∧ CommitsOnce (fun _ => cfgKey) overlapping := by
  obtain ⟨s, hs⟩ := Option.isSome_iff_exists.1 (by decide +kernel :
    (overlapping.foldlM (step fun _ => cfgKey) (initial fun _ => false)).isSome)
  obtain ⟨hexclusive, -, honce⟩ := exclusive_of_run (run_of_foldlM hs)
  exact ⟨s, hexclusive, honce⟩

end Coordinator

end TldrCode.Store
