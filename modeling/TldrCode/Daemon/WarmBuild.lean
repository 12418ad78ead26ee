import Mathlib.Logic.Function.Basic
import Mathlib.Tactic.IntervalCases
import TldrCode.Run

/-!
# Warm builds

`WarmBuildState` of `daemon/daemon.rs`, the calls of `schedule_full_rebuild` and `start_warm_build`
and the tasks that build. At most one task builds. When none does, every full rebuild that was
requested by a call that is through has been followed by an iteration, in all states if and only if
no task ends by a panic after a request that no iteration has followed (`rebuilt_iff`).
-/

namespace TldrCode.Daemon.WarmBuild

open Function (update)

structure WarmBuildState where
  running : Bool
  fullRebuildPending : Bool
  deriving DecidableEq, Repr

namespace WarmBuildState

def tryStart (state : WarmBuildState) : WarmBuildState × Bool :=
  if state.running then (state, false) else (⟨true, false⟩, true)

def requestFullRebuild (state : WarmBuildState) : WarmBuildState :=
  { state with fullRebuildPending := true }

/-- `finish_iteration`, and whether there is another one. -/
def finishIteration (state : WarmBuildState) : WarmBuildState × Bool :=
  if state.fullRebuildPending then ({ state with fullRebuildPending := false }, true)
  else ({ state with running := false }, false)

/-- `drop` of `ClearWarmStateOnDrop`, when it is armed. -/
def clear (state : WarmBuildState) : WarmBuildState := { state with running := false }

end WarmBuildState

/-- Where a build task is: it has been spawned, is in an iteration, or is about to begin another. -/
inductive TaskPhase where
  | spawned
  | iterating
  | replacing
  deriving DecidableEq, Repr

/-- The state, the tasks that run and how many have been spawned, and the calls of
`schedule_full_rebuild` that have made their request and not started a build, with its time. Beside
them the times of the requests of calls that are through, and of the iterations. -/
structure System where
  state : WarmBuildState
  tasks : Nat → Option TaskPhase
  spawned : Nat
  calls : Nat → Option Nat
  now : Nat
  requested : List Nat
  iterations : List Nat

/-- The steps of callers and tasks: the request of `schedule_full_rebuild`, `start_warm_build` (for
it or for a Warm command), and the iterations of a task, their end and its panic. -/
inductive Event where
  | request (caller : Nat)
  | start (caller : Nat)
  | iterate (task : Nat)
  | finish (task : Nat)
  | panic (task : Nat)
  deriving DecidableEq, Repr

namespace System

def initial : System where
  state := ⟨false, false⟩
  tasks _ := none
  spawned := 0
  calls _ := none
  now := 0
  requested := []
  iterations := []

def step (s : System) : Event → System
  | .request caller =>
    match s.calls caller with
    | none => { s with
        state := s.state.requestFullRebuild
        calls := update s.calls caller (some s.now) }
    | some _ => s
  | .start caller =>
    let s := { s with
      calls := update s.calls caller none
      requested := (s.calls caller).toList ++ s.requested }
    match s.state.tryStart with
    | (_, false) => s
    | (state, true) => { s with
        state
        tasks := update s.tasks s.spawned (some .spawned)
        spawned := s.spawned + 1 }
  | .iterate task =>
    match s.tasks task with
    | some .spawned | some .replacing => { s with
        tasks := update s.tasks task (some .iterating)
        iterations := s.now :: s.iterations }
    | _ => s
  | .finish task =>
    match s.tasks task with
    | some .iterating =>
      match s.state.finishIteration with
      | (state, true) => { s with state, tasks := update s.tasks task (some .replacing) }
      | (state, false) => { s with state, tasks := update s.tasks task none }
    | _ => s
  | .panic task =>
    match s.tasks task with
    | some .iterating | some .replacing => { s with
        state := s.state.clear
        tasks := update s.tasks task none }
    | _ => s

def next (s : System) (event : Event) : System := { s.step event with now := s.now + 1 }

def afterEvents (events : List Event) : System := events.foldl next initial

/-- A request has been followed by an iteration. -/
def Followed (s : System) (time : Nat) : Prop := ∃ iteration ∈ s.iterations, time < iteration

end System

/-- At most one task builds, and when none does, every request of a call that is through has been
followed by an iteration. -/
structure Rebuilt (s : System) : Prop where
  unique : ∀ task task', (s.tasks task).isSome → (s.tasks task').isSome → task = task'
  followed : (∀ task, s.tasks task = none) → ∀ time ∈ s.requested, s.Followed time

/-- A task that ends by a panic leaves no request of a call that is through without an iteration. -/
def PanicsFollowed (s : System) : Event → Prop
  | .panic task => s.tasks task = some .iterating ∨ s.tasks task = some .replacing →
      ∀ time ∈ s.requested, s.Followed time
  | _ => True

/-! ## Invariant -/

namespace System

variable {s : System} {event : Event} {time task : Nat} {phase phase' : TaskPhase}

/-- An iteration follows a request, or will follow it if the task does not panic. -/
def Owed (s : System) (time : Nat) : Prop :=
  s.Followed time ∨ s.state.fullRebuildPending ∨
    ∃ task, s.tasks task = some .spawned ∨ s.tasks task = some .replacing

/-- What every step keeps, if it leaves no request behind. -/
structure Inv (s : System) : Prop where
  running : s.state.running ↔ ∃ task, (s.tasks task).isSome
  unique : ∀ task task', (s.tasks task).isSome → (s.tasks task').isSome → task = task'
  fresh : ∀ task, (s.tasks task).isSome → task < s.spawned
  requestedBefore : ∀ time ∈ s.requested, time < s.now
  callsBefore : ∀ caller time, s.calls caller = some time → time < s.now
  requested : ∀ time ∈ s.requested, s.Owed time
  calls : ∀ caller time, s.calls caller = some time → s.Owed time ∨ s.state.running = false

theorem inv_initial : initial.Inv where
  running := by simp [initial]
  unique _ _ h := by cases h
  fresh _ h := by cases h
  requestedBefore _ h := by cases h
  callsBefore _ _ h := by cases h
  requested _ h := by cases h
  calls _ _ h := by cases h

theorem Inv.tick (h : s.Inv) : ({ s with now := s.now + 1 } : System).Inv where
  running := h.running
  unique := h.unique
  fresh := h.fresh
  requestedBefore time htime := Nat.lt_succ_of_lt (h.requestedBefore time htime)
  callsBefore caller time hcall := Nat.lt_succ_of_lt (h.callsBefore caller time hcall)
  requested := h.requested
  calls := h.calls

theorem Inv.request (h : s.Inv) (caller : Nat) :
    ({ s with
      state := s.state.requestFullRebuild
      calls := update s.calls caller (some s.now)
      now := s.now + 1 } : System).Inv where
  running := h.running
  unique := h.unique
  fresh := h.fresh
  requestedBefore time htime := Nat.lt_succ_of_lt (h.requestedBefore time htime)
  callsBefore other time hcall := by
    dsimp only at hcall
    rw [Function.update_apply] at hcall
    split_ifs at hcall
    · cases hcall
      exact Nat.lt_succ_self _
    · exact Nat.lt_succ_of_lt (h.callsBefore other time hcall)
  requested _ _ := .inr (.inl rfl)
  calls _ _ _ := .inl (.inr (.inl rfl))

theorem Inv.taken_before (h : s.Inv) {caller : Nat}
    (htime : time ∈ (s.calls caller).toList ++ s.requested) : time < s.now + 1 := by
  apply Nat.lt_succ_of_lt
  rcases List.mem_append.1 htime with hcall | hrequested
  · exact h.callsBefore caller time (Option.mem_toList.1 hcall)
  · exact h.requestedBefore time hrequested

theorem Inv.left_before (h : s.Inv) {caller other : Nat}
    (hcall : update s.calls caller none other = some time) : time < s.now + 1 := by
  rw [Function.update_apply] at hcall
  split_ifs at hcall
  exact Nat.lt_succ_of_lt (h.callsBefore other time hcall)

theorem Inv.through (h : s.Inv) (caller : Nat) (hrunning : s.state.running) :
    ({ s with
      calls := update s.calls caller none
      requested := (s.calls caller).toList ++ s.requested
      now := s.now + 1 } : System).Inv where
  running := h.running
  unique := h.unique
  fresh := h.fresh
  requestedBefore _ htime := h.taken_before htime
  callsBefore _ _ hcall := h.left_before hcall
  requested time htime := by
    rcases List.mem_append.1 htime with hcall | hrequested
    · refine (h.calls caller time (Option.mem_toList.1 hcall)).resolve_right ?_
      simp [hrunning]
    · exact h.requested time hrequested
  calls other time hcall := by
    dsimp only at hcall
    rw [Function.update_apply] at hcall
    split_ifs at hcall
    exact h.calls other time hcall

theorem Inv.spawn (h : s.Inv) (caller : Nat) (hrunning : s.state.running = false) :
    ({ s with
      state := ⟨true, false⟩
      tasks := update s.tasks s.spawned (some .spawned)
      spawned := s.spawned + 1
      calls := update s.calls caller none
      requested := (s.calls caller).toList ++ s.requested
      now := s.now + 1 } : System).Inv := by
  have hnone : ∀ task, ¬ (s.tasks task).isSome := by
    intro task htask
    rw [h.running.2 ⟨task, htask⟩] at hrunning
    cases hrunning
  have hspawned : ∀ task, (update s.tasks s.spawned (some .spawned) task).isSome →
      task = s.spawned := by
    intro task htask
    rw [Function.update_apply] at htask
    split_ifs at htask with heq
    · exact heq
    · exact absurd htask (hnone task)
  constructor
  case running =>
    refine iff_of_true rfl ⟨s.spawned, ?_⟩
    dsimp only
    rw [Function.update_self]
    rfl
  case unique =>
    exact fun task task' htask htask' => (hspawned task htask).trans (hspawned task' htask').symm
  case fresh =>
    intro task htask
    rw [hspawned task htask]
    exact Nat.lt_succ_self _
  case requestedBefore => exact fun _ htime => h.taken_before htime
  case callsBefore => exact fun _ _ hcall => h.left_before hcall
  case requested =>
    exact fun _ _ => .inr (.inr ⟨s.spawned, .inl (Function.update_self ..)⟩)
  case calls =>
    exact fun _ _ _ => .inl (.inr (.inr ⟨s.spawned, .inl (Function.update_self ..)⟩))

theorem isSome_update {task other : Nat} (htask : s.tasks task = some phase) :
    (update s.tasks task (some phase') other).isSome ↔ (s.tasks other).isSome := by
  rw [Function.update_apply]
  split_ifs with heq
  · simp [heq, htask]
  · rfl

/-- The task goes on, and an iteration is owed to all requests. -/
theorem Inv.advance (h : s.Inv) {state : WarmBuildState} {iterations : List Nat}
    (htask : s.tasks task = some phase) (hstate : state.running = s.state.running)
    (howed : ∀ time < s.now, ({ s with
      state := state
      tasks := update s.tasks task (some phase')
      iterations := iterations
      now := s.now + 1 } : System).Owed time) :
    ({ s with
      state := state
      tasks := update s.tasks task (some phase')
      iterations := iterations
      now := s.now + 1 } : System).Inv where
  running := by
    rw [hstate]
    refine h.running.trans (exists_congr fun other => ?_)
    exact (isSome_update htask).symm
  unique other other' hother hother' :=
    h.unique other other' ((isSome_update htask).1 hother) ((isSome_update htask).1 hother')
  fresh other hother := h.fresh other ((isSome_update htask).1 hother)
  requestedBefore time htime := Nat.lt_succ_of_lt (h.requestedBefore time htime)
  callsBefore caller time hcall := Nat.lt_succ_of_lt (h.callsBefore caller time hcall)
  requested time htime := howed time (h.requestedBefore time htime)
  calls caller time hcall := .inl (howed time (h.callsBefore caller time hcall))

theorem Inv.none_of_ended (h : s.Inv) (htask : (s.tasks task).isSome) (other : Nat) :
    update s.tasks task none other = none := by
  rw [Function.update_apply]
  split_ifs with heq
  · rfl
  · rw [← Option.not_isSome_iff_eq_none]
    exact fun hother => heq (h.unique other task hother htask)

theorem Inv.ended (h : s.Inv) (htask : (s.tasks task).isSome)
    (hfollowed : ∀ time ∈ s.requested, s.Followed time) :
    ({ s with
      state := { s.state with running := false }
      tasks := update s.tasks task none
      now := s.now + 1 } : System).Inv where
  running := by
    refine iff_of_false (by simp) ?_
    rintro ⟨other, hother⟩
    dsimp only at hother
    rw [h.none_of_ended htask] at hother
    cases hother
  unique other _ hother _ := by
    dsimp only at hother
    rw [h.none_of_ended htask] at hother
    cases hother
  fresh other hother := by
    dsimp only at hother
    rw [h.none_of_ended htask] at hother
    cases hother
  requestedBefore time htime := Nat.lt_succ_of_lt (h.requestedBefore time htime)
  callsBefore caller time hcall := Nat.lt_succ_of_lt (h.callsBefore caller time hcall)
  requested time htime := .inl (hfollowed time htime)
  calls _ _ _ := .inr rfl

theorem Inv.followed_of_iterating (h : s.Inv) (htask : s.tasks task = some .iterating)
    (hpending : s.state.fullRebuildPending = false) : ∀ time ∈ s.requested, s.Followed time := by
  intro time htime
  rcases h.requested time htime with hfollowed | hpending' | ⟨other, hother⟩
  · exact hfollowed
  · rw [hpending] at hpending'
    cases hpending'
  · have hsome : (s.tasks other).isSome := by
      rcases hother with hphase | hphase <;> rw [hphase] <;> rfl
    cases h.unique other task hsome (by rw [htask]; rfl)
    rw [htask] at hother
    rcases hother with hphase | hphase <;> cases hphase

/-! ## Steps -/

/-- A step that is no panic keeps the invariant, and a panic if it leaves no request behind. -/
theorem Inv.next (h : s.Inv) (hpanic : PanicsFollowed s event) : (s.next event).Inv := by
  cases event with
  | request caller =>
    unfold System.next step
    dsimp only
    split
    · exact h.request caller
    · exact h.tick
  | start caller =>
    unfold System.next step WarmBuildState.tryStart
    dsimp only
    cases hrunning : s.state.running with
    | true => exact h.through caller hrunning
    | false => exact h.spawn caller hrunning
  | iterate task =>
    unfold System.next step
    dsimp only
    have hiterated : ∀ time < s.now, ∃ iteration ∈ s.now :: s.iterations, time < iteration :=
      fun _ htime => ⟨s.now, List.mem_cons_self, htime⟩
    split
    · next htask => exact h.advance htask rfl fun time ht => .inl (hiterated time ht)
    · next htask => exact h.advance htask rfl fun time ht => .inl (hiterated time ht)
    · exact h.tick
  | finish task =>
    unfold System.next step WarmBuildState.finishIteration
    dsimp only
    split
    · next htask =>
      have hsome : (s.tasks task).isSome := by rw [htask]; rfl
      cases hpending : s.state.fullRebuildPending with
      | true =>
        refine h.advance htask rfl fun _ _ => .inr (.inr ⟨task, .inr ?_⟩)
        exact Function.update_self ..
      | false =>
        have hended := h.ended hsome (h.followed_of_iterating htask hpending)
        dsimp only at hended
        rw [hpending] at hended
        exact hended
    · exact h.tick
  | panic task =>
    unfold System.next step WarmBuildState.clear
    dsimp only
    split
    · next htask => exact h.ended (by simp [htask]) (hpanic (.inl htask))
    · next htask => exact h.ended (by simp [htask]) (hpanic (.inr htask))
    · exact h.tick

/-- **When no task builds after a step**, every request has been followed. -/
theorem Inv.followed_next (h : s.Inv) (hs : Rebuilt s) (hpanic : PanicsFollowed s event)
    (hnone : ∀ task, (s.next event).tasks task = none) :
    ∀ time ∈ (s.next event).requested, (s.next event).Followed time := by
  cases event with
  | request caller =>
    unfold System.next step at hnone ⊢
    dsimp only at hnone ⊢
    split at hnone
    · exact hs.followed hnone
    · exact hs.followed hnone
  | start caller =>
    exfalso
    unfold System.next step WarmBuildState.tryStart at hnone
    dsimp only at hnone
    cases hrunning : s.state.running with
    | true =>
      rw [hrunning] at hnone
      obtain ⟨task, htask⟩ := h.running.1 hrunning
      have hnone : s.tasks task = none := hnone task
      rw [hnone] at htask
      cases htask
    | false =>
      rw [hrunning] at hnone
      have hnone : update s.tasks s.spawned (some .spawned) s.spawned = none := hnone s.spawned
      rw [Function.update_self] at hnone
      cases hnone
  | iterate task =>
    unfold System.next step at hnone ⊢
    dsimp only at hnone ⊢
    split at hnone
    · have hnone := hnone task
      dsimp only at hnone
      rw [Function.update_self] at hnone
      cases hnone
    · have hnone := hnone task
      dsimp only at hnone
      rw [Function.update_self] at hnone
      cases hnone
    · exact hs.followed hnone
  | finish task =>
    unfold System.next step WarmBuildState.finishIteration at hnone ⊢
    dsimp only at hnone ⊢
    split at hnone
    · next htask =>
      cases hpending : s.state.fullRebuildPending with
      | true =>
        rw [hpending] at hnone
        have hnone : update s.tasks task (some .replacing) task = none := hnone task
        rw [Function.update_self] at hnone
        cases hnone
      | false => exact h.followed_of_iterating htask hpending
    · exact hs.followed hnone
  | panic task =>
    unfold System.next step at hnone ⊢
    dsimp only at hnone ⊢
    split at hnone
    · next htask => exact hpanic (.inl htask)
    · next htask => exact hpanic (.inr htask)
    · exact hs.followed hnone

/-- A panic that leaves no task leaves no request, if the state after it is rebuilt. -/
theorem Inv.panicsFollowed (h : s.Inv) (hs : Rebuilt (s.next event)) : PanicsFollowed s event := by
  cases event with
  | panic task =>
    intro htask
    have hsome : (s.tasks task).isSome := by
      rcases htask with hphase | hphase <;> rw [hphase] <;> rfl
    have hfollowed := hs.followed
    unfold System.next step at hfollowed
    dsimp only at hfollowed
    rcases htask with hphase | hphase
    · rw [hphase] at hfollowed
      exact hfollowed (h.none_of_ended hsome)
    · rw [hphase] at hfollowed
      exact hfollowed (h.none_of_ended hsome)
  | request | start | iterate | finish => trivial

end System

/-- **A requested full rebuild runs**, in all states of a run, if and only if no task panics after a
request of a call that is through and before the next iteration. -/
theorem rebuilt_iff (events : List Event) :
    (∀ before later, events = before ++ later → Rebuilt (System.afterEvents before)) ↔
    ∀ before event later, events = before ++ event :: later →
      PanicsFollowed (System.afterEvents before) event := by
  apply forall_states_iff (P := Rebuilt) (I := System.Inv)
  · exact ⟨System.inv_initial.unique, fun _ time htime => absurd htime List.not_mem_nil⟩
  · exact System.inv_initial
  · exact fun s event h _ hafter => h.next (h.panicsFollowed hafter)
  · intro s event h hs
    constructor
    · exact fun hafter => h.panicsFollowed hafter
    · exact fun hpanic => ⟨(h.next hpanic).unique, h.followed_next hs hpanic⟩

/-- A full rebuild is requested while a task builds, which then panics. -/
def swallowedEvents : List Event :=
  [.start 0, .iterate 0, .request 1, .start 1, .panic 0]

/-- A request is swallowed by a panic. -/
theorem rebuilt_swallowed :
    ¬ ∀ events before later : List Event, events = before ++ later →
      Rebuilt (System.afterEvents before) := by
  intro h
  have hrebuilt := h swallowedEvents swallowedEvents [] (by simp)
  have hnone : ∀ task, (System.afterEvents swallowedEvents).tasks task = none := by
    intro task
    change update (update (update (fun _ => none) 0 (some TaskPhase.spawned)) 0
      (some TaskPhase.iterating)) 0 none
      task = none
    simp [Function.update_apply]
  obtain ⟨iteration, hiteration, hlt⟩ := hrebuilt.followed hnone 2 (by decide)
  revert iteration
  decide

end TldrCode.Daemon.WarmBuild
