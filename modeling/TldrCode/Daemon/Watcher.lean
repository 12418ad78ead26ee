import Mathlib.Data.Finset.Sort
import TldrCode.Run

/-!
# The file watcher

`daemon/watcher.rs`: the handler of file events puts accepted paths into a bounded channel, or
raises a flag if the channel is full; the collector gathers paths into batches, and replaces a burst
or an overflow by a full rebuild; the executor hands the batches to the daemon one after the other.
The handler, the collector and the executor take their steps in any order. No event is lost
(`included_after`), but the flag is raised only after the channel has been found full, so that the
collector may have emptied it in between and waits although the flag is up
(`watcherKeepsEvents_iff`). The clock is read in nanoseconds. The watcher lives as long as the
daemon: no channel is closed.
-/

namespace TldrCode.Daemon.Watcher

/-! ## The pipeline -/

structure WatchPipelineConfig where
  maxWait : Nat
  burstFileCap : Nat
  burstEventCap : Nat
  burstWindow : Nat
  deriving DecidableEq, Repr

def WatchPipelineConfig.channelCap (config : WatchPipelineConfig) : Nat :=
  max (min (config.burstEventCap + 1) (2 ^ 64 - 1)) 1

def completedBatchQueueCap : Nat := 64

inductive Flush (π : Type*) where
  | delta (files : List π)
  | fullRebuild
  deriving DecidableEq, Repr

inductive WatchSignal (π : Type*) where
  | path (path : π)
  | fullRebuild
  deriving DecidableEq, Repr

structure WatchPipeline (π : Type*) where
  pending : Finset π
  firstEvent : Option Nat
  acceptedEvents : List Nat
  deriving DecidableEq

variable {π : Type*} [LinearOrder π]

namespace WatchPipeline

variable (config : WatchPipelineConfig) (pipeline : WatchPipeline π)

/-- `new`, and `reset_all`. -/
def empty : WatchPipeline π where
  pending := ∅
  firstEvent := none
  acceptedEvents := []

def accept (path : π) (now : Nat) : WatchPipeline π × Option (Flush π) :=
  let recent := pipeline.acceptedEvents.dropWhile fun first => config.burstWindow < now - first
  let accepted : WatchPipeline π :=
    { pending := insert path pipeline.pending
      firstEvent := some (pipeline.firstEvent.getD now)
      acceptedEvents := recent ++ [now] }
  if config.burstFileCap < accepted.pending.card ∨
      config.burstEventCap < accepted.acceptedEvents.length then
    (empty, some .fullRebuild)
  else (accepted, none)

def deadline : Option Nat := pipeline.firstEvent.map (· + config.maxWait)

def flushDue (now : Nat) : WatchPipeline π × Option (Flush π) :=
  match pipeline.deadline config with
  | none => (pipeline, none)
  | some deadline =>
    if now < deadline then (pipeline, none)
    else
      let files := pipeline.pending.sort (· ≤ ·)
      ({ pipeline with pending := ∅, firstEvent := none },
        if files = [] then none else some (.delta files))

end WatchPipeline

structure WatchEnv (π : Type*) where
  isPolicyFile : π → Bool
  inCache : π → Bool
  inStore : π → Bool
  isIgnored : π → Bool
  pathExists : π → Bool
  isCorpusFile : π → Bool

namespace WatchEnv

variable (env : WatchEnv π)

/-- `presence_decision`; `access` for events of the kind `Access`. -/
def presenceDecision (access : Bool) (path : π) : Bool :=
  !access && !env.inCache path && !env.inStore path

def watchDecision (access : Bool) (path : π) : Bool :=
  if !env.presenceDecision access path then false
  else if env.isIgnored path then false
  else if env.pathExists path then env.isCorpusFile path
  else true

/-- `handle_event`: the signals that it enqueues one after the other. -/
def handleEvent (access : Bool) (paths : List π) : List (WatchSignal π) :=
  if paths.any env.isPolicyFile then [.fullRebuild]
  else (paths.filter (env.watchDecision access)).map .path

end WatchEnv

/-! ## Steps -/

inductive Collector (π : Type*) where
  /-- before the check of the flag -/
  | checking
  /-- in `drain_receiver`, before a full rebuild -/
  | draining
  /-- in `batch_tx.send` -/
  | sending (flush : Flush π)
  /-- waits for a signal, or for the deadline if there is one -/
  | receiving
  deriving DecidableEq, Repr

/-- The state of the handler, the channels, the collector and the executor. -/
structure State (π : Type*) where
  /-- the signals that the handler has still to enqueue -/
  todo : List (WatchSignal π)
  /-- the signal for which the handler has found the channel full, and is to raise the flag -/
  full : Option (WatchSignal π)
  signals : List (WatchSignal π)
  overflowed : Bool
  collector : Collector π
  pipeline : WatchPipeline π
  batches : List (Flush π)
  dispatched : List (Flush π)
  deriving DecidableEq

inductive Step (π : Type*) where
  | event (env : WatchEnv π) (access : Bool) (paths : List π)
  | trySend
  | raiseFlag
  | checkFlag
  | drain
  | receive (now : Nat)
  | deadline (now : Nat)
  | send
  | dispatch

namespace State

def start : State π where
  todo := []
  full := none
  signals := []
  overflowed := false
  collector := .checking
  pipeline := .empty
  batches := []
  dispatched := []

variable (config : WatchPipelineConfig) (s : State π)

def trySend : State π :=
  match s.full, s.todo with
  | none, signal :: todo =>
    if s.signals.length < config.channelCap then
      { s with todo, signals := s.signals ++ [signal] }
    else { s with todo, full := some signal }
  | _, _ => s

/-- `overflowed.store(true)`. -/
def raiseFlag : State π :=
  match s.full with
  | some _ => { s with full := none, overflowed := true }
  | none => s

/-- `overflowed.swap(false)`. -/
def checkFlag : State π :=
  if s.collector = .checking then
    if s.overflowed then { s with overflowed := false, collector := .draining }
    else { s with collector := .receiving }
  else s

/-- `rx.try_recv` in `drain_receiver`. After a burst the pipeline has been reset before, and is
left as it is by a second time. -/
def drain : State π :=
  if s.collector = .draining then
    match s.signals with
    | _ :: signals => { s with signals }
    | [] => { s with pipeline := .empty, collector := .sending .fullRebuild }
  else s

def acceptSignal (signal : WatchSignal π) (now : Nat) : State π :=
  match signal with
  | .fullRebuild => { s with collector := .draining }
  | .path path =>
    match s.pipeline.accept config path now with
    | (pipeline, some .fullRebuild) => { s with pipeline, collector := .draining }
    | (pipeline, some flush) => { s with pipeline, collector := .sending flush }
    | (pipeline, none) => { s with pipeline, collector := .checking }

/-- `rx.recv`, which waits for a signal. -/
def receive (now : Nat) : State π :=
  if s.collector = .receiving then
    match s.signals with
    | signal :: signals => acceptSignal config { s with signals } signal now
    | [] => s
  else s

/-- The branch of `select!` for the deadline. -/
def deadline (now : Nat) : State π :=
  if s.collector = .receiving ∧ (s.pipeline.deadline config).isSome then
    match s.pipeline.flushDue config now with
    | (pipeline, some flush) => { s with pipeline, collector := .sending flush }
    | (pipeline, none) => { s with pipeline, collector := .checking }
  else s

/-- `batch_tx.send`, which waits for room. -/
def send : State π :=
  match s.collector with
  | .sending flush =>
    if s.batches.length < completedBatchQueueCap then
      { s with batches := s.batches ++ [flush], collector := .checking }
    else s
  | _ => s

/-- `drain_batches_serially`: the next batch, some time after the one before has been handled. -/
def dispatch : State π :=
  match s.batches with
  | flush :: batches => { s with batches, dispatched := s.dispatched ++ [flush] }
  | [] => s

def next (s : State π) : Step π → State π
  | .event env access paths =>
    if s.todo = [] ∧ s.full = none then { s with todo := env.handleEvent access paths } else s
  | .trySend => s.trySend config
  | .raiseFlag => s.raiseFlag
  | .checkFlag => s.checkFlag
  | .drain => s.drain
  | .receive now => s.receive config now
  | .deadline now => s.deadline config now
  | .send => s.send
  | .dispatch => s.dispatch

end State

/-! ## Events that are accounted for -/

def Flush.Includes (p : π) : Flush π → Prop
  | .delta files => p ∈ files
  | .fullRebuild => True

/-- The batches that have been sent, in order. -/
def State.sent (s : State π) : List (Flush π) := s.dispatched ++ s.batches

/-- The path is in the channel or pending, or the flag is up, or the collector prepares a full
rebuild or sends a batch that takes care of the path. -/
def State.Holds (s : State π) (p : π) : Prop :=
  .path p ∈ s.signals ∨ p ∈ s.pipeline.pending ∨ s.overflowed ∨ s.collector = .draining ∨
    ∃ flush, s.collector = .sending flush ∧ flush.Includes p

/-- The path is held, or a batch that takes care of it has been sent since the first `n` batches. -/
def State.Accounts (s : State π) (n : Nat) (p : π) : Prop :=
  s.Holds p ∨ ∃ flush ∈ s.sent.drop n, flush.Includes p

/-- The step ends the handling of the path: it is in the channel, or the flag is raised for it. -/
def State.Enqueues (config : WatchPipelineConfig) (s : State π) (p : π) : Step π → Prop
  | .trySend => s.full = none ∧ s.todo.head? = some (.path p) ∧ s.signals.length < config.channelCap
  | .raiseFlag => s.full = some (.path p)
  | _ => False

/-- The collector waits for a signal although the flag is up. -/
def State.Stuck (s : State π) : Prop :=
  s.collector = .receiving ∧ s.signals = [] ∧ s.overflowed

/-- In the order of these steps every event is accounted for from when it has been handled, and the
collector never waits although the flag is up. -/
structure WatcherKeepsEvents (config : WatchPipelineConfig) (steps : List (Step π)) : Prop where
  accounted : ∀ before a middle later p, steps = before ++ a :: (middle ++ later) →
    (before.foldl (State.next config) .start).Enqueues config p a →
    ((before ++ a :: middle).foldl (State.next config) .start).Accounts
      ((before ++ [a]).foldl (State.next config) .start).sent.length p
  notStuck : ∀ before later, steps = before ++ later →
    ¬ (before.foldl (State.next config) .start).Stuck

/-- When the flag is raised, the collector has still to check it, or finds a signal. -/
def State.InTime (s : State π) : Step π → Prop
  | .raiseFlag => s.full ≠ none → ¬ (s.collector = .receiving ∧ s.signals = [])
  | _ => True

variable {config : WatchPipelineConfig} {s : State π} {a : Step π} {n : Nat} {p : π}

namespace WatchPipeline

variable (config) (pipeline : WatchPipeline π) (path : π) (now : Nat)

/-- **What is accepted** is pending with what has been before, or all is given up for a full
rebuild. -/
theorem accept_cases : (pipeline.accept config path now).2 = some .fullRebuild ∨
    (pipeline.accept config path now).2 = none ∧
      (pipeline.accept config path now).1.pending = insert path pipeline.pending := by
  unfold accept
  dsimp only
  split
  · exact .inl rfl
  · exact .inr ⟨rfl, rfl⟩

/-- **What is due** is a batch of all that is pending. -/
theorem flushDue_cases : ((pipeline.flushDue config now).2 = none ∧
      ((pipeline.flushDue config now).1.pending = pipeline.pending ∨ pipeline.pending = ∅)) ∨
    ∃ files, (pipeline.flushDue config now).2 = some (.delta files) ∧
      ∀ p, p ∈ pipeline.pending → p ∈ files := by
  unfold flushDue
  split
  · exact .inl ⟨rfl, .inl rfl⟩
  · split
    · exact .inl ⟨rfl, .inl rfl⟩
    · dsimp only
      split
      · next hfiles =>
        refine .inl ⟨rfl, .inr ?_⟩
        rw [← Finset.card_eq_zero, ← Finset.length_sort (· ≤ ·), hfiles, List.length_nil]
      · exact .inr ⟨_, rfl, fun p hp => (Finset.mem_sort _).2 hp⟩

end WatchPipeline

namespace State

theorem sent_next_of_ne (ha : a ≠ .send) : (s.next config a).sent = s.sent := by
  cases a with
  | event env access paths =>
    dsimp only [next]
    split <;> rfl
  | trySend =>
    dsimp only [next, trySend]
    split
    · split <;> rfl
    · rfl
  | raiseFlag =>
    dsimp only [next, raiseFlag]
    split <;> rfl
  | checkFlag =>
    dsimp only [next, checkFlag]
    split
    · split <;> rfl
    · rfl
  | drain =>
    dsimp only [next, drain]
    split
    · split <;> rfl
    · rfl
  | receive now =>
    dsimp only [next, receive]
    split
    · split
      · unfold acceptSignal
        split
        · rfl
        · split <;> rfl
      · rfl
    · rfl
  | deadline now =>
    dsimp only [next, deadline]
    split
    · split <;> rfl
    · rfl
  | send => exact absurd rfl ha
  | dispatch =>
    dsimp only [next, dispatch]
    split
    · next flush batches hbatches => simp [sent, hbatches]
    · rfl

omit [LinearOrder π] in
theorem send_cases (s : State π) : s.send = s ∨ ∃ flush, s.collector = .sending flush ∧
    s.send = { s with batches := s.batches ++ [flush], collector := .checking } := by
  unfold send
  split
  · next flush hsending =>
    split
    · exact .inr ⟨flush, hsending, rfl⟩
    · exact .inl rfl
  · exact .inl rfl

theorem sent_prefix_next : s.sent <+: (s.next config a).sent := by
  by_cases ha : a = .send
  · subst ha
    cases s.send_cases with
    | inl h => exact ⟨[], by rw [List.append_nil, next, h]⟩
    | inr h =>
      obtain ⟨flush, -, h⟩ := h
      exact ⟨[flush], by rw [next, h]; simp [sent]⟩
  · rw [sent_next_of_ne ha]

omit [LinearOrder π] in
theorem Holds.of_collector {c : Collector π} (hc : s.collector = c) (hdraining : c ≠ .draining)
    (hsending : ∀ flush, c ≠ .sending flush) (h : s.Holds p) :
    .path p ∈ s.signals ∨ p ∈ s.pipeline.pending ∨ s.overflowed := by
  rcases h with h | h | h | h | ⟨flush, h, -⟩
  · exact .inl h
  · exact .inr (.inl h)
  · exact .inr (.inr h)
  · exact absurd (hc.symm.trans h) hdraining
  · exact absurd (hc.symm.trans h) (hsending flush)

omit [LinearOrder π] in
theorem holds_of_draining (h : s.collector = .draining) : s.Holds p :=
  .inr (.inr (.inr (.inl h)))

/-- **The collector keeps what it receives**, or drains the channel for a full rebuild. -/
theorem holds_acceptSignal {signal : WatchSignal π} {signals : List (WatchSignal π)} {now : Nat}
    (h : .path p ∈ signal :: signals ∨ p ∈ s.pipeline.pending ∨ s.overflowed) :
    (acceptSignal config { s with signals } signal now).Holds p := by
  unfold acceptSignal
  split
  · exact holds_of_draining rfl
  · next path =>
    have hcases := s.pipeline.accept_cases config path now
    split
    · exact holds_of_draining rfl
    · next pipeline flush hne haccept =>
      rw [haccept] at hcases
      exact absurd hcases (by simpa using hne)
    · next pipeline haccept =>
      rw [haccept] at hcases
      obtain ⟨-, hpending⟩ := hcases.resolve_left (by simp)
      rcases h with h | h | h
      · cases List.mem_cons.1 h with
        | inl heq =>
          cases heq
          exact .inr (.inl (hpending ▸ Finset.mem_insert_self p _))
        | inr h => exact .inl h
      · exact .inr (.inl (hpending ▸ Finset.mem_insert_of_mem h))
      · exact .inr (.inr (.inl h))

theorem holds_receive {now : Nat} (h : s.Holds p) : (s.receive config now).Holds p := by
  unfold receive
  split
  · next hreceiving =>
    have hheld := h.of_collector hreceiving (by simp) (by simp)
    split
    · next signal signals hsignals => exact holds_acceptSignal (hsignals ▸ hheld)
    · exact h
  · exact h

/-- **A batch that is due** holds all that has been pending. -/
theorem holds_deadline {now : Nat} (h : s.Holds p) : (s.deadline config now).Holds p := by
  unfold deadline
  split
  · next hreceiving =>
    have hheld := h.of_collector hreceiving.1 (by simp) (by simp)
    have hcases := s.pipeline.flushDue_cases config now
    split
    · next pipeline flush hdue =>
      rw [hdue] at hcases
      obtain ⟨files, hfiles, hall⟩ := hcases.resolve_left (by simp)
      cases hfiles
      rcases hheld with h | h | h
      · exact .inl h
      · exact .inr (.inr (.inr (.inr ⟨_, rfl, hall p h⟩)))
      · exact .inr (.inr (.inl h))
    · next pipeline hdue =>
      rw [hdue] at hcases
      obtain ⟨-, hpending⟩ := hcases.resolve_right (by simp)
      rcases hheld with h | h | h
      · exact .inl h
      · refine .inr (.inl ?_)
        cases hpending with
        | inl hsame => exact hsame ▸ h
        | inr hempty => exact absurd h (hempty ▸ Finset.notMem_empty p)
      · exact .inr (.inr (.inl h))
  · exact h

theorem holds_drain (h : s.Holds p) : s.drain.Holds p := by
  unfold drain
  split
  · next hdraining =>
    split
    · exact holds_of_draining hdraining
    · exact .inr (.inr (.inr (.inr ⟨.fullRebuild, rfl, trivial⟩)))
  · exact h

theorem holds_checkFlag (h : s.Holds p) : s.checkFlag.Holds p := by
  unfold checkFlag
  split
  · next hchecking =>
    have hheld := h.of_collector hchecking (by simp) (by simp)
    split
    · exact holds_of_draining rfl
    · exact hheld.imp_right (Or.imp_right .inl)
  · exact h

/-- **No step loses a path**: it is held on, or the batch that takes care of it is sent. -/
theorem holds_next (h : s.Holds p) : (s.next config a).Holds p ∨
    ∃ flush, flush.Includes p ∧ (s.next config a).sent = s.sent ++ [flush] := by
  cases a with
  | event env access paths =>
    left
    dsimp only [next]
    split
    · exact h
    · exact h
  | trySend =>
    left
    dsimp only [next, trySend]
    split
    · split
      · exact h.imp_left (List.mem_append_left _)
      · exact h
    · exact h
  | raiseFlag =>
    left
    dsimp only [next, raiseFlag]
    split
    · exact .inr (.inr (.inl rfl))
    · exact h
  | checkFlag => exact .inl (holds_checkFlag h)
  | drain => exact .inl (holds_drain h)
  | receive now => exact .inl (holds_receive h)
  | deadline now => exact .inl (holds_deadline h)
  | send =>
    rw [next]
    cases s.send_cases with
    | inl hsame =>
      rw [hsame]
      exact .inl h
    | inr hsent =>
      obtain ⟨flush, hsending, hsent⟩ := hsent
      rw [hsent]
      rcases h with h | h | h | h | ⟨flush', hsending', hincludes⟩
      · exact .inl (.inl h)
      · exact .inl (.inr (.inl h))
      · exact .inl (.inr (.inr (.inl h)))
      · rw [hsending] at h
        cases h
      · rw [hsending] at hsending'
        cases hsending'
        exact .inr ⟨flush, hincludes, by simp [sent]⟩
  | dispatch =>
    left
    dsimp only [next, dispatch]
    split
    · exact h
    · exact h

/-- **One step** keeps a path accounted for. -/
theorem accounts_next (hn : n ≤ s.sent.length) (h : s.Accounts n p) :
    (s.next config a).Accounts n p := by
  cases h with
  | inl h =>
    refine (holds_next h).imp_right fun hsent => ?_
    obtain ⟨flush, hincludes, hsent⟩ := hsent
    refine ⟨flush, ?_, hincludes⟩
    rw [hsent, List.drop_append_of_le_length hn]
    simp
  | inr h =>
    obtain ⟨flush, hflush, hincludes⟩ := h
    obtain ⟨more, hmore⟩ : s.sent <+: (s.next config a).sent := sent_prefix_next
    refine .inr ⟨flush, ?_, hincludes⟩
    rw [← hmore, List.drop_append_of_le_length hn]
    exact List.mem_append_left _ hflush

/-- **Any steps** keep a path accounted for. -/
theorem accounts_run (steps : List (Step π)) (hn : n ≤ s.sent.length) (h : s.Accounts n p) :
    (steps.foldl (next config) s).Accounts n p := by
  induction steps generalizing s with
  | nil => exact h
  | cons a steps ih =>
    exact ih (hn.trans (sent_prefix_next).length_le) (accounts_next hn h)

theorem holds_of_enqueues (h : s.Enqueues config p a) : (s.next config a).Holds p := by
  cases a with
  | trySend =>
    obtain ⟨hfull, htodo, hroom⟩ := h
    obtain ⟨todo, htodo⟩ := List.head?_eq_some_iff.1 htodo
    dsimp only [next, trySend]
    rw [hfull, htodo]
    dsimp only
    rw [if_pos hroom]
    exact .inl (by simp)
  | raiseFlag =>
    dsimp only [next, raiseFlag]
    rw [h]
    exact .inr (.inr (.inl rfl))
  | event | checkFlag | drain | receive | deadline | send | dispatch => exact absurd h id

/-! ## The flag -/

theorem not_receiving_acceptSignal (signal : WatchSignal π) (now : Nat) :
    (s.acceptSignal config signal now).collector ≠ .receiving := by
  unfold acceptSignal
  split
  · simp
  · split <;> simp

/-- **The collector comes to wait although the flag is up** only by a flag that is raised too
late. -/
theorem stuck_next_iff (h : ¬ s.Stuck) : ¬ (s.next config a).Stuck ↔ s.InTime a := by
  have hkept : ∀ t : State π, (t.Stuck → s.Stuck) → (¬ t.Stuck ↔ True) := fun t ht =>
    iff_true_intro fun hstuck => h (ht hstuck)
  cases a with
  | event env access paths =>
    refine hkept _ fun hstuck => ?_
    dsimp only [next] at hstuck
    split at hstuck
    · exact hstuck
    · exact hstuck
  | trySend =>
    refine hkept _ fun hstuck => ?_
    dsimp only [next, trySend] at hstuck
    split at hstuck
    · split at hstuck
      · exact absurd hstuck.2.1 (by simp)
      · exact hstuck
    · exact hstuck
  | raiseFlag =>
    dsimp only [next, raiseFlag]
    split
    · next signal hfull =>
      constructor
      · intro hstuck _ hwaits
        exact hstuck ⟨hwaits.1, hwaits.2, rfl⟩
      · intro htime hstuck
        exact htime (by simp [hfull]) ⟨hstuck.1, hstuck.2.1⟩
    · next hfull =>
      exact iff_of_true h fun hne => absurd hfull hne
  | checkFlag =>
    refine hkept _ fun hstuck => ?_
    dsimp only [next, checkFlag] at hstuck
    split at hstuck
    · split at hstuck
      · exact absurd hstuck.1 (by simp)
      · next hdown => exact absurd hstuck.2.2 hdown
    · exact hstuck
  | drain =>
    refine hkept _ fun hstuck => ?_
    dsimp only [next, drain] at hstuck
    split at hstuck
    · next hdraining =>
      split at hstuck
      · exact absurd (hdraining.symm.trans hstuck.1) (by simp)
      · exact absurd hstuck.1 (by simp)
    · exact hstuck
  | receive now =>
    refine hkept _ fun hstuck => ?_
    dsimp only [next, receive] at hstuck
    split at hstuck
    · split at hstuck
      · exact absurd hstuck.1 (not_receiving_acceptSignal _ now)
      · exact hstuck
    · exact hstuck
  | deadline now =>
    refine hkept _ fun hstuck => ?_
    dsimp only [next, deadline] at hstuck
    split at hstuck
    · split at hstuck
      · exact absurd hstuck.1 (by simp)
      · exact absurd hstuck.1 (by simp)
    · exact hstuck
  | send =>
    refine hkept _ fun hstuck => ?_
    rw [next] at hstuck
    cases s.send_cases with
    | inl hsame => rwa [hsame] at hstuck
    | inr hsent =>
      obtain ⟨flush, -, hsent⟩ := hsent
      rw [hsent] at hstuck
      exact absurd hstuck.1 (by simp)
  | dispatch =>
    refine hkept _ fun hstuck => ?_
    dsimp only [next, dispatch] at hstuck
    split at hstuck
    · exact hstuck
    · exact hstuck

end State

/-- **No event is lost, and the collector never waits although the flag is up,** exactly if whenever
the flag is raised the collector has still to check it or finds a signal in the channel. -/
theorem watcherKeepsEvents_iff (config : WatchPipelineConfig) (steps : List (Step π)) :
    WatcherKeepsEvents config steps ↔ ∀ before a later, steps = before ++ a :: later →
      (before.foldl (State.next config) .start).InTime a := by
  have hstart : ¬ (State.start : State π).Stuck := fun h => by simpa [State.start] using h.1
  have hflag : (∀ before later, steps = before ++ later →
      ¬ (before.foldl (State.next config) .start).Stuck) ↔
        ∀ before a later, steps = before ++ a :: later →
          (before.foldl (State.next config) .start).InTime a :=
    forall_states_iff (P := fun s : State π => ¬ s.Stuck) (I := fun _ => True) hstart trivial
      (fun _ _ _ _ _ => trivial) fun _ _ _ ht => State.stuck_next_iff ht
  constructor
  · exact fun h => hflag.1 h.notStuck
  · intro h
    refine ⟨fun before a middle later p _ ha => ?_, hflag.2 h⟩
    rw [List.foldl_append, List.foldl_cons, List.foldl_append, List.foldl_cons, List.foldl_nil]
    exact State.accounts_run middle (Nat.le_refl _) (.inl (State.holds_of_enqueues ha))

/-- The channel has room for two signals, and two events are a burst. -/
def tightConfig : WatchPipelineConfig := ⟨5, 200, 1, 2⟩

def plainEnv : WatchEnv Nat :=
  ⟨fun _ => false, fun _ => false, fun _ => false, fun _ => false, fun _ => true, fun _ => true⟩

/-- The handler finds the channel full for the third path, the collector receives the others, sends
a full rebuild and waits, and only then the flag is raised. -/
def lateFlag : List (Step Nat) :=
  [.event plainEnv false [1, 2, 3], .trySend, .trySend, .trySend, .checkFlag, .receive 0,
    .checkFlag,
    .receive 0, .drain, .send, .checkFlag, .raiseFlag]

theorem not_watcherKeepsEvents : ¬ ∀ (config : WatchPipelineConfig) (steps : List (Step Nat)),
    WatcherKeepsEvents config steps := by
  intro h
  have hstuck : (lateFlag.foldl (State.next tightConfig) .start).Stuck := by
    unfold State.Stuck
    decide +kernel
  exact (h tightConfig lateFlag).notStuck lateFlag [] (List.append_nil _).symm hstuck

end TldrCode.Daemon.Watcher
