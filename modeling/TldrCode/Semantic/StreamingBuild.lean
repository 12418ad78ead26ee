import Mathlib.Algebra.GroupWithZero.Nat
import Mathlib.Data.List.Basic
import TldrCode.Fallible
import TldrCode.Run

/-!
# Streaming builds

`build_streaming_store` and `flush_streaming_window` of `semantic/vector_store.rs`, and
`produce_files` of `semantic/build_pipeline.rs`: a thread that sends the files of a corpus, a
consumer that plans their chunks and embeds them window by window, and a cancellation at any moment,
in any order of their steps. The thread gives up silently when it sees the cancellation. The
consumer notices as long as it holds chunks or is still to check a file; a build that has planned
nothing yet returns an empty store (`complete_of_run`).
-/

namespace TldrCode.Semantic

/-- What a build is given: the files, the capacity of their queue, the chunks that are planned for a
file, with their documents, unless that fails, and the bounds of windows. -/
structure StreamingBuild (F C : Type) where
  files : List F
  capacity : Nat
  capacity_pos : 0 < capacity
  plan : F → Option (List C)
  payloadBytes : C → Nat
  maxFileBytes : Nat
  maxWindowItems : Nat
  maxWindowBytes : Nat

def maxIndexSize : Nat := 100000

def bytesPerChunk : Nat := 768 * 4 + 500

def maxMemoryBytes : Nat := 500 * 1024 * 1024

/-! ## States -/

/-- Where `produce_files` is, with the files that it has not sent. -/
inductive FileProducer (F : Type) where
  | checking (files : List F)
  | sending (file : F) (files : List F)
  | blocked (file : F) (files : List F)
  | stopped (unsent : List F)
  deriving DecidableEq, Repr

/-- Where the consumer is. A window is flushed before a chunk is pushed, with the chunks of its file
after it, or at the end. -/
inductive StreamPhase (F C : Type) where
  | starting
  | receiving
  | checking (file : F)
  | adding (chunks : List C)
  | flushing (next : Option (C × List C))
  | lookingUp (next : Option (C × List C))
  | assembling (next : Option (C × List C))
  | reporting (next : Option (C × List C))
  | finishing
  | returned
  | failed
  deriving DecidableEq, Repr

/-- The flag, the thread, the queue, and the variables of the consumer. -/
structure StreamState (F C : Type) where
  cancelled : Bool
  producer : FileProducer F
  queue : List F
  consumer : StreamPhase F C
  filesSeen : Nat
  window : List C
  totalChunks : Nat
  store : List C
  deriving DecidableEq, Repr

namespace FileProducer

variable {F : Type}

def unsent : FileProducer F → List F
  | checking files | stopped files => files
  | sending file files | blocked file files => file :: files

end FileProducer

namespace StreamPhase

variable {F C : Type}

/-- The file that has been received but not checked. -/
def current : StreamPhase F C → List F
  | checking file => [file]
  | _ => []

/-- The chunks that have been planned but not pushed. -/
def remaining : StreamPhase F C → List C
  | adding chunks => chunks
  | flushing next | lookingUp next | assembling next | reporting next =>
    next.elim [] fun next => next.1 :: next.2
  | _ => []

def Idle : StreamPhase F C → Prop
  | starting | finishing | returned => True
  | flushing next | lookingUp next | assembling next | reporting next => next = none
  | _ => False

/-- Code that the consumer calls here may return an error: the observer, the embedder, the cache or
the store. -/
def MayFail : StreamPhase F C → Prop
  | starting | lookingUp _ | assembling _ | reporting _ | finishing => True
  | _ => False

/-- Where the consumer is when a flush is over. -/
def after : Option (C × List C) → StreamPhase F C
  | none => finishing
  | some next => adding (next.1 :: next.2)

end StreamPhase

namespace StreamingBuild

variable {F C : Type} (b : StreamingBuild F C)

def initial : StreamState F C where
  cancelled := false
  producer := .stopped b.files
  queue := []
  consumer := .starting
  filesSeen := 0
  window := []
  totalChunks := 0
  store := []

def Overflows (window : List C) (chunk : C) : Prop :=
  window ≠ [] ∧ (b.maxWindowItems < window.length + 1 ∨
    b.maxWindowBytes < (window.map b.payloadBytes).sum + b.payloadBytes chunk)

def TooMany (totalChunks : Nat) : Prop :=
  maxIndexSize < totalChunks ∨ maxMemoryBytes < totalChunks * bytesPerChunk

/-- The steps: a cancellation, the thread giving up, other steps of the thread, and those of the
consumer. -/
inductive Event where
  | cancel
  | abandon
  | produce
  | consume
  deriving DecidableEq, Repr

inductive Step (s : StreamState F C) : Event → StreamState F C → Prop
  | cancel : Step s .cancel { s with cancelled := true }
  -- `produce_files`
  | abandon {file : F} {files : List F} (h : s.producer = .checking (file :: files))
    (hcancelled : s.cancelled = true) :
    Step s .abandon { s with producer := .stopped (file :: files) }
  | exhaust (h : s.producer = .checking []) : Step s .produce { s with producer := .stopped [] }
  | look {file : F} {files : List F} (h : s.producer = .checking (file :: files))
    (hcancelled : s.cancelled = false) : Step s .produce { s with producer := .sending file files }
  | trySend {file : F} {files : List F} (h : s.producer = .sending file files)
    (hroom : s.queue.length < b.capacity) :
    Step s .produce { s with producer := .checking files, queue := s.queue ++ [file] }
  | full {file : F} {files : List F} (h : s.producer = .sending file files)
    (hfull : b.capacity ≤ s.queue.length) :
    Step s .produce { s with producer := .blocked file files }
  | send {file : F} {files : List F} (h : s.producer = .blocked file files)
    (hroom : s.queue.length < b.capacity) :
    Step s .produce { s with producer := .checking files, queue := s.queue ++ [file] }
  | disconnected {file : F} {files : List F}
    (h : s.producer = .sending file files ∨ s.producer = .blocked file files)
    (hdropped : s.consumer = .returned ∨ s.consumer = .failed) :
    Step s .produce { s with producer := .stopped (file :: files) }
  -- `build_streaming_store`
  | startEmpty (h : s.consumer = .starting) (hfiles : b.files = []) :
    Step s .consume { s with consumer := .returned }
  | start (h : s.consumer = .starting) (hfiles : b.files ≠ []) (hcancelled : s.cancelled = false) :
    Step s .consume { s with consumer := .receiving, producer := .checking b.files }
  | startCancelled (h : s.consumer = .starting) (hfiles : b.files ≠ [])
    (hcancelled : s.cancelled = true) : Step s .consume { s with consumer := .failed }
  | receive {file : F} {queue : List F} (h : s.consumer = .receiving)
    (hqueue : s.queue = file :: queue) :
    Step s .consume { s with consumer := .checking file, queue }
  | receiveNone {unsent : List F} (h : s.consumer = .receiving) (hqueue : s.queue = [])
    (hproducer : s.producer = .stopped unsent) :
    Step s .consume { s with consumer := .flushing none }
  | check {file : F} {chunks : List C} (h : s.consumer = .checking file)
    (hcancelled : s.cancelled = false) (hplan : b.plan file = some chunks) :
    Step s .consume { s with consumer := .adding chunks, filesSeen := s.filesSeen + 1 }
  | checkFails {file : F} (h : s.consumer = .checking file)
    (hfails : s.cancelled = true ∨ b.plan file = none) :
    Step s .consume { s with consumer := .failed }
  | nextFile (h : s.consumer = .adding []) : Step s .consume { s with consumer := .receiving }
  | tooLarge {chunk : C} {chunks : List C} (h : s.consumer = .adding (chunk :: chunks))
    (hlarge : b.maxFileBytes < b.payloadBytes chunk) :
    Step s .consume { s with consumer := .failed }
  | flushFirst {chunk : C} {chunks : List C} (h : s.consumer = .adding (chunk :: chunks))
    (hfits : b.payloadBytes chunk ≤ b.maxFileBytes) (hfull : b.Overflows s.window chunk) :
    Step s .consume { s with consumer := .flushing (some (chunk, chunks)) }
  | push {chunk : C} {chunks : List C} (h : s.consumer = .adding (chunk :: chunks))
    (hfits : b.payloadBytes chunk ≤ b.maxFileBytes) (hroom : ¬ b.Overflows s.window chunk)
    (hfew : ¬ TooMany (s.totalChunks + 1)) :
    Step s .consume { s with
      consumer := .adding chunks
      window := s.window ++ [chunk]
      totalChunks := s.totalChunks + 1 }
  | pushFails {chunk : C} {chunks : List C} (h : s.consumer = .adding (chunk :: chunks))
    (hmany : TooMany (s.totalChunks + 1)) : Step s .consume { s with consumer := .failed }
  -- `flush_streaming_window`
  | flushEmpty (h : s.consumer = .flushing none) (hwindow : s.window = []) :
    Step s .consume { s with consumer := .finishing }
  | flush {next : Option (C × List C)} (h : s.consumer = .flushing next) (hwindow : s.window ≠ [])
    (hcancelled : s.cancelled = false) : Step s .consume { s with consumer := .lookingUp next }
  | flushCancelled {next : Option (C × List C)} (h : s.consumer = .flushing next)
    (hwindow : s.window ≠ []) (hcancelled : s.cancelled = true) :
    Step s .consume { s with consumer := .failed }
  | hits {next : Option (C × List C)} (h : s.consumer = .lookingUp next) :
    Step s .consume { s with consumer := .assembling next }
  | misses {next : Option (C × List C)} (h : s.consumer = .lookingUp next)
    (hcancelled : s.cancelled = false) : Step s .consume { s with consumer := .assembling next }
  | missesCancelled {next : Option (C × List C)} (h : s.consumer = .lookingUp next)
    (hcancelled : s.cancelled = true) : Step s .consume { s with consumer := .failed }
  | assemble {next : Option (C × List C)} (h : s.consumer = .assembling next) :
    Step s .consume { s with
      consumer := .reporting next
      window := []
      store := s.store ++ s.window }
  | report {next : Option (C × List C)} (h : s.consumer = .reporting next) :
    Step s .consume { s with consumer := .after next }
  | finish {unsent : List F} (h : s.consumer = .finishing)
    (hproducer : s.producer = .stopped unsent) : Step s .consume { s with consumer := .returned }
  | fails (h : s.consumer.MayFail) : Step s .consume { s with consumer := .failed }

/-- The store has the planned chunks of every file of the corpus. -/
def Complete (s : StreamState F C) : Prop :=
  ∀ file ∈ b.files, ∃ chunks, b.plan file = some chunks ∧ ∀ chunk ∈ chunks, chunk ∈ s.store

def Chunkless (files : List F) : Prop := ∀ file ∈ files, b.plan file = some []

/-- When the thread gives up, its files have no chunks, or the consumer has failed, has yet to see a
file that was sent, or has seen a file with chunks. -/
def Noticed (s : StreamState F C) : Event → Prop
  | .abandon => b.Chunkless s.producer.unsent ∨ s.consumer = .failed ∨
      s.filesSeen + s.producer.unsent.length < b.files.length ∨
        ¬ b.Chunkless (b.files.take s.filesSeen)
  | _ => True

/-! ## The invariant -/

variable {b} {s t : StreamState F C} {event : Event} {planned : List (List C)} {files : List F}

structure Accounted (b : StreamingBuild F C) (s : StreamState F C) (seen : List F)
    (planned : List (List C)) : Prop where
  filesSeen : seen.length = s.filesSeen
  files : b.files = seen ++ (s.consumer.current ++ (s.queue ++ s.producer.unsent))
  plans : seen.mapM b.plan = some planned
  chunks : s.store ++ (s.window ++ s.consumer.remaining) = planned.flatten

/-- The consumer holds chunks or is still to check a file, so that it notices a cancellation. -/
def Alert (s : StreamState F C) : Prop :=
  match s.consumer with
  | .receiving => s.queue ≠ [] ∨ s.window ≠ []
  | .checking _ => True
  | .adding chunks => s.queue ≠ [] ∨ s.window ≠ [] ∨ chunks ≠ []
  | .flushing next => next ≠ none ∨ s.window ≠ []
  | .lookingUp next | .assembling next | .reporting next => next ≠ none
  | .starting | .finishing | .returned | .failed => False

/-- Between windows a chunk that has been planned is held, and a window is empty at the end. -/
def Held (s : StreamState F C) : Prop :=
  match s.consumer with
  | .receiving | .checking _ => s.window = [] → s.store = []
  | .adding chunks => s.window = [] → chunks = [] → s.store = []
  | .reporting _ | .finishing | .returned => s.window = []
  | _ => True

structure Working (b : StreamingBuild F C) (s : StreamState F C) : Prop where
  initial : s.consumer = .starting → s = { b.initial with cancelled := s.cancelled }
  accounted : ∃ seen planned, Accounted b s seen planned
  held : Held s
  idle : s.consumer.Idle → s.queue = [] ∧ ∃ unsent, s.producer = .stopped unsent
  abandoned : ∀ unsent, s.producer = .stopped unsent → s.consumer ≠ .starting →
    b.Chunkless unsent ∨ s.cancelled = true ∧ Alert s

theorem working_initial (b : StreamingBuild F C) : Working b b.initial where
  initial _ := rfl
  accounted := ⟨[], [], rfl, rfl, rfl, rfl⟩
  held := trivial
  idle _ := ⟨rfl, b.files, rfl⟩
  abandoned _ _ h := absurd rfl h

theorem Working.produce (h : Working b s) {producer : FileProducer F} {queue : List F}
    (hunsent : queue ++ producer.unsent = s.queue ++ s.producer.unsent)
    (hstarted : ∀ unsent, s.producer ≠ .stopped unsent)
    (hstopped : ∀ unsent, producer = .stopped unsent → unsent = []) :
    Working b { s with producer, queue } := by
  obtain ⟨seen, planned, hseen⟩ := h.accounted
  refine ⟨fun hstarting => ?_, ⟨seen, planned, hseen.filesSeen, ?_, hseen.plans, hseen.chunks⟩,
    h.held, fun hidle => ?_, fun unsent hunsent _ => ?_⟩
  · exact absurd (congrArg StreamState.producer (h.initial hstarting)) (hstarted b.files)
  · dsimp only
    rw [hunsent]
    exact hseen.files
  · obtain ⟨-, unsent, hproducer⟩ := h.idle hidle
    exact absurd hproducer (hstarted unsent)
  · rw [hstopped unsent hunsent]
    exact .inl fun _ hfile => absurd hfile List.not_mem_nil

theorem not_chunkless_of_flatten (hplans : files.mapM b.plan = some planned)
    (h : planned.flatten = []) : b.Chunkless files := by
  rw [mapM_eq_some_iff] at hplans
  intro file hfile
  have hmem : b.plan file ∈ planned.map some := hplans ▸ List.mem_map_of_mem hfile
  obtain ⟨chunks, hchunks, heq⟩ := List.mem_map.1 hmem
  rw [← heq, List.flatten_eq_nil_iff.1 h chunks hchunks]

/-- **The thread gives up**, noticed. -/
theorem Working.abandon (h : Working b s) (hproducer : s.producer = .checking files)
    (hcancelled : s.cancelled = true) (hconsumer : s.consumer ≠ .failed)
    (hnoticed : b.Noticed s .abandon) : Working b { s with producer := .stopped files } := by
  obtain ⟨seen, planned, hseen⟩ := h.accounted
  have hnotIdle : ¬ s.consumer.Idle := by
    intro hidle
    obtain ⟨-, unsent, hstopped⟩ := h.idle hidle
    rw [hproducer] at hstopped
    cases hstopped
  have hfiles := hseen.files
  rw [hproducer] at hfiles
  refine ⟨fun hstarting => absurd (hstarting ▸ trivial) hnotIdle,
    ⟨seen, planned, hseen.filesSeen, hfiles, hseen.plans, hseen.chunks⟩, h.held,
    fun hidle => absurd hidle hnotIdle, fun unsent hunsent _ => ?_⟩
  cases hunsent
  rw [Noticed, hproducer] at hnoticed
  refine hnoticed.imp_right fun hnoticed => ⟨hcancelled, ?_⟩
  have hnoticed := hnoticed.resolve_left hconsumer
  have hsent : s.filesSeen + files.length < b.files.length →
      s.consumer.current ≠ [] ∨ s.queue ≠ [] := by
    intro hlt
    by_contra hnone
    rw [not_or, not_not, not_not] at hnone
    rw [hfiles, hnone.1, hnone.2, ← hseen.filesSeen, List.length_append] at hlt
    exact Nat.lt_irrefl _ hlt
  have hchunks : ¬ b.Chunkless (b.files.take s.filesSeen) →
      s.store ++ (s.window ++ s.consumer.remaining) ≠ [] := by
    intro hsome hnil
    refine hsome ?_
    rw [hfiles, ← hseen.filesSeen, List.take_left']
    · exact not_chunkless_of_flatten hseen.plans (hseen.chunks ▸ hnil)
    · rfl
  have hheld := h.held
  unfold Alert
  unfold Held at hheld
  cases hphase : s.consumer with
  | starting | finishing | returned => exact absurd (hphase ▸ trivial) hnotIdle
  | receiving =>
    simp only [hphase] at hheld hsent hchunks
    rcases hnoticed with hlt | hseen
    · exact .inl ((hsent hlt).resolve_left (not_not_intro rfl))
    · refine .inr fun hwindow => hchunks hseen ?_
      rw [hwindow, hheld hwindow]
      rfl
  | checking file => trivial
  | adding chunks =>
    simp only [hphase] at hheld hsent hchunks
    rcases hnoticed with hlt | hseen
    · exact .inl ((hsent hlt).resolve_left (not_not_intro rfl))
    · refine .inr ?_
      by_contra hnone
      rw [not_or, not_not, not_not] at hnone
      refine hchunks hseen ?_
      rw [hnone.1, hnone.2, hheld hnone.1 hnone.2]
      rfl
  | flushing next =>
    rw [hphase] at hnotIdle
    exact .inl hnotIdle
  | lookingUp next | assembling next | reporting next =>
    rw [hphase] at hnotIdle
    exact hnotIdle
  | failed => exact absurd hphase hconsumer

theorem Working.consume (h : Working b s) (hproducer : t.producer = s.producer)
    (hcancelled : t.cancelled = s.cancelled)
    (hfiles : ∀ seen planned, Accounted b s seen planned →
      ∃ seen planned, Accounted b t seen planned)
    (hheld : Held s → Held t) (hstarting : s.consumer ≠ .starting)
    (hstarting' : t.consumer ≠ .starting)
    (hidle : t.consumer.Idle → t.queue = [] ∧ ∃ unsent, s.producer = .stopped unsent)
    (halert : s.cancelled = true → Alert s → Alert t) : Working b t := by
  obtain ⟨seen, planned, hseen⟩ := h.accounted
  refine ⟨fun hphase => absurd hphase hstarting', hfiles seen planned hseen, hheld h.held,
    fun hidle' => ?_, fun unsent hunsent _ => ?_⟩
  · rw [hproducer]
    exact hidle hidle'
  · rw [hproducer] at hunsent
    rw [hcancelled]
    exact (h.abandoned unsent hunsent hstarting).imp_right fun ⟨hc, ha⟩ => ⟨hc, halert hc ha⟩

theorem Working.move (h : Working b s) {phase phase' : StreamPhase F C}
    (hphase : s.consumer = phase) (hstarting : phase ≠ .starting) (hstarting' : phase' ≠ .starting)
    (hcurrent : phase'.current = phase.current) (hremaining : phase'.remaining = phase.remaining)
    (hheld : Held { s with consumer := phase } → Held { s with consumer := phase' })
    (hidle : phase'.Idle → s.queue = [] ∧ ∃ unsent, s.producer = .stopped unsent)
    (halert : s.cancelled = true → Alert { s with consumer := phase } →
      Alert { s with consumer := phase' }) : Working b { s with consumer := phase' } := by
  subst hphase
  refine h.consume rfl rfl (fun seen planned hseen => ⟨seen, planned, hseen.filesSeen, ?_,
    hseen.plans, ?_⟩) hheld hstarting hstarting' hidle halert
  · rw [hcurrent]
    exact hseen.files
  · rw [hremaining]
    exact hseen.chunks

/-- **A file is checked** and its chunks are planned. -/
theorem Accounted.check {seen : List F} {file : F} {chunks : List C}
    (h : Accounted b s seen planned) (hphase : s.consumer = .checking file)
    (hplan : b.plan file = some chunks) :
    Accounted b { s with consumer := .adding chunks, filesSeen := s.filesSeen + 1 }
      (seen ++ [file]) (planned ++ [chunks]) := by
  have hfiles := h.files
  have hchunks := h.chunks
  rw [hphase] at hfiles hchunks
  refine ⟨?_, ?_, ?_, ?_⟩
  · rw [List.length_append, h.filesSeen, List.length_singleton]
  · rw [hfiles, List.append_assoc]
    rfl
  · have hplans := h.plans
    rw [mapM_eq_some_iff] at hplans ⊢
    rw [List.map_append, List.map_append, hplans, List.map_singleton, hplan]
    rfl
  · rw [List.flatten_append, ← hchunks, List.flatten_singleton]
    simp only [StreamPhase.remaining, List.append_nil, List.append_assoc]

/-- **A step of the consumer** that does not fail. -/
theorem Working.step_consume (h : Working b s) (hstep : b.Step s .consume t)
    (hconsumer : t.consumer ≠ .failed) : Working b t := by
  have hidle := h.idle
  cases hstep with
  | startEmpty hphase hfiles =>
    have hinitial := h.initial hphase
    rw [hinitial]
    refine ⟨nofun, ⟨[], [], rfl, rfl, rfl, rfl⟩, rfl, fun _ => ⟨rfl, b.files, rfl⟩,
      fun unsent hunsent _ => .inl ?_⟩
    cases hunsent
    rw [hfiles]
    exact fun file hfile => absurd hfile List.not_mem_nil
  | start hphase hfiles hcancelled =>
    have hinitial := h.initial hphase
    rw [hinitial]
    exact ⟨nofun, ⟨[], [], rfl, rfl, rfl, rfl⟩, fun _ => rfl, fun hidle => hidle.elim, nofun⟩
  | @receive file queue hphase hqueue =>
    refine h.consume rfl rfl (fun seen planned hseen => ⟨seen, planned, hseen.filesSeen, ?_,
      hseen.plans, ?_⟩) (fun hheld => ?_) (hphase ▸ nofun) nofun (fun hidle => hidle.elim)
      fun _ _ => trivial
    · have hfiles := hseen.files
      rw [hphase, hqueue] at hfiles
      exact hfiles
    · have hchunks := hseen.chunks
      rw [hphase] at hchunks
      exact hchunks
    · unfold Held at hheld
      rw [hphase] at hheld
      exact hheld
  | receiveNone hphase hqueue hproducer =>
    exact h.move hphase nofun nofun rfl rfl (fun _ => trivial) (fun _ => ⟨hqueue, _, hproducer⟩)
      fun _ halert => .inr (halert.resolve_left (not_not_intro hqueue))
  | check hphase hcancelled hplan =>
    refine h.consume rfl rfl (fun seen planned hseen => ⟨_, _, hseen.check hphase hplan⟩)
      (fun hheld hwindow _ => ?_) (hphase ▸ nofun) nofun (fun hidle => hidle.elim)
      fun hc => absurd (hc.symm.trans hcancelled) nofun
    unfold Held at hheld
    rw [hphase] at hheld
    exact hheld hwindow
  | nextFile hphase =>
    refine h.move hphase nofun nofun rfl rfl (fun hheld hwindow => hheld hwindow rfl)
      (fun hidle => hidle.elim) fun _ halert => ?_
    exact halert.imp_right fun hor => hor.resolve_right (not_not_intro rfl)
  | flushFirst hphase hfits hfull =>
    exact h.move hphase nofun nofun rfl rfl (fun _ => trivial) nofun fun _ _ => .inl nofun
  | push hphase hfits hroom hfew =>
    refine h.consume rfl rfl (fun seen planned hseen => ⟨seen, planned, hseen.filesSeen, ?_,
      hseen.plans, ?_⟩) (fun _ hwindow => ?_) (hphase ▸ nofun) nofun (fun hidle => hidle.elim)
      fun _ _ => .inr (.inl (List.append_ne_nil_of_right_ne_nil _ nofun))
    · have hfiles := hseen.files
      rw [hphase] at hfiles
      exact hfiles
    · have hchunks := hseen.chunks
      rw [hphase] at hchunks
      rw [← hchunks]
      simp only [StreamPhase.remaining, List.append_assoc, List.singleton_append]
    · exact absurd hwindow (List.append_ne_nil_of_right_ne_nil _ nofun)
  | flushEmpty hphase hwindow =>
    refine h.move hphase nofun nofun rfl rfl (fun _ => hwindow) (fun _ => hidle (hphase ▸ rfl)) ?_
    exact fun _ halert => absurd hwindow (halert.resolve_left (not_not_intro rfl))
  | flush hphase hwindow hcancelled =>
    exact h.move hphase nofun nofun rfl rfl (fun _ => trivial) (fun hnone => hidle (hphase ▸ hnone))
      fun hc => absurd (hc.symm.trans hcancelled) nofun
  | hits hphase | misses hphase hcancelled =>
    exact h.move hphase nofun nofun rfl rfl (fun _ => trivial) (fun hnone => hidle (hphase ▸ hnone))
      fun _ => id
  | assemble hphase =>
    refine h.consume rfl rfl (fun seen planned hseen => ⟨seen, planned, hseen.filesSeen, ?_,
      hseen.plans, ?_⟩) (fun _ => rfl) (hphase ▸ nofun) nofun (fun hnone => hidle (hphase ▸ hnone))
      fun _ halert => ?_
    · have hfiles := hseen.files
      rw [hphase] at hfiles
      exact hfiles
    · have hchunks := hseen.chunks
      rw [hphase, ← List.append_assoc] at hchunks
      exact hchunks
    · unfold Alert at halert
      rw [hphase] at halert
      exact halert
  | @report next hphase =>
    cases next with
    | none =>
      exact h.move hphase nofun nofun rfl rfl id (fun _ => hidle (hphase ▸ rfl))
        fun _ halert => halert rfl
    | some next =>
      exact h.move hphase nofun nofun rfl rfl (fun _ _ hnil => absurd hnil nofun)
        (fun hidle => hidle.elim) fun _ _ => .inr (.inr nofun)
  | finish hphase hproducer =>
    exact h.move hphase nofun nofun rfl rfl id (fun _ => hidle (hphase ▸ trivial)) fun _ => id
  | startCancelled | checkFails | tooLarge | pushFails | flushCancelled | missesCancelled | fails =>
    exact absurd rfl hconsumer

theorem failed_of_step (hfailed : s.consumer = .failed) (hstep : b.Step s event t) :
    t.consumer = .failed := by
  cases hstep with
  | cancel | abandon | exhaust | look | trySend | full | send | disconnected => exact hfailed
  | startEmpty h | start h | receive h | receiveNone h | check h | nextFile h | flushFirst h
  | push h | flushEmpty h | flush h | hits h | misses h | assemble h | report h | finish h =>
    cases hfailed.symm.trans h
  | startCancelled | checkFails | tooLarge | pushFails | flushCancelled | missesCancelled | fails =>
    rfl

theorem Working.cancel (h : Working b s) : Working b { s with cancelled := true } where
  initial hphase := by rw [h.initial hphase]
  accounted := by
    obtain ⟨seen, planned, hseen⟩ := h.accounted
    exact ⟨seen, planned, hseen.filesSeen, hseen.files, hseen.plans, hseen.chunks⟩
  held := h.held
  idle := h.idle
  abandoned unsent hunsent hphase :=
    (h.abandoned unsent hunsent hphase).imp_right fun halert => ⟨rfl, halert.2⟩

/-- **Every step** that meets the condition keeps the invariant, unless the consumer fails. -/
theorem working_step (h : s.consumer = .failed ∨ Working b s) (hstep : b.Step s event t)
    (hnoticed : b.Noticed s event) : t.consumer = .failed ∨ Working b t := by
  rcases h with hfailed | hworking
  · exact .inl (failed_of_step hfailed hstep)
  · by_cases hconsumer : t.consumer = .failed
    · exact .inl hconsumer
    · refine .inr ?_
      cases event with
      | cancel =>
        cases hstep
        exact hworking.cancel
      | abandon =>
        cases hstep with
        | abandon hproducer hcancelled =>
          exact hworking.abandon hproducer hcancelled hconsumer hnoticed
      | produce =>
        cases hstep with
        | exhaust hproducer =>
          refine hworking.produce (by rw [hproducer]; rfl) (hproducer ▸ nofun) fun unsent h => ?_
          cases h
          rfl
        | look hproducer | full hproducer =>
          exact hworking.produce (by rw [hproducer]; rfl) (hproducer ▸ nofun) nofun
        | trySend hproducer | send hproducer =>
          refine hworking.produce ?_ (hproducer ▸ nofun) nofun
          rw [hproducer, List.append_assoc]
          rfl
        | disconnected hproducer hdropped =>
          have hreturned := hdropped.resolve_right hconsumer
          obtain ⟨-, unsent, hstopped⟩ := hworking.idle (hreturned ▸ trivial)
          rw [hstopped] at hproducer
          exact (hproducer.elim nofun nofun : False).elim
      | consume => exact hworking.step_consume hstep hconsumer

theorem Working.complete (h : Working b s) (hreturned : s.consumer = .returned) :
    b.Complete s := by
  obtain ⟨seen, planned, hseen⟩ := h.accounted
  obtain ⟨hqueue, unsent, hproducer⟩ := h.idle (hreturned ▸ trivial)
  have hwindow : s.window = [] := by
    have hheld := h.held
    unfold Held at hheld
    rw [hreturned] at hheld
    exact hheld
  have hunsent : b.Chunkless unsent := by
    refine (h.abandoned unsent hproducer (hreturned ▸ nofun)).resolve_right fun halert => ?_
    have hnone := halert.2
    unfold Alert at hnone
    rw [hreturned] at hnone
    exact hnone
  have hfiles := hseen.files
  have hchunks := hseen.chunks
  rw [hreturned, hqueue, hproducer] at hfiles
  rw [hreturned, hwindow] at hchunks
  have hstore : s.store = planned.flatten := (List.append_nil _).symm.trans hchunks
  intro file hfile
  rw [hfiles] at hfile
  rcases List.mem_append.1 hfile with hfile | hfile
  · have hmem : b.plan file ∈ planned.map some :=
      mapM_eq_some_iff.1 hseen.plans ▸ List.mem_map_of_mem hfile
    obtain ⟨chunks, hmem, hplan⟩ := List.mem_map.1 hmem
    refine ⟨chunks, hplan.symm, fun chunk hchunk => ?_⟩
    rw [hstore]
    exact List.mem_flatten.2 ⟨chunks, hmem, hchunk⟩
  · exact ⟨[], hunsent file hfile, nofun⟩

/-- **A store that is returned is complete** in every run in which each time the thread gives up is
noticed. -/
theorem complete_of_run (b : StreamingBuild F C) {events : List Event} {s : StreamState F C}
    (h : Run (fun s event t => b.Step s event t ∧ b.Noticed s event) b.initial events s)
    (hreturned : s.consumer = .returned) : b.Complete s := by
  have hworking := h.invariant (I := fun s => s.consumer = .failed ∨ Working b s)
    (.inr (working_initial b)) fun s event t hs hstep => working_step hs hstep.1 hstep.2
  exact (hworking.resolve_left (hreturned ▸ nofun)).complete hreturned

def oneFile : StreamingBuild Nat Nat where
  files := [0]
  capacity := 1
  capacity_pos := Nat.one_pos
  plan file := some [file]
  payloadBytes _ := 1
  maxFileBytes := 16
  maxWindowItems := 1
  maxWindowBytes := 16

/-- The file is sent, planned and embedded, and the store is returned. -/
theorem complete_oneFile : oneFile.Complete
    { cancelled := false, producer := .stopped [], queue := [], consumer := .returned,
      filesSeen := 1, window := [], totalChunks := 1, store := [0] } := by
  have hrun : Run (fun s event t => oneFile.Step s event t ∧ oneFile.Noticed s event)
      oneFile.initial [] oneFile.initial := .nil
  have hrun := hrun.concat ⟨.start rfl nofun rfl, trivial⟩
  have hrun := hrun.concat ⟨.look rfl rfl, trivial⟩
  have hrun := hrun.concat ⟨.trySend rfl (by decide), trivial⟩
  have hrun := hrun.concat ⟨.exhaust rfl, trivial⟩
  have hrun := hrun.concat ⟨.receive rfl rfl, trivial⟩
  have hrun := hrun.concat ⟨.check rfl rfl rfl, trivial⟩
  have hrun := hrun.concat ⟨.push rfl (by decide) (fun h => h.1 rfl) (by unfold TooMany; decide),
    trivial⟩
  have hrun := hrun.concat ⟨.nextFile rfl, trivial⟩
  have hrun := hrun.concat ⟨.receiveNone rfl rfl rfl, trivial⟩
  have hrun := hrun.concat ⟨.flush rfl nofun rfl, trivial⟩
  have hrun := hrun.concat ⟨.misses rfl rfl, trivial⟩
  have hrun := hrun.concat ⟨.assemble rfl, trivial⟩
  have hrun := hrun.concat ⟨.report rfl, trivial⟩
  have hrun := hrun.concat ⟨.finish rfl rfl, trivial⟩
  exact complete_of_run oneFile hrun rfl

/-- The file is cancelled after the build has begun and before the thread looks at the flag. -/
theorem not_complete_oneFile : ¬ ∀ (b : StreamingBuild Nat Nat) (events : List Event)
    (s : StreamState Nat Nat), Run b.Step b.initial events s → s.consumer = .returned →
      b.Complete s := by
  intro h
  have hrun : Run oneFile.Step oneFile.initial [] oneFile.initial := .nil
  have hrun := hrun.concat (.start rfl nofun rfl)
  have hrun := hrun.concat .cancel
  have hrun := hrun.concat (.abandon rfl rfl)
  have hrun := hrun.concat (.receiveNone rfl rfl rfl)
  have hrun := hrun.concat (.flushEmpty rfl rfl)
  have hrun := hrun.concat (.finish rfl rfl)
  obtain ⟨chunks, hplan, hmem⟩ := h oneFile _ _ hrun rfl 0 List.mem_cons_self
  cases hplan
  exact absurd (hmem 0 List.mem_cons_self) List.not_mem_nil

end StreamingBuild

end TldrCode.Semantic
