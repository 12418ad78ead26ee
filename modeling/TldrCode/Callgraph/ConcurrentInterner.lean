import Mathlib.Algebra.GroupWithZero.Nat
import Mathlib.Data.Finset.Card
import Mathlib.Data.Finset.Image
import TldrCode.Run
import TldrCode.RwLock

/-!
# The concurrent interner

Threads that call `intern`, `get`, `len` and `stats`, one step at a time. The ids are right in every
run, but `intern` takes the lookup table before the strings and `stats` the strings before the
table: they wait for each other when each has its first lock (`correct_iff`).
-/

namespace TldrCode.Callgraph.Interning

open Function (update)

/-- The locks of `ConcurrentInterner`. -/
inductive Lock where
  | strings
  | lookup
  deriving DecidableEq, Repr

/-- `InternerStats`, without the estimate of the memory. -/
structure InternerStats where
  uniqueCount : Nat
  totalInternCalls : Nat
  deriving DecidableEq, Repr

inductive Result where
  | interned (s : String) (id : Nat)
  | got (id : Nat) (s : Option String)
  | len (n : Nat)
  | stats (stats : InternerStats)
  deriving DecidableEq, Repr

inductive Call where
  | intern (s : String)
  | get (id : Nat)
  | len
  | stats
  deriving DecidableEq, Repr

/-- A part of a call that begins with taking a lock. -/
inductive Section where
  | check (s : String)
  | recheck (s : String)
  | append (s : String)
  | get (id : Nat)
  | len
  | statsStrings
  | statsLookup
  deriving DecidableEq, Repr

def Call.first : Call → Section
  | .intern s => .check s
  | .get id => .get id
  | .len => .len
  | .stats => .statsStrings

def Section.lock : Section → Lock × RwMode
  | .check _ => (.lookup, .read)
  | .recheck _ => (.lookup, .write)
  | .append _ => (.strings, .write)
  | .get _ | .len | .statsStrings => (.strings, .read)
  | .statsLookup => (.lookup, .read)

def Section.held : Section → List (Lock × RwMode)
  | .append _ => [(.lookup, .write)]
  | .statsLookup => [(.strings, .read)]
  | .check _ | .recheck _ | .get _ | .len | .statsStrings => []

/-- Where a thread is: outside, in front of a lock, waiting for it, with it, or about to drop the
guards, after which `intern` may have to take the table for writing. -/
inductive Pc where
  | idle
  | ready (part : Section)
  | waiting (part : Section)
  | inside (part : Section)
  | leaving (guards : List (Lock × RwMode)) (retry : Option String)
  deriving DecidableEq, Repr

def Pc.held : Pc → List (Lock × RwMode)
  | .idle => []
  | .ready part | .waiting part => part.held
  | .inside part => part.lock :: part.held
  | .leaving guards _ => guards

def Pc.awaits : Pc → Option (Lock × RwMode)
  | .waiting part => some part.lock
  | .idle | .ready _ | .inside _ | .leaving _ _ => none

/-- `ConcurrentInterner` without its locks. -/
structure Interner where
  strings : List String
  lookup : String → Option Nat
  totalInternCalls : Nat

/-- The interner, its locks, the threads, and what the calls have returned. -/
structure System where
  interner : Interner
  locks : Lock → RwLock Nat
  threads : Nat → Pc
  results : List Result

/-- `ConcurrentInterner::new`. -/
def initial : System := ⟨⟨[], fun _ => none, 0⟩, fun _ => .free, fun _ => .idle, []⟩

/-- What a part does to the strings and the table. -/
def Section.perform (interner : Interner) : Section → Interner
  | .append s =>
    let id := interner.strings.length % 2 ^ 32
    { interner with
      strings := interner.strings ++ [s]
      lookup := update interner.lookup s (some id) }
  | .check _ | .recheck _ | .get _ | .len | .statsStrings | .statsLookup => interner

def Section.result (interner : Interner) : Section → Option Result
  | .check s | .recheck s => (interner.lookup s).map (.interned s)
  | .append s => some (.interned s (interner.strings.length % 2 ^ 32))
  | .get id => some (.got id interner.strings[id]?)
  | .len => some (.len interner.strings.length)
  | .statsStrings => none
  | .statsLookup => some (.stats ⟨interner.strings.length, interner.totalInternCalls⟩)

def Section.next (interner : Interner) : Section → Pc
  | .check s =>
    .leaving [(.lookup, .read)] (if (interner.lookup s).isSome then none else some s)
  | .recheck s =>
    if (interner.lookup s).isSome then .leaving [(.lookup, .write)] none else .ready (.append s)
  | .append _ => .leaving [(.strings, .write), (.lookup, .write)] none
  | .get _ | .len => .leaving [(.strings, .read)] none
  | .statsStrings => .ready .statsLookup
  | .statsLookup => .leaving [(.lookup, .read), (.strings, .read)] none

def System.goto (sys : System) (t : Nat) (pc : Pc) : System :=
  { sys with threads := update sys.threads t pc }

def System.setLock (sys : System) (l : Lock) (lock : RwLock Nat) : System :=
  { sys with locks := update sys.locks l lock }

@[simp]
theorem System.threads_goto (sys : System) (t : Nat) (pc : Pc) :
    (sys.goto t pc).threads = update sys.threads t pc := rfl

@[simp]
theorem System.threads_setLock (sys : System) (l : Lock) (lock : RwLock Nat) :
    (sys.setLock l lock).threads = sys.threads := rfl

/-- A step of a thread; one that waits for a lock stays where it is until the lock is free. -/
def System.step (sys : System) (t : Nat) : System :=
  match sys.threads t with
  | .idle => sys
  | .ready part =>
    (sys.setLock part.lock.1 ((sys.locks part.lock.1).request t part.lock.2)).goto t (.waiting part)
  | .waiting part =>
    if (sys.locks part.lock.1).grantable part.lock.2 then
      (sys.setLock part.lock.1 ((sys.locks part.lock.1).acquire t part.lock.2)).goto t
        (.inside part)
    else sys
  | .inside part =>
    { sys with
      interner := part.perform sys.interner
      results := sys.results ++ (part.result sys.interner).toList }.goto t (part.next sys.interner)
  | .leaving ((l, mode) :: guards) retry =>
    (sys.setLock l ((sys.locks l).release t mode)).goto t (.leaving guards retry)
  | .leaving [] (some s) => sys.goto t (.ready (.recheck s))
  | .leaving [] none => sys.goto t .idle

/-- A thread that is outside calls a function. -/
def System.call (sys : System) (t : Nat) (call : Call) : System :=
  match sys.threads t with
  | .idle =>
    { sys with
      interner := match call with
        | .intern _ =>
          { sys.interner with totalInternCalls := sys.interner.totalInternCalls + 1 }
        | .get _ | .len | .stats => sys.interner }.goto t (.ready call.first)
  | .ready _ | .waiting _ | .inside _ | .leaving _ _ => sys

inductive Event where
  | call (t : Nat) (call : Call)
  | step (t : Nat)
  deriving DecidableEq, Repr

def System.next (sys : System) : Event → System
  | .call t call => sys.call t call
  | .step t => sys.step t

/-- The thread waits for a lock that the other keeps it from. -/
def WaitsFor (sys : System) (t u : Nat) : Prop :=
  ∃ l mode, (sys.threads t).awaits = some (l, mode) ∧ (sys.locks l).Blocks u mode

def internedStrings (events : List Event) : List String :=
  events.filterMap fun event =>
    match event with
    | .call _ (.intern s) => some s
    | .call _ (.get _) | .call _ .len | .call _ .stats | .step _ => none

/-- **The ids are right**: those of equal strings only are equal, and what is got under an id that
was returned is the string. -/
structure IdsRight (results : List Result) : Prop where
  intern : ∀ s id s' id', .interned s id ∈ results → .interned s' id' ∈ results →
    (id = id' ↔ s = s')
  get : ∀ before id found after, results = before ++ .got id found :: after →
    ∀ s, .interned s id ∈ before → found = some s

/-- **No thread waits for itself** through others. -/
def NoCircularWait (sys : System) : Prop := ∀ t, ¬ Relation.TransGen (WaitsFor sys) t t

/-! ## Locks -/

theorem System.call_of_ne_idle {sys : System} {t : Nat} {call : Call}
    (h : sys.threads t ≠ .idle) : sys.call t call = sys := by
  unfold System.call
  split
  · contradiction
  · rfl
  · rfl
  · rfl
  · rfl

/-- The locks are held by the threads that have their guards, without repetition. -/
structure Locked (locks : Lock → RwLock Nat) (threads : Nat → Pc) : Prop where
  holds : ∀ l mode t, (locks l).Holds t mode ↔ (l, mode) ∈ (threads t).held
  waiting : ∀ l t, t ∈ (locks l).waiting ↔ (threads t).awaits = some (l, .write)
  nodup : ∀ t, (threads t).held.Nodup

variable {sys : System} {locks : Lock → RwLock Nat} {threads : Nat → Pc} {t u : Nat} {pc : Pc}
  {part : Section} {event : Event} {s : String} {l : Lock} {mode : RwMode}

theorem Section.lock_not_mem_held : part.lock ∉ part.held := by
  cases part <;> simp [Section.lock, Section.held]

theorem Section.nodup_held : part.held.Nodup := by
  cases part <;> simp [Section.held]

theorem Section.held_next (interner : Interner) :
    (part.next interner).held = part.lock :: part.held := by
  cases part with
  | recheck s =>
    rw [Section.next]
    split_ifs <;> rfl
  | check s => rfl
  | append s => rfl
  | get id => rfl
  | len => rfl
  | statsStrings => rfl
  | statsLookup => rfl

theorem Section.awaits_next (interner : Interner) : (part.next interner).awaits = none := by
  cases part with
  | recheck s =>
    rw [Section.next]
    split_ifs <;> rfl
  | check s => rfl
  | append s => rfl
  | get id => rfl
  | len => rfl
  | statsStrings => rfl
  | statsLookup => rfl

theorem Locked.setLock {lock : RwLock Nat} (h : Locked locks threads)
    (hothers : ∀ u, u ≠ t → (∀ mode, lock.Holds u mode ↔ (locks l).Holds u mode) ∧
      (u ∈ lock.waiting ↔ u ∈ (locks l).waiting))
    (hholds : ∀ mode, lock.Holds t mode ↔ (l, mode) ∈ pc.held)
    (hwaiting : t ∈ lock.waiting ↔ pc.awaits = some (l, .write))
    (hheld : ∀ l' mode, l' ≠ l → ((l', mode) ∈ pc.held ↔ (l', mode) ∈ (threads t).held))
    (hawaits : ∀ l', l' ≠ l →
      (pc.awaits = some (l', .write) ↔ (threads t).awaits = some (l', .write)))
    (hnodup : pc.held.Nodup) : Locked (update locks l lock) (update threads t pc) := by
  refine ⟨fun l' mode u => ?_, fun l' u => ?_, fun u => ?_⟩
  · by_cases hu : u = t
    · subst hu
      rw [Function.update_self]
      by_cases hl : l' = l
      · subst hl
        rw [Function.update_self]
        exact hholds mode
      · rw [Function.update_of_ne hl, hheld l' mode hl]
        exact h.holds l' mode u
    · rw [Function.update_of_ne hu, ← h.holds]
      by_cases hl : l' = l
      · subst hl
        rw [Function.update_self]
        exact (hothers u hu).1 mode
      · rw [Function.update_of_ne hl]
  · by_cases hu : u = t
    · subst hu
      rw [Function.update_self]
      by_cases hl : l' = l
      · subst hl
        rw [Function.update_self]
        exact hwaiting
      · rw [Function.update_of_ne hl, hawaits l' hl]
        exact h.waiting l' u
    · rw [Function.update_of_ne hu, ← h.waiting]
      by_cases hl : l' = l
      · subst hl
        rw [Function.update_self]
        exact (hothers u hu).2
      · rw [Function.update_of_ne hl]
  · by_cases hu : u = t
    · subst hu
      rwa [Function.update_self]
    · rw [Function.update_of_ne hu]
      exact h.nodup u

theorem Locked.goto (h : Locked locks threads) (hheld : pc.held = (threads t).held)
    (hawaits : pc.awaits = (threads t).awaits) : Locked locks (update threads t pc) := by
  have hlocks : Locked (update locks .strings (locks .strings)) (update threads t pc) := h.setLock
    (fun u _ => ⟨fun mode => Iff.rfl, Iff.rfl⟩)
    (fun mode => by rw [hheld]; exact h.holds _ _ _) (by rw [hawaits]; exact h.waiting _ _)
    (fun l' mode _ => by rw [hheld]) (fun l' _ => by rw [hawaits]) (hheld ▸ h.nodup t)
  rwa [Function.update_eq_self] at hlocks

theorem Locked.request (h : Locked locks threads) (ht : threads t = .ready part) :
    Locked (update locks part.lock.1 ((locks part.lock.1).request t part.lock.2))
      (update threads t (.waiting part)) := by
  have hheld : (Pc.waiting part).held = (threads t).held := by rw [ht]; rfl
  have hnone : (threads t).awaits = none := by rw [ht]; rfl
  apply h.setLock
  · intro u hu
    exact ⟨fun mode => RwLock.holds_request, by simp [hu]⟩
  · intro mode
    rw [RwLock.holds_request, hheld]
    exact h.holds _ _ _
  · have hnot : t ∉ (locks part.lock.1).waiting := by
      rw [h.waiting, hnone]
      simp
    rw [RwLock.mem_waiting_request, Pc.awaits, Option.some_inj, Prod.ext_iff]
    simp [hnot]
  · intro l' mode _
    rw [hheld]
  · intro l' hl
    rw [hnone, Pc.awaits, Option.some_inj]
    refine ⟨fun heq => absurd (congrArg Prod.fst heq) (Ne.symm hl), ?_⟩
    rintro ⟨⟩
  · rw [hheld]
    exact h.nodup t

theorem Locked.acquire (h : Locked locks threads) (ht : threads t = .waiting part)
    (hfree : (locks part.lock.1).grantable part.lock.2 = true) :
    Locked (update locks part.lock.1 ((locks part.lock.1).acquire t part.lock.2))
      (update threads t (.inside part)) := by
  have hheld : ∀ l mode, (l, mode) ∈ (Pc.inside part).held ↔
      (l, mode) ∈ (threads t).held ∨ (l, mode) = part.lock := by
    intro l mode
    rw [ht]
    exact List.mem_cons.trans or_comm
  have hawaits : (threads t).awaits = some part.lock := by rw [ht]; rfl
  apply h.setLock
  · intro u hu
    refine ⟨fun mode => ?_, by simp [hu]⟩
    rw [RwLock.holds_acquire hfree]
    simp [hu]
  · intro mode
    rw [RwLock.holds_acquire hfree, hheld, h.holds, Prod.ext_iff]
    simp [eq_comm]
  · rw [RwLock.mem_waiting_acquire, h.waiting, hawaits, Option.some_inj, Prod.ext_iff]
    simp [Pc.awaits]
  · intro l' mode hl
    rw [hheld, Prod.ext_iff]
    simp [hl]
  · intro l' hl
    rw [hawaits, Option.some_inj, Prod.ext_iff]
    simp [Pc.awaits, Ne.symm hl]
  · exact List.nodup_cons.2 ⟨Section.lock_not_mem_held, Section.nodup_held⟩

theorem Locked.release {guards : List (Lock × RwMode)} {retry : Option String}
    (h : Locked locks threads) (ht : threads t = .leaving ((l, mode) :: guards) retry) :
    Locked (update locks l ((locks l).release t mode))
      (update threads t (.leaving guards retry)) := by
  have hheld : (threads t).held = (l, mode) :: guards := by rw [ht]; rfl
  have hnone : (threads t).awaits = none := by rw [ht]; rfl
  have hnodup := h.nodup t
  rw [hheld, List.nodup_cons] at hnodup
  have hholds : (locks l).Holds t mode := by
    rw [h.holds, hheld]
    exact List.mem_cons_self
  apply h.setLock
  · intro u hu
    refine ⟨fun mode' => ?_, by rw [RwLock.waiting_release]⟩
    rw [RwLock.holds_release hholds]
    simp [hu]
  · intro mode'
    rw [RwLock.holds_release hholds, h.holds, hheld, Pc.held, List.mem_cons]
    constructor
    · rintro ⟨heq | hmem, hne⟩
      · exact absurd ⟨rfl, (congrArg Prod.snd heq).symm⟩ hne
      · exact hmem
    · intro hmem
      refine ⟨.inr hmem, ?_⟩
      rintro ⟨-, rfl⟩
      exact hnodup.1 hmem
  · rw [RwLock.waiting_release, h.waiting, hnone]
    rfl
  · intro l' mode' hl
    rw [hheld, Pc.held, List.mem_cons, Prod.ext_iff]
    simp [hl]
  · intro l' _
    rw [hnone]
    rfl
  · exact hnodup.2

/-- **Every event keeps the locks with the guards.** -/
theorem Locked.next (h : Locked sys.locks sys.threads) (event : Event) :
    Locked (sys.next event).locks (sys.next event).threads := by
  cases event with
  | call t call =>
    by_cases ht : sys.threads t = .idle
    · simp only [System.next, System.call, ht]
      apply h.goto
      · rw [ht]
        cases call <;> rfl
      · rw [ht]
        rfl
    · rwa [System.next, System.call_of_ne_idle ht]
  | step t =>
    cases ht : sys.threads t with
    | idle =>
      simp only [System.next, System.step, ht]
      exact h
    | ready part =>
      simp only [System.next, System.step, ht]
      exact h.request ht
    | waiting part =>
      simp only [System.next, System.step, ht]
      split_ifs with hfree
      · exact h.acquire ht hfree
      · exact h
    | inside part =>
      simp only [System.next, System.step, ht]
      apply h.goto
      · rw [ht]
        exact Section.held_next _
      · rw [ht]
        exact Section.awaits_next _
    | leaving guards retry =>
      cases guards with
      | cons guard guards =>
        simp only [System.next, System.step, ht]
        exact h.release ht
      | nil =>
        cases retry with
        | none | some s =>
          simp only [System.next, System.step, ht]
          exact h.goto (by rw [ht]; rfl) (by rw [ht]; rfl)

theorem locked_initial : Locked initial.locks initial.threads := by
  refine ⟨fun l mode t => ?_, fun l t => ?_, fun t => List.nodup_nil⟩
  · cases mode <;> simp [initial, RwLock.free, RwLock.Holds, Pc.held]
  · simp [initial, RwLock.free, Pc.awaits]

/-! ## Circular waits -/

/-- A call of `intern` has the table for writing and waits for the strings. -/
def InternBlocked (sys : System) : Prop := ∃ t s, sys.threads t = .waiting (.append s)

/-- A call of `stats` has the strings and waits for the table. -/
def StatsBlocked (sys : System) : Prop := ∃ t, sys.threads t = .waiting .statsLookup

/-- **No new wait against the order**: `intern` does not start to wait for the strings while a call
of `stats` has them and waits for the table, nor `stats` for the table while `intern` has it and
waits for the strings. -/
def KeepsOrder (sys : System) : Event → Prop
  | .call _ _ => True
  | .step t => (∀ s, sys.threads t = .ready (.append s) → ¬ StatsBlocked sys) ∧
    (sys.threads t = .ready .statsLookup → ¬ InternBlocked sys)

def Pc.rank : Pc → Nat
  | .waiting (.append _) => 1
  | .waiting (.recheck _) | .waiting (.get _) | .waiting .len | .waiting .statsStrings => 2
  | .waiting (.check _) | .waiting .statsLookup => 3
  | .idle | .ready _ | .inside _ | .leaving _ _ => 0

theorem Pc.awaits_eq_some {request : Lock × RwMode} :
    pc.awaits = some request ↔ ∃ part, pc = .waiting part ∧ part.lock = request := by
  cases pc with
  | waiting part => simp [Pc.awaits]
  | idle => simp [Pc.awaits]
  | ready part => simp [Pc.awaits]
  | inside part => simp [Pc.awaits]
  | leaving guards retry => simp [Pc.awaits]

theorem Pc.rank_eq_zero (h : ∀ part, pc ≠ .waiting part) : pc.rank = 0 := by
  cases pc with
  | waiting part => exact absurd rfl (h part)
  | idle => rfl
  | ready part => rfl
  | inside part => rfl
  | leaving guards retry => rfl

theorem Locked.of_blocks (h : Locked sys.locks sys.threads)
    (hblocks : (sys.locks l).Blocks u mode) :
    (mode = .read ∧ (sys.threads u).awaits = some (l, .write)) ∨
      (l, .write) ∈ (sys.threads u).held ∨
        mode = .write ∧ (l, .read) ∈ (sys.threads u).held := by
  cases mode with
  | read =>
    rcases hblocks with hwriter | hwaiting
    · exact .inr (.inl ((h.holds l .write u).1 hwriter))
    · exact .inl ⟨rfl, (h.waiting l u).1 hwaiting⟩
  | write =>
    rcases hblocks with hwriter | hreader
    · exact .inr (.inl ((h.holds l .write u).1 hwriter))
    · exact .inr (.inr ⟨rfl, (h.holds l .read u).1 hreader⟩)

theorem WaitsFor.rank_lt (h : Locked sys.locks sys.threads)
    (hfree : ¬ (InternBlocked sys ∧ StatsBlocked sys)) (hwaits : WaitsFor sys t u) :
    (sys.threads u).rank < (sys.threads t).rank := by
  obtain ⟨l, mode, hawaits, hblocks⟩ := hwaits
  obtain ⟨part, ht, hlock⟩ := Pc.awaits_eq_some.1 hawaits
  have hway := h.of_blocks hblocks
  have hpos : 0 < (sys.threads t).rank := by
    rw [ht]
    cases part <;> simp [Pc.rank]
  by_cases hu : ∃ part', sys.threads u = .waiting part'
  · obtain ⟨part', hu⟩ := hu
    have hclash : ∀ s, ¬ (part = .append s ∧ part' = .statsLookup) := by
      rintro s ⟨rfl, rfl⟩
      exact hfree ⟨⟨t, s, ht⟩, ⟨u, hu⟩⟩
    rw [hu, Pc.awaits, Option.some_inj] at hway
    rw [ht, hu]
    cases part with
    | append s =>
      cases hlock
      cases part' with
      | statsLookup => exact absurd ⟨rfl, rfl⟩ (hclash s)
      | _ => simp [Section.lock, Pc.held, Section.held] at hway
    | _ =>
      cases hlock
      cases part' <;> simp [Section.lock, Pc.held, Section.held, Pc.rank] at hway ⊢
  · rw [Pc.rank_eq_zero fun part' hpart' => hu ⟨part', hpart'⟩]
    exact hpos

/-- **Threads wait in a cycle** exactly if a call of `intern` and one of `stats` do. -/
theorem noCircularWait_iff (h : Locked sys.locks sys.threads) :
    NoCircularWait sys ↔ ¬ (InternBlocked sys ∧ StatsBlocked sys) := by
  constructor
  · rintro hacyclic ⟨⟨t, s, ht⟩, ⟨u, hu⟩⟩
    have htu : WaitsFor sys t u := by
      refine ⟨.strings, .write, by rw [ht]; rfl, .inr ?_⟩
      refine (h.holds .strings .read u).2 ?_
      rw [hu]
      exact List.mem_cons_self
    have hut : WaitsFor sys u t := by
      refine ⟨.lookup, .read, by rw [hu]; rfl, .inl ?_⟩
      refine (h.holds .lookup .write t).2 ?_
      rw [ht]
      exact List.mem_cons_self
    exact hacyclic t (.tail (.single htu) hut)
  · intro hfree
    exact acyclic_of_rank (fun t => (sys.threads t).rank) fun t u hwaits => hwaits.rank_lt h hfree

theorem System.waiting_of_next (h : (sys.next event).threads u = .waiting part) :
    sys.threads u = .waiting part ∨ event = .step u ∧ sys.threads u = .ready part := by
  have hgoto : ∀ {t pc}, update sys.threads t pc u = .waiting part →
      sys.threads u = .waiting part ∨ u = t ∧ pc = .waiting part := by
    intro t pc hpc
    by_cases hu : u = t
    · subst hu
      rw [Function.update_self] at hpc
      exact .inr ⟨rfl, hpc⟩
    · rw [Function.update_of_ne hu] at hpc
      exact .inl hpc
  cases event with
  | call t call =>
    by_cases ht : sys.threads t = .idle
    · simp only [System.next, System.call, ht, System.threads_goto] at h
      obtain h | ⟨-, h⟩ := hgoto h
      · exact .inl h
      · cases h
    · rw [System.next, System.call_of_ne_idle ht] at h
      exact .inl h
  | step t =>
    cases ht : sys.threads t with
    | idle =>
      simp only [System.next, System.step, ht] at h
      exact .inl h
    | ready part' =>
      simp only [System.next, System.step, ht, System.threads_goto, System.threads_setLock] at h
      obtain h | ⟨hu, hpart⟩ := hgoto h
      · exact .inl h
      · cases hpart
        exact .inr ⟨by rw [hu], by rw [hu, ht]⟩
    | waiting part' =>
      simp only [System.next, System.step, ht] at h
      split_ifs at h
      · obtain h | ⟨-, h⟩ := hgoto h
        · exact .inl h
        · cases h
      · exact .inl h
    | inside part' =>
      simp only [System.next, System.step, ht, System.threads_goto] at h
      obtain h | ⟨-, h⟩ := hgoto h
      · exact .inl h
      · have hnone : (part'.next sys.interner).awaits = none := Section.awaits_next _
        rw [h] at hnone
        cases hnone
    | leaving guards retry =>
      cases guards with
      | cons guard guards =>
        simp only [System.next, System.step, ht, System.threads_goto, System.threads_setLock] at h
        obtain h | ⟨-, h⟩ := hgoto h
        · exact .inl h
        · cases h
      | nil =>
        cases retry with
        | none | some s =>
          simp only [System.next, System.step, ht, System.threads_goto] at h
          obtain h | ⟨-, h⟩ := hgoto h
          · exact .inl h
          · cases h

/-- **A step keeps threads from waiting in a cycle** exactly if it keeps the order. -/
theorem blocked_next_iff (hfree : ¬ (InternBlocked sys ∧ StatsBlocked sys)) :
    ¬ (InternBlocked (sys.next event) ∧ StatsBlocked (sys.next event)) ↔ KeepsOrder sys event := by
  constructor
  · intro hnext
    cases event with
    | call t call => trivial
    | step t =>
      have hstep : ∀ part, sys.threads t = .ready part →
          ((sys.next (.step t)).threads t = .waiting part ∧
            ∀ u, u ≠ t → (sys.next (.step t)).threads u = sys.threads u) := by
        intro part ht
        simp only [System.next, System.step, ht, System.threads_goto, System.threads_setLock]
        exact ⟨Function.update_self _ _ _, fun u hu => Function.update_of_ne hu _ _⟩
      constructor
      · rintro s ht ⟨u, hu⟩
        obtain ⟨hwaits, hothers⟩ := hstep _ ht
        have hne : u ≠ t := by
          rintro rfl
          rw [ht] at hu
          cases hu
        exact hnext ⟨⟨t, s, hwaits⟩, ⟨u, by rw [hothers u hne, hu]⟩⟩
      · rintro ht ⟨u, s, hu⟩
        obtain ⟨hwaits, hothers⟩ := hstep _ ht
        have hne : u ≠ t := by
          rintro rfl
          rw [ht] at hu
          cases hu
        exact hnext ⟨⟨u, s, by rw [hothers u hne, hu]⟩, ⟨t, hwaits⟩⟩
  · rintro hkeeps ⟨⟨t, s, ht⟩, ⟨u, hu⟩⟩
    obtain hwaited | ⟨rfl, hready⟩ := System.waiting_of_next ht
    · obtain hwaited' | ⟨rfl, hready'⟩ := System.waiting_of_next hu
      · exact hfree ⟨⟨t, s, hwaited⟩, ⟨u, hwaited'⟩⟩
      · exact hkeeps.2 hready' ⟨t, s, hwaited⟩
    · obtain hwaited' | ⟨heq, hready'⟩ := System.waiting_of_next hu
      · exact hkeeps.1 s hready ⟨u, hwaited'⟩
      · cases heq
        rw [hready] at hready'
        cases hready'

/-! ## Ids -/

def Section.string : Section → Option String
  | .check s | .recheck s | .append s => some s
  | .get _ | .len | .statsStrings | .statsLookup => none

def Pc.string : Pc → Option String
  | .ready part | .waiting part | .inside part => part.string
  | .leaving _ retry => retry
  | .idle => none

def Pc.appends : Pc → Option String
  | .ready (.append s) | .waiting (.append s) | .inside (.append s) => some s
  | .ready _ | .waiting _ | .inside _ | .leaving _ _ | .idle => none

/-- The table has the places of the strings, and what was returned agrees with it. -/
structure Interned (all : Finset String) (sys : System) : Prop where
  lookup : ∀ s id, sys.interner.lookup s = some id ↔ sys.interner.strings[id]? = some s
  strings : ∀ s ∈ sys.interner.strings, s ∈ all
  threads : ∀ t s, (sys.threads t).string = some s → s ∈ all
  pending : ∀ t s, (sys.threads t).appends = some s → sys.interner.lookup s = none
  interned : ∀ s id, .interned s id ∈ sys.results → sys.interner.lookup s = some id
  got : ∀ before id found after, sys.results = before ++ .got id found :: after →
    ∀ s, .interned s id ∈ before → found = some s

variable {all : Finset String}

/-- A thread goes on with a string of the run, and with one to append only if it is missing. -/
theorem Interned.goto (h : Interned all sys) (hstring : ∀ s, pc.string = some s → s ∈ all)
    (happends : ∀ s, pc.appends = some s → sys.interner.lookup s = none) :
    Interned all (sys.goto t pc) := by
  refine ⟨h.lookup, h.strings, fun u s hs => ?_, fun u s hs => ?_, h.interned, h.got⟩
  · rw [System.threads_goto] at hs
    by_cases hu : u = t
    · subst hu
      rw [Function.update_self] at hs
      exact hstring s hs
    · rw [Function.update_of_ne hu] at hs
      exact h.threads u s hs
  · rw [System.threads_goto] at hs
    by_cases hu : u = t
    · subst hu
      rw [Function.update_self] at hs
      exact happends s hs
    · rw [Function.update_of_ne hu] at hs
      exact h.pending u s hs

theorem Interned.return (h : Interned all sys) (result : Result)
    (hinterned : ∀ s id, result = .interned s id → sys.interner.lookup s = some id)
    (hgot : ∀ id found, result = .got id found → found = sys.interner.strings[id]?) :
    Interned all { sys with results := sys.results ++ [result] } := by
  refine ⟨h.lookup, h.strings, h.threads, h.pending, fun s id hs => ?_, ?_⟩
  · rcases List.mem_append.1 hs with hs | hs
    · exact h.interned s id hs
    · exact hinterned s id (List.mem_singleton.1 hs).symm
  · intro before id found after heq s hs
    change sys.results ++ [result] = before ++ .got id found :: after at heq
    rcases List.eq_nil_or_concat after with rfl | ⟨after, last, rfl⟩
    · obtain ⟨rfl, hresult⟩ := List.append_inj' heq rfl
      rw [hgot id found (List.singleton_inj.1 hresult)]
      exact (h.lookup s id).1 (h.interned s id hs)
    · have heq' : sys.results ++ [result] = (before ++ .got id found :: after) ++ [last] := by
        rw [heq]
        simp
      obtain ⟨hresults, -⟩ := List.append_inj' heq' rfl
      exact h.got before id found after hresults s hs

theorem Interned.nodup (h : Interned all sys) : sys.interner.strings.Nodup := by
  rw [List.nodup_iff_injective_getElem]
  intro i j hij
  have hi := (h.lookup _ _).2 (List.getElem?_eq_getElem i.2)
  have hj := (h.lookup _ _).2 (List.getElem?_eq_getElem j.2)
  have hij' : sys.interner.strings[i.1] = sys.interner.strings[j.1] := hij
  rw [hij', hj, Option.some_inj] at hi
  exact Fin.ext hi.symm

theorem Interned.length_lt (h : Interned all sys) (hs : s ∈ all)
    (hmissing : sys.interner.lookup s = none) : sys.interner.strings.length < all.card := by
  have hnot : s ∉ sys.interner.strings := by
    intro hmem
    obtain ⟨id, hid⟩ := List.mem_iff_getElem?.1 hmem
    rw [(h.lookup s id).2 hid] at hmissing
    cases hmissing
  have hsub : (s :: sys.interner.strings).toFinset ⊆ all := by
    intro x hx
    rcases List.mem_cons.1 (List.mem_toFinset.1 hx) with rfl | hx
    · exact hs
    · exact h.strings x hx
  have hcard := Finset.card_le_card hsub
  rwa [List.toFinset_card_of_nodup (List.nodup_cons.2 ⟨hnot, h.nodup⟩)] at hcard

theorem Pc.held_of_appends (h : pc.appends = some s) : (Lock.lookup, RwMode.write) ∈ pc.held := by
  unfold Pc.appends at h
  split at h
  · exact List.mem_cons_self
  · exact List.mem_cons_self
  · exact List.mem_cons_of_mem _ List.mem_cons_self
  all_goals cases h

theorem Interned.append (h : Interned all sys) (hlocked : Locked sys.locks sys.threads)
    (hcard : all.card ≤ 2 ^ 32) (ht : sys.threads t = .inside (.append s)) :
    Interned all (sys.next (.step t)) := by
  have hmissing : sys.interner.lookup s = none := h.pending t s (by rw [ht]; rfl)
  have hs : s ∈ all := h.threads t s (by rw [ht]; rfl)
  have hid : sys.interner.strings.length % 2 ^ 32 = sys.interner.strings.length :=
    Nat.mod_eq_of_lt ((h.length_lt hs hmissing).trans_le hcard)
  have hnot : ∀ s' id, sys.interner.lookup s' = some id → s' ≠ s := by
    rintro s' id hs' rfl
    rw [hmissing] at hs'
    cases hs'
  simp only [System.next, System.step, ht, Section.perform, Section.result, Option.toList_some, hid]
  constructor
  · intro s' id
    change update sys.interner.lookup s _ s' = some id ↔
      (sys.interner.strings ++ [s])[id]? = some s'
    by_cases hs' : s' = s
    · subst hs'
      rw [Function.update_self, Option.some_inj, List.getElem?_append]
      split_ifs with hlt
      · constructor
        · rintro rfl
          exact absurd hlt (lt_irrefl _)
        · intro hget
          exact absurd rfl (hnot s' id ((h.lookup s' id).2 hget))
      · rw [List.getElem?_singleton]
        split_ifs with hzero
        · simp only [iff_true]
          omega
        · simp only [iff_false]
          omega
    · rw [Function.update_of_ne hs', h.lookup, List.getElem?_append]
      split_ifs with hlt
      · exact Iff.rfl
      · rw [List.getElem?_eq_none (Nat.not_lt.1 hlt), List.getElem?_singleton]
        split_ifs
        · simp [Ne.symm hs']
        · exact Iff.rfl
  · intro s' hs'
    rcases List.mem_append.1 hs' with hs' | hs'
    · exact h.strings s' hs'
    · rwa [List.mem_singleton.1 hs']
  · intro u s' hu
    rw [System.threads_goto] at hu
    by_cases hut : u = t
    · subst hut
      rw [Function.update_self] at hu
      cases hu
    · rw [Function.update_of_ne hut] at hu
      exact h.threads u s' hu
  · intro u s' hu
    rw [System.threads_goto] at hu
    by_cases hut : u = t
    · subst hut
      rw [Function.update_self] at hu
      cases hu
    · rw [Function.update_of_ne hut] at hu
      -- nobody else has the table for writing
      have hwriter := (hlocked.holds .lookup .write u).2 (Pc.held_of_appends hu)
      have hwriter' := (hlocked.holds .lookup .write t).2 (by rw [ht]; simp [Pc.held, Section.held])
      exact absurd (Option.some_inj.1 (hwriter.symm.trans hwriter')) hut
  · intro s' id hs'
    change update sys.interner.lookup s _ s' = some id
    rcases List.mem_append.1 hs' with hs' | hs'
    · have hold := h.interned s' id hs'
      rwa [Function.update_of_ne (hnot s' id hold)]
    · obtain ⟨rfl, rfl⟩ := Result.interned.inj (List.mem_singleton.1 hs')
      rw [Function.update_self]
  · intro before id found after heq s' hs'
    rcases List.eq_nil_or_concat after with rfl | ⟨after, last, rfl⟩
    · obtain ⟨-, hresult⟩ := List.append_inj' heq rfl
      cases List.singleton_inj.1 hresult
    · have heq' : sys.results ++ [.interned s sys.interner.strings.length] =
          (before ++ .got id found :: after) ++ [last] := heq.trans (by simp)
      obtain ⟨hresults, -⟩ := List.append_inj' heq' rfl
      exact h.got before id found after hresults s' hs'

theorem Interned.inside (h : Interned all sys) (ht : sys.threads t = .inside part)
    (hpart : ∀ s, part ≠ .append s) : Interned all (sys.next (.step t)) := by
  have hstring : ∀ s, part.string = some s → s ∈ all := fun s hs =>
    h.threads t s (by rw [ht]; exact hs)
  have hsame : part.perform sys.interner = sys.interner := by
    cases part with
    | append s => exact absurd rfl (hpart s)
    | _ => rfl
  have hresult : Interned all
      { sys with results := sys.results ++ (part.result sys.interner).toList } := by
    cases hr : part.result sys.interner with
    | none => simpa only [Option.toList_none, List.append_nil] using h
    | some result =>
      apply h.return
      · rintro s id rfl
        cases part with
        | append s' => exact absurd rfl (hpart s')
        | check s' | recheck s' =>
          obtain ⟨id', hid, heq⟩ := Option.map_eq_some_iff.1 hr
          cases heq
          exact hid
        | get | len | statsStrings | statsLookup => cases hr
      · rintro id found rfl
        cases part with
        | append s' => exact absurd rfl (hpart s')
        | check s' | recheck s' =>
          obtain ⟨id', -, heq⟩ := Option.map_eq_some_iff.1 hr
          cases heq
        | get id' =>
          cases hr
          rfl
        | len | statsStrings | statsLookup => cases hr
  simp only [System.next, System.step, ht, hsame]
  apply hresult.goto
  · intro s hs
    cases part with
    | append s' => exact absurd rfl (hpart s')
    | check s' =>
      simp only [Section.next, Pc.string] at hs
      split_ifs at hs
      exact hstring s hs
    | recheck s' =>
      simp only [Section.next] at hs
      split_ifs at hs
      · cases hs
      · exact hstring s hs
    | get | len | statsStrings | statsLookup => cases hs
  · intro s hs
    cases part with
    | append s' => exact absurd rfl (hpart s')
    | recheck s' =>
      simp only [Section.next] at hs
      split_ifs at hs with hmissing
      · cases hs
      · cases hs
        exact Option.not_isSome_iff_eq_none.1 hmissing
    | check | get | len | statsStrings | statsLookup => cases hs

/-- **Every event keeps the ids**, as long as there are no more strings than ids. -/
theorem Interned.next (h : Interned all sys) (hlocked : Locked sys.locks sys.threads)
    (hcard : all.card ≤ 2 ^ 32) (hevent : ∀ t s, event = .call t (.intern s) → s ∈ all) :
    Interned all (sys.next event) := by
  cases event with
  | call t call =>
    by_cases ht : sys.threads t = .idle
    · simp only [System.next, System.call, ht]
      apply Interned.goto
      · cases call with
        | intern s => exact ⟨h.lookup, h.strings, h.threads, h.pending, h.interned, h.got⟩
        | get id => exact h
        | len => exact h
        | stats => exact h
      · cases call with
        | intern s =>
          rintro s' ⟨⟩
          exact hevent t s rfl
        | get id => rintro s' ⟨⟩
        | len => rintro s' ⟨⟩
        | stats => rintro s' ⟨⟩
      · cases call <;> rintro s' ⟨⟩
    · rwa [System.next, System.call_of_ne_idle ht]
  | step t =>
    have hstring : ∀ s, (sys.threads t).string = some s → s ∈ all := h.threads t
    have happends : ∀ s, (sys.threads t).appends = some s → sys.interner.lookup s = none :=
      h.pending t
    cases ht : sys.threads t with
    | idle =>
      simp only [System.next, System.step, ht]
      exact h
    | ready part =>
      rw [ht] at hstring happends
      simp only [System.next, System.step, ht]
      apply Interned.goto
      · exact ⟨h.lookup, h.strings, h.threads, h.pending, h.interned, h.got⟩
      · exact hstring
      · cases part <;> exact happends
    | waiting part =>
      rw [ht] at hstring happends
      simp only [System.next, System.step, ht]
      split_ifs with hfree
      · apply Interned.goto
        · exact ⟨h.lookup, h.strings, h.threads, h.pending, h.interned, h.got⟩
        · exact hstring
        · cases part <;> exact happends
      · exact h
    | inside part =>
      by_cases hpart : ∃ s, part = .append s
      · obtain ⟨s, rfl⟩ := hpart
        exact h.append hlocked hcard ht
      · exact h.inside ht fun s hs => hpart ⟨s, hs⟩
    | leaving guards retry =>
      rw [ht] at hstring
      cases guards with
      | cons guard guards =>
        simp only [System.next, System.step, ht]
        apply Interned.goto
        · exact ⟨h.lookup, h.strings, h.threads, h.pending, h.interned, h.got⟩
        · exact hstring
        · rintro s' ⟨⟩
      | nil =>
        cases retry with
        | none =>
          simp only [System.next, System.step, ht]
          exact h.goto (by rintro s' ⟨⟩) (by rintro s' ⟨⟩)
        | some s =>
          simp only [System.next, System.step, ht]
          exact h.goto hstring (by rintro s' ⟨⟩)

theorem interned_initial : Interned all initial := by
  constructor
  · intro s id
    simp [initial]
  · intro s hs
    cases hs
  · rintro t s ⟨⟩
  · rintro t s ⟨⟩
  · intro s id hs
    cases hs
  · intro before id found after heq
    simp [initial] at heq

theorem Interned.idsRight (h : Interned all sys) : IdsRight sys.results := by
  refine ⟨fun s id s' id' hs hs' => ?_, h.got⟩
  have hid := h.interned s id hs
  have hid' := h.interned s' id' hs'
  constructor
  · rintro rfl
    rw [h.lookup] at hid hid'
    exact Option.some_inj.1 (hid.symm.trans hid')
  · rintro rfl
    exact Option.some_inj.1 (hid.symm.trans hid')

/-! ## Runs -/

theorem keeps_run {before later events : List Event} (heq : events = before ++ later)
    (hcard : (internedStrings events).toFinset.card ≤ 2 ^ 32) :
    Locked (before.foldl System.next initial).locks (before.foldl System.next initial).threads ∧
      Interned (internedStrings events).toFinset (before.foldl System.next initial) := by
  induction before using List.reverseRecOn generalizing later with
  | nil => exact ⟨locked_initial, interned_initial⟩
  | append_singleton before event ih =>
    have hbefore : events = before ++ event :: later := by rw [heq]; simp
    obtain ⟨hlocked, hinterned⟩ := ih hbefore
    rw [List.foldl_concat]
    refine ⟨hlocked.next event, hinterned.next hlocked hcard ?_⟩
    rintro t s rfl
    rw [List.mem_toFinset]
    exact List.mem_filterMap.2 ⟨.call t (.intern s), by rw [heq]; simp, rfl⟩

/-- **The ids are right in every run** with no more strings than ids, and the run is right exactly
if no step makes a call of `intern` and one of `stats` wait for each other. -/
theorem correct_iff (events : List Event)
    (hcard : (internedStrings events).toFinset.card ≤ 2 ^ 32) :
    (∀ before later, events = before ++ later →
      IdsRight (before.foldl System.next initial).results) ∧
    ((∀ before later, events = before ++ later →
      IdsRight (before.foldl System.next initial).results ∧
        NoCircularWait (before.foldl System.next initial)) ↔
      ∀ before event later, events = before ++ event :: later →
        KeepsOrder (before.foldl System.next initial) event) := by
  have hids : ∀ before later, events = before ++ later →
      IdsRight (before.foldl System.next initial).results := fun before later heq =>
    (keeps_run heq hcard).2.idsRight
  have hruns : (∀ before later, events = before ++ later →
      NoCircularWait (before.foldl System.next initial)) ↔
        ∀ before event later, events = before ++ event :: later →
          KeepsOrder (before.foldl System.next initial) event := by
    have hinitial : NoCircularWait initial := by
      rw [noCircularWait_iff locked_initial]
      rintro ⟨⟨t, s, ⟨⟩⟩, -⟩
    have hnext : ∀ sys event, Locked sys.locks sys.threads → NoCircularWait sys →
        NoCircularWait (sys.next event) → Locked (sys.next event).locks (sys.next event).threads :=
      fun sys event hlocked _ _ => hlocked.next event
    refine forall_states_iff hinitial locked_initial hnext ?_
    intro sys event hlocked hfree
    rw [noCircularWait_iff (hlocked.next event)]
    exact blocked_next_iff ((noCircularWait_iff hlocked).1 hfree)
  refine ⟨hids, ?_⟩
  rw [← hruns]
  constructor
  · exact fun h before later heq => (h before later heq).2
  · exact fun h before later heq => ⟨hids before later heq, h before later heq⟩

/-- A thread gets to the strings for `"a"`, while another has them for `stats`. -/
def crossing : List Event :=
  [.call 0 (.intern "a"), .step 0, .step 0, .step 0, .step 0, .step 0, .step 0, .step 0, .step 0,
    .call 1 .stats, .step 1, .step 1, .step 1, .step 1, .step 0]

theorem correct_iff_crossing : (internedStrings crossing).toFinset.card ≤ 2 ^ 32 ∧
    (∀ before later, crossing = before ++ later →
      IdsRight (before.foldl System.next initial).results) ∧
    ((∀ before later, crossing = before ++ later →
      IdsRight (before.foldl System.next initial).results ∧
        NoCircularWait (before.foldl System.next initial)) ↔
      ∀ before event later, crossing = before ++ event :: later →
        KeepsOrder (before.foldl System.next initial) event) :=
  ⟨by decide +kernel, correct_iff crossing (by decide +kernel)⟩

/-- The two wait for each other. -/
theorem not_correct_crossing : (internedStrings crossing).toFinset.card ≤ 2 ^ 32 ∧
    ¬ ∀ before later, crossing = before ++ later →
      IdsRight (before.foldl System.next initial).results ∧
        NoCircularWait (before.foldl System.next initial) := by
  refine ⟨by decide +kernel, fun h => ?_⟩
  have hcard : (internedStrings crossing).toFinset.card ≤ 2 ^ 32 := by decide +kernel
  have hall : crossing = crossing ++ [] := (List.append_nil _).symm
  refine (noCircularWait_iff (keeps_run hall hcard).1).1 (h crossing [] hall).2 ⟨?_, ?_⟩
  · exact ⟨0, "a", by decide +kernel⟩
  · exact ⟨1, by decide +kernel⟩

end TldrCode.Callgraph.Interning
