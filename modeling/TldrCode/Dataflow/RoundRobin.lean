import TldrCode.Graph.Walk
import Mathlib.Data.Finset.Lattice.Basic
import Mathlib.Data.Finset.SDiff

/-!
# Round-robin iteration of gen/kill problems

A gen/kill problem assigns each node the facts it generates and the facts it kills. Its solutions
are computed in place: a visit of a node joins what its predecessors end with and passes it through
the node. `mem_after_run` and `mem_before_run` say what is known once the nodes of a schedule have
been visited in order: a fact gets along the walks that are sublists of the schedule. `solve`
repeats a list of nodes until nothing changes or the rounds run out (`solve_eq_run`).
-/

namespace TldrCode.Dataflow

open Function (update)
open TldrCode.Graph
open scoped List

variable {ν δ : Type*}

/-- A gen/kill problem over the nodes `ν` and the facts `δ`. -/
structure GenKill (ν δ : Type*) where
  preds : ν → List ν
  gen : ν → Finset δ
  kill : ν → Finset δ

/-- The facts known before and after each node. -/
structure Solution (ν δ : Type*) where
  before : ν → Finset δ
  after : ν → Finset δ

/-! ## Rounds of visits -/

section Rounds

variable [DecidableEq δ] (visit : Solution ν δ → ν → Solution ν δ)

/-- A visit in a round, which notes whether it has changed anything about the node. -/
def noting (state : Solution ν δ × Bool) (b : ν) : Solution ν δ × Bool :=
  let sol := visit state.1 b
  (sol, state.2 || sol.before b != state.1.before b || sol.after b != state.1.after b)

/-- Rounds of visits until one changes nothing, at most as many as given. -/
def solveRounds (nodes : List ν) : Nat → Solution ν δ → Solution ν δ
  | 0, sol => sol
  | rounds + 1, sol =>
    let (sol', changed) := nodes.foldl (noting visit) (sol, false)
    if changed then solveRounds nodes rounds sol' else sol'

/-- A visit that changes nothing about its node changes nothing. -/
def Local : Prop := ∀ sol b, (visit sol b).before b = sol.before b →
  (visit sol b).after b = sol.after b → visit sol b = sol

variable {visit}

omit [DecidableEq δ] in
theorem local_of_update [DecidableEq ν] (h : ∀ sol b, ∃ s t,
    visit sol b = ⟨Function.update sol.before b s, Function.update sol.after b t⟩) :
    Local visit := by
  intro sol b hb ha
  obtain ⟨s, t, h⟩ := h sol b
  rw [h] at hb ha
  dsimp only at hb ha
  rw [Function.update_self] at hb ha
  rw [h, hb, ha, Function.update_eq_self, Function.update_eq_self]

/-- A round visits the nodes in order, and if it notes no change there is none. -/
theorem noting_foldl (hvisit : Local visit) (nodes : List ν) :
    ∀ (sol : Solution ν δ) (changed : Bool),
      (nodes.foldl (noting visit) (sol, changed)).1 = nodes.foldl visit sol ∧
      ((nodes.foldl (noting visit) (sol, changed)).2 = false →
        changed = false ∧ nodes.foldl visit sol = sol) := by
  induction nodes with
  | nil => exact fun sol changed => ⟨rfl, fun h => ⟨h, rfl⟩⟩
  | cons b nodes ih =>
    intro sol changed
    obtain ⟨h₁, h₂⟩ := ih (visit sol b) (changed || (visit sol b).before b != sol.before b ||
      (visit sol b).after b != sol.after b)
    refine ⟨h₁, fun h => ?_⟩
    obtain ⟨hchanged, hrun⟩ := h₂ h
    simp only [Bool.or_eq_false_iff, bne_eq_false_iff_eq] at hchanged
    obtain ⟨⟨hc, hb⟩, ha⟩ := hchanged
    have hself := hvisit sol b hb ha
    rw [hself] at hrun
    exact ⟨hc, by rw [List.foldl_cons, hself]; exact hrun⟩

/-- **Stopping early loses nothing**: all the rounds are made. -/
theorem solveRounds_eq_foldl (hvisit : Local visit) (nodes : List ν) :
    ∀ (rounds : Nat) (sol : Solution ν δ),
      solveRounds visit nodes rounds sol =
        (List.replicate rounds nodes).flatten.foldl visit sol := by
  intro rounds
  induction rounds with
  | zero => exact fun sol => rfl
  | succ rounds ih =>
    intro sol
    obtain ⟨h₁, h₂⟩ := noting_foldl hvisit nodes sol false
    rw [List.replicate_succ, List.flatten_cons, List.foldl_append, solveRounds]
    simp only [h₁]
    cases hchanged : (nodes.foldl (noting visit) (sol, false)).2 with
    | true => exact ih _
    | false =>
      obtain ⟨-, hrun⟩ := h₂ hchanged
      rw [hrun]
      have hstay : ∀ n, (List.replicate n nodes).flatten.foldl visit sol = sol := by
        intro n
        induction n with
        | zero => rfl
        | succ n ih => rw [List.replicate_succ, List.flatten_cons, List.foldl_append, hrun, ih]
      simp [hstay]

end Rounds

namespace GenKill

/-- There is a flow from `a` to `b`. -/
def Edge (P : GenKill ν δ) (a b : ν) : Prop := a ∈ P.preds b

variable {P : GenKill ν δ} {sol init : Solution ν δ} {S l nodes : List ν} {a b c : ν} {d : δ}

/-! ## Schedules -/

theorem sublist_concat_iff : l <+ S ++ [c] ↔ l <+ S ∨ ∃ l', l = l' ++ [c] ∧ l' <+ S := by
  rw [List.sublist_append_iff]
  constructor
  · rintro ⟨l₁, l₂, rfl, h₁, h₂⟩
    rcases List.sublist_singleton.1 h₂ with rfl | rfl
    · exact .inl (by simpa using h₁)
    · exact .inr ⟨l₁, rfl, h₁⟩
  · rintro (h | ⟨l', rfl, h⟩)
    · exact ⟨l, [], by simp, h, List.nil_sublist _⟩
    · exact ⟨l', [c], rfl, h, .refl _⟩

/-- The fact `d` gets along `a :: l`: it holds after `a` from the start, or `a` generates it and is
visited before. -/
def Scheduled (P : GenKill ν δ) (init : Solution ν δ) (S : List ν) (d : δ) (a : ν) (l : List ν) :
    Prop :=
  d ∈ init.after a ∧ l <+ S ∨ d ∈ P.gen a ∧ a :: l <+ S

theorem Scheduled.concat (h : Scheduled P init S d a l) :
    Scheduled P init (S ++ [c]) d a (l ++ [c]) :=
  h.imp (fun h => ⟨h.1, h.2.append (.refl _)⟩) fun h => ⟨h.1, h.2.append (.refl _)⟩

theorem Scheduled.of_concat_self (h : Scheduled P init (S ++ [c]) d a (l ++ [c])) :
    Scheduled P init S d a l := by
  have key : ∀ {m : List ν}, m ++ [c] <+ S ++ [c] → m <+ S :=
    fun h => (List.append_sublist_append_right [c]).1 h
  exact h.imp (fun h => ⟨h.1, key h.2⟩) fun h => ⟨h.1, key h.2⟩

theorem scheduled_concat_of_ne (hbc : b ≠ c) (hl : (a :: l).getLast? = some b) :
    Scheduled P init (S ++ [c]) d a l ↔ Scheduled P init S d a l := by
  have key : ∀ {m : List ν}, (m = [] ∨ m.getLast? = some b) → (m <+ S ++ [c] ↔ m <+ S) := by
    intro m hm
    rw [sublist_concat_iff, or_iff_left]
    rintro ⟨m', rfl, -⟩
    rcases hm with hm | hm
    · simp at hm
    · rw [List.getLast?_concat, Option.some_inj] at hm
      exact hbc hm.symm
  have hl' : l = [] ∨ l.getLast? = some b := by
    cases l with
    | nil => exact .inl rfl
    | cons x l => exact .inr (by rwa [List.getLast?_cons_cons] at hl)
  rw [Scheduled, Scheduled, key hl', key (.inr hl)]

theorem sublist_rounds (hl : ∀ x ∈ l, x ∈ nodes) {n : Nat} (hn : l.length ≤ n) :
    l <+ (List.replicate n nodes).flatten := by
  induction l generalizing n with
  | nil => exact List.nil_sublist _
  | cons x l ih =>
    obtain ⟨n, rfl⟩ := Nat.exists_eq_add_of_le' (Nat.one_le_of_lt (Nat.lt_of_lt_of_le
      (Nat.succ_pos l.length) hn))
    rw [List.replicate_succ, List.flatten_cons]
    have h₁ : [x] <+ nodes := List.singleton_sublist.2 (hl x List.mem_cons_self)
    exact h₁.append (ih (fun y hy => hl y (List.mem_cons_of_mem _ hy))
      (by simpa using hn))

/-- A walk after its start can be shortened to one that as many rounds as there are nodes find. -/
theorem exists_scheduled_walk {E : ν → ν → Prop} {ids : List ν} {n : Nat}
    (w : Walk E a b (a :: (l ++ [b]))) (hl : ∀ x ∈ l ++ [b], x ∈ ids)
    (hids : ∀ x ∈ ids, x ∈ nodes) (hn : ids.length ≤ n) :
    ∃ l', Walk E a b (a :: (l' ++ [b])) ∧ (∀ x ∈ l', x ∈ l) ∧
      l' ++ [b] <+ (List.replicate n nodes).flatten := by
  obtain ⟨x, t, ht⟩ := List.exists_cons_of_ne_nil (List.append_ne_nil_of_right_ne_nil l
    (List.cons_ne_nil b []))
  have hedge : E a x := by
    rw [ht] at w
    exact (List.isChain_cons_cons.1 w.chain).1
  have hx : Walk E x b (l ++ [b]) := by
    have w' : Walk E a b ([a] ++ x :: t) := ht ▸ w
    rw [ht]
    exact (Walk.split_iff.1 w').2
  -- a path without detours visits every node at most once
  obtain ⟨l', w', hnodup, hsub⟩ := hx.exists_nodup
  obtain ⟨l', rfl⟩ := w'.eq_concat
  refine ⟨l', w'.cons hedge, fun y hy => ?_, ?_⟩
  · have hyb : y ≠ b := fun he => (List.nodup_append.1 hnodup).2.2 y hy b (by simp) he
    simpa [hyb] using hsub y (List.mem_append_left _ hy)
  · refine sublist_rounds (fun y hy => hids y (hl y (hsub y hy))) ?_
    exact (hnodup.subperm fun y hy => hl y (hsub y hy)).length_le.trans hn

/-! ## Visits and rounds -/

section Visits

variable [DecidableEq δ]

/-- The facts that some node of a list ends with. -/
def join (after : ν → Finset δ) (nodes : List ν) : Finset δ :=
  nodes.foldl (fun facts p => facts ∪ after p) ∅

@[simp] theorem mem_join {after : ν → Finset δ} {nodes : List ν} :
    d ∈ join after nodes ↔ ∃ p ∈ nodes, d ∈ after p := by
  have key : ∀ facts : Finset δ, d ∈ nodes.foldl (fun facts p => facts ∪ after p) facts ↔
      d ∈ facts ∨ ∃ p ∈ nodes, d ∈ after p := by
    induction nodes with
    | nil => simp
    | cons x nodes ih => simp [ih, or_assoc]
  exact (key ∅).trans (by simp)

variable [DecidableEq ν] (P)

def visit (sol : Solution ν δ) (b : ν) : Solution ν δ :=
  let before := join sol.after (P.preds b)
  { before := update sol.before b before
    after := update sol.after b (P.gen b ∪ before \ P.kill b) }

/-- The visit of a node in a round, which notes whether it has changed anything. -/
def visitNoting (state : Solution ν δ × Bool) (b : ν) : Solution ν δ × Bool :=
  let sol := P.visit state.1 b
  (sol, state.2 || sol.before b != state.1.before b || sol.after b != state.1.after b)

/-- Rounds over `nodes` until one changes nothing, at most as many as given. -/
def solve (nodes : List ν) : Nat → Solution ν δ → Solution ν δ
  | 0, sol => sol
  | rounds + 1, sol =>
    let (sol', changed) := nodes.foldl P.visitNoting (sol, false)
    if changed then solve nodes rounds sol' else sol'

/-- How many rounds `solve` makes. -/
def roundsMade (nodes : List ν) : Nat → Solution ν δ → Nat
  | 0, _ => 0
  | rounds + 1, sol =>
    let (sol', changed) := nodes.foldl P.visitNoting (sol, false)
    if changed then roundsMade nodes rounds sol' + 1 else 1

def run (S : List ν) (sol : Solution ν δ) : Solution ν δ := S.foldl P.visit sol

variable {P}

/-! ## Rounds are schedules -/

theorem run_append (S S' : List ν) : P.run (S ++ S') sol = P.run S' (P.run S sol) :=
  List.foldl_append

theorem local_visit : Local P.visit := local_of_update fun _ _ => ⟨_, _, rfl⟩

/-- A round visits the nodes in order, and if it notes no change there is none. -/
theorem visitNoting_foldl (nodes : List ν) : ∀ (sol : Solution ν δ) (changed : Bool),
    (nodes.foldl P.visitNoting (sol, changed)).1 = P.run nodes sol ∧
      ((nodes.foldl P.visitNoting (sol, changed)).2 = false →
        changed = false ∧ P.run nodes sol = sol) :=
  noting_foldl local_visit nodes

theorem solve_eq_solveRounds (nodes : List ν) : ∀ (rounds : Nat) (sol : Solution ν δ),
    P.solve nodes rounds sol = solveRounds P.visit nodes rounds sol := by
  intro rounds
  induction rounds with
  | zero => exact fun sol => rfl
  | succ rounds ih =>
    intro sol
    rw [solve, solveRounds]
    simp only [ih]
    rfl

/-- **Stopping early loses nothing**: `solve` does all its rounds. -/
theorem solve_eq_run (nodes : List ν) (rounds : Nat) (sol : Solution ν δ) :
    P.solve nodes rounds sol = P.run (List.replicate rounds nodes).flatten sol :=
  (solve_eq_solveRounds nodes rounds sol).trans (solveRounds_eq_foldl local_visit nodes rounds sol)

theorem roundsMade_le {k rounds : Nat} (hk : k < rounds) (hstable : ∀ b ∈ nodes,
    P.visit (P.run (List.replicate k nodes).flatten sol) b =
      P.run (List.replicate k nodes).flatten sol) :
    P.roundsMade nodes rounds sol ≤ k + 1 := by
  induction k generalizing rounds sol with
  | zero =>
    have hround : nodes.foldl P.visitNoting (sol, false) = (sol, false) := by
      have key : ∀ l : List ν, (∀ b ∈ l, P.visit sol b = sol) →
          l.foldl P.visitNoting (sol, false) = (sol, false) := by
        intro l hl
        induction l with
        | nil => rfl
        | cons b l ih =>
          have hb : P.visitNoting (sol, false) b = (sol, false) := by
            simp [visitNoting, hl b List.mem_cons_self]
          rw [List.foldl_cons, hb]
          exact ih fun x hx => hl x (List.mem_cons_of_mem _ hx)
      exact key nodes hstable
    obtain ⟨rounds, rfl⟩ := Nat.exists_eq_add_of_lt hk
    simp [roundsMade, hround]
  | succ k ih =>
    obtain ⟨rounds, rfl⟩ := Nat.exists_eq_add_of_lt hk
    have hsucc : k + 1 + rounds + 1 = (k + rounds + 1) + 1 := by omega
    rw [hsucc, roundsMade]
    simp only [(visitNoting_foldl (P := P) nodes sol false).1]
    split
    · refine Nat.succ_le_succ (ih (by omega) fun b hb => ?_)
      have hrun : P.run (List.replicate k nodes).flatten (P.run nodes sol) =
          P.run (List.replicate (k + 1) nodes).flatten sol := by
        rw [List.replicate_succ, List.flatten_cons, run_append]
      rw [hrun]
      exact hstable b hb
    · omega

/-- **What is known after the visits of a schedule.** -/
theorem mem_run (hinit : ∀ b, init.after b ⊆ P.gen b) (hbefore : ∀ b, init.before b = ∅)
    (S : List ν) : ∀ b,
    (d ∈ (P.run S init).after b ↔ ∃ a l, Walk P.Edge a b (a :: l) ∧ (∀ x ∈ l, d ∉ P.kill x) ∧
      Scheduled P init S d a l) ∧
    (d ∈ (P.run S init).before b ↔ ∃ a l, Walk P.Edge a b (a :: (l ++ [b])) ∧
      (∀ x ∈ l, d ∉ P.kill x) ∧ Scheduled P init S d a (l ++ [b])) := by
  induction S using List.reverseRecOn with
  | nil =>
    intro b
    constructor
    · constructor
      · exact fun hd => ⟨b, [], .single b, by simp, .inl ⟨hd, .refl _⟩⟩
      · rintro ⟨a, l, w, -, ⟨hd, hl⟩ | ⟨-, hl⟩⟩
        · obtain rfl := List.sublist_nil.1 hl
          obtain rfl : a = b := by simpa using w.last
          exact hd
        · exact absurd (List.sublist_nil.1 hl) (by simp)
    · simp only [run, List.foldl_nil, hbefore, Finset.notMem_empty, false_iff]
      rintro ⟨a, l, -, -, ⟨-, hl⟩ | ⟨-, hl⟩⟩
      · exact absurd (List.sublist_nil.1 hl) (by simp)
      · exact absurd (List.sublist_nil.1 hl) (by simp)
  | append_singleton S c ih =>
    have hvisit : P.run (S ++ [c]) init = P.visit (P.run S init) c := by simp [run]
    -- what flows into `c` is what its predecessors end with
    have hc : d ∈ join (P.run S init).after (P.preds c) ↔ ∃ a l,
        Walk P.Edge a c (a :: (l ++ [c])) ∧ (∀ x ∈ l, d ∉ P.kill x) ∧
          Scheduled P init (S ++ [c]) d a (l ++ [c]) := by
      rw [mem_join]
      constructor
      · rintro ⟨p, hp, hd⟩
        obtain ⟨a, l, w, hl, hs⟩ := (ih p).1.1 hd
        exact ⟨a, l, w.concat hp, hl, hs.concat⟩
      · rintro ⟨a, l, w, hl, hs⟩
        rw [← List.cons_append] at w
        obtain ⟨p, wp, hp⟩ := w.exists_last_step (List.cons_ne_nil _ _)
        exact ⟨p, hp, (ih p).1.2 ⟨a, l, wp, hl, hs.of_concat_self⟩⟩
    intro b
    rw [hvisit, visit]
    dsimp only
    by_cases hb : b = c
    · subst hb
      rw [Function.update_self, Function.update_self, ← hc]
      refine ⟨?_, Iff.rfl⟩
      rw [Finset.mem_union, Finset.mem_sdiff, hc]
      constructor
      · rintro (hd | ⟨⟨a, l, w, hl, hs⟩, hk⟩)
        · exact ⟨b, [], .single b, by simp, .inr ⟨hd, by simp⟩⟩
        · refine ⟨a, l ++ [b], w, ?_, hs⟩
          simp only [List.mem_append, List.mem_singleton]
          rintro x (hx | rfl)
          · exact hl x hx
          · exact hk
      · rintro ⟨a, l, w, hl, hs⟩
        rcases List.eq_nil_or_concat' l with rfl | ⟨l, x, rfl⟩
        · obtain rfl : a = b := by simpa using w.last
          exact .inl (hs.elim (fun h => hinit _ h.1) And.left)
        · obtain rfl : x = b := by
            have := w.last
            rwa [← List.cons_append, List.getLast?_concat, Option.some_inj] at this
          exact .inr ⟨⟨a, l, w, fun y hy => hl y (by simp [hy]), hs⟩, hl x (by simp)⟩
    · rw [Function.update_of_ne hb, Function.update_of_ne hb, (ih b).1, (ih b).2]
      constructor
      · refine exists_congr fun a => exists_congr fun l => and_congr_right fun w => ?_
        rw [scheduled_concat_of_ne hb w.last]
      · refine exists_congr fun a => exists_congr fun l => and_congr_right fun w => ?_
        rw [scheduled_concat_of_ne hb w.last]

end Visits

end GenKill

end TldrCode.Dataflow
