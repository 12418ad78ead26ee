import Mathlib.Data.Finset.Card
import Mathlib.Order.Monotone.Basic
import TldrCode.Dataflow.RoundRobin
import TldrCode.Graph.MustPath

/-!
# Must analyses from below

A node ends with the facts that it generates, and with those that all its predecessors end with and
it does not kill. Visited in rounds from the facts that are generated, a node ends up with what is
`Delivered` to it in finitely many steps: a fact that only goes around in a loop is not. As many
rounds as there are nodes are enough, for all facts at once (`mem_after_rounds`).
-/

namespace TldrCode.Dataflow

open Function (update)
open TldrCode.Graph
open scoped List

variable {ν δ : Type*}

/-! ## Delivery -/

/-- A node generates the fact, or gets it from all its predecessors and does not kill it. -/
inductive Delivered (preds : ν → List ν) (Gen Kill : ν → Prop) : ν → Prop
  | gen {b : ν} (h : Gen b) : Delivered preds Gen Kill b
  | pass {b : ν} (hpreds : preds b ≠ []) (h : ∀ p ∈ preds b, Delivered preds Gen Kill p)
      (hkill : ¬ Kill b) : Delivered preds Gen Kill b

/-- The node gets the fact from all its predecessors. -/
def DeliveredTo (preds : ν → List ν) (Gen Kill : ν → Prop) (b : ν) : Prop :=
  preds b ≠ [] ∧ ∀ p ∈ preds b, Delivered preds Gen Kill p

section

variable {preds : ν → List ν} {Gen Kill : ν → Prop} {nodes : List ν} {b : ν} {n : Nat}

theorem delivered_iff : Delivered preds Gen Kill b ↔
    Gen b ∨ DeliveredTo preds Gen Kill b ∧ ¬ Kill b := by
  constructor
  · intro h
    cases h with
    | gen h => exact .inl h
    | pass hpreds h hkill => exact .inr ⟨⟨hpreds, h⟩, hkill⟩
  · intro h
    cases h with
    | inl h => exact .gen h
    | inr h => exact .pass h.1.1 h.1.2 h.2

/-- **What is delivered survives all walks** exactly if nothing is delivered to the root, and a node
that takes the fact away in truth, and leads to a node to which it is delivered, has it again at its
end. -/
theorem deliveredTo_survives_iff {E : ν → ν → Prop} {Real Lost : ν → Prop} {r : ν}
    (hpreds : ∀ a b, a ∈ preds b ↔ E a b) (hgen : ∀ b, Gen b → ¬ Lost b → Real b) :
    (∀ b, DeliveredTo preds Gen Kill b → SurvivesAll E Real Lost r b) ↔
      ¬ DeliveredTo preds Gen Kill r ∧ ∀ x b, Reach E r x → E x b → DeliveredTo preds Gen Kill b →
        Lost x → Real x := by
  constructor
  · intro h
    refine ⟨fun hr => not_survivesAll_root (h r hr), fun x b hx hxb hb hlost => ?_⟩
    have hthrough := ((h b hb).through hxb).gen_or hx
    exact hthrough.resolve_right fun hkept => hkept.2 hlost
  · rintro ⟨hroot, hkept⟩
    -- along a walk, by the node before the one to which the fact is delivered
    have key : ∀ l x b, Walk E r x (l ++ [x]) → E x b → DeliveredTo preds Gen Kill b →
        Survives Real Lost (l ++ [x]) := by
      intro l
      induction l using List.reverseRecOn with
      | nil =>
        intro x b w hxb hb
        obtain rfl : x = r := by simpa using w.head
        rw [survives_concat]
        by_cases hlost : Lost x
        · exact .inl (hkept x b ⟨_, w⟩ hxb hb hlost)
        · have hx := delivered_iff.1 (hb.2 x ((hpreds x b).2 hxb))
          exact .inl (hgen x (hx.resolve_right fun hx => hroot hx.1) hlost)
      | append_singleton l a ih =>
        intro x b w hxb hb
        rw [survives_concat]
        by_cases hlost : Lost x
        · exact .inl (hkept x b ⟨_, w⟩ hxb hb hlost)
        · refine (delivered_iff.1 (hb.2 x ((hpreds x b).2 hxb))).imp (fun hx => hgen x hx hlost) ?_
          intro hx
          obtain ⟨a', wa, hax⟩ := w.exists_last_step (by simp)
          obtain rfl : a = a' := by simpa using wa.last
          exact ⟨ih a x wa hax hx.1, hlost⟩
    intro b hb l w
    cases l using List.reverseRecOn with
    | nil =>
      obtain rfl : b = r := by simpa using w.head
      exact absurd hb hroot
    | append_singleton l a =>
      obtain ⟨a', wa, hab⟩ := w.exists_last_step (by simp)
      obtain rfl : a = a' := by simpa using wa.last
      exact key l a b wa hab hb

variable [DecidableEq ν]

variable (preds Gen Kill nodes) in
open Classical in
/-- The nodes to which the fact is delivered in so many steps. -/
noncomputable def stage : Nat → Finset ν
  | 0 => nodes.toFinset.filter Gen
  | n + 1 => nodes.toFinset.filter fun b =>
      Gen b ∨ (preds b ≠ [] ∧ ∀ p ∈ preds b, p ∈ stage n) ∧ ¬ Kill b

theorem mem_stage_zero : b ∈ stage preds Gen Kill nodes 0 ↔ b ∈ nodes ∧ Gen b := by
  simp only [stage, Finset.mem_filter, List.mem_toFinset]

theorem mem_stage_succ : b ∈ stage preds Gen Kill nodes (n + 1) ↔ b ∈ nodes ∧
    (Gen b ∨ (preds b ≠ [] ∧ ∀ p ∈ preds b, p ∈ stage preds Gen Kill nodes n) ∧ ¬ Kill b) := by
  simp only [stage, Finset.mem_filter, List.mem_toFinset]

theorem stage_subset : stage preds Gen Kill nodes n ⊆ nodes.toFinset := by
  intro b hb
  rw [List.mem_toFinset]
  cases n with
  | zero => exact (mem_stage_zero.1 hb).1
  | succ n => exact (mem_stage_succ.1 hb).1

theorem stage_mono : stage preds Gen Kill nodes n ⊆ stage preds Gen Kill nodes (n + 1) := by
  induction n with
  | zero =>
    intro b hb
    obtain ⟨hnode, hgen⟩ := mem_stage_zero.1 hb
    exact mem_stage_succ.2 ⟨hnode, .inl hgen⟩
  | succ n ih =>
    intro b hb
    obtain ⟨hnode, h⟩ := mem_stage_succ.1 hb
    exact mem_stage_succ.2 ⟨hnode, h.imp_right fun h => ⟨⟨h.1.1, fun p hp => ih (h.1.2 p hp)⟩, h.2⟩⟩

theorem stage_stable (hn : nodes.length ≤ n) :
    stage preds Gen Kill nodes (n + 1) = stage preds Gen Kill nodes n := by
  have hmono : Monotone fun k => (stage preds Gen Kill nodes k).card :=
    monotone_nat_of_le_succ fun _ => Finset.card_le_card stage_mono
  have hbound : ∀ k, (stage preds Gen Kill nodes k).card ≤ nodes.length := fun k =>
    (Finset.card_le_card stage_subset).trans nodes.toFinset_card_le
  have heq : ∀ k, (stage preds Gen Kill nodes k).card = (stage preds Gen Kill nodes (k + 1)).card →
      stage preds Gen Kill nodes k = stage preds Gen Kill nodes (k + 1) := fun k h =>
    Finset.eq_of_subset_of_card_le stage_mono h.ge
  have hstay : ∀ k, (stage preds Gen Kill nodes k).card =
    (stage preds Gen Kill nodes (k + 1)).card →
      (stage preds Gen Kill nodes (k + 1)).card = (stage preds Gen Kill nodes (k + 2)).card := by
    intro k h
    have hnext : stage preds Gen Kill nodes (k + 1) = stage preds Gen Kill nodes (k + 2) := by
      ext b
      rw [mem_stage_succ, mem_stage_succ, heq k h]
    rw [hnext]
  have hlast : ∀ {k}, nodes.length ≤ k → _ := fun {k} h =>
    Nat.stabilises_of_monotone hmono hbound hstay h
  exact (heq n ((hlast hn).trans (hlast (Nat.le_succ_of_le hn)).symm)).symm

theorem delivered_of_mem_stage (h : b ∈ stage preds Gen Kill nodes n) :
    Delivered preds Gen Kill b := by
  induction n generalizing b with
  | zero => exact .gen (mem_stage_zero.1 h).2
  | succ n ih =>
    obtain ⟨-, hgen | ⟨⟨hpreds, hall⟩, hkill⟩⟩ := mem_stage_succ.1 h
    · exact .gen hgen
    · exact .pass hpreds (fun p hp => ih (hall p hp)) hkill

/-- In a graph whose edges are between its nodes all deliveries are made in as many steps. -/
theorem Delivered.mem_stage (hclosed : ∀ b ∈ nodes, ∀ p ∈ preds b, p ∈ nodes)
    (h : Delivered preds Gen Kill b) (hb : b ∈ nodes) :
    b ∈ stage preds Gen Kill nodes nodes.length := by
  induction h with
  | gen h =>
    rw [← stage_stable (Nat.le_refl _)]
    exact mem_stage_succ.2 ⟨hb, .inl h⟩
  | pass hpreds _ hkill ih =>
    rw [← stage_stable (Nat.le_refl _)]
    exact mem_stage_succ.2 ⟨hb, .inr ⟨⟨hpreds, fun p hp => ih p hp (hclosed _ hb p hp)⟩, hkill⟩⟩

end

/-! ## Rounds -/

/-- A must problem: facts, and the nodes that generate, pass on and kill them. -/
structure MustProblem (ν δ : Type*) where
  nodes : List ν
  preds : ν → List ν
  facts : Finset δ
  gen : ν → Finset δ
  kill : ν → Finset δ

namespace MustProblem

variable [DecidableEq ν] [DecidableEq δ] (P : MustProblem ν δ)

/-- The facts that all known predecessors end with; none without predecessors. -/
def meet (after : ν → Finset δ) (b : ν) : Finset δ :=
  if P.preds b = [] then ∅
  else (P.preds b).foldl (fun facts p => if p ∈ P.nodes then facts ∩ after p else facts) P.facts

def visit (sol : Solution ν δ) (b : ν) : Solution ν δ :=
  let before := P.meet sol.after b
  { before := update sol.before b before
    after := update sol.after b (P.gen b ∪ before \ P.kill b) }

/-- The fact is delivered to the end of the node. -/
def Out (d : δ) : ν → Prop := Delivered P.preds (d ∈ P.gen ·) (d ∈ P.kill ·)

/-- The fact is delivered to the start of the node. -/
def In (d : δ) : ν → Prop := DeliveredTo P.preds (d ∈ P.gen ·) (d ∈ P.kill ·)

/-- Edges are between nodes, and only facts are generated. -/
structure WellFormed : Prop where
  preds : ∀ b ∈ P.nodes, ∀ p ∈ P.preds b, p ∈ P.nodes
  gen : ∀ b, P.gen b ⊆ P.facts

variable {P} {after : ν → Finset δ} {sol : Solution ν δ} {b c : ν} {d : δ}
  {S : List ν} {n : Nat}

theorem mem_meet : d ∈ P.meet after b ↔
    d ∈ P.facts ∧ P.preds b ≠ [] ∧ ∀ p ∈ P.preds b, p ∈ P.nodes → d ∈ after p := by
  have key : ∀ (preds : List ν) (facts : Finset δ),
      d ∈ preds.foldl (fun facts p => if p ∈ P.nodes then facts ∩ after p else facts) facts ↔
        d ∈ facts ∧ ∀ p ∈ preds, p ∈ P.nodes → d ∈ after p := by
    intro preds
    induction preds with
    | nil => simp
    | cons p preds ih =>
      intro facts
      rw [List.foldl_cons, ih, List.forall_mem_cons]
      split
      · next hp => simp [hp, and_assoc]
      · next hp => simp [hp]
  unfold meet
  split
  · next h => simp [h]
  · next h => rw [key, and_iff_right h]

omit [DecidableEq ν] [DecidableEq δ] in
theorem WellFormed.mem_facts (hP : P.WellFormed) (h : P.Out d b) : d ∈ P.facts := by
  induction h with
  | gen h => exact hP.gen _ h
  | pass hpreds _ _ ih =>
    obtain ⟨p, hp⟩ := List.exists_mem_of_ne_nil _ hpreds
    exact ih p hp

theorem local_visit : Local P.visit := local_of_update fun _ _ => ⟨_, _, rfl⟩

theorem visit_after_self :
    (P.visit sol b).after b = P.gen b ∪ P.meet sol.after b \ P.kill b := by
  dsimp only [visit]
  rw [Function.update_self]

theorem visit_after_of_ne (h : c ≠ b) : (P.visit sol b).after c = sol.after c := by
  dsimp only [visit]
  rw [Function.update_of_ne h]

theorem visit_before_self : (P.visit sol b).before b = P.meet sol.after b := by
  dsimp only [visit]
  rw [Function.update_self]

theorem visit_before_of_ne (h : c ≠ b) : (P.visit sol b).before c = sol.before c := by
  dsimp only [visit]
  rw [Function.update_of_ne h]

theorem mem_visit_after (hP : P.WellFormed) (hb : b ∈ P.nodes) : d ∈ (P.visit sol b).after b ↔
    d ∈ P.gen b ∨ (d ∈ P.facts ∧ P.preds b ≠ [] ∧ ∀ p ∈ P.preds b, d ∈ sol.after p) ∧
      d ∉ P.kill b := by
  have hknown : (∀ p ∈ P.preds b, p ∈ P.nodes → d ∈ sol.after p) ↔
      ∀ p ∈ P.preds b, d ∈ sol.after p :=
    forall₂_congr fun p hp => imp_iff_right (hP.preds b hb p hp)
  rw [visit_after_self, Finset.mem_union, Finset.mem_sdiff, mem_meet, hknown]

/-- **A visit only adds what is delivered.** -/
theorem visit_sound (hP : P.WellFormed) (hb : b ∈ P.nodes)
    (h : ∀ c d, d ∈ sol.after c → P.Out d c) {d : δ} (hd : d ∈ (P.visit sol b).after c) :
    P.Out d c := by
  by_cases hc : c = b
  · subst hc
    refine delivered_iff.2 (((mem_visit_after hP hb).1 hd).imp_right fun hd => ?_)
    exact ⟨⟨hd.1.2.1, fun p hp => h p d (hd.1.2.2 p hp)⟩, hd.2⟩
  · rw [visit_after_of_ne hc] at hd
    exact h c d hd

/-- The facts that nodes have after so many steps. -/
def HasStage (P : MustProblem ν δ) (n : Nat) (sol : Solution ν δ) : Prop :=
  ∀ d b, b ∈ stage P.preds (d ∈ P.gen ·) (d ∈ P.kill ·) P.nodes n → d ∈ sol.after b

/-- **A visit of a node** gives it what is delivered in one more step, and takes nothing that has
been delivered from the others. -/
theorem visit_stage (hP : P.WellFormed) (hb : b ∈ P.nodes) (h : P.HasStage n sol)
    (hd : b ∈ stage P.preds (d ∈ P.gen ·) (d ∈ P.kill ·) P.nodes (n + 1)) :
    d ∈ (P.visit sol b).after b := by
  obtain ⟨-, hgen | ⟨⟨hpreds, hall⟩, hkill⟩⟩ := mem_stage_succ.1 hd
  · exact (mem_visit_after hP hb).2 (.inl hgen)
  · have hfact : d ∈ P.facts := by
      refine hP.mem_facts (b := b) (.pass hpreds (fun p hp => ?_) hkill)
      exact delivered_of_mem_stage (hall p hp)
    exact (mem_visit_after hP hb).2 (.inr ⟨⟨hfact, hpreds, fun p hp => h d p (hall p hp)⟩, hkill⟩)

theorem visits_stage (hP : P.WellFormed) (hS : ∀ b ∈ S, b ∈ P.nodes) (h : P.HasStage n sol) :
    P.HasStage n (S.foldl P.visit sol) ∧ ∀ d, ∀ b ∈ S,
      b ∈ stage P.preds (d ∈ P.gen ·) (d ∈ P.kill ·) P.nodes (n + 1) →
        d ∈ (S.foldl P.visit sol).after b := by
  induction S using List.reverseRecOn with
  | nil => exact ⟨h, by simp⟩
  | append_singleton S c ih =>
    obtain ⟨hstage, hvisited⟩ := ih fun b hb => hS b (List.mem_append_left _ hb)
    have hc : c ∈ P.nodes := hS c (by simp)
    rw [List.foldl_append, List.foldl_cons, List.foldl_nil]
    generalize S.foldl P.visit sol = t at hstage hvisited ⊢
    have hother : ∀ {b d}, b ≠ c → d ∈ t.after b → d ∈ (P.visit t c).after b := by
      intro b d hbc hd
      rwa [visit_after_of_ne hbc]
    constructor
    · intro d b hb
      by_cases hbc : b = c
      · subst hbc
        exact visit_stage hP hc hstage (stage_mono hb)
      · exact hother hbc (hstage d b hb)
    · intro d b hb hd
      by_cases hbc : b = c
      · subst hbc
        exact visit_stage hP hc hstage hd
      · refine hother hbc (hvisited d b ?_ hd)
        rw [List.mem_append, List.mem_singleton] at hb
        exact hb.resolve_right hbc

/-- **So many rounds** make as many steps. -/
theorem rounds_stage (hP : P.WellFormed) (h : P.HasStage 0 sol) (n : Nat) :
    P.HasStage n ((List.replicate n P.nodes).flatten.foldl P.visit sol) := by
  induction n with
  | zero => exact h
  | succ n ih =>
    rw [List.replicate_succ', List.flatten_append, List.foldl_append, List.flatten_singleton]
    intro d b hb
    have hnode : b ∈ P.nodes := (mem_stage_succ.1 hb).1
    exact (visits_stage hP (fun _ => id) ih).2 d b hnode hb

theorem visits_sound (hP : P.WellFormed) (hS : ∀ b ∈ S, b ∈ P.nodes)
    (h : ∀ c d, d ∈ sol.after c → P.Out d c) :
    ∀ c d, d ∈ (S.foldl P.visit sol).after c → P.Out d c := by
  induction S using List.reverseRecOn with
  | nil => exact h
  | append_singleton S b ih =>
    intro c d hd
    rw [List.foldl_append, List.foldl_cons, List.foldl_nil] at hd
    exact visit_sound hP (hS b (by simp)) (ih fun b hb => hS b (List.mem_append_left _ hb)) hd

variable (P) in
/-- All that is delivered has arrived, and nothing else. -/
def Final (sol : Solution ν δ) : Prop := ∀ b ∈ P.nodes, ∀ d, d ∈ sol.after b ↔ P.Out d b

theorem mem_visit_before (hP : P.WellFormed) (hb : b ∈ P.nodes) (h : P.Final sol) :
    d ∈ (P.visit sol b).before b ↔ P.In d b := by
  rw [visit_before_self, mem_meet]
  constructor
  · rintro ⟨-, hpreds, hall⟩
    refine ⟨hpreds, fun p hp => ?_⟩
    have hnode := hP.preds b hb p hp
    exact (h p hnode d).1 (hall p hp hnode)
  · rintro ⟨hpreds, hall⟩
    obtain ⟨q, hq⟩ := List.exists_mem_of_ne_nil _ hpreds
    exact ⟨hP.mem_facts (hall q hq), hpreds, fun p hp hnode => (h p hnode d).2 (hall p hp)⟩

theorem visits_final (hP : P.WellFormed) (hS : ∀ b ∈ S, b ∈ P.nodes) (h : P.Final sol) :
    P.Final (S.foldl P.visit sol) ∧
      ∀ b ∈ S, ∀ d, d ∈ (S.foldl P.visit sol).before b ↔ P.In d b := by
  induction S using List.reverseRecOn with
  | nil => exact ⟨h, by simp⟩
  | append_singleton S c ih =>
    obtain ⟨hfinal, hbefore⟩ := ih fun b hb => hS b (List.mem_append_left _ hb)
    have hc : c ∈ P.nodes := hS c (by simp)
    rw [List.foldl_append, List.foldl_cons, List.foldl_nil]
    generalize S.foldl P.visit sol = t at hfinal hbefore ⊢
    constructor
    · intro b hb d
      by_cases hbc : b = c
      · subst hbc
        have hin := mem_visit_before (d := d) hP hc hfinal
        rw [visit_before_self] at hin
        rw [visit_after_self, Finset.mem_union, Finset.mem_sdiff, hin]
        exact (delivered_iff : P.Out d b ↔ d ∈ P.gen b ∨ P.In d b ∧ d ∉ P.kill b).symm
      · rw [visit_after_of_ne hbc]
        exact hfinal b hb d
    · intro b hb d
      by_cases hbc : b = c
      · subst hbc
        exact mem_visit_before hP hc hfinal
      · rw [visit_before_of_ne hbc]
        refine hbefore b ?_ d
        rw [List.mem_append, List.mem_singleton] at hb
        exact hb.resolve_right hbc

/-- **More rounds than there are nodes** find what is delivered to the nodes, if they start from
what the nodes generate. -/
theorem mem_after_rounds (hP : P.WellFormed) {rounds : Nat} (hrounds : P.nodes.length < rounds)
    (hsol : sol.after = P.gen) :
    P.Final (solveRounds P.visit P.nodes rounds sol) ∧ ∀ b ∈ P.nodes, ∀ d,
      d ∈ (solveRounds P.visit P.nodes rounds sol).before b ↔ P.In d b := by
  obtain ⟨more, rfl⟩ := Nat.exists_eq_add_of_lt hrounds
  have hsplit : (List.replicate (P.nodes.length + more + 1) P.nodes).flatten =
      (List.replicate P.nodes.length P.nodes).flatten ++
        ((List.replicate more P.nodes).flatten ++ P.nodes) := by
    rw [Nat.add_assoc, List.replicate_add, List.flatten_append, List.replicate_succ',
      List.flatten_append, List.flatten_singleton]
  have hnodes : ∀ n, ∀ b ∈ (List.replicate n P.nodes).flatten, b ∈ P.nodes := by
    intro n b hb
    obtain ⟨l, hl, hb⟩ := List.mem_flatten.1 hb
    exact List.eq_of_mem_replicate hl ▸ hb
  have hzero : P.HasStage 0 sol := by
    intro d b hb
    rw [hsol]
    exact (mem_stage_zero.1 hb).2
  have hsound : ∀ c d, d ∈ sol.after c → P.Out d c := by
    intro c d hd
    rw [hsol] at hd
    exact .gen hd
  have hfinal : P.Final ((List.replicate P.nodes.length P.nodes).flatten.foldl P.visit sol) := by
    intro b hb d
    refine ⟨visits_sound hP (hnodes _) hsound b d, fun h => ?_⟩
    exact rounds_stage hP hzero _ d b (h.mem_stage hP.preds hb)
  rw [solveRounds_eq_foldl local_visit, hsplit, List.foldl_append]
  obtain ⟨hall, hbefore⟩ := visits_final hP (S := (List.replicate more P.nodes).flatten ++ P.nodes)
    (by
      intro b hb
      rw [List.mem_append] at hb
      exact hb.elim (hnodes _ b) id) hfinal
  exact ⟨hall, fun b hb => hbefore b (List.mem_append_right _ hb)⟩

end MustProblem

end TldrCode.Dataflow
