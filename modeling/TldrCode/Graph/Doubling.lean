import Mathlib.Combinatorics.SimpleGraph.Paths
import Mathlib.Combinatorics.SimpleGraph.Connectivity.Connected

/-!
# Closure by doubling

The equivalence closure of a relation, computed in rounds: each joins two links of the round before.
After `k` rounds the ends of every walk of at most `2 ^ k` links are related (`Spans.double`), so as
many rounds as the logarithm of the number of ends are enough (`Spans.of_eqvGen`), and a round that
adds nothing is the last one (`Spans.of_closed`).
-/

namespace TldrCode.Graph

variable {α : Type*} {R S T : α → α → Prop} {a b c : α} {m n : ℕ} {ends : List α}

/-- `S` relates the ends, if distinct, of every walk of at most `n` links of `R`. -/
def Spans (R S : α → α → Prop) (n : ℕ) : Prop :=
  ∀ ⦃a b : α⦄ (p : (SimpleGraph.fromRel R).Walk a b), p.length ≤ n → a ≠ b → S a b

theorem Spans.mono (h : Spans R S n) (hmn : m ≤ n) : Spans R S m :=
  fun _ _ p hp hne => h p (hp.trans hmn) hne

theorem Spans.of_links (h : ∀ a b, R a b → S a b ∧ S b a) : Spans R S 1 := by
  intro a b p hp hne
  cases p with
  | nil => exact absurd rfl hne
  | cons hadj q =>
    have hq : q.length = 0 := by
      rw [SimpleGraph.Walk.length_cons] at hp
      omega
    cases SimpleGraph.Walk.eq_of_length_eq_zero hq
    rw [SimpleGraph.fromRel_adj] at hadj
    cases hadj.2 with
    | inl hab => exact (h a b hab).1
    | inr hba => exact (h b a hba).2

theorem Spans.double (h : Spans R S n) (hmono : ∀ a b, S a b → T a b)
    (hjoin : ∀ a b c, S a b → S b c → a ≠ c → T a c) : Spans R T (2 * n) := by
  intro a b p hp hne
  have htake : (p.take n).length ≤ n := by
    rw [SimpleGraph.Walk.take_length]
    exact min_le_left _ _
  have hdrop : (p.drop n).length ≤ n := by
    rw [SimpleGraph.Walk.drop_length]
    omega
  by_cases hac : a = p.getVert n
  · refine hmono a b (h ((p.drop n).copy hac.symm rfl) ?_ hne)
    rwa [SimpleGraph.Walk.length_copy]
  · by_cases hcb : p.getVert n = b
    · refine hmono a b (h ((p.take n).copy rfl hcb) ?_ hne)
      rwa [SimpleGraph.Walk.length_copy]
    · exact hjoin a _ b (h _ htake hac) (h _ hdrop hcb) hne

theorem Spans.of_closed (h : Spans R S 1)
    (hclosed : ∀ a b c, S a b → S b c → a ≠ c → S a c) (n : ℕ) : Spans R S n := by
  have hpow : ∀ k, Spans R S (2 ^ k) := by
    intro k
    induction k with
    | zero => exact h
    | succ k ih =>
      rw [pow_succ']
      exact ih.double (fun _ _ hab => hab) hclosed
  exact (hpow n).mono n.lt_two_pow_self.le

theorem reachable_of_eqvGen (h : Relation.EqvGen R a b) :
    (SimpleGraph.fromRel R).Reachable a b := by
  induction h with
  | rel a b hab =>
    by_cases hne : a = b
    · exact hne ▸ SimpleGraph.Reachable.refl _
    · exact SimpleGraph.Adj.reachable ((SimpleGraph.fromRel_adj R a b).2 ⟨hne, .inl hab⟩)
  | refl a => exact SimpleGraph.Reachable.refl _
  | symm a b _ ih => exact ih.symm
  | trans a b c _ _ ih ih' => exact ih.trans ih'

theorem mem_of_mem_support (hends : ∀ a b, R a b → a ∈ ends ∧ b ∈ ends)
    (p : (SimpleGraph.fromRel R).Walk a b) (hc : c ∈ p.support.tail) : c ∈ ends := by
  induction p with
  | nil => cases hc
  | cons hadj p ih =>
    rw [SimpleGraph.Walk.support_cons, List.tail_cons, SimpleGraph.Walk.mem_support_iff] at hc
    cases hc with
    | inl hc =>
      subst hc
      rw [SimpleGraph.fromRel_adj] at hadj
      cases hadj.2 with
      | inl h => exact (hends _ _ h).2
      | inr h => exact (hends _ _ h).1
    | inr hc => exact ih hc

theorem Spans.of_eqvGen [DecidableEq α] (hends : ∀ a b, R a b → a ∈ ends ∧ b ∈ ends)
    (h : Spans R S n) (hn : ends.length ≤ n) (hab : Relation.EqvGen R a b) (hne : a ≠ b) :
    S a b := by
  obtain ⟨p⟩ := reachable_of_eqvGen hab
  have hnodup : p.toPath.1.support.tail.Nodup := p.toPath.2.support_nodup.tail
  have hle : p.toPath.1.support.tail.length ≤ ends.length :=
    (hnodup.subperm fun c hc => mem_of_mem_support hends _ hc).length_le
  rw [List.length_tail, SimpleGraph.Walk.length_support, Nat.add_sub_cancel] at hle
  exact h p.toPath.1 (hle.trans hn) hne

end TldrCode.Graph
