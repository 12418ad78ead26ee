import Mathlib.Algebra.BigOperators.Group.List.Lemmas
import Mathlib.Tactic.NormNum
import TldrCode.Clones.Detect

/-!
# Labels of clones

A pair that is labelled Type-1 should consist of the same tokens in the same order. The labels come
from bags of tokens, raw or normalized, so that fragments with permuted tokens are labelled Type-1
too, and so are fragments with renamed tokens once their raw similarity is low
(`labelsExact_iff`).
-/

namespace TldrCode.Clones

open Offer

/-! ## Bags with the same tokens -/

variable {P : Type} [LinearOrder P] {fragA fragB : FragmentData P}

/-! ## When the labels are exact -/

/-- Pairs that are reported as Type-1 have the same raw tokens in the same order. -/
def LabelsExact (s : Detected P) : Prop :=
  ∀ m ∈ s.kept, m.toClonePair.cloneType = .type1 → m.fragA.rawTokens = m.fragB.rawTokens

/-- Fragments with one hash have the same tokens. -/
def CollisionFree (hash : FragmentData P → Nat)
    (tokens : FragmentData P → List NormalizedToken) (fragments : List (FragmentData P)) : Prop :=
  ∀ fragA ∈ fragments, ∀ fragB ∈ fragments, hash fragA = hash fragB → tokens fragA = tokens fragB

theorem cloneType_toClonePair (m : Match P) : m.toClonePair.cloneType = m.cloneType := by
  unfold Match.toClonePair makeClonePair ClonePair.canonical
  split_ifs <;> rfl

variable {fragments : List (FragmentData P)} {options : ClonesOptions}
  {foundPairs : List (PairKey P)}

/-- The labels of the first two passes are exact when no renamed or permuted pair is admitted. -/
theorem labelsExact_detectType1Type2_iff
    (hraw : CollisionFree (·.rawHash) (·.rawTokens) fragments) :
    LabelsExact (detectType1Type2 fragments options foundPairs) ↔
      ∀ fragA fragB, [fragA, fragB].Sublist fragments →
        fragA.normalizedHash = fragB.normalizedHash → fragA.rawTokens ≠ fragB.rawTokens →
        (computeDiceSimilarity fragA.rawTokens fragB.rawTokens < 9 / 10 ∨
          classifyCloneType (computeDiceSimilarity fragA.rawTokens fragB.rawTokens) = .type1) →
        ∀ similarity, ¬ Admitted options.maxClones foundPairs (hashOffers options fragments)
          ⟨.type1, similarity, fragA, fragB⟩ := by
  unfold LabelsExact
  simp only [cloneType_toClonePair, detectType1Type2_eq, Collection.mem_kept_iff]
  constructor
  · exact fun h fragA fragB _ _ hne _ similarity hadmitted => hne (h _ hadmitted rfl)
  · intro h m hadmitted htype
    by_contra hne
    obtain ⟨front, o, back, heq, hvalue, -⟩ := id hadmitted
    obtain ⟨fragA, fragB, hsublist, hoffer⟩ : ∃ fragA fragB, [fragA, fragB].Sublist fragments ∧ _ :=
      mem_hashOffers.1 (heq ▸ List.mem_append_right _ List.mem_cons_self)
    rcases hoffer with ⟨hhash, hoffer⟩ | ⟨hhash, hoffer⟩
    · obtain ⟨-, -, rfl⟩ := exactOffer_eq_some.1 hoffer
      split_ifs at hvalue
      cases hvalue
      exact hne (hraw fragA (hsublist.subset List.mem_cons_self) fragB
        (hsublist.subset (List.mem_cons_of_mem _ List.mem_cons_self)) hhash)
    · obtain ⟨-, similarity, hsimilarity, hlabelled⟩ := renamedOffer_eq_some.1 hoffer
      obtain ⟨-, rfl⟩ := labelledOffer_eq_some.1 hlabelled
      cases hvalue
      dsimp only at htype hne
      refine h fragA fragB hsublist hhash hne ?_ similarity (htype ▸ hadmitted)
      by_cases hlow : computeDiceSimilarity fragA.rawTokens fragB.rawTokens < 9 / 10
      · exact .inl hlow
      · unfold renamedSimilarity at hsimilarity
        dsimp only at hsimilarity
        rw [if_pos (not_lt.1 hlow)] at hsimilarity
        cases hsimilarity
        exact .inr htype

/-- The labels of the third pass are exact when no permuted pair is admitted. -/
theorem labelsExact_detectType3_iff (ord : HashOrder) :
    LabelsExact (detectType3 ord fragments options foundPairs) ↔
      ∀ fragA fragB, fragA.rawTokens ≠ fragB.rawTokens →
        classifyCloneType (computeDiceSimilarity fragA.rawTokens fragB.rawTokens) = .type1 →
        ¬ Admitted options.maxClones foundPairs (sharingOffers ord options fragments)
          ⟨.type1, computeDiceSimilarity fragA.rawTokens fragB.rawTokens, fragA, fragB⟩ := by
  unfold LabelsExact
  simp only [cloneType_toClonePair, detectType3_eq, Collection.mem_kept_iff]
  constructor
  · exact fun h fragA fragB hne _ hadmitted => hne (h _ hadmitted rfl)
  · intro h m hadmitted htype
    by_contra hne
    obtain ⟨front, o, back, heq, hvalue, -⟩ := id hadmitted
    have hmem : o ∈ sharingOffers ord options fragments :=
      heq ▸ List.mem_append_right _ List.mem_cons_self
    obtain ⟨⟨fragA, fragIdx⟩, -, hoffer⟩ := List.mem_flatMap.1 hmem
    obtain ⟨⟨fragB, shared⟩, -, hoffer⟩ := List.mem_filterMap.1 hoffer
    unfold sharingOffer at hoffer
    dsimp only at hoffer
    split_ifs at hoffer
    obtain ⟨-, rfl⟩ := labelledOffer_eq_some.1 hoffer
    cases hvalue
    dsimp only at htype hne
    exact h fragA fragB hne htype (htype ▸ hadmitted)

/-- **When the labels are exact.** In the first two passes, when no pair with one normalized hash
and different raw tokens is admitted whose raw similarity is low or the highest; in the third one,
when no pair with different raw tokens is admitted whose raw similarity is the highest. -/
theorem labelsExact_iff (ord : HashOrder) (fragments : List (FragmentData P))
    (options : ClonesOptions) (foundPairs : List (PairKey P))
    (hraw : CollisionFree (·.rawHash) (·.rawTokens) fragments) :
    (LabelsExact (detectType1Type2 fragments options foundPairs) ↔
      ∀ fragA fragB, [fragA, fragB].Sublist fragments →
        fragA.normalizedHash = fragB.normalizedHash → fragA.rawTokens ≠ fragB.rawTokens →
        (computeDiceSimilarity fragA.rawTokens fragB.rawTokens < 9 / 10 ∨
          classifyCloneType (computeDiceSimilarity fragA.rawTokens fragB.rawTokens) = .type1) →
        ∀ similarity, ¬ Admitted options.maxClones foundPairs (hashOffers options fragments)
          ⟨.type1, similarity, fragA, fragB⟩) ∧
    (LabelsExact (detectType3 ord fragments options foundPairs) ↔
      ∀ fragA fragB, fragA.rawTokens ≠ fragB.rawTokens →
        classifyCloneType (computeDiceSimilarity fragA.rawTokens fragB.rawTokens) = .type1 →
        ¬ Admitted options.maxClones foundPairs (sharingOffers ord options fragments)
          ⟨.type1, computeDiceSimilarity fragA.rawTokens fragB.rawTokens, fragA, fragB⟩) :=
  ⟨labelsExact_detectType1Type2_iff hraw, labelsExact_detectType3_iff ord⟩

/-- Two functions that differ in all their names. -/
def renamedFragments : List (FragmentData Nat) :=
  [{ fileIdx := 0, file := 0, startLine := 1, endLine := 9, rawTokens := [⟨"f"⟩, ⟨"x"⟩],
     normalizedTokens := [⟨"$ID"⟩, ⟨"$ID"⟩], rawHash := 1, normalizedHash := 3, preview := [],
     functionName := none },
   { fileIdx := 1, file := 1, startLine := 1, endLine := 9, rawTokens := [⟨"g"⟩, ⟨"y"⟩],
     normalizedTokens := [⟨"$ID"⟩, ⟨"$ID"⟩], rawHash := 2, normalizedHash := 3, preview := [],
     functionName := none }]

theorem collisionFree_renamedFragments :
    CollisionFree (·.rawHash) (·.rawTokens) renamedFragments ∧
      CollisionFree (·.normalizedHash) (·.normalizedTokens) renamedFragments := by
  unfold CollisionFree
  decide

theorem labelsExact_renamedFragments :
    (LabelsExact (detectType1Type2 renamedFragments .new []) ↔
      ∀ fragA fragB, [fragA, fragB].Sublist renamedFragments →
        fragA.normalizedHash = fragB.normalizedHash → fragA.rawTokens ≠ fragB.rawTokens →
        (computeDiceSimilarity fragA.rawTokens fragB.rawTokens < 9 / 10 ∨
          classifyCloneType (computeDiceSimilarity fragA.rawTokens fragB.rawTokens) = .type1) →
        ∀ similarity, ¬ Admitted 100 [] (hashOffers .new renamedFragments)
          ⟨.type1, similarity, fragA, fragB⟩) ∧
    (LabelsExact (detectType3 .insertion renamedFragments .new []) ↔
      ∀ fragA fragB, fragA.rawTokens ≠ fragB.rawTokens →
        classifyCloneType (computeDiceSimilarity fragA.rawTokens fragB.rawTokens) = .type1 →
        ¬ Admitted 100 [] (sharingOffers .insertion .new renamedFragments)
          ⟨.type1, computeDiceSimilarity fragA.rawTokens fragB.rawTokens, fragA, fragB⟩) :=
  labelsExact_iff _ _ _ _ collisionFree_renamedFragments.1

/-- **Renamed functions** are labelled Type-1. -/
theorem not_labelsExact_renamedFragments : ¬ ∀ (ord : HashOrder)
    (fragments : List (FragmentData Nat)) (options : ClonesOptions)
    (foundPairs : List (PairKey Nat)), CollisionFree (·.rawHash) (·.rawTokens) fragments →
    CollisionFree (·.normalizedHash) (·.normalizedTokens) fragments →
    LabelsExact (detectType1Type2 fragments options foundPairs) ∧
      LabelsExact (detectType3 ord fragments options foundPairs) := by
  intro h
  have hexact := (h .insertion renamedFragments .new []
    collisionFree_renamedFragments.1 collisionFree_renamedFragments.2).1
  have hkept : ∃ m ∈ (detectType1Type2 renamedFragments .new []).kept,
      m.cloneType = .type1 ∧ m.fragA.rawTokens ≠ m.fragB.rawTokens := by
    decide +kernel
  obtain ⟨m, hm, htype, hne⟩ := hkept
  exact hne (hexact m hm ((cloneType_toClonePair m).trans htype))

end TldrCode.Clones
