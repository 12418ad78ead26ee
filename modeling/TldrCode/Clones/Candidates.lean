import Mathlib.Data.List.Count
import Mathlib.Tactic.NormNum
import TldrCode.Clones.Detect

/-!
# Candidates for clones

The inverted index holds under a token the fragments that have it, up to 500 of them
(`mem_postings`), and a pair of fragments comes up with the number of tokens that it shares there
(`mem_sharing_iff`). If the limit is not reached every pair that one of the passes offers is
reported exactly once (`count_key_eq_one`).
-/

namespace TldrCode.Clones

open Offer

variable {P : Type} {fragments : List (FragmentData P)} {token : NormalizedToken}
  {frag fragA fragB : FragmentData P} {i j : Nat} {entry : List Nat}

/-! ## The inverted index -/

def Postings.at (inverted : Postings) (token : NormalizedToken) : List Nat :=
  (inverted.lookup token).getD []

def holders (fragments : List (FragmentData P)) (token : NormalizedToken) : Nat :=
  fragments.countP fun frag => token ∈ frag.rawTokens

theorem at_foldl_addPosting (fragIdx : Nat) (token : NormalizedToken)
    {tokens : List NormalizedToken} (hnodup : tokens.Nodup) (inverted : Postings) :
    (tokens.foldl (addPosting fragIdx) inverted).at token =
      if token ∈ tokens ∧ (inverted.at token).length < 500 then inverted.at token ++ [fragIdx]
      else inverted.at token := by
  induction tokens generalizing inverted with
  | nil => rw [List.foldl_nil, if_neg fun h => absurd h.1 List.not_mem_nil]
  | cons first tokens ih =>
    obtain ⟨hfirst, hnodup⟩ := List.nodup_cons.1 hnodup
    rw [List.foldl_cons, ih hnodup]
    by_cases heq : token = first
    · subst heq
      have hat : (addPosting fragIdx inverted token).at token =
          if (inverted.at token).length < 500 then inverted.at token ++ [fragIdx]
          else inverted.at token := by
        unfold addPosting Postings.at
        rw [AList.lookup_insert]
        rfl
      rw [if_neg fun h => hfirst h.1, hat]
      exact if_congr (and_iff_right List.mem_cons_self).symm rfl rfl
    · have hat : (addPosting fragIdx inverted first).at token = inverted.at token := by
        unfold addPosting Postings.at
        rw [AList.lookup_insert_ne heq]
      rw [hat]
      exact if_congr (and_congr_left' (List.mem_cons.trans (or_iff_right heq)).symm) rfl rfl

/-- What is under a token: the first fragments that have it. -/
structure Posted (fragments : List (FragmentData P)) (token : NormalizedToken)
    (entry : List Nat) : Prop where
  nodup : entry.Nodup
  length : entry.length = min 500 (holders fragments token)
  mem : ∀ j, j ∈ entry ↔ ∃ frag, fragments[j]? = some frag ∧ token ∈ frag.rawTokens ∧
    holders (fragments.take j) token < 500

theorem Posted.lt (h : Posted fragments token entry) (hj : j ∈ entry) : j < fragments.length := by
  obtain ⟨frag, hfrag, -⟩ := (h.mem j).1 hj
  exact (List.getElem?_eq_some_iff.1 hfrag).1

theorem holders_concat (fragments : List (FragmentData P)) (frag : FragmentData P)
    (token : NormalizedToken) : holders (fragments ++ [frag]) token =
      holders fragments token + if token ∈ frag.rawTokens then 1 else 0 := by
  rw [holders, List.countP_append, List.countP_singleton]
  simp only [decide_eq_true_eq, holders]

theorem Posted.concat (h : Posted fragments token entry) (frag : FragmentData P) :
    Posted (fragments ++ [frag]) token
      (if token ∈ frag.rawTokens ∧ entry.length < 500 then entry ++ [fragments.length]
        else entry) := by
  have hlength := h.length
  have hiff : ∀ j, (∃ x, (fragments ++ [frag])[j]? = some x ∧ token ∈ x.rawTokens ∧
      holders ((fragments ++ [frag]).take j) token < 500) ↔ j ∈ entry ∨
        j = fragments.length ∧ token ∈ frag.rawTokens ∧ holders fragments token < 500 := by
    intro j
    rw [h.mem]
    rcases Nat.lt_trichotomy j fragments.length with hlt | rfl | hgt
    · rw [List.getElem?_append_left hlt, List.take_append_of_le_length hlt.le,
        or_iff_left fun hj => absurd hj.1 hlt.ne]
    · rw [List.getElem?_concat_length, List.take_left', List.getElem?_eq_none (le_refl _)]
      · simp
      · rfl
    · have hlength : (fragments ++ [frag]).length ≤ j := by
        rw [List.length_append]
        exact hgt
      rw [List.getElem?_eq_none hlength, List.getElem?_eq_none hgt.le]
      simp only [reduceCtorEq, false_and, exists_false, false_or, false_iff, not_and]
      exact fun heq => absurd heq hgt.ne'
  split_ifs with henter
  · have hroom : holders fragments token < 500 := by omega
    refine ⟨?_, ?_, fun j => ?_⟩
    · refine List.nodup_append.2 ⟨h.nodup, List.nodup_singleton _, fun a ha b hb => ?_⟩
      rw [List.mem_singleton.1 hb]
      exact (h.lt ha).ne
    · rw [List.length_append, hlength, holders_concat, if_pos henter.1, List.length_singleton]
      omega
    · rw [hiff, List.mem_append, List.mem_singleton]
      exact or_congr_right (and_iff_left ⟨henter.1, hroom⟩).symm
  · refine ⟨h.nodup, ?_, fun j => ?_⟩
    · rw [hlength, holders_concat]
      split_ifs with htoken
      · have hfull : ¬ entry.length < 500 := fun hlt => henter ⟨htoken, hlt⟩
        omega
      · rfl
    · rw [hiff, or_iff_left]
      rintro ⟨-, htoken, hroom⟩
      exact henter ⟨htoken, by omega⟩

theorem mem_uniqueTokens {ord : HashOrder} : token ∈ uniqueTokens ord frag ↔
    token ∈ frag.rawTokens := by
  rw [uniqueTokens, ord.mem_order, List.mem_dedup]

theorem nodup_uniqueTokens (ord : HashOrder) (frag : FragmentData P) :
    (uniqueTokens ord frag).Nodup :=
  (ord.perm _).nodup_iff.2 (List.nodup_dedup _)

/-- **The inverted index**, token by token. -/
theorem posted_invertedIndex (ord : HashOrder) (fragments : List (FragmentData P))
    (token : NormalizedToken) :
    Posted fragments token ((invertedIndex ord fragments).at token) := by
  induction fragments using List.reverseRecOn with
  | nil => exact ⟨List.nodup_nil, rfl, fun j => by simp [invertedIndex, Postings.at]⟩
  | append_singleton fragments frag ih =>
    have hconcat : invertedIndex ord (fragments ++ [frag]) =
        (uniqueTokens ord frag).foldl (addPosting fragments.length)
          (invertedIndex ord fragments) := by
      rw [invertedIndex, List.zipIdx_append, List.foldl_append]
      simp [invertedIndex]
    have hconcat' := ih.concat frag
    rw [hconcat, at_foldl_addPosting _ _ (nodup_uniqueTokens ord frag)]
    simp only [mem_uniqueTokens]
    exact hconcat'

/-! ## Shared tokens -/

/-- The tokens of a fragment that another one is found under. -/
def sharedTokens (fragments : List (FragmentData P)) (frag : FragmentData P) (otherIdx : Nat)
    (otherFrag : FragmentData P) : Nat :=
  frag.rawTokens.dedup.countP fun token =>
    token ∈ otherFrag.rawTokens ∧ holders (fragments.take otherIdx) token < 500

theorem lookup_foldl_count {others : List Nat} (hnodup : others.Nodup)
    (counts : AList fun _ : Nat => Nat) (i j : Nat) :
    ((others.foldl (fun counts other => if i < other then
      counts.insert other ((counts.lookup other).getD 0 + 1) else counts) counts).lookup j) =
        if i < j ∧ j ∈ others then some ((counts.lookup j).getD 0 + 1) else counts.lookup j := by
  induction others generalizing counts with
  | nil => rw [List.foldl_nil, if_neg fun h => absurd h.2 List.not_mem_nil]
  | cons other others ih =>
    obtain ⟨hother, hnodup⟩ := List.nodup_cons.1 hnodup
    rw [List.foldl_cons, ih hnodup]
    by_cases heq : j = other
    · subst heq
      rw [if_neg fun h => hother h.2]
      by_cases hlt : i < j
      · rw [if_pos hlt, if_pos ⟨hlt, List.mem_cons_self⟩, AList.lookup_insert]
      · rw [if_neg hlt, if_neg fun h => hlt h.1]
    · have hlookup : (if i < other then
          counts.insert other ((counts.lookup other).getD 0 + 1) else counts).lookup j =
            counts.lookup j := by
        split_ifs
        · exact AList.lookup_insert_ne heq
        · rfl
      rw [hlookup]
      exact if_congr (and_congr_right' (List.mem_cons.trans (or_iff_right heq)).symm) rfl rfl

theorem lookup_sharedCounts (ord : HashOrder) (inverted : Postings)
    (hnodup : ∀ token, (inverted.at token).Nodup) (frag : FragmentData P) (i j : Nat) :
    (sharedCounts ord inverted frag i).lookup j =
      let shared := (uniqueTokens ord frag).countP fun token => j ∈ inverted.at token
      if i < j ∧ 0 < shared then some shared else none := by
  unfold sharedCounts
  generalize uniqueTokens ord frag = tokens
  induction tokens using List.reverseRecOn with
  | nil =>
    dsimp only
    rw [List.countP_nil, if_neg fun h => absurd h.2 (lt_irrefl 0)]
    rfl
  | append_singleton tokens token ih =>
    rw [List.foldl_concat, ← Postings.at, lookup_foldl_count (hnodup token), ih]
    dsimp only
    rw [List.countP_append, List.countP_singleton]
    generalize hcount : tokens.countP (fun token => j ∈ inverted.at token) = count
    by_cases hlt : i < j
    · have hget : (if i < j ∧ 0 < count then some count else none).getD 0 = count := by
        by_cases hpos : 0 < count
        · rw [if_pos ⟨hlt, hpos⟩]
          rfl
        · rw [if_neg fun h => hpos h.2]
          exact (Nat.eq_zero_of_not_pos hpos).symm
      by_cases hmem : j ∈ inverted.at token
      · have hone : (if decide (j ∈ inverted.at token) = true then 1 else 0) = 1 :=
          if_pos (decide_eq_true hmem)
        rw [if_pos ⟨hlt, hmem⟩, hget, hone, if_pos ⟨hlt, Nat.succ_pos count⟩]
      · have hzero : (if decide (j ∈ inverted.at token) = true then 1 else 0) = 0 :=
          if_neg fun h => hmem (of_decide_eq_true h)
        rw [if_neg fun h => hmem h.2, hzero, Nat.add_zero]
    · rw [if_neg fun h => hlt h.1, if_neg fun h => hlt h.1, if_neg fun h => hlt h.1]

/-- **The candidates of a fragment**: the later ones that it shares tokens with. -/
theorem mem_sharing_iff (ord : HashOrder) {shared : Nat} :
    (fragB, shared) ∈ sharing ord fragments fragA i ↔ ∃ j, i < j ∧ fragments[j]? = some fragB ∧
      0 < shared ∧ shared = sharedTokens fragments fragA j fragB := by
  have hshared : ∀ j frag, fragments[j]? = some frag →
      ((uniqueTokens ord fragA).countP fun token => j ∈ (invertedIndex ord fragments).at token) =
        sharedTokens fragments fragA j frag := by
    intro j frag hfrag
    rw [uniqueTokens, (ord.perm _).countP_eq, sharedTokens]
    refine List.countP_congr fun token _ => ?_
    rw [decide_eq_true_eq, decide_eq_true_eq, (posted_invertedIndex ord fragments token).mem, hfrag]
    simp
  have hlookup := lookup_sharedCounts ord (invertedIndex ord fragments)
    (fun token => (posted_invertedIndex ord fragments token).nodup) fragA i
  unfold sharing
  rw [List.mem_filterMap]
  constructor
  · rintro ⟨⟨j, count⟩, hmem, hmap⟩
    obtain ⟨frag, hfrag, heq⟩ := Option.map_eq_some_iff.1 hmap
    cases heq
    clear hmap
    have hentry := AList.mem_lookup_iff.2 ((List.mem_insertionSort _).1 hmem)
    rw [Option.mem_def, hlookup] at hentry
    dsimp only at hentry
    split_ifs at hentry with h
    cases hentry
    exact ⟨j, h.1, hfrag, h.2, hshared j _ hfrag⟩
  · rintro ⟨j, hlt, hfrag, hpos, rfl⟩
    refine ⟨⟨j, sharedTokens fragments fragA j fragB⟩, (List.mem_insertionSort _).2 ?_, ?_⟩
    · rw [← AList.mem_lookup_iff, Option.mem_def, hlookup]
      dsimp only
      rw [hshared j fragB hfrag, if_pos ⟨hlt, hpos⟩]
    · rw [Option.map_eq_some_iff]
      exact ⟨fragB, hfrag, rfl⟩

variable [LinearOrder P] {o : Offer (PairKey P) (Match P)}

/-- **What the third pass offers**: the pairs that share tokens. -/
theorem mem_sharingOffers {ord : HashOrder} {options : ClonesOptions} :
    o ∈ sharingOffers ord options fragments ↔
      ∃ i j fragA fragB, i < j ∧ fragments[i]? = some fragA ∧ fragments[j]? = some fragB ∧
        0 < sharedTokens fragments fragA j fragB ∧
          sharingOffer ord options fragA fragB (sharedTokens fragments fragA j fragB) = some o := by
  simp only [sharingOffers, List.mem_flatMap, List.mem_filterMap, Prod.exists,
    List.mem_zipIdx_iff_getElem?, mem_sharing_iff]
  constructor
  · rintro ⟨fragA, i, hA, fragB, shared, ⟨j, hlt, hB, hpos, rfl⟩, hoffer⟩
    exact ⟨i, j, fragA, fragB, hlt, hA, hB, hpos, hoffer⟩
  · rintro ⟨i, j, fragA, fragB, hlt, hA, hB, hpos, hoffer⟩
    exact ⟨fragA, i, hA, fragB, _, ⟨j, hlt, hB, hpos, rfl⟩, hoffer⟩

/-! ## What is reported -/

variable {options : ClonesOptions} {ord : HashOrder}

def detectClones (ord : HashOrder) (fragments : List (FragmentData P)) (options : ClonesOptions) :
    List (Match P) :=
  let s := detectType1Type2 fragments options []
  s.kept ++ (detectType3 ord fragments options s.seen).kept

omit [LinearOrder P] in
theorem sublist_of_getElem? (hij : i < j) (hA : fragments[i]? = some fragA)
    (hB : fragments[j]? = some fragB) : [fragA, fragB].Sublist fragments := by
  induction fragments generalizing i j with
  | nil => cases hA
  | cons frag fragments ih =>
    obtain ⟨j, rfl⟩ : ∃ k, j = k + 1 := ⟨j - 1, by omega⟩
    rw [List.getElem?_cons_succ] at hB
    cases i with
    | zero =>
      rw [List.getElem?_cons_zero, Option.some_inj] at hA
      subst hA
      exact (List.singleton_sublist.2 (List.mem_of_getElem? hB)).cons_cons frag
    | succ i =>
      rw [List.getElem?_cons_succ] at hA
      exact (ih (Nat.lt_of_succ_lt_succ hij) hA hB).cons frag

theorem exists_value (ord : HashOrder) (hfilter : options.typeFilter = none)
    (h : o ∈ hashOffers options fragments ∨ o ∈ sharingOffers ord options fragments) :
    ∃ m, o.value = some m ∧ m.key = o.key := by
  have hadmits : ∀ cloneType, options.admits cloneType = true := by
    intro cloneType
    rw [ClonesOptions.admits, hfilter]
    rfl
  have hlabelled : ∀ fragA fragB similarity,
      labelledOffer options fragA fragB similarity = some o →
        ∃ m, o.value = some m ∧ m.key = o.key := by
    intro fragA fragB similarity hoffer
    obtain ⟨-, rfl⟩ := labelledOffer_eq_some.1 hoffer
    exact ⟨_, rfl, rfl⟩
  rcases h with h | h
  · obtain ⟨fragA, fragB, -, ⟨-, hoffer⟩ | ⟨-, hoffer⟩⟩ := mem_hashOffers.1 h
    · obtain ⟨-, -, rfl⟩ := exactOffer_eq_some.1 hoffer
      rw [hadmits]
      exact ⟨_, rfl, rfl⟩
    · obtain ⟨-, similarity, -, hoffer⟩ := renamedOffer_eq_some.1 hoffer
      exact hlabelled _ _ _ hoffer
  · obtain ⟨i, j, fragA, fragB, -, -, -, -, hoffer⟩ := mem_sharingOffers.1 h
    unfold sharingOffer at hoffer
    dsimp only at hoffer
    split_ifs at hoffer
    exact hlabelled _ _ _ hoffer

section

variable (hfilter : options.typeFilter = none)
  (hfew : (detectClones ord fragments options).length < options.maxClones)
include hfilter hfew

theorem map_key_detectClones :
    ∃ seen, (∀ k, k ∈ seen ↔ ∃ o ∈ hashOffers options fragments, o.key = k) ∧
      (detectClones ord fragments options).map Match.key =
        (firsts [] (hashOffers options fragments)).map (·.key) ++
          (firsts seen (sharingOffers ord options fragments)).map (·.key) := by
  have hkeys : ∀ (seen : List (PairKey P)) (l : List (Offer (PairKey P) (Match P))),
      (∀ o ∈ l, ∃ m, o.value = some m ∧ m.key = o.key) →
        (l.foldl (Collection.offer options.maxClones) ⟨[], seen⟩).kept.length <
          options.maxClones →
        (l.foldl (Collection.offer options.maxClones) ⟨[], seen⟩).kept.map Match.key =
          (firsts seen l).map (·.key) := by
    intro seen l hvalue hlength
    rw [Collection.kept_foldl_offer (Nat.zero_le _), List.nil_append] at hlength ⊢
    rw [List.take_of_length_le]
    · exact map_values fun o ho => hvalue o (firsts_subset ho)
    · rw [List.length_take] at hlength
      omega
  unfold detectClones at hfew ⊢
  dsimp only at hfew ⊢
  rw [List.length_append] at hfew
  have hfirst : (detectType1Type2 fragments options []).kept.length < options.maxClones := by
    omega
  have hsecond : (detectType3 ord fragments options
      (detectType1Type2 fragments options []).seen).kept.length < options.maxClones := by
    omega
  refine ⟨(detectType1Type2 fragments options []).seen, fun k => ?_, ?_⟩
  · rw [detectType1Type2_eq] at hfirst ⊢
    rw [Collection.mem_seen_foldl_offer hfirst, or_iff_right List.not_mem_nil]
  · rw [List.map_append]
    refine congrArg₂ (· ++ ·) ?_ ?_
    · rw [detectType1Type2_eq] at hfirst ⊢
      exact hkeys _ _ (fun o ho => exists_value ord hfilter (.inl ho)) hfirst
    · rw [detectType3_eq] at hsecond ⊢
      exact hkeys _ _ (fun o ho => exists_value ord hfilter (.inr ho)) hsecond

/-- **What is offered is reported exactly once.** -/
theorem count_key_of_offer
    (ho : o ∈ hashOffers options fragments ∨ o ∈ sharingOffers ord options fragments) :
    ((detectClones ord fragments options).map Match.key).count o.key = 1 := by
  obtain ⟨seen, hseen, hmap⟩ := map_key_detectClones hfilter hfew
  rw [hmap]
  refine List.count_eq_one_of_mem (List.nodup_append.2 ⟨nodup_firsts _ _, nodup_firsts _ _, ?_⟩) ?_
  · rintro k hk k' hk' rfl
    obtain ⟨o₁, ho₁, rfl⟩ := List.mem_map.1 hk
    obtain ⟨o₂, ho₂, heq⟩ := List.mem_map.1 hk'
    exact key_notMem_of_mem_firsts ho₂ ((hseen _).2 ⟨o₁, firsts_subset ho₁, heq.symm⟩)
  · have hhash : ∀ o ∈ hashOffers options fragments,
        o.key ∈ (firsts [] (hashOffers options fragments)).map (·.key) := fun o ho =>
      List.mem_map.2 (exists_mem_firsts ho List.not_mem_nil)
    rw [List.mem_append]
    rcases ho with ho | ho
    · exact .inl (hhash o ho)
    · by_cases hkey : o.key ∈ seen
      · obtain ⟨o', ho', heq⟩ := (hseen _).1 hkey
        exact .inl (heq ▸ hhash o' ho')
      · exact .inr (List.mem_map.2 (exists_mem_firsts ho hkey))

end

/-- One of the passes looks at the pair: the fragments have one hash and are similar enough, or they
share enough tokens. -/
inductive IsCandidate (options : ClonesOptions) (fragments : List (FragmentData P))
    (fragA fragB : FragmentData P) (otherIdx : Nat) : Prop
  | exact (hash : fragA.rawHash = fragB.rawHash)
    (similar : 99 / 100 ≤ computeDiceSimilarity fragA.rawTokens fragB.rawTokens)
  | renamed (hash : fragA.normalizedHash = fragB.normalizedHash)
    (similar : 9 / 10 ≤ computeDiceSimilarity fragA.rawTokens fragB.rawTokens ∨
      9 / 10 ≤ computeDiceSimilarity fragA.normalizedTokens fragB.normalizedTokens)
  | sharing (some : 0 < sharedTokens fragments fragA otherIdx fragB)
    (enough : minShared options.threshold fragA.rawTokens.dedup.length
      fragB.rawTokens.dedup.length ≤ sharedTokens fragments fragA otherIdx fragB)

theorem IsCandidate.exists_offer (ord : HashOrder) (hfilter : options.typeFilter = none)
    (hij : i < j) (hA : fragments[i]? = some fragA) (hB : fragments[j]? = some fragB)
    (hskip : shouldSkipPair fragA fragB options = false)
    (hthreshold : options.threshold ≤ computeDiceSimilarity fragA.rawTokens fragB.rawTokens)
    (h : IsCandidate options fragments fragA fragB j) :
    ∃ o, (o ∈ hashOffers options fragments ∨ o ∈ sharingOffers ord options fragments) ∧
      o.key = createPairKey fragA fragB := by
  have hsublist := sublist_of_getElem? hij hA hB
  have hadmits : ∀ cloneType, options.admits cloneType = true := by
    intro cloneType
    rw [ClonesOptions.admits, hfilter]
    rfl
  cases h with
  | exact hash similar =>
    exact ⟨_, .inl (mem_hashOffers.2 ⟨fragA, fragB, hsublist, .inl ⟨hash,
      exactOffer_eq_some.2 ⟨hskip, similar, rfl⟩⟩⟩), rfl⟩
  | renamed hash similar =>
    obtain ⟨similarity, hsimilarity⟩ : ∃ similarity, renamedSimilarity fragA fragB =
        some similarity := by
      unfold renamedSimilarity
      dsimp only
      split_ifs with hraw hnorm
      · exact ⟨_, rfl⟩
      · exact absurd (similar.resolve_left hraw) (not_le.2 hnorm)
      · exact ⟨_, rfl⟩
    exact ⟨_, .inl (mem_hashOffers.2 ⟨fragA, fragB, hsublist, .inr ⟨hash,
      renamedOffer_eq_some.2 ⟨hskip, similarity, hsimilarity,
        labelledOffer_eq_some.2 ⟨hadmits _, rfl⟩⟩⟩⟩), rfl⟩
  | sharing hsome enough =>
    have hoffer : sharingOffer ord options fragA fragB (sharedTokens fragments fragA j fragB) =
        labelledOffer options fragA fragB
          (computeDiceSimilarity fragA.rawTokens fragB.rawTokens) := by
      unfold sharingOffer EnoughShared
      dsimp only
      rw [if_neg]
      rw [not_or, not_or, not_not, uniqueTokens, uniqueTokens, (ord.perm _).length_eq,
        (ord.perm _).length_eq, not_lt, Bool.not_eq_true]
      exact ⟨enough, hskip, hthreshold⟩
    exact ⟨_, .inr (mem_sharingOffers.2 ⟨i, j, fragA, fragB, hij, hA, hB, hsome,
      hoffer.trans (labelledOffer_eq_some.2 ⟨hadmits _, rfl⟩)⟩), rfl⟩

/-- **Completeness of the candidates.** When fewer pairs than the limit are reported, every pair of
fragments that the same-file rules leave, whose similarity meets the threshold and that one of the
passes looks at, is reported exactly once. -/
theorem count_key_eq_one (ord : HashOrder) (fragments : List (FragmentData P))
    (options : ClonesOptions) (hfilter : options.typeFilter = none)
    (hfew : (detectClones ord fragments options).length < options.maxClones)
    (hij : i < j) (hA : fragments[i]? = some fragA) (hB : fragments[j]? = some fragB)
    (hskip : shouldSkipPair fragA fragB options = false)
    (hthreshold : options.threshold ≤ computeDiceSimilarity fragA.rawTokens fragB.rawTokens)
    (hcandidate : IsCandidate options fragments fragA fragB j) :
    ((detectClones ord fragments options).map Match.key).count (createPairKey fragA fragB) = 1 := by
  obtain ⟨o, ho, hkey⟩ :=
    hcandidate.exists_offer ord hfilter hij hA hB hskip hthreshold
  rw [← hkey]
  exact count_key_of_offer hfilter hfew ho

/-! ## A crowded token -/

/-- A fragment of a file of its own, with hashes of their own. -/
def fragmentOf (file : Nat) (tokens : List String) : FragmentData Nat where
  fileIdx := file
  file := file
  startLine := 1
  endLine := 9
  rawTokens := tokens.map NormalizedToken.mk
  normalizedTokens := tokens.map NormalizedToken.mk
  rawHash := file
  normalizedHash := file
  preview := []
  functionName := none

def common : FragmentData Nat := fragmentOf 0 ["x"]

/-- Two fragments that share three of their four tokens. -/
def left : FragmentData Nat := fragmentOf 1 ["x", "y", "z", "u"]

@[inherit_doc left] def right : FragmentData Nat := fragmentOf 2 ["x", "y", "z", "v"]

/-- Two similar fragments after 500 others that have one of their tokens. -/
def crowd : List (FragmentData Nat) := List.replicate 500 common ++ [left, right]

/-- The similar fragments alone are reported. -/
theorem count_key_left_right : ((detectClones .insertion [left, right] .new).map
    Match.key).count (createPairKey left right) = 1 :=
  count_key_eq_one (i := 0) (j := 1) _ _ _ rfl (by decide +kernel) Nat.zero_lt_one rfl rfl
    (by decide) (by decide +kernel) (.sharing (by decide +kernel) (by decide +kernel))

theorem getElem?_crowd {frag : FragmentData Nat} (h : crowd[i]? = some frag) :
    i < 500 ∧ frag = common ∨ i = 500 ∧ frag = left ∨ i = 501 ∧ frag = right := by
  rw [crowd, List.getElem?_append, List.length_replicate] at h
  split_ifs at h with hlt
  · rw [List.getElem?_replicate, if_pos hlt, Option.some_inj] at h
    exact .inl ⟨hlt, h.symm⟩
  · obtain ⟨k, rfl⟩ := Nat.exists_eq_add_of_le (not_lt.1 hlt)
    rw [Nat.add_sub_cancel_left] at h
    match k, h with
    | 0, h => exact .inr (.inl ⟨rfl, (Option.some.inj h).symm⟩)
    | 1, h => exact .inr (.inr ⟨rfl, (Option.some.inj h).symm⟩)

theorem shouldSkipPair_of_sublist {fragA fragB : FragmentData Nat}
    (hsublist : [fragA, fragB].Sublist crowd) (hfile : fragA.file = fragB.file) :
    shouldSkipPair fragA fragB .new = true := by
  have hmem : ∀ frag ∈ [fragA, fragB], frag = common ∨ frag = left ∨ frag = right := by
    intro frag hfrag
    obtain ⟨i, hi⟩ := List.mem_iff_getElem?.1 (hsublist.subset hfrag)
    rcases getElem?_crowd hi with h | h | h
    · exact .inl h.2
    · exact .inr (.inl h.2)
    · exact .inr (.inr h.2)
  have hcount : ∀ frag, crowd.count frag = 1 → ¬ [frag, frag].Sublist crowd := by
    intro frag hone hboth
    have hle := hboth.count_le frag
    rw [hone, List.count_cons_self, List.count_cons_self] at hle
    omega
  rcases hmem fragA List.mem_cons_self with rfl | rfl | rfl <;>
    rcases hmem fragB (List.mem_cons_of_mem _ List.mem_cons_self) with rfl | rfl | rfl
  · decide
  · exact absurd hfile (by decide)
  · exact absurd hfile (by decide)
  · exact absurd hfile (by decide)
  · exact absurd hsublist (hcount left (by decide +kernel))
  · exact absurd hfile (by decide)
  · exact absurd hfile (by decide)
  · exact absurd hfile (by decide)
  · exact absurd hsublist (hcount right (by decide +kernel))

theorem file_eq_of_mem_crowd {frag : FragmentData Nat} (h : frag ∈ crowd) :
    frag.rawHash = frag.file ∧ frag.normalizedHash = frag.file := by
  obtain ⟨i, hi⟩ := List.mem_iff_getElem?.1 h
  rcases getElem?_crowd hi with ⟨-, rfl⟩ | ⟨-, rfl⟩ | ⟨-, rfl⟩ <;> exact ⟨rfl, rfl⟩

theorem hashOffers_crowd : hashOffers .new crowd = [] := by
  refine List.eq_nil_iff_forall_not_mem.2 fun o ho => ?_
  obtain ⟨fragA, fragB, hsublist, hhash⟩ := mem_hashOffers.1 ho
  obtain ⟨hrawA, hnormA⟩ := file_eq_of_mem_crowd (hsublist.subset List.mem_cons_self)
  obtain ⟨hrawB, hnormB⟩ := file_eq_of_mem_crowd
    (hsublist.subset (List.mem_cons_of_mem _ List.mem_cons_self))
  rcases hhash with ⟨heq, hoffer⟩ | ⟨heq, hoffer⟩
  · rw [hrawA, hrawB] at heq
    have hskip := shouldSkipPair_of_sublist hsublist heq
    exact absurd (hskip.symm.trans (exactOffer_eq_some.1 hoffer).1) nofun
  · rw [hnormA, hnormB] at heq
    have hskip := shouldSkipPair_of_sublist hsublist heq
    exact absurd (hskip.symm.trans (renamedOffer_eq_some.1 hoffer).1) nofun

theorem sharedTokens_crowd : sharedTokens crowd left 501 right = 2 := by
  decide +kernel

theorem sharingOffers_crowd : sharingOffers .insertion .new crowd = [] := by
  refine List.eq_nil_iff_forall_not_mem.2 fun o ho => ?_
  obtain ⟨i, j, fragA, fragB, hij, hA, hB, -, hoffer⟩ := mem_sharingOffers.1 ho
  have hlow : ∀ frag, computeDiceSimilarity common.rawTokens frag.rawTokens < 7 / 10 →
      ∀ shared, sharingOffer .insertion .new common frag shared = none := by
    intro frag hdice shared
    exact if_pos (.inr (.inr hdice))
  rcases getElem?_crowd hA with ⟨hi, rfl⟩ | ⟨rfl, rfl⟩ | ⟨rfl, rfl⟩ <;>
    rcases getElem?_crowd hB with ⟨hj, rfl⟩ | ⟨rfl, rfl⟩ | ⟨rfl, rfl⟩
  · have hnone : sharingOffer .insertion .new common common
        (sharedTokens crowd common j common) = none :=
      if_pos (.inr (.inl (by decide)))
    exact absurd (hnone.symm.trans hoffer) nofun
  · exact absurd ((hlow left (by decide +kernel) _).symm.trans hoffer) nofun
  · exact absurd ((hlow right (by decide +kernel) _).symm.trans hoffer) nofun
  · omega
  · omega
  · rw [sharedTokens_crowd] at hoffer
    have hnone : sharingOffer .insertion .new left right 2 = none :=
      if_pos (.inl (by decide +kernel))
    exact absurd (hnone.symm.trans hoffer) nofun
  · omega
  · omega
  · omega

/-- **A token of 500 fragments** is not found any more in the fragments after them, and a pair that
needs it is lost. -/
theorem not_complete_crowd : ¬ ∀ (ord : HashOrder) (fragments : List (FragmentData Nat))
    (options : ClonesOptions), options.typeFilter = none →
    (detectClones ord fragments options).length < options.maxClones →
    ∀ (i j : Nat) fragA fragB, i < j → fragments[i]? = some fragA → fragments[j]? = some fragB →
      shouldSkipPair fragA fragB options = false →
      options.threshold ≤ computeDiceSimilarity fragA.rawTokens fragB.rawTokens →
      ((detectClones ord fragments options).map Match.key).count
        (createPairKey fragA fragB) = 1 := by
  intro h
  have hnil : detectClones .insertion crowd .new = [] := by
    unfold detectClones
    dsimp only
    rw [detectType1Type2_eq, detectType3_eq, hashOffers_crowd, sharingOffers_crowd]
    rfl
  have hcount := h .insertion crowd .new rfl (by rw [hnil]; decide) 500 501 left right (by decide)
    (by decide +kernel) (by decide +kernel) (by decide) (by decide +kernel)
  rw [hnil] at hcount
  cases hcount

end TldrCode.Clones
