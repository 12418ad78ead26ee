import Mathlib.Data.List.Dedup
import Mathlib.Data.Rat.Floor
import TldrCode.Clones.Types
import TldrCode.Collecting
import TldrCode.Grouping
import TldrCode.Types

/-!
# Detection of clones

`analysis/clones/detect.rs` and the similarity of `analysis/clones/types.rs`. Pairs of fragments
come up in three passes: those with one raw hash, those with one normalized hash, and those that an
inverted index finds to share tokens. The passes keep pairs up to a limit, each under the key of its
lines; what they offer does not depend on what they have kept (`detectType1Type2_eq`,
`detectType3_eq`).
-/

namespace TldrCode.Clones

/-- How many tokens two bags of tokens have in common. -/
def commonTokens (tokens1 tokens2 : List NormalizedToken) : Nat :=
  (tokens1.dedup.map fun token => min (tokens1.count token) (tokens2.count token)).sum

def computeDiceSimilarity (tokens1 tokens2 : List NormalizedToken) : ℚ :=
  if tokens1 = [] ∧ tokens2 = [] then 1
  else if tokens1 = [] ∨ tokens2 = [] then 0
  else 2 * commonTokens tokens1 tokens2 / (tokens1.length + tokens2.length : Nat)

/-! ## Fragments and pairs -/

structure FragmentData (P : Type) where
  fileIdx : Nat
  file : P
  startLine : Nat
  endLine : Nat
  rawTokens : List NormalizedToken
  normalizedTokens : List NormalizedToken
  rawHash : Nat
  normalizedHash : Nat
  preview : List Char
  functionName : Option String
  deriving DecidableEq

/-- The fields of `ClonesOptions` that the detection reads. -/
structure ClonesOptions where
  threshold : ℚ
  typeFilter : Option CloneType
  includeWithinFile : Bool
  maxClones : Nat

def ClonesOptions.new : ClonesOptions where
  threshold := 7 / 10
  typeFilter := none
  includeWithinFile := false
  maxClones := 100

def ClonesOptions.admits (options : ClonesOptions) (cloneType : CloneType) : Bool :=
  options.typeFilter.all (· = cloneType)

def rangesOverlap (start1 end1 start2 end2 : Nat) : Bool := start1 ≤ end2 && start2 ≤ end1

variable {P : Type} [LinearOrder P]

def shouldSkipPair (fragA fragB : FragmentData P) (options : ClonesOptions) : Bool :=
  fragA.fileIdx = fragB.fileIdx && (!options.includeWithinFile ||
    rangesOverlap fragA.startLine fragA.endLine fragB.startLine fragB.endLine)

abbrev PairKey (P : Type) := P × Nat × Nat × P × Nat × Nat

def createPairKey (fragA fragB : FragmentData P) : PairKey P :=
  if fragA.file < fragB.file ∨ fragA.file = fragB.file ∧ fragA.startLine < fragB.startLine then
    (fragA.file, fragA.startLine, fragA.endLine, fragB.file, fragB.startLine, fragB.endLine)
  else (fragB.file, fragB.startLine, fragB.endLine, fragA.file, fragA.startLine, fragA.endLine)

def FragmentData.toCloneFragment (frag : FragmentData P) : CloneFragment P :=
  let fragment := (CloneFragment.new frag.file frag.startLine frag.endLine
    frag.rawTokens.length).withPreview frag.preview
  match frag.functionName with
  | none => fragment
  | some name => fragment.withFunction name

def makeClonePair (id : Nat) (cloneType : CloneType) (similarity : ℚ)
    (fragA fragB : FragmentData P) : ClonePair P :=
  (ClonePair.new id cloneType similarity fragA.toCloneFragment fragB.toCloneFragment).canonical

/-- A pair that is kept, by the fragments it is made from. -/
structure Match (P : Type) where
  cloneType : CloneType
  similarity : ℚ
  fragA : FragmentData P
  fragB : FragmentData P

def Match.toClonePair (m : Match P) : ClonePair P :=
  makeClonePair 0 m.cloneType m.similarity m.fragA m.fragB

def Match.key (m : Match P) : PairKey P := createPairKey m.fragA m.fragB

/-- `clone_pairs` and `found_pairs`. -/
abbrev Detected (P : Type) := Collection (PairKey P) (Match P)

def clonePairs (s : Detected P) : List (ClonePair P) := s.kept.map Match.toClonePair

/-! ## Pairs with one hash -/

/-- All pairs of members of a list, in the order of their places. -/
def pairs {α : Type} : List α → List (α × α)
  | [] => []
  | a :: l => l.map (a, ·) ++ pairs l

/-- The fragments by their hashes, in the order of the hashes. -/
def buckets (hash : FragmentData P → Nat) (fragments : List (FragmentData P)) :
    List (List (FragmentData P)) :=
  ((group hash fragments).entries.insertionSort (·.1 ≤ ·.1)).map (·.2)

def exactStep (options : ClonesOptions) (s : Detected P) (fragA fragB : FragmentData P) :
    Detected P :=
  if options.maxClones ≤ s.kept.length then s
  else if shouldSkipPair fragA fragB options then s
  else
    let similarity := computeDiceSimilarity fragA.rawTokens fragB.rawTokens
    if similarity < 99 / 100 then s
    else
      let pairKey := createPairKey fragA fragB
      if pairKey ∈ s.seen then s
      else if options.admits .type1 then
        ⟨s.kept ++ [⟨.type1, similarity, fragA, fragB⟩], pairKey :: s.seen⟩
      else { s with seen := pairKey :: s.seen }

/-- The similarity of two fragments with one normalized hash. -/
def renamedSimilarity (fragA fragB : FragmentData P) : Option ℚ :=
  let rawSimilarity := computeDiceSimilarity fragA.rawTokens fragB.rawTokens
  if 9 / 10 ≤ rawSimilarity then some rawSimilarity
  else
    let normSim := computeDiceSimilarity fragA.normalizedTokens fragB.normalizedTokens
    if normSim < 9 / 10 then none else some (max rawSimilarity normSim)

def renamedStep (options : ClonesOptions) (s : Detected P) (fragA fragB : FragmentData P) :
    Detected P :=
  if options.maxClones ≤ s.kept.length then s
  else if shouldSkipPair fragA fragB options then s
  else
    let pairKey := createPairKey fragA fragB
    if pairKey ∈ s.seen then s
    else match renamedSimilarity fragA fragB with
      | none => s
      | some similarity =>
        let cloneType := classifyCloneType similarity
        if options.admits cloneType then
          ⟨s.kept ++ [⟨cloneType, similarity, fragA, fragB⟩], pairKey :: s.seen⟩
        else s

def detectType1Type2 (fragments : List (FragmentData P)) (options : ClonesOptions)
    (foundPairs : List (PairKey P)) : Detected P :=
  let s := (buckets (·.rawHash) fragments).foldl (fun s indices =>
    (pairs indices).foldl (fun s p => exactStep options s p.1 p.2) s) ⟨[], foundPairs⟩
  (buckets (·.normalizedHash) fragments).foldl (fun s indices =>
    (pairs indices).foldl (fun s p => renamedStep options s p.1 p.2) s) s

/-! ## Pairs that share tokens -/

abbrev Postings := AList fun _ : NormalizedToken => List Nat

/-- A fragment is entered under a token, unless there are 500 already. -/
def addPosting (fragIdx : Nat) (inverted : Postings) (token : NormalizedToken) : Postings :=
  let entry := (inverted.lookup token).getD []
  inverted.insert token (if entry.length < 500 then entry ++ [fragIdx] else entry)

/-- `unique_tokens`, in the order of the set. -/
def uniqueTokens (ord : HashOrder) (frag : FragmentData P) : List NormalizedToken :=
  ord.order frag.rawTokens.dedup

/-- `inverted`. -/
def invertedIndex (ord : HashOrder) (fragments : List (FragmentData P)) : Postings :=
  fragments.zipIdx.foldl (fun inverted p =>
    (uniqueTokens ord p.1).foldl (addPosting p.2) inverted) ∅

def sharedCounts (ord : HashOrder) (inverted : Postings) (frag : FragmentData P) (fragIdx : Nat) :
    AList fun _ : Nat => Nat :=
  (uniqueTokens ord frag).foldl (fun counts token =>
    ((inverted.lookup token).getD []).foldl (fun counts otherIdx =>
      if fragIdx < otherIdx then counts.insert otherIdx ((counts.lookup otherIdx).getD 0 + 1)
      else counts) counts) ∅

def minShared (threshold : ℚ) (size1 size2 : Nat) : Nat := ⌈threshold * (size1 + size2 : Nat) / 2⌉₊

def sharingStep (ord : HashOrder) (options : ClonesOptions) (s : Detected P)
    (frag otherFrag : FragmentData P) (shared : Nat) : Detected P :=
  if options.maxClones ≤ s.kept.length then s
  else if shared < minShared options.threshold (uniqueTokens ord frag).length
      (uniqueTokens ord otherFrag).length then s
  else if shouldSkipPair frag otherFrag options then s
  else
    let pairKey := createPairKey frag otherFrag
    if pairKey ∈ s.seen then s
    else
      let similarity := computeDiceSimilarity frag.rawTokens otherFrag.rawTokens
      if similarity < options.threshold then s
      else
        let cloneType := classifyCloneType similarity
        if options.admits cloneType then
          ⟨s.kept ++ [⟨cloneType, similarity, frag, otherFrag⟩], pairKey :: s.seen⟩
        else s

/-- The fragments after this one that share tokens with it, with the numbers of tokens. -/
def sharing (ord : HashOrder) (fragments : List (FragmentData P)) (frag : FragmentData P)
    (fragIdx : Nat) : List (FragmentData P × Nat) :=
  let sorted := (sharedCounts ord (invertedIndex ord fragments) frag fragIdx).entries.insertionSort
    (·.1 ≤ ·.1)
  sorted.filterMap fun e => (fragments[e.1]?).map (·, e.2)

def detectType3 (ord : HashOrder) (fragments : List (FragmentData P)) (options : ClonesOptions)
    (foundPairs : List (PairKey P)) : Detected P :=
  fragments.zipIdx.foldl (fun s p => (sharing ord fragments p.1 p.2).foldl (fun s other =>
    sharingStep ord options s p.1 other.1 other.2) s) ⟨[], foundPairs⟩

/-! ## What the passes offer -/

variable {options : ClonesOptions} {fragA fragB : FragmentData P} {s : Detected P}

/-- What a pair with one raw hash is offered as. -/
def exactOffer (options : ClonesOptions) (fragA fragB : FragmentData P) :
    Option (Offer (PairKey P) (Match P)) :=
  let similarity := computeDiceSimilarity fragA.rawTokens fragB.rawTokens
  if shouldSkipPair fragA fragB options ∨ similarity < 99 / 100 then none
  else some ⟨createPairKey fragA fragB,
    if options.admits .type1 then some ⟨.type1, similarity, fragA, fragB⟩ else none⟩

/-- A pair that is labelled by its similarity, unless the filter rejects the label. -/
def labelledOffer (options : ClonesOptions) (fragA fragB : FragmentData P) (similarity : ℚ) :
    Option (Offer (PairKey P) (Match P)) :=
  if options.admits (classifyCloneType similarity) then
    some ⟨createPairKey fragA fragB,
      some ⟨classifyCloneType similarity, similarity, fragA, fragB⟩⟩
  else none

/-- What a pair with one normalized hash is offered as. -/
def renamedOffer (options : ClonesOptions) (fragA fragB : FragmentData P) :
    Option (Offer (PairKey P) (Match P)) :=
  if shouldSkipPair fragA fragB options then none
  else (renamedSimilarity fragA fragB).bind (labelledOffer options fragA fragB)

/-- The pair shares enough tokens, counted once each, to be looked at. -/
def EnoughShared (ord : HashOrder) (options : ClonesOptions) (fragA fragB : FragmentData P)
    (shared : Nat) : Prop :=
  minShared options.threshold (uniqueTokens ord fragA).length (uniqueTokens ord fragB).length ≤
    shared
  deriving Decidable

/-- What a pair that shares tokens is offered as. -/
def sharingOffer (ord : HashOrder) (options : ClonesOptions) (fragA fragB : FragmentData P)
    (shared : Nat) : Option (Offer (PairKey P) (Match P)) :=
  let similarity := computeDiceSimilarity fragA.rawTokens fragB.rawTokens
  if ¬ EnoughShared ord options fragA fragB shared ∨ shouldSkipPair fragA fragB options ∨
      similarity < options.threshold then none
  else labelledOffer options fragA fragB similarity

def offerAny {K V : Type} [DecidableEq K] (limit : Nat) (c : Collection K V)
    (o : Option (Offer K V)) : Collection K V :=
  match o with
  | none => c
  | some o => c.offer limit o

section

variable (options : ClonesOptions) (s : Detected P) (fragA fragB : FragmentData P)

theorem exactStep_eq :
    exactStep options s fragA fragB =
      offerAny options.maxClones s (exactOffer options fragA fragB) := by
  unfold exactStep exactOffer
  dsimp only
  by_cases hskip : shouldSkipPair fragA fragB options = true
  · rw [if_pos hskip, ite_self, if_pos (.inl hskip)]
    rfl
  · by_cases hsim : computeDiceSimilarity fragA.rawTokens fragB.rawTokens < 99 / 100
    · rw [if_neg hskip, if_pos hsim, ite_self, if_pos (.inr hsim)]
      rfl
    · rw [if_neg hskip, if_neg hsim, if_neg (not_or.2 ⟨hskip, hsim⟩), offerAny, Collection.offer]
      by_cases hfull : options.maxClones ≤ s.kept.length
      · rw [if_pos hfull, if_pos (.inl hfull)]
      · by_cases hseen : createPairKey fragA fragB ∈ s.seen
        · rw [if_neg hfull, if_pos hseen, if_pos (.inr hseen)]
        · rw [if_neg hfull, if_neg hseen, if_neg (not_or.2 ⟨hfull, hseen⟩)]
          by_cases hadmits : options.admits .type1 = true
          · rw [if_pos hadmits, if_pos hadmits]
            rfl
          · rw [if_neg hadmits, if_neg hadmits, Option.toList_none, List.append_nil]

theorem labelledOffer_eq (similarity : ℚ) :
    offerAny options.maxClones s (labelledOffer options fragA fragB similarity) =
      if options.maxClones ≤ s.kept.length ∨ createPairKey fragA fragB ∈ s.seen then s
      else if options.admits (classifyCloneType similarity) then
        ⟨s.kept ++ [⟨classifyCloneType similarity, similarity, fragA, fragB⟩],
          createPairKey fragA fragB :: s.seen⟩
      else s := by
  unfold labelledOffer
  by_cases hadmits : options.admits (classifyCloneType similarity) = true
  · rw [if_pos hadmits, if_pos hadmits, offerAny, Collection.offer]
    by_cases h : options.maxClones ≤ s.kept.length ∨ createPairKey fragA fragB ∈ s.seen
    · rw [if_pos h, if_pos h]
    · rw [if_neg h, if_neg h]
      rfl
  · rw [if_neg hadmits, if_neg hadmits, ite_self]
    rfl

theorem renamedStep_eq :
    renamedStep options s fragA fragB =
      offerAny options.maxClones s (renamedOffer options fragA fragB) := by
  unfold renamedStep renamedOffer
  by_cases hskip : shouldSkipPair fragA fragB options = true
  · rw [if_pos hskip, if_pos hskip, ite_self]
    rfl
  · rw [if_neg hskip, if_neg hskip]
    cases renamedSimilarity fragA fragB with
    | none =>
      dsimp only
      rw [ite_self, ite_self]
      rfl
    | some similarity =>
      rw [Option.bind_some, labelledOffer_eq, ite_or]

end

theorem sharingStep_eq (ord : HashOrder) (options : ClonesOptions) (s : Detected P)
    (fragA fragB : FragmentData P) (shared : Nat) :
    sharingStep ord options s fragA fragB shared =
      offerAny options.maxClones s (sharingOffer ord options fragA fragB shared) := by
  unfold sharingStep sharingOffer EnoughShared
  dsimp only
  by_cases hshared : shared < minShared options.threshold (uniqueTokens ord fragA).length
      (uniqueTokens ord fragB).length
  · rw [if_pos hshared, ite_self, if_pos (.inl (not_le.2 hshared))]
    rfl
  · by_cases hskip : shouldSkipPair fragA fragB options = true
    · rw [if_neg hshared, if_pos hskip, ite_self, if_pos (.inr (.inl hskip))]
      rfl
    · by_cases hsim : computeDiceSimilarity fragA.rawTokens fragB.rawTokens < options.threshold
      · rw [if_neg hshared, if_neg hskip, if_pos hsim, ite_self, ite_self,
          if_pos (.inr (.inr hsim))]
        rfl
      · have hnot : ¬ (¬ minShared options.threshold (uniqueTokens ord fragA).length
            (uniqueTokens ord fragB).length ≤ shared ∨ shouldSkipPair fragA fragB options = true ∨
              computeDiceSimilarity fragA.rawTokens fragB.rawTokens < options.threshold) := by
          rw [not_or, not_or, not_not]
          exact ⟨not_lt.1 hshared, hskip, hsim⟩
        rw [if_neg hshared, if_neg hskip, if_neg hsim, if_neg hnot, labelledOffer_eq, ite_or]

theorem foldl_offerAny {K V α : Type} [DecidableEq K] (limit : Nat) (c : Collection K V)
    (f : α → Option (Offer K V)) (l : List α) :
    l.foldl (fun c a => offerAny limit c (f a)) c =
      (l.filterMap f).foldl (Collection.offer limit) c := by
  rw [List.foldl_filterMap]
  refine List.foldl_ext _ _ _ fun c a _ => ?_
  cases f a <;> rfl

def hashOffers (options : ClonesOptions) (fragments : List (FragmentData P)) :
    List (Offer (PairKey P) (Match P)) :=
  (((buckets (·.rawHash) fragments).flatMap pairs).filterMap fun p => exactOffer options p.1 p.2) ++
    ((buckets (·.normalizedHash) fragments).flatMap pairs).filterMap fun p =>
      renamedOffer options p.1 p.2

def sharingOffers (ord : HashOrder) (options : ClonesOptions) (fragments : List (FragmentData P)) :
    List (Offer (PairKey P) (Match P)) :=
  fragments.zipIdx.flatMap fun p => (sharing ord fragments p.1 p.2).filterMap fun other =>
    sharingOffer ord options p.1 other.1 other.2

/-- **The first two passes** keep what they offer. -/
theorem detectType1Type2_eq (fragments : List (FragmentData P)) (options : ClonesOptions)
    (foundPairs : List (PairKey P)) : detectType1Type2 fragments options foundPairs =
      (hashOffers options fragments).foldl (Collection.offer options.maxClones)
        ⟨[], foundPairs⟩ := by
  have hpass : ∀ (l : List (List (FragmentData P)))
      (step : Detected P → FragmentData P → FragmentData P → Detected P)
      (toOffer : FragmentData P → FragmentData P → Option (Offer (PairKey P) (Match P))),
      (∀ s a b, step s a b = offerAny options.maxClones s (toOffer a b)) → ∀ s,
      l.foldl (fun s indices => (pairs indices).foldl (fun s p => step s p.1 p.2) s) s =
        ((l.flatMap pairs).filterMap fun p => toOffer p.1 p.2).foldl
          (Collection.offer options.maxClones) s := by
    intro l step toOffer hstep s
    rw [← List.foldl_flatMap, ← foldl_offerAny]
    simp only [hstep]
  unfold detectType1Type2 hashOffers
  rw [List.foldl_append, ← hpass _ _ _ (exactStep_eq options),
    ← hpass _ _ _ (renamedStep_eq options)]

/-- **The third pass** keeps what it offers. -/
theorem detectType3_eq (ord : HashOrder) (fragments : List (FragmentData P))
    (options : ClonesOptions) (foundPairs : List (PairKey P)) :
    detectType3 ord fragments options foundPairs =
      (sharingOffers ord options fragments).foldl (Collection.offer options.maxClones)
        ⟨[], foundPairs⟩ := by
  unfold detectType3 sharingOffers
  rw [List.foldl_flatMap]
  refine List.foldl_ext _ _ _ fun s p _ => ?_
  rw [← foldl_offerAny]
  simp only [sharingStep_eq]

/-! ## Which pairs come up -/

theorem mem_pairs {α : Type} {a b : α} {l : List α} : (a, b) ∈ pairs l ↔ [a, b].Sublist l := by
  induction l with
  | nil =>
    exact ⟨fun h => absurd h List.not_mem_nil, fun h => absurd (List.sublist_nil.1 h) nofun⟩
  | cons x l ih =>
    rw [pairs, List.mem_append, ih, List.mem_map, List.cons_sublist_cons', List.singleton_sublist,
      or_comm]
    refine or_congr_right ⟨?_, ?_⟩
    · rintro ⟨b', hb', heq⟩
      cases heq
      exact ⟨rfl, hb'⟩
    · rintro ⟨rfl, hb⟩
      exact ⟨b, hb, rfl⟩

variable {hash : FragmentData P → Nat} {fragments : List (FragmentData P)}
  {o : Offer (PairKey P) (Match P)}

omit [LinearOrder P] in
theorem mem_buckets {bucket : List (FragmentData P)} :
    bucket ∈ buckets hash fragments ↔
      bucket ≠ [] ∧ ∃ c, fragments.filter (fun frag => hash frag = c) = bucket := by
  have hentry : ∀ c, (⟨c, bucket⟩ : Sigma fun _ : Nat => List (FragmentData P)) ∈
      (group hash fragments).entries ↔
        bucket ≠ [] ∧ fragments.filter (fun frag => hash frag = c) = bucket := by
    intro c
    rw [← AList.mem_lookup_iff, lookup_group, Option.mem_def, nonempty_eq_some]
    exact and_congr_left fun heq => heq ▸ .rfl
  unfold buckets
  rw [List.mem_map, ← exists_and_left]
  constructor
  · rintro ⟨⟨c, bucket⟩, hmem, rfl⟩
    exact ⟨c, (hentry c).1 ((List.mem_insertionSort _).1 hmem)⟩
  · rintro ⟨c, h⟩
    exact ⟨⟨c, bucket⟩, (List.mem_insertionSort _).2 ((hentry c).2 h), rfl⟩

omit [LinearOrder P] in
theorem mem_flatMap_buckets : (fragA, fragB) ∈ (buckets hash fragments).flatMap pairs ↔
    [fragA, fragB].Sublist fragments ∧ hash fragA = hash fragB := by
  rw [List.mem_flatMap]
  constructor
  · rintro ⟨bucket, hbucket, hpair⟩
    obtain ⟨-, c, rfl⟩ := mem_buckets.1 hbucket
    have hsublist := mem_pairs.1 hpair
    have hhash : ∀ frag ∈ [fragA, fragB], hash frag = c := fun frag hfrag =>
      of_decide_eq_true (List.mem_filter.1 (hsublist.subset hfrag)).2
    refine ⟨hsublist.trans List.filter_sublist, ?_⟩
    rw [hhash fragA List.mem_cons_self, hhash fragB (List.mem_cons_of_mem _ List.mem_cons_self)]
  · rintro ⟨hsublist, heq⟩
    have hself : [fragA, fragB].filter (fun frag => hash frag = hash fragA) = [fragA, fragB] := by
      simp [heq]
    have hfilter := hself ▸ hsublist.filter fun frag => decide (hash frag = hash fragA)
    refine ⟨_, mem_buckets.2 ⟨?_, _, rfl⟩, mem_pairs.2 hfilter⟩
    exact List.ne_nil_of_mem (hfilter.subset List.mem_cons_self)

/-- **What the first two passes offer**: the pairs with one hash. -/
theorem mem_hashOffers : o ∈ hashOffers options fragments ↔
    ∃ fragA fragB, [fragA, fragB].Sublist fragments ∧
      (fragA.rawHash = fragB.rawHash ∧ exactOffer options fragA fragB = some o ∨
        fragA.normalizedHash = fragB.normalizedHash ∧
          renamedOffer options fragA fragB = some o) := by
  simp only [hashOffers, List.mem_append, List.mem_filterMap, Prod.exists, mem_flatMap_buckets,
    and_or_left, exists_or, and_assoc]

theorem exactOffer_eq_some :
    exactOffer options fragA fragB = some o ↔ shouldSkipPair fragA fragB options = false ∧
      99 / 100 ≤ computeDiceSimilarity fragA.rawTokens fragB.rawTokens ∧
        o = ⟨createPairKey fragA fragB, if options.admits .type1 then some
          ⟨.type1, computeDiceSimilarity fragA.rawTokens fragB.rawTokens, fragA, fragB⟩
            else none⟩ := by
  unfold exactOffer
  dsimp only
  rw [← Bool.not_eq_true, ← not_lt, ← and_assoc, ← not_or]
  by_cases h : shouldSkipPair fragA fragB options = true ∨
      computeDiceSimilarity fragA.rawTokens fragB.rawTokens < 99 / 100
  · rw [if_pos h]
    exact ⟨nofun, fun hn => absurd h hn.1⟩
  · rw [if_neg h, Option.some_inj, eq_comm]
    exact ⟨fun heq => ⟨h, heq⟩, And.right⟩

theorem labelledOffer_eq_some {similarity : ℚ} :
    labelledOffer options fragA fragB similarity = some o ↔
      options.admits (classifyCloneType similarity) ∧ o = ⟨createPairKey fragA fragB,
        some ⟨classifyCloneType similarity, similarity, fragA, fragB⟩⟩ := by
  unfold labelledOffer
  split_ifs with h
  · rw [Option.some_inj, eq_comm]
    exact ⟨fun heq => ⟨h, heq⟩, And.right⟩
  · exact ⟨nofun, fun hn => absurd hn.1 h⟩

theorem renamedOffer_eq_some :
    renamedOffer options fragA fragB = some o ↔ shouldSkipPair fragA fragB options = false ∧
      ∃ similarity, renamedSimilarity fragA fragB = some similarity ∧
        labelledOffer options fragA fragB similarity = some o := by
  unfold renamedOffer
  split_ifs with h
  · exact ⟨nofun, fun hn => absurd (hn.1.symm.trans h) Bool.false_ne_true⟩
  · rw [Option.bind_eq_some_iff]
    exact ⟨fun hsome => ⟨Bool.eq_false_of_not_eq_true h, hsome⟩, And.right⟩

end TldrCode.Clones
