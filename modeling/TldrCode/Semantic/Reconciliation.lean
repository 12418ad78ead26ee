import TldrCode.Semantic.Lineage
import TldrCode.Types
import Mathlib.Data.List.Sigma
import Mathlib.Data.List.Zip

/-!
# Reconciliation in any order

`semantic/lineage.rs`: the passes of `reconcile_chunks` go through hash tables. Whatever their
orders are, the same identities are preserved, each for one chunk, and each for a reason of the pass
that preserves it (`reconcileChunksIn_spec`).
-/

namespace TldrCode.Semantic

/-! ## Passes with an order -/

structure ReconciledChunk where
  id : Nat
  preserved : Bool
  deriving DecidableEq, Repr

/-- Chunks before the change, with their numbers, whose identities go to chunks after it. -/
abbrev Pairs := List ((Nat × PriorChunk) × Nat)

def Assignment.assignAll (a : Assignment) (pairs : Pairs) : Assignment :=
  pairs.foldl (fun result pair => result.assign pair.1 pair.2) a

section Orders

variable (prior : List PriorChunk) (candidates : List ChunkCandidate)

/-- The two chunks that alone have a key on their sides. -/
def uniquePair {κ : Type} [DecidableEq κ] (oldKey : PriorChunk → Option κ)
    (newKey : ChunkCandidate → Option κ) (a : Assignment) (key : κ) :
    Option ((Nat × PriorChunk) × Nat) :=
  match (freeOld prior a).filter (oldKey ·.2 = some key),
    (freeNew candidates a).filter (newKey ·.2 = some key) with
  | [item], [(i, _)] => some (item, i)
  | _, _ => none

/-- `assign_unique`, with the order of its table of keys. -/
def assignUniqueIn {κ : Type} [DecidableEq κ] (ord : HashOrder) (oldKey : PriorChunk → Option κ)
    (newKey : ChunkCandidate → Option κ) (a : Assignment) : Assignment :=
  (ord.order ((freeOld prior a).filterMap (oldKey ·.2)).dedup).foldl (fun result key =>
    match uniquePair prior candidates oldKey newKey a key with
    | some pair => result.assign pair.1 pair.2
    | none => result) a

/-- The siblings of a group in their order, if all have different signatures. -/
def siblingPairs (a : Assignment) (key : String × Option String × StructuralRole) : Pairs :=
  let oldGroup := ((freeOld prior a).filter (siblingKey ·.2.anchor = key)).insertionSort fun x y =>
    x.2.anchor.astPath ≤ y.2.anchor.astPath
  let newGroup := ((freeNew candidates a).filter (siblingKey ·.2.anchor = key)).insertionSort
    fun x y => x.2.anchor.astPath ≤ y.2.anchor.astPath
  let oldSignatures := (oldGroup.filterMap (·.2.anchor.signature)).dedup
  let newSignatures := (newGroup.filterMap (·.2.anchor.signature)).dedup
  if oldGroup.length ≠ newGroup.length ∨ oldSignatures.length ≠ oldGroup.length ∨
      newSignatures.length ≠ newGroup.length then []
  else (oldGroup.zip newGroup).map fun pair => (pair.1, pair.2.1)

/-- The last pass, with the order of its table of groups. -/
def assignSiblingsIn (ord : HashOrder) (a : Assignment) : Assignment :=
  (ord.order ((freeOld prior a).map fun item => siblingKey item.2.anchor).dedup).foldl
    (fun result key => result.assignAll (siblingPairs prior candidates a key)) a

/-- The passes of `reconcile_chunks`, each with its order. -/
def reconciledIn (ord : Nat → HashOrder) : Assignment :=
  let a := assignUniqueIn prior candidates (ord 0) (symbolPathKey ·.anchor)
    (symbolPathKey ·.anchor) .empty
  let a := assignUniqueIn prior candidates (ord 1) (signatureKey ·.anchor) (signatureKey ·.anchor) a
  let a := assignUniqueIn prior candidates (ord 2) (fun c => revisionKey c.anchor c.revision)
    (fun c => revisionKey c.anchor c.revision) a
  assignSiblingsIn prior candidates (ord 3) a

/-- The identities that are assigned, and new ones, of which so many have been allocated. -/
def chunksFrom (hashes : Hashes) (nonce : Nat) (a : Assignment) :
    Nat → List (ChunkCandidate × Nat) → List ReconciledChunk
  | _, [] => []
  | next, (candidate, index) :: rest =>
    match a.assigned index with
    | some id => ⟨id, true⟩ :: chunksFrom hashes nonce a next rest
    | none => ⟨hashes.allocate nonce next candidate, false⟩ ::
        chunksFrom hashes nonce a (min (next + 1) (2 ^ 64 - 1)) rest

/-- `reconcile_chunks`, with the orders of its tables. -/
def reconcileChunksIn (ord : Nat → HashOrder) (hashes : Hashes) (nonce : Nat) :
    List ReconciledChunk :=
  chunksFrom hashes nonce (reconciledIn prior candidates ord) 0 candidates.zipIdx

end Orders

/-! ## Assigning pairs -/

section Pairs

variable {a : Assignment} {pairs pairs' : Pairs} {pair : (Nat × PriorChunk) × Nat} {i j : Nat}

/-- Every chunk after the change is in one pair. -/
def Functional (pairs : Pairs) : Prop :=
  ∀ pair ∈ pairs, ∀ pair' ∈ pairs, pair.2 = pair'.2 → pair = pair'

theorem assigned_assignAll_of_ne (h : ∀ pair ∈ pairs, pair.2 ≠ i) :
    (a.assignAll pairs).assigned i = a.assigned i := by
  induction pairs generalizing a with
  | nil => rfl
  | cons pair pairs ih =>
    rw [List.forall_mem_cons] at h
    refine (ih h.2).trans ?_
    exact Function.update_of_ne h.1.symm _ _

theorem assigned_assignAll_of_mem (hfunctional : Functional pairs) (h : pair ∈ pairs) :
    (a.assignAll pairs).assigned pair.2 = some pair.1.2.id := by
  induction pairs generalizing a with
  | nil => cases h
  | cons first pairs ih =>
    have hrest : Functional pairs := fun pair hpair pair' hpair' =>
      hfunctional pair (List.mem_cons_of_mem _ hpair) pair' (List.mem_cons_of_mem _ hpair')
    change ((a.assign first.1 first.2).assignAll pairs).assigned pair.2 = _
    by_cases hlater : pair ∈ pairs
    · exact ih hrest hlater
    · obtain rfl : pair = first := (List.mem_cons.1 h).resolve_right hlater
      rw [assigned_assignAll_of_ne]
      · exact Function.update_self _ _ _
      · intro other hother heq
        have hsame := hfunctional other (List.mem_cons_of_mem _ hother) pair h heq
        exact hlater (hsame ▸ hother)

theorem used_assignAll : (a.assignAll pairs).used j = true ↔
    a.used j = true ∨ ∃ pair ∈ pairs, pair.1.1 = j := by
  induction pairs generalizing a with
  | nil => simp [Assignment.assignAll]
  | cons pair pairs ih =>
    change ((a.assign pair.1 pair.2).assignAll pairs).used j = true ↔ _
    rw [ih, List.exists_mem_cons_iff]
    by_cases h : j = pair.1.1
    · subst h
      simp [Assignment.assign]
    · have hused : (a.assign pair.1 pair.2).used j = a.used j := Function.update_of_ne h _ _
      have hne : pair.1.1 ≠ j := fun heq => h heq.symm
      simp [hused, hne]

theorem assignAll_congr (h : ∀ pair, pair ∈ pairs ↔ pair ∈ pairs')
    (hfunctional : Functional pairs) : a.assignAll pairs = a.assignAll pairs' := by
  have hfunctional' : Functional pairs' := fun pair hpair pair' hpair' =>
    hfunctional pair ((h pair).2 hpair) pair' ((h pair').2 hpair')
  have hused : (a.assignAll pairs).used = (a.assignAll pairs').used := by
    funext j
    rw [Bool.eq_iff_iff, used_assignAll, used_assignAll]
    simp only [h]
  have hassigned : (a.assignAll pairs).assigned = (a.assignAll pairs').assigned := by
    funext i
    by_cases hi : ∃ pair ∈ pairs, pair.2 = i
    · obtain ⟨pair, hpair, rfl⟩ := hi
      rw [assigned_assignAll_of_mem hfunctional hpair,
        assigned_assignAll_of_mem hfunctional' ((h pair).1 hpair)]
    · have hne : ∀ pair ∈ pairs, pair.2 ≠ i := fun pair hpair heq => hi ⟨pair, hpair, heq⟩
      rw [assigned_assignAll_of_ne hne,
        assigned_assignAll_of_ne fun pair hpair => hne pair ((h pair).2 hpair)]
  calc a.assignAll pairs
      = ⟨(a.assignAll pairs).used, (a.assignAll pairs).assigned⟩ := rfl
    _ = ⟨(a.assignAll pairs').used, (a.assignAll pairs').assigned⟩ := by rw [hused, hassigned]
    _ = a.assignAll pairs' := rfl

end Pairs

/-! ## Unique keys -/

section Unique

variable {prior : List PriorChunk} {candidates : List ChunkCandidate} {a : Assignment}
  {i j : Nat} {p : PriorChunk} {c : ChunkCandidate}

theorem mem_freeOld : (j, p) ∈ freeOld prior a ↔ prior[j]? = some p ∧ a.used j = false := by
  simp [freeOld, List.mk_mem_zipIdx_iff_getElem?]

theorem mem_freeNew :
    (i, c) ∈ freeNew candidates a ↔ candidates[i]? = some c ∧ a.assigned i = none := by
  simp [freeNew, List.mk_mem_zipIdx_iff_getElem?]

variable {κ : Type} [DecidableEq κ] {oldKey : PriorChunk → Option κ}
  {newKey : ChunkCandidate → Option κ} {key : κ} {pair : (Nat × PriorChunk) × Nat}

theorem uniquePair_eq_some : uniquePair prior candidates oldKey newKey a key = some pair ↔
    (freeOld prior a).filter (oldKey ·.2 = some key) = [pair.1] ∧
      ∃ c, (freeNew candidates a).filter (newKey ·.2 = some key) = [(pair.2, c)] := by
  unfold uniquePair
  split
  · next item i c hold hnew =>
    rw [hold, hnew, Option.some.injEq]
    constructor
    · rintro rfl
      exact ⟨rfl, c, rfl⟩
    · rintro ⟨hitem, c', hc⟩
      obtain ⟨rfl, -⟩ := Prod.mk.inj (List.singleton_injective hc)
      rw [List.singleton_injective hitem]
  · next hnone =>
    refine iff_of_false nofun ?_
    rintro ⟨hold, c, hnew⟩
    exact hnone _ _ _ hold hnew

theorem mem_uniquePairs {keys : List κ}
    (hkeys : ∀ key, key ∈ keys ↔ ∃ item ∈ freeOld prior a, oldKey item.2 = some key) :
    pair ∈ keys.filterMap (uniquePair prior candidates oldKey newKey a) ↔
      ∃ key, uniquePair prior candidates oldKey newKey a key = some pair := by
  rw [List.mem_filterMap]
  refine ⟨fun ⟨key, _, h⟩ => ⟨key, h⟩, fun ⟨key, h⟩ => ⟨key, (hkeys key).2 ?_, h⟩⟩
  have hmem : pair.1 ∈ (freeOld prior a).filter (oldKey ·.2 = some key) := by
    rw [(uniquePair_eq_some.1 h).1]
    exact List.mem_singleton_self _
  exact ⟨pair.1, List.mem_of_mem_filter hmem, by simpa using (List.mem_filter.1 hmem).2⟩

theorem functional_uniquePairs (keys : List κ) :
    Functional (keys.filterMap (uniquePair prior candidates oldKey newKey a)) := by
  intro pair hpair pair' hpair' heq
  obtain ⟨key, -, hkey⟩ := List.mem_filterMap.1 hpair
  obtain ⟨key', -, hkey'⟩ := List.mem_filterMap.1 hpair'
  obtain ⟨hold, c, hnew⟩ := uniquePair_eq_some.1 hkey
  obtain ⟨hold', c', hnew'⟩ := uniquePair_eq_some.1 hkey'
  have hmem : (pair.2, c) ∈ (freeNew candidates a).filter (newKey ·.2 = some key) := by
    rw [hnew]
    exact List.mem_singleton_self _
  have hmem' : (pair'.2, c') ∈ (freeNew candidates a).filter (newKey ·.2 = some key') := by
    rw [hnew']
    exact List.mem_singleton_self _
  obtain ⟨hc, hk⟩ := List.mem_filter.1 hmem
  obtain ⟨hc', hk'⟩ := List.mem_filter.1 hmem'
  have hsame : some c = some c' := by
    rw [← (mem_freeNew.1 hc).1, ← (mem_freeNew.1 hc').1, heq]
  obtain rfl := Option.some.inj hsame
  have hkeys : some key = some key' := (of_decide_eq_true hk).symm.trans (of_decide_eq_true hk')
  obtain rfl := Option.some.inj hkeys
  exact Prod.ext (List.singleton_injective (hold.symm.trans hold')) heq

theorem assignUniqueIn_eq_assignAll (ord : HashOrder) :
    assignUniqueIn prior candidates ord oldKey newKey a = a.assignAll
      ((ord.order ((freeOld prior a).filterMap (oldKey ·.2)).dedup).filterMap
        (uniquePair prior candidates oldKey newKey a)) := by
  unfold assignUniqueIn Assignment.assignAll
  rw [List.foldl_filterMap]
  refine List.foldl_ext _ _ _ fun result key _ => ?_
  cases uniquePair prior candidates oldKey newKey a key <;> rfl

/-- **A pass does not depend on the order** of its table of keys. -/
theorem assignUniqueIn_eq_assignUnique (ord : HashOrder) :
    assignUniqueIn prior candidates ord oldKey newKey a =
      assignUnique prior candidates oldKey newKey a := by
  have hpairs : assignUnique prior candidates oldKey newKey a = a.assignAll
      (((freeOld prior a).filterMap (oldKey ·.2)).filterMap
        (uniquePair prior candidates oldKey newKey a)) := by
    unfold assignUnique Assignment.assignAll
    rw [List.filterMap_filterMap, List.foldl_filterMap]
    refine List.foldl_ext _ _ _ fun result item hitem => ?_
    cases hkey : oldKey item.2 with
    | none => simp
    | some key =>
      have hmem : item ∈ (freeOld prior a).filter (oldKey ·.2 = some key) :=
        List.mem_filter.2 ⟨hitem, decide_eq_true hkey⟩
      simp only [Option.bind_some]
      cases hpair : uniquePair prior candidates oldKey newKey a key with
      | some pair =>
        obtain ⟨hold, c, hnew⟩ := uniquePair_eq_some.1 hpair
        rw [hold, List.mem_singleton] at hmem
        simp only [hold, hnew, hmem]
      | none =>
        split
        · next item' i c hold hnew =>
          have hsome : uniquePair prior candidates oldKey newKey a key = some (item', i) :=
            uniquePair_eq_some.2 ⟨hold, c, hnew⟩
          exact nomatch hpair.symm.trans hsome
        · rfl
  rw [hpairs, assignUniqueIn_eq_assignAll]
  refine assignAll_congr (fun pair => ?_) (functional_uniquePairs _)
  rw [mem_uniquePairs, mem_uniquePairs]
  · simp
  · simp

end Unique

/-! ## Siblings -/

section Siblings

variable {prior : List PriorChunk} {candidates : List ChunkCandidate} {a : Assignment}
  {i j : Nat} {p : PriorChunk} {c : ChunkCandidate}
  {key : String × Option String × StructuralRole} {pair : (Nat × PriorChunk) × Nat}

/-- The chunks before the change of a group, in their order. -/
def oldSiblings (prior : List PriorChunk) (a : Assignment)
    (key : String × Option String × StructuralRole) : List (Nat × PriorChunk) :=
  ((freeOld prior a).filter (siblingKey ·.2.anchor = key)).insertionSort fun x y =>
    x.2.anchor.astPath ≤ y.2.anchor.astPath

/-- The chunks after the change of a group, in their order. -/
def newSiblings (candidates : List ChunkCandidate) (a : Assignment)
    (key : String × Option String × StructuralRole) : List (Nat × ChunkCandidate) :=
  ((freeNew candidates a).filter (siblingKey ·.2.anchor = key)).insertionSort fun x y =>
    x.2.anchor.astPath ≤ y.2.anchor.astPath

/-- A group has different signatures: all of its chunks, and no two the same. -/
def DifferentSignatures (anchors : List StructuralAnchor) : Prop :=
  (∀ anchor ∈ anchors, anchor.signature.isSome) ∧ (anchors.map (·.signature)).Nodup

theorem mem_oldSiblings : (j, p) ∈ oldSiblings prior a key ↔
    prior[j]? = some p ∧ a.used j = false ∧ siblingKey p.anchor = key := by
  rw [oldSiblings, List.mem_insertionSort, List.mem_filter, mem_freeOld, decide_eq_true_iff,
    and_assoc]

theorem mem_newSiblings : (i, c) ∈ newSiblings candidates a key ↔
    candidates[i]? = some c ∧ a.assigned i = none ∧ siblingKey c.anchor = key := by
  rw [newSiblings, List.mem_insertionSort, List.mem_filter, mem_freeNew, decide_eq_true_iff,
    and_assoc]

theorem differentSignatures_iff {anchors : List StructuralAnchor} :
    ((anchors.filterMap (·.signature)).dedup).length = anchors.length ↔
      DifferentSignatures anchors := by
  have hdedup := (List.dedup_sublist (anchors.filterMap (·.signature))).length_le
  have hfilter := List.length_filterMap_le (·.signature) anchors
  have hsome (hall : ∀ anchor ∈ anchors, anchor.signature.isSome) :
      (anchors.filterMap (·.signature)).map some = anchors.map (·.signature) := by
    rw [List.map_filterMap_some_eq_filter_map_isSome, List.filter_eq_self]
    intro signature hsignature
    obtain ⟨anchor, hanchor, rfl⟩ := List.mem_map.1 hsignature
    exact hall anchor hanchor
  constructor
  · intro h
    have hall := List.filterMap_length_eq_length.1
      (Nat.le_antisymm hfilter (h.symm.le.trans hdedup))
    refine ⟨hall, ?_⟩
    rw [← hsome hall]
    refine List.Nodup.map (Option.some_injective _) (List.dedup_eq_self.1 ?_)
    exact (List.dedup_sublist _).eq_of_length (Nat.le_antisymm hdedup (hfilter.trans h.symm.le))
  · rintro ⟨hall, hnodup⟩
    rw [← hsome hall] at hnodup
    rw [List.dedup_eq_self.2 (List.Nodup.of_map _ hnodup)]
    exact List.filterMap_length_eq_length.2 hall

theorem mem_siblingPairs : pair ∈ siblingPairs prior candidates a key ↔
    (oldSiblings prior a key).length = (newSiblings candidates a key).length ∧
      DifferentSignatures ((oldSiblings prior a key).map (·.2.anchor)) ∧
      DifferentSignatures ((newSiblings candidates a key).map (·.2.anchor)) ∧
      ∃ c, (pair.1, (pair.2, c)) ∈
        (oldSiblings prior a key).zip (newSiblings candidates a key) := by
  rw [← differentSignatures_iff, ← differentSignatures_iff, List.length_map, List.length_map,
    List.filterMap_map, List.filterMap_map]
  change pair ∈ (if _ then [] else _) ↔ _
  split
  · next hguard =>
    refine iff_of_false List.not_mem_nil ?_
    rintro ⟨hlength, hold, hnew, -⟩
    rcases hguard with h | h | h
    · exact h hlength
    · exact h hold
    · exact h hnew
  · next hguard =>
    rw [not_or, not_or, not_not, not_not, not_not] at hguard
    refine ⟨fun hmem => ⟨hguard.1, hguard.2.1, hguard.2.2, ?_⟩, fun ⟨_, _, _, c, hc⟩ => ?_⟩
    · obtain ⟨⟨old, i, c⟩, hc, rfl⟩ := List.mem_map.1 hmem
      exact ⟨c, hc⟩
    · exact List.mem_map.2 ⟨_, hc, rfl⟩

theorem nodup_freeOld : (freeOld prior a).Nodup := by
  refine List.Nodup.map ?_ ((List.nodup_zipIdx_map_snd prior).of_map _ |>.filter _)
  rintro ⟨x, n⟩ ⟨y, m⟩ h
  obtain ⟨rfl, rfl⟩ := Prod.mk.inj h
  rfl

theorem nodup_freeNew : (freeNew candidates a).Nodup := by
  refine List.Nodup.map ?_ ((List.nodup_zipIdx_map_snd candidates).of_map _ |>.filter _)
  rintro ⟨x, n⟩ ⟨y, m⟩ h
  obtain ⟨rfl, rfl⟩ := Prod.mk.inj h
  rfl

theorem nodup_oldSiblings : (oldSiblings prior a key).Nodup :=
  (List.perm_insertionSort _ _).nodup_iff.2 (nodup_freeOld.filter _)

theorem nodup_newSiblings : (newSiblings candidates a key).Nodup :=
  (List.perm_insertionSort _ _).nodup_iff.2 (nodup_freeNew.filter _)

/-- An element of a list without duplicates is in one pair with another list. -/
theorem fst_eq_of_mem_zip {α β : Type} {xs : List α} {ys : List β} {x x' : α} {y : β}
    (hnodup : ys.Nodup) (h : (x, y) ∈ xs.zip ys) (h' : (x', y) ∈ xs.zip ys) : x = x' := by
  induction xs generalizing ys with
  | nil => cases h
  | cons first xs ih =>
    cases ys with
    | nil => cases h
    | cons second ys =>
      obtain ⟨hsecond, hnodup⟩ := List.nodup_cons.1 hnodup
      rw [List.zip_cons_cons, List.mem_cons, Prod.mk.injEq] at h h'
      rcases h with ⟨rfl, rfl⟩ | h
      · rcases h' with ⟨rfl, -⟩ | h'
        · rfl
        · exact absurd (List.of_mem_zip h').2 hsecond
      · rcases h' with ⟨rfl, rfl⟩ | h'
        · exact absurd (List.of_mem_zip h).2 hsecond
        · exact ih hnodup h h'

theorem snd_eq_of_mem_zip {α β : Type} {xs : List α} {ys : List β} {x : α} {y y' : β}
    (hnodup : xs.Nodup) (h : (x, y) ∈ xs.zip ys) (h' : (x, y') ∈ xs.zip ys) : y = y' := by
  have hswap {y : β} (h : (x, y) ∈ xs.zip ys) : (y, x) ∈ ys.zip xs := by
    rw [← List.zip_swap]
    exact List.mem_map_of_mem h
  exact fst_eq_of_mem_zip hnodup (hswap h) (hswap h')

theorem functional_siblingPairs (keys : List (String × Option String × StructuralRole)) :
    Functional (keys.flatMap (siblingPairs prior candidates a)) := by
  rintro ⟨old, i⟩ hpair ⟨old', i'⟩ hpair' (rfl : i = i')
  obtain ⟨key, -, hkey⟩ := List.mem_flatMap.1 hpair
  obtain ⟨key', -, hkey'⟩ := List.mem_flatMap.1 hpair'
  obtain ⟨-, -, -, c, hc⟩ := mem_siblingPairs.1 hkey
  obtain ⟨-, -, -, c', hc'⟩ := mem_siblingPairs.1 hkey'
  obtain ⟨hindex, -, hsame⟩ := mem_newSiblings.1 (List.of_mem_zip hc).2
  obtain ⟨hindex', -, hsame'⟩ := mem_newSiblings.1 (List.of_mem_zip hc').2
  obtain rfl := Option.some.inj (hindex.symm.trans hindex')
  obtain rfl := hsame.symm.trans hsame'
  exact Prod.ext (fst_eq_of_mem_zip nodup_newSiblings hc hc') rfl

theorem assignSiblingsIn_eq_assignAll (ord : HashOrder) :
    assignSiblingsIn prior candidates ord a = a.assignAll
      ((ord.order ((freeOld prior a).map fun item => siblingKey item.2.anchor).dedup).flatMap
        (siblingPairs prior candidates a)) := by
  unfold assignSiblingsIn Assignment.assignAll
  rw [List.foldl_flatMap]

/-- **The last pass does not depend on the order** of its table of groups. -/
theorem assignSiblingsIn_eq_assignSiblings (ord : HashOrder) :
    assignSiblingsIn prior candidates ord a = assignSiblings prior candidates a := by
  have hpairs : assignSiblings prior candidates a = a.assignAll
      ((((freeOld prior a).map fun item => siblingKey item.2.anchor).dedup).flatMap
        (siblingPairs prior candidates a)) := by
    unfold assignSiblings Assignment.assignAll
    rw [List.foldl_flatMap]
    refine List.foldl_ext _ _ _ fun result key _ => ?_
    unfold siblingPairs
    dsimp only
    split
    · rfl
    · rw [List.foldl_map]
  rw [hpairs, assignSiblingsIn_eq_assignAll]
  refine assignAll_congr (fun pair => ?_) (functional_siblingPairs _)
  simp only [List.mem_flatMap, HashOrder.mem_order]

end Siblings

/-! ## Links -/

section Links

variable {prior : List PriorChunk} {candidates : List ChunkCandidate} {a : Assignment}
  {link : Nat → Nat → Prop}

/-- The identities of these chunks before the change are assigned to these chunks after it. -/
structure Linked (prior : List PriorChunk) (candidates : List ChunkCandidate) (a : Assignment)
    (link : Nat → Nat → Prop) : Prop where
  old : ∀ j i, link j i → ∃ p, prior[j]? = some p
  assigned : ∀ i id, a.assigned i = some id ↔ ∃ j p, link j i ∧ prior[j]? = some p ∧ p.id = id
  used : ∀ j, a.used j = true ↔ ∃ i, link j i
  oldUnique : ∀ i j j', link j i → link j' i → j = j'
  newUnique : ∀ i i' j, link j i → link j i' → i = i'

theorem linked_empty : Linked prior candidates .empty fun _ _ => False where
  old := by simp
  assigned := by simp [Assignment.empty]
  used := by simp [Assignment.empty]
  oldUnique := by simp
  newUnique := by simp

theorem Linked.assignAll (h : Linked prior candidates a link) {pairs : Pairs}
    (hfunctional : Functional pairs)
    (hinjective : ∀ pair ∈ pairs, ∀ pair' ∈ pairs, pair.1.1 = pair'.1.1 → pair.2 = pair'.2)
    (hfree : ∀ pair ∈ pairs, pair.1 ∈ freeOld prior a ∧ a.assigned pair.2 = none) :
    Linked prior candidates (a.assignAll pairs)
      fun j i => link j i ∨ ∃ p, ((j, p), i) ∈ pairs := by
  have hold {j i : Nat} {p : PriorChunk} (hpair : ((j, p), i) ∈ pairs) : prior[j]? = some p :=
    (mem_freeOld.1 (hfree _ hpair).1).1
  have hnotOld {j i i' : Nat} {p : PriorChunk} (hpair : ((j, p), i) ∈ pairs) : ¬link j i' := by
    intro hlink
    have hused := (h.used j).2 ⟨i', hlink⟩
    rw [(mem_freeOld.1 (hfree _ hpair).1).2] at hused
    cases hused
  have hnotNew {j j' i : Nat} {p : PriorChunk} (hpair : ((j, p), i) ∈ pairs) : ¬link j' i := by
    intro hlink
    obtain ⟨p', hp'⟩ := h.old j' i hlink
    have hassigned := (h.assigned i p'.id).2 ⟨j', p', hlink, hp', rfl⟩
    rw [(hfree _ hpair).2] at hassigned
    cases hassigned
  constructor
  · rintro j i (hlink | ⟨p, hpair⟩)
    · exact h.old j i hlink
    · exact ⟨p, hold hpair⟩
  · intro i id
    by_cases hi : ∃ pair ∈ pairs, pair.2 = i
    · obtain ⟨⟨⟨j, p⟩, i⟩, hpair, rfl⟩ := hi
      rw [assigned_assignAll_of_mem hfunctional hpair, Option.some_inj]
      constructor
      · rintro rfl
        exact ⟨j, p, .inr ⟨p, hpair⟩, hold hpair, rfl⟩
      · rintro ⟨j', p', hlink | ⟨p'', hpair'⟩, hp', rfl⟩
        · exact absurd hlink (hnotNew hpair)
        · obtain ⟨rfl, rfl⟩ := Prod.mk.inj (congrArg Prod.fst (hfunctional _ hpair _ hpair' rfl))
          rw [Option.some.inj ((hold hpair).symm.trans hp')]
    · have hne : ∀ pair ∈ pairs, pair.2 ≠ i := fun pair hpair heq => hi ⟨pair, hpair, heq⟩
      rw [assigned_assignAll_of_ne hne, h.assigned]
      constructor
      · rintro ⟨j, p, hlink, hp⟩
        exact ⟨j, p, .inl hlink, hp⟩
      · rintro ⟨j, p, hlink | ⟨p', hpair⟩, hp⟩
        · exact ⟨j, p, hlink, hp⟩
        · exact absurd rfl (hne _ hpair)
  · intro j
    rw [used_assignAll, h.used]
    constructor
    · rintro (⟨i, hlink⟩ | ⟨⟨⟨j, p⟩, i⟩, hpair, rfl⟩)
      · exact ⟨i, .inl hlink⟩
      · exact ⟨i, .inr ⟨p, hpair⟩⟩
    · rintro ⟨i, hlink | ⟨p, hpair⟩⟩
      · exact .inl ⟨i, hlink⟩
      · exact .inr ⟨_, hpair, rfl⟩
  · rintro i j j' (hlink | ⟨p, hpair⟩) (hlink' | ⟨p', hpair'⟩)
    · exact h.oldUnique i j j' hlink hlink'
    · exact absurd hlink (hnotNew hpair')
    · exact absurd hlink' (hnotNew hpair)
    · exact congrArg (·.1.1) (hfunctional _ hpair _ hpair' rfl)
  · rintro i i' j (hlink | ⟨p, hpair⟩) (hlink' | ⟨p', hpair'⟩)
    · exact h.newUnique i i' j hlink hlink'
    · exact absurd hlink (hnotOld hpair')
    · exact absurd hlink' (hnotOld hpair)
    · exact hinjective _ hpair _ hpair' rfl

/-- A key links the chunks that alone have it on their sides. -/
def UniqueLink {κ : Type} (prior : List PriorChunk) (candidates : List ChunkCandidate)
    [DecidableEq κ] (oldKey : PriorChunk → Option κ) (newKey : ChunkCandidate → Option κ)
    (a : Assignment) (j i : Nat) : Prop :=
  ∃ key p c, (freeOld prior a).filter (oldKey ·.2 = some key) = [(j, p)] ∧
    (freeNew candidates a).filter (newKey ·.2 = some key) = [(i, c)]

/-- A group links its chunks in their order, if there are as many on both sides and all have
different signatures. -/
def SiblingLink (prior : List PriorChunk) (candidates : List ChunkCandidate) (a : Assignment)
    (j i : Nat) : Prop :=
  ∃ key p c, (oldSiblings prior a key).length = (newSiblings candidates a key).length ∧
    DifferentSignatures ((oldSiblings prior a key).map (·.2.anchor)) ∧
    DifferentSignatures ((newSiblings candidates a key).map (·.2.anchor)) ∧
    ((j, p), (i, c)) ∈ (oldSiblings prior a key).zip (newSiblings candidates a key)

theorem Linked.mono {link' : Nat → Nat → Prop} (h : Linked prior candidates a link)
    (hlink : ∀ j i, link j i ↔ link' j i) : Linked prior candidates a link' := by
  have heq : link = link' := by
    funext j i
    exact propext (hlink j i)
  exact heq ▸ h

theorem Linked.assignUnique {κ : Type} [DecidableEq κ] {oldKey : PriorChunk → Option κ}
    {newKey : ChunkCandidate → Option κ} (h : Linked prior candidates a link) :
    Linked prior candidates (assignUnique prior candidates oldKey newKey a)
      fun j i => link j i ∨ UniqueLink prior candidates oldKey newKey a j i := by
  rw [← assignUniqueIn_eq_assignUnique .insertion, assignUniqueIn_eq_assignAll]
  have hkeys : ∀ key, key ∈ HashOrder.insertion.order
      ((freeOld prior a).filterMap (oldKey ·.2)).dedup ↔
        ∃ item ∈ freeOld prior a, oldKey item.2 = some key := by simp
  have hmem {item : Nat × PriorChunk} {key : κ}
      (hold : (freeOld prior a).filter (oldKey ·.2 = some key) = [item]) :
      item ∈ freeOld prior a ∧ oldKey item.2 = some key := by
    have hitem : item ∈ (freeOld prior a).filter (oldKey ·.2 = some key) := by
      rw [hold]
      exact List.mem_singleton_self _
    exact ⟨List.mem_of_mem_filter hitem, by simpa using (List.mem_filter.1 hitem).2⟩
  refine (h.assignAll (functional_uniquePairs _) ?_ ?_).mono fun j i => or_congr_right ?_
  · intro pair hpair pair' hpair' heq
    obtain ⟨key, hkey⟩ := (mem_uniquePairs hkeys).1 hpair
    obtain ⟨key', hkey'⟩ := (mem_uniquePairs hkeys).1 hpair'
    obtain ⟨hold, c, hnew⟩ := uniquePair_eq_some.1 hkey
    obtain ⟨hold', c', hnew'⟩ := uniquePair_eq_some.1 hkey'
    obtain ⟨hfree, hk⟩ := hmem hold
    obtain ⟨hfree', hk'⟩ := hmem hold'
    have hsame : pair.1.2 = pair'.1.2 := by
      have hget := (mem_freeOld.1 hfree).1
      rw [heq, (mem_freeOld.1 hfree').1] at hget
      exact (Option.some.inj hget).symm
    rw [hsame, hk'] at hk
    obtain rfl := Option.some.inj hk
    exact congrArg Prod.fst (List.singleton_injective (hnew.symm.trans hnew'))
  · intro pair hpair
    obtain ⟨key, hkey⟩ := (mem_uniquePairs hkeys).1 hpair
    obtain ⟨hold, c, hnew⟩ := uniquePair_eq_some.1 hkey
    have hfree : (pair.2, c) ∈ (freeNew candidates a).filter (newKey ·.2 = some key) := by
      rw [hnew]
      exact List.mem_singleton_self _
    exact ⟨(hmem hold).1, (mem_freeNew.1 (List.mem_of_mem_filter hfree)).2⟩
  · simp only [mem_uniquePairs hkeys, uniquePair_eq_some]
    constructor
    · rintro ⟨p, key, hold, c, hnew⟩
      exact ⟨key, p, c, hold, hnew⟩
    · rintro ⟨key, p, c, hold, hnew⟩
      exact ⟨p, key, hold, c, hnew⟩

theorem Linked.assignSiblings (h : Linked prior candidates a link) :
    Linked prior candidates (assignSiblings prior candidates a)
      fun j i => link j i ∨ SiblingLink prior candidates a j i := by
  rw [← assignSiblingsIn_eq_assignSiblings .insertion, assignSiblingsIn_eq_assignAll]
  refine (h.assignAll (functional_siblingPairs _) ?_ ?_).mono fun j i => or_congr_right ?_
  · rintro ⟨⟨j, p⟩, i⟩ hpair ⟨⟨j', p'⟩, i'⟩ hpair' (rfl : j = j')
    obtain ⟨key, -, hkey⟩ := List.mem_flatMap.1 hpair
    obtain ⟨key', -, hkey'⟩ := List.mem_flatMap.1 hpair'
    obtain ⟨-, -, -, c, hc⟩ := mem_siblingPairs.1 hkey
    obtain ⟨-, -, -, c', hc'⟩ := mem_siblingPairs.1 hkey'
    obtain ⟨hindex, -, hsame⟩ := mem_oldSiblings.1 (List.of_mem_zip hc).1
    obtain ⟨hindex', -, hsame'⟩ := mem_oldSiblings.1 (List.of_mem_zip hc').1
    obtain rfl := Option.some.inj (hindex.symm.trans hindex')
    obtain rfl := hsame.symm.trans hsame'
    exact congrArg Prod.fst (snd_eq_of_mem_zip nodup_oldSiblings hc hc')
  · rintro ⟨⟨j, p⟩, i⟩ hpair
    obtain ⟨key, -, hkey⟩ := List.mem_flatMap.1 hpair
    obtain ⟨-, -, -, c, hc⟩ := mem_siblingPairs.1 hkey
    obtain ⟨hindex, hused, -⟩ := mem_oldSiblings.1 (List.of_mem_zip hc).1
    exact ⟨mem_freeOld.2 ⟨hindex, hused⟩, (mem_newSiblings.1 (List.of_mem_zip hc).2).2.1⟩
  · constructor
    · rintro ⟨p, hpair⟩
      obtain ⟨key, -, hkey⟩ := List.mem_flatMap.1 hpair
      obtain ⟨hlength, hold, hnew, c, hc⟩ := mem_siblingPairs.1 hkey
      exact ⟨key, p, c, hlength, hold, hnew, hc⟩
    · rintro ⟨key, p, c, hlength, hold, hnew, hc⟩
      refine ⟨p, List.mem_flatMap.2 ⟨key, ?_, mem_siblingPairs.2 ⟨hlength, hold, hnew, c, hc⟩⟩⟩
      obtain ⟨hindex, hused, hsame⟩ := mem_oldSiblings.1 (List.of_mem_zip hc).1
      rw [HashOrder.mem_order, List.mem_dedup, List.mem_map]
      exact ⟨(j, p), mem_freeOld.2 ⟨hindex, hused⟩, hsame⟩

end Links

section Identities

variable {hashes : Hashes} {nonce next : Nat} {a : Assignment} {prior : List PriorChunk}
  {candidates : List ChunkCandidate} {items : List (ChunkCandidate × Nat)}

/-- No two numbers of new chunks have the same hash, and none is the identity of a chunk before the
change. -/
structure CollisionFree (hashes : Hashes) (nonce : Nat) (prior : List PriorChunk) : Prop where
  injective : ∀ n < 2 ^ 64, ∀ n' < 2 ^ 64, ∀ c c',
    hashes.allocate nonce n c = hashes.allocate nonce n' c' → n = n'
  fresh : ∀ n < 2 ^ 64, ∀ c, ∀ p ∈ prior, hashes.allocate nonce n c ≠ p.id

theorem map_id_chunksFrom : (chunksFrom hashes nonce a next items).map (·.id) =
    reconcileFrom hashes nonce a next items := by
  induction items generalizing next with
  | nil => rfl
  | cons item items ih =>
    unfold chunksFrom reconcileFrom
    cases a.assigned item.2 with
    | some id => exact congrArg (id :: ·) ih
    | none => exact congrArg (_ :: ·) ih

/-- What the identity of a chunk is: an assigned one, or one that is allocated later. -/
theorem getElem?_chunksFrom {i : Nat} {chunk : ReconciledChunk}
    (h : (chunksFrom hashes nonce a next items)[i]? = some chunk)
    (hnext : next + items.length ≤ 2 ^ 64) :
    ∃ c index, items[i]? = some (c, index) ∧
      (a.assigned index = some chunk.id ∧ chunk.preserved = true ∨
        chunk.preserved = false ∧
          ∃ n, next ≤ n ∧ n < 2 ^ 64 ∧ chunk.id = hashes.allocate nonce n c) := by
  induction items generalizing next i with
  | nil => simp [chunksFrom] at h
  | cons item items ih =>
    rw [List.length_cons] at hnext
    unfold chunksFrom at h
    cases hassigned : a.assigned item.2 with
    | some id =>
      simp only [hassigned] at h
      cases i with
      | zero =>
        obtain rfl := Option.some.inj h
        exact ⟨item.1, item.2, rfl, .inl ⟨hassigned, rfl⟩⟩
      | succ i => exact ih h (by omega)
    | none =>
      simp only [hassigned] at h
      cases i with
      | zero =>
        obtain rfl := Option.some.inj h
        exact ⟨item.1, item.2, rfl, .inr ⟨rfl, next, Nat.le_refl _, by omega, rfl⟩⟩
      | succ i =>
        rw [List.getElem?_cons_succ] at h
        cases items with
        | nil => simp [chunksFrom] at h
        | cons later items =>
          rw [List.length_cons] at hnext
          have hmin : min (next + 1) (2 ^ 64 - 1) = next + 1 := by omega
          rw [hmin] at h
          obtain ⟨c, index, hitem, hcase⟩ := ih h (by rw [List.length_cons]; omega)
          refine ⟨c, index, hitem, hcase.imp_right ?_⟩
          rintro ⟨hpreserved, n, hn, hlt, hid⟩
          exact ⟨hpreserved, n, by omega, hlt, hid⟩

/-- The identities are different: the assigned ones are of different chunks, and every other one is
allocated by its own number. -/
theorem nodup_chunksFrom (hcollision : CollisionFree hashes nonce prior)
    (hprior : ∀ i id, a.assigned i = some id → ∃ p ∈ prior, p.id = id)
    (hassigned : ∀ i i' id, a.assigned i = some id → a.assigned i' = some id → i = i')
    (hindices : (items.map (·.2)).Nodup) (hnext : next + items.length ≤ 2 ^ 64) :
    ((chunksFrom hashes nonce a next items).map (·.id)).Nodup := by
  have hfresh {i n : Nat} {c : ChunkCandidate} (hn : n < 2 ^ 64)
      (h : a.assigned i = some (hashes.allocate nonce n c)) : False := by
    obtain ⟨p, hp, hid⟩ := hprior i _ h
    exact hcollision.fresh n hn c p hp hid.symm
  induction items generalizing next with
  | nil => exact List.nodup_nil
  | cons item items ih =>
    rw [List.map_cons, List.nodup_cons] at hindices
    rw [List.length_cons] at hnext
    have hother {i : Nat} {c : ChunkCandidate} {index : Nat} (h : items[i]? = some (c, index)) :
        index ≠ item.2 := by
      rintro rfl
      exact hindices.1 (List.mem_map.2 ⟨_, List.mem_of_getElem? h, rfl⟩)
    unfold chunksFrom
    cases hitem : a.assigned item.2 with
    | some id =>
      refine List.nodup_cons.2 ⟨fun hmem => ?_, ih hindices.2 (by omega)⟩
      obtain ⟨chunk, hchunk, rfl⟩ := List.mem_map.1 hmem
      obtain ⟨i, hi⟩ := List.mem_iff_getElem?.1 hchunk
      obtain ⟨c, index, hget, hcase⟩ := getElem?_chunksFrom hi (by omega)
      rcases hcase with ⟨hlater, _⟩ | ⟨_, n, _, hlt, hid⟩
      · exact hother hget (hassigned _ _ _ hlater hitem)
      · rw [hid] at hitem
        exact hfresh hlt hitem
    | none =>
      cases items with
      | nil => exact List.nodup_singleton _
      | cons later items =>
        rw [List.length_cons] at hnext
        have hmin : min (next + 1) (2 ^ 64 - 1) = next + 1 := by omega
        have hlength : next + 1 + (later :: items).length ≤ 2 ^ 64 := by
          rw [List.length_cons]
          omega
        rw [hmin]
        refine List.nodup_cons.2 ⟨fun hmem => ?_, ih hindices.2 hlength⟩
        obtain ⟨chunk, hchunk, hid⟩ := List.mem_map.1 hmem
        obtain ⟨i, hi⟩ := List.mem_iff_getElem?.1 hchunk
        obtain ⟨c, index, hget, hcase⟩ := getElem?_chunksFrom hi hlength
        rcases hcase with ⟨hlater, _⟩ | ⟨_, n, hn, hlt, hnew⟩
        · rw [hid] at hlater
          exact hfresh (by omega) hlater
        · have := hcollision.injective n hlt next (by omega) _ _ (hnew.symm.trans hid)
          omega

end Identities

/-! ## What is reconciled -/

section Reconcile

variable (prior : List PriorChunk) (candidates : List ChunkCandidate)

def afterSymbols : Assignment :=
  assignUnique prior candidates (symbolPathKey ·.anchor) (symbolPathKey ·.anchor) .empty

def afterSignatures : Assignment :=
  assignUnique prior candidates (signatureKey ·.anchor) (signatureKey ·.anchor)
    (afterSymbols prior candidates)

def afterRevisions : Assignment :=
  assignUnique prior candidates (fun c => revisionKey c.anchor c.revision)
    (fun c => revisionKey c.anchor c.revision) (afterSignatures prior candidates)

/-- The reasons for which the identity of a chunk before the change goes to one after it: a key of
one of the first passes that both alone have among the chunks that are left, or the order of their
groups. -/
inductive Preserves (j i : Nat) (p : PriorChunk) (c : ChunkCandidate) : Prop
  | symbol (h : UniqueLink prior candidates (symbolPathKey ·.anchor) (symbolPathKey ·.anchor)
      .empty j i)
  | signature (h : UniqueLink prior candidates (signatureKey ·.anchor) (signatureKey ·.anchor)
      (afterSymbols prior candidates) j i)
  | revision (h : UniqueLink prior candidates (fun c => revisionKey c.anchor c.revision)
      (fun c => revisionKey c.anchor c.revision) (afterSignatures prior candidates) j i)
    (hpath : p.anchor.repositoryPath = c.anchor.repositoryPath)
  | siblings (h : SiblingLink prior candidates (afterRevisions prior candidates) j i)
    (hpath : p.anchor.repositoryPath = c.anchor.repositoryPath)

/-- What `reconcile_chunks` returns: different identities, and those that are preserved have a
reason. -/
structure IsReconciled (chunks : List ReconciledChunk) : Prop where
  length : chunks.length = candidates.length
  ids : (chunks.map (·.id)).Nodup
  preserved : ∀ i chunk, chunks[i]? = some chunk → chunk.preserved = true →
    ∃ j p c, prior[j]? = some p ∧ candidates[i]? = some c ∧ chunk.id = p.id ∧
      Preserves prior candidates j i p c

variable {prior candidates}

theorem reconciledIn_eq_reconciled (ord : Nat → HashOrder) :
    reconciledIn prior candidates ord = reconciled prior candidates := by
  unfold reconciledIn reconciled
  simp only [assignUniqueIn_eq_assignUnique, assignSiblingsIn_eq_assignSiblings]

theorem linked_reconciled : Linked prior candidates (reconciled prior candidates) fun j i =>
    (((False ∨ UniqueLink prior candidates (symbolPathKey ·.anchor) (symbolPathKey ·.anchor)
        .empty j i) ∨
      UniqueLink prior candidates (signatureKey ·.anchor) (signatureKey ·.anchor)
        (afterSymbols prior candidates) j i) ∨
      UniqueLink prior candidates (fun c => revisionKey c.anchor c.revision)
        (fun c => revisionKey c.anchor c.revision) (afterSignatures prior candidates) j i) ∨
      SiblingLink prior candidates (afterRevisions prior candidates) j i :=
  linked_empty.assignUnique.assignUnique.assignUnique.assignSiblings

theorem UniqueLink.keys {κ : Type} [DecidableEq κ] {oldKey : PriorChunk → Option κ}
    {newKey : ChunkCandidate → Option κ} {a : Assignment} {j i : Nat}
    (h : UniqueLink prior candidates oldKey newKey a j i) :
    ∃ key p c, prior[j]? = some p ∧ candidates[i]? = some c ∧ oldKey p = some key ∧
      newKey c = some key := by
  obtain ⟨key, p, c, hold, hnew⟩ := h
  have hp : (j, p) ∈ (freeOld prior a).filter (oldKey ·.2 = some key) := by
    rw [hold]
    exact List.mem_singleton_self _
  have hc : (i, c) ∈ (freeNew candidates a).filter (newKey ·.2 = some key) := by
    rw [hnew]
    exact List.mem_singleton_self _
  obtain ⟨hp, hpkey⟩ := List.mem_filter.1 hp
  obtain ⟨hc, hckey⟩ := List.mem_filter.1 hc
  exact ⟨key, p, c, (mem_freeOld.1 hp).1, (mem_freeNew.1 hc).1, of_decide_eq_true hpkey,
    of_decide_eq_true hckey⟩

theorem exists_preserves {i id : Nat} (h : (reconciled prior candidates).assigned i = some id) :
    ∃ j p c, prior[j]? = some p ∧ candidates[i]? = some c ∧ id = p.id ∧
      Preserves prior candidates j i p c := by
  obtain ⟨j, p, hlink, hp, rfl⟩ := (linked_reconciled.assigned i id).1 h
  rcases hlink with (((hnone | hsymbol) | hsignature) | hrevision) | hsiblings
  · exact hnone.elim
  · obtain ⟨key, p', c, hp', hc, -, -⟩ := hsymbol.keys
    exact ⟨j, p, c, hp, hc, rfl, .symbol hsymbol⟩
  · obtain ⟨key, p', c, hp', hc, -, -⟩ := hsignature.keys
    exact ⟨j, p, c, hp, hc, rfl, .signature hsignature⟩
  · obtain ⟨key, p', c, hp', hc, hold, hnew⟩ := hrevision.keys
    obtain rfl := Option.some.inj (hp.symm.trans hp')
    have hkey := Option.some.inj (hold.trans hnew.symm)
    exact ⟨j, p, c, hp, hc, rfl, .revision hrevision (Prod.mk.inj hkey).1⟩
  · have ⟨key, p', c, _, _, _, hzip⟩ := hsiblings
    obtain ⟨hp', -, hold⟩ := mem_oldSiblings.1 (List.of_mem_zip hzip).1
    obtain ⟨hc, -, hnew⟩ := mem_newSiblings.1 (List.of_mem_zip hzip).2
    obtain rfl := Option.some.inj (hp.symm.trans hp')
    have hkey : siblingKey p.anchor = siblingKey c.anchor := hold.trans hnew.symm
    exact ⟨j, p, c, hp, hc, rfl, .siblings hsiblings (Prod.mk.inj hkey).1⟩

theorem assigned_injective (hids : (prior.map (·.id)).Nodup) {i i' id : Nat}
    (h : (reconciled prior candidates).assigned i = some id)
    (h' : (reconciled prior candidates).assigned i' = some id) : i = i' := by
  obtain ⟨j, p, hlink, hp, hid⟩ := (linked_reconciled.assigned i id).1 h
  obtain ⟨j', p', hlink', hp', hid'⟩ := (linked_reconciled.assigned i' id).1 h'
  have hget : (prior.map (·.id))[j]? = some id := by rw [List.getElem?_map, hp, ← hid]; rfl
  have hget' : (prior.map (·.id))[j']? = some id := by rw [List.getElem?_map, hp', ← hid']; rfl
  have hlt : j < (prior.map (·.id)).length := (List.getElem?_eq_some_iff.1 hget).1
  obtain rfl := (List.getElem?_inj hlt hids).1 (hget.trans hget'.symm)
  exact linked_reconciled.newUnique i i' j hlink hlink'

/-- **Reconciliation** gives different identities, preserves those that have a reason, and does not
depend on the orders of the tables. -/
theorem reconcileChunksIn_spec (hids : (prior.map (·.id)).Nodup)
    (hlength : candidates.length ≤ 2 ^ 64) {hashes : Hashes} {nonce : Nat}
    (hcollision : CollisionFree hashes nonce prior) (ord : Nat → HashOrder) :
    IsReconciled prior candidates (reconcileChunksIn prior candidates ord hashes nonce) ∧
      ∀ ord', reconcileChunksIn prior candidates ord hashes nonce =
        reconcileChunksIn prior candidates ord' hashes nonce := by
  have hitems : 0 + candidates.zipIdx.length ≤ 2 ^ 64 := by
    rw [List.length_zipIdx, Nat.zero_add]
    exact hlength
  unfold reconcileChunksIn
  simp only [reconciledIn_eq_reconciled]
  refine ⟨⟨?_, ?_, ?_⟩, fun _ => trivial⟩
  · rw [← List.length_map (·.id), map_id_chunksFrom, length_reconcileFrom, List.length_zipIdx]
  · refine nodup_chunksFrom hcollision (fun i id h => ?_) (fun i i' id => assigned_injective hids)
      (List.nodup_zipIdx_map_snd candidates) hitems
    obtain ⟨j, p, c, hp, -, hid, -⟩ := exists_preserves h
    exact ⟨p, List.mem_of_getElem? hp, hid.symm⟩
  · intro i chunk hchunk hpreserved
    obtain ⟨c, index, hitem, hcase⟩ := getElem?_chunksFrom hchunk hitems
    rcases hcase with ⟨hassigned, _⟩ | ⟨hnew, _⟩
    · have hindex : index = i := by
        rw [List.getElem?_zipIdx, Option.map_eq_some_iff] at hitem
        obtain ⟨_, _, heq⟩ := hitem
        obtain ⟨_, hi⟩ := Prod.mk.inj heq
        omega
      subst hindex
      exact exists_preserves hassigned
    · rw [hpreserved] at hnew
      cases hnew

/-! ## Chunks of other files, and groups -/

def countingHashes : Hashes := ⟨fun _ => 0, fun _ => 0, fun _ n _ => 1000 + n, id, fun _ => ""⟩

theorem collisionFree_countingHashes {prior : List PriorChunk} (h : ∀ p ∈ prior, p.id < 1000) :
    CollisionFree countingHashes 0 prior where
  injective n _ n' _ c c' heq := by
    have heq : 1000 + n = 1000 + n' := heq
    omega
  fresh n _ c p hp heq := by
    have heq : 1000 + n = p.id := heq
    have := h p hp
    omega

def anchorOf (repositoryPath : String) (qualifiedSymbol signature : Option String)
    (astPath : List Nat) : StructuralAnchor :=
  ⟨repositoryPath, qualifiedSymbol, none, signature, .astChild, astPath⟩

theorem reconcileChunksIn_spec_renamed :
    IsReconciled [⟨7, anchorOf "a.rs" (some "f") none [], 1⟩]
        [⟨anchorOf "a.rs" (some "f") none [], 2⟩]
        (reconcileChunksIn [⟨7, anchorOf "a.rs" (some "f") none [], 1⟩]
          [⟨anchorOf "a.rs" (some "f") none [], 2⟩] (fun _ => .insertion) countingHashes 0) ∧
      ∀ ord', reconcileChunksIn [⟨7, anchorOf "a.rs" (some "f") none [], 1⟩]
          [⟨anchorOf "a.rs" (some "f") none [], 2⟩] (fun _ => .insertion) countingHashes 0 =
        reconcileChunksIn [⟨7, anchorOf "a.rs" (some "f") none [], 1⟩]
          [⟨anchorOf "a.rs" (some "f") none [], 2⟩] ord' countingHashes 0 :=
  reconcileChunksIn_spec (by decide) (by decide) (collisionFree_countingHashes (by decide)) _

/-- **An identity can come from another file, and from a group that shares its key**: a key of the
first pass does not say the file, and siblings are matched by their order. -/
theorem not_scoped_unambiguous :
    (¬∀ (prior : List PriorChunk) (candidates : List ChunkCandidate) (hashes : Hashes)
        (nonce : Nat) (ord : Nat → HashOrder),
      (prior.map (·.id)).Nodup → CollisionFree hashes nonce prior →
      ∀ (i : Nat) (chunk : ReconciledChunk) (c : ChunkCandidate),
        (reconcileChunksIn prior candidates ord hashes nonce)[i]? = some chunk →
        candidates[i]? = some c → chunk.preserved = true →
        ∃ p ∈ prior, chunk.id = p.id ∧ p.anchor.repositoryPath = c.anchor.repositoryPath) ∧
    ¬∀ (prior : List PriorChunk) (candidates : List ChunkCandidate) (hashes : Hashes)
        (nonce : Nat) (ord : Nat → HashOrder),
      (prior.map (·.id)).Nodup → CollisionFree hashes nonce prior →
      ∀ key, 2 ≤ (oldSiblings prior (afterRevisions prior candidates) key).length →
        2 ≤ (newSiblings candidates (afterRevisions prior candidates) key).length →
        ∀ (i : Nat) (c : ChunkCandidate),
          (i, c) ∈ newSiblings candidates (afterRevisions prior candidates) key →
          ∀ chunk, (reconcileChunksIn prior candidates ord hashes nonce)[i]? = some chunk →
            chunk.preserved = false := by
  constructor
  · intro h
    have hfile := h [⟨7, anchorOf "a.rs" (some "f") none [], 1⟩]
      [⟨anchorOf "b.rs" (some "f") none [], 2⟩] countingHashes 0 (fun _ => .insertion) (by decide)
      (collisionFree_countingHashes (by decide)) 0 ⟨7, true⟩
      ⟨anchorOf "b.rs" (some "f") none [], 2⟩ (by decide) rfl rfl
    exact absurd hfile (by decide)
  · intro h
    have hgroup := h [⟨7, anchorOf "a.rs" none (some "f") [0], 1⟩,
        ⟨8, anchorOf "a.rs" none (some "g") [1], 2⟩]
      [⟨anchorOf "a.rs" none (some "h") [0], 3⟩, ⟨anchorOf "a.rs" none (some "k") [1], 4⟩]
      countingHashes 0 (fun _ => .insertion) (by decide)
      (collisionFree_countingHashes (by decide)) ("a.rs", none, .astChild) (by decide) (by decide)
      0 ⟨anchorOf "a.rs" none (some "h") [0], 3⟩ (by decide) ⟨7, true⟩ (by decide)
    exact absurd hgroup (by decide)

end Reconcile

end TldrCode.Semantic
