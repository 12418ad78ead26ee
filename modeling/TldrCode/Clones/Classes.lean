import TldrCode.Clones.UnionFind
import TldrCode.Clones.Types
import TldrCode.Fallible
import TldrCode.Types

/-!
# Clone classes

`analysis/clones/mod.rs`: `compute_clone_classes_v2` numbers the fragments of the pairs, unites the
numbers of each pair, and makes a class of each component with at least two members. The classes
are the components of the pairs, and a fragment that is paired with another one is in exactly one
of them (`computeCloneClassesV2_spec`).
-/

namespace TldrCode.Clones

open Graph Relation

variable {P : Type} [DecidableEq P]

/-! ## The classes of pairs -/

/-- `fragment_map` and `fragments`. -/
structure FragmentIndex (P : Type) [DecidableEq P] where
  fragmentMap : AList fun _ : CloneFragment P => Nat
  fragments : List (CloneFragment P)

/-- A fragment gets the next number, unless it has one. -/
def FragmentIndex.enter (index : FragmentIndex P) (fragment : CloneFragment P) : FragmentIndex P :=
  if fragment ∈ index.fragmentMap then index
  else
    { fragmentMap := index.fragmentMap.insert fragment index.fragments.length
      fragments := index.fragments ++ [fragment] }

def indexFragments (pairs : List (ClonePair P)) : FragmentIndex P :=
  pairs.foldl (fun index pair => (index.enter pair.fragment1).enter pair.fragment2) ⟨∅, []⟩

abbrev PairSimilarities := AList fun _ : Nat × Nat => ℚ × CloneType

/-- The numbers of a pair are united, and its similarity is noted down. -/
def unitePair (index : FragmentIndex P) (state : UnionFind × PairSimilarities)
    (pair : ClonePair P) : Option (UnionFind × PairSimilarities) := do
  let idx1 ← index.fragmentMap.lookup pair.fragment1
  let idx2 ← index.fragmentMap.lookup pair.fragment2
  let uf ← state.1.union idx1 idx2
  return (uf, state.2.insert (min idx1 idx2, max idx1 idx2) (pair.similarity, pair.cloneType))

/-- The pairs of members, as `pair_similarities` has them. -/
def memberPairs : List Nat → List (Nat × Nat)
  | [] => []
  | i :: rest => rest.map (fun j => (min i j, max i j)) ++ memberPairs rest

/-- `max_by_key`: of several maxima the last one. -/
def maxByCount (counts : List (Sigma fun _ : CloneType => Nat)) : Option CloneType :=
  (counts.foldl (fun best entry =>
    match best with
    | none => some entry
    | some max => if max.2 ≤ entry.2 then some entry else some max) none).map (·.1)

def typeCounts (types : List CloneType) : AList fun _ : CloneType => Nat :=
  types.foldl (fun counts cloneType =>
    counts.insert cloneType ((counts.lookup cloneType).getD 0 + 1)) ∅

def classOf (ord : HashOrder) (index : FragmentIndex P) (similarities : PairSimilarities)
    (classId : Nat) (members : List Nat) : Option (CloneClass P) := do
  let fragments ← members.mapM (index.fragments[·]?)
  let found := (memberPairs members).filterMap similarities.lookup
  let avgSimilarity := if found.length > 0 then (found.map (·.1)).sum / found.length else 1
  let dominant := maxByCount (ord.order (typeCounts (found.map (·.2))).entries)
  return {
    id := classId
    fragments := fragments
    size := fragments.length
    cloneType := dominant.getD .type1
    avgSimilarity := avgSimilarity }

/-- A component becomes a class if it has two members. -/
def addClass (ord : HashOrder) (index : FragmentIndex P) (similarities : PairSimilarities)
    (state : List (CloneClass P) × Nat) (component : Sigma fun _ : Nat => List Nat) :
    Option (List (CloneClass P) × Nat) :=
  if component.2.length < 2 then some state
  else (classOf ord index similarities state.2 component.2).map fun cloneClass =>
    (state.1 ++ [cloneClass], state.2 + 1)

/-- `compute_clone_classes_v2`; the components come in the order of their table, and so do the
counts of the types of each. -/
def computeCloneClassesV2 (ord : HashOrder) (countOrd : HashOrder) (pairs : List (ClonePair P)) :
    Option (List (CloneClass P)) :=
  if pairs.isEmpty then some [] else do
    let index := indexFragments pairs
    let (uf, similarities) ← pairs.foldlM (unitePair index)
      (UnionFind.new index.fragments.length, ∅)
    let (_, components) ← uf.components
    let (classes, _) ← (ord.order components.entries).foldlM
      (addClass countOrd index similarities) ([], 1)
    return classes

/-! ## The numbers of the fragments -/

namespace FragmentIndex

variable {index : FragmentIndex P} {f g : CloneFragment P} {i : Nat}

/-- The numbers are the positions in the list. -/
structure Valid (index : FragmentIndex P) : Prop where
  lookup : ∀ f i, index.fragmentMap.lookup f = some i ↔ index.fragments[i]? = some f

theorem Valid.enter (h : index.Valid) (f : CloneFragment P) : (index.enter f).Valid := by
  unfold FragmentIndex.enter
  split_ifs with hf
  · exact h
  · refine ⟨fun g i => ?_⟩
    dsimp only
    have hnew : f ∉ index.fragments := by
      intro hmem
      obtain ⟨i, hi⟩ := List.mem_iff_getElem?.1 hmem
      exact hf (AList.lookup_isSome.1 (Option.isSome_iff_exists.2 ⟨i, (h.lookup f i).2 hi⟩))
    by_cases hg : g = f
    · subst hg
      rw [AList.lookup_insert, Option.some_inj]
      constructor
      · rintro rfl
        rw [List.getElem?_append_right (Nat.le_refl _), Nat.sub_self]
        rfl
      · intro hi
        rw [List.getElem?_append] at hi
        split_ifs at hi with hlt
        · exact absurd (List.mem_of_getElem? hi) hnew
        · have := (List.getElem?_eq_some_iff.1 hi).1
          rw [List.length_singleton] at this
          omega
    · rw [AList.lookup_insert_ne hg, h.lookup, List.getElem?_append]
      split_ifs with hlt
      · rfl
      · rw [List.getElem?_eq_none (Nat.not_lt.1 hlt)]
        constructor
        · exact nofun
        · intro hi
          have := List.mem_singleton.1 (List.mem_of_getElem? hi)
          exact absurd this hg

theorem Valid.mem_iff (h : index.Valid) :
    f ∈ index.fragments ↔ ∃ i, index.fragmentMap.lookup f = some i := by
  simp only [h.lookup]
  exact List.mem_iff_getElem?

theorem Valid.mem_enter (h : index.Valid) :
    g ∈ (index.enter f).fragments ↔ g ∈ index.fragments ∨ g = f := by
  unfold FragmentIndex.enter
  split_ifs with hf
  · obtain ⟨i, hi⟩ := Option.isSome_iff_exists.1 (AList.lookup_isSome.2 hf)
    have hmem : f ∈ index.fragments := h.mem_iff.2 ⟨i, hi⟩
    constructor
    · exact .inl
    · rintro (hg | rfl)
      · exact hg
      · exact hmem
  · rw [List.mem_append, List.mem_singleton]

end FragmentIndex

def Occurs (pairs : List (ClonePair P)) (f : CloneFragment P) : Prop :=
  ∃ pair ∈ pairs, f = pair.fragment1 ∨ f = pair.fragment2

def Paired (pairs : List (ClonePair P)) (f g : CloneFragment P) : Prop :=
  ∃ pair ∈ pairs, f = pair.fragment1 ∧ g = pair.fragment2

variable {pairs : List (ClonePair P)} {f g : CloneFragment P}

theorem indexFragments_spec (pairs : List (ClonePair P)) : (indexFragments pairs).Valid ∧
    ∀ f, f ∈ (indexFragments pairs).fragments ↔ Occurs pairs f := by
  induction pairs using List.reverseRecOn with
  | nil =>
    refine ⟨⟨fun f i => ⟨nofun, nofun⟩⟩, fun f => ⟨nofun, ?_⟩⟩
    exact fun ⟨_, hmem, _⟩ => absurd hmem List.not_mem_nil
  | append_singleton pairs pair ih =>
    obtain ⟨hvalid, hmem⟩ := ih
    have hconcat : indexFragments (pairs ++ [pair]) =
        ((indexFragments pairs).enter pair.fragment1).enter pair.fragment2 := by
      unfold indexFragments
      rw [List.foldl_concat]
    rw [hconcat]
    refine ⟨(hvalid.enter _).enter _, fun f => ?_⟩
    rw [(hvalid.enter _).mem_enter, hvalid.mem_enter, hmem, or_assoc]
    constructor
    · rintro (⟨pair', hpair', hf⟩ | hf)
      · exact ⟨pair', List.mem_append_left _ hpair', hf⟩
      · exact ⟨pair, List.mem_append_right _ List.mem_cons_self, hf⟩
    · rintro ⟨pair', hpair', hf⟩
      rcases List.mem_append.1 hpair' with hpair' | hpair'
      · exact .inl ⟨pair', hpair', hf⟩
      · rw [List.mem_singleton.1 hpair'] at hf
        exact .inr hf

def NumbersPaired (index : FragmentIndex P) (pairs : List (ClonePair P)) (i j : Nat) : Prop :=
  ∃ f g, Paired pairs f g ∧ index.fragments[i]? = some f ∧ index.fragments[j]? = some g

variable {index : FragmentIndex P}

theorem eqvGen_numbersPaired_iff (hindex : index.Valid)
    (hmem : ∀ f, f ∈ index.fragments ↔ Occurs pairs f) {i j : Nat}
    (hf : index.fragments[i]? = some f) (hg : index.fragments[j]? = some g) :
    EqvGen (NumbersPaired index pairs) i j ↔ EqvGen (Paired pairs) f g := by
  constructor
  · intro h
    have hfragment := eqvGen_le
      (InvImage.equivalence (EqvGen (Paired pairs)) (fun i => index.fragments[i]?.getD f)
        (EqvGen.is_equivalence _)) ?_ h
    · simpa only [InvImage, hf, hg, Option.getD_some] using hfragment
    · rintro i j ⟨f', g', hpair, hf', hg'⟩
      simp only [InvImage, hf', hg', Option.getD_some]
      exact .rel _ _ hpair
  · intro h
    have hnumber := eqvGen_le
      (InvImage.equivalence (EqvGen (NumbersPaired index pairs))
        (fun f => (index.fragmentMap.lookup f).getD 0) (EqvGen.is_equivalence _)) ?_ h
    · simpa only [InvImage, (hindex.lookup _ _).2 hf, (hindex.lookup _ _).2 hg,
        Option.getD_some] using hnumber
    · intro f' g' hpair
      have hpair' := hpair
      obtain ⟨pair, hpairs, hf', hg'⟩ := hpair'
      obtain ⟨i', hi'⟩ := hindex.mem_iff.1 ((hmem f').2 ⟨pair, hpairs, .inl hf'⟩)
      obtain ⟨j', hj'⟩ := hindex.mem_iff.1 ((hmem g').2 ⟨pair, hpairs, .inr hg'⟩)
      simp only [InvImage, hi', hj', Option.getD_some]
      exact .rel _ _ ⟨f', g', hpair, (hindex.lookup _ _).1 hi', (hindex.lookup _ _).1 hj'⟩

theorem foldlM_unitePair (hindex : index.Valid) (united : List (ClonePair P))
    (hmem : ∀ f, Occurs united f → f ∈ index.fragments) :
    ∃ uf similarities, united.foldlM (unitePair index)
        (UnionFind.new index.fragments.length, ∅) = some (uf, similarities) ∧
      UnionFind.Connects index.fragments.length (NumbersPaired index united) uf := by
  induction united using List.reverseRecOn with
  | nil =>
    refine ⟨_, ∅, rfl, ?_⟩
    have hnone : NumbersPaired index [] = fun _ _ => False := by
      funext i j
      exact propext ⟨fun ⟨_, _, ⟨_, hpair, _⟩, _⟩ => absurd hpair List.not_mem_nil, False.elim⟩
    rw [hnone]
    exact UnionFind.connects_new _
  | append_singleton united pair ih =>
    obtain ⟨uf, similarities, hrun, h⟩ := ih fun f ⟨pair', hpair', hf⟩ =>
      hmem f ⟨pair', List.mem_append_left _ hpair', hf⟩
    have hpair : pair ∈ united ++ [pair] := List.mem_append_right _ List.mem_cons_self
    obtain ⟨i, hi⟩ := hindex.mem_iff.1 (hmem _ ⟨pair, hpair, .inl rfl⟩)
    obtain ⟨j, hj⟩ := hindex.mem_iff.1 (hmem _ ⟨pair, hpair, .inr rfl⟩)
    have hi' := (hindex.lookup _ _).1 hi
    have hj' := (hindex.lookup _ _).1 hj
    obtain ⟨uf', hunion, h'⟩ := UnionFind.union_spec h (List.getElem?_eq_some_iff.1 hi').1
      (List.getElem?_eq_some_iff.1 hj').1
    refine ⟨uf', similarities.insert (min i j, max i j) (pair.similarity, pair.cloneType), ?_, ?_⟩
    · rw [List.foldlM_append, hrun]
      simp only [Option.bind_eq_bind, Option.bind_some, List.foldlM_cons, List.foldlM_nil,
        unitePair, hi, hj, hunion, Option.pure_def]
    · have hpairs : NumbersPaired index (united ++ [pair]) =
          UnionFind.OrPair (NumbersPaired index united) i j := by
        funext x y
        refine propext ⟨?_, ?_⟩
        · rintro ⟨f, g, ⟨pair', hpair', rfl, rfl⟩, hx, hy⟩
          rcases List.mem_append.1 hpair' with hpair' | hpair'
          · exact .inl ⟨_, _, ⟨pair', hpair', rfl, rfl⟩, hx, hy⟩
          · obtain rfl := List.mem_singleton.1 hpair'
            rw [← hindex.lookup, hi, Option.some_inj] at hx
            rw [← hindex.lookup, hj, Option.some_inj] at hy
            exact .inr ⟨hx.symm, hy.symm⟩
        · rintro (⟨f, g, ⟨pair', hpair', hf, hg⟩, hx, hy⟩ | ⟨rfl, rfl⟩)
          · exact ⟨f, g, ⟨pair', List.mem_append_left _ hpair', hf, hg⟩, hx, hy⟩
          · exact ⟨_, _, ⟨pair, hpair, rfl, rfl⟩, hi', hj'⟩
      rw [hpairs]
      exact h'

/-! ## Classes of components -/

/-- The fragments of a class are those of the component. -/
def IsClassOf (index : FragmentIndex P) (cloneClass : CloneClass P) (members : List Nat) : Prop :=
  members.mapM (index.fragments[·]?) = some cloneClass.fragments ∧
    cloneClass.size = cloneClass.fragments.length

theorem exists_classOf (ord : HashOrder) (similarities : PairSimilarities) (classId : Nat)
    {members : List Nat} (h : ∀ i ∈ members, i < index.fragments.length) :
    ∃ cloneClass, classOf ord index similarities classId members = some cloneClass ∧
      IsClassOf index cloneClass members := by
  obtain ⟨fragments, hfragments⟩ : ∃ fragments,
      members.mapM (index.fragments[·]?) = some fragments := by
    refine Option.isSome_iff_exists.1 (mapM_isSome fun i hi => ?_)
    rw [List.getElem?_eq_getElem (h i hi)]
    rfl
  unfold classOf
  rw [hfragments]
  exact ⟨_, rfl, hfragments, rfl⟩

def bigger (components : List (Sigma fun _ : Nat => List Nat)) : List (List Nat) :=
  (components.map (·.2)).filter fun members => decide (2 ≤ members.length)

theorem foldlM_addClass (ord : HashOrder) (similarities : PairSimilarities)
    (components : List (Sigma fun _ : Nat => List Nat))
    (h : ∀ component ∈ components, ∀ i ∈ component.2, i < index.fragments.length) :
    ∃ classes classId, components.foldlM (addClass ord index similarities) ([], 1) =
        some (classes, classId) ∧ List.Forall₂ (IsClassOf index) classes (bigger components) := by
  induction components using List.reverseRecOn with
  | nil => exact ⟨[], 1, rfl, .nil⟩
  | append_singleton components component ih =>
    obtain ⟨classes, classId, hrun, hclasses⟩ :=
      ih fun component' hmem => h component' (List.mem_append_left _ hmem)
    have hbigger : bigger (components ++ [component]) = bigger components ++
        if 2 ≤ component.2.length then [component.2] else [] := by
      unfold bigger
      rw [List.map_append, List.filter_append, List.map_singleton, List.filter_singleton]
      by_cases hlength : 2 ≤ component.2.length <;> simp [hlength]
    rw [List.foldlM_append, hrun, hbigger]
    simp only [Option.bind_eq_bind, Option.bind_some, List.foldlM_cons, List.foldlM_nil, addClass]
    split_ifs with hlength hlength' hlength'
    · omega
    · exact ⟨classes, classId, rfl, by rwa [List.append_nil]⟩
    · obtain ⟨cloneClass, hclass, hisClass⟩ := exists_classOf ord similarities classId
        (h component (List.mem_append_right _ List.mem_cons_self))
      refine ⟨classes ++ [cloneClass], classId + 1, by rw [hclass]; rfl, ?_⟩
      exact List.rel_append hclasses (.cons hisClass .nil)
    · omega

namespace IsClassOf

variable {cloneClass : CloneClass P} {members : List Nat}

theorem map_eq (h : IsClassOf index cloneClass members) :
    members.map (index.fragments[·]?) = cloneClass.fragments.map some := mapM_eq_some_iff.1 h.1

theorem mem_iff (h : IsClassOf index cloneClass members) :
    f ∈ cloneClass.fragments ↔ ∃ i ∈ members, index.fragments[i]? = some f := by
  rw [← List.mem_map, h.map_eq, List.mem_map_of_injective (Option.some_injective _)]

theorem length_eq (h : IsClassOf index cloneClass members) :
    cloneClass.fragments.length = members.length := by
  have hlength := congrArg List.length h.map_eq
  rw [List.length_map, List.length_map] at hlength
  exact hlength.symm

theorem nodup (hindex : index.Valid) (h : IsClassOf index cloneClass members)
    (hnodup : members.Nodup) : cloneClass.fragments.Nodup := by
  refine List.Nodup.of_map some ?_
  rw [← h.map_eq]
  refine hnodup.map_on fun i hi j hj hij => ?_
  obtain ⟨f, -, hf⟩ := List.mem_map.1 (h.map_eq ▸ List.mem_map_of_mem hi)
  have hi' := (hindex.lookup f i).2 hf.symm
  have hj' := (hindex.lookup f j).2 (hij ▸ hf.symm)
  exact Option.some.inj (hi'.symm.trans hj')

end IsClassOf

/-- The classes are the components of the pairs that have two members. -/
structure IsClasses (pairs : List (ClonePair P)) (classes : List (CloneClass P)) : Prop where
  size : ∀ c ∈ classes, c.size = c.fragments.length ∧ 2 ≤ c.size ∧ c.fragments.Nodup
  component : ∀ c ∈ classes, ∀ f ∈ c.fragments, Occurs pairs f ∧
    ∀ g, g ∈ c.fragments ↔ EqvGen (Paired pairs) f g
  unique : ∀ f g, f ≠ g → EqvGen (Paired pairs) f g →
    ∃! k : Nat, ∃ c, classes[k]? = some c ∧ f ∈ c.fragments

omit [DecidableEq P] in
/-- Fragments that are equivalent by the pairs are the same one, or are both in pairs. -/
theorem occurs_of_eqvGen (h : EqvGen (Paired pairs) f g) :
    f = g ∨ Occurs pairs f ∧ Occurs pairs g := by
  induction h with
  | rel f g h =>
    obtain ⟨pair, hpair, hf, hg⟩ := h
    exact .inr ⟨⟨pair, hpair, .inl hf⟩, ⟨pair, hpair, .inr hg⟩⟩
  | refl f => exact .inl rfl
  | symm _ _ _ ih => exact ih.imp Eq.symm And.symm
  | trans f g k _ _ ih ih' =>
    rcases ih with rfl | ih
    · exact ih'
    · rcases ih' with rfl | ih'
      · exact .inr ih
      · exact .inr ⟨ih.1, ih'.2⟩

/-! ## The table of components -/

def numbersWith (rootOf : Nat → Nat) (n r : Nat) : List Nat :=
  (List.range n).filter fun i => rootOf i = r

section Table

variable {rootOf : Nat → Nat} {n r i : Nat} {members : List Nat}
  {components : List (Sigma fun _ : Nat => List Nat)}

theorem mem_numbersWith : i ∈ numbersWith rootOf n r ↔ i < n ∧ rootOf i = r := by
  rw [numbersWith, List.mem_filter, List.mem_range, decide_eq_true_iff]

theorem mem_entries_iff : ⟨r, members⟩ ∈ (group rootOf (List.range n)).entries ↔
    members = numbersWith rootOf n r ∧ members ≠ [] := by
  rw [← AList.mem_lookup_iff, Option.mem_def, lookup_group, nonempty_eq_some]
  constructor
  · rintro ⟨hne, rfl⟩
    exact ⟨rfl, hne⟩
  · rintro ⟨rfl, hne⟩
    exact ⟨hne, rfl⟩

theorem mem_bigger_iff (hperm : components.Perm (group rootOf (List.range n)).entries) :
    members ∈ bigger components ↔ (∃ r, members = numbersWith rootOf n r) ∧ 2 ≤ members.length := by
  rw [bigger, List.mem_filter, List.mem_map, decide_eq_true_iff, and_congr_left_iff]
  intro hlength
  constructor
  · rintro ⟨⟨r, members⟩, hmem, rfl⟩
    exact ⟨r, (mem_entries_iff.1 (hperm.mem_iff.1 hmem)).1⟩
  · rintro ⟨r, heq⟩
    refine ⟨⟨r, members⟩, hperm.mem_iff.2 (mem_entries_iff.2 ⟨heq, ?_⟩), rfl⟩
    rintro rfl
    cases hlength

theorem bigger_nodup (hperm : components.Perm (group rootOf (List.range n)).entries) :
    (bigger components).Nodup := by
  refine List.Nodup.filter _ ?_
  refine (hperm.nodup_iff.2 (AList.nodupKeys _).nodup).map_on ?_
  rintro ⟨r, members⟩ hmem ⟨r', members'⟩ hmem' heq
  obtain rfl : members = members' := heq
  obtain ⟨heq, hne⟩ := mem_entries_iff.1 (hperm.mem_iff.1 hmem)
  obtain ⟨heq', -⟩ := mem_entries_iff.1 (hperm.mem_iff.1 hmem')
  obtain ⟨i, hi⟩ := List.exists_mem_of_ne_nil _ hne
  obtain ⟨-, hr⟩ := mem_numbersWith.1 (heq ▸ hi)
  obtain ⟨-, hr'⟩ := mem_numbersWith.1 (heq' ▸ hi)
  rw [← hr, ← hr']

end Table

/-- Classes of components of numbers with the same root are classes of the pairs. -/
theorem isClasses_of_bigger (hindex : index.Valid)
    (hmem : ∀ f, f ∈ index.fragments ↔ Occurs pairs f) {rootOf : Nat → Nat}
    (hroot : ∀ i < index.fragments.length, ∀ j < index.fragments.length,
      rootOf i = rootOf j ↔ EqvGen (NumbersPaired index pairs) i j)
    {components : List (Sigma fun _ : Nat => List Nat)}
    (hperm : components.Perm (group rootOf (List.range index.fragments.length)).entries)
    {classes : List (CloneClass P)}
    (hforall : List.Forall₂ (IsClassOf index) classes (bigger components)) :
    IsClasses pairs classes := by
  have hequiv : ∀ {i j f g}, index.fragments[i]? = some f → index.fragments[j]? = some g →
      (rootOf i = rootOf j ↔ EqvGen (Paired pairs) f g) := fun hi hj => by
    rw [hroot _ (List.getElem?_eq_some_iff.1 hi).1 _ (List.getElem?_eq_some_iff.1 hj).1]
    exact eqvGen_numbersPaired_iff hindex hmem hi hj
  have hposition : ∀ {k : Nat} {c}, classes[k]? = some c → ∃ r,
      (bigger components)[k]? = some (numbersWith rootOf index.fragments.length r) ∧
        2 ≤ (numbersWith rootOf index.fragments.length r).length ∧
        IsClassOf index c (numbersWith rootOf index.fragments.length r) := by
    intro k c hk
    obtain ⟨hlt, rfl⟩ := List.getElem?_eq_some_iff.1 hk
    have hlt' : k < (bigger components).length := hforall.length_eq ▸ hlt
    obtain ⟨⟨r, hr⟩, hlength⟩ := (mem_bigger_iff hperm).1 (List.getElem_mem hlt')
    have hclass := hforall.get hlt hlt'
    rw [List.get_eq_getElem, List.get_eq_getElem, hr] at hclass
    exact ⟨r, by rw [List.getElem?_eq_getElem hlt', hr], hr ▸ hlength, hclass⟩
  refine ⟨fun c hc => ?_, fun c hc f hf => ?_, fun f g hne h => ?_⟩
  · obtain ⟨k, hk⟩ := List.mem_iff_getElem?.1 hc
    obtain ⟨r, -, hlength, hclass⟩ := hposition hk
    refine ⟨hclass.2, ?_, hclass.nodup hindex (List.nodup_range.filter _)⟩
    rw [hclass.2, hclass.length_eq]
    exact hlength
  · obtain ⟨k, hk⟩ := List.mem_iff_getElem?.1 hc
    obtain ⟨r, -, -, hclass⟩ := hposition hk
    obtain ⟨i, hi, hfi⟩ := hclass.mem_iff.1 hf
    have hoccurs : Occurs pairs f := (hmem f).1 (List.mem_of_getElem? hfi)
    obtain ⟨-, hir⟩ := mem_numbersWith.1 hi
    refine ⟨hoccurs, fun g => ⟨fun hg => ?_, fun hfg => ?_⟩⟩
    · obtain ⟨j, hj, hgj⟩ := hclass.mem_iff.1 hg
      obtain ⟨-, hjr⟩ := mem_numbersWith.1 hj
      exact (hequiv hfi hgj).1 (hir.trans hjr.symm)
    · have hoccurs' : Occurs pairs g := by
        rcases occurs_of_eqvGen hfg with rfl | ⟨-, hg⟩
        · exact hoccurs
        · exact hg
      obtain ⟨j, hj⟩ := List.mem_iff_getElem?.1 ((hmem g).2 hoccurs')
      refine hclass.mem_iff.2 ⟨j, mem_numbersWith.2 ⟨(List.getElem?_eq_some_iff.1 hj).1, ?_⟩, hj⟩
      rw [← hir]
      exact ((hequiv hfi hj).2 hfg).symm
  · obtain ⟨hf, hg⟩ := (occurs_of_eqvGen h).resolve_left hne
    obtain ⟨i, hi⟩ := List.mem_iff_getElem?.1 ((hmem f).2 hf)
    obtain ⟨j, hj⟩ := List.mem_iff_getElem?.1 ((hmem g).2 hg)
    have hij : i ≠ j := by
      rintro rfl
      exact hne (Option.some.inj (hi.symm.trans hj))
    set members := numbersWith rootOf index.fragments.length (rootOf i) with hmembers
    have hmemI : i ∈ members := mem_numbersWith.2 ⟨(List.getElem?_eq_some_iff.1 hi).1, rfl⟩
    have hmemJ : j ∈ members := mem_numbersWith.2
      ⟨(List.getElem?_eq_some_iff.1 hj).1, ((hequiv hi hj).2 h).symm⟩
    have hlength : 2 ≤ members.length := by
      by_contra hlt
      obtain ⟨a, ha⟩ := List.length_eq_one_iff.1
        (Nat.le_antisymm (Nat.not_lt.1 hlt) (List.length_pos_of_mem hmemI))
      rw [ha, List.mem_singleton] at hmemI hmemJ
      exact hij (hmemI.trans hmemJ.symm)
    obtain ⟨k, hk⟩ := List.mem_iff_getElem?.1
      ((mem_bigger_iff hperm).2 ⟨⟨rootOf i, hmembers⟩, hlength⟩)
    have hlt : k < classes.length :=
      hforall.length_eq ▸ (List.getElem?_eq_some_iff.1 hk).1
    obtain ⟨r, hk', -, hclass⟩ := hposition (List.getElem?_eq_getElem hlt)
    have hr : members = numbersWith rootOf index.fragments.length r :=
      Option.some.inj (hk.symm.trans hk')
    refine ⟨k, ⟨_, List.getElem?_eq_getElem hlt, hclass.mem_iff.2 ⟨i, hr ▸ hmemI, hi⟩⟩, ?_⟩
    rintro k' ⟨c', hc', hf'⟩
    obtain ⟨r', hk'', -, hclass'⟩ := hposition hc'
    obtain ⟨i', hi', hfi'⟩ := hclass'.mem_iff.1 hf'
    have hsame : i' = i :=
      Option.some.inj (((hindex.lookup f i').2 hfi').symm.trans ((hindex.lookup f i).2 hi))
    subst hsame
    obtain ⟨-, hr'⟩ := mem_numbersWith.1 hi'
    rw [← hr', ← hmembers] at hk''
    exact (List.getElem?_inj (List.getElem?_eq_some_iff.1 hk'').1 (bigger_nodup hperm)).1
      (hk''.trans hk.symm)

/-- **Classes of clones**: the classes are the components of the pairs that have two members, and a
fragment that is paired with another one is in exactly one class. -/
theorem computeCloneClassesV2_spec (ord countOrd : HashOrder) (pairs : List (ClonePair P)) :
    ∃ classes, computeCloneClassesV2 ord countOrd pairs = some classes ∧
      IsClasses pairs classes := by
  unfold computeCloneClassesV2
  by_cases hempty : pairs = []
  · subst hempty
    refine ⟨[], rfl, ⟨fun _ h => absurd h List.not_mem_nil, fun _ h => absurd h List.not_mem_nil,
      fun f g hne h => ?_⟩⟩
    rcases occurs_of_eqvGen h with heq | ⟨⟨pair, hpair, -⟩, -⟩
    · exact absurd heq hne
    · exact absurd hpair List.not_mem_nil
  rw [if_neg (by simpa using hempty)]
  obtain ⟨hindex, hmem⟩ := indexFragments_spec pairs
  set index := indexFragments pairs
  obtain ⟨uf, similarities, hrun, h⟩ := foldlM_unitePair hindex pairs fun f => (hmem f).2
  obtain ⟨uf', groups, rootOf, hcomponents, -, hgroups, hroot⟩ := UnionFind.components_spec h
  have hperm : (ord.order groups.entries).Perm
      (group rootOf (List.range index.fragments.length)).entries := by
    rw [← hgroups]
    exact ord.perm _
  obtain ⟨classes, classId, hclasses, hforall⟩ := foldlM_addClass countOrd similarities
    (ord.order groups.entries) fun component hcomponent i hi => by
      obtain ⟨heq, -⟩ := mem_entries_iff.1 (hperm.mem_iff.1 hcomponent)
      exact (mem_numbersWith.1 (heq ▸ hi)).1
  refine ⟨classes, ?_, ?_⟩
  · simp only [hrun, hcomponents, hclasses, Option.bind_eq_bind, Option.bind_some, Option.pure_def]
  · exact isClasses_of_bigger hindex hmem hroot hperm hforall

/-- **Union-find and the classes**: after every run `find` comes to an end and what is connected is
what has been united; the classes of pairs are the components that have two members. -/
theorem cloneClasses_spec :
    (∀ (n : Nat) (calls : List (UnionFind.UnionFindCall n)), ∃ uf,
      calls.foldlM UnionFind.perform (UnionFind.new n) = some uf ∧ ∀ x y : Fin n,
        (∃ uf' r, ∀ fuel ≥ n, uf.findIn fuel x = some (uf', r)) ∧
        ∃ uf' b, uf.connected x y = some (uf', b) ∧
          (b = true ↔ EqvGen (UnionFind.United calls) x y)) ∧
      ∀ (P : Type) [DecidableEq P] (ord countOrd : HashOrder) (pairs : List (ClonePair P)),
        ∃ classes, computeCloneClassesV2 ord countOrd pairs = some classes ∧
          IsClasses pairs classes := by
  refine ⟨fun n calls => ?_, fun P _ => computeCloneClassesV2_spec⟩
  obtain ⟨uf, hrun, h⟩ := UnionFind.exists_foldlM_perform calls
  refine ⟨uf, hrun, fun x y => ⟨?_, ?_⟩⟩
  · obtain ⟨uf', r, hfind, -⟩ := UnionFind.find_spec h.valid x.isLt
    exact ⟨uf', r, fun fuel hfuel => (UnionFind.findIn_of_le h.valid x.isLt hfuel).trans hfind⟩
  · obtain ⟨uf', b, hconnected, hb, -⟩ := UnionFind.connected_spec h x.isLt y.isLt
    exact ⟨uf', b, hconnected, hb⟩

/-- **A fragment that is paired only with itself** is in no class. -/
theorem not_classified_selfPaired :
    ¬ ∀ (ord countOrd : HashOrder) (pairs : List (ClonePair Nat)) classes,
      computeCloneClassesV2 ord countOrd pairs = some classes →
        ∀ f, Occurs pairs f → ∃ c ∈ classes, f ∈ c.fragments := by
  intro h
  let f : CloneFragment Nat := .new 0 1 5 30
  have hnone : computeCloneClassesV2 .insertion .insertion
      [(⟨1, .type1, 1, f, f, none⟩ : ClonePair Nat)] = some [] := by decide +kernel
  obtain ⟨c, hc, -⟩ := h _ _ _ _ hnone f ⟨_, List.mem_cons_self, .inl rfl⟩
  exact absurd hc List.not_mem_nil

end TldrCode.Clones
