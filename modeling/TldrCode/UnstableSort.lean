import Mathlib.Data.List.Destutter
import Mathlib.Data.List.Sort
import Mathlib.Order.RelClasses

/-!
# Sorts

Sorting a list and removing its duplicates gives its elements in a strict order (`mem_destutter`,
`pairwise_destutter_insertionSort`).

A sort by keys that may put the entries of one key in any order, and what is left when all but the
first entry of each key are removed. That is canonical if no key has two entries (`distinct_congr`).
If a key has, there are sorts that leave either (`mem_distinct_preferring`).
-/

namespace TldrCode

/-! ## Sorts without duplicates -/

section Destutter

variable {α : Type*} [LinearOrder α] [DecidableEq α] {a b : α} {l : List α}

omit [LinearOrder α] in
theorem mem_destutter' : a ∈ l.destutter' (· ≠ ·) b ↔ a = b ∨ a ∈ l := by
  induction l generalizing b with
  | nil => simp
  | cons c l ih =>
    by_cases hbc : b = c
    · rw [List.destutter'_cons_neg _ (not_not.2 hbc), ih, hbc, List.mem_cons, or_self_left]
    · rw [List.destutter'_cons_pos _ hbc, List.mem_cons, ih, List.mem_cons]

omit [LinearOrder α] in
theorem mem_destutter : a ∈ l.destutter (· ≠ ·) ↔ a ∈ l := by
  cases l with
  | nil => simp
  | cons b l => rw [List.destutter_cons', mem_destutter', List.mem_cons]

theorem pairwise_destutter_insertionSort :
    ((l.insertionSort (· ≤ ·)).destutter (· ≠ ·)).Pairwise (· < ·) := by
  have hsorted : ((l.insertionSort (· ≤ ·)).destutter (· ≠ ·)).Pairwise (· ≤ ·) :=
    (List.pairwise_insertionSort _ _).sublist (List.destutter_sublist ..)
  have hchain : ((l.insertionSort (· ≤ ·)).destutter (· ≠ ·)).IsChain (· < ·) := by
    rw [List.isChain_iff_getElem]
    intro i hi
    apply lt_of_le_of_ne
    · exact List.isChain_iff_getElem.1 hsorted.isChain i hi
    · exact List.isChain_iff_getElem.1 (List.isChain_destutter ..) i hi
  exact hchain.pairwise

end Destutter

/-! ## Unstable sorts -/

structure UnstableSort (κ ν : Type*) [LE κ] where
  sort : List (κ × ν) → List (κ × ν)
  perm : ∀ l, (sort l).Perm l
  sorted : ∀ l, (sort l).Pairwise fun a b => a.1 ≤ b.1

namespace UnstableSort

variable {κ ν : Type*} [LinearOrder κ] {s s' : UnstableSort κ ν} {l l' : List (κ × ν)}
  {a b e : κ × ν}

instance : Std.Total fun a b : κ × ν => a.1 ≤ b.1 := ⟨fun a b => le_total a.1 b.1⟩

instance : IsTrans (κ × ν) fun a b => a.1 ≤ b.1 := ⟨fun _ _ _ => le_trans⟩

/-- The sort that keeps the order of the entries of one key. -/
def stable : UnstableSort κ ν where
  sort l := l.insertionSort fun a b => a.1 ≤ b.1
  perm l := List.perm_insertionSort _ l
  sorted l := List.pairwise_insertionSort _ l

/-- The first entry of each key, in the order of the keys. -/
def distinct (s : UnstableSort κ ν) (l : List (κ × ν)) : List (κ × ν) :=
  (s.sort l).destutter fun a b => a.1 ≠ b.1

theorem mem_of_mem_distinct (h : a ∈ s.distinct l) : a ∈ l :=
  (s.perm l).mem_iff.1 ((List.destutter_sublist ..).subset h)

theorem pairwise_distinct : (s.distinct l).Pairwise fun a b => a.1 < b.1 := by
  have hsorted : (s.distinct l).Pairwise fun a b => a.1 ≤ b.1 :=
    (s.sorted l).sublist (List.destutter_sublist ..)
  have hchain : ((s.distinct l).map Prod.fst).IsChain (· < ·) := by
    rw [List.isChain_map, List.isChain_iff_getElem]
    intro i hi
    apply lt_of_le_of_ne
    · exact List.pairwise_iff_getElem.1 hsorted i (i + 1) (by omega) hi (by omega)
    · exact List.isChain_iff_getElem.1 (List.isChain_destutter ..) i hi
  exact List.pairwise_map.1 (List.isChain_iff_pairwise.1 hchain)

theorem eq_of_mem_distinct (ha : a ∈ s.distinct l) (hb : b ∈ s.distinct l) (hkey : a.1 = b.1) :
    a = b := by
  have hnodup : ((s.distinct l).map Prod.fst).Nodup :=
    List.pairwise_map.2 (pairwise_distinct.imp fun h => ne_of_lt h)
  exact List.inj_on_of_nodup_map hnodup ha hb hkey

theorem exists_mem_distinct (ha : a ∈ l) : ∃ b ∈ s.distinct l, b.1 = a.1 := by
  have hloop : ∀ (l : List (κ × ν)) (first : κ × ν), ∀ a ∈ first :: l,
      ∃ b ∈ l.destutter' (fun a b => a.1 ≠ b.1) first, b.1 = a.1 := by
    intro l
    induction l with
    | nil => exact fun first a ha => ⟨a, ha, rfl⟩
    | cons next l ih =>
      intro first a ha
      rw [List.destutter'_cons]
      split_ifs with hkey
      · cases List.mem_cons.1 ha with
        | inl hfirst => exact ⟨a, hfirst ▸ List.mem_cons_self, rfl⟩
        | inr ha =>
          obtain ⟨b, hb, heq⟩ := ih next a ha
          exact ⟨b, List.mem_cons_of_mem _ hb, heq⟩
      · rw [not_not] at hkey
        rcases List.mem_cons.1 ha with rfl | ha
        · exact ih a a List.mem_cons_self
        · rcases List.mem_cons.1 ha with rfl | ha
          · obtain ⟨b, hb, heq⟩ := ih first first List.mem_cons_self
            exact ⟨b, hb, heq.trans hkey⟩
          · exact ih first a (List.mem_cons_of_mem _ ha)
  have hsort : a ∈ s.sort l := (s.perm l).mem_iff.2 ha
  unfold distinct
  cases h : s.sort l with
  | nil => rw [h] at hsort; cases hsort
  | cons first rest =>
    rw [h] at hsort
    rw [List.destutter_cons']
    exact hloop rest first a hsort

/-- **What is left is canonical** if no key has two entries. -/
theorem distinct_congr (hmem : ∀ a, a ∈ l ↔ a ∈ l')
    (hkeys : ∀ a ∈ l, ∀ b ∈ l, a.1 = b.1 → a = b) : s.distinct l = s'.distinct l' := by
  have hdistinct : ∀ {s : UnstableSort κ ν} {l' : List (κ × ν)}, (∀ a, a ∈ l ↔ a ∈ l') →
      ∀ a, a ∈ s.distinct l' ↔ a ∈ l := by
    intro s l' hmem a
    constructor
    · exact fun ha => (hmem a).2 (mem_of_mem_distinct ha)
    · intro ha
      obtain ⟨b, hb, hkey⟩ := exists_mem_distinct (s := s) ((hmem a).1 ha)
      rwa [hkeys a ha b ((hmem b).2 (mem_of_mem_distinct hb)) hkey.symm]
  have hnodup : ∀ {s : UnstableSort κ ν} {l : List (κ × ν)}, (s.distinct l).Nodup :=
    pairwise_distinct.imp fun h heq => absurd (congrArg Prod.fst heq) (ne_of_lt h)
  refine List.Perm.eq_of_pairwise ?_ (pairwise_distinct (s := s) (l := l))
    pairwise_distinct ((List.perm_ext_iff_of_nodup hnodup hnodup).2 fun a => ?_)
  · exact fun a b _ _ hab hba => absurd hab (lt_asymm hba)
  · rw [hdistinct fun _ => Iff.rfl, hdistinct hmem]

section Preferring

variable [DecidableEq ν] (e : κ × ν)

/-- The order of the keys, with one entry before the others of its key. -/
def Precedes (a b : κ × ν) : Prop := a.1 < b.1 ∨ a.1 = b.1 ∧ (a = e ∨ b ≠ e)

instance : DecidableRel (Precedes e) := fun _ _ => inferInstanceAs (Decidable (_ ∨ _ ∧ (_ ∨ _)))

instance : Std.Total (Precedes e) where
  total a b := by
    unfold Precedes
    rcases lt_trichotomy a.1 b.1 with h | h | h
    · exact .inl (.inl h)
    · by_cases ha : a = e
      · exact .inl (.inr ⟨h, .inl ha⟩)
      · exact .inr (.inr ⟨h.symm, .inr ha⟩)
    · exact .inr (.inl h)

instance : IsTrans (κ × ν) (Precedes e) where
  trans a b c := by
    rintro (hab | ⟨hab, hab'⟩) (hbc | ⟨hbc, hbc'⟩)
    · exact .inl (hab.trans hbc)
    · exact .inl (hab.trans_eq hbc)
    · exact .inl (hab.trans_lt hbc)
    · refine .inr ⟨hab.trans hbc, ?_⟩
      rcases hbc' with rfl | hc
      · exact .inl (hab'.resolve_right (not_not.2 rfl))
      · exact .inr hc

/-- A sort that puts one entry before the others of its key. -/
def preferring : UnstableSort κ ν where
  sort l := l.insertionSort (Precedes e)
  perm l := List.perm_insertionSort _ l
  sorted l := (List.pairwise_insertionSort _ l).imp fun h => h.elim le_of_lt fun h => le_of_eq h.1

variable {e}

/-- **The preferred entry is left.** -/
theorem mem_distinct_preferring (he : e ∈ l) : e ∈ (preferring e).distinct l := by
  have hloop : ∀ (l : List (κ × ν)) (first : κ × ν), (first :: l).Pairwise (Precedes e) →
      e ∈ first :: l → e ∈ l.destutter' (fun a b => a.1 ≠ b.1) first := by
    intro l
    induction l with
    | nil => exact fun first _ he => he
    | cons next l ih =>
      intro first hl he
      rw [List.destutter'_cons]
      rcases List.mem_cons.1 he with rfl | htail
      · split_ifs
        · exact List.mem_cons_self
        · exact ih e (hl.sublist (by simp)) List.mem_cons_self
      · split_ifs with hkey
        · exact List.mem_cons_of_mem _ (ih next hl.of_cons htail)
        · -- the first entry has the key of the next one, so the preferred one is not behind it
          rw [not_not] at hkey
          rcases List.mem_cons.1 htail with rfl | hrest
          · have hprecedes : Precedes e first e := List.rel_of_pairwise_cons hl List.mem_cons_self
            have hfirst : first = e := by
              rcases hprecedes with hlt | ⟨-, h⟩
              · exact absurd hkey (ne_of_lt hlt)
              · exact h.resolve_right (not_not.2 rfl)
            rw [hfirst] at hl ⊢
            exact ih e (hl.sublist (by simp)) List.mem_cons_self
          · exact ih first (hl.sublist (by simp)) (List.mem_cons_of_mem _ hrest)
  have hsort : e ∈ (preferring e).sort l := ((preferring e).perm l).mem_iff.2 he
  have hsorted : ((preferring e).sort l).Pairwise (Precedes e) := List.pairwise_insertionSort _ l
  unfold distinct
  cases h : (preferring e).sort l with
  | nil => rw [h] at hsort; cases hsort
  | cons first rest =>
    rw [h] at hsort hsorted
    rw [List.destutter_cons']
    exact hloop rest first hsorted hsort

end Preferring

end UnstableSort

end TldrCode
