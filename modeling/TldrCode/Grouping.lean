import Mathlib.Data.List.AList
import Mathlib.Data.List.Induction
import Mathlib.Data.List.Sort
import Mathlib.Order.RelClasses

/-!
# Groups and tables

The elements of a list, by their keys, and tables whose groups are put in a row, sorted and grouped
again. A table comes back if each of its groups has elements, they have its key, and they are sorted
(`lookup_group_insertionSort_iff`). What is entered in a table under different keys is found
(`lookup_foldl_insert`).
-/

namespace TldrCode

variable {κ β : Type*} [DecidableEq κ]

abbrev Groups (κ β : Type*) := AList fun _ : κ => List β

def group (key : β → κ) (l : List β) : Groups κ β :=
  l.foldl (fun groups b => groups.insert (key b) ((groups.lookup (key b)).getD [] ++ [b])) ∅

/-- The group of a key, which has elements or is missing. -/
def nonempty (l : List β) : Option (List β) := if l.isEmpty then none else some l

variable {key : β → κ} {l : List β} {c : κ} {entries : List (Sigma fun _ : κ => List β)}

omit [DecidableEq κ] in
theorem getD_nonempty (l : List β) : (nonempty l).getD [] = l := by
  cases l <;> rfl

omit [DecidableEq κ] in
theorem nonempty_eq_some {l' : List β} : nonempty l = some l' ↔ l ≠ [] ∧ l = l' := by
  cases l with
  | nil => simp [nonempty]
  | cons b l => simp [nonempty]

/-- A value of each element is put into the group of its key: what the filters leave. -/
theorem lookup_foldl_push {γ : Type*} (key : β → κ) (value : β → γ) (l : List β) (c : κ) :
    (l.foldl (fun groups b =>
      groups.insert (key b) ((groups.lookup (key b)).getD [] ++ [value b]))
        (∅ : Groups κ γ)).lookup c = nonempty ((l.filter fun b => key b = c).map value) := by
  induction l using List.reverseRecOn with
  | nil => rfl
  | append_singleton l b ih =>
    rw [List.foldl_concat, List.filter_append, List.map_append]
    by_cases hc : key b = c
    · subst hc
      rw [AList.lookup_insert, ih, getD_nonempty, List.filter_singleton, decide_eq_true rfl,
        Bool.cond_true]
      simp [nonempty]
    · rw [AList.lookup_insert_ne (Ne.symm hc), ih, List.filter_singleton,
        decide_eq_false hc, Bool.cond_false, List.map_nil, List.append_nil]

theorem lookup_group (key : β → κ) (l : List β) (c : κ) :
    (group key l).lookup c = nonempty (l.filter fun b => key b = c) := by
  have hpush := lookup_foldl_push key id l c
  rwa [List.map_id] at hpush

theorem filter_flatMap (hnodup : entries.NodupKeys)
    (hkeys : ∀ e ∈ entries, ∀ b ∈ e.2, key b = e.1) :
    (entries.flatMap (·.2)).filter (fun b => key b = c) = (entries.dlookup c).getD [] := by
  induction entries with
  | nil => rfl
  | cons e entries ih =>
    obtain ⟨d, l⟩ := e
    rw [List.nodupKeys_cons] at hnodup
    have ih := ih hnodup.2 fun e he => hkeys e (List.mem_cons_of_mem _ he)
    have hl : ∀ b ∈ l, key b = d := hkeys ⟨d, l⟩ List.mem_cons_self
    rw [List.flatMap_cons, List.filter_append, ih]
    by_cases hd : c = d
    · subst hd
      have hnone : entries.dlookup c = none := List.dlookup_eq_none.2 hnodup.1
      have hall : l.filter (fun b => key b = c) = l := by
        apply List.filter_eq_self.2
        exact fun b hb => decide_eq_true (hl b hb)
      rw [List.dlookup_cons_eq, hnone, hall]
      exact List.append_nil l
    · have hall : l.filter (fun b => key b = c) = [] := by
        apply List.filter_eq_nil_iff.2
        intro b hb
        rw [hl b hb, decide_eq_true_eq]
        exact Ne.symm hd
      rw [List.dlookup_cons_ne _ _ hd, hall, List.nil_append]

section Sorted

variable {r : β → β → Prop} [DecidableRel r] [Std.Total r] [IsTrans β r]

omit [DecidableEq κ] [Std.Total r] [IsTrans β r] in
theorem filter_insertionSort_eq {p : β → Bool} (h : (l.filter p).Pairwise r) :
    (l.insertionSort r).filter p = l.filter p := by
  have hsublist : (l.filter p).Sublist (l.insertionSort r) :=
    List.sublist_insertionSort h List.filter_sublist
  have hfilter : (l.filter p).Sublist ((l.insertionSort r).filter p) := by
    simpa only [List.filter_filter, Bool.and_self] using hsublist.filter p
  refine (hfilter.eq_of_length ?_).symm
  exact ((List.perm_insertionSort r l).filter p).length_eq.symm

/-- **Groups that are sorted in a row** come back if they are groups, and sorted. -/
theorem lookup_group_insertionSort_iff {groups : Groups κ β} (hperm : entries.Perm groups.entries) :
    (∀ c, (group key ((entries.flatMap (·.2)).insertionSort r)).lookup c = groups.lookup c) ↔
      ∀ e ∈ groups.entries, e.2 ≠ [] ∧ (∀ b ∈ e.2, key b = e.1) ∧ e.2.Pairwise r := by
  have hnodup : entries.NodupKeys := (List.perm_nodupKeys hperm).2 groups.nodupKeys
  have hlookup : ∀ c, entries.dlookup c = groups.lookup c := fun c =>
    List.perm_dlookup c hnodup hperm
  constructor
  · intro h e he
    have hsome := h e.1
    rw [lookup_group, AList.mem_lookup_iff.2 he, nonempty_eq_some] at hsome
    obtain ⟨hne, heq⟩ := hsome
    rw [← heq]
    refine ⟨hne, fun b hb => ?_, ?_⟩
    · exact of_decide_eq_true (List.mem_filter.1 hb).2
    · exact (List.pairwise_insertionSort r _).sublist List.filter_sublist
  · intro h c
    have hfilter : (entries.flatMap (·.2)).filter (fun b => key b = c) =
        (groups.lookup c).getD [] := by
      rw [filter_flatMap hnodup fun e he => (h e (hperm.mem_iff.1 he)).2.1, hlookup]
    rw [lookup_group]
    cases hc : groups.lookup c with
    | none =>
      rw [hc, Option.getD_none] at hfilter
      have hsorted : ((entries.flatMap (·.2)).insertionSort r).filter
        (fun b => key b = c) = [] := by
        rw [filter_insertionSort_eq, hfilter]
        rw [hfilter]
        exact List.Pairwise.nil
      rw [hsorted]
      rfl
    | some l =>
      obtain ⟨hne, -, hsorted⟩ := h ⟨c, l⟩ (AList.mem_lookup_iff.1 hc)
      rw [hc, Option.getD_some] at hfilter
      rw [filter_insertionSort_eq (by rwa [hfilter]), hfilter, nonempty_eq_some]
      exact ⟨hne, rfl⟩

end Sorted

/-! ## Tables -/

section

variable {α κ β : Type*} [DecidableEq κ] {l : List α} {k : κ} {b : β} (key : α → κ) (value : α → β)
  (enter : (AList fun _ : κ => β) → α → β)

theorem lookup_foldl_insert (hnew : ∀ table a, table.lookup (key a) = none →
    enter table a = value a)
    (hnodup : (l.map key).Nodup) :
    (l.foldl (fun (table : AList fun _ : κ => β) a =>
      table.insert (key a) (enter table a)) ∅).lookup k = some b ↔
      ∃ a ∈ l, key a = k ∧ value a = b := by
  induction l using List.reverseRecOn generalizing k b with
  | nil =>
    constructor
    · exact fun h => nomatch h
    · rintro ⟨a, ha, -⟩
      cases ha
  | append_singleton l a ih =>
    rw [List.map_append, List.nodup_append] at hnodup
    have ih := fun k b => ih (k := k) (b := b) hnodup.1
    have hdiffer : ∀ a' ∈ l, key a' ≠ key a := fun a' ha' =>
      hnodup.2.2 _ (List.mem_map_of_mem ha') _ (List.mem_map_of_mem (List.mem_singleton_self a))
    rw [List.foldl_concat]
    by_cases hk : k = key a
    · subst hk
      rw [AList.lookup_insert, hnew, Option.some_inj]
      · constructor
        · intro h
          exact ⟨a, by simp, rfl, h⟩
        · rintro ⟨a', ha', heq, hb⟩
          cases List.mem_append.1 ha' with
          | inl hmem => exact absurd heq (hdiffer a' hmem)
          | inr hmem => rwa [List.mem_singleton.1 hmem] at hb
      · rw [Option.eq_none_iff_forall_ne_some]
        intro b hb
        obtain ⟨a', ha', heq, -⟩ := (ih _ b).1 hb
        exact hdiffer a' ha' heq
    · rw [AList.lookup_insert_ne hk, ih]
      refine exists_congr fun a' => ?_
      rw [List.mem_append, List.mem_singleton]
      constructor
      · exact fun ⟨hmem, h⟩ => ⟨.inl hmem, h⟩
      · rintro ⟨hmem | rfl, heq, hb⟩
        · exact ⟨hmem, heq, hb⟩
        · exact absurd heq.symm hk

end

end TldrCode
