import Mathlib.Data.List.Induction
import Mathlib.Data.List.Nodup
import Mathlib.Data.List.TakeDrop

/-!
# Collecting up to a limit

Values are offered under keys one after the other. Until a limit is reached, what is offered first
under its key is kept; an offer may also lack a value, and then only its key is noted. What is kept
in the end are the first values up to the limit (`kept_foldl_offer`), and which ones these are is
seen from the offers before them (`mem_kept_iff`).
-/

namespace TldrCode

variable {K V : Type*}

structure Offer (K V : Type*) where
  key : K
  value : Option V

/-- What has been kept, and the keys that have been seen. -/
structure Collection (K V : Type*) where
  kept : List V
  seen : List K

namespace Offer

def values (l : List (Offer K V)) : List V := l.filterMap (·.value)

variable [DecidableEq K]

/-- The offers that are the first ones under their keys. -/
def firsts : List K → List (Offer K V) → List (Offer K V)
  | _, [] => []
  | seen, o :: l => if o.key ∈ seen then firsts seen l else o :: firsts (o.key :: seen) l

/-- Something is offered with this value before the limit is reached and before anything else is
offered under its key. -/
def Admitted (limit : Nat) (seen : List K) (l : List (Offer K V)) (v : V) : Prop :=
  ∃ front o back, l = front ++ o :: back ∧ o.value = some v ∧ o.key ∉ seen ∧
    (∀ o' ∈ front, o'.key ≠ o.key) ∧ (values (firsts seen front)).length < limit

end Offer

namespace Collection

open Offer

variable [DecidableEq K]

def offer (limit : Nat) (c : Collection K V) (o : Offer K V) : Collection K V :=
  if limit ≤ c.kept.length ∨ o.key ∈ c.seen then c
  else ⟨c.kept ++ o.value.toList, o.key :: c.seen⟩

variable {limit : Nat} {c : Collection K V} {o : Offer K V} {l : List (Offer K V)} {seen : List K}
  {v : V} {k : K}

theorem foldl_offer_of_le (h : limit ≤ c.kept.length) (l : List (Offer K V)) :
    l.foldl (offer limit) c = c := by
  induction l with
  | nil => rfl
  | cons o l ih =>
    rw [List.foldl_cons, offer, if_pos (.inl h)]
    exact ih

/-- **The first values up to the limit** are kept. -/
theorem kept_foldl_offer (h : c.kept.length ≤ limit) (l : List (Offer K V)) :
    (l.foldl (offer limit) c).kept = (c.kept ++ values (firsts c.seen l)).take limit := by
  induction l generalizing c with
  | nil =>
    rw [firsts, values, List.filterMap_nil, List.append_nil, List.take_of_length_le h]
    rfl
  | cons o l ih =>
    by_cases hfull : limit ≤ c.kept.length
    · rw [foldl_offer_of_le hfull, List.take_append_of_le_length hfull]
      exact (List.take_of_length_le h).symm
    · rw [List.foldl_cons, offer, firsts]
      by_cases hseen : o.key ∈ c.seen
      · rw [if_pos (.inr hseen), if_pos hseen]
        exact ih h
      · rw [if_neg (not_or.2 ⟨hfull, hseen⟩), if_neg hseen, ih, List.append_assoc]
        · cases hvalue : o.value with
          | none => rw [values, values, List.filterMap_cons_none hvalue]; rfl
          | some v => rw [values, values, List.filterMap_cons_some hvalue]; rfl
        · have hlength : o.value.toList.length ≤ 1 := by
            cases o.value <;> simp
          rw [List.length_append]
          omega

theorem mem_seen_foldl_offer (h : (l.foldl (offer limit) c).kept.length < limit) :
    k ∈ (l.foldl (offer limit) c).seen ↔ k ∈ c.seen ∨ ∃ o ∈ l, o.key = k := by
  induction l generalizing c with
  | nil => simp
  | cons o l ih =>
    have hnot : ¬ limit ≤ c.kept.length := by
      intro hfull
      rw [foldl_offer_of_le hfull] at h
      omega
    rw [List.foldl_cons] at h ⊢
    rw [ih h, List.exists_mem_cons_iff, ← or_assoc, offer]
    refine or_congr_left ?_
    by_cases hseen : o.key ∈ c.seen
    · rw [if_pos (.inr hseen)]
      exact ⟨.inl, fun hk => hk.elim id fun heq => heq ▸ hseen⟩
    · rw [if_neg (not_or.2 ⟨hnot, hseen⟩), List.mem_cons, or_comm, eq_comm (a := k)]

end Collection

namespace Offer

variable [DecidableEq K] {limit : Nat} {o : Offer K V} {l : List (Offer K V)} {seen : List K}
  {v : V} {k : K}

theorem key_notMem_of_mem_firsts (h : o ∈ firsts seen l) : o.key ∉ seen := by
  induction l generalizing seen with
  | nil => cases h
  | cons o' l ih =>
    rw [firsts] at h
    split_ifs at h with hseen
    · exact ih h
    · rcases List.mem_cons.1 h with rfl | h
      · exact hseen
      · exact fun hmem => ih h (List.mem_cons_of_mem _ hmem)

theorem firsts_subset : firsts seen l ⊆ l := by
  induction l generalizing seen with
  | nil => exact fun _ h => h
  | cons o l ih =>
    rw [firsts]
    split_ifs
    · exact fun _ h => List.mem_cons_of_mem _ (ih h)
    · exact List.cons_subset_cons _ ih

theorem nodup_firsts (seen : List K) (l : List (Offer K V)) :
    ((firsts seen l).map (·.key)).Nodup := by
  induction l generalizing seen with
  | nil => exact List.nodup_nil
  | cons o l ih =>
    rw [firsts]
    split_ifs with hseen
    · exact ih seen
    · rw [List.map_cons, List.nodup_cons, List.mem_map]
      refine ⟨?_, ih _⟩
      rintro ⟨o', ho', heq⟩
      exact key_notMem_of_mem_firsts ho' (heq ▸ List.mem_cons_self)

theorem exists_mem_firsts (h : o ∈ l) (hseen : o.key ∉ seen) :
    ∃ o' ∈ firsts seen l, o'.key = o.key := by
  induction l generalizing seen with
  | nil => cases h
  | cons o' l ih =>
    rw [firsts]
    by_cases hkey : o'.key = o.key
    · rw [if_neg (hkey ▸ hseen)]
      exact ⟨o', List.mem_cons_self, hkey⟩
    · rcases List.mem_cons.1 h with rfl | h
      · exact absurd rfl hkey
      · split_ifs
        · exact ih h hseen
        · obtain ⟨o'', ho'', heq⟩ := ih h fun hmem =>
            hseen ((List.mem_cons.1 hmem).resolve_left fun heq => hkey heq.symm)
          exact ⟨o'', List.mem_cons_of_mem _ ho'', heq⟩

theorem firsts_concat (seen : List K) (l : List (Offer K V)) (o : Offer K V) :
    firsts seen (l ++ [o]) =
      firsts seen l ++ if o.key ∈ seen ∨ ∃ o' ∈ l, o'.key = o.key then [] else [o] := by
  induction l generalizing seen with
  | nil =>
    simp only [List.nil_append, firsts, List.not_mem_nil, false_and, exists_false, or_false]
  | cons o' l ih =>
    rw [List.cons_append, firsts, firsts, ih, ih]
    by_cases hseen : o'.key ∈ seen
    · rw [if_pos hseen, if_pos hseen]
      refine congrArg (firsts seen l ++ ·) (if_congr ?_ rfl rfl)
      rw [List.exists_mem_cons_iff]
      refine ⟨fun h => h.imp_right .inr, ?_⟩
      rintro (h | h | h)
      · exact .inl h
      · exact .inl (h ▸ hseen)
      · exact .inr h
    · rw [if_neg hseen, if_neg hseen, List.cons_append]
      refine congrArg (o' :: firsts (o'.key :: seen) l ++ ·) (if_congr ?_ rfl rfl)
      rw [List.exists_mem_cons_iff, List.mem_cons, eq_comm (a := o.key), or_assoc, or_left_comm]

omit [DecidableEq K] in
@[simp] theorem values_nil : values ([] : List (Offer K V)) = [] := rfl

omit [DecidableEq K] in
theorem values_singleton (o : Offer K V) : values [o] = o.value.toList := by
  obtain ⟨key, value⟩ := o
  cases value <;> rfl

omit [DecidableEq K] in
theorem values_append (l l' : List (Offer K V)) : values (l ++ l') = values l ++ values l' :=
  List.filterMap_append

omit [DecidableEq K] in
theorem map_values {key : V → K} (h : ∀ o ∈ l, ∃ v, o.value = some v ∧ key v = o.key) :
    (values l).map key = l.map (·.key) := by
  induction l with
  | nil => rfl
  | cons o l ih =>
    obtain ⟨v, hvalue, hkey⟩ := h o List.mem_cons_self
    rw [values, List.filterMap_cons_some hvalue, List.map_cons, List.map_cons, hkey, ← values,
      ih fun o' ho' => h o' (List.mem_cons_of_mem _ ho')]

theorem admitted_concat : Admitted limit seen (l ++ [o]) v ↔ Admitted limit seen l v ∨
    o.value = some v ∧ o.key ∉ seen ∧ (∀ o' ∈ l, o'.key ≠ o.key) ∧
      (values (firsts seen l)).length < limit := by
  constructor
  · rintro ⟨front, o', back, heq, h⟩
    rcases List.eq_nil_or_concat back with rfl | ⟨back, o'', rfl⟩
    · obtain ⟨rfl, ho⟩ := List.append_inj' heq rfl
      cases ho
      exact .inr h
    · rw [List.concat_eq_append, ← List.cons_append, ← List.append_assoc] at heq
      obtain ⟨rfl, -⟩ := List.append_inj' heq rfl
      exact .inl ⟨front, o', back, rfl, h⟩
  · rintro (⟨front, o', back, rfl, h⟩ | h)
    · exact ⟨front, o', back ++ [o], by rw [List.append_assoc, List.cons_append], h⟩
    · exact ⟨l, o, [], rfl, h⟩

theorem mem_take_values_firsts_iff :
    v ∈ (values (firsts seen l)).take limit ↔ Admitted limit seen l v := by
  induction l using List.reverseRecOn with
  | nil =>
    refine ⟨fun h => ?_, fun ⟨front, o, back, heq, _⟩ => ?_⟩
    · rw [firsts, values, List.filterMap_nil, List.take_nil] at h
      cases h
    · exact absurd heq.symm (List.append_ne_nil_of_right_ne_nil front (List.cons_ne_nil o back))
  | append_singleton l o ih =>
    rw [admitted_concat, ← ih, firsts_concat, values_append, List.take_append, List.mem_append]
    refine or_congr_right ?_
    split_ifs with hold
    · rw [values_nil, List.take_nil]
      refine ⟨fun h => absurd h List.not_mem_nil, fun ⟨_, hseen, hnew, _⟩ => ?_⟩
      rcases hold with hold | ⟨o', ho', heq⟩
      · exact absurd hold hseen
      · exact absurd heq (hnew o' ho')
    · rw [not_or] at hold
      have hnew : ∀ o' ∈ l, o'.key ≠ o.key := fun o' ho' heq => hold.2 ⟨o', ho', heq⟩
      rw [values_singleton]
      cases o.value with
      | none =>
        rw [Option.toList_none, List.take_nil]
        exact ⟨fun h => absurd h List.not_mem_nil, fun h => absurd h.1 nofun⟩
      | some w =>
        rw [Option.toList_some]
        cases hroom : limit - (values (firsts seen l)).length with
        | zero =>
          rw [List.take_zero]
          exact ⟨fun h => absurd h List.not_mem_nil, fun h => absurd h.2.2.2 (by omega)⟩
        | succ room =>
          rw [List.take_succ_cons, List.take_nil, List.mem_singleton, Option.some_inj]
          exact ⟨fun h => ⟨h.symm, hold.1, hnew, by omega⟩, fun h => h.1.symm⟩

end Offer

open Offer in
/-- **What is kept** has been admitted. -/
theorem Collection.mem_kept_iff [DecidableEq K] {limit : Nat} {seen : List K}
    {l : List (Offer K V)} {v : V} :
    v ∈ (l.foldl (offer limit) ⟨[], seen⟩).kept ↔ Admitted limit seen l v := by
  rw [kept_foldl_offer (Nat.zero_le _)]
  exact mem_take_values_firsts_iff

end TldrCode
