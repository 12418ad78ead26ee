import Mathlib.Data.Finset.Lattice.Basic
import Mathlib.Data.Finset.SDiff
import Mathlib.Data.List.Nodup

/-!
# Bit vectors for sets

A set of members of a list is represented by one bit for each of them (`Represents`). The bit
operations represent the set operations, and of two vectors that represent sets one is equal to the
other exactly if the sets are (`Represents.eq_iff`).
-/

namespace TldrCode.Dataflow

abbrev Bits := List Bool

namespace Bits

def zeros (n : Nat) : Bits := List.replicate n false

def or (a b : Bits) : Bits := List.zipWith (· || ·) a b

def and (a b : Bits) : Bits := List.zipWith (· && ·) a b

def not (a : Bits) : Bits := a.map (!·)

end Bits

variable {δ : Type*} [DecidableEq δ] {elems : List δ} {a b : Bits} {s t : Finset δ} {i : Nat}
  {d : δ}

def decode (elems : List δ) (bits : Bits) : Finset δ :=
  (bits.zipIdx.filterMap fun (bit, i) => if bit then elems[i]? else none).toFinset

/-- The bits represent the set `s` of members of `elems`. -/
structure Represents (elems : List δ) (bits : Bits) (s : Finset δ) : Prop where
  length : bits.length = elems.length
  mem : ∀ (i : Nat) (d : δ), elems[i]? = some d → (bits[i]? = some true ↔ d ∈ s)
  subset : ∀ d ∈ s, d ∈ elems

namespace Represents

omit [DecidableEq δ] in
theorem zeros : Represents elems (Bits.zeros elems.length) ∅ where
  length := List.length_replicate
  mem i d _ := by
    rw [Bits.zeros, List.getElem?_replicate]
    split_ifs <;> simp
  subset d hd := absurd hd (Finset.notMem_empty d)

theorem set (h : Represents elems a s) (hn : elems.Nodup) (hi : elems[i]? = some d) :
    Represents elems (a.set i true) (insert d s) where
  length := by rw [List.length_set, h.length]
  mem j e hj := by
    have hlt := (List.getElem?_eq_some_iff.1 hj).1
    rw [List.getElem?_set, Finset.mem_insert]
    by_cases hij : i = j
    · subst hij
      rw [hi, Option.some_inj] at hj
      simp [hj, h.length, hlt]
    · have hne : e ≠ d := by
        rintro rfl
        have hi' := (List.getElem?_eq_some_iff.1 hi).1
        refine hij ((@List.Nodup.getElem_inj_iff _ _ hn i hi' j hlt).1 ?_)
        rw [(List.getElem?_eq_some_iff.1 hi).2, (List.getElem?_eq_some_iff.1 hj).2]
      rw [if_neg hij, or_iff_right hne]
      exact h.mem j e hj
  subset e he := by
    rcases Finset.mem_insert.1 he with rfl | he
    · exact List.mem_of_getElem? hi
    · exact h.subset e he

theorem or (ha : Represents elems a s) (hb : Represents elems b t) :
    Represents elems (a.or b) (s ∪ t) where
  length := by rw [Bits.or, List.length_zipWith, ha.length, hb.length, Nat.min_self]
  mem i d hi := by
    have hlt := (List.getElem?_eq_some_iff.1 hi).1
    have hia : i < a.length := ha.length ▸ hlt
    have hib : i < b.length := hb.length ▸ hlt
    rw [Finset.mem_union, ← ha.mem i d hi, ← hb.mem i d hi, Bits.or]
    simp [hia, hib]
  subset d hd := (Finset.mem_union.1 hd).elim (ha.subset d) (hb.subset d)

theorem and_not (ha : Represents elems a s) (hb : Represents elems b t) :
    Represents elems (a.and b.not) (s \ t) where
  length := by rw [Bits.and, List.length_zipWith, Bits.not, List.length_map, ha.length, hb.length,
    Nat.min_self]
  mem i d hi := by
    have hlt := (List.getElem?_eq_some_iff.1 hi).1
    have hia : i < a.length := ha.length ▸ hlt
    have hib : i < b.length := hb.length ▸ hlt
    rw [Finset.mem_sdiff, ← ha.mem i d hi, ← hb.mem i d hi, Bits.and, Bits.not]
    simp [hia, hib]
  subset d hd := ha.subset d (Finset.mem_sdiff.1 hd).1

omit [DecidableEq δ] in
/-- **Equal bits, equal sets.** -/
theorem eq_iff (ha : Represents elems a s) (hb : Represents elems b t) : a = b ↔ s = t := by
  constructor
  · rintro rfl
    ext d
    constructor
    · intro hd
      obtain ⟨i, hi⟩ := List.mem_iff_getElem?.1 (ha.subset d hd)
      exact (hb.mem i d hi).1 ((ha.mem i d hi).2 hd)
    · intro hd
      obtain ⟨i, hi⟩ := List.mem_iff_getElem?.1 (hb.subset d hd)
      exact (ha.mem i d hi).1 ((hb.mem i d hi).2 hd)
  · rintro rfl
    refine List.ext_getElem (ha.length.trans hb.length.symm) fun i hia hib => ?_
    have hi : elems[i]? = some (elems.get ⟨i, ha.length ▸ hia⟩) :=
      List.getElem?_eq_getElem _
    have h := (ha.mem i _ hi).trans (hb.mem i _ hi).symm
    rw [List.getElem?_eq_getElem hia, List.getElem?_eq_getElem hib, Option.some_inj,
      Option.some_inj] at h
    exact Bool.eq_iff_iff.2 h

theorem decode_eq (h : Represents elems a s) : decode elems a = s := by
  ext d
  simp only [decode, List.mem_toFinset, List.mem_filterMap, Prod.exists,
    List.mem_zipIdx_iff_getElem?]
  constructor
  · rintro ⟨bit, i, hbit, hd⟩
    split_ifs at hd with hb
    exact (h.mem i d hd).1 (hb ▸ hbit)
  · intro hd
    obtain ⟨i, hi⟩ := List.mem_iff_getElem?.1 (h.subset d hd)
    exact ⟨true, i, (h.mem i d hi).2 hd, hi⟩

end Represents

end TldrCode.Dataflow
