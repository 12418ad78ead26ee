import TldrCode.Dataflow.Text
import Mathlib.Data.List.Sort

/-!
# Boundaries of characters

The bytes at which the characters of a text start, and its end. A boundary is at the position of
its character (`getElem?_boundaries`, `idxOf?_boundaries`), and two of them have a slice between
them (`slice_boundaryAt`).
-/

namespace TldrCode.Dataflow

variable {text part : List Char} {i j n : Nat} {start stop : Nat}

/-! ## Positions -/

/-- `char_indices().map(|(i, _)| i)`, from a byte on. -/
def charIndices : Nat → List Char → List Nat
  | _, [] => []
  | n, c :: text => n :: charIndices (n + c.utf8Size) text

/-- `char_indices().map(|(i, _)| i).chain(once(len))`. -/
def boundaries (text : List Char) : List Nat := charIndices 0 text ++ [byteLen text]

/-- A character starts at this byte, or the text ends there. -/
def IsBoundary (text : List Char) (n : Nat) : Prop := ∃ l r, text = l ++ r ∧ byteLen l = n

def boundaryAt (text : List Char) (i : Nat) : Nat := byteLen (text.take i)

@[simp] theorem boundaryAt_zero : boundaryAt text 0 = 0 := rfl

@[simp] theorem boundaryAt_length : boundaryAt text text.length = byteLen text := by
  rw [boundaryAt, List.take_length]

theorem IsBoundary.exists_boundaryAt (h : IsBoundary text n) :
    ∃ i ≤ text.length, n = boundaryAt text i := by
  obtain ⟨l, r, rfl, rfl⟩ := h
  refine ⟨l.length, ?_, ?_⟩
  · rw [List.length_append]
    exact Nat.le_add_right _ _
  · rw [boundaryAt, List.take_left]

theorem boundaryAt_add (hij : i ≤ j) :
    boundaryAt text j = boundaryAt text i + byteLen ((text.take j).drop i) := by
  unfold boundaryAt
  conv_lhs => rw [← List.take_append_drop i (text.take j), byteLen_append, List.take_take,
    Nat.min_eq_left hij]

theorem boundaryAt_lt (hij : i < j) (hj : j ≤ text.length) :
    boundaryAt text i < boundaryAt text j := by
  have hlength := length_le_byteLen ((text.take j).drop i)
  rw [List.length_drop, List.length_take] at hlength
  rw [boundaryAt_add hij.le]
  omega

theorem boundaryAt_le (hij : i ≤ j) : boundaryAt text i ≤ boundaryAt text j := by
  rw [boundaryAt_add hij]
  exact Nat.le_add_right _ _

theorem le_of_boundaryAt_le (hi : i ≤ text.length) (h : boundaryAt text i ≤ boundaryAt text j) :
    i ≤ j := by
  by_contra hlt
  exact absurd (boundaryAt_lt (Nat.not_le.1 hlt) hi) (Nat.not_lt.2 h)

theorem boundaryAt_part (hij : i + n ≤ j) :
    boundaryAt text i + boundaryAt ((text.take j).drop i) n = boundaryAt text (i + n) := by
  have hpart : ((text.take j).drop i).take n = (text.take (i + n)).drop i := by
    rw [List.take_drop, List.take_take, Nat.min_eq_left hij]
  rw [boundaryAt_add (Nat.le_add_right i n), ← hpart]
  rfl

/-! ## The list of them -/

theorem length_charIndices (n : Nat) (text : List Char) :
    (charIndices n text).length = text.length := by
  induction text generalizing n with
  | nil => rfl
  | cons c text ih => rw [charIndices, List.length_cons, ih, List.length_cons]

theorem getElem?_charIndices (n : Nat) (h : i < text.length) :
    (charIndices n text)[i]? = some (n + boundaryAt text i) := by
  induction text generalizing n i with
  | nil => cases h
  | cons c text ih =>
    cases i with
    | zero => rfl
    | succ i =>
      rw [charIndices, List.getElem?_cons_succ, ih _ (Nat.lt_of_succ_lt_succ h), boundaryAt,
        boundaryAt, List.take_succ_cons, byteLen_cons, Nat.add_assoc]

@[simp] theorem length_boundaries : (boundaries text).length = text.length + 1 := by
  rw [boundaries, List.length_append, length_charIndices, List.length_singleton]

theorem getElem?_boundaries (h : i ≤ text.length) :
    (boundaries text)[i]? = some (boundaryAt text i) := by
  unfold boundaries
  rcases Nat.lt_or_eq_of_le h with hlt | rfl
  · rw [List.getElem?_append_left (by rwa [length_charIndices]), getElem?_charIndices 0 hlt,
      Nat.zero_add]
  · rw [List.getElem?_append_right (by rw [length_charIndices]), length_charIndices, Nat.sub_self,
      List.getElem?_cons_zero, boundaryAt_length]

theorem eq_boundaryAt_of_idxOf? (h : (boundaries text).idxOf? n = some i) :
    i ≤ text.length ∧ n = boundaryAt text i := by
  rw [List.idxOf?, List.findIdx?_eq_some_iff_getElem] at h
  obtain ⟨hlt, hbeq, -⟩ := h
  have hle : i ≤ text.length := by
    rw [length_boundaries] at hlt
    omega
  obtain ⟨_, hat⟩ := List.getElem?_eq_some_iff.1 (getElem?_boundaries hle)
  exact ⟨hle, by rw [← hat, eq_of_beq hbeq]⟩

theorem slice_boundaryAt (text : List Char) (hij : i ≤ j) :
    slice text (boundaryAt text i) (boundaryAt text j) = some ((text.take j).drop i) := by
  have htake : text.take i ++ (text.take j).drop i = text.take j := by
    conv_rhs => rw [← List.take_append_drop i (text.take j), List.take_take, Nat.min_eq_left hij]
  refine slice_eq_some.2 ⟨text.take i, text.drop j, ?_, rfl, ?_⟩
  · rw [htake, List.take_append_drop]
  · rw [htake, boundaryAt]

theorem isBoundary_of_slice (h : slice text start stop = some part) :
    IsBoundary text start ∧ IsBoundary text stop := by
  obtain ⟨left, right, htext, hstart, hstop⟩ := slice_eq_some.1 h
  exact ⟨⟨left, part ++ right, by rw [htext, List.append_assoc], hstart⟩,
    ⟨left ++ part, right, htext, hstop⟩⟩

theorem byteLen_of_slice (h : slice text start stop = some part) : start + byteLen part = stop := by
  obtain ⟨left, right, -, rfl, rfl⟩ := slice_eq_some.1 h
  exact byteLen_append.symm

theorem slice_split {start middle stop : Nat} (h : slice text start stop = some part)
    (hmiddle : IsBoundary text middle) (hstart : start ≤ middle) (hstop : middle ≤ stop) :
    ∃ first second, slice text start middle = some first ∧ slice text middle stop = some second ∧
      part = first ++ second := by
  obtain ⟨hstart', hstop'⟩ := isBoundary_of_slice h
  obtain ⟨i, hi, rfl⟩ := hstart'.exists_boundaryAt
  obtain ⟨j, hj, rfl⟩ := hmiddle.exists_boundaryAt
  obtain ⟨k, hk, rfl⟩ := hstop'.exists_boundaryAt
  have hij := le_of_boundaryAt_le hi hstart
  have hjk := le_of_boundaryAt_le hj hstop
  refine ⟨_, _, slice_boundaryAt text hij, slice_boundaryAt text hjk, ?_⟩
  have htake : (text.take j).drop i = ((text.take k).drop i).take (j - i) := by
    rw [List.take_drop, List.take_take, Nat.add_sub_cancel' hij, Nat.min_eq_left hjk]
  have hdrop : (text.take k).drop j = ((text.take k).drop i).drop (j - i) := by
    rw [List.drop_drop, Nat.add_sub_cancel' hij]
  rw [slice_boundaryAt text (hij.trans hjk)] at h
  rw [← Option.some.inj h, htake, hdrop, List.take_append_drop]

end TldrCode.Dataflow
