import TldrCode.Store.Ingestion

/-!
# UTF-8 text

The text of a file is well formed, and the text of a well-formed file is the file itself: decoding
lossily a second time changes nothing (`fromUtf8Lossy_idempotent`).
-/

namespace TldrCode.Store

variable {b : UInt8} {bytes rest seq : List UInt8} {ranges : List (UInt8 × UInt8)} {n : Nat}

inductive Utf8 : List UInt8 → Prop
  | nil : Utf8 []
  | cons {b : UInt8} {ranges : List (UInt8 × UInt8)} {seq rest : List UInt8}
    (hfollow : utf8Follow b = some ranges) (hlength : seq.length = ranges.length)
    (hmatched : utf8Matched ranges seq = ranges.length) (h : Utf8 rest) : Utf8 (b :: (seq ++ rest))

theorem utf8Matched_append (h : utf8Matched ranges seq = ranges.length) :
    utf8Matched ranges (seq ++ rest) = ranges.length := by
  induction ranges generalizing seq with
  | nil => cases seq <;> cases rest <;> rfl
  | cons range ranges ih =>
    cases seq with
    | nil => simp [utf8Matched] at h
    | cons b seq =>
      rw [List.cons_append]
      unfold utf8Matched at h ⊢
      split_ifs at h ⊢
      rw [List.length_cons, Nat.succ_inj] at h ⊢
      exact ih h

theorem utf8Matched_take (h : utf8Matched ranges bytes = ranges.length) :
    (bytes.take ranges.length).length = ranges.length ∧
      utf8Matched ranges (bytes.take ranges.length) = ranges.length := by
  induction ranges generalizing bytes with
  | nil => cases bytes <;> exact ⟨rfl, rfl⟩
  | cons range ranges ih =>
    cases bytes with
    | nil => simp [utf8Matched] at h
    | cons b bytes =>
      rw [List.length_cons, List.take_succ_cons]
      unfold utf8Matched at h ⊢
      split_ifs at h ⊢
      rw [List.length_cons, Nat.succ_inj] at h
      rw [List.length_cons, Nat.succ_inj, Nat.succ_inj]
      exact ih h

theorem utf8_replacement (h : Utf8 rest) : Utf8 ([0xEF, 0xBF, 0xBD] ++ rest) := by
  have hcons : Utf8 (0xEF :: ([0xBF, 0xBD] ++ rest)) := .cons rfl rfl (by decide) h
  exact hcons

/-- **A text is well formed.** -/
theorem utf8_lossyLoop : Utf8 (lossyLoop n bytes) := by
  induction n generalizing bytes with
  | zero => exact .nil
  | succ n ih =>
    cases bytes with
    | nil => exact .nil
    | cons b bytes =>
      rw [lossyLoop]
      split_ifs with hmatched
      · rw [Bool.and_eq_true, beq_iff_eq] at hmatched
        obtain ⟨ranges, hranges⟩ := Option.isSome_iff_exists.1 hmatched.1
        rw [hranges, Option.getD_some] at hmatched ⊢
        rw [hmatched.2, List.cons_append]
        exact .cons hranges (utf8Matched_take hmatched.2).1 (utf8Matched_take hmatched.2).2 ih
      · exact utf8_replacement ih

theorem lossyLoop_of_utf8 (h : Utf8 bytes) (hn : bytes.length ≤ n) : lossyLoop n bytes = bytes := by
  induction h generalizing n with
  | nil => cases n <;> rfl
  | @cons b ranges seq rest hfollow hlength hmatched _ ih =>
    cases n with
    | zero => simp at hn
    | succ n =>
      rw [List.length_cons, List.length_append, Nat.succ_le_succ_iff] at hn
      rw [lossyLoop]
      rw [hfollow, Option.getD_some, utf8Matched_append hmatched, if_pos (by simp), ← hlength,
        List.take_left, List.drop_left, ih (by omega), List.cons_append]

theorem fromUtf8Lossy_idempotent (bytes : List UInt8) :
    fromUtf8Lossy (fromUtf8Lossy bytes) = fromUtf8Lossy bytes :=
  lossyLoop_of_utf8 utf8_lossyLoop le_rfl

end TldrCode.Store
