import Mathlib.Data.Nat.Bitwise
import Mathlib.Tactic.Linarith
import Mathlib.Tactic.Ring
import TldrCode.Octagon.Bound

/-!
# Difference bound matrices in half

`dataflow/octagon/dbm.rs`. A `Dbm` stores one of the two entries `(i, j)` and `(j ^ 1, i ^ 1)`,
which bound the same difference, and the entries `(2k, 2k + 1)` apart. `get_set` says which entries
a write changes.
-/

namespace TldrCode.Octagon

/-! ## Indices -/

def complement (i : Nat) : Nat := i ^^^ 1

def isUpperDiag (i j : Nat) : Bool := i < j && i ^^^ 1 == j

def lowerIndex (i j : Nat) : Nat := i * (i + 1) / 2 + j

def indexOf (i j : Nat) : Nat := if j ≤ i then lowerIndex i j else lowerIndex (j ^^^ 1) (i ^^^ 1)

theorem complement_div (i : Nat) : complement i / 2 = i / 2 := by
  rw [complement, Nat.xor_div_two]
  simp

theorem complement_mod (i : Nat) : complement i % 2 = 1 - i % 2 := by
  have h : complement i % 2 = (i + 1) % 2 := Nat.xor_mod_two_eq
  omega

@[simp] theorem complement_complement (i : Nat) : complement (complement i) = i := by
  have := complement_div i
  have := complement_div (complement i)
  have := complement_mod i
  have := complement_mod (complement i)
  omega

theorem complement_lt {i n : Nat} (h : i < 2 * n) : complement i < 2 * n := by
  have := complement_div i
  omega

theorem complement_ne (i : Nat) : complement i ≠ i := by
  have := complement_mod i
  omega

theorem complement_injective : Function.Injective complement :=
  Function.LeftInverse.injective complement_complement

theorem eq_complement_comm {i j : Nat} : i = complement j ↔ j = complement i := by
  constructor
  · rintro rfl
    exact (complement_complement j).symm
  · rintro rfl
    exact (complement_complement i).symm

theorem complement_le_complement {i j : Nat} (h : i ≤ j) (hne : j ≠ complement i)
    (hle : complement j ≤ complement i) : i = j := by
  have := complement_div i
  have := complement_div j
  have := complement_mod i
  have := complement_mod j
  omega

theorem triangle_succ (i : Nat) : (i + 1) * (i + 1 + 1) / 2 = i * (i + 1) / 2 + (i + 1) := by
  have h : (i + 1) * (i + 1 + 1) = i * (i + 1) + 2 * (i + 1) := by ring
  rw [h, Nat.add_mul_div_left _ _ Nat.two_pos]

theorem triangle_mono {i j : Nat} (h : i ≤ j) : i * (i + 1) / 2 ≤ j * (j + 1) / 2 :=
  Nat.div_le_div_right (Nat.mul_le_mul h (Nat.succ_le_succ h))

theorem lowerIndex_lt {i j k : Nat} (hj : j ≤ i) (hik : i < k) :
    lowerIndex i j < k * (k + 1) / 2 := by
  have h := triangle_mono (show i + 1 ≤ k from hik)
  have hs := triangle_succ i
  rw [lowerIndex]
  omega

variable {i j i' j' : Nat}

theorem lowerIndex_inj (hj : j ≤ i) (hj' : j' ≤ i') (h : lowerIndex i j = lowerIndex i' j') :
    i = i' ∧ j = j' := by
  have hi : i = i' := by
    rcases Nat.lt_trichotomy i i' with hlt | rfl | hlt
    · have := lowerIndex_lt hj hlt
      rw [h, lowerIndex] at this
      omega
    · rfl
    · have := lowerIndex_lt hj' hlt
      rw [← h, lowerIndex] at this
      omega
  subst hi
  rw [lowerIndex, lowerIndex] at h
  exact ⟨rfl, by omega⟩

/-- The entries `(i, j)` and `(i', j')` are stored in one cell. -/
def SameCell (i j i' j' : Nat) : Prop :=
  i' = i ∧ j' = j ∨ i ≠ j ∧ i' = complement j ∧ j' = complement i

theorem isUpperDiag_iff {i j : Nat} : isUpperDiag i j ↔ i < j ∧ j = complement i := by
  rw [isUpperDiag, Bool.and_eq_true, decide_eq_true_eq, beq_iff_eq, complement, eq_comm (a := j)]

theorem indexOf_spec {i j : Nat} (h : ¬ isUpperDiag i j) : ∃ a b, b ≤ a ∧
    indexOf i j = lowerIndex a b ∧ (a = i ∧ b = j ∧ j ≤ i ∨
      a = complement j ∧ b = complement i ∧ i < j) := by
  rw [isUpperDiag_iff] at h
  rw [indexOf]
  split_ifs with hle
  · exact ⟨i, j, hle, rfl, .inl ⟨rfl, rfl, hle⟩⟩
  · have hij : i < j := Nat.lt_of_not_le hle
    refine ⟨complement j, complement i, ?_, rfl, .inr ⟨rfl, rfl, hij⟩⟩
    apply le_of_not_gt
    intro hlt
    exact hij.ne (complement_le_complement hij.le (fun heq => h ⟨hij, heq⟩) hlt.le)

theorem SameCell.symm (h : SameCell i j i' j') : SameCell i' j' i j := by
  rcases h with ⟨rfl, rfl⟩ | ⟨hne, rfl, rfl⟩
  · exact .inl ⟨rfl, rfl⟩
  · refine .inr ⟨fun heq => hne (complement_injective heq).symm, ?_, ?_⟩
    · rw [complement_complement]
    · rw [complement_complement]

theorem SameCell.eq_of_self {i j k : Nat} (h : SameCell i j k k) : k = i ∧ k = j :=
  h.resolve_right fun ⟨hne, hkj, hki⟩ => hne (complement_injective (hki.symm.trans hkj))

theorem SameCell.div_eq {i j k l : Nat} (h : SameCell i j k l) (hvar : i / 2 = j / 2) :
    k / 2 = j / 2 ∧ l / 2 = j / 2 := by
  rcases h with ⟨rfl, rfl⟩ | ⟨-, rfl, rfl⟩
  · exact ⟨hvar, rfl⟩
  · rw [complement_div, complement_div]
    exact ⟨rfl, hvar⟩

theorem SameCell.sub_eq {G : Type*} [AddCommGroup G] {f : Nat → G}
    (hf : ∀ i, f (complement i) = -f i) {i j k l : Nat} (h : SameCell i j k l) :
    f l - f k = f j - f i := by
  rcases h with ⟨rfl, rfl⟩ | ⟨-, rfl, rfl⟩
  · rfl
  · rw [hf, hf, neg_sub_neg]

theorem sameCell_of_le (hle : j ≤ i) (hle' : j' ≤ i') : SameCell i j i' j' ↔ i = i' ∧ j = j' := by
  constructor
  · rintro (⟨rfl, rfl⟩ | ⟨hne, rfl, rfl⟩)
    · exact ⟨rfl, rfl⟩
    · have hij : i = complement j := by
        by_contra h
        exact hne (complement_le_complement hle h hle').symm
      have hji : j = complement i := eq_complement_comm.1 hij
      exact ⟨hij, hji⟩
  · rintro ⟨rfl, rfl⟩
    exact .inl ⟨rfl, rfl⟩

theorem sameCell_of_lt (hle : j ≤ i) (hlt : i' < j') :
    SameCell i j i' j' ↔ i = complement j' ∧ j = complement i' := by
  constructor
  · rintro (⟨rfl, rfl⟩ | ⟨-, rfl, rfl⟩)
    · omega
    · rw [complement_complement, complement_complement]
      exact ⟨rfl, rfl⟩
  · rintro ⟨rfl, rfl⟩
    refine .inr ⟨fun heq => hlt.ne (complement_injective heq).symm, ?_, ?_⟩
    · rw [complement_complement]
    · rw [complement_complement]

/-- Two entries outside the upper diagonal with one index are stored in one cell. -/
theorem sameCell_of_indexOf (h : ¬ isUpperDiag i j) (h' : ¬ isUpperDiag i' j') :
    indexOf i j = indexOf i' j' ↔ SameCell i j i' j' := by
  obtain ⟨a, b, hab, heq, hcase⟩ := indexOf_spec h
  obtain ⟨a', b', hab', heq', hcase'⟩ := indexOf_spec h'
  have hinj : indexOf i j = indexOf i' j' ↔ a = a' ∧ b = b' := by
    rw [heq, heq']
    exact ⟨lowerIndex_inj hab hab', fun ⟨h₁, h₂⟩ => by rw [h₁, h₂]⟩
  rw [hinj]
  have hcomm : SameCell i j i' j' ↔ SameCell i' j' i j := ⟨SameCell.symm, SameCell.symm⟩
  rcases hcase with ⟨rfl, rfl, hle⟩ | ⟨rfl, rfl, hlt⟩
  · rcases hcase' with ⟨rfl, rfl, hle'⟩ | ⟨rfl, rfl, hlt'⟩
    · exact (sameCell_of_le hle hle').symm
    · exact (sameCell_of_lt hle hlt').symm
  · rcases hcase' with ⟨rfl, rfl, hle'⟩ | ⟨rfl, rfl, hlt'⟩
    · rw [hcomm, sameCell_of_lt hle' hlt, eq_comm, eq_comm (a := complement i)]
    · rw [complement_injective.eq_iff, complement_injective.eq_iff]
      constructor
      · rintro ⟨rfl, rfl⟩
        exact .inl ⟨rfl, rfl⟩
      · rintro (⟨rfl, rfl⟩ | ⟨-, rfl, rfl⟩)
        · exact ⟨rfl, rfl⟩
        · -- the mirror image of an entry above the diagonal is below it
          exact absurd hab hlt'.not_ge

theorem sameCell_of_upper (h : isUpperDiag i j) (h' : isUpperDiag i' j') :
    i / 2 = i' / 2 ↔ SameCell i j i' j' := by
  obtain ⟨hlt, rfl⟩ := isUpperDiag_iff.1 h
  obtain ⟨hlt', rfl⟩ := isUpperDiag_iff.1 h'
  have hdiv := complement_div i
  have hdiv' := complement_div i'
  constructor
  · intro hvar
    have heq : i' = i := by omega
    exact .inl ⟨heq, by rw [heq]⟩
  · rintro (⟨rfl, -⟩ | ⟨-, heq, -⟩)
    · rfl
    · rw [heq, complement_complement]

theorem not_sameCell_of_upper (h : isUpperDiag i j) (h' : ¬ isUpperDiag i' j') :
    ¬ SameCell i j i' j' := by
  obtain ⟨hlt, rfl⟩ := isUpperDiag_iff.1 h
  rintro (⟨rfl, rfl⟩ | ⟨-, rfl, rfl⟩)
  · exact h' h
  · rw [complement_complement] at h'
    exact h' h

/-! ## The matrix -/

/-- `Dbm`: `2n * (2n + 1) / 2` entries of the lower triangle and `n` entries `(2k, 2k + 1)`. -/
structure Dbm (B : Type*) where
  nVars : Nat
  data : List B
  upperDiag : List B
  data_length : data.length = 2 * nVars * (2 * nVars + 1) / 2
  upper_length : upperDiag.length = nVars

namespace Dbm

variable {B : Type*} [Bound B]

def dim (dbm : Dbm B) : Nat := 2 * dbm.nVars

omit [Bound B] in
theorem literals_lt (dbm : Dbm B) {x : Nat} (hx : x < dbm.nVars) :
    2 * x < dbm.dim ∧ 2 * x + 1 < dbm.dim := by
  rw [dim]
  omega

def get (dbm : Dbm B) (i j : Nat) : B :=
  if isUpperDiag i j then dbm.upperDiag.getD (i / 2) ⊤ else dbm.data.getD (indexOf i j) ⊤

def set (dbm : Dbm B) (i j : Nat) (value : B) : Dbm B :=
  if isUpperDiag i j then
    { dbm with
      upperDiag := dbm.upperDiag.set (i / 2) value
      upper_length := by rw [List.length_set, dbm.upper_length] }
  else
    { dbm with
      data := dbm.data.set (indexOf i j) value
      data_length := by rw [List.length_set, dbm.data_length] }

/-- The diagonal entries of the half matrix that `new` sets to zero. -/
def zeroDiagonal (dim : Nat) (data : List B) : List B :=
  (List.range dim).foldl (fun data i => data.set (lowerIndex i i) 0) data

theorem zeroDiagonal_length (dim : Nat) (data : List B) :
    (zeroDiagonal dim data).length = data.length := by
  rw [zeroDiagonal]
  generalize List.range dim = l
  induction l generalizing data with
  | nil => rfl
  | cons i l ih => rw [List.foldl_cons, ih, List.length_set]

/-- `new`: everything is unconstrained. -/
def new (nVars : Nat) : Dbm B where
  nVars := nVars
  data := zeroDiagonal (2 * nVars) (List.replicate (2 * nVars * (2 * nVars + 1) / 2) ⊤)
  upperDiag := List.replicate nVars ⊤
  data_length := by rw [zeroDiagonal_length, List.length_replicate]
  upper_length := List.length_replicate

omit [Bound B] in
@[simp] theorem set_nVars (dbm : Dbm B) (i j : Nat) (v : B) :
    (dbm.set i j v).nVars = dbm.nVars := by
  rw [set]
  split_ifs <;> rfl

omit [Bound B] in
@[simp] theorem set_dim (dbm : Dbm B) (i j : Nat) (v : B) : (dbm.set i j v).dim = dbm.dim := by
  rw [dim, set_nVars, dim]

instance (i j i' j' : Nat) : Decidable (SameCell i j i' j') :=
  inferInstanceAs (Decidable (_ ∨ _))

/-- **A write** changes the entries of its cell. -/
theorem get_set (dbm : Dbm B) {i j : Nat} (v : B) (i' j' : Nat) (hi : i < dbm.dim)
    (hj : j < dbm.dim) : (dbm.set i j v).get i' j' =
      if SameCell i j i' j' then v else dbm.get i' j' := by
  rw [dim] at hi hj
  rw [set, get, get]
  by_cases hu : isUpperDiag i j
  · rw [if_pos hu]
    by_cases hu' : isUpperDiag i' j'
    · rw [if_pos hu', if_pos hu']
      dsimp only
      simp only [← sameCell_of_upper hu hu']
      have hlt : i / 2 < dbm.upperDiag.length := by
        rw [dbm.upper_length]
        omega
      rw [List.getD_eq_getElem?_getD, List.getElem?_set, List.getD_eq_getElem?_getD]
      split_ifs <;> rfl
    · rw [if_neg hu', if_neg (not_sameCell_of_upper hu hu'), if_neg hu']
  · rw [if_neg hu]
    by_cases hu' : isUpperDiag i' j'
    · rw [if_pos hu', if_neg (fun h => not_sameCell_of_upper hu' hu h.symm), if_pos hu']
    · rw [if_neg hu', if_neg hu']
      dsimp only
      simp only [← sameCell_of_indexOf hu hu']
      have hlt : indexOf i j < dbm.data.length := by
        obtain ⟨a, b, hab, heq, hcase⟩ := indexOf_spec hu
        rw [heq, dbm.data_length]
        refine lowerIndex_lt hab ?_
        have := complement_lt hj
        omega
      rw [List.getD_eq_getElem?_getD, List.getElem?_set, List.getD_eq_getElem?_getD]
      split_ifs <;> rfl

theorem get_eq_of_sameCell (dbm : Dbm B) (h : SameCell i j i' j') :
    dbm.get i' j' = dbm.get i j := by
  rw [get, get]
  by_cases hu : isUpperDiag i j
  · by_cases hu' : isUpperDiag i' j'
    · rw [if_pos hu, if_pos hu', (sameCell_of_upper hu hu').2 h]
    · exact absurd h (not_sameCell_of_upper hu hu')
  · by_cases hu' : isUpperDiag i' j'
    · exact absurd h.symm (not_sameCell_of_upper hu' hu)
    · rw [if_neg hu, if_neg hu', (sameCell_of_indexOf hu hu').2 h]

/-- **Coherence**, off the diagonal. -/
theorem get_complement (dbm : Dbm B) {i j : Nat} (h : i ≠ j) :
    dbm.get (complement j) (complement i) = dbm.get i j :=
  dbm.get_eq_of_sameCell (.inr ⟨h, rfl, rfl⟩)

theorem exists_lowerIndex {idx n : Nat} (h : idx < n * (n + 1) / 2) :
    ∃ i < n, ∃ j ≤ i, lowerIndex i j = idx := by
  induction n with
  | zero => exact absurd h (Nat.not_lt_zero idx)
  | succ n ih =>
    by_cases hlt : idx < n * (n + 1) / 2
    · obtain ⟨i, hi, hj⟩ := ih hlt
      exact ⟨i, Nat.lt_succ_of_lt hi, hj⟩
    · rw [triangle_succ] at h
      exact ⟨n, Nat.lt_succ_self n, idx - n * (n + 1) / 2, by omega, by rw [lowerIndex]; omega⟩

theorem eq_of_get {dbm dbm' : Dbm B} (hdim : dbm.dim = dbm'.dim)
    (hget : ∀ i < dbm.dim, ∀ j < dbm.dim, dbm.get i j = dbm'.get i j) : dbm = dbm' := by
  have hvars : dbm.nVars = dbm'.nVars := Nat.eq_of_mul_eq_mul_left Nat.two_pos hdim
  have hlower : ∀ (d : Dbm B) {i j : Nat}, j ≤ i →
      d.get i j = d.data.getD (lowerIndex i j) ⊤ := fun d i j hj => by
    rw [get, if_neg (fun hu => by have := (isUpperDiag_iff.1 hu).1; omega), indexOf, if_pos hj]
  have hupper : ∀ (d : Dbm B) (k : Nat), d.get (2 * k) (2 * k + 1) = d.upperDiag.getD k ⊤ :=
    fun d k => by
      have hdiv := complement_div (2 * k)
      have hmod := complement_mod (2 * k)
      rw [get, if_pos (isUpperDiag_iff.2 ⟨by omega, by omega⟩),
        Nat.mul_div_cancel_left k Nat.two_pos]
  have hdata : dbm.data = dbm'.data := by
    refine List.ext_getElem (by rw [dbm.data_length, dbm'.data_length, hvars]) fun idx h₁ h₂ => ?_
    obtain ⟨i, hi, j, hj, rfl⟩ := exists_lowerIndex (dbm.data_length ▸ h₁)
    have h := hget i hi j (hj.trans_lt hi)
    rwa [hlower dbm hj, hlower dbm' hj, List.getD_eq_getElem _ _ h₁,
      List.getD_eq_getElem _ _ h₂] at h
  have hdiag : dbm.upperDiag = dbm'.upperDiag := by
    refine List.ext_getElem (by rw [dbm.upper_length, dbm'.upper_length, hvars]) fun k h₁ h₂ => ?_
    have hk : k < dbm.nVars := dbm.upper_length ▸ h₁
    have h := hget (2 * k) (by rw [dim]; omega) (2 * k + 1) (by rw [dim]; omega)
    rwa [hupper, hupper, List.getD_eq_getElem _ _ h₁, List.getD_eq_getElem _ _ h₂] at h
  cases dbm
  cases dbm'
  simp_all

theorem zeroDiagonal_getD (dim idx : Nat) (data : List B) (hidx : idx < data.length) :
    (zeroDiagonal dim data).getD idx ⊤ =
      if ∃ i < dim, lowerIndex i i = idx then 0 else data.getD idx ⊤ := by
  rw [zeroDiagonal]
  induction dim with
  | zero => simp
  | succ dim ih =>
    have hlen : idx < ((List.range dim).foldl (fun data i => data.set (lowerIndex i i) 0)
        data).length := by
      have := zeroDiagonal_length dim data
      rw [zeroDiagonal] at this
      rwa [this]
    rw [List.range_succ, List.foldl_append, List.foldl_cons, List.foldl_nil,
      List.getD_eq_getElem?_getD, List.getElem?_set]
    by_cases hd : lowerIndex dim dim = idx
    · rw [if_pos hd, if_pos (hd ▸ hlen), if_pos ⟨dim, Nat.lt_succ_self _, hd⟩, Option.getD_some]
    · rw [if_neg hd, ← List.getD_eq_getElem?_getD, ih]
      refine if_congr ⟨?_, ?_⟩ rfl rfl
      · exact fun ⟨i, hi, h⟩ => ⟨i, Nat.lt_succ_of_lt hi, h⟩
      · rintro ⟨i, hi, h⟩
        refine ⟨i, ?_, h⟩
        have hne : i ≠ dim := fun he => hd (he ▸ h)
        omega

theorem get_new (n : Nat) {i j : Nat} (hi : i < 2 * n) (hj : j < 2 * n) :
    (new n : Dbm B).get i j = if i = j then 0 else ⊤ := by
  rw [get]
  by_cases hu : isUpperDiag i j
  · have hne : i ≠ j := (isUpperDiag_iff.1 hu).1.ne
    rw [if_pos hu, if_neg hne, new]
    rw [List.getD_eq_getElem?_getD, List.getElem?_replicate]
    split_ifs <;> rfl
  · obtain ⟨a, b, hab, heq, hcase⟩ := indexOf_spec hu
    have hc := complement_lt hj
    have ha : a < 2 * n := by omega
    rw [if_neg hu, new]
    dsimp only
    rw [zeroDiagonal_getD _ _ _ (by rw [List.length_replicate, heq]; exact lowerIndex_lt hab ha)]
    have hdiag : (∃ k < 2 * n, lowerIndex k k = indexOf i j) ↔ i = j := by
      rw [heq]
      constructor
      · rintro ⟨k, -, h⟩
        obtain ⟨rfl, rfl⟩ := lowerIndex_inj le_rfl hab h
        have := complement_div i
        have := complement_mod i
        have := complement_div j
        have := complement_mod j
        omega
      · rintro rfl
        refine ⟨a, ha, ?_⟩
        have hab' : a = b := by omega
        rw [hab']
    refine if_congr hdiag rfl ?_
    rw [List.getD_eq_getElem?_getD, List.getElem?_replicate]
    split_ifs <;> rfl

/-! ## Cells -/

/-- The index of a cell, in `upper_diag` or in `data`. -/
def cellOf (i j : Nat) : Nat ⊕ Nat :=
  if isUpperDiag i j then .inl (i / 2) else .inr (indexOf i j)

def HasCell (dbm : Dbm B) : Nat ⊕ Nat → Prop
  | .inl k => k < dbm.upperDiag.length
  | .inr idx => idx < dbm.data.length

omit [Bound B] in
theorem hasCell (dbm : Dbm B) {i j : Nat} (hi : i < dbm.dim) (hj : j < dbm.dim) :
    dbm.HasCell (cellOf i j) := by
  rw [dim] at hi hj
  unfold cellOf
  split_ifs with hu
  · show i / 2 < dbm.upperDiag.length
    rw [dbm.upper_length]
    omega
  · obtain ⟨a, b, hab, heq, hcase⟩ := indexOf_spec hu
    show indexOf i j < dbm.data.length
    rw [heq, dbm.data_length]
    apply lowerIndex_lt hab
    have := complement_lt hj
    omega

theorem cellOf_eq_iff : cellOf i j = cellOf i' j' ↔ SameCell i j i' j' := by
  unfold cellOf
  by_cases hu : isUpperDiag i j
  · by_cases hu' : isUpperDiag i' j'
    · rw [if_pos hu, if_pos hu', Sum.inl.injEq, sameCell_of_upper hu hu']
    · simp [hu, hu', not_sameCell_of_upper hu hu']
  · by_cases hu' : isUpperDiag i' j'
    · have hnot : ¬ SameCell i j i' j' := fun h => not_sameCell_of_upper hu' hu h.symm
      simp [hu, hu', hnot]
    · rw [if_neg hu, if_neg hu', Sum.inr.injEq, sameCell_of_indexOf hu hu']

/-- **The half matrix** reads and writes the two entries of a cell, and nothing else. Every cell is
in its list, and two entries have one cell only if they are equal or mirror images. -/
theorem halfMatrix_spec (dbm : Dbm B) {i j : Nat} (hi : i < dbm.dim) (hj : j < dbm.dim)
    (hne : i ≠ j) :
    dbm.get i j = dbm.get (j ^^^ 1) (i ^^^ 1) ∧
      (∀ v, ∀ i' < dbm.dim, ∀ j' < dbm.dim, (dbm.set i j v).get i' j' =
        if i' = i ∧ j' = j ∨ i' = j ^^^ 1 ∧ j' = i ^^^ 1 then v else dbm.get i' j') ∧
      dbm.HasCell (cellOf i j) ∧
      ∀ i' < dbm.dim, ∀ j' < dbm.dim, cellOf i j = cellOf i' j' →
        i' = i ∧ j' = j ∨ i' = j ^^^ 1 ∧ j' = i ^^^ 1 := by
  have hcell : ∀ i' j', SameCell i j i' j' ↔
      i' = i ∧ j' = j ∨ i' = j ^^^ 1 ∧ j' = i ^^^ 1 := fun i' j' =>
    or_congr_right (and_iff_right hne)
  refine ⟨(dbm.get_complement hne).symm, fun v i' _ j' _ => ?_, dbm.hasCell hi hj,
    fun i' _ j' _ h => (hcell i' j').1 (cellOf_eq_iff.1 h)⟩
  rw [get_set dbm v i' j' hi hj]
  exact if_congr (hcell i' j') rfl rfl

theorem halfMatrix_spec_new :
    (new 2 : Dbm Exact).get 0 3 = (new 2 : Dbm Exact).get (3 ^^^ 1) (0 ^^^ 1) ∧
      (∀ v, ∀ i' < (new 2 : Dbm Exact).dim, ∀ j' < (new 2 : Dbm Exact).dim,
        ((new 2 : Dbm Exact).set 0 3 v).get i' j' =
          if i' = 0 ∧ j' = 3 ∨ i' = 3 ^^^ 1 ∧ j' = 0 ^^^ 1 then v
          else (new 2 : Dbm Exact).get i' j') ∧
      (new 2 : Dbm Exact).HasCell (cellOf 0 3) ∧
      ∀ i' < (new 2 : Dbm Exact).dim, ∀ j' < (new 2 : Dbm Exact).dim,
        cellOf 0 3 = cellOf i' j' → i' = 0 ∧ j' = 3 ∨ i' = 3 ^^^ 1 ∧ j' = 0 ^^^ 1 :=
  halfMatrix_spec (new 2) (by decide) (by decide) (by decide)

end Dbm

end TldrCode.Octagon
