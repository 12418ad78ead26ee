import Mathlib.Algebra.Group.Int.Defs
import Mathlib.Algebra.GroupWithZero.Nat
import Mathlib.Data.List.Basic
import Mathlib.Data.String.Basic

/-!
# Texts and byte offsets

A text is a list of characters. Slices and searches are by the bytes of its UTF-8 encoding: a slice
is `none` where the offset is not on the boundary of a character (`splitAtByte_eq_some`). Bytes and
characters count the same exactly before the first character outside ASCII (`byteLen_eq_length`).
-/

namespace TldrCode.Dataflow

/-! ## Operations -/

/-- `str::len`. -/
def byteLen (text : List Char) : Nat := (text.map Char.utf8Size).sum

/-- `(&text[..n], &text[n..])`, by bytes. -/
def splitAtByte : List Char → Nat → Option (List Char × List Char)
  | cs, 0 => some ([], cs)
  | [], _ + 1 => none
  | c :: cs, n + 1 =>
    if c.utf8Size ≤ n + 1 then
      (splitAtByte cs (n + 1 - c.utf8Size)).map fun parts => (c :: parts.1, parts.2)
    else none

/-- What comes before the first occurrence of the pattern, or all. -/
def beforePattern (pattern : List Char) : List Char → List Char
  | [] => []
  | c :: cs => if pattern.isPrefixOf (c :: cs) then [] else c :: beforePattern pattern cs

/-- `str::contains`. -/
def containsText (pattern : List Char) : List Char → Bool
  | [] => pattern.isEmpty
  | c :: cs => pattern.isPrefixOf (c :: cs) || containsText pattern cs

def stripPrefix (pattern text : List Char) : Option (List Char) :=
  if pattern.isPrefixOf text then some (text.drop pattern.length) else none

/-- `strip_prefix(c).unwrap_or(text)`. -/
def dropFirst (c : Char) (text : List Char) : List Char :=
  if text.head? = some c then text.tail else text

/-- `strip_suffix(c).unwrap_or(text)`. -/
def dropLast (c : Char) (text : List Char) : List Char :=
  if text.getLast? = some c then text.dropLast else text

/-- `str::find`: the byte at which the pattern first occurs. -/
def findText (pattern : List Char) : List Char → Option Nat
  | [] => if pattern.isEmpty then some 0 else none
  | c :: cs =>
    if pattern.isPrefixOf (c :: cs) then some 0 else (findText pattern cs).map (c.utf8Size + ·)

/-- `&text[from..to]`. -/
def slice (text : List Char) (start stop : Nat) : Option (List Char) := do
  let (upTo, _) ← splitAtByte text stop
  let (_, part) ← splitAtByte upTo start
  some part

def splitOnce (pattern : List Char) : List Char → Option (List Char × List Char)
  | [] => none
  | c :: cs =>
    if pattern.isPrefixOf (c :: cs) then some ([], (c :: cs).drop pattern.length)
    else (splitOnce pattern cs).map fun parts => (c :: parts.1, parts.2)

def dropSign : List Char → List Char
  | '+' :: text => text
  | '-' :: text => text
  | text => text

/-- `parse::<i64>`. -/
def parseI64 (text : List Char) : Option Int :=
  let digits := dropSign text
  let n : Int := Nat.ofDigitChars 10 digits 0
  let value := if text.head? = some '-' then -n else n
  if digits ≠ [] ∧ digits.all Char.isDigit ∧ -2 ^ 63 ≤ value ∧ value < 2 ^ 63 then some value
  else none

def Ascii (text : List Char) : Prop := ∀ c ∈ text, c.utf8Size = 1

variable {text l l' r r' pattern : List Char} {c : Char} {n k : Nat}

/-! ## Lengths -/

@[simp] theorem byteLen_nil : byteLen [] = 0 := rfl

@[simp] theorem byteLen_cons : byteLen (c :: text) = c.utf8Size + byteLen text := by
  simp [byteLen]

@[simp] theorem byteLen_append : byteLen (l ++ r) = byteLen l + byteLen r := by
  simp [byteLen]

theorem utf8ByteSize_eq_byteLen (s : String) : s.utf8ByteSize = byteLen s.toList := by
  have key : ∀ cs : List Char, String.utf8Len cs = byteLen cs := by
    intro cs
    induction cs with
    | nil => rfl
    | cons c cs ih => rw [String.utf8Len, ih, byteLen_cons, Nat.add_comm]
  rw [← String.utf8Len_toList, key]

theorem length_le_byteLen (text : List Char) : text.length ≤ byteLen text := by
  induction text with
  | nil => exact Nat.le_refl 0
  | cons c text ih =>
    have hc := c.utf8Size_pos
    rw [byteLen_cons, List.length_cons]
    omega

@[simp] theorem Ascii.nil : Ascii [] := by simp [Ascii]

@[simp] theorem Ascii.append_iff : Ascii (l ++ r) ↔ Ascii l ∧ Ascii r := by
  simp [Ascii, or_imp, forall_and]

@[simp] theorem Ascii.cons_iff : Ascii (c :: text) ↔ c.utf8Size = 1 ∧ Ascii text := by
  simp [Ascii]

theorem byteLen_eq_length : byteLen text = text.length ↔ Ascii text := by
  induction text with
  | nil => simp
  | cons c text ih =>
    have hc := c.utf8Size_pos
    have hle := length_le_byteLen text
    rw [byteLen_cons, List.length_cons, Ascii.cons_iff, ← ih]
    omega

/-! ## Slices -/

/-- **A slice at a byte** exists where a character starts or the text ends. -/
theorem splitAtByte_eq_some : splitAtByte text n = some (l, r) ↔ text = l ++ r ∧ byteLen l = n := by
  induction text, n using splitAtByte.induct generalizing l with
  | case1 text =>
    rw [splitAtByte]
    constructor
    · intro h
      cases h
      exact ⟨rfl, rfl⟩
    · rintro ⟨rfl, hlen⟩
      cases l with
      | nil => rfl
      | cons c l =>
        have hc := c.utf8Size_pos
        rw [byteLen_cons] at hlen
        omega
  | case2 n =>
    rw [splitAtByte]
    refine iff_of_false nofun ?_
    rintro ⟨h, hlen⟩
    rw [(List.append_eq_nil_iff.1 h.symm).1] at hlen
    cases hlen
  | case3 c text n hle ih =>
    rw [splitAtByte, if_pos hle]
    constructor
    · intro h
      obtain ⟨parts, hparts, heq⟩ := Option.map_eq_some_iff.1 h
      obtain ⟨rfl, rfl⟩ := Prod.mk.inj heq
      obtain ⟨rfl, hlen⟩ := ih.1 hparts
      refine ⟨rfl, ?_⟩
      rw [byteLen_cons]
      omega
    · rintro ⟨h, hlen⟩
      cases l with
      | nil => cases hlen
      | cons c' l =>
        obtain ⟨rfl, rfl⟩ := List.cons.inj h
        rw [byteLen_cons] at hlen
        have hsplit : splitAtByte (l.append r) (n + 1 - c.utf8Size) = some (l, r) :=
          ih.2 ⟨rfl, by omega⟩
        rw [hsplit]
        rfl
  | case4 c text n hlt =>
    rw [splitAtByte, if_neg hlt]
    refine iff_of_false nofun ?_
    rintro ⟨h, hlen⟩
    cases l with
    | nil => cases hlen
    | cons c' l =>
      obtain ⟨rfl, rfl⟩ := List.cons.inj h
      rw [byteLen_cons] at hlen
      omega

theorem splitAtByte_append : splitAtByte (l ++ r) (byteLen l) = some (l, r) :=
  splitAtByte_eq_some.2 ⟨rfl, rfl⟩

/-- A slice is the part between two places where characters start or the text ends. -/
theorem slice_eq_some {start stop : Nat} : slice text start stop = some l ↔
    ∃ left right, text = left ++ l ++ right ∧ byteLen left = start ∧
      byteLen (left ++ l) = stop := by
  unfold slice
  constructor
  · intro h
    obtain ⟨⟨upTo, right⟩, hstop, h⟩ := Option.bind_eq_some_iff.1 h
    obtain ⟨⟨left, part⟩, hstart, h⟩ := Option.bind_eq_some_iff.1 h
    obtain rfl := Option.some.inj h
    obtain ⟨rfl, hupTo⟩ := splitAtByte_eq_some.1 hstop
    obtain ⟨rfl, hleft⟩ := splitAtByte_eq_some.1 hstart
    exact ⟨left, right, rfl, hleft, hupTo⟩
  · rintro ⟨left, right, rfl, rfl, rfl⟩
    rw [splitAtByte_append]
    change (splitAtByte (left ++ l) (byteLen left)).bind _ = _
    rw [splitAtByte_append]
    rfl

theorem append_inj_of_byteLen (h : l ++ r = l' ++ r') (hlen : byteLen l = byteLen l') :
    l = l' ∧ r = r' := by
  have hsplit : splitAtByte (l ++ r) (byteLen l') = some (l, r) := hlen ▸ splitAtByte_append
  rw [h, splitAtByte_append, Option.some_inj, Prod.mk.injEq] at hsplit
  exact ⟨hsplit.1.symm, hsplit.2.symm⟩

/-- A text is cut at its `n`-th character by the byte `n` exactly if what comes before is ASCII. -/
theorem splitAtByte_length (hn : n ≤ text.length) :
    splitAtByte text n = some (text.take n, text.drop n) ↔ Ascii (text.take n) := by
  rw [splitAtByte_eq_some, ← byteLen_eq_length, List.length_take, Nat.min_eq_left hn]
  simp

/-- **What a search finds**: the pattern, and nowhere before that. -/
theorem findText_eq_some : findText pattern text = some n ↔
    ∃ l r, text = l ++ (pattern ++ r) ∧ byteLen l = n ∧
      ∀ l' r', text = l' ++ (pattern ++ r') → l.length ≤ l'.length := by
  induction text generalizing n with
  | nil =>
    unfold findText
    cases pattern with
    | nil => simp [eq_comm]
    | cons c pattern => simp
  | cons c text ih =>
    unfold findText
    split
    · next hprefix =>
      obtain ⟨r, hr⟩ := List.isPrefixOf_iff_prefix.1 hprefix
      constructor
      · intro h
        cases h
        exact ⟨[], r, hr.symm, rfl, fun _ _ _ => Nat.zero_le _⟩
      · rintro ⟨l, r', -, rfl, hmin⟩
        have hlen := hmin [] r hr.symm
        rw [List.length_nil, Nat.le_zero, List.length_eq_zero_iff] at hlen
        rw [hlen]
        rfl
    · next hprefix =>
      rw [Option.map_eq_some_iff]
      constructor
      · rintro ⟨m, hm, rfl⟩
        obtain ⟨l, r, rfl, rfl, hmin⟩ := ih.1 hm
        refine ⟨c :: l, r, rfl, byteLen_cons, fun l' r' h => ?_⟩
        cases l' with
        | nil => exact absurd (List.isPrefixOf_iff_prefix.2 ⟨r', h.symm⟩) hprefix
        | cons c' l' =>
          rw [List.length_cons, List.length_cons]
          exact Nat.succ_le_succ (hmin l' r' (List.cons.inj h).2)
      · rintro ⟨l, r, h, rfl, hmin⟩
        cases l with
        | nil => exact absurd (List.isPrefixOf_iff_prefix.2 ⟨r, h.symm⟩) hprefix
        | cons c' l =>
          obtain ⟨rfl, rfl⟩ := List.cons.inj h
          refine ⟨byteLen l, ih.2 ⟨l, r, rfl, rfl, fun l' r' h' => ?_⟩, byteLen_cons.symm⟩
          have hlen := hmin (c :: l') r' (by rw [h', List.cons_append])
          rw [List.length_cons, List.length_cons] at hlen
          exact Nat.le_of_succ_le_succ hlen

theorem findText_eq_none : findText pattern text = none ↔ ¬ pattern <:+: text := by
  constructor
  · rintro h ⟨l, r, rfl⟩
    induction l with
    | nil =>
      cases hp : pattern ++ r with
      | nil =>
        obtain ⟨rfl, rfl⟩ := List.append_eq_nil_iff.1 hp
        cases h
      | cons c text =>
        rw [List.nil_append, hp, findText, if_pos] at h
        · cases h
        · exact List.isPrefixOf_iff_prefix.2 ⟨r, hp⟩
    | cons c l ih =>
      rw [List.cons_append, List.cons_append, findText] at h
      split at h
      · cases h
      · exact ih (Option.map_eq_none_iff.1 h)
  · intro h
    cases hfind : findText pattern text with
    | none => rfl
    | some n =>
      obtain ⟨l, r, rfl, -, -⟩ := findText_eq_some.1 hfind
      exact absurd ⟨l, r, by rw [List.append_assoc]⟩ h

end TldrCode.Dataflow
