import Mathlib.Data.List.Infix
import TldrCode.Dataflow.Expressions

/-!
# Where lines are cut

`parse_expression_from_line` looks for the assignment and for the operator among the characters of a
line, and cuts at these positions by bytes. A cut is where it should be exactly if everything before
it is ASCII. Until a cut goes wrong the operators are tried as they would be with cuts by character,
so that all cuts are right, and with them the operands, if and only if ASCII characters come before
the assignment and before every operator that is tried (`parseExpressionFromLine_right_iff`).
-/

namespace TldrCode.Dataflow

/-- A cut at the byte `n` is one before the character with that index. -/
def CutRight (text : List Char) (n : Nat) : Prop :=
  splitAtByte text n = some (text.take n, text.drop n)

namespace CharTables

variable (tables : CharTables)

/-! ## The cuts -/

/-- The text in which the operator is looked for. -/
def exprText (line : List Char) : Option (List Char) :=
  match rhsStart line with
  | some start => (splitAtByte line start).map fun parts => tables.trim parts.2
  | none => some (tables.stripStatement line)

def operands (left right : List Char) : List Char × List Char :=
  (tables.extractBaseVariable (tables.trim left), tables.extractBaseVariable (tables.trim right))

/-- With these operands the next operator is tried. -/
def skips (parts : List Char × List Char) : Bool :=
  !(tables.isFunctionCall parts.1 || tables.isFunctionCall parts.2) &&
    (parts.1.isEmpty || parts.2.isEmpty ||
      tables.isNumericLiteral parts.1 && tables.isNumericLiteral parts.2)

/-- The bytes at which the text is cut, before and after each operator that is tried. -/
def operatorCuts (exprText : List Char) : List String → List Nat
  | [] => []
  | op :: ops =>
    match tables.findOperatorInExpr exprText op.toList with
    | none => operatorCuts exprText ops
    | some i =>
      i :: (i + op.utf8ByteSize) ::
        match splitAtByte exprText i, splitAtByte exprText (i + op.utf8ByteSize) with
        | some (left, _), some (_, right) =>
          if tables.skips (tables.operands left right) then operatorCuts exprText ops else []
        | _, _ => []

/-- The texts that `parse_expression_from_line` cuts at positions of characters, and the bytes. -/
def cuts (line : List Char) : List (List Char × Nat) :=
  let line := stripComment line
  (rhsStart line).toList.map (line, ·) ++
    match tables.exprText line with
    | none => []
    | some text =>
      if tables.isFunctionCall text then []
      else (tables.operatorCuts text binaryOpsByLen).map (text, ·)

/-! ## By characters -/

/-- The right-hand side of a line, or its expression. -/
def rightHandSide (line : List Char) : List Char :=
  match rhsStart line with
  | some start => tables.trim (line.drop start)
  | none => tables.stripStatement line

/-- The operands around the position `i`. -/
def operandsAt (text op : List Char) (i : Nat) : List Char × List Char :=
  tables.operands (text.take i) (text.drop (i + op.length))

/-- The positions of the operators that are tried on a text. -/
def triedPositions (text : List Char) : List String → List Nat
  | [] => []
  | op :: ops =>
    match tables.findOperatorInExpr text op.toList with
    | none => triedPositions text ops
    | some i =>
      i :: if tables.skips (tables.operandsAt text op.toList i) then triedPositions text ops else []

/-- Only ASCII characters come before the assignment, and in the right-hand side before every
operator that is tried. -/
structure AsciiBefore (line : List Char) : Prop where
  assignment : ∀ start, rhsStart line = some start → Ascii (line.take start)
  operators : tables.isFunctionCall (tables.rightHandSide line) = false →
    ∀ i ∈ tables.triedPositions (tables.rightHandSide line) binaryOpsByLen,
      Ascii ((tables.rightHandSide line).take i)

/-- The function returns, it cuts where it found the assignment and the operators, and the operands
that it returns are the parts of the right-hand side before and after the operator. -/
structure ParsesRight (line : List Char) : Prop where
  returns : (tables.parseExpressionFromLine line).isSome
  cuts : ∀ cut ∈ tables.cuts line, CutRight cut.1 cut.2
  operands : ∀ left op right, tables.parseExpressionFromLine line = some (some (left, op, right)) →
    ∃ i, tables.findOperatorInExpr (tables.rightHandSide (stripComment line)) op = some i ∧
      (left, right) = tables.operandsAt (tables.rightHandSide (stripComment line)) op i

end CharTables

/-! ## Positions -/

section

variable {tables : CharTables} {text op line : List Char} {i n k : Nat} {ops : List String}

theorem cutRight_iff (hn : n ≤ text.length) : CutRight text n ↔ Ascii (text.take n) :=
  splitAtByte_length hn

/-- The operator is found behind as many characters as the loop has gone through. -/
theorem findOperator_spec {before quote : Option Char} {depth : Nat}
    (h : tables.findOperator op before quote depth k text = some n) :
    ∃ l r, text = l ++ (op ++ r) ∧ n = k + l.length := by
  induction text generalizing before quote depth k with
  | nil => cases quote <;> cases h
  | cons c text ih =>
    have hnext : ∀ before quote depth,
        tables.findOperator op before quote depth (k + 1) text = some n →
          ∃ l r, c :: text = l ++ (op ++ r) ∧ n = k + l.length := by
      intro before quote depth h
      obtain ⟨l, r, rfl, rfl⟩ := ih h
      refine ⟨c :: l, r, rfl, ?_⟩
      rw [List.length_cons]
      omega
    cases quote with
    | some quote =>
      rw [CharTables.findOperator] at h
      split at h
      · exact hnext _ _ _ h
      · exact hnext _ _ _ h
    | none =>
      rw [CharTables.findOperator] at h
      split at h
      · exact hnext _ _ _ h
      · split at h
        · exact hnext _ _ _ h
        · split at h
          · exact hnext _ _ _ h
          · split at h
            · next hmatch =>
              obtain ⟨r, hr⟩ := List.isPrefixOf_iff_prefix.1 hmatch.2.1
              exact ⟨[], r, hr.symm, (Option.some.inj h).symm⟩
            · exact hnext _ _ _ h

theorem findOperatorInExpr_spec (h : tables.findOperatorInExpr text op = some i) :
    ∃ l r, text = l ++ (op ++ r) ∧ i = l.length := by
  obtain ⟨l, r, htext, hi⟩ := findOperator_spec h
  exact ⟨l, r, htext, hi.trans (Nat.zero_add _)⟩

theorem rhsStart_le (h : rhsStart line = some i) : i ≤ line.length := by
  obtain ⟨j, hj, rfl⟩ := Option.map_eq_some_iff.1 h
  have hmem := List.mem_of_find?_eq_some hj
  rw [List.mem_reverse, List.mem_range] at hmem
  exact hmem

/-- The cuts before and after an operator in ASCII are right if what comes before it is ASCII. -/
theorem cutRight_operator (hop : Ascii op) (h : tables.findOperatorInExpr text op = some i) :
    (CutRight text i ↔ Ascii (text.take i)) ∧
      (Ascii (text.take i) → CutRight text (i + op.length)) := by
  obtain ⟨l, r, rfl, rfl⟩ := findOperatorInExpr_spec h
  have hle : l.length ≤ (l ++ (op ++ r)).length := by simp
  have hle' : l.length + op.length ≤ (l ++ (op ++ r)).length := by simp
  refine ⟨cutRight_iff hle, fun hascii => (cutRight_iff hle').2 ?_⟩
  rw [List.take_left] at hascii
  rw [← List.append_assoc, ← List.length_append, List.take_left]
  exact Ascii.append_iff.2 ⟨hascii, hop⟩

/-! ## Operators -/

theorem ascii_of_mem_binaryOps {op : String} (h : op ∈ binaryOpsByLen) :
    Ascii op.toList ∧ op.utf8ByteSize = op.toList.length := by
  have hall : ∀ op ∈ binaryOpsByLen, Ascii op.toList := by
    simp [binaryOpsByLen, Ascii, Char.utf8Size]
  have hop := hall op h
  exact ⟨hop, (utf8ByteSize_eq_byteLen op).trans (byteLen_eq_length.2 hop)⟩

theorem splitAtByte_operator (hop : Ascii op) (hi : tables.findOperatorInExpr text op = some i)
    (hascii : Ascii (text.take i)) : splitAtByte text i = some (text.take i, text.drop i) ∧
      splitAtByte text (i + op.length) =
        some (text.take (i + op.length), text.drop (i + op.length)) :=
  ⟨(cutRight_operator hop hi).1.2 hascii, (cutRight_operator hop hi).2 hascii⟩

theorem ite_skip {α : Type} (call empty numeric : Bool) (stop next found : α) :
    (if call then stop else if empty then next else if numeric then next else found) =
      if !call && (empty || numeric) then next else if call then stop else found := by
  cases call
  · cases empty
    · cases numeric <;> rfl
    · rfl
  · rfl

theorem parseOperators_found {op : String} {left right before after : List Char}
    (hi : tables.findOperatorInExpr text op.toList = some i)
    (hleft : splitAtByte text i = some (left, after))
    (hright : splitAtByte text (i + op.utf8ByteSize) = some (before, right)) :
    tables.parseOperators text (op :: ops) =
      let parts := tables.operands left right
      if tables.skips parts then tables.parseOperators text ops
      else if tables.isFunctionCall parts.1 || tables.isFunctionCall parts.2 then some none
      else some (some (parts.1, op.toList, parts.2)) := by
  rw [CharTables.parseOperators, hi]
  dsimp only
  rw [hleft, hright]
  dsimp only [Option.bind_eq_bind, Option.bind_some, CharTables.operands, CharTables.skips]
  exact ite_skip ..

/-- **With ASCII before the operators that are tried** the cuts are right, the function returns, and
the operands are those around the operator. -/
theorem parseOperators_spec (hops : ∀ op ∈ ops, op ∈ binaryOpsByLen)
    (h : ∀ i ∈ tables.triedPositions text ops, Ascii (text.take i)) :
    (∀ n ∈ tables.operatorCuts text ops, CutRight text n) ∧
      ∃ out, tables.parseOperators text ops = some out ∧ ∀ left op right,
        out = some (left, op, right) → ∃ i, tables.findOperatorInExpr text op = some i ∧
          (left, right) = tables.operandsAt text op i := by
  induction ops with
  | nil => exact ⟨by simp [CharTables.operatorCuts], none, rfl, nofun⟩
  | cons op ops ih =>
    obtain ⟨hop, hsize⟩ := ascii_of_mem_binaryOps (hops op List.mem_cons_self)
    replace ih := ih fun op h => hops op (List.mem_cons_of_mem _ h)
    rw [CharTables.triedPositions] at h
    cases hi : tables.findOperatorInExpr text op.toList with
    | none =>
      rw [hi] at h
      rw [CharTables.operatorCuts, CharTables.parseOperators, hi]
      exact ih h
    | some i =>
      rw [hi] at h
      dsimp only at h
      obtain ⟨hleft, hright⟩ := splitAtByte_operator hop hi (h i List.mem_cons_self)
      have hparts : tables.operands (text.take i) (text.drop (i + op.toList.length)) =
          tables.operandsAt text op.toList i := rfl
      rw [← hsize] at hright hparts
      have hcuts : ∀ {rest : List Nat}, (∀ n ∈ rest, CutRight text n) →
          ∀ n ∈ i :: (i + op.utf8ByteSize) :: rest, CutRight text n := by
        intro rest hrest
        rw [List.forall_mem_cons, List.forall_mem_cons]
        exact ⟨hleft, hright, hrest⟩
      rw [parseOperators_found hi hleft hright, CharTables.operatorCuts, hi]
      dsimp only
      rw [hleft, hright]
      dsimp only
      rw [hparts]
      split
      · next hskip =>
        rw [if_pos hskip] at h
        obtain ⟨hrest, hout⟩ := ih fun i hi => h i (List.mem_cons_of_mem _ hi)
        exact ⟨hcuts hrest, hout⟩
      · refine ⟨hcuts (by simp), ?_⟩
        split
        · exact ⟨none, rfl, nofun⟩
        · refine ⟨_, rfl, fun left op' right heq => ?_⟩
          rw [Option.some_inj, Prod.mk.injEq, Prod.mk.injEq] at heq
          obtain ⟨hl, rfl, hr⟩ := heq
          exact ⟨i, hi, Prod.ext hl.symm hr.symm⟩

theorem ascii_of_operatorCuts (hops : ∀ op ∈ ops, op ∈ binaryOpsByLen)
    (h : ∀ n ∈ tables.operatorCuts text ops, CutRight text n) :
    ∀ i ∈ tables.triedPositions text ops, Ascii (text.take i) := by
  induction ops with
  | nil => simp [CharTables.triedPositions]
  | cons op ops ih =>
    obtain ⟨hop, hsize⟩ := ascii_of_mem_binaryOps (hops op List.mem_cons_self)
    replace ih := ih fun op h => hops op (List.mem_cons_of_mem _ h)
    rw [CharTables.operatorCuts] at h
    rw [CharTables.triedPositions]
    cases hi : tables.findOperatorInExpr text op.toList with
    | none =>
      rw [hi] at h
      exact ih h
    | some i =>
      rw [hi] at h
      dsimp only at h ⊢
      rw [List.forall_mem_cons, List.forall_mem_cons] at h
      obtain ⟨hleft, hright, hrest⟩ := h
      rw [List.forall_mem_cons]
      refine ⟨(cutRight_operator hop hi).1.1 hleft, ?_⟩
      rw [CutRight] at hleft hright
      rw [hleft, hright] at hrest
      dsimp only at hrest
      rw [hsize, ← CharTables.operandsAt] at hrest
      split
      · next hskip =>
        rw [if_pos hskip] at hrest
        exact ih hrest
      · simp

end

theorem exprText_eq {tables : CharTables} {line : List Char}
    (h : ∀ start, rhsStart line = some start → Ascii (line.take start)) :
    tables.exprText line = some (tables.rightHandSide line) := by
  unfold CharTables.exprText CharTables.rightHandSide
  cases hstart : rhsStart line with
  | none => rfl
  | some start =>
    dsimp only
    rw [(splitAtByte_length (rhsStart_le hstart)).2 (h start hstart)]
    rfl

theorem parse_eq (tables : CharTables) (line : List Char) : tables.parseExpressionFromLine line =
    (tables.exprText (stripComment line)).bind fun text =>
      if tables.isFunctionCall text then some none
      else tables.parseOperators text binaryOpsByLen := by
  unfold CharTables.parseExpressionFromLine CharTables.exprText
  dsimp only
  cases rhsStart (stripComment line) with
  | none => rfl
  | some start => rfl

/-- **A line is parsed right** if and only if ASCII characters come before its assignment and before
every operator that is tried. -/
theorem parseExpressionFromLine_right_iff (tables : CharTables) (line : List Char) :
    tables.ParsesRight line ↔ tables.AsciiBefore (stripComment line) := by
  constructor
  · intro h
    have hassign : ∀ start, rhsStart (stripComment line) = some start →
        Ascii ((stripComment line).take start) := by
      intro start hstart
      refine (cutRight_iff (rhsStart_le hstart)).1 (h.cuts (stripComment line, start) ?_)
      rw [CharTables.cuts, hstart]
      exact List.mem_append_left _ (List.mem_singleton.2 rfl)
    refine ⟨hassign, fun hcall => ascii_of_operatorCuts (fun _ => id) fun n hn => ?_⟩
    refine h.cuts (tables.rightHandSide (stripComment line), n) ?_
    rw [CharTables.cuts]
    refine List.mem_append_right _ ?_
    rw [exprText_eq hassign]
    dsimp only
    rw [if_neg (by rw [hcall]; decide)]
    exact List.mem_map_of_mem hn
  · intro h
    have htext : tables.exprText (stripComment line) = _ := exprText_eq h.assignment
    have hassign : ∀ cut ∈ (rhsStart (stripComment line)).toList.map (stripComment line, ·),
        CutRight cut.1 cut.2 := by
      intro cut hcut
      obtain ⟨start, hstart, rfl⟩ := List.mem_map.1 hcut
      rw [Option.mem_toList] at hstart
      exact (cutRight_iff (rhsStart_le hstart)).2 (h.assignment start hstart)
    cases hcall : tables.isFunctionCall (tables.rightHandSide (stripComment line)) with
    | true =>
      have hparse : tables.parseExpressionFromLine line = some none := by
        rw [parse_eq, htext, Option.bind_some, if_pos hcall]
      refine ⟨by rw [hparse]; rfl, fun cut hcut => ?_, fun _ _ _ hout => ?_⟩
      · rw [CharTables.cuts, htext] at hcut
        dsimp only at hcut
        rw [if_pos hcall, List.append_nil] at hcut
        exact hassign cut hcut
      · rw [hparse] at hout
        cases hout
    | false =>
      have hnot : ¬ tables.isFunctionCall (tables.rightHandSide (stripComment line)) := by
        rw [hcall]
        decide
      obtain ⟨hcuts, out, hout, hoperands⟩ :=
        parseOperators_spec (fun _ => id) (h.operators hcall)
      have hparse : tables.parseExpressionFromLine line = some out := by
        rw [parse_eq, htext, Option.bind_some, if_neg hnot, hout]
      refine ⟨by rw [hparse]; rfl, fun cut hcut => ?_, fun left op right hres => ?_⟩
      · rw [CharTables.cuts, htext] at hcut
        dsimp only at hcut
        rw [if_neg hnot, List.mem_append] at hcut
        cases hcut with
        | inl hcut => exact hassign cut hcut
        | inr hcut =>
          obtain ⟨n, hn, rfl⟩ := List.mem_map.1 hcut
          exact hcuts n hn
      · rw [hparse, Option.some_inj] at hres
        exact hoperands left op right hres

/-- A Japanese name before the `=`: the line is cut inside the name's second character. -/
theorem not_parsesRight : ¬ CharTables.ascii.ParsesRight "日本 = a + b".toList := fun h =>
  absurd h.returns (by decide +kernel)

/-- With another name there is no panic, but the left operand gets the `=`. -/
example : CharTables.ascii.parseExpressionFromLine "é = a + b".toList =
    some (some ("= a".toList, ['+'], ['b'])) := by
  decide +kernel

end TldrCode.Dataflow
