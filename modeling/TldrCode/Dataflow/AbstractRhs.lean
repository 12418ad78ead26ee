import TldrCode.Dataflow.Arithmetic
import TldrCode.Dataflow.Expressions

/-!
# Right-hand sides of assignments

The textual part of `dataflow/abstract_interp.rs`: the comment of a line is cut off, the text after
the assignment to a variable is found, and what it is decides the abstract value. All positions here
are bytes, and every slice is at the boundary of a character (`parseRhsAbstract_isSome`).
-/

namespace TldrCode.Dataflow

/-- What the analysis asks of texts beyond the classes of characters. -/
structure TextTables extends toTables : CharTables where
  toLowercase : List Char → List Char
  parseFloat : List Char → Option F64

/-- The tables restricted to ASCII, without floating point numbers. -/
def TextTables.ascii : TextTables where
  toTables := .ascii
  toLowercase := List.map Char.toLower
  parseFloat _ := none

namespace TextTables

variable (tables : TextTables)

/-! ## Languages -/

/-- `language.to_lowercase()`. -/
def lowercase (language : String) : String := String.ofList (tables.toLowercase language.toList)

def getNullKeywords (language : String) : List String :=
  match tables.lowercase language with
  | "python" => ["None"]
  | "typescript" | "javascript" => ["null", "undefined"]
  | "go" => ["nil"]
  | "rust" => []
  | "java" | "kotlin" | "csharp" | "c#" => ["null"]
  | "swift" => ["nil"]
  | _ => ["null", "nil", "None"]

def getBooleanKeywords (language : String) : List (String × Bool) :=
  match tables.lowercase language with
  | "python" => [("True", true), ("False", false)]
  | "typescript" | "javascript" | "go" | "rust" | "java" | "kotlin" | "csharp" | "c#" | "swift" =>
    [("true", true), ("false", false)]
  | _ => [("True", true), ("False", false), ("true", true), ("false", false)]

def getCommentPattern (language : String) : List Char :=
  match tables.lowercase language with
  | "python" => ['#']
  | "typescript" | "javascript" | "go" | "rust" | "java" | "csharp" | "c#" | "kotlin" | "swift" =>
    ['/', '/']
  | _ => ['#']

/-- The loop of `strip_comment`, from the byte `i` on: the quote of the string it is in, and whether
the next character is escaped. -/
def stripCommentFrom (pattern line : List Char) :
    Option Char → Bool → Nat → List Char → Option (List Char)
  | _, _, _, [] => some line
  | quote, true, i, c :: cs => stripCommentFrom pattern line quote false (i + c.utf8Size) cs
  | quote, false, i, c :: cs =>
    if c = '\\' then stripCommentFrom pattern line quote true (i + c.utf8Size) cs
    else match quote with
      | some q =>
        if c = q then stripCommentFrom pattern line none false (i + c.utf8Size) cs
        else stripCommentFrom pattern line (some q) false (i + c.utf8Size) cs
      | none =>
        if c = '"' ∨ c = '\'' then
          stripCommentFrom pattern line (some c) false (i + c.utf8Size) cs
        else do
          let (code, rest) ← splitAtByte line i
          if pattern.isPrefixOf rest then some code
          else stripCommentFrom pattern line none false (i + c.utf8Size) cs

def stripComment (line : List Char) (language : String) : Option (List Char) :=
  stripCommentFrom (tables.getCommentPattern language) line none false 0 line

/-! ## Assignments -/

def isWordChar (c : Char) : Bool := tables.isAlphanumeric c || c == '_'

def isIdentifier : List Char → Bool
  | [] => false
  | c :: cs => (tables.isAlphabetic c || c == '_') && cs.all tables.isWordChar

/-- The text after the pattern, if the first occurrence of the pattern does not continue a name. -/
def afterPattern (line pattern : List Char) : Option (Option (List Char)) :=
  match findText pattern line with
  | none => some none
  | some idx => do
    let (before, _) ← splitAtByte line idx
    if idx = 0 || !before.getLast?.any tables.isWordChar then
      let (_, rhs) ← splitAtByte line (idx + byteLen pattern)
      some (some (tables.trim rhs))
    else some none

/-- The text after the first of the patterns that is there, behind what goes with the pattern. -/
def afterPatterns (line : List Char) :
    List (List Char × List Char) → Option (Option (List Char))
  | [] => some none
  | (pattern, start) :: patterns => do
    match ← tables.afterPattern line pattern with
    | some rhs => some (some (start ++ rhs))
    | none => afterPatterns line patterns

/-- The patterns of `extract_rhs`, with what comes before the text: for `var op= e` this is
`var op `. -/
def rhsPatterns (var : List Char) : List (List Char × List Char) :=
  (['+', '-', '*', '/', '%'].flatMap fun op =>
    [(var ++ [' ', op, '=', ' '], var ++ [' ', op, ' ']),
      (var ++ [' ', op, '='], var ++ [' ', op, ' ']),
      (var ++ [op, '=', ' '], var ++ [' ', op, ' ']),
      (var ++ [op, '='], var ++ [' ', op, ' '])]) ++
  [(var ++ [' ', '=', ' '], []), (var ++ ['=', ' '], []), (var ++ [' ', '='], []),
    (var ++ ['='], []), (var ++ [' ', ':', '=', ' '], [])]

def extractRhs (line var : List Char) : Option (Option (List Char)) :=
  tables.afterPatterns (tables.trim line) (rhsPatterns var)

/-! ## Values -/

/-- `var op const`, or `const op var` where the operands commute. -/
def simpleArithmetic (op : Char) (left right : List Char) : Option (List Char × Char × Int) :=
  let varConst :=
    if tables.isIdentifier left then (parseI64 right).map fun v => (left, op, v) else none
  varConst.or <|
    if op = '+' ∨ op = '*' then
      if tables.isIdentifier right then (parseI64 left).map fun v => (right, op, v) else none
    else none

def parseSimpleArithmetic (rhs : List Char) : Option (List Char × Char × Int) :=
  let rhs := tables.trim rhs
  ['+', '-', '*'].findSome? fun op => do
    let (left, right) ← (splitOnce [' ', op, ' '] rhs).or (splitOnce [op] rhs)
    tables.simpleArithmetic op (tables.trim left) (tables.trim right)

def isQuotedBy (quotes text : List Char) : Bool :=
  quotes.isPrefixOf text && quotes.isSuffixOf text && 2 * byteLen quotes ≤ byteLen text

def quotedValue (rhs : List Char) (quoteLen : Nat) : Option AbstractValue := do
  let s ← slice rhs quoteLen (byteLen rhs - quoteLen)
  some (.fromConstant (.string (String.ofList s)))

/-- The value of a keyword, a variable or an expression. -/
def wordValue (rhs : List Char) (state : AbstractState) (language : String) : AbstractValue :=
  let word := String.ofList rhs
  if word ∈ tables.getNullKeywords language then
    if word = "undefined" then ⟨some "undefined", none, .always, none⟩ else .fromConstant .null
  else match (tables.getBooleanKeywords language).lookup word with
    | some b => .fromConstant (.bool b)
    | none =>
      if tables.isIdentifier rhs then state.get word
      else match tables.parseSimpleArithmetic rhs with
        | some (operand, op, constant) =>
          applyArithmetic (state.get (String.ofList operand)) op constant
        | none => .top

/-- What `parse_rhs_abstract` makes of the text after the assignment. -/
def rhsValue (rhs : List Char) (state : AbstractState) (language : String) :
    Option AbstractValue :=
  if rhs.isEmpty then some .top
  else match parseI64 rhs with
    | some v => some (.fromConstant (.int v))
    | none =>
      match if '.' ∈ rhs ∨ 'e' ∈ tables.toLowercase rhs then tables.parseFloat rhs else none with
      | some x => some (.fromConstant (.float x))
      | none =>
        if isQuotedBy ['"'] rhs || isQuotedBy ['\''] rhs then quotedValue rhs 1
        else if isQuotedBy ['"', '"', '"'] rhs || isQuotedBy ['\'', '\'', '\''] rhs then
          quotedValue rhs 3
        else some (tables.wordValue rhs state language)

def parseRhsAbstract (line : List Char) (var : String) (state : AbstractState)
    (language : String) : Option AbstractValue := do
  let line ← tables.stripComment line language
  match ← tables.extractRhs line var.toList with
  | none => some .top
  | some rhs => tables.rhsValue (tables.trim rhs) state language

/-! ## Slices -/

variable {tables} {pattern line pre cs rhs l r : List Char} {quote : Option Char} {escaped : Bool}
  {i : Nat} {language : String} {state : AbstractState}

theorem exists_stripCommentFrom (hline : line = pre ++ cs) (hi : byteLen pre = i) :
    ∃ code, stripCommentFrom pattern line quote escaped i cs = some code ∧ code <+: line := by
  induction cs generalizing pre quote escaped i with
  | nil =>
    cases escaped <;> exact ⟨line, rfl, List.prefix_rfl⟩
  | cons c cs ih =>
    have hnext : ∀ quote escaped, ∃ code,
        stripCommentFrom pattern line quote escaped (i + c.utf8Size) cs = some code ∧
          code <+: line := by
      intro quote escaped
      have hline' : line = (pre ++ [c]) ++ cs := by
        rw [hline, List.append_assoc, List.singleton_append]
      apply ih hline'
      rw [byteLen_append, byteLen_cons, byteLen_nil, hi, Nat.add_zero]
    have hsplit : splitAtByte line i = some (pre, c :: cs) := splitAtByte_eq_some.2 ⟨hline, hi⟩
    cases escaped with
    | true => exact hnext quote false
    | false =>
      rw [stripCommentFrom.eq_def]
      dsimp only
      split
      · exact hnext quote true
      · cases quote with
        | some q =>
          dsimp only
          split
          · exact hnext none false
          · exact hnext (some q) false
        | none =>
          dsimp only
          split
          · exact hnext (some c) false
          · rw [hsplit]
            dsimp only [Option.bind_eq_bind, Option.bind_some]
            split
            · exact ⟨pre, rfl, c :: cs, hline.symm⟩
            · exact hnext none false

theorem exists_stripComment (tables : TextTables) (line : List Char) (language : String) :
    ∃ code, tables.stripComment line language = some code ∧ code <+: line :=
  exists_stripCommentFrom (List.nil_append line).symm byteLen_nil

theorem afterPattern_isSome (tables : TextTables) (line pattern : List Char) :
    (tables.afterPattern line pattern).isSome := by
  unfold afterPattern
  cases hfind : findText pattern line with
  | none => rfl
  | some idx =>
    obtain ⟨l, r, rfl, rfl, -⟩ := findText_eq_some.1 hfind
    have hafter : splitAtByte (l ++ (pattern ++ r)) (byteLen l + byteLen pattern) =
        some (l ++ pattern, r) :=
      splitAtByte_eq_some.2 ⟨(List.append_assoc ..).symm, byteLen_append⟩
    dsimp only
    rw [splitAtByte_append, hafter]
    dsimp only [Option.bind_eq_bind, Option.bind_some]
    split <;> rfl

theorem afterPatterns_isSome (tables : TextTables) (line : List Char)
    (patterns : List (List Char × List Char)) : (tables.afterPatterns line patterns).isSome := by
  induction patterns with
  | nil => rfl
  | cons pattern patterns ih =>
    obtain ⟨found, hfound⟩ := Option.isSome_iff_exists.1
      (afterPattern_isSome tables line pattern.1)
    rw [afterPatterns, hfound]
    cases found with
    | none => exact ih
    | some rhs => rfl

theorem quotedValue_isSome {quotes : List Char} (h : isQuotedBy quotes rhs) :
    (quotedValue rhs (byteLen quotes)).isSome := by
  simp only [isQuotedBy, Bool.and_eq_true, decide_eq_true_eq, List.isPrefixOf_iff_prefix,
    List.isSuffixOf_iff_suffix] at h
  obtain ⟨⟨⟨r, hr⟩, ⟨l, hl⟩⟩, hlen⟩ := h
  have hbytes : byteLen rhs - byteLen quotes = byteLen l := by
    rw [← hl, byteLen_append, Nat.add_sub_cancel]
  have hle : byteLen quotes ≤ byteLen l := by omega
  have hcut : splitAtByte rhs (byteLen l) = some (l, quotes) := splitAtByte_eq_some.2 ⟨hl.symm, rfl⟩
  obtain ⟨mid, rfl⟩ : quotes <+: l := by
    rcases List.prefix_or_prefix_of_prefix ⟨r, hr⟩ ⟨quotes, hl⟩ with h | ⟨t, rfl⟩
    · exact h
    · have ht : t = [] := by
        have hlength := length_le_byteLen t
        rw [byteLen_append] at hle
        exact List.length_eq_zero_iff.1 (by omega)
      exact ⟨[], by rw [ht, List.append_nil, List.append_nil]⟩
  unfold quotedValue slice
  rw [hbytes, hcut]
  dsimp only [Option.bind_eq_bind, Option.bind_some]
  rw [splitAtByte_append]
  rfl

theorem rhsValue_isSome : (tables.rhsValue rhs state language).isSome := by
  unfold rhsValue
  split
  · rfl
  · split
    · rfl
    · split
      · rfl
      · split
        · next h =>
          rcases Bool.or_eq_true_iff.1 h with h | h
          · exact quotedValue_isSome h
          · exact quotedValue_isSome h
        · split
          · next h =>
            rcases Bool.or_eq_true_iff.1 h with h | h
            · exact quotedValue_isSome h
            · exact quotedValue_isSome h
          · rfl

/-- **The value of a right-hand side** is found without a slice that fails. -/
theorem parseRhsAbstract_isSome (tables : TextTables) (line : List Char) (var : String)
    (state : AbstractState) (language : String) :
    (tables.parseRhsAbstract line var state language).isSome := by
  obtain ⟨code, hcode, -⟩ := exists_stripComment tables line language
  obtain ⟨found, hfound⟩ := Option.isSome_iff_exists.1
    (afterPatterns_isSome tables (tables.trim code) (rhsPatterns var.toList))
  have hextract : tables.extractRhs code var.toList = some found := hfound
  rw [parseRhsAbstract, hcode]
  dsimp only [Option.bind_eq_bind, Option.bind_some]
  rw [hextract]
  cases found with
  | none => rfl
  | some rhs => exact rhsValue_isSome

end TextTables

end TldrCode.Dataflow
