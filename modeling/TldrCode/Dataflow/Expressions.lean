import Mathlib.Data.List.Sort
import TldrCode.Alias.Constraints
import TldrCode.Dataflow.Text

/-!
# Expressions in source lines

The textual part of `dataflow/available.rs`: a line is cut at its rightmost assignment and at the
first binary operator outside brackets and strings. Positions found in the characters of a text are
used to slice its bytes; the slices return `none` where the source panics. The Unicode classes of
characters are a parameter.
-/

namespace TldrCode.Dataflow

/-- The classes of characters that the parser asks for. -/
structure CharTables extends Alias.CharTables where
  isAlphabetic : Char → Bool

def CharTables.ascii : CharTables where
  toCharTables := .ascii
  isAlphabetic := Char.isAlpha

/-! ## Expressions -/

def commutativeOps : List String := ["+", "*", "==", "!=", "and", "or", "&", "|", "^"]

/-- `BINARY_OPS`, as `parse_expression_from_line` sorts them: longer ones first. -/
def binaryOpsByLen : List String :=
  ["and", "//", "**", "==", "!=", "<=", ">=", "or", "&&", "||", "<<", ">>",
    "+", "-", "*", "/", "%", "<", ">", "&", "|", "^"]

structure Expression where
  text : String
  operands : List String
  line : Nat
  deriving DecidableEq, Repr

namespace Expression

def new (text : String) (operands : List String) (line : Nat) : Expression where
  text
  operands := operands.insertionSort (· ≤ ·)
  line

def isKilledBy (expr : Expression) (var : String) : Bool := expr.operands.any (· == var)

end Expression

namespace CharTables

variable (tables : CharTables)

def trimEnd (text : List Char) : List Char :=
  (text.reverse.dropWhile tables.isWhitespace).reverse

def normalizeExpression (left op right : List Char) : String :=
  let left := tables.trim left
  let right := tables.trim right
  let (first, second) :=
    if String.ofList op ∈ commutativeOps ∧ String.ofList right < String.ofList left then
      (right, left)
    else (left, right)
  String.ofList (first ++ ' ' :: op ++ ' ' :: second)

def isFunctionCall (text : List Char) : Bool :=
  let trimmed := tables.trim text
  if '(' ∈ trimmed then
    match (tables.trimEnd (trimmed.takeWhile (· != '('))).getLast? with
    | some lastChar => tables.isAlphanumeric lastChar || lastChar == '_'
    | none => false
  else false

/-- `find_operator_in_expr`: the character before the position `i`, the quote of the string it is
in, the depth of brackets, and the text from there. -/
def findOperator (op : List Char) :
    Option Char → Option Char → Nat → Nat → List Char → Option Nat
  | _, _, _, _, [] => none
  | before, some quote, depth, i, c :: cs =>
    if c = quote ∧ before ≠ some '\\' then findOperator op (some c) none depth (i + 1) cs
    else findOperator op (some c) (some quote) depth (i + 1) cs
  | before, none, depth, i, c :: cs =>
    if c = '"' ∨ c = '\'' then findOperator op (some c) (some c) depth (i + 1) cs
    else if c = '(' ∨ c = '[' ∨ c = '\x7b' then findOperator op (some c) none (depth + 1) (i + 1) cs
    else if c = ')' ∨ c = ']' ∨ c = '\x7d' then findOperator op (some c) none (depth - 1) (i + 1) cs
    else if depth = 0 ∧ op.isPrefixOf (c :: cs) ∧ (op.all tables.isAlphabetic →
        before.all (!tables.isAlphanumeric ·) ∧
          ((c :: cs).drop op.length).head?.all (!tables.isAlphanumeric ·)) then some i
    else findOperator op (some c) none depth (i + 1) cs

def findOperatorInExpr (expr op : List Char) : Option Nat :=
  tables.findOperator op none none 0 0 expr

def extractBaseVariable (text : List Char) : List Char :=
  let trimmed := tables.trim text
  let parts := trimmed.splitOn '.'
  if 3 < parts.length then ['.'].intercalate (parts.take 3) else trimmed

end CharTables

/-- Digits with a point and an exponent, as `f64::from_str` reads them. -/
def isDecimal (text : List Char) : Bool :=
  let whole := text.takeWhile Char.isDigit
  let rest := text.dropWhile Char.isDigit
  let (fraction, rest) := match rest with
    | '.' :: rest => (rest.takeWhile Char.isDigit, rest.dropWhile Char.isDigit)
    | _ => ([], rest)
  if whole.isEmpty && fraction.isEmpty then false
  else match rest with
    | [] => true
    | c :: rest =>
      let digits := if rest.head? = some '+' ∨ rest.head? = some '-' then rest.tail else rest
      (c == 'e' || c == 'E') && !digits.isEmpty && digits.all Char.isDigit

/-- `is_numeric_literal`. What `i64` parses, `f64` parses as well. -/
def CharTables.isNumericLiteral (tables : CharTables) (text : List Char) : Bool :=
  let trimmed := tables.trim text
  let unsigned :=
    if trimmed.head? = some '+' ∨ trimmed.head? = some '-' then trimmed.tail else trimmed
  let lower := String.ofList (unsigned.map Char.toLower)
  isDecimal unsigned || lower == "inf" || lower == "infinity" || lower == "nan" ||
    "0x".toList.isPrefixOf trimmed || "0o".toList.isPrefixOf trimmed ||
    "0b".toList.isPrefixOf trimmed

/-! ## Lines -/

def stripComment (line : List Char) : List Char :=
  if '#' ∈ line then line.takeWhile (· != '#') else beforePattern "//".toList line

/-- The `=` at the position `i` belongs to a comparison or to `:=`. -/
def isComparisonAt (chars : List Char) (i : Nat) : Bool :=
  (0 < i && chars[i - 1]?.any (· ∈ ['=', '!', '<', '>', ':'])) || chars[i + 1]? == some '='

/-- The position after the rightmost assignment. -/
def rhsStart (chars : List Char) : Option Nat :=
  ((List.range chars.length).reverse.find? fun i =>
    chars[i]? == some '=' && !isComparisonAt chars i).map (· + 1)

namespace CharTables

variable (tables : CharTables)

/-- The condition after `else if` and `while`, without brace and parentheses. -/
def stripCondition (text : List Char) : List Char :=
  tables.trim (dropLast ')' (dropFirst '(' (dropLast '\x7b' text)))

/-- The expression of a line without an assignment. -/
def stripStatement (line : List Char) : List Char :=
  let trimmed := tables.trim line
  if let some rest := stripPrefix "return ".toList trimmed then tables.trim rest
  else if let some rest := stripPrefix "return(".toList trimmed then tables.trim rest
  else if let some rest := stripPrefix "if ".toList trimmed then
    tables.stripCondition (dropLast ':' (tables.trim rest))
  else if let some rest := stripPrefix "elif ".toList trimmed then
    tables.trim (dropLast ':' (tables.trim rest))
  else if let some rest := stripPrefix "else if ".toList trimmed then
    tables.stripCondition (tables.trim rest)
  else if let some rest := stripPrefix "while ".toList trimmed then
    tables.stripCondition (dropLast ':' (tables.trim rest))
  else if let some rest := stripPrefix "assert ".toList trimmed then tables.trim rest
  else if let some rest := stripPrefix "yield ".toList trimmed then tables.trim rest
  else trimmed

/-- The loop of `parse_expression_from_line` over the operators. -/
def parseOperators (exprText : List Char) :
    List String → Option (Option (List Char × List Char × List Char))
  | [] => some none
  | op :: ops =>
    match tables.findOperatorInExpr exprText op.toList with
    | none => parseOperators exprText ops
    | some opIdx => do
      let (left, _) ← splitAtByte exprText opIdx
      let (_, right) ← splitAtByte exprText (opIdx + op.utf8ByteSize)
      let left := tables.extractBaseVariable (tables.trim left)
      let right := tables.extractBaseVariable (tables.trim right)
      if tables.isFunctionCall left || tables.isFunctionCall right then some none
      else if left.isEmpty || right.isEmpty then parseOperators exprText ops
      else if tables.isNumericLiteral left && tables.isNumericLiteral right then
        parseOperators exprText ops
      else some (some (left, op.toList, right))

/-- `parse_expression_from_line`: the left operand, the operator and the right operand. -/
def parseExpressionFromLine (line : List Char) :
    Option (Option (List Char × List Char × List Char)) := do
  let line := stripComment line
  let exprText ← match rhsStart line with
    | some start => (splitAtByte line start).map fun parts => tables.trim parts.2
    | none => some (tables.stripStatement line)
  if tables.isFunctionCall exprText then some none
  else tables.parseOperators exprText binaryOpsByLen

end CharTables

/-! ## Uncertain findings -/

structure UncertainFinding where
  expr : String
  line : Nat
  reason : String
  deriving DecidableEq, Repr

def skipPrefixes : List String :=
  ["#", "//", "/*", "@", "import ", "from ", "use ", "class ", "def ", "fn ", "func ", "function ",
    "pub ", "struct ", "enum ", "trait ", "impl ", "interface "]

def hasBinaryOperator (text : List Char) : Bool :=
  [" + ", " - ", " * ", " / "].any fun op => containsText op.toList text

/-- The text after the first `=`, unless that is the first character or part of a comparison. -/
def CharTables.assigned (tables : CharTables) (trimmed : List Char) : Option (List Char) :=
  let eqIdx := trimmed.findIdx (· == '=')
  if 0 < eqIdx ∧ eqIdx < trimmed.length ∧ trimmed[eqIdx - 1]?.all (· ∉ ['!', '<', '>', '=']) ∧
      trimmed[eqIdx + 1]? ≠ some '=' then
    some (tables.trim (trimmed.drop (eqIdx + 1)))
  else none

def CharTables.detectUncertainExpression (tables : CharTables) (line : List Char)
    (lineNum : Nat) : Option UncertainFinding :=
  let trimmed := tables.trim line
  if trimmed.isEmpty || skipPrefixes.any fun p => p.toList.isPrefixOf trimmed then none
  else
    let ofRhs := (tables.assigned trimmed).bind fun rhs =>
      if tables.isFunctionCall rhs && hasBinaryOperator rhs then
        some ⟨String.ofList rhs, lineNum, "contains function call - purity unknown"⟩
      else if tables.isFunctionCall rhs && '.' ∈ rhs then
        some ⟨String.ofList rhs, lineNum, "contains method access - purity unknown"⟩
      else none
    ofRhs.or <|
      if tables.isFunctionCall trimmed && hasBinaryOperator trimmed then
        some ⟨String.ofList trimmed, lineNum, "function calls may have side effects"⟩
      else none

end TldrCode.Dataflow
