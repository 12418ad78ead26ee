import Mathlib.Data.List.Infix
import TldrCode.Alias.Types
import TldrCode.Fallible
import TldrCode.Ssa.Types

/-!
# Constraint extraction

`alias/constraints.rs`: an SSA function is read once, block by block, and every name that is the
target or the source of a constraint is looked up among the names of the function. The extraction
fails at the first name that is not there; `extractFromSsa_ok_iff` says which names it looks up.
-/

namespace TldrCode.Alias

open TldrCode.Ssa
open Function (update)
open scoped List

/-! ## Source text -/

/-- The classes of characters that Rust's `char` knows from the Unicode tables. -/
structure CharTables where
  isWhitespace : Char → Bool
  isAlphanumeric : Char → Bool
  isUppercase : Char → Bool

def CharTables.ascii : CharTables where
  isWhitespace := Char.isWhitespace
  isAlphanumeric := Char.isAlphanum
  isUppercase := Char.isUpper

namespace CharTables

variable (tables : CharTables)

def trim (text : List Char) : List Char :=
  ((text.dropWhile tables.isWhitespace).reverse.dropWhile tables.isWhitespace).reverse

/-- `text.split('=').nth(1)`, trimmed. -/
def rhs (text : List Char) : Option (List Char) := ((text.splitOn '=')[1]?).map tables.trim

/-- `chars().all(|c| c.is_alphanumeric() || c == '_')`. -/
def isIdent (text : List Char) : Bool := text.all fun c => tables.isAlphanumeric c || c == '_'

def isAllocationCall (sourceText : String) : Bool :=
  let trimmed := tables.trim sourceText.toList
  let direct := decide ("[]".toList <:+: trimmed) || decide ("\x7b\x7d".toList <:+: trimmed)
  match tables.rhs trimmed with
  | some rhs => rhs.head? == some '[' || rhs.head? == some '\x7b' ||
      rhs.head?.any tables.isUppercase || direct
  | none => direct

def parseFieldAccess (sourceText : String) : Option String :=
  match tables.rhs (tables.trim sourceText.toList) with
  | some rhs =>
    if '.' ∈ rhs ∧ '(' ∉ rhs then
      let field := tables.trim ((rhs.splitOn '.').getLastD [])
      if field ≠ [] ∧ tables.isIdent field then some (String.ofList field) else none
    else none
  | none => none

/-- `parse_field_store`: the base and the field on the left of the first `=`. -/
def parseFieldStore (sourceText : String) : Option (String × String) :=
  let trimmed := tables.trim sourceText.toList
  if '=' ∈ trimmed then
    let lhs := tables.trim (trimmed.takeWhile (· != '='))
    if '.' ∈ lhs then
      let field := tables.trim (lhs.reverse.takeWhile (· != '.')).reverse
      let base := tables.trim (lhs.reverse.dropWhile (· != '.')).tail.reverse
      if field ≠ [] ∧ base ≠ [] then some (String.ofList base, String.ofList field) else none
    else none
  else none

def parseMutableDefault (sourceText : String) (line : Nat) : Option AbstractLocation :=
  let trimmed := tables.trim sourceText.toList
  if "def ".toList <:+: trimmed then
    if "=[]".toList <:+: trimmed ∨ "= []".toList <:+: trimmed then some (.defaultArg line)
    else if "=\x7b\x7d".toList <:+: trimmed ∨ "= \x7b\x7d".toList <:+: trimmed then
      some (.defaultArg line)
    else none
  else none

def parseClassVarAccess (sourceText : String) : Option (String × String) :=
  let trimmed := tables.trim sourceText.toList
  let rhs := match tables.rhs trimmed with
    | some rhs => some rhs
    | none => if '.' ∈ trimmed then some trimmed else none
  match rhs with
  | some rhs =>
    if '.' ∈ rhs ∧ '(' ∉ rhs then
      let potentialClass := tables.trim (rhs.takeWhile (· != '.'))
      let field := tables.trim (rhs.dropWhile (· != '.')).tail
      if potentialClass.head?.any tables.isUppercase ∧ field ≠ [] ∧ tables.isIdent field then
        some (String.ofList potentialClass, String.ofList field)
      else none
    else none
  | none => none

def detectClassVar (sourceText : String) : Option AbstractLocation :=
  (tables.parseClassVarAccess sourceText).map fun access => .classVar access.1 access.2

end CharTables

/-- `trim_end_matches(|c| c == '_' || c.is_ascii_digit())`. -/
def trimVersion (target : String) : String :=
  String.ofList (target.toList.reverse.dropWhile fun c => c == '_' || c.isDigit).reverse

/-! ## The extractor -/

structure ConstraintExtractor where
  constraints : List Constraint
  allocationSites : List AbstractLocation
  phiTargets : List String
  parameters : List String
  nameMap : Nat → Option String

namespace ConstraintExtractor

def new : ConstraintExtractor where
  constraints := []
  allocationSites := []
  phiTargets := []
  parameters := []
  nameMap _ := none

def buildNameMap (extractor : ConstraintExtractor) (ssa : SsaFunction) : ConstraintExtractor :=
  { extractor with
    nameMap := ssa.ssaNames.foldl (fun nameMap name =>
      update nameMap name.id (some (name.var ++ "_" ++ toString name.version)))
      extractor.nameMap }

def formatSsaName (extractor : ConstraintExtractor) (id : Nat) : String :=
  (extractor.nameMap id).getD ("$unknown_" ++ toString id)

def validateSsaName (extractor : ConstraintExtractor) (id : Nat) (context : String) :
    Except AliasError String :=
  match extractor.nameMap id with
  | some name => .ok name
  | none => .error (.invalidRef
      ("SSA name $" ++ toString id ++ " not found in " ++ context ++ " (TIGER-3 violation)"))

def push (extractor : ConstraintExtractor) (constraint : Constraint) : ConstraintExtractor :=
  { extractor with constraints := extractor.constraints ++ [constraint] }

/-- An allocation site, and the constraint that `target` points to it. -/
def pushAlloc (extractor : ConstraintExtractor) (target : String) (site : AbstractLocation) :
    ConstraintExtractor :=
  { extractor with
    allocationSites := extractor.allocationSites.insert site
    constraints := extractor.constraints ++ [.alloc target site] }

def processSinglePhi (phi : PhiFunction) (block : SsaBlock) (extractor : ConstraintExtractor) :
    Except AliasError ConstraintExtractor := do
  let target ← extractor.validateSsaName phi.target ("phi target in block " ++ toString block.id)
  let extractor := { extractor with phiTargets := extractor.phiTargets.insert target }
  phi.sources.foldlM (fun extractor source => do
    let sourceName ← extractor.validateSsaName source.name
      ("phi source for " ++ phi.var ++ " from block " ++ toString source.block)
    return extractor.push (.copy target sourceName)) extractor

def processParamInstruction (tables : CharTables) (instruction : SsaInstruction)
    (extractor : ConstraintExtractor) : Except AliasError ConstraintExtractor :=
  match instruction.target with
  | none => return extractor
  | some targetId => do
    let target ← extractor.validateSsaName targetId "param instruction"
    let extractor := { extractor with parameters := extractor.parameters.insert target }
    match instruction.sourceText.bind (tables.parseMutableDefault · instruction.line) with
    | some defaultSite =>
      return (extractor.pushAlloc target defaultSite).pushAlloc target (.param (trimVersion target))
    | none =>
      return extractor.pushAlloc target
        (.param (if '_' ∈ target.toList then trimVersion target else target))

def processAssignInstruction (tables : CharTables) (instruction : SsaInstruction)
    (extractor : ConstraintExtractor) : Except AliasError ConstraintExtractor :=
  match instruction.target with
  | none => return extractor
  | some targetId => do
    let target ← extractor.validateSsaName targetId "assign target"
    match instruction.sourceText.bind tables.detectClassVar with
    | some classVar => return extractor.pushAlloc target classVar
    | none =>
      match instruction.sourceText.bind tables.parseFieldAccess, instruction.uses with
      | some fieldAccess, use :: _ =>
        return extractor.push (.fieldLoad target (extractor.formatSsaName use) fieldAccess)
      | _, uses =>
        match instruction.sourceText.bind tables.parseFieldStore, uses with
        | some (baseName, fieldName), use :: _ =>
          return extractor.push (.fieldStore baseName fieldName (extractor.formatSsaName use))
        | _, [use] => return extractor.push (.copy target (extractor.formatSsaName use))
        | _, [] =>
          return extractor.pushAlloc target (if instruction.sourceText.any tables.isAllocationCall
            then .alloc instruction.line else .unknown instruction.line)
        | _, _ => return extractor

def processCallInstruction (tables : CharTables) (instruction : SsaInstruction)
    (extractor : ConstraintExtractor) : Except AliasError ConstraintExtractor :=
  match instruction.target with
  | none => return extractor
  | some targetId => do
    let target ← extractor.validateSsaName targetId "call target"
    return extractor.pushAlloc target (if instruction.sourceText.any tables.isAllocationCall
      then .alloc instruction.line else .unknown instruction.line)

def processInstruction (tables : CharTables) (instruction : SsaInstruction)
    (extractor : ConstraintExtractor) : Except AliasError ConstraintExtractor :=
  match instruction.kind with
  | .param => processParamInstruction tables instruction extractor
  | .assign => processAssignInstruction tables instruction extractor
  | .call => processCallInstruction tables instruction extractor
  | .binaryOp | .unaryOp | .return | .branch => return extractor

/-- One block of `extract_from_ssa`: the phi functions, then the instructions. -/
def processBlock (tables : CharTables) (extractor : ConstraintExtractor) (block : SsaBlock) :
    Except AliasError ConstraintExtractor := do
  let extractor ← block.phiFunctions.foldlM (fun extractor phi =>
    processSinglePhi phi block extractor) extractor
  block.instructions.foldlM (fun extractor instruction =>
    processInstruction tables instruction extractor) extractor

def extractFromSsa (tables : CharTables) (ssa : SsaFunction) :
    Except AliasError ConstraintExtractor :=
  ssa.blocks.foldlM (processBlock tables) (new.buildNameMap ssa)

/-! ## Which names are looked up -/

section Lookups

variable {tables : CharTables} {ssa : SsaFunction} {extractor : ConstraintExtractor}
  {names : Nat → Option String}

/-- The names table of the extractor is `names`. -/
def Knows (names : Nat → Option String) (extractor : ConstraintExtractor) : Prop :=
  extractor.nameMap = names

section

variable (h : Knows names extractor)
include h

theorem validateSsaName_succeeds (id : Nat) (context : String) :
    Succeeds (extractor.validateSsaName id context) (names id).isSome fun _ => True := by
  unfold validateSsaName
  rw [h]
  cases hid : names id with
  | some name => exact .ok name rfl rfl trivial
  | none => exact .error _ rfl (by simp)

theorem processSinglePhi_succeeds (phi : PhiFunction) (block : SsaBlock) :
    Succeeds (processSinglePhi phi block extractor)
      ((names phi.target).isSome ∧ ∀ source ∈ phi.sources, (names source.name).isSome)
      (Knows names) := by
  unfold processSinglePhi
  refine (validateSsaName_succeeds h phi.target _).bind fun target _ => ?_
  apply Succeeds.foldlM
  · intro extractor h source _
    refine Succeeds.congr (.bind (validateSsaName_succeeds h source.name _) fun name _ => ?_)
      (iff_of_eq (and_true _))
    exact .pure h
  · exact h

theorem lookup_succeeds {target : Option Nat} {context : String}
    {rest : String → Except AliasError ConstraintExtractor}
    (hrest : ∀ name, Succeeds (rest name) True (Knows names)) :
    Succeeds (match target with
      | none => pure extractor
      | some targetId => extractor.validateSsaName targetId context >>= rest)
      (∀ id, target = some id → (names id).isSome) (Knows names) := by
  cases target with
  | none => exact (Succeeds.pure h).congr (by simp)
  | some id =>
    refine Succeeds.congr (.bind (validateSsaName_succeeds h id context) fun name _ =>
      hrest name) ?_
    simp

theorem processParamInstruction_succeeds (instruction : SsaInstruction) :
    Succeeds (processParamInstruction tables instruction extractor)
      (∀ id, instruction.target = some id → (names id).isSome) (Knows names) := by
  refine lookup_succeeds h fun name => ?_
  dsimp only
  split
  · exact .pure h
  · exact .pure h

theorem processAssignInstruction_succeeds (instruction : SsaInstruction) :
    Succeeds (processAssignInstruction tables instruction extractor)
      (∀ id, instruction.target = some id → (names id).isSome) (Knows names) := by
  refine lookup_succeeds h fun name => ?_
  split
  · exact .pure h
  · split
    · exact .pure h
    · split
      · exact .pure h
      · exact .pure h
      · exact .pure h
      · exact .pure h

theorem processInstruction_succeeds (instruction : SsaInstruction) :
    Succeeds (processInstruction tables instruction extractor)
      (instruction.kind ∈ [.param, .assign, .call] →
        ∀ id, instruction.target = some id → (names id).isSome) (Knows names) := by
  unfold processInstruction
  cases hkind : instruction.kind with
  | param => exact (processParamInstruction_succeeds h instruction).congr (by simp)
  | assign => exact (processAssignInstruction_succeeds h instruction).congr (by simp)
  | call =>
    refine Succeeds.congr (lookup_succeeds h fun name => ?_) (by simp)
    exact .pure h
  | binaryOp | unaryOp | «return» | branch => exact (Succeeds.pure h).congr (by simp)

end

theorem processBlock_succeeds (tables : CharTables) (h : Knows names extractor) (block : SsaBlock) :
    Succeeds (processBlock tables extractor block)
      ((∀ phi ∈ block.phiFunctions,
          (names phi.target).isSome ∧ ∀ source ∈ phi.sources, (names source.name).isSome) ∧
        ∀ instruction ∈ block.instructions, instruction.kind ∈ [.param, .assign, .call] →
          ∀ id, instruction.target = some id → (names id).isSome) (Knows names) := by
  unfold processBlock
  refine Succeeds.bind (I := Knows names)
    (.foldlM _ (fun _ h phi _ => processSinglePhi_succeeds h phi block) _ h) ?_
  intro extractor h
  exact .foldlM _ (fun _ h instruction _ => processInstruction_succeeds h instruction) _ h

theorem buildNameMap_isSome (ssa : SsaFunction) (id : Nat) :
    ((new.buildNameMap ssa).nameMap id).isSome ↔ id ∈ ssa.ssaNames.map (·.id) := by
  have key : ∀ (l : List SsaName) (table : Nat → Option String),
      (l.foldl (fun (nameMap : Nat → Option String) name =>
        update nameMap name.id (some (name.var ++ "_" ++ toString name.version))) table id).isSome ↔
          (table id).isSome ∨ id ∈ l.map (·.id) := by
    intro l
    induction l with
    | nil => simp
    | cons name l ih =>
      intro table
      rw [List.foldl_cons, ih, List.map_cons, List.mem_cons]
      by_cases hid : id = name.id
      · subst hid
        simp
      · rw [Function.update_of_ne hid, or_iff_right hid]
  exact (key ssa.ssaNames _).trans (by simp [new])

/-- **When the extraction succeeds**: all targets and all sources of phi functions are names of the
function. -/
theorem extractFromSsa_ok_iff (tables : CharTables) (ssa : SsaFunction) :
    (∃ extractor, extractFromSsa tables ssa = .ok extractor) ↔ ∀ block ∈ ssa.blocks,
      (∀ phi ∈ block.phiFunctions, phi.target ∈ ssa.ssaNames.map (·.id) ∧
        ∀ source ∈ phi.sources, source.name ∈ ssa.ssaNames.map (·.id)) ∧
      ∀ instruction ∈ block.instructions, instruction.kind ∈ [.param, .assign, .call] →
        ∀ id, instruction.target = some id → id ∈ ssa.ssaNames.map (·.id) := by
  unfold extractFromSsa
  have h := Succeeds.foldlM (J := Knows (new.buildNameMap ssa).nameMap) ssa.blocks
    (fun _ h block _ => processBlock_succeeds tables h block) _ rfl
  simp only [buildNameMap_isSome] at h
  exact h.exists_ok_iff

end Lookups

end ConstraintExtractor

end TldrCode.Alias
