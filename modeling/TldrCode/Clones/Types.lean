import Mathlib.Algebra.Order.Ring.Abs
import Mathlib.Algebra.Order.Ring.Rat
import TldrCode.Dataflow.Text

/-!
# Clones

The types of `analysis/clones/types.rs` and `analysis/clones/extract.rs`: tokens, fragments of
files, pairs of similar fragments and classes of them. Similarities are rational numbers, and the
paths of files any linear order.
-/

namespace TldrCode.Clones

open Dataflow

structure NormalizedToken where
  value : String
  deriving DecidableEq, Repr

inductive CloneType
  | type1
  | type2
  | type3
  deriving DecidableEq, Repr

def classifyCloneType (similarity : ℚ) : CloneType :=
  if |similarity - 1| < 1 / 10 ^ 9 then .type1
  else if 9 / 10 - 1 / 10 ^ 9 ≤ similarity then .type2
  else .type3

def interpretSimilarity (score : ℚ) : String :=
  if 95 / 100 ≤ score then "Near-identical (exact or trivial differences)"
  else if 90 / 100 ≤ score then "Very high similarity (Type-1/2 clone)"
  else if 80 / 100 ≤ score then "High similarity (likely Type-2 clone)"
  else if 70 / 100 ≤ score then "Moderate similarity (Type-3 clone candidate)"
  else if 50 / 100 ≤ score then "Some similarity (possible shared ancestry)"
  else "Low similarity (different code)"

/-! ## Fragments -/

structure CloneFragment (P : Type) where
  file : P
  startLine : Nat
  endLine : Nat
  tokens : Nat
  lines : Option Nat
  function : Option String
  preview : Option (List Char)
  deriving DecidableEq, Repr

/-- The last boundary of a character up to this byte. -/
def boundaryBefore (preview : List Char) : Nat → Nat
  | 0 => 0
  | n + 1 => if (splitAtByte preview (n + 1)).isSome then n + 1 else boundaryBefore preview n

def truncatePreview (preview : List Char) : Option (List Char) :=
  if byteLen preview > 100 then
    (splitAtByte preview (boundaryBefore preview 97)).map (·.1 ++ "...".toList)
  else some preview

namespace CloneFragment

variable {P : Type}

def new (file : P) (startLine endLine tokens : Nat) : CloneFragment P where
  file := file
  startLine := startLine
  endLine := endLine
  tokens := tokens
  lines := some (endLine - startLine + 1)
  function := none
  preview := none

def withFunction (fragment : CloneFragment P) (function : String) : CloneFragment P :=
  { fragment with function := some function }

def withPreview (fragment : CloneFragment P) (preview : List Char) : CloneFragment P :=
  { fragment with preview := truncatePreview preview }

end CloneFragment

/-! ## Pairs and classes -/

structure ClonePair (P : Type) where
  id : Nat
  cloneType : CloneType
  similarity : ℚ
  fragment1 : CloneFragment P
  fragment2 : CloneFragment P
  interpretation : Option String
  deriving DecidableEq, Repr

namespace ClonePair

variable {P : Type} [LinearOrder P]

def new (id : Nat) (cloneType : CloneType) (similarity : ℚ)
    (fragment1 fragment2 : CloneFragment P) : ClonePair P :=
  ⟨id, cloneType, similarity, fragment1, fragment2, some (interpretSimilarity similarity)⟩

/-- The fragments by their files, and in a file by their first lines. -/
def canonical (pair : ClonePair P) : ClonePair P :=
  if pair.fragment1.file > pair.fragment2.file ∨
      pair.fragment1.file = pair.fragment2.file ∧
        pair.fragment1.startLine > pair.fragment2.startLine then
    { pair with fragment1 := pair.fragment2, fragment2 := pair.fragment1 }
  else pair

end ClonePair

structure CloneClass (P : Type) where
  id : Nat
  fragments : List (CloneFragment P)
  size : Nat
  cloneType : CloneType
  avgSimilarity : ℚ
  deriving DecidableEq, Repr

end TldrCode.Clones
