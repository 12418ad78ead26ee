import Mathlib.Data.List.Basic

/-!
# Abstract locations and constraints

`alias/types.rs` and the constraints of `alias/constraints.rs`. Variables and formatted locations
are strings; a points-to set holds formatted locations.
-/

namespace TldrCode.Alias

def maxFieldDepth : Nat := 10

inductive AbstractLocation where
  | alloc (site : Nat)
  | param (name : String)
  | unknown (site : Nat)
  | field (base : AbstractLocation) (field : String)
  | defaultArg (site : Nat)
  | classVar (className field : String)
  deriving DecidableEq, Repr

namespace AbstractLocation

def fieldDepth : AbstractLocation → Nat
  | .field base _ => 1 + base.fieldDepth
  | _ => 0

/-- `format`. The loop over the base returns early when it counts `MAX_FIELD_DEPTH` fields. -/
def format : AbstractLocation → String
  | alloc site => "alloc_" ++ toString site
  | param name => "param_" ++ name
  | unknown site => "unknown_" ++ toString site
  | .field base f =>
    if maxFieldDepth ≤ base.fieldDepth then base.format ++ "." ++ f ++ ".truncated"
    else base.format ++ "." ++ f
  | defaultArg site => "alloc_default_" ++ toString site
  | classVar className f => "alloc_class_" ++ className ++ "_" ++ f

end AbstractLocation

inductive Constraint where
  | copy (target source : String)
  | alloc (target : String) (site : AbstractLocation)
  | fieldLoad (target base field : String)
  | fieldStore (base field source : String)
  deriving DecidableEq, Repr

/-- `AliasError`, the variants that the analysis raises. -/
inductive AliasError where
  | invalidRef (message : String)
  | iterationLimit (iterations : Nat)
  deriving DecidableEq, Repr

end TldrCode.Alias
