import Mathlib.Data.List.AList
import TldrCode.Alias.Constraints
import TldrCode.Types

/-!
# The alias solver

`alias/solver.rs`. The solver keeps the points-to sets of variables and of field locations, both
under their names, and a worklist of the names whose sets have grown. The index tables that
`index_constraints` builds are functions of the constraints.
-/

namespace TldrCode.Alias

def maxIterations : Nat := 100

/-! ## The index tables -/

/-- `copy_constraints`: target to sources. -/
def copyConstraints (cs : List Constraint) (target : String) : List String :=
  cs.filterMap fun
    | .copy t source => if t = target then some source else none
    | _ => none

/-- `reverse_copy`: source to the targets of copies and loads. -/
def reverseCopy (cs : List Constraint) (source : String) : List String :=
  cs.filterMap fun
    | .copy target s => if s = source then some target else none
    | .fieldLoad target base _ => if base = source then some target else none
    | _ => none

/-- `field_loads`: target to bases and fields. -/
def fieldLoads (cs : List Constraint) (target : String) : List (String × String) :=
  cs.filterMap fun
    | .fieldLoad t base field => if t = target then some (base, field) else none
    | _ => none

/-- `field_stores`: base to fields and sources. -/
def fieldStores (cs : List Constraint) (base : String) : List (String × String) :=
  cs.filterMap fun
    | .fieldStore b field source => if b = base then some (field, source) else none
    | _ => none

/-- `reverse_field_stores`: source to bases and fields. -/
def reverseFieldStores (cs : List Constraint) (source : String) : List (String × String) :=
  cs.filterMap fun
    | .fieldStore base field s => if s = source then some (base, field) else none
    | _ => none

/-- `alloc_sites`: target to the last site. -/
def allocSites (cs : List Constraint) : AList fun _ : String => AbstractLocation :=
  cs.foldl (fun sites c => match c with
    | .alloc target site => sites.insert target site
    | _ => sites) ∅

/-! ## The solver -/

/-- `AliasSolver`, the part that changes. -/
structure AliasSolver where
  pointsTo : AList fun _ : String => List String
  worklist : List String
  inWorklist : List String
  iterations : Nat

def createFieldLocation (base field : String) : String :=
  if maxFieldDepth ≤ base.toList.count '.' then base ++ ".truncated" else base ++ "." ++ field

namespace AliasSolver

def getPointsTo (s : AliasSolver) (var : String) : List String := (s.pointsTo.lookup var).getD []

def addToWorklist (s : AliasSolver) (var : String) : AliasSolver :=
  if var ∈ s.inWorklist then s
  else { s with worklist := s.worklist ++ [var], inWorklist := s.inWorklist.insert var }

/-- Insert the locations into a points-to set and put its name on the worklist if it has grown. -/
def extend (s : AliasSolver) (target : String) (locs : List String) : AliasSolver :=
  let targetPts := s.getPointsTo target
  let oldSize := targetPts.length
  let targetPts := locs.foldl (fun pts loc => pts.insert loc) targetPts
  let changed := targetPts.length > oldSize
  let s := { s with pointsTo := s.pointsTo.insert target targetPts }
  if changed then s.addToWorklist target else s

/-- A points-to set and its name at the start. -/
def seed (s : AliasSolver) (target location : String) : AliasSolver :=
  { s with
    pointsTo := s.pointsTo.insert target ((s.getPointsTo target).insert location) }.addToWorklist
      target

variable (ord : HashOrder) (cs : List Constraint)

def initializeAllocs (s : AliasSolver) : AliasSolver :=
  cs.foldl (fun s c => match c with
    | .alloc target site => s.seed target site.format
    | _ => s) s

def initializeParameters (parameters : List String) (s : AliasSolver) : AliasSolver :=
  (ord.order parameters).foldl (fun s param => s.seed param (AbstractLocation.param param).format) s

def new (extractor : ConstraintExtractor) : AliasSolver :=
  initializeParameters ord extractor.parameters (initializeAllocs extractor.constraints
    { pointsTo := ∅, worklist := [], inWorklist := [], iterations := 0 })

def propagateCopy (target : String) (sourcePts : List String) (s : AliasSolver) : AliasSolver :=
  s.extend target (ord.order sourcePts)

def propagateFieldLoad (target : String) (basePts : List String) (field : String)
    (s : AliasSolver) : AliasSolver :=
  s.extend target ((ord.order basePts).map (createFieldLocation · field))

def propagateFieldStore (basePts : List String) (field source : String) (s : AliasSolver) :
    AliasSolver :=
  let sourcePts := s.getPointsTo source
  let fieldLocs := (ord.order basePts).map (createFieldLocation · field)
  fieldLocs.foldl (fun s fieldLoc => s.extend fieldLoc (ord.order sourcePts)) s

/-- The dispatch of `propagate_variable` on one target of `reverse_copy`: a target of loads is taken
for a load, any other for a copy. -/
def propagateTarget (var : String) (currentPts : List String) (s : AliasSolver)
    (target : String) : AliasSolver :=
  if fieldLoads cs target ≠ [] then
    (fieldLoads cs target).foldl (fun s load =>
      if load.1 = var then propagateFieldLoad ord target currentPts load.2 s else s) s
  else if copyConstraints cs target ≠ [] then propagateCopy ord target currentPts s
  else s

def propagateVariable (s : AliasSolver) (var : String) : AliasSolver :=
  let currentPts := s.getPointsTo var
  let s := (reverseCopy cs var).foldl (propagateTarget ord cs var currentPts) s
  let s := (fieldStores cs var).foldl
    (fun s store => propagateFieldStore ord currentPts store.1 store.2 s) s
  (reverseFieldStores cs var).foldl
    (fun s store => propagateFieldStore ord (s.getPointsTo store.1) store.2 var s) s

/-- One iteration of `solve`: everything on the worklist. -/
def iterate (s : AliasSolver) : AliasSolver :=
  s.worklist.foldl (propagateVariable ord cs)
    { s with worklist := [], inWorklist := [], iterations := s.iterations + 1 }

/-- The loop of `solve`, with the iterations left. -/
def solveLoop : Nat → AliasSolver → Except AliasError AliasSolver
  | 0, s => if s.worklist = [] then .ok s else .error (.iterationLimit (s.iterations + 1))
  | left + 1, s => if s.worklist = [] then .ok s else solveLoop left (iterate ord cs s)

def solve (s : AliasSolver) : Except AliasError AliasSolver :=
  solveLoop ord cs maxIterations { s with iterations := 0 }

end AliasSolver

/-! ## The result -/

/-- `AliasInfo`, the part about points-to sets and may-alias pairs. -/
structure AliasInfo where
  functionName : String
  mayAlias : AList fun _ : String => List String
  pointsTo : AList fun _ : String => List String
  allocationSites : AList fun _ : Nat => String

namespace AliasInfo

/-- `map.entry(key).or_default().insert(value)`. -/
def insertInto (map : AList fun _ : String => List String) (key value : String) :
    AList fun _ : String => List String :=
  map.insert key (((map.lookup key).getD []).insert value)

def addMayAlias (info : AliasInfo) (a b : String) : AliasInfo :=
  if a ≠ b then { info with mayAlias := insertInto (insertInto info.mayAlias a b) b a } else info

def addPointsTo (info : AliasInfo) (var location : String) : AliasInfo :=
  { info with pointsTo := insertInto info.pointsTo var location }

def addAllocationSite (info : AliasInfo) (line : Nat) (location : String) : AliasInfo :=
  { info with allocationSites := info.allocationSites.insert line location }

def mayAliasCheck (info : AliasInfo) (a b : String) : Bool :=
  if a = b then true
  else if (info.mayAlias.lookup a).any (b ∈ ·) then true
  else if (info.mayAlias.lookup b).any (a ∈ ·) then true
  else match info.pointsTo.lookup a, info.pointsTo.lookup b with
    | some aSet, some bSet => aSet.any (· ∈ bSet)
    | _, _ => false

end AliasInfo

namespace AliasSolver

variable (ord : HashOrder) (cs : List Constraint)

/-- The pairs `(vars[i], vars[j])` with `i < j`. -/
def pairs : List String → List (String × String)
  | [] => []
  | v :: vars => vars.map (v, ·) ++ pairs vars

def computeMayAlias (s : AliasSolver) (info : AliasInfo) : AliasInfo :=
  let info := (pairs (ord.order s.pointsTo.keys)).foldl (fun info pair =>
    if (s.getPointsTo pair.1).any (· ∈ s.getPointsTo pair.2) then info.addMayAlias pair.1 pair.2
    else info) info
  cs.foldl (fun info c => match c with
    | .copy target source => info.addMayAlias target source
    | _ => info) info

def addParameterAliasing (parameters : List String) (info : AliasInfo) : AliasInfo :=
  (pairs (ord.order parameters)).foldl (fun info pair => info.addMayAlias pair.1 pair.2) info

/-- The sites recorded by `build_alias_info`. -/
def recordSites (info : AliasInfo) : AliasInfo :=
  (ord.order (allocSites cs).entries).foldl (fun info entry =>
    let info := match entry.2 with
      | .alloc line => info.addAllocationSite line entry.2.format
      | _ => info
    info.addPointsTo entry.1 entry.2.format) info

/-- `build_alias_info`, without the must-alias pairs. -/
def buildAliasInfo (extractor : ConstraintExtractor) (s : AliasSolver) (functionName : String) :
    AliasInfo :=
  addParameterAliasing ord extractor.parameters (computeMayAlias ord extractor.constraints s
    (recordSites ord extractor.constraints
      { functionName, mayAlias := ∅, pointsTo := s.pointsTo, allocationSites := ∅ }))

end AliasSolver

end TldrCode.Alias
