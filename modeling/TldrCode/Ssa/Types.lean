import Mathlib.Data.List.Nodup
import TldrCode.Types

/-!
# SSA form

`ssa/types.rs`: functions in SSA form. An `SsaNameId` is a number; 0 is the undefined name.
-/

namespace TldrCode.Ssa

inductive SsaType where
  | minimal
  | semiPruned
  | pruned
  deriving DecidableEq, Repr

inductive SsaInstructionKind where
  | assign
  | param
  | binaryOp
  | unaryOp
  | call
  | return
  | branch
  deriving DecidableEq, Repr

structure PhiSource where
  block : Nat
  name : Nat
  deriving DecidableEq, Repr

structure PhiFunction where
  target : Nat
  var : String
  sources : List PhiSource
  line : Nat
  deriving DecidableEq, Repr

structure SsaInstruction where
  kind : SsaInstructionKind
  target : Option Nat
  uses : List Nat
  line : Nat
  sourceText : Option String
  deriving DecidableEq, Repr

structure SsaBlock where
  id : Nat
  label : Option String
  lines : Nat × Nat
  phiFunctions : List PhiFunction
  instructions : List SsaInstruction
  successors : List Nat
  predecessors : List Nat
  deriving DecidableEq, Repr

structure SsaName where
  id : Nat
  var : String
  version : Nat
  defBlock : Option Nat
  defLine : Nat
  deriving DecidableEq, Repr

structure SsaStats where
  phiCount : Nat
  ssaNames : Nat
  blocks : Nat
  instructions : Nat
  deadPhiCount : Nat
  deriving DecidableEq, Repr

structure SsaFunction where
  function : String
  ssaType : SsaType
  blocks : List SsaBlock
  ssaNames : List SsaName
  defUse : Nat → Option (List Nat)
  stats : SsaStats

/-- The names a block defines: the targets of its phi functions and of its instructions. -/
def SsaBlock.targets (block : SsaBlock) : List Nat :=
  block.phiFunctions.map (·.target) ++ block.instructions.filterMap (·.target)

def SsaFunction.targets (ssa : SsaFunction) : List Nat := ssa.blocks.flatMap (·.targets)

theorem SsaFunction.eq_of_mem_targets {ssa : SsaFunction} (h : ssa.targets.Nodup)
    {block block' : SsaBlock} {name : Nat} (hblock : block ∈ ssa.blocks)
    (hblock' : block' ∈ ssa.blocks) (hname : name ∈ block.targets)
    (hname' : name ∈ block'.targets) : block = block' := by
  by_contra hne
  have hsymm : Std.Symm (Function.onFun List.Disjoint SsaBlock.targets) :=
    ⟨fun _ _ hdisjoint _ hmem hmem' => hdisjoint hmem' hmem⟩
  exact (List.nodup_flatMap.1 h).2.forall hblock hblock' hne hname hname'

theorem find?_of_nodup {α : Type} {l : List α} {f : α → Nat} (h : (l.map f).Nodup) {a : α}
    (ha : a ∈ l) : l.find? (f · == f a) = some a := by
  induction l with
  | nil => cases ha
  | cons x l ih =>
    rw [List.map_cons, List.nodup_cons] at h
    rcases List.mem_cons.1 ha with rfl | ha
    · simp
    · have hne : f x ≠ f a := fun he => h.1 (he ▸ List.mem_map_of_mem ha)
      rw [List.find?_cons_of_neg (by simpa using hne)]
      exact ih h.2 ha

end TldrCode.Ssa
