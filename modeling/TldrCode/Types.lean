import Mathlib.Algebra.Group.Int.Defs
import Mathlib.Algebra.GroupWithZero.Nat
import TldrCode.Graph.Walk

/-!
# Control and data flow graphs

The parts of `crate::types` the analyses read: blocks with their line ranges, edges, and the
references of the data flow graph. The HashMaps of successors and predecessors that every analysis
builds from the edges (`entry(from).or_default().push(to)`) are `successors` and `predecessors`;
a block without an entry there and one with an empty list are not told apart by any of them.
-/

namespace TldrCode

/-- `usize::MAX` on a 64-bit target. -/
def usizeMax : Nat := 2 ^ 64 - 1

/-- `CfgBlock`: a basic block and its inclusive line range. -/
structure CfgBlock where
  id : Nat
  lines : Nat × Nat
  deriving DecidableEq, Repr

structure CfgEdge where
  fromBlock : Nat
  toBlock : Nat
  deriving DecidableEq, Repr

structure CfgInfo where
  function : String
  blocks : List CfgBlock
  edges : List CfgEdge
  entryBlock : Nat
  exitBlocks : List Nat
  deriving DecidableEq, Repr

inductive RefType where
  | definition
  | update
  | use
  deriving DecidableEq, Repr

structure VarRef where
  name : String
  refType : RefType
  line : Nat
  column : Nat
  deriving DecidableEq, Repr

structure DfgInfo where
  refs : List VarRef
  deriving DecidableEq, Repr

/-- `TldrError`, the variant the analyses raise. -/
inductive TldrError where
  | invalidArgs (arg message : String) (suggestion : Option String)
  deriving DecidableEq, Repr

/-- `matches!(ref_type, RefType::Definition | RefType::Update)`. -/
def VarRef.isDef (r : VarRef) : Bool :=
  match r.refType with
  | .definition | .update => true
  | .use => false

namespace CfgInfo

variable (cfg : CfgInfo)

/-- The ids of the blocks, in the order they are listed. -/
def blockIds : List Nat := cfg.blocks.map (·.id)

/-- The targets of the edges out of `b`, in the order of the edges. -/
def successors (b : Nat) : List Nat :=
  (cfg.edges.filter (·.fromBlock == b)).map (·.toBlock)

/-- The sources of the edges into `b`, in the order of the edges. -/
def predecessors (b : Nat) : List Nat :=
  (cfg.edges.filter (·.toBlock == b)).map (·.fromBlock)

/-- There is an edge from `a` to `b`. -/
def Edge (a b : Nat) : Prop := ∃ e ∈ cfg.edges, e.fromBlock = a ∧ e.toBlock = b

/-- What `CfgBuilder` guarantees: it numbers the blocks by their position and draws edges between
blocks it has created. -/
structure WellFormed : Prop where
  nodup : cfg.blockIds.Nodup
  entry_mem : cfg.entryBlock ∈ cfg.blockIds
  from_mem : ∀ e ∈ cfg.edges, e.fromBlock ∈ cfg.blockIds
  to_mem : ∀ e ∈ cfg.edges, e.toBlock ∈ cfg.blockIds

/-- `b` is reached from the entry. -/
abbrev Reachable (b : Nat) : Prop := Graph.Reach cfg.Edge cfg.entryBlock b

/-- Every path from the entry to `b` passes through `a`. -/
abbrev Dominates (a b : Nat) : Prop := Graph.Dom cfg.Edge cfg.entryBlock a b

/-- `a` dominates `b` and is not `b`. -/
abbrev StrictlyDominates (a b : Nat) : Prop := Graph.SDom cfg.Edge cfg.entryBlock a b

variable {cfg}

theorem mem_successors {a b : Nat} : b ∈ cfg.successors a ↔ cfg.Edge a b := by
  simp [successors, Edge, and_assoc]

theorem mem_predecessors {a b : Nat} : a ∈ cfg.predecessors b ↔ cfg.Edge a b := by
  simp only [predecessors, Edge, List.mem_map, List.mem_filter, beq_iff_eq]
  exact ⟨fun ⟨e, ⟨h₁, h₂⟩, h₃⟩ => ⟨e, h₁, h₃, h₂⟩, fun ⟨e, h₁, h₂, h₃⟩ => ⟨e, ⟨h₁, h₃⟩, h₂⟩⟩

theorem WellFormed.edge_mem (h : cfg.WellFormed) {a b : Nat} (he : cfg.Edge a b) :
    b ∈ cfg.blockIds := by
  obtain ⟨e, he, -, rfl⟩ := he
  exact h.to_mem e he

theorem WellFormed.reach_mem (h : cfg.WellFormed) {a b : Nat} (ha : a ∈ cfg.blockIds)
    (hb : Graph.Reach cfg.Edge a b) : b ∈ cfg.blockIds :=
  hb.induct (P := (· ∈ cfg.blockIds)) ha fun _ _ _ he _ => h.edge_mem he

theorem WellFormed.reachable_mem (h : cfg.WellFormed) {b : Nat} (hb : cfg.Reachable b) :
    b ∈ cfg.blockIds := h.reach_mem h.entry_mem hb

end CfgInfo

/-- `build_line_to_block_map` followed by a lookup: of the blocks over a line the last entered
counts. -/
def lineToBlock (cfg : CfgInfo) (line : Nat) : Option Nat :=
  cfg.blocks.foldl (fun found block =>
    if block.lines.1 ≤ line ∧ line ≤ block.lines.2 then some block.id else found) none

/-! ## Hash tables -/

/-- The order in which a traversal of a hash table meets its entries, given the order they were
entered in. -/
structure HashOrder where
  order : {α : Type} → List α → List α
  perm : ∀ {α : Type} (l : List α), (order l).Perm l

namespace HashOrder

def insertion : HashOrder := ⟨id, fun _ => .refl _⟩

@[simp] theorem mem_order {α : Type} (ord : HashOrder) {l : List α} {a : α} :
    a ∈ ord.order l ↔ a ∈ l := (ord.perm l).mem_iff

end HashOrder

theorem exists_ok_of_isSome {ε α : Type} {x : Except ε α} (h : x.toOption.isSome) :
    ∃ a, x = .ok a := by
  cases x with
  | error e => cases h
  | ok a => exact ⟨a, rfl⟩

theorem exists_ok_of_map {ε α β : Type} {x : Except ε α} {f : α → β} {b : β}
    (h : x.toOption.map f = some b) : ∃ a, x = .ok a ∧ f a = b := by
  cases x with
  | error e => cases h
  | ok a => exact ⟨a, rfl, Option.some_inj.1 h⟩

theorem exists_some_ok_of_map {ε α β : Type} {x : Option (Except ε α)} {f : α → β} {b : β}
    (h : (x.bind Except.toOption).map f = some b) : ∃ a, x = some (.ok a) ∧ f a = b := by
  obtain ⟨a, ha, rfl⟩ := Option.map_eq_some_iff.1 h
  obtain ⟨result, rfl, hresult⟩ := Option.bind_eq_some_iff.1 ha
  cases result with
  | error e => cases hresult
  | ok a' =>
    cases hresult
    exact ⟨a, rfl, rfl⟩

inductive Language where
  | python
  | typeScript
  | javaScript
  | go
  | rust
  | java
  | c
  | cpp
  | ruby
  | kotlin
  | swift
  | cSharp
  | scala
  | php
  | lua
  | luau
  | elixir
  | ocaml
  deriving DecidableEq, Repr

def Language.asStr : Language → String
  | python => "python"
  | typeScript => "typescript"
  | javaScript => "javascript"
  | go => "go"
  | rust => "rust"
  | java => "java"
  | c => "c"
  | cpp => "cpp"
  | ruby => "ruby"
  | kotlin => "kotlin"
  | swift => "swift"
  | cSharp => "csharp"
  | scala => "scala"
  | php => "php"
  | lua => "lua"
  | luau => "luau"
  | elixir => "elixir"
  | ocaml => "ocaml"

end TldrCode
