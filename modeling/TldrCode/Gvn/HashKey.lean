import Mathlib.Data.List.Perm.Basic

/-!
# Hash keys

`dfg/gvn/hash_key.rs`: the structured keys by which the engine finds expressions again, and their
normal form for commutative operators.
-/

namespace TldrCode.Gvn

mutual

inductive HashKey where
  | const (typeName repr : String)
  | varVN (vn : Nat)
  | name (name : String)
  | binOp (op : String) (left right : HashKey) (commutative : Bool)
  | unaryOp (op : String) (operand : HashKey)
  | boolOp (op : String) (operands : HashKeys)
  | compare (parts : List String)
  | call (uniqueId : Nat)
  | attribute (value : HashKey) (attr : String)
  | subscript (value slice : HashKey)
  | unique (id : Nat)
  deriving DecidableEq, Repr

/-- `Vec<HashKey>`. -/
inductive HashKeys where
  | nil
  | cons (key : HashKey) (keys : HashKeys)
  deriving DecidableEq, Repr

end

def isCommutative (op : String) : Bool :=
  op ∈ ["Add", "Mult", "BitOr", "BitAnd", "BitXor", "+", "*", "|", "&", "^", "==", "!=", "and",
    "or", "&&", "||"]

namespace HashKey

def discriminantOrder : HashKey → Nat
  | .const .. => 0
  | .varVN .. => 1
  | .name .. => 2
  | .binOp .. => 3
  | .unaryOp .. => 4
  | .boolOp .. => 5
  | .compare .. => 6
  | .call .. => 7
  | .attribute .. => 8
  | .subscript .. => 9
  | .unique .. => 10

def compareHashKeys : HashKey → HashKey → Ordering
  | const t₁ r₁, const t₂ r₂ => (Ord.compare t₁ t₂).then (Ord.compare r₁ r₂)
  | varVN v₁, varVN v₂ => Ord.compare v₁ v₂
  | name n₁, name n₂ => Ord.compare n₁ n₂
  | binOp o₁ l₁ r₁ _, binOp o₂ l₂ r₂ _ =>
    ((Ord.compare o₁ o₂).then (compareHashKeys l₁ l₂)).then (compareHashKeys r₁ r₂)
  | unaryOp o₁ a₁, unaryOp o₂ a₂ => (Ord.compare o₁ o₂).then (compareHashKeys a₁ a₂)
  | call u₁, call u₂ => Ord.compare u₁ u₂
  | unique u₁, unique u₂ => Ord.compare u₁ u₂
  | a, b => Ord.compare a.discriminantOrder b.discriminantOrder

def normalizeBinop (op : String) (left right : HashKey) : HashKey :=
  let commutative := isCommutative op
  let (left, right) :=
    if commutative && compareHashKeys left right == .gt then (right, left) else (left, right)
  binOp op left right commutative

/-! ## Leaves -/

end HashKey

/-- What may change in an object: one of its attributes, or its items. -/
inductive Cell where
  | attribute (attr : String)
  | item
  deriving DecidableEq, Repr

inductive Leaf where
  | vn (vn : Nat)
  | id (id : Nat)
  | name (x : String)
  | cell (c : Cell)
  | text (key : HashKey)
  deriving DecidableEq, Repr

mutual

/-- The leaves of a key. A string and a comparison are known by their texts only. -/
def HashKey.leaves : HashKey → List Leaf
  | .const t r => if t = "str" then [.text (.const t r)] else []
  | .varVN vn => [.vn vn]
  | .name x => [.name x]
  | .binOp _ l r _ => l.leaves ++ r.leaves
  | .unaryOp _ a => a.leaves
  | .boolOp _ keys => keys.leaves
  | .compare parts => [.text (.compare parts)]
  | .call i => [.id i]
  | .attribute v a => .cell (.attribute a) :: v.leaves
  | .subscript v s => .cell .item :: (v.leaves ++ s.leaves)
  | .unique i => [.id i]

def HashKeys.leaves : HashKeys → List Leaf
  | .nil => []
  | .cons key keys => key.leaves ++ keys.leaves

end

namespace HashKey

/-- All numbers in the key are below `n`. -/
def Below (n : Nat) (key : HashKey) : Prop :=
  ∀ m, .vn m ∈ key.leaves ∨ .id m ∈ key.leaves → m < n

/-- The key of an expression that may be found again. -/
def Closed (key : HashKey) : Prop := ∀ i, .id i ∉ key.leaves

theorem mem_leaves_normalizeBinop {op : String} {l r : HashKey} {leaf : Leaf} :
    leaf ∈ (normalizeBinop op l r).leaves ↔ leaf ∈ l.leaves ∨ leaf ∈ r.leaves := by
  unfold normalizeBinop
  dsimp only
  split <;> simp [leaves, or_comm]

theorem mem_leaves_boolOp {op : String} {l r : HashKey} {leaf : Leaf} :
    leaf ∈ (boolOp op (.cons l (.cons r .nil))).leaves ↔ leaf ∈ l.leaves ++ r.leaves := by
  simp [HashKey.leaves, HashKeys.leaves]

variable {n m : Nat} {key : HashKey}

theorem Below.mono (h : key.Below n) (hnm : n ≤ m) : key.Below m :=
  fun k hk => Nat.lt_of_lt_of_le (h k hk) hnm

end HashKey

end TldrCode.Gvn
