import TldrCode.Gvn.Execution

/-!
# What keys stand for

The leaves of a key are what the expression reads (`hashNodeInner_leaves`), a key without fresh
numbers determines the value of its expression (`denote_hashNodeInner`), and the value of an
expression depends on what it reads only (`Expr.eval_congr`).
-/

namespace TldrCode.Gvn

variable {V : Type}

/-! ## Reads -/

/-- What an expression reads: a variable, a cell, or a part that is known by its text. -/
inductive Read where
  | name (x : String)
  | cell (c : Cell)
  | text (key : HashKey) (part : Expr)

namespace Expr

/-- What an expression reads where the engine looks at it. -/
def reads : Expr → List Read
  | .const .. => []
  | .string repr is => [.text (.const "str" repr) (.string repr is)]
  | .name x => [.name x]
  | .binary _ left right => left.reads ++ right.reads
  | .unary _ operand => operand.reads
  | .boolean _ left right => left.reads ++ right.reads
  | .compare parts ops operands => [.text (.compare parts) (.compare parts ops operands)]
  | .call => []
  | .attribute object attr => .cell (.attribute attr) :: object.reads
  | .subscript value slice _ => .cell .item :: (value.reads ++ slice.reads)
  | .paren inner => inner.reads
  | .other => []

def isKeyed : Expr → Bool
  | .const .. | .string .. | .name _ | .compare .. => true
  | .binary _ left right => left.isKeyed && right.isKeyed
  | .unary _ operand => operand.isKeyed
  | .boolean _ left right => left.isKeyed && right.isKeyed
  | .call => false
  | .attribute object _ => object.isKeyed
  | .subscript value slice _ => value.isKeyed && slice.isKeyed
  | .paren inner => inner.isKeyed
  | .other => false

/-- Every subscript where the engine looks has one index. -/
def hasOneIndex : Expr → Bool
  | .const .. | .string .. | .name _ | .compare .. | .call | .other => true
  | .binary _ left right => left.hasOneIndex && right.hasOneIndex
  | .unary _ operand => operand.hasOneIndex
  | .boolean _ left right => left.hasOneIndex && right.hasOneIndex
  | .attribute object _ => object.hasOneIndex
  | .subscript value slice more =>
    (match more with | .nil => true | .cons .. => false) && value.hasOneIndex && slice.hasOneIndex
  | .paren inner => inner.hasOneIndex

end Expr

mutual

def Expr.allReads : Expr → List Read
  | .const .. => []
  | .string _ interpolations => interpolations.allReads
  | .name x => [.name x]
  | .binary _ left right => left.allReads ++ right.allReads
  | .unary _ operand => operand.allReads
  | .boolean _ left right => left.allReads ++ right.allReads
  | .compare _ _ operands => operands.allReads
  | .call => []
  | .attribute object attr => .cell (.attribute attr) :: object.allReads
  | .subscript value slice more =>
    .cell .item :: (value.allReads ++ slice.allReads ++ more.allReads)
  | .paren inner => inner.allReads
  | .other => []

def Exprs.allReads : Exprs → List Read
  | .nil => []
  | .cons e es => e.allReads ++ es.allReads

end

def World.AgreeOn (world world' : World V) : Cell → Prop
  | .attribute a => world.attr a = world'.attr a
  | .item => world.item = world'.item

section Congr

variable {S : Semantics V} {world world' : World V}

structure World.AgreeOnAll (world world' : World V) (reads : List Read) : Prop where
  name : ∀ x, .name x ∈ reads → world.env x = world'.env x
  cell : ∀ c, .cell c ∈ reads → world.AgreeOn world' c

theorem World.AgreeOnAll.append {reads reads' : List Read}
    (h : world.AgreeOnAll world' (reads ++ reads')) :
    world.AgreeOnAll world' reads ∧ world.AgreeOnAll world' reads' :=
  ⟨⟨fun x hx => h.name x (List.mem_append_left _ hx),
      fun c hc => h.cell c (List.mem_append_left _ hc)⟩,
    ⟨fun x hx => h.name x (List.mem_append_right _ hx),
      fun c hc => h.cell c (List.mem_append_right _ hc)⟩⟩

theorem World.AgreeOnAll.tail {read : Read} {reads : List Read}
    (h : world.AgreeOnAll world' (read :: reads)) : world.AgreeOnAll world' reads :=
  ⟨fun x hx => h.name x (List.mem_cons_of_mem _ hx),
    fun c hc => h.cell c (List.mem_cons_of_mem _ hc)⟩

mutual

/-- **A value depends on what is read.** -/
theorem Expr.eval_congr : ∀ e : Expr, world.AgreeOnAll world' e.allReads →
    e.eval S world = e.eval S world'
  | .const .., _ => rfl
  | .string _ is, h => by
    unfold Expr.eval
    rw [Exprs.evals_congr is h]
  | .name x, h => by
    unfold Expr.eval
    rw [h.name x (by simp [Expr.allReads])]
  | .binary _ l r, h | .boolean _ l r, h => by
    obtain ⟨hl, hr⟩ := h.append
    unfold Expr.eval
    rw [Expr.eval_congr l hl, Expr.eval_congr r hr]
  | .unary _ e, h => by
    unfold Expr.eval
    rw [Expr.eval_congr e h]
  | .compare _ _ es, h => by
    unfold Expr.eval
    rw [Exprs.evals_congr es h]
  | .call, _ => rfl
  | .attribute o a, h => by
    have ha : world.attr a = world'.attr a := h.cell (.attribute a) (by simp [Expr.allReads])
    unfold Expr.eval
    rw [Expr.eval_congr o h.tail, ha]
  | .subscript v s more, h => by
    have hi : world.item = world'.item := h.cell .item (by simp [Expr.allReads])
    obtain ⟨hvs, hmore⟩ := h.tail.append
    obtain ⟨hv, hs⟩ := hvs.append
    unfold Expr.eval
    rw [Expr.eval_congr v hv, Expr.eval_congr s hs, Exprs.evals_congr more hmore, hi]
  | .paren e, h => by
    unfold Expr.eval
    exact Expr.eval_congr e h
  | .other, _ => rfl

theorem Exprs.evals_congr : ∀ es : Exprs, world.AgreeOnAll world' es.allReads →
    es.evals S world = es.evals S world'
  | .nil, _ => rfl
  | .cons e es, h => by
    obtain ⟨he, hes⟩ := h.append
    unfold Exprs.evals
    rw [Expr.eval_congr e he, Exprs.evals_congr es hes]

end

mutual

theorem Expr.eval_isSome : ∀ e : Expr, (e.eval S world).isSome = e.isPure
  | .const .. => rfl
  | .string _ is => by
    unfold Expr.eval Expr.isPure
    rw [Option.isSome_map, Exprs.evals_isSome is]
  | .name _ => rfl
  | .binary _ l r | .boolean _ l r => by
    unfold Expr.eval Expr.isPure
    rw [← Expr.eval_isSome l, ← Expr.eval_isSome r]
    cases l.eval S world <;> cases r.eval S world <;> rfl
  | .unary _ e => by
    unfold Expr.eval Expr.isPure
    rw [Option.isSome_map, Expr.eval_isSome e]
  | .compare _ _ es => by
    unfold Expr.eval Expr.isPure
    rw [Option.isSome_map, Exprs.evals_isSome es]
  | .call => rfl
  | .attribute o _ => by
    unfold Expr.eval Expr.isPure
    rw [Option.isSome_map, Expr.eval_isSome o]
  | .subscript v s more => by
    unfold Expr.eval Expr.isPure
    rw [← Expr.eval_isSome v, ← Expr.eval_isSome s, ← Exprs.evals_isSome more]
    cases v.eval S world <;> cases s.eval S world <;> cases more.evals S world <;> rfl
  | .paren e => by
    unfold Expr.eval Expr.isPure
    exact Expr.eval_isSome e
  | .other => rfl

theorem Exprs.evals_isSome : ∀ es : Exprs, (es.evals S world).isSome = es.arePure
  | .nil => rfl
  | .cons e es => by
    unfold Exprs.evals Exprs.arePure
    rw [← Expr.eval_isSome e, ← Exprs.evals_isSome es]
    cases e.eval S world <;> cases es.evals S world <;> rfl

end

end Congr

/-! ## Leaves -/

/-- How the leaves of a key belong to the reads of its expression. The numbers it takes on the way
are from `next` up to `next'`. -/
structure LeafSpec (varVn : String → Option Nat) (reads : List Read) (next next' : Nat)
    (leaves : List Leaf) : Prop where
  le : next ≤ next'
  id : ∀ m, .id m ∈ leaves → next ≤ m ∧ m < next'
  fresh : next < next' → ∃ m, .id m ∈ leaves
  vn : ∀ n, .vn n ∈ leaves → ∃ x, .name x ∈ reads ∧ varVn x = some n
  name : ∀ x, .name x ∈ leaves → .name x ∈ reads ∧ varVn x = none
  cell : ∀ c, .cell c ∈ leaves → .cell c ∈ reads
  text : ∀ key, .text key ∈ leaves → ∃ part, .text key part ∈ reads
  texts : next' = next → ∀ key part, .text key part ∈ reads → .text key ∈ leaves

variable {inner : Nat → Nat → Hashed}

namespace LeafSpec

variable {varVn : String → Option Nat} {reads reads₁ reads₂ : List Read} {next n₁ n₂ : Nat}
  {leaves leaves₁ leaves₂ : List Leaf}

theorem unique : LeafSpec varVn reads next (next + 1) [.id next] where
  le := Nat.le_succ next
  id m hm := by
    obtain rfl : m = next := by simpa using hm
    exact ⟨Nat.le_refl m, Nat.lt_succ_self m⟩
  fresh _ := ⟨next, by simp⟩
  vn n h := by simp at h
  name x h := by simp at h
  cell c h := by simp at h
  text key h := by simp at h
  texts h := by omega

theorem of_mem_iff (h : LeafSpec varVn reads next n₁ leaves₁)
    (hmem : ∀ leaf, leaf ∈ leaves₂ ↔ leaf ∈ leaves₁) : LeafSpec varVn reads next n₁ leaves₂ where
  le := h.le
  id m hm := h.id m ((hmem _).1 hm)
  fresh hlt := (h.fresh hlt).imp fun _ hm => (hmem _).2 hm
  vn n hn := h.vn n ((hmem _).1 hn)
  name x hx := h.name x ((hmem _).1 hx)
  cell c hc := h.cell c ((hmem _).1 hc)
  text key hk := h.text key ((hmem _).1 hk)
  texts heq key part hpart := (hmem _).2 (h.texts heq key part hpart)

theorem append (h₁ : LeafSpec varVn reads₁ next n₁ leaves₁)
    (h₂ : LeafSpec varVn reads₂ n₁ n₂ leaves₂) :
    LeafSpec varVn (reads₁ ++ reads₂) next n₂ (leaves₁ ++ leaves₂) := by
  have hle₁ := h₁.le
  have hle₂ := h₂.le
  constructor
  case le => omega
  case id =>
    intro m hm
    cases List.mem_append.1 hm with
    | inl hm =>
      have := h₁.id m hm
      omega
    | inr hm =>
      have := h₂.id m hm
      omega
  case fresh =>
    intro hlt
    by_cases hn : next < n₁
    · obtain ⟨m, hm⟩ := h₁.fresh hn
      exact ⟨m, List.mem_append_left _ hm⟩
    · obtain ⟨m, hm⟩ := h₂.fresh (by omega)
      exact ⟨m, List.mem_append_right _ hm⟩
  case vn =>
    intro n hn
    cases List.mem_append.1 hn with
    | inl hn =>
      obtain ⟨x, hx, hvn⟩ := h₁.vn n hn
      exact ⟨x, List.mem_append_left _ hx, hvn⟩
    | inr hn =>
      obtain ⟨x, hx, hvn⟩ := h₂.vn n hn
      exact ⟨x, List.mem_append_right _ hx, hvn⟩
  case name =>
    intro x hx
    cases List.mem_append.1 hx with
    | inl hx => exact (h₁.name x hx).imp_left (List.mem_append_left _)
    | inr hx => exact (h₂.name x hx).imp_left (List.mem_append_right _)
  case cell =>
    intro c hc
    cases List.mem_append.1 hc with
    | inl hc => exact List.mem_append_left _ (h₁.cell c hc)
    | inr hc => exact List.mem_append_right _ (h₂.cell c hc)
  case text =>
    intro key hk
    cases List.mem_append.1 hk with
    | inl hk => exact (h₁.text key hk).imp fun part => List.mem_append_left _
    | inr hk => exact (h₂.text key hk).imp fun part => List.mem_append_right _
  case texts =>
    intro heq key part hpart
    cases List.mem_append.1 hpart with
    | inl hpart => exact List.mem_append_left _ (h₁.texts (by omega) key part hpart)
    | inr hpart => exact List.mem_append_right _ (h₂.texts (by omega) key part hpart)

theorem cons_cell (h : LeafSpec varVn reads next n₁ leaves) (c : Cell) :
    LeafSpec varVn (.cell c :: reads) next n₁ (.cell c :: leaves) where
  le := h.le
  id m hm := h.id m (by simpa using hm)
  fresh hlt := (h.fresh hlt).imp fun m hm => List.mem_cons_of_mem _ hm
  vn n hn := by
    obtain ⟨x, hx, hvn⟩ := h.vn n (by simpa using hn)
    exact ⟨x, List.mem_cons_of_mem _ hx, hvn⟩
  name x hx := (h.name x (by simpa using hx)).imp_left (List.mem_cons_of_mem _)
  cell d hd := by
    cases List.mem_cons.1 hd with
    | inl hd => cases hd; exact List.mem_cons_self
    | inr hd => exact List.mem_cons_of_mem _ (h.cell d hd)
  text key hk := (h.text key (by simpa using hk)).imp fun part => List.mem_cons_of_mem _
  texts heq key part hpart :=
    List.mem_cons_of_mem _ (h.texts heq key part (by simpa using hpart))

theorem hashNode {depth : Nat} (h : ∀ depth next, LeafSpec varVn reads next (inner depth next).2.2
      (inner depth next).1.leaves) :
    LeafSpec varVn reads next (Gvn.hashNode inner depth next).2.2
      (Gvn.hashNode inner depth next).1.leaves := by
  unfold Gvn.hashNode
  split
  · exact unique
  · exact h (depth + 1) next

end LeafSpec

variable {varVn : String → Option Nat}

/-- **The leaves of a key.** -/
theorem hashNodeInner_leaves (varVn : String → Option Nat) : ∀ (e : Expr) (depth next : Nat),
    LeafSpec varVn e.reads next (hashNodeInner varVn e depth next).2.2
      (hashNodeInner varVn e depth next).1.leaves
  | .const kind repr, depth, next => by
    have hleaves : (HashKey.const kind.typeName repr).leaves = [] := by
      unfold HashKey.leaves
      rw [if_neg]
      cases kind <;> decide
    unfold hashNodeInner
    dsimp only
    rw [hleaves]
    exact ⟨Nat.le_refl _, by simp, fun h => absurd h (Nat.lt_irrefl _), by simp, by simp, by simp,
      by simp, by simp [Expr.reads]⟩
  | .string repr is, depth, next | .compare parts ops es, depth, next => by
    unfold hashNodeInner
    exact ⟨Nat.le_refl _, by simp [HashKey.leaves], fun h => absurd h (Nat.lt_irrefl _),
      by simp [HashKey.leaves], by simp [HashKey.leaves], by simp [HashKey.leaves],
      by simp [HashKey.leaves, Expr.reads], by simp +contextual [HashKey.leaves, Expr.reads]⟩
  | .name x, depth, next => by
    unfold hashNodeInner
    cases hx : varVn x with
    | some vn =>
      exact ⟨Nat.le_refl _, by simp [HashKey.leaves], fun h => absurd h (Nat.lt_irrefl _),
        by simp [HashKey.leaves, Expr.reads, hx], by simp [HashKey.leaves],
        by simp [HashKey.leaves], by simp [HashKey.leaves], by simp [Expr.reads]⟩
    | none =>
      exact ⟨Nat.le_refl _, by simp [HashKey.leaves], fun h => absurd h (Nat.lt_irrefl _),
        by simp [HashKey.leaves], by simp [HashKey.leaves, Expr.reads, hx],
        by simp [HashKey.leaves], by simp [HashKey.leaves], by simp [Expr.reads]⟩
  | .binary op l r, depth, next => by
    unfold hashNodeInner
    exact ((LeafSpec.hashNode (hashNodeInner_leaves varVn l)).append
      (LeafSpec.hashNode (hashNodeInner_leaves varVn r))).of_mem_iff fun leaf => by
        rw [HashKey.mem_leaves_normalizeBinop, List.mem_append]
  | .unary op e, depth, next => by
    unfold hashNodeInner
    split
    · exact LeafSpec.hashNode (hashNodeInner_leaves varVn e)
    · exact LeafSpec.unique
  | .boolean op l r, depth, next => by
    unfold hashNodeInner
    exact ((LeafSpec.hashNode (hashNodeInner_leaves varVn l)).append
      (LeafSpec.hashNode (hashNodeInner_leaves varVn r))).of_mem_iff fun leaf =>
        HashKey.mem_leaves_boolOp
  | .call, depth, next => LeafSpec.unique
  | .attribute o a, depth, next => by
    unfold hashNodeInner
    exact (LeafSpec.hashNode (hashNodeInner_leaves varVn o)).cons_cell _
  | .subscript v s more, depth, next => by
    unfold hashNodeInner
    exact ((LeafSpec.hashNode (hashNodeInner_leaves varVn v)).append
      (LeafSpec.hashNode (hashNodeInner_leaves varVn s))).cons_cell _
  | .paren e, depth, next => by
    unfold hashNodeInner
    exact hashNodeInner_leaves varVn e depth next
  | .other, depth, next => LeafSpec.unique

/-! ## Keys without fresh numbers -/

theorem hashNode_next {depth next : Nat} (h : (hashNode inner depth next).2.2 = next) :
    hashNode inner depth next = inner (depth + 1) next := by
  unfold hashNode at h ⊢
  split at h
  · simp [uniqueKey] at h
  · next hdepth => rw [if_neg hdepth]

/-- If the second of two parts ends where the first one began, neither took a number. -/
theorem hashNode_pair {inner₁ inner₂ : Nat → Nat → Hashed} {depth next : Nat}
    (h₁ : ∀ depth next, next ≤ (inner₁ depth next).2.2)
    (h₂ : ∀ depth next, next ≤ (inner₂ depth next).2.2)
    (h : (hashNode inner₂ depth (hashNode inner₁ depth next).2.2).2.2 = next) :
    hashNode inner₁ depth next = inner₁ (depth + 1) next ∧
      (inner₁ (depth + 1) next).2.2 = next ∧
      hashNode inner₂ depth next = inner₂ (depth + 1) next ∧
      (inner₂ (depth + 1) next).2.2 = next := by
  have hle : ∀ (inner : Nat → Nat → Hashed) (next : Nat),
      (∀ depth next, next ≤ (inner depth next).2.2) → next ≤ (hashNode inner depth next).2.2 := by
    intro inner next hinner
    unfold hashNode
    split
    · exact Nat.le_succ next
    · exact hinner _ _
  have hle₁ := hle inner₁ next h₁
  have hle₂ := hle inner₂ (hashNode inner₁ depth next).2.2 h₂
  have heq₁ : (hashNode inner₁ depth next).2.2 = next := by omega
  rw [heq₁] at h
  have hinner₁ := hashNode_next heq₁
  have hinner₂ := hashNode_next h
  exact ⟨hinner₁, hinner₁ ▸ heq₁, hinner₂, hinner₂ ▸ h⟩

theorem le_hashNodeInner (e : Expr) (depth next : Nat) :
    next ≤ (hashNodeInner varVn e depth next).2.2 := (hashNodeInner_leaves varVn e depth next).le

/-- An expression whose key has no fresh number has no call where the engine looks. -/
theorem isKeyed_of_next : ∀ (e : Expr) (depth next : Nat),
    (hashNodeInner varVn e depth next).2.2 = next → e.isKeyed
  | .const .., _, _, _ => rfl
  | .string .., _, _, _ => rfl
  | .name _, _, _, _ => rfl
  | .binary _ l r, depth, next, h | .boolean _ l r, depth, next, h => by
    obtain ⟨-, hl, -, hr⟩ := hashNode_pair (le_hashNodeInner l) (le_hashNodeInner r) h
    simp [Expr.isKeyed, isKeyed_of_next l _ _ hl, isKeyed_of_next r _ _ hr]
  | .unary op e, depth, next, h => by
    unfold hashNodeInner at h
    split at h
    · exact isKeyed_of_next e _ _ (hashNode_next h ▸ h)
    · simp [uniqueKey] at h
  | .compare .., _, _, _ => rfl
  | .call, _, _, h => by simp [hashNodeInner] at h
  | .attribute o _, depth, next, h => by
    unfold hashNodeInner at h
    exact isKeyed_of_next o _ _ (hashNode_next h ▸ h)
  | .subscript v s _, depth, next, h => by
    obtain ⟨-, hv, -, hs⟩ := hashNode_pair (le_hashNodeInner v) (le_hashNodeInner s) h
    simp [Expr.isKeyed, isKeyed_of_next v _ _ hv, isKeyed_of_next s _ _ hs]
  | .paren e, depth, next, h => isKeyed_of_next e depth next h
  | .other, _, _, h => by simp [hashNodeInner, uniqueKey] at h

/-- Calls are where the engine looks, or in a part that is known by its text. -/
theorem isPure_of_isKeyed : ∀ e : Expr, e.isKeyed → e.hasOneIndex →
    (∀ key part, .text key part ∈ e.reads → part.isPure) → e.isPure
  | .const .., _, _, _ => rfl
  | .string repr is, _, _, h => h (.const "str" repr) (.string repr is) (by simp [Expr.reads])
  | .name _, _, _, _ => rfl
  | .binary _ l r, hk, hi, h | .boolean _ l r, hk, hi, h => by
    simp only [Expr.isKeyed, Expr.hasOneIndex, Bool.and_eq_true] at hk hi
    simp only [Expr.reads, List.mem_append] at h
    simp [Expr.isPure, isPure_of_isKeyed l hk.1 hi.1 fun k p hp => h k p (.inl hp),
      isPure_of_isKeyed r hk.2 hi.2 fun k p hp => h k p (.inr hp)]
  | .unary _ e, hk, hi, h => isPure_of_isKeyed e hk hi h
  | .compare parts ops es, _, _, h =>
    h (.compare parts) (.compare parts ops es) (by simp [Expr.reads])
  | .call, hk, _, _ => by simp [Expr.isKeyed] at hk
  | .attribute o _, hk, hi, h => isPure_of_isKeyed o hk hi fun k p hp => h k p (by
    simpa [Expr.reads] using hp)
  | .subscript v s more, hk, hi, h => by
    simp only [Expr.isKeyed, Expr.hasOneIndex, Bool.and_eq_true] at hk hi
    simp only [Expr.reads, List.mem_cons, List.mem_append] at h
    have hmore : more.arePure := by
      cases more with
      | nil => rfl
      | cons => simp at hi
    simp [Expr.isPure, hmore, isPure_of_isKeyed v hk.1 hi.1.2 fun k p hp => h k p (.inr (.inl hp)),
      isPure_of_isKeyed s hk.2 hi.2 fun k p hp => h k p (.inr (.inr hp))]
  | .paren e, hk, hi, h => isPure_of_isKeyed e hk hi h
  | .other, hk, _, _ => by simp [Expr.isKeyed] at hk

/-! ## Meaning -/

structure Interp (V : Type) where
  vn : Nat → V
  world : World V
  text : HashKey → Option V

mutual

/-- The value that a key stands for. A boolean operator of the parser has two operands. -/
def HashKey.denote (S : Semantics V) (I : Interp V) : HashKey → Option V
  | .const t r => if t = "str" then I.text (.const t r) else some (S.const t r)
  | .varVN vn => some (I.vn vn)
  | .name x => some (I.world.env x)
  | .binOp op l r _ => do
    let a ← l.denote S I
    let b ← r.denote S I
    return S.binary op a b
  | .unaryOp op a => (a.denote S I).map (S.unary op)
  | .boolOp op keys => do
    let [a, b] ← keys.denotes S I | none
    return S.boolean op a b
  | .compare parts => I.text (.compare parts)
  | .call _ => none
  | .attribute v a => (v.denote S I).map (I.world.attr a)
  | .subscript v s => do
    let a ← v.denote S I
    let b ← s.denote S I
    return I.world.item a [b]
  | .unique _ => none

def HashKeys.denotes (S : Semantics V) (I : Interp V) : HashKeys → Option (List V)
  | .nil => some []
  | .cons key keys => do
    let a ← key.denote S I
    let as ← keys.denotes S I
    return a :: as

end

variable {S : Semantics V} {I I' : Interp V} {l r : HashKey} {op : String}

theorem denote_normalizeBinop :
    (HashKey.normalizeBinop op l r).denote S I = (do
      let a ← l.denote S I
      let b ← r.denote S I
      return S.binary op a b) := by
  unfold HashKey.normalizeBinop
  dsimp only
  split
  · next h =>
    have hcomm := S.comm op (Bool.and_eq_true_iff.1 h).1
    rw [HashKey.denote]
    cases l.denote S I with
    | none => cases r.denote S I <;> rfl
    | some a => cases r.denote S I with
      | none => rfl
      | some b => exact congrArg some (hcomm b a)
  · rfl

theorem denote_boolOp :
    (HashKey.boolOp op (.cons l (.cons r .nil))).denote S I = (do
      let a ← l.denote S I
      let b ← r.denote S I
      return S.boolean op a b) := by
  simp only [HashKey.denote, HashKeys.denotes]
  cases l.denote S I with
  | none => rfl
  | some a => cases r.denote S I <;> rfl

structure Interp.AgreeOn (I I' : Interp V) (leaves : List Leaf) : Prop where
  vn : ∀ n, .vn n ∈ leaves → I.vn n = I'.vn n
  name : ∀ x, .name x ∈ leaves → I.world.env x = I'.world.env x
  cell : ∀ c, .cell c ∈ leaves → I.world.AgreeOn I'.world c
  text : ∀ key, .text key ∈ leaves → I.text key = I'.text key

theorem Interp.AgreeOn.mono {leaves leaves' : List Leaf} (h : I.AgreeOn I' leaves')
    (hsub : ∀ leaf ∈ leaves, leaf ∈ leaves') : I.AgreeOn I' leaves :=
  ⟨fun n hn => h.vn n (hsub _ hn), fun x hx => h.name x (hsub _ hx),
    fun c hc => h.cell c (hsub _ hc), fun key hk => h.text key (hsub _ hk)⟩

mutual

/-- **What a key stands for depends on its leaves.** -/
theorem denote_congr : ∀ {key : HashKey}, I.AgreeOn I' key.leaves →
    key.denote S I = key.denote S I'
  | .const t r, h => by
    unfold HashKey.denote
    split
    · next ht => exact h.text _ (by simp [HashKey.leaves, ht])
    · rfl
  | .varVN n, h => by
    have hn := h.vn n (by simp [HashKey.leaves])
    simp [HashKey.denote, hn]
  | .name x, h => by
    have hx := h.name x (by simp [HashKey.leaves])
    simp [HashKey.denote, hx]
  | .binOp op l r c, h => by
    have hl : I.AgreeOn I' l.leaves := h.mono fun leaf => by
      simpa [HashKey.leaves] using Or.inl
    have hr : I.AgreeOn I' r.leaves := h.mono fun leaf => by
      simpa [HashKey.leaves] using Or.inr
    unfold HashKey.denote
    rw [denote_congr hl, denote_congr hr]
  | .unaryOp op a, h => by
    have ha : I.AgreeOn I' a.leaves := h.mono fun leaf => by simp [HashKey.leaves]
    unfold HashKey.denote
    rw [denote_congr ha]
  | .boolOp op keys, h => by
    have hkeys : I.AgreeOn I' keys.leaves := h.mono fun leaf => by simp [HashKey.leaves]
    unfold HashKey.denote
    rw [denotes_congr hkeys]
  | .compare parts, h => by
    have hparts := h.text (.compare parts) (by simp [HashKey.leaves])
    simp [HashKey.denote, hparts]
  | .call _, _ => by simp [HashKey.denote]
  | .attribute v a, h => by
    have ha : I.world.attr a = I'.world.attr a := h.cell (.attribute a) (by simp [HashKey.leaves])
    have hv : I.AgreeOn I' v.leaves := h.mono fun leaf hleaf => by simp [HashKey.leaves, hleaf]
    unfold HashKey.denote
    rw [denote_congr hv, ha]
  | .subscript v s, h => by
    have hi : I.world.item = I'.world.item := h.cell .item (by simp [HashKey.leaves])
    have hv : I.AgreeOn I' v.leaves := h.mono fun leaf hleaf => by simp [HashKey.leaves, hleaf]
    have hs : I.AgreeOn I' s.leaves := h.mono fun leaf hleaf => by simp [HashKey.leaves, hleaf]
    unfold HashKey.denote
    rw [denote_congr hv, denote_congr hs, hi]
  | .unique _, _ => by simp [HashKey.denote]

theorem denotes_congr : ∀ {keys : HashKeys}, I.AgreeOn I' keys.leaves →
    keys.denotes S I = keys.denotes S I'
  | .nil, _ => rfl
  | .cons key keys, h => by
    have hkey : I.AgreeOn I' key.leaves := h.mono fun leaf hleaf => by
      simp [HashKeys.leaves, hleaf]
    have hkeys : I.AgreeOn I' keys.leaves := h.mono fun leaf hleaf => by
      simp [HashKeys.leaves, hleaf]
    unfold HashKeys.denotes
    rw [denote_congr hkey, denotes_congr hkeys]

end

/-- The interpretation has the values that an expression reads. -/
structure Interp.Matches (S : Semantics V) (I : Interp V) (varVn : String → Option Nat)
    (reads : List Read) : Prop where
  vn : ∀ x n, .name x ∈ reads → varVn x = some n → I.vn n = I.world.env x
  text : ∀ key part, .text key part ∈ reads → I.text key = part.eval S I.world

theorem Interp.Matches.mono {reads reads' : List Read} (h : I.Matches S varVn reads')
    (hsub : ∀ read ∈ reads, read ∈ reads') : I.Matches S varVn reads :=
  ⟨fun x n hx => h.vn x n (hsub _ hx), fun key part hp => h.text key part (hsub _ hp)⟩

/-- **A key without fresh numbers stands for the value of its expression.** -/
theorem denote_hashNodeInner : ∀ (e : Expr) (depth next : Nat),
    (hashNodeInner varVn e depth next).2.2 = next → e.hasOneIndex → I.Matches S varVn e.reads →
      (hashNodeInner varVn e depth next).1.denote S I = e.eval S I.world
  | .const kind repr, depth, next, _, _, _ => by
    unfold hashNodeInner HashKey.denote Expr.eval
    rw [if_neg]
    cases kind <;> decide
  | .string repr is, depth, next, _, _, hm => by
    unfold hashNodeInner HashKey.denote
    rw [if_pos rfl]
    exact hm.text _ _ (by simp [Expr.reads])
  | .name x, depth, next, _, _, hm => by
    unfold hashNodeInner
    cases hx : varVn x with
    | some n => exact congrArg some (hm.vn x n (by simp [Expr.reads]) hx)
    | none => rfl
  | .binary op l r, depth, next, h, hi, hm => by
    obtain ⟨hl, hl', hr, hr'⟩ := hashNode_pair (le_hashNodeInner l) (le_hashNodeInner r) h
    simp only [Expr.hasOneIndex, Bool.and_eq_true] at hi
    unfold hashNodeInner Expr.eval
    dsimp only
    rw [denote_normalizeBinop, hl, hl', hr,
      denote_hashNodeInner l _ _ hl' hi.1 (hm.mono fun read => List.mem_append_left _),
      denote_hashNodeInner r _ _ hr' hi.2 (hm.mono fun read => List.mem_append_right _)]
  | .unary op e, depth, next, h, hi, hm => by
    unfold hashNodeInner at h ⊢
    cases hop : unaryName op with
    | none => simp [hop, uniqueKey] at h
    | some opName =>
      simp only [hop] at h ⊢
      have he := hashNode_next h
      unfold HashKey.denote Expr.eval
      rw [he, denote_hashNodeInner e _ _ (he ▸ h) hi hm, hop, Option.getD_some]
  | .boolean op l r, depth, next, h, hi, hm => by
    obtain ⟨hl, hl', hr, hr'⟩ := hashNode_pair (le_hashNodeInner l) (le_hashNodeInner r) h
    simp only [Expr.hasOneIndex, Bool.and_eq_true] at hi
    unfold hashNodeInner Expr.eval
    dsimp only
    rw [denote_boolOp, hl, hl', hr,
      denote_hashNodeInner l _ _ hl' hi.1 (hm.mono fun read => List.mem_append_left _),
      denote_hashNodeInner r _ _ hr' hi.2 (hm.mono fun read => List.mem_append_right _)]
  | .compare parts ops es, depth, next, _, _, hm => by
    unfold hashNodeInner HashKey.denote
    exact hm.text _ _ (by simp [Expr.reads])
  | .call, _, _, h, _, _ => by simp [hashNodeInner] at h
  | .attribute o a, depth, next, h, hi, hm => by
    have ho := hashNode_next h
    unfold hashNodeInner Expr.eval HashKey.denote
    rw [ho, denote_hashNodeInner o _ _ (ho ▸ h) hi (hm.mono fun read => List.mem_cons_of_mem _)]
  | .subscript v s more, depth, next, h, hi, hm => by
    obtain ⟨hv, hv', hs, hs'⟩ := hashNode_pair (le_hashNodeInner v) (le_hashNodeInner s) h
    simp only [Expr.hasOneIndex, Bool.and_eq_true] at hi
    cases more with
    | cons => simp at hi
    | nil =>
      unfold hashNodeInner Expr.eval HashKey.denote
      rw [hv, hv', hs,
        denote_hashNodeInner v _ _ hv' hi.1.2 (hm.mono fun read hr =>
          List.mem_cons_of_mem _ (List.mem_append_left _ hr)),
        denote_hashNodeInner s _ _ hs' hi.2 (hm.mono fun read hr =>
          List.mem_cons_of_mem _ (List.mem_append_right _ hr))]
      rfl
  | .paren e, depth, next, h, hi, hm => denote_hashNodeInner e depth next h hi hm
  | .other, _, _, h, _, _ => by simp [hashNodeInner, uniqueKey] at h

end TldrCode.Gvn
