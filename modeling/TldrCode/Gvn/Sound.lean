import Mathlib.Data.List.Induction
import TldrCode.Gvn.Keys

/-!
# Where value numbers are sound

Expressions with one value number have one value (`sameValues_of_safe`), in a body each of whose
statements is `NumberedSafely` after those before it: it does not read a variable that the engine
lost track of, and reads again by name, by text or out of an object only what has not changed.
-/

namespace TldrCode.Gvn

open Function (update)

variable {V : Type} {key : HashKey} {next : Nat} {target : Target}

/-! ## Bindings -/

inductive Binding where
  | assigned
  | unpacked
  | untracked
  deriving DecidableEq, Repr

/-- The variables of a pattern member that `assign_targets` does not look into. -/
def PatternItem.nested : PatternItem → List String
  | name _ => []
  | other xs => xs

/-- The variables of a target that `assign_targets` does not see. -/
def Target.nested : Target → List String
  | .pattern _ items => items.flatMap (·.nested)
  | _ => []

def Target.names : Target → List String
  | .name x => [x]
  | .pattern _ items => items.flatMap fun item => match item with
    | .name x => [x]
    | .other xs => xs
  | .attribute .. => []
  | .subscript .. => []

/-- How the statement binds the variable: the engine does not see inside an assignment on the right
side or inside a nested pattern. -/
def Stmt.binding (stmt : Stmt) (x : String) : Option Binding :=
  match stmt with
  | .assign target rhs =>
    if x ∈ rhs.targets.flatMap (·.names) ∨ x ∈ target.nested then some .untracked
    else match target with
      | .name y => if y = x then some .assigned else none
      | .pattern _ items => if .name x ∈ items then some .unpacked else none
      | .attribute .. => none
      | .subscript .. => none
  | .augAssign (.name y) _ => if y = x then some .assigned else none
  | .augAssign _ _ => none
  | .expr _ => none

def lastBinding (before : List Stmt) (x : String) : Option Binding :=
  before.foldl (fun last stmt => (stmt.binding x).or last) none

/-- The variable has not been bound, or was unpacked last. -/
def IsBare (before : List Stmt) (x : String) : Prop :=
  lastBinding before x = none ∨ lastBinding before x = some .unpacked

def Stmt.numbered : Stmt → Option Expr
  | .assign _ (.expr e) => some e
  | .assign _ (.chain _ _) => none
  | .augAssign _ value => some value
  | .expr value => some value

/-- What the key of a statement is about. A call outside of comparisons and strings makes the key
unlike all others. -/
def Stmt.reads (stmt : Stmt) : List Read :=
  match stmt.numbered with
  | some e => if e.isKeyed then e.reads else []
  | none => []

/-- The statement leaves the part of an expression as it is. -/
structure Stmt.Keeps (stmt : Stmt) (part : Expr) : Prop where
  name : ∀ x, .name x ∈ part.allReads → stmt.binding x = none
  cell : ∀ c, .cell c ∈ part.allReads → stmt.affects c = false

/-- The statement does not take one of the wrong branches of the engine, after those before it. -/
structure NumberedSafely (before : List Stmt) (stmt : Stmt) : Prop where
  /-- It does not read a variable whose last binding the engine has not seen. -/
  tracked : ∀ x, .name x ∈ stmt.reads → lastBinding before x ≠ some .untracked
  /-- Its subscripts have one index, which is what the key is made of. -/
  oneIndex : ∀ e, stmt.numbered = some e → e.isKeyed → e.hasOneIndex
  /-- It does not read by its name an unpacked variable that was read by its name before. -/
  unpacked : ∀ x, .name x ∈ stmt.reads → lastBinding before x = some .unpacked →
    ∀ b₁ s b₂, before = b₁ ++ s :: b₂ → .name x ∈ s.reads → IsBare b₁ x →
      ∀ t ∈ s :: b₂, t.binding x = none
  /-- It does not read a cell again that may have changed. -/
  cell : ∀ c, .cell c ∈ stmt.reads → ∀ b₁ s b₂, before = b₁ ++ s :: b₂ → .cell c ∈ s.reads →
    ∀ t ∈ s :: b₂, t.affects c = false
  /-- A comparison or string with the text of an earlier one is that one, unchanged and without
  calls. -/
  text : ∀ key part, .text key part ∈ stmt.reads → ∀ b₁ s b₂, before = b₁ ++ s :: b₂ →
    ∀ part', .text key part' ∈ s.reads →
      part' = part ∧ part.isPure ∧ ∀ t ∈ s :: b₂, t.Keeps part
  /-- Comparisons or strings of one text in the statement are the same. -/
  same : ∀ key part part', .text key part ∈ stmt.reads → .text key part' ∈ stmt.reads →
    part' = part

/-! ## Executions -/

section Execution

variable {S : Semantics V} {oracle : Oracle V} {start world : World V}
  {before after body : List Stmt}
  {stmt : Stmt} {x : String} {c : Cell} {k : Nat} {v : V} {env : String → V} {run : Run V}
  {bound : String → V}

theorem execute_concat : execute S oracle start (before ++ [stmt]) =
    (execute S oracle start before).step S oracle stmt := List.foldl_concat ..

theorem walkStmts_concat : walkStmts (before ++ [stmt]) = (walkStmts before).walkStmt stmt :=
  List.foldl_concat ..

theorem lastBinding_concat :
    lastBinding (before ++ [stmt]) x = (stmt.binding x).or (lastBinding before x) :=
  List.foldl_concat ..

theorem Target.bindEnv_of_not_mem (h : x ∉ target.names) :
    target.bindEnv v bound env x = env x := by
  cases target with
  | name y =>
    have hx : x ≠ y := by simpa [Target.names] using h
    exact Function.update_of_ne hx _ _
  | «attribute» => rfl
  | subscript => rfl
  | pattern text items =>
    unfold Target.bindEnv
    unfold Target.names at h
    dsimp only at h ⊢
    induction items generalizing env with
    | nil => rfl
    | cons item items ih =>
      rw [List.flatMap_cons, List.mem_append, not_or] at h
      rw [List.foldl_cons, ih h.2]
      cases item with
      | name y =>
        have hx : x ≠ y := by simpa using h.1
        exact Function.update_of_ne hx _ _
      | other xs => exact if_neg h.1

theorem Target.bindEnv_foldl_of_not_mem {targets : List Target}
    (h : x ∉ targets.flatMap (·.names)) :
    targets.foldl (fun env target => target.bindEnv v bound env) env x = env x := by
  induction targets generalizing env with
  | nil => rfl
  | cons target targets ih =>
    rw [List.flatMap_cons, List.mem_append, not_or] at h
    rw [List.foldl_cons, ih h.2]
    exact Target.bindEnv_of_not_mem h.1

theorem Target.mem_pattern_names {text : String} {items : List PatternItem} :
    x ∈ (Target.pattern text items).names ↔
      .name x ∈ items ∨ x ∈ (Target.pattern text items).nested := by
  unfold Target.names Target.nested
  simp only [List.mem_flatMap]
  constructor
  · rintro ⟨item, hitem, hx⟩
    cases item with
    | name y =>
      obtain rfl : x = y := by simpa using hx
      exact .inl hitem
    | other xs => exact .inr ⟨.other xs, hitem, hx⟩
  · rintro (hitem | ⟨item, hitem, hx⟩)
    · exact ⟨.name x, hitem, by simp⟩
    · cases item with
      | name y => simp [PatternItem.nested] at hx
      | other xs => exact ⟨.other xs, hitem, hx⟩

theorem Stmt.bindEnv_of_none (h : stmt.binding x = none) :
    stmt.bindEnv oracle k v env x = env x := by
  cases stmt with
  | assign target rhs =>
    unfold Stmt.binding at h
    dsimp only at h
    split at h
    · cases h
    · next hx =>
      rw [not_or] at hx
      unfold Stmt.bindEnv
      dsimp only
      rw [List.foldl_cons, Target.bindEnv_foldl_of_not_mem hx.1]
      apply Target.bindEnv_of_not_mem
      cases target with
      | name y =>
        intro hmem
        simp [Target.names] at hmem
        simp [hmem] at h
      | «attribute» => simp [Target.names]
      | subscript => simp [Target.names]
      | pattern text items =>
        rw [Target.mem_pattern_names, not_or]
        refine ⟨fun hmem => ?_, hx.2⟩
        simp [hmem] at h
  | augAssign target value =>
    cases target with
    | name y =>
      have hx : x ≠ y := by
        intro hx
        simp [Stmt.binding, hx] at h
      exact Function.update_of_ne hx _ _
    | «attribute» => rfl
    | subscript => rfl
    | pattern => rfl
  | expr value => rfl

/-- A variable that an assignment binds for the engine has the value of its right side. -/
theorem Stmt.bindEnv_of_assigned {rhs : Rhs}
    (h : (Stmt.assign target rhs).binding x = some .assigned) :
    target = .name x ∧ (Stmt.assign target rhs).bindEnv oracle k v env x = v := by
  unfold Stmt.binding at h
  dsimp only at h
  split at h
  · cases h
  · next hx =>
    rw [not_or] at hx
    cases target with
    | name y =>
      have hy : y = x := by
        by_contra hne
        simp [hne] at h
      subst hy
      refine ⟨rfl, ?_⟩
      unfold Stmt.bindEnv
      dsimp only
      rw [List.foldl_cons, Target.bindEnv_foldl_of_not_mem hx.1]
      exact Function.update_self ..
    | «attribute» => cases h
    | subscript => cases h
    | pattern text items =>
      dsimp only at h
      split at h <;> cases h

theorem step_env (h : stmt.binding x = none) :
    (run.step S oracle stmt).world.env x = run.world.env x := Stmt.bindEnv_of_none h

theorem step_agreeOn (h : stmt.affects c = false) :
    run.world.AgreeOn (run.step S oracle stmt).world c := by
  cases c with
  | «attribute» a => exact (if_neg (by simp [h])).symm
  | item => exact (if_neg (by simp [h])).symm

/-- **A part that all statements keep** has the same value before and after them. -/
theorem execute_env (h : ∀ t ∈ after, t.binding x = none) :
    (execute S oracle start (before ++ after)).world.env x =
      (execute S oracle start before).world.env x := by
  induction after using List.reverseRecOn with
  | nil => rw [List.append_nil]
  | append_singleton after t ih =>
    rw [← List.append_assoc, execute_concat, step_env (h t (by simp))]
    exact ih fun s hs => h s (by simp [hs])

theorem execute_agreeOn (h : ∀ t ∈ after, t.affects c = false) :
    (execute S oracle start before).world.AgreeOn (execute S oracle start (before ++ after)).world
      c := by
  induction after using List.reverseRecOn with
  | nil =>
    rw [List.append_nil]
    cases c <;> rfl
  | append_singleton after t ih =>
    have h₁ := ih fun s hs => h s (by simp [hs])
    have h₂ : (execute S oracle start (before ++ after)).world.AgreeOn
        ((execute S oracle start (before ++ after)).step S oracle t).world c :=
      step_agreeOn (h t (by simp))
    rw [← List.append_assoc, execute_concat]
    cases c with
    | «attribute» a => exact Eq.trans h₁ h₂
    | item => exact Eq.trans h₁ h₂

theorem execute_values_length : (execute S oracle start body).values.length = body.length := by
  induction body using List.reverseRecOn with
  | nil => rfl
  | append_singleton body t ih =>
    rw [execute_concat]
    simp [Run.step, ih]

end Execution

/-! ## Numbering -/

/-- The number of a statement's expression, and the engine after it. -/
def Engine.numberStmt (engine : Engine) : Stmt → Nat × Engine
  | .assign _ rhs => engine.numberRhs rhs
  | .augAssign _ value => engine.numberExpression value
  | .expr value => engine.numberExpression value

/-- The key of a statement's expression, and the next number after it. -/
inductive KeyOf (engine : Engine) (stmt : Stmt) (key : HashKey) (next : Nat) : Prop
  | expr {e : Expr} {comm : Bool} (he : stmt.numbered = some e)
      (hkey : hashNodeInner engine.varVn e 1 engine.nextVn = (key, comm, next))
  | chain (hnone : stmt.numbered = none) (hkey : key = .unique engine.nextVn)
      (hnext : next = engine.nextVn + 1)

/-- How a statement's expression gets its number. -/
inductive Numbers (engine : Engine) (stmt : Stmt) (vn : Nat) (engine' : Engine) : Prop
  /-- It is a variable. -/
  | known {x : String} (hx : stmt.numbered = some (.name x)) (hvn : engine.varVn x = some vn)
      (hhash : engine'.hashToVn = engine.hashToVn) (hnext : engine'.nextVn = engine.nextVn)
  /-- Its key is found. -/
  | found {key : HashKey} {next : Nat} (hkey : KeyOf engine stmt key next)
      (hvn : engine.hashToVn key = some vn) (hhash : engine'.hashToVn = engine.hashToVn)
      (hnext : engine'.nextVn = next)
  /-- Its key is new. -/
  | fresh {key : HashKey} {next : Nat} (hkey : KeyOf engine stmt key next) (hvn : vn = next)
      (hhash : engine'.hashToVn = update engine.hashToVn key (some vn))
      (hnext : engine'.nextVn = next + 1)

section Numbering

variable {engine : Engine} {stmt : Stmt} {e : Expr}

theorem numberKey_numbers {comm : Bool} (hkey : KeyOf engine stmt key next) :
    Numbers engine stmt (engine.numberKey (key, comm, next)).1
        (engine.numberKey (key, comm, next)).2 ∧
      (engine.numberKey (key, comm, next)).2.varVn = engine.varVn ∧
      (engine.numberKey (key, comm, next)).2.expressions =
        engine.expressions ++ [(engine.numberKey (key, comm, next)).1] := by
  unfold Engine.numberKey
  dsimp only
  cases hvn : engine.hashToVn key with
  | some vn =>
    dsimp only
    exact ⟨.found hkey hvn rfl rfl, rfl, rfl⟩
  | none =>
    dsimp only
    exact ⟨.fresh hkey rfl rfl rfl, rfl, rfl⟩

theorem numberExpression_numbers (he : stmt.numbered = some e) :
    Numbers engine stmt (engine.numberExpression e).1 (engine.numberExpression e).2 ∧
      (engine.numberExpression e).2.varVn = engine.varVn ∧
      (engine.numberExpression e).2.expressions =
        engine.expressions ++ [(engine.numberExpression e).1] := by
  have hkey : Numbers engine stmt
      (engine.numberKey (hashNodeInner engine.varVn e 1 engine.nextVn)).1
      (engine.numberKey (hashNodeInner engine.varVn e 1 engine.nextVn)).2 ∧
      (engine.numberKey (hashNodeInner engine.varVn e 1 engine.nextVn)).2.varVn = engine.varVn ∧
      (engine.numberKey (hashNodeInner engine.varVn e 1 engine.nextVn)).2.expressions =
        engine.expressions ++
          [(engine.numberKey (hashNodeInner engine.varVn e 1 engine.nextVn)).1] :=
    numberKey_numbers (.expr he rfl)
  have hdepth : hashNode (hashNodeInner engine.varVn e) 0 engine.nextVn =
      hashNodeInner engine.varVn e 1 engine.nextVn := if_neg (by decide)
  unfold Engine.numberExpression
  rw [hdepth]
  cases e with
  | name x =>
    cases hx : engine.varVn x with
    | some vn =>
      dsimp only
      rw [hx]
      exact ⟨.known he hx rfl rfl, rfl, rfl⟩
    | none =>
      dsimp only
      rw [hx]
      exact hkey
  | _ => exact hkey

/-- **How a statement is numbered.** -/
theorem numberStmt_numbers :
    Numbers engine stmt (engine.numberStmt stmt).1 (engine.numberStmt stmt).2 ∧
      (engine.numberStmt stmt).2.varVn = engine.varVn ∧
      (engine.numberStmt stmt).2.expressions =
        engine.expressions ++ [(engine.numberStmt stmt).1] := by
  cases stmt with
  | assign target rhs =>
    cases rhs with
    | expr e => exact numberExpression_numbers rfl
    | chain target' rhs => exact numberKey_numbers (.chain rfl rfl rfl)
  | augAssign target value => exact numberExpression_numbers rfl
  | expr value => exact numberExpression_numbers rfl

theorem KeyOf.leaves (h : KeyOf engine stmt key next) :
    LeafSpec engine.varVn (match stmt.numbered with | some e => e.reads | none => [])
      engine.nextVn next key.leaves := by
  cases h with
  | @expr e comm he hkey =>
    have hleaves : LeafSpec engine.varVn e.reads engine.nextVn
        (hashNodeInner engine.varVn e 1 engine.nextVn).2.2
        (hashNodeInner engine.varVn e 1 engine.nextVn).1.leaves := hashNodeInner_leaves _ e 1 _
    rw [hkey] at hleaves
    rw [he]
    exact hleaves
  | chain hnone hkey hnext =>
    subst hkey hnext
    exact LeafSpec.unique

end Numbering

/-! ## The invariant -/

/-- What is known of the engine after the statements, if `vnVal` gives the values of the value
numbers. -/
structure Numbered (S : Semantics V) (oracle : Oracle V) (start : World V) (vnVal : Nat → V)
    (before : List Stmt) : Prop where
  length : (walkStmts before).expressions.length = before.length
  expressions_lt : ∀ vn ∈ (walkStmts before).expressions, vn < (walkStmts before).nextVn
  values : ∀ (i vn : Nat) (v : V), (walkStmts before).expressions[i]? = some vn →
    (execute S oracle start before).values[i]? = some v → vnVal vn = v
  var_lt : ∀ x vn, (walkStmts before).varVn x = some vn → vn < (walkStmts before).nextVn
  var : ∀ x vn, (walkStmts before).varVn x = some vn → lastBinding before x ≠ some .untracked →
    vnVal vn = (execute S oracle start before).world.env x
  bare : ∀ x, (walkStmts before).varVn x = none → lastBinding before x ≠ some .assigned
  key_lt : ∀ key vn, (walkStmts before).hashToVn key = some vn →
    vn < (walkStmts before).nextVn ∧ ∀ m, .id m ∈ key.leaves → m < (walkStmts before).nextVn
  key : ∀ key vn, (walkStmts before).hashToVn key = some vn →
    ∃ b₁ s b₂ next, before = b₁ ++ s :: b₂ ∧ NumberedSafely b₁ s ∧
      KeyOf (walkStmts b₁) s key next ∧ (walkStmts before).expressions[b₁.length]? = some vn

section Invariant

variable {S : Semantics V} {oracle : Oracle V} {start : World V} {vnVal vnVal' : Nat → V}
  {before body : List Stmt} {stmt : Stmt} {engine' : Engine}

theorem Numbered.congr (h : Numbered S oracle start vnVal before)
    (hval : ∀ n < (walkStmts before).nextVn, vnVal' n = vnVal n) :
    Numbered S oracle start vnVal' before where
  length := h.length
  expressions_lt := h.expressions_lt
  values i vn v hvn hv :=
    (hval vn (h.expressions_lt vn (List.mem_of_getElem? hvn))).trans (h.values i vn v hvn hv)
  var_lt := h.var_lt
  var x vn hx hlast := (hval vn (h.var_lt x vn hx)).trans (h.var x vn hx hlast)
  bare := h.bare
  key_lt := h.key_lt
  key := h.key

theorem numbered_nil : Numbered S oracle start vnVal [] where
  length := rfl
  expressions_lt vn h := absurd h List.not_mem_nil
  values i vn v h := by simp [walkStmts, Engine.new] at h
  var_lt x vn h := by cases h
  var x vn h := by cases h
  bare x _ h := by cases h
  key_lt key vn h := by cases h
  key key vn h := by cases h

theorem execute_values_getElem {b₁ b₂ : List Stmt} {s : Stmt} :
    (execute S oracle start (b₁ ++ s :: b₂)).values[b₁.length]? =
      some ((s.value.eval S (execute S oracle start b₁).world).getD (oracle.value b₁.length)) := by
  induction b₂ using List.reverseRecOn with
  | nil =>
    have hlength : (execute S oracle start b₁).values.length = b₁.length := execute_values_length
    rw [execute_concat]
    simp [Run.step, ← hlength]
  | append_singleton b₂ t ih =>
    have hlt : b₁.length < (execute S oracle start (b₁ ++ s :: b₂)).values.length := by
      rw [execute_values_length]
      simp
    rw [← List.cons_append, ← List.append_assoc, execute_concat]
    unfold Run.step
    dsimp only
    rw [List.getElem?_append_left hlt, ih]

theorem Stmt.value_of_numbered {e : Expr} (h : stmt.numbered = some e) : stmt.value = e := by
  cases stmt with
  | assign target rhs => cases rhs <;> cases h; rfl
  | augAssign target value => cases h; rfl
  | expr value => cases h; rfl

theorem lastBinding_eq_none {x : String} (h : lastBinding before x = none) :
    ∀ t ∈ before, t.binding x = none := by
  induction before using List.reverseRecOn with
  | nil => simp
  | append_singleton before t ih =>
    rw [lastBinding_concat, Option.or_eq_none_iff] at h
    intro s hs
    cases List.mem_append.1 hs with
    | inl hs => exact ih h.2 s hs
    | inr hs => rw [List.mem_singleton.1 hs]; exact h.1

theorem exists_of_lastBinding {x : String} {binding : Binding}
    (h : lastBinding before x = some binding) : ∃ t ∈ before, t.binding x = some binding := by
  induction before using List.reverseRecOn with
  | nil => cases h
  | append_singleton before t ih =>
    rw [lastBinding_concat] at h
    cases ht : t.binding x with
    | none =>
      rw [ht, Option.none_or] at h
      obtain ⟨t', ht', hbinding⟩ := ih h
      exact ⟨t', by simp [ht'], hbinding⟩
    | some binding' =>
      rw [ht, Option.some_or] at h
      exact ⟨t, by simp, ht.trans h⟩

theorem exists_interp {reads : List Read} (S : Semantics V) (vnVal : Nat → V) (world : World V)
    (hsame : ∀ key part part', .text key part ∈ reads → .text key part' ∈ reads → part' = part) :
    ∃ I : Interp V, I.vn = vnVal ∧ I.world = world ∧
      ∀ key part, .text key part ∈ reads → I.text key = part.eval S world := by
  classical
  refine ⟨⟨vnVal, world, fun key =>
    if h : ∃ part, .text key part ∈ reads then h.choose.eval S world else none⟩, rfl, rfl, ?_⟩
  intro key part hpart
  have hex : ∃ part, .text key part ∈ reads := ⟨part, hpart⟩
  dsimp only
  rw [dif_pos hex, hsame key part hex.choose hpart hex.choose_spec]

/-- A key that has been entered is that of an expression without fresh numbers. -/
theorem KeyOf.closed {engine : Engine} (h : KeyOf engine stmt key next)
    (hlt : ∀ m, .id m ∈ key.leaves → m < engine.nextVn) :
    key.Closed ∧ ∃ e comm, stmt.numbered = some e ∧
      hashNodeInner engine.varVn e 1 engine.nextVn = (key, comm, engine.nextVn) ∧
      stmt.reads = e.reads := by
  have hspec := h.leaves
  have hle := hspec.le
  have hclosed : key.Closed := fun m hm => by
    have := hlt m hm
    have := hspec.id m hm
    omega
  have hnext : next = engine.nextVn := by
    by_contra hne
    obtain ⟨m, hm⟩ := hspec.fresh (by omega)
    exact hclosed m hm
  cases h with
  | @expr e comm he hkey =>
    subst hnext
    have hkeyed : e.isKeyed := isKeyed_of_next e 1 _ (by rw [hkey])
    refine ⟨hclosed, e, comm, he, hkey, ?_⟩
    unfold Stmt.reads
    rw [he]
    exact if_pos hkeyed
  | chain hnone hkey hchain => omega

theorem KeyOf.of_closed {engine : Engine} (h : KeyOf engine stmt key next) (hclosed : key.Closed) :
    ∃ e comm, stmt.numbered = some e ∧
      hashNodeInner engine.varVn e 1 engine.nextVn = (key, comm, engine.nextVn) ∧
      stmt.reads = e.reads :=
  (h.closed fun m hm => absurd hm (hclosed m)).2

theorem Numbered.isBare (h : Numbered S oracle start vnVal before) {x : String}
    (hsafe : NumberedSafely before stmt) (hx : .name x ∈ stmt.reads)
    (hvn : (walkStmts before).varVn x = none) : IsBare before x := by
  have hassigned := h.bare x hvn
  have huntracked := hsafe.tracked x hx
  unfold IsBare
  cases hlast : lastBinding before x with
  | none => exact .inl rfl
  | some binding =>
    rw [hlast] at hassigned huntracked
    cases binding with
    | assigned => exact absurd rfl hassigned
    | unpacked => exact .inr rfl
    | untracked => exact absurd rfl huntracked

/-- **An expression whose key is found has the value of the one that entered it.** -/
theorem value_of_found (h : ∀ b, b <+: before → Numbered S oracle start vnVal b)
    (hsafe : NumberedSafely before stmt) {next vn : Nat}
    (hkey : KeyOf (walkStmts before) stmt key next)
    (hfound : (walkStmts before).hashToVn key = some vn) :
    vnVal vn = (stmt.value.eval S (execute S oracle start before).world).getD
      (oracle.value before.length) := by
  have hn := h before (List.prefix_refl _)
  obtain ⟨hclosed, e, comm, he, hhash, hreads⟩ := hkey.closed (hn.key_lt key vn hfound).2
  obtain ⟨b₁, s, b₂, next₁, hbefore, hsafe₁, hkey₁, hvn⟩ := hn.key key vn hfound
  have hn₁ := h b₁ ⟨s :: b₂, hbefore.symm⟩
  obtain ⟨e₁, comm₁, he₁, hhash₁, hreads₁⟩ := hkey₁.of_closed hclosed
  -- the leaves of the key are read at both places
  have hspec : LeafSpec (walkStmts before).varVn e.reads (walkStmts before).nextVn
      (walkStmts before).nextVn key.leaves := by
    have := hashNodeInner_leaves (walkStmts before).varVn e 1 (walkStmts before).nextVn
    rwa [hhash] at this
  have hspec₁ : LeafSpec (walkStmts b₁).varVn e₁.reads (walkStmts b₁).nextVn
      (walkStmts b₁).nextVn key.leaves := by
    have := hashNodeInner_leaves (walkStmts b₁).varVn e₁ 1 (walkStmts b₁).nextVn
    rwa [hhash₁] at this
  have hkeyed : e.isKeyed := isKeyed_of_next e 1 _ (by rw [hhash])
  have hkeyed₁ : e₁.isKeyed := isKeyed_of_next e₁ 1 _ (by rw [hhash₁])
  have hone := hsafe.oneIndex e he hkeyed
  have hone₁ := hsafe₁.oneIndex e₁ he₁ hkeyed₁
  have hparts : ∀ k part, .text k part ∈ e.reads → ∀ part₁, .text k part₁ ∈ e₁.reads →
      part₁ = part ∧ part.isPure ∧ ∀ t ∈ s :: b₂, t.Keeps part :=
    fun k part hpart part₁ hpart₁ => hsafe.text k part (hreads ▸ hpart) b₁ s b₂ hbefore part₁
      (hreads₁ ▸ hpart₁)
  -- so neither expression contains a call
  have hpure : e.isPure := by
    refine isPure_of_isKeyed e hkeyed hone fun k part hpart => ?_
    obtain ⟨part₁, hpart₁⟩ := hspec₁.text k (hspec.texts rfl k part hpart)
    exact (hparts k part hpart part₁ hpart₁).2.1
  -- and the key stands for both values
  obtain ⟨I, hI, hIw, hIt⟩ := exists_interp S vnVal (execute S oracle start before).world
    fun k part part' hp hp' => hsafe.same k part part' (hreads ▸ hp) (hreads ▸ hp')
  obtain ⟨I₁, hI₁, hIw₁, hIt₁⟩ := exists_interp S vnVal (execute S oracle start b₁).world
    fun k part part' hp hp' => hsafe₁.same k part part' (hreads₁ ▸ hp) (hreads₁ ▸ hp')
  have hdenote : key.denote S I = e.eval S (execute S oracle start before).world := by
    have hmatches : I.Matches S (walkStmts before).varVn e.reads := by
      constructor
      case vn =>
        intro x n hx hxn
        rw [hI, hIw]
        exact hn.var x n hxn (hsafe.tracked x (hreads ▸ hx))
      case text => rwa [hIw]
    have := denote_hashNodeInner e 1 (walkStmts before).nextVn (by rw [hhash]) hone hmatches
    rwa [hhash, hIw] at this
  have hdenote₁ : key.denote S I₁ = e₁.eval S (execute S oracle start b₁).world := by
    have hmatches : I₁.Matches S (walkStmts b₁).varVn e₁.reads := by
      constructor
      case vn =>
        intro x n hx hxn
        rw [hI₁, hIw₁]
        exact hn₁.var x n hxn (hsafe₁.tracked x (hreads₁ ▸ hx))
      case text => rwa [hIw₁]
    have := denote_hashNodeInner e₁ 1 (walkStmts b₁).nextVn (by rw [hhash₁]) hone₁ hmatches
    rwa [hhash₁, hIw₁] at this
  have hagree : I₁.AgreeOn I key.leaves := by
    constructor
    case vn => intro n _; rw [hI, hI₁]
    case name =>
      intro x hx
      rw [hIw, hIw₁]
      obtain ⟨hread, hbare⟩ := hspec.name x hx
      obtain ⟨hread₁, hbare₁⟩ := hspec₁.name x hx
      have hnone : ∀ t ∈ s :: b₂, t.binding x = none := by
        cases hn.isBare hsafe (hreads ▸ hread) hbare with
        | inl hlast =>
          intro t ht
          exact lastBinding_eq_none hlast t (hbefore ▸ List.mem_append_right _ ht)
        | inr hlast =>
          exact hsafe.unpacked x (hreads ▸ hread) hlast b₁ s b₂ hbefore (hreads₁ ▸ hread₁)
            (hn₁.isBare hsafe₁ (hreads₁ ▸ hread₁) hbare₁)
      rw [hbefore]
      exact (execute_env hnone).symm
    case cell =>
      intro c hc
      rw [hIw, hIw₁, hbefore]
      exact execute_agreeOn (hsafe.cell c (hreads ▸ hspec.cell c hc) b₁ s b₂ hbefore
        (hreads₁ ▸ hspec₁.cell c hc))
    case text =>
      intro k hk
      obtain ⟨part, hpart⟩ := hspec.text k hk
      obtain ⟨part₁, hpart₁⟩ := hspec₁.text k hk
      obtain ⟨rfl, -, hkeeps⟩ := hparts k part hpart part₁ hpart₁
      rw [hIt k _ hpart, hIt₁ k _ hpart₁, hbefore]
      refine Expr.eval_congr _ ⟨fun x hx => ?_, fun c hc => ?_⟩
      · exact (execute_env fun t ht => (hkeeps t ht).name x hx).symm
      · exact execute_agreeOn fun t ht => (hkeeps t ht).cell c hc
  have heval : e₁.eval S (execute S oracle start b₁).world =
      e.eval S (execute S oracle start before).world := by
    rw [← hdenote, ← hdenote₁]
    exact denote_congr hagree
  have hvalue : vnVal vn = (s.value.eval S (execute S oracle start b₁).world).getD
      (oracle.value b₁.length) := by
    refine hn.values b₁.length vn _ hvn ?_
    rw [hbefore]
    exact execute_values_getElem
  rw [hvalue, Stmt.value_of_numbered he₁, Stmt.value_of_numbered he, heval]
  have hsome : (e.eval S (execute S oracle start before).world).isSome := by
    rw [Expr.eval_isSome]
    exact hpure
  obtain ⟨v, hv⟩ := Option.isSome_iff_exists.1 hsome
  rw [hv]
  rfl

theorem exists_vnVal (h : ∀ b, b <+: before → Numbered S oracle start vnVal b)
    (hsafe : NumberedSafely before stmt) {vn : Nat}
    (hnumbers : Numbers (walkStmts before) stmt vn engine') :
    ∃ vnVal' : Nat → V, (∀ n < (walkStmts before).nextVn, vnVal' n = vnVal n) ∧
      vnVal' vn = (stmt.value.eval S (execute S oracle start before).world).getD
        (oracle.value before.length) := by
  have hn := h before (List.prefix_refl _)
  cases hnumbers with
  | @known x hx hvn hhash hnext =>
    have hreads : .name x ∈ stmt.reads := by
      unfold Stmt.reads
      rw [hx]
      exact List.mem_singleton_self _
    refine ⟨vnVal, fun _ _ => rfl, ?_⟩
    rw [Stmt.value_of_numbered hx]
    exact hn.var x vn hvn (hsafe.tracked x hreads)
  | found hkey hvn hhash hnext => exact ⟨vnVal, fun _ _ => rfl, value_of_found h hsafe hkey hvn⟩
  | @fresh key next hkey hvn hhash hnext =>
    have hle := hkey.leaves.le
    refine ⟨update vnVal vn _, fun n hn => ?_, Function.update_self ..⟩
    exact Function.update_of_ne (by omega) _ _

theorem numberStmt_keys (hn : Numbered S oracle start vnVal before)
    (hsafe : NumberedSafely before stmt) {vn : Nat}
    (hnumbers : Numbers (walkStmts before) stmt vn engine')
    (hexpr : engine'.expressions = (walkStmts before).expressions ++ [vn]) :
    (walkStmts before).nextVn ≤ engine'.nextVn ∧ vn < engine'.nextVn ∧
    (∀ key n, engine'.hashToVn key = some n →
      n < engine'.nextVn ∧ ∀ m, .id m ∈ key.leaves → m < engine'.nextVn) ∧
    ∀ key n, engine'.hashToVn key = some n → ∃ b₁ s b₂ next, before ++ [stmt] = b₁ ++ s :: b₂ ∧
      NumberedSafely b₁ s ∧ KeyOf (walkStmts b₁) s key next ∧
      engine'.expressions[b₁.length]? = some n := by
  have hold : ∀ key n, (walkStmts before).hashToVn key = some n → ∃ b₁ s b₂ next,
      before ++ [stmt] = b₁ ++ s :: b₂ ∧ NumberedSafely b₁ s ∧ KeyOf (walkStmts b₁) s key next ∧
      engine'.expressions[b₁.length]? = some n := by
    intro key n hkey
    obtain ⟨b₁, s, b₂, next, hbefore, hsafe₁, hkeyOf, hget⟩ := hn.key key n hkey
    refine ⟨b₁, s, b₂ ++ [stmt], next, by rw [hbefore]; simp, hsafe₁, hkeyOf, ?_⟩
    obtain ⟨hlt, -⟩ := List.getElem?_eq_some_iff.1 hget
    rw [hexpr, List.getElem?_append_left hlt, hget]
  cases hnumbers with
  | known hx hvn hhash hnext =>
    rw [hhash, hnext]
    exact ⟨Nat.le_refl _, hn.var_lt _ vn hvn, hn.key_lt, hold⟩
  | found hkey hvn hhash hnext =>
    have hle := hkey.leaves.le
    rw [hhash, hnext]
    refine ⟨hle, Nat.lt_of_lt_of_le (hn.key_lt _ vn hvn).1 hle, fun key n hkn => ?_, hold⟩
    obtain ⟨h₁, h₂⟩ := hn.key_lt key n hkn
    exact ⟨Nat.lt_of_lt_of_le h₁ hle, fun m hm => Nat.lt_of_lt_of_le (h₂ m hm) hle⟩
  | @fresh key next hkey hvn hhash hnext =>
    have hspec := hkey.leaves
    have hle := hspec.le
    rw [hhash, hnext]
    refine ⟨by omega, by omega, fun key' n hkn => ?_, fun key' n hkn => ?_⟩
    · rw [Function.update_apply] at hkn
      split at hkn
      · next heq =>
        cases hkn
        refine ⟨by omega, fun m hm => ?_⟩
        have := hspec.id m (heq ▸ hm)
        omega
      · obtain ⟨h₁, h₂⟩ := hn.key_lt key' n hkn
        refine ⟨by omega, fun m hm => ?_⟩
        have := h₂ m hm
        omega
    · rw [Function.update_apply] at hkn
      split at hkn
      · next heq =>
        cases hkn
        refine ⟨before, stmt, [], next, rfl, hsafe, heq ▸ hkey, ?_⟩
        rw [hexpr, ← hn.length, List.getElem?_concat_length]
      · exact hold key' n hkn

/-! ## The engine's variables -/

theorem assignTargets_frame (engine : Engine) (vn : Nat) (target : Target) :
    (engine.assignTargets vn target).nextVn = engine.nextVn ∧
    (engine.assignTargets vn target).hashToVn = engine.hashToVn ∧
    (engine.assignTargets vn target).expressions = engine.expressions := by
  cases target with
  | name x => exact ⟨rfl, rfl, rfl⟩
  | «attribute» => exact ⟨rfl, rfl, rfl⟩
  | subscript => exact ⟨rfl, rfl, rfl⟩
  | pattern text items =>
    unfold Engine.assignTargets
    dsimp only
    induction items generalizing engine with
    | nil => exact ⟨rfl, rfl, rfl⟩
    | cons item items ih =>
      rw [List.foldl_cons]
      cases item with
      | name x => exact ih (engine.killVariable x)
      | other xs => exact ih engine

theorem assignTargets_pattern (engine : Engine) (vn : Nat) (text : String)
    (items : List PatternItem) (x : String) :
    (engine.assignTargets vn (.pattern text items)).varVn x =
      if .name x ∈ items then none else engine.varVn x := by
  unfold Engine.assignTargets
  dsimp only
  induction items generalizing engine with
  | nil => rfl
  | cons item items ih =>
    rw [List.foldl_cons]
    cases item with
    | name y =>
      rw [ih (engine.killVariable y)]
      by_cases hx : PatternItem.name x ∈ items
      · rw [if_pos hx, if_pos (List.mem_cons_of_mem _ hx)]
      · rw [if_neg hx]
        by_cases hxy : x = y
        · subst hxy
          rw [if_pos List.mem_cons_self]
          exact Function.update_self ..
        · rw [if_neg (by simp [hx, hxy])]
          exact Function.update_of_ne hxy _ _
    | other xs =>
      rw [ih engine]
      by_cases hx : PatternItem.name x ∈ items
      · rw [if_pos hx, if_pos (List.mem_cons_of_mem _ hx)]
      · rw [if_neg hx, if_neg (by simp [hx])]

/-- **The variables after an assignment**: the engine has the number of the right side for the
variable it assigns, none for those it unpacks, and the old ones for the others. -/
theorem assignTargets_varVn (engine : Engine) (vn : Nat) (target : Target) (rhs : Rhs)
    (x : String) (huntracked : (Stmt.assign target rhs).binding x ≠ some .untracked) :
    (engine.assignTargets vn target).varVn x =
      match (Stmt.assign target rhs).binding x with
      | some .assigned => some vn
      | some _ => none
      | none => engine.varVn x := by
  unfold Stmt.binding at huntracked ⊢
  dsimp only at huntracked ⊢
  split at huntracked
  · exact absurd rfl huntracked
  · next hx =>
    rw [if_neg hx]
    cases target with
    | name y =>
      by_cases hxy : y = x
      · subst hxy
        simp only [if_true]
        exact Function.update_self ..
      · simp only [if_neg hxy]
        exact Function.update_of_ne (Ne.symm hxy) _ _
    | «attribute» => rfl
    | subscript => rfl
    | pattern text items =>
      rw [assignTargets_pattern]
      dsimp only
      split <;> rfl

/-- The engine after a statement, given the one after its expression is numbered. -/
theorem walkStmt_frame (engine : Engine) (stmt : Stmt) :
    (engine.numberStmt stmt).2.nextVn ≤ (engine.walkStmt stmt).nextVn ∧
    (engine.walkStmt stmt).hashToVn = (engine.numberStmt stmt).2.hashToVn ∧
    (engine.walkStmt stmt).expressions = (engine.numberStmt stmt).2.expressions := by
  cases stmt with
  | assign target rhs =>
    obtain ⟨h₁, h₂, h₃⟩ := assignTargets_frame (engine.numberRhs rhs).2 (engine.numberRhs rhs).1
      target
    exact ⟨Nat.le_of_eq h₁.symm, h₂, h₃⟩
  | augAssign target value => exact ⟨Nat.le_succ _, rfl, rfl⟩
  | expr value => exact ⟨Nat.le_refl _, rfl, rfl⟩

/-- What a statement does to a variable of the engine. -/
inductive VarAfter (engine : Engine) (stmt : Stmt) (x : String) : Prop
  | kept (hbinding : stmt.binding x = none)
      (hvn : (engine.walkStmt stmt).varVn x = engine.varVn x)
  | assigned {target : Target} {rhs : Rhs} (hstmt : stmt = .assign target rhs)
      (hbinding : stmt.binding x = some .assigned)
      (hvn : (engine.walkStmt stmt).varVn x = some (engine.numberStmt stmt).1)
  | augmented {target : Target} {value : Expr} (hstmt : stmt = .augAssign target value)
      (htext : target.text = x)
      (hvn : (engine.walkStmt stmt).varVn x = some (engine.numberStmt stmt).2.nextVn)
      (hnext : (engine.numberStmt stmt).2.nextVn < (engine.walkStmt stmt).nextVn)
  | unpacked (hbinding : stmt.binding x = some .unpacked)
      (hvn : (engine.walkStmt stmt).varVn x = none)
  | untracked (hbinding : stmt.binding x = some .untracked)
      (hvn : ∀ n, (engine.walkStmt stmt).varVn x = some n →
        n = (engine.numberStmt stmt).1 ∨ engine.varVn x = some n)

theorem assignTargets_eq_some {engine : Engine} {vn n : Nat} {x : String}
    (h : (engine.assignTargets vn target).varVn x = some n) : n = vn ∨ engine.varVn x = some n := by
  cases target with
  | name y =>
    unfold Engine.assignTargets Engine.assignVariable at h
    dsimp only at h
    rw [Function.update_apply] at h
    split at h
    · exact .inl (Option.some.inj h).symm
    · exact .inr h
  | «attribute» => exact .inr h
  | subscript => exact .inr h
  | pattern text items =>
    rw [assignTargets_pattern] at h
    split at h
    · cases h
    · exact .inr h

theorem walkStmt_varAfter (engine : Engine) (stmt : Stmt) (x : String)
    (hsame : (engine.numberStmt stmt).2.varVn = engine.varVn) : VarAfter engine stmt x := by
  cases stmt with
  | assign target rhs =>
    have hwalk : engine.walkStmt (.assign target rhs) =
        (engine.numberStmt (.assign target rhs)).2.assignTargets
          (engine.numberStmt (.assign target rhs)).1 target := rfl
    by_cases huntracked : (Stmt.assign target rhs).binding x = some .untracked
    · refine .untracked huntracked fun n hn => ?_
      rw [hwalk] at hn
      have := assignTargets_eq_some hn
      rwa [hsame] at this
    · have hvn := assignTargets_varVn (engine.numberStmt (.assign target rhs)).2
        (engine.numberStmt (.assign target rhs)).1 target rhs x huntracked
      rw [← hwalk, hsame] at hvn
      cases hbinding : (Stmt.assign target rhs).binding x with
      | none => exact .kept hbinding (by rw [hvn, hbinding])
      | some binding =>
        cases binding with
        | assigned => exact .assigned rfl hbinding (by rw [hvn, hbinding])
        | unpacked => exact .unpacked hbinding (by rw [hvn, hbinding])
        | untracked => exact absurd hbinding huntracked
  | augAssign target value =>
    by_cases hx : x = target.text
    · subst hx
      exact .augmented rfl rfl (Function.update_self ..) (Nat.lt_succ_self _)
    · have hbinding : (Stmt.augAssign target value).binding x = none := by
        cases target with
        | name y => exact if_neg (Ne.symm hx)
        | _ => rfl
      refine .kept hbinding ?_
      rw [← hsame]
      exact (Function.update_of_ne hx _ _).trans (Function.update_of_ne hx _ _)
  | expr value => exact .kept rfl (congrFun hsame x)

/-- **One statement** keeps the invariant, with values for the numbers it takes. -/
theorem numbered_concat (h : ∀ b, b <+: before → Numbered S oracle start vnVal b)
    (hsafe : NumberedSafely before stmt) :
    ∃ vnVal' : Nat → V, (∀ n < (walkStmts before).nextVn, vnVal' n = vnVal n) ∧
      Numbered S oracle start vnVal' (before ++ [stmt]) := by
  have hn := h before (List.prefix_refl _)
  have hnumber : Numbers (walkStmts before) stmt ((walkStmts before).numberStmt stmt).1
      ((walkStmts before).numberStmt stmt).2 ∧
      ((walkStmts before).numberStmt stmt).2.varVn = (walkStmts before).varVn ∧
      ((walkStmts before).numberStmt stmt).2.expressions =
        (walkStmts before).expressions ++ [((walkStmts before).numberStmt stmt).1] :=
    numberStmt_numbers
  obtain ⟨hnumbers, hvar, hexpr⟩ := hnumber
  obtain ⟨vnVal₁, hagree₁, hvalue⟩ := exists_vnVal h hsafe hnumbers
  obtain ⟨hle, hlt, hkey_lt, hkey⟩ := numberStmt_keys hn hsafe hnumbers hexpr
  obtain ⟨hle', hhash, hexpr'⟩ := walkStmt_frame (walkStmts before) stmt
  -- the number that an augmented assignment makes up gets the value of its target
  let fresh := ((walkStmts before).numberStmt stmt).2.nextVn
  let vnVal₂ := update vnVal₁ fresh
    ((execute S oracle start (before ++ [stmt])).world.env (match stmt with
      | .augAssign target _ => target.text
      | _ => ""))
  have hagree₂ : ∀ n < fresh, vnVal₂ n = vnVal₁ n := fun n hn' =>
    Function.update_of_ne (Nat.ne_of_lt hn') _ _
  have hold : ∀ n < (walkStmts before).nextVn, vnVal₂ n = vnVal n := fun n hn' =>
    (hagree₂ n (Nat.lt_of_lt_of_le hn' hle)).trans (hagree₁ n hn')
  refine ⟨vnVal₂, hold, ?_⟩
  have hn₂ := hn.congr hold
  have hafter := fun x => walkStmt_varAfter (walkStmts before) stmt x hvar
  have hexprs : (walkStmts (before ++ [stmt])).expressions =
      (walkStmts before).expressions ++ [((walkStmts before).numberStmt stmt).1] := by
    rw [walkStmts_concat, hexpr', hexpr]
  constructor
  case length => rw [hexprs, List.length_append, hn.length]; simp
  case expressions_lt =>
    intro vn hvn
    rw [hexprs, List.mem_append, List.mem_singleton] at hvn
    rw [walkStmts_concat]
    refine Nat.lt_of_lt_of_le ?_ hle'
    cases hvn with
    | inl hvn => exact Nat.lt_of_lt_of_le (hn.expressions_lt vn hvn) hle
    | inr hvn => exact hvn ▸ hlt
  case values =>
    intro i vn v hvn hv
    rw [hexprs] at hvn
    rw [execute_concat] at hv
    unfold Run.step at hv
    dsimp only at hv
    by_cases hi : i < before.length
    · rw [List.getElem?_append_left (by rwa [hn.length])] at hvn
      rw [List.getElem?_append_left (by rwa [execute_values_length])] at hv
      exact hn₂.values i vn v hvn hv
    · obtain rfl : i = before.length := by
        have hlen := (List.getElem?_eq_some_iff.1 hvn).1
        rw [List.length_append, hn.length] at hlen
        simp only [List.length_singleton] at hlen
        omega
      rw [← hn.length, List.getElem?_concat_length] at hvn
      have hlen : (execute S oracle start before).values.length = before.length :=
        execute_values_length
      rw [← hlen, List.getElem?_concat_length] at hv
      cases hvn
      cases hv
      rw [hagree₂ _ hlt, hvalue, hlen]
  case key_lt =>
    intro key n hkn
    rw [walkStmts_concat] at hkn ⊢
    obtain ⟨h₁, h₂⟩ := hkey_lt key n (hhash ▸ hkn)
    exact ⟨Nat.lt_of_lt_of_le h₁ hle', fun m hm => Nat.lt_of_lt_of_le (h₂ m hm) hle'⟩
  case key =>
    intro key n hkn
    rw [walkStmts_concat] at hkn ⊢
    rw [hexpr']
    exact hkey key n (hhash ▸ hkn)
  case var_lt =>
    intro x n hx
    rw [walkStmts_concat] at hx ⊢
    have hold_lt : (walkStmts before).varVn x = some n →
        n < ((walkStmts before).walkStmt stmt).nextVn := fun hx =>
      Nat.lt_of_lt_of_le (Nat.lt_of_lt_of_le (hn.var_lt x n hx) hle) hle'
    cases hafter x with
    | kept hbinding hvn => exact hold_lt (hvn ▸ hx)
    | assigned hstmt hbinding hvn =>
      obtain rfl : _ = n := Option.some.inj (hvn.symm.trans hx)
      exact Nat.lt_of_lt_of_le hlt hle'
    | augmented hstmt htext hvn hnext =>
      obtain rfl : _ = n := Option.some.inj (hvn.symm.trans hx)
      exact hnext
    | unpacked hbinding hvn => rw [hvn] at hx; cases hx
    | untracked hbinding hvn =>
      cases hvn n hx with
      | inl heq => exact heq ▸ Nat.lt_of_lt_of_le hlt hle'
      | inr hx => exact hold_lt hx
  case var =>
    intro x n hx hlast
    rw [walkStmts_concat] at hx
    rw [lastBinding_concat] at hlast
    cases hafter x with
    | kept hbinding hvn =>
      rw [hbinding, Option.none_or] at hlast
      rw [execute_concat, step_env hbinding]
      exact hn₂.var x n (hvn ▸ hx) hlast
    | @assigned target rhs hstmt hbinding hvn =>
      subst hstmt
      obtain rfl : _ = n := Option.some.inj (hvn.symm.trans hx)
      rw [hagree₂ _ hlt, hvalue, execute_concat]
      unfold Run.step
      dsimp only
      rw [(Stmt.bindEnv_of_assigned hbinding).2, execute_values_length]
    | augmented hstmt htext hvn hnext =>
      subst hstmt htext
      obtain rfl : _ = n := Option.some.inj (hvn.symm.trans hx)
      exact Function.update_self ..
    | unpacked hbinding hvn => rw [hvn] at hx; cases hx
    | untracked hbinding hvn => rw [hbinding] at hlast; exact absurd rfl hlast
  case bare =>
    intro x hx
    rw [walkStmts_concat] at hx
    rw [lastBinding_concat]
    cases hafter x with
    | kept hbinding hvn =>
      rw [hbinding, Option.none_or]
      exact hn.bare x (hvn ▸ hx)
    | assigned hstmt hbinding hvn => rw [hvn] at hx; cases hx
    | augmented hstmt htext hvn hnext => rw [hvn] at hx; cases hx
    | unpacked hbinding hvn => rw [hbinding]; simp
    | untracked hbinding hvn => rw [hbinding]; simp

theorem walkStmt_nextVn_le (engine : Engine) (stmt : Stmt) :
    engine.nextVn ≤ (engine.walkStmt stmt).nextVn := by
  refine Nat.le_trans ?_ (walkStmt_frame engine stmt).1
  have hnumbers : Numbers engine stmt (engine.numberStmt stmt).1 (engine.numberStmt stmt).2 :=
    numberStmt_numbers.1
  cases hnumbers with
  | known hx hvn hhash hnext => exact Nat.le_of_eq hnext.symm
  | found hkey hvn hhash hnext => exact hnext ▸ hkey.leaves.le
  | fresh hkey hvn hhash hnext =>
    have hle := hkey.leaves.le
    omega

theorem walkStmts_nextVn_le {b : List Stmt} (h : b <+: before) :
    (walkStmts b).nextVn ≤ (walkStmts before).nextVn := by
  obtain ⟨b', rfl⟩ := h
  induction b' using List.reverseRecOn with
  | nil => simp
  | append_singleton b' t ih =>
    rw [← List.append_assoc, walkStmts_concat]
    exact Nat.le_trans ih (walkStmt_nextVn_le _ t)

theorem exists_numbered (S : Semantics V) (oracle : Oracle V) (start : World V)
    (hsafe : ∀ before stmt after, body = before ++ stmt :: after → NumberedSafely before stmt) :
    ∃ vnVal : Nat → V, ∀ b, b <+: body → Numbered S oracle start vnVal b := by
  induction body using List.reverseRecOn with
  | nil =>
    refine ⟨fun _ => start.env "", fun b hb => ?_⟩
    rw [List.prefix_nil.1 hb]
    exact numbered_nil
  | append_singleton body stmt ih =>
    obtain ⟨vnVal, hnumbered⟩ := ih fun before t after heq =>
      hsafe before t (after ++ [stmt]) (by rw [heq]; simp)
    obtain ⟨vnVal', hagree, hlast⟩ :=
      numbered_concat hnumbered (hsafe body stmt [] rfl)
    refine ⟨vnVal', fun b hb => ?_⟩
    cases List.prefix_concat_iff.1 hb with
    | inl heq => exact heq ▸ hlast
    | inr hb =>
      exact (hnumbered b hb).congr fun n hlt =>
        hagree n (Nat.lt_of_lt_of_le hlt (walkStmts_nextVn_le hb))

end Invariant

/-- **Expressions with one value number have one value**, in every execution of a body whose
statements are all numbered safely. -/
theorem sameValues_of_safe {body : List Stmt}
    (hsafe : ∀ before stmt after, body = before ++ stmt :: after → NumberedSafely before stmt) :
    SameValues body := by
  intro V S oracle start i j vn v w hi hj hv hw
  obtain ⟨vnVal, hnumbered⟩ := exists_numbered S oracle start hsafe
  have hn := hnumbered body (List.prefix_refl _)
  exact (hn.values i vn v hi hv).symm.trans (hn.values j vn w hj hw)

/-- `x = a + b; a = x; y = b + a` -/
theorem sameValues_of_safe_sum : SameValues
    [.assign (.name "x") (.expr (.binary "+" (.name "a") (.name "b"))),
      .assign (.name "a") (.expr (.name "x")),
      .assign (.name "y") (.expr (.binary "+" (.name "b") (.name "a")))] := by
  apply sameValues_of_safe
  intro before stmt after hbody
  have hmem : stmt ∈ before ++ stmt :: after := by simp
  have hreads : ∀ read ∈ stmt.reads, ∃ x ∈ ["x", "a", "b"], read = .name x := by
    rw [← hbody] at hmem
    simp only [List.mem_cons, List.not_mem_nil, or_false] at hmem
    rcases hmem with rfl | rfl | rfl <;>
      simp [Stmt.reads, Stmt.numbered, Expr.isKeyed, Expr.reads]
  have hone : ∀ e, stmt.numbered = some e → e.hasOneIndex := by
    rw [← hbody] at hmem
    simp only [List.mem_cons, List.not_mem_nil, or_false] at hmem
    rcases hmem with rfl | rfl | rfl <;> simp [Stmt.numbered, Expr.hasOneIndex]
  have hassigned : ∀ t ∈ before ++ stmt :: after, ∀ x binding, t.binding x = some binding →
      binding = .assigned := by
    intro t ht x binding hx
    rw [← hbody] at ht
    simp only [List.mem_cons, List.not_mem_nil, or_false] at ht
    rcases ht with rfl | rfl | rfl <;>
    · simp only [Stmt.binding, Rhs.targets, Target.nested, List.flatMap_nil, List.not_mem_nil,
        or_self, if_false, Option.ite_none_right_eq_some] at hx
      exact (Option.some.inj hx.2).symm
  have hlast : ∀ x binding, lastBinding before x = some binding → binding = .assigned := by
    intro x binding h
    obtain ⟨t, ht, hbinding⟩ := exists_of_lastBinding h
    exact hassigned t (List.mem_append_left _ ht) x binding hbinding
  constructor
  case tracked => exact fun x _ h => Binding.noConfusion (hlast x _ h)
  case oneIndex => exact fun e he _ => hone e he
  case unpacked => exact fun x _ h => Binding.noConfusion (hlast x _ h)
  case cell =>
    intro c hc
    obtain ⟨x, -, h⟩ := hreads _ hc
    cases h
  case text =>
    intro key part hpart
    obtain ⟨x, -, h⟩ := hreads _ hpart
    cases h
  case same =>
    intro key part part' hpart
    obtain ⟨x, -, h⟩ := hreads _ hpart
    cases h

/-- `c = a < b; a = 5; d = a < b` -/
def compareAgain : List Stmt :=
  let less := Expr.compare ["a", "<", "b"] ["<"] (.cons (.name "a") (.cons (.name "b") .nil))
  [.assign (.name "c") (.expr less),
    .assign (.name "a") (.expr (.const .integer "5")),
    .assign (.name "d") (.expr less)]

/-- The second comparison has the number of the first, and not its value. -/
theorem sameValues_compareAgain : ¬ SameValues compareAgain := by
  intro h
  let S : Semantics Nat :=
    { const := fun _ _ => 5
      string := fun _ _ => 0
      binary := fun _ a b => a + b
      unary := fun _ a => a
      boolean := fun _ a b => a + b
      compare := fun _ vs => if vs[0]?.getD 0 < vs[1]?.getD 0 then 1 else 0
      comm := fun _ _ a b => Nat.add_comm a b }
  let oracle : Oracle Nat := ⟨fun _ => 0, fun _ _ => 0, fun _ _ _ => 0, fun _ _ _ => 0⟩
  let start : World Nat :=
    { env := fun x => if x = "b" then 3 else 1, attr := fun _ _ => 0, item := fun _ _ => 0 }
  have := h Nat S oracle start 0 2 0 1 0 (by decide +kernel) (by decide +kernel) (by decide +kernel)
    (by decide +kernel)
  cases this

end TldrCode.Gvn
