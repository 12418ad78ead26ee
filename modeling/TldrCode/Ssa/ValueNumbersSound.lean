import TldrCode.Ssa.SccpOrder
import TldrCode.Ssa.ValueNumbers

/-!
# When names with one value number have one value

Executions of a function in SSA form, with any meaning of its instructions. Names of one number have
equal values wherever both are in scope (`NumbersSound`), if what shares a key computes the same:
`valueNumbers_sound`. The keys drop operands that have no number yet, the blocks of phi functions,
the operands of an operation but two, and the difference of two parameters on one line.
-/

namespace TldrCode.Ssa

open Function (update)
open TldrCode.Graph

/-! ## Executions -/

/-- The instruction has the value of an expression over its operands. -/
def SsaInstruction.Computes (inst : SsaInstruction) : Prop :=
  inst.kind = .assign ∨ inst.kind = .binaryOp ∨ inst.kind = .unaryOp

section Executions

variable {V : Type} (ssa : SsaFunction) (entry : Nat) (eval : SsaInstruction → List V → V)

/-- The value of an instruction: that of its expression, or any for parameters and calls. It has
none if an operand has none. -/
def Evaluates (inst : SsaInstruction) (env : Nat → Option V) (value : Option V) : Prop :=
  inst.Computes →
    (∃ vals, inst.uses.map env = vals.map some ∧ value = some (eval inst vals)) ∨
      (∃ u ∈ inst.uses, env u = none) ∧ value = none

/-- The values after the phi functions of a block that is entered from `prev`. -/
def SsaBlock.selected (block : SsaBlock) (prev : Option Nat) (env : Nat → Option V) :
    Nat → Option V := fun name =>
  match block.phiFunctions.find? (·.target == name) with
  | some phi => (phi.sources.find? fun source => prev == some source.block).bind (env ·.name)
  | none => env name

def SsaInstruction.assigned (inst : SsaInstruction) (env : Nat → Option V) (value : Option V) :
    Nat → Option V :=
  match inst.target with
  | some target => update env target value
  | none => env

/-- The points that executions reach, after the phi functions of a block and some of its
instructions, if they enter only blocks with the property `Met`. -/
inductive Reaches (Met : SsaBlock → Prop) : SsaBlock → Nat → (Nat → Option V) → Prop
  | start {block : SsaBlock} (hblock : block ∈ ssa.blocks) (hentry : block.id = entry)
    (hmet : Met block) : Reaches Met block 0 (block.selected none fun _ => none)
  | inst {block : SsaBlock} {k : Nat} {env : Nat → Option V} {inst : SsaInstruction}
    {value : Option V} (h : Reaches Met block k env) (hinst : block.instructions[k]? = some inst)
    (hvalue : Evaluates eval inst env value) : Reaches Met block (k + 1) (inst.assigned env value)
  | edge {block next : SsaBlock} {env : Nat → Option V}
    (h : Reaches Met block block.instructions.length env) (hnext : next ∈ ssa.blocks)
    (hedge : next.id ∈ block.successors) (hmet : Met next) :
    Reaches Met next 0 (next.selected (some block.id) env)

/-- The names that a block defines in its phi functions and its first instructions. -/
def SsaBlock.before (block : SsaBlock) (k : Nat) : List Nat :=
  block.phiFunctions.map (·.target) ++ (block.instructions.take k).filterMap (·.target)

/-- The definition of the name dominates the point. -/
def InScope (block : SsaBlock) (k : Nat) (n : Nat) : Prop :=
  n ∈ block.before k ∨ ∃ d ∈ ssa.blocks, n ∈ d.targets ∧ SDom ssa.Edge entry d.id block.id

/-- **Names with one number have one value** wherever both are defined. -/
def NumbersSound (ord : HashOrder) (Met : SsaBlock → Prop) : Prop :=
  ∀ block k env, Reaches ssa entry eval Met block k env → ∀ n m v,
    InScope ssa entry block k n → InScope ssa entry block k m →
      (computeValueNumbers ord ssa).valueNumbers n = some v →
        (computeValueNumbers ord ssa).valueNumbers m = some v →
          ∀ x y, env n = some x → env m = some y → x = y

/-- Names are defined once, before they are used. -/
structure InSsaForm : Prop where
  ids : (ssa.blocks.map (·.id)).Nodup
  targets : ssa.targets.Nodup
  uses : ∀ block ∈ ssa.blocks, ∀ (k : Nat) (inst : SsaInstruction),
    block.instructions[k]? = some inst → ∀ u ∈ inst.uses, u ∈ ssa.targets →
      InScope ssa entry block k u
  sources : ∀ block ∈ ssa.blocks, ∀ phi ∈ block.phiFunctions, ∀ source ∈ phi.sources,
    source.name ∈ ssa.targets → ∀ p ∈ ssa.blocks, p.id = source.block →
      InScope ssa entry p p.instructions.length source.name

/-- The numbers when the walk comes to the definition number `i`. -/
def numbersBefore (i : Nat) : Nat → Option Nat := (stateAt ssa i).valueNumbers

/-- What the definition number `i` is numbered by. -/
def keyAt (i : Nat) (d : ValueDef) (t : Nat) : InstNumber :=
  d.instNumber (numbersBefore ssa i) t (stateAt ssa i).callCounter

/-- Definitions that compute the same: phi functions of one block with the same blocks as sources,
all of them numbered, and instructions that apply one operation to numbered operands of the same
numbers, or to two in the other order. -/
def SameComputation (i j : Nat) : ValueDef → ValueDef → Prop
  | .phi b f, .phi c g => b = c ∧ f.sources.map (·.block) = g.sources.map (·.block) ∧
      (∀ source ∈ f.sources, (numbersBefore ssa i source.name).isSome) ∧
      ∀ source ∈ g.sources, (numbersBefore ssa j source.name).isSome
  | .inst p, .inst q => p.Computes ∧ q.Computes ∧
      ((∃ numbers : List Nat, p.uses.map (numbersBefore ssa i) = numbers.map some ∧
        q.uses.map (numbersBefore ssa j) = numbers.map some ∧
        ∀ vals, vals.length = numbers.length → eval p vals = eval q vals) ∨
      ∃ a b : Nat, p.uses.map (numbersBefore ssa i) = [some a, some b] ∧
        q.uses.map (numbersBefore ssa j) = [some b, some a] ∧
        ∀ x y, eval p [x, y] = eval q [y, x])
  | _, _ => False

/-- The keys of the block say what is computed: what is taken for a copy is one, and another
definition in scope that has the same key computes the same. -/
structure KeysMeanValues (block : SsaBlock) : Prop where
  copies : ∀ (i : Nat) (inst : SsaInstruction) (t v : Nat), ssa.valueDefs[i]? = some (.inst inst) →
    inst ∈ block.instructions → inst.target = some t → keyAt ssa i (.inst inst) t = .copy v →
      inst.kind = .assign ∧ ∃ u, inst.uses = [u] ∧ ∀ x, eval inst [x] = x
  shared : ∀ (i j : Nat) (d d' : ValueDef) (t t' : Nat) (e : CanonicalExpr), i ≠ j →
    ssa.valueDefs[i]? = some d → d ∈ block.valueDefs → d.numbered = some t →
    ssa.valueDefs[j]? = some d' → d'.numbered = some t' →
    InScope ssa entry block block.instructions.length t' →
    keyAt ssa i d t = .expr e → keyAt ssa j d' t' = .expr e → SameComputation ssa eval i j d d'

end Executions

/-! ## Definitions of names -/

section Definitions

variable {V : Type} {ssa : SsaFunction} {entry : Nat} {eval : SsaInstruction → List V → V}
  {env : Nat → Option V} {block : SsaBlock} {d d' : ValueDef} {i j k n m t v : Nat}

/-- The definition number `i` is `d`, of the name `n`. -/
def DefinedAt (ssa : SsaFunction) (i : Nat) (d : ValueDef) (n : Nat) : Prop :=
  ssa.valueDefs[i]? = some d ∧ d.numbered = some n

/-- The name that a definition assigns, numbered or not. -/
def ValueDef.target : ValueDef → Option Nat
  | .phi _ f => some f.target
  | .inst instr => instr.target

theorem ValueDef.target_of_numbered (ht : d.numbered = some t) : d.target = some t := by
  cases d with
  | phi b f => exact ht
  | inst instr =>
    rw [numbered] at ht
    split_ifs at ht
    exact ht

theorem numbered_mem_targets {block : SsaBlock} (hd : d ∈ block.valueDefs)
    (ht : d.numbered = some t) : t ∈ block.targets := by
  rw [SsaBlock.valueDefs, List.mem_append, List.mem_map, List.mem_map] at hd
  rw [SsaBlock.targets, List.mem_append, List.mem_map, List.mem_filterMap]
  rcases hd with ⟨f, hf, rfl⟩ | ⟨inst, hinst, rfl⟩
  · exact .inl ⟨f, hf, Option.some_inj.1 ht⟩
  · exact .inr ⟨inst, hinst, ValueDef.target_of_numbered ht⟩

theorem targets_eq_filterMap (ssa : SsaFunction) :
    ssa.targets = ssa.valueDefs.filterMap (·.target) := by
  rw [SsaFunction.targets, SsaFunction.valueDefs, List.filterMap_flatMap]
  congr 1
  funext block
  rw [SsaBlock.targets, SsaBlock.valueDefs, List.filterMap_append, List.filterMap_map,
    List.filterMap_map]
  exact congrArg (· ++ _) (congrFun List.filterMap_eq_map block.phiFunctions).symm

theorem mem_valueDefs : d ∈ ssa.valueDefs ↔ ∃ block ∈ ssa.blocks, d ∈ block.valueDefs :=
  List.mem_flatMap

section Nodup

variable (h : ssa.targets.Nodup)
include h

theorem numbered_nodup : (ssa.valueDefs.filterMap (·.numbered)).Nodup :=
  (filterMap_numbered_sublist ssa).nodup h

theorem eq_of_target (hd : ssa.valueDefs[i]? = some d) (ht : d.target = some n)
    (hd' : ssa.valueDefs[j]? = some d') (ht' : d'.target = some n) : i = j := by
  rw [targets_eq_filterMap] at h
  have hpair := List.pairwise_filterMap.1 h
  rw [List.pairwise_iff_getElem] at hpair
  obtain ⟨hi, hdi⟩ := List.getElem?_eq_some_iff.1 hd
  obtain ⟨hj, hdj⟩ := List.getElem?_eq_some_iff.1 hd'
  rcases Nat.lt_trichotomy i j with hlt | heq | hlt
  · exact absurd rfl (hpair i j hi hj hlt n (hdi ▸ ht) n (hdj ▸ ht'))
  · exact heq
  · exact absurd rfl (hpair j i hj hi hlt n (hdj ▸ ht') n (hdi ▸ ht))

/-- A number that the walk has at a definition is that of an earlier definition. -/
theorem exists_definedAt_of_numbersBefore (hv : numbersBefore ssa i n = some v) :
    (numbering ssa).valueNumbers n = some v ∧ ∃ j < i, ∃ d, DefinedAt ssa j d n := by
  rw [numbersBefore, stateAt_valueNumbers (numbered_nodup h), numberAt] at hv
  split_ifs at hv with hn
  refine ⟨hv, ?_⟩
  rw [earlier, List.mem_filterMap] at hn
  obtain ⟨d, hd, hdn⟩ := hn
  obtain ⟨j, hj⟩ := List.mem_iff_getElem?.1 hd
  have hji : j < i := by
    have hlen := (List.getElem?_eq_some_iff.1 hj).1
    rw [List.length_take] at hlen
    omega
  rw [List.getElem?_take_of_lt hji] at hj
  exact ⟨j, hji, d, hj, hdn⟩

theorem number_spec (hd : DefinedAt ssa i d n) :
    (∃ v, keyAt ssa i d n = .copy v ∧ (numbering ssa).valueNumbers n = some v) ∨
      ∃ e v, keyAt ssa i d n = .expr e ∧ (numbering ssa).valueNumbers n = some v ∧
        (numbering ssa).exprToNumber e = some v := by
  have hspec := valueNumbers_spec (numbered_nodup h) hd.1 hd.2
  rw [← stateAt_valueNumbers (numbered_nodup h)] at hspec
  rcases hspec with hcopy | ⟨e, v, hkey, hnum, htable, -⟩
  · exact .inl hcopy
  · exact .inr ⟨e, v, hkey, hnum, htable⟩

omit h in
theorem mem_targets_of_definedAt (hd : DefinedAt ssa i d n) : n ∈ ssa.targets :=
  (filterMap_numbered_sublist ssa).subset
    (List.mem_filterMap.2 ⟨d, List.mem_of_getElem? hd.1, hd.2⟩)

theorem exists_definedAt (hv : (numbering ssa).valueNumbers n = some v) :
    ∃ i d, DefinedAt ssa i d n := by
  have hbefore : numbersBefore ssa ssa.valueDefs.length n = some v := by
    rw [numbersBefore, stateAt, List.take_length, ← numbering_eq_foldl]
    exact hv
  obtain ⟨-, j, -, d, hd⟩ := exists_definedAt_of_numbersBefore h hbefore
  exact ⟨j, d, hd⟩

end Nodup

theorem SameComputation.symm (h : SameComputation ssa eval i j d d') :
    SameComputation ssa eval j i d' d := by
  cases d with
  | phi b f =>
    cases d' with
    | phi c g => exact ⟨h.1.symm, h.2.1.symm, h.2.2.2, h.2.2.1⟩
    | inst q => exact h
  | inst p =>
    cases d' with
    | phi c g => exact h
    | inst q =>
      obtain ⟨hp, hq, hsame⟩ := h
      refine ⟨hq, hp, ?_⟩
      rcases hsame with ⟨numbers, hps, hqs, heval⟩ | ⟨a, b, hps, hqs, heval⟩
      · exact .inl ⟨numbers, hqs, hps, fun vals hvals => (heval vals hvals).symm⟩
      · exact .inr ⟨b, a, hqs, hps, fun x y => (heval y x).symm⟩

end Definitions

/-! ## What holds of the names in scope -/

section Invariant

variable {V : Type} {ssa : SsaFunction} {eval : SsaInstruction → List V → V} {S : Nat → Prop}
  {env : Nat → Option V} {d d' : ValueDef} {i j n m v : Nat} {x y : V}

/-- The invariant of the names in scope: the operands of a name in scope are in scope and still have
the values that it was computed from, and the keys of the names say what is computed. -/
structure ScopeInv (ssa : SsaFunction) (eval : SsaInstruction → List V → V) (S : Nat → Prop)
    (env : Nat → Option V) : Prop where
  closed : ∀ n, S n → ∀ i inst, DefinedAt ssa i (.inst inst) n → ∀ u ∈ inst.uses,
    u ∈ ssa.targets → S u
  computed : ∀ n, S n → ∀ i inst, DefinedAt ssa i (.inst inst) n →
    Evaluates eval inst env (env n)
  copies : ∀ n, S n → ∀ i inst v, DefinedAt ssa i (.inst inst) n →
    keyAt ssa i (.inst inst) n = .copy v →
      inst.kind = .assign ∧ ∃ u, inst.uses = [u] ∧ ∀ x, eval inst [x] = x
  shared : ∀ n m, S n → S m → ∀ i j d d' e, i ≠ j → DefinedAt ssa i d n → DefinedAt ssa j d' m →
    keyAt ssa i d n = .expr e → keyAt ssa j d' m = .expr e → SameComputation ssa eval i j d d'
  phis : ∀ n m, S n → S m → ∀ i j b f g e, i ≠ j → DefinedAt ssa i (.phi b f) n →
    DefinedAt ssa j (.phi b g) m → keyAt ssa i (.phi b f) n = .expr e →
      keyAt ssa j (.phi b g) m = .expr e → ∀ x y, env n = some x → env m = some y → x = y

theorem Evaluates.exists_vals {inst : SsaInstruction} {value : Option V}
    (h : Evaluates eval inst env value) (hcomputes : inst.Computes) (hx : value = some x) :
    ∃ vals, inst.uses.map env = vals.map some ∧ x = eval inst vals := by
  rcases h hcomputes with ⟨vals, hvals, hvalue⟩ | ⟨-, hvalue⟩
  · exact ⟨vals, hvals, Option.some_inj.1 (hx.symm.trans hvalue)⟩
  · rw [hx] at hvalue
    cases hvalue

theorem operands_eq {f g : Nat → Option Nat} (numbers : List Nat) : ∀ {us ws : List Nat}
    {vals vals' : List V}, us.map f = numbers.map some → ws.map g = numbers.map some →
    us.map env = vals.map some → ws.map env = vals'.map some →
    (∀ u ∈ us, ∀ w ∈ ws, ∀ v x y, f u = some v → g w = some v → env u = some x →
      env w = some y → x = y) → vals = vals' ∧ vals.length = numbers.length := by
  induction numbers with
  | nil =>
    intro us ws vals vals' hus hws hvals hvals' _
    rw [List.map_nil, List.map_eq_nil_iff] at hus hws
    rw [hus, List.map_nil, eq_comm, List.map_eq_nil_iff] at hvals
    rw [hws, List.map_nil, eq_comm, List.map_eq_nil_iff] at hvals'
    exact ⟨by rw [hvals, hvals'], by rw [hvals, List.length_nil, List.length_nil]⟩
  | cons a numbers ih =>
    intro us ws vals vals' hus hws hvals hvals' hagree
    obtain ⟨u, us, rfl, hu, hus⟩ := List.map_eq_cons_iff.1 hus
    obtain ⟨w, ws, rfl, hw, hws⟩ := List.map_eq_cons_iff.1 hws
    rw [List.map_cons, eq_comm, List.map_eq_cons_iff] at hvals hvals'
    obtain ⟨x, vals, rfl, hx, hvals⟩ := hvals
    obtain ⟨y, vals', rfl, hy, hvals'⟩ := hvals'
    have heq : x = y := hagree u List.mem_cons_self w List.mem_cons_self a x y hu hw hx.symm hy.symm
    obtain ⟨hrest, hlength⟩ := ih hus hws hvals.symm hvals'.symm
      fun u hu w hw => hagree u (List.mem_cons_of_mem _ hu) w (List.mem_cons_of_mem _ hw)
    exact ⟨by rw [heq, hrest], by rw [List.length_cons, List.length_cons, hlength]⟩

variable (h : ssa.targets.Nodup) (hinv : ScopeInv ssa eval S env)
include h hinv

/-- **Copies** lead to an expression of the same number and value. -/
theorem ScopeInv.exists_expr : ∀ i n d, S n → DefinedAt ssa i d n → env n = some x →
    (numbering ssa).valueNumbers n = some v → ∃ j ≤ i, ∃ m d' e, S m ∧ DefinedAt ssa j d' m ∧
      env m = some x ∧ keyAt ssa j d' m = .expr e ∧ (numbering ssa).exprToNumber e = some v := by
  intro i
  induction i using Nat.strong_induction_on with
  | _ i ih =>
    intro n d hn hd hx hv
    rcases number_spec h hd with ⟨v', hkey, hv'⟩ | ⟨e, v', hkey, hv', htable⟩
    · obtain rfl : v' = v := Option.some_inj.1 (hv'.symm.trans hv)
      cases d with
      | phi b f => cases hkey
      | inst inst =>
        obtain ⟨hkind, u, huses, heval⟩ := hinv.copies n hn i inst v' hd hkey
        obtain ⟨vals, hvals, hxvals⟩ :=
          (hinv.computed n hn i inst hd).exists_vals (.inl hkind) hx
        -- the number of a copy is that of its operand
        have hnumber : numbersBefore ssa i u = some v' := by
          rw [keyAt, ValueDef.instNumber, huses, canonicalExpr, hkind] at hkey
          cases hu : numbersBefore ssa i u with
          | none => simp [hu, assignExpr] at hkey
          | some number =>
            simp only [List.filterMap_cons, hu, List.filterMap_nil, assignExpr,
              InstNumber.copy.injEq] at hkey
            rw [hkey]
        obtain ⟨hnum, j, hji, d', hd'⟩ := exists_definedAt_of_numbersBefore h hnumber
        rw [huses, List.map_singleton, eq_comm, List.map_eq_singleton_iff] at hvals
        obtain ⟨x', rfl, hx'⟩ := hvals
        rw [heval] at hxvals
        have hu : S u := hinv.closed n hn i inst hd u (huses ▸ List.mem_singleton_self u)
          (mem_targets_of_definedAt hd')
        obtain ⟨j', hj', rest⟩ := ih j hji u d' hu hd' (hxvals ▸ hx'.symm) hnum
        exact ⟨j', hj'.trans hji.le, rest⟩
    · obtain rfl : v' = v := Option.some_inj.1 (hv'.symm.trans hv)
      exact ⟨i, le_rfl, n, d, e, hn, hd, hx, hkey, htable⟩

/-- **Names of one number** have one value. -/
theorem ScopeInv.agree (bound : Nat) : ∀ {i j n m v : Nat} {d d' : ValueDef} {x y : V}, i < bound →
    j < bound → S n → S m → DefinedAt ssa i d n → DefinedAt ssa j d' m →
    (numbering ssa).valueNumbers n = some v → (numbering ssa).valueNumbers m = some v →
      env n = some x → env m = some y → x = y := by
  induction bound with
  | zero => exact fun hi => absurd hi (Nat.not_lt_zero _)
  | succ bound ih =>
    intro i j n m v d d' x y hi hj hn hm hd hd' hnum hnum' hx hy
    obtain ⟨i', hi', n', p, e, hn', hp, hx', hkey, htable⟩ := hinv.exists_expr h i n d hn hd hx hnum
    obtain ⟨j', hj', m', q, e', hm', hq, hy', hkey', htable'⟩ :=
      hinv.exists_expr h j m d' hm hd' hy hnum'
    obtain rfl := (numbering_tableOk ssa).inj e e' v htable htable'
    by_cases heq : i' = j'
    · subst heq
      obtain rfl := Option.some_inj.1 (hp.1.symm.trans hq.1)
      obtain rfl := Option.some_inj.1 (hp.2.symm.trans hq.2)
      exact Option.some_inj.1 (hx'.symm.trans hy')
    have hsame := hinv.shared n' m' hn' hm' i' j' p q e heq hp hq hkey hkey'
    -- the operands have numbers that were handed out before
    have hoperands : ∀ {us ws : List Nat}, (∀ u ∈ us, u ∈ ssa.targets → S u) →
        (∀ w ∈ ws, w ∈ ssa.targets → S w) → ∀ u ∈ us, ∀ w ∈ ws, ∀ v x y,
          numbersBefore ssa i' u = some v → numbersBefore ssa j' w = some v →
            env u = some x → env w = some y → x = y := by
      intro us ws hus hws u hu w hw v x y hv hv' hx hy
      obtain ⟨hnu, iu, hiu, du, hdu⟩ := exists_definedAt_of_numbersBefore h hv
      obtain ⟨hnw, iw, hiw, dw, hdw⟩ := exists_definedAt_of_numbersBefore h hv'
      exact ih (by omega) (by omega) (hus u hu (mem_targets_of_definedAt hdu))
        (hws w hw (mem_targets_of_definedAt hdw)) hdu hdw hnu hnw hx hy
    cases p with
    | phi b f =>
      cases q with
      | phi c g =>
        obtain rfl := hsame.1
        exact hinv.phis n' m' hn' hm' i' j' b f g e heq hp hq hkey hkey' x y hx' hy'
      | inst q => exact hsame.elim
    | inst p =>
      cases q with
      | phi c g => exact hsame.elim
      | inst q =>
        obtain ⟨hpc, hqc, hsame⟩ := hsame
        obtain ⟨vals, hvals, rfl⟩ := (hinv.computed n' hn' i' p hp).exists_vals hpc hx'
        obtain ⟨vals', hvals', rfl⟩ := (hinv.computed m' hm' j' q hq).exists_vals hqc hy'
        have hpu := hinv.closed n' hn' i' p hp
        have hqu := hinv.closed m' hm' j' q hq
        rcases hsame with ⟨numbers, hps, hqs, heval⟩ | ⟨a, b, hps, hqs, heval⟩
        · obtain ⟨rfl, hlength⟩ := operands_eq numbers hps hqs hvals hvals' (hoperands hpu hqu)
          exact heval vals hlength
        · have hqr : q.uses.reverse.map (numbersBefore ssa j') = [a, b].map some := by
            rw [List.map_reverse, hqs]
            rfl
          have hvr : q.uses.reverse.map env = vals'.reverse.map some := by
            rw [List.map_reverse, hvals', List.map_reverse]
          obtain ⟨hrev, hlength⟩ := operands_eq [a, b] hps hqr hvals hvr
            (hoperands hpu fun w hw => hqu w (List.mem_reverse.1 hw))
          obtain ⟨x, y, rfl⟩ := List.length_eq_two.1 hlength
          have hvals'' : vals' = [y, x] := by
            rw [← List.reverse_reverse vals', ← hrev]
            rfl
          rw [hvals'']
          exact heval x y

end Invariant

/-! ## Steps -/

section Steps

variable {V : Type} {ssa : SsaFunction} {entry : Nat} {eval : SsaInstruction → List V → V}
  {S S' : Nat → Prop} {env : Nat → Option V} {block : SsaBlock} {inst : SsaInstruction}
  {prev : Option Nat} {value : Option V} {d d' : ValueDef} {i j k n m t v : Nat} {x y : V}

theorem Evaluates.congr {env' : Nat → Option V} (h : Evaluates eval inst env value)
    (henv : ∀ u ∈ inst.uses, env' u = env u) : Evaluates eval inst env' value := by
  intro hcomputes
  refine (h hcomputes).imp ?_ ?_
  · rintro ⟨vals, hvals, hvalue⟩
    exact ⟨vals, (List.map_congr_left henv).trans hvals, hvalue⟩
  · rintro ⟨⟨u, hu, hnone⟩, hvalue⟩
    exact ⟨⟨u, hu, (henv u hu).trans hnone⟩, hvalue⟩

/-- What a definition has to be numbered by when its name comes into scope. -/
structure KeyOk (ssa : SsaFunction) (eval : SsaInstruction → List V → V) (S : Nat → Prop)
    (i : Nat) (d : ValueDef) (t : Nat) : Prop where
  copies : ∀ instr v, d = .inst instr → keyAt ssa i (.inst instr) t = .copy v →
    instr.kind = .assign ∧ ∃ u, instr.uses = [u] ∧ ∀ x, eval instr [x] = x
  shared : ∀ m, S m → ∀ j d' e, i ≠ j → DefinedAt ssa j d' m → keyAt ssa i d t = .expr e →
    keyAt ssa j d' m = .expr e → SameComputation ssa eval i j d d'

variable (h : ssa.targets.Nodup)
include h

/-- **An instruction** keeps the invariant: its operands are in scope, and nothing in scope reads
its name. -/
theorem ScopeInv.assign (hinv : ScopeInv ssa eval S env)
    (hinst : ssa.valueDefs[i]? = some (.inst inst)) (ht : inst.target = some t) (hnew : ¬ S t)
    (huses : ∀ u ∈ inst.uses, u ∈ ssa.targets → S u) (hvalue : Evaluates eval inst env value)
    (hkey : (ValueDef.inst inst).numbered = some t → KeyOk ssa eval S i (.inst inst) t) :
    ScopeInv ssa eval (fun n => n = t ∨ S n) (update env t value) := by
  have hself : ∀ {j d}, DefinedAt ssa j d t →
      i = j ∧ d = .inst inst ∧ KeyOk ssa eval S i (.inst inst) t := by
    intro j d hd
    obtain rfl := eq_of_target h hinst ht hd.1 (ValueDef.target_of_numbered hd.2)
    obtain rfl := Option.some_inj.1 (hinst.symm.trans hd.1)
    exact ⟨rfl, rfl, hkey hd.2⟩
  have hne : ∀ {n}, S n → n ≠ t := fun hn heq => hnew (heq ▸ hn)
  have hkept : ∀ {n}, S n → update env t value n = env n := fun hn =>
    Function.update_of_ne (hne hn) ..
  -- what has no definition has no value to lose
  have hread : ∀ u, (u ∈ ssa.targets → S u) → update env t value u = env u := by
    intro u hu
    refine Function.update_of_ne ?_ ..
    rintro rfl
    refine hnew (hu ?_)
    rw [targets_eq_filterMap]
    exact List.mem_filterMap.2 ⟨_, List.mem_of_getElem? hinst, ht⟩
  refine ⟨?_, ?_, ?_, ?_, ?_⟩
  · rintro n (rfl | hn) j instr hd u hu htargets
    · obtain ⟨-, heq, -⟩ := hself hd
      rw [ValueDef.inst.injEq] at heq
      exact .inr (huses u (heq ▸ hu) htargets)
    · exact .inr (hinv.closed n hn j instr hd u hu htargets)
  · rintro n (rfl | hn) j instr hd
    · obtain ⟨-, heq, -⟩ := hself hd
      rw [ValueDef.inst.injEq] at heq
      rw [heq, Function.update_self]
      exact hvalue.congr fun u hu => hread u (huses u hu)
    · rw [hkept hn]
      exact (hinv.computed n hn j instr hd).congr
        fun u hu => hread u (hinv.closed n hn j instr hd u hu)
  · rintro n (rfl | hn) j instr v hd hcopy
    · obtain ⟨rfl, heq, hok⟩ := hself hd
      exact hok.copies instr v heq.symm hcopy
    · exact hinv.copies n hn j instr v hd hcopy
  · rintro n m (rfl | hn) (rfl | hm) j j' d d' e hjj hd hd' hkey hkey'
    · exact absurd ((hself hd).1.symm.trans (hself hd').1) hjj
    · obtain ⟨rfl, rfl, hok⟩ := hself hd
      exact hok.shared m hm j' d' e hjj hd' hkey hkey'
    · obtain ⟨rfl, rfl, hok⟩ := hself hd'
      exact (hok.shared n hn j d e hjj.symm hd hkey' hkey).symm
    · exact hinv.shared n m hn hm j j' d d' e hjj hd hd' hkey hkey'
  · rintro n m (rfl | hn) (rfl | hm) j j' b f g e hjj hd hd' hkey hkey'
    · exact absurd ((hself hd).1.symm.trans (hself hd').1) hjj
    · cases (hself hd).2.1
    · cases (hself hd').2.1
    · rw [hkept hn, hkept hm]
      exact hinv.phis n m hn hm j j' b f g e hjj hd hd' hkey hkey'

theorem selected_phi (hblock : block ∈ ssa.blocks) {f : PhiFunction} (hf : f ∈ block.phiFunctions) :
    block.selected prev env f.target =
      (f.sources.find? fun source => prev == some source.block).bind (env ·.name) := by
  have hnodup : (block.phiFunctions.map (·.target)).Nodup :=
    (List.nodup_append.1 ((List.nodup_flatMap.1 h).1 block hblock)).1
  rw [SsaBlock.selected, find?_of_nodup hnodup hf]

omit h in
theorem selected_of_notMem (hn : n ∉ block.phiFunctions.map (·.target)) :
    block.selected prev env n = env n := by
  have hnone : block.phiFunctions.find? (·.target == n) = none := by
    rw [List.find?_eq_none]
    intro f hf heq
    exact hn (List.mem_map.2 ⟨f, hf, beq_iff_eq.1 heq⟩)
  rw [SsaBlock.selected, hnone]

omit h in
/-- Phi functions with the same blocks and numbers select sources of the same number. -/
theorem sources_agree {p : PhiSource → Bool} {num num' : Nat → Option Nat}
    (hp : ∀ s s' : PhiSource, s.block = s'.block → p s = p s') : ∀ {l l' : List PhiSource},
    l.map (·.block) = l'.map (·.block) →
    (∀ s ∈ l, (num s.name).isSome) → (∀ s ∈ l', (num' s.name).isSome) →
    (l.filterMap fun s => num s.name) = l'.filterMap (fun s => num' s.name) →
    ∀ s s', l.find? p = some s → l'.find? p = some s' →
      ∃ v, num s.name = some v ∧ num' s'.name = some v := by
  intro l
  induction l with
  | nil => exact fun _ _ _ _ s s' hs => nomatch hs
  | cons a l ih =>
    intro l' hblocks hl hl' hnums s s' hs hs'
    cases l' with
    | nil => cases hs'
    | cons a' l' =>
      rw [List.map_cons, List.map_cons, List.cons.injEq] at hblocks
      rw [List.forall_mem_cons] at hl hl'
      obtain ⟨v, hv⟩ := Option.isSome_iff_exists.1 hl.1
      obtain ⟨v', hv'⟩ := Option.isSome_iff_exists.1 hl'.1
      simp only [List.filterMap_cons, hv, hv', List.cons.injEq] at hnums
      rw [List.find?_cons] at hs hs'
      rw [hp a a' hblocks.1] at hs
      cases hpa : p a' with
      | true =>
        rw [hpa] at hs hs'
        obtain rfl := Option.some_inj.1 hs
        obtain rfl := Option.some_inj.1 hs'
        exact ⟨v, hv, hnums.1 ▸ hv'⟩
      | false =>
        rw [hpa] at hs hs'
        exact ih hblocks.2 hl.2 hl'.2 hnums.2 s s' hs hs'

theorem exists_phi_of_definedAt (hblock : block ∈ ssa.blocks)
    (hn : n ∈ block.phiFunctions.map (·.target)) (hd : DefinedAt ssa i d n) :
    ∃ f ∈ block.phiFunctions, f.target = n ∧ d = .phi block.id f := by
  obtain ⟨f, hf, rfl⟩ := List.mem_map.1 hn
  have hmem : ValueDef.phi block.id f ∈ ssa.valueDefs :=
    mem_valueDefs.2 ⟨block, hblock, List.mem_append_left _ (List.mem_map.2 ⟨f, hf, rfl⟩)⟩
  obtain ⟨j, hj⟩ := List.mem_iff_getElem?.1 hmem
  obtain rfl := eq_of_target h hj rfl hd.1 (ValueDef.target_of_numbered hd.2)
  exact ⟨f, hf, rfl, Option.some_inj.1 (hd.1.symm.trans hj)⟩

/-- **Phi functions** with one key have one value. -/
theorem ScopeInv.selected_agree (hblock : block ∈ ssa.blocks) (hinv : ScopeInv ssa eval S env)
    (hsources : ∀ f ∈ block.phiFunctions, ∀ source ∈ f.sources, prev = some source.block →
      source.name ∈ ssa.targets → S source.name) {f g : PhiFunction}
    (hf : f ∈ block.phiFunctions) (hg : g ∈ block.phiFunctions)
    (hsame : SameComputation ssa eval i j (.phi block.id f) (.phi block.id g))
    (hkey : keyAt ssa i (.phi block.id f) f.target = keyAt ssa j (.phi block.id g) g.target)
    (hx : block.selected prev env f.target = some x)
    (hy : block.selected prev env g.target = some y) : x = y := by
  obtain ⟨-, hblocks, hnumbered, hnumbered'⟩ := hsame
  rw [selected_phi h hblock hf, Option.bind_eq_some_iff] at hx
  rw [selected_phi h hblock hg, Option.bind_eq_some_iff] at hy
  obtain ⟨s, hs, hxs⟩ := hx
  obtain ⟨s', hs', hys⟩ := hy
  rw [keyAt, keyAt, ValueDef.instNumber, ValueDef.instNumber, InstNumber.expr.injEq,
    CanonicalExpr.phi.injEq] at hkey
  obtain ⟨v, hv, hv'⟩ := sources_agree (fun s s' heq => by rw [heq]) hblocks hnumbered
    hnumbered' hkey s s' hs hs'
  obtain ⟨hnum, i₁, -, d₁, hd₁⟩ := exists_definedAt_of_numbersBefore h hv
  obtain ⟨hnum', i₂, -, d₂, hd₂⟩ := exists_definedAt_of_numbersBefore h hv'
  have hin : ∀ {f : PhiFunction} {s : PhiSource}, f ∈ block.phiFunctions →
      f.sources.find? (fun source => prev == some source.block) = some s →
        s.name ∈ ssa.targets → S s.name := by
    intro f s hf hfind hmem
    have hprev := List.find?_some hfind
    exact hsources f hf s (List.mem_of_find?_eq_some hfind) (beq_iff_eq.1 hprev) hmem
  exact hinv.agree h (max i₁ i₂ + 1) (by omega) (by omega)
    (hin hf hs (mem_targets_of_definedAt hd₁)) (hin hg hs' (mem_targets_of_definedAt hd₂))
    hd₁ hd₂ hnum hnum' hxs hys

/-- **Entering a block** keeps the invariant: what stays in scope is not set by the phi functions,
and their sources are in scope where they are read. -/
theorem ScopeInv.enter (hids : (ssa.blocks.map (·.id)).Nodup) (hblock : block ∈ ssa.blocks)
    (hinv : ScopeInv ssa eval S env) (hkept : ∀ n, S' n → S n)
    (hclosed : ∀ n, S' n → ∀ i instr, DefinedAt ssa i (.inst instr) n → ∀ u ∈ instr.uses,
      u ∈ ssa.targets → S' u)
    (hnew : ∀ n ∈ block.phiFunctions.map (·.target), ¬ S' n)
    (hsources : ∀ f ∈ block.phiFunctions, ∀ source ∈ f.sources, prev = some source.block →
      source.name ∈ ssa.targets → S source.name)
    (hkeys : ∀ f ∈ block.phiFunctions, ∀ i, ssa.valueDefs[i]? = some (.phi block.id f) →
      KeyOk ssa eval (fun n => n ∈ block.phiFunctions.map (·.target) ∨ S' n) i
        (.phi block.id f) f.target) :
    ScopeInv ssa eval (fun n => n ∈ block.phiFunctions.map (·.target) ∨ S' n)
      (block.selected prev env) := by
  have hself : ∀ {j d n}, n ∈ block.phiFunctions.map (·.target) → DefinedAt ssa j d n →
      ∃ f ∈ block.phiFunctions, f.target = n ∧ d = .phi block.id f :=
    fun hn hd => exists_phi_of_definedAt h hblock hn hd
  have hsame : ∀ {n}, S' n → block.selected prev env n = env n := fun hn =>
    selected_of_notMem fun hmem => hnew _ hmem hn
  have hread : ∀ u, (u ∈ ssa.targets → S' u) → block.selected prev env u = env u := by
    intro u hu
    refine selected_of_notMem fun hmem => hnew u hmem (hu ?_)
    exact List.mem_flatMap.2 ⟨block, hblock, List.mem_append_left _ hmem⟩
  have hshared : ∀ n m, (n ∈ block.phiFunctions.map (·.target) ∨ S' n) →
      (m ∈ block.phiFunctions.map (·.target) ∨ S' m) → ∀ i j d d' e, i ≠ j → DefinedAt ssa i d n →
        DefinedAt ssa j d' m → keyAt ssa i d n = .expr e → keyAt ssa j d' m = .expr e →
          SameComputation ssa eval i j d d' := by
    rintro n m hn hm i j d d' e hij hd hd' hkey hkey'
    rcases hn with hn | hn
    · obtain ⟨f, hf, rfl, rfl⟩ := hself hn hd
      exact (hkeys f hf i hd.1).shared m hm j d' e hij hd' hkey hkey'
    · rcases hm with hm | hm
      · obtain ⟨f, hf, rfl, rfl⟩ := hself hm hd'
        exact ((hkeys f hf j hd'.1).shared n (.inr hn) i d e hij.symm hd hkey' hkey).symm
      · exact hinv.shared n m (hkept n hn) (hkept m hm) i j d d' e hij hd hd' hkey hkey'
  -- a phi function of this block is set by it
  have howner : ∀ {j f n}, S' n → ¬ DefinedAt ssa j (.phi block.id f) n := by
    intro j f n hn hd
    obtain ⟨block', hblock', hmem⟩ := mem_valueDefs.1 (List.mem_of_getElem? hd.1)
    rw [SsaBlock.valueDefs, List.mem_append, List.mem_map, List.mem_map] at hmem
    rcases hmem with ⟨g, hg, heq⟩ | ⟨instr, -, heq⟩
    · rw [ValueDef.phi.injEq] at heq
      obtain rfl := List.inj_on_of_nodup_map hids hblock' hblock heq.1
      refine hnew n (List.mem_map.2 ⟨g, hg, ?_⟩) hn
      rw [heq.2]
      exact Option.some_inj.1 hd.2
    · cases heq
  refine ⟨?_, ?_, ?_, hshared, ?_⟩
  · rintro n (hn | hn) j instr hd u hu htargets
    · obtain ⟨f, -, -, heq⟩ := hself hn hd
      cases heq
    · exact .inr (hclosed n hn j instr hd u hu htargets)
  · rintro n (hn | hn) j instr hd
    · obtain ⟨f, -, -, heq⟩ := hself hn hd
      cases heq
    · rw [hsame hn]
      exact (hinv.computed n (hkept n hn) j instr hd).congr
        fun u hu => hread u (hclosed n hn j instr hd u hu)
  · rintro n (hn | hn) j instr v hd hcopy
    · obtain ⟨f, -, -, heq⟩ := hself hn hd
      cases heq
    · exact hinv.copies n (hkept n hn) j instr v hd hcopy
  · rintro n m hn hm j j' b f g e hjj hd hd' hkey hkey' x y hx hy
    have hsim := hshared n m hn hm j j' _ _ e hjj hd hd' hkey hkey'
    rcases hn with hn | hn
    · obtain ⟨f', hf, rfl, heq⟩ := hself hn hd
      obtain ⟨rfl, rfl⟩ := ValueDef.phi.inj heq
      rcases hm with hm | hm
      · obtain ⟨g', hg, rfl, heq'⟩ := hself hm hd'
        obtain ⟨-, rfl⟩ := ValueDef.phi.inj heq'
        exact hinv.selected_agree h hblock hsources hf hg hsim (hkey.trans hkey'.symm) hx hy
      · exact absurd hd' (howner hm)
    · rcases hm with hm | hm
      · obtain ⟨g', -, -, heq⟩ := hself hm hd'
        obtain ⟨rfl, -⟩ := ValueDef.phi.inj heq
        exact absurd hd (howner hn)
      · rw [hsame hn] at hx
        rw [hsame hm] at hy
        exact hinv.phis n m (hkept n hn) (hkept m hm) j j' b f g e hjj hd hd' hkey hkey' x y hx hy

end Steps

/-! ## Runs -/

section Runs

variable {V : Type} {ssa : SsaFunction} {entry : Nat} {eval : SsaInstruction → List V → V}
  {env : Nat → Option V} {block next : SsaBlock} {inst : SsaInstruction} {d : ValueDef}
  {i k n t u : Nat}

theorem SsaBlock.before_sublist (block : SsaBlock) (k : Nat) :
    (block.before k).Sublist block.targets :=
  (List.Sublist.refl _).append ((List.take_sublist k _).filterMap _)

theorem SsaBlock.before_length (block : SsaBlock) :
    block.before block.instructions.length = block.targets := by
  rw [before, List.take_length, targets]

def Inherited (ssa : SsaFunction) (entry b n : Nat) : Prop :=
  ∃ d ∈ ssa.blocks, n ∈ d.targets ∧ SDom ssa.Edge entry d.id b

theorem inScope_zero : InScope ssa entry block 0 n ↔
    n ∈ block.phiFunctions.map (·.target) ∨ Inherited ssa entry block.id n := by
  rw [InScope, SsaBlock.before, List.take_zero, List.filterMap_nil, List.append_nil]
  rfl

theorem inScope_succ (hinst : block.instructions[k]? = some inst) :
    InScope ssa entry block (k + 1) n ↔ inst.target = some n ∨ InScope ssa entry block k n := by
  rw [InScope, InScope, SsaBlock.before, SsaBlock.before, List.take_add_one, hinst,
    Option.toList_some, List.filterMap_append, ← List.append_assoc, List.mem_append]
  have hlast : n ∈ List.filterMap (·.target) [inst] ↔ inst.target = some n := by
    rw [List.mem_filterMap]
    simp
  rw [hlast]
  tauto

theorem InScope.mono {k' : Nat} (h : InScope ssa entry block k n) (hk : k ≤ k') :
    InScope ssa entry block k' n := by
  refine h.imp_left fun hmem => ?_
  have htaken : (block.instructions.take k).Sublist (block.instructions.take k') :=
    (List.take_prefix_take_left hk).sublist
  exact ((List.Sublist.refl _).append (htaken.filterMap _)).subset hmem

variable (h : InSsaForm ssa entry)
include h

theorem InSsaForm.block_targets (hblock : block ∈ ssa.blocks) : block.targets.Nodup :=
  (List.nodup_flatMap.1 h.targets).1 block hblock

theorem InSsaForm.not_inherited (hblock : block ∈ ssa.blocks) (hn : n ∈ block.targets) :
    ¬ Inherited ssa entry block.id n := by
  rintro ⟨d, hd, hmem, hdom⟩
  obtain rfl := SsaFunction.eq_of_mem_targets h.targets hd hblock hmem hn
  exact SDom.irrefl hdom

theorem InSsaForm.not_inScope (hblock : block ∈ ssa.blocks)
    (hinst : block.instructions[k]? = some inst) (ht : inst.target = some t) :
    ¬ InScope ssa entry block k t := by
  have hsplit : (block.before k ++ (block.instructions.drop k).filterMap (·.target)).Nodup := by
    rw [SsaBlock.before, List.append_assoc, ← List.filterMap_append, List.take_append_drop]
    exact h.block_targets hblock
  have hdrop : t ∈ (block.instructions.drop k).filterMap (·.target) := by
    refine List.mem_filterMap.2 ⟨inst, ?_, ht⟩
    exact List.mem_of_getElem? (by rw [List.getElem?_drop, Nat.add_zero, hinst])
  rintro (hmem | hinherited)
  · exact (List.nodup_append.1 hsplit).2.2 t hmem t hdrop rfl
  · refine h.not_inherited hblock ?_ hinherited
    exact List.mem_append_right _ (List.mem_filterMap.2 ⟨inst, List.mem_of_getElem? hinst, ht⟩)

theorem InSsaForm.inherited_operands {b : Nat} (hb : Reach ssa.Edge entry b)
    (hn : Inherited ssa entry b n) (hd : DefinedAt ssa i (.inst inst) n) (hu : u ∈ inst.uses)
    (hmem : u ∈ ssa.targets) : Inherited ssa entry b u := by
  obtain ⟨c, hc, hnc, hdom⟩ := hn
  obtain ⟨c', hc', hinst⟩ := mem_valueDefs.1 (List.mem_of_getElem? hd.1)
  have htarget : n ∈ c'.targets := numbered_mem_targets hinst hd.2
  obtain rfl := SsaFunction.eq_of_mem_targets h.targets hc hc' hnc htarget
  rw [SsaBlock.valueDefs, List.mem_append, List.mem_map, List.mem_map] at hinst
  rcases hinst with ⟨f, -, heq⟩ | ⟨inst', hinst, heq⟩
  · cases heq
  obtain rfl := ValueDef.inst.inj heq
  obtain ⟨k, hk⟩ := List.mem_iff_getElem?.1 hinst
  rcases h.uses c hc k inst' hk u hu hmem with hbefore | ⟨e, he, hue, hdom'⟩
  · exact ⟨c, hc, (c.before_sublist k).subset hbefore, hdom⟩
  · exact ⟨e, he, hue, hdom'.trans_dom hdom.1 hb⟩

theorem InSsaForm.inScope_of_inherited (hblock : block ∈ ssa.blocks)
    (hedge : ssa.Edge block.id next.id) (hn : Inherited ssa entry next.id n) :
    InScope ssa entry block block.instructions.length n := by
  obtain ⟨d, hd, hmem, hdom⟩ := hn
  have hdom' : Dom ssa.Edge entry d.id block.id := hdom.1.pred hdom.2 hedge
  by_cases heq : d.id = block.id
  · obtain rfl := List.inj_on_of_nodup_map h.ids hd hblock heq
    left
    rw [SsaBlock.before_length]
    exact hmem
  · exact .inr ⟨d, hd, hmem, hdom', heq⟩

omit h in
theorem KeysMeanValues.keyOk (hkeys : KeysMeanValues ssa entry eval block) {S : Nat → Prop}
    (hS : ∀ n, S n → InScope ssa entry block block.instructions.length n)
    (hi : ssa.valueDefs[i]? = some d) (hd : d ∈ block.valueDefs) (ht : d.numbered = some t) :
    KeyOk ssa eval S i d t where
  copies instr v heq hcopy := by
    subst heq
    rw [SsaBlock.valueDefs, List.mem_append, List.mem_map, List.mem_map] at hd
    rcases hd with ⟨f, -, heq⟩ | ⟨instr', hinstr, heq⟩
    · cases heq
    · obtain rfl := ValueDef.inst.inj heq
      exact hkeys.copies i instr' t v hi hinstr (ValueDef.target_of_numbered ht) hcopy
  shared m hm j d' e hij hd' hkey hkey' :=
    hkeys.shared i j d d' t m e hij hi hd ht hd'.1 hd'.2 (hS m hm) hkey hkey'

structure PointInv (ssa : SsaFunction) (entry : Nat) (eval : SsaInstruction → List V → V)
    (block : SsaBlock) (k : Nat) (env : Nat → Option V) : Prop where
  mem : block ∈ ssa.blocks
  reach : Reach ssa.Edge entry block.id
  keys : KeysMeanValues ssa entry eval block
  scope : ScopeInv ssa eval (InScope ssa entry block k) env

/-- Entering a block, from names of which those that it inherits are in scope. -/
theorem PointInv.enter {S : Nat → Prop} {prev : Option Nat} (hblock : block ∈ ssa.blocks)
    (hreach : Reach ssa.Edge entry block.id) (hkeys : KeysMeanValues ssa entry eval block)
    (hinv : ScopeInv ssa eval S env) (hkept : ∀ n, Inherited ssa entry block.id n → S n)
    (hsources : ∀ f ∈ block.phiFunctions, ∀ source ∈ f.sources, prev = some source.block →
      source.name ∈ ssa.targets → S source.name) :
    PointInv ssa entry eval block 0 (block.selected prev env) := by
  refine ⟨hblock, hreach, hkeys, ?_⟩
  have hscope : InScope ssa entry block 0 = fun n => n ∈ block.phiFunctions.map (·.target) ∨
      Inherited ssa entry block.id n := funext fun n => propext inScope_zero
  rw [hscope]
  refine hinv.enter h.targets h.ids hblock hkept
    (fun n hn i instr hd u hu => h.inherited_operands hreach hn hd hu)
    (fun n hn => h.not_inherited hblock (List.mem_append_left _ hn)) hsources fun f hf i hi => ?_
  refine hkeys.keyOk (fun n hn => ?_) hi
    (List.mem_append_left _ (List.mem_map.2 ⟨f, hf, rfl⟩)) rfl
  exact (inScope_zero.2 hn).mono (Nat.zero_le _)

/-- **Every point of a run** satisfies the invariant. -/
theorem Reaches.pointInv
    (hrun : Reaches ssa entry eval (KeysMeanValues ssa entry eval) block k env) :
    PointInv ssa entry eval block k env := by
  induction hrun with
  | @start block hblock hentry hkeys =>
    have hreach : Reach ssa.Edge entry block.id := by
      rw [hentry]
      exact Reach.refl entry
    have hnone : ScopeInv ssa eval (fun _ => False) (fun _ => none) :=
      ⟨fun _ hn => hn.elim, fun _ hn => hn.elim, fun _ hn => hn.elim, fun _ _ hn => hn.elim,
        fun _ _ hn => hn.elim⟩
    refine .enter h hblock hreach hkeys hnone ?_
      fun _ _ _ _ hprev => nomatch hprev
    rintro n ⟨d, -, -, hdom⟩
    exact not_sdom_root (hentry ▸ hdom)
  | @inst block k env inst value hrun hinst hvalue ih =>
    refine ⟨ih.mem, ih.reach, ih.keys, ?_⟩
    cases ht : inst.target with
    | none =>
      have hscope : InScope ssa entry block (k + 1) = InScope ssa entry block k :=
        funext fun n => propext (by rw [inScope_succ hinst, ht]; simp)
      rw [hscope, SsaInstruction.assigned, ht]
      exact ih.scope
    | some t =>
      have hscope : InScope ssa entry block (k + 1) =
          fun n => n = t ∨ InScope ssa entry block k n :=
        funext fun n => propext (by rw [inScope_succ hinst, ht, Option.some_inj, eq_comm])
      have hmem : ValueDef.inst inst ∈ block.valueDefs :=
        List.mem_append_right _ (List.mem_map.2 ⟨inst, List.mem_of_getElem? hinst, rfl⟩)
      obtain ⟨i, hi⟩ := List.mem_iff_getElem?.1 (mem_valueDefs.2 ⟨block, ih.mem, hmem⟩)
      have hk : k ≤ block.instructions.length := (List.getElem?_eq_some_iff.1 hinst).1.le
      rw [hscope, SsaInstruction.assigned, ht]
      exact ih.scope.assign h.targets hi ht (h.not_inScope ih.mem hinst ht)
        (h.uses block ih.mem k inst hinst) hvalue
        fun hnumbered => ih.keys.keyOk (fun n hn => hn.mono hk) hi hmem hnumbered
  | @edge block next env hrun hnext hedge hkeys ih =>
    have hedge' : ssa.Edge block.id next.id := ⟨block, ih.mem, rfl, hedge⟩
    refine .enter h hnext (Reach.tail ih.reach hedge') hkeys ih.scope
      (fun n hn => h.inScope_of_inherited ih.mem hedge' hn) ?_
    intro f hf source hsource hprev hmem
    exact h.sources next hnext f hf source hsource hmem block ih.mem (Option.some_inj.1 hprev)

/-- **Value numbers are sound** in every run that enters only blocks whose keys say what is
computed. -/
theorem valueNumbers_sound (ord : HashOrder) :
    NumbersSound ssa entry eval ord (KeysMeanValues ssa entry eval) := by
  intro block k env hrun n m v hn hm hv hv' x y hx hy
  obtain ⟨i, d, hd⟩ := exists_definedAt h.targets hv
  obtain ⟨j, d', hd'⟩ := exists_definedAt h.targets hv'
  exact (hrun.pointInv h).scope.agree h.targets (max i j + 1) (by omega) (by omega) hn hm hd hd' hv
    hv' hx hy

end Runs

/-! ## An assignment that reads one name -/

/-- `y = 1`. -/
def setOne : SsaInstruction := ⟨.assign, some 1, [], 1, some "y = 1"⟩

/-- An assignment to `x` that reads `y`. -/
def readOne (text : String) : SsaInstruction := ⟨.assign, some 2, [1], 2, some text⟩

def assignmentsBlock (text : String) : SsaBlock :=
  ⟨0, none, (1, 2), [], [setOne, readOne text], [], []⟩

/-- `y = 1`, and an assignment to `x` that reads `y`. -/
def assignments (text : String) : SsaFunction where
  function := "f"
  ssaType := .minimal
  blocks := [assignmentsBlock text]
  ssaNames := [⟨1, "y", 1, some 0, 1⟩, ⟨2, "x", 1, some 0, 2⟩]
  defUse := fun _ => none
  stats := ⟨0, 2, 1, 2, 0⟩

/-- Both assignments, where `x` gets what is added to `y`. -/
def evalAdd (summand : Nat) (_ : SsaInstruction) : List Nat → Nat
  | [] => 1
  | y :: _ => y + summand

theorem inSsaForm_assignments (text : String) : InSsaForm (assignments text) 0 where
  ids := by simp [assignments]
  targets := by
    have htargets : (assignments text).targets = [1, 2] := rfl
    rw [htargets]
    decide
  uses block hblock k inst hinst u hu _ := by
    obtain rfl := List.mem_singleton.1 hblock
    have hcases : ∀ k inst, (assignmentsBlock text).instructions[k]? = some inst →
        inst.uses ≠ [] → k = 1 ∧ inst = readOne text := by
      intro k inst hinst hne
      match k with
      | 0 => exact absurd (by rw [← Option.some_inj.1 hinst]; rfl) hne
      | 1 => exact ⟨rfl, (Option.some_inj.1 hinst).symm⟩
      | k + 2 => cases hinst
    obtain ⟨rfl, rfl⟩ := hcases k inst hinst (List.ne_nil_of_mem hu)
    obtain rfl := List.mem_singleton.1 hu
    exact .inl List.mem_cons_self
  sources block hblock phi hphi := by
    obtain rfl := List.mem_singleton.1 hblock
    cases hphi

theorem keysMeanValues_copy :
    KeysMeanValues (assignments "x = y") 0 (evalAdd 0) (assignmentsBlock "x = y") where
  copies i inst t v hi _ ht hkey := by
    match i with
    | 0 =>
      obtain rfl := ValueDef.inst.inj (Option.some_inj.1 hi)
      cases hkey
    | 1 =>
      obtain rfl := ValueDef.inst.inj (Option.some_inj.1 hi)
      exact ⟨rfl, 1, rfl, fun x => rfl⟩
    | i + 2 => cases hi
  shared i j d d' t t' e hij hi _ ht hj ht' _ hkey hkey' := by
    have hfirst : ∀ {i d t e}, (assignments "x = y").valueDefs[i]? = some d →
        d.numbered = some t → keyAt (assignments "x = y") i d t = .expr e → i = 0 := by
      intro i d t e hi ht hkey
      match i with
      | 0 => rfl
      | 1 =>
        obtain rfl := Option.some_inj.1 hi
        obtain rfl := Option.some_inj.1 ht
        have hcopy : keyAt (assignments "x = y") 1 (.inst (readOne "x = y")) 2 = .copy 0 := by
          decide +kernel
        cases hcopy.symm.trans hkey
      | i + 2 => cases hi
    exact absurd ((hfirst hi ht hkey).trans (hfirst hj ht' hkey').symm) hij

/-- A copy. -/
theorem valueNumbers_sound_copy : InSsaForm (assignments "x = y") 0 ∧
    NumbersSound (assignments "x = y") 0 (evalAdd 0) .insertion
      (KeysMeanValues (assignments "x = y") 0 (evalAdd 0)) ∧
    KeysMeanValues (assignments "x = y") 0 (evalAdd 0) (assignmentsBlock "x = y") :=
  ⟨inSsaForm_assignments _, valueNumbers_sound (inSsaForm_assignments _) .insertion,
    keysMeanValues_copy⟩

/-- **An increment** is taken for a copy. -/
theorem not_numbersSound_increment :
    ¬ NumbersSound (assignments "x = y + 1") 0 (evalAdd 1) .insertion fun _ => True := by
  intro h
  have hstart : Reaches (assignments "x = y + 1") 0 (evalAdd 1) (fun _ => True)
      (assignmentsBlock "x = y + 1") 0 _ := .start List.mem_cons_self rfl trivial
  have hfirst : Reaches (assignments "x = y + 1") 0 (evalAdd 1) (fun _ => True)
      (assignmentsBlock "x = y + 1") 1 (setOne.assigned _ (some 1)) :=
    .inst hstart rfl fun _ => .inl ⟨[], rfl, rfl⟩
  have hsecond : Reaches (assignments "x = y + 1") 0 (evalAdd 1) (fun _ => True)
      (assignmentsBlock "x = y + 1") 2 ((readOne "x = y + 1").assigned _ (some 2)) :=
    .inst hfirst rfl fun _ => .inl ⟨[1], rfl, rfl⟩
  have heq := h _ _ _ hsecond 1 2 0 (.inl (by decide)) (.inl (by decide)) (by decide +kernel)
    (by decide +kernel) 1 2 rfl rfl
  cases heq

end TldrCode.Ssa
