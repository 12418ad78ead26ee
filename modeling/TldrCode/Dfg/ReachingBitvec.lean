import TldrCode.Dataflow.Bits
import TldrCode.Dfg.ReachingRpo
import Mathlib.Data.Finset.Lattice.Lemmas

/-!
# Reaching definitions on bit vectors

`compute_reaching_definitions_bitvec` is `compute_reaching_definitions_rpo` with a bit for each
definition. Every step on the bits represents the step on the sets, so the result decodes to the
same sets (`computeReachingDefinitionsBitvec_toStandard`).
-/

namespace TldrCode.Dfg

open Dataflow
open Function (update)

/-! ## The computation -/

structure DenseDefMapping where
  defToBit : DefId → Option Nat
  bitToDef : List DefId
  numDefs : Nat

/-- One reference in `create_dense_def_mapping`. -/
def enterDef (state : (DefId → Option Nat) × List DefId) (r : VarRef × Nat) :
    (DefId → Option Nat) × List DefId :=
  if r.1.isDef then
    let defId : DefId := ⟨r.2, r.1.line⟩
    match state.1 defId with
    | some _ => state
    | none => (update state.1 defId (some state.2.length), state.2 ++ [defId])
  else state

def createDenseDefMapping (refs : List VarRef) : DenseDefMapping :=
  let (defToBit, bitToDef) := refs.zipIdx.foldl enterDef (fun _ => none, [])
  { defToBit, bitToDef, numDefs := bitToDef.length }

structure BitVectorReachingDefs where
  mapping : DenseDefMapping
  inSets : Nat → Option Bits
  outSets : Nat → Option Bits
  iterations : Nat

def BitVectorReachingDefs.toStandard (bv : BitVectorReachingDefs) : ReachingDefinitions where
  reachingIn b := ((bv.inSets b).map (decode bv.mapping.bitToDef)).getD ∅
  reachingOut b := ((bv.outSets b).map (decode bv.mapping.bitToDef)).getD ∅

/-- One definition of a block: the bits killed so far and `last_def_for_var`. -/
def scanBit (state : Bits × List (String × Nat)) (d : (DefId × VarRef) × Nat) :
    Bits × List (String × Nat) :=
  (match state.2.lookup d.1.2.name with
    | some prevBit => state.1.set prevBit true
    | none => state.1,
  (d.1.2.name, d.2) :: state.2.filter (·.1 != d.1.2.name))

def scanBits (numDefs : Nat) (defs : List ((DefId × VarRef) × Nat)) : Bits × List (String × Nat) :=
  defs.foldl scanBit (Bits.zeros numDefs, [])

def genBits (cfg : CfgInfo) (numDefs : Nat) (defs : List ((DefId × VarRef) × Nat)) (b : Nat) :
    Bits :=
  (scanBits numDefs (defs.filter fun d => inLines cfg b d.1.2)).2.foldl
    (fun blockGen entry => blockGen.set entry.2 true) (Bits.zeros numDefs)

def killBits (cfg : CfgInfo) (numDefs : Nat) (defs : List ((DefId × VarRef) × Nat)) (b : Nat) :
    Bits :=
  let (blockKill, lastDefForVar) := scanBits numDefs (defs.filter fun d => inLines cfg b d.1.2)
  defs.foldl (fun blockKill d =>
    if lastDefForVar.any (·.1 == d.1.2.name) && !inLines cfg b d.1.2 then blockKill.set d.2 true
    else blockKill) blockKill

structure BitTables where
  numDefs : Nat
  predecessors : Nat → List Nat
  gen : Nat → Option Bits
  kill : Nat → Option Bits

/-- The sets that the iteration updates, and whether it has. -/
structure BitState where
  inSets : Nat → Option Bits
  outSets : Nat → Option Bits
  changed : Bool

/-- One block in a round. The result is missing where `unwrap` would fail. -/
def BitTables.visit (tables : BitTables) (state : BitState) (block : Nat) : Option BitState := do
  let newIn := (tables.predecessors block).foldl (fun newIn pred =>
    match state.outSets pred with
    | some predOut => newIn.or predOut
    | none => newIn) (Bits.zeros tables.numDefs)
  let gen := (tables.gen block).getD (Bits.zeros tables.numDefs)
  let kill := (tables.kill block).getD (Bits.zeros tables.numDefs)
  let newOut := gen.or (newIn.and kill.not)
  let oldIn ← state.inSets block
  let state :=
    if newIn ≠ oldIn then
      { state with changed := true, inSets := update state.inSets block (some newIn) }
    else state
  let oldOut ← state.outSets block
  return if newOut ≠ oldOut then
      { state with changed := true, outSets := update state.outSets block (some newOut) }
    else state

/-- Rounds over `rpo` until one changes nothing, at most as many as given, and their number. -/
def BitTables.iterate (tables : BitTables) (rpo : List Nat) :
    Nat → BitState → Option (BitState × Nat)
  | 0, state => some (state, 0)
  | rounds + 1, state => do
    let state ← rpo.foldlM tables.visit { state with changed := false }
    if state.changed then
      let (state, iterations) ← tables.iterate rpo rounds state
      return (state, iterations + 1)
    else return (state, 1)

/-- `compute_reaching_definitions_bitvec`. The result is missing where `unwrap` would fail. -/
def computeReachingDefinitionsBitvec (cfg : CfgInfo) (refs : List VarRef) :
    Option BitVectorReachingDefs := do
  let mapping := createDenseDefMapping refs
  if cfg.blocks.isEmpty || mapping.numDefs == 0 then
    return ⟨mapping, fun _ => none, fun _ => none, 0⟩
  let defs ← (defsOf refs).mapM fun d => (mapping.defToBit d.1).map fun bit => (d, bit)
  let declared {α : Type} (f : Nat → α) (b : Nat) : Option α :=
    if b ∈ cfg.blockIds then some (f b) else none
  let gen := declared (genBits cfg mapping.numDefs defs)
  let tables : BitTables :=
    { numDefs := mapping.numDefs
      predecessors := cfg.predecessors
      gen
      kill := declared (killBits cfg mapping.numDefs defs) }
  let start : BitState := ⟨declared fun _ => Bits.zeros mapping.numDefs, gen, false⟩
  let maxIterations := 100
  let (state, iterations) ← tables.iterate (computeRpo cfg) maxIterations start
  return ⟨mapping, state.inSets, state.outSets, iterations⟩

/-! ## The mapping -/

variable {cfg : CfgInfo} {refs : List VarRef} {elems : List DefId} {b : Nat}

/-- The ids of the definitions: the members that the bits stand for. -/
def defIds (refs : List VarRef) : List DefId := (defsOf refs).map (·.1)

theorem defIds_nodup (refs : List VarRef) : (defIds refs).Nodup := by
  refine List.pairwise_map.2 ((pairwise_defsOf refs).imp fun h heq => ?_)
  exact absurd (congrArg DefId.refIndex heq) h.ne

theorem defIds_concat (refs : List VarRef) (r : VarRef) : defIds (refs ++ [r]) =
    defIds refs ++ if r.isDef then [(⟨refs.length, r.line⟩ : DefId)] else [] := by
  unfold defIds defsOf
  rw [List.zipIdx_append, List.filter_append, List.map_append, List.map_append]
  cases hr : r.isDef <;> simp [hr]

/-- **The mapping** numbers the definitions in order. -/
theorem createDenseDefMapping_spec (refs : List VarRef) :
    (createDenseDefMapping refs).bitToDef = defIds refs ∧
      (createDenseDefMapping refs).numDefs = (defIds refs).length ∧
      ∀ i id, (createDenseDefMapping refs).defToBit id = some i ↔ (defIds refs)[i]? = some id := by
  have key : (refs.zipIdx.foldl enterDef (fun _ => none, [])).2 = defIds refs ∧
      ∀ i id, (refs.zipIdx.foldl enterDef (fun _ => none, [])).1 id = some i ↔
        (defIds refs)[i]? = some id := by
    induction refs using List.reverseRecOn with
    | nil => exact ⟨rfl, by simp [defIds, defsOf]⟩
    | append_singleton refs r ih =>
      obtain ⟨hlist, hbit⟩ := ih
      rw [List.zipIdx_append, List.foldl_append, Nat.zero_add, List.zipIdx_singleton,
        List.foldl_cons, List.foldl_nil, defIds_concat]
      generalize refs.zipIdx.foldl enterDef (fun _ => none, []) = state at hlist hbit ⊢
      rw [enterDef]
      split_ifs with hr
      · -- the index is new
        have hfresh : ∀ i : Nat, (defIds refs)[i]? ≠ some ⟨refs.length, r.line⟩ := by
          intro i hi
          obtain ⟨d, hd, hid⟩ := List.mem_map.1 (List.mem_of_getElem? hi)
          obtain ⟨j, r', hr', -, rfl⟩ := mem_defsOf.1 hd
          have hj := (List.getElem?_eq_some_iff.1 hr').1
          exact hj.ne (congrArg DefId.refIndex hid)
        have hnone : state.1 ⟨refs.length, r.line⟩ = none := by
          cases hs : state.1 ⟨refs.length, r.line⟩ with
          | none => rfl
          | some i => exact absurd ((hbit i _).1 hs) (hfresh i)
        simp only [hnone]
        refine ⟨by rw [hlist], fun i id => ?_⟩
        by_cases hid : id = ⟨refs.length, r.line⟩
        · subst hid
          rw [Function.update_self, Option.some_inj, List.getElem?_append, hlist]
          split_ifs with hi
          · simp only [hfresh i, iff_false]
            omega
          · rw [List.getElem?_singleton]
            split_ifs with h0
            · simp only [iff_true]
              omega
            · simp only [iff_false]
              omega
        · rw [Function.update_of_ne hid, hbit, List.getElem?_append]
          split_ifs with hi
          · rfl
          · rw [List.getElem?_eq_none (Nat.le_of_not_lt hi), List.getElem?_singleton]
            split_ifs
            · simp [Ne.symm hid]
            · rfl
      · rw [List.append_nil]
        exact ⟨hlist, hbit⟩
  exact ⟨key.1, congrArg List.length key.1, key.2⟩

theorem mapM_zipIdx {α : Type} {f : α → Option (α × Nat)} (l : List α) : ∀ n,
    (∀ i x, l[i]? = some x → f x = some (x, n + i)) → l.mapM f = some (l.zipIdx n) := by
  induction l with
  | nil => exact fun n _ => rfl
  | cons x l ih =>
    intro n h
    have htail := ih (n + 1) fun i y hi => by
      rw [h (i + 1) y hi]
      congr 2
      omega
    rw [List.mapM_cons, h 0 x rfl, htail]
    rfl

theorem defs_mapM (refs : List VarRef) : ((defsOf refs).mapM fun d =>
    ((createDenseDefMapping refs).defToBit d.1).map fun bit => (d, bit)) =
      some (defsOf refs).zipIdx := by
  refine mapM_zipIdx _ 0 fun i d hi => ?_
  have hbit : (createDenseDefMapping refs).defToBit d.1 = some i := by
    rw [(createDenseDefMapping_spec refs).2.2, defIds, List.getElem?_map, hi, Option.map_some]
  rw [hbit, Option.map_some, Nat.zero_add]

/-! ## GEN and KILL -/

/-- The tables `last_def_for_var` of bits and of definitions. -/
def SameLast (elems : List DefId) (bits : List (String × Nat)) (defs : List (String × DefId)) :
    Prop :=
  List.Forall₂ (fun x y => x.1 = y.1 ∧ elems[x.2]? = some y.2) bits defs

section

variable {bits : List (String × Nat)} {defs : List (String × DefId)} (h : SameLast elems bits defs)
  (n : String)
include h

theorem SameLast.filter : SameLast elems (bits.filter (·.1 != n)) (defs.filter (·.1 != n)) := by
  induction h with
  | nil => exact .nil
  | @cons x y bits defs hxy _ ih =>
    rw [List.filter_cons, List.filter_cons, hxy.1]
    split_ifs
    · exact .cons hxy ih
    · exact ih

theorem SameLast.lookup :
    Option.Rel (fun i id => elems[i]? = some id) (bits.lookup n) (defs.lookup n) := by
  induction h with
  | nil => exact .none
  | @cons x y bits defs hxy _ ih =>
    rw [List.lookup_cons, List.lookup_cons, hxy.1]
    split
    · exact .some hxy.2
    · exact ih

theorem SameLast.any : bits.any (·.1 == n) = defs.any (·.1 == n) := by
  induction h with
  | nil => rfl
  | @cons x y bits defs hxy _ ih => rw [List.any_cons, List.any_cons, hxy.1, ih]

end

theorem scanDefs_concat (defs : List (DefId × VarRef)) (d : DefId × VarRef) :
    scanDefs (defs ++ [d]) =
      (match (scanDefs defs).2.lookup d.2.name with
        | some prev => insert prev (scanDefs defs).1
        | none => (scanDefs defs).1,
      (d.2.name, d.1) :: (scanDefs defs).2.filter (·.1 != d.2.name)) := by
  rw [scanDefs, List.foldl_append]
  rfl

theorem scanBits_scanDefs (hn : elems.Nodup) (defs : List ((DefId × VarRef) × Nat))
    (hdefs : ∀ d ∈ defs, elems[d.2]? = some d.1.1) :
    Represents elems (scanBits elems.length defs).1 (scanDefs (defs.map (·.1))).1 ∧
      SameLast elems (scanBits elems.length defs).2 (scanDefs (defs.map (·.1))).2 := by
  induction defs using List.reverseRecOn with
  | nil => exact ⟨.zeros, .nil⟩
  | append_singleton defs d ih =>
    obtain ⟨hkill, hlast⟩ := ih fun e he => hdefs e (List.mem_append_left _ he)
    have hd := hdefs d (by simp)
    have hb : scanBits elems.length (defs ++ [d]) = scanBit (scanBits elems.length defs) d := by
      rw [scanBits, List.foldl_append]
      rfl
    rw [hb, List.map_append, List.map_singleton, scanDefs_concat, scanBit]
    refine ⟨?_, .cons ⟨rfl, hd⟩ (hlast.filter _)⟩
    have hrel := hlast.lookup d.1.2.name
    dsimp only
    generalize (scanBits elems.length defs).2.lookup d.1.2.name = x at hrel ⊢
    generalize (scanDefs (defs.map (·.1))).2.lookup d.1.2.name = y at hrel ⊢
    cases hrel with
    | some hi => exact hkill.set hn hi
    | none => exact hkill

theorem represents_foldl_set {α : Type} (hn : elems.Nodup) (f : α → Nat) (g : α → DefId)
    (l : List α) : ∀ {bits : Bits} {s : Finset DefId}, (∀ x ∈ l, elems[f x]? = some (g x)) →
      Represents elems bits s →
        Represents elems (l.foldl (fun bits x => bits.set (f x) true) bits)
          (s ∪ (l.map g).toFinset) := by
  induction l with
  | nil => exact fun _ h => by rwa [List.map_nil, List.toFinset_nil, Finset.union_empty]
  | cons x l ih =>
    intro bits s hl h
    have := ih (fun y hy => hl y (List.mem_cons_of_mem _ hy))
      (h.set hn (hl x List.mem_cons_self))
    rwa [List.map_cons, List.toFinset_cons, Finset.union_insert, ← Finset.insert_union]

theorem filter_zipIdx_map (p : VarRef → Bool) : ((defsOf refs).zipIdx.filter fun d => p d.1.2).map
    (·.1) = (defsOf refs).filter fun d => p d.2 := by
  have hmap : (defsOf refs).zipIdx.map (·.1) = defsOf refs := List.zipIdx_map_fst 0 _
  conv_rhs => rw [← hmap]
  rw [List.filter_map]
  rfl

theorem getElem?_defIds_of_mem {d : (DefId × VarRef) × Nat} (hd : d ∈ (defsOf refs).zipIdx) :
    (defIds refs)[d.2]? = some d.1.1 := by
  have hi := List.mem_zipIdx_iff_getElem?.1 hd
  rw [defIds, List.getElem?_map, hi, Option.map_some]

section

variable (cfg : CfgInfo) (refs : List VarRef) (b : Nat)

theorem scanBits_block :
    let bits := scanBits (defIds refs).length
      ((defsOf refs).zipIdx.filter fun d => inLines cfg b d.1.2)
    let defs := scanDefs ((defsOf refs).filter fun d => inLines cfg b d.2)
    Represents (defIds refs) bits.1 defs.1 ∧ SameLast (defIds refs) bits.2 defs.2 := by
  rw [← filter_zipIdx_map]
  exact scanBits_scanDefs (defIds_nodup refs) _ fun d hd =>
    getElem?_defIds_of_mem (List.mem_of_mem_filter hd)

theorem represents_genBits :
    Represents (defIds refs) (genBits cfg (defIds refs).length (defsOf refs).zipIdx b)
      (genOf refs (inLines cfg b)) := by
  obtain ⟨-, hlast⟩ := scanBits_block cfg refs b
  rw [genBits, genOf]
  generalize (scanBits _ _).2 = bits at hlast ⊢
  generalize (scanDefs _).2 = defs at hlast ⊢
  have key : ∀ {set : Bits} {s : Finset DefId}, Represents (defIds refs) set s →
      Represents (defIds refs) (bits.foldl (fun blockGen entry => blockGen.set entry.2 true) set)
        (s ∪ (defs.map (·.2)).toFinset) := by
    induction hlast with
    | nil => exact fun h => by rwa [List.map_nil, List.toFinset_nil, Finset.union_empty]
    | @cons x y bits defs hxy _ ih =>
      intro set s h
      have := ih (h.set (defIds_nodup refs) hxy.2)
      rwa [List.foldl_cons, List.map_cons, List.toFinset_cons, Finset.union_insert,
        ← Finset.insert_union]
  have := key .zeros
  rwa [Finset.empty_union] at this

theorem represents_killBits :
    Represents (defIds refs) (killBits cfg (defIds refs).length (defsOf refs).zipIdx b)
      (killOf refs (inLines cfg b)) := by
  obtain ⟨hkill, hlast⟩ := scanBits_block cfg refs b
  rw [killBits, killOf]
  dsimp only at hkill hlast ⊢
  have hset := represents_foldl_set (defIds_nodup refs) (fun d : (DefId × VarRef) × Nat => d.2)
    (fun d => d.1.1) ((defsOf refs).zipIdx.filter fun d =>
      (scanDefs ((defsOf refs).filter fun d => inLines cfg b d.2)).2.any (·.1 == d.1.2.name) &&
        !inLines cfg b d.1.2) (fun d hd => getElem?_defIds_of_mem (List.mem_of_mem_filter hd)) hkill
  rw [List.foldl_filter] at hset
  simp only [hlast.any]
  have hmap : (((defsOf refs).zipIdx.filter fun d =>
      (scanDefs ((defsOf refs).filter fun d => inLines cfg b d.2)).2.any (·.1 == d.1.2.name) &&
        !inLines cfg b d.1.2).map fun d => d.1.1) = ((defsOf refs).filter fun d =>
      (scanDefs ((defsOf refs).filter fun d => inLines cfg b d.2)).2.any (·.1 == d.2.name) &&
        !inLines cfg b d.2).map (·.1) := by
    rw [← filter_zipIdx_map fun r : VarRef =>
      (scanDefs ((defsOf refs).filter fun d => inLines cfg b d.2)).2.any (·.1 == r.name) &&
        !inLines cfg b r, List.map_map]
    rfl
  rw [hmap] at hset
  exact hset

end

/-! ## The iteration -/

/-- The bits of the blocks represent the sets; other blocks have neither. -/
structure RepresentsState (cfg : CfgInfo) (elems : List DefId) (inSets outSets : Nat → Option Bits)
    (sol : Solution Nat DefId) : Prop where
  before : ∀ b ∈ cfg.blockIds, ∃ bits, inSets b = some bits ∧ Represents elems bits (sol.before b)
  after : ∀ b ∈ cfg.blockIds, ∃ bits, outSets b = some bits ∧ Represents elems bits (sol.after b)
  none : ∀ b, b ∉ cfg.blockIds →
    inSets b = none ∧ outSets b = none ∧ sol.before b = ∅ ∧ sol.after b = ∅

structure RepresentsTables (cfg : CfgInfo) (elems : List DefId) (tables : BitTables)
    (P : GenKill Nat DefId) : Prop where
  nodup : elems.Nodup
  numDefs : tables.numDefs = elems.length
  preds : tables.predecessors = P.preds
  gen : ∀ b ∈ cfg.blockIds, ∃ bits, tables.gen b = some bits ∧ Represents elems bits (P.gen b)
  kill : ∀ b ∈ cfg.blockIds, ∃ bits, tables.kill b = some bits ∧ Represents elems bits (P.kill b)

section Iterate

variable {tables : BitTables} {P : GenKill Nat DefId} {state : BitState}
  {sol : Solution Nat DefId} (ht : RepresentsTables cfg elems tables P)
include ht

theorem represents_newIn (hs : RepresentsState cfg elems state.inSets state.outSets sol)
    (preds : List Nat) : Represents elems (preds.foldl (fun newIn pred =>
      match state.outSets pred with
      | some predOut => newIn.or predOut
      | none => newIn) (Bits.zeros tables.numDefs)) (GenKill.join sol.after preds) := by
  have key : ∀ {newIn : Bits} {s : Finset DefId}, Represents elems newIn s →
      Represents elems (preds.foldl (fun newIn pred => match state.outSets pred with
        | some predOut => newIn.or predOut
        | none => newIn) newIn) (preds.foldl (fun facts p => facts ∪ sol.after p) s) := by
    induction preds with
    | nil => exact fun h => h
    | cons p preds ih =>
      intro newIn s h
      rw [List.foldl_cons, List.foldl_cons]
      by_cases hp : p ∈ cfg.blockIds
      · obtain ⟨bits, hbits, hr⟩ := hs.after p hp
        rw [hbits]
        exact ih (h.or hr)
      · obtain ⟨-, hnone, -, hempty⟩ := hs.none p hp
        rw [hnone, hempty, Finset.union_empty]
        exact ih h
  exact key (ht.numDefs ▸ .zeros)

omit ht in
theorem enter_if_ne {table : Nat → Option Bits} {old : Bits} (new : Bits)
    (h : table b = some old) :
    (if new ≠ old then update table b (some new) else table) = update table b (some new) := by
  split_ifs with hne
  · rfl
  · rw [not_not.1 hne, ← h, Function.update_eq_self]

omit ht in
theorem visit_eq {oldIn oldOut newIn newOut : Bits} (hin : state.inSets b = some oldIn)
    (hout : state.outSets b = some oldOut)
    (hnewIn : newIn = (tables.predecessors b).foldl (fun newIn pred =>
      match state.outSets pred with
      | some predOut => newIn.or predOut
      | none => newIn) (Bits.zeros tables.numDefs))
    (hnewOut : newOut = ((tables.gen b).getD (Bits.zeros tables.numDefs)).or
      (newIn.and ((tables.kill b).getD (Bits.zeros tables.numDefs)).not)) :
    tables.visit state b = some
      { inSets := update state.inSets b (some newIn)
        outSets := update state.outSets b (some newOut)
        changed := state.changed || newIn != oldIn || newOut != oldOut } := by
  have hi := enter_if_ne newIn hin
  have ho := enter_if_ne newOut hout
  rw [← hi, ← ho]
  unfold BitTables.visit
  dsimp only
  rw [← hnewIn, ← hnewOut]
  simp only [hin, Option.bind_eq_bind, Option.bind_some]
  by_cases h₁ : newIn = oldIn <;> by_cases h₂ : newOut = oldOut <;> simp [h₁, h₂, hout]

/-- **One block**, on bits and on sets. -/
theorem visit_represents (hs : RepresentsState cfg elems state.inSets state.outSets sol)
    (hb : b ∈ cfg.blockIds) : ∃ state', tables.visit state b = some state' ∧
      RepresentsState cfg elems state'.inSets state'.outSets (P.visit sol b) ∧
      state'.changed = (P.visitNoting (sol, state.changed) b).2 := by
  obtain ⟨oldIn, hin, hrin⟩ := hs.before b hb
  obtain ⟨oldOut, hout, hrout⟩ := hs.after b hb
  obtain ⟨gen, hgen, hrgen⟩ := ht.gen b hb
  obtain ⟨kill, hkill, hrkill⟩ := ht.kill b hb
  have hnewIn := represents_newIn ht hs (P.preds b)
  generalize hx : (P.preds b).foldl _ _ = newIn at hnewIn
  have hnewOut := hrgen.or (hnewIn.and_not hrkill)
  have hnew : ((tables.gen b).getD (Bits.zeros tables.numDefs)).or
      (newIn.and ((tables.kill b).getD (Bits.zeros tables.numDefs)).not) =
        gen.or (newIn.and kill.not) := by
    rw [hgen, hkill]
    rfl
  refine ⟨_, visit_eq hin hout (by rw [ht.preds, hx]) hnew.symm, ?_, ?_⟩
  · constructor
    · intro c hc
      by_cases hcb : c = b
      · subst hcb
        exact ⟨newIn, by simp, by simpa [GenKill.visit] using hnewIn⟩
      · simpa [GenKill.visit, hcb] using hs.before c hc
    · intro c hc
      by_cases hcb : c = b
      · subst hcb
        exact ⟨_, Function.update_self .., by simpa [GenKill.visit] using hnewOut⟩
      · simpa [GenKill.visit, hcb] using hs.after c hc
    · intro c hc
      have hcb : c ≠ b := fun h => hc (h ▸ hb)
      simpa [GenKill.visit, hcb] using hs.none c hc
  · have h₁ : (newIn != oldIn) = (GenKill.join sol.after (P.preds b) != sol.before b) := by
      rw [Bool.eq_iff_iff, bne_iff_ne, bne_iff_ne, ne_eq, hnewIn.eq_iff hrin]
    have h₂ : (gen.or (newIn.and kill.not) != oldOut) =
        ((P.gen b ∪ GenKill.join sol.after (P.preds b) \ P.kill b) != sol.after b) := by
      rw [Bool.eq_iff_iff, bne_iff_ne, bne_iff_ne, ne_eq, hnewOut.eq_iff hrout]
    simp [GenKill.visitNoting, GenKill.visit, h₁, h₂]

theorem round_represents (nodes : List Nat) (hn : ∀ x ∈ nodes, x ∈ cfg.blockIds) :
    ∀ {state : BitState} {sol : Solution Nat DefId},
      RepresentsState cfg elems state.inSets state.outSets sol →
      ∃ state', nodes.foldlM tables.visit state = some state' ∧
        RepresentsState cfg elems state'.inSets state'.outSets
          (nodes.foldl P.visitNoting (sol, state.changed)).1 ∧
        state'.changed = (nodes.foldl P.visitNoting (sol, state.changed)).2 := by
  induction nodes with
  | nil => exact fun hs => ⟨_, rfl, hs, rfl⟩
  | cons b nodes ih =>
    intro state sol hs
    obtain ⟨state₁, hv, hs₁, hc₁⟩ := visit_represents ht hs (hn b List.mem_cons_self)
    obtain ⟨state₂, hv₂, hs₂, hc₂⟩ := ih (fun x hx => hn x (List.mem_cons_of_mem _ hx)) hs₁
    rw [hc₁] at hs₂ hc₂
    refine ⟨state₂, ?_, hs₂, hc₂⟩
    rw [List.foldlM_cons, hv]
    exact hv₂

/-- **All rounds**, with their number. -/
theorem iterate_represents (nodes : List Nat) (hn : ∀ x ∈ nodes, x ∈ cfg.blockIds) :
    ∀ (rounds : Nat) {state : BitState} {sol : Solution Nat DefId},
      RepresentsState cfg elems state.inSets state.outSets sol →
      ∃ state', tables.iterate nodes rounds state = some (state', P.roundsMade nodes rounds sol) ∧
        RepresentsState cfg elems state'.inSets state'.outSets (P.solve nodes rounds sol) := by
  intro rounds
  induction rounds with
  | zero => exact fun hs => ⟨_, rfl, hs⟩
  | succ rounds ih =>
    intro state sol hs
    obtain ⟨state₁, hr, hs₁, hc₁⟩ := @round_represents _ _ _ _ ht nodes hn
      { state with changed := false } sol hs
    rw [BitTables.iterate, hr]
    simp only [Option.bind_eq_bind, Option.bind_some]
    rw [GenKill.solve, GenKill.roundsMade]
    simp only
    rw [hc₁]
    split_ifs with hchanged
    · obtain ⟨state₂, hit, hs₂⟩ := ih hs₁
      exact ⟨state₂, by rw [hit]; rfl, hs₂⟩
    · exact ⟨state₁, rfl, hs₁⟩

end Iterate

/-- **The bit vectors decode to the sets** of reverse postorder, found in as many rounds. -/
theorem computeReachingDefinitionsBitvec_toStandard
    (hreach : ∀ b, cfg.Reachable b → b ∈ cfg.blockIds) (hblocks : cfg.blocks ≠ [])
    (hdefs : ∃ r ∈ refs, r.isDef) :
    ∃ bv, computeReachingDefinitionsBitvec cfg refs = some bv ∧
      bv.toStandard = (computeReachingDefinitionsRpo cfg refs).reaching ∧
      bv.iterations = (computeReachingDefinitionsRpo cfg refs).iterations := by
  obtain ⟨hbits, hnum, -⟩ := createDenseDefMapping_spec refs
  have hlen : (defIds refs).length ≠ 0 := by
    obtain ⟨r, hr, hd⟩ := hdefs
    obtain ⟨i, hi⟩ := List.mem_iff_getElem?.1 hr
    have hmem : (⟨i, r.line⟩ : DefId) ∈ defIds refs :=
      List.mem_map_of_mem (mem_defsOf.2 ⟨i, r, hi, hd, rfl⟩)
    exact (List.length_pos_of_mem hmem).ne'
  have hrpo : ∀ x ∈ computeRpo cfg, x ∈ cfg.blockIds := fun x hx =>
    hreach x (((computeRpo_spec cfg).2 x).1 hx)
  obtain ⟨tables, htables⟩ : ∃ tables : BitTables, tables =
      { numDefs := (defIds refs).length
        predecessors := cfg.predecessors
        gen := fun b => if b ∈ cfg.blockIds then
          some (genBits cfg (defIds refs).length (defsOf refs).zipIdx b) else none
        kill := fun b => if b ∈ cfg.blockIds then
          some (killBits cfg (defIds refs).length (defsOf refs).zipIdx b) else none } := ⟨_, rfl⟩
  have ht : RepresentsTables cfg (defIds refs) tables (flowProblem cfg refs (inLines cfg)) := by
    subst htables
    exact ⟨defIds_nodup refs, rfl, rfl,
      fun b hb => ⟨_, if_pos hb, represents_genBits cfg refs b⟩,
      fun b hb => ⟨_, if_pos hb, represents_killBits cfg refs b⟩⟩
  obtain ⟨start, hstart⟩ : ∃ start : BitState, start =
      ⟨fun b => if b ∈ cfg.blockIds then some (Bits.zeros (defIds refs).length) else none,
        tables.gen, false⟩ := ⟨_, rfl⟩
  have hs : RepresentsState cfg (defIds refs) start.inSets start.outSets
      (flowStart cfg refs (inLines cfg)) := by
    subst hstart
    constructor
    · exact fun b hb => ⟨_, if_pos hb, .zeros⟩
    · intro b hb
      obtain ⟨bits, hgen, hr⟩ := ht.gen b hb
      rw [flowStart]
      dsimp only
      rw [if_pos hb]
      exact ⟨bits, hgen, hr⟩
    · intro b hb
      simp [flowStart, htables, hb]
  obtain ⟨state, hit, hstate⟩ := iterate_represents ht (computeRpo cfg) hrpo 100 hs
  have hcompute : computeReachingDefinitionsBitvec cfg refs = some
      ⟨createDenseDefMapping refs, state.inSets, state.outSets,
        (computeReachingDefinitionsRpo cfg refs).iterations⟩ := by
    have hempty : (cfg.blocks.isEmpty || (defIds refs).length == 0) = false := by
      simp [hblocks, hlen]
    have hiter : (computeReachingDefinitionsRpo cfg refs).iterations =
        (flowProblem cfg refs (inLines cfg)).roundsMade (computeRpo cfg) 100
          (flowStart cfg refs (inLines cfg)) := by
      rw [computeReachingDefinitionsRpo, if_neg (by simpa using hblocks)]
    subst hstart htables
    unfold computeReachingDefinitionsBitvec
    simp only [hnum, hempty, Bool.false_eq_true, ↓reduceIte, defs_mapM, Option.bind_eq_bind,
      Option.bind_some]
    rw [hit, hiter]
    rfl
  refine ⟨_, hcompute, ?_, rfl⟩
  have hreaching : (computeReachingDefinitionsRpo cfg refs).reaching =
      let sol := (flowProblem cfg refs (inLines cfg)).solve (computeRpo cfg) 100
        (flowStart cfg refs (inLines cfg))
      ⟨sol.before, sol.after⟩ := by
    rw [computeReachingDefinitionsRpo, if_neg (by simpa using hblocks)]
  rw [hreaching, BitVectorReachingDefs.toStandard, hbits]
  dsimp only
  generalize (flowProblem cfg refs (inLines cfg)).solve _ _ _ = sol at hstate ⊢
  congr 1
  · funext b
    by_cases hb : b ∈ cfg.blockIds
    · obtain ⟨bits, hin, hr⟩ := hstate.before b hb
      rw [hin, Option.map_some, Option.getD_some, hr.decode_eq]
    · obtain ⟨hin, -, hempty, -⟩ := hstate.none b hb
      rw [hin, hempty, Option.map_none, Option.getD_none]
  · funext b
    by_cases hb : b ∈ cfg.blockIds
    · obtain ⟨bits, hout, hr⟩ := hstate.after b hb
      rw [hout, Option.map_some, Option.getD_some, hr.decode_eq]
    · obtain ⟨-, hout, -, hempty⟩ := hstate.none b hb
      rw [hout, hempty, Option.map_none, Option.getD_none]

theorem computeReachingDefinitionsBitvec_toStandard_parameter : ∃ bv,
    computeReachingDefinitionsBitvec parameterCfg [⟨"x", .definition, 2, 0⟩] = some bv ∧
      bv.toStandard =
        (computeReachingDefinitionsRpo parameterCfg [⟨"x", .definition, 2, 0⟩]).reaching ∧
      bv.iterations =
        (computeReachingDefinitionsRpo parameterCfg [⟨"x", .definition, 2, 0⟩]).iterations := by
  have hcfg : parameterCfg.WellFormed := ⟨by decide, by decide, by decide, by decide⟩
  exact computeReachingDefinitionsBitvec_toStandard (fun b hb => hcfg.reachable_mem hb)
    (by decide) ⟨_, List.mem_singleton_self _, rfl⟩

end TldrCode.Dfg
