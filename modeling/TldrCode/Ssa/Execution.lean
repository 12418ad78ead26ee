import TldrCode.Ssa.ClearPath

/-!
# Executing SSA

An execution of an SSA function follows a path of blocks. It keeps, for every SSA name, the
definition whose value the name has, and for every variable the definition executed last; a phi
function takes the source of the edge the path came in by. `PreservesUses` says that every
recorded use resolves to the definition of its variable executed last. It holds whenever no step
loses a live variable (`SsaShape.preservesUses`).
-/

namespace TldrCode.Ssa

open Function (update)
open TldrCode.Graph

/-! ## Executions -/

/-- The state of an execution. A definition is given by the name it creates, 0 is the undefined
name. -/
structure Execution where
  value : Nat → Nat
  last : String → Nat
  prev : Option Nat

def Execution.start : Execution := ⟨fun _ => 0, fun _ => 0, none⟩

def SsaFunction.varOf (ssa : SsaFunction) (id : Nat) : Option String :=
  (ssa.ssaNames.find? (·.id == id)).map (·.var)

/-- The phi functions of a block, evaluated at once. -/
def SsaBlock.enter (block : SsaBlock) (s : Execution) : Execution :=
  { s with
    value := fun id => match block.phiFunctions.find? (·.target == id) with
      | some phi =>
        ((phi.sources.find? fun source => some source.block == s.prev).map
          fun source => s.value source.name).getD 0
      | none => s.value id }

def SsaFunction.exec (ssa : SsaFunction) (s : Execution) (inst : SsaInstruction) : Execution :=
  match inst.target with
  | some id =>
    { s with
      value := update s.value id id
      last := match ssa.varOf id with
        | some var => update s.last var id
        | none => s.last }
  | none => s

/-- A block entered in the state `s`, up to its instruction number `k`. -/
def SsaFunction.execTo (ssa : SsaFunction) (block : SsaBlock) (s : Execution) (k : Nat) :
    Execution :=
  (block.instructions.take k).foldl ssa.exec (block.enter s)

/-- The block with the id `b`. -/
def SsaFunction.runBlock (ssa : SsaFunction) (s : Execution) (b : Nat) : Execution :=
  match lookupBlock ssa.blocks b with
  | some block => { ssa.execTo block s block.instructions.length with prev := some b }
  | none => { s with prev := some b }

def SsaFunction.run (ssa : SsaFunction) (path : List Nat) : Execution :=
  path.foldl ssa.runBlock .start

/-- The name that a use of `var` in the instruction resolves to: its operand for `var`, and the
undefined name if there is none. -/
def SsaInstruction.operand (ssa : SsaFunction) (inst : SsaInstruction) (var : String) : Nat :=
  (inst.uses.find? fun u => ssa.varOf u == some var).getD 0

/-- Along every path from the entry, every recorded use has the value of the definition of its
variable executed last. -/
def PreservesUses (cfg : CfgInfo) (dfg : DfgInfo) (ssa : SsaFunction) : Prop :=
  ∀ path b, Walk cfg.Edge cfg.entryBlock b (path ++ [b]) → ∀ k v, RecordsUse cfg dfg b k v →
    ∃ block inst, lookupBlock ssa.blocks b = some block ∧ block.instructions[k]? = some inst ∧
      (ssa.execTo block (ssa.run path) k).value (inst.operand ssa v) =
        (ssa.execTo block (ssa.run path) k).last v

variable {ctx : SsaRenamingContext} {placements : Nat → List String} {ssa : SsaFunction}
  {N : Naming} {block : SsaBlock} {s : Execution} {path : List Nat} {v : String}
  {b c d i id k n p u : Nat} {r : VarRef}

theorem run_concat (path : List Nat) (b : Nat) :
    ssa.run (path ++ [b]) = ssa.runBlock (ssa.run path) b := by
  simp [SsaFunction.run]

theorem run_concat_prev : (ssa.run (path ++ [b])).prev = some b := by
  rw [run_concat, SsaFunction.runBlock]
  split <;> rfl

namespace SsaShape

variable (h : SsaShape ctx placements ssa N)
include h

theorem varOf_eq (hc : ctx.Visited c) (hn : NamedIn ctx placements N c v id) :
    ssa.varOf id = some v := by
  obtain ⟨i, hi, rfl⟩ := hn
  obtain ⟨name, hname, hid, hvar, -⟩ := h.named c hc i v hi
  have hnodup : (ssa.ssaNames.map (·.id)).Nodup := by
    rw [h.names]
    exact List.nodup_range'
  rw [SsaFunction.varOf, ← hid, find?_of_nodup hnodup hname, Option.map_some, hvar]

theorem varOf_after (hc : ctx.Visited c) (ha : N.after ctx placements c k v = some id) :
    ssa.varOf id = some v := by
  rcases Naming.after_eq_some ha with ⟨i, -, hi, rfl⟩ | hcur
  · exact h.varOf_eq hc ⟨i, hi, rfl⟩
  · obtain ⟨d, hd, -, hn⟩ := h.cur_spec hc hcur
    exact h.varOf_eq hd hn

theorem lookup (hc : ctx.Visited c) : ∃ block, lookupBlock ssa.blocks c = some block ∧
    block.id = c ∧ block ∈ ssa.blocks ∧ IsRenamed ctx placements N block := by
  obtain ⟨block, hb, hid, hr⟩ := h.visited c hc
  refine ⟨block, ?_, hid, List.mem_of_getElem? hb, hr⟩
  have hidx : ssa.blocks.findIdx (·.id == c) = ctx.cfg.blockIds.findIdx (· == c) := by
    rw [← h.ids, List.findIdx_map]
    rfl
  rw [← getElem?_findIdx_id, hidx, hb]

/-- The name a recorded use resolves to is the one current at its instruction. -/
theorem operand_eq (hc : ctx.Visited c) (hu : RecordsUse ctx.cfg ctx.dfg c k v)
    (hr : IsRenamed ctx placements N block) (hid : block.id = c) :
    ∃ inst, block.instructions[k]? = some inst ∧
      inst.operand ssa v = (N.after ctx placements c k v).getD 0 := by
  obtain ⟨d, hd, hrec⟩ := hu
  have hinst := hr.getElem?_instructions k
  rw [hid, hd, Option.map_some] at hinst
  refine ⟨_, hinst, ?_⟩
  have hmem : ∀ u, N.after ctx placements c k v = some u →
      u ∈ usesOf ctx c d (N.after ctx placements c k) := by
    intro u hu
    rw [mem_usesOf]
    rcases hrec with ⟨hupd, rfl⟩ | ⟨hne, r, hr, hline, rfl, huse, hblock⟩
    · exact .inl ⟨hupd, hu⟩
    · exact .inr ⟨r, hr, hline, hne.symm, huse, hblock, hu⟩
  rw [SsaInstruction.operand, instructionFor]
  cases hf : (usesOf ctx c d (N.after ctx placements c k)).find?
      fun u => ssa.varOf u == some v with
  | some u =>
    -- an operand for `v` is the current name of some variable, which is `v`
    obtain ⟨w, hw⟩ := exists_of_mem_usesOf (List.mem_of_find?_eq_some hf)
    have hv : ssa.varOf u = some v := by simpa using List.find?_some hf
    rw [h.varOf_after hc hw, Option.some_inj] at hv
    rw [← hv, hw]
  | none =>
    cases ha : N.after ctx placements c k v with
    | none => rfl
    | some u =>
      have := List.find?_eq_none.1 hf u (hmem u ha)
      rw [h.varOf_after hc ha] at this
      simp at this

end SsaShape

/-! ## One block -/

/-- `id` is one of the names that the block `c` creates. -/
def Owned (ctx : SsaRenamingContext) (placements : Nat → List String) (N : Naming) (c id : Nat) :
    Prop :=
  N.start c ≤ id ∧ id < N.stop ctx placements c

theorem NamedIn.owned (hn : NamedIn ctx placements N c v id) : Owned ctx placements N c id := by
  obtain ⟨i, hi, rfl⟩ := hn
  have := (List.getElem?_eq_some_iff.1 hi).1
  exact ⟨Nat.le_add_right _ _, Nat.add_lt_add_left this _⟩

theorem Naming.after_succ (hd : (blockDefs ctx.cfg ctx.dfg c)[k]? = some r) :
    N.after ctx placements c (k + 1) = update (N.after ctx placements c k) r.name
      (some (N.start c + (placements c).length + k)) := by
  have hlt := (List.getElem?_eq_some_iff.1 hd).1
  rw [Naming.after, List.take_add_one, hd, Option.toList_some, List.map_append, List.map_cons,
    List.map_nil, ← List.append_assoc, namesFrom_concat, List.length_append, List.length_map,
    List.length_take, Nat.min_eq_left hlt.le, ← Nat.add_assoc]
  rfl

/-- A block starts with the names of its phi functions, and else with those it was handed. -/
theorem Naming.after_zero_of_notMem (hv : v ∉ placements c) :
    N.after ctx placements c 0 v = N.cur c v := by
  simp only [Naming.after, List.take_zero, List.map_nil, List.append_nil]
  exact namesFrom_of_notMem hv

theorem Naming.after_zero_of_mem (N : Naming) (ctx : SsaRenamingContext)
    (hv : v ∈ placements c) : ∃ i, (placements c)[i]? = some v ∧
    N.after ctx placements c 0 v = some (N.start c + i) := by
  simp only [Naming.after, List.take_zero, List.map_nil, List.append_nil]
  obtain ⟨i, hi, hn⟩ := namesFrom_of_mem hv
  exact ⟨i, hi, hn _ _⟩

theorem Naming.after_of_notMem (hk : v ∉ ((blockDefs ctx.cfg ctx.dfg c).take k).map (·.name)) :
    N.after ctx placements c k v = N.after ctx placements c 0 v := by
  rw [← Naming.after_append]
  exact namesFrom_of_notMem hk

theorem owned_phi (N : Naming) (hi : i < (placements c).length) :
    Owned ctx placements N c (N.start c + i) := by
  refine ⟨by omega, ?_⟩
  rw [Naming.stop, blockVars, List.length_append]
  omega

theorem owned_definition (N : Naming) (hd : (blockDefs ctx.cfg ctx.dfg c)[k]? = some r) :
    Owned ctx placements N c (N.start c + (placements c).length + k) := by
  have hlt := (List.getElem?_eq_some_iff.1 hd).1
  refine ⟨by omega, ?_⟩
  rw [Naming.stop, blockVars, List.length_append, List.length_map]
  omega

namespace SsaShape

variable (h : SsaShape ctx placements ssa N)
include h

theorem eq_of_owned (hc : ctx.Visited c) (hd : ctx.Visited d) (ho : Owned ctx placements N c id)
    (ho' : Owned ctx placements N d id) : c = d :=
  h.eq_of_range hc hd ho.1 ho.2 ho'.1 ho'.2

theorem not_owned_of_ne (hc : ctx.Visited c) (hd : ctx.Visited d) (hne : c ≠ d)
    (ho : Owned ctx placements N c id) : ¬ Owned ctx placements N d id :=
  fun ho' => hne (h.eq_of_owned hc hd ho ho')

theorem not_owned_zero (hc : ctx.Visited c) : ¬ Owned ctx placements N c 0 := by
  have := h.start_pos c hc
  exact fun ho => absurd ho.1 (by omega)

theorem not_owned_cur (hc : ctx.Visited c) (v : String) :
    ¬ Owned ctx placements N c ((N.cur c v).getD 0) := by
  cases hcur : N.cur c v with
  | none => exact h.not_owned_zero hc
  | some id =>
    obtain ⟨d, hd, hdom, hn⟩ := h.cur_spec hc hcur
    exact h.not_owned_of_ne hd hc hdom.2 hn.owned

theorem after_ne (hc : ctx.Visited c) (hd : (blockDefs ctx.cfg ctx.dfg c)[k]? = some r)
    (v : String) :
    (N.after ctx placements c k v).getD 0 ≠ N.start c + (placements c).length + k := by
  have hown : Owned ctx placements N c _ := owned_definition N hd
  intro he
  rw [← he] at hown
  cases ha : N.after ctx placements c k v with
  | none => exact h.not_owned_zero hc (by rwa [ha] at hown)
  | some id =>
    rw [ha, Option.getD_some] at he hown
    rcases Naming.after_eq_some ha with ⟨i, hi, -, rfl⟩ | hcur
    · omega
    · refine h.not_owned_cur hc v ?_
      rwa [hcur]

end SsaShape

namespace IsRenamed

variable (h : SsaShape ctx placements ssa N) (hr : IsRenamed ctx placements N block)
  (hb : block ∈ ssa.blocks) (hc : ctx.Visited block.id)
include hr

theorem exists_phi (hi : (placements block.id)[i]? = some v) : ∃ phi ∈ block.phiFunctions,
    phi.target = N.start block.id + i ∧ phi.var = v := by
  have hmem : ((N.start block.id + i, v) : Nat × String) ∈
      block.phiFunctions.map fun phi => (phi.target, phi.var) := by
    rw [hr.phis]
    refine List.mem_map.2 ⟨(v, N.start block.id + i), ?_, rfl⟩
    exact List.mem_iff_getElem?.2 ⟨i, by rw [List.getElem?_zipIdx, hi]; rfl⟩
  obtain ⟨phi, hphi, he⟩ := List.mem_map.1 hmem
  rw [Prod.mk.injEq] at he
  exact ⟨phi, hphi, he⟩

theorem find?_phi (hi : (placements block.id)[i]? = some v) : ∃ phi ∈ block.phiFunctions,
    block.phiFunctions.find? (·.target == N.start block.id + i) = some phi ∧ phi.var = v := by
  obtain ⟨phi, hphi, ht, hv⟩ := hr.exists_phi hi
  have hnodup : (block.phiFunctions.map (·.target)).Nodup := by
    rw [hr.phi_targets]
    exact List.nodup_range'
  exact ⟨phi, hphi, ht ▸ find?_of_nodup hnodup hphi, hv⟩

theorem enter_value (hid : ¬ Owned ctx placements N block.id id) :
    (block.enter s).value id = s.value id := by
  have hnone : block.phiFunctions.find? (·.target == id) = none := by
    rw [List.find?_eq_none]
    intro phi hphi he
    have hmem := List.mem_map_of_mem (f := (·.target)) hphi
    rw [hr.phi_targets, List.mem_range'] at hmem
    obtain ⟨i, hi, htarget⟩ := hmem
    rw [beq_iff_eq] at he
    rw [← he, htarget, Nat.one_mul] at hid
    exact hid (owned_phi N hi)
  simp only [SsaBlock.enter, hnone]

include h hc in
theorem enter_cur (hphi : v ∉ placements block.id) :
    (block.enter s).value ((N.after ctx placements block.id 0 v).getD 0) =
      s.value ((N.cur block.id v).getD 0) := by
  rw [Naming.after_zero_of_notMem hphi, hr.enter_value (h.not_owned_cur hc v)]

theorem enter_phi_start (hi : (placements block.id)[i]? = some v) (hp : s.prev = none) :
    (block.enter s).value (N.start block.id + i) = 0 := by
  obtain ⟨phi, hphi, hf, rfl⟩ := hr.find?_phi hi
  simp only [SsaBlock.enter, hf, hp]
  have hnone : (phi.sources.find? fun source => some source.block == none) = none := by
    rw [List.find?_eq_none]
    simp
  rw [hnone]
  rfl

include h hb

/-- A phi function takes the value that its variable has at the end of the block before. -/
theorem enter_phi (hi : (placements block.id)[i]? = some v) (hp : s.prev = some p)
    (he : ctx.cfg.Edge p block.id) : (block.enter s).value (N.start block.id + i) =
      s.value ((N.exit p v).getD 0) := by
  obtain ⟨phi, hphi, hf, rfl⟩ := hr.find?_phi hi
  simp only [SsaBlock.enter, hf, hp, h.sources block hb phi hphi, Naming.sources]
  obtain ⟨source, hs⟩ : ∃ source, List.find? (fun source : PhiSource => some source.block == some p)
      ((ctx.cfg.predecessors block.id).map fun p =>
        ({ block := p, name := (N.exit p phi.var).getD 0 } : PhiSource)) = some source := by
    rw [← Option.isSome_iff_exists, List.find?_isSome]
    exact ⟨_, List.mem_map.2 ⟨p, CfgInfo.mem_predecessors.2 he, rfl⟩, by simp⟩
  rw [hs]
  obtain ⟨q, -, rfl⟩ := List.mem_map.1 (List.mem_of_find?_eq_some hs)
  have hq : q = p := by simpa using List.find?_some hs
  rw [hq]
  rfl

omit hb
include hc

theorem execTo_succ (hd : (blockDefs ctx.cfg ctx.dfg block.id)[k]? = some r) :
    let t := N.start block.id + (placements block.id).length + k
    ssa.execTo block s (k + 1) = { ssa.execTo block s k with
      value := update (ssa.execTo block s k).value t t
      last := update (ssa.execTo block s k).last r.name t } := by
  have hinst := hr.getElem?_instructions k
  rw [hd, Option.map_some] at hinst
  have hvar : ssa.varOf (N.start block.id + (placements block.id).length + k) = some r.name := by
    refine h.varOf_eq hc ⟨(placements block.id).length + k, ?_, Nat.add_assoc _ _ _⟩
    rw [blockVars, List.getElem?_append_right (Nat.le_add_right _ _), Nat.add_sub_cancel_left,
      List.getElem?_map, hd, Option.map_some]
  simp only [SsaFunction.execTo, List.take_add_one, hinst, Option.toList_some, List.foldl_append,
    List.foldl_cons, List.foldl_nil, SsaFunction.exec, instructionFor, hvar]

omit h hc in
theorem execTo_of_none (hd : (blockDefs ctx.cfg ctx.dfg block.id)[k]? = none) :
    ssa.execTo block s (k + 1) = ssa.execTo block s k := by
  have hinst := hr.getElem?_instructions k
  rw [hd, Option.map_none] at hinst
  rw [SsaFunction.execTo, List.take_add_one, hinst, Option.toList_none, List.append_nil,
    SsaFunction.execTo]

theorem execTo_value (hid : ¬ Owned ctx placements N block.id id) (k : Nat) :
    (ssa.execTo block s k).value id = s.value id := by
  induction k with
  | zero => exact hr.enter_value hid
  | succ k ih =>
    cases hd : (blockDefs ctx.cfg ctx.dfg block.id)[k]? with
    | none => rw [hr.execTo_of_none hd, ih]
    | some r =>
      rw [hr.execTo_succ h hc hd]
      dsimp only
      rw [Function.update_of_ne, ih]
      rintro rfl
      exact hid (owned_definition N hd)

/-- What a name has after some instructions it had before, or the block made. -/
theorem execTo_value_cases (id k : Nat) :
    (ssa.execTo block s k).value id = (block.enter s).value id ∨
      Owned ctx placements N block.id ((ssa.execTo block s k).value id) := by
  induction k with
  | zero => exact .inl rfl
  | succ k ih =>
    cases hd : (blockDefs ctx.cfg ctx.dfg block.id)[k]? with
    | none => rwa [hr.execTo_of_none hd]
    | some r =>
      rw [hr.execTo_succ h hc hd]
      dsimp only
      by_cases hid : id = N.start block.id + (placements block.id).length + k
      · rw [hid, Function.update_self]
        exact .inr (owned_definition N hd)
      · rw [Function.update_of_ne hid]
        exact ih

theorem execTo_last (v : String) (k : Nat) :
    (v ∉ ((blockDefs ctx.cfg ctx.dfg block.id).take k).map (·.name) ∧
      (ssa.execTo block s k).last v = s.last v) ∨
    (v ∈ ((blockDefs ctx.cfg ctx.dfg block.id).take k).map (·.name) ∧
      Owned ctx placements N block.id ((ssa.execTo block s k).last v)) := by
  induction k with
  | zero => exact .inl ⟨by simp, rfl⟩
  | succ k ih =>
    cases hd : (blockDefs ctx.cfg ctx.dfg block.id)[k]? with
    | none => rwa [hr.execTo_of_none hd, List.take_add_one, hd, Option.toList_none, List.append_nil]
    | some r =>
      rw [hr.execTo_succ h hc hd, List.take_add_one, hd, Option.toList_some, List.map_append]
      simp only [List.map_cons, List.map_nil, List.mem_append, List.mem_singleton]
      by_cases hv : v = r.name
      · rw [hv, Function.update_self]
        exact .inr ⟨.inr rfl, owned_definition N hd⟩
      · rw [Function.update_of_ne hv]
        simpa [hv] using ih

theorem execTo_current (hk : v ∉ ((blockDefs ctx.cfg ctx.dfg block.id).take k).map (·.name)) :
    (ssa.execTo block s k).value ((N.after ctx placements block.id k v).getD 0) =
      (block.enter s).value ((N.after ctx placements block.id 0 v).getD 0) := by
  induction k with
  | zero => rfl
  | succ k ih =>
    cases hd : (blockDefs ctx.cfg ctx.dfg block.id)[k]? with
    | none =>
      rw [List.take_add_one, hd, Option.toList_none, List.append_nil] at hk
      rw [hr.execTo_of_none hd, ← ih hk, Naming.after, Naming.after, List.take_add_one, hd,
        Option.toList_none, List.append_nil]
    | some r =>
      rw [List.take_add_one, hd, Option.toList_some, List.map_append, List.mem_append, not_or]
        at hk
      have hv : v ≠ r.name := by simpa using hk.2
      rw [hr.execTo_succ h hc hd, Naming.after_succ hd, Function.update_of_ne hv]
      dsimp only
      rw [Function.update_of_ne (h.after_ne hc hd v), ih hk.1]

/-- If the name of `v` has the right value where the block is entered, or `v` has been defined
since, then it has the right value. -/
theorem execTo_agrees (hv : (block.enter s).value ((N.after ctx placements block.id 0 v).getD 0) =
      s.last v ∨ v ∈ ((blockDefs ctx.cfg ctx.dfg block.id).take k).map (·.name)) :
    (ssa.execTo block s k).value ((N.after ctx placements block.id k v).getD 0) =
      (ssa.execTo block s k).last v := by
  induction k with
  | zero => exact hv.resolve_right (by simp)
  | succ k ih =>
    cases hd : (blockDefs ctx.cfg ctx.dfg block.id)[k]? with
    | none =>
      rw [List.take_add_one, hd, Option.toList_none, List.append_nil] at hv
      rw [hr.execTo_of_none hd, ← ih hv, Naming.after, Naming.after, List.take_add_one, hd,
        Option.toList_none, List.append_nil]
    | some r =>
      rw [List.take_add_one, hd, Option.toList_some, List.map_append, List.mem_append] at hv
      rw [hr.execTo_succ h hc hd, Naming.after_succ hd]
      by_cases hr : v = r.name
      · simp [hr]
      · rw [Function.update_of_ne hr]
        dsimp only
        rw [Function.update_of_ne (h.after_ne hc hd v), Function.update_of_ne hr]
        exact ih (hv.imp_right fun hv => hv.resolve_right (by simpa using hr))

end IsRenamed

namespace SsaShape

variable (h : SsaShape ctx placements ssa N) {l m : List Nat}
include h

theorem runBlock_eq (hc : ctx.Visited c) (s : Execution) : ∃ block,
    lookupBlock ssa.blocks c = some block ∧ block.id = c ∧ block ∈ ssa.blocks ∧
      IsRenamed ctx placements N block ∧ ssa.runBlock s c =
        { ssa.execTo block s (blockDefs ctx.cfg ctx.dfg c).length with prev := some c } := by
  obtain ⟨block, hl, hid, hb, hr⟩ := h.lookup hc
  refine ⟨block, hl, hid, hb, hr, ?_⟩
  have hlen : block.instructions.length = (blockDefs ctx.cfg ctx.dfg c).length := by
    have := congrArg List.length (instructionsFrom_targets ctx block.id
      (blockDefs ctx.cfg ctx.dfg block.id) (N.after ctx placements block.id 0)
      (N.start block.id + (placements block.id).length))
    rw [← hr.instructions, hid] at this
    simpa using this
  rw [SsaFunction.runBlock, hl]
  dsimp only
  rw [hlen]

theorem run_value (hm : ∀ c ∈ m, ctx.Visited c ∧ ¬ Owned ctx placements N c id) :
    (ssa.run (l ++ m)).value id = (ssa.run l).value id := by
  induction m using List.reverseRecOn with
  | nil => rw [List.append_nil]
  | append_singleton m c ih =>
    obtain ⟨hc, hid⟩ := hm c (by simp)
    obtain ⟨block, -, rfl, -, hr, hrun⟩ := h.runBlock_eq hc (ssa.run (l ++ m))
    rw [← List.append_assoc, run_concat, hrun]
    exact (hr.execTo_value h hc hid _).trans
      (ih fun c hc => hm c (List.mem_append_left _ hc))

theorem run_last (v : String) (hm : ∀ c ∈ m, ctx.Visited c) :
    ((∀ c ∈ m, ¬ DefinesIn ctx.cfg ctx.dfg v c) ∧ (ssa.run (l ++ m)).last v = (ssa.run l).last v) ∨
      ∃ c ∈ m, Owned ctx placements N c ((ssa.run (l ++ m)).last v) := by
  induction m using List.reverseRecOn with
  | nil => exact .inl ⟨by simp, by rw [List.append_nil]⟩
  | append_singleton m c ih =>
    have hc := hm c (by simp)
    obtain ⟨block, -, rfl, -, hr, hrun⟩ := h.runBlock_eq hc (ssa.run (l ++ m))
    have hlast := hr.execTo_last h hc (s := ssa.run (l ++ m)) v
      (blockDefs ctx.cfg ctx.dfg block.id).length
    rw [List.take_length, mem_blockDefs] at hlast
    rw [← List.append_assoc, run_concat, hrun]
    dsimp only
    rcases hlast with ⟨hv, hlast⟩ | ⟨-, hown⟩
    · rw [hlast]
      rcases ih fun c hc => hm c (List.mem_append_left _ hc) with ⟨hnone, hl⟩ | ⟨d, hd, hown⟩
      · refine .inl ⟨fun d hd => ?_, hl⟩
        rcases List.mem_append.1 hd with hd | hd
        · exact hnone d hd
        · rw [List.mem_singleton.1 hd]
          exact hv
      · exact .inr ⟨d, List.mem_append_left _ hd, hown⟩
    · exact .inr ⟨block.id, by simp, hown⟩

section

variable (hcfg : ctx.cfg.WellFormed) (htree : IsDominatorTree ctx.cfg ctx.domTree)
  (hlost : ∀ v p b, Lost ctx.cfg ctx.dfg (fun v b => v ∈ placements b) v p b →
    ¬ LiveIn ctx.cfg ctx.dfg v b)
include hcfg htree hlost

/-- Where a block is entered, the name of a live variable has the right value, if no step loses a
live variable. -/
theorem enter_agrees (hw : Walk ctx.cfg.Edge ctx.cfg.entryBlock block.id (path ++ [block.id]))
    (hb : block ∈ ssa.blocks) (hr : IsRenamed ctx placements N block)
    (hv : LiveIn ctx.cfg ctx.dfg v block.id) :
    (block.enter (ssa.run path)).value ((N.after ctx placements block.id 0 v).getD 0) =
      (ssa.run path).last v := by
  have hvis : ∀ {c}, ctx.cfg.Reachable c → ctx.Visited c := visited_of_reachable hcfg htree
  have hc : ctx.Visited block.id := hvis ⟨_, hw⟩
  induction path using List.reverseRecOn generalizing block with
  | nil =>
    have hentry : block.id = ctx.cfg.entryBlock := by simpa using hw.head
    by_cases hphi : v ∈ placements block.id
    · obtain ⟨i, hi, ha⟩ := N.after_zero_of_mem ctx hphi
      rw [ha, Option.getD_some, hr.enter_phi_start hi rfl]
      rfl
    · have hcur : N.cur block.id v = none := by
        rw [hentry]
        exact h.cur_entry (hentry ▸ hc) v
      rw [hr.enter_cur h hc hphi, hcur]
      rfl
  | append_singleton path p ih =>
    obtain ⟨q, hq, he⟩ := hw.exists_last_step (by simp)
    obtain rfl : q = p := by simpa using hq.last.symm
    have hp : ctx.Visited q := hvis ⟨_, hq⟩
    obtain ⟨blockP, -, rfl, hbP, hrP, hrun⟩ := h.runBlock_eq hp (ssa.run path)
    -- the name at the end of the block before is right: it is defined there, or live where the
    -- block starts
    have hout : (ssa.run (path ++ [blockP.id])).value
        ((N.out ctx placements blockP.id v).getD 0) = (ssa.run (path ++ [blockP.id])).last v := by
      rw [run_concat, hrun, ← Naming.after_length]
      refine hrP.execTo_agrees h hp ?_
      rw [List.take_length, mem_blockDefs, or_iff_not_imp_right]
      exact fun hdef => ih hq hbP hrP (hv.of_edge he hdef) hp
    have hexit := h.exit_visited blockP.id hp
    by_cases hphi : v ∈ placements block.id
    · obtain ⟨i, hi, ha⟩ := N.after_zero_of_mem ctx hphi
      rw [ha, Option.getD_some, hr.enter_phi h hb hi run_concat_prev he, hexit]
      exact hout
    · have hnot : ¬ Lost ctx.cfg ctx.dfg (fun v b => v ∈ placements b) v blockP.id block.id :=
        fun hl => hlost v _ _ hl hv
      rw [hr.enter_cur h hc hphi, h.cur_eq_out hp hc he hphi hnot]
      exact hout

/-- **Renaming preserves the uses** if no step loses a live variable. -/
theorem preservesUses : PreservesUses ctx.cfg ctx.dfg ssa := by
  intro path b hw k v hu
  have hc : ctx.Visited b := visited_of_reachable hcfg htree ⟨_, hw⟩
  obtain ⟨block, hl, rfl, hb, hr⟩ := h.lookup hc
  obtain ⟨inst, hinst, hop⟩ := h.operand_eq hc hu hr rfl
  refine ⟨block, inst, hl, hinst, ?_⟩
  rw [hop]
  refine hr.execTo_agrees h hc ?_
  rw [or_iff_not_imp_right]
  exact fun hk => h.enter_agrees hcfg htree hlost hw hb hr (.of_use hu hk)

end

end SsaShape

end TldrCode.Ssa
