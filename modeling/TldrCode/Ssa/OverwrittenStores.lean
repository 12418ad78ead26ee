import Mathlib.Data.Bool.Basic
import Mathlib.Data.Prod.Lex
import Mathlib.Data.String.Basic
import TldrCode.Grouping
import TldrCode.Ssa.UsedDefinitions

/-!
# Stores that are overwritten

`find_dead_stores_dfg` reports the stores of a variable that is never used, and those with no use on
the lines before the next definition in the block. A store is dead if on no path the first reference
executed after it reads the variable. An update reads, which the search does not take for a use, and
so does a use on the line of the next definition, as in `x = x + 1` (`reportsDead_iff`).
-/

namespace TldrCode.Ssa

section Search

variable (refs : List VarRef) (cfg : CfgInfo) (var : String)

/-- `var_refs`, sorted. -/
def varRefs : List VarRef := (refs.filter (·.name = var)).insertionSort (·.line ≤ ·.line)

def firstDefLine : Option Nat := ((refs.filter (·.refType = .definition)).map (·.line)).min?

def isParameter : Bool :=
  match firstDefLine refs, (varRefs refs var).head? with
  | some line, some r => r.line = line && r.refType = .definition
  | _, _ => false

/-- A definition: its line, the block of the line, and its version. -/
structure StoreSite where
  line : Nat
  blockId : Nat
  version : Nat
  deriving DecidableEq, Repr

/-- The site of the definition with this version. -/
def storeSite (r : VarRef) (version : Nat) : StoreSite :=
  ⟨r.line, (lineToBlock cfg r.line).getD 0, version⟩

def definitions : List StoreSite :=
  (((varRefs refs var).filter VarRef.isDef).zipIdx 1).map fun (r, version) =>
    storeSite cfg r version

/-- `uses`. -/
def useLines : List Nat := ((varRefs refs var).filter (·.refType = .use)).map (·.line)

def reportStore (site : StoreSite) : DeadStore where
  var := var
  ssaName := var ++ "_" ++ toString site.version
  line := site.line
  blockId := site.blockId
  isPhi := false

def hasUseBetween (site next : StoreSite) : Bool :=
  (useLines refs var).any fun line => site.line < line && line < next.line

/-- One variable in `find_dead_stores_dfg`. -/
def deadStoresOf : List DeadStore :=
  let sites := definitions refs cfg var
  if (useLines refs var).isEmpty && !sites.isEmpty && !isParameter refs var then
    sites.map (reportStore var)
  else sites.zipIdx.filterMap fun (site, i) =>
    if isParameter refs var && i == 0 then none
    else match (sites.drop (i + 1)).find? (·.blockId = site.blockId) with
      | none => none
      | some next =>
        if hasUseBetween refs var site next then none else some (reportStore var site)

def DeadStore.Before (store store' : DeadStore) : Prop :=
  toLex (store.line, store.var) ≤ toLex (store'.line, store'.var)

instance : DecidableRel DeadStore.Before := fun store store' =>
  inferInstanceAs (Decidable (toLex (store.line, store.var) ≤ toLex (store'.line, store'.var)))

def findDeadStoresDfg (ord : HashOrder) : List DeadStore :=
  ((ord.order (refs.map (·.name)).eraseDups).flatMap
    (deadStoresOf refs cfg)).insertionSort DeadStore.Before

end Search

/-! ## Dead stores -/

section Paths

variable (refs : List VarRef) (cfg : CfgInfo) (var : String)

/-- By line, and on a line those that only read come before those that write. -/
def execKey (r : VarRef) : ℕ ×ₗ Bool := toLex (r.line, r.isDef)

/-- The references of a variable in the order in which a block executes them. -/
def executed : List VarRef := (varRefs refs var).insertionSort fun r r' => execKey r ≤ execKey r'

def OnBlock (b line : Nat) : Prop :=
  ∃ block ∈ cfg.blocks, block.id = b ∧ block.lines.1 ≤ line ∧ line ≤ block.lines.2

instance (b line : Nat) : Decidable (OnBlock cfg b line) :=
  inferInstanceAs (Decidable (∃ block ∈ cfg.blocks, _))

/-- Those of the references that the block executes. -/
def blockRefs (b : Nat) (rs : List VarRef) : List VarRef := rs.filter (OnBlock cfg b ·.line)

/-- What is executed in the block from the references on that remain there, and then on a path. -/
def trace (b : Nat) (remaining : List VarRef) (path : List Nat) : List VarRef :=
  blockRefs cfg b remaining ++ path.flatMap fun c => blockRefs cfg c (executed refs var)

/-- The reference stores the version of the variable; these references remain then in its block. -/
def IsStore (version : Nat) (r : VarRef) (remaining : List VarRef) : Prop :=
  ∃ before, executed refs var = before ++ r :: remaining ∧ r.isDef = true ∧
    before.countP VarRef.isDef + 1 = version

/-- A path on which the stored value is read before the variable is written. -/
def StoredValueRead (b : Nat) (remaining : List VarRef) : Prop :=
  ∃ path, (b :: path).IsChain cfg.Edge ∧
    ∃ r, (trace refs cfg var b remaining path).head? = some r ∧ r.refType ≠ .definition

/-- **Every reported store is dead** in each block that it is executed in. -/
def ReportsDead (ord : HashOrder) : Prop :=
  ∀ store ∈ findDeadStoresDfg refs cfg ord, ∃ version r remaining,
    IsStore refs store.var version r remaining ∧
      store = reportStore store.var (storeSite cfg r version) ∧
        ∀ b, OnBlock cfg b r.line → ¬ StoredValueRead refs cfg store.var b remaining

/-! ## The condition -/

/-- The variable is not used and no parameter. -/
def NeverUsed : Prop := useLines refs var = [] ∧ isParameter refs var = false

def UpdateReached (b : Nat) (remaining : List VarRef) : Prop :=
  ∃ path, (b :: path).IsChain cfg.Edge ∧
    ∃ r ∈ trace refs cfg var b remaining path, r.refType = .update

/-- A definition, no parameter, and the next one in its block, without a use between the lines. -/
def Overwritten (site next : StoreSite) : Prop :=
  ¬ (isParameter refs var = true ∧ site.version = 1) ∧
    ((definitions refs cfg var).drop site.version).find? (·.blockId = site.blockId) = some next ∧
      hasUseBetween refs var site next = false

/-- The definition that comes next in the block only writes, on the line of the store or on a line
without a use. -/
def WrittenFirst (b line : Nat) (remaining : List VarRef) : Prop :=
  ∃ e, (blockRefs cfg b remaining).find? VarRef.isDef = some e ∧ e.refType = .definition ∧
    (e.line = line ∨ e.line ∉ useLines refs var)

/-- What is reported is dead: updates of variables that are not used are not reached, and where the
next definition is in the block it is what comes next. -/
structure OnlyWrites : Prop where
  unused : ∀ var, NeverUsed refs var → ∀ version r remaining,
    IsStore refs var version r remaining → ∀ b, OnBlock cfg b r.line →
      ¬ UpdateReached refs cfg var b remaining
  overwritten : ∀ var, ¬ NeverUsed refs var → ∀ version r remaining,
    IsStore refs var version r remaining → ∀ next,
      Overwritten refs cfg var (storeSite cfg r version) next → ∀ b, OnBlock cfg b r.line →
        (OnBlock cfg b next.line → WrittenFirst refs cfg var b r.line remaining) ∧
          (¬ OnBlock cfg b next.line → ¬ StoredValueRead refs cfg var b remaining)

end Paths

/-! ## The order of execution -/

variable {refs : List VarRef} {cfg : CfgInfo} {var : String} {version b : Nat} {r r' : VarRef}
  {remaining : List VarRef} {next : StoreSite} {path : List Nat} {before after : List VarRef}

theorem pairwise_varRefs : (varRefs refs var).Pairwise fun r r' => r.line ≤ r'.line := by
  exact List.pairwise_insertionSort _ _

theorem pairwise_executed (refs : List VarRef) (var : String) :
    (executed refs var).Pairwise fun r r' => execKey r ≤ execKey r' := by
  exact List.pairwise_insertionSort _ _

theorem mem_executed : r ∈ executed refs var ↔ r ∈ refs ∧ r.name = var := by
  unfold executed varRefs
  rw [List.mem_insertionSort, List.mem_insertionSort, List.mem_filter, decide_eq_true_eq]

theorem mem_useLines {line : Nat} :
    line ∈ useLines refs var ↔ ∃ r ∈ executed refs var, r.refType = .use ∧ r.line = line := by
  unfold useLines executed
  simp only [List.mem_map, List.mem_filter, List.mem_insertionSort, decide_eq_true_eq, and_assoc]

theorem filter_executed :
    (executed refs var).filter VarRef.isDef = (varRefs refs var).filter VarRef.isDef := by
  refine filter_insertionSort_eq ?_
  rw [List.pairwise_filter]
  refine pairwise_varRefs.imp fun {r r'} hle hr hr' => ?_
  rw [execKey, execKey, hr, hr', Prod.Lex.toLex_le_toLex]
  exact (Nat.lt_or_eq_of_le hle).imp_right fun heq => ⟨heq, le_rfl⟩

theorem line_le_of_execKey (h : execKey r ≤ execKey r') : r.line ≤ r'.line := by
  rw [execKey, execKey, Prod.Lex.toLex_le_toLex] at h
  rcases h with hlt | ⟨heq, -⟩
  · exact le_of_lt hlt
  · exact le_of_eq heq

theorem line_lt_of_execKey (h : execKey r ≤ execKey r') (hr : r.isDef = true)
    (hr' : r'.isDef = false) : r.line < r'.line := by
  rw [execKey, execKey, Prod.Lex.toLex_le_toLex, hr, hr'] at h
  rcases h with hlt | ⟨-, hle⟩
  · exact hlt
  · exact absurd (show true ≤ false from hle) (by decide)

/-! ## Stores and their sites -/

section

variable (h : IsStore refs var version r remaining)
include h

theorem IsStore.isDef : r.isDef = true :=
    h.choose_spec.2.1

theorem IsStore.pairwise : (r :: remaining).Pairwise fun r r' => execKey r ≤ execKey r' := by
  obtain ⟨before, heq, -, -⟩ := h
  exact (heq ▸ pairwise_executed refs var).sublist
    (List.sublist_append_right _ _)

theorem IsStore.definitions_eq (cfg : CfgInfo) :
    ∃ sites, sites.length + 1 = version ∧ definitions refs cfg var =
      sites ++ storeSite cfg r version ::
        ((remaining.filter VarRef.isDef).zipIdx (version + 1)).map fun (r, version) =>
          storeSite cfg r version := by
  obtain ⟨before, heq, hdef, hcount⟩ := h
  refine ⟨((before.filter VarRef.isDef).zipIdx 1).map fun (r, version) =>
    storeSite cfg r version, ?_, ?_⟩
  · rw [List.length_map, List.length_zipIdx, ← List.countP_eq_length_filter, hcount]
  · unfold definitions
    rw [← filter_executed, heq, List.filter_append, List.filter_cons_of_pos hdef,
      List.zipIdx_append, List.map_append, List.zipIdx_cons, List.map_cons,
      ← List.countP_eq_length_filter, Nat.add_comm 1, hcount]

theorem IsStore.drop_definitions (cfg : CfgInfo) :
    (definitions refs cfg var).drop version =
      ((remaining.filter VarRef.isDef).zipIdx (version + 1)).map fun (r, version) =>
        storeSite cfg r version := by
  obtain ⟨sites, hlength, heq⟩ := h.definitions_eq cfg
  rw [heq, List.append_cons, List.drop_left']
  rw [List.length_append, List.length_singleton, hlength]

theorem IsStore.getElem?_definitions (cfg : CfgInfo) :
    (definitions refs cfg var)[version - 1]? = some (storeSite cfg r version) := by
  obtain ⟨sites, rfl, heq⟩ := h.definitions_eq cfg
  rw [heq, Nat.add_sub_cancel, List.getElem?_append_right (Nat.le_refl _), Nat.sub_self,
    List.getElem?_cons_zero]

end

theorem exists_isStore_of_getElem? {i : Nat} {site : StoreSite}
    (h : (definitions refs cfg var)[i]? = some site) :
    ∃ r remaining, IsStore refs var (i + 1) r remaining ∧ site = storeSite cfg r (i + 1) := by
  unfold definitions at h
  rw [← filter_executed, List.getElem?_map, List.getElem?_zipIdx] at h
  simp only [Option.map_map, Option.map_eq_some_iff] at h
  obtain ⟨r, hr, rfl⟩ := h
  obtain ⟨hlt, hget⟩ := List.getElem?_eq_some_iff.1 hr
  have hsplit : (executed refs var).filter VarRef.isDef =
      ((executed refs var).filter VarRef.isDef).take i ++
        r :: ((executed refs var).filter VarRef.isDef).drop (i + 1) := by
    conv_lhs => rw [← List.take_append_drop i ((executed refs var).filter VarRef.isDef)]
    rw [← hget, List.drop_eq_getElem_cons hlt]
  obtain ⟨before, rest, heq, hbefore, hrest⟩ := List.filter_eq_append_iff.1 hsplit
  obtain ⟨between, remaining, rfl, hbetween, hdef, -⟩ := List.filter_eq_cons_iff.1 hrest
  refine ⟨r, remaining, ⟨before ++ between, by rw [heq, List.append_assoc], hdef, ?_⟩, ?_⟩
  · have hnone : between.countP VarRef.isDef = 0 := List.countP_eq_zero.2 hbetween
    rw [List.countP_append, hnone, Nat.add_zero, List.countP_eq_length_filter, hbefore,
      List.length_take, Nat.min_eq_left (le_of_lt hlt)]
  · rw [Function.comp_apply, Nat.add_comm 1 i]

theorem IsStore.unique {r' : VarRef} {remaining' : List VarRef}
    (h : IsStore refs var version r remaining) (h' : IsStore refs var version r' remaining') :
    r = r' ∧ remaining = remaining' := by
  obtain ⟨before, heq, hdef, hcount⟩ := h
  obtain ⟨before', heq', hdef', hcount'⟩ := h'
  rw [heq] at heq'
  rcases List.append_eq_append_iff.1 heq' with ⟨l, rfl, hl⟩ | ⟨l, rfl, hl⟩
  · cases l with
    | nil =>
      rw [List.nil_append, List.cons.injEq] at hl
      exact hl
    | cons a l =>
      obtain ⟨rfl, -⟩ := List.cons.inj hl
      rw [List.countP_append, List.countP_cons_of_pos hdef] at hcount'
      omega
  · cases l with
    | nil =>
      rw [List.nil_append, List.cons.injEq] at hl
      exact ⟨hl.1.symm, hl.2.symm⟩
    | cons a l =>
      obtain ⟨rfl, -⟩ := List.cons.inj hl
      rw [List.countP_append, List.countP_cons_of_pos hdef'] at hcount
      omega

def Flagged (refs : List VarRef) (cfg : CfgInfo) (var : String) (version : Nat)
    (r : VarRef) : Prop :=
  NeverUsed refs var ∨
    ¬ NeverUsed refs var ∧ ∃ next, Overwritten refs cfg var (storeSite cfg r version) next

theorem mem_deadStoresOf {store : DeadStore} : store ∈ deadStoresOf refs cfg var ↔
    ∃ version r remaining, IsStore refs var version r remaining ∧
      store = reportStore var (storeSite cfg r version) ∧ Flagged refs cfg var version r := by
  have hversion : ∀ {version r remaining}, IsStore refs var version r remaining →
      version - 1 + 1 = version := by
    rintro version r remaining ⟨_, -, -, rfl⟩
    rfl
  unfold deadStoresOf
  dsimp only
  by_cases hnever : NeverUsed refs var
  · have hguard : ((useLines refs var).isEmpty && !(definitions refs cfg var).isEmpty &&
        !isParameter refs var) = !(definitions refs cfg var).isEmpty := by
      rw [hnever.1, hnever.2]
      simp
    rw [hguard]
    by_cases hsites : definitions refs cfg var = []
    · rw [hsites]
      simp only [List.isEmpty_nil, List.zipIdx_nil, List.filterMap_nil, List.map_nil, ite_self,
        List.not_mem_nil, false_iff]
      rintro ⟨version, r, remaining, hstore, -, -⟩
      obtain ⟨sites, -, heq⟩ := hstore.definitions_eq cfg
      rw [hsites] at heq
      simp at heq
    · rw [if_pos (by simp [hsites])]
      constructor
      · intro hmem
        obtain ⟨site, hsite, rfl⟩ := List.mem_map.1 hmem
        obtain ⟨i, hi⟩ := List.mem_iff_getElem?.1 hsite
        obtain ⟨r, remaining, hstore, rfl⟩ := exists_isStore_of_getElem? hi
        exact ⟨i + 1, r, remaining, hstore, rfl, .inl hnever⟩
      · rintro ⟨version, r, remaining, hstore, rfl, -⟩
        exact List.mem_map_of_mem (List.mem_of_getElem? (hstore.getElem?_definitions cfg))
  · have hguard : ¬ ((useLines refs var).isEmpty && !(definitions refs cfg var).isEmpty &&
        !isParameter refs var) = true := by
      intro hguard
      simp only [Bool.and_eq_true, List.isEmpty_iff, Bool.not_eq_true'] at hguard
      exact hnever ⟨hguard.1.1, hguard.2⟩
    rw [if_neg hguard, List.mem_filterMap]
    constructor
    · rintro ⟨⟨site, i⟩, hsite, hreport⟩
      obtain ⟨r, remaining, hstore, rfl⟩ :=
        exists_isStore_of_getElem? (List.mk_mem_zipIdx_iff_getElem?.1 hsite)
      dsimp only at hreport
      split_ifs at hreport with hparameter
      split at hreport
      · cases hreport
      · next next hnext =>
        split_ifs at hreport with huse
        cases hreport
        refine ⟨i + 1, r, remaining, hstore, rfl,
          .inr ⟨hnever, next, ?_, hnext, by simpa using huse⟩⟩
        rintro ⟨hisParameter, hone⟩
        have hi : i = 0 := Nat.succ.inj hone
        exact hparameter (by rw [hisParameter, hi]; rfl)
    · rintro ⟨version, r, remaining, hstore, rfl, hflagged⟩
      obtain ⟨-, next, hparameter, hnext, huse⟩ := hflagged.resolve_left hnever
      refine ⟨(storeSite cfg r version, version - 1),
        List.mk_mem_zipIdx_iff_getElem?.2 (hstore.getElem?_definitions cfg), ?_⟩
      dsimp only
      rw [if_neg, hversion hstore]
      · have hnext' : ((definitions refs cfg var).drop version).find?
            (·.blockId = (storeSite cfg r version).blockId) = some next := hnext
        rw [hnext']
        dsimp only
        rw [huse]
        rfl
      · intro hskip
        rw [Bool.and_eq_true, beq_iff_eq] at hskip
        have hone := hversion hstore
        rw [hskip.2] at hone
        exact hparameter ⟨hskip.1, hone.symm⟩

theorem reportStore_inj {var' : String} {site site' : StoreSite}
    (h : reportStore var site = reportStore var' site') :
    var = var' ∧ site.version = site'.version := by
  have hvar : var = var' := congrArg DeadStore.var h
  subst hvar
  let named (site : StoreSite) : SsaName := ⟨0, var, site.version, none, 0⟩
  have hformat : (named site).format = (named site').format := congrArg DeadStore.ssaName h
  have hvar : (named site).var = (named site').var := rfl
  exact ⟨rfl, SsaName.format_inj hvar hformat⟩

/-- **The report is sound** if the stores that are flagged are dead. -/
theorem reportsDead_iff_flagged {ord : HashOrder} : ReportsDead refs cfg ord ↔
    ∀ var version r remaining, IsStore refs var version r remaining →
      Flagged refs cfg var version r →
      ∀ b, OnBlock cfg b r.line → ¬ StoredValueRead refs cfg var b remaining := by
  have hmem : ∀ {store}, store ∈ findDeadStoresDfg refs cfg ord ↔
      ∃ var, store ∈ deadStoresOf refs cfg var := by
    intro store
    unfold findDeadStoresDfg
    rw [List.mem_insertionSort, List.mem_flatMap]
    refine ⟨fun ⟨var, _, h⟩ => ⟨var, h⟩, fun ⟨var, h⟩ => ⟨var, ?_, h⟩⟩
    obtain ⟨version, r, remaining, ⟨before, heq, -, -⟩, -, -⟩ := mem_deadStoresOf.1 h
    have hr : r ∈ executed refs var := by
      rw [heq]
      exact List.mem_append_right _ List.mem_cons_self
    rw [(ord.perm _).mem_iff, List.mem_eraseDups]
    exact List.mem_map.2 ⟨r, mem_executed.1 hr⟩
  constructor
  · intro hdead var version r remaining hstore hflagged
    obtain ⟨version', r', remaining', hstore', heq, hread⟩ := hdead _
      (hmem.2 ⟨var, mem_deadStoresOf.2 ⟨version, r, remaining, hstore, rfl, hflagged⟩⟩)
    have hversion : version = version' := (reportStore_inj heq).2
    subst hversion
    obtain ⟨rfl, rfl⟩ := hstore.unique hstore'
    exact hread
  · intro hdead store hreported
    obtain ⟨var, hreported⟩ := hmem.1 hreported
    obtain ⟨version, r, remaining, hstore, rfl, hflagged⟩ := mem_deadStoresOf.1 hreported
    exact ⟨version, r, remaining, hstore, rfl, hdead _ _ _ _ hstore hflagged⟩

theorem IsStore.suffix (h : IsStore refs var version r remaining) :
    remaining <:+ executed refs var := by
  obtain ⟨before, heq, -, -⟩ := h
  exact ⟨before ++ [r], by rw [heq, List.append_assoc, List.singleton_append]⟩

theorem mem_executed_of_trace (hsuffix : remaining <:+ executed refs var)
    (h : r ∈ trace refs cfg var b remaining path) : r ∈ executed refs var := by
  rcases List.mem_append.1 h with h | h
  · exact hsuffix.subset (List.mem_of_mem_filter h)
  · obtain ⟨c, -, h⟩ := List.mem_flatMap.1 h
    exact List.mem_of_mem_filter h

theorem exists_isStore_of_blockRefs (hsuffix : remaining <:+ executed refs var)
    (h : blockRefs cfg b remaining = before ++ r :: after) (hr : r.isDef = true) :
    ∃ version remaining', IsStore refs var version r remaining' ∧ OnBlock cfg b r.line ∧
      blockRefs cfg b remaining' = after := by
  obtain ⟨l, hl⟩ := hsuffix
  obtain ⟨start, rest, rfl, -, hrest⟩ := List.filter_eq_append_iff.1 h
  obtain ⟨between, remaining', rfl, -, hblock, hafter⟩ := List.filter_eq_cons_iff.1 hrest
  refine ⟨_, remaining', ⟨l ++ start ++ between, ?_, hr, rfl⟩, of_decide_eq_true hblock, hafter⟩
  rw [← hl]
  simp only [List.append_assoc]

/-- A definition on a path is a store, and what comes after it on the path is its trace. -/
theorem exists_isStore_of_trace (hsuffix : remaining <:+ executed refs var)
    (hpath : (b :: path).IsChain cfg.Edge)
    (h : trace refs cfg var b remaining path = before ++ r :: after) (hr : r.isDef = true) :
    ∃ version c remaining' path', IsStore refs var version r remaining' ∧ OnBlock cfg c r.line ∧
      (c :: path').IsChain cfg.Edge ∧ trace refs cfg var c remaining' path' = after := by
  induction path generalizing b remaining before with
  | nil =>
    unfold trace at h
    rw [List.flatMap_nil, List.append_nil] at h
    obtain ⟨version, remaining', hstore, hblock, hafter⟩ :=
      exists_isStore_of_blockRefs hsuffix h hr
    refine ⟨version, b, remaining', [], hstore, hblock, hpath, ?_⟩
    unfold trace
    rw [List.flatMap_nil, List.append_nil, hafter]
  | cons c path ih =>
    have hrest : (c :: path).IsChain cfg.Edge := (List.isChain_cons_cons.1 hpath).2
    have hsplit : blockRefs cfg b remaining ++ trace refs cfg var c (executed refs var) path =
        before ++ r :: after := h
    rcases List.append_eq_append_iff.1 hsplit with ⟨l, -, hl⟩ | ⟨l, hl, hlrest⟩
    · exact ih List.suffix_rfl hrest hl
    · cases l with
      | nil =>
        have hhead : trace refs cfg var c (executed refs var) path = [] ++ r :: after := hlrest.symm
        exact ih List.suffix_rfl hrest hhead
      | cons d l =>
        obtain ⟨rfl, rfl⟩ := List.cons.inj hlrest
        obtain ⟨version, remaining', hstore, hblock, hafter⟩ :=
          exists_isStore_of_blockRefs hsuffix hl hr
        refine ⟨version, b, remaining', c :: path, hstore, hblock, hpath, ?_⟩
        rw [← hafter]
        rfl

/-! ## When reported stores are dead -/

theorem dead_iff_not_updateReached (huses : useLines refs var = []) :
    (∀ version r remaining, IsStore refs var version r remaining → ∀ b, OnBlock cfg b r.line →
      ¬ StoredValueRead refs cfg var b remaining) ↔
    ∀ version r remaining, IsStore refs var version r remaining → ∀ b, OnBlock cfg b r.line →
      ¬ UpdateReached refs cfg var b remaining := by
  have hdef : ∀ {d : VarRef} {remaining b path}, remaining <:+ executed refs var →
      d ∈ trace refs cfg var b remaining path → d.refType = .definition ∨ d.refType = .update := by
    intro d remaining b path hsuffix hd
    have huse : d.line ∈ useLines refs var ∨ d.refType ≠ .use := by
      by_cases huse : d.refType = .use
      · exact .inl (mem_useLines.2 ⟨d, mem_executed_of_trace hsuffix hd, huse, rfl⟩)
      · exact .inr huse
    rw [huses] at huse
    have huse := huse.resolve_left (List.not_mem_nil)
    cases htype : d.refType with
    | definition => exact .inl rfl
    | update => exact .inr rfl
    | use => exact absurd htype huse
  constructor
  · rintro hdead version r remaining hstore b hb ⟨path, hpath, u, hu, hupdate⟩
    obtain ⟨before, u, after, htrace, hupdate, hfirst⟩ :=
      Graph.exists_first_of_mem (p := fun u : VarRef => u.refType = .update) hu hupdate
    rcases List.eq_nil_or_concat before with rfl | ⟨before, d, rfl⟩
    · refine hdead version r remaining hstore b hb ⟨path, hpath, u, ?_, ?_⟩
      · rw [htrace]
        rfl
      · rw [hupdate]
        decide
    · -- the update reads what the last definition before it stores
      rw [List.concat_eq_append, List.append_assoc, List.singleton_append] at htrace
      have hd : d.refType = .definition := by
        have hmem : d ∈ trace refs cfg var b remaining path := by
          rw [htrace]
          exact List.mem_append_right _ List.mem_cons_self
        exact (hdef hstore.suffix hmem).resolve_right (hfirst d (by simp))
      obtain ⟨version', c, remaining', path', hstore', hc, hpath', hafter⟩ :=
        exists_isStore_of_trace hstore.suffix hpath htrace (by rw [VarRef.isDef, hd])
      refine hdead version' d remaining' hstore' c hc ⟨path', hpath', u, ?_, ?_⟩
      · rw [hafter]
        rfl
      · rw [hupdate]
        decide
  · rintro hreached version r remaining hstore b hb ⟨path, hpath, u, hu, hread⟩
    have hmem := List.mem_of_mem_head? hu
    exact hreached version r remaining hstore b hb
      ⟨path, hpath, u, hmem, (hdef hstore.suffix hmem).resolve_left hread⟩

theorem IsStore.execKey_le (h : IsStore refs var version r remaining)
    (hr' : r' ∈ blockRefs cfg b remaining) : execKey r ≤ execKey r' :=
  List.rel_of_pairwise_cons h.pairwise (List.mem_of_mem_filter hr')

theorem IsStore.pairwise_blockRefs (h : IsStore refs var version r remaining) (cfg : CfgInfo)
    (b : Nat) :
    (blockRefs cfg b remaining).Pairwise fun r r' => execKey r ≤ execKey r' :=
  h.pairwise.of_cons.filter _

/-- Where a definition comes first after a store, the uses on its line come before the store. -/
theorem IsStore.not_mem_useLines {e : VarRef} {after : List VarRef}
    (hstore : IsStore refs var version r remaining) (h : blockRefs cfg b remaining = e :: after)
    (he : e.isDef = true) (hne : e.line ≠ r.line) : e.line ∉ useLines refs var := by
  intro huse
  obtain ⟨u, hu, huse, hline⟩ := mem_useLines.1 huse
  have hudef : u.isDef = false := by rw [VarRef.isDef, huse]
  have hmem : e ∈ blockRefs cfg b remaining := h ▸ List.mem_cons_self
  have hlt : r.line < u.line := by
    rw [hline]
    exact lt_of_le_of_ne (line_le_of_execKey (hstore.execKey_le hmem)) (Ne.symm hne)
  have hremaining : u ∈ remaining := by
    obtain ⟨before, heq, hdef, -⟩ := hstore
    have hsorted := heq ▸ pairwise_executed refs var
    rw [heq] at hu
    rcases List.mem_append.1 hu with hu | hu
    · have hle := line_le_of_execKey
        ((List.pairwise_append.1 hsorted).2.2 u hu r List.mem_cons_self)
      exact absurd hlt (Nat.not_lt.2 hle)
    · refine (List.mem_cons.1 hu).resolve_left ?_
      rintro rfl
      rw [hdef] at hudef
      cases hudef
  have hub : u ∈ blockRefs cfg b remaining := by
    refine List.mem_filter.2 ⟨hremaining, ?_⟩
    rw [hline]
    exact (List.mem_filter.1 hmem).2
  have hsorted := hstore.pairwise_blockRefs cfg b
  rw [h] at hub hsorted
  rcases List.mem_cons.1 hub with rfl | hub
  · rw [he] at hudef
    cases hudef
  · have hlater := line_lt_of_execKey (List.rel_of_pairwise_cons hsorted hub) he hudef
    exact absurd hline (Nat.ne_of_gt hlater)

/-- **Where the next definition is in the block** a store without a use between the lines is dead if
what comes next only writes. -/
theorem not_storedValueRead_iff (hstore : IsStore refs var version r remaining)
    (hnext : next ∈ (definitions refs cfg var).drop version)
    (huse : hasUseBetween refs var (storeSite cfg r version) next = false)
    (hb : OnBlock cfg b next.line) :
    ¬ StoredValueRead refs cfg var b remaining ↔ WrittenFirst refs cfg var b r.line remaining := by
  obtain ⟨r', hr', hdef', hline⟩ : ∃ r' ∈ remaining, r'.isDef = true ∧ next.line = r'.line := by
    rw [hstore.drop_definitions] at hnext
    obtain ⟨⟨r', v⟩, hmem, rfl⟩ := List.mem_map.1 hnext
    have hr' := List.mem_filter.1 (List.fst_mem_of_mem_zipIdx hmem)
    exact ⟨r', hr'.1, hr'.2, rfl⟩
  have hmem : r' ∈ blockRefs cfg b remaining :=
    List.mem_filter.2 ⟨hr', decide_eq_true (hline ▸ hb)⟩
  obtain ⟨first, after, hfirst⟩ := List.exists_cons_of_ne_nil (List.ne_nil_of_mem hmem)
  have hread : StoredValueRead refs cfg var b remaining ↔ first.refType ≠ .definition := by
    unfold StoredValueRead trace
    simp only [hfirst, List.cons_append, List.head?_cons, Option.some_inj]
    constructor
    · rintro ⟨path, -, _, rfl, h⟩
      exact h
    · exact fun h => ⟨[], List.isChain_singleton _, first, rfl, h⟩
  rw [hread, not_not]
  unfold WrittenFirst
  cases hdef : first.isDef with
  | true =>
    rw [hfirst, List.find?_cons_of_pos hdef]
    constructor
    · intro hwrites
      refine ⟨first, rfl, hwrites, ?_⟩
      by_cases hsame : first.line = r.line
      · exact .inl hsame
      · exact .inr (hstore.not_mem_useLines hfirst hdef hsame)
    · rintro ⟨_, heq, hwrites, -⟩
      cases heq
      exact hwrites
  | false =>
    have htype : first.refType = .use := by
      unfold VarRef.isDef at hdef
      cases htype : first.refType with
      | use => rfl
      | definition | update => simp [htype] at hdef
    have hmemFirst : first ∈ blockRefs cfg b remaining := hfirst ▸ List.mem_cons_self
    constructor
    · intro hwrites
      rw [htype] at hwrites
      cases hwrites
    · rintro ⟨e, he, -, hclear⟩
      -- the use is on the line of the next definition, as none is between
      obtain ⟨hedef, before, rest, hsplit, hbefore⟩ := List.find?_eq_some_iff_append.1 he
      have hsorted := hstore.pairwise_blockRefs cfg b
      have hlt : r.line < first.line :=
        line_lt_of_execKey (hstore.execKey_le hmemFirst) hstore.isDef hdef
      have hfirstLe : first.line ≤ e.line := by
        have hmemE : e ∈ first :: after := hfirst ▸ List.mem_of_find?_eq_some he
        rw [hfirst] at hsorted
        rcases List.mem_cons.1 hmemE with rfl | hmemE
        · exact le_rfl
        · exact line_le_of_execKey (List.rel_of_pairwise_cons hsorted hmemE)
      have hnextLe : e.line ≤ r'.line := by
        have hmemNext := hmem
        rw [hsplit] at hmemNext hsorted
        rcases List.mem_append.1 hmemNext with hmemNext | hmemNext
        · have hnot := hbefore r' hmemNext
          rw [hdef'] at hnot
          cases hnot
        · rcases List.mem_cons.1 hmemNext with rfl | hmemNext
          · exact le_rfl
          · exact line_le_of_execKey
              (List.rel_of_pairwise_cons (List.pairwise_append.1 hsorted).2.1 hmemNext)
      have huseLine : first.line ∈ useLines refs var :=
        mem_useLines.2 ⟨first, hstore.suffix.subset (List.mem_of_mem_filter hmemFirst), htype, rfl⟩
      have hnotBetween : ¬ first.line < r'.line := by
        intro hbetween
        have hclash := List.any_eq_false.1 huse first.line huseLine
        rw [hline] at hclash
        simp [storeSite, hlt, hbetween] at hclash
      have hsame : e.line = first.line := by omega
      rw [hsame] at hclear
      rcases hclear with heq | hnotMem
      · omega
      · exact absurd huseLine hnotMem

/-- **The reported stores are dead exactly if** no update of a variable that is not used is reached,
and what comes next after a store that is overwritten in its block only writes. -/
theorem reportsDead_iff (refs : List VarRef) (cfg : CfgInfo) (ord : HashOrder) :
    ReportsDead refs cfg ord ↔ OnlyWrites refs cfg := by
  rw [reportsDead_iff_flagged]
  constructor
  · intro hdead
    refine ⟨fun var hnever => ?_, ?_⟩
    · exact (dead_iff_not_updateReached hnever.1).1 fun version r remaining hstore =>
        hdead var version r remaining hstore (.inl hnever)
    · intro var hnever version r remaining hstore next hnext b hb
      have hclear := hdead var version r remaining hstore (.inr ⟨hnever, next, hnext⟩) b hb
      refine ⟨fun hbn => ?_, fun _ => hclear⟩
      exact (not_storedValueRead_iff hstore (List.mem_of_find?_eq_some hnext.2.1) hnext.2.2 hbn).1
        hclear
  · rintro h var version r remaining hstore (hnever | ⟨hnever, next, hnext⟩) b hb
    · exact (dead_iff_not_updateReached hnever.1).2 (h.unused var hnever) version r remaining
        hstore b hb
    · have hspec := h.overwritten var hnever version r remaining hstore next hnext b hb
      by_cases hbn : OnBlock cfg b next.line
      · exact (not_storedValueRead_iff hstore (List.mem_of_find?_eq_some hnext.2.1) hnext.2.2
          hbn).2 (hspec.1 hbn)
      · exact hspec.2 hbn

/-- The body of a function with the parameter `a`: `x = a; x += 1; return x`. -/
def counterCfg : CfgInfo := ⟨"counter", [⟨0, (1, 4)⟩], [], 0, [0]⟩

@[inherit_doc counterCfg]
def counterRefs : List VarRef :=
  [⟨"a", .definition, 1, 0⟩, ⟨"a", .use, 2, 4⟩, ⟨"x", .definition, 2, 0⟩, ⟨"x", .update, 3, 0⟩,
    ⟨"x", .use, 4, 7⟩]

/-- The store that the update reads is reported. -/
theorem not_reportsDead_counter : ¬ ReportsDead counterRefs counterCfg .insertion := by
  intro hdead
  obtain ⟨version, r, remaining, hstore, heq, hclear⟩ := hdead ⟨"x", "x_1", 2, 0, false⟩
    (by decide +kernel)
  have hreport : reportStore "x" ⟨2, 0, 1⟩ = reportStore "x" (storeSite counterCfg r version) := heq
  have hversion : 1 = version := (reportStore_inj hreport).2
  have hfirst : IsStore counterRefs "x" 1 ⟨"x", .definition, 2, 0⟩
      [⟨"x", .update, 3, 0⟩, ⟨"x", .use, 4, 7⟩] := ⟨[], by decide +kernel, rfl, rfl⟩
  obtain ⟨rfl, rfl⟩ := hfirst.unique (hversion ▸ hstore)
  exact hclear 0 (by decide) ⟨[], List.isChain_singleton _, ⟨"x", .update, 3, 0⟩, rfl, by decide⟩

end TldrCode.Ssa
