import TldrCode.Callgraph.CrossFileTypes
import TldrCode.Grouping

/-!
# The call graph as JSON

`callgraph/serialization.rs`. A graph that is written and read again is the same graph only if it
has no edges, which are not written, and if the call sites of its files are grouped and sorted as
the reader groups and the writer sorts them (`roundTrips_iff`).
-/

namespace TldrCode.Callgraph

open Tsv (Text)

variable {ImportDef VarType : Type}

structure FileIRJson (ImportDef VarType : Type) where
  path : Text
  functions : List FuncDef
  classes : List ClassDef
  imports : List ImportDef
  calls : List CallSite
  varTypes : List VarType

structure CallGraphIRJson (ImportDef VarType : Type) where
  version : Text
  root : Text
  language : Text
  files : AList fun _ : Text => FileIRJson ImportDef VarType

/-- `SerializationError`, without the errors of files. -/
inductive SerializationError where
  | irVersionMismatch (expected actual : Text)
  | invalidFormat (message : Text)
  | missingField (field : Text)
  | json (message : Text)
  deriving DecidableEq, Repr

/-- `serde_json`: how a graph is written and read, what is written being read again. -/
structure SerdeJson (ImportDef VarType Value JsonText : Type) where
  toValue : CallGraphIRJson ImportDef VarType → Value
  toText : Value → JsonText
  fromText : JsonText → Except SerializationError Value
  version : Value → Option Text
  fromValue : Value → Except SerializationError (CallGraphIRJson ImportDef VarType)
  fromText_toText : ∀ value, fromText (toText value) = .ok value
  version_toValue : ∀ json, version (toValue json) = some json.version
  fromValue_toValue : ∀ json, fromValue (toValue json) = .ok json

/-! ## Writing -/

def CallSite.sortKey (site : CallSite) : Text ×ₗ Text ×ₗ WithBot Nat :=
  toLex (site.caller, toLex (site.target, site.line))

def CallSite.Before (a b : CallSite) : Prop := a.sortKey ≤ b.sortKey

instance : DecidableRel CallSite.Before := fun a b =>
  inferInstanceAs (Decidable (a.sortKey ≤ b.sortKey))

instance : Std.Total CallSite.Before := ⟨fun a b => le_total a.sortKey b.sortKey⟩

instance : IsTrans CallSite CallSite.Before := ⟨fun _ _ _ => le_trans⟩

def flattenCalls (ord : HashOrder) (calls : CallTable) : List CallSite :=
  ((ord.order calls.entries).flatMap (·.2)).insertionSort CallSite.Before

/-- The file in `to_json_representation`. -/
def toFileJson (ord : HashOrder) (path : Text) (file : FileIR ImportDef VarType) :
    FileIRJson ImportDef VarType where
  path := normalizePath path
  functions := file.funcs
  classes := file.classes
  imports := file.imports
  calls := flattenCalls ord file.calls
  varTypes := file.varTypes

namespace CallGraphIR

def toJsonRepresentation (ord : HashOrder) (ir : CallGraphIR ImportDef VarType) :
    CallGraphIRJson ImportDef VarType where
  version := IR_VERSION
  root := normalizePath ir.root
  language := ir.language
  files := (ord.order ir.files.entries).foldl (fun files entry =>
    files.insert (normalizePath entry.2.1) (toFileJson ord entry.2.1 entry.2.2)) ∅

variable {Value JsonText : Type} (serde : SerdeJson ImportDef VarType Value JsonText)

def toJson (ord : HashOrder) (ir : CallGraphIR ImportDef VarType) : JsonText :=
  serde.toText (serde.toValue (ir.toJsonRepresentation ord))

/-! ## Reading -/

def unflattenCalls (calls : List CallSite) : CallTable := group CallSite.caller calls

/-- The file in `from_json_representation`. -/
def fromFileJson (file : FileIRJson ImportDef VarType) : FileIR ImportDef VarType where
  path := file.path
  funcs := file.functions
  classes := file.classes
  imports := file.imports
  varTypes := file.varTypes
  calls := unflattenCalls file.calls

def fromJsonRepresentation (ord : HashOrder) (json : CallGraphIRJson ImportDef VarType) :
    CallGraphIR ImportDef VarType :=
  let ir := (ord.order json.files.entries).foldl
    (fun (ir : CallGraphIR ImportDef VarType) entry => ir.addFile (fromFileJson entry.2))
    (new json.root json.language)
  ir.buildIndices ord

def fromJsonValue (ord : HashOrder) (value : Value) :
    Except SerializationError (CallGraphIR ImportDef VarType) :=
  match serde.version value with
  | none => .error (.missingField "_version".toList)
  | some version =>
    if version ≠ IR_VERSION then .error (.irVersionMismatch IR_VERSION version)
    else (serde.fromValue value).map (fromJsonRepresentation ord)

def fromJson (ord : HashOrder) (json : JsonText) :
    Except SerializationError (CallGraphIR ImportDef VarType) :=
  serde.fromText json >>= fromJsonValue serde ord

end CallGraphIR

/-! ## The round trip -/

/-- What is in a file: the call sites are found by their callers. -/
def FileIR.contents (file : FileIR ImportDef VarType) :
    List FuncDef × List ClassDef × List ImportDef × List VarType ×
      (Text → Option (List CallSite)) :=
  (file.funcs, file.classes, file.imports, file.varTypes, fun caller => file.calls.lookup caller)

/-- The tables hold the same files, under the same paths. -/
def SameFiles (files files' : FileTable ImportDef VarType) : Prop :=
  ∀ k, (files.lookup k).map (fun file => (file.1, file.2.contents)) =
    (files'.lookup k).map fun file => (file.1, file.2.contents)

section

variable {Value JsonText : Type} (serde : SerdeJson ImportDef VarType Value JsonText)
  (ord ord' : HashOrder) {ir : CallGraphIR ImportDef VarType}

/-- **The graph that is written is read again.** -/
def RoundTrips (ir : CallGraphIR ImportDef VarType) : Prop :=
  ∃ ir', CallGraphIR.fromJson serde ord' (ir.toJson serde ord) = .ok ir' ∧ ir'.root = ir.root ∧
    ir'.language = ir.language ∧ ir'.edges = ir.edges ∧ SameFiles ir'.files ir.files

/-- The call sites are grouped by their callers and sorted, and no group is empty. -/
def Grouped (calls : CallTable) : Prop :=
  ∀ group ∈ calls.entries, group.2 ≠ [] ∧ (∀ site ∈ group.2, site.caller = group.1) ∧
    group.2.Pairwise CallSite.Before

theorem fromJson_toJson : CallGraphIR.fromJson serde ord' (ir.toJson serde ord) =
    .ok (.fromJsonRepresentation ord' (ir.toJsonRepresentation ord)) := by
  unfold CallGraphIR.fromJson CallGraphIR.toJson
  rw [serde.fromText_toText]
  change CallGraphIR.fromJsonValue serde ord' _ = _
  unfold CallGraphIR.fromJsonValue
  rw [serde.version_toValue, serde.fromValue_toValue]
  dsimp only
  have hversion : ¬ (ir.toJsonRepresentation ord).version ≠ IR_VERSION := not_not.2 rfl
  rw [if_neg hversion]
  rfl

end

variable {ir : CallGraphIR ImportDef VarType} {ord ord' : HashOrder}

theorem foldl_addFile (files : List (FileIR ImportDef VarType))
    (ir : CallGraphIR ImportDef VarType) :
    (files.foldl CallGraphIR.addFile ir).root = ir.root ∧
      (files.foldl CallGraphIR.addFile ir).language = ir.language ∧
      (files.foldl CallGraphIR.addFile ir).edges = ir.edges ∧
      (files.foldl CallGraphIR.addFile ir).files =
        files.foldl (fun table file => table.insertFile
          (normalizePath file.path) file) ir.files := by
  induction files generalizing ir with
  | nil => exact ⟨rfl, rfl, rfl, rfl⟩
  | cons file files ih =>
    rw [List.foldl_cons, List.foldl_cons]
    exact ih (ir.addFile file)

theorem lookup_toJsonRepresentation (h : Normal ir) {path : Text}
    {file : FileIRJson ImportDef VarType} :
    (ir.toJsonRepresentation ord).files.lookup path = some file ↔
      ∃ k entry, ir.files.lookup k = some entry ∧ entry.1 = path ∧
        toFileJson ord entry.1 entry.2 = file := by
  have hnormal : ∀ e ∈ ord.order ir.files.entries,
      components e.2.1 = e.1 ∧ normalizePath e.2.1 = e.2.1 := fun e he =>
    h.files e.1 e.2 (AList.mem_lookup_iff.2 ((ord.mem_order).1 he))
  have hpaths : (ord.order ir.files.entries).map (fun e => normalizePath e.2.1) =
      (ord.order ir.files.entries).map fun e => e.2.1 :=
    List.map_congr_left fun e he => (hnormal e he).2
  have hkeys : ((ord.order ir.files.entries).map fun e => e.2.1).map components =
      (ord.order ir.files.entries).map Sigma.fst := by
    rw [List.map_map]
    exact List.map_congr_left fun e he => (hnormal e he).1
  have hnodup : ((ord.order ir.files.entries).map fun e => normalizePath e.2.1).Nodup := by
    rw [hpaths]
    apply List.Nodup.of_map components
    rw [hkeys, ((ord.perm ir.files.entries).map Sigma.fst).nodup_iff]
    exact ir.files.nodupKeys
  unfold CallGraphIR.toJsonRepresentation
  dsimp only
  refine (lookup_foldl_insert (fun e : Sigma fun _ : List Text => Text × FileIR ImportDef VarType =>
    normalizePath e.2.1) (fun e => toFileJson ord e.2.1 e.2.2) _ (fun _ _ _ => rfl) hnodup).trans ?_
  constructor
  · rintro ⟨e, he, hpath, hfile⟩
    refine ⟨e.1, e.2, AList.mem_lookup_iff.2 ((ord.mem_order).1 he), ?_, hfile⟩
    rw [← hpath, (hnormal e he).2]
  · rintro ⟨k, entry, hentry, hpath, hfile⟩
    refine ⟨⟨k, entry⟩, (ord.mem_order).2 (AList.mem_lookup_iff.1 hentry), ?_, hfile⟩
    exact ((h.files k entry hentry).2).trans hpath

/-- **The files that are read** are those that were written. -/
theorem lookup_fromJsonRepresentation (h : Normal ir) (k : List Text) :
    (CallGraphIR.fromJsonRepresentation ord' (ir.toJsonRepresentation ord)).files.lookup k =
      (ir.files.lookup k).map fun entry =>
        (entry.1, CallGraphIR.fromFileJson (toFileJson ord entry.1 entry.2)) := by
  have hmem : ∀ e ∈ ord'.order (ir.toJsonRepresentation ord).files.entries,
      ∃ entry, ir.files.lookup (components (normalizePath e.2.path)) = some entry ∧
        normalizePath e.2.path = e.1 ∧ entry.1 = e.1 ∧ toFileJson ord entry.1 entry.2 = e.2 := by
    intro e he
    obtain ⟨k, entry, hentry, hpath, hfile⟩ := (lookup_toJsonRepresentation h).1
      (AList.mem_lookup_iff.2 ((ord'.mem_order).1 he))
    obtain ⟨hk, hnormal⟩ := h.files k entry hentry
    have hjson : normalizePath e.2.path = e.1 := by
      rw [← hfile, ← hpath]
      exact (normalizePath_normalizePath entry.1).trans hnormal
    refine ⟨entry, ?_, hjson, hpath, hfile⟩
    rw [hjson, ← hpath, hk, hentry]
  have hnodup : ((ord'.order (ir.toJsonRepresentation ord).files.entries).map fun e =>
      components (normalizePath e.2.path)).Nodup := by
    apply List.Nodup.map_on
    · intro e he e' he' heq
      obtain ⟨entry, hentry, -, hpath, hfile⟩ := hmem e he
      obtain ⟨entry', hentry', -, hpath', hfile'⟩ := hmem e' he'
      rw [heq, hentry', Option.some_inj] at hentry
      subst hentry
      exact Sigma.ext (hpath.symm.trans hpath') (heq_of_eq (hfile.symm.trans hfile'))
    · rw [(ord'.perm _).nodup_iff]
      exact (ir.toJsonRepresentation ord).files.nodupKeys.nodup
  have hfiles := (foldl_addFile ((ord'.order (ir.toJsonRepresentation ord).files.entries).map
    fun e => CallGraphIR.fromFileJson e.2)
    (.new (ir.toJsonRepresentation ord).root (ir.toJsonRepresentation ord).language)).2.2.2
  rw [List.foldl_map, List.foldl_map] at hfiles
  have hfold := fun entry => lookup_foldl_insert (k := k) (b := entry)
    (fun e : Sigma fun _ : Text => FileIRJson ImportDef VarType =>
      components (normalizePath e.2.path))
    (fun e => (normalizePath e.2.path, CallGraphIR.fromFileJson e.2))
    (fun table e => (((table.lookup (components (normalizePath e.2.path))).map (·.1)).getD
      (normalizePath e.2.path), CallGraphIR.fromFileJson e.2))
    (fun table e hnone => by rw [hnone]; rfl) hnodup
  have hread : (CallGraphIR.fromJsonRepresentation ord' (ir.toJsonRepresentation ord)).files =
      _ := hfiles
  rw [hread]
  apply Option.ext
  intro entry
  refine (hfold entry).trans ?_
  rw [Option.map_eq_some_iff]
  constructor
  · rintro ⟨e, he, rfl, rfl⟩
    obtain ⟨entry, hentry, hjson, hpath, hfile⟩ := hmem e he
    refine ⟨entry, hentry, ?_⟩
    rw [hjson, ← hpath, hfile]
  · rintro ⟨file, hfile, rfl⟩
    obtain ⟨hk, hnormal⟩ := h.files k file hfile
    have hjson : (ir.toJsonRepresentation ord).files.lookup file.1 =
        some (toFileJson ord file.1 file.2) :=
      (lookup_toJsonRepresentation h).2 ⟨k, file, hfile, rfl, rfl⟩
    refine ⟨_, (ord'.mem_order).2 (AList.mem_lookup_iff.1 hjson), ?_, ?_⟩
    · dsimp only [toFileJson]
      rw [hnormal, hnormal, hk]
    · dsimp only [toFileJson]
      rw [hnormal, hnormal]

/-! ## Groups of call sites -/

theorem lookup_unflattenCalls_iff (ord : HashOrder) (calls : CallTable) :
    (∀ caller, (CallGraphIR.unflattenCalls (flattenCalls ord calls)).lookup caller =
      calls.lookup caller) ↔ Grouped calls :=
  lookup_group_insertionSort_iff (ord.perm calls.entries)

theorem contents_eq_iff (path : Text) (file : FileIR ImportDef VarType) :
    (CallGraphIR.fromFileJson (toFileJson ord path file)).contents = file.contents ↔
      Grouped file.calls := by
  rw [← lookup_unflattenCalls_iff ord]
  unfold FileIR.contents CallGraphIR.fromFileJson toFileJson
  simp only [Prod.mk.injEq, true_and, funext_iff]

/-- **The round trip** gives the graph if it has no edges and the call sites of each file are in
groups of their callers that are sorted by target and line, none of them empty. -/
theorem roundTrips_iff {Value JsonText : Type}
    (serde : SerdeJson ImportDef VarType Value JsonText) (ord ord' : HashOrder)
    (root language : Text) (changes : List (Change ImportDef VarType)) :
    RoundTrips serde ord ord' (build root language changes) ↔
      (build root language changes).edges = [] ∧
        ∀ k file, (build root language changes).files.lookup k = some file →
          Grouped file.2.calls := by
  have hnormal := normal_build root language changes
  generalize build root language changes = ir at hnormal
  obtain ⟨hroot, hlanguage, hedges, -⟩ := foldl_addFile
    ((ord'.order (ir.toJsonRepresentation ord).files.entries).map fun e =>
      CallGraphIR.fromFileJson e.2) (.new (ir.toJsonRepresentation ord).root ir.language)
  rw [List.foldl_map] at hroot hlanguage hedges
  have hfiles : SameFiles (CallGraphIR.fromJsonRepresentation ord'
      (ir.toJsonRepresentation ord)).files ir.files ↔
        ∀ k file, ir.files.lookup k = some file → Grouped file.2.calls := by
    unfold SameFiles
    refine forall_congr' fun k => ?_
    rw [lookup_fromJsonRepresentation hnormal]
    cases ir.files.lookup k with
    | none => simp
    | some file =>
      simp only [Option.map_some, Option.some.injEq, Prod.mk.injEq, true_and, contents_eq_iff,
        forall_eq']
  unfold RoundTrips
  rw [fromJson_toJson]
  constructor
  · rintro ⟨ir', hread, -, -, hsame, hcontents⟩
    cases hread
    refine ⟨?_, hfiles.1 hcontents⟩
    rw [← hsame]
    exact hedges
  · rintro ⟨hnone, hgrouped⟩
    refine ⟨_, rfl, ?_, hlanguage, ?_, hfiles.2 hgrouped⟩
    · refine hroot.trans ?_
      change normalizePath (normalizePath ir.root) = ir.root
      rw [normalizePath_normalizePath, hnormal.root]
    · rw [hnone]
      exact hedges

def SerdeJson.verbatim : SerdeJson ImportDef VarType (CallGraphIRJson ImportDef VarType)
    (CallGraphIRJson ImportDef VarType) where
  toValue := id
  toText := id
  fromText := .ok
  version json := some json.version
  fromValue := .ok
  fromText_toText _ := rfl
  version_toValue _ := rfl
  fromValue_toValue _ := rfl

/-- A project with a call from one file to another. -/
def oneEdge : CallGraphIR Unit Unit :=
  build "/project".toList "python".toList
    [.addEdge ⟨"main.py".toList, "main".toList, "lib.py".toList, "parse".toList, .direct, none⟩]

/-- The edge is not read again. -/
theorem not_roundTrips_oneEdge : ¬ RoundTrips .verbatim .insertion .insertion oneEdge := by
  rintro ⟨ir', hread, -, -, hedges, -⟩
  cases hread
  exact absurd hedges (by decide)

end TldrCode.Callgraph
