import Mathlib.Data.Char
import Mathlib.Data.List.AList
import Mathlib.Data.List.Lex
import Mathlib.Data.Prod.Lex
import Mathlib.Order.WithBot
import TldrCode.Tsv
import TldrCode.Types

/-!
# The call graph of a project

`CallGraphIR` of `callgraph/cross_file_types.rs` and how it is built. The paths in it have forward
slashes (`normal_build`).
-/

namespace TldrCode.Callgraph

open Tsv (Text)

/-- `path.replace('\\', "/")`, which is `normalize_path_string` and `normalize_path_buf`. -/
def normalizePath (path : Text) : Text := path.map fun c => if c = '\\' then '/' else c

/-- `Path::components`, by which paths are compared. -/
def components (path : Text) : List Text :=
  (if path.head? = some '/' then [['/']]
    else if (path.splitOn '/').head? = some ['.'] then [['.']] else []) ++
    (path.splitOn '/').filter fun component => component ≠ [] ∧ component ≠ ['.']

def pathToModule (path : Text) : Text :=
  let path := normalizePath path
  let path := ((path.dropPrefix? "src/".toList).or (path.dropPrefix? "lib/".toList)).getD path
  let path := (((((path.dropSuffix? ".py".toList).or (path.dropSuffix? ".rs".toList)).or
    (path.dropSuffix? ".ts".toList)).or (path.dropSuffix? ".js".toList)).or
    (path.dropSuffix? ".go".toList)).getD path
  let path := (path.dropSuffix? "/__init__".toList).getD path
  path.map fun c => if c = '/' then '.' else c

/-! ## Files -/

inductive CallType where
  | intra | direct | localImport | method | attr | ref | static
  deriving DecidableEq, Repr

structure CallSite where
  caller : Text
  target : Text
  callType : CallType
  line : Option Nat
  column : Option Nat
  receiver : Option Text
  receiverType : Option Text
  deriving DecidableEq, Repr

structure FuncDef where
  name : Text
  line : Nat
  endLine : Nat
  isMethod : Bool
  className : Option Text
  returnType : Option Text
  parentFunction : Option Text
  deriving DecidableEq, Repr

structure ClassDef where
  name : Text
  line : Nat
  endLine : Nat
  methods : List Text
  bases : List Text
  deriving DecidableEq, Repr

/-- `HashMap<String, Vec<CallSite>>`. -/
abbrev CallTable := AList fun _ : Text => List CallSite

structure FileIR (ImportDef VarType : Type) where
  path : Text
  funcs : List FuncDef
  classes : List ClassDef
  imports : List ImportDef
  varTypes : List VarType
  calls : CallTable

variable {ImportDef VarType : Type}

/-- `HashMap<PathBuf, FileIR>`: a file with the path it was entered under, by its components. -/
abbrev FileTable (ImportDef VarType : Type) :=
  AList fun _ : List Text => Text × FileIR ImportDef VarType

/-- `HashMap::insert`: the path that is in the table stays. -/
def FileTable.insertFile (files : FileTable ImportDef VarType) (path : Text)
    (file : FileIR ImportDef VarType) : FileTable ImportDef VarType :=
  files.insert (components path)
    (((files.lookup (components path)).map (·.1)).getD path, file)

/-! ## The graph -/

structure CrossFileCallEdge where
  srcFile : Text
  srcFunc : Text
  dstFile : Text
  dstFunc : Text
  callType : CallType
  viaImport : Option Text
  deriving DecidableEq, Repr

/-- The entries of `FuncIndexProxyMut`. -/
abbrev FuncIndex := AList fun _ : Text × Text => Text

/-- `HashMap<(String, String), (PathBuf, Vec<String>)>`. -/
abbrev ClassIndex := AList fun _ : Text × Text => Text × List Text

structure CallGraphIR (ImportDef VarType : Type) where
  version : Text
  root : Text
  language : Text
  files : FileTable ImportDef VarType
  funcIndex : FuncIndex
  classIndex : ClassIndex
  edges : List CrossFileCallEdge

def IR_VERSION : Text := "2.0".toList

/-- The functions of a file, and the methods by their qualified names as well. -/
def indexFuncs (path : Text) (funcs : List FuncDef) (index : FuncIndex) : FuncIndex :=
  funcs.foldl (fun index func =>
    let index := index.insert (pathToModule path, func.name) path
    match func.className with
    | some className =>
      index.insert (pathToModule path, className ++ '.' :: func.name) path
    | none => index) index

def indexClasses (path : Text) (classes : List ClassDef) (index : ClassIndex) : ClassIndex :=
  classes.foldl (fun index cls =>
    index.insert (pathToModule path, cls.name) (path, cls.methods)) index

namespace CallGraphIR

def new (root language : Text) : CallGraphIR ImportDef VarType where
  version := IR_VERSION
  root := normalizePath root
  language := language
  files := ∅
  funcIndex := ∅
  classIndex := ∅
  edges := []

def addFile (ir : CallGraphIR ImportDef VarType) (file : FileIR ImportDef VarType) :
    CallGraphIR ImportDef VarType :=
  { ir with files := ir.files.insertFile (normalizePath file.path) file }

def addEdge (ir : CallGraphIR ImportDef VarType) (edge : CrossFileCallEdge) :
    CallGraphIR ImportDef VarType :=
  { ir with edges := ir.edges ++ [edge] }

def buildIndices (ord : HashOrder) (ir : CallGraphIR ImportDef VarType) :
    CallGraphIR ImportDef VarType :=
  let files := ord.order ir.files.entries
  { ir with
    funcIndex := files.foldl (fun index entry =>
      indexFuncs entry.2.1 entry.2.2.funcs index) ∅
    classIndex := files.foldl (fun index entry =>
      indexClasses entry.2.1 entry.2.2.classes index) ∅ }

end CallGraphIR

inductive Change (ImportDef VarType : Type) where
  | addFile (file : FileIR ImportDef VarType)
  | addEdge (edge : CrossFileCallEdge)
  | buildIndices (ord : HashOrder)

def Change.apply (ir : CallGraphIR ImportDef VarType) :
    Change ImportDef VarType → CallGraphIR ImportDef VarType
  | addFile file => ir.addFile file
  | addEdge edge => ir.addEdge edge
  | buildIndices ord => ir.buildIndices ord

def build (root language : Text) (changes : List (Change ImportDef VarType)) :
    CallGraphIR ImportDef VarType :=
  changes.foldl Change.apply (.new root language)

theorem normalizePath_normalizePath (path : Text) :
    normalizePath (normalizePath path) = normalizePath path := by
  unfold normalizePath
  rw [List.map_map]
  refine List.map_congr_left fun c _ => ?_
  dsimp only [Function.comp_apply]
  split_ifs <;> simp_all

/-- The paths of a graph are normal, and its files are where their paths say. -/
structure Normal (ir : CallGraphIR ImportDef VarType) : Prop where
  root : normalizePath ir.root = ir.root
  files : ∀ k file, ir.files.lookup k = some file →
    components file.1 = k ∧ normalizePath file.1 = file.1

variable {ir : CallGraphIR ImportDef VarType}

theorem Normal.addFile (h : Normal ir) (file : FileIR ImportDef VarType) :
    Normal (ir.addFile file) where
  root := h.root
  files k entry hentry := by
    unfold CallGraphIR.addFile FileTable.insertFile at hentry
    by_cases hk : k = components (normalizePath file.path)
    · subst hk
      rw [AList.lookup_insert] at hentry
      cases hentry
      cases hold : ir.files.lookup (components (normalizePath file.path)) with
      | none => exact ⟨rfl, normalizePath_normalizePath file.path⟩
      | some old => exact h.files _ old hold
    · rw [AList.lookup_insert_ne hk] at hentry
      exact h.files k entry hentry

/-- **A graph that is built** is normal. -/
theorem normal_build (root language : Text) (changes : List (Change ImportDef VarType)) :
    Normal (build root language changes) := by
  unfold build
  induction changes using List.reverseRecOn with
  | nil => exact ⟨normalizePath_normalizePath root, fun k file hfile => nomatch hfile⟩
  | append_singleton changes change ih =>
    rw [List.foldl_concat]
    cases change with
    | addFile file => exact ih.addFile file
    | addEdge edge => exact ⟨ih.root, ih.files⟩
    | buildIndices ord => exact ⟨ih.root, ih.files⟩

end TldrCode.Callgraph
