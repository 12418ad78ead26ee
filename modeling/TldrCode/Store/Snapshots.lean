import TldrCode.Store.GraphSnapshot
import TldrCode.Store.Records

/-!
# Generation snapshots

`artifact_store/projections.rs`: a snapshot of a published generation is loaded, or refreshed from a
resident predecessor. Refreshing checks that the predecessor has the paths of the manifest but not
that it has their revisions. It agrees with loading if and only if it fails, or the predecessor has
the facts of every path that is not named as changed and no file defines a name twice on one line
(`refresh_agrees_iff`).
-/

namespace TldrCode.Store

open RedbArtifactStore

/-- The functions of a call-graph part of a file and the codec of the edges. -/
structure Decoders where
  functions : List UInt8 → Option (List (String × Option String))
  decodeEdges : List UInt8 → Except StoreError (List ProjectCallEdgeFact)

structure GenerationSnapshot where
  generation : Nat
  files : Files
  projectCalls : List ProjectCallEdgeFact
  callNodes : String → Option (List String)
  graph : GraphSnapshot

/-- The name of a function in `call_nodes`. -/
def qualifiedNode (path : String) : String × Option String → String
  | (name, none) => path ++ ":" ++ name
  | (name, some className) => path ++ ":" ++ (className ++ "." ++ name)

/-- What a file adds to the nodes of a language. -/
def fileNodes (decoders : Decoders) (language : String) (facts : FileFacts) :
    Option (List String) :=
  if facts.language = language then
    (decoders.functions facts.callgraphIr).map (·.map (qualifiedNode facts.path))
  else none

/-- `call_nodes`. -/
def collectNodes (decoders : Decoders) (values : List FileFacts) (language : String) :
    Option (List String) :=
  match values.filterMap (fileNodes decoders language) with
  | [] => none
  | nodes => some ((nodes.flatten.insertionSort (· ≤ ·)).destutter (· ≠ ·))

def GenerationSnapshot.fromResident (decoders : Decoders) (ord : HashOrder)
    (sort : UnstableSort NodeKey FunctionNode) (generation : Nat) (files : Files)
    (projectCalls : List ProjectCallEdgeFact) : GenerationSnapshot where
  generation
  files
  projectCalls
  callNodes := collectNodes decoders (files.values ord)
  graph := .build ord sort files projectCalls

section

variable (tools : Tools) (decoders : Decoders) (store : RedbArtifactStore) (generation : Nat)

def publishedManifest : Except StoreError GenerationManifest :=
  match store.generations generation with
  | none =>
    .error (.daemonError ("published generation " ++ toString generation ++ " is missing"))
  | some manifest => .ok manifest

def readPayload (what : String) (key : ArtifactKey) : Except StoreError (List UInt8) := do
  match ← store.artifact tools.blake3 key with
  | none => throw (.daemonError
      ("published generation " ++ toString generation ++ " references a missing " ++ what))
  | some artifact => return artifact.payload

def readFacts (key : ArtifactKey) : Except StoreError FileFacts :=
  readPayload tools store generation "file artifact" key >>= tools.decodeFacts

/-- `project_calls`. -/
def readCalls (manifest : GenerationManifest) : Except StoreError (List ProjectCallEdgeFact) :=
  match manifest.artifacts.find? (·.kind = .callGraph) with
  | none => .ok []
  | some key => readPayload tools store generation "call graph" key >>= decoders.decodeEdges

/-- `collect` of facts under their paths. -/
def collectFiles (facts : List FileFacts) : Files :=
  facts.foldl (fun files facts => files.insert facts.path facts) ∅

def GenerationSnapshot.load (ord : HashOrder) (sort : UnstableSort NodeKey FunctionNode) :
    Except StoreError GenerationSnapshot := do
  let manifest ← publishedManifest store generation
  let facts ← (manifest.artifacts.filter (·.kind = .fileFacts)).mapM
    (readFacts tools store generation)
  let projectCalls ← readCalls tools decoders store generation manifest
  return .fromResident decoders ord sort generation (collectFiles facts) projectCalls

/-- A look into `file_keys`. -/
def fileKeyOf (manifest : GenerationManifest) (path : String) : Option ArtifactKey :=
  (manifest.artifacts.filter (·.kind = .fileFacts)).reverse.find? (·.subject = .file path)

/-- The keys of `file_keys`. -/
def manifestPaths (manifest : GenerationManifest) : List String :=
  (manifest.artifacts.filter (·.kind = .fileFacts)).filterMap fun key => match key.subject with
    | .file path => some path
    | _ => none

def refreshFile (manifest : GenerationManifest) (files : Files) (path : String) :
    Except StoreError Files := do
  let files := files.erase path
  match fileKeyOf manifest path with
  | none => return files
  | some key =>
    let facts ← readFacts tools store generation key
    return files.insert facts.path facts

def GenerationSnapshot.refreshFiles (ord : HashOrder) (sort : UnstableSort NodeKey FunctionNode)
    (previous : GenerationSnapshot) (changed : List String) :
    Except StoreError GenerationSnapshot := do
  let manifest ← publishedManifest store generation
  let files ← changed.foldlM (refreshFile tools store generation manifest) previous.files
  if ¬ (files.keys ⊆ manifestPaths manifest ∧ manifestPaths manifest ⊆ files.keys) then
    throw (.daemonError ("file-scoped generation " ++ toString generation ++
      " does not match its resident predecessor"))
  let projectCalls ← readCalls tools decoders store generation manifest
  return .fromResident decoders ord sort generation files projectCalls

end

/-! ## What is compared -/

/-- Two snapshots have the same facts, call edges, nodes and graph. -/
structure GenerationSnapshot.Same (snapshot other : GenerationSnapshot) : Prop where
  files : ∀ path, snapshot.files.lookup path = other.files.lookup path
  projectCalls : snapshot.projectCalls = other.projectCalls
  callNodes : snapshot.callNodes = other.callNodes
  graph : snapshot.graph = other.graph

/-- Refreshing fails, or returns what loading returns. -/
def Agrees (refreshed loaded : Except StoreError GenerationSnapshot) : Prop :=
  ∀ snapshot, refreshed = .ok snapshot → ∃ other, loaded = .ok other ∧ snapshot.Same other

section

variable (tools : Tools) (decoders : Decoders) (store : RedbArtifactStore) (generation : Nat)
  (manifest : GenerationManifest) (previous : GenerationSnapshot) (changed : List String)

/-- Refreshing agrees with loading, in whatever orders they meet the files and sort the nodes. -/
def RefreshAgrees : Prop :=
  ∀ ord ord' sort sort', Agrees
    (GenerationSnapshot.refreshFiles tools decoders store generation ord sort previous changed)
    (GenerationSnapshot.load tools decoders store generation ord' sort')

def factsOf (path : String) : Option FileFacts :=
  (fileKeyOf manifest path).bind fun key => (readFacts tools store generation key).toOption

/-- The predecessor has the paths of the manifest, but for those named as changed. -/
def SamePaths : Prop :=
  ∀ path ∉ changed, (previous.files.lookup path).isSome ↔ (fileKeyOf manifest path).isSome

/-- The predecessor has the facts of the generation, but for the paths named as changed. -/
def SameFacts : Prop :=
  ∀ path ∉ changed, previous.files.lookup path = factsOf tools store generation manifest path

/-- Every artifact that a snapshot reads can be read. -/
structure Readable : Prop where
  files : ∀ key ∈ manifest.artifacts, key.kind = .fileFacts → ∃ facts,
    key.subject = .file facts.path ∧ readFacts tools store generation key = .ok facts
  calls : ∃ calls, readCalls tools decoders store generation manifest = .ok calls

end

variable {tools : Tools} {decoders : Decoders} {store : RedbArtifactStore} {generation : Nat}
  {manifest : GenerationManifest} {previous : GenerationSnapshot} {changed : List String}
  {ord ord' : HashOrder} {sort sort' : UnstableSort NodeKey FunctionNode} {files files' : Files}
  {key : ArtifactKey} {path : String} {values values' : List FileFacts} {language : String}
  {facts : List FileFacts}

theorem mem_of_fileKeyOf (h : fileKeyOf manifest path = some key) :
    key ∈ manifest.artifacts ∧ key.kind = .fileFacts ∧ key.subject = .file path := by
  have hmem := List.mem_reverse.1 (List.mem_of_find?_eq_some h)
  rw [List.mem_filter] at hmem
  exact ⟨hmem.1, by simpa using hmem.2, by simpa using List.find?_some h⟩

theorem mem_manifestPaths : path ∈ manifestPaths manifest ↔ (fileKeyOf manifest path).isSome := by
  unfold manifestPaths fileKeyOf
  rw [List.find?_isSome, List.mem_filterMap]
  constructor
  · rintro ⟨key, hkey, hpath⟩
    refine ⟨key, List.mem_reverse.2 hkey, ?_⟩
    split at hpath
    · next hsubject =>
      cases hpath
      rw [hsubject]
      exact decide_eq_true rfl
    · cases hpath
  · rintro ⟨key, hkey, hsubject⟩
    refine ⟨key, List.mem_reverse.1 hkey, ?_⟩
    rw [of_decide_eq_true hsubject]

theorem collectNodes_congr (h : values.Perm values') :
    collectNodes decoders values = collectNodes decoders values' := by
  funext language
  have hnodes : (values.filterMap (fileNodes decoders language)).Perm
      (values'.filterMap (fileNodes decoders language)) := h.filterMap _
  unfold collectNodes
  split
  · next hnil =>
    rw [hnil] at hnodes
    rw [← hnodes.nil_eq]
  · next hne =>
    split
    · next hnil =>
      rw [hnil] at hnodes
      exact absurd hnodes.eq_nil hne
    · refine congrArg (fun nodes : List String => some (nodes.destutter (· ≠ ·))) ?_
      refine List.Perm.eq_of_pairwise (fun _ _ _ _ => le_antisymm)
        (List.pairwise_insertionSort (· ≤ ·) _) (List.pairwise_insertionSort (· ≤ ·) _) ?_
      exact ((List.perm_insertionSort _ _).trans hnodes.flatten).trans
        (List.perm_insertionSort _ _).symm

/-! ## Loading -/

theorem lookup_collectFiles (facts : List FileFacts) (path : String) :
    (collectFiles facts).lookup path = facts.reverse.find? (·.path = path) := by
  unfold collectFiles
  induction facts using List.reverseRecOn with
  | nil => exact AList.lookup_empty path
  | append_singleton facts last ih =>
    rw [List.foldl_concat, List.reverse_concat, List.find?_cons]
    by_cases hpath : last.path = path
    · subst hpath
      rw [AList.lookup_insert, decide_eq_true rfl]
    · rw [AList.lookup_insert_ne (Ne.symm hpath), ih, decide_eq_false hpath]

theorem factsOf_of_none (h : fileKeyOf manifest path = none) :
    factsOf tools store generation manifest path = none := by
  unfold factsOf
  rw [h]
  rfl

section

variable (h : Readable tools decoders store generation manifest)
include h

theorem Readable.exists_facts (hkey : fileKeyOf manifest path = some key) :
    ∃ facts, facts.path = path ∧
      readFacts tools store generation key = .ok facts ∧
      factsOf tools store generation manifest path = some facts := by
  obtain ⟨hmem, hkind, hsubject⟩ := mem_of_fileKeyOf hkey
  obtain ⟨facts, hpath, hread⟩ := h.files key hmem hkind
  rw [hsubject] at hpath
  cases hpath
  refine ⟨facts, rfl, hread, ?_⟩
  unfold factsOf
  rw [hkey, Option.bind_some, hread]
  rfl

theorem Readable.named : Named (factsOf tools store generation manifest) := by
  intro path facts hfacts
  cases hkey : fileKeyOf manifest path with
  | none =>
    rw [factsOf_of_none hkey] at hfacts
    cases hfacts
  | some key =>
    obtain ⟨facts', hpath, -, hfacts'⟩ := h.exists_facts hkey
    rw [hfacts'] at hfacts
    cases hfacts
    exact hpath

theorem Readable.isSome_factsOf :
    (factsOf tools store generation manifest path).isSome ↔ (fileKeyOf manifest path).isSome := by
  cases hkey : fileKeyOf manifest path with
  | none => simp [factsOf_of_none hkey]
  | some key =>
    obtain ⟨facts, -, -, hfacts⟩ := h.exists_facts hkey
    simp [hfacts]

end

theorem find?_of_readFacts {keys : List ArtifactKey}
    (hread : List.Forall₂ (fun key facts => readFacts tools store generation key = .ok facts) keys
      facts) (hsubject : ∀ key ∈ keys, ∀ facts, readFacts tools store generation key = .ok facts →
      key.subject = .file facts.path) :
    facts.find? (·.path = path) = (keys.find? (·.subject = .file path)).bind fun key =>
      (readFacts tools store generation key).toOption := by
  induction hread with
  | nil => rfl
  | @cons key first keys facts hfirst _ ih =>
    rw [List.forall_mem_cons] at hsubject
    rw [List.find?_cons, List.find?_cons, hsubject.1 first hfirst]
    by_cases hpath : first.path = path
    · rw [decide_eq_true hpath, decide_eq_true (congrArg _ hpath)]
      dsimp only
      rw [Option.bind_some, hfirst]
      rfl
    · rw [decide_eq_false hpath, decide_eq_false fun heq => hpath (ArtifactSubject.file.inj heq)]
      exact ih hsubject.2

theorem load_eq {calls : List ProjectCallEdgeFact}
    (hmanifest : store.generations generation = some manifest)
    (hfacts : (manifest.artifacts.filter (·.kind = .fileFacts)).mapM
      (readFacts tools store generation) = .ok facts)
    (hcalls : readCalls tools decoders store generation manifest = .ok calls) :
    GenerationSnapshot.load tools decoders store generation ord sort =
      .ok (.fromResident decoders ord sort generation (collectFiles facts) calls) := by
  unfold GenerationSnapshot.load publishedManifest
  rw [hmanifest]
  change ((manifest.artifacts.filter (·.kind = .fileFacts)).mapM
    (readFacts tools store generation) >>= fun facts => _) = _
  rw [hfacts]
  change (readCalls tools decoders store generation manifest >>= fun calls => _) = _
  rw [hcalls]
  rfl

section

variable (h : Readable tools decoders store generation manifest)
include h

/-- **What loading returns.** -/
theorem Readable.exists_load (hmanifest : store.generations generation = some manifest) :
    ∃ files calls,
      (∀ path, files.lookup path = factsOf tools store generation manifest path) ∧
      readCalls tools decoders store generation manifest = .ok calls ∧ ∀ ord sort,
        GenerationSnapshot.load tools decoders store generation ord sort =
          .ok (.fromResident decoders ord sort generation files calls) := by
  have hkeys : ∀ key ∈ manifest.artifacts.filter (·.kind = .fileFacts),
      ∃ facts, readFacts tools store generation key = .ok facts := by
    intro key hkey
    rw [List.mem_filter, decide_eq_true_iff] at hkey
    obtain ⟨facts, -, hread⟩ := h.files key hkey.1 hkey.2
    exact ⟨facts, hread⟩
  obtain ⟨facts, hfacts⟩ := exists_mapM_eq_ok hkeys
  obtain ⟨calls, hcalls⟩ := h.calls
  refine ⟨collectFiles facts, calls, fun path => ?_, hcalls,
    fun ord sort => load_eq hmanifest hfacts hcalls⟩
  rw [lookup_collectFiles]
  refine find?_of_readFacts (List.forall₂_reverse_iff.2 (mapM_eq_ok_iff.1 hfacts)) ?_
  intro key hkey facts hread
  rw [List.mem_reverse, List.mem_filter, decide_eq_true_iff] at hkey
  obtain ⟨facts', hsubject, hread'⟩ := h.files key hkey.1 hkey.2
  cases hread.symm.trans hread'
  exact hsubject

/-! ## Refreshing -/

theorem Readable.exists_refreshFile (files : Files) (path : String) : ∃ files',
      refreshFile tools store generation manifest files path = .ok files' ∧
      ∀ other, files'.lookup other =
        if other = path then factsOf tools store generation manifest path
        else files.lookup other := by
  unfold refreshFile
  cases hkey : fileKeyOf manifest path with
  | none =>
    refine ⟨files.erase path, rfl, fun other => ?_⟩
    split_ifs with hother
    · rw [hother, AList.lookup_erase, factsOf_of_none hkey]
    · exact AList.lookup_erase_ne hother
  | some key =>
    obtain ⟨facts, rfl, hread, hfacts⟩ := h.exists_facts hkey
    refine ⟨(files.erase facts.path).insert facts.path facts, ?_, fun other => ?_⟩
    · dsimp only
      rw [hread]
      rfl
    · split_ifs with hother
      · rw [hother, AList.lookup_insert, hfacts]
      · rw [AList.lookup_insert_ne hother, AList.lookup_erase_ne hother]

theorem Readable.exists_refreshed (changed : List String) (files : Files) : ∃ files',
      changed.foldlM (refreshFile tools store generation manifest) files = .ok files' ∧
      ∀ path, files'.lookup path =
        if path ∈ changed then factsOf tools store generation manifest path
        else files.lookup path := by
  induction changed generalizing files with
  | nil => exact ⟨files, rfl, fun path => (if_neg List.not_mem_nil).symm⟩
  | cons first changed ih =>
    obtain ⟨next, hnext, hlookup⟩ := h.exists_refreshFile files first
    obtain ⟨files', hfiles', hlookup'⟩ := ih next
    refine ⟨files', ?_, fun path => ?_⟩
    · rw [List.foldlM_cons, hnext]
      exact hfiles'
    · rw [hlookup', hlookup]
      by_cases hfirst : path = first
      · simp [hfirst]
      · simp [hfirst]

theorem samePaths_iff (hlookup : ∀ path, files.lookup path =
      if path ∈ changed then factsOf tools store generation manifest path
      else previous.files.lookup path) :
    (files.keys ⊆ manifestPaths manifest ∧ manifestPaths manifest ⊆ files.keys) ↔
      SamePaths manifest previous changed := by
  have hkeys : ∀ path, path ∈ files.keys ↔ (files.lookup path).isSome := fun path =>
    AList.mem_keys.symm.trans AList.lookup_isSome.symm
  have hchanged : ∀ path ∈ changed, path ∈ files.keys ↔ path ∈ manifestPaths manifest := by
    intro path hpath
    rw [hkeys, mem_manifestPaths, hlookup, if_pos hpath, h.isSome_factsOf]
  have hother : ∀ path ∉ changed, (path ∈ files.keys ↔ path ∈ manifestPaths manifest) ↔
      ((previous.files.lookup path).isSome ↔ (fileKeyOf manifest path).isSome) := by
    intro path hpath
    rw [hkeys, mem_manifestPaths, hlookup, if_neg hpath]
  constructor
  · rintro ⟨hsub, hsup⟩ path hpath
    exact (hother path hpath).1 ⟨fun h => hsub h, fun h => hsup h⟩
  · intro hsame
    have hmem : ∀ path, path ∈ files.keys ↔ path ∈ manifestPaths manifest := by
      intro path
      by_cases hpath : path ∈ changed
      · exact hchanged path hpath
      · exact (hother path hpath).2 (hsame path hpath)
    exact ⟨fun path => (hmem path).1, fun path => (hmem path).2⟩

/-- **What refreshing returns.** -/
theorem Readable.exists_refreshFiles (hmanifest : store.generations generation = some manifest)
    (previous : GenerationSnapshot) (changed : List String) : ∃ files calls,
      (∀ path, files.lookup path =
        if path ∈ changed then factsOf tools store generation manifest path
        else previous.files.lookup path) ∧
      readCalls tools decoders store generation manifest = .ok calls ∧
      (SamePaths manifest previous changed → ∀ ord sort,
        GenerationSnapshot.refreshFiles tools decoders store generation ord sort previous changed =
          .ok (.fromResident decoders ord sort generation files calls)) ∧
      (¬ SamePaths manifest previous changed → ∀ ord sort snapshot,
        GenerationSnapshot.refreshFiles tools decoders store generation ord sort previous changed ≠
          .ok snapshot) := by
  obtain ⟨files, hfiles, hlookup⟩ := h.exists_refreshed changed previous.files
  obtain ⟨calls, hcalls⟩ := h.calls
  have hrefresh : ∀ ord sort,
      GenerationSnapshot.refreshFiles tools decoders store generation ord sort previous changed =
        if ¬ (files.keys ⊆ manifestPaths manifest ∧ manifestPaths manifest ⊆ files.keys) then
          .error (.daemonError ("file-scoped generation " ++ toString generation ++
            " does not match its resident predecessor"))
        else .ok (.fromResident decoders ord sort generation files calls) := by
    intro ord sort
    unfold GenerationSnapshot.refreshFiles publishedManifest
    rw [hmanifest]
    change (changed.foldlM (refreshFile tools store generation manifest) previous.files >>=
      fun files => _) = _
    rw [hfiles]
    split_ifs with hkeys
    · change (if _ then _ else _) = _
      rw [if_neg (not_not.2 hkeys)]
      change (readCalls tools decoders store generation manifest >>= fun calls => _) = _
      rw [hcalls]
      rfl
    · change (if _ then _ else _) = _
      rw [if_pos hkeys]
      rfl
  refine ⟨files, calls, hlookup, hcalls, fun hsame ord sort => ?_, fun hne ord sort snapshot => ?_⟩
  · rw [hrefresh, if_neg (not_not.2 ((samePaths_iff h hlookup).2 hsame))]
  · rw [hrefresh, if_pos (mt (samePaths_iff h hlookup).1 hne)]
    exact fun h => by cases h

/-- **Refreshing agrees with loading** exactly when it fails, or the predecessor has the facts of
what is not named and the graph is canonical. -/
theorem Readable.agrees_iff (hmanifest : store.generations generation = some manifest)
    (previous : GenerationSnapshot) (changed : List String) :
    RefreshAgrees tools decoders store generation previous changed ↔
    (SamePaths manifest previous changed →
      SameFacts tools store generation manifest previous changed ∧
      Unambiguous (factsOf tools store generation manifest)) := by
  obtain ⟨loaded, calls, hloaded, hcalls, hload⟩ := h.exists_load hmanifest
  obtain ⟨files, calls', hfiles, hcalls', hrefresh, hfail⟩ :=
    h.exists_refreshFiles hmanifest previous changed
  cases hcalls.symm.trans hcalls'
  have hloaded' : (loaded.lookup ·) = factsOf tools store generation manifest := funext hloaded
  constructor
  · intro hagree hsame
    have hsameAs : ∀ ord ord' sort sort',
        (GenerationSnapshot.fromResident decoders ord sort generation files calls).Same
          (.fromResident decoders ord' sort' generation loaded calls) := by
      intro ord ord' sort sort'
      obtain ⟨other, hother, hsameAs⟩ := hagree ord ord' sort sort' _ (hrefresh hsame ord sort)
      rw [hload] at hother
      cases hother
      exact hsameAs
    constructor
    · intro path hpath
      have hlookup : files.lookup path = loaded.lookup path :=
        (hsameAs .insertion .insertion .stable .stable).files path
      rw [hfiles, if_neg hpath, hloaded] at hlookup
      exact hlookup
    · -- two sorts of the nodes that loading reads make the same graph
      by_contra hambiguous
      rw [← hloaded'] at hambiguous
      obtain ⟨sort, sort', hne⟩ := GraphSnapshot.exists_build_ne hambiguous .insertion calls
      have h₁ := (hsameAs .insertion .insertion sort sort).graph
      have h₂ := (hsameAs .insertion .insertion sort sort').graph
      exact hne (h₁.symm.trans h₂)
  · intro hcondition ord ord' sort sort' snapshot hsnapshot
    by_cases hsame : SamePaths manifest previous changed
    · obtain ⟨hfacts, hunambiguous⟩ := hcondition hsame
      rw [hrefresh hsame] at hsnapshot
      cases hsnapshot
      have hlookup : ∀ path, files.lookup path = loaded.lookup path := by
        intro path
        rw [hfiles, hloaded]
        split_ifs with hpath
        · rfl
        · exact hfacts path hpath
      refine ⟨_, hload ord' sort', hlookup, rfl, ?_, ?_⟩
      · exact collectNodes_congr (Files.values_perm hlookup)
      · have hfiles' : (files.lookup ·) = factsOf tools store generation manifest :=
          (funext hlookup).trans hloaded'
        exact GraphSnapshot.build_congr hlookup (hfiles' ▸ h.named) (hfiles' ▸ hunambiguous)
    · exact absurd hsnapshot (hfail hsame ord sort snapshot)

end

/-- What the parser made of a file can be decoded, and so can the edges that were composed. -/
structure RoundTrips (tools : Tools) (decoders : Decoders) (trees : List Sources) : Prop where
  facts : ∀ tree ∈ trees, ∀ path facts, parse tools tree path = .ok facts →
    tools.decodeFacts (tools.encodeFacts facts) = .ok facts
  edges : ∀ inputs calls, tools.compose inputs = .ok calls →
    decoders.decodeEdges (tools.encodeEdges calls) = .ok calls

theorem readPayload_eq {record : ArtifactEnvelope} {what : String}
    (hs : store.Sound tools.blake3) (hrecord : store.records key = some record) :
    readPayload tools store generation what key = .ok record.payload := by
  unfold readPayload
  rw [hs.artifact_eq, hrecord]
  rfl

/-- **What the program published can be read.** -/
theorem readable_stored (project : ProjectId) (actions : List Action)
    (hcodec : RoundTrips tools decoders (treesOf actions))
    (hmanifest : (stored tools project actions).generations generation = some manifest) :
    Readable tools decoders (stored tools project actions) generation manifest := by
  have hlinked : Linked tools (TextKey tools project (treesOf actions))
    (stored tools project actions) :=
    linked_stored actions
  have hgraphs : Linked tools (fun key => key.kind = .callGraph →
      ∃ revision, key = graphKey project revision) (stored tools project actions) := by
    apply linked_stored_of
    · intro tree htree path revision hrevision kind hkind hgraph
      have hgraph : kind = .callGraph := hgraph
      rw [hgraph] at hkind
      exact absurd hkind (by decide)
    · exact fun revision _ => ⟨revision, rfl⟩
    · intro key hkind hgraph
      rw [hgraph] at hkind
      exact absurd hkind (by decide)
  have hrecorded : Recorded tools project (treesOf actions) (stored tools project actions) :=
    recorded_stored actions
  have hlink := (hlinked.sound.manifest generation manifest hmanifest).2
  have hrecord : ∀ key ∈ manifest.artifacts,
      ∃ record, (stored tools project actions).records key = some record := fun key hkey =>
    Option.isSome_iff_exists.1 (hlinked.sound.linked generation key (hlink hkey))
  constructor
  case files =>
    intro key hkey hkind
    obtain ⟨tree, htree, path, revision, -, heq⟩ := hlinked.linked generation key (hlink hkey)
      (by rw [hkind]; decide)
    rw [hkind] at heq
    subst heq
    obtain ⟨record, hsome⟩ := hrecord _ hkey
    obtain ⟨tree', htree', facts, hparse, hpayload⟩ := hrecorded.facts path revision record hsome
    refine ⟨facts, ?_, ?_⟩
    · rw [(parse_eq_ok hparse).1]
      rfl
    · unfold readFacts
      rw [readPayload_eq hlinked.sound hsome, hpayload]
      exact hcodec.facts tree' htree' path facts hparse
  case calls =>
    unfold readCalls
    cases hfind : manifest.artifacts.find? (·.kind = .callGraph) with
    | none => exact ⟨[], rfl⟩
    | some key =>
      have hkey := List.mem_of_find?_eq_some hfind
      obtain ⟨revision, rfl⟩ := hgraphs.linked generation key (hlink hkey)
        (by simpa using List.find?_some hfind)
      obtain ⟨record, hsome⟩ := hrecord _ hkey
      obtain ⟨inputs, calls, hcompose, hpayload⟩ := hrecorded.graph revision record hsome
      refine ⟨calls, ?_⟩
      dsimp only
      rw [readPayload_eq hlinked.sound hsome, hpayload]
      exact hcodec.edges inputs calls hcompose

/-- In a store of the program, refreshing a snapshot to a published generation agrees with loading
it if and only if it fails, or the predecessor has the facts of what is not named as changed and no
file defines a name twice on one line. -/
theorem refresh_agrees_iff (tools : Tools) (decoders : Decoders) (project : ProjectId)
    (actions : List Action) (hcodec : RoundTrips tools decoders (treesOf actions))
    (generation : Nat) (manifest : GenerationManifest)
    (hmanifest : (stored tools project actions).generations generation = some manifest)
    (previous : GenerationSnapshot) (changed : List String) :
    RefreshAgrees tools decoders (stored tools project actions) generation previous changed ↔
    (SamePaths manifest previous changed →
      SameFacts tools (stored tools project actions) generation manifest previous changed ∧
      Unambiguous (factsOf tools (stored tools project actions) generation manifest)) :=
  (readable_stored project actions hcodec hmanifest).agrees_iff hmanifest previous changed

/-! ## Concrete snapshots -/

def namedFile (bytes : List UInt8) : Sources where
  discovered := ["a.py"]
  nodup := List.nodup_singleton _
  read path := if path = "a.py" then .ok bytes else .error (ingestionError "missing")
  isFileScopeSource path := path = "a.py"
  extract _ _ := .ok plainExtraction

/-- A file without functions and a graph without edges. -/
def plainDecoders : Decoders where
  functions _ := some []
  decodeEdges _ := .ok []

/-- The file is ingested, changed and ingested again, and then a path without a file is. -/
def changedOnce : List Action :=
  [.ingest (namedFile [0x61]) .project none, .ingest (namedFile [0x62]) (.files ["a.py"]) none,
    .ingest (namedFile [0x62]) (.files ["b.py"]) none]

theorem roundTrips_namedFile {actions : List Action}
    (htrees : ∀ tree ∈ treesOf actions, ∃ bytes, tree = namedFile bytes) :
    RoundTrips plainTools plainDecoders (treesOf actions) where
  facts tree htree path facts hparse := by
    obtain ⟨bytes, rfl⟩ := htrees tree htree
    have hpath : path = "a.py" := by
      by_contra hne
      have hread : (namedFile bytes).read path = .error (ingestionError "missing") := if_neg hne
      unfold parse at hparse
      rw [hread] at hparse
      cases hparse
    subst hpath
    cases hparse
    rfl
  edges inputs calls hcompose := by
    cases hcompose
    rfl

theorem trees_changedOnce : ∀ tree ∈ treesOf changedOnce, ∃ bytes, tree = namedFile bytes := by
  simp [treesOf, changedOnce]

def namedFacts (bytes : List UInt8) : FileFacts :=
  { plainExtraction with path := "a.py", revision := ⟨plainHash bytes⟩, source := bytes }

def firstSnapshot : GenerationSnapshot :=
  .fromResident plainDecoders .insertion .stable 1 (collectFiles [namedFacts [0x61]]) []

def manifestAt (actions : List Action) (generation : Nat) : GenerationManifest :=
  ((stored plainTools ⟨0⟩ actions).generations generation).getD ⟨0, ⟨0⟩, ⟨0⟩, [], none⟩

theorem refresh_agrees_changed :
    RefreshAgrees plainTools plainDecoders (stored plainTools ⟨0⟩ changedOnce) 2 firstSnapshot
      ["a.py"] := by
  refine (refresh_agrees_iff plainTools plainDecoders ⟨0⟩ changedOnce
    (roundTrips_namedFile trees_changedOnce) 2 (manifestAt changedOnce 2)
      (by decide +kernel) firstSnapshot
    ["a.py"]).2 fun _ => ?_
  have hkeys : ∀ key ∈ (manifestAt changedOnce 2).artifacts, key.kind = .fileFacts →
      key.subject = .file "a.py" := by decide +kernel
  have hother : ∀ path, path ≠ "a.py" → fileKeyOf (manifestAt changedOnce 2) path = none := by
    intro path hpath
    by_contra hne
    obtain ⟨key, hkey⟩ := Option.ne_none_iff_exists'.1 hne
    obtain ⟨hmem, hkind, hsubject⟩ := mem_of_fileKeyOf hkey
    rw [hkeys key hmem hkind] at hsubject
    exact hpath (ArtifactSubject.file.inj hsubject).symm
  constructor
  · intro path hpath
    rw [List.mem_singleton] at hpath
    rw [factsOf_of_none (hother path hpath)]
    have hlookup := lookup_collectFiles [namedFacts [0x61]] path
    rw [List.reverse_singleton, List.find?_singleton,
      decide_eq_false fun heq => hpath heq.symm] at hlookup
    exact hlookup
  · intro path facts hfacts
    by_cases hpath : path = "a.py"
    · subst hpath
      have hnone : (factsOf plainTools (stored plainTools ⟨0⟩ changedOnce) 2
        (manifestAt changedOnce 2)
          "a.py").map (·.definitions) = some [] := by decide +kernel
      rw [hfacts] at hnone
      have hnone : facts.definitions = [] := Option.some.inj hnone
      rw [hnone]
      exact fun d hd => absurd hd List.not_mem_nil
    · rw [factsOf_of_none (hother path hpath)] at hfacts
      cases hfacts

/-- A path that is not named as changed keeps the facts of an older generation. -/
theorem refresh_stale_path :
    ¬ ∀ (tools : Tools) (decoders : Decoders) (project : ProjectId) (before later : List Action),
      RoundTrips tools decoders (treesOf (before ++ later)) →
      ∀ (earlier generation : Nat) (manifest : GenerationManifest), earlier < generation →
      (stored tools project (before ++ later)).generations generation = some manifest →
      ∀ (ord : HashOrder) (sort : UnstableSort NodeKey FunctionNode)
        (previous : GenerationSnapshot) (changed : List String),
      GenerationSnapshot.load tools decoders (stored tools project before) earlier ord sort =
        .ok previous →
      RefreshAgrees tools decoders (stored tools project (before ++ later)) generation previous
        changed := by
  intro h
  have hload : GenerationSnapshot.load plainTools plainDecoders
      (stored plainTools ⟨0⟩ (changedOnce.take 1)) 1 .insertion .stable = .ok firstSnapshot := by
    have hmanifest : (stored plainTools ⟨0⟩ (changedOnce.take 1)).generations 1 =
        some (manifestAt (changedOnce.take 1) 1) := by decide +kernel
    apply load_eq hmanifest
    · decide +kernel
    · decide +kernel
  have hagree := h plainTools plainDecoders ⟨0⟩ (changedOnce.take 1) (changedOnce.drop 1)
    (roundTrips_namedFile trees_changedOnce) 1 3 (manifestAt changedOnce 3) (by decide)
    (by decide +kernel) .insertion .stable firstSnapshot ["b.py"] hload .insertion .insertion
    .stable .stable
  have hrefreshed : (GenerationSnapshot.refreshFiles plainTools plainDecoders
      (stored plainTools ⟨0⟩ changedOnce) 3 .insertion .stable firstSnapshot ["b.py"]).map
        (·.files.lookup "a.py") = .ok (some (namedFacts [0x61])) := by decide +kernel
  have hloaded : (GenerationSnapshot.load plainTools plainDecoders
      (stored plainTools ⟨0⟩ changedOnce) 3 .insertion .stable).map
        (·.files.lookup "a.py") = .ok (some (namedFacts [0x62])) := by decide +kernel
  cases hsnapshot : GenerationSnapshot.refreshFiles plainTools plainDecoders
      (stored plainTools ⟨0⟩ changedOnce) 3 .insertion .stable firstSnapshot ["b.py"] with
  | error e =>
    rw [hsnapshot] at hrefreshed
    cases hrefreshed
  | ok snapshot =>
    obtain ⟨other, hother, hsame⟩ := hagree snapshot hsnapshot
    have hother : GenerationSnapshot.load plainTools plainDecoders
        (stored plainTools ⟨0⟩ changedOnce) 3 .insertion .stable = .ok other := hother
    rw [hsnapshot] at hrefreshed
    rw [hother] at hloaded
    have hstale : snapshot.files.lookup "a.py" = some (namedFacts [0x61]) :=
      Except.ok.inj hrefreshed
    have hnew : other.files.lookup "a.py" = some (namedFacts [0x62]) := Except.ok.inj hloaded
    rw [hsame.files, hnew] at hstale
    exact absurd hstale (by decide)

end TldrCode.Store
