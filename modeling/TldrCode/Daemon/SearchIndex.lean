import Mathlib.Data.List.AList
import Mathlib.Data.List.Dedup
import Mathlib.Data.List.Sort
import Mathlib.Data.String.Basic
import Mathlib.Logic.Function.Basic
import TldrCode.Run
import TldrCode.Types

/-!
# Resident lexical indexes

`daemon/search_index_manager.rs`: the lexical indexes of a generation, one for each language.
Callers refresh them from a snapshot, or from what they read of the indexes before and the paths
that have changed, which is built and written in steps of its own, and invalidate them. The index
that is served is that of its generation in all states if and only if every write is of indexes that
were complete for a generation of which the changed paths tell the difference (`served_iff`).
-/

namespace TldrCode.Daemon

open Function (update)

/-! ## Snapshots -/

/-- The parts of `FileFacts` that lexical indexes are built of. -/
structure LexicalFile where
  language : Language
  source : String
  deriving DecidableEq, Repr

/-- The files of a `GenerationSnapshot` by their paths. -/
abbrev LexicalFiles := AList fun _ : String => LexicalFile

/-- `file_languages` of a snapshot. -/
def LexicalFiles.fileLanguages (files : LexicalFiles) (path : String) : Option Language :=
  (files.lookup path).map (·.language)

/-- `languages` of a snapshot. -/
def LexicalFiles.languages (files : LexicalFiles) : List Language :=
  (files.entries.map (·.2.language)).dedup

def LexicalFiles.lexicalDocuments (files : LexicalFiles) (language : Language) :
    List (String × String) :=
  let selected := files.entries.filter fun entry =>
    entry.2.language = language ∧ entry.2.source ≠ ""
  (selected.map fun entry => (entry.1, entry.2.source)).insertionSort fun a b => a.1 ≤ b.1

/-! ## Indexes -/

/-- `Bm25Index`, by the documents that it holds. -/
structure Bm25Index where
  documents : List (String × String)
  deriving DecidableEq, Repr

namespace Bm25Index

def fromDocuments (documents : List (String × String)) : Bm25Index := ⟨documents⟩

def documentCount (index : Bm25Index) : Nat := index.documents.length

def isEmpty (index : Bm25Index) : Bool := index.documents.isEmpty

end Bm25Index

/-- `by_language`. -/
abbrev LanguageIndexes := AList fun _ : Language => Bm25Index

structure SearchIndexState where
  generation : Nat
  byLanguage : LanguageIndexes
  fileLanguages : String → Option Language
  documents : Nat

def LanguageIndexes.documents (byLanguage : LanguageIndexes) : Nat :=
  (byLanguage.entries.map fun entry => entry.2.documentCount).sum

def LexicalFiles.index (files : LexicalFiles) (language : Language) : Bm25Index :=
  .fromDocuments (files.lexicalDocuments language)

/-- The state that `refresh` writes. -/
def refreshed (generation : Nat) (files : LexicalFiles) : SearchIndexState :=
  let byLanguage : LanguageIndexes := files.languages.foldl
    (fun byLanguage language => byLanguage.insert language (files.index language)) ∅
  { generation, byLanguage, fileLanguages := files.fileLanguages
    documents := byLanguage.documents }

/-- The languages that `refresh_paths` builds. -/
def affected (oldFileLanguages newFileLanguages : String → Option Language)
    (changedPaths : List String) : List Language :=
  (changedPaths.flatMap fun path =>
    (oldFileLanguages path).toList ++ (newFileLanguages path).toList).dedup

/-- The indexes that `refresh_paths` builds on those that it read. -/
def refreshLanguages (files : LexicalFiles) (languages : List Language)
    (byLanguage : LanguageIndexes) : LanguageIndexes :=
  languages.foldl (fun byLanguage language =>
    let index := files.index language
    if index.isEmpty then byLanguage.erase language else byLanguage.insert language index)
    byLanguage

/-- The indexes that `refresh_paths` builds. -/
def rebuilt (files : LexicalFiles) (changedPaths : List String) (old : Option SearchIndexState) :
    LanguageIndexes :=
  refreshLanguages files
    (affected ((old.map (·.fileLanguages)).getD fun _ => none) files.fileLanguages changedPaths)
    ((old.map (·.byLanguage)).getD ∅)

def index (state : Option SearchIndexState) (generation : Nat) (language : Language) :
    Except String Bm25Index :=
  match state with
  | none => .error "resident BM25 index is not ready — run tldr warm"
  | some state =>
    if state.generation ≠ generation then
      .error ("resident BM25 generation " ++ toString state.generation ++
        " does not match artifact generation " ++ toString generation)
    else match state.byLanguage.lookup language with
    | some index => .ok index
    | none => .error ("resident BM25 has no documents for language " ++ language.asStr ++
        " in generation " ++ toString generation)

/-! ## The manager and its callers -/

/-- Where a caller is in `refresh_paths`, for the snapshot of a generation and the changed paths,
with the state that it read. -/
inductive Phase where
  | idle
  | reading (generation : Nat) (changedPaths : List String) (old : Option SearchIndexState)
  | built (generation : Nat) (changedPaths : List String) (old : Option SearchIndexState)
    (byLanguage : LanguageIndexes)

/-- `SearchIndexManager` and its callers. -/
structure SearchIndexManager where
  state : Option SearchIndexState
  phase : Nat → Phase

inductive Event where
  | refresh (caller generation : Nat)
  | read (caller generation : Nat) (changedPaths : List String)
  | build (caller : Nat)
  | write (caller : Nat)
  | invalidate

namespace SearchIndexManager

variable (snapshots : Nat → LexicalFiles)

def new : SearchIndexManager := ⟨none, fun _ => .idle⟩

/-- One step, for the snapshots of the generations. -/
def next (manager : SearchIndexManager) : Event → SearchIndexManager
  | .refresh _ generation =>
    { manager with state := some (refreshed generation (snapshots generation)) }
  | .read caller generation changedPaths => { manager with
      phase := update manager.phase caller (.reading generation changedPaths manager.state) }
  | .build caller =>
    match manager.phase caller with
    | .reading generation changedPaths old => { manager with
        phase := update manager.phase caller (.built generation changedPaths old
          (rebuilt (snapshots generation) changedPaths old)) }
    | _ => manager
  | .write caller =>
    match manager.phase caller with
    | .built generation _ _ byLanguage => {
        state := some {
          generation, byLanguage, fileLanguages := (snapshots generation).fileLanguages
          documents := byLanguage.documents }
        phase := update manager.phase caller .idle }
    | _ => manager
  | .invalidate => { manager with state := none }

def afterEvents (events : List Event) : SearchIndexManager := events.foldl (next snapshots) new

end SearchIndexManager

/-! ## What is served -/

section

variable (snapshots : Nat → LexicalFiles)

/-- An index that is served is that of the documents of its generation, and one is served for the
languages that `refresh` would serve. -/
structure Served (state : Option SearchIndexState) : Prop where
  documents : ∀ generation language served, index state generation language = .ok served →
    served = .fromDocuments ((snapshots generation).lexicalDocuments language)
  languages : ∀ s, state = some s → ∀ language,
    (index state s.generation language).isOk ↔
      (index (some (refreshed s.generation (snapshots s.generation))) s.generation language).isOk

/-- A changed path has a language, in the state that was read or the snapshot. -/
def Touched (generation : Nat) (changedPaths : List String) (old : Option SearchIndexState)
    (language : Language) : Prop :=
  ∃ path ∈ changedPaths,
    (∃ s, old = some s ∧ (snapshots s.generation).fileLanguages path = some language) ∨
      (snapshots generation).fileLanguages path = some language

/-- The changed paths tell how the snapshot differs from that of the state that was read, and no
language that they touch has empty files only. -/
structure Covered (generation : Nat) (changedPaths : List String)
    (old : Option SearchIndexState) : Prop where
  touched : ∀ language, Touched snapshots generation changedPaths old language →
    language ∈ (snapshots generation).languages →
      (snapshots generation).lexicalDocuments language ≠ []
  untouched : ∀ language, ¬ Touched snapshots generation changedPaths old language →
    match old with
    | none => language ∉ (snapshots generation).languages
    | some s =>
      (language ∈ (snapshots s.generation).languages ↔
        language ∈ (snapshots generation).languages) ∧
      (snapshots s.generation).lexicalDocuments language =
        (snapshots generation).lexicalDocuments language

/-- What a caller writes is built of a state that the changed paths cover. -/
def Writes (manager : SearchIndexManager) : Event → Prop
  | .write caller =>
    match manager.phase caller with
    | .built generation changedPaths old _ => Covered snapshots generation changedPaths old
    | _ => True
  | _ => True

end

variable {snapshots : Nat → LexicalFiles} {files : LexicalFiles} {byLanguage : LanguageIndexes}
  {language : Language} {generation : Nat} {changedPaths : List String}
  {old : Option SearchIndexState} {s : SearchIndexState} {manager : SearchIndexManager}

theorem lexicalDocuments_eq_nil (h : language ∉ files.languages) :
    files.lexicalDocuments language = [] := by
  unfold LexicalFiles.lexicalDocuments
  dsimp only
  rw [List.filter_eq_nil_iff.2 ?_]
  · rfl
  · intro entry hentry hlanguage
    rw [decide_eq_true_iff] at hlanguage
    refine h ?_
    unfold LexicalFiles.languages
    rw [List.mem_dedup]
    exact List.mem_map.2 ⟨entry, hentry, hlanguage.1⟩

theorem mem_affected {oldFileLanguages newFileLanguages : String → Option Language} :
    language ∈ affected oldFileLanguages newFileLanguages changedPaths ↔
      ∃ path ∈ changedPaths, oldFileLanguages path = some language ∨
        newFileLanguages path = some language := by
  unfold affected
  simp [List.mem_dedup, List.mem_flatMap]

theorem isEmpty_index : (files.index language).isEmpty ↔ files.lexicalDocuments language = [] :=
  List.isEmpty_iff

theorem lookup_refreshed : (refreshed generation files).byLanguage.lookup language =
    if language ∈ files.languages then some (files.index language) else none := by
  have hloop : ∀ (languages : List Language) (byLanguage : LanguageIndexes),
      (languages.foldl (fun byLanguage language => byLanguage.insert language
        (files.index language)) byLanguage).lookup language =
      if language ∈ languages then some (files.index language)
      else byLanguage.lookup language := by
    intro languages
    induction languages with
    | nil => exact fun byLanguage => (if_neg List.not_mem_nil).symm
    | cons first languages ih =>
      intro byLanguage
      rw [List.foldl_cons, ih]
      by_cases hfirst : language = first
      · subst hfirst
        simp
      · simp [AList.lookup_insert_ne hfirst, hfirst]
  exact hloop files.languages ∅

theorem lookup_refreshLanguages (languages : List Language) (byLanguage : LanguageIndexes) :
    (refreshLanguages files languages byLanguage).lookup language =
      if language ∈ languages then
        if files.lexicalDocuments language = [] then none else some (files.index language)
      else byLanguage.lookup language := by
  unfold refreshLanguages
  induction languages generalizing byLanguage with
  | nil => exact (if_neg List.not_mem_nil).symm
  | cons first languages ih =>
    rw [List.foldl_cons, ih]
    by_cases hfirst : language = first
    · subst hfirst
      by_cases hempty : files.lexicalDocuments language = []
      · simp [isEmpty_index.2 hempty, hempty]
      · simp [mt isEmpty_index.1 hempty, hempty]
    · have hlookup : (if (files.index first).isEmpty then byLanguage.erase first
          else byLanguage.insert first (files.index first)).lookup language =
            byLanguage.lookup language := by
        split_ifs
        · exact AList.lookup_erase_ne hfirst
        · exact AList.lookup_insert_ne hfirst
      dsimp only
      rw [hlookup]
      simp [hfirst]

/-! ## Served states -/

theorem index_eq_ok_iff {served : Bm25Index} :
    index (some s) s.generation language = .ok served ↔
      s.byLanguage.lookup language = some served := by
  unfold index
  dsimp only
  rw [if_neg (not_not.2 rfl)]
  cases s.byLanguage.lookup language <;> simp

theorem isOk_index : (index (some s) s.generation language).isOk ↔
    (s.byLanguage.lookup language).isSome := by
  unfold index
  dsimp only
  rw [if_neg (not_not.2 rfl)]
  cases s.byLanguage.lookup language <;> simp [Except.isOk, Except.toBool]

theorem served_none : Served snapshots none where
  documents _ _ _ h := by cases h
  languages _ h := by cases h

/-- **A state is served** if it has the indexes that `refresh` has. -/
theorem served_some_iff : Served snapshots (some s) ↔ ∀ language,
    s.byLanguage.lookup language =
      if language ∈ (snapshots s.generation).languages then
        some ((snapshots s.generation).index language) else none := by
  have hfresh : ∀ language,
      (index (some (refreshed s.generation (snapshots s.generation))) s.generation language).isOk ↔
        language ∈ (snapshots s.generation).languages := by
    intro language
    refine isOk_index.trans ?_
    rw [lookup_refreshed]
    split_ifs with hmem <;> simp [hmem]
  constructor
  · intro h language
    have hlanguage := (h.languages s rfl language).trans (hfresh language)
    rw [isOk_index] at hlanguage
    split_ifs with hmem
    · obtain ⟨served, hserved⟩ := Option.isSome_iff_exists.1 (hlanguage.2 hmem)
      rw [hserved, h.documents s.generation language served (index_eq_ok_iff.2 hserved)]
      rfl
    · exact Option.not_isSome_iff_eq_none.1 (mt hlanguage.1 hmem)
  · intro h
    constructor
    case documents =>
      intro generation language served hserved
      by_cases hgeneration : s.generation = generation
      · subst hgeneration
        rw [index_eq_ok_iff, h] at hserved
        split_ifs at hserved
        exact (Option.some.inj hserved).symm
      · unfold index at hserved
        dsimp only at hserved
        rw [if_pos hgeneration] at hserved
        cases hserved
    case languages =>
      rintro s' hs language
      cases hs
      rw [hfresh, isOk_index, h]
      split_ifs with hmem <;> simp [hmem]

theorem served_refreshed : Served snapshots (some (refreshed generation (snapshots generation))) :=
  served_some_iff.2 fun _ => lookup_refreshed

/-- What a caller reads: indexes that are served, with the languages of the files of their
generation. -/
structure Known (snapshots : Nat → LexicalFiles) (old : Option SearchIndexState) : Prop where
  served : Served snapshots old
  fileLanguages : ∀ s, old = some s → s.fileLanguages = (snapshots s.generation).fileLanguages

theorem Known.mem_affected (h : Known snapshots old) :
    language ∈ affected ((old.map (·.fileLanguages)).getD fun _ => none)
      (snapshots generation).fileLanguages changedPaths ↔
        Touched snapshots generation changedPaths old language := by
  rw [Daemon.mem_affected]
  unfold Touched
  refine exists_congr fun path => and_congr_right fun _ => or_congr_left ?_
  cases old with
  | none => simp
  | some s =>
    have hlanguages := congrFun (h.fileLanguages s rfl) path
    constructor
    · exact fun hold => ⟨s, rfl, hlanguages ▸ hold⟩
    · rintro ⟨s', hs, hold⟩
      cases hs
      exact hlanguages.trans hold

/-- **What is built is served** exactly when the changed paths cover what was read. -/
theorem Known.served_rebuilt_iff (h : Known snapshots old)
    (hbyLanguage : s.byLanguage = rebuilt (snapshots s.generation) changedPaths old) :
    Served snapshots (some s) ↔ Covered snapshots s.generation changedPaths old := by
  have htouched : ∀ language, language ∈ affected ((old.map (·.fileLanguages)).getD fun _ => none)
      (snapshots s.generation).fileLanguages changedPaths ↔
        Touched snapshots s.generation changedPaths old language := fun _ => h.mem_affected
  have hlookup : ∀ language, s.byLanguage.lookup language =
      if language ∈ affected ((old.map (·.fileLanguages)).getD fun _ => none)
          (snapshots s.generation).fileLanguages changedPaths then
        if (snapshots s.generation).lexicalDocuments language = [] then none
        else some ((snapshots s.generation).index language)
      else ((old.map SearchIndexState.byLanguage).getD ∅).lookup language := by
    intro language
    rw [hbyLanguage]
    exact lookup_refreshLanguages _ _
  have hold : ∀ language, ((old.map SearchIndexState.byLanguage).getD ∅).lookup language =
      match old with
      | none => none
      | some s => if language ∈ (snapshots s.generation).languages then
          some ((snapshots s.generation).index language) else none := by
    intro language
    cases old with
    | none => exact AList.lookup_empty language
    | some s => exact served_some_iff.1 h.served language
  rw [served_some_iff]
  constructor
  · intro hserved
    constructor
    case touched =>
      intro language hlanguage hmem hempty
      have heq := hserved language
      rw [hlookup, if_pos ((htouched language).2 hlanguage), if_pos hempty, if_pos hmem] at heq
      cases heq
    case untouched =>
      intro language hlanguage
      have heq := hserved language
      rw [hlookup, if_neg (mt (htouched language).1 hlanguage), hold] at heq
      cases old with
      | none =>
        dsimp only at heq ⊢
        intro hmem
        rw [if_pos hmem] at heq
        cases heq
      | some s' =>
        dsimp only at heq ⊢
        split_ifs at heq with hmem hmem' hmem'
        · exact ⟨iff_of_true hmem hmem', Bm25Index.mk.inj (Option.some.inj heq)⟩
        · exact ⟨iff_of_false hmem hmem',
            (lexicalDocuments_eq_nil hmem).trans (lexicalDocuments_eq_nil hmem').symm⟩
  · intro hcovered language
    rw [hlookup]
    by_cases hlanguage : Touched snapshots s.generation changedPaths old language
    · rw [if_pos ((htouched language).2 hlanguage)]
      by_cases hmem : language ∈ (snapshots s.generation).languages
      · rw [if_neg (hcovered.touched language hlanguage hmem), if_pos hmem]
      · rw [if_pos (lexicalDocuments_eq_nil hmem), if_neg hmem]
    · have huntouched := hcovered.untouched language hlanguage
      rw [if_neg (mt (htouched language).1 hlanguage), hold]
      cases old with
      | none => exact (if_neg huntouched).symm
      | some s' =>
        dsimp only at huntouched ⊢
        rw [if_congr huntouched.1 rfl rfl, LexicalFiles.index, huntouched.2]
        rfl

/-! ## Runs -/

/-- What every step keeps: callers know what they read, and have built it. -/
structure SearchIndexManager.Inv (snapshots : Nat → LexicalFiles) (manager : SearchIndexManager) :
    Prop where
  fileLanguages : ∀ s, manager.state = some s →
    s.fileLanguages = (snapshots s.generation).fileLanguages
  reading : ∀ caller generation changedPaths old,
    manager.phase caller = .reading generation changedPaths old → Known snapshots old
  built : ∀ caller generation changedPaths old byLanguage,
    manager.phase caller = .built generation changedPaths old byLanguage →
      Known snapshots old ∧ byLanguage = rebuilt (snapshots generation) changedPaths old

namespace SearchIndexManager

theorem inv_new : new.Inv snapshots where
  fileLanguages _ h := by cases h
  reading _ _ _ _ h := by cases h
  built _ _ _ _ _ h := by cases h

/-- **A step keeps the invariant.** -/
theorem Inv.next {event : Event} (h : manager.Inv snapshots)
    (hserved : Served snapshots manager.state) : (manager.next snapshots event).Inv snapshots := by
  cases event with
  | refresh caller generation =>
    refine ⟨fun s hs => ?_, h.reading, h.built⟩
    cases hs
    rfl
  | read caller generation changedPaths =>
    refine ⟨h.fileLanguages, fun other g paths old hphase => ?_,
      fun other g paths old byLanguage hphase => ?_⟩
    all_goals
      dsimp only [SearchIndexManager.next] at hphase
      rw [Function.update_apply] at hphase
      split_ifs at hphase
    · cases hphase
      exact ⟨hserved, h.fileLanguages⟩
    · exact h.reading other g paths old hphase
    · exact h.built other g paths old byLanguage hphase
  | build caller =>
    rw [SearchIndexManager.next]
    split
    · next generation changedPaths old hreading =>
      refine ⟨h.fileLanguages, fun other g paths old' hphase => ?_,
        fun other g paths old' byLanguage hphase => ?_⟩
      all_goals
        dsimp only at hphase
        rw [Function.update_apply] at hphase
        split_ifs at hphase
      · exact h.reading other g paths old' hphase
      · cases hphase
        exact ⟨h.reading caller generation changedPaths old hreading, rfl⟩
      · exact h.built other g paths old' byLanguage hphase
    · exact h
  | write caller =>
    rw [SearchIndexManager.next]
    split
    · next generation changedPaths old byLanguage hbuilt =>
      refine ⟨fun s hs => ?_, fun other g paths old' hphase => ?_,
        fun other g paths old' byLanguage' hphase => ?_⟩
      · cases hs
        rfl
      all_goals
        dsimp only at hphase
        rw [Function.update_apply] at hphase
        split_ifs at hphase
      · exact h.reading other g paths old' hphase
      · exact h.built other g paths old' byLanguage' hphase
    · exact h
  | invalidate =>
    refine ⟨fun s hs => ?_, h.reading, h.built⟩
    cases hs

/-- **A step leaves what is served** exactly when what it writes is covered. -/
theorem Inv.served_next_iff {event : Event} (h : manager.Inv snapshots)
    (hserved : Served snapshots manager.state) :
    Served snapshots (manager.next snapshots event).state ↔ Writes snapshots manager event := by
  cases event with
  | refresh caller generation => exact iff_of_true served_refreshed trivial
  | read caller generation changedPaths => exact iff_of_true hserved trivial
  | build caller =>
    have hstate : (manager.next snapshots (.build caller)).state = manager.state := by
      rw [SearchIndexManager.next]
      split <;> rfl
    rw [hstate]
    exact iff_of_true hserved trivial
  | write caller =>
    unfold Writes SearchIndexManager.next
    dsimp only
    cases hphase : manager.phase caller with
    | idle => exact iff_of_true hserved trivial
    | reading generation changedPaths old => exact iff_of_true hserved trivial
    | built generation changedPaths old byLanguage =>
      obtain ⟨hknown, hbyLanguage⟩ := h.built caller generation changedPaths old byLanguage hphase
      exact hknown.served_rebuilt_iff hbyLanguage
  | invalidate => exact iff_of_true served_none trivial

end SearchIndexManager

/-- **The index that is served is that of its generation** in every state of a run if and only if
every write is of indexes whose changed paths cover what was read. -/
theorem served_iff (snapshots : Nat → LexicalFiles) (events : List Event) :
    (∀ before later, events = before ++ later →
      Served snapshots (SearchIndexManager.afterEvents snapshots before).state) ↔
    ∀ before event later, events = before ++ event :: later →
      Writes snapshots (SearchIndexManager.afterEvents snapshots before) event := by
  apply forall_states_iff (P := fun manager => Served snapshots manager.state)
    (I := SearchIndexManager.Inv snapshots)
  · exact served_none
  · exact SearchIndexManager.inv_new
  · exact fun manager event h hserved _ => h.next hserved
  · exact fun manager event h hserved => h.served_next_iff hserved

/-! ## A lost language -/

/-- The generation that a caller refreshed last. -/
def lastGeneration (caller : Nat) (events : List Event) : Option Nat :=
  events.reverse.findSome? fun event => match event with
    | .refresh other generation => if other = caller then some generation else none
    | .read other generation _ => if other = caller then some generation else none
    | _ => none

/-- Each caller names every path that has changed since the generation that it refreshed last. -/
def Told (snapshots : Nat → LexicalFiles) (events : List Event) : Prop :=
  ∀ before caller generation changedPaths later,
    events = before ++ .read caller generation changedPaths :: later →
      ∀ path ∉ changedPaths, ((lastGeneration caller before).bind fun previous =>
        (snapshots previous).lookup path) = (snapshots generation).lookup path

def twoFiles : Nat → LexicalFiles
  | 1 => (AList.insert "risk.rs" ⟨.rust, "fn risk_limit() {}"⟩ ∅).insert "report.py"
      ⟨.python, "def report(): pass"⟩
  | 2 => (AList.insert "risk.rs" ⟨.rust, "fn position_limit() {}"⟩ ∅).insert "report.py"
      ⟨.python, "def report(): pass"⟩
  | _ => ∅

/-- The indexes are invalidated before the changed file is refreshed. -/
def invalidatedEvents : List Event :=
  [.refresh 0 1, .invalidate, .read 0 2 ["risk.rs"], .build 0, .write 0]

/-- After an invalidation a refresh of changed paths leaves the other languages out. -/
theorem served_invalidated :
    ¬ ∀ (snapshots : Nat → LexicalFiles) (events : List Event), Told snapshots events →
      ∀ before later, events = before ++ later →
        Served snapshots (SearchIndexManager.afterEvents snapshots before).state := by
  intro h
  have htold : Told twoFiles invalidatedEvents := by
    intro before caller generation changedPaths later heq path hpath
    obtain ⟨rfl, hread⟩ : before = [.refresh 0 1, .invalidate] ∧
        Event.read caller generation changedPaths = .read 0 2 ["risk.rs"] := by
      unfold invalidatedEvents at heq
      rcases before with _ | ⟨e₁, _ | ⟨e₂, _ | ⟨e₃, _ | ⟨e₄, _ | ⟨e₅, before⟩⟩⟩⟩⟩ <;> simp at heq
      obtain ⟨rfl, rfl, ⟨rfl, rfl, rfl⟩, rfl⟩ := heq
      exact ⟨rfl, rfl⟩
    cases hread
    rw [List.mem_singleton] at hpath
    have hlast : lastGeneration 0 [.refresh 0 1, .invalidate] = some 1 := rfl
    rw [hlast, Option.bind_some]
    by_cases hreport : path = "report.py"
    · rw [hreport]
      rfl
    · rw [twoFiles, twoFiles, AList.lookup_insert_ne hreport, AList.lookup_insert_ne hreport,
        AList.lookup_insert_ne hpath, AList.lookup_insert_ne hpath]
  have hserved := h twoFiles invalidatedEvents htold invalidatedEvents [] (by simp)
  have hlanguage := hserved.languages _ rfl .python
  revert hlanguage
  decide +kernel

end TldrCode.Daemon
