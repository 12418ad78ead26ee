import TldrCode.Semantic.PlannedChunks

/-!
# Structural planning

`semantic/structural_planner.rs`: a file that does not fit as a whole is divided along its syntax
tree, where neighbours are merged while they fit and what has no children is cut into windows. No
part of the tree's range is lost or planned twice (`planChunks_spec`).
-/

namespace TldrCode.Semantic.Planning

open TldrCode.Dataflow

/-! ## Syntax trees -/

/-- A node of a syntax tree, with the field that its parent has it in. -/
inductive Node where
  | mk (id : Nat) (kind : String) (isNamed isError : Bool) (field : Option String)
    (start stop : Nat) (children : List Node)

namespace Node

def id : Node → Nat
  | mk id _ _ _ _ _ _ _ => id

def kind : Node → String
  | mk _ kind _ _ _ _ _ _ => kind

def isNamed : Node → Bool
  | mk _ _ isNamed _ _ _ _ _ => isNamed

/-- `is_error() || kind() == "ERROR"`. -/
def isError : Node → Bool
  | mk _ kind _ isError _ _ _ _ => isError || kind == "ERROR"

def field : Node → Option String
  | mk _ _ _ _ field _ _ _ => field

/-- `start_byte`. -/
def start : Node → Nat
  | mk _ _ _ _ _ start _ _ => start

/-- `end_byte`. -/
def stop : Node → Nat
  | mk _ _ _ _ _ _ stop _ => stop

def children : Node → List Node
  | mk _ _ _ _ _ _ _ children => children

def namedChildren (node : Node) : List Node := node.children.filter (·.isNamed)

def childByFieldName (node : Node) (name : String) : Option Node :=
  node.children.find? (·.field = some name)

mutual

def size : Node → Nat
  | mk _ _ _ _ _ _ _ children => sizes children + 1

def sizes : List Node → Nat
  | [] => 0
  | child :: children => size child + sizes children

end

mutual

/-- The children of every node are in its range, one after the other. -/
def Nested : Node → Prop
  | mk _ _ _ _ _ start stop children => start ≤ stop ∧ NestedFrom start stop children

def NestedFrom : Nat → Nat → List Node → Prop
  | position, stop, [] => position ≤ stop
  | position, stop, child :: children =>
    position ≤ child.start ∧ Nested child ∧ NestedFrom child.stop stop children

end

end Node

/-- What a file is parsed with: the parser, the names of definitions, the white space that is
trimmed, and the hash of a text. -/
structure Frontend where
  parse : CodeChunk → Except String Node
  definitionName : Node → List Char → Option (List Char)
  isWhitespace : Char → Bool
  md5 : List Char → List Char

inductive ChunkGranularity where
  | file
  | function
  deriving DecidableEq, Repr

def signatureRange (node : Node) : Option (Nat × Nat) := do
  let body ← node.childByFieldName "body"
  if node.start < body.start then some (node.start, body.start) else none

section Planner

variable (front : Frontend) (budget : TokenBudget) (file : CodeChunk)

/-- The text of a range without white space around it, if there is any. -/
def trimmedText (start stop : Nat) : Option (List Char) := do
  let text ← slice file.content start stop
  let text := (text.dropWhile front.isWhitespace).reverse
  let text := (text.dropWhile front.isWhitespace).reverse
  if text.isEmpty then none else some text

def nodeContext (node : Node) (parent : StructuralContext) : StructuralContext :=
  let name := (front.definitionName node file.content).or
    (if node.kind = "impl_item" then
      (node.childByFieldName "type").bind fun name => trimmedText front file name.start name.stop
    else none)
  let qualifiedSymbol := name.map fun name =>
    match parent.qualifiedSymbol with
    | some owner => owner ++ "::".toList ++ name
    | none => name
  let signature := (signatureRange node).bind fun range =>
    trimmedText front file range.1 range.2
  { qualifiedSymbol := qualifiedSymbol.or parent.qualifiedSymbol
    signature := signature.or parent.signature }

/-! ## Segments -/

structure Segment where
  start : Nat
  stop : Nat
  path : List UInt32
  node : Option Node
  context : StructuralContext

def isContextRootKind (kind : String) : Bool :=
  containsText "comment".toList kind.toList ||
    kind ∈ ["attribute_item", "inner_attribute_item", "use_declaration", "import_statement",
      "import_from_statement", "future_import_statement", "import_declaration", "import_header"]

def segmentIsSemanticOwner (segment : Segment) : Bool :=
  segment.node.any fun node => !isContextRootKind node.kind

def saturatingMul (a b : UInt32) : UInt32 := UInt32.ofNat (min (a.toNat * b.toNat) (2 ^ 32 - 1))

def saturatingAdd (a b : UInt32) : UInt32 := UInt32.ofNat (min (a.toNat + b.toNat) (2 ^ 32 - 1))

def namedChildOrdinal (node child : Node) : Option UInt32 :=
  (node.namedChildren.findIdx? (·.id = child.id)).bind fun ordinal =>
    if ordinal < 2 ^ 32 then some (UInt32.ofNat ordinal) else none

def gapSegment (start stop : Nat) (path : List UInt32) (context : StructuralContext) :
    List Segment :=
  if start < stop then [{ start, stop, path, node := none, context }] else []

/-- The segments from a byte on, with this many children before them. -/
def segmentsFrom (stop : Nat) (path : List UInt32) (context : StructuralContext) :
    Nat → Nat → List Node → List Segment
  | ordinal, position, [] =>
    gapSegment position stop (path ++ [saturatingMul (UInt32.ofNat ordinal) 2]) context
  | ordinal, position, child :: children =>
    let base := saturatingMul (UInt32.ofNat ordinal) 2
    gapSegment position child.start (path ++ [base]) context ++
      { start := child.start
        stop := child.stop
        path := path ++ [base + 1]
        node := some child
        context := nodeContext front file child context } ::
      segmentsFrom stop path context (ordinal + 1) child.stop children

def childSegments (node : Node) (path : List UInt32) (context : StructuralContext) :
    List Segment :=
  segmentsFrom front file node.stop path context 0 node.start node.namedChildren

/-! ## Splitting -/

/-- The segments that are merged with those before them while the candidate fits: the merged
segments, their chunk, and the segments that are left. -/
def mergeSegments (preserveNamedRoots : Bool) (segment : Segment) : List Segment → CodeChunk →
    List Segment → Except (Stop String) (List Segment × CodeChunk × List Segment)
  | members, merged, [] => .ok (members, merged, [])
  | members, merged, next :: rest =>
    if preserveNamedRoots && next.node.isSome && members.any segmentIsSemanticOwner then
      .ok (members, merged, next :: rest)
    else do
      let metadata := ((members ++ [next]).find? (·.context.qualifiedSymbol.isSome)).getD segment
      let candidate ← derived front.md5 file segment.start next.stop metadata.path .astChild
        metadata.context
      if ← fits candidate budget then
        mergeSegments preserveNamedRoots segment (members ++ [next]) candidate rest
      else return (members, merged, next :: rest)

variable (split : Node → List UInt32 → Except (Stop String) (List CodeChunk))

def planMerged (segment : Segment) (members : List Segment) (merged : CodeChunk) :
    Except (Stop String) (List CodeChunk) := do
  if ← fits merged budget then return [merged]
  else if members.length = 1 then
    match segment.node with
    | some child => split child segment.path
    | none =>
      fallback front.md5 file segment.start segment.stop segment.path .tokenizerFallback
        segment.context budget
  else return []

/-- What is planned of segments, in so many rounds. -/
def planSegments (preserveNamedRoots : Bool) :
    Nat → List Segment → Except (Stop String) (List CodeChunk)
  | _, [] => .ok []
  | 0, _ :: _ => .error .running
  | rounds + 1, segment :: rest =>
    match segment.node.filter (·.isError) with
    | some child => do
      let planned ← split child segment.path
      return planned ++ (← planSegments preserveNamedRoots rounds rest)
    | none => do
      let merged ← derived front.md5 file segment.start segment.stop segment.path .astChild
        segment.context
      let (members, merged, later) ←
        mergeSegments front budget file preserveNamedRoots segment [segment] merged rest
      let planned ← planMerged front budget file split segment members merged
      return planned ++ (← planSegments preserveNamedRoots rounds later)

/-- What is planned of the source behind the body of a node. -/
def planTail (node body : Node) (path : List UInt32) (context : StructuralContext) :
    Except (Stop String) (List CodeChunk) :=
  if body.stop < node.stop then
    fallback front.md5 file body.stop node.stop path .tokenizerFallback context budget
  else .ok []

/-- What is planned of a node whose signature is summarized. -/
def splitBody (node : Node) (path : List UInt32) (context : StructuralContext)
    (signature : Nat × Nat) : Except (Stop String) (List CodeChunk) := do
  let summary ← fallback front.md5 file signature.1 signature.2 path .parentSummary context budget
  let body ← orPanic (node.childByFieldName "body")
  let ordinal := saturatingMul ((namedChildOrdinal node body).getD 0) 2
  let planned ← split body (path ++ [saturatingAdd ordinal 1])
  let tail ← planTail front budget file node body (path ++ [saturatingAdd ordinal 2]) context
  return summary ++ planned ++ tail

/-- The signature of a node that is too large. -/
def summaryRange (node : Node) (candidate : CodeChunk) :
    Except (Stop String) (Option (Nat × Nat)) :=
  match signatureRange node with
  | some range =>
    if range.1 < range.2 then do
      if ← fits candidate budget then return none else return some range
    else .ok none
  | none => .ok none

/-- `condition && fits(chunk, budget)?`. -/
def fitsIf (condition : Bool) (chunk : CodeChunk) (budget : TokenBudget) :
    Except (Stop String) Bool :=
  if condition then fits chunk budget else .ok false

/-- `split_node`, in so many levels of the tree. -/
def splitNode : Nat → Node → List UInt32 → StructuralContext → Bool → Bool →
    Except (Stop String) (List CodeChunk)
  | 0, _, _, _, _, _ => .error .running
  | levels + 1, node, path, parentContext, allowWhole, preserveNamedRoots => do
    let context := nodeContext front file node parentContext
    let candidate ← derived front.md5 file node.start node.stop path .astChild context
    let whole ← fitsIf (allowWhole && decide (node.start < node.stop)) candidate budget
    if whole then return [candidate]
    else if node.isError then
      fallback front.md5 file node.start node.stop path .parseFallback context budget
    else if node.namedChildren.isEmpty then
      fallback front.md5 file node.start node.stop path .tokenizerFallback context budget
    else
      let split := fun child path => splitNode levels child path context true false
      match ← summaryRange budget node candidate with
      | some signature => splitBody front budget file split node path context signature
      | none =>
        let segments := childSegments front file node path context
        planSegments front budget file split preserveNamedRoots segments.length segments

def planFile (granularity : ChunkGranularity) : Except (Stop String) (List CodeChunk) := do
  let whole ← derived front.md5 file 0 (byteLen file.content) [] .wholeRoot .default
  let fit ← fitsIf (granularity = .file) whole budget
  if fit then return [whole]
  else match front.parse file with
    | .error _ => fallback front.md5 file 0 (byteLen file.content) [] .parseFallback .default budget
    | .ok root => splitNode front budget file root.size root [] .default (granularity = .file) true

end Planner

def planChunks (front : Frontend) (files : List CodeChunk) (budget : TokenBudget)
    (granularity : ChunkGranularity) : Except (Stop String) (List CodeChunk) :=
  (files.mapM fun file => planFile front budget file granularity).map List.flatten

/-! ## Nested nodes -/

variable {node : Node}

namespace Node

theorem Nested.le (h : node.Nested) : node.start ≤ node.stop := by
  cases node with
  | mk id kind isNamed isError field start stop children =>
    unfold Nested at h
    exact h.1

theorem Nested.children (h : node.Nested) : NestedFrom node.start node.stop node.children := by
  cases node with
  | mk id kind isNamed isError field start stop children =>
    unfold Nested at h
    exact h.2

theorem size_lt {node child : Node} (h : child ∈ node.children) : child.size < node.size := by
  have hsizes : ∀ children : List Node, child ∈ children → child.size ≤ sizes children := by
    intro children
    induction children with
    | nil => exact nofun
    | cons other children ih =>
      intro hmem
      rw [sizes]
      rcases List.mem_cons.1 hmem with rfl | hmem
      · exact Nat.le_add_right _ _
      · exact (ih hmem).trans (Nat.le_add_left _ _)
  cases node with
  | mk id kind isNamed isError field start stop children =>
    rw [size]
    exact Nat.lt_succ_of_le (hsizes children h)

variable {position earlier stop : Nat} {children : List Node}

section

variable (h : NestedFrom position stop children)
include h

theorem NestedFrom.of_le (hle : earlier ≤ position) : NestedFrom earlier stop children := by
  cases children with
  | nil =>
    unfold NestedFrom at h ⊢
    exact hle.trans h
  | cons child children =>
    unfold NestedFrom at h ⊢
    exact ⟨hle.trans h.1, h.2⟩

theorem NestedFrom.filter (p : Node → Bool) : NestedFrom position stop (children.filter p) := by
  induction children generalizing position with
  | nil => exact h
  | cons child children ih =>
    unfold NestedFrom at h
    obtain ⟨hstart, hchild, hrest⟩ := h
    cases hp : p child with
    | true =>
      rw [List.filter_cons_of_pos hp]
      unfold NestedFrom
      exact ⟨hstart, hchild, ih hrest⟩
    | false =>
      rw [List.filter_cons_of_neg (by simp [hp])]
      exact (ih hrest).of_le (hstart.trans hchild.le)

theorem NestedFrom.le : position ≤ stop := by
  induction children generalizing position with
  | nil => exact h
  | cons child children ih =>
    unfold NestedFrom at h
    exact h.1.trans (h.2.1.le.trans (ih h.2.2))

theorem NestedFrom.mem {child : Node} (hchild : child ∈ children) :
    position ≤ child.start ∧ child.Nested ∧ child.stop ≤ stop := by
  induction children generalizing position with
  | nil => cases hchild
  | cons other children ih =>
    unfold NestedFrom at h
    obtain ⟨hstart, hother, hrest⟩ := h
    rcases List.mem_cons.1 hchild with rfl | hchild
    · exact ⟨hstart, hother, hrest.le⟩
    · obtain ⟨hafter, hnested, hstop⟩ := ih hrest hchild
      exact ⟨hstart.trans (hother.le.trans hafter), hnested, hstop⟩

end

end Node

/-! ## Segments of a node -/

variable {front : Frontend} {budget : TokenBudget} {file : CodeChunk} {start stop levels : Nat}
  {split : Node → List UInt32 → Except (Stop String) (List CodeChunk)} {context : StructuralContext}
  {path : List UInt32} {allowWhole preserveNamedRoots : Bool} {segments : List Segment}
  {merged : CodeChunk} {segment : Segment} {middle : Nat}

/-- The segments lie one behind the other between two bytes; their nodes are nested and of so many
levels at most. -/
inductive Adjacent (levels : Nat) : Nat → Nat → List Segment → Prop
  | nil (n : Nat) : Adjacent levels n n []
  | cons {stop : Nat} (segment : Segment) {segments : List Segment}
    (hle : segment.start ≤ segment.stop)
    (hnode : ∀ child ∈ segment.node, child.start = segment.start ∧ child.stop = segment.stop ∧
      child.Nested ∧ child.size ≤ levels)
    (h : Adjacent levels segment.stop stop segments) :
    Adjacent levels segment.start stop (segment :: segments)

theorem adjacent_gapSegment {position : Nat} (hle : start ≤ position)
    (h : Adjacent levels position stop segments) :
    Adjacent levels start stop (gapSegment start position path context ++ segments) := by
  unfold gapSegment
  by_cases hlt : start < position
  · rw [if_pos hlt]
    exact Adjacent.cons ⟨start, position, path, none, context⟩ hle (fun _ => nofun) h
  · rw [if_neg hlt, Nat.le_antisymm hle (Nat.not_lt.1 hlt)]
    exact h

theorem adjacent_segmentsFrom {children : List Node} {ordinal position : Nat}
    (h : Node.NestedFrom position stop children) (hsize : ∀ child ∈ children, child.size ≤ levels) :
    Adjacent levels position stop
      (segmentsFrom front file stop path context ordinal position children) := by
  induction children generalizing ordinal position with
  | nil =>
    unfold segmentsFrom
    rw [← List.append_nil (gapSegment _ _ _ _)]
    exact adjacent_gapSegment h.le (.nil _)
  | cons child children ih =>
    unfold Node.NestedFrom at h
    rw [List.forall_mem_cons] at hsize
    unfold segmentsFrom
    refine adjacent_gapSegment h.1 ?_
    have hnode : ∀ other ∈ some child, other.start = child.start ∧ other.stop = child.stop ∧
        other.Nested ∧ other.size ≤ levels := by
      intro other hother
      obtain rfl := Option.some.inj hother
      exact ⟨rfl, rfl, h.2.1, hsize.1⟩
    exact Adjacent.cons ⟨child.start, child.stop,
      path ++ [saturatingMul (UInt32.ofNat ordinal) 2 + 1], some child,
      nodeContext front file child context⟩ h.2.1.le hnode (ih h.2.2 hsize.2)

/-- **The segments of a node** lie one behind the other in its range. -/
theorem adjacent_childSegments (h : node.Nested) (hsize : node.size ≤ levels + 1) :
    Adjacent levels node.start node.stop (childSegments front file node path context) := by
  refine adjacent_segmentsFrom (h.children.filter _) fun child hchild => ?_
  have hlt := Node.size_lt (List.mem_of_mem_filter hchild)
  omega

/-- The merged chunk has the range of the segments that are merged, and fits if they are many. -/
theorem yields_mergeSegments {preserveNamedRoots : Bool} (members : List Segment)
    {rest : List Segment} (hmerged : OfRange file segment.start middle merged)
    (hrest : Adjacent levels middle stop rest) :
    Yields (mergeSegments front budget file preserveNamedRoots segment members merged rest)
      fun result => ∃ middle', OfRange file segment.start middle' result.2.1 ∧
        Adjacent levels middle' stop result.2.2 ∧ result.2.2.length ≤ rest.length ∧
        ((result.1 = members ∧ result.2.1 = merged ∧ middle' = middle) ∨
          (members.length < result.1.length ∧ fits result.2.1 budget = .ok true)) := by
  induction rest generalizing members merged middle with
  | nil => exact .ok _ rfl ⟨middle, hmerged, hrest, Nat.le_refl _, .inl ⟨rfl, rfl, rfl⟩⟩
  | cons next rest ih =>
    have hstay : ∃ middle', OfRange file segment.start middle' merged ∧
        Adjacent levels middle' stop (next :: rest) ∧
        (next :: rest).length ≤ (next :: rest).length ∧
        ((members = members ∧ merged = merged ∧ middle' = middle) ∨
          (members.length < members.length ∧ fits merged budget = .ok true)) :=
      ⟨middle, hmerged, hrest, Nat.le_refl _, .inl ⟨rfl, rfl, rfl⟩⟩
    unfold mergeSegments
    split
    · exact .ok _ rfl hstay
    · refine Yields.bind yields_derived fun candidate hcandidate => ?_
      refine Yields.bind (yields_fits _ _) fun fit ⟨hfits, _⟩ => ?_
      cases fit with
      | false => exact .pure hstay
      | true =>
        cases hrest with
        | cons _ _ _ hrest =>
          refine (ih (members ++ [next]) hcandidate hrest).mono fun result hresult => ?_
          obtain ⟨middle', hrange, hadjacent, hlength, hcase⟩ := hresult
          refine ⟨middle', hrange, hadjacent, Nat.le_succ_of_le hlength, .inr ?_⟩
          rcases hcase with ⟨hmembers, hsame, _⟩ | ⟨hmore, hfit⟩
          · rw [hmembers, hsame]
            exact ⟨by simp, hfits⟩
          · rw [List.length_append] at hmore
            exact ⟨by omega, hfit⟩

theorem yields_planMerged (hends : EndsAdvance budget) {members : List Segment}
    (hmerged : OfRange file segment.start middle merged)
    (hmembers : members = [segment] ∧ middle = segment.stop ∨
      1 < members.length ∧ fits merged budget = .ok true) (hle : segment.start ≤ segment.stop)
    (hsplit : ∀ child ∈ segment.node,
      Yields (split child segment.path) (Tiles file budget segment.start segment.stop)) :
    Yields (planMerged front budget file split segment members merged)
      (Tiles file budget segment.start middle) := by
  unfold planMerged
  refine Yields.bind (yields_fits _ _) fun fit ⟨hfits, hfit⟩ => ?_
  cases fit with
  | true => exact .pure (hmerged.tiles (hfit rfl))
  | false =>
    rcases hmembers with ⟨rfl, rfl⟩ | ⟨_, htrue⟩
    · cases hnode : segment.node with
      | some child => exact hsplit child hnode
      | none => exact yields_fallback hends hle
    · exact absurd (hfits.symm.trans htrue) (by decide)

/-- **What is planned of segments** tiles their range. -/
theorem yields_planSegments (hends : EndsAdvance budget) {preserveNamedRoots : Bool}
    (hsplit : ∀ child path, child.Nested → child.size ≤ levels →
      Yields (split child path) (Tiles file budget child.start child.stop)) {rounds : Nat}
    (h : Adjacent levels start stop segments) (hrounds : segments.length ≤ rounds) :
    Yields (planSegments front budget file split preserveNamedRoots rounds segments)
      (Tiles file budget start stop) := by
  induction rounds generalizing start segments with
  | zero =>
    obtain rfl := List.length_eq_zero_iff.1 (Nat.le_zero.1 hrounds)
    cases h
    exact .ok [] rfl (.nil _)
  | succ rounds ih =>
    cases h with
    | nil => exact .ok [] rfl (.nil _)
    | @cons _ segment rest hle hnode hrest =>
      have hchild : ∀ child ∈ segment.node, Yields (split child segment.path)
          (Tiles file budget segment.start segment.stop) := by
        intro child hmem
        obtain ⟨hstart, hstop, hnested, hsize⟩ := hnode child hmem
        rw [← hstart, ← hstop]
        exact hsplit child segment.path hnested hsize
      have hlength : rest.length ≤ rounds := Nat.le_of_succ_le_succ hrounds
      unfold planSegments
      cases herror : segment.node.filter (·.isError) with
      | some child =>
        have hnode := (Option.filter_eq_some_iff.1 herror).1
        refine Yields.bind (hchild child hnode) fun planned htiles => ?_
        exact Yields.bind (ih hrest hlength) fun later hlater => .pure (htiles.append hlater)
      | none =>
        refine Yields.bind yields_derived fun merged hmerged => ?_
        refine Yields.bind (yields_mergeSegments [segment] hmerged hrest)
          fun ⟨members, merged', later⟩ ⟨middle, hrange, hadjacent, hle', hcase⟩ => ?_
        have hmembers : members = [segment] ∧ middle = segment.stop ∨
            1 < members.length ∧ fits merged' budget = .ok true := by
          rcases hcase with ⟨hmembers, _, hmiddle⟩ | hmore
          · exact .inl ⟨hmembers, hmiddle⟩
          · exact .inr hmore
        refine Yields.bind (yields_planMerged hends hrange hmembers hle hchild)
          fun planned htiles => ?_
        exact Yields.bind (ih hadjacent (hle'.trans hlength)) fun rest hlater =>
          .pure (htiles.append hlater)

theorem yields_splitBody (hends : EndsAdvance budget) (hnested : node.Nested)
    {signature : Nat × Nat} (hsignature : signatureRange node = some signature)
    (hsplit : ∀ child ∈ node.children, ∀ path,
      Yields (split child path) (Tiles file budget child.start child.stop)) :
    Yields (splitBody front budget file split node path context signature)
      (Tiles file budget node.start node.stop) := by
  obtain ⟨body, hbody, hrange⟩ := Option.bind_eq_some_iff.1 hsignature
  split_ifs at hrange with hlt
  obtain rfl := Option.some.inj hrange
  have hmem : body ∈ node.children := List.mem_of_find?_eq_some hbody
  have hstop := (hnested.children.mem hmem).2.2
  unfold splitBody
  refine Yields.bind (yields_fallback hends hlt.le) fun summary hsummary => ?_
  rw [hbody]
  change Yields (split body _ >>= fun planned => _) _
  refine Yields.bind (hsplit body hmem _) fun planned hplanned => ?_
  have htail (path : List UInt32) : Yields (planTail front budget file node body path context)
      (Tiles file budget body.stop node.stop) := by
    unfold planTail
    by_cases hafter : body.stop < node.stop
    · rw [if_pos hafter]
      exact yields_fallback hends hafter.le
    · rw [if_neg hafter, Nat.le_antisymm hstop (Nat.not_lt.1 hafter)]
      exact .ok [] rfl (.nil _)
  exact Yields.bind (htail _) fun tail htiles => .pure ((hsummary.append hplanned).append htiles)

theorem yields_summaryRange {candidate : CodeChunk} :
    Yields (summaryRange budget node candidate) fun summary => ∀ signature ∈ summary,
      signatureRange node = some signature := by
  unfold summaryRange
  cases hrange : signatureRange node with
  | none => exact .ok none rfl nofun
  | some range =>
    dsimp only
    split
    · refine Yields.bind (yields_fits _ _) fun fit _ => ?_
      cases fit with
      | true => exact .pure nofun
      | false => exact .pure fun signature hsignature => hsignature
    · exact .ok none rfl nofun

theorem yields_fitsIf (condition : Bool) {chunk : CodeChunk}
    (hchunk : OfRange file start stop chunk) :
    Yields (fitsIf condition chunk budget) fun fit =>
      fit = true → Tiles file budget start stop [chunk] := by
  cases condition with
  | true => exact (yields_fits _ _).mono fun fit ⟨_, hfit⟩ htrue => hchunk.tiles (hfit htrue)
  | false => exact .ok false rfl nofun

/-- **What is planned of a node** tiles its range. -/
theorem yields_splitNode (hends : EndsAdvance budget) {levels : Nat} (hnested : node.Nested)
    (hsize : node.size ≤ levels) {parentContext : StructuralContext} :
    Yields (splitNode front budget file levels node path parentContext allowWhole
      preserveNamedRoots) (Tiles file budget node.start node.stop) := by
  induction levels generalizing node path parentContext allowWhole preserveNamedRoots with
  | zero =>
    cases node
    rw [Node.size] at hsize
    omega
  | succ levels ih =>
    unfold splitNode
    refine Yields.bind yields_derived fun candidate hcandidate => ?_
    refine Yields.bind (yields_fitsIf _ hcandidate) fun whole htiles => ?_
    cases whole with
    | true => exact .pure (htiles rfl)
    | false =>
      by_cases herror : node.isError = true
      · simp only [herror, if_true]
        exact yields_fallback hends hnested.le
      by_cases hempty : node.namedChildren.isEmpty = true
      · simp only [herror, hempty, if_true]
        exact yields_fallback hends hnested.le
      simp only [herror, hempty, Bool.false_eq_true, if_false]
      refine Yields.bind yields_summaryRange fun summary hsummary => ?_
      cases summary with
      | some signature =>
        refine yields_splitBody hends hnested (hsummary signature rfl) fun child hchild path => ?_
        have hlt := Node.size_lt hchild
        exact ih (hnested.children.mem hchild).2.1 (by omega)
      | none =>
        exact yields_planSegments hends (fun child path hchild hlevels => ih hchild hlevels)
          (adjacent_childSegments hnested hsize) (Nat.le_refl _)

/-! ## What is planned of files -/

def wholeFits (front : Frontend) (budget : TokenBudget) (granularity : ChunkGranularity)
    (file : CodeChunk) : Bool :=
  match derived front.md5 file 0 (byteLen file.content) [] .wholeRoot .default >>=
      (fits · budget) with
  | .ok fit => granularity = .file && fit
  | .error _ => false

/-- The range of a file that is planned: the range of the tree, or the whole file where it is one
chunk or has no tree. -/
def plannedRange (front : Frontend) (budget : TokenBudget) (granularity : ChunkGranularity)
    (file : CodeChunk) : Nat × Nat :=
  if wholeFits front budget granularity file then (0, byteLen file.content)
  else match front.parse file with
    | .ok root => (root.start, root.stop)
    | .error _ => (0, byteLen file.content)

/-- What is planned of a file: every chunk has the text and the lines of its range and fits, and
without their overlaps the chunks are the text of the planned range. -/
structure FilePlan (front : Frontend) (budget : TokenBudget) (granularity : ChunkGranularity)
    (file : CodeChunk) (chunks : List CodeChunk) : Prop where
  planned : ∀ chunk ∈ chunks, Planned file budget chunk
  text : ∃ text, textOf chunks = some text ∧
    slice file.content (plannedRange front budget granularity file).1
      (plannedRange front budget granularity file).2 = some text

theorem exists_slice_of_splitNode {chunks : List CodeChunk}
    (h : splitNode front budget file levels node path context allowWhole preserveNamedRoots =
      .ok chunks) : ∃ part, slice file.content node.start node.stop = some part := by
  cases levels with
  | zero => cases h
  | succ levels =>
    unfold splitNode at h
    dsimp only at h
    cases hcandidate : derived front.md5 file node.start node.stop path .astChild
        (nodeContext front file node context) with
    | error e =>
      rw [hcandidate] at h
      cases h
    | ok candidate => exact ⟨_, (yields_derived.of_eq_ok hcandidate).content⟩

theorem yields_planFile (hends : EndsAdvance budget) (granularity : ChunkGranularity)
    (htree : ∀ root, front.parse file = .ok root → root.Nested) :
    Yields (planFile front budget file granularity) (FilePlan front budget granularity file) := by
  have hfile : slice file.content 0 (byteLen file.content) = some file.content :=
    slice_eq_some.2 ⟨[], [], by simp, rfl, rfl⟩
  unfold planFile
  refine Yields.bind_eq yields_derived fun whole hwhole hrange => ?_
  refine Yields.bind_eq (yields_fitsIf _ hrange) fun fit hfit htiles => ?_
  have hfits : wholeFits front budget granularity file = fit := by
    unfold wholeFits
    rw [hwhole]
    change (match fits whole budget with
      | .ok fit => decide (granularity = .file) && fit
      | .error _ => false) = fit
    unfold fitsIf at hfit
    cases granularity with
    | file =>
      simp only [decide_true, if_true] at hfit
      rw [hfit]
      rfl
    | function =>
      obtain rfl := Except.ok.inj hfit
      cases fits whole budget <;> rfl
  cases fit with
  | true =>
    have hplanned : plannedRange front budget granularity file = (0, byteLen file.content) := by
      rw [plannedRange, if_pos hfits]
    refine .pure ⟨(htiles rfl).planned, file.content, (htiles rfl).textOf_eq hfile, ?_⟩
    rw [hplanned]
    exact hfile
  | false =>
    cases hparse : front.parse file with
    | error message =>
      have hplanned : plannedRange front budget granularity file = (0, byteLen file.content) := by
        rw [plannedRange, if_neg (by simp [hfits]), hparse]
      refine (yields_fallback hends (Nat.zero_le _)).mono fun chunks htiles => ?_
      refine ⟨htiles.planned, file.content, htiles.textOf_eq hfile, ?_⟩
      rw [hplanned]
      exact hfile
    | ok root =>
      have hplanned : plannedRange front budget granularity file = (root.start, root.stop) := by
        rw [plannedRange, if_neg (by simp [hfits]), hparse]
      have hroot : Yields (splitNode front budget file root.size root [] .default
          (granularity = .file) true) (Tiles file budget root.start root.stop) :=
        yields_splitNode hends (htree root hparse) (Nat.le_refl _)
      cases hroot with
      | ok chunks hx htiles =>
        obtain ⟨part, hpart⟩ := exists_slice_of_splitNode hx
        refine .ok chunks hx ⟨htiles.planned, part, htiles.textOf_eq hpart, ?_⟩
        rw [hplanned]
        exact hpart
      | error message hx => exact .error message hx
      | panic hx => exact .panic hx

/-- **Structural planning loses no source**: the run ends, and the chunks of every file are, without
their overlaps, the text of what is planned of the file. -/
theorem planChunks_spec {files : List CodeChunk} (granularity : ChunkGranularity)
    (hends : EndsAdvance budget)
    (htrees : ∀ file ∈ files, ∀ root, front.parse file = .ok root → root.Nested) :
    planChunks front files budget granularity ≠ .error .running ∧
      ∀ planned, planChunks front files budget granularity = .ok planned →
        ∃ parts, planned = parts.flatten ∧
          List.Forall₂ (FilePlan front budget granularity) files parts := by
  have hparts : Yields (files.mapM fun file => planFile front budget file granularity)
      (List.Forall₂ (FilePlan front budget granularity) files) := by
    induction files with
    | nil => exact .ok [] rfl .nil
    | cons file files ih =>
      rw [List.forall_mem_cons] at htrees
      rw [List.mapM_cons]
      refine Yields.bind (yields_planFile hends granularity htrees.1) fun chunks hchunks => ?_
      exact Yields.bind (ih htrees.2) fun parts hparts => .pure (.cons hchunks hparts)
  unfold planChunks
  cases hparts with
  | ok parts hx hplans =>
    rw [hx]
    refine ⟨nofun, fun planned hplanned => ⟨parts, ?_, hplans⟩⟩
    exact (Except.ok.inj hplanned).symm
  | error message hx =>
    rw [hx]
    exact ⟨nofun, nofun⟩
  | panic hx =>
    rw [hx]
    exact ⟨nofun, nofun⟩

/-! ## Files that are not planned so -/

/-- A tokenizer for which a text is one token. -/
def wordTokenizer : TokenBudget :=
  .ofPieces (fun text => if text.isEmpty then [] else [text]) 512

theorem endsAdvance_wordTokenizer : EndsAdvance wordTokenizer := by
  intro text allowance windows hrun
  cases text with
  | nil =>
    obtain rfl := Except.ok.inj hrun
    exact .nil
  | cons c text =>
    unfold TokenBudget.byteWindows at hrun
    rw [if_neg (by simp)] at hrun
    by_cases hzero : allowance = 0
    · rw [if_pos hzero] at hrun
      cases hrun
    have hslice : slice (c :: text) 0 (byteLen (c :: text)) = some (c :: text) :=
      slice_eq_some.2 ⟨[], [], by simp, rfl, rfl⟩
    have hpos : 0 < byteLen (c :: text) := by
      have := c.utf8Size_pos
      rw [byteLen_cons]
      omega
    have hcount : TokenBudget.orStop (wordTokenizer.tokenCount (c :: text)) = .ok 1 := rfl
    have hrounds : wordTokenizer.windowsFrom (c :: text) allowance
        (min fallbackOverlapTokens (allowance - 1)) (boundaries (c :: text)).length 0 =
        .ok [(0, byteLen (c :: text))] := by
      rw [length_boundaries]
      unfold TokenBudget.windowsFrom
      rw [getElem?_boundaries (Nat.zero_le _), boundaryAt_zero]
      simp only [orPanic, hslice, hcount, bind, Except.bind, if_pos hpos,
        if_pos (Nat.one_le_iff_ne_zero.2 hzero)]
      rfl
    rw [if_neg hzero] at hrun
    obtain rfl := Except.ok.inj (hrounds.symm.trans hrun)
    exact List.pairwise_singleton _ _

def letterNode : Node := .mk 0 "source_file" true false none 1 2 []

def letterFrontend : Frontend := ⟨fun _ => .ok letterNode, fun _ _ => none, fun _ => false, id⟩

def letterFile : CodeChunk :=
  { filePath := ['f']
    functionName := none
    className := none
    lineStart := 1
    lineEnd := 2
    content := ['\n', 'x']
    contentHash := []
    language := ['c']
    structure_ := ⟨.wholeRoot, [], (0, 0), none, 0, ['f'], none, none⟩ }

def letterChunk : CodeChunk :=
  { letterFile with
    contentHash := ['\n', 'x']
    structure_ := ⟨.wholeRoot, [], (0, 2), none, 0, ['f'], none, none⟩ }

theorem nested_letterNode : letterNode.Nested := by
  unfold letterNode Node.Nested Node.NestedFrom
  decide

theorem planChunks_spec_letter :
    planChunks letterFrontend [letterFile] wordTokenizer .function ≠ .error .running ∧
      ∀ planned, planChunks letterFrontend [letterFile] wordTokenizer .function = .ok planned →
        ∃ parts, planned = parts.flatten ∧
          List.Forall₂ (FilePlan letterFrontend wordTokenizer .function) [letterFile] parts :=
  planChunks_spec .function endsAdvance_wordTokenizer fun _ _ _ hroot =>
    Except.ok.inj hroot ▸ nested_letterNode

/-- The word `abcd` is two pieces, without its start as many as its characters, and a document is
one. -/
def documentPieces (text : List Char) : List (List Char) :=
  if ':' ∈ text then [text]
  else match text with
    | 'a' :: 'b' :: 'c' :: 'd' :: rest => ['a'] :: ['b', 'c', 'd'] :: rest.map ([·])
    | text => text.map ([·])

theorem flatten_documentPieces (text : List Char) : (documentPieces text).flatten = text := by
  unfold documentPieces
  split
  · exact List.flatten_singleton
  · split
    · rw [List.flatten_cons, List.flatten_cons, TokenBudget.flatten_map_singleton]
      rfl
    · exact TokenBudget.flatten_map_singleton text

def wordNode : Node := .mk 0 "source_file" true false none 0 5 []

def wordFrontend : Frontend := ⟨fun _ => .ok wordNode, fun _ _ => none, fun _ => false, id⟩

theorem nested_wordNode : wordNode.Nested := by
  unfold wordNode Node.Nested Node.NestedFrom
  decide

/-- **What is planned need not be the text of the tree**: a file that fits is planned with what is
around the tree, and a window that ends before the window before it has an overlap that is longer
than itself. -/
theorem not_root_text :
    (¬∀ (front : Frontend) (budget : TokenBudget) (granularity : ChunkGranularity)
        (file : CodeChunk) (root : Node) (chunks : List CodeChunk),
      EndsAdvance budget → front.parse file = .ok root → root.Nested →
      planChunks front [file] budget granularity = .ok chunks →
      textOf chunks = slice file.content root.start root.stop) ∧
    ¬∀ (front : Frontend) (budget : TokenBudget) (file : CodeChunk) (root : Node)
        (chunks : List CodeChunk),
      budget.OffsetsOnBoundaries → front.parse file = .ok root → root.Nested →
      planChunks front [file] budget .function = .ok chunks →
      textOf chunks = slice file.content root.start root.stop := by
  constructor
  · intro h
    have hrun : planChunks letterFrontend [letterFile] wordTokenizer .file =
        .ok [letterChunk] := by decide +kernel
    have htext := h letterFrontend wordTokenizer .file letterFile letterNode [letterChunk]
      endsAdvance_wordTokenizer rfl nested_letterNode hrun
    exact absurd htext (by decide)
  · intro h
    have hrun : (planChunks wordFrontend [{ letterFile with content := ['a', 'b', 'c', 'd', 'e'] }]
        (.ofPieces documentPieces 2) .function).map textOf = .ok none := by decide +kernel
    cases hchunks : planChunks wordFrontend
        [{ letterFile with content := ['a', 'b', 'c', 'd', 'e'] }]
        (.ofPieces documentPieces 2) .function with
    | error e =>
      rw [hchunks] at hrun
      cases hrun
    | ok chunks =>
      rw [hchunks] at hrun
      have htext := h wordFrontend (.ofPieces documentPieces 2)
        { letterFile with content := ['a', 'b', 'c', 'd', 'e'] } wordNode chunks
        (TokenBudget.offsetsOnBoundaries_ofPieces flatten_documentPieces) rfl nested_wordNode
        hchunks
      rw [Except.ok.inj hrun] at htext
      exact absurd htext (by decide)

end TldrCode.Semantic.Planning
