import Mathlib.Data.List.Destutter
import Mathlib.Data.List.Sort
import TldrCode.Dataflow.AbstractRhs

/-!
# Division by zero

`find_div_zero` searches every line for division operators, after the comment has been cut off and
the strings have been blanked. It finds an operator by bytes, but asks for the characters next to a
`/` by the index of a character. The two agree as long as everything before is ASCII. Otherwise the
neighbours are taken from elsewhere in the line, and the search can go on in the middle of a
character, where the slice fails: `findDivZero_safe_iff` says when all of this is in order.
-/

namespace TldrCode.Dataflow

/-! ## Strings -/

/-- `b as char`. -/
def byteChar (b : UInt8) : Char := Char.ofNat b.toNat

def asBytes (text : List Char) : List UInt8 := text.flatMap String.utf8EncodeChar

/-- What is left of a string after its opening quote, and the bytes after the string. -/
def blankString (delim : UInt8) : List UInt8 → List Char × List UInt8
  | [] => ([], [])
  | b :: bytes =>
    if b = 92 then
      match bytes with
      | [] => ([' '], [])
      | _ :: bytes =>
        let (out, rest) := blankString delim bytes
        (' ' :: ' ' :: out, rest)
    else if b = delim then ([byteChar delim], bytes)
    else
      let (out, rest) := blankString delim bytes
      (' ' :: out, rest)

/-- What is left of a raw string after its opening quote, and the bytes after the string. -/
def blankRawString (hashes : Nat) : List UInt8 → List Char × List UInt8
  | [] => ([], [])
  | b :: bytes =>
    if b = 34 ∧ bytes.take hashes = List.replicate hashes 35 then
      ('"' :: List.replicate hashes '#', bytes.drop hashes)
    else
      let (out, rest) := blankRawString hashes bytes
      (' ' :: out, rest)

/-- The loop of `strip_strings`. -/
def stripStringsLoop (language : String) : Nat → List UInt8 → List Char
  | 0, _ => []
  | _ + 1, [] => []
  | fuel + 1, c :: bytes =>
    let hashes := (bytes.takeWhile (· == 35)).length
    if language = "rust" ∧ c = 114 ∧ bytes[hashes]? = some 34 then
      let (out, rest) := blankRawString hashes (bytes.drop (hashes + 1))
      'r' :: List.replicate hashes '#' ++ '"' :: out ++ stripStringsLoop language fuel rest
    else if c = 34 ∨ c = 39 ∨ c = 96 then
      let (out, rest) := blankString c bytes
      byteChar c :: out ++ stripStringsLoop language fuel rest
    else byteChar c :: stripStringsLoop language fuel bytes

def stripStrings (line : List Char) (language : String) : List Char :=
  stripStringsLoop language (asBytes line).length (asBytes line)

/-! ## The search -/

def divPatterns (language : String) : List (List Char) :=
  if language = "python" then [['/'], ['/', '/'], ['%']] else [['/'], ['%']]

/-- What is made of an occurrence of an operator at the byte `pos`: whether it is taken as a
division, and where the search goes on. The neighbours of a `/` are looked up by character. -/
def atOccurrence (op code : List Char) (pos : Nat) : Bool × Nat :=
  if op = ['/'] ∧ pos + 1 < byteLen code then
    if code[pos + 1]? = some '/' then (false, pos + 2)
    else if 0 < pos ∧ code[pos - 1]? = some '/' then (false, pos + 1)
    else (true, pos + byteLen op)
  else (true, pos + byteLen op)

/-- The texts after the divisions, from the byte `start` on. -/
def scanDivisions (op code : List Char) : Nat → Nat → Option (List (List Char))
  | 0, _ => none
  | fuel + 1, start => do
    let (_, rest) ← splitAtByte code start
    match findText op rest with
    | none => some []
    | some pos =>
      let (isDivision, next) := atOccurrence op code (start + pos)
      if isDivision then
        let (_, afterOp) ← splitAtByte code (start + pos + byteLen op)
        let divisors ← scanDivisions op code fuel next
        some (afterOp :: divisors)
      else scanDivisions op code fuel next

namespace TextTables

variable (tables : TextTables)

def extractDivisor (text : List Char) : Option (List Char) :=
  let text := tables.trim text
  if text.isEmpty || text.head? = some '(' then none
  else
    let ident := text.takeWhile tables.isWordChar
    if ident.head?.all Char.isDigit then none else some ident

def computeStateAtLine (block : CfgBlock) (dfg : DfgInfo) (stateIn : AbstractState)
    (sourceLines : Option (List (List Char))) (targetLine : Nat) (language : String) :
    Option AbstractState :=
  let defs := (dfg.refs.filter fun r => r.refType = .definition ∧ block.lines.1 ≤ r.line ∧
    r.line ≤ block.lines.2 ∧ r.line < targetLine).insertionSort
      fun r r' => r.line < r'.line ∨ r.line = r'.line ∧ r.column ≤ r'.column
  defs.foldlM (fun state r => do
    let newValue ← match sourceLines.bind (·[r.line - 1]?) with
      | some line => tables.parseRhsAbstract line r.name state language
      | none => some .top
    some (state.set r.name newValue)) stateIn

/-- The warning about what is after a division. -/
def divWarning (cfg : CfgInfo) (dfg : DfgInfo) (stateIn : Nat → Option AbstractState)
    (sourceLines : Option (List (List Char))) (lineNum : Nat) (language : String)
    (afterOp : List Char) : Option (Option (Nat × String)) :=
  match tables.extractDivisor (tables.trim afterOp) with
  | none => some none
  | some divVar =>
    if tables.isIdentifier divVar then
      let line := lineNum % 2 ^ 32
      match cfg.blocks.find? fun b => b.lines.1 ≤ line ∧ line ≤ b.lines.2 with
      | none => some none
      | some block => do
        let state ← tables.computeStateAtLine block dfg ((stateIn block.id).getD ⟨∅⟩) sourceLines
          lineNum language
        if (state.get (String.ofList divVar)).mayBeZero then
          some (some (lineNum, String.ofList divVar))
        else some none
    else some none

def searchedCode (line : List Char) (language : String) : Option (List Char) :=
  (tables.stripComment line language).map (stripStrings · language)

/-- The warnings about the divisions with one operator. -/
def opWarnings (cfg : CfgInfo) (dfg : DfgInfo) (stateIn : Nat → Option AbstractState)
    (sourceLines : Option (List (List Char))) (lineNum : Nat) (language : String)
    (code op : List Char) : Option (List (Option (Nat × String))) := do
  let divisors ← scanDivisions op code (byteLen code + 1) 0
  divisors.mapM (tables.divWarning cfg dfg stateIn sourceLines lineNum language)

def lineWarnings (cfg : CfgInfo) (dfg : DfgInfo) (stateIn : Nat → Option AbstractState)
    (sourceLines : Option (List (List Char))) (language : String) (line : List Char × Nat) :
    Option (List (Nat × String)) := do
  let code ← tables.searchedCode line.1 language
  let warnings ← (divPatterns language).mapM
    (tables.opWarnings cfg dfg stateIn sourceLines (line.2 + 1) language code)
  some (warnings.flatten.filterMap id)

def findDivZero (cfg : CfgInfo) (dfg : DfgInfo) (stateIn : Nat → Option AbstractState)
    (sourceLines : Option (List (List Char))) (language : String) :
    Option (List (Nat × String)) :=
  match sourceLines with
  | none => some []
  | some lines => do
    let warnings ← lines.zipIdx.mapM
      (tables.lineWarnings cfg dfg stateIn sourceLines language)
    some ((warnings.flatten.insertionSort
      fun w w' => w.1 < w'.1 ∨ w.1 = w'.1 ∧ w.2 ≤ w'.2).destutter (· ≠ ·))

end TextTables

/-! ## What the search looks at -/

inductive SearchedFrom (op code : List Char) : Nat → Prop
  | start : SearchedFrom op code 0
  | next {start pos : Nat} {before rest : List Char} (h : SearchedFrom op code start)
      (hrest : splitAtByte code start = some (before, rest)) (hpos : findText op rest = some pos) :
      SearchedFrom op code (atOccurrence op code (start + pos)).2

/-- The search comes upon the operator at the byte `pos`. -/
def FoundAt (op code : List Char) (pos : Nat) : Prop :=
  ∃ start before rest offset, SearchedFrom op code start ∧
    splitAtByte code start = some (before, rest) ∧ findText op rest = some offset ∧
    pos = start + offset

/-- The bytes whose numbers are used as indices of characters at an occurrence. -/
def lookups (op code : List Char) (pos : Nat) : List Nat :=
  if op = ['/'] ∧ pos + 1 < byteLen code then
    if code[pos + 1]? ≠ some '/' ∧ 0 < pos then [pos + 1, pos - 1] else [pos + 1]
  else []

/-- The character at the byte `n` is the one with the index `n`. -/
def SameCharacter (code : List Char) (n : Nat) : Prop :=
  ∃ l r, code = l ++ r ∧ byteLen l = n ∧ l.length = n

/-- Before a `/` that something follows there are ASCII characters only. -/
def SlashesAfterAscii (code : List Char) : Prop :=
  ∀ l r, code = l ++ '/' :: r → r ≠ [] → Ascii l

section

variable {op code l r rest : List Char} {n pos start fuel : Nat} {language : String}

theorem findText_split (h : findText op rest = some n) (hcode : code = l ++ rest) :
    ∃ l' r', code = (l ++ l') ++ (op ++ r') ∧ byteLen l' = n ∧ rest = l' ++ (op ++ r') := by
  obtain ⟨l', r', rfl, hlen, -⟩ := findText_eq_some.1 h
  exact ⟨l', r', by rw [hcode, List.append_assoc], hlen, rfl⟩

/-- Behind ASCII characters the character with the index of a byte is the one at that byte. -/
theorem Ascii.getElem?_byteLen (h : Ascii l) (k : Nat) :
    (l ++ r)[byteLen l + k]? = r[k]? := by
  rw [byteLen_eq_length.2 h, List.getElem?_append_right (Nat.le_add_right _ _),
    Nat.add_sub_cancel_left]

theorem not_sameCharacter (h : ¬ Ascii l) : ¬ SameCharacter (l ++ r) (byteLen l) := by
  rintro ⟨l', r', hsplit, hbytes, hchars⟩
  obtain ⟨rfl, -⟩ := append_inj_of_byteLen hsplit hbytes.symm
  exact h (byteLen_eq_length.1 hchars.symm)

theorem Ascii.sameCharacter (h : Ascii l) : SameCharacter (l ++ r) (byteLen l) :=
  ⟨l, r, rfl, rfl, (byteLen_eq_length.2 h).symm⟩

theorem lt_byteLen_iff : byteLen l + 1 < byteLen (l ++ '/' :: r) ↔ r ≠ [] := by
  have hslash : '/'.utf8Size = 1 := rfl
  rw [byteLen_append, byteLen_cons, hslash]
  cases r with
  | nil => simp
  | cons c r =>
    have hc := c.utf8Size_pos
    rw [byteLen_cons]
    exact iff_of_true (by omega) (List.cons_ne_nil c r)

theorem atOccurrence_slash (hascii : r ≠ [] → Ascii l) :
    (atOccurrence ['/'] (l ++ '/' :: r) (byteLen l)).2 =
      byteLen l + if r.head? = some '/' then 2 else 1 := by
  unfold atOccurrence
  split
  · next h =>
    have hnext : (l ++ '/' :: r)[byteLen l + 1]? = r.head? := by
      rw [(hascii (lt_byteLen_iff.1 h.2)).getElem?_byteLen, List.getElem?_cons_succ,
        List.head?_eq_getElem?]
    rw [hnext]
    split
    · rfl
    · split
      · rfl
      · rfl
  · next h =>
    have hr : r = [] := by
      refine Decidable.byContradiction fun hr => h ⟨rfl, lt_byteLen_iff.2 hr⟩
    rw [hr]
    rfl

/-- **One step of the search** goes on after the operator, at the start of a character. -/
theorem atOccurrence_split (hsafe : SlashesAfterAscii code) (hcode : code = l ++ (op ++ r)) :
    ∃ l' r', r = l' ++ r' ∧ (atOccurrence op code (byteLen l)).2 = byteLen (l ++ (op ++ l')) := by
  by_cases hop : op = ['/']
  · subst hop
    rw [List.singleton_append] at hcode
    rw [hcode, atOccurrence_slash (hsafe l r hcode)]
    split
    · next hhead =>
      obtain ⟨r', rfl⟩ := List.head?_eq_some_iff.1 hhead
      exact ⟨['/'], r', rfl, by rw [byteLen_append]; rfl⟩
    · exact ⟨[], r, rfl, by rw [byteLen_append]; rfl⟩
  · refine ⟨[], r, rfl, ?_⟩
    rw [atOccurrence, if_neg fun h => hop h.1, List.append_nil, byteLen_append]

/-- Where the slashes come after ASCII characters the search ends, and no slice fails. -/
theorem scanDivisions_isSome (hsafe : SlashesAfterAscii code) (hop : op ≠ []) :
    ∀ fuel l rest, code = l ++ rest → byteLen rest < fuel →
      (scanDivisions op code fuel (byteLen l)).isSome := by
  intro fuel
  induction fuel with
  | zero => exact fun _ _ _ h => absurd h (Nat.not_lt_zero _)
  | succ fuel ih =>
    intro l rest hcode hfuel
    have hcut : splitAtByte code (byteLen l) = some (l, rest) :=
      splitAtByte_eq_some.2 ⟨hcode, rfl⟩
    rw [scanDivisions, hcut]
    dsimp only [Option.bind_eq_bind, Option.bind_some]
    cases hfind : findText op rest with
    | none => rfl
    | some pos =>
      obtain ⟨l', r', hcode', rfl, rfl⟩ := findText_split hfind hcode
      obtain ⟨l₁, r₁, rfl, hnext⟩ := atOccurrence_split hsafe hcode'
      have hpos : 0 < byteLen op :=
        Nat.lt_of_lt_of_le (List.length_pos_iff.2 hop) (length_le_byteLen op)
      have hrec : (scanDivisions op code fuel
          (atOccurrence op code (byteLen (l ++ l'))).2).isSome := by
        rw [hnext]
        refine ih _ r₁ (by rw [hcode']; simp only [List.append_assoc]) ?_
        simp only [byteLen_append] at hfuel
        omega
      have hafter : splitAtByte code (byteLen (l ++ l') + byteLen op) =
          some (l ++ l' ++ op, l₁ ++ r₁) := by
        refine splitAtByte_eq_some.2 ⟨?_, byteLen_append⟩
        rw [hcode', List.append_assoc (l ++ l')]
      rw [byteLen_append] at hrec hafter
      dsimp only
      split
      · rw [hafter]
        obtain ⟨divisors, hdivisors⟩ := Option.isSome_iff_exists.1 hrec
        dsimp only [Option.bind_eq_bind, Option.bind_some]
        rw [hdivisors]
        rfl
      · exact hrec

/-- Where the slashes come after ASCII characters the lookups are for the neighbours. -/
theorem SlashesAfterAscii.sameCharacter (hsafe : SlashesAfterAscii code) (h : FoundAt op code pos)
    (hn : n ∈ lookups op code pos) : SameCharacter code n := by
  obtain ⟨start, before, rest, offset, -, hrest, hfind, rfl⟩ := h
  obtain ⟨hcode, rfl⟩ := splitAtByte_eq_some.1 hrest
  obtain ⟨l', r', hcode', rfl, -⟩ := findText_split hfind hcode
  unfold lookups at hn
  split at hn
  · next hop =>
    obtain ⟨rfl, hlt⟩ := hop
    rw [List.singleton_append] at hcode'
    rw [← byteLen_append] at hn hlt
    have hascii : Ascii (before ++ l') := by
      rw [hcode', lt_byteLen_iff] at hlt
      exact hsafe _ r' hcode' hlt
    have hat : SameCharacter code (byteLen (before ++ l') + 1) := by
      have hslash : Ascii ((before ++ l') ++ ['/']) :=
        Ascii.append_iff.2 ⟨hascii, by simp; rfl⟩
      have hsame := hslash.sameCharacter (r := r')
      rw [byteLen_append, List.append_assoc, List.singleton_append, ← hcode'] at hsame
      exact hsame
    split at hn
    · next hprev =>
      rw [List.mem_cons, List.mem_singleton] at hn
      cases hn with
      | inl hn => exact hn ▸ hat
      | inr hn =>
        subst hn
        rcases List.eq_nil_or_concat' (before ++ l') with hnil | ⟨l₀, c, hl₀⟩
        · rw [hnil] at hprev
          exact absurd hprev.2 (Nat.lt_irrefl 0)
        · rw [hl₀] at hascii hcode' ⊢
          obtain ⟨h₀, hc⟩ := Ascii.append_iff.1 hascii
          have hone : byteLen [c] = 1 := byteLen_eq_length.2 hc
          have hsame := h₀.sameCharacter (r := [c] ++ '/' :: r')
          rw [← List.append_assoc, ← hcode'] at hsame
          rw [byteLen_append, hone, Nat.add_sub_cancel]
          exact hsame
    · exact List.mem_singleton.1 hn ▸ hat
  · cases hn

theorem foundAt_of_minimal (hcode : code = l ++ '/' :: r) (hl : ¬ Ascii l)
    (hmin : ∀ l' r', code = l' ++ '/' :: r' → r' ≠ [] → l'.length < l.length → Ascii l') :
    ∀ k l₀ rest, code = l₀ ++ rest → SearchedFrom ['/'] code (byteLen l₀) →
      l₀.length ≤ l.length → l.length - l₀.length = k → FoundAt ['/'] code (byteLen l) := by
  intro k
  induction k using Nat.strongRecOn with
  | ind k ih =>
    intro l₀ rest hrest hfrom hle hk
    obtain ⟨l₁, rfl⟩ : l₀ <+: l := by
      refine List.prefix_of_prefix_length_le ⟨rest, hrest.symm⟩ ⟨_, hcode.symm⟩ hle
    have hrest' : rest = l₁ ++ '/' :: r := by
      rw [hcode, List.append_assoc] at hrest
      exact (List.append_cancel_left hrest).symm
    have hcut : splitAtByte code (byteLen l₀) = some (l₀, rest) :=
      splitAtByte_eq_some.2 ⟨hrest, rfl⟩
    obtain ⟨pos, hfind⟩ : ∃ pos, findText ['/'] rest = some pos := by
      refine Option.ne_none_iff_exists'.1 fun hnone => findText_eq_none.1 hnone ?_
      exact ⟨l₁, r, by rw [hrest', List.append_assoc, List.singleton_append]⟩
    obtain ⟨l₂, r₂, hl₂, hpos, hfirst⟩ := findText_eq_some.1 hfind
    rw [List.singleton_append] at hl₂
    have hle₂ : l₂.length ≤ l₁.length :=
      hfirst l₁ r (by rw [hrest', List.singleton_append])
    cases Nat.lt_or_eq_of_le hle₂ with
    | inr heq =>
      obtain ⟨rfl, -⟩ := List.append_inj (hl₂.symm.trans hrest') heq
      exact ⟨_, _, _, _, hfrom, hcut, hfind, by rw [byteLen_append, hpos]⟩
    | inl hlt =>
      have hcode₂ : code = (l₀ ++ l₂) ++ '/' :: r₂ := by
        rw [hrest, hl₂, List.append_assoc]
      have hlen : l₂.length + (r₂.length + 1) = l₁.length + (r.length + 1) := by
        have h := congrArg List.length (hl₂.symm.trans hrest')
        rwa [List.length_append, List.length_append, List.length_cons, List.length_cons] at h
      have hr₂ : r₂ ≠ [] := by
        refine List.ne_nil_of_length_pos ?_
        omega
      have hascii : Ascii (l₀ ++ l₂) := by
        refine hmin _ r₂ hcode₂ hr₂ ?_
        rw [List.length_append, List.length_append]
        omega
      have hnext := hfrom.next hcut hfind
      rw [← hpos, ← byteLen_append] at hnext
      have hstep := atOccurrence_slash (r := r₂) fun _ => hascii
      rw [← hcode₂] at hstep
      rw [hstep] at hnext
      rw [List.length_append] at hk
      split at hnext
      · next hhead =>
        obtain ⟨r₃, rfl⟩ := List.head?_eq_some_iff.1 hhead
        have hlong : l₂.length + 1 ≠ l₁.length := by
          intro hone
          have hcut₁ : l₂ ++ ['/'] = l₁ := by
            have h : (l₂ ++ ['/']) ++ '/' :: r₃ = l₁ ++ '/' :: r := by
              rw [← hrest', hl₂, List.append_assoc, List.singleton_append]
            exact (List.append_inj h (by rw [List.length_append]; exact hone)).1
          apply hl
          rw [← hcut₁, ← List.append_assoc]
          exact Ascii.append_iff.2 ⟨hascii, by simp; rfl⟩
        refine ih _ ?_ (l₀ ++ l₂ ++ ['/', '/']) r₃ ?_ ?_ ?_ rfl
        · simp only [List.length_append, List.length_cons, List.length_nil]
          omega
        · rw [hcode₂, List.append_assoc _ ['/', '/']]
          rfl
        · rw [byteLen_append]
          exact hnext
        · simp only [List.length_append, List.length_cons, List.length_nil]
          omega
      · refine ih _ ?_ (l₀ ++ l₂ ++ ['/']) r₂ ?_ ?_ ?_ rfl
        · simp only [List.length_append, List.length_cons, List.length_nil]
          omega
        · rw [hcode₂, List.append_assoc _ ['/']]
          rfl
        · rw [byteLen_append]
          exact hnext
        · simp only [List.length_append, List.length_cons, List.length_nil]
          omega

/-- If not all slashes come after ASCII characters, a lookup at one is for another character. -/
theorem exists_not_sameCharacter (h : ¬ SlashesAfterAscii code) :
    ∃ pos, FoundAt ['/'] code pos ∧ ∃ n ∈ lookups ['/'] code pos, ¬ SameCharacter code n := by
  have hex : ∃ k, ∃ l r, code = l ++ '/' :: r ∧ r ≠ [] ∧ ¬ Ascii l ∧ l.length = k := by
    unfold SlashesAfterAscii at h
    push Not at h
    obtain ⟨l, r, hcode, hr, hl⟩ := h
    exact ⟨l.length, l, r, hcode, hr, hl, rfl⟩
  classical
  obtain ⟨l, r, hcode, hr, hl, hlen⟩ := Nat.find_spec hex
  have hmin : ∀ l' r', code = l' ++ '/' :: r' → r' ≠ [] → l'.length < l.length → Ascii l' := by
    intro l' r' hcode' hr' hlt
    rw [hlen] at hlt
    by_contra hl'
    exact Nat.find_min hex hlt ⟨l', r', hcode', hr', hl', rfl⟩
  refine ⟨byteLen l, ?_, byteLen l + 1, ?_, ?_⟩
  · exact foundAt_of_minimal hcode hl hmin l.length [] code rfl .start (Nat.zero_le _) rfl
  · unfold lookups
    rw [if_pos ⟨rfl, hcode ▸ lt_byteLen_iff.2 hr⟩]
    split <;> exact List.mem_cons_self
  · have hslash : ¬ Ascii (l ++ ['/']) := fun h => hl (Ascii.append_iff.1 h).1
    have hnot := not_sameCharacter (r := r) hslash
    rw [byteLen_append, List.append_assoc, List.singleton_append, ← hcode] at hnot
    exact hnot

end

/-! ## Results -/

section

variable {tables : TextTables} {cfg : CfgInfo} {dfg : DfgInfo}
  {stateIn : Nat → Option AbstractState} {sourceLines : Option (List (List Char))}
  {language : String} {code afterOp : List Char} {n : Nat}

theorem computeStateAtLine_isSome (block : CfgBlock) (state : AbstractState) :
    (tables.computeStateAtLine block dfg state sourceLines n language).isSome := by
  apply foldlM_isSome
  intro state r
  cases sourceLines.bind (·[r.line - 1]?) with
  | none => rfl
  | some line =>
    obtain ⟨value, hvalue⟩ := Option.isSome_iff_exists.1
      (TextTables.parseRhsAbstract_isSome tables line r.name state language)
    dsimp only
    rw [hvalue]
    rfl

theorem divWarning_isSome :
    (tables.divWarning cfg dfg stateIn sourceLines n language afterOp).isSome := by
  unfold TextTables.divWarning
  split
  · rfl
  · split
    · dsimp only
      split
      · rfl
      · next block _ =>
        have hstate : (tables.computeStateAtLine block dfg ((stateIn block.id).getD ⟨∅⟩) sourceLines
            n language).isSome := computeStateAtLine_isSome ..
        obtain ⟨state, hstate⟩ := Option.isSome_iff_exists.1 hstate
        rw [hstate]
        dsimp only [Option.bind_eq_bind, Option.bind_some]
        split <;> rfl
    · rfl

theorem opWarnings_isSome {op : List Char} (hsafe : SlashesAfterAscii code) (hop : op ≠ []) :
    (tables.opWarnings cfg dfg stateIn sourceLines n language code op).isSome := by
  obtain ⟨divisors, hdivisors⟩ := Option.isSome_iff_exists.1
    (scanDivisions_isSome hsafe hop (byteLen code + 1) [] code rfl (Nat.lt_succ_self _))
  rw [byteLen_nil] at hdivisors
  rw [TextTables.opWarnings, hdivisors]
  exact mapM_isSome fun _ _ => divWarning_isSome

/-- The warnings of a line are found if the slashes of the line come after ASCII characters. -/
theorem lineWarnings_isSome {line : List Char × Nat}
    (h : ∀ code, tables.searchedCode line.1 language = some code → SlashesAfterAscii code) :
    (tables.lineWarnings cfg dfg stateIn sourceLines language line).isSome := by
  obtain ⟨stripped, hstripped, -⟩ := TextTables.exists_stripComment tables line.1 language
  have hcode : tables.searchedCode line.1 language = some (stripStrings stripped language) := by
    rw [TextTables.searchedCode, hstripped]
    rfl
  have hops : ∀ op ∈ divPatterns language, op ≠ [] := by
    unfold divPatterns
    split <;> decide
  have hwarnings : ((divPatterns language).mapM (tables.opWarnings cfg dfg stateIn sourceLines
      (line.2 + 1) language (stripStrings stripped language))).isSome :=
    mapM_isSome fun op hop => opWarnings_isSome (h _ hcode) (hops op hop)
  obtain ⟨warnings, hwarnings⟩ := Option.isSome_iff_exists.1 hwarnings
  rw [TextTables.lineWarnings, hcode]
  dsimp only [Option.bind_eq_bind, Option.bind_some]
  rw [hwarnings]
  rfl

variable (tables cfg dfg stateIn sourceLines language) in
/-- `find_div_zero` returns, and what it looks up at a division are the characters next to it. -/
structure FindDivZeroSafe : Prop where
  returns : (tables.findDivZero cfg dfg stateIn sourceLines language).isSome
  lookups : ∀ lines, sourceLines = some lines → ∀ line ∈ lines, ∀ code,
    tables.searchedCode line language = some code → ∀ op ∈ divPatterns language,
      ∀ pos, FoundAt op code pos → ∀ n ∈ lookups op code pos, SameCharacter code n

end

/-- **The search for divisions by zero is safe** if and only if in every line, after comment and
strings have been taken out, only ASCII characters come before a `/` that something follows. -/
theorem findDivZero_safe_iff (tables : TextTables) (cfg : CfgInfo) (dfg : DfgInfo)
    (stateIn : Nat → Option AbstractState) (sourceLines : Option (List (List Char)))
    (language : String) :
    FindDivZeroSafe tables cfg dfg stateIn sourceLines language ↔
      ∀ lines, sourceLines = some lines → ∀ line ∈ lines, ∀ code,
        tables.searchedCode line language = some code → SlashesAfterAscii code := by
  constructor
  · intro h lines hlines line hline code hcode
    by_contra hnot
    obtain ⟨pos, hfound, n, hn, hother⟩ := exists_not_sameCharacter hnot
    have hslash : ['/'] ∈ divPatterns language := by
      unfold divPatterns
      split <;> exact List.mem_cons_self
    exact hother (h.lookups lines hlines line hline code hcode _ hslash pos hfound n hn)
  · intro h
    refine ⟨?_, fun lines hlines line hline code hcode op _ pos hfound n hn =>
      (h lines hlines line hline code hcode).sameCharacter hfound hn⟩
    unfold TextTables.findDivZero
    split
    · rfl
    · next lines =>
      have hlines : (lines.zipIdx.mapM
          (tables.lineWarnings cfg dfg stateIn (some lines) language)).isSome := by
        apply mapM_isSome
        intro line hline
        exact lineWarnings_isSome (h lines rfl line.1 (List.fst_mem_of_mem_zipIdx hline))
      obtain ⟨warnings, hwarnings⟩ := Option.isSome_iff_exists.1 hlines
      rw [hwarnings]
      rfl

/-- `é/é/x` is Python, but the search goes on in the middle of the second `é`. -/
theorem findDivZero_panics : ¬ FindDivZeroSafe .ascii ⟨"f", [⟨0, 1, 1⟩], [], 0, [0]⟩ ⟨[]⟩
    (fun _ => none) (some ["é/é/x".toList]) "python" := fun h =>
  absurd h.returns (by decide +kernel)

end TldrCode.Dataflow
