import Mathlib.Data.List.Basic
import Mathlib.Data.List.Map2

/-!
# Escaped tables

Rows of cells that are separated by tabs and end with newlines. A cell is escaped so that neither is
in it, and the cells of a table are read again (`readRows_flatMap`).
-/

namespace TldrCode.Tsv

abbrev Text := List Char

def escapeChar (c : Char) : Text :=
  if c = '\\' then ['\\', '\\']
  else if c = '\t' then ['\\', 't']
  else if c = '\r' then ['\\', 'r']
  else if c = '\n' then ['\\', 'n']
  else [c]

def escape (text : Text) : Text := text.flatMap escapeChar

def unescape : Text → Text
  | '\\' :: 't' :: rest => '\t' :: unescape rest
  | '\\' :: 'r' :: rest => '\r' :: unescape rest
  | '\\' :: 'n' :: rest => '\n' :: unescape rest
  | '\\' :: c :: rest => c :: unescape rest
  | c :: rest => c :: unescape rest
  | [] => []

def renderRow (cells : List Text) : Text := ['\t'].intercalate cells ++ ['\n']

/-- The rows of a table; nothing follows the last newline. -/
def readRows (table : Text) : List (List Text) :=
  ((table.splitOn '\n').dropLast).map fun row => (row.splitOn '\t').map unescape

variable {text : Text} {c : Char} {cells : List Text} {rows : List (List Text)}

theorem unescape_escapeChar (c : Char) (rest : Text) :
    unescape (escapeChar c ++ rest) = c :: unescape rest := by
  unfold escapeChar
  split_ifs with hbackslash htab hreturn hnewline
  · subst hbackslash
    rfl
  · subst htab
    rfl
  · subst hreturn
    rfl
  · subst hnewline
    rfl
  · rw [List.singleton_append]
    conv_lhs => unfold unescape
    split
    all_goals simp_all

/-- **A cell is read again.** -/
theorem unescape_escape (text : Text) : unescape (escape text) = text := by
  induction text with
  | nil => rfl
  | cons c text ih =>
    unfold escape at ih ⊢
    rw [List.flatMap_cons, unescape_escapeChar, ih]

theorem notMem_escapeChar {sep : Char} (hsep : sep = '\t' ∨ sep = '\n') : sep ∉ escapeChar c := by
  unfold escapeChar
  rcases hsep with rfl | rfl <;> split_ifs <;> simp_all [eq_comm]

/-- **A cell holds no separator.** -/
theorem notMem_escape {sep : Char} (hsep : sep = '\t' ∨ sep = '\n') : sep ∉ escape text := by
  unfold escape
  rw [List.mem_flatMap]
  rintro ⟨c, -, hmem⟩
  exact notMem_escapeChar hsep hmem

theorem escape_of_forall (h : ∀ c ∈ text, c ≠ '\\' ∧ c ≠ '\t' ∧ c ≠ '\r' ∧ c ≠ '\n') :
    escape text = text := by
  induction text with
  | nil => rfl
  | cons c text ih =>
    obtain ⟨hbackslash, htab, hreturn, hnewline⟩ := h c List.mem_cons_self
    have ih : text.flatMap escapeChar = text := ih fun c hc => h c (List.mem_cons_of_mem _ hc)
    unfold escape
    rw [List.flatMap_cons, ih]
    unfold escapeChar
    rw [if_neg hbackslash, if_neg htab, if_neg hreturn, if_neg hnewline, List.singleton_append]

theorem notMem_intercalate (h : ∀ cell ∈ cells, '\n' ∉ cell) : '\n' ∉ ['\t'].intercalate cells := by
  induction cells with
  | nil => simp
  | cons cell cells ih =>
    have hcell : '\n' ∉ cell := h cell List.mem_cons_self
    have ih : '\n' ∉ ['\t'].intercalate cells :=
      ih fun cell hmem => h cell (List.mem_cons_of_mem _ hmem)
    cases cells with
    | nil => simpa using hcell
    | cons next cells =>
      rw [List.intercalate_cons_cons]
      simp [hcell, ih]

/-- **A table is read again**, row by row and cell by cell. -/
theorem readRows_flatMap (h : ∀ row ∈ rows, row ≠ []) :
    readRows (rows.flatMap fun row => renderRow (row.map escape)) = rows := by
  unfold readRows
  induction rows with
  | nil => rfl
  | cons row rows ih =>
    have ih := ih fun row hrow => h row (List.mem_cons_of_mem _ hrow)
    have hline : '\n' ∉ ['\t'].intercalate (row.map escape) := by
      apply notMem_intercalate
      intro cell hcell
      obtain ⟨text, -, rfl⟩ := List.mem_map.1 hcell
      exact notMem_escape (.inr rfl)
    unfold renderRow at ih ⊢
    rw [List.flatMap_cons, List.append_assoc, List.singleton_append,
      List.splitOn_append_cons_self_of_not_mem hline, List.dropLast_cons_of_ne_nil (by simp),
      List.map_cons, ih, List.splitOn_intercalate, List.map_map]
    · refine congrArg (· :: rows) ?_
      exact List.map_id'' unescape_escape row
    · intro cell hcell
      obtain ⟨text, -, rfl⟩ := List.mem_map.1 hcell
      exact notMem_escape (.inl rfl)
    · simpa using h row List.mem_cons_self

end TldrCode.Tsv
