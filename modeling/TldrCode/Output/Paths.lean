import Mathlib.Data.List.Infix
import TldrCode.Tsv

/-!
# Path prefixes

The path functions of `output.rs`. A path is the list of the texts of its components; one that is
absolute begins with `/`. Joined with the rest of a path, a prefix gives the path
(`push_stripPrefixDisplay`).
-/

namespace TldrCode.Output

open Tsv (Text)

/-- The components of a path without its `.` components. -/
def normalized (file : Text) : List Text :=
  (if file.head? = some '/' then [['/']] else []) ++
    (file.splitOn '/').filter fun component => component ≠ [] ∧ component ≠ ['.']

def push (buf component : Text) : Text :=
  if component.head? = some '/' then component
  else if buf = [] ∨ buf.getLast? = some '/' then buf ++ component
  else buf ++ '/' :: component

/-- `display`: the components are pushed, one after the other. -/
def display (path : List Text) : Text := path.foldl push []

/-- `Path::parent`, or the empty path. -/
def parent (path : List Text) : List Text := if path = [['/']] then [] else path.dropLast

def matchLen (path other : List Text) : Nat :=
  ((path.zip other).takeWhile fun pair => pair.1 = pair.2).length

def commonPathPrefix : List (List Text) → List Text
  | [] => []
  | [path] => parent path
  | first :: paths =>
    first.take (paths.foldl (fun prefixLen path =>
      min prefixLen (matchLen first path)) first.length)

def stripPrefixDisplay (path pre : List Text) : Text :=
  if pre = [] then display path
  else if pre <+: path ∧ path.drop pre.length ≠ [] then display (path.drop pre.length)
  else display path

/-! ## Components -/

def Name (component : Text) : Prop := component ≠ [] ∧ '/' ∉ component

/-- The components are names, but for a `/` at the front. -/
def Components (path : List Text) : Prop :=
  ∃ root names, (root = [] ∨ root = [['/']]) ∧ (∀ name ∈ names, Name name) ∧ path = root ++ names

variable {path pre first names : List Text} {name buf : Text} {paths : List (List Text)} {n : Nat}

theorem notMem_of_mem_splitOn {file component : Text} (h : component ∈ file.splitOn '/') :
    '/' ∉ component := by
  induction file generalizing component with
  | nil =>
    cases List.mem_singleton.1 h
    exact List.not_mem_nil
  | cons c file ih =>
    rw [List.splitOn_cons_eq_if_modifyHead] at h
    split_ifs at h with hc
    · cases List.mem_cons.1 h with
      | inl heq => exact heq ▸ List.not_mem_nil
      | inr h => exact ih h
    · cases hsplit : file.splitOn '/' with
      | nil => exact absurd hsplit (List.splitOn_ne_nil _ _)
      | cons first parts =>
        rw [hsplit] at h ih
        rw [List.modifyHead_cons] at h
        cases List.mem_cons.1 h with
        | inl heq =>
          rw [heq, List.mem_cons, not_or]
          refine ⟨fun heq => hc (by simp [← heq]), ih List.mem_cons_self⟩
        | inr h => exact ih (List.mem_cons_of_mem _ h)

theorem components_normalized (file : Text) : Components (normalized file) := by
  refine ⟨_, _, ?_, ?_, rfl⟩
  · split_ifs
    · exact .inr rfl
    · exact .inl rfl
  · intro name hname
    obtain ⟨hsplit, hkept⟩ := List.mem_filter.1 hname
    rw [decide_eq_true_eq] at hkept
    exact ⟨hkept.1, notMem_of_mem_splitOn hsplit⟩

theorem take_prefix_iff (hn : n ≤ first.length) : first.take n <+: path ↔
    n ≤ matchLen first path := by
  induction first generalizing path n with
  | nil =>
    cases Nat.le_zero.1 hn
    simp
  | cons a first ih =>
    cases n with
    | zero => simp
    | succ n =>
      cases path with
      | nil => simp [matchLen]
      | cons b path =>
        have ih : first.take n <+: path ↔ n ≤ matchLen first path := ih (Nat.le_of_succ_le_succ hn)
        unfold matchLen at ih ⊢
        rw [List.take_succ_cons, List.cons_prefix_cons, List.zip_cons_cons]
        by_cases hab : a = b
        · rw [List.takeWhile_cons_of_pos (by simpa using hab), ih]
          simp [hab]
        · rw [List.takeWhile_cons_of_neg (by simpa using hab)]
          simp [hab]

theorem le_foldl_min_iff {f : List Text → Nat} (init : Nat) :
    n ≤ paths.foldl (fun len path => min len (f path)) init ↔ n ≤ init ∧ ∀ path ∈ paths,
      n ≤ f path := by
  induction paths generalizing init with
  | nil => simp
  | cons path paths ih =>
    rw [List.foldl_cons, ih, Nat.le_min, List.forall_mem_cons, and_assoc]

/-- **The common prefix** of two or more paths is the longest one. -/
theorem prefix_commonPathPrefix_iff (hpaths : 2 ≤ paths.length) :
    pre <+: commonPathPrefix paths ↔ ∀ path ∈ paths, pre <+: path := by
  match paths, hpaths with
  | first :: second :: paths, _ =>
    change pre <+: first.take ((second :: paths).foldl
      (fun prefixLen path => min prefixLen (matchLen first path)) first.length) ↔ _
    rw [List.forall_mem_cons, List.prefix_take_iff, le_foldl_min_iff]
    refine and_congr_right fun hfirst => ?_
    have hle : pre.length ≤ first.length := hfirst.length_le
    rw [and_iff_right hle]
    refine forall_congr' fun path => forall_congr' fun _ => ?_
    rw [← take_prefix_iff hle, ← List.prefix_iff_eq_take.1 hfirst]

/-! ## Joins -/

theorem push_of_name (hname : name.head? ≠ some '/') :
    push buf name = buf ++ (if buf = [] ∨ buf.getLast? = some '/' then [] else ['/']) ++ name := by
  unfold push
  rw [if_neg hname]
  split_ifs <;> simp

theorem Name.head? (h : Name name) : name.head? ≠ some '/' := by
  intro heq
  exact h.2 (List.mem_of_mem_head? heq)

theorem Name.getLast? (h : Name name) : name.getLast? ≠ some '/' := by
  intro heq
  exact h.2 (List.mem_of_getLast? heq)

theorem display_concat : display (names ++ [name]) = push (display names) name := by
  unfold display
  rw [List.foldl_concat]

theorem display_names (hne : names ≠ []) (hnames : ∀ name ∈ names, Name name) :
    display names ≠ [] ∧ (display names).head? ≠ some '/' ∧
      (display names).getLast? ≠ some '/' := by
  induction names using List.reverseRecOn with
  | nil => exact absurd rfl hne
  | append_singleton names name ih =>
    have hname : Name name := hnames name (by simp)
    rw [display_concat, push_of_name hname.head?]
    by_cases hnil : names = []
    · subst hnil
      simpa [display] using ⟨hname.1, hname.head?, hname.getLast?⟩
    · obtain ⟨hnonempty, hhead, -⟩ := ih hnil fun name h => hnames name (by simp [h])
      refine ⟨by simp [hname.1], ?_, ?_⟩
      · rw [List.append_assoc, List.head?_append_of_ne_nil _ hnonempty]
        exact hhead
      · rw [List.getLast?_append_of_ne_nil _ hname.1]
        exact hname.getLast?

/-- **The display of names** is pushed as the names are. -/
theorem push_display (hne : names ≠ []) (hnames : ∀ name ∈ names, Name name) :
    push buf (display names) = names.foldl push buf := by
  induction names using List.reverseRecOn with
  | nil => exact absurd rfl hne
  | append_singleton names name ih =>
    have hname : Name name := hnames name (by simp)
    rw [display_concat, List.foldl_concat]
    by_cases hnil : names = []
    · subst hnil
      have hself : push (display []) name = name := by
        rw [push_of_name hname.head?]
        rfl
      rw [hself]
      rfl
    · have hinit : ∀ name ∈ names, Name name := fun name h => hnames name (by simp [h])
      obtain ⟨hnonempty, hhead, hlast⟩ := display_names hnil hinit
      rw [← ih hnil hinit, push_of_name hname.head?, if_neg (by simp [hnonempty, hlast]),
        push_of_name, push_of_name hname.head?, push_of_name hhead]
      · have hjoined : ¬ (buf ++ (if buf = [] ∨ buf.getLast? = some '/' then [] else ['/']) ++
            display names = [] ∨ (buf ++ (if buf = [] ∨
              buf.getLast? = some '/' then [] else ['/']) ++
            display names).getLast? = some '/') := by
          rw [not_or, List.getLast?_append_of_ne_nil _ hnonempty]
          exact ⟨by simp [hnonempty], hlast⟩
        rw [if_neg hjoined]
        simp [List.append_assoc]
      · rw [List.append_assoc, List.head?_append_of_ne_nil _ hnonempty]
        exact hhead

theorem head?_display_of_root : (display (['/'] :: names)).head? = some '/' := by
  induction names using List.reverseRecOn with
  | nil => rfl
  | append_singleton names name ih =>
    rw [← List.cons_append, display_concat]
    unfold push
    have hne : display (['/'] :: names) ≠ [] := fun hnil => by
      rw [hnil] at ih
      cases ih
    split_ifs with hname
    · exact hname
    · rwa [List.head?_append_of_ne_nil _ hne]
    · rwa [List.head?_append_of_ne_nil _ hne]

/-- **A prefix and the rest** of a path give the path, unless nothing is left of a relative one. -/
theorem push_stripPrefixDisplay_iff (hpath : Components path) (hpre : pre <+: path) :
    push (display pre) (stripPrefixDisplay path pre) = display path ↔
      pre = [] ∨ path ≠ pre ∨ path.head? = some ['/'] := by
  obtain ⟨root, names, hroot, hnames, rfl⟩ := hpath
  have hself : ∀ buf, (root ++ names).head? = some ['/'] →
      push buf (display (root ++ names)) = display (root ++ names) := by
    intro buf hhead
    obtain ⟨names', hcons⟩ := List.head?_eq_some_iff.1 hhead
    rw [hcons]
    unfold push
    rw [if_pos head?_display_of_root]
  unfold stripPrefixDisplay
  by_cases hnil : pre = []
  · subst hnil
    rw [if_pos rfl]
    refine iff_of_true ?_ (.inl rfl)
    unfold push
    split_ifs
    · rfl
    · rfl
    · rename_i hnot
      exact absurd (.inl rfl) hnot
  rw [if_neg hnil]
  by_cases heq : root ++ names = pre
  · subst heq
    rw [if_neg (by simp)]
    simp only [hnil, ne_eq, not_true_eq_false, false_or]
    refine ⟨fun hpush => ?_, hself _⟩
    rcases hroot with rfl | rfl
    · -- a relative path is pushed after itself
      rw [List.nil_append] at hnil hpush
      obtain ⟨hnonempty, hhead, hlast⟩ := display_names hnil hnames
      rw [push_of_name hhead] at hpush
      have hlength := congrArg List.length hpush
      have hpos := List.length_pos_iff.2 hnonempty
      simp only [List.length_append] at hlength
      omega
    · rfl
  · obtain ⟨rest, hrest⟩ := hpre
    have hrestne : rest ≠ [] := by
      rintro rfl
      rw [List.append_nil] at hrest
      exact heq hrest.symm
    have hdrop : (root ++ names).drop pre.length = rest := by rw [← hrest, List.drop_left]
    rw [hdrop, if_pos ⟨⟨rest, hrest⟩, hrestne⟩]
    refine iff_of_true ?_ (.inr (.inl heq))
    have hrestnames : ∀ name ∈ rest, Name name := by
      intro name hname
      obtain ⟨first, pre, rfl⟩ := List.exists_cons_of_ne_nil hnil
      apply hnames
      rcases hroot with rfl | rfl
      · rw [List.nil_append] at hrest
        exact hrest ▸ List.mem_append_right _ hname
      · rw [List.singleton_append, List.cons_append] at hrest
        rw [← (List.cons.inj hrest).2]
        exact List.mem_append_right _ hname
    rw [push_display hrestne hrestnames, ← hrest]
    unfold display
    rw [List.foldl_append]

end TldrCode.Output
