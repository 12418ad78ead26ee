import Mathlib.Data.List.AList

/-!
# File operations

A directory, the operations on its files, and runs of operations that are cut off: after some of
them, and within the next one if it writes. What no operation touches stays (`lookup_runAll`).
-/

namespace TldrCode

variable {ν β : Type*} [DecidableEq ν]

abbrev Directory (ν β : Type*) := AList fun _ : ν => β

inductive FileOp (ν β : Type*) where
  | write (name : ν) (content : β)
  | rename (source target : ν)
  | remove (name : ν)
  | sync

/-- Where a run is cut off: how many operations are done, and what the file of the next one holds if
that one has begun to write. -/
structure Cut (β : Type*) where
  done : Nat
  torn : Option β

namespace FileOp

def run (dir : Directory ν β) : FileOp ν β → Directory ν β
  | write name content => dir.insert name content
  | rename source target =>
    match dir.lookup source with
    | some content => (dir.erase source).insert target content
    | none => dir
  | remove name => dir.erase name
  | sync => dir

def touched : FileOp ν β → List ν
  | write name _ => [name]
  | rename source target => [source, target]
  | remove name => [name]
  | sync => []

/-- The names that an operation leaves a new file under. -/
def written : FileOp ν β → List ν
  | write name _ => [name]
  | rename _ target => [target]
  | remove _ => []
  | sync => []

/-- The write of an operation that is cut off. -/
def torn : FileOp ν β → β → List (FileOp ν β)
  | write name _, content => [write name content]
  | _, _ => []

def runAll (dir : Directory ν β) (ops : List (FileOp ν β)) : Directory ν β := ops.foldl run dir

def performed : Option (Cut β) → List (FileOp ν β) → List (FileOp ν β)
  | none, ops => ops
  | some cut, ops =>
    ops.take cut.done ++ (ops[cut.done]?.toList.flatMap fun op => cut.torn.toList.flatMap op.torn)

variable {dir : Directory ν β} {op op' : FileOp ν β} {ops as bs : List (FileOp ν β)} {name : ν}
  {cut : Option (Cut β)}

theorem lookup_run (h : name ∉ op.touched) : (run dir op).lookup name = dir.lookup name := by
  cases op with
  | write other content =>
    apply AList.lookup_insert_ne
    simpa [touched] using h
  | rename source target =>
    obtain ⟨hsource, htarget⟩ : name ≠ source ∧ name ≠ target := by simpa [touched] using h
    unfold run
    dsimp only
    split
    · rw [AList.lookup_insert_ne htarget, AList.lookup_erase_ne hsource]
    · rfl
  | remove other =>
    apply AList.lookup_erase_ne
    simpa [touched] using h
  | sync => rfl

/-- **What no operation touches** stays. -/
theorem lookup_runAll (h : ∀ op ∈ ops, name ∉ op.touched) :
    (runAll dir ops).lookup name = dir.lookup name := by
  induction ops generalizing dir with
  | nil => rfl
  | cons op ops ih =>
    exact (ih fun op hop => h op (List.mem_cons_of_mem _ hop)).trans
      (lookup_run (h op List.mem_cons_self))

theorem runAll_append : runAll dir (as ++ bs) = runAll (runAll dir as) bs := List.foldl_append

omit [DecidableEq ν] in
theorem exists_of_mem_performed (h : op ∈ performed cut ops) :
    ∃ op' ∈ ops, op.touched = op'.touched ∧ op.written = op'.written := by
  cases cut with
  | none => exact ⟨op, h, rfl, rfl⟩
  | some cut =>
    cases List.mem_append.1 h with
    | inl h => exact ⟨op, List.mem_of_mem_take h, rfl, rfl⟩
    | inr h =>
      simp only [List.mem_flatMap, Option.mem_toList] at h
      obtain ⟨next, hnext, content, -, htorn⟩ := h
      refine ⟨next, List.mem_of_getElem? hnext, ?_⟩
      cases next with
      | write name content =>
        cases List.mem_singleton.1 htorn
        exact ⟨rfl, rfl⟩
      | rename => cases htorn
      | remove => cases htorn
      | sync => cases htorn

omit [DecidableEq ν] in
theorem performed_append (cut : Option (Cut β)) (as bs : List (FileOp ν β)) :
    (∃ c, cut = some c ∧ c.done < as.length ∧ performed cut (as ++ bs) = performed cut as) ∨
      ∃ cut', (cut = none → cut' = none) ∧ performed cut (as ++ bs) = as ++ performed cut' bs := by
  cases cut with
  | none => exact .inr ⟨none, id, rfl⟩
  | some cut =>
    unfold performed
    dsimp only
    by_cases hdone : cut.done < as.length
    · left
      refine ⟨cut, rfl, hdone, ?_⟩
      rw [List.take_append_of_le_length (Nat.le_of_lt hdone), List.getElem?_append_left hdone]
    · refine .inr ⟨some ⟨cut.done - as.length, cut.torn⟩, nofun, ?_⟩
      have hle : as.length ≤ cut.done := not_lt.1 hdone
      dsimp only
      rw [List.take_append, List.take_of_length_le hle, List.getElem?_append_right hle,
        List.append_assoc]

end FileOp

end TldrCode
