import Mathlib.Data.List.Cycle
import Mathlib.Data.List.Induction
import TldrCode.Graph.Postorder

/-!
# First paths

A depth-first search that looks for cycles has on its stack, when it comes to a node, the first path
to it: of the paths without repetitions the one that takes the earlier choice where two of them part
(`FirstPath.unique`). So the cycles it finds are those that an edge closes from the end of a first
path back into it (`mem_cycles_searchCycles`).
-/

namespace TldrCode.Graph

variable {α : Type*} [DecidableEq α]

/-! ## The search -/

/-- The nodes visited and what has been recorded of the cycles. -/
structure CycleState (α γ : Type*) where
  visited : List α
  cycles : γ

def cycleFrom (path : List α) (x : α) : List α := path.dropWhile (· ≠ x)

section

variable {γ : Type*} (adj : α → List α) (record : γ → List α → γ)

/-- The search from a node, with the nodes on the stack above it; `none` if the fuel runs out. -/
def findCycles : Nat → α → List α → CycleState α γ → Option (CycleState α γ)
  | 0, _, _, _ => none
  | fuel + 1, node, stack, state =>
    (adj node).foldlM (fun state neighbor =>
      if neighbor ∈ stack ++ [node] then
        some { state with cycles := record state.cycles (cycleFrom (stack ++ [node]) neighbor) }
      else if neighbor ∈ state.visited then some state
      else findCycles fuel neighbor (stack ++ [node]) state)
      { state with visited := node :: state.visited }

/-- What the search does with a neighbour of the last node of the stack. -/
def lookAtNeighbor (fuel : Nat) (stack : List α) (state : CycleState α γ) (neighbor : α) :
    Option (CycleState α γ) :=
  if neighbor ∈ stack then
    some { state with cycles := record state.cycles (cycleFrom stack neighbor) }
  else if neighbor ∈ state.visited then some state
  else findCycles adj record fuel neighbor stack state

theorem findCycles_succ (fuel : Nat) (node : α) (stack : List α) (state : CycleState α γ) :
    findCycles adj record (fuel + 1) node stack state =
      (adj node).foldlM (lookAtNeighbor adj record fuel (stack ++ [node]))
        { state with visited := node :: state.visited } := rfl

/-- The search from each of the keys that is not visited yet. -/
def searchCycles (fuel : Nat) (keys : List α) (cycles : γ) : Option (CycleState α γ) :=
  keys.foldlM (fun state key =>
    if key ∈ state.visited then some state else findCycles adj record fuel key [] state)
    ⟨[], cycles⟩

end

/-- The record of all cycles, in the order in which they are found. -/
def recordAll (cycles : List (List α)) (cycle : List α) : List (List α) := cycles ++ [cycle]

/-- The cycles of a search are recorded in another way. -/
def CycleState.replay {γ : Type*} (record : γ → List α → γ) (cycles : γ)
    (state : CycleState α (List (List α))) : CycleState α γ :=
  ⟨state.visited, state.cycles.foldl record cycles⟩

/-! ## First paths -/

variable (keys : List α) (adj : α → List α)

/-- What there is to choose from after a path. -/
def choices (path : List α) : List α :=
  match path.getLast? with
  | none => keys
  | some x => adj x

structure SimplePath (path : List α) : Prop where
  nodup : path.Nodup
  mem_choices : ∀ S a rest, path = S ++ a :: rest → a ∈ choices keys adj S

/-- `b` comes before `a` in a list. -/
def Earlier (l : List α) (b a : α) : Prop := l.idxOf b < l.idxOf a

/-- The first of the paths without repetitions to its end. -/
structure FirstPath (path : List α) : Prop where
  simple : SimplePath keys adj path
  first : ∀ other, SimplePath keys adj other → other.getLast? = path.getLast? →
    ∀ S a rest b rest', path = S ++ a :: rest → other = S ++ b :: rest' →
      ¬ Earlier (choices keys adj S) b a

/-- An edge from the end of the path goes back to a node of it. -/
def Closes (path : List α) (x : α) : Prop :=
  ∃ u, path.getLast? = some u ∧ x ∈ adj u ∧ x ∈ path

variable {keys : List α} {adj : α → List α} {path other S T rest : List α} {a b x y node : α}

omit [DecidableEq α] in
@[simp] theorem choices_concat : choices keys adj (S ++ [x]) = adj x := by
  unfold choices
  rw [List.getLast?_concat]

omit [DecidableEq α] in
theorem SimplePath.of_append (h : SimplePath keys adj (S ++ T)) : SimplePath keys adj S where
  nodup := (List.nodup_append.1 h.nodup).1
  mem_choices S' a rest heq := h.mem_choices S' a (rest ++ T) (by rw [heq]; simp)

omit [DecidableEq α] in
theorem prefix_or_part (l l' : List α) : l <+: l' ∨ l' <+: l ∨
    ∃ S a rest b rest', a ≠ b ∧ l = S ++ a :: rest ∧ l' = S ++ b :: rest' := by
  induction l generalizing l' with
  | nil => exact .inl List.nil_prefix
  | cons a l ih =>
    cases l' with
    | nil => exact .inr (.inl List.nil_prefix)
    | cons b l' =>
      by_cases hab : a = b
      · subst hab
        rcases ih l' with h | h | ⟨S, c, rest, d, rest', hne, rfl, rfl⟩
        · exact .inl ((List.prefix_cons_inj a).2 h)
        · exact .inr (.inl ((List.prefix_cons_inj a).2 h))
        · exact .inr (.inr ⟨a :: S, c, rest, d, rest', hne, rfl, rfl⟩)
      · exact .inr (.inr ⟨[], a, l, b, l', hab, rfl, rfl⟩)

omit [DecidableEq α] in
theorem eq_of_prefix_of_getLast? (h : path <+: other) (hnodup : other.Nodup)
    (hlast : path.getLast? = other.getLast?) : path = other := by
  obtain ⟨rest, rfl⟩ := h
  cases rest using List.reverseRecOn with
  | nil => rw [List.append_nil]
  | append_singleton rest x =>
    rw [← List.append_assoc, List.getLast?_concat] at hlast
    have hx : x ∈ path := List.mem_of_getLast? hlast
    exact absurd rfl ((List.nodup_append.1 hnodup).2.2 x hx x (by simp))

/-- **There is one first path** to a node. -/
theorem FirstPath.unique (h : FirstPath keys adj path) (h' : FirstPath keys adj other)
    (hlast : other.getLast? = path.getLast?) : other = path := by
  rcases prefix_or_part path other with hprefix | hprefix | ⟨S, a, rest, b, rest', hab, hl, hr⟩
  · exact (eq_of_prefix_of_getLast? hprefix h'.simple.nodup hlast.symm).symm
  · exact eq_of_prefix_of_getLast? hprefix h.simple.nodup hlast
  · have ha : a ∈ choices keys adj S := h.simple.mem_choices S a rest hl
    have hfirst := h.first other h'.simple hlast S a rest b rest' hl hr
    have hfirst' := h'.first path h.simple hlast.symm S b rest' a rest hr hl
    unfold Earlier at hfirst hfirst'
    have hidx : (choices keys adj S).idxOf a = (choices keys adj S).idxOf b := by omega
    exact absurd ((List.idxOf_inj ha).1 hidx) hab

theorem exists_cycleFrom (h : x ∈ path) :
    ∃ S tail, path = S ++ x :: tail ∧ cycleFrom path x = x :: tail := by
  induction path with
  | nil => cases h
  | cons y path ih =>
    by_cases hy : y = x
    · subst hy
      exact ⟨[], path, rfl, List.dropWhile_cons_of_neg (by simp)⟩
    · obtain ⟨S, tail, hpath, hcycle⟩ := ih ((List.mem_cons.1 h).resolve_left (Ne.symm hy))
      refine ⟨y :: S, tail, by rw [hpath]; rfl, ?_⟩
      rw [← hcycle]
      exact List.dropWhile_cons_of_pos (by simpa using hy)

omit [DecidableEq α] in
theorem SimplePath.isChain (h : SimplePath keys adj path) :
    path.IsChain fun a b => b ∈ adj a := by
  induction path using List.reverseRecOn with
  | nil => exact List.isChain_nil
  | append_singleton path y ih =>
    refine List.isChain_append.2 ⟨ih h.of_append, List.isChain_singleton y, ?_⟩
    intro a ha b hb
    obtain rfl := Option.some_inj.1 hb
    have hy := h.mem_choices path y [] rfl
    rwa [choices, Option.mem_def.1 ha] at hy

theorem SimplePath.cycle (h : SimplePath keys adj path) (hcloses : Closes adj path x) :
    (cycleFrom path x : Cycle α) ≠ Cycle.nil ∧ (cycleFrom path x : Cycle α).Nodup ∧
      (cycleFrom path x : Cycle α).Chain fun a b => b ∈ adj a := by
  obtain ⟨u, hlast, hx, hmem⟩ := hcloses
  obtain ⟨S, tail, rfl, hcycle⟩ := exists_cycleFrom hmem
  rw [hcycle, Ne, Cycle.coe_eq_nil, Cycle.nodup_coe_iff, Cycle.chain_coe_cons]
  refine ⟨List.cons_ne_nil x tail, (List.nodup_append.1 h.nodup).2.1, ?_⟩
  have hchain := (List.isChain_append.1 h.isChain).2.1
  rw [← List.cons_append]
  refine List.isChain_append.2 ⟨hchain, List.isChain_singleton x, fun a ha b hb => ?_⟩
  rw [List.getLast?_append_of_ne_nil _ (List.cons_ne_nil x tail), ← Option.mem_def] at hlast
  obtain rfl := Option.mem_unique ha hlast
  obtain rfl := Option.some_inj.1 hb
  exact hx

omit [DecidableEq α] in
theorem exists_of_chain {r : α → α → Prop} {c : Cycle α} (h : c.Chain r) (hx : x ∈ c) :
    ∃ y, r x y := by
  induction c using Cycle.induction_on with
  | nil => cases hx
  | cons a l _ =>
    rw [Cycle.chain_coe_cons] at h
    rw [Cycle.mem_coe_iff] at hx
    obtain ⟨L, M, heq⟩ := List.append_of_mem hx
    rw [← List.cons_append, heq, List.append_assoc, List.cons_append] at h
    have hchain := (List.isChain_append.1 h).2.1
    cases M with
    | nil => exact ⟨a, (List.isChain_cons_cons.1 hchain).1⟩
    | cons y M => exact ⟨y, (List.isChain_cons_cons.1 hchain).1⟩

/-! ## What the search keeps -/

/-- The stack holds first paths, and the choices that were earlier are visited. -/
def OnStack (keys : List α) (adj : α → List α) (S visited : List α) : Prop :=
  ∀ T a rest, S = T ++ a :: rest →
    FirstPath keys adj (T ++ [a]) ∧ ∀ b, Earlier (choices keys adj T) b a → b ∈ visited

/-- What is visited and not on the stack is done: its choices are visited and its cycles found. -/
structure Explored (keys : List α) (adj : α → List α) (S : List α)
    (state : CycleState α (List (List α))) : Prop where
  stack : ∀ x ∈ S, x ∈ state.visited
  closed : ∀ x ∈ state.visited, x ∉ S → ∀ y ∈ adj x, y ∈ state.visited
  sound : ∀ c ∈ state.cycles,
    ∃ path x, FirstPath keys adj path ∧ Closes adj path x ∧ cycleFrom path x = c
  complete : ∀ x ∈ state.visited, x ∉ S → ∃ path, FirstPath keys adj path ∧
    path.getLast? = some x ∧ ∀ y ∈ adj x, y ∈ path → cycleFrom path y ∈ state.cycles

variable {state state' : CycleState α (List (List α))} {visited visited' nodes : List α}
  {fuel : Nat} {done : List α}

theorem OnStack.mono (h : OnStack keys adj S visited) (hle : ∀ x ∈ visited, x ∈ visited') :
    OnStack keys adj S visited' := fun T a rest heq =>
  ⟨(h T a rest heq).1, fun b hb => hle b ((h T a rest heq).2 b hb)⟩

omit [DecidableEq α] in
theorem exists_leave {p : α → Prop} (l : List α) (ha : p a) (hlast : (a :: l).getLast? = some b)
    (hb : ¬ p b) : ∃ L x y M, a :: l = L ++ x :: y :: M ∧ p x ∧ ¬ p y := by
  induction l generalizing a with
  | nil =>
    rw [List.getLast?_singleton, Option.some_inj] at hlast
    exact absurd (hlast ▸ ha) hb
  | cons c l ih =>
    by_cases hc : p c
    · rw [List.getLast?_cons_cons] at hlast
      obtain ⟨L, x, y, M, heq, hx, hy⟩ := ih hc hlast
      exact ⟨a :: L, x, y, M, by rw [heq]; rfl, hx, hy⟩
    · exact ⟨[], a, c, l, rfl, ha, hc⟩

omit [DecidableEq α] in
theorem concat_eq_append_cons_iff : S ++ [a] = T ++ b :: rest ↔
    S = T ∧ a = b ∧ rest = [] ∨ ∃ rest', S = T ++ b :: rest' ∧ rest = rest' ++ [a] := by
  cases rest using List.reverseRecOn with
  | nil =>
    constructor
    · intro h
      obtain ⟨hS, ha⟩ := List.append_inj' h rfl
      exact .inl ⟨hS, List.singleton_inj.1 ha, rfl⟩
    · rintro (⟨rfl, rfl, -⟩ | ⟨rest', -, h⟩)
      · rfl
      · simp at h
  | append_singleton rest c =>
    constructor
    · intro h
      rw [← List.cons_append, ← List.append_assoc] at h
      obtain ⟨hS, hc⟩ := List.append_inj' h rfl
      exact .inr ⟨rest, hS, by rw [List.singleton_inj.1 hc]⟩
    · rintro (⟨-, -, h⟩ | ⟨rest', rfl, h⟩)
      · simp at h
      · obtain ⟨rfl, hc⟩ := List.append_inj' h rfl
        rw [List.singleton_inj.1 hc]
        simp

/-- **A choice that is not visited** continues the first path on the stack. -/
theorem FirstPath.of_onStack (hstack : OnStack keys adj S visited)
    (hvisited : ∀ x ∈ S, x ∈ visited)
    (hclosed : ∀ x ∈ visited, x ∉ S → ∀ y ∈ adj x, y ∈ visited)
    (ha : a ∈ choices keys adj S) (hnew : a ∉ visited)
    (hearlier : ∀ b, Earlier (choices keys adj S) b a → b ∈ visited) :
    FirstPath keys adj (S ++ [a]) := by
  have hsimple : SimplePath keys adj (S ++ [a]) := by
    constructor
    · rw [List.nodup_append]
      refine ⟨?_, List.nodup_singleton a, ?_⟩
      · cases S using List.reverseRecOn with
        | nil => exact List.nodup_nil
        | append_singleton S x => exact (hstack S x [] rfl).1.simple.nodup
      · rintro x hx y hy rfl
        exact hnew (List.mem_singleton.1 hy ▸ hvisited x hx)
    · intro T b rest heq
      rcases concat_eq_append_cons_iff.1 heq with ⟨rfl, rfl, -⟩ | ⟨rest', hS, -⟩
      · exact ha
      · exact (hstack T b rest' hS).1.simple.mem_choices T b [] rfl
  refine ⟨hsimple, fun other hother hlast T c rest b rest' hpath hrest hbc => ?_⟩
  rw [List.getLast?_concat] at hlast
  have hb : b ∈ visited := by
    rcases concat_eq_append_cons_iff.1 hpath with ⟨rfl, rfl, -⟩ | ⟨rest'', hS, -⟩
    · exact hearlier b hbc
    · exact (hstack T c rest'' hS).2 b hbc
  -- the other path leaves what is visited from a node of the stack, after it has parted from it
  have hlast' : (b :: rest').getLast? = some a := by
    rw [hrest, List.getLast?_append_of_ne_nil _ (List.cons_ne_nil b rest')] at hlast
    exact hlast
  obtain ⟨L, x, y, M, hsplit, hx, hy⟩ := exists_leave (p := (· ∈ visited)) rest' hb hlast' hnew
  have hbegin : other = (T ++ L ++ [x]) ++ y :: M := by
    rw [hrest, hsplit]
    simp
  have hstep : y ∈ adj x := by
    have := hother.mem_choices (T ++ L ++ [x]) y M hbegin
    rwa [choices_concat] at this
  have hxS : x ∈ S := by
    by_contra hxS
    exact hy (hclosed x hx hxS y hstep)
  have hsimple' : SimplePath keys adj (T ++ (L ++ [x])) := by
    rw [← List.append_assoc]
    rw [hbegin] at hother
    exact hother.of_append
  have hxT : x ∉ T := fun hxT =>
    (List.nodup_append.1 hsimple'.nodup).2.2 x hxT x (by simp) rfl
  rcases concat_eq_append_cons_iff.1 hpath with ⟨rfl, -, -⟩ | ⟨rest'', hS, -⟩
  · exact hxT hxS
  · have hxrest : x ∈ c :: rest'' := by
      rw [hS, List.mem_append] at hxS
      exact hxS.resolve_left hxT
    obtain ⟨L', M', hx'⟩ := List.append_of_mem hxrest
    have hfirst : FirstPath keys adj (T ++ (L' ++ [x])) := by
      have := (hstack (T ++ L') x M' (by rw [hS, hx']; simp)).1
      rwa [List.append_assoc] at this
    have hhead : ∃ rest, L' ++ [x] = c :: rest := by
      cases L' with
      | nil => exact ⟨[], by rw [List.nil_append, (List.cons.inj hx').1]⟩
      | cons d L' => exact ⟨L' ++ [x], by rw [(List.cons.inj hx').1]; rfl⟩
    have hhead' : ∃ rest, L ++ [x] = b :: rest := by
      cases L with
      | nil => exact ⟨[], by rw [List.nil_append, (List.cons.inj hsplit).1]⟩
      | cons d L => exact ⟨L ++ [x], by rw [(List.cons.inj hsplit).1]; rfl⟩
    obtain ⟨tail, htail⟩ := hhead
    obtain ⟨tail', htail'⟩ := hhead'
    refine hfirst.first (T ++ (L ++ [x])) hsimple' ?_ T c tail b tail' (by rw [htail])
      (by rw [htail']) hbc
    rw [← List.append_assoc, ← List.append_assoc, List.getLast?_concat, List.getLast?_concat]

/-! ## The search keeps it -/

/-- What is visited and what is recorded stays. -/
structure Grows (state state' : CycleState α (List (List α))) : Prop where
  visited : ∀ x ∈ state.visited, x ∈ state'.visited
  cycles : ∀ c ∈ state.cycles, c ∈ state'.cycles

omit [DecidableEq α] in
theorem Grows.refl (state : CycleState α (List (List α))) : Grows state state :=
  ⟨fun _ h => h, fun _ h => h⟩

omit [DecidableEq α] in
theorem Grows.trans {state'' : CycleState α (List (List α))} (h : Grows state state')
    (h' : Grows state' state'') : Grows state state'' :=
  ⟨fun x hx => h'.visited x (h.visited x hx), fun c hc => h'.cycles c (h.cycles c hc)⟩

theorem OnStack.concat (h : OnStack keys adj S visited) (hfirst : FirstPath keys adj (S ++ [a]))
    (hearlier : ∀ b, Earlier (choices keys adj S) b a → b ∈ visited) :
    OnStack keys adj (S ++ [a]) visited := by
  intro T b rest heq
  rcases concat_eq_append_cons_iff.1 heq with ⟨rfl, rfl, -⟩ | ⟨rest', hS, -⟩
  · exact ⟨hfirst, hearlier⟩
  · exact h T b rest' hS

theorem Explored.enter (h : Explored keys adj S state) :
    Explored keys adj (S ++ [a]) { state with visited := a :: state.visited } := by
  have hold : ∀ x ∈ a :: state.visited, x ∉ S ++ [a] → x ∈ state.visited ∧ x ∉ S := by
    intro x hx hxS
    rw [List.mem_append, not_or] at hxS
    exact ⟨(List.mem_cons.1 hx).resolve_left fun heq => hxS.2 (List.mem_singleton.2 heq), hxS.1⟩
  refine ⟨fun x hx => ?_, fun x hx hxS y hy => ?_, h.sound, fun x hx hxS => ?_⟩
  · rcases List.mem_append.1 hx with hx | hx
    · exact List.mem_cons_of_mem a (h.stack x hx)
    · exact List.mem_singleton.1 hx ▸ List.mem_cons_self
  · obtain ⟨hx, hxS⟩ := hold x hx hxS
    exact List.mem_cons_of_mem a (h.closed x hx hxS y hy)
  · obtain ⟨hx, hxS⟩ := hold x hx hxS
    exact h.complete x hx hxS

/-- A choice after the stack has been looked at. -/
def LookedAt (S : List α) (state : CycleState α (List (List α))) (y : α) : Prop :=
  y ∈ state.visited ∧ (y ∈ S → cycleFrom S y ∈ state.cycles)

theorem LookedAt.grows (h : LookedAt S state y) (hgrows : Grows state state') :
    LookedAt S state' y :=
  ⟨hgrows.visited y h.1, fun hy => hgrows.cycles _ (h.2 hy)⟩

theorem Explored.leave (h : Explored keys adj (S ++ [a]) state)
    (hfirst : FirstPath keys adj (S ++ [a])) (hlooked : ∀ y ∈ adj a, LookedAt (S ++ [a]) state y) :
    Explored keys adj S state := by
  have hother : ∀ x, x ∉ S → x ≠ a → x ∉ S ++ [a] := fun x hxS hne hx =>
    (List.mem_append.1 hx).elim hxS fun hx => hne (List.mem_singleton.1 hx)
  refine ⟨fun x hx => h.stack x (List.mem_append_left _ hx), fun x hx hxS y hy => ?_, h.sound,
    fun x hx hxS => ?_⟩
  · by_cases hxa : x = a
    · exact (hlooked y (hxa ▸ hy)).1
    · exact h.closed x hx (hother x hxS hxa) y hy
  · by_cases hxa : x = a
    · subst hxa
      exact ⟨S ++ [x], hfirst, List.getLast?_concat, fun y hy hmem => (hlooked y hy).2 hmem⟩
    · exact h.complete x hx (hother x hxS hxa)

theorem Explored.record (h : Explored keys adj (S ++ [a]) state)
    (hfirst : FirstPath keys adj (S ++ [a])) (hy : y ∈ adj a) (hmem : y ∈ S ++ [a]) :
    Explored keys adj (S ++ [a])
      { state with cycles := recordAll state.cycles (cycleFrom (S ++ [a]) y) } := by
  refine ⟨h.stack, h.closed, fun c hc => ?_, fun x hx hxS => ?_⟩
  · rcases List.mem_append.1 hc with hc | hc
    · exact h.sound c hc
    · have hcloses : Closes adj (S ++ [a]) y := ⟨a, List.getLast?_concat, hy, hmem⟩
      exact ⟨S ++ [a], y, hfirst, hcloses, (List.mem_singleton.1 hc).symm⟩
  · obtain ⟨path, hpath, hlast, hcycles⟩ := h.complete x hx hxS
    exact ⟨path, hpath, hlast, fun y hy hmem => List.mem_append_left _ (hcycles y hy hmem)⟩

theorem mem_of_earlier (h : Earlier (S ++ a :: rest) b a) : b ∈ S := by
  by_contra hb
  have hle : (S ++ a :: rest).idxOf a ≤ S.length := by
    by_cases ha : a ∈ S
    · rw [List.idxOf_append_of_mem ha]
      exact List.idxOf_le_length
    · rw [List.idxOf_append_of_notMem ha, List.idxOf_cons_self]
      exact le_refl _
  rw [Earlier, List.idxOf_append_of_notMem hb] at h
  omega

omit [DecidableEq α] in
theorem SimplePath.mem_visited (h : SimplePath keys adj path) (hkeys : ∀ x ∈ keys, x ∈ visited)
    (hclosed : ∀ x ∈ visited, ∀ y ∈ adj x, y ∈ visited) : ∀ x ∈ path, x ∈ visited := by
  induction path using List.reverseRecOn with
  | nil => exact fun x hx => absurd hx List.not_mem_nil
  | append_singleton path y ih =>
    have ih := ih h.of_append
    have hy : y ∈ choices keys adj path := h.mem_choices path y [] rfl
    intro x hx
    rcases List.mem_append.1 hx with hx | hx
    · exact ih x hx
    · obtain rfl := List.mem_singleton.1 hx
      cases path using List.reverseRecOn with
      | nil => exact hkeys x hy
      | append_singleton path z =>
        rw [choices_concat] at hy
        exact hclosed z (ih z (List.mem_append_right _ (List.mem_singleton_self z))) x hy

/-- The search from a node that is not visited does its work. -/
def Explores (keys : List α) (adj : α → List α) (nodes : List α) (fuel : Nat) : Prop :=
  ∀ (a : α) (S : List α) (state : CycleState α (List (List α))), a ∈ nodes → a ∉ state.visited →
    unvisited nodes state.visited < fuel → Explored keys adj S state →
    OnStack keys adj S state.visited → a ∈ choices keys adj S →
    (∀ b, Earlier (choices keys adj S) b a → b ∈ state.visited) →
    ∃ state', findCycles adj recordAll fuel a S state = some state' ∧
      Explored keys adj S state' ∧ Grows state state' ∧ a ∈ state'.visited

/-- **The choices of a node**, one after the other. -/
theorem Explores.foldlM (ih : Explores keys adj nodes fuel)
    (hclosed : ∀ x ∈ nodes, ∀ y ∈ adj x, y ∈ nodes) (ha : a ∈ nodes) (hadj : adj a = done ++ rest)
    (hfirst : FirstPath keys adj (S ++ [a])) (hfuel : unvisited nodes state.visited < fuel)
    (h : Explored keys adj (S ++ [a]) state) (hstack : OnStack keys adj (S ++ [a]) state.visited)
    (hdone : ∀ y ∈ done, LookedAt (S ++ [a]) state y) :
    ∃ state', rest.foldlM (lookAtNeighbor adj recordAll fuel (S ++ [a])) state = some state' ∧
      Explored keys adj (S ++ [a]) state' ∧ Grows state state' ∧
      ∀ y ∈ adj a, LookedAt (S ++ [a]) state' y := by
  induction rest generalizing done state with
  | nil =>
    rw [List.append_nil] at hadj
    exact ⟨state, rfl, h, .refl state, fun y hy => hdone y (hadj ▸ hy)⟩
  | cons y rest ih' =>
    have hy : y ∈ adj a := hadj ▸ List.mem_append_right _ List.mem_cons_self
    -- what one step has to bring about for the rest to follow
    have hnext : ∀ {state₁}, Explored keys adj (S ++ [a]) state₁ → Grows state state₁ →
        LookedAt (S ++ [a]) state₁ y → ∃ state',
          rest.foldlM (lookAtNeighbor adj recordAll fuel (S ++ [a])) state₁ = some state' ∧
          Explored keys adj (S ++ [a]) state' ∧ Grows state₁ state' ∧
          ∀ y ∈ adj a, LookedAt (S ++ [a]) state' y := by
      intro state₁ h₁ hgrows hlooked
      have hadj' : adj a = (done ++ [y]) ++ rest := by
        rw [hadj, List.append_assoc]
        rfl
      refine ih' hadj' (lt_of_le_of_lt (unvisited_le hgrows.visited) hfuel) h₁
        (hstack.mono hgrows.visited) fun z hz => ?_
      rcases List.mem_append.1 hz with hz | hz
      · exact (hdone z hz).grows hgrows
      · exact List.mem_singleton.1 hz ▸ hlooked
    rw [List.foldlM_cons, lookAtNeighbor]
    by_cases hmem : y ∈ S ++ [a]
    · rw [if_pos hmem]
      have hgrows : Grows state
          { state with cycles := recordAll state.cycles (cycleFrom (S ++ [a]) y) } :=
        ⟨fun _ hx => hx, fun c hc => List.mem_append_left _ hc⟩
      obtain ⟨state', hrun, h', hgrows', hlooked⟩ := hnext (h.record hfirst hy hmem) hgrows
        ⟨h.stack y hmem, fun _ => List.mem_append_right _ (List.mem_singleton_self _)⟩
      exact ⟨state', hrun, h', hgrows.trans hgrows', hlooked⟩
    · rw [if_neg hmem]
      by_cases hv : y ∈ state.visited
      · rw [if_pos hv]
        exact hnext h (.refl state) ⟨hv, fun hy => absurd hy hmem⟩
      · rw [if_neg hv]
        have hearlier : ∀ b, Earlier (choices keys adj (S ++ [a])) b y → b ∈ state.visited := by
          intro b hb
          rw [choices_concat, hadj] at hb
          exact (hdone b (mem_of_earlier hb)).1
        have hchoice : y ∈ choices keys adj (S ++ [a]) := by
          rwa [choices_concat]
        obtain ⟨state₁, hfind, h₁, hgrows₁, hvisited⟩ := ih y (S ++ [a]) state (hclosed a ha y hy)
          hv hfuel h hstack hchoice hearlier
        obtain ⟨state', hrun, h', hgrows', hlooked⟩ :=
          hnext h₁ hgrows₁ ⟨hvisited, fun hy => absurd hy hmem⟩
        rw [hfind]
        exact ⟨state', hrun, h', hgrows₁.trans hgrows', hlooked⟩

section

variable (hclosed : ∀ x ∈ nodes, ∀ y ∈ adj x, y ∈ nodes)
include hclosed

/-- **The search from a node**, by induction on the fuel. -/
theorem explores (fuel : Nat) : Explores keys adj nodes fuel := by
  induction fuel with
  | zero => exact fun _ _ _ _ _ hfuel => absurd hfuel (Nat.not_lt_zero _)
  | succ fuel ih =>
    intro a S state ha hnew hfuel h hstack hchoice hearlier
    have hfirst : FirstPath keys adj (S ++ [a]) :=
      .of_onStack hstack h.stack h.closed hchoice hnew hearlier
    have hmono : ∀ x ∈ state.visited, x ∈ a :: state.visited := fun x hx =>
      List.mem_cons_of_mem a hx
    have hstack' : OnStack keys adj (S ++ [a]) (a :: state.visited) :=
      (hstack.concat hfirst hearlier).mono hmono
    have hfuel' : unvisited nodes (a :: state.visited) < fuel :=
      lt_of_lt_of_le (unvisited_cons_lt ha hnew) (Nat.lt_succ_iff.1 hfuel)
    have hnone : ∀ y ∈ ([] : List α), LookedAt (S ++ [a])
        { state with visited := a :: state.visited } y := fun y hy => absurd hy List.not_mem_nil
    obtain ⟨state', hrun, h', hgrows, hlooked⟩ := ih.foldlM hclosed ha rfl hfirst hfuel' h.enter
      hstack' hnone
    exact ⟨state', hrun, h'.leave hfirst hlooked,
      ⟨fun x hx => hgrows.visited x (hmono x hx), hgrows.cycles⟩,
      hgrows.visited a List.mem_cons_self⟩

/-- **The search from all keys.** -/
theorem Explored.searchCycles (hnodes : ∀ x ∈ keys, x ∈ nodes) (hfuel : nodes.length < fuel)
    (hkeys : keys = done ++ rest) (h : Explored keys adj [] state)
    (hdone : ∀ x ∈ done, x ∈ state.visited) :
    ∃ state', rest.foldlM (fun state key => if key ∈ state.visited then some state
        else findCycles adj recordAll fuel key [] state) state = some state' ∧
      Explored keys adj [] state' ∧ ∀ x ∈ keys, x ∈ state'.visited := by
  induction rest generalizing done state with
  | nil =>
    rw [List.append_nil] at hkeys
    exact ⟨state, rfl, h, fun x hx => hdone x (hkeys ▸ hx)⟩
  | cons a rest ih =>
    have hkeys' : keys = (done ++ [a]) ++ rest := by
      rw [hkeys, List.append_assoc]
      rfl
    rw [List.foldlM_cons]
    by_cases hv : a ∈ state.visited
    · rw [if_pos hv]
      refine ih hkeys' h fun x hx => ?_
      rcases List.mem_append.1 hx with hx | hx
      · exact hdone x hx
      · exact List.mem_singleton.1 hx ▸ hv
    · rw [if_neg hv]
      have ha : a ∈ keys := hkeys ▸ List.mem_append_right _ List.mem_cons_self
      have hearlier : ∀ b, Earlier keys b a → b ∈ state.visited := by
        intro b hb
        rw [hkeys] at hb
        exact hdone b (mem_of_earlier hb)
      have hlt : unvisited nodes state.visited < fuel :=
        lt_of_le_of_lt (List.length_filter_le _ _) hfuel
      obtain ⟨state₁, hfind, h₁, hgrows, hvisited⟩ := explores hclosed fuel a [] state
        (hnodes a ha) hv hlt h (fun T b rest heq => by simp at heq) ha hearlier
      rw [hfind]
      refine ih hkeys' h₁ fun x hx => ?_
      rcases List.mem_append.1 hx with hx | hx
      · exact hgrows.visited x (hdone x hx)
      · exact List.mem_singleton.1 hx ▸ hvisited

/-- **The cycles that the search finds** are closed by an edge from the end of a first path. -/
theorem mem_cycles_searchCycles (hnodes : ∀ x ∈ keys, x ∈ nodes) (hfuel : nodes.length < fuel) :
    ∃ state, searchCycles adj recordAll fuel keys [] = some state ∧ ∀ c, c ∈ state.cycles ↔
      ∃ path x, FirstPath keys adj path ∧ Closes adj path x ∧ cycleFrom path x = c := by
  have hstart : Explored keys adj [] ⟨[], []⟩ :=
    ⟨fun x hx => hx, fun x hx => absurd hx List.not_mem_nil,
      fun c hc => absurd hc List.not_mem_nil, fun x hx => absurd hx List.not_mem_nil⟩
  obtain ⟨state, hrun, h, hkeys⟩ := Explored.searchCycles hclosed hnodes hfuel
    (List.nil_append keys).symm hstart fun x hx => absurd hx List.not_mem_nil
  refine ⟨state, hrun, fun c => ⟨h.sound c, ?_⟩⟩
  rintro ⟨path, x, hpath, ⟨u, hlast, hx, hmem⟩, rfl⟩
  have hu : u ∈ state.visited := hpath.simple.mem_visited hkeys
    (fun y hy => h.closed y hy List.not_mem_nil) u (List.mem_of_getLast? hlast)
  obtain ⟨path', hpath', hlast', hcycles⟩ := h.complete u hu List.not_mem_nil
  have hne : path ≠ [] := List.ne_nil_of_mem hmem
  obtain rfl := hpath.unique hpath' (hlast'.trans hlast.symm)
  exact hcycles x hx hmem

end

variable {γ : Type*} {record : γ → List α → γ} {cycles : γ}

omit [DecidableEq α] in
theorem foldlM_view {σ τ β : Type*} {f : σ → β → Option σ} {g : τ → β → Option τ} (view : σ → τ)
    (h : ∀ s b, g (view s) b = (f s b).map view) (l : List β) (s : σ) :
    l.foldlM g (view s) = (l.foldlM f s).map view := by
  induction l generalizing s with
  | nil => rfl
  | cons b l ih =>
    rw [List.foldlM_cons, List.foldlM_cons, h]
    cases f s b with
    | none => rfl
    | some s' => exact ih s'

theorem findCycles_replay (fuel : Nat) (node : α) (stack : List α) :
    findCycles adj record fuel node stack (state.replay record cycles) =
      (findCycles adj recordAll fuel node stack state).map (.replay record cycles) := by
  induction fuel generalizing node stack state with
  | zero => rfl
  | succ fuel ih =>
    rw [findCycles_succ, findCycles_succ]
    refine foldlM_view (CycleState.replay record cycles) (fun state neighbor => ?_) (adj node)
      { state with visited := node :: state.visited }
    have hvisited : (state.replay record cycles).visited = state.visited := rfl
    unfold lookAtNeighbor
    rw [hvisited]
    split_ifs with hmem hv
    · have hcycles : (recordAll state.cycles (cycleFrom (stack ++ [node]) neighbor)).foldl record
          cycles = record (state.replay record cycles).cycles
            (cycleFrom (stack ++ [node]) neighbor) := List.foldl_concat ..
      rw [← hcycles]
      rfl
    · rfl
    · exact ih neighbor (stack ++ [node])

/-- **The record is made of the cycles** in the order in which they are found. -/
theorem searchCycles_replay (fuel : Nat) : searchCycles adj record fuel keys cycles =
    (searchCycles adj recordAll fuel keys []).map (.replay record cycles) := by
  refine foldlM_view (CycleState.replay record cycles) (fun state key => ?_) keys
    (⟨[], []⟩ : CycleState α (List (List α)))
  have hvisited : (state.replay record cycles).visited = state.visited := rfl
  rw [hvisited]
  split_ifs
  · rfl
  · exact findCycles_replay fuel key []

end TldrCode.Graph
