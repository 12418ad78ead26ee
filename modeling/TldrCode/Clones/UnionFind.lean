import Mathlib.Algebra.GroupWithZero.Nat
import Mathlib.Algebra.Order.BigOperators.Group.List
import Mathlib.Algebra.Order.Group.Nat
import Mathlib.Data.Finset.Range
import Mathlib.Data.List.GetD
import TldrCode.Graph.Forest
import TldrCode.Grouping

/-!
# Union-find

`analysis/clones/types.rs`: `UnionFind`. The ranks increase along the parents, so that `find` comes
to an end, and what is connected is what has been united (`connected_spec`).
-/

namespace TldrCode.Clones

open Graph Relation Function

structure UnionFind where
  parent : List Nat
  rank : List Nat
  deriving DecidableEq, Repr

namespace UnionFind

def new (size : Nat) : UnionFind := ⟨List.range size, List.replicate size 0⟩

/-- `find` in so many calls; `none` is an index out of bounds, or more calls. -/
def findIn : Nat → UnionFind → Nat → Option (UnionFind × Nat)
  | 0, _, _ => none
  | fuel + 1, uf, x => do
    let p ← uf.parent[x]?
    let uf ← if p ≠ x then (findIn fuel uf p).map fun (uf, root) =>
        { uf with parent := uf.parent.set x root }
      else some uf
    let root ← uf.parent[x]?
    return (uf, root)

/-- The root of an element, with the paths to it compressed. -/
def find (uf : UnionFind) (x : Nat) : Option (UnionFind × Nat) := findIn uf.parent.length uf x

def union (uf : UnionFind) (x y : Nat) : Option UnionFind := do
  let (uf, px) ← uf.find x
  let (uf, py) ← uf.find y
  if px = py then
    return uf
  else
    let rankX ← uf.rank[px]?
    let rankY ← uf.rank[py]?
    if rankX < rankY then
      return { uf with parent := uf.parent.set px py }
    else if rankX > rankY then
      return { uf with parent := uf.parent.set py px }
    else
      return { uf with parent := uf.parent.set py px, rank := uf.rank.set px (rankX + 1) }

def connected (uf : UnionFind) (x y : Nat) : Option (UnionFind × Bool) := do
  let (uf, px) ← uf.find x
  let (uf, py) ← uf.find y
  return (uf, px == py)

def roots (uf : UnionFind) : Option (UnionFind × List Nat) :=
  (List.range uf.parent.length).foldlM (fun (uf, roots) i => do
    let (uf, root) ← uf.find i
    return (uf, roots ++ [root])) (uf, [])

def components (uf : UnionFind) : Option (UnionFind × Groups Nat Nat) := do
  let (uf, roots) ← uf.roots
  return (uf, group (fun i => roots.getD i 0) (List.range roots.length))

/-! ## The forest -/

variable {uf uf' uf'' : UnionFind} {n x y r s : Nat}

/-- The parent of an element, and what is no element is its own parent. -/
def parentOf (uf : UnionFind) (x : Nat) : Nat := uf.parent[x]?.getD x

def rankOf (uf : UnionFind) (x : Nat) : Nat := uf.rank[x]?.getD 0

/-- The parents are elements, and have higher ranks. -/
structure Valid (uf : UnionFind) (n : Nat) : Prop where
  parent_length : uf.parent.length = n
  rank_length : uf.rank.length = n
  parent_lt : ∀ x < n, uf.parentOf x < n
  rank_lt : ∀ x, uf.parentOf x ≠ x → uf.rankOf x < uf.rankOf (uf.parentOf x)

namespace Valid

theorem getElem?_parent (h : uf.Valid n) (hx : x < n) : uf.parent[x]? = some (uf.parentOf x) := by
  rw [← h.parent_length] at hx
  rw [parentOf, List.getElem?_eq_getElem hx]
  rfl

theorem getElem?_rank (h : uf.Valid n) (hx : x < n) : uf.rank[x]? = some (uf.rankOf x) := by
  rw [← h.rank_length] at hx
  rw [rankOf, List.getElem?_eq_getElem hx]
  rfl

theorem rankOf_le (uf : UnionFind) (x : Nat) : uf.rankOf x ≤ uf.rank.sum := by
  unfold rankOf
  cases hx : uf.rank[x]? with
  | none => exact Nat.zero_le _
  | some rank => exact List.single_le_sum (fun _ _ => Nat.zero_le _) _ (List.mem_of_getElem? hx)

theorem rooted (h : uf.Valid n) : Rooted uf.parentOf :=
  exists_rootOf h.rank_lt (rankOf_le uf)

theorem rootOf_lt (h : uf.Valid n) (hx : x < n) (hr : RootOf uf.parentOf x r) : r < n := by
  induction hr with
  | root _ => exact hx
  | step _ _ ih => exact ih (h.parent_lt _ hx)

theorem above_lt (h : uf.Valid n) (hx : x < n) (hne : uf.parentOf x ≠ x) :
    above (Finset.range n) uf.rankOf (uf.parentOf x) < above (Finset.range n) uf.rankOf x :=
  Graph.above_lt (Finset.mem_range.2 (h.parent_lt x hx)) (h.rank_lt x hne)

end Valid

theorem parentOf_set (hx : x < uf.parent.length) (ranks : List Nat) :
    parentOf ⟨uf.parent.set x r, ranks⟩ = update uf.parentOf x r := by
  funext y
  unfold parentOf
  rw [List.getElem?_set, update_apply]
  by_cases hy : y = x
  · subst hy
    simp only [if_true, if_pos hx, Option.getD_some]
  · rw [if_neg (Ne.symm hy), if_neg hy]

theorem Valid.set (h : uf.Valid n) (hx : x < n) (hr : r < n) (hrank : uf.rankOf x < uf.rankOf r) :
    Valid { uf with parent := uf.parent.set x r } n := by
  have hlength : x < uf.parent.length := by rwa [h.parent_length]
  have hparent := parentOf_set (r := r) hlength uf.rank
  refine ⟨?_, h.rank_length, fun y hy => ?_, fun y hy => ?_⟩
  · rw [List.length_set, h.parent_length]
  · rw [hparent, update_apply]
    split_ifs
    · exact hr
    · exact h.parent_lt y hy
  · rw [hparent, update_apply] at hy ⊢
    split_ifs at hy ⊢ with hyx
    · rw [hyx]
      exact hrank
    · exact h.rank_lt y hy

/-! ## Finding -/

structure Compressed (n : Nat) (uf uf' : UnionFind) : Prop where
  valid : uf'.Valid n
  rank : uf'.rank = uf.rank
  roots : ∀ y s, RootOf uf.parentOf y s → RootOf uf'.parentOf y s

theorem Compressed.refl (h : uf.Valid n) : Compressed n uf uf := ⟨h, rfl, fun _ _ => id⟩

theorem Compressed.trans (h : Compressed n uf uf') (h' : Compressed n uf' uf'') :
    Compressed n uf uf'' :=
  ⟨h'.valid, h'.rank.trans h.rank, fun y s hs => h'.roots y s (h.roots y s hs)⟩

/-- **The search for a root** comes to an end. -/
theorem findIn_spec (h : uf.Valid n) (hx : x < n) :
    ∃ uf' r, (∀ fuel, above (Finset.range n) uf.rankOf x < fuel →
        uf.findIn fuel x = some (uf', r)) ∧
      RootOf uf.parentOf x r ∧ Compressed n uf uf' := by
  generalize hm : above (Finset.range n) uf.rankOf x = m
  induction m using Nat.strongRecOn generalizing x with
  | ind m ih =>
    by_cases hroot : uf.parentOf x = x
    · refine ⟨uf, x, fun fuel hfuel => ?_, .root hroot, .refl h⟩
      obtain ⟨fuel, rfl⟩ := Nat.exists_eq_add_one_of_ne_zero (Nat.ne_zero_of_lt hfuel)
      rw [findIn, h.getElem?_parent hx, hroot]
      simp only [Option.bind_eq_bind, Option.bind_some, ne_eq, not_true_eq_false, if_false,
        h.getElem?_parent hx, hroot]
      rfl
    · have hlt := h.above_lt hx hroot
      obtain ⟨uf', r, hfind, hr, hcompressed⟩ := ih _ (hm ▸ hlt) (h.parent_lt x hx) rfl
      have hxr : RootOf uf.parentOf x r := .step hroot hr
      have hrank : uf'.rankOf x < uf'.rankOf r := by
        unfold rankOf
        rw [hcompressed.rank]
        exact hxr.rank_lt h.rank_lt hroot
      have hrn : r < n := h.rootOf_lt hx hxr
      have hlength : x < uf'.parent.length := by rwa [hcompressed.valid.parent_length]
      refine ⟨{ uf' with parent := uf'.parent.set x r }, r, fun fuel hfuel => ?_, hxr,
        hcompressed.valid.set hx hrn hrank, hcompressed.rank, fun y s hs => ?_⟩
      · obtain ⟨fuel, rfl⟩ := Nat.exists_eq_add_one_of_ne_zero (Nat.ne_zero_of_lt hfuel)
        rw [findIn, h.getElem?_parent hx]
        simp only [Option.bind_eq_bind, Option.bind_some, ne_eq, hroot, not_false_eq_true, if_true,
          hfind fuel (by omega), Option.map_some, List.getElem?_set_self hlength]
        rfl
      · rw [parentOf_set hlength]
        exact (hcompressed.roots x r hxr).compress (hcompressed.roots y s hs)

theorem find_spec (h : uf.Valid n) (hx : x < n) :
    ∃ uf' r, uf.find x = some (uf', r) ∧ RootOf uf.parentOf x r ∧ Compressed n uf uf' := by
  obtain ⟨uf', r, hfind, hr, hcompressed⟩ := findIn_spec h hx
  refine ⟨uf', r, hfind _ ?_, hr, hcompressed⟩
  rw [h.parent_length]
  exact (above_lt_card (Finset.mem_range.2 hx)).trans_eq (Finset.card_range n)

theorem findIn_of_le (h : uf.Valid n) (hx : x < n) {fuel : Nat} (hfuel : n ≤ fuel) :
    uf.findIn fuel x = uf.find x := by
  obtain ⟨uf', r, hfind, -⟩ := findIn_spec h hx
  have hlt : above (Finset.range n) uf.rankOf x < n :=
    (above_lt_card (Finset.mem_range.2 hx)).trans_eq (Finset.card_range n)
  rw [hfind fuel (hlt.trans_le hfuel), find, hfind _ (hlt.trans_eq h.parent_length.symm)]

theorem Compressed.sameRoot_iff (h : uf.Valid n) (hc : Compressed n uf uf') :
    SameRoot uf'.parentOf x y ↔ SameRoot uf.parentOf x y :=
  h.rooted.sameRoot_congr hc.roots

/-! ## Union -/

/-- What is connected are the elements that are equivalent by the pairs. -/
structure Connects (n : Nat) (R : Nat → Nat → Prop) (uf : UnionFind) : Prop where
  valid : uf.Valid n
  sameRoot_iff : ∀ x y, SameRoot uf.parentOf x y ↔ EqvGen R x y

variable {R : Nat → Nat → Prop}

theorem connects_new (n : Nat) : Connects n (fun _ _ => False) (new n) := by
  have hparent : (new n).parentOf = id := by
    funext x
    unfold new parentOf
    by_cases hx : x < n
    · rw [List.getElem?_range hx]
      rfl
    · rw [List.getElem?_eq_none (by rw [List.length_range]; omega)]
      rfl
  have hroot (x : Nat) : RootOf (new n).parentOf x x := .root (by rw [hparent]; rfl)
  refine ⟨⟨List.length_range, List.length_replicate, fun x hx => ?_, fun x hx => ?_⟩,
    fun x y => ?_⟩
  · rwa [hparent]
  · rw [hparent] at hx
    exact absurd rfl hx
  · rw [Graph.sameRoot_iff (hroot x) (hroot y)]
    constructor
    · rintro rfl
      exact .refl x
    · exact eqvGen_le eq_equivalence fun _ _ => False.elim

theorem Connects.compressed (h : Connects n R uf) (hc : Compressed n uf uf') : Connects n R uf' :=
  ⟨hc.valid, fun x y => (hc.sameRoot_iff h.valid).trans (h.sameRoot_iff x y)⟩

def OrPair (R : Nat → Nat → Prop) (a b x y : Nat) : Prop := R x y ∨ x = a ∧ y = b

theorem Connects.link {a b u v : Nat} (h : Connects n R uf) (hu : RootOf uf.parentOf u r)
    (hv : RootOf uf.parentOf v s) (hne : r ≠ s) (hr : r < n)
    (huv : u = a ∧ v = b ∨ u = b ∧ v = a) {ranks : List Nat}
    (hvalid : Valid ⟨uf.parent.set r s, ranks⟩ n) :
    Connects n (OrPair R a b) ⟨uf.parent.set r s, ranks⟩ := by
  refine ⟨hvalid, fun x y => ?_⟩
  rw [parentOf_set (by rwa [h.valid.parent_length])]
  have hpair : EqvGen (OrPair R a b) a b := .rel _ _ (.inr ⟨rfl, rfl⟩)
  refine sameRoot_link_iff h.valid.rooted h.sameRoot_iff hu hv hne (fun x y => .inl) ?_
    fun x y hxy => ?_
  · rcases huv with ⟨rfl, rfl⟩ | ⟨rfl, rfl⟩
    · exact hpair
    · exact hpair.symm _ _
  · rcases hxy with hxy | ⟨rfl, rfl⟩
    · exact .inl hxy
    · rcases huv with ⟨rfl, rfl⟩ | ⟨rfl, rfl⟩
      · exact .inr (.inl ⟨rfl, rfl⟩)
      · exact .inr (.inr ⟨rfl, rfl⟩)

/-- Of two roots of one rank, one gets a higher rank and the other one as its child. -/
theorem Valid.set_tie (h : uf.Valid n) (hr : r < n) (hs : s < n) (hroot : uf.parentOf r = r)
    (hrank : uf.rankOf s = uf.rankOf r) (hne : s ≠ r) :
    Valid ⟨uf.parent.set s r, uf.rank.set r (uf.rankOf r + 1)⟩ n := by
  have hlength : s < uf.parent.length := by rwa [h.parent_length]
  have hlengthR : r < uf.rank.length := by rwa [h.rank_length]
  have hranks : ∀ y, rankOf ⟨uf.parent.set s r, uf.rank.set r (uf.rankOf r + 1)⟩ y =
      if y = r then uf.rankOf r + 1 else uf.rankOf y := by
    intro y
    unfold rankOf
    dsimp only
    rw [List.getElem?_set]
    by_cases hy : y = r
    · subst hy
      rw [if_pos rfl, if_pos hlengthR, if_pos rfl]
      rfl
    · rw [if_neg (Ne.symm hy), if_neg hy]
  refine ⟨?_, ?_, fun y hy => ?_, fun y hy => ?_⟩
  · rw [List.length_set, h.parent_length]
  · rw [List.length_set, h.rank_length]
  · rw [parentOf_set hlength, update_apply]
    split_ifs
    · exact hr
    · exact h.parent_lt y hy
  · rw [hranks, hranks]
    rw [parentOf_set hlength, update_apply] at hy ⊢
    by_cases hys : y = s
    · subst hys
      rw [if_pos rfl, if_neg hne, if_pos rfl, hrank]
      exact Nat.lt_succ_self _
    · rw [if_neg hys] at hy ⊢
      have hyr : y ≠ r := fun heq => hy (by rw [heq, hroot])
      have hlt := h.rank_lt y hy
      rw [if_neg hyr]
      split_ifs with heq
      · rw [heq] at hlt
        exact hlt.trans (Nat.lt_succ_self _)
      · exact hlt

/-- **Two sets are united.** -/
theorem union_spec (h : Connects n R uf) (hx : x < n) (hy : y < n) :
    ∃ uf', uf.union x y = some uf' ∧ Connects n (OrPair R x y) uf' := by
  obtain ⟨uf₁, px, hfindX, hpx, hc₁⟩ := find_spec h.valid hx
  obtain ⟨uf₂, py, hfindY, hpy, hc₂⟩ := find_spec hc₁.valid hy
  have h₂ : Connects n R uf₂ := (h.compressed hc₁).compressed hc₂
  have hpx₂ : RootOf uf₂.parentOf x px := hc₂.roots _ _ (hc₁.roots _ _ hpx)
  have hpy₂ : RootOf uf₂.parentOf y py := hc₂.roots _ _ hpy
  have hpxn := h₂.valid.rootOf_lt hx hpx₂
  have hpyn := h₂.valid.rootOf_lt hy hpy₂
  unfold union
  simp only [hfindX, hfindY, Option.bind_eq_bind, Option.bind_some, Option.pure_def]
  by_cases hsame : px = py
  · rw [if_pos hsame]
    refine ⟨uf₂, rfl, h₂.valid, fun u v => (h₂.sameRoot_iff u v).trans ⟨?_, ?_⟩⟩
    · exact fun huv => huv.mono fun _ _ => .inl
    · refine eqvGen_le (EqvGen.is_equivalence R) fun u v huv => ?_
      rcases huv with huv | ⟨rfl, rfl⟩
      · exact .rel _ _ huv
      · exact (h₂.sameRoot_iff _ _).1 ⟨px, hpx₂, hsame ▸ hpy₂⟩
  · rw [if_neg hsame, h₂.valid.getElem?_rank hpxn, h₂.valid.getElem?_rank hpyn]
    simp only [Option.bind_some]
    split_ifs with hlt hgt
    · exact ⟨_, rfl, h₂.link hpx₂ hpy₂ hsame hpxn (.inl ⟨rfl, rfl⟩)
        (h₂.valid.set hpxn hpyn hlt)⟩
    · exact ⟨_, rfl, h₂.link hpy₂ hpx₂ (Ne.symm hsame) hpyn (.inr ⟨rfl, rfl⟩)
        (h₂.valid.set hpyn hpxn hgt)⟩
    · exact ⟨_, rfl, h₂.link hpy₂ hpx₂ (Ne.symm hsame) hpyn (.inr ⟨rfl, rfl⟩)
        (h₂.valid.set_tie hpxn hpyn hpx₂.isRoot (by omega) (Ne.symm hsame))⟩

/-- **Elements are connected** exactly if they are equivalent by the united pairs. -/
theorem connected_spec (h : Connects n R uf) (hx : x < n) (hy : y < n) :
    ∃ uf' b, uf.connected x y = some (uf', b) ∧ (b = true ↔ EqvGen R x y) ∧
      Connects n R uf' := by
  obtain ⟨uf₁, px, hfindX, hpx, hc₁⟩ := find_spec h.valid hx
  obtain ⟨uf₂, py, hfindY, hpy, hc₂⟩ := find_spec hc₁.valid hy
  refine ⟨uf₂, px == py, ?_, ?_, (h.compressed hc₁).compressed hc₂⟩
  · unfold connected
    simp only [hfindX, hfindY, Option.bind_eq_bind, Option.bind_some, Option.pure_def]
  · rw [beq_iff_eq, ← (h.compressed hc₁).sameRoot_iff,
      Graph.sameRoot_iff (hc₁.roots _ _ hpx) hpy]

/-! ## Runs -/

/-- A call of one of the methods, on elements of the structure. -/
inductive UnionFindCall (n : Nat)
  | find (x : Fin n)
  | union (x y : Fin n)
  | connected (x y : Fin n)

def perform (uf : UnionFind) : UnionFindCall n → Option UnionFind
  | .find x => (uf.find x).map (·.1)
  | .union x y => uf.union x y
  | .connected x y => (uf.connected x y).map (·.1)

def United (calls : List (UnionFindCall n)) (x y : Nat) : Prop :=
  ∃ a b : Fin n, .union a b ∈ calls ∧ x = a ∧ y = b

theorem united_concat_union (calls : List (UnionFindCall n)) (a b : Fin n) :
    United (calls ++ [.union a b]) = OrPair (United calls) a b := by
  funext x y
  refine propext ⟨?_, ?_⟩
  · rintro ⟨a', b', hmem, rfl, rfl⟩
    rcases List.mem_append.1 hmem with hmem | hmem
    · exact .inl ⟨a', b', hmem, rfl, rfl⟩
    · obtain ⟨rfl, rfl⟩ := UnionFindCall.union.inj (List.mem_singleton.1 hmem)
      exact .inr ⟨rfl, rfl⟩
  · rintro (⟨a', b', hmem, rfl, rfl⟩ | ⟨rfl, rfl⟩)
    · exact ⟨a', b', List.mem_append_left _ hmem, rfl, rfl⟩
    · exact ⟨a, b, List.mem_append_right _ List.mem_cons_self, rfl, rfl⟩

theorem united_concat_of_ne (calls : List (UnionFindCall n)) (call : UnionFindCall n)
    (h : ∀ a b, call ≠ .union a b) :
    United (calls ++ [call]) = United calls := by
  funext x y
  refine propext ⟨?_, ?_⟩
  · rintro ⟨a, b, hmem, hx, hy⟩
    rcases List.mem_append.1 hmem with hmem | hmem
    · exact ⟨a, b, hmem, hx, hy⟩
    · exact absurd (List.mem_singleton.1 hmem).symm (h a b)
  · rintro ⟨a, b, hmem, hx, hy⟩
    exact ⟨a, b, List.mem_append_left _ hmem, hx, hy⟩

/-- **A call** returns, and unites its pair if it is a call of `union`. -/
theorem Connects.perform {calls : List (UnionFindCall n)} (h : Connects n (United calls) uf)
    (call : UnionFindCall n) :
    ∃ uf', uf.perform call = some uf' ∧ Connects n (United (calls ++ [call])) uf' := by
  cases call with
  | find x =>
    obtain ⟨uf', r, hfind, -, hcompressed⟩ := find_spec h.valid x.isLt
    refine ⟨uf', by rw [UnionFind.perform, hfind]; rfl, ?_⟩
    rw [united_concat_of_ne _ (.find x) fun _ _ h => nomatch h]
    exact h.compressed hcompressed
  | union x y =>
    rw [united_concat_union]
    exact union_spec h x.isLt y.isLt
  | connected x y =>
    obtain ⟨uf', b, hconnected, -, h'⟩ := connected_spec h x.isLt y.isLt
    refine ⟨uf', by rw [UnionFind.perform, hconnected]; rfl, ?_⟩
    rwa [united_concat_of_ne _ (.connected x y) fun _ _ h => nomatch h]

/-- **Every run** returns, and connects what it unites. -/
theorem exists_foldlM_perform (calls : List (UnionFindCall n)) :
    ∃ uf, calls.foldlM perform (new n) = some uf ∧ Connects n (United calls) uf := by
  induction calls using List.reverseRecOn with
  | nil =>
    refine ⟨new n, rfl, ?_⟩
    have hnone : United ([] : List (UnionFindCall n)) = fun _ _ => False := by
      funext x y
      exact propext ⟨fun ⟨_, _, hmem, _⟩ => absurd hmem List.not_mem_nil, False.elim⟩
    rw [hnone]
    exact connects_new n
  | append_singleton calls call ih =>
    obtain ⟨uf, hrun, h⟩ := ih
    obtain ⟨uf', hperform, h'⟩ := h.perform call
    refine ⟨uf', ?_, h'⟩
    rw [List.foldlM_append, hrun]
    simp only [Option.bind_eq_bind, Option.bind_some, List.foldlM_cons, List.foldlM_nil, hperform]
    rfl

theorem roots_spec (h : uf.Valid n) : ∃ uf' roots, uf.roots = some (uf', roots) ∧
    Compressed n uf uf' ∧ roots.length = n ∧ ∀ i < n, RootOf uf.parentOf i (roots.getD i 0) := by
  have hfold : ∀ k ≤ n, ∃ uf' roots, (List.range k).foldlM (fun (uf, roots) i => do
      let (uf, root) ← UnionFind.find uf i
      return (uf, roots ++ [root])) (uf, []) = some (uf', roots) ∧ Compressed n uf uf' ∧
      roots.length = k ∧ ∀ i < k, RootOf uf.parentOf i (roots.getD i 0) := by
    intro k hk
    induction k with
    | zero => exact ⟨uf, [], rfl, .refl h, rfl, nofun⟩
    | succ k ih =>
      obtain ⟨uf₁, roots, hrun, hc₁, hlength, hroots⟩ := ih (by omega)
      obtain ⟨uf₂, r, hfind, hr, hc₂⟩ := find_spec hc₁.valid (Nat.lt_of_succ_le hk)
      refine ⟨uf₂, roots ++ [r], ?_, hc₁.trans hc₂, ?_, fun i hi => ?_⟩
      · rw [List.range_succ, List.foldlM_append, hrun]
        simp only [Option.bind_eq_bind, Option.bind_some, List.foldlM_cons, List.foldlM_nil,
          hfind, Option.pure_def]
      · rw [List.length_append, hlength, List.length_singleton]
      · rcases Nat.lt_succ_iff_lt_or_eq.1 hi with hlt | rfl
        · rw [List.getD_append _ _ _ _ (by rwa [hlength])]
          exact hroots i hlt
        · obtain ⟨s, hs⟩ := h.rooted i
          rw [List.getD_append_right _ _ _ _ hlength.le, hlength, Nat.sub_self]
          rw [(hc₁.roots i s hs).unique hr] at hs
          exact hs
  have hn := hfold n (Nat.le_refl n)
  rw [← h.parent_length] at hn ⊢
  exact hn

/-- **The components** are the groups of elements with the same root. -/
theorem components_spec (h : Connects n R uf) : ∃ uf' groups rootOf,
    uf.components = some (uf', groups) ∧ Connects n R uf' ∧
      groups = group rootOf (List.range n) ∧
      ∀ i < n, ∀ j < n, rootOf i = rootOf j ↔ EqvGen R i j := by
  obtain ⟨uf', roots, hroots, hc, hlength, hroot⟩ := roots_spec h.valid
  refine ⟨uf', _, fun i => roots.getD i 0, ?_, h.compressed hc, rfl, fun i hi j hj => ?_⟩
  · unfold components
    rw [hroots]
    simp only [Option.bind_eq_bind, Option.bind_some, Option.pure_def, hlength]
  · rw [← h.sameRoot_iff, Graph.sameRoot_iff (hroot i hi) (hroot j hj)]

end UnionFind

end TldrCode.Clones
