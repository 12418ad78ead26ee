import TldrCode.Ssa.Dominators
import TldrCode.Graph.DfsTree

/-!
# The depth-first search of the Lengauer–Tarjan algorithm

`DfsInv` relates the numbering to the stack while the search runs: the stack holds every edge to
a node not numbered yet, and the nodes its entries come from are ancestors of the node numbered
last, nearest on top. One round keeps it (`DfsInv.discover`), `cfg.edges.length + 1` rounds empty
the stack (`dfsLoop_spec`), and what is left is a depth-first tree of the reachable blocks
(`DfsDone.tree`).
-/

namespace TldrCode.Ssa.LengauerTarjan

open Function (update update_apply)
open TldrCode.Graph

variable {cfg : CfgInfo} {lt : LengauerTarjan} {stack : List (Nat × Option Nat × Bool)}
  {visited : Finset Nat} {p u v w : Nat}

theorem dfsLoop_frame (fuel : Nat) : ∀ stack visited (lt : LengauerTarjan),
    let lt' := dfsLoop fuel stack visited lt
    lt'.entry = lt.entry ∧ lt'.successors = lt.successors ∧
      lt'.predecessors = lt.predecessors ∧ lt'.ancestor = lt.ancestor ∧ lt'.label = lt.label ∧
      lt'.idom = lt.idom ∧ lt'.bucket = lt.bucket := by
  induction fuel with
  | zero => intro stack visited lt; simp [dfsLoop]
  | succ fuel ih =>
    intro stack visited lt
    match stack with
    | [] => simp [dfsLoop]
    | (v, parent, processed) :: stack =>
      simp only [dfsLoop]
      split_ifs
      · exact ih ..
      · exact ih ..
      · exact ih _ _ (lt.discover v parent)

/-! ## The invariant -/

/-- The tree edge into `v`. -/
def treeParent (lt : LengauerTarjan) (v : Nat) : Nat := (lt.parent v).getD 0

/-- The number of `v`. -/
def num (lt : LengauerTarjan) (v : Nat) : Nat := (lt.dfnum v).getD 0

/-- The ancestors along the tree edges found so far. -/
abbrev TreeAnc (cfg : CfgInfo) (lt : LengauerTarjan) (v w : Nat) : Prop :=
  Anc cfg.entryBlock lt.treeParent v w

/-- What holds of the numbering whatever the stack. -/
structure Numbering (cfg : CfgInfo) (lt : LengauerTarjan) : Prop where
  dfnum : ∀ v i, lt.dfnum v = some i ↔ lt.vertex[i]? = some v
  semi : lt.semi = lt.dfnum
  root : lt.vertex[0]? = some cfg.entryBlock
  /-- a node is discovered from an ancestor of the node numbered just before it -/
  tree : ∀ i v, lt.vertex[i + 1]? = some v → ∃ p z, lt.parent v = some p ∧ cfg.Edge p v ∧
    p ∈ lt.vertex ∧ lt.num p ≤ i ∧ lt.vertex[i]? = some z ∧ TreeAnc cfg lt p z
  forward : ∀ v ∈ lt.vertex, ∀ w ∈ lt.vertex, cfg.Edge v w → lt.num v < lt.num w →
    TreeAnc cfg lt v w

/-- The state of the search between two rounds. -/
structure DfsInv (cfg : CfgInfo) (lt : LengauerTarjan) (stack : List (Nat × Option Nat × Bool))
    (visited : Finset Nat) : Prop extends Numbering cfg lt where
  visited : ∀ v, v ∈ visited ↔ v ∈ lt.vertex
  pending : ∀ v ∈ lt.vertex, ∀ w, cfg.Edge v w → w ∉ lt.vertex → (w, some v, false) ∈ stack
  entries : ∀ e ∈ stack, ∃ w p, e = (w, some p, false) ∧ p ∈ lt.vertex ∧ cfg.Edge p w
  last : ∀ z, lt.vertex.getLast? = some z → ∀ w p b, (w, some p, b) ∈ stack → TreeAnc cfg lt p z
  chain : stack.Pairwise fun e f => ∀ p q, e.2.1 = some p → f.2.1 = some q →
    TreeAnc cfg lt q p

namespace Numbering

section

variable (h : Numbering cfg lt)
include h

theorem mem_iff : v ∈ lt.vertex ↔ ∃ i, lt.dfnum v = some i := by
  simp only [h.dfnum, List.mem_iff_getElem?]

theorem num_eq {i : Nat} (hi : lt.vertex[i]? = some v) : lt.num v = i := by
  rw [num, (h.dfnum v i).2 hi, Option.getD_some]

theorem getElem?_num (hv : v ∈ lt.vertex) : lt.vertex[lt.num v]? = some v := by
  obtain ⟨i, hi⟩ := List.mem_iff_getElem?.1 hv
  rw [h.num_eq hi, hi]

theorem num_lt (hv : v ∈ lt.vertex) : lt.num v < lt.vertex.length :=
  (List.getElem?_eq_some_iff.1 (h.getElem?_num hv)).1

theorem num_inj (hv : v ∈ lt.vertex) (hw : w ∈ lt.vertex) (he : lt.num v = lt.num w) : v = w := by
  have h₁ := h.getElem?_num hv
  have h₂ := h.getElem?_num hw
  rw [he, h₂] at h₁
  exact (Option.some_inj.1 h₁).symm

theorem root_mem : cfg.entryBlock ∈ lt.vertex :=
  List.mem_of_getElem? h.root

theorem tree_of_ne (hv : v ∈ lt.vertex) (hne : v ≠ cfg.entryBlock) :
    ∃ p z, lt.parent v = some p ∧ cfg.Edge p v ∧ p ∈ lt.vertex ∧ lt.num p ≤ lt.num z ∧
      lt.num v = lt.num z + 1 ∧ z ∈ lt.vertex ∧ TreeAnc cfg lt p z := by
  have hi := h.getElem?_num hv
  cases hn : lt.num v with
  | zero =>
    rw [hn, h.root] at hi
    exact absurd (Option.some_inj.1 hi).symm hne
  | succ i =>
    rw [hn] at hi
    obtain ⟨p, z, hp, he, hpm, hle, hz, hanc⟩ := h.tree i v hi
    exact ⟨p, z, hp, he, hpm, by rw [h.num_eq hz]; exact hle, by rw [h.num_eq hz],
      List.mem_of_getElem? hz, hanc⟩

theorem treeParent_mem (hv : v ∈ lt.vertex) (hne : v ≠ cfg.entryBlock) :
    lt.treeParent v ∈ lt.vertex := by
  obtain ⟨p, z, hp, -, hpm, -⟩ := h.tree_of_ne hv hne
  rw [treeParent, hp]
  exact hpm

theorem reachable (hv : v ∈ lt.vertex) : cfg.Reachable v := by
  generalize hn : lt.num v = n
  induction n using Nat.strong_induction_on generalizing v with
  | _ n ih =>
    by_cases hne : v = cfg.entryBlock
    · exact hne ▸ .refl _
    · obtain ⟨p, z, -, he, hp, hle, hz, -⟩ := h.tree_of_ne hv hne
      exact (ih (lt.num p) (by omega) hp rfl).tail he

theorem interval (hw : w ∈ lt.vertex) (hu : u ∈ lt.vertex) (hanc : TreeAnc cfg lt v w)
    (h₁ : lt.num v ≤ lt.num u) (h₂ : lt.num u ≤ lt.num w) : TreeAnc cfg lt v u := by
  generalize hn : lt.num w = n
  induction n using Nat.strong_induction_on generalizing w with
  | _ n ih =>
    rcases eq_or_lt_of_le h₂ with he | hlt
    · rw [h.num_inj hu hw he]; exact hanc
    · cases hanc with
      | refl => exact absurd hlt (not_lt.2 h₁)
      | step hne hanc =>
        obtain ⟨p, z, hp, -, -, -, hz, hzm, hpz⟩ := h.tree_of_ne hw hne
        rw [treeParent, hp, Option.getD_some] at hanc
        exact ih (lt.num z) (by omega) hzm (hanc.trans hpz) (by omega) rfl

end

end Numbering

/-! ## One round -/

section Discover

/-- The numbering after `v` is discovered from `p`. -/
abbrev discoverFrom (lt : LengauerTarjan) (v p : Nat) : LengauerTarjan := lt.discover v (some p)

theorem discover_num_of_mem (hv : v ∉ lt.vertex) (hw : w ∈ lt.vertex) :
    (lt.discoverFrom v p).num w = lt.num w := by
  have : w ≠ v := fun he => hv (he ▸ hw)
  simp [num, discover, update, this]

theorem discover_treeParent_of_ne (hw : w ≠ v) :
    (lt.discoverFrom v p).treeParent w = lt.treeParent w := by
  simp [treeParent, discover, update, hw]

theorem discover_anc (h : Numbering cfg lt) (hv : v ∉ lt.vertex) (hw : w ∈ lt.vertex)
    (hanc : TreeAnc cfg lt u w) : TreeAnc cfg (lt.discoverFrom v p) u w :=
  hanc.congr (S := (· ∈ lt.vertex))
    (fun _ hx _ => discover_treeParent_of_ne fun he => hv (he ▸ hx))
    (fun _ hx hne => h.treeParent_mem hx hne) hw

theorem discover_anc_self (hvr : v ≠ cfg.entryBlock)
    (hanc : TreeAnc cfg (lt.discoverFrom v p) u p) : TreeAnc cfg (lt.discoverFrom v p) u v := by
  refine .step hvr ?_
  have : (lt.discoverFrom v p).treeParent v = p := by simp [treeParent, discover, update]
  rw [this]
  exact hanc

/-- A new node whose every predecessor so far is an ancestor of the node it is discovered from
extends the numbering. -/
theorem Numbering.discover (h : Numbering cfg lt) (hv : v ∉ lt.vertex) (hp : p ∈ lt.vertex)
    (he : cfg.Edge p v) (hlast : ∀ z, lt.vertex.getLast? = some z → TreeAnc cfg lt p z)
    (hpred : ∀ u ∈ lt.vertex, cfg.Edge u v → TreeAnc cfg lt u p) :
    Numbering cfg (lt.discoverFrom v p) := by
  have hvr : v ≠ cfg.entryBlock := fun e => hv (e ▸ h.root_mem)
  have hnew : ∀ {w}, w ∈ (lt.discoverFrom v p).vertex ↔ w ∈ lt.vertex ∨ w = v := by
    simp [LengauerTarjan.discover]
  have hnumv : (lt.discoverFrom v p).num v = lt.vertex.length := by
    simp [num, LengauerTarjan.discover, update]
  refine ⟨fun w i => ?_, ?_, ?_, fun i w hi => ?_, fun x hx w hw hxw hlt => ?_⟩
  · simp only [LengauerTarjan.discover, update_apply, List.getElem?_append]
    by_cases hw : w = v
    · subst hw
      by_cases hi : i < lt.vertex.length
      · have : lt.vertex[i]? ≠ some w := fun e => hv (List.mem_of_getElem? e)
        simp only [↓reduceIte, Option.some.injEq, hi, this, iff_false]
        omega
      · simp only [↓reduceIte, Option.some.injEq, hi]
        rcases eq_or_lt_of_le (not_lt.1 hi) with rfl | hgt
        · simp
        · rw [List.getElem?_eq_none (by simp; omega)]
          simp only [reduceCtorEq, iff_false]
          omega
    · simp only [hw, ↓reduceIte]
      rw [h.dfnum]
      split_ifs with hi
      · rfl
      · rw [List.getElem?_eq_none (not_lt.1 hi)]
        simp only [reduceCtorEq, false_iff]
        intro e
        have := List.mem_of_getElem? e
        exact hw (List.mem_singleton.1 this)
  · simp only [LengauerTarjan.discover, h.semi]
  · have : 0 < lt.vertex.length := (List.getElem?_eq_some_iff.1 h.root).1
    simp only [LengauerTarjan.discover, List.getElem?_append, this, ↓reduceIte]
    exact h.root
  · simp only [LengauerTarjan.discover, List.getElem?_append] at hi
    split_ifs at hi with hlt
    · obtain ⟨q, z, hq, hqw, hqm, hqi, hz, hanc⟩ := h.tree i w hi
      have hwv : w ≠ v := fun e => hv (e ▸ List.mem_of_getElem? hi)
      refine ⟨q, z, ?_, hqw, hnew.2 (.inl hqm), ?_, ?_, ?_⟩
      · simpa [LengauerTarjan.discover, update, hwv] using hq
      · rwa [discover_num_of_mem hv hqm]
      · have : i < lt.vertex.length := by omega
        simpa [LengauerTarjan.discover, List.getElem?_append, this] using hz
      · exact discover_anc h hv (List.mem_of_getElem? hz) hanc
    · -- the node discovered in this round
      have hwv : w = v := by
        have := List.mem_of_getElem? hi
        exact List.mem_singleton.1 this
      have hi' : i + 1 = lt.vertex.length := by
        have := (List.getElem?_eq_some_iff.1 hi).1
        simp only [List.length_singleton] at this
        omega
      subst hwv
      have hz : lt.vertex.getLast? = some lt.vertex[i] := by
        rw [List.getLast?_eq_getElem?]
        have : lt.vertex.length - 1 = i := by omega
        rw [this, List.getElem?_eq_getElem (by omega)]
      refine ⟨p, lt.vertex[i], ?_, he, hnew.2 (.inl hp), ?_, ?_, ?_⟩
      · simp [LengauerTarjan.discover, update]
      · rw [discover_num_of_mem hv hp]
        have := h.num_lt hp
        omega
      · simp [LengauerTarjan.discover, List.getElem?_append, show i < lt.vertex.length by omega]
      · exact discover_anc h hv (List.getElem_mem _) (hlast _ hz)
  · have hnum : ∀ {y}, y ∈ lt.vertex → (lt.discoverFrom v p).num y < lt.vertex.length :=
      fun hy => by rw [discover_num_of_mem hv hy]; exact h.num_lt hy
    rcases hnew.1 hx with hx' | rfl
    · rcases hnew.1 hw with hw' | rfl
      · rw [discover_num_of_mem hv hx', discover_num_of_mem hv hw'] at hlt
        exact discover_anc h hv hw' (h.forward x hx' w hw' hxw hlt)
      · exact discover_anc_self hvr (discover_anc h hv hp (hpred x hx' hxw))
    · rcases hnew.1 hw with hw' | rfl
      · rw [hnumv] at hlt
        exact absurd (hnum hw') (not_lt.2 hlt.le)
      · exact absurd hlt (lt_irrefl _)

theorem DfsInv.discover (h : DfsInv cfg lt ((v, some p, false) :: stack) visited)
    (hsucc : lt.successors = cfg.successors) (hv : v ∉ visited) :
    DfsInv cfg (lt.discoverFrom v p)
      ((((lt.successors v).filter (· ∉ insert v visited)).map fun w => (w, some v, false)) ++ stack)
      (insert v visited) := by
  have hvm : v ∉ lt.vertex := fun hm => hv ((h.visited v).2 hm)
  have hvr : v ≠ cfg.entryBlock := fun e => hvm (e ▸ h.root_mem)
  obtain ⟨_, _, e, hp, he⟩ := h.entries _ List.mem_cons_self
  cases e
  have hbelow : ∀ w q b, (w, some q, b) ∈ stack → TreeAnc cfg lt q p := fun w q b hm =>
    (List.pairwise_cons.1 h.chain).1 _ hm p q rfl rfl
  have hnew : ∀ {w}, w ∈ (lt.discoverFrom v p).vertex ↔ w ∈ lt.vertex ∨ w = v := by
    simp [LengauerTarjan.discover]
  have hpred : ∀ u ∈ lt.vertex, cfg.Edge u v → TreeAnc cfg lt u p := by
    intro u hu huv
    rcases List.mem_cons.1 (h.pending u hu v huv hvm) with e | hm
    · obtain rfl : u = p := by simpa using e
      exact .refl
    · exact hbelow _ _ _ hm
  have hentries : ∀ e ∈ stack, ∃ w q, e = (w, some q, false) ∧ q ∈ lt.vertex ∧ cfg.Edge q w :=
    fun e hm => h.entries e (List.mem_cons_of_mem _ hm)
  -- the older entries come from ancestors of `p`, the new ones from `v`
  have hanc : ∀ w q b, (w, some q, b) ∈ stack → TreeAnc cfg (lt.discoverFrom v p) q v :=
    fun w q b hm => discover_anc_self hvr (discover_anc h.toNumbering hvm hp (hbelow w q b hm))
  refine ⟨h.toNumbering.discover hvm hp he (fun z hz => h.last z hz _ _ _ List.mem_cons_self)
    hpred, ?_, ?_, ?_, ?_, ?_⟩
  · intro w
    rw [hnew, Finset.mem_insert, h.visited]
    tauto
  · intro u hu w huw hw
    rw [hnew, not_or] at hw
    rcases hnew.1 hu with hu | rfl
    · rcases List.mem_cons.1 (h.pending u hu w huw hw.1) with e | hm
      · exact absurd (by simpa using (Prod.mk.inj e).1) hw.2
      · exact List.mem_append_right _ hm
    · refine List.mem_append_left _ (List.mem_map.2 ⟨w, List.mem_filter.2 ⟨?_, ?_⟩, rfl⟩)
      · rw [hsucc]; exact CfgInfo.mem_successors.2 huw
      · simpa [h.visited] using ⟨hw.2, hw.1⟩
  · intro e hm
    rcases List.mem_append.1 hm with hm | hm
    · obtain ⟨w, hw, rfl⟩ := List.mem_map.1 hm
      have := (List.mem_filter.1 hw).1
      rw [hsucc] at this
      exact ⟨w, v, rfl, hnew.2 (.inr rfl), CfgInfo.mem_successors.1 this⟩
    · obtain ⟨w, q, rfl, hq, hqw⟩ := hentries e hm
      exact ⟨w, q, rfl, hnew.2 (.inl hq), hqw⟩
  · intro z hz w q b hm
    obtain rfl : v = z := by simpa [LengauerTarjan.discover] using hz
    rcases List.mem_append.1 hm with hm | hm
    · obtain ⟨w', -, e⟩ := List.mem_map.1 hm
      obtain rfl : v = q := by simpa using (Prod.mk.inj (Prod.mk.inj e).2).1
      exact .refl
    · exact hanc w q b hm
  · refine List.pairwise_append.2 ⟨?_, ?_, ?_⟩
    · rw [List.pairwise_map]
      refine List.pairwise_of_forall fun _ _ q q' hq hq' => ?_
      obtain rfl := Option.some_inj.1 hq
      obtain rfl := Option.some_inj.1 hq'
      exact .refl
    · refine (List.pairwise_cons.1 h.chain).2.imp_of_mem fun {e f} he hf hef q q' hq hq' => ?_
      obtain ⟨w, q₀, rfl, hq₀, -⟩ := hentries e he
      obtain rfl : q₀ = q := by simpa using hq
      exact discover_anc h.toNumbering hvm hq₀ (hef _ _ rfl hq')
    · intro e he f hf q q' hq hq'
      obtain ⟨w, -, rfl⟩ := List.mem_map.1 he
      obtain rfl := Option.some_inj.1 hq
      obtain ⟨w', q₀, rfl, -, -⟩ := hentries f hf
      obtain rfl : q₀ = q' := by simpa using hq'
      exact hanc _ _ _ hf

end Discover

/-! ## The whole search -/

/-- The rounds left are at most the entries on the stack and the edges out of unvisited nodes. -/
def roundsLeft (cfg : CfgInfo) (stack : List (Nat × Option Nat × Bool)) (visited : Finset Nat) :
    Nat :=
  stack.length + (cfg.edges.filter fun e => e.fromBlock ∉ visited).length

theorem roundsLeft_discover (hv : v ∉ visited) :
    roundsLeft cfg (((cfg.successors v).filter (· ∉ insert v visited)).map
      (fun w => (w, some v, false)) ++ stack) (insert v visited) ≤
        roundsLeft cfg stack visited := by
  have hsucc : ((cfg.successors v).filter (· ∉ insert v visited)).length ≤
      (cfg.edges.filter fun e => e.fromBlock = v).length := by
    refine (List.length_filter_le _ _).trans ?_
    simp only [CfgInfo.successors, List.length_map]
    exact le_of_eq (congrArg _ (List.filter_congr fun e _ => by simp [beq_eq_decide]))
  have hedges : ∀ l : List CfgEdge,
      (l.filter fun e => e.fromBlock = v).length +
        (l.filter fun e => e.fromBlock ∉ insert v visited).length ≤
        (l.filter fun e => e.fromBlock ∉ visited).length := by
    intro l
    induction l with
    | nil => simp
    | cons e l ih =>
      by_cases hev : e.fromBlock = v
      · have h₁ : e.fromBlock ∉ visited := hev ▸ hv
        simp only [List.filter_cons, hev, decide_true, ↓reduceIte, Finset.mem_insert, true_or,
          not_true, decide_false, Bool.false_eq_true, List.length_cons, hv, not_false_eq_true]
          at ih ⊢
        omega
      · by_cases hem : e.fromBlock ∈ visited
        · simpa [List.filter_cons, hev, hem] using ih
        · simp only [List.filter_cons, hev, decide_false, Bool.false_eq_true, ↓reduceIte,
            Finset.mem_insert, hem, or_self, not_false_eq_true, decide_true, List.length_cons]
            at ih ⊢
          omega
  have := hedges cfg.edges
  simp only [roundsLeft, List.length_append, List.length_map]
  omega

theorem dfsLoop_spec : ∀ fuel stack visited (lt : LengauerTarjan),
    DfsInv cfg lt stack visited → lt.successors = cfg.successors →
    roundsLeft cfg stack visited ≤ fuel →
    ∃ visited', DfsInv cfg (dfsLoop fuel stack visited lt) [] visited' := by
  intro fuel
  induction fuel with
  | zero =>
    intro stack visited lt h _ hf
    have : stack = [] := by
      simp only [roundsLeft] at hf
      exact List.length_eq_zero_iff.1 (by omega)
    subst this
    exact ⟨visited, h⟩
  | succ fuel ih =>
    intro stack visited lt h hsucc hf
    match stack with
    | [] => exact ⟨visited, h⟩
    | (v, parent, processed) :: stack =>
      obtain ⟨_, p, e, -, -⟩ := h.entries _ List.mem_cons_self
      cases e
      simp only [dfsLoop, Bool.false_eq_true, ↓reduceIte]
      have hle : roundsLeft cfg stack visited ≤ fuel := by
        simp only [roundsLeft, List.length_cons] at hf ⊢
        omega
      split_ifs with hv
      · refine ih stack visited lt ⟨h.toNumbering, h.visited, ?_, ?_, ?_, ?_⟩ hsucc hle
        · intro u hu w huw hw
          rcases List.mem_cons.1 (h.pending u hu w huw hw) with e | hm
          · have : w = v := (Prod.mk.inj e).1
            exact absurd ((h.visited v).1 hv) (this ▸ hw)
          · exact hm
        · exact fun e hm => h.entries e (List.mem_cons_of_mem _ hm)
        · exact fun z hz w q b hm => h.last z hz w q b (List.mem_cons_of_mem _ hm)
        · exact (List.pairwise_cons.1 h.chain).2
      · refine ih _ _ _ (h.discover hsucc hv) hsucc ?_
        have : (lt.discover v (some p)).successors = cfg.successors := hsucc
        rw [this]
        exact (roundsLeft_discover hv).trans hle

theorem dfsInv_start (hlt : lt = .new cfg.entryBlock cfg.successors cfg.predecessors) :
    DfsInv cfg (lt.discover cfg.entryBlock none)
      (((lt.successors cfg.entryBlock).filter (· ∉ insert cfg.entryBlock (∅ : Finset Nat))).map
        (fun w => (w, some cfg.entryBlock, false)) ++ []) (insert cfg.entryBlock ∅) := by
  subst hlt
  have hmem : ∀ {w}, w ∈ ((new cfg.entryBlock cfg.successors cfg.predecessors).discover
      cfg.entryBlock none).vertex ↔ w = cfg.entryBlock := by
    simp [LengauerTarjan.discover, new]
  refine ⟨⟨fun w i => ?_, rfl, rfl, fun i w hi => ?_, fun v hv w hw _ hlt => ?_⟩, ?_, ?_, ?_, ?_,
    ?_⟩
  · simp only [LengauerTarjan.discover, new, update_apply, List.nil_append, List.length_nil,
      List.getElem?_singleton]
    by_cases hw : w = cfg.entryBlock <;> by_cases hi : i = 0 <;> simp [hw, hi, eq_comm]
  · simp [LengauerTarjan.discover, new] at hi
  · rw [hmem.1 hv, hmem.1 hw] at hlt
    exact absurd hlt (lt_irrefl _)
  · intro w
    rw [hmem]
    simp
  · intro v hv w hvw hw
    obtain rfl := hmem.1 hv
    rw [hmem] at hw
    refine List.mem_append_left _ (List.mem_map.2 ⟨w, List.mem_filter.2 ⟨?_, ?_⟩, rfl⟩)
    · exact CfgInfo.mem_successors.2 hvw
    · simpa using hw
  · intro e hm
    rw [List.append_nil] at hm
    obtain ⟨w, hw, rfl⟩ := List.mem_map.1 hm
    exact ⟨w, _, rfl, hmem.2 rfl, CfgInfo.mem_successors.1 (List.mem_filter.1 hw).1⟩
  · intro z hz w q b hm
    obtain rfl : cfg.entryBlock = z := by simpa [LengauerTarjan.discover, new] using hz
    rw [List.append_nil] at hm
    obtain ⟨w', -, e⟩ := List.mem_map.1 hm
    obtain rfl : cfg.entryBlock = q := by simpa using (Prod.mk.inj (Prod.mk.inj e).2).1
    exact .refl
  · rw [List.append_nil, List.pairwise_map]
    refine List.pairwise_of_forall fun _ _ q q' hq hq' => ?_
    obtain rfl := Option.some_inj.1 hq
    obtain rfl := Option.some_inj.1 hq'
    exact .refl

/-- The state after the search: `Numbering` over exactly the reachable blocks. -/
structure DfsDone (cfg : CfgInfo) (lt : LengauerTarjan) : Prop extends Numbering cfg lt where
  mem_vertex : ∀ v, v ∈ lt.vertex ↔ cfg.Reachable v

theorem DfsInv.done (h : DfsInv cfg lt [] visited) : DfsDone cfg lt := by
  refine ⟨h.toNumbering, fun v => ⟨h.reachable, fun hv => ?_⟩⟩
  refine hv.induct h.root_mem fun x y _ hxy hx => ?_
  by_contra hy
  exact absurd (h.pending x hx y hxy hy) List.not_mem_nil

theorem dfs_spec (cfg : CfgInfo) : DfsDone cfg
    ((new cfg.entryBlock cfg.successors cfg.predecessors).dfs (cfg.edges.length + 1)
      cfg.entryBlock) := by
  have hstart := @dfsInv_start cfg _ rfl
  obtain ⟨visited, h⟩ := dfsLoop_spec cfg.edges.length _ _ _ hstart rfl (by
    have h₁ : roundsLeft cfg _ (insert cfg.entryBlock ∅) ≤ roundsLeft cfg [] ∅ :=
      roundsLeft_discover (Finset.notMem_empty cfg.entryBlock)
    have h₂ : roundsLeft cfg [] ∅ ≤ cfg.edges.length := by simp [roundsLeft]
    exact h₁.trans h₂)
  simp only [dfs, dfsLoop, Bool.false_eq_true, ↓reduceIte, Finset.notMem_empty]
  exact h.done

namespace DfsDone

/-- The search leaves a depth-first tree of the reachable blocks. -/
def dfsTree (h : DfsDone cfg lt) : DfsTree cfg.Edge cfg.entryBlock where
  num := lt.num
  parent := lt.treeParent
  num_inj hv hw := h.num_inj ((h.mem_vertex _).2 hv) ((h.mem_vertex _).2 hw)
  parent_edge hv hne := by
    obtain ⟨p, z, hp, he, -⟩ := h.tree_of_ne ((h.mem_vertex _).2 hv) hne
    rwa [treeParent, hp]
  parent_reach hv hne := (h.mem_vertex _).1 (h.treeParent_mem ((h.mem_vertex _).2 hv) hne)
  parent_lt hv hne := by
    obtain ⟨p, z, hp, -, -, hle, hz, -⟩ := h.tree_of_ne ((h.mem_vertex _).2 hv) hne
    rw [treeParent, hp, Option.getD_some]
    omega
  forward hv he hlt :=
    h.forward _ ((h.mem_vertex _).2 hv) _ ((h.mem_vertex _).2 (hv.tail he)) he hlt
  interval hw hu hanc := h.interval ((h.mem_vertex _).2 hw) ((h.mem_vertex _).2 hu) hanc

end DfsDone

end TldrCode.Ssa.LengauerTarjan
