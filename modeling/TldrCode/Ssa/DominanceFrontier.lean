import TldrCode.Ssa.DominatorTree

/-!
# Dominance frontiers

`compute_dominance_frontier` walks up the dominator tree from every predecessor of a join point
and enters the join point at each block it passes. `computeDominanceFrontier_spec` says what it
returns on a dominator tree, and that it gives up exactly when the walks take more rounds together
(`frontierCost`) than its limit. The walk stops at the join point itself before entering it, so a
block never is in its own frontier; `computeDominanceFrontier_exact_iff` says when the frontiers
are the ones of the definition (`InFrontier`).
-/

namespace TldrCode.Ssa

open Function (update)
open TldrCode.Graph

/-! ## The computation -/

/-- `DominanceFrontier`. A HashSet is a list without repetitions. -/
structure DominanceFrontier where
  frontier : Nat → Option (List Nat)

namespace DominanceFrontier

def get (df : DominanceFrontier) (block : Nat) : List Nat := (df.frontier block).getD []

/-- `if let Some(df_set) = frontier.get_mut(&runner) { df_set.insert(join_point) }`. -/
def insert (df : DominanceFrontier) (runner joinPoint : Nat) : DominanceFrontier :=
  match df.frontier runner with
  | none => df
  | some dfSet => ⟨update df.frontier runner (some (dfSet.insert joinPoint))⟩

end DominanceFrontier

/-- The error of `compute_dominance_frontier`. -/
def iterationLimit : TldrError := .invalidArgs "dom_tree"
  "Iteration limit exceeded computing dominance frontier - possible corrupted dominator tree"
  (some "Check that the dominator tree was computed correctly")

/-- The walk up from `runner`. The second component of the state is how often
`total_iterations` may still be incremented. -/
def walkUp (domTree : DominatorTree) (joinPoint : Nat) (joinIdom : Option Nat) :
    Nat → DominanceFrontier → Nat → Except TldrError (DominanceFrontier × Nat)
  | _, _, 0 => .error iterationLimit
  | runner, df, left + 1 =>
    if some runner = joinIdom then .ok (df, left)
    else if runner = joinPoint then .ok (df, left)
    else
      let df := df.insert runner joinPoint
      match (domTree.get? runner).bind (·.idom) with
      | some idom => walkUp domTree joinPoint joinIdom idom df left
      | none => .ok (df, left)

def predStep (domTree : DominatorTree) (joinPoint : Nat) (state : DominanceFrontier × Nat)
    (pred : Nat) : Except TldrError (DominanceFrontier × Nat) :=
  if (domTree.get? pred).isSome then
    walkUp domTree joinPoint ((domTree.get? joinPoint).bind (·.idom)) pred state.1 state.2
  else .ok state

def joinStep (cfg : CfgInfo) (domTree : DominatorTree) (state : DominanceFrontier × Nat)
    (block : CfgBlock) : Except TldrError (DominanceFrontier × Nat) :=
  if (cfg.predecessors block.id).length < 2 then .ok state
  else (cfg.predecessors block.id).foldlM (predStep domTree block.id) state

def computeDominanceFrontier (cfg : CfgInfo) (domTree : DominatorTree) :
    Except TldrError DominanceFrontier :=
  let start : DominanceFrontier :=
    ⟨fun block => if (domTree.get? block).isSome then some [] else none⟩
  let maxIterations := domTree.nodes.length * domTree.nodes.length
  (cfg.blocks.foldlM (joinStep cfg domTree) (start, maxIterations)).map Prod.fst

/-- `y` is in the dominance frontier of `b`: `b` dominates a predecessor of `y` and does not
strictly dominate `y`. -/
def InFrontier (cfg : CfgInfo) (b y : Nat) : Prop :=
  y ∈ cfg.blockIds ∧ ∃ p, cfg.Reachable p ∧ cfg.Edge p y ∧ cfg.Dominates b p ∧
    ¬ cfg.StrictlyDominates b y

/-- The rounds of the walk from the predecessor `p` of `y`: one for each block it passes, and the
one that stops it. -/
def walkCost (domTree : DominatorTree) (y p : Nat) : Nat :=
  (domTree.nodes.filter fun node => domTree.dominates node.blockId p &&
    (!domTree.strictlyDominates node.blockId y && node.blockId != y)).length + 1

/-- The rounds of the walks from the reachable predecessors of `y`, if it has two or more edges
into it. -/
def joinCost (cfg : CfgInfo) (domTree : DominatorTree) (y : Nat) : Nat :=
  if (cfg.predecessors y).length < 2 then 0
  else ((cfg.predecessors y).map fun p =>
    if (domTree.get? p).isSome then walkCost domTree y p else 0).sum

def frontierCost (cfg : CfgInfo) (domTree : DominatorTree) : Nat :=
  (cfg.blocks.map fun block => joinCost cfg domTree block.id).sum

variable {cfg : CfgInfo} {tree : DominatorTree} {a b p s x y z t k left : Nat}
  {df : DominanceFrontier}

/-! ## Runs that enter blocks and use up rounds -/

/-- The frontiers have an entry for the reachable blocks. -/
def HasKeys (cfg : CfgInfo) (df : DominanceFrontier) : Prop :=
  ∀ b, (df.frontier b).isSome ↔ cfg.Reachable b

/-- `run` takes `cost` rounds and enters `y` at `x` for the pairs in `add`, or hits the limit. -/
structure Enters (cfg : CfgInfo)
    (run : DominanceFrontier × Nat → Except TldrError (DominanceFrontier × Nat)) (cost : Nat)
    (add : Nat → Nat → Prop) : Prop where
  ok : ∀ df left, HasKeys cfg df → cost ≤ left → ∃ df', run (df, left) = .ok (df', left - cost) ∧
    HasKeys cfg df' ∧ ∀ x, cfg.Reachable x → ∀ y, y ∈ df'.get x ↔ y ∈ df.get x ∨ add x y
  limit : ∀ df left, HasKeys cfg df → left < cost → run (df, left) = .error iterationLimit

namespace Enters

variable {run run₁ run₂ : DominanceFrontier × Nat → Except TldrError (DominanceFrontier × Nat)}
  {cost cost₁ cost₂ : Nat} {add add₁ add₂ : Nat → Nat → Prop}

theorem pure : Enters cfg .ok 0 fun _ _ => False :=
  ⟨fun df _ hk _ => ⟨df, rfl, hk, by simp⟩, fun _ _ _ h => absurd h (Nat.not_lt_zero _)⟩

theorem bind (h₁ : Enters cfg run₁ cost₁ add₁) (h₂ : Enters cfg run₂ cost₂ add₂) :
    Enters cfg (fun state => run₁ state >>= run₂) (cost₁ + cost₂)
      fun x y => add₁ x y ∨ add₂ x y := by
  refine ⟨fun df left hk hle => ?_, fun df left hk hlt => ?_⟩
  · obtain ⟨df₁, hr₁, hk₁, ha₁⟩ := h₁.ok df left hk (by omega)
    obtain ⟨df₂, hr₂, hk₂, ha₂⟩ := h₂.ok df₁ (left - cost₁) hk₁ (by omega)
    refine ⟨df₂, ?_, hk₂, fun x hx y => ?_⟩
    · rw [hr₁, ← Nat.sub_sub]
      exact hr₂
    · rw [ha₂ x hx, ha₁ x hx, or_assoc]
  · rcases lt_or_ge left cost₁ with hlt₁ | hge₁
    · rw [h₁.limit df left hk hlt₁]
      rfl
    · obtain ⟨df₁, hr₁, hk₁, -⟩ := h₁.ok df left hk hge₁
      rw [hr₁]
      exact h₂.limit df₁ _ hk₁ (by omega)

theorem foldlM {ι : Type*} {f : DominanceFrontier × Nat → ι → Except TldrError _}
    {cost : ι → Nat} {add : ι → Nat → Nat → Prop} :
    ∀ l : List ι, (∀ i ∈ l, Enters cfg (f · i) (cost i) (add i)) →
      Enters cfg (l.foldlM f ·) (l.map cost).sum fun x y => ∃ i ∈ l, add i x y := by
  intro l
  induction l with
  | nil =>
    intro _
    simp only [List.foldlM_nil, List.map_nil, List.sum_nil, List.not_mem_nil, false_and,
      exists_false]
    exact .pure
  | cons i l ih =>
    intro h
    have hl := (h i List.mem_cons_self).bind (ih fun j hj => h j (List.mem_cons_of_mem _ hj))
    simpa using hl

end Enters

/-! ## One walk -/

theorem DominanceFrontier.get_insert (hx : (df.frontier x).isSome) :
    y ∈ (df.insert x t).get z ↔ y ∈ df.get z ∨ z = x ∧ y = t := by
  obtain ⟨dfSet, hs⟩ := Option.isSome_iff_exists.1 hx
  simp only [DominanceFrontier.insert, hs, DominanceFrontier.get]
  by_cases hz : z = x
  · subst hz
    simp [hs, or_comm]
  · simp [update, hz]

theorem HasKeys.insert (h : HasKeys cfg df) : HasKeys cfg (df.insert x t) := by
  intro b
  rw [DominanceFrontier.insert]
  cases hx : df.frontier x with
  | none => exact h b
  | some dfSet =>
    by_cases hbx : b = x
    · subst hbx
      simpa using (h b).1 (by rw [hx]; rfl)
    · simpa [update, hbx] using h b

theorem Enters.stop {run : DominanceFrontier × Nat → Except TldrError (DominanceFrontier × Nat)}
    (h₀ : ∀ df, run (df, 0) = .error iterationLimit)
    (h₁ : ∀ df left, run (df, left + 1) = .ok (df, left)) :
    Enters cfg run 1 fun _ _ => False := by
  refine ⟨fun df left hk hle => ⟨df, ?_, hk, by simp⟩, fun df left _ hlt => ?_⟩
  · obtain ⟨left, rfl⟩ := Nat.exists_eq_add_of_le' hle
    exact h₁ df left
  · obtain rfl : left = 0 := by omega
    exact h₀ df

theorem Enters.step
    {run run' : DominanceFrontier × Nat → Except TldrError (DominanceFrontier × Nat)}
    {cost : Nat} {add : Nat → Nat → Prop} (hx : cfg.Reachable x)
    (h₀ : ∀ df, run (df, 0) = .error iterationLimit)
    (h₁ : ∀ df left, run (df, left + 1) = run' (df.insert x t, left))
    (h : Enters cfg run' cost add) :
    Enters cfg run (cost + 1) fun z y => z = x ∧ y = t ∨ add z y := by
  refine ⟨fun df left hk hle => ?_, fun df left hk hlt => ?_⟩
  · obtain ⟨left, rfl⟩ := Nat.exists_eq_add_of_le' (Nat.one_le_iff_ne_zero.2 (by omega : left ≠ 0))
    obtain ⟨df', hr, hk', ha⟩ := h.ok (df.insert x t) left hk.insert (by omega)
    refine ⟨df', ?_, hk', fun z hz y => ?_⟩
    · rw [h₁, hr, Nat.add_sub_add_right]
    · rw [ha z hz, DominanceFrontier.get_insert ((hk x).2 hx), or_assoc]
  · cases left with
    | zero => exact h₀ df
    | succ left =>
      rw [h₁]
      exact h.limit _ left hk.insert (by omega)

/-- The blocks on the walk up from `x` below `s`. -/
def Below (cfg : CfgInfo) (s x z : Nat) : Prop := cfg.StrictlyDominates s z ∧ cfg.Dominates z x

theorem not_below_self (hs : cfg.Reachable s) : ¬ Below cfg s s z :=
  fun ⟨h₁, h₂⟩ => h₁.2 (h₁.1.antisymm h₂ hs)

theorem below_iff (hx : cfg.Reachable x) (hsx : cfg.StrictlyDominates s x) {d : Nat}
    (hd : IDom cfg.Edge cfg.entryBlock d x) : Below cfg s x z ↔ z = x ∨ Below cfg s d z := by
  rw [Below, Below, CfgInfo.Dominates, hd.dom_iff hx, and_or_left]
  refine or_congr_left ⟨And.right, ?_⟩
  rintro rfl
  exact ⟨hsx, rfl⟩

/-- Where the walk from the predecessor `p` of `y` stops, and the blocks it passes. -/
theorem exists_stop (hp : cfg.Reachable p) (he : cfg.Edge p y) :
    ∃ s, (s = y ∨ IDom cfg.Edge cfg.entryBlock s y) ∧ cfg.Dominates s p ∧ ∀ z, Below cfg s p z ↔
      cfg.Dominates z p ∧ ¬ cfg.StrictlyDominates z y ∧ z ≠ y := by
  have hy : cfg.Reachable y := hp.tail he
  by_cases hyp : cfg.Dominates y p
  · refine ⟨y, .inl rfl, hyp, fun z => ⟨fun ⟨h₁, h₂⟩ => ⟨h₂, fun h => ?_, h₁.2.symm⟩, ?_⟩⟩
    · exact h₁.2 (h₁.1.antisymm h.1 hy)
    · rintro ⟨h₁, h₂, h₃⟩
      rcases hyp.chain h₁ hp with h | h
      · exact ⟨⟨h, h₃.symm⟩, h₁⟩
      · exact absurd ⟨h, h₃⟩ h₂
  · have hye : y ≠ cfg.entryBlock := by
      rintro rfl
      exact hyp (.root p)
    obtain ⟨s, hs⟩ := exists_idom hy hye
    have hsp : cfg.Dominates s p := hs.1.1.pred hs.1.2 he
    refine ⟨s, .inr hs, hsp, fun z => ⟨fun ⟨h₁, h₂⟩ => ⟨h₂, fun h => ?_, ?_⟩, ?_⟩⟩
    · exact h₁.2 (h₁.1.antisymm (hs.2 z h) (hs.reach hy))
    · rintro rfl
      exact hyp h₂
    · rintro ⟨h₁, h₂, h₃⟩
      rcases hsp.chain h₁ hp with h | h
      · refine ⟨⟨h, ?_⟩, h₁⟩
        rintro rfl
        exact h₂ hs.1
      · exact absurd (SDom.dom_trans h hs.1 hy) h₂

namespace IsDominatorTree

variable (h : IsDominatorTree cfg tree)
include h

open Classical in
/-- The number of blocks on the walk up from `x` below `s`. -/
noncomputable def belowCount (_ : IsDominatorTree cfg tree) (s x : Nat) : Nat :=
  ((tree.nodes.map (·.blockId)).toFinset.filter fun z => Below cfg s x z).card

theorem belowCount_self (hs : cfg.Reachable s) : h.belowCount s s = 0 := by
  classical
  rw [belowCount, Finset.card_eq_zero]
  exact Finset.filter_false_of_mem fun z _ => not_below_self hs

theorem belowCount_idom {d : Nat} (hx : cfg.Reachable x) (hsx : cfg.StrictlyDominates s x)
    (hd : IDom cfg.Edge cfg.entryBlock d x) : h.belowCount s x = h.belowCount s d + 1 := by
  classical
  rw [belowCount, belowCount, ← Finset.card_insert_of_notMem (a := x)]
  · congr 1
    ext z
    rw [Finset.mem_insert, Finset.mem_filter, Finset.mem_filter, below_iff hx hsx hd,
      List.mem_toFinset, h.mem]
    constructor
    · rintro ⟨hz, rfl | hb⟩
      · exact .inl rfl
      · exact .inr ⟨hz, hb⟩
    · rintro (rfl | ⟨hz, hb⟩)
      · exact ⟨hx, .inl rfl⟩
      · exact ⟨hz, .inr hb⟩
  · rw [Finset.mem_filter]
    rintro ⟨-, -, hxd⟩
    exact hd.1.2 (hd.1.1.antisymm hxd (hd.reach hx))

theorem walkUp_spec (hy : cfg.Reachable y) (hs : s = y ∨ IDom cfg.Edge cfg.entryBlock s y) :
    ∀ n x, h.belowCount s x = n → cfg.Reachable x → cfg.Dominates s x →
      (∀ z, Below cfg s x z → z ≠ y ∧ ¬ IDom cfg.Edge cfg.entryBlock z y) →
      Enters cfg (fun state => walkUp tree y ((tree.get? y).bind (·.idom)) x state.1 state.2)
        (n + 1) fun z t => t = y ∧ Below cfg s x z := by
  have hstop : ∀ z, some z = (tree.get? y).bind (·.idom) ↔ IDom cfg.Edge cfg.entryBlock z y :=
    fun z => eq_comm.trans (h.get?_bind_idom hy)
  intro n
  induction n with
  | zero =>
    intro x hn hx hsx _
    have hxs : x = s := by
      by_contra hne
      obtain ⟨d, hd⟩ := exists_idom hx fun he =>
        hne (he.trans (dom_root_iff.1 (he ▸ hsx)).symm)
      rw [h.belowCount_idom hx ⟨hsx, Ne.symm hne⟩ hd] at hn
      omega
    subst hxs
    have hnone : (fun z t => t = y ∧ Below cfg x x z) = fun _ _ => False := by
      funext z t
      exact eq_false fun hb => not_below_self hx hb.2
    rw [hnone]
    refine .stop (fun _ => rfl) fun df left => ?_
    rw [walkUp]
    rcases hs with rfl | hs
    · simp
    · rw [if_pos ((hstop x).2 hs)]
  | succ n ih =>
    intro x hn hx hsx hns
    have hne : s ≠ x := by
      rintro rfl
      rw [h.belowCount_self hx] at hn
      omega
    obtain ⟨d, hd⟩ := exists_idom hx fun he => hne ((dom_root_iff.1 (he ▸ hsx)).trans he.symm)
    have hb : ∀ z, Below cfg s x z ↔ z = x ∨ Below cfg s d z :=
      fun z => below_iff hx ⟨hsx, hne⟩ hd
    have hrec := ih d (by have := h.belowCount_idom hx ⟨hsx, hne⟩ hd; omega) (hd.reach hx)
      (hd.2 s ⟨hsx, hne⟩) fun z hz => hns z ((hb z).2 (.inr hz))
    obtain ⟨hxy, hxi⟩ := hns x ((hb x).2 (.inl rfl))
    have hstep : Enters cfg
        (fun state => walkUp tree y ((tree.get? y).bind (·.idom)) x state.1 state.2) (n + 1 + 1)
        fun z t => z = x ∧ t = y ∨ t = y ∧ Below cfg s d z := by
      refine .step hx (fun _ => rfl) (fun df left => ?_) hrec
      rw [walkUp, if_neg fun he => hxi ((hstop x).1 he), if_neg hxy]
      simp only [(h.get?_bind_idom hx).2 hd]
    have hadd : (fun z t => z = x ∧ t = y ∨ t = y ∧ Below cfg s d z) =
        fun z t => t = y ∧ Below cfg s x z := by
      funext z t
      rw [hb]
      exact propext ⟨by tauto, by tauto⟩
    rwa [hadd] at hstep

theorem walkCost_eq (hp : cfg.Reachable p) (hy : cfg.Reachable y)
    (hs : ∀ z, Below cfg s p z ↔
      cfg.Dominates z p ∧ ¬ cfg.StrictlyDominates z y ∧ z ≠ y) :
    walkCost tree y p = h.belowCount s p + 1 := by
  classical
  have hfilter : (tree.nodes.filter fun node => tree.dominates node.blockId p &&
      (!tree.strictlyDominates node.blockId y && node.blockId != y)) =
      tree.nodes.filter fun node => Below cfg s p node.blockId := by
    refine List.filter_congr fun node _ => ?_
    rw [Bool.eq_iff_iff, decide_eq_true_iff, hs]
    simp only [Bool.and_eq_true, Bool.not_eq_true', bne_iff_ne, h.dominates_iff hp,
      ← Bool.not_eq_true, h.strictlyDominates_iff hy]
  have hcard : (tree.nodes.filter fun node => Below cfg s p node.blockId).length =
      ((tree.nodes.map (·.blockId)).filter fun z => Below cfg s p z).length := by
    rw [List.filter_map, List.length_map]
    rfl
  rw [walkCost, hfilter, hcard, belowCount, ← List.toFinset_card_of_nodup (h.nodup.filter _)]
  congr 2
  ext z
  simp

theorem predStep_spec (he : cfg.Edge p y) :
    Enters cfg (predStep tree y · p) (if (tree.get? p).isSome then walkCost tree y p else 0)
      fun z t => t = y ∧ cfg.Reachable p ∧ cfg.Dominates z p ∧ ¬ cfg.StrictlyDominates z y ∧
        z ≠ y := by
  by_cases hp : cfg.Reachable p
  · have hy : cfg.Reachable y := hp.tail he
    obtain ⟨s, hsy, hsp, hbelow⟩ := exists_stop hp he
    have hwalk := h.walkUp_spec hy hsy _ p rfl hp hsp fun z hz => by
      obtain ⟨-, h₂, h₃⟩ := (hbelow z).1 hz
      exact ⟨h₃, fun hi => h₂ hi.1⟩
    have hrun : (fun state => predStep tree y state p) =
        fun state => walkUp tree y ((tree.get? y).bind (·.idom)) p state.1 state.2 := by
      funext state
      rw [predStep, if_pos (h.get?_isSome.2 hp)]
    rw [hrun, if_pos (h.get?_isSome.2 hp), h.walkCost_eq hp hy hbelow]
    have hadd : (fun z t => t = y ∧ cfg.Reachable p ∧ cfg.Dominates z p ∧
        ¬ cfg.StrictlyDominates z y ∧ z ≠ y) = fun z t => t = y ∧ Below cfg s p z := by
      funext z t
      rw [hbelow]
      simp [hp]
    rwa [hadd]
  · have hnone : ¬ (tree.get? p).isSome = true := fun hs => hp (h.get?_isSome.1 hs)
    have hrun : (fun state => predStep tree y state p) = .ok := by
      funext state
      rw [predStep, if_neg hnone]
    have hadd : (fun z t => t = y ∧ cfg.Reachable p ∧ cfg.Dominates z p ∧
        ¬ cfg.StrictlyDominates z y ∧ z ≠ y) = fun _ _ => False := by
      funext z t
      simp [hp]
    rw [hrun, hadd, if_neg hnone]
    exact .pure

theorem joinStep_spec (block : CfgBlock) :
    Enters cfg (joinStep cfg tree · block) (joinCost cfg tree block.id)
      fun z t => ¬ (cfg.predecessors block.id).length < 2 ∧ ∃ p ∈ cfg.predecessors block.id,
        t = block.id ∧ cfg.Reachable p ∧ cfg.Dominates z p ∧
          ¬ cfg.StrictlyDominates z block.id ∧ z ≠ block.id := by
  by_cases hlen : (cfg.predecessors block.id).length < 2
  · have hrun : (joinStep cfg tree · block) = .ok := by
      funext state
      rw [joinStep, if_pos hlen]
    simp only [hrun, joinCost, hlen, ↓reduceIte, not_true_eq_false, false_and]
    exact .pure
  · have hrun : (joinStep cfg tree · block) =
        fun state => (cfg.predecessors block.id).foldlM (predStep tree block.id) state := by
      funext state
      rw [joinStep, if_neg hlen]
    simp only [hrun, joinCost, hlen, ↓reduceIte, not_false_eq_true, true_and]
    exact .foldlM _ fun p hp => h.predStep_spec (CfgInfo.mem_predecessors.1 hp)

/-- **What `computeDominanceFrontier` returns**, and when it does. -/
theorem computeDominanceFrontier_spec :
    (frontierCost cfg tree ≤ tree.nodes.length * tree.nodes.length → ∃ df,
      computeDominanceFrontier cfg tree = .ok df ∧ ∀ b y,
        (y ∈ df.get b ↔ y ∈ cfg.blockIds ∧ 2 ≤ (cfg.predecessors y).length ∧ b ≠ y ∧
          ∃ p, cfg.Reachable p ∧ cfg.Edge p y ∧ cfg.Dominates b p ∧
            ¬ cfg.StrictlyDominates b y)) ∧
    (tree.nodes.length * tree.nodes.length < frontierCost cfg tree →
      computeDominanceFrontier cfg tree = .error iterationLimit) := by
  have hrun := Enters.foldlM cfg.blocks fun block _ => h.joinStep_spec block
  have hkeys : HasKeys cfg ⟨fun block => if (tree.get? block).isSome then some [] else none⟩ := by
    intro b
    rw [← h.get?_isSome]
    by_cases hb : (tree.get? b).isSome <;> simp [hb]
  refine ⟨fun hle => ?_, fun hlt => ?_⟩
  · obtain ⟨df, hok, hkeys', hmem⟩ := hrun.ok _ _ hkeys hle
    refine ⟨df, ?_, fun b y => ?_⟩
    · simp only [computeDominanceFrontier, hok]
      rfl
    · by_cases hb : cfg.Reachable b
      swap
      · -- a block that is not reached dominates no predecessor
        have hnone : df.frontier b = none := by
          rw [← Option.not_isSome_iff_eq_none, hkeys' b]
          exact hb
        rw [DominanceFrontier.get, hnone]
        simp only [Option.getD_none, List.not_mem_nil, false_iff]
        rintro ⟨-, -, -, p, hp, -, hdom, -⟩
        exact hb (hdom.reach hp)
      rw [hmem b hb]
      have hempty : y ∉ DominanceFrontier.get
          ⟨fun block => if (tree.get? block).isSome then some [] else none⟩ b := by
        rw [DominanceFrontier.get]
        simp only [h.get?_isSome.2 hb, ↓reduceIte, Option.getD_some, List.not_mem_nil,
          not_false_eq_true]
      simp only [hempty, false_or, not_lt, CfgInfo.blockIds, List.mem_map,
        CfgInfo.mem_predecessors]
      constructor
      · rintro ⟨block, hbl, hlen, p, he, rfl, hp, hdom, hns, hne⟩
        exact ⟨⟨block, hbl, rfl⟩, hlen, hne, p, hp, he, hdom, hns⟩
      · rintro ⟨⟨block, hbl, rfl⟩, hlen, hne, p, hp, he, hdom, hns⟩
        exact ⟨block, hbl, hlen, p, he, rfl, hp, hdom, hns, hne⟩
  · simp only [computeDominanceFrontier, hrun.limit _ _ hkeys hlt]
    rfl

end IsDominatorTree

/-! ## When the frontiers are exact -/

/-- A member of a frontier has a second edge into it, unless it dominates the source of the
first. -/
theorem two_le_predecessors (hp : cfg.Reachable p) (he : cfg.Edge p y) (hpy : cfg.Dominates b p)
    (hns : ¬ cfg.StrictlyDominates b y) (hyp : ¬ cfg.Dominates y p) :
    2 ≤ (cfg.predecessors y).length := by
  by_contra hlen
  have hmem := CfgInfo.mem_predecessors.2 he
  have hone : cfg.predecessors y = [p] := by
    obtain ⟨a, ha⟩ := List.length_eq_one_iff.1
      (show (cfg.predecessors y).length = 1 by have := List.length_pos_of_mem hmem; omega)
    rw [ha, List.mem_singleton] at hmem
    rw [ha, hmem]
  have hdom : cfg.Dominates p y := by
    intro l w
    obtain ⟨t, rfl⟩ := w.eq_concat
    by_cases ht : t = []
    · subst ht
      have hye : y = cfg.entryBlock := by simpa using w.head
      exact absurd (hye ▸ Dom.root p) hyp
    · obtain ⟨q, wq, hq⟩ := w.exists_last_step ht
      have hqp := CfgInfo.mem_predecessors.2 hq
      rw [hone, List.mem_singleton] at hqp
      exact List.mem_append_left _ (hqp ▸ wq.last_mem)
  have hpy' : p ≠ y := by
    rintro rfl
    exact hyp (.refl p)
  exact hns (SDom.dom_trans hpy ⟨hdom, hpy'⟩ (hp.tail he))

/-- **The frontiers are those of the definition** exactly where no edge from a reachable block
goes back to a declared block that dominates it, and the walks stay within the limit. -/
theorem computeDominanceFrontier_exact_iff (cfg : CfgInfo) :
    (∃ tree df, buildDominatorTree cfg = .ok tree ∧ computeDominanceFrontier cfg tree = .ok df ∧
      ∀ b, cfg.Reachable b → ∀ y, y ∈ df.get b ↔ InFrontier cfg b y) ↔
    (∀ p y, cfg.Reachable p → cfg.Edge p y → y ∈ cfg.blockIds → ¬ cfg.Dominates y p) ∧
    ∃ tree, buildDominatorTree cfg = .ok tree ∧
      frontierCost cfg tree ≤ tree.nodes.length * tree.nodes.length := by
  constructor
  · rintro ⟨tree, df, htree, hdf, hmem⟩
    have h := isDominatorTree_of_ok htree
    obtain ⟨hok, herr⟩ := h.computeDominanceFrontier_spec
    have hcost : frontierCost cfg tree ≤ tree.nodes.length * tree.nodes.length := by
      by_contra hlt
      rw [herr (not_le.1 hlt)] at hdf
      cases hdf
    refine ⟨fun p y hp he hy hyp => ?_, tree, htree, hcost⟩
    obtain ⟨df', hdf', hmem'⟩ := hok hcost
    obtain rfl : df = df' := Except.ok.inj (hdf.symm.trans hdf')
    have hry := hp.tail he
    -- the join point that dominates `p` belongs in its own frontier
    have hin := (hmem y hry y).2 ⟨hy, p, hp, he, hyp, SDom.irrefl⟩
    exact ((hmem' y y).1 hin).2.2.1 rfl
  · rintro ⟨hback, tree, htree, hcost⟩
    obtain ⟨df, hdf, hmem⟩ := (isDominatorTree_of_ok htree).computeDominanceFrontier_spec.1 hcost
    refine ⟨tree, df, htree, hdf, fun b hb y => (hmem b y).trans ⟨?_, ?_⟩⟩
    · rintro ⟨hy, -, -, hp⟩
      exact ⟨hy, hp⟩
    · rintro ⟨hy, p, hp, he, hdom, hns⟩
      have hyp := hback p y hp he hy
      refine ⟨hy, two_le_predecessors hp he hdom hns hyp, ?_, p, hp, he, hdom, hns⟩
      rintro rfl
      exact hyp hdom

def whileCfg : CfgInfo where
  function := "f"
  blocks := [⟨0, 1, 1⟩, ⟨1, 2, 2⟩, ⟨2, 3, 3⟩, ⟨3, 4, 4⟩]
  edges := [⟨0, 1⟩, ⟨1, 2⟩, ⟨1, 3⟩, ⟨2, 1⟩]
  entryBlock := 0
  exitBlocks := [3]

theorem whileCfg_wellFormed : whileCfg.WellFormed :=
  ⟨by decide, by decide, by decide, by decide⟩

theorem whileCfg_edge {a b : Nat} (h : ⟨a, b⟩ ∈ whileCfg.edges) : whileCfg.Edge a b :=
  ⟨_, h, rfl, rfl⟩

/-- The second round of the loop. -/
theorem whileCfg_walk : Walk whileCfg.Edge 0 1 ([0, 1, 2] ++ [1]) :=
  (((Walk.single 1).cons (whileCfg_edge (by decide))).cons (whileCfg_edge (by decide))).cons
    (whileCfg_edge (by decide))

/-- The header of a while loop is missing from its own frontier. -/
theorem computeDominanceFrontier_header_missing :
    ¬ ∀ cfg : CfgInfo, ∀ tree, buildDominatorTree cfg = .ok tree → ∃ df,
      computeDominanceFrontier cfg tree = .ok df ∧
        ∀ b, cfg.Reachable b → ∀ y, y ∈ df.get b ↔ InFrontier cfg b y := by
  intro hall
  obtain ⟨tree, htree, h⟩ := @buildDominatorTree_spec whileCfg (by decide)
  obtain ⟨df, hdf, hmem⟩ := hall whileCfg tree htree
  obtain ⟨hok, herr⟩ := h.computeDominanceFrontier_spec
  have h₁ : whileCfg.Reachable 1 := .edge ⟨⟨0, 1⟩, by decide, rfl, rfl⟩
  have h₂ : whileCfg.Reachable 2 := h₁.tail ⟨⟨1, 2⟩, by decide, rfl, rfl⟩
  have hdom : whileCfg.Dominates 1 2 := by
    refine (h.dominates_iff h₂).1 ?_
    have heval : (buildDominatorTree whileCfg).toOption.map (·.dominates 1 2) = some true := by
      decide +kernel
    rw [htree] at heval
    exact Option.some_inj.1 heval
  have hin : 1 ∈ df.get 1 := (hmem 1 h₁ 1).2
    ⟨by decide, 2, h₂, ⟨⟨2, 1⟩, by decide, rfl, rfl⟩, hdom, SDom.irrefl⟩
  rcases le_or_gt (frontierCost whileCfg tree) (tree.nodes.length * tree.nodes.length)
    with hle | hlt
  · obtain ⟨df', hdf', hmem'⟩ := hok hle
    obtain rfl : df = df' := Except.ok.inj (hdf.symm.trans hdf')
    exact ((hmem' 1 1).1 hin).2.2.1 rfl
  · rw [herr hlt] at hdf
    cases hdf

end TldrCode.Ssa
