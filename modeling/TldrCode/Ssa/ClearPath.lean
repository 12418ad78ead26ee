import TldrCode.Ssa.PhiPlacement
import TldrCode.Ssa.StrictForm

/-!
# Definition-clear paths and lost steps

Renaming looks a variable up along the dominator tree; a program looks it up along the path it
took. Both agree on a step from `p` to `b` unless the step is `Lost`: some block on the way up
from `p` to the immediate dominator of `b` names the variable, and `b` has no phi function for it
(`SsaShape.cur_eq_out`). A lost step matters only where the variable is live (`LiveIn`): where a
use that the construction records is reached before the next definition.
-/

namespace TldrCode.Ssa

open TldrCode.Graph

variable {cfg : CfgInfo} {dfg : DfgInfo} {ctx : SsaRenamingContext}
  {placements : Nat → List String} {ssa : SsaFunction} {N : Naming} {v : String}
  {b c p s x k : Nat}

/-! ## Recorded uses and live variables -/

/-- The instruction for the definition number `k` of the block `c` records a use of `v`: the
definition is an update of `v`, or there is a use of `v` on its line. -/
def RecordsUse (cfg : CfgInfo) (dfg : DfgInfo) (c k : Nat) (v : String) : Prop :=
  ∃ d, (blockDefs cfg dfg c)[k]? = some d ∧ (d.refType = .update ∧ d.name = v ∨
    d.name ≠ v ∧ ∃ r ∈ dfg.refs, r.line = d.line ∧ r.name = v ∧ r.refType = .use ∧
      lineToBlock cfg r.line = some c)

/-- A path leads from the start of `b` to the definition number `k` of `c` without a definition of
`v` on it. -/
def ClearPath (cfg : CfgInfo) (dfg : DfgInfo) (v : String) (b c k : Nat) : Prop :=
  ∃ l, Walk cfg.Edge b c (l ++ [c]) ∧ (∀ x ∈ l, ¬ DefinesIn cfg dfg v x) ∧
    v ∉ ((blockDefs cfg dfg c).take k).map (·.name)

/-- A recorded use of `v` is reached from the start of `b` before `v` is defined. -/
def LiveIn (cfg : CfgInfo) (dfg : DfgInfo) (v : String) (b : Nat) : Prop :=
  ∃ c k, RecordsUse cfg dfg c k v ∧ ClearPath cfg dfg v b c k

theorem LiveIn.of_edge (h : LiveIn cfg dfg v b) (he : cfg.Edge p b)
    (hp : ¬ DefinesIn cfg dfg v p) : LiveIn cfg dfg v p := by
  obtain ⟨c, k, hu, l, w, hl, hk⟩ := h
  refine ⟨c, k, hu, p :: l, w.cons he, ?_, hk⟩
  simpa using ⟨hp, hl⟩

theorem LiveIn.of_use (hu : RecordsUse cfg dfg b k v)
    (hk : v ∉ ((blockDefs cfg dfg b).take k).map (·.name)) : LiveIn cfg dfg v b :=
  ⟨b, k, hu, [], .single b, by simp, hk⟩

/-- The step from `p` to `b` loses `v`, which has its phi functions at the blocks `hasPhi`: `b` has
no phi function for it, but some dominator of `p` that does not strictly dominate `b` defines it
or has one. -/
structure Lost (cfg : CfgInfo) (dfg : DfgInfo) (hasPhi : String → Nat → Prop) (v : String)
    (p b : Nat) : Prop where
  reachable : cfg.Reachable p
  edge : cfg.Edge p b
  notMem : ¬ hasPhi v b
  named : ∃ x, cfg.Dominates x p ∧ ¬ cfg.StrictlyDominates x b ∧
    (DefinesIn cfg dfg v x ∨ hasPhi v x)

/-! ## Names up the dominator tree -/

theorem mem_blockVars :
    v ∈ blockVars ctx placements c ↔ DefinesIn ctx.cfg ctx.dfg v c ∨ v ∈ placements c := by
  rw [blockVars, List.mem_append, mem_blockDefs]
  exact or_comm

theorem visited_of_reachable (hcfg : ctx.cfg.WellFormed)
    (htree : IsDominatorTree ctx.cfg ctx.domTree) (hc : ctx.cfg.Reachable c) : ctx.Visited c := by
  induction hn : htree.sdomCount c using Nat.strong_induction_on generalizing c with
  | _ n ih =>
    by_cases he : c = ctx.cfg.entryBlock
    · exact he ▸ .self hcfg.entry_mem
    · obtain ⟨d, hd⟩ := exists_idom hc he
      have hlt : htree.sdomCount d < n := hn ▸ htree.sdomCount_lt hc hd.sdom
      exact .child (ih _ hlt (hd.reach hc) rfl) hd hc (hcfg.reachable_mem hc)

theorem Naming.out_of_notMem (h : v ∉ blockVars ctx placements c) :
    N.out ctx placements c v = N.cur c v := namesFrom_of_notMem h

namespace SsaShape

variable (h : SsaShape ctx placements ssa N)
include h

/-- The name of `v` at the end of `p` is the one at the end of a dominator `s`, if no block below
`s` on the way up from `p` names `v`. -/
theorem out_eq_out (hp : ctx.Visited p) (hs : ctx.cfg.Dominates s p)
    (hnone : ∀ x, ctx.cfg.Dominates x p → ctx.cfg.StrictlyDominates s x →
      v ∉ blockVars ctx placements x) :
    N.out ctx placements p v = N.out ctx placements s v := by
  induction hp with
  | self hb => rw [dom_root_iff.1 hs]
  | @child c d hd hi hr hc ih =>
    by_cases hsc : s = c
    · rw [hsc]
    · have hsd : ctx.cfg.Dominates s d := hi.2 s ⟨hs, hsc⟩
      have hcur := h.cur_child c d (.child hd hi hr hc) hd hi
      rw [Naming.out_of_notMem (hnone c (.refl c) ⟨hs, hsc⟩), hcur]
      exact ih hsd fun x hx hsx => hnone x (hx.trans hi.1.1) hsx

/-- **A step that is not lost** carries the name of `v` over, or enters a phi function for it. -/
theorem cur_eq_out (hp : ctx.Visited p) (hb : ctx.Visited b) (he : ctx.cfg.Edge p b)
    (hphi : v ∉ placements b) (hlost : ¬ Lost ctx.cfg ctx.dfg (fun v b => v ∈ placements b) v p b) :
    N.cur b v = N.out ctx placements p v := by
  have hrp : ctx.cfg.Reachable p := hp.reachable (.refl _)
  have hnone : ∀ x, ctx.cfg.Dominates x p → ¬ ctx.cfg.StrictlyDominates x b →
      v ∉ blockVars ctx placements x := fun x hx hxb hv =>
    hlost ⟨hrp, he, hphi, x, hx, hxb, mem_blockVars.1 hv⟩
  cases hb with
  | self hb =>
    rw [h.cur_entry (.self hb)]
    cases hout : N.out ctx placements p v with
    | none => rfl
    | some id =>
      obtain ⟨d, -, hd, i, hi, -⟩ := h.out_spec hp hout
      exact absurd (List.mem_of_getElem? hi) (hnone d hd not_sdom_root)
  | @child b d hd hi hr hb =>
    rw [h.cur_child b d (.child hd hi hr hb) hd hi]
    have hdp : ctx.cfg.Dominates d p := hi.1.1.pred hi.1.2 he
    refine (h.out_eq_out hp hdp fun x hx hdx => hnone x hx fun hxb => ?_).symm
    exact hdx.2 (hdx.1.antisymm (hi.2 x hxb) (hi.reach hr))

end SsaShape

end TldrCode.Ssa
