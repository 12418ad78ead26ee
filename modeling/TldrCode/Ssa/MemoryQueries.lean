import TldrCode.Ssa.MemoryReaching

/-!
# Queries of memory SSA

`get_reaching_defs_for_use` and `get_uses_for_def` of `ssa/memory.rs` compare versions, and a phi
function is no definition. The definitions of a use are right if and only if all that reach it from
outside of its block lie in blocks that strictly dominate it (`queriesExact_iff`).
-/

namespace TldrCode.Ssa

open TldrCode.Graph

def getReachingDefsForUse (ms : MemorySsa) (use : MemoryUse) : List MemoryDef :=
  ms.memoryDefs.filter (·.version = use.version)

def getUsesForDef (ms : MemorySsa) (d : MemoryDef) : List MemoryUse :=
  ms.memoryUses.filter (·.version = d.version)

variable {cfg : CfgInfo} {memoryOps : List MemoryOp} {ms : MemorySsa} {path q m : List Nat}
  {site : Nat × Nat} {a b c d k p x y : Nat}

/-- The definition is the last one executed on a path to the operation number `k` of the block
`b`. -/
def ReachesMemoryUse (cfg : CfgInfo) (memoryOps : List MemoryOp) (ms : MemorySsa) (d : MemoryDef)
    (b k : Nat) : Prop :=
  ∃ path c j, Walk cfg.Edge cfg.entryBlock b (path ++ [b]) ∧
    lastDefFrom memoryOps (lastDefOn memoryOps path) b k = some (c, j) ∧
    ms.defAt memoryOps c j = some d

/-- The queries give the definitions that reach a use, and the uses of a definition. -/
structure QueriesExact (cfg : CfgInfo) (memoryOps : List MemoryOp) (ms : MemorySsa) : Prop where
  defs : ∀ b k op use, cfg.Reachable b → (opsIn memoryOps b)[k]? = some op → op.Reads →
    ms.useAt memoryOps b k = some use → ∀ d ∈ ms.memoryDefs,
      d ∈ getReachingDefsForUse ms use ↔ ReachesMemoryUse cfg memoryOps ms d b k
  uses : ∀ d ∈ ms.memoryDefs, ∀ use ∈ ms.memoryUses,
    use ∈ getUsesForDef ms d ↔ d ∈ getReachingDefsForUse ms use

/-- A definition is executed last on a path to the start of a block. -/
def ReachesBlock (cfg : CfgInfo) (memoryOps : List MemoryOp) (b : Nat) (site : Nat × Nat) : Prop :=
  ∃ path, Walk cfg.Edge cfg.entryBlock b (path ++ [b]) ∧ lastDefOn memoryOps path = some site

theorem lastDef_cases (memoryOps : List MemoryOp) (path : List Nat) :
    (∃ p₁ c p₂ j, path = p₁ ++ c :: p₂ ∧ (∀ y ∈ p₂, ¬ DefinesMemory memoryOps y) ∧
      lastWrite (opsIn memoryOps c) (opsIn memoryOps c).length = some j ∧ ∀ site,
        path.foldl (fun site c => lastDefFrom memoryOps site c (opsIn memoryOps c).length) site =
          some (c, j)) ∨
    (∀ c ∈ path, ¬ DefinesMemory memoryOps c) ∧ ∀ site,
      path.foldl (fun site c => lastDefFrom memoryOps site c (opsIn memoryOps c).length) site =
        site := by
  induction path using List.reverseRecOn with
  | nil => exact .inr ⟨by simp, fun _ => rfl⟩
  | append_singleton path c ih =>
    cases hj : lastWrite (opsIn memoryOps c) (opsIn memoryOps c).length with
    | some j =>
      refine .inl ⟨path, c, [], j, rfl, by simp, hj, fun site => ?_⟩
      rw [List.foldl_concat, lastDefFrom, hj]
    | none =>
      have hdef : ¬ DefinesMemory memoryOps c := by
        rw [definesMemory_iff, hj]
        simp
      have hconcat : ∀ site, (path ++ [c]).foldl
          (fun site c => lastDefFrom memoryOps site c (opsIn memoryOps c).length) site = path.foldl
          (fun site c => lastDefFrom memoryOps site c (opsIn memoryOps c).length) site := by
        intro site
        rw [List.foldl_concat, lastDefFrom, hj]
      simp only [hconcat]
      rcases ih with ⟨p₁, c', p₂, j, rfl, hnone, hlast, hfold⟩ | ⟨hnone, hfold⟩
      · refine .inl ⟨p₁, c', p₂ ++ [c], j, by simp, fun y hy => ?_, hlast, hfold⟩
        rcases List.mem_append.1 hy with hy | hy
        · exact hnone y hy
        · exact List.mem_singleton.1 hy ▸ hdef
      · refine .inr ⟨fun y hy => ?_, hfold⟩
        rcases List.mem_append.1 hy with hy | hy
        · exact hnone y hy
        · exact List.mem_singleton.1 hy ▸ hdef

/-- A path that goes on has a definition on the rest, or what reached its middle reaches its end. -/
theorem reachesBlock_through (hq : Walk cfg.Edge cfg.entryBlock a (q ++ [a]))
    (hm : Walk cfg.Edge a b (m ++ [b])) :
    (∃ c ∈ m, ∃ j, ReachesBlock cfg memoryOps b (c, j)) ∨
    (∀ c ∈ m, ¬ DefinesMemory memoryOps c) ∧
      ∀ site, lastDefOn memoryOps q = some site → ReachesBlock cfg memoryOps b site := by
  have hw : Walk cfg.Edge cfg.entryBlock b ((q ++ m) ++ [b]) := by
    obtain ⟨t, ht⟩ := hm.eq_cons
    rw [List.append_assoc, ht]
    exact hq.append (ht ▸ hm)
  rcases lastDef_cases memoryOps m with ⟨p₁, c, p₂, j, rfl, -, -, hfold⟩ | ⟨hnone, hfold⟩
  · refine .inl ⟨c, by simp, j, _, hw, ?_⟩
    rw [lastDefOn, List.foldl_append, hfold]
  · refine .inr ⟨hnone, fun site hsite => ⟨_, hw, ?_⟩⟩
    rw [lastDefOn, List.foldl_append, hfold]
    exact hsite

theorem ReachesBlock.definesMemory (h : ReachesBlock cfg memoryOps b (c, k)) :
    cfg.Reachable c ∧ lastWrite (opsIn memoryOps c) (opsIn memoryOps c).length = some k ∧
      ∃ p₁ p₂, Walk cfg.Edge cfg.entryBlock b (p₁ ++ c :: (p₂ ++ [b])) ∧
        ∀ y ∈ p₂, ¬ DefinesMemory memoryOps y := by
  obtain ⟨path, hw, hlast⟩ := h
  rcases lastDef_cases memoryOps path with ⟨p₁, c', p₂, j, rfl, hnone, hj, hfold⟩ | ⟨-, hfold⟩
  · obtain ⟨rfl, rfl⟩ := Prod.mk.inj (Option.some_inj.1 ((hfold none).symm.trans hlast))
    refine ⟨hw.reach_of_mem (by simp), hj, p₁, p₂, ?_, hnone⟩
    simpa using hw
  · exact nomatch (hfold none).symm.trans hlast

/-! ## What reaches a phi function -/

/-- Something that reaches a block also reaches its frontier, or is overtaken on the way. -/
theorem exists_reachesBlock_of_frontier (hx : JoinFrontier cfg y x)
    (hy : DefinesMemory memoryOps y ∨
      ∃ c j, ReachesBlock cfg memoryOps y (c, j) ∧ ¬ cfg.StrictlyDominates c y) :
    ∃ c j, ReachesBlock cfg memoryOps x (c, j) ∧ ¬ cfg.StrictlyDominates c x := by
  obtain ⟨-, -, -, p, hp, he, hyp, hyx⟩ := hx
  have hx : cfg.Reachable x := hp.tail he
  obtain ⟨l, hl, hbelow⟩ := hyp.exists_walk hp
  have hover : ∀ c ∈ y :: l, ¬ cfg.StrictlyDominates c x := by
    intro c hc hcx
    rcases List.mem_cons.1 hc with rfl | hc
    · exact hyx hcx
    · exact hyx (SDom.dom_trans (hbelow c hc).1 hcx hx)
  rcases hy with hdef | ⟨c, j, ⟨q, hq, hlast⟩, hcy⟩
  · obtain ⟨t, ht⟩ := hyp.reach hp
    obtain ⟨q, rfl⟩ := ht.eq_concat
    rcases reachesBlock_through ht (hl.concat he) with ⟨c, hc, j, hr⟩ | ⟨hnone, -⟩
    · exact ⟨c, j, hr, hover c hc⟩
    · exact absurd hdef (hnone y List.mem_cons_self)
  · rcases reachesBlock_through hq (hl.concat he) with ⟨c, hc, j, hr⟩ | ⟨-, hpass⟩
    · exact ⟨c, j, hr, hover c hc⟩
    · refine ⟨c, j, hpass _ hlast, fun hcx => ?_⟩
      rcases Dom.chain (hcx.1.pred hcx.2 he) hyp hp with hdom | hdom
      · by_cases heq : c = y
        · exact hyx (heq ▸ hcx)
        · exact hcy ⟨hdom, heq⟩
      · exact hyx (SDom.dom_trans hdom hcx hx)

theorem exists_reachesBlock_of_phi (hx : MemoryPhiAt cfg memoryOps x) :
    ∃ c j, ReachesBlock cfg memoryOps x (c, j) ∧ ¬ cfg.StrictlyDominates c x := by
  induction hx with
  | definition hdef hy => exact exists_reachesBlock_of_frontier hy (.inl hdef)
  | phi _ hy ih => exact exists_reachesBlock_of_frontier hy (.inr ih)

/-- **Below a phi function** a definition arrives that does not dominate. -/
theorem exists_reachesBlock_below (hb : cfg.Reachable b) (hxb : cfg.Dominates x b)
    (hphi : MemoryPhiAt cfg memoryOps x) (hnone : ∀ y, cfg.Dominates x y →
      cfg.StrictlyDominates y b → ¬ DefinesMemory memoryOps y) :
    ∃ c j, ReachesBlock cfg memoryOps b (c, j) ∧ ¬ cfg.StrictlyDominates c b := by
  obtain ⟨c, j, hr, hcx⟩ := exists_reachesBlock_of_phi hphi
  obtain ⟨q, hq, hlast⟩ := hr
  obtain ⟨l, hl, hbelow⟩ := hxb.exists_walk hb
  have hdom : ∀ y ∈ x :: l, cfg.Dominates x y := by
    intro y hy
    rcases List.mem_cons.1 hy with rfl | hy
    · exact .refl y
    · exact (hbelow y hy).1
  obtain ⟨m, hm⟩ := hl.eq_concat
  rw [hm] at hl hdom
  rcases reachesBlock_through hq hl with ⟨c', hc', j', hr'⟩ | ⟨-, hpass⟩
  · refine ⟨c', j', hr', fun hcb => ?_⟩
    refine hnone c' (hdom c' (List.mem_append_left _ hc')) hcb ?_
    exact definesMemory_iff.2 ⟨j', hr'.definesMemory.2.1⟩
  · have hr := hpass _ hlast
    refine ⟨c, j, hr, fun hcb => ?_⟩
    rcases Dom.chain hcb.1 hxb hb with hdom | hdom
    · by_cases heq : c = x
      · subst heq
        exact hnone c (.refl c) hcb (definesMemory_iff.2 ⟨j, hr.definesMemory.2.1⟩)
      · exact hcx ⟨hdom, heq⟩
    · exact hnone c hdom hcb (definesMemory_iff.2 ⟨j, hr.definesMemory.2.1⟩)

/-- Of the definitions in dominating blocks the closest one alone can reach a block. -/
theorem ReachesBlock.eq_closest {j i : Nat} (hr : ReachesBlock cfg memoryOps b (c, i))
    (hcb : cfg.StrictlyDominates c b) (hdb : cfg.StrictlyDominates d b) (hb : cfg.Reachable b)
    (hj : lastWrite (opsIn memoryOps d) (opsIn memoryOps d).length = some j)
    (hnone : ∀ y, cfg.StrictlyDominates d y → cfg.StrictlyDominates y b →
      ¬ DefinesMemory memoryOps y) : (c, i) = (d, j) := by
  obtain ⟨hc, hi, p₁, p₂, hw, hlater⟩ := hr.definesMemory
  by_cases heq : c = d
  · subst heq
    rw [Option.some_inj.1 (hi.symm.trans hj)]
  · exfalso
    rcases Dom.chain hcb.1 hdb.1 hb with hdom | hdom
    · -- a path to `c` that avoids `d` goes on to `b` without it
      have hnot : ¬ cfg.Dominates d c := fun hdc => heq (hdom.antisymm hdc hc)
      simp only [CfgInfo.Dominates, Dom, not_forall] at hnot
      obtain ⟨l, hl, hdl⟩ := hnot
      obtain ⟨q, rfl⟩ := hl.eq_concat
      have hmem := hdb.1 _ (hl.append (Walk.split_iff.1 hw).2)
      have hdef : DefinesMemory memoryOps d := definesMemory_iff.2 ⟨j, hj⟩
      have hne := hdb.2
      simp only [List.mem_append, List.mem_cons, List.not_mem_nil, or_false] at hmem hdl
      tauto
    · exact hnone c ⟨hdom, Ne.symm heq⟩ hcb (definesMemory_iff.2 ⟨i, hi⟩)

namespace MemoryShape

variable {cur out : Nat → Nat} (h : MemoryShape cfg memoryOps ms cur out)
include h

/-- The version at the start of a block comes from the closest dominator that has a phi function or
a definition. -/
theorem cur_cases (hb : cfg.Reachable b) :
    (∃ x, cfg.Dominates x b ∧ MemoryPhiAt cfg memoryOps x ∧
      (∃ phi ∈ ms.memoryPhis, phi.result = cur b) ∧
      ∀ y, cfg.Dominates x y → cfg.StrictlyDominates y b → ¬ DefinesMemory memoryOps y) ∨
    (∃ d j, cfg.StrictlyDominates d b ∧
      lastWrite (opsIn memoryOps d) (opsIn memoryOps d).length = some j ∧
      cur b = ms.versionAt memoryOps (some (d, j)) ∧ ∀ y, cfg.StrictlyDominates d y →
        cfg.StrictlyDominates y b → ¬ DefinesMemory memoryOps y) ∨
    cur b = 0 ∧ ∀ y, cfg.StrictlyDominates y b → ¬ DefinesMemory memoryOps y := by
  obtain ⟨l, hl⟩ := hb
  induction hn : l.length using Nat.strong_induction_on generalizing b l with
  | _ n ih =>
    have hb : cfg.Reachable b := ⟨l, hl⟩
    by_cases hphi : MemoryPhiAt cfg memoryOps b
    · obtain ⟨phi, hm, -, hr⟩ := h.cur_phi b hphi
      exact .inl ⟨b, .refl b, hphi, ⟨phi, hm, hr⟩, fun y hby hyb =>
        absurd (hyb.1.antisymm hby (hyb.1.reach hb)) hyb.2⟩
    by_cases hentry : b = cfg.entryBlock
    · subst hentry
      exact .inr (.inr ⟨h.cur_entry hphi, fun y hy => absurd hy not_sdom_root⟩)
    obtain ⟨d, hd⟩ := exists_idom hb hentry
    have hdr : cfg.Reachable d := hd.reach hb
    rw [h.cur_child b d hb hphi hd, h.out_eq_match hdr]
    cases hj : lastWrite (opsIn memoryOps d) (opsIn memoryOps d).length with
    | some j =>
      exact .inr (.inl ⟨d, j, hd.1, hj, rfl, fun y hdy hyb =>
        absurd (hdy.1.antisymm (hd.2 y hyb) hdr) hdy.2⟩)
    | none =>
      have hdef : ¬ DefinesMemory memoryOps d := by
        rw [definesMemory_iff, hj]
        simp
      -- a strict dominator of `b` is `d` or a strict dominator of `d`
      have hup : ∀ y, cfg.StrictlyDominates y b → y = d ∨ cfg.StrictlyDominates y d :=
        fun y hy => or_iff_not_imp_left.2 fun hne => ⟨hd.2 y hy, hne⟩
      have hskip : ∀ {P : Nat → Prop}, (∀ y, P y → cfg.StrictlyDominates y d →
          ¬ DefinesMemory memoryOps y) → ∀ y, P y → cfg.StrictlyDominates y b →
            ¬ DefinesMemory memoryOps y := by
        intro P hP y hy hyb
        rcases hup y hyb with rfl | hyd
        · exact hdef
        · exact hP y hy hyd
      obtain ⟨l₁, l₂, rfl, w₁, w₂⟩ := hl.of_mem (hd.1.1 l hl)
      have hl₂ : l₂ ≠ [] := by
        rintro rfl
        exact hd.1.2 (by simpa using w₂.last)
      have hlt : (l₁ ++ [d]).length < n := by
        have := List.length_pos_iff.2 hl₂
        simp only [List.length_append, List.length_cons, List.length_nil] at hn ⊢
        omega
      rcases ih _ hlt _ w₁ rfl with ⟨x, hxd, hx, hres, hnone⟩ | ⟨e, j, hed, he, hcur, hnone⟩ |
        ⟨hcur, hnone⟩
      · exact .inl ⟨x, hxd.trans hd.1.1, hx, hres, hskip hnone⟩
      · exact .inr (.inl ⟨e, j, hed.trans_dom hd.1.1 hb, he, hcur, hskip hnone⟩)
      · exact .inr (.inr ⟨hcur,
          fun y hy => hskip (P := fun _ => True) (fun y _ => hnone y) y trivial hy⟩)

theorem version_eq_iff {j : Nat} (hs : IsSite cfg memoryOps (some (c, j))) {d : MemoryDef}
    (hd : d ∈ ms.memoryDefs) :
    d.version = ms.versionAt memoryOps (some (c, j)) ↔ ms.defAt memoryOps c j = some d := by
  obtain ⟨hc, op, hop, hw⟩ := hs c j rfl
  obtain ⟨d', hd', -⟩ := ((h.recorded c hc).getElem? hop).2 hw
  have hat : ms.defAt memoryOps c j = some d' := hd'
  have hmem : d' ∈ ms.memoryDefs := (List.mem_filter.1 (List.mem_of_getElem? hd')).1
  have hinj := List.inj_on_of_nodup_map
    (List.nodup_append.1 (List.nodup_cons.1 h.distinct).2).2.1
  simp only [MemorySsa.versionAt, hat, Option.map_some, Option.getD_some, Option.some_inj]
  exact ⟨fun heq => (hinj hd hmem heq).symm, fun heq => heq ▸ rfl⟩

/-- **The version of an operation** is the one of the definitions that reach it exactly if those
from outside of its block dominate it strictly. -/
theorem version_exact_iff (hb : cfg.Reachable b) (hk : k ≤ (opsIn memoryOps b).length) :
    (∀ d ∈ ms.memoryDefs, d.version = versionAfter ((ms.defsIn b).take
      (((opsIn memoryOps b).take k).countP (·.Writes))) (cur b) ↔
        ReachesMemoryUse cfg memoryOps ms d b k) ↔
    (lastWrite (opsIn memoryOps b) k = none → ∀ c j, ReachesBlock cfg memoryOps b (c, j) →
      cfg.StrictlyDominates c b) := by
  have hsite : ∀ {c j}, ReachesBlock cfg memoryOps b (c, j) →
      IsSite cfg memoryOps (some (c, j)) := fun hr =>
    isSite_of_lastWrite hr.definesMemory.1 hr.definesMemory.2.1
  rw [h.versionAt_lastDefFrom hb hk]
  obtain ⟨l, hl⟩ := hb
  have hb : cfg.Reachable b := ⟨l, hl⟩
  cases hj : lastWrite (opsIn memoryOps b) k with
  | some j =>
    refine iff_of_true (fun d hd => ?_) (fun hnone => nomatch hnone)
    dsimp only
    rw [h.version_eq_iff (isSite_of_lastWrite hb hj) hd]
    obtain ⟨path, rfl⟩ := hl.eq_concat
    constructor
    · exact fun hat => ⟨path, b, j, hl, by rw [lastDefFrom, hj], hat⟩
    · rintro ⟨_, c, i, -, hlast, hat⟩
      rw [lastDefFrom, hj] at hlast
      obtain ⟨rfl, rfl⟩ := Prod.mk.inj (Option.some_inj.1 hlast)
      exact hat
  | none =>
    have hreaches : ∀ d, ReachesMemoryUse cfg memoryOps ms d b k ↔
        ∃ c j, ReachesBlock cfg memoryOps b (c, j) ∧ ms.defAt memoryOps c j = some d := by
      intro d
      simp only [ReachesMemoryUse, lastDefFrom, hj, ReachesBlock]
      tauto
    have hrecord : ∀ {c j}, ReachesBlock cfg memoryOps b (c, j) →
        ∃ d ∈ ms.memoryDefs, ms.defAt memoryOps c j = some d := fun hr =>
      h.exists_defAt hr.definesMemory.1 hr.definesMemory.2.1
    simp only [hreaches, true_imp_iff]
    rcases h.cur_cases hb with ⟨x, hxb, hx, ⟨phi, hphi, hres⟩, hnone⟩ |
      ⟨e, j, heb, he, hcur, hnone⟩ | ⟨hcur, hnone⟩
    · obtain ⟨c, j, hr, hcb⟩ := exists_reachesBlock_below hb hxb hx hnone
      refine iff_of_false (fun hexact => ?_) fun hall => hcb (hall c j hr)
      obtain ⟨d, hd, hat⟩ := hrecord hr
      exact h.result_ne_version hphi hd (hres.trans ((hexact d hd).2 ⟨c, j, hr, hat⟩).symm)
    · rw [hcur]
      have hsite' : IsSite cfg memoryOps (some (e, j)) :=
        isSite_of_lastWrite (heb.1.reach hb) he
      constructor
      · intro hexact c i hr
        obtain ⟨d, hd, hat⟩ := hrecord hr
        have hat' := (h.version_eq_iff hsite' hd).1 ((hexact d hd).2 ⟨c, i, hr, hat⟩)
        have hversion : ms.versionAt memoryOps (some (c, i)) =
            ms.versionAt memoryOps (some (e, j)) := by
          simp only [MemorySsa.versionAt, hat, hat']
        obtain ⟨rfl, rfl⟩ := Prod.mk.inj
          (Option.some_inj.1 (h.versionAt_inj (hsite hr) hsite' hversion))
        exact heb
      · intro hall d hd
        rw [h.version_eq_iff hsite' hd]
        constructor
        · intro hat
          obtain ⟨q, hq⟩ := heb.1.reach hb
          obtain ⟨q, rfl⟩ := hq.eq_concat
          obtain ⟨t, ht, -⟩ := heb.1.exists_walk hb
          obtain ⟨m, hm⟩ := ht.eq_concat
          have hem : e ∈ m := by
            have hmem : e ∈ m ++ [b] := hm ▸ List.mem_cons_self
            exact (List.mem_append.1 hmem).resolve_right (by simpa using heb.2)
          rw [hm] at ht
          rcases reachesBlock_through hq ht with ⟨c, -, i, hr⟩ | ⟨hno, -⟩
          · have heq := hr.eq_closest (hall c i hr) heb hb he hnone
            exact ⟨c, i, hr, by rw [(Prod.mk.inj heq).1, (Prod.mk.inj heq).2, hat]⟩
          · exact absurd (definesMemory_iff.2 ⟨j, he⟩) (hno e hem)
        · rintro ⟨c, i, hr, hat⟩
          have heq := hr.eq_closest (hall c i hr) heb hb he hnone
          rwa [← (Prod.mk.inj heq).1, ← (Prod.mk.inj heq).2]
    · constructor
      · intro hexact c j hr
        obtain ⟨d, hd, hat⟩ := hrecord hr
        have hzero : d.version = 0 := ((hexact d hd).2 ⟨c, j, hr, hat⟩).trans hcur
        refine absurd ?_ (List.nodup_cons.1 h.distinct).1
        exact List.mem_append_right _ (hzero ▸ List.mem_map_of_mem hd)
      · intro hall d hd
        refine iff_of_false (fun hzero => ?_) ?_
        · refine absurd ?_ (List.nodup_cons.1 h.distinct).1
          exact List.mem_append_right _ ((hzero.trans hcur) ▸ List.mem_map_of_mem hd)
        · rintro ⟨c, j, hr, -⟩
          exact hnone c (hall c j hr) (definesMemory_iff.2 ⟨j, hr.definesMemory.2.1⟩)

end MemoryShape

/-- **The queries are exact** if and only if no use, where it is not behind a definition of its own
block, is reached by a definition in a block that does not strictly dominate it. -/
theorem queriesExact_iff {tables : Dataflow.CharTables} {ord : HashOrder} {ssa : SsaFunction}
    (hok : buildMemorySsa tables ord cfg ssa = .ok ms) :
    QueriesExact cfg (extractMemoryOperations tables ssa) ms ↔
      ∀ b k op, cfg.Reachable b → (opsIn (extractMemoryOperations tables ssa) b)[k]? = some op →
        op.Reads → lastWrite (opsIn (extractMemoryOperations tables ssa) b) k = none → ∀ c j,
          ReachesBlock cfg (extractMemoryOperations tables ssa) b (c, j) →
            cfg.StrictlyDominates c b := by
  obtain ⟨cur, out, h⟩ := buildMemorySsa_shape hok
  generalize extractMemoryOperations tables ssa = memoryOps at h
  have hquery : ∀ {b k op use}, cfg.Reachable b → (opsIn memoryOps b)[k]? = some op → op.Reads →
      ms.useAt memoryOps b k = some use → ((∀ d ∈ ms.memoryDefs,
        d ∈ getReachingDefsForUse ms use ↔ ReachesMemoryUse cfg memoryOps ms d b k) ↔
        (lastWrite (opsIn memoryOps b) k = none → ∀ c j, ReachesBlock cfg memoryOps b (c, j) →
          cfg.StrictlyDominates c b)) := by
    intro b k op use hb hop hr huse
    rw [← h.version_exact_iff hb (List.getElem?_eq_some_iff.1 hop).1.le]
    obtain ⟨use', huse', hv⟩ := ((h.recorded b hb).getElem? hop).1 hr
    obtain rfl : use = use' := Option.some_inj.1 (huse.symm.trans huse')
    refine forall₂_congr fun d hd => ?_
    rw [getReachingDefsForUse, List.mem_filter, decide_eq_true_eq, and_iff_right hd, hv]
  constructor
  · intro hexact b k op hb hop hr
    obtain ⟨use, huse, -⟩ := ((h.recorded b hb).getElem? hop).1 hr
    exact (hquery hb hop hr huse).1 (hexact.defs b k op use hb hop hr huse)
  · intro hall
    refine ⟨fun b k op use hb hop hr huse => ?_, fun d hd use huse => ?_⟩
    · exact (hquery hb hop hr huse).2 (hall b k op hb hop hr)
    · simp only [getUsesForDef, getReachingDefsForUse, List.mem_filter, hd, huse, true_and,
        decide_eq_true_eq]
      exact eq_comm

theorem queriesExact_iff_body : ∃ ms,
    buildMemorySsa .ascii .insertion whileCfg (callIn 2) = .ok ms ∧
      (QueriesExact whileCfg (extractMemoryOperations .ascii (callIn 2)) ms ↔
        ∀ b k op, whileCfg.Reachable b →
          (opsIn (extractMemoryOperations .ascii (callIn 2)) b)[k]? = some op → op.Reads →
          lastWrite (opsIn (extractMemoryOperations .ascii (callIn 2)) b) k = none → ∀ c j,
            ReachesBlock whileCfg (extractMemoryOperations .ascii (callIn 2)) b (c, j) →
              whileCfg.StrictlyDominates c b) := by
  have hok : (buildMemorySsa .ascii .insertion whileCfg (callIn 2)).toOption.isSome := by
    decide +kernel
  obtain ⟨ms, hms⟩ := exists_ok_of_isSome hok
  exact ⟨ms, hms, queriesExact_iff hms⟩

/-- The call in the body of a loop is reached by itself, but its version is the one of the phi
function of the header. -/
theorem not_queriesExact_body : ∃ ms,
    buildMemorySsa .ascii .insertion whileCfg (callIn 2) = .ok ms ∧
      ¬ QueriesExact whileCfg (extractMemoryOperations .ascii (callIn 2)) ms := by
  have heval : (buildMemorySsa .ascii .insertion whileCfg (callIn 2)).toOption.map (fun ms =>
      let memoryOps := extractMemoryOperations .ascii (callIn 2)
      ((ms.useAt memoryOps 2 0).map (getReachingDefsForUse ms),
        (ms.defAt memoryOps 2 0).isSome && (ms.defsIn 2 == ms.memoryDefs),
        lastDefFrom memoryOps (lastDefOn memoryOps [0, 1, 2, 1]) 2 0)) =
      some (some [], true, some (2, 0)) := by
    decide +kernel
  obtain ⟨ms, hok, heval⟩ := exists_ok_of_map heval
  refine ⟨ms, hok, fun hexact => ?_⟩
  simp only [Prod.mk.injEq, Bool.and_eq_true, beq_iff_eq] at heval
  obtain ⟨hquery, ⟨hsome, hdefs⟩, hlast⟩ := heval
  have hw : Walk whileCfg.Edge 0 2 ([0, 1, 2, 1] ++ [2]) :=
    whileCfg_walk.concat (whileCfg_edge (by decide))
  have hop : (opsIn (extractMemoryOperations .ascii (callIn 2)) 2)[0]? =
      some ⟨2, 3, true, .call⟩ := by
    decide +kernel
  obtain ⟨d, hd⟩ := Option.isSome_iff_exists.1 hsome
  obtain ⟨use, huse, hnil⟩ := Option.map_eq_some_iff.1 hquery
  have hmem := (hexact.defs 2 0 _ use ⟨_, hw⟩ hop (.inr rfl) huse d
    (hdefs ▸ List.mem_of_getElem? hd)).2 ⟨_, 2, 0, hw, hlast, hd⟩
  rw [hnil] at hmem
  cases hmem

end TldrCode.Ssa
