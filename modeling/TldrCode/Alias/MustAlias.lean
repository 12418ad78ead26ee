import TldrCode.Alias.MayAlias
import TldrCode.Graph.Doubling

/-!
# Must-alias pairs

`compute_must_alias` and `transitive_closure`. A round of the closure joins two links of the last
one, so the hundred rounds connect chains of `2 ^ 100` copies, more than a `Vec` holds: `must_alias`
is the equivalence closure of the copies that are not phis (`mustAlias_closure`).
-/

namespace TldrCode.Alias

variable {ord : HashOrder} {cs : List Constraint} {phiTargets vars : List String}
  {a b c x y : String} {k : Nat}

/-- `HashMap<String, HashSet<String>>`. -/
abbrev AliasSets : Type := AList fun _ : String => List String

namespace AliasInfo

/-- `add_must_alias`, on the `must_alias` sets. -/
def addMustAlias (mustAlias : AliasSets) (a b : String) : AliasSets :=
  if a ≠ b then insertInto (insertInto mustAlias a b) b a else mustAlias

/-- `must_alias_check`, on the `must_alias` sets. -/
def mustAliasCheck (mustAlias : AliasSets) (a b : String) : Bool :=
  if a = b then true
  else if (mustAlias.lookup a).any (b ∈ ·) then true
  else if (mustAlias.lookup b).any (a ∈ ·) then true
  else false

end AliasInfo

namespace AliasSolver

open AliasInfo Graph Relation

section Model

variable (ord : HashOrder)

/-- The keys of `copy_constraints`. -/
def copyTargets (cs : List Constraint) : List String :=
  (cs.filterMap fun
    | .copy target _ => some target
    | _ => none).dedup

/-- The `direct_aliases` of `compute_must_alias`. -/
def directAliases (cs : List Constraint) (phiTargets : List String) : AliasSets :=
  (ord.order (copyTargets cs)).foldl (fun direct target =>
    if target ∈ phiTargets then direct
    else (copyConstraints cs target).foldl (fun direct source =>
      insertInto (insertInto direct target source) source target) direct) ∅

/-- The `vars` of `transitive_closure`. -/
def closureVars (relation : AliasSets) : List String :=
  (relation.keys ++ relation.entries.flatMap (·.2)).dedup

/-- The `updates` that one round of `transitive_closure` collects. -/
def closureUpdates (vars : List String) (result : AliasSets) : List (String × String) :=
  (ord.order vars).flatMap fun v =>
    let vSet := (result.lookup v).getD []
    (ord.order vSet).flatMap fun aliasVar =>
      let transitiveAliases := (ord.order ((result.lookup aliasVar).getD [])).filter (· ≠ v)
      transitiveAliases.flatMap fun x => if x ∈ vSet then [] else [(v, x), (x, v)]

/-- Apply the updates, and whether one of them was new. -/
def applyUpdates (updates : List (String × String)) (result : AliasSets) : AliasSets × Bool :=
  updates.foldl (fun applied update =>
    (insertInto applied.1 update.1 update.2,
      applied.2 || decide (update.2 ∉ (applied.1.lookup update.1).getD []))) (result, false)

/-- The loop of `transitive_closure`, with the iterations left. -/
def closureLoop (vars : List String) : Nat → AliasSets → AliasSets
  | 0, result => result
  | left + 1, result =>
    let applied := applyUpdates (closureUpdates ord vars result) result
    if applied.2 then closureLoop vars left applied.1 else applied.1

def transitiveClosure (relation : AliasSets) : AliasSets :=
  closureLoop ord (closureVars relation) maxIterations relation

/-- `compute_must_alias`: the `must_alias` sets, which are empty before. -/
def computeMustAlias (cs : List Constraint) (phiTargets : List String) : AliasSets :=
  (ord.order (transitiveClosure ord (directAliases ord cs phiTargets)).entries).foldl
    (fun mustAlias entry => (ord.order entry.2).foldl
      (fun mustAlias aliasVar => addMustAlias mustAlias entry.1 aliasVar) mustAlias) ∅

end Model

/-! ## Relations kept as sets -/

variable {m m' : AliasSets} {updates : List (String × String)}

/-- `b` is in the set of `a`. -/
def Related (m : AliasSets) (a b : String) : Prop := b ∈ (m.lookup a).getD []

theorem not_related_empty : ¬ Related ∅ a b := by
  rw [Related, AList.lookup_empty]
  exact List.not_mem_nil

theorem related_insertInto :
    Related (insertInto m x y) a b ↔ Related m a b ∨ a = x ∧ b = y := by
  rw [Related, mem_insertInto, or_comm, Related]

theorem related_foldl {ι : Type} {f : AliasSets → ι → AliasSets} {P : ι → String → String → Prop}
    (hf : ∀ m i a b, Related (f m i) a b ↔ Related m a b ∨ P i a b) (l : List ι) (m : AliasSets) :
    Related (l.foldl f m) a b ↔ Related m a b ∨ ∃ i ∈ l, P i a b := by
  induction l generalizing m with
  | nil => simp
  | cons i l ih =>
    rw [List.foldl_cons, ih, hf, List.exists_mem_cons_iff, or_assoc]

theorem related_iff_entry : Related m a b ↔ ∃ entry ∈ m.entries, entry.1 = a ∧ b ∈ entry.2 := by
  rw [Related]
  constructor
  · intro h
    cases ha : m.lookup a with
    | none =>
      rw [ha] at h
      cases h
    | some set =>
      rw [ha, Option.getD_some] at h
      exact ⟨⟨a, set⟩, AList.mem_lookup_iff.1 ha, rfl, h⟩
  · rintro ⟨⟨_, set⟩, hentry, rfl, hb⟩
    rw [AList.mem_lookup_iff.2 hentry, Option.getD_some]
    exact hb

def NonPhiCopy (cs : List Constraint) (phiTargets : List String) (target source : String) : Prop :=
  .copy target source ∈ cs ∧ target ∉ phiTargets

theorem mem_copyTargets (h : .copy x y ∈ cs) : x ∈ copyTargets cs :=
  List.mem_dedup.2 (List.mem_filterMap.2 ⟨_, h, rfl⟩)

theorem related_directAliases : Related (directAliases ord cs phiTargets) a b ↔
    NonPhiCopy cs phiTargets a b ∨ NonPhiCopy cs phiTargets b a := by
  have hsource : ∀ target (m : AliasSets) source a b,
      Related (insertInto (insertInto m target source) source target) a b ↔
        Related m a b ∨ (a = target ∧ b = source ∨ a = source ∧ b = target) := by
    intro target m source a b
    rw [related_insertInto, related_insertInto, or_assoc]
  rw [directAliases, related_foldl (P := fun target a b => target ∉ phiTargets ∧
    ∃ source ∈ copyConstraints cs target, a = target ∧ b = source ∨ a = source ∧ b = target),
    or_iff_right not_related_empty]
  · constructor
    · rintro ⟨target, -, hphi, source, hcopy, ⟨rfl, rfl⟩ | ⟨rfl, rfl⟩⟩
      · exact .inl ⟨mem_copyConstraints.1 hcopy, hphi⟩
      · exact .inr ⟨mem_copyConstraints.1 hcopy, hphi⟩
    · rintro (⟨hcopy, hphi⟩ | ⟨hcopy, hphi⟩)
      · exact ⟨a, ord.mem_order.2 (mem_copyTargets hcopy), hphi, b, mem_copyConstraints.2 hcopy,
          .inl ⟨rfl, rfl⟩⟩
      · exact ⟨b, ord.mem_order.2 (mem_copyTargets hcopy), hphi, a, mem_copyConstraints.2 hcopy,
          .inr ⟨rfl, rfl⟩⟩
  · intro m target a b
    split_ifs with hphi
    · rw [or_iff_left fun h => h.1 hphi]
    · rw [related_foldl (hsource target), and_iff_right hphi]

/-! ## The closure -/

structure ClosureInv (cs : List Constraint) (phiTargets vars : List String) (m : AliasSets) :
    Prop where
  symm : ∀ a b, Related m a b → Related m b a
  links : ∀ a b, NonPhiCopy cs phiTargets a b → Related m a b
  connected : ∀ a b, Related m a b → EqvGen (NonPhiCopy cs phiTargets) a b
  mem_vars : ∀ a b, Related m a b → a ∈ vars

/-- The pair is joined by two links and not yet related. -/
def Joins (vars : List String) (m : AliasSets) (a c : String) : Prop :=
  a ∈ vars ∧ (∃ b, Related m a b ∧ Related m b c) ∧ c ≠ a ∧ ¬ Related m a c

theorem mem_closureUpdates (ord : HashOrder) : (a, c) ∈ closureUpdates ord vars m ↔
    Joins vars m a c ∨ Joins vars m c a := by
  have hupdates : ∀ p : String × String, p ∈ closureUpdates ord vars m ↔
      ∃ v x, Joins vars m v x ∧ (p = (v, x) ∨ p = (x, v)) := by
    intro p
    simp only [closureUpdates, List.mem_flatMap, HashOrder.mem_order, List.mem_filter,
      decide_eq_true_eq]
    constructor
    · rintro ⟨v, hv, b, hvb, x, ⟨hbx, hne⟩, hp⟩
      split_ifs at hp with hvx
      · cases hp
      · rw [List.mem_cons, List.mem_singleton] at hp
        exact ⟨v, x, ⟨hv, ⟨b, hvb, hbx⟩, hne, hvx⟩, hp⟩
    · rintro ⟨v, x, ⟨hv, ⟨b, hvb, hbx⟩, hne, hvx⟩, hp⟩
      refine ⟨v, hv, b, hvb, x, ⟨hbx, hne⟩, ?_⟩
      rw [Related] at hvx
      rw [if_neg hvx, List.mem_cons, List.mem_singleton]
      exact hp
  rw [hupdates]
  constructor
  · rintro ⟨v, x, h, hp | hp⟩
    · obtain ⟨rfl, rfl⟩ := Prod.mk.inj hp
      exact .inl h
    · obtain ⟨rfl, rfl⟩ := Prod.mk.inj hp
      exact .inr h
  · intro h
    cases h with
    | inl h => exact ⟨a, c, h, .inl rfl⟩
    | inr h => exact ⟨c, a, h, .inr rfl⟩

theorem related_applyUpdates :
    Related (applyUpdates updates m).1 a b ↔ Related m a b ∨ (a, b) ∈ updates := by
  have key : ∀ (applied : AliasSets × Bool),
      Related (updates.foldl (fun applied update =>
        (insertInto applied.1 update.1 update.2,
          applied.2 || decide (update.2 ∉ (applied.1.lookup update.1).getD []))) applied).1 a b ↔
        Related applied.1 a b ∨ (a, b) ∈ updates := by
    induction updates with
    | nil => simp
    | cons update updates ih =>
      intro applied
      rw [List.foldl_cons, ih, related_insertInto, List.mem_cons, or_assoc, Prod.ext_iff]
  exact key (m, false)

theorem related_of_unchanged (h : (applyUpdates updates m).2 = false) (hp : (a, b) ∈ updates) :
    Related m a b := by
  have key : ∀ (l : List (String × String)) (applied : AliasSets × Bool),
      (l.foldl (fun applied update =>
        (insertInto applied.1 update.1 update.2,
          applied.2 || decide (update.2 ∉ (applied.1.lookup update.1).getD []))) applied).2 =
          false →
        applied.2 = false ∧ ∀ update ∈ l, Related applied.1 update.1 update.2 := by
    intro l
    induction l with
    | nil => exact fun applied h => ⟨h, fun _ hmem => by cases hmem⟩
    | cons update l ih =>
      intro applied h
      obtain ⟨hchanged, hrest⟩ := ih _ h
      rw [Bool.or_eq_false_iff, decide_eq_false_iff_not, not_not] at hchanged
      refine ⟨hchanged.1, List.forall_mem_cons.2 ⟨hchanged.2, fun update' hmem => ?_⟩⟩
      cases related_insertInto.1 (hrest update' hmem) with
      | inl hrelated => exact hrelated
      | inr heq =>
        rw [heq.1, heq.2]
        exact hchanged.2
  exact (key updates (m, false) h).2 (a, b) hp

def closureRound (ord : HashOrder) (vars : List String) (m : AliasSets) : AliasSets :=
  (applyUpdates (closureUpdates ord vars m) m).1

theorem related_closureRound : Related (closureRound ord vars m) a c ↔
    Related m a c ∨ Joins vars m a c ∨ Joins vars m c a := by
  rw [closureRound, related_applyUpdates, mem_closureUpdates]

theorem Joins.connected (hinv : ClosureInv cs phiTargets vars m) (h : Joins vars m a c) :
    EqvGen (NonPhiCopy cs phiTargets) a c := by
  obtain ⟨-, ⟨b, hab, hbc⟩, -, -⟩ := h
  exact .trans _ b _ (hinv.connected a b hab) (hinv.connected b c hbc)

theorem Joins.mem_vars (hinv : ClosureInv cs phiTargets vars m) (h : Joins vars m a c) :
    c ∈ vars := by
  obtain ⟨-, ⟨b, -, hbc⟩, -, -⟩ := h
  exact hinv.mem_vars c b (hinv.symm b c hbc)

section

variable (h : ClosureInv cs phiTargets vars m)
include h

theorem ClosureInv.round :
    ClosureInv cs phiTargets vars (closureRound ord vars m) where
  symm a b hab := by
    rw [related_closureRound] at hab ⊢
    exact hab.imp (h.symm a b) Or.symm
  links a b hab := related_closureRound.2 (.inl (h.links a b hab))
  connected a b hab := by
    rcases related_closureRound.1 hab with hab | hab | hba
    · exact h.connected a b hab
    · exact hab.connected h
    · exact .symm _ _ (hba.connected h)
  mem_vars a b hab := by
    rcases related_closureRound.1 hab with hab | hab | hba
    · exact h.mem_vars a b hab
    · exact hab.1
    · exact hba.mem_vars h

theorem ClosureInv.joined (hab : Related m a b) (hbc : Related m b c) (hne : a ≠ c) :
    Related (closureRound ord vars m) a c := by
  rw [related_closureRound]
  by_cases hac : Related m a c
  · exact .inl hac
  · exact .inr (.inl ⟨h.mem_vars a b hab, ⟨b, hab, hbc⟩, hne.symm, hac⟩)

theorem ClosureInv.spans_one : Spans (NonPhiCopy cs phiTargets) (Related m) 1 :=
  .of_links fun a b hab => ⟨h.links a b hab, h.symm a b (h.links a b hab)⟩

theorem ClosureInv.spans_of_unchanged
    (hunchanged : (applyUpdates (closureUpdates ord vars m) m).2 = false) (n : Nat) :
    Spans (NonPhiCopy cs phiTargets) (Related (closureRound ord vars m)) n := by
  have hsame : ∀ a b, Related (closureRound ord vars m) a b → Related m a b := by
    intro a b hab
    rw [related_closureRound, ← mem_closureUpdates ord] at hab
    cases hab with
    | inl hab => exact hab
    | inr hmem => exact related_of_unchanged hunchanged hmem
  refine Spans.of_closed h.round.spans_one (fun a b c hab hbc hne => ?_) n
  exact h.joined (hsame a b hab) (hsame b c hbc) hne

end

theorem ClosureInv.loop (ord : HashOrder) (left : Nat) : ∀ {m : AliasSets} {k : Nat},
    ClosureInv cs phiTargets vars m →
    Spans (NonPhiCopy cs phiTargets) (Related m) (2 ^ k) →
    ClosureInv cs phiTargets vars (closureLoop ord vars left m) ∧
      Spans (NonPhiCopy cs phiTargets) (Related (closureLoop ord vars left m))
        (2 ^ (k + left)) := by
  induction left with
  | zero => exact fun h hspans => ⟨h, hspans⟩
  | succ left ih =>
    intro m k h hspans
    rw [closureLoop]
    split
    · have hdouble := hspans.double (T := Related (closureRound ord vars m))
        (fun a b hab => related_closureRound.2 (.inl hab)) (fun a b c => h.joined)
      rw [← pow_succ'] at hdouble
      rw [Nat.add_comm left, ← Nat.add_assoc]
      exact ih h.round hdouble
    · next hunchanged =>
      exact ⟨h.round, h.spans_of_unchanged (Bool.not_eq_true _ ▸ hunchanged) _⟩

theorem mem_closureVars (h : Related m a b) : a ∈ closureVars m := by
  rw [closureVars, List.mem_dedup, List.mem_append, ← AList.mem_keys, ← AList.lookup_isSome]
  cases ha : m.lookup a with
  | none =>
    rw [Related, ha] at h
    cases h
  | some set => exact .inl rfl

theorem ClosureInv.start (ord : HashOrder) (cs : List Constraint) (phiTargets : List String) :
    ClosureInv cs phiTargets (closureVars (directAliases ord cs phiTargets))
      (directAliases ord cs phiTargets) where
  symm a b h := related_directAliases.2 (related_directAliases.1 h).symm
  links a b h := related_directAliases.2 (.inl h)
  connected a b h := by
    cases related_directAliases.1 h with
    | inl h => exact .rel _ _ h
    | inr h => exact .symm _ _ (.rel _ _ h)
  mem_vars a b h := mem_closureVars h

/-! ## The result -/

def copyEnds (cs : List Constraint) : List String :=
  cs.flatMap fun
    | .copy target source => [target, source]
    | _ => []

theorem length_copyEnds_le (cs : List Constraint) : (copyEnds cs).length ≤ 2 * cs.length := by
  induction cs with
  | nil => exact le_rfl
  | cons constraint cs ih =>
    rw [copyEnds] at ih ⊢
    rw [List.flatMap_cons, List.length_append, List.length_cons]
    cases constraint <;> simp only [List.length_cons, List.length_nil] <;> omega

theorem mem_copyEnds (h : NonPhiCopy cs phiTargets a b) : a ∈ copyEnds cs ∧ b ∈ copyEnds cs := by
  rw [copyEnds, List.mem_flatMap, List.mem_flatMap]
  exact ⟨⟨_, h.1, List.mem_cons_self⟩, ⟨_, h.1, List.mem_cons_of_mem _ List.mem_cons_self⟩⟩

theorem related_transitiveClosure (hlen : cs.length ≤ usizeMax) (hne : a ≠ b) :
    Related (transitiveClosure ord (directAliases ord cs phiTargets)) a b ↔
      EqvGen (NonPhiCopy cs phiTargets) a b := by
  have hstart := ClosureInv.start ord cs phiTargets
  obtain ⟨hinv, hspans⟩ := ClosureInv.loop ord maxIterations (k := 0) hstart
    hstart.spans_one
  constructor
  · exact hinv.connected a b
  · intro hab
    refine hspans.of_eqvGen (fun _ _ => mem_copyEnds) ?_ hab hne
    have hends := length_copyEnds_le cs
    rw [usizeMax] at hlen
    rw [maxIterations]
    omega

theorem related_addMustAlias :
    Related (addMustAlias m x y) a b ↔
      Related m a b ∨ x ≠ y ∧ (a = x ∧ b = y ∨ a = y ∧ b = x) := by
  rw [addMustAlias]
  split_ifs with hne
  · rw [related_insertInto, related_insertInto, or_assoc, and_iff_right hne]
  · rw [or_iff_left fun h => hne h.1]

theorem related_computeMustAlias : Related (computeMustAlias ord cs phiTargets) a b ↔ a ≠ b ∧
    (Related (transitiveClosure ord (directAliases ord cs phiTargets)) a b ∨
      Related (transitiveClosure ord (directAliases ord cs phiTargets)) b a) := by
  rw [computeMustAlias, related_foldl (P := fun entry a b => ∃ aliasVar ∈ ord.order entry.2,
    entry.1 ≠ aliasVar ∧ (a = entry.1 ∧ b = aliasVar ∨ a = aliasVar ∧ b = entry.1)),
    or_iff_right not_related_empty, related_iff_entry, related_iff_entry]
  · constructor
    · rintro ⟨entry, hentry, aliasVar, hmem, hne, ⟨rfl, rfl⟩ | ⟨rfl, rfl⟩⟩
      · exact ⟨hne, .inl ⟨entry, ord.mem_order.1 hentry, rfl, ord.mem_order.1 hmem⟩⟩
      · exact ⟨hne.symm, .inr ⟨entry, ord.mem_order.1 hentry, rfl, ord.mem_order.1 hmem⟩⟩
    · rintro ⟨hne, ⟨entry, hentry, rfl, hb⟩ | ⟨entry, hentry, rfl, ha⟩⟩
      · exact ⟨entry, ord.mem_order.2 hentry, b, ord.mem_order.2 hb, hne, .inl ⟨rfl, rfl⟩⟩
      · exact ⟨entry, ord.mem_order.2 hentry, a, ord.mem_order.2 ha, hne.symm, .inr ⟨rfl, rfl⟩⟩
  · intro m entry a b
    have hadd : ∀ (m : AliasSets) (aliasVar a b : String),
        Related (addMustAlias m entry.1 aliasVar) a b ↔ Related m a b ∨ entry.1 ≠ aliasVar ∧
          (a = entry.1 ∧ b = aliasVar ∨ a = aliasVar ∧ b = entry.1) :=
      fun _ _ _ _ => related_addMustAlias
    exact related_foldl hadd _ m

theorem related_computeMustAlias_iff (hlen : cs.length ≤ usizeMax) :
    Related (computeMustAlias ord cs phiTargets) a b ↔
      a ≠ b ∧ EqvGen (NonPhiCopy cs phiTargets) a b := by
  rw [related_computeMustAlias]
  refine and_congr_right fun hne => ?_
  rw [related_transitiveClosure hlen hne, related_transitiveClosure hlen hne.symm]
  exact or_iff_left_of_imp (EqvGen.symm _ _)

theorem mustAliasCheck_iff :
    mustAliasCheck m a b = true ↔ a = b ∨ Related m a b ∨ Related m b a := by
  have hany : ∀ x y, (m.lookup x).any (y ∈ ·) = true ↔ Related m x y := by
    intro x y
    rw [Related]
    cases m.lookup x with
    | none => simp
    | some set => simp
  rw [mustAliasCheck]
  split_ifs with heq hab hba
  · exact iff_of_true rfl (.inl heq)
  · exact iff_of_true rfl (.inr (.inl ((hany a b).1 hab)))
  · exact iff_of_true rfl (.inr (.inr ((hany b a).1 hba)))
  · refine iff_of_false not_false ?_
    rintro (h | h | h)
    · exact heq h
    · exact hab ((hany a b).2 h)
    · exact hba ((hany b a).2 h)

/-- **The must-alias pairs** of any list of constraints are the equivalence closure of the copies
that are not phis. The list is a `Vec`, whose length is a `usize`. -/
theorem mustAlias_closure (ord : HashOrder) (cs : List Constraint) (phiTargets : List String)
    (hlen : cs.length ≤ usizeMax) :
    (∀ a b, a ≠ b → (Related (computeMustAlias ord cs phiTargets) a b ↔
      EqvGen (NonPhiCopy cs phiTargets) a b)) ∧
    (∀ a b, mustAliasCheck (computeMustAlias ord cs phiTargets) a b = true ↔
      EqvGen (NonPhiCopy cs phiTargets) a b) ∧
    Equivalence fun a b => mustAliasCheck (computeMustAlias ord cs phiTargets) a b = true := by
  have hcheck : ∀ a b, mustAliasCheck (computeMustAlias ord cs phiTargets) a b = true ↔
      EqvGen (NonPhiCopy cs phiTargets) a b := by
    intro a b
    rw [mustAliasCheck_iff, related_computeMustAlias_iff hlen, related_computeMustAlias_iff hlen]
    constructor
    · rintro (rfl | h | h)
      · exact .refl a
      · exact h.2
      · exact .symm _ _ h.2
    · intro h
      by_cases heq : a = b
      · exact .inl heq
      · exact .inr (.inl ⟨heq, h⟩)
  refine ⟨fun a b hne => ?_, hcheck, ?_⟩
  · rw [related_computeMustAlias_iff hlen, and_iff_right hne]
  · simp only [hcheck]
    exact EqvGen.is_equivalence _

/-- Two copies of one variable, and a phi. -/
theorem mustAlias_closure_copies :
    let cs : List Constraint := [.copy "a" "x", .copy "b" "x", .copy "p" "a", .copy "p" "c"]
    cs.length ≤ usizeMax ∧ (∀ a b, a ≠ b → (Related (computeMustAlias .insertion cs ["p"]) a b ↔
      EqvGen (NonPhiCopy cs ["p"]) a b)) ∧
    mustAliasCheck (computeMustAlias .insertion cs ["p"]) "a" "b" = true ∧
    mustAliasCheck (computeMustAlias .insertion cs ["p"]) "a" "p" = false := by
  refine ⟨by decide, ?_, by decide +kernel, by decide +kernel⟩
  exact (mustAlias_closure .insertion _ ["p"] (by decide)).1

end AliasSolver

end TldrCode.Alias
