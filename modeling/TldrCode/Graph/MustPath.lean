import TldrCode.Graph.Walk

/-!
# Facts that hold on every walk

A node generates a fact or kills it. The fact survives a walk if some node generates it and no
later node kills it. A solution of the equations of a must analysis holds on all walks
(`survives_of_solution`). `survivesAll_real_iff` compares two notions of generating, of which one is
finer.
-/

namespace TldrCode.Graph

variable {α : Type*} {E : α → α → Prop} {Gen Real Kill : α → Prop} {r a b c x : α}
  {l l₁ l₂ : List α}

/-- Some node of the list generates and none after it kills. -/
def Survives (Gen Kill : α → Prop) (l : List α) : Prop :=
  ∃ l₁ c l₂, l = l₁ ++ c :: l₂ ∧ Gen c ∧ ∀ d ∈ l₂, ¬ Kill d

/-- The fact survives every walk up to `b`. -/
def SurvivesAll (E : α → α → Prop) (Gen Kill : α → Prop) (r b : α) : Prop :=
  ∀ l, Walk E r b (l ++ [b]) → Survives Gen Kill l

/-- The fact survives every walk to `b`, and `b` itself. -/
def SurvivesThrough (E : α → α → Prop) (Gen Kill : α → Prop) (r b : α) : Prop :=
  ∀ l, Walk E r b l → Survives Gen Kill l

theorem not_survives_nil : ¬ Survives Gen Kill [] := by
  rintro ⟨l₁, c, l₂, h, -⟩
  simp at h

theorem concat_eq_append_cons : l ++ [b] = l₁ ++ c :: l₂ ↔
    l₂ = [] ∧ l = l₁ ∧ b = c ∨ ∃ l₃, l₂ = l₃ ++ [b] ∧ l = l₁ ++ c :: l₃ := by
  constructor
  · intro h
    cases l₂ using List.reverseRecOn with
    | nil =>
      obtain ⟨hl, hb⟩ := List.append_inj' h rfl
      exact .inl ⟨rfl, hl, List.singleton_inj.1 hb⟩
    | append_singleton l₂ d =>
      rw [← List.cons_append, ← List.append_assoc] at h
      obtain ⟨hl, hb⟩ := List.append_inj' h rfl
      exact .inr ⟨l₂, by rw [List.singleton_inj.1 hb], hl⟩
  · intro h
    cases h with
    | inl h =>
      obtain ⟨rfl, rfl, rfl⟩ := h
      rfl
    | inr h =>
      obtain ⟨l₃, rfl, rfl⟩ := h
      simp

theorem survives_concat :
    Survives Gen Kill (l ++ [b]) ↔ Gen b ∨ Survives Gen Kill l ∧ ¬ Kill b := by
  constructor
  · rintro ⟨l₁, c, l₂, h, hgen, hkill⟩
    cases concat_eq_append_cons.1 h with
    | inl h =>
      obtain ⟨rfl, rfl, rfl⟩ := h
      exact .inl hgen
    | inr h =>
      obtain ⟨l₂, rfl, rfl⟩ := h
      exact .inr ⟨⟨l₁, c, l₂, rfl, hgen, fun d hd => hkill d (by simp [hd])⟩, hkill b (by simp)⟩
  · intro h
    cases h with
    | inl hgen => exact ⟨l, b, [], rfl, hgen, by simp⟩
    | inr h =>
      obtain ⟨⟨l₁, c, l₂, rfl, hgen, hkill⟩, hb⟩ := h
      refine ⟨l₁, c, l₂ ++ [b], by simp, hgen, fun d hd => ?_⟩
      cases List.mem_append.1 hd with
      | inl hd => exact hkill d hd
      | inr hd => exact List.mem_singleton.1 hd ▸ hb

theorem Survives.exists_gen (h : Survives Gen Kill l) : ∃ c ∈ l, Gen c := by
  obtain ⟨l₁, c, l₂, rfl, hgen, -⟩ := h
  exact ⟨c, by simp, hgen⟩

theorem Survives.of_append (h : Survives Gen Kill (l₁ ++ l₂)) (hl : ∀ d ∈ l₂, ¬ Gen d) :
    Survives Gen Kill l₁ := by
  induction l₂ using List.reverseRecOn with
  | nil => rwa [List.append_nil] at h
  | append_singleton l₂ d ih =>
    rw [← List.append_assoc, survives_concat] at h
    exact ih (h.resolve_left (hl d (by simp))).1 fun x hx => hl x (by simp [hx])

theorem Survives.exists_last (h : Survives Gen Kill l) : ∃ l₁ c l₂, l = l₁ ++ c :: l₂ ∧ Gen c ∧
    ∀ d ∈ l₂, ¬ Gen d ∧ ¬ Kill d := by
  obtain ⟨l₁, c, l₂, rfl, hgen, hkill⟩ := h
  obtain ⟨m₁, d, m₂, hd, hgen', hlast⟩ :=
    exists_last_of_mem (List.mem_cons_self (a := c) (l := l₂)) hgen
  refine ⟨l₁ ++ m₁, d, m₂, by rw [hd, List.append_assoc], hgen', fun y hy => ⟨hlast y hy, ?_⟩⟩
  -- what comes after the last generating node comes after the first one
  cases m₁ with
  | nil =>
    obtain ⟨rfl, rfl⟩ := List.cons.inj hd
    exact hkill y hy
  | cons z m₁ =>
    obtain ⟨rfl, rfl⟩ := List.cons.inj hd
    exact hkill y (by simp [hy])

theorem SurvivesAll.through (h : SurvivesAll E Gen Kill r b) (hab : E a b) :
    SurvivesThrough E Gen Kill r a := fun l w => h l (w.concat hab)

theorem not_survivesAll_root : ¬ SurvivesAll E Gen Kill r r :=
  fun h => not_survives_nil (h [] (.single r))

/-- **A solution of the equations holds on all walks**: what holds before a node has survived. -/
theorem survives_of_solution (In Out : α → Prop) (hroot : Out r → Gen r) (hin : ¬ In r)
    (hedge : ∀ a b, Reach E r b → b ≠ r → In b → E a b → Out a)
    (hout : ∀ b, Reach E r b → b ≠ r → Out b → Gen b ∨ In b ∧ ¬ Kill b)
    (hb : Reach E r b) (h : In b) : SurvivesAll E Gen Kill r b := by
  have key : ∀ l c, Walk E r c (l ++ [c]) → Out c → Survives Gen Kill (l ++ [c]) := by
    intro l
    induction l using List.reverseRecOn with
    | nil =>
      intro c w hc
      obtain rfl : c = r := by simpa using w.head
      exact survives_concat.2 (.inl (hroot hc))
    | append_singleton l a ih =>
      intro c w hc
      rw [survives_concat]
      by_cases hcr : c = r
      · exact .inl (hcr ▸ hroot (hcr ▸ hc))
      · refine (hout c ⟨_, w⟩ hcr hc).imp_right fun hc => ⟨?_, hc.2⟩
        obtain ⟨a', wa, hac⟩ := w.exists_last_step (by simp)
        obtain rfl : a = a' := by simpa using wa.last
        exact ih a wa (hedge a c ⟨_, w⟩ hcr hc.1 hac)
  intro l w
  have hbr : b ≠ r := fun he => hin (he ▸ h)
  cases l using List.reverseRecOn with
  | nil => exact absurd (by simpa using w.head) hbr
  | append_singleton l a =>
    obtain ⟨a', wa, hab⟩ := w.exists_last_step (by simp)
    obtain rfl : a = a' := by simpa using wa.last
    exact key l a wa (hedge a b hb hbr h hab)

/-- What survives a node is generated there, or survives up to it and is not killed. -/
theorem SurvivesThrough.gen_or (h : SurvivesThrough E Gen Kill r b) (hb : Reach E r b) :
    Gen b ∨ SurvivesAll E Gen Kill r b ∧ ¬ Kill b := by
  by_cases hgen : Gen b
  · exact .inl hgen
  · have key : ∀ l, Walk E r b (l ++ [b]) → Survives Gen Kill l ∧ ¬ Kill b :=
      fun l w => (survives_concat.1 (h _ w)).resolve_left hgen
    obtain ⟨l, w⟩ := hb
    obtain ⟨l, rfl⟩ := w.eq_concat
    exact .inr ⟨fun l w => (key l w).1, (key l w).2⟩

/-- **Two notions of generating agree on all walks** exactly if every node that generates in the
coarser sense only is followed by nodes that are entered on other walks as well, on which the fact
does not survive even in the coarser sense. -/
theorem survivesAll_real_iff (hkill : ∀ c, Gen c → ¬ Real c → Kill c) :
    (∀ b, Reach E r b → SurvivesAll E Gen Kill r b → SurvivesAll E Real Kill r b) ↔
      ∀ c b, Reach E r c → E c b → Gen c → ¬ Real c → ¬ SurvivesAll E Gen Kill r b := by
  constructor
  · intro h c b hc hcb hgen hnot hall
    have hc' := ((h b (hc.tail hcb) hall).through hcb).gen_or hc
    exact (hc'.resolve_left hnot).2 (hkill c hgen hnot)
  · intro h b hb hall l w
    obtain ⟨l₁, c, l₂, rfl, hgen, hlast⟩ := (hall l w).exists_last
    by_cases hc : Real c
    · exact ⟨l₁, c, l₂, rfl, hc, fun d hd => (hlast d hd).2⟩
    · -- the walk rests on `c`; the node after it is entered on a walk without the fact
      exfalso
      rw [List.append_assoc, List.cons_append] at w
      obtain ⟨wc, wb⟩ := Walk.split_iff.1 w
      obtain ⟨x, rest, hrest⟩ := List.exists_cons_of_ne_nil (List.append_ne_nil_of_right_ne_nil l₂
        (List.cons_ne_nil b []))
      rw [hrest] at wb
      have hcx : E c x := (List.isChain_cons_cons.1 wb.chain).1
      refine h c x ⟨_, wc⟩ hcx hgen hc fun m wm => ?_
      have wx : Walk E x b (x :: rest) :=
        (Walk.split_iff.1 (show Walk E c b ([c] ++ x :: rest) from wb)).2
      have wall : Walk E r b ((m ++ l₂) ++ [b]) := by
        rw [List.append_assoc, hrest]
        exact wm.append wx
      exact (hall _ wall).of_append fun d hd => (hlast d hd).1

end TldrCode.Graph
