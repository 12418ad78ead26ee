import Mathlib.Data.List.Forall2
import Mathlib.Tactic.TypeStar

/-!
# Fallible computations

`Succeeds x P I`: the computation `x` returns a value, for which `I` holds, exactly when `P` does.
One rule for each way to put computations together. A computation on all members of a list is known
by its values (`mapM_eq_ok_iff`). Of a partial function only whether it has a value matters.
-/

namespace TldrCode

universe u

variable {ε σ : Type*} {α β : Type u} {P Q : Prop} {I : α → Prop} {J : β → Prop} {a : α}

/-- `x` returns a value if and only if `P`, and then one that satisfies `I`. -/
inductive Succeeds (x : Except ε α) (P : Prop) (I : α → Prop) : Prop
  | ok (a : α) (hx : x = .ok a) (hP : P) (ha : I a)
  | error (e : ε) (hx : x = .error e) (hP : ¬ P)

namespace Succeeds

variable {x : Except ε α}

theorem pure (ha : I a) : Succeeds (Pure.pure a : Except ε α) True I :=
  .ok a rfl trivial ha

theorem congr (h : Succeeds x P I) (hPQ : P ↔ Q) : Succeeds x Q I := by
  cases h with
  | ok a hx hP ha => exact .ok a hx (hPQ.1 hP) ha
  | error e hx hP => exact .error e hx fun hQ => hP (hPQ.2 hQ)

theorem exists_ok_iff (h : Succeeds x P I) : (∃ a, x = .ok a) ↔ P := by
  cases h with
  | ok a hx hP _ => exact ⟨fun _ => hP, fun _ => ⟨a, hx⟩⟩
  | error e hx hP =>
    refine ⟨fun ⟨a, ha⟩ => ?_, fun h => absurd h hP⟩
    rw [hx] at ha
    cases ha

theorem bind {f : α → Except ε β} (h : Succeeds x P I)
    (hf : ∀ a, I a → Succeeds (f a) Q J) : Succeeds (x >>= f) (P ∧ Q) J := by
  cases h with
  | ok a hx hP ha =>
    subst hx
    exact (hf a ha).congr ⟨fun hQ => ⟨hP, hQ⟩, And.right⟩
  | error e hx hP =>
    subst hx
    exact .error e rfl fun h => hP h.1

/-- A loop succeeds when each of its steps does, whatever state keeps the invariant. -/
theorem foldlM {f : β → σ → Except ε β} {R : σ → Prop} (l : List σ)
    (hf : ∀ b, J b → ∀ s ∈ l, Succeeds (f b s) (R s) J) :
    ∀ b, J b → Succeeds (l.foldlM f b) (∀ s ∈ l, R s) J := by
  induction l with
  | nil => exact fun b hb => (Succeeds.pure hb).congr (by simp)
  | cons s l ih =>
    intro b hb
    rw [List.foldlM_cons]
    refine Succeeds.congr (.bind (hf b hb s List.mem_cons_self)
      (ih fun b hb s hs => hf b hb s (List.mem_cons_of_mem _ hs))) ?_
    rw [List.forall_mem_cons]

end Succeeds

/-! ## Early returns -/

/-- `if bad { return Err(e); }`. -/
def reject (bad : Prop) [Decidable bad] (e : ε) : Except ε Unit := if bad then .error e else .ok ()

/-- `o.ok_or(e)`. -/
def okOr (o : Option α) (e : ε) : Except ε α := o.elim (.error e) .ok

theorem bind_eq_ok_iff {x : Except ε α} {f : α → Except ε β} {b : β} :
    x >>= f = .ok b ↔ ∃ a, x = .ok a ∧ f a = .ok b := by
  cases x with
  | error e => exact ⟨nofun, fun ⟨_, h, _⟩ => nomatch h⟩
  | ok a =>
    refine ⟨fun h => ⟨a, rfl, h⟩, ?_⟩
    rintro ⟨a', h, hf⟩
    cases h
    exact hf

theorem reject_eq_ok_iff [Decidable P] {e : ε} {u : Unit} : reject P e = .ok u ↔ ¬ P := by
  unfold reject
  split_ifs with h
  · exact ⟨nofun, fun hn => absurd h hn⟩
  · exact ⟨fun _ => h, fun _ => rfl⟩

theorem okOr_eq_ok_iff {o : Option α} {e : ε} : okOr o e = .ok a ↔ o = some a := by
  cases o with
  | none => exact ⟨nofun, nofun⟩
  | some b => exact Except.ok.injEq b a ▸ Option.some_inj.symm

theorem mapM_isSome {f : α → Option β} {l : List α} (h : ∀ a ∈ l, (f a).isSome) :
    (l.mapM f).isSome := by
  induction l with
  | nil => rfl
  | cons a l ih =>
    obtain ⟨b, hb⟩ := Option.isSome_iff_exists.1 (h a List.mem_cons_self)
    obtain ⟨bs, hbs⟩ := Option.isSome_iff_exists.1 (ih fun x hx => h x (List.mem_cons_of_mem a hx))
    rw [List.mapM_cons, hb, hbs]
    rfl

theorem mapM_eq_some_iff {f : α → Option β} {l : List α} {bs : List β} :
    l.mapM f = some bs ↔ l.map f = bs.map some := by
  induction l generalizing bs with
  | nil =>
    rw [List.mapM_nil, List.map_nil, eq_comm (a := []), List.map_eq_nil_iff]
    exact Option.some_inj.trans eq_comm
  | cons a l ih =>
    rw [List.mapM_cons, List.map_cons]
    cases bs with
    | nil => cases ha : f a <;> cases hl : l.mapM f <;> simp
    | cons b bs =>
      rw [List.map_cons, List.cons_eq_cons, ← ih]
      cases ha : f a <;> cases hl : l.mapM f <;> simp

theorem foldlM_isSome {f : β → α → Option β} (h : ∀ b a, (f b a).isSome) (l : List α) (b : β) :
    (l.foldlM f b).isSome := by
  induction l generalizing b with
  | nil => rfl
  | cons a l ih =>
    obtain ⟨b', hb'⟩ := Option.isSome_iff_exists.1 (h b a)
    rw [List.foldlM_cons, hb']
    exact ih b'

/-! ## Lists -/

section MapM

variable {f : α → Except ε β} {l : List α} {bs : List β}

/-- **A computation on all members of a list** returns the values of the members. -/
theorem mapM_eq_ok_iff : l.mapM f = .ok bs ↔ List.Forall₂ (fun a b => f a = .ok b) l bs := by
  induction l generalizing bs with
  | nil =>
    rw [List.mapM_nil, List.forall₂_nil_left_iff]
    constructor
    · intro h
      cases h
      rfl
    · rintro rfl
      rfl
  | cons a l ih =>
    rw [List.mapM_cons, List.forall₂_cons_left_iff]
    cases ha : f a with
    | error e =>
      constructor
      · intro h
        cases h
      · rintro ⟨b, u, hb, -⟩
        cases hb
    | ok b =>
      cases hl : l.mapM f with
      | error e =>
        constructor
        · intro h
          cases h
        · rintro ⟨c, u, -, hu, -⟩
          rw [ih.2 hu] at hl
          cases hl
      | ok cs =>
        change Except.ok (b :: cs) = Except.ok bs ↔ _
        constructor
        · intro h
          cases h
          exact ⟨b, cs, rfl, ih.1 hl, rfl⟩
        · rintro ⟨c, u, hc, hu, rfl⟩
          cases hc
          rw [ih.2 hu] at hl
          cases hl
          rfl

theorem mapM_congr_left {g : α → Except ε β} (h : ∀ a ∈ l, f a = g a) : l.mapM f = l.mapM g := by
  induction l with
  | nil => rfl
  | cons a l ih =>
    rw [List.mapM_cons, List.mapM_cons, h a List.mem_cons_self,
      ih fun a ha => h a (List.mem_cons_of_mem _ ha)]

theorem exists_mapM_eq_ok (h : ∀ a ∈ l, ∃ b, f a = .ok b) : ∃ bs, l.mapM f = .ok bs := by
  induction l with
  | nil => exact ⟨[], rfl⟩
  | cons a l ih =>
    obtain ⟨b, hb⟩ := h a List.mem_cons_self
    obtain ⟨bs, hbs⟩ := ih fun a ha => h a (List.mem_cons_of_mem _ ha)
    exact ⟨b :: bs, mapM_eq_ok_iff.2 (.cons hb (mapM_eq_ok_iff.1 hbs))⟩

theorem exists_ok_of_mem (h : l.mapM f = .ok bs) (ha : a ∈ l) : ∃ b ∈ bs, f a = .ok b := by
  rw [mapM_eq_ok_iff] at h
  induction h with
  | nil => cases ha
  | @cons a' b l bs hb _ ih =>
    cases List.mem_cons.1 ha with
    | inl heq =>
      subst heq
      exact ⟨b, List.mem_cons_self, hb⟩
    | inr ha =>
      obtain ⟨b', hb', hok⟩ := ih ha
      exact ⟨b', List.mem_cons_of_mem _ hb', hok⟩

theorem mem_of_mapM_eq_ok (h : l.mapM f = .ok bs) {b : β} :
    b ∈ bs ↔ ∃ a ∈ l, f a = .ok b := by
  rw [mapM_eq_ok_iff] at h
  induction h with
  | nil => simp
  | @cons a c l cs ha h ih =>
    rw [List.mem_cons, ih]
    constructor
    · rintro (rfl | ⟨a', ha', hb⟩)
      · exact ⟨a, List.mem_cons_self, ha⟩
      · exact ⟨a', List.mem_cons_of_mem _ ha', hb⟩
    · rintro ⟨a', ha', hb⟩
      cases List.mem_cons.1 ha' with
      | inl heq =>
        subst heq
        rw [ha] at hb
        cases hb
        exact .inl rfl
      | inr ha' => exact .inr ⟨a', ha', hb⟩

theorem mapM_drop (h : l.mapM f = .ok bs) (n : Nat) : (l.drop n).mapM f = .ok (bs.drop n) :=
  mapM_eq_ok_iff.2 (List.forall₂_drop n (mapM_eq_ok_iff.1 h))

end MapM

end TldrCode
