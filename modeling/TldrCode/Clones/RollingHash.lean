import Mathlib.Algebra.BigOperators.Fin
import Mathlib.Algebra.BigOperators.Ring.Finset
import Mathlib.Data.Nat.ModEq
import Mathlib.Tactic.Ring
import TldrCode.Clones.Types

/-!
# Rolling hashes

`analysis/clones/types.rs`: `RollingHash` and `compute_rolling_hashes`. A hash that is rolled on is
the polynomial hash of the window that it has come to, and no step of it overflows
(`computeRollingHashes_spec`).
-/

namespace TldrCode.Clones

/-! ## Arithmetic of `u64` -/

/-- What the operations on `u64` do with results that do not fit; `none` is a panic. -/
structure U64Arith where
  wrappingMul : Nat → Nat → Option Nat
  wrappingAdd : Nat → Nat → Option Nat
  add : Nat → Nat → Option Nat
  sub : Nat → Nat → Option Nat

namespace U64Arith

/-- `u64::checked_mul`, `u64::checked_add` and `u64::checked_sub`. -/
def strict : U64Arith where
  wrappingMul a b := if a * b < 2 ^ 64 then some (a * b) else none
  wrappingAdd a b := if a + b < 2 ^ 64 then some (a + b) else none
  add a b := if a + b < 2 ^ 64 then some (a + b) else none
  sub a b := if b ≤ a then some (a - b) else none

/-- The operations as the source writes them: `wrapping_mul` and `wrapping_add` go around, `+` and
`-` panic. -/
def source : U64Arith :=
  { strict with
    wrappingMul := fun a b => some (a * b % 2 ^ 64)
    wrappingAdd := fun a b => some ((a + b) % 2 ^ 64) }

/-- A result that fits is the one of the natural numbers. -/
structure Exact (arith : U64Arith) : Prop where
  wrappingMul : ∀ a b, a * b < 2 ^ 64 → arith.wrappingMul a b = some (a * b)
  wrappingAdd : ∀ a b, a + b < 2 ^ 64 → arith.wrappingAdd a b = some (a + b)
  add : ∀ a b, a + b < 2 ^ 64 → arith.add a b = some (a + b)
  sub : ∀ a b, b ≤ a → arith.sub a b = some (a - b)

theorem exact_strict : strict.Exact where
  wrappingMul _ _ h := if_pos h
  wrappingAdd _ _ h := if_pos h
  add _ _ h := if_pos h
  sub _ _ h := if_pos h

theorem exact_source : source.Exact where
  wrappingMul _ _ h := congrArg some (Nat.mod_eq_of_lt h)
  wrappingAdd _ _ h := congrArg some (Nat.mod_eq_of_lt h)
  add _ _ h := if_pos h
  sub _ _ h := if_pos h

end U64Arith

/-! ## Rolling hashes -/

def hashToken (token : NormalizedToken) : Nat :=
  token.value.toList.zipIdx.foldl
    (fun h (c, i) => (h + c.toNat * (31 ^ (i % 2 ^ 32) % 2 ^ 64) % 2 ^ 64) % 2 ^ 64) 0

structure RollingHash where
  value : Nat
  windowSize : Nat
  base : Nat
  modulus : Nat
  basePower : Nat
  deriving DecidableEq, Repr

namespace RollingHash

/-- The constant `BASE`. -/
def rollingBase : Nat := 31

/-- The constant `MODULUS`. -/
def rollingModulus : Nat := 1000000007

variable (arith : U64Arith)

def new (windowSize : Nat) : Option RollingHash := do
  let basePower ← (List.range (windowSize - 1)).foldlM (fun basePower _ => do
    let product ← arith.wrappingMul basePower rollingBase
    return product % rollingModulus) 1
  return ⟨0, windowSize, rollingBase, rollingModulus, basePower⟩

def push (hash : RollingHash) (tokenHash : Nat) : Option RollingHash := do
  let reducedToken := tokenHash % hash.modulus
  let product ← arith.wrappingMul hash.value hash.base
  let sum ← arith.wrappingAdd (product % hash.modulus) reducedToken
  return { hash with value := sum % hash.modulus }

def roll (hash : RollingHash) (oldTokenHash newTokenHash : Nat) : Option RollingHash := do
  let oldReduced := oldTokenHash % hash.modulus
  let newReduced := newTokenHash % hash.modulus
  let oldProduct ← arith.wrappingMul oldReduced hash.basePower
  let oldContribution := oldProduct % hash.modulus
  let raised ← arith.add hash.value hash.modulus
  let difference ← arith.sub raised oldContribution
  let value := difference % hash.modulus
  let product ← arith.wrappingMul value hash.base
  let sum ← arith.wrappingAdd (product % hash.modulus) newReduced
  return { hash with value := sum % hash.modulus }

/-- The tokens are pushed one after the other. -/
def pushAll (hash : RollingHash) (tokens : List NormalizedToken) : Option RollingHash :=
  tokens.foldlM (fun hash token => hash.push arith (hashToken token)) hash

end RollingHash

/-- `compute_rolling_hashes`: the hashes of the windows, with the positions where they start. -/
def computeRollingHashes (arith : U64Arith) (tokens : List NormalizedToken) (windowSize : Nat) :
    Option (List (Nat × Nat)) :=
  if tokens.length < windowSize ∨ windowSize = 0 then some [] else do
    let numWindows := tokens.length - windowSize + 1
    let hasher ← RollingHash.new arith windowSize
    let hasher ← hasher.pushAll arith (tokens.take windowSize)
    let rolled ← (List.range' 1 (numWindows - 1)).foldlM (fun (hasher, result) i => do
      let oldToken ← tokens[i - 1]?
      let newToken ← tokens[i + windowSize - 1]?
      let hasher ← hasher.roll arith (hashToken oldToken) (hashToken newToken)
      return (hasher, result ++ [(hasher.value, i)])) (hasher, [(hasher.value, 0)])
    return rolled.2

/-- The polynomial with these coefficients, the first one the highest, at a base. -/
def polynomial (base : Nat) (hashes : List Nat) : Nat :=
  ∑ i : Fin hashes.length, hashes[i] * base ^ (hashes.length - 1 - i)

variable {base : Nat} {hashes : List Nat}

theorem polynomial_cons (h : Nat) :
    polynomial base (h :: hashes) = h * base ^ hashes.length + polynomial base hashes := by
  unfold polynomial
  simp only [List.length_cons]
  rw [Fin.sum_univ_succ]
  congr 1
  refine Finset.sum_congr rfl fun i _ => ?_
  have hi : hashes.length + 1 - 1 - i.succ.val = hashes.length - 1 - i.val := by
    rw [Fin.val_succ]
    omega
  rw [hi]
  rfl

theorem polynomial_nil : polynomial base [] = 0 := rfl

theorem polynomial_concat (h : Nat) :
    polynomial base (hashes ++ [h]) = polynomial base hashes * base + h := by
  induction hashes with
  | nil => simp [polynomial_cons, polynomial_nil]
  | cons first hashes ih =>
    rw [List.cons_append, polynomial_cons, ih, polynomial_cons, List.length_append,
      List.length_singleton]
    ring

/-! ## Windows -/

def polynomialHash (tokens : List NormalizedToken) : Nat :=
  polynomial RollingHash.rollingBase (tokens.map hashToken) % RollingHash.rollingModulus

/-- The tokens of the window that starts at this position. -/
def window (tokens : List NormalizedToken) (windowSize start : Nat) : List NormalizedToken :=
  (tokens.drop start).take windowSize

theorem polynomialHash_lt (tokens : List NormalizedToken) :
    polynomialHash tokens < RollingHash.rollingModulus :=
  Nat.mod_lt _ (by decide)

variable {tokens : List NormalizedToken} {token old : NormalizedToken} {windowSize start : Nat}

theorem polynomialHash_concat : polynomialHash (tokens ++ [token]) =
    (polynomialHash tokens * RollingHash.rollingBase + hashToken token) %
      RollingHash.rollingModulus := by
  unfold polynomialHash
  rw [List.map_append, List.map_singleton, polynomial_concat]
  exact (((Nat.mod_modEq _ _).mul_right _).add_right _).symm

theorem polynomialHash_tail (c : Nat) (hle : c ≤ polynomialHash (old :: tokens) +
      RollingHash.rollingModulus)
    (hc : c ≡ hashToken old * RollingHash.rollingBase ^ tokens.length
      [MOD RollingHash.rollingModulus]) :
    (polynomialHash (old :: tokens) + RollingHash.rollingModulus - c) %
      RollingHash.rollingModulus = polynomialHash tokens := by
  have hsum : polynomialHash (old :: tokens) + RollingHash.rollingModulus - c + c ≡
      polynomial RollingHash.rollingBase (tokens.map hashToken) + c
        [MOD RollingHash.rollingModulus] := by
    rw [Nat.sub_add_cancel hle]
    calc polynomialHash (old :: tokens) + RollingHash.rollingModulus
        ≡ polynomialHash (old :: tokens) [MOD RollingHash.rollingModulus] :=
          Nat.add_modEq_right
      _ ≡ hashToken old * RollingHash.rollingBase ^ tokens.length +
            polynomial RollingHash.rollingBase (tokens.map hashToken)
            [MOD RollingHash.rollingModulus] := by
          unfold polynomialHash
          rw [List.map_cons, polynomial_cons, List.length_map]
          exact Nat.mod_modEq _ _
      _ ≡ c + polynomial RollingHash.rollingBase (tokens.map hashToken)
            [MOD RollingHash.rollingModulus] := hc.symm.add_right _
      _ = polynomial RollingHash.rollingBase (tokens.map hashToken) + c := Nat.add_comm _ _
  exact Nat.ModEq.add_right_cancel' c hsum

/-! ## Steps -/

namespace RollingHash

variable {arith : U64Arith}

/-- The hash of these tokens, for windows of this size. -/
def hashOf (windowSize : Nat) (tokens : List NormalizedToken) : RollingHash where
  value := polynomialHash tokens
  windowSize := windowSize
  base := rollingBase
  modulus := rollingModulus
  basePower := rollingBase ^ (windowSize - 1) % rollingModulus

theorem new_eq (harith : arith.Exact) (windowSize : Nat) :
    new arith windowSize = some (hashOf windowSize []) := by
  have hpower : ∀ n, (List.range n).foldlM (fun basePower _ => do
      let product ← arith.wrappingMul basePower rollingBase
      return product % rollingModulus) 1 = some (rollingBase ^ n % rollingModulus) := by
    intro n
    induction n with
    | zero => rfl
    | succ n ih =>
      have hproduct := harith.wrappingMul (rollingBase ^ n % rollingModulus) rollingBase (by
        unfold rollingBase rollingModulus at *
        omega)
      rw [List.range_succ, List.foldlM_append, ih]
      simp only [Option.bind_eq_bind, Option.bind_some, List.foldlM_cons, List.foldlM_nil,
        hproduct, Option.pure_def, Nat.mod_mul_mod, pow_succ]
  unfold new
  rw [hpower]
  rfl

theorem push_eq (harith : arith.Exact) :
    (hashOf windowSize tokens).push arith (hashToken token) =
      some (hashOf windowSize (tokens ++ [token])) := by
  have hlt := polynomialHash_lt tokens
  have hproduct := harith.wrappingMul (polynomialHash tokens) rollingBase (by
    unfold rollingBase rollingModulus at *
    omega)
  have hsum := harith.wrappingAdd (polynomialHash tokens * rollingBase % rollingModulus)
    (hashToken token % rollingModulus) (by
      unfold rollingModulus at *
      omega)
  unfold push
  simp only [hashOf, hproduct, hsum, Option.bind_eq_bind, Option.bind_some, Option.pure_def,
    polynomialHash_concat, ← Nat.add_mod]

theorem roll_eq (harith : arith.Exact) (hlength : tokens.length + 1 = windowSize) :
    (hashOf windowSize (old :: tokens)).roll arith (hashToken old) (hashToken token) =
      some (hashOf windowSize (tokens ++ [token])) := by
  subst hlength
  have hlt := polynomialHash_lt (old :: tokens)
  set power := rollingBase ^ (tokens.length + 1 - 1) % rollingModulus with hpower
  have hpowerLt : power < rollingModulus := Nat.mod_lt _ (by decide)
  have hold : hashToken old % rollingModulus < rollingModulus := Nat.mod_lt _ (by decide)
  have hfits : hashToken old % rollingModulus * power < 2 ^ 64 :=
    (Nat.mul_lt_mul'' hold hpowerLt).trans (by decide)
  have hproduct := harith.wrappingMul _ _ hfits
  set c := hashToken old % rollingModulus * power % rollingModulus with hc
  have hclt : c < rollingModulus := Nat.mod_lt _ (by decide)
  have hraised := harith.add (polynomialHash (old :: tokens)) rollingModulus (by
    unfold rollingModulus at *
    omega)
  have hle : c ≤ polynomialHash (old :: tokens) + rollingModulus := by omega
  have hdifference := harith.sub _ _ hle
  have hvalue := polynomialHash_tail c hle (by
    rw [hc, hpower, Nat.add_sub_cancel]
    exact (Nat.mod_modEq _ _).trans ((Nat.mod_modEq _ _).mul (Nat.mod_modEq _ _)))
  have hshifted := harith.wrappingMul (polynomialHash tokens) rollingBase (by
    unfold rollingBase rollingModulus at *
    omega)
  have hsum := harith.wrappingAdd (polynomialHash tokens * rollingBase % rollingModulus)
    (hashToken token % rollingModulus) (by
      unfold rollingModulus at *
      omega)
  unfold roll
  simp only [hashOf, ← hpower, hproduct, ← hc, hraised, hdifference, hvalue, hshifted, hsum,
    Option.bind_eq_bind, Option.bind_some, Option.pure_def, polynomialHash_concat, ← Nat.add_mod]

theorem pushAll_eq (harith : arith.Exact) (more : List NormalizedToken) :
    (hashOf windowSize tokens).pushAll arith more =
      some (hashOf windowSize (tokens ++ more)) := by
  induction more generalizing tokens with
  | nil => rw [List.append_nil]; rfl
  | cons token more ih =>
    unfold pushAll at ih ⊢
    rw [List.foldlM_cons, push_eq harith]
    have hassoc : tokens ++ token :: more = (tokens ++ [token]) ++ more := by
      rw [List.append_assoc]
      rfl
    rw [hassoc]
    exact ih

end RollingHash

/-! ## All windows -/

def starts (tokens : List NormalizedToken) (windowSize : Nat) : List Nat :=
  if windowSize = 0 then [] else List.range (tokens.length + 1 - windowSize)

theorem exists_window_succ (hsize : windowSize ≠ 0)
    (hlength : start + 1 + windowSize ≤ tokens.length) : ∃ old middle new,
      tokens[start]? = some old ∧ tokens[start + windowSize]? = some new ∧
      middle.length + 1 = windowSize ∧ window tokens windowSize start = old :: middle ∧
      window tokens windowSize (start + 1) = middle ++ [new] := by
  obtain ⟨size, rfl⟩ := Nat.exists_eq_succ_of_ne_zero hsize
  have hstart : start < tokens.length := by omega
  have hend : size < (tokens.drop (start + 1)).length := by
    rw [List.length_drop]
    omega
  refine ⟨tokens[start], (tokens.drop (start + 1)).take size, (tokens.drop (start + 1))[size],
    List.getElem?_eq_getElem hstart, ?_, ?_, ?_, ?_⟩
  · rw [List.getElem_drop, ← List.getElem?_eq_getElem]
    congr 1
    omega
  · rw [List.length_take]
    omega
  · unfold window
    rw [List.drop_eq_getElem_cons hstart, List.take_succ_cons]
  · exact (List.take_concat_get' _ _ hend).symm

theorem foldlM_roll {arith : U64Arith} (harith : arith.Exact) (hsize : windowSize ≠ 0) (n : Nat)
    (hlength : n + windowSize ≤ tokens.length) :
    (List.range' 1 n).foldlM (fun (hasher, result) i => do
      let oldToken ← tokens[i - 1]?
      let newToken ← tokens[i + windowSize - 1]?
      let hasher ← RollingHash.roll arith hasher (hashToken oldToken) (hashToken newToken)
      return (hasher, result ++ [(hasher.value, i)]))
        (RollingHash.hashOf windowSize (window tokens windowSize 0),
          [(polynomialHash (window tokens windowSize 0), 0)]) =
      some (RollingHash.hashOf windowSize (window tokens windowSize n),
        (List.range (n + 1)).map fun i => (polynomialHash (window tokens windowSize i), i)) := by
  induction n with
  | zero => rfl
  | succ n ih =>
    obtain ⟨old, middle, new, hold, hnew, hmiddle, hbefore, hafter⟩ :=
      exists_window_succ hsize (show n + 1 + windowSize ≤ tokens.length from hlength)
    have hroll : (RollingHash.hashOf windowSize (window tokens windowSize n)).roll arith
        (hashToken old) (hashToken new) =
          some (RollingHash.hashOf windowSize (window tokens windowSize (n + 1))) := by
      rw [hbefore, hafter]
      exact RollingHash.roll_eq harith hmiddle
    have hold' : tokens[1 + n - 1]? = some old := by rw [Nat.add_sub_cancel_left, hold]
    have hnew' : tokens[1 + n + windowSize - 1]? = some new := by
      rw [← hnew]
      congr 1
      omega
    rw [List.range'_1_concat, List.foldlM_append, ih (by omega)]
    simp only [Option.bind_eq_bind, Option.bind_some, List.foldlM_cons, List.foldlM_nil, hold',
      hnew', hroll, Option.pure_def, List.range_succ (n := n + 1), List.map_append]
    rw [Nat.add_comm 1 n]
    rfl

/-- **Rolling hashes** are the polynomial hashes of the windows, whatever the arithmetic does with
results that do not fit. -/
theorem computeRollingHashes_of_exact {arith : U64Arith} (harith : arith.Exact)
    (tokens : List NormalizedToken) (windowSize : Nat) :
    computeRollingHashes arith tokens windowSize = some ((starts tokens windowSize).map
      fun i => (polynomialHash (window tokens windowSize i), i)) := by
  unfold computeRollingHashes starts
  split_ifs with hnone hsize hsize
  · rfl
  · rw [Nat.sub_eq_zero_of_le (Nat.succ_le_of_lt (hnone.resolve_right hsize))]
    rfl
  · exact absurd (.inr hsize) hnone
  · have hle : windowSize ≤ tokens.length := Nat.not_lt.1 fun h => hnone (.inl h)
    have hrolled := foldlM_roll harith hsize (tokens.length - windowSize)
      (by rw [Nat.sub_add_cancel hle])
    rw [RollingHash.new_eq harith]
    simp only [Option.bind_eq_bind, Option.bind_some, RollingHash.pushAll_eq harith,
      List.nil_append, Nat.add_sub_cancel]
    have hfirst : window tokens windowSize 0 = tokens.take windowSize := rfl
    rw [hfirst] at hrolled
    exact (congrArg (Option.bind · _) hrolled).trans (by rw [Nat.sub_add_comm hle]; rfl)

/-- The tokens of each window, pushed into a new hash, give its polynomial hash. -/
theorem pushAll_new {arith : U64Arith} (harith : arith.Exact) (windowSize : Nat)
    (tokens : List NormalizedToken) :
    ((RollingHash.new arith windowSize).bind (·.pushAll arith tokens)).map (·.value) =
      some (polynomialHash tokens) := by
  rw [RollingHash.new_eq harith, Option.bind_some, RollingHash.pushAll_eq harith]
  rfl

/-- **The rolling hashes** are those of the windows, in order, without an overflow: an arithmetic
that stops at results that do not fit finds the same. Equal windows have equal hashes. -/
theorem computeRollingHashes_spec (tokens : List NormalizedToken) (windowSize : Nat) :
    ∃ hashes, computeRollingHashes .source tokens windowSize = some hashes ∧
      computeRollingHashes .strict tokens windowSize = some hashes ∧
      hashes.map Prod.snd = starts tokens windowSize ∧
      (∀ hash i, (hash, i) ∈ hashes → hash = polynomialHash (window tokens windowSize i) ∧
        ∀ arith ∈ [U64Arith.source, U64Arith.strict], ((RollingHash.new arith windowSize).bind
          (·.pushAll arith (window tokens windowSize i))).map (·.value) = some hash) ∧
      ∀ hash hash' i j, (hash, i) ∈ hashes → (hash', j) ∈ hashes →
        window tokens windowSize i = window tokens windowSize j → hash = hash' := by
  refine ⟨_, computeRollingHashes_of_exact U64Arith.exact_source tokens windowSize,
    computeRollingHashes_of_exact U64Arith.exact_strict tokens windowSize, ?_, ?_, ?_⟩
  · rw [List.map_map]
    exact List.map_id _
  · intro hash i hmem
    obtain ⟨i', -, heq⟩ := List.mem_map.1 hmem
    obtain ⟨rfl, rfl⟩ := Prod.mk.inj heq
    refine ⟨rfl, fun arith harith => ?_⟩
    rcases List.mem_pair.1 harith with rfl | rfl
    · exact pushAll_new U64Arith.exact_source ..
    · exact pushAll_new U64Arith.exact_strict ..
  · intro hash hash' i j hmem hmem' hwindow
    obtain ⟨i', -, heq⟩ := List.mem_map.1 hmem
    obtain ⟨j', -, heq'⟩ := List.mem_map.1 hmem'
    obtain ⟨rfl, rfl⟩ := Prod.mk.inj heq
    obtain ⟨rfl, rfl⟩ := Prod.mk.inj heq'
    rw [hwindow]

/-- **No hashes of empty windows**, and the hash of a token goes around by itself. -/
theorem not_hashed_emptyWindow :
    (¬ ∀ tokens windowSize hashes, computeRollingHashes .source tokens windowSize = some hashes →
      ∀ i < tokens.length, i + windowSize ≤ tokens.length →
        (polynomialHash (window tokens windowSize i), i) ∈ hashes) ∧
      ∃ token : NormalizedToken, 2 ^ 64 ≤
        (token.value.toList.zipIdx.map fun (c, i) => c.toNat * 31 ^ i).sum := by
  constructor
  · intro h
    exact absurd (h [⟨"a"⟩] 0 [] rfl 0 Nat.one_pos Nat.one_pos.le) List.not_mem_nil
  · exact ⟨⟨"zzzzzzzzzzzzzz"⟩, by decide⟩

end TldrCode.Clones
