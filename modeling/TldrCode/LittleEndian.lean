import Mathlib.Algebra.Order.Ring.Nat

/-!
# Little-endian numbers

The bytes of a number of fixed width, the least significant one first, and the number they spell.
Each of the two maps inverts the other one (`value_bytes`, `bytes_value`).
-/

namespace TldrCode.LittleEndian

/-- The lowest bytes of a number, so many of them. -/
def bytes : Nat → Nat → List UInt8
  | 0, _ => []
  | width + 1, n => UInt8.ofNat n :: bytes width (n / 256)

def value : List UInt8 → Nat
  | [] => 0
  | b :: l => b.toNat + 256 * value l

@[simp] theorem length_bytes (width n : Nat) : (bytes width n).length = width := by
  induction width generalizing n with
  | zero => rfl
  | succ width ih => rw [bytes, List.length_cons, ih]

theorem value_bytes {width n : Nat} (h : n < 256 ^ width) : value (bytes width n) = n := by
  induction width generalizing n with
  | zero =>
    rw [pow_zero, Nat.lt_one_iff] at h
    rw [h]
    rfl
  | succ width ih =>
    have hdiv : n / 256 < 256 ^ width := Nat.div_lt_of_lt_mul (by rwa [← pow_succ'])
    rw [bytes, value, ih hdiv, UInt8.toNat_ofNat']
    exact Nat.mod_add_div n 256

theorem value_lt (l : List UInt8) : value l < 256 ^ l.length := by
  induction l with
  | nil => exact Nat.one_pos
  | cons b l ih =>
    have hb : b.toNat < 256 := b.toNat_lt
    rw [value, List.length_cons, pow_succ]
    omega

theorem bytes_value (l : List UInt8) : bytes l.length (value l) = l := by
  induction l with
  | nil => rfl
  | cons b l ih =>
    have hb : b.toNat < 256 := b.toNat_lt
    have hdiv : (b.toNat + 256 * value l) / 256 = value l := by omega
    have hmod : UInt8.ofNat (b.toNat + 256 * value l) = b := by
      rw [← UInt8.toNat_inj, UInt8.toNat_ofNat']
      omega
    rw [value, List.length_cons, bytes, hdiv, hmod, ih]

end TldrCode.LittleEndian
