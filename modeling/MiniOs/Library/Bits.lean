/-
Masking of machine words: clearing the bits of a mask takes off at most the mask, and a bit field
keeps the values that fit it.
-/
import Mathlib.Algebra.Order.Ring.Nat

namespace MiniOs.Library.Bits

variable {w : Nat}

theorem and_add_and_not (x m : BitVec w) : (x &&& m) + (x &&& ~~~m) = x := by
  have hzero : (x &&& m) &&& (x &&& ~~~m) = 0#w := by
    ext i hi
    cases hx : x[i] <;> cases hm : m[i] <;> simp [hx, hm]
  rw [BitVec.add_eq_or_of_and_eq_zero _ _ hzero]
  ext i hi
  cases hx : x[i] <;> cases hm : m[i] <;> simp [hx, hm]

/-- Clearing the bits of `m` lowers a value by at most `m`. -/
theorem le_and_not_add (x m : BitVec w) : x.toNat ≤ (x &&& ~~~m).toNat + m.toNat := by
  have hsum := congrArg BitVec.toNat (and_add_and_not x m)
  rw [BitVec.toNat_add, BitVec.toNat_and x m] at hsum
  have hm : x.toNat &&& m.toNat ≤ m.toNat := Nat.and_le_right
  have hmod := Nat.mod_le ((x.toNat &&& m.toNat) + (x &&& ~~~m).toNat) (2 ^ w)
  omega

theorem or_and_distrib (x y f : BitVec w) : (x ||| y) &&& f = (x &&& f) ||| (y &&& f) := by
  ext i hi
  simp [Bool.and_or_distrib_right]

/-- A multiple of `2 ^ a` below `2 ^ (a + b)` is kept by the mask of the bits `a` to `a + b - 1`. -/
theorem and_field_eq_self {x a b : Nat} (hdvd : 2 ^ a ∣ x) (hlt : x < 2 ^ (a + b)) :
    x &&& (2 ^ b - 1) <<< a = x := by
  obtain ⟨q, rfl⟩ := hdvd
  have hq : q < 2 ^ b := by
    rw [pow_add] at hlt
    exact lt_of_mul_lt_mul_left hlt (Nat.zero_le _)
  have hshift : 2 ^ a * q = q <<< a := by rw [Nat.shiftLeft_eq, mul_comm]
  rw [hshift, ← Nat.shiftLeft_and_distrib, Nat.and_two_pow_sub_one_eq_mod, Nat.mod_eq_of_lt hq]

end MiniOs.Library.Bits
