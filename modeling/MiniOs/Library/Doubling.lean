/-
Growing a capacity by doubling in machine words: from a power of two the loop ends exactly for what half
of the words can hold, and then with the next power of two.
-/
import Mathlib.Algebra.Order.Ring.Nat
import Mathlib.Tactic.SplitIfs

namespace MiniOs.Library

/-- `while (cap < need) cap <<= 1;` in words of `w` bits; `none` while the loop has not ended. -/
def doubleUntil (w : Nat) : Nat → Nat → Nat → Option Nat
  | 0, _, _ => none
  | fuel + 1, cap, need => if cap < need then doubleUntil w fuel (cap * 2 % 2 ^ w) need else some cap

variable {w j need : Nat}

theorem doubleUntil_le : ∀ {fuel cap c : Nat}, doubleUntil w fuel cap need = some c → need ≤ c
  | fuel + 1, cap, c, h => by
    rw [doubleUntil] at h
    split_ifs at h with hlt
    · exact doubleUntil_le h
    · cases h
      exact Nat.le_of_not_lt hlt

/-- From any capacity, what some doublings reach is reached without leaving the words. -/
theorem doubleUntil_isSome : ∀ {k cap : Nat}, 0 < cap → need ≤ cap * 2 ^ k → 2 * need ≤ 2 ^ w →
    (doubleUntil w (k + 1) cap need).isSome
  | 0, cap, _, hk, _ => by
    rw [doubleUntil, if_neg (by omega)]
    rfl
  | k + 1, cap, hpos, hk, hneed => by
    rw [doubleUntil]
    split_ifs with hlt
    · rw [Nat.mod_eq_of_lt (by omega)]
      refine doubleUntil_isSome (by omega) ?_ hneed
      rwa [Nat.mul_assoc, ← Nat.pow_succ']
    · rfl

theorem doubleUntil_zero (h : 0 < need) : ∀ fuel, doubleUntil w fuel 0 need = none
  | 0 => rfl
  | fuel + 1 => by
    rw [doubleUntil, if_pos h, Nat.zero_mul, Nat.zero_mod]
    exact doubleUntil_zero h fuel

/-- Doubling a power of two: the next one, or zero at the top. -/
theorem double_pow (hj : j < w) : 2 ^ j * 2 % 2 ^ w = if j + 1 < w then 2 ^ (j + 1) else 0 := by
  rw [← Nat.pow_succ]
  split_ifs with h
  · exact Nat.mod_eq_of_lt (Nat.pow_lt_pow_right (by omega) h)
  · obtain rfl : j + 1 = w := by omega
    exact Nat.mod_self _

theorem doubleUntil_pow : ∀ (k : Nat) {j : Nat}, j + k + 1 = w → need ≤ 2 ^ (w - 1) →
    ∃ fuel i, j ≤ i ∧ i < w ∧ doubleUntil w fuel (2 ^ j) need = some (2 ^ i)
  | 0, j, hw, hneed => by
    have hj : w - 1 = j := by omega
    rw [hj] at hneed
    exact ⟨1, j, Nat.le_refl _, by omega, by rw [doubleUntil, if_neg (by omega)]⟩
  | k + 1, j, hw, hneed => by
    by_cases hlt : 2 ^ j < need
    · obtain ⟨fuel, i, h1, h2, h3⟩ := doubleUntil_pow k (j := j + 1) (by omega) hneed
      refine ⟨fuel + 1, i, by omega, h2, ?_⟩
      rw [doubleUntil, if_pos hlt, double_pow (by omega), if_pos (by omega)]
      exact h3
    · exact ⟨1, j, Nat.le_refl _, by omega, by rw [doubleUntil, if_neg hlt]⟩

/-- Where the loop ends, it ends with a power of two. -/
theorem doubleUntil_pow_eq {c : Nat} : ∀ {fuel j : Nat}, j < w → doubleUntil w fuel (2 ^ j) need = some c →
    ∃ i, j ≤ i ∧ i < w ∧ c = 2 ^ i
  | fuel + 1, j, hj, h => by
    rw [doubleUntil] at h
    by_cases hlt : 2 ^ j < need
    · rw [if_pos hlt, double_pow hj] at h
      by_cases hnext : j + 1 < w
      · rw [if_pos hnext] at h
        obtain ⟨i, h1, h2, h3⟩ := doubleUntil_pow_eq hnext h
        exact ⟨i, by omega, h2, h3⟩
      · rw [if_neg hnext, doubleUntil_zero (Nat.zero_lt_of_lt hlt)] at h
        cases h
    · rw [if_neg hlt] at h
      cases h
      exact ⟨j, Nat.le_refl _, hj, rfl⟩

/-- Past the largest power of two the loop does not end. -/
theorem doubleUntil_pow_none (hneed : 2 ^ (w - 1) < need) : ∀ {fuel j : Nat}, j < w →
    doubleUntil w fuel (2 ^ j) need = none
  | 0, _, _ => rfl
  | fuel + 1, j, hj => by
    have hlt : 2 ^ j < need := Nat.lt_of_le_of_lt (Nat.pow_le_pow_right (by omega) (by omega)) hneed
    rw [doubleUntil, if_pos hlt, double_pow hj]
    split_ifs with h
    · exact doubleUntil_pow_none hneed h
    · exact doubleUntil_zero (Nat.zero_lt_of_lt hlt) fuel

end MiniOs.Library
