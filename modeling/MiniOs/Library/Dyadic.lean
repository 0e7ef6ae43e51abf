/-
Aligned power-of-two blocks of a page range: the block of order `o` at `p` is the interval
`[p, p + 2^o)`, its buddy is the block at `p xor 2^o`. An aligned block and its buddy are the two
halves of the aligned block of the next order, and two aligned blocks are nested or disjoint.
-/
import Mathlib

namespace MiniOs.Library.Dyadic

/-- The pages of the block of order `o` at `p`. -/
def block (p o : Nat) : Set Nat := Set.Ico p (p + 2 ^ o)

/-- The other half of the block of order `o + 1` around `p`. -/
def buddy (p o : Nat) : Nat := p ^^^ 2 ^ o

variable {o p : Nat}

@[simp] theorem mem_block {x : Nat} : x ∈ block p o ↔ p ≤ x ∧ x < p + 2 ^ o := Iff.rfl

theorem head_mem_block (p o : Nat) : p ∈ block p o := ⟨le_rfl, by have := Nat.two_pow_pos o; omega⟩

theorem buddy_mul (k o : Nat) : buddy (k * 2 ^ o) o = (k ^^^ 1) * 2 ^ o := by
  have h := Nat.shiftLeft_xor_distrib (a := k) (b := 1) (i := o)
  simp only [Nat.shiftLeft_eq, one_mul] at h
  exact h.symm

theorem dvd_succ_iff_even {k : Nat} : 2 ^ (o + 1) ∣ k * 2 ^ o ↔ Even k := by
  rw [pow_succ, mul_comm (2 ^ o) 2, Nat.mul_dvd_mul_iff_right (Nat.two_pow_pos o), even_iff_two_dvd]

/-- A block that starts a larger aligned block is its lower half. -/
theorem buddy_of_dvd_succ (h : 2 ^ (o + 1) ∣ p) : buddy p o = p + 2 ^ o := by
  obtain ⟨k, rfl⟩ : 2 ^ o ∣ p := (pow_dvd_pow 2 (Nat.le_succ o)).trans h
  rw [mul_comm] at h ⊢
  rw [buddy_mul, Nat.xor_one_of_even (dvd_succ_iff_even.1 h), Nat.succ_mul]

/-- An aligned block that does not is the upper half. -/
theorem buddy_of_not_dvd_succ (h : 2 ^ o ∣ p) (h' : ¬ 2 ^ (o + 1) ∣ p) :
    buddy p o + 2 ^ o = p ∧ 2 ^ (o + 1) ∣ buddy p o := by
  obtain ⟨k, rfl⟩ := h
  rw [mul_comm] at h' ⊢
  rw [dvd_succ_iff_even, Nat.not_even_iff_odd] at h'
  obtain ⟨j, rfl⟩ := h'
  rw [buddy_mul, Nat.xor_one_of_odd (by simp), Nat.add_sub_cancel, dvd_succ_iff_even]
  exact ⟨by ring, by simp⟩

theorem buddy_buddy (p o : Nat) : buddy (buddy p o) o = p := by
  unfold buddy; rw [Nat.xor_assoc, Nat.xor_self, Nat.xor_zero]

theorem buddy_dvd (h : 2 ^ o ∣ p) : 2 ^ o ∣ buddy p o := by
  obtain ⟨k, rfl⟩ := h
  rw [mul_comm, buddy_mul]
  exact Dvd.intro_left _ rfl

theorem buddy_ne (p o : Nat) : buddy p o ≠ p := by
  intro h
  have hz : p ^^^ (p ^^^ 2 ^ o) = p ^^^ p := congrArg (p ^^^ ·) h
  rw [← Nat.xor_assoc, Nat.xor_self, Nat.zero_xor] at hz
  exact (Nat.two_pow_pos o).ne' hz

/-- The lower of the two halves starts the block of the next order. -/
theorem min_buddy_dvd (h : 2 ^ o ∣ p) : 2 ^ (o + 1) ∣ min p (buddy p o) := by
  by_cases h' : 2 ^ (o + 1) ∣ p
  · rw [buddy_of_dvd_succ h', min_eq_left (by omega)]; exact h'
  · obtain ⟨e, hd⟩ := buddy_of_not_dvd_succ h h'
    rw [min_eq_right (by omega)]; exact hd

/-- A block and its buddy make up the block of the next order. -/
theorem block_succ_eq (h : 2 ^ o ∣ p) :
    block (min p (buddy p o)) (o + 1) = block p o ∪ block (buddy p o) o := by
  have hp := pow_succ 2 o
  ext x
  by_cases h' : 2 ^ (o + 1) ∣ p
  · rw [buddy_of_dvd_succ h', min_eq_left (by omega)]
    simp only [Set.mem_union, mem_block]
    omega
  · obtain ⟨e, -⟩ := buddy_of_not_dvd_succ h h'
    rw [min_eq_right (by omega)]
    simp only [Set.mem_union, mem_block]
    omega

theorem block_disjoint_buddy (h : 2 ^ o ∣ p) : Disjoint (block p o) (block (buddy p o) o) := by
  rw [Set.disjoint_left]
  intro x hx hy
  by_cases h' : 2 ^ (o + 1) ∣ p
  · rw [buddy_of_dvd_succ h'] at hy
    simp only [mem_block] at hx hy; omega
  · obtain ⟨e, -⟩ := buddy_of_not_dvd_succ h h'
    simp only [mem_block] at hx hy; omega

/-- An aligned head below an aligned bound has its whole block below it. -/
theorem block_le {m : Nat} (h : 2 ^ o ∣ p) (ho : o ≤ m) (hp : p < 2 ^ m) : p + 2 ^ o ≤ 2 ^ m := by
  obtain ⟨k, rfl⟩ := h
  obtain ⟨j, hj⟩ := pow_dvd_pow 2 ho
  rw [hj] at hp ⊢
  have : k + 1 ≤ j := lt_of_mul_lt_mul_left' hp
  calc 2 ^ o * k + 2 ^ o = 2 ^ o * (k + 1) := by ring
    _ ≤ 2 ^ o * j := Nat.mul_le_mul_left _ this

end MiniOs.Library.Dyadic
