/-
Ring buffers: a buffer of `N` slots, of which the `len` slots from `tail` on (wrapping at `N`) hold
the queued elements, oldest first. Reading a slot at the tail and storing one behind the last act on
the queued elements as taking the head of a list and appending to it.
-/
import Mathlib.Logic.Function.Basic
import Mathlib.Data.List.Range
import Mathlib.Data.Nat.ModEq

namespace MiniOs.Library

open Function

/-- The queued elements, oldest first. -/
def queued {α : Type} (N : Nat) (buf : Nat → α) (tail len : Nat) : List α :=
  (List.range len).map fun i => buf ((tail + i) % N)

section

variable {α : Type} {N : Nat} {buf : Nat → α} {tail len : Nat}

@[simp] theorem queued_length : (queued N buf tail len).length = len := by simp [queued]

@[simp] theorem queued_zero : queued N buf tail 0 = [] := rfl

/-- An index that steps on and wraps at the end. -/
theorem wrap_eq {i : Nat} (h : i < N) : (if i + 1 = N then 0 else i + 1) = (i + 1) % N := by
  split
  · next e => rw [e, Nat.mod_self]
  · next e => rw [Nat.mod_eq_of_lt (by omega)]

/-- The oldest element stands at the tail; the others are queued from the next slot on. -/
theorem queued_succ (h : tail < N) : queued N buf tail (len + 1) = buf tail :: queued N buf ((tail + 1) % N) len := by
  unfold queued
  rw [List.range_succ_eq_map, List.map_cons, List.map_map, Nat.add_zero, Nat.mod_eq_of_lt h]
  congr 1
  apply List.map_congr_left
  intro i _
  simp only [Function.comp, Nat.mod_add_mod]
  congr 2
  omega

theorem queued_add (m n : Nat) :
    queued N buf tail (m + n) = queued N buf tail m ++ queued N buf ((tail + m) % N) n := by
  unfold queued
  rw [List.range_add, List.map_append, List.map_map]
  congr 1
  apply List.map_congr_left
  intro i _
  simp only [Function.comp, Nat.mod_add_mod, Nat.add_assoc]

theorem slot_ne {i j : Nat} (hij : i < j) (hj : j < N) : (tail + i) % N ≠ (tail + j) % N := by
  intro he
  have h1 : (tail + i) ≡ (tail + j) [MOD N] := he
  have h2 : i ≡ j [MOD N] := Nat.ModEq.add_left_cancel' tail h1
  have h3 := Nat.ModEq.eq_of_lt_of_lt h2 (by omega) hj
  omega

/-- Storing behind the newest element appends. -/
theorem queued_append (h : len < N) (a : α) :
    queued N (update buf ((tail + len) % N) a) tail (len + 1) = queued N buf tail len ++ [a] := by
  unfold queued
  rw [List.range_succ, List.map_append, List.map_singleton, update_self]
  congr 1
  apply List.map_congr_left
  intro i hi
  exact update_of_ne (slot_ne (List.mem_range.1 hi) h) ..

end

end MiniOs.Library
