/-
Fixed-size character buffers: a store outside of the buffer fails. The bytes of a buffer up to some index
are known once they have been stored, whatever was there before; with a NUL behind them they are the
string that the buffer holds.
-/
import Mathlib.Logic.Function.Basic
import Mathlib.Data.List.Basic

namespace MiniOs.Library

/-- The bytes from the start of a buffer on. -/
abbrev Buffer := Nat → UInt8

/-- A C string, without its NUL. -/
structure CString where
  bytes : List UInt8
  noNul : 0 ∉ bytes

namespace Buffer

/-- `b[i] = x` in a buffer of `n` bytes. -/
def store (n : Nat) (b : Buffer) (i : Nat) (x : UInt8) : Option Buffer :=
  if i < n then some (Function.update b i x) else none

/-- The stores of a loop that runs over `l`, from index `i` on. -/
def storeAll (n : Nat) (b : Buffer) (i : Nat) : List UInt8 → Option Buffer
  | [] => some b
  | x :: l => (b.store n i x).bind fun b => b.storeAll n (i + 1) l

/-- The first `n` bytes. -/
def bytes (b : Buffer) (n : Nat) : List UInt8 := (List.range n).map b

/-- The string at the start of a buffer of `n` bytes. -/
def string (b : Buffer) (n : Nat) : List UInt8 := (b.bytes n).takeWhile (· ≠ 0)

/-- The buffer begins with these bytes. -/
def Starts (b : Buffer) (s : List UInt8) : Prop := ∀ i (h : i < s.length), b i = s[i]

/-- The string in the buffer. -/
structure Holds (b : Buffer) (s : List UInt8) : Prop where
  starts : b.Starts s
  nul : b s.length = 0

variable {n : Nat} {b b' : Buffer} {s l : List UInt8} {x : UInt8}

theorem starts_nil (b : Buffer) : b.Starts [] := fun i h => absurd h (Nat.not_lt_zero i)

theorem store_eq {i : Nat} (h : i < n) : b.store n i x = some (Function.update b i x) := if_pos h

theorem Starts.update (h : b.Starts s) : Starts (Function.update b s.length x) (s ++ [x]) := by
  intro i hi
  rw [List.length_append, List.length_singleton] at hi
  by_cases e : i = s.length
  · subst e
    simp
  · have hlt : i < s.length := by omega
    rw [Function.update_of_ne e, List.getElem_append_left hlt]
    exact h i hlt

theorem Starts.storeAll : ∀ {l s : List UInt8} {b : Buffer}, b.Starts s → s.length + l.length ≤ n →
    ∃ b', b.storeAll n s.length l = some b' ∧ b'.Starts (s ++ l)
  | [], s, b, h, _ => ⟨b, rfl, by rwa [List.append_nil]⟩
  | x :: l, s, b, h, hlen => by
    rw [List.length_cons] at hlen
    have hnext := h.update (x := x)
    obtain ⟨b', he, hs⟩ := hnext.storeAll (l := l) (by rw [List.length_append, List.length_singleton]; omega)
    rw [List.length_append, List.length_singleton] at he
    refine ⟨b', ?_, by rwa [List.append_assoc] at hs⟩
    rw [Buffer.storeAll, store_eq (by omega)]
    exact he

theorem Starts.terminate (h : b.Starts s) : Holds (Function.update b s.length 0) s := by
  refine ⟨fun i hi => ?_, Function.update_self ..⟩
  rw [Function.update_of_ne (by omega)]
  exact h i hi

theorem holds_storeAll (b : Buffer) (h : s.length < n) :
    ∃ b₁ b₂, b.storeAll n 0 s = some b₁ ∧ b₁.store n s.length 0 = some b₂ ∧ b₂.Holds s := by
  obtain ⟨b₁, he, hs⟩ := (starts_nil b).storeAll (n := n) (l := s) (by simpa using Nat.le_of_lt h)
  rw [List.nil_append] at hs
  exact ⟨b₁, _, he, store_eq h, hs.terminate⟩

theorem Starts.bytes_eq (h : b.Starts s) : b.bytes s.length = s := by
  apply List.ext_getElem
  · simp [bytes]
  · intro i _ hi
    simpa [bytes] using h i hi

theorem Holds.string_eq (h : b.Holds s) (hs : 0 ∉ s) (hlen : s.length < n) : b.string n = s := by
  have hbytes : b.bytes n = s ++ 0 :: (List.range (n - s.length - 1)).map fun i => b (s.length + 1 + i) := by
    have hn : n = s.length + (1 + (n - s.length - 1)) := by omega
    conv_lhs => rw [bytes, hn, List.range_add, List.range_add, List.map_append, List.map_append, List.map_append]
    have hfront : (List.range s.length).map b = s := h.starts.bytes_eq
    rw [hfront]
    simp [h.nul, Function.comp_def, Nat.add_assoc]
  rw [string, hbytes, List.takeWhile_append_of_pos]
  · simp
  · intro a ha
    have hne : a ≠ 0 := by
      rintro rfl
      exact hs ha
    simpa using hne

theorem Starts.take (h : b.Starts (s ++ l)) : b.Starts s := by
  intro i hi
  have hlt : i < (s ++ l).length := by rw [List.length_append]; omega
  rw [h i hlt, List.getElem_append_left hi]

end Buffer

end MiniOs.Library
