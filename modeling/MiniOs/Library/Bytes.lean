/-
Little-endian bytes: numbers and lists of 64-bit words as bytes and back, and the loads and stores of runs
of bytes in a byte-addressed memory.
-/
import Mathlib.Algebra.Order.Ring.Nat
import Mathlib.Data.List.Basic

namespace MiniOs.Library.Bytes

abbrev Byte := BitVec 8

/-! ## Numbers -/

/-- The low `n` bytes of a number. -/
def toBytes : Nat → Nat → List Byte
  | 0, _ => []
  | n + 1, x => BitVec.ofNat 8 x :: toBytes n (x / 256)

def ofBytes : List Byte → Nat
  | [] => 0
  | b :: bs => b.toNat + 256 * ofBytes bs

@[simp] theorem length_toBytes (n x : Nat) : (toBytes n x).length = n := by
  induction n generalizing x with
  | zero => rfl
  | succ n ih => simp [toBytes, ih]

theorem ofBytes_toBytes (n x : Nat) : ofBytes (toBytes n x) = x % 256 ^ n := by
  induction n generalizing x with
  | zero => simp [toBytes, ofBytes, Nat.mod_one]
  | succ n ih =>
    have hsplit : x % 256 ^ (n + 1) = x % 256 + 256 * (x / 256 % 256 ^ n) := by rw [pow_succ', Nat.mod_mul]
    simp [toBytes, ofBytes, ih, hsplit]

/-- The same with unsigned bytes. -/
def toUInt8s (n x : Nat) : List UInt8 := (toBytes n x).map UInt8.ofBitVec

def ofUInt8s (bs : List UInt8) : Nat := ofBytes (bs.map UInt8.toBitVec)

@[simp] theorem length_toUInt8s (n x : Nat) : (toUInt8s n x).length = n := by simp [toUInt8s]

theorem ofUInt8s_toUInt8s (n x : Nat) : ofUInt8s (toUInt8s n x) = x % 256 ^ n := by
  have hid : (UInt8.toBitVec ∘ UInt8.ofBitVec) = id := rfl
  rw [ofUInt8s, toUInt8s, List.map_map, hid, List.map_id, ofBytes_toBytes]

theorem ofBytes_lt : ∀ bs : List Byte, ofBytes bs < 256 ^ bs.length
  | [] => by decide
  | b :: bs => by
    have hb := b.isLt
    have hbs := ofBytes_lt bs
    rw [ofBytes, List.length_cons, pow_succ]
    omega

theorem ofUInt8s_lt (bs : List UInt8) : ofUInt8s bs < 256 ^ bs.length := by
  have h := ofBytes_lt (bs.map UInt8.toBitVec)
  rwa [List.length_map] at h

/-! ## Words -/

def encode (ws : List (BitVec 64)) : List Byte := ws.flatMap fun w => toBytes 8 w.toNat

def decode : Nat → List Byte → List (BitVec 64)
  | 0, _ => []
  | n + 1, bs => BitVec.ofNat 64 (ofBytes (bs.take 8)) :: decode n (bs.drop 8)

@[simp] theorem length_encode (ws : List (BitVec 64)) : (encode ws).length = 8 * ws.length := by
  induction ws with
  | nil => rfl
  | cons w ws ih =>
    rw [encode, List.flatMap_cons, List.length_append, length_toBytes, ← encode, ih, List.length_cons]
    omega

theorem decode_encode (ws : List (BitVec 64)) : decode ws.length (encode ws) = ws := by
  induction ws with
  | nil => rfl
  | cons w ws ih =>
    have hbytes : encode (w :: ws) = toBytes 8 w.toNat ++ encode ws := rfl
    have hword : BitVec.ofNat 64 (ofBytes (toBytes 8 w.toNat)) = w := by
      rw [ofBytes_toBytes]
      apply BitVec.eq_of_toNat_eq
      have hlt := w.isLt
      rw [BitVec.toNat_ofNat, Nat.mod_eq_of_lt (b := 256 ^ 8) hlt, Nat.mod_eq_of_lt hlt]
    rw [List.length_cons, decode, hbytes, List.take_left' (length_toBytes 8 _), List.drop_left' (length_toBytes 8 _),
      hword, ih]

/-! ## Memory -/

variable {m : Nat → Byte} {a b : Nat} {bs : List Byte}

/-- Memory after the bytes have been stored from address `a` on. -/
def store (m : Nat → Byte) (a : Nat) (bs : List Byte) : Nat → Byte :=
  fun i => if a ≤ i then (bs[i - a]?).getD (m i) else m i

def load (m : Nat → Byte) (a n : Nat) : List Byte := (List.range n).map fun i => m (a + i)

@[simp] theorem length_load (m : Nat → Byte) (a n : Nat) : (load m a n).length = n := by simp [load]

theorem store_outside {i : Nat} (h : i < a ∨ a + bs.length ≤ i) : store m a bs i = m i := by
  unfold store
  split_ifs with ha
  · rw [List.getElem?_eq_none (by omega), Option.getD_none]
  · rfl

theorem load_store_same (m : Nat → Byte) (a : Nat) (bs : List Byte) : load (store m a bs) a bs.length = bs := by
  apply List.ext_getElem
  · simp
  · intro i hi hbs
    simp [load, store, hbs]

end MiniOs.Library.Bytes
