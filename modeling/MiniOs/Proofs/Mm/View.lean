/-
What an address space shows through its page table: the frame of every address, and with the bytes of
the frames the memory the user sees. Two addresses share an entry exactly when they lie in the same
page (of the 39 bits the walk looks at). `Trans` states what a call on one address space may do to the
view, to the accounting and to the other address spaces.
-/
import MiniOs.Mm.MmSys
import MiniOs.Proofs.Mm.DupTable

namespace MiniOs.Mm

open Library PageAlloc Usage MmSys

/-! ## The walk -/

/-- The walk to `va` and to `a` ends in the same entry. -/
def SameSlot (va a : Nat) : Prop := l1Idx va = l1Idx a ∧ l2Idx va = l2Idx a ∧ l3Idx va = l3Idx a

theorem idx_eq (va a s : Nat) : Fin.ofNat 512 (va >>> s) = Fin.ofNat 512 (a >>> s) ↔
    va / 2 ^ s % 512 = a / 2 ^ s % 512 := by
  rw [Fin.ext_iff]
  simp only [Fin.ofNat, Nat.shiftRight_eq_div_pow]

theorem sameSlot_iff (va a : Nat) : SameSlot va a ↔ samePage va a = true := by
  unfold SameSlot l1Idx l2Idx l3Idx samePage userVaLimit pageSize
  rw [idx_eq, idx_eq, idx_eq, decide_eq_true_eq]
  omega

section Slots

variable {t : L1} {va a : Nat} {old pte : BitVec 64}

theorem slot_congr (t : L1) (h : SameSlot va a) : t.slot va = t.slot a := by
  obtain ⟨h1, h2, h3⟩ := h
  unfold L1.slot
  rw [h1, h2, h3]

theorem slot_setSlot (h : t.slot va = some old) :
    (t.setSlot va pte).slot a = if samePage va a then some pte else t.slot a := by
  unfold L1.slot at h
  split at h
  · cases h
  · rename_i l2 h1
    split at h
    · cases h
    · rename_i l3 h2
      have hset : t.setSlot va pte = t.set (l1Idx va) (l2.set (l2Idx va) (l3.set (l3Idx va) pte)) := by
        unfold L1.setSlot; simp only [h1, h2]
      rw [hset]
      -- follow the walk to `a` as long as it goes where `va` goes
      unfold L1.slot
      rw [Node.set_ent]
      by_cases e1 : l1Idx a = l1Idx va
      · rw [if_pos e1, e1, h1]
        simp only [Node.set_ent]
        by_cases e2 : l2Idx a = l2Idx va
        · simp only [e2, if_true, h2, L3.set_pte]
          by_cases e3 : l3Idx a = l3Idx va
          · rw [if_pos e3, if_pos ((sameSlot_iff va a).1 ⟨e1.symm, e2.symm, e3.symm⟩)]
          · rw [if_neg e3, if_neg fun hs => e3 ((sameSlot_iff va a).2 hs).2.2.symm]
        · simp only [if_neg e2, if_neg fun hs => e2 ((sameSlot_iff va a).2 hs).2.1.symm]
      · rw [if_neg e1, if_neg fun hs => e1 ((sameSlot_iff va a).2 hs).1.symm]

end Slots

/-! ## Frames -/

/-- The frame of an address. -/
def L1.frameOf (P : PageAlloc) (t : L1) (va : Nat) : Option Nat :=
  match t.slot va with
  | none => none
  | some pte => if ptePresent pte then P.pteFrame pte else none

/-- The byte the page table shows at an address; untouched pages show zero. -/
def view (P : PageAlloc) (data : Nat → Nat → UInt8) (t : L1) (va : Nat) : UInt8 :=
  match t.frameOf P va with
  | none => 0
  | some p => data p (va % pageSize)

/-- Every present entry points into the pool. -/
def Backed (P : PageAlloc) (t : L1) : Prop :=
  ∀ va pte, t.slot va = some pte → ptePresent pte = true → (P.pteFrame pte).isSome = true

section Frames

variable {P : PageAlloc} {t t' : L1} {va a p : Nat} {data data' : Nat → Nat → UInt8}

theorem frameOf_of_slot {pte : BitVec 64} (h : t.slot va = some pte) :
    t.frameOf P va = if ptePresent pte then P.pteFrame pte else none := by
  unfold L1.frameOf; rw [h]

theorem frameOf_of_unmapped (h : t.vaMapped va = false) : t.frameOf P va = none := by
  unfold L1.vaMapped at h
  unfold L1.frameOf
  cases hs : t.slot va with
  | none => rfl
  | some pte => rw [hs] at h; simp_all

theorem frameOf_some (h : t.frameOf P va = some p) :
    ∃ pte, t.slot va = some pte ∧ ptePresent pte = true ∧ P.pteFrame pte = some p := by
  unfold L1.frameOf at h
  cases hs : t.slot va with
  | none => rw [hs] at h; cases h
  | some pte =>
    rw [hs] at h
    by_cases hp : ptePresent pte = true
    · exact ⟨pte, rfl, hp, by simpa [hp] using h⟩
    · simp [hp] at h

theorem frameOf_mem_refs (h : t.frameOf P va = some p) : p ∈ (L1.usage P t).refs := by
  obtain ⟨pte, hs, hpres, hp⟩ := frameOf_some h
  obtain ⟨rest, e, -⟩ := L1.slot_split (P := P) hs
  rw [e, refs_add, refs_pteUsage hpres hp]
  exact Multiset.mem_add.2 (.inr (Multiset.mem_singleton_self p))

theorem frameOf_setSlot {old pte : BitVec 64} (h : t.slot va = some old) :
    (t.setSlot va pte).frameOf P a =
      if samePage va a then (if ptePresent pte then P.pteFrame pte else none) else t.frameOf P a := by
  unfold L1.frameOf
  rw [slot_setSlot h]
  by_cases hs : samePage va a = true <;> simp [hs]

theorem view_of_frameOf (hf : t'.frameOf P va = t.frameOf P va) (hd : ∀ p, t.frameOf P va = some p → data' p = data p) :
    view P data' t' va = view P data t va := by
  unfold view
  rw [hf]
  cases hp : t.frameOf P va with
  | none => rfl
  | some p => simp only [hd p hp]

theorem Backed.setSlot {old pte : BitVec 64} (hb : Backed P t) (h : t.slot va = some old)
    (hpte : ptePresent pte = true → (P.pteFrame pte).isSome = true) : Backed P (t.setSlot va pte) := by
  intro a e ha hpres
  rw [slot_setSlot h] at ha
  split at ha
  · cases ha; exact hpte hpres
  · exact hb a e ha hpres

end Frames

end MiniOs.Mm
