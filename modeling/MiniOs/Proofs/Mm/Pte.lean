/-
The bits of page-table entries: every way the code builds or changes an entry, with its effect on the
present, user and read-only bits and on the frame the entry points to.
-/
import MiniOs.Mm.Pte
import MiniOs.Library.Bits
import MiniOs.Proofs.Mm.PageAlloc

namespace MiniOs.Mm

open Library

/-! ## Single bits -/

@[simp] theorem hasBits_or (x y f : BitVec 64) : hasBits (x ||| y) f = (hasBits x f || hasBits y f) := by
  unfold hasBits
  rw [Bits.or_and_distrib, Bool.eq_iff_iff]
  simp only [bne_iff_ne, ne_eq, Bool.or_eq_true]
  rw [← not_and_or]
  exact not_congr BitVec.or_eq_zero_iff

variable {f x : BitVec 64}

theorem hasBits_and_of_sub {m : BitVec 64} (h : m &&& f = f) : hasBits (x &&& m) f = hasBits x f := by
  unfold hasBits
  rw [BitVec.and_assoc, h]

theorem hasBits_and_of_disjoint {m : BitVec 64} (h : m &&& f = 0) : hasBits (x &&& m) f = false := by
  unfold hasBits
  rw [BitVec.and_assoc, h]
  simp

section

variable (prot : BitVec 64)
include prot

theorem present_protToPte : ptePresent (protToPte prot) = true := by
  unfold ptePresent protToPte
  simp only [hasBits_or]
  rw [show hasBits pteValid 1 = true by decide]
  simp

theorem rdonly_protToPte : hasBits (protToPte prot) pteRdonly = !hasBits prot protWrite := by
  unfold protToPte
  simp only [hasBits_or]
  rw [show hasBits pteValid pteRdonly = false by decide, show hasBits pteAf pteRdonly = false by decide,
    show hasBits pteShared pteRdonly = false by decide, show hasBits pteNg pteRdonly = false by decide]
  split <;> split <;> split <;> simp_all <;> decide

theorem user_protToPte :
    hasBits (protToPte prot) pteUser = hasBits prot (protRead ||| protWrite ||| protExec) := by
  unfold protToPte
  split <;> split <;> split <;> simp_all <;> decide

theorem uxn_protToPte : hasBits (protToPte prot) pteUxn = !hasBits prot protExec := by
  unfold protToPte
  split <;> split <;> split <;> simp_all <;> decide

theorem af_protToPte : hasBits (protToPte prot) pteAf = true := by
  unfold protToPte
  split <;> split <;> split <;> decide

/-- The flag bits of an entry do not reach into its address field. -/
theorem addr_protToPte : protToPte prot &&& pteAddrMask = 0 := by
  unfold protToPte
  split <;> split <;> split <;> decide

end

/-! ## The address field -/

theorem addr_or (h : f &&& pteAddrMask = 0) : (x ||| f) &&& pteAddrMask = x &&& pteAddrMask := by
  rw [Bits.or_and_distrib, h]
  simp

theorem addr_and_mask (x : BitVec 64) : x &&& pteAddrMask &&& pteAddrMask = x &&& pteAddrMask := by
  rw [BitVec.and_assoc, BitVec.and_self]

theorem pteKva_congr {y : BitVec 64} (h : x &&& pteAddrMask = y &&& pteAddrMask) : pteKva x = pteKva y := by
  unfold pteKva; rw [h]

section

variable (pte : BitVec 64)
include pte

theorem addr_wrprotect : pteWrprotect pte &&& pteAddrMask = pte &&& pteAddrMask :=
  addr_or (by decide)

theorem addr_mkwrite : pteMkwrite pte &&& pteAddrMask = pte &&& pteAddrMask := by
  unfold pteMkwrite
  rw [BitVec.and_assoc]
  congr 1

theorem addr_flags : pte &&& pteFlagsMask &&& pteAddrMask = 0 := by
  rw [BitVec.and_assoc]
  rw [show pteFlagsMask &&& pteAddrMask = 0 by decide]
  simp

@[simp] theorem kva_wrprotect : pteKva (pteWrprotect pte) = pteKva pte :=
  pteKva_congr (addr_wrprotect pte)

@[simp] theorem kva_mkwrite : pteKva (pteMkwrite pte) = pteKva pte :=
  pteKva_congr (addr_mkwrite pte)

@[simp] theorem present_wrprotect : ptePresent (pteWrprotect pte) = ptePresent pte := by
  unfold ptePresent pteWrprotect
  rw [hasBits_or, show hasBits pteRdonly 1 = false by decide, Bool.or_false]

@[simp] theorem present_mkwrite : ptePresent (pteMkwrite pte) = ptePresent pte :=
  hasBits_and_of_sub (by decide)

@[simp] theorem rdonly_wrprotect : hasBits (pteWrprotect pte) pteRdonly = true := by
  unfold pteWrprotect
  rw [hasBits_or, show hasBits pteRdonly pteRdonly = true by decide, Bool.or_true]

@[simp] theorem rdonly_mkwrite : hasBits (pteMkwrite pte) pteRdonly = false :=
  hasBits_and_of_disjoint (by decide)

@[simp] theorem user_mkwrite : hasBits (pteMkwrite pte) pteUser = hasBits pte pteUser :=
  hasBits_and_of_sub (by decide)

end

/-! ## Entries for pool pages -/

variable {st : PageAlloc}

/-- The kernel address of a pool page survives the trip through an entry: it is page aligned and its
physical address fits the address field. -/
theorem kva_mkPte (h : st.PoolOk) {p : Nat} (hp : p < st.poolPages)
    (hf : f &&& pteAddrMask = 0) : pteKva (mkPte (st.pfnToAddr p) f) = st.pfnToAddr p := by
  have hlt : st.pfnToAddr p < virtMemEnd := by
    have := h.end_lt hp
    unfold PageAlloc.pfnToAddr pageSize at *
    omega
  have hge : kernelVirtBase ≤ st.pfnToAddr p := h.base.trans (Nat.le_add_right _ _)
  have hdvd : pageSize ∣ st.pfnToAddr p := (Nat.dvd_add_right h.aligned).2 (Dvd.intro_left p rfl)
  generalize st.pfnToAddr p = a at *
  have hphys : (virtToPhys (BitVec.ofNat 64 a)).toNat = a - physVirtOffset.toNat := by
    unfold virtToPhys
    have ha : (BitVec.ofNat 64 a).toNat = a := by
      rw [BitVec.toNat_ofNat, Nat.mod_eq_of_lt]
      exact hlt.trans (by decide)
    rw [BitVec.toNat_sub_of_le, ha]
    rw [BitVec.le_def, ha]
    exact le_trans (by decide) hge
  have hkeep : virtToPhys (BitVec.ofNat 64 a) &&& pteAddrMask = virtToPhys (BitVec.ofNat 64 a) := by
    apply BitVec.eq_of_toNat_eq
    rw [BitVec.toNat_and, hphys, show pteAddrMask.toNat = (2 ^ 36 - 1) <<< 12 by decide]
    refine Bits.and_field_eq_self ?_ ?_
    · exact Nat.dvd_sub hdvd (by decide)
    · have hoff : physVirtOffset.toNat = 0xffff800040000000 := by decide
      unfold virtMemEnd kernelVirtBase physMemSize at hlt
      omega
  unfold pteKva mkPte
  rw [addr_or hf, addr_and_mask, hkeep]
  unfold physToVirt virtToPhys
  rw [BitVec.add_comm, BitVec.sub_add_cancel, BitVec.toNat_ofNat, Nat.mod_eq_of_lt]
  exact hlt.trans (by decide)

/-- So an entry for a pool page points back to that page. -/
theorem pteFrame_mkPte (h : st.PoolOk) {p : Nat} (hp : p < st.poolPages)
    (hf : f &&& pteAddrMask = 0) : st.pteFrame (mkPte (st.pfnToAddr p) f) = some p := by
  have hin : st.InPool p 0 := ⟨Nat.zero_le _, one_dvd _, hp⟩
  unfold PageAlloc.pteFrame PageAlloc.virtToPage
  rw [kva_mkPte h hp hf]
  have hpool : st.addrInPool (st.pfnToAddr p) 0 = true := by
    rw [PageAlloc.addrInPool_pfnToAddr h hin]
    exact h.aligned
  simp only [PageAlloc.pfnToAddr_pos h p, hpool, PageAlloc.addrToPfn_pfnToAddr h hp, PageAlloc.pfnInPool, hp]
  simp

theorem pteFrame_congr {st' : PageAlloc} (h1 : st'.memStart = st.memStart) (h2 : st'.memSize = st.memSize)
    (h3 : st'.poolPages = st.poolPages) (pte : BitVec 64) : st'.pteFrame pte = st.pteFrame pte := by
  unfold PageAlloc.pteFrame PageAlloc.virtToPage PageAlloc.addrInPool PageAlloc.addrToPfn PageAlloc.pfnInPool
  rw [h1, h2, h3]

theorem pteFrame_of_kva {y : BitVec 64} (h : pteKva x = pteKva y) :
    st.pteFrame x = st.pteFrame y := by
  unfold PageAlloc.pteFrame; rw [h]

end MiniOs.Mm
