/-
Where `do_mmap` puts a mapping whose address it chooses itself. The sums of the search wrap; that a
length too large is refused rests on `insert_vma`, which takes no range that ends before it starts.
-/
import MiniOs.Proofs.Mm.Munmap

namespace MiniOs.Mm

open MmSys

variable {k : Kmem} {mm : MmStruct} {len limit last va : Nat} {prot flags : BitVec 64}

/-- The call placed `len` bytes at `va`, where nothing was, and changed nothing else. -/
structure Placed (mm mm' : MmStruct) (va len : Nat) (mapProt : BitVec 64) : Prop where
  aligned : pageSize ∣ va
  noWrap : va + roundUp len < 2 ^ 64
  free : ∀ a, InRange va len a → flagsAt mm.mmap a = none
  limit : va + roundUp len ≤ stackLimit mm userStackBottom
  vmas : VmasOk mm'.mmap
  area : ⟨va, va + roundUp len, mapProt⟩ ∈ mm'.mmap
  flags : ∀ a, flagsAt mm'.mmap a = if InRange va len a then some mapProt else flagsAt mm.mmap a
  pages : mm'.pgd = mm.pgd

theorem pageAlignUp_aligned (x : Nat) : pageSize ∣ pageAlignUp x ∧ pageAlignUp x < 2 ^ 64 := by
  simp only [pageAlignUp, pageSize]
  omega

/-- What the search returns, when it finds a place: by its own wrapping sum it ends below the stack. -/
theorem findUnmappedLoop_spec (vmas : List Vma) (hlast : pageSize ∣ last ∧ last < 2 ^ 64) :
    findUnmappedLoop len limit last vmas = 0 ∨
      (pageSize ∣ findUnmappedLoop len limit last vmas ∧ findUnmappedLoop len limit last vmas < 2 ^ 64) ∧
        (findUnmappedLoop len limit last vmas + len) % 2 ^ 64 ≤ limit := by
  induction vmas generalizing last with
  | nil =>
    unfold findUnmappedLoop
    split_ifs with h
    · exact Or.inr ⟨hlast, h⟩
    · exact Or.inl rfl
  | cons v vmas ih =>
    unfold findUnmappedLoop
    split_ifs with h hend
    · exact Or.inr ⟨hlast, h.2⟩
    · exact ih (pageAlignUp_aligned v.vmEnd)
    · exact ih hlast

theorem not_errno : ¬ (0 : Int) ≤ -enomem ∧ ¬ (0 : Int) ≤ -einval := by decide

theorem stackLimit_eq (hsize : userStackSize ≤ mm.stackTop) (hword : mm.stackTop < 2 ^ 64) (dflt : Nat) :
    stackLimit mm dflt = mm.stackTop - userStackSize := by
  have hpos : 0 < userStackSize := by decide
  unfold stackLimit
  rw [if_pos (by omega)]
  generalize userStackSize = size at *
  omega

theorem findUnmappedArea_spec (mm : MmStruct) (len : Nat) :
    findUnmappedArea mm len = 0 ∨ (pageSize ∣ findUnmappedArea mm len ∧ findUnmappedArea mm len < 2 ^ 64) ∧
      (findUnmappedArea mm len + len) % 2 ^ 64 ≤ stackLimit mm userStackBottom :=
  findUnmappedLoop_spec mm.mmap (pageAlignUp_aligned mm.mmapBase)

theorem doMmapInsert_neg (h : (doMmapInsert k mm va len prot).1 < 0) : (doMmapInsert k mm va len prot).2.1 = mm := by
  unfold doMmapInsert at h ⊢
  split
  · rfl
  · rename_i k' hobj
    rw [hobj] at h
    dsimp only at h ⊢
    split
    · rfl
    · rename_i vmas hins
      rw [hins] at h
      exact absurd h (by simp)

/-- A range that was inserted did not wrap. -/
theorem doMmapInsert_placed (hok : VmasOk mm.mmap) (hva : pageSize ∣ va ∧ va < 2 ^ 64)
    (hlimit : (va + pageAlignUp len) % 2 ^ 64 ≤ stackLimit mm userStackBottom) (hlen : len < 2 ^ 64)
    (h : 0 ≤ (doMmapInsert k mm va (pageAlignUp len) prot).1) : (doMmapInsert k mm va (pageAlignUp len) prot).1 = va ∧
      Placed mm (doMmapInsert k mm va (pageAlignUp len) prot).2.1 va len prot := by
  unfold doMmapInsert at h ⊢
  cases hobj : k.objCall with
  | mk ok k' =>
    rw [hobj] at h
    cases ok with
    | false => exact absurd h not_errno.1
    | true =>
      dsimp only at h ⊢
      cases hins : insertVma mm.mmap ⟨va, (va + pageAlignUp len) % 2 ^ 64, prot⟩ with
      | none =>
        rw [hins] at h
        exact absurd h not_errno.2
      | some vmas =>
        refine ⟨rfl, ?_⟩
        -- the end of the new VMA lies behind its start
        have hlt : va < (va + pageAlignUp len) % 2 ^ 64 := by
          by_contra hle
          unfold insertVma at hins
          simp only [ge_iff_le, Nat.le_of_not_lt hle, if_true] at hins
          cases hins
        have hround : pageAlignUp len = roundUp len ∧ va + roundUp len < 2 ^ 64 := by
          have hbound := (pageAlignUp_aligned len).2
          simp only [pageAlignUp, roundUp, pageSize] at hlt hbound ⊢
          omega
        rw [hround.1, Nat.mod_eq_of_lt hround.2] at hins hlimit
        have hnew : Vma.Ok ⟨va, va + roundUp len, prot⟩ :=
          ⟨Nat.le_add_right .., hva.1, Nat.dvd_add hva.1 (pageSize_dvd_roundUp len), hround.2⟩
        have hi := insertVma_inserts hok hnew hins
        exact ⟨hva.1, hround.2, hi.free, hlimit, hi.ok, hi.mem, hi.flags, rfl⟩

/-- An anonymous mapping without a fixed address fails and changes nothing, or it is placed. -/
theorem doMmap_placed (k : Kmem) (mm : MmStruct) (addr len : Nat) (prot flags : BitVec 64) (hok : VmasOk mm.mmap)
    (hlen : len < 2 ^ 64) (hanon : hasBits flags mapAnonymous = true) (hfixed : hasBits flags mapFixed = false) :
    ((doMmap k mm addr len prot flags).1 < 0 → (doMmap k mm addr len prot flags).2.1 = mm) ∧
      (0 ≤ (doMmap k mm addr len prot flags).1 → ∃ va : Nat, (doMmap k mm addr len prot flags).1 = va ∧
        Placed mm (doMmap k mm addr len prot flags).2.1 va len (linuxProtToMap prot) ∧
        (userStackSize ≤ mm.stackTop → mm.stackTop < 2 ^ 64 → va + roundUp len ≤ mm.stackTop - userStackSize)) := by
  unfold doMmap
  rw [hanon, hfixed]
  simp only [Bool.not_true, Bool.not_false, Bool.false_eq_true, or_true, if_true, if_false]
  split_ifs with hz hva
  · exact ⟨fun _ => rfl, fun h => absurd h not_errno.2⟩
  · exact ⟨fun _ => rfl, fun h => absurd h not_errno.1⟩
  · rcases findUnmappedArea_spec mm (pageAlignUp len) with h0 | ⟨hin, hlimit⟩
    · exact absurd h0 hva
    · refine ⟨doMmapInsert_neg, fun h => ?_⟩
      obtain ⟨hret, hp⟩ := doMmapInsert_placed hok hin hlimit hlen h
      refine ⟨findUnmappedArea mm (pageAlignUp len), hret, hp, fun hsize hword => ?_⟩
      have hle := hp.limit
      rwa [stackLimit_eq hsize hword] at hle

/-- Two pages for 0x1001 bytes, at the first address of the mapping area. -/
theorem doMmap_placed_of_first :
    (doMmap { (init PageSys.oddStart).k with script := [([], true)] } threePages 0 0x1001 3 0x22).1 =
      (0x2000000 : Nat) ∧
      Placed threePages
        (doMmap { (init PageSys.oddStart).k with script := [([], true)] } threePages 0 0x1001 3 0x22).2.1
        0x2000000 0x1001 (linuxProtToMap 3) := by
  have h := doMmap_placed { (init PageSys.oddStart).k with script := [([], true)] } threePages 0 0x1001 3 0x22
    threePages_ok (by decide) (by decide) (by decide)
  have hret : (doMmap { (init PageSys.oddStart).k with script := [([], true)] } threePages 0 0x1001 3 0x22).1 =
      (0x2000000 : Nat) := by decide
  obtain ⟨va, hva, hp, -⟩ := h.2 (by rw [hret]; decide)
  obtain rfl : va = 0x2000000 := Int.ofNat.inj (hva.symm.trans hret)
  exact ⟨hret, hp⟩

end MiniOs.Mm
