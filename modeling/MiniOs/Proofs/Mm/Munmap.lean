/-
What `do_munmap` takes out of an address space and where `do_mmap` puts a new mapping, address by
address. The end of an unmapped range is computed in 64 bits and the page walk looks at 39 of them: the
call does what it should exactly when neither shows.
-/
import MiniOs.Proofs.Mm.VmaList
import MiniOs.Proofs.Mm.View

namespace MiniOs.Mm

open MmSys

/-- A length in whole pages, as a number without a bound. -/
def roundUp (len : Nat) : Nat := (len + (pageSize - 1)) / pageSize * pageSize

/-- The addresses of a range of whole pages. -/
abbrev InRange (addr len a : Nat) : Prop := addr ≤ a ∧ a < addr + roundUp len

/-- Exactly the addresses of the range lose their VMA and their page. -/
structure MunmapExact (mm mm' : MmStruct) (addr len : Nat) : Prop where
  vmas : VmasOk mm'.mmap
  flags : ∀ a, a < 2 ^ 64 → flagsAt mm'.mmap a = if InRange addr len a then none else flagsAt mm.mmap a
  gone : ∀ a, a < userVaLimit → InRange addr len a → mm'.pgd.vaMapped a = false
  kept : ∀ a, a < userVaLimit → ¬ InRange addr len a → mm'.pgd.slot a = mm.pgd.slot a

/-- The end of the range is a 64-bit address, and the walk to its pages meets no page from outside of
it; or the end is none and nothing is mapped from the start of the range on. -/
def MunmapFits (mm : MmStruct) (addr len : Nat) : Prop :=
  (addr + roundUp len < 2 ^ 64 ∧
    ∀ va a, InRange addr len va → a < userVaLimit → samePage va a = true → mm.pgd.vaMapped a = true →
      InRange addr len a) ∨
  (2 ^ 64 ≤ addr + roundUp len ∧ (∀ a, addr ≤ a → flagsAt mm.mmap a = none) ∧
    ∀ a, addr ≤ a → a < userVaLimit → mm.pgd.vaMapped a = false)

section Pages

variable {k : Kmem} {t : L1} {mm : MmStruct} {va a addr len start stop : Nat}

/-! ## The page walk -/

theorem vaMapped_of_slot {pte : BitVec 64} (h : t.slot a = some pte) : t.vaMapped a = ptePresent pte := by
  simp only [L1.vaMapped, h]

theorem vaMapped_congr {t' : L1} (h : t'.slot a = t.slot a) : t'.vaMapped a = t.vaMapped a := by
  simp only [L1.vaMapped, h]

theorem slot_samePage (t : L1) (h : samePage va a = true) : t.slot va = t.slot a :=
    slot_congr t ((sameSlot_iff va a).2 h)

theorem unmapPage_slot (k : Kmem) (t : L1) (va a : Nat) :
    (unmapPage k t va).1.slot a = if samePage va a ∧ t.vaMapped a = true then some 0 else t.slot a := by
  unfold unmapPage
  cases hs : t.slot va with
  | none =>
    dsimp only
    split_ifs with h
    · have hmap := h.2
      simp only [L1.vaMapped, ← slot_samePage t h.1, hs] at hmap
      cases hmap
    · rfl
  | some pte =>
    dsimp only
    by_cases hp : ptePresent pte = true
    · rw [if_pos hp, slot_setSlot hs]
      by_cases hsame : samePage va a = true
      · have hmap : t.vaMapped a = true := by rw [vaMapped_of_slot ((slot_samePage t hsame).symm.trans hs), hp]
        rw [if_pos hsame, if_pos ⟨hsame, hmap⟩]
      · rw [if_neg hsame, if_neg fun h => hsame h.1]
    · rw [if_neg hp]
      split_ifs with h
      · have hmap := h.2
        rw [vaMapped_of_slot ((slot_samePage t h.1).symm.trans hs)] at hmap
        exact absurd hmap hp
      · rfl

theorem unmapPages_slot (k : Kmem) (t : L1) (vas : List Nat) (a : Nat) :
    (unmapPages k t vas).1.slot a = if (∃ va ∈ vas, samePage va a = true) ∧
      t.vaMapped a = true then some 0 else t.slot a := by
  induction vas generalizing k t with
  | nil => simp [unmapPages]
  | cons va vas ih =>
    have hone := unmapPage_slot k t va a
    unfold unmapPages
    dsimp only
    rw [ih]
    by_cases hva : samePage va a ∧ t.vaMapped a = true
    · rw [if_pos hva] at hone
      have hunmapped : (unmapPage k t va).1.vaMapped a = false := by
        rw [vaMapped_of_slot hone]
        decide
      rw [if_neg (by simp [hunmapped]), hone, if_pos ⟨⟨va, List.mem_cons_self .., hva.1⟩, hva.2⟩]
    · rw [if_neg hva] at hone
      rw [vaMapped_congr hone, hone]
      have hiff : ((∃ x ∈ va :: vas, samePage x a = true) ∧ t.vaMapped a = true) ↔
          (∃ x ∈ vas, samePage x a = true) ∧ t.vaMapped a = true := by
        constructor
        · rintro ⟨⟨x, hx, hsame⟩, hm⟩
          rcases List.mem_cons.1 hx with rfl | hx
          · exact absurd ⟨hsame, hm⟩ hva
          · exact ⟨⟨x, hx, hsame⟩, hm⟩
        · rintro ⟨⟨x, hx, hsame⟩, hm⟩
          exact ⟨⟨x, List.mem_cons_of_mem va hx, hsame⟩, hm⟩
      simp only [hiff]

theorem mem_pageRange : va ∈ pageRange start stop ↔ ∃ i, i < (stop - start + (pageSize - 1)) / pageSize ∧
    va = start + i * pageSize := by
  simp only [pageRange, List.mem_map, List.mem_range]
  constructor
  · rintro ⟨i, hi, rfl⟩
    exact ⟨i, hi, rfl⟩
  · rintro ⟨i, hi, rfl⟩
    exact ⟨i, hi, rfl⟩

theorem samePage_iff : samePage va a = true ↔ va % userVaLimit / pageSize = a % userVaLimit / pageSize :=
    decide_eq_true_iff

/-- The walk to the pages of a range meets exactly the pages of its addresses. -/
theorem exists_pageRange_iff (hs : pageSize ∣ start) (he : pageSize ∣ stop) :
    (∃ va ∈ pageRange start stop, samePage va a = true) ↔ ∃ va, start ≤ va ∧ va < stop ∧ samePage va a = true := by
  simp only [pageSize] at hs he
  constructor
  · rintro ⟨va, hva, hsame⟩
    obtain ⟨i, hi, rfl⟩ := mem_pageRange.1 hva
    simp only [pageSize] at hi hsame ⊢
    exact ⟨start + i * 4096, by omega, by omega, hsame⟩
  · rintro ⟨va, h1, h2, hsame⟩
    refine ⟨va / 4096 * 4096, mem_pageRange.2 ⟨(va - start) / 4096, ?_, ?_⟩, ?_⟩
    · simp only [pageSize]
      omega
    · simp only [pageSize]
      omega
    · rw [samePage_iff] at hsame ⊢
      rw [← hsame]
      simp only [userVaLimit, pageSize]
      omega

/-! ## `do_munmap` -/

theorem munmap_end (ha : pageSize ∣ addr) (len : Nat) :
    pageAlignUp ((addr + len) % 2 ^ 64) = (addr + roundUp len) % 2 ^ 64 := by
  simp only [pageAlignUp, roundUp, pageSize] at ha ⊢
  omega

theorem pageSize_dvd_roundUp (len : Nat) : pageSize ∣ roundUp len := Dvd.intro_left _ rfl

/-- The range as the call sees it, when its end did not wrap. -/
theorem munmapExact_iff_of_lt {vmas : List Vma} (hok : VmasOk mm.mmap) (ha : pageSize ∣ addr)
    (hv : vmas = mm.mmap.flatMap (Vma.erase addr (addr + roundUp len))) (pgd : L1)
    (hp : ∀ a, pgd.slot a = if (∃ va ∈ pageRange addr (addr + roundUp len), samePage va a = true) ∧
      mm.pgd.vaMapped a = true
      then some 0 else mm.pgd.slot a) :
    MunmapExact mm { mm with mmap := vmas, pgd := pgd } addr len ↔
      ∀ va a, InRange addr len va → a < userVaLimit → samePage va a = true → mm.pgd.vaMapped a = true →
        InRange addr len a := by
  have hstop : pageSize ∣ addr + roundUp len := Nat.dvd_add ha (pageSize_dvd_roundUp len)
  have hle : addr ≤ addr + roundUp len := Nat.le_add_right ..
  have hmeets : ∀ a, _ ↔ ∃ va, addr ≤ va ∧ va < addr + roundUp len ∧ samePage va a = true := fun a =>
    exists_pageRange_iff ha hstop
  constructor
  · -- a page from outside would have lost its entry
    intro hex va a hva hlt hsame hmap
    by_contra hout
    have hkept := hex.kept a hlt hout
    have hslot := hp a
    rw [if_pos ⟨(hmeets a).2 ⟨va, hva.1, hva.2, hsame⟩, hmap⟩] at hslot
    have hzero : mm.pgd.vaMapped a = ptePresent 0 := vaMapped_of_slot (hkept.symm.trans hslot)
    rw [hmap] at hzero
    exact absurd hzero (by decide)
  · intro hfit
    refine ⟨?_, ?_, ?_, ?_⟩
    · rw [hv]
      exact hok.erase hle ha hstop
    · intro a _
      dsimp only
      rw [hv]
      exact flagsAt_eraseAll
    · intro a _ hin
      by_cases hmap : mm.pgd.vaMapped a = true
      · have hslot := hp a
        rw [if_pos ⟨(hmeets a).2 ⟨a, hin.1, hin.2, samePage_iff.2 rfl⟩, hmap⟩] at hslot
        exact (vaMapped_of_slot hslot).trans (by decide)
      · have hslot := hp a
        rw [if_neg fun h => hmap h.2] at hslot
        exact (vaMapped_congr hslot).trans (by simpa using hmap)
    · intro a hlt hout
      have hslot := hp a
      rwa [if_neg] at hslot
      rintro ⟨hmet, hmap⟩
      obtain ⟨va, h1, h2, hsame⟩ := (hmeets a).1 hmet
      exact hout (hfit va a ⟨h1, h2⟩ hlt hsame hmap)

/-- When the end wrapped, no page is looked at and no VMA loses an address. -/
theorem munmapExact_iff_of_wrapped {vmas : List Vma} {stop : Nat} (hok : VmasOk mm.mmap) (hle : stop ≤ addr)
    (hwrap : 2 ^ 64 ≤ addr + roundUp len) (hv : vmas = mm.mmap.flatMap (Vma.erase addr stop)) :
    MunmapExact mm { mm with mmap := vmas } addr len ↔
      (∀ a, addr ≤ a → flagsAt mm.mmap a = none) ∧ ∀ a, addr ≤ a → a < userVaLimit → mm.pgd.vaMapped a = false := by
  have hlimit : userVaLimit ≤ 2 ^ 64 := by decide
  constructor
  · intro hex
    constructor
    · intro a hle'
      by_cases hword : a < 2 ^ 64
      · have hflags := hex.flags a hword
        rw [if_pos ⟨hle', by omega⟩] at hflags
        exact flagsAt_wrapped hle (by rw [← hv]; exact hflags)
      · refine flagsAt_eq_none.2 fun v hv hc => ?_
        have hend := (hok.each v hv).word
        exact absurd hc.2 (by omega)
    · intro a hle' hlt
      exact hex.gone a hlt ⟨hle', by omega⟩
  · rintro ⟨hnone, hpages⟩
    have hsame : vmas = mm.mmap := by
      rw [hv]
      have heach : ∀ v ∈ mm.mmap, v.erase addr stop = [v] := fun v hmem =>
        erase_wrapped hle (hok.each v hmem) fun a ha hc => flagsAt_eq_none.1 (hnone a ha) v hmem hc
      rw [List.flatMap_congr heach]
      exact List.flatMap_singleton' mm.mmap
    rw [hsame]
    refine ⟨hok, ?_, fun a hlt hin => hpages a hin.1 hlt, fun a _ _ => rfl⟩
    intro a _
    split_ifs with hin
    · exact hnone a hin.1
    · rfl

end Pages

/-- A `do_munmap` that fails has changed nothing, and one that returns 0 unmaps exactly its range if and
only if the range fits. -/
theorem doMunmap_exact_iff (k : Kmem) (mm : MmStruct) (addr len : Nat) (hok : VmasOk mm.mmap) (ha : pageSize ∣ addr)
    (haddr : addr < 2 ^ 64) (hlen : len < 2 ^ 64) :
    ((doMunmap k mm addr len).1 ≠ 0 → (doMunmap k mm addr len).2.1 = mm) ∧
      ((doMunmap k mm addr len).1 = 0 → (MunmapExact mm (doMunmap k mm addr len).2.1 addr len ↔
        MunmapFits mm addr len)) := by
  have hend := munmap_end ha len
  have haligned : addr % pageSize = 0 := Nat.mod_eq_zero_of_dvd ha
  unfold doMunmap
  by_cases hz : len = 0
  · rw [if_pos hz]
    refine ⟨fun h => absurd rfl h, fun _ => ?_⟩
    have hempty : roundUp len = 0 := by rw [hz]; rfl
    have hnone : ∀ a, ¬ InRange addr len a := fun a h => by have := h.2; have := h.1; omega
    refine iff_of_true ⟨hok, fun a _ => (if_neg (hnone a)).symm, fun a _ h => absurd h (hnone a), fun a _ _ => rfl⟩ ?_
    exact Or.inl ⟨by omega, fun va a h => absurd h (hnone va)⟩
  rw [if_neg hz, if_neg (by simp [haligned])]
  dsimp only
  rw [hend]
  cases hr : vmaEraseRange addr ((addr + roundUp len) % 2 ^ 64) k mm.mmap with
  | mk ok r =>
    obtain ⟨vmas, k'⟩ := r
    cases ok with
    | false =>
      have hsame := vmaEraseRange_unchanged hok (congrArg Prod.fst hr)
      rw [hr] at hsame
      dsimp only at hsame ⊢
      rw [hsame]
      exact ⟨fun _ => rfl, fun h => absurd h (by decide)⟩
    | true =>
      have hv := vmaEraseRange_of_true (congrArg Prod.fst hr)
      rw [hr] at hv
      refine ⟨fun h => absurd rfl h, fun _ => ?_⟩
      dsimp only at hv ⊢
      by_cases hword : addr + roundUp len < 2 ^ 64
      · rw [Nat.mod_eq_of_lt hword] at hv ⊢
        rw [munmapExact_iff_of_lt hok ha hv _ fun a => unmapPages_slot k' mm.pgd _ a]
        constructor
        · exact fun h => Or.inl ⟨hword, h⟩
        · rintro (⟨-, h⟩ | ⟨hge, -⟩)
          · exact h
          · omega
      · have hsmall : roundUp len ≤ 2 ^ 64 := by
          simp only [roundUp, pageSize]
          omega
        have hback : (addr + roundUp len) % 2 ^ 64 ≤ addr := by omega
        have hnopages : pageRange addr ((addr + roundUp len) % 2 ^ 64) = [] := by
          unfold pageRange
          rw [Nat.sub_eq_zero_of_le hback]
          rfl
        rw [hnopages]
        unfold unmapPages
        rw [munmapExact_iff_of_wrapped hok hback (by omega) hv]
        constructor
        · exact fun h => Or.inr ⟨by omega, h⟩
        · rintro (⟨hlt, -⟩ | ⟨-, h⟩)
          · omega
          · exact h

/-- Three pages from 0x400000, the first of them present. -/
def threePages : MmStruct where
  mmap := [⟨0x400000, 0x403000, protRead⟩]
  pgd := (Node.empty 0).set (l1Idx 0x400000) ((Node.empty 1).set (l2Idx 0x400000) ((L3.empty 2).set (l3Idx 0x400000) 3))
  stackTop := userStackTop
  startBrk := 0
  brk := 0
  mmapBase := userMmapBase
  users := 1

theorem threePages_ok : VmasOk threePages.mmap := by
  refine ⟨fun v hv => ?_, List.pairwise_singleton ..⟩
  obtain rfl := List.mem_singleton.1 hv
  exact ⟨by decide, by decide, by decide, by decide⟩

/-- The last two pages are unmapped. -/
theorem doMunmap_exact_of_tail :
    (doMunmap (init PageSys.oddStart).k threePages 0x401000 0x1800).1 = 0 ∧
      MunmapExact threePages (doMunmap (init PageSys.oddStart).k threePages 0x401000 0x1800).2.1 0x401000 0x1800 := by
  have h := doMunmap_exact_iff (init PageSys.oddStart).k threePages 0x401000 0x1800 threePages_ok (by decide)
    (by decide) (by decide)
  have h0 : (doMunmap (init PageSys.oddStart).k threePages 0x401000 0x1800).1 = 0 := by decide
  refine ⟨h0, (h.2 h0).2 (Or.inl ⟨by decide, ?_⟩)⟩
  intro va a hva hlt hsame _
  have hr : roundUp 0x1800 = 0x2000 := by decide
  rw [samePage_iff] at hsame
  simp only [InRange, hr, userVaLimit, pageSize] at hva hlt hsame ⊢
  omega

/-- Unmapping a page at 2 ^ 39 + 0x400000 drops the page at 0x400000, and unmapping everything from
0x400000 on, an end of 2 ^ 64, leaves the VMA; both calls return 0. -/
theorem doMunmap_not_exact :
    (threePages.pgd.vaMapped 0x400000 = true ∧
      (doMunmap (init PageSys.oddStart).k threePages (2 ^ 39 + 0x400000) 0x1000).1 = 0 ∧
      (doMunmap (init PageSys.oddStart).k threePages (2 ^ 39 + 0x400000) 0x1000).2.1.pgd.vaMapped 0x400000 = false) ∧
    (doMunmap (init PageSys.oddStart).k threePages 0x400000 (2 ^ 64 - 0x400000)).1 = 0 ∧
      flagsAt (doMunmap (init PageSys.oddStart).k threePages 0x400000 (2 ^ 64 - 0x400000)).2.1.mmap 0x400000 =
        some protRead := by
  refine ⟨⟨by decide, by decide, by decide⟩, by decide, by decide⟩

end MiniOs.Mm
