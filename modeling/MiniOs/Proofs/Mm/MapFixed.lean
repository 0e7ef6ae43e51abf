/-
`do_mmap` at a fixed address. The call takes what is in the range away before it knows that the new VMA
can be allocated and inserted, and the end of the range is a 64-bit sum: what it leaves is the new mapping
or the old ones exactly when neither shows.
-/
import MiniOs.Proofs.Mm.Placement

namespace MiniOs.Mm

open MmSys

/-- The range holds one new VMA and no page, and nothing else changed. -/
structure Replaced (mm mm' : MmStruct) (va len : Nat) (mapProt : BitVec 64) : Prop where
  vmas : VmasOk mm'.mmap
  area : ⟨va, va + roundUp len, mapProt⟩ ∈ mm'.mmap
  flags : ∀ a, flagsAt mm'.mmap a = if InRange va len a then some mapProt else flagsAt mm.mmap a
  gone : ∀ a, a < userVaLimit → InRange va len a → mm'.pgd.vaMapped a = false
  kept : ∀ a, a < userVaLimit → ¬ InRange va len a → mm'.pgd.slot a = mm.pgd.slot a

/-- Either the mapping was replaced or nothing happened. -/
def ReplacedOrKept (ret : Int) (mm mm' : MmStruct) (va len : Nat) (mapProt : BitVec 64) : Prop :=
  (ret = va ∧ Replaced mm mm' va len mapProt) ∨ (ret < 0 ∧ mm'.mmap = mm.mmap ∧ ∀ a, mm'.pgd.slot a = mm.pgd.slot a)

/-- Erasing the range costs an object call: to free a VMA inside of it, or to split the one around it. -/
def Vma.takesObject (start stop : Nat) (v : Vma) : Bool :=
  start < v.vmEnd && v.vmStart < stop && decide (start ≤ v.vmStart ↔ v.vmEnd ≤ stop)

/-- The VMA has to be split in two. -/
abbrev Vma.Around (start stop : Nat) (v : Vma) : Prop :=
  start < v.vmEnd ∧ v.vmStart < stop ∧ v.vmStart < start ∧ stop < v.vmEnd

/-- The range meets no VMA and the walk over it no page. -/
def Untouched (mm : MmStruct) (start stop : Nat) : Prop :=
  (∀ v ∈ mm.mmap, v.vmEnd ≤ start ∨ stop ≤ v.vmStart) ∧
    ∀ va a, start ≤ va → va < stop → samePage va a = true → mm.pgd.vaMapped a = false

/-- The last object call, for the new VMA, succeeds after those of the erasure, the sum did not wrap, and
the walk meets no page from outside of the range; an empty VMA at its start would refuse the insertion. -/
structure FixedFits (k : Kmem) (mm : MmStruct) (va len : Nat) : Prop where
  noWrap : va + roundUp len < 2 ^ 64
  object : k.objAt (mm.mmap.countP (Vma.takesObject va (va + roundUp len))) = true
  start : ∀ v ∈ mm.mmap, v.vmStart = va → va < v.vmEnd
  pages : ∀ x a, InRange va len x → a < userVaLimit → samePage x a = true → mm.pgd.vaMapped a = true → InRange va len a

/-- The call is refused before the erasure or in it, the erasure has nothing to do, or the mapping fits. -/
def FixedSafe (k : Kmem) (mm : MmStruct) (va len : Nat) : Prop :=
  let stop := (va + pageAlignUp len) % 2 ^ 64
  len = 0 ∨ va = 0 ∨ stackLimit mm userStackBottom < stop ∨
    ((∃ v ∈ mm.mmap, v.Around va stop) ∧ k.objAt 0 = false) ∨ Untouched mm va stop ∨ FixedFits k mm va len

section Erasing

variable {k : Kmem} {v w : Vma} {vmas : List Vma} {start stop a : Nat}

/-- No piece of an erased VMA reaches into the range. -/
theorem mem_erase_apart (hw : w ∈ v.erase start stop) : w.vmEnd ≤ start ∨ stop ≤ w.vmStart := by
  unfold Vma.erase at hw
  split_ifs at hw with hout hin hhead htail
  · obtain rfl := List.mem_singleton.1 hw
    exact hout
  · cases hw
  · obtain rfl := List.mem_singleton.1 hw
    exact Or.inr (Nat.le_refl stop)
  · obtain rfl := List.mem_singleton.1 hw
    exact Or.inl (Nat.le_refl start)
  · rcases List.mem_cons.1 hw with rfl | hw
    · exact Or.inl (Nat.le_refl start)
    · obtain rfl := List.mem_singleton.1 hw
      exact Or.inr (Nat.le_refl stop)

theorem eraseAll_eq_iff : vmas.flatMap (Vma.erase start stop) = vmas ↔ ∀ v ∈ vmas, v.vmEnd ≤ start ∨
    stop ≤ v.vmStart := by
  constructor
  · intro heq v hv
    rw [← heq] at hv
    obtain ⟨u, -, hw⟩ := List.mem_flatMap.1 hv
    exact mem_erase_apart hw
  · intro hout
    have heach : ∀ v ∈ vmas, v.erase start stop = [v] := fun v hv => if_pos (hout v hv)
    rw [List.flatMap_congr heach]
    exact List.flatMap_singleton' vmas

theorem vmaEraseRange_data (k : Kmem) (vmas : List Vma) : (vmaEraseRange start stop k vmas).2.2.data = k.data := by
  induction vmas generalizing k with
  | nil => rfl
  | cons v vmas ih =>
    unfold vmaEraseRange
    split_ifs
    · exact ih k
    · exact (ih _).trans (objCall_data k)
    · exact ih k
    · exact ih k
    · have hdata := objCall_data k
      cases hobj : k.objCall with
      | mk ok k' =>
        rw [hobj] at hdata
        cases ok with
        | false => exact hdata
        | true => exact (ih k').trans hdata

theorem takesObject_iff : v.takesObject start stop = true ↔
    start < v.vmEnd ∧ v.vmStart < stop ∧ (start ≤ v.vmStart ↔ v.vmEnd ≤ stop) := by
  unfold Vma.takesObject
  simp only [Bool.and_eq_true, decide_eq_true_eq, and_assoc]

theorem vmaEraseRange_script (ht : (vmaEraseRange start stop k vmas).1 = true) :
    (vmaEraseRange start stop k vmas).2.2.script = k.script.drop (vmas.countP (Vma.takesObject start stop)) := by
  induction vmas generalizing k with
  | nil => rfl
  | cons v vmas ih =>
    have hone : ∀ {k' : Kmem}, v.takesObject start stop = true → k'.script = k.script.drop 1 →
        k'.script.drop (vmas.countP (Vma.takesObject start stop)) =
          k.script.drop ((v :: vmas).countP (Vma.takesObject start stop)) := by
      intro k' hv hk
      rw [List.countP_cons_of_pos hv, hk, List.drop_drop, Nat.add_comm]
    unfold vmaEraseRange at ht ⊢
    split_ifs at ht ⊢ with hout hin hhead htail
    · rw [List.countP_cons_of_neg (by rw [takesObject_iff]; omega)]
      exact ih ht
    · exact (ih ht).trans (hone (takesObject_iff.2 (by omega)) (objCall_script k))
    · rw [List.countP_cons_of_neg (by rw [takesObject_iff]; omega)]
      exact ih ht
    · rw [List.countP_cons_of_neg (by rw [takesObject_iff]; omega)]
      exact ih ht
    · have hscript := objCall_script k
      cases hobj : k.objCall with
      | mk ok k' =>
        rw [hobj] at ht hscript
        cases ok with
        | false => cases ht
        | true => exact (ih ht).trans (hone (takesObject_iff.2 (by omega)) hscript)

/-- The erasure fails when the VMA around the range cannot be split. It is then the only one the range
meets, so the call for its tail is the first. -/
theorem vmaEraseRange_eq_false_iff (h : VmasOk vmas) :
    (vmaEraseRange start stop k vmas).1 = false ↔ (∃ v ∈ vmas, v.Around start stop) ∧ k.objAt 0 = false := by
  induction vmas generalizing k with
  | nil => simp [vmaEraseRange]
  | cons v vmas ih =>
    have hnext := (List.pairwise_cons.1 h.sorted).1
    -- behind a VMA that the range meets there is none around it
    have hlate : ∀ {k : Kmem}, start < v.vmEnd → (vmaEraseRange start stop k vmas).1 = true := by
      intro k hlt
      rw [← Bool.not_eq_false, ih h.tail]
      rintro ⟨⟨w, hw, haround⟩, -⟩
      have := hnext w hw
      omega
    have hrest : ∀ {k' : Kmem}, start < v.vmEnd → ¬ v.Around start stop →
      ((vmaEraseRange start stop k' vmas).1 = false ↔
        (∃ w ∈ v :: vmas, w.Around start stop) ∧ k.objAt 0 = false) := by
      intro k' hlt hv
      refine iff_of_false (by rw [hlate hlt]; simp) ?_
      rintro ⟨⟨w, hw, haround⟩, -⟩
      rcases List.mem_cons.1 hw with rfl | hw
      · exact hv haround
      · have := hnext w hw
        omega
    unfold vmaEraseRange
    split_ifs with hout hin hhead htail
    · dsimp only
      rw [ih h.tail]
      have hv : ¬ v.Around start stop := by omega
      simp [hv]
    · exact hrest (by omega) (by omega)
    · exact hrest (by omega) (by omega)
    · exact hrest (by omega) (by omega)
    · have hv : v.Around start stop := by omega
      have hobj := objCall_eq_objAt k
      cases hcall : k.objCall with
      | mk ok k' =>
        rw [hcall] at hobj
        rw [← hobj]
        cases ok with
        | false => exact iff_of_true rfl ⟨⟨v, List.mem_cons_self .., hv⟩, rfl⟩
        | true =>
          dsimp only
          rw [hlate (by omega)]
          simp

/-- Between VMAs that the range does not meet there is room for a new one, but for an empty one at its
start. -/
theorem insertVma_eq_none_iff {new : Vma} (hlt : new.vmStart < new.vmEnd) (h : VmasOk vmas)
    (hout : ∀ v ∈ vmas, v.vmEnd ≤ new.vmStart ∨ new.vmEnd ≤ v.vmStart) :
    insertVma vmas new = none ↔ ∃ v ∈ vmas, v.vmStart = new.vmStart ∧ v.vmEnd ≤ new.vmStart := by
  unfold insertVma
  dsimp only
  rw [if_neg (by omega)]
  generalize hbefore : vmas.takeWhile (fun v => decide (v.vmStart < new.vmStart)) = before
  generalize hafter : vmas.dropWhile (fun v => decide (v.vmStart < new.vmStart)) = after
  have hsplit : vmas = before ++ after := by
    rw [← hbefore, ← hafter]
    exact (List.takeWhile_append_dropWhile ..).symm
  have hprev : ¬ before.getLast?.any (fun v => v.vmEnd > new.vmStart) = true := by
    intro hany
    obtain ⟨v, hv, hlt'⟩ := (Option.any_eq_true ..).1 hany
    have hmem : v ∈ before := List.mem_of_getLast? hv
    have hstart : v.vmStart < new.vmStart := by
      rw [← hbefore] at hmem
      simpa using List.mem_takeWhile_imp hmem
    have := hout v (hsplit ▸ List.mem_append_left _ hmem)
    simp only [gt_iff_lt, decide_eq_true_eq] at hlt'
    omega
  rw [if_neg hprev]
  split_ifs with hnext
  · refine iff_of_true rfl ?_
    obtain ⟨v, hv, hlt'⟩ := (Option.any_eq_true ..).1 hnext
    have hmem : v ∈ vmas := hsplit ▸ List.mem_append_right _ (List.mem_of_head? hv)
    have hstart : ¬ v.vmStart < new.vmStart := by
      have hhead := List.head?_dropWhile_not (fun v : Vma => decide (v.vmStart < new.vmStart)) vmas
      rw [hafter, hv] at hhead
      simpa using hhead
    have horder := (h.each v hmem).order
    have := hout v hmem
    simp only [gt_iff_lt, decide_eq_true_eq] at hlt'
    exact ⟨v, hmem, by omega, by omega⟩
  · refine iff_of_false (by simp) ?_
    rintro ⟨v, hv, hstart, hend⟩
    have hfar : ∀ w ∈ after, new.vmEnd ≤ w.vmStart := by
      refine le_of_head? (h.inOrder.sublist (hsplit ▸ List.sublist_append_right ..)) fun w hw => ?_
      simpa [hw] using hnext
    rw [hsplit] at hv
    rcases List.mem_append.1 hv with hv | hv
    · rw [← hbefore] at hv
      have hbelow : v.vmStart < new.vmStart := by simpa using List.mem_takeWhile_imp hv
      omega
    · have := hfar v hv
      omega

end Erasing

section Calls

variable {k : Kmem} {mm mm' : MmStruct} {va len stop addr : Nat} {prot mapProt flags : BitVec 64} {ret : Int}

theorem unmapPage_frame (k : Kmem) (t : L1) (va : Nat) :
    (unmapPage k t va).2.script = k.script ∧ (unmapPage k t va).2.data = k.data := by
  unfold unmapPage
  split
  · exact ⟨rfl, rfl⟩
  · split
    · unfold putPte
      split <;> exact ⟨rfl, rfl⟩
    · exact ⟨rfl, rfl⟩

theorem unmapPages_frame (k : Kmem) (t : L1) (vas : List Nat) :
    (unmapPages k t vas).2.script = k.script ∧ (unmapPages k t vas).2.data = k.data := by
  induction vas generalizing k t with
  | nil => exact ⟨rfl, rfl⟩
  | cons va vas ih =>
    obtain ⟨hscript, hdata⟩ := unmapPage_frame k t va
    exact ⟨(ih _ _).1.trans hscript, (ih _ _).2.trans hdata⟩

theorem doMmapInsert_data : (doMmapInsert k mm va len mapProt).2.2.data = k.data := by
  have hdata := objCall_data k
  unfold doMmapInsert
  cases hobj : k.objCall with
  | mk ok k' =>
    rw [hobj] at hdata
    cases ok with
    | false => exact hdata
    | true =>
      dsimp only
      split
      · exact (objCall_data k').trans hdata
      · exact hdata

theorem fixed_stop (hva : pageSize ∣ va) (hword : va < 2 ^ 64) (hlen : len < 2 ^ 64) (hpos : len ≠ 0) :
    (va + roundUp len < 2 ^ 64 ∧ (va + pageAlignUp len) % 2 ^ 64 = va + roundUp len ∧ va < va + roundUp len) ∨
      (¬ va + roundUp len < 2 ^ 64 ∧ (va + pageAlignUp len) % 2 ^ 64 ≤ va) := by
  simp only [pageAlignUp, roundUp, pageSize] at *
  omega

theorem fixed_aligned (hva : pageSize ∣ va) : pageSize ∣ (va + pageAlignUp len) % 2 ^ 64 := by
  simp only [pageAlignUp, pageSize] at *
  omega

theorem doMmapInsert_nonneg_iff : 0 ≤ (doMmapInsert k mm va len mapProt).1 ↔
    k.objAt 0 = true ∧ insertVma mm.mmap ⟨va, (va + len) % 2 ^ 64, mapProt⟩ ≠ none := by
  unfold doMmapInsert
  rw [← objCall_eq_objAt]
  cases k.objCall with
  | mk ok k' =>
    cases ok with
    | false => simp [enomem]
    | true =>
      dsimp only
      cases insertVma mm.mmap ⟨va, (va + len) % 2 ^ 64, mapProt⟩ with
      | none => simp [einval]
      | some vmas => simp

/-- The state between the erasure and the insertion. -/
structure Erased (mm mid : MmStruct) (va stop : Nat) : Prop where
  vmas : mid.mmap = mm.mmap.flatMap (Vma.erase va stop)
  slots : ∀ a, mid.pgd.slot a =
    if (∃ x ∈ pageRange va stop, samePage x a = true) ∧ mm.pgd.vaMapped a = true then some 0 else mm.pgd.slot a

/-- An entry that was taken out is no longer what it was. -/
theorem slot_ne_of_mapped {t : L1} {a : Nat} (h : t.vaMapped a = true) : some 0 ≠ t.slot a := by
  intro h0
  rw [vaMapped_of_slot h0.symm] at h
  exact absurd h (by decide)

variable {mid : MmStruct}

/-- A call that fails now has kept everything exactly when there was nothing to erase. -/
theorem Erased.kept_iff (h : Erased mm mid va stop) (hva : pageSize ∣ va) (hstop : pageSize ∣ stop) :
    (mid.mmap = mm.mmap ∧ ∀ a, mid.pgd.slot a = mm.pgd.slot a) ↔ Untouched mm va stop := by
  have hmeets : ∀ {a}, _ ↔ ∃ x, va ≤ x ∧ x < stop ∧ samePage x a = true := fun {a} => exists_pageRange_iff hva hstop
  rw [h.vmas, eraseAll_eq_iff]
  refine and_congr_right fun _ => ?_
  constructor
  · intro hkept x a h1 h2 hsame
    by_contra hmap
    rw [Bool.not_eq_false] at hmap
    have hslot := h.slots a
    rw [if_pos ⟨hmeets.2 ⟨x, h1, h2, hsame⟩, hmap⟩, hkept a] at hslot
    exact slot_ne_of_mapped hmap hslot.symm
  · intro hfree a
    rw [h.slots, if_neg]
    rintro ⟨hmet, hmap⟩
    obtain ⟨x, h1, h2, hsame⟩ := hmeets.1 hmet
    rw [hfree x a h1 h2 hsame] at hmap
    cases hmap

/-- A call that succeeds now has replaced exactly its range when the walk met no page from outside. -/
theorem Erased.replaced_iff (h : Erased mm mid va (va + roundUp len)) (hok : VmasOk mm.mmap)
    (hva : pageSize ∣ va) (hp : Placed mid mm' va len mapProt) :
    Replaced mm mm' va len mapProt ↔
      ∀ x a, InRange va len x → a < userVaLimit → samePage x a = true → mm.pgd.vaMapped a = true →
        InRange va len a := by
  have hexact := munmapExact_iff_of_lt hok hva h.vmas mid.pgd h.slots
  rw [← hexact]
  constructor
  · intro hr
    refine ⟨?_, fun a _ => ?_, fun a hlt hin => ?_, fun a hlt hout => ?_⟩
    · dsimp only
      rw [h.vmas]
      exact hok.erase (Nat.le_add_right ..) hva (Nat.dvd_add hva (pageSize_dvd_roundUp len))
    · dsimp only
      rw [h.vmas, flagsAt_eraseAll]
    · rw [← hp.pages]
      exact hr.gone a hlt hin
    · rw [← hp.pages]
      exact hr.kept a hlt hout
  · rintro ⟨-, -, hgone, hkept⟩
    rw [← hp.pages] at hgone hkept
    refine ⟨hp.vmas, hp.area, fun a => ?_, hgone, hkept⟩
    rw [hp.flags, h.vmas, flagsAt_eraseAll]
    split_ifs <;> rfl

/-- The erased list has room for the new VMA unless an empty one stood at its start. -/
theorem Erased.insertVma_ne_none_iff (h : Erased mm mid va stop) (hok : VmasOk mm.mmap) (hlt : va < stop)
    (hva : pageSize ∣ va) (hstop : pageSize ∣ stop) :
    insertVma mid.mmap ⟨va, stop, mapProt⟩ ≠ none ↔ ∀ v ∈ mm.mmap, v.vmStart = va → va < v.vmEnd := by
  have hvmas := hok.erase hlt.le hva hstop
  rw [h.vmas, ne_eq, insertVma_eq_none_iff (by exact hlt) hvmas]
  · push Not
    dsimp only
    constructor
    · intro hfree v hv hstart
      by_contra hle
      exact hle (hfree v (List.mem_flatMap.2 ⟨v, hv, by rw [Vma.erase, if_pos (Or.inl (by omega))]; simp⟩) hstart)
    · intro hfree w hw hstart
      by_contra hle
      obtain ⟨v, hv, hw⟩ := List.mem_flatMap.1 hw
      have hsame : v.vmStart = va ∧ v.vmEnd ≤ va := by
        unfold Vma.erase at hw
        split_ifs at hw with hout hin hhead htail
        · obtain rfl := List.mem_singleton.1 hw
          omega
        · cases hw
        · obtain rfl := List.mem_singleton.1 hw
          dsimp only at hstart
          omega
        · obtain rfl := List.mem_singleton.1 hw
          dsimp only at hstart
          omega
        · rcases List.mem_cons.1 hw with rfl | hw
          · dsimp only at hstart
            omega
          · obtain rfl := List.mem_singleton.1 hw
            dsimp only at hstart
            omega
      have := hfree v hv hsame.1
      omega
  · intro w hw
    obtain ⟨v, -, hw⟩ := List.mem_flatMap.1 hw
    exact mem_erase_apart hw

theorem Erased.replacedOrKept_iff (h : Erased mm mid va stop) (hok : VmasOk mm.mmap)
    (hva : pageSize ∣ va ∧ va < 2 ^ 64) (hz : len ≠ 0) (hlen : len < 2 ^ 64)
      (hstop : (va + pageAlignUp len) % 2 ^ 64 = stop)
    (htop : mid.stackTop = mm.stackTop) (hlimit : stop ≤ stackLimit mm userStackBottom) {k' : Kmem}
    (hobj : k'.objAt 0 = k.objAt (mm.mmap.countP (Vma.takesObject va stop))) :
    ReplacedOrKept (doMmapInsert k' mid va (pageAlignUp len) mapProt).1 mm
        (doMmapInsert k' mid va (pageAlignUp len) mapProt).2.1 va len mapProt ↔
      Untouched mm va stop ∨ FixedFits k mm va len := by
  have hstop' : pageSize ∣ stop := by
    rw [← hstop]
    exact fixed_aligned hva.1
  have hiff : 0 ≤ (doMmapInsert k' mid va (pageAlignUp len) mapProt).1 ↔ _ := doMmapInsert_nonneg_iff
  rw [hstop, hobj] at hiff
  -- a call that fails in the insertion
  have hfails : (doMmapInsert k' mid va (pageAlignUp len) mapProt).1 < 0 → ¬ FixedFits k mm va len →
      (ReplacedOrKept (doMmapInsert k' mid va (pageAlignUp len) mapProt).1 mm
        (doMmapInsert k' mid va (pageAlignUp len) mapProt).2.1 va len mapProt ↔ Untouched mm va stop ∨
          FixedFits k mm va len) := by
    intro hneg hfit
    have hno : ¬ ((doMmapInsert k' mid va (pageAlignUp len) mapProt).1 = va ∧ Replaced mm mid va len mapProt) := by
      rintro ⟨hret, -⟩
      omega
    unfold ReplacedOrKept
    rw [doMmapInsert_neg hneg, or_iff_right hno, or_iff_left hfit, ← h.kept_iff hva.1 hstop', and_iff_right hneg]
  rcases fixed_stop hva.1 hva.2 hlen hz with ⟨hword, heq, hlt⟩ | ⟨hword, hback⟩
  · rw [hstop] at heq
    subst heq
    rw [h.insertVma_ne_none_iff hok hlt hva.1 hstop'] at hiff
    by_cases hret : 0 ≤ (doMmapInsert k' mid va (pageAlignUp len) mapProt).1
    · obtain ⟨hobject, hstart⟩ := hiff.1 hret
      have hmid : VmasOk mid.mmap := by
        rw [h.vmas]
        exact hok.erase hlt.le hva.1 hstop'
      have htop' : stackLimit mid userStackBottom = stackLimit mm userStackBottom := by
        unfold stackLimit
        rw [htop]
      obtain ⟨heq, hp⟩ := doMmapInsert_placed hmid hva (by rw [hstop, htop']; exact hlimit) hlen hret
      have hno : ¬ ((doMmapInsert k' mid va (pageAlignUp len) mapProt).1 < 0 ∧
          (doMmapInsert k' mid va (pageAlignUp len) mapProt).2.1.mmap = mm.mmap ∧
          ∀ a, (doMmapInsert k' mid va (pageAlignUp len) mapProt).2.1.pgd.slot a = mm.pgd.slot a) := by
        rintro ⟨hneg, -⟩
        omega
      unfold ReplacedOrKept
      rw [or_iff_left hno, and_iff_right heq, h.replaced_iff hok hva.1 hp]
      constructor
      · exact fun hpages => Or.inr ⟨hword, hobject, hstart, hpages⟩
      · rintro (⟨-, hfree⟩ | hfit)
        · intro x a hin _ hsame hmap
          rw [hfree x a hin.1 hin.2 hsame] at hmap
          cases hmap
        · exact hfit.pages
    · exact hfails (by omega) fun hfit => hret (hiff.2 ⟨hfit.object, hfit.start⟩)
  · refine hfails ?_ fun hfit => hword hfit.noWrap
    have hnone : insertVma mid.mmap ⟨va, stop, mapProt⟩ = none := by
      rw [hstop] at hback
      unfold insertVma
      simp only [ge_iff_le, hback, if_true]
    rw [hnone] at hiff
    simpa using hiff

/-- The call after its checks: the erasure fails, or the insertion decides. -/
theorem doMmap_fixed_cases (hok : VmasOk mm.mmap) (hz : len ≠ 0) (hanon : hasBits flags mapAnonymous = true)
    (hfixed : hasBits flags mapFixed = true) (haddr : addr ≠ 0) (hva : pageTrunc addr ≠ 0)
    (hstop : stop = (pageTrunc addr + pageAlignUp len) % 2 ^ 64) (hlimit : stop ≤ stackLimit mm userStackBottom) :
    (((∃ v ∈ mm.mmap, v.Around (pageTrunc addr) stop) ∧ k.objAt 0 = false) ∧
      (doMmap k mm addr len prot flags).1 = -enomem ∧ (doMmap k mm addr len prot flags).2.1 = mm ∧
      (doMmap k mm addr len prot flags).2.2.data = k.data) ∨
    (¬ ((∃ v ∈ mm.mmap, v.Around (pageTrunc addr) stop) ∧ k.objAt 0 = false) ∧
      ∃ mid k', doMmap k mm addr len prot flags = doMmapInsert k' mid (pageTrunc addr) (pageAlignUp len)
        (linuxProtToMap prot) ∧
        Erased mm mid (pageTrunc addr) stop ∧ mid.stackTop = mm.stackTop ∧ k'.data = k.data ∧
        k'.objAt 0 = k.objAt (mm.mmap.countP (Vma.takesObject (pageTrunc addr) stop))) := by
  unfold doMmap
  rw [if_neg hz, hanon, hfixed, if_neg (by simp)]
  dsimp only
  rw [if_neg (by simpa using haddr), ← hstop, if_neg (by omega), ← vmaEraseRange_eq_false_iff hok]
  have hdata : (vmaEraseRange (pageTrunc addr) stop k mm.mmap).2.2.data = k.data := vmaEraseRange_data k mm.mmap
  cases hr : vmaEraseRange (pageTrunc addr) stop k mm.mmap with
  | mk ok r =>
    obtain ⟨vmas, k'⟩ := r
    rw [hr] at hdata
    cases ok with
    | false =>
      have hsame := vmaEraseRange_unchanged hok (congrArg Prod.fst hr)
      rw [hr] at hsame
      dsimp only at hsame ⊢
      rw [hsame]
      exact Or.inl ⟨rfl, rfl, rfl, hdata⟩
    | true =>
      have hvmas := vmaEraseRange_of_true (congrArg Prod.fst hr)
      have hscript := vmaEraseRange_script (congrArg Prod.fst hr)
      rw [hr] at hvmas hscript
      dsimp only at hvmas hscript ⊢
      refine Or.inr ⟨by simp, _, _, rfl, ⟨hvmas, fun a => unmapPages_slot k' mm.pgd _ a⟩, rfl,
        (unmapPages_frame ..).2.trans hdata, ?_⟩
      unfold Kmem.objAt
      rw [(unmapPages_frame ..).1, hscript, List.getElem?_drop, Nat.add_zero]

end Calls

/-- A mapping at a fixed address replaces what was in its range or leaves everything as it was, if and
only if it is refused early, finds nothing in its way, or fits. No page is written to in any case. -/
theorem doMmap_fixed_iff (k : Kmem) (mm : MmStruct) (addr len : Nat) (prot flags : BitVec 64) (hok : VmasOk mm.mmap)
    (hpos : addr ≠ 0) (haddr : addr < 2 ^ 64) (hlen : len < 2 ^ 64) (hanon : hasBits flags mapAnonymous = true)
    (hfixed : hasBits flags mapFixed = true) :
    (ReplacedOrKept (doMmap k mm addr len prot flags).1 mm (doMmap k mm addr len prot flags).2.1 (pageTrunc addr) len
        (linuxProtToMap prot) ↔
      FixedSafe k mm (pageTrunc addr) len) ∧ (doMmap k mm addr len prot flags).2.2.data = k.data := by
  have hva : pageSize ∣ pageTrunc addr ∧ pageTrunc addr < 2 ^ 64 := by
    simp only [pageTrunc, pageSize]
    omega
  have hkept : ∀ {ret : Int}, ret < 0 → ReplacedOrKept ret mm mm (pageTrunc addr) len (linuxProtToMap prot) :=
    fun hneg => Or.inr ⟨hneg, rfl, fun _ => rfl⟩
  unfold FixedSafe
  generalize hstop : (pageTrunc addr + pageAlignUp len) % 2 ^ 64 = stop
  by_cases hz : len = 0
  · unfold doMmap
    rw [if_pos hz]
    exact ⟨iff_of_true (hkept (show -einval < 0 by decide)) (Or.inl hz), rfl⟩
  by_cases hearly : pageTrunc addr = 0 ∨ stackLimit mm userStackBottom < stop
  · unfold doMmap
    rw [if_neg hz, hanon, hfixed, if_neg (by simp)]
    dsimp only
    rw [if_neg (by simpa using hpos), hstop, if_pos (by omega)]
    exact ⟨iff_of_true (hkept (show -einval < 0 by decide)) (by tauto), rfl⟩
  push Not at hearly
  obtain ⟨hfails, hret, hsame, hdata⟩ | ⟨hruns, mid, k', heq, herased, htop, hdata, hobj⟩ :=
    doMmap_fixed_cases (k := k) hok hz hanon hfixed hpos hearly.1 hstop.symm hearly.2
  · refine ⟨iff_of_true ?_ (Or.inr (Or.inr (Or.inr (Or.inl hfails)))), hdata⟩
    rw [hret, hsame]
    exact hkept (by decide)
  · rw [heq]
    refine ⟨?_, doMmapInsert_data.trans hdata⟩
    rw [herased.replacedOrKept_iff hok hva hz hlen hstop htop hearly.2 hobj, or_iff_right hz, or_iff_right hearly.1,
      or_iff_right (Nat.not_lt.2 hearly.2), or_iff_right hruns]

/-- The last page of three is mapped anew. -/
theorem doMmap_fixed_iff_of_tail :
    FixedSafe { (init PageSys.oddStart).k with script := [([], true)] } threePages 0x402000 0x1000 ∧
      ReplacedOrKept
        (doMmap { (init PageSys.oddStart).k with script := [([], true)] } threePages 0x402000 0x1000 3 0x32).1
        threePages
        (doMmap { (init PageSys.oddStart).k with script := [([], true)] } threePages 0x402000 0x1000 3 0x32).2.1
        0x402000 0x1000 (linuxProtToMap 3) := by
  have hfits : FixedFits { (init PageSys.oddStart).k with script := [([], true)] } threePages 0x402000 0x1000 := by
    refine ⟨by decide, by decide, by decide, fun x a hin hlt hsame _ => ?_⟩
    have hr : roundUp 0x1000 = 0x1000 := by decide
    rw [samePage_iff] at hsame
    simp only [InRange, hr, userVaLimit, pageSize] at hin hlt hsame ⊢
    omega
  have hsafe : FixedSafe { (init PageSys.oddStart).k with script := [([], true)] } threePages 0x402000 0x1000 := by
    unfold FixedSafe
    exact Or.inr (Or.inr (Or.inr (Or.inr (Or.inr hfits))))
  exact ⟨hsafe, (doMmap_fixed_iff _ threePages 0x402000 0x1000 3 0x32 threePages_ok (by decide) (by decide) (by decide)
    (by decide) (by decide)).1.2 hsafe⟩

/-- With no object left for the new VMA the three pages at 0x400000 are gone and the call returns ENOMEM; a
length that wraps, from a page inside of them, returns EINVAL and leaves two VMAs that overlap. -/
theorem doMmap_fixed_not_atomic :
    ((doMmap (init PageSys.oddStart).k threePages 0x400000 0x3000 3 0x32).1 = -enomem ∧
      threePages.pgd.vaMapped 0x400000 = true ∧
      (doMmap (init PageSys.oddStart).k threePages 0x400000 0x3000 3 0x32).2.1.pgd.vaMapped 0x400000 = false ∧
      (doMmap (init PageSys.oddStart).k threePages 0x400000 0x3000 3 0x32).2.1.mmap = []) ∧
    (doMmap { (init PageSys.oddStart).k with script := [([], true), ([], true)] } threePages 0x402000
      (2 ^ 64 - 0x1000) 3 0x32).1 = -einval ∧
      (doMmap { (init PageSys.oddStart).k with script := [([], true), ([], true)] } threePages 0x402000
        (2 ^ 64 - 0x1000) 3 0x32).2.1.mmap = [⟨0x400000, 0x402000, protRead⟩, ⟨0x401000, 0x403000, protRead⟩] := by
  refine ⟨⟨by decide, by decide, by decide, rfl⟩, by decide, rfl⟩

end MiniOs.Mm
