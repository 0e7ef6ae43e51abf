/-
What `do_brk` does to an address space. It takes the heap to be the one VMA that starts at
`start_brk`; other calls split that VMA, cut it or remove it, and then moving the break changes
addresses on the wrong side of it or leaves pieces of the heap behind.
-/
import MiniOs.Proofs.Mm.Munmap

namespace MiniOs.Mm

open MmSys

/-! ## Address spaces of a program -/

inductive MmCall
  | brk (newbrk : Nat)
  | mmap (addr len : Nat) (prot flags : BitVec 64)
  | munmap (addr len : Nat)
  | mprotect (start «end» : Nat) (prot : BitVec 64)

def MmCall.exec (k : Kmem) (mm : MmStruct) : MmCall → Int × MmStruct × Kmem
  | .brk newbrk => doBrk k mm newbrk
  | .mmap addr len prot flags => doMmap k mm addr len prot flags
  | .munmap addr len => doMunmap k mm addr len
  | .mprotect start «end» prot => mmMprotect k mm start «end» prot

/-- What calls make of an image that `load_elf_binary` has set up: its break is at the start of the heap and its stack
where all stacks are. The memory is whatever it is when a call starts. -/
inductive FromImage : MmStruct → Prop
  | image {mm : MmStruct} : mm.brk = mm.startBrk → mm.stackTop = userStackTop → VmasSorted mm.mmap → FromImage mm
  | call {mm : MmStruct} (k : Kmem) (c : MmCall) : FromImage mm → VmasSorted (c.exec k mm).2.1.mmap →
      FromImage (c.exec k mm).2.1

/-- Moving the break to `newbrk` keeps the list sorted, changes no flags outside the range between the old break and the
new one, and leaves nothing above a break that moved down. -/
structure MovesBreak (mm : MmStruct) (newbrk : Nat) (ret : Int) (mm' : MmStruct) : Prop where
  sorted : VmasSorted mm'.mmap
  frame : ∀ a, a < min (roundUp mm.brk) (roundUp newbrk) ∨ max (roundUp mm.brk) (roundUp newbrk) ≤ a →
    flagsAt mm'.mmap a = flagsAt mm.mmap a
  clear : ret = newbrk → newbrk < mm.brk → ∀ a, roundUp newbrk ≤ a → a < roundUp mm.brk →
    flagsAt mm'.mmap a = none ∧ mm'.pgd.vaMapped a = false

/-- A break that moves up finds no heap and starts one at the break, or finds a heap that reaches the break. -/
def GrowFits (k : Kmem) (mm : MmStruct) (newbrk : Nat) : Prop :=
  match splitHeap mm.startBrk mm.mmap with
  | none => k.objAt 0 = true → (insertVma mm.mmap ⟨mm.startBrk, roundUp newbrk, protRead ||| protWrite⟩).isSome →
      roundUp mm.brk ≤ mm.startBrk
  | some (_, heap, after) => (∀ w, after.head? = some w → roundUp newbrk ≤ w.vmStart) → heap.vmEnd < roundUp newbrk →
      roundUp mm.brk ≤ heap.vmEnd

/-- A break that moves down finds a heap that ends between the new break and the old one, and no other VMA there. -/
def ShrinkFits (mm : MmStruct) (newbrk : Nat) : Prop :=
  match splitHeap mm.startBrk mm.mmap with
  | none => ∀ a, roundUp newbrk ≤ a → a < roundUp mm.brk → flagsAt mm.mmap a = none
  | some (before, heap, after) => heap.vmEnd ≤ roundUp mm.brk ∧
    (mm.startBrk < roundUp newbrk → roundUp newbrk ≤ heap.vmEnd) ∧
      ∀ a, roundUp newbrk ≤ a → a < roundUp mm.brk → flagsAt (before ++ after) a = none

/-- The call refuses the break, or the heap is where it takes it to be. -/
def BrkFits (k : Kmem) (mm : MmStruct) (newbrk : Nat) : Prop :=
  mm.startBrk ≤ newbrk → newbrk < userStackBottom →
    (mm.brk < newbrk → GrowFits k mm newbrk) ∧ (newbrk < mm.brk → ShrinkFits mm newbrk)

section Calls

variable {k : Kmem} {mm : MmStruct} {newbrk : Nat}

/-! ## The bounds of the heap -/

/-- The call leaves the bounds of the heap and the stack. -/
structure SameBounds (mm mm' : MmStruct) : Prop where
  stackTop : mm'.stackTop = mm.stackTop
  startBrk : mm'.startBrk = mm.startBrk
  brk : mm'.brk = mm.brk

theorem doMmapInsert_sameBounds (k : Kmem) (mm : MmStruct) (va len : Nat) (prot : BitVec 64) :
    SameBounds mm (doMmapInsert k mm va len prot).2.1 := by
  unfold doMmapInsert
  split
  · exact ⟨rfl, rfl, rfl⟩
  split
  · exact ⟨rfl, rfl, rfl⟩
  · exact ⟨rfl, rfl, rfl⟩

theorem doMmap_sameBounds (k : Kmem) (mm : MmStruct) (addr len : Nat) (prot flags : BitVec 64) :
    SameBounds mm (doMmap k mm addr len prot flags).2.1 := by
  unfold doMmap
  split
  · exact ⟨rfl, rfl, rfl⟩
  split
  · exact ⟨rfl, rfl, rfl⟩
  dsimp only
  split
  · split
    · exact ⟨rfl, rfl, rfl⟩
    · exact doMmapInsert_sameBounds ..
  split
  · exact ⟨rfl, rfl, rfl⟩
  split
  · exact ⟨rfl, rfl, rfl⟩
  · obtain ⟨h1, h2, h3⟩ := doMmapInsert_sameBounds _ { mm with mmap := _, pgd := _ } (pageTrunc addr) (pageAlignUp len)
      (linuxProtToMap prot)
    exact ⟨h1, h2, h3⟩

theorem doMunmap_sameBounds (k : Kmem) (mm : MmStruct) (addr len : Nat) :
    SameBounds mm (doMunmap k mm addr len).2.1 := by
  unfold doMunmap
  split
  · exact ⟨rfl, rfl, rfl⟩
  split
  · exact ⟨rfl, rfl, rfl⟩
  dsimp only
  split
  · exact ⟨rfl, rfl, rfl⟩
  · exact ⟨rfl, rfl, rfl⟩

theorem mmMprotect_sameBounds (k : Kmem) (mm : MmStruct) (start stop : Nat) (prot : BitVec 64) :
    SameBounds mm (mmMprotect k mm start stop prot).2.1 := by
  unfold mmMprotect
  split
  · exact ⟨rfl, rfl, rfl⟩
  split
  · exact ⟨rfl, rfl, rfl⟩
  split
  · exact ⟨rfl, rfl, rfl⟩
  split
  · exact ⟨rfl, rfl, rfl⟩
  · exact ⟨rfl, rfl, rfl⟩

theorem brkGrow_sameBounds (k : Kmem) (mm : MmStruct) (newbrk : Nat) : SameBounds mm (brkGrow k mm newbrk).2.1 := by
  unfold brkGrow
  dsimp only
  split
  · exact ⟨rfl, rfl, rfl⟩
  split
  · exact ⟨rfl, rfl, rfl⟩
  split
  · exact ⟨rfl, rfl, rfl⟩
  · exact ⟨rfl, rfl, rfl⟩

theorem brkShrink_sameBounds (k : Kmem) (mm : MmStruct) (newbrk : Nat) : SameBounds mm (brkShrink k mm newbrk).1 := by
  unfold brkShrink
  dsimp only
  split
  · exact ⟨rfl, rfl, rfl⟩
  split
  · exact ⟨rfl, rfl, rfl⟩
  · exact ⟨rfl, rfl, rfl⟩

/-- The break is not below the heap, and below the stack once it has moved. -/
structure Bounded (mm : MmStruct) : Prop where
  stackTop : mm.stackTop = userStackTop
  low : mm.startBrk ≤ mm.brk
  high : mm.brk = mm.startBrk ∨ mm.brk < userStackBottom

theorem Bounded.limit (h : Bounded mm) : stackLimit mm 0 = userStackBottom := by
  unfold stackLimit
  rw [h.stackTop]
  rfl

theorem Bounded.same {mm' : MmStruct} (h : Bounded mm) (hs : SameBounds mm mm') : Bounded mm' := by
  refine ⟨hs.stackTop.trans h.stackTop, ?_, ?_⟩
  · rw [hs.startBrk, hs.brk]
    exact h.low
  · rw [hs.startBrk, hs.brk]
    exact h.high

theorem doBrk_refused (h : Bounded mm) (hr : newbrk < mm.startBrk ∨ userStackBottom ≤ newbrk ∨ newbrk = mm.brk) :
    doBrk k mm newbrk = ((mm.brk : Int), mm, k) := by
  unfold doBrk
  dsimp only
  rw [h.limit]
  split
  · rfl
  split
  · rfl
  · rename_i hin hne
    simp only [userStackBottom, userStackTop, userStackSize] at hin hr
    omega

theorem doBrk_grow (h : Bounded mm) (hlt : mm.brk < newbrk) (hlim : newbrk < userStackBottom) :
    doBrk k mm newbrk = if (brkGrow k mm newbrk).1 then
        ((newbrk : Int), { (brkGrow k mm newbrk).2.1 with brk := newbrk }, (brkGrow k mm newbrk).2.2)
      else (((brkGrow k mm newbrk).2.1.brk : Int), (brkGrow k mm newbrk).2) := by
  have hlow := h.low
  unfold doBrk
  dsimp only
  rw [h.limit, if_neg (by omega), if_neg (by omega), if_pos hlt]
  generalize brkGrow k mm newbrk = r
  obtain ⟨_ | _, mm', k'⟩ := r
  · rfl
  · rfl

theorem doBrk_shrink (h : Bounded mm) (hlow : mm.startBrk ≤ newbrk) (hlt : newbrk < mm.brk) :
    doBrk k mm newbrk =
      ((newbrk : Int), { (brkShrink k mm newbrk).1 with brk := newbrk }, (brkShrink k mm newbrk).2) ∧
        mm.brk < userStackBottom := by
  have hhigh : mm.brk < userStackBottom := h.high.resolve_left (by omega)
  refine ⟨?_, hhigh⟩
  unfold doBrk
  dsimp only
  rw [h.limit, if_neg (by omega), if_neg (by omega), if_neg (by omega)]

theorem FromImage.bounded (h : FromImage mm) : Bounded mm ∧ VmasSorted mm.mmap := by
  induction h with
  | image hbrk hstack hs => exact ⟨⟨hstack, by omega, Or.inl hbrk⟩, hs⟩
  | @call mm k c _ hs ih =>
    refine ⟨?_, hs⟩
    obtain ⟨hb, -⟩ := ih
    cases c with
    | mmap addr len prot flags => exact hb.same (doMmap_sameBounds ..)
    | munmap addr len => exact hb.same (doMunmap_sameBounds ..)
    | mprotect start stop prot => exact hb.same (mmMprotect_sameBounds ..)
    | brk newbrk =>
      show Bounded (doBrk k mm newbrk).2.1
      by_cases hr : newbrk < mm.startBrk ∨ userStackBottom ≤ newbrk ∨ newbrk = mm.brk
      · rw [doBrk_refused hb hr]
        exact hb
      by_cases hlt : mm.brk < newbrk
      · have hgrow := brkGrow_sameBounds k mm newbrk
        rw [doBrk_grow hb hlt (by omega)]
        split
        · refine ⟨hgrow.stackTop.trans hb.stackTop, ?_, Or.inr (show newbrk < userStackBottom by omega)⟩
          show (brkGrow k mm newbrk).2.1.startBrk ≤ newbrk
          rw [hgrow.startBrk]
          omega
        · exact hb.same hgrow
      · have hshrink := brkShrink_sameBounds k mm newbrk
        rw [(doBrk_shrink hb (by omega) (by omega)).1]
        refine ⟨hshrink.stackTop.trans hb.stackTop, ?_, Or.inr (show newbrk < userStackBottom by omega)⟩
        show (brkShrink k mm newbrk).1.startBrk ≤ newbrk
        rw [hshrink.startBrk]
        omega

/-! ## The heap VMA -/

variable {after before : List Vma} {heap : Vma}

theorem splitHeap_eq_some {vmas : List Vma} {start : Nat}
    (h : splitHeap start vmas = some (before, heap, after)) : vmas = before ++ heap :: after ∧
      heap.vmStart = start := by
  unfold splitHeap at h
  split at h
  · cases h
  · rename_i v rest hdrop
    cases h
    refine ⟨?_, ?_⟩
    · rw [← hdrop]
      exact (List.takeWhile_append_dropWhile ..).symm
    · have hhead := List.head?_dropWhile_not (fun v : Vma => decide (v.vmStart ≠ start)) vmas
      rw [hdrop] at hhead
      simpa using hhead

theorem pageAlignUp_eq_roundUp {x : Nat} (h : x < userStackBottom) : pageAlignUp x = roundUp x := by
  simp only [userStackBottom, userStackTop, userStackSize] at h
  simp only [pageAlignUp, roundUp, pageSize]
  omega

theorem le_roundUp (x : Nat) : x ≤ roundUp x := by
  simp only [roundUp, pageSize]
  omega

theorem roundUp_mono {x y : Nat} (h : x ≤ y) : roundUp x ≤ roundUp y := by
  simp only [roundUp, pageSize]
  omega

/-- The flags outside of a range are as they were. -/
def SameOutside (lo hi : Nat) (vmas vmas' : List Vma) : Prop := ∀ a, a < lo ∨ hi ≤ a → flagsAt vmas' a = flagsAt vmas a

theorem brkGrow_of_no_heap (hheap : splitHeap mm.startBrk mm.mmap = none) (hlt : mm.startBrk < roundUp newbrk)
    (hlim : newbrk < userStackBottom) : (brkGrow k mm newbrk).2.1.mmap = if k.objAt 0 then
      (insertVma mm.mmap ⟨mm.startBrk, roundUp newbrk, protRead ||| protWrite⟩).getD mm.mmap else mm.mmap := by
  unfold brkGrow
  rw [hheap]
  dsimp only
  rw [pageAlignUp_eq_roundUp hlim, ← objCall_eq_objAt]
  unfold vmaRecord
  rw [if_neg (by omega)]
  generalize k.objCall = r
  obtain ⟨_ | _, k'⟩ := r
  · rfl
  · dsimp only
    cases insertVma mm.mmap ⟨mm.startBrk, roundUp newbrk, protRead ||| protWrite⟩ with
    | none => rfl
    | some vmas => rfl

/-- Without a heap VMA a new one is made for all of the heap. -/
theorem grow_iff_of_no_heap (h : VmasSorted mm.mmap) (hb : Bounded mm) (hlt : mm.brk < newbrk)
    (hlim : newbrk < userStackBottom) (hheap : splitHeap mm.startBrk mm.mmap = none) :
    VmasSorted (brkGrow k mm newbrk).2.1.mmap ∧
      SameOutside (roundUp mm.brk) (roundUp newbrk) mm.mmap (brkGrow k mm newbrk).2.1.mmap ↔ GrowFits k mm newbrk := by
  have hlow := hb.low
  have hle := le_roundUp newbrk
  unfold GrowFits
  rw [hheap, brkGrow_of_no_heap hheap (by omega) hlim]
  dsimp only
  cases k.objAt 0 with
  | false => exact iff_of_true ⟨h, fun _ _ => rfl⟩ (by simp)
  | true =>
    rw [if_pos rfl]
    cases hi : insertVma mm.mmap ⟨mm.startBrk, roundUp newbrk, protRead ||| protWrite⟩ with
    | none => exact iff_of_true ⟨h, fun _ _ => rfl⟩ (by simp)
    | some vmas =>
      obtain ⟨before, after, hsplit, rfl, hpos, hsorted⟩ := insertVma_split h hi
      simp only [Option.getD_some, Option.isSome_some, forall_const]
      constructor
      · rintro ⟨-, hsame⟩
        by_contra hgap
        have hcov : (Vma.mk mm.startBrk (roundUp newbrk) (protRead ||| protWrite)).Covers mm.startBrk :=
          ⟨Nat.le_refl _, hpos⟩
        have hnow := hsame mm.startBrk (Or.inl (by omega))
        rw [hsorted.flagsAt_middle, if_pos hcov, hsplit, hsorted.flagsAt_rest hcov] at hnow
        cases hnow
      · intro hstart
        refine ⟨hsorted, fun a ha => ?_⟩
        rw [hsorted.flagsAt_middle, if_neg, hsplit]
        simp only [not_and]
        omega

theorem grow_iff_of_heap (h : VmasSorted mm.mmap) (hlim : newbrk < userStackBottom)
    (hheap : splitHeap mm.startBrk mm.mmap = some (before, heap, after)) :
    VmasSorted (brkGrow k mm newbrk).2.1.mmap ∧
      SameOutside (roundUp mm.brk) (roundUp newbrk) mm.mmap (brkGrow k mm newbrk).2.1.mmap ↔ GrowFits k mm newbrk := by
  obtain ⟨hsplit, -⟩ := splitHeap_eq_some hheap
  unfold brkGrow GrowFits
  rw [hheap]
  dsimp only
  rw [pageAlignUp_eq_roundUp hlim]
  split
  · rename_i hnext
    obtain ⟨w, hw, hmeets⟩ := (Option.any_eq_true ..).1 hnext
    refine iff_of_true ⟨h, fun _ _ => rfl⟩ fun hroom => ?_
    have hfar := hroom w hw
    simp only [gt_iff_lt, decide_eq_true_eq] at hmeets
    omega
  rename_i hnext
  have hroom : ∀ w, after.head? = some w → roundUp newbrk ≤ w.vmStart := by
    intro w hw
    simpa [hw] using hnext
  split
  · rename_i hlong
    rw [hsplit] at h ⊢
    obtain ⟨hrest, horder, hbefore, -⟩ := vmasSorted_middle.1 h
    have hafter : ∀ w ∈ after, roundUp newbrk ≤ w.vmStart :=
      le_of_head? (hrest.sublist (List.sublist_append_right ..)) hroom
    have hsorted : VmasSorted (before ++ { heap with vmEnd := roundUp newbrk } :: after) :=
      vmasSorted_middle.2 ⟨hrest, by dsimp only; omega, hbefore, hafter⟩
    constructor
    · rintro ⟨-, hsame⟩ - -
      by_contra hgap
      have hcov : ({ heap with vmEnd := roundUp newbrk } : Vma).Covers heap.vmEnd := ⟨horder, hlong⟩
      have hnow := hsame heap.vmEnd (Or.inl (by omega))
      rw [hsorted.flagsAt_middle, if_pos hcov, h.flagsAt_middle, if_neg (by simp), hsorted.flagsAt_rest hcov] at hnow
      cases hnow
    · intro hfits
      have hend := hfits hroom hlong
      refine ⟨hsorted, fun a ha => ?_⟩
      rw [hsorted.flagsAt_middle, h.flagsAt_middle]
      have hcov : ({ heap with vmEnd := roundUp newbrk } : Vma).Covers a ↔ heap.Covers a := by
        show heap.vmStart ≤ a ∧ a < roundUp newbrk ↔ heap.vmStart ≤ a ∧ a < heap.vmEnd
        omega
      simp only [hcov]
  · rename_i hlong
    exact iff_of_true ⟨h, fun _ _ => rfl⟩ fun _ hlt => absurd hlt hlong

/-- The part of `MovesBreak` for a break that moves down, on the list alone. -/
def ClearsAbove (lo hi : Nat) (vmas vmas' : List Vma) : Prop :=
  VmasSorted vmas' ∧ SameOutside lo hi vmas vmas' ∧ ∀ a, lo ≤ a → a < hi → flagsAt vmas' a = none

theorem clears_iff_of_removed {lo hi : Nat} (h : VmasSorted (before ++ heap :: after))
    (hlo : lo ≤ heap.vmStart) (hhi : heap.vmStart ≤ hi) :
    ClearsAbove lo hi (before ++ heap :: after) (before ++ after) ↔
      heap.vmEnd ≤ hi ∧ ∀ a, lo ≤ a → a < hi → flagsAt (before ++ after) a = none := by
  constructor
  · rintro ⟨-, hsame, hclear⟩
    refine ⟨?_, hclear⟩
    by_contra hlong
    have hcov : heap.Covers hi := ⟨hhi, by omega⟩
    have hnow := hsame hi (Or.inr (Nat.le_refl _))
    rw [h.flagsAt_rest hcov, h.flagsAt_middle, if_pos hcov] at hnow
    cases hnow
  · rintro ⟨hend, hclear⟩
    refine ⟨(vmasSorted_middle.1 h).1, fun a ha => ?_, hclear⟩
    rw [h.flagsAt_middle, if_neg]
    simp only [not_and]
    omega

theorem clears_iff_of_cut {lo hi : Nat} (h : VmasSorted (before ++ heap :: after))
    (hle : lo ≤ hi) (hlo : heap.vmStart < lo) :
    ClearsAbove lo hi (before ++ heap :: after) (before ++ { heap with vmEnd := lo } :: after) ↔
      heap.vmEnd ≤ hi ∧ lo ≤ heap.vmEnd ∧ ∀ a, lo ≤ a → a < hi → flagsAt (before ++ after) a = none := by
  obtain ⟨hrest, horder, hbefore, hafter⟩ := vmasSorted_middle.1 h
  constructor
  · rintro ⟨hsorted, hsame, hclear⟩
    refine ⟨?_, ?_, fun a h1 h2 => ?_⟩
    · by_contra hlong
      have hcov : heap.Covers hi := ⟨by omega, by omega⟩
      have hnow := hsame hi (Or.inr (Nat.le_refl _))
      rw [hsorted.flagsAt_middle, if_neg (by simp only [not_and]; omega), h.flagsAt_rest hcov, h.flagsAt_middle,
        if_pos hcov] at hnow
      cases hnow
    · by_contra hshort
      have hcov : ({ heap with vmEnd := lo } : Vma).Covers heap.vmEnd := ⟨horder, show heap.vmEnd < lo by omega⟩
      have hnow := hsame heap.vmEnd (Or.inl (by omega))
      rw [hsorted.flagsAt_middle, if_pos hcov, h.flagsAt_middle, if_neg (by simp), hsorted.flagsAt_rest hcov] at hnow
      cases hnow
    · have hnone := hclear a h1 h2
      rwa [hsorted.flagsAt_middle, if_neg (by simp only [not_and]; omega)] at hnone
  · rintro ⟨hend, hcut, hclear⟩
    have hsorted : VmasSorted (before ++ { heap with vmEnd := lo } :: after) :=
      vmasSorted_middle.2 ⟨hrest, hlo.le, hbefore, fun w hw => Nat.le_trans hcut (hafter w hw)⟩
    refine ⟨hsorted, fun a ha => ?_, fun a h1 h2 => ?_⟩
    · have hcov : ({ heap with vmEnd := lo } : Vma).Covers a ↔ heap.Covers a := by
        show heap.vmStart ≤ a ∧ a < lo ↔ heap.vmStart ≤ a ∧ a < heap.vmEnd
        omega
      rw [hsorted.flagsAt_middle, h.flagsAt_middle]
      simp only [hcov]
    · rw [hsorted.flagsAt_middle, if_neg (by simp only [not_and]; omega)]
      exact hclear a h1 h2

theorem shrink_iff (h : VmasSorted mm.mmap) (hlow : mm.startBrk ≤ newbrk) (hlt : newbrk < mm.brk)
    (hlim : mm.brk < userStackBottom) :
    ClearsAbove (roundUp newbrk) (roundUp mm.brk) mm.mmap (brkShrink k mm newbrk).1.mmap ↔ ShrinkFits mm newbrk := by
  have hle : roundUp newbrk ≤ roundUp mm.brk := roundUp_mono hlt.le
  have hup := le_roundUp newbrk
  unfold brkShrink ShrinkFits
  dsimp only
  rw [pageAlignUp_eq_roundUp (show newbrk < userStackBottom by omega)]
  cases hheap : splitHeap mm.startBrk mm.mmap with
  | none => exact ⟨fun hc => hc.2.2, fun hc => ⟨h, fun _ _ => rfl, hc⟩⟩
  | some parts =>
    obtain ⟨before, heap, after⟩ := parts
    obtain ⟨hsplit, hstart⟩ := splitHeap_eq_some hheap
    rw [hsplit] at h ⊢
    dsimp only
    split
    · rename_i hgone
      rw [clears_iff_of_removed h hgone (by omega)]
      exact ⟨fun hc => ⟨hc.1, fun hpos => by omega, hc.2⟩, fun hc => ⟨hc.1, hc.2.2⟩⟩
    · rename_i hkept
      rw [clears_iff_of_cut h hle (by omega)]
      exact ⟨fun hc => ⟨hc.1, fun _ => hc.2.1, hc.2.2⟩, fun hc => ⟨hc.1, hc.2.1 (by omega), hc.2.2⟩⟩

/-! ## `do_brk` -/

/-- The pages above the new break are gone, whatever the list says. -/
theorem brkShrink_unmaps (hlt : newbrk < mm.brk) (hlim : mm.brk < userStackBottom) {a : Nat} (h1 : roundUp newbrk ≤ a)
    (h2 : a < roundUp mm.brk) : (brkShrink k mm newbrk).1.pgd.vaMapped a = false := by
  have hpgd : (brkShrink k mm newbrk).1.pgd =
    (unmapPages k mm.pgd (pageRange (roundUp newbrk) (roundUp mm.brk))).1 := by
    unfold brkShrink
    dsimp only
    rw [pageAlignUp_eq_roundUp hlim, pageAlignUp_eq_roundUp (show newbrk < userStackBottom by omega)]
    split
    · rfl
    split
    · rfl
    · rfl
  have hwalk : ∃ va ∈ pageRange (roundUp newbrk) (roundUp mm.brk), samePage va a = true :=
    (exists_pageRange_iff (pageSize_dvd_roundUp _) (pageSize_dvd_roundUp _)).2 ⟨a, h1, h2, samePage_iff.2 rfl⟩
  have hslot := unmapPages_slot k mm.pgd (pageRange (roundUp newbrk) (roundUp mm.brk)) a
  rw [hpgd]
  cases hm : mm.pgd.vaMapped a with
  | true =>
    rw [if_pos ⟨hwalk, hm⟩] at hslot
    rw [vaMapped_of_slot hslot]
    decide
  | false =>
    rw [if_neg (by simp [hm])] at hslot
    rw [vaMapped_congr hslot, hm]

/-- Moving the break does what it should if and only if the heap is where the call takes it to be. -/
theorem doBrk_movesBreak_iff (h : FromImage mm) (k : Kmem) (newbrk : Nat) :
    MovesBreak mm newbrk (doBrk k mm newbrk).1 (doBrk k mm newbrk).2.1 ↔ BrkFits k mm newbrk := by
  obtain ⟨hb, hs⟩ := h.bounded
  unfold BrkFits
  by_cases hr : newbrk < mm.startBrk ∨ userStackBottom ≤ newbrk ∨ newbrk = mm.brk
  · rw [doBrk_refused hb hr]
    refine iff_of_true ⟨hs, fun _ _ => rfl, fun hret hlt => ?_⟩ fun hlow hlim => ⟨fun hlt => ?_, fun hlt => ?_⟩
    · have : mm.brk = newbrk := Int.ofNat.inj hret
      omega
    · omega
    · omega
  have hlow : mm.startBrk ≤ newbrk := by omega
  have hlim : newbrk < userStackBottom := by omega
  simp only [hlow, hlim, forall_const]
  by_cases hlt : mm.brk < newbrk
  · have hle : roundUp mm.brk ≤ roundUp newbrk := roundUp_mono hlt.le
    have hmm : (doBrk k mm newbrk).2.1.mmap = (brkGrow k mm newbrk).2.1.mmap := by
      rw [doBrk_grow hb hlt hlim]
      split
      · rfl
      · rfl
    have hgrow : VmasSorted (brkGrow k mm newbrk).2.1.mmap ∧
        SameOutside (roundUp mm.brk) (roundUp newbrk) mm.mmap (brkGrow k mm newbrk).2.1.mmap ↔
          GrowFits k mm newbrk := by
      cases hheap : splitHeap mm.startBrk mm.mmap with
      | none => exact grow_iff_of_no_heap hs hb hlt hlim hheap
      | some parts => exact grow_iff_of_heap hs hlim hheap
    rw [← hmm] at hgrow
    simp only [hlt, forall_const, show ¬ newbrk < mm.brk by omega, false_implies, and_true]
    rw [← hgrow]
    constructor
    · rintro ⟨hsorted, hframe, -⟩
      rw [min_eq_left hle, max_eq_right hle] at hframe
      exact ⟨hsorted, hframe⟩
    · rintro ⟨hsorted, hframe⟩
      refine ⟨hsorted, ?_, fun _ hgt => absurd hgt (by omega)⟩
      rw [min_eq_left hle, max_eq_right hle]
      exact hframe
  · have hgt : newbrk < mm.brk := by omega
    have hle : roundUp newbrk ≤ roundUp mm.brk := roundUp_mono hgt.le
    obtain ⟨heq, hhigh⟩ := doBrk_shrink (k := k) hb hlow hgt
    simp only [hlt, hgt, false_implies, true_and, forall_const]
    rw [← shrink_iff (k := k) hs hlow hgt hhigh, heq]
    constructor
    · rintro ⟨hsorted, hframe, hclear⟩
      rw [min_eq_right hle, max_eq_left hle] at hframe
      exact ⟨hsorted, hframe, fun a h1 h2 => (hclear rfl hgt a h1 h2).1⟩
    · rintro ⟨hsorted, hframe, hclear⟩
      refine ⟨hsorted, ?_, fun _ _ a h1 h2 => ⟨hclear a h1 h2, brkShrink_unmaps hgt hhigh h1 h2⟩⟩
      rw [min_eq_right hle, max_eq_left hle]
      exact hframe

end Calls

/-- A program with one page of code and a stack. -/
def onePage : MmStruct where
  mmap := [⟨0x400000, 0x401000, protRead ||| protExec⟩, ⟨userStackBottom, userStackTop, protRead ||| protWrite ||| 8⟩]
  pgd := (Node.empty 0).set (l1Idx 0x400000) ((Node.empty 1).set (l2Idx 0x400000) ((L3.empty 2).set (l3Idx 0x400000) 3))
  stackTop := userStackTop
  startBrk := 0x401000
  brk := 0x401000
  mmapBase := userMmapBase
  users := 1

/-- Memory in which VMAs can be allocated. -/
def ready : Kmem := { (init PageSys.oddStart).k with script := [([], true), ([], true)] }

theorem vmasSorted_of_bounds {vmas : List Vma} (h : ∀ v ∈ vmas.map fun v => (v.vmStart, v.vmEnd), v.1 ≤ v.2)
    (hs : vmas.Pairwise fun v w => v.vmEnd ≤ w.vmStart) : VmasSorted vmas :=
  ⟨fun v hv => h (v.vmStart, v.vmEnd) (List.mem_map_of_mem hv), hs⟩

theorem onePage_image : FromImage onePage :=
  FromImage.image rfl rfl (vmasSorted_of_bounds (by decide) (by decide))

/-- The first call of a program makes three pages of heap. -/
theorem doBrk_movesBreak_of_first :
    MovesBreak onePage 0x404000 (doBrk ready onePage 0x404000).1 (doBrk ready onePage 0x404000).2.1 ∧
      (doBrk ready onePage 0x404000).1 = 0x404000 := by
  refine ⟨(doBrk_movesBreak_iff onePage_image ready 0x404000).2 fun _ _ => ⟨fun _ _ _ => by decide, fun hlt => ?_⟩,
    by decide⟩
  exact absurd hlt (by decide)

/-- The three pages of heap, the one in the middle made read-only. -/
def threeHeaps : MmStruct :=
  ((MmCall.mprotect 0x402000 0x403000 1).exec ready ((MmCall.brk 0x404000).exec ready onePage).2.1).2.1

theorem threeHeaps_fromImage : FromImage threeHeaps :=
  .call ready _ (.call ready _ onePage_image (vmasSorted_of_bounds (by decide) (by decide)))
    (vmasSorted_of_bounds (by decide) (by decide))

/-- Moving the break down by one page, to 0x403000, makes the first of the three VMAs of the heap overlap the second one
and leaves the third one above the break. -/
theorem doBrk_not_movesBreak : FromImage threeHeaps ∧ (doBrk ready threeHeaps 0x403000).1 = 0x403000 ∧
    (doBrk ready threeHeaps 0x403000).2.1.mmap = [⟨0x400000, 0x401000, protRead ||| protExec⟩,
      ⟨0x401000, 0x403000, protRead ||| protWrite⟩, ⟨0x402000, 0x403000, protRead⟩,
      ⟨0x403000, 0x404000, protRead ||| protWrite⟩, ⟨userStackBottom, userStackTop, protRead ||| protWrite ||| 8⟩] ∧
    ¬ MovesBreak threeHeaps 0x403000 (doBrk ready threeHeaps 0x403000).1 (doBrk ready threeHeaps 0x403000).2.1 := by
  have hmmap : (doBrk ready threeHeaps 0x403000).2.1.mmap = [⟨0x400000, 0x401000, protRead ||| protExec⟩,
      ⟨0x401000, 0x403000, protRead ||| protWrite⟩, ⟨0x402000, 0x403000, protRead⟩,
      ⟨0x403000, 0x404000, protRead ||| protWrite⟩, ⟨userStackBottom, userStackTop, protRead ||| protWrite ||| 8⟩] :=
        rfl
  refine ⟨threeHeaps_fromImage, rfl, hmmap, fun h => ?_⟩
  have hsorted := h.sorted.sorted
  rw [hmmap] at hsorted
  exact absurd hsorted (by decide)

end MiniOs.Mm
