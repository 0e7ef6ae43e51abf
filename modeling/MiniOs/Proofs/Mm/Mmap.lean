/-
The calls on one address space, in terms of accounting and view. Unmapping calls (`do_munmap`, `do_brk`,
`do_mmap` with MAP_FIXED) clear entries and give their frames up; `mm_mprotect` changes entries but not
frames; a page fault adds a zeroed page or replaces a shared frame by a copy. None of them changes a
byte that another address space can see.
-/
import MiniOs.Proofs.Mm.View

namespace MiniOs.Mm

open Library PageAlloc Usage MmSys

/-! ## What a call may do -/

/-- From page table `t` to `t'`, where the other address spaces use `base`; the pages `gone` are
dropped. -/
structure Trans (P : PageAlloc) (base : Usage) (k : Kmem) (t : L1) (k' : Kmem) (t' : L1) (gone : Nat → Bool) :
    Prop where
  acct : Acct P k' (base + L1.usage P t')
  returned : ∃ new, k'.returned = new ++ k.returned ∧
    ∀ p ∈ (base + L1.usage P t).refs, (p ∈ new ↔ p ∉ (base + L1.usage P t').refs)
  data : ∀ p ∈ base.all, k'.data p = k.data p
  view : ∀ va, view P k'.data t' va = if gone va then 0 else view P k.data t va
  backed : Backed P t → Backed P t'

/-- Entries stay or are cleared. -/
def Drops (t t' : L1) : Prop := ∀ va, t'.slot va = t.slot va ∨ (t'.slot va = some 0 ∧ t.vaMapped va = true)

/-- Entries may change, frames do not. -/
structure SameFrames (P : PageAlloc) (t t' : L1) : Prop where
  frame : ∀ va, t'.frameOf P va = t.frameOf P va
  backed : Backed P t → Backed P t'

/-- A part of the kernel that leaves user memory alone. -/
def Idle (k k' : Kmem) : Prop :=
  ∀ P u, Acct P k u → Acct P k' u ∧ k'.data = k.data ∧ k'.returned = k.returned

section Relations

variable {P : PageAlloc} {base : Usage} {k k' k'' : Kmem} {t t' t'' : L1}

theorem Drops.refl : Drops t t := fun _ => .inl rfl

theorem Drops.trans (h1 : Drops t t') (h2 : Drops t' t'') : Drops t t'' := by
  intro va
  rcases h1 va with e1 | ⟨e1, m1⟩
  · rcases h2 va with e2 | ⟨e2, m2⟩
    · exact .inl (e2.trans e1)
    · refine .inr ⟨e2, ?_⟩
      unfold L1.vaMapped at m2 ⊢
      rwa [e1] at m2
  · refine .inr ⟨?_, m1⟩
    rcases h2 va with e2 | ⟨e2, -⟩
    · exact e2.trans e1
    · exact e2

theorem Drops.backed (h : Drops t t') (hb : Backed P t) : Backed P t' := by
  intro va pte hs hpres
  rcases h va with e | ⟨e, -⟩
  · exact hb va pte (e ▸ hs) hpres
  · rw [e] at hs
    cases hs
    exact absurd hpres (by decide)

theorem Drops.view (h : Drops t t') (data : Nat → Nat → UInt8) (va : Nat) :
    view P data t' va = if dropped t t' va then 0 else view P data t va := by
  unfold MmSys.dropped
  rcases h va with e | ⟨e, m⟩
  · have hsame : t'.vaMapped va = t.vaMapped va := by unfold L1.vaMapped; rw [e]
    have hframe : t'.frameOf P va = t.frameOf P va := by unfold L1.frameOf; rw [e]
    simp only [hsame, Bool.and_not_self, Bool.false_eq_true, if_false]
    exact view_of_frameOf hframe fun _ _ => rfl
  · have hgone : t'.vaMapped va = false := by unfold L1.vaMapped; rw [e]; decide
    rw [m, hgone]
    unfold MiniOs.Mm.view
    rw [frameOf_of_unmapped hgone]
    rfl

theorem Idle.refl (k : Kmem) : Idle k k := fun _ _ h => ⟨h, rfl, rfl⟩

theorem Idle.trans (h1 : Idle k k') (h2 : Idle k' k'') : Idle k k'' := by
  intro P u h
  obtain ⟨a1, d1, r1⟩ := h1 P u h
  obtain ⟨a2, d2, r2⟩ := h2 P u a1
  exact ⟨a2, d2.trans d1, r2.trans r1⟩

theorem Idle.shrinks {u : Usage} (h : Idle k k') (ha : Acct P k u) : Shrinks P k u k' u := by
  obtain ⟨a, d, r⟩ := h P u ha
  exact ⟨a, d, fun _ hp => hp, [], r, fun p hp => by simp [hp]⟩

theorem SameFrames.refl : SameFrames P t t := ⟨fun _ => rfl, id⟩

theorem SameFrames.trans (h1 : SameFrames P t t') (h2 : SameFrames P t' t'') : SameFrames P t t'' :=
  ⟨fun va => (h2.frame va).trans (h1.frame va), fun hb => h2.backed (h1.backed hb)⟩

theorem Trans.of_drops (h : Shrinks P k (base + L1.usage P t) k' (base + L1.usage P t')) (hd : Drops t t') :
    Trans P base k t k' t' (dropped t t') := by
  refine ⟨h.acct, h.returned, fun p _ => by rw [h.data], fun va => ?_, hd.backed⟩
  rw [h.data]
  exact hd.view k.data va

/-- Entries changed over the same frames. -/
theorem Trans.of_sameFrames (ha : Acct P k' (base + L1.usage P t')) (hrefs : (L1.usage P t').refs = (L1.usage P t).refs)
    (hret : k'.returned = k.returned) (hdata : k'.data = k.data) (hf : SameFrames P t t') :
    Trans P base k t k' t' fun _ => false := by
  refine ⟨ha, ⟨[], hret, fun p hp => ?_⟩, fun p _ => by rw [hdata], fun va => ?_, hf.backed⟩
  · rw [refs_add, hrefs, ← refs_add]
    exact ⟨fun h => absurd h List.not_mem_nil, fun h => absurd hp h⟩
  · rw [hdata]
    exact view_of_frameOf (hf.frame va) fun _ _ => rfl

end Relations

/-! ## VMAs -/

section Vmas

theorem objCall_idle (k : Kmem) : Idle k k.objCall.2 := fun _ _ h => objCall_acct h

theorem objCall_idle_of {k k' : Kmem} {ok : Bool} (h : k.objCall = (ok, k')) : Idle k k' := by
  have := objCall_idle k
  rwa [h] at this

theorem freeVmas_idle : ∀ (vmas : List Vma) (k : Kmem), Idle k (freeVmas k vmas)
  | [], k => Idle.refl k
  | _ :: vmas, k => (objCall_idle k).trans (freeVmas_idle vmas _)

theorem dupVmaLoop_idle : ∀ (vmas done : List Vma) (k : Kmem), Idle k (dupVmaLoop k done vmas).2
  | [], _, k => Idle.refl k
  | v :: vmas, done, k => by
    unfold dupVmaLoop
    split
    · rename_i k1 h
      exact (objCall_idle_of h).trans (freeVmas_idle done k1)
    · rename_i k1 h
      exact (objCall_idle_of h).trans (dupVmaLoop_idle vmas _ k1)

theorem vmaRecord_idle (k : Kmem) (vmas : List Vma) (start «end» : Nat) (flags : BitVec 64) :
    Idle k (vmaRecord k vmas start «end» flags).2.2 := by
  unfold vmaRecord
  split
  · exact Idle.refl k
  · split
    · rename_i k1 h
      exact objCall_idle_of h
    · rename_i k1 h
      split
      · exact (objCall_idle_of h).trans (objCall_idle k1)
      · exact objCall_idle_of h

theorem vmaEraseRange_idle (start «end» : Nat) : ∀ (vmas : List Vma) (k : Kmem),
    Idle k (vmaEraseRange start «end» k vmas).2.2
  | [], k => Idle.refl k
  | v :: vmas, k => by
    unfold vmaEraseRange
    split
    · exact vmaEraseRange_idle start «end» vmas k
    · split
      · exact (objCall_idle k).trans (vmaEraseRange_idle start «end» vmas _)
      · split
        · exact vmaEraseRange_idle start «end» vmas k
        · split
          · exact vmaEraseRange_idle start «end» vmas k
          · split
            · rename_i k1 h
              exact objCall_idle_of h
            · rename_i k1 h
              exact (objCall_idle_of h).trans (vmaEraseRange_idle start «end» vmas k1)

theorem vmaSplit_idle (key addr : Nat) : ∀ (vmas : List Vma) (k : Kmem), Idle k (vmaSplit key addr k vmas).2.2
  | [], k => Idle.refl k
  | v :: vmas, k => by
    unfold vmaSplit
    split
    · split
      · exact Idle.refl k
      · split
        · rename_i k1 h
          exact objCall_idle_of h
        · rename_i k1 h
          exact objCall_idle_of h
    · exact vmaSplit_idle key addr vmas k

end Vmas

/-! ## Unmapping -/

/-- What an unmapping call does: see `Trans.of_drops`. -/
structure Unmaps (P : PageAlloc) (base : Usage) (k : Kmem) (t : L1) (k' : Kmem) (t' : L1) : Prop where
  shrinks : Shrinks P k (base + L1.usage P t) k' (base + L1.usage P t')
  drops : Drops t t'

section Unmap

variable {P : PageAlloc} {base : Usage} {k k' k'' : Kmem} {t t' t'' : L1}

theorem Unmaps.trans (h1 : Unmaps P base k t k' t') (h2 : Unmaps P base k' t' k'' t'') : Unmaps P base k t k'' t'' :=
  ⟨h1.shrinks.trans h2.shrinks, h1.drops.trans h2.drops⟩

theorem Idle.unmaps (h : Idle k k') (ha : Acct P k (base + L1.usage P t)) : Unmaps P base k t k' t :=
  ⟨h.shrinks ha, Drops.refl⟩

theorem unmapPage_spec (hb : base.Small) (h : Acct P k (base + L1.usage P t)) (va : Nat) :
    Unmaps P base k t (unmapPage k t va).2 (unmapPage k t va).1 ∧
      ∀ a, (unmapPage k t va).1.frameOf P a = if samePage va a then none else t.frameOf P a := by
  have hsame : ∀ a, samePage va a = true → t.slot a = t.slot va := fun a ha =>
    (slot_congr t ((sameSlot_iff va a).2 ha)).symm
  unfold unmapPage
  cases hs : t.slot va with
  | none =>
    refine ⟨(Idle.refl k).unmaps h, fun a => ?_⟩
    by_cases ha : samePage va a = true
    · rw [if_pos ha]
      unfold L1.frameOf
      rw [hsame a ha, hs]
    · rw [if_neg ha]
  | some pte =>
    by_cases hpres : ptePresent pte = true
    · simp only [hpres, if_true]
      obtain ⟨rest, eu, su⟩ := L1.slot_split (P := P) hs
      refine ⟨⟨?_, fun a => ?_⟩, fun a => ?_⟩
      · have hsmall : (base + L1.usage P t).Small := hb.add (L1.usage_small t)
        rw [su 0, pteUsage_zero, add_zero]
        rw [eu, ← add_assoc] at h hsmall ⊢
        exact putPte_shrinks hsmall h hpres
      · rw [slot_setSlot hs]
        split
        · rename_i ha
          refine .inr ⟨rfl, ?_⟩
          unfold L1.vaMapped
          rw [hsame a ha, hs]
          exact hpres
        · exact .inl rfl
      · rw [frameOf_setSlot hs, if_neg (by decide : ¬ptePresent 0 = true)]
    · simp only [hpres, if_false, Bool.false_eq_true]
      refine ⟨(Idle.refl k).unmaps h, fun a => ?_⟩
      split
      · rename_i ha
        rw [frameOf_of_slot ((hsame a ha).trans hs), if_neg hpres]
      · rfl

theorem unmapPages_spec (hb : base.Small) : ∀ (vas : List Nat) (k : Kmem) (t : L1), Acct P k (base + L1.usage P t) →
    Unmaps P base k t (unmapPages k t vas).2 (unmapPages k t vas).1
  | [], k, t, h => (Idle.refl k).unmaps h
  | va :: vas, k, t, h => by
    have hone := (unmapPage_spec hb h va).1
    exact hone.trans (unmapPages_spec hb vas _ _ hone.shrinks.acct)

theorem doMunmap_spec (mm : MmStruct) (hb : base.Small) (h : Acct P k (base + L1.usage P mm.pgd)) (addr len : Nat) :
    Unmaps P base k mm.pgd (doMunmap k mm addr len).2.2 (doMunmap k mm addr len).2.1.pgd := by
  unfold doMunmap
  split
  · exact (Idle.refl k).unmaps h
  · split
    · exact (Idle.refl k).unmaps h
    · dsimp only
      have hidle := vmaEraseRange_idle addr (pageAlignUp ((addr + len) % 2 ^ 64)) mm.mmap k
      split
      · rename_i vmas k1 he
        rw [he] at hidle
        exact hidle.unmaps h
      · rename_i vmas k1 he
        rw [he] at hidle
        have herase := hidle.unmaps h
        exact herase.trans (unmapPages_spec hb _ _ _ herase.shrinks.acct)

theorem doMmapInsert_idle (k : Kmem) (mm : MmStruct) (va len : Nat) (mapProt : BitVec 64) :
    Idle k (doMmapInsert k mm va len mapProt).2.2 ∧ (doMmapInsert k mm va len mapProt).2.1.pgd = mm.pgd := by
  unfold doMmapInsert
  split
  · rename_i k1 h
    exact ⟨objCall_idle_of h, rfl⟩
  · rename_i k1 h
    split
    · exact ⟨(objCall_idle_of h).trans (objCall_idle k1), rfl⟩
    · exact ⟨objCall_idle_of h, rfl⟩

theorem doMmapInsert_spec (mm : MmStruct) (h : Acct P k (base + L1.usage P mm.pgd)) (va len : Nat)
    (mapProt : BitVec 64) :
    Unmaps P base k mm.pgd (doMmapInsert k mm va len mapProt).2.2 (doMmapInsert k mm va len mapProt).2.1.pgd := by
  obtain ⟨hidle, hpgd⟩ := doMmapInsert_idle k mm va len mapProt
  rw [hpgd]
  exact hidle.unmaps h

theorem doMmap_spec (mm : MmStruct) (hb : base.Small) (h : Acct P k (base + L1.usage P mm.pgd)) (addr len : Nat)
    (prot flags : BitVec 64) :
    Unmaps P base k mm.pgd (doMmap k mm addr len prot flags).2.2 (doMmap k mm addr len prot flags).2.1.pgd := by
  have hid := (Idle.refl k).unmaps h
  unfold doMmap
  split
  · exact hid
  · split
    · exact hid
    · dsimp only
      split
      · split
        · exact hid
        · exact doMmapInsert_spec mm h _ _ _
      · split
        · exact hid
        · have hidle := vmaEraseRange_idle (pageTrunc addr) ((pageTrunc addr + pageAlignUp len) % 2 ^ 64) mm.mmap k
          split
          · rename_i vmas k1 he
            rw [he] at hidle
            exact hidle.unmaps h
          · rename_i vmas k1 he
            rw [he] at hidle
            have herase := hidle.unmaps h
            have hunmap := herase.trans (unmapPages_spec hb
              (pageRange (pageTrunc addr) ((pageTrunc addr + pageAlignUp len) % 2 ^ 64)) _ _ herase.shrinks.acct)
            exact hunmap.trans
              (doMmapInsert_spec { mm with mmap := vmas, pgd := _ } hunmap.shrinks.acct _ _ _)

/-! ## The heap -/

theorem brkGrow_idle (k : Kmem) (mm : MmStruct) (newbrk : Nat) :
    Idle k (brkGrow k mm newbrk).2.2 ∧ (brkGrow k mm newbrk).2.1.pgd = mm.pgd := by
  unfold brkGrow
  dsimp only
  split
  · exact ⟨vmaRecord_idle k mm.mmap _ _ _, rfl⟩
  · split
    · exact ⟨Idle.refl k, rfl⟩
    · split <;> exact ⟨Idle.refl k, rfl⟩

theorem brkShrink_spec (mm : MmStruct) (hb : base.Small) (h : Acct P k (base + L1.usage P mm.pgd)) (newbrk : Nat) :
    Unmaps P base k mm.pgd (brkShrink k mm newbrk).2 (brkShrink k mm newbrk).1.pgd := by
  have hunmap := unmapPages_spec hb (pageRange (pageAlignUp newbrk) (pageAlignUp mm.brk)) k mm.pgd h
  unfold brkShrink
  dsimp only
  split
  · exact hunmap
  · split
    · exact hunmap.trans ((objCall_idle _).unmaps hunmap.shrinks.acct)
    · exact hunmap

theorem doBrk_spec (mm : MmStruct) (hb : base.Small) (h : Acct P k (base + L1.usage P mm.pgd)) (newbrk : Nat) :
    Unmaps P base k mm.pgd (doBrk k mm newbrk).2.2 (doBrk k mm newbrk).2.1.pgd := by
  have hid := (Idle.refl k).unmaps h
  unfold doBrk
  dsimp only
  split
  · exact hid
  · split
    · exact hid
    · split
      · obtain ⟨hidle, hpgd⟩ := brkGrow_idle k mm newbrk
        split
        all_goals
          rename_i mm1 k1 hg
          rw [hg] at hidle hpgd
          rw [show mm1.pgd = mm.pgd from hpgd]
          exact hidle.unmaps h
      · exact brkShrink_spec mm hb h newbrk

end Unmap

/-! ## Protection -/

/-- Entries change, over the same frames, and the accounting still stands. -/
structure Relabels (P : PageAlloc) (base : Usage) (k : Kmem) (t t' : L1) : Prop where
  acct : Acct P k (base + L1.usage P t')
  refs : (L1.usage P t').refs = (L1.usage P t).refs
  frames : SameFrames P t t'

section Protection

variable {P : PageAlloc} {base : Usage} {k k' : Kmem} {t t' t'' : L1}

theorem Relabels.refl (h : Acct P k (base + L1.usage P t)) : Relabels P base k t t := ⟨h, rfl, SameFrames.refl⟩

theorem Relabels.trans (h1 : Relabels P base k t t') (h2 : Relabels P base k t' t'') : Relabels P base k t t'' :=
  ⟨h2.acct, h2.refs.trans h1.refs, h1.frames.trans h2.frames⟩

/-- An entry may be replaced by any other entry for its frame; by a writable one only when it is the
only use of the frame. -/
theorem setSlot_relabels {va : Nat} {old new : BitVec 64} (h : Acct P k (base + L1.usage P t))
    (hs : t.slot va = some old) (hold : ptePresent old = true) (hnew : ptePresent new = true)
    (hf : P.pteFrame new = P.pteFrame old)
    (hw : ∀ p, P.pteFrame old = some p → hasBits new pteRdonly = false → (base + L1.usage P t).all.count p = 1) :
    Relabels P base k t (t.setSlot va new) := by
  obtain ⟨rest, eu, su⟩ := L1.slot_split (P := P) hs
  have hframes : SameFrames P t (t.setSlot va new) := by
    refine ⟨fun a => ?_, fun hb => hb.setSlot hs fun _ => by rw [hf]; exact hb va old hs hold⟩
    rw [frameOf_setSlot hs, if_pos hnew, hf]
    split
    · rename_i ha
      rw [frameOf_of_slot (slot_congr t ((sameSlot_iff va a).2 ha) ▸ hs), if_pos hold]
    · rfl
  cases hp : P.pteFrame old with
  | none =>
    have hz : ∀ e : BitVec 64, P.pteFrame e = none → pteUsage P e = 0 := by
      intro e he
      unfold pteUsage
      split <;> simp [he]
    have hsum : L1.usage P (t.setSlot va new) = L1.usage P t := by
      rw [su new, eu, hz old hp, hz new (hf.trans hp)]
    refine ⟨by rw [hsum]; exact h, by rw [hsum], hframes⟩
  | some p =>
    have hpnew : P.pteFrame new = some p := hf.trans hp
    refine ⟨h.relabel ?_ fun q hq => ?_, ?_, hframes⟩
    · simp only [su new, eu, all_add, all_pteUsage hold hp, all_pteUsage hnew hpnew]
    · rw [su new, ← add_assoc, sole_add, Multiset.mem_add] at hq
      rcases hq with hq | hq
      · apply h.sole
        rw [eu, ← add_assoc, sole_add]
        exact Multiset.mem_add.2 (.inl hq)
      · rw [pteUsage_present hnew hpnew] at hq
        by_cases hro : hasBits new pteRdonly = true
        · simp [hro] at hq
        · simp only [hro, if_false, Bool.false_eq_true, sole_writable, Multiset.mem_singleton] at hq
          rw [hq]
          exact hw p hp (Bool.eq_false_of_not_eq_true hro)
    · rw [su new, eu, refs_add, refs_add, refs_pteUsage hold hp, refs_pteUsage hnew hpnew]

theorem changePteProt_relabels (hb : base.Small) (h : Acct P k (base + L1.usage P t)) (va : Nat)
    (mapProt : BitVec 64) : Relabels P base k t (changePteProt k t va mapProt) := by
  unfold changePteProt
  cases hs : t.slot va with
  | none => exact Relabels.refl h
  | some old =>
    by_cases hold : ptePresent old = true
    · simp only [hold, if_true]
      rw [h.pteFrame_eq]
      -- the new entry, before it may lose its write bit
      have hpres : ptePresent ((old &&& pteAddrMask) ||| protToPte mapProt) = true := by
        have := present_protToPte mapProt
        unfold ptePresent at this ⊢
        rw [hasBits_or, this, Bool.or_true]
      have hkva : pteKva ((old &&& pteAddrMask) ||| protToPte mapProt) = pteKva old :=
        pteKva_congr ((addr_or (addr_protToPte mapProt)).trans (addr_and_mask old))
      have hro : hasBits ((old &&& pteAddrMask) ||| protToPte mapProt) pteRdonly = !hasBits mapProt protWrite := by
        rw [hasBits_or, rdonly_protToPte, hasBits_and_of_disjoint (by decide), Bool.false_or]
      generalize (old &&& pteAddrMask) ||| protToPte mapProt = new at hpres hkva hro ⊢
      split_ifs with hshared
      · have hkva' : pteKva (pteWrprotect new) = pteKva old := by rw [kva_wrprotect, hkva]
        have hpres' : ptePresent (pteWrprotect new) = true := by rw [present_wrprotect, hpres]
        refine setSlot_relabels h hs hold hpres' (pteFrame_of_kva hkva') fun p _ hw => ?_
        rw [rdonly_wrprotect] at hw
        cases hw
      · refine setSlot_relabels h hs hold hpres (pteFrame_of_kva hkva) fun p hp hw => ?_
        -- writable, so the call asked for it and found the frame unshared
        rw [hro] at hw
        have hwrite : hasBits mapProt protWrite = true := by simpa using hw
        have hframe : t.frameOf P va = some p := by rw [frameOf_of_slot hs, if_pos hold, hp]
        have hmem : p ∈ (base + L1.usage P t).all := by
          rw [all_add]
          exact Multiset.mem_add.2 (.inr (Multiset.mem_of_le (refs_le_all _) (frameOf_mem_refs hframe)))
        have hcount := h.pageCount (hb.add (L1.usage_small t)) hmem
        simp only [hwrite, hp, Bool.true_and, decide_eq_true_eq, hcount] at hshared
        have := Multiset.one_le_count_iff_mem.2 hmem
        omega
    · simp only [hold, if_false, Bool.false_eq_true]
      exact Relabels.refl h

theorem changeProtRange_relabels (hb : base.Small) (mapProt : BitVec 64) : ∀ (vas : List Nat) (t : L1),
    Acct P k (base + L1.usage P t) → Relabels P base k t (changeProtRange k mapProt t vas)
  | [], _, h => Relabels.refl h
  | va :: vas, t, h => by
    have hone := changePteProt_relabels hb h va mapProt
    exact hone.trans (changeProtRange_relabels hb mapProt vas _ hone.acct)

theorem mprotectLoop_relabels (hb : base.Small) («end» : Nat) (mapProt : BitVec 64) : ∀ (vmas : List Vma) (t : L1),
    Acct P k (base + L1.usage P t) → Relabels P base k t (mprotectLoop k «end» mapProt t vmas).1
  | [], _, h => Relabels.refl h
  | v :: vmas, t, h => by
    unfold mprotectLoop
    split
    · have hrange := changeProtRange_relabels hb mapProt (pageRange v.vmStart v.vmEnd) t h
      exact hrange.trans (mprotectLoop_relabels hb «end» mapProt vmas _ hrange.acct)
    · exact Relabels.refl h

theorem mmMprotect_spec (mm : MmStruct) (hb : base.Small) (h : Acct P k (base + L1.usage P mm.pgd))
    (start «end» : Nat) (prot : BitVec 64) :
    Idle k (mmMprotect k mm start «end» prot).2.2 ∧
      Relabels P base (mmMprotect k mm start «end» prot).2.2 mm.pgd (mmMprotect k mm start «end» prot).2.1.pgd := by
  have hid : ∀ {k'}, Idle k k' → Idle k k' ∧ Relabels P base k' mm.pgd mm.pgd := fun hidle =>
    ⟨hidle, Relabels.refl (hidle P _ h).1⟩
  unfold mmMprotect
  split
  · exact hid (Idle.refl k)
  · split
    · exact hid (Idle.refl k)
    · have h1 := vmaSplit_idle start start mm.mmap k
      split
      · rename_i vmas k1 he
        rw [he] at h1
        exact hid h1
      · rename_i vmas k1 he
        rw [he] at h1
        have h2 := vmaSplit_idle («end» - 1) «end» vmas k1
        split
        · rename_i vmas2 k2 he2
          rw [he2] at h2
          exact hid (h1.trans h2)
        · rename_i vmas2 k2 he2
          rw [he2] at h2
          have hidle := h1.trans h2
          exact ⟨hidle, mprotectLoop_relabels hb «end» _ _ _ (hidle P _ h).1⟩

end Protection

end MiniOs.Mm
