/-
Making, duplicating and dropping an address space. A duplicate shows the frames of its source, and the
source itself still shows them, whether the duplication succeeds or fails half-way; a failed one leaves
no page behind.
-/
import MiniOs.Proofs.Mm.Mmap

namespace MiniOs.Mm

open Library PageAlloc Usage MmSys

/-! ## Frames of a copied tree -/

section Copies

variable {P : PageAlloc} {t t' : L1}

theorem slot_rel {R : L3 → L3 → Prop} {S : BitVec 64 → BitVec 64 → Prop}
    (hR : ∀ l l', R l l' → ∀ i, S (l.pte i) (l'.pte i)) (h : NodeRel (NodeRel R) t t') (va : Nat) :
    Option.Rel S (t.slot va) (t'.slot va) := by
  unfold L1.slot
  have h1 := h (l1Idx va)
  cases e1 : t.ent (l1Idx va) with
  | none =>
    rw [e1] at h1
    cases e1' : t'.ent (l1Idx va) with
    | none => exact .none
    | some l2' => rw [e1'] at h1; cases h1
  | some l2 =>
    rw [e1] at h1
    cases e1' : t'.ent (l1Idx va) with
    | none => rw [e1'] at h1; cases h1
    | some l2' =>
      rw [e1'] at h1
      cases h1 with
      | some h1 =>
        have h2 := h1 (l2Idx va)
        dsimp only
        cases e2 : l2.ent (l2Idx va) with
        | none =>
          rw [e2] at h2
          cases e2' : l2'.ent (l2Idx va) with
          | none => exact .none
          | some l3' => rw [e2'] at h2; cases h2
        | some l3 =>
          rw [e2] at h2
          cases e2' : l2'.ent (l2Idx va) with
          | none => rw [e2'] at h2; cases h2
          | some l3' =>
            rw [e2'] at h2
            cases h2 with
            | some h2 => exact .some (hR l3 l3' h2 (l3Idx va))

/-- Entries that are present together and then have the same frame. -/
theorem sameFrames_of_rel {S : BitVec 64 → BitVec 64 → Prop}
    (hS : ∀ e e', S e e' → ptePresent e' = ptePresent e ∧ (ptePresent e = true → P.pteFrame e' = P.pteFrame e))
    (h : ∀ va, Option.Rel S (t.slot va) (t'.slot va)) : SameFrames P t t' := by
  constructor
  · intro va
    have hva := h va
    unfold L1.frameOf
    cases hs : t.slot va with
    | none =>
      rw [hs] at hva
      cases hs' : t'.slot va with
      | none => rfl
      | some e' => rw [hs'] at hva; cases hva
    | some e =>
      rw [hs] at hva
      cases hs' : t'.slot va with
      | none => rw [hs'] at hva; cases hva
      | some e' =>
        rw [hs'] at hva
        cases hva with
        | some hva =>
          obtain ⟨hpres, hframe⟩ := hS e e' hva
          dsimp only
          rw [hpres]
          split
          · rename_i hp
            exact hframe hp
          · rfl
  · intro hb va e' hs' hpres
    have hva := h va
    rw [hs'] at hva
    cases hs : t.slot va with
    | none => rw [hs] at hva; cases hva
    | some e =>
      rw [hs] at hva
      cases hva with
      | some hva =>
        obtain ⟨hp, hframe⟩ := hS e e' hva
        rw [hp] at hpres
        rw [hframe hpres]
        exact hb va e hs hpres

theorem sameFrames_of_weaker (h : NodeRel (NodeRel L3.Weaker) t t') : SameFrames P t t' := by
  apply sameFrames_of_rel (S := Weaker)
  · rintro e e' (rfl | rfl)
    · exact ⟨rfl, fun _ => rfl⟩
    · exact ⟨present_share e, fun _ => pteFrame_share e⟩
  · exact slot_rel (fun l l' hl => hl) h

theorem sameFrames_of_copied (h : NodeRel (NodeRel L3.Copied) t t') : SameFrames P t t' := by
  apply sameFrames_of_rel (S := fun e d => d = copied e)
  · rintro e e' rfl
    exact ⟨present_copied e, fun hp => pteFrame_copied hp⟩
  · exact slot_rel (fun l l' hl => hl) h

end Copies

/-! ## The calls -/

section Calls

variable {P : PageAlloc} {base u : Usage} {k k' : Kmem}

theorem Idle.keeps {X : Multiset Nat} (h : Idle k k') (ha : Acct P k u) : Keeps k k' X := by
  obtain ⟨-, d, r⟩ := h P u ha
  exact ⟨d, [], r, by simp⟩

theorem mmAlloc_spec {o : Option MmStruct} (h : Acct P k u) (heq : mmAlloc k = (o, k')) :
    Acct P k' (u + optUsage (fun mm => L1.usage P mm.pgd) o) ∧ k'.data = k.data ∧ k'.returned = k.returned ∧
      ∀ mm, o = some mm → ∃ p, mm.pgd = Node.empty p := by
  unfold mmAlloc at heq
  split at heq
  · rename_i k1 ho
    cases heq
    obtain ⟨a, d, r⟩ := objCall_idle_of ho P u h
    refine ⟨by rw [optUsage_none, add_zero]; exact a, d, r, ?_⟩
    rintro mm ⟨⟩
  · rename_i k1 ho
    obtain ⟨a, d, r⟩ := objCall_idle_of ho P u h
    split at heq
    · rename_i k2 ha
      cases heq
      rw [allocPage_none a ha]
      obtain ⟨a', d', r'⟩ := objCall_idle k1 P u a
      refine ⟨by rw [optUsage_none, add_zero]; exact a', d'.trans d, r'.trans r, ?_⟩
      rintro mm ⟨⟩
    · rename_i p k2 ha
      cases heq
      obtain ⟨-, a', d', r'⟩ := allocPage_some a ha
      refine ⟨?_, d'.trans d, r'.trans r, ?_⟩
      · rw [optUsage_some, L1.usage_eq, Node.usage_empty]
        exact a'
      · rintro mm ⟨⟩
        exact ⟨p, rfl⟩

/-- What `dup_mm` does, with the copy `o` if there is one and the source `mm'` as it is left. -/
structure DupMmOk (P : PageAlloc) (base : Usage) (k : Kmem) (mm : MmStruct) (o : Option MmStruct) (mm' : MmStruct)
    (k' : Kmem) : Prop where
  acct : Acct P k' (base + L1.usage P mm'.pgd + optUsage (fun mm => L1.usage P mm.pgd) o)
  refs : (L1.usage P mm'.pgd).refs = (L1.usage P mm.pgd).refs
  keeps : Keeps k k' (base + L1.usage P mm.pgd).refs
  source : SameFrames P mm.pgd mm'.pgd
  copy : ∀ new, o = some new → SameFrames P mm.pgd new.pgd

theorem dupMm_spec {mm mm' : MmStruct} {o : Option MmStruct} (hb : base.Small)
    (h : Acct P k (base + L1.usage P mm.pgd)) (heq : dupMm k mm = (o, mm', k')) : DupMmOk P base k mm o mm' k' := by
  unfold dupMm at heq
  split at heq
  · rename_i k1 ho
    cases heq
    have hidle := objCall_idle_of ho
    refine ⟨?_, rfl, hidle.keeps h, SameFrames.refl, by rintro new ⟨⟩⟩
    rw [optUsage_none, add_zero]
    exact (hidle P _ h).1
  · rename_i k1 ho
    have hidle1 := objCall_idle_of ho
    have hacct1 := (hidle1 P _ h).1
    rcases hd : dupPgtable k1 mm.pgd with ⟨ot, t', k2⟩
    obtain ⟨hok, hweak, hcopy⟩ := dupPgtable_spec base k1 mm.pgd ot t' k2 hb hacct1 hd
    have hkeeps := (hidle1.keeps h).trans hok.keeps
    have hsource := sameFrames_of_weaker (P := P) hweak
    rw [hd] at heq
    cases ot with
    | none =>
      cases heq
      have hidle3 := objCall_idle k2
      refine ⟨?_, hok.refs, hkeeps.trans (hidle3.keeps hok.acct), hsource, by rintro new ⟨⟩⟩
      rw [optUsage_none]
      exact (hidle3 P _ hok.acct).1
    | some new =>
      have hidle3 := dupVmaLoop_idle mm.mmap [] k2
      dsimp only at heq
      split at heq
      · rename_i k3 hv
        cases heq
        unfold dupVmaList at hv
        rw [hv] at hidle3
        have hacct3 := (hidle3 P _ hok.acct).1
        rw [optUsage_some] at hacct3
        -- the copied tables go again; what the source uses stays
        have hfree := freeUserPageTables_spec _ k3 new (hb.add (L1.usage_small t')) hacct3
        have hidle4 := objCall_idle (freeUserPageTables k3 new)
        have hkeeps3 := hfree.keeps
        rw [refs_add, hok.refs, ← refs_add] at hkeeps3
        refine ⟨?_, hok.refs, ?_, hsource, by rintro new ⟨⟩⟩
        · rw [optUsage_none, add_zero]
          exact (hidle4 P _ hfree.acct).1
        · exact ((hkeeps.trans (hidle3.keeps hok.acct)).trans hkeeps3).trans (hidle4.keeps hfree.acct)
      · rename_i vmas k3 hv
        cases heq
        unfold dupVmaList at hv
        rw [hv] at hidle3
        refine ⟨(hidle3 P _ hok.acct).1, hok.refs, hkeeps.trans (hidle3.keeps hok.acct), hsource, ?_⟩
        rintro new' ⟨⟩
        exact sameFrames_of_copied (hcopy new rfl)

theorem mmPut_spec {mm : MmStruct} (hb : base.Small) (h : Acct P k (base + L1.usage P mm.pgd)) :
    (∃ mm', mmPut k mm = (some mm', k) ∧ mm'.pgd = mm.pgd) ∨
      ∃ k', mmPut k mm = (none, k') ∧ Shrinks P k (base + L1.usage P mm.pgd) k' base := by
  unfold mmPut
  dsimp only
  split
  · exact .inl ⟨_, rfl, rfl⟩
  · have hfree := freeUserPageTables_spec base k mm.pgd hb h
    have hvmas := freeVmas_idle mm.mmap (freeUserPageTables k mm.pgd)
    have hmm := objCall_idle (freeVmas (freeUserPageTables k mm.pgd) mm.mmap)
    exact .inr ⟨_, rfl, hfree.trans ((hvmas.trans hmm).shrinks hfree.acct)⟩

end Calls

end MiniOs.Mm
