/-
Page faults. Demand paging adds a zeroed page where the user saw zeros; copy-on-write gives the
faulting address space a copy of a shared frame, or the write bit back when nobody shares it any more.
Either way no address space sees another byte than before.
-/
import MiniOs.Proofs.Mm.Mmap

namespace MiniOs.Mm

open Library PageAlloc Usage MmSys Function

/-! ## Missing tables -/

/-- New tables have only empty entries. -/
def Grown (t t' : L1) : Prop := ∀ va, t'.slot va = t.slot va ∨ (t.slot va = none ∧ t'.slot va = some 0)

variable {p q va : Nat} {old pte : BitVec 64}

section Tables

variable {P : PageAlloc} {base : Usage} {k k' : Kmem} {t t' t'' : L1}

theorem Grown.refl : Grown t t := fun _ => .inl rfl

theorem Grown.trans (h1 : Grown t t') (h2 : Grown t' t'') : Grown t t'' := by
  intro va
  rcases h1 va with e1 | ⟨n1, e1⟩
  · rcases h2 va with e2 | ⟨n2, e2⟩
    · exact .inl (e2.trans e1)
    · exact .inr ⟨e1 ▸ n2, e2⟩
  · rcases h2 va with e2 | ⟨n2, -⟩
    · exact .inr ⟨n1, e2.trans e1⟩
    · rw [e1] at n2
      cases n2

theorem Grown.sameFrames (h : Grown t t') : SameFrames P t t' := by
  constructor
  · intro va
    unfold L1.frameOf
    rcases h va with e | ⟨n, e⟩
    · rw [e]
    · rw [n, e]
      exact if_neg (by decide)
  · intro hb va pte hs hpres
    rcases h va with e | ⟨n, e⟩
    · exact hb va pte (e ▸ hs) hpres
    · rw [e] at hs
      cases hs
      exact absurd hpres (by decide)

theorem grown_l2 (h : t.ent (l1Idx va) = none) (p : Nat) : Grown t (t.set (l1Idx va) (Node.empty p)) := by
  intro a
  unfold L1.slot
  rw [Node.set_ent]
  by_cases e : l1Idx a = l1Idx va
  · rw [if_pos e, e, h]
    exact .inl rfl
  · rw [if_neg e]
    exact .inl rfl

theorem grown_l3 {l2 : L2} (h1 : t.ent (l1Idx va) = some l2) (h2 : l2.ent (l2Idx va) = none) (p : Nat) :
    Grown t (t.set (l1Idx va) (l2.set (l2Idx va) (L3.empty p))) := by
  intro a
  unfold L1.slot
  rw [Node.set_ent]
  by_cases e1 : l1Idx a = l1Idx va
  · rw [if_pos e1, e1, h1]
    simp only [Node.set_ent]
    by_cases e2 : l2Idx a = l2Idx va
    · simp only [e2, h2, if_true]
      exact .inr ⟨trivial, rfl⟩
    · simp only [e2, if_false]
      exact .inl trivial
  · rw [if_neg e1]
    exact .inl rfl

theorem getOrCreateTable_spec {α : Type} {f : α → Usage} {empty : Nat → α} (he : ∀ p, f (empty p) = table p)
    {parent parent' : Node α} {i : Fin 512} {o : Option α} (h : Acct P k (base + parent.usage f))
    (heq : getOrCreateTable empty k parent i = (o, parent', k')) :
    Acct P k' (base + parent'.usage f) ∧ (parent'.usage f).refs = (parent.usage f).refs ∧ k'.data = k.data ∧
      k'.returned = k.returned ∧ (o = none → parent' = parent) ∧
      ∀ c, o = some c → parent'.ent i = some c ∧
        (parent' = parent ∨ parent.ent i = none ∧ ∃ p, parent' = parent.set i (empty p)) := by
  unfold getOrCreateTable at heq
  cases hc : parent.ent i with
  | some c =>
    rw [hc] at heq
    cases heq
    refine ⟨h, rfl, rfl, rfl, by rintro ⟨⟩, ?_⟩
    rintro c ⟨⟩
    exact ⟨hc, .inl rfl⟩
  | none =>
    rw [hc] at heq
    dsimp only at heq
    split at heq
    · rename_i k1 ha
      cases heq
      rw [allocPage_none h ha]
      refine ⟨h, rfl, rfl, rfl, fun _ => rfl, ?_⟩
      rintro c ⟨⟩
    · rename_i p k1 ha
      cases heq
      obtain ⟨-, hacct, hdata, hret⟩ := allocPage_some h ha
      obtain ⟨rest, eu, su, -⟩ := parent.usage_split f i
      rw [hc, optUsage_none, add_zero] at eu
      refine ⟨?_, ?_, hdata, hret, by rintro ⟨⟩, ?_⟩
      · rw [su, he, ← add_assoc, ← eu]
        exact hacct
      · rw [su, he, refs_add, refs_table, add_zero, eu]
      · rintro c ⟨⟩
        refine ⟨?_, .inr ⟨rfl, p, rfl⟩⟩
        rw [Node.set_ent, if_pos rfl]

theorem Node.set_eq_self {α : Type} {t : Node α} {i : Fin 512} {c : α} (h : t.ent i = some c) : t.set i c = t := by
  unfold Node.set
  rw [← h, update_eq_self]

theorem Node.set_set {α : Type} (t : Node α) (i : Fin 512) (c d : α) : (t.set i c).set i d = t.set i d := by
  unfold Node.set
  rw [update_idem]

/-- `map_page` completes the tables on the way and then, if it can, sets the entry. -/
theorem mapPage_spec {ok : Bool} (h : Acct P k (base + L1.usage P t))
    (heq : mapPage k t va pte = (ok, t', k')) :
    ∃ t1, Acct P k' (base + L1.usage P t1) ∧ (L1.usage P t1).refs = (L1.usage P t).refs ∧ k'.data = k.data ∧
      k'.returned = k.returned ∧ Grown t t1 ∧ (ok = false → t' = t1) ∧
      (ok = true → ∃ old, t1.slot va = some old ∧ t' = t1.setSlot va pte) := by
  unfold mapPage at heq
  rw [L1.usage_eq, L2.usage_eq] at h ⊢
  rcases hg1 : getOrCreateTable Node.empty k t (l1Idx va) with ⟨o1, tA, k1⟩
  obtain ⟨hacct1, hrefs1, hdata1, hret1, hnone1, hsome1⟩ := getOrCreateTable_spec Node.usage_empty h hg1
  rw [hg1] at heq
  cases o1 with
  | none =>
    cases heq
    rw [hnone1 rfl] at hacct1 hrefs1 ⊢
    exact ⟨t, hacct1, hrefs1, hdata1, hret1, Grown.refl, fun _ => rfl, by rintro ⟨⟩⟩
  | some l2 =>
    obtain ⟨hent1, hnew1⟩ := hsome1 l2 rfl
    have hgrown1 : Grown t tA := by
      rcases hnew1 with rfl | ⟨hn, p, rfl⟩
      · exact Grown.refl
      · exact grown_l2 hn p
    obtain ⟨rest, eu, su, -⟩ := tA.usage_split (Node.usage (L3.usage P)) (l1Idx va)
    rw [hent1, optUsage_some] at eu
    rw [eu, ← add_assoc] at hacct1
    rcases hg2 : getOrCreateTable L3.empty k1 l2 (l2Idx va) with ⟨o2, l2B, k2⟩
    obtain ⟨hacct2, hrefs2, hdata2, hret2, hnone2, hsome2⟩ := getOrCreateTable_spec L3.usage_empty hacct1 hg2
    have hacct : Acct P k2 (base + Node.usage (Node.usage (L3.usage P)) (tA.set (l1Idx va) l2B)) := by
      rw [su, ← add_assoc]
      exact hacct2
    have hrefs : (Node.usage (Node.usage (L3.usage P)) (tA.set (l1Idx va) l2B)).refs =
        (Node.usage (Node.usage (L3.usage P)) t).refs := by
      rw [← hrefs1, su, eu, refs_add, refs_add, hrefs2]
    have hgrown2 : Grown tA (tA.set (l1Idx va) l2B) := by
      have hsame : l2B = l2 → Grown tA (tA.set (l1Idx va) l2B) := by
        rintro rfl
        rw [Node.set_eq_self hent1]
        exact Grown.refl
      cases o2 with
      | none => exact hsame (hnone2 rfl)
      | some l3 =>
        rcases (hsome2 l3 rfl).2 with e | ⟨hn, p, rfl⟩
        · exact hsame e
        · exact grown_l3 hent1 hn p
    simp only [hg2] at heq
    cases o2 with
    | none =>
      cases heq
      exact ⟨_, hacct, hrefs, hdata2.trans hdata1, hret2.trans hret1, hgrown1.trans hgrown2, fun _ => rfl,
        by rintro ⟨⟩⟩
    | some l3 =>
      cases heq
      have h1 : (tA.set (l1Idx va) l2B).ent (l1Idx va) = some l2B := by rw [Node.set_ent, if_pos rfl]
      have h2 := (hsome2 l3 rfl).1
      refine ⟨_, hacct, hrefs, hdata2.trans hdata1, hret2.trans hret1, hgrown1.trans hgrown2, by rintro ⟨⟩,
        fun _ => ⟨l3.pte (l3Idx va), ?_, ?_⟩⟩
      · unfold L1.slot
        simp only [h1, h2]
      · unfold L1.setSlot
        simp only [h1, h2]
        rw [Node.set_set]

end Tables

/-! ## Demand paging -/

section Faults

variable {P : PageAlloc} {base u : Usage} {k k' : Kmem} {t t' : L1} {va : Nat}

/-- An entry made for a page in use points to that page. -/
theorem Acct.frame_mkPte {flags : BitVec 64} (h : Acct P k u) (hp : p ∈ u.all)
    (hf : flags &&& pteAddrMask = 0) : P.pteFrame (mkPte (k.pa.pfnToAddr p) flags) = some p := by
  rw [← h.pteFrame_eq]
  exact pteFrame_mkPte h.inv.pool (h.page_lt hp) hf

/-- Frames shown by a page table are in use, so a page that is not used is none of them. -/
theorem frameOf_ne {a : Nat} (hp : p ∉ (base + L1.usage P t).all) (hq : t.frameOf P a = some q) : q ≠ p := by
  rintro rfl
  apply hp
  rw [all_add]
  exact Multiset.mem_add.2 (.inr (Multiset.mem_of_le (refs_le_all _) (frameOf_mem_refs hq)))

/-- A page held on its own becomes the frame of an entry. -/
theorem Acct.entry (h : Acct P k (u + table p)) (hpres : ptePresent pte = true)
    (hf : P.pteFrame pte = some p) : Acct P k (u + pteUsage P pte) := by
  refine h.relabel ?_ fun q hq => h.sole q ?_
  · rw [all_add, all_add, all_table, all_pteUsage hpres hf]
  · rw [sole_add, Multiset.mem_add] at hq
    rw [sole_add, sole_table, Multiset.mem_add]
    refine hq.imp_right fun hq => ?_
    rw [← all_pteUsage hpres hf]
    exact Multiset.mem_of_le (sole_le_all _) hq

/-- The zeroed page `p`, so far held as a page of its own, becomes the frame of a page that had none. -/
theorem mapped_trans {t1 : L1} (hp : p ∉ (base + L1.usage P t).all)
    (h : Acct P k' (base + table p + L1.usage P t1)) (hrefs : (L1.usage P t1).refs = (L1.usage P t).refs)
    (hret : k'.returned = k.returned) (hdata : k'.data = update k.data p fun _ => 0) (hg : Grown t t1)
    (hun : t.vaMapped va = false) (hs : t1.slot va = some old) (hpres : ptePresent pte = true)
    (hf : P.pteFrame pte = some p) : Trans P base k t k' (t1.setSlot va pte) fun _ => false := by
  have hframes := hg.sameFrames (P := P)
  have hsame : ∀ q ≠ p, k'.data q = k.data q := fun q hq => by rw [hdata, update_of_ne hq]
  have hnone : ∀ a, samePage va a = true → t.frameOf P a = none := by
    intro a ha
    have hslot := slot_congr t ((sameSlot_iff va a).2 ha)
    apply frameOf_of_unmapped
    unfold L1.vaMapped at hun ⊢
    rwa [← hslot]
  have hold : ptePresent old = false := by
    rcases hg va with e | ⟨-, e⟩
    · unfold L1.vaMapped at hun
      rwa [← e, hs] at hun
    · rw [hs] at e
      cases e
      decide
  obtain ⟨rest, eu, su⟩ := L1.slot_split (P := P) hs
  rw [pteUsage_absent hold, add_zero] at eu
  refine ⟨?_, ⟨[], hret, fun q hq => ?_⟩, fun q hq => hsame q ?_, fun a => ?_, fun hb => ?_⟩
  · rw [su, ← add_assoc]
    rw [eu, add_right_comm] at h
    exact h.entry hpres hf
  · have hmem : q ∈ (base + L1.usage P (t1.setSlot va pte)).refs := by
      rw [su, ← add_assoc, refs_add, refs_add, ← eu, hrefs, ← refs_add]
      exact Multiset.mem_add.2 (.inl hq)
    exact ⟨fun h => absurd h List.not_mem_nil, fun h => absurd hmem h⟩
  · rintro rfl
    exact hp (by rw [all_add]; exact Multiset.mem_add.2 (.inl hq))
  · unfold view
    rw [frameOf_setSlot hs, if_pos hpres, hf]
    by_cases ha : samePage va a = true
    · rw [if_pos ha, hnone a ha, hdata]
      simp
    · rw [if_neg ha, hframes.frame]
      cases hq : t.frameOf P a with
      | none => rfl
      | some q => simp [hsame q (frameOf_ne hp hq)]
  · exact (hframes.backed hb).setSlot hs fun _ => by rw [hf]; rfl

theorem doAnonFault_trans (h : Acct P k (base + L1.usage P t)) (hun : t.vaMapped va = false) (vma : Vma) :
    Trans P base k t (doAnonFault k t va vma).2.2 (doAnonFault k t va vma).2.1 fun _ => false := by
  unfold doAnonFault
  split
  · rename_i k1 ha
    rw [allocPage_none h ha]
    exact Trans.of_sameFrames h rfl rfl rfl SameFrames.refl
  · rename_i p k1 ha
    obtain ⟨hp, hacct, hdata, hret⟩ := allocPage_some h ha
    dsimp only
    have hacct1 : Acct P (k1.pageZero p) (base + table p + L1.usage P t) := by
      rw [add_right_comm]
      exact hacct.congr rfl rfl
    have hf : P.pteFrame (mkPte ((k1.pageZero p).pa.pfnToAddr p) (protToPte vma.vmFlags)) = some p :=
      hacct1.frame_mkPte (by simp) (addr_protToPte vma.vmFlags)
    have hpres : ptePresent (mkPte ((k1.pageZero p).pa.pfnToAddr p) (protToPte vma.vmFlags)) = true := by
      have := present_protToPte vma.vmFlags
      unfold ptePresent mkPte at *
      rw [hasBits_or, this, Bool.or_true]
    generalize mkPte ((k1.pageZero p).pa.pfnToAddr p) (protToPte vma.vmFlags) = pte at hf hpres ⊢
    rcases hm : mapPage (k1.pageZero p) t va pte with ⟨ok, t', k2⟩
    obtain ⟨t1, hacct2, hrefs, hdata2, hret2, hgrown, hfail, hok⟩ := mapPage_spec hacct1 hm
    have hdata' : k2.data = update k.data p fun _ => 0 := by
      rw [hdata2, ← hdata]
      rfl
    have hret' : k2.returned = k.returned := hret2.trans hret
    cases ok with
    | true =>
      obtain ⟨old, hs, rfl⟩ := hok rfl
      exact mapped_trans hp hacct2 hrefs hret' hdata' hgrown hun hs hpres hf
    | false =>
      obtain rfl := hfail rfl
      rw [add_right_comm] at hacct2
      have hfree := freePage_shrinks hacct2
      have hframes := hgrown.sameFrames (P := P)
      obtain ⟨new, hnew, hiff⟩ := hfree.returned
      have hrefs' : (base + L1.usage P t').refs = (base + L1.usage P t).refs := by rw [refs_add, hrefs, refs_add]
      refine ⟨hfree.acct, ⟨new, by rw [hnew, hret'], fun q hq => hiff q ?_⟩, fun q hq => ?_, fun a => ?_,
        hframes.backed⟩
      · rw [refs_add _ (table p), refs_table, add_zero, hrefs']
        exact hq
      · have hne : q ≠ p := by
          rintro rfl
          exact hp (by rw [all_add]; exact Multiset.mem_add.2 (.inl hq))
        rw [hfree.data, hdata', update_of_ne hne]
      · apply view_of_frameOf (hframes.frame a)
        intro q hq
        rw [hfree.data, hdata', update_of_ne (frameOf_ne hp hq)]

/-! ## Copy on write -/

theorem copyPte_spec (h : Acct P k u) (hq : q ∈ u.all) (hold : ptePresent old = true) :
    ptePresent (pteMkwrite (mkPte (k.pa.pfnToAddr q) (old &&& pteFlagsMask))) = true ∧
      P.pteFrame (pteMkwrite (mkPte (k.pa.pfnToAddr q) (old &&& pteFlagsMask))) = some q := by
  constructor
  · rw [present_mkwrite]
    unfold ptePresent mkPte at *
    have hflags : hasBits (old &&& pteFlagsMask) 1 = hasBits old 1 := hasBits_and_of_sub (by decide)
    rw [hasBits_or, hflags, hold, Bool.or_true]
  · rw [pteFrame_of_kva (kva_mkwrite _)]
    exact h.frame_mkPte hq (addr_flags old)

/-- The frame `p` of the entry is copied to a new page `q`, and the entry gives `p` up. -/
theorem cowCopy_trans {k1 : Kmem} (hb : base.Small)
    (h : Acct P k (base + L1.usage P t)) (hs : t.slot va = some old) (hold : ptePresent old = true)
    (hp : P.pteFrame old = some p) (ha : k.allocPage = (some q, k1)) :
    Trans P base k t ((k1.pageCopy q p).putPage p)
      (t.setSlot va (pteMkwrite (mkPte ((k1.pageCopy q p).pa.pfnToAddr q) (old &&& pteFlagsMask)))) fun _ => false := by
  obtain ⟨hq, hacct, hdata, hret⟩ := allocPage_some h ha
  obtain ⟨rest, eu, su⟩ := L1.slot_split (P := P) hs
  have hsum : base + L1.usage P t + table q = base + rest + table q + pteUsage P old := by rw [eu]; abel
  have hsmall : (base + rest + table q + pteUsage P old).Small := by
    rw [← hsum]
    exact (hb.add (L1.usage_small t)).add (small_table q)
  have hacct1 : Acct P (k1.pageCopy q p) (base + rest + table q + pteUsage P old) := by
    rw [← hsum]
    exact hacct.congr rfl rfl
  obtain ⟨hpres, hf⟩ := copyPte_spec hacct1 (q := q) (by simp) hold
  generalize pteMkwrite (mkPte ((k1.pageCopy q p).pa.pfnToAddr q) (old &&& pteFlagsMask)) = new at hpres hf ⊢
  have hput := putPte_shrinks hsmall hacct1 hold
  have hputPte : putPte (k1.pageCopy q p) old = (k1.pageCopy q p).putPage p := by
    unfold putPte
    rw [hacct1.pteFrame_eq, hp]
  rw [hputPte] at hput
  have hdata' : ((k1.pageCopy q p).putPage p).data = update k.data q (k.data p) := by
    rw [hput.data, ← hdata]
    rfl
  have hsame : ∀ r ≠ q, ((k1.pageCopy q p).putPage p).data r = k.data r := fun r hr => by
    rw [hdata', update_of_ne hr]
  have hshown : ∀ a, samePage va a = true → t.frameOf P a = some p := by
    intro a hsame
    rw [frameOf_of_slot (slot_congr t ((sameSlot_iff va a).2 hsame) ▸ hs), if_pos hold, hp]
  obtain ⟨new', hnew, hiff⟩ := hput.returned
  refine ⟨?_, ⟨new', by rw [hnew, ← hret]; rfl, fun r hr => ?_⟩, fun r hr => hsame r ?_, fun a => ?_, fun hbk => ?_⟩
  · rw [su, ← add_assoc]
    exact hput.acct.entry hpres hf
  · have hne : r ≠ q := by
      rintro rfl
      exact hq (Multiset.mem_of_le (refs_le_all _) hr)
    have hr' : r ∈ (base + rest + table q + pteUsage P old).refs := by
      rw [← hsum, refs_add, refs_table, add_zero]
      exact hr
    rw [hiff r hr', su, ← add_assoc, refs_add _ (pteUsage P new), refs_pteUsage hpres hf, refs_add _ (table q),
      refs_table, add_zero, Multiset.mem_add, Multiset.mem_singleton]
    simp [hne]
  · rintro rfl
    exact hq (by rw [all_add]; exact Multiset.mem_add.2 (.inl hr))
  · unfold view
    rw [frameOf_setSlot hs, if_pos hpres, hf]
    by_cases hpage : samePage va a = true
    · rw [if_pos hpage, hshown a hpage, hdata']
      simp
    · rw [if_neg hpage]
      cases hr : t.frameOf P a with
      | none => rfl
      | some r => simp [hsame r (frameOf_ne hq hr)]
  · exact hbk.setSlot hs fun _ => by rw [hf]; rfl

theorem doCowFault_trans (hb : base.Small) (h : Acct P k (base + L1.usage P t)) (vma : Vma) :
    Trans P base k t (doCowFault k t va vma).2.2 (doCowFault k t va vma).2.1 fun _ => false := by
  have hid : Trans P base k t k t fun _ => false := Trans.of_sameFrames h rfl rfl rfl SameFrames.refl
  unfold doCowFault
  cases hs : t.slot va with
  | none => exact hid
  | some old =>
    dsimp only
    split
    · rename_i hcow
      obtain ⟨⟨hold, hro⟩, -⟩ : (ptePresent old = true ∧ hasBits old pteRdonly = true) ∧ _ := by
        simpa [pteCowCandidate] using hcow
      rw [h.pteFrame_eq]
      cases hp : P.pteFrame old with
      | none => exact hid
      | some p =>
        have hframe : t.frameOf P va = some p := by rw [frameOf_of_slot hs, if_pos hold, hp]
        have hmem : p ∈ (base + L1.usage P t).all := by
          rw [all_add]
          exact Multiset.mem_add.2 (.inr (Multiset.mem_of_le (refs_le_all _) (frameOf_mem_refs hframe)))
        have hcount := h.pageCount (hb.add (L1.usage_small t)) hmem
        dsimp only
        split
        · -- nobody shares the frame any more
          rename_i hone
          have hmk := setSlot_relabels h hs hold (by rw [present_mkwrite, hold])
            (pteFrame_of_kva (kva_mkwrite old)) fun q hq _ => by
              rw [hp] at hq
              cases hq
              rw [← hcount, hone]
          exact Trans.of_sameFrames hmk.acct hmk.refs rfl rfl hmk.frames
        · split
          · rename_i k1 ha
            rw [allocPage_none h ha]
            exact hid
          · rename_i q k1 ha
            exact cowCopy_trans hb h hs hold hp ha
    · exact hid

theorem doPageFault_trans (mm : MmStruct) (hb : base.Small) (h : Acct P k (base + L1.usage P mm.pgd)) (addr : Nat)
    (esr : BitVec 64) :
    Trans P base k mm.pgd (doPageFault k mm addr esr).2.2 (doPageFault k mm addr esr).2.1.pgd fun _ => false := by
  have hid : Trans P base k mm.pgd k mm.pgd fun _ => false := Trans.of_sameFrames h rfl rfl rfl SameFrames.refl
  unfold doPageFault
  dsimp only
  split
  · exact hid
  · split
    · exact hid
    · split
      · exact hid
      · split
        · split
          · exact doCowFault_trans hb h _
          · exact hid
        · rename_i hun
          exact doAnonFault_trans h (Bool.eq_false_of_not_eq_true hun) _

end Faults

end MiniOs.Mm
