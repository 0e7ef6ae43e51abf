/-
Duplicating a page table at fork: the copy has an entry for every present entry of the source, with
the same frame, and both are read-only; a failed copy leaves nothing behind but read-only entries in
the source. In both cases every frame the source used is still in use, once more for each copied entry.
-/
import MiniOs.Proofs.Mm.PageTable
import Mathlib.Data.Option.Defs

namespace MiniOs.Mm

open Library PageAlloc Usage

/-! ## Shared entries -/

/-- What `dup_pgtable_level` makes of a present entry, in the source and in the copy. -/
def share (pte : BitVec 64) : BitVec 64 := if pteWrite pte then pteWrprotect pte else pte

/-- The entry of the copy. -/
def copied (pte : BitVec 64) : BitVec 64 := if ptePresent pte then share pte else 0

variable {pte : BitVec 64}

section Entries

variable {P : PageAlloc}

@[simp] theorem present_share (pte : BitVec 64) : ptePresent (share pte) = ptePresent pte := by
  unfold share; split <;> simp

@[simp] theorem present_copied (pte : BitVec 64) : ptePresent (copied pte) = ptePresent pte := by
  unfold copied
  split
  · exact present_share pte
  · rename_i h
    rw [Bool.not_eq_true] at h
    rw [h]; decide

theorem rdonly_share (h : ptePresent pte = true) : hasBits (share pte) pteRdonly = true := by
  unfold share
  split
  · exact rdonly_wrprotect pte
  · rename_i hw
    simpa [pteWrite, h] using hw

@[simp] theorem pteFrame_share (pte : BitVec 64) : P.pteFrame (share pte) = P.pteFrame pte := by
  unfold share
  split
  · exact pteFrame_of_kva (kva_wrprotect pte)
  · rfl

theorem pteFrame_copied (h : ptePresent pte = true) :
    P.pteFrame (copied pte) = P.pteFrame pte := by
  unfold copied; rw [if_pos h, pteFrame_share]

theorem pteUsage_share {p : Nat} (h : ptePresent pte = true) (hp : P.pteFrame pte = some p) :
    pteUsage P (share pte) = readonly p := by
  rw [pteUsage_present (by rw [present_share, h]) (by rw [pteFrame_share, hp]), rdonly_share h]
  rfl

end Entries

/-! ## What a copy is -/

/-- An entry as it was, or shared. -/
def Weaker (e e' : BitVec 64) : Prop := e' = e ∨ e' = share e

def L3.Weaker (t t' : L3) : Prop := ∀ i, MiniOs.Mm.Weaker (t.pte i) (t'.pte i)

def L3.Copied (t d : L3) : Prop := ∀ i, d.pte i = copied (t.pte i)

/-- Two upper tables with related children in the same places. -/
def NodeRel {α : Type} (R : α → α → Prop) (t t' : Node α) : Prop := ∀ i, Option.Rel R (t.ent i) (t'.ent i)

/-- The log only grows, and by none of the pages `X`. -/
def Keeps (k k' : Kmem) (X : Multiset Nat) : Prop :=
  k'.data = k.data ∧ ∃ new, k'.returned = new ++ k.returned ∧ ∀ p ∈ X, p ∉ new

/-- What a duplication does to the accounting: `o` is the copy if there is one, `c'` the source as it is
left. -/
structure DupOk {α : Type} (P : PageAlloc) (f : α → Usage) (base : Usage) (k : Kmem) (c : α) (o : Option α) (c' : α)
    (k' : Kmem) : Prop where
  acct : Acct P k' (base + f c' + optUsage f o)
  refs : (f c').refs = (f c).refs
  keeps : Keeps k k' (base + f c).refs

def DupSpec {α : Type} (P : PageAlloc) (f : α → Usage) (weaker copy : α → α → Prop)
    (dup : Kmem → α → Option α × α × Kmem) : Prop :=
  ∀ base k c o c' k', base.Small → Acct P k (base + f c) → dup k c = (o, c', k') →
    DupOk P f base k c o c' k' ∧ weaker c c' ∧ ∀ d, o = some d → copy c d

section Dup

theorem L3.set_pte (t : L3) (i j : Fin 512) (pte : BitVec 64) :
    (t.set i pte).pte j = if j = i then pte else t.pte j := Function.update_apply ..

theorem Node.set_ent {α : Type} (t : Node α) (i j : Fin 512) (c : α) :
    (t.set i c).ent j = if j = i then some c else t.ent j := Function.update_apply ..

theorem nodeRel_refl {α : Type} {R : α → α → Prop} (h : ∀ c, R c c) (t : Node α) : NodeRel R t t := by
  intro i
  cases t.ent i with
  | none => exact .none
  | some c => exact .some (h c)

variable {P : PageAlloc} {k k' k'' : Kmem} {X : Multiset Nat} {u u' base : Usage}

theorem Keeps.refl : Keeps k k X := ⟨rfl, [], rfl, by simp⟩

theorem Keeps.trans (h1 : Keeps k k' X) (h2 : Keeps k' k'' X) : Keeps k k'' X := by
  obtain ⟨d1, new1, e1, hn1⟩ := h1
  obtain ⟨d2, new2, e2, hn2⟩ := h2
  refine ⟨d2.trans d1, new2 ++ new1, by rw [e2, e1, List.append_assoc], fun p hp hmem => ?_⟩
  rcases List.mem_append.1 hmem with h | h
  · exact hn2 p hp h
  · exact hn1 p hp h

theorem Keeps.mono {Y : Multiset Nat} (h : Keeps k k' X) (hsub : Y ⊆ X) : Keeps k k' Y := by
  obtain ⟨hd, new, e, hn⟩ := h
  exact ⟨hd, new, e, fun p hp => hn p (hsub hp)⟩

theorem Shrinks.keeps (h : Shrinks P k u k' u') : Keeps k k' u'.refs := by
  obtain ⟨new, e, hn⟩ := h.returned
  exact ⟨h.data, new, e, fun p hp hmem => (hn p (h.refs hp)).1 hmem hp⟩

/-- Taking one more reference on the frame of a present entry, both entries read-only from now on. -/
theorem share_acct {p : Nat} (h : Acct P k (base + pteUsage P pte))
    (hpres : ptePresent pte = true) (hp : P.pteFrame pte = some p) :
    Acct P (k.getPage p) (base + pteUsage P (share pte) + pteUsage P (share pte)) := by
  rw [pteUsage_share hpres hp]
  have hweak : Acct P k (base + readonly p) := by
    refine h.relabel ?_ fun q hq => h.sole q ?_
    · rw [all_add, all_add, all_pteUsage hpres hp, all_readonly]
    · rw [sole_add, sole_readonly, add_zero] at hq
      rw [sole_add]
      exact Multiset.mem_add.2 (.inl hq)
  exact getPage_acct hweak (by simp [readonly])

/-! ## Last-level tables -/

theorem dupL3Loop_spec (hb : base.Small) : ∀ (is : List (Fin 512)) (k : Kmem) (src dst : L3) (o : Option L3)
    (src' : L3) (k' : Kmem), is.Nodup → (∀ i ∈ is, dst.pte i = 0) → Acct P k (base + src.usage P + dst.usage P) →
    dupL3Loop is k src dst = (o, src', k') →
    DupOk P (L3.usage P) base k src o src' k' ∧ (∀ j, Weaker (src.pte j) (src'.pte j)) ∧
      (∀ j, j ∉ is → src'.pte j = src.pte j) ∧
      ∀ d, o = some d → ∀ j, d.pte j = if j ∈ is then copied (src.pte j) else dst.pte j
  | [], k, src, dst, o, src', k', _, _, h, heq => by
    cases heq
    refine ⟨⟨by rw [optUsage_some]; exact h, rfl, Keeps.refl⟩, fun j => .inl rfl, fun j _ => rfl, ?_⟩
    rintro d ⟨⟩ j
    simp
  | i :: is, k, src, dst, o, src', k', hnd, hz, h, heq => by
    obtain ⟨hi, hnd⟩ := List.nodup_cons.1 hnd
    have hz' : ∀ j ∈ is, dst.pte j = 0 := fun j hj => hz j (List.mem_cons_of_mem i hj)
    unfold dupL3Loop at heq
    by_cases hpres : ptePresent (src.pte i) = true
    · simp only [hpres, if_true] at heq
      rw [h.pteFrame_eq] at heq
      cases hp : P.pteFrame (src.pte i) with
      | none =>
        rw [hp] at heq
        cases heq
        have hfree := freeL3_spec (base + src.usage P) k dst (hb.add src.usage_small) h
        refine ⟨⟨by rw [optUsage_none, add_zero]; exact hfree.acct, rfl, hfree.keeps⟩, fun j => .inl rfl,
          fun j _ => rfl, ?_⟩
        rintro d ⟨⟩
      | some p =>
        rw [hp] at heq
        -- both tables get the shared entry, and the frame one more reference
        obtain ⟨rS, eS, sS⟩ := src.usage_split (P := P) i
        obtain ⟨rD, eD, sD⟩ := dst.usage_split (P := P) i
        rw [hz i (List.mem_cons_self ..), pteUsage_zero, add_zero] at eD
        have hshare : Acct P (k.getPage p)
            (base + (src.set i (share (src.pte i))).usage P + (dst.set i (share (src.pte i))).usage P) := by
          have hsum : base + src.usage P + dst.usage P = base + rS + rD + pteUsage P (src.pte i) := by
            rw [eS, eD]; abel
          rw [hsum] at h
          have hget := share_acct h hpres hp
          rw [sS, sD]
          convert hget using 1
          abel
        have hrefs : ((src.set i (share (src.pte i))).usage P).refs = (src.usage P).refs := by
          rw [sS, eS, refs_add, refs_add, refs_pteUsage hpres hp,
            refs_pteUsage (by rw [present_share, hpres]) (by rw [pteFrame_share, hp])]
        obtain ⟨ihok, ihweak, ihsame, ihcopy⟩ := dupL3Loop_spec hb is (k.getPage p) _ _ o src' k' hnd
          (fun j hj => by rw [L3.set_pte, if_neg (ne_of_mem_of_not_mem hj hi)]; exact hz' j hj) hshare heq
        have hkeeps := ihok.keeps
        rw [refs_add, hrefs, ← refs_add] at hkeeps
        refine ⟨⟨ihok.acct, ihok.refs.trans hrefs, hkeeps⟩, fun j => ?_, fun j hj => ?_, fun d hd j => ?_⟩
        · by_cases e : j = i
          · subst e
            rw [ihsame j hi, L3.set_pte, if_pos rfl]
            exact .inr rfl
          · have := ihweak j
            rwa [L3.set_pte, if_neg e] at this
        · rw [List.mem_cons, not_or] at hj
          rw [ihsame j hj.2, L3.set_pte, if_neg hj.1]
        · rw [ihcopy d hd j, L3.set_pte, L3.set_pte]
          by_cases e : j = i
          · subst e
            simp [hi, copied, hpres]
          · simp [e]
    · rw [if_neg hpres] at heq
      obtain ⟨ihok, ihweak, ihsame, ihcopy⟩ := dupL3Loop_spec hb is k src dst o src' k' hnd hz' h heq
      refine ⟨ihok, ihweak, fun j hj => ihsame j fun hj' => hj (List.mem_cons_of_mem i hj'), fun d hd j => ?_⟩
      rw [ihcopy d hd j]
      by_cases e : j = i
      · subst e
        simp [hi, hz j (List.mem_cons_self ..), copied, hpres]
      · simp [e]

theorem dupL3_spec : DupSpec P (L3.usage P) L3.Weaker L3.Copied dupL3 := by
  intro base k src o src' k' hb h heq
  unfold dupL3 at heq
  split at heq
  · rename_i k1 ha
    cases heq
    rw [allocPage_none h ha]
    refine ⟨⟨by rw [optUsage_none, add_zero]; exact h, rfl, Keeps.refl⟩, fun i => .inl rfl, ?_⟩
    rintro d ⟨⟩
  · rename_i p k1 ha
    obtain ⟨-, hacct, hdata, hret⟩ := allocPage_some h ha
    obtain ⟨hok, hweak, -, hcopy⟩ := dupL3Loop_spec hb (List.finRange 512) k1 src (L3.empty p) o src' k'
      (List.nodup_finRange 512) (fun i _ => rfl) (by rw [L3.usage_empty]; exact hacct) heq
    refine ⟨⟨hok.acct, hok.refs, ?_⟩, hweak, fun d hd i => ?_⟩
    · exact Keeps.trans ⟨hdata, [], hret, by simp⟩ hok.keeps
    · rw [hcopy d hd i, if_pos (List.mem_finRange i)]

/-! ## Upper tables -/

section Node

variable {α : Type} {f : α → Usage} {weaker copy : α → α → Prop} {dup : Kmem → α → Option α × α × Kmem}
  {free : Kmem → α → Kmem}

theorem dupNodeLoop_spec (hf : ∀ c, (f c).Small) (hrefl : ∀ c, weaker c c) (hfree : FreeSpec P f free)
    (hdup : DupSpec P f weaker copy dup) (hb : base.Small) : ∀ (is : List (Fin 512)) (k : Kmem) (src dst : Node α)
    (o : Option (Node α)) (src' : Node α) (k' : Kmem), is.Nodup → (∀ i ∈ is, dst.ent i = none) →
    Acct P k (base + src.usage f + dst.usage f) → dupNodeLoop dup free is k src dst = (o, src', k') →
    DupOk P (Node.usage f) base k src o src' k' ∧ NodeRel weaker src src' ∧
      (∀ j, j ∉ is → src'.ent j = src.ent j) ∧
      ∀ d, o = some d → ∀ j, (j ∈ is → Option.Rel copy (src.ent j) (d.ent j)) ∧ (j ∉ is → d.ent j = dst.ent j)
  | [], k, src, dst, o, src', k', _, _, h, heq => by
    cases heq
    refine ⟨⟨by rw [optUsage_some]; exact h, rfl, Keeps.refl⟩, nodeRel_refl hrefl src, fun j _ => rfl, ?_⟩
    rintro d ⟨⟩ j
    exact ⟨fun hj => absurd hj List.not_mem_nil, fun _ => rfl⟩
  | i :: is, k, src, dst, o, src', k', hnd, hz, h, heq => by
    obtain ⟨hi, hnd⟩ := List.nodup_cons.1 hnd
    have hz' : ∀ j ∈ is, dst.ent j = none := fun j hj => hz j (List.mem_cons_of_mem i hj)
    unfold dupNodeLoop at heq
    cases hc : src.ent i with
    | none =>
      rw [hc] at heq
      obtain ⟨ihok, ihweak, ihsame, ihcopy⟩ :=
        dupNodeLoop_spec hf hrefl hfree hdup hb is k src dst o src' k' hnd hz' h heq
      refine ⟨ihok, ihweak, fun j hj => ihsame j fun hj' => hj (List.mem_cons_of_mem i hj'), fun d hd j => ?_⟩
      refine ⟨fun hj => ?_, fun hj => (ihcopy d hd j).2 fun hj' => hj (List.mem_cons_of_mem i hj')⟩
      rcases List.mem_cons.1 hj with rfl | hj
      · rw [hc, (ihcopy d hd j).2 hi, hz j (List.mem_cons_self ..)]
        exact .none
      · exact (ihcopy d hd j).1 hj
    | some c =>
      rw [hc] at heq
      obtain ⟨rS, eS, sS, hrS⟩ := src.usage_split f i
      obtain ⟨rD, eD, sD, hrD⟩ := dst.usage_split f i
      rw [hz i (List.mem_cons_self ..), optUsage_none, add_zero] at eD
      rw [hc, optUsage_some] at eS
      have hsum : base + src.usage f + dst.usage f = base + rS + rD + f c := by rw [eS, eD]; abel
      rw [hsum] at h
      have hsmall : (base + rS + rD).Small := (hb.add (hrS hf)).add (hrD hf)
      rcases hd : dup k c with ⟨o1, c1, k1⟩
      obtain ⟨⟨hacct, hrefs1, hkeeps1⟩, hweak1, hcopy1⟩ := hdup (base + rS + rD) k c o1 c1 k1 hsmall h hd
      have hrefs : ((src.set i c1).usage f).refs = (src.usage f).refs := by
        rw [sS, eS, refs_add, refs_add, hrefs1]
      simp only [hd] at heq
      have hkeeps : Keeps k k1 (base + src.usage f).refs := hkeeps1.mono (by
        rw [← hsum, refs_add _ (dst.usage f)]
        exact Multiset.subset_of_le (Multiset.le_add_right _ _))
      cases o1 with
      | none =>
        cases heq
        have hacct' : Acct P k1 (base + (src.set i c1).usage f + dst.usage f) := by
          rw [sS, eD]
          convert hacct using 1
          rw [optUsage_none]; abel
        have hfreed := freeNode_spec hf hfree _ k1 dst (hb.add (Node.usage_small hf _)) hacct'
        have hkeeps2 := hfreed.keeps
        rw [refs_add, hrefs, ← refs_add] at hkeeps2
        refine ⟨⟨by rw [optUsage_none, add_zero]; exact hfreed.acct, hrefs, hkeeps.trans hkeeps2⟩, fun j => ?_,
          fun j hj => ?_, ?_⟩
        · rw [Node.set_ent]
          split
          · rename_i e
            rw [e, hc]
            exact .some hweak1
          · exact nodeRel_refl hrefl src j
        · rw [List.mem_cons, not_or] at hj
          rw [Node.set_ent, if_neg hj.1]
        · rintro d ⟨⟩
      | some d1 =>
        have hacct' : Acct P k1 (base + (src.set i c1).usage f + (dst.set i d1).usage f) := by
          rw [sS, sD]
          convert hacct using 1
          rw [optUsage_some]; abel
        obtain ⟨ihok, ihweak, ihsame, ihcopy⟩ := dupNodeLoop_spec hf hrefl hfree hdup hb is k1 _ _ o src' k' hnd
          (fun j hj => by rw [Node.set_ent, if_neg (ne_of_mem_of_not_mem hj hi)]; exact hz' j hj) hacct' heq
        have hkeeps2 := ihok.keeps
        rw [refs_add, hrefs, ← refs_add] at hkeeps2
        refine ⟨⟨ihok.acct, ihok.refs.trans hrefs, hkeeps.trans hkeeps2⟩, fun j => ?_, fun j hj => ?_,
          fun d hd j => ⟨fun hj => ?_, fun hj => ?_⟩⟩
        · by_cases e : j = i
          · rw [e, ihsame i hi, Node.set_ent, if_pos rfl, hc]
            exact .some hweak1
          · have := ihweak j
            rwa [Node.set_ent, if_neg e] at this
        · rw [List.mem_cons, not_or] at hj
          rw [ihsame j hj.2, Node.set_ent, if_neg hj.1]
        · by_cases e : j = i
          · rw [e, (ihcopy d hd i).2 hi, Node.set_ent, if_pos rfl, hc]
            exact .some (hcopy1 d1 rfl)
          · have := (ihcopy d hd j).1 ((List.mem_cons.1 hj).resolve_left e)
            rwa [Node.set_ent, if_neg e] at this
        · rw [List.mem_cons, not_or] at hj
          rw [(ihcopy d hd j).2 hj.2, Node.set_ent, if_neg hj.1]

theorem dupNode_spec (hf : ∀ c, (f c).Small) (hrefl : ∀ c, weaker c c) (hfree : FreeSpec P f free)
    (hdup : DupSpec P f weaker copy dup) :
    DupSpec P (Node.usage f) (NodeRel weaker) (NodeRel copy) (dupNode dup free) := by
  intro base k src o src' k' hb h heq
  unfold dupNode at heq
  split at heq
  · rename_i k1 ha
    cases heq
    rw [allocPage_none h ha]
    refine ⟨⟨by rw [optUsage_none, add_zero]; exact h, rfl, Keeps.refl⟩, nodeRel_refl hrefl src, ?_⟩
    rintro d ⟨⟩
  · rename_i p k1 ha
    obtain ⟨-, hacct, hdata, hret⟩ := allocPage_some h ha
    obtain ⟨hok, hweak, -, hcopy⟩ := dupNodeLoop_spec hf hrefl hfree hdup hb (List.finRange 512) k1 src (Node.empty p)
      o src' k' (List.nodup_finRange 512) (fun i _ => rfl) (by rw [Node.usage_empty]; exact hacct) heq
    refine ⟨⟨hok.acct, hok.refs, ?_⟩, hweak, fun d hd i => (hcopy d hd i).1 (List.mem_finRange i)⟩
    exact Keeps.trans ⟨hdata, [], hret, by simp⟩ hok.keeps

end Node

theorem dupPgtable_spec : DupSpec P (L1.usage P) (NodeRel (NodeRel L3.Weaker)) (NodeRel (NodeRel L3.Copied))
    dupPgtable := by
  have hrefl3 : ∀ t : L3, L3.Weaker t t := fun t i => .inl rfl
  have hdup2 := dupNode_spec (P := P) L3.usage_small hrefl3 freeL3_spec dupL3_spec
  rw [← L2.usage_eq] at hdup2
  rw [L1.usage_eq]
  exact dupNode_spec L2.usage_small (nodeRel_refl hrefl3) freeL2_spec hdup2

end Dup

end MiniOs.Mm
