/-
What the page-table operations do to the accounting. The usage of a tree adds up over its entries, so
every operation is described by the usage it exchanges: clearing or replacing one entry, tearing a
tree down (its whole usage goes), copying a tree (the copy's usage is added, entry by entry, and the
source's writable entries become read-only). Frames leave the accounting exactly when they are handed
back to the page allocator.
-/
import MiniOs.Proofs.Mm.Acct
import MiniOs.Proofs.Mm.Pte
import MiniOs.Library.Sums
import Mathlib.Tactic.Abel

namespace MiniOs.Mm

open Library PageAlloc Usage

theorem Acct.pteFrame_eq {P : PageAlloc} {k : Kmem} {u : Usage} (h : Acct P k u) (pte : BitVec 64) :
    k.pa.pteFrame pte = P.pteFrame pte :=
  pteFrame_congr h.memStart h.memSize h.poolPages pte

/-! ## Usage of tables -/

/-- What one entry uses; an entry outside the pool counts for nothing. -/
def pteUsage (P : PageAlloc) (pte : BitVec 64) : Usage :=
  if ptePresent pte then
    match P.pteFrame pte with
    | none => 0
    | some p => if hasBits pte pteRdonly then readonly p else writable p
  else 0

def L3.usage (P : PageAlloc) (t : L3) : Usage := table t.page + ∑ i, pteUsage P (t.pte i)

/-- The usage of an optional child. -/
def optUsage {α : Type} (f : α → Usage) (o : Option α) : Usage := o.elim 0 f

def Node.usage {α : Type} (f : α → Usage) (t : Node α) : Usage := table t.page + ∑ i, optUsage f (t.ent i)

def L2.usage (P : PageAlloc) : L2 → Usage := Node.usage (L3.usage P)

def L1.usage (P : PageAlloc) : L1 → Usage := Node.usage (L2.usage P)

theorem L2.usage_eq (P : PageAlloc) : L2.usage P = Node.usage (L3.usage P) := rfl

theorem L1.usage_eq (P : PageAlloc) : L1.usage P = Node.usage (L2.usage P) := rfl

variable {pte : BitVec 64}

section Usage

variable {P : PageAlloc} {α : Type} {f : α → Usage}

@[simp] theorem optUsage_none : optUsage f none = 0 := rfl
@[simp] theorem optUsage_some (c : α) : optUsage f (some c) = f c := rfl

theorem pteUsage_absent (h : ptePresent pte = false) : pteUsage P pte = 0 := by
  unfold pteUsage; rw [h]; rfl

@[simp] theorem pteUsage_zero : pteUsage P 0 = 0 := pteUsage_absent (by decide)

theorem pteUsage_present {p : Nat} (h : ptePresent pte = true) (hp : P.pteFrame pte = some p) :
    pteUsage P pte = if hasBits pte pteRdonly then readonly p else writable p := by
  unfold pteUsage; simp [h, hp]

theorem all_pteUsage {p : Nat} (h : ptePresent pte = true) (hp : P.pteFrame pte = some p) :
    (pteUsage P pte).all = {p} := by
  rw [pteUsage_present h hp]; split <;> simp

theorem refs_pteUsage {p : Nat} (h : ptePresent pte = true) (hp : P.pteFrame pte = some p) :
    (pteUsage P pte).refs = {p} := by
  rw [pteUsage_present h hp]; split <;> simp

theorem card_pteUsage (pte : BitVec 64) : (pteUsage P pte).refs.card ≤ 1 := by
  unfold pteUsage
  split
  · split
    · simp
    · split <;> simp
  · simp

theorem card_sum_pteUsage (t : L3) : ∀ l : List (Fin 512),
    (l.map fun i => pteUsage P (t.pte i)).sum.refs.card ≤ l.length
  | [] => by simp
  | i :: l => by
    have h1 := card_pteUsage (P := P) (t.pte i)
    have h2 := card_sum_pteUsage t l
    simp only [List.map_cons, List.sum_cons, refs_add, Multiset.card_add, List.length_cons]
    omega

theorem small_entries (t : L3) {l : List (Fin 512)} (hl : l.length ≤ 512) :
    (table t.page + (l.map fun i => pteUsage P (t.pte i)).sum).Small := by
  have hcard := card_sum_pteUsage (P := P) t l
  unfold Usage.Small
  simp only [refs_add, refs_table, zero_add, Prod.fst_add, Multiset.card_add]
  have htab : (table t.page).1.card = 1 := rfl
  omega

theorem sum_entries (g : Fin 512 → Usage) : ∑ i, g i = ((List.finRange 512).map g).sum := by
  rw [← List.ofFn_eq_map, List.sum_ofFn]

theorem L3.usage_small (t : L3) : (t.usage P).Small := by
  unfold L3.usage
  rw [sum_entries]
  exact small_entries t (by rw [List.length_finRange])

theorem small_sum (g : Fin 512 → Usage) (hg : ∀ i, (g i).Small) : ∀ l : List (Fin 512), (l.map g).sum.Small
  | [] => small_zero
  | i :: l => by
    rw [List.map_cons, List.sum_cons]
    exact (hg i).add (small_sum g hg l)

theorem optUsage_small (hf : ∀ c, (f c).Small) : ∀ o : Option α, (optUsage f o).Small
  | none => small_zero
  | some c => hf c

theorem Node.usage_small (hf : ∀ c, (f c).Small) (t : Node α) : (t.usage f).Small := by
  unfold Node.usage
  rw [sum_entries]
  exact (small_table t.page).add (small_sum _ (fun i => optUsage_small hf _) _)

theorem L2.usage_small (t : L2) : (L2.usage P t).Small := Node.usage_small L3.usage_small t

theorem L1.usage_small (t : L1) : (L1.usage P t).Small := Node.usage_small L2.usage_small t

theorem L3.usage_empty (p : Nat) : (L3.empty p).usage P = table p := by
  have hz : pteUsage P 0#64 = 0 := pteUsage_zero
  simp [L3.usage, L3.empty, hz]

theorem Node.usage_empty (p : Nat) : (Node.empty p : Node α).usage f = table p := by
  simp [Node.usage, Node.empty]

/-! ## Replacing one entry -/

theorem L3.usage_split (t : L3) (i : Fin 512) :
    ∃ rest, t.usage P = rest + pteUsage P (t.pte i) ∧ ∀ pte, (t.set i pte).usage P = rest + pteUsage P pte := by
  obtain ⟨rest, h1, h2⟩ := exists_sum_rest (Finset.mem_univ i) (pteUsage P) t.pte
  refine ⟨table t.page + rest, ?_, fun pte => ?_⟩
  · unfold L3.usage; rw [h1, add_assoc]
  · have h := h2 pte
    unfold L3.usage L3.set
    rw [h, add_assoc]

theorem Node.usage_split (f : α → Usage) (t : Node α) (i : Fin 512) :
    ∃ rest, t.usage f = rest + optUsage f (t.ent i) ∧ (∀ c, (t.set i c).usage f = rest + f c) ∧
      ((∀ c, (f c).Small) → rest.Small) := by
  obtain ⟨rest, h1, h2⟩ := exists_sum_rest (Finset.mem_univ i) (optUsage f) t.ent
  refine ⟨table t.page + rest, ?_, fun c => ?_, fun hf => ?_⟩
  · unfold Node.usage; rw [h1, add_assoc]
  · have h := h2 (some c)
    unfold Node.usage Node.set
    rw [h, add_assoc]
    rfl
  · -- the rest is what the table uses without this child
    have h := h2 none
    have hrest : table t.page + rest = Node.usage f { t with ent := Function.update t.ent i none } := by
      unfold Node.usage
      rw [h, optUsage_none, add_zero]
    rw [hrest]
    exact Node.usage_small hf _

theorem L1.slot_split {t : L1} {va : Nat} {old : BitVec 64} (h : t.slot va = some old) :
    ∃ rest, L1.usage P t = rest + pteUsage P old ∧ ∀ pte, L1.usage P (t.setSlot va pte) = rest + pteUsage P pte := by
  unfold L1.slot at h
  split at h
  · cases h
  · rename_i l2 h1
    split at h
    · cases h
    · rename_i l3 h2
      cases h
      obtain ⟨r3, e3, s3⟩ := L3.usage_split (P := P) l3 (l3Idx va)
      obtain ⟨r2, e2, s2, -⟩ := Node.usage_split (L3.usage P) l2 (l2Idx va)
      obtain ⟨r1, e1, s1, -⟩ := Node.usage_split (L2.usage P) t (l1Idx va)
      rw [h1] at e1
      rw [h2] at e2
      refine ⟨r1 + (r2 + r3), ?_, fun pte => ?_⟩
      · have e1' : L1.usage P t = r1 + L2.usage P l2 := e1
        have e2' : L2.usage P l2 = r2 + L3.usage P l3 := e2
        rw [e1', e2', e3]
        abel
      · unfold L1.setSlot
        simp only [h1, h2]
        have s1' := s1 (l2.set (l2Idx va) (l3.set (l3Idx va) pte))
        have s2' : L2.usage P (l2.set (l2Idx va) (l3.set (l3Idx va) pte)) = _ := s2 (l3.set (l3Idx va) pte)
        rw [s2', s3 pte] at s1'
        rw [show L1.usage P = Node.usage (L2.usage P) from rfl, s1']
        abel

end Usage

/-! ## Shrinking -/

/-- From usage `u` to a smaller `u'`: of the frames in use before, those handed back to the page
allocator are the ones no entry refers to any more. -/
structure Shrinks (P : PageAlloc) (k : Kmem) (u : Usage) (k' : Kmem) (u' : Usage) : Prop where
  acct : Acct P k' u'
  data : k'.data = k.data
  refs : u'.refs ⊆ u.refs
  returned : ∃ new, k'.returned = new ++ k.returned ∧ ∀ p ∈ u.refs, (p ∈ new ↔ p ∉ u'.refs)

section Shrink

variable {P : PageAlloc} {k k' k'' : Kmem} {u u' u'' base : Usage}

theorem Shrinks.refl (h : Acct P k u) : Shrinks P k u k u :=
  ⟨h, rfl, fun _ hp => hp, [], rfl, fun p hp => by simp [hp]⟩

theorem Shrinks.trans (h1 : Shrinks P k u k' u') (h2 : Shrinks P k' u' k'' u'') : Shrinks P k u k'' u'' := by
  obtain ⟨new1, e1, hn1⟩ := h1.returned
  obtain ⟨new2, e2, hn2⟩ := h2.returned
  refine ⟨h2.acct, h2.data.trans h1.data, fun p hp => h1.refs (h2.refs hp), new2 ++ new1, ?_, fun p hp => ?_⟩
  · rw [e2, e1, List.append_assoc]
  · rw [List.mem_append, hn1 p hp]
    constructor
    · rintro (hmem | hgone)
      · by_cases hp' : p ∈ u'.refs
        · exact (hn2 p hp').1 hmem
        · exact fun hp'' => hp' (h2.refs hp'')
      · exact fun hp'' => hgone (h2.refs hp'')
    · intro hgone
      by_cases hp' : p ∈ u'.refs
      · exact .inl ((hn2 p hp').2 hgone)
      · exact .inr hp'

/-- `put_page` on the frame of an entry that goes. -/
theorem putPte_shrinks (hs : (base + pteUsage P pte).Small)
    (h : Acct P k (base + pteUsage P pte)) (hpres : ptePresent pte = true) :
    Shrinks P k (base + pteUsage P pte) (putPte k pte) base := by
  unfold putPte
  rw [h.pteFrame_eq]
  cases hp : P.pteFrame pte with
  | none =>
    have hz : pteUsage P pte = 0 := by unfold pteUsage; simp [hp]
    rw [hz, add_zero] at h ⊢
    exact Shrinks.refl h
  | some p =>
    have hall := all_pteUsage hpres hp
    have hrefs := refs_pteUsage hpres hp
    have hsum : (base + pteUsage P pte).all = base.all + {p} := by rw [all_add, hall]
    have hsole : base.sole ≤ (base + pteUsage P pte).sole := by rw [sole_add]; exact Multiset.le_add_right _ _
    obtain ⟨hacct, hret⟩ := putPage_acct h hs hsum hsole
    refine ⟨hacct, rfl, ?_, if p ∈ base.all then [] else [p], ?_, fun q hq => ?_⟩
    · rw [refs_add]
      exact Multiset.subset_of_le (Multiset.le_add_right _ _)
    · rw [hret]; split <;> rfl
    · -- the frame of an entry is never a table, so having no use left is having no entry left
      have htab := h.notTable hq
      rw [Prod.fst_add, Multiset.mem_add, not_or] at htab
      have hbase : q ∈ base.all ↔ q ∈ base.refs := by rw [mem_all]; simp [htab.1]
      rw [refs_add, hrefs, Multiset.mem_add, Multiset.mem_singleton] at hq
      by_cases e : q = p
      · subst e
        rw [← hbase]
        by_cases hb : q ∈ base.all <;> simp [hb]
      · have hq' : q ∈ base.refs := hq.resolve_right e
        by_cases hb : p ∈ base.all <;> simp [hb, e, hq']

theorem freePage_shrinks {p : Nat} (h : Acct P k (base + table p)) :
    Shrinks P k (base + table p) (k.freePage p) base := by
  obtain ⟨hacct, hret, hp⟩ := freePage_acct h
  refine ⟨hacct, rfl, by simp, [p], hret, fun q hq => ?_⟩
  rw [refs_add, refs_table, add_zero] at hq
  have hne : q ≠ p := by
    rintro rfl
    exact hp (Multiset.mem_of_le (refs_le_all base) hq)
  simp [hne, hq]

/-! ## Teardown -/

theorem freeL3Loop_shrinks (t : L3) (hb : base.Small) : ∀ (is : List (Fin 512)) (k : Kmem), is.length ≤ 512 →
    Acct P k (base + table t.page + (is.map fun i => pteUsage P (t.pte i)).sum) →
    Shrinks P k (base + table t.page + (is.map fun i => pteUsage P (t.pte i)).sum) (freeL3Loop t is k)
      (base + table t.page)
  | [], k, _, h => by
    simp only [List.map_nil, List.sum_nil, add_zero] at h ⊢
    exact Shrinks.refl h
  | i :: is, k, hlen, h => by
    rw [List.length_cons] at hlen
    unfold freeL3Loop
    have hsum : base + table t.page + ((i :: is).map fun i => pteUsage P (t.pte i)).sum =
        base + table t.page + (is.map fun i => pteUsage P (t.pte i)).sum + pteUsage P (t.pte i) := by
      rw [List.map_cons, List.sum_cons]; abel
    by_cases hpres : ptePresent (t.pte i) = true
    · have hsmall : (base + table t.page + ((i :: is).map fun i => pteUsage P (t.pte i)).sum).Small := by
        rw [add_assoc]
        exact hb.add (small_entries t (by simpa using hlen))
      rw [hsum] at h hsmall ⊢
      rw [if_pos hpres]
      have hput := putPte_shrinks hsmall h hpres
      exact hput.trans (freeL3Loop_shrinks t hb is _ (by omega) hput.acct)
    · rw [Bool.not_eq_true] at hpres
      rw [hsum, pteUsage_absent hpres, add_zero] at h ⊢
      rw [hpres]
      exact freeL3Loop_shrinks t hb is k (by omega) h

/-- Freeing `c` gives up exactly what it uses. -/
def FreeSpec {α : Type} (P : PageAlloc) (f : α → Usage) (free : Kmem → α → Kmem) : Prop :=
  ∀ base k c, base.Small → Acct P k (base + f c) → Shrinks P k (base + f c) (free k c) base

theorem freeL3_spec : FreeSpec P (L3.usage P) freeL3 := by
  intro base k t hb h
  unfold L3.usage at h ⊢
  rw [sum_entries, ← add_assoc] at h ⊢
  have hloop := freeL3Loop_shrinks t hb (List.finRange 512) k (by rw [List.length_finRange]) h
  unfold freeL3
  exact hloop.trans (freePage_shrinks hloop.acct)

variable {α : Type} {f : α → Usage} {free : Kmem → α → Kmem}

theorem freeNodeLoop_shrinks (hf : ∀ c, (f c).Small) (hfree : FreeSpec P f free) (t : Node α) (hb : base.Small) :
    ∀ (is : List (Fin 512)) (k : Kmem),
    Acct P k (base + table t.page + (is.map fun i => optUsage f (t.ent i)).sum) →
    Shrinks P k (base + table t.page + (is.map fun i => optUsage f (t.ent i)).sum) (freeNodeLoop free t is k)
      (base + table t.page)
  | [], k, h => by
    simp only [List.map_nil, List.sum_nil, add_zero] at h ⊢
    exact Shrinks.refl h
  | i :: is, k, h => by
    have hsum : base + table t.page + ((i :: is).map fun i => optUsage f (t.ent i)).sum =
        base + table t.page + (is.map fun i => optUsage f (t.ent i)).sum + optUsage f (t.ent i) := by
      rw [List.map_cons, List.sum_cons]; abel
    rw [hsum] at h ⊢
    unfold freeNodeLoop
    cases hc : t.ent i with
    | none =>
      rw [hc, optUsage_none, add_zero] at h
      rw [optUsage_none, add_zero]
      exact freeNodeLoop_shrinks hf hfree t hb is k h
    | some c =>
      have hsmall : (base + table t.page + (is.map fun i => optUsage f (t.ent i)).sum).Small :=
        (hb.add (small_table _)).add (small_sum _ (fun i => optUsage_small hf _) _)
      rw [hc] at h
      have hchild := hfree _ k c hsmall h
      exact hchild.trans (freeNodeLoop_shrinks hf hfree t hb is _ hchild.acct)

theorem freeNode_spec (hf : ∀ c, (f c).Small) (hfree : FreeSpec P f free) :
    FreeSpec P (Node.usage f) (freeNode free) := by
  intro base k t hb h
  unfold Node.usage at h ⊢
  rw [sum_entries, ← add_assoc] at h ⊢
  have hloop := freeNodeLoop_shrinks hf hfree t hb (List.finRange 512) k h
  unfold freeNode
  exact hloop.trans (freePage_shrinks hloop.acct)

theorem freeL2_spec : FreeSpec P (L2.usage P) freeL2 := freeNode_spec L3.usage_small freeL3_spec

theorem freeUserPageTables_spec : FreeSpec P (L1.usage P) freeUserPageTables :=
  freeNode_spec L2.usage_small freeL2_spec

end Shrink

-- sums over all entries: never to be computed
attribute [irreducible] pteUsage L3.usage Node.usage L2.usage L1.usage

end MiniOs.Mm
