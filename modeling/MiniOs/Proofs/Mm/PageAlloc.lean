/-
The buddy allocator's invariant. `held` is the ghost map of outstanding blocks (head frame to
order). Four elementary moves carry every operation: a free block is taken off its list and
becomes held, a held block is released onto the list of its order, two held buddies are merged,
a held block is split. `Inv` is kept by each, so by the coalescing and splitting loops and by
`allocPages`, `freePages`, `getPage` and `putPage`.
-/
import MiniOs.Mm.PageAlloc
import MiniOs.Library.Dyadic

namespace MiniOs.Mm.PageAlloc

open Library Library.Dyadic Function

/-! ## Definitions -/

/-- The mark of `p` says it heads a free block of order `o`. -/
def FreeBlock (st : PageAlloc) (p o : Nat) : Prop := st.blockOrder p = o

/-- The pages of the free blocks. -/
def freePageSet (st : PageAlloc) : Set Nat := {x | ∃ p o, st.FreeBlock p o ∧ x ∈ block p o}

/-- A block of the pool: a head aligned to its order, of an order the pool has. -/
structure InPool (st : PageAlloc) (p o : Nat) : Prop where
  order : o ≤ st.maxOrder
  aligned : 2 ^ o ∣ p
  lt : p < st.poolPages

/-- What page_alloc_init fixes once and for all. -/
structure PoolOk (st : PageAlloc) : Prop where
  aligned : pageSize ∣ st.memStart
  base : kernelVirtBase ≤ st.memStart
  size : st.memSize = st.poolPages * pageSize
  fits : st.poolPages ≠ 0 → st.memStart + st.memSize ≤ virtMemEnd
  order : st.maxOrder ≤ 15
  pages : st.poolPages = 0 ∨ st.poolPages = 2 ^ st.maxOrder

/-- A block is accounted for: free or held. -/
def Blk (st : PageAlloc) (held : Nat → Option Nat) (p o : Nat) : Prop := st.FreeBlock p o ∨ held p = some o

/-- The allocator's invariant, relative to the outstanding blocks. -/
structure Inv (st : PageAlloc) (held : Nat → Option Nat) : Prop where
  pool : PoolOk st
  lists : ∀ o, ∃ l, (st.freeList o).Holds l ∧ l.Nodup ∧ ∀ p, p ∈ l ↔ st.FreeBlock p o
  marks : ∀ p, st.blockOrder p = -1 ∨ ∃ o, st.FreeBlock p o
  inPool : ∀ p o, st.Blk held p o → st.InPool p o
  excl : ∀ p o, st.FreeBlock p o → held p = none
  disj : ∀ p o q r, st.Blk held p o → st.Blk held q r → p ≠ q → Disjoint (block p o) (block q r)
  buddies : ∀ p o, st.FreeBlock p o → o < st.maxOrder → ¬ st.FreeBlock (buddy p o) o

variable {st : PageAlloc} {k o p q r : Nat}

theorem FreeBlock.unique (h : st.FreeBlock p o) (h' : st.FreeBlock p r) : o = r := by
  unfold FreeBlock at h h'; omega

variable {held : Nat → Option Nat}

/-- Two accounted blocks that share a page are the same block. -/
theorem Inv.eq_of_mem (hI : Inv st held) {x : Nat}
    (h1 : st.Blk held p o) (h2 : st.Blk held q r) (hx : x ∈ block p o) (hy : x ∈ block q r) : p = q := by
  by_contra hne
  exact Set.disjoint_left.1 (hI.disj p o q r h1 h2 hne) hx hy

variable {p o : Nat}

theorem Inv.held_not_free (hI : Inv st held)
    (h : held p = some o) : st.blockOrder p = -1 := by
  rcases hI.marks p with h' | ⟨r, hr⟩
  · exact h'
  · rw [hI.excl p r hr] at h; cases h

theorem Inv.held_disjoint (hI : Inv st held) {x : Nat}
    (h : held p = some o) (hx : x ∈ block p o) : x ∉ st.freePageSet := by
  rintro ⟨q, r, hq, hy⟩
  obtain rfl := hI.eq_of_mem (.inr h) (.inl hq) hx hy
  rw [hI.excl p r hq] at h; cases h

theorem Inv.length_le (hI : Inv st held) {l : List Nat}
    (hn : l.Nodup) (hl : ∀ p, p ∈ l ↔ st.FreeBlock p o) : l.length ≤ st.poolPages := by
  have hsub : l ⊆ List.range st.poolPages := fun p hp =>
    List.mem_range.2 (hI.inPool p o (.inl ((hl p).1 hp))).lt
  simpa using (hn.subperm hsub).length_le

/-! ## Taking a free block -/

/-- A free block leaves its list: only the list of its order and its mark change. -/
structure Taken (st st' : PageAlloc) (p o : Nat) : Prop where
  memStart : st'.memStart = st.memStart
  memSize : st'.memSize = st.memSize
  maxOrder : st'.maxOrder = st.maxOrder
  poolPages : st'.poolPages = st.poolPages
  refcount : st'.refcount = st.refcount
  mark : st'.blockOrder = update st.blockOrder p (-1)
  other : ∀ r, r ≠ o → st'.freeArea r = st.freeArea r
  next : ∀ a, ¬ st.FreeBlock a o → st'.next a = st.next a
  list : ∀ l, (st.freeList o).Holds l → l.Nodup → (∀ q, q ∈ l ↔ st.FreeBlock q o) →
    (st'.freeList o).Holds (l.erase p)

variable {st st' : PageAlloc}

theorem Taken.freeBlock (h : Taken st st' p o) :
    st'.FreeBlock q r ↔ q ≠ p ∧ st.FreeBlock q r := by
  unfold FreeBlock
  rw [h.mark, update_apply]
  split
  · rename_i e; simp [e]
  · rename_i e; simp [e]

theorem Taken.freePageSet (hI : Inv st held)
    (hp : st.FreeBlock p o) (h : Taken st st' p o) : st'.freePageSet = st.freePageSet \ block p o := by
  ext x
  constructor
  · rintro ⟨q, r, hq, hx⟩
    obtain ⟨hne, hq⟩ := h.freeBlock.1 hq
    exact ⟨⟨q, r, hq, hx⟩, fun hx' => hne (hI.eq_of_mem (.inl hq) (.inl hp) hx hx')⟩
  · rintro ⟨⟨q, r, hq, hx⟩, hx'⟩
    refine ⟨q, r, h.freeBlock.2 ⟨?_, hq⟩, hx⟩
    rintro rfl
    rw [hq.unique hp] at hx
    exact hx' hx

theorem PoolOk.congr (h : PoolOk st) (h1 : st'.memStart = st.memStart)
    (h2 : st'.memSize = st.memSize) (h3 : st'.maxOrder = st.maxOrder) (h4 : st'.poolPages = st.poolPages) :
    PoolOk st' := by
  refine ⟨?_, ?_, ?_, ?_, ?_, ?_⟩
  · rw [h1]; exact h.aligned
  · rw [h1]; exact h.base
  · rw [h2, h4]; exact h.size
  · rw [h1, h2, h4]; exact h.fits
  · rw [h3]; exact h.order
  · rw [h3, h4]; exact h.pages

theorem InPool.congr (h : st.InPool p o) (h3 : st'.maxOrder = st.maxOrder)
    (h4 : st'.poolPages = st.poolPages) : st'.InPool p o :=
  ⟨by rw [h3]; exact h.order, h.aligned, by rw [h4]; exact h.lt⟩

theorem Inv.take (hI : Inv st held)
    (hp : st.FreeBlock p o) (h : Taken st st' p o) : Inv st' (update held p (some o)) := by
  have hblk : ∀ q r, st'.Blk (update held p (some o)) q r → st.Blk held q r := by
    rintro q r (hq | hq)
    · exact .inl (h.freeBlock.1 hq).2
    · rw [update_apply] at hq
      split at hq
      · rename_i e; cases hq; subst e; exact .inl hp
      · exact .inr hq
  refine ⟨hI.pool.congr h.memStart h.memSize h.maxOrder h.poolPages, fun r => ?_, fun q => ?_, fun q r hq => ?_,
    fun q r hq => ?_, fun q r s t h1 h2 hne => hI.disj q r s t (hblk q r h1) (hblk s t h2) hne, fun q r hq hr => ?_⟩
  · obtain ⟨l, hl, hn, hm⟩ := hI.lists r
    by_cases hr : r = o
    · subst hr
      refine ⟨l.erase p, h.list l hl hn hm, hn.erase p, fun q => ?_⟩
      rw [hn.mem_erase_iff, hm, h.freeBlock]
    · refine ⟨l, ?_, hn, fun q => ?_⟩
      · show Chain st'.next (st'.freeArea r) l
        rw [h.other r hr]
        refine hl.congr fun a ha => h.next a fun hao => ?_
        exact hr ((((hm a).1 ha)).unique hao)
      · rw [hm, h.freeBlock]
        refine ⟨fun hq => ⟨?_, hq⟩, fun hq => hq.2⟩
        rintro rfl
        exact hr (hq.unique hp)
  · rw [h.mark, update_apply]
    split
    · exact .inl rfl
    · rename_i hne
      rcases hI.marks q with h' | ⟨r, hr⟩
      · exact .inl h'
      · exact .inr ⟨r, h.freeBlock.2 ⟨hne, hr⟩⟩
  · exact (hI.inPool q r (hblk q r hq)).congr h.maxOrder h.poolPages
  · obtain ⟨hne, hq⟩ := h.freeBlock.1 hq
    rw [update_of_ne hne]; exact hI.excl q r hq
  · rw [h.maxOrder] at hr
    intro hb
    exact hI.buddies q r (h.freeBlock.1 hq).2 hr (h.freeBlock.1 hb).2

theorem freeListPop_taken (hI : Inv st held)
    (h : st.freeArea o = some p) :
    st.FreeBlock p o ∧ (st.freeListPop o).1 = p ∧ Taken st (st.freeListPop o).2 p o := by
  obtain ⟨l, hl, hn, hm⟩ := hI.lists o
  have hl' : Chain st.next (some p) l := h ▸ hl
  have hp : st.FreeBlock p o := (hm p).1 hl'.head_mem
  have hpop : st.freeListPop o = (p, { st with
      freeArea := update st.freeArea o (st.next p)
      blockOrder := update st.blockOrder p (-1) }) := by
    unfold freeListPop; rw [h]
  rw [hpop]
  refine ⟨hp, rfl, rfl, rfl, rfl, rfl, rfl, rfl, fun r hr => update_of_ne hr .., fun _ _ => rfl, ?_⟩
  intro m hm' _ _
  show Chain st.next (update st.freeArea o (st.next p) o) (m.erase p)
  rw [update_self]
  have hm'' : Chain st.next (some p) m := h ▸ hm'
  cases m with
  | nil => cases hm''
  | cons a m =>
    obtain ⟨e, hc⟩ := hm''
    cases e
    rw [List.erase_cons_head]; exact hc

theorem freeListRemove_taken (hI : Inv st held)
    (hp : st.FreeBlock p o) : Taken st (st.freeListRemove p o) p o := by
  obtain ⟨l, hl, hn, hm⟩ := hI.lists o
  obtain ⟨s', h1, h2, h3⟩ := PtrList.unlink_spec hl hn ((hm p).2 hp) (hI.length_le hn hm)
  have hrem : st.freeListRemove p o = { st with
      next := s'.next
      freeArea := update st.freeArea o s'.head
      blockOrder := update st.blockOrder p (-1) } := by
    unfold freeListRemove; rw [h1]
  rw [hrem]
  refine ⟨rfl, rfl, rfl, rfl, rfl, rfl, fun r hr => update_of_ne hr .., fun a ha => ?_, ?_⟩
  · exact h3 a fun hal => ha ((hm a).1 hal)
  · intro m hm' _ _
    obtain rfl := hm'.unique hl
    show Chain s'.next (update st.freeArea o s'.head o) (m.erase p)
    rw [update_self]; exact h2

/-! ## Releasing a held block -/

theorem freeListAdd_freeBlock :
    (st.freeListAdd p o).FreeBlock q r ↔ (q = p ∧ r = o) ∨ (q ≠ p ∧ st.FreeBlock q r) := by
  unfold FreeBlock freeListAdd
  simp only [update_apply]
  split
  · rename_i e; simp [e, eq_comm]
  · rename_i e; simp [e]

theorem freeListAdd_freePageSet (hp : st.blockOrder p = -1) :
    (st.freeListAdd p o).freePageSet = st.freePageSet ∪ block p o := by
  ext x
  constructor
  · rintro ⟨q, r, hq, hx⟩
    rcases freeListAdd_freeBlock.1 hq with ⟨rfl, rfl⟩ | ⟨-, hq⟩
    · exact .inr hx
    · exact .inl ⟨q, r, hq, hx⟩
  · rintro (⟨q, r, hq, hx⟩ | hx)
    · refine ⟨q, r, freeListAdd_freeBlock.2 (.inr ⟨?_, hq⟩), hx⟩
      rintro rfl
      unfold FreeBlock at hq; omega
    · exact ⟨p, o, freeListAdd_freeBlock.2 (.inl ⟨rfl, rfl⟩), hx⟩

/-- A held block whose buddy is not free at the same order goes onto its list. -/
theorem Inv.release (hI : Inv st held)
    (hp : held p = some o) (hb : o < st.maxOrder → ¬ st.FreeBlock (buddy p o) o) :
    Inv (st.freeListAdd p o) (update held p none) := by
  have hmark := hI.held_not_free hp
  have hblk : ∀ q r, (st.freeListAdd p o).Blk (update held p none) q r → st.Blk held q r := by
    rintro q r (hq | hq)
    · rcases freeListAdd_freeBlock.1 hq with ⟨rfl, rfl⟩ | ⟨-, hq⟩
      · exact .inr hp
      · exact .inl hq
    · rw [update_apply] at hq
      split at hq
      · cases hq
      · exact .inr hq
  have hnot : ∀ r, ¬ st.FreeBlock p r := fun r hr => by rw [hI.excl p r hr] at hp; cases hp
  refine ⟨hI.pool.congr rfl rfl rfl rfl, fun r => ?_, fun q => ?_, fun q r hq => ?_, fun q r hq => ?_,
    fun q r s t h1 h2 hne => hI.disj q r s t (hblk q r h1) (hblk s t h2) hne, fun q r hq hr hq' => ?_⟩
  · obtain ⟨l, hl, hn, hm⟩ := hI.lists r
    have hpl : p ∉ l := fun h => hnot r ((hm p).1 h)
    have hl' : Chain (st.freeListAdd p o).next (st.freeArea r) l :=
      hl.congr fun a ha => update_of_ne (fun e : a = p => hpl (e ▸ ha)) ..
    by_cases hr : r = o
    · subst hr
      refine ⟨p :: l, ⟨?_, ?_⟩, List.nodup_cons.2 ⟨hpl, hn⟩, fun q => ?_⟩
      · show update st.freeArea r (some p) r = some p
        rw [update_self]
      · show Chain _ (update st.next p (st.freeArea r) p) l
        rw [update_self]; exact hl'
      · rw [List.mem_cons, hm, freeListAdd_freeBlock]
        by_cases hq : q = p <;> simp [hq, hnot]
    · refine ⟨l, ?_, hn, fun q => ?_⟩
      · show Chain _ (update st.freeArea o (some p) r) l
        rw [update_of_ne hr]; exact hl'
      · rw [hm, freeListAdd_freeBlock]
        by_cases hq : q = p <;> simp [hq, hr, hnot]
  · by_cases hq : q = p
    · exact .inr ⟨o, freeListAdd_freeBlock.2 (.inl ⟨hq, rfl⟩)⟩
    · rcases hI.marks q with h | ⟨r, hr⟩
      · left
        show update st.blockOrder p o q = -1
        rw [update_of_ne hq]; exact h
      · exact .inr ⟨r, freeListAdd_freeBlock.2 (.inr ⟨hq, hr⟩)⟩
  · exact (hI.inPool q r (hblk q r hq)).congr rfl rfl
  · rcases freeListAdd_freeBlock.1 hq with ⟨rfl, rfl⟩ | ⟨hne, hq⟩
    · exact update_self ..
    · rw [update_of_ne hne]; exact hI.excl q r hq
  · -- the new block against an old one, in both orders
    rcases freeListAdd_freeBlock.1 hq with ⟨rfl, rfl⟩ | ⟨-, hf⟩
    · rcases freeListAdd_freeBlock.1 hq' with ⟨e, -⟩ | ⟨-, hf'⟩
      · exact buddy_ne _ _ e
      · exact hb hr hf'
    · rcases freeListAdd_freeBlock.1 hq' with ⟨e, rfl⟩ | ⟨-, hf'⟩
      · apply hb hr
        rw [← e, buddy_buddy]; exact hf
      · exact hI.buddies q r hf hr hf'

/-! ## Merging and splitting held blocks -/

theorem InPool.block_le (h : st.InPool p o) (hpool : PoolOk st) :
    p + 2 ^ o ≤ st.poolPages := by
  rcases hpool.pages with h0 | h0
  · have := h.lt; omega
  · have hlt := h.lt
    rw [h0] at hlt ⊢
    exact Dyadic.block_le h.aligned h.order hlt

/-- Held buddies may be accounted as the one block they make up. -/
theorem Inv.merge (hI : Inv st held)
    (hp : held p = some o) (hq : held (buddy p o) = some o) (ho : o < st.maxOrder) :
    Inv st (update (update (update held p none) (buddy p o) none)
      (min p (buddy p o)) (some (o + 1))) := by
  set b := buddy p o with hbdef
  set held' := update (update (update held p none) b none) (min p b) (some (o + 1))
    with hheld'
  have hpin := hI.inPool p o (.inr hp)
  have hbin := hI.inPool b o (.inr hq)
  have hbp : b ≠ p := buddy_ne p o
  have hcov : block (min p b) (o + 1) = block p o ∪ block b o := block_succ_eq hpin.aligned
  have hval : ∀ q r, held' q = some r → (q = min p b ∧ r = o + 1) ∨ (q ≠ p ∧ q ≠ b ∧ held q = some r) := by
    intro q r h
    rw [hheld', update_apply] at h
    split at h
    · rename_i e; cases h; exact .inl ⟨e, rfl⟩
    · rename_i hne
      rw [update_apply] at h
      split at h
      · cases h
      · rename_i hnb
        rw [update_apply] at h
        split at h
        · cases h
        · rename_i hnp; exact .inr ⟨hnp, hnb, h⟩
  have hmin : min p b = p ∨ min p b = b := by omega
  -- an old block other than the two is disjoint from their union
  have hold : ∀ q r, st.Blk held q r → q ≠ p → q ≠ b → Disjoint (block q r) (block (min p b) (o + 1)) := by
    intro q r h hnp hnb
    rw [hcov, Set.disjoint_union_right]
    exact ⟨hI.disj q r p o h (.inr hp) hnp, hI.disj q r b o h (.inr hq) hnb⟩
  have hfree : ∀ q r, st.FreeBlock q r → q ≠ p ∧ q ≠ b := by
    intro q r h
    have hn := hI.excl q r h
    refine ⟨?_, ?_⟩
    · rintro rfl; rw [hn] at hp; cases hp
    · rintro rfl; rw [hn] at hq; cases hq
  have hcase : ∀ q r, st.Blk held' q r →
      (q = min p b ∧ r = o + 1) ∨ (q ≠ p ∧ q ≠ b ∧ st.Blk held q r) := by
    rintro q r (h | h)
    · exact .inr ⟨(hfree q r h).1, (hfree q r h).2, .inl h⟩
    · rcases hval q r h with h | ⟨h1, h2, h3⟩
      · exact .inl h
      · exact .inr ⟨h1, h2, .inr h3⟩
  refine ⟨hI.pool, hI.lists, hI.marks, fun q r h => ?_, fun q r h => ?_, fun q r s t h1 h2 hne => ?_, hI.buddies⟩
  · rcases hcase q r h with ⟨rfl, rfl⟩ | ⟨-, -, h⟩
    · refine ⟨ho, min_buddy_dvd hpin.aligned, ?_⟩
      rcases hmin with e | e <;> rw [e]
      · exact hpin.lt
      · exact hbin.lt
    · exact hI.inPool q r h
  · obtain ⟨hnp, hnb⟩ := hfree q r h
    have hnm : q ≠ min p b := by rcases hmin with e | e <;> rw [e] <;> assumption
    rw [hheld', update_of_ne hnm, update_of_ne hnb, update_of_ne hnp]
    exact hI.excl q r h
  · rcases hcase q r h1 with ⟨rfl, rfl⟩ | ⟨h1a, h1b, h1⟩
    · rcases hcase s t h2 with ⟨rfl, rfl⟩ | ⟨h2a, h2b, h2⟩
      · exact absurd rfl hne
      · exact (hold s t h2 h2a h2b).symm
    · rcases hcase s t h2 with ⟨rfl, rfl⟩ | ⟨-, -, h2⟩
      · exact hold q r h1 h1a h1b
      · exact hI.disj q r s t h1 h2 hne

/-- A held block may be accounted as its two halves. -/
theorem Inv.split (hI : Inv st held)
    (hp : held p = some (o + 1)) :
    Inv st (update (update held p (some o)) (buddy p o) (some o)) := by
  set b := buddy p o with hbdef
  have hpin := hI.inPool p (o + 1) (.inr hp)
  have hbe : b = p + 2 ^ o := buddy_of_dvd_succ hpin.aligned
  have hal : 2 ^ o ∣ p := (pow_dvd_pow 2 (Nat.le_succ o)).trans hpin.aligned
  have hpos := Nat.two_pow_pos o
  have hcov : block p (o + 1) = block p o ∪ block b o := by
    have := block_succ_eq (o := o) hal
    rwa [← hbdef, hbe, min_eq_left (by omega), ← hbe] at this
  have hhalf : ∀ q, q = p ∨ q = b → block q o ⊆ block p (o + 1) := by
    rintro q (rfl | rfl)
    · rw [hcov]; exact Set.subset_union_left
    · rw [hcov]; exact Set.subset_union_right
  have hcase : ∀ q r, st.Blk (update (update held p (some o)) b (some o)) q r →
      ((q = p ∨ q = b) ∧ r = o) ∨ (q ≠ p ∧ q ≠ b ∧ st.Blk held q r) := by
    rintro q r (h | h)
    · refine .inr ⟨?_, ?_, .inl h⟩
      · rintro rfl; rw [hI.excl q r h] at hp; cases hp
      · -- a free block at the upper half would overlap the held one
        rintro rfl
        have hx : b ∈ block p (o + 1) := hhalf b (.inr rfl) (head_mem_block b o)
        have := hI.eq_of_mem (.inl h) (.inr hp) (head_mem_block b r) hx
        omega
    · rw [update_apply] at h
      split at h
      · rename_i e; cases h; exact .inl ⟨.inr e, rfl⟩
      · rename_i hnb
        rw [update_apply] at h
        split at h
        · rename_i e; cases h; exact .inl ⟨.inl e, rfl⟩
        · rename_i hnp; exact .inr ⟨hnp, hnb, .inr h⟩
  have hold : ∀ q r s, st.Blk held q r → q ≠ p → (s = p ∨ s = b) → Disjoint (block q r) (block s o) :=
    fun q r s h hne hs => (hI.disj q r p (o + 1) h (.inr hp) hne).mono_right (hhalf s hs)
  refine ⟨hI.pool, hI.lists, hI.marks, fun q r h => ?_, fun q r h => ?_, fun q r s t h1 h2 hne => ?_, hI.buddies⟩
  · rcases hcase q r h with ⟨hq, rfl⟩ | ⟨-, -, h⟩
    · refine ⟨by have := hpin.order; omega, ?_, ?_⟩
      · rcases hq with rfl | rfl
        · exact hal
        · exact buddy_dvd hal
      · have := hpin.block_le hI.pool
        rw [pow_succ] at this
        rcases hq with rfl | rfl <;> omega
    · exact hI.inPool q r h
  · rcases hcase q r (.inl h) with ⟨hq, rfl⟩ | ⟨hnp, hnb, -⟩
    · exfalso
      rcases hq with rfl | rfl
      · rw [hI.excl _ _ h] at hp; cases hp
      · have := hI.eq_of_mem (.inl h) (.inr hp) (head_mem_block b r) (hhalf b (.inr rfl) (head_mem_block b r))
        omega
    · rw [update_of_ne hnb, update_of_ne hnp]; exact hI.excl q r h
  · rcases hcase q r h1 with ⟨hq, rfl⟩ | ⟨h1a, -, h1'⟩
    · rcases hcase s t h2 with ⟨hs, rfl⟩ | ⟨h2a, -, h2'⟩
      · have hd := block_disjoint_buddy hal
        rcases hq with rfl | rfl <;> rcases hs with rfl | rfl
        · exact absurd rfl hne
        · exact hd
        · exact hd.symm
        · exact absurd rfl hne
      · exact (hold s t q h2' h2a hq).symm
    · rcases hcase s t h2 with ⟨hs, rfl⟩ | ⟨-, -, h2'⟩
      · exact hold q r s h1' h1a hs
      · exact hI.disj q r s t h1' h2' hne

/-! ## The loops -/

/-- The list operations leave the pool and the reference counts alone. -/
structure SamePool (st st' : PageAlloc) : Prop where
  memStart : st'.memStart = st.memStart
  memSize : st'.memSize = st.memSize
  maxOrder : st'.maxOrder = st.maxOrder
  poolPages : st'.poolPages = st.poolPages
  refcount : st'.refcount = st.refcount

theorem SamePool.refl (st : PageAlloc) : SamePool st st := ⟨rfl, rfl, rfl, rfl, rfl⟩

theorem SamePool.trans {a b c : PageAlloc} (h1 : SamePool a b) (h2 : SamePool b c) : SamePool a c :=
  ⟨h2.memStart.trans h1.memStart, h2.memSize.trans h1.memSize, h2.maxOrder.trans h1.maxOrder,
    h2.poolPages.trans h1.poolPages, h2.refcount.trans h1.refcount⟩

theorem Taken.samePool (h : Taken st st' p o) : SamePool st st' :=
  ⟨h.memStart, h.memSize, h.maxOrder, h.poolPages, h.refcount⟩

theorem freeListAdd_samePool (st : PageAlloc) (p o : Nat) : SamePool st (st.freeListAdd p o) :=
  ⟨rfl, rfl, rfl, rfl, rfl⟩

/-- Nothing else is held inside a held block. -/
theorem Inv.held_inside (hI : Inv st held)
    (hp : held p = some o) (hq : q ∈ block p o) (hne : q ≠ p) : held q = none := by
  by_contra h
  obtain ⟨r, hr⟩ := Option.ne_none_iff_exists'.1 h
  exact hne (hI.eq_of_mem (.inr hr) (.inr hp) (head_mem_block q r) hq)

/-- Cutting a held block down to order `k` frees the rest of it. -/
theorem splitBlock_spec (p k : Nat) : ∀ (o : Nat) (st : PageAlloc) (held : Nat → Option Nat),
    Inv st held → held p = some o → k ≤ o →
    Inv (splitBlock p k o st) (update held p (some k)) ∧ SamePool st (splitBlock p k o st) ∧
      (splitBlock p k o st).freePageSet ∪ block p k = st.freePageSet ∪ block p o
  | 0, st, held, hI, hp, hto => by
    obtain rfl : k = 0 := by omega
    refine ⟨?_, SamePool.refl st, rfl⟩
    rwa [update_eq_self_iff.2 hp.symm]
  | o + 1, st, held, hI, hp, hto => by
    unfold splitBlock
    split
    · rename_i hgt
      set b := buddy p o with hb
      have hin := hI.inPool p (o + 1) (.inr hp)
      have hbe : b = p + 2 ^ o := buddy_of_dvd_succ hin.aligned
      have hpos := Nat.two_pow_pos o
      have hbmem : b ∈ block p (o + 1) := by rw [mem_block, pow_succ]; omega
      have hheldb : held b = none := hI.held_inside hp hbmem (by omega)
      have hsplit := hI.split hp
      have hself : update (update held p (some o)) b (some o) b = some o := update_self ..
      have hrel := hsplit.release hself (fun _ hf => by
        rw [hb, buddy_buddy] at hf
        rw [hI.excl p o hf] at hp; cases hp)
      have heq : update (update (update held p (some o)) b (some o)) b none =
          update held p (some o) := by
        rw [update_idem, update_eq_self_iff, update_of_ne (by omega)]
        exact hheldb.symm
      rw [← hb, heq] at hrel
      obtain ⟨h1, h2, h3⟩ := splitBlock_spec p k o _ _ hrel (update_self ..) (by omega)
      rw [update_idem] at h1
      refine ⟨h1, (freeListAdd_samePool st b o).trans h2, ?_⟩
      have hcov : block p (o + 1) = block p o ∪ block b o := by
        have h := block_succ_eq (o := o) ((pow_dvd_pow 2 (Nat.le_succ o)).trans hin.aligned)
        rwa [← hb, hbe, min_eq_left (by omega), ← hbe] at h
      show (splitBlock p k o (st.freeListAdd b o)).freePageSet ∪ block p k = _
      rw [h3, freeListAdd_freePageSet (hsplit.held_not_free hself), hcov, Set.union_assoc,
        Set.union_comm (block b o)]
    · obtain rfl : k = o + 1 := by omega
      refine ⟨?_, SamePool.refl st, rfl⟩
      rwa [update_eq_self_iff.2 hp.symm]

/-- Coalescing a held block upwards frees exactly its pages. -/
theorem buddyFreeLoop_spec : ∀ (fuel : Nat) (st : PageAlloc) (held : Nat → Option Nat) (p o : Nat),
    Inv st held → held p = some o → fuel = st.maxOrder - o →
    Inv (buddyFreeLoop fuel st p o) (update held p none) ∧ SamePool st (buddyFreeLoop fuel st p o) ∧
      (buddyFreeLoop fuel st p o).freePageSet = st.freePageSet ∪ block p o
  | 0, st, held, p, o, hI, hp, hf => by
    have hadd := freeListAdd_freePageSet (o := o) (hI.held_not_free hp)
    exact ⟨hI.release hp fun ho => by omega, freeListAdd_samePool st p o, hadd⟩
  | fuel + 1, st, held, p, o, hI, hp, hf => by
    have hadd := freeListAdd_freePageSet (o := o) (hI.held_not_free hp)
    unfold buddyFreeLoop
    set b := buddy p o with hb
    have hxor : p ^^^ 2 ^ o = b := rfl
    simp only [hxor]
    split
    · -- the buddy lies outside the pool, so it is not free
      rename_i hge
      refine ⟨hI.release hp fun _ hfb => ?_, freeListAdd_samePool st p o, hadd⟩
      have := (hI.inPool _ _ (.inl hfb)).lt; omega
    · split
      · rename_i hne
        exact ⟨hI.release hp fun _ hfb => hne hfb, freeListAdd_samePool st p o, hadd⟩
      · rename_i hfree
        rw [not_not] at hfree
        have hbp : b ≠ p := buddy_ne p o
        have hfb : st.FreeBlock b o := hfree
        have hheldb := hI.excl b o hfb
        have htk := freeListRemove_taken hI hfb
        have hItk := hI.take hfb htk
        have hheldp : update held b (some o) p = some o := by
          rw [update_of_ne hbp.symm]; exact hp
        have hmerge := hItk.merge hheldp (update_self ..) (by rw [htk.maxOrder]; omega)
        rw [← hb] at hmerge
        have hmin : (if b < p then b else p) = min p b := by split <;> omega
        rw [hmin]
        obtain ⟨h1, h2, h3⟩ := buddyFreeLoop_spec fuel _ _ (min p b) (o + 1) hmerge (update_self ..)
          (by rw [htk.maxOrder]; omega)
        refine ⟨?_, htk.samePool.trans h2, ?_⟩
        · convert h1 using 1
          funext q
          simp only [update_apply]
          by_cases hqp : q = p
          · subst hqp; simp
          · by_cases hqb : q = b
            · subst hqb; simp [hbp, hheldb]
            · have hqm : q ≠ min p b := by rcases min_choice p b with e | e <;> rw [e] <;> assumption
              simp [hqp, hqb, hqm]
        · rw [h3, htk.freePageSet hI hfb, block_succ_eq (hI.inPool p o (.inr hp)).aligned]
          have hsub : block b o ⊆ st.freePageSet := fun x hx => ⟨b, o, hfb, hx⟩
          rw [Set.union_comm (block p o), ← Set.union_assoc, Set.sdiff_union_of_subset hsub]

theorem buddyFree_spec (hI : Inv st held)
    (hp : held p = some o) :
    Inv (st.buddyFree p o) (update held p none) ∧ SamePool st (st.buddyFree p o) ∧
      (st.buddyFree p o).freePageSet = st.freePageSet ∪ block p o :=
  buddyFreeLoop_spec _ st held p o hI hp rfl

/-! ## Reference counts and addresses -/

/-- The reference counts play no part in the invariant. -/
theorem Inv.withRefcount (hI : Inv st held) (rc : Nat → BitVec 32) :
    Inv { st with refcount := rc } held :=
  ⟨hI.pool.congr rfl rfl rfl rfl, hI.lists, hI.marks, fun p o h => (hI.inPool p o h).congr rfl rfl, hI.excl,
    hI.disj, hI.buddies⟩

/-- Nor do the words of pages that are not free. -/
theorem Inv.withNext (hI : Inv st held) {next : Nat → Option Nat}
    (h : ∀ p o, st.FreeBlock p o → next p = st.next p) : Inv { st with next := next } held := by
  refine ⟨hI.pool.congr rfl rfl rfl rfl, fun o => ?_, hI.marks, fun p o h => (hI.inPool p o h).congr rfl rfl,
    hI.excl, hI.disj, hI.buddies⟩
  obtain ⟨l, hl, hn, hm⟩ := hI.lists o
  exact ⟨l, hl.congr fun a ha => h a o ((hm a).1 ha), hn, hm⟩

theorem PoolOk.pages_le (h : PoolOk st) : st.poolPages ≤ 2 ^ 15 := by
  rcases h.pages with h0 | h0 <;> rw [h0]
  · exact Nat.zero_le _
  · exact Nat.pow_le_pow_right (by norm_num) h.order

theorem PoolOk.end_lt (h : PoolOk st) (hp : p < st.poolPages) :
    st.memStart + st.poolPages * pageSize ≤ virtMemEnd := by
  have := h.fits (by omega)
  rwa [h.size] at this

theorem addrToPfn_pfnToAddr (h : PoolOk st) (hp : p < st.poolPages) :
    st.addrToPfn (st.pfnToAddr p) = p := by
  have h1 := h.pages_le
  unfold addrToPfn pfnToAddr pageSize
  have e : st.memStart + p * 4096 + 2 ^ 64 - st.memStart = p * 4096 + 2 ^ 64 := by omega
  rw [e, Nat.add_mod_right, Nat.mod_eq_of_lt (by omega), Nat.mul_div_cancel _ (by norm_num)]

theorem pfnToAddr_pos (h : PoolOk st) (p : Nat) : st.pfnToAddr p ≠ 0 := by
  have := h.base
  unfold pfnToAddr kernelVirtBase at *
  omega

/-- A pool block passes the address check of `free_pages` exactly when the pool itself starts at
a multiple of the block's size: the check is on the absolute address. -/
theorem addrInPool_pfnToAddr (h : PoolOk st) (hp : st.InPool p k) :
    st.addrInPool (st.pfnToAddr p) k = true ↔ pageSize * 2 ^ k ∣ st.memStart := by
  have hle := hp.block_le h
  have hend := h.end_lt hp.lt
  have hbase := h.base
  have hsize := h.size
  have hsum : st.pfnToAddr p + pageSize * 2 ^ k ≤ st.memStart + st.memSize := by
    rw [hsize]
    unfold pfnToAddr
    calc st.memStart + p * pageSize + pageSize * 2 ^ k = st.memStart + (p + 2 ^ k) * pageSize := by ring
      _ ≤ st.memStart + st.poolPages * pageSize := by gcongr
  have hlt : st.pfnToAddr p + pageSize * 2 ^ k < 2 ^ 64 := by
    rw [hsize] at hsum
    unfold virtMemEnd kernelVirtBase physMemSize at hend
    omega
  have hge : st.memStart ≤ st.pfnToAddr p := by unfold pfnToAddr; omega
  have hdvd : pageSize * 2 ^ k ∣ p * pageSize := by
    rw [mul_comm pageSize]; exact Nat.mul_dvd_mul_right hp.aligned _
  unfold addrInPool
  simp only [Nat.mod_eq_of_lt hlt]
  rw [if_neg (by simp only [Bool.or_eq_true, decide_eq_true_eq]; omega), beq_iff_eq, ← Nat.dvd_iff_mod_eq_zero]
  unfold pfnToAddr
  exact (Nat.dvd_add_iff_left hdvd).symm

/-! ## The interface -/

/-- What a successful allocation of the block of order `k` at `p` does. -/
structure Allocated (st st' : PageAlloc) (held : Nat → Option Nat) (p k : Nat) : Prop where
  inv : Inv st' (update held p (some k))
  fresh : held p = none
  inPool : st.InPool p k
  memStart : st'.memStart = st.memStart
  memSize : st'.memSize = st.memSize
  maxOrder : st'.maxOrder = st.maxOrder
  poolPages : st'.poolPages = st.poolPages
  refcount : st'.refcount = update st.refcount p 1
  free : block p k ⊆ st.freePageSet
  pages : st'.freePageSet = st.freePageSet \ block p k

theorem allocTake_spec (hI : Inv st held)
    (hk : k ≤ o) (h : st.freeArea o = some p) :
    (st.allocTake k o).1 = some (st.pfnToAddr p) ∧ Allocated st (st.allocTake k o).2 held p k := by
  obtain ⟨hp, hpop, htk⟩ := freeListPop_taken hI h
  have hItk := hI.take hp htk
  have hin := hI.inPool p o (.inl hp)
  obtain ⟨h1, h2, h3⟩ := splitBlock_spec p k o _ _ hItk (update_self ..) hk
  rw [update_idem] at h1
  have hsame := htk.samePool.trans h2
  set st2 := splitBlock p k o (st.freeListPop o).2 with hst2
  have hmark : update st2.blockOrder p (-1) = st2.blockOrder := by
    rw [update_eq_self_iff]
    exact (h1.held_not_free (update_self ..)).symm
  have htake : st.allocTake k o =
      (some (st.pfnToAddr p), { st2 with refcount := update st2.refcount p 1 }) := by
    unfold allocTake
    simp only [hpop]
    rw [if_neg (by rw [htk.poolPages]; exact not_le.2 hin.lt)]
    rw [← hst2, hmark]
    unfold pfnToAddr
    rw [hsame.memStart]
  rw [htake]
  have hsub : block p k ⊆ block p o := by
    intro x hx
    rw [mem_block] at hx ⊢
    have := Nat.pow_le_pow_right (n := 2) (by norm_num) hk
    omega
  have hfree : block p o ⊆ st.freePageSet := fun x hx => ⟨p, o, hp, hx⟩
  refine ⟨rfl, h1.withRefcount _, hI.excl p o hp,
    ⟨hk.trans hin.order, (pow_dvd_pow 2 hk).trans hin.aligned, hin.lt⟩,
    hsame.memStart, hsame.memSize, hsame.maxOrder, hsame.poolPages, ?_, hsub.trans hfree, ?_⟩
  · show update st2.refcount p 1 = _
    rw [hsame.refcount]
  · show st2.freePageSet = _
    rw [htk.freePageSet hI hp, Set.sdiff_union_of_subset hfree] at h3
    rw [← h3, Set.union_sdiff_right]
    ext x
    refine ⟨fun hx => ⟨hx, ?_⟩, fun hx => hx.1⟩
    exact fun hx' => h1.held_disjoint (update_self ..) hx' hx

/-- The scan takes a block from the first non-empty list, and fails only when all are empty. -/
theorem allocScan_spec (hI : Inv st held) (k : Nat) :
    ∀ (fuel o : Nat), k ≤ o → o + fuel = st.maxOrder + 1 →
    (∃ p, (st.allocScan k fuel o).1 = some (st.pfnToAddr p) ∧ Allocated st (st.allocScan k fuel o).2 held p k) ∨
    (st.allocScan k fuel o = (none, st) ∧ ∀ p r, st.FreeBlock p r → r < o)
  | 0, o, hk, ho => by
    refine .inr ⟨rfl, fun p r hr => ?_⟩
    have := (hI.inPool p r (.inl hr)).order; omega
  | fuel + 1, o, hk, ho => by
    unfold allocScan
    split
    · rename_i hnone
      rcases allocScan_spec hI k fuel (o + 1) (by omega) (by omega) with h | ⟨h1, h2⟩
      · exact .inl h
      · refine .inr ⟨h1, fun p r hr => ?_⟩
        have hro : r ≠ o := by
          rintro rfl
          obtain ⟨l, hl, -, hm⟩ := hI.lists r
          have hl' : Chain st.next none l := hnone ▸ hl
          have hmem := (hm p).2 hr
          rw [hl'.eq_nil_iff.1 rfl] at hmem
          cases hmem
        have := h2 p r hr; omega
    · rename_i hsome
      obtain ⟨p, hp⟩ := Option.ne_none_iff_exists'.1 hsome
      exact .inl ⟨p, allocTake_spec hI hk hp⟩

theorem allocPages_some (hI : Inv st held) {order : Int} {a : Nat}
    (h : st.allocPages order = (some a, st')) :
    ∃ p k : Nat, order = k ∧ a = st.pfnToAddr p ∧ Allocated st st' held p k := by
  unfold allocPages at h
  split at h
  · rename_i hv
    simp only [orderValid, Bool.and_eq_true, decide_eq_true_eq] at hv
    rcases allocScan_spec hI order.toNat (st.maxOrder + 1 - order.toNat) order.toNat le_rfl (by omega) with
      ⟨p, h1, h2⟩ | ⟨h1, -⟩
    · rw [h] at h1 h2
      exact ⟨p, order.toNat, by omega, Option.some.inj h1, h2⟩
    · rw [h1] at h; cases h
  · cases h

theorem allocPages_none (hI : Inv st held) {order : Int}
    (h : st.allocPages order = (none, st')) :
    st' = st ∧ (st.orderValid order = true → ∀ p o, st.FreeBlock p o → (o : Int) < order) := by
  unfold allocPages at h
  split at h
  · rename_i hv
    simp only [orderValid, Bool.and_eq_true, decide_eq_true_eq] at hv
    rcases allocScan_spec hI order.toNat (st.maxOrder + 1 - order.toNat) order.toNat le_rfl (by omega) with
      ⟨p, h1, -⟩ | ⟨h1, h2⟩
    · rw [h] at h1; cases h1
    · rw [h] at h1; cases h1
      refine ⟨rfl, fun _ p o ho => ?_⟩
      have := h2 p o ho; omega
  · rename_i hv
    cases h
    exact ⟨rfl, fun h => absurd h hv⟩

/-- The checks of `free_pages` on a block of the pool. -/
theorem freePagesAccepts_block_iff (hpool : PoolOk st) (hin : st.InPool p k) :
    st.freePagesAccepts (st.pfnToAddr p) k = true ↔
      pageSize * 2 ^ k ∣ st.memStart ∧ st.blockOrder p < 0 ∧ (st.refcount p).toInt ≤ 1 := by
  unfold freePagesAccepts
  simp only [addrToPfn_pfnToAddr hpool hin.lt, Int.toNat_natCast, Bool.and_eq_true, decide_eq_true_eq,
    addrInPool_pfnToAddr hpool hin, pfnInPool, orderValid]
  have h1 := hin.order
  have h2 := hin.lt
  have h3 := pfnToAddr_pos hpool p
  constructor
  · rintro ⟨⟨⟨-, h4⟩, h5⟩, h6⟩
    exact ⟨h4, h5, h6⟩
  · rintro ⟨h4, h5, h6⟩
    exact ⟨⟨⟨⟨⟨h3, by omega, by omega⟩, h2⟩, h4⟩, h5⟩, h6⟩

/-- On an outstanding block they come down to two: the absolute alignment of the pool, and an unshared head page. -/
theorem freePagesAccepts_iff (hI : Inv st held) (hp : held p = some k) :
    st.freePagesAccepts (st.pfnToAddr p) k = true ↔ pageSize * 2 ^ k ∣ st.memStart ∧ (st.refcount p).toInt ≤ 1 := by
  rw [freePagesAccepts_block_iff hI.pool (hI.inPool p k (.inr hp)), hI.held_not_free hp]
  simp

/-- What handing the outstanding block of order `k` at `p` back does. -/
structure Freed (st st' : PageAlloc) (held : Nat → Option Nat) (p k : Nat) : Prop where
  inv : Inv st' (update held p none)
  memStart : st'.memStart = st.memStart
  memSize : st'.memSize = st.memSize
  maxOrder : st'.maxOrder = st.maxOrder
  poolPages : st'.poolPages = st.poolPages
  refcount : st'.refcount = update st.refcount p 0
  pages : st'.freePageSet = st.freePageSet ∪ block p k

theorem freePages_freed (hI : Inv st held)
    (hp : held p = some k) (ha : st.freePagesAccepts (st.pfnToAddr p) k = true) :
    Freed st (st.freePages (st.pfnToAddr p) k) held p k := by
  have hin := hI.inPool p k (.inr hp)
  obtain ⟨h1, h2, h3⟩ := buddyFree_spec (hI.withRefcount (update st.refcount p 0)) hp
  have hfree : st.freePages (st.pfnToAddr p) k =
      { st with refcount := update st.refcount p 0 }.buddyFree p k := by
    unfold freePages
    rw [if_pos ha, addrToPfn_pfnToAddr hI.pool hin.lt, Int.toNat_natCast]
  rw [hfree]
  exact ⟨h1, h2.memStart, h2.memSize, h2.maxOrder, h2.poolPages, h2.refcount, h3⟩

theorem freePages_refused {addr : Nat} {order : Int}
    (ha : st.freePagesAccepts addr order = false) : st.freePages addr order = st := by
  unfold freePages; rw [ha]; rfl

theorem putPage_freed (hI : Inv st held)
    (hp : held p = some 0) (ha : st.putPageFrees p = true) : Freed st (st.putPage p) held p 0 := by
  obtain ⟨h1, h2, h3⟩ := buddyFree_spec (hI.withRefcount (update st.refcount p (st.refcount p - 1))) hp
  have hput : st.putPage p =
      { st with refcount := update st.refcount p (st.refcount p - 1) }.buddyFree p 0 := by
    unfold putPage; rw [if_pos ha]
  have hzero : st.refcount p - 1 = 0 := by
    simp only [putPageFrees, Bool.and_eq_true, decide_eq_true_eq] at ha; exact ha.1
  rw [hput]
  rw [hzero] at h1 h2 h3 ⊢
  exact ⟨h1, h2.memStart, h2.memSize, h2.maxOrder, h2.poolPages, h2.refcount, h3⟩

theorem putPage_kept (ha : st.putPageFrees p = false) :
    st.putPage p = { st with refcount := update st.refcount p (st.refcount p - 1) } := by
  unfold putPage; rw [ha]; rfl

end MiniOs.Mm.PageAlloc
