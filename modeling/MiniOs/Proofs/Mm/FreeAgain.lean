/-
Freeing a block twice: the second `free_pages` changes nothing exactly if the first page of the block still heads
a free block or has further references. A block that was merged with its lower buddy has lost its mark, and is
put on a free list again.
-/
import MiniOs.Proofs.Mm.PageClients

namespace MiniOs.Mm

open Library Library.Dyadic Function

namespace PageAlloc

variable {st : PageAlloc} {p k : Nat}

/-- Marks of other blocks are only taken away. -/
theorem freeListRemove_mark (st : PageAlloc) (b o x : Nat) :
    (st.freeListRemove b o).blockOrder x = st.blockOrder x ∨ (st.freeListRemove b o).blockOrder x = -1 := by
  unfold freeListRemove
  split
  · exact .inl rfl
  · simp only [update_apply]
    split
    · exact .inr rfl
    · exact .inl rfl

/-- Coalescing raises a mark: that of the block it ends with. -/
theorem buddyFreeLoop_raises (mark : Nat → Int) : ∀ (fuel : Nat) (st : PageAlloc) (p o : Nat),
    (∀ x, st.blockOrder x = mark x ∨ st.blockOrder x = -1) → mark p < o →
    ∃ x, mark x < (buddyFreeLoop fuel st p o).blockOrder x := by
  have hadd : ∀ (st : PageAlloc) (p o : Nat), mark p < o → ∃ x, mark x < (st.freeListAdd p o).blockOrder x :=
    fun st p o h => ⟨p, by simpa [freeListAdd] using h⟩
  intro fuel
  induction fuel with
  | zero => exact fun st p o _ h => hadd st p o h
  | succ fuel ih =>
    intro st p o hst h
    unfold buddyFreeLoop
    dsimp only
    split_ifs with hout hne hlt
    · exact hadd st p o h
    · exact hadd st p o h
    all_goals
      have hold : mark (p ^^^ 2 ^ o) = o := by
        rcases hst (p ^^^ 2 ^ o) with he | he <;> omega
      refine ih _ _ _ (fun x => ?_) (by push_cast; omega)
      rcases freeListRemove_mark st (p ^^^ 2 ^ o) o x with he | he
      · rw [he]
        exact hst x
      · exact .inr he

/-- A call that is accepted changes the marks. -/
theorem freePages_eq_self_iff {addr : Nat} {order : Int} :
    st.freePages addr order = st ↔ st.freePagesAccepts addr order = false := by
  refine ⟨fun h => ?_, freePages_refused⟩
  by_contra hne
  have hacc := Bool.eq_true_of_not_eq_false hne
  have hmark : st.blockOrder (st.addrToPfn addr) < order.toNat := by
    have := hacc
    unfold freePagesAccepts at this
    simp only [Bool.and_eq_true, decide_eq_true_eq] at this
    omega
  unfold freePages at h
  rw [if_pos hacc] at h
  obtain ⟨x, hx⟩ := buddyFreeLoop_raises st.blockOrder (st.maxOrder - order.toNat)
    { st with refcount := update st.refcount (st.addrToPfn addr) 0 } _ _ (fun _ => .inl rfl) hmark
  have hsame := congrFun (congrArg PageAlloc.blockOrder h) x
  unfold buddyFree at hsame
  dsimp only at hsame
  omega

theorem InPool.of_pages {st' : PageAlloc} (h : st.InPool p k) (hpool : PoolOk st) (hpool' : PoolOk st')
    (hpages : st'.poolPages = st.poolPages) : st'.InPool p k := by
  have hlt := h.lt
  have heq : st'.maxOrder = st.maxOrder := by
    rcases hpool.pages with h0 | h1
    · omega
    rcases hpool'.pages with h0 | h2
    · omega
    exact Nat.pow_right_injective (Nat.le_refl 2) (h2.symm.trans (hpages.trans h1))
  exact ⟨heq ▸ h.order, h.aligned, hpages ▸ h.lt⟩

end PageAlloc

namespace PageSys

open PageAlloc

/-- A block that `free_pages` has taken back, whatever was done since: freeing it once more changes nothing exactly if
its first page still heads a free block, or has further references. -/
theorem free_again_eq_self_iff (start : AllocStart) (ops later : List Op) (s t u : PageSys) (p k : Nat)
    (h : run step (init start) ops = some s) (hacc : s.pa.freePagesAccepts (s.pa.pfnToAddr p) k = true)
    (hfree : s.step (.free p k) = some t) (hlater : run step t later = some u) :
    u.pa.freePages (u.pa.pfnToAddr p) k = u.pa ↔ (∃ o, u.pa.FreeBlock p o) ∨ 1 < (u.pa.refcount p).toInt := by
  obtain ⟨hI, -⟩ := run_keeps (init_inv start) h
  obtain ⟨hJ, hstart, hpages⟩ := run_keeps hI (run_cons.2 ⟨t, hfree, hlater⟩)
  have hheld : s.held p = some k := by
    by_contra hne
    simp [step, hne] at hfree
  have hin := hI.inPool p k (.inr hheld)
  have hin' := hin.of_pages hI.pool hJ.pool hpages
  have hdvd := ((freePagesAccepts_block_iff hI.pool hin).1 hacc).1
  rw [freePages_eq_self_iff, ← Bool.not_eq_true, freePagesAccepts_block_iff hJ.pool hin', hstart]
  constructor
  · intro hnot
    rcases hJ.marks p with hm | hm
    · exact .inr (lt_of_not_ge fun hle => hnot ⟨hdvd, by omega, hle⟩)
    · exact .inl hm
  · rintro (⟨o, ho⟩ | hr) ⟨-, hm, hle⟩
    · unfold FreeBlock at ho
      omega
    · omega

/-- An image that leaves two pages. -/
def smallStart : AllocStart := ⟨0xffff800087ffe000, by decide, by decide⟩

theorem free_again_of_head : ∃ s t, run step (init smallStart) [.alloc 0] = some s ∧ s.step (.free 0 0) = some t ∧
    t.pa.freePages (t.pa.pfnToAddr 0) 0 = t.pa := by
  have h : ((run step (init smallStart) [.alloc 0]).bind fun s => (s.step (.free 0 0)).map fun t =>
      (s.pa.freePagesAccepts (s.pa.pfnToAddr 0) 0, t.pa.blockOrder 0)) = some (true, 1) := by decide +kernel
  obtain ⟨s, hs, hmap⟩ := Option.bind_eq_some_iff.1 h
  obtain ⟨t, ht, he⟩ := Option.map_eq_some_iff.1 hmap
  obtain ⟨hacc, hmark⟩ := Prod.mk.inj he
  exact ⟨s, t, hs, ht, (free_again_eq_self_iff smallStart [.alloc 0] [] s t t 0 0 hs hacc ht rfl).2 (.inl ⟨1, hmark⟩)⟩

/-- The upper one of two pages, freed twice: after the first time it is part of the block at the lower page, the
second time it gets a mark and a list entry of its own. -/
theorem free_again_of_upper : ∃ s t, run step (init smallStart) [.alloc 0, .alloc 0, .free 0 0] = some s ∧
    s.step (.free 1 0) = some t ∧ t.pa.blockOrder 1 = -1 ∧ (t.pa.freePages (t.pa.pfnToAddr 1) 0).blockOrder 1 = 0 ∧
    t.pa.freePages (t.pa.pfnToAddr 1) 0 ≠ t.pa := by
  have h : ((run step (init smallStart) [.alloc 0, .alloc 0, .free 0 0]).bind fun s => (s.step (.free 1 0)).map fun t =>
      (t.pa.blockOrder 1, (t.pa.freePages (t.pa.pfnToAddr 1) 0).blockOrder 1)) = some (-1, 0) := by decide +kernel
  obtain ⟨s, hs, hmap⟩ := Option.bind_eq_some_iff.1 h
  obtain ⟨t, ht, he⟩ := Option.map_eq_some_iff.1 hmap
  obtain ⟨hbefore, hafter⟩ := Prod.mk.inj he
  refine ⟨s, t, hs, ht, hbefore, hafter, fun heq => ?_⟩
  rw [heq, hbefore] at hafter
  cases hafter

end PageSys

end MiniOs.Mm
