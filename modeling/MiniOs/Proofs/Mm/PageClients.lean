/-
The buddy allocator under its clients: in every state a run reaches, the free and the outstanding
blocks partition part of the pool and the three representations of the free blocks agree. A block
just allocated and freed again with its order comes back exactly when the pool start is a multiple
of the block's size.
-/
import MiniOs.Mm.PageClients
import MiniOs.Proofs.Mm.PageAlloc
import MiniOs.Library.Run

namespace MiniOs.Mm

open Library Library.Dyadic Function

/-! ## Initialisation -/

variable {held : Nat → Option Nat} {st : PageAlloc} {k p : Nat}

namespace PageAlloc

theorem Inv.empty (hpool : PoolOk st) (harea : ∀ o, st.freeArea o = none)
    (hmark : ∀ p, st.blockOrder p = -1) : Inv st fun _ => none := by
  have hnot : ∀ p o, ¬ st.FreeBlock p o := fun p o h => by
    unfold FreeBlock at h; rw [hmark] at h; omega
  have hblk : ∀ p o, ¬ st.Blk (fun _ => none) p o := by
    rintro p o (h | h)
    · exact hnot p o h
    · cases h
  refine ⟨hpool, fun o => ⟨[], harea o, List.nodup_nil, fun p => ?_⟩, fun p => .inl (hmark p),
    fun p o h => absurd h (hblk p o), fun p o h => absurd h (hnot p o), fun p o _ _ h => absurd h (hblk p o),
    fun p o h => absurd h (hnot p o)⟩
  simp [hnot]

theorem Inv.whole (hI : Inv st fun _ => none) (hmark : ∀ p, st.blockOrder p = -1)
    (hpages : st.poolPages ≠ 0) :
    Inv st (update (fun _ => none) 0 (some st.maxOrder)) := by
  have hnot : ∀ p o, ¬ st.FreeBlock p o := fun p o h => by
    unfold FreeBlock at h; rw [hmark] at h; omega
  have hblk : ∀ p o, st.Blk (update (fun _ => none) 0 (some st.maxOrder)) p o → p = 0 ∧ o = st.maxOrder := by
    rintro p o (h | h)
    · exact absurd h (hnot p o)
    · rw [update_apply] at h
      split at h
      · rename_i e; exact ⟨e, (Option.some.inj h).symm⟩
      · cases h
  refine ⟨hI.pool, hI.lists, hI.marks, fun p o h => ?_, fun p o h => absurd h (hnot p o),
    fun p o q r h1 h2 hne => ?_, hI.buddies⟩
  · obtain ⟨rfl, rfl⟩ := hblk p o h
    exact ⟨le_rfl, dvd_zero _, Nat.pos_of_ne_zero hpages⟩
  · exact absurd ((hblk p o h1).1.trans (hblk q r h2).1.symm) hne

theorem Inv.ofWhole (hpool : PoolOk st) (harea : ∀ o, st.freeArea o = none)
    (hmark : ∀ p, st.blockOrder p = -1) (hpages : st.poolPages ≠ 0) :
    Inv (st.freeListAdd 0 st.maxOrder) fun _ => none := by
  have hwhole := (Inv.empty hpool harea hmark).whole hmark hpages
  have hrel := hwhole.release (update_self ..) fun h => absurd h (lt_irrefl _)
  rwa [update_idem, update_eq_self_iff.2 rfl] at hrel

theorem pageAlignUp_spec (start : AllocStart) :
    pageSize ∣ pageAlignUp start.addr ∧ kernelVirtBase ≤ pageAlignUp start.addr := by
  have h1 := start.base
  have h2 := start.lt
  unfold pageAlignUp pageSize at *
  refine ⟨Dvd.intro_left _ rfl, ?_⟩
  rw [Nat.mod_eq_of_lt (by omega)]
  omega

theorem pageAllocInit_inv (start : AllocStart) : Inv (pageAllocInit start.addr) fun _ => none := by
  obtain ⟨ha, hb⟩ := pageAlignUp_spec start
  have hempty := fun (st : PageAlloc) (h : st.poolPages = 0 ∧ st.memSize = 0 ∧ st.maxOrder = 0 ∧
      st.memStart = pageAlignUp start.addr) => (⟨h.2.2.2 ▸ ha, h.2.2.2 ▸ hb, by rw [h.1, h.2.1]; rfl,
      fun h0 => absurd h.1 h0, by rw [h.2.2.1]; omega, .inl h.1⟩ : PoolOk st)
  unfold pageAllocInit
  simp only
  split
  · exact Inv.empty (hempty _ ⟨rfl, rfl, rfl, rfl⟩) (fun _ => rfl) fun _ => rfl
  · rename_i hlt
    split
    · exact Inv.empty (hempty _ ⟨rfl, rfl, rfl, rfl⟩) (fun _ => rfl) fun _ => rfl
    · rename_i hne
      set n := (virtMemEnd - pageAlignUp start.addr) / pageSize with hn
      have hself : 2 ^ n.log2 ≤ n := Nat.log2_self_le hne
      have hpool : 2 ^ n.log2 * pageSize ≤ virtMemEnd - pageAlignUp start.addr :=
        (Nat.mul_le_mul_right _ hself).trans (Nat.div_mul_le_self _ _)
      have hfits : pageAlignUp start.addr + 2 ^ n.log2 * pageSize ≤ virtMemEnd := by omega
      have hn15 : n < 2 ^ 16 := by
        have : n ≤ physMemSize / pageSize := Nat.div_le_div_right (by unfold virtMemEnd; omega)
        exact this.trans_lt (by decide)
      have hlog : n.log2 < 16 := (Nat.log2_lt hne).2 hn15
      exact Inv.ofWhole ⟨ha, hb, rfl, fun _ => hfits, Nat.le_of_lt_succ hlog, .inr rfl⟩
        (fun _ => rfl) (fun _ => rfl) (by show 2 ^ n.log2 ≠ 0; positivity)

/-! ## The safety of a state -/

/-- `p` is a node of the list `free_area[o]`. -/
def OnFreeList (st : PageAlloc) (o p : Nat) : Prop := ∃ l, (st.freeList o).Holds l ∧ p ∈ l

/-- What the clients of the allocator rely on. -/
structure Safe (st : PageAlloc) (held : Nat → Option Nat) : Prop where
  /-- the lists end, without a node twice -/
  lists : ∀ o, ∃ l, (st.freeList o).Holds l ∧ l.Nodup
  /-- the marks say what is on the lists, and nothing else -/
  marks : ∀ (p : Nat) (m : Int), st.blockOrder p = m ∧ 0 ≤ m ↔ ∃ o : Nat, m = o ∧ st.OnFreeList o p
  freeInPool : ∀ p o, st.OnFreeList o p → o ≤ st.maxOrder ∧ block p o ⊆ {x | x < st.poolPages}
  heldInPool : ∀ p o, held p = some o → o ≤ st.maxOrder ∧ block p o ⊆ {x | x < st.poolPages}
  freeDisjoint : ∀ p o q r, st.OnFreeList o p → st.OnFreeList r q → (p, o) ≠ (q, r) →
    Disjoint (block p o) (block q r)
  heldDisjoint : ∀ p o q r, held p = some o → held q = some r → (p, o) ≠ (q, r) → Disjoint (block p o) (block q r)
  apart : ∀ p o q r, st.OnFreeList o p → held q = some r → Disjoint (block p o) (block q r)
  aligned : ∀ p o, st.OnFreeList o p → 2 ^ o ∣ p
  buddies : ∀ p o, o < st.maxOrder → st.OnFreeList o p → ¬ st.OnFreeList o (buddy p o)

theorem Inv.onFreeList (hI : Inv st held) {o : Nat} :
    st.OnFreeList o p ↔ st.FreeBlock p o := by
  obtain ⟨l, hl, -, hm⟩ := hI.lists o
  rw [← hm]
  constructor
  · rintro ⟨m, hm', hp⟩
    rwa [hl.unique hm']
  · exact fun hp => ⟨l, hl, hp⟩

theorem Inv.inside (hI : Inv st held) {o : Nat} (h : st.Blk held p o) :
    o ≤ st.maxOrder ∧ block p o ⊆ {x | x < st.poolPages} := by
  have hin := hI.inPool p o h
  refine ⟨hin.order, fun x hx => ?_⟩
  have := hin.block_le hI.pool
  rw [mem_block] at hx
  show x < _
  omega

theorem Inv.safe (hI : Inv st held) : Safe st held := by
  refine ⟨fun o => ?_, fun p m => ?_, fun p o h => ?_, fun p o h => hI.inside (.inr h), fun p o q r h1 h2 hne => ?_,
    fun p o q r h1 h2 hne => ?_, fun p o q r h1 h2 => ?_, fun p o h => ?_, fun p o ho h => ?_⟩
  · obtain ⟨l, hl, hn, -⟩ := hI.lists o
    exact ⟨l, hl, hn⟩
  · constructor
    · rintro ⟨rfl, h0⟩
      rcases hI.marks p with h | ⟨o, ho⟩
      · omega
      · exact ⟨o, ho, hI.onFreeList.2 ho⟩
    · rintro ⟨o, rfl, ho⟩
      exact ⟨hI.onFreeList.1 ho, Int.natCast_nonneg o⟩
  · exact hI.inside (.inl (hI.onFreeList.1 h))
  · rw [hI.onFreeList] at h1 h2
    refine hI.disj p o q r (.inl h1) (.inl h2) ?_
    rintro rfl
    exact hne (by rw [h1.unique h2])
  · refine hI.disj p o q r (.inr h1) (.inr h2) ?_
    rintro rfl
    rw [h1] at h2
    exact hne (by rw [Option.some.inj h2])
  · rw [hI.onFreeList] at h1
    refine hI.disj p o q r (.inl h1) (.inr h2) ?_
    rintro rfl
    rw [hI.excl p o h1] at h2; cases h2
  · exact (hI.inPool p o (.inl (hI.onFreeList.1 h))).aligned
  · rw [hI.onFreeList] at h ⊢
    exact hI.buddies p o h ho

end PageAlloc

/-! ## Runs -/

namespace PageSys

open PageAlloc

/-- What a call by the clients of `s.held` keeps, beside blocks `mine` that others hold: the
invariant, the other blocks and their reference counts, and where the pool lies. -/
structure Framed (s s' : PageSys) (mine : Nat → Option Nat) : Prop where
  inv : Inv s'.pa (joinHeld s'.held mine)
  apart : ∀ p, s'.held p = none ∨ mine p = none
  refcount : ∀ p, mine p ≠ none → s'.pa.refcount p = s.pa.refcount p
  memStart : s'.pa.memStart = s.pa.memStart
  memSize : s'.pa.memSize = s.pa.memSize
  poolPages : s'.pa.poolPages = s.pa.poolPages

section Frame

variable {s s' : PageSys} {mine : Nat → Option Nat} {v : Option Nat}

theorem joinHeld_update (hp : mine p = none) :
    joinHeld (update held p v) mine = update (joinHeld held mine) p v := by
  funext q
  by_cases hq : q = p
  · subst hq; simp [joinHeld, hp]
  · simp [joinHeld, hq]

theorem joinHeld_update_right {env held : Nat → Option Nat} (hp : env p = none) :
    joinHeld env (update held p v) = update (joinHeld env held) p v := by
  funext q
  by_cases e : q = p
  · subst e; simp [joinHeld, hp]
  · simp [joinHeld, e]

theorem apart_update (hd : ∀ q, held q = none ∨ mine q = none)
    (hp : mine p = none) (q : Nat) : update held p v q = none ∨ mine q = none := by
  by_cases hq : q = p
  · subst hq; exact .inr hp
  · rw [update_of_ne hq]; exact hd q

theorem mine_of_held (hd : ∀ q, held q = none ∨ mine q = none)
    (hp : held p = some k) : mine p = none ∧ joinHeld held mine p = some k := by
  have hm : mine p = none := (hd p).resolve_left (by rw [hp]; exact Option.some_ne_none k)
  exact ⟨hm, by simp [joinHeld, hp]⟩

theorem refcount_update {rc : Nat → BitVec 32} {v : BitVec 32} (hp : mine p = none) (q : Nat)
    (hq : mine q ≠ none) : update rc p v q = rc q := by
  refine update_of_ne ?_ ..
  rintro rfl
  exact hq hp

variable (hI : Inv s.pa (joinHeld s.held mine)) (hd : ∀ p, s.held p = none ∨ mine p = none)
include hd

/-- The block at `p` comes or goes. -/
theorem framed_update {pa : PageAlloc} {rc : BitVec 32} (hm : mine p = none)
    (hinv : Inv pa (update (joinHeld s.held mine) p v))
    (hrc : pa.refcount = update s.pa.refcount p rc) (hstart : pa.memStart = s.pa.memStart)
    (hsize : pa.memSize = s.pa.memSize) (hpool : pa.poolPages = s.pa.poolPages) :
    Framed s { s with pa := pa, held := update s.held p v } mine := by
  refine ⟨?_, apart_update hd hm, fun q hq => ?_, hstart, hsize, hpool⟩
  · rw [joinHeld_update hm]
    exact hinv
  · rw [hrc]
    exact refcount_update hm q hq

include hI

theorem step_alloc_framed {order : Int} (h : s.step (.alloc order) = some s') : Framed s s' mine := by
  unfold step at h
  simp only at h
  split at h
  · rename_i pa hpa
    cases h
    obtain ⟨rfl, -⟩ := allocPages_none hI hpa
    exact ⟨hI, hd, fun _ _ => rfl, rfl, rfl, rfl⟩
  · rename_i addr pa hpa
    cases h
    obtain ⟨p, k, rfl, rfl, hal⟩ := allocPages_some hI hpa
    have hpfn : pa.addrToPfn (s.pa.pfnToAddr p) = p := by
      have hlt : p < pa.poolPages := by rw [hal.poolPages]; exact hal.inPool.lt
      have := addrToPfn_pfnToAddr hal.inv.pool hlt
      rwa [pfnToAddr, hal.memStart] at this
    obtain ⟨-, hm⟩ : s.held p = none ∧ mine p = none := by simpa [joinHeld] using hal.fresh
    simp only [hpfn, Int.toNat_natCast]
    exact framed_update hd hm hal.inv hal.refcount hal.memStart hal.memSize hal.poolPages

theorem step_free_framed (h : s.step (.free p k) = some s') : Framed s s' mine := by
  unfold step at h
  simp only at h
  split at h
  · rename_i hp
    cases h
    obtain ⟨hm, hj⟩ := mine_of_held hd hp
    by_cases ha : s.pa.freePagesAccepts (s.pa.pfnToAddr p) k = true
    · simp only [if_pos ha]
      have hf := freePages_freed hI hj ha
      exact framed_update hd hm hf.inv hf.refcount hf.memStart hf.memSize hf.poolPages
    · simp only [if_neg ha, freePages_refused (Bool.eq_false_of_not_eq_true ha)]
      exact ⟨hI, hd, fun _ _ => rfl, rfl, rfl, rfl⟩
  · cases h

theorem step_put_framed (h : s.step (.put p) = some s') : Framed s s' mine := by
  unfold step at h
  simp only at h
  split at h
  · rename_i hp
    cases h
    obtain ⟨hm, hj⟩ := mine_of_held hd hp
    by_cases ha : s.pa.putPageFrees p = true
    · simp only [if_pos ha]
      have hf := putPage_freed hI hj ha
      exact framed_update hd hm hf.inv hf.refcount hf.memStart hf.memSize hf.poolPages
    · simp only [if_neg ha, putPage_kept (Bool.eq_false_of_not_eq_true ha)]
      exact ⟨hI.withRefcount _, hd, fun q hq => refcount_update hm q hq, rfl, rfl, rfl⟩
  · cases h

theorem step_store_framed {i : Nat} {w : Option Nat} (h : s.step (.store p k i w) = some s') : Framed s s' mine := by
  unfold step at h
  simp only at h
  split at h
  · rename_i hp
    cases h
    refine ⟨hI.withNext fun q o hq => update_of_ne ?_ .., hd, fun _ _ => rfl, rfl, rfl, rfl⟩
    -- a page of a held block heads no free block
    rintro rfl
    have hx : p + i ∈ block p k := by rw [mem_block]; omega
    exact hI.held_disjoint (mine_of_held hd hp.1).2 hx ⟨_, o, hq, head_mem_block _ o⟩
  · cases h

/-- One call, beside blocks of others; a reference is not taken on one of those. -/
theorem step_framed {op : Op} (hget : ∀ p, op = .get p → mine p = none) (h : s.step op = some s') :
    Framed s s' mine := by
  cases op with
  | alloc order => exact step_alloc_framed hI hd h
  | free p k => exact step_free_framed hI hd h
  | get p =>
    cases h
    exact ⟨hI.withRefcount _, hd, fun q hq => refcount_update (hget p rfl) q hq, rfl, rfl, rfl⟩
  | put p => exact step_put_framed hI hd h
  | store p k i w => exact step_store_framed hI hd h

theorem ownStep_framed {op : Op} (h : s.ownStep op = some s') : Framed s s' mine := by
  cases op with
  | get p =>
    unfold ownStep at h
    simp only at h
    split at h
    · cases h
    · rename_i hp
      refine step_framed hI hd (fun q hq => ?_) h
      cases hq
      exact (hd p).resolve_left hp
  | alloc order => exact step_alloc_framed hI hd h
  | free p k => exact step_free_framed hI hd h
  | put p => exact step_put_framed hI hd h
  | store p k i w => exact step_store_framed hI hd h

end Frame

theorem init_inv (start : AllocStart) : Inv (init start).pa (init start).held := pageAllocInit_inv start

theorem init_memStart (start : AllocStart) : (init start).pa.memStart = pageAlignUp start.addr := by
  unfold init pageAllocInit
  simp only
  split
  · rfl
  · split <;> rfl

theorem run_keeps {ops : List Op} {s t : PageSys} (hI : Inv s.pa s.held) (h : run step s ops = some t) :
    Inv t.pa t.held ∧ t.pa.memStart = s.pa.memStart ∧ t.pa.poolPages = s.pa.poolPages := by
  refine run_invariant (P := fun t => Inv t.pa t.held ∧ t.pa.memStart = s.pa.memStart ∧ t.pa.poolPages = s.pa.poolPages)
    (fun s op s' hs hstep => ?_) ⟨hI, rfl, rfl⟩ h
  have hnone : ∀ held : Nat → Option Nat, joinHeld held (fun _ => none) = held := fun held => by
    funext p; simp [joinHeld]
  have hbefore : Inv s.pa (joinHeld s.held fun _ => none) := by rw [hnone]; exact hs.1
  have hf := step_framed hbefore (fun _ => .inr rfl) (fun _ _ => rfl) hstep
  have hinv := hf.inv
  rw [hnone] at hinv
  exact ⟨hinv, hf.memStart.trans hs.2.1, hf.poolPages.trans hs.2.2⟩

theorem run_kept {start : AllocStart} {ops : List Op} {s : PageSys} (h : run step (init start) ops = some s) :
    Inv s.pa s.held ∧ s.pa.memStart = pageAlignUp start.addr := by
  obtain ⟨hI, hm, -⟩ := run_keeps (init_inv start) h
  exact ⟨hI, hm.trans (init_memStart start)⟩

/-- After any sequence of client calls the state is safe, and `alloc_pages` refuses a valid order
only when no block of that order or larger is free. -/
theorem run_safe (start : AllocStart) (ops : List Op) (s : PageSys) (h : run step (init start) ops = some s) :
    Safe s.pa s.held ∧
      ∀ order, s.pa.orderValid order = true → (s.pa.allocPages order).1 = none →
        ∀ (p o : Nat), s.pa.OnFreeList o p → (o : Int) < order := by
  have hI := (run_kept h).1
  refine ⟨hI.safe, fun order hv hn p o hp => ?_⟩
  have hnone : s.pa.allocPages order = (none, (s.pa.allocPages order).2) := by rw [← hn]
  exact (allocPages_none hI hnone).2 hv p o (hI.onFreeList.1 hp)

/-- An image whose heap starts on an odd page. -/
def oddStart : AllocStart := ⟨0xffff800080301000, by decide, by decide⟩

theorem run_safe_of_sample :
    ∃ s, run step (init oddStart) [.alloc 0, .alloc 1, .get 0, .store 2 1 1 (some 7), .put 0, .put 0,
      .free 2 1] = some s ∧ Safe s.pa s.held := by
  have h : (run step (init oddStart)
      [.alloc 0, .alloc 1, .get 0, .store 2 1 1 (some 7), .put 0, .put 0, .free 2 1]).isSome = true := by decide +kernel
  obtain ⟨s, hs⟩ := Option.isSome_iff_exists.1 h
  exact ⟨s, hs, (run_safe oddStart _ s hs).1⟩

/-! ## Allocating a block and freeing it again -/

end PageSys

namespace PageAlloc

/-- The pages of the blocks on the free lists. -/
def listedPages (st : PageAlloc) : Set Nat := {x | ∃ p o, st.OnFreeList o p ∧ x ∈ block p o}

theorem Inv.listedPages_eq (hI : Inv st held) :
    st.listedPages = st.freePageSet := by
  ext x
  simp only [listedPages, freePageSet, Set.mem_ofPred_eq, hI.onFreeList]

/-- `free_pages(b, k)` undoes the allocation: all pages of `b` are free again, and the free pages are those
there were before. -/
def Restored (before after : PageAlloc) (b k : Nat) : Prop :=
  block (after.addrToPfn b) k ⊆ (after.freePages b k).listedPages ∧
    (after.freePages b k).listedPages = before.listedPages

theorem Inv.restored_iff {st st' : PageAlloc} (hI : Inv st held) {order : Int} {b : Nat}
    (h : st.allocPages order = (some b, st')) :
    Restored st st' b order.toNat ↔ pageSize * 2 ^ order.toNat ∣ st.memStart := by
  obtain ⟨p, k, rfl, rfl, hal⟩ := allocPages_some hI h
  have haddr : st.pfnToAddr p = st'.pfnToAddr p := by unfold pfnToAddr; rw [hal.memStart]
  have hlt : p < st'.poolPages := by rw [hal.poolPages]; exact hal.inPool.lt
  have hheld : update held p (some k) p = some k := update_self ..
  have hone : (st'.refcount p).toInt ≤ 1 := by rw [hal.refcount, update_self]; decide
  have hacc := freePagesAccepts_iff hal.inv hheld
  rw [hal.memStart] at hacc
  unfold Restored
  rw [haddr, addrToPfn_pfnToAddr hal.inv.pool hlt, Int.toNat_natCast, hI.listedPages_eq]
  constructor
  · rintro ⟨hfree, -⟩
    by_contra hdvd
    -- the call is refused, and the head page is still outstanding
    have href : st'.freePagesAccepts (st'.pfnToAddr p) k = false :=
      Bool.eq_false_of_not_eq_true fun ha => hdvd (hacc.1 ha).1
    rw [freePages_refused href, hal.inv.listedPages_eq] at hfree
    exact hal.inv.held_disjoint hheld (head_mem_block p k) (hfree (head_mem_block p k))
  · intro hdvd
    have hf := freePages_freed hal.inv hheld (hacc.2 ⟨hdvd, hone⟩)
    rw [hf.inv.listedPages_eq, hf.pages, hal.pages, Set.sdiff_union_of_subset hal.free]
    exact ⟨hal.free, rfl⟩

end PageAlloc

namespace PageSys

open PageAlloc

/-- In every reachable state, a block handed out and freed again with its order is free as before
exactly when the pool starts at a multiple of the block's size: the alignment check of `free_pages`
is on the absolute address, the blocks are aligned relative to the pool. -/
theorem free_restores_iff (start : AllocStart) (ops : List Op) (s : PageSys)
    (h : run step (init start) ops = some s) (order : Int) (b : Nat) (pa : PageAlloc)
    (ha : s.pa.allocPages order = (some b, pa)) :
    Restored s.pa pa b order.toNat ↔ pageSize * 2 ^ order.toNat ∣ pageAlignUp start.addr := by
  obtain ⟨hI, hm⟩ := run_kept h
  rw [hI.restored_iff ha, hm]

/-- An image whose heap starts on a 64 KiB boundary. -/
def evenStart : AllocStart := ⟨0xffff800080310000, by decide, by decide⟩

theorem free_restores_even :
    ∃ s b pa, run step (init evenStart) [.alloc 0] = some s ∧ s.pa.allocPages 1 = (some b, pa) ∧
      Restored s.pa pa b 1 := by
  have h : (run step (init evenStart) [.alloc 0]).isSome = true := by decide +kernel
  have halloc : ((run step (init evenStart) [.alloc 0]).map fun s => (s.pa.allocPages 1).1.isSome) = some true := by
    decide +kernel
  obtain ⟨s, hs⟩ := Option.isSome_iff_exists.1 h
  rw [hs] at halloc
  have hsome : (s.pa.allocPages 1).1.isSome = true := Option.some.inj halloc
  obtain ⟨b, hb⟩ := Option.isSome_iff_exists.1 hsome
  have ha : s.pa.allocPages 1 = (some b, (s.pa.allocPages 1).2) := by rw [← hb]
  exact ⟨s, b, _, hs, ha, (free_restores_iff evenStart _ s hs 1 b _ ha).2 (by decide)⟩

/-- With the heap on an odd page, freeing a two-page block (a kernel stack) leaks it. -/
theorem free_leaks_odd :
    ∃ b pa, (init oddStart).pa.allocPages 1 = (some b, pa) ∧ pa.freePages b 1 = pa ∧
      ¬ Restored (init oddStart).pa pa b 1 := by
  have hsome : ((init oddStart).pa.allocPages 1).1.isSome = true := by decide +kernel
  obtain ⟨b, hb⟩ := Option.isSome_iff_exists.1 hsome
  have ha : (init oddStart).pa.allocPages 1 = (some b, ((init oddStart).pa.allocPages 1).2) := by rw [← hb]
  have hacc : ((init oddStart).pa.allocPages 1).2.freePagesAccepts b 1 = false := by
    have : (((init oddStart).pa.allocPages 1).1.any fun b =>
      ((init oddStart).pa.allocPages 1).2.freePagesAccepts b 1) = false := by decide +kernel
    rwa [hb] at this
  refine ⟨b, _, ha, freePages_refused hacc, fun hr => ?_⟩
  have hdvd := ((init_inv oddStart).restored_iff ha).1 hr
  rw [init_memStart] at hdvd
  exact absurd hdvd (by decide)

end PageSys

/-! ## No page is lost -/

namespace PageAlloc

/-- Every page of the pool is free or in an outstanding block. -/
def Covered (st : PageAlloc) (held : Nat → Option Nat) : Prop :=
  ∀ x < st.poolPages, x ∈ st.freePageSet ∨ ∃ p o, held p = some o ∧ x ∈ block p o

/-- The block at `p` changes hands. -/
theorem Covered.change {st' : PageAlloc} {v : Option Nat} (h : Covered st held) (hpages : st'.poolPages = st.poolPages)
    (hfree : st.freePageSet ⊆ st'.freePageSet ∪ block p k) (hv : v = some k ∨ block p k ⊆ st'.freePageSet)
    (hp : ∀ o ∈ held p, o = k) : Covered st' (update held p v) := by
  intro x hx
  by_cases hb : x ∈ block p k
  · rcases hv with rfl | hv
    · exact .inr ⟨p, k, update_self .., hb⟩
    · exact .inl (hv hb)
  rcases h x (hpages ▸ hx) with hf | ⟨q, o, hq, ho⟩
  · exact .inl ((hfree hf).resolve_right hb)
  · refine .inr ⟨q, o, ?_, ho⟩
    rwa [update_of_ne]
    rintro rfl
    exact hb (hp o hq ▸ ho)

end PageAlloc

namespace PageSys

open PageAlloc

theorem init_covered (start : AllocStart) : Covered (init start).pa (init start).held := by
  intro x hx
  unfold init pageAllocInit at *
  dsimp only at *
  split_ifs at *
  · exact absurd hx (Nat.not_lt_zero x)
  · exact absurd hx (Nat.not_lt_zero x)
  · rw [freeListAdd_freePageSet rfl]
    exact .inl (.inr (mem_block.2 ⟨Nat.zero_le x, by rwa [Nat.zero_add]⟩))

theorem step_covered {s s' : PageSys} {op : Op} (hI : Inv s.pa s.held) (hc : Covered s.pa s.held)
    (h : s.step op = some s') : Covered s'.pa s'.held := by
  have hfreed {p k : Nat} {pa : PageAlloc} (hp : s.held p = some k) (hf : Freed s.pa pa s.held p k) :
      Covered pa (update s.held p none) := by
    refine hc.change hf.poolPages ?_ (.inr ?_) fun o ho => Option.mem_unique ho hp <;> rw [hf.pages]
    · exact fun x hx => .inl (.inl hx)
    · exact Set.subset_union_right
  cases op <;> dsimp only [step] at h
  case alloc order =>
    split at h <;> rename_i hpa <;> cases h
    · obtain ⟨rfl, -⟩ := allocPages_none hI hpa
      exact hc
    · obtain ⟨p, k, rfl, rfl, hal⟩ := allocPages_some hI hpa
      have hpfn := addrToPfn_pfnToAddr hal.inv.pool (hal.poolPages ▸ hal.inPool.lt)
      rw [pfnToAddr, hal.memStart] at hpfn
      refine hc.change hal.poolPages (fun x hx => ?_) (.inl rfl) (by simp [pfnToAddr, hpfn, hal.fresh])
      rw [hal.pages, pfnToAddr, hpfn]
      exact (em (x ∈ block p k)).symm.imp_left fun hb => ⟨hx, hb⟩
  case free p k =>
    split_ifs at h with hp ha <;> cases h
    · exact hfreed hp (freePages_freed hI hp ha)
    · rwa [freePages_refused (Bool.eq_false_of_not_eq_true ha)]
  case get => cases h; exact hc
  case put p =>
    split_ifs at h with hp ha <;> cases h
    · exact hfreed hp (putPage_freed hI hp ha)
    · rwa [putPage_kept (Bool.eq_false_of_not_eq_true ha)]
  case store =>
    split_ifs at h
    cases h
    exact hc

/-- After any run each page of the pool is on a free list or in an outstanding block. -/
theorem run_covered (start : AllocStart) (ops : List Op) (s : PageSys) (h : run step (init start) ops = some s)
    (x : Nat) (hx : x < s.pa.poolPages) : x ∈ s.pa.listedPages ∨ ∃ p o, s.held p = some o ∧ x ∈ block p o := by
  obtain ⟨hI, hc⟩ := run_invariant (P := fun s => Inv s.pa s.held ∧ Covered s.pa s.held)
    (fun s op s' hs hstep => ⟨(run_keeps hs.1 (run_cons.2 ⟨s', hstep, run_nil s'⟩)).1, step_covered hs.1 hs.2 hstep⟩)
    ⟨init_inv start, init_covered start⟩ h
  rw [hI.listedPages_eq]
  exact hc x hx

theorem run_covered_even : ∃ s, run step (init evenStart) [.alloc 1] = some s ∧ 0 < s.pa.poolPages ∧
    (0 ∈ s.pa.listedPages ∨ ∃ p o, s.held p = some o ∧ 0 ∈ block p o) := by
  have h : ((run step (init evenStart) [.alloc 1]).map fun s => s.pa.poolPages) = some 16384 := by decide +kernel
  obtain ⟨s, hs, hpages⟩ := Option.map_eq_some_iff.1 h
  exact ⟨s, hs, by omega, run_covered evenStart _ s hs 0 (by omega)⟩

end PageSys

end MiniOs.Mm
