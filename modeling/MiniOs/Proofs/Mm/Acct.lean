/-
The page accounting of user mappings. A `Usage` counts, page by page, the page tables, the writable
entries and the read-only entries; usages add up over the parts of a state. `Acct k u` says that the
page allocator agrees with the usage `u`: each page of it is held as a block of order 0, its reference
count is the number of its uses, and a table page or a page with a writable entry has no other use.
-/
import MiniOs.Mm.PageTable
import MiniOs.Proofs.Mm.PageClients
import Mathlib.Algebra.Order.BigOperators.Group.Multiset
import Mathlib.Data.Multiset.AddSub

namespace MiniOs.Mm

open Library Library.Dyadic PageAlloc Function

/-- Table pages, frames of writable entries, frames of read-only entries. -/
abbrev Usage := Multiset Nat × Multiset Nat × Multiset Nat

variable {u v : Usage} {p : Nat}

namespace Usage

def table (p : Nat) : Usage := ({p}, 0, 0)
def writable (p : Nat) : Usage := (0, {p}, 0)
def readonly (p : Nat) : Usage := (0, 0, {p})

def all (u : Usage) : Multiset Nat := u.1 + u.2.1 + u.2.2

/-- The pages with one use only. -/
def sole (u : Usage) : Multiset Nat := u.1 + u.2.1

/-- The frames user entries refer to. -/
def refs (u : Usage) : Multiset Nat := u.2.1 + u.2.2

/-- A table has 512 entries. -/
def Small (u : Usage) : Prop := u.refs.card ≤ 512 * u.1.card

@[simp] theorem all_zero : all 0 = 0 := rfl
@[simp] theorem sole_zero : sole 0 = 0 := rfl
@[simp] theorem refs_zero : refs 0 = 0 := rfl

@[simp] theorem all_add (u v : Usage) : (u + v).all = u.all + v.all := by
  simp only [all, Prod.fst_add, Prod.snd_add]; abel

@[simp] theorem sole_add (u v : Usage) : (u + v).sole = u.sole + v.sole := by
  simp only [sole, Prod.fst_add, Prod.snd_add]; abel

@[simp] theorem refs_add (u v : Usage) : (u + v).refs = u.refs + v.refs := by
  simp only [refs, Prod.snd_add, Prod.fst_add]; abel

@[simp] theorem all_table (p : Nat) : (table p).all = {p} := by simp [all, table]
@[simp] theorem all_writable (p : Nat) : (writable p).all = {p} := by simp [all, writable]
@[simp] theorem all_readonly (p : Nat) : (readonly p).all = {p} := by simp [all, readonly]
@[simp] theorem sole_table (p : Nat) : (table p).sole = {p} := by simp [sole, table]
@[simp] theorem sole_writable (p : Nat) : (writable p).sole = {p} := by simp [sole, writable]
@[simp] theorem sole_readonly (p : Nat) : (readonly p).sole = 0 := by simp [sole, readonly]
@[simp] theorem refs_table (p : Nat) : (table p).refs = 0 := by simp [refs, table]
@[simp] theorem refs_writable (p : Nat) : (writable p).refs = {p} := by simp [refs, writable]
@[simp] theorem refs_readonly (p : Nat) : (readonly p).refs = {p} := by simp [refs, readonly]

theorem sole_le_all (u : Usage) : u.sole ≤ u.all := Multiset.le_add_right _ _

theorem refs_le_all (u : Usage) : u.refs ≤ u.all := by
  unfold refs all
  rw [add_assoc]
  exact Multiset.le_add_left _ _

theorem mem_all : p ∈ u.all ↔ p ∈ u.1 ∨ p ∈ u.refs := by
  simp [all, refs, or_assoc]

theorem Small.add (hu : u.Small) (hv : v.Small) : (u + v).Small := by
  unfold Small at *
  simp only [refs_add, Multiset.card_add, Prod.fst_add]
  omega

theorem small_zero : Small 0 := Nat.le_refl 0

theorem small_table (p : Nat) : (table p).Small := by simp [Small]

end Usage

open Usage

/-- The pages of a usage, as blocks of the page allocator. -/
def heldBy (u : Usage) (p : Nat) : Option Nat := if p ∈ u.all then some 0 else none

theorem heldBy_congr (h : u.all = v.all) : heldBy u = heldBy v := by
  funext p; unfold heldBy; rw [h]

theorem heldBy_insert (h : v.all = u.all + {p}) :
    heldBy v = update (heldBy u) p (some 0) := by
  funext q
  by_cases e : q = p
  · subst e; simp [heldBy, h]
  · simp [heldBy, h, e]

theorem heldBy_erase (h : v.all = u.all + {p}) (hp : p ∉ u.all) :
    heldBy u = update (heldBy v) p none := by
  funext q
  by_cases e : q = p
  · subst e; simp [heldBy, hp]
  · simp [heldBy, h, e]

/-- The page allocator agrees with the usage; `P` fixes where the pool lies. -/
structure Acct (P : PageAlloc) (k : Kmem) (u : Usage) : Prop where
  inv : Inv k.pa (joinHeld k.env (heldBy u))
  apart : ∀ p, k.env p = none ∨ heldBy u p = none
  count : ∀ p ∈ u.all, k.pa.refcount p = BitVec.ofNat 32 (u.all.count p)
  sole : ∀ p ∈ u.sole, u.all.count p = 1
  memStart : k.pa.memStart = P.memStart
  memSize : k.pa.memSize = P.memSize
  poolPages : k.pa.poolPages = P.poolPages

section Acct

variable {P : PageAlloc} {k : Kmem} {u v : Usage} {p : Nat}

section

variable (h : Acct P k u)
include h

theorem Acct.env_none (hp : p ∈ u.all) : k.env p = none :=
  (h.apart p).resolve_right (by simp [heldBy, hp])

theorem Acct.held (hp : p ∈ u.all) : joinHeld k.env (heldBy u) p = some 0 := by
  simp [joinHeld, h.env_none hp, heldBy, hp]

theorem Acct.page_lt (hp : p ∈ u.all) : p < k.pa.poolPages :=
  (h.inv.inPool p 0 (.inr (h.held hp))).lt

theorem Acct.notTable (hp : p ∈ u.refs) : p ∉ u.1 := by
  intro htab
  have hone := h.sole p (Multiset.mem_add.2 (.inl htab))
  have h1 := Multiset.one_le_count_iff_mem.2 htab
  have h2 := Multiset.one_le_count_iff_mem.2 hp
  have hall : u.all = u.1 + u.refs := by unfold Usage.all Usage.refs; rw [add_assoc]
  rw [hall, Multiset.count_add] at hone
  omega

theorem Acct.tables_le : u.1.card ≤ 2 ^ 15 := by
  have hnd : u.1.Nodup := by
    rw [Multiset.nodup_iff_count_le_one]
    intro p
    by_cases hp : p ∈ u.1
    · have hsole : p ∈ u.sole := Multiset.mem_add.2 (.inl hp)
      have hone := h.sole p hsole
      unfold Usage.all at hone
      rw [Multiset.count_add, Multiset.count_add] at hone
      omega
    · rw [Multiset.count_eq_zero_of_notMem hp]; omega
  have hsub : u.1 ≤ Multiset.range k.pa.poolPages := by
    rw [Multiset.le_iff_subset hnd]
    intro p hp
    rw [Multiset.mem_range]
    exact h.page_lt (Usage.mem_all.2 (.inl hp))
  calc u.1.card ≤ (Multiset.range k.pa.poolPages).card := Multiset.card_le_card hsub
    _ = k.pa.poolPages := Multiset.card_range _
    _ ≤ 2 ^ 15 := h.inv.pool.pages_le

/-- No page is used often enough for its reference count to wrap. -/
theorem Acct.count_lt (hs : u.Small) (p : Nat) : u.all.count p < 2 ^ 32 := by
  have htab := h.tables_le
  have hle := Multiset.count_le_card p u.all
  have hcard : u.all.card = u.1.card + u.refs.card := by
    simp only [Usage.all, Usage.refs, Multiset.card_add]; omega
  unfold Usage.Small at hs
  omega

theorem Acct.pageCount (hs : u.Small) (hp : p ∈ u.all) : k.pa.pageCount p = u.all.count p := by
  unfold PageAlloc.pageCount
  rw [h.count p hp, BitVec.toNat_ofNat, Nat.mod_eq_of_lt (h.count_lt hs p)]

/-- The uses of the pages are counted the same, under other labels. -/
theorem Acct.relabel (hall : v.all = u.all) (hsole : ∀ p ∈ v.sole, u.all.count p = 1) :
    Acct P k v := by
  have hheld := heldBy_congr hall
  refine ⟨by rw [hheld]; exact h.inv, by rw [hheld]; exact h.apart, ?_, ?_, h.memStart, h.memSize, h.poolPages⟩
  · rw [hall]; exact h.count
  · rw [hall]; exact hsole

theorem Acct.congr {k' : Kmem} (h1 : k'.pa = k.pa) (h2 : k'.env = k.env) : Acct P k' u :=
  ⟨by rw [h1, h2]; exact h.inv, by rw [h2]; exact h.apart, by rw [h1]; exact h.count, h.sole,
    by rw [h1]; exact h.memStart, by rw [h1]; exact h.memSize, by rw [h1]; exact h.poolPages⟩

/-! ## The calls into the page allocator -/

theorem allocPage_none {k' : Kmem} (ha : k.allocPage = (none, k')) : k' = k := by
  unfold Kmem.allocPage at ha
  split at ha
  · rename_i pa hpa
    cases ha
    rw [(allocPages_none h.inv hpa).1]
  · cases ha

/-- A page just allocated is nobody else's; the rest of the memory is as before. -/
theorem allocPage_some {k' : Kmem} (ha : k.allocPage = (some p, k')) :
    p ∉ u.all ∧ Acct P k' (u + table p) ∧ k'.data = k.data ∧ k'.returned = k.returned := by
  unfold Kmem.allocPage at ha
  split at ha
  · cases ha
  · rename_i kva pa hpa
    obtain ⟨q, k0, hk0, rfl, hal⟩ := allocPages_some h.inv hpa
    obtain rfl : k0 = 0 := by omega
    have hlt : q < pa.poolPages := by rw [hal.poolPages]; exact hal.inPool.lt
    have hpfn : pa.addrToPfn (k.pa.pfnToAddr q) = q := by
      have := addrToPfn_pfnToAddr hal.inv.pool hlt
      rwa [pfnToAddr, hal.memStart] at this
    rw [hpfn] at ha
    cases ha
    obtain ⟨henv, hheld⟩ : k.env p = none ∧ heldBy u p = none := by simpa [joinHeld] using hal.fresh
    have hp : p ∉ u.all := fun hmem => by simp [heldBy, hmem] at hheld
    have hsum : (u + table p).all = u.all + {p} := by simp
    refine ⟨hp, ⟨?_, fun q => ?_, fun q hq => ?_, fun q hq => ?_, hal.memStart.trans h.memStart, ?_,
      hal.poolPages.trans h.poolPages⟩, rfl, rfl⟩
    · rw [heldBy_insert hsum, PageSys.joinHeld_update_right henv]
      exact hal.inv
    · rw [heldBy_insert hsum]
      by_cases e : q = p
      · subst e; exact .inl henv
      · rw [update_of_ne e]; exact h.apart q
    · show pa.refcount q = _
      rw [hal.refcount, hsum, Multiset.count_add]
      by_cases e : q = p
      · subst e
        rw [update_self, Multiset.count_eq_zero_of_notMem hp, Multiset.count_singleton_self]; rfl
      · have hq' : q ∈ u.all := by simpa [e] using hq
        rw [update_of_ne e, h.count q hq', Multiset.count_singleton, if_neg e, Nat.add_zero]
    · rw [hsum, Multiset.count_add]
      by_cases e : q = p
      · subst e
        rw [Multiset.count_eq_zero_of_notMem hp, Multiset.count_singleton_self]
      · have hq' : q ∈ u.sole := by simpa [e] using hq
        rw [h.sole q hq', Multiset.count_singleton, if_neg e]
    · exact hal.memSize.trans h.memSize

end

/-- Dropping the only use of a page frees it. -/
theorem Acct.freed {pa : PageAlloc} (h : Acct P k v) (hsum : v.all = u.all + {p}) (hp : p ∉ u.all)
    (hsole : u.sole ≤ v.sole) (hf : Freed k.pa pa (joinHeld k.env (heldBy v)) p 0) :
    Acct P { k with pa := pa } u := by
  have hmem : p ∈ v.all := by simp [hsum]
  have henv := h.env_none hmem
  have hne : ∀ q ∈ u.all, q ≠ p := by
    rintro q hq rfl
    exact hp hq
  have hcount : ∀ q ∈ u.all, v.all.count q = u.all.count q := by
    intro q hq
    rw [hsum, Multiset.count_add, Multiset.count_singleton, if_neg (hne q hq), Nat.add_zero]
  refine ⟨?_, fun q => ?_, fun q hq => ?_, fun q hq => ?_, hf.memStart.trans h.memStart,
    hf.memSize.trans h.memSize, hf.poolPages.trans h.poolPages⟩
  · rw [heldBy_erase hsum hp, PageSys.joinHeld_update_right henv]
    exact hf.inv
  · rw [heldBy_erase hsum hp]
    by_cases e : q = p
    · subst e; exact .inl henv
    · rw [update_of_ne e]; exact h.apart q
  · show pa.refcount q = _
    rw [hf.refcount, update_of_ne (hne q hq), h.count q (by simp [hsum, hq]), hcount q hq]
  · rw [← hcount q (Multiset.mem_of_le (sole_le_all u) hq)]
    exact h.sole q (Multiset.mem_of_le hsole hq)

theorem freePage_acct (h : Acct P k (u + table p)) :
    Acct P (k.freePage p) u ∧ (k.freePage p).returned = p :: k.returned ∧ p ∉ u.all := by
  have hsum : (u + table p).all = u.all + {p} := by simp
  have hmem : p ∈ (u + table p).all := by simp
  have hone := h.sole p (by simp)
  have hp : p ∉ u.all := by
    rw [hsum, Multiset.count_add, Multiset.count_singleton_self] at hone
    rw [← Multiset.count_eq_zero]; omega
  have hacc : k.pa.freePagesAccepts (k.pa.pfnToAddr p) (0 : Nat) = true := by
    rw [freePagesAccepts_iff h.inv (h.held hmem), h.count p hmem, hone]
    exact ⟨h.inv.pool.aligned, by decide⟩
  have hf := freePages_freed h.inv (h.held hmem) hacc
  have hfreed := h.freed hsum hp (by rw [sole_add]; exact Multiset.le_add_right _ _) hf
  refine ⟨hfreed.congr rfl rfl, ?_, hp⟩
  show (if k.pa.freePagesAccepts (k.pa.pfnToAddr p) ((0 : Nat) : Int) = true then _ else _) = _
  rw [if_pos hacc]

/-- One more read-only entry for a frame that has one. -/
theorem getPage_acct (h : Acct P k u) (hp : p ∈ u.2.2) : Acct P (k.getPage p) (u + readonly p) := by
  have hmem : p ∈ u.all := by simp [Usage.all, hp]
  have hsum : (u + readonly p).all = u.all + {p} := by simp
  have hheld : heldBy (u + readonly p) = heldBy u := by
    rw [heldBy_insert hsum]
    exact update_eq_self_iff.2 (by simp [heldBy, hmem])
  have hne : ∀ q ∈ u.sole, q ≠ p := by
    rintro q hq rfl
    have hone := h.sole q hq
    have h1 := Multiset.one_le_count_iff_mem.2 hq
    have h2 := Multiset.one_le_count_iff_mem.2 hp
    have hall : u.all = u.sole + u.2.2 := rfl
    rw [hall, Multiset.count_add] at hone
    omega
  refine ⟨?_, ?_, fun q hq => ?_, fun q hq => ?_, h.memStart, h.memSize, h.poolPages⟩
  · rw [hheld]
    exact h.inv.withRefcount _
  · rw [hheld]; exact h.apart
  · show update k.pa.refcount p (k.pa.refcount p + 1) q = _
    rw [hsum, Multiset.count_add, Multiset.count_singleton]
    by_cases e : q = p
    · subst e
      rw [update_self, h.count q hmem, if_pos rfl, BitVec.ofNat_add]; rfl
    · have hq' : q ∈ u.all := by simpa [e] using hq
      rw [update_of_ne e, h.count q hq', if_neg e, Nat.add_zero]
  · have hq' : q ∈ u.sole := by simpa using hq
    rw [hsum, Multiset.count_add, Multiset.count_singleton, if_neg (hne q hq'), Nat.add_zero]
    exact h.sole q hq'

/-- `put_page` on the frame of an entry that has been cleared: the page is freed exactly when this
was its last use. -/
theorem putPage_acct (h : Acct P k v) (hs : v.Small) (hsum : v.all = u.all + {p}) (hsole : u.sole ≤ v.sole) :
    Acct P (k.putPage p) u ∧
      (k.putPage p).returned = if p ∈ u.all then k.returned else p :: k.returned := by
  have hmem : p ∈ v.all := by simp [hsum]
  have hcount := h.count p hmem
  have hlt := h.count_lt hs p
  have hcnt : v.all.count p = u.all.count p + 1 := by
    rw [hsum, Multiset.count_add, Multiset.count_singleton_self]
  have hdec : k.pa.refcount p - 1 = BitVec.ofNat 32 (u.all.count p) := by
    rw [hcount, hcnt, BitVec.ofNat_add]
    exact BitVec.add_sub_cancel _ _
  have hfrees : k.pa.putPageFrees p = true ↔ p ∉ u.all := by
    unfold PageAlloc.putPageFrees PageAlloc.pfnInPool
    rw [hdec, Bool.and_eq_true, decide_eq_true_eq, decide_eq_true_eq, ← Multiset.count_eq_zero]
    constructor
    · rintro ⟨hz, -⟩
      have := congrArg BitVec.toNat hz
      rwa [BitVec.toNat_ofNat, Nat.mod_eq_of_lt (by omega)] at this
    · intro hz
      rw [hz]
      exact ⟨rfl, h.page_lt hmem⟩
  by_cases hp : p ∈ u.all
  · have hkeep : k.pa.putPageFrees p = false := Bool.eq_false_of_not_eq_true fun e => hfrees.1 e hp
    have hheld : heldBy v = heldBy u := by
      rw [heldBy_insert hsum]
      exact update_eq_self_iff.2 (by simp [heldBy, hp])
    refine ⟨⟨?_, ?_, fun q hq => ?_, fun q hq => ?_, ?_, ?_, ?_⟩, ?_⟩
    · unfold Kmem.putPage
      simp only [putPage_kept hkeep]
      rw [← hheld]
      exact h.inv.withRefcount _
    · rw [← hheld]; exact h.apart
    · unfold Kmem.putPage
      simp only [putPage_kept hkeep]
      by_cases e : q = p
      · subst e; rw [update_self, hdec]
      · rw [update_of_ne e, h.count q (by simp [hsum, hq]), hsum, Multiset.count_add,
          Multiset.count_singleton, if_neg e, Nat.add_zero]
    · have hv := h.sole q (Multiset.mem_of_le hsole hq)
      have h1 := Multiset.one_le_count_iff_mem.2 (Multiset.mem_of_le (sole_le_all u) hq)
      rw [hsum, Multiset.count_add] at hv
      omega
    · unfold Kmem.putPage; simp only [putPage_kept hkeep]; exact h.memStart
    · unfold Kmem.putPage; simp only [putPage_kept hkeep]; exact h.memSize
    · unfold Kmem.putPage; simp only [putPage_kept hkeep]; exact h.poolPages
    · unfold Kmem.putPage; simp [hkeep, hp]
  · have hfree := hfrees.2 hp
    have hf := putPage_freed h.inv (h.held hmem) hfree
    refine ⟨(h.freed hsum hp hsole hf).congr rfl rfl, ?_⟩
    unfold Kmem.putPage; simp [hfree, hp]

/-! ## The rest of the kernel -/

theorem ownStep_acct {op : PageSys.Op} {t : PageSys} (h : Acct P k u)
    (ht : (PageSys.mk k.pa k.env).ownStep op = some t) : Acct P { k with pa := t.pa, env := t.held } u := by
  have hf := PageSys.ownStep_framed h.inv h.apart ht
  refine ⟨hf.inv, hf.apart, fun q hq => ?_, h.sole, hf.memStart.trans h.memStart, hf.memSize.trans h.memSize,
    hf.poolPages.trans h.poolPages⟩
  show t.pa.refcount q = _
  rw [← h.count q hq]
  exact hf.refcount q (by simp [heldBy, hq])

/-- Whatever the other clients of the page allocator do, the accounting of the mappings stands. -/
theorem runEnv_acct : ∀ (ops : List PageSys.Op) (k : Kmem), Acct P k u →
    Acct P (k.runEnv ops) u ∧ (k.runEnv ops).data = k.data ∧ (k.runEnv ops).returned = k.returned
  | [], _, h => ⟨h, rfl, rfl⟩
  | op :: ops, k, h => by
    unfold Kmem.runEnv
    split
    · exact runEnv_acct ops k h
    · rename_i t ht
      exact runEnv_acct ops _ (ownStep_acct h ht)

theorem objCall_acct (h : Acct P k u) :
    Acct P k.objCall.2 u ∧ k.objCall.2.data = k.data ∧ k.objCall.2.returned = k.returned := by
  unfold Kmem.objCall
  split
  · exact ⟨h, rfl, rfl⟩
  · rename_i ops ok rest hs
    exact runEnv_acct ops { k with script := rest } (h.congr rfl rfl)

end Acct

end MiniOs.Mm
