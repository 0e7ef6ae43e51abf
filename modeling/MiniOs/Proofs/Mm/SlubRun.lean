/-
The SLUB allocator over whole runs: any caches, any calls by their users, any use of the page
allocator by others in between. Live objects are disjoint and lie inside their pages after the
header, freelists and partial lists hold exactly what they should, and a slab page goes back to the
page allocator in the call that frees its last live object.
-/
import MiniOs.Proofs.Mm.Slub

namespace MiniOs.Mm

open Library PageAlloc Slub Function

namespace SlubSys

/-- What the users of the caches rely on between calls. -/
structure Safe (s : SlubSys) : Prop where
  /-- a live object lies inside a page of the pool, after the header -/
  inside : ∀ x c, s.live x = some c → ∃ k, s.slub.caches c = some k ∧
    s.slub.slabFromObject x < s.slub.pa.poolPages ∧
    s.slub.pa.pfnToAddr (s.slub.slabFromObject x) + slabHeaderSize.toNat ≤ x ∧
    x + k.objectSize.toNat ≤ s.slub.pa.pfnToAddr (s.slub.slabFromObject x) + pageSize
  disjoint : ∀ x y c d k k', s.live x = some c → s.live y = some d → x ≠ y → s.slub.caches c = some k →
    s.slub.caches d = some k' →
    Disjoint (Set.Ico x (x + k.objectSize.toNat)) (Set.Ico y (y + k'.objectSize.toNat))
  /-- the freelist of a slab holds each object that is not live, once -/
  freelist : ∀ p c, s.IsSlab p c → ∃ k l, s.slub.caches c = some k ∧
    Chain s.slub.words (s.slub.slabs p).freelist l ∧ l.Nodup ∧
    (s.slub.slabs p).inuse.toNat + l.length = (s.slub.slabs p).objects.toNat ∧
    (s.slub.slabs p).objects.toNat = slabObjectsPerPage k ∧
    (∀ x ∈ l, Slot k (s.slub.pa.pfnToAddr p) x) ∧
    ∀ x, Slot k (s.slub.pa.pfnToAddr p) x → (s.live x = some c ∧ x ∉ l) ∨ (s.live x = none ∧ x ∈ l)
  partials : ∀ c k, s.slub.caches c = some k → ∃ l, (s.slub.partialList k).Holds l ∧ l.Nodup ∧
    ∀ p, p ∈ l ↔ s.IsSlab p c ∧ ∃ x, Slot k (s.slub.pa.pfnToAddr p) x ∧ s.live x = none
  /-- the page of a slab is not free -/
  outstanding : ∀ p c, s.IsSlab p c → p ∉ s.slub.pa.listedPages

section

variable {m : Nat} {s : SlubSys} {own : Nat → Option Nat} {listed : Nat → Prop}

theorem Core.own_of_isSlab {p c : Nat} (h : Core m s own listed) (hp : s.IsSlab p c) : own p = some c := by
  obtain ⟨x, hx, rfl⟩ := hp
  obtain ⟨q, k, hq, hk, hslot⟩ := h.live x c hx
  rw [h.slabFromObject hq hk hslot]
  exact hq

theorem Core.base (h : Core m s own listed) (p : Nat) : s.slub.pa.pfnToAddr p = m + p * pageSize := by
  unfold pfnToAddr; rw [h.start]

theorem Core.objects_disjoint {x y c d : Nat} {k k' : KmemCache} (h : Core m s own listed) (hx : s.live x = some c)
    (hy : s.live y = some d) (hne : x ≠ y) (hk : s.slub.caches c = some k) (hk' : s.slub.caches d = some k') :
    Disjoint (Set.Ico x (x + k.objectSize.toNat)) (Set.Ico y (y + k'.objectSize.toNat)) := by
  obtain ⟨p, k1, hp, hk1, hsx⟩ := h.live x c hx
  obtain ⟨q, k2, hq, hk2, hsy⟩ := h.live y d hy
  obtain rfl : k = k1 := by rw [hk] at hk1; exact Option.some.inj hk1
  obtain rfl : k' = k2 := by rw [hk'] at hk2; exact Option.some.inj hk2
  rw [Set.disjoint_left]
  intro z hz hz'
  rw [Set.mem_Ico] at hz hz'
  by_cases e : p = q
  · -- two objects of one slab
    subst e
    obtain rfl : c = d := by rw [hp] at hq; exact Option.some.inj hq
    obtain rfl : k = k' := by rw [hk] at hk'; exact Option.some.inj hk'
    have := hsx.apart hsy hne
    omega
  · have h1 := hsx.range (h.sizes c k hk)
    have h2 := hsy.range (h.sizes d k' hk')
    unfold pageSize at *
    omega

theorem Core.slab_free_iff {p c : Nat} {k : KmemCache} (h : Core m s own s.HasFree) (hp : own p = some c)
    (hk : s.slub.caches c = some k) :
    s.HasFree p ↔ ∃ x, Slot k (m + p * pageSize) x ∧ s.live x = none := by
  have hok := h.slab hp hk
  obtain ⟨l, -, -, h3, h4⟩ := hok.free
  unfold HasFree
  rw [hok.objects]
  constructor
  · intro hlt
    obtain ⟨x, hx⟩ := List.exists_mem_of_length_pos (l := l) (by omega)
    exact ⟨x, (h3 x).1 hx⟩
  · rintro ⟨x, hx⟩
    have := List.length_pos_of_mem ((h3 x).2 hx)
    omega

theorem SlubInv.safe (h : SlubInv m s) : Safe s := by
  obtain ⟨own, hcore, hpos⟩ := h
  refine ⟨fun x c hx => ?_, fun x y c d k k' hx hy hne hk hk' => hcore.objects_disjoint hx hy hne hk hk',
    fun p c hp => ?_, fun c k hk => ?_, fun p c hp => ?_⟩
  · obtain ⟨p, k, hp, hk, hslot⟩ := hcore.live x c hx
    rw [hcore.slabFromObject hp hk hslot, hcore.base]
    exact ⟨k, hk, hcore.page_lt hp, hslot.range (hcore.sizes c k hk)⟩
  · have hown := hcore.own_of_isSlab hp
    obtain ⟨k, hk, hok⟩ := hcore.slabs p c hown
    obtain ⟨l, h1, h2, h3, h4⟩ := hok.free
    rw [hcore.base]
    refine ⟨k, l, hk, h1, h2, by rw [hok.objects]; exact h4, hok.objects, fun x hx => ((h3 x).1 hx).1,
      fun x hx => ?_⟩
    cases hl : s.live x with
    | none => exact .inr ⟨rfl, (h3 x).2 ⟨hx, hl⟩⟩
    | some d =>
      -- a live object in this page belongs to this slab's cache
      obtain ⟨q, k', hq, hk', hy⟩ := hcore.live x d hl
      obtain rfl := hx.page_unique (hcore.sizes c k hk) (hcore.sizes d k' hk') hy
      obtain rfl : c = d := by rw [hown] at hq; exact Option.some.inj hq
      refine .inl ⟨rfl, fun hmem => ?_⟩
      rw [((h3 x).1 hmem).2] at hl; cases hl
  · obtain ⟨l, h1, h2, h3⟩ := hcore.lists c k hk
    refine ⟨l, h1, h2, fun p => ?_⟩
    rw [h3, hcore.base]
    constructor
    · rintro ⟨hp, hfree⟩
      exact ⟨(hcore.inuse_pos_iff hp).1 (hpos p c hp), (hcore.slab_free_iff hp hk).1 hfree⟩
    · rintro ⟨hp, hfree⟩
      have hown := hcore.own_of_isSlab hp
      exact ⟨hown, (hcore.slab_free_iff hown hk).2 hfree⟩
  · rw [hcore.pages.listedPages_eq]
    exact hcore.pages.held_disjoint (hcore.held (hcore.own_of_isSlab hp)) (Library.Dyadic.head_mem_block p 0)

/-! ## Steps -/

theorem SlubInv.slabFromObject_eq {t : SlubSys} (h : SlubInv m s) (ht : SlubInv m t) (x : Nat) :
    t.slub.slabFromObject x = s.slub.slabFromObject x := by
  obtain ⟨own, hcore, -⟩ := h
  obtain ⟨own', hcore', -⟩ := ht
  unfold Slub.slabFromObject PageAlloc.addrToPfn
  rw [hcore'.start, hcore.start]

/-- What a step leaves behind: every page of a slab still has a live object or is free. -/
def PagesAccounted (s s' : SlubSys) : Prop :=
  ∀ p c, s.IsSlab p c → (∃ d, s'.IsSlab p d) ∨ p ∈ s'.slub.pa.freePageSet

theorem SlubInv.accounted_of_live {t : SlubSys} (h : SlubInv m s) (ht : SlubInv m t)
    (hlive : ∀ x c, s.live x = some c → ∃ d, t.live x = some d) : PagesAccounted s t := by
  rintro p c ⟨x, hx, rfl⟩
  obtain ⟨d, hd⟩ := hlive x c hx
  exact .inl ⟨d, x, hd, h.slabFromObject_eq ht x⟩

theorem SlubInv.alloc_step {c : Nat} {s' : SlubSys} (h : SlubInv m s) (hstep : s.step (.alloc c) = some s') :
    SlubInv m s' ∧ PagesAccounted s s' := by
  simp only [step] at hstep
  split at hstep
  · cases hstep
  · rename_i hc
    rcases kmemCacheAlloc_inv h hc with ⟨st, h1, h2⟩ | ⟨x, st, h1, h2⟩
    · simp only [h1] at hstep
      cases hstep
      exact ⟨h2, h.accounted_of_live h2 fun _ c hx => ⟨c, hx⟩⟩
    · simp only [h1] at hstep
      cases hstep
      refine ⟨h2, h.accounted_of_live h2 fun y d hy => ?_⟩
      by_cases e : y = x
      · exact ⟨c, by rw [e]; exact update_self ..⟩
      · exact ⟨d, (update_of_ne e ..).trans hy⟩

theorem SlubInv.free_step {c x : Nat} {s' : SlubSys} (h : SlubInv m s) (hstep : s.step (.free c (some x)) = some s') :
    SlubInv m s' ∧ PagesAccounted s s' := by
  simp only [step] at hstep
  split at hstep
  · cases hstep
  · rename_i d hx
    by_cases e : d = c
    · subst e
      simp only [if_true] at hstep
      cases hstep
      obtain ⟨h1, h2⟩ := kmemCacheFree_inv h hx
      refine ⟨h1, ?_⟩
      rintro p e ⟨y, hy, rfl⟩
      by_cases hpage : s.slub.slabFromObject y = s.slub.slabFromObject x
      · rw [hpage]
        exact h2.imp (fun h => ⟨d, h⟩) id
      · -- another page: its objects are still live
        have hyx : y ≠ x := by
          rintro rfl
          exact hpage rfl
        exact .inl ⟨e, y, (update_of_ne hyx ..).trans hy, h.slabFromObject_eq h1 y⟩
    · simp only [if_neg e, kmemCacheFree_refused h hx e] at hstep
      cases hstep
      exact ⟨h, h.accounted_of_live h fun _ c hx => ⟨c, hx⟩⟩

/-- Every step keeps the invariant, and a page whose live objects are all gone is free. -/
theorem step_inv {op : Op} {s' : SlubSys} (h : SlubInv m s) (hstep : s.step op = some s') :
    SlubInv m s' ∧ PagesAccounted s s' := by
  cases op with
  | init c size =>
    simp only [step] at hstep
    split at hstep
    · rename_i hc
      cases hstep
      have hinv : SlubInv m { s with slub := s.slub.kmemCacheInit c size } := kmemCacheInit_inv h hc
      exact ⟨hinv, h.accounted_of_live hinv fun _ c hx => ⟨c, hx⟩⟩
    · cases hstep
  | alloc c => exact h.alloc_step hstep
  | free c obj =>
    cases obj with
    | none =>
      cases hstep
      exact ⟨h, h.accounted_of_live h fun _ c hx => ⟨c, hx⟩⟩
    | some x => exact h.free_step hstep
  | write x w =>
    simp only [step] at hstep
    split at hstep
    · cases hstep
    · rename_i hx
      cases hstep
      obtain ⟨c, hc⟩ := Option.ne_none_iff_exists'.1 hx
      obtain ⟨own, hcore, hpos⟩ := id h
      have hinv : SlubInv m { s with slub := { s.slub with words := update s.slub.words x w } } :=
        ⟨own, hcore.write hc, hpos⟩
      exact ⟨hinv, h.accounted_of_live hinv fun _ c hx => ⟨c, hx⟩⟩
  | page op =>
    simp only [step] at hstep
    split at hstep
    · cases hstep
    · rename_i t ht
      cases hstep
      obtain ⟨own, hcore, hpos⟩ := id h
      have hinv : SlubInv m { s with slub := { s.slub with pa := t.pa }, env := t.held } :=
        ⟨own, hcore.page ht, hpos⟩
      exact ⟨hinv, h.accounted_of_live hinv fun _ c hx => ⟨c, hx⟩⟩

theorem init_inv (start : AllocStart) (slabs : Nat → Slab) (next words : Nat → Option Nat) :
    SlubInv (pageAlignUp start.addr) (init start slabs next words) := by
  refine ⟨fun _ => none, ⟨PageSys.init_memStart start, ?_, fun _ => .inl rfl, fun p hp => absurd rfl hp,
    fun c k hk => (by cases hk), fun p c hp => (by cases hp), fun x c hx => (by cases hx),
    fun c k hk => (by cases hk)⟩, fun p c hp => (by cases hp)⟩
  exact pageAllocInit_inv start

end

/-- In every state any run reaches, the allocator is safe, and in every step from there the page of a
slab goes back to the page allocator exactly when no object on it is live any more. -/
theorem run_slub_safe (start : AllocStart) (slabs : Nat → Slab) (next words : Nat → Option Nat) (ops : List Op)
    (s : SlubSys) (h : run step (init start slabs next words) ops = some s) :
    Safe s ∧ ∀ op s', s.step op = some s' → ∀ p c, s.IsSlab p c →
      (p ∈ s'.slub.pa.listedPages ↔ ¬ ∃ d, s'.IsSlab p d) := by
  have hinv : SlubInv (pageAlignUp start.addr) s :=
    run_invariant (P := SlubInv (pageAlignUp start.addr)) (fun _ _ _ hs hstep => (step_inv hs hstep).1)
      (init_inv start slabs next words) h
  refine ⟨hinv.safe, fun op s' hstep p c hp => ?_⟩
  obtain ⟨hinv', hpage⟩ := step_inv hinv hstep
  constructor
  · rintro hfree ⟨d, hd⟩
    exact hinv'.safe.outstanding p d hd hfree
  · intro hno
    obtain ⟨own, hcore, -⟩ := hinv'
    rw [hcore.pages.listedPages_eq]
    exact (hpage p c hp).resolve_left hno

/-- Objects of 1000 bytes: three to a page, behind a header rounded up to 1032 bytes. -/
theorem run_slub_safe_of_sample :
    ∃ s, run step (init PageSys.oddStart (fun _ => ⟨0, none, none, 0, 0⟩) (fun _ => none) fun _ => none)
      [.init 0 1000, .alloc 0, .alloc 0, .page (.alloc 3), .free 0 (some (0xffff800080301000 + 3032)), .alloc 0,
        .write (0xffff800080301000 + 3032) (some 5)] = some s ∧ Safe s := by
  have h : (run step (init PageSys.oddStart (fun _ => ⟨0, none, none, 0, 0⟩) (fun _ => none) fun _ => none)
      [.init 0 1000, .alloc 0, .alloc 0, .page (.alloc 3), .free 0 (some (0xffff800080301000 + 3032)), .alloc 0,
        .write (0xffff800080301000 + 3032) (some 5)]).isSome = true := by decide +kernel
  obtain ⟨s, hs⟩ := Option.isSome_iff_exists.1 h
  exact ⟨s, hs, (run_slub_safe _ _ _ _ _ s hs).1⟩

end SlubSys

end MiniOs.Mm
