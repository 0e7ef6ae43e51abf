/-
The invariant of the SLUB allocator. `own` names the slabs (page to cache). `Core` describes the
headers, the freelists, the live objects and the pages, with the partial lists holding the slabs of
a given predicate; each elementary move (adopt or drop a page, link or unlink a slab, take or give
back an object) keeps `Core` and says what becomes of the predicate. Between calls a slab is listed
exactly when it has a free object, and has a live one.
-/
import MiniOs.Mm.Slub
import MiniOs.Library.Bits
import MiniOs.Proofs.Mm.PageClients

namespace MiniOs.Mm

open Library PageAlloc Slub Function

/-! ## The geometry of a slab -/

/-- `x` is the address of an object of the slab at `base`. -/
def Slot (k : KmemCache) (base x : Nat) : Prop := ∃ i < slabObjectsPerPage k, x = objectAt k base i

variable {base c d p q x : Nat}

section Geometry

variable {k : KmemCache}

theorem objectsPerPage_spec (hn : 0 < slabObjectsPerPage k) :
    (slabObjectOffset k).toNat + slabObjectsPerPage k * k.objectSize.toNat ≤ pageSize := by
  unfold slabObjectsPerPage at hn ⊢
  simp only at hn ⊢
  split at hn
  · omega
  · rename_i h
    rw [if_neg h]
    have := Nat.div_mul_le_self (pageSize - (slabObjectOffset k).toNat) k.objectSize.toNat
    omega

/-- Rounding the header up to the object size never goes below the header. -/
theorem header_le_offset (hs : minObjectSize.toNat ≤ k.objectSize.toNat) (hle : k.objectSize.toNat ≤ pageSize) :
    slabHeaderSize.toNat ≤ (slabObjectOffset k).toNat := by
  unfold slabObjectOffset
  have hnot : ¬ k.objectSize < minObjectSize := by rw [BitVec.lt_def]; omega
  simp only [if_neg hnot]
  have hmask := Bits.le_and_not_add (slabHeaderSize + k.objectSize - 1) (k.objectSize - 1)
  have hsub : (k.objectSize - 1).toNat = k.objectSize.toNat - 1 := by
    rw [BitVec.toNat_sub_of_le (by rw [BitVec.le_def]; exact le_trans (by decide) hs)]; rfl
  have hadd : (slabHeaderSize + k.objectSize - 1).toNat = slabHeaderSize.toNat + k.objectSize.toNat - 1 := by
    have h40 : slabHeaderSize.toNat = 40 := rfl
    have hsum : (slabHeaderSize + k.objectSize).toNat = slabHeaderSize.toNat + k.objectSize.toNat := by
      rw [BitVec.toNat_add, Nat.mod_eq_of_lt]
      unfold pageSize at hle; omega
    rw [BitVec.toNat_sub_of_le (by rw [BitVec.le_def, hsum]; exact le_trans (by decide) (Nat.le_add_right _ _)), hsum]
    rfl
  have h8 : minObjectSize.toNat = 8 := rfl
  omega

theorem Slot.range (hs : minObjectSize.toNat ≤ k.objectSize.toNat) (hx : Slot k base x) :
    base + slabHeaderSize.toNat ≤ x ∧ x + k.objectSize.toNat ≤ base + pageSize := by
  obtain ⟨i, hi, rfl⟩ := hx
  have hspec := objectsPerPage_spec (k := k) (by omega)
  have hmul : (i + 1) * k.objectSize.toNat ≤ slabObjectsPerPage k * k.objectSize.toNat :=
    Nat.mul_le_mul_right _ hi
  have hone : k.objectSize.toNat ≤ (i + 1) * k.objectSize.toNat := Nat.le_mul_of_pos_left _ (by omega)
  have hoff := header_le_offset hs (by omega)
  rw [Nat.succ_mul] at hmul
  unfold objectAt
  omega

/-- Distinct objects of one slab do not overlap. -/
theorem Slot.apart {y : Nat} (hx : Slot k base x) (hy : Slot k base y) (hne : x ≠ y) :
    x + k.objectSize.toNat ≤ y ∨ y + k.objectSize.toNat ≤ x := by
  obtain ⟨i, -, rfl⟩ := hx
  obtain ⟨j, -, rfl⟩ := hy
  unfold objectAt at *
  rcases Nat.lt_trichotomy i j with h | rfl | h
  · left
    have := Nat.mul_le_mul_right k.objectSize.toNat (show i + 1 ≤ j from h)
    rw [Nat.succ_mul] at this
    omega
  · exact absurd rfl hne
  · right
    have := Nat.mul_le_mul_right k.objectSize.toNat (show j + 1 ≤ i from h)
    rw [Nat.succ_mul] at this
    omega

theorem Slot.page_unique {k' : KmemCache} {m : Nat} (hs : minObjectSize.toNat ≤ k.objectSize.toNat)
    (hs' : minObjectSize.toNat ≤ k'.objectSize.toNat) (hx : Slot k (m + p * pageSize) x)
    (hy : Slot k' (m + q * pageSize) x) : p = q := by
  obtain ⟨h1, h2⟩ := hx.range hs
  obtain ⟨h3, h4⟩ := hy.range hs'
  have h8 : minObjectSize.toNat = 8 := rfl
  unfold pageSize at *
  omega

theorem objectAt_injective (hs : minObjectSize.toNat ≤ k.objectSize.toNat) (base : Nat) :
    Function.Injective (objectAt k base) := by
  intro i j h
  have h8 : minObjectSize.toNat = 8 := rfl
  unfold objectAt at h
  exact Nat.eq_of_mul_eq_mul_right (show 0 < k.objectSize.toNat by omega) (by omega)

/-- The objects of a slab, last first: the freelist `slab_create` builds. -/
def slots (k : KmemCache) (base n : Nat) : List Nat := ((List.range n).map (objectAt k base)).reverse

theorem mem_slots {n : Nat} : x ∈ slots k base n ↔ ∃ i < n, x = objectAt k base i := by
  simp only [slots, List.mem_reverse, List.mem_map, List.mem_range, eq_comm]

theorem slots_length (base n : Nat) : (slots k base n).length = n := by simp [slots]

theorem slots_nodup (hs : minObjectSize.toNat ≤ k.objectSize.toNat) (base n : Nat) : (slots k base n).Nodup := by
  unfold slots
  rw [List.nodup_reverse]
  exact List.nodup_range.map (objectAt_injective hs base)

theorem slots_succ (base n : Nat) : slots k base (n + 1) = objectAt k base n :: slots k base n := by
  simp [slots, List.range_succ]

/-- The loop of `slab_create` threads all objects, and touches no other word. -/
theorem carve_spec (hs : minObjectSize.toNat ≤ k.objectSize.toNat) (base : Nat) (words : Nat → Option Nat) :
    ∀ n, Chain (carve k base words n).1 (carve k base words n).2 (slots k base n) ∧
      ∀ x, x ∉ slots k base n → (carve k base words n).1 x = words x
  | 0 => ⟨rfl, fun _ _ => rfl⟩
  | n + 1 => by
    obtain ⟨h1, h2⟩ := carve_spec hs base words n
    have hnew : objectAt k base n ∉ slots k base n := by
      rw [mem_slots]
      rintro ⟨i, hi, he⟩
      exact absurd (objectAt_injective hs base he) (by omega)
    have hwords : (carve k base words (n + 1)).1 =
        update (carve k base words n).1 (objectAt k base n) (carve k base words n).2 := rfl
    rw [slots_succ]
    refine ⟨⟨rfl, ?_⟩, fun x hx => ?_⟩
    · rw [hwords, update_self]
      exact h1.congr fun a ha => update_of_ne (fun e : a = objectAt k base n => hnew (e ▸ ha)) ..
    · rw [List.mem_cons, not_or] at hx
      rw [hwords, update_of_ne hx.1]
      exact h2 x hx.2

end Geometry

/-! ## The invariant -/

/-- What holds of the slab on page `p` of cache `c`. -/
structure SlabOk (m : Nat) (k : KmemCache) (c : Nat) (hdr : Slab) (words live : Nat → Option Nat) (p : Nat) :
    Prop where
  magic : hdr.magic = slabMagic
  cache : hdr.cache = some c
  objects : hdr.objects.toNat = slabObjectsPerPage k
  free : ∃ l, Chain words hdr.freelist l ∧ l.Nodup ∧
    (∀ x, x ∈ l ↔ Slot k (m + p * pageSize) x ∧ live x = none) ∧ hdr.inuse.toNat + l.length = slabObjectsPerPage k

variable {hdr : Slab} {live words : Nat → Option Nat}

/-- The free words of the slab and its live objects are all that matter. -/
theorem SlabOk.congr {m : Nat} {k : KmemCache} {words' live' : Nat → Option Nat}
    (h : SlabOk m k c hdr words live p)
    (hw : ∀ x, Slot k (m + p * pageSize) x → live x = none → words' x = words x)
    (hl : ∀ x, Slot k (m + p * pageSize) x → live' x = live x) : SlabOk m k c hdr words' live' p := by
  obtain ⟨l, h1, h2, h3, h4⟩ := h.free
  refine ⟨h.magic, h.cache, h.objects, l, h1.congr fun x hx => hw x ((h3 x).1 hx).1 ((h3 x).1 hx).2, h2,
    fun x => ?_, h4⟩
  rw [h3]
  exact and_congr_right fun hx => by rw [hl x hx]

/-- A live object leaves fewer free ones. -/
theorem length_lt_of_live {k : KmemCache} {l : List Nat} (hn : l.Nodup)
    (hl : ∀ x, x ∈ l ↔ Slot k base x ∧ live x = none)
    (hx : Slot k base x) (hlive : live x ≠ none) : l.length < slabObjectsPerPage k := by
  have hxl : x ∉ l := fun hmem => hlive ((hl x).1 hmem).2
  have hsub : (x :: l) ⊆ slots k base (slabObjectsPerPage k) := by
    intro y hy
    rw [mem_slots]
    rcases List.mem_cons.1 hy with rfl | hy
    · exact hx
    · exact ((hl y).1 hy).1
  have hle := ((List.nodup_cons.2 ⟨hxl, hn⟩).subperm hsub).length_le
  rw [slots_length] at hle
  simpa using hle

/-- The blocks the slabs hold of the page allocator. -/
def slabHeld (own : Nat → Option Nat) (p : Nat) : Option Nat := (own p).map fun _ => 0

namespace SlubSys

structure Core (m : Nat) (s : SlubSys) (own : Nat → Option Nat) (listed : Nat → Prop) : Prop where
  start : s.slub.pa.memStart = m
  pages : Inv s.slub.pa (joinHeld s.env (slabHeld own))
  apart : ∀ p, s.env p = none ∨ slabHeld own p = none
  count : ∀ p, own p ≠ none → s.slub.pa.refcount p = 1
  sizes : ∀ c k, s.slub.caches c = some k → minObjectSize.toNat ≤ k.objectSize.toNat
  slabs : ∀ p c, own p = some c → ∃ k, s.slub.caches c = some k ∧
    SlabOk m k c (s.slub.slabs p) s.slub.words s.live p
  live : ∀ x c, s.live x = some c → ∃ p k, own p = some c ∧ s.slub.caches c = some k ∧
    Slot k (m + p * pageSize) x
  lists : ∀ c k, s.slub.caches c = some k → ∃ l, (s.slub.partialList k).Holds l ∧ l.Nodup ∧
    ∀ p, p ∈ l ↔ own p = some c ∧ listed p

variable {k : KmemCache} {p c : Nat}

section Core

variable {m : Nat} {s : SlubSys} {own : Nat → Option Nat} {listed : Nat → Prop}

theorem Core.congr {listed' : Nat → Prop} (h : Core m s own listed)
    (hl : ∀ p c, own p = some c → (listed p ↔ listed' p)) : Core m s own listed' := by
  refine ⟨h.start, h.pages, h.apart, h.count, h.sizes, h.slabs, h.live, fun c k hk => ?_⟩
  obtain ⟨l, h1, h2, h3⟩ := h.lists c k hk
  refine ⟨l, h1, h2, fun p => ?_⟩
  rw [h3]
  exact and_congr_right fun hp => hl p c hp

theorem ne_of_own (hp : own p = none) (hq : own q = some d) : q ≠ p := by
  rintro rfl
  rw [hp] at hq
  cases hq

theorem ne_of_cache (hp : own p = some c) (hq : own q = some d) (hd : d ≠ c) : q ≠ p := by
  rintro rfl
  exact hd (Option.mem_unique hq hp)

theorem own_of_drop (hq : update own p none q = some d) : q ≠ p ∧ own q = some d := by
  have e : q ≠ p := by
    rintro rfl
    rw [update_self] at hq
    cases hq
  exact ⟨e, by rwa [update_of_ne e] at hq⟩

theorem slabHeld_some (h : own p = some c) : slabHeld own p = some 0 := by simp [slabHeld, h]

section

variable (h : Core m s own listed)
include h

theorem Core.env_none (hp : own p = some c) : s.env p = none :=
  (h.apart p).resolve_right (by simp [slabHeld_some hp])

theorem Core.held (hp : own p = some c) : joinHeld s.env (slabHeld own) p = some 0 := by
  simp [joinHeld, h.env_none hp, slabHeld_some hp]

theorem Core.page_lt (hp : own p = some c) : p < s.slub.pa.poolPages :=
  (h.pages.inPool p 0 (.inr (h.held hp))).lt

theorem Core.length_le {l : List Nat} (hn : l.Nodup)
    (hl : ∀ p, p ∈ l ↔ own p = some c ∧ listed p) : l.length ≤ s.slub.pa.poolPages := by
  have hsub : l ⊆ List.range s.slub.pa.poolPages := fun p hp => List.mem_range.2 (h.page_lt ((hl p).1 hp).1)
  simpa using (hn.subperm hsub).length_le

theorem Core.slabFromObject (hp : own p = some c)
    (hk : s.slub.caches c = some k) (hx : Slot k (m + p * pageSize) x) : s.slub.slabFromObject x = p := by
  obtain ⟨h1, h2⟩ := hx.range (h.sizes c k hk)
  have h8 : minObjectSize.toNat = 8 := rfl
  have hsize := h.sizes c k hk
  obtain ⟨q, hq⟩ := h.pages.pool.aligned
  have hm : m = pageSize * q := by rw [← hq]; exact h.start.symm
  have hdiv : x / pageSize = q + p := by
    unfold pageSize at *
    omega
  unfold Slub.slabFromObject
  have haddr : x / pageSize * pageSize = s.slub.pa.pfnToAddr p := by
    unfold pfnToAddr
    rw [hdiv, h.start, hm]; ring
  rw [haddr]
  exact addrToPfn_pfnToAddr h.pages.pool (h.page_lt hp)

theorem Core.slab (hp : own p = some c)
    (hk : s.slub.caches c = some k) : SlabOk m k c (s.slub.slabs p) s.slub.words s.live p := by
  obtain ⟨k', hk', hok⟩ := h.slabs p c hp
  obtain rfl := Option.mem_unique hk hk'
  exact hok

/-! ## Moves on the partial lists -/

/-- The list of one cache is replaced; `next` changes only on pages of that cache. -/
theorem Core.setPartial {pl : PtrList Nat} {l : List Nat} {listed' : Nat → Prop}
    (hk : s.slub.caches c = some k) (hl : pl.Holds l) (hn : l.Nodup)
    (hm : ∀ p, p ∈ l ↔ own p = some c ∧ listed' p) (hnext : ∀ q, own q ≠ some c → pl.next q = s.slub.next q)
    (hother : ∀ q d, own q = some d → d ≠ c → (listed q ↔ listed' q)) :
    Core m { s with slub := s.slub.setPartial c k pl } own listed' := by
  have hcaches : ∀ d, d ≠ c → (s.slub.setPartial c k pl).caches d = s.slub.caches d := fun d hd =>
    update_of_ne hd ..
  have hself : (s.slub.setPartial c k pl).caches c = some { k with partialHead := pl.head } :=
    update_self ..
  refine ⟨h.start, h.pages, h.apart, h.count, fun d k' hd => ?_, fun q d hq => ?_, fun x d hx => ?_, fun d k' hd => ?_⟩
  · by_cases e : d = c
    · subst e
      rw [hself] at hd; cases hd
      exact h.sizes d k hk
    · rw [hcaches d e] at hd
      exact h.sizes d k' hd
  · by_cases e : d = c
    · subst e
      have hok := h.slab hq hk
      exact ⟨_, hself, hok.magic, hok.cache, hok.objects, hok.free⟩
    · obtain ⟨k', hk', hok⟩ := h.slabs q d hq
      exact ⟨k', (hcaches d e).trans hk', hok⟩
  · obtain ⟨q, k', hq, hk', hslot⟩ := h.live x d hx
    by_cases e : d = c
    · subst e
      obtain rfl := Option.mem_unique hk hk'
      exact ⟨q, _, hq, hself, hslot⟩
    · exact ⟨q, k', hq, (hcaches d e).trans hk', hslot⟩
  · by_cases e : d = c
    · subst e
      rw [hself] at hd; cases hd
      exact ⟨l, hl, hn, hm⟩
    · rw [hcaches d e] at hd
      obtain ⟨l', h1, h2, h3⟩ := h.lists d k' hd
      refine ⟨l', h1.congr fun q hq => hnext q ?_, h2, fun q => ?_⟩
      · rw [((h3 q).1 hq).1]
        exact fun e' => e (Option.some.inj e')
      · rw [h3]
        exact and_congr_right fun hq => hother q d hq e

theorem Core.link (hp : own p = some c) (hnot : ¬ listed p) :
    Core m { s with slub := s.slub.partialLink c p } own fun q => q = p ∨ listed q := by
  obtain ⟨k, hk, -⟩ := h.slabs p c hp
  obtain ⟨l, h1, h2, h3⟩ := h.lists c k hk
  have hpl : p ∉ l := fun hmem => hnot ((h3 p).1 hmem).2
  have heq : s.slub.partialLink c p = s.slub.setPartial c k ((s.slub.partialList k).push p) := by
    unfold Slub.partialLink; rw [hk]
  rw [heq]
  refine h.setPartial hk (PtrList.push_holds h1 hpl) (List.nodup_cons.2 ⟨hpl, h2⟩) (fun q => ?_) (fun q hq => ?_)
    fun q d hq hd => ?_
  · rw [List.mem_cons, h3]
    constructor
    · rintro (rfl | ⟨hq, hlq⟩)
      · exact ⟨hp, .inl rfl⟩
      · exact ⟨hq, .inr hlq⟩
    · rintro ⟨hq, rfl | hlq⟩
      · exact .inl rfl
      · exact .inr ⟨hq, hlq⟩
  · refine PtrList.push_next_of_ne ?_
    rintro rfl
    exact hq hp
  · simp [ne_of_cache hp hq hd]

/-- Unlinking a slab, on the list or not. -/
theorem Core.unlink (hp : own p = some c) :
    Core m { s with slub := s.slub.partialUnlink c p } own fun q => q ≠ p ∧ listed q := by
  obtain ⟨k, hk, -⟩ := h.slabs p c hp
  obtain ⟨l, h1, h2, h3⟩ := h.lists c k hk
  have hother : ∀ q d, own q = some d → d ≠ c → (listed q ↔ q ≠ p ∧ listed q) := by
    intro q d hq hd
    simp [ne_of_cache hp hq hd]
  by_cases hpl : p ∈ l
  · obtain ⟨pl, e1, e2, e3⟩ := PtrList.unlink_spec h1 h2 hpl (h.length_le h2 h3)
    have heq : s.slub.partialUnlink c p =
        s.slub.setPartial c k { pl with next := update pl.next p none } := by
      unfold Slub.partialUnlink; simp only [hk, e1]
    rw [heq]
    have hpe : p ∉ l.erase p := h2.not_mem_erase
    refine h.setPartial hk (e2.congr fun a ha => ?_) (h2.erase p) (fun q => ?_) (fun q hq => ?_) hother
    · exact update_of_ne (fun e : a = p => hpe (e ▸ ha)) ..
    · rw [h2.mem_erase_iff, h3]
      tauto
    · have hqp : q ≠ p := by rintro rfl; exact hq hp
      show update pl.next p none q = _
      rw [update_of_ne hqp]
      exact e3 q fun hmem => hq ((h3 q).1 hmem).1
  · have heq : s.slub.partialUnlink c p = s.slub := by
      unfold Slub.partialUnlink; simp only [hk, PtrList.unlink_none h1 hpl]
    rw [heq]
    refine h.congr fun q d hq => ?_
    have : listed q → q ≠ p := by
      rintro hlq rfl
      exact hpl ((h3 q).2 ⟨hp, hlq⟩)
    tauto

/-! ## Moves on objects -/

/-- One slab and the word and liveness of one of its objects change. -/
theorem Core.setSlab
    (hp : own p = some c) (hk : s.slub.caches c = some k)
    (hx : Slot k (m + p * pageSize) x) (hw : ∀ y, y ≠ x → words y = s.slub.words y)
    (hl : ∀ y, y ≠ x → live y = s.live y) (hlx : ∀ d, live x = some d → d = c)
    (hok : SlabOk m k c hdr words live p) :
    Core m ⟨{ s.slub with slabs := update s.slub.slabs p hdr, words := words }, s.env, live⟩ own listed := by
  refine ⟨h.start, h.pages, h.apart, h.count, h.sizes, fun q d hq => ?_, fun y d hy => ?_, h.lists⟩
  · by_cases e : q = p
    · subst e
      obtain rfl := Option.mem_unique hp hq
      refine ⟨k, hk, ?_⟩
      show SlabOk m k c (update s.slub.slabs q hdr q) words live q
      rw [update_self]
      exact hok
    · obtain ⟨k', hk', hok'⟩ := h.slabs q d hq
      have hslot : ∀ y, Slot k' (m + q * pageSize) y → y ≠ x := by
        rintro y hy rfl
        exact e (hy.page_unique (h.sizes d k' hk') (h.sizes c k hk) hx)
      refine ⟨k', hk', ?_⟩
      show SlabOk m k' d (update s.slub.slabs p hdr q) words live q
      rw [update_of_ne e]
      exact hok'.congr (fun y hy _ => hw y (hslot y hy)) fun y hy => hl y (hslot y hy)
  · by_cases e : y = x
    · subst e
      rw [hlx d hy]
      exact ⟨p, k, hp, hk, hx⟩
    · exact h.live y d (by rw [← hl y e]; exact hy)

/-- Taking the first free object of a slab. -/
theorem Core.pop (hp : own p = some c)
    (hk : s.slub.caches c = some k) (hf : (s.slub.slabs p).freelist = some x) :
    Core m ⟨{ s.slub with slabs := update s.slub.slabs p { s.slub.slabs p with
      freelist := s.slub.words x, inuse := (s.slub.slabs p).inuse + 1 } }, s.env,
        update s.live x (some c)⟩ own listed ∧
      ((s.slub.slabs p).inuse + 1).toNat = (s.slub.slabs p).inuse.toNat + 1 ∧
      (s.slub.words x = none ↔ (s.slub.slabs p).inuse.toNat + 1 = slabObjectsPerPage k) ∧
      Slot k (m + p * pageSize) x ∧ s.live x = none := by
  have hok := h.slab hp hk
  obtain ⟨l, h1, h2, h3, h4⟩ := hok.free
  rw [hf] at h1
  obtain ⟨l, rfl⟩ : ∃ l', l = x :: l' := by
    cases l with
    | nil => cases h1
    | cons y l => obtain ⟨e, -⟩ := h1; cases e; exact ⟨l, rfl⟩
  obtain ⟨-, htail⟩ := h1
  obtain ⟨hxl, hnl⟩ := List.nodup_cons.1 h2
  obtain ⟨hslot, hlive⟩ := (h3 x).1 (List.mem_cons_self ..)
  have hinc : ((s.slub.slabs p).inuse + 1).toNat = (s.slub.slabs p).inuse.toNat + 1 := by
    have hobj := hok.objects
    have hlt := (s.slub.slabs p).objects.isLt
    simp only [List.length_cons] at h4
    rw [BitVec.toNat_add, Nat.mod_eq_of_lt]
    · rfl
    · show _ + 1 < _; omega
  refine ⟨h.setSlab hp hk hslot (fun _ _ => rfl) (fun y hy => update_of_ne hy ..) (fun d hd => ?_)
    ⟨hok.magic, hok.cache, hok.objects, l, htail, hnl, fun y => ?_, ?_⟩, hinc, ?_, hslot, hlive⟩
  · rw [update_self] at hd
    exact (Option.some.inj hd).symm
  · by_cases e : y = x
    · subst e; simp [hxl]
    · rw [update_of_ne e, ← h3, List.mem_cons]
      simp [e]
  · show ((s.slub.slabs p).inuse + 1).toNat + l.length = _
    rw [hinc]
    simp only [List.length_cons] at h4
    omega
  · rw [htail.eq_nil_iff, ← List.length_eq_zero_iff]
    simp only [List.length_cons] at h4
    omega

end

theorem slabPush_self (st : Slub) (p x : Nat) :
    (st.slabPush p x).slabs p = { st.slabs p with freelist := some x, inuse := (st.slabs p).inuse - 1 } :=
  update_self ..

theorem slabPush_of_ne (st : Slub) (x : Nat) (h : q ≠ p) : (st.slabPush p x).slabs q = st.slabs q :=
  update_of_ne h ..

/-- Giving a live object back to its slab. -/
theorem Core.give (h : Core m s own listed) (hp : own p = some c)
    (hk : s.slub.caches c = some k) (hx : Slot k (m + p * pageSize) x) (hlive : s.live x ≠ none) :
    Core m ⟨s.slub.slabPush p x, s.env, update s.live x none⟩ own listed ∧
      ((s.slub.slabPush p x).slabs p).inuse.toNat + 1 = (s.slub.slabs p).inuse.toNat := by
  have hok := h.slab hp hk
  obtain ⟨l, h1, h2, h3, h4⟩ := hok.free
  have hxl : x ∉ l := fun hmem => hlive ((h3 x).1 hmem).2
  -- the object is one of the slots and not free, so the slab counts a live one
  have hlt := length_lt_of_live h2 h3 hx hlive
  have hdec : ((s.slub.slabs p).inuse - 1).toNat = (s.slub.slabs p).inuse.toNat - 1 := by
    rw [BitVec.toNat_sub_of_le]
    · rfl
    · rw [BitVec.le_def]; show 1 ≤ _; omega
  refine ⟨h.setSlab hp hk hx (fun y hy => update_of_ne hy ..) (fun y hy => update_of_ne hy ..)
    (fun d hd => ?_) ⟨hok.magic, hok.cache, hok.objects, x :: l, ⟨rfl, ?_⟩, List.nodup_cons.2 ⟨hxl, h2⟩, fun y => ?_,
      ?_⟩, ?_⟩
  · rw [update_self] at hd; cases hd
  · rw [update_self]
    exact h1.congr fun a ha => update_of_ne (fun e : a = x => hxl (e ▸ ha)) ..
  · by_cases e : y = x
    · subst e; simp [hx]
    · rw [update_of_ne e, ← h3, List.mem_cons]
      simp [e]
  · show ((s.slub.slabs p).inuse - 1).toNat + (x :: l).length = _
    rw [hdec, List.length_cons]
    omega
  · rw [slabPush_self, hdec]
    omega

/-- The user of a live object writes into it. -/
theorem Core.write {w : Option Nat} (h : Core m s own listed) (hlive : s.live x = some c) :
    Core m { s with slub := { s.slub with words := update s.slub.words x w } } own listed := by
  obtain ⟨p, k, hp, hk, hx⟩ := h.live x c hlive
  have hok' : SlabOk m k c (s.slub.slabs p) (update s.slub.words x w) s.live p := by
    refine (h.slab hp hk).congr (fun y _ hy => update_of_ne ?_ ..) fun _ _ => rfl
    rintro rfl
    rw [hlive] at hy
    cases hy
  have hset := h.setSlab hp hk hx (fun y hy => update_of_ne hy ..) (fun _ _ => rfl)
    (fun d hd => by rw [hlive] at hd; exact (Option.some.inj hd).symm) hok'
  rwa [update_eq_self] at hset

/-! ## Moves on pages -/

theorem Core.page {op : PageSys.Op} {t : PageSys} (h : Core m s own listed)
    (ht : (PageSys.mk s.slub.pa s.env).ownStep op = some t) :
    Core m { s with slub := { s.slub with pa := t.pa }, env := t.held } own listed := by
  have hf := PageSys.ownStep_framed h.pages h.apart ht
  refine ⟨hf.memStart.trans h.start, hf.inv, hf.apart, fun p hp => ?_, h.sizes, h.slabs, h.live, h.lists⟩
  rw [← h.count p hp]
  refine hf.refcount p ?_
  obtain ⟨c, hc⟩ := Option.ne_none_iff_exists'.1 hp
  rw [slabHeld_some hc]
  exact Option.some_ne_none 0

theorem slabHeld_update {v : Option Nat} :
    slabHeld (update own p v) = update (slabHeld own) p (v.map fun _ => 0) := by
  funext q
  by_cases e : q = p
  · subst e; simp [slabHeld]
  · simp [slabHeld, e]

variable (h : Core m s own listed)
include h

/-- A slab without live objects that is on no list gives its page back. -/
theorem Core.drop (hp : own p = some c) (hnot : ¬ listed p)
    (hdead : ∀ x d, s.live x = some d → s.slub.slabFromObject x ≠ p) :
    Core m { s with slub := { s.slub with pa := s.slub.pa.freePages (s.slub.pa.pfnToAddr p) 0 } }
      (update own p none) listed ∧
      p ∈ (s.slub.pa.freePages (s.slub.pa.pfnToAddr p) 0).freePageSet := by
  have hheld := h.held hp
  have hacc : s.slub.pa.freePagesAccepts (s.slub.pa.pfnToAddr p) (0 : Nat) = true := by
    rw [freePagesAccepts_iff h.pages hheld, h.count p (by rw [hp]; exact Option.some_ne_none c)]
    exact ⟨h.pages.pool.aligned, by decide⟩
  have hf := freePages_freed h.pages hheld hacc
  refine ⟨⟨hf.memStart.trans h.start, ?_, fun q => ?_, fun q hq => ?_, h.sizes, fun q d hq => ?_, fun x d hx => ?_,
    fun d k hk => ?_⟩, ?_⟩
  · rw [slabHeld_update, PageSys.joinHeld_update_right (h.env_none hp)]
    exact hf.inv
  · rw [slabHeld_update]
    by_cases e : q = p
    · subst e; simp
    · rw [update_of_ne e]; exact h.apart q
  · obtain ⟨d, hd⟩ := Option.ne_none_iff_exists'.1 hq
    obtain ⟨e, hd⟩ := own_of_drop hd
    show (s.slub.pa.freePages _ ((0 : Nat) : Int)).refcount q = 1
    rw [hf.refcount, update_of_ne e]
    exact h.count q (by rw [hd]; exact Option.some_ne_none d)
  · exact h.slabs q d (own_of_drop hq).2
  · obtain ⟨q, k, hq, hk, hslot⟩ := h.live x d hx
    have hqp : q ≠ p := by
      rintro rfl
      exact hdead x d hx (h.slabFromObject hq hk hslot)
    exact ⟨q, k, by rw [update_of_ne hqp]; exact hq, hk, hslot⟩
  · obtain ⟨l, h1, h2, h3⟩ := h.lists d k hk
    refine ⟨l, h1, h2, fun q => ?_⟩
    rw [h3]
    by_cases e : q = p
    · subst e; simp [hnot]
    · rw [update_of_ne e]
  · show p ∈ (s.slub.pa.freePages _ ((0 : Nat) : Int)).freePageSet
    rw [hf.pages]
    exact .inr (Library.Dyadic.head_mem_block p 0)

/-- No object of a page without a slab is live. -/
theorem Core.not_live (hp : own p = none)
    (hs : minObjectSize.toNat ≤ k.objectSize.toNat) (hx : Slot k (m + p * pageSize) x) : s.live x = none := by
  by_contra hne
  obtain ⟨d, hd⟩ := Option.ne_none_iff_exists'.1 hne
  obtain ⟨q, k', hq, hk', hy⟩ := h.live x d hd
  rw [hx.page_unique hs (h.sizes d k' hk') hy, hq] at hp
  cases hp

/-- The header of a page without a slab does not matter. -/
theorem Core.scribble {pa : PageAlloc} {v : Option Nat}
    (hp : own p = none) (hI : Inv pa (joinHeld s.env (slabHeld own))) (hm : pa.memStart = s.slub.pa.memStart)
    (hr : ∀ q, q ≠ p → pa.refcount q = s.slub.pa.refcount q) :
    Core m { s with slub := { s.slub with
      pa := pa, slabs := update s.slub.slabs p hdr, next := update s.slub.next p v } } own listed := by
  refine ⟨hm.trans h.start, hI, h.apart, fun q hq => ?_, h.sizes, fun q c hq => ?_, h.live, fun c k hk => ?_⟩
  · obtain ⟨c, hc⟩ := Option.ne_none_iff_exists'.1 hq
    rw [← h.count q hq]
    exact hr q (ne_of_own hp hc)
  · obtain ⟨k, hk, hok⟩ := h.slabs q c hq
    refine ⟨k, hk, ?_⟩
    show SlabOk m k c (update s.slub.slabs p hdr q) _ _ q
    rw [update_of_ne (ne_of_own hp hq)]
    exact hok
  · obtain ⟨l, h1, h2, h3⟩ := h.lists c k hk
    exact ⟨l, h1.congr fun q hq => update_of_ne (ne_of_own hp ((h3 q).1 hq).1) .., h2, h3⟩

/-- A fresh page becomes a slab of the cache, on no list yet. -/
theorem Core.adopt {pa : PageAlloc}
    (hk : s.slub.caches c = some k)
    (hal : Allocated s.slub.pa pa (joinHeld s.env (slabHeld own)) p 0)
    (hw : ∀ x, ¬ Slot k (m + p * pageSize) x → words x = s.slub.words x)
    (hok : SlabOk m k c hdr words s.live p) :
    Core m { s with slub := { s.slub with
      pa := pa, slabs := update s.slub.slabs p hdr, next := update s.slub.next p none
      words := words } } (update own p (some c)) fun q => q ≠ p ∧ listed q := by
  obtain ⟨henv, hheld⟩ : s.env p = none ∧ slabHeld own p = none := by simpa [joinHeld] using hal.fresh
  have hp : own p = none := by simpa [slabHeld] using hheld
  refine ⟨hal.memStart.trans h.start, ?_, fun q => ?_, fun q hq => ?_, h.sizes, fun q d hq => ?_, fun x d hx => ?_,
    fun d k' hk' => ?_⟩
  · rw [slabHeld_update, PageSys.joinHeld_update_right henv]
    exact hal.inv
  · rw [slabHeld_update]
    by_cases e : q = p
    · subst e; exact .inl henv
    · rw [update_of_ne e]; exact h.apart q
  · show pa.refcount q = 1
    rw [hal.refcount]
    by_cases e : q = p
    · subst e; exact update_self ..
    · rw [update_of_ne e] at hq ⊢
      exact h.count q hq
  · by_cases e : q = p
    · subst e
      rw [update_self] at hq; cases hq
      refine ⟨k, hk, ?_⟩
      show SlabOk m k c (update s.slub.slabs q hdr q) words s.live q
      rw [update_self]; exact hok
    · rw [update_of_ne e] at hq
      obtain ⟨k', hk', hok'⟩ := h.slabs q d hq
      refine ⟨k', hk', ?_⟩
      show SlabOk m k' d (update s.slub.slabs p hdr q) words s.live q
      rw [update_of_ne e]
      refine hok'.congr (fun y hy _ => hw y fun hslot => e ?_) fun _ _ => rfl
      exact hy.page_unique (h.sizes d k' hk') (h.sizes c k hk) hslot
  · obtain ⟨q, k', hq, hk', hslot⟩ := h.live x d hx
    exact ⟨q, k', by rw [update_of_ne (ne_of_own hp hq)]; exact hq, hk', hslot⟩
  · obtain ⟨l, h1, h2, h3⟩ := h.lists d k' hk'
    refine ⟨l, h1.congr fun q hq => update_of_ne (ne_of_own hp ((h3 q).1 hq).1) .., h2, fun q => ?_⟩
    rw [h3]
    by_cases e : q = p
    · subst e; simp [hp]
    · simp [e]

theorem newSlab_ok (hk : s.slub.caches c = some k)
    (hp : own p = none) :
    SlabOk m k c
      { magic := slabMagic, cache := some c, inuse := 0, objects := BitVec.ofNat 32 (slabObjectsPerPage k)
        freelist := (carve k (m + p * pageSize) s.slub.words (slabObjectsPerPage k)).2 }
      (carve k (m + p * pageSize) s.slub.words (slabObjectsPerPage k)).1 s.live p := by
  have hs := h.sizes c k hk
  obtain ⟨h1, -⟩ := carve_spec hs (m + p * pageSize) s.slub.words (slabObjectsPerPage k)
  refine ⟨rfl, rfl, ?_, slots k (m + p * pageSize) (slabObjectsPerPage k), h1, slots_nodup hs _ _, fun x => ?_, ?_⟩
  · show (BitVec.ofNat 32 _).toNat = _
    rw [BitVec.toNat_ofNat, Nat.mod_eq_of_lt]
    have hle : slabObjectsPerPage k ≤ pageSize := by
      unfold slabObjectsPerPage
      simp only
      split
      · exact Nat.zero_le _
      · exact (Nat.div_le_self _ _).trans (Nat.sub_le _ _)
    exact hle.trans_lt (by decide)
  · rw [mem_slots]
    exact ⟨fun hx => ⟨hx, h.not_live hp hs hx⟩, fun hx => hx.1⟩
  · rw [slots_length]; exact Nat.zero_add _

theorem slabCreate_spec (hk : s.slub.caches c = some k) :
    (∃ st, s.slub.slabCreate c k = (none, st) ∧ Core m { s with slub := st } own listed ∧
      ∀ q d, own q = some d → st.slabs q = s.slub.slabs q) ∨
    ∃ p st, s.slub.slabCreate c k = (some p, st) ∧ own p = none ∧
      Core m { s with slub := st } (update own p (some c)) (fun q => q ≠ p ∧ listed q) ∧
      (∀ q, q ≠ p → st.slabs q = s.slub.slabs q) ∧ (st.slabs p).inuse.toNat = 0 ∧ 0 < (st.slabs p).objects.toNat := by
  unfold Slub.slabCreate
  split
  · rename_i pa hpa
    obtain ⟨rfl, -⟩ := allocPages_none h.pages hpa
    exact .inl ⟨_, rfl, h, fun _ _ _ => rfl⟩
  · rename_i base pa hpa
    obtain ⟨p, k0, hk0, rfl, hal⟩ := allocPages_some h.pages hpa
    obtain rfl : k0 = 0 := by omega
    have hlt : p < pa.poolPages := by rw [hal.poolPages]; exact hal.inPool.lt
    have haddr : s.slub.pa.pfnToAddr p = pa.pfnToAddr p := by unfold pfnToAddr; rw [hal.memStart]
    have hpfn : pa.addrToPfn (s.slub.pa.pfnToAddr p) = p := by rw [haddr]; exact addrToPfn_pfnToAddr hal.inv.pool hlt
    have hbase : s.slub.pa.pfnToAddr p = m + p * pageSize := by unfold pfnToAddr; rw [h.start]
    obtain ⟨henv, hheld⟩ : s.env p = none ∧ slabHeld own p = none := by simpa [joinHeld] using hal.fresh
    have hp : own p = none := by simpa [slabHeld] using hheld
    simp only [hpfn]
    split
    · -- no object fits: the page goes straight back
      have hself : update (joinHeld s.env (slabHeld own)) p (some 0) p = some 0 := update_self ..
      have hacc : pa.freePagesAccepts (pa.pfnToAddr p) (0 : Nat) = true := by
        rw [freePagesAccepts_iff hal.inv hself, hal.refcount, update_self]
        exact ⟨hal.inv.pool.aligned, by decide⟩
      have hf := freePages_freed hal.inv hself hacc
      have hinv := hf.inv
      rw [update_idem, update_eq_self_iff.2 hal.fresh.symm] at hinv
      refine .inl ⟨_, rfl, h.scribble hp ?_ ?_ fun q hq => ?_,
        fun q d hq => update_of_ne (ne_of_own hp hq) ..⟩
      · rw [haddr]; exact hinv
      · rw [haddr]; exact hf.memStart.trans hal.memStart
      · rw [haddr]
        show (pa.freePages (pa.pfnToAddr p) ((0 : Nat) : Int)).refcount q = _
        rw [hf.refcount, update_of_ne hq, hal.refcount, update_of_ne hq]
    · rename_i hobj
      have hok := newSlab_ok h hk hp
      have hcarve := (carve_spec (h.sizes c k hk) (m + p * pageSize) s.slub.words (slabObjectsPerPage k)).2
      have had := h.adopt hk hal (fun x hx => hcarve x fun hmem => hx (mem_slots.1 hmem)) hok
      refine .inr ⟨p, _, rfl, hp, ?_, fun q hq => ?_, ?_, ?_⟩
      · rw [hbase]
        simpa only [update_idem] using had
      · simp only [update_of_ne hq]
      · simp only [update_self]; rfl
      · simp only [update_self]
        rw [hok.objects]
        exact Nat.pos_of_ne_zero hobj

end Core

/-! ## Between calls -/

/-- The slab on `p` has a free object. -/
def HasFree (s : SlubSys) (p : Nat) : Prop := (s.slub.slabs p).inuse.toNat < (s.slub.slabs p).objects.toNat

/-- The invariant between calls. -/
def SlubInv (m : Nat) (s : SlubSys) : Prop :=
  ∃ own, Core m s own s.HasFree ∧ ∀ p c, own p = some c → 0 < (s.slub.slabs p).inuse.toNat

/-- The page holds a live object of the cache. -/
def IsSlab (s : SlubSys) (p c : Nat) : Prop := ∃ x, s.live x = some c ∧ s.slub.slabFromObject x = p

section Calls

variable {m : Nat} {s : SlubSys} {own : Nat → Option Nat} {listed : Nat → Prop}

theorem partialUnlink_slabs (st : Slub) (c p : Nat) : (st.partialUnlink c p).slabs = st.slabs := by
  unfold Slub.partialUnlink
  split
  · rfl
  · split <;> rfl

theorem partialLink_slabs (st : Slub) (c p : Nat) : (st.partialLink c p).slabs = st.slabs := by
  unfold Slub.partialLink
  split <;> rfl

/-- Counting: a slab in use has a live object, and one with a live object is in use. -/
theorem Core.inuse_pos_iff (h : Core m s own listed) (hp : own p = some c) :
    0 < (s.slub.slabs p).inuse.toNat ↔ s.IsSlab p c := by
  obtain ⟨k, hk, hok⟩ := h.slabs p c hp
  obtain ⟨l, -, h2, h3, h4⟩ := hok.free
  have hs := h.sizes c k hk
  have hnd := slots_nodup hs (m + p * pageSize) (slabObjectsPerPage k)
  have hlen := slots_length (k := k) (m + p * pageSize) (slabObjectsPerPage k)
  constructor
  · intro hpos
    -- otherwise every slot is on the freelist, which is too short for that
    by_contra hno
    have hsub : slots k (m + p * pageSize) (slabObjectsPerPage k) ⊆ l := by
      intro x hx
      have hslot : Slot k (m + p * pageSize) x := mem_slots.1 hx
      refine (h3 x).2 ⟨hslot, ?_⟩
      by_contra hne
      obtain ⟨d, hd⟩ := Option.ne_none_iff_exists'.1 hne
      obtain ⟨q, k', hq, hk', hy⟩ := h.live x d hd
      obtain rfl := hslot.page_unique hs (h.sizes d k' hk') hy
      obtain rfl := Option.mem_unique hp hq
      exact hno ⟨x, hd, h.slabFromObject hp hk hslot⟩
    have := (hnd.subperm hsub).length_le
    omega
  · rintro ⟨x, hx, hpage⟩
    obtain ⟨q, k', hq, hk', hy⟩ := h.live x c hx
    rw [h.slabFromObject hq hk' hy] at hpage
    subst hpage
    obtain rfl := Option.mem_unique hk hk'
    have hlt := length_lt_of_live h2 h3 hy (by simp [hx])
    omega

/-- A slab is picked for an object, or there is none: the slab is the cache's, has a free object and is on its list. -/
def Picks (m : Nat) (s : SlubSys) (c : Nat) (r : Option Nat × Slub) : Prop :=
  (∃ st, r = (none, st) ∧ SlubInv m { s with slub := st }) ∨ ∃ p st own', r = (some p, st) ∧ own' p = some c ∧
    Core m { s with slub := st } own' (HasFree { s with slub := st }) ∧ HasFree { s with slub := st } p ∧
    ∀ q d, own' q = some d → q ≠ p → 0 < (st.slabs q).inuse.toNat

theorem slabForAlloc_spec (h : Core m s own s.HasFree)
    (hpos : ∀ p c, own p = some c → 0 < (s.slub.slabs p).inuse.toNat) (hk : s.slub.caches c = some k) :
    Picks m s c (s.slub.slabForAlloc c k) := by
  have hnew : Picks m s c (s.slub.slabCreateLink c k) := by
    rcases slabCreate_spec h hk with ⟨st, h1, h2, h3⟩ | ⟨p, st, h1, hp, h2, h3, h4, h5⟩
    · refine .inl ⟨st, by unfold Slub.slabCreateLink; rw [h1], own, h2.congr fun q d hq => ?_, fun q d hq => ?_⟩
      · unfold HasFree; rw [h3 q d hq]
      · show 0 < (st.slabs q).inuse.toNat
        rw [h3 q d hq]; exact hpos q d hq
    · have hlink := h2.link (p := p) (c := c) (update_self ..) (by simp)
      refine .inr ⟨p, st.partialLink c p, update own p (some c), by unfold Slub.slabCreateLink; rw [h1],
        update_self .., hlink.congr fun q d hq => ?_, ?_, fun q d hq hne => ?_⟩
      · unfold HasFree
        rw [partialLink_slabs]
        by_cases e : q = p
        · subst e; simp [h4, h5]
        · simp [e, h3 q e]
      · unfold HasFree
        rw [partialLink_slabs, h4]; exact h5
      · rw [update_of_ne hne] at hq
        rw [partialLink_slabs, h3 q hne]; exact hpos q d hq
  unfold Slub.slabForAlloc
  split
  · exact hnew
  · rename_i p hhead
    split
    · exact hnew
    · -- the head of the partial list
      obtain ⟨l, h1, -, h3⟩ := h.lists c k hk
      have hmem : p ∈ l := by
        have h1' : Chain s.slub.next k.partialHead l := h1
        rw [hhead] at h1'
        exact h1'.head_mem
      obtain ⟨hp, hfree⟩ := (h3 p).1 hmem
      exact .inr ⟨p, s.slub, own, rfl, hp, h, hfree, fun q d hq _ => hpos q d hq⟩

/-- Popping an object from the picked slab restores the invariant. -/
theorem slabPop_spec (h : Core m s own s.HasFree) (hp : own p = some c) (hfree : s.HasFree p)
    (hpos : ∀ q d, own q = some d → q ≠ p → 0 < (s.slub.slabs q).inuse.toNat) :
    ∃ x st, s.slub.slabPop c p = (some x, st) ∧
      SlubInv m { s with slub := st, live := update s.live x (some c) } := by
  obtain ⟨k, hk, hok⟩ := h.slabs p c hp
  obtain ⟨l, h1, -, -, h4⟩ := hok.free
  obtain ⟨x, hx⟩ : ∃ x, (s.slub.slabs p).freelist = some x := by
    rw [← Option.ne_none_iff_exists']
    intro hnone
    rw [hnone] at h1
    have hl := h1.eq_nil_iff.1 rfl
    have hobj := hok.objects
    unfold HasFree at hfree
    rw [hl, List.length_nil] at h4
    omega
  obtain ⟨hcore, hinc, hlast, -, -⟩ := h.pop hp hk hx
  have hobj := hok.objects
  unfold Slub.slabPop
  simp only [hx]
  refine ⟨x, _, rfl, own, ?_, fun q d hq => ?_⟩
  · split
    · rename_i hnone
      refine (hcore.unlink hp).congr fun q d hq => ?_
      unfold HasFree
      rw [partialUnlink_slabs]
      by_cases e : q = p
      · subst e
        simp only [update_self, hinc, hobj, ← hlast.1 hnone]
        simp
      · simp [e]
    · rename_i hsome
      refine hcore.congr fun q d hq => ?_
      by_cases e : q = p
      · subst e
        have : ¬ (s.slub.slabs q).inuse.toNat + 1 = slabObjectsPerPage k := fun e' => hsome (hlast.2 e')
        unfold HasFree at hfree ⊢
        simp only [update_self, hinc, hobj] at hfree ⊢
        constructor <;> intro <;> omega
      · unfold HasFree; simp [e]
  · have hslabs : ∀ b : Prop, ∀ inst : Decidable b, ∀ st : Slub,
        (@ite _ b inst (st.partialUnlink c p) st).slabs = st.slabs := by
      intro b inst st
      split
      · exact partialUnlink_slabs st c p
      · rfl
    show 0 < (Slub.slabs (ite _ _ _) q).inuse.toNat
    rw [hslabs]
    by_cases e : q = p
    · subst e; simp only [update_self, hinc]; omega
    · simp only [update_of_ne e]; exact hpos q d hq e

theorem kmemCacheAlloc_inv (h : SlubInv m s) (hc : s.slub.caches c ≠ none) :
    (∃ st, s.slub.kmemCacheAlloc c = (none, st) ∧ SlubInv m { s with slub := st }) ∨
    ∃ x st, s.slub.kmemCacheAlloc c = (some x, st) ∧
      SlubInv m { s with slub := st, live := update s.live x (some c) } := by
  obtain ⟨own, hcore, hpos⟩ := h
  obtain ⟨k, hk⟩ := Option.ne_none_iff_exists'.1 hc
  unfold Slub.kmemCacheAlloc
  simp only [hk]
  rcases slabForAlloc_spec hcore hpos hk with ⟨st, h1, h2⟩ | ⟨p, st, own', h1, hp, h2, h3, h4⟩
  · rw [h1]
    exact .inl ⟨st, rfl, h2⟩
  · rw [h1]
    obtain ⟨x, st', h5, h6⟩ := slabPop_spec h2 hp h3 h4
    exact .inr ⟨x, st', h5, h6⟩

/-- An empty slab is destroyed: its page is free. -/
theorem slabDestroy_inv (h : Core m s own listed) (hp : own p = some c)
    (hzero : (s.slub.slabs p).inuse.toNat = 0) (hl : ∀ q, q ≠ p → (listed q ↔ s.HasFree q))
    (hpos : ∀ q d, own q = some d → q ≠ p → 0 < (s.slub.slabs q).inuse.toNat) :
    SlubInv m { s with slub := s.slub.slabDestroy c p } ∧ p ∈ (s.slub.slabDestroy c p).pa.freePageSet := by
  have hun := h.unlink hp
  obtain ⟨hdrop, hfree⟩ := hun.drop hp (by simp) (by
    intro y d hy hyp
    obtain ⟨q, k', hq, hk', hy'⟩ := hun.live y d hy
    obtain rfl : q = p := by rw [← hun.slabFromObject hq hk' hy', hyp]
    have hpos' := (hun.inuse_pos_iff hq).2 ⟨y, hy, hyp⟩
    simp only [partialUnlink_slabs, hzero] at hpos'
    omega)
  have hslabs : (s.slub.slabDestroy c p).slabs = s.slub.slabs := partialUnlink_slabs s.slub c p
  refine ⟨⟨update own p none, hdrop.congr fun q d hq => ?_, fun q d hq => ?_⟩, hfree⟩
  · obtain ⟨e, -⟩ := own_of_drop hq
    simp only [HasFree, hslabs, hl q e]
    exact and_iff_right e
  · obtain ⟨e, hq⟩ := own_of_drop hq
    simp only [hslabs]
    exact hpos q d hq e

theorem partialLink_inv (h : Core m s own listed) (hp : own p = some c) (hnot : ¬ listed p)
    (hfree : s.HasFree p) (hl : ∀ q, q ≠ p → (listed q ↔ s.HasFree q))
    (hpos : ∀ q d, own q = some d → 0 < (s.slub.slabs q).inuse.toNat) :
    SlubInv m { s with slub := s.slub.partialLink c p } ∧ IsSlab { s with slub := s.slub.partialLink c p } p c := by
  have hlink := h.link hp hnot
  have hslabs := partialLink_slabs s.slub c p
  refine ⟨⟨own, hlink.congr fun q d hq => ?_, fun q d hq => ?_⟩, (hlink.inuse_pos_iff hp).1 ?_⟩
  · simp only [HasFree, hslabs]
    by_cases e : q = p
    · subst e
      simp only [true_or, true_iff]
      exact hfree
    · simp only [e, false_or]
      exact hl q e
  · simp only [hslabs]; exact hpos q d hq
  · simp only [hslabs]; exact hpos p c hp

/-- Freeing a live object of the cache: its page keeps another live object, or goes back to the
page allocator. -/
theorem kmemCacheFree_inv (h : SlubInv m s) (hx : s.live x = some c) :
    SlubInv m { s with slub := s.slub.kmemCacheFree c (some x), live := update s.live x none } ∧
      (IsSlab { s with slub := s.slub.kmemCacheFree c (some x), live := update s.live x none }
        (s.slub.slabFromObject x) c ∨
      s.slub.slabFromObject x ∈ (s.slub.kmemCacheFree c (some x)).pa.freePageSet) := by
  obtain ⟨own, hcore, hpos⟩ := h
  obtain ⟨p, k, hp, hk, hslot⟩ := hcore.live x c hx
  have hpage := hcore.slabFromObject hp hk hslot
  have hok := hcore.slab hp hk
  obtain ⟨hgive, hdec⟩ := hcore.give hp hk hslot (by rw [hx]; exact Option.some_ne_none c)
  have hobjects : ((s.slub.slabPush p x).slabs p).objects = (s.slub.slabs p).objects := by rw [slabPush_self]
  have hle : (s.slub.slabs p).inuse.toNat ≤ (s.slub.slabs p).objects.toNat := by
    obtain ⟨l, -, -, -, h4⟩ := hok.free
    rw [hok.objects]; omega
  have hone : ((s.slub.slabs p).objects - 1).toNat = (s.slub.slabs p).objects.toNat - 1 := by
    rw [BitVec.toNat_sub_of_le]
    · rfl
    · rw [BitVec.le_def]; show 1 ≤ _; omega
  have hpos' : ∀ q d, own q = some d → q ≠ p → 0 < ((s.slub.slabPush p x).slabs q).inuse.toNat := by
    intro q d hq e
    rw [slabPush_of_ne _ _ e]; exact hpos q d hq
  have hfree' : ∀ q, q ≠ p →
      (s.HasFree q ↔ HasFree ⟨s.slub.slabPush p x, s.env, update s.live x none⟩ q) := by
    intro q e
    simp only [HasFree, slabPush_of_ne _ _ e]
  unfold Slub.kmemCacheFree
  simp only [hpage, hok.magic, hok.cache, ne_eq, not_true_eq_false, or_self, if_false]
  split
  · rename_i hzero
    obtain ⟨h1, h2⟩ := slabDestroy_inv hgive hp (congrArg BitVec.toNat hzero) hfree' hpos'
    exact ⟨h1, .inr h2⟩
  · rename_i hnz
    have hleft : 0 < ((s.slub.slabPush p x).slabs p).inuse.toNat :=
      Nat.pos_of_ne_zero fun e => hnz (BitVec.eq_of_toNat_eq e)
    have hall : ∀ q d, own q = some d → 0 < ((s.slub.slabPush p x).slabs q).inuse.toNat := by
      intro q d hq
      by_cases e : q = p
      · subst e; exact hleft
      · exact hpos' q d hq e
    have hnow : HasFree ⟨s.slub.slabPush p x, s.env, update s.live x none⟩ p := by
      simp only [HasFree, hobjects]; omega
    split
    · rename_i hfull
      have hfull' := congrArg BitVec.toNat hfull
      rw [hobjects, hone] at hfull'
      obtain ⟨h1, h2⟩ := partialLink_inv hgive hp (by unfold HasFree; omega) hnow hfree' hall
      exact ⟨h1, .inl h2⟩
    · rename_i hnf
      have hnf' : ((s.slub.slabPush p x).slabs p).inuse.toNat ≠ ((s.slub.slabs p).objects - 1).toNat := by
        intro e
        rw [hobjects] at hnf
        exact hnf (BitVec.eq_of_toNat_eq e)
      have hbefore : s.HasFree p := by unfold HasFree; omega
      refine ⟨⟨own, hgive.congr fun q d hq => ?_, hall⟩, .inl ((hgive.inuse_pos_iff hp).1 hleft)⟩
      by_cases e : q = p
      · subst e; exact iff_of_true hbefore hnow
      · exact hfree' q e

theorem kmemCacheFree_refused (h : SlubInv m s) (hx : s.live x = some d) (hne : d ≠ c) :
    s.slub.kmemCacheFree c (some x) = s.slub := by
  obtain ⟨own, hcore, -⟩ := h
  obtain ⟨p, k, hp, hk, hslot⟩ := hcore.live x d hx
  have hok := hcore.slab hp hk
  unfold Slub.kmemCacheFree
  simp only [hcore.slabFromObject hp hk hslot, hok.magic, hok.cache]
  rw [if_pos]
  exact .inr fun e => hne (Option.some.inj e)

theorem kmemCacheInit_inv {size : BitVec 32} (h : SlubInv m s) (hc : s.slub.caches c = none) :
    SlubInv m { s with slub := s.slub.kmemCacheInit c size } := by
  obtain ⟨own, hcore, hpos⟩ := h
  have hne : ∀ d k, s.slub.caches d = some k → d ≠ c := by
    rintro d k hd rfl
    rw [hc] at hd; cases hd
  have hother : ∀ d k, s.slub.caches d = some k → (s.slub.kmemCacheInit c size).caches d = some k := by
    intro d k hd
    unfold Slub.kmemCacheInit
    simp only [update_of_ne (hne d k hd)]
    exact hd
  have hown : ∀ q, own q ≠ some c := by
    intro q hq
    obtain ⟨k, hk, -⟩ := hcore.slabs q c hq
    exact hne c k hk rfl
  refine ⟨own, ⟨hcore.start, hcore.pages, hcore.apart, hcore.count, fun d k hd => ?_, fun q d hq => ?_,
    fun x d hx => ?_, fun d k hd => ?_⟩, hpos⟩
  · by_cases e : d = c
    · subst e
      unfold Slub.kmemCacheInit at hd
      simp only [update_self, Option.some.injEq] at hd
      subst hd
      show minObjectSize.toNat ≤ (if size < minObjectSize then minObjectSize else size).toNat
      split
      · exact le_rfl
      · rename_i hlt
        rw [BitVec.lt_def] at hlt; omega
    · unfold Slub.kmemCacheInit at hd
      simp only [update_of_ne e] at hd
      exact hcore.sizes d k hd
  · obtain ⟨k, hk, hok⟩ := hcore.slabs q d hq
    exact ⟨k, hother d k hk, hok⟩
  · obtain ⟨q, k, hq, hk, hslot⟩ := hcore.live x d hx
    exact ⟨q, k, hq, hother d k hk, hslot⟩
  · by_cases e : d = c
    · subst e
      unfold Slub.kmemCacheInit at hd
      simp only [update_self, Option.some.injEq] at hd
      subst hd
      exact ⟨[], rfl, List.nodup_nil, fun q => by simp [hown q]⟩
    · unfold Slub.kmemCacheInit at hd
      simp only [update_of_ne e] at hd
      exact hcore.lists d k hd

end Calls

end SlubSys

end MiniOs.Mm
