/-
The SLUB allocator of mm/slub.c: caches of equal objects carved from single pages. A slab is named
by the pool frame number of its page, an object by its address. The header fields of the pages are
kept in `slabs` and `next`, the first word of every object (a free object's link) in `words`.
-/
import MiniOs.Mm.PageClients

namespace MiniOs.Mm

open Library Function

def slabMagic : Nat := 0x534C5542
/-- `sizeof(struct slab)`. -/
def slabHeaderSize : BitVec 32 := 40
/-- `sizeof(void *)`. -/
def minObjectSize : BitVec 32 := 8

/-- A `struct kmem_cache`; the `partial` field is the head of the list of partial slabs. -/
structure KmemCache where
  objectSize : BitVec 32
  partialHead : Option Nat

/-- A `struct slab`, without its `next` field. -/
structure Slab where
  magic : Nat
  cache : Option Nat
  freelist : Option Nat
  inuse : BitVec 32
  objects : BitVec 32

structure Slub where
  pa : PageAlloc
  caches : Nat → Option KmemCache
  slabs : Nat → Slab
  next : Nat → Option Nat
  words : Nat → Option Nat

def slabObjectOffset (cache : KmemCache) : BitVec 32 :=
  let align := if cache.objectSize < minObjectSize then minObjectSize else cache.objectSize
  (slabHeaderSize + align - 1) &&& ~~~(align - 1)

def slabObjectsPerPage (cache : KmemCache) : Nat :=
  let off := (slabObjectOffset cache).toNat
  if off ≥ pageSize then 0 else (pageSize - off) / cache.objectSize.toNat

namespace Slub

def slabFromObject (st : Slub) (obj : Nat) : Nat := st.pa.addrToPfn (obj / pageSize * pageSize)

/-! ## The partial list -/

def setPartial (st : Slub) (c : Nat) (cache : KmemCache) (l : PtrList Nat) : Slub :=
  { st with caches := update st.caches c (some { cache with partialHead := l.head }), next := l.next }

def partialList (st : Slub) (cache : KmemCache) : PtrList Nat := ⟨cache.partialHead, st.next⟩

/-- The walk is bounded by the pool: a list of slabs has no page twice. -/
def partialUnlink (st : Slub) (c slab : Nat) : Slub :=
  match st.caches c with
  | none => st
  | some cache =>
    match (st.partialList cache).unlink slab st.pa.poolPages with
    | none => st
    | some l => st.setPartial c cache { l with next := update l.next slab none }

def partialLink (st : Slub) (c slab : Nat) : Slub :=
  match st.caches c with
  | none => st
  | some cache => st.setPartial c cache ((st.partialList cache).push slab)

/-! ## Slabs -/

/-- The address of the `i`-th object of the page at `base`. -/
def objectAt (cache : KmemCache) (base i : Nat) : Nat :=
  base + (slabObjectOffset cache).toNat + i * cache.objectSize.toNat

/-- The link words and the freelist after the first `n` rounds of the loop of `slab_create`. -/
def carve (cache : KmemCache) (base : Nat) (words : Nat → Option Nat) : Nat → (Nat → Option Nat) × Option Nat
  | 0 => (words, none)
  | i + 1 =>
    let (words, freelist) := carve cache base words i
    let obj := objectAt cache base i
    (update words obj freelist, some obj)

def slabCreate (st : Slub) (c : Nat) (cache : KmemCache) : Option Nat × Slub :=
  match st.pa.allocPages 0 with
  | (none, pa) => (none, { st with pa := pa })
  | (some base, pa) =>
    let slab := pa.addrToPfn base
    let objects := slabObjectsPerPage cache
    let header : Slab :=
      { magic := slabMagic, cache := some c, freelist := none, inuse := 0, objects := BitVec.ofNat 32 objects }
    let st := { st with
      pa := pa, slabs := update st.slabs slab header, next := update st.next slab none }
    if objects = 0 then (none, { st with pa := pa.freePages base 0 })
    else
      let (words, freelist) := carve cache base st.words objects
      (some slab, { st with
        words := words, slabs := update st.slabs slab { header with freelist := freelist } })

def slabDestroy (st : Slub) (c slab : Nat) : Slub :=
  let st := st.partialUnlink c slab
  { st with pa := st.pa.freePages (st.pa.pfnToAddr slab) 0 }

/-! ## The interface of linux/slab.h -/

def kmemCacheInit (st : Slub) (c : Nat) (size : BitVec 32) : Slub :=
  let size := if size < minObjectSize then minObjectSize else size
  { st with caches := update st.caches c (some { objectSize := size, partialHead := none }) }

/-- A new slab, linked as the first partial one. -/
def slabCreateLink (st : Slub) (c : Nat) (cache : KmemCache) : Option Nat × Slub :=
  match st.slabCreate c cache with
  | (none, st) => (none, st)
  | (some slab, st) => (some slab, st.partialLink c slab)

/-- The slab `kmem_cache_alloc` takes its object from. -/
def slabForAlloc (st : Slub) (c : Nat) (cache : KmemCache) : Option Nat × Slub :=
  match cache.partialHead with
  | none => st.slabCreateLink c cache
  | some slab => if (st.slabs slab).freelist = none then st.slabCreateLink c cache else (some slab, st)

/-- Take the first free object of the slab; there is one. -/
def slabPop (st : Slub) (c slab : Nat) : Option Nat × Slub :=
  match (st.slabs slab).freelist with
  | none => (none, st)
  | some obj =>
    let freelist := st.words obj
    let header := st.slabs slab
    let st := { st with
      slabs := update st.slabs slab { header with freelist := freelist, inuse := header.inuse + 1 } }
    (some obj, if freelist = none then st.partialUnlink c slab else st)

/-- `kmem_cache_alloc`; the cache has been initialised. -/
def kmemCacheAlloc (st : Slub) (c : Nat) : Option Nat × Slub :=
  match st.caches c with
  | none => (none, st)
  | some cache =>
    match st.slabForAlloc c cache with
    | (none, st) => (none, st)
    | (some slab, st) => st.slabPop c slab

/-- Put the object in front of its slab's freelist. -/
def slabPush (st : Slub) (slab obj : Nat) : Slub :=
  let header := st.slabs slab
  { st with
    words := update st.words obj header.freelist
    slabs := update st.slabs slab { header with freelist := some obj, inuse := header.inuse - 1 } }

def kmemCacheFree (st : Slub) (c : Nat) (obj : Option Nat) : Slub :=
  match obj with
  | none => st
  | some obj =>
    let slab := st.slabFromObject obj
    if (st.slabs slab).magic ≠ slabMagic ∨ (st.slabs slab).cache ≠ some c then st
    else
      let st := st.slabPush slab obj
      if (st.slabs slab).inuse = 0 then st.slabDestroy c slab
      else if (st.slabs slab).inuse = (st.slabs slab).objects - 1 then st.partialLink c slab
      else st

end Slub

/-! ## The allocator under its users -/

/-- The allocator, the blocks other clients of the page allocator hold, and the live objects with
the cache each came from. -/
structure SlubSys where
  slub : Slub
  env : Nat → Option Nat
  live : Nat → Option Nat

namespace SlubSys

/-- After page_alloc_init: no cache and no slab yet, whatever memory holds. -/
def init (start : AllocStart) (slabs : Nat → Slab) (next words : Nat → Option Nat) : SlubSys :=
  { slub := { pa := PageAlloc.pageAllocInit start.addr, caches := fun _ => none, slabs := slabs, next := next
              words := words }
    env := fun _ => none, live := fun _ => none }

inductive Op
  | init (c : Nat) (size : BitVec 32)
  | alloc (c : Nat)
  | free (c : Nat) (obj : Option Nat)
  /-- The user of a live object overwrites its first word. -/
  | write (obj : Nat) (word : Option Nat)
  /-- Another client of the page allocator makes a call. -/
  | page (op : PageSys.Op)

/-- One call; `none` when the caller breaks the rules: a cache is initialised once and before it is used,
and only a live object (or NULL) is freed. -/
def step (s : SlubSys) : Op → Option SlubSys
  | .init c size =>
    if s.slub.caches c = none then some { s with slub := s.slub.kmemCacheInit c size } else none
  | .alloc c =>
    if s.slub.caches c = none then none
    else
      match s.slub.kmemCacheAlloc c with
      | (none, slub) => some { s with slub := slub }
      | (some obj, slub) => some { s with slub := slub, live := update s.live obj (some c) }
  | .free c none => some { s with slub := s.slub.kmemCacheFree c none }
  | .free c (some obj) =>
    match s.live obj with
    | none => none
    | some owner =>
      -- an object of another cache is refused, and stays live
      let live := if owner = c then update s.live obj none else s.live
      some { s with slub := s.slub.kmemCacheFree c (some obj), live := live }
  | .write obj word =>
    if s.live obj = none then none
    else some { s with slub := { s.slub with words := update s.slub.words obj word } }
  | .page op =>
    match (PageSys.mk s.slub.pa s.env).ownStep op with
    | none => none
    | some p => some { s with slub := { s.slub with pa := p.pa }, env := p.held }

end SlubSys

end MiniOs.Mm
