/-
The physical page allocator of mm/page_alloc.c (buddy algorithm) with the constants of
asm/memory.h and linux/gfp.h. Addresses are 64-bit values held as `Nat`; where the C arithmetic can
wrap the reduction modulo `2^64` is written out. A `struct free_block *` and a `struct page *` are
held as the pool frame number of their page, which `pfn_to_block` and `page - mem_map` convert.
-/
import MiniOs.Library.Chain
import Mathlib.Algebra.Ring.Nat
import Mathlib.Data.Nat.Log

namespace MiniOs.Mm

open Library Function

def pageSize : Nat := 4096
def kernelVirtBase : Nat := 0xffff800080000000
def physMemSize : Nat := 128 * 1024 * 1024
def virtMemEnd : Nat := kernelVirtBase + physMemSize
def maxPages : Nat := physMemSize / pageSize

/-- `(x + PAGE_SIZE - 1) & ~(PAGE_SIZE - 1)` on 64 bits. -/
def pageAlignUp (x : Nat) : Nat := (x + (pageSize - 1)) % 2 ^ 64 / pageSize * pageSize

/-- The static variables of page_alloc.c, and the first word of every pool page, which a free
block uses for its `next` pointer. -/
structure PageAlloc where
  freeArea : Nat → Option Nat
  memStart : Nat
  memSize : Nat
  maxOrder : Nat
  poolPages : Nat
  blockOrder : Nat → Int
  refcount : Nat → BitVec 32
  next : Nat → Option Nat

namespace PageAlloc

def addrToPfn (st : PageAlloc) (addr : Nat) : Nat := (addr + 2 ^ 64 - st.memStart) % 2 ^ 64 / pageSize

def pfnToAddr (st : PageAlloc) (pfn : Nat) : Nat := st.memStart + pfn * pageSize

def orderValid (st : PageAlloc) (order : Int) : Bool := 0 ≤ order && order ≤ st.maxOrder

def addrInPool (st : PageAlloc) (addr order : Nat) : Bool :=
  let size := pageSize * 2 ^ order
  let «end» := st.memStart + st.memSize
  if addr < st.memStart || (addr + size) % 2 ^ 64 > «end» then false
  else addr % size == 0

def pfnInPool (st : PageAlloc) (pfn : Nat) : Bool := pfn < st.poolPages

/-! ## Free lists -/

/-- The free list of one order, as the cells the code walks over. -/
def freeList (st : PageAlloc) (order : Nat) : PtrList Nat := ⟨st.freeArea order, st.next⟩

def freeListAdd (st : PageAlloc) (pfn order : Nat) : PageAlloc :=
  { st with
    next := update st.next pfn (st.freeArea order)
    freeArea := update st.freeArea order (some pfn)
    blockOrder := update st.blockOrder pfn order }

/-- The walk is bounded by the pool: a free list has no node twice. -/
def freeListRemove (st : PageAlloc) (pfn order : Nat) : PageAlloc :=
  match (st.freeList order).unlink pfn st.poolPages with
  | none => st
  | some l =>
    { st with
      next := l.next
      freeArea := update st.freeArea order l.head
      blockOrder := update st.blockOrder pfn (-1) }

def freeListPop (st : PageAlloc) (order : Nat) : Nat × PageAlloc :=
  match st.freeArea order with
  | none => (maxPages, st)
  | some pfn =>
    (pfn, { st with
      freeArea := update st.freeArea order (st.next pfn)
      blockOrder := update st.blockOrder pfn (-1) })

/-- `while (order > to_order) { order--; free_list_add(pfn ^ (1UL << order), order); }`. -/
def splitBlock (pfn toOrder : Nat) : Nat → PageAlloc → PageAlloc
  | 0, st => st
  | order + 1, st =>
    if order + 1 > toOrder then splitBlock pfn toOrder order (st.freeListAdd (pfn ^^^ 2 ^ order) order) else st

/-- The coalescing loop; `fuel` counts the orders left below `max_order`. -/
def buddyFreeLoop : Nat → PageAlloc → Nat → Nat → PageAlloc
  | 0, st, pfn, o => st.freeListAdd pfn o
  | fuel + 1, st, pfn, o =>
    let buddyPfn := pfn ^^^ 2 ^ o
    if buddyPfn ≥ st.poolPages then st.freeListAdd pfn o
    else if st.blockOrder buddyPfn ≠ o then st.freeListAdd pfn o
    else
      let pfn' := if buddyPfn < pfn then buddyPfn else pfn
      buddyFreeLoop fuel (st.freeListRemove buddyPfn o) pfn' (o + 1)

def buddyFree (st : PageAlloc) (pfn order : Nat) : PageAlloc :=
  buddyFreeLoop (st.maxOrder - order) st pfn order

/-! ## Initialisation -/

/-- The allocator over the pool that starts at the linker symbol `__alloc_start`; with no room
below `VIRT_MEM_END` the pool stays empty. -/
def pageAllocInit (allocStart : Nat) : PageAlloc :=
  let memStart := pageAlignUp allocStart
  let st : PageAlloc :=
    { freeArea := fun _ => none, memStart := memStart, memSize := 0, maxOrder := 0, poolPages := 0
      blockOrder := fun _ => -1, refcount := fun _ => 0, next := fun _ => none }
  if memStart ≥ virtMemEnd then st
  else
    let npages := (virtMemEnd - memStart) / pageSize
    if npages = 0 then st
    else
      let maxOrder := Nat.log2 npages
      let st := { st with maxOrder := maxOrder, poolPages := 2 ^ maxOrder, memSize := 2 ^ maxOrder * pageSize }
      st.freeListAdd 0 maxOrder

/-! ## The interface of linux/gfp.h -/

def virtToPage (st : PageAlloc) (addr : Nat) : Option Nat :=
  if addr = 0 || !st.addrInPool addr 0 then none
  else
    let pfn := st.addrToPfn addr
    if st.pfnInPool pfn then some pfn else none

/-- Take the head of the non-empty list of order `o` and cut it down to `order`. -/
def allocTake (st : PageAlloc) (order o : Nat) : Option Nat × PageAlloc :=
  let (pfn, st) := st.freeListPop o
  if pfn ≥ st.poolPages then (none, st)
  else
    let st := splitBlock pfn order o st
    (some (st.pfnToAddr pfn), { st with
      blockOrder := update st.blockOrder pfn (-1)
      refcount := update st.refcount pfn 1 })

/-- The scan over the orders `o, o + 1, …`; `fuel` counts those up to `max_order`. -/
def allocScan (st : PageAlloc) (order : Nat) : Nat → Nat → Option Nat × PageAlloc
  | 0, _ => (none, st)
  | fuel + 1, o => if st.freeArea o = none then allocScan st order fuel (o + 1) else st.allocTake order o

def allocPages (st : PageAlloc) (order : Int) : Option Nat × PageAlloc :=
  if st.orderValid order then st.allocScan order.toNat (st.maxOrder + 1 - order.toNat) order.toNat
  else (none, st)

/-- The checks of `free_pages`: it hands the block to the buddy lists exactly when they pass. -/
def freePagesAccepts (st : PageAlloc) (addr : Nat) (order : Int) : Bool :=
  let pfn := st.addrToPfn addr
  addr ≠ 0 && st.orderValid order && st.pfnInPool pfn && st.addrInPool addr order.toNat &&
    st.blockOrder pfn < 0 && (st.refcount pfn).toInt ≤ 1

def freePages (st : PageAlloc) (addr : Nat) (order : Int) : PageAlloc :=
  if st.freePagesAccepts addr order then
    let pfn := st.addrToPfn addr
    { st with refcount := update st.refcount pfn 0 }.buddyFree pfn order.toNat
  else st

def getPage (st : PageAlloc) (pfn : Nat) : PageAlloc :=
  { st with refcount := update st.refcount pfn (st.refcount pfn + 1) }

/-- `put_page` drops the last reference: the new count is zero. -/
def putPageFrees (st : PageAlloc) (pfn : Nat) : Bool := st.refcount pfn - 1 = 0 && st.pfnInPool pfn

def putPage (st : PageAlloc) (pfn : Nat) : PageAlloc :=
  let st' := { st with refcount := update st.refcount pfn (st.refcount pfn - 1) }
  if st.putPageFrees pfn then st'.buddyFree pfn 0 else st'

def pageCount (st : PageAlloc) (pfn : Nat) : Nat := (st.refcount pfn).toNat

end PageAlloc

end MiniOs.Mm
