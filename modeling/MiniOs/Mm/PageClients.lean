/-
The page allocator together with its clients. A client asks for blocks, hands back blocks it holds
with the order it got them at, takes and drops references, and writes into the pages it holds.
`held` records the outstanding blocks (head frame to order): a block leaves it in the call that
gives it back to the buddy lists, and not before.
-/
import MiniOs.Mm.PageAlloc

namespace MiniOs.Mm

open Function

/-- Where linker.ld puts `__alloc_start`: in the kernel half, below the last page of the address
space (so that rounding it up to a page cannot wrap). -/
structure AllocStart where
  addr : Nat
  base : kernelVirtBase ≤ addr
  lt : addr + pageSize ≤ 2 ^ 64

/-- The allocator and the outstanding blocks. -/
structure PageSys where
  pa : PageAlloc
  held : Nat → Option Nat

namespace PageSys

def init (start : AllocStart) : PageSys := ⟨PageAlloc.pageAllocInit start.addr, fun _ => none⟩

inductive Op
  | alloc (order : Int)
  | free (pfn order : Nat)
  | get (pfn : Nat)
  | put (pfn : Nat)
  /-- The owner of the block at `pfn` overwrites the first word of its `i`-th page. -/
  | store (pfn order i : Nat) (word : Option Nat)

/-- One client call; `none` when the client does not hold what it passes. -/
def step (s : PageSys) : Op → Option PageSys
  | .alloc order =>
    match s.pa.allocPages order with
    | (none, pa) => some { s with pa := pa }
    | (some addr, pa) => some ⟨pa, update s.held (pa.addrToPfn addr) (some order.toNat)⟩
  | .free pfn order =>
    if s.held pfn = some order then
      let addr := s.pa.pfnToAddr pfn
      let held := if s.pa.freePagesAccepts addr order then update s.held pfn none else s.held
      some ⟨s.pa.freePages addr order, held⟩
    else none
  | .get pfn => some { s with pa := s.pa.getPage pfn }
  | .put pfn =>
    if s.held pfn = some 0 then
      let held := if s.pa.putPageFrees pfn then update s.held pfn none else s.held
      some ⟨s.pa.putPage pfn, held⟩
    else none
  | .store pfn order i word =>
    if s.held pfn = some order ∧ i < 2 ^ order then
      some { s with pa := { s.pa with next := update s.pa.next (pfn + i) word } }
    else none

/-- The step of a client that takes references only on blocks it holds. -/
def ownStep (s : PageSys) : Op → Option PageSys
  | .get pfn => if s.held pfn = none then none else s.step (.get pfn)
  | op => s.step op

end PageSys

/-- The outstanding blocks of two groups of clients together. -/
def joinHeld (a b : Nat → Option Nat) (p : Nat) : Option Nat := (a p).or (b p)

end MiniOs.Mm
