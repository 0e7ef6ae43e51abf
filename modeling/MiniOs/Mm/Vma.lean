/-
The VMA list of mm/mmap.c: a list of `struct vm_area_struct` in list order, with the lookups and
updates on it. VMA objects come from a kmem_cache; each allocation or free is a call into the object
allocator. Addresses are 64-bit values held as `Nat`.
-/
import MiniOs.Mm.PageTable

namespace MiniOs.Mm

structure Vma where
  vmStart : Nat
  vmEnd : Nat
  vmFlags : BitVec 64

/-- `x & ~(PAGE_SIZE - 1)`. -/
def pageTrunc (x : Nat) : Nat := x / pageSize * pageSize

def findVma (vmas : List Vma) (addr : Nat) : Option Vma := vmas.find? fun v => v.vmEnd > addr

/-- `insert_vma`; `none` when the range is empty or meets a neighbour. -/
def insertVma (vmas : List Vma) (new : Vma) : Option (List Vma) :=
  let before := vmas.takeWhile fun v => v.vmStart < new.vmStart
  let after := vmas.dropWhile fun v => v.vmStart < new.vmStart
  if new.vmStart ≥ new.vmEnd then none
  else if after.head?.any fun v => new.vmEnd > v.vmStart then none
  else if before.getLast?.any fun v => v.vmEnd > new.vmStart then none
  else some (before ++ new :: after)

/-- `vma_record`: 0, or the error. -/
def vmaRecord (k : Kmem) (vmas : List Vma) (start «end» : Nat) (flags : BitVec 64) : Bool × List Vma × Kmem :=
  if start ≥ «end» then (false, vmas, k)
  else
    match k.objCall with
    | (false, k) => (false, vmas, k)
    | (true, k) =>
      match insertVma vmas ⟨start, «end», flags⟩ with
      | none => (false, vmas, k.objCall.2)
      | some vmas => (true, vmas, k)

/-- `free_vma_chain` and `free_all_vmas`: one call into the object allocator for each VMA. -/
def freeVmas : Kmem → List Vma → Kmem
  | k, [] => k
  | k, _ :: vmas => freeVmas k.objCall.2 vmas

/-- The loop of `dup_vma_list`; `done` holds the copies made so far. -/
def dupVmaLoop : Kmem → List Vma → List Vma → Option (List Vma) × Kmem
  | k, done, [] => (some done, k)
  | k, done, v :: vmas =>
    match k.objCall with
    | (false, k) => (none, freeVmas k done)
    | (true, k) => dupVmaLoop k (done ++ [v]) vmas

def dupVmaList (k : Kmem) (vmas : List Vma) : Option (List Vma) × Kmem := dupVmaLoop k [] vmas

/-- `vma_erase_range`; false when a VMA had to be split and no object was left for its tail. The list
is returned as it is left also then. -/
def vmaEraseRange (start «end» : Nat) : Kmem → List Vma → Bool × List Vma × Kmem
  | k, [] => (true, [], k)
  | k, v :: vmas =>
    if v.vmEnd ≤ start ∨ v.vmStart ≥ «end» then
      let (ok, vmas, k) := vmaEraseRange start «end» k vmas
      (ok, v :: vmas, k)
    else if start ≤ v.vmStart ∧ «end» ≥ v.vmEnd then
      vmaEraseRange start «end» k.objCall.2 vmas
    else if start ≤ v.vmStart ∧ «end» < v.vmEnd then
      let (ok, vmas, k) := vmaEraseRange start «end» k vmas
      (ok, { v with vmStart := «end» } :: vmas, k)
    else if start > v.vmStart ∧ «end» ≥ v.vmEnd then
      let (ok, vmas, k) := vmaEraseRange start «end» k vmas
      (ok, { v with vmEnd := start } :: vmas, k)
    else
      match k.objCall with
      | (false, k) => (false, v :: vmas, k)
      | (true, k) =>
        let (ok, vmas, k) := vmaEraseRange start «end» k vmas
        (ok, { v with vmEnd := start } :: { v with vmStart := «end» } :: vmas, k)

/-- The gap search of `find_unmapped_area` over the rest of the list. -/
def findUnmappedLoop (len stackLimit : Nat) : Nat → List Vma → Nat
  | last, [] => if (last + len) % 2 ^ 64 ≤ stackLimit then last else 0
  | last, v :: vmas =>
    if (last + len) % 2 ^ 64 ≤ v.vmStart ∧ (last + len) % 2 ^ 64 ≤ stackLimit then last
    else findUnmappedLoop len stackLimit (if v.vmEnd > last then pageAlignUp v.vmEnd else last) vmas

/-- `vma_split` of the VMA `find_vma(mm, key)` finds, at `addr`. -/
def vmaSplit (key addr : Nat) : Kmem → List Vma → Bool × List Vma × Kmem
  | k, [] => (true, [], k)
  | k, v :: vmas =>
    if v.vmEnd > key then
      if addr ≤ v.vmStart ∨ addr ≥ v.vmEnd then (true, v :: vmas, k)
      else
        match k.objCall with
        | (false, k) => (false, v :: vmas, k)
        | (true, k) => (true, { v with vmEnd := addr } :: { v with vmStart := addr } :: vmas, k)
    else
      let (ok, vmas, k) := vmaSplit key addr k vmas
      (ok, v :: vmas, k)

/-- `mprotect_covered`: every round moves `va` to the end of another VMA, so there are at most as many
as VMAs. -/
def mprotectCovered (vmas : List Vma) («end» : Nat) : Nat → Nat → Bool
  | 0, va => va ≥ «end»
  | fuel + 1, va =>
    if va < «end» then
      match findVma vmas va with
      | none => false
      | some v => if v.vmStart > va then false else mprotectCovered vmas «end» fuel v.vmEnd
    else true

end MiniOs.Mm
