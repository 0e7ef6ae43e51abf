/-
User page tables of mm/mmap.c: the three-level tree under `mm->pgd` with its walks (`l3_slot`,
`map_page`, `unmap_page`, `change_pte_prot`), its teardown and its duplication at fork. A table is
named by the pool frame of its page. Table entries of the upper levels are absent or point to the
next table; the leaves hold the raw 64-bit entries.
-/
import MiniOs.Mm.Pte
import MiniOs.Mm.PageClients

namespace MiniOs.Mm

open Function

/-- The memory the user mappings live in: the page allocator, what its other clients hold, the bytes
of the pool pages, and the outcomes of the coming calls into the object allocator. `returned` lists
the frames handed back to the buddy lists, latest first. -/
structure Kmem where
  pa : PageAlloc
  env : Nat → Option Nat
  data : Nat → Nat → UInt8
  script : List (List PageSys.Op × Bool)
  returned : List Nat

namespace Kmem

/-- Calls of the other clients of the page allocator; one that is not enabled does nothing. -/
def runEnv : Kmem → List PageSys.Op → Kmem
  | k, [] => k
  | k, op :: ops =>
    match (PageSys.mk k.pa k.env).ownStep op with
    | none => k.runEnv ops
    | some s => { k with pa := s.pa, env := s.held }.runEnv ops

/-- A call into kmalloc, kfree or a kmem_cache: it may take pages of its own or give them back, and
an allocation may fail. -/
def objCall (k : Kmem) : Bool × Kmem :=
  match k.script with
  | [] => (false, k)
  | (ops, ok) :: rest => (ok, { k with script := rest }.runEnv ops)

/-- `alloc_pages(0)`. -/
def allocPage (k : Kmem) : Option Nat × Kmem :=
  match k.pa.allocPages 0 with
  | (none, pa) => (none, { k with pa := pa })
  | (some kva, pa) => (some (pa.addrToPfn kva), { k with pa := pa })

/-- `free_pages(page, 0)`. -/
def freePage (k : Kmem) (p : Nat) : Kmem :=
  let kva := k.pa.pfnToAddr p
  { k with
    pa := k.pa.freePages kva 0
    returned := if k.pa.freePagesAccepts kva 0 then p :: k.returned else k.returned }

def getPage (k : Kmem) (p : Nat) : Kmem := { k with pa := k.pa.getPage p }

def putPage (k : Kmem) (p : Nat) : Kmem :=
  { k with
    pa := k.pa.putPage p
    returned := if k.pa.putPageFrees p then p :: k.returned else k.returned }

/-- `page_zero`. -/
def pageZero (k : Kmem) (p : Nat) : Kmem := { k with data := update k.data p fun _ => 0 }

/-- `memcpy(dst, src, PAGE_SIZE)`. -/
def pageCopy (k : Kmem) (dst src : Nat) : Kmem := { k with data := update k.data dst (k.data src) }

end Kmem

/-! ## The tree -/

/-- A last-level table. -/
structure L3 where
  page : Nat
  pte : Fin 512 → BitVec 64

/-- An upper-level table over tables of type `α`. -/
structure Node (α : Type) where
  page : Nat
  ent : Fin 512 → Option α

abbrev L2 := Node L3
abbrev L1 := Node L2

def l1Idx (va : Nat) : Fin 512 := Fin.ofNat 512 (va >>> 30)
def l2Idx (va : Nat) : Fin 512 := Fin.ofNat 512 (va >>> 21)
def l3Idx (va : Nat) : Fin 512 := Fin.ofNat 512 (va >>> 12)

def L3.empty (page : Nat) : L3 := ⟨page, fun _ => 0⟩
def Node.empty {α : Type} (page : Nat) : Node α := ⟨page, fun _ => none⟩

def L3.set (t : L3) (i : Fin 512) (pte : BitVec 64) : L3 := { t with pte := update t.pte i pte }
def Node.set {α : Type} (t : Node α) (i : Fin 512) (child : α) : Node α :=
  { t with ent := update t.ent i (some child) }

/-- `l3_slot`: the last-level entry of an address, when its tables exist. -/
def L1.slot (t : L1) (va : Nat) : Option (BitVec 64) :=
  match t.ent (l1Idx va) with
  | none => none
  | some l2 =>
    match l2.ent (l2Idx va) with
    | none => none
    | some l3 => some (l3.pte (l3Idx va))

/-- `pte_set` through the slot of an address; nothing when its tables do not exist. -/
def L1.setSlot (t : L1) (va : Nat) (pte : BitVec 64) : L1 :=
  match t.ent (l1Idx va) with
  | none => t
  | some l2 =>
    match l2.ent (l2Idx va) with
    | none => t
    | some l3 => t.set (l1Idx va) (l2.set (l2Idx va) (l3.set (l3Idx va) pte))

def L1.vaMapped (t : L1) (va : Nat) : Bool :=
  match t.slot va with
  | none => false
  | some pte => ptePresent pte

/-! ## Single pages -/

/-- `get_or_create_table`; `empty` makes the zeroed table on a new page. -/
def getOrCreateTable {α : Type} (empty : Nat → α) (k : Kmem) (parent : Node α) (i : Fin 512) :
    Option α × Node α × Kmem :=
  match parent.ent i with
  | some t => (some t, parent, k)
  | none =>
    match k.allocPage with
    | (none, k) => (none, parent, k)
    | (some p, k) => (some (empty p), parent.set i (empty p), k)

/-- `map_page`; true when the tables could be made. -/
def mapPage (k : Kmem) (pgd : L1) (va : Nat) (pte : BitVec 64) : Bool × L1 × Kmem :=
  match getOrCreateTable Node.empty k pgd (l1Idx va) with
  | (none, pgd, k) => (false, pgd, k)
  | (some l2, pgd, k) =>
    match getOrCreateTable L3.empty k l2 (l2Idx va) with
    | (none, l2, k) => (false, pgd.set (l1Idx va) l2, k)
    | (some l3, l2, k) => (true, pgd.set (l1Idx va) (l2.set (l2Idx va) (l3.set (l3Idx va) pte)), k)

/-- `if (p) put_page(p)` on the frame of an entry. -/
def putPte (k : Kmem) (pte : BitVec 64) : Kmem :=
  match k.pa.pteFrame pte with
  | none => k
  | some p => k.putPage p

def unmapPage (k : Kmem) (pgd : L1) (va : Nat) : L1 × Kmem :=
  match pgd.slot va with
  | none => (pgd, k)
  | some entry => if ptePresent entry then (pgd.setSlot va 0, putPte k entry) else (pgd, k)

def changePteProt (k : Kmem) (pgd : L1) (va : Nat) (mapProt : BitVec 64) : L1 :=
  match pgd.slot va with
  | none => pgd
  | some old =>
    if ptePresent old then
      let pte := (old &&& pteAddrMask) ||| protToPte mapProt
      let shared := match k.pa.pteFrame old with
        | none => false
        | some p => k.pa.pageCount p > 1
      pgd.setSlot va (if hasBits mapProt protWrite && shared then pteWrprotect pte else pte)
    else pgd

/-! ## Teardown -/

/-- The loop of `free_pgtable_level` over a last-level table. -/
def freeL3Loop (t : L3) : List (Fin 512) → Kmem → Kmem
  | [], k => k
  | i :: is, k => freeL3Loop t is (if ptePresent (t.pte i) then putPte k (t.pte i) else k)

def freeL3 (k : Kmem) (t : L3) : Kmem := (freeL3Loop t (List.finRange 512) k).freePage t.page

/-- The loop of `free_pgtable_level` over an upper table. -/
def freeNodeLoop {α : Type} (freeChild : Kmem → α → Kmem) (t : Node α) : List (Fin 512) → Kmem → Kmem
  | [], k => k
  | i :: is, k =>
    match t.ent i with
    | none => freeNodeLoop freeChild t is k
    | some c => freeNodeLoop freeChild t is (freeChild k c)

def freeNode {α : Type} (freeChild : Kmem → α → Kmem) (k : Kmem) (t : Node α) : Kmem :=
  (freeNodeLoop freeChild t (List.finRange 512) k).freePage t.page

def freeL2 : Kmem → L2 → Kmem := freeNode freeL3

/-- `free_user_page_tables`. -/
def freeUserPageTables : Kmem → L1 → Kmem := freeNode freeL2

/-! ## Duplication -/

/-- The loop of `dup_pgtable_level` over a last-level table: source and copy share the frames, both
write-protected. -/
def dupL3Loop : List (Fin 512) → Kmem → L3 → L3 → Option L3 × L3 × Kmem
  | [], k, src, dst => (some dst, src, k)
  | i :: is, k, src, dst =>
    let ent := src.pte i
    if ptePresent ent then
      match k.pa.pteFrame ent with
      | none => (none, src, freeL3 k dst)
      | some p =>
        let shared := if pteWrite ent then pteWrprotect ent else ent
        dupL3Loop is (k.getPage p) (src.set i shared) (dst.set i shared)
    else dupL3Loop is k src dst

/-- A copy (or none, when memory ran out), and the source as it is left. -/
def dupL3 (k : Kmem) (src : L3) : Option L3 × L3 × Kmem :=
  match k.allocPage with
  | (none, k) => (none, src, k)
  | (some p, k) => dupL3Loop (List.finRange 512) k src (L3.empty p)

def dupNodeLoop {α : Type} (dupChild : Kmem → α → Option α × α × Kmem) (freeChild : Kmem → α → Kmem) :
    List (Fin 512) → Kmem → Node α → Node α → Option (Node α) × Node α × Kmem
  | [], k, src, dst => (some dst, src, k)
  | i :: is, k, src, dst =>
    match src.ent i with
    | none => dupNodeLoop dupChild freeChild is k src dst
    | some c =>
      match dupChild k c with
      | (none, c, k) => (none, src.set i c, freeNode freeChild k dst)
      | (some d, c, k) => dupNodeLoop dupChild freeChild is k (src.set i c) (dst.set i d)

def dupNode {α : Type} (dupChild : Kmem → α → Option α × α × Kmem) (freeChild : Kmem → α → Kmem) (k : Kmem)
    (src : Node α) : Option (Node α) × Node α × Kmem :=
  match k.allocPage with
  | (none, k) => (none, src, k)
  | (some p, k) => dupNodeLoop dupChild freeChild (List.finRange 512) k src (Node.empty p)

def dupL2 : Kmem → L2 → Option L2 × L2 × Kmem := dupNode dupL3 freeL3

/-- `dup_pgtable` of the whole tree. -/
def dupPgtable : Kmem → L1 → Option L1 × L1 × Kmem := dupNode dupL2 freeL2

end MiniOs.Mm
