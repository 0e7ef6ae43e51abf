/-
A set of address spaces as one machine: they are made, forked and dropped, user code reads and writes
through the entries of its page table, faults go to `do_page_fault`, and the mapping calls change
them, in any interleaving and with the rest of the kernel using the page allocator in between. Every
step emits an event; the reference machine at the end has a private memory for every address space
and reads the same events.
-/
import MiniOs.Mm.Mmap

namespace MiniOs.Mm

structure MmSys where
  k : Kmem
  mms : List (Option MmStruct)

/-- What an address space starts with, beside an empty page table. -/
structure MmStart where
  vmas : List Vma
  stackTop : BitVec 64
  startBrk : BitVec 64
  brk : BitVec 64
  mmapBase : BitVec 64

inductive Event
  | quiet
  | created
  | forked (i : Nat)
  | read (i va : Nat) (byte : UInt8)
  | wrote (i va : Nat) (byte : UInt8)
  /-- These addresses lost their page. -/
  | unmapped (i : Nat) (gone : Nat → Bool)
  | dropped (i : Nat)

/-- What the object allocator does during a call: see `Kmem.objCall`. -/
abbrev Script := List (List PageSys.Op × Bool)

inductive MmOp
  | create (start : MmStart) (script : Script)
  | fork (i : Nat) (script : Script)
  | read (i : Nat) (va : BitVec 64)
  | write (i : Nat) (va : BitVec 64) (byte : UInt8)
  | fault (i : Nat) (addr esr : BitVec 64)
  | mmap (i : Nat) (addr len prot flags : BitVec 64) (script : Script)
  | munmap (i : Nat) (addr len : BitVec 64) (script : Script)
  | brk (i : Nat) (newbrk : BitVec 64) (script : Script)
  | mprotect (i : Nat) (start «end» prot : BitVec 64) (script : Script)
  | unmap (i : Nat) (va : BitVec 64)
  | put (i : Nat) (script : Script)
  | env (ops : List PageSys.Op)
  /-- Another client of the page allocator writes into a block it holds. -/
  | store (pfn order j offset : Nat) (byte : UInt8)

namespace MmSys

def init (start : AllocStart) : MmSys :=
  ⟨⟨PageAlloc.pageAllocInit start.addr, fun _ => none, fun _ _ => 0, [], []⟩, []⟩

/-- Translation regime of TTBR0: user addresses have 39 bits. -/
def userVaLimit : Nat := 2 ^ 39

/-- The frame a user access reaches through the page table, or none when the entry refuses it. -/
def userFrame (pa : PageAlloc) (pgd : L1) (va : Nat) (write : Bool) : Option Nat :=
  if va < userVaLimit then
    match pgd.slot va with
    | none => none
    | some pte =>
      if ptePresent pte && hasBits pte pteUser && !(write && hasBits pte pteRdonly) then pa.pteFrame pte else none
  else none

/-- The syndrome of a data abort from user mode. -/
def dabtEsr (write : Bool) : BitVec 64 := (esrEcDabtLow <<< 26) ||| (if write then esrWnr else 0)

def setMm (s : MmSys) (i : Nat) (mm : MmStruct) (k : Kmem) : MmSys := ⟨k, s.mms.set i (some mm)⟩

def withScript (s : MmSys) (script : Script) : Kmem := { s.k with script := script }

def alignedVma (v : Vma) : Bool := v.vmStart % pageSize = 0 && v.vmEnd % pageSize = 0 && v.vmEnd < 2 ^ 64

def create (s : MmSys) (start : MmStart) (script : Script) : Option (MmSys × Event) :=
  if start.vmas.all alignedVma then
    match mmAlloc (s.withScript script) with
    | (none, k) => some (⟨k, s.mms⟩, .quiet)
    | (some mm, k) =>
      some (⟨k, s.mms ++ [some { mm with
        mmap := start.vmas, stackTop := start.stackTop.toNat, startBrk := start.startBrk.toNat
        brk := start.brk.toNat, mmapBase := start.mmapBase.toNat }]⟩, .created)
  else none

def fork (s : MmSys) (i : Nat) (mm : MmStruct) (script : Script) : MmSys × Event :=
  match dupMm (s.withScript script) mm with
  | (none, mm, k) => (s.setMm i mm k, .quiet)
  | (some new, mm, k) => (⟨k, s.mms.set i (some mm) ++ [some new]⟩, .forked i)

/-- A user load: it reads through the entry, or faults. -/
def userRead (s : MmSys) (i : Nat) (mm : MmStruct) (va : Nat) : MmSys × Event :=
  match userFrame s.k.pa mm.pgd va false with
  | some p => (s, .read i va (s.k.data p (va % pageSize)))
  | none =>
    let (_, mm, k) := doPageFault s.k mm va (dabtEsr false)
    (s.setMm i mm k, .quiet)

def writeByte (k : Kmem) (p offset : Nat) (byte : UInt8) : Kmem :=
  { k with data := Function.update k.data p (Function.update (k.data p) offset byte) }

def userWrite (s : MmSys) (i : Nat) (mm : MmStruct) (va : Nat) (byte : UInt8) : MmSys × Event :=
  match userFrame s.k.pa mm.pgd va true with
  | some p => (⟨writeByte s.k p (va % pageSize) byte, s.mms⟩, .wrote i va byte)
  | none =>
    let (_, mm, k) := doPageFault s.k mm va (dabtEsr true)
    (s.setMm i mm k, .quiet)

/-- The addresses of the page `unmap_page(va)` clears. -/
def samePage (va a : Nat) : Bool := va % userVaLimit / pageSize = a % userVaLimit / pageSize

/-- The addresses whose page a call dropped. -/
def dropped (old new : L1) (va : Nat) : Bool := old.vaMapped va && !new.vaMapped va

/-- The step in which a mapping call turns `old` into `new`. -/
def remap (s : MmSys) (i : Nat) (old : MmStruct) : Int × MmStruct × Kmem → MmSys × Event
  | (_, new, k) => (s.setMm i new k, .unmapped i (dropped old.pgd new.pgd))

def drop (s : MmSys) (i : Nat) (mm : MmStruct) (script : Script) : MmSys × Event :=
  match mmPut (s.withScript script) mm with
  | (some mm, k) => (s.setMm i mm k, .quiet)
  | (none, k) => (⟨k, s.mms.set i none⟩, .dropped i)

/-- A step of the address space `mm`, number `i`. -/
def mmStep (s : MmSys) (i : Nat) (mm : MmStruct) : MmOp → Option (MmSys × Event)
  | .fork _ script => some (s.fork i mm script)
  | .read _ va => some (s.userRead i mm va.toNat)
  | .write _ va byte => some (s.userWrite i mm va.toNat byte)
  | .fault _ addr esr =>
    let (_, mm, k) := doPageFault s.k mm addr.toNat esr
    some (s.setMm i mm k, .quiet)
  | .mmap _ addr len prot flags script =>
    some (s.remap i mm (doMmap (s.withScript script) mm addr.toNat len.toNat prot flags))
  | .munmap _ addr len script => some (s.remap i mm (doMunmap (s.withScript script) mm addr.toNat len.toNat))
  | .brk _ newbrk script => some (s.remap i mm (doBrk (s.withScript script) mm newbrk.toNat))
  | .mprotect _ start «end» prot script =>
    let (_, mm, k) := mmMprotect (s.withScript script) mm start.toNat «end».toNat prot
    some (s.setMm i mm k, .quiet)
  | .unmap _ va =>
    let (pgd, k) := unmapPage s.k mm.pgd va.toNat
    some (s.setMm i { mm with pgd := pgd } k, .unmapped i (samePage va.toNat))
  | .put _ script => some (s.drop i mm script)
  | _ => none

/-- The address space an operation is about. -/
def MmOp.target : MmOp → Option Nat
  | .fork i _ | .read i _ | .write i _ _ | .fault i _ _ | .mmap i _ _ _ _ _ | .munmap i _ _ _ | .brk i _ _
  | .mprotect i _ _ _ _ | .unmap i _ | .put i _ => some i
  | _ => none

def step (s : MmSys) (op : MmOp) : Option (MmSys × Event) :=
  match op with
  | .create start script => s.create start script
  | .env ops => some (⟨s.k.runEnv ops, s.mms⟩, .quiet)
  | .store pfn order j offset byte =>
    if s.k.env pfn = some order ∧ j < 2 ^ order then
      some (⟨writeByte s.k (pfn + j) offset byte, s.mms⟩, .quiet)
    else none
  | op =>
    match MmOp.target op with
    | none => none
    | some i =>
      match s.mms[i]? with
      | some (some mm) => s.mmStep i mm op
      | _ => none

/-! ## The reference machine -/

/-- A private memory for every address space. -/
abbrev Ref := List (Option (Nat → UInt8))

/-- The memory of one address space changes. -/
def refUpdate (r : Ref) (i : Nat) (f : (Nat → UInt8) → Nat → UInt8) : Option Ref :=
  match r[i]? with
  | some (some m) => some (r.set i (some (f m)))
  | _ => none

/-- Fork copies the whole memory at once; a read that returns another byte is refused. -/
def refStep (r : Ref) : Event → Option Ref
  | .quiet => some r
  | .created => some (r ++ [some fun (_ : Nat) => (0 : UInt8)])
  | .forked i =>
    match r[i]? with
    | some (some m) => some (r ++ [some m])
    | _ => none
  | .read i va byte =>
    match r[i]? with
    | some (some m) => if m va = byte then some r else none
    | _ => none
  | .wrote i va byte => refUpdate r i fun m a => if a = va then byte else m a
  | .unmapped i gone => refUpdate r i fun m a => if gone a then 0 else m a
  | .dropped i => if i < r.length then some (r.set i none) else none

end MmSys

end MiniOs.Mm
