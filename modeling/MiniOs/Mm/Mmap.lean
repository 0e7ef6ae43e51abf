/-
Address spaces: mm/mmap.c (`do_mmap`, `do_munmap`, `do_brk`, `mm_mprotect`, `do_page_fault`,
`mm_put`) and the part of kernel/fork.c that makes and duplicates them (`mm_alloc`, `dup_mm`).
-/
import MiniOs.Mm.Vma

namespace MiniOs.Mm

def enomem : Int := 12
def efault : Int := 14
def einval : Int := 22

def userMmapBase : Nat := 0x2000000
def userStackTop : Nat := 0x4040000
def userStackSize : Nat := 0x10000
def userStackBottom : Nat := userStackTop - userStackSize

def mapFixed : BitVec 64 := 0x10
def mapAnonymous : BitVec 64 := 0x20

/-- A `struct mm_struct`. -/
structure MmStruct where
  mmap : List Vma
  pgd : L1
  stackTop : Nat
  startBrk : Nat
  brk : Nat
  mmapBase : Nat
  users : Int

/-- The addresses of `for (va = start; va < end; va += PAGE_SIZE)`. -/
def pageRange (start «end» : Nat) : List Nat :=
  (List.range ((«end» - start + (pageSize - 1)) / pageSize)).map fun i => start + i * pageSize

/-! ## Unmapping -/

def unmapPages : Kmem → L1 → List Nat → L1 × Kmem
  | k, pgd, [] => (pgd, k)
  | k, pgd, va :: vas =>
    let (pgd, k) := unmapPage k pgd va
    unmapPages k pgd vas

def doMunmap (k : Kmem) (mm : MmStruct) (addr len : Nat) : Int × MmStruct × Kmem :=
  if len = 0 then (0, mm, k)
  else if addr % pageSize ≠ 0 then (-einval, mm, k)
  else
    let «end» := pageAlignUp ((addr + len) % 2 ^ 64)
    match vmaEraseRange addr «end» k mm.mmap with
    | (false, vmas, k) => (-enomem, { mm with mmap := vmas }, k)
    | (true, vmas, k) =>
      let (pgd, k) := unmapPages k mm.pgd (pageRange addr «end»)
      (0, { mm with mmap := vmas, pgd := pgd }, k)

/-! ## Mapping -/

def stackLimit (mm : MmStruct) (dflt : Nat) : Nat :=
  if mm.stackTop ≠ 0 then (mm.stackTop + 2 ^ 64 - userStackSize) % 2 ^ 64 else dflt

def findUnmappedArea (mm : MmStruct) (len : Nat) : Nat :=
  findUnmappedLoop len (stackLimit mm userStackBottom) (pageAlignUp mm.mmapBase) mm.mmap

/-- Record the new VMA at `va`: the end of `do_mmap`. -/
def doMmapInsert (k : Kmem) (mm : MmStruct) (va len : Nat) (mapProt : BitVec 64) : Int × MmStruct × Kmem :=
  match k.objCall with
  | (false, k) => (-enomem, mm, k)
  | (true, k) =>
    match insertVma mm.mmap ⟨va, (va + len) % 2 ^ 64, mapProt⟩ with
    | none => (-einval, mm, k.objCall.2)
    | some vmas =>
      let «end» := (va + len) % 2 ^ 64
      (va, { mm with mmap := vmas, mmapBase := if «end» > mm.mmapBase then «end» else mm.mmapBase }, k)

def doMmap (k : Kmem) (mm : MmStruct) (addr len : Nat) (prot flags : BitVec 64) : Int × MmStruct × Kmem :=
  if len = 0 then (-einval, mm, k)
  else if !hasBits flags mapAnonymous then (-einval, mm, k)
  else
    let len := pageAlignUp len
    let mapProt := linuxProtToMap prot
    if addr = 0 ∨ !hasBits flags mapFixed then
      let va := findUnmappedArea mm len
      if va = 0 then (-enomem, mm, k) else doMmapInsert k mm va len mapProt
    else
      let va := pageTrunc addr
      let «end» := (va + len) % 2 ^ 64
      if va = 0 ∨ «end» > stackLimit mm userStackBottom then (-einval, mm, k)
      else
        match vmaEraseRange va «end» k mm.mmap with
        | (false, vmas, k) => (-enomem, { mm with mmap := vmas }, k)
        | (true, vmas, k) =>
          let (pgd, k) := unmapPages k mm.pgd (pageRange va «end»)
          doMmapInsert k { mm with mmap := vmas, pgd := pgd } va len mapProt

/-! ## The heap -/

/-- The list split at the heap VMA, the first that starts at `start_brk`. -/
def splitHeap (startBrk : Nat) (vmas : List Vma) : Option (List Vma × Vma × List Vma) :=
  match vmas.dropWhile fun v => v.vmStart ≠ startBrk with
  | [] => none
  | v :: after => some (vmas.takeWhile fun v => v.vmStart ≠ startBrk, v, after)

/-- The growing branch of `do_brk`; false when the break stays. -/
def brkGrow (k : Kmem) (mm : MmStruct) (newbrk : Nat) : Bool × MmStruct × Kmem :=
  let newEnd := pageAlignUp newbrk
  match splitHeap mm.startBrk mm.mmap with
  | none =>
    let (ok, vmas, k) := vmaRecord k mm.mmap mm.startBrk newEnd (protRead ||| protWrite)
    (ok, { mm with mmap := vmas }, k)
  | some (before, heap, after) =>
    if after.head?.any fun v => newEnd > v.vmStart then (false, mm, k)
    else if newEnd > heap.vmEnd then
      (true, { mm with mmap := before ++ { heap with vmEnd := newEnd } :: after }, k)
    else (true, mm, k)

/-- The shrinking branch of `do_brk`. -/
def brkShrink (k : Kmem) (mm : MmStruct) (newbrk : Nat) : MmStruct × Kmem :=
  let newEnd := pageAlignUp newbrk
  let (pgd, k) := unmapPages k mm.pgd (pageRange newEnd (pageAlignUp mm.brk))
  match splitHeap mm.startBrk mm.mmap with
  | none => ({ mm with pgd := pgd }, k)
  | some (before, heap, after) =>
    if newEnd ≤ heap.vmStart then ({ mm with pgd := pgd, mmap := before ++ after }, k.objCall.2)
    else ({ mm with pgd := pgd, mmap := before ++ { heap with vmEnd := newEnd } :: after }, k)

def doBrk (k : Kmem) (mm : MmStruct) (newbrk : Nat) : Int × MmStruct × Kmem :=
  let limit := stackLimit mm 0
  if newbrk < mm.startBrk ∨ (limit ≠ 0 ∧ newbrk ≥ limit) then (mm.brk, mm, k)
  else if newbrk = mm.brk then (mm.brk, mm, k)
  else if newbrk > mm.brk then
    match brkGrow k mm newbrk with
    | (false, mm, k) => (mm.brk, mm, k)
    | (true, mm, k) => (newbrk, { mm with brk := newbrk }, k)
  else
    let (mm, k) := brkShrink k mm newbrk
    (newbrk, { mm with brk := newbrk }, k)

/-! ## Protection -/

def changeProtRange (k : Kmem) (mapProt : BitVec 64) : L1 → List Nat → L1
  | pgd, [] => pgd
  | pgd, va :: vas => changeProtRange k mapProt (changePteProt k pgd va mapProt) vas

def vmReplaceProt (flags mapProt : BitVec 64) : BitVec 64 :=
  (flags &&& ~~~(protRead ||| protWrite ||| protExec)) ||| mapProt

/-- The loop of `mm_mprotect` from the first VMA it changes. -/
def mprotectLoop (k : Kmem) («end» : Nat) (mapProt : BitVec 64) : L1 → List Vma → L1 × List Vma
  | pgd, [] => (pgd, [])
  | pgd, v :: vmas =>
    if v.vmStart < «end» then
      let pgd := changeProtRange k mapProt pgd (pageRange v.vmStart v.vmEnd)
      let (pgd, vmas) := mprotectLoop k «end» mapProt pgd vmas
      (pgd, { v with vmFlags := vmReplaceProt v.vmFlags mapProt } :: vmas)
    else (pgd, v :: vmas)

def mmMprotect (k : Kmem) (mm : MmStruct) (start «end» : Nat) (prot : BitVec 64) : Int × MmStruct × Kmem :=
  if start ≥ «end» then (-einval, mm, k)
  else if !mprotectCovered mm.mmap «end» mm.mmap.length start then (-enomem, mm, k)
  else
    match vmaSplit start start k mm.mmap with
    | (false, vmas, k) => (-enomem, { mm with mmap := vmas }, k)
    | (true, vmas, k) =>
      match vmaSplit («end» - 1) «end» k vmas with
      | (false, vmas, k) => (-enomem, { mm with mmap := vmas }, k)
      | (true, vmas, k) =>
        let mapProt := linuxProtToMap prot
        let before := vmas.takeWhile fun v => v.vmEnd ≤ start
        let after := vmas.dropWhile fun v => v.vmEnd ≤ start
        let (pgd, after) := mprotectLoop k «end» mapProt mm.pgd after
        (0, { mm with mmap := before ++ after, pgd := pgd }, k)

def ksysMprotect (k : Kmem) (mm : MmStruct) (addr len : Nat) (prot : BitVec 64) : Int × MmStruct × Kmem :=
  if addr % pageSize ≠ 0 then (-einval, mm, k)
  else if hasBits prot (~~~(protRead ||| protWrite ||| protExec)) then (-einval, mm, k)
  else if len = 0 then (0, mm, k)
  else if len > 2 ^ 64 - 1 - (pageSize - 1) then (-enomem, mm, k)
  else
    let nlen := pageAlignUp len
    if addr > 2 ^ 64 - 1 - nlen then (-enomem, mm, k) else mmMprotect k mm addr (addr + nlen) prot

/-! ## Faults -/

def esrGetEc (esr : BitVec 64) : BitVec 64 := (esr >>> 26) &&& 0x3f
def esrEcIabtLow : BitVec 64 := 0x20
def esrEcDabtLow : BitVec 64 := 0x24
def esrWnr : BitVec 64 := 1 <<< 6

/-- The access checks of `do_page_fault` against the VMA. -/
def faultAllowed (vma : Vma) (esr : BitVec 64) : Bool :=
  if esrGetEc esr = esrEcIabtLow then hasBits vma.vmFlags protExec
  else if hasBits esr esrWnr then hasBits vma.vmFlags protWrite
  else hasBits vma.vmFlags (protRead ||| protWrite ||| protExec)

def doCowFault (k : Kmem) (pgd : L1) (va : Nat) (vma : Vma) : Int × L1 × Kmem :=
  match pgd.slot va with
  | none => (-efault, pgd, k)
  | some old =>
    if pteCowCandidate old vma.vmFlags then
      match k.pa.pteFrame old with
      | none => (-efault, pgd, k)
      | some p =>
        if k.pa.pageCount p = 1 then (0, pgd.setSlot va (pteMkwrite old), k)
        else
          match k.allocPage with
          | (none, k) => (-enomem, pgd, k)
          | (some q, k) =>
            let k := k.pageCopy q p
            let new := pteMkwrite (mkPte (k.pa.pfnToAddr q) (old &&& pteFlagsMask))
            (0, pgd.setSlot va new, k.putPage p)
    else (-efault, pgd, k)

/-- Demand paging: a zeroed page at an address that has none. -/
def doAnonFault (k : Kmem) (pgd : L1) (va : Nat) (vma : Vma) : Int × L1 × Kmem :=
  match k.allocPage with
  | (none, k) => (-enomem, pgd, k)
  | (some p, k) =>
    let k := k.pageZero p
    match mapPage k pgd va (mkPte (k.pa.pfnToAddr p) (protToPte vma.vmFlags)) with
    | (true, pgd, k) => (0, pgd, k)
    | (false, pgd, k) => (-enomem, pgd, k.freePage p)

def doPageFault (k : Kmem) (mm : MmStruct) (addr : Nat) (esr : BitVec 64) : Int × MmStruct × Kmem :=
  let va := pageTrunc addr
  match findVma mm.mmap addr with
  | none => (-efault, mm, k)
  | some vma =>
    if addr < vma.vmStart then (-efault, mm, k)
    else if !faultAllowed vma esr then (-efault, mm, k)
    else if mm.pgd.vaMapped va then
      if hasBits esr esrWnr then
        let (ret, pgd, k) := doCowFault k mm.pgd va vma
        (ret, { mm with pgd := pgd }, k)
      else (-efault, mm, k)
    else
      let (ret, pgd, k) := doAnonFault k mm.pgd va vma
      (ret, { mm with pgd := pgd }, k)

/-! ## Making, duplicating and dropping address spaces -/

/-- `mm_alloc`: an address space without mappings. -/
def mmAlloc (k : Kmem) : Option MmStruct × Kmem :=
  match k.objCall with
  | (false, k) => (none, k)
  | (true, k) =>
    match k.allocPage with
    | (none, k) => (none, k.objCall.2)
    | (some p, k) =>
      (some { mmap := [], pgd := Node.empty p, stackTop := 0, startBrk := 0, brk := 0, mmapBase := userMmapBase
              users := 1 }, k)

/-- `dup_mm`: the copy (or none), and the source as it is left. -/
def dupMm (k : Kmem) (oldmm : MmStruct) : Option MmStruct × MmStruct × Kmem :=
  match k.objCall with
  | (false, k) => (none, oldmm, k)
  | (true, k) =>
    match dupPgtable k oldmm.pgd with
    | (none, pgd, k) => (none, { oldmm with pgd := pgd }, k.objCall.2)
    | (some new, pgd, k) =>
      match dupVmaList k oldmm.mmap with
      | (none, k) => (none, { oldmm with pgd := pgd }, (freeUserPageTables k new).objCall.2)
      | (some vmas, k) => (some { oldmm with mmap := vmas, pgd := new, users := 1 }, { oldmm with pgd := pgd }, k)

/-- `mm_put`: `none` when the last user is gone. -/
def mmPut (k : Kmem) (mm : MmStruct) : Option MmStruct × Kmem :=
  let users := mm.users - 1
  if users > 0 then (some { mm with users := users }, k)
  else (none, (freeVmas (freeUserPageTables k mm.pgd) mm.mmap).objCall.2)

end MiniOs.Mm
