/-
fs/binfmt.c: `load_elf_binary` up to the point where the new address space takes the place of the old one,
with `load_segment`, `setup_stack`, `create_elf_tables` and `do_map` of mm/mmap.c. The program is a file in
memory; an offset into it is a 64-bit value, and a read outside of the file is `none`.
-/
import MiniOs.Fs.Errno
import MiniOs.Library.Bytes
import MiniOs.Mm.Mmap

namespace MiniOs.Mm

/-! ## Mapping -/

/-- The loop of `do_map`; `kva` is the kernel address of the page that comes next. -/
def doMapLoop (prot : BitVec 64) : List Nat → Nat → Kmem → L1 → Bool × L1 × Kmem
  | [], _, k, pgd => (true, pgd, k)
  | va :: vas, kva, k, pgd =>
    match mapPage k pgd va (mkPte kva (protToPte prot)) with
    | (false, pgd, k) => (false, pgd, k)
    | (true, pgd, k) => doMapLoop prot vas (kva + pageSize) k pgd

/-- `do_map`; true when all tables could be made. -/
def doMap (k : Kmem) (pgd : L1) (virt kva size : Nat) (prot : BitVec 64) : Bool × L1 × Kmem :=
  if size = 0 then (true, pgd, k)
  else doMapLoop prot (pageRange (pageTrunc virt) (pageAlignUp ((virt + size) % 2 ^ 64))) kva k pgd

/-- A run of bytes is stored in a page. -/
def Kmem.storeBytes (k : Kmem) (p off : Nat) (bytes : List UInt8) : Kmem :=
  { k with data := Function.update k.data p fun i =>
             if off ≤ i then (bytes[i - off]?).getD (k.data p i) else k.data p i }

end MiniOs.Mm

namespace MiniOs.Fs

open Library.Bytes
open Mm

/-! ## The file -/

/-- `bprm->buf` and `bprm->len`: bytes in the memory of the kernel. -/
structure ElfFile where
  bytes : List UInt8
  fits : bytes.length ≤ physMemSize

structure Ehdr where
  ident : List UInt8
  type : Nat
  machine : Nat
  entry : Nat
  phoff : Nat
  phnum : Nat

structure Phdr where
  flags : Nat
  offset : Nat
  vaddr : Nat
  filesz : Nat
  memsz : Nat
  deriving DecidableEq

/-- `sizeof(Elf64_Ehdr)` and `sizeof(Elf64_Phdr)`. -/
def ehdrSize : Nat := 64
def phdrSize : Nat := 56

def ptLoad : Nat := 1

namespace ElfFile

def len (f : ElfFile) : Nat := f.bytes.length

/-- The bytes from `buf + off` on. -/
def read (f : ElfFile) : Nat → Nat → Option (List UInt8)
  | _, 0 => some []
  | off, n + 1 => do
    let b ← f.bytes[off % 2 ^ 64]?
    let bs ← f.read (off + 1) n
    return b :: bs

def word (f : ElfFile) (off n : Nat) : Option Nat := (f.read off n).map ofUInt8s

/-- The fields of the ELF header that are used. -/
def ehdr (f : ElfFile) : Option Ehdr := do
  let ident ← f.read 0 6
  let type ← f.word 16 2
  let machine ← f.word 18 2
  let entry ← f.word 24 8
  let phoff ← f.word 32 8
  let phnum ← f.word 56 2
  return ⟨ident, type, machine, entry, phoff, phnum⟩

/-- A program header; only of a `PT_LOAD` header more than the type is read. -/
def phdr (f : ElfFile) (off : Nat) : Option (Option Phdr) := do
  let type ← f.word off 4
  if type ≠ ptLoad then return none
  let flags ← f.word (off + 4) 4
  let offset ← f.word (off + 8) 8
  let vaddr ← f.word (off + 16) 8
  let filesz ← f.word (off + 32) 8
  let memsz ← f.word (off + 40) 8
  return some ⟨flags, offset, vaddr, filesz, memsz⟩

end ElfFile

/-- The checks of the ELF header. -/
def Ehdr.accepted (e : Ehdr) (len : Nat) : Bool :=
  e.ident = [0x7f, 69, 76, 70, 2, 1] && e.type = 2 && e.machine = 183 && (e.phoff + e.phnum * phdrSize) % 2 ^ 64 ≤ len

/-! ## Segments -/

def elfProt (flags : Nat) : BitVec 64 :=
  (if hasBits (BitVec.ofNat 64 flags) 4 then protRead else 0) |||
    (if hasBits (BitVec.ofNat 64 flags) 2 then protWrite else 0) |||
    (if hasBits (BitVec.ofNat 64 flags) 1 then protExec else 0)

/-- The error of `vma_record` when it fails. -/
def vmaRecordErrno (k : Kmem) (start «end» : Nat) : Errno :=
  if start < «end» ∧ k.objCall.1 = false then .nomem else .inval

namespace Phdr

def mapStart (ph : Phdr) : Nat := pageTrunc ph.vaddr
def mapEnd (ph : Phdr) : Nat := pageAlignUp ((ph.vaddr + ph.memsz) % 2 ^ 64)

def pageSkip (ph : Phdr) (va : Nat) : Nat := if va = ph.mapStart then ph.vaddr - ph.mapStart else 0

/-- How much of the file goes into the page of `va`. -/
def copyLen (ph : Phdr) (va filePos : Nat) : Nat :=
  if filePos < ph.filesz then min (ph.filesz - filePos) (pageSize - ph.pageSkip va) else 0

end Phdr

/-- A zeroed page is mapped at `va`: the frame of the page, or nothing when memory ran out. -/
def newPage (k : Kmem) (pgd : L1) (va : Nat) (prot : BitVec 64) : Option Nat × L1 × Kmem :=
  match k.allocPage with
  | (none, k) => (none, pgd, k)
  | (some p, k) =>
    match doMap (k.pageZero p) pgd va (k.pa.pfnToAddr p) pageSize prot with
    | (false, pgd, k) => (none, pgd, k.freePage p)
    | (true, pgd, k) => (some p, pgd, k)

/-- The loop of `load_segment`. -/
def loadSegmentLoop (f : ElfFile) (ph : Phdr) : List Nat → Nat → Kmem → L1 → Option (Except Errno Unit × L1 × Kmem)
  | [], _, k, pgd => some (.ok (), pgd, k)
  | va :: vas, filePos, k, pgd =>
    match newPage k pgd va (elfProt ph.flags) with
    | (none, pgd, k) => some (.error .nomem, pgd, k)
    | (some p, pgd, k) => do
      let bytes ← f.read (ph.offset + filePos) (ph.copyLen va filePos)
      loadSegmentLoop f ph vas (filePos + ph.copyLen va filePos) (k.storeBytes p (ph.pageSkip va) bytes) pgd

def loadSegment (f : ElfFile) (k : Kmem) (mm : MmStruct) (ph : Phdr) : Option (Except Errno Unit × MmStruct × Kmem) :=
  if ph.filesz ≠ 0 ∧ (ph.offset + ph.filesz) % 2 ^ 64 > f.len then some (.error .noexec, mm, k)
  else do
    match ← loadSegmentLoop f ph (pageRange ph.mapStart ph.mapEnd) 0 k mm.pgd with
    | (.error e, pgd, k) => return (.error e, { mm with pgd := pgd }, k)
    | (.ok (), pgd, k) =>
      match vmaRecord k mm.mmap ph.mapStart ph.mapEnd (elfProt ph.flags) with
      | (false, vmas, k') => return (.error (vmaRecordErrno k ph.mapStart ph.mapEnd),
        { mm with pgd := pgd, mmap := vmas }, k')
      | (true, vmas, k') => return (.ok (), { mm with pgd := pgd, mmap := vmas }, k')

/-- `seg_end` moves the start of the heap. -/
def growBrk (mm : MmStruct) (ph : Phdr) : MmStruct :=
  let segEnd := (ph.vaddr + ph.memsz) % 2 ^ 64
  if segEnd > mm.startBrk then { mm with startBrk := segEnd } else mm

/-- The loop of `load_elf_binary` over the program headers; a new address space that is not finished is
dropped. -/
def loadSegments (f : ElfFile) (e : Ehdr) : List Nat → Kmem → MmStruct → Option (Except Errno MmStruct × Kmem)
  | [], k, mm => some (.ok mm, k)
  | i :: is, k, mm => do
    match ← f.phdr (e.phoff + i * phdrSize) with
    | none => loadSegments f e is k mm
    | some ph =>
      match ← loadSegment f k mm ph with
      | (.error err, mm, k) => return (.error err, (mmPut k mm).2)
      | (.ok (), mm, k) => loadSegments f e is k (growBrk mm ph)

/-! ## The stack -/

def vmStack : BitVec 64 := 8

/-- The loop of `setup_stack`, with the frame of the topmost page once it is there. A page that cannot be
mapped is not given back. -/
def setupStackLoop : List Nat → Option Nat → Kmem → L1 → Except Errno (Option Nat) × L1 × Kmem
  | [], top, k, pgd => (.ok top, pgd, k)
  | i :: is, top, k, pgd =>
    match k.allocPage with
    | (none, k) => (.error .nomem, pgd, k)
    | (some p, k) =>
      match doMap (k.pageZero p) pgd (userStackTop - (i + 1) * pageSize) (k.pa.pfnToAddr p) pageSize
        (protRead ||| protWrite) with
      | (false, pgd, k) => (.error .nomem, pgd, k)
      | (true, pgd, k) => setupStackLoop is (if i = 0 then some p else top) k pgd

def setupStack (k : Kmem) (mm : MmStruct) : Except Errno (Option Nat) × MmStruct × Kmem :=
  match setupStackLoop (List.range (userStackSize / pageSize)) none k mm.pgd with
  | (.error e, pgd, k) => (.error e, { mm with pgd := pgd }, k)
  | (.ok top, pgd, k) =>
    match vmaRecord k mm.mmap userStackBottom userStackTop (protRead ||| protWrite ||| vmStack) with
    | (false, vmas, k') => (.error (vmaRecordErrno k userStackBottom userStackTop),
      { mm with pgd := pgd, mmap := vmas }, k')
    | (true, vmas, k') => (.ok top, { mm with pgd := pgd, mmap := vmas }, k')

/-- The strings of `struct linux_binprm`. -/
structure ExecStrings where
  filename : List UInt8
  argv : List (List UInt8)
  envp : List (List UInt8)

/-- `stack_put_string` in the topmost page of the stack, in frame `p`: the new stack pointer, which is the address
of the string. -/
def stackPutString (k : Kmem) (p mapBase sp : Nat) (s : List UInt8) : Except Errno Nat × Kmem :=
  let len := s.length + 1
  if sp < mapBase + len then (.error .toobig, k)
  else (.ok (sp - len), k.storeBytes p (sp - len - mapBase) (s ++ [0]))

/-- The loops over `envp` and `argv`, the last string first: the stack pointer and the addresses of the strings. -/
def stackPutStrings (p mapBase : Nat) : List (List UInt8) → Kmem → Nat → Except Errno (Nat × List Nat) × Kmem
  | [], k, sp => (.ok (sp, []), k)
  | s :: strs, k, sp =>
    match stackPutStrings p mapBase strs k sp with
    | (.error e, k) => (.error e, k)
    | (.ok (sp, addrs), k) =>
      match stackPutString k p mapBase sp s with
      | (.error e, k) => (.error e, k)
      | (.ok sp, k) => (.ok (sp, sp :: addrs), k)

/-- The address of the program headers in the new image. -/
def phdrAddr (f : ElfFile) (e : Ehdr) : List Nat → Option Nat
  | [] => some 0
  | i :: is => do
    match ← f.phdr (e.phoff + i * phdrSize) with
    | none => phdrAddr f e is
    | some ph =>
      if ph.offset ≤ e.phoff ∧ e.phoff < (ph.offset + ph.filesz) % 2 ^ 64 then
        return (ph.vaddr + (e.phoff - ph.offset)) % 2 ^ 64
      else phdrAddr f e is

/-- The auxiliary vector: AT_PHDR, AT_PHENT, AT_PHNUM, AT_PAGESZ, AT_BASE, AT_FLAGS, AT_ENTRY, AT_UID, AT_EUID, AT_GID,
AT_EGID, AT_HWCAP, AT_CLKTCK, AT_SECURE, AT_RANDOM, AT_EXECFN, AT_NULL. -/
def auxv (e : Ehdr) (phdrs random execfn : Nat) : List (Nat × Nat) :=
  [(3, phdrs), (4, phdrSize), (5, e.phnum), (6, pageSize), (7, 0), (8, 0), (9, e.entry), (11, 0), (12, 0),
   (13, 0), (14, 0), (16, 0), (17, 100), (23, 0), (25, random), (31, execfn), (0, 0)]

/-- `create_elf_tables`: the stack pointer of the program. -/
def createElfTables (f : ElfFile) (e : Ehdr) (b : ExecStrings) (k : Kmem) (p mapBase stackTop : Nat) :
    Option (Except Errno Nat × Kmem) := do
  let phdrs ← phdrAddr f e (List.range e.phnum)
  match stackPutString k p mapBase stackTop b.filename with
  | (.error err, k) => return (.error err, k)
  | (.ok execfn, k) =>
    match stackPutStrings p mapBase b.envp k execfn with
    | (.error err, k) => return (.error err, k)
    | (.ok (sp, envp), k) =>
      match stackPutStrings p mapBase b.argv k sp with
      | (.error err, k) => return (.error err, k)
      | (.ok (sp, argv), k) =>
        if sp < mapBase + 16 then return (.error .toobig, k)
        let random := sp - 16
        let k := k.storeBytes p (random - mapBase)
          ((List.range 16).map fun i => UInt8.ofNat (0xa5 ^^^ i ^^^ random))
        let words := b.argv.length :: argv ++ [0] ++ envp ++ [0] ++ (auxv e phdrs random execfn).flatMap fun tv =>
          [tv.1, tv.2]
        let tableBytes := (1 + b.argv.length + 1 + b.envp.length + 1 + 17 * 2) * 8
        if random < mapBase + tableBytes + 16 then return (.error .toobig, k)
        let sp := (random - tableBytes) / 16 * 16
        return (.ok sp, k.storeBytes p (sp - mapBase) (words.flatMap (toUInt8s 8)))

/-! ## The loader -/

/-- What stands when the new image takes over. -/
structure Loaded where
  mm : MmStruct
  entry : Nat
  userSp : Nat

def loadElfBinary (f : ElfFile) (b : ExecStrings) (k : Kmem) : Option (Except Errno Loaded × Kmem) :=
  if f.len < ehdrSize then some (.error .noexec, k)
  else do
    let e ← f.ehdr
    if ¬ e.accepted f.len then return (.error .noexec, k)
    match mmAlloc k with
    | (none, k) => return (.error .nomem, k)
    | (some mm, k) =>
      match ← loadSegments f e (List.range e.phnum) k mm with
      | (.error err, k) => return (.error err, k)
      | (.ok mm, k) =>
        match setupStack k { mm with startBrk := pageAlignUp mm.startBrk, brk := pageAlignUp mm.startBrk } with
        | (.error err, mm, k) => return (.error err, (mmPut k mm).2)
        | (.ok top, mm, k) =>
          match ← createElfTables f e b k (top.getD 0) (userStackTop - pageSize) userStackTop with
          | (.error err, k) => return (.error err, (mmPut k mm).2)
          | (.ok userSp, k) => return (.ok ⟨{ mm with stackTop := userStackTop }, e.entry, userSp⟩, k)

end MiniOs.Fs
