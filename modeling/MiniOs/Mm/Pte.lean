/-
Page-table entries of mm/mmap.c: the descriptor bits, the helpers on them, and the conversion
between physical addresses and the kernel's linear map (asm/memory.h).
-/
import MiniOs.Mm.PageAlloc

namespace MiniOs.Mm

def pteValid : BitVec 64 := 3
def pteAf : BitVec 64 := 1 <<< 10
def pteShared : BitVec 64 := 3 <<< 8
def pteUser : BitVec 64 := 1 <<< 6
def pteRdonly : BitVec 64 := 1 <<< 7
def pteNg : BitVec 64 := 1 <<< 11
def pteUxn : BitVec 64 := 1 <<< 54
def pteAddrMask : BitVec 64 := 0x0000FFFFFFFFF000
def pteFlagsMask : BitVec 64 := ~~~pteAddrMask

/-- `MAP_PROT_*`, which `PROT_*` and `VM_*` share. -/
def protRead : BitVec 64 := 1
def protWrite : BitVec 64 := 2
def protExec : BitVec 64 := 4

def physVirtOffset : BitVec 64 := 0xffff800080000000 - 0x40000000

def physToVirt (pa : BitVec 64) : BitVec 64 := physVirtOffset + pa
def virtToPhys (va : BitVec 64) : BitVec 64 := va - physVirtOffset

/-- A bit of `flags` that is set in `x`. -/
def hasBits (x flags : BitVec 64) : Bool := x &&& flags != 0

def ptePresent (pte : BitVec 64) : Bool := hasBits pte 1
def pteWrite (pte : BitVec 64) : Bool := ptePresent pte && !hasBits pte pteRdonly
def pteWrprotect (pte : BitVec 64) : BitVec 64 := pte ||| pteRdonly
def pteMkwrite (pte : BitVec 64) : BitVec 64 := pte &&& ~~~pteRdonly

def pteCowCandidate (pte vmFlags : BitVec 64) : Bool :=
  ptePresent pte && hasBits pte pteRdonly && hasBits vmFlags protWrite

def linuxProtToMap (prot : BitVec 64) : BitVec 64 :=
  (if hasBits prot protRead then protRead else 0) ||| (if hasBits prot protWrite then protWrite else 0) |||
    (if hasBits prot protExec then protExec else 0)

def protToPte (prot : BitVec 64) : BitVec 64 :=
  pteValid ||| pteAf ||| pteShared ||| pteNg |||
    (if hasBits prot (protRead ||| protWrite ||| protExec) then pteUser else 0) |||
    (if hasBits prot protWrite then 0 else pteRdonly) ||| (if hasBits prot protExec then 0 else pteUxn)

/-- The kernel address of the page an entry points to. -/
def pteKva (pte : BitVec 64) : Nat := (physToVirt (pte &&& pteAddrMask)).toNat

/-- The entry for the pool page at kernel address `kva`, with flag bits `flags`. -/
def mkPte (kva : Nat) (flags : BitVec 64) : BitVec 64 :=
  (virtToPhys (BitVec.ofNat 64 kva) &&& pteAddrMask) ||| flags

/-- `virt_to_page` of the page an entry points to. -/
def PageAlloc.pteFrame (st : PageAlloc) (pte : BitVec 64) : Option Nat := st.virtToPage (pteKva pte)

end MiniOs.Mm
