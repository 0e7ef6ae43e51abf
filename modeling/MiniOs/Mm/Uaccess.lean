/-
Kernel access to user memory: the byte loops of mm/uaccess.c, run at EL1 through the page table of the
current address space, and the exception vectors of kernel/entry.S that an access the page table
refuses goes to.
-/
import MiniOs.Mm.MmSys

namespace MiniOs.Mm

/-! ## The vector table -/

inductive VecSource
  | currentSp0
  | currentSpx
  | lower64
  | lower32

inductive VecKind
  | sync
  | irq
  | fiq
  | serror

inductive Handler
  | excHang
  | irqEntry
  | syncEl0Entry
  deriving DecidableEq, Repr

/-- `vectors`. -/
def vectors : VecSource → VecKind → Handler
  | .currentSp0, _ => .excHang
  | .currentSpx, .irq => .irqEntry
  | .currentSpx, _ => .excHang
  | .lower64, .sync => .syncEl0Entry
  | .lower64, .irq => .irqEntry
  | .lower64, _ => .excHang
  | .lower32, _ => .excHang

/-! ## Copies -/

/-- A copy runs to its end, or an access of it raises an exception. -/
inductive CopyResult (α : Type)
  | done (a : α)
  | trapped (handler : Handler)

/-- The frame a kernel access to a user address reaches: it needs a present entry, and to write also
the absence of PTE_RDONLY. -/
def kernelFrame (pa : PageAlloc) (pgd : L1) (va : Nat) (write : Bool) : Option Nat :=
  if va < MmSys.userVaLimit then
    match pgd.slot va with
    | none => none
    | some pte => if ptePresent pte && !(write && hasBits pte pteRdonly) then pa.pteFrame pte else none
  else none

/-- `copy_to_user`: the loop of byte stores. -/
def copyToUser : Kmem → L1 → Nat → List UInt8 → CopyResult Kmem
  | k, _, _, [] => .done k
  | k, pgd, dst, byte :: src =>
    match kernelFrame k.pa pgd dst true with
    | none => .trapped (vectors .currentSpx .sync)
    | some p => copyToUser (MmSys.writeByte k p (dst % pageSize) byte) pgd (dst + 1) src

/-- `copy_from_user`: the loop of byte loads, with the bytes read. -/
def copyFromUser (k : Kmem) (pgd : L1) : Nat → Nat → CopyResult (List UInt8)
  | _, 0 => .done []
  | src, len + 1 =>
    match kernelFrame k.pa pgd src false with
    | none => .trapped (vectors .currentSpx .sync)
    | some p =>
      match copyFromUser k pgd (src + 1) len with
      | .done bytes => .done (k.data p (src % pageSize) :: bytes)
      | .trapped handler => .trapped handler

end MiniOs.Mm
