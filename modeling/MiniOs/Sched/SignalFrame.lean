/-
Signal delivery to one user thread: kernel/signal.c from `signal_frame_ok` to `do_signal`, and
`ksys_rt_sigreturn`. User memory is the thread's own address space, byte by byte; the copies of
mm/uaccess.c never report an error, an access the page table refuses ends in `exc_hang`.
-/
import MiniOs.Library.Bytes
import MiniOs.Mm.MmSys
import MiniOs.Sched.Signal

namespace MiniOs.Sched

open Library.Bytes

/-! ## Registers and user memory -/

instance regs_neZero : NeZero 31 := ⟨by decide⟩

/-- `struct pt_regs`, with `x0` to `x30` as one array. -/
structure PtRegs where
  x : Fin 31 → BitVec 64
  elrEl1 : BitVec 64
  spsrEl1 : BitVec 64
  deriving DecidableEq

def PtRegs.setX (regs : PtRegs) (i : Fin 31) (v : BitVec 64) : PtRegs := { regs with x := Function.update regs.x i v }

/-- Why the kernel does not get back to the caller. -/
inductive Stop
  /-- `do_exit`. -/
  | exit (code : Nat)
  /-- The exception vector of a refused kernel access. -/
  | hang
  /-- It is still asleep or in its loop when the given part of the run ends. -/
  | waits
  /-- A copy to an address that is not the user's: nothing stops it from writing into the kernel, and the
  model does not follow it there. -/
  | wild
  deriving DecidableEq

/-- What the signal code sees of a `struct mm_struct`: `rdonly` is a page that is present and not writable. -/
structure UserMm where
  vmas : List Mm.Vma
  stackTop : Nat
  byte : Nat → Byte
  present : Nat → Bool
  rdonly : Nat → Bool

namespace UserMm

def copyFromUser (mm : UserMm) (src : BitVec 64) (len : Nat) : Except Stop (List Byte) :=
  if (List.range len).all fun i => mm.present (src.toNat + i) then .ok (load mm.byte src.toNat len) else .error .hang

def copyToUser (mm : UserMm) (dst : BitVec 64) (bytes : List Byte) : Except Stop UserMm :=
  if (List.range bytes.length).all fun i => mm.present (dst.toNat + i) && !mm.rdonly (dst.toNat + i) then
    .ok { mm with byte := store mm.byte dst.toNat bytes }
  else .error .hang

end UserMm

/-! ## The frame -/

structure SignalFrame where
  regs : PtRegs
  userSp : BitVec 64
  blocked : BitVec 64
  deriving DecidableEq

/-- `sizeof(struct signal_frame)`. -/
def frameSize : Nat := 280

namespace SignalFrame

/-- The fields in the order of the structure. -/
def words (f : SignalFrame) : List (BitVec 64) :=
  List.ofFn f.regs.x ++ [f.regs.elrEl1, f.regs.spsrEl1, f.userSp, f.blocked]

def ofWords (ws : List (BitVec 64)) : SignalFrame :=
  ⟨⟨fun i => ws.getD i 0, ws.getD 31 0, ws.getD 32 0⟩, ws.getD 33 0, ws.getD 34 0⟩

def bytes (f : SignalFrame) : List Byte := encode f.words

def ofBytes (bs : List Byte) : SignalFrame := ofWords (decode 35 bs)

end SignalFrame

def mapProtWrite : BitVec 64 := 0x2

def signalFrameOk (mm : UserMm) (sp : BitVec 64) : Bool :=
  if sp = 0 ∨ sp &&& 15 ≠ 0 then false
  else if sp.toNat > 2 ^ 64 - 1 - frameSize then false
  else
    let frameEnd := sp.toNat + frameSize
    ((Mm.findVma mm.vmas sp.toNat).any fun vma =>
      decide (vma.vmStart ≤ sp.toNat ∧ frameEnd ≤ vma.vmEnd) && vma.vmFlags &&& mapProtWrite != 0#64) ||
    (mm.stackTop != 0 &&
      decide ((mm.stackTop + 2 ^ 64 - Mm.userStackSize) % 2 ^ 64 ≤ sp.toNat ∧ frameEnd ≤ mm.stackTop))

/-! ## Threads -/

/-- The part of a user task that signals touch. `userSp` is `sp_el0`. -/
structure Thread where
  pid : Pid
  pending : BitVec 64
  blocked : BitVec 64
  savedBlocked : BitVec 64
  restoreSigmask : Bool
  inSyscall : Bool
  origX0 : BitVec 64
  actions : Nat → Sigaction
  regs : PtRegs
  userSp : BitVec 64
  mm : UserMm

namespace Thread

/-- Signals that other tasks and the kernel send meanwhile. -/
def arrive (t : Thread) (sigs : List Nat) : Thread :=
  { t with pending := sigs.foldl
             (fun pending sig => if nsig ≤ sig ∨ sig = 0 then pending else addPending pending sig) t.pending }

def signalPending (t : Thread) : Bool := readySet t.pending t.blocked != 0#64

/-- Where `setup_signal_frame` puts the frame. -/
def frameSp (sp : BitVec 64) : BitVec 64 := (sp - BitVec.ofNat 64 frameSize) &&& ~~~15

/-- `setup_signal_frame`; `none` for its error returns. -/
def setupSignalFrame (t : Thread) (sig : Nat) (handler restorer oldBlocked : BitVec 64) : Except Stop (Option Thread) :=
  if restorer = 0 then .ok none
  else if t.userSp.toNat < frameSize ∨ t.userSp &&& 15 ≠ 0 then .ok none
  else
    let frame : SignalFrame := ⟨t.regs, t.userSp, oldBlocked⟩
    let sp := frameSp t.userSp
    if signalFrameOk t.mm sp then
      (t.mm.copyToUser sp frame.bytes).map fun mm =>
        some { t with
          mm := mm
          userSp := sp
          regs := { (t.regs.setX 0 (BitVec.ofNat 64 sig)).setX 30 restorer with elrEl1 := handler } }
    else .ok none

/-- `ERESTARTSYS` and `EINTR` as they stand in `x0`. -/
def restartsys : BitVec 64 := -512
def eintr : BitVec 64 := -4

def applySyscallRestart (t : Thread) (restart : Bool) : Thread :=
  if !t.inSyscall then t
  else if t.regs.x 0 ≠ restartsys then t
  else if restart then { t with regs := { t.regs.setX 0 t.origX0 with elrEl1 := t.regs.elrEl1 - 4 } }
  else { t with regs := t.regs.setX 0 eintr }

def syscallExitRestart (t : Thread) : Thread := t.applySyscallRestart true

/-- The mask `handle_signal` saves: that from before a syscall which has replaced it. -/
def oldBlocked (t : Thread) : BitVec 64 := if t.restoreSigmask then t.savedBlocked else t.blocked

def handleSignal (t : Thread) (sig : Nat) (ka : Sigaction) : Except Stop Thread :=
  if ka.saHandler = sigDfl ∨ ka.saHandler = sigIgn then .ok t
  else
    let newBlocked := t.blocked ||| ka.saMask
    let newBlocked := if ka.has saNodefer then newBlocked else newBlocked ||| sigBit sig
    let newBlocked := newBlocked &&& ~~~sigUnblockable
    match setupSignalFrame { t with restoreSigmask := false } sig ka.saHandler ka.saRestorer t.oldBlocked with
    | .error stop => .error stop
    | .ok none => .error (.exit sigsegv)
    | .ok (some t) => .ok { t with blocked := newBlocked }

/-- A signal that `do_signal` takes, the mask in force and what becomes of the signal. -/
structure Taken where
  sig : Nat
  blocked : BitVec 64
  verdict : Verdict
  deriving DecidableEq

/-- `do_signal`, with the signals it takes. Each round has the signals that arrive before it looks: other CPUs
send them at any time, and while the thread is stopped. -/
def doSignal : List (List Nat) → Thread → List Taken × Except Stop Thread
  | [], _ => ([], .error .waits)
  | sigs :: rest, t =>
    let t := t.arrive sigs
    let sig := nextPendingSignal t.pending t.blocked
    if sig = 0 then ([], .ok t)
    else
      let ka := t.actions sig
      let taken : Taken := ⟨sig, t.blocked, verdict t.pid sig ka⟩
      let t := { t with pending := t.pending &&& ~~~sigBit sig }
      match taken.verdict with
      | .exit code => ([taken], .error (.exit code))
      | .stop _ | .ignore =>
        let (log, res) := doSignal rest t
        (taken :: log, res)
      | .shutdown => ([taken], .ok t)
      | .handle =>
        let t := if ka.has saResethand then
            { t with actions := Function.update t.actions sig { ka with saHandler := sigDfl } }
          else t
        ([taken], (t.applySyscallRestart (ka.has saRestart)).handleSignal sig ka)

/-- `ksys_rt_sigreturn`; `none` for its error returns. -/
def rtSigreturn (t : Thread) : Except Stop (Option Thread) :=
  if signalFrameOk t.mm t.userSp then
    (t.mm.copyFromUser t.userSp frameSize).map fun bytes =>
      let frame := SignalFrame.ofBytes bytes
      some { t with regs := frame.regs, userSp := frame.userSp, blocked := frame.blocked &&& ~~~sigUnblockable }
  else .ok none

end Thread

end MiniOs.Sched
