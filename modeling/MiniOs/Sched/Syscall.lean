/-
The system calls that change signal masks and actions (kernel/signal.c, `ksys_ppoll` of fs/poll.c) and the way
back to user mode in `syscall_handler` of kernel/sys.c. All other system calls do what they like with user
memory, the pending set and their result; none of them touches the mask. `copy_to_user` does not check its
pointer; a copy above the user's addresses is followed into the signal words of the caller's own
`struct task_struct`, if it is said where they are, and nowhere else.
-/
import MiniOs.Sched.SignalFrame

namespace MiniOs.Sched

open Library.Bytes

def nrPpoll : BitVec 64 := 73
def nrRtSigsuspend : BitVec 64 := 133
def nrRtSigaction : BitVec 64 := 134
def nrRtSigprocmask : BitVec 64 := 135
def nrRtSigpending : BitVec 64 := 136
def nrRtSigreturn : BitVec 64 := 139
def nrClone : BitVec 64 := 220
def nrExecve : BitVec 64 := 221

def einval : BitVec 64 := -22
def efault : BitVec 64 := -14

/-- `sizeof(sigset_t)`. -/
def sigsetSize : BitVec 64 := 8

/-- `NR_OPEN`. -/
def nrOpen : Nat := 32

/-- One look of `ksys_ppoll` at its files, the clock and the pending set, with the signals that arrive before it. -/
structure Look where
  sigs : List Nat
  nready : Fin (nrOpen + 1)
  jiffies : BitVec 64

/-- What the rest of the machine adds to one system call. -/
structure World where
  /-- The signals before each test of the loop in `ksys_rt_sigsuspend`. -/
  wakes : List (List Nat)
  /-- The rounds of the loop in `ksys_ppoll`: before the first test, after `sched_block` and after `schedule`. -/
  rounds : List (Look × Look × Look)
  /-- The clock at the start of `ksys_ppoll`, and the `struct pollfd` array it writes back. -/
  jiffies : BitVec 64
  pollfds : Nat → Byte
  /-- The outcome of a call that is not modelled, when it comes back. -/
  stop : Option Stop
  ret : BitVec 64
  pending : BitVec 64
  mm : UserMm
  /-- The signals before each round of `do_signal`. -/
  arrivals : List (List Nat)

def Sigaction.bytes (ka : Sigaction) : List Byte := encode [ka.saHandler, ka.saFlags, ka.saRestorer, ka.saMask]

def Sigaction.ofBytes (bs : List Byte) : Sigaction :=
  let ws := decode 4 bs
  ⟨ws.getD 0 0, ws.getD 1 0, ws.getD 2 0, ws.getD 3 0⟩

def sigsetOfBytes (bs : List Byte) : BitVec 64 := (decode 1 bs).getD 0 0

namespace Thread

/-! ## Copies to the caller -/

/-- The words of `struct task_struct` from `pending` to `orig_x0`; `restore_sigmask` and `in_syscall` share one. -/
def signalWords (t : Thread) : List (BitVec 64) :=
  [t.pending, t.blocked, t.savedBlocked,
    (if t.restoreSigmask then 1 else 0) ||| (if t.inSyscall then 0x100000000 else 0), t.origX0]

def setSignalWords (t : Thread) (ws : List (BitVec 64)) : Thread :=
  { t with
    pending := ws.getD 0 0
    blocked := ws.getD 1 0
    savedBlocked := ws.getD 2 0
    restoreSigmask := decide ((ws.getD 3 0).setWidth 32 ≠ 0#32)
    inSyscall := decide (ws.getD 3 0 >>> 32 ≠ 0)
    origX0 := ws.getD 4 0 }

/-- A copy into these words, which are at `va`. -/
def overwrite (t : Thread) (va dst : BitVec 64) (bytes : List Byte) : Except Stop Thread :=
  if va.toNat ≤ dst.toNat ∧ dst.toNat + bytes.length ≤ va.toNat + 40 then
    let mem a := (encode t.signalWords).getD (a - va.toNat) 0
    .ok (t.setSignalWords (decode 5 (load (store mem dst.toNat bytes) va.toNat 40)))
  else .error .wild

/-- A copy to an optional user pointer. -/
def copyOut (va : Option (BitVec 64)) (t : Thread) (dst : BitVec 64) (bytes : List Byte) : Except Stop Thread :=
  if dst = 0 then .ok t
  else if dst.toNat + bytes.length ≤ Mm.MmSys.userVaLimit then
    (t.mm.copyToUser dst bytes).map fun mm => { t with mm := mm }
  else
    match va with
    | none => .error .wild
    | some va => t.overwrite va dst bytes

/-! ## Actions and masks -/

def rtSigaction (va : Option (BitVec 64)) (t : Thread) : Except Stop (BitVec 64 × Thread) :=
  let sig := ((t.regs.x 0).setWidth 32).toInt
  if t.regs.x 3 ≠ sigsetSize then .ok (einval, t)
  else if sig ≤ 0 ∨ (nsig : Int) ≤ sig then .ok (einval, t)
  else if sig = sigkill ∨ sig = sigstop then .ok (einval, t)
  else
    (t.copyOut va (t.regs.x 2) (t.actions sig.toNat).bytes).bind fun t =>
      if t.regs.x 1 = 0 then .ok (0, t)
      else
        (t.mm.copyFromUser (t.regs.x 1) 32).map fun bytes =>
          let new := Sigaction.ofBytes bytes
          (0, { t with
            actions := Function.update t.actions sig.toNat { new with saMask := new.saMask &&& ~~~sigUnblockable } })

/-- The mask for `SIG_BLOCK`, `SIG_UNBLOCK` and `SIG_SETMASK`. -/
def newMask (how : BitVec 32) (old newset : BitVec 64) : Option (BitVec 64) :=
  if how = 0 then some (old ||| newset)
  else if how = 1 then some (old &&& ~~~newset)
  else if how = 2 then some newset
  else none

def rtSigprocmask (va : Option (BitVec 64)) (t : Thread) : Except Stop (BitVec 64 × Thread) :=
  if t.regs.x 3 ≠ sigsetSize then .ok (einval, t)
  else
    let finish (u : Thread) := (u.copyOut va (t.regs.x 2) (encode [t.blocked])).map fun u => ((0 : BitVec 64), u)
    if t.regs.x 1 = 0 then finish t
    else
      (t.mm.copyFromUser (t.regs.x 1) 8).bind fun bytes =>
        match newMask ((t.regs.x 0).setWidth 32) t.blocked (sigsetOfBytes bytes &&& ~~~sigUnblockable) with
        | none => .ok (einval, t)
        | some mask => finish { t with blocked := mask }

def rtSigpending (va : Option (BitVec 64)) (t : Thread) : Except Stop (BitVec 64 × Thread) :=
  if t.regs.x 1 ≠ sigsetSize then .ok (einval, t)
  else if t.regs.x 0 = 0 then .ok (efault, t)
  else (t.copyOut va (t.regs.x 0) (encode [t.pending &&& t.blocked])).map fun t => (0, t)

/-- The mask of the call in place of the thread's own, which is kept aside. -/
def replaceMask (t : Thread) (newset : BitVec 64) : Thread :=
  { t with savedBlocked := t.blocked, restoreSigmask := true, blocked := newset &&& ~~~sigUnblockable }

/-- The loop of `ksys_rt_sigsuspend`. -/
def suspendLoop : List (List Nat) → Thread → Except Stop Thread
  | [], _ => .error .waits
  | sigs :: rest, t =>
    let t := t.arrive sigs
    if t.signalPending then .ok t else suspendLoop rest t

def rtSigsuspend (t : Thread) (wakes : List (List Nat)) : Except Stop (BitVec 64 × Thread) :=
  if t.regs.x 1 ≠ sigsetSize then .ok (einval, t)
  else if t.regs.x 0 = 0 then .ok (efault, t)
  else
    (t.mm.copyFromUser (t.regs.x 0) 8).bind fun bytes =>
      (suspendLoop wakes (t.replaceMask (sigsetOfBytes bytes))).map fun t => (eintr, t)

/-! ## `ksys_ppoll` -/

/-- `timespec_to_jiffies`, for `HZ` of 100. -/
def timespecToJiffies (sec nsec : BitVec 64) : BitVec 64 := sec * 100 + (nsec * 100 + (1000000000 - 1)) / 1000000000

def timespecValid (sec nsec : BitVec 64) : Bool := !sec.slt 0 && !nsec.slt 0 && nsec.slt 1000000000

/-- Whether the call only looks once, and its deadline, 0 for none; `none` for a bad timespec. -/
def pollDeadline (t : Thread) (jiffies : BitVec 64) : Except Stop (Option (Bool × BitVec 64)) :=
  if t.regs.x 2 = 0 then .ok (some (false, 0))
  else
    (t.mm.copyFromUser (t.regs.x 2) 16).map fun bytes =>
      let ws := decode 2 bytes
      let sec := ws.getD 0 0
      let nsec := ws.getD 1 0
      if timespecValid sec nsec then
        let delta := timespecToJiffies sec nsec
        let deadline := if sec ≠ 0 ∨ nsec ≠ 0 then jiffies + (if delta = 0 then 1 else delta) else 0
        some (decide (deadline = 0), deadline)
      else none

/-- The loop: the number of ready files, or `none` when a signal interrupts it. -/
def pollLoop (timed : Bool) (deadline : BitVec 64) : List (Look × Look × Look) → Thread →
    Except Stop (Option (Fin (nrOpen + 1)) × Thread)
  | [], _ => .error .waits
  | (first, blocked, woken) :: rest, t =>
    let expired (look : Look) := deadline ≠ 0 ∧ deadline ≤ look.jiffies
    let t := t.arrive first.sigs
    if first.nready ≠ 0 ∨ timed then .ok (some first.nready, t)
    else if expired first then .ok (some 0, t)
    else if t.signalPending then .ok (none, t)
    else
      let t := t.arrive blocked.sigs
      if blocked.nready ≠ 0 then .ok (some blocked.nready, t)
      else if t.signalPending then .ok (none, t)
      else if expired blocked then .ok (some 0, t)
      else
        let t := t.arrive woken.sigs
        if t.signalPending then .ok (none, t)
        else if expired woken then .ok (some 0, t)
        else pollLoop timed deadline rest t

/-- `if (restore_sigmask)` on the way out, and the end of a `ppoll` that has replaced the mask. -/
def restoreMask (t : Thread) : Thread :=
  { t with blocked := t.savedBlocked &&& ~~~sigUnblockable, restoreSigmask := false }

/-- From `poll_table_init` on. -/
def pollWith (va : Option (BitVec 64)) (t : Thread) (w : World) (nfds : Nat) (timed : Bool) (deadline : BitVec 64)
    (appliedMask : Bool) : Except Stop (BitVec 64 × Thread) :=
  (pollLoop timed deadline w.rounds t).bind fun (nready, t) =>
    match nready with
    | none => .ok (eintr, t)
    | some nready =>
      (if nfds = 0 then .ok t else t.copyOut va (t.regs.x 0) (load w.pollfds 0 (8 * nfds))).map fun t =>
        (BitVec.ofNat 64 nready.val, if appliedMask then t.restoreMask else t)

def ppoll (va : Option (BitVec 64)) (t : Thread) (w : World) : Except Stop (BitVec 64 × Thread) :=
  let nfds := ((t.regs.x 1).setWidth 32).toNat
  if nrOpen < nfds then .ok (einval, t)
  else if nfds ≠ 0 ∧ t.regs.x 0 = 0 then .ok (efault, t)
  else
    (t.mm.copyFromUser (t.regs.x 0) (8 * nfds)).bind fun _ =>
      (t.pollDeadline w.jiffies).bind fun deadline =>
        match deadline with
        | none => .ok (einval, t)
        | some (timed, deadline) =>
          if t.regs.x 3 = 0 then t.pollWith va w nfds timed deadline false
          else if t.regs.x 4 ≠ sigsetSize then .ok (einval, t)
          else
            (t.mm.copyFromUser (t.regs.x 3) 8).bind fun bytes =>
              (t.replaceMask (sigsetOfBytes bytes)).pollWith va w nfds timed deadline true

/-! ## The way back to user mode -/

def handleSyscallAt (va : Option (BitVec 64)) (t : Thread) (w : World) : Except Stop (BitVec 64 × Thread) :=
  let nr := t.regs.x 8
  if nr = nrPpoll then t.ppoll va w
  else if nr = nrRtSigaction then t.rtSigaction va
  else if nr = nrRtSigprocmask then t.rtSigprocmask va
  else if nr = nrRtSigpending then t.rtSigpending va
  else if nr = nrRtSigsuspend then t.rtSigsuspend w.wakes
  else
    match w.stop with
    | some stop => .error stop
    | none => .ok (w.ret, { t with pending := w.pending, mm := w.mm })

/-- `handle_syscall`, with no copy followed into the kernel. -/
def handleSyscall (t : Thread) (w : World) : Except Stop (BitVec 64 × Thread) := t.handleSyscallAt none w

def restoreSaved (t : Thread) : Thread := if t.restoreSigmask then t.restoreMask else t

/-- `current->in_syscall` and `current->orig_x0` at the start. -/
def enter (t : Thread) : Thread := { t with inSyscall := true, origX0 := t.regs.x 0 }

def syscallHandlerAt (va : Option (BitVec 64)) (t : Thread) (w : World) : List Taken × Except Stop Thread :=
  if t.regs.x 8 = nrRtSigreturn then
    match t.rtSigreturn with
    | .error stop => ([], .error stop)
    | .ok none => ([], .error (.exit sigsegv))
    | .ok (some t) =>
      let (log, res) := doSignal w.arrivals t
      (log, res.map restoreSaved)
  else
    match t.enter.handleSyscallAt va w with
    | .error stop => ([], .error stop)
    | .ok (ret, t) =>
      let (log, res) := doSignal w.arrivals { t with regs := t.regs.setX 0 ret }
      (log, res.map fun t => restoreSaved { t.syscallExitRestart with inSyscall := false })

/-- `syscall_handler`, with no copy followed into the kernel. -/
def syscallHandler (t : Thread) (w : World) : List Taken × Except Stop Thread := t.syscallHandlerAt none w

/-- No `copy_to_user` of the call is given a destination above the user's addresses. -/
def tame (t : Thread) (w : World) : Bool :=
  let fits (dst : BitVec 64) (len : Nat) := decide (dst = 0 ∨ dst.toNat + len ≤ Mm.MmSys.userVaLimit)
  let nr := t.regs.x 8
  let nfds := ((t.regs.x 1).setWidth 32).toNat
  if nr = nrPpoll then decide (nfds = 0) || fits (t.regs.x 0) (8 * nfds)
  else if nr = nrRtSigaction then fits (t.regs.x 2) 32
  else if nr = nrRtSigprocmask then fits (t.regs.x 2) 8
  else if nr = nrRtSigpending then fits (t.regs.x 0) 8
  else decide (w.stop ≠ some .wild)

end Thread

/-! ## Runs -/

/-- The threads of the machine, each of them in user mode. -/
structure Threads where
  thread : Pid → Option Thread
  nextPid : Pid

namespace Threads

def init : Threads := ⟨fun _ => none, 1⟩

inductive Act
  /-- The first program, with everything else as `task_zero` leaves it. -/
  | boot (entry sp : BitVec 64) (mm : UserMm)
  /-- User code runs, and the kernel handles its page faults and interrupts. -/
  | user (pid : Pid) (regs : PtRegs) (sp : BitVec 64) (mm : UserMm)
  /-- A signal for a thread in user mode: `kill`, or one the kernel sends. -/
  | signal (pid : Pid) (sig : Nat)
  | syscall (pid : Pid) (w : World)
  /-- A `ksys_fork` that succeeds, with the child's copy of the address space. -/
  | fork (pid : Pid) (w : World) (mm : UserMm)
  /-- A `do_execve` that succeeds: it leaves by `ret_from_fork`, not through `syscall_handler`. -/
  | execve (pid : Pid) (entry sp : BitVec 64) (mm : UserMm)

def put (s : Threads) (pid : Pid) (t : Option Thread) : Threads := { s with thread := Function.update s.thread pid t }

/-- The thread `task_zero` makes. -/
def zero (pid : Pid) (regs : PtRegs) (sp : BitVec 64) (mm : UserMm) : Thread :=
  ⟨pid, 0, 0, 0, false, false, 0, fun _ => .zero, regs, sp, mm⟩

/-- The registers of a new program. -/
def execRegs (entry : BitVec 64) : PtRegs := ⟨fun _ => 0, entry, 0⟩

/-- The child of `ksys_fork`. -/
def child (t : Thread) (pid : Pid) (mm : UserMm) : Thread :=
  { zero pid (t.regs.setX 0 0) t.userSp mm with blocked := t.blocked, actions := t.actions }

/-- The actions after the loop over them in fs/binfmt.c. -/
def flushHandlers (actions : Nat → Sigaction) : Nat → Sigaction := fun sig =>
  { Sigaction.zero with saHandler := if (actions sig).saHandler = sigIgn then sigIgn else sigDfl }

/-- The state after a system call: a thread that does not come back is gone. -/
def back (s : Threads) (pid : Pid) : Except Stop Thread → Threads
  | .ok t => s.put pid (some t)
  | .error _ => s.put pid none

/-- A step, when the signal words of the tasks are at `va`. -/
def step (va : Pid → BitVec 64) (s : Threads) : Act → Option Threads
  | .boot entry sp mm =>
    some { s.put s.nextPid (some (zero s.nextPid (execRegs entry) sp mm)) with nextPid := s.nextPid + 1 }
  | .user pid regs sp mm =>
    (s.thread pid).map fun t => s.put pid (some { t with regs := regs, userSp := sp, mm := mm })
  | .signal pid sig => (s.thread pid).map fun t => s.put pid (some (t.arrive [sig]))
  | .syscall pid w => (s.thread pid).map fun t => s.back pid (t.syscallHandlerAt (va pid) w).2
  | .fork pid w mm =>
    (s.thread pid).bind fun t =>
      if t.regs.x 8 = nrClone then
        let parent := t.syscallHandlerAt (va pid) { w with ret := BitVec.ofNat 64 s.nextPid }
        some ({ s.put s.nextPid (some (child t s.nextPid mm)) with nextPid := s.nextPid + 1 }.back pid parent.2)
      else none
  | .execve pid entry sp mm =>
    (s.thread pid).bind fun t =>
      if t.regs.x 8 = nrExecve then
        some (s.put pid (some
          { t.enter with regs := execRegs entry, userSp := sp, mm := mm, actions := flushHandlers t.actions }))
      else none

/-- No call of the step copies to an address above the user's. -/
def tame (s : Threads) : Act → Bool
  | .syscall pid w | .fork pid w _ => (s.thread pid).all fun t => t.tame w
  | _ => true

def stepTame (va : Pid → BitVec 64) (s : Threads) (a : Act) : Option Threads := if s.tame a then s.step va a else none

end Threads

end MiniOs.Sched
