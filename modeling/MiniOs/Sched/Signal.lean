/-
Which pending signal `do_signal` takes and what it does with it: kernel/signal.c. Signal numbers are
those of asm/signal.h; a handler is the address in `sa_handler`, with 0 and 1 for `SIG_DFL` and `SIG_IGN`.
-/
import MiniOs.Sched.Runqueue

namespace MiniOs.Sched

/-- The error numbers process control returns; a function that returns `-E...` in the source returns the
error itself here. -/
inductive Errno
  | perm | srch | intr | child | fault | inval | restartsys
  deriving DecidableEq

def sigusr1 : Nat := 10
def sigsegv : Nat := 11
def sigusr2 : Nat := 12
def sigterm : Nat := 15
def sigurg : Nat := 23
def sigwinch : Nat := 28

def sigDfl : BitVec 64 := 0
def sigIgn : BitVec 64 := 1

def saRestart : BitVec 64 := 0x10000000
def saNodefer : BitVec 64 := 0x40000000
def saResethand : BitVec 64 := 0x80000000

/-- `struct sigaction`. -/
structure Sigaction where
  saHandler : BitVec 64
  saFlags : BitVec 64
  saRestorer : BitVec 64
  saMask : BitVec 64
  deriving DecidableEq

/-- `SIG_DFL` as `task_zero` leaves every action. -/
def Sigaction.zero : Sigaction := ⟨sigDfl, 0, 0, 0⟩

def Sigaction.has (ka : Sigaction) (flag : BitVec 64) : Bool := ka.saFlags &&& flag != 0#64

/-- What is pending and not blocked. -/
def readySet (pending blocked : BitVec 64) : BitVec 64 := pending &&& ~~~(blocked &&& ~~~sigUnblockable)

/-- `next_pending_signal`; 0 when no signal is ready. -/
def nextPendingSignal (pending blocked : BitVec 64) : Nat :=
  let ready := readySet pending blocked
  if ready &&& sigBit sigkill ≠ 0#64 then sigkill
  else if ready &&& sigBit sigstop ≠ 0#64 then sigstop
  else ((List.range' 1 63).find? fun sig => ready &&& sigBit sig != 0#64).getD 0

/-- What the loop of `do_signal` does with the signal it has taken. -/
inductive Verdict
  | exit (code : Nat)
  | stop (sig : Nat)
  | ignore
  | shutdown
  | handle
  deriving DecidableEq

/-- One round of that loop after the signal has been taken off the pending set, for an action `ka`. -/
def verdict (pid : Pid) (sig : Nat) (ka : Sigaction) : Verdict :=
  if sig = sigkill then .exit sigkill
  else if sig = sigstop then .stop sigstop
  else if ka.saHandler = sigIgn then .ignore
  else if ka.saHandler = sigDfl then
    if sigKernelStop sig then .stop sig
    else if pid = 1 ∧ (sig = sigusr1 ∨ sig = sigusr2 ∨ sig = sigterm) then .shutdown
    else if sig = sigchld ∨ sig = sigcont ∨ sig = sigurg ∨ sig = sigwinch then .ignore
    else .exit (sig &&& 0x7f)
  else .handle

end MiniOs.Sched
