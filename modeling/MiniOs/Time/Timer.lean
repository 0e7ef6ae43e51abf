/-
`ksys_nanosleep` of kernel/time/timer.c, with what can happen to the sleeper while it is away: ticks
(kernel/time/tick.c), signals (kernel/signal.c), the exit, stop or continuation of a child (kernel/exit.c)
and any other `wake_up_process`. `schedule` gives the CPU back to a task only while it is on a run queue.
-/
import MiniOs.Sched.Syscall
import MiniOs.Time.Timekeeping

namespace MiniOs.Time

open Sched Sched.Thread

/-- The sleeping task and the time; `ticks` counts the ticks since the call. -/
structure Sleeper where
  jiffies : BitVec 64
  ticks : Nat
  asleep : Bool
  wakeJiffies : BitVec 64
  pending : BitVec 64
  blocked : BitVec 64

namespace Sleeper

inductive Event
  | tick
  | signal (sig : Nat)
  | child
  | wakeUp

/-- `signal_pending`. -/
def signalPending (s : Sleeper) : Bool := s.pending &&& ~~~(s.blocked &&& ~~~sigUnblockable) != 0#64

def wakeUpProcess (s : Sleeper) : Sleeper := { s with asleep := false }

/-- `do_timer` and `tick_wake_sleepers`. -/
def tick (s : Sleeper) : Sleeper :=
  let s := { s with jiffies := s.jiffies + 1, ticks := s.ticks + 1 }
  if s.asleep ∧ s.wakeJiffies ≠ 0 ∧ s.wakeJiffies ≤ s.jiffies then s.wakeUpProcess else s

/-- `signal_queue`, for a task that sleeps or runs. -/
def signalQueue (s : Sleeper) (sig : Nat) : Sleeper :=
  if nsig ≤ sig ∨ sig = 0 then s
  else
    let s := { s with pending := addPending s.pending sig }
    if s.asleep ∧ s.signalPending then s.wakeUpProcess else s

/-- `notify_parent` of a child. -/
def notified (s : Sleeper) : Sleeper :=
  let s := s.signalQueue sigchld
  if s.asleep then s.wakeUpProcess else s

def step (s : Sleeper) : Event → Sleeper
  | .tick => s.tick
  | .signal sig => s.signalQueue sig
  | .child => s.notified
  | .wakeUp => s.wakeUpProcess

/-- The deadline of `ksys_nanosleep`. -/
def deadline (t : Timespec) (jiffies : BitVec 64) : BitVec 64 :=
  let delta := timespecToJiffies t.tvSec t.tvNsec
  jiffies + if delta = 0 then 1 else delta

/-- The task as `sched_block` leaves it. -/
def blockedAt (t : Timespec) (jiffies pending blocked : BitVec 64) : Sleeper :=
  ⟨jiffies, 0, true, deadline t jiffies, pending, blocked⟩

/-- `ksys_nanosleep` with a readable request: what it returns and after how many ticks, when these events happen
before its `schedule` would return, which it does only for a task that is awake. -/
def nanosleep (t : Timespec) (jiffies pending blocked : BitVec 64) (events : List Event) : Option (Except Errno Nat) :=
  if ¬ timespecValid t.tvSec t.tvNsec then some (.error .inval)
  else if t.tvSec = 0 ∧ t.tvNsec = 0 then some (.ok 0)
  else
    let s := events.foldl step (blockedAt t jiffies pending blocked)
    if s.asleep then none else some (.ok s.ticks)

end Sleeper

end MiniOs.Time
