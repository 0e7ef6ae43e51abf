/-
Sleeping on a pipe: the tasks that read, write and close one pipe on several CPUs, in steps of one
interrupt-disabled section of fs/pipe.c, one wait-queue-locked body of kernel/sched/wait.c, or one
return of `schedule`. A call tests the pipe in one step and puts its task on the wait queue in a later
one.
-/
import MiniOs.Fs.Pipe
import Mathlib.Data.Fintype.Basic

namespace MiniOs.Fs

open Function

/-- The two wait queues of a pipe. -/
inductive WaitQueue
  | readWait
  | writeWait
  deriving DecidableEq

/-- A blocking call on the pipe. -/
inductive PipeCall
  | read (count : Nat) (nonblock : Bool)
  | write (bytes : List UInt8) (nonblock : Bool)

/-- The queue a call sleeps on. -/
def PipeCall.queue : PipeCall → WaitQueue
  | read _ _ => .readWait
  | write _ _ => .writeWait

/-- Where a task is. -/
inductive Pc
  /-- Outside of the pipe code. -/
  | user
  /-- At `retry:`, before the interrupt-disabled section. -/
  | section (c : PipeCall)
  /-- Has decided to wait, before `prepare_to_wait`. -/
  | prepare (c : PipeCall)
  /-- In `schedule`, its entry on the wait queue. -/
  | schedule (c : PipeCall)
  /-- Before `finish_wait`. -/
  | finish (c : PipeCall)
  /-- Before the `wake_up` of each of these queues. -/
  | wakeUps (queues : List WaitQueue)

/-- The wake-ups a task has still to do. -/
def Pc.wakes : Pc → List WaitQueue
  | wakeUps queues => queues
  | _ => []

/-- `n` tasks around one pipe; `asleep` is `TASK_SLEEPING`. -/
structure PipeTasks (n : Nat) where
  pipe : Pipe
  queue : WaitQueue → List (Fin n)
  pc : Fin n → Pc
  asleep : Fin n → Bool

/-- Whether a caller that sleeps on a queue has to wait: a reader on an empty pipe with writers, a
writer on a full one with readers. -/
def Pipe.mustWait (p : Pipe) : WaitQueue → Bool
  | .readWait => p.len = 0 && p.writers ≠ 0
  | .writeWait => p.len = pipeSize && p.readers ≠ 0

namespace PipeTasks

variable {n : Nat}

/-- All tasks outside, the pipe as `ksys_pipe2` makes it. -/
def init (n : Nat) (buf : Nat → UInt8) : PipeTasks n := ⟨Pipe.create buf, fun _ => [], fun _ => .user, fun _ => false⟩

def goto (s : PipeTasks n) (t : Fin n) (pc : Pc) : PipeTasks n := { s with pc := update s.pc t pc }

/-- The section of a call: where the task goes on, and the pipe after it. -/
def runSection (p : Pipe) (c : PipeCall) (signal : Bool) : Pc × Pipe :=
  match c with
  | .read count nonblock =>
    if p.len = 0 then
      match p.readSection count nonblock signal with
      | (.wait, p) => (.prepare c, p)
      | (_, p) => (.user, p)
    else (.wakeUps [.writeWait], (p.readSection count nonblock signal).2)
  | .write bytes nonblock =>
    match p.writeSection bytes nonblock signal with
    | (.wait, p) => (.prepare c, p)
    | (.error _, p) => (.user, p)
    | (.took _, p) => (.wakeUps [.readWait], p)

inductive Act (n : Nat)
  /-- A task calls read or write. -/
  | call (t : Fin n) (c : PipeCall)
  /-- The section at `retry:`, with or without a pending signal. -/
  | section (t : Fin n) (signal : Bool)
  /-- The body of `prepare_to_wait`. -/
  | prepare (t : Fin n)
  /-- `schedule` returns to a task that is not asleep. -/
  | resume (t : Fin n)
  /-- `finish_wait`, then back to `retry:` or out with `-ERESTARTSYS`. -/
  | finish (t : Fin n) (signal : Bool)
  /-- The body of the next `wake_up` of a task. -/
  | wake (t : Fin n)
  /-- The section of `pipe_release`. -/
  | release (t : Fin n) (readEnd : Bool)
  /-- A signal wakes a task. -/
  | signal (t : Fin n)

def step (s : PipeTasks n) : Act n → Option (PipeTasks n)
  | .call t c =>
    match s.pc t with
    | .user => some (s.goto t (.section c))
    | _ => none
  | .section t signal =>
    match s.pc t with
    | .section c => some { s.goto t (runSection s.pipe c signal).1 with pipe := (runSection s.pipe c signal).2 }
    | _ => none
  | .prepare t =>
    match s.pc t with
    | .prepare c =>
      some { s.goto t (.schedule c) with
        queue := update s.queue c.queue (if t ∈ s.queue c.queue then s.queue c.queue else t :: s.queue c.queue)
        asleep := update s.asleep t true }
    | _ => none
  | .resume t =>
    match s.pc t with
    | .schedule c => if s.asleep t then none else some (s.goto t (.finish c))
    | _ => none
  | .finish t signal =>
    match s.pc t with
    | .finish c =>
      some { s.goto t (if signal then .user else .section c) with
        queue := update s.queue c.queue ((s.queue c.queue).erase t)
        asleep := update s.asleep t false }
    | _ => none
  | .wake t =>
    match s.pc t with
    | .wakeUps (q :: qs) =>
      some { s.goto t (if qs = [] then .user else .wakeUps qs) with
        asleep := fun u => if u ∈ s.queue q then false else s.asleep u }
    | _ => none
  | .release t readEnd =>
    match s.pc t with
    | .user =>
      let p := s.pipe.release readEnd
      let qs := (if p.readers = 0 then [.writeWait] else []) ++ (if p.writers = 0 then [.readWait] else [])
      some { s.goto t (if qs = [] then .user else .wakeUps qs) with pipe := p }
    | _ => none
  | .signal t => some { s with asleep := update s.asleep t false }

/-- A `wake_up` of the queue has been started and not finished. -/
def waking (s : PipeTasks n) (q : WaitQueue) : Bool :=
  decide (∃ t, q ∈ (s.pc t).wakes)

/-- A task puts itself to sleep although it need not wait any more and nobody is about to wake it. -/
def oversleeps (s : PipeTasks n) : Act n → Bool
  | .prepare t =>
    match s.pc t with
    | .prepare c => !s.pipe.mustWait c.queue && !s.waking c.queue
    | _ => false
  | _ => false

/-- The steps in which nobody oversleeps. -/
def stepTimely (s : PipeTasks n) (a : Act n) : Option (PipeTasks n) := if s.oversleeps a then none else s.step a

end PipeTasks

end MiniOs.Fs
