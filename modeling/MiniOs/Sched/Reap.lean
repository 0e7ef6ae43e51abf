/-
`do_exit` on one CPU and the parent's `wait4` on another: kernel/exit.c over kernel/sched/core.c, in steps
of one store, one locked section or one part of the context switch. Everything else a CPU does to the
queues is one step, as in `Smp`, except that a wake-up may be late: `signal_queue`, `wake_up` and the like test
the state of the task, then read its CPU and then lock that CPU's queue, and the task may have woken up otherwise
and exited in between.
-/
import MiniOs.Sched.Switch

namespace MiniOs.Sched

/-- How far `do_exit` is on a CPU. An interrupt of the kernel does not call `schedule`, so no other task runs in
between. -/
inductive ExitStage
  /-- `TASK_ZOMBIE` is stored. The queues take the state over with the `dequeue_task` that comes next; before
  that only `find_child` can tell. -/
  | marked
  /-- Before `notify_parent`. -/
  | dequeued
  /-- In `schedule`, up to the switch. -/
  | told
  deriving DecidableEq

/-- How far `wait_reap_zombie` is on a CPU. -/
inductive FreeStage
  /-- Back from `find_child`. -/
  | found
  /-- Before `task_detach`. -/
  | dequeued
  /-- Before the memory is given back. -/
  | detached
  deriving DecidableEq

structure Reaping where
  smp : Smp
  exiting : Cpu → Option (Pid × ExitStage)
  freeing : Cpu → Option (Pid × FreeStage)
  /-- The tasks of the wake-ups that are between the test of the state and `enqueue_task`. -/
  waking : List Pid

namespace Reaping

def init : Reaping := ⟨.init, fun _ => none, fun _ => none, []⟩

/-- The state field of a task is `TASK_ZOMBIE`. -/
def isZombie (s : Reaping) (z : Pid) : Prop :=
  s.smp.queues.hasState z .zombie = true ∨ ∃ c, s.exiting c = some (z, .marked)

instance (s : Reaping) (z : Pid) : Decidable (s.isZombie z) := inferInstanceAs (Decidable (_ ∨ _))

def busy (s : Reaping) (c : Cpu) : Bool := (s.exiting c).isSome || (s.freeing c).isSome

/-- An operation that a task makes for itself, rather than an interrupt on its CPU. -/
def ownCall : Runqueues.Act → Bool
  | .fork _ _ | .schedBlock _ _ | .prepareToWait _ | .finishWait _ | .signalStop _ => true
  | _ => false

/-- The operations of the rest of the kernel: nobody else makes or frees a zombie, and a wake-up with nothing in
between does not pass the test of its state. -/
def lawful (s : Reaping) (a : Runqueues.Act) : Bool :=
  (!ownCall a || a.cpu.all fun me => !s.busy me) &&
    match a with
    | .doExit _ | .freeTask _ => false
    | .schedBlock _ state => state == .sleeping || state == .stopped
    | .wakeUpProcess _ t | .enqueueTask _ t => decide (¬ s.isZombie t)
    | _ => true

/-- The CPU of a step of `schedule`. -/
def schedules : Smp.Act → Option Cpu
  | .op _ | .readCpu _ _ | .enqueue _ _ => none
  | .pick me | .destLoad me | .readLoad me | .pickSteal me | .migrate me | .repick me | .setCurrent me | .save me |
    .load me => some me

/-- A CPU schedules outside of the two calls, and at the end of `do_exit`. -/
def maySchedule (s : Reaping) (me : Cpu) : Bool :=
  (s.freeing me).isNone && (s.exiting me).all fun (_, stage) => decide (stage = .told)

inductive Act
  | smp (a : Smp.Act)
  /-- A wake-up finds the task asleep or stopped. -/
  | test (t : Pid)
  /-- `task->state = TASK_RUNNING`, for `SIGCONT`. -/
  | resume (t : Pid)
  /-- `task->state = TASK_ZOMBIE`. The task is on its queue: a call that sleeps ends with `enqueue_task`. -/
  | mark (me : Cpu)
  /-- `dequeue_task` in `do_exit`. -/
  | leaveQueue (me : Cpu)
  /-- `notify_parent`. -/
  | notify (me : Cpu)
  /-- `find_child(parent, pid, TASK_ZOMBIE)` finds `z`. -/
  | find (me : Cpu) (z : Pid)
  /-- `dequeue_task` in `free_task`. -/
  | freeDequeue (me : Cpu)
  /-- `task_detach`. -/
  | detach (me : Cpu)
  /-- `mm_put`, `free_pages` of the stack and `kfree`. -/
  | free (me : Cpu)

/-- A step of the scheduler; the save of a context ends the `do_exit` on its CPU. Only a wake-up that has tested the
state comes to read the CPU late. -/
def stepSmp (s : Reaping) (a : Smp.Act) : Option Reaping :=
  let allowed :=
    match a with
    | .op b => s.lawful b
    | .readCpu _ t => decide (t ∈ s.waking)
    | _ => (schedules a).all s.maySchedule
  if allowed then
    (s.smp.step a).map fun smp =>
      { s with
        smp := smp
        exiting := match a with
          | .save me => Function.update s.exiting me none
          | _ => s.exiting
        waking := match a with
          | .readCpu _ t => s.waking.erase t
          | _ => s.waking }
  else none

def setQueues (s : Reaping) (queues : Runqueues) : Reaping := { s with smp := { s.smp with queues := queues } }

def setExiting (s : Reaping) (me : Cpu) (x : Option (Pid × ExitStage)) : Reaping :=
  { s with exiting := Function.update s.exiting me x }

def setFreeing (s : Reaping) (me : Cpu) (x : Option (Pid × FreeStage)) : Reaping :=
  { s with freeing := Function.update s.freeing me x }

/-- The task a CPU runs, outside of `schedule` and of both calls. -/
def runner (s : Reaping) (me : Cpu) : Option Pid :=
  match s.smp.pc me with
  | .run => if s.busy me then none else s.smp.queues.curr me
  | _ => none

def step (s : Reaping) : Act → Option Reaping
  | .smp a => s.stepSmp a
  | .test t =>
    if s.smp.queues.hasState t .sleeping || s.smp.queues.hasState t .stopped then
      some { s with waking := t :: s.waking }
    else none
  | .resume t => if t ∈ s.waking then some (s.setQueues (s.smp.queues.setState t .running)) else none
  | .mark me =>
    (s.runner me).bind fun z => if s.smp.queues.linked z then some (s.setExiting me (some (z, .marked))) else none
  | .leaveQueue me =>
    match s.exiting me with
    | some (z, .marked) => some ((s.setQueues (s.smp.queues.schedBlock z .zombie)).setExiting me (some (z, .dequeued)))
    | _ => none
  | .notify me =>
    match s.exiting me with
    | some (z, .dequeued) => some ((s.setQueues (s.smp.queues.notifyParent me z)).setExiting me (some (z, .told)))
    | _ => none
  | .find me z =>
    (s.runner me).bind fun p =>
      if s.isZombie z ∧ (s.smp.queues.tasks z).bind Task.parent = some p then
        some (s.setFreeing me (some (z, .found)))
      else none
  | .freeDequeue me =>
    match s.freeing me with
    | some (z, .found) => some ((s.setQueues (s.smp.queues.dequeueTask z)).setFreeing me (some (z, .dequeued)))
    | _ => none
  | .detach me =>
    match s.freeing me with
    | some (z, .dequeued) => some (s.setFreeing me (some (z, .detached)))
    | _ => none
  | .free me =>
    match s.freeing me with
    | some (z, .detached) => some ((s.setQueues (s.smp.queues.freeTask z)).setFreeing me none)
    | _ => none

/-- The context of the task is saved, and no wake-up of it is under way. -/
def left (s : Reaping) (z : Pid) : Bool :=
  s.smp.saved z && decide (z ∉ s.waking) && s.smp.late.all fun x => x.1 != z

/-- No task is put on the queue of another CPU than the one that executes it or is on its way to it, and
`find_child` finds only zombies that have left their CPU. -/
def settled (s : Reaping) : Act → Bool
  | .smp a => s.smp.settled a
  | .find _ z => s.left z
  | _ => true

def stepSettled (s : Reaping) (a : Act) : Option Reaping := if s.settled a then s.step a else none

/-- Some CPU has the task as its current one or still runs on its kernel stack. -/
def InUse (s : Reaping) (z : Pid) : Prop := ∃ c, s.smp.queues.curr c = some z ∨ s.smp.executing c = some z

/-- The task whose memory a step gives back. -/
def frees (s : Reaping) : Act → Option Pid
  | .free me =>
    match s.freeing me with
    | some (z, .detached) => some z
    | _ => none
  | _ => none

end Reaping

end MiniOs.Sched
