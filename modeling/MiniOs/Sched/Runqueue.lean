/-
Run queues: kernel/sched/core.c, and what kernel/sched/wait.c, kernel/fork.c, kernel/signal.c and
kernel/exit.c do to a task's state and place on them. A task is named by its pid, which `next_pid++`
never gives out twice; the idle task of a CPU is `none`. `me` is the CPU that executes an operation.
-/
import Mathlib.Algebra.Ring.Nat
import Mathlib.Data.Fintype.Basic
import Mathlib.Data.List.FinRange
import Mathlib.Logic.Function.Basic

namespace MiniOs.Sched

open Function

/-- `NR_CPUS`. -/
def nrCpus : Nat := 4

instance : NeZero nrCpus := ⟨by decide⟩

abbrev Cpu := Fin nrCpus

abbrev Pid := Nat

inductive TaskState
  | running
  | idle
  | sleeping
  | stopped
  | zombie
  | dead
  deriving DecidableEq

/-! ## Signal sets -/

def nsig : Nat := 64
def sigkill : Nat := 9
def sigchld : Nat := 17
def sigcont : Nat := 18
def sigstop : Nat := 19
def sigtstp : Nat := 20
def sigttin : Nat := 21
def sigttou : Nat := 22

def sigBit (sig : Nat) : BitVec 64 := 1#64 <<< (sig - 1)

def sigUnblockable : BitVec 64 := sigBit sigkill ||| sigBit sigstop

def sigStopMask : BitVec 64 := sigBit sigstop ||| sigBit sigtstp ||| sigBit sigttin ||| sigBit sigttou

def sigKernelStop (sig : Nat) : Bool := sig == sigstop || sig == sigtstp || sig == sigttin || sig == sigttou

/-- The pending set after a signal: stop and continue cancel each other. -/
def addPending (pending : BitVec 64) (sig : Nat) : BitVec 64 :=
  let pending := pending ||| sigBit sig
  if sig = sigcont then pending &&& ~~~sigStopMask
  else if sigKernelStop sig then pending &&& ~~~sigBit sigcont
  else pending

/-! ## Tasks and queues -/

/-- `cpu` is what `task_zero` leaves uninitialised, so any number. -/
structure Task where
  state : TaskState
  cpu : Nat
  parent : Option Pid
  pending : BitVec 64
  blocked : BitVec 64

def Task.signalPending (task : Task) : Bool :=
  task.pending &&& ~~~(task.blocked &&& ~~~sigUnblockable) != 0#64

structure Runqueues where
  tasks : Pid → Option Task
  nextPid : Pid
  rqTasks : Cpu → List Pid
  nrRunning : Cpu → Nat
  curr : Cpu → Option Pid

namespace Runqueues

/-- Before the first `kernel_thread`: every CPU runs its idle task. -/
def init : Runqueues := ⟨fun _ => none, 1, fun _ => [], fun _ => 0, fun _ => none⟩

def modify (s : Runqueues) (t : Pid) (f : Task → Task) : Runqueues :=
  { s with tasks := update s.tasks t ((s.tasks t).map f) }

def setState (s : Runqueues) (t : Pid) (state : TaskState) : Runqueues := s.modify t fun task =>
    { task with state := state }

def hasState (s : Runqueues) (t : Pid) (state : TaskState) : Bool := (s.tasks t).any fun task => task.state == state

/-- `list_is_linked(&task->run_list)`. -/
def linked (s : Runqueues) (t : Pid) : Bool := decide (∃ c, t ∈ s.rqTasks c)

/-- `list_del_init(&task->run_list)`: the node leaves the list it is on, whichever that is. -/
def listDelInit (s : Runqueues) (t : Pid) : Runqueues := { s with rqTasks := fun c => (s.rqTasks c).erase t }

def enqueueTaskLocked (s : Runqueues) (t : Pid) (c : Cpu) : Runqueues :=
  if s.linked t then s
  else
    { s.modify t (fun task => { task with state := .running, cpu := c }) with
      rqTasks := update s.rqTasks c (s.rqTasks c ++ [t])
      nrRunning := update s.nrRunning c (s.nrRunning c + 1) }

def enqueueTaskCpu (s : Runqueues) (t : Pid) (cpu : Nat) : Runqueues :=
  if h : cpu < nrCpus then s.enqueueTaskLocked t ⟨cpu, h⟩ else s

def enqueueTask (s : Runqueues) (me : Cpu) (t : Pid) : Runqueues :=
  match s.tasks t with
  | none => s
  | some task =>
    if nrCpus ≤ task.cpu then (s.modify t fun task => { task with cpu := me }).enqueueTaskCpu t me
    else s.enqueueTaskCpu t task.cpu

def dequeueTaskLocked (s : Runqueues) (t : Pid) (c : Cpu) : Runqueues :=
  if s.linked t then { s.listDelInit t with nrRunning := update s.nrRunning c (s.nrRunning c - 1) } else s

def dequeueTask (s : Runqueues) (t : Pid) : Runqueues :=
  match s.tasks t with
  | none => s
  | some task => if h : task.cpu < nrCpus then s.dequeueTaskLocked t ⟨task.cpu, h⟩ else s

/-! ## Balancing -/

/-- The locked part of `migrate_task` once the task may move. -/
def moveTask (s : Runqueues) (t : Pid) (old new : Cpu) : Runqueues :=
  let nrRunning := update s.nrRunning old (s.nrRunning old - 1)
  let rqTasks := fun c => (s.rqTasks c).erase t
  { s.modify t (fun task => { task with cpu := new }) with
    rqTasks := update rqTasks new (rqTasks new ++ [t])
    nrRunning := update nrRunning new (nrRunning new + 1) }

/-- `migrate_task`; `none` is `-EINVAL`, with nothing changed. -/
def migrateTask (s : Runqueues) (t : Pid) (newCpu : Nat) : Option Runqueues :=
  match s.tasks t with
  | none => none
  | some task =>
    if hnew : newCpu < nrCpus then
      if hold : task.cpu < nrCpus then
        if task.cpu = newCpu then some s
        else if task.state ≠ .running ∨ s.linked t = false ∨ s.curr ⟨task.cpu, hold⟩ = some t then none
        else some (s.moveTask t ⟨task.cpu, hold⟩ ⟨newCpu, hnew⟩)
      else none
    else none

/-- One round of the loop of `find_busiest_cpu`: the busiest CPU so far and its load. -/
def busier (s : Runqueues) (me : Cpu) (best : Cpu × Nat) (c : Cpu) : Cpu × Nat :=
  if c = me then best
  else if best.2 < s.nrRunning c then (c, s.nrRunning c)
  else best

/-- `find_busiest_cpu`; `none` is -1. -/
def findBusiestCpu (s : Runqueues) (me : Cpu) : Option Cpu :=
  let best := (List.finRange nrCpus).foldl (s.busier me) (me, s.nrRunning me + 1)
  if best.1 = me then none else some best.1

/-- `pick_migratable_task`: the last task on the queue that is neither `exclude` nor of pid 0. -/
def pickMigratableTask (s : Runqueues) (c : Cpu) (exclude : Option Pid) : Option Pid :=
  if s.nrRunning c ≤ 1 then none
  else (s.rqTasks c).reverse.find? fun t => some t != exclude && t != 0

/-- `try_pull_task`: whether a task came over, and the state after it. -/
def tryPullTask (s : Runqueues) (me : Cpu) : Bool × Runqueues :=
  match s.findBusiestCpu me with
  | none => (false, s)
  | some busiest =>
    match s.pickMigratableTask busiest (s.curr busiest) with
    | none => (false, s)
    | some t =>
      match s.migrateTask t me with
      | none => (false, s)
      | some s' => (true, s')

/-! ## Choosing the next task -/

/-- The task behind `p` on its list; `none` when the list head is next. -/
def nextOf (l : List Pid) (p : Pid) : Option Pid := (l.dropWhile (· != p)).tail.head?

/-- `pick_next_task`: `some none` is the idle task. `none` stands for the `list_entry` of another
queue's head, when `prev` is the last task on a queue that is not this CPU's. -/
def pickNextTask (s : Runqueues) (me : Cpu) (prev : Option Pid) : Option (Option Pid) :=
  match s.rqTasks me with
  | [] => some none
  | first :: rest =>
    match prev.bind fun p => ((List.finRange nrCpus).find? fun c => decide (p ∈ s.rqTasks c)).map (p, ·) with
    | none => some (some first)
    | some (p, c) =>
      if c = me then some (some ((nextOf (first :: rest) p).getD first))
      else (nextOf (s.rqTasks c) p).map some

/-- `schedule` without interference: what it chooses is current after it. -/
def schedule (s : Runqueues) (me : Cpu) : Option Runqueues :=
  match s.pickNextTask me (s.curr me) with
  | none => none
  | some (some next) => some { s with curr := update s.curr me (some next) }
  | some none =>
    match s.tryPullTask me with
    | (false, s) => some { s with curr := update s.curr me none }
    | (true, s) => (s.pickNextTask me (s.curr me)).map fun next => { s with curr := update s.curr me next }

/-! ## Creation, sleep and wake-up -/

/-- The task `task_zero` makes, with the next pid. -/
def newTask (s : Runqueues) (task : Task) : Runqueues :=
  { s with tasks := update s.tasks s.nextPid (some task), nextPid := s.nextPid + 1 }

/-- `kernel_thread`. -/
def kernelThread (s : Runqueues) (cpu : Nat) : Runqueues := s.newTask ⟨.sleeping, cpu, none, 0, 0⟩

/-- The last part of `ksys_fork`, after everything that can fail. -/
def fork (s : Runqueues) (me : Cpu) (parent : Pid) (blocked : BitVec 64) (cpu : Nat) : Runqueues :=
  (s.newTask ⟨.running, cpu, some parent, 0, blocked⟩).enqueueTask me s.nextPid

def wakeUpProcess (s : Runqueues) (me : Cpu) (t : Pid) : Runqueues :=
  if s.hasState t .running && s.linked t then s else s.enqueueTask me t

/-- `sched_block`, and what `prepare_to_wait` does besides queueing its entry. -/
def schedBlock (s : Runqueues) (t : Pid) (state : TaskState) : Runqueues := (s.setState t state).dequeueTask t

/-- What `finish_wait` does besides removing its entry, and `do_signal_stop` after `schedule`. -/
def finishWait (s : Runqueues) (me : Cpu) (t : Pid) : Runqueues :=
  if s.linked t then s.setState t .running else s.enqueueTask me t

/-- `wake_up` of a queue on which these tasks wait. -/
def wakeUp (s : Runqueues) (me : Cpu) (waiters : List Pid) : Runqueues :=
  waiters.foldl (fun s t => if s.hasState t .sleeping then s.wakeUpProcess me t else s) s

/-! ## Signals and exit -/

/-- `signal_queue`, where `notify` is its call of `notify_parent_continue`. -/
def signalQueueWith (notify : Runqueues → Runqueues) (s : Runqueues) (me : Cpu) (t : Pid) (sig : Nat) : Runqueues :=
  if nsig ≤ sig ∨ sig = 0 then s
  else
    let s := s.modify t fun task => { task with pending := addPending task.pending sig }
    if s.hasState t .stopped && sig == sigcont then (notify (s.setState t .running)).wakeUpProcess me t
    else if s.hasState t .sleeping && (s.tasks t).any Task.signalPending then s.wakeUpProcess me t
    else if s.hasState t .stopped && sig == sigkill then s.wakeUpProcess me t
    else s

/-- `notify_parent`. Both values `exit_signal` can have, 0 and `SIGCHLD`, send `SIGCHLD`, for which
`signal_queue` notifies nobody. -/
def notifyParent (s : Runqueues) (me : Cpu) (child : Pid) : Runqueues :=
  match (s.tasks child).bind Task.parent with
  | none => s
  | some parent =>
    let s := signalQueueWith id s me parent sigchld
    if s.hasState parent .sleeping then s.wakeUpProcess me parent else s

def signalQueue (s : Runqueues) (me : Cpu) (t : Pid) (sig : Nat) : Runqueues :=
  signalQueueWith (fun s => s.notifyParent me t) s me t sig

/-- `do_signal_stop` up to its `schedule`. -/
def signalStop (s : Runqueues) (me : Cpu) (t : Pid) : Runqueues := (s.notifyParent me t).schedBlock t .stopped

/-- `do_exit` up to its `schedule`. -/
def doExit (s : Runqueues) (me : Cpu) (t : Pid) : Runqueues := (s.schedBlock t .zombie).notifyParent me t

def freeTask (s : Runqueues) (t : Pid) : Runqueues :=
  let s := s.dequeueTask t
  { s with tasks := update s.tasks t none }

/-! ## Runs -/

/-- A scheduler operation. Those without a task argument act on the current task of CPU `me`. -/
inductive Act
  | kernelThread (cpu : Nat)
  | fork (me : Cpu) (cpu : Nat)
  | wakeUpProcess (me : Cpu) (t : Pid)
  | enqueueTask (me : Cpu) (t : Pid)
  | enqueueTaskCpu (t : Pid) (cpu : Nat)
  | dequeueTask (t : Pid)
  | schedBlock (me : Cpu) (state : TaskState)
  | prepareToWait (me : Cpu)
  | finishWait (me : Cpu)
  | wakeUp (me : Cpu) (waiters : List Pid)
  | signal (me : Cpu) (t : Pid) (sig : Nat)
  | signalStop (me : Cpu)
  | doExit (me : Cpu)
  | freeTask (t : Pid)
  | migrateTask (t : Pid) (cpu : Nat)
  | tryPullTask (me : Cpu)
  | schedule (me : Cpu)

/-- Those that touch a task's place only on the queue of the CPU it names. -/
def Act.isLocal : Act → Bool
  | enqueueTaskCpu _ _ | migrateTask _ _ | tryPullTask _ | schedule _ => false
  | _ => true

/-- The CPU that executes an operation, where the operation depends on it. -/
def Act.cpu : Act → Option Cpu
  | fork me _ | wakeUpProcess me _ | enqueueTask me _ | schedBlock me _ | prepareToWait me | finishWait me
  | wakeUp me _ | signal me _ _ | signalStop me | doExit me | tryPullTask me | schedule me => some me
  | kernelThread _ | enqueueTaskCpu _ _ | dequeueTask _ | freeTask _ | migrateTask _ _ => none

/-- An operation on the current task of a CPU that is not idle. -/
def onCurrent (s : Runqueues) (me : Cpu) (f : Pid → Runqueues) : Option Runqueues := (s.curr me).map f

/-- An operation on a task that has not been freed. -/
def onTask (s : Runqueues) (t : Pid) (f : Runqueues) : Option Runqueues := if (s.tasks t).isSome then some f else none

def step (s : Runqueues) : Act → Option Runqueues
  | .kernelThread cpu => some (s.kernelThread cpu)
  | .fork me cpu => s.onCurrent me fun p => s.fork me p (((s.tasks p).map Task.blocked).getD 0) cpu
  | .wakeUpProcess me t => s.onTask t (s.wakeUpProcess me t)
  | .enqueueTask me t => s.onTask t (s.enqueueTask me t)
  | .enqueueTaskCpu t cpu => s.onTask t (s.enqueueTaskCpu t cpu)
  | .dequeueTask t => s.onTask t (s.dequeueTask t)
  | .schedBlock me state => s.onCurrent me fun p => s.schedBlock p state
  | .prepareToWait me => s.onCurrent me fun p => s.schedBlock p .sleeping
  | .finishWait me => s.onCurrent me fun p => s.finishWait me p
  | .wakeUp me waiters => some (s.wakeUp me waiters)
  | .signal me t sig => s.onTask t (s.signalQueue me t sig)
  | .signalStop me => s.onCurrent me fun p => s.signalStop me p
  | .doExit me => s.onCurrent me fun p => s.doExit me p
  | .freeTask t => s.onTask t (s.freeTask t)
  | .migrateTask t cpu => some ((s.migrateTask t cpu).getD s)
  | .tryPullTask me => some (s.tryPullTask me).2
  | .schedule me => s.schedule me

/-- `enqueue_task_cpu` sends a task that some CPU has as its current one to that CPU. -/
def staysHome (s : Runqueues) : Act → Bool
  | .enqueueTaskCpu t cpu => decide (∀ c : Cpu, s.curr c = some t → cpu = c)
  | _ => true

/-- The steps with that restriction. -/
def stepHome (s : Runqueues) (a : Act) : Option Runqueues := if s.staysHome a then s.step a else none

end Runqueues

end MiniOs.Sched
