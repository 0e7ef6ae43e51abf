/-
`schedule` on several CPUs: kernel/sched/core.c and `switch_to` of kernel/entry.S, in steps of one
run-queue-locked section, `set_current`, the register save and the register load. Everything else a CPU
does to the queues happens while it is outside of `schedule`. There `enqueue_task` reads `task->cpu` before
it takes the lock of that CPU's queue. An `op` is an operation with nothing in between; with `readCpu` and
`enqueue` the rest of the machine goes on between the read and the locked section.
-/
import MiniOs.Sched.Runqueue

namespace MiniOs.Sched

open Function

/-- `enqueue_task` up to its call of `enqueue_task_cpu`: the CPU it passes on, and the store of an unset one. -/
def Runqueues.readCpu (s : Runqueues) (me : Cpu) (t : Pid) : Option (Nat × Runqueues) :=
  (s.tasks t).map fun task =>
    if nrCpus ≤ task.cpu then (me.val, s.modify t fun task => { task with cpu := me }) else (task.cpu, s)

/-- Where a CPU is in `schedule`. -/
inductive Pc
  /-- Outside of it. -/
  | run
  /-- Found its queue empty, before `find_busiest_cpu`. -/
  | pull
  /-- In the loop of `find_busiest_cpu`: the CPUs still to be looked at, the busiest so far and its load. -/
  | loads (rest : List Cpu) (best : Cpu × Nat)
  /-- Before the locked pick of `try_pull_task`. -/
  | found (busiest : Cpu)
  /-- Before `migrate_task`. -/
  | steal (t : Pid)
  /-- Before the second `pick_next_task`. -/
  | repick
  /-- Has chosen `next`, before `set_current`. -/
  | decided (next : Option Pid)
  /-- In `switch_to`, before the save. -/
  | save (prev next : Option Pid)
  /-- In `switch_to`, before the load. -/
  | load (next : Option Pid)

/-- The task a CPU is on its way to. -/
def Pc.next : Pc → Option Pid
  | decided next | save _ next | load next => next
  | _ => none

/-- `executing c` is the task whose registers CPU `c` holds, `none` for its idle task and between a save
and a load; `saved t` says that the context in the task structure is the one `t` goes on from. `late` are the
calls of `enqueue_task` that have read a CPU for their task and not yet locked its queue. -/
structure Smp where
  queues : Runqueues
  pc : Cpu → Pc
  executing : Cpu → Option Pid
  saved : Pid → Bool
  late : List (Pid × Nat)

namespace Smp

/-- Every CPU in its idle loop. A new task's context is made by `task_ctx_init`. -/
def init : Smp := ⟨.init, fun _ => .run, fun _ => none, fun _ => true, []⟩

/-- A CPU owns the task it executes and the one it is on its way to. -/
def Owns (s : Smp) (c : Cpu) (t : Pid) : Prop := s.executing c = some t ∨ (s.pc c).next = some t

instance (s : Smp) (c : Cpu) (t : Pid) : Decidable (s.Owns c t) := inferInstanceAs (Decidable (_ ∨ _))

def goto (s : Smp) (me : Cpu) (pc : Pc) : Smp := { s with pc := update s.pc me pc }

inductive Act
  /-- An operation outside of `schedule`. -/
  | op (a : Runqueues.Act)
  /-- `enqueue_task` reads `task->cpu`. -/
  | readCpu (me : Cpu) (t : Pid)
  /-- `enqueue_task_cpu` with the CPU that was read. -/
  | enqueue (t : Pid) (cpu : Nat)
  /-- The first `pick_next_task`. -/
  | pick (me : Cpu)
  /-- The read of `dest_load`. -/
  | destLoad (me : Cpu)
  /-- One round of the loop of `find_busiest_cpu`, or its end. -/
  | readLoad (me : Cpu)
  /-- `pick_migratable_task`, with the busiest CPU's `curr` read under the same lock. -/
  | pickSteal (me : Cpu)
  | migrate (me : Cpu)
  | repick (me : Cpu)
  | setCurrent (me : Cpu)
  | save (me : Cpu)
  | load (me : Cpu)

def step (s : Smp) : Act → Option Smp
  | .op a =>
    if a.isLocal && a.cpu.all fun me => s.pc me matches .run then
      (s.queues.step a).map fun queues => { s with queues := queues }
    else none
  | .readCpu me t =>
    (s.queues.readCpu me t).map fun (cpu, queues) => { s with queues := queues, late := (t, cpu) :: s.late }
  | .enqueue t cpu =>
    if (t, cpu) ∈ s.late then
      (s.queues.step (.enqueueTaskCpu t cpu)).map fun queues =>
        { s with queues := queues, late := s.late.erase (t, cpu) }
    else none
  | .pick me =>
    match s.pc me, s.queues.pickNextTask me (s.queues.curr me) with
    | .run, some none => some (s.goto me .pull)
    | .run, some (some next) => some (s.goto me (.decided (some next)))
    | _, _ => none
  | .destLoad me =>
    match s.pc me with
    | .pull => some (s.goto me (.loads (List.finRange nrCpus) (me, s.queues.nrRunning me + 1)))
    | _ => none
  | .readLoad me =>
    match s.pc me with
    | .loads [] best => some (s.goto me (if best.1 = me then .decided none else .found best.1))
    | .loads (c :: rest) best => some (s.goto me (.loads rest (s.queues.busier me best c)))
    | _ => none
  | .pickSteal me =>
    match s.pc me with
    | .found busiest =>
      match s.queues.pickMigratableTask busiest (s.queues.curr busiest) with
      | none => some (s.goto me (.decided none))
      | some t => some (s.goto me (.steal t))
    | _ => none
  | .migrate me =>
    match s.pc me with
    | .steal t =>
      match s.queues.migrateTask t me with
      | none => some (s.goto me (.decided none))
      | some queues => some { s.goto me .repick with queues := queues }
    | _ => none
  | .repick me =>
    match s.pc me with
    | .repick => (s.queues.pickNextTask me (s.queues.curr me)).map fun next => s.goto me (.decided next)
    | _ => none
  | .setCurrent me =>
    match s.pc me with
    | .decided next =>
      if next = s.queues.curr me then some (s.goto me .run)
      else
        some { s.goto me (.save (s.queues.curr me) next) with
          queues := { s.queues with curr := update s.queues.curr me next } }
    | _ => none
  | .save me =>
    match s.pc me with
    | .save prev next =>
      some { s.goto me (.load next) with
        executing := update s.executing me none
        saved := fun t => if prev = some t then true else s.saved t }
    | _ => none
  | .load me =>
    match s.pc me with
    | .load next =>
      some { s.goto me .run with
        executing := update s.executing me next
        saved := fun t => if next = some t then false else s.saved t }
    | _ => none

/-- Whether a step puts no task that some CPU owns on the queue of another one. -/
def settled (s : Smp) : Act → Bool
  | .migrate me =>
    match s.pc me with
    | .steal t => decide (∀ c, ¬ s.Owns c t)
    | _ => true
  | .enqueue t cpu => s.queues.linked t || decide (∀ c : Cpu, s.Owns c t → cpu = c)
  | _ => true

/-- The steps that take no task away from its owner. -/
def stepSettled (s : Smp) (a : Act) : Option Smp := if s.settled a then s.step a else none

end Smp

end MiniOs.Sched
