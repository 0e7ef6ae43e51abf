/-
The run queues as kernel/sched/core.c keeps them: rings of `run_list` nodes behind the head of each CPU's
queue. Here are the parts of the scheduler that follow or change these links; a `task_struct` is named by its
`run_list` node, so `list_entry` is the node itself.
-/
import MiniOs.Library.ListHead
import MiniOs.Sched.Runqueue

namespace MiniOs.Sched

open Library

/-- The list nodes of the scheduler: `cpu_data[c].rq.tasks`, and the `run_list` of a task or of `idle_tasks[c]`. -/
inductive RunNode
  | head (c : Cpu)
  | task (t : Pid)
  | idle (c : Cpu)
  deriving DecidableEq

namespace RunNode

/-- The links after `rq_init` and `sched_init_idle` of every CPU; a task's node is initialised when it is made. -/
def initLinks : Links RunNode := ⟨id, id⟩

/-- What `enqueue_task_locked` does to the links. -/
def enqueueLinks (m : Links RunNode) (t : Pid) (c : Cpu) : Links RunNode :=
  if m.listIsLinked (task t) then m else m.listAddTail (task t) (head c)

/-- What `dequeue_task_locked` does to the links. -/
def dequeueLinks (m : Links RunNode) (t : Pid) : Links RunNode :=
  if m.listIsLinked (task t) then m.listDelInit (task t) else m

/-- What `migrate_task` does to the links. -/
def moveLinks (m : Links RunNode) (t : Pid) (new : Cpu) : Links RunNode :=
  if m.listIsLinked (task t) then (m.listDelInit (task t)).listAddTail (task t) (head new) else m

inductive LinkOp
  | enqueue (t : Pid) (c : Cpu)
  | dequeue (t : Pid) (c : Cpu)
  | move (t : Pid) (old new : Cpu)

def linkStep (m : Links RunNode) : LinkOp → Links RunNode
  | .enqueue t c => enqueueLinks m t c
  | .dequeue t _ => dequeueLinks m t
  | .move t _ new => moveLinks m t new

/-- The same on the lists of `Runqueues`. -/
def queueStep (s : Runqueues) : LinkOp → Runqueues
  | .enqueue t c => s.enqueueTaskLocked t c
  | .dequeue t c => s.dequeueTaskLocked t c
  | .move t old new => if s.linked t then s.moveTask t old new else s

/-- `pick_next_task`; `prev` may be `NULL`. -/
def pickNextTask (m : Links RunNode) (me : Cpu) (prev : Option RunNode) : RunNode :=
  if m.listEmpty (head me) then idle me
  else
    let pos :=
      match prev with
      | some p => if p ≠ idle me ∧ m.listIsLinked p then m.next p else m.next (head me)
      | none => m.next (head me)
    if pos = head me then m.next (head me) else pos

/-- `n` calls of `pick_next_task`, each with the task the one before it returned. -/
def picks (m : Links RunNode) (me : Cpu) : Nat → RunNode → List RunNode
  | 0, _ => []
  | n + 1, prev => pickNextTask m me (some prev) :: picks m me n (pickNextTask m me (some prev))

end RunNode

end MiniOs.Sched
