/-
Processes: kernel/exit.c, kernel/pid.c, the end of kernel/fork.c, and what kernel/signal.c,
kernel/time/tick.c and the sleeping calls do to a task. One step is one call up to its `schedule`, one
round of a loop that sleeps, one round of the loop of `do_signal`, or one `schedule`; what follows a
`schedule` is a step of its own, once the task is current again.
-/
import MiniOs.Sched.Signal

namespace MiniOs.Sched

open Function

/-- `enum child_event`. -/
inductive ChildEvent
  | none
  | stopped
  | continued
  deriving DecidableEq

/-- What processes add to the fields of `Task`. -/
structure Proc where
  isUser : Bool
  pgid : Pid
  sid : Pid
  exitCode : Nat
  stopSignal : Nat
  waitEvent : ChildEvent
  wakeJiffies : Nat
  actions : Nat → Sigaction

/-- As `task_zero` leaves it. -/
def Proc.zero : Proc := ⟨false, 0, 0, 0, 0, .none, 0, fun _ => .zero⟩

def wnohang : BitVec 64 := 1
def wuntraced : BitVec 64 := 2
def wcontinued : BitVec 64 := 8

/-- `W_CONTINUED`. -/
def wContinued : Nat := 0xffff

/-- The arguments of `wait4`. `copy_to_user` cannot fail, so `status` decides nothing. -/
structure Wait where
  pid : Int
  options : BitVec 64
  deriving DecidableEq

def Wait.has (w : Wait) (option : BitVec 64) : Bool := w.options &&& option != 0#64

/-- The test of `child->pid` against the selector. -/
def Wait.selects (w : Wait) (t : Pid) : Bool := w.pid == -1 || (t : Int) == w.pid

/-- What `wait4` returns: a child's pid and the status word, 0 of `WNOHANG`, or an error. -/
inductive WaitRet
  | exited (t : Pid) (code : Nat)
  | stopped (t : Pid) (code : Nat)
  | continued (t : Pid) (code : Nat)
  | nothing
  | error (e : Errno)
  deriving DecidableEq

/-- A `wait4` that returns to its caller. -/
structure Waited where
  caller : Pid
  call : Wait
  ret : WaitRet
  deriving DecidableEq

/-- Why a task has given up its CPU. -/
inductive Sleep
  /-- `nanosleep`, `rt_sigsuspend`, `ppoll`. -/
  | nap
  /-- Between `prepare_to_wait` and `finish_wait`. -/
  | queue
  | wait (w : Wait)
  /-- `do_signal_stop`. -/
  | stop
  /-- `do_exit`. -/
  | exit

/-- Where a task is: in user mode or a call that does not sleep, at the head of the loop of `wait4`, before
the `schedule` that gives up its CPU, and inside of it. -/
inductive Mode
  | run
  | waiting (w : Wait)
  | block (k : Sleep)
  | away (k : Sleep)

/-- `procs` and `mode` are meant for the tasks that have been created. -/
structure Procs where
  queues : Runqueues
  procs : Pid → Proc
  allTasks : List Pid
  mode : Pid → Mode
  jiffies : Nat

namespace Procs

/-- The init task is on the first CPU's queue and has loaded its program. -/
def init (cpu : Nat) : Procs where
  queues := (Runqueues.init.kernelThread cpu).wakeUpProcess 0 1
  procs := update (fun _ => .zero) 1 { Proc.zero with isUser := true, pgid := 1, sid := 1 }
  allTasks := [1]
  mode := fun _ => .run
  jiffies := 0

def modifyProc (s : Procs) (t : Pid) (f : Proc → Proc) : Procs :=
  { s with procs := update s.procs t (f (s.procs t)) }

def goto (s : Procs) (t : Pid) (mode : Mode) : Procs := { s with mode := update s.mode t mode }

def hasState (s : Procs) (t : Pid) (state : TaskState) : Bool := s.queues.hasState t state

/-- `task->pending &= ~SIG_BIT(sig)`. -/
def dropPending (s : Procs) (t : Pid) (sig : Nat) : Procs :=
  { s with queues := s.queues.modify t fun task => { task with pending := task.pending &&& ~~~sigBit sig } }

/-- `if (!list_is_linked(&task->run_list)) enqueue_task(task)`. -/
def relink (s : Procs) (me : Cpu) (t : Pid) : Procs :=
  { s with queues := if s.queues.linked t then s.queues else s.queues.enqueueTask me t }

/-! ## Sending signals -/

/-- `signal_send`. -/
def signalSend (s : Procs) (me : Cpu) (t : Pid) (sig : Nat) : Procs :=
  let continues := s.hasState t .stopped && sig == sigcont
  let s := if continues then s.modifyProc t fun proc => { proc with waitEvent := .continued } else s
  { s with queues := s.queues.signalQueue me t sig }

def findTaskByPid (s : Procs) (pid : Int) : Option Pid :=
  if pid ≤ 0 then none
  else s.allTasks.find? fun t => (t : Int) == pid && (s.procs t).isUser && !s.hasState t .dead

def signalOneProcess (s : Procs) (me : Cpu) (pid : Int) (sig : Nat) : Except Errno Unit × Procs :=
  match s.findTaskByPid pid with
  | none => (.error .srch, s)
  | some t => (.ok (), if sig = 0 then s else s.signalSend me t sig)

/-- The loop over `all_tasks` that sends a signal to those that pass a test: whether one did. -/
def signalEach (s : Procs) (me : Cpu) (sig : Nat) (test : Procs → Pid → Bool) : Bool × Procs :=
  s.allTasks.foldl (fun r t => if test r.2 t then (true, if sig = 0 then r.2 else r.2.signalSend me t sig) else r)
    (false, s)

/-- A user task that is neither a zombie nor dead. -/
def isLive (s : Procs) (t : Pid) : Bool := (s.procs t).isUser && !s.hasState t .zombie && !s.hasState t .dead

def signalProcessGroup (s : Procs) (me : Cpu) (pgid : Int) (sig : Nat) : Except Errno Unit × Procs :=
  if pgid ≤ 0 then (.error .srch, s)
  else
    let (found, s) := s.signalEach me sig fun s t => s.isLive t && ((s.procs t).pgid : Int) == pgid
    (if found then .ok () else .error .srch, s)

/-- `ksys_kill`, called on CPU `me` by its current task or by an interrupt. The idle task's group is 0. -/
def ksysKill (s : Procs) (me : Cpu) (pid sig : Int) : Except Errno Unit × Procs :=
  if sig < 0 ∨ (nsig : Int) ≤ sig then (.error .inval, s)
  else if 0 < pid then s.signalOneProcess me pid sig.toNat
  else if pid = 0 then s.signalProcessGroup me
    (((s.queues.curr me).map fun p => (s.procs p).pgid).getD 0 : Nat) sig.toNat
  else if pid < -1 then s.signalProcessGroup me (-pid) sig.toNat
  else
    let (found, s') := s.signalEach me sig.toNat fun s t =>
      (s.procs t).isUser && !decide (s.queues.curr me = some t) && !s.hasState t .dead
    (if found then .ok () else .error .srch, s')

/-! ## Groups and sessions -/

def pgidExists (s : Procs) (pgid : Int) : Bool :=
  decide (0 < pgid) && s.allTasks.any fun t => s.isLive t && ((s.procs t).pgid : Int) == pgid

/-- `ksys_setpgid` of task `p`. -/
def ksysSetpgid (s : Procs) (p : Pid) (pid pgid : Int) : Except Errno Unit × Procs :=
  let pid := if pid = 0 then (p : Int) else pid
  match s.findTaskByPid pid with
  | none => (.error .srch, s)
  | some t =>
    let pgid := if pgid = 0 then pid else pgid
    if pgid < 0 then (.error .inval, s)
    else if t ≠ p ∧ (s.queues.tasks t).bind Task.parent ≠ some p then (.error .srch, s)
    else if pgid ≠ pid ∧ s.pgidExists pgid = false then (.error .perm, s)
    else if (s.procs t).sid = t then (.error .perm, s)
    else if (s.procs t).sid ≠ (s.procs p).sid then (.error .perm, s)
    else (.ok (), s.modifyProc t fun proc => { proc with pgid := pgid.toNat })

/-- `ksys_setsid` of task `p`. -/
def ksysSetsid (s : Procs) (p : Pid) : Except Errno Pid × Procs :=
  if s.pgidExists p then (.error .perm, s)
  else (.ok p, s.modifyProc p fun proc => { proc with sid := p, pgid := p })

/-! ## Fork, stop and exit -/

/-- `ksys_fork` of task `p`, when nothing it allocates is missing. -/
def ksysFork (s : Procs) (me : Cpu) (p : Pid) (cpu : Nat) : Procs :=
  let child := s.queues.nextPid
  { s with
    queues := s.queues.fork me p (((s.queues.tasks p).map Task.blocked).getD 0) cpu
    procs := update s.procs child
      { Proc.zero with isUser := true, pgid := (s.procs p).pgid, sid := (s.procs p).sid,
                       actions := (s.procs p).actions }
    allTasks := s.allTasks ++ [child]
    mode := update s.mode child .run }

/-- `do_exit` of task `p` up to its `schedule`. -/
def doExit (s : Procs) (me : Cpu) (p : Pid) (code : Nat) : Procs :=
  let s := s.modifyProc p fun proc => { proc with exitCode := code, waitEvent := .none }
  { s.goto p (.block .exit) with queues := s.queues.doExit me p }

/-- `do_signal_stop` of task `p` up to its `schedule`. -/
def doSignalStop (s : Procs) (me : Cpu) (p : Pid) (sig : Nat) : Procs :=
  let s := s.modifyProc p fun proc => { proc with stopSignal := sig, waitEvent := .stopped }
  { s.goto p (.block .stop) with queues := s.queues.signalStop me p }

/-- One round of the loop of `do_signal` of task `p`, when a signal is ready. `framed` says that the frame of
a handler can be written; the mask the handler runs with is a step of its own. A power-off that comes back
changes nothing. -/
def doSignal (s : Procs) (me : Cpu) (p : Pid) (task : Task) (framed : Bool) : Procs :=
  let sig := nextPendingSignal task.pending task.blocked
  if sig = 0 then s
  else
    let ka := (s.procs p).actions sig
    let s := s.dropPending p sig
    match verdict p sig ka with
    | .exit code => s.doExit me p code
    | .stop sig => s.doSignalStop me p sig
    | .ignore | .shutdown => s
    | .handle =>
      let s :=
        if ka.has saResethand then
          s.modifyProc p fun proc => { proc with actions := update proc.actions sig { ka with saHandler := sigDfl } }
        else s
      if framed then s else s.doExit me p sigsegv

/-! ## `wait4` -/

/-- The test the walks over `all_tasks` make of `child->parent` and `child->pid`. -/
def isChild (s : Procs) (p : Pid) (w : Wait) (t : Pid) : Bool :=
  decide ((s.queues.tasks t).bind Task.parent = some p) && w.selects t

/-- `find_child`; `none` is the state -1. -/
def findChild (s : Procs) (p : Pid) (w : Wait) (state : Option TaskState) : Option Pid :=
  s.allTasks.find? fun t => s.isChild p w t && state.all (s.hasState t)

/-- `free_task`. -/
def freeTask (s : Procs) (t : Pid) : Procs :=
  { s with queues := s.queues.freeTask t, allTasks := s.allTasks.erase t }

/-- `wait_reap_zombie`; `none` is -1. -/
def waitReapZombie (s : Procs) (p : Pid) (w : Wait) : Option (WaitRet × Procs) :=
  (s.findChild p w (some .zombie)).map fun t =>
    (.exited t (s.procs t).exitCode, (s.dropPending p sigchld).freeTask t)

/-- `wait_event_child`, where `ret` makes the report. -/
def waitEventChild (s : Procs) (p : Pid) (w : Wait) (event : ChildEvent) (ret : Pid → WaitRet) :
    Option (WaitRet × Procs) :=
  (s.allTasks.find? fun t => s.isChild p w t && decide ((s.procs t).waitEvent = event)).map fun t =>
    (ret t, s.modifyProc t fun proc => { proc with waitEvent := .none })

def stoppedRet (s : Procs) (t : Pid) : WaitRet := .stopped t ((s.procs t).stopSignal <<< 8 ||| 0x7f)

/-- How a round of the loop of `ksys_wait4` ends. -/
inductive Round
  | ret (ret : WaitRet)
  | again
  | sleep

/-- The end of a round, when there is nothing to report. -/
def waitIdle (s : Procs) (p : Pid) (w : Wait) : Round × Procs :=
  if (s.findChild p w none).isNone then (.ret (.error .child), s)
  else if w.has wnohang then (.ret .nothing, s)
  else if (s.queues.tasks p).any Task.signalPending then
    let handler := ((s.procs p).actions sigchld).saHandler
    if (s.queues.tasks p).any (fun task => task.pending &&& sigBit sigchld != 0#64) &&
      (handler == sigDfl || handler == sigIgn) then
      (.again, s.dropPending p sigchld)
    else (.ret (.error .restartsys), s)
  else (.sleep, s)

/-- Try one kind of event if the options select it, and go on with `next`. -/
def waitEvent (s : Procs) (p : Pid) (w : Wait) (option : BitVec 64) (event : ChildEvent) (ret : Pid → WaitRet)
    (next : Procs → Round × Procs) : Round × Procs :=
  if w.has option then
    match s.waitEventChild p w event ret with
    | some (ret, s) => (.ret ret, s)
    | none => next s
  else next s

/-- One round of the loop of `ksys_wait4`. -/
def waitRound (s : Procs) (p : Pid) (w : Wait) : Round × Procs :=
  match s.waitReapZombie p w with
  | some (ret, s) => (.ret ret, s)
  | none =>
    s.waitEvent p w wuntraced .stopped s.stoppedRet fun s =>
      s.waitEvent p w wcontinued .continued (fun t => .continued t wContinued) fun s => s.waitIdle p w

/-- `ksys_wait4` of a user task up to its loop. -/
def ksysWait4 (s : Procs) (p : Pid) (w : Wait) : Procs × Option Waited :=
  if w.pid < -1 ∨ w.pid = 0 then (s, some ⟨p, w, .error .inval⟩) else (s.goto p (.waiting w), none)

/-- What a round does to the caller. -/
def endRound (s : Procs) (p : Pid) (w : Wait) : Round → Procs × Option Waited
  | .ret ret => (s.goto p .run, some ⟨p, w, ret⟩)
  | .again => (s, none)
  | .sleep => ({ s.goto p (.block (.wait w)) with queues := s.queues.schedBlock p .sleeping }, none)

/-! ## Sleep and wake-up -/

/-- `do_timer` and `tick_wake_sleepers`. -/
def tick (s : Procs) (me : Cpu) : Procs :=
  let s := { s with jiffies := s.jiffies + 1 }
  s.allTasks.foldl (fun s t =>
    if s.hasState t .sleeping && (s.procs t).wakeJiffies != 0 && decide ((s.procs t).wakeJiffies ≤ s.jiffies) then
      { s with queues := s.queues.wakeUpProcess me t }
    else s) s

/-- A task goes to sleep, with a deadline for `tick_wake_sleepers` or 0. -/
def sleep (s : Procs) (p : Pid) (k : Sleep) (deadline : Nat) : Procs :=
  let s := s.modifyProc p fun proc => { proc with wakeJiffies := deadline }
  { s.goto p (.block k) with queues := s.queues.schedBlock p .sleeping }

/-- What a task does when it is back from the `schedule` of its sleep, or has found that it need not sleep.
`do_exit` does not come back. -/
def resume (s : Procs) (me : Cpu) (p : Pid) : Sleep → Option Procs
  | .nap => some (((s.modifyProc p fun proc => { proc with wakeJiffies := 0 }).relink me p).goto p .run)
  | .queue | .stop => some { s.goto p .run with queues := s.queues.finishWait me p }
  | .wait w => some ((s.relink me p).goto p (.waiting w))
  | .exit => none

def schedule (s : Procs) (me : Cpu) : Option Procs :=
  (s.queues.schedule me).map fun queues => { s with queues := queues }

/-! ## Runs -/

/-- A step of CPU `me`. -/
inductive Act
  | fork (me : Cpu) (cpu : Nat)
  /-- A `fork` that fails after it has taken its pid. -/
  | forkFails (me : Cpu)
  | exit (me : Cpu) (status : BitVec 64)
  | kill (me : Cpu) (pid sig : Int)
  | doSignal (me : Cpu) (framed : Bool)
  | wait4 (me : Cpu) (w : Wait)
  | waitRound (me : Cpu)
  | setpgid (me : Cpu) (pid pgid : Int)
  | setsid (me : Cpu)
  /-- `rt_sigaction`. -/
  | sigaction (me : Cpu) (sig : Nat) (ka : Sigaction)
  /-- Whatever sets the mask of the current task. -/
  | setBlocked (me : Cpu) (blocked : BitVec 64)
  | nap (me : Cpu) (deadline : Nat)
  | prepareToWait (me : Cpu)
  /-- A task that need not sleep after all. -/
  | cancel (me : Cpu)
  | resume (me : Cpu)
  | wakeUp (me : Cpu) (waiters : List Pid)
  | tick (me : Cpu)
  | schedule (me : Cpu)

/-- A call of the current task of CPU `me`, a user task. -/
def onUser {α : Type} (s : Procs) (me : Cpu) (f : Pid → α) : Option α :=
  (s.queues.curr me).bind fun p =>
    match s.mode p with
    | .run => if (s.procs p).isUser then some (f p) else none
    | _ => none

/-- The state after a step, and the `wait4` that has returned in it. -/
def step (s : Procs) : Act → Option (Procs × Option Waited)
  | .fork me cpu => s.onUser me fun p => (s.ksysFork me p cpu, none)
  | .forkFails me => s.onUser me fun _ => ({ s with queues := { s.queues with nextPid := s.queues.nextPid + 1 } }, none)
  | .exit me status => s.onUser me fun p => (s.doExit me p ((status &&& 0xff#64).toNat <<< 8), none)
  | .kill me pid sig => some ((s.ksysKill me pid sig).2, none)
  | .doSignal me framed =>
    (s.onUser me fun p => (s.queues.tasks p).map fun task => (s.doSignal me p task framed, none)).bind id
  | .wait4 me w => s.onUser me fun p => s.ksysWait4 p w
  | .waitRound me =>
    (s.queues.curr me).bind fun p =>
      match s.mode p with
      | .waiting w =>
        let (round, s) := s.waitRound p w
        some (s.endRound p w round)
      | _ => none
  | .setpgid me pid pgid => s.onUser me fun p => ((s.ksysSetpgid p pid pgid).2, none)
  | .setsid me => s.onUser me fun p => ((s.ksysSetsid p).2, none)
  | .sigaction me sig ka =>
    s.onUser me fun p => (s.modifyProc p fun proc => { proc with actions := update proc.actions sig ka }, none)
  | .setBlocked me blocked =>
    s.onUser me fun p => ({ s with queues := s.queues.modify p fun task => { task with blocked := blocked } }, none)
  | .nap me deadline => s.onUser me fun p => (s.sleep p .nap deadline, none)
  | .prepareToWait me => s.onUser me fun p => (s.sleep p .queue 0, none)
  | .cancel me =>
    (s.queues.curr me).bind fun p =>
      match s.mode p with
      | .block .nap => (s.resume me p .nap).map (·, none)
      | .block .queue => (s.resume me p .queue).map (·, none)
      | _ => none
  | .resume me =>
    (s.queues.curr me).bind fun p =>
      match s.mode p with
      | .away k => (s.resume me p k).map (·, none)
      | _ => none
  | .wakeUp me waiters => some ({ s with queues := s.queues.wakeUp me waiters }, none)
  | .tick me => some (s.tick me, none)
  | .schedule me =>
    match s.queues.curr me with
    | none => (s.schedule me).map (·, none)
    | some p =>
      match s.mode p with
      | .run => (s.schedule me).map (·, none)
      | .block k => (s.schedule me).map fun s => (s.goto p (.away k), none)
      | _ => none

end Procs

end MiniOs.Sched
