/-
What signals and wake-ups can do to a task. They never make a zombie, never bring one back, never stop a
task and take none off a queue; a stopped task moves only if it is among those a step may wake. Every
such operation is an instance of one relation, which composes.
-/
import MiniOs.Library.Bits
import MiniOs.Proofs.Sched.Switch

namespace MiniOs.Sched

open Library.Bits

/-! ## Stop and continue cancel each other -/

/-- Not both `SIGCONT` and a stop signal. -/
def Exclusive (pending : BitVec 64) : Prop := pending &&& sigBit sigcont = 0#64 ∨ pending &&& sigStopMask = 0#64

variable {pending : BitVec 64}

theorem Exclusive.and (h : Exclusive pending) (mask : BitVec 64) : Exclusive (pending &&& mask) := by
  have hand : ∀ x, pending &&& x = 0#64 → pending &&& mask &&& x = 0#64 := by
    intro x hx
    rw [BitVec.and_assoc, BitVec.and_comm mask, ← BitVec.and_assoc, hx, BitVec.zero_and]
  exact h.imp (hand _) (hand _)

theorem sigBit_and_of_plain : ∀ sig < nsig, sig ≠ sigcont → sigKernelStop sig = false →
    sigBit sig &&& sigBit sigcont = 0#64 ∧ sigBit sig &&& sigStopMask = 0#64 := by
  decide

theorem Exclusive.addPending (h : Exclusive pending) {sig : Nat} (hsig : sig < nsig) :
    Exclusive (addPending pending sig) := by
  unfold Sched.addPending
  dsimp only
  split_ifs with hcont hstop
  · right
    rw [BitVec.and_assoc, show ~~~sigStopMask &&& sigStopMask = 0#64 by decide, BitVec.and_zero]
  · left
    rw [BitVec.and_assoc, show ~~~sigBit sigcont &&& sigBit sigcont = 0#64 by decide, BitVec.and_zero]
  · obtain ⟨h1, h2⟩ := sigBit_and_of_plain sig hsig hcont (by simpa using hstop)
    refine h.imp (fun hc => ?_) fun hs => ?_
    · rw [or_and_distrib, hc, h1, BitVec.or_zero]
    · rw [or_and_distrib, hs, h2, BitVec.or_zero]

theorem Exclusive.not_both (h : Exclusive pending) {sig : Nat} (hsig : sigKernelStop sig = true) :
    ¬ (pending &&& sigBit sigcont ≠ 0#64 ∧ pending &&& sigBit sig ≠ 0#64) := by
  rintro ⟨hcont, hstop⟩
  rcases h with h | h
  · exact hcont h
  · -- the bit of a stop signal is one of the mask
    have hsub : sigStopMask &&& sigBit sig = sigBit sig := by
      simp only [sigKernelStop, Bool.or_eq_true, beq_iff_eq] at hsig
      rcases hsig with ((rfl | rfl) | rfl) | rfl <;> decide
    apply hstop
    rw [← hsub, ← BitVec.and_assoc, h, BitVec.zero_and]

/-! ## The relation -/

/-- What may become of a task; `wakes` says that it may be woken from a stop. -/
structure Task.Stirred (wakes : Prop) (task task' : Task) : Prop where
  parent : task'.parent = task.parent
  exclusive : Exclusive task.pending → Exclusive task'.pending
  zombie : task'.state = .zombie ↔ task.state = .zombie
  dead : task'.state = .dead ↔ task.state = .dead
  stopped : task'.state = .stopped → task.state = .stopped
  stays : task.state = .stopped → task'.state = .stopped ∨ wakes
  runs : task.state = .running → task'.state = .running

theorem Task.Stirred.refl (wakes : Prop) (task : Task) : task.Stirred wakes task where
  parent := rfl
  exclusive := id
  zombie := Iff.rfl
  dead := Iff.rfl
  stopped := id
  stays := Or.inl
  runs := id

theorem Task.Stirred.trans {wakes : Prop} {task task' task'' : Task} (h : task.Stirred wakes task')
    (h' : task'.Stirred wakes task'') : task.Stirred wakes task'' where
  parent := h'.parent.trans h.parent
  exclusive hex := h'.exclusive (h.exclusive hex)
  zombie := h'.zombie.trans h.zombie
  dead := h'.dead.trans h.dead
  stopped hstop := h.stopped (h'.stopped hstop)
  stays hstop := (h.stays hstop).elim h'.stays Or.inr
  runs hrun := h'.runs (h.runs hrun)

/-- A task that is woken, unless it is gone or stopped against `wakes`. -/
theorem Task.Stirred.wake {wakes : Prop} {task task' : Task} (hparent : task'.parent = task.parent)
    (hpending : task'.pending = task.pending) (hstate : task'.state = .running) (hzombie : task.state ≠ .zombie)
    (hdead : task.state ≠ .dead) (hstop : task.state = .stopped → wakes) : task.Stirred wakes task' where
  parent := hparent
  exclusive hex := by rwa [hpending]
  zombie := by simp [hstate, hzombie]
  dead := by simp [hstate, hdead]
  stopped h := by simp [hstate] at h
  stays h := Or.inr (hstop h)
  runs _ := hstate

namespace Runqueues

variable {s s' s'' : Runqueues} {t u p : Pid} {c me : Cpu} {wakes wakes' : Pid → Prop}

/-- A step after which every task is there that was there before, as `Task.Stirred` allows, and every
queued task is still on a queue. -/
structure Stirs (wakes : Pid → Prop) (s s' : Runqueues) : Prop where
  nextPid : s'.nextPid = s.nextPid
  linked : ∀ t, s.linked t = true → s'.linked t = true
  absent : ∀ t, s.tasks t = none → s'.tasks t = none
  present : ∀ t task, s.tasks t = some task → ∃ task', s'.tasks t = some task' ∧ task.Stirred (wakes t) task'

theorem Stirs.refl (wakes : Pid → Prop) (s : Runqueues) : Stirs wakes s s where
  nextPid := rfl
  linked _ := id
  absent _ := id
  present _ task h := ⟨task, h, .refl _ task⟩

section

variable (h : Stirs wakes s s')
include h

theorem Stirs.trans (h' : Stirs wakes s' s'') : Stirs wakes s s'' where
  nextPid := h'.nextPid.trans h.nextPid
  linked t ht := h'.linked t (h.linked t ht)
  absent t ht := h'.absent t (h.absent t ht)
  present t task htask := by
    obtain ⟨task', htask', h1⟩ := h.present t task htask
    obtain ⟨task'', htask'', h2⟩ := h'.present t task' htask'
    exact ⟨task'', htask'', h1.trans h2⟩

theorem Stirs.mono (hle : ∀ t, wakes t → wakes' t) : Stirs wakes' s s' where
  nextPid := h.nextPid
  linked := h.linked
  absent := h.absent
  present t task htask := by
    obtain ⟨task', htask', hstirred⟩ := h.present t task htask
    exact ⟨task', htask', { hstirred with stays := fun hstop => (hstirred.stays hstop).imp_right (hle t) }⟩

theorem Stirs.before {task' : Task} (htask' : s'.tasks t = some task') :
    ∃ task, s.tasks t = some task ∧ task.Stirred (wakes t) task' := by
  cases htask : s.tasks t with
  | none => simp [h.absent t htask] at htask'
  | some task =>
    obtain ⟨task'', htask'', hstirred⟩ := h.present t task htask
    rw [htask'] at htask''
    cases htask''
    exact ⟨task, rfl, hstirred⟩

theorem Stirs.isSome (t : Pid) : (s'.tasks t).isSome = (s.tasks t).isSome := by
  cases htask : s.tasks t with
  | none => rw [h.absent t htask]
  | some task =>
    obtain ⟨task', htask', -⟩ := h.present t task htask
    rw [htask']
    rfl

theorem Stirs.parent (t : Pid) : (s'.tasks t).bind Task.parent = (s.tasks t).bind Task.parent := by
  cases htask : s.tasks t with
  | none => rw [h.absent t htask]
  | some task =>
    obtain ⟨task', htask', hstirred⟩ := h.present t task htask
    rw [htask']
    exact hstirred.parent

end

variable {state : TaskState}

theorem hasState_iff : s.hasState t state = true ↔ ∃ task, s.tasks t = some task ∧ task.state = state := by
  unfold hasState
  cases s.tasks t <;> simp

theorem hasState_of_ne {other : TaskState} (h : s.hasState t state = true) (hne : state ≠ other) :
    s.hasState t other = false := by
  obtain ⟨task, htask, hstate⟩ := hasState_iff.1 h
  simp [hasState, htask, hstate, hne]

section

variable (h : Stirs wakes s s')
include h

theorem Stirs.hasState_of_iff
    (hiff : ∀ {wakes : Prop} {task task' : Task}, task.Stirred wakes task' → (task'.state = state ↔ task.state = state))
    (t : Pid) : s'.hasState t state = s.hasState t state := by
  rw [Bool.eq_iff_iff, hasState_iff, hasState_iff]
  constructor
  · rintro ⟨task', htask', hstate⟩
    obtain ⟨task, htask, hstirred⟩ := h.before htask'
    exact ⟨task, htask, (hiff hstirred).1 hstate⟩
  · rintro ⟨task, htask, hstate⟩
    obtain ⟨task', htask', hstirred⟩ := h.present t task htask
    exact ⟨task', htask', (hiff hstirred).2 hstate⟩

theorem Stirs.hasState_zombie (t : Pid) : s'.hasState t .zombie = s.hasState t .zombie :=
  h.hasState_of_iff Task.Stirred.zombie t

theorem Stirs.hasState_dead (t : Pid) : s'.hasState t .dead = s.hasState t .dead :=
  h.hasState_of_iff Task.Stirred.dead t

theorem Stirs.stopped_before (hstop : s'.hasState t .stopped = true) : s.hasState t .stopped = true := by
  obtain ⟨task', htask', hstate⟩ := hasState_iff.1 hstop
  obtain ⟨task, htask, hstirred⟩ := h.before htask'
  exact hasState_iff.2 ⟨task, htask, hstirred.stopped hstate⟩

/-- A stopped task stays stopped unless it is one of those the step may wake. -/
theorem Stirs.stopped_after (hstop : s.hasState t .stopped = true) :
    s'.hasState t .stopped = true ∨ wakes t := by
  obtain ⟨task, htask, hstate⟩ := hasState_iff.1 hstop
  obtain ⟨task', htask', hstirred⟩ := h.present t task htask
  exact (hstirred.stays hstate).imp_left fun hstate' => hasState_iff.2 ⟨task', htask', hstate'⟩

end

/-! ## Its instances -/

theorem stirs_modify {f : Task → Task} (hf : ∀ task, s.tasks t = some task → task.Stirred (wakes t) (f task)) :
    Stirs wakes s (s.modify t f) where
  nextPid := rfl
  linked _ := id
  absent u hu := by
    rw [modify_tasks]
    split_ifs with hut
    · rw [← hut, hu]
      rfl
    · exact hu
  present u task hu := by
    rw [modify_tasks]
    split_ifs with hut
    · subst hut
      exact ⟨f task, by rw [hu]; rfl, hf task hu⟩
    · exact ⟨task, hu, .refl _ task⟩

theorem stirs_setCpu (wakes : Pid → Prop) (s : Runqueues) (t : Pid) (cpu : Nat) :
    Stirs wakes s (s.modify t fun task => { task with cpu := cpu }) :=
  stirs_modify fun task _ => { Task.Stirred.refl (wakes t) task with }

/-- Neither gone nor a stopped task that must stay so. -/
def Wakeable (wakes : Pid → Prop) (s : Runqueues) (t : Pid) : Prop :=
  ∀ task, s.tasks t = some task → task.state ≠ .zombie ∧ task.state ≠ .dead ∧ (task.state = .stopped → wakes t)

theorem wakeable_of_hasState (h : s.hasState t state = true) (hzombie : state ≠ .zombie)
    (hdead : state ≠ .dead) (hstop : state = .stopped → wakes t) : Wakeable wakes s t := by
  intro task htask
  obtain ⟨task', htask', hstate⟩ := hasState_iff.1 h
  rw [htask] at htask'
  cases htask'
  rw [hstate]
  exact ⟨hzombie, hdead, hstop⟩

section

variable (h : Wakeable wakes s t)
include h

theorem stirs_setRunning : Stirs wakes s (s.setState t .running) :=
  stirs_modify fun task htask => .wake rfl rfl rfl (h task htask).1 (h task htask).2.1 (h task htask).2.2

theorem stirs_enqueueTaskLocked (c : Cpu) : Stirs wakes s (s.enqueueTaskLocked t c) := by
  unfold enqueueTaskLocked
  split_ifs with hlinked
  · exact .refl wakes s
  have hmod : Stirs wakes s (s.modify t fun task => { task with state := .running, cpu := c }) :=
    stirs_modify fun task htask => .wake rfl rfl rfl (h task htask).1 (h task htask).2.1 (h task htask).2.2
  refine { hmod with linked := fun u hu => ?_ }
  obtain ⟨d, hd⟩ := linked_iff.1 hu
  rw [linked_iff]
  refine ⟨d, ?_⟩
  by_cases hdc : d = c
  · subst hdc
    simp [hd]
  · simpa [hdc] using hd

theorem stirs_enqueueTask (me : Cpu) : Stirs wakes s (s.enqueueTask me t) := by
  unfold enqueueTask
  cases htask : s.tasks t with
  | none => exact .refl wakes s
  | some task =>
    have hcpu := stirs_setCpu wakes s t me
    have hwake : Wakeable wakes (s.modify t fun task => { task with cpu := me }) t := by
      intro task' htask'
      rw [modify_tasks, if_pos rfl, htask] at htask'
      cases htask'
      exact h task htask
    dsimp only [enqueueTaskCpu]
    split_ifs
    · exact hcpu.trans (stirs_enqueueTaskLocked hwake _)
    · exact hcpu
    · exact stirs_enqueueTaskLocked h _
    · exact .refl wakes s

theorem stirs_wakeUpProcess (me : Cpu) : Stirs wakes s (s.wakeUpProcess me t) := by
  unfold wakeUpProcess
  split_ifs
  · exact .refl wakes s
  · exact stirs_enqueueTask h me

theorem stirs_finishWait (me : Cpu) : Stirs wakes s (s.finishWait me t) := by
  unfold finishWait
  split_ifs
  · exact stirs_setRunning h
  · exact stirs_enqueueTask h me

end

theorem stirs_wakeUp (wakes : Pid → Prop) (s : Runqueues) (me : Cpu) (waiters : List Pid) :
    Stirs wakes s (s.wakeUp me waiters) := by
  unfold wakeUp
  induction waiters generalizing s with
  | nil => exact .refl wakes s
  | cons t rest ih =>
    rw [List.foldl_cons]
    refine Stirs.trans ?_ (ih _)
    split_ifs with hsleep
    · exact stirs_wakeUpProcess (wakeable_of_hasState hsleep (by decide) (by decide) (by simp)) me
    · exact .refl wakes s

/-! ## Signals -/

/-- The tasks a signal to `t` may wake from a stop. -/
def Rouses (t : Pid) (sig : Nat) (u : Pid) : Prop := u = t ∧ (sig = sigcont ∨ sig = sigkill)

theorem stirs_signalQueueWith {notify : Runqueues → Runqueues} (hnotify : ∀ s, Stirs (fun _ => False) s (notify s))
    (s : Runqueues) (me : Cpu) (t : Pid) (sig : Nat) : Stirs (Rouses t sig) s (signalQueueWith notify s me t sig) := by
  unfold signalQueueWith
  split_ifs with hvalid
  · exact .refl _ s
  have hpend : Stirs (Rouses t sig) s (s.modify t fun task => { task with pending := addPending task.pending sig }) :=
    stirs_modify fun task _ =>
      { Task.Stirred.refl (Rouses t sig t) task with exclusive := fun hex => hex.addPending (by omega) }
  dsimp only
  generalize s.modify t (fun task => { task with pending := addPending task.pending sig }) = s1 at hpend ⊢
  split_ifs with hcont hsleep hkill
  · -- the continued task runs before its parent is told, so the wake-up finds it so
    obtain ⟨hstop, hsig⟩ := Bool.and_eq_true_iff.1 hcont
    have hwake : Wakeable (Rouses t sig) s1 t := wakeable_of_hasState hstop (by decide) (by decide) fun _ =>
      ⟨rfl, Or.inl (by simpa using hsig)⟩
    have hrun := hnotify (s1.setState t .running)
    have hwoken : Wakeable (Rouses t sig) (notify (s1.setState t .running)) t := by
      intro task' htask'
      obtain ⟨task, htask, hstirred⟩ := hrun.before htask'
      have hstate : task.state = .running := by
        rw [setState, modify_tasks, if_pos rfl] at htask
        obtain ⟨task0, -, rfl⟩ := Option.map_eq_some_iff.1 htask
        rfl
      rw [hstirred.runs hstate]
      exact ⟨by decide, by decide, by simp⟩
    exact hpend.trans ((stirs_setRunning hwake).trans
      ((hrun.mono fun _ h => h.elim).trans (stirs_wakeUpProcess hwoken me)))
  · obtain ⟨hstate, -⟩ := Bool.and_eq_true_iff.1 hsleep
    exact hpend.trans (stirs_wakeUpProcess (wakeable_of_hasState hstate (by decide) (by decide) (by simp)) me)
  · obtain ⟨hstop, hsig⟩ := Bool.and_eq_true_iff.1 hkill
    exact hpend.trans (stirs_wakeUpProcess
      (wakeable_of_hasState hstop (by decide) (by decide) fun _ => ⟨rfl, Or.inr (by simpa using hsig)⟩) me)
  · exact hpend

/-- A child's news wake a sleeping parent and leave a stopped one alone. -/
theorem stirs_notifyParent (s : Runqueues) (me : Cpu) (child : Pid) :
    Stirs (fun _ => False) s (s.notifyParent me child) := by
  unfold notifyParent
  split
  · exact .refl _ s
  · next parent _ =>
    have hsent : Stirs (fun _ => False) s (signalQueueWith id s me parent sigchld) :=
      (stirs_signalQueueWith (fun s => .refl _ s) s me parent sigchld).mono fun u hu => by
        obtain ⟨-, hsig⟩ := hu
        exact absurd hsig (by decide)
    dsimp only
    split_ifs with hsleep
    · exact hsent.trans (stirs_wakeUpProcess (wakeable_of_hasState hsleep (by decide) (by decide) (by simp)) me)
    · exact hsent

theorem stirs_signalQueue (s : Runqueues) (me : Cpu) (t : Pid) (sig : Nat) :
    Stirs (Rouses t sig) s (s.signalQueue me t sig) :=
  stirs_signalQueueWith (fun s => stirs_notifyParent s me t) s me t sig

/-! ## Awake after a signal -/

/-- Running and on a queue. -/
def Awake (s : Runqueues) (t : Pid) : Prop := s.hasState t .running = true ∧ s.linked t = true

theorem Stirs.awake (h : Stirs wakes s s') (hawake : s.Awake t) : s'.Awake t := by
  obtain ⟨hrun, hlinked⟩ := hawake
  obtain ⟨task, htask, hstate⟩ := hasState_iff.1 hrun
  obtain ⟨task', htask', hstirred⟩ := h.present t task htask
  exact ⟨hasState_iff.2 ⟨task', htask', hstirred.runs hstate⟩, h.linked t hlinked⟩

theorem awake_enqueueTaskLocked {task : Task} (htask : s.tasks t = some task) (hlinked : s.linked t = false) (c : Cpu) :
    (s.enqueueTaskLocked t c).Awake t := by
  unfold enqueueTaskLocked
  rw [if_neg (by simp [hlinked])]
  constructor
  · rw [hasState_iff]
    refine ⟨{ task with state := .running, cpu := c }, ?_, rfl⟩
    dsimp only
    rw [modify_tasks, if_pos rfl, htask]
    rfl
  · rw [linked_iff]
    exact ⟨c, by simp⟩

/-- `wake_up_process` leaves the task runnable, also one that is still current somewhere. -/
theorem awake_wakeUpProcess {task : Task} (htask : s.tasks t = some task)
    (hlinked : s.linked t = true → task.state = .running) (me : Cpu) : (s.wakeUpProcess me t).Awake t := by
  unfold wakeUpProcess
  split_ifs with hrun
  · exact Bool.and_eq_true_iff.1 hrun
  have hoff : s.linked t = false := by
    by_contra hon
    have hon : s.linked t = true := by simpa using hon
    exact hrun (Bool.and_eq_true_iff.2 ⟨hasState_iff.2 ⟨task, htask, hlinked hon⟩, hon⟩)
  have hmoved : (s.modify t fun task => { task with cpu := me }).tasks t = some { task with cpu := me } := by
    rw [modify_tasks, if_pos rfl, htask]
    rfl
  simp only [enqueueTask, htask, enqueueTaskCpu]
  split_ifs with hbig hme hcpu
  · exact awake_enqueueTaskLocked hmoved hoff _
  · exact absurd me.isLt hme
  · exact awake_enqueueTaskLocked htask hoff _
  · exact absurd (Nat.not_le.1 hbig) hcpu

/-- A stopped task is awake after `SIGCONT` and after `SIGKILL`. -/
theorem awake_signalQueue {task : Task} (htask : s.tasks t = some task) (hstop : task.state = .stopped)
    (hlinked : s.linked t = false) (me : Cpu) {sig : Nat} (hsig : sig = sigcont ∨ sig = sigkill) :
    (s.signalQueue me t sig).Awake t := by
  have hvalid : ¬ (nsig ≤ sig ∨ sig = 0) := by
    rcases hsig with rfl | rfl <;> decide
  unfold signalQueue signalQueueWith
  rw [if_neg hvalid]
  dsimp only
  have htask1 : (s.modify t fun task => { task with pending := addPending task.pending sig }).tasks t =
      some { task with pending := addPending task.pending sig } := by
    rw [modify_tasks, if_pos rfl, htask]
    rfl
  have hlinked1 : (s.modify t fun task => { task with pending := addPending task.pending sig }).linked t = false :=
    hlinked
  generalize s.modify t (fun task => { task with pending := addPending task.pending sig }) = s1 at htask1 hlinked1 ⊢
  have hstopped : s1.hasState t .stopped = true := hasState_iff.2 ⟨_, htask1, hstop⟩
  have hsleep : s1.hasState t .sleeping = false := by
    simp [hasState, htask1, hstop]
  rcases hsig with rfl | rfl
  · rw [if_pos (by simp [hstopped])]
    have hrun : (s1.setState t .running).tasks t =
      some { task with pending := addPending task.pending sigcont, state := .running } := by
      rw [setState, modify_tasks, if_pos rfl, htask1]
      rfl
    obtain ⟨task', htask', hstirred⟩ := (stirs_notifyParent (s1.setState t .running) me t).present t _ hrun
    exact awake_wakeUpProcess htask' (fun _ => hstirred.runs rfl) me
  · rw [if_neg (by simp [sigkill, sigcont]), if_neg (by simp [hsleep]), if_pos (by simp [hstopped])]
    exact awake_wakeUpProcess htask1 (fun h => by simp [hlinked1] at h) me

/-! ## Blocking, freeing and switching -/

@[simp] theorem dequeueTask_tasks (s : Runqueues) (t : Pid) : (s.dequeueTask t).tasks = s.tasks := by
  unfold dequeueTask dequeueTaskLocked
  split
  · rfl
  · split_ifs <;> rfl

@[simp] theorem dequeueTask_nextPid (s : Runqueues) (t : Pid) : (s.dequeueTask t).nextPid = s.nextPid := by
  unfold dequeueTask dequeueTaskLocked
  split
  · rfl
  · split_ifs <;> rfl

theorem schedBlock_tasks (s : Runqueues) (p : Pid) (state : TaskState) (t : Pid) :
    (s.schedBlock p state).tasks t = if t = p then (s.tasks p).map fun task =>
      { task with state := state } else s.tasks t := by
  rw [schedBlock, dequeueTask_tasks, setState, modify_tasks]

theorem hasState_schedBlock (s : Runqueues) (p : Pid) (state : TaskState) (t : Pid) (x : TaskState) :
    (s.schedBlock p state).hasState t x = if t = p then (s.tasks p).isSome && state == x else s.hasState t x := by
  unfold hasState
  rw [schedBlock_tasks]
  split_ifs
  · cases s.tasks p <;> simp
  · rfl

@[simp] theorem schedBlock_nextPid (s : Runqueues) (p : Pid) (state : TaskState) :
    (s.schedBlock p state).nextPid = s.nextPid := by
  rw [schedBlock, dequeueTask_nextPid]
  rfl

theorem freeTask_tasks (s : Runqueues) (z t : Pid) : (s.freeTask z).tasks t = if t = z then none else s.tasks t := by
  simp [freeTask, Function.update_apply]

@[simp] theorem freeTask_nextPid (s : Runqueues) (z : Pid) : (s.freeTask z).nextPid = s.nextPid := by simp [freeTask]

variable (h : Inv True (fun _ _ => False) none s)
include h

theorem stirs_migrateTask {cpu : Nat} (hs : s.migrateTask t cpu = some s') :
    Stirs (fun _ => False) s s' := by
  have hlinked := h.keepsLinked hs
  obtain rfl | ⟨task, old, new, -, -, -, -, -, rfl⟩ := h.migrateTask_cases hs
  · exact .refl _ s'
  · exact { stirs_setCpu (fun _ => False) s t new with linked := fun u hu => (hlinked u).trans hu }

theorem stirs_tryPullTask (me : Cpu) :
    Stirs (fun _ => False) s (s.tryPullTask me).2 := by
  obtain heq | ⟨b, t, hm, -, -⟩ := h.tryPullTask_cases me
  · rw [heq]
    exact .refl _ s
  · exact stirs_migrateTask h hm

theorem stirs_schedule (hs : s.schedule me = some s') :
    Stirs (fun _ => False) s s' := by
  have hpull := stirs_tryPullTask h me
  unfold schedule at hs
  split at hs
  · cases hs
  · cases hs
    exact { Stirs.refl (fun _ => False) s with }
  · split at hs
    · next s1 heq =>
      rw [heq] at hpull
      cases hs
      exact { hpull with }
    · next s1 heq =>
      rw [heq] at hpull
      obtain ⟨next, -, rfl⟩ := Option.map_eq_some_iff.1 hs
      exact { hpull with }

/-- `schedule` makes a task of this CPU's queue current, or none. -/
theorem schedule_curr (hs : s.schedule me = some s') :
    ∃ next, s'.curr = Function.update s.curr me next ∧ ∀ t, next = some t → t ∈ s'.rqTasks me := by
  unfold schedule at hs
  split at hs
  · cases hs
  · next next hpick =>
    cases hs
    refine ⟨some next, rfl, ?_⟩
    rintro t ⟨⟩
    exact h.mem_of_pick trivial hpick
  · have hpull := h.tryPullTask (fun _ _ => id) me
    have hcurr : (s.tryPullTask me).2.curr = s.curr := by
      obtain heq | ⟨b, t, hm, -, -⟩ := h.tryPullTask_cases me
      · rw [heq]
      · exact migrateTask_curr hm
    split at hs
    · next s1 heq =>
      rw [heq] at hcurr
      cases hs
      exact ⟨none, by rw [hcurr], by simp⟩
    · next s1 heq =>
      rw [heq] at hcurr hpull
      obtain ⟨next, hpick, rfl⟩ := Option.map_eq_some_iff.1 hs
      refine ⟨next, by dsimp only; rw [hcurr], ?_⟩
      rintro t rfl
      exact hpull.mem_of_pick trivial hpick

end Runqueues

end MiniOs.Sched
