/-
A zombie's memory and the CPU that still stands on it. A zombie that has left its CPU, and that no late wake-up
is about to bring back, is chosen by nobody: it may be freed. `find_child` looks at the state alone, so that
`free_task` may come before the exiting task's own switch, or take the memory of a task that runs again.
-/
import MiniOs.Proofs.Sched.Stir

namespace MiniOs.Sched

open Library

/-! ## What the other operations carry over -/

namespace Runqueues

variable {s s' s'' : Runqueues} {p t : Pid} {me : Cpu}

/-- Nobody is freed or changes parents, and zombies neither come nor go. -/
structure Carries (s s' : Runqueues) : Prop where
  parent : ∀ t p, (s.tasks t).bind Task.parent = some p → (s'.tasks t).bind Task.parent = some p
  zombie : ∀ t, s'.hasState t .zombie = s.hasState t .zombie
  dead : ∀ t, s'.hasState t .dead = s.hasState t .dead

theorem Carries.refl (s : Runqueues) : Carries s s := ⟨fun _ _ => id, fun _ => rfl, fun _ => rfl⟩

theorem Carries.trans (h : Carries s s') (h' : Carries s' s'') : Carries s s'' where
  parent t p hp := h'.parent t p (h.parent t p hp)
  zombie t := (h'.zombie t).trans (h.zombie t)
  dead t := (h'.dead t).trans (h.dead t)

theorem Stirs.carries {wakes : Pid → Prop} (h : Stirs wakes s s') : Carries s s' where
  parent t _ hp := (h.parent t).trans hp
  zombie := h.hasState_zombie
  dead := h.hasState_dead

theorem wakeable_of_not (hzombie : s.hasState t .zombie = false) (hdead : s.hasState t .dead = false) :
    Wakeable (fun _ => True) s t := by
  intro task htask
  refine ⟨?_, ?_, fun _ => trivial⟩
  · simpa [hasState, htask] using hzombie
  · simpa [hasState, htask] using hdead

theorem parent_schedBlock (s : Runqueues) (p t : Pid) (state : TaskState) :
    ((s.schedBlock p state).tasks t).bind Task.parent = (s.tasks t).bind Task.parent := by
  rw [schedBlock_tasks]
  split_ifs with ht
  · rw [ht]
    cases s.tasks p <;> rfl
  · rfl

theorem carries_schedBlock {state : TaskState} (hstate : state = .sleeping ∨ state = .stopped)
    (hzombie : s.hasState p .zombie = false) (hdead : s.hasState p .dead = false) :
      Carries s (s.schedBlock p state) where
  parent t q hq := (parent_schedBlock s p t state).trans hq
  zombie t := by
    rw [hasState_schedBlock]
    split_ifs with ht
    · rcases hstate with rfl | rfl <;> simp [ht, hzombie]
    · rfl
  dead t := by
    rw [hasState_schedBlock]
    split_ifs with ht
    · rcases hstate with rfl | rfl <;> simp [ht, hdead]
    · rfl

theorem carries_newTask {task : Task} (hfresh : s.tasks s.nextPid = none) (hzombie : task.state ≠ .zombie)
    (hdead : task.state ≠ .dead) : Carries s (s.newTask task) := by
  have hother : ∀ t, t ≠ s.nextPid → (s.newTask task).tasks t = s.tasks t := by
    intro t ht
    simp [newTask, ht]
  have hstate : ∀ state, task.state ≠ state → ∀ t, (s.newTask task).hasState t state = s.hasState t state := by
    intro state hne t
    by_cases ht : t = s.nextPid
    · subst ht
      simp [hasState, newTask, hfresh, hne]
    · rw [hasState, hother t ht, hasState]
  refine ⟨?_, hstate .zombie hzombie, hstate .dead hdead⟩
  intro t p hp
  rw [hother]
  · exact hp
  · rintro rfl
    simp [hfresh] at hp

theorem carries_enqueueTask (hzombie : s.hasState t .zombie = false) (hdead : s.hasState t .dead = false) (me : Cpu) :
    Carries s (s.enqueueTask me t) :=
  (stirs_enqueueTask (wakeable_of_not hzombie hdead) me).carries

/-- Only `t` changes, and if its state does then to `TASK_RUNNING`. -/
structure Raises (t : Pid) (s s' : Runqueues) : Prop where
  parent : ∀ u, (s'.tasks u).bind Task.parent = (s.tasks u).bind Task.parent
  state : ∀ state, state ≠ .running → s'.hasState t state = true → s.hasState t state = true
  other : ∀ u state, u ≠ t → s'.hasState u state = s.hasState u state

theorem Raises.refl (t : Pid) (s : Runqueues) : Raises t s s := ⟨fun _ => rfl, fun _ _ => id, fun _ _ _ => rfl⟩

theorem raises_modify {f : Task → Task} (hparent : ∀ task, (f task).parent = task.parent)
    (hstate : ∀ task, (f task).state = task.state ∨ (f task).state = .running) : Raises t s (s.modify t f) where
  parent u := by
    rw [modify_tasks]
    split_ifs with hu
    · rw [hu]
      cases s.tasks t <;> simp [hparent]
    · rfl
  state state hne ht := by
    obtain ⟨task', htask', rfl⟩ := hasState_iff.1 ht
    rw [modify_tasks, if_pos rfl] at htask'
    obtain ⟨task, htask, rfl⟩ := Option.map_eq_some_iff.1 htask'
    exact hasState_iff.2 ⟨task, htask, ((hstate task).resolve_right hne).symm⟩
  other u state hu := by rw [hasState, modify_tasks, if_neg hu, hasState]

theorem raises_enqueueTaskCpu (s : Runqueues) (t : Pid) (cpu : Nat) : Raises t s (s.enqueueTaskCpu t cpu) := by
  unfold enqueueTaskCpu enqueueTaskLocked
  split_ifs with hcpu hlinked
  · exact .refl t s
  · obtain ⟨hparent, hstate, hother⟩ :
      Raises t s (s.modify t fun task => { task with state := .running, cpu := cpu }) :=
      raises_modify (fun _ => rfl) fun _ => .inr rfl
    exact ⟨hparent, hstate, hother⟩
  · exact .refl t s

theorem raises_readCpu {q : Nat × Runqueues} (hs : s.readCpu me t = some q) : Raises t s q.2 := by
  obtain ⟨task, htask, rfl⟩ := Option.map_eq_some_iff.1 hs
  split_ifs
  · exact raises_modify (fun _ => rfl) fun _ => .inl rfl
  · exact .refl t s

/-- What the task of an operation has to be for the operation to carry zombies over. -/
def Benign (s : Runqueues) : Act → Prop
  | .doExit _ | .freeTask _ => False
  | .schedBlock me state => (state = .sleeping ∨ state = .stopped) ∧ ∀ p, s.curr me = some p →
    s.hasState p .zombie = false
  | .prepareToWait me | .finishWait me | .signalStop me => ∀ p, s.curr me = some p → s.hasState p .zombie = false
  | .wakeUpProcess _ t | .enqueueTask _ t => s.hasState t .zombie = false
  | _ => True

theorem carries_onTask {f : Runqueues} (hf : Carries s f) (hs : s.onTask t f = some s') : Carries s s' := by
  unfold onTask at hs
  split_ifs at hs
  cases hs
  exact hf

theorem carries_onCurrent {f : Pid → Runqueues} (hf : ∀ p, s.curr me = some p → Carries s (f p))
    (hs : s.onCurrent me f = some s') : Carries s s' := by
  obtain ⟨p, hp, rfl⟩ := Option.map_eq_some_iff.1 hs
  exact hf p hp

theorem carries_step {a : Act} (hfresh : s.tasks s.nextPid = none) (hdead : ∀ t, s.hasState t .dead = false)
    (hlocal : a.isLocal = true) (hbenign : s.Benign a) (hs : s.step a = some s') : Carries s s' := by
  cases a with
  | kernelThread cpu =>
    cases hs
    exact carries_newTask hfresh (by simp) (by simp)
  | fork me cpu =>
    refine carries_onCurrent (fun p _ => ?_) hs
    have hnew : Carries s (s.newTask ⟨.running, cpu, some p, 0, ((s.tasks p).map Task.blocked).getD 0⟩) :=
      carries_newTask hfresh (by simp) (by simp)
    refine hnew.trans (carries_enqueueTask ?_ ?_ me)
    · simp [hasState, newTask]
    · simp [hasState, newTask]
  | wakeUpProcess me t => exact carries_onTask (stirs_wakeUpProcess (wakeable_of_not hbenign (hdead t)) me).carries hs
  | enqueueTask me t => exact carries_onTask (carries_enqueueTask hbenign (hdead t) me) hs
  | dequeueTask t => exact carries_onTask ⟨by simp, by simp [hasState], by simp [hasState]⟩ hs
  | schedBlock me state =>
    exact carries_onCurrent (fun p hp => carries_schedBlock hbenign.1 (hbenign.2 p hp) (hdead p)) hs
  | prepareToWait me => exact carries_onCurrent (fun p hp => carries_schedBlock (.inl rfl) (hbenign p hp) (hdead p)) hs
  | finishWait me =>
    exact carries_onCurrent (fun p hp => (stirs_finishWait (wakeable_of_not (hbenign p hp) (hdead p)) me).carries) hs
  | wakeUp me waiters =>
    cases hs
    exact (stirs_wakeUp (fun _ => False) s me waiters).carries
  | signal me t sig => exact carries_onTask (stirs_signalQueue s me t sig).carries hs
  | signalStop me =>
    refine carries_onCurrent (fun p hp => ?_) hs
    have hnotify := (stirs_notifyParent s me p).carries
    refine hnotify.trans (carries_schedBlock (.inr rfl) ?_ ?_)
    · rw [hnotify.zombie, hbenign p hp]
    · rw [hnotify.dead, hdead]
  | doExit me => exact hbenign.elim
  | freeTask t => exact hbenign.elim
  | enqueueTaskCpu | migrateTask | tryPullTask | schedule => cases hlocal

end Runqueues

/-! ## What a step of `schedule` does -/

variable {queues : Runqueues}

namespace Smp

variable {s s' : Smp} {me : Cpu} {t : Pid}

/-- A step of `schedule` on one CPU: it turns to a task that runs, or loads the one it turned to. Only the save
takes a task out of the registers. -/
structure Moves (me : Cpu) (saves : Prop) (s s' : Smp) : Prop where
  carries : s.queues.Carries s'.queues
  pc : ∀ c, c ≠ me → s'.pc c = s.pc c
  executing : ∀ c, c ≠ me → s'.executing c = s.executing c
  next : ∀ t, (s'.pc me).next = some t → (s.pc me).next = some t ∨ s.queues.hasState t .running = true
  registers : ∀ t, s'.executing me = some t → s.executing me = some t ∨ (s.pc me).next = some t
  kept : ¬ saves → ∀ t, s.executing me = some t → s'.executing me = some t
  late : s'.late = s.late

theorem moves_goto {saves : Prop} {pc : Pc}
    (hnext : ∀ t, pc.next = some t → (s.pc me).next = some t ∨ s.queues.hasState t .running = true) :
    Moves me saves s (s.goto me pc) where
  carries := .refl _
  pc c hc := by simp [goto, hc]
  executing _ _ := rfl
  next t ht := hnext t (by simpa [goto] using ht)
  registers _ := Or.inl
  kept _ _ := id
  late := rfl

theorem running_of_pick (h : s.Inv) (hpick : s.queues.pickNextTask me (s.queues.curr me) = some (some t)) :
    s.queues.hasState t .running = true := by
  obtain ⟨task, htask, -, hrun⟩ := h.queues.onCpu me t (h.queues.mem_of_pick trivial hpick)
  exact Runqueues.hasState_iff.2 ⟨task, htask, hrun (by simp)⟩

theorem carries_migrateTask (h : s.Inv) (hm : s.queues.migrateTask t me = some queues) :
    s.queues.Carries queues := by
  have hfree : s.queues.Inv True (fun _ _ => False) none := h.queues.reown fun _ _ hf => hf.elim
  exact (Runqueues.stirs_migrateTask hfree hm).carries

theorem moves_step {a : Act} (h : s.Inv) (ha : Reaping.schedules a = some me) (hs : s.step a = some s') :
    Moves me (a = .save me) s s' := by
  cases shift_of_step ha hs with
  | goto hbefore hafter hnext => exact moves_goto fun t ht => Or.inr (running_of_pick h (hnext t ht))
  | migrate ha hpc hm =>
    have hgoto : Moves me (a = .save me) s (s.goto me .repick) := moves_goto (by simp [Pc.next])
    exact { hgoto with carries := carries_migrateTask h hm }
  | @setCurrent next hpc =>
    have hgoto : Moves me (a = .save me) s (s.goto me (.save (s.queues.curr me) next)) :=
      moves_goto fun t ht => Or.inl (by rw [hpc]; exact ht)
    exact { hgoto with carries := ⟨fun _ _ => id, fun _ => rfl, fun _ => rfl⟩ }
  | @save prev next ha hpc =>
    have hgoto : Moves me (a = .save me) s (s.goto me (.load next)) := moves_goto fun t ht =>
      Or.inl (by rw [hpc]; exact ht)
    exact { hgoto with
      executing := fun d hd => by simp [hd]
      registers := fun t ht => by simp at ht
      kept := fun hne => absurd ha hne }
  | load hpc =>
    have hholds := h.holds me
    simp only [Holds, hpc] at hholds
    have hgoto : Moves me (a = .save me) s (s.goto me .run) := moves_goto (by simp [Pc.next])
    exact { hgoto with
      executing := fun d hd => by simp [hd]
      registers := fun t ht => Or.inr (by simpa [hpc, Pc.next] using ht)
      kept := fun _ t ht => by simp [hholds.1] at ht }

theorem executing_save (hs : s.step (.save me) = some s') : s'.executing me = none := by
  simp only [step] at hs
  split at hs
  · cases hs
    simp
  · cases hs

end Smp

/-! ## Zombies on their way out -/

namespace Reaping

variable {s s' : Reaping} {c d me : Cpu} {z p t : Pid} {a : Act}

/-- A zombie that stays one: no CPU has it or is on its way to it, and no wake-up of it is under way. -/
def Gone (s : Reaping) (z : Pid) : Prop :=
  s.smp.queues.hasState z .zombie = true ∧ (∀ c, ¬ s.smp.Owns c z) ∧ z ∉ s.waking ∧ ∀ x ∈ s.smp.late, x.1 ≠ z

/-- A zombie is in a CPU's registers only inside of its `do_exit`, and is nobody's next task; whoever reaps one is its
parent, and the zombie is gone. -/
structure Inv (s : Reaping) : Prop where
  smp : s.smp.Inv
  undead : ∀ t, s.smp.queues.hasState t .dead = false
  exits : ∀ c z stage, s.exiting c = some (z, stage) → s.smp.executing c = some z
  inCall : ∀ c z stage, s.exiting c = some (z, stage) → stage ≠ .told → s.smp.pc c = .run
  zombies : ∀ c z, s.smp.queues.hasState z .zombie = true → s.smp.executing c = some z → ∃ stage,
    s.exiting c = some (z, stage)
  chosen : ∀ c t, (s.smp.pc c).next = some t → s.smp.queues.hasState t .zombie = false
  reaper : ∀ c z stage, s.freeing c = some (z, stage) →
    s.smp.pc c = .run ∧ ∃ p, s.smp.executing c = some p ∧ (s.smp.queues.tasks z).bind Task.parent = some p
  found : ∀ c z stage, s.freeing c = some (z, stage) → s.Gone z

theorem init_inv : init.Inv where
  smp := Smp.init_inv
  undead _ := rfl
  exits _ _ _ h := by cases h
  inCall _ _ _ h := by cases h
  zombies _ _ h := by cases h
  chosen _ _ h := by cases h
  reaper _ _ _ h := by cases h
  found _ _ _ h := by cases h

theorem runner_some (h : s.Inv) (hp : s.runner me = some p) :
    s.smp.pc me = .run ∧ s.exiting me = none ∧ s.freeing me = none ∧ s.smp.executing me = some p := by
  unfold runner at hp
  split at hp
  · next hpc =>
    split_ifs at hp with hbusy
    have hex : s.smp.executing me = s.smp.queues.curr me := by simpa [Smp.Holds, hpc] using h.smp.holds me
    rw [busy, Bool.or_eq_true, not_or] at hbusy
    exact ⟨hpc, by simpa using hbusy.1, by simpa using hbusy.2, hex.trans hp⟩
  · cases hp

theorem stepSmp_schedules {b : Smp.Act} (hb : schedules b = some me) (hs : s.stepSmp b = some s') :
    s.maySchedule me = true ∧ ∃ smp exiting, s.smp.step b = some smp ∧ s' = { s with smp := smp, exiting := exiting } ∧
      (∀ c, c ≠ me → exiting c = s.exiting c) ∧ (b = .save me → exiting me = none) ∧
      (b ≠ .save me → exiting me = s.exiting me) := by
  cases b with
  | op | readCpu | enqueue => cases hb
  | save c =>
    cases hb
    simp only [stepSmp] at hs
    split_ifs at hs with hmay
    obtain ⟨smp, hstep, rfl⟩ := Option.map_eq_some_iff.1 hs
    exact ⟨hmay, smp, _, hstep, rfl, fun d hd => by simp [hd], fun _ => by simp, fun hne => absurd rfl hne⟩
  | _ =>
    cases hb
    simp only [stepSmp] at hs
    split_ifs at hs with hmay
    obtain ⟨smp, hstep, rfl⟩ := Option.map_eq_some_iff.1 hs
    exact ⟨hmay, smp, _, hstep, rfl, fun _ _ => rfl, nofun, fun _ => rfl⟩

namespace Inv

variable (h : s.Inv)
include h

/-- A change of the queues by which nobody becomes a zombie and what is being reaped stays gone. -/
theorem change {late : List (Pid × Nat)} {waking : List Pid} {freeing : Cpu → Option (Pid × FreeStage)}
    (hqueues : queues.Inv True s.smp.Owns none) (hcurr : queues.curr = s.smp.queues.curr)
    (hstate : ∀ u state, state = .zombie ∨ state = .dead → queues.hasState u state = true →
      s.smp.queues.hasState u state = true)
    (hfreeing : ∀ c z stage, freeing c = some (z, stage) → s.freeing c = some (z, stage) ∧
      (∀ p, (s.smp.queues.tasks z).bind Task.parent = some p → (queues.tasks z).bind Task.parent = some p) ∧
      queues.hasState z .zombie = s.smp.queues.hasState z .zombie ∧ z ∉ waking ∧ ∀ x ∈ late, x.1 ≠ z) :
    Inv { s with smp := { s.smp with queues := queues, late := late }, waking := waking, freeing := freeing } where
  smp := (h.smp.setQueues hqueues hcurr).setLate late
  undead u := Bool.eq_false_iff.2 fun hu => Bool.eq_false_iff.1 (h.undead u) (hstate u .dead (.inr rfl) hu)
  exits := h.exits
  inCall := h.inCall
  zombies c z hz := h.zombies c z (hstate z .zombie (.inl rfl) hz)
  chosen c u hc := Bool.eq_false_iff.2 fun hu => Bool.eq_false_iff.1 (h.chosen c u hc) (hstate u .zombie (.inl rfl) hu)
  reaper c z stage hc := by
    obtain ⟨hc, hsame, -⟩ := hfreeing c z stage hc
    obtain ⟨hpc, p, hp, hparent⟩ := h.reaper c z stage hc
    exact ⟨hpc, p, hp, hsame p hparent⟩
  found c z stage hc := by
    obtain ⟨hc, -, hsame, hleft⟩ := hfreeing c z stage hc
    obtain ⟨hzombie, hunowned, -⟩ := h.found c z stage hc
    exact ⟨hsame.trans hzombie, hunowned, hleft⟩

theorem carry (hqueues : queues.Inv True s.smp.Owns none)
    (hcurr : queues.curr = s.smp.queues.curr) (hcarries : s.smp.queues.Carries queues) : (s.setQueues queues).Inv := by
  refine h.change hqueues hcurr ?_ fun c z stage hc => ?_
  · rintro u _ (rfl | rfl) hu
    · rwa [← hcarries.zombie]
    · rwa [← hcarries.dead]
  · exact ⟨hc, hcarries.parent z, hcarries.zombie z, (h.found c z stage hc).2.2⟩

/-- A step of a late wake-up of `t`; nobody reaps `t` yet. -/
theorem raise {late : List (Pid × Nat)} {waking : List Pid}
    (hqueues : queues.Inv True s.smp.Owns none) (hcurr : queues.curr = s.smp.queues.curr)
    (hraises : s.smp.queues.Raises t queues) (ht : t ∈ s.waking ∨ ∃ x ∈ s.smp.late, x.1 = t)
    (hlate : ∀ x ∈ late, x ∈ s.smp.late ∨ x.1 = t) (hwaking : ∀ u ∈ waking, u ∈ s.waking) :
    Inv { s with smp := { s.smp with queues := queues, late := late }, waking := waking } := by
  refine h.change hqueues hcurr (fun u state hstate hu => ?_) fun c z stage hc => ?_
  · by_cases hut : u = t
    · subst hut
      exact hraises.state state (by rcases hstate with rfl | rfl <;> simp) hu
    · rwa [← hraises.other u state hut]
  · obtain ⟨-, -, huntested, hunread⟩ := h.found c z stage hc
    have hne : z ≠ t := by
      rintro rfl
      rcases ht with ht | ⟨x, hx, hxt⟩
      · exact huntested ht
      · exact hunread x hx hxt
    refine ⟨hc, fun p hp => (hraises.parent z).trans hp, hraises.other z .zombie hne, fun hz =>
      huntested (hwaking z hz), fun x hx => ?_⟩
    rcases hlate x hx with hx | hxt
    · exact hunread x hx
    · rw [hxt]
      exact hne.symm

theorem setExiting {stage : ExitStage} (hex : s.smp.executing me = some z) (hrun : stage ≠ .told → s.smp.pc me = .run) :
    (s.setExiting me (some (z, stage))).Inv where
  smp := h.smp
  undead := h.undead
  chosen := h.chosen
  reaper := h.reaper
  exits c t x hc := by
    by_cases hme : c = me
    · subst hme
      have heq : z = t ∧ stage = x := by simpa [Reaping.setExiting] using hc
      exact heq.1 ▸ hex
    · exact h.exits c t x (by simpa [Reaping.setExiting, hme] using hc)
  inCall c t x hc := by
    by_cases hme : c = me
    · subst hme
      have heq : z = t ∧ stage = x := by simpa [Reaping.setExiting] using hc
      exact heq.2 ▸ hrun
    · exact h.inCall c t x (by simpa [Reaping.setExiting, hme] using hc)
  zombies c t ht hc := by
    by_cases hme : c = me
    · subst hme
      have heq : z = t := by simpa using hex.symm.trans hc
      exact ⟨stage, by simp [Reaping.setExiting, heq]⟩
    · obtain ⟨x, hx⟩ := h.zombies c t ht hc
      exact ⟨x, by simpa [Reaping.setExiting, hme] using hx⟩
  found := h.found

theorem setFreeing {x : Option (Pid × FreeStage)}
    (hx : ∀ z stage, x = some (z, stage) → s.smp.pc me = .run ∧
      (∃ p, s.smp.executing me = some p ∧ (s.smp.queues.tasks z).bind Task.parent = some p) ∧ s.Gone z) :
    (s.setFreeing me x).Inv where
  smp := h.smp
  undead := h.undead
  exits := h.exits
  inCall := h.inCall
  zombies := h.zombies
  chosen := h.chosen
  reaper c z stage hc := by
    by_cases hme : c = me
    · subst hme
      obtain ⟨hpc, hp, -⟩ := hx z stage (by simpa [Reaping.setFreeing] using hc)
      exact ⟨hpc, hp⟩
    · exact h.reaper c z stage (by simpa [Reaping.setFreeing, hme] using hc)
  found c z stage hc := by
    by_cases hme : c = me
    · subst hme
      exact (hx z stage (by simpa [Reaping.setFreeing] using hc)).2.2
    · exact h.found c z stage (by simpa [Reaping.setFreeing, hme] using hc)

theorem nextStage {stage stage' : FreeStage} (hme : s.freeing me = some (z, stage)) :
    (s.setFreeing me (some (z, stage'))).Inv := by
  obtain ⟨hpc, hp⟩ := h.reaper me z stage hme
  refine h.setFreeing ?_
  rintro _ _ ⟨⟩
  exact ⟨hpc, hp, h.found me z stage hme⟩

/-- The exiting task leaves its queue; only its own CPU has it. -/
theorem leaveQueue (hme : s.exiting me = some (z, .marked)) :
    (s.setQueues (s.smp.queues.schedBlock z .zombie)).Inv := by
  have hex := h.exits me z .marked hme
  have halone : ∀ c, s.smp.Owns c z → c = me := fun c hc => h.smp.alone c me z hc (Or.inl hex)
  have hstate : ∀ t, t ≠ z → (s.smp.queues.schedBlock z .zombie).hasState t .zombie =
    s.smp.queues.hasState t .zombie := by
    intro t ht
    rw [Runqueues.hasState_schedBlock, if_neg ht]
  refine ⟨h.smp.setQueues (h.smp.queues.schedBlock z .zombie) (by simp), ?_, h.exits, h.inCall, ?_, ?_, ?_, ?_⟩
  · intro t
    show (s.smp.queues.schedBlock z .zombie).hasState t .dead = false
    rw [Runqueues.hasState_schedBlock]
    split_ifs
    · simp
    · exact h.undead t
  · intro c t ht hc
    by_cases heq : t = z
    · subst heq
      exact ⟨.marked, halone c (Or.inl hc) ▸ hme⟩
    · exact h.zombies c t ((hstate t heq).symm.trans ht) hc
  · intro c t ht
    by_cases heq : t = z
    · subst heq
      have hrun := h.inCall me t .marked hme (by simp)
      rw [← halone c (Or.inr ht)] at hrun
      have hpc : (s.smp.pc c).next = some t := ht
      simp [hrun, Pc.next] at hpc
    · exact (hstate t heq).trans (h.chosen c t ht)
  · intro c t stage hc
    obtain ⟨hpc, p, hp, hparent⟩ := h.reaper c t stage hc
    exact ⟨hpc, p, hp, (Runqueues.parent_schedBlock _ _ _ _).trans hparent⟩
  · intro c t stage hc
    have hgone := h.found c t stage hc
    have hne : t ≠ z := by
      rintro rfl
      exact hgone.2.1 me (Or.inl hex)
    exact ⟨(hstate t hne).trans hgone.1, hgone.2⟩

/-- Two CPUs do not reap one task: both would run its parent. -/
theorem eq_of_freeing {x y : FreeStage} (hc : s.freeing c = some (z, x)) (hd : s.freeing d = some (z, y)) :
    c = d := by
  obtain ⟨-, p, hp, hparent⟩ := h.reaper c z x hc
  obtain ⟨-, q, hq, hparent'⟩ := h.reaper d z y hd
  have heq : p = q := Option.mem_unique hparent hparent'
  exact h.smp.alone c d p (Or.inl hp) (Or.inl (heq ▸ hq))

theorem free (hme : s.freeing me = some (z, .detached)) :
    ((s.setQueues (s.smp.queues.freeTask z)).setFreeing me none).Inv := by
  have hcurr : (s.smp.queues.freeTask z).curr = s.smp.queues.curr := by simp [Runqueues.freeTask]
  refine h.change (h.smp.queues.freeTask z) hcurr (fun t state _ ht => ?_) fun c t stage hc => ?_
  · rw [Runqueues.hasState, Runqueues.freeTask_tasks] at ht
    split_ifs at ht
    · simp at ht
    · exact ht
  · have hne : c ≠ me := by
      rintro rfl
      simp at hc
    have hreaps : s.freeing c = some (t, stage) := by simpa [hne, Reaping.setQueues] using hc
    have hother : t ≠ z := by
      rintro rfl
      exact hne (h.eq_of_freeing hreaps hme)
    have htask : (s.smp.queues.freeTask z).tasks t = s.smp.queues.tasks t :=
      by rw [Runqueues.freeTask_tasks, if_neg hother]
    exact ⟨hreaps, by simp [htask], by rw [Runqueues.hasState, htask, Runqueues.hasState],
      (h.found c t stage hreaps).2.2⟩

/-- Whoever makes a call of its own is no zombie. -/
theorem not_zombie_of_curr (hpc : s.smp.pc me = .run) (hbusy : s.busy me = false)
    (hp : s.smp.queues.curr me = some p) : s.smp.queues.hasState p .zombie = false := by
  have hex : s.smp.executing me = s.smp.queues.curr me := by simpa [Smp.Holds, hpc] using h.smp.holds me
  rw [Bool.eq_false_iff]
  intro hz
  obtain ⟨stage, hstage⟩ := h.zombies me p hz (hex.trans hp)
  simp [busy, hstage] at hbusy

theorem benign {b : Runqueues.Act} (hb : s.lawful b = true)
    (hrun : (b.cpu.all fun me => s.smp.pc me matches .run) = true) : s.smp.queues.Benign b := by
  have hpc : ∀ me, b.cpu = some me → s.smp.pc me = .run := by
    intro me hme
    simp only [hme, Option.all_some] at hrun
    split at hrun
    · assumption
    · cases hrun
  obtain ⟨hown, hb⟩ := Bool.and_eq_true_iff.1 hb
  have hcurr : ∀ me, b.cpu = some me → ownCall b = true → ∀ p, s.smp.queues.curr me = some p →
      s.smp.queues.hasState p .zombie = false := by
    intro me hme hcall p hp
    exact h.not_zombie_of_curr (hpc me hme) (by simpa [hme, hcall] using hown) hp
  have hnot : ∀ t, ¬ s.isZombie t → s.smp.queues.hasState t .zombie = false :=
    fun t ht => Bool.eq_false_iff.2 fun hz => ht (Or.inl hz)
  cases b with
  | schedBlock me state => exact ⟨by simpa using hb, hcurr me rfl rfl⟩
  | prepareToWait me => exact hcurr me rfl rfl
  | finishWait me => exact hcurr me rfl rfl
  | signalStop me => exact hcurr me rfl rfl
  | wakeUpProcess me t => exact hnot t (by simpa using hb)
  | enqueueTask me t => exact hnot t (by simpa using hb)
  | doExit me => cases hb
  | freeTask t => cases hb
  | kernelThread | fork | enqueueTaskCpu | dequeueTask | wakeUp | signal | migrateTask | tryPullTask |
    schedule => trivial

theorem op {b : Runqueues.Act} (hs : s.stepSmp (.op b) = some s') : s'.Inv := by
  simp only [stepSmp] at hs
  split_ifs at hs with hb
  obtain ⟨smp, hstep, rfl⟩ := Option.map_eq_some_iff.1 hs
  simp only [Smp.step] at hstep
  split_ifs at hstep with hcond
  obtain ⟨queues, hq, rfl⟩ := Option.map_eq_some_iff.1 hstep
  obtain ⟨hlocal, hrun⟩ := Bool.and_eq_true_iff.1 hcond
  refine h.carry (h.smp.queues.stepLocal hlocal hq) (Runqueues.stepLocal_curr hlocal hq) ?_
  exact Runqueues.carries_step (h.smp.queues.fresh _ le_rfl) h.undead hlocal (h.benign hb hrun) hq

/-- A step of `schedule`; the save is where a zombie leaves its CPU. -/
theorem moves {smp : Smp} {exiting : Cpu → Option (Pid × ExitStage)} {saves : Prop} (hsmp : smp.Inv)
    (hmay : s.maySchedule me = true) (hmoves : Smp.Moves me saves s.smp smp)
    (hother : ∀ c, c ≠ me → exiting c = s.exiting c) (hsaves : saves → smp.executing me = none ∧ exiting me = none)
    (hkept : ¬ saves → exiting me = s.exiting me) : Inv { s with smp := smp, exiting := exiting } := by
  obtain ⟨hfreeing, hexiting⟩ := Bool.and_eq_true_iff.1 hmay
  have htold : ∀ z stage, s.exiting me = some (z, stage) → stage = .told := by
    intro z stage hz
    simpa [hz] using hexiting
  have hmine : ∀ x, exiting me = some x → ¬ saves ∧ s.exiting me = some x := by
    intro x hx
    have hns : ¬ saves := by
      intro hsv
      simp [(hsaves hsv).2] at hx
    exact ⟨hns, (hkept hns).symm.trans hx⟩
  have hreaper : ∀ c x, s.freeing c = some x → c ≠ me := by
    rintro c x hc rfl
    simp [hc] at hfreeing
  -- on every other CPU nothing has changed, so each field is split at `me`
  refine ⟨hsmp, ?_, ?_, ?_, ?_, ?_, ?_, ?_⟩
  · exact fun t => (hmoves.carries.dead t).trans (h.undead t)
  · intro c z stage hc
    by_cases hme : c = me
    · subst hme
      obtain ⟨hns, hz⟩ := hmine _ hc
      exact hmoves.kept hns z (h.exits c z stage hz)
    · exact (hmoves.executing c hme).trans (h.exits c z stage ((hother c hme).symm.trans hc))
  · intro c z stage hc hne
    by_cases hme : c = me
    · subst hme
      exact absurd (htold z stage (hmine _ hc).2) hne
    · exact (hmoves.pc c hme).trans (h.inCall c z stage ((hother c hme).symm.trans hc) hne)
  · intro c z hz hc
    have hz := (hmoves.carries.zombie z).symm.trans hz
    by_cases hme : c = me
    · subst hme
      have hns : ¬ saves := by
        intro hsv
        simp [(hsaves hsv).1] at hc
      rcases hmoves.registers z hc with hex | hnext
      · obtain ⟨stage, hstage⟩ := h.zombies c z hz hex
        exact ⟨stage, (hkept hns).trans hstage⟩
      · simp [h.chosen c z hnext] at hz
    · obtain ⟨stage, hstage⟩ := h.zombies c z hz ((hmoves.executing c hme).symm.trans hc)
      exact ⟨stage, (hother c hme).trans hstage⟩
  · intro c t ht
    refine (hmoves.carries.zombie t).trans ?_
    by_cases hme : c = me
    · subst hme
      rcases hmoves.next t ht with hnext | hrun
      · exact h.chosen c t hnext
      · exact Runqueues.hasState_of_ne hrun (by decide)
    · exact h.chosen c t (hmoves.pc c hme ▸ ht)
  · intro c z stage hc
    have hne := hreaper c _ hc
    obtain ⟨hpc, p, hp, hparent⟩ := h.reaper c z stage hc
    exact ⟨(hmoves.pc c hne).trans hpc, p, (hmoves.executing c hne).trans hp, hmoves.carries.parent z p hparent⟩
  · intro c z stage hc
    obtain ⟨hzombie, hunowned, huntested, hunread⟩ := h.found c z stage hc
    refine ⟨(hmoves.carries.zombie z).trans hzombie, fun d hd => ?_, huntested, hmoves.late ▸ hunread⟩
    by_cases hme : d = me
    · subst hme
      rcases hd with hex | hnext
      · exact hunowned d (hmoves.registers z hex)
      · rcases hmoves.next z hnext with hnext | hrun
        · exact hunowned d (Or.inr hnext)
        · simp [Runqueues.hasState_of_ne hrun] at hzombie
    · refine hunowned d ?_
      rwa [Smp.Owns, ← hmoves.executing d hme, ← hmoves.pc d hme]

theorem schedules {b : Smp.Act} (hb : Reaping.schedules b = some me) (hsettled : s.smp.settled b = true)
    (hs : s.stepSmp b = some s') : s'.Inv := by
  obtain ⟨hmay, smp, exiting, hstep, rfl, hother, hsave, hkept⟩ := stepSmp_schedules hb hs
  have hsmp : smp.Inv := h.smp.stepSettled (by rw [Smp.stepSettled, if_pos hsettled, hstep])
  refine h.moves hsmp hmay (Smp.moves_step h.smp hb hstep) hother ?_ hkept
  rintro rfl
  exact ⟨Smp.executing_save hstep, hsave rfl⟩

theorem readCpu (hs : s.stepSmp (.readCpu me t) = some s') : s'.Inv := by
  simp only [stepSmp, decide_eq_true_eq] at hs
  split_ifs at hs with ht
  obtain ⟨smp, hstep, rfl⟩ := Option.map_eq_some_iff.1 hs
  obtain ⟨q, hq, rfl⟩ := Option.map_eq_some_iff.1 hstep
  obtain ⟨hqueues, hcurr⟩ := Runqueues.readCpu_spec h.smp.queues hq
  refine h.raise hqueues hcurr (Runqueues.raises_readCpu hq) (Or.inl ht) (fun x hx => ?_) fun _ => List.mem_of_mem_erase
  rcases List.mem_cons.1 hx with rfl | hx
  · exact Or.inr rfl
  · exact Or.inl hx

theorem enqueue {cpu : Nat} (hsettled : s.smp.settled (.enqueue t cpu) = true)
    (hs : s.stepSmp (.enqueue t cpu) = some s') : s'.Inv := by
  obtain ⟨smp, hstep, rfl⟩ := Option.map_eq_some_iff.1 hs
  have hsmp := h.smp.enqueue hsettled hstep
  obtain ⟨hlate, -, rfl⟩ := Smp.enqueue_some hstep
  exact h.raise hsmp.queues (by simp) (Runqueues.raises_enqueueTaskCpu _ t cpu) (Or.inr ⟨_, hlate, rfl⟩)
    (fun _ hx => Or.inl (List.mem_of_mem_erase hx)) fun _ => id

/-- A zombie that has left its CPU stays where it is. -/
theorem gone_of_left (hz : s.isZombie z) (hleft : s.left z = true) : s.Gone z := by
  simp only [left, Bool.and_eq_true, decide_eq_true_eq, List.all_eq_true, bne_iff_ne] at hleft
  obtain ⟨⟨hsaved, huntested⟩, hunread⟩ := hleft
  have hidle : ∀ c, s.smp.executing c ≠ some z := by
    intro c hc
    have hunsaved := (h.smp.unsaved z).2 ⟨c, hc⟩
    rw [hsaved] at hunsaved
    cases hunsaved
  have hzombie : s.smp.queues.hasState z .zombie = true :=
    hz.resolve_right fun ⟨c, hc⟩ => hidle c (h.exits c z .marked hc)
  refine ⟨hzombie, ?_, huntested, hunread⟩
  rintro c (hex | hnext)
  · exact hidle c hex
  · rw [h.chosen c z hnext] at hzombie
    cases hzombie

theorem stepSettled (hs : s.stepSettled a = some s') : s'.Inv := by
  unfold Reaping.stepSettled at hs
  split_ifs at hs with hsettled
  cases a with
  | smp b =>
    cases hb : Reaping.schedules b with
    | none =>
      cases b with
      | op b => exact h.op hs
      | readCpu me t => exact h.readCpu hs
      | enqueue t cpu => exact h.enqueue hsettled hs
      | _ => cases hb
    | some me => exact h.schedules hb hsettled hs
  | test t =>
    simp only [step] at hs
    split_ifs at hs with ht
    cases hs
    refine { h with found := fun c z stage hc => ?_ }
    obtain ⟨hzombie, hunowned, huntested, hunread⟩ := h.found c z stage hc
    refine ⟨hzombie, hunowned, fun hz => (List.mem_cons.1 hz).elim ?_ huntested, hunread⟩
    rintro rfl
    simp [Runqueues.hasState_of_ne hzombie] at ht
  | resume t =>
    simp only [step] at hs
    split_ifs at hs with ht
    cases hs
    exact h.raise h.smp.queues.setRunning (by simp) (Runqueues.raises_modify (fun _ => rfl) fun _ => .inr rfl)
      (Or.inl ht) (fun _ => Or.inl) fun _ => id
  | mark me =>
    obtain ⟨z, hz, hs⟩ := Option.bind_eq_some_iff.1 hs
    split_ifs at hs
    cases hs
    obtain ⟨hpc, -, -, hex⟩ := runner_some h hz
    exact h.setExiting hex fun _ => hpc
  | leaveQueue me =>
    simp only [step] at hs
    split at hs
    · next z hz =>
      cases hs
      exact (h.leaveQueue hz).setExiting (h.exits me z _ hz) fun _ => h.inCall me z _ hz (by simp)
    · cases hs
  | notify me =>
    simp only [step] at hs
    split at hs
    · next z hz =>
      cases hs
      have hcarry := h.carry (h.smp.queues.notifyParent me z) (by simp) (Runqueues.stirs_notifyParent _ me z).carries
      exact hcarry.setExiting (h.exits me z _ hz) (by simp)
    · cases hs
  | find me z =>
    obtain ⟨p, hp, hs⟩ := Option.bind_eq_some_iff.1 hs
    split_ifs at hs with hz
    cases hs
    obtain ⟨hpc, -, -, hex⟩ := runner_some h hp
    refine h.setFreeing ?_
    rintro _ _ ⟨⟩
    -- the one step that needs the zombie to have left; later ones only keep it so
    exact ⟨hpc, ⟨p, hex, hz.2⟩, h.gone_of_left hz.1 hsettled⟩
  | freeDequeue me =>
    simp only [step] at hs
    split at hs
    · next z hz =>
      cases hs
      have hcarries : s.smp.queues.Carries (s.smp.queues.dequeueTask z) :=
        ⟨by simp, by simp [Runqueues.hasState], by simp [Runqueues.hasState]⟩
      exact (h.carry (h.smp.queues.dequeueTask (by simp)) (by simp) hcarries).nextStage hz
    · cases hs
  | detach me =>
    simp only [step] at hs
    split at hs
    · next z hz =>
      cases hs
      exact h.nextStage hz
    · cases hs
  | free me =>
    simp only [step] at hs
    split at hs
    · next z hz =>
      cases hs
      exact h.free hz
    · cases hs

theorem not_inUse (hz : s.Gone z) : ¬ s.InUse z := by
  rintro ⟨c, hc⟩
  exact hz.2.1 c (hc.elim h.smp.owns_of_curr Or.inl)

end Inv

/-- In every run in which no task is put on the queue of another CPU than its owner's, and in which `find_child` finds
a zombie only after its context was saved and when no wake-up of it is under way, `free_task` gives back the memory
of a task that no CPU uses any more. -/
theorem run_freesUnused {acts : List Act} (hrun : run stepSettled init acts = some s) (hfrees : s.frees a = some z) :
    ¬ s.InUse z := by
  have h : s.Inv := run_invariant (fun s a s' hs hstep => hs.stepSettled hstep) init_inv hrun
  obtain ⟨me, hme⟩ : ∃ me, s.freeing me = some (z, .detached) := by
    unfold frees at hfrees
    split at hfrees
    · next me =>
      split at hfrees
      · next hfreeing =>
        cases hfrees
        exact ⟨me, hfreeing⟩
      · cases hfrees
    · cases hfrees
  exact h.not_inUse (h.found me z _ hme)

/-- Thread 1 on CPU 0 and its child 2 on CPU 1. -/
def parentAndChild : List Act :=
  [.smp (.op (.kernelThread 0)), .smp (.op (.wakeUpProcess 0 1)), .smp (.pick 0), .smp (.setCurrent 0), .smp (.save 0),
    .smp (.load 0), .smp (.op (.fork 0 1)), .smp (.pick 1), .smp (.setCurrent 1), .smp (.save 1), .smp (.load 1)]

/-- The child's `do_exit` up to its `schedule`. -/
def childExits : List Act := [.mark 1, .leaveQueue 1, .notify 1]

/-- The child's last `schedule`, to the idle task. -/
def childLeaves : List Act :=
  [.smp (.pick 1), .smp (.destLoad 1), .smp (.readLoad 1), .smp (.readLoad 1), .smp (.readLoad 1), .smp (.readLoad 1),
    .smp (.readLoad 1), .smp (.setCurrent 1), .smp (.save 1)]

/-- The parent's `wait4` up to the release of the memory. -/
def parentReaps : List Act := [.find 0 2, .freeDequeue 0, .detach 0]

/-- The parent reaps the child after the child's CPU has left it. -/
theorem run_freesUnused_of_left :
    ∃ s, run stepSettled init (parentAndChild ++ childExits ++ childLeaves ++ parentReaps) = some s ∧
      s.frees (.free 0) = some 2 ∧ ¬ s.InUse 2 := by
  obtain ⟨s, hrun, hfrees⟩ : ∃ s,
      run stepSettled init (parentAndChild ++ childExits ++ childLeaves ++ parentReaps) = some s ∧
      s.frees (.free 0) = some 2 := ⟨_, rfl, by decide⟩
  exact ⟨s, hrun, hfrees, run_freesUnused hrun hfrees⟩

/-- `notify_parent` wakes the parent before the child has left its stack. -/
def earlyWait : List Act := parentAndChild ++ childExits ++ parentReaps

/-- Two wake-ups find the child asleep. After the first one it exits and leaves its CPU; the second one puts it back on
the queue while the parent is freeing it, and CPU 1 runs it again. -/
def lateWake : List Act :=
  parentAndChild ++ [.smp (.op (.schedBlock 1 .sleeping)), .test 2, .smp (.op (.wakeUpProcess 0 2))] ++ childExits ++
    childLeaves ++ [.smp (.load 1), .find 0 2, .freeDequeue 0, .smp (.readCpu 2 2), .smp (.enqueue 2 1), .smp (.pick 1),
      .smp (.setCurrent 1), .smp (.save 1), .smp (.load 1), .detach 0]

/-- On either way the parent frees the child while CPU 1 is on its stack. -/
theorem not_freesUnused_of_earlyWait :
    [earlyWait, lateWake].Forall fun acts => ∃ s, run step init acts = some s ∧
      s.frees (.free 0) = some 2 ∧ s.smp.queues.curr 1 = some 2 ∧ s.smp.executing 1 = some 2 ∧
      ∃ s', s.step (.free 0) = some s' ∧ s'.smp.queues.tasks 2 = none ∧ s'.smp.executing 1 = some 2 := by
  refine ⟨?_, ?_⟩
  · exact ⟨_, rfl, by decide, by decide, by decide, _, rfl, by decide, by decide⟩
  · exact ⟨_, rfl, by decide, by decide, by decide, _, rfl, by decide, by decide⟩

end Reaping

end MiniOs.Sched
