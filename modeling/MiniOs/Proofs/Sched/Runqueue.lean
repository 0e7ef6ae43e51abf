/-
Well-formed run queues. Four things say where a task is: its state, its `cpu`, the list its node is on
and the length kept in `nr_running`. They agree after every scheduler operation. Balancing keeps the set
of queued tasks; it leaves the current tasks alone as long as none of them is queued on a foreign CPU.
-/
import MiniOs.Sched.Runqueue
import MiniOs.Library.Run
import Mathlib.Data.List.Nodup

namespace MiniOs.Sched

open Library Function

namespace Runqueues

variable {s s' : Runqueues} {t u p : Pid} {c d me : Cpu} {x : Option Pid} {strict : Prop}
  {own own' : Cpu → Pid → Prop}

theorem modify_tasks (s : Runqueues) (t u : Pid) (f : Task → Task) :
    (s.modify t f).tasks u = if u = t then (s.tasks t).map f else s.tasks u := by
  unfold modify
  simp only [update_apply]

theorem linked_iff : s.linked t = true ↔ ∃ c, t ∈ s.rqTasks c := by
  simp [linked]

theorem linked_eq_false : s.linked t = false ↔ ∀ c, t ∉ s.rqTasks c := by
  simp [linked]

/-! ## The invariant -/

/-- The tasks that are bound to a CPU: those it owns, and with `strict` its current one. -/
def Bound (strict : Prop) (own : Cpu → Pid → Prop) (s : Runqueues) (c : Cpu) (t : Pid) : Prop :=
  own c t ∨ strict ∧ s.curr c = some t

/-- A task on a list is live, names that list's CPU, and runs unless it is the exempt task `x`, whose
state is about to follow. A task bound to a CPU names it. -/
structure Inv (strict : Prop) (own : Cpu → Pid → Prop) (x : Option Pid) (s : Runqueues) : Prop where
  once : ∀ c, (s.rqTasks c).Nodup
  onCpu : ∀ c t, t ∈ s.rqTasks c → ∃ task, s.tasks t = some task ∧ task.cpu = c ∧ (x ≠ some t → task.state = .running)
  counted : ∀ c, s.nrRunning c = (s.rqTasks c).length
  fresh : ∀ t, s.nextPid ≤ t → s.tasks t = none
  known : ∀ c t, s.Bound strict own c t → t < s.nextPid
  home : ∀ c t task, s.Bound strict own c t → s.tasks t = some task → task.cpu = c

theorem init_inv : Inv strict (fun _ _ => False) none init where
  once _ := List.nodup_nil
  onCpu _ _ h := by cases h
  counted _ := rfl
  fresh _ _ := rfl
  known _ _ h := by simp [Bound, init] at h
  home _ _ _ h := by simp [Bound, init] at h

variable {cpu : Nat}

namespace Inv

variable {task : Task}

section

variable (h : Inv strict own x s)
include h

theorem of_mem (htask : s.tasks t = some task) (hmem : t ∈ s.rqTasks c) :
    task.cpu = c ∧ (x ≠ some t → task.state = .running) := by
  obtain ⟨task', htask', hon⟩ := h.onCpu c t hmem
  rw [htask] at htask'
  cases htask'
  exact hon

theorem eq_cpu (htask : s.tasks t = some task) (hmem : t ∈ s.rqTasks c) : task.cpu = c :=
  (h.of_mem htask hmem).1

theorem eq_of_mem (hc : t ∈ s.rqTasks c) (hd : t ∈ s.rqTasks d) : c = d := by
  obtain ⟨task, htask, hcpu, -⟩ := h.onCpu c t hc
  exact Fin.ext (hcpu.symm.trans (h.eq_cpu htask hd))

/-- One task is updated: it has to fit the list it is on and the CPU it is bound to. -/
theorem retask {f : Task → Task} {x' : Option Pid} (hx : ∀ u, u ≠ t → x' ≠ some u → x ≠ some u)
    (hon : ∀ c task, s.tasks t = some task → t ∈ s.rqTasks c → (f task).cpu = c ∧
      (x' ≠ some t → (f task).state = .running))
    (hhome : ∀ c task, s.tasks t = some task → s.Bound strict own c t → (f task).cpu = c) :
    Inv strict own x' (s.modify t f) where
  once := h.once
  counted := h.counted
  known := h.known
  onCpu c u hu := by
    obtain ⟨task, htask, hc, hrun⟩ := h.onCpu c u hu
    rw [modify_tasks]
    split_ifs with hut
    · subst hut
      exact ⟨f task, by rw [htask]; rfl, hon c task htask hu⟩
    · exact ⟨task, htask, hc, fun hxu => hrun (hx u hut hxu)⟩
  fresh u hu := by
    rw [modify_tasks]
    split_ifs with hut
    · subst hut
      rw [h.fresh u hu]
      rfl
    · exact h.fresh u hu
  home c u task hbound htask := by
    rw [modify_tasks] at htask
    split_ifs at htask with hut
    · subst hut
      obtain ⟨old, hold, rfl⟩ := Option.map_eq_some_iff.1 htask
      exact hhome c old hold hbound
    · exact h.home c u task hbound htask

/-- An update of a task that keeps its `cpu` and does not stop it. -/
theorem modify {f : Task → Task} (hcpu : ∀ task, (f task).cpu = task.cpu)
    (hstate : ∀ task : Task, task.state = .running → (f task).state = .running) : Inv strict own x (s.modify t f) := by
  refine h.retask (fun _ _ hx => hx) (fun c task htask hmem => ?_) fun c task htask hbound => ?_
  · obtain ⟨hc, hrun⟩ := h.of_mem htask hmem
    exact ⟨(hcpu task).trans hc, fun hx => hstate task (hrun hx)⟩
  · exact (hcpu task).trans (h.home c t task hbound htask)

end

section

variable (h : Inv strict own none s)
include h

/-- Any state may be set as long as the task is taken off its list next. -/
theorem exempt (state : TaskState) : Inv strict own (some t) (s.setState t state) := by
  refine h.retask (fun _ _ _ => by simp) (fun c task htask hmem => ?_) fun c task htask hbound =>
    h.home c t task hbound htask
  have hc := h.eq_cpu htask hmem
  exact ⟨hc, fun hx => absurd rfl hx⟩

theorem setRunning : Inv strict own none (s.setState t .running) :=
  h.modify (fun _ => rfl) fun _ _ => rfl

/-- A task on no list and current nowhere may name any CPU. -/
theorem setCpu (hlinked : s.linked t = false) (hfree : ∀ c, ¬ s.Bound strict own c t)
    (cpu : Nat) : Inv strict own none (s.modify t fun task => { task with cpu := cpu }) :=
  h.retask (fun _ _ hx => hx) (fun c _ _ hmem => absurd hmem (linked_eq_false.1 hlinked c)) fun c _ _ hbound =>
    absurd hbound (hfree c)

/-! ## Linking and unlinking -/

section

variable (htask : s.tasks t = some task)
include htask

/-- A task on no list goes to the end of one. -/
theorem link {f : Task → Task} (hoff : ∀ d, t ∉ s.rqTasks d)
    (hcpu : (f task).cpu = c) (hrun : (f task).state = .running) (hhome : ∀ d, s.Bound strict own d t → d = c) :
    Inv strict own none { s.modify t f with
      rqTasks := update s.rqTasks c (s.rqTasks c ++ [t])
      nrRunning := update s.nrRunning c (s.nrRunning c + 1) } := by
  have hm : Inv strict own none (s.modify t f) := by
    refine h.retask (fun _ _ hx => hx) (fun d _ _ hd => absurd hd (hoff d)) fun d task' htask' hbound => ?_
    rw [htask] at htask'
    cases htask'
    rw [hcpu, hhome d hbound]
  refine ⟨fun d => ?_, fun d u hu => ?_, fun d => ?_, hm.fresh, hm.known, hm.home⟩
  · simp only [update_apply]
    split_ifs with hd
    · subst hd
      exact (h.once d).append (List.nodup_singleton t) (by simpa using hoff d)
    · exact h.once d
  · by_cases hut : u = t
    · subst hut
      have hd : d = c := by
        by_contra hne
        simp only [update_apply, if_neg hne] at hu
        exact hoff d hu
      exact ⟨f task, by simp [modify_tasks, htask], by rw [hcpu, hd], fun _ => hrun⟩
    · refine hm.onCpu d u ?_
      show u ∈ s.rqTasks d
      simp only [update_apply] at hu
      split_ifs at hu with hd
      · subst hd
        simpa [hut] using hu
      · exact hu
  · simp only [update_apply]
    split_ifs with hd
    · subst hd
      simp [h.counted d]
    · exact h.counted d

theorem enqueueTaskLocked
    (hhome : ∀ d, s.Bound strict own d t → d = c) : Inv strict own none (s.enqueueTaskLocked t c) := by
  unfold Runqueues.enqueueTaskLocked
  split_ifs with hlinked
  · exact h
  · exact h.link htask (linked_eq_false.1 (Bool.eq_false_iff.2 hlinked)) rfl rfl hhome

theorem enqueueTaskCpu
    (hhome : ∀ d : Cpu, s.Bound strict own d t → cpu = d) : Inv strict own none (s.enqueueTaskCpu t cpu) := by
  unfold Runqueues.enqueueTaskCpu
  split_ifs with hcpu
  · exact h.enqueueTaskLocked htask fun d hd => Fin.ext (hhome d hd).symm
  · exact h

/-- A task whose `cpu` is unset is on no list and bound to no CPU. -/
theorem loose (hcpu : nrCpus ≤ task.cpu) :
    s.linked t = false ∧ ∀ c, ¬ s.Bound strict own c t := by
  constructor
  · refine linked_eq_false.2 fun c hc => ?_
    have := h.eq_cpu htask hc
    omega
  · intro c hc
    have := h.home c t task hc htask
    omega

end

/-- `enqueue_task` needs no condition: a task bound to a CPU names it. -/
theorem enqueueTask (me : Cpu) (t : Pid) : Inv strict own none (s.enqueueTask me t) := by
  unfold Runqueues.enqueueTask
  cases htask : s.tasks t with
  | none => exact h
  | some task =>
    dsimp only
    split_ifs with hcpu
    · obtain ⟨hlinked, hfree⟩ := h.loose htask hcpu
      exact (h.setCpu hlinked hfree me).enqueueTaskCpu (by simp [modify_tasks, htask]; rfl) fun d hd =>
        absurd hd (hfree d)
    · exact h.enqueueTaskCpu htask fun d hd => h.home d t task hd htask

theorem wakeUpProcess (me : Cpu) (t : Pid) : Inv strict own none (s.wakeUpProcess me t) := by
  unfold Runqueues.wakeUpProcess
  split_ifs
  · exact h
  · exact h.enqueueTask me t

end

theorem erase_of_mem (h : Inv strict own x s) (hmem : t ∈ s.rqTasks c) (d : Cpu) :
    (s.rqTasks d).erase t = if d = c then (s.rqTasks c).erase t else s.rqTasks d := by
  split_ifs with hd
  · rw [hd]
  · exact List.erase_of_not_mem fun hd' => hd (h.eq_of_mem hd' hmem)

/-- The node leaves its list, and the counter it leaves is that list's. -/
theorem unlink (h : Inv strict own x s) (hx : ∀ u, x = some u → u = t) (hc : t ∈ s.rqTasks c) :
    Inv strict own none { s.listDelInit t with nrRunning := update s.nrRunning c (s.nrRunning c - 1) } := by
  refine ⟨fun d => (h.once d).erase t, fun d u hu => ?_, fun d => ?_, h.fresh, h.known, h.home⟩
  · have hut : u ≠ t := ((h.once d).mem_erase_iff.1 hu).1
    obtain ⟨task', htask', hcpu', hstate⟩ := h.onCpu d u (List.mem_of_mem_erase hu)
    exact ⟨task', htask', hcpu', fun _ => hstate fun hxu => hut (hx u hxu)⟩
  · show update s.nrRunning c (s.nrRunning c - 1) d = ((s.rqTasks d).erase t).length
    rw [h.erase_of_mem hc, update_apply]
    split_ifs with hd
    · rw [List.length_erase_of_mem hc, h.counted c]
    · exact h.counted d

/-- A live task that names its CPU is off every list after `dequeue_task`. -/
theorem dequeueTask_cases (h : Inv strict own x s) (t : Pid) : (s.dequeueTask t = s ∧ ∀ c, t ∉ s.rqTasks c) ∨
    ∃ c, t ∈ s.rqTasks c ∧
      s.dequeueTask t = { s.listDelInit t with nrRunning := update s.nrRunning c (s.nrRunning c - 1) } := by
  unfold Runqueues.dequeueTask
  cases htask : s.tasks t with
  | none =>
    refine Or.inl ⟨rfl, fun c hc => ?_⟩
    obtain ⟨task, htask', -⟩ := h.onCpu c t hc
    rw [htask] at htask'
    cases htask'
  | some task =>
    dsimp only
    split_ifs with hcpu
    · unfold dequeueTaskLocked
      split_ifs with hlinked
      · obtain ⟨c, hc⟩ := linked_iff.1 hlinked
        have hcpu' : (⟨task.cpu, hcpu⟩ : Cpu) = c := Fin.ext (h.eq_cpu htask hc)
        rw [hcpu']
        exact Or.inr ⟨c, hc, rfl⟩
      · exact Or.inl ⟨rfl, linked_eq_false.1 (Bool.eq_false_iff.2 hlinked)⟩
    · refine Or.inl ⟨rfl, fun c hc => hcpu ?_⟩
      rw [h.eq_cpu htask hc]
      exact c.isLt

theorem dequeueTask (h : Inv strict own x s) (hx : ∀ u, x = some u → u = t) :
    Inv strict own none (s.dequeueTask t) := by
  obtain ⟨heq, hoff⟩ | ⟨c, hc, heq⟩ := h.dequeueTask_cases t
  · rw [heq]
    refine { h with onCpu := fun c u hu => ?_ }
    obtain ⟨task, htask, hcpu, hstate⟩ := h.onCpu c u hu
    refine ⟨task, htask, hcpu, fun _ => hstate fun hxu => hoff c ?_⟩
    rwa [← hx u hxu]
  · rw [heq]
    exact h.unlink hx hc

theorem schedBlock (h : Inv strict own none s) (t : Pid) (state : TaskState) :
    Inv strict own none (s.schedBlock t state) :=
  (h.exempt state).dequeueTask fun _ hu => (Option.some.inj hu).symm

theorem finishWait (h : Inv strict own none s) (me : Cpu) (t : Pid) : Inv strict own none (s.finishWait me t) := by
  unfold Runqueues.finishWait
  split_ifs
  · exact h.setRunning
  · exact h.enqueueTask me t

theorem wakeUp (h : Inv strict own none s) (me : Cpu) (waiters : List Pid) :
    Inv strict own none (s.wakeUp me waiters) := by
  unfold Runqueues.wakeUp
  induction waiters generalizing s with
  | nil => exact h
  | cons t rest ih =>
    rw [List.foldl_cons]
    apply ih
    split_ifs
    · exact h.wakeUpProcess me t
    · exact h

/-! ## Signals, creation and exit -/

theorem signalQueueWith {notify : Runqueues → Runqueues}
    (hnotify : ∀ s, Inv strict own none s → Inv strict own none (notify s))
    (h : Inv strict own none s) (me : Cpu) (t : Pid) (sig : Nat) :
      Inv strict own none (signalQueueWith notify s me t sig) := by
  have hpend : Inv strict own none (s.modify t fun task => { task with pending := addPending task.pending sig }) :=
    h.modify (fun _ => rfl) fun _ hrun => hrun
  unfold Runqueues.signalQueueWith
  dsimp only
  split_ifs
  · exact h
  · exact (hnotify _ hpend.setRunning).wakeUpProcess me t
  · exact hpend.wakeUpProcess me t
  · exact hpend.wakeUpProcess me t
  · exact hpend

variable (h : Inv strict own none s)
include h

theorem notifyParent (me : Cpu) (child : Pid) : Inv strict own none (s.notifyParent me child) := by
  unfold Runqueues.notifyParent
  split
  · exact h
  · next parent _ =>
    have hsent : Inv strict own none (Runqueues.signalQueueWith id s me parent sigchld) :=
      signalQueueWith (fun _ hs => hs) h me parent sigchld
    dsimp only
    split_ifs
    · exact hsent.wakeUpProcess me parent
    · exact hsent

theorem signalQueue (me : Cpu) (t : Pid) (sig : Nat) :
    Inv strict own none (s.signalQueue me t sig) :=
  signalQueueWith (fun _ hs => hs.notifyParent me t) h me t sig

theorem signalStop (me : Cpu) (t : Pid) : Inv strict own none (s.signalStop me t) :=
  (h.notifyParent me t).schedBlock t .stopped

theorem doExit (me : Cpu) (t : Pid) : Inv strict own none (s.doExit me t) :=
  (h.schedBlock t .zombie).notifyParent me t

theorem newTask (task : Task) : Inv strict own none (s.newTask task) where
  once := h.once
  counted := h.counted
  onCpu c u hu := by
    obtain ⟨task', htask', hcpu, hrun⟩ := h.onCpu c u hu
    have hne : u ≠ s.nextPid := by
      rintro rfl
      rw [h.fresh _ le_rfl] at htask'
      cases htask'
    exact ⟨task', by simp [Runqueues.newTask, hne, htask'], hcpu, hrun⟩
  fresh u hu := by
    have hne : u ≠ s.nextPid := Nat.ne_of_gt hu
    simpa [Runqueues.newTask, hne] using h.fresh u (Nat.le_of_succ_le hu)
  known c u hu := Nat.lt_succ_of_lt (h.known c u hu)
  home c u task' hbound htask' := by
    have hne : u ≠ s.nextPid := (h.known c u hbound).ne
    simp only [Runqueues.newTask, update_apply, if_neg hne] at htask'
    exact h.home c u task' hbound htask'

theorem freeTask (t : Pid) : Inv strict own none (s.freeTask t) := by
  have hdeq : Inv strict own none (s.dequeueTask t) := h.dequeueTask (by simp)
  have hoff : ∀ c, t ∉ (s.dequeueTask t).rqTasks c := by
    obtain ⟨heq, hoff⟩ | ⟨d, -, heq⟩ := h.dequeueTask_cases t
    · rwa [heq]
    · rw [heq]
      exact fun c hc => ((h.once c).mem_erase_iff.1 hc).1 rfl
  unfold Runqueues.freeTask
  refine ⟨hdeq.once, ?_, hdeq.counted, ?_, hdeq.known, ?_⟩
  · intro c u hu
    obtain ⟨task, htask, hcpu, hrun⟩ := hdeq.onCpu c u hu
    have hut : u ≠ t := by
      rintro rfl
      exact hoff c hu
    exact ⟨task, by simp [hut, htask], hcpu, hrun⟩
  · intro u hu
    simp only [update_apply]
    split_ifs
    · rfl
    · exact hdeq.fresh u hu
  · intro c u task hbound htask
    simp only [update_apply] at htask
    split_ifs at htask
    exact hdeq.home c u task hbound htask

/-! ## Balancing -/

theorem mem_moveTask (t : Pid) (old new c : Cpu) (u : Pid) :
    u ∈ (s.moveTask t old new).rqTasks c ↔ if u = t then c = new else u ∈ s.rqTasks c := by
  have herase : ∀ d, u ∈ (s.rqTasks d).erase t ↔ u ≠ t ∧ u ∈ s.rqTasks d := fun d => (h.once d).mem_erase_iff
  unfold moveTask
  simp only [update_apply]
  split_ifs with hc hut hut
  · simp [hc, hut]
  · simp [hut, herase, hc]
  · rw [herase]
    simp [hc, hut]
  · simp [herase, hut]

theorem moveTask {old new : Cpu} (htask : s.tasks t = some task)
    (hmem : t ∈ s.rqTasks old) (hfree : ¬ s.Bound strict own old t) :
    Inv strict own none (s.moveTask t old new) := by
  obtain ⟨hold, hrun⟩ := h.of_mem htask hmem
  have hoff : ∀ d, t ∉ (s.rqTasks d).erase t := fun d hd => ((h.once d).mem_erase_iff.1 hd).1 rfl
  refine (h.unlink (by simp) hmem).link htask hoff rfl (hrun (by simp)) fun d hbound => ?_
  -- a bound task is bound to the CPU it names, which is `old`
  have hd : d = old := Fin.ext ((h.home d t task hbound htask).symm.trans hold)
  exact absurd (hd ▸ hbound) hfree

/-- What a `migrate_task` that returns 0 has done: nothing, or one move of a queued task that is not
current on the CPU it leaves. -/
theorem migrateTask_cases (hs : s.migrateTask t cpu = some s') :
    s' = s ∨ ∃ task old new, s.tasks t = some task ∧ t ∈ s.rqTasks old ∧ old ≠ new ∧ s.curr old ≠ some t ∧
      (new : Nat) = cpu ∧ s' = s.moveTask t old new := by
  unfold Runqueues.migrateTask at hs
  cases htask : s.tasks t with
  | none =>
    rw [htask] at hs
    cases hs
  | some task =>
    rw [htask] at hs
    dsimp only at hs
    split_ifs at hs with hnew hold heq hno
    · exact Or.inl (Option.some.inj hs).symm
    · simp only [not_or] at hno
      obtain ⟨c, hc⟩ := linked_iff.1 (Bool.not_eq_false _ ▸ hno.2.1)
      have hcpu : (⟨task.cpu, hold⟩ : Cpu) = c := Fin.ext (h.eq_cpu htask hc)
      right
      refine ⟨task, ⟨task.cpu, hold⟩, ⟨cpu, hnew⟩, rfl, hcpu ▸ hc, ?_, hno.2.2, rfl, (Option.some.inj hs).symm⟩
      intro hne
      exact heq (congrArg Fin.val hne)

theorem migrateTask (hfree : ∀ c, ¬ own c t)
    (hs : s.migrateTask t cpu = some s') : Inv strict own none s' := by
  obtain rfl | ⟨task, old, new, htask, hmem, hne, hcurr, -, rfl⟩ := h.migrateTask_cases hs
  · exact h
  · refine h.moveTask htask hmem ?_
    rintro (hown | ⟨-, hcurr'⟩)
    · exact hfree old hown
    · exact hcurr hcurr'

/-- A `try_pull_task` does nothing, or moves a task from a queue of at least two. -/
theorem tryPullTask_cases (me : Cpu) :
    (s.tryPullTask me).2 = s ∨
      ∃ b t, s.migrateTask t me = some (s.tryPullTask me).2 ∧ t ∈ s.rqTasks b ∧ 1 < (s.rqTasks b).length := by
  unfold Runqueues.tryPullTask
  cases hb : s.findBusiestCpu me with
  | none => exact Or.inl rfl
  | some b =>
    dsimp only
    cases ht : s.pickMigratableTask b (s.curr b) with
    | none => exact Or.inl rfl
    | some t =>
      dsimp only
      cases hm : s.migrateTask t me with
      | none => exact Or.inl rfl
      | some s' =>
        right
        unfold pickMigratableTask at ht
        split_ifs at ht with hmany
        refine ⟨b, t, hm, List.mem_reverse.1 (List.mem_of_find?_eq_some ht), ?_⟩
        rw [← h.counted b]
        omega

theorem tryPullTask (hfree : ∀ c t, ¬ own c t) (me : Cpu) :
    Inv strict own none (s.tryPullTask me).2 := by
  obtain heq | ⟨b, t, hm, -, -⟩ := h.tryPullTask_cases me
  · rw [heq]
    exact h
  · exact h.migrateTask (fun c => hfree c t) hm

end Inv

/-! ## The next task -/

theorem mem_of_nextOf {l : List Pid} (h : nextOf l p = some t) : t ∈ l :=
  (List.dropWhile_sublist _).subset (List.mem_of_mem_tail (List.mem_of_mem_head? h))

/-- `pick_next_task` chooses from this CPU's queue if `prev` is on no other. -/
theorem mem_of_pickNextTask {prev : Option Pid} (h : s.pickNextTask me prev = some (some t))
    (hprev : ∀ p c, prev = some p → p ∈ s.rqTasks c → c = me) : t ∈ s.rqTasks me := by
  unfold pickNextTask at h
  split at h
  · simp at h
  · next first rest hrq =>
    have hfirst : first ∈ s.rqTasks me := by simp [hrq]
    split at h
    · obtain rfl : first = t := by simpa using h
      exact hfirst
    · next q c hq =>
      split_ifs at h with hc
      · obtain rfl : (nextOf (first :: rest) q).getD first = t := by simpa using h
        cases hnext : nextOf (first :: rest) q with
        | none => exact hfirst
        | some t =>
          rw [hrq]
          exact mem_of_nextOf hnext
      · obtain ⟨p', hp', hfind⟩ := Option.bind_eq_some_iff.1 hq
        obtain ⟨c', hc', heq⟩ := Option.map_eq_some_iff.1 hfind
        cases heq
        exact absurd (hprev q c hp' (by simpa using List.find?_some hc')) hc

namespace Inv

theorem lt_of_mem (h : Inv strict own x s) (hmem : t ∈ s.rqTasks c) : t < s.nextPid := by
  obtain ⟨task, htask, -⟩ := h.onCpu c t hmem
  by_contra hle
  rw [h.fresh t (not_lt.1 hle)] at htask
  cases htask

/-- Ownership may be given up, and taken of what is bound to the CPU or on its queue. -/
theorem reown (h : Inv strict own x s) (hown : ∀ c t, own' c t → own c t ∨ t ∈ s.rqTasks c) : Inv strict own' x s where
  once := h.once
  onCpu := h.onCpu
  counted := h.counted
  fresh := h.fresh
  known c t hbound := by
    rcases hbound with hown' | hcurr
    · rcases hown c t hown' with ho | hmem
      · exact h.known c t (Or.inl ho)
      · exact h.lt_of_mem hmem
    · exact h.known c t (Or.inr hcurr)
  home c t task hbound htask := by
    rcases hbound with hown' | hcurr
    · rcases hown c t hown' with ho | hmem
      · exact h.home c t task (Or.inl ho) htask
      · exact h.eq_cpu htask hmem
    · exact h.home c t task (Or.inr hcurr) htask

section

variable (h : Inv strict own none s)
include h

/-- What a CPU owns or has on its queue may become its current task. -/
theorem setCurr {next : Option Pid}
    (hnext : strict → ∀ t, next = some t → own me t ∨ t ∈ s.rqTasks me) :
    Inv strict own none { s with curr := update s.curr me next } := by
  -- the new bound tasks are owned, queued here, or were current before
  have hbound : ∀ c t, Bound strict own { s with curr := update s.curr me next } c t →
      s.Bound strict own c t ∨ t ∈ s.rqTasks c := by
    rintro c t (hown | ⟨hs, hcurr⟩)
    · exact Or.inl (Or.inl hown)
    · simp only [update_apply] at hcurr
      split_ifs at hcurr with hc
      · subst hc
        exact (hnext hs t hcurr).imp_left Or.inl
      · exact Or.inl (Or.inr ⟨hs, hcurr⟩)
  refine ⟨h.once, h.onCpu, h.counted, h.fresh, ?_, ?_⟩
  · intro c t hb
    rcases hbound c t hb with hb' | hmem
    · exact h.known c t hb'
    · exact h.lt_of_mem hmem
  · intro c t task hb htask
    rcases hbound c t hb with hb' | hmem
    · exact h.home c t task hb' htask
    · exact h.eq_cpu htask hmem

theorem eq_of_bound (hbound : s.Bound strict own me p) (hmem : p ∈ s.rqTasks c) : c = me := by
  obtain ⟨task, htask, hcpu, -⟩ := h.onCpu c p hmem
  exact Fin.ext (hcpu.symm.trans (h.home me p task hbound htask))

theorem mem_of_pick (hs : strict) (hpick : s.pickNextTask me (s.curr me) = some (some t)) :
    t ∈ s.rqTasks me :=
  mem_of_pickNextTask hpick fun _ _ hp hmem => h.eq_of_bound (Or.inr ⟨hs, hp⟩) hmem

theorem setNext {next : Option Pid} (hpick : s.pickNextTask me (s.curr me) = some next) :
    Inv strict own none { s with curr := update s.curr me next } := by
  apply h.setCurr
  rintro hs t rfl
  exact Or.inr (h.mem_of_pick hs hpick)

theorem schedule (hfree : ∀ c t, ¬ own c t) (hs : s.schedule me = some s') :
    Inv strict own none s' := by
  unfold Runqueues.schedule at hs
  split at hs
  · cases hs
  · next next hpick =>
    cases hs
    exact h.setNext hpick
  · have hpull := h.tryPullTask hfree me
    split at hs
    · next s1 heq =>
      rw [heq] at hpull
      cases hs
      exact hpull.setCurr (by simp)
    · next s1 heq =>
      rw [heq] at hpull
      obtain ⟨next, hpick, rfl⟩ := Option.map_eq_some_iff.1 hs
      exact hpull.setNext hpick

end

/-! ## Runs -/

theorem onCurrent {f : Pid → Runqueues} (hf : ∀ p, s.curr me = some p → Inv strict own none (f p))
    (hs : s.onCurrent me f = some s') : Inv strict own none s' := by
  obtain ⟨p, hp, rfl⟩ := Option.map_eq_some_iff.1 hs
  exact hf p hp

theorem onTask {f : Runqueues} (hf : ∀ task, s.tasks t = some task → Inv strict own none f)
    (hs : s.onTask t f = some s') : Inv strict own none s' := by
  unfold Runqueues.onTask at hs
  split_ifs at hs with hlive
  cases hs
  obtain ⟨task, htask⟩ := Option.isSome_iff_exists.1 hlive
  exact hf task htask

theorem stepLocal {a : Act} (h : Inv strict own none s) (hlocal : a.isLocal = true) (hs : s.step a = some s') :
    Inv strict own none s' := by
  cases a with
  | kernelThread cpu =>
    cases hs
    exact h.newTask _
  | fork me cpu => exact onCurrent (fun p _ => (h.newTask _).enqueueTask me _) hs
  | wakeUpProcess me t => exact onTask (fun _ _ => h.wakeUpProcess me t) hs
  | enqueueTask me t => exact onTask (fun _ _ => h.enqueueTask me t) hs
  | dequeueTask t => exact onTask (fun _ _ => h.dequeueTask (by simp)) hs
  | schedBlock me state => exact onCurrent (fun p _ => h.schedBlock p state) hs
  | prepareToWait me => exact onCurrent (fun p _ => h.schedBlock p .sleeping) hs
  | finishWait me => exact onCurrent (fun p _ => h.finishWait me p) hs
  | wakeUp me waiters =>
    cases hs
    exact h.wakeUp me waiters
  | signal me t sig => exact onTask (fun _ _ => h.signalQueue me t sig) hs
  | signalStop me => exact onCurrent (fun p _ => h.signalStop me p) hs
  | doExit me => exact onCurrent (fun p _ => h.doExit me p) hs
  | freeTask t => exact onTask (fun _ _ => h.freeTask t) hs
  | enqueueTaskCpu | migrateTask | tryPullTask | schedule => cases hlocal

/-- Every operation keeps the invariant; only `enqueue_task_cpu` has to respect where a task is current. -/
theorem step {a : Act} (h : Inv strict own none s) (hfree : ∀ c t, ¬ own c t) (hhome : strict → s.staysHome a = true)
    (hs : s.step a = some s') : Inv strict own none s' := by
  cases a with
  | enqueueTaskCpu t cpu =>
    refine onTask (fun task htask => h.enqueueTaskCpu htask fun d hbound => ?_) hs
    obtain ⟨hstrict, hcurr⟩ := hbound.resolve_left (hfree d t)
    have hstays : ∀ c : Cpu, s.curr c = some t → cpu = c := by simpa [staysHome] using hhome hstrict
    exact hstays d hcurr
  | migrateTask t cpu =>
    cases hs
    cases hm : s.migrateTask t cpu with
    | none => exact h
    | some s1 => exact h.migrateTask (fun c => hfree c t) hm
  | tryPullTask me =>
    cases hs
    exact h.tryPullTask hfree me
  | schedule me => exact h.schedule hfree hs
  | _ => exact h.stepLocal rfl hs

end Inv

/-- The redundant pieces agree: lists without repetition or overlap, on the CPU their tasks name, of
running tasks only, and as long as the counters say. -/
structure Tidy (s : Runqueues) : Prop where
  once : ∀ c, (s.rqTasks c).Nodup
  alone : ∀ t c d, t ∈ s.rqTasks c → t ∈ s.rqTasks d → c = d
  onCpu : ∀ t c, t ∈ s.rqTasks c → ∃ task, s.tasks t = some task ∧ task.cpu = c ∧ task.state = .running
  runs : ∀ t task, s.tasks t = some task → task.state ≠ .running → s.linked t = false
  counted : ∀ c, s.nrRunning c = (s.rqTasks c).length

/-- The same tasks are queued after as before. -/
def KeepsLinked (s s' : Runqueues) : Prop := ∀ t, s'.linked t = s.linked t

/-- No queue has become empty. -/
def KeepsBusy (s s' : Runqueues) : Prop := ∀ c, s.rqTasks c ≠ [] → s'.rqTasks c ≠ []

/-- Every current task is on the queues it was on. -/
def KeepsCurr (s s' : Runqueues) : Prop := ∀ c t, s.curr c = some t → ∀ d, t ∈ s'.rqTasks d ↔ t ∈ s.rqTasks d

section

variable (h : Inv strict own none s)
include h

theorem Inv.tidy : s.Tidy where
  once := h.once
  alone _ _ _ := h.eq_of_mem
  onCpu t c ht := by
    obtain ⟨task, htask, hcpu, hrun⟩ := h.onCpu c t ht
    exact ⟨task, htask, hcpu, hrun (by simp)⟩
  runs t task htask hstate := by
    refine linked_eq_false.2 fun c hc => hstate ?_
    exact (h.of_mem htask hc).2 (by simp)
  counted := h.counted

theorem Inv.keepsLinked (hs : s.migrateTask t cpu = some s') : KeepsLinked s s' := by
  obtain rfl | ⟨task, old, new, -, hmem, -, -, -, rfl⟩ := h.migrateTask_cases hs
  · exact fun _ => rfl
  intro u
  rw [Bool.eq_iff_iff, linked_iff, linked_iff]
  simp only [h.mem_moveTask]
  by_cases hut : u = t
  · subst hut
    simpa using ⟨old, hmem⟩
  · simp [hut]

theorem Inv.keepsCurr (hstrict : strict) (hs : s.migrateTask t cpu = some s') :
    KeepsCurr s s' := by
  obtain rfl | ⟨task, old, new, -, hmem, -, hcurr, -, rfl⟩ := h.migrateTask_cases hs
  · exact fun _ _ _ _ => Iff.rfl
  intro c u hu d
  rw [h.mem_moveTask, if_neg]
  rintro rfl
  exact hcurr (h.eq_of_bound (Or.inr ⟨hstrict, hu⟩) hmem ▸ hu)

theorem Inv.keepsBusy (me : Cpu) : KeepsBusy s (s.tryPullTask me).2 := by
  obtain heq | ⟨b, t, hm, hmem, hlen⟩ := h.tryPullTask_cases me
  · rw [heq]
    exact fun _ hc => hc
  obtain heq | ⟨task, old, new, htask, hold, -, -, -, heq⟩ := h.migrateTask_cases hm
  · rw [heq]
    exact fun _ hc => hc
  rw [heq]
  obtain rfl := h.eq_of_mem hmem hold
  intro c hc
  -- the source keeps one of its two tasks, every other queue keeps all of its own
  obtain ⟨u, hu, hut⟩ : ∃ u ∈ s.rqTasks c, u ≠ t := by
    by_cases hcb : c = b
    · subst hcb
      have hpos : 0 < ((s.rqTasks c).erase t).length := by
        rw [List.length_erase_of_mem hmem]
        omega
      obtain ⟨u, hu⟩ := List.exists_mem_of_length_pos hpos
      exact ⟨u, List.mem_of_mem_erase hu, ((h.once c).mem_erase_iff.1 hu).1⟩
    · obtain ⟨u, hu⟩ := List.exists_mem_of_ne_nil _ hc
      exact ⟨u, hu, fun hut => hcb (h.eq_of_mem hu (hut ▸ hmem))⟩
  exact List.ne_nil_of_mem ((h.mem_moveTask t b new c u).2 (by rwa [if_neg hut]))

theorem Inv.keeps_tryPullTask {P : Runqueues → Prop} (me : Cpu) (hs : P s)
    (hm : ∀ t s', s.migrateTask t me = some s' → P s') : P (s.tryPullTask me).2 := by
  obtain heq | ⟨b, t, hpull, -, -⟩ := h.tryPullTask_cases me
  · rwa [heq]
  · exact hm t _ hpull

end

/-- After every run of the scheduler operations the queues are tidy, and from there balancing keeps the
queued tasks and empties no queue. If `enqueue_task_cpu` never sent a task away from the CPU it is
current on, balancing does not touch a current task either. -/
theorem run_tidy {acts : List Act} (hrun : run step init acts = some s) :
    s.Tidy ∧ (∀ t cpu s', s.migrateTask t cpu = some s' → KeepsLinked s s') ∧
      (∀ me, KeepsLinked s (s.tryPullTask me).2 ∧ KeepsBusy s (s.tryPullTask me).2) ∧
      (run stepHome init acts = some s →
        (∀ t cpu s', s.migrateTask t cpu = some s' → KeepsCurr s s') ∧ ∀ me, KeepsCurr s (s.tryPullTask me).2) := by
  have h : Inv False (fun _ _ => False) none s :=
    run_invariant (fun s a s' hs hstep => hs.step (fun _ _ => id) False.elim hstep) init_inv hrun
  refine ⟨h.tidy, fun t cpu s' => h.keepsLinked, fun me => ⟨?_, h.keepsBusy me⟩, ?_⟩
  · exact h.keeps_tryPullTask me (fun _ => rfl) fun t s' => h.keepsLinked
  · intro hhome
    have h : Inv True (fun _ _ => False) none s := by
      refine run_invariant (fun s a s' hs hstep => ?_) init_inv hhome
      unfold stepHome at hstep
      split_ifs at hstep with hstays
      exact hs.step (fun _ _ => id) (fun _ => hstays) hstep
    exact ⟨fun t cpu s' => h.keepsCurr trivial,
      fun me => h.keeps_tryPullTask me (fun _ _ _ _ => Iff.rfl) fun t s' => h.keepsCurr trivial⟩

/-- Two threads on CPU 0, the first of them current; then CPU 1 pulls the second. -/
def samplePull : List Act :=
  [.kernelThread 0, .wakeUpProcess 0 1, .schedule 0, .kernelThread 0, .wakeUpProcess 0 2]

theorem run_tidy_of_samplePull :
    ∃ s, run step init samplePull = some s ∧ s.rqTasks 0 = [1, 2] ∧ s.curr 0 = some 1 ∧
      (s.tryPullTask 1).2.rqTasks 0 = [1] ∧ (s.tryPullTask 1).2.rqTasks 1 = [2] ∧
      s.Tidy ∧ ∀ me, KeepsCurr s (s.tryPullTask me).2 := by
  obtain ⟨s, hrun, hhome, h1, h2, h3, h4⟩ : ∃ s, run step init samplePull = some s ∧
      run stepHome init samplePull = some s ∧ s.rqTasks 0 = [1, 2] ∧ s.curr 0 = some 1 ∧
      (s.tryPullTask 1).2.rqTasks 0 = [1] ∧ (s.tryPullTask 1).2.rqTasks 1 = [2] :=
    ⟨_, rfl, rfl, by decide, by decide, by decide, by decide⟩
  exact ⟨s, hrun, h1, h2, h3, h4, (run_tidy hrun).1, ((run_tidy hrun).2.2.2 hhome).2⟩

/-- A thread blocks on CPU 0 and, before CPU 0 has switched away from it, is queued on CPU 1. -/
def foreignWake : List Act :=
  [.kernelThread 0, .wakeUpProcess 0 1, .schedule 0, .schedBlock 0 .sleeping, .enqueueTaskCpu 1 1]

/-- Then `migrate_task` compares it with the current task of CPU 1 only, and moves what CPU 0 runs. -/
theorem not_keepsCurr_of_foreignWake :
    ∃ s s', run step init foreignWake = some s ∧ s.curr 0 = some 1 ∧ s.rqTasks 1 = [1] ∧
      s.migrateTask 1 2 = some s' ∧ s'.rqTasks 1 = [] ∧ s'.rqTasks 2 = [1] ∧ ¬ KeepsCurr s s' := by
  obtain ⟨s, s', hrun, h1, h2, hm, h3, h4⟩ : ∃ s s', run step init foreignWake = some s ∧ s.curr 0 = some 1 ∧
      s.rqTasks 1 = [1] ∧ s.migrateTask 1 2 = some s' ∧ s'.rqTasks 1 = [] ∧ s'.rqTasks 2 = [1] :=
    ⟨_, _, rfl, by decide, by decide, rfl, by decide, by decide⟩
  refine ⟨s, s', hrun, h1, h2, hm, h3, h4, fun hkeeps => ?_⟩
  have := (hkeeps 0 1 h1 1).2 (by simp [h2])
  simp [h3] at this

end Runqueues

end MiniOs.Sched
