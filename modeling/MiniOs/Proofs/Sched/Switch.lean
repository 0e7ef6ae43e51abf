/-
One CPU at a time. A CPU owns the task it executes and, from its pick to its load, the task it is on its
way to. As long as neither `migrate_task` nor a late `enqueue_task` puts an owned task on another CPU's queue,
every owned task names its owner and so is on no other CPU's queue: no task is executed twice and no context is
loaded before it is saved. Neither looks at ownership: a task chosen but not yet published can be pulled away
and run twice, and so can one that is woken up on the CPU it was on before.
-/
import MiniOs.Sched.Reap
import MiniOs.Proofs.Sched.Runqueue

namespace MiniOs.Sched

open Library Function

/-! ## Local operations and the current tasks -/

namespace Runqueues

variable {s s' : Runqueues}

@[simp] theorem modify_curr (s : Runqueues) (t : Pid) (f : Task → Task) : (s.modify t f).curr = s.curr := rfl

@[simp] theorem setState_curr (s : Runqueues) (t : Pid) (state : TaskState) : (s.setState t state).curr = s.curr := rfl

@[simp] theorem enqueueTask_curr (s : Runqueues) (me : Cpu) (t : Pid) : (s.enqueueTask me t).curr = s.curr := by
  unfold enqueueTask enqueueTaskCpu enqueueTaskLocked
  split
  · rfl
  · split_ifs <;> rfl

@[simp] theorem wakeUpProcess_curr (s : Runqueues) (me : Cpu) (t : Pid) : (s.wakeUpProcess me t).curr = s.curr := by
  unfold wakeUpProcess
  split_ifs <;> simp

@[simp] theorem dequeueTask_curr (s : Runqueues) (t : Pid) : (s.dequeueTask t).curr = s.curr := by
  unfold dequeueTask dequeueTaskLocked
  split
  · rfl
  · split_ifs <;> rfl

@[simp] theorem schedBlock_curr (s : Runqueues) (t : Pid) (state : TaskState) :
    (s.schedBlock t state).curr = s.curr := by
  unfold schedBlock
  simp

@[simp] theorem finishWait_curr (s : Runqueues) (me : Cpu) (t : Pid) : (s.finishWait me t).curr = s.curr := by
  unfold finishWait
  split_ifs <;> simp

@[simp] theorem wakeUp_curr (s : Runqueues) (me : Cpu) (waiters : List Pid) : (s.wakeUp me waiters).curr = s.curr := by
  unfold wakeUp
  induction waiters generalizing s with
  | nil => rfl
  | cons t rest ih =>
    rw [List.foldl_cons, ih]
    split_ifs <;> simp

theorem signalQueueWith_curr {notify : Runqueues → Runqueues} (hnotify : ∀ s, (notify s).curr = s.curr)
    (s : Runqueues) (me : Cpu) (t : Pid) (sig : Nat) : (signalQueueWith notify s me t sig).curr = s.curr := by
  unfold signalQueueWith
  dsimp only
  split_ifs <;> simp [hnotify]

@[simp] theorem notifyParent_curr (s : Runqueues) (me : Cpu) (child : Pid) :
    (s.notifyParent me child).curr = s.curr := by
  unfold notifyParent
  split
  · rfl
  · dsimp only
    split_ifs <;> simp [signalQueueWith_curr]

@[simp] theorem signalQueue_curr (s : Runqueues) (me : Cpu) (t : Pid) (sig : Nat) :
    (s.signalQueue me t sig).curr = s.curr :=
  signalQueueWith_curr (fun s => notifyParent_curr s me t) s me t sig

theorem onCurrent_curr {me : Cpu} {f : Pid → Runqueues} (hf : ∀ p, (f p).curr = s.curr)
    (hs : s.onCurrent me f = some s') : s'.curr = s.curr := by
  obtain ⟨p, -, rfl⟩ := Option.map_eq_some_iff.1 hs
  exact hf p

theorem onTask_curr {t : Pid} {f : Runqueues} (hf : f.curr = s.curr) (hs : s.onTask t f = some s') :
    s'.curr = s.curr := by
  unfold onTask at hs
  split_ifs at hs
  cases hs
  exact hf

theorem stepLocal_curr {a : Act} (hlocal : a.isLocal = true) (hs : s.step a = some s') : s'.curr = s.curr := by
  cases a with
  | kernelThread cpu =>
    cases hs
    rfl
  | fork me cpu => exact onCurrent_curr (fun p => by simp [fork, newTask]) hs
  | wakeUpProcess me t => exact onTask_curr (by simp) hs
  | enqueueTask me t => exact onTask_curr (by simp) hs
  | dequeueTask t => exact onTask_curr (by simp) hs
  | schedBlock me state => exact onCurrent_curr (by simp) hs
  | prepareToWait me => exact onCurrent_curr (by simp) hs
  | finishWait me => exact onCurrent_curr (by simp) hs
  | wakeUp me waiters =>
    cases hs
    simp
  | signal me t sig => exact onTask_curr (by simp) hs
  | signalStop me => exact onCurrent_curr (by simp [signalStop]) hs
  | doExit me => exact onCurrent_curr (by simp [doExit]) hs
  | freeTask t => exact onTask_curr (by simp [freeTask]) hs
  | enqueueTaskCpu | migrateTask | tryPullTask | schedule => cases hlocal

theorem migrateTask_curr {t : Pid} {cpu : Nat} (hs : s.migrateTask t cpu = some s') : s'.curr = s.curr := by
  unfold migrateTask at hs
  split at hs
  · cases hs
  · split_ifs at hs <;> cases hs <;> rfl

@[simp] theorem enqueueTaskCpu_curr (s : Runqueues) (t : Pid) (cpu : Nat) : (s.enqueueTaskCpu t cpu).curr = s.curr := by
  unfold enqueueTaskCpu enqueueTaskLocked
  split_ifs <;> rfl

/-- The store of an unset CPU meets a task that is nowhere yet. -/
theorem readCpu_spec {own : Cpu → Pid → Prop} {me : Cpu} {t : Pid} {q : Nat × Runqueues} (h : s.Inv True own none)
    (hs : s.readCpu me t = some q) : q.2.Inv True own none ∧ q.2.curr = s.curr := by
  obtain ⟨task, htask, rfl⟩ := Option.map_eq_some_iff.1 hs
  split_ifs with hcpu
  · obtain ⟨hlinked, hfree⟩ := h.loose htask hcpu
    exact ⟨h.setCpu hlinked hfree me, rfl⟩
  · exact ⟨h, rfl⟩

end Runqueues

/-! ## Ownership -/

namespace Smp

variable {s s' : Smp} {c d me : Cpu} {t : Pid} {a : Act}

/-- Whose registers a CPU holds and who is current there, as its place in `schedule` tells. -/
def Holds (s : Smp) (c : Cpu) : Prop :=
  match s.pc c with
  | .save prev next => s.executing c = prev ∧ s.queues.curr c = next
  | .load next => s.executing c = none ∧ s.queues.curr c = next
  | _ => s.executing c = s.queues.curr c

/-- Before `set_current`. -/
def early : Pc → Prop
  | .save _ _ | .load _ => False
  | _ => True

theorem holds_of_early (hpc : early (s.pc c)) : s.Holds c ↔ s.executing c = s.queues.curr c := by
  unfold Holds
  cases heq : s.pc c <;> simp_all [early]

/-! ## Steps of `schedule` -/

/-- What a step of `schedule` on one CPU does. -/
inductive Shift (me : Cpu) (a : Act) (s : Smp) : Smp → Prop
  | goto {pc : Pc} (hbefore : early (s.pc me)) (hafter : early pc)
      (hnext : ∀ t, pc.next = some t → s.queues.pickNextTask me (s.queues.curr me) = some (some t)) :
        Shift me a s (s.goto me pc)
  | migrate {t : Pid} {queues : Runqueues} (ha : a = .migrate me) (hpc : s.pc me = .steal t)
      (hm : s.queues.migrateTask t me = some queues) : Shift me a s { s.goto me .repick with queues := queues }
  | setCurrent {next : Option Pid} (hpc : s.pc me = .decided next) :
      Shift me a s { s.goto me (.save (s.queues.curr me) next) with
        queues := { s.queues with curr := update s.queues.curr me next } }
  | save {prev next : Option Pid} (ha : a = .save me) (hpc : s.pc me = .save prev next) :
      Shift me a s { s.goto me (.load next) with
        executing := update s.executing me none
        saved := fun t => if prev = some t then true else s.saved t }
  | load {next : Option Pid} (hpc : s.pc me = .load next) :
      Shift me a s { s.goto me .run with
        executing := update s.executing me next
        saved := fun t => if next = some t then false else s.saved t }

/-- A step to a place where nothing is chosen. -/
theorem Shift.plain {pc : Pc} (hbefore : early (s.pc me)) (hafter : early pc) (hnext : pc.next = none) :
    Shift me a s (s.goto me pc) :=
  .goto hbefore hafter (by simp [hnext])

theorem shift_of_step (ha : Reaping.schedules a = some me) (hs : s.step a = some s') : Shift me a s s' := by
  cases a with
  | op | readCpu | enqueue => cases ha
  | pick c =>
    cases ha
    simp only [step] at hs
    split at hs <;> cases hs
    · next hpc hpick => exact .plain (hpc ▸ trivial) trivial rfl
    · next next hpc hpick =>
      refine .goto (hpc ▸ trivial) trivial fun t ht => ?_
      cases ht
      exact hpick
  | destLoad c =>
    cases ha
    simp only [step] at hs
    split at hs <;> cases hs
    next hpc => exact .plain (hpc ▸ trivial) trivial rfl
  | readLoad c =>
    cases ha
    simp only [step] at hs
    split at hs <;> cases hs
    · next best hpc => split_ifs <;> exact .plain (hpc ▸ trivial) trivial rfl
    · next c rest best hpc => exact .plain (hpc ▸ trivial) trivial rfl
  | pickSteal c =>
    cases ha
    simp only [step] at hs
    split at hs
    · next busiest hpc => split at hs <;> cases hs <;> exact .plain (hpc ▸ trivial) trivial rfl
    · cases hs
  | migrate c =>
    cases ha
    simp only [step] at hs
    split at hs
    · next t hpc =>
      split at hs <;> cases hs
      · exact .plain (hpc ▸ trivial) trivial rfl
      · next hm => exact .migrate rfl hpc hm
    · cases hs
  | repick c =>
    cases ha
    simp only [step] at hs
    split at hs
    · next hpc =>
      obtain ⟨next, hpick, rfl⟩ := Option.map_eq_some_iff.1 hs
      refine .goto (hpc ▸ trivial) trivial fun t ht => ?_
      cases ht
      exact hpick
    · cases hs
  | setCurrent c =>
    cases ha
    simp only [step] at hs
    split at hs
    · next next hpc =>
      split_ifs at hs <;> cases hs
      · exact .plain (hpc ▸ trivial) trivial rfl
      · exact .setCurrent hpc
    · cases hs
  | save c =>
    cases ha
    simp only [step] at hs
    split at hs <;> cases hs
    next hpc => exact .save rfl hpc
  | load c =>
    cases ha
    simp only [step] at hs
    split at hs <;> cases hs
    next hpc => exact .load hpc

theorem enqueue_some {cpu : Nat} (hs : s.step (.enqueue t cpu) = some s') :
    (t, cpu) ∈ s.late ∧ (∃ task, s.queues.tasks t = some task) ∧
      s' = { s with queues := s.queues.enqueueTaskCpu t cpu, late := s.late.erase (t, cpu) } := by
  simp only [step] at hs
  split_ifs at hs with hlate
  obtain ⟨queues, hq, rfl⟩ := Option.map_eq_some_iff.1 hs
  simp only [Runqueues.step, Runqueues.onTask, Option.ite_none_right_eq_some, Option.some.injEq] at hq
  obtain ⟨hlive, rfl⟩ := hq
  exact ⟨hlate, Option.isSome_iff_exists.1 hlive, rfl⟩

/-- The queues are tidy and owned tasks name their owners; a task has one owner; the unsaved tasks are those in
some CPU's registers. -/
structure Inv (s : Smp) : Prop where
  queues : s.queues.Inv True s.Owns none
  alone : ∀ c d t, s.Owns c t → s.Owns d t → c = d
  unsaved : ∀ t, s.saved t = false ↔ ∃ c, s.executing c = some t
  holds : ∀ c, s.Holds c

theorem init_inv : init.Inv where
  queues := Runqueues.init_inv.reown fun c t h => by simp [Owns, init, Pc.next] at h
  alone c d t h := by simp [Owns, init, Pc.next] at h
  unsaved t := by simp [init]
  holds c := rfl

namespace Inv

variable (h : s.Inv)
include h

/-- A step of one CPU, which may give up tasks and take one from its own queue. -/
theorem advance (me : Cpu) (hqueues : s'.queues.Inv True s.Owns none)
    (hpc : ∀ c, c ≠ me → s'.pc c = s.pc c) (hexec : ∀ c, c ≠ me → s'.executing c = s.executing c)
    (hcurr : ∀ c, c ≠ me → s'.queues.curr c = s.queues.curr c)
    (hown : ∀ t, s'.Owns me t → s.Owns me t ∨ t ∈ s'.queues.rqTasks me)
    (hunsaved : ∀ t, s'.saved t = false ↔ ∃ c, s'.executing c = some t) (hholds : s'.Holds me) : s'.Inv := by
  have hother : ∀ c t, c ≠ me → (s'.Owns c t ↔ s.Owns c t) := by
    intro c t hc
    unfold Owns
    rw [hpc c hc, hexec c hc]
  have hmine : ∀ c t, c ≠ me → s'.Owns c t → ¬ s'.Owns me t := by
    intro c t hc hct hmt
    rw [hother c t hc] at hct
    rcases hown t hmt with ho | hmem
    · exact hc (h.alone c me t hct ho)
    · exact hc (hqueues.eq_of_bound (Or.inl hct) hmem).symm
  refine ⟨hqueues.reown ?_, ?_, hunsaved, ?_⟩
  · intro c t hct
    by_cases hc : c = me
    · subst hc
      exact hown t hct
    · exact Or.inl ((hother c t hc).1 hct)
  · intro c d t hct hdt
    by_cases hc : c = me
    · subst hc
      by_contra hne
      exact hmine d t (Ne.symm hne) hdt hct
    by_cases hd : d = me
    · subst hd
      exact absurd hdt (hmine c t hc hct)
    · exact h.alone c d t ((hother c t hc).1 hct) ((hother d t hd).1 hdt)
  · intro c
    by_cases hc : c = me
    · subst hc
      exact hholds
    · unfold Holds
      rw [hpc c hc, hexec c hc, hcurr c hc]
      exact h.holds c

/-- A step that only moves a CPU on in `schedule`, before `set_current`. -/
theorem goto {pc : Pc} (hbefore : early (s.pc me)) (hafter : early pc)
    (hnext : ∀ t, pc.next = some t → s.Owns me t ∨ t ∈ s.queues.rqTasks me) : (s.goto me pc).Inv := by
  have hpc : (s.goto me pc).pc me = pc := by simp [Smp.goto]
  refine h.advance me h.queues (fun c hc => by simp [Smp.goto, hc]) (fun _ _ => rfl) (fun _ _ => rfl) ?_ h.unsaved ?_
  · intro t ht
    rcases ht with hex | hn
    · exact Or.inl (Or.inl hex)
    · rw [hpc] at hn
      exact hnext t hn
  · rw [holds_of_early (by rwa [hpc])]
    exact (holds_of_early hbefore).1 (h.holds me)

theorem setQueues {queues : Runqueues} (hqueues : queues.Inv True s.Owns none) (hcurr : queues.curr = s.queues.curr) :
    Smp.Inv { s with queues := queues } := by
  refine h.advance 0 hqueues (fun _ _ => rfl) (fun _ _ => rfl) (fun c _ => congrFun hcurr c)
    (fun t ht => Or.inl ht) h.unsaved ?_
  have hholds := h.holds 0
  unfold Holds at hholds ⊢
  rwa [hcurr]

theorem owns_of_curr (hcurr : s.queues.curr c = some t) : s.Owns c t := by
  have hholds := h.holds c
  unfold Holds at hholds
  split at hholds
  · next hpc => exact Or.inr (by simp [hpc, Pc.next, ← hcurr, hholds.2])
  · next hpc => exact Or.inr (by simp [hpc, Pc.next, ← hcurr, hholds.2])
  · exact Or.inl (hholds.trans hcurr)

theorem setLate (late : List (Pid × Nat)) : Smp.Inv { s with late := late } :=
  ⟨h.queues, h.alone, h.unsaved, h.holds⟩

/-- A late `enqueue_task` leaves a task that is on a list where it is, and puts another one where its owner is. -/
theorem enqueue {cpu : Nat} (hsettled : s.settled (.enqueue t cpu) = true)
    (hs : s.step (.enqueue t cpu) = some s') : s'.Inv := by
  obtain ⟨-, ⟨task, htask⟩, rfl⟩ := enqueue_some hs
  have hqueues : (s.queues.enqueueTaskCpu t cpu).Inv True s.Owns none := by
    cases hlinked : s.queues.linked t with
    | true =>
      have hsame : s.queues.enqueueTaskCpu t cpu = s.queues := by
        simp [Runqueues.enqueueTaskCpu, Runqueues.enqueueTaskLocked, hlinked]
      rw [hsame]
      exact h.queues
    | false =>
      have hhome : ∀ c : Cpu, s.Owns c t → cpu = c := by simpa [settled, hlinked] using hsettled
      refine h.queues.enqueueTaskCpu htask fun d hd => hhome d ?_
      exact hd.elim id fun hcurr => h.owns_of_curr hcurr.2
  exact (h.setQueues hqueues (by simp)).setLate _

theorem readCpu (hs : s.step (.readCpu me t) = some s') : s'.Inv := by
  obtain ⟨q, hq, rfl⟩ := Option.map_eq_some_iff.1 hs
  obtain ⟨hqueues, hcurr⟩ := Runqueues.readCpu_spec h.queues hq
  exact (h.setQueues hqueues hcurr).setLate _

theorem op {b : Runqueues.Act} (hs : s.step (.op b) = some s') : s'.Inv := by
  simp only [step] at hs
  split_ifs at hs with hcond
  obtain ⟨queues, hstep, rfl⟩ := Option.map_eq_some_iff.1 hs
  obtain ⟨hlocal, -⟩ := Bool.and_eq_true_iff.1 hcond
  exact h.setQueues (h.queues.stepLocal hlocal hstep) (Runqueues.stepLocal_curr hlocal hstep)

/-- What a step of `schedule` chooses comes from the CPU's own queue, and the move of a task that nobody owns leaves
every owned task where its owner is. -/
theorem shift (hsettled : s.settled a = true) (hs : Shift me a s s') : s'.Inv := by
  cases hs with
  | goto hbefore hafter hnext =>
    exact h.goto hbefore hafter fun t ht => Or.inr (h.queues.mem_of_pick trivial (hnext t ht))
  | @migrate t queues ha hpc hm =>
    subst ha
    have hfree : ∀ c, ¬ s.Owns c t := by simpa [settled, hpc] using hsettled
    have hcurr := Runqueues.migrateTask_curr hm
    refine h.advance me (h.queues.migrateTask hfree hm) (fun c hc => by simp [Smp.goto, hc]) (fun _ _ => rfl)
      (fun c _ => congrFun hcurr c) ?_ h.unsaved ?_
    · rintro u (hex | hn)
      · exact Or.inl (Or.inl hex)
      · simp [Smp.goto, Pc.next] at hn
    · have hbefore := (holds_of_early (hpc ▸ trivial)).1 (h.holds me)
      simpa [Holds, Smp.goto, hcurr] using hbefore
  | @setCurrent next hpc =>
    have hnext : ∀ t, next = some t → s.Owns me t := fun t ht => Or.inr (by simp [hpc, Pc.next, ht])
    refine h.advance me (h.queues.setCurr fun _ t ht => Or.inl (hnext t ht)) (fun c hc => by simp [Smp.goto, hc])
      (fun _ _ => rfl) (fun c hc => by simp [update_of_ne hc]) ?_ h.unsaved ?_
    · rintro t (hex | hn)
      · exact Or.inl (Or.inl hex)
      · exact Or.inl (hnext t (by simpa [Smp.goto, Pc.next] using hn))
    · have hbefore := (holds_of_early (hpc ▸ trivial)).1 (h.holds me)
      simpa [Holds, Smp.goto] using hbefore
  | @save prev next ha hpc =>
    obtain ⟨hprev, hcurr⟩ : s.executing me = prev ∧ s.queues.curr me = next := by
      simpa [Holds, hpc] using h.holds me
    refine h.advance me h.queues (fun c hc => by simp [Smp.goto, hc]) (fun c hc => by simp [hc]) (fun _ _ => rfl)
      ?_ ?_ ?_
    · rintro t (hex | hn)
      · simp at hex
      · exact Or.inl (Or.inr (by simpa [Smp.goto, Pc.next, hpc] using hn))
    · intro t
      dsimp only
      split_ifs with hpt
      · -- nobody else had the task that was just saved in its registers
        refine iff_of_false (by simp) ?_
        rintro ⟨c, hc⟩
        have hcme : c ≠ me := by
          rintro rfl
          simp at hc
        rw [update_of_ne hcme] at hc
        exact hcme (h.alone c me t (Or.inl hc) (Or.inl (hprev.trans hpt)))
      · rw [h.unsaved t]
        refine exists_congr fun c => ?_
        by_cases hc : c = me
        · subst hc
          simp [hprev, hpt]
        · rw [update_of_ne hc]
    · simpa [Holds, Smp.goto] using hcurr
  | @load next hpc =>
    obtain ⟨hnone, hcurr⟩ : s.executing me = none ∧ s.queues.curr me = next := by
      simpa [Holds, hpc] using h.holds me
    refine h.advance me h.queues (fun c hc => by simp [Smp.goto, hc]) (fun c hc => by simp [hc]) (fun _ _ => rfl)
      ?_ ?_ ?_
    · rintro t (hex | hn)
      · exact Or.inl (Or.inr (by simpa [hpc, Pc.next] using hex))
      · simp [Smp.goto, Pc.next] at hn
    · intro t
      dsimp only
      split_ifs with hnt
      · exact iff_of_true rfl ⟨me, by simp [hnt]⟩
      · rw [h.unsaved t]
        refine exists_congr fun c => ?_
        by_cases hc : c = me
        · subst hc
          simp [hnone, hnt]
        · rw [update_of_ne hc]
    · simpa [Holds, Smp.goto] using hcurr.symm

theorem stepSettled (hs : s.stepSettled a = some s') : s'.Inv := by
  unfold Smp.stepSettled at hs
  split_ifs at hs with hsettled
  cases a with
  | op b => exact h.op hs
  | readCpu me t => exact h.readCpu hs
  | enqueue t cpu => exact h.enqueue hsettled hs
  | _ => exact h.shift hsettled (shift_of_step rfl hs)

/-- A context about to be loaded is saved: whoever had it in registers would own the task too. -/
theorem saved_of_load (hpc : s.pc c = .load (some t)) : s.saved t = true := by
  by_contra hne
  obtain ⟨d, hd⟩ := (h.unsaved t).1 (Bool.eq_false_iff.2 hne)
  have hcd : c = d := h.alone c d t (Or.inr (by simp [hpc, Pc.next])) (Or.inl hd)
  obtain ⟨hnone, -⟩ : s.executing c = none ∧ s.queues.curr c = some t := by simpa [Holds, hpc] using h.holds c
  rw [hcd, hd] at hnone
  cases hnone

end Inv

/-- No task is in the registers of two CPUs. -/
def OneCpu (s : Smp) : Prop := ∀ c d t, s.executing c = some t → s.executing d = some t → c = d

/-- No CPU is about to load a context that has not been saved. -/
def LoadsSaved (s : Smp) : Prop := ∀ c t, s.pc c = .load (some t) → s.saved t = true

/-- In every run in which neither `migrate_task` nor a late `enqueue_task` puts a task that a CPU executes or has
chosen on the queue of another one, a task runs on one CPU at a time and is loaded only after it was saved. -/
theorem run_oneCpu {acts : List Act} (hrun : run stepSettled init acts = some s) : s.OneCpu ∧ s.LoadsSaved := by
  have h : s.Inv := run_invariant (fun s a s' hs hstep => hs.stepSettled hstep) init_inv hrun
  exact ⟨fun c d t hc hd => h.alone c d t (Or.inl hc) (Or.inl hd), fun c t hpc => h.saved_of_load hpc⟩

/-- Threads 1 and 2 on CPU 0, which runs the first. -/
def twoThreads : List Act :=
  [.op (.kernelThread 0), .op (.wakeUpProcess 0 1), .pick 0, .setCurrent 0, .save 0, .load 0,
    .op (.kernelThread 0), .op (.wakeUpProcess 0 2)]

/-- CPU 1, idle, looks for work up to its `migrate_task`. -/
def lookForWork : List Act :=
  [.pick 1, .destLoad 1, .readLoad 1, .readLoad 1, .readLoad 1, .readLoad 1, .readLoad 1, .pickSteal 1]

/-- CPU 1 takes what it found and switches to it. -/
def takeWork : List Act := [.migrate 1, .repick 1, .setCurrent 1, .save 1, .load 1]

/-- Without interference CPU 1 ends up with thread 2. -/
theorem run_oneCpu_of_pull :
    ∃ s, run stepSettled init (twoThreads ++ lookForWork ++ takeWork) = some s ∧
      s.executing 0 = some 1 ∧ s.executing 1 = some 2 ∧ s.OneCpu ∧ s.LoadsSaved := by
  obtain ⟨s, hrun, h0, h1⟩ : ∃ s, run stepSettled init (twoThreads ++ lookForWork ++ takeWork) = some s ∧
      s.executing 0 = some 1 ∧ s.executing 1 = some 2 := ⟨_, rfl, by decide, by decide⟩
  exact ⟨s, hrun, h0, h1, (run_oneCpu hrun).1, (run_oneCpu hrun).2⟩

/-- CPU 0 chooses thread 2; before it has published that as its `curr`, CPU 1 pulls thread 2 over and runs it. -/
def stolenNext : List Act := twoThreads ++ .pick 0 :: lookForWork ++ takeWork ++ [.setCurrent 0, .save 0]

/-- A wake-up of thread 2 reads its CPU, 0. The thread goes to CPU 1 and blocks there; then the wake-up goes on and
puts it on the queue of CPU 0, which chooses it. -/
def staleCpu : List Act :=
  twoThreads ++ .readCpu 2 2 :: lookForWork ++ takeWork ++
    [.op (.schedBlock 1 .sleeping), .enqueue 2 0, .pick 0, .setCurrent 0, .save 0]

/-- On either way CPU 0 goes on to load thread 2 while CPU 1 executes it. -/
theorem not_oneCpu_of_stolenNext :
    [stolenNext, staleCpu].Forall fun acts => ∃ s, run step init acts = some s ∧ s.pc 0 = .load (some 2) ∧
      s.executing 1 = some 2 ∧ ¬ s.LoadsSaved ∧ ∃ s', s.step (.load 0) = some s' ∧ ¬ s'.OneCpu := by
  rw [List.forall_iff_forall_mem]
  have hboth : ∀ acts ∈ [stolenNext, staleCpu], ∃ s, run step init acts = some s ∧ s.pc 0 = .load (some 2) ∧
      s.executing 1 = some 2 ∧ s.saved 2 = false ∧
      ∃ s', s.step (.load 0) = some s' ∧ s'.executing 0 = some 2 ∧ s'.executing 1 = some 2 := by
    refine List.forall_mem_cons.2 ⟨?_, List.forall_mem_singleton.2 ?_⟩
    · exact ⟨_, rfl, by rfl, by decide, by decide, _, rfl, by decide, by decide⟩
    · exact ⟨_, rfl, by rfl, by decide, by decide, _, rfl, by decide, by decide⟩
  intro acts hacts
  obtain ⟨s, hrun, hpc, h1, hsaved, s', hload, h0', h1'⟩ := hboth acts hacts
  refine ⟨s, hrun, hpc, h1, ?_, s', hload, ?_⟩
  · intro hloads
    have := hloads 0 2 hpc
    rw [hsaved] at this
    cases this
  · intro hone
    have := hone 0 1 2 h0' h1'
    exact absurd this (by decide)

end Smp

end MiniOs.Sched
