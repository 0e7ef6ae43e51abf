/-
The books of process control: `all_tasks` lists the tasks there are, a task is current on at most one CPU,
a zombie is on its way out of `do_exit`, and a stopped task is in `do_signal_stop`, not current anywhere
once its CPU has switched. Calls that neither make nor free a task keep them, with every task's parent,
group and session.
-/
import MiniOs.Proofs.Sched.Kill

namespace MiniOs.Sched

open Library Runqueues Function

namespace Procs

variable {s s' s'' : Procs} {t u p : Pid} {c me : Cpu} {wakes : Pid → Prop} {w : Wait} {k : Sleep}

/-! ## The invariant -/

/-- The task rests in this sleep until another one wakes it, or for good. -/
def restsIn (queues : Runqueues) (t : Pid) : Sleep → Bool
  | .stop => queues.hasState t .stopped
  | .exit => queues.hasState t .zombie
  | _ => false

structure Inv (s : Procs) : Prop where
  tidied : Tidied s.queues
  listed : ∀ t, t ∈ s.allTasks ↔ (s.queues.tasks t).isSome = true
  once : s.allTasks.Nodup
  alone : ∀ c d t, s.queues.curr c = some t → s.queues.curr d = some t → c = d
  exclusive : ∀ t task, s.queues.tasks t = some task → Exclusive task.pending
  undead : ∀ t, s.hasState t .dead = false
  parked : ∀ t k, restsIn s.queues t k = true → s.mode t = .block k ∨ s.mode t = .away k ∧ ∀ c, s.queues.curr c ≠ some t
  /-- A task that has been freed on its CPU is at the end of `do_exit`. -/
  leaving : ∀ c t, s.queues.curr c = some t → s.queues.tasks t = none → s.mode t = .block .exit

/-- A task that is there and is neither a zombie nor stopped. -/
structure AtWork (queues : Runqueues) (p : Pid) : Prop where
  present : (queues.tasks p).isSome = true
  rests : ∀ k, restsIn queues p k = false

variable {queues : Runqueues}

theorem AtWork.zombie (hp : AtWork queues p) : queues.hasState p .zombie = false := hp.rests .exit

theorem AtWork.stopped (hp : AtWork queues p) : queues.hasState p .stopped = false := hp.rests .stop

/-- A current task is at work until it blocks for good or for a stop. -/
theorem Inv.atWork (h : s.Inv) (hcurr : s.queues.curr c = some p) (hexit : s.mode p ≠ .block .exit)
    (hstop : s.mode p ≠ .block .stop) : AtWork s.queues p := by
  constructor
  · by_contra hnone
    exact hexit (h.leaving c p hcurr (by simpa using hnone))
  · intro k
    by_contra hrests
    have hrests : restsIn s.queues p k = true := by simpa using hrests
    rcases h.parked p k hrests with hmode | ⟨-, hoff⟩
    · cases k with
      | stop => exact hstop hmode
      | exit => exact hexit hmode
      | _ => cases hrests
    · exact hoff c hcurr

theorem Inv.wakeable (h : s.Inv) (hp : AtWork s.queues p) : Wakeable (fun _ => False) s.queues p := by
  intro task htask
  have hz := hp.zombie
  have hs := hp.stopped
  have hd := h.undead p
  simp only [hasState, Runqueues.hasState, htask, Option.any_some, beq_eq_false_iff_ne] at hz hs hd
  exact ⟨hz, hd, fun hstop => absurd hstop hs⟩

/-- Whoever rests later rests before. -/
theorem Signals.rests_before (h : Signals wakes s s') {k : Sleep} (hrests : restsIn s'.queues t k = true) :
    restsIn s.queues t k = true := by
  cases k with
  | stop => exact h.queues.stopped_before hrests
  | exit => exact (h.queues.hasState_zombie t).symm.trans hrests
  | _ => cases hrests

/-! ## Steps that keep the tasks and their groups -/

structure Advances (wakes : Pid → Prop) (s s' : Procs) : Prop where
  inv : s'.Inv
  allTasks : s'.allTasks = s.allTasks
  nextPid : s.queues.nextPid ≤ s'.queues.nextPid
  parent : ∀ t, (s'.queues.tasks t).bind Task.parent = (s.queues.tasks t).bind Task.parent
  zombie : ∀ t, s.hasState t .zombie = true → s'.hasState t .zombie = true
  stopped : ∀ t, s.hasState t .stopped = true → s'.hasState t .stopped = true ∨ wakes t
  isUser : ∀ t, (s'.procs t).isUser = (s.procs t).isUser
  pgid : ∀ t, (s'.procs t).pgid = (s.procs t).pgid
  sid : ∀ t, (s'.procs t).sid = (s.procs t).sid

theorem Advances.refl (wakes : Pid → Prop) (h : s.Inv) : Advances wakes s s where
  inv := h
  allTasks := rfl
  nextPid := Nat.le_refl _
  parent _ := rfl
  zombie _ := id
  stopped _ := Or.inl
  isUser _ := rfl
  pgid _ := rfl
  sid _ := rfl

theorem Advances.trans (h : Advances wakes s s') (h' : Advances wakes s' s'') : Advances wakes s s'' where
  inv := h'.inv
  allTasks := h'.allTasks.trans h.allTasks
  nextPid := h.nextPid.trans h'.nextPid
  parent t := (h'.parent t).trans (h.parent t)
  zombie t hz := h'.zombie t (h.zombie t hz)
  stopped t hs := (h.stopped t hs).elim (h'.stopped t) Or.inr
  isUser t := (h'.isUser t).trans (h.isUser t)
  pgid t := (h'.pgid t).trans (h.pgid t)
  sid t := (h'.sid t).trans (h.sid t)

theorem Inv.signals (h : s.Inv) (hs : Signals wakes s s') : s'.Inv where
  tidied := hs.tidied h.tidied
  listed t := by rw [hs.allTasks, hs.queues.isSome, h.listed]
  once := by rw [hs.allTasks]; exact h.once
  alone c d t := by rw [hs.curr]; exact h.alone c d t
  exclusive t task' htask' := by
    obtain ⟨task, htask, hstirred⟩ := hs.queues.before htask'
    exact hstirred.exclusive (h.exclusive t task htask)
  undead t := (hs.queues.hasState_dead t).trans (h.undead t)
  parked t k hrests := by
    rw [hs.mode, hs.curr]
    exact h.parked t k (hs.rests_before hrests)
  leaving c t hcurr hnone := by
    rw [hs.curr] at hcurr
    rw [hs.mode]
    have hsome := hs.queues.isSome t
    rw [hnone] at hsome
    exact h.leaving c t hcurr (by simpa using hsome.symm)

theorem Inv.advances_signals (h : s.Inv) (hs : Signals wakes s s') : Advances wakes s s' where
  inv := h.signals hs
  allTasks := hs.allTasks
  nextPid := hs.queues.nextPid.ge
  parent := hs.queues.parent
  zombie t hz := (hs.queues.hasState_zombie t).trans hz
  stopped t hstop := hs.queues.stopped_after hstop
  isUser := hs.isUser
  pgid := hs.pgid
  sid t := by rcases hs.procs t with heq | ⟨-, -, heq⟩ <;> rw [heq]

/-- The invariant does not read `procs` or `jiffies`. -/
theorem Inv.setProcs (h : s.Inv) (procs : Pid → Proc) (jiffies : Nat) :
    Inv { s with procs := procs, jiffies := jiffies } :=
  ⟨h.tidied, h.listed, h.once, h.alone, h.exclusive, h.undead, h.parked, h.leaving⟩

theorem Inv.advances_modifyProc (h : s.Inv) {f : Proc → Proc} (huser : (f (s.procs t)).isUser = (s.procs t).isUser)
    (hpgid : (f (s.procs t)).pgid = (s.procs t).pgid) (hsid : (f (s.procs t)).sid = (s.procs t).sid) :
    Advances wakes s (s.modifyProc t f) := by
  have hfield : ∀ {α : Type} (field : Proc → α), field (f (s.procs t)) = field (s.procs t) →
      ∀ u, field ((s.modifyProc t f).procs u) = field (s.procs u) := by
    intro α field heq u
    unfold modifyProc
    dsimp only
    by_cases hu : u = t
    · rw [hu, update_self, heq]
    · rw [update_of_ne hu]
  exact { Advances.refl wakes h with
    inv := h.setProcs _ s.jiffies
    isUser := hfield Proc.isUser huser
    pgid := hfield Proc.pgid hpgid
    sid := hfield Proc.sid hsid }

theorem Inv.advances_jiffies (h : s.Inv) (jiffies : Nat) : Advances wakes s { s with jiffies := jiffies } :=
  { Advances.refl wakes h with inv := h.setProcs s.procs jiffies }

theorem Inv.advances_goto (h : s.Inv) (hp : AtWork s.queues p) (mode : Mode) : Advances wakes s (s.goto p mode) := by
  refine { Advances.refl wakes h with inv :=
    { h with parked := fun t k hrests => ?_, leaving := fun c t hcurr hnone => ?_ } }
  · have htp : t ≠ p := by
      rintro rfl
      have hnot := hp.rests k
      rw [show restsIn s.queues t k = true from hrests] at hnot
      cases hnot
    simp only [goto, update_of_ne htp]
    exact h.parked t k hrests
  · have htp : t ≠ p := by
      rintro rfl
      have hthere := hp.present
      rw [show s.queues.tasks t = none from hnone] at hthere
      cases hthere
    simp only [goto, update_of_ne htp]
    exact h.leaving c t hcurr hnone

/-! ## Sleeping and switching -/

theorem Signals.atWork (h : Signals wakes s s') (hp : AtWork s.queues p) : AtWork s'.queues p := by
  refine ⟨(h.queues.isSome p).trans hp.present, fun k => ?_⟩
  by_contra hrests
  have hback := h.rests_before (k := k) (by simpa using hrests)
  rw [hp.rests k] at hback
  cases hback

/-- A task blocks in a state that fits where it is. -/
theorem Inv.advances_block (h : s.Inv) (hp : AtWork s.queues p) (state : TaskState) (hdead : state ≠ .dead)
    (hzombie : state = .zombie → s.mode p = .block .exit) (hstop : state = .stopped → s.mode p = .block .stop) :
    Advances wakes s { s with queues := s.queues.schedBlock p state } where
  inv :=
    { tidied := h.tidied.schedBlock p state
      listed := fun t => by
        rw [h.listed]
        dsimp only
        rw [schedBlock_tasks]
        split_ifs with htp
        · rw [htp, Option.isSome_map]
        · rfl
      once := h.once
      alone := by simpa using h.alone
      exclusive := fun t task htask => by
        dsimp only at htask
        rw [schedBlock_tasks] at htask
        split_ifs at htask
        · obtain ⟨task', htask', rfl⟩ := Option.map_eq_some_iff.1 htask
          exact h.exclusive p task' htask'
        · exact h.exclusive t task htask
      undead := fun t => by
        unfold hasState
        rw [hasState_schedBlock]
        split_ifs
        · simp [hdead]
        · exact h.undead t
      parked := fun t k hrests => by
        simp only [schedBlock_curr]
        by_cases htp : t = p
        · subst htp
          left
          cases k with
          | stop => exact hstop (by simpa [restsIn, hasState_schedBlock, hp.present] using hrests)
          | exit => exact hzombie (by simpa [restsIn, hasState_schedBlock, hp.present] using hrests)
          | _ => cases hrests
        · refine h.parked t k ?_
          cases k with
          | stop => simpa [restsIn, hasState_schedBlock, htp] using hrests
          | exit => simpa [restsIn, hasState_schedBlock, htp] using hrests
          | _ => cases hrests
      leaving := fun c t hcurr hnone => by
        simp only [schedBlock_curr] at hcurr
        refine h.leaving c t hcurr ?_
        dsimp only at hnone
        rw [schedBlock_tasks] at hnone
        split_ifs at hnone with htp
        · rw [htp]
          exact Option.map_eq_none_iff.1 hnone
        · exact hnone }
  allTasks := rfl
  nextPid := by simp
  parent t := by
    dsimp only
    rw [schedBlock_tasks]
    split_ifs with htp
    · rw [htp]
      cases s.queues.tasks p <;> rfl
    · rfl
  zombie t hz := by
    have htp : t ≠ p := by
      rintro rfl
      rw [hasState, hp.zombie] at hz
      cases hz
    unfold hasState
    rw [hasState_schedBlock, if_neg htp]
    exact hz
  stopped t hs := by
    have htp : t ≠ p := by
      rintro rfl
      rw [hasState, hp.stopped] at hs
      cases hs
    left
    unfold hasState
    rw [hasState_schedBlock, if_neg htp]
    exact hs
  isUser _ := rfl
  pgid _ := rfl
  sid _ := rfl

/-- A task is current after `schedule` because it is on this CPU's queue or because it was before. -/
theorem curr_of_schedule {queues queues' : Runqueues} (h : Tidied queues) (hs : queues.schedule me = some queues')
    (hc : queues'.curr c = some t) : c = me ∧ t ∈ queues'.rqTasks me ∨ c ≠ me ∧ queues.curr c = some t := by
  obtain ⟨next, hcurr, hnext⟩ := schedule_curr h hs
  rw [hcurr] at hc
  by_cases hcme : c = me
  · subst hcme
    rw [update_self] at hc
    exact Or.inl ⟨rfl, hnext t hc⟩
  · rw [update_of_ne hcme] at hc
    exact Or.inr ⟨hcme, hc⟩

theorem unlinked_of_rests (h : Tidied queues) (hrests : restsIn queues t k = true) : queues.linked t = false := by
  cases k with
  | stop => exact unlinked_of_hasState h (by decide) hrests
  | exit => exact unlinked_of_hasState h (by decide) hrests
  | _ => cases hrests

/-- A task at rest is on no queue, so `schedule` does not make it current. -/
theorem not_curr_of_schedule {queues queues' : Runqueues} (h : Tidied queues) (hs : queues.schedule me = some queues')
    (hrests : restsIn queues' t k = true) (hc : queues.curr c = some t → c = me) : queues'.curr c ≠ some t := by
  intro hcur
  have htidied : Tidied queues' := h.schedule (fun _ _ => id) hs
  rcases curr_of_schedule h hs hcur with ⟨-, hmem⟩ | ⟨hne, hcur'⟩
  · have hoff := unlinked_of_rests htidied hrests
    rw [linked_iff.2 ⟨me, hmem⟩] at hoff
    cases hoff
  · exact hne (hc hcur')

theorem Inv.schedule_alone (h : s.Inv) (hs : s.queues.schedule me = some queues) (c d : Cpu) (t : Pid)
    (hc : queues.curr c = some t) (hd : queues.curr d = some t) : c = d := by
  have htidied : Tidied queues := h.tidied.schedule (fun _ _ => id) hs
  have hhome : ∀ e, queues.curr e = some t → t ∈ queues.rqTasks me → me = e := fun e he hmem =>
    htidied.eq_of_bound (Or.inr ⟨trivial, he⟩) hmem
  rcases curr_of_schedule h.tidied hs hc with ⟨rfl, hmem⟩ | ⟨-, hc'⟩
  · exact hhome d hd hmem
  · rcases curr_of_schedule h.tidied hs hd with ⟨rfl, hmem⟩ | ⟨-, hd'⟩
    · exact (hhome c hc hmem).symm
    · exact h.alone c d t hc' hd'

/-- The invariant after `schedule`, with the task it leaves now inside of it or, when it was not blocked,
where it was. -/
theorem Inv.switch (h : s.Inv) (hs : s.queues.schedule me = some queues) {mode : Pid → Mode}
    (hmode : ∀ t, mode t = s.mode t ∨ s.queues.curr me = some t ∧ ∃ k, s.mode t = .block k ∧ mode t = .away k) :
    Inv { s with queues := queues, mode := mode } := by
  have hstirs := stirs_schedule h.tidied hs
  have htidied : Tidied queues := h.tidied.schedule (fun _ _ => id) hs
  refine ⟨htidied, fun t => ?_, h.once, h.schedule_alone hs, fun t task' htask' => ?_,
    fun t => (hstirs.hasState_dead t).trans (h.undead t), fun t k' hrests => ?_, fun c t hcur hnone => ?_⟩
  · dsimp only
    rw [hstirs.isSome, h.listed]
  · obtain ⟨task, htask, hstirred⟩ := hstirs.before htask'
    exact hstirred.exclusive (h.exclusive t task htask)
  · have hbefore : restsIn s.queues t k' = true := by
      cases k' with
      | stop => exact hstirs.stopped_before hrests
      | exit => exact (hstirs.hasState_zombie t).symm.trans hrests
      | _ => cases hrests
    have hmodes := h.parked t k' hbefore
    rcases hmode t with heq | ⟨hcur, k, hk, heq⟩
    · dsimp only
      rw [heq]
      exact hmodes.imp_right fun ⟨haway, hoff⟩ =>
        ⟨haway, fun c => not_curr_of_schedule h.tidied hs hrests fun hc => absurd hc (hoff c)⟩
    · rw [hk] at hmodes
      simp only [Mode.block.injEq, reduceCtorEq, false_and, or_false] at hmodes
      exact Or.inr ⟨heq.trans (by rw [hmodes]), fun c =>
        not_curr_of_schedule h.tidied hs hrests fun hc => h.alone c me t hc hcur⟩
  · -- a task that is current and gone is not the one that has just been chosen
    dsimp only at hcur hnone ⊢
    rcases curr_of_schedule h.tidied hs hcur with ⟨-, hmem⟩ | ⟨hne, hcur'⟩
    · obtain ⟨task, htask, -⟩ := htidied.onCpu me t hmem
      rw [hnone] at htask
      cases htask
    · have hsome := hstirs.isSome t
      rw [hnone] at hsome
      have hbefore := h.leaving c t hcur' (by simpa using hsome.symm)
      rcases hmode t with heq | ⟨hcurme, -⟩
      · rw [heq, hbefore]
      · exact absurd (h.alone c me t hcur' hcurme) hne

theorem Inv.advances_switch (h : s.Inv) (hs : s.queues.schedule me = some queues) {mode : Pid → Mode}
    (hmode : ∀ t, mode t = s.mode t ∨ s.queues.curr me = some t ∧ ∃ k, s.mode t = .block k ∧ mode t = .away k) :
    Advances wakes s { s with queues := queues, mode := mode } := by
  have hstirs := stirs_schedule h.tidied hs
  exact
    { inv := h.switch hs hmode
      allTasks := rfl
      nextPid := hstirs.nextPid.ge
      parent := hstirs.parent
      zombie := fun t hz => (hstirs.hasState_zombie t).trans hz
      stopped := fun t hstop => (hstirs.stopped_after hstop).imp_right False.elim
      isUser := fun _ => rfl
      pgid := fun _ => rfl
      sid := fun _ => rfl }

/-! ## The calls -/

theorem Inv.advances_notifyParent (h : s.Inv) (me : Cpu) (child : Pid) :
    Advances (fun _ => False) s { s with queues := s.queues.notifyParent me child } :=
  h.advances_signals (signals_of_stirs (stirs_notifyParent s.queues me child) (fun hq => hq.notifyParent me child)
    (by simp))

theorem Inv.advances_doExit (h : s.Inv) (hp : AtWork s.queues p) (me : Cpu) (code : Nat) :
    Advances (fun _ => False) s (s.doExit me p code) := by
  have h1 : Advances (fun _ => False) s (s.modifyProc p fun proc =>
    { proc with exitCode := code, waitEvent := .none }) :=
    h.advances_modifyProc rfl rfl rfl
  have h2 := h1.trans (h1.inv.advances_goto hp (.block .exit))
  -- the mode is set first here, which the step hides
  have h3 := h2.trans (h2.inv.advances_block hp .zombie (by decide) (fun _ => by simp [goto]) (by simp))
  exact h3.trans (h3.inv.advances_notifyParent me p)

theorem Inv.advances_doSignalStop (h : s.Inv) (hp : AtWork s.queues p) (me : Cpu) (sig : Nat) :
    Advances (fun _ => False) s (s.doSignalStop me p sig) := by
  have h1 : Advances (fun _ => False) s (s.modifyProc p fun proc =>
    { proc with stopSignal := sig, waitEvent := .stopped }) :=
    h.advances_modifyProc rfl rfl rfl
  have h2 := h1.trans (h1.inv.advances_goto hp (.block .stop))
  have hsig := signals_of_stirs (s :=
    (s.modifyProc p fun proc => { proc with stopSignal := sig, waitEvent := .stopped }).goto p (.block .stop))
    (stirs_notifyParent _ me p) (fun hq => hq.notifyParent me p) (by simp)
  have h3 := h2.trans (h2.inv.advances_signals hsig)
  exact h3.trans (h3.inv.advances_block (hsig.atWork hp) .stopped (by decide) (by simp) fun _ => by simp [goto])

theorem signals_dropPending (wakes : Pid → Prop) (s : Procs) (t : Pid) (sig : Nat) :
    Signals wakes s (s.dropPending t sig) := by
  refine signals_of_stirs (stirs_modify fun task _ => ?_) (fun hq => hq.modify (fun _ => rfl) fun _ hrun => hrun) rfl
  exact { Task.Stirred.refl (wakes t) task with exclusive := fun hex => hex.and _ }

theorem Inv.advances_doSignal (h : s.Inv) (hp : AtWork s.queues p) (me : Cpu) (task : Task) (framed : Bool) :
    Advances (fun _ => False) s (s.doSignal me p task framed) := by
  unfold doSignal
  dsimp only
  generalize nextPendingSignal task.pending task.blocked = sig
  by_cases hsig : sig = 0
  · rw [if_pos hsig]
    exact .refl _ h
  rw [if_neg hsig]
  generalize (s.procs p).actions sig = ka
  have hsig := signals_dropPending (fun _ => False) s p sig
  have hdrop := h.advances_signals hsig
  have hp' := hsig.atWork hp
  cases verdict p sig ka with
  | exit code => exact hdrop.trans (hdrop.inv.advances_doExit hp' me code)
  | stop sig' => exact hdrop.trans (hdrop.inv.advances_doSignalStop hp' me sig')
  | ignore => exact hdrop
  | shutdown => exact hdrop
  | handle =>
    have hreset : Advances (fun _ => False) s ((s.dropPending p sig).modifyProc p fun proc =>
        { proc with actions := update proc.actions sig { ka with saHandler := sigDfl } }) :=
      hdrop.trans (hdrop.inv.advances_modifyProc rfl rfl rfl)
    dsimp only
    split_ifs
    · exact hreset
    · exact hdrop
    · exact hreset.trans (hreset.inv.advances_doExit hp' me sigsegv)
    · exact hdrop.trans (hdrop.inv.advances_doExit hp' me sigsegv)

theorem Inv.advances_sleep (h : s.Inv) (hp : AtWork s.queues p) (k : Sleep) (deadline : Nat) :
    Advances (fun _ => False) s (s.sleep p k deadline) := by
  have h1 : Advances (fun _ => False) s (s.modifyProc p fun proc => { proc with wakeJiffies := deadline }) :=
    h.advances_modifyProc rfl rfl rfl
  have h2 := h1.trans (h1.inv.advances_goto hp (.block k))
  exact h2.trans (h2.inv.advances_block hp .sleeping (by decide) (by simp) (by simp))

theorem Inv.signals_relink (h : s.Inv) (hp : AtWork s.queues p) (me : Cpu) :
    Signals (fun _ => False) s (s.relink me p) := by
  unfold relink
  split_ifs
  · exact .refl _ s
  · exact signals_of_stirs (stirs_enqueueTask (h.wakeable hp) me) (fun hq => hq.enqueueTask me p) (by simp)

theorem Inv.advances_resume (h : s.Inv) (hp : AtWork s.queues p) (hs : s.resume me p k = some s') :
    Advances (fun _ => False) s s' := by
  have hfinish : Advances (fun _ => False) s { s.goto p .run with queues := s.queues.finishWait me p } := by
    have h1 : Advances (fun _ => False) s (s.goto p .run) := h.advances_goto hp .run
    refine h1.trans (h1.inv.advances_signals (signals_of_stirs ?_ (fun hq => hq.finishWait me p) (by simp [goto])))
    exact stirs_finishWait (h.wakeable hp) me
  cases k with
  | nap =>
    cases hs
    have h1 : Advances (fun _ => False) s (s.modifyProc p fun proc => { proc with wakeJiffies := 0 }) :=
      h.advances_modifyProc rfl rfl rfl
    have hlink := h1.inv.signals_relink hp me
    have h2 := h1.trans (h1.inv.advances_signals hlink)
    exact h2.trans (h2.inv.advances_goto (hlink.atWork hp) .run)
  | queue =>
    cases hs
    exact hfinish
  | stop =>
    cases hs
    exact hfinish
  | wait w =>
    cases hs
    have hlink := h.signals_relink hp me
    have h1 := h.advances_signals hlink
    exact h1.trans (h1.inv.advances_goto (hlink.atWork hp) (.waiting w))
  | exit => cases hs

theorem signals_tick (s : Procs) (me : Cpu) : Signals (fun _ => False) { s with jiffies := s.jiffies + 1 }
    (s.tick me) := by
  unfold tick
  dsimp only
  -- the loop from any state it has reached
  suffices hloop : ∀ (l : List Pid) (r : Procs), Signals (fun _ => False) r (l.foldl (fun s t =>
      if s.hasState t .sleeping && (s.procs t).wakeJiffies != 0 && decide ((s.procs t).wakeJiffies ≤ s.jiffies) then
        { s with queues := s.queues.wakeUpProcess me t }
      else s) r) from hloop s.allTasks _
  intro l
  induction l with
  | nil => exact fun r => .refl _ r
  | cons t rest ih =>
    intro r
    rw [List.foldl_cons]
    refine Signals.trans ?_ (ih _)
    split_ifs with hdue
    · have hsleep := (Bool.and_eq_true_iff.1 (Bool.and_eq_true_iff.1 hdue).1).1
      exact signals_wakeUpProcess (wakeable_of_hasState hsleep (by decide) (by decide) (by simp)) me
    · exact .refl _ r

theorem Inv.advances_tick (h : s.Inv) (me : Cpu) : Advances (fun _ => False) s (s.tick me) := by
  have h1 : Advances (fun _ => False) s { s with jiffies := s.jiffies + 1 } := h.advances_jiffies _
  exact h1.trans (h1.inv.advances_signals (signals_tick s me))

end Procs

end MiniOs.Sched
