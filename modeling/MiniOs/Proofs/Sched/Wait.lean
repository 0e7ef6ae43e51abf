/-
What `wait4` reports. A zombie is reported once, with its exit code, and is gone then; an event of a child
is reported at most once for each time the child stopped or went on; `-ECHILD` and the 0 of `WNOHANG` mean
what they say.
-/
import MiniOs.Proofs.Sched.ProcessRun

namespace MiniOs.Sched

open Library Runqueues

namespace Procs

variable {s s' : Procs} {t p z : Pid} {me : Cpu} {w : Wait} {wakes : Pid → Prop} {a : Act} {out : Option Waited}

/-! ## One round -/

/-- A child that the selector matches. -/
def HasChild (s : Procs) (p : Pid) (w : Wait) (t : Pid) : Prop := t ∈ s.allTasks ∧ s.isChild p w t = true

theorem findChild_none_iff (state : Option TaskState) :
    s.findChild p w state = none ↔ ∀ t, s.HasChild p w t → state.all (s.hasState t) = false := by
  unfold findChild HasChild
  rw [List.find?_eq_none]
  constructor
  · rintro h t ⟨ht, hchild⟩
    simpa [hchild] using h t ht
  · intro h t ht htest
    obtain ⟨hchild, hstate⟩ := Bool.and_eq_true_iff.1 htest
    rw [h t ⟨ht, hchild⟩] at hstate
    cases hstate

theorem findEvent_none_iff (event : ChildEvent) :
    s.findEvent p w event = none ↔ ∀ t, s.HasChild p w t → (s.procs t).waitEvent ≠ event := by
  unfold findEvent HasChild
  rw [List.find?_eq_none]
  constructor
  · rintro h t ⟨ht, hchild⟩
    simpa [hchild] using h t ht
  · intro h t ht htest
    obtain ⟨hchild, hevent⟩ := Bool.and_eq_true_iff.1 htest
    exact h t ⟨ht, hchild⟩ (by simpa using hevent)

theorem findEvent_some {event : ChildEvent} (h : s.findEvent p w event = some t) : s.HasChild p w t ∧
    (s.procs t).waitEvent = event := by
  have htest := List.find?_some h
  simp only [Bool.and_eq_true, decide_eq_true_eq] at htest
  exact ⟨⟨List.mem_of_find?_eq_some h, htest.1⟩, htest.2⟩

/-- Neither a zombie nor an event that the options select. -/
structure NothingToReport (s : Procs) (p : Pid) (w : Wait) : Prop where
  zombie : ∀ t, s.HasChild p w t → s.hasState t .zombie = false
  event : ∀ t event, s.HasChild p w t → wants w event = true → (s.procs t).waitEvent ≠ event

/-- A round returns `-ECHILD` exactly when there is no child to wait for. -/
theorem waitRound_echild_iff (s : Procs) (p : Pid) (w : Wait) :
    (s.waitRound p w).1 = .ret (.error .child) ↔ ∀ t, ¬ s.HasChild p w t := by
  have hall : s.findChild p w none = none ↔ ∀ t, ¬ s.HasChild p w t := by
    rw [findChild_none_iff]
    simp
  obtain ⟨z, hz, heq⟩ | ⟨-, ⟨t, event, hw, hfind, heq⟩ | ⟨-, heq⟩⟩ := s.waitRound_cases p w <;> rw [heq]
  · refine iff_of_false (by simp) fun hnone => ?_
    obtain ⟨hmem, hchild, -⟩ := findChild_some hz
    exact hnone z ⟨hmem, hchild⟩
  · refine iff_of_false ?_ fun hnone => hnone t (findEvent_some hfind).1
    unfold eventRet stoppedRet
    cases event <;> simp
  · rw [← hall]
    obtain ⟨hnone, heq'⟩ | ⟨hsome, ⟨-, heq'⟩ | ⟨-, heq' | heq' | heq'⟩⟩ := s.waitIdle_cases p w <;> rw [heq']
    · simp [hnone]
    all_goals
      refine iff_of_false (by simp) fun hnone => ?_
      rw [hnone] at hsome
      cases hsome

/-- With `WNOHANG` a round returns, and 0 exactly when there are children but nothing to report. -/
theorem waitRound_nohang (hnohang : w.has wnohang = true) :
    ∃ ret, (s.waitRound p w).1 = .ret ret ∧ (ret = .nothing ↔ (∃ t, s.HasChild p w t) ∧ s.NothingToReport p w) := by
  obtain ⟨z, hz, heq⟩ | ⟨hzombies, ⟨t, event, hw, hfind, heq⟩ | ⟨hevents, heq⟩⟩ := s.waitRound_cases p w <;> rw [heq]
  · refine ⟨_, rfl, iff_of_false (by simp) fun ⟨_, hidle⟩ => ?_⟩
    obtain ⟨hmem, hchild, hzombie⟩ := findChild_some hz
    rw [hidle.zombie z ⟨hmem, hchild⟩] at hzombie
    cases hzombie
  · refine ⟨_, rfl, iff_of_false ?_ fun ⟨_, hidle⟩ => ?_⟩
    · unfold eventRet stoppedRet
      cases event <;> simp
    · obtain ⟨hchild, hevent⟩ := findEvent_some hfind
      exact hidle.event t event hchild hw hevent
  · -- nothing was found: it depends on whether there is a child
    have hidle : s.NothingToReport p w :=
      ⟨fun t ht => (findChild_none_iff (some .zombie)).1 hzombies t ht, fun t event ht hw =>
        (findEvent_none_iff event).1 (hevents event hw) t ht⟩
    obtain ⟨hnone, heq'⟩ | ⟨hsome, ⟨-, heq'⟩ | ⟨hno, -⟩⟩ := s.waitIdle_cases p w
    · rw [heq']
      refine ⟨_, rfl, iff_of_false (by simp) fun ⟨⟨t, ht⟩, _⟩ => ?_⟩
      have := (findChild_none_iff none).1 hnone t ht
      cases this
    · rw [heq']
      refine ⟨_, rfl, iff_of_true rfl ⟨?_, hidle⟩⟩
      obtain ⟨t, ht⟩ := Option.isSome_iff_exists.1 hsome
      have htest := List.find?_some ht
      exact ⟨t, List.mem_of_find?_eq_some ht, (Bool.and_eq_true_iff.1 htest).1⟩
    · rw [hnohang] at hno
      cases hno

/-! ## What a step returns -/

theorem step_waited {r : Waited} (hs : s.step a = some (s', some r)) :
    r.ret = .error .inval ∧ (r.call.pid < -1 ∨ r.call.pid = 0) ∨
    ∃ me, a = .waitRound me ∧ s.queues.curr me = some r.caller ∧ s.mode r.caller = .waiting r.call ∧
      (s.waitRound r.caller r.call).1 = .ret r.ret ∧ s' = (s.waitRound r.caller r.call).2.goto r.caller .run := by
  cases steps_of_step hs with
  | badWait hbad => exact Or.inl ⟨rfl, hbad⟩
  | @waitRound me p w _ _ hcurr hmode heq =>
    cases hround : (s.waitRound p w).1 with
    | ret ret =>
      rw [hround] at heq
      cases heq
      exact Or.inr ⟨me, rfl, hcurr, hmode, hround, rfl⟩
    | again =>
      rw [hround] at heq
      cases heq
    | sleep =>
      rw [hround] at heq
      cases heq

/-- The child that is reported. -/
def reported : WaitRet → Option Pid
  | .exited t _ | .stopped t _ | .continued t _ => some t
  | _ => none

/-- What a report says of the states around the round that made it. -/
theorem waitRound_reports {ret : WaitRet} (hround : (s.waitRound p w).1 = .ret ret) (hret : reported ret = some t) :
    s.HasChild p w t ∧
      (ret = .exited t (s.procs t).exitCode ∧ s.hasState t .zombie = true ∧
        (s.waitRound p w).2 = (s.dropPending p sigchld).freeTask t ∨
        ∃ event, (s.procs t).waitEvent = event ∧ (s.waitRound p w).2 = s.takeEvent t ∧ ret = s.eventRet event t ∧
          wants w event = true) := by
  obtain ⟨z, hz, heq⟩ | ⟨-, ⟨u, event, hw, hfind, heq⟩ | ⟨-, heq⟩⟩ := s.waitRound_cases p w <;> rw [heq] at hround ⊢
  · cases hround
    cases hret
    obtain ⟨hmem, hchild, hzombie⟩ := findChild_some hz
    exact ⟨⟨hmem, hchild⟩, Or.inl ⟨rfl, hzombie, rfl⟩⟩
  · cases hround
    obtain ⟨hchild, hevent⟩ := findEvent_some hfind
    have hut : u = t := by
      unfold eventRet stoppedRet at hret
      cases event <;> exact Option.some.inj hret
    subst hut
    exact ⟨hchild, Or.inr ⟨event, hevent, rfl, rfl, hw⟩⟩
  · obtain ⟨-, heq'⟩ | ⟨-, ⟨-, heq'⟩ | ⟨-, heq' | heq' | heq'⟩⟩ :=
      s.waitIdle_cases p w <;> rw [heq'] at hround <;> cases hround <;> cases hret

/-! ## A task that is gone stays so -/

def Gone (t : Pid) (s : Procs) : Prop := t ∉ s.allTasks ∧ t < s.queues.nextPid

theorem Inv.nextPid_le (h : s.Inv) (hs : s.step a = some (s', out)) : s.queues.nextPid ≤ s'.queues.nextPid := by
  obtain ⟨me, cpu, p, -, -, rfl⟩ | ⟨me, pid, pgid, p, -, -, rfl⟩ | ⟨me, p, -, -, rfl⟩ |
    ⟨me, p, w, z, -, -, -, -, rfl⟩ | had :=
    h.step_cases hs
  · exact (Nat.le_succ _).trans (h.advances_ksysFork me p cpu).nextPid
  · rcases s.ksysSetpgid_cases p pid pgid with heq | ⟨t, g, -, -, -, -, -, -, -, heq⟩
    · rw [heq]
    · rw [heq]
      exact Nat.le_refl _
  · unfold ksysSetsid
    split_ifs <;> exact Nat.le_refl _
  · have hnext : ((s.dropPending p sigchld).queues.freeTask z).nextPid = s.queues.nextPid := by
      rw [freeTask_nextPid]
      rfl
    exact hnext.ge
  · exact had.nextPid

theorem Inv.gone_step (h : s.Inv) (hs : s.step a = some (s', out)) (hgone : Gone t s) : Gone t s' := by
  obtain ⟨hnot, hlt⟩ := hgone
  refine ⟨?_, hlt.trans_le (h.nextPid_le hs)⟩
  obtain ⟨me, cpu, p, -, -, rfl⟩ | ⟨me, pid, pgid, p, -, -, rfl⟩ | ⟨me, p, -, -, rfl⟩ |
    ⟨me, p, w, z, -, -, -, -, rfl⟩ | had :=
    h.step_cases hs
  · rw [(h.advances_ksysFork me p cpu).allTasks]
    simp [Procs.forked, hnot, hlt.ne]
  · rcases s.ksysSetpgid_cases p pid pgid with heq | ⟨t, g, -, -, -, -, -, -, -, heq⟩ <;> rw [heq] <;> exact hnot
  · unfold ksysSetsid
    split_ifs <;> exact hnot
  · exact fun hmem => hnot (List.mem_of_mem_erase hmem)
  · rw [had.allTasks]
    exact hnot

/-! ## Where events come from -/

/-- The event of `t` is taken or kept, or `t` stops or goes on in this step. -/
def Turns (s s' : Procs) (t : Pid) : Prop :=
  (s'.procs t).waitEvent = .none ∨ (s'.procs t).waitEvent = (s.procs t).waitEvent ∨
    (s'.procs t).waitEvent = .stopped ∧ s.hasState t .stopped = false ∧ s'.hasState t .stopped = true ∨
    (s'.procs t).waitEvent = .continued ∧ s.hasState t .stopped = true ∧ s'.hasState t .stopped = false

theorem turns_of_signals (h : Signals wakes s s') (t : Pid) : Turns s s' t := by
  rcases h.procs t with heq | ⟨hstop, hgone, heq⟩
  · exact Or.inr (Or.inl (by rw [heq]))
  · exact Or.inr (Or.inr (Or.inr ⟨by rw [heq], hstop, hgone⟩))

theorem turns_of_kept (h : (s'.procs t).waitEvent = (s.procs t).waitEvent) : Turns s s' t := Or.inr (Or.inl h)

theorem modifyProc_waitEvent (s : Procs) (p : Pid) (f : Proc → Proc) (hf : ∀ proc, (f proc).waitEvent = proc.waitEvent)
    (t : Pid) : ((s.modifyProc p f).procs t).waitEvent = (s.procs t).waitEvent := by
  unfold modifyProc
  by_cases htp : t = p
  · simp [htp, hf]
  · simp [htp]

theorem doExit_waitEvent (s : Procs) (me : Cpu) (p : Pid) (code : Nat) (t : Pid) :
    ((s.doExit me p code).procs t).waitEvent = if t = p then .none else (s.procs t).waitEvent := by
  unfold doExit modifyProc goto
  by_cases htp : t = p <;> simp [htp]

theorem turns_doExit {s1 : Procs} (hs1 : ∀ t, (s1.procs t).waitEvent = (s.procs t).waitEvent) (me : Cpu) (p : Pid)
    (code : Nat) (t : Pid) : Turns s (s1.doExit me p code) t := by
  unfold Turns
  rw [doExit_waitEvent]
  split_ifs
  · exact Or.inl rfl
  · exact Or.inr (Or.inl (hs1 t))

theorem turns_doSignalStop (hp : AtWork s.queues p) (me : Cpu) (sig sig' : Nat) (t : Pid) :
    Turns s ((s.dropPending p sig).doSignalStop me p sig') t := by
  have hdrop := (signals_dropPending (fun _ => False) s p sig).atWork hp
  unfold doSignalStop modifyProc goto Turns
  by_cases htp : t = p
  · subst htp
    right; right; left
    refine ⟨by simp, hp.stopped, ?_⟩
    have hthere := ((stirs_notifyParent (s.dropPending t sig).queues me t).isSome t).trans hdrop.present
    unfold hasState signalStop
    dsimp only
    rw [hasState_schedBlock, if_pos rfl, hthere]
    rfl
  · right; left
    simp [htp, dropPending]

theorem turns_doSignal (hp : AtWork s.queues p) (me : Cpu) (task : Task) (framed : Bool) (t : Pid) :
    Turns s (s.doSignal me p task framed) t := by
  unfold doSignal
  dsimp only
  generalize nextPendingSignal task.pending task.blocked = sig
  by_cases hsig : sig = 0
  · rw [if_pos hsig]
    exact turns_of_kept rfl
  rw [if_neg hsig]
  generalize (s.procs p).actions sig = ka
  cases verdict p sig ka with
  | exit code => exact turns_doExit (fun _ => by rfl) me p code t
  | stop sig' => exact turns_doSignalStop hp me sig sig' t
  | ignore => exact turns_of_kept rfl
  | shutdown => exact turns_of_kept rfl
  | handle =>
    have hreset : ∀ u, (((s.dropPending p sig).modifyProc p fun proc =>
        { proc with actions := Function.update proc.actions sig { ka with saHandler := sigDfl } }).procs u).waitEvent =
          (s.procs u).waitEvent :=
      fun u => modifyProc_waitEvent (s.dropPending p sig) p _ (fun _ => by rfl) u
    dsimp only
    split_ifs
    · exact Or.inr (Or.inl (hreset t))
    · exact turns_of_kept rfl
    · exact turns_doExit hreset me p sigsegv t
    · exact turns_doExit (fun _ => by rfl) me p sigsegv t

theorem turns_waitRound (s : Procs) (p : Pid) (w : Wait) (t : Pid) :
    Turns s ((s.waitRound p w).2.endRound p w (s.waitRound p w).1).1 t := by
  have htake : ∀ u, ((s.takeEvent u).procs t).waitEvent = .none ∨ ((s.takeEvent u).procs t).waitEvent =
    (s.procs t).waitEvent := by
    intro u
    unfold takeEvent modifyProc
    by_cases htu : t = u <;> simp [htu]
  obtain ⟨z, -, heq⟩ | ⟨-, ⟨u, event, -, -, heq⟩ | ⟨-, heq⟩⟩ := s.waitRound_cases p w <;> rw [heq]
  · exact turns_of_kept rfl
  · exact (htake u).elim Or.inl fun hsame => Or.inr (Or.inl hsame)
  · obtain ⟨-, heq'⟩ | ⟨-, ⟨-, heq'⟩ | ⟨-, heq' | heq' | heq'⟩⟩ :=
      s.waitIdle_cases p w <;> rw [heq'] <;> exact turns_of_kept rfl

theorem turns_resume {k : Sleep} (hs : s.resume me p k = some s') (t : Pid) : Turns s s' t := by
  cases k with
  | nap =>
    cases hs
    exact turns_of_kept (modifyProc_waitEvent s p (fun proc => { proc with wakeJiffies := 0 }) (fun _ => rfl) t)
  | exit => cases hs
  | _ =>
    cases hs
    exact turns_of_kept rfl

theorem Inv.turns_step (h : s.Inv) (hs : s.step a = some (s', out)) (t : Pid) : Turns s s' t := by
  cases steps_of_step hs with
  | fork hp cpu =>
    unfold ksysFork Turns
    by_cases hchild : t = s.queues.nextPid
    · exact Or.inl (by simp [hchild, Proc.zero])
    · exact Or.inr (Or.inl (by simp [hchild]))
  | exit hp status => exact turns_doExit (fun _ => by rfl) _ _ _ t
  | kill me pid sig => exact turns_of_signals (signals_ksysKill h.tidied me pid sig) t
  | doSignal hp task framed => exact turns_doSignal (h.atWork_of_calls hp) _ task framed t
  | @waitRound _ p w _ _ hcurr hmode heq =>
    have hturns := s.turns_waitRound p w t
    rwa [heq] at hturns
  | @setpgid _ p hp pid pgid =>
    rcases s.ksysSetpgid_cases p pid pgid with heq | ⟨u, g, -, -, -, -, -, -, -, heq⟩ <;> rw [heq]
    · exact turns_of_kept rfl
    · exact turns_of_kept (modifyProc_waitEvent s u _ (fun _ => by rfl) t)
  | @setsid _ p hp =>
    unfold ksysSetsid
    split_ifs
    · exact turns_of_kept rfl
    · exact turns_of_kept (modifyProc_waitEvent s p (fun proc => { proc with sid := p, pgid := p }) (fun _ => rfl) t)
  | resume hcurr hmode hres => exact turns_resume hres t
  | tick me => exact turns_of_signals (signals_tick s me) t
  | @sigaction _ p sig ka => exact turns_of_kept (modifyProc_waitEvent s p _ (fun _ => by rfl) t)
  | @nap _ p hp deadline =>
    exact turns_of_kept (modifyProc_waitEvent s p (fun proc => { proc with wakeJiffies := deadline }) (fun _ => rfl) t)
  | @prepareToWait _ p hp =>
    exact turns_of_kept (modifyProc_waitEvent s p (fun proc => { proc with wakeJiffies := 0 }) (fun _ => rfl) t)
  | _ => exact turns_of_kept rfl

/-! ## Runs and what they report -/

/-- A step, with the states around it. -/
structure Transition where
  before : Procs
  act : Act
  out : Option Waited
  after : Procs

def watch (s : Procs) (a : Act) : Option (Procs × Transition) := (s.step a).map fun r => (r.1, ⟨s, a, r.2, r.1⟩)

namespace Transition

/-- The child that is reported. -/
def reports (e : Transition) : Option Pid := e.out.bind fun r => reported r.ret

def reportsExit (t : Pid) (e : Transition) : Prop := ∃ p w code, e.out = some ⟨p, w, .exited t code⟩

def reportsStop (t : Pid) (e : Transition) : Bool :=
  match e.out with
  | some ⟨_, _, .stopped u _⟩ => u == t
  | _ => false

def reportsContinue (t : Pid) (e : Transition) : Bool :=
  match e.out with
  | some ⟨_, _, .continued u _⟩ => u == t
  | _ => false

/-- `t` stops in this step. -/
def stops (t : Pid) (e : Transition) : Bool := !e.before.hasState t .stopped && e.after.hasState t .stopped

/-- `t` leaves its stop in this step. -/
def goesOn (t : Pid) (e : Transition) : Bool := e.before.hasState t .stopped && !e.after.hasState t .stopped

/-- What a `wait4` with an accepted selector says when it returns. -/
structure Truthful (e : Transition) : Prop where
  exited : ∀ p w t code, e.out = some ⟨p, w, .exited t code⟩ →
    e.before.HasChild p w t ∧ e.before.hasState t .zombie = true ∧ code = (e.before.procs t).exitCode ∧
      t ∉ e.after.allTasks
  echild : ∀ p w ret, e.out = some ⟨p, w, ret⟩ → w.pid = -1 ∨ 0 < w.pid →
    (ret = .error .child ↔ ∀ t, ¬ e.before.HasChild p w t)
  nohang : ∀ p w ret, e.out = some ⟨p, w, ret⟩ → w.pid = -1 ∨ 0 < w.pid → w.has wnohang = true →
    (ret = .nothing ↔ (∃ t, e.before.HasChild p w t) ∧ e.before.NothingToReport p w)
  /-- A round of a `wait4` with `WNOHANG` is its last. -/
  returns : ∀ me p w, e.act = .waitRound me → e.before.queues.curr me = some p → e.before.mode p = .waiting w →
    w.has wnohang = true → e.out.isSome = true

end Transition

/-- What a run has reported: the truth at each return, no child after its exit has been reported, and for each
child no more stops and continues than there were. -/
structure Reports (es : List Transition) : Prop where
  truthful : ∀ e ∈ es, e.Truthful
  once : es.Pairwise fun e e' => ∀ t, e.reportsExit t → e'.reports ≠ some t
  stops : ∀ t, es.countP (Transition.reportsStop t) ≤ es.countP (Transition.stops t)
  continues : ∀ t, es.countP (Transition.reportsContinue t) ≤ es.countP (Transition.goesOn t)

theorem watch_some {e : Transition} (h : s.watch a = some (s', e)) : ∃ out, s.step a = some (s', out) ∧
    e = ⟨s, a, out, s'⟩ := by
  obtain ⟨⟨s1, out⟩, hs, heq⟩ := Option.map_eq_some_iff.1 h
  cases heq
  exact ⟨out, hs, rfl⟩

theorem Inv.truthful (h : s.Inv) (hs : s.step a = some (s', out)) : Transition.Truthful ⟨s, a, out, s'⟩ where
  exited p w t code hout := by
    dsimp only at hout
    subst hout
    obtain ⟨hret, -⟩ | ⟨me, -, -, -, hround, rfl⟩ := step_waited hs
    · cases hret
    dsimp only at hround
    obtain ⟨hchild, ⟨hret, hzombie, hafter⟩ | ⟨event, -, -, hret, -⟩⟩ := waitRound_reports hround rfl
    · cases hret
      refine ⟨hchild, hzombie, rfl, ?_⟩
      dsimp only
      rw [hafter]
      exact fun hmem => (h.once.mem_erase_iff.1 hmem).1 rfl
    · unfold eventRet stoppedRet at hret
      cases event <;> cases hret
  echild p w ret hout hsel := by
    dsimp only at hout
    subst hout
    obtain ⟨-, hbad⟩ | ⟨me, -, -, hmode, hround, rfl⟩ := step_waited hs
    · dsimp only at hbad
      omega
    · rw [← waitRound_echild_iff, hround]
      simp
  nohang p w ret hout hsel hnohang := by
    dsimp only at hout
    subst hout
    obtain ⟨-, hbad⟩ | ⟨me, rfl, hcurr, hmode, hround, rfl⟩ := step_waited hs
    · dsimp only at hbad
      omega
    · obtain ⟨ret', hret', hiff⟩ := waitRound_nohang hnohang
      dsimp only at hround
      rw [hround] at hret'
      cases hret'
      exact hiff
  returns me p w hact hcurr hmode hnohang := by
    dsimp only at hact hcurr hmode
    subst hact
    obtain ⟨ret, hret, -⟩ := waitRound_nohang hnohang
    simp only [Procs.step, hcurr, Option.bind_some, hmode] at hs
    rw [hret] at hs
    cases hs
    rfl

theorem mem_of_reports (hs : s.step a = some (s', out)) (hreport : Transition.reports ⟨s, a, out, s'⟩ = some t) :
    t ∈ s.allTasks := by
  obtain ⟨r, hout, hr⟩ := Option.bind_eq_some_iff.1 hreport
  dsimp only at hout
  subst hout
  obtain ⟨hret, -⟩ | ⟨me, -, -, -, hround, -⟩ := step_waited hs
  · rw [hret] at hr
    cases hr
  · exact (waitRound_reports hround hr).1.1

variable {es : List Transition} {acts : List Act}

/-- Once a task is gone, no later step reports it. -/
theorem Inv.unreported (h : s.Inv) (hgone : Gone t s)
    (hrun : runTrace watch s acts = some (s', es)) : ∀ e ∈ es, e.reports ≠ some t := by
  refine (runTrace_forall (P := fun s => s.Inv ∧ Gone t s) (fun s a s' e hs hstep => ?_) ⟨h, hgone⟩ hrun).2
  obtain ⟨out, hout, rfl⟩ := watch_some hstep
  exact ⟨⟨hs.1.step hout, hs.1.gone_step hout hs.2⟩, fun hreport => hs.2.1 (mem_of_reports hout hreport)⟩

theorem Inv.reportedOnce (h : s.Inv) (hrun : runTrace watch s acts = some (s', es)) :
    es.Pairwise fun e e' => ∀ t, e.reportsExit t → e'.reports ≠ some t := by
  induction acts generalizing s es with
  | nil =>
    cases hrun
    exact List.Pairwise.nil
  | cons a rest ih =>
    obtain ⟨s1, e, es', hstep, hrest, rfl⟩ := runTrace_cons.1 hrun
    obtain ⟨out, hout, rfl⟩ := watch_some hstep
    have hinv := h.step hout
    refine List.Pairwise.cons (fun e' he' t hexit => ?_) (ih hinv hrest)
    obtain ⟨p, w, code, heq⟩ := hexit
    obtain ⟨⟨hmem, -⟩, -, -, hgone⟩ := (h.truthful hout).exited p w t code heq
    -- the pid has been given out, so it is not given out again
    have hlt : t < s.queues.nextPid := by
      by_contra hle
      rw [h.listed, h.tidied.fresh t (not_lt.1 hle)] at hmem
      cases hmem
    exact hinv.unreported ⟨hgone, hlt.trans_le (h.nextPid_le hout)⟩ hrest e' he'

/-- Reports of one kind of event of `t` do not outnumber what raises it, if a report takes the event and
nothing else makes it. -/
theorem countP_le (event : ChildEvent) (reports raises : Transition → Bool)
    (hreport : ∀ s a s' out, s.Inv → s.step a = some (s', out) → reports ⟨s, a, out, s'⟩ = true →
      (s.procs t).waitEvent = event ∧ (s'.procs t).waitEvent ≠ event)
    (hraise : ∀ s a s' out, s.Inv → s.step a = some (s', out) → (s'.procs t).waitEvent = event →
      (s.procs t).waitEvent = event ∨ raises ⟨s, a, out, s'⟩ = true)
    (h : s.Inv) (hrun : runTrace watch s acts = some (s', es)) :
    es.countP reports + (if (s'.procs t).waitEvent = event then 1 else 0) ≤
      es.countP raises + (if (s.procs t).waitEvent = event then 1 else 0) := by
  induction acts generalizing s es with
  | nil =>
    cases hrun
    exact Nat.le_refl _
  | cons a rest ih =>
    obtain ⟨s1, e, es', hstep, hrest, rfl⟩ := runTrace_cons.1 hrun
    obtain ⟨out, hout, rfl⟩ := watch_some hstep
    have hle := ih (h.step hout) hrest
    rw [List.countP_cons, List.countP_cons]
    have hr := hreport s a s1 out h hout
    have hm := hraise s a s1 out h hout
    generalize reports ⟨s, a, out, s1⟩ = r at hr ⊢
    generalize raises ⟨s, a, out, s1⟩ = m at hm ⊢
    split_ifs at hle ⊢ <;> grind

theorem takes_of_reports (event : ChildEvent) {r : Waited} (hs : s.step a = some (s', some r))
    (hr : reported r.ret = some t)
    (hkind : ∀ code, r.ret ≠ .exited t code)
    (hevent : ∀ event', wants r.call event' = true → r.ret = s.eventRet event' t → event' = event) :
    (s.procs t).waitEvent = event ∧ (s'.procs t).waitEvent = .none := by
  obtain ⟨hret, -⟩ | ⟨me, -, -, -, hround, rfl⟩ := step_waited hs
  · rw [hret] at hr
    cases hr
  obtain ⟨-, ⟨hret, -, -⟩ | ⟨event', hbefore, hafter, hret, hw⟩⟩ := waitRound_reports hround hr
  · exact absurd hret (hkind _)
  · rw [hafter]
    exact ⟨hbefore.trans (hevent event' hw hret), by simp [goto, takeEvent, modifyProc]⟩

/-- A kind of report that only this event gives rise to. -/
def ReportsOf (event : ChildEvent) (t : Pid) (reports : Transition → Bool) : Prop :=
  ∀ s a s' out, reports ⟨s, a, out, s'⟩ = true → ∃ r, out = some r ∧ reported r.ret = some t ∧
    (∀ code, r.ret ≠ .exited t code) ∧
    ∀ event', wants r.call event' = true → r.ret = s.eventRet event' t → event' = event

/-- Starting without an event, its reports do not outnumber the steps that raise it. -/
theorem reports_le_raises {event : ChildEvent} {reports raises : Transition → Bool}
    (hreport : ReportsOf event t reports)
    (hraise : ∀ s a s' out, s.Inv → s.step a = some (s', out) → (s'.procs t).waitEvent = event →
      (s.procs t).waitEvent = event ∨ raises ⟨s, a, out, s'⟩ = true)
    (hne : event ≠ .none) (h : s.Inv) (hnone : (s.procs t).waitEvent = .none)
    (hrun : runTrace watch s acts = some (s', es)) : es.countP reports ≤ es.countP raises := by
  have hle := countP_le event reports raises (fun s a s' out _ hs hrep => ?_) hraise h hrun
  · have hfirst : (if (s.procs t).waitEvent = event then 1 else 0) = 0 := by simp [hnone, hne.symm]
    omega
  · obtain ⟨r, rfl, hr, hkind, hevent⟩ := hreport s a s' out hrep
    obtain ⟨hbefore, hafter⟩ := takes_of_reports event hs hr hkind hevent
    exact ⟨hbefore, by rw [hafter]; exact hne.symm⟩

theorem reportsOf_reportsStop (t : Pid) : ReportsOf .stopped t (Transition.reportsStop t) := by
  intro s a s' out hrep
  unfold Transition.reportsStop at hrep
  split at hrep
  · next p w u code hout =>
    obtain rfl : u = t := by simpa using hrep
    refine ⟨_, hout, rfl, by simp, fun event' hw hret => ?_⟩
    cases event' with
    | none => cases hw
    | stopped => rfl
    | continued =>
      cases hret
  · cases hrep

theorem reportsOf_reportsContinue (t : Pid) : ReportsOf .continued t (Transition.reportsContinue t) := by
  intro s a s' out hrep
  unfold Transition.reportsContinue at hrep
  split at hrep
  · next p w u code hout =>
    obtain rfl : u = t := by simpa using hrep
    refine ⟨_, hout, rfl, by simp, fun event' hw hret => ?_⟩
    cases event' with
    | none => cases hw
    | continued => rfl
    | stopped =>
      cases hret
  · cases hrep

theorem Inv.stops_of_event (h : s.Inv) (hs : s.step a = some (s', out)) (hevent : (s'.procs t).waitEvent = .stopped) :
    (s.procs t).waitEvent = .stopped ∨ Transition.stops t ⟨s, a, out, s'⟩ = true := by
  rcases h.turns_step hs t with hno | hsame | ⟨-, hbefore, hafter⟩ | ⟨hcont, -⟩
  · rw [hevent] at hno
    cases hno
  · exact Or.inl (hsame.symm.trans hevent)
  · exact Or.inr (by simp [Transition.stops, hbefore, hafter])
  · rw [hevent] at hcont
    cases hcont

theorem Inv.goesOn_of_event (h : s.Inv) (hs : s.step a = some (s', out))
    (hevent : (s'.procs t).waitEvent = .continued) :
    (s.procs t).waitEvent = .continued ∨ Transition.goesOn t ⟨s, a, out, s'⟩ = true := by
  rcases h.turns_step hs t with hno | hsame | ⟨hstop, -⟩ | ⟨-, hbefore, hafter⟩
  · rw [hevent] at hno
    cases hno
  · exact Or.inl (hsame.symm.trans hevent)
  · rw [hevent] at hstop
    cases hstop
  · exact Or.inr (by simp [Transition.goesOn, hbefore, hafter])

/-- In every run, every report is right and nothing is reported twice. -/
theorem run_reports {cpu : Nat} {acts : List Act} {es : List Transition}
    (hrun : runTrace watch (init cpu) acts = some (s, es)) : Reports es := by
  have hnone : ∀ t, ((init cpu).procs t).waitEvent = .none := by
    intro t
    by_cases ht : t = 1 <;> simp [init, ht, Proc.zero]
  refine ⟨?truthful, (init_inv cpu).reportedOnce hrun, fun t => ?stops, fun t => ?continues⟩
  case stops =>
    refine reports_le_raises (reportsOf_reportsStop t) ?_ (by simp) (init_inv cpu) (hnone t) hrun
    exact fun s a s' out hinv hs => hinv.stops_of_event hs
  case continues =>
    refine reports_le_raises (reportsOf_reportsContinue t) ?_ (by simp) (init_inv cpu) (hnone t) hrun
    exact fun s a s' out hinv hs => hinv.goesOn_of_event hs
  refine (runTrace_forall (P := Inv) (fun s a s' e hs hstep => ?_) (init_inv cpu) hrun).2
  obtain ⟨out, hout, rfl⟩ := watch_some hstep
  exact ⟨hs.step hout, hs.truthful hout⟩

/-- A child stops, is reported, is killed and is reaped. -/
def stoppedThenKilled : List Act :=
  [.schedule 0, .fork 0 1, .schedule 1, .kill 0 2 sigstop, .doSignal 1 true, .wait4 0 ⟨-1, wuntraced⟩, .waitRound 0,
    .kill 0 2 sigkill, .schedule 1, .resume 1, .doSignal 1 true, .schedule 1, .wait4 0 ⟨2, wnohang⟩, .waitRound 0]

theorem run_reports_of_stoppedThenKilled : ∃ s es, runTrace watch (init 0) stoppedThenKilled = some (s, es) ∧
    es.filterMap Transition.out = [⟨1, ⟨-1, wuntraced⟩, .stopped 2 0x137f⟩, ⟨1, ⟨2, wnohang⟩, .exited 2 9⟩] ∧
    Reports es := by
  obtain ⟨s, es, hrun, hout⟩ : ∃ s es, runTrace watch (init 0) stoppedThenKilled = some (s, es) ∧
      es.filterMap Transition.out = [⟨1, ⟨-1, wuntraced⟩, .stopped 2 0x137f⟩, ⟨1, ⟨2, wnohang⟩, .exited 2 9⟩] :=
    ⟨_, _, rfl, by decide⟩
  exact ⟨s, es, hrun, hout, run_reports hrun⟩

end Procs

end MiniOs.Sched
