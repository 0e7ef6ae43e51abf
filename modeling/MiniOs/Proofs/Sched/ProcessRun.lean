/-
What one step of a process can do. Apart from `fork`, `setpgid`, `setsid` and a reaping `wait4`, every
step keeps the tasks there are, their parents, groups and sessions, brings no zombie back and moves a
stopped task only when `kill` sends it `SIGCONT` or `SIGKILL`.
-/
import MiniOs.Proofs.Sched.ProcessInv

namespace MiniOs.Sched

open Library Runqueues Function

namespace Procs

variable {s s' s'' : Procs} {t u p : Pid} {c me : Cpu} {wakes : Pid → Prop} {w : Wait} {k : Sleep}

/-! ## `fork` -/

/-- The state in which the child is made but not yet on a queue. -/
def forked (s : Procs) (p : Pid) (cpu : Nat) : Procs :=
  { s with
    queues := s.queues.newTask ⟨.running, cpu, some p, 0, ((s.queues.tasks p).map Task.blocked).getD 0⟩
    procs := update s.procs s.queues.nextPid
      { Proc.zero with isUser := true, pgid := (s.procs p).pgid, sid := (s.procs p).sid,
                       actions := (s.procs p).actions }
    allTasks := s.allTasks ++ [s.queues.nextPid]
    mode := update s.mode s.queues.nextPid .run }

theorem forked_tasks (s : Procs) (p : Pid) (cpu : Nat) (t : Pid) :
    (s.forked p cpu).queues.tasks t = if t = s.queues.nextPid then
      some ⟨.running, cpu, some p, 0, ((s.queues.tasks p).map Task.blocked).getD 0⟩ else s.queues.tasks t := by
  simp [forked, newTask, update_apply]

theorem Inv.ne_nextPid (h : s.Inv) (ht : t ∈ s.allTasks) : t ≠ s.queues.nextPid := by
  rintro rfl
  rw [h.listed, h.tidied.fresh _ (Nat.le_refl _)] at ht
  cases ht

theorem forked_hasState (s : Procs) (p : Pid) (cpu : Nat) (t : Pid) {state : TaskState} (hstate : state ≠ .running)
    (h : (s.forked p cpu).hasState t state = true) : t ≠ s.queues.nextPid ∧ s.hasState t state = true := by
  unfold hasState Runqueues.hasState at h
  rw [forked_tasks] at h
  split_ifs at h with ht
  · simp [hstate.symm] at h
  · exact ⟨ht, h⟩

theorem Inv.forked (h : s.Inv) (p : Pid) (cpu : Nat) : (s.forked p cpu).Inv where
  tidied := h.tidied.newTask _
  listed t := by
    rw [forked_tasks]
    unfold Procs.forked
    split_ifs with ht
    · simp [ht]
    · simp [ht, h.listed]
  once := by
    refine List.nodup_append.2 ⟨h.once, List.nodup_singleton _, fun t ht u hu => ?_⟩
    rw [List.mem_singleton.1 hu]
    exact h.ne_nextPid ht
  alone := h.alone
  exclusive t task htask := by
    rw [forked_tasks] at htask
    split_ifs at htask
    · cases htask
      exact Or.inl (by simp)
    · exact h.exclusive t task htask
  undead t := by
    by_contra hdead
    have hdead : (s.forked p cpu).hasState t .dead = true := by simpa using hdead
    obtain ⟨-, hold⟩ := forked_hasState s p cpu t (by decide) hdead
    simp [h.undead t] at hold
  parked t k hrests := by
    have hold : t ≠ s.queues.nextPid ∧ restsIn s.queues t k = true := by
      cases k with
      | stop => exact forked_hasState s p cpu t (by decide) hrests
      | exit => exact forked_hasState s p cpu t (by decide) hrests
      | _ => cases hrests
    simpa [Procs.forked, newTask, hold.1] using h.parked t k hold.2
  leaving c t hcur hnone := by
    rw [forked_tasks] at hnone
    split_ifs at hnone with ht
    simpa [Procs.forked, ht] using h.leaving c t hcur hnone

theorem Inv.advances_ksysFork (h : s.Inv) (me : Cpu) (p : Pid) (cpu : Nat) :
    Advances (fun _ => False) (s.forked p cpu) (s.ksysFork me p cpu) := by
  refine (h.forked p cpu).advances_signals
    (signals_of_stirs (stirs_enqueueTask ?_ me) (fun hq => hq.enqueueTask me _) ?_)
  · intro task htask
    rw [forked_tasks, if_pos rfl] at htask
    cases htask
    simp
  · simp [Runqueues.fork, Procs.forked]

/-! ## Reaping -/

theorem freeTask_hasState (s : Procs) (z t : Pid) (state : TaskState) :
    (s.freeTask z).hasState t state = (decide (t ≠ z) && s.hasState t state) := by
  unfold freeTask hasState Runqueues.hasState
  dsimp only
  rw [freeTask_tasks]
  by_cases htz : t = z <;> simp [htz]

/-- A zombie is freed. One that is still current somewhere is at the end of `do_exit`. -/
theorem Inv.freeTask (h : s.Inv) {z : Pid} (hz : s.hasState z .zombie = true) : (s.freeTask z).Inv where
  tidied := h.tidied.freeTask z
  listed t := by
    unfold Procs.freeTask
    dsimp only
    rw [h.once.mem_erase_iff, freeTask_tasks, h.listed]
    by_cases htz : t = z <;> simp [htz]
  once := h.once.erase z
  alone := by simpa [Procs.freeTask, Runqueues.freeTask] using h.alone
  exclusive t task htask := by
    unfold Procs.freeTask at htask
    dsimp only at htask
    rw [freeTask_tasks] at htask
    split_ifs at htask
    exact h.exclusive t task htask
  undead t := by simp [freeTask_hasState, h.undead t]
  parked t k hrests := by
    have hold : restsIn s.queues t k = true := by
      cases k with
      | stop => exact (Bool.and_eq_true_iff.1 ((freeTask_hasState s z t .stopped).symm.trans hrests)).2
      | exit => exact (Bool.and_eq_true_iff.1 ((freeTask_hasState s z t .zombie).symm.trans hrests)).2
      | _ => cases hrests
    simpa [Procs.freeTask, Runqueues.freeTask] using h.parked t k hold
  leaving c t hcur hnone := by
    have hcur' : s.queues.curr c = some t := by simpa [Procs.freeTask, Runqueues.freeTask] using hcur
    unfold Procs.freeTask at hnone
    dsimp only at hnone
    rw [freeTask_tasks] at hnone
    split_ifs at hnone with htz
    · subst htz
      exact (h.parked t .exit hz).resolve_right fun hoff => hoff.2 c hcur'
    · exact h.leaving c t hcur' hnone

/-! ## One round of `wait4` -/

/-- The options select this kind of event. -/
def wants (w : Wait) : ChildEvent → Bool
  | .none => false
  | .stopped => w.has wuntraced
  | .continued => w.has wcontinued

/-- The child whose event `wait_event_child` finds. -/
def findEvent (s : Procs) (p : Pid) (w : Wait) (event : ChildEvent) : Option Pid :=
  s.allTasks.find? fun t => s.isChild p w t && decide ((s.procs t).waitEvent = event)

/-- What `wait4` reports of an event it has found. -/
def eventRet (s : Procs) (event : ChildEvent) (t : Pid) : WaitRet :=
  match event with
  | .stopped => s.stoppedRet t
  | _ => .continued t wContinued

/-- The event of a child is taken. -/
def takeEvent (s : Procs) (t : Pid) : Procs := s.modifyProc t fun proc => { proc with waitEvent := .none }

theorem waitEvent_cases (s : Procs) (p : Pid) (w : Wait) (option : BitVec 64) (event : ChildEvent) (ret : Pid → WaitRet)
    (hwants : wants w event = w.has option) (hret : ∀ t, ret t = s.eventRet event t)
    (next : Procs → Round × Procs) :
    (∃ t, wants w event = true ∧ s.findEvent p w event = some t ∧
      s.waitEvent p w option event ret next = (.ret (s.eventRet event t), s.takeEvent t)) ∨
    (wants w event = true → s.findEvent p w event = none) ∧ s.waitEvent p w option event ret next = next s := by
  unfold waitEvent
  rw [← hwants]
  split_ifs with hw
  · unfold waitEventChild
    cases hfind : s.findEvent p w event with
    | none =>
      right
      unfold findEvent at hfind
      rw [hfind]
      exact ⟨fun _ => rfl, rfl⟩
    | some t =>
      left
      refine ⟨t, hw, rfl, ?_⟩
      unfold findEvent at hfind
      rw [hfind]
      simp [hret t, takeEvent]
  · exact Or.inr ⟨fun h => absurd h hw, rfl⟩

/-- A round reaps a zombie, takes an event, or finds nothing. -/
theorem waitRound_cases (s : Procs) (p : Pid) (w : Wait) :
    (∃ z, s.findChild p w (some .zombie) = some z ∧
      s.waitRound p w = (.ret (.exited z (s.procs z).exitCode), (s.dropPending p sigchld).freeTask z)) ∨
    s.findChild p w (some .zombie) = none ∧
      ((∃ t event, wants w event = true ∧ s.findEvent p w event = some t ∧
          s.waitRound p w = (.ret (s.eventRet event t), s.takeEvent t)) ∨
        (∀ event, wants w event = true → s.findEvent p w event = none) ∧ s.waitRound p w = s.waitIdle p w) := by
  -- what follows when no zombie is reaped
  have hevents : ∀ rest : Round × Procs,
      rest = s.waitEvent p w wuntraced .stopped s.stoppedRet (fun s =>
        s.waitEvent p w wcontinued .continued (fun t => .continued t wContinued) fun s => s.waitIdle p w) →
      (∃ t event, wants w event = true ∧ s.findEvent p w event = some t ∧
        rest = (.ret (s.eventRet event t), s.takeEvent t)) ∨
        (∀ event, wants w event = true → s.findEvent p w event = none) ∧ rest = s.waitIdle p w := by
    rintro rest rfl
    have hstop := s.waitEvent_cases p w wuntraced .stopped s.stoppedRet rfl (fun t => rfl)
      (fun s => s.waitEvent p w wcontinued .continued (fun t => .continued t wContinued) fun s => s.waitIdle p w)
    have hcont := s.waitEvent_cases p w wcontinued .continued (fun t => .continued t wContinued) rfl
      (fun t => rfl) (fun s => s.waitIdle p w)
    rcases hstop with ⟨t, hw, hfind, heq⟩ | ⟨hnostop, heq⟩
    · exact Or.inl ⟨t, .stopped, hw, hfind, heq⟩
    rcases hcont with ⟨t, hw, hfind, heq'⟩ | ⟨hnocont, heq'⟩
    · exact Or.inl ⟨t, .continued, hw, hfind, heq.trans heq'⟩
    · refine Or.inr ⟨fun event hw => ?_, heq.trans heq'⟩
      cases event with
      | none => cases hw
      | stopped => exact hnostop hw
      | continued => exact hnocont hw
  unfold waitRound waitReapZombie
  cases hfind : s.findChild p w (some .zombie) with
  | none => exact Or.inr ⟨rfl, hevents _ rfl⟩
  | some z => exact Or.inl ⟨z, rfl, rfl⟩

/-- What a round does that finds nothing to report. -/
theorem waitIdle_cases (s : Procs) (p : Pid) (w : Wait) :
    s.findChild p w none = none ∧ s.waitIdle p w = (.ret (.error .child), s) ∨
    (s.findChild p w none).isSome = true ∧
      (w.has wnohang = true ∧ s.waitIdle p w = (.ret .nothing, s) ∨
        w.has wnohang = false ∧ (s.waitIdle p w = (.again, s.dropPending p sigchld) ∨
          s.waitIdle p w = (.ret (.error .restartsys), s) ∨ s.waitIdle p w = (.sleep, s))) := by
  unfold waitIdle
  cases hfind : s.findChild p w none with
  | none => exact Or.inl ⟨rfl, rfl⟩
  | some t =>
    right
    refine ⟨rfl, ?_⟩
    rw [if_neg (by simp)]
    dsimp only
    split_ifs with hnohang hpending hchld
    · exact Or.inl ⟨hnohang, rfl⟩
    · exact Or.inr ⟨by simpa using hnohang, Or.inl rfl⟩
    · exact Or.inr ⟨by simpa using hnohang, Or.inr (Or.inl rfl)⟩
    · exact Or.inr ⟨by simpa using hnohang, Or.inr (Or.inr rfl)⟩

/-! ## One step -/

/-- `p` is current on CPU `me`, a user task, and in no call. -/
structure Calls (s : Procs) (me : Cpu) (p : Pid) : Prop where
  curr : s.queues.curr me = some p
  mode : s.mode p = .run
  isUser : (s.procs p).isUser = true

theorem onUser_some {α : Type} {f : Pid → α} {x : α} (h : s.onUser me f = some x) : ∃ p, s.Calls me p ∧ x = f p := by
  obtain ⟨p, hcurr, hx⟩ := Option.bind_eq_some_iff.1 h
  split at hx
  · next hmode =>
    split_ifs at hx with huser
    cases hx
    exact ⟨p, ⟨hcurr, hmode, huser⟩, rfl⟩
  · cases hx

theorem Inv.atWork_of_calls (h : s.Inv) (hp : s.Calls me p) : AtWork s.queues p := by
  apply h.atWork hp.curr <;> simp [hp.mode]

theorem Inv.atWork_of_waiting (h : s.Inv) (hcurr : s.queues.curr me = some p) (hmode : s.mode p = .waiting w) :
    AtWork s.queues p := by
  apply h.atWork hcurr <;> simp [hmode]

/-- What each step does, and when it can be taken. -/
inductive Steps (s : Procs) : Act → Procs → Option Waited → Prop
  | fork {me : Cpu} {p : Pid} (hp : s.Calls me p) (cpu : Nat) : Steps s (.fork me cpu) (s.ksysFork me p cpu) none
  | forkFails {me : Cpu} {p : Pid} (hp : s.Calls me p) :
    Steps s (.forkFails me) { s with queues := { s.queues with nextPid := s.queues.nextPid + 1 } } none
  | exit {me : Cpu} {p : Pid} (hp : s.Calls me p) (status : BitVec 64) :
    Steps s (.exit me status) (s.doExit me p ((status &&& 0xff#64).toNat <<< 8)) none
  | kill (me : Cpu) (pid sig : Int) : Steps s (.kill me pid sig) (s.ksysKill me pid sig).2 none
  | doSignal {me : Cpu} {p : Pid} (hp : s.Calls me p) (task : Task) (framed : Bool) :
    Steps s (.doSignal me framed) (s.doSignal me p task framed) none
  | badWait {me : Cpu} {p : Pid} {w : Wait} (hbad : w.pid < -1 ∨ w.pid = 0) :
    Steps s (.wait4 me w) s (some ⟨p, w, .error .inval⟩)
  | wait4 {me : Cpu} {p : Pid} (hp : s.Calls me p) (w : Wait) : Steps s (.wait4 me w) (s.goto p (.waiting w)) none
  | waitRound {me : Cpu} {p : Pid} {w : Wait} {s' : Procs} {out : Option Waited} (hcurr : s.queues.curr me = some p)
    (hmode : s.mode p = .waiting w) (heq : (s.waitRound p w).2.endRound p w (s.waitRound p w).1 = (s', out)) :
    Steps s (.waitRound me) s' out
  | setpgid {me : Cpu} {p : Pid} (hp : s.Calls me p) (pid pgid : Int) :
    Steps s (.setpgid me pid pgid) (s.ksysSetpgid p pid pgid).2 none
  | setsid {me : Cpu} {p : Pid} (hp : s.Calls me p) : Steps s (.setsid me) (s.ksysSetsid p).2 none
  | sigaction {me : Cpu} {p : Pid} (sig : Nat) (ka : Sigaction) :
    Steps s (.sigaction me sig ka) (s.modifyProc p fun proc => { proc with actions := update proc.actions sig ka }) none
  | setBlocked {me : Cpu} {p : Pid} (blocked : BitVec 64) :
    Steps s (.setBlocked me blocked)
      { s with queues := s.queues.modify p fun task => { task with blocked := blocked } } none
  | nap {me : Cpu} {p : Pid} (hp : s.Calls me p) (deadline : Nat) :
    Steps s (.nap me deadline) (s.sleep p .nap deadline) none
  | prepareToWait {me : Cpu} {p : Pid} (hp : s.Calls me p) : Steps s (.prepareToWait me) (s.sleep p .queue 0) none
  -- back from `schedule`, or without having called it
  | resume {a : Act} {me : Cpu} {p : Pid} {k : Sleep} {s' : Procs} (hcurr : s.queues.curr me = some p)
    (hmode : s.mode p = .block .nap ∧ k = .nap ∨ s.mode p = .block .queue ∧ k = .queue ∨ s.mode p = .away k)
      (hs : s.resume me p k = some s') : Steps s a s' none
  | wakeUp (me : Cpu) (waiters : List Pid) :
    Steps s (.wakeUp me waiters) { s with queues := s.queues.wakeUp me waiters } none
  | tick (me : Cpu) : Steps s (.tick me) (s.tick me) none
  | schedule {me : Cpu} {queues : Runqueues} {mode : Pid → Mode} (hq : s.queues.schedule me = some queues)
    (hmode : ∀ t, mode t = s.mode t ∨ s.queues.curr me = some t ∧ ∃ k, s.mode t = .block k ∧ mode t = .away k) :
    Steps s (.schedule me) { s with queues := queues, mode := mode } none

variable {out : Option Waited} {a : Act}

theorem steps_resume {k : Sleep} (hcurr : s.queues.curr me = some p)
    (hmode : s.mode p = .block .nap ∧ k = .nap ∨ s.mode p = .block .queue ∧ k = .queue ∨ s.mode p = .away k)
    (hs : (s.resume me p k).map (·, none) = some (s', out)) : s.Steps a s' out := by
  obtain ⟨s1, hs1, heq⟩ := Option.map_eq_some_iff.1 hs
  cases heq
  exact .resume hcurr hmode hs1

theorem steps_schedule (hs : (s.schedule me).map (·, none) = some (s', out)) :
    s.Steps (.schedule me) s' out := by
  obtain ⟨s1, hs1, heq⟩ := Option.map_eq_some_iff.1 hs
  obtain ⟨queues, hq, rfl⟩ := Option.map_eq_some_iff.1 hs1
  cases heq
  exact .schedule hq fun t => Or.inl rfl

theorem steps_schedule_block {k : Sleep} (hcurr : s.queues.curr me = some p) (hmode : s.mode p = .block k)
    (hs : ((s.schedule me).map fun s => (s.goto p (.away k), (none : Option Waited))) = some (s', out)) :
    s.Steps (.schedule me) s' out := by
  obtain ⟨s1, hs1, heq⟩ := Option.map_eq_some_iff.1 hs
  obtain ⟨queues, hq, rfl⟩ := Option.map_eq_some_iff.1 hs1
  cases heq
  refine .schedule hq fun t => ?_
  by_cases htp : t = p
  · subst htp
    exact Or.inr ⟨hcurr, k, hmode, by simp⟩
  · exact Or.inl (by simp [htp])

theorem steps_of_step (hs : s.step a = some (s', out)) : s.Steps a s' out := by
  cases a with
  | kill me pid sig =>
    cases hs
    exact .kill me pid sig
  | wakeUp me waiters =>
    cases hs
    exact .wakeUp me waiters
  | tick me =>
    cases hs
    exact .tick me
  | doSignal me framed =>
    obtain ⟨r, hr, heq⟩ := Option.bind_eq_some_iff.1 hs
    obtain ⟨p, hp, rfl⟩ := onUser_some hr
    obtain ⟨task, -, heq'⟩ := Option.map_eq_some_iff.1 heq
    cases heq'
    exact .doSignal hp task framed
  | wait4 me w =>
    obtain ⟨p, hp, heq⟩ := onUser_some hs
    unfold ksysWait4 at heq
    split_ifs at heq with hbad <;> cases heq
    · exact .badWait hbad
    · exact .wait4 hp w
  | waitRound me =>
    obtain ⟨p, hcurr, heq⟩ := Option.bind_eq_some_iff.1 hs
    split at heq
    · next w hmode => exact .waitRound hcurr hmode (Option.some.inj heq)
    · cases heq
  | cancel me =>
    obtain ⟨p, hcurr, heq⟩ := Option.bind_eq_some_iff.1 hs
    split at heq
    · next hmode => exact steps_resume hcurr (Or.inl ⟨hmode, rfl⟩) heq
    · next hmode => exact steps_resume hcurr (Or.inr (Or.inl ⟨hmode, rfl⟩)) heq
    · cases heq
  | resume me =>
    obtain ⟨p, hcurr, heq⟩ := Option.bind_eq_some_iff.1 hs
    split at heq
    · next k hmode => exact steps_resume hcurr (Or.inr (Or.inr hmode)) heq
    · cases heq
  | schedule me =>
    simp only [step] at hs
    split at hs
    · exact steps_schedule hs
    · next p hcurr =>
      split at hs
      · exact steps_schedule hs
      · next k hmode => exact steps_schedule_block hcurr hmode hs
      · cases hs
  | _ =>
    obtain ⟨p, hp, heq⟩ := onUser_some hs
    cases heq
    constructor <;> assumption

/-- The tasks a step may wake from a stop. -/
def wokenBy (s : Procs) (a : Act) (t : Pid) : Prop :=
  match a with
  | .kill me pid sig => s.Ends me pid sig t
  | _ => False

theorem Inv.advances_setNextPid (h : s.Inv) :
    Advances wakes s { s with queues := { s.queues with nextPid := s.queues.nextPid + 1 } } := by
  have htidied : Tidied { s.queues with nextPid := s.queues.nextPid + 1 } :=
    { h.tidied with
      fresh := fun t ht => h.tidied.fresh t (Nat.le_of_succ_le ht)
      known := fun c t hb => Nat.lt_succ_of_lt (h.tidied.known c t hb) }
  exact { Advances.refl wakes h with
    inv := ⟨htidied, h.listed, h.once, h.alone, h.exclusive, h.undead, h.parked, h.leaving⟩
    nextPid := Nat.le_succ _ }

/-- A round of `wait4` that reaps nobody. -/
theorem Inv.advances_waitRound (h : s.Inv) (hcurr : s.queues.curr me = some p) (hmode : s.mode p = .waiting w)
    (hreap : s.findChild p w (some .zombie) = none) :
    Advances (fun _ => False) s ((s.waitRound p w).2.endRound p w (s.waitRound p w).1).1 := by
  have hp := h.atWork_of_waiting hcurr hmode
  have hgo : ∀ ret, Advances (fun _ => False) s (s.endRound p w (.ret ret)).1 := fun ret => h.advances_goto hp .run
  rcases s.waitRound_cases p w with ⟨z, hz, -⟩ | ⟨-, ⟨t, event, -, -, heq⟩ | ⟨-, heq⟩⟩
  · simp [hz] at hreap
  · rw [heq]
    have h1 : Advances (fun _ => False) s (s.takeEvent t) := h.advances_modifyProc rfl rfl rfl
    exact h1.trans (h1.inv.advances_goto hp .run)
  · rw [heq]
    rcases s.waitIdle_cases p w with ⟨-, heq'⟩ | ⟨-, ⟨-, heq'⟩ | ⟨-, heq' | heq' | heq'⟩⟩ <;> rw [heq']
    · exact hgo _
    · exact hgo _
    · exact h.advances_signals (signals_dropPending _ s p sigchld)
    · exact hgo _
    · have h1 : Advances (fun _ => False) s (s.goto p (.block (.wait w))) := h.advances_goto hp _
      exact h1.trans (h1.inv.advances_block hp .sleeping (by decide) (by simp) (by simp))

theorem Inv.step_cases (h : s.Inv) (hs : s.step a = some (s', out)) :
    (∃ me cpu p, a = .fork me cpu ∧ s.Calls me p ∧ s' = s.ksysFork me p cpu) ∨
    (∃ me pid pgid p, a = .setpgid me pid pgid ∧ s.Calls me p ∧ s' = (s.ksysSetpgid p pid pgid).2) ∨
    (∃ me p, a = .setsid me ∧ s.Calls me p ∧ s' = (s.ksysSetsid p).2) ∨
    (∃ me p w z, a = .waitRound me ∧ s.queues.curr me = some p ∧ s.mode p = .waiting w ∧
      s.findChild p w (some .zombie) = some z ∧ s' = ((s.dropPending p sigchld).freeTask z).goto p .run) ∨
    Advances (s.wokenBy a) s s' := by
  have hnone : ∀ {s'}, Advances (fun _ => False) s s' → Advances (s.wokenBy a) s s' := fun had =>
    { had with stopped := fun t hstop => (had.stopped t hstop).imp_right False.elim }
  cases steps_of_step hs with
  | fork hp cpu => exact Or.inl ⟨_, cpu, _, rfl, hp, rfl⟩
  | setpgid hp pid pgid => exact Or.inr (Or.inl ⟨_, pid, pgid, _, rfl, hp, rfl⟩)
  | setsid hp => exact Or.inr (Or.inr (Or.inl ⟨_, _, rfl, hp, rfl⟩))
  | waitRound hcurr hmode heq =>
    iterate 3 right
    rcases s.waitRound_cases _ _ with ⟨z, hz, hround⟩ | ⟨hreap, -⟩
    · left
      rw [hround] at heq
      cases heq
      exact ⟨_, _, _, z, rfl, hcurr, hmode, hz, rfl⟩
    · right
      have had := h.advances_waitRound hcurr hmode hreap
      rw [heq] at had
      exact hnone had
  | forkFails hp =>
    iterate 4 right
    exact h.advances_setNextPid
  | exit hp status =>
    iterate 4 right
    exact hnone (h.advances_doExit (h.atWork_of_calls hp) _ _)
  | kill me pid sig =>
    iterate 4 right
    exact h.advances_signals (signals_ksysKill h.tidied me pid sig)
  | doSignal hp task framed =>
    iterate 4 right
    exact hnone (h.advances_doSignal (h.atWork_of_calls hp) _ task framed)
  | badWait hbad =>
    iterate 4 right
    exact .refl _ h
  | wait4 hp w =>
    iterate 4 right
    exact h.advances_goto (h.atWork_of_calls hp) _
  | sigaction sig ka =>
    iterate 4 right
    exact h.advances_modifyProc rfl rfl rfl
  | setBlocked blocked =>
    iterate 4 right
    refine h.advances_signals (signals_of_stirs (stirs_modify fun task _ => ?_)
      (fun hq => hq.modify (fun _ => rfl) fun _ hrun => hrun) rfl)
    exact { Task.Stirred.refl _ task with }
  | nap hp deadline =>
    iterate 4 right
    exact hnone (h.advances_sleep (h.atWork_of_calls hp) .nap deadline)
  | prepareToWait hp =>
    iterate 4 right
    exact hnone (h.advances_sleep (h.atWork_of_calls hp) .queue 0)
  | resume hcurr hmode hres =>
    iterate 4 right
    refine hnone (h.advances_resume (h.atWork hcurr ?_ ?_) hres)
    all_goals rcases hmode with ⟨hmode, -⟩ | ⟨hmode, -⟩ | hmode <;> simp [hmode]
  | wakeUp me waiters =>
    iterate 4 right
    exact h.advances_signals (signals_wakeUp _ s me waiters)
  | tick me =>
    iterate 4 right
    exact hnone (h.advances_tick me)
  | schedule hq hmode =>
    iterate 4 right
    exact h.advances_switch hq hmode

/-! ## Runs -/

/-- Waking the init task up for the first time. -/
theorem stirs_init (cpu : Nat) : Stirs (fun _ => False) (Runqueues.init.kernelThread cpu) (init cpu).queues := by
  have hsleep : (Runqueues.init.kernelThread cpu).hasState 1 .sleeping = true := by
    simp [Runqueues.hasState, kernelThread, newTask, Runqueues.init]
  exact stirs_wakeUpProcess (wakeable_of_hasState hsleep (by decide) (by decide) (by simp)) 0

theorem kernelThread_init_tasks (cpu : Nat) (t : Pid) :
    (Runqueues.init.kernelThread cpu).tasks t = if t = 1 then some ⟨.sleeping, cpu, none, 0, 0⟩ else none := by
  simp [kernelThread, newTask, Runqueues.init, update_apply]

theorem init_inv (cpu : Nat) : (init cpu).Inv := by
  have hstirs := stirs_init cpu
  have hstate : ∀ t state, state ≠ .sleeping → (Runqueues.init.kernelThread cpu).hasState t state = false := by
    intro t state hne
    unfold Runqueues.hasState
    rw [kernelThread_init_tasks]
    split_ifs
    · simp [hne.symm]
    · rfl
  have htidied : Tidied (init cpu).queues := (Runqueues.init_inv.newTask ⟨.sleeping, cpu, none, 0, 0⟩).wakeUpProcess 0 1
  have hidle : ∀ c, (init cpu).queues.curr c = none := by simp [init, kernelThread, newTask, Runqueues.init]
  refine ⟨htidied, fun t => ?_, List.nodup_singleton 1, fun c d t hc => ?_, fun t task htask => ?_,
    fun t => (hstirs.hasState_dead t).trans (hstate t .dead (by decide)), fun t k hrests => ?_, fun c t hcur => ?_⟩
  · rw [hstirs.isSome, kernelThread_init_tasks]
    by_cases ht : t = 1 <;> simp [ht, init]
  · rw [hidle] at hc
    cases hc
  · obtain ⟨task0, htask0, hstirred⟩ := hstirs.before htask
    rw [kernelThread_init_tasks] at htask0
    split_ifs at htask0
    cases htask0
    exact hstirred.exclusive (Or.inl (by simp))
  · cases k with
    | stop =>
      have hbefore := hstirs.stopped_before hrests
      rw [hstate t .stopped (by decide)] at hbefore
      cases hbefore
    | exit =>
      have hsame := (hstirs.hasState_zombie t).symm.trans hrests
      rw [hstate t .zombie (by decide)] at hsame
      cases hsame
    | _ => cases hrests
  · rw [hidle] at hcur
    cases hcur

/-- The target of a `setpgid`. -/
def pgidTarget (s : Procs) (p : Pid) (pid : Int) : Option Pid := s.findTaskByPid (if pid = 0 then (p : Int) else pid)

/-- The group a `setpgid` of `t` is for. -/
def pgidGroup (t : Pid) (pgid : Int) : Int := if pgid = 0 then t else pgid

/-- A `setpgid` that does something: it has passed every test of the source. -/
theorem ksysSetpgid_cases (s : Procs) (p : Pid) (pid pgid : Int) :
    (s.ksysSetpgid p pid pgid).2 = s ∨
    ∃ (t : Pid) (g : Int), s.pgidTarget p pid = some t ∧ g = pgidGroup t pgid ∧ 0 ≤ g ∧
      (t = p ∨ (s.queues.tasks t).bind Task.parent = some p) ∧ (g = t ∨ s.pgidExists g = true) ∧
      (s.procs t).sid ≠ t ∧ (s.procs t).sid = (s.procs p).sid ∧
      (s.ksysSetpgid p pid pgid).2 = s.modifyProc t fun proc => { proc with pgid := g.toNat } := by
  unfold ksysSetpgid pgidTarget
  dsimp only
  generalize (if pid = 0 then (p : Int) else pid) = pid'
  cases hfind : s.findTaskByPid pid' with
  | none => exact Or.inl rfl
  | some t =>
    have hpid : (t : Int) = pid' := (findTaskByPid_some hfind).2.1
    rw [← hpid]
    dsimp only
    generalize hg : (if pgid = 0 then (t : Int) else pgid) = g
    split_ifs with hneg hkin hgroup hleader hsession
    · exact Or.inl rfl
    · exact Or.inl rfl
    · exact Or.inl rfl
    · exact Or.inl rfl
    · exact Or.inl rfl
    · refine Or.inr ⟨t, g, rfl, hg.symm, by omega, ?_, ?_, hleader, by simpa using hsession, rfl⟩
      · rw [not_and_or, not_not, not_not] at hkin
        exact hkin
      · rw [not_and_or, not_not, Bool.not_eq_false] at hgroup
        exact hgroup

theorem findChild_some {state : TaskState} (h : s.findChild p w (some state) = some t) :
    t ∈ s.allTasks ∧ s.isChild p w t = true ∧ s.hasState t state = true := by
  have htest := List.find?_some h
  simp only [Option.all_some, Bool.and_eq_true] at htest
  exact ⟨List.mem_of_find?_eq_some h, htest⟩

theorem Inv.reaped (h : s.Inv) (hp : AtWork s.queues p) {z : Pid} (hz : s.hasState z .zombie = true) :
    (((s.dropPending p sigchld).freeTask z).goto p .run).Inv := by
  have hsig := signals_dropPending (fun _ => False) s p sigchld
  have hp' := hsig.atWork hp
  have hz' : (s.dropPending p sigchld).hasState z .zombie = true := (hsig.queues.hasState_zombie z).trans hz
  have hpz : p ≠ z := by
    rintro rfl
    rw [hasState, hp.zombie] at hz
    cases hz
  have hp'' : AtWork ((s.dropPending p sigchld).freeTask z).queues p := by
    constructor
    · unfold Procs.freeTask
      dsimp only
      rw [freeTask_tasks, if_neg hpz]
      exact hp'.present
    · intro k
      cases k with
      | stop => exact (freeTask_hasState _ z p .stopped).trans (by simp [hasState, hp'.stopped])
      | exit => exact (freeTask_hasState _ z p .zombie).trans (by simp [hasState, hp'.zombie])
      | _ => rfl
  have hgo : Advances (fun _ => False) _ _ := ((h.signals hsig).freeTask hz').advances_goto hp'' .run
  exact hgo.inv

theorem Inv.step (h : s.Inv) (hs : s.step a = some (s', out)) : s'.Inv := by
  obtain ⟨me, cpu, p, -, -, rfl⟩ | ⟨me, pid, pgid, p, -, -, rfl⟩ | ⟨me, p, -, -, rfl⟩ |
    ⟨me, p, w, z, -, hcurr, hmode, hz, rfl⟩ | had :=
    h.step_cases hs
  · exact (h.advances_ksysFork me p cpu).inv
  · rcases s.ksysSetpgid_cases p pid pgid with heq | ⟨t, g, -, -, -, -, -, -, -, heq⟩ <;> rw [heq]
    · exact h
    · exact h.setProcs _ s.jiffies
  · unfold ksysSetsid
    split_ifs
    · exact h
    · exact h.setProcs _ s.jiffies
  · exact h.reaped (h.atWork_of_waiting hcurr hmode) (findChild_some hz).2.2
  · exact had.inv

/-- A step without what it returns. -/
def move (s : Procs) (a : Act) : Option Procs := (s.step a).map Prod.fst

theorem move_some (h : s.move a = some s') : ∃ out, s.step a = some (s', out) := by
  obtain ⟨⟨s1, out⟩, hs, rfl⟩ := Option.map_eq_some_iff.1 h
  exact ⟨out, hs⟩

theorem run_inv {cpu : Nat} {acts : List Act} (h : run move (init cpu) acts = some s) : s.Inv :=
  run_invariant (fun s a s' hs hmove => by
    obtain ⟨out, hstep⟩ := move_some hmove
    exact hs.step hstep) (init_inv cpu) h

end Procs

end MiniOs.Sched
