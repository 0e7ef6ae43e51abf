/-
Whom `kill` reaches and what it does to them. A step that signals and wakes leaves the list of tasks,
their groups and their places in the code alone; a stopped task it does not address with `SIGCONT` or
`SIGKILL` stays stopped, and one it does is on a queue afterwards.
-/
import MiniOs.Sched.Process
import MiniOs.Proofs.Sched.Stir

namespace MiniOs.Sched

open Library Runqueues

/-- The queues' invariant, where a current task names its CPU. -/
abbrev Tidied (queues : Runqueues) : Prop := queues.Inv True (fun _ _ => False) none

namespace Procs

variable {s s' s'' : Procs} {t u p : Pid} {c me : Cpu} {wakes : Pid → Prop} {w : Wait}

/-! ## Steps that signal and wake -/

/-- A step that does no more than signal and wake: fields other than `wait_event` stay, and that is set for a
stopped task that goes on. -/
structure Signals (wakes : Pid → Prop) (s s' : Procs) : Prop where
  queues : s.queues.Stirs wakes s'.queues
  tidied : Tidied s.queues → Tidied s'.queues
  curr : s'.queues.curr = s.queues.curr
  allTasks : s'.allTasks = s.allTasks
  mode : s'.mode = s.mode
  procs : ∀ t, s'.procs t = s.procs t ∨
    s.hasState t .stopped = true ∧ s'.hasState t .stopped = false ∧
      s'.procs t = { s.procs t with waitEvent := .continued }

theorem Signals.refl (wakes : Pid → Prop) (s : Procs) : Signals wakes s s where
  queues := .refl wakes s.queues
  tidied := id
  curr := rfl
  allTasks := rfl
  mode := rfl
  procs _ := Or.inl rfl

theorem Signals.trans (h : Signals wakes s s') (h' : Signals wakes s' s'') : Signals wakes s s'' where
  queues := h.queues.trans h'.queues
  tidied hs := h'.tidied (h.tidied hs)
  curr := h'.curr.trans h.curr
  allTasks := h'.allTasks.trans h.allTasks
  mode := h'.mode.trans h.mode
  procs t := by
    -- a task goes on once: after that it is not stopped
    rcases h.procs t with heq | ⟨hstop, hgone, heq⟩ <;> rcases h'.procs t with heq' | ⟨hstop', hgone', heq'⟩
    · exact Or.inl (heq'.trans heq)
    · exact Or.inr ⟨h.queues.stopped_before hstop', hgone', by rw [heq', heq]⟩
    · refine Or.inr ⟨hstop, ?_, heq'.trans heq⟩
      by_contra hback
      have hback : s''.queues.hasState t .stopped = true := by simpa [hasState] using hback
      have hmid : s'.hasState t .stopped = true := h'.queues.stopped_before hback
      simp [hgone] at hmid
    · simp [hgone] at hstop'

theorem Signals.mono {wakes' : Pid → Prop} (h : Signals wakes s s') (hle : ∀ t, wakes t → wakes' t) :
    Signals wakes' s s' :=
  { h with queues := h.queues.mono hle }

variable {queues : Runqueues}

theorem signals_of_stirs (h : s.queues.Stirs wakes queues) (htidied : Tidied s.queues → Tidied queues)
    (hcurr : queues.curr = s.queues.curr) : Signals wakes s { s with queues := queues } where
  queues := h
  tidied := htidied
  curr := hcurr
  allTasks := rfl
  mode := rfl
  procs _ := Or.inl rfl

theorem signals_wakeUpProcess (h : Wakeable wakes s.queues t) (me : Cpu) :
    Signals wakes s { s with queues := s.queues.wakeUpProcess me t } :=
  signals_of_stirs (stirs_wakeUpProcess h me) (fun hs => hs.wakeUpProcess me t) (by simp)

theorem signals_wakeUp (wakes : Pid → Prop) (s : Procs) (me : Cpu) (waiters : List Pid) :
    Signals wakes s { s with queues := s.queues.wakeUp me waiters } :=
  signals_of_stirs (stirs_wakeUp wakes s.queues me waiters) (fun hs => hs.wakeUp me waiters) (by simp)

theorem not_stopped_of_awake (h : queues.Awake t) : queues.hasState t .stopped = false :=
  hasState_of_ne h.1 (by decide)

/-- A signal to one task. It sets `wait_event` exactly when the task leaves its stop, which takes that the
stopped task is on no queue. -/
theorem signals_signalSend (s : Procs) (hlinked : s.hasState t .stopped = true → s.queues.linked t = false) (me : Cpu)
    (sig : Nat) : Signals (Rouses t sig) s (s.signalSend me t sig) where
  queues := by
    unfold signalSend
    dsimp only
    split_ifs <;> exact stirs_signalQueue s.queues me t sig
  tidied hs := by
    unfold signalSend
    dsimp only
    split_ifs <;> exact hs.signalQueue me t sig
  curr := by
    unfold signalSend
    dsimp only
    split_ifs <;> simp [modifyProc]
  allTasks := by
    unfold signalSend
    dsimp only
    split_ifs <;> rfl
  mode := by
    unfold signalSend
    dsimp only
    split_ifs <;> rfl
  procs u := by
    unfold signalSend
    dsimp only
    split_ifs with hcont
    · obtain ⟨hstop, hsig⟩ := Bool.and_eq_true_iff.1 hcont
      obtain ⟨task, htask, hstate⟩ := hasState_iff.1 hstop
      by_cases hu : u = t
      · subst hu
        right
        refine ⟨hstop, ?_, by simp [modifyProc]⟩
        exact not_stopped_of_awake (awake_signalQueue htask hstate (hlinked hstop) me (Or.inl (by simpa using hsig)))
      · exact Or.inl (by simp [modifyProc, hu])
    · exact Or.inl rfl

theorem unlinked_of_hasState (h : Tidied queues) {state : TaskState} (hne : state ≠ .running)
    (hstate : queues.hasState t state = true) : queues.linked t = false := by
  obtain ⟨task, htask, rfl⟩ := hasState_iff.1 hstate
  exact h.tidy.runs t task htask hne

theorem unlinked_of_stopped (h : Tidied queues) (hstop : queues.hasState t .stopped = true) :
    queues.linked t = false :=
  unlinked_of_hasState h (by decide) hstop

theorem Signals.isUser (h : Signals wakes s s') (t : Pid) : (s'.procs t).isUser = (s.procs t).isUser := by
  rcases h.procs t with heq | ⟨-, -, heq⟩ <;> rw [heq]

theorem Signals.pgid (h : Signals wakes s s') (t : Pid) : (s'.procs t).pgid = (s.procs t).pgid := by
  rcases h.procs t with heq | ⟨-, -, heq⟩ <;> rw [heq]

theorem Signals.isLive (h : Signals wakes s s') (t : Pid) : s'.isLive t = s.isLive t := by
  unfold Procs.isLive hasState
  rw [h.isUser, h.queues.hasState_zombie, h.queues.hasState_dead]

/-! ## `kill` -/

section

variable {sig : Nat} {test : Procs → Pid → Bool}

/-- The tasks that a signal to those that pass the test may wake. -/
def Roused (s : Procs) (sig : Nat) (test : Procs → Pid → Bool) (t : Pid) : Prop :=
  test s t = true ∧ (sig = sigcont ∨ sig = sigkill)

/-- One round of the loop of `signalEach`, seen from the start of the loop. -/
theorem signals_signalIf (htest : ∀ r, Signals (s.Roused sig test) s r → ∀ t, test r t = test s t) {r : Procs}
    (hr : Signals (s.Roused sig test) s r) (htidied : Tidied r.queues) (me : Cpu) (t : Pid) (hpass : test r t = true) :
    Signals (s.Roused sig test) r (if sig = 0 then r else r.signalSend me t sig) := by
  split_ifs
  · exact .refl _ r
  · refine (signals_signalSend r (unlinked_of_stopped htidied) me sig).mono ?_
    rintro u ⟨rfl, hsig⟩
    exact ⟨by rw [← htest r hr]; exact hpass, hsig⟩

theorem signals_signalEach (h : Tidied s.queues)
    (htest : ∀ r, Signals (s.Roused sig test) s r → ∀ t, test r t = test s t)
    (me : Cpu) : Signals (s.Roused sig test) s (s.signalEach me sig test).2 := by
  unfold signalEach
  -- the loop from any state it has reached
  suffices hloop : ∀ (l : List Pid) (r : Bool × Procs), Signals (s.Roused sig test) s r.2 →
      Signals (s.Roused sig test) s
        (l.foldl (fun r t => if test r.2 t then (true, if sig = 0 then r.2 else r.2.signalSend me t sig) else r) r).2
          from
    hloop s.allTasks (false, s) (.refl _ s)
  intro l
  induction l with
  | nil => exact fun r hr => hr
  | cons t rest ih =>
    intro r hr
    rw [List.foldl_cons]
    apply ih
    by_cases hpass : test r.2 t = true
    · rw [if_pos hpass]
      exact hr.trans (signals_signalIf htest hr (hr.tidied h) me t hpass)
    · rwa [if_neg hpass]

/-- A stopped task that passes the test is awake after the loop. -/
theorem awake_signalEach (h : Tidied s.queues) (htest : ∀ r, Signals (s.Roused sig test) s r → ∀ t, test r t = test s t)
    (me : Cpu) (hmem : t ∈ s.allTasks) (hpass : test s t = true) (hstop : s.hasState t .stopped = true)
    (hsig : sig = sigcont ∨ sig = sigkill) : (s.signalEach me sig test).2.queues.Awake t := by
  unfold signalEach
  have hne : sig ≠ 0 := by
    rcases hsig with rfl | rfl <;> decide
  -- until its turn the task stays stopped or is awake already
  suffices hloop : ∀ (l : List Pid) (r : Bool × Procs), Signals (s.Roused sig test) s r.2 →
      (r.2.queues.Awake t ∨ t ∈ l ∧ r.2.hasState t .stopped = true) →
      (l.foldl (fun r t => if test r.2 t then (true, if sig = 0 then r.2 else r.2.signalSend me t sig) else r)
        r).2.queues.Awake t from
    hloop s.allTasks (false, s) (.refl _ s) (Or.inr ⟨hmem, hstop⟩)
  intro l
  induction l with
  | nil =>
    rintro r - (hawake | ⟨hnil, -⟩)
    · exact hawake
    · cases hnil
  | cons u rest ih =>
    intro r hr hturn
    have htidied := hr.tidied h
    rw [List.foldl_cons]
    by_cases hpass' : test r.2 u = true
    · have hsent := signals_signalIf htest hr htidied me u hpass'
      rw [if_pos hpass']
      apply ih _ (hr.trans hsent)
      rcases hturn with hawake | ⟨hmem', hstop'⟩
      · exact Or.inl (hsent.queues.awake hawake)
      by_cases hut : u = t
      · subst hut
        obtain ⟨task, htask, hstate⟩ := hasState_iff.1 hstop'
        left
        rw [if_neg hne]
        have hqueues : (r.2.signalSend me u sig).queues = r.2.queues.signalQueue me u sig := by
          unfold signalSend
          dsimp only
          split_ifs <;> rfl
        rw [hqueues]
        exact awake_signalQueue htask hstate (unlinked_of_stopped htidied hstop') me hsig
      · have hmem'' : t ∈ rest := (List.mem_cons.1 hmem').resolve_left (Ne.symm hut)
        have hone := signals_signalSend r.2 (unlinked_of_stopped htidied (t := u)) me sig
        right
        rw [if_neg hne]
        exact ⟨hmem'', (hone.queues.stopped_after hstop').resolve_right fun hrouse => hut hrouse.1.symm⟩
    · rw [if_neg hpass']
      apply ih _ hr
      rcases hturn with hawake | ⟨hmem', hstop'⟩
      · exact Or.inl hawake
      · refine Or.inr ⟨(List.mem_cons.1 hmem').resolve_left ?_, hstop'⟩
        rintro rfl
        rw [htest r.2 hr] at hpass'
        exact hpass' hpass

end

/-- The group `kill` with this pid goes to, if any. -/
def groupOf (s : Procs) (me : Cpu) (pid : Int) : Int :=
  if pid = 0 then (((s.queues.curr me).map fun p => (s.procs p).pgid).getD 0 : Nat) else -pid

/-- The tasks `kill` with this pid sends to. -/
def addresses (s : Procs) (me : Cpu) (pid : Int) (t : Pid) : Bool :=
  if 0 < pid then (t : Int) == pid && (s.procs t).isUser && !s.hasState t .dead
  else if pid = -1 then (s.procs t).isUser && !decide (s.queues.curr me = some t) && !s.hasState t .dead
  else decide (0 < s.groupOf me pid) && (s.isLive t && ((s.procs t).pgid : Int) == s.groupOf me pid)

/-- The signal is one that ends a stop, and `kill` sends it to `t`. -/
def Ends (s : Procs) (me : Cpu) (pid sig : Int) (t : Pid) : Prop :=
  s.addresses me pid t = true ∧ (sig = sigcont ∨ sig = sigkill)

theorem ksysKill_cases (s : Procs) (me : Cpu) (pid sig : Int) :
    (s.ksysKill me pid sig).2 = s ∧ ((sig < 0 ∨ (nsig : Int) ≤ sig) ∨ pid ≤ 0 ∧ pid ≠ -1 ∧ s.groupOf me pid ≤ 0) ∨
    ∃ n : Nat, sig = n ∧ n < nsig ∧
      (0 < pid ∧ (s.ksysKill me pid sig).2 = (s.signalOneProcess me pid n).2 ∨
        pid = -1 ∧ (s.ksysKill me pid sig).2 = (s.signalEach me n fun s t =>
          (s.procs t).isUser && !decide (s.queues.curr me = some t) && !s.hasState t .dead).2 ∨
        pid ≤ 0 ∧ pid ≠ -1 ∧ 0 < s.groupOf me pid ∧ (s.ksysKill me pid sig).2 = (s.signalEach me n fun r t =>
          r.isLive t && ((r.procs t).pgid : Int) == s.groupOf me pid).2) := by
  unfold ksysKill
  split_ifs with hsig hpos hzero hgroup
  · exact Or.inl ⟨rfl, Or.inl hsig⟩
  all_goals obtain ⟨n, rfl⟩ : ∃ n : Nat, sig = n := ⟨sig.toNat, by omega⟩
  all_goals have hn : n < nsig := by omega
  · exact Or.inr ⟨n, rfl, hn, Or.inl ⟨hpos, rfl⟩⟩
  · have hg : s.groupOf me pid = (((s.queues.curr me).map fun p => (s.procs p).pgid).getD 0 : Nat) :=
      by simp [groupOf, hzero]
    rw [← hg, Int.toNat_natCast]
    unfold signalProcessGroup
    split_ifs with hle
    · exact Or.inl ⟨rfl, Or.inr ⟨by omega, by omega, hle⟩⟩
    · exact Or.inr ⟨n, rfl, hn, Or.inr (Or.inr ⟨by omega, by omega, by omega, rfl⟩)⟩
  · have hg : s.groupOf me pid = -pid := by simp [groupOf, hzero]
    rw [← hg, Int.toNat_natCast]
    unfold signalProcessGroup
    split_ifs with hle
    · omega
    · exact Or.inr ⟨n, rfl, hn, Or.inr (Or.inr ⟨by omega, by omega, by omega, rfl⟩)⟩
  · exact Or.inr ⟨n, rfl, hn, Or.inr (Or.inl ⟨by omega, rfl⟩)⟩

theorem findTaskByPid_some {pid : Int} (h : s.findTaskByPid pid = some t) :
    t ∈ s.allTasks ∧ (t : Int) = pid ∧ (s.procs t).isUser = true ∧ s.hasState t .dead = false := by
  unfold findTaskByPid at h
  split_ifs at h
  have htest := List.find?_some h
  simp only [Bool.and_eq_true, beq_iff_eq, Bool.not_eq_true'] at htest
  exact ⟨List.mem_of_find?_eq_some h, htest.1.1, htest.1.2, htest.2⟩

theorem findTaskByPid_of_mem {pid : Int} (hpos : 0 < pid) (hmem : t ∈ s.allTasks) (hpid : (t : Int) = pid)
    (huser : (s.procs t).isUser = true) (hdead : s.hasState t .dead = false) : s.findTaskByPid pid = some t := by
  unfold findTaskByPid
  rw [if_neg (by omega)]
  cases hfind : s.allTasks.find? fun t : Pid => (t : Int) == pid && (s.procs t).isUser && !s.hasState t .dead with
  | none =>
    rw [List.find?_eq_none] at hfind
    exact absurd (hfind t hmem) (by simp [hpid, huser, hdead])
  | some u =>
    have hu : (u : Int) = pid := by
      have htest := List.find?_some hfind
      simp only [Bool.and_eq_true, beq_iff_eq] at htest
      exact htest.1.1
    have hut : u = t := Int.natCast_inj.1 (hu.trans hpid.symm)
    rw [hut]

theorem all_test_stable (me : Cpu) (h : Signals wakes s s') (t : Pid) :
    ((s'.procs t).isUser && !decide (s'.queues.curr me = some t) && !s'.hasState t .dead) =
      ((s.procs t).isUser && !decide (s.queues.curr me = some t) && !s.hasState t .dead) := by
  unfold hasState
  rw [h.isUser, h.curr, h.queues.hasState_dead]

theorem group_test_stable (g : Int) (h : Signals wakes s s') (t : Pid) :
    (s'.isLive t && ((s'.procs t).pgid : Int) == g) = (s.isLive t && ((s.procs t).pgid : Int) == g) := by
  rw [h.isLive, h.pgid]

/-- What `kill` does, and whom it may wake from a stop. -/
theorem signals_ksysKill (h : Tidied s.queues) (me : Cpu) (pid sig : Int) :
    Signals (s.Ends me pid sig) s (s.ksysKill me pid sig).2 := by
  have hcast : ∀ {n : Nat}, n = sigcont ∨ n = sigkill → (n : Int) = sigcont ∨ (n : Int) = sigkill := by
    rintro n (rfl | rfl) <;> simp
  obtain ⟨heq, -⟩ | ⟨n, rfl, -, ⟨hpos, heq⟩ | ⟨hpid, heq⟩ | ⟨hle, hne, hgroup, heq⟩⟩ :=
    s.ksysKill_cases me pid sig <;> rw [heq]
  · exact .refl _ s
  · unfold signalOneProcess
    cases hfind : s.findTaskByPid pid with
    | none => exact .refl _ s
    | some t =>
      obtain ⟨-, hpid, huser, hdead⟩ := findTaskByPid_some hfind
      dsimp only
      split_ifs
      · exact .refl _ s
      · refine (signals_signalSend s (unlinked_of_stopped h) me n).mono ?_
        rintro u ⟨rfl, hsig⟩
        exact ⟨by simp [addresses, hpos, hpid, huser, hdead], hcast hsig⟩
  · refine (signals_signalEach h (fun r hr t => all_test_stable me hr t) me).mono ?_
    rintro u ⟨hpass, hsig⟩
    exact ⟨by simpa [addresses, hpid] using hpass, hcast hsig⟩
  · refine (signals_signalEach h (fun r hr t => group_test_stable (s.groupOf me pid) hr t) me).mono ?_
    rintro u ⟨hpass, hsig⟩
    refine ⟨?_, hcast hsig⟩
    unfold addresses
    rw [if_neg (by omega), if_neg hne, decide_eq_true hgroup, Bool.true_and]
    exact hpass

/-- A stopped task that `kill` sends `SIGCONT` or `SIGKILL` is awake after it. -/
theorem awake_ksysKill (h : Tidied s.queues) {pid sig : Int} (hmem : t ∈ s.allTasks) (hends : s.Ends me pid sig t)
    (hstop : s.hasState t .stopped = true) : (s.ksysKill me pid sig).2.queues.Awake t := by
  obtain ⟨hpass, hsig⟩ := hends
  have hcast : ∀ {n : Nat}, (n : Int) = sigcont ∨ (n : Int) = sigkill → n = sigcont ∨ n = sigkill := by
    intro n hn
    omega
  unfold addresses at hpass
  obtain ⟨-, hbad⟩ | ⟨n, rfl, -, ⟨hpos, heq⟩ | ⟨hpid, heq⟩ | ⟨hle, hne, hgroup, heq⟩⟩ := s.ksysKill_cases me pid sig
  · exfalso
    rcases hbad with hrange | ⟨hle, hne, hgroup⟩
    · simp only [sigcont, sigkill, nsig] at hsig hrange
      omega
    · rw [if_neg (by omega), if_neg hne, decide_eq_false (by omega), Bool.false_and] at hpass
      cases hpass
  · rw [if_pos hpos] at hpass
    simp only [Bool.and_eq_true, beq_iff_eq, Bool.not_eq_true'] at hpass
    have hne : n ≠ 0 := by
      rcases hcast hsig with rfl | rfl <;> decide
    obtain ⟨task, htask, hstate⟩ := hasState_iff.1 hstop
    rw [heq, signalOneProcess, findTaskByPid_of_mem hpos hmem hpass.1.1 hpass.1.2 hpass.2]
    dsimp only
    rw [if_neg hne]
    unfold signalSend
    dsimp only
    split_ifs <;> exact awake_signalQueue htask hstate (unlinked_of_stopped h hstop) me (hcast hsig)
  · rw [if_neg (by omega), if_pos hpid] at hpass
    rw [heq]
    exact awake_signalEach h (fun r hr t => all_test_stable me hr t) me hmem hpass hstop (hcast hsig)
  · rw [if_neg (by omega), if_neg hne, decide_eq_true hgroup, Bool.true_and] at hpass
    rw [heq]
    exact awake_signalEach h (fun r hr t => group_test_stable (s.groupOf me pid) hr t) me hmem hpass hstop (hcast hsig)

end Procs

end MiniOs.Sched
