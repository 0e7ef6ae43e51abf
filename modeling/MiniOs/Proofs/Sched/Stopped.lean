/-
Stop and continue. No pending set holds `SIGCONT` together with a stop signal, and a stopped task goes on
only in a step of `kill` that sends it `SIGCONT` or `SIGKILL`: wait queues, the timer, a child's news and
`wait4` all leave it alone.
-/
import MiniOs.Proofs.Sched.ProcessRun

namespace MiniOs.Sched

open Library Runqueues

namespace Procs

variable {s s' : Procs} {t p : Pid} {me : Cpu}

/-- A step sends `SIGCONT` or `SIGKILL` to `t`: it is a `kill`, of a task or of the terminal. -/
def releases (s : Procs) (a : Act) (t : Pid) : Bool :=
  match a with
  | .kill me pid sig => decide (t ∈ s.allTasks) && s.addresses me pid t && (sig == sigcont || sig == sigkill)
  | _ => false

/-- What a state and the step from it say about stopped tasks. -/
structure StopsAreKept (s : Procs) (a : Act) (s' : Procs) : Prop where
  /-- Stop and continue are not pending together. -/
  exclusive : ∀ t task, s.queues.tasks t = some task → ∀ sig, sigKernelStop sig = true →
    ¬ (task.pending &&& sigBit sigcont ≠ 0#64 ∧ task.pending &&& sigBit sig ≠ 0#64)
  /-- Only a releasing step moves a stopped task. -/
  stays : ∀ t, s.hasState t .stopped = true → s'.hasState t .stopped = false → s.releases a t = true
  /-- And after it the task is runnable. -/
  wakes : ∀ t, s.hasState t .stopped = true → s.releases a t = true →
    s'.hasState t .running = true ∧ s'.queues.linked t = true

theorem releases_of_wokenBy (h : s.Inv) {a : Act} (hstop : s.hasState t .stopped = true) (hwoken : s.wokenBy a t) :
    s.releases a t = true := by
  cases a with
  | kill me pid sig =>
    obtain ⟨haddr, hsig⟩ := hwoken
    obtain ⟨task, htask, -⟩ := hasState_iff.1 hstop
    have hmem : t ∈ s.allTasks := (h.listed t).2 (by rw [htask]; rfl)
    simp [releases, hmem, haddr, hsig]
  | _ => cases hwoken

/-- Every step but a releasing one keeps every stopped task stopped. -/
theorem Inv.stopped_step (h : s.Inv) {a : Act} {out : Option Waited} (hs : s.step a = some (s', out))
    (hstop : s.hasState t .stopped = true) : s'.hasState t .stopped = true ∨ s.wokenBy a t := by
  obtain ⟨task, htask, hstate⟩ := hasState_iff.1 hstop
  obtain ⟨me, cpu, p, -, -, rfl⟩ | ⟨me, pid, pgid, p, -, -, rfl⟩ | ⟨me, p, -, -, rfl⟩ |
    ⟨me, p, w, z, -, -, -, hz, rfl⟩ | had :=
    h.step_cases hs
  · have hmem : t ∈ s.allTasks := (h.listed t).2 (by rw [htask]; rfl)
    have hforked : (s.forked p cpu).hasState t .stopped = true :=
      hasState_iff.2 ⟨task, by rw [forked_tasks, if_neg (h.ne_nextPid hmem), htask], hstate⟩
    exact Or.inl (((h.advances_ksysFork me p cpu).stopped t hforked).resolve_right id)
  · rcases s.ksysSetpgid_cases p pid pgid with heq |
      ⟨u, g, -, -, -, -, -, -, -, heq⟩ <;> rw [heq] <;> exact Or.inl hstop
  · unfold ksysSetsid
    split_ifs <;> exact Or.inl hstop
  · -- the reaped task is a zombie, so another one
    have htz : t ≠ z := by
      rintro rfl
      obtain ⟨task', htask', hstate'⟩ := hasState_iff.1 (findChild_some hz).2.2
      rw [htask] at htask'
      cases htask'
      simp [hstate] at hstate'
    have hdrop := signals_dropPending (fun _ => False) s p sigchld
    have hstill : (s.dropPending p sigchld).hasState t .stopped = true :=
      (hdrop.queues.stopped_after hstop).resolve_right id
    left
    show ((s.dropPending p sigchld).freeTask z).hasState t .stopped = true
    rw [freeTask_hasState, hstill, decide_eq_true htz, Bool.and_self]
  · exact had.stopped t hstop

theorem Inv.stopsAreKept (h : s.Inv) {a : Act} {out : Option Waited} (hs : s.step a = some (s', out)) :
    StopsAreKept s a s' where
  exclusive t task htask sig hsig := (h.exclusive t task htask).not_both hsig
  stays t hstop hgone := by
    refine releases_of_wokenBy h hstop ((h.stopped_step hs hstop).resolve_left ?_)
    simp [hgone]
  wakes t hstop hrel := by
    cases a with
    | kill me pid sig =>
      simp only [releases, Bool.and_eq_true, decide_eq_true_eq, Bool.or_eq_true, beq_iff_eq] at hrel
      cases hs
      exact awake_ksysKill h.tidied hrel.1.1 ⟨hrel.1.2, hrel.2⟩ hstop
    | _ => cases hrel

/-- In every run stop and continue exclude each other, and only they move a stopped task. -/
theorem run_stopsAreKept {cpu : Nat} {acts : List Act} {a : Act} (hrun : run move (init cpu) acts = some s)
    (hmove : s.move a = some s') : StopsAreKept s a s' := by
  obtain ⟨out, hs⟩ := move_some hmove
  exact (run_inv hrun).stopsAreKept hs

/-- A child that has been stopped, and the `SIGCONT` that its parent sends it. -/
theorem run_stopsAreKept_of_continued : ∃ s s', run move (init 0)
      [.schedule 0, .fork 0 1, .schedule 1, .kill 0 2 sigstop, .doSignal 1 true] = some s ∧
    s.hasState 2 .stopped = true ∧ s.move (.kill 0 2 sigcont) = some s' ∧ StopsAreKept s (.kill 0 2 sigcont) s' := by
  obtain ⟨s, hrun, hstop, s', hmove⟩ : ∃ s, run move (init 0)
      [.schedule 0, .fork 0 1, .schedule 1, .kill 0 2 sigstop, .doSignal 1 true] = some s ∧
      s.hasState 2 .stopped = true ∧ ∃ s', s.move (.kill 0 2 sigcont) = some s' := ⟨_, rfl, by decide, _, rfl⟩
  exact ⟨s, s', hrun, hstop, hmove, run_stopsAreKept hrun hmove⟩

end Procs

end MiniOs.Sched
