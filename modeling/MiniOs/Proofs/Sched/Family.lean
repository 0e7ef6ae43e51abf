/-
Parents and children. `do_exit` hands the children of a task to nobody, so a parent link stays good only as
long as no task is reaped that still has children; then every exit is told to a task that has not been
freed, and every zombie that has a parent can be reaped by it.
-/
import MiniOs.Proofs.Sched.ProcessRun

namespace MiniOs.Sched

open Library Runqueues

namespace Procs

variable {s s' : Procs} {t p z : Pid} {me : Cpu} {w : Wait} {wakes : Pid → Prop}

def parentOf (s : Procs) (t : Pid) : Option Pid := (s.queues.tasks t).bind Task.parent

/-- Every parent link leads to a task on `all_tasks`. -/
def ParentsListed (s : Procs) : Prop := ∀ t p, t ∈ s.allTasks → s.parentOf t = some p → p ∈ s.allTasks

/-- The zombie a round of `wait4` is about to reap. -/
def reaps (s : Procs) (me : Cpu) : Option Pid :=
  (s.queues.curr me).bind fun p =>
    match s.mode p with
    | .waiting w => s.findChild p w (some .zombie)
    | _ => none

/-- A step that reaps nobody's parent. -/
def keepsParents (s : Procs) : Act → Bool
  | .waitRound me => (s.reaps me).all fun z => !s.allTasks.any fun t => decide (s.parentOf t = some z)
  | _ => true

def moveChildless (s : Procs) (a : Act) : Option Procs := if s.keepsParents a then s.move a else none

/-! ## The links -/

theorem init_parentsListed (cpu : Nat) : (init cpu).ParentsListed := by
  intro t p _ hparent
  unfold parentOf at hparent
  rw [(stirs_init cpu).parent, kernelThread_init_tasks] at hparent
  split_ifs at hparent <;> cases hparent

theorem ParentsListed.advances (h : s.ParentsListed) (had : Advances wakes s s') : s'.ParentsListed := by
  intro t p ht hparent
  rw [had.allTasks] at ht ⊢
  exact h t p ht ((had.parent t).symm.trans hparent)

theorem ParentsListed.forked (h : s.ParentsListed) (hp : p ∈ s.allTasks) (cpu : Nat) :
    (s.forked p cpu).ParentsListed := by
  have hold : ∀ q, q ∈ s.allTasks → q ∈ (s.forked p cpu).allTasks := fun q hq => List.mem_append_left _ hq
  intro t q ht hparent
  unfold parentOf at hparent
  rw [forked_tasks] at hparent
  split_ifs at hparent with hchild
  · cases hparent
    exact hold p hp
  · have htold : t ∈ s.allTasks := by simpa [Procs.forked, hchild] using ht
    exact hold q (h t q htold hparent)

theorem reaps_of_find (hcurr : s.queues.curr me = some p) (hmode : s.mode p = .waiting w)
    (hz : s.findChild p w (some .zombie) = some z) : s.reaps me = some z := by
  simp [reaps, hcurr, hmode, hz]

theorem ParentsListed.reaped (h : s.ParentsListed) (hinv : s.Inv)
    (hnone : ∀ t, t ∈ s.allTasks → s.parentOf t ≠ some z) :
    (((s.dropPending p sigchld).freeTask z).goto p .run).ParentsListed := by
  have hsig := signals_dropPending (fun _ => False) s p sigchld
  intro t q ht hparent
  have hmem : ∀ u, u ∈ (((s.dropPending p sigchld).freeTask z).goto p .run).allTasks ↔ u ≠ z ∧ u ∈ s.allTasks :=
    fun u => hinv.once.mem_erase_iff
  obtain ⟨htz, htold⟩ := (hmem t).1 ht
  have hbefore : s.parentOf t = some q := by
    rw [← hparent]
    unfold parentOf goto Procs.freeTask
    dsimp only
    rw [freeTask_tasks, if_neg htz]
    exact (hsig.queues.parent t).symm
  refine (hmem q).2 ⟨?_, h t q htold hbefore⟩
  rintro rfl
  exact hnone t htold hbefore

theorem ParentsListed.moveChildless (h : s.ParentsListed) (hinv : s.Inv) {a : Act}
    (hmove : s.moveChildless a = some s') : s'.ParentsListed := by
  unfold Procs.moveChildless at hmove
  split_ifs at hmove with hkeeps
  obtain ⟨out, hs⟩ := move_some hmove
  obtain ⟨me, cpu, p, -, hp, rfl⟩ | ⟨me, pid, pgid, p, -, hp, rfl⟩ | ⟨me, p, -, hp, rfl⟩ |
    ⟨me, p, w, z, rfl, hcurr, hmode, hz, rfl⟩ | had := hinv.step_cases hs
  · have hmem : p ∈ s.allTasks := (hinv.listed p).2 (hinv.atWork_of_calls hp).present
    exact (h.forked hmem cpu).advances (hinv.advances_ksysFork me p cpu)
  · rcases s.ksysSetpgid_cases p pid pgid with heq | ⟨t, g, -, -, -, -, -, -, -, heq⟩ <;> rw [heq] <;> exact h
  · unfold ksysSetsid
    split_ifs <;> exact h
  · refine h.reaped hinv fun t ht hparent => ?_
    rw [keepsParents, reaps_of_find hcurr hmode hz] at hkeeps
    have hany : (s.allTasks.any fun t => decide (s.parentOf t = some z)) = true :=
      List.any_eq_true.2 ⟨t, ht, by simpa using hparent⟩
    simp [hany] at hkeeps
  · exact h.advances had

/-! ## Notification and reaping -/

theorem modify_pending (queues : Runqueues) (f : Task → Task) (hf : ∀ task, (f task).pending = task.pending)
    (t u : Pid) : ((queues.modify t f).tasks u).map Task.pending = (queues.tasks u).map Task.pending := by
  rw [modify_tasks]
  split_ifs with hut
  · rw [hut, Option.map_map]
    congr 1
    funext task
    exact hf task
  · rfl

theorem wakeUpProcess_pending (queues : Runqueues) (me : Cpu) (t u : Pid) :
    ((queues.wakeUpProcess me t).tasks u).map Task.pending = (queues.tasks u).map Task.pending := by
  have hlocked : ∀ (queues : Runqueues) (c : Cpu), ((queues.enqueueTaskLocked t c).tasks u).map Task.pending =
    (queues.tasks u).map Task.pending := by
    intro queues c
    unfold enqueueTaskLocked
    split_ifs
    · rfl
    · exact modify_pending queues (fun task => { task with state := .running, cpu := c }) (fun _ => rfl) t u
  have hmoved := modify_pending queues (fun task => { task with cpu := me }) (fun _ => rfl) t u
  unfold wakeUpProcess
  split_ifs
  · rfl
  unfold enqueueTask enqueueTaskCpu
  cases queues.tasks t with
  | none => rfl
  | some task =>
    dsimp only
    split_ifs
    · exact (hlocked _ _).trans hmoved
    · exact hmoved
    · exact hlocked _ _
    · rfl

theorem sigchld_pending (pending : BitVec 64) : addPending pending sigchld &&& sigBit sigchld ≠ 0#64 := by
  intro hzero
  have hbit := congrArg (fun x => x.getLsbD 16) hzero
  simp [addPending, sigchld, sigcont, sigKernelStop, sigstop, sigtstp, sigttin, sigttou, sigBit] at hbit

theorem notifyParent_pending {queues : Runqueues} {child : Pid}
    (hparent : (queues.tasks child).bind Task.parent = some p) (hlisted : (queues.tasks p).isSome = true) (me : Cpu) :
    ∃ pending, ((queues.notifyParent me child).tasks p).map Task.pending = some pending ∧
      pending &&& sigBit sigchld ≠ 0#64 := by
  obtain ⟨task, htask⟩ := Option.isSome_iff_exists.1 hlisted
  refine ⟨addPending task.pending sigchld, ?_, sigchld_pending task.pending⟩
  have hsent : ((signalQueueWith id queues me p sigchld).tasks p).map Task.pending =
      some (addPending task.pending sigchld) := by
    have hadd : ((queues.modify p fun task =>
        { task with pending := addPending task.pending sigchld }).tasks p).map Task.pending =
          some (addPending task.pending sigchld) := by
      rw [modify_tasks, if_pos rfl, htask]
      rfl
    unfold signalQueueWith
    rw [if_neg (by decide)]
    dsimp only
    split_ifs with hcont
    · exact absurd (Bool.and_eq_true_iff.1 hcont).2 (by decide)
    · rw [wakeUpProcess_pending, hadd]
    · rw [wakeUpProcess_pending, hadd]
    · exact hadd
  unfold notifyParent
  rw [hparent]
  dsimp only
  split_ifs
  · rw [wakeUpProcess_pending, hsent]
  · exact hsent

theorem findChild_self (hz : z ∈ s.allTasks) (hparent : s.parentOf z = some p) (hzombie : s.hasState z .zombie = true)
    (options : BitVec 64) : s.findChild p ⟨z, options⟩ (some .zombie) = some z := by
  have htest : ∀ t, (s.isChild p ⟨z, options⟩ t && (some TaskState.zombie).all (s.hasState t)) = true → t = z := by
    intro t ht
    have hsel := (Bool.and_eq_true_iff.1 (Bool.and_eq_true_iff.1 ht).1).2
    have hpid : (z : Int) ≠ -1 := by omega
    have heq : (t : Int) = z := by simpa [Wait.selects, hpid] using hsel
    exact Int.natCast_inj.1 heq
  unfold findChild
  cases hfind : s.allTasks.find? fun t => s.isChild p ⟨z, options⟩ t && (some TaskState.zombie).all (s.hasState t) with
  | none =>
    rw [List.find?_eq_none] at hfind
    refine absurd ?_ (hfind z hz)
    have hbind : (s.queues.tasks z).bind Task.parent = some p := hparent
    simp [isChild, hbind, Wait.selects, hzombie]
  | some t =>
    have ht := List.find?_some hfind
    rw [htest t ht]

/-- What parent links are for. -/
structure ParentsServe (s : Procs) : Prop where
  listed : s.ParentsListed
  /-- A task that exits leaves `SIGCHLD` pending for its parent, a task on `all_tasks`. -/
  notified : ∀ t p me code, t ∈ s.allTasks → s.parentOf t = some p →
    ∃ pending, ((s.doExit me t code).queues.tasks p).map Task.pending = some pending ∧ pending &&& sigBit sigchld ≠ 0#64
  /-- A zombie's parent is on `all_tasks`, and a round of its `wait4` for it reaps it. -/
  reapable : ∀ z p options, z ∈ s.allTasks → s.hasState z .zombie = true → s.parentOf z = some p →
    p ∈ s.allTasks ∧ (s.waitRound p ⟨z, options⟩).1 = .ret (.exited z (s.procs z).exitCode)

theorem ParentsListed.serve (h : s.ParentsListed) (hinv : s.Inv) : s.ParentsServe where
  listed := h
  notified t p me code ht hparent := by
    have hp : (s.queues.tasks p).isSome = true := (hinv.listed p).1 (h t p ht hparent)
    have hblocked : ((s.queues.schedBlock t .zombie).tasks t).bind Task.parent = some p := by
      rw [schedBlock_tasks, if_pos rfl, ← hparent]
      unfold parentOf
      cases s.queues.tasks t <;> rfl
    refine notifyParent_pending hblocked ?_ me
    rw [schedBlock_tasks]
    split_ifs with hpt
    · rw [Option.isSome_map, ← hpt]
      exact hp
    · exact hp
  reapable z p options hz hzombie hparent := by
    refine ⟨h z p hz hparent, ?_⟩
    have hfind := findChild_self hz hparent hzombie options
    obtain ⟨z', hz', hround⟩ | ⟨hreap, -⟩ := s.waitRound_cases p ⟨z, options⟩
    · rw [hfind] at hz'
      cases hz'
      rw [hround]
    · rw [hfind] at hreap
      simp at hreap

/-- In every run in which nobody with children is reaped, parent links are good. -/
theorem run_parentsServe {cpu : Nat} {acts : List Act} (hrun : run moveChildless (init cpu) acts = some s) :
    s.ParentsServe := by
  have hinv : s.Inv ∧ s.ParentsListed := by
    refine run_invariant (P := fun s => s.Inv ∧ s.ParentsListed) (fun s a s' hs hmove => ?_)
      ⟨init_inv cpu, init_parentsListed cpu⟩ hrun
    refine ⟨?_, hs.2.moveChildless hs.1 hmove⟩
    unfold moveChildless at hmove
    split_ifs at hmove
    obtain ⟨out, hstep⟩ := move_some hmove
    exact hs.1.step hstep
  exact hinv.2.serve hinv.1

/-- A grandchild, its parent's exit, and a `wait4` that finds nobody to reap yet. -/
theorem run_parentsServe_of_grandchild : ∃ s, run moveChildless (init 0)
      [.schedule 0, .fork 0 1, .schedule 1, .fork 1 2, .schedule 2, .exit 2 0, .wait4 1 ⟨-1, 0⟩,
        .waitRound 1] = some s ∧
    s.allTasks = [1, 2] ∧ s.ParentsServe := by
  obtain ⟨s, hrun, htasks⟩ : ∃ s, run moveChildless (init 0)
      [.schedule 0, .fork 0 1, .schedule 1, .fork 1 2, .schedule 2, .exit 2 0, .wait4 1 ⟨-1, 0⟩,
        .waitRound 1] = some s ∧ s.allTasks = [1, 2] := ⟨_, rfl, rfl⟩
  exact ⟨s, hrun, htasks, run_parentsServe hrun⟩

/-- The init task reaps a child that has a child: the grandchild's parent is gone. -/
theorem not_parentsListed_of_orphan : ∃ s, run move (init 0)
      [.schedule 0, .fork 0 1, .schedule 1, .fork 1 2, .exit 1 0, .schedule 1, .wait4 0 ⟨-1, 0⟩,
        .waitRound 0] = some s ∧
    ¬ s.ParentsListed := by
  refine ⟨_, rfl, fun h => ?_⟩
  exact absurd (h 3 2 (by decide) (by decide)) (by decide)

end Procs

end MiniOs.Sched
