/-
Process groups and sessions. A group stays within one session as long as `setpgid` moves a task into
another's group only if that group has a member in the task's session. The test against `current->sid`
that the source makes does not look at the group, so a task can join one of another session.
-/
import MiniOs.Proofs.Sched.ProcessRun

namespace MiniOs.Sched

open Library Runqueues

namespace Procs

variable {s s' : Procs} {t u p : Pid} {me : Cpu} {wakes : Pid → Prop}

/-- Live tasks of one group are in one session. -/
def GroupsWithinSessions (s : Procs) : Prop :=
  ∀ t u, t ∈ s.allTasks → u ∈ s.allTasks → s.isLive t = true → s.isLive u = true →
    (s.procs t).pgid = (s.procs u).pgid → (s.procs t).sid = (s.procs u).sid

/-- A call `setpgid(pid, pgid)` of task `p` that succeeds, for a live task and a group of which no live
member is in that task's session. -/
def strays (s : Procs) (p : Pid) (pid pgid : Int) : Bool :=
  match s.pgidTarget p pid with
  | none => false
  | some t =>
    let g := pgidGroup t pgid
    s.isLive t && (decide (t = p) || decide ((s.queues.tasks t).bind Task.parent = some p)) &&
      decide ((s.procs t).sid ≠ t) && decide ((s.procs t).sid = (s.procs p).sid) && decide (g ≠ t) && s.pgidExists g &&
      !s.allTasks.any fun u => s.isLive u && ((s.procs u).pgid : Int) == g && (s.procs u).sid == (s.procs t).sid

/-- A step that lets no task stray into a group of another session. -/
def staysInSession (s : Procs) : Act → Bool
  | .setpgid me pid pgid => (s.queues.curr me).all fun p => !s.strays p pid pgid
  | _ => true

def moveWithin (s : Procs) (a : Act) : Option Procs := if s.staysInSession a then s.move a else none

/-! ## The invariant -/

/-- Besides: a live task whose group has the number of a live task is in that task's session, and numbers of
groups have been pids. -/
structure Grouped (s : Procs) : Prop where
  within : s.GroupsWithinSessions
  leader : ∀ t u, t ∈ s.allTasks → u ∈ s.allTasks → s.isLive t = true → s.isLive u = true →
    (s.procs t).pgid = u → (s.procs t).sid = (s.procs u).sid
  known : ∀ t, t ∈ s.allTasks → s.isLive t = true → (s.procs t).pgid < s.queues.nextPid
  positive : ∀ t, t ∈ s.allTasks → 0 < t

theorem init_grouped (cpu : Nat) : (init cpu).Grouped := by
  have hone : ∀ t, t ∈ (init cpu).allTasks → t = 1 := by simp [init]
  have hnext : (init cpu).queues.nextPid = 2 := (stirs_init cpu).nextPid
  constructor
  · intro t u ht hu _ _ _
    rw [hone t ht, hone u hu]
  · intro t u ht hu _ _ _
    rw [hone t ht, hone u hu]
  · intro t ht _
    rw [hone t ht, hnext]
    simp [init]
  · intro t ht
    rw [hone t ht]
    decide

/-- A step after which fewer tasks may be live, in the groups and sessions they were in. -/
theorem Grouped.fewer (h : s.Grouped) (htasks : ∀ t, t ∈ s'.allTasks → t ∈ s.allTasks)
    (hlive : ∀ t, t ∈ s'.allTasks → s'.isLive t = true → s.isLive t = true)
    (hpgid : ∀ t, (s'.procs t).pgid = (s.procs t).pgid) (hsid : ∀ t, (s'.procs t).sid = (s.procs t).sid)
    (hnext : s.queues.nextPid ≤ s'.queues.nextPid) : s'.Grouped where
  within t u ht hu hlt hlu heq := by
    rw [hpgid, hpgid] at heq
    rw [hsid, hsid]
    exact h.within t u (htasks t ht) (htasks u hu) (hlive t ht hlt) (hlive u hu hlu) heq
  leader t u ht hu hlt hlu heq := by
    rw [hpgid] at heq
    rw [hsid, hsid]
    exact h.leader t u (htasks t ht) (htasks u hu) (hlive t ht hlt) (hlive u hu hlu) heq
  known t ht hlt := by
    rw [hpgid]
    exact (h.known t (htasks t ht) (hlive t ht hlt)).trans_le hnext
  positive t ht := h.positive t (htasks t ht)

theorem isLive_iff : s.isLive t = true ↔ (s.procs t).isUser = true ∧ s.hasState t .zombie = false ∧
    s.hasState t .dead = false := by
  simp [isLive, and_assoc]

theorem Advances.isLive_before (had : Advances wakes s s') (h : s.Inv) (hlive : s'.isLive t = true) :
    s.isLive t = true := by
  obtain ⟨huser, hzombie, -⟩ := isLive_iff.1 hlive
  refine isLive_iff.2 ⟨(had.isUser t).symm.trans huser, ?_, h.undead t⟩
  by_contra hz
  have hz' := had.zombie t (by simpa using hz)
  simp [hzombie] at hz'

theorem Grouped.advances (h : s.Grouped) (hinv : s.Inv) (had : Advances wakes s s') : s'.Grouped :=
  h.fewer (fun _ ht => had.allTasks ▸ ht) (fun _ _ hlive => had.isLive_before hinv hlive) had.pgid had.sid had.nextPid

theorem Inv.mem_of_atWork (h : s.Inv) (hp : AtWork s.queues p) : p ∈ s.allTasks := (h.listed p).2 hp.present

theorem Inv.isLive_of_calls (h : s.Inv) (hp : s.Calls me p) : s.isLive p = true :=
  isLive_iff.2 ⟨hp.isUser, (h.atWork_of_calls hp).zombie, h.undead p⟩

theorem Inv.lt_nextPid (h : s.Inv) (ht : t ∈ s.allTasks) : t < s.queues.nextPid := by
  by_contra hle
  rw [h.listed, h.tidied.fresh t (not_lt.1 hle)] at ht
  cases ht

/-! ## `fork` -/

/-- A live task after a `fork` has the group and session of one from before: its own, or its parent's. -/
theorem Inv.forked_origin (h : s.Inv) (hp : s.Calls me p) (cpu : Nat) (ht : t ∈ (s.forked p cpu).allTasks)
    (hlive : (s.forked p cpu).isLive t = true) :
    ∃ o, o ∈ s.allTasks ∧ s.isLive o = true ∧ ((s.forked p cpu).procs t).pgid = (s.procs o).pgid ∧
      ((s.forked p cpu).procs t).sid = (s.procs o).sid ∧ (t ≠ s.queues.nextPid → o = t) := by
  by_cases hchild : t = s.queues.nextPid
  · refine ⟨p, h.mem_of_atWork (h.atWork_of_calls hp), h.isLive_of_calls hp, ?_, ?_, fun hne => absurd hchild hne⟩
    · simp [hchild, Procs.forked]
    · simp [hchild, Procs.forked]
  · have hmem : t ∈ s.allTasks := by simpa [Procs.forked, hchild] using ht
    refine ⟨t, hmem, ?_, by simp [Procs.forked, hchild], by simp [Procs.forked, hchild], fun _ => rfl⟩
    have hprocs : (s.forked p cpu).procs t = s.procs t := by simp [Procs.forked, hchild]
    have hstate : ∀ state, (s.forked p cpu).hasState t state = s.hasState t state := by
      intro state
      unfold hasState Runqueues.hasState
      rw [forked_tasks, if_neg hchild]
    unfold isLive at hlive ⊢
    rwa [hprocs, hstate, hstate] at hlive

theorem Grouped.forked (h : s.Grouped) (hinv : s.Inv) (hp : s.Calls me p) (cpu : Nat) : (s.forked p cpu).Grouped where
  within t u ht hu hlt hlu heq := by
    obtain ⟨o, ho, hlo, hpgid, hsid, -⟩ := hinv.forked_origin hp cpu ht hlt
    obtain ⟨o', ho', hlo', hpgid', hsid', -⟩ := hinv.forked_origin hp cpu hu hlu
    rw [hsid, hsid']
    exact h.within o o' ho ho' hlo hlo' (by rw [← hpgid, ← hpgid', heq])
  leader t u ht hu hlt hlu heq := by
    obtain ⟨o, ho, hlo, hpgid, hsid, -⟩ := hinv.forked_origin hp cpu ht hlt
    obtain ⟨o', ho', hlo', -, hsid', hsame⟩ := hinv.forked_origin hp cpu hu hlu
    -- nobody's group has the child's number yet
    have hold : u ≠ s.queues.nextPid := by
      rintro rfl
      exact absurd (h.known o ho hlo) (by rw [← hpgid, heq]; exact lt_irrefl _)
    rw [hsid, hsid', hsame hold]
    rw [hsame hold] at ho' hlo'
    exact h.leader o u ho ho' hlo hlo' (hpgid.symm.trans heq)
  known t ht hlt := by
    obtain ⟨o, ho, hlo, hpgid, -, -⟩ := hinv.forked_origin hp cpu ht hlt
    rw [hpgid]
    exact Nat.lt_succ_of_lt (h.known o ho hlo)
  positive t ht := by
    have hnext : 0 < s.queues.nextPid :=
      Nat.zero_lt_of_lt (hinv.lt_nextPid (hinv.mem_of_atWork (hinv.atWork_of_calls hp)))
    by_cases hchild : t = s.queues.nextPid
    · rw [hchild]
      exact hnext
    · exact h.positive t (by simpa [Procs.forked, hchild] using ht)

/-! ## `setpgid` and `setsid` -/

theorem pgidExists_iff {g : Int} : s.pgidExists g = true ↔
    0 < g ∧ ∃ u, u ∈ s.allTasks ∧ s.isLive u = true ∧ ((s.procs u).pgid : Int) = g := by
  simp [pgidExists]

@[simp] theorem modifyProc_isLive_of_pgid (s : Procs) (t : Pid) (g : Pid) (u : Pid) :
    (s.modifyProc t fun proc => { proc with pgid := g }).isLive u = s.isLive u := by
  unfold isLive modifyProc hasState
  by_cases hu : u = t <;> simp [hu]

/-- A live task moves to a group of which every live member is in its session, and so is the task whose
number the group has. -/
theorem Grouped.setpgid (h : s.Grouped) (ht : t ∈ s.allTasks) {g : Pid} (hg : g < s.queues.nextPid)
    (hmates : ∀ u, s.isLive t = true → u ∈ s.allTasks → s.isLive u = true → (s.procs u).pgid = g →
      (s.procs u).sid = (s.procs t).sid)
    (hlead : s.isLive t = true → g ∈ s.allTasks → s.isLive g = true → (s.procs t).sid = (s.procs g).sid) :
    (s.modifyProc t fun proc => { proc with pgid := g }).Grouped := by
  have hsid : ∀ u, ((s.modifyProc t fun proc => { proc with pgid := g }).procs u).sid = (s.procs u).sid := by
    intro u
    by_cases hu : u = t <;> simp [modifyProc, hu]
  have hself : ((s.modifyProc t fun proc => { proc with pgid := g }).procs t).pgid = g := by simp [modifyProc]
  have hother : ∀ u, u ≠ t → ((s.modifyProc t fun proc => { proc with pgid := g }).procs u).pgid =
    (s.procs u).pgid := by
    intro u hu
    simp [modifyProc, hu]
  refine ⟨fun a b ha hb hla hlb heq => ?_, fun a b ha hb hla hlb heq => ?_, fun a ha hla => ?_, h.positive⟩
  · rw [modifyProc_isLive_of_pgid] at hla hlb
    rw [hsid, hsid]
    by_cases hat : a = t <;> by_cases hbt : b = t
    · rw [hat, hbt]
    · subst hat
      rw [hself, hother b hbt] at heq
      exact (hmates b hla hb hlb heq.symm).symm
    · subst hbt
      rw [hself, hother a hat] at heq
      exact hmates a hlb ha hla heq
    · rw [hother a hat, hother b hbt] at heq
      exact h.within a b ha hb hla hlb heq
  · rw [modifyProc_isLive_of_pgid] at hla hlb
    rw [hsid, hsid]
    by_cases hat : a = t
    · subst hat
      rw [hself] at heq
      subst heq
      exact hlead hla hb hlb
    · rw [hother a hat] at heq
      exact h.leader a b ha hb hla hlb heq
  · rw [modifyProc_isLive_of_pgid] at hla
    by_cases hat : a = t
    · rw [hat, hself]
      exact hg
    · rw [hother a hat]
      exact h.known a ha hla

theorem Grouped.ksysSetpgid (h : s.Grouped) (hinv : s.Inv) {pid pgid : Int} (hstays : s.strays p pid pgid = false) :
    (s.ksysSetpgid p pid pgid).2.Grouped := by
  rcases s.ksysSetpgid_cases p pid pgid with heq | ⟨t, g, htarget, hg, hpos, hkin, hgroup, hleader, hsession, heq⟩
  · rw [heq]
    exact h
  rw [heq]
  have ht : t ∈ s.allTasks := (findTaskByPid_some htarget).1
  obtain ⟨n, rfl⟩ : ∃ n : Nat, g = n := ⟨g.toNat, by omega⟩
  rw [Int.toNat_natCast]
  by_cases hown : n = t
  · -- a group of its own: whoever has the number already is in the session of its owner
    subst hown
    exact h.setpgid ht (hinv.lt_nextPid ht) (fun u hlt hu hlu heq => h.leader u n hu ht hlu hlt heq) fun _ _ _ => rfl
  · have hexists : s.pgidExists n = true := hgroup.resolve_left fun heq => hown (Int.natCast_inj.1 heq)
    obtain ⟨-, u0, hu0, hlu0, hpu0⟩ := pgidExists_iff.1 hexists
    have hpu0 : (s.procs u0).pgid = n := Int.natCast_inj.1 hpu0
    -- a live task finds a mate of its session there
    have hmate : s.isLive t = true → ∃ u, u ∈ s.allTasks ∧ s.isLive u = true ∧ (s.procs u).pgid = n ∧
      (s.procs u).sid = (s.procs t).sid := by
      intro hlive
      by_contra hnone
      have hstray : s.strays p pid pgid = true := by
        have hkin' : (decide (t = p) || decide ((s.queues.tasks t).bind Task.parent = some p)) = true :=
          by simpa using hkin
        have hne : ((n : Int) ≠ t) := fun heq => hown (Int.natCast_inj.1 heq)
        have hlonely : (s.allTasks.any fun u => s.isLive u && ((s.procs u).pgid : Int) == (n : Int) &&
          (s.procs u).sid == (s.procs t).sid) = false := by
          rw [Bool.eq_false_iff]
          intro hany
          obtain ⟨u, hu, htest⟩ := List.any_eq_true.1 hany
          simp only [Bool.and_eq_true, beq_iff_eq, Int.natCast_inj] at htest
          exact hnone ⟨u, hu, htest.1.1, htest.1.2, htest.2⟩
        unfold strays
        rw [htarget]
        dsimp only
        rw [← hg, hlive, hkin', decide_eq_true hleader, decide_eq_true hsession, decide_eq_true hne, hexists, hlonely]
        rfl
      rw [hstray] at hstays
      cases hstays
    refine h.setpgid ht (hpu0 ▸ h.known u0 hu0 hlu0) (fun u hlt hu hlu hpu => ?_) fun hlt hn hln => ?_
    · obtain ⟨m, hm, hlm, hpm, hsm⟩ := hmate hlt
      rw [← hsm]
      exact h.within u m hu hm hlu hlm (hpu.trans hpm.symm)
    · obtain ⟨m, hm, hlm, hpm, hsm⟩ := hmate hlt
      rw [← hsm]
      exact h.leader m n hm hn hlm hln hpm

/-- `setsid` makes a group that nobody was in. -/
theorem Grouped.ksysSetsid (h : s.Grouped) (hinv : s.Inv) (hp : p ∈ s.allTasks) : (s.ksysSetsid p).2.Grouped := by
  unfold Procs.ksysSetsid
  by_cases hexists : s.pgidExists p = true
  · rw [if_pos hexists]
    exact h
  rw [if_neg hexists]
  have hnobody : ∀ u, u ∈ s.allTasks → s.isLive u = true → (s.procs u).pgid ≠ p := by
    intro u hu hlu hpgid
    refine hexists (pgidExists_iff.2 ⟨?_, u, hu, hlu, by rw [hpgid]⟩)
    exact Int.natCast_pos.2 (h.positive p hp)
  have hlive : ∀ u, (s.modifyProc p fun proc => { proc with sid := p, pgid := p }).isLive u = s.isLive u := by
    intro u
    unfold isLive modifyProc hasState
    by_cases hu : u = p <;> simp [hu]
  have hself : (s.modifyProc p fun proc => { proc with sid := p, pgid := p }).procs p =
      { s.procs p with sid := p, pgid := p } := by
    simp [modifyProc]
  have hother : ∀ u, u ≠ p → (s.modifyProc p fun proc => { proc with sid := p, pgid := p }).procs u = s.procs u := by
    intro u hu
    simp [modifyProc, hu]
  refine ⟨fun a b ha hb hla hlb heq => ?_, fun a b ha hb hla hlb heq => ?_, fun a ha hla => ?_, h.positive⟩
  · rw [hlive] at hla hlb
    by_cases hap : a = p <;> by_cases hbp : b = p
    · rw [hap, hbp]
    · rw [hap, hself, hother b hbp] at heq
      exact absurd heq.symm (hnobody b hb hlb)
    · rw [hbp, hself, hother a hap] at heq
      exact absurd heq (hnobody a ha hla)
    · rw [hother a hap, hother b hbp] at heq ⊢
      exact h.within a b ha hb hla hlb heq
  · rw [hlive] at hla hlb
    by_cases hap : a = p
    · rw [hap, hself] at heq
      rw [hap, ← show p = b from heq]
    · rw [hother a hap] at heq
      have hbp : b ≠ p := by
        rintro rfl
        exact hnobody a ha hla heq
      rw [hother a hap, hother b hbp]
      exact h.leader a b ha hb hla hlb heq
  · rw [hlive] at hla
    by_cases hap : a = p
    · rw [hap, hself]
      exact hinv.lt_nextPid hp
    · rw [hother a hap]
      exact h.known a ha hla

/-! ## Runs -/

theorem Grouped.reaped (h : s.Grouped) (hinv : s.Inv) (p z : Pid) :
    (((s.dropPending p sigchld).freeTask z).goto p .run).Grouped := by
  have hsig := signals_dropPending (fun _ => False) s p sigchld
  refine h.fewer (fun t ht => List.mem_of_mem_erase ht) (fun t ht hlive => ?_) (fun _ => rfl) (fun _ => rfl) ?_
  · have htz : t ≠ z := (hinv.once.mem_erase_iff.1 ht).1
    rw [← hsig.isLive t]
    have hsame : ∀ state, ((s.dropPending p sigchld).freeTask z).hasState t state =
        (s.dropPending p sigchld).hasState t state := by
      intro state
      rw [freeTask_hasState, decide_eq_true htz, Bool.true_and]
    rw [isLive_iff] at hlive ⊢
    exact ⟨hlive.1, (hsame _).symm.trans hlive.2.1, (hsame _).symm.trans hlive.2.2⟩
  · have hnext : ((s.dropPending p sigchld).queues.freeTask z).nextPid = s.queues.nextPid := by
      rw [freeTask_nextPid, hsig.queues.nextPid]
    exact hnext.ge

theorem Grouped.moveWithin (h : s.Grouped) (hinv : s.Inv) {a : Act} (hmove : s.moveWithin a = some s') :
    s'.Grouped := by
  unfold Procs.moveWithin at hmove
  split_ifs at hmove with hstays
  obtain ⟨out, hs⟩ := move_some hmove
  obtain ⟨me, cpu, p, -, hp, rfl⟩ | ⟨me, pid, pgid, p, rfl, hp, rfl⟩ | ⟨me, p, -, hp, rfl⟩ |
    ⟨me, p, w, z, -, -, -, -, rfl⟩ | had :=
    hinv.step_cases hs
  · exact (h.forked hinv hp cpu).advances (hinv.forked p cpu) (hinv.advances_ksysFork me p cpu)
  · refine h.ksysSetpgid hinv ?_
    simpa [staysInSession, hp.curr] using hstays
  · exact h.ksysSetsid hinv (hinv.mem_of_atWork (hinv.atWork_of_calls hp))
  · exact h.reaped hinv p z
  · exact h.advances hinv had

/-- In every run whose `setpgid` calls let no task stray, groups stay within sessions. -/
theorem run_groupsWithinSessions {cpu : Nat} {acts : List Act} (hrun : run moveWithin (init cpu) acts = some s) :
    s.GroupsWithinSessions := by
  have hinv : s.Inv ∧ s.Grouped := by
    refine run_invariant (P := fun s => s.Inv ∧ s.Grouped) (fun s a s' hs hmove => ?_)
      ⟨init_inv cpu, init_grouped cpu⟩ hrun
    refine ⟨?_, hs.2.moveWithin hs.1 hmove⟩
    unfold moveWithin at hmove
    split_ifs at hmove
    obtain ⟨out, hstep⟩ := move_some hmove
    exact hs.1.step hstep
  exact hinv.2.within

/-- Two children of the init task, the second of which joins the group of the first. -/
theorem run_groupsWithinSessions_of_joined : ∃ s, run moveWithin (init 0)
      [.schedule 0, .fork 0 1, .fork 0 2, .schedule 1, .schedule 2, .setpgid 1 0 0, .setpgid 2 0 2] = some s ∧
    (s.procs 3).pgid = 2 ∧ s.GroupsWithinSessions := by
  obtain ⟨s, hrun, hpgid⟩ : ∃ s, run moveWithin (init 0)
      [.schedule 0, .fork 0 1, .fork 0 2, .schedule 1, .schedule 2, .setpgid 1 0 0, .setpgid 2 0 2] = some s ∧
      (s.procs 3).pgid = 2 := ⟨_, rfl, rfl⟩
  exact ⟨s, hrun, hpgid, run_groupsWithinSessions hrun⟩

/-- The first child makes a session of its own, and the second joins its group all the same. -/
theorem not_groupsWithinSessions_of_setsid : ∃ s, run move (init 0)
      [.schedule 0, .fork 0 1, .fork 0 2, .schedule 1, .schedule 2, .setsid 1, .setpgid 2 0 2] = some s ∧
    ¬ s.GroupsWithinSessions := by
  refine ⟨_, rfl, fun h => ?_⟩
  exact absurd (h 2 3 (by decide) (by decide) (by decide) (by decide) (by decide)) (by decide)

end Procs

end MiniOs.Sched
