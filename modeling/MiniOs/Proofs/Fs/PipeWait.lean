/-
Wake-ups on a pipe. As long as no task puts itself to sleep after its reason to wait has gone, every
task asleep on the pipe has a reason to wait or a wake-up coming. A task that is overtaken between its
test and its `prepare_to_wait` sleeps for good.
-/
import MiniOs.Fs.PipeWait
import MiniOs.Proofs.Fs.Pipe

namespace MiniOs.Fs

open Library Function

namespace PipeTasks

variable {n : Nat} {s s' : PipeTasks n} {t u : Fin n} {q : WaitQueue} {a : Act n}

/-- All started wake-ups are finished, and yet a task is asleep on a queue of the pipe with no reason to
wait there. -/
def Lost (s : PipeTasks n) : Prop :=
  (∀ t, (s.pc t).wakes = []) ∧
    ∃ t c, s.asleep t = true ∧ s.pc t = .schedule c ∧ t ∈ s.queue c.queue ∧ s.pipe.mustWait c.queue = false

/-- A task asleep is in `schedule` with its entry queued, and it has to wait or is about to be woken. -/
def Inv (s : PipeTasks n) : Prop :=
  ∀ t, s.asleep t = true → ∃ c, s.pc t = .schedule c ∧ t ∈ s.queue c.queue ∧
    (s.pipe.mustWait c.queue = true ∨ ∃ u, c.queue ∈ (s.pc u).wakes)

theorem Inv.not_lost (h : s.Inv) : ¬ s.Lost := by
  rintro ⟨hdone, t, c, hasleep, hpc, -, hwait⟩
  obtain ⟨c', hpc', -, hcase⟩ := h t hasleep
  obtain rfl : c = c' := by
    rw [hpc] at hpc'
    cases hpc'
    rfl
  rcases hcase with hw | ⟨u, hu⟩
  · rw [hwait] at hw
    cases hw
  · rw [hdone u] at hu
    cases hu

/-- A section that transfers announces a wake-up of the other side's queue; before it, its own side had
no reason to wait. Any other section leaves the pipe alone. -/
theorem runSection_cases (p : Pipe) (c : PipeCall) (signal : Bool) :
    (runSection p c signal).2 = p ∨
      p.mustWait c.queue = false ∧ ∀ q, q ≠ c.queue → q ∈ (runSection p c signal).1.wakes := by
  cases c with
  | read count nonblock =>
    by_cases hlen : p.len = 0
    · left
      unfold runSection
      simp only [if_pos hlen]
      unfold Pipe.readSection
      rw [if_pos hlen]
      split_ifs <;> rfl
    · right
      refine ⟨by simp [Pipe.mustWait, PipeCall.queue, hlen], ?_⟩
      intro q hq
      unfold runSection
      simp only [if_neg hlen, Pc.wakes]
      cases q
      · exact absurd rfl hq
      · simp
  | write bytes nonblock =>
    unfold runSection Pipe.writeSection
    by_cases hr : p.readers = 0
    · left
      simp only [if_pos hr]
    by_cases hlen : p.len = pipeSize
    · left
      simp only [if_neg hr, if_pos hlen]
      split_ifs <;> rfl
    · right
      refine ⟨by simp [Pipe.mustWait, PipeCall.queue, hlen], ?_⟩
      intro q hq
      simp only [if_neg hr, if_neg hlen, Pc.wakes]
      cases q
      · simp
      · exact absurd rfl hq

theorem Inv.awake (h : s.Inv) (ht : ∀ c, s.pc t ≠ .schedule c) : s.asleep t = false := by
  by_contra hasleep
  obtain ⟨c, hpc, -⟩ := h t (by simpa using hasleep)
  exact ht c hpc

/-- A step of the task `t`: the others stay where they are and nobody else falls asleep, so it remains
to see that whoever sleeps still has a reason, and what becomes of `t`. -/
theorem Inv.move (h : s.Inv) (t : Fin n) (hpc : ∀ u, u ≠ t → s'.pc u = s.pc u)
    (hasleep : ∀ u, u ≠ t → s'.asleep u = true → s.asleep u = true)
    (hqueue : ∀ u q, u ≠ t → u ∈ s.queue q → u ∈ s'.queue q)
    (hreason : ∀ u c, u ≠ t → s'.asleep u = true → s.pc u = .schedule c → u ∈ s.queue c.queue →
      (s.pipe.mustWait c.queue = true ∨ ∃ v, c.queue ∈ (s.pc v).wakes) →
      s'.pipe.mustWait c.queue = true ∨ ∃ v, c.queue ∈ (s'.pc v).wakes)
    (ht : s'.asleep t = true → ∃ c, s'.pc t = .schedule c ∧ t ∈ s'.queue c.queue ∧
      (s'.pipe.mustWait c.queue = true ∨ ∃ u, c.queue ∈ (s'.pc u).wakes)) : s'.Inv := by
  intro u hu
  by_cases e : u = t
  · subst e
    exact ht hu
  · obtain ⟨c, h1, h2, h3⟩ := h u (hasleep u e hu)
    exact ⟨c, (hpc u e).trans h1, hqueue u _ e h2, hreason u c e hu h1 h2 h3⟩

/-- Wake-ups that were coming are still coming when `t` gives up none of its own. -/
theorem waking_of_move {pc pc' : Fin n → Pc} (hpc : ∀ u, u ≠ t → pc' u = pc u)
    (ht : ∀ q ∈ (pc t).wakes, q ∈ (pc' t).wakes) (hw : ∃ v, q ∈ (pc v).wakes) : ∃ v, q ∈ (pc' v).wakes := by
  obtain ⟨v, hv⟩ := hw
  refine ⟨v, ?_⟩
  by_cases e : v = t
  · subst e
    exact ht q hv
  · rw [hpc v e]
    exact hv

theorem goto_pc_of_ne (pc : Pc) (h : u ≠ t) : (s.goto t pc).pc u = s.pc u := update_of_ne h ..

@[simp] theorem goto_pc_self (s : PipeTasks n) (t : Fin n) (pc : Pc) : (s.goto t pc).pc t = pc := update_self ..

theorem waking_iff : s.waking q = true ↔ ∃ t, q ∈ (s.pc t).wakes := by simp [waking]

/-- After `pipe_release` a queue whose tasks have no reason to wait any more is woken. -/
theorem mustWait_release (p : Pipe) (readEnd : Bool) (q : WaitQueue) (hw : p.mustWait q = true)
    (hq : (p.release readEnd).mustWait q = false) :
    q ∈ (if (p.release readEnd).readers = 0 then [WaitQueue.writeWait] else []) ++
      (if (p.release readEnd).writers = 0 then [WaitQueue.readWait] else []) := by
  have hlen : (p.release readEnd).len = p.len := by
    unfold Pipe.release
    split <;> rfl
  cases q with
  | readWait =>
    simp only [Pipe.mustWait, Bool.and_eq_true, decide_eq_true_eq] at hw
    simp only [Pipe.mustWait, hlen, hw.1, decide_true, Bool.true_and, decide_eq_false_iff_not, not_not] at hq
    simp [hq]
  | writeWait =>
    simp only [Pipe.mustWait, Bool.and_eq_true, decide_eq_true_eq] at hw
    simp only [Pipe.mustWait, hlen, hw.1, decide_true, Bool.true_and, decide_eq_false_iff_not, not_not] at hq
    simp [hq]

/-- A task that has no wake-ups to do moves on, and those of the others are still coming. -/
theorem waking_goto (hpc : (s.pc t).wakes = []) (pc : Pc) (hw : ∃ v, q ∈ (s.pc v).wakes) :
    ∃ v, q ∈ ((s.goto t pc).pc v).wakes :=
  waking_of_move (fun _ hv => goto_pc_of_ne pc hv) (by simp [hpc]) hw

/-- A task that is awake moves on without touching a queue. -/
theorem Inv.goto (h : s.Inv) (hawake : s.asleep t = false) (pc : Pc) (pipe : Pipe)
    (hreason : ∀ q, (s.pipe.mustWait q = true ∨ ∃ v, q ∈ (s.pc v).wakes) →
      pipe.mustWait q = true ∨ ∃ v, q ∈ ((s.goto t pc).pc v).wakes) :
    ({ s.goto t pc with pipe := pipe } : PipeTasks n).Inv := by
  apply h.move t
  · exact fun u hu => goto_pc_of_ne pc hu
  · exact fun _ _ hu => hu
  · exact fun _ _ _ hu => hu
  · exact fun u c' _ _ _ _ hr => hreason c'.queue hr
  · intro hasleep
    have : s.asleep t = true := hasleep
    rw [hawake] at this
    cases this

theorem Inv.runSection {c : PipeCall} (h : s.Inv) (hpc : s.pc t = .section c) (signal : Bool) :
    ({ s.goto t (runSection s.pipe c signal).1 with pipe := (PipeTasks.runSection s.pipe c signal).2 } :
      PipeTasks n).Inv := by
  refine h.goto (h.awake (by simp [hpc])) _ _ fun q hr => ?_
  have hkeep := waking_goto (s := s) (t := t) (q := q) (by simp [hpc, Pc.wakes])
    (PipeTasks.runSection s.pipe c signal).1
  rcases runSection_cases s.pipe c signal with hsame | ⟨hfree, hwakes⟩
  · rw [hsame]
    exact hr.imp_right hkeep
  · -- the transfer ends the wait of the other side only, and announces it
    right
    by_cases e : q = c.queue
    · rw [← e] at hfree
      rcases hr with hr | hr
      · rw [hfree] at hr
        cases hr
      · exact hkeep hr
    · refine ⟨t, ?_⟩
      rw [goto_pc_self]
      exact hwakes q e

theorem Inv.release (h : s.Inv) (hpc : s.pc t = .user) (readEnd : Bool) {qs : List WaitQueue}
    (hqs : (if (s.pipe.release readEnd).readers = 0 then [WaitQueue.writeWait] else []) ++
      (if (s.pipe.release readEnd).writers = 0 then [WaitQueue.readWait] else []) = qs) :
    ({ s.goto t (if qs = [] then .user else .wakeUps qs) with pipe := s.pipe.release readEnd } : PipeTasks n).Inv := by
  refine h.goto (h.awake (by simp [hpc])) _ _ fun q hr => ?_
  rcases hr with hr | hr
  · cases hw : (s.pipe.release readEnd).mustWait q with
    | true => exact Or.inl rfl
    | false =>
      have hmem := mustWait_release s.pipe readEnd q hr hw
      rw [hqs] at hmem
      refine Or.inr ⟨t, ?_⟩
      rw [goto_pc_self, if_neg (List.ne_nil_of_mem hmem)]
      exact hmem
  · exact Or.inr (waking_goto (by simp [hpc, Pc.wakes]) _ hr)

/-- The guard of `stepTimely` is what a task that goes to sleep needs. -/
theorem Inv.prepare {c : PipeCall} (h : s.Inv) (hpc : s.pc t = .prepare c)
    (hreason : s.pipe.mustWait c.queue = true ∨ ∃ v, c.queue ∈ (s.pc v).wakes) (hs : s.step (.prepare t) = some s') :
      s'.Inv := by
  simp only [step, hpc] at hs
  cases hs
  have hkeep : ∀ q, (∃ v, q ∈ (s.pc v).wakes) → ∃ v, q ∈ ((s.goto t (.schedule c)).pc v).wakes := fun q =>
    waking_goto (by simp [hpc, Pc.wakes]) _
  apply h.move t
  · exact fun u hu => goto_pc_of_ne _ hu
  · intro u hne hu
    simpa only [update_of_ne hne] using hu
  · intro u q hne hu
    by_cases e : q = c.queue
    · subst e
      simp only [update_self]
      split_ifs
      · exact hu
      · exact List.mem_cons_of_mem _ hu
    · simpa only [update_of_ne e] using hu
  · exact fun u c' _ _ _ _ hr => hr.imp_right (hkeep _)
  · intro _
    refine ⟨c, goto_pc_self .., ?_, hreason.imp_right (hkeep _)⟩
    simp only [update_self]
    split_ifs with hmem
    · exact hmem
    · exact List.mem_cons_self ..

theorem Inv.finish {c : PipeCall} {signal : Bool} (h : s.Inv) (hpc : s.pc t = .finish c)
    (hs : s.step (.finish t signal) = some s') : s'.Inv := by
  simp only [step, hpc] at hs
  cases hs
  apply h.move t
  · exact fun u hu => goto_pc_of_ne _ hu
  · intro u hne hu
    simpa only [update_of_ne hne] using hu
  · intro u q hne hu
    by_cases e : q = c.queue
    · subst e
      simp only [update_self]
      exact (List.mem_erase_of_ne hne).2 hu
    · simpa only [update_of_ne e] using hu
  · exact fun u c' _ _ _ _ hr => hr.imp_right (waking_goto (by simp [hpc, Pc.wakes]) _)
  · intro hasleep
    simp only [update_self] at hasleep
    cases hasleep

/-- A wake-up gives up its announcement, and whoever was on the queue is not asleep any more. -/
theorem Inv.wake {qs : List WaitQueue} (h : s.Inv) (hpc : s.pc t = .wakeUps (q :: qs))
    (hs : s.step (.wake t) = some s') : s'.Inv := by
  simp only [step, hpc] at hs
  cases hs
  have hawake := h.awake (t := t) (by simp [hpc])
  apply h.move t
  · exact fun u hu => goto_pc_of_ne _ hu
  · intro u _ hu
    simp only at hu
    split_ifs at hu
    exact hu
  · exact fun _ _ _ hu => hu
  · intro u c' _ hu _ hmem hr
    have hne : c'.queue ≠ q := by
      rintro rfl
      simp only [if_pos hmem] at hu
      cases hu
    refine hr.imp_right fun ⟨v, hv⟩ => ⟨v, ?_⟩
    by_cases e : v = t
    · subst e
      rw [hpc] at hv
      have hrest : c'.queue ∈ qs := (List.mem_cons.1 hv).resolve_left hne
      simp only [goto_pc_self]
      rw [if_neg (List.ne_nil_of_mem hrest)]
      exact hrest
    · simpa only [goto_pc_of_ne _ e] using hv
  · intro hasleep
    simp only [hawake, ite_self] at hasleep
    cases hasleep

theorem stepTimely_inv (h : s.Inv) (hs : s.stepTimely a = some s') : s'.Inv := by
  unfold stepTimely at hs
  split_ifs at hs with hover
  cases a with
  | call t c =>
    simp only [step] at hs
    split at hs <;> cases hs
    next hpc =>
    exact h.goto (h.awake (by simp [hpc])) _ _ fun q hr => hr.imp_right (waking_goto (by simp [hpc, Pc.wakes]) _)
  | «section» t signal =>
    simp only [step] at hs
    split at hs <;> cases hs
    next c hpc => exact h.runSection hpc signal
  | prepare t =>
    have hpc : ∃ c, s.pc t = .prepare c := by
      simp only [step] at hs
      split at hs
      · next c hpc => exact ⟨c, hpc⟩
      · cases hs
    obtain ⟨c, hpc⟩ := hpc
    refine h.prepare hpc ?_ hs
    simp only [oversleeps, hpc, Bool.and_eq_true, Bool.not_eq_true', not_and, Bool.not_eq_false] at hover
    cases hw : s.pipe.mustWait c.queue with
    | true => exact Or.inl rfl
    | false => exact Or.inr (waking_iff.1 (hover hw))
  | resume t =>
    simp only [step] at hs
    split at hs
    · next c hpc =>
      split_ifs at hs with hawake
      cases hs
      exact h.goto (by simpa using hawake) _ _ fun q hr => hr.imp_right (waking_goto (by simp [hpc, Pc.wakes]) _)
    · cases hs
  | finish t signal =>
    have hpc : ∃ c, s.pc t = .finish c := by
      simp only [step] at hs
      split at hs
      · next c hpc => exact ⟨c, hpc⟩
      · cases hs
    obtain ⟨c, hpc⟩ := hpc
    exact h.finish hpc hs
  | wake t =>
    have hpc : ∃ q qs, s.pc t = .wakeUps (q :: qs) := by
      simp only [step] at hs
      split at hs
      · next q qs hpc => exact ⟨q, qs, hpc⟩
      · cases hs
    obtain ⟨q, qs, hpc⟩ := hpc
    exact h.wake hpc hs
  | release t readEnd =>
    simp only [step] at hs
    split at hs <;> cases hs
    next hpc => exact h.release hpc readEnd rfl
  | signal t =>
    cases hs
    apply h.move t
    · exact fun _ _ => rfl
    · intro u hne hu
      simpa only [update_of_ne hne] using hu
    · exact fun _ _ _ hu => hu
    · exact fun _ _ _ _ _ _ hr => hr
    · intro hasleep
      simp only [update_self] at hasleep
      cases hasleep

/-- In every run in which no task puts itself to sleep after its reason to wait has gone (while no
wake-up of its queue is coming), no wake-up is ever lost. -/
theorem run_not_lost {buf : Nat → UInt8} {acts : List (Act n)} (hrun : run stepTimely (init n buf) acts = some s) :
    ¬ s.Lost :=
  Inv.not_lost (run_invariant (P := Inv) (fun _ _ _ hi hs => stepTimely_inv hi hs) (fun t ht => by cases ht) hrun)

/-- A reader finds the pipe empty, sleeps, and is woken by a writer. -/
def wokenReader : List (Act 2) :=
  [.call 0 (.read 4 false), .section 0 false, .prepare 0, .call 1 (.write [1, 2] false), .section 1 false]

theorem run_not_lost_of_wokenReader : ∃ s, run stepTimely (init 2 fun _ => 0) wokenReader = some s ∧
    s.asleep 0 = true ∧ s.pipe.len = 2 ∧ ¬ s.Lost := by
  obtain ⟨s, hrun, hasleep, hlen⟩ : ∃ s, run stepTimely (init 2 fun _ => 0) wokenReader = some s ∧
      s.asleep 0 = true ∧ s.pipe.len = 2 := ⟨_, rfl, by decide, by decide⟩
  exact ⟨s, hrun, hasleep, hlen, run_not_lost hrun⟩

/-- A reader finds the pipe empty; before it gets onto the wait queue a writer fills the pipe and wakes
nobody. -/
def overtakenReader : List (Act 2) :=
  [.call 0 (.read 4 false), .section 0 false, .call 1 (.write [1, 2] false), .section 1 false, .wake 1, .prepare 0]

theorem lost_of_overtakenReader : ∃ s, run step (init 2 fun _ => 0) overtakenReader = some s ∧ s.Lost := by
  refine ⟨_, rfl, ?_, 0, .read 4 false, by decide, rfl, by decide, by decide⟩
  exact Fin.forall_fin_two.2 ⟨rfl, rfl⟩

end PipeTasks

end MiniOs.Fs
