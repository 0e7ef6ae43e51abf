/-
Round robin. The links of the run queues are rings and the operations keep them so; following them from any
task of a queue visits the whole queue and comes back to it.
-/
import Mathlib.Data.List.Rotate
import MiniOs.Sched.RunList

namespace MiniOs.Sched

open Library Library.Links RunNode Function

/-- The links of all run queues, with the tasks they hold: each queue is a ring behind its head, a task is on one
queue at most, and a task that is on none points to itself, as the idle tasks do. -/
structure RunLists where
  links : Links RunNode
  queue : Cpu → List Pid
  ring : ∀ c, IsRing links (head c) ((queue c).map task)
  off : ∀ t, (∀ c, t ∉ queue c) → links.Alone (task t)
  idle_off : ∀ c, links.Alone (idle c)
  apart : ∀ t c c', t ∈ queue c → t ∈ queue c' → c = c'

namespace RunLists

variable (r : RunLists) {t : Pid} {me c : Cpu}

theorem task_injective : Function.Injective task := fun _ _ h => by injection h

theorem queue_nodup (c : Cpu) : (r.queue c).Nodup := (List.nodup_cons.1 (r.ring c).nodup).2.of_map

theorem listIsLinked_iff : r.links.listIsLinked (task t) = true ↔ ∃ c, t ∈ r.queue c := by
  constructor
  · intro hl
    by_contra hoff
    push Not at hoff
    simp [(r.off t hoff).not_listIsLinked] at hl
  · rintro ⟨c, hc⟩
    exact (r.ring c).listIsLinked (List.mem_map_of_mem hc)

/-! ## The nodes of a ring -/

/-- The nodes of the queue of `c`. -/
def nodes (c : Cpu) : List RunNode := head c :: (r.queue c).map task

theorem task_mem_nodes : task t ∈ r.nodes c ↔ t ∈ r.queue c := by
  simp [nodes]

theorem head_mem_nodes {c' : Cpu} : head c' ∈ r.nodes c ↔ c' = c := by
  simp [nodes]

theorem idle_notMem_nodes {c' : Cpu} : idle c' ∉ r.nodes c := by
  simp [nodes]

variable {x : RunNode}

theorem notMem_nodes_of_ne {c' : Cpu} (hc : c' ≠ c) (hx : x ∈ r.nodes c') : x ∉ r.nodes c := by
  cases x with
  | head d =>
    rw [head_mem_nodes] at hx ⊢
    rwa [hx]
  | task t =>
    rw [task_mem_nodes] at hx ⊢
    exact fun h => hc (r.apart t c' c hx h)
  | idle d => exact r.idle_notMem_nodes

/-! ## The operations keep the rings -/

/-- At boot. -/
def init : RunLists where
  links := initLinks
  queue := fun _ => []
  ring := fun _ => isRing_nil_iff.2 ⟨rfl, rfl⟩
  off := fun _ _ => ⟨rfl, rfl⟩
  idle_off := fun _ => ⟨rfl, rfl⟩
  apart := fun _ _ _ h => absurd h (by simp)

/-- A node the operation does not touch stays on its own. -/
theorem alone_of_frame {m m' : Links RunNode} (ha : m.Alone x)
    (hf : m'.next x = m.next x ∧ m'.prev x = m.prev x) : m'.Alone x :=
  ⟨hf.1.trans ha.1, hf.2.trans ha.2⟩

/-- A task that is on no queue goes to the end of one. -/
def push (t : Pid) (c : Cpu) (hoff : ∀ c, t ∉ r.queue c) : RunLists where
  links := r.links.listAddTail (task t) (head c)
  queue := update r.queue c (r.queue c ++ [t])
  ring := by
    intro c'
    by_cases hc : c' = c
    · subst hc
      rw [update_self, List.map_append]
      apply (r.ring c').listAddTail
      exact fun h => hoff c' (r.task_mem_nodes.1 h)
    · rw [update_of_ne hc]
      have hframe : ∀ x ∈ r.nodes c', _ := fun x hx =>
        (r.ring c).listAddTail_frame (x := task t) (r.notMem_nodes_of_ne hc hx) (by
          rintro rfl
          exact hoff c' (r.task_mem_nodes.1 hx))
      exact (r.ring c').congr (fun x hx => (hframe x hx).1) fun x hx => (hframe x hx).2
  off := by
    intro u hu
    have hne : u ≠ t := by
      rintro rfl
      have := hu c
      simp at this
    have hold : ∀ c', u ∉ r.queue c' := by
      intro c' h
      apply hu c'
      by_cases hc : c' = c
      · subst hc
        simp [h]
      · rwa [update_of_ne hc]
    refine alone_of_frame (r.off u hold) ((r.ring c).listAddTail_frame ?_ ?_)
    · exact fun h => hold c (r.task_mem_nodes.1 h)
    · exact fun h => hne (task_injective h)
  idle_off := fun d => alone_of_frame (r.idle_off d) ((r.ring c).listAddTail_frame r.idle_notMem_nodes (by simp))
  apart := by
    intro u c1 c2 h1 h2
    -- the new task is on this queue only
    have key : ∀ c', u ∈ update r.queue c (r.queue c ++ [t]) c' → u ∈ r.queue c' ∨ u = t ∧ c' = c := by
      intro c' h
      by_cases hc : c' = c
      · subst hc
        simp at h
        tauto
      · rw [update_of_ne hc] at h
        exact .inl h
    rcases key c1 h1 with h1' | ⟨rfl, rfl⟩
    · rcases key c2 h2 with h2' | ⟨rfl, rfl⟩
      · exact r.apart u c1 c2 h1' h2'
      · exact absurd h1' (hoff c1)
    · rcases key c2 h2 with h2' | ⟨-, rfl⟩
      · exact absurd h2' (hoff c2)
      · rfl

/-- The ring of a queue, cut at one of its tasks. -/
theorem ring_at (hc : t ∈ r.queue c) : ∃ l₁ l₂, r.queue c = l₁ ++ t :: l₂ ∧ t ∉ l₁
    ∧ IsRing r.links (head c) (l₁.map task ++ task t :: l₂.map task) := by
  obtain ⟨l₁, l₂, hq⟩ := List.append_of_mem hc
  have hnd := r.queue_nodup c
  have hring := r.ring c
  rw [hq, List.map_append, List.map_cons] at hring
  rw [hq] at hnd
  exact ⟨l₁, l₂, hq, fun h => List.disjoint_of_nodup_append hnd h (by simp), hring⟩

/-- Taking a task off its queue touches the nodes of this queue only. -/
theorem listDelInit_frame (hc : t ∈ r.queue c) (hx : x ∉ r.nodes c) :
    (r.links.listDelInit (task t)).next x = r.links.next x ∧
      (r.links.listDelInit (task t)).prev x = r.links.prev x := by
  obtain ⟨l₁, l₂, hq, -, hring⟩ := r.ring_at hc
  apply hring.listDelInit_frame
  rwa [nodes, hq, List.map_append, List.map_cons] at hx

/-- A task leaves the queue it is on. -/
def remove (t : Pid) (hon : ∃ c, t ∈ r.queue c) : RunLists where
  links := r.links.listDelInit (task t)
  queue := fun c => (r.queue c).erase t
  ring := by
    intro c'
    obtain ⟨c, hc⟩ := hon
    by_cases hcc : c' = c
    · subst hcc
      obtain ⟨l₁, l₂, hq, ht, hring⟩ := r.ring_at hc
      rw [hq, List.erase_append_right _ ht, List.erase_cons_head, List.map_append]
      exact hring.listDelInit
    · have ht : t ∉ r.queue c' := fun h => hcc (r.apart t c' c h hc)
      have hframe : ∀ x ∈ r.nodes c', _ := fun x hx => r.listDelInit_frame hc (r.notMem_nodes_of_ne hcc hx)
      rw [List.erase_of_not_mem ht]
      exact (r.ring c').congr (fun x hx => (hframe x hx).1) fun x hx => (hframe x hx).2
  off := by
    intro u hu
    by_cases hut : u = t
    · subst hut
      exact listDelInit_alone _ _
    · obtain ⟨c, hc⟩ := hon
      have hold : ∀ c', u ∉ r.queue c' := fun c' h => hu c' ((List.mem_erase_of_ne hut).2 h)
      exact alone_of_frame (r.off u hold) (r.listDelInit_frame hc fun h => hold c (r.task_mem_nodes.1 h))
  idle_off := by
    obtain ⟨c, hc⟩ := hon
    exact fun d => alone_of_frame (r.idle_off d) (r.listDelInit_frame hc r.idle_notMem_nodes)
  apart := fun u c1 c2 h1 h2 => r.apart u c1 c2 (List.mem_of_mem_erase h1) (List.mem_of_mem_erase h2)

def enqueue (t : Pid) (c : Cpu) : RunLists := if hoff : ∀ c, t ∉ r.queue c then r.push t c hoff else r

/-- Each operation on the links does to the rings what the one on the lists does to the lists. -/
theorem exists_linkStep {s : Runqueues} (hs : r.queue = s.rqTasks) (op : LinkOp) :
    ∃ r' : RunLists, r'.links = linkStep r.links op ∧ r'.queue = (queueStep s op).rqTasks := by
  have hlinked (t : Pid) : r.links.listIsLinked (task t) = s.linked t := by
    rw [Bool.eq_iff_iff, r.listIsLinked_iff, Runqueues.linked, decide_eq_true_iff, hs]
  have hon {t : Pid} (h : s.linked t = true) : ∃ c, t ∈ r.queue c := r.listIsLinked_iff.1 ((hlinked t).trans h)
  cases op with
  | enqueue t c =>
    simp only [linkStep, enqueueLinks, hlinked, queueStep, Runqueues.enqueueTaskLocked]
    split_ifs with h
    · exact ⟨r, rfl, hs⟩
    · have hoff : ∀ c, t ∉ r.queue c := fun c hc => h (hlinked t ▸ r.listIsLinked_iff.2 ⟨c, hc⟩)
      exact ⟨r.push t c hoff, rfl, hs ▸ rfl⟩
  | dequeue t c =>
    simp only [linkStep, dequeueLinks, hlinked, queueStep, Runqueues.dequeueTaskLocked]
    split_ifs with h
    · exact ⟨r.remove t (hon h), rfl, congrArg (fun q c => (q c).erase t) hs⟩
    · exact ⟨r, rfl, hs⟩
  | move t old new =>
    simp only [linkStep, moveLinks, hlinked, queueStep]
    split_ifs with h
    · refine ⟨(r.remove t (hon h)).push t new fun c => (r.queue_nodup c).not_mem_erase, rfl, ?_⟩
      exact congrArg (fun q => update (fun c => (q c).erase t) new ((q new).erase t ++ [t])) hs
    · exact ⟨r, rfl, hs⟩

/-- After any operations the links are rings through the tasks of the lists. -/
theorem links_refine (ops : List LinkOp) : ∃ r : RunLists,
    r.links = ops.foldl linkStep initLinks ∧ r.queue = (ops.foldl queueStep .init).rqTasks := by
  induction ops using List.reverseRecOn with
  | nil => exact ⟨init, rfl, rfl⟩
  | append_singleton ops op ih =>
    obtain ⟨r, hl, hq⟩ := ih
    rw [List.foldl_concat, List.foldl_concat, ← hl]
    exact r.exists_linkStep hq op

/-! ## Choosing -/

theorem listEmpty_iff : r.links.listEmpty (head me) = true ↔ r.queue me = [] := by
  rw [(r.ring me).listEmpty_iff, List.map_eq_nil_iff]

theorem next_task {i : Nat} (hi : i < (r.queue c).length) :
    r.links.next (task (r.queue c)[i]) = ((r.queue c)[i + 1]?.map task).getD (head c) := by
  have hi' : i < ((r.queue c).map task).length := by rwa [List.length_map]
  have := (r.ring c).next_getElem hi'
  rwa [List.getElem_map, List.getElem?_map] at this

theorem next_head (hpos : 0 < (r.queue c).length) : r.links.next (head c) = task (r.queue c)[0] := by
  rw [(r.ring c).next_head, List.head?_map, List.head?_eq_getElem?, List.getElem?_eq_getElem hpos]
  rfl

/-- From a task of the queue, the choice is the next one around it. -/
theorem pickNextTask_getElem {i : Nat} {t u : Pid} (ht : (r.queue me)[i]? = some t)
    (hu : (r.queue me)[(i + 1) % (r.queue me).length]? = some u) :
    pickNextTask r.links me (some (task t)) = task u := by
  obtain ⟨hi, rfl⟩ := List.getElem?_eq_some_iff.1 ht
  have hne : r.links.listEmpty (head me) = false := by
    rw [Bool.eq_false_iff, Ne, r.listEmpty_iff]
    exact fun h => by simp [h] at hi
  have hl : r.links.listIsLinked (task (r.queue me)[i]) = true := r.listIsLinked_iff.2 ⟨me, List.getElem_mem hi⟩
  unfold pickNextTask
  simp only [hne, Bool.false_eq_true, if_false, hl, ne_eq, reduceCtorEq, not_false_eq_true, and_self, if_true]
  rw [r.next_task hi]
  rcases Nat.lt_or_ge (i + 1) (r.queue me).length with hlt | hge
  · -- the next node is a task
    rw [Nat.mod_eq_of_lt hlt] at hu
    rw [hu]
    rfl
  · -- the next node is the head, and the choice starts over
    obtain rfl : (r.queue me).length - 1 = i := by omega
    have hlast : (r.queue me).length - 1 + 1 = (r.queue me).length := by omega
    rw [hlast, Nat.mod_self] at hu
    rw [hlast, List.getElem?_eq_none (Nat.le_refl _)]
    simp only [Option.map_none, Option.getD_none, if_true]
    obtain ⟨hpos, rfl⟩ := List.getElem?_eq_some_iff.1 hu
    exact r.next_head hpos

theorem length_picks (m : Links RunNode) (n : Nat) (prev : RunNode) : (picks m me n prev).length = n := by
  induction n generalizing prev with
  | zero => rfl
  | succ n ih => rw [picks, List.length_cons, ih]

/-- The `j`-th choice is `j + 1` places further around the queue. -/
theorem getElem?_picks {n i j : Nat} {t : Pid} (ht : (r.queue me)[i]? = some t) (hj : j < n) :
    (picks r.links me n (task t))[j]? = (r.queue me)[(i + 1 + j) % (r.queue me).length]?.map task := by
  induction n generalizing i j t with
  | zero => omega
  | succ n ih =>
    obtain ⟨hi, -⟩ := List.getElem?_eq_some_iff.1 ht
    obtain ⟨u, hu⟩ : ∃ u, (r.queue me)[(i + 1) % (r.queue me).length]? = some u :=
      ⟨_, List.getElem?_eq_getElem (Nat.mod_lt _ (by omega))⟩
    rw [picks, r.pickNextTask_getElem ht hu]
    cases j with
    | zero => rw [List.getElem?_cons_zero, Nat.add_zero, hu, Option.map_some]
    | succ j =>
      rw [List.getElem?_cons_succ, ih hu (by omega), Nat.add_assoc, Nat.mod_add_mod]
      congr 3
      omega

/-- As many choices as there are tasks go once around the queue. -/
theorem picks_eq_rotate {i : Nat} {t : Pid} (ht : (r.queue me)[i]? = some t) :
    picks r.links me (r.queue me).length (task t) = ((r.queue me).rotate (i + 1)).map task := by
  apply List.ext_getElem?
  intro j
  rcases Nat.lt_or_ge j (r.queue me).length with hj | hj
  · rw [r.getElem?_picks ht hj, List.getElem?_map, List.getElem?_rotate hj, Nat.add_comm]
  · rw [List.getElem?_eq_none, List.getElem?_eq_none]
    · simpa using hj
    · rwa [length_picks]

/-- No node but its own leads to an idle task. -/
theorem next_ne_idle (hx : x ≠ idle c) : r.links.next x ≠ idle c := by
  cases x with
  | head d =>
    rw [(r.ring d).next_head, List.head?_map]
    cases (r.queue d).head? <;> simp
  | idle d =>
    rw [(r.idle_off d).1]
    exact hx
  | task t =>
    by_cases hon : ∃ d, t ∈ r.queue d
    · obtain ⟨d, hd⟩ := hon
      obtain ⟨i, hi, rfl⟩ := List.getElem_of_mem hd
      rw [r.next_task hi]
      cases (r.queue d)[i + 1]? <;> simp
    · push Not at hon
      rw [(r.off t hon).1]
      exact hx

/-- A task on no queue, an idle one or none at all: the choice is the head of the queue. -/
theorem pickNextTask_of_not_linked {first : Pid} {rest : List Pid} (hq : r.queue me = first :: rest)
    {prev : Option RunNode} (hprev : ∀ p, prev = some p → p = idle me ∨ r.links.listIsLinked p = false) :
    pickNextTask r.links me prev = task first := by
  have hne : r.links.listEmpty (head me) = false := by
    rw [Bool.eq_false_iff, Ne, r.listEmpty_iff, hq]
    simp
  have hnext : r.links.next (head me) = task first := by
    rw [(r.ring me).next_head, hq]
    rfl
  unfold pickNextTask
  simp only [hne, Bool.false_eq_true, if_false, hnext]
  cases prev with
  | none => simp
  | some p =>
    have hp : ¬ (p ≠ idle me ∧ r.links.listIsLinked p = true) := by
      rintro ⟨h1, h2⟩
      rcases hprev p rfl with h | h
      · exact h1 h
      · simp [h] at h2
    simp [hp]

theorem queue_eq_nil_of_pickNextTask_idle {prev : Option RunNode} (hidle : pickNextTask r.links me prev = idle me) :
    r.queue me = [] := by
  by_contra hne
  rw [← r.listEmpty_iff] at hne
  have hhead : r.links.next (head me) ≠ idle me := r.next_ne_idle (by simp)
  unfold pickNextTask at hidle
  simp only [hne, Bool.false_eq_true, if_false] at hidle
  cases prev with
  | none => simp [hhead] at hidle
  | some p =>
    dsimp only at hidle
    split_ifs at hidle with h1 h2
    · exact hhead hidle
    · exact r.next_ne_idle h1.1 hidle
    · exact hhead hidle
    · exact hhead hidle

/-- Round robin: from a task of a queue, as many choices as the queue has tasks return each of them once and the task
itself last; from anywhere else the first choice is the head; and the idle task is chosen only over an empty queue. -/
theorem pickNextTask_roundRobin (r : RunLists) (me : Cpu) :
    (∀ prev ∈ r.queue me,
        (picks r.links me (r.queue me).length (task prev)).Perm ((r.queue me).map task)
          ∧ (picks r.links me (r.queue me).length (task prev)).Nodup
          ∧ (picks r.links me (r.queue me).length (task prev)).getLast? = some (task prev))
      ∧ (∀ first rest, r.queue me = first :: rest →
          ∀ prev, (∀ p, prev = some p → p = idle me ∨ r.links.listIsLinked p = false) →
            pickNextTask r.links me prev = task first)
      ∧ ∀ prev, pickNextTask r.links me prev = idle me → r.queue me = [] := by
  refine ⟨fun prev hprev => ?_, fun first rest hq prev hp => r.pickNextTask_of_not_linked hq hp,
    fun prev hidle => r.queue_eq_nil_of_pickNextTask_idle hidle⟩
  obtain ⟨i, hi⟩ := List.getElem?_of_mem hprev
  obtain ⟨hlt, -⟩ := List.getElem?_eq_some_iff.1 hi
  have hperm : (((r.queue me).rotate (i + 1)).map task).Perm ((r.queue me).map task) := (List.rotate_perm _ _).map _
  rw [r.picks_eq_rotate hi]
  refine ⟨hperm, hperm.nodup_iff.2 (List.nodup_cons.1 (r.ring me).nodup).2, ?_⟩
  rw [List.getLast?_eq_getElem?, List.length_map, List.length_rotate, List.getElem?_map,
    List.getElem?_rotate (by omega)]
  -- a whole turn on from `prev` is `prev` again
  have hturn : ((r.queue me).length - 1 + (i + 1)) % (r.queue me).length = i := by
    rw [show (r.queue me).length - 1 + (i + 1) = i + (r.queue me).length by omega, Nat.add_mod_right,
      Nat.mod_eq_of_lt hlt]
  rw [hturn, hi, Option.map_some]

/-- Three tasks on the first CPU, the second of them chosen last. -/
theorem pickNextTask_roundRobin_three :
    ∃ r : RunLists, r.queue 0 = [1, 2, 3] ∧ picks r.links 0 3 (task 2) = [task 3, task 1, task 2]
      ∧ (picks r.links 0 3 (task 2)).Perm [task 1, task 2, task 3] := by
  let r := ((init.enqueue 1 0).enqueue 2 0).enqueue 3 0
  exact ⟨r, by decide, by decide, ((pickNextTask_roundRobin r 0).1 2 (by decide)).1⟩

end RunLists

end MiniOs.Sched
