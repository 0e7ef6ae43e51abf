/-
The close-on-exec flags. `close` leaves the flag of its descriptor behind, so the flags of closed
descriptors mean nothing; every call that installs a descriptor sets its flag anew, and what the flag of
an open descriptor says is what was asked for last.
-/
import MiniOs.Proofs.Fs.Exec

namespace MiniOs.Fs

open Library

namespace Files

variable {ι : Type} {s t u : Files ι} {p f : Nat} {fd : Fd} {on : Bool} {row row' : Nat → Fd → Bool}

/-! ## Descriptors that are closed on exec -/

/-- The descriptor is flagged `FD_CLOEXEC`. -/
def Flagged (s : Files ι) (p : Nat) (fd : Fd) : Prop := ((s.table p).any fun t => t.closeOnExec fd) = true

instance decidableFlagged (s : Files ι) (p : Nat) (fd : Fd) : Decidable (s.Flagged p fd) :=
  inferInstanceAs (Decidable (_ = true))

theorem execSlot_eq (s : Files ι) (p : Nat) (fd : Fd) :
    s.execSlot p fd = if s.Flagged p fd then (s.exitSlot p fd).setCloseOnExec p fd false else s := rfl

theorem flagged_execSlot (s : Files ι) (p : Nat) (fd fd' : Fd) :
    (s.execSlot p fd).Flagged p fd' ↔ s.Flagged p fd' ∧ fd' ≠ fd := by
  have htable : ((s.exitSlot p fd).table p).map FdTable.closeOnExec = (s.table p).map FdTable.closeOnExec := by
    unfold exitSlot
    cases s.slot p fd with
    | none => rfl
    | some f => simp [setSlot, Option.map_map, Function.comp_def]
  have hflag : (s.exitSlot p fd).Flagged p fd' ↔ s.Flagged p fd' := by
    unfold Flagged
    cases h0 : s.table p <;> cases h1 : (s.exitSlot p fd).table p <;> simp_all
  rw [execSlot_eq]
  by_cases hf : s.Flagged p fd
  · rw [if_pos hf]
    have hset : ((s.exitSlot p fd).setCloseOnExec p fd false).Flagged p fd' ↔ (s.exitSlot p fd).Flagged p fd' ∧
      fd' ≠ fd := by
      unfold Flagged setCloseOnExec
      cases (s.exitSlot p fd).table p with
      | none => simp
      | some t =>
        by_cases e : fd' = fd
        · simp [e]
        · simp [e]
    rw [hset, hflag]
  · rw [if_neg hf]
    constructor
    · rintro hf'
      exact ⟨hf', fun e => hf (e ▸ hf')⟩
    · exact And.left

theorem slot_execSlot (s : Files ι) (p q : Nat) (fd fd' : Fd) :
    (s.execSlot p fd).slot q fd' = if q = p ∧ fd' = fd ∧ s.Flagged p fd then none else s.slot q fd' := by
  rw [execSlot_eq]
  by_cases hf : s.Flagged p fd
  · rw [if_pos hf, slot_setCloseOnExec, Inv.slot_exitSlot]
    simp [hf]
  · rw [if_neg hf]
    simp [hf]

/-- What `close_on_exec_fds` leaves of the descriptors. -/
theorem slot_execSlots (s : Files ι) (p q : Nat) (l : List Fd) (fd : Fd) :
    (l.foldl (execSlot p) s).slot q fd = if q = p ∧ fd ∈ l ∧ s.Flagged p fd then none else s.slot q fd := by
  induction l generalizing s with
  | nil => simp
  | cons fd0 l ih =>
    rw [List.foldl_cons, ih, slot_execSlot]
    by_cases hq : q = p
    · by_cases e : fd = fd0
      · subst e
        simp [hq, flagged_execSlot]
      · simp [hq, e, flagged_execSlot]
    · simp [hq]

/-! ## What is asked for -/

/-- Descriptor `fd` of task `p` was asked to have the flag `on`. -/
def setAt (row : Nat → Fd → Bool) (p fd : Nat) (on : Bool) : Nat → Fd → Bool :=
  fun q x => if q = p ∧ x.val = fd then on else row q x

/-- The same for the descriptor that a call returned. -/
def noted (row : Nat → Fd → Bool) (p : Nat) (r : Except Errno Nat) (on : Bool) : Nat → Fd → Bool :=
  match r with
  | .ok fd => setAt row p fd on
  | .error _ => row

/-- What was asked for last, of every task and descriptor, after a call. A `pipe2` installs what was free before
and is in use after it, and a child begins with what its parent asked for. -/
def note (s : Files ι) (row : Nat → Fd → Bool) : Call ι → Nat → Fd → Bool
  | .openat p (some inode) flags onFail => noted row p (s.openFile p inode flags onFail).1 (flags &&& oCloexec ≠ 0)
  | .pipe2 p flags buf null => fun q fd =>
    if q = p ∧ s.slot p fd = none ∧ (s.pipe2 p flags buf null).2.slot p fd ≠ none then decide (flags &&& oCloexec ≠ 0)
    else row q fd
  | .dup p oldfd => noted row p (s.dup p oldfd).1 false
  | .dup3 p oldfd newfd flags => noted row p (s.dup3 p oldfd newfd flags).1 (flags &&& oCloexec ≠ 0)
  | .fcntl p fd (.dupfd minfd) => noted row p (s.fcntl p fd (.dupfd minfd)).1 false
  | .fcntl p fd (.dupfdCloexec minfd) => noted row p (s.fcntl p fd (.dupfdCloexec minfd)).1 true
  | .fcntl p fd (.setfd arg) =>
    match (s.fcntl p fd (.setfd arg)).1 with
    | .ok _ => setAt row p fd (arg &&& 1#64 ≠ 0)
    | .error _ => row
  | .fork p true => Function.update row s.nextPid (row p)
  | _ => row

/-- The same after a list of calls. -/
def asked (s : Files ι) (row : Nat → Fd → Bool) : List (Call ι) → Nat → Fd → Bool
  | [] => row
  | c :: calls => (s.exec c).asked (s.note row c) calls

theorem setAt_setAt (row : Nat → Fd → Bool) (a : Bool) : setAt (setAt row p f a) p f on = setAt row p f on := by
  funext q x
  unfold setAt
  split_ifs <;> rfl

theorem setAt_of_eq (h : row p fd = on) : setAt row p fd on = row := by
  funext q x
  unfold setAt
  split_ifs with e
  · rw [e.1, Fin.ext e.2, h]
  · rfl

theorem table_allocFile (s : Files ι) : s.allocFile.2.table = s.table := by
  unfold allocFile kmalloc
  cases s.allocs with
  | nil => rfl
  | cons b l => cases b <;> rfl

theorem table_allocPipe (s : Files ι) (buf : Nat → UInt8) : (s.allocPipe buf).2.table = s.table := by
  unfold allocPipe kmalloc
  cases s.allocs with
  | nil => rfl
  | cons b l => cases b <;> rfl

/-- The flags of open descriptors are what was asked for. -/
def Exact (s : Files ι) (row : Nat → Fd → Bool) : Prop :=
  ∀ q b, s.table q = some b → ∀ fd, b.slots fd ≠ none → b.closeOnExec fd = row q fd

namespace Exact

/-! ## Slots and flags -/

theorem of_table (h : Exact s row) (htab : t.table = s.table) : Exact t row :=
  fun q b hb => h q b (htab ▸ hb)

theorem congr (h : Exact s row) (heq : ∀ q fd, s.slot q fd ≠ none → row' q fd = row q fd) : Exact s row' := by
  intro q b hb fd ho
  rw [heq q fd (by simpa [slot, hb] using ho)]
  exact h q b hb fd ho

theorem of_map {g : FdTable → FdTable} (h : Exact s row)
    (htab : t.table = Function.update s.table p ((s.table p).map g)) (hother : ∀ q, q ≠ p → row' q = row q)
    (hg : ∀ b fd, s.table p = some b → (b.slots fd ≠ none → b.closeOnExec fd = row p fd) → (g b).slots fd ≠ none →
      (g b).closeOnExec fd = row' p fd) : Exact t row' := by
  intro q b hb fd ho
  rw [htab] at hb
  by_cases e : q = p
  · subst e
    rw [Function.update_self] at hb
    obtain ⟨b, hb', rfl⟩ := Option.map_eq_some_iff.1 hb
    exact hg b fd hb' (h q b hb' fd) ho
  · rw [Function.update_of_ne e] at hb
    rw [hother q e]
    exact h q b hb fd ho

theorem setAt_of_ne {q : Nat} (e : q ≠ p) : setAt row p f on q = row q := by
  funext x
  simp [setAt, e]

/-- A descriptor is installed, or cleared, with its flag. -/
theorem put {v : Option Nat} (h : Exact s row) (htab : t.table = (s.setSlot p fd v).table) :
    Exact (t.setCloseOnExec p fd on) (setAt row p fd on) := by
  refine h.of_map (g := fun b => ⟨Function.update b.slots fd v, Function.update b.closeOnExec fd on⟩)
    (by simp [setCloseOnExec, htab, setSlot, Function.comp_def]) (fun q => setAt_of_ne) fun b x _ hx ho => ?_
  by_cases e : x = fd
  · simp [setAt, e]
  · simpa [setAt, e, Fin.val_inj] using hx (by simpa [e] using ho)

theorem flag (h : Exact s row) (p : Nat) (fd : Fd) (on : Bool) :
    Exact (s.setCloseOnExec p fd on) (setAt row p fd on) := by
  refine h.of_map rfl (fun q => setAt_of_ne) fun b x _ hx ho => ?_
  by_cases e : x = fd
  · simp [setAt, e]
  · simpa [setAt, e, Fin.val_inj] using hx ho

/-- What was asked for at a descriptor that is cleared does not matter. -/
theorem drop (h : Exact s (setAt row p fd on)) : Exact (s.setSlot p fd none) row := by
  refine h.of_map rfl (fun q e => (setAt_of_ne e).symm) fun b x _ hx ho => ?_
  have e : x ≠ fd := fun e => by simp [e] at ho
  simpa [setAt, e, Fin.val_inj] using hx (by simpa [e] using ho)

theorem clear (h : Exact s row) (p : Nat) (fd : Fd) : Exact (s.setSlot p fd none) row := by
  have hset : setAt row p fd (row p fd) = row := setAt_of_eq rfl
  exact drop (hset.symm ▸ h)

theorem unflag (h : Exact s row) (p : Nat) (fd : Fd) (on : Bool) (hfree : s.slot p fd = none) :
    Exact (s.setCloseOnExec p fd on) row := by
  refine h.of_map rfl (fun _ _ => rfl) fun b x hb hx ho => ?_
  have e : x ≠ fd := fun e => ho (by simpa [slot, hb, e] using hfree)
  simpa [e] using hx ho

theorem foldl {k : Files ι → Fd → Files ι} (hk : ∀ s fd, Exact s row → Exact (k s fd) row) :
    ∀ (l : List Fd) {s : Files ι}, Exact s row → Exact (l.foldl k s) row
  | [], _, h => h
  | fd :: l, _, h => foldl hk l (hk _ fd h)

/-! ## Installing -/

theorem installFdFrom {o : Option Fd} {minfd : Nat} (h : Exact s row) (hs : t.installFdFrom p f minfd = (o, u))
    (htab : t.table = s.table) :
    (o = none ∧ u.table = s.table) ∨ ∃ fd, o = some fd ∧ Exact u (setAt row p fd false) ∧
      s.slot p fd = none ∧ ∀ x, u.slot p x = none → s.slot p x = none := by
  unfold Files.installFdFrom at hs
  split at hs
  · cases hs
    exact .inl ⟨rfl, htab⟩
  · next fd hfind =>
    cases hs
    have hfree := List.find?_some hfind
    rw [Bool.and_eq_true] at hfree
    refine .inr ⟨fd, rfl, (h.of_table htab).put rfl, by simpa [slot, htab] using hfree.2, fun x hx => ?_⟩
    rw [slot_setCloseOnExec] at hx
    cases hb : s.table p with
    | none => simp [slot, hb]
    | some b =>
      by_cases e : x = fd
      · simp [slot, setSlot, htab, hb, e] at hx
      · simpa [slot, setSlot, htab, hb, e] using hx

/-- The call's descriptor has the flag `on`; when it fails, nothing has changed. -/
def Answers (row : Nat → Fd → Bool) (p : Nat) (on : Bool) (r : Except Errno Nat × Files ι) : Prop :=
  Exact r.2 (noted row p r.1 on)

theorem openFile (h : Exact s row) (p : Nat) (inode : ι) (flags : BitVec 32) (onFail : Errno) :
    Answers row p (flags &&& oCloexec ≠ 0) (s.openFile p inode flags onFail) := by
  have halloc := table_allocFile s
  unfold Files.openFile installFdFlags installFd
  generalize s.allocFile = a at halloc
  obtain ⟨_ | f, t⟩ := a
  · exact h.of_table halloc
  · dsimp only
    cases hinst : (t.modifyFile f fun file => { file with inode := some inode, flags := flags }).installFdFrom p f
      0 with
    | mk o u =>
      obtain ⟨rfl, hu⟩ | ⟨fd, rfl, hu, -⟩ := h.installFdFrom hinst halloc
      · exact h.of_table ((table_fput u f).trans hu)
      · show Exact (if flags &&& oCloexec ≠ 0 then u.setCloseOnExec p fd true else u)
          (setAt row p fd (flags &&& oCloexec ≠ 0))
        split_ifs with hc
        · rw [decide_eq_true hc, ← setAt_setAt row false]
          exact hu.flag p fd true
        · rwa [decide_eq_false hc]

/-- A second reference goes into a free slot, or is dropped again. -/
theorem duplicate {minfd : Nat} {k : Files ι → Fd → Files ι} (h : Exact s row) (f : Nat)
    (hk : ∀ u (fd : Fd), Exact u (setAt row p fd false) → Exact (k u fd) (setAt row p fd on)) :
    Answers row p on (match (s.getFile f).installFdFrom p f minfd with
      | (none, s) => (.error .mfile, s.fput f)
      | (some fd, s) => (.ok fd, k s fd)) := by
  cases hinst : (s.getFile f).installFdFrom p f minfd with
  | mk o u =>
    obtain ⟨rfl, hu⟩ | ⟨fd, rfl, hu, -⟩ := h.installFdFrom hinst rfl
    · exact h.of_table ((table_fput u f).trans hu)
    · exact hk u fd hu

theorem dup (h : Exact s row) (p oldfd : Nat) : Answers row p false (s.dup p oldfd) := by
  unfold Files.dup
  split
  · exact h
  · exact h.duplicate _ fun _ _ hu => hu

theorem dupfd (h : Exact s row) (p f minfd : Nat) (on : Bool) : Answers row p on (s.dupfd p f minfd on) := by
  unfold Files.dupfd
  split_ifs
  · exact h
  · exact h.duplicate f fun u fd hu => setAt_setAt row false ▸ hu.flag p fd on

theorem dup3 (h : Exact s row) (p oldfd newfd : Nat) (flags : BitVec 32) :
    Answers row p (flags &&& oCloexec ≠ 0) (s.dup3 p oldfd newfd flags) := by
  unfold Files.dup3
  split_ifs with hflags hsame hlt
  · exact h
  · exact h
  · split
    · exact h
    · next fd f hlook =>
      show Exact _ (setAt row p (⟨newfd, hlt⟩ : Fd) _)
      refine put (v := some f) h ?_
      split
      · rfl
      · exact table_fput ..
  · exact h

theorem fcntl (h : Exact s row) (p fd : Nat) (cmd : FcntlCmd) :
    Exact (s.fcntl p fd cmd).2 (s.note row (.fcntl p fd cmd)) := by
  cases hlook : s.lookupFd p fd with
  | none =>
    cases cmd <;> simp only [note, Files.fcntl, hlook] <;> exact h
  | some x =>
    have hx : x.1.val = fd := by
      unfold lookupFd at hlook
      split_ifs at hlook
      obtain ⟨f, -, rfl⟩ := Option.map_eq_some_iff.1 hlook
      rfl
    cases cmd <;> simp only [note, Files.fcntl, hlook]
    case dupfd minfd => exact h.dupfd p x.2 minfd false
    case dupfdCloexec minfd => exact h.dupfd p x.2 minfd true
    case setfd arg =>
      split_ifs
      · exact h
      · exact hx ▸ h.flag p x.1 _
    all_goals exact h

/-! ## Pipes -/

/-- With `on` at all descriptors that are free. -/
def fresh (s : Files ι) (row : Nat → Fd → Bool) (p : Nat) (on : Bool) : Nat → Fd → Bool :=
  fun q x => if q = p ∧ s.slot p x = none then on else row q x

theorem fresh_of_free (hfree : s.slot p fd = none) {q : Nat} {x : Fd} (e : q = p ∧ x.val = fd) :
    fresh s row p on q x = on := by
  rw [e.1, Fin.ext e.2, fresh, if_pos ⟨rfl, hfree⟩]

theorem setAt_fresh (hfree : s.slot p fd = none) : setAt (fresh s row p on) p fd on = fresh s row p on :=
  setAt_of_eq (fresh_of_free hfree ⟨rfl, rfl⟩)

theorem installPipe (h : Exact s (fresh s row p on)) (htab : t.table = s.table) (a b : Nat) {flags : BitVec 32}
    (hon : on = decide (flags &&& oCloexec ≠ 0)) : Exact (t.installPipe p a b flags).2 (fresh s row p on) := by
  unfold Files.installPipe installFd
  cases h0 : t.installFdFrom p a 0 with
  | mk o t0 =>
  obtain ⟨rfl, ht0⟩ | ⟨fd0, rfl, he0, hfree0, hused⟩ := h.installFdFrom h0 htab
  · exact h.of_table (by simp [dropEnds, ht0])
  dsimp only
  cases h1 : t0.installFdFrom p b 0 with
  | mk o t1 =>
  obtain ⟨rfl, ht1⟩ | ⟨fd1, rfl, he1, hfree1, -⟩ := he0.installFdFrom h1 rfl
  · exact (drop (he0.of_table ht1)).of_table (by simp [dropEnds])
  dsimp only
  split_ifs with hc
  · refine ((he1.flag p fd0 true).flag p fd1 true).congr fun q x _ => ?_
    rw [decide_eq_true hc] at hon
    unfold setAt
    split_ifs with e1 e0
    · rw [fresh_of_free (hused fd1 hfree1) e1, hon]
    · rw [fresh_of_free hfree0 e0, hon]
    · rfl
  · rw [decide_eq_false hc] at hon
    subst hon
    rwa [setAt_fresh hfree0, setAt_fresh (hused fd1 hfree1)] at he1

theorem pipe2 (h : Exact s row) (p : Nat) (flags : BitVec 32) (buf : Nat → UInt8) (null : Bool) :
    Exact (s.pipe2 p flags buf null).2 (s.note row (.pipe2 p flags buf null)) := by
  have hfresh : Exact s (fresh s row p (flags &&& oCloexec ≠ 0)) := by
    refine h.congr fun q x ho => if_neg ?_
    rintro ⟨rfl, hfree⟩
    exact ho hfree
  have hafter : Exact (s.pipe2 p flags buf null).2 (fresh s row p (flags &&& oCloexec ≠ 0)) := by
    unfold Files.pipe2
    split_ifs
    · exact hfresh
    · exact hfresh
    have hq := table_allocPipe s buf
    generalize s.allocPipe buf = a at hq
    obtain ⟨_ | q, s1⟩ := a
    · exact hfresh.of_table hq
    have h1 := (table_allocFile s1).trans hq
    dsimp only
    generalize s1.allocFile = a at h1
    obtain ⟨_ | r, s2⟩ := a
    · exact hfresh.of_table h1
    have h2 := (table_allocFile s2).trans h1
    dsimp only
    generalize s2.allocFile = a at h2
    obtain ⟨_ | w, s3⟩ := a
    · exact hfresh.of_table ((table_fput s3 r).trans h2)
    · exact hfresh.installPipe (t := s3.attachEnds q r w flags) h2 r w rfl
  refine hafter.congr fun q x ho => ?_
  unfold note fresh
  by_cases e : q = p
  · subst e
    simp [ho]
  · simp [e]

/-! ## Tasks -/

theorem exitSlot (h : Exact s row) (p : Nat) (fd : Fd) : Exact (s.exitSlot p fd) row := by
  unfold Files.exitSlot
  split
  · exact h
  · exact (h.of_table (table_fput s _)).clear p fd

/-- The loop of `copy_task_files`: the child has the flags of the parent. -/
theorem copySlots {child parent : Nat} (l : List Fd) : ∀ {t : Files ι}, Exact t row' →
    (∀ b fd, t.table child = some b → t.slot parent fd ≠ none → b.closeOnExec fd = row' child fd) →
    Exact (l.foldl (copySlot child parent) t) row' := by
  induction l with
  | nil => exact fun h _ => h
  | cons fd l ih =>
    intro t h hflags
    have hset : ∀ v, (v ≠ none → t.slot parent fd ≠ none) → Exact (t.setSlot child fd v) row' ∧
        ∀ b x, (t.setSlot child fd v).table child = some b → (t.setSlot child fd v).slot parent x ≠ none →
          b.closeOnExec x = row' child x := by
      intro v hv
      refine ⟨h.of_map rfl (fun _ _ => rfl) fun b x hb hx ho => ?_, fun b' x hb' ho => ?_⟩
      · by_cases e : x = fd
        · subst e
          exact hflags b x hb (hv (by simpa using ho))
        · exact hx (by simpa [e] using ho)
      · rw [show (t.setSlot child fd v).table child = _ from Function.update_self ..] at hb'
        obtain ⟨b, hb, rfl⟩ := Option.map_eq_some_iff.1 hb'
        refine hflags b x hb ?_
        by_cases e : parent = child
        · subst e
          by_cases ex : x = fd
          · subst ex
            exact hv (by simpa [slot, setSlot, hb] using ho)
          · simpa [slot, setSlot, hb, ex] using ho
        · simpa [slot, setSlot, e] using ho
    rw [List.foldl_cons]
    unfold copySlot
    split
    · obtain ⟨h1, h2⟩ := hset none fun hv => absurd rfl hv
      exact ih h1 h2
    · next f hslot =>
      obtain ⟨h1, h2⟩ := hset (some f) fun _ => by simp [hslot]
      exact ih (t := (t.setSlot child fd (some f)).getFile f) (h1.of_table rfl) h2

theorem fork (h : Exact s row) (p : Nat) : Exact (s.fork p) (Function.update row s.nextPid (row p)) := by
  refine copySlots _ (fun q b hb fd ho => ?_) fun b fd hb ho => ?_
  · have hb' : Function.update s.table s.nextPid _ q = some b := hb
    by_cases e : q = s.nextPid
    · rw [e, Function.update_self] at hb'
      cases hb'
      exact absurd rfl ho
    · rw [Function.update_of_ne e] at hb' ⊢
      exact h q b hb' fd ho
  · have hb' : Function.update s.table s.nextPid _ s.nextPid = some b := hb
    rw [Function.update_self] at hb' ⊢
    cases hb'
    by_cases e : p = s.nextPid
    · simp [slot, e] at ho
    · cases htab : s.table p with
      | none => simp [slot, e, htab] at ho
      | some b =>
        simp only [Option.map_some, Option.getD_some]
        exact h p b htab fd (by simpa [slot, e, htab] using ho)

theorem exec (h : Exact s row) (c : Call ι) : Exact (s.exec c) (s.note row c) := by
  cases c with
  | openat p found flags onFail =>
    cases found with
    | none => exact h
    | some inode => exact h.openFile p inode flags onFail
  | pipe2 p flags buf null => exact h.pipe2 p flags buf null
  | close p fd =>
    show Exact (s.closeFd p fd).2 row
    unfold closeFd
    split
    · exact h
    · exact (h.clear p _).of_table (table_fput ..)
  | dup p oldfd => exact h.dup p oldfd
  | dup3 p oldfd newfd flags => exact h.dup3 p oldfd newfd flags
  | fcntl p fd cmd => exact h.fcntl p fd cmd
  | fork p ok =>
    cases ok with
    | false => exact h
    | true => exact h.fork p
  | execve p ok =>
    cases ok with
    | false => exact h
    | true =>
      refine foldl (fun s fd hs => ?_) _ h
      rw [execSlot_eq]
      split_ifs
      · exact (hs.exitSlot p fd).unflag p fd false (by simp [Inv.slot_exitSlot])
      · exact hs
  | exit p =>
    intro q b hb fd ho
    by_cases e : q = p
    · simp [Files.exec, Files.exit, e] at hb
    · exact foldl (fun s fd hs => hs.exitSlot p fd) _ h q b ((Function.update_of_ne e ..).symm.trans hb) fd ho

theorem run : ∀ {calls : List (Call ι)} {s : Files ι} {row : Nat → Fd → Bool}, Exact s row →
    run step s calls = some t → Exact t (s.asked row calls)
  | [], _, _, h, hrun => by
    cases hrun
    exact h
  | c :: calls, s, _, h, hrun => by
    obtain ⟨s', hs, hrest⟩ := run_cons.1 hrun
    unfold step at hs
    split_ifs at hs
    cases hs
    have hlast := Exact.run (h.exec c) hrest
    exact hlast

end Exact

theorem init_exact (ι : Type) (allocs : List Bool) : Exact (init ι allocs) fun _ _ => false := by
  intro q b hb fd _
  by_cases e : q = 1
  · subst e
    simp only [init, setSlot, getFile, modifyFile, Function.update_self, Option.map_some] at hb
    cases hb
    rfl
  · simp [init, setSlot, getFile, modifyFile, e] at hb

theorem fcntl_getfd (s : Files ι) (p : Nat) (fd : Fd) : (s.fcntl p fd .getfd).1 =
    if s.slot p fd = none then .error .badf else .ok (if s.Flagged p fd then 1 else 0) := by
  unfold fcntl lookupFd
  rw [dif_pos fd.isLt]
  cases s.slot p fd <;> rfl

/-- Close-on-exec is exact. After every run, `F_GETFD` on an open descriptor reports what was asked for last, by the
task or by one it descends from; and an `execve` that succeeds closes exactly the descriptors that report it. -/
theorem run_closeOnExec_exact {allocs : List Bool} {calls : List (Call ι)}
    (hrun : run step (init ι allocs) calls = some s) :
    (∀ p fd, s.slot p fd ≠ none → (s.fcntl p fd .getfd).1 =
      .ok (if (init ι allocs).asked (fun _ _ => false) calls p fd then 1 else 0)) ∧
    ∀ p q fd, (s.exec (.execve p true)).slot q fd =
      if q = p ∧ (s.fcntl p fd .getfd).1.toOption = some 1 then none else s.slot q fd := by
  have hexact := (init_exact ι allocs).run hrun
  refine ⟨fun p fd ho => ?_, fun p q fd => ?_⟩
  · rw [fcntl_getfd, if_neg ho]
    cases hb : s.table p with
    | none => simp [slot, hb] at ho
    | some b => simp [Flagged, hb, hexact p b hb fd (by simpa [slot, hb] using ho)]
  · rw [fcntl_getfd]
    refine (slot_execSlots s p q _ fd).trans ?_
    by_cases e : q = p
    · subst e
      cases s.slot q fd <;> by_cases hf : s.Flagged q fd <;> simp [hf, Except.toOption]
    · simp [e]

/-- Descriptor 3 is opened with `O_CLOEXEC` and closed, and used again by a `dup`. -/
def reuse : List (Call Unit) :=
  [.openat 1 (some ()) oCloexec .nomem, .close 1 3, .dup 1 0, .openat 1 (some ()) oCloexec .nomem]

theorem run_closeOnExec_exact_reuse : ∃ s, run step (init Unit []) reuse = some s ∧
    (s.fcntl 1 3 .getfd).1 = .ok 0 ∧ (s.fcntl 1 4 .getfd).1 = .ok 1 ∧
    (s.exec (.execve 1 true)).slot 1 3 = s.slot 1 3 ∧ (s.exec (.execve 1 true)).slot 1 4 = none := by
  obtain ⟨s, hrun, h3, h4⟩ : ∃ s, run step (init Unit []) reuse = some s ∧ s.slot 1 3 ≠ none ∧ s.slot 1 4 ≠ none :=
    ⟨_, rfl, by decide, by decide⟩
  obtain ⟨hasked, hexec⟩ := run_closeOnExec_exact hrun
  have h3' : (s.fcntl 1 3 .getfd).1 = .ok 0 := hasked 1 3 h3
  have h4' : (s.fcntl 1 4 .getfd).1 = .ok 1 := hasked 1 4 h4
  refine ⟨s, hrun, h3', h4', ?_, ?_⟩
  · rw [hexec, if_neg]
    rintro ⟨-, he⟩
    have he : (s.fcntl 1 3 .getfd).1.toOption = some 1 := he
    rw [h3'] at he
    cases he
  · rw [hexec, if_pos ⟨rfl, congrArg Except.toOption h4'⟩]

end Files

end MiniOs.Fs
