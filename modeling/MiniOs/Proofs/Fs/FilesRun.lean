/-
Runs of the calls on open files. Between calls nothing is in a hand and no pipe is raw, so the counts
are the numbers of slots and of live ends.
-/
import MiniOs.Proofs.Fs.Files

namespace MiniOs.Fs

open Library

namespace Files

variable {ι : Type} {s s' : Files ι} {f g p q r w : Nat} {fd : Fd} {hand : List Nat} {raw : Option Nat}

/-! ## Calls -/

/-- Both invariants, for the references in `hand` and the pipe `raw` of a call under way. -/
structure Inv (s : Files ι) (hand : List Nat) (raw : Option Nat) : Prop where
  files : s.FileInv hand
  pipes : s.PipeInv raw

@[simp] theorem table_fput (s : Files ι) (f : Nat) : (s.fput f).table = s.table := by
  unfold fput
  cases s.file f with
  | none => rfl
  | some file =>
    obtain ⟨pipe, freedPipes, heq⟩ := FileInv.pipeRelease_eq s { file with refcount := file.refcount - 1 }
    dsimp only
    rw [heq]
    split_ifs <;> rfl

theorem pipeRelease_withTable (s : Files ι) (T : Nat → Option FdTable) (file : File ι) :
    { s with table := T }.pipeRelease file = { s.pipeRelease file with table := T } := by
  unfold pipeRelease
  cases file.pipe with
  | none => rfl
  | some p =>
    dsimp only
    cases s.pipe p with
    | none => rfl
    | some pipe =>
      dsimp only
      split_ifs <;> rfl

theorem fput_withTable (s : Files ι) (T : Nat → Option FdTable) (f : Nat) :
    { s with table := T }.fput f = { s.fput f with table := T } := by
  unfold fput
  dsimp only
  cases s.file f with
  | none => rfl
  | some file =>
    dsimp only
    rw [pipeRelease_withTable]
    split_ifs <;> rfl

/-- `fput` and a write to a slot do not see each other. -/
theorem setSlot_fput (s : Files ι) (p : Nat) (fd : Fd) (v : Option Nat) (f : Nat) :
    (s.fput f).setSlot p fd v = (s.setSlot p fd v).fput f := by
  unfold setSlot
  rw [table_fput]
  exact (fput_withTable s _ f).symm

namespace Inv

theorem fput (h : s.Inv (f :: hand) raw) : (s.fput f).Inv hand raw := ⟨h.files.fput, h.pipes.fput f⟩

theorem getFile (h : s.Inv hand raw) (hlive : (s.file f).isSome) : (s.getFile f).Inv (f :: hand) raw :=
  ⟨h.files.getFile hlive, h.pipes.modifyFile (fun _ => rfl) fun _ => rfl⟩

theorem setCloseOnExec (h : s.Inv hand raw) (p : Nat) (fd : Fd) (on : Bool) : (s.setCloseOnExec p fd on).Inv hand raw :=
  ⟨h.files.setCloseOnExec p fd on, h.pipes.same rfl rfl rfl rfl⟩

theorem fill (h : s.Inv (f :: hand) raw) (hp : (s.table p).isSome) (hfree : s.slot p fd = none) :
    (s.setSlot p fd (some f)).Inv hand raw :=
  ⟨h.files.fill hp hfree, h.pipes.same rfl rfl rfl rfl⟩

theorem clear (h : s.Inv hand raw) (hslot : s.slot p fd = some f) : (s.setSlot p fd none).Inv (f :: hand) raw :=
  ⟨h.files.clear hslot, h.pipes.same rfl rfl rfl rfl⟩

/-- `install_fd` puts the reference of a hand into a slot, or leaves everything as it is. -/
theorem installFdFrom {o : Option Fd} {minfd : Nat} (h : s.Inv (f :: hand) raw) (hp : (s.table p).isSome)
    (hs : s.installFdFrom p f minfd = (o, s')) :
    (o = none ∧ s' = s) ∨
      (∃ fd, o = some fd ∧ s.slot p fd = none ∧ s'.slot p fd = some f ∧ ∀ fd', fd' ≠ fd →
        s'.slot p fd' = s.slot p fd') ∧
        s'.Inv hand raw ∧ (s'.table p).isSome := by
  unfold Files.installFdFrom at hs
  split at hs
  · cases hs
    exact Or.inl ⟨rfl, rfl⟩
  · next fd hfind =>
    cases hs
    right
    have hfree : s.slot p fd = none := by
      have := List.find?_some hfind
      simpa using (Bool.and_eq_true_iff.1 this).2
    refine ⟨⟨fd, rfl, hfree, ?_, fun fd' hfd' => ?_⟩, (h.fill hp hfree).setCloseOnExec p fd false, ?_⟩
    · simpa using slot_setSlot hp fd (some f) (p, fd)
    · simpa [hfd'] using slot_setSlot hp fd (some f) (p, fd')
    · simpa [Files.setCloseOnExec, Files.setSlot] using hp

section

variable (h : s.Inv hand raw)
include h

theorem lookupFd {x : Fd × Nat} (hlook : s.lookupFd p g = some x) :
    s.slot p x.1 = some x.2 ∧ (s.file x.2).isSome ∧ (s.table p).isSome := by
  unfold Files.lookupFd at hlook
  split_ifs at hlook
  obtain ⟨f, hslot, rfl⟩ := Option.map_eq_some_iff.1 hlook
  exact ⟨hslot, h.files.live_of_slot hslot, isSome_of_slot hslot⟩

theorem closeFd (p fd : Nat) : (s.closeFd p fd).2.Inv hand raw := by
  unfold Files.closeFd
  split
  · exact h
  · next fd f hlook => exact (h.clear (h.lookupFd hlook).1).fput

theorem allocFile (hs : s.allocFile = (some f, s')) :
    s'.Inv (f :: hand) raw ∧ s'.table = s.table ∧ s'.file f = some ⟨1, none, none, 0⟩ ∧ f = s.nextFile ∧
      s'.nextFile = f + 1 ∧ s'.pipe = s.pipe ∧ ∀ g, g ≠ f → s'.file g = s.file g := by
  have hfiles := h.files.allocFile hs
  have hpipes := h.pipes.allocFile (fun f hf => (h.files.fresh f hf).1) hs
  unfold Files.allocFile Files.kmalloc at hs
  split at hs
  · cases hs
  · next s1 hk =>
    simp only [Prod.mk.injEq, Option.some.injEq] at hs
    obtain ⟨rfl, rfl⟩ := hs
    split at hk <;> cases hk
    · exact ⟨⟨hfiles, hpipes⟩, rfl, by simp [setFile], rfl, rfl, rfl, fun g hg => by simp [setFile, hg]⟩
    · exact ⟨⟨hfiles, hpipes⟩, rfl, by simp [setFile], rfl, rfl, rfl, fun g hg => by simp [setFile, hg]⟩

theorem allocFile_none (hs : s.allocFile = (none, s')) : s'.Inv hand raw := by
  unfold Files.allocFile at hs
  split at hs
  · next s1 hk =>
    cases hs
    exact ⟨h.files.kmalloc false hk, h.pipes.kmalloc hk⟩
  · cases hs

theorem iputs (l : List ι) : Inv { s with iputs := l } hand raw :=
  ⟨h.files.move rfl rfl rfl h.files.pids fun _ => rfl, h.pipes.same rfl rfl rfl rfl⟩

theorem openFile (hp : (s.table p).isSome) (inode : ι) (flags : BitVec 32) (onFail : Errno) :
    (s.openFile p inode flags onFail).2.Inv hand raw := by
  unfold Files.openFile
  cases halloc : s.allocFile with
  | mk o s1 =>
    cases o with
    | none => exact (h.allocFile_none halloc).iputs _
    | some f =>
      obtain ⟨h1, htable, hfile, -⟩ := h.allocFile halloc
      -- a new file is no pipe end, whatever its flags
      have h2 : (s1.modifyFile f fun file => { file with inode := some inode, flags := flags }).Inv
        (f :: hand) raw := by
        refine ⟨h1.files.modifyFile (by simp [hfile]) fun _ => rfl, ?_⟩
        rw [modifyFile_eq hfile]
        refine h1.pipes.update ?_ ?_
        · rw [hfile]
          rintro file ⟨⟩
          rfl
        · rintro file ⟨⟩
          rfl
      have hp1 : ((s1.modifyFile f fun file => { file with inode := some inode, flags := flags }).table p).isSome := by
        rw [← htable] at hp
        exact hp
      dsimp only
      unfold Files.installFdFlags Files.installFd
      cases hinst : (s1.modifyFile f fun file => { file with inode := some inode, flags := flags }).installFdFrom p f
        0 with
      | mk o s2 =>
        rcases h2.installFdFrom hp1 hinst with ⟨rfl, rfl⟩ | ⟨⟨fd, rfl, -⟩, h3, -⟩
        · exact h2.fput
        · dsimp only
          split_ifs
          · exact h3.setCloseOnExec p fd true
          · exact h3

/-- A second reference to a file in a slot goes into a free slot, or is dropped again. -/
theorem duplicate {minfd : Nat} {k : Files ι → Fd → Files ι} (hlive : (s.file f).isSome)
    (hp : (s.table p).isSome) (hk : ∀ s fd, s.Inv hand raw → (k s fd).Inv hand raw) :
    (match (s.getFile f).installFdFrom p f minfd with
      | (none, s) => ((.error .mfile, s.fput f) : Except Errno Nat × Files ι)
      | (some fd, s) => (.ok fd, k s fd)).2.Inv hand raw := by
  have h1 := h.getFile hlive
  cases hinst : (s.getFile f).installFdFrom p f minfd with
  | mk o s1 =>
    rcases h1.installFdFrom hp hinst with ⟨rfl, rfl⟩ | ⟨⟨fd, rfl, -⟩, h2, -⟩
    · exact h1.fput
    · exact hk s1 fd h2

theorem dup (p oldfd : Nat) : (s.dup p oldfd).2.Inv hand raw := by
  unfold Files.dup
  split
  · exact h
  · next fd f hlook =>
    obtain ⟨-, hlive, hp⟩ := h.lookupFd hlook
    exact h.duplicate hlive hp fun s fd hs => hs

theorem dup3 (p oldfd newfd : Nat) (flags : BitVec 32) :
    (s.dup3 p oldfd newfd flags).2.Inv hand raw := by
  unfold Files.dup3
  split_ifs with hflags hsame hlt
  · exact h
  · exact h
  · split
    · exact h
    · next fd f hlook =>
      obtain ⟨-, hlive, hp⟩ := h.lookupFd hlook
      have h1 := h.getFile hlive
      dsimp only
      refine setCloseOnExec ?_ p ⟨newfd, hlt⟩ _
      cases hold : (s.getFile f).slot p ⟨newfd, hlt⟩ with
      | none => exact h1.fill hp hold
      | some g =>
        -- the reference in the hand takes the place of the one in the slot
        have h2 : ((s.getFile f).setSlot p ⟨newfd, hlt⟩ (some f)).Inv (g :: hand) raw := by
          refine ⟨h1.files.setSlot hp fun x => ?_, h1.pipes.same rfl rfl rfl rfl⟩
          simp only [hold, List.count_cons, Option.some.injEq, beq_iff_eq]
          omega
        exact h2.fput
  · exact h

end

theorem isRdonly_setfl (flags arg mask : BitVec 32) (hmask : mask &&& oAccmode = 0#32)
    (hmask' : ~~~mask &&& oAccmode = oAccmode) :
    (flags &&& ~~~mask ||| arg &&& mask) &&& oAccmode = flags &&& oAccmode := by
  rw [BitVec.and_or_distrib_right, BitVec.and_assoc, BitVec.and_assoc, hmask, hmask', BitVec.and_zero, BitVec.or_zero]

theorem fcntl (h : s.Inv hand raw) (p fd : Nat) (cmd : FcntlCmd) : (s.fcntl p fd cmd).2.Inv hand raw := by
  unfold Files.fcntl
  split
  · exact h
  · next fd f hlook =>
    obtain ⟨-, hlive, hp⟩ := h.lookupFd hlook
    have hdup : ∀ minfd cloexec, (s.dupfd p f minfd cloexec).2.Inv hand raw := by
      intro minfd cloexec
      unfold dupfd
      split_ifs
      · exact h
      · exact h.duplicate hlive hp fun s fd hs => hs.setCloseOnExec p fd cloexec
    cases cmd with
    | dupfd minfd => exact hdup minfd false
    | dupfdCloexec minfd => exact hdup minfd true
    | getfd => exact h
    | setfd arg =>
      dsimp only
      split_ifs
      · exact h
      · exact h.setCloseOnExec p fd _
    | getfl => exact h
    | setfl arg =>
      refine ⟨h.files.modifyFile hlive fun _ => rfl, h.pipes.modifyFile (fun _ => rfl) fun file => ?_⟩
      unfold File.isRdonly
      dsimp only
      rw [isRdonly_setfl _ _ _ (by decide) (by decide)]
    | other => exact h

/-! ## Pipes -/

theorem swap (h : s.Inv (f :: g :: hand) raw) : s.Inv (g :: f :: hand) raw :=
  ⟨h.files.move rfl rfl rfl h.files.pids fun x => by rw [(List.Perm.swap f g hand).count_eq], h.pipes⟩

variable {buf : Nat → UInt8}

theorem allocPipe {o : Option Nat} (h : s.Inv hand none) (hs : s.allocPipe buf = (o, s')) :
    s'.FileInv hand ∧ s'.table = s.table := by
  unfold Files.allocPipe Files.kmalloc at hs
  split at hs
  · next s1 hk =>
    cases hs
    split at hk <;> cases hk
    exact ⟨h.files.move rfl rfl rfl h.files.pids fun _ => rfl, rfl⟩
  · next s1 hk =>
    cases hs
    split at hk <;> cases hk
    · exact ⟨h.files.move rfl rfl rfl h.files.pids fun _ => rfl, rfl⟩
    · exact ⟨h.files.move rfl rfl rfl h.files.pids fun _ => rfl, rfl⟩

theorem allocPipe_none (h : s.Inv hand none) (hs : s.allocPipe buf = (none, s')) :
    s'.Inv hand none := by
  refine ⟨(h.allocPipe hs).1, ?_⟩
  unfold Files.allocPipe at hs
  split at hs
  · next s1 hk =>
    cases hs
    exact h.pipes.kmalloc hk
  · cases hs

theorem kfreePipe (h : s.Inv hand (some q)) : (s.kfreePipe q).Inv hand none :=
  ⟨h.files.move rfl rfl rfl h.files.pids fun _ => rfl, h.pipes.kfreePipe⟩

theorem attachEnds {fr fw : File ι} (h : s.Inv hand (some q)) (hpipe : s.pipe q = some (.create buf))
    (hr : s.file r = some fr) (hw : s.file w = some fw) (hrp : fr.pipe = none) (hwp : fw.pipe = none) (hrw : r ≠ w)
    (hru : r ≠ uartFile) (hwu : w ≠ uartFile) (flags : BitVec 32) : (s.attachEnds q r w flags).Inv hand none := by
  refine ⟨?_, h.pipes.attachEnds hpipe hr hw hrp hwp hrw hru hwu flags⟩
  unfold Files.attachEnds
  apply FileInv.modifyFile
  · apply h.files.modifyFile
    · simp [hr]
    · exact fun _ => rfl
  · simp [Files.modifyFile, Ne.symm hrw, hw]
  · exact fun _ => rfl

/-- Both ends go into slots, or both are dropped. -/
theorem installPipe (h : s.Inv (r :: w :: hand) none) (hp : (s.table p).isSome) (flags : BitVec 32) :
    (s.installPipe p r w flags).2.Inv hand none := by
  unfold Files.installPipe Files.installFd
  cases hinst : s.installFdFrom p r 0 with
  | mk o s1 =>
    rcases h.installFdFrom hp hinst with ⟨rfl, rfl⟩ | ⟨⟨fd0, rfl, -, hslot0, -⟩, h1, hp1⟩
    · exact h.fput.fput
    dsimp only
    cases hinst' : s1.installFdFrom p w 0 with
    | mk o s2 =>
      rcases h1.installFdFrom hp1 hinst' with ⟨rfl, rfl⟩ | ⟨⟨fd1, rfl, -⟩, h2, -⟩
      · exact (h1.clear hslot0).fput.fput
      dsimp only
      -- both slots are filled; the flags do not matter for the references
      split_ifs
      · exact (h2.setCloseOnExec p fd0 true).setCloseOnExec p fd1 true
      · exact h2

theorem pipe2 (h : s.Inv hand none) (hp : (s.table p).isSome) (flags : BitVec 32) (buf : Nat → UInt8)
    (null : Bool) : (s.pipe2 p flags buf null).2.Inv hand none := by
  unfold Files.pipe2
  split_ifs
  · exact h
  · exact h
  cases hq : s.allocPipe buf with
  | mk o s1 =>
    cases o with
    | none => exact h.allocPipe_none hq
    | some q =>
      obtain ⟨hfiles, htable1⟩ := h.allocPipe hq
      obtain ⟨hpipes, hpipe, -⟩ := h.pipes.allocPipe hq
      have h1 : s1.Inv hand (some q) := ⟨hfiles, hpipes⟩
      dsimp only
      cases hr : s1.allocFile with
      | mk o s2 =>
        cases o with
        | none => exact (h1.allocFile_none hr).kfreePipe
        | some r =>
          obtain ⟨h2, htable2, hfr, hr0, hnext2, hpipe2, -⟩ := h1.allocFile hr
          dsimp only
          cases hw : s2.allocFile with
          | mk o s3 =>
            cases o with
            | none => exact (h2.allocFile_none hw).fput.kfreePipe
            | some w =>
              obtain ⟨h3, htable3, hfw, hw0, -, hpipe3, hkeep⟩ := h2.allocFile hw
              have hrw : r ≠ w := by omega
              have huart : ∀ {s : Files ι} {hand}, s.FileInv hand → uartFile < s.nextFile := by
                intro s hand hs
                by_contra hge
                have := hs.uart
                rw [(hs.fresh _ (not_lt.1 hge)).1] at this
                cases this
              have h4 := h3.swap.attachEnds (by rw [hpipe3, hpipe2, hpipe]) ((hkeep r hrw).trans hfr) hfw rfl rfl hrw
                (by have := huart h1.files; omega) (by have := huart h2.files; omega) flags
              refine h4.installPipe ?_ flags
              show (s3.table p).isSome
              rw [htable3, htable2, htable1]
              exact hp

/-! ## Tasks -/

/-- Clearing a slot with `fput` first, as the loops of exit and exec do. -/
theorem exitSlot (h : s.Inv hand raw) (p : Nat) (fd : Fd) : (s.exitSlot p fd).Inv hand raw := by
  unfold Files.exitSlot
  split
  · exact h
  · next f hslot =>
    rw [setSlot_fput]
    exact (h.clear hslot).fput

theorem slot_exitSlot (s : Files ι) (p q : Nat) (fd fd' : Fd) :
    (s.exitSlot p fd).slot q fd' = if q = p ∧ fd' = fd then none else s.slot q fd' := by
  unfold Files.exitSlot
  split
  · next hslot =>
    split_ifs with heq
    · rw [heq.1, heq.2, hslot]
    · rfl
  · next f hslot =>
    have hp : ((s.fput f).table p).isSome := by simpa using isSome_of_slot hslot
    rw [slot_setSlot hp fd none (q, fd'), Function.update_apply]
    have hsame : (s.fput f).slot q fd' = s.slot q fd' := by simp [slot]
    simp [hsame]

theorem exitFiles (h : s.Inv hand raw) (p : Nat) (l : List Fd) :
    (l.foldl (Files.exitSlot p) s).Inv hand raw ∧
      ∀ fd, (l.foldl (Files.exitSlot p) s).slot p fd = if fd ∈ l then none else s.slot p fd := by
  induction l generalizing s with
  | nil => exact ⟨h, fun fd => by simp⟩
  | cons fd0 rest ih =>
    obtain ⟨hinv, hslots⟩ := ih (h.exitSlot p fd0)
    refine ⟨hinv, fun fd => ?_⟩
    rw [List.foldl_cons, hslots, slot_exitSlot]
    by_cases hmem : fd ∈ rest <;> by_cases heq : fd = fd0 <;> simp [hmem, heq]

theorem exit (h : s.Inv hand raw) (p : Nat) : (s.exit p).Inv hand raw := by
  obtain ⟨hinv, hslots⟩ := h.exitFiles p (List.finRange nrOpen)
  refine ⟨hinv.files.move rfl rfl rfl ?_ fun f => ?_, hinv.pipes.same rfl rfl rfl rfl⟩
  · intro q hq
    by_cases hqp : q = p
    · subst hqp
      simp [Files.exit] at hq
    · exact hinv.files.pids q (by simpa [Files.exit, hqp, Files.exitFiles] using hq)
  · -- the task had no file left
    congr 1
    unfold uses
    refine Finset.sum_congr rfl fun x _ => ?_
    have hslot : (s.exit p).slot x.1 x.2 = (s.exitFiles p).slot x.1 x.2 := by
      by_cases hx : x.1 = p
      · have := hslots x.2
        rw [if_pos (List.mem_finRange _)] at this
        rw [hx]
        unfold Files.exitFiles
        rw [this]
        simp [Files.exit, slot]
      · simp [Files.exit, slot, hx]
    rw [hslot]
    rfl

theorem closeOnExecFds (h : s.Inv hand raw) (p : Nat) : (s.closeOnExecFds p).Inv hand raw := by
  unfold Files.closeOnExecFds
  induction List.finRange nrOpen generalizing s with
  | nil => exact h
  | cons fd rest ih =>
    rw [List.foldl_cons]
    apply ih
    unfold execSlot
    split_ifs
    · exact (h.exitSlot p fd).setCloseOnExec p fd false
    · exact h

/-- The loop of `copy_task_files` on slots of the child that are still empty. -/
theorem copySlots {child parent : Nat} {l : List Fd} (h : s.Inv hand raw)
    (hchild : (s.table child).isSome) (hnodup : l.Nodup) (hempty : ∀ fd ∈ l, s.slot child fd = none) :
    (l.foldl (copySlot child parent) s).Inv hand raw := by
  induction l generalizing s with
  | nil => exact h
  | cons fd rest ih =>
    rw [List.foldl_cons]
    obtain ⟨hfd, hrest⟩ := List.nodup_cons.1 hnodup
    have hfree := hempty fd (List.mem_cons_self ..)
    have hset : ∀ v, ((s.setSlot child fd v).table child).isSome ∧
        ∀ fd' ∈ rest, (s.setSlot child fd v).slot child fd' = none := by
      intro v
      refine ⟨by simpa [Files.setSlot] using hchild, fun fd' hfd' => ?_⟩
      have hne' : fd' ≠ fd := fun heq => hfd (heq ▸ hfd')
      rw [slot_setSlot hchild fd v (child, fd')]
      simpa [hne'] using hempty fd' (List.mem_cons_of_mem _ hfd')
    unfold copySlot
    cases hslot : s.slot parent fd with
    | none =>
      refine ih ⟨h.files.setSlot hchild fun x => by simp [hfree], h.pipes.same rfl rfl rfl rfl⟩ (hset none).1 hrest
        (hset none).2
    | some f =>
      have h1 : ((s.setSlot child fd (some f)).getFile f).Inv hand raw :=
        (h.getFile (h.files.live_of_slot hslot)).fill hchild hfree
      exact ih h1 (hset (some f)).1 hrest (hset (some f)).2

theorem fork (h : s.Inv hand raw) (p : Nat) : (s.fork p).Inv hand raw := by
  have hnone : s.table s.nextPid = none := by
    by_contra hsome
    exact lt_irrefl _ (h.files.pids _ (Option.isSome_iff_ne_none.2 hsome))
  unfold Files.fork copyTaskFiles
  refine copySlots ⟨?_, h.pipes.same rfl rfl rfl rfl⟩ (by simp) (List.nodup_finRange _) fun fd _ => by simp [slot]
  refine h.files.move rfl rfl rfl ?_ fun f => ?_
  · intro q hq
    show q < s.nextPid + 1
    by_cases hqn : q = s.nextPid
    · omega
    · have := h.files.pids q (by simpa [hqn] using hq)
      omega
  · -- the new table is empty
    congr 1
    unfold uses
    symm
    have hslot : ∀ x : Nat × Fd, slot { s with
        nextPid := s.nextPid + 1
        table := Function.update s.table s.nextPid
          (some ⟨fun _ => none, ((s.table p).map FdTable.closeOnExec).getD fun _ => false⟩) } x.1 x.2 =
            s.slot x.1 x.2 := by
      intro x
      by_cases hx : x.1 = s.nextPid
      · simp [slot, hx, hnone]
      · simp [slot, hx]
    simp only [hslot]
    refine Finset.sum_subset (Finset.product_subset_product_left (by simp)) fun x hx hx' => ?_
    have hx1 : x.1 = s.nextPid := by
      simp only [Finset.mem_product, Finset.mem_range, Finset.mem_univ, and_true] at hx hx'
      omega
    simp [slot, hx1, hnone]

theorem exec {c : Call ι} (h : s.Inv [] none) (hp : (s.table c.pid).isSome) : (s.exec c).Inv [] none := by
  cases c with
  | openat p found flags onFail =>
    cases found with
    | none => exact h
    | some inode => exact h.openFile hp inode flags onFail
  | pipe2 p flags buf null => exact h.pipe2 hp flags buf null
  | close p fd => exact h.closeFd p fd
  | dup p oldfd => exact h.dup p oldfd
  | dup3 p oldfd newfd flags => exact h.dup3 p oldfd newfd flags
  | fcntl p fd cmd => exact h.fcntl p fd cmd
  | fork p ok =>
    cases ok
    · exact h
    · exact h.fork p
  | execve p ok =>
    cases ok
    · exact h
    · exact h.closeOnExecFds p
  | exit p => exact h.exit p

end Inv

/-- Init's three references to the console. -/
theorem init_inv (ι : Type) (allocs : List Bool) : (init ι allocs).Inv [] none := by
  let s : Files ι :=
    ⟨Function.update (fun _ => none) uartFile (some ⟨0, none, none, 0⟩), 1, fun _ => none, 0,
      Function.update (fun _ => none) 1 (some ⟨fun _ => none, fun _ => false⟩), 2, allocs, [], [], []⟩
  have hslot : ∀ p fd, s.slot p fd = none := by
    intro p fd
    by_cases hp : p = 1
    · simp [s, slot, hp]
    · simp [s, slot, hp]
  have huses : ∀ f, s.uses f = 0 := fun f => by simp [uses, hslot]
  have hfile : ∀ f, f ≠ uartFile → s.file f = none := fun f hf => by simp [s, hf]
  have hends : ∀ p r f, ¬ s.End p r f := by
    rintro p r f ⟨file, hf, hp, -⟩
    by_cases hu : f = uartFile
    · subst hu
      simp only [s, Function.update_self, Option.some.injEq] at hf
      subst hf
      cases hp
    · rw [hfile f hu] at hf
      cases hf
  have h0 : s.Inv [] none := by
    refine ⟨⟨?_, ?_, ?_, ?_, ?_, List.nodup_nil, rfl, ?_⟩, ⟨fun p => ?_, List.nodup_nil, ?_⟩⟩
    · intro f file hf
      by_cases hu : f = uartFile
      · subst hu
        simp only [s, Function.update_self, Option.some.injEq] at hf
        subst hf
        simp [huses]
      · rw [hfile f hu] at hf
        cases hf
    · intro f hpos
      simp [huses] at hpos
    · intro f hne hlive
      rw [hfile f hne] at hlive
      cases hlive
    · intro f hf
      have hf : 1 ≤ f := hf
      exact ⟨hfile f (by unfold uartFile; omega), by simp [s]⟩
    · intro f hf
      have hf : f < 1 := hf
      obtain rfl : f = uartFile := by unfold uartFile; omega
      simp [s]
    · intro p hp
      by_cases hp1 : p = 1
      · subst hp1
        show 1 < 2
        decide
      · simp [s, hp1] at hp
    · exact {
        ends := fun r f hf => absurd hf (hends p r f)
        alone := fun r f _ hf => absurd hf (hends p r f)
        counted := fun _ _ hp => by simp [s] at hp
        needed := fun hp => by simp [s] at hp
        rawLive := fun hr => by simp at hr
        fresh := fun _ => ⟨rfl, by simp [s]⟩
        freed := fun hlt => absurd hlt (Nat.not_lt_zero p) }
    · intro file hf
      simp only [s, Function.update_self, Option.some.injEq] at hf
      subst hf
      rfl
  -- three times a reference is taken and put into a free slot
  have h1 := (h0.getFile (f := uartFile) rfl).fill (p := 1) (by rfl) (show slot _ 1 0 = none by rfl)
  have h2 := (h1.getFile (f := uartFile) rfl).fill (p := 1) (by rfl) (show slot _ 1 1 = none by rfl)
  exact (h2.getFile (f := uartFile) rfl).fill (p := 1) (by rfl) (show slot _ 1 2 = none by rfl)

/-! ## Runs -/

/-- The counts agree with what they count. A file other than the static one is live as long as a slot
holds it and was handed to kfree once if it is not; a pipe has one reader (writer) or none as its read
(write) end is live or not, and is live or was handed to kfree once as some end of it is live or not. -/
structure Accounted (s : Files ι) : Prop where
  counted : ∀ f file, s.file f = some file → file.refcount = s.uses f
  held : ∀ p fd f, s.slot p fd = some f → (s.file f).isSome
  live : ∀ f, f ≠ uartFile → ((s.file f).isSome ↔ 0 < s.uses f)
  freed : ∀ f, f < s.nextFile → (s.file f = none ↔ f ∈ s.freedFiles)
  freedOnce : s.freedFiles.Nodup
  ends : ∀ p pipe r, s.pipe p = some pipe →
    (openEnds pipe r = 1 ∧ ∃ f, s.End p r f) ∨ (openEnds pipe r = 0 ∧ ∀ f, ¬ s.End p r f)
  pipeLive : ∀ p, (s.pipe p).isSome ↔ ∃ r f, s.End p r f
  pipeFreed : ∀ p, p < s.nextPipe → (s.pipe p = none ↔ p ∈ s.freedPipes)
  pipeFreedOnce : s.freedPipes.Nodup

theorem Inv.accounted (h : s.Inv [] none) : s.Accounted where
  counted f file hf := by simpa using h.files.counted f file hf
  held p fd f hslot := h.files.live_of_slot hslot
  live f hne := by
    constructor
    · intro hlive
      simpa using h.files.needed f hne hlive
    · intro hpos
      exact h.files.live f (by simpa using hpos)
  freed := h.files.freed
  freedOnce := h.files.freedOnce
  ends p pipe r hp := (h.pipes.each p).counted pipe r hp (by simp)
  pipeLive p := by
    constructor
    · intro hlive
      exact (h.pipes.each p).needed hlive (by simp)
    · rintro ⟨r, f, hf⟩
      exact ((h.pipes.each p).ends r f hf).2
  pipeFreed p := (h.pipes.each p).freed
  pipeFreedOnce := h.pipes.freedOnce

/-- After every run of calls by any tasks, whatever allocations fail, all counts are right. -/
theorem run_files_accounted {allocs : List Bool} {calls : List (Call ι)}
    (hrun : run step (init ι allocs) calls = some s) : s.Accounted := by
  have hinv : s.Inv [] none := by
    refine run_invariant (P := fun s => s.Inv [] none) (fun s c s' hs hstep => ?_) (init_inv ι allocs) hrun
    unfold step at hstep
    split_ifs at hstep with hp
    cases hstep
    exact hs.exec hp
  exact hinv.accounted

/-- A pipe shared with a child that closes the write end and exits; the parent then closes it as well. -/
def sampleCalls : List (Call Nat) :=
  [.pipe2 1 0 (fun _ => 0) false, .fork 1 true, .close 2 4, .dup 1 3, .exit 2, .close 1 4]

theorem run_files_accounted_of_sampleCalls :
    ∃ s, run step (init Nat []) sampleCalls = some s ∧ (s.pipe 0).map Pipe.readers = some 1 ∧
      (s.pipe 0).map Pipe.writers = some 0 ∧ s.freedFiles = [2] ∧ (s.file 1).map File.refcount = some 2 ∧
        s.Accounted := by
  obtain ⟨s, hrun, h1, h2, h3, h4⟩ : ∃ s, run step (init Nat []) sampleCalls = some s ∧
      (s.pipe 0).map Pipe.readers = some 1 ∧ (s.pipe 0).map Pipe.writers = some 0 ∧ s.freedFiles = [2] ∧
      (s.file 1).map File.refcount = some 2 := ⟨_, rfl, by decide, by decide, by decide, by decide⟩
  exact ⟨s, hrun, h1, h2, h3, h4, run_files_accounted hrun⟩

end Files

end MiniOs.Fs
