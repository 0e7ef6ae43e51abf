/-
The inodes that open files point to. A file keeps its inode until its last reference is dropped, and
then hands it to `iput`, so that the files and the drops that are due together stay the same in every
call but `openat`.
-/
import MiniOs.Proofs.Fs.FilesRun

namespace MiniOs.Fs

open Library

namespace Files

variable {ι : Type} [DecidableEq ι] {s s' : Files ι} {due : ι → Nat} {f p : Nat} {r : ι}

/-- How many files there are with an inode. -/
def inodeRefs (s : Files ι) (r : ι) : Nat :=
  ∑ f ∈ Finset.range s.nextFile, if (s.file f).bind File.inode = some r then 1 else 0

/-- `due` is how many references the files and the drops to come have on each inode. -/
structure Owes (s : Files ι) (due : ι → Nat) : Prop where
  fresh : ∀ f, s.nextFile ≤ f → s.file f = none
  count : ∀ r, s.inodeRefs r + s.iputs.count r = due r

theorem inodeRefs_update (hlt : f < s.nextFile) (hnext : s'.nextFile = s.nextFile) {v : Option (File ι)}
    (hfile : s'.file = Function.update s.file f v) (r : ι) :
    s'.inodeRefs r + (if (s.file f).bind File.inode = some r then 1 else 0) =
      s.inodeRefs r + if v.bind File.inode = some r then 1 else 0 := by
  obtain ⟨rest, hold, hnew⟩ := exists_sum_rest (Finset.mem_range.2 hlt)
    (fun o : Option (File ι) => if o.bind File.inode = some r then 1 else 0) s.file
  have h0 : s.inodeRefs r = rest + if (s.file f).bind File.inode = some r then 1 else 0 := hold
  have h1 : s'.inodeRefs r = rest + if v.bind File.inode = some r then 1 else 0 := by
    rw [← hnew v]
    unfold inodeRefs
    rw [hnext, hfile]
  rw [h0, h1]
  omega

namespace Owes

section

variable (h : s.Owes due)
include h

/-- No file has an inode on which no reference is due. -/
theorem not_inode (hz : due r = 0) (f : Nat) : (s.file f).bind File.inode ≠ some r := by
  intro hf
  have hlt : f < s.nextFile := by
    by_contra hge
    rw [h.fresh f (Nat.le_of_not_lt hge)] at hf
    cases hf
  obtain ⟨rest, hold, -⟩ := exists_sum_rest (Finset.mem_range.2 hlt)
    (fun o : Option (File ι) => if o.bind File.inode = some r then 1 else 0) s.file
  have hrefs : s.inodeRefs r = rest + if (s.file f).bind File.inode = some r then 1 else 0 := hold
  have hcount := h.count r
  rw [hrefs, if_pos hf] at hcount
  omega

theorem congr (hfile : ∀ x, (s'.file x).bind File.inode = (s.file x).bind File.inode)
    (hlive : ∀ x, s.file x = none → s'.file x = none) (hnext : s'.nextFile = s.nextFile) (hputs : s'.iputs = s.iputs) :
    s'.Owes due := by
  refine ⟨fun x hx => hlive x (h.fresh x (hnext ▸ hx)), fun r => ?_⟩
  rw [← h.count r, hputs]
  unfold inodeRefs
  rw [hnext]
  simp only [hfile]

theorem setSlot (p : Nat) (fd : Fd) (v : Option Nat) : (s.setSlot p fd v).Owes due :=
  h.congr (fun _ => rfl) (fun _ hx => hx) rfl rfl

theorem setCloseOnExec (p : Nat) (fd : Fd) (on : Bool) : (s.setCloseOnExec p fd on).Owes due :=
  h.congr (fun _ => rfl) (fun _ hx => hx) rfl rfl

theorem modifyFile {k : File ι → File ι} (hk : ∀ file, (k file).inode = file.inode) :
    (s.modifyFile f k).Owes due := by
  refine h.congr (fun x => ?_) (fun x hx => ?_) rfl rfl
  · by_cases e : x = f
    · subst e
      cases hx : s.file x with
      | none => simp [Files.modifyFile, hx]
      | some file => simp [Files.modifyFile, hx, hk]
    · simp [Files.modifyFile, e]
  · by_cases e : x = f
    · subst e
      simp [Files.modifyFile, hx]
    · simp [Files.modifyFile, e, hx]

theorem getFile (f : Nat) : (s.getFile f).Owes due := h.modifyFile fun _ => rfl

/-- The last reference goes: the inode of the file is due to be dropped. -/
theorem release {file : File ι} {v : Option (File ι)} (hfile : s.file f = some file)
    (hv : v.bind File.inode = none) (hnext : s'.nextFile = s.nextFile) (hf : s'.file = Function.update s.file f v)
    (hputs : s'.iputs = s.iputs ++ file.inode.toList) : s'.Owes due := by
  have hlt : f < s.nextFile := by
    by_contra hge
    rw [h.fresh f (Nat.le_of_not_lt hge)] at hfile
    cases hfile
  constructor
  · intro x hx
    rw [hnext] at hx
    rw [hf, Function.update_of_ne (by omega)]
    exact h.fresh x hx
  · intro r
    have hcell := inodeRefs_update hlt hnext hf r
    have hcount := h.count r
    rw [hfile, hv, Option.bind_some] at hcell
    rw [hputs, List.count_append]
    cases hi : file.inode with
    | none =>
      simp [hi] at hcell ⊢
      omega
    | some x =>
      by_cases e : x = r
      · subst e
        simp [hi] at hcell ⊢
        omega
      · simp [hi, e] at hcell ⊢
        omega

theorem fput (f : Nat) : (s.fput f).Owes due := by
  unfold Files.fput
  cases hfile : s.file f with
  | none => exact h
  | some file =>
    dsimp only
    obtain ⟨pipe, freedPipes, heq⟩ := FileInv.pipeRelease_eq s { file with refcount := file.refcount - 1 }
    rw [heq]
    split_ifs with hpos huart
    · rw [← modifyFile_eq hfile fun file => { file with refcount := file.refcount - 1 }]
      exact h.modifyFile fun _ => rfl
    · exact h.release hfile (v := some { file with refcount := file.refcount - 1, inode := none }) rfl rfl rfl rfl
    · exact h.release hfile (v := none) rfl rfl rfl rfl

theorem installFdFrom {o : Option Fd} {minfd : Nat} (hs : s.installFdFrom p f minfd = (o, s')) :
    s'.Owes due := by
  unfold Files.installFdFrom at hs
  split at hs
  · cases hs
    exact h
  · cases hs
    exact (h.setSlot p _ _).setCloseOnExec p _ _

theorem closeFd (p fd : Nat) : (s.closeFd p fd).2.Owes due := by
  unfold Files.closeFd
  split
  · exact h
  · exact (h.setSlot p _ _).fput _

/-- A second reference goes into a free slot, or is dropped again. -/
theorem duplicate {minfd : Nat} {k : Files ι → Fd → Files ι} (f : Nat)
    (hk : ∀ s fd, s.Owes due → (k s fd).Owes due) :
    (match (s.getFile f).installFdFrom p f minfd with
      | (none, s) => ((.error .mfile, s.fput f) : Except Errno Nat × Files ι)
      | (some fd, s) => (.ok fd, k s fd)).2.Owes due := by
  cases hinst : (s.getFile f).installFdFrom p f minfd with
  | mk o s1 =>
    have h1 := (h.getFile f).installFdFrom hinst
    cases o with
    | none => exact h1.fput f
    | some fd => exact hk s1 fd h1

theorem dup (p oldfd : Nat) : (s.dup p oldfd).2.Owes due := by
  unfold Files.dup
  split
  · exact h
  · next fd f hlook => exact h.duplicate f fun s fd hs => hs

theorem dup3 (p oldfd newfd : Nat) (flags : BitVec 32) : (s.dup3 p oldfd newfd flags).2.Owes due := by
  unfold Files.dup3
  split_ifs with hflags hsame hlt
  · exact h
  · exact h
  · split
    · exact h
    · next fd f hlook =>
      have h1 := (h.getFile f).setSlot p ⟨newfd, hlt⟩ (some f)
      refine setCloseOnExec ?_ p ⟨newfd, hlt⟩ _
      split
      · exact h1
      · exact h1.fput _
  · exact h

theorem fcntl (p fd : Nat) (cmd : FcntlCmd) : (s.fcntl p fd cmd).2.Owes due := by
  unfold Files.fcntl
  split
  · exact h
  · next fd f hlook =>
    have hdup : ∀ minfd cloexec, (s.dupfd p f minfd cloexec).2.Owes due := by
      intro minfd cloexec
      unfold dupfd
      split_ifs
      · exact h
      · exact h.duplicate f fun s fd hs => hs.setCloseOnExec p fd cloexec
    cases cmd with
    | dupfd minfd => exact hdup minfd false
    | dupfdCloexec minfd => exact hdup minfd true
    | getfd => exact h
    | setfd arg =>
      dsimp only
      split_ifs
      · exact h
      · exact h.setCloseOnExec p fd _
    | getfl => exact h
    | setfl arg => exact h.modifyFile fun _ => rfl
    | other => exact h

theorem exitSlot (p : Nat) (fd : Fd) : (s.exitSlot p fd).Owes due := by
  unfold Files.exitSlot
  split
  · exact h
  · exact (h.fput _).setSlot p fd none

end

theorem foldl {k : Files ι → Fd → Files ι} (hk : ∀ s fd, s.Owes due → (k s fd).Owes due) :
    ∀ (l : List Fd) {s : Files ι}, s.Owes due → (l.foldl k s).Owes due
  | [], _, h => h
  | fd :: l, _, h => foldl hk l (hk _ fd h)

variable (h : s.Owes due)
include h

theorem fork (p : Nat) : (s.fork p).Owes due := by
  refine foldl (fun s fd hs => ?_) _ (h.congr (fun _ => rfl) (fun _ hx => hx) rfl rfl)
  unfold copySlot
  split
  · exact hs.setSlot _ fd none
  · exact (hs.setSlot _ fd _).getFile _

theorem exit (p : Nat) : (s.exit p).Owes due := by
  have hslots : (s.exitFiles p).Owes due := foldl (fun s fd hs => hs.exitSlot p fd) _ h
  exact hslots.congr (fun _ => rfl) (fun _ hx => hx) rfl rfl

theorem closeOnExecFds (p : Nat) : (s.closeOnExecFds p).Owes due := by
  refine foldl (fun s fd hs => ?_) _ h
  unfold execSlot
  split_ifs
  · exact (hs.exitSlot p fd).setCloseOnExec p fd false
  · exact hs

theorem kmalloc {b : Bool} (hs : s.kmalloc = (b, s')) : s'.Owes due := by
  unfold Files.kmalloc at hs
  split at hs <;> cases hs <;> exact h.congr (fun _ => rfl) (fun _ hx => hx) rfl rfl

theorem allocFile {o : Option Nat} (hs : s.allocFile = (o, s')) :
    s'.Owes due ∧ ∀ f, o = some f → f < s'.nextFile ∧ ∃ file, s'.file f = some file ∧ file.inode = none := by
  unfold Files.allocFile at hs
  split at hs
  · next s1 hk =>
    cases hs
    exact ⟨h.kmalloc hk, fun f hf => by cases hf⟩
  · next s1 hk =>
    have h1 := h.kmalloc hk
    cases hs
    refine ⟨⟨?_, ?_⟩, ?_⟩
    · intro x hx
      have hx' : s1.nextFile + 1 ≤ x := hx
      refine Eq.trans (Function.update_of_ne (by omega) ..) (h1.fresh x (by omega))
    · intro r
      rw [← h1.count r]
      have hsum : ∀ x ∈ Finset.range s1.nextFile,
          (if (Function.update s1.file s1.nextFile (some ⟨1, none, none, 0⟩) x).bind File.inode =
            some r then 1 else 0) =
            if (s1.file x).bind File.inode = some r then 1 else 0 := by
        intro x hx
        rw [Function.update_of_ne (Finset.mem_range.1 hx).ne]
      show (∑ x ∈ Finset.range (s1.nextFile + 1),
        if (Function.update s1.file s1.nextFile (some ⟨1, none, none, 0⟩) x).bind File.inode = some r then 1 else 0) +
          s1.iputs.count r = s1.inodeRefs r + s1.iputs.count r
      rw [Finset.sum_range_succ, Finset.sum_congr rfl hsum, Function.update_self]
      simp [inodeRefs]
    · rintro f ⟨⟩
      exact ⟨Nat.lt_succ_self _, _, Function.update_self .., rfl⟩

theorem take {file : File ι} (hlt : f < s.nextFile) (hfile : s.file f = some file)
    (hnone : file.inode = none) (inode : ι) (flags : BitVec 32) :
    (s.modifyFile f fun file => { file with inode := some inode, flags := flags }).Owes
      fun r => due r + if inode = r then 1 else 0 := by
  rw [modifyFile_eq hfile]
  constructor
  · intro x hx
    have hx' : s.nextFile ≤ x := hx
    exact Eq.trans (Function.update_of_ne (by omega) ..) (h.fresh x hx')
  · intro r
    have hnext : (s.setFile f { file with inode := some inode, flags := flags }).nextFile = s.nextFile := rfl
    have hcell := inodeRefs_update hlt hnext rfl r
    have hcount := h.count r
    simp only [hfile, Option.bind_some, hnone, reduceCtorEq, if_false, Option.some.injEq] at hcell
    rw [← hcount]
    show _ + s.iputs.count r = _
    omega

/-- `openat` takes over the reference of its lookup. -/
theorem openFile (p : Nat) (inode : ι) (flags : BitVec 32) (onFail : Errno) :
    (s.openFile p inode flags onFail).2.Owes fun r => due r + if inode = r then 1 else 0 := by
  unfold Files.openFile
  cases halloc : s.allocFile with
  | mk o s1 =>
    obtain ⟨h1, hfile⟩ := h.allocFile halloc
    cases o with
    | none =>
      refine ⟨h1.fresh, fun r => ?_⟩
      have hcount := h1.count r
      dsimp only
      rw [List.count_append, List.count_singleton, ← hcount, Nat.add_assoc]
      simp [inodeRefs]
    | some f =>
      obtain ⟨hlt, file, hf, hnone⟩ := hfile f rfl
      have h2 := h1.take hlt hf hnone inode flags
      dsimp only
      unfold Files.installFdFlags Files.installFd
      generalize s1.modifyFile f _ = s2 at h2
      cases hinst : s2.installFdFrom p f 0 with
      | mk o s3 =>
        have h3 := h2.installFdFrom hinst
        cases o with
        | none => exact h3.fput _
        | some fd =>
          dsimp only
          split_ifs
          · exact h3.setCloseOnExec p fd true
          · exact h3

end Owes

theorem init_owes (ι : Type) [DecidableEq ι] (allocs : List Bool) : (init ι allocs).Owes fun _ => 0 := by
  have huart : Files.Owes (⟨Function.update (fun _ => none) uartFile (some ⟨0, none, none, 0⟩), 1, fun _ => none, 0,
      Function.update (fun _ => none) 1 (some ⟨fun _ => none, fun _ => false⟩), 2, allocs, [], [], []⟩ : Files ι)
      fun _ => 0 := by
    constructor
    · intro f hf
      have hne : f ≠ uartFile := Nat.ne_of_gt hf
      simp [hne]
    · intro r
      simp [inodeRefs, uartFile]
  exact (((((huart.getFile _).setSlot _ _ _).getFile _).setSlot _ _ _).getFile _).setSlot _ _ _

end Files

end MiniOs.Fs
