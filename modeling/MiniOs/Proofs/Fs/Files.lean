/-
Reference counts of open files and pipe ends. `hand` lists the references a call holds in local
variables; between calls it is empty, and every count is the number of descriptor slots. A live pipe has
as many readers and writers as it has live files of either kind, which is at most one each.
-/
import MiniOs.Fs.Files
import MiniOs.Library.Run
import MiniOs.Library.Sums
import Mathlib.Data.Fintype.BigOperators

namespace MiniOs.Fs

open Library

namespace Files

variable {ι : Type} {s s' : Files ι} {f g p q r w : Nat} {fd : Fd} {v : Option Nat} {hand hand' : List Nat}
  {raw raw' : Option Nat} {b : Bool}

/-! ## Slots -/

theorem isSome_of_slot (hslot : s.slot p fd = some f) : (s.table p).isSome := by
  unfold slot at hslot
  cases htable : s.table p with
  | none => simp [htable] at hslot
  | some t => rfl

/-- How many descriptor slots hold a file. -/
def uses (s : Files ι) (f : Nat) : Nat :=
  ∑ x ∈ Finset.range s.nextPid ×ˢ (Finset.univ : Finset Fd), if s.slot x.1 x.2 = some f then 1 else 0

theorem slot_setSlot (hp : (s.table p).isSome) (fd : Fd) (v : Option Nat) (x : Nat × Fd) :
    (s.setSlot p fd v).slot x.1 x.2 = Function.update (fun x : Nat × Fd => s.slot x.1 x.2) (p, fd) v x := by
  obtain ⟨t, ht⟩ := Option.isSome_iff_exists.1 hp
  obtain ⟨q, fd'⟩ := x
  unfold slot setSlot
  by_cases hq : q = p
  · subst hq
    by_cases hfd : fd' = fd
    · subst hfd
      simp [ht]
    · simp [ht, hfd]
  · simp [hq]

theorem uses_setSlot (hp : (s.table p).isSome) (hlt : p < s.nextPid) (fd : Fd) (v : Option Nat) (f : Nat) :
    (s.setSlot p fd v).uses f + (if s.slot p fd = some f then 1 else 0) = s.uses f + if v = some f then 1 else 0 := by
  have hmem : (p, fd) ∈ Finset.range s.nextPid ×ˢ (Finset.univ : Finset Fd) := by simpa using hlt
  obtain ⟨rest, hold, hnew⟩ := exists_sum_rest hmem (fun o : Option Nat => if o = some f then 1 else 0)
    fun x : Nat × Fd => s.slot x.1 x.2
  have hsum : (s.setSlot p fd v).uses f = rest + if v = some f then 1 else 0 := by
    rw [← hnew v]
    unfold uses
    refine Finset.sum_congr rfl fun x _ => ?_
    rw [slot_setSlot hp]
  have hsum' : s.uses f = rest + if s.slot p fd = some f then 1 else 0 := hold
  rw [hsum, hsum']
  omega

theorem uses_pos_of_slot (hlt : p < s.nextPid) (h : s.slot p fd = some f) : 0 < s.uses f := by
  have hmem : (p, fd) ∈ Finset.range s.nextPid ×ˢ (Finset.univ : Finset Fd) := by simpa using hlt
  obtain ⟨rest, hold, -⟩ := exists_sum_rest hmem (fun o : Option Nat => if o = some f then 1 else 0)
    fun x : Nat × Fd => s.slot x.1 x.2
  have hsum : s.uses f = rest + if s.slot p fd = some f then 1 else 0 := hold
  rw [hsum, if_pos h]
  omega

@[simp] theorem slot_setCloseOnExec (s : Files ι) (p : Nat) (fd : Fd) (on : Bool) (q : Nat) (fd' : Fd) :
    (s.setCloseOnExec p fd on).slot q fd' = s.slot q fd' := by
  unfold slot setCloseOnExec
  by_cases hq : q = p
  · subst hq
    cases h : s.table q <;> simp
  · simp [hq]

/-! ## The invariant for files -/

theorem modifyFile_eq {file : File ι} (hfile : s.file f = some file) (k : File ι → File ι) :
    s.modifyFile f k = s.setFile f (k file) := by
  unfold Files.modifyFile Files.setFile
  rw [hfile]
  rfl

/-- A file's count is the number of slots and hands that hold it; it is live while there are any, and
kfreed once when there are none. -/
structure FileInv (s : Files ι) (hand : List Nat) : Prop where
  counted : ∀ f file, s.file f = some file → file.refcount = (s.uses f + hand.count f : Nat)
  live : ∀ f, 0 < s.uses f + hand.count f → (s.file f).isSome
  needed : ∀ f, f ≠ uartFile → (s.file f).isSome → 0 < s.uses f + hand.count f
  fresh : ∀ f, s.nextFile ≤ f → s.file f = none ∧ f ∉ s.freedFiles
  freed : ∀ f, f < s.nextFile → (s.file f = none ↔ f ∈ s.freedFiles)
  freedOnce : s.freedFiles.Nodup
  uart : (s.file uartFile).isSome
  pids : ∀ p, (s.table p).isSome → p < s.nextPid

variable {k : File ι → File ι}

namespace FileInv

theorem live_of_slot (h : s.FileInv hand) (hslot : s.slot p fd = some f) : (s.file f).isSome := by
  apply h.live
  have := uses_pos_of_slot (h.pids p (isSome_of_slot hslot)) hslot
  omega

theorem live_of_mem (h : s.FileInv hand) (hmem : f ∈ hand) : (s.file f).isSome := by
  apply h.live
  have := List.count_pos_iff.2 hmem
  omega

/-- A change of the tables that moves references between slots and hands. -/
theorem move (h : s.FileInv hand) (hfile : s'.file = s.file) (hnext : s'.nextFile = s.nextFile)
    (hfreed : s'.freedFiles = s.freedFiles) (hpids : ∀ p, (s'.table p).isSome → p < s'.nextPid)
    (hsum : ∀ f, s'.uses f + hand'.count f = s.uses f + hand.count f) : s'.FileInv hand' where
  counted f file hf := by
    rw [hsum]
    exact h.counted f file (hfile ▸ hf)
  live f hpos := by
    rw [hfile]
    exact h.live f (hsum f ▸ hpos)
  needed f hne hlive := by
    rw [hsum]
    exact h.needed f hne (hfile ▸ hlive)
  fresh f hf := by
    rw [hfile, hfreed]
    exact h.fresh f (hnext ▸ hf)
  freed f hf := by
    rw [hfile, hfreed]
    exact h.freed f (hnext ▸ hf)
  freedOnce := hfreed ▸ h.freedOnce
  uart := hfile ▸ h.uart
  pids := hpids

theorem setSlot (h : s.FileInv hand) (hp : (s.table p).isSome)
    (hhand : ∀ f, hand'.count f + (if v = some f then 1 else 0) =
      hand.count f + if s.slot p fd = some f then 1 else 0) : (s.setSlot p fd v).FileInv hand' := by
  refine h.move rfl rfl rfl ?_ ?_
  · intro q hq
    by_cases hqp : q = p
    · subst hqp
      exact h.pids q hp
    · exact h.pids q (by simpa [Files.setSlot, hqp] using hq)
  · intro f
    have := uses_setSlot hp (h.pids p hp) fd v f
    have := hhand f
    omega

/-- A reference goes from a hand into a free slot. -/
theorem fill (h : s.FileInv (f :: hand)) (hp : (s.table p).isSome) (hfree : s.slot p fd = none) :
    (s.setSlot p fd (some f)).FileInv hand := by
  refine h.setSlot hp fun g => ?_
  simp only [hfree, List.count_cons, Option.some.injEq, beq_iff_eq]
  split_ifs <;> simp_all

section

variable (h : s.FileInv hand)
include h

/-- A reference goes from a slot into a hand. -/
theorem clear (hslot : s.slot p fd = some f) : (s.setSlot p fd none).FileInv (f :: hand) := by
  refine h.setSlot (isSome_of_slot hslot) fun g => ?_
  simp only [hslot, List.count_cons, Option.some.injEq, beq_iff_eq]
  split_ifs <;> simp_all

theorem setCloseOnExec (p : Nat) (fd : Fd) (on : Bool) :
    (s.setCloseOnExec p fd on).FileInv hand := by
  refine h.move rfl rfl rfl ?_ fun f => ?_
  · intro q hq
    apply h.pids q
    by_cases hqp : q = p
    · subst hqp
      simpa [Files.setCloseOnExec] using hq
    · simpa [Files.setCloseOnExec, hqp] using hq
  · unfold uses
    simp only [slot_setCloseOnExec]
    rfl

/-- The cell of one file changes, with the hands that hold the file. -/
theorem put {o : Option (File ι)} {n : Nat} {l : List Nat}
    (hothers : ∀ g, g ≠ f → hand'.count g = hand.count g ∧ (n ≤ g ↔ s.nextFile ≤ g) ∧ (g ∈ l ↔ g ∈ s.freedFiles))
    (hnodup : l.Nodup) (hcounted : ∀ file, o = some file → file.refcount = (s.uses f + hand'.count f : Nat))
    (hlive : 0 < s.uses f + hand'.count f → o.isSome) (hneeded : f ≠ uartFile → o.isSome → 0 < s.uses f + hand'.count f)
    (hfresh : n ≤ f → o = none ∧ f ∉ l) (hfreed : f < n → (o = none ↔ f ∈ l)) (huart : uartFile = f → o.isSome) :
    FileInv { s with file := Function.update s.file f o, nextFile := n, freedFiles := l } hand' := by
  have hcell : ∀ {g}, g ≠ f → Function.update s.file f o g = s.file g := fun hg => Function.update_of_ne hg ..
  refine ⟨fun g file hg => ?_, fun g hpos => ?_, fun g hne hg => ?_, fun g hg => ?_, fun g hg => ?_, hnodup, ?_, h.pids⟩
  · by_cases e : g = f
    · subst e
      exact hcounted file (by simpa using hg)
    · rw [(hothers g e).1]
      exact h.counted g file ((hcell e).symm.trans hg)
  · by_cases e : g = f
    · subst e
      simpa using hlive hpos
    · rw [(hothers g e).1] at hpos
      simpa [hcell e] using h.live g hpos
  · by_cases e : g = f
    · subst e
      exact hneeded hne (by simpa using hg)
    · rw [(hothers g e).1]
      exact h.needed g hne (by simpa [hcell e] using hg)
  · by_cases e : g = f
    · subst e
      simpa using hfresh hg
    · obtain ⟨-, hn, hl⟩ := hothers g e
      simpa [hcell e, hl] using h.fresh g (hn.1 hg)
  · by_cases e : g = f
    · subst e
      simpa using hfreed hg
    · obtain ⟨-, hn, hl⟩ := hothers g e
      simpa [hcell e, hl] using h.freed g (not_le.1 (mt hn.2 (not_le.2 hg)))
  · by_cases e : uartFile = f
    · subst e
      simpa using huart rfl
    · simpa [hcell e] using h.uart

theorem known (hlive : (s.file f).isSome) : f < s.nextFile ∧ f ∉ s.freedFiles := by
  have hlt : f < s.nextFile := by
    by_contra hge
    rw [(h.fresh f (not_lt.1 hge)).1] at hlive
    cases hlive
  refine ⟨hlt, fun hmem => ?_⟩
  rw [(h.freed f hlt).2 hmem] at hlive
  cases hlive

/-- A change of a live file, together with the hands that hold it. -/
theorem setFile {file : File ι} (hlive : (s.file f).isSome)
    (hcount : ∀ g, g ≠ f → hand'.count g = hand.count g)
    (href : file.refcount = (s.uses f + hand'.count f : Nat)) (hneed : f ≠ uartFile → 0 < s.uses f + hand'.count f) :
    (s.setFile f file).FileInv hand' := by
  obtain ⟨hlt, hmem⟩ := h.known hlive
  refine h.put (fun g hg => ⟨hcount g hg, Iff.rfl, Iff.rfl⟩) h.freedOnce ?_ (fun _ => rfl) (fun hne _ => hneed hne)
    (fun hle => absurd hlt (not_lt.2 hle)) (fun _ => by simpa using hmem) fun _ => rfl
  rintro file' ⟨⟩
  exact href

theorem getFile (hlive : (s.file f).isSome) : (s.getFile f).FileInv (f :: hand) := by
  obtain ⟨file, hfile⟩ := Option.isSome_iff_exists.1 hlive
  unfold Files.getFile
  rw [modifyFile_eq hfile]
  refine h.setFile hlive (fun g hg => List.count_cons_of_ne (Ne.symm hg)) ?_ ?_
  · have := h.counted f file hfile
    simp only [List.count_cons_self]
    omega
  · intro _
    simp only [List.count_cons_self]
    omega

theorem modifyFile (hlive : (s.file f).isSome)
    (hk : ∀ file, (k file).refcount = file.refcount) : (s.modifyFile f k).FileInv hand := by
  obtain ⟨file, hfile⟩ := Option.isSome_iff_exists.1 hlive
  rw [modifyFile_eq hfile]
  refine h.setFile hlive (fun _ _ => rfl) ?_ fun hne => h.needed f hne hlive
  rw [hk]
  exact h.counted f file hfile

theorem kmalloc (b : Bool) (hs : s.kmalloc = (b, s')) : s'.FileInv hand := by
  unfold Files.kmalloc at hs
  split at hs <;> cases hs
  · exact h
  · exact h.move rfl rfl rfl h.pids fun _ => rfl

theorem uses_fresh : s.uses s.nextFile = 0 ∧ hand.count s.nextFile = 0 := by
  have hnone := (h.fresh s.nextFile le_rfl).1
  have := mt (h.live s.nextFile) (by simp [hnone])
  omega

theorem allocFile (hs : s.allocFile = (some f, s')) : s'.FileInv (f :: hand) := by
  unfold Files.allocFile at hs
  split at hs
  · cases hs
  · next s1 hk =>
    have h1 := h.kmalloc true hk
    simp only [Prod.mk.injEq, Option.some.injEq] at hs
    obtain ⟨rfl, rfl⟩ := hs
    obtain ⟨huses, hcount⟩ := h1.uses_fresh
    refine h1.put (fun g hg => ⟨List.count_cons_of_ne (Ne.symm hg), by omega, Iff.rfl⟩) h1.freedOnce ?_
      (fun _ => rfl) ?_
      (fun hle => by omega) (fun _ => by simpa [Files.setFile] using (h1.fresh s1.nextFile le_rfl).2) fun _ => rfl
    · rintro file ⟨⟩
      rw [huses, List.count_cons_self, hcount]
      rfl
    · intro _ _
      rw [List.count_cons_self]
      omega

theorem kfreeFile (hlive : (s.file f).isSome) (hne : f ≠ uartFile)
    (hcount : ∀ g, g ≠ f → hand'.count g = hand.count g) (hzero : s.uses f + hand'.count f = 0) :
    (s.kfreeFile f).FileInv hand' := by
  obtain ⟨hlt, hmem⟩ := h.known hlive
  refine h.put (fun g hg => ⟨hcount g hg, Iff.rfl, by simp [hg]⟩)
    (h.freedOnce.append (List.nodup_singleton f) (by simpa using hmem))
    (by simp) (fun hpos => by omega) (by simp) (fun hle => absurd hlt (not_lt.2 hle)) (by simp) fun he =>
      absurd he.symm hne

end

theorem pipeRelease_eq (s : Files ι) (file : File ι) :
    ∃ pipe freedPipes, s.pipeRelease file = { s with pipe := pipe, freedPipes := freedPipes } := by
  unfold Files.pipeRelease
  split
  · exact ⟨_, _, rfl⟩
  · split
    · exact ⟨_, _, rfl⟩
    · dsimp only
      split_ifs
      · exact ⟨_, _, rfl⟩
      · exact ⟨_, _, rfl⟩

theorem pipeRelease_file (s : Files ι) (file : File ι) : (s.pipeRelease file).file = s.file := by
  obtain ⟨pipe, freedPipes, heq⟩ := pipeRelease_eq s file
  rw [heq]

/-- `fput` drops the reference of a hand. -/
theorem fput (h : s.FileInv (f :: hand)) : (s.fput f).FileInv hand := by
  have hlive := h.live_of_mem (List.mem_cons_self ..)
  obtain ⟨file, hfile⟩ := Option.isSome_iff_exists.1 hlive
  have href := h.counted f file hfile
  rw [List.count_cons_self] at href
  have hcount : ∀ g, g ≠ f → hand.count g = (f :: hand).count g := fun g hg => (List.count_cons_of_ne (Ne.symm hg)).symm
  obtain ⟨pipe, freedPipes, heq⟩ := pipeRelease_eq s { file with refcount := file.refcount - 1 }
  have h1 : FileInv { s with pipe := pipe, freedPipes := freedPipes, iputs := s.iputs ++ file.inode.toList }
      (f :: hand) := h.move rfl rfl rfl h.pids fun _ => rfl
  unfold Files.fput
  rw [hfile]
  dsimp only
  rw [heq]
  split_ifs with hpos huart
  · refine h.setFile hlive hcount ?_ ?_
    · dsimp only
      omega
    · intro _
      omega
  · -- the last reference of the static file, which stays with a count of zero
    refine h1.setFile hlive hcount ?_ fun hne => absurd huart hne
    show file.refcount - 1 = ((s.uses f + hand.count f : Nat) : Int)
    omega
  · refine h1.kfreeFile hlive huart hcount ?_
    show s.uses f + hand.count f = 0
    omega

end FileInv

/-! ## The invariant for pipes -/

/-- `f` is the read end (`r`) or the write end of pipe `p`. -/
def End (s : Files ι) (p : Nat) (r : Bool) (f : Nat) : Prop :=
  ∃ file, s.file f = some file ∧ file.pipe = some p ∧ file.isRdonly = r

/-- `readers` or `writers`. -/
def openEnds (pipe : Pipe) (r : Bool) : Nat := if r then pipe.readers else pipe.writers

/-- A pipe counts its live ends, at most one of each kind, and is kfreed when there is none. `raw` is a
pipe whose ends have not been attached yet. -/
structure PipeOk (s : Files ι) (raw : Option Nat) (p : Nat) : Prop where
  ends : ∀ r f, s.End p r f → raw ≠ some p ∧ (s.pipe p).isSome
  alone : ∀ r f g, s.End p r f → s.End p r g → f = g
  counted : ∀ pipe r, s.pipe p = some pipe → raw ≠ some p →
    (openEnds pipe r = 1 ∧ ∃ f, s.End p r f) ∨ (openEnds pipe r = 0 ∧ ∀ f, ¬ s.End p r f)
  needed : (s.pipe p).isSome → raw ≠ some p → ∃ r f, s.End p r f
  rawLive : raw = some p → (s.pipe p).isSome
  fresh : s.nextPipe ≤ p → s.pipe p = none ∧ p ∉ s.freedPipes
  freed : p < s.nextPipe → (s.pipe p = none ↔ p ∈ s.freedPipes)

structure PipeInv (s : Files ι) (raw : Option Nat) : Prop where
  each : ∀ p, s.PipeOk raw p
  freedOnce : s.freedPipes.Nodup
  uart : ∀ file, s.file uartFile = some file → file.pipe = none

namespace PipeOk

theorem congr (h : s.PipeOk raw p) (hends : ∀ r f, s'.End p r f ↔ s.End p r f) (hpipe : s'.pipe p = s.pipe p)
    (hraw : raw' = some p ↔ raw = some p) (hnext : s'.nextPipe ≤ p ↔ s.nextPipe ≤ p)
    (hfreed : p ∈ s'.freedPipes ↔ p ∈ s.freedPipes) : s'.PipeOk raw' p where
  ends r f hf := by
    rw [hpipe, Ne, hraw]
    exact h.ends r f ((hends r f).1 hf)
  alone r f g hf hg := h.alone r f g ((hends r f).1 hf) ((hends r g).1 hg)
  counted pipe r hp hne := by
    simp only [hends]
    exact h.counted pipe r (hpipe ▸ hp) (mt hraw.2 hne)
  needed hp hne := by
    simp only [hends]
    exact h.needed (hpipe ▸ hp) (mt hraw.2 hne)
  rawLive hr := hpipe ▸ h.rawLive (hraw.1 hr)
  fresh hle := by
    rw [hpipe, hfreed]
    exact h.fresh (hnext.1 hle)
  freed hlt := by
    rw [hpipe, hfreed]
    exact h.freed (not_le.1 (mt hnext.2 (not_le.2 hlt)))

theorem lt (h : s.PipeOk raw p) (hlive : (s.pipe p).isSome) : p < s.nextPipe := by
  by_contra hge
  rw [(h.fresh (not_lt.1 hge)).1] at hlive
  cases hlive

theorem not_freed (h : s.PipeOk raw p) (hlive : (s.pipe p).isSome) : p ∉ s.freedPipes := fun hmem => by
  rw [(h.freed (h.lt hlive)).2 hmem] at hlive
  cases hlive

theorem dead (hnone : s.pipe p = none) (hraw : raw ≠ some p) (hno : ∀ r f, ¬ s.End p r f) (hlt : p < s.nextPipe)
    (hmem : p ∈ s.freedPipes) : s.PipeOk raw p where
  ends r f hf := absurd hf (hno r f)
  alone r f _ hf := absurd hf (hno r f)
  counted pipe _ hp := by simp [hnone] at hp
  needed hp := by simp [hnone] at hp
  rawLive hr := absurd hr hraw
  fresh hle := absurd hlt (not_lt.2 hle)
  freed _ := by simp [hnone, hmem]

end PipeOk

namespace PipeInv

/-- A change that leaves the ends and the pipes alone. -/
theorem congr (h : s.PipeInv raw) (hends : ∀ p r f, s'.End p r f ↔ s.End p r f) (hpipe : s'.pipe = s.pipe)
    (hnext : s'.nextPipe = s.nextPipe) (hfreed : s'.freedPipes = s.freedPipes)
    (huart : ∀ file, s'.file uartFile = some file → file.pipe = none) : s'.PipeInv raw where
  each p := (h.each p).congr (hends p) (by rw [hpipe]) Iff.rfl (by rw [hnext]) (by rw [hfreed])
  freedOnce := hfreed ▸ h.freedOnce
  uart := huart

/-- A change that leaves the files and pipes alone. -/
theorem same (h : s.PipeInv raw) (hfile : s'.file = s.file) (hpipe : s'.pipe = s.pipe)
    (hnext : s'.nextPipe = s.nextPipe) (hfreed : s'.freedPipes = s.freedPipes) : s'.PipeInv raw :=
  h.congr (fun p r f => by unfold End; rw [hfile]) hpipe hnext hfreed fun file hf => h.uart file (hfile ▸ hf)

theorem end_modifyFile (hpipe : ∀ file, (k file).pipe = file.pipe)
    (hflags : ∀ file, (k file).isRdonly = file.isRdonly) (p : Nat) (r : Bool) (g : Nat) :
    (s.modifyFile f k).End p r g ↔ s.End p r g := by
  unfold End Files.modifyFile
  by_cases hgf : g = f
  · subst hgf
    cases hfile : s.file g with
    | none => simp
    | some file => simp [hpipe, hflags]
  · simp [hgf]

theorem modifyFile (h : s.PipeInv raw) (hpipe : ∀ file, (k file).pipe = file.pipe)
    (hflags : ∀ file, (k file).isRdonly = file.isRdonly) : (s.modifyFile f k).PipeInv raw := by
  refine h.congr (end_modifyFile hpipe hflags) rfl rfl rfl fun file hfile => ?_
  by_cases hu : uartFile = f
  · subst hu
    simp only [Files.modifyFile, Function.update_self] at hfile
    obtain ⟨old, hold, rfl⟩ := Option.map_eq_some_iff.1 hfile
    rw [hpipe]
    exact h.uart old hold
  · simp only [Files.modifyFile, Function.update_of_ne hu] at hfile
    exact h.uart file hfile

theorem kmalloc (h : s.PipeInv raw) (hs : s.kmalloc = (b, s')) : s'.PipeInv raw := by
  unfold Files.kmalloc at hs
  split at hs <;> cases hs
  · exact h
  · exact h.same rfl rfl rfl rfl

theorem update {o : Option (File ι)} (h : s.PipeInv raw) (hold : ∀ file, s.file f = some file → file.pipe = none)
    (hnew : ∀ file, o = some file → file.pipe = none) : PipeInv { s with file := Function.update s.file f o } raw := by
  refine h.congr (fun p r g => ?_) rfl rfl rfl fun file hfile => ?_
  · unfold End
    by_cases hgf : g = f
    · subst hgf
      constructor
      · rintro ⟨file, hfile, hp, -⟩
        rw [hnew file (by simpa using hfile)] at hp
        cases hp
      · rintro ⟨file, hfile, hp, -⟩
        rw [hold file hfile] at hp
        cases hp
    · simp [hgf]
  · by_cases hu : uartFile = f
    · subst hu
      exact hnew file (by simpa using hfile)
    · exact h.uart file (by simpa [hu] using hfile)

theorem openEnds_release (pipe : Pipe) (r r' : Bool) :
    openEnds (pipe.release r) r' = if r' = r then openEnds pipe r - 1 else openEnds pipe r' := by
  cases r <;> cases r' <;> rfl

theorem openEnds_eq_zero (pipe : Pipe) : (pipe.readers = 0 ∧ pipe.writers = 0) ↔ ∀ r, openEnds pipe r = 0 := by
  constructor
  · rintro ⟨hr, hw⟩ r
    cases r
    · exact hw
    · exact hr
  · intro h
    exact ⟨h true, h false⟩

/-- The release of an end, with the file gone: the pipe counts one end less, or is freed with the last. -/
theorem release {file : File ι} (h : s.PipeInv raw) (hfile : s.file f = some file) (hne : f ≠ uartFile) :
    PipeInv { s.pipeRelease file with file := Function.update s.file f none } raw := by
  unfold Files.pipeRelease
  cases hp : file.pipe with
  | none =>
    refine h.update ?_ (by simp)
    intro file' hfile'
    rw [hfile] at hfile'
    cases hfile'
    exact hp
  | some p =>
    have hend : s.End p file.isRdonly f := ⟨file, hfile, hp, rfl⟩
    obtain ⟨hraw, hlive⟩ := (h.each p).ends _ _ hend
    obtain ⟨pipe, hpipe⟩ := Option.isSome_iff_exists.1 hlive
    -- the ends that remain
    have hends : ∀ pipes freed q r g,
        End { s with file := Function.update s.file f none, pipe := pipes, freedPipes := freed } q r g ↔
          s.End q r g ∧ g ≠ f := by
      intro pipes freed q r g
      unfold End
      by_cases hgf : g = f
      · simp [hgf]
      · simp [hgf]
    have hothers : ∀ q r g, q ≠ p → s.End q r g → g ≠ f := by
      rintro q r g hq ⟨file', hfile', hp', -⟩ rfl
      rw [hfile] at hfile'
      cases hfile'
      rw [hp] at hp'
      cases hp'
      exact hq rfl
    -- what the counters say about them
    have hcount : ∀ r, (openEnds (pipe.release file.isRdonly) r = 1 ∧ ∃ g, s.End p r g ∧ g ≠ f) ∨
        (openEnds (pipe.release file.isRdonly) r = 0 ∧ ∀ g, ¬ (s.End p r g ∧ g ≠ f)) := by
      intro r
      rw [openEnds_release]
      split_ifs with hr
      · subst hr
        right
        refine ⟨?_, fun g hg => hg.2 ((h.each p).alone _ _ _ hg.1 hend)⟩
        rcases (h.each p).counted pipe file.isRdonly hpipe hraw with ⟨hone, -⟩ | ⟨hzero, -⟩ <;> omega
      · have hgf : ∀ g, s.End p r g → g ≠ f := by
          rintro g ⟨file', hfile', -, hr'⟩ rfl
          rw [hfile] at hfile'
          cases hfile'
          exact hr hr'.symm
        rcases (h.each p).counted pipe r hpipe hraw with ⟨hone, g, hg⟩ | ⟨hzero, hno⟩
        · exact Or.inl ⟨hone, g, hg, hgf g hg⟩
        · exact Or.inr ⟨hzero, fun g hg => hno g hg.1⟩
    have huart : ∀ file', Function.update s.file f none uartFile = some file' → file'.pipe = none := by
      intro file' hfile'
      rw [Function.update_of_ne (Ne.symm hne)] at hfile'
      exact h.uart file' hfile'
    simp only [hpipe]
    split_ifs with hzero
    · rw [openEnds_eq_zero] at hzero
      refine ⟨fun q => ?_, ?_, huart⟩
      · by_cases hq : q = p
        · subst hq
          refine .dead (by simp [kfreePipe]) hraw (fun r g hg => ?_) ((h.each q).lt hlive) (by simp [kfreePipe])
          rcases hcount r with ⟨hone, -⟩ | ⟨-, hno⟩
          · rw [hzero r] at hone
            cases hone
          · exact hno g ((hends _ _ q r g).1 hg)
        · refine (h.each q).congr (fun r g => ?_) (by simp [kfreePipe, hq]) Iff.rfl Iff.rfl (by simp [kfreePipe, hq])
          exact (hends _ _ q r g).trans (and_iff_left_of_imp (hothers q r g hq))
      · exact h.freedOnce.append (List.nodup_singleton p) (by simpa using (h.each p).not_freed hlive)
    · rw [openEnds_eq_zero] at hzero
      push Not at hzero
      obtain ⟨r, hr⟩ := hzero
      refine ⟨fun q => ?_, h.freedOnce, huart⟩
      by_cases hq : q = p
      · subst hq
        refine ⟨fun r g _ => ⟨hraw, by simp⟩, fun r g g' hg hg' => ?_, fun pipe' r' hpipe' _ => ?_, fun _ _ => ?_,
          fun hr' => absurd hr' hraw, fun hle => absurd ((h.each q).lt hlive) (not_lt.2 hle), fun _ => ?_⟩
        · exact (h.each q).alone r g g' ((hends _ _ q r g).1 hg).1 ((hends _ _ q r g').1 hg').1
        · simp only [Function.update_self, Option.some.injEq] at hpipe'
          subst hpipe'
          simp only [hends]
          exact hcount r'
        · rcases hcount r with ⟨-, g, hg⟩ | ⟨hzero, -⟩
          · exact ⟨r, g, (hends _ _ q r g).2 hg⟩
          · exact absurd hzero hr
        · simpa using (h.each q).not_freed hlive
      · refine (h.each q).congr (fun r g => ?_) (by simp [hq]) Iff.rfl Iff.rfl Iff.rfl
        exact (hends _ _ q r g).trans (and_iff_left_of_imp (hothers q r g hq))

theorem fput (h : s.PipeInv raw) (f : Nat) : (s.fput f).PipeInv raw := by
  unfold Files.fput
  cases hfile : s.file f with
  | none => exact h
  | some file =>
    dsimp only
    split_ifs with hpos huart
    · rw [← modifyFile_eq hfile fun file => { file with refcount := file.refcount - 1 }]
      exact h.modifyFile (fun _ => rfl) fun _ => rfl
    · subst huart
      have hplain : s.pipeRelease { file with refcount := file.refcount - 1 } = s := by
        unfold Files.pipeRelease
        simp only [h.uart file hfile]
      rw [hplain]
      refine PipeInv.same (h.update (f := uartFile)
        (o := some { file with refcount := file.refcount - 1, inode := none })
        h.uart ?_) rfl rfl rfl rfl
      intro file' hfile'
      cases hfile'
      exact h.uart file hfile
    · refine (h.release hfile huart).same ?_ rfl rfl rfl
      simp [Files.kfreeFile, FileInv.pipeRelease_file]

theorem allocFile {o : Option Nat} (h : s.PipeInv raw) (hfresh : ∀ f, s.nextFile ≤ f → s.file f = none)
    (hs : s.allocFile = (o, s')) : s'.PipeInv raw := by
  unfold Files.allocFile at hs
  split at hs
  · next s1 hk =>
    cases hs
    exact h.kmalloc hk
  · next s1 hk =>
    have hfile : s1.file s1.nextFile = none := by
      unfold Files.kmalloc at hk
      split at hk <;> cases hk <;> exact hfresh _ le_rfl
    cases hs
    refine PipeInv.same ((h.kmalloc hk).update (f := s1.nextFile) (o := some ⟨1, none, none, 0⟩) ?_ ?_) rfl rfl rfl rfl
    · intro file hf
      rw [hfile] at hf
      cases hf
    · intro file hf
      cases hf
      rfl

/-- A new pipe, whose ends are still to come. -/
theorem allocPipe {buf : Nat → UInt8} (h : s.PipeInv none) (hs : s.allocPipe buf = (some q, s')) :
    s'.PipeInv (some q) ∧ s'.pipe q = some (.create buf) ∧ s'.file = s.file := by
  unfold Files.allocPipe at hs
  split at hs
  · cases hs
  · next s1 hk =>
    have h1 := h.kmalloc hk
    have hfile : s1.file = s.file := by
      unfold Files.kmalloc at hk
      split at hk <;> cases hk <;> rfl
    simp only [Prod.mk.injEq, Option.some.injEq] at hs
    obtain ⟨rfl, rfl⟩ := hs
    refine ⟨⟨fun p => ?_, h1.freedOnce, h1.uart⟩, by simp, hfile⟩
    have hnone := ((h1.each s1.nextPipe).fresh le_rfl).1
    by_cases hp : p = s1.nextPipe
    · subst hp
      have hno : ∀ r f, ¬ s1.End s1.nextPipe r f := fun r f hf => by
        have := ((h1.each s1.nextPipe).ends r f hf).2
        rw [hnone] at this
        cases this
      exact {
        ends := fun r f hf => absurd hf (hno r f)
        alone := fun r f _ hf => absurd hf (hno r f)
        counted := fun _ _ _ hne => absurd rfl hne
        needed := fun _ hne => absurd rfl hne
        rawLive := fun _ => by simp
        fresh := fun hle => absurd hle (by simp)
        freed := fun _ => by simpa using ((h1.each s1.nextPipe).fresh le_rfl).2 }
    · refine (h1.each p).congr (fun r f => Iff.rfl) (by simp [hp]) (by simp [Ne.symm hp]) ?_ Iff.rfl
      show s1.nextPipe + 1 ≤ p ↔ s1.nextPipe ≤ p
      omega

theorem kfreePipe (h : s.PipeInv (some q)) : (s.kfreePipe q).PipeInv none := by
  have hlive := (h.each q).rawLive rfl
  refine ⟨fun p => ?_, ?_, h.uart⟩
  · by_cases hp : p = q
    · subst hp
      refine .dead (by simp [Files.kfreePipe]) (by simp) (fun r f hf => ?_) ((h.each p).lt hlive)
        (by simp [Files.kfreePipe])
      exact ((h.each p).ends r f hf).1 rfl
    · exact (h.each p).congr (fun _ _ => Iff.rfl) (by simp [Files.kfreePipe, hp]) (by simp [Ne.symm hp]) Iff.rfl
        (by simp [Files.kfreePipe, hp])
  · exact h.freedOnce.append (List.nodup_singleton q) (by simpa using (h.each q).not_freed hlive)

theorem isRdonly_readEnd (flags : BitVec 32) : (flags &&& oNonblock) &&& oAccmode = 0#32 := by
  rw [BitVec.and_assoc]
  have : oNonblock &&& oAccmode = 0#32 := by decide
  rw [this, BitVec.and_zero]

theorem isRdonly_writeEnd (flags : BitVec 32) : (oWronly ||| flags &&& oNonblock) &&& oAccmode ≠ 0#32 := by
  rw [BitVec.and_or_distrib_right, isRdonly_readEnd]
  decide

/-- The two files become the only ends of the new pipe. -/
theorem attachEnds {fr fw : File ι} {buf : Nat → UInt8} (h : s.PipeInv (some q)) (hpipe : s.pipe q = some (.create buf))
    (hr : s.file r = some fr) (hw : s.file w = some fw) (hrp : fr.pipe = none) (hwp : fw.pipe = none) (hrw : r ≠ w)
    (hru : r ≠ uartFile) (hwu : w ≠ uartFile) (flags : BitVec 32) : (s.attachEnds q r w flags).PipeInv none := by
  have hfile : ∀ g, (s.attachEnds q r w flags).file g =
      if g = w then some { fw with pipe := some q, flags := oWronly ||| flags &&& oNonblock }
      else if g = r then some { fr with pipe := some q, flags := flags &&& oNonblock }
      else s.file g := by
    intro g
    unfold Files.attachEnds
    have hw' : (s.modifyFile r fun file => { file with pipe := some q, flags := flags &&& oNonblock }).file w =
      some fw := by
      simp [Files.modifyFile, Ne.symm hrw, hw]
    rw [modifyFile_eq hw', modifyFile_eq hr]
    simp only [Files.setFile, Function.update_apply]
  have hnew : ∀ b g, (s.attachEnds q r w flags).End q b g ↔ (b = true ∧ g = r) ∨ (b = false ∧ g = w) := by
    intro b g
    unfold End
    rw [hfile]
    split_ifs with hgw hgr
    · subst hgw
      simp [File.isRdonly, beq_eq_false_iff_ne.2 (isRdonly_writeEnd flags), Ne.symm hrw, eq_comm]
    · subst hgr
      simp [File.isRdonly, isRdonly_readEnd, hgw, eq_comm]
    · have hno : ¬ s.End q b g := fun hg => ((h.each q).ends b g hg).1 rfl
      unfold End at hno
      simpa [hgw, hgr] using hno
  have hold : ∀ p b g, p ≠ q → ((s.attachEnds q r w flags).End p b g ↔ s.End p b g) := by
    intro p b g hp
    unfold End
    rw [hfile]
    split_ifs with hgw hgr
    · subst hgw
      simp [hw, hwp, Ne.symm hp]
    · subst hgr
      simp [hr, hrp, Ne.symm hp]
    · rfl
  refine ⟨fun p => ?_, h.freedOnce, ?_⟩
  · by_cases hp : p = q
    · subst hp
      have hlive : (s.pipe p).isSome := by simp [hpipe]
      refine ⟨fun _ _ _ => ⟨by simp, hlive⟩, ?_, ?_, fun _ _ => ⟨true, r, (hnew true r).2 (by simp)⟩, by simp,
        (h.each p).fresh, (h.each p).freed⟩
      · intro b g g' hg hg'
        rw [hnew] at hg hg'
        rcases hg with ⟨rfl, rfl⟩ | ⟨rfl, rfl⟩ <;> simpa [eq_comm] using hg'
      · intro pipe b hpipe' _
        left
        obtain rfl : pipe = .create buf := by
          rw [show (s.attachEnds p r w flags).pipe p = s.pipe p from rfl, hpipe] at hpipe'
          exact (Option.some.inj hpipe').symm
        cases b
        · exact ⟨rfl, w, (hnew false w).2 (by simp)⟩
        · exact ⟨rfl, r, (hnew true r).2 (by simp)⟩
    · exact (h.each p).congr (fun b g => hold p b g hp) rfl (by simp [Ne.symm hp]) Iff.rfl Iff.rfl
  · intro file hf
    rw [hfile, if_neg (Ne.symm hwu), if_neg (Ne.symm hru)] at hf
    exact h.uart file hf

end PipeInv

end Files

end MiniOs.Fs
