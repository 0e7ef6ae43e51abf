/-
`do_execve` and the references on the inode it looks up. Every way it can fail drops the reference of the
lookup; when it enters the new program the reference stays, without an open file behind it.
-/
import MiniOs.Fs.Exec
import MiniOs.Proofs.Fs.Links

namespace MiniOs.Fs

open Library

namespace Ramfs

/-! ## Memory that ramfs does not ask for -/

/-- Ramfs with all the memory it may ask for. -/
def supplied (fs : Ramfs) : Ramfs := { fs with allocs := [] }

theorem supplied_iget (fs : Ramfs) (i : Nat) : fs.supplied.iget i = (fs.iget i).supplied := by
  have hcell : fs.supplied.inodes i = fs.inodes i := rfl
  unfold iget modify
  rw [hcell]
  cases fs.inodes i <;> rfl

theorem supplied_freeInode : ∀ (depth : Nat) (fs : Ramfs) (i : Nat),
    freeInode depth fs.supplied i = (freeInode depth fs i).supplied
  | 0, _, _ => rfl
  | depth + 1, fs, i => by
    have hkids : ∀ (es : List (Name × Nat)) (fs : Ramfs), es.foldl (fun fs e => freeInode depth fs e.2) fs.supplied =
        (es.foldl (fun fs e => freeInode depth fs e.2) fs).supplied := by
      intro es
      induction es with
      | nil => exact fun _ => rfl
      | cons e es ih =>
        intro fs
        rw [List.foldl_cons, supplied_freeInode depth fs e.2, ih, List.foldl_cons]
    have hfirst : (if fs.supplied.isDir i then
        (fs.supplied.childrenOf i).foldl (fun fs e => freeInode depth fs e.2) fs.supplied
        else fs.supplied) =
        (if fs.isDir i then (fs.childrenOf i).foldl (fun fs e => freeInode depth fs e.2) fs else fs).supplied := by
      have hdir : fs.supplied.isDir i = fs.isDir i := rfl
      rw [hdir]
      split_ifs
      · exact hkids _ fs
      · rfl
    unfold freeInode
    dsimp only
    rw [hfirst]
    split_ifs <;> rfl

theorem supplied_iput (fs : Ramfs) (i : Nat) : fs.supplied.iput i = (fs.iput i).supplied := by
  have hcell : fs.supplied.inodes i = fs.inodes i := rfl
  unfold iput
  rw [hcell]
  cases fs.inodes i with
  | none => rfl
  | some ri =>
    dsimp only
    split_ifs
    · rfl
    · unfold inodeMaybeEvict
      have hset : fs.supplied.set i { ri with iCount := ri.iCount - 1 } =
        (fs.set i { ri with iCount := ri.iCount - 1 }).supplied := rfl
      rw [hset]
      have hcell' : ((fs.set i { ri with iCount := ri.iCount - 1 }).supplied).inodes i =
        some { ri with iCount := ri.iCount - 1 } :=
        set_self ..
      rw [hcell', set_self]
      dsimp only
      split_ifs
      · rfl
      · rfl
      · exact supplied_freeInode _ _ _

/-- A reference that is taken and dropped again, on an inode that is linked or held. -/
theorem iput_iget {fs : Ramfs} {i : Nat} (hk : ∀ ri, fs.inodes i = some ri → ri.nlink = 0 → ri.iCount ≠ 0) :
    ((fs.iget i).iput i).inodes i = fs.inodes i := by
  cases hi : fs.inodes i with
  | none => simp [iget, modify, iput, hi]
  | some ri =>
    have hget : fs.iget i = fs.set i { ri with iCount := ri.iCount + 1 } := modify_of_live hi _
    rw [hget]
    unfold iput
    rw [set_self]
    dsimp only
    rw [if_neg (Nat.succ_ne_zero _)]
    unfold inodeMaybeEvict
    rw [set_self]
    dsimp only [Nat.add_sub_cancel]
    split_ifs with hc hn
    · exact set_self ..
    · exact set_self ..
    · exact absurd (not_not.1 hc) (hk ri hi (not_not.1 hn))

end Ramfs

namespace Vfs

variable {s s' : Vfs} {p : Nat} {a : ExecArgs} {r : InodeRef}

def supplied (s : Vfs) : Vfs := { s with fs := s.fs.supplied }

theorem supplied_iput (s : Vfs) (r : InodeRef) : s.supplied.iput r = (s.iput r).supplied := by
  cases r with
  | ramfs i =>
    show { s.iput (.ramfs i) with fs := s.fs.supplied.iput i } = { s.iput (.ramfs i) with fs := (s.fs.iput i).supplied }
    rw [Ramfs.supplied_iput]
  | proc j =>
    have hcell : s.supplied.procs j = s.procs j := rfl
    simp only [iput, hcell]
    cases s.procs j with
    | none => rfl
    | some pi =>
      dsimp only
      split_ifs <;> rfl

theorem supplied_settle (s : Vfs) : s.supplied.settle = s.settle.supplied := by
  have hdrop : ∀ (l : List InodeRef) (s : Vfs), l.foldl iput s.supplied = (l.foldl iput s).supplied := by
    intro l
    induction l with
    | nil => exact fun _ => rfl
    | cons r l ih =>
      intro s
      rw [List.foldl_cons, supplied_iput, ih, List.foldl_cons]
  exact hdrop s.files.iputs { s with files := { s.files with iputs := [] } }

/-! ## The inode of a lookup -/

/-- `i_count` of an inode that is not freed. -/
def iCount (s : Vfs) : InodeRef → Option Nat
  | .ramfs i => (s.fs.inodes i).map RamfsInode.iCount
  | .proc j => (s.procs j).map ProcInode.iCount

/-- What holds between two calls: the tree is whole, files hold their inodes, and the next inode of procfs is a new one.
-/
structure Steady (s : Vfs) : Prop where
  whole : s.Whole
  sound : s.Sound
  fresh : ∀ j, s.nextProc ≤ j → s.procs j = none ∧ ∀ f, (s.files.file f).bind File.inode ≠ some (.proc j)

/-- What is left of `i_count` when every file on the inode has been closed. With the last name gone too, the inode is
freed just when that is 0. -/
def leftOver (s : Vfs) (r : InodeRef) : Option Int := (s.iCount r).map fun (n : Nat) => (n : Int) - s.files.inodeRefs r

/-- The call leaves the counter of the inode that its path leads to as it was, and so whether the inode is freed when
its last name and descriptor are removed. -/
def KeepsCount (s : Vfs) (p : Nat) (a : ExecArgs) (s' : Vfs) : Prop :=
  ∀ r, (s.vfsLookup p a.filename).1 = some r → s'.iCount r = s.iCount r ∧ s'.leftOver r = s.leftOver r

/-- The call gets as far as the new program: the path leads to a regular file, there is memory for `bprm`, the image is
not empty, the strings of the caller fit, and the image loads. -/
structure Enters (s : Vfs) (p : Nat) (a : ExecArgs) (r : InodeRef) : Prop where
  named : a.filename ≠ []
  path : (s.vfsLookup p a.filename).1 = some r
  regular : (s.vfsLookup p a.filename).2.typeOf r = some .reg
  memory : (s.vfsLookup p a.filename).2.kmalloc.1 = true
  loads : ∃ bprm, (s.vfsLookup p a.filename).2.fillBinprm r a = .ok bprm ∧ a.load bprm = .ok ()

/-- The two ways of a call once the path is looked up: the reference is dropped, or the flagged descriptors are closed.
-/
theorem doExecve_cases {s1 : Vfs} (hlook : s.vfsLookup p a.filename = (some r, s1)) (hname : a.filename ≠ []) :
    ∃ allocs, (¬ s.Enters p a r ∧ (s.doExecve p a).2 = { s1 with allocs := allocs }.iput r) ∨
      (s.Enters p a r ∧ (s.doExecve p a).2 =
        { s1 with allocs := allocs, files := s1.files.closeOnExecFds p }.settle) := by
  have h2 : (s.vfsLookup p a.filename).2 = s1 := by rw [hlook]
  unfold doExecve
  rw [if_neg hname, hlook]
  dsimp only
  split_ifs with htype
  · exact ⟨s1.allocs, Or.inl ⟨fun he => htype (h2 ▸ he.regular), rfl⟩⟩
  · obtain ⟨ok, allocs, hk, -⟩ := s1.kmalloc_cases
    rw [hk]
    refine ⟨allocs, ?_⟩
    cases ok with
    | false =>
      refine Or.inl ⟨fun he => ?_, rfl⟩
      have hm := he.memory
      rw [h2, hk] at hm
      cases hm
    | true =>
      dsimp only
      have hfill : ({ s1 with allocs := allocs } : Vfs).fillBinprm r a = s1.fillBinprm r a := by
        cases r <;> rfl
      rw [hfill]
      cases hbprm : s1.fillBinprm r a with
      | error e =>
        refine Or.inl ⟨fun he => ?_, rfl⟩
        obtain ⟨bprm, hb, -⟩ := he.loads
        rw [h2, hbprm] at hb
        cases hb
      | ok bprm =>
        dsimp only
        cases hload : a.load bprm with
        | error e =>
          refine Or.inl ⟨fun he => ?_, rfl⟩
          obtain ⟨bprm', hb, hl⟩ := he.loads
          rw [h2, hbprm] at hb
          cases hb
          rw [hload] at hl
          cases hl
        | ok _ =>
          refine Or.inr ⟨⟨hname, by rw [hlook], ?_, ?_, bprm, ?_, hload⟩, rfl⟩
          · rw [h2]
            exact not_not.1 htype
          · rw [h2, hk]
          · rw [h2, hbprm]

/-! ## The reference is dropped -/

theorem Steady.iCount_dropped {procs : Nat → Option ProcInode} (h : s.Steady) (next : Nat) (allocs : List Bool)
    (ho : s.Origin a.filename procs r) :
    ((({ s with procs := procs, nextProc := next, allocs := allocs } : Vfs).iget r).iput r).iCount r = s.iCount r := by
  cases r with
  | ramfs i =>
    have hsame : ((s.fs.iget i).iput i).inodes i = s.fs.inodes i :=
      Ramfs.iput_iget fun ri hi hz => ((Inv.fs h.whole).kept i ri hi hz).resolve_right (by simp)
    exact congrArg (Option.map RamfsInode.iCount) hsame
  | proc j =>
    obtain ⟨rfl, pid, kind, rfl⟩ := ho
    have hnone := (h.fresh s.nextProc (Nat.le_refl _)).1
    simp [iCount, iget, iput, hnone]

theorem files_iput (s : Vfs) (r : InodeRef) : (s.iput r).files = s.files := by
  cases r with
  | ramfs i => rfl
  | proc j =>
    simp only [iput]
    split
    · rfl
    · split_ifs <;> rfl

/-! ## The reference stays -/

theorem procs_iputs {j : Nat} (l : List InodeRef) : ∀ {s : Vfs}, .proc j ∉ l →
    (l.foldl iput s).procs j = s.procs j := by
  induction l with
  | nil => exact fun _ => rfl
  | cons r l ih =>
    intro s hj
    rw [List.mem_cons, not_or] at hj
    rw [List.foldl_cons, ih hj.2]
    cases r with
    | ramfs i => rfl
    | proc k =>
      have hne : j ≠ k := fun e => hj.1 (by rw [e])
      simp only [iput]
      split
      · rfl
      · split_ifs
        · rfl
        all_goals exact Function.update_of_ne hne ..

section Entered

variable {procs : Nat → Option ProcInode}

/-- The references that a task gives up on exec are those of the files it closes. -/
theorem Steady.closed (h : s.Steady) (p : Nat) (r : InodeRef) :
    (s.files.closeOnExecFds p).inodeRefs r + (s.files.closeOnExecFds p).iputs.count r = s.files.inodeRefs r := by
  obtain ⟨due, how, -⟩ := h.sound.1
  rw [(how.closeOnExecFds p).count, ← how.count, h.sound.2, List.count_nil, Nat.add_zero]

/-- An inode of procfs is new: the task has no file on it. -/
theorem Steady.proc_entered {pi : ProcInode} (h : s.Steady) (p next : Nat) (allocs : List Bool)
    (hp : procs s.nextProc = some pi) :
    ({ s with procs := procs, nextProc := next, allocs := allocs, files := s.files.closeOnExecFds p } :
      Vfs).settle.iCount (.proc s.nextProc) = some pi.iCount := by
  have hrefs : s.files.inodeRefs (.proc s.nextProc) = 0 :=
    Finset.sum_eq_zero fun f _ => if_neg ((h.fresh _ (Nat.le_refl _)).2 f)
  have hclosed := h.closed p (.proc s.nextProc)
  have hcount : (s.files.closeOnExecFds p).iputs.count (.proc s.nextProc) = 0 := by omega
  show (Vfs.procs _ _).map ProcInode.iCount = _
  unfold settle
  rw [procs_iputs _ (List.count_eq_zero.1 hcount)]
  show (procs s.nextProc).map ProcInode.iCount = _
  rw [hp]
  rfl

theorem iCount_ramfs {i : Nat} (h : ∃ ri, s.fs.inodes i = some ri) : s.iCount (.ramfs i) = some (s.fs.users i) := by
  obtain ⟨ri, hi⟩ := h
  simp [iCount, hi, Ramfs.users_of_live hi]

/-- A file of ramfs keeps the reference of the lookup, and loses only those of files that are closed. -/
theorem Steady.ramfs_entered {i : Nat} {stray : Stray} (h : s.Steady) (p next : Nat) (allocs : List Bool)
    (hf : s.fs.supplied.Found i) :
    ({ s with fs := s.fs.iget i, procs := procs, nextProc := next, allocs := allocs, stray := stray,
              files := s.files.closeOnExecFds p } : Vfs).settle.leftOver (.ramfs i) ≠ s.leftOver (.ramfs i) := by
  have hw : s.fs.supplied.Inv .empty := Inv.fs h.whole
  obtain ⟨hq, hu⟩ := Ramfs.iget_quiet hw i
  obtain ⟨ri, hi, -⟩ := hw.live_of_found hf
  -- the state in which the drops start
  have hinv : Inv { s with fs := s.fs.supplied.iget i, procs := procs, nextProc := next, allocs := allocs,
                           stray := stray, files := { s.files.closeOnExecFds p with iputs := [] } } :=
    Inv.congr h.whole hq rfl rfl rfl rfl
  obtain ⟨hc, hcu⟩ := Inv.calm_iputs (s.files.closeOnExecFds p).iputs hinv
  generalize hT : ({ s with fs := s.fs.iget i, procs := procs, nextProc := next, allocs := allocs, stray := stray,
                            files := s.files.closeOnExecFds p } : Vfs) = T
  have hsettle : T.settle.supplied = (s.files.closeOnExecFds p).iputs.foldl iput
      { s with fs := s.fs.supplied.iget i, procs := procs, nextProc := next, allocs := allocs, stray := stray,
               files := { s.files.closeOnExecFds p with iputs := [] } } := by
    rw [← supplied_settle, ← hT, Ramfs.supplied_iget]
    rfl
  rw [← hsettle] at hc hcu
  have hlive : ∃ ri', T.settle.fs.inodes i = some ri' := by
    have hfound : T.settle.supplied.fs.Found i := by
      refine hf.imp (fun hl => hc.quiet.linked i (hq.linked i hl)) ?_
      rintro ⟨d, n, hd⟩
      refine ⟨d, n, ?_⟩
      rw [hc.quiet.view]
      exact (congrFun (congrFun hq.view d) n).trans hd
    obtain ⟨ri', hi', -⟩ := hc.inv.fs.live_of_found hfound
    exact ⟨ri', hi'⟩
  have husers : T.settle.fs.users i = s.fs.users i + 1 - (s.files.closeOnExecFds p).iputs.count (.ramfs i) := by
    have h1 : T.settle.fs.users i = (s.fs.supplied.iget i).users i - _ := hcu i
    have h2 : (s.fs.supplied.iget i).users i = s.fs.users i + _ := hu i
    rw [h1, h2, hi]
    simp
  have hrefs : T.settle.files.inodeRefs (.ramfs i) = (s.files.closeOnExecFds p).inodeRefs (.ramfs i) := by
    have hfiles : T.settle.files = { s.files.closeOnExecFds p with iputs := [] } := hc.files
    rw [hfiles]
    rfl
  have hle : s.files.inodeRefs (.ramfs i) ≤ s.fs.users i := by
    obtain ⟨due, how, hdue⟩ := h.sound.1
    have hd := hdue i
    have hcount := how.count (.ramfs i)
    rw [List.count_nil] at hd
    omega
  have hclosed := h.closed p (.ramfs i)
  unfold leftOver
  rw [iCount_ramfs hlive, iCount_ramfs ⟨ri, hi⟩, husers, hrefs, Option.map_some, Option.map_some, Ne, Option.some.injEq]
  omega

end Entered

/-- Entering the new program leaves a reference behind. -/
theorem Steady.entered {s1 : Vfs} {procs : Nat → Option ProcInode} {next : Nat} {al : List Bool}
    (h : s.Steady) (p : Nat)
    (allocs : List Bool) (ho : s.Origin a.filename procs r)
      (hs1 : s1 = ({ s with procs := procs, nextProc := next, allocs := al } : Vfs).iget r)
    (htype : s1.typeOf r = some .reg) :
    ({ s1 with allocs := allocs, files := s1.files.closeOnExecFds p } : Vfs).settle.leftOver r ≠ s.leftOver r := by
  subst hs1
  cases r with
  | ramfs i =>
    have hfound : s.fs.supplied.Found i := by
      rcases ho with hroot | hfollow
      · -- the root of procfs is a directory
        have hdir : s.fs.supplied.typeAt i = some .dir := (Inv.proc h.whole i hroot).2
        have hreg : (s.fs.iget i).supplied.typeAt i = some .reg := htype
        have hquiet : Ramfs.Quiet s.fs.supplied (s.fs.supplied.iget i) := (Ramfs.iget_quiet (Inv.fs h.whole) i).1
        rw [← Ramfs.supplied_iget, hquiet.memory i, hdir] at hreg
        cases hreg
      · have hin : s.fs.supplied.inodes = s.fs.inodes := rfl
        exact Ramfs.follow_found (Inv.fs h.whole) ((Ramfs.follow_congr hin 8 _).trans hfollow)
    exact h.ramfs_entered p next allocs hfound
  | proc j =>
    obtain ⟨rfl, pid, kind, rfl⟩ := ho
    generalize hs1 : ({ s with
        procs := Function.update s.procs s.nextProc (some ⟨pid, kind, 0⟩), nextProc := next, allocs := al } : Vfs).iget
      (.proc s.nextProc) = s1
    have hp : s1.procs s.nextProc = some ⟨pid, kind, 1⟩ := by simp [← hs1, iget]
    have hone : ({ s1 with allocs := allocs, files := s1.files.closeOnExecFds p } : Vfs).settle.iCount
      (.proc s.nextProc) = some 1 := by
      rw [← h.proc_entered p next allocs hp, ← hs1]
      rfl
    have hnone : s.iCount (.proc s.nextProc) = none := by simp [iCount, h.fresh s.nextProc (Nat.le_refl _)]
    simp [leftOver, hone, hnone]

/-- The booted system with a program of one byte at `/l`. -/
def installed : Vfs :=
  let s : Vfs := { init [] [] [] with fs := ((init [] [] []).fs.create pathL.bytes 0o755).2 }
  { s with fs := s.fs.modify 7 fun ri => { ri with data := some [127], size := 1, capacity := 1 } }

theorem installed_steady : installed.Steady := by
  have h0 : (init [] [] []).Booted := init_booted [] [] (by simp)
  have hk := h0.inv.create pathL 0o755
  have hk' := hk.inv.modify (f := fun ri => { ri with data := some [127], size := 1, capacity := 1 }) 7
    fun ri => ⟨rfl, rfl, rfl, rfl, rfl⟩
  refine ⟨hk'.inv.whole, hk'.sound (hk.sound h0.sound), fun j _ => ⟨rfl, ?_⟩⟩
  exact (Files.init_owes InodeRef []).not_inode rfl

/-- A call for `/l` whose image loads. -/
def runL : ExecArgs := ⟨pathL.bytes, .kernel [pathL.bytes], .kernel [], 0, fun _ => .ok ()⟩

end Vfs

end MiniOs.Fs
