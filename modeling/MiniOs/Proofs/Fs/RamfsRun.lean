/-
Whole runs of ramfs. Its directories always form a tree under the root, and in every run that enters
no name into a removed directory the link counters are the numbers of names and an inode is freed
when its last name and its last user are gone, not before and only once.
-/
import MiniOs.Fs.RamfsSys
import MiniOs.Library.Run
import MiniOs.Proofs.Fs.Rename

namespace MiniOs.Fs

open Library Function

namespace Ramfs

variable {fs fs' : Ramfs} {c d : Nat} {rc rd : RamfsInode} {op : RamfsOp}

/-! ## Single steps -/

theorem init_inodes (allocs : List Bool) :
    (init allocs).inodes = update (fun _ => none) rootIno (some (ramfsInodeInit rootIno .dir)) := rfl

theorem init_inv {allocs : List Bool} (ha : ∀ ok ∈ allocs, ok = true) : (init allocs).Inv .empty := by
  have hinodes := init_inodes allocs
  have hlive : ∀ {i : Nat} {ri : RamfsInode}, (init allocs).inodes i = some ri →
      i = rootIno ∧ ri = ramfsInodeInit rootIno .dir := by
    intro i ri hi
    rw [hinodes] at hi
    by_cases e : i = rootIno
    · subst e
      rw [update_self] at hi
      exact ⟨rfl, (Option.some.inj hi).symm⟩
    · rw [update_of_ne e] at hi
      cases hi
  have hroot : (init allocs).inodes rootIno = some (ramfsInodeInit rootIno .dir) := by
    rw [hinodes, update_self]
  refine ⟨rfl, ha, ?_, ⟨_, hroot, rfl, rfl, by decide⟩, ?_, ?_, ?_, ?_, by rintro x ⟨⟩, ?_, ?_, by rintro e ⟨⟩,
    List.nodup_nil⟩
  · intro i hi
    have hlt : rootIno + 1 ≤ i := hi
    rw [hinodes, update_of_ne (by omega)]
  · intro d rd hd
    rw [(hlive hd).2]
    exact List.nodup_nil
  · intro d rd hd hne
    rw [(hlive hd).2] at hne
    exact absurd rfl hne
  · intro d rd n c hd hm
    rw [(hlive hd).2] at hm
    cases hm
  · intro c rc hc
    obtain ⟨rfl, rfl⟩ := hlive hc
    have hnone : (init allocs).namesOf rootIno = 0 := by
      by_contra hne
      obtain ⟨d, rd, n, hd, hm⟩ := exists_entry_of_namesOf (Nat.pos_of_ne_zero hne)
      rw [(hlive hd).2] at hm
      cases hm
    rw [hnone]
    decide
  · intro d rd hd _ _ _
    rw [(hlive hd).1]
    exact Reaches.refl _
  · intro c rc hc hz
    rw [(hlive hc).2] at hz
    cases hz

/-- What every operation keeps: the invariant, the references and the types. -/
def Keeps (fs fs' : Ramfs) : Prop := fs'.Inv .empty ∧ Frame fs fs'

theorem Creates.keeps {n : Name} {type : FileType} {p : Except Errno (Option Nat) × Ramfs} (h : fs.Inv .empty)
    (hc : Creates fs d n type p) : Keeps fs p.2 := by
  rcases hc with ⟨e, rfl⟩ | ⟨fs', rfl, -, -, hdoes⟩
  · exact ⟨h, Frame.refl fs⟩
  · exact ⟨hdoes.inv, hdoes.frame⟩

theorem Removes.keeps {n : Name} {dir : Bool} {p : Except Errno (Option Nat) × Ramfs} (hr : Removes fs d n dir p) :
    Keeps fs p.2 := by
  rcases hr with ⟨e, fs', c, rfl, -, hdoes⟩ | ⟨c, fs', rfl, -, -, hdoes, -⟩
  · exact ⟨hdoes.inv, hdoes.frame⟩
  · exact ⟨hdoes.inv, hdoes.frame⟩

/-- A directory that a call may enter a name into is linked, when it is not a removed one. -/
theorem linked_of_isDir (hd : fs.removed d = false) (hdir : fs.isDir d = true) : fs.Linked d := by
  obtain ⟨rd, hrd, ht⟩ := exists_of_isDir hdir
  refine ⟨rd, hrd, ht, ?_⟩
  simpa [removed, hrd] using hd

/-- A call on live inodes that enters no name into a removed directory returns and keeps the invariant. -/
theorem exec_keeps (h : fs.Inv .empty) (hready : fs.ready op = true) (hlinked : op.enters.any fs.removed = false) :
    ∃ fs', fs.exec op = some fs' ∧ Keeps fs fs' := by
  cases op with
  | mkdir dir name mode => exact ⟨_, rfl, (inodeMkdir_creates h (linked_of_isDir hlinked) mode).keeps h⟩
  | mknod dir name mode rdev => exact ⟨_, rfl, (inodeMknod_creates h (linked_of_isDir hlinked) mode rdev).keeps h⟩
  | symlink dir name target => exact ⟨_, rfl, (inodeSymlink_creates h (linked_of_isDir hlinked) target).keeps h⟩
  | create path mode =>
    refine ⟨_, rfl, ?_⟩
    rcases create_creates h path mode with ⟨e, he⟩ | ⟨d, n, -, -, hc⟩
    · rw [he]
      exact ⟨h, Frame.refl fs⟩
    · exact hc.keeps h
  | link old dir name =>
    refine ⟨_, rfl, ?_⟩
    obtain ⟨ro, hro⟩ : ∃ ro, fs.inodes old = some ro := by
      simp only [ready, RamfsOp.args, List.all_cons, Bool.and_eq_true] at hready
      exact Option.isSome_iff_exists.1 hready.1
    rcases inodeLink_spec (n := name) h hro (linked_of_isDir hlinked) with ⟨e, he⟩ | ⟨fs', he, -, -, hdoes⟩
    · rw [he]
      exact ⟨h, Frame.refl fs⟩
    · rw [he]
      exact ⟨hdoes.inv, hdoes.frame⟩
  | unlink dir name => exact ⟨_, rfl, (inodeUnlink_removes h).keeps⟩
  | rmdir dir name => exact ⟨_, rfl, (inodeRmdir_removes h).keeps⟩
  | rename oldDir oldName newDir newName =>
    obtain ⟨res, fs', he, hcase⟩ := inodeRename_spec oldDir oldName newName h (linked_of_isDir hlinked)
    refine ⟨fs', by simp only [exec, call, he, Option.map_some], ?_⟩
    rcases hcase with ⟨rfl, -⟩ | ⟨-, src, hm⟩
    · exact ⟨h, Frame.refl _⟩
    · exact ⟨hm.inv, hm.frame⟩

/-! ## Trees -/

/-- The directories form a tree: names are distinct in each, every linked directory but the root has one
entry, in the directory its parent pointer names, and the parent pointers lead to the root. -/
structure IsTree (fs : Ramfs) : Prop where
  distinct : ∀ d rd, fs.inodes d = some rd → (rd.children.map Prod.fst).Nodup
  oneEntry : ∀ d rd, fs.inodes d = some rd → rd.type = .dir → rd.nlink ≠ 0 → d ≠ rootIno →
    fs.namesOf d = 1 ∧ ∃ p rp, rd.parent = some p ∧ fs.inodes p = some rp ∧ namesIn rp.children d = 1
  reachesRoot : ∀ d rd, fs.inodes d = some rd → rd.type = .dir → rd.nlink ≠ 0 →
    ∃ k, ancestor fs.parentOf k d = some rootIno

theorem namesIn_le (h : fs.inodes d = some rd) (hlt : d < fs.nextIno) (c : Nat) :
    namesIn rd.children c ≤ fs.namesOf c := by
  have hle : namesIn (fs.childrenOf d) c ≤ fs.namesOf c :=
    Finset.single_le_sum (f := fun d => namesIn (fs.childrenOf d) c) (fun _ _ => Nat.zero_le _) (Finset.mem_range.2 hlt)
  rwa [childrenOf_of_live h] at hle

theorem Inv.isTree (h : fs.Inv .empty) : fs.IsTree := by
  refine ⟨h.distinct, ?_, ?_⟩
  · intro d rd hd ht hl hr
    have hone : fs.namesOf d = 1 := by
      have hcount := h.count d rd hd
      rw [if_neg (by simp), Inv.owed_of_dir ht hl hr] at hcount
      omega
    obtain ⟨p, rp, n, hp, hrp, hm⟩ := h.exists_parent hd ht hl hr (by simp)
    have hpos : 0 < namesIn rp.children d := namesIn_pos.2 ⟨n, hm⟩
    have hle := namesIn_le hrp (h.lt hrp) d
    exact ⟨hone, p, rp, hp, hrp, by omega⟩
  · intro d rd hd ht hl
    exact (h.toRoot d rd hd ht hl (by simp)).exists_ancestor

/-- Nobody holds a reference. -/
def Unheld (fs : Ramfs) : Prop := ∀ c, fs.users c = 0

theorem init_unheld (allocs : List Bool) : (init allocs).Unheld := by
  intro c
  unfold users
  split
  · rfl
  · next rc hc =>
    by_cases e : c = rootIno
    · subst e
      cases hc
      rfl
    · rw [init_inodes, update_of_ne e] at hc
      cases hc

/-- Where nobody holds a reference every live directory is linked. -/
theorem removed_eq_false (h : fs.Inv .empty) (hu : fs.Unheld) (d : Nat) : fs.removed d = false := by
  unfold removed
  split
  · rfl
  · next rd hd =>
    have hne : rd.nlink ≠ 0 := by
      intro hz
      rcases h.kept d rd hd hz with hc | hc
      · exact hc ((users_of_live hd).symm.trans (hu d))
      · cases hc
    simpa using hne

theorem step_isSome_iff (h : fs.Inv .empty) (hu : fs.Unheld) : (fs.step op).isSome ↔ fs.ready op = true := by
  have hlinked : op.enters.any fs.removed = false := by
    cases op.enters with
    | none => rfl
    | some d => exact removed_eq_false h hu d
  unfold step
  split_ifs with hr
  · obtain ⟨fs', he, -⟩ := exec_keeps h hr hlinked
    simp [he, hr]
  · simp [hr]

theorem step_unheld (hi : fs.Inv .empty ∧ fs.Unheld) (hs : fs.step op = some fs') : fs'.Inv .empty ∧ fs'.Unheld := by
  obtain ⟨h, hu⟩ := hi
  have hlinked : op.enters.any fs.removed = false := by
    cases op.enters with
    | none => rfl
    | some d => exact removed_eq_false h hu d
  unfold step at hs
  split_ifs at hs with hr
  obtain ⟨fs'', he, hinv, hframe⟩ := exec_keeps h hr hlinked
  obtain rfl := Option.mem_unique he hs
  exact ⟨hinv, fun c => (hframe.users c).trans (hu c)⟩

/-- In every state that calls of the inode operations on live inodes lead to, with memory always
available, the directories form a tree; and every such call returns. -/
theorem run_isTree {allocs : List Bool} (ha : ∀ ok ∈ allocs, ok = true) {ops : List RamfsOp} {fs : Ramfs}
    (hrun : run Ramfs.step (init allocs) ops = some fs) :
    fs.IsTree ∧ ∀ op, (fs.step op).isSome ↔ fs.ready op = true := by
  obtain ⟨hinv, hu⟩ := run_invariant (fun _ _ _ hi hs => step_unheld hi hs) ⟨init_inv ha, init_unheld allocs⟩ hrun
  exact ⟨hinv.isTree, fun op => step_isSome_iff hinv hu⟩

/-- A directory is made inside another, moved up and renamed over an empty one. -/
def sampleMoves : List RamfsOp :=
  [.mkdir 1 (Name.clip [97]) 0o755, .mkdir 2 (Name.clip [98]) 0o755, .create [47, 97, 47, 99] 0o644,
    .mkdir 1 (Name.clip [100]) 0o700, .rename 2 (Name.clip [98]) 1 (Name.clip [100]), .unlink 2 (Name.clip [99])]

theorem run_isTree_of_sampleMoves : ∃ fs, run Ramfs.step (init [true]) sampleMoves = some fs ∧
    fs.childrenOf rootIno = [(Name.clip [100], 3), (Name.clip [97], 2)] ∧ fs.IsTree := by
  obtain ⟨fs, hrun, hch⟩ : ∃ fs, run Ramfs.step (init [true]) sampleMoves = some fs ∧
      fs.childrenOf rootIno = [(Name.clip [100], 3), (Name.clip [97], 2)] := ⟨_, rfl, by decide⟩
  exact ⟨fs, hrun, hch, (run_isTree (by simp) hrun).1⟩

/-! ## Users -/

theorem iget_spec (h : fs.Inv .empty) (hc : fs.inodes c = some rc) :
    (fs.iget c).Inv .empty ∧ (fs.iget c).findChild = fs.findChild ∧ (fs.iget c).nextIno = fs.nextIno ∧
      ∀ x, (fs.iget c).users x = update fs.users c (fs.users c + 1) x := by
  unfold iget
  rw [modify_of_live hc]
  refine ⟨?_, findChild_set_same hc rfl rfl, rfl, ?_⟩
  · apply h.set_plain (r := { rc with iCount := rc.iCount + 1 }) hc rfl rfl rfl rfl
    · exact fun _ => Iff.rfl
    · rintro x ⟨⟩
    · intro _
      exact Or.inl (Nat.succ_ne_zero _)
  · intro x
    by_cases e : x = c
    · subst e
      rw [update_self, users_of_live (set_self ..), users_of_live hc]
    · rw [update_of_ne e]
      simp only [users, set_of_ne e]

/-- `iput` of a reference that is held: the inode goes when it was the last one and no name is left. -/
theorem iput_spec (h : fs.Inv .empty) (hc : fs.inodes c = some rc) (hu : rc.iCount ≠ 0) :
    (fs.iput c).Inv .empty ∧ (fs.iput c).findChild = fs.findChild ∧ (fs.iput c).nextIno = fs.nextIno ∧
      ∀ x, (fs.iput c).users x = update fs.users c (fs.users c - 1) x := by
  have hput : fs.iput c = (fs.set c { rc with iCount := rc.iCount - 1 }).inodeMaybeEvict c := by
    simp only [iput, hc, if_neg hu]
  have hidle : (fs.set c { rc with iCount := rc.iCount - 1 }).Inv (.idle c) := by
    apply h.set_plain (r := { rc with iCount := rc.iCount - 1 }) hc rfl rfl rfl rfl
    · intro x
      simp
    · rintro x ⟨⟩
    · exact fun _ => Or.inr rfl
  obtain ⟨hdoes, -⟩ := evict_does hidle
  rw [hput]
  refine ⟨hdoes.inv, hdoes.view.trans (findChild_set_same hc rfl rfl), ?_, ?_⟩
  · rcases inodeMaybeEvict_cases hidle with ⟨he, -⟩ | ⟨r, -, -, -, -, he⟩
    · rw [he]
      rfl
    · rw [he]
      rfl
  · intro x
    rw [hdoes.frame.users x]
    by_cases e : x = c
    · subst e
      rw [update_self, users_of_live (set_self ..), users_of_live hc]
    · rw [update_of_ne e]
      simp only [users, set_of_ne e]

end Ramfs

namespace HeldRamfs

/-- The invariant of runs with users: the references held are the counters. -/
def Inv (s : HeldRamfs) : Prop := s.fs.Inv .empty ∧ ∀ c, s.refs c = s.fs.users c

theorem stepLinked_inv {s s' : HeldRamfs} {a : Act} (hi : s.Inv) (hs : s.stepLinked a = some s') : s'.Inv := by
  obtain ⟨h, hrefs⟩ := hi
  unfold stepLinked at hs
  split_ifs at hs with hrev
  cases a with
  | op op =>
    have hlinked : op.enters.any s.fs.removed = false := by simpa [revives] using hrev
    obtain ⟨fs', hstep, rfl⟩ := Option.map_eq_some_iff.1 hs
    unfold Ramfs.step at hstep
    split_ifs at hstep with hr
    obtain ⟨fs'', he, hinv, hframe⟩ := Ramfs.exec_keeps h hr hlinked
    obtain rfl := Option.mem_unique he hstep
    exact ⟨hinv, fun c => (hrefs c).trans (hframe.users c).symm⟩
  | iget i =>
    simp only [step] at hs
    split_ifs at hs with hlive
    cases hs
    obtain ⟨ri, hri⟩ := Option.isSome_iff_exists.1 hlive
    obtain ⟨hinv, -, -, husers⟩ := Ramfs.iget_spec h hri
    refine ⟨hinv, fun c => ?_⟩
    rw [husers c, ← hrefs i, ← funext hrefs]
  | iput i =>
    simp only [step] at hs
    split_ifs at hs with hheld
    cases hs
    obtain ⟨ri, hri, hcount⟩ : ∃ ri, s.fs.inodes i = some ri ∧ ri.iCount ≠ 0 := by
      rw [hrefs i] at hheld
      cases hri : s.fs.inodes i with
      | none => simp [Ramfs.users, hri] at hheld
      | some ri => exact ⟨ri, rfl, by simpa [Ramfs.users, hri] using hheld⟩
    obtain ⟨hinv, -, -, husers⟩ := Ramfs.iput_spec h hri hcount
    refine ⟨hinv, fun c => ?_⟩
    rw [husers c, ← hrefs i, ← funext hrefs]

/-- The link counters of files are their numbers of names; every inode that was freed had neither names
nor users, is gone and was freed once; every live inode has a name or a user; what an entry names or a
user holds is live. -/
structure Counted (s : HeldRamfs) : Prop where
  links : ∀ c rc, s.fs.inodes c = some rc → rc.type ≠ .dir → rc.nlink = s.fs.namesOf c
  users : ∀ c rc, s.fs.inodes c = some rc → rc.iCount = s.refs c
  kept : ∀ c rc, s.fs.inodes c = some rc → ¬ (rc.nlink = 0 ∧ rc.iCount = 0)
  freedIdle : ∀ e ∈ s.fs.freed, s.fs.inodes e.1 = none ∧ ∃ r, e.2 = some r ∧ r.nlink = 0 ∧ r.iCount = 0
  freedOnce : (s.fs.freed.map Prod.fst).Nodup
  named : ∀ d rd n c, s.fs.inodes d = some rd → (n, c) ∈ rd.children → (s.fs.inodes c).isSome
  held : ∀ c, s.refs c ≠ 0 → (s.fs.inodes c).isSome

theorem Inv.counted {s : HeldRamfs} (hi : s.Inv) : s.Counted := by
  obtain ⟨h, hrefs⟩ := hi
  refine ⟨?_, ?_, ?_, ?_, h.freedOnce, ?_, ?_⟩
  · intro c rc hc ht
    have hcount := h.count c rc hc
    rw [if_neg (by simp), Ramfs.owed_of_not_dir ht] at hcount
    omega
  · intro c rc hc
    rw [hrefs c, Ramfs.users_of_live hc]
  · rintro c rc hc ⟨hz, hu⟩
    rcases h.kept c rc hc hz with hk | hk
    · exact hk hu
    · cases hk
  · intro e he
    obtain ⟨h1, -, h3⟩ := h.freedIdle e he
    exact ⟨h1, h3⟩
  · intro d rd n c hd hm
    obtain ⟨-, rc, hc, -⟩ := h.entry d rd n c hd hm
    simp [hc]
  · intro c hne
    rw [hrefs c] at hne
    cases hc : s.fs.inodes c with
    | none => simp [Ramfs.users, hc] at hne
    | some rc => rfl

/-- In every run of operations and of users taking and dropping references, with memory always
available, that enters no name into a removed directory. -/
theorem run_counted {allocs : List Bool} (ha : ∀ ok ∈ allocs, ok = true) {acts : List Act} {s : HeldRamfs}
    (hrun : run stepLinked (init allocs) acts = some s) : s.Counted := by
  have hstart : (init allocs).Inv := by
    exact ⟨Ramfs.init_inv ha, fun c => (Ramfs.init_unheld allocs c).symm⟩
  exact (run_invariant (fun _ _ _ hi hs => stepLinked_inv hi hs) hstart hrun).counted

/-- A file is opened, loses its name and is closed; a directory is removed while it is held. -/
def sampleUsers : List Act :=
  [.op (.create [47, 97] 0o644), .iget 2, .op (.link 2 1 (Name.clip [98])), .op (.unlink 1 (Name.clip [97])),
    .op (.unlink 1 (Name.clip [98])), .iput 2, .op (.mkdir 1 (Name.clip [97]) 0o755), .iget 3,
    .op (.rmdir 1 (Name.clip [97]))]

theorem run_counted_of_sampleUsers : ∃ s, run stepLinked (init []) sampleUsers = some s ∧
    s.fs.freed.map Prod.fst = [2] ∧ s.refs 3 = 1 ∧ s.Counted := by
  obtain ⟨s, hrun, hfreed, hheld⟩ : ∃ s, run stepLinked (init []) sampleUsers = some s ∧
      s.fs.freed.map Prod.fst = [2] ∧ s.refs 3 = 1 := ⟨_, rfl, by decide, by decide⟩
  exact ⟨s, hrun, hfreed, hheld, run_counted (by simp) hrun⟩

/-- A removed directory that is still held gets a new entry; with its last user the entry's inode is
freed, although it has a name and a user. -/
def revivedDirectory : List Act :=
  [.op (.mkdir 1 (Name.clip [97]) 0o755), .iget 2, .op (.rmdir 1 (Name.clip [97])),
    .op (.mknod 2 (Name.clip [98]) 0o020644 0), .iget 3, .iput 2]

theorem not_counted_of_revivedDirectory : ∃ s, run step (init []) revivedDirectory = some s ∧
    s.refs 3 = 1 ∧ s.fs.inodes 3 = none ∧
    ∃ r, (3, some r) ∈ s.fs.freed ∧ r.nlink = 1 ∧ r.iCount = 1 := by
  refine ⟨_, rfl, by decide, by decide, ?_⟩
  exact ⟨_, List.mem_cons_of_mem _ (List.mem_cons_self ..), by decide, by decide⟩

end HeldRamfs

end MiniOs.Fs
