/-
Failed name operations. Those that make a name leave the tree as it was; those that take one out first
put it back at the front of the directory, and only if there is memory for the entry.
-/
import MiniOs.Proofs.Fs.RamfsRun
import MiniOs.Fs.RamfsPath

namespace MiniOs.Fs

open Library Function

namespace Ramfs

/-- What the steps below need of a tree, whatever the outcomes of the allocations before: the names of a
directory are distinct, and its entries lead to other inodes that exist. -/
structure Shape (fs : Ramfs) : Prop where
  unshared : fs.again = []
  fresh : ∀ i, fs.nextIno ≤ i → fs.inodes i = none
  distinct : ∀ d rd, fs.inodes d = some rd → (rd.children.map Prod.fst).Nodup
  entry : ∀ d rd n c, fs.inodes d = some rd → (n, c) ∈ rd.children →
    c ≠ d ∧ ∃ rc, fs.inodes c = some rc ∧ (rc.type = .dir → rc.parent = some d)

theorem Inv.shape {fs : Ramfs} (h : fs.Inv .empty) : fs.Shape := by
  refine ⟨h.unshared, h.fresh, h.distinct, fun d rd n c hd hm => ?_⟩
  obtain ⟨rc, he⟩ := h.exists_entry (h.findChild_iff.2 ⟨rd, hd, hm⟩)
  exact ⟨he.ne.symm, rc, he.live, he.parent⟩

/-- Every path leads where it led, with and without links followed at its end, no link counter has changed,
and every directory lists its entries in the same order. -/
structure SameNames (fs fs' : Ramfs) : Prop where
  lookup : ∀ path, fs'.lookup path = fs.lookup path
  follow : ∀ depth path, fs'.follow depth path = fs.follow depth path
  nlink : ∀ i, (fs'.inodes i).map RamfsInode.nlink = (fs.inodes i).map RamfsInode.nlink
  entries : ∀ d, fs'.childrenOf d = fs.childrenOf d

/-- The outcome of the `k`-th allocation from here on. -/
def allocAt (fs : Ramfs) (k : Nat) : Bool := fs.allocs[k]?.getD true

/-- The entry is the first of its directory and can be put back. -/
def CanPutBack (fs : Ramfs) (k d : Nat) (n : Name) (c : Nat) : Prop :=
  (fs.childrenOf d).head? = some (n, c) ∧ fs.allocAt k = true

/-- The call is one between directories that nothing but memory can stop. -/
structure Moves (fs : Ramfs) (oldDir : Nat) (oldName : Name) (newDir : Nat) (newName : Name) (src : Nat) : Prop where
  apart : oldDir ≠ newDir
  dir : fs.isDir newDir = true
  names : oldName.bytes ≠ [] ∧ newName.bytes ≠ [] ∧ oldName.isDotname = false ∧ newName.isDotname = false
  found : fs.findChild oldDir oldName = some src
  other : fs.findChild newDir newName ≠ some src
  outside : fs.movesBelow src newDir = some false
  target : ∀ dst, fs.findChild newDir newName = some dst →
    (fs.isDir src = true → fs.isDir dst = true ∧ fs.childrenOf dst = []) ∧ (fs.isDir src = false → fs.isDir dst = false)

/-- What a call needs to fail without a trace. -/
def Undoes (fs : Ramfs) : RamfsOp → Prop
  | .unlink d n => ∀ c, n.bytes ≠ [] → fs.findChild d n = some c → fs.isDir c = true → fs.CanPutBack 0 d n c
  | .rmdir d n => ∀ c, n.bytes ≠ [] → fs.findChild d n = some c → fs.isDir c = false ∨ fs.childrenOf c ≠ [] →
    fs.CanPutBack 0 d n c
  | .rename oldDir oldName newDir newName => ∀ src, fs.Moves oldDir oldName newDir newName src → fs.allocAt 0 = false →
      fs.findChild newDir newName = none ∧ fs.CanPutBack 1 oldDir oldName src
  | _ => True

variable {fs fs' : Ramfs} {c d i : Nat} {n : Name} {rc rd : RamfsInode} {e : Errno}

/-! ## Equal heaps -/

section Congr

variable (h : fs'.inodes = fs.inodes)
include h

theorem isDir_congr (i : Nat) : fs'.isDir i = fs.isDir i := by
  unfold isDir hasType
  rw [h]

theorem childrenOf_congr (i : Nat) : fs'.childrenOf i = fs.childrenOf i := by
  unfold childrenOf
  rw [h]

theorem findChild_congr (d : Nat) (n : Name) : fs'.findChild d n = fs.findChild d n := by
  unfold findChild
  rw [isDir_congr h, childrenOf_congr h]

theorem lookupAtLoop_congr (k d : Nat) (path : List UInt8) : fs'.lookupAtLoop k d path = fs.lookupAtLoop k d path := by
  have hparent : ∀ i, fs'.parentOf i = fs.parentOf i := fun i => by unfold parentOf; rw [h]
  induction k generalizing d path with
  | zero => rfl
  | succ k ih =>
    unfold lookupAtLoop
    simp only [ih, hparent, findChild_congr h, isDir_congr h]

theorem lookup_congr (path : List UInt8) : fs'.lookup path = fs.lookup path := by
  unfold lookup lookupAt
  rw [lookupAtLoop_congr h]

theorem follow_congr (k : Nat) (path : List UInt8) : fs'.follow k path = fs.follow k path := by
  have htype : ∀ i, fs'.hasType i .lnk = fs.hasType i .lnk := fun i => by unfold hasType; rw [h]
  have hread : ∀ i len, fs'.readlink i len = fs.readlink i len := fun i len => by unfold readlink; rw [h]
  induction k generalizing path with
  | zero => rfl
  | succ k ih =>
    unfold follow
    simp only [ih, lookup_congr h, htype, hread]

theorem sameNames_of_inodes : SameNames fs fs' := by
  refine ⟨lookup_congr h, follow_congr h, fun i => ?_, childrenOf_congr h⟩
  rw [h]

end Congr

/-! ## Operations that make a name -/

theorem kmalloc_fst (fs : Ramfs) : fs.kmalloc.1 = fs.allocAt 0 := by
  unfold kmalloc allocAt
  split <;> rename_i h <;> rw [h] <;> rfl

theorem kmalloc_inodes (fs : Ramfs) : fs.kmalloc.2.inodes = fs.inodes := by
  unfold kmalloc
  split <;> rfl

theorem kmalloc_allocAt (fs : Ramfs) (k : Nat) : fs.kmalloc.2.allocAt k = fs.allocAt (k + 1) := by
  unfold kmalloc allocAt
  split <;> rename_i h <;> rw [h] <;> rfl

theorem addChild_error (h : fs.addChild d n i = (.error e, fs')) : fs'.inodes = fs.inodes := by
  unfold addChild at h
  split at h
  · cases h
    rfl
  split at h
  · cases h
    rfl
  · have hk := kmalloc_inodes fs
    split at h
    · rename_i heq
      rw [heq] at hk
      cases h
      exact hk
    · cases h

variable {fs₁ : Ramfs}

/-- A new inode that could not be entered is gone again. -/
theorem enterNew_error (hfree : fs.inodes i = none) (hsame : ∀ j, j ≠ i → fs₁.inodes j = fs.inodes j)
    (h : fs₁.enterNew d n i = (.error e, fs')) : fs'.inodes = fs.inodes := by
  unfold enterNew at h
  split at h
  · rename_i heq
    cases h
    have hadd := addChild_error heq
    funext j
    by_cases hj : j = i
    · subst hj
      rw [hfree]
      exact update_self ..
    · rw [kfree_of_ne hj, hadd, hsame j hj]
  · cases h

theorem modify_of_ne {j : Nat} (f : RamfsInode → RamfsInode) (h : j ≠ i) : (fs.modify i f).inodes j = fs.inodes j := by
  unfold modify
  split
  · rfl
  · exact set_of_ne h

theorem allocInode_cases (hs : fs.Shape) (type : FileType) :
    (∃ fs₁, fs.allocInode type = (none, fs₁) ∧ fs₁.inodes = fs.inodes) ∨
      ∃ i fs₁, fs.allocInode type = (some i, fs₁) ∧ fs.inodes i = none ∧ ∀ j, j ≠ i → fs₁.inodes j = fs.inodes j := by
  have hk := kmalloc_inodes fs
  have hnext : fs.kmalloc.2.again.headD fs.kmalloc.2.nextIno = fs.nextIno := by
    unfold kmalloc
    split <;> simp [hs.unshared]
  unfold allocInode
  cases hm : fs.kmalloc with
  | mk ok fs₁ =>
    rw [hm] at hk hnext
    cases ok with
    | false => exact Or.inl ⟨fs₁, rfl, hk⟩
    | true =>
      refine Or.inr ⟨_, _, rfl, hs.fresh _ ?_, fun j hj => ?_⟩
      · dsimp only at hnext
        rw [hnext]
      · exact (set_of_ne hj).trans (congrFun hk j)

theorem makeNode_error {type : FileType} {setup : RamfsInode → RamfsInode} (hs : fs.Shape)
    (h : fs.makeNode d n type setup = (.error e, fs')) : fs'.inodes = fs.inodes := by
  unfold makeNode at h
  split_ifs at h
  · cases h
    rfl
  · obtain ⟨fs₁, ha, hsame⟩ | ⟨i, fs₁, ha, hfree, hsame⟩ := allocInode_cases hs type
    · rw [ha] at h
      cases h
      exact hsame
    · rw [ha] at h
      exact enterNew_error hfree (fun j hj => (modify_of_ne setup hj).trans (hsame j hj)) h

theorem inodeSymlink_error {target : List UInt8} (hs : fs.Shape) (h : fs.inodeSymlink d n target = (.error e, fs')) :
    fs'.inodes = fs.inodes := by
  unfold inodeSymlink at h
  split at h
  · cases h
    rfl
  split at h
  · cases h
    rfl
  split at h
  · cases h
    rfl
  split at h
  · exact makeNode_error hs h
  split at h
  · cases h
    rfl
  · obtain ⟨fs₁, ha, hsame⟩ | ⟨i, fs₁, ha, hfree, hsame⟩ := allocInode_cases hs .lnk
    · rw [ha] at h
      cases h
      exact hsame
    · rw [ha] at h
      have hk := kmalloc_inodes fs₁
      dsimp only at h
      split at h
      · rename_i heq
        rw [heq] at hk
        cases h
        funext j
        by_cases hj : j = i
        · subst hj
          rw [hfree]
          exact update_self ..
        · rw [kfree_of_ne hj, hk, hsame j hj]
      · rename_i heq
        rw [heq] at hk
        exact enterNew_error hfree (fun j hj => (modify_of_ne _ hj).trans ((congrFun hk j).trans (hsame j hj))) h

theorem inodeLink_error {old : Nat} (h : fs.inodeLink old d n = (.error e, fs')) : fs'.inodes = fs.inodes := by
  unfold inodeLink at h
  split at h
  · cases h
    rfl
  split at h
  · cases h
    rfl
  split at h
  · cases h
    rfl
  split at h
  · cases h
    rfl
  · split at h
    · rename_i heq
      cases h
      exact addChild_error heq
    · cases h

/-! ## Putting an entry back -/

theorem exists_of_findChild (hf : fs.findChild d n = some c) :
    ∃ rd, fs.inodes d = some rd ∧ rd.type = .dir ∧ (n, c) ∈ rd.children := by
  unfold findChild at hf
  split_ifs at hf with hdir
  obtain ⟨rd, hd, ht⟩ := exists_of_isDir hdir
  rw [childrenOf_of_live hd] at hf
  obtain ⟨⟨m, x⟩, hm, rfl⟩ := Option.map_eq_some_iff.1 hf
  have hname : m = n := by simpa using List.find?_some hm
  exact ⟨rd, hd, ht, hname ▸ List.mem_of_find?_eq_some hm⟩

theorem modify_eq_self {f : RamfsInode → RamfsInode} (h : ∀ r, fs.inodes i = some r → f r = r) :
    (fs.modify i f).inodes = fs.inodes := by
  unfold modify
  split
  · rfl
  · rename_i r hr
    rw [h r hr]
    exact update_eq_self_iff.2 hr.symm

/-- An entry that is put back becomes the first. -/
theorem cons_eraseP_eq_iff {l : List (Name × Nat)} : (n, c) :: l.eraseP (fun e => e.1 = n) = l ↔
    l.head? = some (n, c) := by
  constructor
  · intro h
    rw [← h]
    rfl
  · intro h
    obtain ⟨t, rfl⟩ : ∃ t, l = (n, c) :: t := by
      cases l with
      | nil => cases h
      | cons x t => exact ⟨t, by rw [Option.some.inj h]⟩
    rw [List.eraseP_cons_of_pos (by simp)]

/-- The heap after the entry is entered again: only the list of its directory may differ. -/
theorem pushChild_dropped (hs : fs.Shape) (hd : fs.inodes d = some rd) (hm : (n, c) ∈ rd.children)
    (h : fs'.inodes = (fs.dropChild d n).inodes) :
    (fs'.pushChild d n c).inodes = update fs.inodes d
      (some { rd with children := (n, c) :: rd.children.eraseP fun e => e.1 = n }) := by
  have hdrop : fs.dropChild d n = fs.set d { rd with children := rd.children.eraseP fun e => e.1 = n } :=
    modify_of_live hd _
  rw [hdrop] at h
  obtain ⟨hne, rc, hc, hp⟩ := hs.entry d rd n c hd hm
  -- the parent pointer of a directory is what it was
  have hparent : ∀ r, fs'.inodes c = some r → fs'.isDir c = true → { r with parent := some d } = r := by
    intro r hr hdir
    have ht : r.type = .dir := by simpa [isDir_of_live hr] using hdir
    rw [h, set_of_ne hne, hc] at hr
    cases hr
    rw [← hp ht]
  have hsame : (if fs'.isDir c = true then fs'.modify c fun ri => { ri with parent := some d } else fs').inodes =
    fs'.inodes := by
    split_ifs with hdir
    · exact modify_eq_self fun r hr => hparent r hr hdir
    · rfl
  have hlive : (if fs'.isDir c = true then fs'.modify c fun ri => { ri with parent := some d } else fs').inodes d =
      some { rd with children := rd.children.eraseP fun e => e.1 = n } := by
    rw [hsame, h]
    exact set_self ..
  unfold pushChild
  dsimp only
  rw [modify_of_live hlive]
  unfold set
  dsimp only
  rw [hsame, h]
  exact update_idem ..

theorem dropChild_ne (hm : (n, c) ∈ rd.children) : rd.children.eraseP (fun e => e.1 = n) ≠ rd.children := by
  intro h
  have hlen := List.length_eraseP_of_mem (p := fun e : Name × Nat => decide (e.1 = n)) hm (by simp)
  rw [h] at hlen
  have := List.length_pos_of_mem hm
  omega

/-- Taking an entry out and entering it again goes unseen exactly when it was the first of its directory and
there is memory for it. -/
theorem putBack_sameNames_iff (hs : fs.Shape) (hf : fs.findChild d n = some c)
    (h : fs'.inodes = (fs.dropChild d n).inodes) :
    SameNames fs (fs'.addChild d n c).2 ↔ (fs.childrenOf d).head? = some (n, c) ∧ fs'.allocAt 0 = true := by
  obtain ⟨rd, hd, ht, hm⟩ := exists_of_findChild hf
  have hdrop : fs.dropChild d n = fs.set d { rd with children := rd.children.eraseP fun e => e.1 = n } :=
    modify_of_live hd _
  have hlive : fs'.inodes d = some { rd with children := rd.children.eraseP fun e => e.1 = n } := by
    rw [h, hdrop]
    exact set_self ..
  have hdir : fs'.isDir d = true := by
    rw [isDir_of_live hlive]
    exact decide_eq_true ht
  have hfree : fs'.findChild d n = none := by
    rw [findChild_congr h, hdrop, findChild_pull (hs.distinct d rd hd) hd ht rfl, setEntry_self]
  have hk := kmalloc_inodes fs'
  have hok := kmalloc_fst fs'
  unfold addChild
  rw [hdir, hfree, if_neg (by simp), if_neg (by simp), childrenOf_of_live hd, ← hok]
  cases hm' : fs'.kmalloc with
  | mk ok fs₁ =>
    rw [hm'] at hk
    cases ok with
    | false =>
      -- the entry is lost
      refine iff_of_false (fun hsame => ?_) (by simp)
      have hent := hsame.entries d
      rw [childrenOf_of_live hd, childrenOf_of_live (hk.trans h ▸ hdrop ▸ set_self ..)] at hent
      exact dropChild_ne hm hent
    | true =>
      dsimp only at hk ⊢
      have hpush := pushChild_dropped hs hd hm (hk.trans h)
      rw [and_iff_left rfl, ← cons_eraseP_eq_iff]
      constructor
      · intro hsame
        have hent := hsame.entries d
        rwa [childrenOf_of_live hd, childrenOf_of_live (by rw [hpush]; exact update_self ..)] at hent
      · intro hlist
        apply sameNames_of_inodes
        rw [hpush, hlist]
        exact update_eq_self_iff.2 hd.symm

/-! ## Operations that take a name out -/

theorem removeChild_cases (fs : Ramfs) (d : Nat) (n : Name) :
    (∃ e, fs.removeChild d n = (.error e, fs) ∧ fs.findChild d n = none) ∨
      ∃ c, fs.removeChild d n = (.ok c, fs.dropChild d n) ∧ fs.findChild d n = some c := by
  unfold removeChild
  split
  · rename_i hdir
    refine Or.inl ⟨_, rfl, ?_⟩
    unfold findChild
    exact if_neg hdir
  · split
    · rename_i hf
      exact Or.inl ⟨_, rfl, hf⟩
    · rename_i c hf
      exact Or.inr ⟨c, rfl, hf⟩

theorem dropChild_isDir_eq (i : Nat) : (fs.dropChild d n).isDir i = fs.isDir i := by
  unfold dropChild
  cases hd : fs.inodes d with
  | none =>
    unfold modify
    rw [hd]
  | some rd =>
    rw [modify_of_live hd]
    by_cases hi : i = d
    · subst hi
      rw [isDir_of_live (set_self ..), isDir_of_live hd]
    · unfold isDir hasType
      rw [set_of_ne hi]

theorem dropChild_allocAt (k : Nat) : (fs.dropChild d n).allocAt k = fs.allocAt k := by
  unfold dropChild modify
  split <;> rfl

theorem dropChild_childrenOf {x : Nat} (hne : x ≠ d) : (fs.dropChild d n).childrenOf x = fs.childrenOf x := by
  unfold childrenOf dropChild
  rw [modify_of_ne _ hne]

theorem inodeUnlink_stops (h : ∀ c, n.bytes ≠ [] → fs.findChild d n ≠ some c) : ∃ e,
    fs.inodeUnlink d n = (.error e, fs) := by
  unfold inodeUnlink
  split
  · exact ⟨_, rfl⟩
  split
  · exact ⟨_, rfl⟩
  rename_i hn _
  obtain ⟨e, hr, -⟩ | ⟨c, -, hf⟩ := removeChild_cases fs d n
  · rw [hr]
    exact ⟨e, rfl⟩
  · exact absurd hf (h c hn)

theorem inodeUnlink_of_entry (hn : n.bytes ≠ []) (hf : fs.findChild d n = some c) :
    fs.inodeUnlink d n = if fs.isDir c then (.error .isdir, ((fs.dropChild d n).addChild d n c).2)
      else (.ok none, (fs.dropChild d n).dropNlink c) := by
  unfold inodeUnlink removeChild
  rw [if_neg hn, isDir_of_findChild hf, if_neg (by simp), if_neg (by simp), hf]
  dsimp only
  rw [dropChild_isDir_eq]

theorem inodeRmdir_stops (h : ∀ c, n.bytes ≠ [] → fs.findChild d n ≠ some c) : ∃ e,
    fs.inodeRmdir d n = (.error e, fs) := by
  unfold inodeRmdir
  split
  · exact ⟨_, rfl⟩
  split
  · exact ⟨_, rfl⟩
  rename_i hn _
  obtain ⟨e, hr, -⟩ | ⟨c, -, hf⟩ := removeChild_cases fs d n
  · rw [hr]
    exact ⟨e, rfl⟩
  · exact absurd hf (h c hn)

theorem inodeRmdir_of_entry (hn : n.bytes ≠ []) (hf : fs.findChild d n = some c) (hne : c ≠ d) :
    fs.inodeRmdir d n = if fs.isDir c = false then (.error .notdir, ((fs.dropChild d n).addChild d n c).2)
      else if fs.childrenOf c ≠ [] then (.error .notempty, ((fs.dropChild d n).addChild d n c).2)
      else (.ok none, (fs.dropChild d n).clearNlink c) := by
  unfold inodeRmdir removeChild
  rw [if_neg hn, isDir_of_findChild hf, if_neg (by simp), if_neg (by simp), hf]
  dsimp only
  rw [dropChild_isDir_eq, dropChild_childrenOf hne]
  simp only [Bool.not_eq_true]

/-- An operation that removes an entry and then puts it back. -/
theorem undone_iff (hs : fs.Shape) (hn : n.bytes ≠ []) (hf : fs.findChild d n = some c) {P : Nat → Prop} (hP : P c) :
    SameNames fs ((fs.dropChild d n).addChild d n c).2 ↔
      ∀ c, n.bytes ≠ [] → fs.findChild d n = some c → P c → fs.CanPutBack 0 d n c := by
  rw [putBack_sameNames_iff hs hf rfl, dropChild_allocAt]
  constructor
  · intro hback x _ hx _
    obtain rfl := Option.mem_unique hf hx
    exact hback
  · exact fun hback => hback c hn hf hP

theorem inodeUnlink_error (hs : fs.Shape) (h : fs.inodeUnlink d n = (.error e, fs')) :
    SameNames fs fs' ↔ fs.Undoes (.unlink d n) := by
  by_cases hentry : ∃ c, n.bytes ≠ [] ∧ fs.findChild d n = some c
  · obtain ⟨c, hn, hf⟩ := hentry
    rw [inodeUnlink_of_entry hn hf] at h
    split at h
    · rename_i hdir
      cases h
      exact undone_iff hs hn hf hdir
    · cases h
  · push Not at hentry
    obtain ⟨e', heq⟩ := inodeUnlink_stops hentry
    cases heq.symm.trans h
    exact iff_of_true (sameNames_of_inodes rfl) fun c hn hf => absurd hf (hentry c hn)

theorem inodeRmdir_error (hs : fs.Shape) (h : fs.inodeRmdir d n = (.error e, fs')) :
    SameNames fs fs' ↔ fs.Undoes (.rmdir d n) := by
  by_cases hentry : ∃ c, n.bytes ≠ [] ∧ fs.findChild d n = some c
  · obtain ⟨c, hn, hf⟩ := hentry
    obtain ⟨rd, hd, -, hm⟩ := exists_of_findChild hf
    rw [inodeRmdir_of_entry hn hf (hs.entry d rd n c hd hm).1] at h
    split at h
    · rename_i hdir
      cases h
      exact undone_iff hs hn hf (P := fun c => fs.isDir c = false ∨ fs.childrenOf c ≠ []) (Or.inl hdir)
    split at h
    · rename_i hfull
      cases h
      exact undone_iff hs hn hf (P := fun c => fs.isDir c = false ∨ fs.childrenOf c ≠ []) (Or.inr hfull)
    · cases h
  · push Not at hentry
    obtain ⟨e', heq⟩ := inodeRmdir_stops hentry
    cases heq.symm.trans h
    exact iff_of_true (sameNames_of_inodes rfl) fun c hn hf => absurd hf (hentry c hn)

/-! ## Rename -/

section Rename

variable {oldDir newDir src dst : Nat} {oldName newName : Name}

theorem dropChild_findChild {x : Nat} {m : Name} (hne : x ≠ d) :
    (fs.dropChild d n).findChild x m = fs.findChild x m := by
  unfold findChild
  rw [dropChild_isDir_eq, dropChild_childrenOf hne]

/-- A move between directories that fails has met an allocation that failed, and goes on to put the entry
back. -/
theorem moveEntry_error (hne : oldDir ≠ newDir) (hf : fs.findChild oldDir oldName = some src)
    (hdir : fs.isDir newDir = true)
    (hfree : fs.findChild newDir newName = none) (h : fs.moveEntry oldDir oldName newDir newName = (.error e, fs')) :
    fs.allocAt 0 = false ∧ ∃ fs₁ : Ramfs, fs₁.inodes = (fs.dropChild oldDir oldName).inodes ∧
      fs₁.allocAt 0 = fs.allocAt 1 ∧ fs' = (fs₁.addChild oldDir oldName src).2 := by
  have hk := kmalloc_inodes (fs.dropChild oldDir oldName)
  have hok := kmalloc_fst (fs.dropChild oldDir oldName)
  have hnext := kmalloc_allocAt (fs.dropChild oldDir oldName) 0
  rw [dropChild_allocAt] at hok hnext
  have hadd : (fs.dropChild oldDir oldName).addChild newDir newName src =
      if fs.allocAt 0 then (.ok (), (fs.dropChild oldDir oldName).kmalloc.2.pushChild newDir newName src)
      else (.error .nomem, (fs.dropChild oldDir oldName).kmalloc.2) := by
    unfold addChild
    rw [dropChild_isDir_eq, hdir, dropChild_findChild (Ne.symm hne), hfree, if_neg (by simp), if_neg (by simp), ← hok]
    cases (fs.dropChild oldDir oldName).kmalloc with
    | mk ok fs₁ => cases ok <;> rfl
  unfold moveEntry at h
  obtain ⟨_, -, hnone⟩ | ⟨c, hr, hc⟩ := removeChild_cases fs oldDir oldName
  · rw [hf] at hnone
    cases hnone
  · obtain rfl := Option.mem_unique hf hc
    rw [if_neg hne, hr] at h
    dsimp only at h
    rw [hadd] at h
    cases ha : fs.allocAt 0 with
    | true =>
      rw [ha] at h
      cases h
    | false =>
      rw [ha] at h
      cases h
      exact ⟨rfl, _, hk, hnext, rfl⟩

theorem move_error (hs : fs.Shape) (hm : fs.Moves oldDir oldName newDir newName src)
    (hfree : fs.findChild newDir newName = none) (h : fs.moveEntry oldDir oldName newDir newName = (.error e, fs')) :
    SameNames fs fs' ↔ fs.Undoes (.rename oldDir oldName newDir newName) := by
  obtain ⟨hfail, fs₁, hinodes, halloc, rfl⟩ := moveEntry_error hm.apart hm.found hm.dir hfree h
  rw [putBack_sameNames_iff hs hm.found hinodes, halloc]
  unfold Undoes
  constructor
  · intro hback x hx _
    obtain rfl := Option.mem_unique hm.found hx.found
    exact ⟨hfree, hback⟩
  · exact fun hall => (hall src hm hfail).2

/-- Eviction of an inode without children touches no other one. -/
theorem inodeMaybeEvict_frame (hch : fs.childrenOf i = [] ∨ fs.isDir i = false) :
    (∀ x, x ≠ i → (fs.inodeMaybeEvict i).inodes x = fs.inodes x) ∧ (fs.inodeMaybeEvict i).allocs = fs.allocs := by
  have hfree : ∀ depth, (∀ x, x ≠ i → (freeInode depth fs i).inodes x = fs.inodes x) ∧
    (freeInode depth fs i).allocs = fs.allocs := by
    intro depth
    cases depth with
    | zero => exact ⟨fun _ _ => rfl, rfl⟩
    | succ depth =>
      have hkeep : (if fs.isDir i = true then (fs.childrenOf i).foldl (fun fs e => freeInode depth fs e.2) fs else fs) =
        fs := by
        rcases hch with hnil | hdir
        · rw [hnil]
          split <;> rfl
        · rw [hdir]
          rfl
      unfold freeInode
      dsimp only
      rw [hkeep]
      split
      · exact ⟨fun _ _ => rfl, rfl⟩
      · exact ⟨fun x hx => kfree_of_ne hx, rfl⟩
  unfold inodeMaybeEvict
  split
  · exact ⟨fun _ _ => rfl, rfl⟩
  split
  · exact ⟨fun _ _ => rfl, rfl⟩
  split
  · exact ⟨fun _ _ => rfl, rfl⟩
  · exact hfree fs.nextIno

theorem unname_frame {f : RamfsInode → RamfsInode} (hf : ∀ r, (f r).children = r.children ∧ (f r).type = r.type)
    (hch : fs.childrenOf i = [] ∨ fs.isDir i = false) :
    (∀ x, x ≠ i → ((fs.modify i f).inodeMaybeEvict i).inodes x = fs.inodes x) ∧
      ((fs.modify i f).inodeMaybeEvict i).allocs = fs.allocs := by
  have hallocs : (fs.modify i f).allocs = fs.allocs := by
    unfold modify
    split <;> rfl
  have hsame : (fs.modify i f).childrenOf i = fs.childrenOf i ∧ (fs.modify i f).isDir i = fs.isDir i := by
    unfold modify
    cases hi : fs.inodes i with
    | none => exact ⟨rfl, rfl⟩
    | some r =>
      dsimp only
      rw [childrenOf_of_live (set_self ..), isDir_of_live (set_self ..), childrenOf_of_live hi, isDir_of_live hi,
        (hf r).1, (hf r).2]
      exact ⟨rfl, rfl⟩
  have hch' : (fs.modify i f).childrenOf i = [] ∨ (fs.modify i f).isDir i = false := by
    rw [hsame.1, hsame.2]
    exact hch
  obtain ⟨hothers, hevict⟩ := inodeMaybeEvict_frame hch'
  exact ⟨fun x hx => (hothers x hx).trans (modify_of_ne f hx), hevict.trans hallocs⟩

theorem replaceTarget_error (hdst : fs.findChild newDir newName = some dst)
    (h : fs.replaceTarget src newDir newName dst = (.error e, fs₁)) :
    fs₁ = fs ∧ ¬ ((fs.isDir src = true → fs.isDir dst = true ∧ fs.childrenOf dst = []) ∧
      (fs.isDir src = false → fs.isDir dst = false)) := by
  unfold replaceTarget at h
  split at h
  · rename_i hbad
    cases h
    exact ⟨rfl, fun htarget => hbad.2 (htarget.1 hbad.1).1⟩
  split at h
  · rename_i hbad
    cases h
    exact ⟨rfl, fun htarget => hbad.2 (htarget.1 hbad.1).2⟩
  split at h
  · rename_i hbad
    cases h
    refine ⟨rfl, fun htarget => ?_⟩
    rw [htarget.2 (by simpa using hbad.1)] at hbad
    exact absurd hbad.2 (by decide)
  · obtain ⟨_, -, hnone⟩ | ⟨x, hr, -⟩ := removeChild_cases fs newDir newName
    · rw [hdst] at hnone
      cases hnone
    · rw [hr] at h
      cases h

/-- The target that is replaced is gone from its directory, and nothing else has moved. -/
theorem replaceTarget_ok (hdst : fs.findChild newDir newName = some dst) (hd : fs.inodes newDir = some rd)
    (h : fs.replaceTarget src newDir newName dst = (.ok (), fs₁)) :
    ((fs.isDir src = true → fs.isDir dst = true ∧ fs.childrenOf dst = []) ∧
      (fs.isDir src = false → fs.isDir dst = false)) ∧
      fs₁.inodes newDir = some { rd with children := rd.children.eraseP fun e => e.1 = newName } ∧
      (∀ x, x ≠ newDir → x ≠ dst → fs₁.inodes x = fs.inodes x) ∧ fs₁.allocs = fs.allocs := by
  obtain ⟨rd', hd', ht, hm⟩ := exists_of_findChild hdst
  obtain rfl := Option.mem_unique hd hd'
  have hdir : fs.isDir newDir = true := isDir_of_findChild hdst
  unfold replaceTarget at h
  split at h
  · cases h
  split at h
  · cases h
  split at h
  · cases h
  rename_i h1 h2 h3
  have htarget : (fs.isDir src = true → fs.isDir dst = true ∧ fs.childrenOf dst = []) ∧
    (fs.isDir src = false → fs.isDir dst = false) := by
    constructor
    · intro hsrc
      constructor
      · by_contra hno
        exact h1 ⟨hsrc, hno⟩
      · by_contra hno
        exact h2 ⟨hsrc, hno⟩
    · intro hsrc
      by_contra hno
      exact h3 ⟨by simp [hsrc], by simpa using hno⟩
  have hch : fs.childrenOf dst = [] ∨ fs.isDir dst = false := by
    cases hsrc : fs.isDir src with
    | true => exact Or.inl (htarget.1 hsrc).2
    | false => exact Or.inr (htarget.2 hsrc)
  have hne : dst ≠ newDir := by
    rintro rfl
    rcases hch with hnil | hno
    · rw [childrenOf_of_live hd] at hnil
      rw [hnil] at hm
      cases hm
    · rw [hdir] at hno
      cases hno
  obtain ⟨_, -, hnone⟩ | ⟨x, hr, hx⟩ := removeChild_cases fs newDir newName
  · rw [hdst] at hnone
    cases hnone
  · obtain rfl := Option.mem_unique hdst hx
    rw [hr] at h
    cases h
    have hdrop : (fs.dropChild newDir newName).inodes newDir =
      some { rd with children := rd.children.eraseP fun e => e.1 = newName } := by
      unfold dropChild
      rw [modify_of_live hd]
      exact set_self ..
    have hallocs : (fs.dropChild newDir newName).allocs = fs.allocs := by
      unfold dropChild modify
      split <;> rfl
    have hch' : (fs.dropChild newDir newName).childrenOf dst = [] ∨
      (fs.dropChild newDir newName).isDir dst = false := by
      rw [dropChild_childrenOf hne, dropChild_isDir_eq]
      exact hch
    refine ⟨htarget, ?_⟩
    have hboth : ∀ fs₁ : Ramfs, (∀ x, x ≠ dst → fs₁.inodes x = (fs.dropChild newDir newName).inodes x) ∧
        fs₁.allocs = (fs.dropChild newDir newName).allocs →
        fs₁.inodes newDir = some { rd with children := rd.children.eraseP fun e => e.1 = newName } ∧
          (∀ x, x ≠ newDir → x ≠ dst → fs₁.inodes x = fs.inodes x) ∧ fs₁.allocs = fs.allocs := by
      rintro fs₁ ⟨hothers, hal⟩
      refine ⟨(hothers newDir hne.symm).trans hdrop, fun x h1 h2 => (hothers x h2).trans (modify_of_ne _ h1),
        hal.trans hallocs⟩
    split
    · exact hboth _ (unname_frame (fun _ => ⟨rfl, rfl⟩) hch')
    · exact hboth _ (unname_frame (fun _ => ⟨rfl, rfl⟩) hch')

theorem addChild_childrenOf {x : Nat} (hne : x ≠ d) : (fs.addChild d n i).2.childrenOf x = fs.childrenOf x := by
  have hk := childrenOf_congr (kmalloc_inodes fs) x
  unfold addChild
  split
  · rfl
  split
  · rfl
  cases hm : fs.kmalloc with
  | mk ok fs₁ =>
    rw [hm] at hk
    cases ok with
    | false => exact hk
    | true =>
      dsimp only at hk ⊢
      rw [← hk]
      unfold pushChild
      dsimp only
      have hpar : ∀ j, (fs₁.modify j fun ri => { ri with parent := some d }).childrenOf x = fs₁.childrenOf x := by
        intro j
        unfold modify childrenOf
        cases hj : fs₁.inodes j with
        | none => rfl
        | some r =>
          dsimp only
          by_cases hx : x = j
          · subst hx
            rw [set_self, hj]
          · rw [set_of_ne hx]
      have hcell : ∀ fs₂ : Ramfs, (fs₂.modify d fun r => { r with children := (n, i) :: r.children }).childrenOf x =
        fs₂.childrenOf x := by
        intro fs₂
        unfold childrenOf
        rw [modify_of_ne _ hne]
      rw [hcell]
      split
      · exact hpar i
      · rfl

/-- A target that was replaced before the move failed is lost. -/
theorem replaced_error (hs : fs.Shape) (hm : fs.Moves oldDir oldName newDir newName src)
    (hdst : fs.findChild newDir newName = some dst) (hr : fs.replaceTarget src newDir newName dst = (.ok (), fs₁))
    (h : fs₁.moveEntry oldDir oldName newDir newName = (.error e, fs')) :
    SameNames fs fs' ↔ fs.Undoes (.rename oldDir oldName newDir newName) := by
  obtain ⟨rd, hd, ht, hmem⟩ := exists_of_findChild hdst
  obtain ⟨ro, ho, hot, homem⟩ := exists_of_findChild hm.found
  obtain ⟨htarget, hnew, hothers, hallocs⟩ := replaceTarget_ok hdst hd hr
  -- the directory of the entry is not the target
  have hne : oldDir ≠ dst := by
    rintro rfl
    have hdir : fs.isDir oldDir = true := isDir_of_findChild hm.found
    cases hsrc : fs.isDir src with
    | true =>
      have hnil := (htarget.1 hsrc).2
      rw [childrenOf_of_live ho] at hnil
      rw [hnil] at homem
      cases homem
    | false =>
      rw [htarget.2 hsrc] at hdir
      cases hdir
  have hold : fs₁.inodes oldDir = fs.inodes oldDir := hothers oldDir hm.apart hne
  have hfound : fs₁.findChild oldDir oldName = some src := by
    rw [findChild_eq, hold, ← findChild_eq, hm.found]
  have hdir : fs₁.isDir newDir = true := by
    rw [isDir_of_live hnew]
    exact decide_eq_true ht
  have hfree : fs₁.findChild newDir newName = none := by
    rw [findChild_of_live hnew ht, find?_eraseP (hs.distinct newDir rd hd), if_pos rfl]
    rfl
  obtain ⟨hfail, fs₂, hinodes, -, rfl⟩ := moveEntry_error hm.apart hfound hdir hfree h
  refine iff_of_false (fun hsame => ?_) fun hall => ?_
  · have hent := hsame.entries newDir
    rw [addChild_childrenOf (Ne.symm hm.apart), childrenOf_congr hinodes, dropChild_childrenOf (Ne.symm hm.apart),
      childrenOf_of_live hnew, childrenOf_of_live hd] at hent
    exact dropChild_ne hmem hent
  · have hfail' : fs.allocAt 0 = false := by
      unfold allocAt at hfail ⊢
      rwa [hallocs] at hfail
    have hnone := (hall src hm hfail').1
    rw [hdst] at hnone
    cases hnone

/-- `ramfs_inode_rename` that returns an error. -/
theorem inodeRename_error (hs : fs.Shape) (h : fs.inodeRename oldDir oldName newDir newName = some (.error e, fs')) :
    SameNames fs fs' ↔ fs.Undoes (.rename oldDir oldName newDir newName) := by
  have hstop : (∀ src, ¬ fs.Moves oldDir oldName newDir newName src) → fs' = fs →
      (SameNames fs fs' ↔ fs.Undoes (.rename oldDir oldName newDir newName)) := by
    rintro hno rfl
    exact iff_of_true (sameNames_of_inodes rfl) fun src hm => absurd hm (hno src)
  unfold inodeRename at h
  split at h
  · rename_i hdirs
    cases h
    refine hstop (fun src hm => ?_) rfl
    rcases hdirs with hd | hd
    · exact hd (isDir_of_findChild hm.found)
    · exact hd hm.dir
  split at h
  · rename_i hnames
    cases h
    refine hstop (fun src hm => ?_) rfl
    rcases hnames with hn | hn
    · exact hm.names.1 hn
    · exact hm.names.2.1 hn
  split at h
  · rename_i hdots
    cases h
    refine hstop (fun src hm => ?_) rfl
    rw [hm.names.2.2.1, hm.names.2.2.2] at hdots
    cases hdots
  rename_i hdirs hnames hdots
  push Not at hdirs hnames
  split at h
  · rename_i hnone
    cases h
    refine hstop (fun src hm => ?_) rfl
    rw [hm.found] at hnone
    cases hnone
  rename_i src hsrc
  split at h
  · cases h
  rename_i hother
  split at h
  · cases h
  · rename_i hbelow
    cases h
    refine hstop (fun x hm => ?_) rfl
    obtain rfl := Option.mem_unique hsrc hm.found
    rw [hm.outside] at hbelow
    cases hbelow
  rename_i hbelow
  by_cases hsame : oldDir = newDir
  · -- the entry is renamed in place: only the target can be in the way
    have hmove : ∀ fs₁ : Ramfs, ∃ fs₂, fs₁.moveEntry oldDir oldName newDir newName = (.ok (), fs₂) := by
      intro fs₁
      unfold moveEntry
      rw [if_pos hsame]
      exact ⟨_, rfl⟩
    refine hstop (fun x hm => hm.apart hsame) ?_
    split at h
    · obtain ⟨fs₂, heq⟩ := hmove fs
      rw [heq] at h
      cases h
    · rename_i dst hdst
      split at h
      · rename_i hr
        cases h
        exact (replaceTarget_error hdst hr).1
      · rename_i fs₁ _
        obtain ⟨fs₂, heq⟩ := hmove fs₁
        rw [heq] at h
        cases h
  have hmoves : (∀ dst, fs.findChild newDir newName = some dst → _) → fs.Moves oldDir oldName newDir newName src :=
    fun htarget => ⟨hsame, hdirs.2, ⟨hnames.1, hnames.2, by simpa using hdots⟩, hsrc, hother, hbelow, htarget⟩
  split at h
  · rename_i hnone
    refine move_error hs (hmoves fun dst hdst => ?_) hnone (Option.some.inj h)
    rw [hnone] at hdst
    cases hdst
  · rename_i dst hdst
    split at h
    · rename_i hr
      cases h
      obtain ⟨hkept, hno⟩ := replaceTarget_error hdst hr
      exact hstop (fun x hm => by
        obtain rfl := Option.mem_unique hsrc hm.found
        exact hno (hm.target dst hdst)) hkept
    · rename_i fs₁ hr
      obtain ⟨rd, hd, -, -⟩ := exists_of_findChild hdst
      refine replaced_error hs (hmoves fun x hx => ?_) hdst hr (Option.some.inj h)
      obtain rfl := Option.mem_unique hdst hx
      exact (replaceTarget_ok hdst hd hr).1

end Rename

end Ramfs

open Ramfs

/-- A call on a tree, whatever the allocations do, that returns an error: it leaves every path, every link
counter and the order of every directory as they were, if and only if it had nothing to put back or could
put it back where it was. -/
theorem call_sameNames_iff (fs fs' : Ramfs) (op : RamfsOp) (e : Errno) (hs : fs.Shape)
    (h : fs.call op = some (.error e, fs')) : SameNames fs fs' ↔ fs.Undoes op := by
  have herror : ∀ {p : Except Errno (Option Nat) × Ramfs}, some (p.map (Except.map fun _ => ()) id) =
      some (.error e, fs') → p = (.error e, fs') := by
    rintro ⟨r, fs₁⟩ hp
    cases r with
    | error e' =>
      cases hp
      rfl
    | ok v => cases hp
  have hkeeps : fs'.inodes = fs.inodes → (SameNames fs fs' ↔ True) := fun hi =>
    iff_of_true (sameNames_of_inodes hi) trivial
  unfold call at h
  cases op with
  | mkdir d n mode =>
    have hp := herror h
    unfold inodeMkdir at hp
    split at hp
    · cases hp
      exact hkeeps rfl
    split at hp
    · cases hp
      exact hkeeps rfl
    · exact hkeeps (makeNode_error hs hp)
  | mknod d n mode rdev =>
    have hp := herror h
    unfold inodeMknod at hp
    split at hp
    · cases hp
      exact hkeeps rfl
    split at hp
    · cases hp
      exact hkeeps rfl
    split at hp
    · cases hp
      exact hkeeps rfl
    · exact hkeeps (makeNode_error hs hp)
  | create path mode =>
    have hp := herror h
    unfold create at hp
    split at hp
    · cases hp
      exact hkeeps rfl
    split at hp
    · cases hp
      exact hkeeps rfl
    · exact hkeeps (makeNode_error hs hp)
  | symlink d n target => exact hkeeps (inodeSymlink_error hs (herror h))
  | link old d n => exact hkeeps (inodeLink_error (herror h))
  | unlink d n => exact inodeUnlink_error hs (herror h)
  | rmdir d n => exact inodeRmdir_error hs (herror h)
  | rename oldDir oldName newDir newName => exact inodeRename_error hs h

/-- Two directories, of which the second is listed first. -/
def twoDirs : List RamfsOp := [.mkdir rootIno (Name.clip [97]) 0o755, .mkdir rootIno (Name.clip [98]) 0o755]

/-- Unlinking the directory that is listed first fails without a trace. -/
theorem call_sameNames_iff_of_first : ∃ fs fs', run Ramfs.step (Ramfs.init []) twoDirs = some fs ∧
    fs.call (.unlink rootIno (Name.clip [98])) = some (.error .isdir, fs') ∧ SameNames fs fs' := by
  obtain ⟨fs, hrun⟩ : ∃ fs, run Ramfs.step (Ramfs.init []) twoDirs = some fs := ⟨_, rfl⟩
  obtain ⟨hinv, -⟩ := run_invariant (fun _ _ _ hi hs => step_unheld hi hs) ⟨init_inv (by simp), init_unheld []⟩ hrun
  have hfacts : fs.findChild rootIno (Name.clip [98]) = some 3 ∧ fs.isDir 3 = true ∧
      (fs.childrenOf rootIno).head? = some (Name.clip [98], 3) ∧ fs.allocAt 0 = true := by
    cases hrun
    decide
  obtain ⟨hf, hdir, hhead, halloc⟩ := hfacts
  have hcall : fs.call (.unlink rootIno (Name.clip [98])) =
      some (.error .isdir, ((fs.dropChild rootIno (Name.clip [98])).addChild rootIno (Name.clip [98]) 3).2) := by
    unfold call
    dsimp only
    rw [inodeUnlink_of_entry (by decide) hf, if_pos hdir]
    rfl
  refine ⟨fs, _, hrun, hcall, (call_sameNames_iff fs _ _ _ hinv.shape hcall).2 ?_⟩
  intro c _ hc _
  obtain rfl := Option.mem_unique hf hc
  exact ⟨hhead, halloc⟩

/-- Unlinking the other one fails too, and changes the order of the directory; when the entry cannot be
allocated again the directory has lost its name. -/
theorem call_not_sameNames : ∃ fs fs₁ fs₂, run Ramfs.step (Ramfs.init []) twoDirs = some fs ∧
    fs.childrenOf rootIno = [(Name.clip [98], 3), (Name.clip [97], 2)] ∧ fs.lookup [47, 97] = some 2 ∧
    fs.call (.unlink rootIno (Name.clip [97])) = some (.error .isdir, fs₁) ∧
    fs₁.childrenOf rootIno = [(Name.clip [97], 2), (Name.clip [98], 3)] ∧
    { fs with allocs := [false] }.call (.unlink rootIno (Name.clip [97])) = some (.error .isdir, fs₂) ∧
    fs₂.lookup [47, 97] = none :=
  ⟨_, _, _, rfl, by decide, by decide, rfl, by decide, rfl, by decide⟩

end MiniOs.Fs
