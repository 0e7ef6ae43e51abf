/-
Allocations that fail: an operation of ramfs reads its tree and nothing of the allocations to come, so a
creating call does what it does when all of them succeed, or it is refused.
-/
import MiniOs.Fs.RamfsPath
import MiniOs.Proofs.Fs.RamfsOps

namespace MiniOs.Fs

namespace Ramfs

variable {fs fs' : Ramfs} {l : List Bool} {d i : Nat} {n : Name}

/-- The tree with other allocations to come. -/
def withAllocs (fs : Ramfs) (l : List Bool) : Ramfs := { fs with allocs := l }

/-- The tree is whole, whatever becomes of the next allocations. -/
def Tree (fs : Ramfs) : Prop := (fs.withAllocs []).Inv .empty

theorem kmalloc_withAllocs (fs : Ramfs) (l : List Bool) :
    (fs.withAllocs l).kmalloc = (l.headD true, fs.withAllocs l.tail) := by
  cases l <;> rfl

theorem modify_withAllocs (fs : Ramfs) (l : List Bool) (i : Nat) (f : RamfsInode → RamfsInode) :
    (fs.withAllocs l).modify i f = (fs.modify i f).withAllocs l := by
  cases h : fs.inodes i <;> simp [modify, withAllocs, h, set]

theorem pushChild_withAllocs (fs : Ramfs) (l : List Bool) (d : Nat) (n : Name) (i : Nat) :
    (fs.withAllocs l).pushChild d n i = (fs.pushChild d n i).withAllocs l := by
  have hdir : (fs.withAllocs l).isDir i = fs.isDir i := rfl
  unfold pushChild
  rw [hdir]
  split <;> simp only [modify_withAllocs]

/-- `p` is what a call does with the allocations `l` to come, and `q` what it does when all succeed: the
same, or it is refused when one of the `k` allocations fails. -/
def Follows (k : Nat) (l : List Bool) (p q : Except Errno (Option Nat) × Ramfs) : Prop :=
  (false ∉ l.take k ∧ ∃ rest, p = (q.1, q.2.withAllocs rest)) ∨ false ∈ l.take k ∧ ∃ e, p.1 = .error e

variable {r : Option Nat}

theorem enterNew_inv (h : (fs.withAllocs []).enterNew d n i = (.ok r, fs')) :
    fs.isDir d = true ∧ fs.findChild d n = none ∧ r = some i ∧ fs' = (fs.pushChild d n i).withAllocs [] := by
  have hdir : (fs.withAllocs []).isDir d = fs.isDir d := rfl
  have hfind : (fs.withAllocs []).findChild d n = fs.findChild d n := rfl
  simp only [enterNew, addChild, hdir, hfind] at h
  by_cases h1 : fs.isDir d = true
  · cases h2 : fs.findChild d n with
    | some c => simp [h1, h2] at h
    | none =>
      simp only [h1, h2, not_true, if_false, Option.isSome_none, Bool.false_eq_true] at h
      rw [← pushChild_withAllocs]
      obtain ⟨h3, h4⟩ := Prod.mk.inj h
      cases h3
      exact ⟨h1, rfl, rfl, h4.symm⟩
  · simp [h1] at h

theorem enterNew_follows (h : (fs.withAllocs []).enterNew d n i = (.ok r, fs')) (l : List Bool) :
    Follows 1 l ((fs.withAllocs l).enterNew d n i) (.ok r, fs') := by
  obtain ⟨h1, h2, rfl, rfl⟩ := enterNew_inv h
  have hdir : (fs.withAllocs l).isDir d = true := h1
  have hfind : (fs.withAllocs l).findChild d n = none := h2
  have hadd : (fs.withAllocs l).addChild d n i =
      if l.headD true then (.ok (), (fs.pushChild d n i).withAllocs l.tail) else
        (.error .nomem, fs.withAllocs l.tail) := by
    rw [addChild, if_neg (by simp [hdir]), hfind, if_neg (by simp), kmalloc_withAllocs]
    cases l.headD true
    · rfl
    · simp [pushChild_withAllocs]
  unfold enterNew
  rw [hadd]
  match l with
  | [] => exact .inl ⟨by simp, [], rfl⟩
  | true :: l => exact .inl ⟨by simp, l, rfl⟩
  | false :: l => exact .inr ⟨by simp, .nomem, rfl⟩

/-- The new inode, before it is set up. -/
def allocated (fs : Ramfs) (type : FileType) : Ramfs :=
  { fs.set (fs.again.headD fs.nextIno) (ramfsInodeInit fs.nextIno type) with
    nextIno := fs.nextIno + 1, again := fs.again.tail }

theorem allocInode_withAllocs (fs : Ramfs) (l : List Bool) (type : FileType) :
    (fs.withAllocs l).allocInode type =
      if l.headD true then (some (fs.again.headD fs.nextIno), (fs.allocated type).withAllocs l.tail) else
        (none, fs.withAllocs l.tail) := by
  rw [allocInode, kmalloc_withAllocs]
  cases l.headD true <;> rfl

theorem makeNode_follows {type : FileType} {setup : RamfsInode → RamfsInode}
    (h : (fs.withAllocs []).makeNode d n type setup = (.ok r, fs')) (l : List Bool) :
    Follows 2 l ((fs.withAllocs l).makeNode d n type setup) (.ok r, fs') := by
  have hfind : ∀ l, (fs.withAllocs l).findChild d n = fs.findChild d n := fun _ => rfl
  unfold makeNode at h ⊢
  rw [hfind] at h ⊢
  cases hfree : fs.findChild d n with
  | some c => simp [hfree] at h
  | none =>
    rw [hfree] at h
    rw [if_neg (by simp), allocInode_withAllocs] at h ⊢
    simp only [List.headD_nil, if_true, modify_withAllocs, List.tail_nil] at h
    match l with
    | [] =>
      simp only [List.headD_nil, if_true, modify_withAllocs, List.tail_nil]
      simpa [Follows] using enterNew_follows h []
    | false :: l => exact .inr ⟨by simp, .nomem, rfl⟩
    | true :: l =>
      simp only [List.headD_cons, if_true, modify_withAllocs, List.tail_cons]
      simpa [Follows] using enterNew_follows h l

/-- The allocations of `ramfs_inode_symlink`: a target that is not empty has one of its own. -/
def symlinkAllocs (target : List UInt8) : Nat := if target = [] then 2 else 3

theorem inodeSymlink_follows {target : List UInt8}
    (h : (fs.withAllocs []).inodeSymlink d n target = (.ok r, fs')) (l : List Bool) :
    Follows (symlinkAllocs target) l ((fs.withAllocs l).inodeSymlink d n target) (.ok r, fs') := by
  have hdir : ∀ l, (fs.withAllocs l).isDir d = fs.isDir d := fun _ => rfl
  have hfind : ∀ l, (fs.withAllocs l).findChild d n = fs.findChild d n := fun _ => rfl
  unfold inodeSymlink at h ⊢
  simp only [hdir, hfind] at h ⊢
  split_ifs at h ⊢ with h1 h2 h3 h4 h5
  · cases h
  · cases h
  · rw [symlinkAllocs, if_pos h4]
    exact makeNode_follows h l
  · cases h
  · rw [symlinkAllocs, if_neg h4]
    rw [allocInode_withAllocs] at h ⊢
    simp only [List.headD_nil, if_true, kmalloc_withAllocs, List.tail_nil, modify_withAllocs] at h
    match l with
    | [] =>
      simp only [List.headD_nil, if_true, kmalloc_withAllocs, List.tail_nil, modify_withAllocs]
      simpa [Follows] using enterNew_follows h []
    | false :: l => exact .inr ⟨by simp, .nomem, rfl⟩
    | true :: l =>
      simp only [List.headD_cons, if_true, kmalloc_withAllocs, List.tail_cons]
      match l with
      | [] => simpa [Follows, modify_withAllocs] using enterNew_follows h []
      | false :: l => exact .inr ⟨by simp, .nomem, rfl⟩
      | true :: l => simpa [Follows, modify_withAllocs] using enterNew_follows h l
  · cases h

end Ramfs

end MiniOs.Fs
