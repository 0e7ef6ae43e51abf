/-
Symbolic links and the calls that name one. `vfs_lookup` follows the link at the end of a path, and a
call that looks its path up that way acts on what the link leads to: `readlinkat` never meets a link,
and `do_unlink` removes a link only when it leads to a file.
-/
import MiniOs.Proofs.Fs.Atomic
import MiniOs.Proofs.Fs.NameiRun

namespace MiniOs.Fs

open Library Function

variable {rj : RamfsInode}

namespace Ramfs

variable {fs fs' : Ramfs} {c d i j k : Nat} {n : Name} {path : List UInt8}

/-! ## Where a path leads -/

/-- The path that stands for `path` when a link with this target is at its end. -/
def linkPath (path target : List UInt8) : Option (List UInt8) :=
  if target.head? = some slash then some (strCopy target)
  else
    match pathParentName path with
    | .error _ => none
    | .ok (parent, _) =>
      match pathResolve parent target with
      | .error _ => none
      | .ok resolved => some (strCopy resolved)

/-- The path leads to the inode, over at most `k` links. -/
inductive Leads (fs : Ramfs) : Nat → List UInt8 → Nat → Prop
  | here {k : Nat} {path : List UInt8} {i : Nat} : fs.lookup path = some i → fs.hasType i .lnk = false →
    Leads fs k path i
  | link {k : Nat} {path target next : List UInt8} {i j : Nat} : fs.lookup path = some i →
      fs.readlink i (pathMax - 1) = .ok target → linkPath path target = some next → Leads fs k next j →
      Leads fs (k + 1) path j

theorem hasType_of_readlink {len : Nat} {target : List UInt8} (h : fs.readlink i len = .ok target) :
    fs.hasType i .lnk = true := by
  unfold readlink at h
  unfold hasType
  split at h
  · cases h
  · cases hi : fs.inodes i with
    | none =>
      rw [hi] at h
      cases h
    | some ri =>
      rw [hi] at h
      dsimp only at h ⊢
      split at h
      · cases h
      · rename_i ht
        simpa using ht

theorem follow_succ_iff : fs.follow (k + 1) path = some j ↔ ∃ i, fs.lookup path = some i ∧
    (fs.hasType i .lnk = false ∧ i = j ∨ ∃ target next, fs.readlink i (pathMax - 1) = .ok target ∧
      linkPath path target = some next ∧ fs.follow k next = some j) := by
  rw [follow]
  cases fs.lookup path with
  | none => simp
  | some i =>
    simp only [Bool.not_eq_true, Option.some.injEq, exists_eq_left']
    split
    · rename_i ht
      simp only [ht, true_and, Option.some.injEq, iff_self_or]
      rintro ⟨target, next, hr, -⟩
      rw [hasType_of_readlink hr] at ht
      cases ht
    · rename_i ht
      simp only [ht]
      cases fs.readlink i (pathMax - 1) with
      | error e => simp
      | ok target =>
        simp only [Except.ok.injEq, exists_and_left, exists_eq_left', linkPath]
        split
        · simp
        cases pathParentName path with
        | error e => simp
        | ok p =>
          dsimp only
          cases pathResolve p.1 target with
          | error e => simp
          | ok resolved => simp

theorem follow_eq_some_iff : ∀ {k : Nat} {path : List UInt8}, fs.follow (k + 1) path = some j ↔ fs.Leads k path j := by
  intro k
  induction k with
  | zero =>
    intro path
    rw [follow_succ_iff]
    constructor
    · rintro ⟨i, hi, ⟨ht, rfl⟩ | ⟨target, next, -, -, h⟩⟩
      · exact .here hi ht
      · cases h
    · rintro (⟨hi, ht⟩)
      exact ⟨j, hi, Or.inl ⟨ht, rfl⟩⟩
  | succ k ih =>
    intro path
    rw [follow_succ_iff]
    constructor
    · rintro ⟨i, hi, ⟨ht, rfl⟩ | ⟨target, next, hr, hl, h⟩⟩
      · exact .here hi ht
      · exact .link hi hr hl (ih.1 h)
    · rintro (⟨hi, ht⟩ | ⟨hi, hr, hl, h⟩)
      · exact ⟨j, hi, Or.inl ⟨ht, rfl⟩⟩
      · exact ⟨_, hi, Or.inr ⟨_, _, hr, hl, ih.2 h⟩⟩

theorem Leads.not_link (h : fs.Leads k path i) : fs.hasType i .lnk = false := by
  induction h with
  | here _ ht => exact ht
  | link _ _ _ _ ih => exact ih

theorem Leads.exists_lookup (h : fs.Leads k path j) : ∃ i, fs.lookup path = some i ∧
    (fs.hasType i .lnk = false → i = j) := by
  cases h with
  | here hi ht => exact ⟨j, hi, fun _ => rfl⟩
  | link hi hr _ _ =>
    refine ⟨_, hi, fun ht => ?_⟩
    rw [hasType_of_readlink hr] at ht
    cases ht

theorem readlink_error (h : fs.hasType i .lnk = false) (len : Nat) : ∃ e, fs.readlink i len = .error e := by
  cases hr : fs.readlink i len with
  | error e => exact ⟨e, rfl⟩
  | ok target =>
    rw [hasType_of_readlink hr] at h
    cases h

theorem hasType_iget (j i : Nat) (type : FileType) : (fs.iget j).hasType i type = fs.hasType i type := by
  unfold iget modify hasType
  cases hj : fs.inodes j with
  | none => rfl
  | some rj =>
    dsimp only [set]
    by_cases e : i = j
    · subst e
      rw [update_self, hj]
    · rw [update_of_ne e]

theorem childrenOf_iget (j i : Nat) : (fs.iget j).childrenOf i = fs.childrenOf i := by
  unfold iget modify childrenOf
  cases hj : fs.inodes j with
  | none => rfl
  | some rj =>
    dsimp only [set]
    by_cases e : i = j
    · subst e
      rw [update_self, hj]
    · rw [update_of_ne e]

theorem iget_live (hj : fs.inodes j = some rj) :
    (fs.iget j).inodes j = some { rj with iCount := rj.iCount + 1 } := by
  unfold iget
  rw [modify_of_live hj]
  exact set_self ..

theorem findChild_iget (j : Nat) : (fs.iget j).findChild = fs.findChild := by
  funext d n
  unfold findChild isDir
  rw [hasType_iget, childrenOf_iget]

/-! ## Removing the name of a file -/

/-- Entries are read from directories only, so what becomes of a file does not touch them. -/
theorem findChild_of_file (h : ∀ x, x ≠ i → fs'.inodes x = fs.inodes x) (hi : fs.isDir i = false)
    (hi' : fs'.isDir i = false) : fs'.findChild = fs.findChild := by
  funext d n
  by_cases e : d = i
  · subst e
    rw [findChild_of_not_dir hi, findChild_of_not_dir hi']
  · unfold findChild isDir hasType childrenOf
    rw [h d e]

theorem isDir_of_dead (h : fs.inodes i = none) : fs.isDir i = false := by
  unfold isDir hasType
  rw [h]

theorem dropNlink_findChild (hi : fs.isDir i = false) : (fs.dropNlink i).findChild = fs.findChild := by
  unfold dropNlink modify
  cases hri : fs.inodes i with
  | none =>
    unfold inodeMaybeEvict
    rw [hri]
  | some ri =>
    have hset : ∀ x, x ≠ i → (fs.set i { ri with nlink := ri.nlink - 1 }).inodes x = fs.inodes x := fun x hx =>
      update_of_ne hx ..
    have hdir : (fs.set i { ri with nlink := ri.nlink - 1 }).isDir i = false := by
      rw [isDir_of_live (set_self ..)]
      rwa [isDir_of_live hri] at hi
    dsimp only
    unfold inodeMaybeEvict
    rw [set_self]
    dsimp only
    split
    · exact findChild_of_file hset hi hdir
    split
    · exact findChild_of_file hset hi hdir
    · show (freeInode fs.nextIno (fs.set i { ri with nlink := ri.nlink - 1 }) i).findChild = _
      cases fs.nextIno with
      | zero => exact findChild_of_file hset hi hdir
      | succ k =>
        rw [freeInode, hdir]
        simp only [Bool.false_eq_true, if_false]
        split
        · exact findChild_of_file hset hi hdir
        · apply findChild_of_file _ hi (isDir_of_dead (update_self ..))
          intro x hx
          exact (update_of_ne hx ..).trans (hset x hx)

theorem inodeUnlink_file (hs : ((fs.childrenOf d).map Prod.fst).Nodup) (hn : n.bytes ≠ [])
    (hf : fs.findChild d n = some c) (hc : fs.isDir c = false) :
    ∃ fs', fs.inodeUnlink d n = (.ok none, fs') ∧ fs'.findChild = setEntry fs.findChild d n none := by
  obtain ⟨rd, hd, ht, -⟩ := exists_of_findChild hf
  refine ⟨(fs.dropChild d n).dropNlink c, ?_, ?_⟩
  · rw [inodeUnlink_of_entry hn hf, hc]
    rfl
  · rw [dropNlink_findChild (by rw [dropChild_isDir_eq, hc])]
    unfold dropChild
    rw [modify_of_live hd]
    rw [childrenOf_of_live hd] at hs
    exact findChild_pull hs hd ht rfl

end Ramfs

namespace Vfs

variable {s : Vfs} {current d : Nat} {n : Name} {target path : List UInt8}

/-! ## Reading a link -/

theorem dStep_rest (s : Vfs) (d : Nat) (n : Name) :
    (s.dStep d n).2.fs = s.fs ∧ (s.dStep d n).2.procRoot = s.procRoot := by
  unfold dStep
  split
  · exact ⟨rfl, rfl⟩
  split
  · exact ⟨rfl, rfl⟩
  obtain ⟨ok, allocs, hk, -⟩ := s.kmalloc_cases
  rw [hk]
  cases ok <;> exact ⟨rfl, rfl⟩

theorem dLookupLoop_rest : ∀ (k : Nat) (s : Vfs) (d : Nat) (path : List UInt8),
    (dLookupLoop k s d path).2.fs = s.fs ∧ (dLookupLoop k s d path).2.procRoot = s.procRoot := by
  intro k
  induction k with
  | zero => exact fun s d path => ⟨rfl, rfl⟩
  | succ k ih =>
    intro s d path
    unfold dLookupLoop
    dsimp only
    split
    · exact ⟨rfl, rfl⟩
    split
    · split
      · exact ih ..
      split
      · exact ih ..
      have hstep := s.dStep_rest d ⟨Ramfs.component (Ramfs.skipSlash path), by assumption⟩
      generalize s.dStep d ⟨Ramfs.component (Ramfs.skipSlash path), _⟩ = r at hstep ⊢
      obtain ⟨_ | c, s1⟩ := r
      · exact hstep
      · obtain ⟨hfs, hproc⟩ := ih s1 c ((Ramfs.skipSlash path).drop (Ramfs.component (Ramfs.skipSlash path)).length)
        exact ⟨hfs.trans hstep.1, hproc.trans hstep.2⟩
    · exact ⟨rfl, rfl⟩

theorem dLookupPath_rest (s : Vfs) (path : List UInt8) :
    (s.dLookupPath path).2.fs = s.fs ∧ (s.dLookupPath path).2.procRoot = s.procRoot := by
  unfold dLookupPath
  split
  · exact ⟨rfl, rfl⟩
  · exact dLookupLoop_rest ..

theorem doSymlink_ok (h : (s.doSymlink current target path).1 = .ok ()) :
    (s.procPart current path).1 = none ∧ (s.doSymlink current target path).2.procRoot = s.procRoot := by
  obtain ⟨r, procs, next, allocs, he, -⟩ := s.procPart_gives current path
  unfold doSymlink vfsLookup at h ⊢
  rw [he] at h ⊢
  cases r with
  | some inode => cases h
  | none =>
    refine ⟨rfl, ?_⟩
    dsimp only at h ⊢
    generalize s.fs.follow 8 (strCopy path) = r at h ⊢
    cases r with
    | some i => cases h
    | none =>
      generalize pathParentName path = r at h ⊢
      cases r with
      | error e => cases h
      | ok p =>
        dsimp only at h ⊢
        have hrest := dLookupPath_rest { s with procs := procs, nextProc := next, allocs := allocs } p.1
        generalize dLookupPath { s with procs := procs, nextProc := next, allocs := allocs } p.1 = r at h hrest ⊢
        obtain ⟨_ | q, s1⟩ := r
        · cases h
        · dsimp only at h hrest ⊢
          generalize s1.fs.inodeSymlink (s1.inodeOf q) p.2 target = r at h ⊢
          obtain ⟨e | -, fs⟩ := r
          · cases h
          · exact hrest.2

/-- A link made outside `/proc` is not one that procfs answers for. -/
theorem procPart_of_symlinkat (h : (s.symlinkat current target path).1 = .ok ()) (current' : Nat) :
    (s.symlinkat current target path).2.procPart current' path = (none, (s.symlinkat current target path).2) := by
  unfold symlinkat at h ⊢
  split at h
  · cases h
  rename_i hslash
  rw [if_neg hslash]
  obtain ⟨hpart, hroot⟩ := doSymlink_ok h
  unfold procPart at hpart ⊢
  split
  · rename_i hunder
    -- the one path under procfs that is left is `/proc` itself, which does not exist there either
    have hpath : path = procDir := by
      simp only [underProc, hslash, decide_false, Bool.or_false, Bool.and_eq_true, decide_eq_true_eq] at hunder
      rw [← hunder.1, List.take_of_length_le hunder.2.le]
    unfold procLookup at hpart ⊢
    rw [if_pos hunder, if_pos (Or.inl hpath)] at hpart
    rw [if_pos (Or.inl hpath), hroot]
    exact congrArg (·, _) hpart
  · rfl

/-- What the lookup of a path finds outside procfs is not a link. -/
theorem readlinkat_error (h : s.procPart current path = (none, s)) (bufsiz : Nat) :
    ∃ e, (s.readlinkat current path bufsiz).1 = .error e := by
  unfold readlinkat vfsLookup
  rw [h]
  dsimp only
  split
  · exact ⟨_, rfl⟩
  cases hf : s.fs.follow 8 (strCopy path) with
  | none => exact ⟨_, rfl⟩
  | some i =>
    have hlnk : (s.fs.iget i).hasType i .lnk = false := by
      rw [Ramfs.hasType_iget]
      exact (Ramfs.follow_eq_some_iff.1 hf).not_link
    dsimp only [inodeReadlink]
    split
    · exact ⟨_, rfl⟩
    · exact Ramfs.readlink_error hlnk _

/-- `readlinkat` gives back what `symlinkat` has stored. -/
def ReadsBack (s : Vfs) (current : Nat) (target path : List UInt8) (bufsiz : Nat) : Prop :=
  ((s.symlinkat current target path).2.readlinkat current path bufsiz).1 = .ok (target.take bufsiz)

/-- No link that `symlinkat` makes can be read. -/
theorem not_readsBack (h : (s.symlinkat current target path).1 = .ok ()) (bufsiz : Nat) :
    ¬ s.ReadsBack current target path bufsiz := by
  obtain ⟨e, he⟩ := readlinkat_error (procPart_of_symlinkat h current) bufsiz
  unfold ReadsBack
  rw [he]
  simp

theorem not_readsBack_of_dev : ((init [] [] []).symlinkat 1 devDir pathL.bytes).1 = .ok () ∧
    ¬ (init [] [] []).ReadsBack 1 devDir pathL.bytes 64 :=
  ⟨rfl, not_readsBack rfl 64⟩

/-- A link to nothing is not found, and one to a directory is not a link. -/
theorem readlinkat_misses_link :
    (((init [] [] []).symlinkat 1 [120] pathL.bytes).1 = .ok () ∧
      ((((init [] [] []).symlinkat 1 [120] pathL.bytes).2).readlinkat 1 pathL.bytes 64).1 = .error .noent) ∧
    ((init [] [] []).symlinkat 1 devDir pathL.bytes).1 = .ok () ∧
      ((((init [] [] []).symlinkat 1 devDir pathL.bytes).2).readlinkat 1 pathL.bytes 64).1 = .error .inval :=
  ⟨⟨rfl, rfl⟩, rfl, rfl⟩

/-! ## Memory for dentries -/

/-- The components that a walk from the dentry does not find in the cache. -/
def uncached (s : Vfs) : Nat → List Name → Nat
  | _, [] => 0
  | d, n :: cs =>
    match s.dFindChild d n with
    | some c => s.uncached c cs
    | none => cs.length + 1

theorem uncached_of_leaf (h : s.childrenOf d = []) (cs : List Name) : s.uncached d cs = cs.length := by
  cases cs with
  | nil => rfl
  | cons n cs =>
    have hf : s.dFindChild d n = none := by
      unfold dFindChild
      rw [h]
      rfl
    unfold uncached
    rw [hf]
    rfl

/-- A walk to something that exists fails only for want of memory for the dentries it adds. -/
theorem CacheInv.dWalk_isSome_iff : ∀ (cs : List Name) {s : Vfs} {d i : Nat} {y : Dentry}, s.CacheInv noHole →
    s.bare d = some y → s.fs.walk y.inode cs = some i →
    ((Vfs.dWalk s d cs).1.isSome ↔ ∀ ok ∈ s.allocs.take (s.uncached d cs), ok = true) := by
  intro cs
  induction cs with
  | nil =>
    intro s d i y _ _ _
    simp [Vfs.dWalk, uncached]
  | cons n cs ih =>
    intro s d i y h hd hw
    obtain ⟨j, hj, hw⟩ := Option.bind_eq_some_iff.1 hw
    unfold Vfs.dWalk uncached Vfs.dStep
    cases hf : s.dFindChild d n with
    | some c =>
      obtain ⟨x, hx, hp, hn⟩ := h.dFindChild_iff.1 hf
      obtain ⟨q, y', hq, hy', -, hfs⟩ := h.parent c x hx (h.not_root hx hp)
      obtain rfl := Option.mem_unique hp hq
      obtain rfl := Option.mem_unique hd hy'
      obtain rfl : x.inode = j := by
        have hfind := hfs fun hc => hc
        rw [hn, hj] at hfind
        exact (Option.some.inj hfind).symm
      exact ih h hx hw
    | none =>
      have hfree : ∀ c x, s.bare c = some x → x.parent = some d → x.name ≠ n := fun c x hx hp =>
        h.dFindChild_eq_none hf hx hp
      rw [inodeOf_of_bare hd, hj]
      -- the new dentry has no children, so the rest of the walk allocates at every component
      have hnew : ∀ allocs, ((Vfs.dWalk (({ s with allocs := allocs } : Vfs).dAdd d n j) s.nextDentry cs).1.isSome ↔
          ∀ ok ∈ allocs.take cs.length, ok = true) := by
        intro allocs
        have h1 : CacheInv { s with allocs := allocs } noHole := h.kmalloc allocs
        have hd1 : ({ s with allocs := allocs } : Vfs).bare d = some y := hd
        obtain ⟨hbare, hchildren⟩ := dAdd_bare h1 hd1 n j
        have hx : (({ s with allocs := allocs } : Vfs).dAdd d n j).bare s.nextDentry = some ⟨n, j, some d, []⟩ := by
          rw [hbare]
          exact update_self ..
        have hleaf : (({ s with allocs := allocs } : Vfs).dAdd d n j).childrenOf s.nextDentry = [] := by
          rw [hchildren, update_of_ne (h.lt hd).ne']
          exact childrenOf_of_dead (h.fresh _ (Nat.le_refl _))
        rw [ih (h1.dAdd hd1 hj hfree) hx hw, uncached_of_leaf hleaf]
        rfl
      unfold Vfs.kmalloc
      cases ha : s.allocs with
      | nil =>
        have hs : s = { s with allocs := [] } := by rw [← ha]
        dsimp only
        rw [hs]
        simpa using hnew []
      | cons ok rest =>
        cases ok with
        | false => simp
        | true => simpa using hnew rest

/-! ## Removing a name -/

/-- The tree is whole and the cache agrees with it, whatever memory ramfs has left. -/
def Whole (s : Vfs) : Prop := Inv { s with fs := { s.fs with allocs := [] } }

/-- The path names an entry: the directory, the name and the inode of it. -/
def NamesEntry (fs : Ramfs) (p : AbsPath) (d : Nat) (n : Name) (i : Nat) : Prop :=
  ∃ cs, p.comps = cs ++ [n] ∧ fs.walk rootIno cs = some d ∧ fs.findChild d n = some i

/-- The call has acted on the name itself: it has succeeded when the name is one of a file, and then the name is gone
and all others are there. -/
structure UnlinksName (s : Vfs) (p : AbsPath) (r : Except Errno Unit × Vfs) : Prop where
  succeeds : r.1 = .ok () ↔ ∃ d n i, NamesEntry s.fs p d n i ∧ s.fs.isDir i = false
  removes : r.1 = .ok () → ∀ d n i, NamesEntry s.fs p d n i → r.2.fs.findChild = setEntry s.fs.findChild d n none

/-- When the path names a file or a link, it leads to a file over at most seven links, and there is memory for the
dentries of the directories on the way. -/
def CanUnlink (s : Vfs) (p : AbsPath) : Prop :=
  ∀ d n i, NamesEntry s.fs p d n i → s.fs.isDir i = false →
    (∃ j, s.fs.Leads 7 p.bytes j ∧ s.fs.isDir j = false) ∧
      ∀ ok ∈ s.allocs.take (s.uncached rootDentry p.comps.dropLast), ok = true

theorem Whole.cache (h : s.Whole) : s.CacheInv noHole :=
  (Inv.cache h).congr rfl rfl rfl (fun _ _ _ _ _ _ _ _ _ hf => hf) fun _ hc => hc

theorem Whole.nodup (h : s.Whole) (d : Nat) : ((s.fs.childrenOf d).map Prod.fst).Nodup := by
  unfold Ramfs.childrenOf
  cases hd : s.fs.inodes d with
  | none => exact List.nodup_nil
  | some rd => exact (Inv.fs h).distinct d rd hd

variable {i j : Nat}

theorem Whole.live (h : s.Whole) {k : Nat} (hl : s.fs.Leads k path j) : ∃ r, s.fs.inodes j = some r := by
  have hin : ({ s.fs with allocs := [] } : Ramfs).inodes = s.fs.inodes := rfl
  have hf := (Ramfs.follow_congr hin (k + 1) path).trans (Ramfs.follow_eq_some_iff.2 hl)
  obtain ⟨r, hr, -⟩ := (Inv.fs h).live_of_found (Ramfs.follow_found (Inv.fs h) hf)
  exact ⟨r, hr⟩

theorem isDir_ramfs {ri : RamfsInode} (h : s.fs.inodes i = some ri) : s.isDir (.ramfs i) = s.fs.isDir i := by
  simp [isDir, typeOf, Ramfs.memory, h, Ramfs.isDir, Ramfs.hasType]

theorem namesEntry_of_lookup {fs : Ramfs} {p : AbsPath} {cs : List Name} (hcs : p.comps = cs ++ [n])
    (h : fs.lookup p.bytes = some i) : ∃ d, NamesEntry fs p d n i := by
  unfold AbsPath.bytes at h
  rw [Ramfs.lookup_renderPath p.isComponent, hcs, Ramfs.walk_append] at h
  obtain ⟨d, hd, hi⟩ := Option.bind_eq_some_iff.1 h
  exact ⟨d, cs, hcs, hd, by simpa [Ramfs.walk] using hi⟩

/-- What `vfs_unlink` does with the name of a file and a file that is held. -/
theorem vfsUnlink_file (hs : ((s.fs.childrenOf d).map Prod.fst).Nodup) (hn : n.bytes ≠ [])
    (hf : s.fs.findChild d n = some i) (hi : s.fs.isDir i = false) (hj : s.fs.inodes j = some rj)
      (hfile : s.fs.isDir j = false) :
    ∃ fs, (s.iget (.ramfs j)).vfsUnlink d n (.ramfs j) = (.ok (), { s with fs := fs }) ∧
      fs.findChild = setEntry s.fs.findChild d n none := by
  have hf' : (s.fs.iget j).findChild d n = some i := by rw [Ramfs.findChild_iget, hf]
  have hdir : (s.iget (.ramfs j)).isDir (.ramfs j) = false := by
    rw [isDir_ramfs (Ramfs.iget_live hj)]
    exact (Ramfs.hasType_iget j j .dir).trans hfile
  obtain ⟨fs, hun, hview⟩ := Ramfs.inodeUnlink_file (by rwa [Ramfs.childrenOf_iget]) hn hf'
    ((Ramfs.hasType_iget j i .dir).trans hi)
  refine ⟨fs, ?_, by rw [hview, Ramfs.findChild_iget]⟩
  unfold vfsUnlink
  have hd : (s.iget (.ramfs j)).fs.isDir d = true := Ramfs.isDir_of_findChild hf'
  have hun' : (s.iget (.ramfs j)).fs.inodeUnlink d n = (.ok none, fs) := hun
  rw [hd, hdir, hun', if_neg (by simp), if_neg (by simp)]
  simp [iget, hj]

theorem vfsUnlink_dir (hj : s.fs.inodes j = some rj) (hdir : s.fs.isDir j = true) :
    ∃ e s', s.vfsUnlink d n (.ramfs j) = (.error e, s') := by
  unfold vfsUnlink
  rw [isDir_ramfs hj, hdir, if_pos rfl]
  split
  · exact ⟨_, _, rfl⟩
  · exact ⟨_, _, rfl⟩

theorem strCopy_bytes (p : AbsPath) : strCopy p.bytes = p.bytes :=
  List.take_of_length_le (Nat.le_sub_one_of_lt p.short)

/-- A path outside procfs is looked up in ramfs. -/
theorem vfsLookup_outside (s : Vfs) (current : Nat) {p : AbsPath} (hp : underProc p.bytes = false) :
    (s.vfsLookup current p.bytes = (none, s) ∧ ∀ j, ¬ s.fs.Leads 7 p.bytes j) ∨
      ∃ j, s.vfsLookup current p.bytes = (some (.ramfs j), s.iget (.ramfs j)) ∧ s.fs.Leads 7 p.bytes j ∧
        ∀ i, s.fs.Leads 7 p.bytes i → i = j := by
  unfold vfsLookup procPart
  rw [hp, if_neg (by simp), strCopy_bytes]
  dsimp only
  cases hf : s.fs.follow 8 p.bytes with
  | none =>
    refine Or.inl ⟨rfl, fun j hl => ?_⟩
    rw [Ramfs.follow_eq_some_iff.2 hl] at hf
    cases hf
  | some j =>
    refine Or.inr ⟨j, rfl, Ramfs.follow_eq_some_iff.1 hf, fun i hl => ?_⟩
    exact Option.mem_unique (Ramfs.follow_eq_some_iff.2 hl) hf

/-- An entry of a path that leads to a file is not a directory. -/
theorem not_dir_of_leads {fs : Ramfs} {k : Nat} (hl : fs.Leads k path j) (hfile : fs.isDir j = false)
    (hi : fs.lookup path = some i) : fs.isDir i = false := by
  obtain ⟨i', hi', hsame⟩ := hl.exists_lookup
  obtain rfl := Option.mem_unique hi hi'
  cases hd : fs.isDir i with
  | false => rfl
  | true =>
    have hlnk : fs.hasType i .lnk = false := by
      unfold Ramfs.isDir Ramfs.hasType at hd
      unfold Ramfs.hasType
      split at hd
      · cases hd
      · rename_i ri _
        simp only [decide_eq_true_eq] at hd
        simp [hd]
    rw [hsame hlnk, hfile] at hd
    cases hd

theorem doUnlink_cases {p : AbsPath} {cs : List Name} (h : s.Whole) (hp : underProc p.bytes = false)
    (hcs : p.comps = cs ++ [n]) :
    ((∃ e, (s.doUnlink current p.bytes).1 = .error e) ∧
      ¬ ((dWalk s rootDentry cs).1.isSome ∧ ∃ j, s.fs.Leads 7 p.bytes j ∧ s.fs.isDir j = false)) ∨
    ((dWalk s rootDentry cs).1.isSome ∧ ∃ j, s.fs.Leads 7 p.bytes j ∧ s.fs.isDir j = false) ∧
      (s.doUnlink current p.bytes).1 = .ok () ∧
      ∀ d i, NamesEntry s.fs p d n i → (s.doUnlink current p.bytes).2.fs.findChild =
        setEntry s.fs.findChild d n none := by
  obtain ⟨hnil, -⟩ | ⟨cs', n', hcomps, hcs', hn, -, hsplit⟩ := p.cases
  · rw [hnil] at hcs
    simp at hcs
  obtain ⟨rfl, rfl⟩ : cs = cs' ∧ n = n' := by simpa using hcs.symm.trans hcomps
  obtain ⟨x, hx, hxi, -⟩ := h.cache.root
  obtain ⟨r, s1, hwalk, h1, hg, hr⟩ := CacheInv.dWalk cs h.cache hx
  unfold doUnlink
  simp only [hsplit, dLookupPath_renderPath s hcs', hwalk]
  cases r with
  | none => exact Or.inl ⟨⟨_, rfl⟩, by simp⟩
  | some q =>
    obtain ⟨-, z, hz, hw⟩ := hr
    rw [hxi] at hw
    obtain ⟨hlook, hno⟩ | ⟨j, hlook, hlead, huniq⟩ := s1.vfsLookup_outside current hp
    · rw [hg.fs] at hno
      simp only [hlook]
      exact Or.inl ⟨⟨_, rfl⟩, fun hc => hno _ hc.2.choose_spec.1⟩
    · rw [hg.fs] at hlead huniq
      obtain ⟨rj, hj⟩ := h.live hlead
      rw [← hg.fs] at hj
      have hq : (s1.iget (.ramfs j)).inodeOf q = z.inode := inodeOf_of_bare hz
      simp only [hlook, hq]
      cases hdir : s.fs.isDir j with
      | true =>
        have hdir' : (s1.iget (.ramfs j)).fs.isDir j = true := by
          rw [← hdir, ← hg.fs]
          exact Ramfs.hasType_iget j j .dir
        obtain ⟨e, s2, hun⟩ := vfsUnlink_dir (d := z.inode) (n := n) (Ramfs.iget_live hj) hdir'
        simp only [hun]
        refine Or.inl ⟨⟨_, rfl⟩, ?_⟩
        rintro ⟨-, i, hi, hfile⟩
        rw [huniq i hi, hdir] at hfile
        cases hfile
      | false =>
        obtain ⟨i, hi, -⟩ := hlead.exists_lookup
        have hf : s1.fs.findChild z.inode n = some i := by
          unfold AbsPath.bytes at hi
          rw [Ramfs.lookup_renderPath p.isComponent, hcs, Ramfs.walk_append, hw] at hi
          rw [hg.fs]
          simpa [Ramfs.walk] using hi
        have hfile := not_dir_of_leads hlead hdir hi
        rw [← hg.fs] at hdir hfile
        obtain ⟨fs, hun, hview⟩ := vfsUnlink_file (by rw [hg.fs]; exact h.nodup _) hn.ne_nil hf hfile hj hdir
        simp only [hun]
        refine Or.inr ⟨⟨by simp, j, hlead, by rw [← hg.fs]; exact hdir⟩, ?_⟩
        have hgone : ∀ d i, NamesEntry s.fs p d n i → fs.findChild = setEntry s.fs.findChild d n none := by
          rintro d i ⟨ds, hds, hwd, -⟩
          obtain rfl : cs = ds := by simpa using hcs.symm.trans hds
          obtain rfl := Option.mem_unique hw hwd
          rw [hview, hg.fs]
        -- dropping the dentry is all that is left to do
        have hrest := dLookupPath_rest { s1 with fs := fs } p.bytes
        generalize dLookupPath { s1 with fs := fs } p.bytes = r at hrest ⊢
        obtain ⟨_ | c, s2⟩ := r
        · refine ⟨rfl, fun d i he => ?_⟩
          rw [← hgone d i he]
          exact congrArg Ramfs.findChild hrest.1
        · refine ⟨rfl, fun d i he => ?_⟩
          rw [← hgone d i he]
          dsimp only
          split
          · exact congrArg Ramfs.findChild hrest.1
          · rw [(s2.dDrop_rest c).1]
            exact congrArg Ramfs.findChild hrest.1

theorem doUnlink_iff {p : AbsPath} (h : s.Whole) (hp : underProc p.bytes = false) (current : Nat) :
    s.UnlinksName p (s.doUnlink current p.bytes) ↔ s.CanUnlink p := by
  rcases List.eq_nil_or_concat p.comps with hnil | ⟨cs, n, hcs⟩
  · -- the root has no name
    have hno : ∀ d n i, ¬ NamesEntry s.fs p d n i := by
      rintro d n i ⟨cs, hcs, -⟩
      rw [hnil] at hcs
      simp at hcs
    have herr : (s.doUnlink current p.bytes).1 = .error .noent := by
      unfold doUnlink AbsPath.bytes
      rw [hnil]
      rfl
    refine iff_of_true ⟨?_, ?_⟩ fun d n i hi => absurd hi (hno d n i)
    · rw [herr]
      constructor
      · intro hc
        cases hc
      · rintro ⟨d, n, i, hi, -⟩
        exact absurd hi (hno d n i)
    · intro hc
      rw [herr] at hc
      cases hc
  · rw [List.concat_eq_append] at hcs
    have hwalk : ∀ d m i, NamesEntry s.fs p d m i →
        ((dWalk s rootDentry cs).1.isSome ↔ ∀ ok ∈ s.allocs.take (s.uncached rootDentry p.comps.dropLast),
          ok = true) := by
      rintro d m i ⟨ds, hds, hw, -⟩
      obtain ⟨rfl, -⟩ : cs = ds ∧ n = m := by simpa using hcs.symm.trans hds
      obtain ⟨x, hx, hxi, -⟩ := h.cache.root
      rw [hcs, List.dropLast_concat]
      exact CacheInv.dWalk_isSome_iff cs h.cache hx (by rw [hxi, hw])
    obtain ⟨⟨e, herr⟩, hno⟩ | ⟨⟨hsome, j, hlead, hfile⟩, hok, hgone⟩ := doUnlink_cases h hp hcs
    · have hne : (s.doUnlink current p.bytes).1 ≠ .ok () := by
        rw [herr]
        simp
      constructor
      · exact fun hu d m i he hi => absurd (hu.succeeds.2 ⟨d, m, i, he, hi⟩) hne
      · intro hc
        refine ⟨⟨fun hok => absurd hok hne, ?_⟩, fun hok => absurd hok hne⟩
        rintro ⟨d, m, i, he, hi⟩
        obtain ⟨hlead, hmem⟩ := hc d m i he hi
        exact absurd ⟨(hwalk d m i he).2 hmem, hlead⟩ hno
    · obtain ⟨i, hi, -⟩ := hlead.exists_lookup
      obtain ⟨d, he⟩ := namesEntry_of_lookup hcs hi
      refine iff_of_true ⟨iff_of_true hok ⟨d, n, i, he, not_dir_of_leads hlead hfile hi⟩, fun _ => ?_⟩ ?_
      · rintro d m i ⟨ds, hds, hw, hf⟩
        obtain ⟨rfl, rfl⟩ : cs = ds ∧ n = m := by simpa using hcs.symm.trans hds
        exact hgone d i ⟨cs, hcs, hw, hf⟩
      · exact fun d m i he _ => ⟨⟨j, hlead, hfile⟩, (hwalk d m i he).1 hsome⟩

theorem Inv.whole (h : s.Inv) : s.Whole := by
  refine ⟨{ h.fs with supplied := by simp }, ?_, h.short, h.proc⟩
  exact h.cache.congr rfl rfl rfl (fun _ _ _ _ _ _ _ _ _ hf => hf) fun _ hc => hc

/-- `/l` is a link. -/
def linked (target : List UInt8) : Vfs := ((init [] [] []).symlinkat 1 target pathL.bytes).2

theorem linked_whole (target : List UInt8) : (linked target).Whole :=
  ((init_booted [] [] (by simp)).inv.symlinkat 1 target pathL).inv.whole

/-- `/dev/tty`, which `/l` leads to. -/
def devTty : List UInt8 := devDir ++ [47, 116, 116, 121]

theorem doUnlink_iff_of_tty : ((linked devTty).UnlinksName pathL ((linked devTty).doUnlink 1 pathL.bytes) ↔
      (linked devTty).CanUnlink pathL) ∧ ((linked devTty).doUnlink 1 pathL.bytes).1 = .ok () :=
  ⟨doUnlink_iff (linked_whole devTty) (by decide) 1, rfl⟩

/-- A link to nothing and a link to a directory cannot be removed. -/
theorem doUnlink_misses_link :
    ((linked [120]).Whole ∧ ¬ (linked [120]).UnlinksName pathL ((linked [120]).doUnlink 1 pathL.bytes)) ∧
      (linked devDir).Whole ∧ ¬ (linked devDir).UnlinksName pathL ((linked devDir).doUnlink 1 pathL.bytes) := by
  refine ⟨⟨linked_whole _, fun h => ?_⟩, linked_whole _, fun h => ?_⟩
  · cases h.succeeds.2 ⟨rootIno, ⟨[108], by decide⟩, _, ⟨[], rfl, rfl, rfl⟩, rfl⟩
  · cases h.succeeds.2 ⟨rootIno, ⟨[108], by decide⟩, _, ⟨[], rfl, rfl, rfl⟩, rfl⟩

end Vfs

end MiniOs.Fs
