/-
The calls that take names away or move them: `do_unlink`, `do_rmdir` and `do_rename`. Ramfs changes
first; for a moment the dentry of the name stands for an entry that is gone, until the cache follows.
-/
import MiniOs.Proofs.Fs.Namei

namespace MiniOs.Fs

open Library
open Ramfs (nothing Removes isDir_of_findChild)

namespace Vfs

variable {s s' : Vfs} {hole : Nat → Prop} {c d i q : Nat} {n : Name} {x y : Dentry}

/-- The dentry of a name below `q`, if there is one. -/
def named (s : Vfs) (q : Nat) (n : Name) (c : Nat) : Prop := ∃ x, s.bare c = some x ∧ x.parent = some q ∧ x.name = n

variable {fs : Ramfs}

/-- Ramfs took a name away: the cache is right but for the dentry of the name, which has no children. -/
theorem Inv.unname (h : s.Inv) (hq : s.bare q = some y) (hf : s.fs.findChild y.inode n = some c)
    (hfs : fs.Inv .empty) (hview : fs.findChild = setEntry s.fs.findChild y.inode n none) :
    CacheInv { s with fs := fs } (s.named q n) ∧ ∀ e, s.named q n e → s.childrenOf e = [] := by
  constructor
  · refine h.cache.congr ?_ ?_ ?_ ?_ fun _ hc => hc.elim
    · rfl
    · rfl
    · rfl
    · intro e x p z he hp hz hno _ hx
      show fs.findChild z.inode x.name = some x.inode
      rw [hview, setEntry_of_ne]
      · exact hx
      · rintro ⟨hi, hn⟩
        obtain rfl : p = q := h.cache.dir_unique h.fs hz hq hi (hi ▸ isDir_of_findChild hf)
        exact hno ⟨x, he, hp, hn⟩
  · rintro e ⟨x, he, hp, hn⟩
    obtain ⟨z, hz, hx⟩ := h.cache.link he hp
    obtain rfl := Option.mem_unique hq hz
    rw [hn, hf] at hx
    cases hx
    exact h.cache.childless he (Ramfs.findChild_of_empty (Ramfs.childless_of_removed h.fs hfs hf hview))

theorem CacheInv.named_unique (h : s.CacheInv hole) (hc : s.named q n c) (hd : s.named q n d) : c = d := by
  obtain ⟨x, hx, hxp, hxn⟩ := hc
  obtain ⟨y, hy, hyp, hyn⟩ := hd
  exact h.names c d x y q hx hy hxp hyp (hxn.trans hyn.symm)

/-- The dentry goes, and the cache is right again. -/
theorem CacheInv.dropNamed (h : s.CacheInv (s.named q n)) (hd : s.named q n d) (hleaf : s.childrenOf d = []) :
    (s.dDrop d).CacheInv noHole := by
  obtain ⟨x, hx, hp, hn⟩ := hd
  refine (h.dDrop hx hp hleaf).mono ?_
  rintro e ⟨he, hne⟩
  exact hne (h.named_unique he ⟨x, hx, hp, hn⟩)

theorem dDrop_rest (s : Vfs) (d : Nat) : (s.dDrop d).fs = s.fs ∧ (s.dDrop d).rest = s.rest := by
  unfold Vfs.dDrop
  split_ifs
  · exact ⟨rfl, rfl⟩
  · dsimp only
    unfold dUnlink
    split
    · exact ⟨rfl, rfl⟩
    · exact ⟨rfl, rfl⟩

/-- A lookup of a name that ramfs does not have only finds what is in the cache. -/
theorem dStep_of_free (hq : s.bare q = some y) (hfree : s.fs.findChild y.inode n = none) :
    s.dStep q n = (s.dFindChild q n, s) := by
  unfold dStep
  cases s.dFindChild q n with
  | some c => rfl
  | none =>
    dsimp only
    rw [inodeOf_of_bare hq, hfree]

/-! ## Unlink and rmdir -/

/-- A reference that a call takes and never drops. -/
theorem Calls.leaked {gone : Nat → Prop} {foreign : Prop} {r : InodeRef} (h : s.Inv) (hr : s.Lives r)
    (hk : Calls (s.iget r) s' gone foreign) : Calls s s' gone foreign := by
  have hstray := hk.stray_iget h hr
  cases r with
  | proc j => exact ⟨hk.inv, hk.evolves, hk.users, hk.files, hk.tasks, hk.procRoot, hk.stale, hstray,
    hk.allocs, hk.names⟩
  | ramfs i =>
    obtain ⟨hq, hu⟩ := Ramfs.iget_quiet h.fs i
    refine ⟨hk.inv, hq.trans_evolves hk.evolves, ?_, hk.files, hk.tasks, hk.procRoot, hk.stale, hstray, hk.allocs,
      hq.view ▸ hk.names⟩
    intro c
    refine Nat.le_trans ?_ (hk.users c)
    show s.fs.users c ≤ (s.fs.iget i).users c
    rw [hu]
    exact Nat.le_add_right _ _

/-- A removing operation that refuses leaves everything to the cache as it was. -/
theorem Inv.refused (h : s.Inv) (hc : fs = s.fs ∨ s.fs.findChild i n = some c)
    (hdoes : Ramfs.Does s.fs fs c .empty s.fs.findChild) : Calls s { s with fs := fs } nothing False := by
  refine h.calls_of (Ramfs.evolves_of_refused h.fs hc hdoes) (fun x => (hdoes.frame.users x).ge) ?_
    (hdoes.view ▸ Brings.refl _) rfl
  · refine h.cache.congr ?_ ?_ ?_ ?_ fun _ hc => hc
    · rfl
    · rfl
    · rfl
    · intro e x p y _ _ _ _ _ hf
      show fs.findChild y.inode x.name = some x.inode
      rw [hdoes.view]
      exact hf

/-- Ramfs took a name away and the cache drops its dentry, if it has one. -/
theorem Inv.removed {dir : Bool} (h : s.Inv) (hq : s.bare q = some y)
    (hr : Removes s.fs y.inode n dir (.ok none, fs)) :
    (∀ d, s.named q n d → Calls s (dDrop { s with fs := fs } d) (fun c => dir = true ∧ s.fs.Sheds y.inode n c) False) ∧
      ((∀ d, ¬ s.named q n d) → Calls s { s with fs := fs } (fun c => dir = true ∧ s.fs.Sheds y.inode n c) False) := by
  have hev := hr.evolves h.fs
  rcases hr with ⟨e, fs', c, he, -⟩ | ⟨c, fs', he, hf, -, hdoes, -⟩
  · cases he
  cases he
  obtain ⟨hcache, hleaf⟩ := h.unname hq hf hdoes.inv hdoes.view
  have hnames : Brings s.fs.findChild fs.findChild := by
    rw [hdoes.view]
    exact Brings.setEntry fun hc => absurd rfl hc
  constructor
  · intro d hd
    obtain ⟨hfs, hrest⟩ := dDrop_rest { s with fs := fs } d
    refine h.calls_of (by rw [hfs]; exact hev) (fun x => ?_) ?_ (by rw [hfs]; exact hnames) hrest
    · rw [hfs]
      exact (hdoes.frame.users x).ge
    · exact CacheInv.dropNamed hcache hd (hleaf d hd)
  · intro hno
    exact h.calls_of hev (fun x => (hdoes.frame.users x).ge) (hcache.mono fun d hd => hno d hd) hnames rfl

theorem Inv.removes {dir : Bool} {o : Except Errno (Option Nat) × Ramfs} (h : s.Inv) (hr : Removes s.fs i n dir o) :
    (∃ e fs, o = (.error e, fs) ∧ Calls s { s with fs := fs } nothing False) ∨
      ∃ fs, o = (.ok none, fs) ∧ Removes s.fs i n dir (.ok none, fs) := by
  rcases id hr with ⟨e, fs, c, rfl, hc, hdoes⟩ | ⟨c, fs, rfl, -⟩
  · exact Or.inl ⟨e, fs, rfl, h.refused hc hdoes⟩
  · exact Or.inr ⟨fs, rfl, hr⟩

/-- What `vfs_unlink` does on the name of a dentry: it refuses, or the name is gone. -/
theorem Inv.vfsUnlink (h : s.Inv) (y : Dentry) (n : Name) (r : InodeRef) :
    (∃ e s1, s.vfsUnlink y.inode n r = (.error e, s1) ∧ Calls s s1 nothing False) ∨
      ∃ fs, s.vfsUnlink y.inode n r = (.ok (), { s with fs := fs }) ∧
        Removes s.fs y.inode n false (.ok none, fs) := by
  unfold Vfs.vfsUnlink
  split_ifs with h1 h2
  · exact Or.inl ⟨_, s, rfl, Calls.refl h⟩
  · rcases h.removes (Ramfs.inodeUnlink_removes (n := n) (d := y.inode) h.fs) with ⟨e, fs, he, hk⟩ | ⟨fs, he, hr⟩
    · rw [he]
      exact Or.inl ⟨e, _, rfl, hk⟩
    · rw [he]
      exact Or.inr ⟨fs, rfl, hr⟩
  · exact Or.inl ⟨_, s, rfl, Calls.refl h⟩

theorem Inv.forget {cs : List Name} (h : s.Inv) (ht : s.Trail rootDentry cs q) (hcs : ∀ m ∈ cs, IsComponent m.bytes)
    (hn : IsComponent n.bytes) (hq : s.bare q = some y) (hr : Removes s.fs y.inode n false (.ok none, fs)) :
    Calls s (match dLookupPath { s with fs := fs } (renderPath ((cs ++ [n]).map Name.bytes)) with
      | (none, s') => ((.ok () : Except Errno Unit), s')
      | (some d, s') => (.ok (), if d = q then s' else s'.dDrop d)).2 nothing False := by
  obtain ⟨hdrop, hkeep⟩ := h.removed hq hr
  rcases hr with ⟨e, fs', c, he, -⟩ | ⟨c, fs', he, hf, -, hdoes, -⟩
  · cases he
  cases he
  have hcache := (h.unname hq hf hdoes.inv hdoes.view).1
  have hfree : ({ s with fs := fs } : Vfs).fs.findChild y.inode n = none := by
    show fs.findChild y.inode n = none
    rw [hdoes.view, setEntry_self]
  have hq' : bare { s with fs := fs } q = some y := hq
  have ht' : Trail { s with fs := fs } rootDentry cs q := by
    refine Trail.mono ?_ ht
    exact fun c x hx => hx
  rw [dLookupPath_child hcache ht' hcs hn, dStep_of_free hq' hfree]
  cases hd : dFindChild { s with fs := fs } q n with
  | none =>
    refine (hkeep ?_).mono (by rintro c ⟨⟨⟩, -⟩) id
    rintro d ⟨x, hx, hp, hxn⟩
    exact hcache.dFindChild_eq_none hd hx hp hxn
  | some d =>
    obtain ⟨x, hx, hp, hxn⟩ := hcache.dFindChild_iff.1 hd
    dsimp only
    rw [if_neg (hcache.parent_ne hx hp).symm]
    exact (hdrop d ⟨x, hx, hp, hxn⟩).mono (by rintro c ⟨⟨⟩, -⟩) id

theorem Inv.doUnlink (h : s.Inv) (current : Nat) (p : AbsPath) :
    Calls s (s.doUnlink current p.bytes).2 nothing False := by
  unfold Vfs.doUnlink
  rcases p.cases with ⟨-, hp⟩ | ⟨cs, n, hcomps, hcs, hn, hbytes, hp⟩
  · simp only [hp]
    exact Calls.refl h
  obtain ⟨r1, s1, hl1, h1, hg1, hr1⟩ := h.lookupParent hcs
  simp only [hp, hl1]
  cases r1 with
  | none => exact hg1.keeps h h1.cache
  | some q =>
    obtain ⟨ht, y, hq, -⟩ := hr1 q rfl
    refine hg1.trans_keeps ?_
    obtain ⟨s0, h0, hg, he | ⟨r, he, hs⟩⟩ := h1.vfsLookup current p.bytes
    · simp only [he]
      exact hg.keeps h1 h0.cache
    · simp only [he]
      refine hg.trans_keeps ?_
      have h2 := h0.iget r
      have hbare : (s0.iget r).bare = s0.bare := by cases r <;> rfl
      have hq2 : (s0.iget r).bare q = some y := by
        rw [hbare]
        exact hg.bare q y hq
      have ht2 : (s0.iget r).Trail rootDentry cs q := by
        apply ht.mono
        intro c x hx
        rw [hbare]
        exact hg.bare c x hx
      rw [inodeOf_of_bare hq2]
      rcases h2.vfsUnlink y n r with ⟨e, s3, hun, hk⟩ | ⟨fs, hun, hr⟩
      · simp only [hun]
        exact hk.paired h0 (h1.lives_of_source hg hs)
      · -- the reference of the lookup is never dropped
        simp only [hun]
        rw [hbytes]
        exact (h2.forget ht2 hcs hn hq2 hr).leaked h0 (h1.lives_of_source hg hs)

theorem Inv.vfsRmdir (h : s.Inv) (n : Name) (j : Nat) :
    (∃ e s1, s.vfsRmdir i n j = (.error e, s1) ∧ Calls s s1 nothing False) ∨
      ∃ fs, s.vfsRmdir i n j = (.ok (), { s with fs := fs }) ∧ Removes s.fs i n true (.ok none, fs) := by
  unfold Vfs.vfsRmdir
  split_ifs with h1 h2
  · rcases h.removes (Ramfs.inodeRmdir_removes (n := n) (d := i) h.fs) with ⟨e, fs, he, hk⟩ | ⟨fs, he, hr⟩
    · rw [he]
      exact Or.inl ⟨e, _, rfl, hk⟩
    · rw [he]
      exact Or.inr ⟨fs, rfl, hr⟩
  · exact Or.inl ⟨_, s, rfl, Calls.refl h⟩
  · exact Or.inl ⟨_, s, rfl, Calls.refl h⟩

/-- The empty directory that a call takes out of the tree. -/
def takesOut (s : Vfs) : Act → Option Nat
  | .rmdir _ path =>
    match s.fs.lookup path.bytes with
    | none => none
    | some dir => if s.finds [path.bytes] ∧ s.fs.isDir dir ∧ dir ≠ rootIno ∧
      s.fs.childrenOf dir = [] then some dir else none
  | .renameat _ oldpath newpath =>
    match s.fs.lookup oldpath.bytes, s.fs.lookup newpath.bytes with
    | some src, some dst =>
      if s.finds [parentPath oldpath.bytes, parentPath newpath.bytes, oldpath.bytes] ∧ s.fs.isDir src ∧ s.fs.isDir dst ∧
          dst ≠ src ∧ s.fs.childrenOf dst = [] ∧ s.fs.movesBelow src ((s.fs.parentOf dst).getD rootIno) =
            some false then
        some dst
      else none
    | _, _ => none
  | _ => none

theorem Inv.doRmdir (h : s.Inv) (pid : Nat) (p : AbsPath) :
    Calls s (s.doRmdir p.bytes).2 (fun c => s.takesOut (.rmdir pid p) = some c) False := by
  obtain ⟨r, s1, hl, h1, hg, hr⟩ := h.lookupPath p
  unfold Vfs.doRmdir
  simp only [hl]
  cases r with
  | none => exact (hg.keeps h h1.cache).mono (fun _ hc => hc.elim) id
  | some d =>
    obtain ⟨-, y, hd, hlook⟩ := hr d rfl
    have hsame : Calls s s1 (fun c => s.takesOut (.rmdir pid p) = some c) False :=
      (hg.keeps h h1.cache).mono (fun _ hc => hc.elim) id
    dsimp only
    cases hcell : s1.dentries d with
    | none => exact hsame
    | some x =>
      have hx : y = { x with children := [] } := by
        rw [bare, hcell] at hd
        exact (Option.some.inj hd).symm
      dsimp only
      cases hp : x.parent with
      | none => exact hsame
      | some q =>
        have hpar : y.parent = some q := by rw [hx]; exact hp
        obtain ⟨z, hz, hf⟩ := h1.cache.link hd hpar
        have hgone : ∀ c, s1.fs.Sheds z.inode x.name c → s.takesOut (.rmdir pid p) = some c := by
          rintro c ⟨hc, hdir, hempty⟩
          rw [hx] at hf
          obtain ⟨rc, hent⟩ := h1.fs.exists_entry hc
          have hlook' : s.fs.lookup p.bytes = some c := by rw [hlook, hx, ← hc, hf]
          rw [hg.fs] at hdir hempty
          simp [takesOut, hlook', finds, hl, hdir, hempty, hent.ne_root]
        dsimp only
        rw [inodeOf_of_bare hz]
        refine hg.trans_keeps ?_
        rcases h1.vfsRmdir (i := z.inode) x.name x.inode with ⟨e, s2, he, hk⟩ | ⟨fs, he, hrm⟩
        · simp only [he]
          exact hk.mono (fun _ hc => hc.elim) id
        · simp only [he]
          exact ((h1.removed hz hrm).1 d ⟨y, hd, hpar, by rw [hx]⟩).mono (fun c hc => hgone c hc.2) id

/-! ## Rename -/

variable {np od op : Nat}

/-- A directory in the cache is not below another one that ramfs does not have above it. -/
theorem CacheInv.not_below (h : s.CacheInv noHole) (hfs : s.fs.Inv .empty) (hd : s.bare d = some x)
    (hnp : s.bare np = some y) (hdir : s.fs.isDir y.inode = true)
    (hbelow : s.fs.isDir x.inode = true → ¬ Reaches s.fs.parentOf y.inode x.inode) : ¬ Reaches s.parentOf np d := by
  intro hr
  have hx : s.fs.isDir x.inode = true := by
    rcases Relation.ReflTransGen.cases_tail hr with rfl | ⟨c, -, hc⟩
    · obtain rfl := Option.mem_unique hd hnp
      exact hdir
    · rw [parentOf_eq] at hc
      obtain ⟨z, hz, hp⟩ := Option.bind_eq_some_iff.1 hc
      obtain ⟨w, hw, hf⟩ := h.link hz hp
      obtain rfl := Option.mem_unique hd hw
      exact isDir_of_findChild hf
  exact hbelow hx (h.reaches_inode hfs hr hnp hd hdir)

theorem dMove_rest (s : Vfs) (d np : Nat) (name : Name) :
    (s.dMove d np name).fs = s.fs ∧ (s.dMove d np name).rest = s.rest := by
  unfold Vfs.dMove
  split_ifs
  · exact ⟨rfl, rfl⟩
  · unfold dUnlink
    split
    · exact ⟨rfl, rfl⟩
    · exact ⟨rfl, rfl⟩

/-- The two names of a rename, as the cache knows them. -/
structure Renaming (s : Vfs) (op : Nat) (on : Name) (np : Nat) (nn : Name) (od : Nat) (nd : Option Nat)
    (x y z : Dentry) : Prop where
  old : s.bare od = some x ∧ x.parent = some op ∧ x.name = on
  oldParent : s.bare op = some y
  newParent : s.bare np = some z
  new : ∀ c, s.named np nn c ↔ nd = some c

variable {on nn : Name} {nd : Option Nat} {x y z : Dentry}

theorem Renaming.entry
    (hr : Renaming s op on np nn od nd x y z) (h : s.CacheInv noHole) : s.fs.findChild y.inode on = some x.inode := by
  obtain ⟨hod, hop, hon⟩ := hr.old
  obtain ⟨v, hv, hf⟩ := h.link hod hop
  obtain rfl := Option.mem_unique hr.oldParent hv
  rwa [hon] at hf

theorem Renaming.target {e : Nat}
    (hr : Renaming s op on np nn od nd x y z) (h : s.CacheInv noHole) (he : nd = some e) :
    ∃ w, s.bare e = some w ∧ s.fs.findChild z.inode nn = some w.inode := by
  obtain ⟨w, hw, hwp, hwn⟩ := (hr.new e).2 he
  obtain ⟨v, hv, hf⟩ := h.link hw hwp
  obtain rfl := Option.mem_unique hr.newParent hv
  exact ⟨w, hw, hwn ▸ hf⟩

/-- The cache follows a rename: the dentry that is replaced goes and the other one moves to its place. -/
theorem CacheInv.replace
    (h : s.CacheInv fun c => s.named np nn c ∨ c = od) (hr : Renaming s op on np nn od nd x y z)
    (hf : s.fs.findChild z.inode nn = some x.inode) (hleaf : ∀ e, nd = some e → s.childrenOf e = [] ∧ e ≠ od)
    (hbelow : ¬ Reaches s.parentOf np od) :
    CacheInv ((match nd with
      | none => s
      | some e => s.dDrop e).dMove od np nn) noHole := by
  obtain ⟨hod, hop, -⟩ := hr.old
  cases nd with
  | none =>
    have hno : ∀ c, ¬ s.named np nn c := fun c hc => by simpa using (hr.new c).1 hc
    refine (h.dMove hod hop hr.newParent hf ?_ hbelow).mono ?_
    · intro c w hw hp hn
      exact absurd ⟨w, hw, hp, hn⟩ (hno c)
    · rintro c ⟨hc | hc, hne⟩
      · exact hno c hc
      · exact hne hc
  | some e =>
    obtain ⟨hchild, hne⟩ := hleaf e rfl
    obtain ⟨w, hw, hwp, hwn⟩ := (hr.new e).2 rfl
    obtain ⟨hbare, -, -, hfs, -⟩ := dDrop_bare h hw hwp hchild
    have hkeep : ∀ {c v}, s.bare c = some v → c ≠ e → (s.dDrop e).bare c = some v := by
      intro c v hc hce
      rw [hbare, Function.update_of_ne hce]
      exact hc
    have hback : ∀ {c v}, (s.dDrop e).bare c = some v → c ≠ e ∧ s.bare c = some v := by
      intro c v hc
      rw [hbare] at hc
      by_cases hce : c = e
      · subst hce
        rw [Function.update_self] at hc
        cases hc
      · rw [Function.update_of_ne hce] at hc
        exact ⟨hce, hc⟩
    have hnamed : ∀ c, s.named np nn c → c = e := fun c hc => (Option.some.inj ((hr.new c).1 hc)).symm
    refine ((h.dDrop hw hwp hchild).dMove (hkeep hod hne.symm) hop (hkeep hr.newParent (h.parent_ne hw hwp)) ?_ ?_
      ?_).mono ?_
    · rw [hfs]
      exact hf
    · intro c v hv hp hn
      obtain ⟨hce, hv⟩ := hback hv
      exact absurd (hnamed c ⟨v, hv, hp, hn⟩) hce
    · intro hreach
      refine hbelow (hreach.mono ?_)
      intro a b hab
      rw [parentOf_eq] at hab ⊢
      obtain ⟨v, hv, hp⟩ := Option.bind_eq_some_iff.1 hab
      exact Option.bind_eq_some_iff.2 ⟨v, (hback hv).2, hp⟩
    · rintro c ⟨⟨hc | hc, hce⟩, hcd⟩
      · exact hce (hnamed c hc)
      · exact hcd hc

/-- Ramfs moved an entry: the cache is right but for the two dentries. -/
theorem Inv.moved {src : Nat} (h : s.Inv)
    (hr : Renaming s op on np nn od nd x y z) (hm : Ramfs.Moved s.fs fs y.inode on z.inode nn src) :
    CacheInv { s with fs := fs } fun c => s.named np nn c ∨ c = od := by
  refine h.cache.congr ?_ ?_ ?_ ?_ fun _ hc => hc.elim
  · rfl
  · rfl
  · rfl
  · intro c w p v hc hp hv hno _ hw
    show fs.findChild v.inode w.name = some w.inode
    rw [hm.view, setEntry_of_ne, setEntry_of_ne]
    · exact hw
    · rintro ⟨hi, hn⟩
      obtain rfl : p = op := h.cache.dir_unique h.fs hv hr.oldParent hi (isDir_of_findChild hw)
      exact hno (Or.inr (h.cache.named_unique ⟨w, hc, hp, hn⟩ ⟨x, hr.old.1, hr.old.2.1, hr.old.2.2⟩))
    · rintro ⟨hi, hn⟩
      obtain rfl : p = np := h.cache.dir_unique h.fs hv hr.newParent hi (isDir_of_findChild hw)
      exact hno (Or.inl ⟨w, hc, hp, hn⟩)

/-- Ramfs and the cache after a rename; `nd` is the dentry that is dropped. -/
theorem Inv.follow {gone : Nat → Prop} (h : s.Inv) (nd : Option Nat) (od np : Nat) (nn : Name)
    (hev : Ramfs.Evolves s.fs fs gone) (hu : ∀ c, s.fs.users c ≤ fs.users c)
    (hcache : CacheInv ((match nd with
      | none => ({ s with fs := fs } : Vfs)
      | some e => dDrop { s with fs := fs } e).dMove od np nn) noHole)
    (hnames : Brings s.fs.findChild fs.findChild) :
    Calls s ((match nd with
      | none => ({ s with fs := fs } : Vfs)
      | some e => dDrop { s with fs := fs } e).dMove od np nn) gone False := by
  generalize hs1 : (match nd with
      | none => ({ s with fs := fs } : Vfs)
      | some e => dDrop { s with fs := fs } e) = s1 at hcache ⊢
  have hfs1 : s1.fs = fs ∧ s1.rest = s.rest := by
    rw [← hs1]
    cases nd with
    | none => exact ⟨rfl, rfl⟩
    | some e => exact dDrop_rest _ e
  obtain ⟨hfs, hrest⟩ := dMove_rest s1 od np nn
  rw [hfs1.1] at hfs
  refine h.calls_of ?_ ?_ hcache ?_ (hrest.trans hfs1.2)
  · rw [hfs]
    exact hev
  · rw [hfs]
    exact hu
  · rw [hfs]
    exact hnames

/-- What a rename of the names takes out. -/
def replaces (s : Vfs) (x z : Dentry) (nn : Name) (e : Nat) : Prop :=
  s.fs.Sheds z.inode nn e ∧ s.fs.isDir x.inode = true ∧ e ≠ x.inode ∧ s.fs.movesBelow x.inode z.inode = some false

theorem Inv.renameMoved {src : Nat} (h : s.Inv)
    (hr : Renaming s op on np nn od nd x y z) (hm : Ramfs.Moved s.fs fs y.inode on z.inode nn src)
    (hn : Enterable nn) :
    Calls s ((match nd with
      | none => ({ s with fs := fs } : Vfs)
      | some e => dDrop { s with fs := fs } e).dMove od np nn) (s.replaces x z nn) False := by
  obtain ⟨hod, hop, -⟩ := hr.old
  obtain rfl := Option.mem_unique hm.was (hr.entry h.cache)
  have hf : fs.findChild z.inode nn = some x.inode := by rw [hm.view, setEntry_self]
  obtain ⟨r0, hz0⟩ := h.live_dentry hr.newParent
  have hdir : s.fs.isDir z.inode = true := hm.isDir h.fs hz0
  -- what is replaced is childless, and it is not what moves
  have hleaf : ∀ e, nd = some e → s.childrenOf e = [] ∧ e ≠ od := by
    rintro e rfl
    obtain ⟨w, hw, hwf⟩ := hr.target h.cache rfl
    obtain ⟨hne, -, hempty⟩ := hm.replaced w.inode hwf
    refine ⟨h.cache.childless hw (Ramfs.findChild_of_empty hempty), ?_⟩
    rintro rfl
    obtain rfl := Option.mem_unique hw hod
    exact hne rfl
  refine h.follow nd od np nn ?_ (fun c => (hm.frame.users c).ge) ?_ ?_
  · refine { hm.evolves h.fs with linked := ?_ }
    intro d hd hno
    refine (hm.evolves h.fs).linked d hd fun hs => hno ⟨hs, ?_, (hm.replaced d hs.1).1, hm.above⟩
    rw [← (hm.replaced d hs.1).2.1]
    exact hs.2.1
  · refine CacheInv.replace (s := { s with fs := fs }) (h.moved hr hm) ⟨hr.old, hr.oldParent, hr.newParent,
      hr.new⟩ hf hleaf ?_
    exact h.cache.not_below h.fs hod hr.newParent hdir hm.below
  · rw [hm.view]
    exact (Brings.setEntry fun hc => absurd rfl hc).trans (Brings.setEntry fun _ => hn)

/-- The part of `do_rename` after its lookups. -/
theorem Inv.renameFound (h : s.Inv)
    (hr : Renaming s op on np nn od nd x y z) (hn : Enterable nn) :
    ∃ p, s.renameFound op on np nn od nd = some p ∧ Calls s p.2 (s.replaces x z nn) False := by
  have hsame : Calls s s (s.replaces x z nn) False := (Calls.refl h).mono (fun _ hc => hc.elim) id
  obtain ⟨hod, hop, hon⟩ := hr.old
  unfold Vfs.renameFound
  split_ifs with hany
  · exact ⟨_, rfl, hsame⟩
  rw [inodeOf_of_bare hr.oldParent, inodeOf_of_bare hr.newParent]
  obtain ⟨res, fs, he, hcase⟩ := Ramfs.inodeRename_spec y.inode on nn h.fs (h.linked_dentry hr.newParent)
  rw [he]
  cases res with
  | error e =>
    rcases hcase with ⟨rfl, -⟩ | ⟨⟨⟩, -⟩
    exact ⟨_, rfl, hsame⟩
  | ok u =>
    refine ⟨_, rfl, ?_⟩
    rcases hcase with ⟨rfl, ⟨e, ⟨⟩⟩ | ⟨src, h1, h2⟩⟩ | ⟨-, src, hm⟩
    · -- both names are on one inode, and the cache could not be told of the second
      obtain rfl := Option.mem_unique h1 (hr.entry h.cache)
      have hnd : nd = none := by
        cases nd with
        | none => rfl
        | some e =>
          obtain ⟨w, hw, hwf⟩ := hr.target h.cache rfl
          rw [h2] at hwf
          exact absurd (by simp [inodeOf_of_bare hw, inodeOf_of_bare hod, Option.some.inj hwf]) hany
      subst hnd
      have hfile : s.fs.isDir x.inode = true → ¬ Reaches s.fs.parentOf z.inode x.inode := by
        intro hdir
        obtain ⟨hi, rfl⟩ := h.fs.entry_unique h1 h2 hdir
        obtain rfl : op = np := h.cache.dir_unique h.fs hr.oldParent hr.newParent hi (isDir_of_findChild h1)
        exact absurd ((hr.new od).1 ⟨x, hod, hop, hon⟩) (by simp)
      refine h.follow none od np nn ((Ramfs.Evolves.refl h.fs).mono fun _ hc => hc.elim) (fun _ => Nat.le_refl _) ?_
        (Brings.refl _)
      have hbelow := h.cache.not_below h.fs hod hr.newParent (isDir_of_findChild h2) hfile
      exact (h.cache.mono fun _ hc => hc.elim).replace hr h2 (by rintro e ⟨⟩) hbelow
    · exact h.renameMoved hr hm hn

/-- The dentries that the lookups of a child find, in the state after them. -/
theorem named_of_step {r : Option Nat} (h : s.CacheInv hole)
    (hr : match r with
      | some c => ∃ x, s.bare c = some x ∧ x.parent = some q ∧ x.name = n
      | none => (∀ c x, s.bare c = some x → x.parent = some q → x.name ≠ n) ∧
        (s'.fs.findChild i n = none ∨ false ∈ s'.allocs))
    (c : Nat) : s.named q n c ↔ r = some c := by
  cases r with
  | none =>
    refine ⟨?_, fun hc => by cases hc⟩
    rintro ⟨x, hx, hp, hn⟩
    exact absurd hn (hr.1 c x hx hp)
  | some d =>
    constructor
    · intro hc
      rw [h.named_unique hc hr]
    · rintro ⟨⟩
      exact hr

/-- The four lookups of `do_rename`: one of the paths is not there, or the cache has both parents, the old name, and the
new one when it exists and there was memory for its dentry. -/
theorem Inv.doRename_cases (h : s.Inv) (old new : AbsPath) :
    (∃ e s1, s.doRename old.bytes new.bytes = some (.error e, s1) ∧ Grows s s1 ∧ s1.CacheInv noHole) ∨
      ∃ s4 cs1 n1 cs2 n2 op np od nd x y z, s.doRename old.bytes new.bytes = s4.renameFound op n1 np n2 od nd ∧
        old.comps = cs1 ++ [n1] ∧ new.comps = cs2 ++ [n2] ∧ Grows s s4 ∧ s4.Inv ∧ Renaming s4 op n1 np n2 od nd x y z ∧
        s.fs.walk rootIno cs1 = some y.inode ∧ s.fs.walk rootIno cs2 = some z.inode ∧
        (nd = none → s.fs.findChild z.inode n2 = none ∨ false ∈ s.allocs) ∧
        s.finds [parentPath old.bytes, parentPath new.bytes, old.bytes] = true := by
  unfold Vfs.doRename
  rcases old.cases with ⟨-, hp1⟩ | ⟨cs1, n1, hcomps1, hcs1, hn1, hb1, hp1⟩
  · simp only [hp1]
    exact Or.inl ⟨_, s, rfl, Grows.refl s, h.cache⟩
  rcases new.cases with ⟨-, hp2⟩ | ⟨cs2, n2, hcomps2, hcs2, hn2, hb2, hp2⟩
  · simp only [hp1, hp2]
    exact Or.inl ⟨_, s, rfl, Grows.refl s, h.cache⟩
  simp only [hp1, hp2]
  split_ifs with hdot
  · exact Or.inl ⟨_, s, rfl, Grows.refl s, h.cache⟩
  -- the two parents
  obtain ⟨r1, s1, hl1, h1, hg1, hr1⟩ := h.lookupParent hcs1
  simp only [hl1]
  cases r1 with
  | none => exact Or.inl ⟨_, s1, rfl, hg1, h1.cache⟩
  | some op =>
  obtain ⟨ht1, y, hy, hw1⟩ := hr1 op rfl
  obtain ⟨r2, s2, hl2, h2, hg2, hr2⟩ := h1.lookupParent hcs2
  simp only [hl2]
  cases r2 with
  | none => exact Or.inl ⟨_, s2, rfl, hg1.trans hg2, h2.cache⟩
  | some np =>
  obtain ⟨ht2, z, hz, hw2⟩ := hr2 np rfl
  rw [hg1.fs] at hw2
  -- the two names below them
  have hy2 : s2.bare op = some y := hg2.bare op y hy
  obtain ⟨r3, s3, hl3, hc3, hg3, hr3⟩ := h2.cache.dStep hy2 n1
  have hold : s2.dLookupPath old.bytes = (r3, s3) := by
    rw [hb1, dLookupPath_child h2.cache (ht1.mono hg2.bare) hcs1 hn1, hl3]
  have hg3' : Grows s s3 := (hg1.trans hg2).trans hg3
  simp only [hold]
  cases r3 with
  | none => exact Or.inl ⟨_, s3, rfl, hg3', hc3⟩
  | some od =>
  obtain ⟨x, hx, hxp, hxn⟩ := hr3
  have hz3 : s3.bare np = some z := hg3.bare np z hz
  obtain ⟨nd, s4, hl4, hc4, hg4, hr4⟩ := hc3.dStep hz3 n2
  have hg : Grows s s4 := hg3'.trans hg4
  have hnew : s3.dLookupPath new.bytes = (nd, s4) := by
    rw [hb2, dLookupPath_child hc3 (ht2.mono hg3.bare) hcs2 hn2, hl4]
  simp only [hnew]
  refine Or.inr ⟨s4, cs1, n1, cs2, n2, op, np, od, nd, x, y, z, rfl, hcomps1, hcomps2, hg, h.grows hc4 hg,
    ⟨⟨hg4.bare od x hx, hxp, hxn⟩, hg4.bare op y (hg3.bare op y hy2), hg4.bare np z hz3, named_of_step hc4 hr4⟩, hw1,
      hw2, ?_, ?_⟩
  · rintro rfl
    rw [← hg3'.fs]
    exact hr4.2.imp_right (hg3'.allocs false)
  · simp [finds, parentPath, hp1, hp2, hl1, hl2, hold]

theorem Inv.doRename (h : s.Inv) (pid : Nat) (old new : AbsPath) : ∃ p, s.doRename old.bytes new.bytes = some p ∧
    Calls s p.2 (fun c => s.takesOut (.renameat pid old new) = some c) False := by
  obtain ⟨e, s1, he, hg, hc⟩ |
    ⟨s4, cs1, n1, cs2, n2, op, np, od, nd, x, y, z, he, hcomps1, hcomps2, hg, h4, hren, hw1, hw2, -, hfinds⟩ :=
    h.doRename_cases old new
  · exact ⟨_, he, (hg.keeps h hc).mono (fun _ hc => hc.elim) id⟩
  obtain ⟨p, hp, hk⟩ := h4.renameFound hren (enterable new (by rw [hcomps2]; simp))
  refine ⟨p, he.trans hp, hg.trans_keeps (hk.mono ?_ id)⟩
  rintro e ⟨⟨hf, hdir, hempty⟩, hxdir, hne, habove⟩
  -- the lookups in ramfs come to the same inodes
  have hlook : ∀ {p : AbsPath} {cs : List Name} {n : Name} {d i : Nat}, p.comps = cs ++ [n] →
    s.fs.walk rootIno cs = some d → s.fs.findChild d n = some i → s.fs.lookup p.bytes = some i := by
    intro p cs n d i hcomps hw hf
    unfold AbsPath.bytes
    rw [Ramfs.lookup_renderPath p.isComponent, hcomps, Ramfs.walk_append, hw]
    simp [Ramfs.walk, hf]
  have hpar : s.fs.parentOf e = some z.inode := by
    obtain ⟨re, hent⟩ := h4.fs.exists_entry hf
    have ht : re.type = .dir := by simpa [Ramfs.isDir_of_live hent.live] using hdir
    rw [← hg.fs, Ramfs.parentOf_of_live hent.live]
    exact hent.parent ht
  have hold := hren.entry h4.cache
  rw [hg.fs] at hf hold hdir hempty hxdir habove
  simp [takesOut, hlook hcomps1 hw1 hold, hlook hcomps2 hw2 hf, hfinds, hxdir, hdir, hne, hempty, hpar, habove]

end Vfs

end MiniOs.Fs
