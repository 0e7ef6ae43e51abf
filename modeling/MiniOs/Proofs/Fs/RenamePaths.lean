/-
Rename on paths: the paths at and below the old name now start with the new one, and every other path
leads where it led. A directory stands under one name only, so a walk from the root comes through an
entry on one path only.
-/
import MiniOs.Proofs.Fs.NameiRun

namespace MiniOs.Fs

open Library

namespace Ramfs

variable {fs fs' : Ramfs} {d d₁ d₂ i src : Nat} {n₁ n₂ : Name} {cs cs₁ cs₂ : List Name}

/-! ## Walks in a tree -/

theorem walk_concat (i : Nat) (cs : List Name) (n : Name) :
    fs.walk i (cs ++ [n]) = (fs.walk i cs).bind fun d => fs.findChild d n := by
  rw [walk_append]
  simp [walk]

theorem walk_concat_eq_some {n : Name} (h : fs.walk i (cs ++ [n]) = some d) :
    ∃ e, fs.walk i cs = some e ∧ fs.findChild e n = some d := by
  rw [walk_concat] at h
  exact Option.bind_eq_some_iff.1 h

/-- The entries that a walk comes through decide where it ends. -/
theorem walk_congr (h : ∀ ds m e, ds ++ [m] <+: cs → fs.walk i ds = some e → fs'.findChild e m = fs.findChild e m) :
    fs'.walk i cs = fs.walk i cs := by
  induction cs using List.reverseRecOn with
  | nil => rfl
  | append_singleton ds m ih =>
    have hds : fs'.walk i ds = fs.walk i ds := by
      apply ih
      intro es k e hp he
      exact h es k e (hp.trans (List.prefix_append ..)) he
    rw [walk_concat, walk_concat, hds]
    cases he : fs.walk i ds with
    | none => rfl
    | some e => exact h ds m e List.prefix_rfl he

theorem Inv.reaches_of_walk (h : fs.Inv .empty) (hw : fs.walk i cs = some d) (hd : fs.isDir d = true) :
    Reaches fs.parentOf d i := by
  induction cs using List.reverseRecOn generalizing d with
  | nil =>
    cases hw
    exact Relation.ReflTransGen.refl
  | append_singleton ds m ih =>
    obtain ⟨e, he, hf⟩ := walk_concat_eq_some hw
    obtain ⟨rd, hent⟩ := h.exists_entry hf
    have ht : rd.type = .dir := by simpa [isDir_of_live hent.live] using hd
    refine Relation.ReflTransGen.head ?_ (ih he (isDir_of_findChild hf))
    rw [parentOf_of_live hent.live]
    exact hent.parent ht

theorem Inv.walk_unique (h : fs.Inv .empty) (h₁ : fs.walk rootIno cs₁ = some d) (h₂ : fs.walk rootIno cs₂ = some d)
    (hd : fs.isDir d = true) : cs₁ = cs₂ := by
  have hroot : ∀ e n, fs.findChild e n ≠ some rootIno := by
    intro e n hf
    obtain ⟨r, hent⟩ := h.exists_entry hf
    exact hent.ne_root rfl
  induction cs₁ using List.reverseRecOn generalizing cs₂ d with
  | nil =>
    cases h₁
    rcases List.eq_nil_or_concat cs₂ with rfl | ⟨ds, m, rfl⟩
    · rfl
    · rw [List.concat_eq_append] at h₂
      obtain ⟨e, -, hf⟩ := walk_concat_eq_some h₂
      exact absurd hf (hroot e m)
  | append_singleton ds₁ m₁ ih =>
    obtain ⟨e₁, he₁, hf₁⟩ := walk_concat_eq_some h₁
    rcases List.eq_nil_or_concat cs₂ with rfl | ⟨ds₂, m₂, rfl⟩
    · cases h₂
      exact absurd hf₁ (hroot e₁ m₁)
    · rw [List.concat_eq_append] at h₂ ⊢
      obtain ⟨e₂, he₂, hf₂⟩ := walk_concat_eq_some h₂
      obtain ⟨rfl, rfl⟩ := h.entry_unique hf₁ hf₂ hd
      rw [ih he₁ he₂ (isDir_of_findChild hf₁)]

/-! ## Walks after a rename -/

theorem Moved.other (hm : Moved fs fs' d₁ n₁ d₂ n₂ src) : fs.findChild d₂ n₂ ≠ some src := fun hf =>
  (hm.replaced src hf).1 rfl

theorem Moved.findChild_of_ne (hm : Moved fs fs' d₁ n₁ d₂ n₂ src) {n : Name} (h₁ : ¬ (d = d₁ ∧ n = n₁))
    (h₂ : ¬ (d = d₂ ∧ n = n₂)) : fs'.findChild d n = fs.findChild d n := by
  rw [hm.view, setEntry_of_ne _ h₂, setEntry_of_ne _ h₁]

section Moved

variable (h : fs.Inv .empty) (hm : Moved fs fs' d₁ n₁ d₂ n₂ src) (hd : fs.isDir d₂ = true)
include h hm hd

/-- The directory that takes the entry is not in the tree that moves. -/
theorem Moved.walk_ne_new (cs : List Name) : fs.walk src cs ≠ some d₂ := by
  intro hw
  cases hs : fs.isDir src with
  | true => exact hm.below hs (h.reaches_of_walk hw hd)
  | false =>
    cases cs with
    | nil =>
      cases hw
      rw [hs] at hd
      cases hd
    | cons n cs =>
      rw [walk_of_not_dir hs (by simp)] at hw
      cases hw

variable (h₁ : fs.walk rootIno cs₁ = some d₁) (h₂ : fs.walk rootIno cs₂ = some d₂)
include h₁ h₂

theorem Moved.walk_below (cs : List Name) : fs'.walk src cs = fs.walk src cs := by
  apply walk_congr
  intro ds m e _ he
  apply hm.findChild_of_ne
  · rintro ⟨rfl, -⟩
    have hw : fs.walk rootIno (cs₁ ++ [n₁] ++ ds) = some e := by
      rw [walk_append, walk_concat, h₁, Option.bind_some, hm.was, Option.bind_some, he]
    have hlen := congrArg List.length (h.walk_unique hw h₁ (isDir_of_findChild hm.was))
    simp at hlen
  · rintro ⟨rfl, -⟩
    exact hm.walk_ne_new h hd ds he

/-- Paths that do not come through one of the two names lead where they led. -/
theorem Moved.walk_apart (ho : ¬ cs₁ ++ [n₁] <+: cs) (hn : ¬ cs₂ ++ [n₂] <+: cs) :
    fs'.walk rootIno cs = fs.walk rootIno cs := by
  apply walk_congr
  intro ds m e hp he
  apply hm.findChild_of_ne
  · rintro ⟨rfl, rfl⟩
    rw [h.walk_unique he h₁ (isDir_of_findChild hm.was)] at hp
    exact ho hp
  · rintro ⟨rfl, rfl⟩
    rw [h.walk_unique he h₂ hd] at hp
    exact hn hp

/-- Nothing moves into itself. -/
theorem Moved.not_prefix : ¬ cs₁ ++ [n₁] <+: cs₂ ++ [n₂] := by
  intro hp
  rcases List.prefix_concat_iff.1 hp with heq | ⟨ds, rfl⟩
  · obtain ⟨rfl, rfl⟩ : cs₁ = cs₂ ∧ n₁ = n₂ := by simpa using heq
    obtain rfl := Option.mem_unique h₁ h₂
    exact hm.other hm.was
  · rw [walk_append, walk_concat, h₁, Option.bind_some, hm.was, Option.bind_some] at h₂
    exact hm.walk_ne_new h hd ds h₂

theorem Moved.walk_new (cs : List Name) :
    fs'.walk rootIno (cs₂ ++ [n₂] ++ cs) = fs.walk rootIno (cs₁ ++ [n₁] ++ cs) := by
  have hpar : fs'.walk rootIno cs₂ = some d₂ := by
    rw [hm.walk_apart h hd h₁ h₂ _ _, h₂]
    · exact fun hp => hm.not_prefix h hd h₁ h₂ (hp.trans (List.prefix_append ..))
    · intro hp
      have hlen := hp.length_le
      simp at hlen
  have hent : fs'.findChild d₂ n₂ = some src := by rw [hm.view, setEntry_self]
  rw [walk_append, walk_concat, hpar, Option.bind_some, hent, Option.bind_some, hm.walk_below h hd h₁ h₂, walk_append,
    walk_concat, h₁, Option.bind_some, hm.was, Option.bind_some]

theorem Moved.walk_old : fs'.walk rootIno (cs₁ ++ [n₁]) = none := by
  -- what is replaced is empty, so the old name is not below it
  have hnew : ¬ cs₂ ++ [n₂] <+: cs₁ := by
    rintro ⟨ds, rfl⟩
    rw [walk_append, walk_concat, h₂, Option.bind_some] at h₁
    obtain ⟨dst, hdst, hw⟩ := Option.bind_eq_some_iff.1 h₁
    have hnone := findChild_of_empty (hm.replaced dst hdst).2.2
    cases ds with
    | nil =>
      cases hw
      cases (hnone n₁).symm.trans hm.was
    | cons m ds =>
      rw [walk, hnone] at hw
      cases hw
  have hpar : fs'.walk rootIno cs₁ = some d₁ := by
    rw [hm.walk_apart h hd h₁ h₂ _ hnew, h₁]
    intro hp
    have hlen := hp.length_le
    simp at hlen
  have hne : ¬ (d₁ = d₂ ∧ n₁ = n₂) := by
    rintro ⟨rfl, rfl⟩
    exact hm.other hm.was
  rw [walk_concat, hpar, Option.bind_some, hm.view, setEntry_of_ne _ hne, setEntry_self]

end Moved

end Ramfs

/-! ## `do_rename` -/

/-- The components of a path. -/
def AbsPath.path (p : AbsPath) : List (List UInt8) := p.comps.map Name.bytes

/-- The inode at the path with these components. -/
def Ramfs.resolve (fs : Ramfs) (cs : List (List UInt8)) : Option Nat := fs.lookup (renderPath cs)

/-- The tree at `old`, with the inode `src`, is at `new` now. -/
structure Renamed (fs fs' : Ramfs) (old new : AbsPath) (src : Nat) : Prop where
  there : fs'.resolve new.path = some src
  gone : fs'.resolve old.path = none
  below : ∀ cs, (∀ c ∈ cs, IsComponent c) → fs'.resolve (new.path ++ cs) = fs.resolve (old.path ++ cs)
  apart : ∀ cs, (∀ c ∈ cs, IsComponent c) → ¬ old.path <+: cs → ¬ new.path <+: cs → fs'.resolve cs = fs.resolve cs
  target : ∀ dst, fs.resolve new.path = some dst →
    (fs.isDir src = false → fs.isDir dst = false) ∧ (fs.isDir src = true → fs.isDir dst = true ∧ fs.childrenOf dst = [])
  outside : ¬ old.comps <+: new.comps

theorem AbsPath.isComponent_path (p : AbsPath) {cs : List (List UInt8)} (h : ∀ c ∈ cs, IsComponent c) :
    ∀ c ∈ p.path ++ cs, IsComponent c := by
  intro c hc
  rcases List.mem_append.1 hc with hc | hc
  · obtain ⟨n, hn, rfl⟩ := List.mem_map.1 hc
    exact p.isComponent n hn
  · exact h c hc

theorem Ramfs.resolve_names {fs : Ramfs} {names : List Name} (h : ∀ n ∈ names, IsComponent n.bytes) :
    fs.resolve (names.map Name.bytes) = fs.walk rootIno names := Ramfs.lookup_renderPath h

namespace Vfs

variable {s s' : Vfs}

theorem Inv.renamed {old new : AbsPath} {cs₁ cs₂ : List Name} {n₁ n₂ : Name} {d₁ d₂ src : Nat} (h : s.Inv) (h' : s'.Inv)
    (ho : old.comps = cs₁ ++ [n₁]) (hn : new.comps = cs₂ ++ [n₂]) (h₁ : s.fs.walk rootIno cs₁ = some d₁)
    (h₂ : s.fs.walk rootIno cs₂ = some d₂) (hd : s.fs.isDir d₂ = true) (hm : Ramfs.Moved s.fs s'.fs d₁ n₁ d₂ n₂ src) :
    Renamed s.fs s'.fs old new src := by
  have hbelow : ∀ names : List Name, s'.fs.walk rootIno (new.comps ++ names) =
    s.fs.walk rootIno (old.comps ++ names) := by
    intro names
    rw [ho, hn]
    exact hm.walk_new h.fs hd h₁ h₂ names
  have hwas : s.fs.walk rootIno old.comps = some src := by
    rw [ho, Ramfs.walk_concat, h₁, Option.bind_some, hm.was]
  constructor
  · rw [AbsPath.path, Ramfs.resolve_names new.isComponent]
    have := hbelow []
    rw [List.append_nil, List.append_nil] at this
    rw [this, hwas]
  · rw [AbsPath.path, Ramfs.resolve_names old.isComponent, ho]
    exact hm.walk_old h.fs hd h₁ h₂
  · intro cs hcs
    by_cases hlong : ∃ c ∈ cs, nameMax < c.length
    · obtain ⟨c, hc, hl⟩ := hlong
      have hfs := lookup_long h.short (old.isComponent_path hcs) ⟨c, List.mem_append_right _ hc, hl⟩
      have hfs' := lookup_long h'.short (new.isComponent_path hcs) ⟨c, List.mem_append_right _ hc, hl⟩
      exact hfs'.trans hfs.symm
    · obtain ⟨names, rfl⟩ := exists_names hlong
      have hn' := new.isComponent_path hcs
      have ho' := old.isComponent_path hcs
      rw [AbsPath.path, ← List.map_append] at hn' ho' ⊢
      rw [AbsPath.path, ← List.map_append, Ramfs.resolve_names (List.forall_mem_map.1 hn'),
        Ramfs.resolve_names (List.forall_mem_map.1 ho'), hbelow]
  · intro cs hcs hno hnn
    by_cases hlong : ∃ c ∈ cs, nameMax < c.length
    · exact (lookup_long h'.short hcs hlong).trans (lookup_long h.short hcs hlong).symm
    · obtain ⟨names, rfl⟩ := exists_names hlong
      have hns : ∀ n ∈ names, IsComponent n.bytes := fun n hmem => hcs n.bytes (List.mem_map_of_mem hmem)
      rw [Ramfs.resolve_names hns, Ramfs.resolve_names hns]
      refine hm.walk_apart h.fs hd h₁ h₂ (fun hp => hno ?_) fun hp => hnn ?_
      · rw [AbsPath.path, ho]
        exact hp.map Name.bytes
      · rw [AbsPath.path, hn]
        exact hp.map Name.bytes
  · intro dst hdst
    rw [AbsPath.path, Ramfs.resolve_names new.isComponent, hn, Ramfs.walk_concat, h₂, Option.bind_some] at hdst
    obtain ⟨-, hkind, hempty⟩ := hm.replaced dst hdst
    rw [hkind]
    exact ⟨id, fun hs => ⟨hs, hempty⟩⟩
  · rw [ho, hn]
    exact hm.not_prefix h.fs hd h₁ h₂

/-- What a rename that returns 0 has done to ramfs. -/
theorem Inv.renameFound_ok {op np od : Nat} {on nn : Name} {nd : Option Nat} {x y z : Dentry} (h : s.Inv)
    (hr : Renaming s op on np nn od nd x y z) (hnd : nd = none → s.fs.findChild z.inode nn = none)
    (hok : s.renameFound op on np nn od nd = some (.ok (), s')) :
    s.fs.findChild z.inode nn = some x.inode ∧ s'.fs = s.fs ∨
      s.fs.isDir z.inode = true ∧ Ramfs.Moved s.fs s'.fs y.inode on z.inode nn x.inode := by
  have hany : (nd.any fun d => s.inodeOf d = s.inodeOf od) = true ↔ s.fs.findChild z.inode nn = some x.inode := by
    rw [inodeOf_of_bare hr.old.1]
    cases nd with
    | none => simp [hnd rfl]
    | some e =>
      obtain ⟨w, hw, hf⟩ := hr.target h.cache rfl
      simp [inodeOf_of_bare hw, hf]
  unfold Vfs.renameFound at hok
  split at hok
  · rename_i hsame
    cases hok
    exact Or.inl ⟨hany.1 hsame, rfl⟩
  rename_i hdiff
  rw [hany] at hdiff
  rw [inodeOf_of_bare hr.oldParent, inodeOf_of_bare hr.newParent] at hok
  obtain ⟨res, fs, he, hcase⟩ := Ramfs.inodeRename_spec y.inode on nn h.fs (h.linked_dentry hr.newParent)
  rw [he] at hok
  cases res with
  | error e => cases hok
  | ok u =>
    rcases hcase with ⟨-, ⟨e, ⟨⟩⟩ | ⟨src, h1, h2⟩⟩ | ⟨-, src, hm⟩
    · -- the names are on two inodes
      rw [Option.mem_unique h1 (hr.entry h.cache)] at h2
      exact absurd h2 hdiff
    · obtain rfl := Option.mem_unique hm.was (hr.entry h.cache)
      obtain ⟨r, hr0⟩ := h.live_dentry hr.newParent
      have hfs : s'.fs = fs := by
        cases hok
        rw [(dMove_rest ..).1]
        cases nd with
        | none => rfl
        | some e => exact (dDrop_rest ..).1
      rw [hfs]
      exact Or.inr ⟨hm.isDir h.fs hr0, hm⟩

theorem Inv.doRename_ok (h : s.Inv) (ha : ∀ ok ∈ s.allocs, ok = true) {old new : AbsPath}
    (hok : s.doRename old.bytes new.bytes = some (.ok (), s')) :
    ∃ cs₁ n₁ d₁ cs₂ n₂ d₂ src, old.comps = cs₁ ++ [n₁] ∧ new.comps = cs₂ ++ [n₂] ∧ s.fs.walk rootIno cs₁ = some d₁ ∧
      s.fs.walk rootIno cs₂ = some d₂ ∧ s.fs.findChild d₁ n₁ = some src ∧
      (s.fs.findChild d₂ n₂ = some src ∧ s'.fs = s.fs ∨
        s.fs.isDir d₂ = true ∧ Ramfs.Moved s.fs s'.fs d₁ n₁ d₂ n₂ src) := by
  obtain ⟨e, s1, he, -⟩ |
    ⟨s4, cs₁, n₁, cs₂, n₂, op, np, od, nd, x, y, z, he, ho, hn, hg, h4, hren, h₁, h₂, hnd, -⟩ :=
      h.doRename_cases old new
  · cases hok.symm.trans he
  have hno : nd = none → s4.fs.findChild z.inode n₂ = none := by
    intro hnone
    rw [hg.fs]
    exact (hnd hnone).resolve_right fun hbad => absurd (ha false hbad) (by simp)
  have hsrc := hren.entry h4.cache
  have hcase := h4.renameFound_ok hren hno (he.symm.trans hok)
  rw [hg.fs] at hsrc hcase
  exact ⟨cs₁, n₁, y.inode, cs₂, n₂, z.inode, x.inode, ho, hn, h₁, h₂, hsrc, hcase⟩

/-- Rename on paths, and the cache follows it. -/
theorem doRename_spec (h : s.Inv) (ha : ∀ ok ∈ s.allocs, ok = true) (old new : AbsPath) :
    ∃ res s', s.doRename old.bytes new.bytes = some (res, s') ∧ s'.Coherent ∧
      (res = .ok () → ∃ src, s.fs.resolve old.path = some src ∧
        (s.fs.resolve new.path = some src → s'.fs = s.fs) ∧
        (s.fs.resolve new.path ≠ some src → Renamed s.fs s'.fs old new src)) := by
  obtain ⟨⟨res, s'⟩, hp, hk⟩ := h.doRename 0 old new
  refine ⟨res, s', hp, hk.inv.coherent fun ok hb => ha ok (hk.allocs ok hb), ?_⟩
  rintro rfl
  obtain ⟨cs₁, n₁, d₁, cs₂, n₂, d₂, src, ho, hn, h₁, h₂, hsrc, hcase⟩ := h.doRename_ok ha hp
  have hnew : s.fs.resolve new.path = s.fs.findChild d₂ n₂ := by
    rw [AbsPath.path, Ramfs.resolve_names new.isComponent, hn, Ramfs.walk_concat, h₂, Option.bind_some]
  refine ⟨src, ?_, ?_, ?_⟩
  · rw [AbsPath.path, Ramfs.resolve_names old.isComponent, ho, Ramfs.walk_concat, h₁, Option.bind_some, hsrc]
  · intro hsame
    rw [hnew] at hsame
    rcases hcase with ⟨-, hfs⟩ | ⟨-, hm⟩
    · exact hfs
    · exact absurd hsame hm.other
  · intro hdiff
    rw [hnew] at hdiff
    rcases hcase with ⟨hsame, -⟩ | ⟨hd, hm⟩
    · exact absurd hsame hdiff
    · exact h.renamed hk.inv ho hn h₁ h₂ hd hm

/-- `/dev`. -/
def pathDev : AbsPath := ⟨[⟨[100, 101, 118], by decide⟩], by decide, by decide⟩

theorem doRename_spec_of_dev : ∃ src s', (init [] [] []).doRename pathDev.bytes pathA.bytes = some (.ok (), s') ∧
    Renamed (init [] [] []).fs s'.fs pathDev pathA src := by
  have hinv : (init [] [] []).Inv := (init_booted [] [] (by simp)).inv
  obtain ⟨res, s', heq, -, hspec⟩ := doRename_spec hinv (by rw [init_allocs]; simp) pathDev pathA
  have hok : ((init [] [] []).doRename pathDev.bytes pathA.bytes).map Prod.fst = some (.ok ()) := rfl
  rw [heq] at hok
  obtain rfl : res = .ok () := by simpa using hok
  obtain ⟨src, -, -, hmoved⟩ := hspec rfl
  have hfree : (init [] [] []).fs.resolve pathA.path = none := rfl
  exact ⟨src, s', heq, hmoved (by simp [hfree])⟩

end Vfs

end MiniOs.Fs
