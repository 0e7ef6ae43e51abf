/-
`ramfs_inode_rename`: its walk up the tree always ends and finds out whether the new directory lies
below the moved one; the operation then refuses and changes nothing, or one name is replaced by
another.
-/
import MiniOs.Proofs.Fs.RamfsOps

namespace MiniOs.Fs

open Library

namespace Ramfs

variable {fs fs' : Ramfs} {hand : Hand} {c d src dst oldDir newDir : Nat} {oldName newName : Name}
  {rc rd : RamfsInode}

/-! ## The walk up the tree -/

theorem meets_isSome (fs : Ramfs) (src : Nat) {r : Nat} (hr : fs.parentOf r = none) :
    ∀ {n k p : Nat}, ancestor fs.parentOf n p = some r → n < k → (fs.meets src k (some p)).isSome
  | 0, k + 1, p, h, _ => by
    cases h
    unfold meets
    split_ifs
    · rfl
    · rw [hr]
      unfold meets
      rfl
  | n + 1, k + 1, p, h, hlt => by
    obtain ⟨y, hy, hn⟩ := Option.bind_eq_some_iff.1 h
    unfold meets
    split_ifs
    · rfl
    · rw [hy]
      exact meets_isSome fs src hr hn (by omega)

theorem not_reaches_of_meets (fs : Ramfs) (src : Nat) :
    ∀ {k p : Nat}, fs.meets src k (some p) = some false → ¬ Reaches fs.parentOf p src
  | 0, p, h => by cases h
  | k + 1, p, h => by
    unfold meets at h
    split_ifs at h with he
    · cases h
    · intro hr
      rcases hr.cases with rfl | ⟨y, hy, hr⟩
      · exact he rfl
      · rw [hy] at h
        exact not_reaches_of_meets fs src h hr

theorem parentOf_root (h : fs.Inv hand) : fs.parentOf rootIno = none := by
  obtain ⟨r, h0, -, hp, -⟩ := h.root
  rw [parentOf_of_live h0, hp]

/-- From a linked directory the walk ends within as many rounds as there are inodes. -/
theorem movesBelow_isSome (h : fs.Inv .empty) (hd : fs.Linked newDir) (src : Nat) :
    (fs.movesBelow src newDir).isSome := by
  obtain ⟨rd, hlive, ht, hl⟩ := hd
  unfold movesBelow
  split_ifs
  · have hreach := h.toRoot newDir rd hlive ht hl (by simp)
    obtain ⟨n, hlt, hn⟩ := hreach.exists_ancestor_lt (parentOf_root h) (Finset.range fs.nextIno) fun a ha => by
      obtain ⟨ra, hra, -⟩ := h.linked_of_reaches (by simp) ha hlive ht hl
      exact Finset.mem_range.2 (h.lt hra)
    rw [Finset.card_range] at hlt
    exact meets_isSome fs src (parentOf_root h) hn hlt
  · rfl

theorem not_reaches_of_movesBelow (hm : fs.movesBelow src newDir = some false) (hs : fs.isDir src = true) :
    ¬ Reaches fs.parentOf newDir src := by
  unfold movesBelow at hm
  rw [hs] at hm
  exact not_reaches_of_meets fs src hm

/-! ## Renaming in place -/

theorem setName_perm (newName : Name) {l : List (Name × Nat)} (hm : (oldName, c) ∈ l) (hnd : (l.map Prod.fst).Nodup) :
    (setName oldName newName l).Perm ((newName, c) :: l.eraseP fun e => e.1 = oldName) := by
  induction l with
  | nil => cases hm
  | cons e es ih =>
    obtain ⟨hne, hes⟩ := List.nodup_cons.1 (show (e.1 :: es.map Prod.fst).Nodup from hnd)
    rcases List.mem_cons.1 hm with rfl | hm
    · simp [setName]
    · have he : e.1 ≠ oldName := by
        rintro rfl
        exact hne (List.mem_map.2 ⟨_, hm, rfl⟩)
      rw [List.eraseP_cons_of_neg (by simpa using he), setName, if_neg he]
      exact ((ih hm hes).cons e).trans (List.Perm.swap _ _ _)

/-- Among distinct names the order of the entries does not matter to a search. -/
theorem find?_perm {l m : List (Name × Nat)} (hp : l.Perm m) (hnd : (l.map Prod.fst).Nodup) (n : Name) :
    (l.find? fun e => e.1 = n) = m.find? fun e => e.1 = n := by
  have hnd' : (m.map Prod.fst).Nodup := (hp.map _).nodup_iff.1 hnd
  cases hl : l.find? fun e => e.1 = n with
  | none =>
    symm
    rw [List.find?_eq_none] at hl ⊢
    exact fun x hx => hl x (hp.mem_iff.2 hx)
  | some e =>
    have he : e.1 = n := by simpa using List.find?_some hl
    have hmem := hp.mem_iff.1 (List.mem_of_find?_eq_some hl)
    have hsome : (m.find? fun e => e.1 = n).isSome := by
      rw [List.find?_isSome]
      exact ⟨e, hmem, by simpa using he⟩
    obtain ⟨e', he'⟩ := Option.isSome_iff_exists.1 hsome
    have hn : e'.1 = n := by simpa using List.find?_some he'
    rw [he', List.inj_on_of_nodup_map hnd' (List.mem_of_find?_eq_some he') hmem (hn.trans he.symm)]

theorem renameInPlace_does (h : fs.Inv .empty) (hf : fs.findChild d oldName = some c)
    (hfree : fs.findChild d newName = none) :
    Does fs (fs.modify d fun rd => { rd with children := setName oldName newName rd.children }) c .empty
      (setEntry (setEntry fs.findChild d oldName none) d newName (some c)) := by
  obtain ⟨rc, he⟩ := h.exists_entry hf
  obtain ⟨rd, hd, hm⟩ := h.findChild_iff.1 hf
  obtain ⟨htype, hlink⟩ := h.holder d rd hd (List.ne_nil_of_mem hm)
  have hnd := h.distinct d rd hd
  have hperm := setName_perm newName hm hnd
  have hnames : ((setName oldName newName rd.children).map Prod.fst).Nodup := by
    rw [(hperm.map _).nodup_iff]
    refine List.nodup_cons.2 ⟨?_, hnd.sublist (List.eraseP_sublist.map _)⟩
    intro hmem
    obtain ⟨⟨m, x⟩, hx, rfl⟩ := List.mem_map.1 hmem
    rw [h.findChild_iff.2 ⟨rd, hd, List.mem_of_mem_eraseP hx⟩] at hfree
    cases hfree
  rw [modify_of_live hd]
  refine Does.set_children ?_ hd rfl ?_
  · apply h.set_children hd rfl hnames htype hlink
    · intro m x hx
      rcases List.mem_cons.1 (hperm.mem_iff.1 hx) with hx | hx
      · cases hx
        exact Or.inr ⟨he.ne_root, rc, he.live, he.named, he.parent⟩
      · exact Or.inl (List.mem_of_mem_eraseP hx)
    · intro x rx _
      rw [namesIn_perm hperm x, namesIn_perm (perm_eraseP hnd hm) x, namesIn_cons, namesIn_cons]
    · rintro x ⟨⟩
    · rintro x rx ⟨⟩
    · rintro x ⟨⟩
  · -- the same entries, in another order, as after taking the old name out and entering the new one
    have hpull := findChild_pull (h.distinct d rd hd) hd htype (n := oldName) rfl
    have hpush := findChild_push (set_self fs d { rd with children := rd.children.eraseP fun e => e.1 = oldName })
      htype (n := newName) (c := c) rfl
    rw [hpull, set_set] at hpush
    rw [← hpush]
    funext x m
    rw [findChild_eq, findChild_eq]
    by_cases e : x = d
    · subst e
      rw [set_self, set_self]
      simp only [cellEntry, htype, if_true, find?_perm hperm hnames]
    · rw [set_of_ne e, set_of_ne e]

/-! ## The operation -/

/-- What a rename that moves something does: the old name goes, the new one leads to the moved inode,
and whatever the new name led to before was of the same kind and is replaced. -/
structure Moved (fs fs' : Ramfs) (oldDir : Nat) (oldName : Name) (newDir : Nat) (newName : Name) (src : Nat) :
    Prop where
  was : fs.findChild oldDir oldName = some src
  replaced : ∀ dst, fs.findChild newDir newName = some dst → dst ≠ src ∧ fs.isDir dst = fs.isDir src ∧
    fs.childrenOf dst = []
  above : fs.movesBelow src newDir = some false
  inv : fs'.Inv .empty
  frame : Frame fs fs'
  view : fs'.findChild = setEntry (setEntry fs.findChild oldDir oldName none) newDir newName (some src)
  spares : ∀ x rx, x ≠ src → fs.findChild newDir newName ≠ some x → fs.inodes x = some rx →
    ∃ rx', fs'.inodes x = some rx' ∧ rx'.nlink = rx.nlink ∧ rx'.type = rx.type ∧ rx'.parent = rx.parent
  parents : ∀ dst y, fs.findChild newDir newName = some dst → fs'.parentOf dst = some y → fs.parentOf dst = some y

theorem Moved.below (h : Moved fs fs' oldDir oldName newDir newName src) (hs : fs.isDir src = true) :
    ¬ Reaches fs.parentOf newDir src :=
  not_reaches_of_movesBelow h.above hs

/-- The entry that is in the way is taken out. -/
theorem replaceTarget_cases (src : Nat) (h : fs.Inv .empty) (hdst : fs.findChild newDir newName = some dst) :
    (∃ e, fs.replaceTarget src newDir newName dst = (.error e, fs)) ∨
      ∃ fs', fs.replaceTarget src newDir newName dst = (.ok (), fs') ∧ fs.isDir dst = fs.isDir src ∧
        fs.childrenOf dst = [] ∧ Does fs fs' dst .empty (setEntry fs.findChild newDir newName none) ∧
        ∀ x y, fs'.parentOf x = some y → fs.parentOf x = some y := by
  obtain ⟨rd, he⟩ := h.exists_entry hdst
  unfold replaceTarget
  split_ifs with h1 h2 h3
  · exact Or.inl ⟨_, rfl⟩
  · exact Or.inl ⟨_, rfl⟩
  · exact Or.inl ⟨_, rfl⟩
  · right
    obtain ⟨hdir, -⟩ := dropChild_isDir h hdst
    simp only [removeChild_eq h hdst, hdir]
    cases hs : fs.isDir src with
    | true =>
      have hd : fs.isDir dst = true := by simpa [hs] using h1
      have hch : fs.childrenOf dst = [] := by simpa [hs] using h2
      obtain ⟨hdoes, hsub⟩ := takeOut_does (fun fs => fs.clearNlink dst) h hdst fun fs1 rc he hi hc => by
        apply clearNlink_does hi hc
        · simpa [isDir_of_live he.live] using hd
        · simpa [childrenOf_of_live he.live] using hch
      rw [hd]
      exact ⟨_, rfl, rfl, hch, hdoes, hsub⟩
    | false =>
      have hd : fs.isDir dst = false := by simpa [hs] using h3
      have hfile : rd.type ≠ .dir := by simpa [isDir_of_live he.live] using hd
      obtain ⟨hdoes, hsub⟩ := takeOut_does (fun fs => fs.dropNlink dst) h hdst fun fs1 rc he hi hc =>
        dropNlink_does hi hc (by simpa [isDir_of_live he.live] using hd)
      rw [hd]
      exact ⟨_, rfl, rfl, (childrenOf_of_live he.live).trans (h.childless he.live hfile), hdoes, hsub⟩

theorem moveEntry_does (h : fs.Inv .empty) (hsrc : fs.findChild oldDir oldName = some src)
    (hfree : fs.findChild newDir newName = none) (hd : fs.Linked newDir)
    (hbelow : fs.isDir src = true → ¬ Reaches fs.parentOf newDir src) :
    ∃ fs', fs.moveEntry oldDir oldName newDir newName = (.ok (), fs') ∧ Does fs fs' src .empty
      (setEntry (setEntry fs.findChild oldDir oldName none) newDir newName (some src)) := by
  unfold moveEntry
  split_ifs with hsame
  · subst hsame
    exact ⟨_, rfl, renameInPlace_does h hsrc hfree⟩
  · obtain ⟨rs, he⟩ := h.exists_entry hsrc
    obtain ⟨h1, hpar, hcells⟩ := dropChild_does h hsrc
    have hcell : (fs.dropChild oldDir oldName).inodes src = some rs := (hcells src he.ne.symm).trans he.live
    have hdir : rs.type = .dir → fs.isDir src = true := fun e => by simp [isDir_of_live he.live, e]
    have hne : newDir ≠ src := by
      rintro rfl
      obtain ⟨rd, hrd, htd, -⟩ := hd
      obtain rfl := Option.mem_unique hrd he.live
      exact hbelow (hdir htd) (Reaches.refl _)
    have hnone : (fs.dropChild oldDir oldName).findChild newDir newName = none := by
      rw [h1.view, setEntry_of_ne _ (fun e => hsame e.1.symm)]
      exact hfree
    obtain ⟨fs', heq, h2⟩ := addChild_does h1.inv hcell (h1.linked hne hd) hne hnone
      (by rw [hpar]; exact fun e => hbelow (hdir e))
    rw [removeChild_eq h hsrc]
    simp only [heq]
    have h12 := h1.trans h2
    rw [h1.view] at h12
    exact ⟨fs', rfl, h12⟩

/-- `ramfs_inode_rename` returns. It refuses and changes nothing, finds both names on one inode and
changes nothing, or moves the entry. -/
theorem inodeRename_spec (oldDir : Nat) (oldName newName : Name) (h : fs.Inv .empty)
    (hd : fs.isDir newDir = true → fs.Linked newDir) :
    ∃ res fs', fs.inodeRename oldDir oldName newDir newName = some (res, fs') ∧
      ((fs' = fs ∧ ((∃ e, res = .error e) ∨
          ∃ src, fs.findChild oldDir oldName = some src ∧ fs.findChild newDir newName = some src)) ∨
        res = .ok () ∧ ∃ src, Moved fs fs' oldDir oldName newDir newName src) := by
  unfold inodeRename
  split_ifs with h1 h2 h3
  · exact ⟨_, fs, rfl, Or.inl ⟨rfl, Or.inl ⟨_, rfl⟩⟩⟩
  · exact ⟨_, fs, rfl, Or.inl ⟨rfl, Or.inl ⟨_, rfl⟩⟩⟩
  · exact ⟨_, fs, rfl, Or.inl ⟨rfl, Or.inl ⟨_, rfl⟩⟩⟩
  have hlinked : fs.Linked newDir := hd (by by_contra e; exact h1 (Or.inr e))
  cases hsrc : fs.findChild oldDir oldName with
  | none => exact ⟨_, fs, rfl, Or.inl ⟨rfl, Or.inl ⟨_, rfl⟩⟩⟩
  | some src =>
    dsimp only
    split_ifs with h4
    · exact ⟨_, fs, rfl, Or.inl ⟨rfl, Or.inr ⟨src, rfl, h4⟩⟩⟩
    obtain ⟨b, hb⟩ := Option.isSome_iff_exists.1 (movesBelow_isSome h hlinked src)
    rw [hb]
    cases b with
    | true => exact ⟨_, fs, rfl, Or.inl ⟨rfl, Or.inl ⟨_, rfl⟩⟩⟩
    | false =>
      have hbelow : fs.isDir src = true → ¬ Reaches fs.parentOf newDir src := not_reaches_of_movesBelow hb
      cases hdst : fs.findChild newDir newName with
      | none =>
        obtain ⟨fs', heq, hdoes⟩ := moveEntry_does h hsrc hdst hlinked hbelow
        refine ⟨.ok (), fs', by rw [← heq], Or.inr ⟨rfl, src, hsrc, ?_, hb, hdoes.inv, hdoes.frame, hdoes.view, ?_, ?_⟩⟩
        · intro dst hdst'
          rw [hdst] at hdst'
          cases hdst'
        · intro x rx hx _ hlive
          exact hdoes.spares x rx hx hlive
        · intro dst y hdst'
          rw [hdst] at hdst'
          cases hdst'
      | some dst =>
        have hds : dst ≠ src := by
          rintro rfl
          exact h4 hdst
        rcases replaceTarget_cases src h hdst with ⟨e, he⟩ | ⟨fs1, he, hkind, hch, h5, hsub⟩
        · dsimp only
          rw [he]
          exact ⟨_, fs, rfl, Or.inl ⟨rfl, Or.inl ⟨_, rfl⟩⟩⟩
        · dsimp only
          rw [he]
          -- the moved entry and the new directory are still there, and the way up is no longer than before
          have hplace : ¬ (oldDir = newDir ∧ oldName = newName) := by
            rintro ⟨rfl, rfl⟩
            exact h4 hsrc
          have hsrc1 : fs1.findChild oldDir oldName = some src := by
            rw [h5.view, setEntry_of_ne _ hplace]
            exact hsrc
          have hnd : newDir ≠ dst := by
            obtain ⟨rd, hent⟩ := h.exists_entry hdst
            exact hent.ne
          have hlinked1 : fs1.Linked newDir := h5.linked hnd hlinked
          have hbelow1 : fs1.isDir src = true → ¬ Reaches fs1.parentOf newDir src := by
            intro hs hr
            obtain ⟨rs, hlive, ht⟩ := exists_of_isDir hs
            obtain ⟨rs0, hent⟩ := h.exists_entry hsrc
            obtain ⟨rs1, hlive1, ht1⟩ := h5.frame.types src rs hlive (h.lt hent.live)
            exact hbelow (by simp [isDir_of_live hlive1, ← ht1, ht]) (hr.mono hsub)
          obtain ⟨fs', heq, h6⟩ := moveEntry_does h5.inv hsrc1 (by rw [h5.view, setEntry_self]) hlinked1 hbelow1
          refine ⟨.ok (), fs', by rw [← heq],
            Or.inr ⟨rfl, src, hsrc, ?_, hb, h6.inv, h5.frame.trans h6.frame, ?_, ?_, ?_⟩⟩
          · intro dst' hdst'
            obtain rfl := Option.mem_unique hdst hdst'
            exact ⟨hds, hkind, hch⟩
          · rw [h6.view, h5.view]
            funext x m
            unfold setEntry
            split_ifs <;> rfl
          · intro x rx hx hxd hlive
            obtain ⟨r1, hr1, hl1, ht1, hp1⟩ := h5.spares x rx (by rintro rfl; exact hxd hdst) hlive
            obtain ⟨r2, hr2, hl2, ht2, hp2⟩ := h6.spares x r1 hx hr1
            exact ⟨r2, hr2, hl2.trans hl1, ht2.trans ht1, hp2.trans hp1⟩
          · intro dst' y hdst' hp
            obtain rfl := Option.mem_unique hdst hdst'
            obtain ⟨r2, hr2, hpar⟩ := Option.bind_eq_some_iff.1 hp
            obtain ⟨rd, hent⟩ := h.exists_entry hdst
            obtain ⟨r1, hr1, -⟩ := h6.frame.types dst r2 hr2 (Nat.lt_of_lt_of_le (h.lt hent.live) h5.frame.grows)
            obtain ⟨r2', hr2', -, -, hsame⟩ := h6.spares dst r1 hds hr1
            obtain rfl := Option.mem_unique hr2 hr2'
            exact hsub dst y (by rw [parentOf_of_live hr1, ← hsame, hpar])

end Ramfs

end MiniOs.Fs
