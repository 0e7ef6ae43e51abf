/-
What a call may do to the directories of ramfs, whatever it does to their entries: directories that are
not removed stay so, but for the one the call takes away, and a removed directory that is still held
keeps its parent pointer. Taking a reference before an operation and dropping it afterwards makes no
difference.
-/
import MiniOs.Proofs.Fs.RamfsLookup

namespace MiniOs.Fs

namespace Ramfs

variable {fs fs' fs'' : Ramfs} {gone : Nat → Prop} {c d i : Nat} {n : Name} {rc rd r : RamfsInode}

/-- The directories in `gone` are those that may go. -/
structure Evolves (fs fs' : Ramfs) (gone : Nat → Prop) : Prop where
  inv : fs'.Inv .empty
  types : ∀ c r', fs'.inodes c = some r' → c < fs.nextIno → ∃ r, fs.inodes c = some r ∧ r'.type = r.type
  grows : fs.nextIno ≤ fs'.nextIno
  memory : ∀ c, c < fs.nextIno → fs'.typeAt c = fs.typeAt c
  linked : ∀ d, fs.Linked d → ¬ gone d → fs'.Linked d
  removed : ∀ x rx p, fs'.inodes x = some rx → rx.nlink = 0 → rx.parent = some p →
    ∃ ro, fs.inodes x = some ro ∧ ro.type = rx.type ∧ ro.parent = some p

def nothing : Nat → Prop := fun _ => False

theorem Evolves.refl (h : fs.Inv .empty) : Evolves fs fs nothing :=
  ⟨h, fun _ r' hr _ => ⟨r', hr, rfl⟩, Nat.le_refl _, fun _ _ => rfl, fun _ hd _ => hd,
    fun _ rx _ hx _ hp => ⟨rx, hx, rfl, hp⟩⟩

theorem Evolves.mono {gone' : Nat → Prop} (h : Evolves fs fs' gone) (hg : ∀ d, gone d → gone' d) :
    Evolves fs fs' gone' :=
  { h with linked := fun d hd hn => h.linked d hd fun hc => hn (hg d hc) }

/-! ## Operations -/

/-- A directory that is not removed is the root, or an entry leads to it. -/
theorem Inv.entry_of_linked (h : fs.Inv .empty) (hd : fs.Linked d) (hr : d ≠ rootIno) :
    ∃ e n, fs.findChild e n = some d := by
  obtain ⟨rd, hlive, ht, hl⟩ := hd
  obtain ⟨p, rp, n, -, hp, hm⟩ := h.exists_parent hlive ht hl hr (by simp)
  exact ⟨p, n, h.findChild_iff.2 ⟨rp, hp, hm⟩⟩

theorem Frame.isDir (h0 : fs.Inv .empty) (hf : Frame fs fs') (hc : fs'.inodes c = some rc)
    (hlive : fs.inodes c = some r) : rc.type = r.type := by
  obtain ⟨r', hr', ht⟩ := hf.types c rc hc (h0.lt hlive)
  obtain rfl := Option.mem_unique hlive hr'
  exact ht

/-- The entries that lead to directories decide. -/
theorem evolves_of_view (h0 : fs.Inv .empty) (h1 : fs'.Inv .empty) (hframe : Frame fs fs')
    (hview : ∀ e m d, fs.findChild e m = some d → fs.isDir d = true → ¬ gone d → ∃ e' m', fs'.findChild e' m' = some d)
    (hparent : ∀ x rx' p, fs'.inodes x = some rx' → rx'.nlink = 0 → rx'.parent = some p → (fs.inodes x).isSome →
      fs.parentOf x = some p) : Evolves fs fs' gone := by
  refine ⟨h1, hframe.types, hframe.grows, hframe.memory, ?_, ?_⟩
  · intro d hd hgone
    by_cases hroot : d = rootIno
    · rw [hroot]
      exact h1.linked_root
    obtain ⟨e, m, hf⟩ := h0.entry_of_linked hd hroot
    obtain ⟨e', m', hf'⟩ := hview e m d hf (isDir_of_linked hd) hgone
    obtain ⟨rd, hent⟩ := h1.exists_entry hf'
    obtain ⟨ro, hro, ht, -⟩ := hd
    exact ⟨rd, hent.live, (hframe.isDir h0 hent.live hro).trans ht, hent.named⟩
  · -- who is removed and still there is held, and was held before
    intro x rx p hx hz hp
    have hu : rx.iCount ≠ 0 := (h1.kept x rx hx hz).resolve_right (by simp)
    have husers := hframe.users x
    rw [users_of_live hx] at husers
    cases hro : fs.inodes x with
    | none => exact absurd (husers.trans (by simp [users, hro])) hu
    | some ro =>
      refine ⟨ro, rfl, (hframe.isDir h0 hx hro).symm, ?_⟩
      rw [← parentOf_of_live hro]
      exact hparent x rx p hx hz hp (by simp [hro])

/-- An operation that gives a name to the inode it has to do with, where there was none. -/
theorem Does.evolves (h0 : fs.Inv .empty) (h : Does fs fs' c .empty (setEntry fs.findChild d n (some c)))
    (hfree : fs.findChild d n = none) : Evolves fs fs' nothing := by
  refine evolves_of_view h0 h.inv h.frame ?_ ?_
  · intro e m x hf _ _
    refine ⟨e, m, ?_⟩
    rw [h.view, setEntry_of_ne]
    · exact hf
    · rintro ⟨rfl, rfl⟩
      rw [hfree] at hf
      cases hf
  · intro x rx p hx hz hp hlive
    obtain ⟨ro, hro⟩ := Option.isSome_iff_exists.1 hlive
    have hne : x ≠ c := by
      rintro rfl
      obtain ⟨rc, hent⟩ := h.inv.exists_entry (show fs'.findChild d n = some x by rw [h.view, setEntry_self])
      obtain rfl := Option.mem_unique hx hent.live
      exact hent.named hz
    obtain ⟨r', hr', -, -, hpar⟩ := h.spares x ro hne hro
    obtain rfl := Option.mem_unique hx hr'
    rw [parentOf_of_live hro, ← hpar, hp]

/-- A removing operation that refuses may have put an entry back. -/
theorem evolves_of_refused (h0 : fs.Inv .empty) (hc : fs' = fs ∨ fs.findChild d n = some c)
    (hdoes : Does fs fs' c .empty fs.findChild) : Evolves fs fs' nothing := by
  refine evolves_of_view h0 hdoes.inv hdoes.frame ?_ ?_
  · intro e m x hf _ _
    exact ⟨e, m, by rw [hdoes.view]; exact hf⟩
  · intro x rx p hx hz hp hlive
    rcases hc with rfl | hc
    · rw [parentOf_of_live hx]
      exact hp
    · obtain ⟨ro, hro⟩ := Option.isSome_iff_exists.1 hlive
      have hne : x ≠ c := by
        rintro rfl
        obtain ⟨rc, hent⟩ := hdoes.inv.exists_entry (show fs'.findChild d n = some x by rw [hdoes.view]; exact hc)
        obtain rfl := Option.mem_unique hx hent.live
        exact hent.named hz
      obtain ⟨r', hr', -, -, hpar⟩ := hdoes.spares x ro hne hro
      obtain rfl := Option.mem_unique hx hr'
      rw [parentOf_of_live hro, ← hpar, hp]

/-- The name leads to an empty directory. -/
def Sheds (fs : Ramfs) (d : Nat) (n : Name) (e : Nat) : Prop :=
  fs.findChild d n = some e ∧ fs.isDir e = true ∧ fs.childrenOf e = []

theorem findChild_of_empty (h : fs.childrenOf c = []) (m : Name) : fs.findChild c m = none := by
  simp [findChild, h]

/-- What a name is taken away from has no entries. -/
theorem childless_of_removed (h0 : fs.Inv .empty) (h1 : fs'.Inv .empty) (hf : fs.findChild d n = some c)
    (hview : fs'.findChild = setEntry fs.findChild d n none) : fs.childrenOf c = [] := by
  obtain ⟨rc, hent⟩ := h0.exists_entry hf
  rw [childrenOf_of_live hent.live]
  by_contra hne
  obtain ⟨⟨m, x⟩, rest, he⟩ := List.exists_cons_of_ne_nil hne
  have hm : fs.findChild c m = some x := h0.findChild_iff.2 ⟨rc, hent.live, by rw [he]; simp⟩
  -- the entry would stay, and `c` with it, but then some other entry leads to `c`
  have hm' : fs'.findChild c m = some x := by
    rw [hview, setEntry_of_ne]
    · exact hm
    · rintro ⟨rfl, -⟩
      exact hent.ne rfl
  obtain ⟨rx, hx⟩ := h1.exists_entry hm'
  obtain ⟨e, m', hm2⟩ := h1.entry_of_linked hx.linked hent.ne_root
  rw [hview] at hm2
  by_cases hsame : e = d ∧ m' = n
  · obtain ⟨rfl, rfl⟩ := hsame
    rw [setEntry_self] at hm2
    cases hm2
  · rw [setEntry_of_ne _ hsame] at hm2
    have hdir : fs.isDir c = true := by
      rw [isDir_of_live hent.live]
      simpa using (h0.holder c rc hent.live hne).1
    exact absurd (h0.entry_unique hm2 hf hdir) hsame

/-- A removing operation takes away at most the directory whose name it takes. -/
theorem Removes.evolves {dir : Bool} (h0 : fs.Inv .empty) (h : Removes fs d n dir (.ok none, fs')) :
    Evolves fs fs' fun e => dir = true ∧ fs.Sheds d n e := by
  rcases h with ⟨e, fs1, c, he, -⟩ | ⟨c, fs1, he, hf, hkind, hdoes, hpar⟩
  · cases he
  cases he
  refine evolves_of_view h0 hdoes.inv hdoes.frame ?_ ?_
  · intro e m x hx hdir hgone
    refine ⟨e, m, ?_⟩
    rw [hdoes.view, setEntry_of_ne]
    · exact hx
    · rintro ⟨rfl, rfl⟩
      obtain rfl := Option.mem_unique hx hf
      exact hgone ⟨hkind ▸ hdir, hf, hdir, childless_of_removed h0 hdoes.inv hf hdoes.view⟩
  · intro x rx p hx _ hp _
    exact hpar x p ((parentOf_of_live hx).trans hp)

theorem Moved.isDir {oldDir newDir src : Nat} {oldName newName : Name} (h : fs.Inv .empty)
    (hm : Moved fs fs' oldDir oldName newDir newName src)
    (hr : fs.inodes newDir = some r) : fs.isDir newDir = true := by
  have hf : fs'.findChild newDir newName = some src := by rw [hm.view, setEntry_self]
  obtain ⟨rs, hent⟩ := hm.inv.exists_entry hf
  obtain ⟨r', hr', ht, -⟩ := hent.linked
  rw [isDir_of_live hr, ← hm.frame.isDir h hr' hr, ht]
  rfl

/-- A rename takes away at most the directory it replaces. -/
theorem Moved.evolves {oldDir newDir src : Nat} {oldName newName : Name} (h0 : fs.Inv .empty)
    (h : Moved fs fs' oldDir oldName newDir newName src) :
    Evolves fs fs' (fs.Sheds newDir newName) := by
  refine evolves_of_view h0 h.inv h.frame ?_ ?_
  · intro e m x hf hdir hgone
    by_cases hnew : e = newDir ∧ m = newName
    · obtain ⟨rfl, rfl⟩ := hnew
      exact absurd ⟨hf, hdir, (h.replaced x hf).2.2⟩ hgone
    by_cases hold : e = oldDir ∧ m = oldName
    · obtain ⟨rfl, rfl⟩ := hold
      obtain rfl := Option.mem_unique hf h.was
      exact ⟨newDir, newName, by rw [h.view, setEntry_self]⟩
    · exact ⟨e, m, by rw [h.view, setEntry_of_ne _ hnew, setEntry_of_ne _ hold]; exact hf⟩
  · intro x rx p hx hz hp hlive
    obtain ⟨ro, hro⟩ := Option.isSome_iff_exists.1 hlive
    have hne : x ≠ src := by
      rintro rfl
      obtain ⟨rc, hent⟩ := h.inv.exists_entry (show fs'.findChild newDir newName = some x by rw [h.view, setEntry_self])
      obtain rfl := Option.mem_unique hx hent.live
      exact hent.named hz
    by_cases hdst : fs.findChild newDir newName = some x
    · exact h.parents x p hdst ((parentOf_of_live hx).trans hp)
    · obtain ⟨r', hr', -, -, hpar⟩ := h.spares x ro hne hdst hro
      obtain rfl := Option.mem_unique hx hr'
      rw [parentOf_of_live hro, ← hpar, hp]

/-! ## References -/

/-- Nothing but references and contents has changed, but for inodes that were removed before. -/
structure Quiet (fs fs' : Ramfs) : Prop where
  inv : fs'.Inv .empty
  next : fs'.nextIno = fs.nextIno
  view : fs'.findChild = fs.findChild
  back : ∀ x r', fs'.inodes x = some r' → ∃ r, fs.inodes x = some r ∧ r'.nlink = r.nlink ∧ r'.type = r.type ∧
    r'.parent = r.parent
  memory : ∀ c, fs'.typeAt c = fs.typeAt c
  linked : ∀ d, fs.Linked d → fs'.Linked d

theorem Quiet.refl (h : fs.Inv .empty) : Quiet fs fs :=
  ⟨h, rfl, rfl, fun _ r' hr => ⟨r', hr, rfl, rfl, rfl⟩, fun _ => rfl, fun _ hd => hd⟩

theorem Quiet.evolves (h : Quiet fs fs') : Evolves fs fs' nothing := by
  refine ⟨h.inv, ?_, h.next.ge, fun c _ => h.memory c, fun d hd _ => h.linked d hd, ?_⟩
  · intro c r' hr _
    obtain ⟨r, hr, -, ht, -⟩ := h.back c r' hr
    exact ⟨r, hr, ht⟩
  · intro x rx p hx _ hp
    obtain ⟨r, hr, -, ht, hpar⟩ := h.back x rx hx
    exact ⟨r, hr, ht.symm, hpar.symm.trans hp⟩

theorem Evolves.trans_quiet (h1 : Evolves fs fs' gone) (h2 : Quiet fs' fs'') : Evolves fs fs'' gone := by
  refine ⟨h2.inv, ?_, h1.grows.trans h2.next.ge, fun c hlt => (h2.memory c).trans (h1.memory c hlt),
    fun d hd hg => h2.linked d (h1.linked d hd hg), ?_⟩
  · intro c r' hr hlt
    obtain ⟨r, hr, -, ht, -⟩ := h2.back c r' hr
    obtain ⟨ro, hro, hto⟩ := h1.types c r hr hlt
    exact ⟨ro, hro, ht.trans hto⟩
  · intro x rx p hx hz hp
    obtain ⟨r, hr, hl, ht, hpar⟩ := h2.back x rx hx
    obtain ⟨ro, hro, hto, hpo⟩ := h1.removed x r p hr (hl.symm.trans hz) (hpar.symm.trans hp)
    exact ⟨ro, hro, hto.trans ht.symm, hpo⟩

theorem Quiet.trans_evolves (h1 : Quiet fs fs') (h2 : Evolves fs' fs'' gone) : Evolves fs fs'' gone := by
  refine ⟨h2.inv, ?_, h1.next.ge.trans h2.grows, fun c hlt => (h2.memory c (h1.next ▸ hlt)).trans (h1.memory c),
    fun d hd hg => h2.linked d (h1.linked d hd) hg, ?_⟩
  · intro c r' hr hlt
    obtain ⟨r, hr, ht⟩ := h2.types c r' hr (by rw [h1.next]; exact hlt)
    obtain ⟨ro, hro, -, hto, -⟩ := h1.back c r hr
    exact ⟨ro, hro, ht.trans hto⟩
  · intro x rx p hx hz hp
    obtain ⟨r, hr, ht, hpar⟩ := h2.removed x rx p hx hz hp
    obtain ⟨ro, hro, -, hto, hpo⟩ := h1.back x r hr
    exact ⟨ro, hro, hto.symm.trans ht, hpo.symm.trans hpar⟩

theorem Quiet.set (h : fs.Inv .empty) (hc : fs.inodes c = some rc) (ht : r.type = rc.type) (hl : r.nlink = rc.nlink)
    (hp : r.parent = rc.parent) (hch : r.children = rc.children) (hk : r.nlink = 0 → r.iCount ≠ 0) :
    Quiet fs (fs.set c r) := by
  refine ⟨?_, rfl, findChild_set_same hc ht hch, ?_, typeAt_set hc ht, ?_⟩
  · apply h.set_plain hc ht hl hp hch
    · exact fun _ => Iff.rfl
    · rintro x ⟨⟩
    · exact fun hz => Or.inl (hk hz)
  · intro x r' hx
    rcases set_cases hx with ⟨rfl, rfl⟩ | ⟨-, hx⟩
    · exact ⟨rc, hc, hl, ht, hp⟩
    · exact ⟨r', hx, rfl, rfl, rfl⟩
  · rintro d ⟨rd, hd, htd, hld⟩
    by_cases e : d = c
    · subst e
      obtain rfl := Option.mem_unique hc hd
      exact ⟨r, set_self .., ht.trans htd, by rw [hl]; exact hld⟩
    · exact ⟨rd, by rw [set_of_ne e, hd], htd, hld⟩

theorem iget_quiet (h : fs.Inv .empty) (i : Nat) :
    Quiet fs (fs.iget i) ∧ ∀ c, (fs.iget i).users c = fs.users c + if c = i ∧ (fs.inodes i).isSome then 1 else 0 := by
  cases hi : fs.inodes i with
  | none =>
    have hsame : fs.iget i = fs := by simp [iget, modify, hi]
    rw [hsame]
    exact ⟨Quiet.refl h, by simp⟩
  | some ri =>
    have hset : fs.iget i = fs.set i { ri with iCount := ri.iCount + 1 } := modify_of_live hi _
    refine ⟨hset ▸ Quiet.set h hi rfl rfl rfl rfl fun _ => Nat.succ_ne_zero _, ?_⟩
    intro c
    rw [(iget_spec h hi).2.2.2 c]
    by_cases e : c = i
    · simp [e]
    · simp [e]

theorem iput_quiet (h : fs.Inv .empty) (i : Nat) :
    Quiet fs (fs.iput i) ∧ ∀ c, (fs.iput i).users c = fs.users c - if c = i then 1 else 0 := by
  -- an inode that nobody holds is left alone
  have hidle : fs.users i = 0 → Quiet fs (fs.iput i) ∧
      ∀ c, (fs.iput i).users c = fs.users c - if c = i then 1 else 0 := by
    intro hu
    have hsame : fs.iput i = fs := by
      unfold iput
      split
      · rfl
      · next ri hi => rw [if_pos (by rwa [users_of_live hi] at hu)]
    rw [hsame]
    refine ⟨Quiet.refl h, fun c => ?_⟩
    by_cases e : c = i
    · simp [e, hu]
    · simp [e]
  cases hi : fs.inodes i with
  | none => exact hidle (by simp [users, hi])
  | some ri =>
    by_cases hz : ri.iCount = 0
    · exact hidle ((users_of_live hi).trans hz)
    obtain ⟨hinv, hview, hnext, husers⟩ := iput_spec h hi hz
    have hset : fs.iput i = (fs.set i { ri with iCount := ri.iCount - 1 }).inodeMaybeEvict i := by
      simp only [iput, hi, if_neg hz]
    have hidl : (fs.set i { ri with iCount := ri.iCount - 1 }).Inv (.idle i) := by
      apply h.set_plain (r := { ri with iCount := ri.iCount - 1 }) hi rfl rfl rfl rfl
      · intro x
        simp
      · rintro x ⟨⟩
      · exact fun _ => Or.inr rfl
    have hcells : ∀ x r', (fs.iput i).inodes x = some r' → ∃ r, fs.inodes x = some r ∧ r'.nlink = r.nlink ∧
        r'.type = r.type ∧ r'.parent = r.parent := by
      intro x r' hx
      have hx' : (fs.set i { ri with iCount := ri.iCount - 1 }).inodes x = some r' := by
        rcases inodeMaybeEvict_cases hidl with ⟨he, -⟩ | ⟨rc, -, -, -, -, he⟩
        · rwa [hset, he] at hx
        · rw [hset, he] at hx
          exact (kfree_cases hx).2
      rcases set_cases hx' with ⟨rfl, rfl⟩ | ⟨-, hx'⟩
      · exact ⟨ri, hi, rfl, rfl, rfl⟩
      · exact ⟨r', hx', rfl, rfl, rfl⟩
    refine ⟨⟨hinv, hnext, hview, hcells, ?_, ?_⟩, ?_⟩
    · intro c
      have hsame : (fs.set i { ri with iCount := ri.iCount - 1 }).typeAt c = fs.typeAt c :=
        typeAt_set (r := { ri with iCount := ri.iCount - 1 }) hi rfl c
      rcases inodeMaybeEvict_cases hidl with ⟨he, -⟩ | ⟨rc, hc, -, -, -, he⟩
      · rw [hset, he, hsame]
      · rw [hset, he, typeAt_kfree hc, hsame]
    · rintro d ⟨rd, hd, htd, hld⟩
      have hlive : ∃ r', (fs.iput i).inodes d = some r' := by
        rcases inodeMaybeEvict_cases hidl with ⟨he, -⟩ | ⟨rc, hc, -, hzero, -, he⟩
        · rw [hset, he]
          by_cases e : d = i
          · subst e
            exact ⟨_, set_self ..⟩
          · exact ⟨rd, by rw [set_of_ne e, hd]⟩
        · rw [hset, he]
          have hne : d ≠ i := by
            rintro rfl
            rw [set_self] at hc
            cases hc
            obtain rfl := Option.mem_unique hi hd
            exact hld hzero
          exact ⟨rd, by rw [kfree_of_ne hne, set_of_ne hne, hd]⟩
      obtain ⟨r', hr'⟩ := hlive
      obtain ⟨r, hr, hl, ht, -⟩ := hcells d r' hr'
      obtain rfl := Option.mem_unique hd hr
      exact ⟨r', hr', ht.trans htd, by rw [hl]; exact hld⟩
    · intro c
      rw [husers c]
      by_cases e : c = i
      · simp [e]
      · simp [e]

/-- A reference is taken, something is done that drops none, and the reference is dropped. -/
theorem Evolves.paired (h0 : fs.Inv .empty) (h : Evolves (fs.iget i) fs' gone)
    (hu : ∀ c, (fs.iget i).users c ≤ fs'.users c) :
    Evolves fs (fs'.iput i) gone ∧ ∀ c, fs.users c ≤ (fs'.iput i).users c := by
  obtain ⟨hq1, hu1⟩ := iget_quiet h0 i
  obtain ⟨hq2, hu2⟩ := iput_quiet h.inv i
  refine ⟨(hq1.trans_evolves h).trans_quiet hq2, fun c => ?_⟩
  have hc := hu c
  rw [hu1] at hc
  rw [hu2]
  by_cases e : c = i
  · subst e
    cases hcell : fs.inodes c with
    | none => simp [users, hcell]
    | some rc =>
      simp only [hcell, Option.isSome_some, and_self, if_true] at hc ⊢
      omega
  · simp only [e, false_and, if_false] at hc ⊢
    omega

end Ramfs

end MiniOs.Fs
