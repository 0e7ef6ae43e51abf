/-
What the inode operations of ramfs do: each keeps the tree and link invariant, takes no reference
from any user, and changes the directory entries as its name says. The entries are seen as a function
from a directory and a name to an inode number; `setEntry` changes it at one place.
-/
import MiniOs.Proofs.Fs.Ramfs

namespace MiniOs.Fs

open Library

/-- The view with one entry changed. -/
def setEntry (view : Nat → Name → Option Nat) (d : Nat) (n : Name) (v : Option Nat) : Nat → Name → Option Nat :=
  fun x m => if x = d ∧ m = n then v else view x m

@[simp] theorem setEntry_self (view : Nat → Name → Option Nat) (d : Nat) (n : Name) (v : Option Nat) :
    setEntry view d n v d n = v := by simp [setEntry]

theorem setEntry_of_ne {view : Nat → Name → Option Nat} {d x : Nat} {n m : Name} (v : Option Nat)
    (h : ¬ (x = d ∧ m = n)) : setEntry view d n v x m = view x m := by simp only [setEntry, if_neg h]

@[simp] theorem setEntry_setEntry (view : Nat → Name → Option Nat) (d : Nat) (n : Name) (u v : Option Nat) :
    setEntry (setEntry view d n u) d n v = setEntry view d n v := by
  funext x m
  unfold setEntry
  split <;> rfl

theorem setEntry_eq_self {view : Nat → Name → Option Nat} {d : Nat} {n : Name} {v : Option Nat} (h : view d n = v) :
    setEntry view d n v = view := by
  funext x m
  unfold setEntry
  split
  · next e => rw [e.1, e.2, h]
  · rfl

namespace Ramfs

variable {fs fs' fs'' : Ramfs} {hand : Hand} {i c d : Nat} {n : Name} {ri rc rd r : RamfsInode}

/-! ## The frame of an operation -/

/-- The references users hold on an inode. -/
def users (fs : Ramfs) (c : Nat) : Nat :=
  match fs.inodes c with
  | none => 0
  | some ri => ri.iCount

theorem users_of_live (h : fs.inodes c = some rc) : fs.users c = rc.iCount := by simp only [users, h]

/-- The type in the memory of an inode. -/
def typeAt (fs : Ramfs) (c : Nat) : Option FileType := (fs.memory c).map RamfsInode.type

theorem typeAt_of_live (h : fs.inodes c = some rc) : fs.typeAt c = some rc.type := by simp [typeAt, memory, h]

theorem typeAt_congr (hi : fs'.inodes c = fs.inodes c) (hf : fs'.freed = fs.freed) : fs'.typeAt c = fs.typeAt c := by
  simp only [typeAt, memory, hi, hf]

/-- Users keep their references, inodes keep their types, also in memory that is freed, and no number is
used again. -/
structure Frame (fs fs' : Ramfs) : Prop where
  users : ∀ c, fs'.users c = fs.users c
  types : ∀ c r', fs'.inodes c = some r' → c < fs.nextIno → ∃ r, fs.inodes c = some r ∧ r'.type = r.type
  grows : fs.nextIno ≤ fs'.nextIno
  memory : ∀ c, c < fs.nextIno → fs'.typeAt c = fs.typeAt c

theorem Frame.refl (fs : Ramfs) : Frame fs fs :=
  ⟨fun _ => rfl, fun _ r' h _ => ⟨r', h, rfl⟩, Nat.le_refl _, fun _ _ => rfl⟩

theorem Frame.trans (h1 : Frame fs fs') (h2 : Frame fs' fs'') : Frame fs fs'' := by
  refine ⟨fun c => (h2.users c).trans (h1.users c), ?_, Nat.le_trans h1.grows h2.grows, ?_⟩
  · intro c r' hc hlt
    obtain ⟨r1, hr1, ht1⟩ := h2.types c r' hc (Nat.lt_of_lt_of_le hlt h1.grows)
    obtain ⟨r0, hr0, ht0⟩ := h1.types c r1 hr1 hlt
    exact ⟨r0, hr0, ht1.trans ht0⟩
  · intro c hlt
    exact (h2.memory c (Nat.lt_of_lt_of_le hlt h1.grows)).trans (h1.memory c hlt)

theorem typeAt_set (hi : fs.inodes i = some ri) (ht : r.type = ri.type) (c : Nat) :
    (fs.set i r).typeAt c = fs.typeAt c := by
  by_cases e : c = i
  · subst e
    rw [typeAt_of_live (set_self ..), typeAt_of_live hi, ht]
  · exact typeAt_congr (set_of_ne e) rfl

theorem Frame.set (hi : fs.inodes i = some ri) (ht : r.type = ri.type) (hu : r.iCount = ri.iCount) :
    Frame fs (fs.set i r) := by
  refine ⟨?_, ?_, Nat.le_refl _, fun c _ => typeAt_set hi ht c⟩
  · intro c
    by_cases e : c = i
    · subst e
      rw [users_of_live (set_self ..), users_of_live hi, hu]
    · simp only [Ramfs.users, set_of_ne e]
  · intro c r' hc _
    rcases set_cases hc with ⟨rfl, rfl⟩ | ⟨-, hc⟩
    · exact ⟨ri, hi, ht⟩
    · exact ⟨r', hc, rfl⟩

theorem typeAt_kfree (hc : fs.inodes c = some rc) (x : Nat) : (fs.kfree c).typeAt x = fs.typeAt x := by
  by_cases e : x = c
  · subst e
    rw [typeAt_of_live hc]
    simp [typeAt, Ramfs.memory, Ramfs.kfree, hc]
  · have hne : decide (c = x) = false := by simpa using Ne.symm e
    simp only [typeAt, Ramfs.memory, kfree_of_ne e]
    simp [Ramfs.kfree, hne]

theorem Frame.kfree (hc : fs.inodes c = some rc) (hu : rc.iCount = 0) : Frame fs (fs.kfree c) := by
  refine ⟨?_, ?_, Nat.le_refl _, fun x _ => typeAt_kfree hc x⟩
  · intro x
    by_cases e : x = c
    · subst e
      rw [users_of_live hc, hu]
      simp only [Ramfs.users, kfree_self]
    · simp only [Ramfs.users, kfree_of_ne e]
  · intro x r' hx _
    exact ⟨r', (kfree_cases hx).2, rfl⟩

theorem Frame.alloc (hnone : fs.inodes fs.nextIno = none) (hu : r.iCount = 0) :
    Frame fs { fs.set fs.nextIno r with nextIno := fs.nextIno + 1 } := by
  refine ⟨?_, ?_, Nat.le_succ _, fun x hlt => typeAt_congr (set_of_ne hlt.ne) rfl⟩
  · intro x
    by_cases e : x = fs.nextIno
    · subst e
      have hnow : (fs.set fs.nextIno r).users fs.nextIno = 0 := by rw [users_of_live (set_self ..), hu]
      refine Eq.trans hnow ?_
      simp only [Ramfs.users, hnone]
    · have hsame : (fs.set fs.nextIno r).inodes x = fs.inodes x := set_of_ne e
      simp only [Ramfs.users, hsame]
  · intro x r' hx hlt
    exact ⟨r', (set_of_ne hlt.ne).symm.trans hx, rfl⟩

/-! ## The entries -/

/-- The entry of a name in a heap cell. -/
def cellEntry (o : Option RamfsInode) (n : Name) : Option Nat :=
  match o with
  | none => none
  | some ri => if ri.type = .dir then (ri.children.find? fun e => e.1 = n).map Prod.snd else none

theorem findChild_eq (fs : Ramfs) (d : Nat) (n : Name) : fs.findChild d n = cellEntry (fs.inodes d) n := by
  unfold findChild cellEntry isDir hasType childrenOf
  cases fs.inodes d <;> simp

theorem findChild_of_live (h : fs.inodes d = some rd) (ht : rd.type = .dir) :
    fs.findChild d n = (rd.children.find? fun e => e.1 = n).map Prod.snd := by
  rw [findChild_eq, h, cellEntry, if_pos ht]

/-- A store that leaves type and children alone leaves the entries alone. -/
theorem findChild_set_same (hi : fs.inodes i = some ri) (ht : r.type = ri.type) (hc : r.children = ri.children) :
    (fs.set i r).findChild = fs.findChild := by
  funext d n
  rw [findChild_eq, findChild_eq]
  by_cases e : d = i
  · subst e
    rw [set_self, hi]
    simp only [cellEntry, ht, hc]
  · rw [set_of_ne e]

theorem findChild_kfree (hc : fs.inodes c = some rc) (he : rc.children = []) :
    (fs.kfree c).findChild = fs.findChild := by
  funext d n
  rw [findChild_eq, findChild_eq]
  by_cases e : d = c
  · subst e
    rw [kfree_self, hc]
    simp [cellEntry, he]
  · rw [kfree_of_ne e]

theorem findChild_alloc (hnone : fs.inodes fs.nextIno = none) (hr : r.children = []) :
    findChild { fs.set fs.nextIno r with nextIno := fs.nextIno + 1 } = fs.findChild := by
  funext d n
  rw [findChild_eq, findChild_eq]
  by_cases e : d = fs.nextIno
  · subst e
    have hcell : (fs.set fs.nextIno r).inodes fs.nextIno = some r := set_self ..
    rw [hnone]
    simp [cellEntry, hr]
  · have hcell : (fs.set fs.nextIno r).inodes d = fs.inodes d := set_of_ne e
    simp only [hcell]

theorem findChild_push (hd : fs.inodes d = some rd) (ht : rd.type = .dir)
    (hr : r = { rd with children := (n, c) :: rd.children }) :
    (fs.set d r).findChild = setEntry fs.findChild d n (some c) := by
  have htype : r.type = .dir := by rw [hr]; exact ht
  funext x m
  by_cases e : x = d
  · subst e
    rw [findChild_of_live (set_self ..) htype, hr]
    by_cases em : m = n
    · simp [em]
    · rw [setEntry_of_ne _ (by simp [em]), findChild_of_live hd ht]
      simp [Ne.symm em]
  · rw [setEntry_of_ne _ (by simp [e]), findChild_eq, findChild_eq, set_of_ne e]

variable {l : List (Name × Nat)}

/-- Under distinct names, dropping the first entry with a name drops the name. -/
theorem find?_eraseP (hnd : (l.map Prod.fst).Nodup) (n m : Name) :
    ((l.eraseP fun e => e.1 = n).find? fun e => e.1 = m) = if m = n then none else l.find? fun e => e.1 = m := by
  induction l with
  | nil => simp
  | cons e es ih =>
    obtain ⟨hne, hes⟩ := List.nodup_cons.1 (show (e.1 :: es.map Prod.fst).Nodup from hnd)
    by_cases he : e.1 = n
    · simp only [List.eraseP_cons, he, decide_true, cond_true]
      split
      · next hm =>
        subst hm
        refine List.find?_eq_none.2 fun x hx => ?_
        intro hxm
        exact hne (by rw [he, ← of_decide_eq_true hxm]; exact List.mem_map_of_mem hx)
      · next hm => rw [List.find?_cons_of_neg (by simp [he, Ne.symm hm])]
    · simp only [List.eraseP_cons, he, decide_false, cond_false]
      by_cases hm : e.1 = m
      · rw [List.find?_cons_of_pos (by simp [hm]), List.find?_cons_of_pos (by simp [hm]), if_neg]
        rintro rfl
        exact he hm
      · rw [List.find?_cons_of_neg (by simp [hm]), List.find?_cons_of_neg (by simp [hm])]
        exact ih hes

theorem findChild_pull (hnd : (rd.children.map Prod.fst).Nodup) (hd : fs.inodes d = some rd) (ht : rd.type = .dir)
    (hr : r = { rd with children := rd.children.eraseP fun e => e.1 = n }) :
    (fs.set d r).findChild = setEntry fs.findChild d n none := by
  have htype : r.type = .dir := by rw [hr]; exact ht
  funext x m
  by_cases e : x = d
  · subst e
    rw [findChild_of_live (set_self ..) htype, hr, find?_eraseP hnd]
    by_cases em : m = n
    · simp [em]
    · rw [setEntry_of_ne _ (by simp [em]), findChild_of_live hd ht, if_neg em]
  · rw [setEntry_of_ne _ (by simp [e]), findChild_eq, findChild_eq, set_of_ne e]

theorem Inv.findChild_iff (h : fs.Inv hand) : fs.findChild d n = some c ↔ ∃ rd, fs.inodes d = some rd ∧
    (n, c) ∈ rd.children := by
  rw [findChild_eq]
  constructor
  · intro hf
    cases hd : fs.inodes d with
    | none => simp [hd, cellEntry] at hf
    | some rd =>
      simp only [hd, cellEntry] at hf
      split at hf
      · obtain ⟨⟨m, x⟩, hfind, rfl⟩ := Option.map_eq_some_iff.1 hf
        obtain rfl : m = n := by simpa using List.find?_some hfind
        exact ⟨rd, rfl, List.mem_of_find?_eq_some hfind⟩
      · cases hf
  · rintro ⟨rd, hd, hm⟩
    simp only [hd, cellEntry, if_pos (h.holder d rd hd (List.ne_nil_of_mem hm)).1, Option.map_eq_some_iff]
    have hsome : (rd.children.find? fun e => e.1 = n).isSome := by
      rw [List.find?_isSome]
      exact ⟨(n, c), hm, by simp⟩
    obtain ⟨⟨m, x⟩, hfind⟩ := Option.isSome_iff_exists.1 hsome
    obtain rfl : m = n := by simpa using List.find?_some hfind
    have hinj := List.inj_on_of_nodup_map (h.distinct d rd hd) (List.mem_of_find?_eq_some hfind) hm rfl
    exact ⟨(m, x), hfind, congrArg Prod.snd hinj⟩

/-! ## One name at a time -/

/-- What a part of an operation that has to do with the inode `c` leaves behind. -/
structure Does (fs fs' : Ramfs) (c : Nat) (hand : Hand) (view : Nat → Name → Option Nat) : Prop where
  inv : fs'.Inv hand
  frame : Frame fs fs'
  view : fs'.findChild = view
  spares : ∀ x rx, x ≠ c → fs.inodes x = some rx → ∃ rx', fs'.inodes x = some rx' ∧ rx'.nlink = rx.nlink ∧
    rx'.type = rx.type ∧ rx'.parent = rx.parent

variable {view view' : Nat → Name → Option Nat} {hand' : Hand}

theorem Does.refl (h : fs.Inv hand) (c : Nat) : Does fs fs c hand fs.findChild :=
  ⟨h, Frame.refl fs, rfl, fun _ rx _ hx => ⟨rx, hx, rfl, rfl, rfl⟩⟩

theorem Does.trans (h1 : Does fs fs' c hand view) (h2 : Does fs' fs'' c hand' view') : Does fs fs'' c hand' view' := by
  refine ⟨h2.inv, h1.frame.trans h2.frame, h2.view, ?_⟩
  intro x rx hne hx
  obtain ⟨r1, hr1, hl1, ht1, hp1⟩ := h1.spares x rx hne hx
  obtain ⟨r2, hr2, hl2, ht2, hp2⟩ := h2.spares x r1 hne hr1
  exact ⟨r2, hr2, hl2.trans hl1, ht2.trans ht1, hp2.trans hp1⟩

theorem Does.set (hinv : (fs.set c r).Inv hand) (hc : fs.inodes c = some rc) (ht : r.type = rc.type)
    (hu : r.iCount = rc.iCount) (hch : r.children = rc.children) : Does fs (fs.set c r) c hand fs.findChild :=
  ⟨hinv, Frame.set hc ht hu, findChild_set_same hc ht hch, fun _ rx hne hx =>
    ⟨rx, by rw [set_of_ne hne, hx], rfl, rfl, rfl⟩⟩

theorem Does.set_children (hinv : (fs.set d r).Inv hand) (hd : fs.inodes d = some rd)
    (hr : r = { rd with children := l }) (hview : (fs.set d r).findChild = view) :
    Does fs (fs.set d r) c hand view := by
  refine ⟨hinv, Frame.set hd (by rw [hr]) (by rw [hr]), hview, ?_⟩
  intro x rx _ hx
  by_cases e : x = d
  · subst e
    obtain rfl := Option.mem_unique hd hx
    exact ⟨r, set_self .., by simp only [hr, and_self]⟩
  · exact ⟨rx, by rw [set_of_ne e, hx], rfl, rfl, rfl⟩

theorem kmalloc_does (h : fs.Inv hand) (c : Nat) :
    Does fs { fs with allocs := fs.allocs.tail } c hand fs.findChild :=
  ⟨h.tail, ⟨fun _ => rfl, fun _ r' hx _ => ⟨r', hx, rfl⟩, Nat.le_refl _, fun _ _ => rfl⟩, rfl,
    fun _ rx _ hx => ⟨rx, hx, rfl, rfl, rfl⟩⟩

/-- A directory that is not removed. -/
def Linked (fs : Ramfs) (d : Nat) : Prop := ∃ rd, fs.inodes d = some rd ∧ rd.type = .dir ∧ rd.nlink ≠ 0

theorem Inv.linked_root (h : fs.Inv hand) : fs.Linked rootIno := by
  obtain ⟨r, h1, h2, -, h4⟩ := h.root
  exact ⟨r, h1, h2, h4⟩

theorem Does.linked (h : Does fs fs' c hand view) (hne : d ≠ c) (hd : fs.Linked d) : fs'.Linked d := by
  obtain ⟨rd, h1, h2, h3⟩ := hd
  obtain ⟨rd', h4, h5, h6, -⟩ := h.spares d rd hne h1
  exact ⟨rd', h4, h6.trans h2, by rwa [h5]⟩

theorem Inv.inHand_live (h : fs.Inv (.nameless c)) (hc : fs.inodes c = some rc) : c ≠ rootIno ∧ rc.nlink ≠ 0 := by
  obtain ⟨hroot, rc', hc', hlink⟩ := h.inHand c rfl
  obtain rfl := Option.mem_unique hc hc'
  exact ⟨hroot, hlink⟩

/-- The stores of `ramfs_add_child` give the inode in hand its name. -/
theorem pushChild_does (h : fs.Inv (.nameless c)) (hc : fs.inodes c = some rc) (hd : fs.Linked d) (hdc : d ≠ c)
    (hfree : fs.findChild d n = none) (hnot : rc.type = .dir → ¬ Reaches fs.parentOf d c) :
    Does fs (fs.pushChild d n c) c .empty (setEntry fs.findChild d n (some c)) := by
  obtain ⟨rd, hd, htype, hlink⟩ := hd
  have hdRoot : Reaches fs.parentOf d rootIno := h.toRoot d rd hd htype hlink (by rintro ⟨⟩; exact hdc rfl)
  -- the entries change the same way in both cases; `fs1` is the state after the parent pointer is set
  have hpush : ∀ fs1 rc1, Does fs fs1 c (.nameless c) fs.findChild → fs1.inodes d = some rd → fs1.inodes c = some rc1 →
      (rc1.type = .dir → rc1.parent = some d ∧ Reaches fs1.parentOf c rootIno) →
      Does fs (fs1.set d { rd with children := (n, c) :: rd.children }) c .empty
        (setEntry fs.findChild d n (some c)) := by
    intro fs1 rc1 h1 hd1 hc1 hup
    refine h1.trans (Does.set_children ?_ hd1 rfl ?_)
    · apply h1.inv.set_children hd1 rfl
      · refine List.nodup_cons.2 ⟨?_, h.distinct d rd hd⟩
        intro hmem
        obtain ⟨⟨m, x⟩, hx, rfl⟩ := List.mem_map.1 hmem
        rw [h.findChild_iff.2 ⟨rd, hd, hx⟩] at hfree
        cases hfree
      · exact htype
      · exact hlink
      · intro m x hx
        rcases List.mem_cons.1 hx with hx | hx
        · cases hx
          obtain ⟨hroot, hl⟩ := h1.inv.inHand_live hc1
          exact Or.inr ⟨hroot, rc1, hc1, hl, fun e => (hup e).1⟩
        · exact Or.inl hx
      · intro x rx _
        rw [namesIn_cons]
        simp
      · rintro x ⟨⟩
      · rintro x rx ⟨⟩ hx hdir _
        obtain rfl := Option.mem_unique hc1 hx
        exact (hup hdir).2
      · rintro x ⟨⟩
    · rw [findChild_push hd1 htype rfl, h1.view]
  unfold pushChild
  dsimp only
  rw [isDir_of_live hc]
  by_cases ht : rc.type = .dir
  · -- a directory first gets its parent pointer
    have hd1 : (fs.set c { rc with parent := some d }).inodes d = some rd := by rw [set_of_ne hdc, hd]
    rw [if_pos (decide_eq_true ht), modify_of_live hc, modify_of_live hd1]
    have hpar := h.set_parent hc hdRoot (hnot ht) rfl
    apply hpush _ { rc with parent := some d } (Does.set hpar hc rfl rfl rfl) hd1 (set_self ..)
    intro _
    refine ⟨rfl, ?_⟩
    rw [parentOf_set]
    exact hdRoot.update_self (hnot ht)
  · rw [if_neg (by simpa using ht), modify_of_live hd]
    exact hpush fs rc (Does.refl h c) hd hc fun e => absurd e ht

theorem isDir_of_linked (h : fs.Linked d) : fs.isDir d = true := by
  obtain ⟨rd, h1, h2, -⟩ := h
  rw [isDir_of_live h1, h2]
  rfl

theorem addChild_eq (h : fs.Inv hand) (hd : fs.Linked d) (hfree : fs.findChild d n = none) :
    fs.addChild d n c = (.ok (), ({ fs with allocs := fs.allocs.tail } : Ramfs).pushChild d n c) := by
  unfold addChild
  rw [isDir_of_linked hd, hfree, kmalloc_eq h]
  rfl

theorem addChild_does (h : fs.Inv (.nameless c)) (hc : fs.inodes c = some rc) (hd : fs.Linked d) (hdc : d ≠ c)
    (hfree : fs.findChild d n = none) (hnot : rc.type = .dir → ¬ Reaches fs.parentOf d c) :
    ∃ fs', fs.addChild d n c = (.ok (), fs') ∧ Does fs fs' c .empty (setEntry fs.findChild d n (some c)) := by
  have hdoes := kmalloc_does h c
  exact ⟨_, addChild_eq h hd hfree, hdoes.trans (pushChild_does hdoes.inv hc hd hdc hfree hnot)⟩

/-- Under distinct names, what is left when a name is dropped is everything but its entry. -/
theorem perm_eraseP (hnd : (l.map Prod.fst).Nodup) (hm : (n, c) ∈ l) :
    l.Perm ((n, c) :: l.eraseP fun e => e.1 = n) := by
  induction l with
  | nil => cases hm
  | cons e es ih =>
    obtain ⟨hne, hes⟩ := List.nodup_cons.1 (show (e.1 :: es.map Prod.fst).Nodup from hnd)
    rcases List.mem_cons.1 hm with rfl | hm
    · simp
    · have he : e.1 ≠ n := by
        rintro rfl
        exact hne (List.mem_map.2 ⟨_, hm, rfl⟩)
      rw [List.eraseP_cons_of_neg (by simpa using he)]
      exact ((ih hes hm).cons e).trans (List.Perm.swap _ _ _)

theorem isDir_of_findChild (hf : fs.findChild d n = some c) : fs.isDir d = true := by
  by_contra hdir
  unfold findChild at hf
  rw [if_neg hdir] at hf
  cases hf

/-- An entry leads to a live inode, from a linked directory that is not below it. -/
structure Entry (fs : Ramfs) (d : Nat) (n : Name) (c : Nat) (rc : RamfsInode) : Prop where
  live : fs.inodes c = some rc
  linked : fs.Linked d
  named : rc.nlink ≠ 0
  ne : d ≠ c
  ne_root : c ≠ rootIno
  parent : rc.type = .dir → rc.parent = some d
  above : rc.type = .dir → ¬ Reaches fs.parentOf d c

theorem Inv.exists_entry (h : fs.Inv .empty) (hf : fs.findChild d n = some c) : ∃ rc, Entry fs d n c rc := by
  obtain ⟨rd, hd, hm⟩ := h.findChild_iff.1 hf
  obtain ⟨hroot, rc, hc, hlink, hpar⟩ := h.entry d rd n c hd hm
  obtain ⟨htype, hl⟩ := h.holder d rd hd (List.ne_nil_of_mem hm)
  obtain ⟨r0, h0, -, h0p, -⟩ := h.root
  have habove : rc.type = .dir → ¬ Reaches fs.parentOf d c := by
    intro hdir
    have hcr := h.toRoot c rc hc hdir hlink (by simp)
    apply hcr.acyclic ((parentOf_of_live h0).trans h0p)
    rw [parentOf_of_live hc, hpar hdir]
  refine ⟨rc, hc, ⟨rd, hd, htype, hl⟩, hlink, ?_, hroot, hpar, habove⟩
  rintro rfl
  obtain rfl := Option.mem_unique hd hc
  exact habove htype (Reaches.refl d)

/-- Taking a name out leaves its inode in hand. -/
theorem dropChild_does (h : fs.Inv .empty) (hf : fs.findChild d n = some c) :
    Does fs (fs.dropChild d n) c (.nameless c) (setEntry fs.findChild d n none) ∧
      (fs.dropChild d n).parentOf = fs.parentOf ∧ ∀ x, x ≠ d → (fs.dropChild d n).inodes x = fs.inodes x := by
  obtain ⟨rc, he⟩ := h.exists_entry hf
  obtain ⟨rd, hd, hm⟩ := h.findChild_iff.1 hf
  obtain ⟨htype, hlink⟩ := h.holder d rd hd (List.ne_nil_of_mem hm)
  have hperm := perm_eraseP (h.distinct d rd hd) hm
  unfold dropChild
  rw [modify_of_live hd]
  refine ⟨Does.set_children ?_ hd rfl (findChild_pull (h.distinct d rd hd) hd htype rfl), parentOf_set_same hd rfl,
    fun x hx => set_of_ne hx⟩
  apply h.set_children hd rfl
  · exact (h.distinct d rd hd).sublist (List.eraseP_sublist.map _)
  · exact htype
  · exact hlink
  · intro m x hx
    exact Or.inl (List.mem_of_mem_eraseP hx)
  · intro x rx _
    rw [namesIn_perm hperm x, namesIn_cons]
    simp
  · rintro x ⟨⟩
    exact ⟨he.ne_root, rc, he.live, he.named⟩
  · rintro x rx ⟨⟩
  · rintro x ⟨⟩

theorem removeChild_none (hd : fs.isDir d = true) (hf : fs.findChild d n = none) :
    fs.removeChild d n = (.error .noent, fs) := by
  unfold removeChild
  rw [hd, hf]
  rfl

theorem removeChild_eq (h : fs.Inv .empty) (hf : fs.findChild d n = some c) :
    fs.removeChild d n = (.ok c, fs.dropChild d n) := by
  obtain ⟨rc, he⟩ := h.exists_entry hf
  unfold removeChild
  rw [isDir_of_linked he.linked, hf]
  rfl

/-- Eviction changes neither entries nor pointers that are still followed. -/
theorem evict_does (h : fs.Inv (.idle c)) : Does fs (fs.inodeMaybeEvict c) c .empty fs.findChild ∧
    ∀ x y, (fs.inodeMaybeEvict c).parentOf x = some y → fs.parentOf x = some y := by
  rcases inodeMaybeEvict_cases h with ⟨he, hi⟩ | ⟨rc, hc, hch, hz, hu, he⟩
  · rw [he]
    have hdoes := Does.refl hi c
    exact ⟨hdoes, fun _ _ hp => hp⟩
  · rw [he]
    refine ⟨⟨h.kfree hc hz hu, Frame.kfree hc hu, findChild_kfree hc hch, ?_⟩, ?_⟩
    · intro x rx hne hx
      exact ⟨rx, by rw [kfree_of_ne hne, hx], rfl, rfl, rfl⟩
    · intro x y hp
      obtain ⟨rx, hx, hp'⟩ := Option.bind_eq_some_iff.1 hp
      exact Option.bind_eq_some_iff.2 ⟨rx, (kfree_cases hx).2, hp'⟩

/-- A link counter goes down with the name that was taken out. -/
theorem unname_does (h : fs.Inv (.nameless c)) (hc : fs.inodes c = some rc) {k : Nat} (hk : k = fs.namesOf c)
    (hempty : k = 0 → rc.children = []) (howed : fs.namesOf c = RamfsInode.owed { rc with nlink := k } c)
    (hdir : rc.type = .dir → k = 0) :
    Does fs ((fs.set c { rc with nlink := k }).inodeMaybeEvict c) c .empty fs.findChild ∧
      ∀ x y, ((fs.set c { rc with nlink := k }).inodeMaybeEvict c).parentOf x = some y → fs.parentOf x = some y := by
  obtain ⟨hroot, hlink⟩ := h.inHand_live hc
  have hidle : (fs.set c { rc with nlink := k }).Inv (.idle c) := by
    apply h.set_nlink hc rfl hroot hempty
    · intro e
      rw [← hk, e]
    · rw [howed]
      simp
    · rintro ⟨⟩
    · intro x hx
      exact ⟨by rintro ⟨⟩; exact hx rfl, by rintro ⟨⟩⟩
    · rintro x _ ⟨⟩
    · intro _
      exact Or.inr rfl
    · intro e hne
      exact absurd (hdir e) hne
  obtain ⟨hdoes, hpar⟩ := evict_does hidle
  have hset : Does fs (fs.set c { rc with nlink := k }) c (.idle c) fs.findChild := Does.set hidle hc rfl rfl rfl
  constructor
  · have := hset.trans hdoes
    rwa [hset.view] at this
  · intro x y hp
    rw [← parentOf_set_same (r := { rc with nlink := k }) hc rfl]
    exact hpar x y hp

theorem Inv.childless (h : fs.Inv hand) (hc : fs.inodes c = some rc) (ht : rc.type ≠ .dir) : rc.children = [] := by
  by_contra hne
  exact ht (h.holder c rc hc hne).1

theorem dropNlink_does (h : fs.Inv (.nameless c)) (hc : fs.inodes c = some rc) (ht : rc.type ≠ .dir) :
    Does fs (fs.dropNlink c) c .empty fs.findChild ∧
      ∀ x y, (fs.dropNlink c).parentOf x = some y → fs.parentOf x = some y := by
  have hcount := h.count c rc hc
  rw [if_pos rfl, owed_of_not_dir ht] at hcount
  unfold dropNlink
  rw [modify_of_live hc]
  apply unname_does h hc
  · omega
  · intro _
    exact h.childless hc ht
  · have howed : RamfsInode.owed { rc with nlink := rc.nlink - 1 } c = rc.nlink - 1 := owed_of_not_dir ht
    omega
  · intro e
    exact absurd e ht

theorem clearNlink_does (h : fs.Inv (.nameless c)) (hc : fs.inodes c = some rc) (ht : rc.type = .dir)
    (he : rc.children = []) :
    Does fs (fs.clearNlink c) c .empty fs.findChild ∧
      ∀ x y, (fs.clearNlink c).parentOf x = some y → fs.parentOf x = some y := by
  obtain ⟨hroot, hlink⟩ := h.inHand_live hc
  have hcount := h.count c rc hc
  rw [if_pos rfl, Inv.owed_of_dir ht hlink hroot] at hcount
  unfold clearNlink
  rw [modify_of_live hc]
  apply unname_does h hc
  · omega
  · exact fun _ => he
  · rw [owed_of_unlinked rfl]
    omega
  · exact fun _ => rfl

/-! ## Creating operations -/

/-- A creating operation refuses and changes nothing, or enters a new inode of its type. -/
def Creates (fs : Ramfs) (d : Nat) (n : Name) (type : FileType) (p : Except Errno (Option Nat) × Ramfs) : Prop :=
  (∃ e, p = (.error e, fs)) ∨
    ∃ fs', p = (.ok (some fs.nextIno), fs') ∧ fs.findChild d n = none ∧ fs'.hasType fs.nextIno type = true ∧
      Does fs fs' fs.nextIno .empty (setEntry fs.findChild d n (some fs.nextIno))

/-- The new inode is entered. -/
def Makes (fs : Ramfs) (d : Nat) (n : Name) (type : FileType) (p : Except Errno (Option Nat) × Ramfs) : Prop :=
  ∃ fs', p = (.ok (some fs.nextIno), fs') ∧ fs.findChild d n = none ∧ fs'.hasType fs.nextIno type = true ∧
    Does fs fs' fs.nextIno .empty (setEntry fs.findChild d n (some fs.nextIno))

/-- No linked directory is below an inode that has no entries. -/
theorem Inv.not_reaches_childless (h : fs.Inv (.nameless c)) (hc : fs.inodes c = some rc) (he : rc.children = [])
    (hd : fs.Linked d) (hne : d ≠ c) : ¬ Reaches fs.parentOf d c := by
  intro hr
  obtain ⟨rd, hd, ht, hl⟩ := hd
  induction hr using Relation.ReflTransGen.head_induction_on generalizing rd with
  | refl => exact hne rfl
  | @head a b hab _ ih =>
    have hroot : a ≠ rootIno := by
      rintro rfl
      obtain ⟨r0, h0, -, hp, -⟩ := h.root
      rw [parentOf_of_live h0, hp] at hab
      cases hab
    obtain ⟨p, rp, m, hp, hlive, hm⟩ := h.exists_parent hd ht hl hroot (by rintro ⟨⟩; exact hne rfl)
    obtain rfl : b = p := by
      rw [parentOf_of_live hd, hp] at hab
      exact (Option.some.inj hab).symm
    by_cases e : b = c
    · subst e
      obtain rfl := Option.mem_unique hc hlive
      rw [he] at hm
      cases hm
    · obtain ⟨ht', hl'⟩ := h.holder b rp hlive (List.ne_nil_of_mem hm)
      exact ih e rp hlive ht' hl'

/-- The setting up of a new inode touches none of its links. -/
def Plain (setup : RamfsInode → RamfsInode) : Prop :=
  ∀ ri, (setup ri).type = ri.type ∧ (setup ri).nlink = ri.nlink ∧ (setup ri).parent = ri.parent ∧
    (setup ri).children = ri.children ∧ (setup ri).iCount = ri.iCount

theorem allocInode_eq (h : fs.Inv hand) (type : FileType) :
    fs.allocInode type = (some fs.nextIno,
      { ({ fs with allocs := fs.allocs.tail } : Ramfs).set fs.nextIno (ramfsInodeInit fs.nextIno type) with
        nextIno := fs.nextIno + 1 }) := by
  unfold allocInode
  rw [kmalloc_eq h]
  simp [h.unshared, set]

theorem allocInode_does (h : fs.Inv .empty) (type : FileType) :
    ∃ fs', fs.allocInode type = (some fs.nextIno, fs') ∧
      Does fs fs' fs.nextIno (.nameless fs.nextIno) fs.findChild ∧
      fs'.inodes fs.nextIno = some (ramfsInodeInit fs.nextIno type) := by
  have hk := kmalloc_does h fs.nextIno
  refine ⟨_, allocInode_eq h type, hk.trans ⟨hk.inv.alloc type, Frame.alloc (hk.inv.fresh _ (Nat.le_refl _)) rfl,
    findChild_alloc (hk.inv.fresh _ (Nat.le_refl _)) rfl, ?_⟩,
    set_self ..⟩
  intro x rx hne hx
  exact ⟨rx, (set_of_ne hne).trans hx, rfl, rfl, rfl⟩

/-- A store into the inode in hand that touches no link. -/
theorem Does.setup (h : fs.Inv (.nameless c)) (hc : fs.inodes c = some rc) {setup : RamfsInode → RamfsInode}
    (hs : Plain setup) : Does fs (fs.modify c setup) c (.nameless c) fs.findChild := by
  obtain ⟨ht, hl, hp, hch, hu⟩ := hs rc
  rw [modify_of_live hc]
  refine Does.set ?_ hc ht hu hch
  apply h.set_plain hc ht hl hp hch
  · exact fun _ => Iff.rfl
  · rintro x ⟨⟩
  · intro e
    exact absurd (hl ▸ e) (h.inHand_live hc).2

/-- Entering the inode in hand, which has no entries of its own yet. -/
theorem enterNew_does (h : fs.Inv (.nameless c)) (hc : fs.inodes c = some rc) (he : rc.children = [])
    (hd : fs.Linked d) (hne : d ≠ c) (hfree : fs.findChild d n = none) :
    ∃ fs', fs.enterNew d n c = (.ok (some c), fs') ∧ Does fs fs' c .empty (setEntry fs.findChild d n (some c)) := by
  obtain ⟨fs', heq, hdoes⟩ := addChild_does h hc hd hne hfree fun _ => h.not_reaches_childless hc he hd hne
  refine ⟨fs', ?_, hdoes⟩
  unfold enterNew
  rw [heq]

theorem Does.hasType {type : FileType} (h : Does fs fs' c .empty (setEntry view d n (some c)))
    (hlt : c < fs.nextIno) (hc : fs.inodes c = some rc) (ht : rc.type = type) : fs'.hasType c type = true := by
  have hf : fs'.findChild d n = some c := by rw [h.view, setEntry_self]
  obtain ⟨rc', he⟩ := h.inv.exists_entry hf
  obtain ⟨r0, h0, h1⟩ := h.frame.types c rc' he.live hlt
  obtain rfl := Option.mem_unique hc h0
  simp only [Ramfs.hasType, he.live, h1, ht, decide_true]

/-- The part of the creating operations that starts with the new inode in hand. -/
theorem makes_of_enter {type : FileType} {fs1 : Ramfs} {setup : RamfsInode → RamfsInode} (h : fs.Inv .empty)
    (hd : fs.Linked d) (hfree : fs.findChild d n = none)
    (h1 : Does fs fs1 fs.nextIno (.nameless fs.nextIno) fs.findChild)
    (hc : fs1.inodes fs.nextIno = some (ramfsInodeInit fs.nextIno type)) (hs : Plain setup) :
    Makes fs d n type ((fs1.modify fs.nextIno setup).enterNew d n fs.nextIno) := by
  have hne : d ≠ fs.nextIno := by
    obtain ⟨rd, hrd, -⟩ := hd
    exact (h.lt hrd).ne
  have h2 := Does.setup h1.inv hc hs
  rw [h1.view] at h2
  have h12 := h1.trans h2
  have hcell : (fs1.modify fs.nextIno setup).inodes fs.nextIno = some (setup (ramfsInodeInit fs.nextIno type)) := by
    rw [modify_of_live hc, set_self]
  obtain ⟨ht, -, -, hch, -⟩ := hs (ramfsInodeInit fs.nextIno type)
  obtain ⟨fs3, heq, h3⟩ := enterNew_does h12.inv hcell hch (h12.linked hne hd) hne (by rw [h12.view]; exact hfree)
  have htype := h3.hasType (h12.inv.lt hcell) hcell ht
  have h123 := h12.trans h3
  rw [h12.view] at h123
  exact ⟨fs3, heq, hfree, htype, h123⟩

theorem makeNode_makes (h : fs.Inv .empty) (hd : fs.Linked d) (hfree : fs.findChild d n = none) (type : FileType)
    {setup : RamfsInode → RamfsInode} (hs : Plain setup) : Makes fs d n type (fs.makeNode d n type setup) := by
  unfold makeNode
  rw [if_neg (by simp [hfree])]
  obtain ⟨fs1, heq, h1, hc⟩ := allocInode_does h type
  rw [heq]
  exact makes_of_enter h hd hfree h1 hc hs

theorem makeNode_creates (h : fs.Inv .empty) (hd : fs.Linked d) (type : FileType) {setup : RamfsInode → RamfsInode}
    (hs : Plain setup) : Creates fs d n type (fs.makeNode d n type setup) := by
  cases hfree : fs.findChild d n with
  | some c =>
    unfold makeNode
    rw [if_pos (by simp [hfree])]
    exact Or.inl ⟨_, rfl⟩
  | none => exact Or.inr (makeNode_makes h hd hfree type hs)

theorem plain_applyMode (mode : UInt16) : Plain fun ri => ri.applyMode mode := fun _ => ⟨rfl, rfl, rfl, rfl, rfl⟩

theorem inodeMkdir_creates (h : fs.Inv .empty) (hd : fs.isDir d = true → fs.Linked d) (mode : UInt16) :
    Creates fs d n .dir (fs.inodeMkdir d n mode) := by
  unfold inodeMkdir
  split_ifs with h1 h2
  · exact Or.inl ⟨_, rfl⟩
  · exact makeNode_creates h (hd h2) .dir (plain_applyMode mode)
  · exact Or.inl ⟨_, rfl⟩

theorem inodeMknod_creates (h : fs.Inv .empty) (hd : fs.isDir d = true → fs.Linked d) (mode : UInt16) (rdev : Nat) :
    Creates fs d n .chr (fs.inodeMknod d n mode rdev) := by
  unfold inodeMknod
  split_ifs with h1 h2 h3
  · exact Or.inl ⟨_, rfl⟩
  · exact Or.inl ⟨_, rfl⟩
  · exact makeNode_creates h (hd h2) .chr fun _ => ⟨rfl, rfl, rfl, rfl, rfl⟩
  · exact Or.inl ⟨_, rfl⟩

theorem inodeSymlink_makes (h : fs.Inv .empty) (hd : fs.Linked d) (hn : n.bytes ≠ []) (hfree : fs.findChild d n = none)
    {target : List UInt8} (ht : target.length < pathMax) : Makes fs d n .lnk (fs.inodeSymlink d n target) := by
  unfold inodeSymlink
  rw [if_neg hn, if_neg (by simp [isDir_of_linked hd]), if_neg (Nat.not_le_of_lt ht)]
  split_ifs with h4 h5
  · exact makeNode_makes h hd hfree .lnk fun _ => ⟨rfl, rfl, rfl, rfl, rfl⟩
  · simp [hfree] at h5
  · -- the target is allocated between the inode and its entry
    obtain ⟨fs1, heq, h6, hc⟩ := allocInode_does h .lnk
    rw [heq]
    simp only [kmalloc_eq h6.inv]
    have h7 := h6.trans (kmalloc_does h6.inv fs.nextIno)
    rw [h6.view] at h7
    exact makes_of_enter h hd hfree h7 hc fun _ => ⟨rfl, rfl, rfl, rfl, rfl⟩

theorem inodeSymlink_creates (h : fs.Inv .empty) (hd : fs.isDir d = true → fs.Linked d) (target : List UInt8) :
    Creates fs d n .lnk (fs.inodeSymlink d n target) := by
  by_cases hn : n.bytes = []
  · exact Or.inl ⟨.inval, by rw [inodeSymlink, if_pos hn]⟩
  by_cases hdir : fs.isDir d = true
  · by_cases ht : target.length ≥ pathMax
    · exact Or.inl ⟨.nametoolong, by rw [inodeSymlink, if_neg hn, if_neg (by simp [hdir]), if_pos ht]⟩
    cases hfree : fs.findChild d n with
    | none => exact Or.inr (inodeSymlink_makes h (hd hdir) hn hfree (Nat.lt_of_not_le ht))
    | some c =>
      have hsome : (fs.findChild d n).isSome = true := by rw [hfree]; rfl
      refine Or.inl ⟨.exist, ?_⟩
      rw [inodeSymlink, if_neg hn, if_neg (by simp [hdir]), if_neg ht, makeNode, if_pos hsome, if_pos hsome, ite_self]
  · exact Or.inl ⟨.notdir, by rw [inodeSymlink, if_neg hn, if_pos hdir]⟩

/-- The way down a path stays among linked directories. -/
theorem Inv.linked_of_findChild (h : fs.Inv .empty) (hf : fs.findChild d n = some c) (hc : fs.isDir c = true) :
    fs.Linked c := by
  obtain ⟨rc, he⟩ := h.exists_entry hf
  exact ⟨rc, he.live, by simpa [isDir_of_live he.live] using hc, he.named⟩

theorem Inv.linked_parent (h : fs.Inv .empty) (hd : fs.Linked d) : fs.Linked ((fs.parentOf d).getD d) := by
  obtain ⟨rd, hlive, ht, hl⟩ := hd
  cases hp : fs.parentOf d with
  | none => exact ⟨rd, hlive, ht, hl⟩
  | some p =>
    exact h.linked_of_reaches (by simp) (Reaches.head hp (Reaches.refl p)) hlive ht hl

theorem lookupParentLoop_linked (h : fs.Inv .empty) :
    ∀ (k d : Nat) (last : Option (List UInt8)) (path : List UInt8) (e : Nat) (last' : Option (List UInt8)),
      fs.Linked d → fs.lookupParentLoop k d last path = some (e, last') → fs.Linked e
  | 0, _, _, _, _, _, _, heq => by cases heq
  | k + 1, d, last, path, e, last', hd, heq => by
    unfold lookupParentLoop at heq
    dsimp only at heq
    split_ifs at heq with h1 h2 h3 h4
    · cases heq
      exact hd
    · cases heq
      exact hd
    · exact lookupParentLoop_linked h k _ _ _ _ _ hd heq
    · exact lookupParentLoop_linked h k _ _ _ _ _ (h.linked_parent hd) heq
    · split at heq
      · cases heq
      · next i hi =>
        split_ifs at heq with h5
        exact lookupParentLoop_linked h k _ _ _ _ _ (h.linked_of_findChild hi h5) heq

theorem lookupParent_linked (h : fs.Inv .empty) {path : List UInt8} (heq : fs.lookupParent path = some (d, n)) :
    fs.Linked d := by
  unfold lookupParent at heq
  split at heq
  · cases heq
  · cases heq
  · next e last hloop =>
    split_ifs at heq
    cases heq
    exact lookupParentLoop_linked h _ _ _ _ _ _ h.linked_root hloop

/-- A creating call refuses, or enters a new inode in a directory found by the path. -/
def CreatesAt (fs : Ramfs) (path : List UInt8) (type : FileType) (p : Except Errno (Option Nat) × Ramfs) : Prop :=
  (∃ e, p = (.error e, fs)) ∨ ∃ d n, fs.lookupParent path = some (d, n) ∧ fs.Linked d ∧ Creates fs d n type p

theorem create_creates (h : fs.Inv .empty) (path : List UInt8) (mode : UInt16) :
    CreatesAt fs path .reg (fs.create path mode) := by
  unfold create
  split_ifs with h1
  · exact Or.inl ⟨_, rfl⟩
  · split
    · exact Or.inl ⟨_, rfl⟩
    · next d n hp =>
      have hd := lookupParent_linked h hp
      exact Or.inr ⟨d, n, hp, hd, makeNode_creates h hd .reg (plain_applyMode mode)⟩

/-! ## Link, unlink and rmdir -/

theorem link_does (h : fs.Inv .empty) (hc : fs.inodes c = some rc) (ht : rc.type ≠ .dir) (hd : fs.Linked d)
    (hfree : fs.findChild d n = none) :
    ∃ fs', (fs.addChild d n c).1 = .ok () ∧
      (fs.addChild d n c).2.modify c (fun ri => { ri with nlink := ri.nlink + 1 }) = fs' ∧
      Does fs fs' c .empty (setEntry fs.findChild d n (some c)) := by
  obtain ⟨rd, hrd, htd, hld⟩ := hd
  have hdc : d ≠ c := by
    rintro rfl
    obtain rfl := Option.mem_unique hrd hc
    exact ht htd
  have hroot : c ≠ rootIno := by
    rintro rfl
    obtain ⟨r0, h0, h1, -⟩ := h.root
    obtain rfl := Option.mem_unique hc h0
    exact ht h1
  have hcount := h.count c rc hc
  rw [if_neg (by simp), owed_of_not_dir ht] at hcount
  -- the counter goes up first: then the inode misses one name
  have hup : Does fs (fs.set c { rc with nlink := rc.nlink + 1 }) c (.nameless c) fs.findChild := by
    refine Does.set ?_ hc rfl rfl rfl
    apply h.set_nlink hc rfl hroot
    · omega
    · omega
    · have howed : RamfsInode.owed { rc with nlink := rc.nlink + 1 } c = rc.nlink + 1 := owed_of_not_dir ht
      rw [howed, if_pos rfl]
      omega
    · intro _
      omega
    · intro x hx
      exact ⟨by simp, by rintro ⟨⟩; exact hx rfl⟩
    · rintro x _ ⟨⟩
    · omega
    · intro e
      exact absurd e ht
  have hk := kmalloc_does hup.inv c
  have hcell : ({ fs.set c { rc with nlink := rc.nlink + 1 } with allocs := fs.allocs.tail } : Ramfs).inodes c =
      some { rc with nlink := rc.nlink + 1 } := set_self ..
  have hpush := pushChild_does (n := n) hk.inv hcell ((hup.trans hk).linked hdc ⟨rd, hrd, htd, hld⟩) hdc
    (by rw [hk.view, hup.view]; exact hfree) fun e => absurd e ht
  rw [hk.view, hup.view] at hpush
  have hadd := addChild_eq (c := c) h ⟨rd, hrd, htd, hld⟩ hfree
  refine ⟨_, by rw [hadd], rfl, ?_⟩
  have hsame : (fs.addChild d n c).2.modify c (fun ri => { ri with nlink := ri.nlink + 1 }) =
      ({ fs.set c { rc with nlink := rc.nlink + 1 } with allocs := fs.allocs.tail } : Ramfs).pushChild d n c := by
    rw [hadd]
    have hfile : ∀ fs1 : Ramfs, ∀ r1, fs1.inodes c = some r1 → r1.type ≠ .dir → fs1.inodes d = some rd →
        fs1.pushChild d n c = fs1.set d { rd with children := (n, c) :: rd.children } := by
      intro fs1 r1 h1 h2 h3
      unfold pushChild
      dsimp only
      rw [isDir_of_live h1, if_neg (by simpa using h2), modify_of_live h3]
    have hdcell : ({ fs.set c { rc with nlink := rc.nlink + 1 } with allocs := fs.allocs.tail } : Ramfs).inodes d =
        some rd := (set_of_ne hdc).trans hrd
    rw [hfile { fs with allocs := fs.allocs.tail } rc hc ht hrd, hfile _ _ hcell ht hdcell]
    have hccell : (({ fs with allocs := fs.allocs.tail } : Ramfs).set d
        { rd with children := (n, c) :: rd.children }).inodes c = some rc := (set_of_ne hdc.symm).trans hc
    exact (modify_of_live hccell _).trans (set_comm _ hdc _ _)
  rw [hsame]
  exact (hup.trans hk).trans hpush

/-- `ramfs_inode_link` refuses and changes nothing, or gives a file one more name. -/
theorem inodeLink_spec (h : fs.Inv .empty) (hc : fs.inodes c = some rc) (hd : fs.isDir d = true → fs.Linked d) :
    (∃ e, fs.inodeLink c d n = (.error e, fs)) ∨
      ∃ fs', fs.inodeLink c d n = (.ok (some c), fs') ∧ fs.findChild d n = none ∧ rc.type ≠ .dir ∧
        Does fs fs' c .empty (setEntry fs.findChild d n (some c)) := by
  unfold inodeLink
  split_ifs with h1 h2 h3 h4
  · exact Or.inl ⟨_, rfl⟩
  · exact Or.inl ⟨_, rfl⟩
  · exact Or.inl ⟨_, rfl⟩
  · right
    have ht : rc.type ≠ .dir := by simpa [isDir_of_live hc] using h3
    have hfree : fs.findChild d n = none := by simpa using h4
    obtain ⟨fs', hok, heq, hdoes⟩ := link_does h hc ht (hd h2) hfree
    refine ⟨fs', ?_, hfree, ht, hdoes⟩
    generalize fs.addChild d n c = p at hok heq
    obtain ⟨res, fs1⟩ := p
    cases hok
    rw [← heq]
  · exact Or.inl ⟨_, rfl⟩

/-- Putting an entry back where it was taken from. -/
theorem putBack_does (h : fs.Inv .empty) (hf : fs.findChild d n = some c) :
    Does fs ((fs.dropChild d n).addChild d n c).2 c .empty fs.findChild := by
  obtain ⟨rc, he⟩ := h.exists_entry hf
  obtain ⟨h1, hpar, hcells⟩ := dropChild_does h hf
  have hc : (fs.dropChild d n).inodes c = some rc := (hcells c he.ne.symm).trans he.live
  obtain ⟨fs', heq, h2⟩ := addChild_does (n := n) h1.inv hc (h1.linked he.ne he.linked) he.ne
    (by rw [h1.view, setEntry_self]) (by rw [hpar]; exact he.above)
  rw [heq]
  have h12 := h1.trans h2
  rw [h1.view, setEntry_setEntry, setEntry_eq_self hf] at h12
  exact h12

/-- A removing operation refuses and leaves the entries as they were, or takes one name away from an
inode of the kind it is for. -/
def Removes (fs : Ramfs) (d : Nat) (n : Name) (dir : Bool) (p : Except Errno (Option Nat) × Ramfs) : Prop :=
  (∃ e fs' c, p = (.error e, fs') ∧ (fs' = fs ∨ fs.findChild d n = some c) ∧ Does fs fs' c .empty fs.findChild) ∨
    ∃ c fs', p = (.ok none, fs') ∧ fs.findChild d n = some c ∧ fs.isDir c = dir ∧
      Does fs fs' c .empty (setEntry fs.findChild d n none) ∧ ∀ x y, fs'.parentOf x = some y → fs.parentOf x = some y

theorem Removes.error {e : Errno} {dir : Bool} (h : fs.Inv .empty) : Removes fs d n dir (.error e, fs) :=
  Or.inl ⟨e, fs, d, rfl, Or.inl rfl, Does.refl h d⟩

/-- A name is taken out and the counter of its inode follows: `unname` is the way it does. -/
theorem takeOut_does (unname : Ramfs → Ramfs) (h : fs.Inv .empty) (hf : fs.findChild d n = some c)
    (hun : ∀ fs1 rc, Entry fs d n c rc → fs1.Inv (.nameless c) → fs1.inodes c = some rc →
      Does fs1 (unname fs1) c .empty fs1.findChild ∧ ∀ x y, (unname fs1).parentOf x = some y →
        fs1.parentOf x = some y) :
    Does fs (unname (fs.dropChild d n)) c .empty (setEntry fs.findChild d n none) ∧
      ∀ x y, (unname (fs.dropChild d n)).parentOf x = some y → fs.parentOf x = some y := by
  obtain ⟨rc, he⟩ := h.exists_entry hf
  obtain ⟨h1, hpar, hcells⟩ := dropChild_does h hf
  obtain ⟨h2, hsub⟩ := hun _ rc he h1.inv ((hcells c he.ne.symm).trans he.live)
  constructor
  · have h12 := h1.trans h2
    rwa [h1.view] at h12
  · intro x y hp
    rw [← hpar]
    exact hsub x y hp

theorem dropChild_isDir (h : fs.Inv .empty) (hf : fs.findChild d n = some c) :
    (fs.dropChild d n).isDir c = fs.isDir c ∧ (fs.dropChild d n).childrenOf c = fs.childrenOf c := by
  obtain ⟨rc, he⟩ := h.exists_entry hf
  have hcell := (dropChild_does h hf).2.2 c he.ne.symm
  simp only [isDir, hasType, childrenOf, hcell, and_self]

theorem inodeUnlink_removes (h : fs.Inv .empty) : Removes fs d n false (fs.inodeUnlink d n) := by
  unfold inodeUnlink
  split_ifs with h1 h2
  · exact Removes.error h
  · cases hf : fs.findChild d n with
    | none =>
      rw [removeChild_none h2 hf]
      exact Removes.error h
    | some c =>
      simp only [removeChild_eq h hf, (dropChild_isDir h hf).1]
      split_ifs with hdir
      · exact Or.inl ⟨.isdir, _, c, rfl, Or.inr hf, putBack_does h hf⟩
      · obtain ⟨hdoes, hsub⟩ := takeOut_does (fun fs => fs.dropNlink c) h hf fun fs1 rc he hi hc =>
          dropNlink_does hi hc (by simpa [isDir_of_live he.live] using hdir)
        exact Or.inr ⟨c, _, rfl, hf, by simpa using hdir, hdoes, hsub⟩
  · exact Removes.error h

theorem inodeRmdir_removes (h : fs.Inv .empty) : Removes fs d n true (fs.inodeRmdir d n) := by
  unfold inodeRmdir
  split_ifs with h1 h2
  · exact Removes.error h
  · cases hf : fs.findChild d n with
    | none =>
      rw [removeChild_none h2 hf]
      exact Removes.error h
    | some c =>
      obtain ⟨hdir, hch⟩ := dropChild_isDir h hf
      simp only [removeChild_eq h hf, hdir, hch]
      split_ifs with h3 h4
      · exact Or.inl ⟨.notempty, _, c, rfl, Or.inr hf, putBack_does h hf⟩
      · obtain ⟨hdoes, hsub⟩ := takeOut_does (fun fs => fs.clearNlink c) h hf fun fs1 rc he hi hc => by
          apply clearNlink_does hi hc
          · simpa [isDir_of_live he.live] using h3
          · simpa [childrenOf_of_live he.live] using h4
        exact Or.inr ⟨c, _, rfl, hf, h3, hdoes, hsub⟩
      · exact Or.inl ⟨.notdir, _, c, rfl, Or.inr hf, putBack_does h hf⟩
  · exact Removes.error h

end Ramfs

end MiniOs.Fs
