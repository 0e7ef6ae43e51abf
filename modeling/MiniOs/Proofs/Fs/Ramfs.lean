/-
The tree and link invariant of ramfs, and what the small steps of its operations do to it: an inode
is allocated, a name is entered or taken out, a link counter moves, an inode without users is freed.
Between two such steps one inode is "in hand": it misses a name, or it may be without users.
-/
import MiniOs.Fs.Ramfs
import MiniOs.Library.Reach
import MiniOs.Library.Sums
import Mathlib.Algebra.Order.BigOperators.Group.Finset

namespace MiniOs.Fs

open Library Function

/-! ## Heap updates -/

namespace Ramfs

variable {fs : Ramfs} {i j c d : Nat} {ri r x : RamfsInode}

@[simp] theorem set_self (fs : Ramfs) (i : Nat) (r : RamfsInode) : (fs.set i r).inodes i = some r :=
  update_self ..

theorem set_of_ne (h : j ≠ i) : (fs.set i r).inodes j = fs.inodes j := update_of_ne h ..

theorem set_set (fs : Ramfs) (i : Nat) (r x : RamfsInode) : (fs.set i r).set i x = fs.set i x := by
  simp only [set, update_idem]

theorem set_comm (fs : Ramfs) (h : i ≠ j) (r x : RamfsInode) : (fs.set i r).set j x = (fs.set j x).set i r := by
  simp only [set, update_comm h]

theorem set_cases (h : (fs.set i r).inodes j = some x) : (j = i ∧ x = r) ∨ (j ≠ i ∧ fs.inodes j = some x) := by
  by_cases e : j = i
  · subst e
    rw [set_self] at h
    exact Or.inl ⟨rfl, (Option.some.inj h).symm⟩
  · rw [set_of_ne e] at h
    exact Or.inr ⟨e, h⟩

theorem modify_of_live (h : fs.inodes i = some ri) (f : RamfsInode → RamfsInode) : fs.modify i f = fs.set i (f ri) := by
  simp only [modify, h]

theorem isDir_of_live (h : fs.inodes i = some ri) : fs.isDir i = decide (ri.type = .dir) := by
  simp only [isDir, hasType, h]

theorem exists_of_isDir (h : fs.isDir i = true) : ∃ ri, fs.inodes i = some ri ∧ ri.type = .dir := by
  cases hi : fs.inodes i with
  | none => simp [isDir, hasType, hi] at h
  | some ri => exact ⟨ri, rfl, by simpa [isDir_of_live hi] using h⟩

theorem childrenOf_of_live (h : fs.inodes i = some ri) : fs.childrenOf i = ri.children := by
  simp only [childrenOf, h]

theorem parentOf_of_live (h : fs.inodes i = some ri) : fs.parentOf i = ri.parent := by
  simp only [parentOf, h, Option.bind_some]

theorem parentOf_set (fs : Ramfs) (i : Nat) (r : RamfsInode) :
    (fs.set i r).parentOf = update fs.parentOf i r.parent := by
  funext j
  by_cases e : j = i
  · subst e; simp [parentOf]
  · simp [parentOf, set_of_ne e, e]

theorem parentOf_set_same (h : fs.inodes i = some ri) (hp : r.parent = ri.parent) :
    (fs.set i r).parentOf = fs.parentOf := by
  rw [parentOf_set, hp, ← parentOf_of_live h, update_eq_self]

/-! ## Counting the names of an inode -/

/-- The entries of a list that name an inode. -/
def namesIn (l : List (Name × Nat)) (c : Nat) : Nat := l.countP fun e => e.2 = c

/-- The directory entries that name an inode. -/
def namesOf (fs : Ramfs) (c : Nat) : Nat := ∑ d ∈ Finset.range fs.nextIno, namesIn (fs.childrenOf d) c

@[simp] theorem namesIn_nil (c : Nat) : namesIn [] c = 0 := rfl

theorem namesIn_cons (n : Name) (i : Nat) (l : List (Name × Nat)) (c : Nat) :
    namesIn ((n, i) :: l) c = namesIn l c + if i = c then 1 else 0 := by
  simp [namesIn, List.countP_cons]

theorem namesIn_perm {l m : List (Name × Nat)} (h : l.Perm m) (c : Nat) : namesIn l c = namesIn m c := h.countP_eq _

theorem namesIn_pos {l : List (Name × Nat)} {c : Nat} : 0 < namesIn l c ↔ ∃ n, (n, c) ∈ l := by
  simp only [namesIn, List.countP_pos_iff, decide_eq_true_eq]
  constructor
  · rintro ⟨⟨n, i⟩, hm, rfl⟩
    exact ⟨n, hm⟩
  · rintro ⟨n, hm⟩
    exact ⟨(n, c), hm, rfl⟩

/-- The entries of a heap cell. -/
def entriesOf : Option RamfsInode → List (Name × Nat)
  | none => []
  | some ri => ri.children

theorem namesOf_eq (fs : Ramfs) (c : Nat) :
    fs.namesOf c = ∑ d ∈ Finset.range fs.nextIno, (fun o => namesIn (entriesOf o) c) (fs.inodes d) :=
  Finset.sum_congr rfl fun d _ => by unfold childrenOf entriesOf; cases fs.inodes d <;> rfl

/-- Replacing the contents of a cell exchanges its part of the count. -/
theorem namesOf_update (fs : Ramfs) {d : Nat} (hd : d < fs.nextIno) (v : Option RamfsInode) (c : Nat) :
    namesOf { fs with inodes := update fs.inodes d v } c + namesIn (entriesOf (fs.inodes d)) c =
      namesOf fs c + namesIn (entriesOf v) c := by
  obtain ⟨rest, h1, h2⟩ := exists_sum_rest (Finset.mem_range.2 hd) (fun o => namesIn (entriesOf o) c) fs.inodes
  rw [namesOf_eq, namesOf_eq, h1]
  have h3 := h2 v
  simp only at h3 ⊢
  rw [h3]
  omega

theorem namesOf_set (hd : d < fs.nextIno) (h : fs.inodes d = some ri) (r : RamfsInode) (c : Nat) :
    (fs.set d r).namesOf c + namesIn ri.children c = fs.namesOf c + namesIn r.children c := by
  have := namesOf_update fs hd (some r) c
  rw [h] at this
  exact this

theorem exists_entry_of_namesOf {c : Nat} (h : 0 < fs.namesOf c) :
    ∃ d rd n, fs.inodes d = some rd ∧ (n, c) ∈ rd.children := by
  obtain ⟨d, _, hpos⟩ := Finset.exists_ne_zero_of_sum_ne_zero (Nat.pos_iff_ne_zero.1 h)
  obtain ⟨n, hn⟩ := namesIn_pos.1 (Nat.pos_of_ne_zero hpos)
  unfold childrenOf at hn
  cases hd : fs.inodes d with
  | none => simp [hd] at hn
  | some rd =>
    rw [hd] at hn
    exact ⟨d, rd, n, hd, hn⟩

theorem namesOf_pos_of_entry {n : Name} (hd : d < fs.nextIno) (h : fs.inodes d = some ri) (hm : (n, c) ∈ ri.children) :
    0 < fs.namesOf c := by
  have hle : namesIn (fs.childrenOf d) c ≤ fs.namesOf c :=
    Finset.single_le_sum (f := fun d => namesIn (fs.childrenOf d) c) (fun _ _ => Nat.zero_le _) (Finset.mem_range.2 hd)
  rw [childrenOf_of_live h] at hle
  exact Nat.lt_of_lt_of_le (namesIn_pos.2 ⟨n, hm⟩) hle

end Ramfs

/-! ## The invariant -/

/-- How many names an inode must have: a linked directory other than the root has one, any other inode
as many as its link counter says. -/
def RamfsInode.owed (ri : RamfsInode) (i : Nat) : Nat :=
  if ri.type = .dir then if ri.nlink = 0 ∨ i = rootIno then 0 else 1 else ri.nlink

/-- What is unfinished between two steps of an operation: nothing, an inode that misses one of its
names, or an inode that may be without names and users. -/
inductive Hand
  | empty
  | nameless (i : Nat)
  | idle (i : Nat)
  deriving DecidableEq

structure Ramfs.Inv (fs : Ramfs) (hand : Hand) : Prop where
  unshared : fs.again = []
  supplied : ∀ ok ∈ fs.allocs, ok = true
  fresh : ∀ i, fs.nextIno ≤ i → fs.inodes i = none
  root : ∃ r, fs.inodes rootIno = some r ∧ r.type = .dir ∧ r.parent = none ∧ r.nlink ≠ 0
  distinct : ∀ d rd, fs.inodes d = some rd → (rd.children.map Prod.fst).Nodup
  holder : ∀ d rd, fs.inodes d = some rd → rd.children ≠ [] → rd.type = .dir ∧ rd.nlink ≠ 0
  entry : ∀ d rd n c, fs.inodes d = some rd → (n, c) ∈ rd.children →
    c ≠ rootIno ∧ ∃ rc, fs.inodes c = some rc ∧ rc.nlink ≠ 0 ∧ (rc.type = .dir → rc.parent = some d)
  count : ∀ c rc, fs.inodes c = some rc → fs.namesOf c + (if hand = .nameless c then 1 else 0) = rc.owed c
  inHand : ∀ c, hand = .nameless c → c ≠ rootIno ∧ ∃ rc, fs.inodes c = some rc ∧ rc.nlink ≠ 0
  toRoot : ∀ d rd, fs.inodes d = some rd → rd.type = .dir → rd.nlink ≠ 0 → hand ≠ .nameless d →
    Reaches fs.parentOf d rootIno
  kept : ∀ c rc, fs.inodes c = some rc → rc.nlink = 0 → rc.iCount ≠ 0 ∨ hand = .idle c
  freedIdle : ∀ e ∈ fs.freed, fs.inodes e.1 = none ∧ e.1 < fs.nextIno ∧
    ∃ r, e.2 = some r ∧ r.nlink = 0 ∧ r.iCount = 0
  freedOnce : (fs.freed.map Prod.fst).Nodup

namespace Ramfs

variable {fs : Ramfs} {hand : Hand} {i c d : Nat} {n : Name} {ri rc rd r : RamfsInode}

theorem Inv.lt (h : fs.Inv hand) (hi : fs.inodes i = some ri) : i < fs.nextIno := by
  by_contra hge
  rw [h.fresh i (by omega)] at hi
  cases hi

theorem Inv.owed_of_dir (hd : ri.type = .dir) (hl : ri.nlink ≠ 0) (hr : i ≠ rootIno) : ri.owed i = 1 := by
  simp [RamfsInode.owed, hd, hl, hr]

theorem owed_of_not_dir (hd : ri.type ≠ .dir) : ri.owed i = ri.nlink := by simp [RamfsInode.owed, hd]

theorem owed_of_unlinked (hl : ri.nlink = 0) : ri.owed i = 0 := by
  unfold RamfsInode.owed
  split <;> simp [hl]

variable {hand' : Hand}

section

variable (h : fs.Inv hand)
include h

theorem Inv.ne_root (hc : fs.inodes c = some rc) (hz : rc.nlink = 0) : c ≠ rootIno := by
  rintro rfl
  obtain ⟨r0, h0, -, -, h3⟩ := h.root
  obtain rfl := Option.mem_unique hc h0
  exact h3 hz

theorem Inv.childless_of_unlinked (hc : fs.inodes c = some rc) (hz : rc.nlink = 0) : rc.children = [] := by
  by_contra hne
  exact (h.holder c rc hc hne).2 hz

/-- A linked directory below the root stands in the directory its parent pointer names. -/
theorem Inv.exists_parent (hd : fs.inodes d = some rd) (ht : rd.type = .dir) (hl : rd.nlink ≠ 0)
    (hr : d ≠ rootIno) (hh : hand ≠ .nameless d) :
    ∃ p rp n, rd.parent = some p ∧ fs.inodes p = some rp ∧ (n, d) ∈ rp.children := by
  have hc := h.count d rd hd
  rw [if_neg hh, Inv.owed_of_dir ht hl hr] at hc
  obtain ⟨p, rp, n, hp, hm⟩ := exists_entry_of_namesOf (show 0 < fs.namesOf d by omega)
  obtain ⟨-, rd', hd', -, hpar⟩ := h.entry p rp n d hp hm
  obtain rfl := Option.mem_unique hd hd'
  exact ⟨p, rp, n, hpar ht, hp, hm⟩

/-- The way up from a linked directory leads through linked directories. -/
theorem Inv.linked_of_reaches (hh : ∀ c, hand ≠ .nameless c) (hr : Reaches fs.parentOf d c)
    (hd : fs.inodes d = some rd) (ht : rd.type = .dir) (hl : rd.nlink ≠ 0) :
    ∃ rc, fs.inodes c = some rc ∧ rc.type = .dir ∧ rc.nlink ≠ 0 := by
  induction hr using Relation.ReflTransGen.head_induction_on generalizing rd with
  | refl => exact ⟨rd, hd, ht, hl⟩
  | @head a b hab _ ih =>
    have hne : a ≠ rootIno := by
      rintro rfl
      obtain ⟨r, hr, -, hp, -⟩ := h.root
      rw [parentOf_of_live hr, hp] at hab
      cases hab
    obtain ⟨p, rp, n, hp, hlive, hm⟩ := h.exists_parent hd ht hl hne (hh a)
    obtain rfl : b = p := by
      rw [parentOf_of_live hd, hp] at hab
      exact (Option.some.inj hab).symm
    obtain ⟨ht', hl'⟩ := h.holder b rp hlive (List.ne_nil_of_mem hm)
    exact ih hlive ht' hl'

/-! ## Stores that touch no link -/

theorem Inv.tail : Inv { fs with allocs := fs.allocs.tail } hand :=
  { h with supplied := fun ok hok => h.supplied ok (List.mem_of_mem_tail hok) }

theorem kmalloc_eq : fs.kmalloc = (true, { fs with allocs := fs.allocs.tail }) := by
  obtain ⟨inodes, nextIno, allocs, freed⟩ := fs
  cases allocs with
  | nil => rfl
  | cons ok rest =>
    have hok : ok = true := h.supplied ok (List.mem_cons_self ..)
    simp [kmalloc, hok]

variable (hi : fs.inodes i = some ri)
include hi

/-- A store into a live inode leaves what was free and what is yet to be allocated as it is. -/
theorem Inv.heap_set (r : RamfsInode) :
    (∀ j, fs.nextIno ≤ j → (fs.set i r).inodes j = none) ∧
    ∀ e ∈ fs.freed, (fs.set i r).inodes e.1 = none ∧ e.1 < fs.nextIno ∧
      ∃ r, e.2 = some r ∧ r.nlink = 0 ∧ r.iCount = 0 := by
  have hnone : ∀ j, fs.inodes j = none → (fs.set i r).inodes j = none := by
    intro j hj
    rw [set_of_ne]
    · exact hj
    · rintro rfl
      rw [hj] at hi
      cases hi
  constructor
  · intro j hj
    exact hnone j (h.fresh j hj)
  · intro e he
    obtain ⟨h1, h2⟩ := h.freedIdle e he
    exact ⟨hnone e.1 h1, h2⟩

theorem Inv.root_set
    (hr : i = rootIno → r.type = ri.type ∧ r.parent = ri.parent ∧ r.nlink ≠ 0) :
    ∃ r0, (fs.set i r).inodes rootIno = some r0 ∧ r0.type = .dir ∧ r0.parent = none ∧ r0.nlink ≠ 0 := by
  obtain ⟨r0, h0, h1, h2, h3⟩ := h.root
  by_cases e : rootIno = i
  · subst e
    obtain rfl := Option.mem_unique hi h0
    obtain ⟨h4, h5, h6⟩ := hr rfl
    exact ⟨r, set_self .., h4.trans h1, h5.trans h2, h6⟩
  · exact ⟨r0, by rw [set_of_ne e, h0], h1, h2, h3⟩

/-- One inode is replaced: what its own fields have to keep, and what `hand` and `hand'` make up for. -/
theorem Inv.put
    (hroot : i = rootIno → r.type = ri.type ∧ r.parent = ri.parent ∧ r.nlink ≠ 0)
    (hdistinct : (r.children.map Prod.fst).Nodup) (hholder : r.children ≠ [] → r.type = .dir ∧ r.nlink ≠ 0)
    (hentry : ∀ n c, (n, c) ∈ r.children → (n, c) ∈ ri.children ∨
      c ≠ rootIno ∧ ∃ rc, fs.inodes c = some rc ∧ rc.nlink ≠ 0 ∧ (rc.type = .dir → rc.parent = some i))
    (hself : ∀ d, ri.nlink ≠ 0 → (ri.type = .dir → ri.parent = some d) → 0 < fs.namesOf i ∨ r.children ≠ ri.children →
      r.nlink ≠ 0 ∧ (r.type = .dir → r.parent = some d))
    (howed : namesIn r.children i + (if hand' = .nameless i then 1 else 0) + ri.owed i =
      namesIn ri.children i + (if hand = .nameless i then 1 else 0) + r.owed i)
    (hcount : ∀ c rc, c ≠ i → fs.inodes c = some rc → namesIn r.children c + (if hand' = .nameless c then 1 else 0) =
      namesIn ri.children c + (if hand = .nameless c then 1 else 0))
    (hhand : ∀ c, hand' = .nameless c → c ≠ rootIno ∧ ∃ rc, (fs.set i r).inodes c = some rc ∧ rc.nlink ≠ 0)
    (htoRoot : ∀ d rd, (fs.set i r).inodes d = some rd → rd.type = .dir → rd.nlink ≠ 0 → hand' ≠ .nameless d →
      Reaches (fs.set i r).parentOf d rootIno)
    (hidle : ∀ c, c ≠ i → hand = .idle c → hand' = .idle c) (hkept : r.nlink = 0 → r.iCount ≠ 0 ∨ hand' = .idle i) :
    (fs.set i r).Inv hand' := by
  obtain ⟨hfresh, hfreed⟩ := h.heap_set hi r
  refine ⟨h.unshared, h.supplied, hfresh, h.root_set hi hroot, fun x rx hx => ?_, fun x rx hx => ?_,
    fun x rx n y hx hm => ?_, fun x rx hx => ?_, hhand, htoRoot, fun x rx hx hz => ?_, hfreed, h.freedOnce⟩
  · rcases set_cases hx with ⟨rfl, rfl⟩ | ⟨-, hx⟩
    · exact hdistinct
    · exact h.distinct x rx hx
  · rcases set_cases hx with ⟨rfl, rfl⟩ | ⟨-, hx⟩
    · exact hholder
    · exact h.holder x rx hx
  · -- an entry there was before, or a new one of the inode itself
    obtain ⟨⟨hy, ry, h1, h2, h3⟩, hnamed⟩ : (y ≠ rootIno ∧ ∃ ry, fs.inodes y = some ry ∧ ry.nlink ≠ 0 ∧
        (ry.type = .dir → ry.parent = some x)) ∧ (0 < fs.namesOf y ∨ r.children ≠ ri.children) := by
      rcases set_cases hx with ⟨rfl, rfl⟩ | ⟨-, hx⟩
      · by_cases hmem : (n, y) ∈ ri.children
        · exact ⟨h.entry x ri n y hi hmem, Or.inl (namesOf_pos_of_entry (h.lt hi) hi hmem)⟩
        · exact ⟨(hentry n y hm).resolve_left hmem, Or.inr fun hc => hmem (hc ▸ hm)⟩
      · exact ⟨h.entry x rx n y hx hm, Or.inl (namesOf_pos_of_entry (h.lt hx) hx hm)⟩
    by_cases e : y = i
    · subst e
      obtain rfl := Option.mem_unique hi h1
      exact ⟨hy, r, set_self .., hself x h2 h3 hnamed⟩
    · exact ⟨hy, ry, by rw [set_of_ne e, h1], h2, h3⟩
  · have hsum := namesOf_set (h.lt hi) hi r x
    rcases set_cases hx with ⟨rfl, rfl⟩ | ⟨hne, hx⟩
    · have hold := h.count x ri hi
      omega
    · have hold := h.count x rx hx
      have hnew := hcount x rx hne hx
      omega
  · rcases set_cases hx with ⟨rfl, rfl⟩ | ⟨hne, hx⟩
    · exact hkept hz
    · exact (h.kept x rx hx hz).imp_right (hidle x hne)

/-- A store into an inode that leaves its type, links, parent and children alone. -/
theorem Inv.set_plain (ht : r.type = ri.type)
    (hl : r.nlink = ri.nlink) (hp : r.parent = ri.parent) (hc : r.children = ri.children)
    (hh : ∀ c, hand = .nameless c ↔ hand' = .nameless c)
    (hk : ∀ c, hand = .idle c → c ≠ i → hand' = .idle c) (hr : r.nlink = 0 → r.iCount ≠ 0 ∨ hand' = .idle i) :
    (fs.set i r).Inv hand' := by
  refine h.put hi ?_ (hc ▸ h.distinct i ri hi) ?_ (fun n c hm => Or.inl (hc ▸ hm))
    (fun d h1 h2 _ => ⟨by rwa [hl], by rwa [ht, hp]⟩) ?_ ?_ ?_ ?_ (fun c hne e => hk c e hne) hr
  · rintro rfl
    obtain ⟨r0, h0, -, -, h3⟩ := h.root
    obtain rfl := Option.mem_unique hi h0
    exact ⟨ht, hp, by rwa [hl]⟩
  · rw [hc, ht, hl]
    exact h.holder i ri hi
  · simp only [hc, hh i, RamfsInode.owed, ht, hl]
  · intro c rc _ _
    simp only [hc, hh c]
  · intro c hc'
    obtain ⟨h1, rc, h2, h3⟩ := h.inHand c ((hh c).2 hc')
    by_cases e : c = i
    · subst e
      obtain rfl := Option.mem_unique hi h2
      exact ⟨h1, r, set_self .., by rwa [hl]⟩
    · exact ⟨h1, rc, by rw [set_of_ne e, h2], h3⟩
  · intro d rd hd htype hlink hne
    rw [parentOf_set_same hi hp]
    have hne' : hand ≠ .nameless d := fun e => hne ((hh d).1 e)
    rcases set_cases hd with ⟨rfl, rfl⟩ | ⟨-, hd⟩
    · exact h.toRoot d ri hi (ht ▸ htype) (hl ▸ hlink) hne'
    · exact h.toRoot d rd hd htype hlink hne'

end

/-! ## Stores that change links -/

/-- The parent pointer of a directory without a name is set to a directory that is not below it. -/
theorem Inv.set_parent (h : fs.Inv (.nameless c)) (hc : fs.inodes c = some rc) (hd : Reaches fs.parentOf d rootIno)
    (hnot : ¬ Reaches fs.parentOf d c) (hr : r = { rc with parent := some d }) : (fs.set c r).Inv (.nameless c) := by
  obtain ⟨hroot, rc', hc', hlink⟩ := h.inHand c rfl
  obtain rfl := Option.mem_unique hc hc'
  have hchildren : r.children = rc.children := by rw [hr]
  have hnlink : r.nlink = rc.nlink := by rw [hr]
  have htype : r.type = rc.type := by rw [hr]
  refine h.put hc (fun e => absurd e hroot) (hchildren ▸ h.distinct c rc hc) ?_
    (fun n y hm => Or.inl (hchildren ▸ hm)) ?_ ?_ (fun _ _ _ _ => by rw [hchildren]) ?_ ?_ (fun _ _ => id) ?_
  · rw [hchildren, htype, hnlink]
    exact h.holder c rc hc
  · intro x _ _ hnamed
    refine ⟨by rwa [hnlink], fun hdir => ?_⟩
    -- a directory in hand has no entry anywhere
    rw [htype] at hdir
    have hcount := h.count c rc hc
    rw [if_pos rfl, Inv.owed_of_dir hdir hlink hroot] at hcount
    exact absurd (hnamed.resolve_right (not_not.2 hchildren)) (by omega)
  · rw [hchildren]
    simp only [RamfsInode.owed, hnlink, htype]
  · rintro x ⟨⟩
    exact ⟨hroot, r, set_self .., by rwa [hnlink]⟩
  · intro x rx hx hdir hl hne
    rw [parentOf_set, hr]
    rcases set_cases hx with ⟨rfl, rfl⟩ | ⟨-, hx⟩
    · exact absurd rfl hne
    · exact (h.toRoot x rx hx hdir hl hne).update hd hnot
  · intro hz
    rw [hnlink] at hz
    exact absurd hz hlink

/-- The link counter of an inode moves: up from a state where nothing is in hand, or down from one
where the inode misses a name. -/
theorem Inv.set_nlink (h : fs.Inv hand) {k : Nat} (hc : fs.inodes c = some rc)
    (hr : r = { rc with nlink := k }) (hroot : c ≠ rootIno) (hempty : k = 0 → rc.children = [])
    (hnamed : k = 0 → fs.namesOf c = 0)
    (howed : fs.namesOf c + (if hand' = .nameless c then 1 else 0) = r.owed c)
    (hself : hand' = .nameless c → k ≠ 0) (hhand : ∀ x, x ≠ c → hand ≠ .nameless x ∧ hand' ≠ .nameless x)
    (hidle : ∀ x, x ≠ c → hand = .idle x → hand' = .idle x) (hkept : k = 0 → rc.iCount ≠ 0 ∨ hand' = .idle c)
    (htoRoot : rc.type = .dir → k ≠ 0 → hand' ≠ .nameless c → Reaches fs.parentOf c rootIno) :
    (fs.set c r).Inv hand' := by
  have hchildren : r.children = rc.children := by rw [hr]
  have hparent : r.parent = rc.parent := by rw [hr]
  have hcount := h.count c rc hc
  refine h.put hc (fun e => absurd e hroot) (hchildren ▸ h.distinct c rc hc) ?_
    (fun n y hm => Or.inl (hchildren ▸ hm)) ?_ ?_ ?_ ?_ ?_ hidle (by rw [hr]; exact hkept)
  · intro hne
    rw [hchildren] at hne
    rw [hr]
    exact ⟨(h.holder c rc hc hne).1, fun hk => hne (hempty hk)⟩
  · intro d _ hd hn
    have hpos := hn.resolve_right (not_not.2 hchildren)
    rw [hr]
    refine ⟨fun hk => ?_, hd⟩
    have := hnamed hk
    omega
  · rw [hchildren]
    omega
  · intro x rx hne _
    rw [hchildren, if_neg (hhand x hne).1, if_neg (hhand x hne).2]
  · intro x hx
    by_cases e : x = c
    · subst e
      exact ⟨hroot, r, set_self .., by rw [hr]; exact hself hx⟩
    · exact absurd hx (hhand x e).2
  · intro x rx hx htype hl hne
    rw [parentOf_set_same hc hparent]
    rcases set_cases hx with ⟨rfl, rfl⟩ | ⟨hx', hx⟩
    · rw [hr] at htype hl
      exact htoRoot htype hl hne
    · exact h.toRoot x rx hx htype hl (hhand x hx').1

/-- The entries of a directory change: `hand` and `hand'` make up for the names that come and go. -/
theorem Inv.set_children (h : fs.Inv hand) {l : List (Name × Nat)} (hd : fs.inodes d = some rd)
    (hr : r = { rd with children := l }) (hnd : (l.map Prod.fst).Nodup) (hdir : rd.type = .dir) (hlink : rd.nlink ≠ 0)
    (hnew : ∀ n c, (n, c) ∈ l → (n, c) ∈ rd.children ∨
      c ≠ rootIno ∧ ∃ rc, fs.inodes c = some rc ∧ rc.nlink ≠ 0 ∧ (rc.type = .dir → rc.parent = some d))
    (hcount : ∀ c rc, fs.inodes c = some rc → namesIn l c + (if hand' = .nameless c then 1 else 0) =
      namesIn rd.children c + (if hand = .nameless c then 1 else 0))
    (hhand : ∀ c, hand' = .nameless c → c ≠ rootIno ∧ ∃ rc, fs.inodes c = some rc ∧ rc.nlink ≠ 0)
    (htoRoot : ∀ c rc, hand = .nameless c → fs.inodes c = some rc → rc.type = .dir → hand' ≠ .nameless c →
      Reaches fs.parentOf c rootIno)
    (hidle : ∀ c, hand = .idle c → hand' = .idle c) : (fs.set d r).Inv hand' := by
  have hchildren : r.children = l := by rw [hr]
  have hparent : r.parent = rd.parent := by rw [hr]
  have hnlink : r.nlink = rd.nlink := by rw [hr]
  have htype : r.type = rd.type := by rw [hr]
  refine h.put hd (fun _ => ⟨htype, hparent, by rwa [hnlink]⟩) (by rwa [hchildren])
    (fun _ => by rw [htype, hnlink]; exact ⟨hdir, hlink⟩) (by rwa [hchildren])
    (fun x h1 h2 _ => ⟨by rwa [hnlink], by rwa [htype, hparent]⟩) ?_
    (fun c rc _ hc => by rw [hchildren, hcount c rc hc])
    ?_ ?_ (fun c _ => hidle c) fun hz => absurd (hnlink ▸ hz) hlink
  · rw [hchildren, hcount d rd hd]
    simp only [RamfsInode.owed, htype, hnlink]
  · intro c hc
    obtain ⟨h1, rc, h2, h3⟩ := hhand c hc
    by_cases e : c = d
    · subst e
      exact ⟨h1, r, set_self .., by rwa [hnlink]⟩
    · exact ⟨h1, rc, by rw [set_of_ne e, h2], h3⟩
  · intro x rx hx hxdir hl hne
    rw [parentOf_set_same hd hparent]
    obtain ⟨rx', h1, h2, h3⟩ : ∃ rx', fs.inodes x = some rx' ∧ rx'.type = .dir ∧ rx'.nlink ≠ 0 := by
      rcases set_cases hx with ⟨rfl, rfl⟩ | ⟨-, hx⟩
      · exact ⟨rd, hd, hdir, hlink⟩
      · exact ⟨rx, hx, hxdir, hl⟩
    by_cases e : hand = .nameless x
    · exact htoRoot x rx' e h1 h2 hne
    · exact h.toRoot x rx' h1 h2 h3 e

/-! ## Allocating and freeing an inode -/

theorem Inv.namesOf_eq_zero (h : fs.Inv hand) (hc : fs.inodes c = none) : fs.namesOf c = 0 := by
  by_contra hne
  obtain ⟨d, rd, n, hd, hm⟩ := exists_entry_of_namesOf (Nat.pos_of_ne_zero hne)
  obtain ⟨-, rc, hrc, -⟩ := h.entry d rd n c hd hm
  rw [hc] at hrc
  cases hrc

theorem Inv.root_lt (h : fs.Inv hand) : rootIno < fs.nextIno := by
  obtain ⟨r, hr, -⟩ := h.root
  exact h.lt hr

theorem namesOf_alloc (hr : r.children = []) (c : Nat) :
    namesOf { fs.set fs.nextIno r with nextIno := fs.nextIno + 1 } c = fs.namesOf c := by
  unfold namesOf
  rw [Finset.sum_range_succ]
  have hlast : (fs.set fs.nextIno r).childrenOf fs.nextIno = [] := by
    rw [childrenOf_of_live (set_self ..), hr]
  have hlast' : namesIn ((fs.set fs.nextIno r).childrenOf fs.nextIno) c = 0 := by rw [hlast, namesIn_nil]
  refine (Nat.add_eq_left.2 hlast').trans ?_
  apply Finset.sum_congr rfl
  intro d hd
  have hne : d ≠ fs.nextIno := (Finset.mem_range.1 hd).ne
  have hsame : (fs.set fs.nextIno r).inodes d = fs.inodes d := set_of_ne hne
  simp only [childrenOf, hsame]

/-- A new inode is in hand until it has its name. -/
theorem Inv.alloc (h : fs.Inv .empty) (type : FileType) :
    Inv { fs.set fs.nextIno (ramfsInodeInit fs.nextIno type) with nextIno := fs.nextIno + 1 }
      (.nameless fs.nextIno) := by
  have hnone : fs.inodes fs.nextIno = none := h.fresh _ (Nat.le_refl _)
  have hlink : (ramfsInodeInit fs.nextIno type).nlink ≠ 0 := by
    unfold ramfsInodeInit
    split <;> simp
  have hroot : fs.nextIno ≠ rootIno := h.root_lt.ne'
  have hparent : (fs.set fs.nextIno (ramfsInodeInit fs.nextIno type)).parentOf = fs.parentOf := by
    rw [parentOf_set, update_eq_self_iff]
    simp [parentOf, hnone, ramfsInodeInit]
  have hnow : ∀ c rc, fs.inodes c = some rc →
    (fs.set fs.nextIno (ramfsInodeInit fs.nextIno type)).inodes c = some rc := by
    intro c rc hc
    rw [set_of_ne (h.lt hc).ne, hc]
  refine ⟨h.unshared, h.supplied, ?_, ?_, ?_, ?_, ?_, ?_, ?_, ?_, ?_, ?_, h.freedOnce⟩
  · intro j hj
    have hne : j ≠ fs.nextIno := by have : fs.nextIno + 1 ≤ j := hj; omega
    exact (set_of_ne hne).trans (h.fresh j (by have : fs.nextIno + 1 ≤ j := hj; omega))
  · obtain ⟨r0, h0, h1⟩ := h.root
    exact ⟨r0, hnow rootIno r0 h0, h1⟩
  · intro x rx hx
    rcases set_cases hx with ⟨rfl, rfl⟩ | ⟨-, hx⟩
    · simp [ramfsInodeInit]
    · exact h.distinct x rx hx
  · intro x rx hx hne
    rcases set_cases hx with ⟨rfl, rfl⟩ | ⟨-, hx⟩
    · exact absurd rfl hne
    · exact h.holder x rx hx hne
  · intro x rx n c hx hm
    rcases set_cases hx with ⟨rfl, rfl⟩ | ⟨-, hx⟩
    · cases hm
    · obtain ⟨hc, rc, h1, h2⟩ := h.entry x rx n c hx hm
      exact ⟨hc, rc, hnow c rc h1, h2⟩
  · intro c rc hc
    rw [namesOf_alloc rfl]
    rcases set_cases hc with ⟨rfl, rfl⟩ | ⟨hne, hc⟩
    · rw [h.namesOf_eq_zero hnone, if_pos rfl]
      unfold RamfsInode.owed ramfsInodeInit
      split <;> simp_all
    · rw [if_neg (by rintro ⟨⟩; exact hne rfl)]
      exact h.count c rc hc
  · rintro c ⟨⟩
    exact ⟨hroot, _, set_self .., hlink⟩
  · intro x rx hx htype hl hne
    have hne' : x ≠ fs.nextIno := by rintro rfl; exact hne rfl
    have hx' : fs.inodes x = some rx := (set_of_ne hne').symm.trans hx
    have hreach := h.toRoot x rx hx' htype hl (by simp)
    rw [← hparent] at hreach
    exact hreach
  · intro c rc hc hz
    rcases set_cases hc with ⟨rfl, rfl⟩ | ⟨hne, hc⟩
    · exact absurd hz hlink
    · exact Or.inl ((h.kept c rc hc hz).resolve_right (by simp))
  · intro e he
    obtain ⟨h1, h2, h3⟩ := h.freedIdle e he
    exact ⟨(set_of_ne h2.ne).trans h1, Nat.lt_succ_of_lt h2, h3⟩

theorem kfree_of_ne (h : i ≠ c) : (fs.kfree c).inodes i = fs.inodes i := update_of_ne h ..

@[simp] theorem kfree_self (fs : Ramfs) (c : Nat) : (fs.kfree c).inodes c = none := update_self ..

theorem kfree_cases (h : (fs.kfree c).inodes i = some ri) : i ≠ c ∧ fs.inodes i = some ri := by
  by_cases e : i = c
  · subst e
    rw [kfree_self] at h
    cases h
  · rw [kfree_of_ne e] at h
    exact ⟨e, h⟩

theorem namesOf_kfree (hlt : c < fs.nextIno) (hc : fs.inodes c = some rc) (he : rc.children = []) (x : Nat) :
    (fs.kfree c).namesOf x = fs.namesOf x := by
  have hsum := namesOf_update fs hlt none x
  rw [hc] at hsum
  simp only [entriesOf, he, namesIn_nil, Nat.add_zero] at hsum
  exact hsum

/-- An inode without names and users is freed. -/
theorem Inv.kfree (h : fs.Inv (.idle c)) (hc : fs.inodes c = some rc) (hz : rc.nlink = 0) (hu : rc.iCount = 0) :
    (fs.kfree c).Inv .empty := by
  have hlt := h.lt hc
  have hroot := h.ne_root hc hz
  have hempty := h.childless_of_unlinked hc hz
  have hnamed : fs.namesOf c = 0 := by
    have hcount := h.count c rc hc
    rw [owed_of_unlinked hz] at hcount
    omega
  have hnone : ∀ j, fs.inodes j = none → (fs.kfree c).inodes j = none := by
    intro j hj
    rw [kfree_of_ne]
    · exact hj
    · rintro rfl
      rw [hc] at hj
      cases hj
  refine ⟨h.unshared, h.supplied, fun j hj => hnone j (h.fresh j hj), ?_, ?_, ?_, ?_, ?_, by rintro x ⟨⟩, ?_,
    ?_, ?_, ?_⟩
  · obtain ⟨r0, h0, h1⟩ := h.root
    exact ⟨r0, by rw [kfree_of_ne hroot.symm, h0], h1⟩
  · intro x rx hx
    exact h.distinct x rx (kfree_cases hx).2
  · intro x rx hx
    exact h.holder x rx (kfree_cases hx).2
  · intro x rx n y hx hm
    have hx' := (kfree_cases hx).2
    obtain ⟨h1, ry, h2, h3⟩ := h.entry x rx n y hx' hm
    have hne : y ≠ c := by
      rintro rfl
      have := namesOf_pos_of_entry (h.lt hx') hx' hm
      omega
    exact ⟨h1, ry, by rw [kfree_of_ne hne, h2], h3⟩
  · intro x rx hx
    rw [namesOf_kfree hlt hc hempty]
    exact h.count x rx (kfree_cases hx).2
  · intro x rx hx htype hl _
    have hx' := (kfree_cases hx).2
    apply (h.toRoot x rx hx' htype hl (by simp)).congr
    intro a ha _
    -- the way up leads through linked directories, so not through `c`
    have hne : a ≠ c := by
      rintro rfl
      obtain ⟨ra, h1, -, h3⟩ := h.linked_of_reaches (by simp) ha hx' htype hl
      obtain rfl := Option.mem_unique hc h1
      exact h3 hz
    simp only [parentOf, kfree_of_ne hne]
  · intro x rx hx hx0
    obtain ⟨hne, hx'⟩ := kfree_cases hx
    exact Or.inl ((h.kept x rx hx' hx0).resolve_right (by rintro ⟨⟩; exact hne rfl))
  · intro e he
    rcases List.mem_cons.1 he with rfl | he
    · exact ⟨kfree_self .., hlt, rc, hc, hz, hu⟩
    · obtain ⟨h1, h2⟩ := h.freedIdle e he
      exact ⟨hnone e.1 h1, h2⟩
  · refine List.nodup_cons.2 ⟨?_, h.freedOnce⟩
    intro hmem
    obtain ⟨e, he, rfl⟩ := List.mem_map.1 hmem
    rw [(h.freedIdle e he).1] at hc
    cases hc

theorem freeInode_eq {depth : Nat} (hc : fs.inodes c = some rc) (he : rc.children = []) (hr : c ≠ rootIno) :
    freeInode (depth + 1) fs c = fs.kfree c := by
  unfold freeInode
  rw [childrenOf_of_live hc, he, if_neg hr]
  simp

/-- `inode_maybe_evict` does nothing, or it frees an inode that has no entry, no name and no user. -/
theorem inodeMaybeEvict_cases (h : fs.Inv (.idle c)) :
    (fs.inodeMaybeEvict c = fs ∧ fs.Inv .empty) ∨
      ∃ rc, fs.inodes c = some rc ∧ rc.children = [] ∧ rc.nlink = 0 ∧ rc.iCount = 0 ∧
        fs.inodeMaybeEvict c = fs.kfree c := by
  -- nobody idle is left when `c` is dead or in use
  have hempty : (∀ rc, fs.inodes c = some rc → rc.nlink = 0 → rc.iCount ≠ 0) → fs.Inv .empty := by
    intro huse
    refine { h with count := ?_, inHand := by rintro x ⟨⟩, toRoot := ?_, kept := ?_ }
    · exact h.count
    · intro d rd hd ht hl _
      exact h.toRoot d rd hd ht hl (by simp)
    · intro x rx hx hz
      rcases h.kept x rx hx hz with hu | hu
      · exact Or.inl hu
      · cases hu
        exact Or.inl (huse rx hx hz)
  unfold inodeMaybeEvict
  split
  · next hc =>
    left
    exact ⟨rfl, hempty fun rc hrc => by rw [hc] at hrc; cases hrc⟩
  · next rc hc =>
    split_ifs with hu hz
    · left
      refine ⟨rfl, hempty fun rc' hrc _ => ?_⟩
      obtain rfl := Option.mem_unique hc hrc
      exact hu
    · left
      refine ⟨rfl, hempty fun rc' hrc hz' => ?_⟩
      obtain rfl := Option.mem_unique hc hrc
      exact absurd hz' hz
    · right
      have hz' : rc.nlink = 0 := by simpa using hz
      have hchildren := h.childless_of_unlinked hc hz'
      refine ⟨rc, hc, hchildren, hz', by simpa using hu, ?_⟩
      obtain ⟨m, hm⟩ : ∃ m, fs.nextIno = m + 1 := Nat.exists_eq_succ_of_ne_zero (by have := h.lt hc; omega)
      rw [hm]
      exact freeInode_eq hc hchildren (h.ne_root hc hz')

end Ramfs

end MiniOs.Fs
