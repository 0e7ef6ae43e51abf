/-
Circular doubly linked lists with a head node, as linux/list.h has them: a node is its two links, a node on
no list points to itself, and a list is the ring that starts and ends at its head. `IsRing m h l` says that
the links `m` hold the nodes `l` in this order behind the head `h`; each operation has one lemma that says
which ring it leaves, and one that says which nodes it does not touch.
-/
import Mathlib.Data.List.Basic
import Mathlib.Data.List.Nodup
import Mathlib.Logic.Function.Basic

namespace MiniOs.Library

open Function

/-- The two links of every node. -/
structure Links (α : Type) where
  next : α → α
  prev : α → α

namespace Links

variable {α : Type} {m m' : Links α} {a b e h x y : α} {l l₁ l₂ : List α}

/-! ## Segments -/

/-- The nodes `l` stand between `a` and `b`, linked in both directions. -/
def Seg (m : Links α) (a : α) : List α → α → Prop
  | [], b => m.next a = b ∧ m.prev b = a
  | x :: l, b => m.next a = x ∧ m.prev x = a ∧ Seg m x l b

theorem seg_append : Seg m a (l₁ ++ x :: l₂) b ↔ Seg m a l₁ x ∧ Seg m x l₂ b := by
  induction l₁ generalizing a with
  | nil => simp [Seg, and_assoc]
  | cons y l₁ ih => simp [Seg, ih, and_assoc]

theorem Seg.next_eq (hs : Seg m a l b) : m.next a = l.head?.getD b := by
  cases l with
  | nil => exact hs.1
  | cons x l => exact hs.1

theorem Seg.prev_mem (hs : Seg m a l b) : m.prev b ∈ a :: l := by
  induction l generalizing a with
  | nil => simp [hs.2]
  | cons x l ih => exact List.mem_cons_of_mem _ (ih hs.2.2)

theorem Seg.congr (hs : Seg m a l b) (hn : ∀ x ∈ a :: l, m'.next x = m.next x)
    (hp : ∀ x ∈ l ++ [b], m'.prev x = m.prev x) : Seg m' a l b := by
  induction l generalizing a with
  | nil => exact ⟨by rw [hn a (by simp)]; exact hs.1, by rw [hp b (by simp)]; exact hs.2⟩
  | cons x l ih =>
    obtain ⟨h1, h2, h3⟩ := hs
    refine ⟨by rw [hn a (by simp)]; exact h1, by rw [hp x (by simp)]; exact h2, ih h3 ?_ ?_⟩
    · intro y hy
      exact hn y (List.mem_cons_of_mem _ hy)
    · intro y hy
      exact hp y (List.mem_cons_of_mem _ hy)

/-- The last node of a segment is made to point somewhere else. -/
theorem Seg.turn (hs : Seg m a l b) (hnd : (a :: l).Nodup) {b' : α} (hlast : m'.next (m.prev b) = b')
    (hback : m'.prev b' = m.prev b) (hn : ∀ x ∈ a :: l, x ≠ m.prev b → m'.next x = m.next x)
    (hp : ∀ x ∈ l, m'.prev x = m.prev x) : Seg m' a l b' := by
  induction l generalizing a with
  | nil =>
    rw [hs.2] at hlast hback
    exact ⟨hlast, hback⟩
  | cons x l ih =>
    obtain ⟨h1, h2, h3⟩ := hs
    -- `a` is not the last node, which stands behind it
    have ha : a ≠ m.prev b := by
      intro heq
      have := h3.prev_mem
      rw [← heq] at this
      exact (List.nodup_cons.1 hnd).1 this
    refine ⟨by rw [hn a (by simp) ha]; exact h1, by rw [hp x (by simp)]; exact h2, ih h3 hnd.of_cons ?_ ?_⟩
    · intro y hy
      exact hn y (List.mem_cons_of_mem _ hy)
    · intro y hy
      exact hp y (List.mem_cons_of_mem _ hy)

/-! ## Rings -/

/-- The list of head `h` holds the nodes `l`, in this order. -/
structure IsRing (m : Links α) (h : α) (l : List α) : Prop where
  seg : Seg m h l h
  nodup : (h :: l).Nodup

/-- The node is on no list. -/
def Alone (m : Links α) (a : α) : Prop := m.next a = a ∧ m.prev a = a

theorem isRing_nil_iff : IsRing m h [] ↔ m.Alone h := by
  constructor
  · exact fun hr => hr.seg
  · exact fun ha => ⟨ha, by simp⟩

theorem IsRing.congr (hr : IsRing m h l) (hn : ∀ x ∈ h :: l, m'.next x = m.next x)
    (hp : ∀ x ∈ h :: l, m'.prev x = m.prev x) : IsRing m' h l := by
  refine ⟨hr.seg.congr hn fun x hx => hp x ?_, hr.nodup⟩
  simp only [List.mem_append, List.mem_singleton] at hx
  rcases hx with hx | rfl <;> simp [*]

theorem IsRing.next_head (hr : IsRing m h l) : m.next h = l.head?.getD h := hr.seg.next_eq

theorem IsRing.next_mid (hr : IsRing m h (l₁ ++ e :: l₂)) : m.next e = l₂.head?.getD h :=
    (seg_append.1 hr.seg).2.next_eq

theorem IsRing.next_getElem (hr : IsRing m h l) {i : Nat} (hi : i < l.length) : m.next l[i] = l[i + 1]?.getD h := by
  have hcut : l.take i ++ l[i] :: l.drop (i + 1) = l := by rw [← List.drop_eq_getElem_cons hi, List.take_append_drop]
  rw [← hcut] at hr
  rw [hr.next_mid, List.head?_drop]

/-! ## The operations -/

variable [DecidableEq α]

def setNext (m : Links α) (a b : α) : Links α := { m with next := update m.next a b }

def setPrev (m : Links α) (a b : α) : Links α := { m with prev := update m.prev a b }

/-- `INIT_LIST_HEAD`. -/
def initListHead (m : Links α) (list : α) : Links α := (m.setNext list list).setPrev list list

/-- `__list_add`. -/
def listAddBetween (m : Links α) (new prev next : α) : Links α :=
  (((m.setPrev next new).setNext new next).setPrev new prev).setNext prev new

def listAddTail (m : Links α) (new head : α) : Links α := m.listAddBetween new (m.prev head) head

/-- `__list_del`. -/
def listDel (m : Links α) (prev next : α) : Links α := (m.setPrev next prev).setNext prev next

def listDelInit (m : Links α) (entry : α) : Links α := (m.listDel (m.prev entry) (m.next entry)).initListHead entry

def listEmpty (m : Links α) (head : α) : Bool := m.next head == head

def listIsLinked (m : Links α) (entry : α) : Bool := m.next entry != entry

theorem IsRing.listEmpty_iff (hr : IsRing m h l) : m.listEmpty h = true ↔ l = [] := by
  have hnd := hr.nodup
  unfold listEmpty
  rw [beq_iff_eq, hr.next_head]
  cases l with
  | nil => simp
  | cons x l =>
    simp only [List.head?_cons, Option.getD_some, reduceCtorEq, iff_false]
    rintro rfl
    simp at hnd

theorem IsRing.listIsLinked (hr : IsRing m h l) (he : e ∈ l) : m.listIsLinked e = true := by
  obtain ⟨l₁, l₂, rfl⟩ := List.append_of_mem he
  have hnd := hr.nodup
  unfold Links.listIsLinked
  rw [bne_iff_ne, hr.next_mid]
  cases l₂ with
  | nil =>
    rintro rfl
    simp at hnd
  | cons x l₂ =>
    rintro rfl
    simp [List.nodup_append] at hnd

theorem Alone.not_listIsLinked (ha : m.Alone e) : m.listIsLinked e = false := by
  simp [Links.listIsLinked, ha.1]

/-! ### Initialising -/

theorem initListHead_alone (m : Links α) (a : α) : (m.initListHead a).Alone a := by
  simp [Alone, initListHead, setNext, setPrev]

/-! ### Adding -/

theorem listAddTail_next (m : Links α) (x h : α) :
    (m.listAddTail x h).next = update (update m.next x h) (m.prev h) x := rfl

theorem listAddTail_prev (m : Links α) (x h : α) :
    (m.listAddTail x h).prev = update (update m.prev h x) x (m.prev h) := rfl

theorem IsRing.listAddTail (hr : IsRing m h l) (hx : x ∉ h :: l) : IsRing (m.listAddTail x h) h (l ++ [x]) := by
  have hlast := hr.seg.prev_mem
  have hxlast : x ≠ m.prev h := fun heq => hx (heq ▸ hlast)
  have hxh : h ≠ x := fun heq => hx (heq ▸ List.mem_cons_self)
  obtain ⟨hh, hl⟩ := List.nodup_cons.1 hr.nodup
  constructor
  · refine seg_append.2 ⟨hr.seg.turn hr.nodup ?_ ?_ ?_ ?_, ?_, ?_⟩
    · rw [listAddTail_next, update_self]
    · rw [listAddTail_prev, update_self]
    · intro y hy hne
      have hyx : y ≠ x := fun heq => hx (heq ▸ hy)
      rw [listAddTail_next, update_of_ne hne, update_of_ne hyx]
    · intro y hy
      have hyx : y ≠ x := fun heq => hx (heq ▸ List.mem_cons_of_mem _ hy)
      have hyh : y ≠ h := fun heq => hh (heq ▸ hy)
      rw [listAddTail_prev, update_of_ne hyx, update_of_ne hyh]
    · rw [listAddTail_next, update_of_ne hxlast, update_self]
    · rw [listAddTail_prev, update_of_ne hxh, update_self]
  · rw [← List.cons_append, ← List.concat_eq_append, List.nodup_concat]
    exact ⟨hx, hr.nodup⟩

theorem IsRing.listAddTail_frame (hr : IsRing m h l) (hy : y ∉ h :: l) (hne : y ≠ x) :
    (m.listAddTail x h).next y = m.next y ∧ (m.listAddTail x h).prev y = m.prev y := by
  have hlast : y ≠ m.prev h := fun heq => hy (heq ▸ hr.seg.prev_mem)
  have hyh : y ≠ h := fun heq => hy (heq ▸ List.mem_cons_self)
  rw [listAddTail_next, listAddTail_prev, update_of_ne hlast, update_of_ne hne,
    update_of_ne hne, update_of_ne hyh]
  exact ⟨rfl, rfl⟩

/-! ### Deleting -/

theorem listDelInit_next (m : Links α) (e y : α) :
    (m.listDelInit e).next y = if y = e then e else if y = m.prev e then m.next e else m.next y := by
  simp [listDelInit, initListHead, listDel, setNext, setPrev, update_apply]

theorem listDelInit_prev (m : Links α) (e y : α) :
    (m.listDelInit e).prev y = if y = e then e else if y = m.next e then m.prev e else m.prev y := by
  simp [listDelInit, initListHead, listDel, setNext, setPrev, update_apply]

theorem listDelInit_alone (m : Links α) (e : α) : (m.listDelInit e).Alone e := initListHead_alone _ _

/-- Around `e`, which stands between two segments. -/
theorem Seg.skip (h1 : Seg m a l₁ e) (h2 : Seg m e l₂ b) (hnd : (a :: (l₁ ++ e :: l₂)).Nodup) (hb : b ∉ l₁ ++ e :: l₂) :
    Seg (m.listDelInit e) a (l₁ ++ l₂) b := by
  have hnext := h2.next_eq
  have hmem : m.next e ∈ l₂ ++ [b] := by
    rw [hnext]
    cases l₂ <;> simp
  induction l₁ generalizing a with
  | nil =>
    obtain ⟨-, hprev⟩ := h1
    have hturn : (m.listDelInit e).next a = m.next e := by grind [listDelInit_next, List.nodup_cons]
    have hback : (m.listDelInit e).prev (m.next e) = a := by grind [listDelInit_prev, List.nodup_cons]
    rw [hnext] at hturn hback
    cases l₂ with
    | nil => exact ⟨hturn, hback⟩
    | cons x l₂ =>
      refine ⟨hturn, hback, h2.2.2.congr (fun y hy => ?_) fun y hy => ?_⟩
      · grind [listDelInit_next, List.nodup_cons]
      · grind [listDelInit_prev, List.nodup_cons]
  | cons x l₁ ih =>
    obtain ⟨h3, h4, h5⟩ := h1
    have hlast := h5.prev_mem
    refine ⟨?_, ?_, ih h5 hnd.of_cons fun h => hb (List.mem_cons_of_mem _ h)⟩
    · grind [listDelInit_next, List.nodup_cons]
    · grind [listDelInit_prev, List.nodup_cons]

theorem IsRing.listDelInit (hr : IsRing m h (l₁ ++ e :: l₂)) : IsRing (m.listDelInit e) h (l₁ ++ l₂) := by
  obtain ⟨hs1, hs2⟩ := seg_append.1 hr.seg
  refine ⟨hs1.skip hs2 hr.nodup (List.nodup_cons.1 hr.nodup).1, hr.nodup.sublist ?_⟩
  exact ((List.Sublist.refl l₁).append (List.sublist_cons_self e l₂)).cons_cons h

theorem IsRing.listDelInit_frame (hr : IsRing m h (l₁ ++ e :: l₂)) (hy : y ∉ h :: (l₁ ++ e :: l₂)) :
    (m.listDelInit e).next y = m.next y ∧ (m.listDelInit e).prev y = m.prev y := by
  obtain ⟨hs1, hs2⟩ := seg_append.1 hr.seg
  have hprev : m.prev e ∈ h :: (l₁ ++ e :: l₂) := by
    have := hs1.prev_mem
    simp only [List.mem_cons, List.mem_append] at this ⊢
    tauto
  have hnext : m.next e ∈ h :: (l₁ ++ e :: l₂) := by
    rw [hr.next_mid]
    cases l₂ <;> simp
  constructor
  · grind [listDelInit_next]
  · grind [listDelInit_prev]

end Links

end MiniOs.Library
