/-
Singly linked lists threaded through the nodes of a pointer heap. A list is a head cell and a
`next` field in every node; `Chain` relates the cells to the list of nodes they thread, and the
three operations kernel code performs on such lists (push at the head, pop the head, unlink a
node found by a walk over the cells) are shown to act on that list as `cons`, `tail` and `erase`.
-/
import Mathlib.Data.List.Nodup
import Mathlib.Logic.Function.Basic

namespace MiniOs.Library

open Function

/-- Following `next` from the pointer `h` visits exactly the nodes of the list, then stops. -/
def Chain {α : Type} (next : α → Option α) : Option α → List α → Prop
  | h, [] => h = none
  | h, a :: l => h = some a ∧ Chain next (next a) l

section Chain

variable {α : Type} {next next' : α → Option α} {h : Option α}

@[simp] theorem chain_nil : Chain next h [] ↔ h = none := Iff.rfl

@[simp] theorem chain_cons {a : α} {l : List α} :
    Chain next h (a :: l) ↔ h = some a ∧ Chain next (next a) l := Iff.rfl

/-- Only the `next` fields of the threaded nodes matter. -/
theorem Chain.congr : ∀ {l : List α} {h : Option α}, Chain next h l → (∀ a ∈ l, next' a = next a) → Chain next' h l
  | [], _, hc, _ => hc
  | a :: l, _, ⟨hh, hc⟩, he => by
    refine ⟨hh, ?_⟩
    rw [he a (List.mem_cons_self ..)]
    exact Chain.congr hc fun b hb => he b (List.mem_cons_of_mem _ hb)

/-- The head pointer determines the list. -/
theorem Chain.unique : ∀ {l m : List α} {h : Option α}, Chain next h l → Chain next h m → l = m
  | [], [], _, _, _ => rfl
  | [], _ :: _, _, h1, h2 => by rw [chain_nil] at h1; rw [chain_cons, h1] at h2; cases h2.1
  | _ :: _, [], _, h1, h2 => by rw [chain_nil] at h2; rw [chain_cons, h2] at h1; cases h1.1
  | a :: l, b :: m, _, ⟨e1, c1⟩, ⟨e2, c2⟩ => by
    obtain rfl : a = b := by rw [e1] at e2; exact Option.some.inj e2
    rw [Chain.unique c1 c2]

theorem Chain.head_mem {l : List α} {a : α} (h : Chain next (some a) l) : a ∈ l := by
  cases l with
  | nil => cases h
  | cons b l => obtain ⟨e, -⟩ := h; cases e; exact List.mem_cons_self ..

theorem Chain.eq_nil_iff {l : List α} (hc : Chain next h l) : h = none ↔ l = [] := by
  cases l with
  | nil => simpa using hc
  | cons a l => simp [hc.1]

end Chain

/-! ## Cells -/

/-- A list as the code stores it: the head cell and the `next` field of every node. -/
structure PtrList (α : Type) where
  head : Option α
  next : α → Option α

/-- A cell holding a list pointer: the address a `struct node **` walks over. -/
inductive Cell (α : Type)
  | head
  | next (a : α)
  deriving DecidableEq

namespace PtrList

variable {α : Type} [DecidableEq α]

/-- The list threaded through the cells. -/
def Holds (s : PtrList α) (l : List α) : Prop := Chain s.next s.head l

def read (s : PtrList α) : Cell α → Option α
  | .head => s.head
  | .next a => s.next a

def write (s : PtrList α) (v : Option α) : Cell α → PtrList α
  | .head => { s with head := v }
  | .next a => { s with next := update s.next a v }

/-- `node->next = head; head = node`. -/
def push (s : PtrList α) (a : α) : PtrList α :=
  { head := some a, next := update s.next a s.head }

/-- Walk the cells from `c`; at the first one that points to `b`, store `b`'s successor there.
`none` when the walk ends without meeting `b`. -/
def unlinkFrom (b : α) : Nat → Cell α → PtrList α → Option (PtrList α)
  | 0, _, _ => none
  | fuel + 1, c, s =>
    match s.read c with
    | none => none
    | some a => if a = b then some (s.write (s.next b) c) else unlinkFrom b fuel (.next a) s

/-- Unlink `b` from the list, walking at most `fuel` cells. -/
def unlink (s : PtrList α) (b : α) (fuel : Nat) : Option (PtrList α) := unlinkFrom b fuel .head s

/-! ## What the operations do to the threaded list -/

variable {s : PtrList α}

theorem push_holds {l : List α} {a : α} (h : s.Holds l) (ha : a ∉ l) :
    (s.push a).Holds (a :: l) := by
  refine ⟨rfl, ?_⟩
  simp only [push, update_self]
  exact h.congr fun b hb => update_of_ne (fun e : b = a => ha (e ▸ hb)) ..

theorem push_next_of_ne {a b : α} (h : b ≠ a) : (s.push a).next b = s.next b :=
  update_of_ne h ..

theorem read_write_self (s : PtrList α) (v : Option α) (c : Cell α) : (s.write v c).read c = v := by
  cases c <;> simp [read, write]

theorem read_write_of_ne {v : Option α} {c d : Cell α} (h : d ≠ c) :
    (s.write v c).read d = s.read d := by
  cases c <;> cases d <;> simp_all [read, write, update_of_ne]

theorem write_next_of_ne {v : Option α} {c : Cell α} {a : α} (h : .next a ≠ c) :
    (s.write v c).next a = s.next a :=
  read_write_of_ne (d := .next a) h

/-- The walk from a cell whose tail is `l`: it finds `b`, erases it from the tail, and writes
only that cell or the cells of nodes of `l`. -/
theorem unlinkFrom_spec (b : α) : ∀ (l : List α) (fuel : Nat) (c : Cell α) (s : PtrList α),
    Chain s.next (s.read c) l → l.Nodup → b ∈ l → l.length ≤ fuel → (∀ a ∈ l, c ≠ .next a) →
    ∃ s', unlinkFrom b fuel c s = some s' ∧ Chain s'.next (s'.read c) (l.erase b) ∧
      ∀ d, d ≠ c → (∀ a ∈ l, d ≠ .next a) → s'.read d = s.read d
  | [], _, _, _, _, _, hb, _, _ => by cases hb
  | a :: l, 0, _, _, _, _, _, hf, _ => by simp at hf
  | a :: l, fuel + 1, c, s, ⟨hr, hc⟩, hn, hb, hf, hcl => by
    unfold unlinkFrom
    rw [hr]
    by_cases hab : a = b
    · -- the walk stops here: the cell now points past `b`
      subst hab
      refine ⟨s.write (s.next a) c, by simp, ?_, fun d hd _ => read_write_of_ne hd⟩
      rw [read_write_self, List.erase_cons_head]
      refine hc.congr fun x hx => write_next_of_ne fun e => ?_
      exact hcl x (List.mem_cons_of_mem _ hx) e.symm
    · have hbl : b ∈ l := by simpa [Ne.symm hab] using hb
      obtain ⟨hal, hnl⟩ := List.nodup_cons.1 hn
      have hcl' : ∀ x ∈ l, Cell.next a ≠ .next x := by rintro x hx ⟨⟩; exact hal hx
      obtain ⟨s', h1, h2, h3⟩ := unlinkFrom_spec b l fuel (.next a) s hc hnl hbl
        (by simpa using hf) hcl'
      refine ⟨s', by simp [hab, h1], ?_, fun d hd hdl => h3 d (hdl a (by simp)) fun x hx => hdl x (by simp [hx])⟩
      have hread : s'.read c = some a := by
        rw [h3 c (hcl a (by simp)) fun x hx => hcl x (by simp [hx]), hr]
      rw [List.erase_cons_tail (by simpa using hab), hread]
      exact ⟨rfl, h2⟩

theorem unlink_spec {l : List α} {b : α} {fuel : Nat} (h : s.Holds l) (hn : l.Nodup)
    (hb : b ∈ l) (hf : l.length ≤ fuel) :
    ∃ s', s.unlink b fuel = some s' ∧ s'.Holds (l.erase b) ∧ ∀ a ∉ l, s'.next a = s.next a := by
  obtain ⟨s', h1, h2, h3⟩ := unlinkFrom_spec b l fuel .head s h hn hb hf (by simp)
  refine ⟨s', h1, h2, fun a ha => h3 (.next a) (by simp) fun x hx => ?_⟩
  rintro ⟨⟩; exact ha hx

/-- A walk that does not meet `b` changes nothing. -/
theorem unlinkFrom_none (b : α) : ∀ (l : List α) (fuel : Nat) (c : Cell α) (s : PtrList α),
    Chain s.next (s.read c) l → b ∉ l → unlinkFrom b fuel c s = none
  | _, 0, _, _, _, _ => rfl
  | [], fuel + 1, c, s, h, _ => by unfold unlinkFrom; rw [chain_nil.1 h]
  | a :: l, fuel + 1, c, s, ⟨hr, hc⟩, hb => by
    rw [List.mem_cons, not_or] at hb
    unfold unlinkFrom
    rw [hr]
    simp only [Ne.symm hb.1, if_false]
    exact unlinkFrom_none b l fuel (.next a) s hc hb.2

theorem unlink_none {l : List α} {b : α} {fuel : Nat} (h : s.Holds l) (hb : b ∉ l) :
    s.unlink b fuel = none :=
  unlinkFrom_none b l fuel .head s h hb

end PtrList

end MiniOs.Library
