/-
Following a parent pointer. `Reaches parent x r` says that the pointers lead from `x` to `r` in
finitely many steps. Hanging a node below a node that does not lie under it keeps everything that
reached the root reaching it.
-/
import Mathlib.Logic.Relation
import Mathlib.Logic.Function.Basic
import Mathlib.Data.Finset.Card
import Mathlib.Data.Finset.Range

namespace MiniOs.Library

/-- The parent pointers lead from the first node to the second. -/
def Reaches {α : Type} (parent : α → Option α) (x r : α) : Prop :=
  Relation.ReflTransGen (fun a b => parent a = some b) x r

section

variable {α : Type} {parent parent' : α → Option α} {x y r c q : α}

theorem Reaches.refl (x : α) : Reaches parent x x := Relation.ReflTransGen.refl

theorem Reaches.head (h : parent x = some y) (hr : Reaches parent y r) : Reaches parent x r :=
  Relation.ReflTransGen.head h hr

/-- A node that reaches another is that node or has a parent that reaches it. -/
theorem Reaches.cases (h : Reaches parent x r) : x = r ∨ ∃ y, parent x = some y ∧ Reaches parent y r :=
  (Relation.ReflTransGen.cases_head h).imp_right fun ⟨y, h1, h2⟩ => ⟨y, h1, h2⟩

theorem Reaches.mono (hp : ∀ a b, parent a = some b → parent' a = some b) (h : Reaches parent x r) :
    Reaches parent' x r :=
  Relation.ReflTransGen.mono hp _ _ h

/-- Only the pointers of the nodes on the way count. -/
theorem Reaches.congr (hp : ∀ a, Reaches parent x a → a ≠ r → parent' a = parent a) (h : Reaches parent x r) :
    Reaches parent' x r := by
  induction h using Relation.ReflTransGen.head_induction_on with
  | refl => exact Reaches.refl r
  | @head a b hab hbr ih =>
    by_cases e : a = r
    · rw [e]
      exact Reaches.refl r
    · refine Reaches.head (y := b) ?_ (ih fun z hz => hp z (Reaches.head hab hz))
      rw [hp a (Reaches.refl a) e]
      exact hab

/-- Below a node without parent the pointers make no cycle. -/
theorem Reaches.acyclic (h : Reaches parent x r) (hr : parent r = none) (hy : parent x = some y) :
    ¬ Reaches parent y x := by
  induction h using Relation.ReflTransGen.head_induction_on generalizing y with
  | refl =>
    rw [hr] at hy
    cases hy
  | @head a b hab _ ih =>
    obtain rfl := Option.mem_unique hab hy
    intro hba
    -- a cycle through `a` is one through its parent `b`
    rcases hba.cases with rfl | ⟨z, hz, hza⟩
    · exact ih hab (Reaches.refl _)
    · exact ih hz (hza.trans (Relation.ReflTransGen.single hab))

variable [DecidableEq α]

/-- A way that does not pass `c` is there whatever the pointer of `c` is. -/
theorem Reaches.update_of_not (h : Reaches parent x r) (hc : ¬ Reaches parent x c) (v : Option α) :
    Reaches (Function.update parent c v) x r := by
  apply Reaches.congr _ h
  intro a ha _
  apply Function.update_of_ne
  rintro rfl
  exact hc ha

/-- Hanging `c` below `q`, which is not below `c`. -/
theorem Reaches.update (h : Reaches parent x r) (hq : Reaches parent q r) (hc : ¬ Reaches parent q c) :
    Reaches (Function.update parent c (some q)) x r := by
  have hqr : Reaches (Function.update parent c (some q)) q r := hq.update_of_not hc _
  induction h using Relation.ReflTransGen.head_induction_on with
  | refl => exact Reaches.refl r
  | @head a b hab _ ih =>
    by_cases e : a = c
    · rw [e]
      exact Reaches.head (Function.update_self ..) hqr
    · exact Reaches.head ((Function.update_of_ne e ..).trans hab) ih

theorem Reaches.update_self (hq : Reaches parent q r) (hc : ¬ Reaches parent q c) :
    Reaches (Function.update parent c (some q)) c r :=
  Reaches.head (Function.update_self ..) (hq.update_of_not hc _)

end

/-! ## How many steps -/

/-- The node so many parents up. -/
def ancestor {α : Type} (parent : α → Option α) : Nat → α → Option α
  | 0, x => some x
  | n + 1, x => (parent x).bind (ancestor parent n)

variable {α : Type} {parent : α → Option α}

theorem Reaches.exists_ancestor {x r : α} (h : Reaches parent x r) :
    ∃ n, ancestor parent n x = some r := by
  induction h using Relation.ReflTransGen.head_induction_on with
  | refl => exact ⟨0, rfl⟩
  | @head a b hab _ ih =>
    obtain ⟨n, hn⟩ := ih
    refine ⟨n + 1, ?_⟩
    rw [ancestor, hab]
    exact hn

theorem ancestor_add (parent : α → Option α) : ∀ (m k : Nat) (x : α),
    ancestor parent (m + k) x = (ancestor parent m x).bind (ancestor parent k)
  | 0, k, x => by rw [Nat.zero_add]; rfl
  | m + 1, k, x => by
    rw [Nat.succ_add, ancestor, ancestor, Option.bind_assoc]
    congr 1
    funext y
    exact ancestor_add parent m k y

theorem reaches_of_ancestor :
    ∀ {n : Nat} {x a : α}, ancestor parent n x = some a → Reaches parent x a
  | 0, x, a, h => by cases h; exact Reaches.refl x
  | n + 1, x, a, h => by
    obtain ⟨y, hy, ha⟩ := Option.bind_eq_some_iff.1 h
    exact Reaches.head hy (reaches_of_ancestor ha)

/-- On the way up to a node without parent no node is passed twice, so the nodes there are bound its
length. -/
theorem Reaches.exists_ancestor_lt {x r : α} (hr : parent r = none)
    (h : Reaches parent x r) (s : Finset α) (hs : ∀ a, Reaches parent x a → a ∈ s) :
    ∃ n < s.card, ancestor parent n x = some r := by
  obtain ⟨n, hn⟩ := h.exists_ancestor
  refine ⟨n, ?_, hn⟩
  -- every step up to the n-th arrives somewhere
  have hsome : ∀ i ≤ n, ∃ a, ancestor parent i x = some a := by
    intro i hi
    rw [← Nat.add_sub_cancel' hi, ancestor_add] at hn
    obtain ⟨a, ha, _⟩ := Option.bind_eq_some_iff.1 hn
    exact ⟨a, ha⟩
  -- two equal arrivals would let the way go on past the end
  have hne : ∀ i j, i < j → j ≤ n → ancestor parent i x ≠ ancestor parent j x := by
    intro i j hij hj he
    have h1 : ancestor parent (i + (n - j)) x = some r := by
      rw [ancestor_add, he, ← ancestor_add, Nat.add_sub_cancel' hj]
      exact hn
    have h2 : ancestor parent (i + (n - j) + ((j - i - 1) + 1)) x = none := by
      rw [ancestor_add, h1, Option.bind_some, ancestor, hr]
      rfl
    rw [show i + (n - j) + ((j - i - 1) + 1) = n by omega, hn] at h2
    cases h2
  have hcard : (Finset.range (n + 1)).card ≤ (s.map Function.Embedding.some).card := by
    apply Finset.card_le_card_of_injOn fun i => ancestor parent i x
    · intro i hi
      obtain ⟨a, ha⟩ := hsome i (by simpa [Nat.lt_succ_iff] using hi)
      simp only [ha]
      simpa using hs a (reaches_of_ancestor ha)
    · intro i hi j hj he
      simp only [Finset.coe_range, Set.mem_Iio, Nat.lt_succ_iff] at hi hj
      rcases Nat.lt_trichotomy i j with hlt | heq | hlt
      · exact absurd he (hne i j hlt hj)
      · exact heq
      · exact absurd he.symm (hne j i hlt hi)
  rw [Finset.card_range, Finset.card_map] at hcard
  omega

end MiniOs.Library
