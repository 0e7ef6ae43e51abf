/-
A path as its components: what lies between the slashes, empty pieces included. The loops that skip the
slashes and take the bytes up to the next one are folds over them.
-/
import MiniOs.Proofs.Fs.Path
import Mathlib.Data.List.Induction

namespace MiniOs.Fs

open Ramfs (skipSlash component)

/-! ## Splitting -/

theorem splitOn_append (l m : List UInt8) : (l ++ slash :: m).splitOn slash = l.splitOn slash ++ m.splitOn slash :=
  List.splitOnP_append_cons l m (by simp)

theorem splitOn_single {c : List UInt8} (hc : slash ∉ c) : c.splitOn slash = [c] := by
  refine List.splitOnP_eq_singleton fun a ha => ?_
  have hne : a ≠ slash := by
    rintro rfl
    exact hc ha
  simpa using hne

theorem splitOn_slash_cons (l : List UInt8) : (slash :: l).splitOn slash = [] :: l.splitOn slash :=
  splitOn_append [] l

theorem component_no_slash (p : List UInt8) : slash ∉ component p :=
  fun hm => by simpa using List.all_eq_true.1 (List.all_takeWhile (p := (· ≠ slash)) (l := p)) slash hm

/-- A path is one component, or a component, a slash and the rest. -/
theorem component_cases : ∀ p : List UInt8, p = component p ∨ ∃ l, p = component p ++ slash :: l
  | [] => .inl rfl
  | a :: p => by
    by_cases h : a = slash
    · subst h
      exact .inr ⟨p, by simp [component]⟩
    · have hcons : component (a :: p) = a :: component p := List.takeWhile_cons_of_pos (by simpa using h)
      rw [hcons]
      rcases component_cases p with hp | ⟨l, hp⟩
      · exact .inl (congrArg (a :: ·) hp)
      · exact .inr ⟨l, congrArg (a :: ·) hp⟩

/-- The first component, and what follows it. -/
theorem splitOn_component (p : List UInt8) :
    (p.drop (component p).length = [] ∧ p.splitOn slash = [component p]) ∨
      ∃ l, p.drop (component p).length = slash :: l ∧ p.splitOn slash = component p :: l.splitOn slash := by
  have hno := component_no_slash p
  rcases component_cases p with hp | ⟨l, hp⟩
  · left
    generalize component p = c at hp hno ⊢
    subst hp
    exact ⟨List.drop_length, splitOn_single hno⟩
  · right
    generalize component p = c at hp hno ⊢
    subst hp
    exact ⟨l, List.drop_left, by rw [splitOn_append, splitOn_single hno, List.singleton_append]⟩

theorem no_slash_of_mem_splitOn {c : List UInt8} : ∀ (n : Nat) {p : List UInt8}, p.length ≤ n →
    c ∈ p.splitOn slash → slash ∉ c
  | n, p, hlen, hc => by
    have hno := component_no_slash p
    rcases splitOn_component p with ⟨hdrop, hp⟩ | ⟨l, hdrop, hp⟩
    · rw [hp, List.mem_singleton] at hc
      rwa [hc]
    · rw [hp, List.mem_cons] at hc
      rcases hc with rfl | hc
      · exact hno
      · have hl : (p.drop (component p).length).length = l.length + 1 := by rw [hdrop, List.length_cons]
        rw [List.length_drop] at hl
        match n, hlen with
        | n + 1, hlen => exact no_slash_of_mem_splitOn n (by omega) hc
        | 0, hlen => omega

theorem mem_splitOn_rest {c p : List UInt8} (h : c ∈ (p.drop (component p).length).splitOn slash) : c = [] ∨
    c ∈ p.splitOn slash := by
  rcases splitOn_component p with ⟨hdrop, hp⟩ | ⟨l, hdrop, hp⟩
  · rw [hdrop] at h
    exact .inl (by simpa using h)
  · rw [hdrop, splitOn_slash_cons, List.mem_cons] at h
    rw [hp]
    exact h.imp_right (List.mem_cons_of_mem _)

theorem splitOn_skipSlash : ∀ p : List UInt8, ∃ k, p.splitOn slash = List.replicate k [] ++ (skipSlash p).splitOn slash
  | [] => ⟨0, rfl⟩
  | a :: p => by
    by_cases e : a = slash
    · subst e
      have hskip : skipSlash (slash :: p) = skipSlash p := by simp [skipSlash]
      obtain ⟨k, hk⟩ := splitOn_skipSlash p
      refine ⟨k + 1, ?_⟩
      rw [splitOn_slash_cons, hskip, hk]
      rfl
    · exact ⟨0, by rw [skipSlash, List.dropWhile_cons_of_neg (by simpa using e)]; rfl⟩

theorem lastComponent_append (c l : List UInt8) : lastComponent (c ++ slash :: l) = lastComponent l := by
  unfold lastComponent
  rw [List.reverse_append, List.reverse_cons, List.append_assoc, List.singleton_append]
  congr 1
  induction l.reverse with
  | nil => simp
  | cons a l ih =>
    by_cases e : a = slash
    · simp [e]
    · rw [List.cons_append, List.takeWhile_cons_of_pos (by simpa using e),
        List.takeWhile_cons_of_pos (by simpa using e), ih]

theorem lastComponent_single {c : List UInt8} (h : slash ∉ c) : lastComponent c = c := by
  have hall : ∀ a ∈ c.reverse, decide (a ≠ slash) = true := by
    intro a ha
    have hne : a ≠ slash := by
      rintro rfl
      exact h (List.mem_reverse.1 ha)
    simpa using hne
  rw [lastComponent, ← List.append_nil c.reverse, List.takeWhile_append_of_pos hall]
  simp

/-- The last component is the last piece. -/
theorem lastComponent_eq {x : List UInt8} : ∀ (n : Nat) {p : List UInt8} {pre : List (List UInt8)}, p.length ≤ n →
    p.splitOn slash = pre ++ [x] → lastComponent p = x
  | n, p, pre, hlen, h => by
    have hno := component_no_slash p
    rcases component_cases p with hp | ⟨l, hp⟩
    · generalize component p = c at hp hno
      subst hp
      rw [splitOn_single hno] at h
      obtain rfl : p = x := by simpa using congrArg List.getLast? h
      exact lastComponent_single hno
    · generalize component p = c at hp hno
      subst hp
      rw [splitOn_append, splitOn_single hno] at h
      rw [List.length_append, List.length_cons] at hlen
      rw [lastComponent_append]
      have hne : l.splitOn slash ≠ [] := List.splitOnP_ne_nil _ _
      match n, hlen with
      | n + 1, hlen =>
        have hlast : (l.splitOn slash).getLast hne = x := by
          have h := congrArg List.getLast? h
          rw [List.getLast?_append_of_ne_nil _ hne, List.getLast?_concat, List.getLast?_eq_some_getLast hne] at h
          exact Option.some.inj h
        have hsplit : l.splitOn slash = (l.splitOn slash).dropLast ++ [x] := by
          rw [← hlast, List.dropLast_concat_getLast]
        exact lastComponent_eq n (by omega) hsplit

theorem component_ne_nil {p : List UInt8} (hp : p ≠ []) (hhead : p.head? ≠ some slash) : component p ≠ [] := by
  obtain ⟨a, l, rfl⟩ := List.exists_cons_of_ne_nil hp
  have hne : a ≠ slash := by simpa using hhead
  rw [component, List.takeWhile_cons_of_pos (by simpa using hne)]
  exact List.cons_ne_nil a _

theorem head?_skipSlash (p : List UInt8) : (skipSlash p).head? ≠ some slash := by
  intro h
  have := List.head?_dropWhile_not (· = slash) p
  rw [skipSlash] at h
  rw [h] at this
  simp at this

theorem splitOn_slashed : ∀ {cs : List (List UInt8)}, (∀ c ∈ cs, IsComponent c) → (slashed cs).splitOn slash = [] ::
    cs := by
  intro cs
  induction cs using List.reverseRecOn with
  | nil => intro _; rfl
  | append_singleton cs c ih =>
    intro h
    have hc : IsComponent c := h c (by simp)
    have hlast : slashed (cs ++ [c]) = slashed cs ++ slash :: c := by simp [slashed_append]
    rw [hlast, splitOn_append, ih fun d hd => h d (by simp [hd]), splitOn_single hc.no_slash]
    rfl

/-! ## Loops -/

section Loops

variable {m : Type → Type} {β : Type} [Monad m] [LawfulMonad m] {f : β → List UInt8 → m β}

theorem foldlM_replicate (hf : ∀ b, f b [] = pure b) (b : β) : ∀ k : Nat, (List.replicate k []).foldlM f b = pure b
  | 0 => rfl
  | k + 1 => by rw [List.replicate_succ, List.foldlM_cons, hf, pure_bind, foldlM_replicate hf b k]

/-- Where an empty piece does nothing, slashes may be skipped. -/
theorem foldlM_skipSlash (hf : ∀ b, f b [] = pure b) (b : β) (p : List UInt8) :
    ((skipSlash p).splitOn slash).foldlM f b = (p.splitOn slash).foldlM f b := by
  obtain ⟨k, hk⟩ := splitOn_skipSlash p
  rw [hk, List.foldlM_append, foldlM_replicate hf, pure_bind]

theorem foldlM_component (hf : ∀ b, f b [] = pure b) (b : β) (p : List UInt8) :
    (p.splitOn slash).foldlM f b =
      f b (component p) >>= fun b => ((p.drop (component p).length).splitOn slash).foldlM f b := by
  rcases splitOn_component p with ⟨hdrop, hp⟩ | ⟨l, hdrop, hp⟩
  · rw [hdrop, hp, List.foldlM_cons, List.splitOn_nil]
    simp [hf]
  · rw [hdrop, hp, List.foldlM_cons, splitOn_slash_cons]
    simp [hf]

end Loops

end MiniOs.Fs
