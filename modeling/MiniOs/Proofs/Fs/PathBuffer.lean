/-
`path_resolve` over its buffers is `path_resolve` over lists of bytes: the stack holds the list at every
round, so that no store leaves a buffer, and the result is in `out`.
-/
import MiniOs.Fs.PathBuffer
import Mathlib.Data.List.Induction

namespace MiniOs.Fs

open Ramfs (skipSlash component)
open Library

/-- The string of the stack, at its index. -/
structure StackHolds (st : Buffer × Nat) (s : List UInt8) : Prop where
  holds : st.1.Holds s
  index : st.2 = s.length
  short : s.length < pathMax
  noNul : 0 ∉ s

/-- The string in `out`. -/
def OutHolds (out : Buffer) (s : List UInt8) : Prop := out.Holds s ∧ 0 ∉ s

/-- The results agree, and no store has left a buffer. -/
def Agrees {α : Type} (P : α → List UInt8 → Prop) : Option (Except Errno α) → Except Errno (List UInt8) → Prop
  | some (.ok a), .ok s => P a s
  | some (.error e), .error e' => e = e'
  | _, _ => False

theorem length_strCopy_lt (s : List UInt8) : (strCopy s).length < pathMax := by
  simp only [strCopy, List.length_take, pathMax]
  omega

theorem strCopyTo_holds (dst : Buffer) (src : List UInt8) : ∃ b, strCopyTo dst src = some b ∧
    b.Holds (strCopy src) := by
  obtain ⟨b₁, b₂, h1, h2, h3⟩ := Buffer.holds_storeAll dst (length_strCopy_lt src)
  refine ⟨b₂, ?_, h3⟩
  rw [strCopyTo, h1]
  exact h2

variable {s : List UInt8}

theorem strCopy_of_short (h : s.length < pathMax) : strCopy s = s :=
  List.take_of_length_le (by omega)

theorem noNul_strCopy (h : 0 ∉ s) : 0 ∉ strCopy s := fun hm => h (List.mem_of_mem_take hm)

/-! ## The stack -/

theorem popIndex_eq : ∀ {s : List UInt8} {stack : Buffer}, stack.Starts s →
    popIndex stack s.length = (s.reverse.dropWhile (· ≠ slash)).length := by
  intro s
  induction s using List.reverseRecOn with
  | nil => intro stack _; rfl
  | append_singleton s x ih =>
    intro stack h
    have hx : stack s.length = x := by simpa using h s.length (by simp)
    rw [List.length_append, List.length_singleton, popIndex, hx, List.reverse_append, List.reverse_singleton,
      List.singleton_append]
    by_cases e : x = slash
    · rw [if_neg (not_not.2 e), List.dropWhile_cons_of_neg (by simpa using e)]
      simp
    · rw [if_pos e, ih h.take, List.dropWhile_cons_of_pos (by simpa using e)]

theorem popComponent_append (s : List UInt8) : ∃ l, s = popComponent s ++ l := by
  have hsuffix : (s.reverse.dropWhile (· ≠ slash)).drop 1 <:+ s.reverse :=
    (List.drop_suffix 1 _).trans (List.dropWhile_suffix _)
  obtain ⟨l, hl⟩ := hsuffix
  refine ⟨l.reverse, ?_⟩
  rw [popComponent, ← List.reverse_append, hl, List.reverse_reverse]

variable {st : Buffer × Nat}

theorem StackHolds.pop (h : StackHolds st s) :
    ∃ st', popBuffer st.1 st.2 = some st' ∧ StackHolds st' (popComponent s) := by
  have hindex : popIndex st.1 st.2 - 1 = (popComponent s).length := by
    rw [h.index, popIndex_eq h.holds.starts]
    simp [popComponent]
  obtain ⟨l, hl⟩ := popComponent_append s
  have hshort : (popComponent s).length < pathMax := by
    have hlen := h.short
    rw [hl, List.length_append] at hlen
    omega
  have hstarts : st.1.Starts (popComponent s) := by
    refine Buffer.Starts.take (l := l) ?_
    rw [← hl]
    exact h.holds.starts
  refine ⟨_, by rw [popBuffer, hindex, Buffer.store_eq hshort]; rfl, hstarts.terminate, rfl, hshort, fun hm =>
    h.noNul ?_⟩
  rw [hl]
  exact List.mem_append_left _ hm

/-- The slash before a component: it is there, or it is stored. -/
theorem pushSlash_eq (h : StackHolds st s) :
    (st.2 = 0 ∨ st.1 (st.2 - 1) ≠ slash) ↔ (s = [] ∨ s.getLast? ≠ some slash) := by
  rw [h.index]
  rcases List.eq_nil_or_concat s with rfl | ⟨s', x, rfl⟩
  · simp
  · have hx : st.1 s'.length = x := by simpa using h.holds.starts s'.length (by simp)
    simp [hx]

theorem StackHolds.push {s c : List UInt8} (h : StackHolds st s) (hc : 0 ∉ c)
    (hroom : s.length + 1 + c.length < pathMax) :
    ∃ st', pushBuffer st.1 st.2 c = some st' ∧ StackHolds st' (pushComponent s c) := by
  -- What `pushBuffer` does once the slash is there.
  have hrest : ∀ (b : Buffer) (t : List UInt8), b.Starts t → 0 ∉ t → t.length + c.length < pathMax →
      ∃ st', ((b.storeAll pathMax t.length c).bind fun stack =>
        (stack.store pathMax (t.length + c.length) 0).map fun stack => (stack, t.length + c.length)) = some st' ∧
        StackHolds st' (t ++ c) := by
    intro b t hb ht hlen
    obtain ⟨b', he, hs⟩ := hb.storeAll (l := c) (Nat.le_of_lt hlen)
    have hlen' : (t ++ c).length < pathMax := by rwa [List.length_append]
    refine ⟨(Function.update b' (t ++ c).length 0, (t ++ c).length), ?_, hs.terminate, rfl, hlen', ?_⟩
    · rw [he, Option.bind_some, ← List.length_append, Buffer.store_eq hlen']
      rfl
    · simp [ht, hc]
  unfold pushBuffer pushComponent
  by_cases hslash : s = [] ∨ s.getLast? ≠ some slash
  · rw [if_pos ((pushSlash_eq h).2 hslash), if_pos hslash, h.index, Buffer.store_eq (by omega)]
    have hstarts := h.holds.starts.update (x := slash)
    have hnul : (0 : UInt8) ∉ s ++ [slash] := by simpa using ⟨h.noNul, by decide⟩
    simpa using hrest _ _ hstarts hnul (by simp only [List.length_append, List.length_singleton]; omega)
  · rw [if_neg fun hm => hslash ((pushSlash_eq h).1 hm), if_neg hslash, h.index]
    exact hrest _ _ h.holds.starts h.noNul (by omega)

/-! ## The component of a round -/

theorem noNul_skipSlash {p : List UInt8} (h : 0 ∉ p) : 0 ∉ skipSlash p :=
  fun hm => h ((List.dropWhile_suffix _).subset hm)

theorem take_component (p : List UInt8) : p.take (component p).length = component p :=
  (List.prefix_iff_eq_take.1 (List.takeWhile_prefix _)).symm

theorem noNul_component {p : List UInt8} (h : 0 ∉ p) : 0 ∉ component p :=
  fun hm => h ((List.takeWhile_prefix _).subset hm)

theorem isDot_iff {comp : Buffer} {c : List UInt8} (h : comp.Holds c) (hc : 0 ∉ c) :
    (comp 0 = dot ∧ comp 1 = 0) ↔ c = [dot] := by
  have hs := h.starts
  have hn := h.nul
  match c with
  | [] =>
    have h0 : comp 0 = 0 := hn
    simp [h0, dot]
  | [a] =>
    have h0 : comp 0 = a := hs 0 (by simp)
    simpa [h0] using fun _ => hn
  | a :: b :: c =>
    have h1 : comp 1 = b := hs 1 (by simp)
    have hb : b ≠ 0 := by
      rintro rfl
      simp at hc
    simp [h1, hb]

theorem isDotdot_iff {comp : Buffer} {c : List UInt8} (h : comp.Holds c) (hc : 0 ∉ c) :
    (comp 0 = dot ∧ comp 1 = dot ∧ comp 2 = 0) ↔ c = [dot, dot] := by
  have hs := h.starts
  have hn := h.nul
  match c with
  | [] =>
    have h0 : comp 0 = 0 := hn
    simp [h0, dot]
  | [a] =>
    have h1 : comp 1 = 0 := hn
    simp [h1, dot]
  | [a, b] =>
    have h0 : comp 0 = a := hs 0 (by simp)
    have h1 : comp 1 = b := hs 1 (by simp)
    simpa [h0, h1] using fun _ _ => hn
  | a :: b :: d :: c =>
    have h2 : comp 2 = d := hs 2 (by simp)
    have hd : d ≠ 0 := by
      rintro rfl
      simp at hc
    simp [h2, hd]

/-! ## The loop and the whole call -/

theorem resolveBufferLoop_agrees : ∀ (n : Nat) {comp : Buffer} {st : Buffer × Nat} {s p : List UInt8}, StackHolds st s →
    0 ∉ p → Agrees StackHolds (resolveBufferLoop comp n st.1 st.2 p) (pathResolveLoop n s p)
  | 0, _, _, _, _, h, _ => h
  | n + 1, comp, st, s, p, h, hp => by
    have hp' := noNul_skipSlash hp
    have hdrop : 0 ∉ (skipSlash p).drop (component (skipSlash p)).length := fun hm => hp' (List.mem_of_mem_drop hm)
    have hc := noNul_component hp'
    simp only [resolveBufferLoop, pathResolveLoop, take_component]
    by_cases hend : skipSlash p = []
    · rw [if_pos hend, if_pos hend]
      exact h
    rw [if_neg hend, if_neg hend]
    generalize component (skipSlash p) = c at hc hdrop ⊢
    by_cases hlong : c.length ≥ pathMax
    · rw [if_pos hlong, if_pos hlong]
      exact rfl
    rw [if_neg hlong, if_neg hlong]
    obtain ⟨b₁, b₂, h1, h2, h3⟩ := Buffer.holds_storeAll comp (Nat.lt_of_not_le hlong)
    rw [h1, Option.bind_some, h2, Option.bind_some, h3.starts.bytes_eq]
    simp only [isDot_iff h3 hc, isDotdot_iff h3 hc]
    by_cases hdot : c = [dot]
    · rw [if_pos hdot, if_pos hdot]
      exact resolveBufferLoop_agrees n h hdrop
    rw [if_neg hdot, if_neg hdot]
    by_cases hdotdot : c = [dot, dot]
    · obtain ⟨st', he, hst⟩ := h.pop
      rw [if_pos hdotdot, if_pos hdotdot, he]
      exact resolveBufferLoop_agrees n hst hdrop
    rw [if_neg hdotdot, if_neg hdotdot, h.index]
    by_cases hroom : s.length + 1 + c.length ≥ pathMax
    · rw [if_pos hroom, if_pos hroom]
      exact rfl
    obtain ⟨st', he, hst⟩ := h.push hc (Nat.lt_of_not_le hroom)
    rw [h.index] at he
    rw [if_neg hroom, if_neg hroom, he]
    exact resolveBufferLoop_agrees n hst hdrop

theorem startBuffer_holds (stack : Buffer) (base path : List UInt8) (h : 0 ∉ base) :
    ∃ st, startBuffer stack base path = some st ∧
      StackHolds st (if path.head? = some slash then [] else strCopy base) := by
  unfold startBuffer
  by_cases hhead : path.head? = some slash
  · rw [if_pos hhead, if_pos hhead, Buffer.store_eq (by decide)]
    exact ⟨_, rfl, (Buffer.starts_nil stack).terminate, rfl, by decide, by simp⟩
  · obtain ⟨b, he, hb⟩ := strCopyTo_holds stack base
    have hlen := length_strCopy_lt base
    have hnul := noNul_strCopy h
    rw [if_neg hhead, if_neg hhead, he]
    exact ⟨_, rfl, hb, congrArg List.length (hb.string_eq hnul hlen), hlen, hnul⟩

theorem copyOut_holds (h : StackHolds st s) (out : Buffer) :
    ∃ out', copyOut st.1 st.2 out = some out' ∧ OutHolds out' (if s = [] then [slash] else strCopy s) := by
  unfold copyOut
  rw [h.index]
  by_cases hs : s = []
  · rw [if_pos (List.length_eq_zero_iff.2 hs), if_pos hs]
    obtain ⟨b₁, b₂, h1, h2, h3⟩ := Buffer.holds_storeAll (s := [slash]) (n := pathMax) out (by decide)
    have hfirst : out.store pathMax 0 slash = some b₁ := by simpa [Buffer.storeAll] using h1
    refine ⟨b₂, ?_, h3, by decide⟩
    rw [hfirst]
    exact h2
  · rw [if_neg fun h => hs (List.length_eq_zero_iff.1 h), if_neg hs, h.holds.string_eq h.noNul h.short]
    obtain ⟨b, he, hb⟩ := strCopyTo_holds out s
    exact ⟨b, he, hb, noNul_strCopy h.noNul⟩

/-- Whatever the strings and the buffers: no store leaves a buffer, and `out` holds the path of the model. -/
theorem resolveBuffer_agrees (stack comp : Buffer) (base path : CString) (out : Buffer) :
    Agrees OutHolds (resolveBuffer stack comp base path out) (pathResolve base.bytes path.bytes) := by
  unfold resolveBuffer pathResolve
  by_cases hpath : path.bytes = []
  · rw [if_pos hpath, if_pos hpath]
    exact rfl
  rw [if_neg hpath, if_neg hpath]
  by_cases habs : path.bytes.head? ≠ some slash ∧ base.bytes.head? ≠ some slash
  · rw [if_pos habs, if_pos habs]
    exact rfl
  rw [if_neg habs, if_neg habs]
  obtain ⟨st, he, hst⟩ := startBuffer_holds stack base.bytes path.bytes base.noNul
  have hloop : Agrees StackHolds (resolveBufferLoop comp path.bytes.length st.1 st.2 path.bytes) _ :=
    resolveBufferLoop_agrees path.bytes.length hst path.noNul
  rw [he, Option.bind_some]
  generalize resolveBufferLoop comp path.bytes.length st.1 st.2 path.bytes = r at hloop ⊢
  generalize pathResolveLoop path.bytes.length _ path.bytes = r' at hloop ⊢
  match r, r' with
  | some (.ok st'), .ok s' =>
    obtain ⟨out', ho, hh⟩ := copyOut_holds hloop out
    simpa [Agrees, ho] using hh
  | some (.error e), .error e' => exact hloop

end MiniOs.Fs
