/-
The string of a list of components, taken apart again: the loops over a path see one component after
the other, and `path_parent_name` splits off the last one.
-/
import MiniOs.Fs.Path

namespace MiniOs.Fs

open Ramfs (skipSlash component)

/-- A component that a normalised path can have, of any length. -/
structure IsComponent (c : List UInt8) : Prop where
  ne_nil : c ≠ []
  no_slash : slash ∉ c
  ne_dot : c ≠ [dot]
  ne_dotdot : c ≠ [dot, dot]

theorem Name.isComponent_iff (n : Name) : n.isComponent = true ↔ IsComponent n.bytes := by
  constructor
  · intro h
    simp only [Name.isComponent, Name.isDotname, Bool.and_eq_true, Bool.not_eq_true', Bool.or_eq_false_iff,
      decide_eq_true_eq, decide_eq_false_iff_not] at h
    obtain ⟨⟨h1, h2⟩, h3, h4⟩ := h
    exact ⟨h1, by simpa using h2, h3, h4⟩
  · rintro ⟨h1, h2, h3, h4⟩
    simp [Name.isComponent, Name.isDotname, h1, h2, h3, h4]

/-- Components, each behind a slash. -/
def slashed (comps : List (List UInt8)) : List UInt8 := comps.flatMap fun c => slash :: c

@[simp] theorem slashed_nil : slashed [] = [] := rfl

@[simp] theorem slashed_cons (c : List UInt8) (cs : List (List UInt8)) : slashed (c :: cs) = slash ::
    (c ++ slashed cs) := by
  simp [slashed]

theorem slashed_append (cs ds : List (List UInt8)) : slashed (cs ++ ds) = slashed cs ++ slashed ds := by
  simp [slashed]

variable {cs : List (List UInt8)}

theorem slashed_eq_nil : slashed cs = [] ↔ cs = [] := by
  cases cs <;> simp

theorem renderPath_eq (cs : List (List UInt8)) : renderPath cs = if slashed cs = [] then [slash] else slashed cs := by
  unfold renderPath
  simp only [slashed_eq_nil]
  rfl

theorem renderPath_of_ne_nil (h : cs ≠ []) : renderPath cs = slashed cs := if_neg h

@[simp] theorem head?_renderPath (cs : List (List UInt8)) : (renderPath cs).head? = some slash := by
  cases cs <;> simp [renderPath]

theorem length_le_slashed : ∀ cs : List (List UInt8), cs.length ≤ (slashed cs).length
  | [] => Nat.le_refl _
  | c :: cs => by
    have ih := length_le_slashed cs
    simp only [slashed_cons, List.length_cons, List.length_append]
    omega

/-! ## From the front -/

variable {c n : List UInt8}

theorem component_append (hc : IsComponent c) (cs : List (List UInt8)) :
    component (c ++ slashed cs) = c := by
  unfold component
  rw [List.takeWhile_append_of_pos]
  · cases cs <;> simp
  · intro a ha
    have hne : a ≠ slash := by
      rintro rfl
      exact hc.no_slash ha
    simpa using hne

theorem skipSlash_component (hc : IsComponent c) (l : List UInt8) : skipSlash (c ++ l) = c ++ l := by
  unfold skipSlash
  obtain ⟨a, c', rfl⟩ := List.exists_cons_of_ne_nil hc.ne_nil
  have hne : a ≠ slash := by
    rintro rfl
    exact hc.no_slash (List.mem_cons_self ..)
  rw [List.cons_append, List.dropWhile_cons_of_neg (by simpa using hne)]

@[simp] theorem skipSlash_slashed (hc : IsComponent c) (cs : List (List UInt8)) :
    skipSlash (slashed (c :: cs)) = c ++ slashed cs := by
  have hskip : skipSlash (slash :: (c ++ slashed cs)) = skipSlash (c ++ slashed cs) := by simp [skipSlash]
  rw [slashed_cons, hskip, skipSlash_component hc]

theorem skipSlash_renderPath (hc : IsComponent c) (cs : List (List UInt8)) :
    skipSlash (renderPath (c :: cs)) = c ++ slashed cs := by
  rw [renderPath_of_ne_nil (by simp), skipSlash_slashed hc]

/-! ## From the end -/

theorem reverse_slashed_append (cs : List (List UInt8)) :
    (slashed (cs ++ [n])).reverse = n.reverse ++ slash :: (slashed cs).reverse := by
  rw [slashed_append, List.reverse_append]
  simp

theorem stripSlashes_slashed (hn : IsComponent n) (cs : List (List UInt8)) :
    stripSlashes (slashed (cs ++ [n])) = slashed (cs ++ [n]) := by
  unfold stripSlashes
  have hlast : n.reverse ≠ [] := by simpa using hn.ne_nil
  obtain ⟨a, m, hm⟩ := List.exists_cons_of_ne_nil hlast
  have hne : a ≠ slash := by
    rintro rfl
    refine hn.no_slash (List.mem_reverse.1 ?_)
    rw [hm]
    exact List.mem_cons_self ..
  rw [reverse_slashed_append, hm, List.cons_append, List.dropWhile_cons_of_neg (by simpa using hne), ← List.cons_append,
    ← hm, ← reverse_slashed_append, List.reverse_reverse]

theorem lastComponent_slashed (hn : IsComponent n) (cs : List (List UInt8)) :
    lastComponent (slashed (cs ++ [n])) = n := by
  unfold lastComponent
  rw [reverse_slashed_append, List.takeWhile_append_of_pos]
  · simp
  · intro a ha
    have hne : a ≠ slash := by
      rintro rfl
      exact hn.no_slash (List.mem_reverse.1 ha)
    simpa using hne

theorem pathParentName_renderPath (hn : IsComponent n)
    (hshort : (renderPath (cs ++ [n])).length < pathMax) :
    pathParentName (renderPath (cs ++ [n])) = .ok (renderPath cs, Name.clip n) := by
  have hne : cs ++ [n] ≠ [] := by simp
  have hs : slashed (cs ++ [n]) ≠ [] := fun h => hne (slashed_eq_nil.1 h)
  rw [renderPath_of_ne_nil hne] at hshort
  have hlen : (slashed (cs ++ [n])).length = (slashed cs).length + (n.length + 1) := by
    rw [slashed_append, List.length_append]
    simp
  have htake : (slashed (cs ++ [n])).take ((slashed (cs ++ [n])).length - n.length - 1) = slashed cs := by
    rw [hlen, slashed_append]
    have hcut : (slashed cs).length + (n.length + 1) - n.length - 1 = (slashed cs).length := by omega
    rw [hcut, List.take_left]
  unfold pathParentName
  rw [head?_renderPath, renderPath_of_ne_nil hne]
  simp only [ne_eq, not_true, if_false, stripSlashes_slashed hn, lastComponent_slashed hn, htake, if_neg hs]
  rw [if_neg (by omega), ← renderPath_eq]

theorem pathParentName_root : pathParentName (renderPath []) = .error .noent := rfl

/-! ## Paths from `getname_from_user_at` -/

theorem AbsPath.isComponent (p : AbsPath) : ∀ n ∈ p.comps, IsComponent n.bytes :=
  fun n hn => n.isComponent_iff.1 (p.valid n hn)

theorem Name.clip_bytes (n : Name) : Name.clip n.bytes = n := by
  cases n with
  | mk bytes short =>
    simp only [Name.clip, Name.mk.injEq]
    exact List.take_of_length_le short

/-- A path is the root, or it has a last component, and `path_parent_name` splits it off. -/
theorem AbsPath.cases (p : AbsPath) :
    (p.comps = [] ∧ pathParentName p.bytes = .error .noent) ∨
      ∃ (cs : List Name) (n : Name), p.comps = cs ++ [n] ∧ (∀ m ∈ cs, IsComponent m.bytes) ∧ IsComponent n.bytes ∧
        p.bytes = renderPath ((cs ++ [n]).map Name.bytes) ∧
        pathParentName p.bytes = .ok (renderPath (cs.map Name.bytes), n) := by
  rcases List.eq_nil_or_concat p.comps with h | ⟨cs, n, h⟩
  · left
    refine ⟨h, ?_⟩
    rw [AbsPath.bytes, h]
    exact pathParentName_root
  · right
    have h' : p.comps = cs ++ [n] := by simpa using h
    have hmem : ∀ m ∈ cs ++ [n], IsComponent m.bytes := by
      intro m hm
      exact p.isComponent m (h' ▸ hm)
    have hn : IsComponent n.bytes := hmem n (by simp)
    refine ⟨cs, n, h', fun m hm => hmem m (by simp [hm]), hn, by rw [AbsPath.bytes, h'], ?_⟩
    have hshort := p.short
    rw [h', List.map_append, List.map_singleton] at hshort
    rw [AbsPath.bytes, h', List.map_append, List.map_singleton, pathParentName_renderPath hn hshort, n.clip_bytes]

end MiniOs.Fs
