/-
What `path_resolve` computes: it goes over the components of the path, and its stack of bytes is the
rendering of a list of components. A relative name and the absolute one agree except where the length
test of the first push counts a slash that is already there.
-/
import MiniOs.Proofs.Fs.Components
import MiniOs.Proofs.Fs.PathBuffer

namespace MiniOs.Fs

open Ramfs (skipSlash component)
open Library

/-! ## Component by component -/

/-- What `..`, `.`, an empty component and a name do to a list of components. -/
def walkComponent (cs : List (List UInt8)) (c : List UInt8) : List (List UInt8) :=
  if c = [] ∨ c = [dot] then cs else if c = [dot, dot] then cs.dropLast else cs ++ [c]

/-- The components of a path, from a list of components on. -/
def walkPath (cs : List (List UInt8)) (path : List UInt8) : List (List UInt8) :=
  (path.splitOn slash).foldl walkComponent cs

/-- A round of `path_resolve`, for one component. -/
def resolveComponent (stack c : List UInt8) : Except Errno (List UInt8) :=
  if c = [] ∨ c = [dot] then .ok stack
  else if c = [dot, dot] then .ok (popComponent stack)
  else if stack.length + 1 + c.length ≥ pathMax then .error .nametoolong
  else .ok (pushComponent stack c)

theorem resolveComponent_nil (stack : List UInt8) : resolveComponent stack [] = .ok stack := by simp [resolveComponent]

/-- The loop of `path_resolve` goes over the components of the path. -/
theorem pathResolveLoop_eq : ∀ (n : Nat) (st : List UInt8) {p : List UInt8}, p.length ≤ n →
    pathResolveLoop n st p = (p.splitOn slash).foldlM resolveComponent st
  | 0, st, p, h => by
    obtain rfl : p = [] := List.eq_nil_of_length_eq_zero (Nat.le_zero.1 h)
    simp [pathResolveLoop, resolveComponent_nil]
  | n + 1, st, p, h => by
    have hlen : (skipSlash p).length ≤ n + 1 := Nat.le_trans (List.dropWhile_suffix _).length_le h
    have hhead := head?_skipSlash p
    rw [← foldlM_skipSlash resolveComponent_nil]
    simp only [pathResolveLoop]
    generalize skipSlash p = p at hlen hhead ⊢
    by_cases hp : p = []
    · rw [if_pos hp, hp]
      simp [resolveComponent_nil]
    have hne := component_ne_nil hp hhead
    have hdrop : (p.drop (component p).length).length ≤ n := by
      have hpos := List.length_pos_iff.2 hne
      rw [List.length_drop]
      omega
    rw [if_neg hp, foldlM_component resolveComponent_nil, resolveComponent]
    generalize component p = c at hne hdrop ⊢
    by_cases hdot : c = [dot]
    · rw [if_neg (by rw [hdot]; decide), if_pos hdot, if_pos (.inr hdot)]
      exact pathResolveLoop_eq n st hdrop
    have hname : ¬(c = [] ∨ c = [dot]) := by simp [hne, hdot]
    by_cases hdotdot : c = [dot, dot]
    · rw [if_neg (by rw [hdotdot]; decide), if_neg hdot, if_pos hdotdot, if_neg hname, if_pos hdotdot]
      exact pathResolveLoop_eq n (popComponent st) hdrop
    rw [if_neg hdot, if_neg hdotdot, if_neg hname, if_neg hdotdot]
    by_cases hroom : st.length + 1 + c.length ≥ pathMax
    · rw [if_pos hroom, if_pos hroom, ite_self]
      rfl
    · rw [if_neg hroom, if_neg hroom, if_neg fun hlong => hroom (Nat.le_trans hlong (Nat.le_add_left ..))]
      exact pathResolveLoop_eq n (pushComponent st c) hdrop

/-- The stack before the loop. -/
def startStack (base path : List UInt8) : List UInt8 := if path.head? = some slash then [] else strCopy base

/-- The path of a stack. -/
def stackPath (st : List UInt8) : List UInt8 := if st = [] then [slash] else strCopy st

theorem pathResolve_eq {base path : List UInt8} (hpath : path ≠ [])
    (habs : path.head? = some slash ∨ base.head? = some slash) :
    pathResolve base path = ((path.splitOn slash).foldlM resolveComponent (startStack base path)).map stackPath := by
  rw [pathResolve, if_neg hpath, if_neg fun h => habs.elim h.1 h.2, pathResolveLoop_eq _ _ (Nat.le_refl _), startStack]
  generalize List.foldlM resolveComponent _ _ = r
  cases r <;> rfl

/-! ## The stack as a list of components -/

/-- A normalised absolute path that fits into a buffer. -/
structure IsNormal (s : List UInt8) (cs : List (List UInt8)) : Prop where
  valid : ∀ c ∈ cs, IsComponent c
  render : s = renderPath cs
  short : s.length < pathMax

/-- The stack has these components; at the root it is empty, or it is the one slash of the base. -/
structure StackOf (st : List UInt8) (cs : List (List UInt8)) : Prop where
  valid : ∀ c ∈ cs, IsComponent c
  render : st = slashed cs ∨ cs = [] ∧ st = [slash]
  short : st.length < pathMax

theorem popComponent_slashed {c : List UInt8} (hc : IsComponent c) (cs : List (List UInt8)) :
    popComponent (slashed (cs ++ [c])) = slashed cs := by
  have hdrop : (c.reverse ++ slash :: (slashed cs).reverse).dropWhile (· ≠ slash) = slash :: (slashed cs).reverse := by
    rw [List.dropWhile_append_of_pos, List.dropWhile_cons_of_neg (by simp)]
    intro a ha
    have hne : a ≠ slash := by
      rintro rfl
      exact hc.no_slash (List.mem_reverse.1 ha)
    simpa using hne
  rw [popComponent, reverse_slashed_append, hdrop, List.drop_one, List.tail_cons, List.reverse_reverse]

variable {cs : List (List UInt8)}

theorem getLast?_slashed (h : ∀ c ∈ cs, IsComponent c) : (slashed cs).getLast? ≠ some slash := by
  rcases List.eq_nil_or_concat cs with rfl | ⟨cs, c, rfl⟩
  · simp
  · have hc : IsComponent c := h c (by simp)
    rw [← List.head?_reverse, List.concat_eq_append, reverse_slashed_append]
    obtain ⟨a, m, hm⟩ := List.exists_cons_of_ne_nil (l := c.reverse) (by simpa using hc.ne_nil)
    rw [hm, List.cons_append, List.head?_cons]
    rintro ⟨⟩
    exact hc.no_slash (List.mem_reverse.1 (by rw [hm]; exact List.mem_cons_self ..))

theorem pushComponent_slashed (h : ∀ c ∈ cs, IsComponent c) (c : List UInt8) :
    pushComponent (slashed cs) c = slashed (cs ++ [c]) := by
  rw [pushComponent, if_pos (.inr (getLast?_slashed h)), slashed_append]
  simp

theorem StackOf.push {st c : List UInt8} (h : StackOf st cs) (hc : IsComponent c)
    (hroom : st.length + 1 + c.length < pathMax) : StackOf (pushComponent st c) (cs ++ [c]) := by
  have hrender : pushComponent st c = slashed (cs ++ [c]) := by
    rcases h.render with rfl | ⟨rfl, rfl⟩
    · exact pushComponent_slashed h.valid c
    · simp [pushComponent]
  refine ⟨?_, .inl hrender, ?_⟩
  · simp only [List.mem_append, List.mem_singleton]
    rintro d (hd | rfl)
    · exact h.valid d hd
    · exact hc
  · unfold pushComponent
    split <;> simp only [List.length_append, List.length_singleton] <;> omega

theorem StackOf.pop {st : List UInt8} (h : StackOf st cs) : StackOf (popComponent st) cs.dropLast := by
  have hrender : popComponent st = slashed cs.dropLast := by
    rcases h.render with rfl | ⟨rfl, rfl⟩
    · rcases List.eq_nil_or_concat cs with rfl | ⟨cs, c, rfl⟩
      · rfl
      · rw [List.concat_eq_append, popComponent_slashed (h.valid c (by simp)), List.dropLast_concat]
    · rfl
  refine ⟨fun c hc => h.valid c ((List.dropLast_subset cs) hc), .inl hrender, ?_⟩
  obtain ⟨l, hl⟩ := popComponent_append st
  have hlen := h.short
  rw [hl, List.length_append] at hlen
  omega

theorem StackOf.component {st st' c : List UInt8} (h : StackOf st cs) (hc : slash ∉ c)
    (hstep : resolveComponent st c = .ok st') : StackOf st' (walkComponent cs c) := by
  unfold resolveComponent at hstep
  unfold walkComponent
  by_cases hskip : c = [] ∨ c = [dot]
  · rw [if_pos hskip] at hstep ⊢
    cases hstep
    exact h
  rw [if_neg hskip] at hstep ⊢
  by_cases hdotdot : c = [dot, dot]
  · rw [if_pos hdotdot] at hstep ⊢
    cases hstep
    exact h.pop
  rw [if_neg hdotdot] at hstep ⊢
  by_cases hroom : st.length + 1 + c.length ≥ pathMax
  · rw [if_pos hroom] at hstep
    cases hstep
  rw [if_neg hroom] at hstep
  cases hstep
  exact h.push ⟨fun e => hskip (.inl e), hc, fun e => hskip (.inr e), hdotdot⟩ (Nat.lt_of_not_le hroom)

theorem StackOf.components {st' : List UInt8} : ∀ {l : List (List UInt8)} {st : List UInt8} {cs : List (List UInt8)},
    StackOf st cs → (∀ c ∈ l, slash ∉ c) → l.foldlM resolveComponent st = .ok st' →
      StackOf st' (l.foldl walkComponent cs)
  | [], st, cs, h, _, hrun => by
    cases hrun
    exact h
  | c :: l, st, cs, h, hl, hrun => by
    rw [List.foldlM_cons] at hrun
    cases hstep : resolveComponent st c with
    | error e =>
      rw [hstep] at hrun
      cases hrun
    | ok st₁ =>
      rw [hstep] at hrun
      exact (h.component (hl c (by simp)) hstep).components (fun d hd => hl d (by simp [hd])) hrun

theorem StackOf.path {st : List UInt8} (h : StackOf st cs) : IsNormal (stackPath st) cs := by
  have hrender : stackPath st = renderPath cs := by
    rcases h.render with rfl | ⟨rfl, rfl⟩
    · rw [stackPath, renderPath_eq, strCopy_of_short h.short]
    · rfl
  refine ⟨h.valid, hrender, ?_⟩
  unfold stackPath
  split
  · decide
  · exact length_strCopy_lt st

theorem IsNormal.stack {s path : List UInt8} (h : IsNormal s cs) :
    StackOf (startStack s path) (if path.head? = some slash then [] else cs) := by
  unfold startStack
  by_cases hhead : path.head? = some slash
  · rw [if_pos hhead, if_pos hhead]
    exact ⟨by simp, .inl rfl, by decide⟩
  · rw [if_neg hhead, if_neg hhead, strCopy_of_short h.short]
    refine ⟨h.valid, ?_, h.short⟩
    rw [h.render]
    by_cases hcs : cs = []
    · exact .inr ⟨hcs, by rw [hcs]; rfl⟩
    · exact .inl (renderPath_of_ne_nil hcs)

/-! ## The normal form -/

/-- On a normalised base, a path that is resolved is the normal form of its components. -/
theorem pathResolve_normal {base path out : List UInt8} (hbase : IsNormal base cs)
    (h : pathResolve base path = .ok out) :
    IsNormal out (walkPath (if path.head? = some slash then [] else cs) path) := by
  have hpath : path ≠ [] := by
    rintro rfl
    cases h
  have habs : base.head? = some slash := by rw [hbase.render, head?_renderPath]
  rw [pathResolve_eq hpath (.inr habs)] at h
  cases hrun : (path.splitOn slash).foldlM resolveComponent (startStack base path) with
  | error e =>
    rw [hrun] at h
    cases h
  | ok st =>
    rw [hrun] at h
    cases h
    exact (hbase.stack.components (fun c hc => no_slash_of_mem_splitOn _ (Nat.le_refl _) hc) hrun).path

theorem pathResolve_dot {base : List UInt8} (hbase : IsNormal base cs) :
    pathResolve base [dot] = .ok base := by
  have habs : base.head? = some slash := by rw [hbase.render, head?_renderPath]
  have hne : base ≠ [] := by
    rintro rfl
    cases habs
  have hsplit : [dot].splitOn slash = [[dot]] := by decide
  have hstart : startStack base [dot] = base := by
    rw [startStack, if_neg (by decide), strCopy_of_short hbase.short]
  have hend : stackPath base = base := by rw [stackPath, if_neg hne, strCopy_of_short hbase.short]
  rw [pathResolve_eq (by simp) (.inr habs), hsplit, hstart, List.foldlM_cons, resolveComponent, if_pos (.inr rfl)]
  exact congrArg Except.ok hend

/-- The string of `path_resolve(out, ".")`. -/
def dotString : CString := ⟨[dot], by decide⟩

/-- `path_resolve` stores nothing outside of its buffers; on a normalised base, what it leaves in `out` is
the normal form of the components, and `.` resolves to it again. -/
theorem resolveBuffer_normalForm (stack comp : Buffer) (base path : CString) (out : Buffer) :
    resolveBuffer stack comp base path out ≠ none ∧
      ∀ (cs : List (List UInt8)) (out' : Buffer), IsNormal base.bytes cs →
        resolveBuffer stack comp base path out = some (.ok out') →
        ∃ s : CString, out'.Holds s.bytes ∧
          IsNormal s.bytes (walkPath (if path.bytes.head? = some slash then [] else cs) path.bytes) ∧
          ∀ stack comp out : Buffer, ∃ out'' : Buffer,
            resolveBuffer stack comp s dotString out = some (.ok out'') ∧ out''.Holds s.bytes := by
  have hagrees := resolveBuffer_agrees stack comp base path out
  constructor
  · intro hnone
    rw [hnone] at hagrees
    exact hagrees
  · intro cs out' hbase hrun
    rw [hrun] at hagrees
    cases hs : pathResolve base.bytes path.bytes with
    | error e =>
      rw [hs] at hagrees
      exact hagrees.elim
    | ok s =>
      rw [hs] at hagrees
      have hnormal := pathResolve_normal hbase hs
      refine ⟨⟨s, hagrees.2⟩, hagrees.1, hnormal, fun stack comp out => ?_⟩
      have hdot := resolveBuffer_agrees stack comp ⟨s, hagrees.2⟩ dotString out
      have hs' : pathResolve s dotString.bytes = .ok s := pathResolve_dot hnormal
      rw [hs'] at hdot
      match hr : resolveBuffer stack comp ⟨s, hagrees.2⟩ dotString out, hdot with
      | some (.ok out''), hdot => exact ⟨out'', rfl, hdot.1⟩

/-- `..` at `/a`, with zeroed buffers. -/
theorem resolveBuffer_normalForm_dotdot :
    ∃ out', resolveBuffer (fun _ => 0) (fun _ => 0) ⟨[slash, 97], by decide⟩ ⟨[dot, dot], by decide⟩ (fun _ => 0) =
        some (.ok out') ∧
      ∃ s : CString, out'.Holds s.bytes ∧ IsNormal s.bytes [] := by
  have hbase : IsNormal [slash, 97] [[97]] := ⟨by simpa using ⟨by decide, by decide, by decide, by decide⟩,
    rfl, by decide⟩
  refine ⟨_, rfl, ?_⟩
  obtain ⟨s, h1, h2, _⟩ := (resolveBuffer_normalForm (fun _ => 0) (fun _ => 0) ⟨[slash, 97], by decide⟩
    ⟨[dot, dot], by decide⟩ (fun _ => 0)).2 [[97]] _ hbase rfl
  exact ⟨s, h1, h2⟩

/-! ## Relative and absolute names -/

/-- The base, a slash where it does not end in one, and a relative name. -/
def joinPath (base p : List UInt8) : List UInt8 := if base = [slash] then base ++ p else base ++ slash :: p

/-- One of the components finds no room on the stack. -/
def overflows : List UInt8 → List (List UInt8) → Bool
  | _, [] => false
  | st, c :: cs =>
    if c = [] ∨ c = [dot] then overflows st cs
    else if c = [dot, dot] then overflows (popComponent st) cs
    else st.length + 1 + c.length ≥ pathMax || overflows (pushComponent st c) cs

/-- At the root: the first name has the one length that fits behind an empty stack and not behind a
slash, and the rest fits as well. -/
def rootRejects : List (List UInt8) → Bool
  | [] => false
  | c :: cs =>
    if c = [] ∨ c = [dot] then rootRejects cs
    else c ≠ [dot, dot] && c.length + 2 = pathMax && !overflows (slash :: c) cs

theorem foldlM_eq_overflows : ∀ (cs : List (List UInt8)) (st : List UInt8),
    (overflows st cs = true ∧ cs.foldlM resolveComponent st = .error .nametoolong) ∨
      (overflows st cs = false ∧ ∃ st', cs.foldlM resolveComponent st = .ok st')
  | [], st => .inr ⟨rfl, st, rfl⟩
  | c :: cs, st => by
    rw [List.foldlM_cons, overflows, resolveComponent]
    by_cases hskip : c = [] ∨ c = [dot]
    · rw [if_pos hskip, if_pos hskip]
      exact foldlM_eq_overflows cs st
    rw [if_neg hskip, if_neg hskip]
    by_cases hdotdot : c = [dot, dot]
    · rw [if_pos hdotdot, if_pos hdotdot]
      exact foldlM_eq_overflows cs (popComponent st)
    rw [if_neg hdotdot, if_neg hdotdot]
    by_cases hroom : st.length + 1 + c.length ≥ pathMax
    · rw [if_pos hroom, decide_eq_true hroom]
      exact .inl ⟨rfl, rfl⟩
    · rw [if_neg hroom, decide_eq_false hroom]
      exact foldlM_eq_overflows cs (pushComponent st c)

/-- Names are pushed one after the other, as long as there is room. -/
theorem foldlM_names : ∀ (cs ds : List (List UInt8)), (∀ c ∈ ds ++ cs, IsComponent c) → (slashed ds).length < pathMax →
    cs.foldlM resolveComponent (slashed ds) =
      if (slashed (ds ++ cs)).length < pathMax then .ok (slashed (ds ++ cs)) else .error .nametoolong
  | [], ds, _, hds => by
    rw [List.append_nil, if_pos hds]
    rfl
  | c :: cs, ds, hv, hds => by
    have hc : IsComponent c := hv c (by simp)
    have hlen : (slashed (ds ++ [c])).length = (slashed ds).length + 1 + c.length := by
      rw [slashed_append, List.length_append]
      simp
      omega
    have happ : ds ++ c :: cs = (ds ++ [c]) ++ cs := by simp
    rw [happ] at hv ⊢
    have hname : ¬(c = [] ∨ c = [dot]) := not_or.2 ⟨hc.ne_nil, hc.ne_dot⟩
    rw [List.foldlM_cons, resolveComponent, if_neg hname, if_neg hc.ne_dotdot]
    by_cases hroom : (slashed ds).length + 1 + c.length ≥ pathMax
    · rw [if_pos hroom, if_neg]
      · rfl
      · rw [slashed_append, List.length_append]
        omega
    · rw [if_neg hroom, pushComponent_slashed fun d hd => hv d (by simp [hd])]
      exact foldlM_names cs (ds ++ [c]) hv (by omega)

/-- The two stacks of the root: empty, and the slash of the base. -/
theorem foldlM_root_iff : ∀ cs : List (List UInt8),
    ((cs.foldlM resolveComponent [slash]).map stackPath = (cs.foldlM resolveComponent []).map stackPath) ↔
      rootRejects cs = false
  | [] => ⟨fun _ => rfl, fun _ => rfl⟩
  | c :: cs => by
    rw [List.foldlM_cons, List.foldlM_cons, rootRejects, resolveComponent, resolveComponent]
    by_cases hskip : c = [] ∨ c = [dot]
    · rw [if_pos hskip, if_pos hskip, if_pos hskip]
      exact foldlM_root_iff cs
    rw [if_neg hskip, if_neg hskip, if_neg hskip]
    by_cases hdotdot : c = [dot, dot]
    · rw [if_pos hdotdot, if_pos hdotdot, hdotdot]
      exact ⟨fun _ => rfl, fun _ => rfl⟩
    have hpush : pushComponent [slash] c = slash :: c ∧ pushComponent [] c = slash :: c := by simp [pushComponent]
    rw [if_neg hdotdot, if_neg hdotdot, hpush.1, hpush.2]
    simp only [List.length_singleton, List.length_nil]
    by_cases hedge : c.length + 2 = pathMax
    · -- Only the empty stack has room for the name.
      rw [if_pos (by omega), if_neg (by omega)]
      rcases foldlM_eq_overflows cs (slash :: c) with ⟨ho, hrun⟩ | ⟨ho, st, hrun⟩
      · simp [ho, hrun, bind, Except.bind, Except.map]
      · simp [ho, hrun, bind, Except.bind, Except.map, hedge, hdotdot]
    · by_cases hlong : c.length + 2 < pathMax
      · rw [if_neg (by omega), if_neg (by omega)]
        simp [hedge]
      · rw [if_pos (by omega), if_pos (by omega)]
        simp [hedge]

/-- The names agree: at a base that fits into a buffer unless it is the root and the first name has the
edge length; behind a longer base the absolute name is too long, and so must be the relative one. -/
def joinAgrees (base p : List UInt8) : Bool :=
  p ≠ [] &&
    if base.length < pathMax then base ≠ [slash] || !rootRejects (p.splitOn slash)
    else overflows (strCopy base) (p.splitOn slash)

/-- The absolute name, component by component. -/
theorem pathResolve_joinPath {base p : List UInt8} (hvalid : ∀ c ∈ cs, IsComponent c)
    (hbase : base = renderPath cs) (b : List UInt8) :
    pathResolve b (joinPath base p) =
      if (slashed cs).length < pathMax then ((p.splitOn slash).foldlM resolveComponent (slashed cs)).map stackPath
      else .error .nametoolong := by
  have hjoin : joinPath base p = slashed cs ++ slash :: p := by
    unfold joinPath
    by_cases hcs : cs = []
    · rw [hbase, hcs]
      rfl
    · obtain ⟨c, cs, rfl⟩ := List.exists_cons_of_ne_nil hcs
      have hc := hvalid c (by simp)
      rw [hbase, renderPath_of_ne_nil hcs, if_neg]
      simpa using fun h => absurd h hc.ne_nil
  have hhead : (joinPath base p).head? = some slash := by
    rw [hjoin]
    cases cs <;> simp
  have hne : joinPath base p ≠ [] := by
    intro h
    rw [h] at hhead
    cases hhead
  rw [pathResolve_eq hne (.inl hhead), startStack, if_pos hhead, hjoin, splitOn_append, splitOn_slashed hvalid,
    List.foldlM_append, List.foldlM_cons, resolveComponent_nil]
  have hnames := foldlM_names cs [] (by simpa using hvalid) (by decide)
  rw [slashed_nil, List.nil_append] at hnames
  simp only [bind, Except.bind, hnames]
  by_cases hroom : (slashed cs).length < pathMax
  · rw [if_pos hroom, if_pos hroom]
  · rw [if_neg hroom, if_neg hroom]
    rfl

/-- A relative name and the absolute one: where `path_resolve` gives the same for both. -/
theorem pathResolve_joinPath_iff {base p : List UInt8} {cs : List (List UInt8)} (hvalid : ∀ c ∈ cs, IsComponent c)
    (hbase : base = renderPath cs) (hp : p.head? ≠ some slash) (b : List UInt8) :
    pathResolve base p = pathResolve b (joinPath base p) ↔ joinAgrees base p = true := by
  have habs : base.head? = some slash := by rw [hbase, head?_renderPath]
  rw [pathResolve_joinPath hvalid hbase b, joinAgrees]
  by_cases hnil : p = []
  · subst hnil
    have hrun : ([].splitOn slash).foldlM resolveComponent (slashed cs) = .ok (slashed cs) := by
      rw [List.splitOn_nil, List.foldlM_cons, resolveComponent_nil]
      rfl
    rw [hrun]
    split <;> simp [pathResolve, Except.map]
  rw [pathResolve_eq hnil (.inr habs), startStack, if_neg hp]
  have hrel := foldlM_eq_overflows (p.splitOn slash) (strCopy base)
  by_cases hcs : cs = []
  · -- At the root the stack has a slash or nothing.
    subst hcs
    have hroot : base = [slash] := hbase
    subst hroot
    have hcopy : strCopy [slash] = [slash] := rfl
    rw [hcopy]
    simpa [hnil, show (1 : Nat) < pathMax by decide, show (0 : Nat) < pathMax by decide] using
      foldlM_root_iff (p.splitOn slash)
  · have hbase' : base = slashed cs := by rw [hbase, renderPath_of_ne_nil hcs]
    have hne : base ≠ [slash] := by
      obtain ⟨c, cs, rfl⟩ := List.exists_cons_of_ne_nil hcs
      have hc := hvalid c (by simp)
      rw [hbase']
      simpa using fun h => absurd h hc.ne_nil
    rw [← hbase']
    by_cases hlen : base.length < pathMax
    · rw [if_pos hlen, if_pos hlen, strCopy_of_short hlen]
      simp [hnil, hne]
    · rw [if_neg hlen, if_neg hlen]
      rcases hrel with ⟨ho, hrun⟩ | ⟨ho, st, hrun⟩
      · simp [hrun, ho, hnil, Except.map]
      · simp [hrun, ho, Except.map]

/-- `b` at the root. -/
theorem pathResolve_joinPath_at_root : pathResolve [slash] [98] = pathResolve [slash] (joinPath [slash] [98]) := by
  have hvalid : ∀ c ∈ ([] : List (List UInt8)), IsComponent c := by simp
  exact (pathResolve_joinPath_iff hvalid rfl (by decide) [slash]).2 (by decide)

/-- A name of 254 bytes at the root: as a relative path it is too long. -/
theorem pathResolve_ne_joinPath :
    pathResolve [slash] (List.replicate 254 97) = .error .nametoolong ∧
      pathResolve [slash] (joinPath [slash] (List.replicate 254 97)) = .ok (slash :: List.replicate 254 97) := by
  decide +kernel

end MiniOs.Fs
