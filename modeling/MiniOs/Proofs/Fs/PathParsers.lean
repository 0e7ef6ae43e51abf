/-
The two path parsers of ramfs, `ramfs_lookup_at` and `ramfs_lookup_parent`, as folds over the components
of a path. They differ at the end of the path: where it is not a name, a creating call enters its inode
in a directory that a lookup of the same path finds.
-/
import MiniOs.Proofs.Fs.Components
import MiniOs.Proofs.Fs.RamfsAllocs
import MiniOs.Proofs.Fs.RamfsLookup

namespace MiniOs.Fs

namespace Ramfs

variable {fs fs' : Ramfs} {d e : Nat} {n : Name} {path : List UInt8}

/-- One component of a path. -/
def stepAt (fs : Ramfs) (d : Nat) (c : List UInt8) : Option Nat :=
  if c = [] then some d
  else if ¬ fs.isDir d then none
  else if c = [dot] then some d
  else if c = [dot, dot] then some ((fs.parentOf d).getD d)
  else fs.findChild d (Name.clip c)

theorem stepAt_nil (fs : Ramfs) (d : Nat) : fs.stepAt d [] = some d := if_pos rfl

theorem stepAt_dot (h : fs.isDir d = true) : fs.stepAt d [dot] = some d := by simp [stepAt, h]

theorem stepAt_dotdot (h : fs.isDir d = true) : fs.stepAt d [dot, dot] = some ((fs.parentOf d).getD d) := by
  simp [stepAt, h]

variable {c : List UInt8}

theorem stepAt_name (h : fs.isDir d = true) (hc : c ≠ []) (h1 : c ≠ [dot]) (h2 : c ≠ [dot, dot]) :
    fs.stepAt d c = fs.findChild d (Name.clip c) := by
  simp [stepAt, h, hc, h1, h2]

/-- The components fit into names. -/
def Short (path : List UInt8) : Prop := ∀ c ∈ path.splitOn slash, c.length ≤ nameMax

theorem Short.component (h : Short path) : (component path).length ≤ nameMax := by
  apply h
  rcases splitOn_component path with ⟨-, hp⟩ | ⟨l, -, hp⟩ <;> simp [hp]

/-- What is left of the path after a component. -/
theorem Short.rest (h : Short path) : Short (path.drop (Ramfs.component path).length) := by
  intro c hc
  rcases mem_splitOn_rest hc with rfl | hc
  · simp
  · exact h c hc

theorem Short.skipSlash (h : Short path) : Short (skipSlash path) := by
  intro c hc
  obtain ⟨k, hk⟩ := splitOn_skipSlash path
  exact h c (by rw [hk]; exact List.mem_append_right _ hc)

theorem clip_bytes_of_short (h : c.length ≤ nameMax) : (Name.clip c).bytes = c :=
  List.take_of_length_le h

/-- Below something that is not a directory there is nothing. -/
theorem foldlM_stepAt_of_not_dir (h : fs.isDir d = false) (hp : path ≠ []) (hhead : path.head? ≠ some slash) :
    (path.splitOn slash).foldlM fs.stepAt d = none := by
  rw [foldlM_component fs.stepAt_nil, stepAt, if_neg (component_ne_nil hp hhead), if_pos (by simp [h])]
  rfl

theorem foldlM_stepAt_concat {pre : List (List UInt8)} {x : List UInt8} {d' : Nat}
    (h : pre.foldlM fs.stepAt d = some d') : (pre ++ [x]).foldlM fs.stepAt d = fs.stepAt d' x := by
  rw [List.foldlM_append, h]
  simp

/-- `ramfs_lookup_at` goes over the components. -/
theorem lookupAtLoop_eq (h : fs.Inv .empty) : ∀ (k : Nat) {d : Nat} {path : List UInt8}, fs.Linked d → path ≠ [] →
    path.head? ≠ some slash → Short path → path.length ≤ k →
    fs.lookupAtLoop k d path = (path.splitOn slash).foldlM fs.stepAt d
  | 0, _, path, _, hp, _, _, hlen => absurd (List.eq_nil_of_length_eq_zero (Nat.le_zero.1 hlen)) hp
  | k + 1, d, path, hd, hp, hhead, hshort, hlen => by
    have hc := component_ne_nil hp hhead
    have hbytes := clip_bytes_of_short hshort.component
    have hrest := hshort.rest.skipSlash
    have hrhead := head?_skipSlash (path.drop (component path).length)
    have hrlen : (skipSlash (path.drop (component path).length)).length ≤ k := by
      have hle := (List.dropWhile_suffix (p := (· = slash)) (l := path.drop (component path).length)).length_le
      have hpos := List.length_pos_iff.2 hc
      rw [List.length_drop] at hle
      unfold skipSlash
      omega
    have hdir := isDir_of_linked hd
    rw [foldlM_component fs.stepAt_nil, lookupAtLoop]
    simp only [hbytes, if_neg hc]
    simp only [← foldlM_skipSlash fs.stepAt_nil _ (path.drop (component path).length)]
    generalize skipSlash (path.drop (component path).length) = rest at hrest hrhead hrlen ⊢
    generalize component path = c at hc hbytes ⊢
    -- The rest from a linked directory on.
    have hnext : ∀ e, fs.Linked e →
        (if rest = [] then some e else fs.lookupAtLoop k e rest) = (rest.splitOn slash).foldlM fs.stepAt e := by
      intro e he
      by_cases hr : rest = []
      · simp [hr, stepAt_nil]
      · rw [if_neg hr]
        exact lookupAtLoop_eq h k he hr hrhead hrest hrlen
    by_cases hdot : c = [dot]
    · rw [if_pos hdot, hdot, stepAt_dot hdir]
      exact hnext d hd
    by_cases hdotdot : c = [dot, dot]
    · rw [if_neg hdot, if_pos hdotdot, hdotdot, stepAt_dotdot hdir]
      exact hnext _ (h.linked_parent hd)
    rw [if_neg hdot, if_neg hdotdot, stepAt_name hdir hc hdot hdotdot]
    cases hf : fs.findChild d (Name.clip c) with
    | none => rfl
    | some i =>
      by_cases hi : fs.isDir i = true
      · simpa [hi] using hnext i (h.linked_of_findChild hf hi)
      · by_cases hr : rest = []
        · simp [hr, stepAt_nil]
        · simp [hr, hi, foldlM_stepAt_of_not_dir (by simpa using hi) hr hrhead]

theorem lookup_eq (h : fs.Inv .empty) (habs : path.head? = some slash) (hshort : Short path) :
    fs.lookup path = (path.splitOn slash).foldlM fs.stepAt rootIno := by
  rw [lookup, if_pos habs, lookupAt, ← foldlM_skipSlash fs.stepAt_nil]
  by_cases hr : skipSlash path = []
  · simp [hr, stepAt_nil]
  · rw [if_neg hr]
    exact lookupAtLoop_eq h _ h.linked_root hr (head?_skipSlash path) hshort.skipSlash
      (List.dropWhile_suffix _).length_le

/-- `ramfs_lookup_parent` goes over the components before the last slash; the name is what stands behind
it, if something does. -/
theorem lookupParentLoop_split (h : fs.Inv .empty) : ∀ (k : Nat) {d e : Nat} {last l : Option (List UInt8)}
    {path : List UInt8},
    fs.Linked d → Short path → path.length < k → fs.lookupParentLoop k d last path = some (e, l) →
    ∃ pre x, path.splitOn slash = pre ++ [x] ∧ pre.foldlM fs.stepAt d = some e ∧ (x = [] ∨ l = some x)
  | 0, _, _, _, _, _, _, _, hlen, _ => absurd hlen (Nat.not_lt_zero _)
  | k + 1, d, e, last, l, path, hd, hshort, hlen, heq => by
    obtain ⟨m, hm⟩ := splitOn_skipSlash path
    have hskip := foldlM_replicate fs.stepAt_nil d m
    have hshort := hshort.skipSlash
    have hhead := head?_skipSlash path
    have hle : (skipSlash path).length ≤ path.length := (List.dropWhile_suffix _).length_le
    rw [lookupParentLoop] at heq
    simp only at heq
    rw [hm]
    generalize skipSlash path = path' at heq hshort hhead hle ⊢
    by_cases hp : path' = []
    · rw [if_pos hp] at heq
      cases heq
      exact ⟨List.replicate m [], [], by rw [hp]; rfl, hskip, .inl rfl⟩
    rw [if_neg hp] at heq
    have hc := component_ne_nil hp hhead
    have hrest := hshort.rest
    have hbytes := clip_bytes_of_short hshort.component
    have hpos := List.length_pos_iff.2 hc
    have hdir := isDir_of_linked hd
    rcases splitOn_component path' with ⟨hdrop, hsplit⟩ | ⟨r, hdrop, hsplit⟩
    · rw [if_pos hdrop] at heq
      cases heq
      exact ⟨List.replicate m [], component path', by rw [hsplit], hskip, .inr rfl⟩
    · rw [if_neg (by simp [hdrop])] at heq
      have hrlen : (path'.drop (component path').length).length < k := by
        have hr := congrArg List.length hdrop
        rw [List.length_drop, List.length_cons] at hr
        rw [List.length_drop]
        omega
      rw [hsplit]
      generalize component path' = c at hc hbytes hdrop hrest hrlen heq ⊢
      -- The rest from the directory of the component on.
      have hnext : ∀ d', fs.Linked d' → fs.stepAt d c = some d' →
          fs.lookupParentLoop k d' (some c) (path'.drop c.length) = some (e, l) →
          ∃ pre x, List.replicate m [] ++ c :: r.splitOn slash = pre ++ [x] ∧ pre.foldlM fs.stepAt d = some e ∧
            (x = [] ∨ l = some x) := by
        intro d' hd' hstep hrec
        obtain ⟨pre, x, hpre, hfold, hx⟩ := lookupParentLoop_split h k hd' hrest hrlen hrec
        rw [hdrop, splitOn_slash_cons] at hpre
        cases pre with
        | nil => simp at hpre
        | cons c' pre =>
          obtain ⟨hc', hpre'⟩ := List.cons.inj hpre
          subst hc'
          rw [List.foldlM_cons, stepAt_nil] at hfold
          refine ⟨List.replicate m [] ++ c :: pre, x, by rw [hpre']; simp, ?_, hx⟩
          rw [List.foldlM_append, hskip, pure_bind, List.foldlM_cons, hstep]
          exact hfold
      simp only [hbytes] at heq
      by_cases hdot : c = [dot]
      · rw [if_pos hdot] at heq
        exact hnext d hd (by rw [hdot, stepAt_dot hdir]) heq
      by_cases hdotdot : c = [dot, dot]
      · rw [if_neg hdot, if_pos hdotdot] at heq
        exact hnext _ (h.linked_parent hd) (by rw [hdotdot, stepAt_dotdot hdir]) heq
      rw [if_neg hdot, if_neg hdotdot] at heq
      cases hf : fs.findChild d (Name.clip c) with
      | none =>
        rw [hf] at heq
        cases heq
      | some i =>
        rw [hf] at heq
        by_cases hi : fs.isDir i = true
        · exact hnext i (h.linked_of_findChild hf hi) (by rw [stepAt_name hdir hc hdot hdotdot, hf])
            (by simpa [hi] using heq)
        · simp [hi] at heq

theorem lookupParent_split (h : fs.Inv .empty) (hshort : Short path) (heq : fs.lookupParent path = some (d, n)) :
    ∃ pre x, path.splitOn slash = pre ++ [x] ∧ pre.foldlM fs.stepAt rootIno = some d ∧ (x = [] ∨ n.bytes = x) := by
  unfold lookupParent at heq
  cases hloop : fs.lookupParentLoop (path.length + 1) rootIno none path with
  | none =>
    rw [hloop] at heq
    cases heq
  | some r =>
    obtain ⟨e, l⟩ := r
    obtain ⟨pre, x, hsplit, hfold, hx⟩ := lookupParentLoop_split h _ h.linked_root hshort (Nat.lt_succ_self _) hloop
    rw [hloop] at heq
    cases l with
    | none => cases heq
    | some last =>
      simp only at heq
      split_ifs at heq with hlast
      cases heq
      refine ⟨pre, x, hsplit, hfold, hx.imp_right fun e => ?_⟩
      exact Option.some.inj e

/-! ## After a creation -/

/-- A new entry changes no step that led somewhere. -/
theorem stepAt_kept {i : Nat} {m : Name} (h : fs.Inv .empty) (hdir : fs.isDir d = true → fs.Linked d)
    (hdoes : Does fs fs' fs.nextIno .empty (setEntry fs.findChild i m (some fs.nextIno)))
      (hfree : fs.findChild i m = none)
    (hstep : fs.stepAt d c = some e) : fs'.stepAt d c = some e ∧ (fs.isDir e = true → fs.Linked e) := by
  by_cases hc : c = []
  · rw [hc, stepAt_nil] at hstep ⊢
    cases hstep
    exact ⟨rfl, hdir⟩
  by_cases hd : fs.isDir d = true
  · obtain ⟨rd, hlive, ht, hl⟩ := hdir hd
    obtain ⟨r', hlive', -, ht', hpar⟩ := hdoes.spares d rd (h.lt hlive).ne hlive
    have hd' : fs'.isDir d = true := by simp [isDir_of_live hlive', ht', ht]
    by_cases hdot : c = [dot]
    · rw [hdot, stepAt_dot hd] at hstep
      cases hstep
      exact ⟨by rw [hdot, stepAt_dot hd'], hdir⟩
    by_cases hdotdot : c = [dot, dot]
    · rw [hdotdot, stepAt_dotdot hd] at hstep
      cases hstep
      have hsame : fs'.parentOf d = fs.parentOf d := by rw [parentOf_of_live hlive', parentOf_of_live hlive, hpar]
      exact ⟨by rw [hdotdot, stepAt_dotdot hd', hsame], fun _ => h.linked_parent (hdir hd)⟩
    rw [stepAt_name hd hc hdot hdotdot] at hstep
    refine ⟨?_, h.linked_of_findChild hstep⟩
    rw [stepAt_name hd' hc hdot hdotdot, hdoes.view, setEntry_of_ne, hstep]
    rintro ⟨rfl, rfl⟩
    rw [hfree] at hstep
    cases hstep
  · rw [stepAt, if_neg hc, if_pos (by simpa using hd)] at hstep
    cases hstep

theorem foldlM_stepAt_kept {i : Nat} {m : Name} (h : fs.Inv .empty)
    (hdoes : Does fs fs' fs.nextIno .empty (setEntry fs.findChild i m (some fs.nextIno)))
      (hfree : fs.findChild i m = none) :
    ∀ {cs : List (List UInt8)} {d e : Nat}, (fs.isDir d = true → fs.Linked d) → cs.foldlM fs.stepAt d = some e →
      cs.foldlM fs'.stepAt d = some e
  | [], _, _, _, hrun => hrun
  | c :: cs, d, e, hdir, hrun => by
    rw [List.foldlM_cons] at hrun ⊢
    cases hstep : fs.stepAt d c with
    | none =>
      rw [hstep] at hrun
      cases hrun
    | some d' =>
      rw [hstep] at hrun
      obtain ⟨hstep', hdir'⟩ := stepAt_kept h hdir hdoes hfree hstep
      rw [hstep']
      exact foldlM_stepAt_kept h hdoes hfree hdir' hrun

/-! ## The creating calls -/

theorem lookupAtLoop_withAllocs (fs : Ramfs) (l : List Bool) : ∀ (k d : Nat) (path : List UInt8),
    (fs.withAllocs l).lookupAtLoop k d path = fs.lookupAtLoop k d path
  | 0, _, _ => rfl
  | k + 1, d, path => by
    simp only [lookupAtLoop, lookupAtLoop_withAllocs fs l k]
    rfl

theorem lookup_withAllocs (fs : Ramfs) (l : List Bool) (path : List UInt8) :
    (fs.withAllocs l).lookup path = fs.lookup path := by
  simp only [lookup, lookupAt, lookupAtLoop_withAllocs]

theorem lookupParentLoop_withAllocs (fs : Ramfs) (l : List Bool) : ∀ (k d : Nat) (last : Option (List UInt8))
    (path : List UInt8), (fs.withAllocs l).lookupParentLoop k d last path = fs.lookupParentLoop k d last path
  | 0, _, _, _ => rfl
  | k + 1, d, last, path => by
    simp only [lookupParentLoop, lookupParentLoop_withAllocs fs l k]
    rfl

theorem lookupParent_withAllocs (fs : Ramfs) (l : List Bool) (path : List UInt8) :
    (fs.withAllocs l).lookupParent path = fs.lookupParent path := by
  simp only [lookupParent, lookupParentLoop_withAllocs]

theorem lookupParent_ne_nil (h : fs.lookupParent path = some (d, n)) : n.bytes ≠ [] := by
  unfold lookupParent at h
  split at h
  · cases h
  · cases h
  · split_ifs at h with hlast
    cases h
    exact hlast.1

/-- The calls that create an inode by its path. -/
inductive Maker
  | create (mode : UInt16)
  | mkdir
  | symlink (target : List UInt8)

namespace Maker

def run (mk : Maker) (fs : Ramfs) (path : List UInt8) : Except Errno (Option Nat) × Ramfs :=
  match mk with
  | .create mode => fs.create path mode
  | .mkdir => fs.mkdir path
  | .symlink target => fs.symlink path target

/-- How often a call allocates. -/
def allocations : Maker → Nat
  | .create _ => 2
  | .mkdir => 2
  | .symlink target => symlinkAllocs target

/-- The target of a link has room in a `char[PATH_MAX]`. -/
def fits : Maker → Bool
  | .create _ => true
  | .mkdir => true
  | .symlink target => target.length < pathMax

/-- A call is refused when there is no directory for the path, when the name is taken, when the target is
too long, or when an allocation fails. -/
def refused (mk : Maker) (fs : Ramfs) (path : List UInt8) : Bool :=
  !mk.fits || (fs.allocs.take mk.allocations).contains false ||
    match fs.lookupParent path with
    | none => true
    | some (d, n) => (fs.findChild d n).isSome

/-- The call's own view of the path: it creates in the directory that `ramfs_lookup_parent` finds. -/
def enterAt (mk : Maker) (fs : Ramfs) (d : Nat) (n : Name) : Except Errno (Option Nat) × Ramfs :=
  match mk with
  | .create mode => fs.makeNode d n .reg fun ri => ri.applyMode mode
  | .mkdir => fs.inodeMkdir d n 0o755
  | .symlink target => if (fs.findChild d n).isSome then (.error .exist, fs) else fs.inodeSymlink d n target

variable {mk : Maker}

theorem run_of_none (habs : path.head? = some slash) (h : fs.lookupParent path = none) :
    mk.run fs path = (.error .noent, fs) := by
  cases mk <;> simp [run, Ramfs.create, Ramfs.mkdir, Ramfs.symlink, habs, h]

theorem run_of_some (habs : path.head? = some slash) (h : fs.lookupParent path = some (d, n)) :
    mk.run fs path = mk.enterAt fs d n := by
  cases mk <;> simp [run, enterAt, Ramfs.create, Ramfs.mkdir, Ramfs.symlink, habs, h]

def type : Maker → FileType
  | .create _ => .reg
  | .mkdir => .dir
  | .symlink _ => .lnk

theorem enterAt_makes (h : fs.Inv .empty) (hd : fs.Linked d) (hn : n.bytes ≠ []) (hfree : fs.findChild d n = none)
    (hfits : mk.fits = true) : Makes fs d n mk.type (mk.enterAt fs d n) := by
  cases mk with
  | create mode => exact makeNode_makes h hd hfree .reg (plain_applyMode mode)
  | mkdir =>
    rw [enterAt, inodeMkdir, if_neg hn, if_neg (by simp [isDir_of_linked hd])]
    exact makeNode_makes h hd hfree .dir (plain_applyMode 0o755)
  | symlink target =>
    simp only [enterAt, hfree, Option.isSome_none, Bool.false_eq_true, if_false]
    exact inodeSymlink_makes h hd hn hfree (by simpa [fits] using hfits)

theorem enterAt_follows {r : Option Nat} (h : mk.enterAt (fs.withAllocs []) d n = (.ok r, fs')) (l : List Bool) :
    Follows mk.allocations l (mk.enterAt (fs.withAllocs l) d n) (.ok r, fs') := by
  have hdir : ∀ l, (fs.withAllocs l).isDir d = fs.isDir d := fun _ => rfl
  have hfind : ∀ l, (fs.withAllocs l).findChild d n = fs.findChild d n := fun _ => rfl
  cases mk with
  | create mode => exact makeNode_follows h l
  | mkdir =>
    simp only [enterAt, inodeMkdir, hdir] at h ⊢
    split_ifs at h ⊢ with h1 h2
    · cases h
    · exact makeNode_follows h l
    · cases h
  | symlink target =>
    simp only [enterAt, hfind] at h ⊢
    split_ifs at h ⊢ with h1
    · cases h
    · exact inodeSymlink_follows h l

theorem enterAt_of_taken (h : (fs.findChild d n).isSome = true) : ∃ e, (mk.enterAt fs d n).1 = .error e := by
  cases mk with
  | create mode => exact ⟨.exist, by rw [enterAt, makeNode, if_pos h]⟩
  | mkdir =>
    simp only [enterAt, inodeMkdir, makeNode, h, if_true]
    split_ifs
    · exact ⟨_, rfl⟩
    · exact ⟨_, rfl⟩
    · exact ⟨_, rfl⟩
  | symlink target => exact ⟨.exist, by rw [enterAt, if_pos h]⟩

theorem enterAt_of_long (h : mk.fits = false) : ∃ e, (mk.enterAt fs d n).1 = .error e := by
  cases mk with
  | create mode => cases h
  | mkdir => cases h
  | symlink target =>
    have hlong : target.length ≥ pathMax := by simpa [fits] using h
    simp only [enterAt, inodeSymlink, hlong, if_true]
    split_ifs
    · exact ⟨_, rfl⟩
    · exact ⟨_, rfl⟩
    · exact ⟨_, rfl⟩
    · exact ⟨_, rfl⟩

/-- What a call on a whole tree comes to. -/
theorem run_cases (mk : Maker) (h : fs.Tree) (habs : path.head? = some slash) :
    (mk.refused fs path = true ∧ ∃ e, (mk.run fs path).1 = .error e) ∨
      mk.refused fs path = false ∧ ∃ d n fs' rest, fs.lookupParent path = some (d, n) ∧ fs.findChild d n = none ∧
        mk.run fs path = (.ok (some fs.nextIno), fs'.withAllocs rest) ∧
        Does (fs.withAllocs []) fs' fs.nextIno .empty (setEntry fs.findChild d n (some fs.nextIno)) := by
  unfold refused
  cases hp : fs.lookupParent path with
  | none => exact .inl ⟨by simp, _, congrArg Prod.fst (run_of_none habs hp)⟩
  | some r =>
    obtain ⟨d, n⟩ := r
    rw [run_of_some habs hp]
    cases hf : fs.findChild d n with
    | some c => exact .inl ⟨by simp [hf], enterAt_of_taken (by simp [hf])⟩
    | none =>
      by_cases hfits : mk.fits = true
      · have hp' : (fs.withAllocs []).lookupParent path = some (d, n) := by rw [lookupParent_withAllocs, hp]
        obtain ⟨fs', hrun, -, -, hdoes⟩ :=
          enterAt_makes h (lookupParent_linked h hp') (lookupParent_ne_nil hp') hf hfits
        rcases enterAt_follows hrun fs.allocs with ⟨hgood, rest, heq⟩ | ⟨hbad, e, heq⟩
        · refine .inr ⟨by simp [hfits, hf, hgood], d, n, fs', rest, rfl, hf, heq, hdoes⟩
        · exact .inl ⟨by simp [hbad], e, heq⟩
      · exact .inl ⟨by simp [hfits], enterAt_of_long (by simpa using hfits)⟩

/-- What a creating call by path is for: the path led nowhere, and now it leads to the new inode. -/
def Creates (mk : Maker) (fs : Ramfs) (path : List UInt8) : Prop :=
  ∀ r, (mk.run fs path).1 = .ok r → fs.lookup path = none ∧ r = some fs.nextIno ∧ fs.inodes fs.nextIno = none ∧
    (mk.run fs path).2.lookup path = some fs.nextIno

end Maker

/-- The path ends in a name. -/
def endsInName (path : List UInt8) : Bool :=
  lastComponent path ≠ [] && lastComponent path ≠ [dot] && lastComponent path ≠ [dot, dot]

/-- Where the parsers agree: a call that is refused, or a path that ends in a name. -/
theorem maker_creates_iff (h : fs.Tree) (habs : path.head? = some slash) (hshort : Short path) (mk : Maker) :
    mk.Creates fs path ↔ mk.refused fs path = true ∨ endsInName path = true := by
  rcases mk.run_cases h habs with ⟨hrefused, e, hrun⟩ | ⟨hgranted, d, n, fs', rest, hp, hfree, hrun, hdoes⟩
  · refine ⟨fun _ => .inl hrefused, fun _ r hr => ?_⟩
    rw [hrun] at hr
    cases hr
  have hinv : (fs.withAllocs []).Inv .empty := h
  have hp' : (fs.withAllocs []).lookupParent path = some (d, n) := by rw [lookupParent_withAllocs, hp]
  have hfree' : (fs.withAllocs []).findChild d n = none := hfree
  obtain ⟨pre, x, hsplit, hfold, hx⟩ := lookupParent_split hinv hshort hp'
  have hlast : lastComponent path = x := lastComponent_eq _ (Nat.le_refl _) hsplit
  have hlinked := lookupParent_linked hinv hp'
  have hdir : fs.isDir d = true := isDir_of_linked hlinked
  have hbefore : fs.lookup path = fs.stepAt d x := by
    rw [← lookup_withAllocs fs [], lookup_eq hinv habs hshort, hsplit, foldlM_stepAt_concat hfold]
    rfl
  have hafter : (fs'.withAllocs rest).lookup path = fs'.stepAt d x := by
    have hfold' := foldlM_stepAt_kept hinv hdoes hfree' (fun _ => hinv.linked_root) hfold
    rw [lookup_withAllocs, lookup_eq hdoes.inv habs hshort, hsplit, foldlM_stepAt_concat hfold']
  unfold Maker.Creates endsInName
  rw [hlast, hrun, hgranted, hbefore]
  constructor
  · -- Anything but a name leads somewhere before the call.
    intro hcreates
    obtain ⟨hnone, -⟩ := hcreates _ rfl
    right
    by_cases h1 : x = []
    · rw [h1, stepAt_nil] at hnone
      cases hnone
    by_cases h2 : x = [dot]
    · rw [h2, stepAt_dot hdir] at hnone
      cases hnone
    by_cases h3 : x = [dot, dot]
    · rw [h3, stepAt_dotdot hdir] at hnone
      cases hnone
    simp [h1, h2, h3]
  · rintro (hfalse | hname) r ⟨⟩
    · cases hfalse
    obtain ⟨⟨h1, h2⟩, h3⟩ : (x ≠ [] ∧ x ≠ [dot]) ∧ x ≠ [dot, dot] := by simpa using hname
    obtain rfl : n.bytes = x := hx.resolve_left h1
    have hnew : fs'.findChild d n = some fs.nextIno := by rw [hdoes.view, setEntry_self]
    refine ⟨?_, rfl, hinv.fresh _ (Nat.le_refl _), ?_⟩
    · rw [stepAt_name hdir h1 h2 h3, n.clip_bytes, hfree]
    · rw [hafter, stepAt_name (isDir_of_findChild hnew) h1 h2 h3, n.clip_bytes, hnew]

/-- A file `/b` in a new tree. -/
theorem maker_creates_in_root : (Maker.create 0o644).Creates (init []) [slash, 98] := by
  have htree : (init []).Tree := init_inv (by simp)
  exact (maker_creates_iff htree rfl (by unfold Short; decide) (.create 0o644)).2 (.inr (by decide))

/-- `/b/` is a directory, and a file `b` is created in it. -/
theorem create_with_trailing_slash :
    ((init []).mkdir [slash, 98]).1 = .ok (some 2) ∧
      ((init []).mkdir [slash, 98]).2.lookup [slash, 98, slash] = some 2 ∧
      (((init []).mkdir [slash, 98]).2.create [slash, 98, slash] 0o644).1 = .ok (some 3) ∧
      (((init []).mkdir [slash, 98]).2.create [slash, 98, slash] 0o644).2.lookup [slash, 98, slash] = some 2 := by
  decide

end Ramfs

end MiniOs.Fs
