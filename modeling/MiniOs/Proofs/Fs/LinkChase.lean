/-
How `vfs_lookup` follows symbolic links. It works on texts: the target of a relative link is put behind the text of
the path up to the link, and `..` takes the last piece off that text. ramfs itself goes from inode to inode. The two
agree as long as each piece that is taken off is the name of a directory; a dot, a doubled slash or a name that is
not there lets them part.
-/
import MiniOs.Proofs.Fs.Links
import MiniOs.Proofs.Fs.PathParsers
import MiniOs.Proofs.Fs.PathResolve
import Mathlib.Data.List.TakeWhile

namespace MiniOs.Fs

open Ramfs (component skipSlash)

/-! ## Pieces of a path -/

/-- The pieces of a path that are not empty. -/
def pieces (path : List UInt8) : List (List UInt8) := (path.splitOn slash).filter (· ≠ [])

theorem foldlM_filter_ne_nil {m : Type → Type} {β : Type} [Monad m] [LawfulMonad m] {f : β → List UInt8 → m β}
    (hf : ∀ b, f b [] = pure b) : ∀ (l : List (List UInt8)) (b : β), (l.filter (· ≠ [])).foldlM f b = l.foldlM f b
  | [], b => rfl
  | c :: l, b => by
    by_cases hc : c = []
    · rw [List.filter_cons_of_neg (by simp [hc]), List.foldlM_cons, hc, hf, pure_bind, foldlM_filter_ne_nil hf l]
    · rw [List.filter_cons_of_pos (by simp [hc]), List.foldlM_cons, List.foldlM_cons]
      exact bind_congr fun b => foldlM_filter_ne_nil hf l b

variable {c : List UInt8}

theorem ne_nil_of_mem_pieces {path : List UInt8} (h : c ∈ pieces path) : c ≠ [] := by
  simpa using (List.mem_filter.1 h).2

theorem no_slash_of_mem_pieces {path : List UInt8} (h : c ∈ pieces path) : slash ∉ c :=
  no_slash_of_mem_splitOn path.length (Nat.le_refl _) (List.mem_filter.1 h).1

theorem pieces_append (l m : List UInt8) : pieces (l ++ slash :: m) = pieces l ++ pieces m := by
  rw [pieces, splitOn_append, List.filter_append, ← pieces, ← pieces]

theorem pieces_nil : pieces [] = [] := rfl

theorem pieces_single (hc : c ≠ []) (hslash : slash ∉ c) : pieces c = [c] := by
  rw [pieces, splitOn_single hslash]
  simp [hc]

theorem pieces_append_slash (l : List UInt8) : pieces (l ++ [slash]) = pieces l := by
  rw [pieces_append, pieces_nil, List.append_nil]

theorem length_le_of_mem_splitOn : ∀ (n : Nat) {p : List UInt8}, p.length ≤ n → c ∈ p.splitOn slash →
    c.length ≤ p.length
  | n, p, hlen, hc => by
    have hcomp : (component p).length ≤ p.length := (List.takeWhile_prefix _).length_le
    rcases splitOn_component p with ⟨-, hp⟩ | ⟨l, hdrop, hp⟩
    · rw [hp, List.mem_singleton] at hc
      rwa [hc]
    · have hl : l.length < p.length := by
        have hcut := congrArg List.length hdrop
        rw [List.length_drop, List.length_cons] at hcut
        omega
      rw [hp, List.mem_cons] at hc
      rcases hc with rfl | hc
      · exact hcomp
      · cases n with
        | zero => omega
        | succ n => exact (length_le_of_mem_splitOn n (by omega) hc).trans hl.le

theorem pieces_stripSlashes (path : List UInt8) : pieces (stripSlashes path) = pieces path := by
  induction path using List.reverseRecOn with
  | nil => rfl
  | append_singleton path a ih =>
    by_cases ha : a = slash
    · have hstrip : stripSlashes (path ++ [a]) = stripSlashes path := by
        unfold stripSlashes
        rw [List.reverse_append, List.reverse_singleton, List.singleton_append,
          List.dropWhile_cons_of_pos (by simp [ha])]
      rw [hstrip, ih, ha, pieces_append_slash]
    · have hstrip : stripSlashes (path ++ [a]) = path ++ [a] := by
        unfold stripSlashes
        rw [List.reverse_append, List.reverse_singleton, List.singleton_append,
          List.dropWhile_cons_of_neg (by simp [ha])]
        simp
      rw [hstrip]

theorem lastComponent_no_slash (s : List UInt8) : slash ∉ lastComponent s := by
  intro h
  have hall := List.all_eq_true.1 (List.all_takeWhile (p := (· ≠ slash)) (l := s.reverse)) slash (List.mem_reverse.1 h)
  simp at hall

variable {s : List UInt8}

/-- A text is what `..` leaves of it, a slash and its last piece. -/
theorem popComponent_append_last (h : slash ∈ s) : popComponent s ++ slash :: lastComponent s = s := by
  have hsplit := List.takeWhile_append_dropWhile (p := (· ≠ slash)) (l := s.reverse)
  obtain ⟨rest, hrest⟩ : ∃ rest, s.reverse.dropWhile (· ≠ slash) = slash :: rest := by
    cases hd : s.reverse.dropWhile (· ≠ slash) with
    | nil =>
      have hall := List.dropWhile_eq_nil_iff.1 hd slash (List.mem_reverse.2 h)
      simp at hall
    | cons a rest =>
      have ha := List.head?_dropWhile_not (· ≠ slash) s.reverse
      rw [hd] at ha
      have ha : a = slash := by simpa using ha
      exact ⟨rest, by rw [ha]⟩
  have hback := congrArg List.reverse hsplit
  rw [hrest, List.reverse_append, List.reverse_cons, List.reverse_reverse, List.append_assoc,
    List.singleton_append] at hback
  unfold popComponent lastComponent
  rwa [hrest]

theorem mem_slash_of_head (habs : s.head? = some slash) : slash ∈ s := by
  obtain ⟨l, rfl⟩ := List.head?_eq_some_iff.1 habs
  exact List.mem_cons_self

/-- The last piece and the text before it. -/
theorem pieces_popComponent (h : slash ∈ s) : pieces s = pieces (popComponent s) ++ pieces (lastComponent s) := by
  rw [← pieces_append, popComponent_append_last h]

variable {st : List UInt8}

theorem pieces_pushComponent (hc : c ≠ []) (hslash : slash ∉ c) :
    pieces (pushComponent st c) = pieces st ++ [c] := by
  unfold pushComponent
  by_cases hst : st = [] ∨ st.getLast? ≠ some slash
  · rw [if_pos hst, List.append_assoc, List.singleton_append, pieces_append, pieces_single hc hslash]
  · rw [if_neg hst]
    push Not at hst
    obtain ⟨pre, rfl⟩ := List.getLast?_eq_some_iff.1 hst.2
    rw [List.append_assoc, List.singleton_append, pieces_append, pieces_append_slash, pieces_single hc hslash]

theorem pieces_stackPath (h : st.length < pathMax) : pieces (stackPath st) = pieces st := by
  unfold stackPath
  by_cases hst : st = []
  · rw [if_pos hst, hst]
    rfl
  · rw [if_neg hst, strCopy_of_short h]

theorem stripSlashes_isPrefix (path : List UInt8) : stripSlashes path <+: path := by
  unfold stripSlashes
  rw [← List.reverse_suffix, List.reverse_reverse]
  exact List.dropWhile_suffix _

theorem head?_of_isPrefix {l m : List UInt8} {a : UInt8} (hpre : l <+: m) (hne : l ≠ []) (h : m.head? = some a) :
    l.head? = some a := by
  obtain ⟨rest, rfl⟩ := hpre
  rwa [List.head?_append_of_ne_nil _ hne] at h

theorem getLast?_stripSlashes (path : List UInt8) : (stripSlashes path).getLast? ≠ some slash := by
  unfold stripSlashes
  rw [List.getLast?_reverse]
  intro h
  have hhead := List.head?_dropWhile_not (· = slash) path.reverse
  rw [h] at hhead
  simp at hhead

/-- The parent that `path_parent_name` cuts off: the pieces before the last one. -/
theorem pathParentName_pieces {path : List UInt8} (habs : path.head? = some slash) (hshort : path.length < pathMax)
    (hne : pieces path ≠ []) :
    ∃ parent n, pathParentName path = .ok (parent, n) ∧ parent.head? = some slash ∧ parent.length < pathMax ∧
      pieces parent = (pieces path).dropLast := by
  have hpieces := pieces_stripSlashes path
  have hpre := stripSlashes_isPrefix path
  have hlast := getLast?_stripSlashes path
  unfold pathParentName
  rw [if_neg (not_not.2 habs)]
  generalize stripSlashes path = s at hpieces hpre hlast ⊢
  have hs : s ≠ [] := by
    rintro rfl
    exact hne hpieces.symm
  have hsplit := popComponent_append_last (mem_slash_of_head (head?_of_isPrefix hpre hs habs))
  have hname : lastComponent s ≠ [] := by
    intro hnil
    rw [hnil] at hsplit
    rw [← hsplit] at hlast
    simp at hlast
  have hlen : s.length = (popComponent s).length + 1 + (lastComponent s).length := by
    conv_lhs => rw [← hsplit]
    simp
    omega
  have htake : s.take (s.length - (lastComponent s).length - 1) = popComponent s := by
    have hcut : s.length - (lastComponent s).length - 1 = (popComponent s).length := by omega
    rw [hcut]
    generalize popComponent s = pre at hsplit
    rw [← hsplit, List.take_left]
  have hle := hpre.length_le
  have hparent : pieces (popComponent s) = (pieces path).dropLast := by
    rw [← hpieces, pieces_popComponent (mem_slash_of_head (head?_of_isPrefix hpre hs habs)),
      pieces_single hname (lastComponent_no_slash s), List.dropLast_concat]
  dsimp only
  rw [if_neg hs, htake, if_neg (by omega)]
  by_cases hroot : popComponent s = []
  · rw [if_pos hroot]
    rw [hroot] at hparent
    exact ⟨[slash], _, rfl, rfl, by decide, hparent⟩
  · rw [if_neg hroot]
    have habs' : (popComponent s).head? = some slash :=
      head?_of_isPrefix ⟨_, hsplit⟩ hroot (head?_of_isPrefix hpre hs habs)
    exact ⟨popComponent s, _, rfl, habs', by omega, hparent⟩

/-! ## Texts that `path_resolve` works on -/

/-- The stack of `path_resolve` on an absolute base. -/
structure IsStack (st : List UInt8) : Prop where
  abs : st = [] ∨ st.head? = some slash
  short : st.length < pathMax

theorem IsStack.pop (h : IsStack st) : IsStack (popComponent st) := by
  rcases h.abs with rfl | habs
  · exact ⟨.inl rfl, by decide⟩
  · have hsplit := popComponent_append_last (mem_slash_of_head habs)
    have hpre : popComponent st <+: st := ⟨_, hsplit⟩
    constructor
    · by_cases hnil : popComponent st = []
      · exact .inl hnil
      · exact .inr (head?_of_isPrefix hpre hnil habs)
    · exact hpre.length_le.trans_lt h.short

theorem IsStack.push (h : IsStack st) (hroom : st.length + 1 + c.length < pathMax) :
    IsStack (pushComponent st c) := by
  unfold pushComponent
  by_cases hst : st = [] ∨ st.getLast? ≠ some slash
  · rw [if_pos hst]
    constructor
    · right
      rcases h.abs with rfl | habs
      · rfl
      · rw [List.append_assoc, List.head?_append, habs]
        rfl
    · simp only [List.length_append, List.length_singleton]
      omega
  · rw [if_neg hst]
    push Not at hst
    constructor
    · right
      rw [List.head?_append, h.abs.resolve_left hst.1]
      rfl
    · rw [List.length_append]
      omega

variable {st' : List UInt8}

theorem IsStack.component (h : IsStack st) (hstep : resolveComponent st c = .ok st') : IsStack st' := by
  unfold resolveComponent at hstep
  split_ifs at hstep with hskip hup hroom
  · cases hstep
    exact h
  · cases hstep
    exact h.pop
  · cases hstep
    exact h.push (Nat.lt_of_not_le hroom)

theorem IsStack.components : ∀ {cs : List (List UInt8)} {st : List UInt8}, IsStack st →
    cs.foldlM resolveComponent st = .ok st' → IsStack st'
  | [], st, h, hrun => by
    cases hrun
    exact h
  | c :: cs, st, h, hrun => by
    rw [List.foldlM_cons] at hrun
    cases hstep : resolveComponent st c with
    | error e =>
      rw [hstep] at hrun
      cases hrun
    | ok st1 =>
      rw [hstep] at hrun
      exact (h.component hstep).components hrun

theorem IsStack.path (h : IsStack st) : (stackPath st).head? = some slash ∧ (stackPath st).length < pathMax := by
  unfold stackPath
  by_cases hst : st = []
  · rw [if_pos hst]
    exact ⟨rfl, by decide⟩
  · rw [if_neg hst, strCopy_of_short h.short]
    exact ⟨h.abs.resolve_left hst, h.short⟩

/-- What `path_resolve` makes of a relative path: a stack, from the base on. -/
theorem pathResolve_stack {base target out : List UInt8} (habs : base.head? = some slash)
    (hshort : base.length < pathMax) (hrel : target.head? ≠ some slash) (h : pathResolve base target = .ok out) :
    ∃ st, (pieces target).foldlM resolveComponent base = .ok st ∧ IsStack st ∧ out = stackPath st := by
  have hne : target ≠ [] := by
    rintro rfl
    rw [pathResolve, if_pos rfl] at h
    cases h
  rw [pathResolve_eq hne (.inr habs), startStack, if_neg hrel, strCopy_of_short hshort,
    ← foldlM_filter_ne_nil resolveComponent_nil, ← pieces] at h
  cases hst : (pieces target).foldlM resolveComponent base with
  | error e =>
    rw [hst] at h
    cases h
  | ok st =>
    rw [hst] at h
    exact ⟨st, rfl, IsStack.components ⟨.inr habs, hshort⟩ hst, (Except.ok.inj h).symm⟩

namespace Ramfs

variable {fs : Ramfs} {d e i : Nat} {c st path : List UInt8} {cs : List (List UInt8)}

/-! ## Where texts lead -/

/-- Where a path leads from a directory, piece after piece. -/
def walkText (fs : Ramfs) (d : Nat) (path : List UInt8) : Option Nat := (pieces path).foldlM fs.stepAt d

/-- The directory in which a lookup looks for the last piece. -/
def holderOf (fs : Ramfs) (d : Nat) (path : List UInt8) : Option Nat := (pieces path).dropLast.foldlM fs.stepAt d

theorem short_of_length (h : path.length < pathMax) : Short path := by
  intro c hc
  have hle := length_le_of_mem_splitOn path.length (Nat.le_refl _) hc
  unfold pathMax at h
  unfold nameMax
  omega

theorem Tree.inv (h : fs.Tree) : (fs.withAllocs []).Inv .empty := h

theorem Tree.linked_root (h : fs.Tree) : fs.Linked rootIno := h.inv.linked_root

theorem Tree.lookupAt_eq (h : fs.Tree) (hd : fs.Linked d) (hlen : path.length < pathMax) :
    fs.lookupAt d path = fs.walkText d path := by
  have hloop (n : Nat) (l : List UInt8) : fs.lookupAtLoop n d l = (fs.withAllocs []).lookupAtLoop n d l :=
    (lookupAtLoop_withAllocs fs [] n d l).symm
  have hshort := (short_of_length hlen).skipSlash
  rw [walkText, pieces, foldlM_filter_ne_nil fs.stepAt_nil, ← foldlM_skipSlash fs.stepAt_nil, lookupAt]
  by_cases hr : skipSlash path = []
  · rw [if_pos hr, hr]
    rfl
  · rw [if_neg hr, hloop]
    exact lookupAtLoop_eq h _ hd hr (head?_skipSlash path) hshort (List.dropWhile_suffix _).length_le

theorem Tree.lookup_eq (h : fs.Tree) (habs : path.head? = some slash) (hlen : path.length < pathMax) :
    fs.lookup path = fs.walkText rootIno path := by
  rw [lookup, if_pos habs, h.lookupAt_eq h.linked_root hlen]

theorem Tree.linked_stepAt (h : fs.Tree) (hd : fs.isDir d = true → fs.Linked d) (hstep : fs.stepAt d c = some e)
    (he : fs.isDir e = true) : fs.Linked e := by
  unfold stepAt at hstep
  split_ifs at hstep with hnil hdir hdot hup
  · cases hstep
    exact hd he
  · cases hstep
    exact hd he
  · cases hstep
    exact h.inv.linked_parent (hd (by simpa using hdir))
  · exact h.inv.linked_of_findChild hstep he

theorem Tree.linked_walk (h : fs.Tree) : ∀ {cs : List (List UInt8)} {d : Nat}, (fs.isDir d = true → fs.Linked d) →
    cs.foldlM fs.stepAt d = some e → fs.isDir e = true → fs.Linked e
  | [], d, hd, hrun, he => by
    cases hrun
    exact hd he
  | c :: cs, d, hd, hrun, he => by
    obtain ⟨d1, hstep, hrun⟩ := Option.bind_eq_some_iff.1 hrun
    exact h.linked_walk (fun h1 => h.linked_stepAt hd hstep h1) hrun he

theorem walkText_push (hc : c ≠ []) (hslash : slash ∉ c) :
    fs.walkText rootIno (pushComponent st c) = (fs.walkText rootIno st).bind fun x => fs.stepAt x c := by
  rw [walkText, pieces_pushComponent hc hslash, List.foldlM_append, walkText]
  refine congrArg (Option.bind _) (funext fun x => ?_)
  simp

theorem walkText_pop (h : slash ∈ st) :
    fs.walkText rootIno st = (fs.walkText rootIno (popComponent st)).bind fun x => fs.stepAt x (lastComponent st) := by
  have hlast (x : Nat) : (pieces (lastComponent st)).foldlM fs.stepAt x = fs.stepAt x (lastComponent st) := by
    by_cases hnil : lastComponent st = []
    · rw [hnil, stepAt_nil]
      rfl
    · rw [pieces_single hnil (lastComponent_no_slash st)]
      simp
  rw [walkText, pieces_popComponent h, List.foldlM_append, walkText]
  exact congrArg (Option.bind _) (funext hlast)

/-! ## Dots -/

/-- The last piece of the text is the name of a directory; or there is no last piece, and the text leads to the
root; or the text leads nowhere even without its last piece. -/
inductive Ascends (fs : Ramfs) (st : List UInt8) : Prop
  | top (h : st = [] ∨ st = [slash])
  | name {x : Nat} (hc : IsComponent (lastComponent st)) (hx : fs.walkText rootIno st = some x)
    (hdir : fs.isDir x = true)
  | nowhere (h : fs.walkText rootIno (popComponent st) = none)

/-- Behind the text that there is so far the dots of a path agree with the tree. -/
def Agrees (fs : Ramfs) : List UInt8 → List (List UInt8) → Prop
  | _, [] => True
  | st, c :: cs =>
    if c = [dot] then (∀ x, fs.walkText rootIno st = some x → fs.isDir x = true) ∧ fs.Agrees st cs
    else if c = [dot, dot] then fs.Ascends st ∧ fs.Agrees (popComponent st) cs
    else fs.Agrees (pushComponent st c) cs

theorem Tree.parent_of_child (h : fs.Tree) {n : Name} (hf : fs.findChild d n = some i) (hi : fs.isDir i = true) :
    fs.parentOf i = some d := by
  obtain ⟨rd, hd, -, hmem⟩ := exists_of_findChild hf
  obtain ⟨-, rc, hc, -, hparent⟩ := h.inv.entry d rd n i hd hmem
  have hc : fs.inodes i = some rc := hc
  rw [parentOf_of_live hc]
  exact hparent (by simpa [isDir_of_live hc] using hi)

theorem Tree.parent_of_root (h : fs.Tree) : (fs.parentOf rootIno).getD rootIno = rootIno := by
  obtain ⟨r, hr, -, hparent, -⟩ := h.inv.root
  have hr : fs.inodes rootIno = some r := hr
  rw [parentOf_of_live hr, hparent]
  rfl

/-- Taking the last piece off leads to the directory above. -/
theorem Ascends.walkText_pop (hasc : fs.Ascends st) (h : fs.Tree) (hst : IsStack st) :
    fs.walkText rootIno (popComponent st) = (fs.walkText rootIno st).bind fun x => fs.stepAt x [dot, dot] := by
  cases hasc with
  | top htop =>
    have hup : fs.stepAt rootIno [dot, dot] = some rootIno := by
      rw [stepAt_dotdot (isDir_of_linked h.linked_root), h.parent_of_root]
    rcases htop with rfl | rfl
    · exact hup.symm
    · exact hup.symm
  | name hc hx hdir =>
    have hmem : slash ∈ st := by
      refine mem_slash_of_head (hst.abs.resolve_left ?_)
      rintro rfl
      exact hc.ne_nil rfl
    rw [Ramfs.walkText_pop hmem] at hx ⊢
    obtain ⟨y, hy, hstep⟩ := Option.bind_eq_some_iff.1 hx
    have hydir : fs.isDir y = true := by
      by_contra hno
      rw [stepAt, if_neg hc.ne_nil, if_pos hno] at hstep
      cases hstep
    rw [hx, hy, Option.bind_some, stepAt_dotdot hdir]
    rw [stepAt_name hydir hc.ne_nil hc.ne_dot hc.ne_dotdot] at hstep
    rw [h.parent_of_child hstep hdir]
    rfl
  | nowhere hno =>
    have hmem : slash ∈ st := by
      refine mem_slash_of_head (hst.abs.resolve_left ?_)
      rintro rfl
      cases hno
    rw [Ramfs.walkText_pop hmem, hno]
    rfl

/-- The text that a path is put behind, and the tree, come to the same inode. -/
theorem Agrees.walkText (h : fs.Tree) : ∀ {cs : List (List UInt8)} {st : List UInt8}, IsStack st →
    (∀ c ∈ cs, c ≠ [] ∧ slash ∉ c) → fs.Agrees st cs → cs.foldlM resolveComponent st = .ok st' →
    fs.walkText rootIno st' = (fs.walkText rootIno st).bind fun x => cs.foldlM fs.stepAt x
  | [], st, hst, hcs, hagree, hrun => by
    cases hrun
    cases fs.walkText rootIno st' <;> rfl
  | c :: cs, st, hst, hcs, hagree, hrun => by
    obtain ⟨hc, hcs⟩ := List.forall_mem_cons.1 hcs
    rw [List.foldlM_cons] at hrun
    -- What one piece does, and then the rest.
    have hrest : ∀ st1, resolveComponent st c = .ok st1 → fs.Agrees st1 cs →
        fs.walkText rootIno st1 = (fs.walkText rootIno st).bind (fun x => fs.stepAt x c) →
        fs.walkText rootIno st' = (fs.walkText rootIno st).bind fun x => (c :: cs).foldlM fs.stepAt x := by
      intro st1 hstep hagree1 hone
      rw [hstep] at hrun
      rw [Agrees.walkText h (hst.component hstep) hcs hagree1 hrun, hone, Option.bind_assoc]
      rfl
    unfold Agrees at hagree
    by_cases hdot : c = [dot]
    · rw [if_pos hdot] at hagree
      refine hrest st (if_pos (.inr hdot)) hagree.2 ?_
      cases hx : fs.walkText rootIno st with
      | none => rfl
      | some x => rw [Option.bind_some, hdot, stepAt_dot (hagree.1 x hx)]
    by_cases hup : c = [dot, dot]
    · rw [if_neg hdot, if_pos hup] at hagree
      refine hrest (popComponent st) ?_ hagree.2 ?_
      · rw [resolveComponent, if_neg (not_or.2 ⟨hc.1, hdot⟩), if_pos hup]
      · rw [hup]
        exact hagree.1.walkText_pop h hst
    · rw [if_neg hdot, if_neg hup] at hagree
      have hroom : ¬ st.length + 1 + c.length ≥ pathMax := by
        intro hfull
        rw [resolveComponent, if_neg (not_or.2 ⟨hc.1, hdot⟩), if_neg hup, if_pos hfull] at hrun
        cases hrun
      refine hrest (pushComponent st c) ?_ hagree (walkText_push hc.1 hc.2)
      rw [resolveComponent, if_neg (not_or.2 ⟨hc.1, hdot⟩), if_neg hup, if_neg hroom]

theorem Agrees.left : ∀ {l cs : List (List UInt8)} {st : List UInt8}, fs.Agrees st (l ++ cs) → fs.Agrees st l
  | [], _, _, _ => trivial
  | c :: l, cs, st, h => by
    rw [List.cons_append] at h
    unfold Agrees at h ⊢
    split_ifs at h ⊢
    · exact ⟨h.1, h.2.left⟩
    · exact ⟨h.1, h.2.left⟩
    · exact h.left

/-- What stands behind a dot is a directory. -/
theorem Tree.isDir_of_dots (h : fs.Tree) (hd : fs.isDir d = true → fs.Linked d) (hc : c = [dot] ∨ c = [dot, dot])
    (hstep : fs.stepAt d c = some i) : fs.isDir i = true := by
  have hdir : fs.isDir d = true := by
    by_contra hno
    rcases hc with rfl | rfl <;> simp [stepAt, hno] at hstep
  rcases hc with rfl | rfl
  · rw [stepAt_dot hdir] at hstep
    cases hstep
    exact hdir
  · rw [stepAt_dotdot hdir] at hstep
    cases hstep
    exact isDir_of_linked (h.inv.linked_parent (hd hdir))

theorem not_link_of_isDir (h : fs.isDir i = true) : fs.hasType i .lnk = false := by
  unfold isDir hasType at h
  unfold hasType
  cases hi : fs.inodes i with
  | none => rfl
  | some ri =>
    rw [hi] at h
    simp only [decide_eq_true_eq] at h ⊢
    rw [h]
    rfl

/-- A relative path behind a text that leads to a directory: it leads where it leads from the directory, and a link
is held where it is held. -/
theorem Tree.pathResolve_leads (h : fs.Tree) {base target out : List UInt8} (habs : base.head? = some slash)
    (hshort : base.length < pathMax) (hd : fs.Linked d) (hbase : fs.walkText rootIno base = some d)
    (hrel : target.head? ≠ some slash) (hagree : fs.Agrees base (pieces target))
    (hout : pathResolve base target = .ok out) : fs.walkText rootIno out = fs.walkText d target ∧
      ∀ i, fs.walkText d target = some i → fs.hasType i .lnk = true →
        fs.holderOf rootIno out = fs.holderOf d target := by
  obtain ⟨st, hrun, hst, rfl⟩ := pathResolve_stack habs hshort hrel hout
  have hpieces : ∀ c ∈ pieces target, c ≠ [] ∧ slash ∉ c := fun c hc =>
    ⟨ne_nil_of_mem_pieces hc, no_slash_of_mem_pieces hc⟩
  have hwalk : fs.walkText rootIno (stackPath st) = fs.walkText d target := by
    rw [Ramfs.walkText, pieces_stackPath hst.short]
    rw [← Ramfs.walkText, hagree.walkText h ⟨.inr habs, hshort⟩ hpieces hrun, hbase]
    rfl
  refine ⟨hwalk, fun i hi hlink => ?_⟩
  unfold holderOf
  rw [pieces_stackPath hst.short]
  unfold Ramfs.walkText at hi
  -- A link stands behind a name, which is then the last piece of both texts.
  rcases List.eq_nil_or_concat (pieces target) with hnil | ⟨l, c, hlast⟩
  · rw [hnil] at hi
    cases hi
    rw [not_link_of_isDir (isDir_of_linked hd)] at hlink
    cases hlink
  · rw [List.concat_eq_append] at hlast
    rw [hlast] at hi hrun hagree hpieces ⊢
    obtain ⟨x, hx, hstep⟩ := Option.bind_eq_some_iff.1 (List.foldlM_append.symm.trans hi)
    have hstep : fs.stepAt x c = some i := by simpa using hstep
    have hdots : ¬ (c = [dot] ∨ c = [dot, dot]) := by
      intro hc
      have hdir := h.isDir_of_dots (fun hx' => h.linked_walk (fun _ => hd) hx hx') hc hstep
      rw [not_link_of_isDir hdir] at hlink
      cases hlink
    rw [not_or] at hdots
    have hc := hpieces c (by simp)
    rw [List.foldlM_append] at hrun
    cases hpre : l.foldlM resolveComponent base with
    | error e =>
      rw [hpre] at hrun
      cases hrun
    | ok st1 =>
      rw [hpre] at hrun
      have hone : [c].foldlM resolveComponent st1 = .ok st := hrun
      have hpush : resolveComponent st1 c = .ok st := by simpa using hone
      rw [resolveComponent, if_neg (not_or.2 ⟨hc.1, hdots.1⟩), if_neg hdots.2] at hpush
      split_ifs at hpush
      cases hpush
      rw [pieces_pushComponent hc.1 hc.2, List.dropLast_concat, List.dropLast_concat, ← Ramfs.walkText,
        hagree.left.walkText h ⟨.inr habs, hshort⟩ (fun c hc => hpieces c (List.mem_append_left _ hc)) hpre, hbase]
      rfl

/-! ## Following links -/

/-- The target of a link. -/
def target (fs : Ramfs) (i : Nat) : List UInt8 :=
  match fs.inodes i with
  | none => []
  | some ri => ((ri.data.getD []).take ri.size).takeWhile (· ≠ 0)

/-- Where the target of a link is looked up that was found in `d`. -/
def targetBase (fs : Ramfs) (i d : Nat) : Nat := if (fs.target i).head? = some slash then rootIno else d

/-- Links are followed from inode to inode: `ramfs_lookup_at` finds the target of a link from the root or from the
directory that holds the link. -/
def chase (fs : Ramfs) : Nat → Nat → List UInt8 → Option Nat
  | 0, _, _ => none
  | rounds + 1, d, path =>
    match fs.lookupAt d path with
    | none => none
    | some i =>
      if ¬ fs.hasType i .lnk then some i
      else (fs.holderOf d path).bind fun d => fs.chase rounds (fs.targetBase i d) (fs.target i)

/-- What `vfs_lookup` has to find, behind up to eight links: nothing for a path that does not start at the root. -/
def linkEnd (fs : Ramfs) (path : List UInt8) : Option Nat :=
    if path.head? = some slash then fs.chase 9 rootIno path else none

/-- The inode that `vfs_lookup` looks at next, after a link that it has found. -/
def nextInode (fs : Ramfs) (path : List UInt8) (i : Nat) : Option Nat :=
  match fs.readlink i (pathMax - 1) with
  | .error _ => none
  | .ok target => (linkPath path target).bind fs.lookup

/-- The path that a lookup looks at when it has passed some links. -/
inductive Visits (fs : Ramfs) : Nat → List UInt8 → List UInt8 → Prop
  | here (path : List UInt8) : Visits fs 0 path path
  | next {k i : Nat} {path target next last : List UInt8} (hi : fs.lookup path = some i)
      (htarget : fs.readlink i (pathMax - 1) = .ok target) (hnext : linkPath path target = some next)
        (h : Visits fs k next last) :
      Visits fs (k + 1) path last

/-- The target of a link at this path fits, and when it is relative `path_resolve` takes it and its dots agree with the
tree. -/
def LinkSafe (fs : Ramfs) (path : List UInt8) : Prop :=
  ∀ i, fs.lookup path = some i → fs.hasType i .lnk = true → (fs.target i).length < pathMax ∧
    ((fs.target i).head? ≠ some slash → ∀ parent n, pathParentName path = .ok (parent, n) →
      (∃ out, pathResolve parent (fs.target i) = .ok out) ∧ fs.Agrees parent (pieces (fs.target i)))

theorem readlink_target (hlink : fs.hasType i .lnk = true) (hlen : (fs.target i).length < pathMax) :
    fs.readlink i (pathMax - 1) = .ok (fs.target i) := by
  unfold hasType at hlink
  unfold target at hlen
  unfold readlink target
  rw [if_neg (by decide)]
  cases hi : fs.inodes i with
  | none =>
    rw [hi] at hlink
    cases hlink
  | some ri =>
    rw [hi] at hlink hlen
    have htype : ri.type = .lnk := by simpa using hlink
    dsimp only at hlen ⊢
    rw [if_neg (not_not.2 htype), Nat.min_comm, ← List.take_take, ← List.take_takeWhile,
      List.take_of_length_le (by omega)]

/-- A link is held in a directory of the tree. -/
theorem Tree.exists_holder (h : fs.Tree) (hi : fs.walkText rootIno path = some i) (hlink : fs.hasType i .lnk = true) :
    pieces path ≠ [] ∧ ∃ d, fs.holderOf rootIno path = some d ∧ fs.Linked d := by
  unfold walkText at hi
  unfold holderOf
  rcases List.eq_nil_or_concat (pieces path) with hnil | ⟨l, c, hlast⟩
  · rw [hnil] at hi
    cases hi
    rw [not_link_of_isDir (isDir_of_linked h.linked_root)] at hlink
    cases hlink
  · rw [List.concat_eq_append] at hlast
    have hc : c ≠ [] := ne_nil_of_mem_pieces (show c ∈ pieces path by simp [hlast])
    rw [hlast] at hi ⊢
    obtain ⟨x, hx, hstep⟩ := Option.bind_eq_some_iff.1 (List.foldlM_append.symm.trans hi)
    have hdir : fs.isDir x = true := by
      by_contra hno
      simp [stepAt, hc, hno] at hstep
    refine ⟨by simp, x, by rw [List.dropLast_concat, hx], h.linked_walk (fun _ => h.linked_root) hx hdir⟩

/-- A text leads where a path leads from a directory, and a link at its end is held in the same place. -/
structure Mirrors (fs : Ramfs) (text : List UInt8) (d : Nat) (path : List UInt8) : Prop where
  abs : text.head? = some slash
  short : text.length < pathMax
  shortPath : path.length < pathMax
  linked : fs.Linked d
  same : fs.walkText rootIno text = fs.walkText d path
  held : ∀ i, fs.walkText d path = some i → fs.hasType i .lnk = true → fs.holderOf rootIno text = fs.holderOf d path

/-- A round of `vfs_lookup` that comes to a link: the next path leads where the target of the link leads. -/
theorem LinkSafe.next (hsafe : fs.LinkSafe path) (h : fs.Tree) (habs : path.head? = some slash)
    (hlen : path.length < pathMax) (hi : fs.lookup path = some i) (hlink : fs.hasType i .lnk = true) :
    ∃ d next, fs.holderOf rootIno path = some d ∧ fs.readlink i (pathMax - 1) = .ok (fs.target i) ∧
      linkPath path (fs.target i) = some next ∧ fs.Mirrors next (fs.targetBase i d) (fs.target i) := by
  obtain ⟨hfits, hrelative⟩ := hsafe i hi hlink
  have hread := readlink_target hlink hfits
  rw [h.lookup_eq habs hlen] at hi
  obtain ⟨hne, d, hd, hlinked⟩ := h.exists_holder hi hlink
  by_cases htarget : (fs.target i).head? = some slash
  · have hbase : fs.targetBase i d = rootIno := if_pos htarget
    have hpath : linkPath path (fs.target i) = some (fs.target i) := by
      rw [linkPath, if_pos htarget, strCopy_of_short hfits]
    refine ⟨d, fs.target i, hd, hread, hpath, ?_⟩
    rw [hbase]
    exact ⟨htarget, hfits, hfits, h.linked_root, rfl, fun _ _ _ => rfl⟩
  · obtain ⟨parent, n, hparent, hpabs, hplen, hpieces⟩ := pathParentName_pieces habs hlen hne
    obtain ⟨⟨out, hout⟩, hagree⟩ := hrelative htarget parent n hparent
    have hlead : fs.walkText rootIno parent = some d := by
      rw [walkText, hpieces]
      exact hd
    obtain ⟨st, -, hst, hstack⟩ := pathResolve_stack hpabs hplen htarget hout
    obtain ⟨hwalk, hheld⟩ := h.pathResolve_leads hpabs hplen hlinked hlead htarget hagree hout
    have hoabs : out.head? = some slash := hstack ▸ hst.path.1
    have holen : out.length < pathMax := hstack ▸ hst.path.2
    have hbase : fs.targetBase i d = d := if_neg htarget
    have hpath : linkPath path (fs.target i) = some out := by
      rw [linkPath, if_neg htarget, hparent]
      dsimp only
      rw [hout]
      dsimp only
      rw [strCopy_of_short holen]
    refine ⟨d, out, hd, hread, hpath, ?_⟩
    rw [hbase]
    exact ⟨hoabs, holen, hfits, hlinked, hwalk, hheld⟩

variable {k : Nat}

theorem follow_none (hi : fs.lookup path = none) : fs.follow (k + 1) path = none := by
  rw [follow, hi]

theorem follow_file (hi : fs.lookup path = some i) (hlink : fs.hasType i .lnk = false) :
    fs.follow (k + 1) path = some i :=
  follow_succ_iff.2 ⟨i, hi, .inl ⟨hlink, rfl⟩⟩

theorem follow_link {target next : List UInt8} (hi : fs.lookup path = some i)
    (hread : fs.readlink i (pathMax - 1) = .ok target) (hnext : linkPath path target = some next) :
    fs.follow (k + 1) path = fs.follow k next := by
  refine Option.ext fun j => ?_
  rw [follow_succ_iff]
  constructor
  · rintro ⟨i', hi', ⟨hfile, -⟩ | ⟨target', next', hread', hnext', hj⟩⟩
    · cases hi.symm.trans hi'
      rw [hasType_of_readlink hread] at hfile
      cases hfile
    · cases hi.symm.trans hi'
      cases hread.symm.trans hread'
      cases hnext.symm.trans hnext'
      exact hj
  · intro hj
    exact ⟨i, hi, .inr ⟨target, next, hread, hnext, hj⟩⟩

/-- The rounds of `vfs_lookup` from a text on, and following links from inode to inode. -/
theorem Mirrors.follow_eq (h : fs.Tree) : ∀ {k : Nat} {text path : List UInt8} {d : Nat}, fs.Mirrors text d path →
    (∀ n last, n < k → fs.Visits n text last → fs.LinkSafe last) →
    (∀ last i, fs.Visits k text last → fs.lookup last = some i → fs.hasType i .lnk = false) →
    fs.follow (k + 1) text = fs.chase (k + 2) d path
  | k, text, path, d, hm, hsafe, hfew => by
    have hlookup : fs.lookup text = fs.lookupAt d path := by
      rw [h.lookup_eq hm.abs hm.short, h.lookupAt_eq hm.linked hm.shortPath, hm.same]
    unfold chase
    rw [← hlookup]
    cases hi : fs.lookup text with
    | none => exact follow_none hi
    | some i =>
      dsimp only
      by_cases hlink : fs.hasType i .lnk = true
      swap
      · rw [if_pos hlink]
        exact follow_file hi (by simpa using hlink)
      rw [if_neg (not_not.2 hlink)]
      cases k with
      | zero =>
        rw [hfew text i (.here text) hi] at hlink
        cases hlink
      | succ k =>
        obtain ⟨d', next, hd', hread, hnext, hm'⟩ :=
          (hsafe 0 text (Nat.succ_pos k) (.here text)).next h hm.abs hm.short hi hlink
        have hheld := hm.held i (by rw [← h.lookupAt_eq hm.linked hm.shortPath, ← hlookup, hi]) hlink
        rw [← hheld, hd', Option.bind_some, follow_link hi hread hnext]
        exact hm'.follow_eq h (fun n last hn hlast => hsafe (n + 1) last (Nat.succ_lt_succ hn)
          (.next hi hread hnext hlast))
          fun last i hlast => hfew last i (.next hi hread hnext hlast)

theorem pathParentName_bounds {parent : List UInt8} {n : Name} (h : pathParentName path = .ok (parent, n)) :
    parent.head? = some slash ∧ parent.length < pathMax := by
  unfold pathParentName at h
  split_ifs at h with habs
  have habs : path.head? = some slash := not_not.1 habs
  have hpre := stripSlashes_isPrefix path
  generalize stripSlashes path = s at h hpre
  dsimp only at h
  have htake := List.take_prefix (s.length - (lastComponent s).length - 1) s
  generalize s.take (s.length - (lastComponent s).length - 1) = l at h htake
  split_ifs at h with hne hlong hnil
  · cases h
    exact ⟨rfl, by decide⟩
  · cases h
    exact ⟨head?_of_isPrefix htake hnil (head?_of_isPrefix hpre hne habs), Nat.lt_of_not_le hlong⟩

theorem linkPath_bounds {target next : List UInt8} (h : linkPath path target = some next) :
    next.head? = some slash ∧ next.length < pathMax := by
  unfold linkPath at h
  by_cases htarget : target.head? = some slash
  · rw [if_pos htarget] at h
    cases h
    constructor
    · refine head?_of_isPrefix (List.take_prefix _ _) ?_ htarget
      obtain ⟨l, rfl⟩ := List.head?_eq_some_iff.1 htarget
      exact List.cons_ne_nil _ _
    · have hle : (target.take (pathMax - 1)).length ≤ pathMax - 1 := List.length_take_le _ _
      exact Nat.lt_of_le_pred (by decide) hle
  · rw [if_neg htarget] at h
    cases hparent : pathParentName path with
    | error e =>
      rw [hparent] at h
      cases h
    | ok p =>
      obtain ⟨parent, n⟩ := p
      obtain ⟨hpabs, hplen⟩ := pathParentName_bounds hparent
      rw [hparent] at h
      dsimp only at h
      cases hout : pathResolve parent target with
      | error e =>
        rw [hout] at h
        cases h
      | ok out =>
        obtain ⟨st, -, hst, rfl⟩ := pathResolve_stack hpabs hplen htarget hout
        rw [hout] at h
        cases h
        rw [strCopy_of_short hst.path.2]
        exact hst.path

theorem Visits.short {last : List UInt8} (h : fs.Visits k path last) (hlen : path.length < pathMax) :
    last.length < pathMax := by
  induction h with
  | here path => exact hlen
  | next _ _ hnext _ ih => exact ih (linkPath_bounds hnext).2

theorem abs_of_lookup (h : fs.lookup path = some i) : path.head? = some slash := by
  by_contra hrel
  rw [lookup, if_neg hrel] at h
  cases h

/-- What a call that is not refused makes of a tree. -/
theorem Tree.made (h : fs.Tree) (mk : Maker) (habs : path.head? = some slash) (hgranted : mk.refused fs path = false) :
    (mk.run fs path).2.Tree := by
  rcases mk.run_cases h habs with ⟨hrefused, -⟩ | ⟨-, d, n, fs', rest, -, -, hrun, hdoes⟩
  · rw [hgranted] at hrefused
    cases hrefused
  · rw [hrun]
    exact { hdoes.inv with supplied := by simp [withAllocs] }

theorem LinkSafe.nextInode_eq (hsafe : fs.LinkSafe path) (h : fs.Tree) (hlen : path.length < pathMax)
    (hi : fs.lookup path = some i) (hlink : fs.hasType i .lnk = true) :
    ∃ d, fs.holderOf rootIno path = some d ∧ fs.nextInode path i = fs.lookupAt (fs.targetBase i d) (fs.target i) := by
  obtain ⟨d, next, hd, hread, hnext, hm⟩ := hsafe.next h (abs_of_lookup hi) hlen hi hlink
  refine ⟨d, hd, ?_⟩
  rw [nextInode, hread]
  dsimp only
  rw [hnext, Option.bind_some, h.lookup_eq hm.abs hm.short, h.lookupAt_eq hm.linked hm.shortPath, hm.same]

end Ramfs

namespace Vfs

open Ramfs Library

/-- `vfs_lookup` of a path outside procfs follows links as ramfs does: every target is looked up from the root or from
the directory that holds the link, when the links that it comes to are safe and at most seven. -/
theorem vfsLookup_chases (s : Vfs) (current : Nat) (path : List UInt8) (h : s.fs.Tree) (hproc : underProc path = false)
    (hlen : path.length < pathMax) (hsafe : ∀ n last, n < 7 → s.fs.Visits n path last → s.fs.LinkSafe last)
    (hfew : ∀ last i, s.fs.Visits 7 path last → s.fs.lookup last = some i → s.fs.hasType i .lnk = false) :
    (∀ n last i, n < 7 → s.fs.Visits n path last → s.fs.lookup last = some i → s.fs.hasType i .lnk = true →
      ∃ d, s.fs.holderOf rootIno last = some d ∧ s.fs.nextInode last i = s.fs.lookupAt (s.fs.targetBase i d)
        (s.fs.target i)) ∧
    (s.vfsLookup current path).1 = (s.fs.linkEnd path).map .ramfs := by
  constructor
  · intro n last i hn hvisit hi hlink
    exact (hsafe n last hn hvisit).nextInode_eq h (hvisit.short hlen) hi hlink
  · have hend : s.fs.follow 8 path = s.fs.linkEnd path := by
      unfold linkEnd
      by_cases habs : path.head? = some slash
      · rw [if_pos habs]
        exact Mirrors.follow_eq h ⟨habs, hlen, hlen, h.linked_root, rfl, fun _ _ _ => rfl⟩ hsafe hfew
      · rw [if_neg habs]
        exact follow_none (if_neg habs)
    have hpart : s.procPart current path = (none, s) := by
      unfold procPart
      rw [hproc]
      rfl
    unfold vfsLookup
    rw [hpart]
    dsimp only
    rw [strCopy_of_short hlen, hend]
    cases s.fs.linkEnd path <;> rfl

/-- A directory `/b`, a file `/x`, and a link `/b/m` to `../x`. -/
def oneLink : Ramfs :=
  (Maker.run (.symlink [46, 46, 47, 120])
    (Maker.run (.create 0o644) (Maker.run .mkdir (Ramfs.init []) [47, 98]).2 [47, 120]).2
    [47, 98, 47, 109]).2

theorem oneLink_tree : oneLink.Tree := by
  have hinit : (Ramfs.init []).Tree := init_inv (by simp)
  exact ((hinit.made .mkdir rfl rfl).made (.create 0o644) rfl rfl).made (.symlink [46, 46, 47, 120]) rfl rfl

/-- The same with a link `/l`. -/
def twoLinks (target : List UInt8) : Vfs :=
    { init [] [] [] with fs := (Maker.run (.symlink target) oneLink [47, 108]).2 }

/-- The link `/l` leads to `/b/m`, and that to `/x`. -/
theorem vfsLookup_chases_twoLinks :
    ((twoLinks [47, 98, 47, 109]).vfsLookup 1 [47, 108]).1 =
      ((twoLinks [47, 98, 47, 109]).fs.linkEnd [47, 108]).map .ramfs ∧
      (twoLinks [47, 98, 47, 109]).fs.linkEnd [47, 108] = some 3 := by
  have htree : (twoLinks [47, 98, 47, 109]).fs.Tree := oneLink_tree.made (.symlink [47, 98, 47, 109]) rfl rfl
  have hl : (twoLinks [47, 98, 47, 109]).fs.lookup [47, 108] = some 5 := rfl
  have hm : (twoLinks [47, 98, 47, 109]).fs.lookup [47, 98, 47, 109] = some 4 := rfl
  have hx : (twoLinks [47, 98, 47, 109]).fs.lookup [47, 120] = some 3 := rfl
  have hvisits : ∀ n last, (twoLinks [47, 98, 47, 109]).fs.Visits n [47, 108] last →
      n = 0 ∧ last = [47, 108] ∨ n = 1 ∧ last = [47, 98, 47, 109] ∨ n = 2 ∧ last = [47, 120] := by
    intro n last hvisit
    rcases hvisit with _ | ⟨hi, htarget, hnext, hvisit⟩
    · exact .inl ⟨rfl, rfl⟩
    cases hl.symm.trans hi
    cases htarget
    cases hnext
    rcases hvisit with _ | ⟨hi, htarget, hnext, hvisit⟩
    · exact .inr (.inl ⟨rfl, rfl⟩)
    cases hm.symm.trans hi
    cases htarget
    cases hnext
    rcases hvisit with _ | ⟨hi, htarget, hnext, hvisit⟩
    · exact .inr (.inr ⟨rfl, rfl⟩)
    cases hx.symm.trans hi
    cases htarget
  refine ⟨(vfsLookup_chases _ 1 [47, 108] htree rfl (by decide) (fun n last _ hvisit i hi hlink => ?_)
    fun last i hvisit => ?_).2, rfl⟩
  · obtain ⟨-, rfl⟩ | ⟨-, rfl⟩ | ⟨-, rfl⟩ := hvisits n last hvisit
    · cases hl.symm.trans hi
      exact ⟨by decide, fun hrel => absurd rfl hrel⟩
    · cases hm.symm.trans hi
      refine ⟨by decide, fun _ parent n hparent => ?_⟩
      cases hparent
      exact ⟨⟨[47, 120], rfl⟩, .name ⟨by decide, by decide, by decide, by decide⟩ (rfl : _ = some 2) rfl, trivial⟩
    · cases hx.symm.trans hi
      cases hlink
  · rcases hvisits 7 last hvisit with ⟨h, -⟩ | ⟨h, -⟩ | ⟨h, -⟩ <;> cases h

/-- A file `/8`, and links `/7` to `/0`, each to the next number. -/
def eightLinks : List RamfsOp :=
  .create [47, 56] 0o644 :: [55, 54, 53, 52, 51, 50, 49, 48].map fun k => .symlink rootIno (Name.clip [k]) [47, k + 1]

/-- The link `/l` to `/b/./m`: the dot is taken off in place of `b`, and `/b/x` is not there. The eighth link of a chain
is not followed. -/
theorem vfsLookup_drifts :
    ((twoLinks [47, 98, 47, 46, 47, 109]).fs.Tree ∧
      ((twoLinks [47, 98, 47, 46, 47, 109]).vfsLookup 1 [47, 108]).1 = none ∧
      (twoLinks [47, 98, 47, 46, 47, 109]).fs.linkEnd [47, 108] = some 3) ∧
    ∃ fs, run Ramfs.step (Ramfs.init []) eightLinks = some fs ∧ fs.Tree ∧
      (({ init [] [] [] with fs := fs } : Vfs).vfsLookup 1 [47, 48]).1 = none ∧ fs.linkEnd [47, 48] = some 2 := by
  refine ⟨⟨oneLink_tree.made (.symlink [47, 98, 47, 46, 47, 109]) rfl rfl, rfl, rfl⟩, ?_⟩
  obtain ⟨fs, hrun, hnone, hend⟩ : ∃ fs, run Ramfs.step (Ramfs.init []) eightLinks = some fs ∧
      (({ init [] [] [] with fs := fs } : Vfs).vfsLookup 1 [47, 48]).1 = none ∧ fs.linkEnd [47, 48] = some 2 :=
    ⟨_, rfl, rfl, rfl⟩
  have hinv := run_invariant (fun _ _ _ hi hs => step_unheld hi hs) ⟨init_inv (by simp), init_unheld []⟩ hrun
  exact ⟨fs, hrun, { hinv.1 with supplied := by simp [withAllocs] }, hnone, hend⟩

end Vfs

end MiniOs.Fs
