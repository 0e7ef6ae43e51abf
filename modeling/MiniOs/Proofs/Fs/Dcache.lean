/-
The dentry cache. Its dentries form a tree under the root dentry, each with a name that its siblings
do not have and that ramfs has for its inode, and the working directories of all tasks are in it. A
lookup only adds to the cache; what it walked along stays there for the next one.
-/
import MiniOs.Fs.Namei
import MiniOs.Proofs.Fs.RamfsLookup

namespace MiniOs.Fs

open Library Function

namespace Vfs

variable {s s' s'' : Vfs} {hole : Nat → Prop} {c d q : Nat} {n : Name} {x y : Dentry}

/-! ## Dentries without their children -/

/-- What a dentry says of itself: its name, its inode and its parent. -/
def bare (s : Vfs) (d : Nat) : Option Dentry := (s.dentries d).map fun x => { x with children := [] }

theorem parentOf_eq (s : Vfs) : s.parentOf = fun d => (s.bare d).bind Dentry.parent := by
  funext d
  unfold parentOf bare
  cases s.dentries d <;> rfl

theorem parentOf_of_bare (h : s.bare d = some x) : s.parentOf d = x.parent := by
  rw [parentOf_eq]
  simp [h]

theorem inodeOf_eq (s : Vfs) (d : Nat) : s.inodeOf d = ((s.bare d).map Dentry.inode).getD 0 := by
  unfold inodeOf bare
  cases s.dentries d <;> rfl

theorem inodeOf_of_bare (h : s.bare d = some x) : s.inodeOf d = x.inode := by
  rw [inodeOf_eq]
  simp [h]

theorem hasName_eq (s : Vfs) (n : Name) (d : Nat) : s.hasName n d = (s.bare d).any fun x => x.name = n := by
  unfold hasName bare
  cases s.dentries d <;> rfl

theorem bare_eq_none : s.bare d = none ↔ s.dentries d = none := by
  unfold bare
  exact Option.map_eq_none_iff

theorem childrenOf_of_dead (h : s.bare d = none) : s.childrenOf d = [] := by
  unfold childrenOf
  rw [bare_eq_none.1 h]
  rfl

theorem bare_modifyChildren (s : Vfs) (q : Nat) (f : List Nat → List Nat) :
    (s.modifyDentry q fun x => { x with children := f x.children }).bare = s.bare := by
  funext d
  unfold bare modifyDentry
  by_cases e : d = q
  · subst e
    simp only [update_self, Option.map_map]
    rfl
  · simp only [update_of_ne e]

theorem childrenOf_modifyChildren (hq : s.bare q = some x) (f : List Nat → List Nat) :
    (s.modifyDentry q fun x => { x with children := f x.children }).childrenOf =
      update s.childrenOf q (f (s.childrenOf q)) := by
  obtain ⟨xq, hxq, -⟩ := Option.map_eq_some_iff.1 hq
  funext d
  unfold childrenOf modifyDentry
  by_cases e : d = q
  · subst e
    simp [hxq]
  · simp only [update_of_ne e]

/-! ## The invariant -/

/-- The cache is a tree that agrees with the entries of ramfs, but for the dentries in `hole`, whose
entries an operation has just taken away. -/
structure CacheInv (s : Vfs) (hole : Nat → Prop) : Prop where
  fresh : ∀ d, s.nextDentry ≤ d → s.bare d = none
  root : ∃ x, s.bare rootDentry = some x ∧ x.inode = rootIno ∧ x.parent = none
  child : ∀ q c, c ∈ s.childrenOf q → ∃ x, s.bare c = some x ∧ x.parent = some q
  parent : ∀ c x, s.bare c = some x → c ≠ rootDentry → ∃ q y, x.parent = some q ∧ s.bare q = some y ∧
    c ∈ s.childrenOf q ∧ (¬ hole c → s.fs.findChild y.inode x.name = some x.inode)
  nodup : ∀ q, (s.childrenOf q).Nodup
  names : ∀ c d x y q, s.bare c = some x → s.bare d = some y → x.parent = some q → y.parent = some q →
    x.name = y.name → c = d
  reach : ∀ c x, s.bare c = some x → Reaches s.parentOf c rootDentry
  cwd : ∀ p d, s.cwd p = some d → ∃ x, s.bare d = some x

/-- Nothing is unfinished. -/
def noHole : Nat → Prop := fun _ => False

theorem CacheInv.lt (h : s.CacheInv hole) (hd : s.bare d = some x) : d < s.nextDentry := by
  by_contra hge
  rw [h.fresh d (by omega)] at hd
  cases hd

theorem CacheInv.mono {hole' : Nat → Prop} (h : s.CacheInv hole) (hh : ∀ c, hole c → hole' c) : s.CacheInv hole' := by
  refine { h with parent := ?_ }
  intro c x hx hc
  obtain ⟨q, y, h1, h2, h3, h4⟩ := h.parent c x hx hc
  exact ⟨q, y, h1, h2, h3, fun hn => h4 fun hc => hn (hh c hc)⟩

/-- The cache does not notice what happens to the other parts of the state, nor to ramfs when the
entries of its dentries stay. -/
theorem CacheInv.congr {hole' : Nat → Prop} (h : s.CacheInv hole) (hd : s'.dentries = s.dentries)
    (hn : s'.nextDentry = s.nextDentry) (hw : s'.cwd = s.cwd)
    (hf : ∀ c x q y, s.bare c = some x → x.parent = some q → s.bare q = some y → ¬ hole' c → ¬ hole c →
      s.fs.findChild y.inode x.name = some x.inode → s'.fs.findChild y.inode x.name = some x.inode)
    (hh : ∀ c, hole c → hole' c) : s'.CacheInv hole' := by
  have hbare : s'.bare = s.bare := by
    funext d
    simp only [bare, hd]
  have hchildren : s'.childrenOf = s.childrenOf := by
    funext d
    simp only [childrenOf, hd]
  have hparent : s'.parentOf = s.parentOf := by rw [parentOf_eq, parentOf_eq, hbare]
  constructor
  · rw [hbare, hn]
    exact h.fresh
  · rw [hbare]
    exact h.root
  · rw [hbare, hchildren]
    exact h.child
  · rw [hbare, hchildren]
    intro c x hx hc
    obtain ⟨q, y, h1, h2, h3, h4⟩ := h.parent c x hx hc
    refine ⟨q, y, h1, h2, h3, fun hnot => ?_⟩
    have hnot' : ¬ hole c := fun hc => hnot (hh c hc)
    exact hf c x q y hx h1 h2 hnot hnot' (h4 hnot')
  · rw [hchildren]
    exact h.nodup
  · rw [hbare]
    exact h.names
  · rw [hbare, hparent]
    exact h.reach
  · rw [hbare, hw]
    exact h.cwd

/-! ## Adding a dentry -/

theorem dAdd_bare (h : s.CacheInv hole) (hq : s.bare q = some y) (n : Name) (i : Nat) :
    (s.dAdd q n i).bare = update s.bare s.nextDentry (some ⟨n, i, some q, []⟩) ∧
      (s.dAdd q n i).childrenOf = update s.childrenOf q (s.nextDentry :: s.childrenOf q) := by
  let s1 : Vfs :=
    { s with
      dentries := update s.dentries s.nextDentry (some ⟨n, i, some q, []⟩), nextDentry := s.nextDentry + 1 }
  have hne : q ≠ s.nextDentry := (h.lt hq).ne
  have hbare : s1.bare = update s.bare s.nextDentry (some ⟨n, i, some q, []⟩) := by
    funext d
    simp only [s1, bare, update_apply]
    split <;> rfl
  have hchildren : s1.childrenOf = s.childrenOf := by
    funext d
    by_cases e : d = s.nextDentry
    · subst e
      rw [childrenOf_of_dead (h.fresh _ (Nat.le_refl _))]
      simp [s1, childrenOf]
    · simp only [s1, childrenOf, update_of_ne e]
  have hq1 : s1.bare q = some y := by
    rw [hbare, update_of_ne hne]
    exact hq
  constructor
  · rw [← hbare]
    exact bare_modifyChildren s1 q fun l => s.nextDentry :: l
  · rw [← hchildren]
    exact childrenOf_modifyChildren hq1 fun l => s.nextDentry :: l

theorem parentOf_update {v : Option Dentry} (hb : s'.bare = update s.bare d v) :
    s'.parentOf = update s.parentOf d (v.bind Dentry.parent) := by
  rw [parentOf_eq, parentOf_eq, hb]
  funext c
  by_cases e : c = d
  · subst e
    simp
  · simp only [update_of_ne e]

theorem CacheInv.not_root (h : s.CacheInv hole) (hc : s.bare c = some x) (hp : x.parent = some q) :
    c ≠ rootDentry := by
  rintro rfl
  obtain ⟨r, hr, -, hnone⟩ := h.root
  obtain rfl := Option.mem_unique hc hr
  rw [hnone] at hp
  cases hp

/-- One dentry comes, goes or changes; the lists of children follow. -/
theorem CacheInv.place {v : Option Dentry} (h : s.CacheInv hole) (hroot : d ≠ rootDentry)
    (hbare : s'.bare = update s.bare d v)
    (hmem : ∀ p c, c ∈ s'.childrenOf p ↔ (v.bind Dentry.parent = some p ∧ c = d) ∨ (c ∈ s.childrenOf p ∧ c ≠ d))
    (hnodup : ∀ p, (s'.childrenOf p).Nodup) (hfs : s'.fs = s.fs) (hfresh : ∀ c, s'.nextDentry ≤ c → s'.bare c = none)
    (hv : ∀ z, v = some z → ∃ q y, z.parent = some q ∧ s.bare q = some y ∧ q ≠ d ∧
      s.fs.findChild y.inode z.name = some z.inode ∧ ∀ c w, c ≠ d → s.bare c = some w → w.parent = some q →
        w.name ≠ z.name)
    (hkids : ∀ c x, c ∈ s.childrenOf d → s.bare d = some x → ∃ z, v = some z ∧ z.inode = x.inode)
    (hreach : ∀ c z, s'.bare c = some z → Reaches s'.parentOf c rootDentry)
    (hcwd : ∀ p c, s'.cwd p = some c → ∃ z, s'.bare c = some z) : s'.CacheInv fun c => hole c ∧ c ≠ d := by
  have hkeep : ∀ {c z}, s.bare c = some z → c ≠ d → s'.bare c = some z := fun hz hne => by
    rw [hbare, update_of_ne hne, hz]
  have hself : s'.bare d = v := by rw [hbare, update_self]
  have hcases : ∀ {c z}, s'.bare c = some z → (c = d ∧ v = some z) ∨ (c ≠ d ∧ s.bare c = some z) := by
    intro c z hz
    by_cases e : c = d
    · subst e
      exact Or.inl ⟨rfl, hself.symm.trans hz⟩
    · rw [hbare, update_of_ne e] at hz
      exact Or.inr ⟨e, hz⟩
  refine ⟨hfresh, ?_, ?_, ?_, hnodup, ?_, hreach, hcwd⟩
  · obtain ⟨r, hr, h1⟩ := h.root
    exact ⟨r, hkeep hr hroot.symm, h1⟩
  · intro p c hc
    rcases (hmem p c).1 hc with ⟨hp, rfl⟩ | ⟨hc, hne⟩
    · rw [hself]
      exact Option.bind_eq_some_iff.1 hp
    · obtain ⟨z, hz, hzp⟩ := h.child p c hc
      exact ⟨z, hkeep hz hne, hzp⟩
  · intro c z hz hc
    rcases hcases hz with ⟨rfl, hz⟩ | ⟨hne, hz⟩
    · obtain ⟨q, y, hp, hy, hne, hf, -⟩ := hv z hz
      exact ⟨q, y, hp, hkeep hy hne, (hmem q c).2 (Or.inl ⟨by rw [hz]; exact hp, rfl⟩), fun _ => hfs ▸ hf⟩
    · obtain ⟨p, w, h1, h2, h3, h4⟩ := h.parent c z hz hc
      obtain ⟨w', hw', hi⟩ : ∃ w', s'.bare p = some w' ∧ w'.inode = w.inode := by
        by_cases e : p = d
        · subst e
          obtain ⟨z', hz', hi⟩ := hkids c w h3 h2
          exact ⟨z', hself.trans hz', hi⟩
        · exact ⟨w, hkeep h2 e, rfl⟩
      refine ⟨p, w', h1, hw', (hmem p c).2 (Or.inr ⟨h3, hne⟩), fun hn => ?_⟩
      rw [hi, hfs]
      exact h4 fun hc => hn ⟨hc, hne⟩
  · -- its name is one that no sibling has
    intro c e z w p hc he hz hw hname
    rcases hcases hc with ⟨rfl, hc⟩ | ⟨hcd, hc⟩
    · rcases hcases he with ⟨rfl, -⟩ | ⟨hed, he⟩
      · rfl
      · obtain ⟨q, -, hq, -, -, -, hfree⟩ := hv z hc
        obtain rfl := Option.mem_unique hq hz
        exact absurd hname.symm (hfree e w hed he hw)
    · rcases hcases he with ⟨rfl, he⟩ | ⟨-, he⟩
      · obtain ⟨q, -, hq, -, -, -, hfree⟩ := hv w he
        obtain rfl := Option.mem_unique hq hw
        exact absurd hname (hfree c z hcd hc hz)
      · exact h.names c e z w p hc he hz hw hname

theorem CacheInv.dAdd {i : Nat} (h : s.CacheInv hole) (hq : s.bare q = some y) (hf : s.fs.findChild y.inode n = some i)
    (hfree : ∀ c x, s.bare c = some x → x.parent = some q → x.name ≠ n) : (s.dAdd q n i).CacheInv hole := by
  obtain ⟨hbare, hchildren⟩ := dAdd_bare h hq n i
  have hdead : s.bare s.nextDentry = none := h.fresh _ (Nat.le_refl _)
  have hold : ∀ {c x}, s.bare c = some x → (s.dAdd q n i).bare c = some x := by
    intro c x hc
    rw [hbare, update_of_ne (h.lt hc).ne]
    exact hc
  have hne : ∀ {p c}, c ∈ s.childrenOf p → c ≠ s.nextDentry := by
    intro p c hc
    obtain ⟨x, hx, -⟩ := h.child p c hc
    exact (h.lt hx).ne
  have hreach : ∀ {c}, Reaches s.parentOf c rootDentry → Reaches (s.dAdd q n i).parentOf c rootDentry := by
    intro c hc
    refine hc.mono fun a b hab => ?_
    obtain ⟨xa, hxa, hpa⟩ : ∃ xa, s.bare a = some xa ∧ xa.parent = some b := by
      rw [parentOf_eq] at hab
      exact Option.bind_eq_some_iff.1 hab
    rw [parentOf_of_bare (hold hxa), hpa]
  obtain ⟨r, hr, -⟩ := h.root
  refine (h.place (h.lt hr).ne' hbare (fun p c => ?_) (fun p => ?_) rfl (fun d hd => ?_) ?_
    (fun c x _ hx => by simp [hdead] at hx) (fun c x hx => ?_) fun p d hd => ?_).mono fun c hc => hc.1
  · rw [hchildren]
    by_cases e : p = q
    · subst e
      simpa using or_congr_right (and_iff_left_of_imp hne).symm
    · simpa [e, Ne.symm e] using fun hc => hne hc
  · rw [hchildren]
    by_cases e : p = q
    · subst e
      rw [update_self, List.nodup_cons]
      exact ⟨fun hm => hne hm rfl, h.nodup p⟩
    · rw [update_of_ne e]
      exact h.nodup p
  · have hd' : s.nextDentry + 1 ≤ d := hd
    rw [hbare, update_of_ne (by omega)]
    exact h.fresh d (by omega)
  · rintro z ⟨⟩
    exact ⟨q, y, rfl, hq, (h.lt hq).ne, hf, fun c w _ => hfree c w⟩
  · by_cases e : c = s.nextDentry
    · subst e
      rw [hbare, update_self] at hx
      cases hx
      refine Reaches.head (y := q) ?_ (hreach (h.reach q y hq))
      rw [parentOf_of_bare (by rw [hbare, update_self])]
    · rw [hbare, update_of_ne e] at hx
      exact hreach (h.reach c x hx)
  · obtain ⟨x, hx⟩ := h.cwd p d hd
    exact ⟨x, hold hx⟩

/-! ## Finding a child -/

theorem CacheInv.dFindChild_iff (h : s.CacheInv hole) :
    s.dFindChild q n = some c ↔ ∃ x, s.bare c = some x ∧ x.parent = some q ∧ x.name = n := by
  unfold dFindChild
  constructor
  · intro hf
    obtain ⟨x, hx, hp⟩ := h.child q c (List.mem_of_find?_eq_some hf)
    have hname := List.find?_some hf
    rw [hasName_eq, hx] at hname
    exact ⟨x, hx, hp, by simpa using hname⟩
  · rintro ⟨x, hx, hp, hname⟩
    have hroot : c ≠ rootDentry := h.not_root hx hp
    obtain ⟨p, y, h1, h2, h3, -⟩ := h.parent c x hx hroot
    obtain rfl := Option.mem_unique h1 hp
    have hsome : ((s.childrenOf p).find? (s.hasName n)).isSome := by
      rw [List.find?_isSome]
      exact ⟨c, h3, by simp [hasName_eq, hx, hname]⟩
    obtain ⟨d, hd⟩ := Option.isSome_iff_exists.1 hsome
    -- names are distinct, so the child found is the one we know
    obtain ⟨z, hz, hzp⟩ := h.child p d (List.mem_of_find?_eq_some hd)
    have hdn := List.find?_some hd
    rw [hasName_eq, hz] at hdn
    have hzn : z.name = n := by simpa using hdn
    rw [hd, h.names d c z x p hz hx hzp hp (by rw [hzn, hname])]

theorem CacheInv.dFindChild_eq_none (h : s.CacheInv hole) (hf : s.dFindChild q n = none) (hx : s.bare c = some x)
    (hp : x.parent = some q) : x.name ≠ n := by
  intro hname
  rw [h.dFindChild_iff.2 ⟨x, hx, hp, hname⟩] at hf
  cases hf

/-! ## Lookups add to the cache -/

/-- The later state has all the dentries of the earlier one, and nothing else has changed but the
memory that is left and the inodes of procfs. -/
structure Grows (s s' : Vfs) : Prop where
  bare : ∀ c x, s.bare c = some x → s'.bare c = some x
  fs : s'.fs = s.fs
  files : s'.files = s.files
  cwd : s'.cwd = s.cwd
  tasks : s'.tasks = s.tasks
  procRoot : s'.procRoot = s.procRoot
  stale : s'.stale = s.stale
  stray : s'.stray = s.stray
  allocs : ∀ ok ∈ s'.allocs, ok ∈ s.allocs

theorem Grows.refl (s : Vfs) : Grows s s :=
  ⟨fun _ _ h => h, rfl, rfl, rfl, rfl, rfl, rfl, rfl, fun _ h => h⟩

theorem Grows.trans (h1 : Grows s s') (h2 : Grows s' s'') : Grows s s'' :=
  ⟨fun c x h => h2.bare c x (h1.bare c x h), h2.fs.trans h1.fs, h2.files.trans h1.files, h2.cwd.trans h1.cwd,
    h2.tasks.trans h1.tasks, h2.procRoot.trans h1.procRoot, h2.stale.trans h1.stale, h2.stray.trans h1.stray,
    fun ok h => h1.allocs ok (h2.allocs ok h)⟩

theorem kmalloc_cases (s : Vfs) :
    ∃ ok allocs, s.kmalloc = (ok, { s with allocs := allocs }) ∧ (∀ b ∈ allocs, b ∈ s.allocs) ∧
      (ok = false → false ∈ s.allocs) := by
  unfold kmalloc
  cases ha : s.allocs with
  | nil =>
    refine ⟨true, [], ?_, by simp, by simp⟩
    show (true, s) = (true, { s with allocs := [] })
    rw [← ha]
  | cons ok rest => exact ⟨ok, rest, rfl, fun b hb => List.mem_cons_of_mem _ hb, by rintro rfl; simp⟩

theorem CacheInv.kmalloc (h : s.CacheInv hole) (allocs : List Bool) : CacheInv { s with allocs := allocs } hole :=
  h.congr rfl rfl rfl (fun _ _ _ _ _ _ _ _ _ hf => hf) fun _ hc => hc

/-- One component: the child is in the cache now, or ramfs has no such name, or there was no memory. -/
theorem CacheInv.dStep (h : s.CacheInv hole) (hd : s.bare d = some y) (n : Name) :
    ∃ r s', s.dStep d n = (r, s') ∧ s'.CacheInv hole ∧ Grows s s' ∧
      match r with
      | some c => ∃ x, s'.bare c = some x ∧ x.parent = some d ∧ x.name = n
      | none => (∀ c x, s'.bare c = some x → x.parent = some d → x.name ≠ n) ∧
          (s.fs.findChild y.inode n = none ∨ false ∈ s.allocs) := by
  unfold Vfs.dStep
  cases hf : s.dFindChild d n with
  | some c =>
    obtain ⟨x, hx⟩ := h.dFindChild_iff.1 hf
    exact ⟨_, _, rfl, h, Grows.refl s, x, hx⟩
  | none =>
    have hfree : ∀ c x, s.bare c = some x → x.parent = some d → x.name ≠ n := fun c x hx hp =>
      h.dFindChild_eq_none hf hx hp
    rw [inodeOf_of_bare hd]
    cases hi : s.fs.findChild y.inode n with
    | none => exact ⟨_, _, rfl, h, Grows.refl s, hfree, Or.inl rfl⟩
    | some i =>
      obtain ⟨ok, allocs, hk, hsub, hbad⟩ := s.kmalloc_cases
      have h1 : CacheInv { s with allocs := allocs } hole := h.kmalloc allocs
      have hg1 : Grows s { s with allocs := allocs } :=
        ⟨fun _ _ hx => hx, rfl, rfl, rfl, rfl, rfl, rfl, rfl, hsub⟩
      simp only [hk]
      cases ok with
      | false => exact ⟨_, _, rfl, h1, hg1, hfree, Or.inr (hbad rfl)⟩
      | true =>
        have hd1 : ({ s with allocs := allocs } : Vfs).bare d = some y := hd
        obtain ⟨hbare, -⟩ := dAdd_bare h1 hd1 n i
        have h2 := h1.dAdd hd1 hi hfree
        have hg2 : Grows { s with allocs := allocs } (({ s with allocs := allocs } : Vfs).dAdd d n i) := by
          refine ⟨?_, rfl, rfl, rfl, rfl, rfl, rfl, rfl, fun _ hb => hb⟩
          intro c x hx
          rw [hbare, update_of_ne (h1.lt hx).ne]
          exact hx
        refine ⟨_, _, rfl, h2, hg1.trans hg2, ⟨n, i, some d, []⟩, ?_, rfl, rfl⟩
        rw [hbare]
        exact update_self ..

theorem CacheInv.dLookupLoop : ∀ {fuel : Nat} {s : Vfs} {d : Nat} {path : List UInt8}, s.CacheInv hole →
    (∃ y, s.bare d = some y) →
    ∃ r s', Vfs.dLookupLoop fuel s d path = (r, s') ∧ s'.CacheInv hole ∧ Grows s s' ∧ ∀ c, r = some c → ∃ x,
      s'.bare c = some x
  | 0, s, d, path, h, _ => ⟨none, s, rfl, h, Grows.refl s, by rintro c ⟨⟩⟩
  | fuel + 1, s, d, path, h, ⟨y, hd⟩ => by
    unfold Vfs.dLookupLoop
    dsimp only
    split_ifs with h1 h2 h3 h4
    · refine ⟨_, _, rfl, h, Grows.refl s, ?_⟩
      rintro c ⟨⟩
      exact ⟨y, hd⟩
    · exact CacheInv.dLookupLoop h ⟨y, hd⟩
    · -- up to the parent, which is in the cache too
      apply CacheInv.dLookupLoop h
      by_cases hroot : d = rootDentry
      · subst hroot
        obtain ⟨r, hr, -, hnone⟩ := h.root
        rw [parentOf_of_bare hr, hnone]
        exact ⟨r, hr⟩
      · obtain ⟨q, z, hp, hz, -⟩ := h.parent d y hd hroot
        rw [parentOf_of_bare hd, hp]
        exact ⟨z, hz⟩
    · obtain ⟨r, s1, heq, hi1, hg1, hr⟩ := h.dStep hd ⟨_, h2⟩
      rw [heq]
      cases r with
      | none => exact ⟨_, _, rfl, hi1, hg1, by rintro c ⟨⟩⟩
      | some c =>
        obtain ⟨x, hx, -⟩ := hr
        obtain ⟨r', s2, heq2, hi2, hg2, hr2⟩ := CacheInv.dLookupLoop hi1 ⟨x, hx⟩
        exact ⟨r', s2, heq2, hi2, hg1.trans hg2, hr2⟩
    · exact ⟨_, _, rfl, h, Grows.refl s, by rintro c ⟨⟩⟩

theorem CacheInv.dLookupPath (h : s.CacheInv hole) (path : List UInt8) :
    ∃ r s', s.dLookupPath path = (r, s') ∧ s'.CacheInv hole ∧ Grows s s' ∧ ∀ c, r = some c → ∃ x,
      s'.bare c = some x := by
  unfold Vfs.dLookupPath
  split_ifs with hs
  · exact ⟨_, _, rfl, h, Grows.refl s, by rintro c ⟨⟩⟩
  · obtain ⟨x, hx, -⟩ := h.root
    exact CacheInv.dLookupLoop h ⟨x, hx⟩

/-! ## Lookups of normalised paths -/

/-- `d_lookup_path` as a walk along components. -/
def dWalk : Vfs → Nat → List Name → Option Nat × Vfs
  | s, d, [] => (some d, s)
  | s, d, n :: cs =>
    match s.dStep d n with
    | (none, s) => (none, s)
    | (some c, s) => dWalk s c cs

theorem dLookupLoop_slashed : ∀ {cs : List Name} {fuel : Nat} {s : Vfs} {d : Nat}, cs.length < fuel →
    (∀ n ∈ cs, IsComponent n.bytes) → Vfs.dLookupLoop fuel s d (slashed (cs.map Name.bytes)) = dWalk s d cs
  | [], fuel + 1, s, d, _, _ => rfl
  | n :: cs, fuel + 1, s, d, hlen, hcs => by
    have hn : IsComponent n.bytes := hcs n (List.mem_cons_self ..)
    have hrest : ∀ m ∈ cs, IsComponent m.bytes := fun m hm => hcs m (List.mem_cons_of_mem _ hm)
    have hne : n.bytes ++ slashed (cs.map Name.bytes) ≠ [] := by simp [hn.ne_nil]
    unfold Vfs.dLookupLoop dWalk
    rw [List.map_cons, skipSlash_slashed hn, if_neg hne]
    simp only [component_append hn, List.drop_left, n.short, dif_pos, if_neg hn.ne_dot, if_neg hn.ne_dotdot]
    rcases hstep : s.dStep d n with ⟨_ | c, s1⟩
    · rfl
    · exact dLookupLoop_slashed (by simpa using hlen) hrest

theorem dLookupPath_renderPath {cs : List Name} (s : Vfs) (hcs : ∀ n ∈ cs, IsComponent n.bytes) :
    s.dLookupPath (renderPath (cs.map Name.bytes)) = dWalk s rootDentry cs := by
  unfold Vfs.dLookupPath
  rw [head?_renderPath, if_neg (by simp)]
  cases cs with
  | nil => rfl
  | cons n cs =>
    rw [renderPath_of_ne_nil (by simp)]
    apply dLookupLoop_slashed _ hcs
    simpa using Nat.lt_succ_of_le (length_le_slashed ((n :: cs).map Name.bytes))

theorem dWalk_append : ∀ (cs : List Name) (s : Vfs) (d : Nat) (n : Name), dWalk s d (cs ++ [n]) =
    match dWalk s d cs with
    | (none, s) => (none, s)
    | (some q, s) => s.dStep q n
  | [], s, d, n => by
    simp only [List.nil_append, dWalk]
    split
    · next h => rw [h]
    · next h => rw [h]
  | m :: cs, s, d, n => by
    simp only [List.cons_append, dWalk]
    split
    · rfl
    · exact dWalk_append cs _ _ n

/-- The components lead from one dentry to another inside the cache. -/
def Trail (s : Vfs) : Nat → List Name → Nat → Prop
  | d, [], q => d = q
  | d, n :: cs, q => ∃ c x, s.bare c = some x ∧ x.parent = some d ∧ x.name = n ∧ s.Trail c cs q

theorem Trail.mono (hb : ∀ c x, s.bare c = some x → s'.bare c = some x) :
    ∀ {cs : List Name} {d q : Nat}, s.Trail d cs q → s'.Trail d cs q
  | [], _, _, h => h
  | _ :: _, _, _, ⟨c, x, hx, hp, hn, h⟩ => ⟨c, x, hb c x hx, hp, hn, h.mono hb⟩

theorem Trail.append : ∀ {cs : List Name} {d q : Nat}, s.Trail d cs q → s.bare c = some x → x.parent = some q →
    s.Trail d (cs ++ [x.name]) c
  | [], _, _, h, hc, hp => ⟨c, x, hc, h ▸ hp, rfl, rfl⟩
  | _ :: _, _, _, ⟨c', x', hx, hp', hn, h⟩, hc, hp => ⟨c', x', hx, hp', hn, h.append hc hp⟩

/-- A walk along a trail finds everything in the cache. -/
theorem CacheInv.dWalk_trail (h : s.CacheInv hole) : ∀ {cs : List Name} {d q : Nat}, s.Trail d cs q →
    dWalk s d cs = (some q, s)
  | [], _, _, ht => by
    cases ht
    rfl
  | n :: cs, d, q, ⟨c, x, hx, hp, hn, ht⟩ => by
    have hfind : s.dFindChild d n = some c := h.dFindChild_iff.2 ⟨x, hx, hp, hn⟩
    have hstep : s.dStep d n = (some c, s) := by
      unfold Vfs.dStep
      rw [hfind]
    unfold dWalk
    rw [hstep]
    exact h.dWalk_trail ht

/-- The walk of the cache and the walk of ramfs come to the same inode, or memory ran out. -/
theorem CacheInv.dWalk : ∀ (cs : List Name) {s : Vfs} {d : Nat} {y : Dentry}, s.CacheInv noHole → s.bare d = some y →
    ∃ r s', Vfs.dWalk s d cs = (r, s') ∧ s'.CacheInv noHole ∧ Grows s s' ∧
      match r with
      | some q => s'.Trail d cs q ∧ ∃ z, s'.bare q = some z ∧ s.fs.walk y.inode cs = some z.inode
      | none => s.fs.walk y.inode cs = none ∨ false ∈ s.allocs
  | [], s, d, y, h, hd => ⟨_, _, rfl, h, Grows.refl s, rfl, y, hd, rfl⟩
  | n :: cs, s, d, y, h, hd => by
    obtain ⟨r, s1, heq, h1, hg1, hr⟩ := h.dStep hd n
    unfold Vfs.dWalk
    rw [heq]
    cases r with
    | none =>
      refine ⟨_, _, rfl, h1, hg1, ?_⟩
      rcases hr.2 with hnone | hbad
      · left
        simp [Ramfs.walk, hnone]
      · exact Or.inr hbad
    | some c =>
      obtain ⟨x, hx, hp, hn⟩ := hr
      obtain ⟨q, y', hq, hy', -, hf⟩ := h1.parent c x hx (h1.not_root hx hp)
      obtain rfl := Option.mem_unique hp hq
      obtain rfl := Option.mem_unique (hg1.bare d y hd) hy'
      have hfind : s.fs.findChild y.inode n = some x.inode := by
        rw [← hn, ← hg1.fs]
        exact hf fun hc => hc
      obtain ⟨r2, s2, heq2, h2, hg2, hr2⟩ := CacheInv.dWalk cs h1 hx
      refine ⟨r2, s2, heq2, h2, hg1.trans hg2, ?_⟩
      rw [hg1.fs] at hr2
      cases r2 with
      | none =>
        simp only [Ramfs.walk, hfind, Option.bind_some]
        exact hr2.imp_right fun hb => hg1.allocs _ hb
      | some q2 =>
        obtain ⟨ht, z, hz, hw⟩ := hr2
        refine ⟨⟨c, x, hg2.bare c x hx, hp, hn, ht⟩, z, hz, ?_⟩
        simp only [Ramfs.walk, hfind, Option.bind_some]
        exact hw

/-! ## The cache and the tree of ramfs -/

theorem CacheInv.link (h : s.CacheInv noHole) (hc : s.bare c = some x) (hp : x.parent = some q) :
    ∃ y, s.bare q = some y ∧ s.fs.findChild y.inode x.name = some x.inode := by
  obtain ⟨q', y, hq, hy, -, hf⟩ := h.parent c x hc (h.not_root hc hp)
  obtain rfl := Option.mem_unique hp hq
  exact ⟨y, hy, hf fun hc => hc⟩

theorem CacheInv.dir_unique (h : s.CacheInv noHole) (hfs : s.fs.Inv .empty) (hc : s.bare c = some x)
    (hd : s.bare d = some y) (hxy : x.inode = y.inode) (hdir : s.fs.isDir x.inode = true) : c = d := by
  -- the root inode has no entry, so no other dentry stands for it
  have hroot : ∀ {a b : Nat} {z : Dentry}, s.bare a = some z → z.parent = some b → z.inode ≠ rootIno := by
    intro a b z hz hp
    obtain ⟨w, -, hf⟩ := h.link hz hp
    obtain ⟨rz, he⟩ := hfs.exists_entry hf
    exact he.ne_root
  obtain ⟨r, hr, hri, hrp⟩ := h.root
  have hreach := h.reach c x hc
  induction hreach using Relation.ReflTransGen.head_induction_on generalizing d x y with
  | refl =>
    obtain rfl := Option.mem_unique hc hr
    by_contra hne
    obtain ⟨q, z, hp, -⟩ := h.parent d y hd (Ne.symm hne)
    exact hroot hd hp (hxy ▸ hri)
  | @head a b hab _ ih =>
    rw [parentOf_of_bare hc] at hab
    have hd0 : d ≠ rootDentry := by
      rintro rfl
      obtain rfl := Option.mem_unique hd hr
      exact hroot hc hab (hxy.trans hri)
    obtain ⟨z, hz, hf⟩ := h.link hc hab
    obtain ⟨q, w, hq, -⟩ := h.parent d y hd hd0
    obtain ⟨w, hw, hg⟩ := h.link hd hq
    rw [← hxy] at hg
    obtain ⟨hzw, hnames⟩ := hfs.entry_unique hf hg hdir
    obtain ⟨rx, hent⟩ := hfs.exists_entry hf
    obtain rfl : b = q := ih hz hw hzw (Ramfs.isDir_of_linked hent.linked)
    exact h.names a d x y b hc hd hab hq hnames

/-- The way up from the dentry of a directory is a way up in ramfs. -/
theorem CacheInv.reaches_inode (h : s.CacheInv noHole) (hfs : s.fs.Inv .empty) {e : Nat}
    (hr : Reaches s.parentOf c e) (hc : s.bare c = some x) (he : s.bare e = some y)
    (hdir : s.fs.isDir x.inode = true) : Reaches s.fs.parentOf x.inode y.inode := by
  induction hr using Relation.ReflTransGen.head_induction_on generalizing x with
  | refl =>
    obtain rfl := Option.mem_unique hc he
    exact Reaches.refl _
  | @head a b hab _ ih =>
    rw [parentOf_of_bare hc] at hab
    obtain ⟨z, hz, hf⟩ := h.link hc hab
    obtain ⟨rx, hent⟩ := hfs.exists_entry hf
    have ht : rx.type = .dir := by simpa [Ramfs.isDir_of_live hent.live] using hdir
    refine Reaches.head (y := z.inode) ?_ (ih hz (Ramfs.isDir_of_linked hent.linked))
    rw [Ramfs.parentOf_of_live hent.live]
    exact hent.parent ht

/-- A dentry whose inode has no entries has no children. -/
theorem CacheInv.childless (h : s.CacheInv noHole) (hd : s.bare d = some y)
    (hnone : ∀ n, s.fs.findChild y.inode n = none) : s.childrenOf d = [] := by
  apply List.eq_nil_iff_forall_not_mem.2
  intro c hc
  obtain ⟨x, hx, hp⟩ := h.child d c hc
  obtain ⟨z, hz, hf⟩ := h.link hx hp
  obtain rfl := Option.mem_unique hd hz
  rw [hnone] at hf
  cases hf

/-! ## Dropping and moving -/

section

variable (h : s.CacheInv hole)
include h

theorem CacheInv.parent_ne (hc : s.bare c = some x) (hp : x.parent = some q) : q ≠ c := by
  rintro rfl
  obtain ⟨r, hr, -, hrp⟩ := h.root
  have hpar : s.parentOf q = some q := (parentOf_of_bare hc).trans hp
  exact (h.reach q x hc).acyclic ((parentOf_of_bare hr).trans hrp) hpar (Reaches.refl q)

theorem dUnlink_bare (hd : s.bare d = some x) (hp : x.parent = some q) :
    (s.dUnlink d).bare = s.bare ∧
      (s.dUnlink d).childrenOf = update s.childrenOf q ((s.childrenOf q).erase d) := by
  obtain ⟨q', y, hq, hy, -⟩ := h.parent d x hd (h.not_root hd hp)
  obtain rfl := Option.mem_unique hp hq
  unfold dUnlink
  rw [parentOf_of_bare hd, hp]
  exact ⟨bare_modifyChildren s q fun l => l.erase d, childrenOf_modifyChildren hy fun l => l.erase d⟩

theorem CacheInv.mem_erase (hd : s.bare d = some x) (hp : x.parent = some q) {p c : Nat} :
    c ∈ update s.childrenOf q ((s.childrenOf q).erase d) p ↔ c ∈ s.childrenOf p ∧ c ≠ d := by
  by_cases e : p = q
  · subst e
    rw [update_self, (h.nodup p).mem_erase_iff]
    exact and_comm
  · rw [update_of_ne e]
    refine ⟨fun hc => ⟨hc, ?_⟩, fun hc => hc.1⟩
    rintro rfl
    obtain ⟨z, hz, hzp⟩ := h.child p c hc
    obtain rfl := Option.mem_unique hd hz
    exact e (Option.mem_unique hzp hp)

theorem CacheInv.nodup_erase (p : Nat) :
    (update s.childrenOf q ((s.childrenOf q).erase d) p).Nodup := by
  by_cases e : p = q
  · subst e
    rw [update_self]
    exact (h.nodup p).erase d
  · rw [update_of_ne e]
    exact h.nodup p

theorem CacheInv.ne_of_fresh (hd : s.bare d = some x) (hc : s.nextDentry ≤ c) : c ≠ d := by
  rintro rfl
  rw [h.fresh c hc] at hd
  cases hd

theorem dDrop_bare (hd : s.bare d = some x) (hp : x.parent = some q)
    (hleaf : s.childrenOf d = []) :
    (s.dDrop d).bare = update s.bare d none ∧
      (s.dDrop d).childrenOf = update s.childrenOf q ((s.childrenOf q).erase d) ∧
      (s.dDrop d).cwd = (fun p => if s.cwd p = some d then some q else s.cwd p) ∧ (s.dDrop d).fs = s.fs ∧
      (s.dDrop d).nextDentry = s.nextDentry := by
  have hpar : s.parentOf d = some q := (parentOf_of_bare hd).trans hp
  have hfix : (s.cwdFix d q).dUnlink d = { s.dUnlink d with cwd := (s.cwdFix d q).cwd } := by
    simp only [dUnlink, cwdFix, parentOf]
    cases (s.dentries d).bind Dentry.parent <;> rfl
  have hrest : (s.dUnlink d).fs = s.fs ∧ (s.dUnlink d).nextDentry = s.nextDentry := by
    unfold dUnlink
    rw [hpar]
    exact ⟨rfl, rfl⟩
  obtain ⟨hbare, hchildren⟩ := dUnlink_bare h hd hp
  unfold Vfs.dDrop
  rw [if_neg (h.not_root hd hp), hpar, Option.getD_some, hfix]
  refine ⟨?_, ?_, rfl, hrest⟩
  · funext c
    by_cases e : c = d
    · subst e
      simp [bare]
    · have hc := congrFun hbare c
      simp only [bare] at hc
      simp only [bare, update_of_ne e, hc]
  · funext c
    have hc := congrFun hchildren c
    simp only [childrenOf] at hc
    by_cases e : c = d
    · subst e
      rw [update_of_ne (h.parent_ne hd hp).symm, hleaf]
      simp [childrenOf]
    · simp only [childrenOf, update_of_ne e, hc]

/-- A dentry without children goes, and who worked in it works in its parent. -/
theorem CacheInv.dDrop (hd : s.bare d = some x) (hp : x.parent = some q)
    (hleaf : s.childrenOf d = []) : (s.dDrop d).CacheInv fun c => hole c ∧ c ≠ d := by
  obtain ⟨hbare, hchildren, hcwd, hfs, hnext⟩ := dDrop_bare h hd hp hleaf
  obtain ⟨q', y, hq', hy, -⟩ := h.parent d x hd (h.not_root hd hp)
  obtain rfl := Option.mem_unique hp hq'
  have hkeep : ∀ {c z}, s.bare c = some z → c ≠ d → (s.dDrop d).bare c = some z := by
    intro c z hz hne
    rw [hbare, update_of_ne hne]
    exact hz
  -- nobody but itself has the dropped dentry on the way up
  have hnot : ∀ {c}, c ≠ d → ¬ Reaches s.parentOf c d := by
    intro c hne hr
    rcases Relation.ReflTransGen.cases_tail hr with he | ⟨b, -, hb⟩
    · exact hne he.symm
    · rw [parentOf_eq] at hb
      obtain ⟨z, hz, hzp⟩ := Option.bind_eq_some_iff.1 hb
      obtain ⟨p, w, hp', -, hmem', -⟩ := h.parent b z hz (h.not_root hz hzp)
      obtain rfl := Option.mem_unique hzp hp'
      rw [hleaf] at hmem'
      cases hmem'
  refine h.place (h.not_root hd hp) hbare (fun p c => ?_) (fun p => ?_) hfs (fun c hc => ?_) (by rintro z ⟨⟩)
    (fun c x hc => by simp [hleaf] at hc) (fun c z hz => ?_) fun p c hc => ?_
  · rw [hchildren]
    simpa using h.mem_erase hd hp
  · rw [hchildren]
    exact h.nodup_erase p
  · rw [hnext] at hc
    rw [hbare, update_of_ne (h.ne_of_fresh hd hc)]
    exact h.fresh c hc
  · have hne : c ≠ d := by
      rintro rfl
      rw [hbare, update_self] at hz
      cases hz
    rw [hbare, update_of_ne hne] at hz
    rw [parentOf_update hbare]
    exact (h.reach c z hz).update_of_not (hnot hne) _
  · rw [hcwd] at hc
    dsimp only at hc
    split_ifs at hc with hw
    · cases hc
      exact ⟨y, hkeep hy (h.parent_ne hd hp)⟩
    · obtain ⟨z, hz⟩ := h.cwd p c hc
      refine ⟨z, hkeep hz ?_⟩
      rintro rfl
      exact hw hc

end

theorem dMove_bare (name : Name) {np : Nat} (h : s.CacheInv hole) (hd : s.bare d = some x) (hp : x.parent = some q)
    (hnp : s.bare np = some y) (hne : np ≠ d) :
    (s.dMove d np name).bare = update s.bare d (some { x with name := name, parent := some np }) ∧
      (∀ p c, c ∈ (s.dMove d np name).childrenOf p ↔ (p = np ∧ c = d) ∨ (c ∈ s.childrenOf p ∧ c ≠ d)) ∧
      (∀ p, ((s.dMove d np name).childrenOf p).Nodup) ∧
      (s.dMove d np name).cwd = s.cwd ∧ (s.dMove d np name).fs = s.fs ∧
      (s.dMove d np name).nextDentry = s.nextDentry := by
  obtain ⟨hbare, hchildren⟩ := dUnlink_bare h hd hp
  have hpar : s.parentOf d = some q := (parentOf_of_bare hd).trans hp
  have hrest : (s.dUnlink d).fs = s.fs ∧ (s.dUnlink d).nextDentry = s.nextDentry ∧ (s.dUnlink d).cwd = s.cwd := by
    unfold dUnlink
    rw [hpar]
    exact ⟨rfl, rfl, rfl⟩
  -- the name and the parent of the moved dentry
  let s1 := (s.dUnlink d).modifyDentry d fun x => { x with name := name, parent := some np }
  have hbare1 : s1.bare = update s.bare d (some { x with name := name, parent := some np }) := by
    rw [← hbare]
    funext c
    by_cases e : c = d
    · subst e
      have hc := congrFun hbare c
      rw [hd] at hc
      obtain ⟨w, hw, rfl⟩ := Option.map_eq_some_iff.1 hc
      simp [s1, bare, modifyDentry, hw]
    · simp only [s1, bare, modifyDentry, update_of_ne e]
  have hchildren1 : s1.childrenOf = (s.dUnlink d).childrenOf := by
    funext c
    by_cases e : c = d
    · subst e
      simp only [s1, childrenOf, modifyDentry, update_self, Option.map_map]
      rfl
    · simp only [s1, childrenOf, modifyDentry, update_of_ne e]
  have hnp1 : s1.bare np = some y := by
    rw [hbare1, update_of_ne hne]
    exact hnp
  have hchildren2 := childrenOf_modifyChildren hnp1 fun l => d :: l
  have hmem : ∀ p c, c ∈ s1.childrenOf p ↔ c ∈ s.childrenOf p ∧ c ≠ d := by
    intro p c
    rw [hchildren1, hchildren]
    exact h.mem_erase hd hp
  have hnodup : ∀ p, (s1.childrenOf p).Nodup := by
    intro p
    rw [hchildren1, hchildren]
    exact h.nodup_erase p
  unfold Vfs.dMove
  rw [if_neg (h.not_root hd hp)]
  refine ⟨?_, ?_, ?_, hrest.2.2, hrest.1, hrest.2.1⟩
  · rw [← hbare1]
    exact bare_modifyChildren s1 np fun l => d :: l
  · intro p c
    rw [hchildren2]
    by_cases e : p = np
    · subst e
      rw [update_self, List.mem_cons, hmem]
      simp
    · rw [update_of_ne e, hmem]
      simp [e]
  · intro p
    rw [hchildren2]
    by_cases e : p = np
    · subst e
      rw [update_self, List.nodup_cons]
      exact ⟨fun hm => ((hmem p d).1 hm).2 rfl, hnodup p⟩
    · rw [update_of_ne e]
      exact hnodup p

/-- A dentry moves, with what is below it, to a parent that is not below it. -/
theorem CacheInv.dMove {name : Name} {np : Nat} (h : s.CacheInv hole) (hd : s.bare d = some x) (hp : x.parent = some q)
    (hnp : s.bare np = some y) (hf : s.fs.findChild y.inode name = some x.inode)
    (hfree : ∀ c z, s.bare c = some z → z.parent = some np → z.name = name → c = d)
    (hbelow : ¬ Reaches s.parentOf np d) : (s.dMove d np name).CacheInv fun c => hole c ∧ c ≠ d := by
  have hne : np ≠ d := by
    rintro rfl
    exact hbelow (Reaches.refl np)
  obtain ⟨hbare, hmem, hnodup, hcwd, hfs, hnext⟩ := dMove_bare name h hd hp hnp hne
  refine h.place (h.not_root hd hp) hbare (fun p c => ?_) hnodup hfs (fun c hc => ?_) ?_ (fun c z _ hz => ?_)
    (fun c z hz => ?_) fun p c hc => ?_
  · rw [hmem]
    simp [eq_comm]
  · rw [hnext] at hc
    rw [hbare, update_of_ne (h.ne_of_fresh hd hc)]
    exact h.fresh c hc
  · rintro z ⟨⟩
    exact ⟨np, y, rfl, hnp, hne, hf, fun c w hcd hw hwp hname => hcd (hfree c w hw hwp hname)⟩
  · obtain rfl := Option.mem_unique hd hz
    exact ⟨_, rfl, rfl⟩
  · rw [parentOf_update hbare]
    have hroot : Reaches s.parentOf c rootDentry := by
      by_cases e : c = d
      · subst e
        exact h.reach c x hd
      · rw [hbare, update_of_ne e] at hz
        exact h.reach c z hz
    exact hroot.update (h.reach np y hnp) hbelow
  · rw [hcwd] at hc
    obtain ⟨z, hz⟩ := h.cwd p c hc
    rw [hbare, update_apply]
    split_ifs
    · exact ⟨_, rfl⟩
    · exact ⟨z, hz⟩

end Vfs

end MiniOs.Fs
