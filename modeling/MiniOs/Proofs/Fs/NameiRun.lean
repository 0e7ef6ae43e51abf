/-
Runs of all calls: the dentry cache agrees with ramfs in every state that is reached, as long as
memory does not run out.
-/
import MiniOs.Proofs.Fs.NameiOpen

namespace MiniOs.Fs

open Library
open Ramfs (nothing)

namespace Ramfs

variable {fs : Ramfs} {path : List UInt8} {d : Nat} {n : Name}

theorem mkdir_creates (h : fs.Inv .empty) (path : List UInt8) : CreatesAt fs path .dir (fs.mkdir path) := by
  unfold mkdir
  split_ifs
  · exact Or.inl ⟨_, rfl⟩
  · split
    · exact Or.inl ⟨_, rfl⟩
    · next d n hp =>
      have hd := lookupParent_linked h hp
      exact Or.inr ⟨d, n, hp, hd, inodeMkdir_creates h (fun _ => hd) 0o755⟩

theorem mknod_creates (h : fs.Inv .empty) (path : List UInt8) (mode : UInt16) (rdev : Nat) :
    CreatesAt fs path .chr (fs.mknod path mode rdev) := by
  unfold mknod
  split_ifs
  · exact Or.inl ⟨_, rfl⟩
  · split
    · exact Or.inl ⟨_, rfl⟩
    · next d n hp =>
      have hd := lookupParent_linked h hp
      exact Or.inr ⟨d, n, hp, hd, inodeMknod_creates h (fun _ => hd) mode rdev⟩

theorem init_findChild (allocs : List Bool) : (init allocs).findChild d n = none := by
  by_cases e : d = rootIno
  · simp [findChild, init, childrenOf, e, ramfsInodeInit]
  · apply findChild_of_not_dir
    simp [init, isDir, hasType, e]

/-- After the first `ramfs_mkdir` everything that a lookup finds is a directory. -/
theorem linked_of_first {i : Nat} {p : List UInt8} (h : fs.Inv .empty) (hnone : ∀ d n, fs.findChild d n = none)
    (hi : (fs.mkdir path).2.lookup p = some i) : (fs.mkdir path).2.Linked i := by
  have hsame : fs.lookup p = some i → fs.Linked i := by
    intro hf
    rcases lookup_found h hf with hl | ⟨d, n, hf⟩
    · exact hl
    · rw [hnone] at hf
      cases hf
  rcases mkdir_creates h path with ⟨e, he⟩ | ⟨d, n, -, -, ⟨e, he⟩ | ⟨fs', he, -, ht, hdoes⟩⟩
  · rw [he] at hi ⊢
    exact hsame hi
  · rw [he] at hi ⊢
    exact hsame hi
  · rw [he] at hi ⊢
    rcases lookup_found hdoes.inv hi with hl | ⟨d', n', hf⟩
    · exact hl
    · have hf' := hf
      rw [hdoes.view] at hf'
      by_cases e : d' = d ∧ n' = n
      · obtain ⟨rfl, rfl⟩ := e
        rw [setEntry_self] at hf'
        cases hf'
        exact hdoes.inv.linked_of_findChild hf ht
      · rw [setEntry_of_ne _ e, hnone] at hf'
        cases hf'

end Ramfs

namespace Vfs

variable {s s' : Vfs} {ra fa da : List Bool}

/-! ## Boot -/

/-- What boot establishes and every call keeps that keeps ramfs and procfs apart. -/
structure Booted (s : Vfs) : Prop where
  inv : s.Inv
  proc : s.ProcLinked
  sound : s.Sound
  stale : s.stale = []
  stray : s.stray = ⟨fun _ => 0, []⟩
  names : Brings (fun _ _ => none) s.fs.findChild

theorem Booted.unstrayed (h : s.Booted) : s.Unstrayed := fun i => by rw [h.stray]

theorem Calls.booted (hk : Calls s s' nothing False) (h : s.Booted) : s'.Booted :=
  ⟨hk.inv, hk.procLinked h.proc, hk.sound h.sound, (hk.stale id).trans h.stale,
    (hk.stray h.proc h.unstrayed).trans h.stray, h.names.trans hk.names⟩

theorem spells_of_decide {path : List UInt8} (h : ∀ c ∈ path.splitOn slash, c = [] ∨
    slash ∉ c ∧ c ≠ [dot] ∧ c ≠ [dot, dot] ∧ c.length < nameMax) : Ramfs.Spells Enterable path := by
  intro n hne hmem
  obtain ⟨h1, h2, h3, h4⟩ := (h n.bytes hmem).resolve_left hne
  exact ⟨⟨hne, h1, h2, h3⟩, h4⟩

theorem start_bare (c : Nat) (x : Dentry) (h : (start ra fa da).bare c = some x) :
    c = rootDentry ∧ x = ⟨Name.clip [], rootIno, none, []⟩ := by
  by_cases e : c = rootDentry
  · subst e
    exact ⟨rfl, (Option.some.inj h).symm⟩
  · simp [bare, start, e] at h

theorem start_childrenOf (q : Nat) : (start ra fa da).childrenOf q = [] := by
  by_cases e : q = rootDentry
  · subst e
    rfl
  · simp [childrenOf, start, e]

theorem start_cacheInv : (start ra fa da).CacheInv noHole := by
  have hroot : ∀ {c x}, (start ra fa da).bare c = some x → c ≠ rootDentry → False := fun h hne =>
    hne (start_bare _ _ h).1
  refine ⟨?_, ⟨_, rfl, rfl, rfl⟩, ?_, fun c x hc hne => (hroot hc hne).elim, ?_, ?_, ?_, ?_⟩
  · intro d hd
    have hne : d ≠ rootDentry := Nat.ne_of_gt hd
    simp [bare, start, hne]
  · intro q c hc
    rw [start_childrenOf] at hc
    cases hc
  · intro q
    rw [start_childrenOf]
    exact List.nodup_nil
  · intro c d x y q hc hd _ _ _
    rw [(start_bare c x hc).1, (start_bare d y hd).1]
  · intro c x hc
    rw [(start_bare c x hc).1]
    exact Reaches.refl _
  · intro p d hd
    cases hd

theorem start_booted (fa da : List Bool) (hra : ∀ ok ∈ ra, ok = true) : (start ra fa da).Booted := by
  have hfs : (Ramfs.init ra).Inv .empty := Ramfs.init_inv hra
  have hempty : ∀ d n c, (Ramfs.init ra).findChild d n ≠ some c := fun d n c hc => by simp [Ramfs.init_findChild] at hc
  refine ⟨⟨hfs, start_cacheInv, fun d n c hc => absurd hc (hempty d n c), ?_⟩, ?_,
    ⟨⟨_, Files.init_owes InodeRef fa, fun i => by simp⟩, rfl⟩, rfl, rfl, fun d n c hc => absurd hc (hempty d n c)⟩
  · intro i hi
    cases hi
  · intro i hi
    cases hi

theorem procInit_booted (fa da : List Bool) (hra : ∀ ok ∈ ra, ok = true) : (start ra fa da).procInit.Booted := by
  have h := start_booted fa da hra
  have hk := h.inv.createsAt (spells_of_decide (by decide)) (Ramfs.mkdir_creates h.inv.fs procDir)
  have hb := hk.booted h
  have hlinked : ∀ i, (start ra fa da).procInit.procRoot = some i → (start ra fa da).procInit.fs.Linked i :=
    fun i hi => Ramfs.linked_of_first (p := procDir) h.inv.fs (fun d n => Ramfs.init_findChild ra) hi
  refine ⟨⟨hb.inv.fs, ?_, hb.inv.short, ?_⟩, hlinked, hb.sound, hb.stale, hb.stray, hb.names⟩
  · refine hb.inv.cache.congr ?_ ?_ ?_ (fun _ _ _ _ _ _ _ _ _ hf => hf) fun _ hc => hc
    · rfl
    · rfl
    · rfl
  · intro i hi
    obtain ⟨ri, hri, ht, -⟩ := hlinked i hi
    exact ⟨hb.inv.fs.lt hri, (Ramfs.typeAt_of_live hri).trans (by rw [ht])⟩

theorem init_booted (fa da : List Bool) (hra : ∀ ok ∈ ra, ok = true) : (init ra fa da).Booted := by
  have h0 := procInit_booted fa da hra
  unfold Vfs.init
  generalize (start ra fa da).procInit = s at h0
  have h1 := (h0.inv.createsAt (spells_of_decide (by decide)) (Ramfs.mkdir_creates h0.inv.fs devDir)).booted h0
  unfold devInit
  generalize s.fs.mkdir devDir = o at h1
  obtain ⟨_ | _, fs⟩ := o
  · exact h1
  · have hnode : ∀ {s : Vfs} (path : List UInt8) (mode : UInt16) (rdev : Nat), s.Booted → Ramfs.Spells Enterable path →
        Booted { s with fs := (s.fs.mknod path mode rdev).2 } := fun path mode rdev h hp =>
      (h.inv.createsAt hp (Ramfs.mknod_creates h.inv.fs path mode rdev)).booted h
    exact hnode _ _ _ (hnode _ _ _ (hnode _ _ _ h1 (spells_of_decide (by decide))) (spells_of_decide (by decide)))
      (spells_of_decide (by decide))

theorem init_allocs : (init ra fa da).allocs = da := by
  unfold init devInit
  split <;> rfl

/-! ## The cache agrees with ramfs -/

/-- A component that is longer than a name is never found. -/
theorem lookupAtLoop_long {fs : Ramfs} (hshort : ∀ d n c, fs.findChild d n = some c → n.bytes.length < nameMax) :
    ∀ {cs : List (List UInt8)} {c : List UInt8} {fuel d : Nat}, IsComponent c → (∀ m ∈ cs, IsComponent m) →
      (∃ m ∈ c :: cs, nameMax < m.length) → fs.lookupAtLoop fuel d (c ++ slashed cs) = none
  | cs, c, 0, d, _, _, _ => rfl
  | cs, c, fuel + 1, d, hc, hcs, hlong => by
    by_cases hlen : c.length ≤ nameMax
    · have hrest : ∃ m ∈ cs, nameMax < m.length := by
        obtain ⟨m, hm, hl⟩ := hlong
        rcases List.mem_cons.1 hm with rfl | hm
        · omega
        · exact ⟨m, hm, hl⟩
      refine (Ramfs.lookupAtLoop_component (d := d) (n := ⟨c, hlen⟩) hc cs hcs fuel).trans ?_
      cases fs.findChild d ⟨c, hlen⟩ with
      | none => rfl
      | some i =>
        cases cs with
        | nil =>
          obtain ⟨m, hm, -⟩ := hrest
          cases hm
        | cons m cs =>
          dsimp only
          split_ifs
          · exact lookupAtLoop_long hshort (hcs m (List.mem_cons_self ..))
              (fun k hk => hcs k (List.mem_cons_of_mem _ hk)) hrest
          · rfl
    · -- the first piece of the component is as long as a name can be
      have hclip : (Name.clip c).bytes.length = nameMax := by
        simp only [Name.clip, List.length_take]
        omega
      have hnone : fs.findChild d (Name.clip c) = none := by
        cases hf : fs.findChild d (Name.clip c) with
        | none => rfl
        | some i => exact absurd (hshort d _ i hf) (by omega)
      rw [Ramfs.lookupAtLoop]
      have hne : (Name.clip c).bytes ≠ [] := fun e => by simp [e, nameMax] at hclip
      have hdot : (Name.clip c).bytes ≠ [dot] := fun e => by simp [e, nameMax] at hclip
      have hdots : (Name.clip c).bytes ≠ [dot, dot] := fun e => by simp [e, nameMax] at hclip
      simp only [component_append hc, if_neg hne, if_neg hdot, if_neg hdots, hnone]

theorem lookup_long {fs : Ramfs} (hshort : ∀ d n c, fs.findChild d n = some c → n.bytes.length < nameMax)
    {cs : List (List UInt8)} (hcs : ∀ c ∈ cs, IsComponent c) (hlong : ∃ c ∈ cs, nameMax < c.length) :
    fs.lookup (renderPath cs) = none := by
  cases cs with
  | nil =>
    obtain ⟨c, hc, -⟩ := hlong
    cases hc
  | cons c cs =>
    have hc : IsComponent c := hcs c (List.mem_cons_self ..)
    unfold Ramfs.lookup Ramfs.lookupAt
    rw [head?_renderPath, if_pos rfl, skipSlash_renderPath hc, if_neg (by simp [hc.ne_nil])]
    exact lookupAtLoop_long hshort hc (fun k hk => hcs k (List.mem_cons_of_mem _ hk)) hlong

theorem exists_names {cs : List (List UInt8)} (h : ¬ ∃ c ∈ cs, nameMax < c.length) :
    ∃ names : List Name, names.map Name.bytes = cs := by
  have hshort : ∀ c ∈ cs, c.length ≤ nameMax := fun c hc => by
    by_contra hl
    exact h ⟨c, hc, by omega⟩
  exact ⟨cs.pmap (fun c hc => ⟨c, hc⟩) hshort, by simp [List.map_pmap]⟩

theorem dLookupLoop_long : ∀ {cs : List (List UInt8)} {fuel : Nat} {s : Vfs} {d : Nat}, (∀ m ∈ cs, IsComponent m) →
    (∃ m ∈ cs, nameMax < m.length) → (dLookupLoop fuel s d (slashed cs)).1 = none
  | [], _, _, _, _, ⟨_, hm, _⟩ => by cases hm
  | c :: cs, 0, s, d, _, _ => rfl
  | c :: cs, fuel + 1, s, d, hcs, hlong => by
    have hc : IsComponent c := hcs c (List.mem_cons_self ..)
    have hne : c ++ slashed cs ≠ [] := by simp [hc.ne_nil]
    unfold dLookupLoop
    rw [skipSlash_slashed hc, if_neg hne]
    simp only [component_append hc, List.drop_left, if_neg hc.ne_dot, if_neg hc.ne_dotdot]
    split_ifs with hlen
    · have hrest : ∃ m ∈ cs, nameMax < m.length := by
        obtain ⟨m, hm, hl⟩ := hlong
        rcases List.mem_cons.1 hm with rfl | hm
        · omega
        · exact ⟨m, hm, hl⟩
      rcases s.dStep d ⟨c, hlen⟩ with ⟨_ | e, s1⟩
      · rfl
      · exact dLookupLoop_long (fun k hk => hcs k (List.mem_cons_of_mem _ hk)) hrest
    · rfl

/-- The dentry hangs in the tree of the cache. -/
inductive InTree (s : Vfs) : Nat → Prop
  | root : InTree s rootDentry
  | child {q c : Nat} : InTree s q → c ∈ s.childrenOf q → InTree s c

/-- The cache agrees with ramfs: lookups of normalised paths come to the same inodes, every dentry is for
a name that ramfs has, and working directories are in the tree. -/
structure Coherent (s : Vfs) : Prop where
  lookup : ∀ cs : List (List UInt8), (∀ c ∈ cs, IsComponent c) →
    s.fs.lookup (renderPath cs) =
      (s.dLookupPath (renderPath cs)).1.map (s.dLookupPath (renderPath cs)).2.inodeOf
  names : ∀ d x q, s.dentries d = some x → x.parent = some q → s.fs.findChild (s.inodeOf q) x.name = some x.inode
  cwd : ∀ p d, s.cwd p = some d → s.InTree d

theorem CacheInv.inTree {hole : Nat → Prop} {d : Nat} {x : Dentry} (h : s.CacheInv hole) (hd : s.bare d = some x) :
    s.InTree d := by
  have hr := h.reach d x hd
  induction hr using Relation.ReflTransGen.head_induction_on generalizing x with
  | refl => exact .root
  | @head a b hab _ ih =>
    rw [parentOf_of_bare hd] at hab
    obtain ⟨q, y, hq, hy, hmem, -⟩ := h.parent a x hd (h.not_root hd hab)
    obtain rfl := Option.mem_unique hab hq
    exact .child (ih hy) hmem

theorem Inv.coherent (h : s.Inv) (ha : ∀ ok ∈ s.allocs, ok = true) : s.Coherent := by
  refine ⟨?_, ?_, ?_⟩
  · intro cs hcs
    by_cases hlong : ∃ c ∈ cs, nameMax < c.length
    · -- neither finds a name that no entry can have
      have hne : cs ≠ [] := by
        rintro rfl
        obtain ⟨m, hm, -⟩ := hlong
        cases hm
      have hfs : s.fs.lookup (renderPath cs) = none := lookup_long h.short hcs hlong
      have hd : (s.dLookupPath (renderPath cs)).1 = none := by
        unfold Vfs.dLookupPath
        rw [head?_renderPath, if_neg (by simp), renderPath_of_ne_nil hne]
        exact dLookupLoop_long hcs hlong
      rw [hfs, hd]
      rfl
    · obtain ⟨names, rfl⟩ := exists_names hlong
      have hns : ∀ n ∈ names, IsComponent n.bytes := fun n hn => hcs n.bytes (List.mem_map_of_mem hn)
      obtain ⟨x, hx, hxi, -⟩ := h.cache.root
      obtain ⟨r, s1, he, h1, -, hr⟩ := CacheInv.dWalk names h.cache hx
      rw [dLookupPath_renderPath s hns, he, Ramfs.lookup_renderPath hns, ← hxi]
      cases r with
      | none =>
        rcases hr with hr | hr
        · exact hr
        · exact absurd (ha false hr) (by simp)
      | some q =>
        obtain ⟨-, z, hz, hw⟩ := hr
        rw [hw, Option.map_some, inodeOf_of_bare hz]
  · intro d x q hd hq
    have hbare : s.bare d = some { x with children := [] } := by rw [bare, hd]; rfl
    obtain ⟨y, hy, hf⟩ := h.cache.link hbare hq
    rw [inodeOf_of_bare hy]
    exact hf
  · intro p d hd
    obtain ⟨x, hx⟩ := h.cache.cwd p d hd
    exact h.cache.inTree hx

/-! ## Runs -/

/-- The call takes the root of procfs out of ramfs, or brings a file of procfs into it. -/
def crosses (s : Vfs) (a : Act) : Bool := ((s.takesOut a).isSome && s.takesOut a = s.procRoot) || s.entersProc a

/-- A call that keeps ramfs and procfs apart. -/
def stepApart (s : Vfs) (a : Act) : Option Vfs := if s.crosses a then none else s.step a

theorem Booted.live_of_pointsTo {i : Nat} (h : s.Booted) (hp : s.pointsTo i = true) : ∃ ri,
    s.fs.inodes i = some ri := by
  simp only [pointsTo, Bool.or_eq_true, decide_eq_true_eq, List.any_eq_true, Option.any_eq_true] at hp
  rcases hp with hroot | ⟨d, -, x, hd, rfl⟩
  · obtain ⟨ri, hi, -⟩ := h.proc i hroot
    exact ⟨ri, hi⟩
  · exact h.inv.live_dentry (y := { x with children := [] }) (by rw [bare, hd]; rfl)

/-- Nothing points to what a call has freed. -/
theorem Booted.reclaim (h : s'.Booted) : s.reclaim s' = s' := by
  have hlost : (List.range s.fs.nextIno).filter (fun i =>
      (s.fs.inodes i).isSome && (s'.fs.inodes i).isNone && s'.pointsTo i) = [] := by
    refine List.filter_eq_nil_iff.2 fun i _ hi => ?_
    simp only [Bool.and_eq_true, Option.isNone_iff_eq_none] at hi
    obtain ⟨ri, hri⟩ := h.live_of_pointsTo hi.2
    rw [hri] at hi
    cases hi.1.2
  rw [Vfs.reclaim, hlost, h.stray]
  simp [← h.stray]

theorem stepApart_booted {a : Act} (h : s.Booted) (hs : s.stepApart a = some s') :
    s'.Booted ∧ ∀ ok ∈ s'.allocs, ok ∈ s.allocs := by
  unfold stepApart at hs
  split_ifs at hs with hcross
  simp only [crosses, Bool.or_eq_true, Bool.and_eq_true, decide_eq_true_eq, not_or, not_and] at hcross
  unfold step at hs
  split_ifs at hs
  obtain ⟨s1, hexec, rfl⟩ := Option.map_eq_some_iff.1 hs
  obtain ⟨hadv, hsound⟩ := h.inv.exec hexec
  have hb : s1.Booted := by
    refine ⟨hadv.inv, ?_, hsound h.proc h.sound, (hadv.stale hcross.2).trans h.stale,
      (hadv.stray h.proc h.unstrayed).trans h.stray, h.names.trans hadv.names⟩
    intro i hi
    have hroot : s.procRoot = some i := hadv.procRoot.symm.trans hi
    refine hadv.evolves.linked i (h.proc i hroot) ?_
    intro htakes
    exact hcross.1 (by rw [htakes]; rfl) (by rw [htakes, hroot])
  rw [hb.reclaim]
  exact ⟨hb, hadv.allocs⟩

/-- What a run keeps that keeps ramfs and procfs apart, and in which ramfs has its memory. -/
theorem run_booted (hra : ∀ ok ∈ ra, ok = true) {acts : List Act} (hrun : run stepApart (init ra fa da) acts = some s) :
    s.Booted ∧ ∀ ok ∈ s.allocs, ok ∈ da := by
  refine run_invariant (P := fun s : Vfs => s.Booted ∧ ∀ ok ∈ s.allocs, ok ∈ da) ?_ ⟨init_booted fa da hra, ?_⟩ hrun
  · rintro s a s' ⟨hb, ha⟩ hs
    obtain ⟨hb', ha'⟩ := stepApart_booted hb hs
    exact ⟨hb', fun ok hok => ha ok (ha' ok hok)⟩
  · rw [init_allocs]
    exact fun _ hok => hok

/-- In every run that keeps ramfs and procfs apart, and in which memory does not run out, the dentry cache is coherent
with ramfs. -/
theorem run_coherent (hra : ∀ ok ∈ ra, ok = true) (hda : ∀ ok ∈ da, ok = true) {acts : List Act}
    (hrun : run stepApart (init ra fa da) acts = some s) : s.Coherent := by
  obtain ⟨hb, ha⟩ := run_booted hra hrun
  exact hb.inv.coherent fun ok hok => hda ok (ha ok hok)

/-- `/a`, `/a/b`, `/c`, `/c/b`, `/l` and `/proc`. -/
def pathA : AbsPath := ⟨[⟨[97], by decide⟩], by decide, by decide⟩
def pathAB : AbsPath := ⟨[⟨[97], by decide⟩, ⟨[98], by decide⟩], by decide, by decide⟩
def pathC : AbsPath := ⟨[⟨[99], by decide⟩], by decide, by decide⟩
def pathCB : AbsPath := ⟨[⟨[99], by decide⟩, ⟨[98], by decide⟩], by decide, by decide⟩
def pathL : AbsPath := ⟨[⟨[108], by decide⟩], by decide, by decide⟩
def pathProc : AbsPath := ⟨[⟨[112, 114, 111, 99], by decide⟩], by decide, by decide⟩
/-- `/proc/1/stat`. -/
def pathProcStat : AbsPath :=
  ⟨[⟨[112, 114, 111, 99], by decide⟩, ⟨[49], by decide⟩, ⟨[115, 116, 97, 116], by decide⟩], by decide, by decide⟩

/-- A directory moves while a task works below it. -/
def movedUnderfoot : List Act :=
  [.mkdirat 1 pathA 0o755, .mkdirat 1 pathAB 0o755, .chdir 1 pathAB, .renameat 1 pathA pathC]

theorem run_coherent_of_movedUnderfoot : ∃ s, run stepApart (init [true] [] [true]) movedUnderfoot = some s ∧
    s.Coherent ∧ s.fs.lookup pathA.bytes = none ∧ (s.fs.lookup pathC.bytes).isSome ∧ (s.cwd 1).isSome := by
  obtain ⟨s, hrun, h1, h2, h3⟩ : ∃ s, run stepApart (init [true] [] [true]) movedUnderfoot = some s ∧
      s.fs.lookup pathA.bytes = none ∧ (s.fs.lookup pathC.bytes).isSome ∧ (s.cwd 1).isSome :=
    ⟨_, rfl, by decide, by decide, by decide⟩
  exact ⟨s, hrun, run_coherent (by decide) (by decide) hrun, h1, h2, h3⟩

/-- A look at `/proc` after `rmdir("/proc")` frees its inode once more, and `/a` and `/c` get the same memory. -/
def secondFree : List Act :=
  [.rmdir 1 pathProc, .stat 1 pathProc, .mkdirat 1 pathA 0o755, .mkdirat 1 pathC 0o755]

/-- A file is moved into the one directory, found in the other and removed from the first. -/
def throughBoth : List Act :=
  .openat 1 pathL oCreat 0o644 false :: secondFree ++ [.renameat 1 pathL pathAB, .chdir 1 pathCB, .unlinkat 1 pathAB]

theorem not_coherent_of_secondFree : ∃ s, run step (init [] [] []) throughBoth = some s ∧
    s.fs.lookup pathCB.bytes = none ∧ (s.dLookupPath pathCB.bytes).1.isSome ∧ ¬ s.Coherent := by
  obtain ⟨s, hrun, hs⟩ := (Option.any_eq_true (fun s : Vfs => (s.fs.lookup pathCB.bytes).isNone &&
    (s.dLookupPath pathCB.bytes).1.isSome) _).1
      (by decide +kernel : (run step (init [] [] []) throughBoth).any _ = true)
  simp only [Bool.and_eq_true, Option.isNone_iff_eq_none] at hs
  refine ⟨s, hrun, hs.1, hs.2, fun h => ?_⟩
  obtain ⟨d, hd⟩ := Option.isSome_iff_exists.1 hs.2
  have hlookup := h.lookup (pathCB.comps.map Name.bytes) (List.forall_mem_map.2 pathCB.isComponent)
  rw [show renderPath _ = pathCB.bytes from rfl, hs.1, hd] at hlookup
  cases hlookup

end Vfs

end MiniOs.Fs
