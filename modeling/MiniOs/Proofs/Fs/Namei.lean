/-
What the system calls that take paths keep, when ramfs has the memory it asks for: the tree of ramfs,
the agreement of the dentry cache with it, and the references of everybody.
-/
import MiniOs.Proofs.Fs.Dcache
import MiniOs.Proofs.Fs.RamfsEvolve
import MiniOs.Proofs.Fs.RamfsNames

namespace MiniOs.Fs

open Library Function
open Ramfs (nothing Quiet Evolves iget_quiet Creates)

theorem AbsPath.name_short (p : AbsPath) {n : Name} (hn : n ∈ p.comps) : n.bytes.length < nameMax := by
  obtain ⟨as, bs, h⟩ := List.append_of_mem hn
  have hs := p.short
  rw [h, renderPath_of_ne_nil (by simp), List.map_append, slashed_append, List.length_append, List.map_cons,
    slashed_cons, List.length_cons, List.length_append] at hs
  simp only [nameMax, pathMax] at hs ⊢
  omega

namespace Vfs

/-- A component of a normalised path. -/
def IsEntry (n : Name) : Prop := IsComponent n.bytes

/-- What a call may enter. -/
def Enterable (n : Name) : Prop := IsEntry n ∧ n.bytes.length < nameMax

theorem enterable (p : AbsPath) {n : Name} (hn : n ∈ p.comps) : Enterable n := ⟨p.isComponent n hn, p.name_short hn⟩

/-- The names that a call takes from its path have the property. -/
structure Proper (P : Name → Prop) (path : List UInt8) : Prop where
  spells : Ramfs.Spells P path
  last : ∀ parent n, pathParentName path = .ok (parent, n) → P n

theorem AbsPath.proper (p : AbsPath) : Proper Enterable p.bytes := by
  constructor
  · intro n hne hmem
    rw [AbsPath.bytes, renderPath_eq] at hmem
    split_ifs at hmem
    · have hroot : [slash].splitOn slash = [[], []] := by decide
      rw [hroot] at hmem
      exact absurd (by simpa using hmem) hne
    · have hcs : ∀ c ∈ p.comps.map Name.bytes, IsComponent c := by
        intro c hc
        obtain ⟨m, hm, rfl⟩ := List.mem_map.1 hc
        exact p.isComponent m hm
      rw [splitOn_slashed hcs, List.mem_cons] at hmem
      obtain ⟨m, hm, he⟩ := List.mem_map.1 (hmem.resolve_left hne)
      rw [Enterable, IsEntry, ← he]
      exact enterable p hm
  · intro parent n h
    rcases p.cases with ⟨-, he⟩ | ⟨cs, m, hcomps, -, -, -, he⟩
    · rw [he] at h
      cases h
    · rw [he] at h
      cases h
      exact enterable p (by rw [hcomps]; simp)

/-- Names that the first view of the tree does not have can be entered. -/
def Brings (view view' : Nat → Name → Option Nat) : Prop := ∀ d n c, view' d n = some c → Enterable n ∨ ∃ b,
    view d n = some b

theorem Brings.refl (view : Nat → Name → Option Nat) : Brings view view := fun _ _ c hf => .inr ⟨c, hf⟩

theorem Brings.trans {view view' view'' : Nat → Name → Option Nat} (h : Brings view view') (h' : Brings view' view'') :
    Brings view view'' := by
  intro d n c hf
  rcases h' d n c hf with hn | ⟨b, hb⟩
  · exact .inl hn
  · exact h d n b hb

variable {i : Nat}

theorem Brings.setEntry {view : Nat → Name → Option Nat} {n : Name} {o : Option Nat} (hn : o ≠ none → Enterable n) :
    Brings view (setEntry view i n o) := by
  intro d m c hf
  by_cases e : d = i ∧ m = n
  · obtain ⟨rfl, rfl⟩ := e
    rw [setEntry_self] at hf
    exact .inl (hn (by simp [hf]))
  · rw [setEntry_of_ne _ e] at hf
    exact .inr ⟨c, hf⟩

variable {s s' s'' : Vfs} {gone : Nat → Prop} {foreign : Prop} {c d q : Nat} {n : Name} {x y : Dentry}

/-- The invariant of all calls. -/
structure Inv (s : Vfs) : Prop where
  fs : s.fs.Inv .empty
  cache : s.CacheInv noHole
  short : ∀ d n c, s.fs.findChild d n = some c → n.bytes.length < nameMax
  proc : ∀ i, s.procRoot = some i → i < s.fs.nextIno ∧ s.fs.typeAt i = some .dir

variable {fs : Ramfs}

/-- The root of procfs keeps its type, also when it is freed. -/
theorem Inv.proc_of_evolves (h : s.Inv) (he : Evolves s.fs fs gone) (i : Nat) (hi : s.procRoot = some i) :
    i < fs.nextIno ∧ fs.typeAt i = some .dir := by
  obtain ⟨hlt, ht⟩ := h.proc i hi
  exact ⟨Nat.lt_of_lt_of_le hlt he.grows, (he.memory i hlt).trans ht⟩

/-- The root of procfs is not removed. -/
def ProcLinked (s : Vfs) : Prop := ∀ i, s.procRoot = some i → s.fs.Linked i

/-- No reference is counted in freed memory. -/
def Unstrayed (s : Vfs) : Prop := ∀ i, s.stray.count i = 0

theorem Unstrayed.congr (h : s.Unstrayed) (he : s'.stray = s.stray) : s'.Unstrayed := by
  rw [Unstrayed, he]
  exact h

/-- A call that leaves open files as they are and drops no reference it did not take; `gone` are the directories it may
remove, and `foreign` says that it may enter an inode that is not of ramfs. The names it makes are its own. -/
structure Calls (s s' : Vfs) (gone : Nat → Prop) (foreign : Prop) : Prop where
  inv : s'.Inv
  evolves : Evolves s.fs s'.fs gone
  users : ∀ c, s.fs.users c ≤ s'.fs.users c
  files : s'.files = s.files
  tasks : s'.tasks = s.tasks
  procRoot : s'.procRoot = s.procRoot
  stale : ¬ foreign → s'.stale = s.stale
  stray : s.ProcLinked → s.Unstrayed → s'.stray = s.stray
  allocs : ∀ ok ∈ s'.allocs, ok ∈ s.allocs
  names : Brings s.fs.findChild s'.fs.findChild

theorem Inv.short_of_brings (h : s.Inv) (hb : Brings s.fs.findChild fs.findChild) (d : Nat) (n : Name) (c : Nat)
    (hf : fs.findChild d n = some c) : n.bytes.length < nameMax := by
  rcases hb d n c hf with hn | ⟨b, hb⟩
  · exact hn.2
  · exact h.short d n b hb

/-- All that is neither ramfs nor a cache. -/
def rest (s : Vfs) := (s.files, s.tasks, s.procRoot, s.stale, s.stray, s.allocs)

/-- What a call has to show when it has changed ramfs and the cache. -/
theorem Inv.calls_of (h : s.Inv) (hev : Evolves s.fs s'.fs gone) (hu : ∀ c, s.fs.users c ≤ s'.fs.users c)
    (hcache : s'.CacheInv noHole) (hnames : Brings s.fs.findChild s'.fs.findChild)
    (hrest : s'.rest = s.rest) : Calls s s' gone False := by
  simp only [rest, Prod.mk.injEq] at hrest
  obtain ⟨hfiles, htasks, hproc, hstale, hstray, hallocs⟩ := hrest
  refine ⟨⟨hev.inv, hcache, h.short_of_brings hnames, ?_⟩, hev, hu, hfiles, htasks, hproc, fun _ => hstale,
    fun _ _ => hstray, ?_, hnames⟩
  · rw [hproc]
    exact h.proc_of_evolves hev
  · rw [hallocs]
    exact fun _ hb => hb

theorem Calls.refl (h : s.Inv) : Calls s s nothing False :=
  h.calls_of (Evolves.refl h.fs) (fun _ => Nat.le_refl _) h.cache (Brings.refl _) rfl

theorem Calls.mono {gone' : Nat → Prop} {foreign' : Prop} (h : Calls s s' gone foreign) (hg : ∀ d, gone d → gone' d)
    (hf : foreign → foreign') : Calls s s' gone' foreign' :=
  { h with
    evolves := h.evolves.mono hg
    stale := fun hn => h.stale fun hc => hn (hf hc) }

theorem Inv.grows (h : s.Inv) (hc : s'.CacheInv noHole) (hg : Grows s s') : s'.Inv :=
  ⟨by rw [hg.fs]; exact h.fs, hc, by rw [hg.fs]; exact h.short, by rw [hg.fs, hg.procRoot]; exact h.proc⟩

theorem Grows.keeps (h : s.Inv) (hc : s'.CacheInv noHole) (hg : Grows s s') : Calls s s' nothing False := by
  refine ⟨h.grows hc hg, ?_, fun c => Nat.le_of_eq (by rw [hg.fs]), hg.files, hg.tasks, hg.procRoot, fun _ => hg.stale,
    fun _ _ => hg.stray, hg.allocs, ?_⟩
  · rw [hg.fs]
    exact Evolves.refl h.fs
  · rw [hg.fs]
    exact Brings.refl _

theorem Grows.procLinked (hg : Grows s s') (h : s.ProcLinked) : s'.ProcLinked := by
  unfold ProcLinked
  rw [hg.fs, hg.procRoot]
  exact h

theorem Grows.trans_keeps (hg : Grows s s') (hk : Calls s' s'' gone foreign) : Calls s s'' gone foreign := by
  refine ⟨hk.inv, hg.fs ▸ hk.evolves, fun c => hg.fs ▸ hk.users c, hk.files.trans hg.files, hk.tasks.trans hg.tasks,
    hk.procRoot.trans hg.procRoot, fun hn => (hk.stale hn).trans hg.stale, fun hp hz => ?_,
    fun ok hb => hg.allocs ok (hk.allocs ok hb), hg.fs ▸ hk.names⟩
  exact (hk.stray (hg.procLinked hp) (hz.congr hg.stray)).trans hg.stray

/-! ## References -/

theorem Inv.congr (h : s.Inv) (hq : Quiet s.fs s'.fs) (hd : s'.dentries = s.dentries)
    (hn : s'.nextDentry = s.nextDentry) (hw : s'.cwd = s.cwd) (hp : s'.procRoot = s.procRoot) : s'.Inv := by
  refine ⟨hq.inv, ?_, by rw [hq.view]; exact h.short, hp ▸ h.proc_of_evolves hq.evolves⟩
  apply h.cache.congr hd hn hw
  · intro c x p y _ _ _ _ _ hf
    rw [hq.view]
    exact hf
  · exact fun _ hc => hc

theorem Inv.iget (h : s.Inv) (r : InodeRef) : (s.iget r).Inv := by
  cases r with
  | ramfs i => exact h.congr (iget_quiet h.fs i).1 rfl rfl rfl rfl
  | proc j => exact h.congr (Quiet.refl h.fs) rfl rfl rfl rfl

theorem iput_proc (s : Vfs) (j : Nat) : ∃ procs, s.iput (.proc j) = { s with procs := procs } := by
  simp only [iput]
  split
  · exact ⟨s.procs, rfl⟩
  · split_ifs
    · exact ⟨s.procs, rfl⟩
    · exact ⟨_, rfl⟩
    · exact ⟨_, rfl⟩

theorem Inv.iput (h : s.Inv) (r : InodeRef) : (s.iput r).Inv := by
  cases r with
  | ramfs i => exact h.congr (Ramfs.iput_quiet h.fs i).1 rfl rfl rfl rfl
  | proc j =>
    obtain ⟨procs, he⟩ := s.iput_proc j
    rw [he]
    exact h.congr (Quiet.refl h.fs) rfl rfl rfl rfl

/-- An inode of ramfs is there, as long as the root of procfs is. -/
def Lives (s : Vfs) (r : InodeRef) : Prop := ∀ i, r = .ramfs i → s.ProcLinked → (s.fs.inodes i).isSome

theorem stray_iput (h : s.Unstrayed) (r : InodeRef) : (s.iput r).stray = s.stray := by
  cases r with
  | ramfs i => simp [Vfs.iput, Stray.iput, h i]
  | proc j =>
    obtain ⟨procs, he⟩ := s.iput_proc j
    rw [he]

variable {r : InodeRef}

/-- A reference on an inode that is there is not counted in freed memory. -/
theorem Inv.stray_iget (h : s.Inv) (hr : s.Lives r) (hp : s.ProcLinked) :
    (s.iget r).stray = s.stray ∧ (s.iget r).ProcLinked := by
  cases r with
  | ramfs i =>
    exact ⟨if_pos (hr i rfl hp), fun j hj => (iget_quiet h.fs i).1.linked j (hp j hj)⟩
  | proc j => exact ⟨rfl, hp⟩

theorem Calls.stray_iget (h : s.Inv) (hr : s.Lives r) (hk : Calls (s.iget r) s' gone foreign)
    (hp : s.ProcLinked) (hz : s.Unstrayed) : s'.stray = s.stray := by
  obtain ⟨hstray, hp'⟩ := h.stray_iget hr hp
  exact (hk.stray hp' (hz.congr hstray)).trans hstray

/-- A reference taken before a call and dropped after it makes no difference. -/
theorem Calls.paired (h : s.Inv) (hr : s.Lives r) (hk : Calls (s.iget r) s' gone foreign) :
    Calls s (s'.iput r) gone foreign := by
  have hinv := hk.inv.iput r
  have hstray : s.ProcLinked → s.Unstrayed → (s'.iput r).stray = s.stray := by
    intro hp hz
    have hsame := hk.stray_iget h hr hp hz
    exact (stray_iput (hz.congr hsame) r).trans hsame
  cases r with
  | ramfs i =>
    obtain ⟨hev, hu⟩ := hk.evolves.paired h.fs hk.users
    have hnames : Brings s.fs.findChild (s'.fs.iput i).findChild := by
      rw [(Ramfs.iput_quiet hk.inv.fs i).1.view, ← (iget_quiet h.fs i).1.view]
      exact hk.names
    exact ⟨hinv, hev, hu, hk.files, hk.tasks, hk.procRoot, hk.stale, hstray, hk.allocs, hnames⟩
  | proc j =>
    obtain ⟨procs, he⟩ := s'.iput_proc j
    rw [he] at hinv hstray ⊢
    exact ⟨hinv, hk.evolves, hk.users, hk.files, hk.tasks, hk.procRoot, hk.stale, hstray, hk.allocs, hk.names⟩

/-! ## `vfs_lookup` -/

theorem grows_of_procs (s : Vfs) (procs : Nat → Option ProcInode) (next : Nat) (allocs : List Bool)
    (ha : ∀ ok ∈ allocs, ok ∈ s.allocs) : Grows s { s with procs := procs, nextProc := next, allocs := allocs } :=
  ⟨fun _ _ h => h, rfl, rfl, rfl, rfl, rfl, rfl, rfl, ha⟩

/-- What procfs gives: the directory `/proc`, a new inode that nobody holds, or nothing. -/
def ProcGives (s : Vfs) (o : Option InodeRef × Vfs) : Prop :=
  ∃ r procs next allocs, o = (r, { s with procs := procs, nextProc := next, allocs := allocs }) ∧
    (∀ ok ∈ allocs, ok ∈ s.allocs) ∧ (r = none ∨ r = s.procRoot.map .ramfs ∨
      r = some (.proc s.nextProc) ∧ ∃ pid kind, procs = update s.procs s.nextProc (some ⟨pid, kind, 0⟩))

theorem procLookup_gives (s : Vfs) (current : Nat) (path : List UInt8) : s.ProcGives (s.procLookup current path) := by
  have hsame : ∀ r : Option InodeRef, (r = none ∨ r = s.procRoot.map .ramfs) → s.ProcGives (r, s) := by
    intro r hr
    exact ⟨r, s.procs, s.nextProc, s.allocs, rfl, fun _ hb => hb, hr.imp_right Or.inl⟩
  unfold procLookup
  split_ifs with h1 h2
  · exact hsame _ (Or.inr rfl)
  · exact hsame _ (Or.inl rfl)
  · dsimp only
    split_ifs with h4
    · exact hsame _ (Or.inr rfl)
    · split
      · exact hsame _ (Or.inl rfl)
      · split
        · exact hsame _ (Or.inl rfl)
        · unfold procAlloc
          split_ifs with h5
          · obtain ⟨ok, allocs, hk, hsub, -⟩ := s.kmalloc_cases
            rw [hk]
            cases ok with
            | false => exact ⟨none, s.procs, s.nextProc, allocs, rfl, hsub, Or.inl rfl⟩
            | true => exact ⟨_, _, _, allocs, rfl, hsub, Or.inr (Or.inr ⟨rfl, _, _, rfl⟩)⟩
          · exact hsame _ (Or.inl rfl)

theorem procPart_gives (s : Vfs) (current : Nat) (path : List UInt8) : s.ProcGives (s.procPart current path) := by
  unfold procPart
  split_ifs
  · exact s.procLookup_gives current path
  · exact ⟨none, s.procs, s.nextProc, s.allocs, rfl, fun _ hb => hb, Or.inl rfl⟩

/-- Where a lookup that starts in `s` takes its inode from; `procs` are the inodes of procfs after it. -/
def Origin (s : Vfs) (path : List UInt8) (procs : Nat → Option ProcInode) : InodeRef → Prop
  | .ramfs i => s.procRoot = some i ∨ s.fs.follow 8 (strCopy path) = some i
  | .proc j => j = s.nextProc ∧ ∃ pid kind, procs = update s.procs j (some ⟨pid, kind, 0⟩)

/-- `vfs_lookup` takes a reference on what it found and changes nothing else but procfs. -/
theorem vfsLookup_cases (s : Vfs) (current : Nat) (path : List UInt8) :
    ∃ procs next allocs s0, s0 = { s with procs := procs, nextProc := next, allocs := allocs } ∧
      (∀ ok ∈ allocs, ok ∈ s.allocs) ∧
      (s.vfsLookup current path = (none, s0) ∨
        ∃ r, s.vfsLookup current path = (some r, s0.iget r) ∧ s.Origin path procs r) := by
  obtain ⟨r, procs, next, allocs, he, hsub, hr⟩ := s.procPart_gives current path
  refine ⟨procs, next, allocs, _, rfl, hsub, ?_⟩
  unfold vfsLookup
  rw [he]
  cases r with
  | some r =>
    refine Or.inr ⟨r, rfl, ?_⟩
    rcases hr with hr | hr | ⟨hr, hpi⟩
    · cases hr
    · obtain ⟨i, hi, rfl⟩ := Option.map_eq_some_iff.1 hr.symm
      exact Or.inl hi
    · cases hr
      exact ⟨rfl, hpi⟩
  | none =>
    dsimp only
    cases hf : s.fs.follow 8 (strCopy path) with
    | none => exact Or.inl rfl
    | some i => exact Or.inr ⟨.ramfs i, rfl, Or.inr hf⟩

/-- Where the inode of a lookup comes from. -/
def Source (s s0 : Vfs) : InodeRef → Prop
  | .ramfs i => s.procRoot = some i ∨ s.fs.Found i
  | .proc j => ∃ pi, s0.procs j = some pi

theorem Inv.vfsLookup (h : s.Inv) (current : Nat) (path : List UInt8) : ∃ s0, s0.Inv ∧ Grows s s0 ∧
    (s.vfsLookup current path = (none, s0) ∨
      ∃ r, s.vfsLookup current path = (some r, s0.iget r) ∧ Source s s0 r) := by
  obtain ⟨procs, next, allocs, s0, rfl, hsub, hcases⟩ := s.vfsLookup_cases current path
  have h0 : Inv { s with procs := procs, nextProc := next, allocs := allocs } :=
    h.congr (Quiet.refl h.fs) rfl rfl rfl rfl
  refine ⟨_, h0, s.grows_of_procs procs next allocs hsub, ?_⟩
  refine hcases.imp_right ?_
  rintro ⟨r, he, hr⟩
  refine ⟨r, he, ?_⟩
  cases r with
  | ramfs i => exact hr.imp_right (Ramfs.follow_found h.fs)
  | proc j =>
    obtain ⟨-, pid, kind, rfl⟩ := hr
    exact ⟨_, update_self ..⟩

theorem Inv.lives_of_source {s0 : Vfs} (h : s.Inv) (hg : Grows s s0) (hs : Source s s0 r) : s0.Lives r := by
  rintro i rfl hp
  rw [hg.fs]
  rcases hs with hroot | hfound
  · obtain ⟨ri, hi, -⟩ := hp i (hg.procRoot.trans hroot)
    rw [← hg.fs, hi]
    rfl
  · obtain ⟨ri, hi, -⟩ := h.fs.live_of_found hfound
    rw [hi]
    rfl

theorem Inv.doStat (h : s.Inv) (current : Nat) (path : List UInt8) : Calls s (s.doStat current path) nothing False := by
  obtain ⟨s0, h0, hg, he | ⟨r, he, hs⟩⟩ := h.vfsLookup current path
  · simp only [Vfs.doStat, he]
    exact hg.keeps h h0.cache
  · simp only [Vfs.doStat, he]
    exact hg.trans_keeps ((Calls.refl (h0.iget r)).paired h0 (h.lives_of_source hg hs))

theorem Inv.faccessat (h : s.Inv) (current : Nat) (path : List UInt8) (nofollow : Bool) :
    Calls s (s.faccessat current path nofollow) nothing False := by
  unfold Vfs.faccessat
  split_ifs
  · split
    · exact Calls.refl h
    · next i hi =>
      exact (Calls.refl (h.iget _)).paired h (h.lives_of_source (Grows.refl s) (Or.inr (Ramfs.lookup_found h.fs hi)))
  · exact h.doStat current path

/-- A store into an inode that touches no link. -/
theorem Inv.withFs (h : s.Inv) (hq : Quiet s.fs fs) (hu : ∀ c, fs.users c = s.fs.users c) :
    Calls s { s with fs := fs } nothing False := by
  have hi : Inv { s with fs := fs } := h.congr hq rfl rfl rfl rfl
  exact h.calls_of hq.evolves (fun c => (hu c).ge) hi.cache (hq.view ▸ Brings.refl _) rfl

theorem users_set {ri r : RamfsInode} (hi : fs.inodes i = some ri) (hu : r.iCount = ri.iCount)
    (c : Nat) : (fs.set i r).users c = fs.users c := by
  by_cases e : c = i
  · subst e
    rw [Ramfs.users_of_live (Ramfs.set_self ..), Ramfs.users_of_live hi, hu]
  · simp only [Ramfs.users, Ramfs.set_of_ne e]

section

variable (h : s.Inv)
include h

theorem Inv.modify {f : RamfsInode → RamfsInode} (i : Nat)
    (hf : ∀ ri, (f ri).type = ri.type ∧ (f ri).nlink = ri.nlink ∧ (f ri).parent = ri.parent ∧
      (f ri).children = ri.children ∧
      (f ri).iCount = ri.iCount) : Calls s { s with fs := s.fs.modify i f } nothing False := by
  cases hi : s.fs.inodes i with
  | none =>
    have hsame : s.fs.modify i f = s.fs := by simp [Ramfs.modify, hi]
    rw [hsame]
    exact Calls.refl h
  | some ri =>
    obtain ⟨ht, hl, hp, hch, hc⟩ := hf ri
    rw [Ramfs.modify_of_live hi]
    apply h.withFs
    · refine Quiet.set h.fs hi ht hl hp hch fun hz => ?_
      rw [hc]
      exact (h.fs.kept i ri hi (hl ▸ hz)).resolve_right (by simp)
    · exact users_set hi hc

theorem Inv.inodeChmod (r : InodeRef) (mode : UInt16) : Calls s (s.inodeChmod r mode) nothing False := by
  cases r with
  | proc j => exact Calls.refl h
  | ramfs i => exact h.modify i fun ri => ⟨rfl, rfl, rfl, rfl, rfl⟩

theorem Inv.fchmodat (current : Nat) (path : List UInt8) (mode : UInt16) :
    Calls s (s.fchmodat current path mode) nothing False := by
  obtain ⟨s0, h0, hg, he | ⟨r, he, hs⟩⟩ := h.vfsLookup current path
  · simp only [Vfs.fchmodat, he]
    exact hg.keeps h h0.cache
  · simp only [Vfs.fchmodat, he]
    exact hg.trans_keeps (((h0.iget r).inodeChmod r mode).paired h0 (h.lives_of_source hg hs))

/-! ## Working directories -/

theorem Inv.setCwd (p : Nat) (path : List UInt8) : Calls s (s.setCwd p path).2 nothing False := by
  obtain ⟨r, s1, he, h1, hg, hr⟩ := h.cache.dLookupPath path
  simp only [Vfs.setCwd, he]
  cases r with
  | none => exact hg.keeps h h1
  | some d =>
    dsimp only
    split_ifs with hdir
    · refine hg.trans_keeps ?_
      have hi1 := h.grows h1 hg
      refine hi1.calls_of (Evolves.refl hi1.fs) (fun _ => Nat.le_refl _) { h1 with cwd := ?_ } (Brings.refl _) rfl
      intro p' d' hw
      dsimp only at hw
      by_cases e : p' = p
      · subst e
        rw [update_self] at hw
        cases hw
        exact hr d rfl
      · rw [update_of_ne e] at hw
        exact h1.cwd p' d' hw
    · exact hg.keeps h h1

/-! ## Making names -/

theorem Inv.found_dentry (hq : s.bare q = some y) : s.fs.Found y.inode := by
  by_cases hroot : q = rootDentry
  · subst hroot
    obtain ⟨r, hr, hri, -⟩ := h.cache.root
    obtain rfl := Option.mem_unique hq hr
    rw [hri]
    exact Or.inl h.fs.linked_root
  · obtain ⟨p, z, -, -, -, hf⟩ := h.cache.parent q y hq hroot
    exact Or.inr ⟨_, _, hf fun hc => hc⟩

/-- A directory in the cache is not removed. -/
theorem Inv.linked_dentry (hq : s.bare q = some y) (hdir : s.fs.isDir y.inode = true) : s.fs.Linked y.inode :=
  (h.found_dentry hq).elim id fun ⟨_, _, hf⟩ => h.fs.linked_of_findChild hf hdir

theorem Inv.live_dentry (hq : s.bare q = some y) : ∃ r, s.fs.inodes y.inode = some r := by
  obtain ⟨r, hr, -⟩ := h.fs.live_of_found (h.found_dentry hq)
  exact ⟨r, hr⟩

/-- A name is entered where there was none; the cache has no dentry for it. -/
theorem Inv.enter
    (hdoes : Ramfs.Does s.fs fs c .empty (setEntry s.fs.findChild i n (some c))) (hfree : s.fs.findChild i n = none)
    (hn : Enterable n) : Calls s { s with fs := fs } nothing False := by
  refine h.calls_of (hdoes.evolves h.fs hfree) (fun x => (hdoes.frame.users x).ge) ?_ ?_ rfl
  · refine h.cache.congr ?_ ?_ ?_ ?_ fun _ hc => hc
    · rfl
    · rfl
    · rfl
    · intro e x p y _ _ _ _ _ hf
      show fs.findChild y.inode x.name = some x.inode
      rw [hdoes.view, setEntry_of_ne]
      · exact hf
      · rintro ⟨rfl, rfl⟩
        rw [hfree] at hf
        cases hf
  · show Brings s.fs.findChild fs.findChild
    rw [hdoes.view]
    exact Brings.setEntry fun _ => hn

/-- A lookup of the parent, and what the next lookup of the whole path does. -/
theorem Inv.lookupParent {cs : List Name} (hcs : ∀ m ∈ cs, IsComponent m.bytes) :
    ∃ r s1, s.dLookupPath (renderPath (cs.map Name.bytes)) = (r, s1) ∧ s1.Inv ∧ Grows s s1 ∧
      ∀ q, r = some q → s1.Trail rootDentry cs q ∧ ∃ y, s1.bare q = some y ∧ s.fs.walk rootIno cs = some y.inode := by
  obtain ⟨x, hx, hxi, -⟩ := h.cache.root
  obtain ⟨r, s1, he, h1, hg, hr⟩ := CacheInv.dWalk cs h.cache hx
  refine ⟨r, s1, ?_, h.grows h1 hg, hg, ?_⟩
  · rw [dLookupPath_renderPath s hcs]
    exact he
  · rintro q rfl
    rw [hxi] at hr
    exact hr

theorem Inv.lookupPath (p : AbsPath) :
    ∃ r s1, s.dLookupPath p.bytes = (r, s1) ∧ s1.Inv ∧ Grows s s1 ∧
      ∀ q, r = some q → s1.Trail rootDentry p.comps q ∧ ∃ y, s1.bare q = some y ∧
        s.fs.lookup p.bytes = some y.inode := by
  have hcs : ∀ m ∈ p.comps, IsComponent m.bytes := p.isComponent
  obtain ⟨r, s1, hl, h1, hg, hr⟩ := h.lookupParent hcs
  refine ⟨r, s1, hl, h1, hg, fun q hq => ?_⟩
  obtain ⟨ht, y, hy, hw⟩ := hr q hq
  refine ⟨ht, y, hy, ?_⟩
  show s.fs.lookup (renderPath (p.comps.map Name.bytes)) = some y.inode
  rw [Ramfs.lookup_renderPath p.isComponent]
  exact hw

end

theorem dLookupPath_child {hole : Nat → Prop} {cs : List Name} (h : s.CacheInv hole) (ht : s.Trail rootDentry cs q)
    (hcs : ∀ m ∈ cs, IsComponent m.bytes) (hn : IsComponent n.bytes) :
    s.dLookupPath (renderPath ((cs ++ [n]).map Name.bytes)) = s.dStep q n := by
  have hall : ∀ m ∈ cs ++ [n], IsComponent m.bytes := by
    intro m hm
    rcases List.mem_append.1 hm with hm | hm
    · exact hcs m hm
    · rw [List.mem_singleton.1 hm]
      exact hn
  rw [dLookupPath_renderPath s hall, dWalk_append, h.dWalk_trail ht]

theorem Inv.doMake {type : FileType} {op : Ramfs → Nat → Name → Except Errno (Option Nat) × Ramfs} (h : s.Inv)
    (p : AbsPath)
    (hop : ∀ fs d n, fs.Inv .empty → (fs.isDir d = true → fs.Linked d) → Creates fs d n type (op fs d n)) :
    Calls s (s.doMake p.bytes op).2 nothing False := by
  rcases p.cases with ⟨-, he⟩ | ⟨cs, n, hcomps, hcs, hn, hbytes, he⟩
  · simp only [Vfs.doMake, he]
    exact Calls.refl h
  obtain ⟨r1, s1, hl1, h1, hg1, hr1⟩ := h.lookupParent hcs
  simp only [Vfs.doMake, he, hl1]
  cases r1 with
  | none => exact hg1.keeps h h1.cache
  | some q =>
    obtain ⟨ht, y, hq, -⟩ := hr1 q rfl
    obtain ⟨r2, s2, hl2, h2, hg2, hr2⟩ := h1.cache.dStep hq n
    have hi2 := h1.grows h2 hg2
    rw [hbytes]
    simp only [dLookupPath_child h1.cache ht hcs hn, hl2]
    cases r2 with
    | some d => exact (hg1.trans hg2).keeps h h2
    | none =>
      refine (hg1.trans hg2).trans_keeps ?_
      obtain ⟨ok, allocs, hk, hsub, -⟩ := s2.kmalloc_cases
      have hg3 : Grows s2 { s2 with allocs := allocs } := ⟨fun _ _ hx => hx, rfl, rfl, rfl, rfl, rfl, rfl, rfl, hsub⟩
      have h3 : Inv { s2 with allocs := allocs } := hi2.grows (h2.kmalloc allocs) hg3
      have hq3 : bare { s2 with allocs := allocs } q = some y := hg2.bare q y hq
      simp only [hk]
      cases ok with
      | false => exact hg3.keeps hi2 h3.cache
      | true =>
        refine hg3.trans_keeps ?_
        dsimp only
        rw [inodeOf_of_bare hq3]
        rcases hop s2.fs y.inode n hi2.fs (h3.linked_dentry hq3) with ⟨e, hfail⟩ | ⟨fs', hok, hfree, -, hdoes⟩
        · rw [hfail]
          exact Calls.refl h3
        · rw [hok]
          have hkeep := h3.enter hdoes hfree ((AbsPath.proper p).last _ _ he)
          have hq4 : bare { s2 with allocs := allocs, fs := fs' } q = some y := hq3
          have hf4 : ({ s2 with allocs := allocs, fs := fs' } : Vfs).fs.findChild y.inode n = some s2.fs.nextIno := by
            show fs'.findChild y.inode n = some s2.fs.nextIno
            rw [hdoes.view, setEntry_self]
          have hcache := hkeep.inv.cache.dAdd hq4 hf4 fun c x hx hp => hr2.1 c x hx hp
          exact { hkeep with inv := ⟨hkeep.inv.fs, hcache, hkeep.inv.short, hkeep.inv.proc⟩ }

theorem Inv.doMkdir (h : s.Inv) (p : AbsPath) (mode : UInt16) : Calls s (s.doMkdir p.bytes mode).2 nothing False :=
  h.doMake p fun _ _ _ hfs hd => Ramfs.inodeMkdir_creates hfs hd mode

theorem Inv.doMknod (h : s.Inv) (p : AbsPath) (mode : UInt16) (rdev : Nat) :
    Calls s (s.doMknod p.bytes mode rdev).2 nothing False := by
  unfold Vfs.doMknod
  split_ifs
  · exact Calls.refl h
  · exact h.doMake p fun _ _ _ hfs hd => Ramfs.inodeMknod_creates hfs hd mode rdev

/-- A creating operation that the cache is not told of. -/
theorem Inv.creates {type : FileType} {r : Except Errno (Option Nat) × Ramfs} (h : s.Inv)
    (hc : Creates s.fs i n type r) (hn : Enterable n) : Calls s { s with fs := r.2 } nothing False := by
  rcases hc with ⟨e, rfl⟩ | ⟨fs', rfl, hfree, -, hdoes⟩
  · exact Calls.refl h
  · exact h.enter hdoes hfree hn

theorem Inv.doSymlink (h : s.Inv) (current : Nat) (target : List UInt8) (p : AbsPath) :
    Calls s (s.doSymlink current target p.bytes).2 nothing False := by
  obtain ⟨s0, h0, hg, he | ⟨r, he, hs⟩⟩ := h.vfsLookup current p.bytes
  · simp only [Vfs.doSymlink, he]
    refine hg.trans_keeps ?_
    rcases p.cases with ⟨-, hp⟩ | ⟨cs, n, hcomps, hcs, hn, hbytes, hp⟩
    · simp only [hp]
      exact Calls.refl h0
    · obtain ⟨r1, s1, hl1, h1, hg1, hr1⟩ := h0.lookupParent hcs
      simp only [hp, hl1]
      cases r1 with
      | none => exact hg1.keeps h0 h1.cache
      | some q =>
        obtain ⟨-, y, hq, -⟩ := hr1 q rfl
        refine hg1.trans_keeps ?_
        dsimp only
        rw [inodeOf_of_bare hq]
        have hcr : Creates s1.fs y.inode n .lnk (s1.fs.inodeSymlink y.inode n target) :=
          Ramfs.inodeSymlink_creates h1.fs (h1.linked_dentry hq) target
        have hkeep := h1.creates hcr ((AbsPath.proper p).last _ _ hp)
        generalize s1.fs.inodeSymlink y.inode n target = o at hkeep
        obtain ⟨_ | _, fs'⟩ := o
        · exact hkeep
        · exact hkeep
  · simp only [Vfs.doSymlink, he]
    exact hg.trans_keeps ((Calls.refl (h0.iget r)).paired h0 (h.lives_of_source hg hs))

theorem Inv.symlinkat (h : s.Inv) (current : Nat) (target : List UInt8) (p : AbsPath) :
    Calls s (s.symlinkat current target p.bytes).2 nothing False := by
  unfold Vfs.symlinkat
  split_ifs
  · exact Calls.refl h
  · exact h.doSymlink current target p

/-! ## Links -/

/-- To ramfs a procfs inode it enters looks like a file of its own. -/
theorem linkForeign_creates (h : fs.Inv .empty) (hd : fs.isDir i = true → fs.Linked i) :
    Creates fs i n .reg (linkForeign fs i n) := by
  unfold linkForeign
  split_ifs with h1 h2 h3
  · exact Or.inl ⟨_, rfl⟩
  · exact Or.inl ⟨_, rfl⟩
  · have hfresh : fs.inodes fs.nextIno = none := h.fresh _ (Nat.le_refl _)
    have hne : i ≠ fs.nextIno := by
      obtain ⟨ri, hi, -⟩ := hd h2
      exact (h.lt hi).ne
    have hcell : (fs.set fs.nextIno (ramfsInodeInit fs.nextIno .reg)).inodes fs.nextIno =
        some (ramfsInodeInit fs.nextIno .reg) := Ramfs.set_self ..
    have hnew : Ramfs.Does fs { fs.set fs.nextIno (ramfsInodeInit fs.nextIno .reg) with nextIno := fs.nextIno + 1 }
        fs.nextIno (.nameless fs.nextIno) fs.findChild := by
      refine ⟨h.alloc .reg, Ramfs.Frame.alloc hfresh rfl, Ramfs.findChild_alloc hfresh rfl, ?_⟩
      intro x rx hx hlive
      exact ⟨rx, (Ramfs.set_of_ne hx).trans hlive, rfl, rfl, rfl⟩
    have hfree : fs.findChild i n = none := by simpa using h3
    obtain ⟨fs', heq, hadd⟩ := Ramfs.addChild_does hnew.inv hcell (hnew.linked hne (hd h2)) hne
      (by rw [hnew.view]; exact hfree) (by rintro ⟨⟩)
    refine Or.inr ⟨fs', ?_, hfree, hadd.hasType (hnew.inv.lt hcell) hcell rfl, ?_⟩
    · dsimp only
      rw [heq]
    · have hall := hnew.trans hadd
      rw [hnew.view] at hall
      exact hall
  · exact Or.inl ⟨_, rfl⟩

/-- `vfs_link`: an entry for a procfs inode is made when the directory has no such name. -/
theorem Inv.vfsLink {old : InodeRef} (h : s.Inv) (hlive : ∀ j, old = .ramfs j → (s.fs.inodes j).isSome)
    (hd : s.fs.isDir i = true → s.fs.Linked i) (hn : Enterable n) :
    Calls s (s.vfsLink old i n).2 nothing ((∃ j, old = .proc j) ∧ s.fs.isDir i = true ∧ s.fs.findChild i n = none) := by
  cases old with
  | ramfs j =>
    obtain ⟨rj, hj⟩ := Option.isSome_iff_exists.1 (hlive j rfl)
    unfold Vfs.vfsLink
    rcases Ramfs.inodeLink_spec (n := n) h.fs hj hd with ⟨e, he⟩ | ⟨fs', he, hfree, -, hdoes⟩
    · simp only [he]
      exact (Calls.refl h).mono (fun _ hc => hc) False.elim
    · simp only [he]
      exact (h.enter hdoes hfree hn).mono (fun _ hc => hc) False.elim
  | proc j =>
    unfold Vfs.vfsLink
    by_cases hdir : s.fs.isDir i = true
    · rcases linkForeign_creates (n := n) h.fs hd with ⟨e, he⟩ | ⟨fs', he, hfree, -, hdoes⟩
      · simp only [he]
        exact (Calls.refl h).mono (fun _ hc => hc) False.elim
      · simp only [he]
        have hkeep := h.enter hdoes hfree hn
        have hinv : Inv { s with fs := fs', stale := s.fs.nextIno :: s.stale } :=
          hkeep.inv.congr (Quiet.refl hkeep.inv.fs) rfl rfl rfl rfl
        exact ⟨hinv, hkeep.evolves, hkeep.users, rfl, rfl, rfl, fun hc => absurd ⟨⟨j, rfl⟩, hdir, hfree⟩ hc,
          fun _ _ => rfl, hkeep.allocs, hkeep.names⟩
    · have hno : ∃ e, linkForeign s.fs i n = (.error e, s.fs) := by
        unfold linkForeign
        split_ifs
        · exact ⟨_, rfl⟩
        · exact ⟨_, rfl⟩
      obtain ⟨e, he⟩ := hno
      simp only [he]
      exact (Calls.refl h).mono (fun _ hc => hc) False.elim

/-- The lookups of the paths succeed, one after the other. -/
def finds (s : Vfs) : List (List UInt8) → Bool
  | [] => true
  | path :: rest =>
    match s.dLookupPath path with
    | (none, _) => false
    | (some _, s) => s.finds rest

def parentPath (path : List UInt8) : List UInt8 :=
  match pathParentName path with
  | .error _ => []
  | .ok (parent, _) => parent

/-- A link to the path would make a new entry. -/
def linksInto (s : Vfs) (current : Nat) (path : List UInt8) : Bool :=
  match s.vfsLookup current path with
  | (some _, _) => false
  | (none, s) => s.finds [parentPath path] && (s.fs.lookup (parentPath path)).any s.fs.isDir &&
    (s.fs.lookup path).isNone

/-- The call makes a ramfs entry for a file of procfs. -/
def entersProc (s : Vfs) : Act → Bool
  | .linkat p oldpath newpath =>
    match s.vfsLookup p oldpath.bytes with
    | (some (.proc j), s) => !s.isDir (.proc j) && s.linksInto p newpath.bytes
    | _ => false
  | _ => false

/-- A reference that a lookup gave is on an inode that is there, or on a directory. -/
def Holds (s : Vfs) (r : InodeRef) : Prop := ∀ i, r = .ramfs i → s.isDir r = false → (s.fs.inodes i).isSome

theorem Inv.linkHeld {old : InodeRef} (h : s.Inv) (hold : s.Holds old) (current : Nat) (p : AbsPath) :
    Calls s (s.linkHeld current old p.bytes).2 nothing
      ((∃ j, old = .proc j) ∧ s.isDir old = false ∧ s.linksInto current p.bytes = true) := by
  have hsame : ∀ {t : Vfs}, Calls s t nothing False → Calls s t nothing
      ((∃ j, old = .proc j) ∧ s.isDir old = false ∧ s.linksInto current p.bytes = true) :=
    fun hk => hk.mono (fun _ hc => hc) False.elim
  unfold Vfs.linkHeld
  split_ifs with hdir
  · exact hsame (Calls.refl h)
  obtain ⟨s0, h0, hg, he | ⟨r, he, hs⟩⟩ := h.vfsLookup current p.bytes
  · simp only [he]
    rcases p.cases with ⟨-, hp⟩ | ⟨cs, n, hcomps, hcs, hn, hbytes, hp⟩
    · simp only [hp]
      exact hsame (hg.keeps h h0.cache)
    · obtain ⟨r1, s1, hl1, h1, hg1, hr1⟩ := h0.lookupParent hcs
      simp only [hp, hl1]
      cases r1 with
      | none => exact hsame ((hg.trans hg1).keeps h h1.cache)
      | some q =>
        obtain ⟨-, y, hq, hw⟩ := hr1 q rfl
        refine (hg.trans hg1).trans_keeps ?_
        dsimp only
        rw [inodeOf_of_bare hq]
        have hlive : ∀ j, old = .ramfs j → (s1.fs.inodes j).isSome := by
          intro j hj
          rw [hg1.fs, hg.fs]
          exact hold j hj (by simpa using hdir)
        refine (h1.vfsLink hlive (h1.linked_dentry hq) ((AbsPath.proper p).last _ _ hp)).mono (fun _ hc => hc) ?_
        rintro ⟨hproc, hyd, hfree⟩
        refine ⟨hproc, by simpa using hdir, ?_⟩
        -- the lookups in ramfs come to the same directory
        have hlook : s0.fs.lookup (renderPath (cs.map Name.bytes)) = some y.inode := by
          rw [Ramfs.lookup_renderPath hcs, hw]
        have hno : s0.fs.lookup p.bytes = none := by
          rw [hg1.fs] at hfree
          rw [hbytes, Ramfs.lookup_renderPath (by rw [← hcomps]; exact p.isComponent), Ramfs.walk_append, hw]
          simp [Ramfs.walk, hfree]
        rw [hg1.fs] at hyd
        simp [linksInto, he, finds, parentPath, hp, hl1, hlook, hno, hyd]
  · simp only [he]
    exact hsame (hg.trans_keeps ((Calls.refl (h0.iget r)).paired h0 (h.lives_of_source hg hs)))

theorem Inv.holds_of_source {s0 : Vfs} (h : s.Inv) (hg : Grows s s0) (hs : Source s s0 r) :
    (s0.iget r).Holds r := by
  rintro i rfl hdir
  have hlive : (s.fs.inodes i).isSome := by
    rcases hs with hroot | hfound
    · -- the root of procfs is a directory, freed or not
      have ht : (s.fs.iget i).typeAt i = some .dir := by
        rw [(iget_quiet h.fs i).1.memory]
        exact (h.proc i hroot).2
      have hdir' : decide ((s0.fs.iget i).typeAt i = some .dir) = false := hdir
      rw [hg.fs, ht] at hdir'
      cases hdir'
    · obtain ⟨ri, hi, -⟩ := h.fs.live_of_found hfound
      simp [hi]
  obtain ⟨ri, hi⟩ := Option.isSome_iff_exists.1 hlive
  show ((s0.fs.iget i).inodes i).isSome
  rw [hg.fs, Ramfs.iget, Ramfs.modify_of_live hi, Ramfs.set_self]
  rfl

theorem Inv.doLink (h : s.Inv) (current : Nat) (old new : AbsPath) :
    Calls s (s.doLink current old.bytes new.bytes).2 nothing (s.entersProc (.linkat current old new) = true) := by
  obtain ⟨s0, h0, hg, he | ⟨r, he, hs⟩⟩ := h.vfsLookup current old.bytes
  · simp only [Vfs.doLink, he]
    exact (hg.keeps h h0.cache).mono (fun _ hc => hc) False.elim
  · simp only [Vfs.doLink, he]
    have hk := (h0.iget r).linkHeld (h.holds_of_source hg hs) current new
    refine hg.trans_keeps ((hk.mono (fun _ hc => hc) ?_).paired h0 (h.lives_of_source hg hs))
    rintro ⟨⟨j, rfl⟩, hdir, hinto⟩
    simp [entersProc, he, hdir, hinto]

end Vfs

end MiniOs.Fs
