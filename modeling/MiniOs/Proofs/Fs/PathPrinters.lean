/-
The two ways back from a directory to its path agree. `dentry_path` goes up the cache and
`ramfs_inode_path` the parent pointers of ramfs. Both come through the names that lead to the directory
from the root, since the cache mirrors the entries and a directory has one entry only, and the lookups
of both layers take these names back to where they came from.
-/
import MiniOs.Fs.DentryPath
import MiniOs.Proofs.Fs.RenamePaths

namespace MiniOs.Fs

open Library

/-! ## The way up in ramfs -/

variable {cs : List Name}

namespace Ramfs

variable {fs : Ramfs} {i p : Nat} {n : Name}

theorem memory_of_live {ri : RamfsInode} (h : fs.inodes i = some ri) : fs.memory i = some ri := by
  unfold memory
  rw [h]

/-- `ramfs_name_in_parent` finds the one name of a directory. -/
theorem Inv.nameInParent (h : fs.Inv .empty) (hf : fs.findChild p n = some i) (hdir : fs.isDir i = true) :
    fs.nameInParent p i = some n := by
  obtain ⟨rp, hp, hmem⟩ := h.findChild_iff.1 hf
  unfold Ramfs.nameInParent
  rw [memory_of_live hp]
  have hsome : (rp.children.find? fun e => decide (e.2 = i)).isSome = true :=
    List.find?_isSome.2 ⟨(n, i), hmem, by simp⟩
  obtain ⟨⟨m, j⟩, hfind⟩ := Option.isSome_iff_exists.1 hsome
  obtain rfl : j = i := by simpa using List.find?_some hfind
  obtain ⟨-, rfl⟩ := h.entry_unique hf (h.findChild_iff.2 ⟨rp, hp, List.mem_of_find?_eq_some hfind⟩) hdir
  simp [hfind]

/-- The directories on the way up carry the names of the way down. -/
theorem Inv.chainNames_eq (h : fs.Inv .empty) : ∀ {cs : List Name} {rounds i : Nat} {l : List Nat}
    {names : List (List UInt8)}, fs.walk rootIno cs = some i → fs.Linked i → fs.chain rounds (some i) = some (.ok l) →
      fs.chainNames l = .ok names → names = cs.map Name.bytes := by
  intro cs
  induction cs using List.reverseRecOn with
  | nil =>
    intro rounds i l names hwalk _ hchain hnames
    obtain rfl : rootIno = i := Option.some.inj hwalk
    unfold chain at hchain
    rw [if_pos rfl] at hchain
    cases hchain
    cases hnames
    rfl
  | append_singleton cs n ih =>
    intro rounds i l names hwalk hlinked hchain hnames
    obtain ⟨p, hp, hf⟩ := walk_concat_eq_some hwalk
    obtain ⟨ri, hent⟩ := h.exists_entry hf
    obtain ⟨ri', hi, htype, -⟩ := hlinked
    obtain rfl := Option.mem_unique hent.live hi
    have hname := h.nameInParent hf (by simpa [isDir_of_live hi] using htype)
    unfold chain at hchain
    rw [if_neg hent.ne_root] at hchain
    cases rounds with
    | zero => cases hchain
    | succ rounds =>
      simp only [memory_of_live hi, hent.parent htype] at hchain
      obtain ⟨r, hrest, hr⟩ := Option.map_eq_some_iff.1 hchain
      cases r with
      | error e => cases hr
      | ok rest =>
        cases hr
        unfold chainNames at hnames
        cases hsub : fs.chainNames rest with
        | error e =>
          rw [hsub] at hnames
          cases hnames
        | ok above =>
          obtain rfl := ih hp hent.linked hrest hsub
          simp only [hsub, memory_of_live hi, Option.bind_some, hent.parent htype, Option.getD_some, hname] at hnames
          split_ifs at hnames
          cases hnames
          simp

/-- `ramfs_inode_path` prints the way down to a directory. -/
theorem Inv.inodePath_eq (h : fs.Inv .empty) {str : List UInt8} (hwalk : fs.walk rootIno cs = some i)
    (hi : fs.Linked i) (hpath : fs.inodePath i = some (.ok str)) : str = renderPath (cs.map Name.bytes) := by
  obtain ⟨ri, hlive, htype, -⟩ := id hi
  unfold inodePath at hpath
  rw [memory_of_live hlive, Option.map_some, htype, if_neg (by simp)] at hpath
  cases hchain : fs.chain 64 (some i) with
  | none =>
    rw [hchain] at hpath
    cases hpath
  | some r =>
    cases r with
    | error e =>
      rw [hchain] at hpath
      cases hpath
    | ok l =>
      cases hnames : fs.chainNames l with
      | error e =>
        simp only [hchain, hnames] at hpath
        cases hpath
      | ok names =>
        simp only [hchain, hnames] at hpath
        cases hpath
        rw [h.chainNames_eq hwalk hi hchain hnames]

end Ramfs

/-! ## The way up in the cache -/

namespace Vfs

variable {s : Vfs} {d : Nat} {x : Dentry} {str : List UInt8}

theorem bare_of_dentry (hx : s.dentries d = some x) : s.bare d = some { x with children := [] } := by
  rw [bare, hx]
  rfl

/-- The names on the way to a dentry, and that `dentry_path` prints them on its way back. -/
structure Address (s : Vfs) (d : Nat) (cs : List Name) : Prop where
  trail : s.Trail rootDentry cs d
  components : ∀ n ∈ cs, IsComponent n.bytes
  root : s.parentOf d = none ↔ cs = []
  printed : ∀ {rounds : Nat} {tmp str : List UInt8}, s.dentryPathLoop rounds d tmp = .ok str →
    str = slashed (cs.map Name.bytes) ++ tmp

theorem address_root (hp : s.parentOf rootDentry = none) : s.Address rootDentry [] := by
  refine ⟨rfl, by simp, by simp [hp], ?_⟩
  intro rounds tmp str hloop
  cases rounds with
  | zero => cases hloop
  | succ rounds =>
    unfold dentryPathLoop at hloop
    unfold parentOf at hp
    cases hroot : s.dentries rootDentry with
    | none =>
      rw [hroot] at hloop
      cases hloop
      rfl
    | some x =>
      rw [hroot, Option.bind_some] at hp
      simp only [hroot, hp] at hloop
      cases hloop
      rfl

theorem Address.child {q : Nat} (h : s.Address q cs) (hx : s.dentries d = some x) (hp : x.parent = some q)
    (hn : IsComponent x.name.bytes) : s.Address d (cs ++ [x.name]) := by
  constructor
  · exact Trail.append (x := { x with children := [] }) h.trail (bare_of_dentry hx) hp
  · intro n hmem
    rcases List.mem_append.1 hmem with hmem | hmem
    · exact h.components n hmem
    · obtain rfl := List.mem_singleton.1 hmem
      exact hn
  · simp [parentOf, hx, hp]
  · intro rounds tmp str hloop
    cases rounds with
    | zero => cases hloop
    | succ rounds =>
      unfold dentryPathLoop at hloop
      simp only [hx, hp] at hloop
      split_ifs at hloop
      rw [h.printed hloop, List.map_append, slashed_append]
      simp

theorem Booted.isEntry (h : s.Booted) (d : Nat) (n : Name) (c : Nat) (hf : s.fs.findChild d n = some c) :
    IsEntry n := by
  rcases h.names d n c hf with hn | ⟨b, ⟨⟩⟩
  exact hn.1

theorem CacheInv.exists_address (h : s.CacheInv noHole) (hnamed : ∀ d n c, s.fs.findChild d n = some c → IsEntry n)
    (hx : s.dentries d = some x) : ∃ cs, s.Address d cs := by
  have hr := h.reach d _ (bare_of_dentry hx)
  induction hr using Relation.ReflTransGen.head_induction_on generalizing x with
  | refl =>
    obtain ⟨r, hr, -, hp⟩ := h.root
    exact ⟨[], address_root (by rw [parentOf_of_bare hr, hp])⟩
  | @head a b hab _ ih =>
    have hp : x.parent = some b := by rwa [parentOf_of_bare (bare_of_dentry hx)] at hab
    obtain ⟨y, hy, hf⟩ := h.link (bare_of_dentry hx) hp
    obtain ⟨z, hz, -⟩ := Option.map_eq_some_iff.1 hy
    obtain ⟨cs, hcs⟩ := ih hz
    exact ⟨cs ++ [x.name], hcs.child hx hp (hnamed _ _ _ hf)⟩

theorem Address.dentryPath_eq (h : s.Address d cs) (hpath : s.dentryPath d = .ok str) :
    str = renderPath (cs.map Name.bytes) := by
  unfold dentryPath at hpath
  cases hp : s.parentOf d with
  | none =>
    rw [hp] at hpath
    cases hpath
    rw [h.root.1 hp]
    rfl
  | some q =>
    have hne : cs ≠ [] := fun he => by simp [h.root.2 he] at hp
    rw [hp] at hpath
    rw [h.printed hpath, List.append_nil, renderPath_of_ne_nil (by simpa using hne)]

theorem Address.walk (h : s.Address d cs) (hc : s.CacheInv noHole) (hx : s.dentries d = some x) :
    s.fs.walk rootIno cs = some x.inode := by
  obtain ⟨r, hr, hri, -⟩ := hc.root
  obtain ⟨o, s1, heq, -, -, hend⟩ := CacheInv.dWalk cs hc hr
  rw [hc.dWalk_trail h.trail] at heq
  cases heq
  obtain ⟨-, z, hz, hwalk⟩ := hend
  rw [bare_of_dentry hx] at hz
  cases hz
  rw [← hri]
  exact hwalk

/-- A string denotes the dentry `d` and its inode `i`: both lookups come back from it, and it is what the
calls that print or take the directory of a task or of a descriptor see. -/
structure Denotes (s : Vfs) (str : List UInt8) (d i : Nat) : Prop where
  lookup : s.fs.lookup str = some i
  dLookupPath : s.dLookupPath str = (some d, s)
  chdir : ∀ p, s.chdir p str = (.ok (), { s with cwd := Function.update s.cwd p (some d) })
  fchdir : ∀ p fd, s.inodeOfFd p fd = .ok (.ramfs i) → s.fchdir p fd = some (s.chdir p str)
  getcwd : ∀ p, s.cwd p = some d → s.getcwd p = .ok str
  dirfdBase : ∀ p, s.cwd p = some d → s.dirfdBase p none = some (.ok str)
  dirfdBase_fd : ∀ p fd, s.inodeOfFd p fd = .ok (.ramfs i) → s.dirfdBase p (some fd) = some (.ok str)

theorem Inv.denotes (h : s.Inv) (hnamed : ∀ d n c, s.fs.findChild d n = some c → IsEntry n) {str' : List UInt8}
    (hx : s.dentries d = some x)
    (hl : s.fs.Linked x.inode) (hd : s.dentryPath d = .ok str) (hi : s.fs.inodePath x.inode = some (.ok str')) :
    str' = str ∧ s.Denotes str d x.inode := by
  obtain ⟨cs, hcs⟩ := h.cache.exists_address hnamed hx
  have hwalk := hcs.walk h.cache hx
  obtain rfl := hcs.dentryPath_eq hd
  obtain rfl := h.fs.inodePath_eq hwalk hl hi
  have hlookup : s.dLookupPath (renderPath (cs.map Name.bytes)) = (some d, s) := by
    rw [dLookupPath_renderPath s hcs.components]
    exact h.cache.dWalk_trail hcs.trail
  refine ⟨rfl, ?_, hlookup, ?_, ?_, ?_, ?_, ?_⟩
  · rw [Ramfs.lookup_renderPath hcs.components, hwalk]
  · intro p
    obtain ⟨rx, hlive, htype, -⟩ := hl
    have hdir : s.fs.isDir (s.inodeOf d) = true := by
      rw [inodeOf_of_bare (bare_of_dentry hx), Ramfs.isDir_of_live hlive]
      simpa using htype
    simp [Vfs.chdir, Vfs.setCwd, hlookup, hdir]
  · intro p fd hfd
    simp only [Vfs.fchdir, hfd, hi]
    rfl
  · intro p hp
    simp [Vfs.getcwd, pwdDentry, hp, hd]
  · intro p hp
    simp [Vfs.dirfdBase, pwdDentry, hp, hd]
  · intro p fd hfd
    simp only [Vfs.dirfdBase, hfd, hi]

/-- In every run that keeps ramfs and procfs apart, and in which ramfs has its memory, the two printers agree on the
directories of the cache, and lookup inverts them. -/
theorem run_denotes {ra fa da : List Bool} (hra : ∀ ok ∈ ra, ok = true) {acts : List Act}
    (hrun : run stepApart (init ra fa da) acts = some s) :
    ∀ d x str str', s.InTree d → s.dentries d = some x → s.fs.Linked x.inode → s.dentryPath d = .ok str →
      s.fs.inodePath x.inode = some (.ok str') → str' = str ∧ s.Denotes str d x.inode := by
  intro d x str str' _ hx hl hd hi
  obtain ⟨hb, -⟩ := run_booted hra hrun
  exact hb.inv.denotes hb.isEntry hx hl hd hi

/-- The directory of a task, after the directory above it was renamed. -/
theorem run_denotes_of_movedUnderfoot : ∃ s d i, run stepApart (init [true] [] [true]) movedUnderfoot = some s ∧
    s.cwd 1 = some d ∧ s.dentryPath d = .ok pathCB.bytes ∧ s.Denotes pathCB.bytes d i := by
  obtain ⟨s, x, hrun, hcwd, hx, h1, h2, hl, hpath, hipath⟩ : ∃ s x,
    run stepApart (init [true] [] [true]) movedUnderfoot =
      some s ∧ s.cwd 1 = some 2 ∧ s.dentries 2 = some x ∧ 1 ∈ s.childrenOf rootDentry ∧ 2 ∈ s.childrenOf 1 ∧
        (∃ r, s.fs.inodes x.inode = some r ∧ r.type = .dir ∧ r.nlink ≠ 0) ∧ s.dentryPath 2 = .ok pathCB.bytes ∧
          s.fs.inodePath x.inode = some (.ok pathCB.bytes) :=
    ⟨_, _, rfl, rfl, rfl, by decide, by decide, ⟨_, rfl, rfl, by decide⟩, rfl, rfl⟩
  have hin : s.InTree 2 := .child (.child .root h1) h2
  exact ⟨s, 2, x.inode, hrun, hcwd, hpath, (run_denotes (by decide) hrun 2 x _ _ hin hx hl hpath hipath).2⟩

/-- `rename("/c", "/a/b")` over a directory, in which the memory for the entry runs out, and a new directory. -/
def lostTarget : List Act :=
  [.mkdirat 1 pathA 0o755, .mkdirat 1 pathAB 0o755, .mkdirat 1 pathC 0o755, .renameat 1 pathC pathAB,
    .mkdirat 1 pathL 0o755]

/-- Two directories in the same memory: the dentry of `/a` prints `/a`, and its inode prints `/c`. The dentry of `/a/b`
that a failing rename leaves is for the memory of `/l`. -/
theorem not_denotes_of_secondFree :
    (∃ s x, run step (init [] [] []) secondFree = some s ∧ s.InTree 2 ∧ s.dentries 2 = some x ∧ s.fs.Linked x.inode ∧
      s.dentryPath 2 = .ok pathA.bytes ∧ s.fs.inodePath x.inode = some (.ok pathC.bytes)) ∧
    ∃ s x, run step (init (List.replicate 16 true ++ [false]) [] []) lostTarget = some s ∧ s.InTree 2 ∧
      s.dentries 2 = some x ∧ s.fs.Linked x.inode ∧ s.dentryPath 2 = .ok pathAB.bytes ∧
      s.fs.inodePath x.inode = some (.ok pathL.bytes) := by
  refine ⟨⟨_, _, rfl, .child .root (by decide), rfl, ⟨_, rfl, rfl, by decide⟩, rfl, rfl⟩, ?_⟩
  obtain ⟨s, hrun, hs⟩ := (Option.any_eq_true (fun s : Vfs => decide (1 ∈ s.childrenOf rootDentry ∧ 2 ∈ s.childrenOf 1 ∧
      s.dentryPath 2 = .ok pathAB.bytes) && (s.dentries 2).any fun x =>
        decide (s.fs.inodePath x.inode = some (.ok pathL.bytes)) && (s.fs.inodes x.inode).any fun r =>
          r.type = .dir ∧ r.nlink ≠ 0) _).1
    (by decide +kernel : (run step (init (List.replicate 16 true ++ [false]) [] []) lostTarget).any _ = true)
  simp only [Bool.and_eq_true, decide_eq_true_eq, Option.any_eq_true] at hs
  obtain ⟨⟨h1, h2, hpath⟩, x, hx, hipath, hl⟩ := hs
  exact ⟨s, x, hrun, .child (.child .root h1) h2, hx, hl, hpath, hipath⟩

end Vfs

end MiniOs.Fs
