/-
The calls that open and close files, and with them every call: what it does to ramfs and the cache, and
that the files which are open hold their inodes.
-/
import MiniOs.Proofs.Fs.FilesInodes
import MiniOs.Proofs.Fs.NameiRemove

namespace MiniOs.Fs

open Library Function
open Ramfs (nothing Quiet)

theorem Ramfs.Quiet.trans {fs fs' fs'' : Ramfs} (h1 : Quiet fs fs') (h2 : Quiet fs' fs'') : Quiet fs fs'' := by
  refine ⟨h2.inv, h2.next.trans h1.next, h2.view.trans h1.view, ?_, fun c => (h2.memory c).trans (h1.memory c),
    fun d hd => h2.linked d (h1.linked d hd)⟩
  intro x r'' hx
  obtain ⟨r', hr', hl', ht', hp'⟩ := h2.back x r'' hx
  obtain ⟨r, hr, hl, ht, hp⟩ := h1.back x r' hr'
  exact ⟨r, hr, hl'.trans hl, ht'.trans ht, hp'.trans hp⟩

namespace Vfs

variable {s s' s'' : Vfs} {gone : Nat → Prop} {foreign : Prop} {hand : List InodeRef} {p : Nat} {r : InodeRef}

/-- What every call does; as in `Calls`, but for files and references. -/
structure Proceeds (s s' : Vfs) (gone : Nat → Prop) (foreign : Prop) : Prop where
  inv : s'.Inv
  evolves : Ramfs.Evolves s.fs s'.fs gone
  procRoot : s'.procRoot = s.procRoot
  stale : ¬ foreign → s'.stale = s.stale
  stray : s.ProcLinked → s.Unstrayed → s'.stray = s.stray
  allocs : ∀ ok ∈ s'.allocs, ok ∈ s.allocs
  names : Brings s.fs.findChild s'.fs.findChild

theorem Calls.proceeds (h : Calls s s' gone foreign) : Proceeds s s' gone foreign :=
  ⟨h.inv, h.evolves, h.procRoot, h.stale, h.stray, h.allocs, h.names⟩

/-- Every reference that a file or the hand of a call has is counted in its inode. -/
def Held (s : Vfs) (hand : List InodeRef) : Prop :=
  ∃ due, s.files.Owes due ∧ ∀ i, due (.ramfs i) + hand.count (.ramfs i) ≤ s.fs.users i

theorem Calls.held (hk : Calls s s' gone foreign) (h : s.Held hand) : s'.Held hand := by
  obtain ⟨due, how, hle⟩ := h
  refine ⟨due, by rw [hk.files]; exact how, fun i => ?_⟩
  exact Nat.le_trans (hle i) (hk.users i)

/-! ## Dropping what is due -/

/-- Nothing has changed but references and contents. -/
structure Calm (s s' : Vfs) : Prop where
  inv : s'.Inv
  quiet : Quiet s.fs s'.fs
  dentries : s'.dentries = s.dentries
  cwd : s'.cwd = s.cwd
  procRoot : s'.procRoot = s.procRoot
  stale : s'.stale = s.stale
  allocs : s'.allocs = s.allocs
  files : s'.files = s.files

theorem Calm.refl (h : s.Inv) : Calm s s := ⟨h, Quiet.refl h.fs, rfl, rfl, rfl, rfl, rfl, rfl⟩

theorem Calm.trans (h1 : Calm s s') (h2 : Calm s' s'') : Calm s s'' :=
  ⟨h2.inv, h1.quiet.trans h2.quiet, h2.dentries.trans h1.dentries, h2.cwd.trans h1.cwd, h2.procRoot.trans h1.procRoot,
    h2.stale.trans h1.stale, h2.allocs.trans h1.allocs, h2.files.trans h1.files⟩

theorem Proceeds.calm (h : Proceeds s s' gone foreign) (hc : Calm s' s'')
    (hstray : s.ProcLinked → s.Unstrayed → s''.stray = s.stray) : Proceeds s s'' gone foreign := by
  refine ⟨hc.inv, h.evolves.trans_quiet hc.quiet, hc.procRoot.trans h.procRoot, fun hn =>
    hc.stale.trans (h.stale hn), hstray, ?_, hc.quiet.view ▸ h.names⟩
  rw [hc.allocs]
  exact h.allocs

theorem Inv.calm_iget (h : s.Inv) (r : InodeRef) : Calm s (s.iget r) := by
  refine ⟨h.iget r, ?_, ?_, ?_, ?_, ?_, ?_, ?_⟩
  · cases r with
    | ramfs i => exact (Ramfs.iget_quiet h.fs i).1
    | proc j => exact Quiet.refl h.fs
  all_goals cases r <;> rfl

theorem Inv.calm_iput (h : s.Inv) (r : InodeRef) :
    Calm s (s.iput r) ∧ ∀ i, (s.iput r).fs.users i = s.fs.users i - [r].count (.ramfs i) := by
  have hinv := h.iput r
  cases r with
  | ramfs j =>
    obtain ⟨hq, hu⟩ := Ramfs.iput_quiet h.fs j
    refine ⟨⟨hinv, hq, rfl, rfl, rfl, rfl, rfl, rfl⟩, fun i => ?_⟩
    refine (hu i).trans ?_
    by_cases e : i = j
    · simp [e]
    · simp [e, Ne.symm e]
  | proc j =>
    obtain ⟨procs, he⟩ := s.iput_proc j
    rw [he] at hinv ⊢
    exact ⟨⟨hinv, Quiet.refl h.fs, rfl, rfl, rfl, rfl, rfl, rfl⟩, fun i => by simp⟩

theorem Inv.calm_iputs (l : List InodeRef) : ∀ {s : Vfs}, s.Inv →
    Calm s (l.foldl Vfs.iput s) ∧ ∀ i, (l.foldl Vfs.iput s).fs.users i = s.fs.users i - l.count (.ramfs i) := by
  induction l with
  | nil => exact fun h => ⟨Calm.refl h, fun i => by simp⟩
  | cons r l ih =>
    intro s h
    obtain ⟨hc, hu⟩ := h.calm_iput r
    obtain ⟨hc', hu'⟩ := ih hc.inv
    refine ⟨hc.trans hc', fun i => ?_⟩
    have hsplit : (r :: l).count (.ramfs i) = [r].count (.ramfs i) + l.count (.ramfs i) :=
      (List.count_append : ([r] ++ l).count _ = _)
    rw [List.foldl_cons, hu', hu, hsplit]
    omega

theorem stray_iputs (l : List InodeRef) : ∀ {s : Vfs}, s.Unstrayed → (l.foldl Vfs.iput s).stray = s.stray := by
  induction l with
  | nil => exact fun _ => rfl
  | cons r l ih =>
    intro s h
    have hput := stray_iput h r
    exact (ih (h.congr hput)).trans hput

/-- The files of a call are stored, and what they no longer hold is dropped. -/
theorem Proceeds.settle (h : Proceeds s s' gone foreign) (files : Files InodeRef) :
    Proceeds s (Vfs.settle { s' with files := files }) gone foreign := by
  have h1 : Inv { s' with files := { files with iputs := [] } } := h.inv.congr (Quiet.refl h.inv.fs) rfl rfl rfl rfl
  have hfiles : Proceeds s { s' with files := { files with iputs := [] } } gone foreign :=
    ⟨h1, h.evolves, h.procRoot, h.stale, h.stray, h.allocs, h.names⟩
  refine hfiles.calm (Inv.calm_iputs files.iputs h1).1 fun hp hz => ?_
  exact (stray_iputs files.iputs (hz.congr (hfiles.stray hp hz))).trans (h.stray hp hz)

theorem settle_held (h : s.Inv) (hheld : s.Held []) : s.settle.Held [] ∧ s.settle.files.iputs = [] := by
  have h1 : Inv { s with files := { s.files with iputs := [] } } := h.congr (Quiet.refl h.fs) rfl rfl rfl rfl
  obtain ⟨hc, hu⟩ := Inv.calm_iputs s.files.iputs h1
  have hfiles : s.settle.files = { s.files with iputs := [] } := hc.files
  obtain ⟨due, how, hle⟩ := hheld
  constructor
  · refine ⟨fun r => due r - s.files.iputs.count r, ?_, fun i => ?_⟩
    · rw [hfiles]
      refine ⟨how.fresh, fun r => ?_⟩
      have hcount := how.count r
      simp only [List.count_nil]
      show s.files.inodeRefs r + 0 = due r - s.files.iputs.count r
      omega
    · have hi := hle i
      have hui : s.settle.fs.users i = s.fs.users i - s.files.iputs.count (.ramfs i) := hu i
      rw [hui]
      simp only [List.count_nil] at hi ⊢
      omega
  · rw [hfiles]

/-! ## Opening -/

theorem Held.iget (h : s.Inv) (hs : s.Held hand) (hlive : ∀ i, r = .ramfs i → (s.fs.inodes i).isSome) :
    (s.iget r).Held (r :: hand) := by
  obtain ⟨due, how, hle⟩ := hs
  cases r with
  | proc j =>
    refine ⟨due, how, fun i => ?_⟩
    show _ ≤ s.fs.users i
    simpa using hle i
  | ramfs j =>
    refine ⟨due, how, fun i => ?_⟩
    have hi := hle i
    have hu : ((s.iget (.ramfs j)).fs).users i = _ := (Ramfs.iget_quiet h.fs j).2 i
    rw [hu, List.count_cons]
    by_cases e : i = j
    · simp [e, hlive j rfl] at hi ⊢
      omega
    · simp [e, Ne.symm e] at hi ⊢
      omega

theorem Calls.trans_grows (hk : Calls s s' gone foreign) (h : s''.CacheInv noHole) (hg : Grows s' s'') :
    Calls s s'' gone foreign := by
  refine ⟨hk.inv.grows h hg, ?_, fun c => ?_, hg.files.trans hk.files, hg.tasks.trans hk.tasks,
    hg.procRoot.trans hk.procRoot,
    fun hn => hg.stale.trans (hk.stale hn), fun hp hz => hg.stray.trans (hk.stray hp hz),
    fun ok hok => hk.allocs ok (hg.allocs ok hok), hg.fs ▸ hk.names⟩
  · rw [hg.fs]
    exact hk.evolves
  · rw [hg.fs]
    exact hk.users c

theorem Inv.createsAt {type : FileType} {path : List UInt8} {o : Except Errno (Option Nat) × Ramfs} (h : s.Inv)
    (hp : Ramfs.Spells Enterable path) (ho : Ramfs.CreatesAt s.fs path type o) :
      Calls s { s with fs := o.2 } nothing False := by
  rcases ho with ⟨e, rfl⟩ | ⟨d, n, hl, -, hc⟩
  · exact Calls.refl h
  · obtain ⟨hne, hmem⟩ := Ramfs.lookupParent_mem hl
    exact h.creates hc (hp n hne hmem)

theorem Inv.create (h : s.Inv) (p : AbsPath) (mode : UInt16) :
    Calls s { s with fs := (s.fs.create p.bytes mode).2 } nothing False :=
  h.createsAt (AbsPath.proper p).spells (Ramfs.create_creates h.fs p.bytes mode)

theorem Inv.openLookup (h : s.Inv) (current : Nat) (p : AbsPath) (flags : BitVec 32) (mode : UInt16) :
    ∃ s0, Calls s s0 nothing False ∧ ((∃ e, s.openLookup current p.bytes flags mode = (.error e, s0)) ∨
      ∃ r, s.openLookup current p.bytes flags mode = (.ok r, s0.iget r) ∧ s0.Lives r) := by
  unfold Vfs.openLookup
  obtain ⟨s0, h0, hg, he | ⟨r, he, hs⟩⟩ := h.vfsLookup current p.bytes
  · simp only [he]
    split_ifs with hcreat
    · exact ⟨s0, hg.keeps h h0.cache, Or.inl ⟨_, rfl⟩⟩
    · have hk := hg.trans_keeps (h0.create p mode)
      generalize s0.fs.create p.bytes mode = o at hk
      obtain ⟨_ | _, fs⟩ := o
      · exact ⟨_, hk, Or.inl ⟨_, rfl⟩⟩
      · obtain ⟨s1, h1, hg1, he1 | ⟨r, he1, hs1⟩⟩ := hk.inv.vfsLookup current p.bytes
        · exact ⟨s1, hk.trans_grows h1.cache hg1, Or.inl ⟨.noent, by simp only [he1]⟩⟩
        · exact ⟨s1, hk.trans_grows h1.cache hg1, Or.inr ⟨r, by simp only [he1], hk.inv.lives_of_source hg1 hs1⟩⟩
  · simp only [he]
    exact ⟨s0, hg.keeps h h0.cache, Or.inr ⟨r, rfl, h.lives_of_source hg hs⟩⟩

theorem Inv.calm_truncate (h : s.Inv) (i size : Nat) :
    Calm s { s with fs := (s.fs.truncate i size).2 } ∧ ∀ c, (s.fs.truncate i size).2.users c = s.fs.users c := by
  unfold Ramfs.truncate
  cases hi : s.fs.inodes i with
  | none => exact ⟨Calm.refl h, fun _ => rfl⟩
  | some ri =>
    dsimp only
    split_ifs
    · exact ⟨Calm.refl h, fun _ => rfl⟩
    · exact ⟨Calm.refl h, fun _ => rfl⟩
    · have hq : Quiet s.fs (s.fs.set i { ri with size := size }) :=
        Quiet.set h.fs hi rfl rfl rfl rfl fun hz => (h.fs.kept i ri hi hz).resolve_right (by simp)
      exact ⟨⟨h.congr hq rfl rfl rfl rfl, hq, rfl, rfl, rfl, rfl, rfl, rfl⟩, users_set hi rfl⟩

/-- The checks of `ksys_openat` may truncate the file. -/
theorem Inv.openChecks (h : s.Inv) (r : InodeRef) (flags : BitVec 32) (tty : Bool) :
    Calm s (s.openChecks r flags tty).2 ∧ (s.openChecks r flags tty).2.stray = s.stray ∧
      ∀ c, (s.openChecks r flags tty).2.fs.users c = s.fs.users c := by
  have hsame : Calm s s ∧ s.stray = s.stray ∧ ∀ c, s.fs.users c = s.fs.users c := ⟨Calm.refl h, rfl, fun _ => rfl⟩
  unfold Vfs.openChecks
  dsimp only
  split
  · split_ifs
    · exact hsame
    · exact hsame
  · split_ifs
    · exact hsame
    · split
      · exact hsame
      · exact hsame
  · split_ifs
    · exact hsame
    · cases r with
      | proc j => exact hsame
      | ramfs i =>
        have htr := h.calm_truncate i 0
        dsimp only
        generalize s.fs.truncate i 0 = o at htr
        obtain ⟨_ | _, fs⟩ := o
        · exact ⟨htr.1, rfl, htr.2⟩
        · exact ⟨htr.1, rfl, htr.2⟩
    · exact hsame
  · split_ifs
    · exact hsame
    · exact hsame

theorem Calm.held (hc : Calm s s') (hu : ∀ c, s'.fs.users c = s.fs.users c) (h : s.Held hand) : s'.Held hand := by
  obtain ⟨due, how, hle⟩ := h
  refine ⟨due, by rw [hc.files]; exact how, fun i => ?_⟩
  rw [hu]
  exact hle i

theorem Held.iput (h : s.Inv) (hs : s.Held (r :: hand)) : (s.iput r).Held hand := by
  obtain ⟨hc, hu⟩ := h.calm_iput r
  obtain ⟨due, how, hle⟩ := hs
  refine ⟨due, by rw [hc.files]; exact how, fun i => ?_⟩
  have hi := hle i
  have hsplit : (r :: hand).count (.ramfs i) = [r].count (.ramfs i) + hand.count (.ramfs i) :=
    (List.count_append : ([r] ++ hand).count _ = _)
  rw [hu]
  omega

/-- The files hold their inodes, and nothing is left to be dropped. -/
def Sound (s : Vfs) : Prop := s.Held [] ∧ s.files.iputs = []

theorem Calls.sound (hk : Calls s s' gone foreign) (h : s.Sound) : s'.Sound :=
  ⟨hk.held h.1, by rw [hk.files]; exact h.2⟩

theorem Calls.procLinked (hk : Calls s s' nothing foreign) (h : s.ProcLinked) : s'.ProcLinked :=
  fun i hi => hk.evolves.linked i (h i (hk.procRoot.symm.trans hi)) id

theorem Inv.openat (h : s.Inv) (p : Nat) (path : AbsPath) (flags : BitVec 32) (mode : UInt16) (tty : Bool) :
    Proceeds s (s.openat p path.bytes flags mode tty).2 nothing False ∧
      (s.ProcLinked → s.Sound → (s.openat p path.bytes flags mode tty).2.Sound) := by
  unfold Vfs.openat
  split_ifs with hproc
  · exact ⟨(Calls.refl h).proceeds, fun _ hs => hs⟩
  obtain ⟨s0, hk, ⟨e, he⟩ | ⟨r, he, hr⟩⟩ := h.openLookup p path flags mode
  · simp only [he]
    exact ⟨hk.proceeds, fun _ hs => hk.sound hs⟩
  simp only [he]
  have hget := hk.inv.calm_iget r
  obtain ⟨hcheck, hstray, hu⟩ := hget.inv.openChecks r flags tty
  have hadv := hk.proceeds.calm (hget.trans hcheck) fun hp hz =>
    (hstray.trans (hk.inv.stray_iget hr (hk.procLinked hp)).1).trans (hk.stray hp hz)
  -- the reference of the lookup is in hand
  have hheld : s.ProcLinked → s.Sound → ((s0.iget r).openChecks r flags tty).2.Held [r] := by
    intro hlive hs
    exact hcheck.held hu (Held.iget hk.inv (hk.held hs.1) fun i hi => hr i hi (hk.procLinked hlive))
  have hfiles : ((s0.iget r).openChecks r flags tty).2.files = s.files := (hcheck.files.trans hget.files).trans hk.files
  clear hstray
  generalize (s0.iget r).openChecks r flags tty = o at hadv hheld hfiles
  obtain ⟨e | onFail, s2⟩ := o
  · have hput := (hadv.inv.calm_iput r).1
    have hdrop : s.ProcLinked → s.Unstrayed → (s2.iput r).stray = s.stray := fun hp hz =>
      (stray_iput (hz.congr (hadv.stray hp hz)) r).trans (hadv.stray hp hz)
    refine ⟨hadv.calm hput hdrop, fun hlive hs => ⟨Held.iput hadv.inv (hheld hlive hs), ?_⟩⟩
    rw [hput.files, hfiles]
    exact hs.2
  · dsimp only
    refine ⟨hadv.settle _, fun hlive hs => ?_⟩
    obtain ⟨due, how, hle⟩ := hheld hlive hs
    have h3 : Inv { s2 with files := (s2.files.openFile p r flags onFail).2 } :=
      hadv.inv.congr (Quiet.refl hadv.inv.fs) rfl rfl rfl rfl
    refine settle_held h3 ⟨_, how.openFile p r flags onFail, fun i => ?_⟩
    have hi := hle i
    rw [List.count_singleton] at hi
    show _ ≤ s2.fs.users i
    simpa using hi

/-! ## Descriptors, tasks and the other calls -/

theorem Inv.onFiles (h : s.Inv) (call : Files.Call InodeRef)
    (hcall : ∀ due, s.files.Owes due → (s.files.exec call).Owes due) :
    Proceeds s (s.onFiles call) nothing False ∧ (s.Sound → (s.onFiles call).Sound) := by
  refine ⟨(Calls.refl h).proceeds.settle _, ?_⟩
  rintro ⟨⟨due, how, hle⟩, -⟩
  have h1 : Inv { s with files := s.files.exec call } := h.congr (Quiet.refl h.fs) rfl rfl rfl rfl
  exact settle_held h1 ⟨due, hcall due how, hle⟩

/-- The child of a fork works where its parent does. -/
theorem Proceeds.fork {tasks : Nat → Bool} {child parent : Nat} (h : Proceeds s s' gone foreign) :
    Proceeds s { s' with cwd := update s'.cwd child (s'.cwd parent), tasks := tasks } gone foreign := by
  have hcache : CacheInv { s' with cwd := update s'.cwd child (s'.cwd parent), tasks := tasks } noHole := by
    refine { h.inv.cache with cwd := ?_ }
    intro q d hw
    have hw' : update s'.cwd child (s'.cwd parent) q = some d := hw
    by_cases e : q = child
    · rw [e, update_self] at hw'
      exact h.inv.cache.cwd parent d hw'
    · rw [update_of_ne e] at hw'
      exact h.inv.cache.cwd q d hw'
  exact ⟨⟨h.inv.fs, hcache, h.inv.short, h.inv.proc⟩, h.evolves, h.procRoot, h.stale, h.stray, h.allocs, h.names⟩

theorem Inv.fchdir (h : s.Inv) (p fd : Nat) {o : Except Errno Unit × Vfs} (he : s.fchdir p fd = some o) :
    Calls s o.2 nothing False := by
  unfold Vfs.fchdir at he
  split at he
  · cases he
    exact Calls.refl h
  · cases he
  · split at he
    · cases he
    · cases he
      exact Calls.refl h
    · cases he
      exact h.setCwd p _

theorem Inv.exec {a : Act} (h : s.Inv) (he : s.exec a = some s') :
    Proceeds s s' (fun e => s.takesOut a = some e) (s.entersProc a = true) ∧ (s.ProcLinked → s.Sound → s'.Sound) := by
  have hkeep : ∀ {t : Vfs} {g : Nat → Prop} {f : Prop}, Calls s t g f → (∀ e, g e → s.takesOut a = some e) →
      (f → s.entersProc a = true) →
      Proceeds s t (fun e => s.takesOut a = some e) (s.entersProc a = true) ∧ (s.ProcLinked → s.Sound → t.Sound) :=
    fun hk hg hf => ⟨(hk.mono hg hf).proceeds, fun _ hs => hk.sound hs⟩
  have hcalm : ∀ {t : Vfs}, Calls s t nothing False →
      Proceeds s t (fun e => s.takesOut a = some e) (s.entersProc a = true) ∧ (s.ProcLinked → s.Sound → t.Sound) :=
    fun hk => hkeep hk (fun _ hc => hc.elim) False.elim
  have hfiles : ∀ {t : Vfs}, Proceeds s t nothing False → (s.ProcLinked → s.Sound → t.Sound) →
      Proceeds s t (fun e => s.takesOut a = some e) (s.entersProc a = true) ∧ (s.ProcLinked → s.Sound → t.Sound) :=
    fun ha hs => ⟨⟨ha.inv, ha.evolves.mono fun _ hc => hc.elim, ha.procRoot, fun _ => ha.stale id, ha.stray, ha.allocs,
      ha.names⟩, hs⟩
  cases a with
  | openat p path flags mode tty =>
    cases he
    obtain ⟨ha, hs⟩ := h.openat p path flags mode tty
    exact hfiles ha hs
  | close p fd =>
    cases he
    obtain ⟨ha, hs⟩ := h.onFiles (.close p fd) fun due hd => hd.closeFd p fd
    exact hfiles ha fun _ => hs
  | dup p oldfd =>
    cases he
    obtain ⟨ha, hs⟩ := h.onFiles (.dup p oldfd) fun due hd => hd.dup p oldfd
    exact hfiles ha fun _ => hs
  | dup3 p oldfd newfd flags =>
    cases he
    obtain ⟨ha, hs⟩ := h.onFiles (.dup3 p oldfd newfd flags) fun due hd => hd.dup3 p oldfd newfd flags
    exact hfiles ha fun _ => hs
  | fcntl p fd cmd =>
    cases he
    obtain ⟨ha, hs⟩ := h.onFiles (.fcntl p fd cmd) fun due hd => hd.fcntl p fd cmd
    exact hfiles ha fun _ => hs
  | fork p =>
    cases he
    obtain ⟨ha, hs⟩ := h.onFiles (.fork p true) fun due hd => hd.fork p
    exact hfiles ha.fork fun _ => hs
  | exit p =>
    cases he
    obtain ⟨ha, hs⟩ := h.onFiles (.exit p) fun due hd => hd.exit p
    exact hfiles ha fun _ => hs
  | reap p q =>
    cases he
    split_ifs
    · exact hcalm (Calls.refl h)
    · have ha := (Calls.refl h).proceeds
      have hinv : Inv { s with tasks := update s.tasks q false } :=
        h.congr (Quiet.refl h.fs) rfl rfl rfl rfl
      exact hfiles ⟨hinv, ha.evolves, ha.procRoot, ha.stale, ha.stray, ha.allocs, ha.names⟩ fun _ hs => hs
  | mkdirat p path mode =>
    cases he
    exact hcalm (h.doMkdir path mode)
  | mknodat p path mode rdev =>
    cases he
    exact hcalm (h.doMknod path mode rdev)
  | symlinkat p target path =>
    cases he
    exact hcalm (h.symlinkat p target path)
  | linkat p old new =>
    cases he
    exact hkeep (h.doLink p old new) (fun _ hc => hc.elim) id
  | unlinkat p path =>
    cases he
    exact hcalm (h.doUnlink p path)
  | rmdir p path =>
    cases he
    exact hkeep (h.doRmdir p path) (fun _ hc => hc) False.elim
  | renameat p old new =>
    obtain ⟨o, ho, hk⟩ := h.doRename p old new
    simp only [Vfs.exec, ho] at he
    cases he
    exact hkeep hk (fun _ hc => hc) False.elim
  | stat p path =>
    cases he
    exact hcalm (h.doStat p path.bytes)
  | faccessat p path nofollow =>
    cases he
    exact hcalm (h.faccessat p path.bytes nofollow)
  | fchmodat p path mode =>
    cases he
    exact hcalm (h.fchmodat p path.bytes mode)
  | chdir p path =>
    cases he
    exact hcalm (h.setCwd p path.bytes)
  | fchdir p fd =>
    obtain ⟨o, ho, rfl⟩ := Option.map_eq_some_iff.1 he
    exact hcalm (h.fchdir p fd ho)

end Vfs

end MiniOs.Fs
