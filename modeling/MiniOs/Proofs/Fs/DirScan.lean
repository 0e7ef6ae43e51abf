/-
Scans of a directory. The cursor of an open directory is an index into the list of its entries, so a scan
returns every entry that stays exactly once as long as no operation in between takes an entry that it
keeps from one side of the cursor to the other.
-/
import MiniOs.Proofs.Fs.RamfsNames
import MiniOs.Proofs.Fs.Readdir

namespace MiniOs.Fs

open Library
open Ramfs (Named)

/-! ## Names are strings -/

/-- A name as C has it. -/
def IsString (n : Name) : Prop := (0 : UInt8) ∉ n.bytes

theorem mem_of_mem_splitOn {b : UInt8} {c path : List UInt8} (hc : c ∈ path.splitOn slash) (hb : b ∈ c) : b ∈ path := by
  have hjoin : [slash].intercalate (path.splitOn slash) = path := List.intercalate_splitOn slash
  have hinfix : ∀ l : List (List UInt8), c ∈ l → b ∈ [slash].intercalate l := by
    intro l hl
    induction l with
    | nil => cases hl
    | cons x l ih =>
      cases l with
      | nil =>
        rcases List.mem_singleton.1 hl with rfl
        simpa [List.intercalate] using hb
      | cons y l =>
        rw [List.intercalate_cons_cons]
        rcases List.mem_cons.1 hl with rfl | hl
        · simp [hb]
        · simp [ih hl]
  exact hjoin ▸ hinfix _ hc

theorem spells_string {path : List UInt8} (h : (0 : UInt8) ∉ path) : Ramfs.Spells IsString path :=
  fun _ _ hmem hzero => h (mem_of_mem_splitOn hmem hzero)

namespace HeldRamfs

variable {s s' : HeldRamfs} {a : Act}

theorem named_exec {fs fs' : Ramfs} {op : RamfsOp} (h : Named IsString fs) (hs : ∀ str ∈ op.strings, (0 : UInt8) ∉ str)
    (he : fs.exec op = some fs') : Named IsString fs' := by
  cases op with
  | mkdir dir name mode =>
    cases he
    exact h.inodeMkdir (hs _ (List.mem_singleton_self _)) mode
  | mknod dir name mode rdev =>
    cases he
    exact h.inodeMknod (hs _ (List.mem_singleton_self _)) mode rdev
  | create path mode =>
    cases he
    exact h.create (spells_string (hs _ (List.mem_singleton_self _))) mode
  | symlink dir name target =>
    cases he
    exact h.inodeSymlink (hs _ (List.mem_singleton_self _)) target
  | link old dir name =>
    cases he
    exact h.inodeLink (hs _ (List.mem_singleton_self _))
  | unlink dir name =>
    cases he
    exact h.inodeUnlink (hs _ (List.mem_singleton_self _))
  | rmdir dir name =>
    cases he
    exact h.inodeRmdir (hs _ (List.mem_singleton_self _))
  | rename oldDir oldName newDir newName =>
    obtain ⟨q, hq, rfl⟩ := Option.map_eq_some_iff.1 he
    exact h.inodeRename (hs _ (List.mem_cons_self ..)) (hs _ (List.mem_cons_of_mem _ (List.mem_singleton_self _))) hq

theorem named_stepStrings (h : Named IsString s.fs) (hs : s.stepStrings a = some s') : Named IsString s'.fs := by
  unfold stepStrings at hs
  split_ifs at hs with hstr
  cases a with
  | op o =>
    obtain ⟨fs', hstep, rfl⟩ := Option.map_eq_some_iff.1 hs
    unfold Ramfs.step at hstep
    split_ifs at hstep
    refine named_exec h ?_ hstep
    intro str hmem
    have hno := List.all_eq_true.1 hstr str hmem
    simpa using hno
  | iget i =>
    dsimp only [step] at hs
    split_ifs at hs
    cases hs
    exact Ramfs.Lists.iget h
  | iput i =>
    dsimp only [step] at hs
    split_ifs at hs
    cases hs
    exact Ramfs.Lists.iput h

theorem run_strings {allocs : List Bool} {acts : List Act} (hrun : run stepStrings (init allocs) acts = some s) :
    Named IsString s.fs :=
  run_invariant (P := fun s => Named IsString s.fs) (fun _ _ _ h hs => named_stepStrings h hs)
    (Ramfs.named_init allocs) hrun

end HeldRamfs

/-! ## What a call returns -/

/-- The records that the caller reads. -/
def Getdents.records (c : Getdents) : List Dirent :=
  match c.result with
  | .ok bytes => (parse bytes.length bytes).getD []
  | .error _ => []

/-- The buffer of a call reads as records of entries: each has a length that is a multiple of eight, they
fill the returned bytes, and each gives name, inode number and type of its entry. -/
structure Getdents.WellFormed (c : Getdents) (dir : Nat) (bytes : List UInt8) (ds : List Dirent) : Prop where
  parsed : parse bytes.length bytes = some ds
  inside : (ds.map Dirent.reclen).sum = bytes.length ∧ bytes.length ≤ c.buf.count
  aligned : ∀ d ∈ ds, 8 ∣ d.reclen
  entry : ∀ d ∈ ds, ∃ e ∈ c.fs.childrenOf dir, d.name = e.1.bytes ∧
    d.ino = ((c.fs.memory e.2).map RamfsInode.ino).getD 0 % 2 ^ 64 ∧
      d.type = ((c.fs.memory e.2).map fun ri => ramfsDtype ri.type).getD 0

namespace Ramfs

variable {fs : Ramfs} {pos : Nat} {es : List (Name × Nat)}

theorem length_le_offsetOf (es : List (Name × Nat)) : es.length ≤ offsetOf es := by
  induction es with
  | nil => simp
  | cons e es ih =>
    have hpos := le_direntReclen e.1.bytes.length
    simp only [offsetOf, List.map_cons, List.sum_cons, List.length_cons] at ih ⊢
    omega

theorem parse_encoded (h : ∀ e ∈ es, (0 : UInt8) ∉ e.1.bytes) :
    parse (fs.encoded pos es).length (fs.encoded pos es) = some ((fs.direntsOf pos es).map Dirent.stored) := by
  refine parse_encode (direntsOf_fit h) ?_
  rw [length_direntsOf, length_encoded]
  exact length_le_offsetOf es

theorem exists_of_mem_direntsOf {d : Dirent} (h : d ∈ fs.direntsOf pos es) : ∃ e ∈ es, ∃ p, d = fs.direntOf p e := by
  induction es generalizing pos with
  | nil => cases h
  | cons e es ih =>
    rcases List.mem_cons.1 h with rfl | h
    · exact ⟨e, List.mem_cons_self .., pos, rfl⟩
    · obtain ⟨x, hx, p, hp⟩ := ih h
      exact ⟨x, List.mem_cons_of_mem _ hx, p, hp⟩

theorem names_direntsOf (fs : Ramfs) (pos : Nat) (es : List (Name × Nat)) :
    (fs.direntsOf pos es).map Dirent.name = (es.map Prod.fst).map Name.bytes := by
  induction es generalizing pos with
  | nil => rfl
  | cons e es ih => simp [direntsOf, direntOf, ih]

theorem reclens_direntsOf (fs : Ramfs) (pos : Nat) (es : List (Name × Nat)) :
    ((fs.direntsOf pos es).map Dirent.reclen).sum = offsetOf es := by
  induction es generalizing pos with
  | nil => rfl
  | cons e es ih => simp [direntsOf, direntOf, offsetOf, ih]

end Ramfs

variable {es : List (Name × Nat)}

theorem Getdents.wellFormed_encoded {c : Getdents} {dir pos : Nat}
    (hes : ∀ e ∈ es, e ∈ c.fs.childrenOf dir) (hstr : ∀ e ∈ es, (0 : UInt8) ∉ e.1.bytes)
      (hroom : Ramfs.offsetOf es ≤ c.buf.count) :
    c.WellFormed dir (c.fs.encoded pos es) ((c.fs.direntsOf pos es).map Dirent.stored) := by
  constructor
  · exact Ramfs.parse_encoded hstr
  · rw [Ramfs.length_encoded, List.map_map]
    exact ⟨Ramfs.reclens_direntsOf _ _ _, hroom⟩
  · intro d hd
    obtain ⟨x, hx, rfl⟩ := List.mem_map.1 hd
    obtain ⟨e, -, p, rfl⟩ := Ramfs.exists_of_mem_direntsOf hx
    exact ⟨_, Nat.mul_comm _ _⟩
  · intro d hd
    obtain ⟨x, hx, rfl⟩ := List.mem_map.1 hd
    obtain ⟨e, he, p, rfl⟩ := Ramfs.exists_of_mem_direntsOf hx
    exact ⟨e, hes e he, rfl, rfl, rfl⟩

namespace Ramfs

variable {fs : Ramfs} {buf : UserBuf} {dir fPos k : Nat} {es : List (Name × Nat)} {e : Name × Nat}

/-- The bytes that a call returns are the records of the entries from the cursor on. -/
theorem dirReaddir_ok {bytes : List UInt8} {fPos' : Nat} (h : fs.dirReaddir dir fPos buf = (.ok bytes, fPos')) :
    ∃ k, bytes = fs.encoded fPos (((fs.childrenOf dir).drop fPos).take k) ∧
      offsetOf (((fs.childrenOf dir).drop fPos).take k) ≤ buf.count := by
  by_cases hdir : fs.isDir dir = true
  · by_cases haddr : buf.addr = 0
    · simp [dirReaddir, hdir, haddr] at h
    · by_cases hcount : buf.count = 0
      · simp only [dirReaddir, hdir, haddr, hcount, not_true_eq_false, if_false, if_true, Prod.mk.injEq,
          Except.ok.injEq] at h
        exact ⟨0, h.1.symm, Nat.zero_le _⟩
      · have hends := dirReaddir_ends fPos hdir haddr hcount
        rw [h] at hends
        cases hends with
        | ok k hk hroom => exact ⟨k, rfl, by simpa using hroom⟩
  · simp [dirReaddir, hdir] at h

/-- The next record has room. -/
def HasRoom (buf : UserBuf) (es : List (Name × Nat)) : Prop :=
  ∀ e, es.head? = some e → direntReclen e.1.bytes.length ≤ buf.count

/-- A call with room for the next record fails without effect, or moves the cursor behind what it returns. -/
theorem dirReaddir_cases (hroom : HasRoom buf ((fs.childrenOf dir).drop fPos)) :
    ((fs.isDir dir = false ∨ buf.addr = 0) ∧ ∃ err, fs.dirReaddir dir fPos buf = (.error err, fPos)) ∨
      ∃ k, fs.dirReaddir dir fPos buf = (.ok (fs.encoded fPos (((fs.childrenOf dir).drop fPos).take k)), fPos + k) ∧
        (k = 0 → (fs.childrenOf dir).drop fPos = []) := by
  by_cases hdir : fs.isDir dir = true
  · by_cases haddr : buf.addr = 0
    · exact .inl ⟨.inr haddr, .fault, by simp [dirReaddir, hdir, haddr]⟩
    · by_cases hcount : buf.count = 0
      · refine .inr ⟨0, by simp [dirReaddir, hdir, haddr, hcount, encoded, direntsOf], fun _ => ?_⟩
        cases hl : (fs.childrenOf dir).drop fPos with
        | nil => rfl
        | cons e l =>
          have hfit := hroom e (by rw [hl]; rfl)
          have hpos := le_direntReclen e.1.bytes.length
          omega
      · have hends := dirReaddir_ends fPos hdir haddr hcount
        generalize fs.dirReaddir dir fPos buf = r at hends ⊢
        generalize (fs.childrenOf dir).drop fPos = es at hends hroom ⊢
        cases hends with
        | ok k hk _ hstop =>
          refine .inr ⟨k, by simp, ?_⟩
          rintro rfl
          rcases hstop with hstop | hstop
          · exact List.length_eq_zero_iff.1 hstop.symm
          · simp [offsetOf] at hstop
        | small e he hw hsmall => exact absurd (hroom e he) (by omega)
  · exact .inl ⟨.inl (by simpa using hdir), .notdir, by simp [dirReaddir, hdir]⟩

end Ramfs

/-! ## Whole scans -/

namespace Scan

variable {s s' : Scan} {e : Name × Nat} {a : Act}

/-- The entries that a call has not come to. -/
def rest (s : Scan) : List (Name × Nat) := s.entries.drop s.fPos

/-- The entries before the cursor. -/
def passed (s : Scan) : List (Name × Nat) := s.entries.take s.fPos

theorem passed_append_rest (s : Scan) : s.passed ++ s.rest = s.entries := List.take_append_drop _ _

/-- How many records of a name the calls have returned. -/
def returned (s : Scan) (n : Name) : Nat := ((s.log.flatMap Getdents.records).map Dirent.name).count n.bytes

/-- The last call returned 0. -/
def Finished (s : Scan) : Prop := ∃ c, s.log.getLast? = some c ∧ c.result = .ok []

/-- A call has a buffer that is large enough for the next record. -/
def Roomy (s : Scan) : Act → Scan → Prop
  | .getdents buf, _ => Ramfs.HasRoom buf s.rest
  | .user _, _ => True

/-- An operation takes no entry that has been there all the time across the cursor. -/
def Clean (s : Scan) : Act → Scan → Prop
  | .getdents _, _ => True
  | .user _, s' => ∀ e ∈ s'.kept, e ∈ s.passed ↔ e ∈ s'.passed

/-- What every scan keeps. -/
structure Sound (s : Scan) : Prop where
  named : Named IsString s.held.fs
  kept : ∀ e ∈ s.kept, e ∈ s.entries
  calls : ∀ c ∈ s.log, ∀ bytes, c.result = .ok bytes → ∃ ds, c.WellFormed s.dir bytes ds

theorem sound_opened {held : HeldRamfs} (h : Named IsString held.fs) (dir : Nat) : Sound (opened held dir) :=
  ⟨h, fun _ he => he, fun c hc => by cases hc⟩

theorem Sound.orderly (h : s.Sound) : Ramfs.Orderly IsString s.entries := by
  unfold entries Ramfs.childrenOf
  cases hd : s.held.fs.inodes s.dir with
  | none => exact Ramfs.orderly_nil
  | some rd => exact h.named s.dir rd hd

theorem Sound.step (h : s.Sound) (hs : s.step a = some s') : s'.Sound := by
  cases a with
  | user a =>
    obtain ⟨held, hheld, rfl⟩ := Option.map_eq_some_iff.1 hs
    refine ⟨HeldRamfs.named_stepStrings h.named hheld, ?_, h.calls⟩
    intro e he
    exact of_decide_eq_true (List.mem_filter.1 he).2
  | getdents buf =>
    cases hs
    refine ⟨h.named, h.kept, ?_⟩
    intro c hc bytes hres
    rcases List.mem_append.1 hc with hc | hc
    · exact h.calls c hc bytes hres
    · obtain rfl := List.mem_singleton.1 hc
      obtain ⟨k, rfl, hroom⟩ := Ramfs.dirReaddir_ok (Prod.ext hres rfl)
      have hsub : ∀ e ∈ (s.entries.drop s.fPos).take k, e ∈ s.entries :=
        fun e he => List.mem_of_mem_drop (List.mem_of_mem_take he)
      exact ⟨_, Getdents.wellFormed_encoded hsub (fun e he => h.orderly.name e (hsub e he)) hroom⟩

/-! ## One step -/

theorem count_names {l : List (Name × Nat)} (hd : (l.map Prod.fst).Nodup) (n : Name) :
    ((l.map Prod.fst).map Name.bytes).count n.bytes = if n ∈ l.map Prod.fst then 1 else 0 := by
  have hinj : Function.Injective Name.bytes := by
    rintro ⟨b, hb⟩ ⟨c, hc⟩ h
    cases h
    rfl
  rw [List.count_map_of_injective _ _ hinj, hd.count]

/-- Two parts of a list with different names have no name in common. -/
theorem name_not_mem {l m : List (Name × Nat)} (hd : ((l ++ m).map Prod.fst).Nodup) (he : e ∈ l) :
    e.1 ∉ m.map Prod.fst := by
  rw [List.map_append] at hd
  exact fun hm => (List.nodup_append.1 hd).2.2 e.1 (List.mem_map_of_mem he) e.1 hm rfl

theorem Sound.not_both (h : s.Sound) (hp : e ∈ s.passed) : e ∉ s.rest := by
  have hd := h.orderly.distinct
  rw [← s.passed_append_rest] at hd
  exact fun hr => name_not_mem hd hp (List.mem_map_of_mem hr)

theorem Sound.side (h : s.Sound) (he : e ∈ s.kept) : e ∈ s.passed ∨ e ∈ s.rest := by
  have hin := h.kept e he
  rw [← s.passed_append_rest] at hin
  exact List.mem_append.1 hin

/-- What a call does to the scan. -/
structure Calls (s s' : Scan) (buf : UserBuf) (k : Nat) (result : Except Errno (List UInt8)) : Prop where
  fs : s'.held.fs = s.held.fs
  dir : s'.dir = s.dir
  kept : s'.kept = s.kept
  passed : s'.passed = s.passed ++ s.rest.take k
  rest : s'.rest = s.rest.drop k
  log : s'.log = s.log ++ [⟨s.held.fs, buf, result⟩]

variable {buf : UserBuf} {result : Except Errno (List UInt8)} {k : Nat}

theorem calls_of_step (hs : s.step (.getdents buf) = some s')
    (hr : s.held.fs.dirReaddir s.dir s.fPos buf = (result, s.fPos + k)) : Calls s s' buf k result := by
  cases hs
  constructor
  · rfl
  · rfl
  · rfl
  · simp only [passed, rest, entries, hr, List.take_add]
  · simp only [rest, entries, hr, List.drop_drop]
  · simp only [hr]

theorem Calls.returned_error {err : Errno} (h : Calls s s' buf k (.error err)) (n : Name) :
    s'.returned n = s.returned n := by
  simp [returned, h.log, List.flatMap_append, Getdents.records]

/-- A call that succeeds returns the entries that it comes to. -/
theorem Calls.returned_ok (h : Calls s s' buf k (.ok (s.held.fs.encoded s.fPos (s.rest.take k))))
    (hs : s.Sound) (n : Name) : s'.returned n = s.returned n + if n ∈ (s.rest.take k).map Prod.fst then 1 else 0 := by
  have hnames : Ramfs.Orderly IsString (s.rest.take k) :=
    hs.orderly.sublist ((List.take_sublist k _).trans (List.drop_sublist s.fPos s.entries))
  have hrec : Getdents.records ⟨s.held.fs, buf, .ok (s.held.fs.encoded s.fPos (s.rest.take k))⟩ =
      (s.held.fs.direntsOf s.fPos (s.rest.take k)).map Dirent.stored := by
    dsimp only [Getdents.records]
    rw [Ramfs.parse_encoded hnames.name]
    rfl
  have hstored : Dirent.name ∘ Dirent.stored = Dirent.name := rfl
  rw [returned, returned, h.log, List.flatMap_append, List.map_append, List.count_append, List.flatMap_singleton, hrec,
    List.map_map, hstored, Ramfs.names_direntsOf, count_names hnames.distinct]

theorem Calls.not_finished (h : Calls s s' buf k result)
    (hr : result ≠ .ok []) : ¬ s'.Finished := by
  rintro ⟨c, hc, hok⟩
  rw [h.log, List.getLast?_concat] at hc
  cases hc
  exact hr hok

/-! ## Runs -/

/-- An entry has been returned if it stands before the cursor, and only then. -/
def Right (s : Scan) (e : Name × Nat) : Prop :=
  (e ∈ s.passed ∧ s.returned e.1 = 1) ∨ (e ∈ s.rest ∧ s.returned e.1 = 0 ∧ ¬ s.Finished)

/-- A call comes to the entries of `rest.take k`. -/
theorem Calls.cases (h : Calls s s' buf k result) (he : e ∈ s.rest) :
    (e ∈ s.rest.take k ∧ e ∈ s'.passed) ∨ (e ∈ s.rest.drop k ∧ e ∈ s'.rest) := by
  rw [← List.take_append_drop k s.rest] at he
  rcases List.mem_append.1 he with he | he
  · left
    rw [h.passed]
    exact ⟨he, List.mem_append_right _ he⟩
  · right
    rw [h.rest]
    exact ⟨he, he⟩

theorem Calls.passed_mono (h : Calls s s' buf k result)
    (he : e ∈ s.passed) : e ∈ s'.passed := by
  rw [h.passed]
  exact List.mem_append_left _ he

/-- An entry that a call passes by is not among those it comes to. -/
theorem Sound.not_taken (h : s.Sound) (he : e ∈ s.passed ∨ e ∈ s.rest.drop k) : e.1 ∉ (s.rest.take k).map Prod.fst := by
  have hd := h.orderly.distinct
  rw [← s.passed_append_rest] at hd
  rcases he with he | he
  · have hnot := name_not_mem hd he
    exact fun hm => hnot (List.map_subset _ (List.take_subset k s.rest) hm)
  · rw [List.map_append] at hd
    have hrest := (List.nodup_append.1 hd).2.1
    rw [← List.take_append_drop k s.rest] at hrest
    intro hm
    obtain ⟨x, hx, hname⟩ := List.mem_map.1 hm
    exact name_not_mem hrest hx (hname ▸ List.mem_map_of_mem he)

theorem Right.getdents (h : s.Right e) (hsound : s.Sound) (hroomy : s.Roomy (.getdents buf) s')
    (hs : s.step (.getdents buf) = some s') : s'.Right e := by
  rcases Ramfs.dirReaddir_cases hroomy with ⟨-, err, hr⟩ | ⟨k, hr, hk⟩
  · -- nothing happened
    have hcalls := calls_of_step (k := 0) hs hr
    rcases h with ⟨hin, hone⟩ | ⟨hin, hzero, -⟩
    · exact .inl ⟨hcalls.passed_mono hin, by rw [hcalls.returned_error, hone]⟩
    · refine .inr ⟨?_, by rw [hcalls.returned_error, hzero], hcalls.not_finished (by simp)⟩
      rwa [hcalls.rest]
  · have hcalls : Calls s s' buf k (.ok (s.held.fs.encoded s.fPos (s.rest.take k))) := calls_of_step hs hr
    have hret := hcalls.returned_ok hsound e.1
    rcases h with ⟨hin, hone⟩ | ⟨hin, hzero, -⟩
    · rw [if_neg (hsound.not_taken (.inl hin)), hone] at hret
      exact .inl ⟨hcalls.passed_mono hin, hret⟩
    · rcases hcalls.cases hin with ⟨htake, hpassed⟩ | ⟨hdrop, hrest⟩
      · rw [if_pos (List.mem_map_of_mem htake), hzero] at hret
        exact .inl ⟨hpassed, hret⟩
      · rw [if_neg (hsound.not_taken (.inr hdrop)), hzero] at hret
        refine .inr ⟨hrest, hret, hcalls.not_finished ?_⟩
        -- an empty answer would mean that nothing was left
        intro hnil
        have hlen : (s.rest.take k).length ≤ 0 := by
          rw [← List.length_nil (α := UInt8), ← Except.ok.inj hnil, Ramfs.length_encoded]
          exact Ramfs.length_le_offsetOf _
        have hne : s.rest ≠ [] := List.ne_nil_of_mem hin
        have hpos : k ≠ 0 := fun hz => hne (hk hz)
        have hlen' := List.length_pos_of_ne_nil hne
        rw [List.length_take] at hlen
        omega

variable {act : HeldRamfs.Act}

/-- The parts of the scan that an operation leaves. -/
theorem step_user (hs : s.step (.user act) = some s') :
    s'.log = s.log ∧ s'.fPos = s.fPos ∧ s'.dir = s.dir ∧ ∀ e ∈ s'.kept, e ∈ s.kept := by
  obtain ⟨held, -, rfl⟩ := Option.map_eq_some_iff.1 hs
  exact ⟨rfl, rfl, rfl, fun e he => (List.mem_filter.1 he).1⟩

theorem returned_of_log (h : s'.log = s.log) (n : Name) : s'.returned n = s.returned n := by rw [returned, h, returned]

theorem Right.user (h : s.Right e) (hsound : s.Sound) (he : e ∈ s'.kept) (hclean : s.Clean (.user act) s')
    (hs : s.step (.user act) = some s') : s'.Right e := by
  obtain ⟨hlog, -, -, -⟩ := step_user hs
  have hcross := hclean e he
  rcases h with ⟨hin, hone⟩ | ⟨hin, hzero, hfin⟩
  · exact .inl ⟨hcross.1 hin, by rw [returned_of_log hlog, hone]⟩
  · right
    refine ⟨?_, by rw [returned_of_log hlog, hzero], by rwa [Finished, hlog]⟩
    exact ((hsound.step hs).side he).resolve_left fun hp => hsound.not_both (hcross.2 hp) hin

/-- Every entry that has been there all the time is as it should be. -/
structure Tracks (s : Scan) : Prop where
  sound : s.Sound
  right : ∀ e ∈ s.kept, s.Right e

theorem tracks_opened {held : HeldRamfs} (h : Named IsString held.fs) (dir : Nat) : Tracks (opened held dir) := by
  refine ⟨sound_opened h dir, fun e he => .inr ⟨he, rfl, ?_⟩⟩
  rintro ⟨c, hc, -⟩
  cases hc

theorem Tracks.step (h : s.Tracks) (hroomy : s.Roomy a s') (hclean : s.Clean a s') (hs : s.step a = some s') :
    s'.Tracks := by
  refine ⟨h.sound.step hs, fun e he => ?_⟩
  cases a with
  | user act =>
    obtain ⟨-, -, -, hkept⟩ := step_user hs
    exact (h.right e (hkept e he)).user h.sound he hclean hs
  | getdents buf =>
    have hkept : s'.kept = s.kept := by
      cases hs
      rfl
    rw [hkept] at he
    exact (h.right e he).getdents h.sound hroomy hs

/-! ## Steps that are not clean -/

/-- An entry that has been lost or will be returned again. -/
def Wrong (s : Scan) (e : Name × Nat) : Prop := (e ∈ s.passed ∧ s.returned e.1 ≠ 1) ∨ (e ∈ s.rest ∧ s.returned e.1 ≠ 0)

/-- A buffer for everything that is left. -/
def wide (s : Scan) : UserBuf := ⟨1, Ramfs.offsetOf s.rest⟩

theorem hasRoom_wide (s : Scan) : Ramfs.HasRoom s.wide s.rest := by
  intro e he
  obtain ⟨l, hl⟩ := List.head?_eq_some_iff.1 he
  change _ ≤ Ramfs.offsetOf s.rest
  rw [hl, Ramfs.offsetOf_cons]
  exact Nat.le_add_right _ _

theorem exists_calls_wide (hdir : s.held.fs.isDir s.dir = true) : ∃ s' k, s.step (.getdents s.wide) = some s' ∧
    Calls s s' s.wide k (.ok (s.held.fs.encoded s.fPos (s.rest.take k))) ∧ (k = 0 → s.rest = []) := by
  rcases Ramfs.dirReaddir_cases s.hasRoom_wide with ⟨hbad, -⟩ | ⟨k, hr, hk⟩
  · rw [hdir] at hbad
    rcases hbad with hbad | hbad <;> cases hbad
  · exact ⟨_, k, rfl, calls_of_step rfl hr, hk⟩

/-- What has gone wrong shows when the scan is read to its end. -/
theorem exists_finish : ∀ (n : Nat) {s : Scan}, s.rest.length ≤ n → s.Sound → s.held.fs.isDir s.dir = true →
    e ∈ s.kept →
    s.Wrong e → ∃ acts t, run step s acts = some t ∧ along step Roomy s acts ∧ t.Finished ∧ e ∈ t.kept ∧
      t.returned e.1 ≠ 1 := by
  intro n
  induction n with
  | zero =>
    intro s hlen hsound hdir he hwrong
    have hnil : s.rest = [] := List.length_eq_zero_iff.1 (Nat.le_zero.1 hlen)
    obtain ⟨s', k, hs, hcalls, -⟩ := exists_calls_wide hdir
    refine ⟨[.getdents s.wide], s', by simp [run, hs], along_cons hs s.hasRoom_wide trivial, ?_, hcalls.kept ▸ he, ?_⟩
    · refine ⟨_, by rw [hcalls.log, List.getLast?_concat], ?_⟩
      simp [hnil, Ramfs.encoded, Ramfs.direntsOf]
    · have hret := hcalls.returned_ok hsound e.1
      rw [hnil] at hret
      rcases hwrong with ⟨-, hne⟩ | ⟨hin, -⟩
      · simpa [hret] using hne
      · rw [hnil] at hin
        cases hin
  | succ n ih =>
    intro s hlen hsound hdir he hwrong
    by_cases hnil : s.rest = []
    · exact ih (by simp [hnil]) hsound hdir he hwrong
    · obtain ⟨s', k, hs, hcalls, hk⟩ := exists_calls_wide hdir
      have hpos : k ≠ 0 := fun hz => hnil (hk hz)
      have hlen' : s'.rest.length ≤ n := by
        rw [hcalls.rest, List.length_drop]
        omega
      have hret := hcalls.returned_ok hsound e.1
      have hwrong' : s'.Wrong e := by
        rcases hwrong with ⟨hin, hne⟩ | ⟨hin, hne⟩
        · rw [if_neg (hsound.not_taken (.inl hin))] at hret
          exact .inl ⟨hcalls.passed_mono hin, by omega⟩
        · rcases hcalls.cases hin with ⟨htake, hpassed⟩ | ⟨hdrop, hrest⟩
          · rw [if_pos (List.mem_map_of_mem htake)] at hret
            exact .inl ⟨hpassed, by omega⟩
          · rw [if_neg (hsound.not_taken (.inr hdrop))] at hret
            exact .inr ⟨hrest, by omega⟩
      have hdir' : s'.held.fs.isDir s'.dir = true := by rw [hcalls.fs, hcalls.dir, hdir]
      obtain ⟨acts, t, hrun, hroomy, hfin, hkept, hne⟩ := ih hlen' (hsound.step hs) hdir' (hcalls.kept ▸ he) hwrong'
      exact ⟨.getdents s.wide :: acts, t, run_cons.2 ⟨s', hs, hrun⟩, along_cons hs s.hasRoom_wide hroomy, hfin,
        hkept, hne⟩

/-- A step that is not clean makes an entry wrong. -/
theorem Tracks.exists_wrong (h : s.Tracks) (hs : s.step a = some s')
    (hclean : ¬ s.Clean a s') : ∃ e ∈ s'.kept, s'.Wrong e := by
  cases a with
  | user act =>
    obtain ⟨hlog, -, -, hkept⟩ := step_user hs
    unfold Clean at hclean
    push Not at hclean
    obtain ⟨e, he, hcross⟩ := hclean
    refine ⟨e, he, ?_⟩
    unfold Wrong
    rw [returned_of_log hlog]
    rcases hcross with ⟨hin, hnot⟩ | ⟨hnot, hin⟩
    · rcases h.right e (hkept e he) with ⟨-, hone⟩ | ⟨hrest, -⟩
      · exact .inr ⟨((h.sound.step hs).side he).resolve_left hnot, by omega⟩
      · exact absurd hrest (h.sound.not_both hin)
    · rcases h.right e (hkept e he) with ⟨hpassed, -⟩ | ⟨-, hzero, -⟩
      · exact absurd hpassed hnot
      · exact .inl ⟨hin, by omega⟩
  | getdents buf => exact absurd trivial hclean

/-- What a scan owes: every call returns records of entries, and once a call has returned 0, every entry
that has been there all the time has been returned exactly once. -/
structure Complete (s : Scan) : Prop where
  calls : ∀ c ∈ s.log, ∀ bytes, c.result = .ok bytes → ∃ ds, c.WellFormed s.dir bytes ds
  once : s.Finished → ∀ e ∈ s.kept, s.returned e.1 = 1

theorem Tracks.complete (h : s.Tracks) : s.Complete := by
  refine ⟨h.sound.calls, fun hfin e he => ?_⟩
  rcases h.right e he with ⟨-, hone⟩ | ⟨-, -, hnot⟩
  · exact hone
  · exact absurd hfin hnot

/-- A scan of a directory, from any state of ramfs, is complete as long as its steps are clean; and the first
step that is not is followed by calls, up to one that returns 0, after which it is not complete. -/
theorem complete_of_clean {allocs : List Bool} {before : List HeldRamfs.Act} {held : HeldRamfs}
    (hbefore : run HeldRamfs.stepStrings (HeldRamfs.init allocs) before = some held) {dir : Nat} {acts : List Act}
    (hrun : run step (opened held dir) acts = some s) (hroomy : along step Roomy (opened held dir) acts)
    (hclean : along step Clean (opened held dir) acts) :
    s.Complete ∧ ∀ a s', s.step a = some s' → s'.held.fs.isDir s'.dir = true → ¬ s.Clean a s' →
      ∃ more t, run step s' more = some t ∧ along step Roomy s' more ∧ t.Finished ∧ ¬ t.Complete := by
  have htracks : s.Tracks := by
    refine run_invariant_along ?_ (tracks_opened (HeldRamfs.run_strings hbefore) dir) (along_and hroomy hclean) hrun
    intro x a y hx hp hs
    exact hx.step hp.1 hp.2 hs
  refine ⟨htracks.complete, fun a s' hs hdir hbad => ?_⟩
  obtain ⟨e, he, hwrong⟩ := htracks.exists_wrong hs hbad
  obtain ⟨more, t, hmore, hroom, hfin, hkept, hne⟩ :=
    exists_finish _ (Nat.le_refl _) (htracks.sound.step hs) hdir he hwrong
  exact ⟨more, t, hmore, hroom, hfin, fun hc => hne (hc.once hfin e hkept)⟩

/-- Directories `a`, `b` and `c` in the root. -/
def makeThree : List HeldRamfs.Act :=
  [.op (.mkdir rootIno (Name.clip [97]) 0o755), .op (.mkdir rootIno (Name.clip [98]) 0o755),
    .op (.mkdir rootIno (Name.clip [99]) 0o755)]

/-- Calls that return one entry, the other two, and 0. -/
def oneThenRest (between : List Act) : List Act :=
  .getdents ⟨1, 24⟩ :: between ++ [.getdents ⟨1, 256⟩, .getdents ⟨1, 256⟩]

theorem hasRoom_of_head
    (h : es.head?.all (fun e => direntReclen e.1.bytes.length ≤ buf.count) = true) : Ramfs.HasRoom buf es := by
  intro e he
  rw [he] at h
  simpa using h

theorem clean_user (h : s'.kept.all (fun e => decide (e ∈ s.passed ↔ e ∈ s'.passed)) = true) :
    s.Clean (.user act) s' :=
  fun e he => of_decide_eq_true (List.all_eq_true.1 h e he)

/-- The last entry, which the scan has not come to, is removed. -/
def removeLast : List Act := oneThenRest [.user (.op (.rmdir rootIno (Name.clip [97])))]

theorem complete_of_removeLast : ∃ held s, run HeldRamfs.stepStrings (HeldRamfs.init []) makeThree = some held ∧
    run step (opened held rootIno) removeLast = some s ∧ s.Finished ∧ s.kept.length = 2 ∧ s.Complete := by
  obtain ⟨held, s, hbefore, hrun, hfin, hkept, hroomy, hclean⟩ : ∃ held s,
      run HeldRamfs.stepStrings (HeldRamfs.init []) makeThree = some held ∧
        run step (opened held rootIno) removeLast = some s ∧ s.Finished ∧ s.kept.length = 2 ∧
          along step Roomy (opened held rootIno) removeLast ∧ along step Clean (opened held rootIno) removeLast := by
    refine ⟨_, _, rfl, rfl, ⟨_, rfl, rfl⟩, rfl, ?_, ?_⟩
    · refine along_cons rfl (hasRoom_of_head (by decide)) (along_cons rfl trivial ?_)
      exact along_cons rfl (hasRoom_of_head (by decide)) (along_cons rfl (hasRoom_of_head (by decide)) trivial)
    · refine along_cons rfl trivial (along_cons rfl (clean_user (by decide)) ?_)
      exact along_cons rfl trivial (along_cons rfl trivial trivial)
  exact ⟨held, s, hbefore, hrun, hfin, hkept, (complete_of_clean hbefore hrun hroomy hclean).1⟩

/-- The entry that was returned last is removed, and the next one is never returned; a new entry is made, and
the one that was returned last is returned again. -/
theorem not_complete_of_change : ∃ held, run HeldRamfs.stepStrings (HeldRamfs.init []) makeThree = some held ∧
    (∃ s, run step (opened held rootIno) (oneThenRest [.user (.op (.rmdir rootIno ⟨[99], by decide⟩))]) = some s ∧
      along step Roomy (opened held rootIno) (oneThenRest [.user (.op (.rmdir rootIno ⟨[99], by decide⟩))]) ∧
        s.Finished ∧ ∃ e ∈ s.kept, s.returned e.1 = 0) ∧
      ∃ s, run step (opened held rootIno) (oneThenRest [.user (.op (.mkdir rootIno ⟨[100], by decide⟩ 0o755))]) =
        some s ∧
        along step Roomy (opened held rootIno) (oneThenRest [.user (.op (.mkdir rootIno ⟨[100], by decide⟩ 0o755))]) ∧
          s.Finished ∧ ∃ e ∈ s.kept, s.returned e.1 = 2 := by
  refine ⟨_, rfl, ⟨_, rfl, ?_, ⟨_, rfl, rfl⟩, (⟨[98], by decide⟩, 3), by decide, by decide +kernel⟩,
    ⟨_, rfl, ?_, ⟨_, rfl, rfl⟩, (⟨[99], by decide⟩, 4), by decide, by decide +kernel⟩⟩
  · refine along_cons rfl (hasRoom_of_head (by decide)) (along_cons rfl trivial ?_)
    exact along_cons rfl (hasRoom_of_head (by decide)) (along_cons rfl (hasRoom_of_head (by decide)) trivial)
  · refine along_cons rfl (hasRoom_of_head (by decide)) (along_cons rfl trivial ?_)
    exact along_cons rfl (hasRoom_of_head (by decide)) (along_cons rfl (hasRoom_of_head (by decide)) trivial)

end Scan

end MiniOs.Fs
