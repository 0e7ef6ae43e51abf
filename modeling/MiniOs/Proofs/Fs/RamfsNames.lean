/-
The names that directories of ramfs have: a property of the names that calls are given holds of every
entry, whatever else becomes of it.
-/
import MiniOs.Proofs.Fs.Components
import MiniOs.Proofs.Fs.RamfsLookup

namespace MiniOs.Fs

namespace Ramfs

variable {P : Name → Prop} {Q : Nat → List (Name × Nat) → Prop} {fs : Ramfs} {d i : Nat} {n : Name} {r : RamfsInode}

/-- A property of every inode's entries. -/
def Lists (Q : Nat → List (Name × Nat) → Prop) (fs : Ramfs) : Prop := ∀ i ri, fs.inodes i = some ri → Q i ri.children

/-! ## Inodes -/

theorem Lists.set (h : Lists Q fs) (hr : Q i r.children) : Lists Q (fs.set i r) := by
  intro j rj hj
  rcases set_cases hj with ⟨rfl, rfl⟩ | ⟨-, hj⟩
  · exact hr
  · exact h j rj hj

theorem Lists.modify {f : RamfsInode → RamfsInode} (h : Lists Q fs) (hf : ∀ ri, Q i ri.children → Q i (f ri).children) :
    Lists Q (fs.modify i f) := by
  unfold Ramfs.modify
  cases hi : fs.inodes i with
  | none => exact h
  | some ri => exact h.set (hf ri (h i ri hi))

theorem Lists.kmalloc (h : Lists Q fs) : Lists Q fs.kmalloc.2 := by
  unfold Ramfs.kmalloc
  cases fs.allocs with
  | nil => exact h
  | cons ok rest => exact h

theorem Lists.kfree (h : Lists Q fs) : Lists Q (fs.kfree i) := fun j rj hj => h j rj (kfree_cases hj).2

theorem Lists.freeInode : ∀ (k : Nat) {fs : Ramfs} {i : Nat}, Lists Q fs → Lists Q (Ramfs.freeInode k fs i)
  | 0, _, _, h => h
  | k + 1, fs, i, h => by
    have hfold : ∀ (l : List (Name × Nat)) {fs : Ramfs}, Lists Q fs →
        Lists Q (l.foldl (fun fs e => Ramfs.freeInode k fs e.2) fs) := by
      intro l
      induction l with
      | nil => exact fun h => h
      | cons e l ih => exact fun h => ih (Lists.freeInode k h)
    unfold Ramfs.freeInode
    dsimp only
    split_ifs
    · exact hfold _ h
    · exact h
    · exact (hfold _ h).kfree
    · exact h.kfree

theorem Lists.inodeMaybeEvict (h : Lists Q fs) : Lists Q (fs.inodeMaybeEvict i) := by
  unfold Ramfs.inodeMaybeEvict
  cases fs.inodes i with
  | none => exact h
  | some ri =>
    dsimp only
    split_ifs
    · exact h
    · exact h
    · exact h.freeInode _

theorem Lists.dropNlink (h : Lists Q fs) : Lists Q (fs.dropNlink i) :=
  Lists.inodeMaybeEvict (h.modify fun _ hr => hr)

theorem Lists.clearNlink (h : Lists Q fs) : Lists Q (fs.clearNlink i) :=
  Lists.inodeMaybeEvict (h.modify fun _ hr => hr)

theorem Lists.iget (h : Lists Q fs) : Lists Q (fs.iget i) := h.modify fun _ hr => hr

theorem Lists.iput (h : Lists Q fs) : Lists Q (fs.iput i) := by
  unfold Ramfs.iput
  cases hi : fs.inodes i with
  | none => exact h
  | some ri =>
    dsimp only
    split_ifs
    · exact h
    · exact Lists.inodeMaybeEvict (h.set (h i ri hi))

theorem Lists.allocInode (h : Lists Q fs) (hnil : ∀ j, Q j []) (type : FileType) : Lists Q (fs.allocInode type).2 := by
  have hk := h.kmalloc
  unfold Ramfs.allocInode
  generalize fs.kmalloc = r at hk
  obtain ⟨ok, fs1⟩ := r
  cases ok with
  | false => exact hk
  | true => exact hk.set (hnil _)

theorem lists_init (hnil : ∀ j, Q j []) (allocs : List Bool) : Lists Q (init allocs) := by
  intro i ri hi
  rw [init_inodes] at hi
  by_cases hr : i = rootIno
  · subst hr
    rw [Function.update_self] at hi
    cases hi
    exact hnil _
  · rw [Function.update_of_ne hr] at hi
    cases hi

/-! ## Entries -/

/-- Entries with different names that have the property. -/
structure Orderly (P : Name → Prop) (l : List (Name × Nat)) : Prop where
  distinct : (l.map Prod.fst).Nodup
  name : ∀ e ∈ l, P e.1

theorem orderly_nil : Orderly P [] := ⟨List.nodup_nil, by simp⟩

theorem Orderly.cons {l : List (Name × Nat)} (h : Orderly P l) (hn : P n) (hfresh : n ∉ l.map Prod.fst) :
    Orderly P ((n, i) :: l) := by
  refine ⟨List.nodup_cons.2 ⟨hfresh, h.distinct⟩, ?_⟩
  intro e he
  rcases List.mem_cons.1 he with rfl | he
  · exact hn
  · exact h.name e he

theorem Orderly.sublist {l l' : List (Name × Nat)} (h : Orderly P l) (hl : l'.Sublist l) : Orderly P l' :=
  ⟨h.distinct.sublist (hl.map _), fun e he => h.name e (hl.subset he)⟩

theorem Orderly.not_mem_eraseP {l : List (Name × Nat)} (h : Orderly P l) (n : Name) :
    n ∉ (l.eraseP fun e => decide (e.1 = n)).map Prod.fst := by
  induction l with
  | nil => simp
  | cons e l ih =>
    obtain ⟨hne, hd⟩ := List.nodup_cons.1 h.distinct
    by_cases hn : e.1 = n
    · rw [List.eraseP_cons_of_pos (by simpa using hn)]
      exact hn ▸ hne
    · rw [List.eraseP_cons_of_neg (by simpa using hn), List.map_cons, List.mem_cons, not_or]
      exact ⟨Ne.symm hn, ih (h.sublist (List.sublist_cons_self e l))⟩

variable {nn on : Name}

theorem mem_setName {e : Name × Nat} : ∀ {l : List (Name × Nat)}, e ∈ setName on nn l → e.1 = nn ∨ e ∈ l
  | x :: l, he => by
    unfold setName at he
    split_ifs at he
    · rcases List.mem_cons.1 he with rfl | he
      · exact .inl rfl
      · exact .inr (List.mem_cons_of_mem _ he)
    · rcases List.mem_cons.1 he with rfl | he
      · exact .inr (List.mem_cons_self ..)
      · exact (mem_setName he).imp_right (List.mem_cons_of_mem _)

theorem Orderly.setName : ∀ {l : List (Name × Nat)}, Orderly P l → P nn → nn ∉ l.map Prod.fst →
    Orderly P (Ramfs.setName on nn l)
  | [], h, _, _ => h
  | x :: l, h, hn, hfresh => by
    obtain ⟨hx, -⟩ := List.nodup_cons.1 h.distinct
    have hl := h.sublist (List.sublist_cons_self x l)
    have hfresh' : nn ∉ l.map Prod.fst := fun hmem => hfresh (List.mem_cons_of_mem _ hmem)
    unfold Ramfs.setName
    split_ifs with he
    · exact hl.cons hn hfresh'
    · refine Orderly.cons (hl.setName hn hfresh') (h.name x (List.mem_cons_self ..)) ?_
      intro hmem
      obtain ⟨e, he, hname⟩ := List.mem_map.1 hmem
      rcases mem_setName he with he | he
      · exact hfresh (he ▸ hname ▸ List.mem_cons_self ..)
      · exact hx (hname ▸ List.mem_map_of_mem he)

/-- Every directory is orderly. -/
def Named (P : Name → Prop) (fs : Ramfs) : Prop := Lists (fun _ l => Orderly P l) fs

/-- The directory has no entry with the name. -/
def Lacks (d : Nat) (n : Name) (fs : Ramfs) : Prop := Lists (fun j l => j = d → n ∉ l.map Prod.fst) fs

theorem lacks_of_findChild (hd : fs.isDir d = true) (hf : fs.findChild d n = none) : Lacks d n fs := by
  rintro j rj hj rfl hmem
  obtain ⟨e, he, rfl⟩ := List.mem_map.1 hmem
  have hsome : (rj.children.find? fun x => decide (x.1 = e.1)).isSome = true :=
    List.find?_isSome.2 ⟨e, he, by simp⟩
  rw [findChild, if_pos hd, childrenOf_of_live hj, Option.map_eq_none_iff] at hf
  rw [hf] at hsome
  cases hsome

section

variable (h : Named P fs)
include h

theorem Named.allocInode (type : FileType) : Named P (fs.allocInode type).2 :=
  Lists.allocInode h (fun _ => orderly_nil) type

theorem Named.pushChild (hn : P n) (hl : Lacks d n fs) : Named P (fs.pushChild d n i) := by
  -- the parent pointer changes no entries
  have hparent : ∀ {Q : Nat → List (Name × Nat) → Prop}, Lists Q fs →
      Lists Q (if fs.isDir i then fs.modify i fun ri => { ri with parent := some d } else fs) := by
    intro Q h
    split_ifs
    · exact h.modify fun _ hr => hr
    · exact h
  have h1 := hparent h
  have h2 := hparent hl
  unfold Ramfs.pushChild
  dsimp only
  generalize (if fs.isDir i then fs.modify i fun ri => { ri with parent := some d } else fs) = fs1 at h1 h2 ⊢
  unfold Ramfs.modify
  cases hd : fs1.inodes d with
  | none => exact h1
  | some rd => exact Lists.set h1 ((h1 d rd hd).cons hn (h2 d rd hd rfl))

theorem Named.addChild (hn : P n) : Named P (fs.addChild d n i).2 := by
  unfold Ramfs.addChild
  split_ifs with hdir hfind
  · exact h
  · have hk := Lists.kmalloc h
    have hl := Lists.kmalloc (lacks_of_findChild hdir (by simpa using hfind))
    generalize fs.kmalloc = r at hk hl
    obtain ⟨ok, fs1⟩ := r
    cases ok with
    | false => exact hk
    | true => exact Named.pushChild hk hn hl
  · exact h

theorem Named.removeChild : Named P (fs.removeChild d n).2 := by
  unfold Ramfs.removeChild
  split_ifs
  · cases fs.findChild d n with
    | none => exact h
    | some i => exact h.modify fun _ hr => hr.sublist List.eraseP_sublist
  · exact h

theorem Named.lacks_removeChild {e : Nat} {fs1 : Ramfs} (hr : fs.removeChild d n = (.ok e, fs1)) :
    Lacks d n fs1 := by
  unfold Ramfs.removeChild at hr
  split_ifs at hr
  · cases hf : fs.findChild d n with
    | none =>
      rw [hf] at hr
      cases hr
    | some i =>
      rw [hf] at hr
      cases hr
      rintro j rj hj rfl
      unfold dropChild Ramfs.modify at hj
      cases hd : fs.inodes j with
      | none =>
        simp only [hd] at hj
        cases hj
      | some rd =>
        simp only [hd] at hj
        rcases set_cases hj with ⟨-, rfl⟩ | ⟨hne, -⟩
        · exact (h j rd hd).not_mem_eraseP n
        · exact absurd rfl hne
  · cases hr

theorem Named.enterNew (hn : P n) : Named P (fs.enterNew d n i).2 := by
  have ha := h.addChild hn (d := d) (i := i)
  unfold Ramfs.enterNew
  generalize fs.addChild d n i = r at ha
  obtain ⟨res, fs1⟩ := r
  cases res with
  | error e => exact ha.kfree
  | ok u => exact ha

/-! ## Operations -/

theorem Named.makeNode (hn : P n) (type : FileType) {setup : RamfsInode → RamfsInode}
    (hs : ∀ ri, (setup ri).children = ri.children) : Named P (fs.makeNode d n type setup).2 := by
  have ha := h.allocInode type
  unfold Ramfs.makeNode
  split_ifs
  · exact h
  · generalize fs.allocInode type = r at ha
    obtain ⟨o, fs1⟩ := r
    cases o with
    | none => exact ha
    | some i => exact Named.enterNew (ha.modify fun ri hr => by rwa [hs ri]) hn

theorem Named.inodeMkdir (hn : P n) (mode : UInt16) : Named P (fs.inodeMkdir d n mode).2 := by
  unfold Ramfs.inodeMkdir
  split_ifs
  · exact h
  · exact h.makeNode hn .dir fun _ => rfl
  · exact h

theorem Named.inodeMknod (hn : P n) (mode : UInt16) (rdev : Nat) :
    Named P (fs.inodeMknod d n mode rdev).2 := by
  unfold Ramfs.inodeMknod
  split_ifs
  · exact h
  · exact h
  · exact h.makeNode hn .chr fun _ => rfl
  · exact h

theorem Named.inodeSymlink (hn : P n) (target : List UInt8) : Named P (fs.inodeSymlink d n target).2 := by
  have ha := h.allocInode .lnk
  unfold Ramfs.inodeSymlink
  split_ifs
  · exact h
  · exact h
  · exact h.makeNode hn .lnk fun _ => rfl
  · exact h
  · generalize fs.allocInode .lnk = r at ha
    obtain ⟨o, fs1⟩ := r
    cases o with
    | none => exact ha
    | some i =>
      have hk := ha.kmalloc
      dsimp only at hk ⊢
      generalize fs1.kmalloc = q at hk
      obtain ⟨ok, fs2⟩ := q
      cases ok with
      | false => exact hk.kfree
      | true => exact Named.enterNew (hk.modify fun _ hr => hr) hn
  · exact h

theorem Named.inodeLink (hn : P n) : Named P (fs.inodeLink i d n).2 := by
  have ha := h.addChild hn (d := d) (i := i)
  unfold Ramfs.inodeLink
  split_ifs
  · exact h
  · exact h
  · exact h
  · generalize fs.addChild d n i = r at ha
    obtain ⟨res, fs1⟩ := r
    cases res with
    | error e => exact ha
    | ok u => exact ha.modify fun _ hr => hr
  · exact h

theorem Named.inodeUnlink (hn : P n) : Named P (fs.inodeUnlink d n).2 := by
  have hr := h.removeChild (d := d) (n := n)
  unfold Ramfs.inodeUnlink
  split_ifs
  · exact h
  · generalize fs.removeChild d n = r at hr
    obtain ⟨res, fs1⟩ := r
    cases res with
    | error e => exact hr
    | ok i =>
      dsimp only at hr ⊢
      split_ifs
      · exact hr.addChild hn
      · exact hr.dropNlink
  · exact h

theorem Named.inodeRmdir (hn : P n) : Named P (fs.inodeRmdir d n).2 := by
  have hr := h.removeChild (d := d) (n := n)
  unfold Ramfs.inodeRmdir
  split_ifs
  · exact h
  · generalize fs.removeChild d n = r at hr
    obtain ⟨res, fs1⟩ := r
    cases res with
    | error e => exact hr
    | ok i =>
      dsimp only at hr ⊢
      split_ifs
      · exact hr.addChild hn
      · exact hr.clearNlink
      · exact hr.addChild hn
  · exact h

theorem Named.replaceTarget {src dst : Nat} : Named P (fs.replaceTarget src d n dst).2 := by
  have hr := h.removeChild (d := d) (n := n)
  unfold Ramfs.replaceTarget
  split_ifs
  · exact h
  · exact h
  · exact h
  · generalize fs.removeChild d n = r at hr
    obtain ⟨res, fs1⟩ := r
    cases res with
    | error e => exact hr
    | ok i =>
      dsimp only at hr ⊢
      split_ifs
      · exact hr.clearNlink
      · exact hr.dropNlink

theorem Named.lacks_replaceTarget {src dst : Nat} {fs1 : Ramfs}
    (hr : fs.replaceTarget src d n dst = (.ok (), fs1)) : Lacks d n fs1 := by
  unfold Ramfs.replaceTarget at hr
  split_ifs at hr
  · cases hr
  · cases hr
  · cases hr
  · cases hrem : fs.removeChild d n with
    | mk res fs2 =>
      rw [hrem] at hr
      cases res with
      | error e => cases hr
      | ok i =>
        have hl := h.lacks_removeChild hrem
        cases hr
        split_ifs
        · exact Lists.clearNlink hl
        · exact Lists.dropNlink hl

theorem Named.moveEntry {oldDir newDir : Nat} (ho : P on) (hn : P nn)
    (hl : Lacks newDir nn fs) : Named P (fs.moveEntry oldDir on newDir nn).2 := by
  have hr := h.removeChild (d := oldDir) (n := on)
  unfold Ramfs.moveEntry
  split_ifs with hdir
  · unfold Ramfs.modify
    cases hd : fs.inodes oldDir with
    | none => exact h
    | some rd => exact Lists.set h ((h oldDir rd hd).setName hn (hl oldDir rd hd hdir))
  · generalize fs.removeChild oldDir on = r at hr
    obtain ⟨res, fs1⟩ := r
    cases res with
    | error e => exact hr
    | ok src =>
      have ha := hr.addChild hn (d := newDir) (i := src)
      dsimp only at ha ⊢
      generalize fs1.addChild newDir nn src = q at ha
      obtain ⟨res, fs2⟩ := q
      cases res with
      | error e => exact ha.addChild ho
      | ok u => exact ha

theorem Named.inodeRename {oldDir newDir : Nat} (ho : P on) (hn : P nn)
    {q : Except Errno Unit × Ramfs} (hq : fs.inodeRename oldDir on newDir nn = some q) : Named P q.2 := by
  unfold Ramfs.inodeRename at hq
  split_ifs at hq with hdirs
  · cases hq
    exact h
  · cases hq
    exact h
  · cases hq
    exact h
  · cases hsrc : fs.findChild oldDir on with
    | none =>
      rw [hsrc] at hq
      cases hq
      exact h
    | some src =>
      rw [hsrc] at hq
      dsimp only at hq
      split_ifs at hq
      · cases hq
        exact h
      · cases hm : fs.movesBelow src newDir with
        | none =>
          rw [hm] at hq
          cases hq
        | some b =>
          rw [hm] at hq
          cases b with
          | true =>
            cases hq
            exact h
          | false =>
            cases hdst : fs.findChild newDir nn with
            | none =>
              rw [hdst] at hq
              cases hq
              have hdir : fs.isDir newDir = true := by simpa using (not_or.1 hdirs).2
              exact h.moveEntry ho hn (lacks_of_findChild hdir hdst)
            | some dst =>
              have hr : Named P (fs.replaceTarget src newDir nn dst).2 := h.replaceTarget
              have hl : ∀ fs1, fs.replaceTarget src newDir nn dst = (.ok (), fs1) → Lacks newDir nn fs1 :=
                fun fs1 hr => h.lacks_replaceTarget hr
              rw [hdst] at hq
              dsimp only at hq
              generalize fs.replaceTarget src newDir nn dst = r at hr hl hq
              obtain ⟨res, fs1⟩ := r
              cases res with
              | error e =>
                cases hq
                exact hr
              | ok u =>
                cases hq
                exact hr.moveEntry ho hn (hl fs1 rfl)

end

/-! ## Calls by path -/

/-- The name that `ramfs_lookup_parent` returns is a piece of the path. -/
theorem lookupParentLoop_mem {e : Nat} {l : List UInt8} : ∀ (k : Nat) {d : Nat} {last : Option (List UInt8)}
    {path : List UInt8},
    fs.lookupParentLoop k d last path = some (e, some l) → last = some l ∨ l = [] ∨ l ∈ path.splitOn slash
  | 0, _, _, _, h => by cases h
  | k + 1, d, last, path, h => by
    obtain ⟨m, hm⟩ := splitOn_skipSlash path
    rw [lookupParentLoop] at h
    dsimp only at h
    rw [hm]
    generalize skipSlash path = path' at h ⊢
    have hin : component path' ∈ List.replicate m [] ++ path'.splitOn slash := by
      apply List.mem_append_right
      rcases splitOn_component path' with ⟨-, hp⟩ | ⟨r, -, hp⟩ <;> simp [hp]
    -- The rest of the path has the same pieces.
    have hrest : ∀ {d'}, fs.lookupParentLoop k d' (some (component path')) (path'.drop (component path').length) =
        some (e, some l) → last = some l ∨ l = [] ∨ l ∈ List.replicate m [] ++ path'.splitOn slash := by
      intro d' h
      rcases lookupParentLoop_mem k h with h | h | h
      · cases h
        exact .inr (.inr hin)
      · exact .inr (.inl h)
      · exact .inr ((mem_splitOn_rest h).imp_right (List.mem_append_right _))
    split_ifs at h
    · cases h
      exact .inl rfl
    · cases h
      exact .inr (.inr hin)
    · exact hrest h
    · exact hrest h
    · cases hf : fs.findChild d (Name.clip (component path')) with
      | none =>
        rw [hf] at h
        cases h
      | some i =>
        rw [hf] at h
        dsimp only at h
        split_ifs at h
        exact hrest h

theorem lookupParent_mem {path : List UInt8} (h : fs.lookupParent path = some (d, n)) :
    n.bytes ≠ [] ∧ n.bytes ∈ path.splitOn slash := by
  unfold lookupParent at h
  cases hloop : fs.lookupParentLoop (path.length + 1) rootIno none path with
  | none =>
    rw [hloop] at h
    cases h
  | some r =>
    obtain ⟨e, l⟩ := r
    rw [hloop] at h
    cases l with
    | none => cases h
    | some l =>
      dsimp only at h
      split_ifs at h with hl
      cases h
      refine ⟨hl.1, ?_⟩
      rcases lookupParentLoop_mem _ hloop with h | h | h
      · cases h
      · exact absurd h hl.1
      · exact h

/-- A path whose pieces are names with the property. -/
def Spells (P : Name → Prop) (path : List UInt8) : Prop := ∀ n : Name, n.bytes ≠ [] → n.bytes ∈ path.splitOn slash → P n

variable {path : List UInt8}

theorem Named.create (h : Named P fs) (hp : Spells P path) (mode : UInt16) : Named P (fs.create path mode).2 := by
  unfold Ramfs.create
  split_ifs
  · exact h
  · cases hl : fs.lookupParent path with
    | none => exact h
    | some r =>
      obtain ⟨hne, hmem⟩ := lookupParent_mem (show fs.lookupParent path = some (r.1, r.2) from hl)
      exact h.makeNode (hp _ hne hmem) .reg fun _ => rfl

theorem named_init (allocs : List Bool) : Named P (init allocs) := lists_init (fun _ => orderly_nil) allocs

end Ramfs

end MiniOs.Fs
