/-
Path lookup in ramfs. On a normalised path it follows one entry after the other; on any string, with
any links on the way, what it finds is live.
-/
import MiniOs.Fs.RamfsPath
import MiniOs.Proofs.Fs.Path
import MiniOs.Proofs.Fs.RamfsRun

namespace MiniOs.Fs

open Library

namespace Ramfs

variable {fs : Ramfs} {d i : Nat} {path : List UInt8}

/-! ## Normalised paths -/

/-- One entry after the other. -/
def walk (fs : Ramfs) : Nat → List Name → Option Nat
  | i, [] => some i
  | i, n :: cs => (fs.findChild i n).bind fun j => fs.walk j cs

theorem findChild_of_not_dir (h : fs.isDir i = false) (n : Name) : fs.findChild i n = none := by
  simp [findChild, h]

/-- A walk that goes on after a file finds nothing, so the test for a directory can be left out. -/
theorem walk_of_not_dir (h : fs.isDir i = false) {cs : List Name} (hcs : cs ≠ []) : fs.walk i cs = none := by
  obtain ⟨n, cs, rfl⟩ := List.exists_cons_of_ne_nil hcs
  simp [walk, findChild_of_not_dir h]

theorem walk_append : ∀ (cs ds : List Name) (i : Nat), fs.walk i (cs ++ ds) = (fs.walk i cs).bind fun j => fs.walk j ds
  | [], _, _ => rfl
  | n :: cs, ds, i => by
    simp only [List.cons_append, walk, Option.bind_assoc]
    congr 1
    funext j
    exact walk_append cs ds j

theorem lookupAtLoop_component {n : Name} (hn : IsComponent n.bytes) (cs : List (List UInt8))
    (hcs : ∀ c ∈ cs, IsComponent c) (fuel : Nat) :
    fs.lookupAtLoop (fuel + 1) d (n.bytes ++ slashed cs) =
      match fs.findChild d n with
      | none => none
      | some i =>
        match cs with
        | [] => some i
        | c :: cs => if fs.isDir i then fs.lookupAtLoop fuel i (c ++ slashed cs) else none := by
  rw [lookupAtLoop]
  simp only [component_append hn, n.clip_bytes, if_neg hn.ne_nil, if_neg hn.ne_dot, if_neg hn.ne_dotdot, List.drop_left]
  cases fs.findChild d n with
  | none => rfl
  | some i =>
    cases cs with
    | nil => rfl
    | cons c cs =>
      have hc : IsComponent c := hcs c (List.mem_cons_self ..)
      have hne : c ++ slashed cs ≠ [] := by simp [hc.ne_nil]
      simp only [skipSlash_slashed hc, if_neg hne]

theorem lookupAtLoop_walk : ∀ {cs : List Name} {n : Name} {fuel d : Nat}, cs.length < fuel → IsComponent n.bytes →
    (∀ m ∈ cs, IsComponent m.bytes) →
    fs.lookupAtLoop fuel d (n.bytes ++ slashed (cs.map Name.bytes)) = fs.walk d (n :: cs)
  | cs, n, fuel + 1, d, hlen, hn, hcs => by
    rw [lookupAtLoop_component hn _ (by simpa using hcs), walk]
    cases hf : fs.findChild d n with
    | none => rfl
    | some i =>
      cases cs with
      | nil => rfl
      | cons m cs =>
        simp only [Option.bind_some]
        split_ifs with hdir
        · apply lookupAtLoop_walk (by simpa using hlen) (hcs m (List.mem_cons_self ..))
          exact fun k hk => hcs k (List.mem_cons_of_mem _ hk)
        · exact (walk_of_not_dir (by simpa using hdir) (List.cons_ne_nil m cs)).symm

theorem lookup_renderPath {cs : List Name} (hcs : ∀ n ∈ cs, IsComponent n.bytes) :
    fs.lookup (renderPath (cs.map Name.bytes)) = fs.walk rootIno cs := by
  unfold lookup
  rw [head?_renderPath, if_pos rfl]
  unfold lookupAt
  cases cs with
  | nil => rfl
  | cons n cs =>
    have hn : IsComponent n.bytes := hcs n (List.mem_cons_self ..)
    have hne : n.bytes ++ slashed (cs.map Name.bytes) ≠ [] := by simp [hn.ne_nil]
    have hlen : cs.length < (renderPath ((n :: cs).map Name.bytes)).length := by
      rw [renderPath_of_ne_nil (by simp)]
      have hle := length_le_slashed ((n :: cs).map Name.bytes)
      rw [List.length_map, List.length_cons] at hle
      exact hle
    rw [List.map_cons, skipSlash_renderPath hn, if_neg hne]
    exact lookupAtLoop_walk hlen hn fun m hm => hcs m (List.mem_cons_of_mem _ hm)

/-- A directory has one name only. -/
theorem Inv.entry_unique {e c : Nat} {n m : Name} (h : fs.Inv .empty) (hf : fs.findChild d n = some c)
    (hg : fs.findChild e m = some c) (hdir : fs.isDir c = true) : d = e ∧ n = m := by
  obtain ⟨rc, he⟩ := h.exists_entry hf
  obtain ⟨rc', he'⟩ := h.exists_entry hg
  obtain rfl := Option.mem_unique he.live he'.live
  have ht : rc.type = .dir := by simpa [isDir_of_live he.live] using hdir
  obtain rfl := Option.mem_unique (he.parent ht) (he'.parent ht)
  refine ⟨rfl, ?_⟩
  by_contra hne
  -- two entries would make two names
  obtain ⟨rd, hd, hm⟩ := h.findChild_iff.1 hf
  obtain ⟨rd', hd', hm'⟩ := h.findChild_iff.1 hg
  obtain rfl := Option.mem_unique hd hd'
  have hperm := perm_eraseP (h.distinct d rd hd) hm
  have hin : (m, c) ∈ rd.children.eraseP fun e => e.1 = n := by
    rcases List.mem_cons.1 (hperm.mem_iff.1 hm') with heq | hin
    · exact absurd (congrArg Prod.fst heq).symm hne
    · exact hin
  have htwo : namesIn rd.children c = namesIn (rd.children.eraseP fun e => e.1 = n) c + 1 := by
    rw [namesIn_perm hperm, namesIn_cons, if_pos rfl]
  have hpos : 0 < namesIn (rd.children.eraseP fun e => e.1 = n) c := namesIn_pos.2 ⟨m, hin⟩
  have hle := namesIn_le hd (h.lt hd) c
  have hone := (h.isTree.oneEntry c rc he.live ht he.named he.ne_root).1
  omega

/-! ## Any path -/

/-- What a lookup finds: a directory that is not removed, or what an entry names. -/
def Found (fs : Ramfs) (i : Nat) : Prop := fs.Linked i ∨ ∃ d n, fs.findChild d n = some i

theorem Inv.live_of_found (h : fs.Inv .empty) (hi : fs.Found i) : ∃ ri, fs.inodes i = some ri ∧ ri.nlink ≠ 0 := by
  rcases hi with ⟨ri, hri, -, hl⟩ | ⟨d, n, hf⟩
  · exact ⟨ri, hri, hl⟩
  · obtain ⟨ri, he⟩ := h.exists_entry hf
    exact ⟨ri, he.live, he.named⟩

theorem lookupAtLoop_found (h : fs.Inv .empty) : ∀ {fuel d : Nat} {path : List UInt8}, fs.Linked d →
    fs.lookupAtLoop fuel d path = some i → fs.Found i
  | fuel + 1, d, path, hd, heq => by
    unfold lookupAtLoop at heq
    dsimp only at heq
    split_ifs at heq with h1 h2 h3 h4 h5 h6
    · cases heq
      exact Or.inl hd
    · exact lookupAtLoop_found h hd heq
    · cases heq
      exact Or.inl (h.linked_parent hd)
    · exact lookupAtLoop_found h (h.linked_parent hd) heq
    · split at heq
      · cases heq
      · next j hj =>
        cases heq
        exact Or.inr ⟨d, _, hj⟩
    · split at heq
      · cases heq
      · next j hj =>
        split_ifs at heq with h7
        exact lookupAtLoop_found h (h.linked_of_findChild hj h7) heq

theorem lookup_found (h : fs.Inv .empty) (heq : fs.lookup path = some i) : fs.Found i := by
  unfold lookup lookupAt at heq
  split_ifs at heq with h1 h2
  · cases heq
    exact Or.inl h.linked_root
  · exact lookupAtLoop_found h h.linked_root heq

theorem follow_found (h : fs.Inv .empty) : ∀ {depth : Nat} {path : List UInt8},
    fs.follow depth path = some i → fs.Found i
  | depth + 1, path, heq => by
    unfold follow at heq
    split at heq
    · cases heq
    · next j hj =>
      split_ifs at heq with hlnk
      · split at heq
        · cases heq
        · split_ifs at heq with habs
          · exact follow_found h heq
          · split at heq
            · cases heq
            · split at heq
              · cases heq
              · exact follow_found h heq
      · cases heq
        exact lookup_found h hj

end Ramfs

end MiniOs.Fs
