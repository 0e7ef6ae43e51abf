/-
What a call of `ramfs_dir_readdir` returns: records of eight-byte lengths that lie in the buffer one after
another and read back as the entries from the cursor on.
-/
import MiniOs.Fs.Readdir
import Mathlib.Data.List.TakeWhile

namespace MiniOs.Fs

open Library.Bytes (toUInt8s ofUInt8s length_toUInt8s ofUInt8s_toUInt8s)

/-! ## Records -/

/-- The first record of a buffer as its reader takes it: `d_reclen` says where the next one starts, and the
name ends at its NUL. -/
def Dirent.decode (bs : List UInt8) : Option (Dirent × List UInt8) :=
  let reclen := ofUInt8s ((bs.drop 16).take 2)
  if nameOffset < reclen ∧ reclen ≤ bs.length then
    some (⟨ofUInt8s (bs.take 8), ofUInt8s ((bs.drop 8).take 8), reclen, (bs.drop 18).headD 0,
      ((bs.take reclen).drop nameOffset).takeWhile (· ≠ 0)⟩, bs.drop reclen)
  else none

/-- The records of a buffer, for a bound on their number. -/
def parse : Nat → List UInt8 → Option (List Dirent)
  | _, [] => some []
  | 0, _ :: _ => none
  | n + 1, b :: bs => (Dirent.decode (b :: bs)).bind fun r => (parse n r.2).map (r.1 :: ·)

theorem le_direntReclen (n : Nat) : nameOffset + n + 1 ≤ direntReclen n := by
  unfold direntReclen nameOffset
  omega

theorem direntReclen_le {n : Nat} (h : n ≤ nameMax) : direntReclen n ≤ 280 := by
  have hn : n ≤ 255 := h
  unfold direntReclen nameOffset
  omega

/-- What the fields of a record hold of an entry. -/
def Dirent.stored (d : Dirent) : Dirent := { d with ino := d.ino % 256 ^ 8, off := d.off % 256 ^ 8 }

/-- A record of a string that has the length for it. -/
structure Dirent.Fit (d : Dirent) : Prop where
  string : (0 : UInt8) ∉ d.name
  short : d.name.length ≤ nameMax
  reclen : d.reclen = direntReclen d.name.length

namespace Dirent

variable {d : Dirent}

theorem Fit.room (h : d.Fit) : nameOffset + d.name.length + 1 ≤ d.reclen := h.reclen ▸ le_direntReclen _

theorem Fit.length_encode (h : d.Fit) : d.encode.length = d.reclen := by
  have hroom := h.room
  simp only [encode, List.length_append, length_toUInt8s, List.length_singleton, List.length_replicate]
  unfold nameOffset at hroom ⊢
  omega

theorem Fit.takeWhile_name (h : d.Fit) : (d.encode.drop nameOffset).takeWhile (· ≠ 0) = d.name := by
  obtain ⟨k, hk⟩ : ∃ k, d.reclen - nameOffset - d.name.length = k + 1 :=
    ⟨d.reclen - nameOffset - d.name.length - 1, by have := h.room; omega⟩
  have htail : d.encode.drop nameOffset = d.name ++ 0 :: List.replicate k 0 := by
    rw [encode, List.append_assoc, List.drop_left' (by simp [nameOffset]), hk, List.replicate_succ]
  rw [htail, List.takeWhile_append_of_pos]
  · simp
  · intro b hb
    have hne : b ≠ 0 := fun he => h.string (he ▸ hb)
    simpa using hne

/-- A record reads back, whatever stands behind it. -/
theorem Fit.decode_encode (h : d.Fit) (rest : List UInt8) : decode (d.encode ++ rest) = some (d.stored, rest) := by
  have hroom := h.room
  have hle : d.reclen ≤ 280 := h.reclen ▸ direntReclen_le h.short
  have hlen := h.length_encode
  -- the record, cut where its fields end
  obtain ⟨tail, hsplit⟩ : ∃ tail, d.encode ++ rest =
      toUInt8s 8 d.ino ++ (toUInt8s 8 d.off ++ (toUInt8s 2 d.reclen ++ d.type :: tail)) :=
    ⟨_, by simp only [encode, List.append_assoc, List.cons_append, List.nil_append]; rfl⟩
  have h16 : (d.encode ++ rest).drop 16 = toUInt8s 2 d.reclen ++ d.type :: tail := by
    rw [hsplit, ← List.append_assoc, List.drop_left' (by simp)]
  have hreclen : ofUInt8s (((d.encode ++ rest).drop 16).take 2) = d.reclen := by
    rw [h16, List.take_left' (by simp), ofUInt8s_toUInt8s]
    exact Nat.mod_eq_of_lt (by omega)
  have hino : ofUInt8s ((d.encode ++ rest).take 8) = d.ino % 256 ^ 8 := by
    rw [hsplit, List.take_left' (by simp), ofUInt8s_toUInt8s]
  have hoff : ofUInt8s (((d.encode ++ rest).drop 8).take 8) = d.off % 256 ^ 8 := by
    rw [hsplit, List.drop_left' (by simp), List.take_left' (by simp), ofUInt8s_toUInt8s]
  have htype : ((d.encode ++ rest).drop 18).headD 0 = d.type := by
    rw [show 18 = 16 + 2 from rfl, ← List.drop_drop, h16, List.drop_left' (by simp), List.headD_cons]
  have hname : (((d.encode ++ rest).take d.reclen).drop nameOffset).takeWhile (· ≠ 0) = d.name := by
    rw [List.take_left' hlen, h.takeWhile_name]
  unfold decode
  simp only [hreclen, hino, hoff, htype, hname]
  rw [if_pos ⟨by omega, by rw [List.length_append, hlen]; omega⟩, List.drop_left' hlen]
  rfl

end Dirent

/-- Records in a row read back. -/
theorem parse_encode : ∀ {ds : List Dirent} {n : Nat}, (∀ d ∈ ds, d.Fit) → ds.length ≤ n →
    parse n (ds.flatMap Dirent.encode) = some (ds.map Dirent.stored)
  | [], n, _, _ => by
    cases n <;> rfl
  | d :: ds, 0, _, hn => by simp at hn
  | d :: ds, n + 1, hfit, hn => by
    have hd := hfit d (List.mem_cons_self ..)
    have hne : d.encode ≠ [] := by
      intro he
      have hlen := hd.length_encode
      have hroom := hd.room
      rw [he, List.length_nil] at hlen
      omega
    have ih : parse n (ds.flatMap Dirent.encode) = some (ds.map Dirent.stored) :=
      parse_encode (fun x hx => hfit x (List.mem_cons_of_mem _ hx)) (by simpa using hn)
    obtain ⟨b, bs, hb⟩ := List.exists_cons_of_ne_nil (List.append_ne_nil_of_left_ne_nil hne (ds.flatMap Dirent.encode))
    rw [List.flatMap_cons, hb, parse, ← hb, hd.decode_encode]
    simp [ih]

namespace Ramfs

variable {fs : Ramfs} {buf : UserBuf} {index pos : Nat} {es : List (Name × Nat)} {written : List UInt8}

/-- The records of entries that stand in a row from a position on. -/
def direntsOf (fs : Ramfs) : Nat → List (Name × Nat) → List Dirent
  | _, [] => []
  | pos, e :: es => fs.direntOf pos e :: fs.direntsOf (pos + 1) es

@[simp] theorem length_direntsOf (fs : Ramfs) (pos : Nat) (es : List (Name × Nat)) :
    (fs.direntsOf pos es).length = es.length := by
  induction es generalizing pos with
  | nil => rfl
  | cons e es ih => simp [direntsOf, ih]

theorem direntOf_fit {e : Name × Nat} (h : (0 : UInt8) ∉ e.1.bytes) : (fs.direntOf pos e).Fit := ⟨h, e.1.short, rfl⟩

theorem direntsOf_fit (h : ∀ e ∈ es, (0 : UInt8) ∉ e.1.bytes) : ∀ d ∈ fs.direntsOf pos es, d.Fit := by
  induction es generalizing pos with
  | nil => simp [direntsOf]
  | cons e es ih =>
    intro d hd
    rcases List.mem_cons.1 hd with rfl | hd
    · exact direntOf_fit (h e (List.mem_cons_self ..))
    · exact ih (fun x hx => h x (List.mem_cons_of_mem _ hx)) d hd

/-- The bytes of the records. -/
def encoded (fs : Ramfs) (pos : Nat) (es : List (Name × Nat)) : List UInt8 :=
    (fs.direntsOf pos es).flatMap Dirent.encode

/-- The offset behind the records of some entries. -/
def offsetOf (es : List (Name × Nat)) : Nat := (es.map fun e => direntReclen e.1.bytes.length).sum

theorem length_encode_direntOf (fs : Ramfs) (pos : Nat) (e : Name × Nat) :
    (fs.direntOf pos e).encode.length = direntReclen e.1.bytes.length := by
  have hroom := le_direntReclen e.1.bytes.length
  simp only [direntOf, Dirent.encode, List.length_append, length_toUInt8s, List.length_singleton, List.length_replicate]
  unfold nameOffset at hroom ⊢
  omega

@[simp] theorem length_encoded (fs : Ramfs) (pos : Nat) (es : List (Name × Nat)) :
    (fs.encoded pos es).length = offsetOf es := by
  induction es generalizing pos with
  | nil => rfl
  | cons e es ih =>
    have h : fs.encoded pos (e :: es) = (fs.direntOf pos e).encode ++ fs.encoded (pos + 1) es := rfl
    rw [h, List.length_append, ih, length_encode_direntOf, offsetOf, offsetOf, List.map_cons, List.sum_cons]

/-- How the loop ends when it has written the records of the first `k` entries. -/
inductive Ends (fs : Ramfs) (buf : UserBuf) (pos : Nat) (es : List (Name × Nat)) (written : List UInt8) :
    Except Errno (List UInt8) × Nat → Prop
  | ok (k : Nat) (hk : k ≤ es.length) (hroom : written.length + offsetOf (es.take k) ≤ buf.count)
      (hstop : k = es.length ∨ buf.count < written.length + offsetOf (es.take (k + 1)) ∧
        0 < written.length + offsetOf (es.take k)) :
      Ends fs buf pos es written (.ok (written ++ fs.encoded pos (es.take k)), pos + k)
  | small (e : Name × Nat) (he : es.head? = some e) (hw : written = [])
    (hsmall : buf.count < direntReclen e.1.bytes.length) :
      Ends fs buf pos es written (.error .inval, pos)

theorem offsetOf_cons (e : Name × Nat) (es : List (Name × Nat)) :
    offsetOf (e :: es) = direntReclen e.1.bytes.length + offsetOf es := rfl

theorem Ends.cons {e : Name × Nat} {r : Except Errno (List UInt8) × Nat}
    (h : Ends fs buf (pos + 1) es (written ++ (fs.direntOf pos e).encode) r) : Ends fs buf pos (e :: es) written r := by
  have hwritten : (written ++ (fs.direntOf pos e).encode).length = written.length + direntReclen e.1.bytes.length := by
    rw [List.length_append, length_encode_direntOf]
  cases h with
  | ok k hk hroom hstop =>
    rw [hwritten] at hroom hstop
    rw [List.append_assoc, Nat.add_assoc, Nat.add_comm 1 k]
    refine Ends.ok (k + 1) (Nat.succ_le_succ hk) ?_ ?_
    · rw [List.take_succ_cons, offsetOf_cons]
      omega
    · refine hstop.imp (congrArg (· + 1)) fun hstop => ?_
      rw [List.take_succ_cons, List.take_succ_cons, offsetOf_cons, offsetOf_cons]
      omega
  | small x hx hw hsmall => simp [Dirent.encode] at hw

theorem readdirLoop_ends : ∀ {es : List (Name × Nat)} {pos : Nat} {written : List UInt8}, index ≤ pos →
    written.length ≤ buf.count → Ends fs buf pos es written (fs.readdirLoop buf index pos es written pos)
  | [], pos, written, _, hw => by
    have h : Ends fs buf pos [] written (.ok (written ++ fs.encoded pos ([].take 0)), pos + 0) :=
      .ok 0 (Nat.le_refl 0) (by simpa [offsetOf] using hw) (.inl rfl)
    simpa [encoded, direntsOf, readdirLoop] using h
  | e :: es, pos, written, hpos, hw => by
    have hkbuf : ¬ direntReclen e.1.bytes.length > 24 + nameMax + 8 := by
      have := direntReclen_le e.1.short
      unfold nameMax
      omega
    have hfirst : offsetOf ((e :: es).take 1) = direntReclen e.1.bytes.length := by simp [offsetOf]
    have hreclen : (fs.direntOf pos e).reclen = direntReclen e.1.bytes.length := rfl
    unfold readdirLoop
    rw [if_neg (by omega)]
    dsimp only
    rw [hreclen, if_neg hkbuf]
    split_ifs with hcount hzero
    · exact .small e rfl (List.length_eq_zero_iff.1 hzero) (by omega)
    · have h : Ends fs buf pos (e :: es) written (.ok (written ++ fs.encoded pos ((e :: es).take 0)), pos + 0) := by
        refine .ok 0 (Nat.zero_le _) (by simpa [offsetOf] using hw) (.inr ⟨by rw [hfirst]; omega, ?_⟩)
        simp [offsetOf]
        omega
      simpa [encoded, direntsOf] using h
    · refine Ends.cons (readdirLoop_ends (by omega) ?_)
      rw [List.length_append, length_encode_direntOf]
      omega

theorem readdirLoop_skip : ∀ {l : List (Name × Nat)} {pos fPos : Nat}, pos ≤ index →
    fs.readdirLoop buf index pos l written fPos = fs.readdirLoop buf index index (l.drop (index - pos)) written fPos
  | [], _, _, _ => by simp [readdirLoop]
  | e :: l, pos, fPos, hpos => by
    rcases Nat.lt_or_eq_of_le hpos with hlt | rfl
    · rw [readdirLoop, if_pos hlt, readdirLoop_skip hlt]
      have hdrop : index - pos = index - (pos + 1) + 1 := by omega
      rw [hdrop, List.drop_succ_cons]
    · simp

theorem dirReaddir_ends {dir : Nat} (fPos : Nat) (hdir : fs.isDir dir = true) (haddr : buf.addr ≠ 0)
    (hcount : buf.count ≠ 0) : Ends fs buf fPos ((fs.childrenOf dir).drop fPos) [] (fs.dirReaddir dir fPos buf) := by
  unfold dirReaddir
  rw [if_neg (by simpa using hdir), if_neg haddr, if_neg hcount, readdirLoop_skip (Nat.zero_le _)]
  exact readdirLoop_ends (Nat.le_refl _) (Nat.zero_le _)

end Ramfs

end MiniOs.Fs
