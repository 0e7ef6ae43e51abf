/-
Unpacking stays inside the archive exactly as far as the names in it end: headers, payloads and the local
buffers are bounded for every archive, but names are read as strings, up to a NUL or to the end of the
buffer they are copied to.
-/
import MiniOs.Fs.Initramfs
import MiniOs.Proofs.Fs.Components

namespace MiniOs.Fs

open Library
open Mm (kernelVirtBase virtMemEnd physMemSize)

/-! ## Pointers -/

namespace Archive

variable {a : Archive} {p n : Nat} {e : CpioEntry}

theorem fin_lt (a : Archive) : a.fin + 2 ^ 34 < 2 ^ 64 := by
  have h := a.fits
  unfold virtMemEnd kernelVirtBase physMemSize at h
  unfold fin
  omega

/-- A pointer that is not behind the end does not wrap. -/
theorem advance_eq (hp : p ≤ a.fin) (hn : n ≤ 2 ^ 32) : advance p n = p + n := by
  have h := a.fin_lt
  unfold advance
  omega

theorem align_bounds (hp : p ≤ a.fin + 2 ^ 32) : p ≤ cpioAlignUpPtr p ∧ cpioAlignUpPtr p < p + 4 := by
  have h := a.fin_lt
  unfold cpioAlignUpPtr
  omega

theorem length_rest (hp : a.base ≤ p) : (a.rest p).length = a.fin - p := by
  unfold rest fin
  rw [List.length_drop]
  omega

/-! ## Headers -/

theorem cpioDigit_lt (c : UInt8) : cpioDigit c < 16 := by
  unfold cpioDigit
  split_ifs with h1 h2 h3
  · have := UInt8.le_iff_toNat_le.1 h1.2
    simp at this
    omega
  · have := UInt8.le_iff_toNat_le.1 h2.2
    simp at this
    omega
  · have := UInt8.le_iff_toNat_le.1 h3.2
    simp at this
    omega
  · omega

theorem cpioHex_lt : ∀ {n : Nat} {s : List UInt8} {v : Nat}, n ≤ s.length → ∃ w, cpioHex n s v = some w ∧
    w < (v + 1) * 16 ^ n
  | 0, s, v, _ => ⟨v, rfl, by simp⟩
  | n + 1, c :: s, v, h => by
    obtain ⟨w, hw, hlt⟩ := cpioHex_lt (n := n) (s := s) (v := v * 16 + cpioDigit c) (by simpa using h)
    refine ⟨w, hw, Nat.lt_of_lt_of_le hlt ?_⟩
    have hd := cpioDigit_lt c
    rw [Nat.pow_succ', ← Nat.mul_assoc]
    exact Nat.mul_le_mul_right _ (by omega)

/-- Eight digits at an offset of the header. -/
theorem exists_field (hp : a.base ≤ p) (hroom : p + cpioHdrSize ≤ a.fin) {k : Nat} (hk : k ≤ 102) :
    ∃ w, cpioHex 8 ((a.rest p).drop k) 0 = some w ∧ w < 2 ^ 32 := by
  have hlen : 8 ≤ ((a.rest p).drop k).length := by
    rw [List.length_drop, length_rest hp]
    unfold cpioHdrSize at hroom
    omega
  obtain ⟨w, hw, hlt⟩ := cpioHex_lt (v := 0) hlen
  exact ⟨w, hw, by simpa using hlt⟩

theorem exists_magic (hp : a.base ≤ p) (hroom : p + cpioHdrSize ≤ a.fin) : ∃ b, cpioMagic (a.rest p) = some b := by
  have hlen : 6 ≤ (a.rest p).length := by
    rw [length_rest hp]
    unfold cpioHdrSize at hroom
    omega
  match hr : a.rest p with
  | _ :: _ :: _ :: _ :: _ :: _ :: _ => exact ⟨_, rfl⟩
  | [] | [_] | [_, _] | [_, _, _] | [_, _, _, _] | [_, _, _, _, _] =>
    rw [hr] at hlen
    simp at hlen

/-- Where the parts of an entry lie. -/
structure Inside (a : Archive) (p : Nat) (e : CpioEntry) : Prop where
  name : a.base ≤ e.name ∧ e.name < a.fin
  payload : a.base ≤ e.payload ∧ e.payload + e.filesize ≤ a.fin
  next : p < e.next ∧ e.next ≤ a.fin

theorem Inside.filesize_le (h : a.Inside p e) : e.filesize ≤ 2 ^ 32 := by
  have hfits := a.fits
  obtain ⟨h1, h2⟩ := h.payload
  have hbase := a.mapped
  unfold virtMemEnd physMemSize at hfits
  unfold fin at h2
  omega

/-- Reading a header stays inside, and so does what it says. -/
theorem header_inside (hbase : a.base ≤ p) (hp : p ≤ a.fin) :
    ∃ h, a.header p = some h ∧ ∀ e, h = .entry e → a.Inside p e := by
  have hadv := advance_eq hp (n := cpioHdrSize) (by unfold cpioHdrSize; omega)
  unfold header
  rw [hadv]
  by_cases hroom : p + cpioHdrSize ≤ a.fin
  · obtain ⟨b, hb⟩ := exists_magic hbase hroom
    obtain ⟨namesize, hnamesize, hn⟩ := exists_field hbase hroom (k := 94) (by omega)
    obtain ⟨filesize, hfilesize, hf⟩ := exists_field hbase hroom (k := 54) (by omega)
    obtain ⟨mode, hmode, -⟩ := exists_field hbase hroom (k := 14) (by omega)
    have hname : advance (p + cpioHdrSize) namesize = p + cpioHdrSize + namesize := advance_eq hroom (by omega)
    rw [if_neg (not_not.2 hroom)]
    simp only [hb, hnamesize, hfilesize, hmode, hname, Option.bind_eq_bind, Option.bind_some, Option.pure_def]
    by_cases hmagic : b = true
    · rw [if_neg (not_not.2 hmagic)]
      by_cases hlong : p + cpioHdrSize + namesize > a.fin
      · exact ⟨.bad, by rw [if_pos hlong], by simp⟩
      · rw [if_neg hlong]
        by_cases hzero : namesize = 0
        · exact ⟨.bad, by rw [if_pos hzero], by simp⟩
        · have hpayload := align_bounds (a := a) (p := p + cpioHdrSize + namesize) (by omega)
          rw [if_neg hzero]
          generalize cpioAlignUpPtr (p + cpioHdrSize + namesize) = payload at hpayload ⊢
          by_cases hbehind : payload > a.fin
          · exact ⟨.bad, by rw [if_pos hbehind], by simp⟩
          · have hadvance : advance payload filesize = payload + filesize := advance_eq (a := a) (by omega) (by omega)
            have hnext := align_bounds (a := a) (p := payload + filesize) (by omega)
            rw [if_neg hbehind, hadvance]
            generalize cpioAlignUpPtr (payload + filesize) = next at hnext ⊢
            by_cases hend : next > a.fin
            · exact ⟨.bad, by rw [if_pos hend], by simp⟩
            · refine ⟨.entry ⟨p + cpioHdrSize, filesize, mode, payload, next⟩, by rw [if_neg hend], ?_⟩
              rintro e ⟨⟩
              constructor
              · dsimp only
                omega
              · dsimp only
                omega
              · dsimp only
                omega
    · exact ⟨.bad, by rw [if_pos hmagic], by simp⟩
  · rw [if_pos hroom]
    exact ⟨.done, rfl, by simp⟩

end Archive

/-! ## Names -/

/-- What `path_normalize` skips. -/
def skipped : List UInt8 → Nat
  | c :: d :: _ => if c ≠ dot then 0 else if d = slash then 2 else 1
  | _ => 0

/-- The bytes from a name on hold a NUL, or more than fits into a path. -/
def NameEnds (name : List UInt8) : Prop := 0 ∈ name ∨ skipped name + pathCap ≤ name.length + 1

/-- Comparing stays inside when there is a NUL, or more bytes than the literal has. -/
theorem cpioStreq_isSome : ∀ {name lit : List UInt8}, 0 ∈ name ∨ lit.length < name.length → (cpioStreq name lit).isSome
  | [], _, h => by simp at h
  | _ :: _, [], _ => rfl
  | c :: name, x :: lit, h => by
    unfold cpioStreq
    split_ifs with hc
    · refine cpioStreq_isSome ?_
      rcases h with h | h
      · exact .inl ((List.mem_cons.1 h).resolve_left fun he => hc.1 he.symm)
      · exact .inr (by simpa using h)
    · rfl

/-- Two strings that are equal end with a NUL. -/
theorem zero_mem_of_cpioStreq : ∀ {name lit : List UInt8}, cpioStreq name lit = some true → 0 ∉ lit → 0 ∈ name
  | c :: name, [], h, _ => by
    have hc : c = 0 := by simpa [cpioStreq] using h
    exact hc ▸ List.mem_cons_self ..
  | c :: name, x :: lit, h, hl => by
    unfold cpioStreq at h
    split_ifs at h with hc
    · exact List.mem_cons_of_mem _ (zero_mem_of_cpioStreq h fun hm => hl (List.mem_cons_of_mem _ hm))
    · have hcx : c = x := by simpa using h
      by_cases hz : c = 0
      · exact hz ▸ List.mem_cons_self ..
      · exact absurd ⟨hz, hcx⟩ hc

theorem terminate_eq {cap : Nat} {out : List UInt8} (h : out.length < cap) : terminate cap out = some out := if_pos h

theorem put_eq {cap : Nat} {out : List UInt8} {c : UInt8} (h : out.length < cap) : put cap out c = some (out ++ [c]) :=
    if_pos h

theorem foldlM_put {cap : Nat} : ∀ {l out : List UInt8}, out.length + l.length ≤ cap →
    l.foldlM (put cap) out = some (out ++ l)
  | [], out, _ => by simp
  | c :: l, out, h => by
    rw [List.length_cons] at h
    rw [List.foldlM_cons, put_eq (by omega), Option.bind_eq_bind, Option.bind_some,
      foldlM_put (by rw [List.length_append, List.length_singleton]; omega), List.append_assoc, List.singleton_append]

/-- The copying loop of `path_normalize` ends at a NUL or when the path is full, and needs one of them. -/
theorem normalizeLoop_isSome_iff {cap : Nat} : ∀ {name out : List UInt8}, out.length < cap →
    ((normalizeLoop cap name out).isSome ↔ 0 ∈ name ∨ cap ≤ out.length + name.length)
  | [], out, h => by
    simp [normalizeLoop]
    omega
  | c :: name, out, h => by
    unfold normalizeLoop
    split_ifs with hz hfull
    · simp [terminate_eq h, hz]
    · simp
      omega
    · have hlt : (out ++ [c]).length < cap := by
        rw [List.length_append, List.length_singleton]
        omega
      have hne : (0 : UInt8) ≠ c := Ne.symm hz
      have hlen : (out ++ [c]).length + name.length = out.length + (c :: name).length := by
        simp only [List.length_append, List.length_cons, List.length_nil]
        omega
      rw [put_eq h, Option.bind_some, normalizeLoop_isSome_iff hlt, hlen]
      simp [hne]

theorem pathNormalize_isSome_iff {name : List UInt8} (hne : name ≠ []) :
    (pathNormalize name pathCap).isSome ↔ NameEnds name := by
  have hput : put pathCap [] slash = some [slash] := put_eq (by decide)
  have hcap : ([slash] : List UInt8).length < pathCap := by decide
  unfold pathNormalize
  simp only [hput, Option.bind_eq_bind, Option.bind_some]
  unfold NameEnds
  cases name with
  | nil => exact absurd rfl hne
  | cons c name =>
    dsimp only
    split_ifs with hdot
    · have hskip : skipped (c :: name) = 0 := by
        cases name <;> simp [skipped, hdot]
      rw [normalizeLoop_isSome_iff hcap, hskip]
      refine or_congr Iff.rfl ?_
      simp only [List.length_cons, List.length_nil]
      omega
    · obtain rfl : c = dot := not_not.1 hdot
      have hzdot : (0 : UInt8) ≠ dot := by decide
      cases name with
      | nil => simp [skipped, pathCap, nameMax, dot]
      | cons d rest =>
        dsimp only
        rw [normalizeLoop_isSome_iff hcap]
        by_cases hslash : d = slash
        · subst hslash
          have hne' : (0 : UInt8) ≠ slash := by decide
          refine or_congr (by simp [hzdot, hne']) ?_
          simp [skipped]
          omega
        · refine or_congr (by simp [hslash, hzdot]) ?_
          simp [skipped, hslash]
          omega

/-! ## Directories -/

theorem lastSlash_le (path : List UInt8) : ∀ n, lastSlash path n ≤ n
  | 0 => Nat.le_refl 0
  | n + 1 => by
    unfold lastSlash
    split_ifs
    · exact Nat.le_succ_of_le (lastSlash_le path n)
    · exact Nat.le_refl _

/-- The stores of `parent_dir` stay inside `pdir`. -/
theorem parentDir_cases (path : List UInt8) :
    parentDir path = some (.error .inval) ∨ ∃ pdir, parentDir path = some (.ok pdir) ∧ pdir.length ≤ nameMax := by
  unfold parentDir
  have hle := lastSlash_le path path.length
  generalize lastSlash path path.length = i at hle
  dsimp only
  split_ifs with hhead hroot hlong
  · exact .inl rfl
  · exact .inr ⟨_, rfl, by decide⟩
  · exact .inl rfl
  · right
    have hlen : (path.take i).length ≤ nameMax := by
      rw [List.length_take]
      omega
    rw [foldlM_put (by unfold pathCap; simp at hlen ⊢; omega), List.nil_append, Option.bind_some,
      terminate_eq (by unfold pathCap; omega)]
    exact ⟨_, rfl, hlen⟩

namespace Ramfs

variable {fs : Ramfs} {a : Archive} {e : CpioEntry} {p : Nat}

/-- The stores of `ramfs_mkdir_p` stay inside `partial`, and its loop ends. -/
theorem mkdirPLoop_isSome : ∀ {n : Nat} {fs : Ramfs} {path : List UInt8}, path.length < n → path.length ≤ nameMax →
    (mkdirPLoop n fs path).isSome
  | n + 1, fs, path, hn, hlen => by
    unfold mkdirPLoop
    by_cases hnil : path = []
    · rw [if_pos hnil]
      rfl
    · have hpos := List.length_pos_of_ne_nil hnil
      -- a slash or the first byte of a component is taken
      have hskip : (if path.head? = some slash then path.drop 1 else path).length ≤ path.length := by
        split_ifs <;> simp
      have hround : ((if path.head? = some slash then path.drop 1 else path).drop
          (component (if path.head? = some slash then path.drop 1 else path)).length).length < path.length := by
        split_ifs with hslash
        · rw [List.length_drop, List.length_drop]
          omega
        · have hcomp := List.length_pos_of_ne_nil (component_ne_nil hnil hslash)
          rw [List.length_drop]
          omega
      rw [if_neg hnil]
      generalize (if path.head? = some slash then path.drop 1 else path) = path' at hskip hround ⊢
      have hcomp : (component path').length ≤ path'.length := (List.takeWhile_sublist _).length_le
      have hpart : ([slash] ++ component path').length < pathCap := by
        rw [List.length_append, List.length_singleton]
        unfold pathCap
        omega
      have ih : ∀ fs, (mkdirPLoop n fs (path'.drop (component path').length)).isSome :=
        fun fs => mkdirPLoop_isSome (by omega) (by omega)
      dsimp only
      rw [foldlM_put (by rw [List.length_append] at hpart; omega), Option.bind_eq_bind, Option.bind_some,
        terminate_eq hpart, Option.bind_some]
      by_cases hempty : component path' = []
      · rw [if_pos hempty]
        exact ih fs
      · rw [if_neg hempty]
        generalize fs.mkdir ([slash] ++ component path') = r
        obtain ⟨res, fs1⟩ := r
        cases res with
        | error err =>
          dsimp only
          split_ifs
          · rfl
          · exact ih fs1
        | ok o => exact ih fs1

theorem mkdirP_isSome {path : List UInt8} (h : path.length ≤ nameMax) : (fs.mkdirP path).isSome := by
  unfold mkdirP
  split_ifs with hhead hroot
  · rfl
  · rfl
  · have hne : path ≠ [] := by
      rintro rfl
      simp at hhead
    have hpos := List.length_pos_of_ne_nil hne
    exact mkdirPLoop_isSome (by simp; omega) (by simp; omega)

end Ramfs

/-- A write of not too many bytes at the start of a file returns. -/
theorem FileData.write_isSome {f : FileData} {buf : List UInt8} {m : Option Buffer} (h : buf.length ≤ 2 ^ 32) :
    (f.write 64 buf 0 m).isSome := by
  have hensure : ∀ need, need ≤ 2 ^ 32 → ∃ r, f.ensureCapacity 64 need m = some r := by
    intro need hneed
    obtain ⟨c, hc⟩ : ∃ c, doubleUntil 64 64 (if f.capacity ≠ 0 then f.capacity else filePage) need = some c := by
      have hpos : 0 < if f.capacity ≠ 0 then f.capacity else filePage := by
        split_ifs with hcap
        · omega
        · decide
      have hle := Nat.mul_le_mul_right (2 ^ 63) hpos
      exact Option.isSome_iff_exists.1 (doubleUntil_isSome (k := 63) hpos (by omega) (by omega))
    unfold ensureCapacity
    rw [hc]
    split_ifs
    · exact ⟨_, rfl⟩
    · exact ⟨_, rfl⟩
    · cases m <;> exact ⟨_, rfl⟩
  have hfin : (0 + buf.length) % 2 ^ 64 ≤ 2 ^ 32 := (Nat.mod_le _ _).trans (by omega)
  obtain ⟨⟨res, f1⟩, hr⟩ := hensure _ hfin
  unfold write
  dsimp only
  rw [hr]
  split_ifs
  · rfl
  · rfl
  · cases res <;> rfl

namespace Ramfs

variable {fs : Ramfs} {a : Archive} {e : CpioEntry} {p : Nat}

/-! ## Entries -/

theorem unlessFails_isSome {r : Except Errno (Option Nat) × Ramfs} {go : Ramfs → Option (Verdict × Ramfs)}
    (h : ∀ fs, (go fs).isSome) : (unlessFails r go).isSome := by
  obtain ⟨res, fs1⟩ := r
  unfold unlessFails
  cases res with
  | error err =>
    dsimp only
    split_ifs
    · rfl
    · exact h fs1
  | ok o => exact h fs1

theorem inParent_isSome {path : List UInt8} {go : Ramfs → Option (Verdict × Ramfs)} (h : ∀ fs, (go fs).isSome) :
    (fs.inParent path go).isSome := by
  unfold inParent
  rcases parentDir_cases path with hp | ⟨pdir, hp, hlen⟩
  · rw [hp]
    rfl
  · rw [hp, Option.bind_eq_bind, Option.bind_some]
    have hsome : (fs.mkdirP pdir).isSome := mkdirP_isSome hlen
    obtain ⟨⟨res, fs1⟩, hm⟩ := Option.isSome_iff_exists.1 hsome
    dsimp only
    rw [hm, Option.bind_eq_bind, Option.bind_some]
    cases res with
    | error err => rfl
    | ok u => exact h fs1

theorem write_isSome {i : Nat} {buf : List UInt8} (mem : Buffer) (h : buf.length ≤ 2 ^ 32) :
    (fs.write i buf 0 mem).isSome := by
  unfold write
  cases fs.inodes i with
  | none => rfl
  | some ri =>
    dsimp only
    generalize (if (decide (ri.type = .reg) && decide (0 ≤ (0 + buf.length) % 2 ^ 64) &&
      decide (ri.capacity < (0 + buf.length) % 2 ^ 64)) = true then fs.kmalloc else (true, fs)) = r
    obtain ⟨ok, fs1⟩ := r
    dsimp only
    rw [Option.isSome_map]
    generalize (if ok = true then some mem else none) = m
    exact FileData.write_isSome h

theorem readBytes_eq (h : a.Inside p e) {n : Nat} (hn : n ≤ e.filesize) :
    readBytes n (a.rest e.payload) = some ((a.rest e.payload).take n) := by
  refine if_pos ?_
  rw [Archive.length_rest h.payload.1]
  have hle := h.payload.2
  omega

theorem unpackFile_isSome (h : a.Inside p e) (path : List UInt8) (mem : Buffer) :
    (fs.unpackFile a e path mem).isSome := by
  refine inParent_isSome fun fs => unlessFails_isSome fun fs => ?_
  cases fs.lookup path with
  | none => rfl
  | some i =>
    dsimp only
    split_ifs
    · rfl
    · have hlen : ((a.rest e.payload).take e.filesize).length ≤ 2 ^ 32 := by
        rw [List.length_take]
        have := h.filesize_le
        omega
      rw [readBytes_eq h (Nat.le_refl _), Option.bind_eq_bind, Option.bind_some]
      have hsome : (fs.write i ((a.rest e.payload).take e.filesize) 0 mem).isSome := write_isSome mem hlen
      obtain ⟨⟨res, fs1⟩, hw⟩ := Option.isSome_iff_exists.1 hsome
      rw [hw, Option.bind_eq_bind, Option.bind_some]
      cases res <;> rfl

theorem unpackLink_isSome (h : a.Inside p e) (path : List UInt8) : (fs.unpackLink a e path).isSome := by
  unfold unpackLink
  split_ifs with hlong
  · rfl
  · refine inParent_isSome fun fs => ?_
    have hlen : ((a.rest e.payload).take e.filesize).length ≤ nameMax := by
      rw [List.length_take]
      omega
    have htrim : (((a.rest e.payload).take e.filesize).rdropWhile (· = 0)).length ≤ nameMax :=
      (List.rdropWhile_prefix _ _).length_le.trans hlen
    rw [readBytes_eq h (Nat.le_refl _), Option.bind_eq_bind, Option.bind_some,
      foldlM_put (by rw [List.length_nil]; omega), List.nil_append, Option.bind_some, terminate_eq (by omega),
      Option.bind_some]
    exact unlessFails_isSome fun fs => rfl

/-- A comparison with a literal does not change what is needed of the name: without a NUL they are not equal,
and a name that ends is compared inside the archive. -/
theorem streq_isSome_iff {α : Type} {name lit : List UInt8} {r : α} {go : Option α} (hlit : 0 ∉ lit)
    (hlen : lit.length < nameMax) (hgo : go.isSome ↔ NameEnds name) :
    ((cpioStreq name lit).bind fun b => if b = true then some r else go).isSome ↔ NameEnds name := by
  constructor
  · intro hsome
    cases hb : cpioStreq name lit with
    | none =>
      rw [hb] at hsome
      cases hsome
    | some b =>
      rw [hb, Option.bind_some] at hsome
      cases b with
      | true => exact .inl (zero_mem_of_cpioStreq hb hlit)
      | false => exact hgo.1 hsome
  · intro hends
    have hsome : (cpioStreq name lit).isSome := by
      refine cpioStreq_isSome (hends.imp_right fun hlong => ?_)
      unfold pathCap at hlong
      omega
    obtain ⟨b, hb⟩ := Option.isSome_iff_exists.1 hsome
    rw [hb, Option.bind_some]
    cases b with
    | true => rfl
    | false => exact hgo.2 hends

/-- An entry is unpacked inside the archive exactly when its name ends. -/
theorem unpackEntry_isSome_iff (h : a.Inside p e) (mem : Buffer) :
    (fs.unpackEntry a e mem).isSome ↔ NameEnds (a.rest e.name) := by
  have hne : a.rest e.name ≠ [] := by
    apply List.ne_nil_of_length_pos
    rw [Archive.length_rest h.name.1]
    have := h.name.2
    omega
  refine streq_isSome_iff (by decide) (by decide) ?_
  refine streq_isSome_iff (by decide) (by decide) ?_
  refine streq_isSome_iff (by decide) (by decide) ?_
  rw [← pathNormalize_isSome_iff hne, Option.bind_eq_bind]
  cases pathNormalize (a.rest e.name) pathCap with
  | none => rfl
  | some res =>
    simp only [Option.bind_some, Option.isSome_some, iff_true]
    cases res with
    | error err => rfl
    | ok path =>
      dsimp only
      split_ifs
      · exact unlessFails_isSome fun fs => rfl
      · exact unpackFile_isSome h path mem
      · exact unpackLink_isSome h path
      · rfl

/-! ## Whole archives -/

/-- The pointers that the loop comes to, with the file system it has then. -/
inductive Reached (a : Archive) (mem : Nat → Buffer) : Ramfs → Nat → Ramfs → Nat → Prop
  | here (fs : Ramfs) (p : Nat) : Reached a mem fs p fs p
  | next {fs fs' fs'' : Ramfs} {p q : Nat} {e : CpioEntry} (hheader : a.header p = some (.entry e))
      (hentry : fs.unpackEntry a e (mem e.payload) = some (.next, fs')) (h : Reached a mem fs' e.next fs'' q) :
      Reached a mem fs p fs'' q

/-- The names of all entries that the loop comes to end. -/
def NamesEnd (a : Archive) (mem : Nat → Buffer) (fs : Ramfs) (p : Nat) : Prop :=
  ∀ fs' q e, Reached a mem fs p fs' q → a.header q = some (.entry e) → NameEnds (a.rest e.name)

variable {mem : Nat → Buffer}

/-- Where no entry stands nothing more is reached. -/
theorem namesEnd_of_no_entry {hd : Header} (hheader : a.header p = some hd) (hno : ∀ e, hd ≠ .entry e) :
    NamesEnd a mem fs p := by
  intro fs' q e hreach he
  cases hreach with
  | here =>
    rw [hheader] at he
    exact absurd (Option.some.inj he) (hno e)
  | next he' =>
    rw [hheader] at he'
    exact absurd (Option.some.inj he') (hno _)

theorem namesEnd_entry (hheader : a.header p = some (.entry e)) : NamesEnd a mem fs p ↔ NameEnds (a.rest e.name) ∧
    ∀ fs', fs.unpackEntry a e (mem e.payload) = some (.next, fs') → NamesEnd a mem fs' e.next := by
  constructor
  · intro h
    exact ⟨h fs p e (.here fs p) hheader, fun fs' hentry fs'' q x hreach => h fs'' q x (.next hheader hentry hreach)⟩
  · rintro ⟨hname, hnext⟩ fs' q x hreach hx
    cases hreach with
    | here =>
      rw [hheader] at hx
      cases hx
      exact hname
    | next he hentry hreach =>
      rw [hheader] at he
      cases he
      exact hnext _ hentry _ _ _ hreach hx

theorem unpackLoop_isSome_iff : ∀ {n : Nat} {fs : Ramfs} {p : Nat}, a.base ≤ p → p ≤ a.fin → a.fin - p < n →
    ((unpackLoop a mem n fs p).isSome ↔ NamesEnd a mem fs p)
  | n + 1, fs, p, hbase, hp, hn => by
    obtain ⟨hd, hheader, hinside⟩ := Archive.header_inside hbase hp
    unfold unpackLoop
    rw [hheader, Option.bind_eq_bind, Option.bind_some]
    cases hd with
    | done => exact iff_of_true rfl (namesEnd_of_no_entry hheader fun e he => by cases he)
    | bad => exact iff_of_true rfl (namesEnd_of_no_entry hheader fun e he => by cases he)
    | entry e =>
      have hin := hinside e rfl
      have hbase' : a.base ≤ e.next := hbase.trans (Nat.le_of_lt hin.next.1)
      have hiff : (fs.unpackEntry a e (mem e.payload)).isSome ↔ NameEnds (a.rest e.name) := unpackEntry_isSome_iff hin _
      rw [namesEnd_entry hheader, ← hiff]
      dsimp only
      cases hentry : fs.unpackEntry a e (mem e.payload) with
      | none => simp
      | some r =>
        obtain ⟨verdict, fs1⟩ := r
        rw [Option.bind_eq_bind, Option.bind_some]
        cases verdict with
        | stop res => simp
        | next =>
          have hnext := hin.next
          dsimp only
          rw [unpackLoop_isSome_iff hbase' hnext.2 (by omega)]
          simp

/-- Unpacking ends and stays inside the archive and its buffers exactly when the name of every entry it comes
to ends: a NUL stands at or behind it in the archive, or more bytes than a path can take. -/
theorem unpackToRootfs_isSome_iff (fs : Ramfs) (a : Archive) (mem : Nat → Buffer) :
    (fs.unpackToRootfs a mem).isSome ↔ NamesEnd a mem fs a.base := by
  have hbase : a.base ≠ 0 := by
    have h := a.mapped
    unfold kernelVirtBase at h
    omega
  unfold unpackToRootfs
  rw [if_neg hbase]
  exact unpackLoop_isSome_iff (Nat.le_refl _) (Nat.le_add_right _ _) (by unfold Archive.fin; omega)

/-- A header for a name of two bytes, and the name `TR` at the end of the archive. -/
def unterminated : Archive where
  base := kernelVirtBase
  bytes := [48, 55, 48, 55, 48, 49] ++ List.replicate 95 48 ++ [50] ++ List.replicate 8 48 ++ [84, 82]
  mapped := Nat.le_refl _
  fits := by decide

/-- The comparison with the name of the trailer runs over the end of the archive. -/
theorem unpackToRootfs_unterminated : (init []).unpackToRootfs unterminated (fun _ _ => 0) = none := by rfl

end Ramfs

end MiniOs.Fs
