/-
Where the ELF loader reads. The sums `e_phoff + e_phnum * 56` and `p_offset + p_filesz` are compared with the length
of the file after they may have wrapped around; a table or a segment that wraps starts behind the end of the file, or
runs over it, and is read all the same.
-/
import MiniOs.Fs.Binfmt
import MiniOs.Proofs.Mm.PageClients
import MiniOs.Mm.MmSys

namespace MiniOs.Mm

/-! ## Memory

Which pages there are to take does not depend on what is stored in them. -/

variable {k k' : Kmem}

theorem Kmem.storeBytes_pa (k : Kmem) (p off : Nat) (bytes : List UInt8) : (k.storeBytes p off bytes).pa = k.pa := rfl

theorem allocPage_congr (h : k.pa = k'.pa) :
    ∃ o k1 k1', k.allocPage = (o, k1) ∧ k'.allocPage = (o, k1') ∧ k1.pa = k1'.pa := by
  unfold Kmem.allocPage
  rw [h]
  generalize k'.pa.allocPages 0 = r
  obtain ⟨o, pa⟩ := r
  cases o <;> exact ⟨_, _, _, rfl, rfl, rfl⟩

theorem freePage_congr (h : k.pa = k'.pa) (p : Nat) : (k.freePage p).pa = (k'.freePage p).pa := by
  have hfree (k : Kmem) : (k.freePage p).pa = k.pa.freePages (k.pa.pfnToAddr p) 0 := rfl
  rw [hfree, hfree, h]

/-- The same results, and the same pages left. -/
def SamePages {α β : Type} (r r' : α × β × Kmem) : Prop := r.1 = r'.1 ∧ r.2.1 = r'.2.1 ∧ r.2.2.pa = r'.2.2.pa

theorem SamePages.elim {α β : Type} {r r' : α × β × Kmem} (h : SamePages r r') :
    ∃ a b k k', r = (a, b, k) ∧ r' = (a, b, k') ∧ k.pa = k'.pa := by
  obtain ⟨a, b, k⟩ := r
  obtain ⟨a', b', k'⟩ := r'
  obtain ⟨rfl, rfl, hpa⟩ := h
  exact ⟨a, b, k, k', rfl, rfl, hpa⟩

theorem getOrCreateTable_congr {α : Type} (empty : Nat → α) (h : k.pa = k'.pa) (t : Node α) (i : Fin 512) :
    SamePages (getOrCreateTable empty k t i) (getOrCreateTable empty k' t i) := by
  unfold getOrCreateTable
  cases t.ent i with
  | some c => exact ⟨rfl, rfl, h⟩
  | none =>
    obtain ⟨o, k1, k1', e, e', hpa⟩ := allocPage_congr h
    rw [e, e']
    cases o <;> exact ⟨rfl, rfl, hpa⟩

theorem mapPage_congr (h : k.pa = k'.pa) (t : L1) (va : Nat) (pte : BitVec 64) :
    SamePages (mapPage k t va pte) (mapPage k' t va pte) := by
  obtain ⟨o, t1, k1, k1', e, e', hpa⟩ := (getOrCreateTable_congr Node.empty h t (l1Idx va)).elim
  unfold mapPage
  rw [e, e']
  cases o with
  | none => exact ⟨rfl, rfl, hpa⟩
  | some l2 =>
    obtain ⟨o, l2, k2, k2', e, e', hpa⟩ := (getOrCreateTable_congr L3.empty hpa l2 (l2Idx va)).elim
    dsimp only
    rw [e, e']
    cases o <;> exact ⟨rfl, rfl, hpa⟩

theorem doMapLoop_congr (prot : BitVec 64) : ∀ (vas : List Nat) (kva : Nat) {k k' : Kmem} (_ : k.pa = k'.pa) (t : L1),
    SamePages (doMapLoop prot vas kva k t) (doMapLoop prot vas kva k' t)
  | [], _, _, _, h, _ => ⟨rfl, rfl, h⟩
  | va :: vas, kva, k, k', h, t => by
    obtain ⟨ok, t1, k1, k1', e, e', hpa⟩ := (mapPage_congr h t va (mkPte kva (protToPte prot))).elim
    unfold doMapLoop
    rw [e, e']
    cases ok with
    | false => exact ⟨rfl, rfl, hpa⟩
    | true => exact doMapLoop_congr prot vas (kva + pageSize) hpa t1

theorem doMap_congr (h : k.pa = k'.pa) (t : L1) (virt kva size : Nat) (prot : BitVec 64) :
    SamePages (doMap k t virt kva size prot) (doMap k' t virt kva size prot) := by
  unfold doMap
  split_ifs
  · exact ⟨rfl, rfl, h⟩
  · exact doMapLoop_congr prot _ kva h t

end MiniOs.Mm

namespace MiniOs.Fs

open Library.Bytes
open Mm

theorem newPage_congr {k k' : Kmem} (h : k.pa = k'.pa) (t : L1) (va : Nat) (prot : BitVec 64) :
    SamePages (newPage k t va prot) (newPage k' t va prot) := by
  obtain ⟨o, k1, k1', e, e', hpa⟩ := allocPage_congr h
  unfold newPage
  rw [e, e']
  cases o with
  | none => exact ⟨rfl, rfl, hpa⟩
  | some p =>
    have hzero : (k1.pageZero p).pa = (k1'.pageZero p).pa := hpa
    obtain ⟨ok, t2, k2, k2', e, e', hpa2⟩ := (doMap_congr hzero t va (k1'.pa.pfnToAddr p) pageSize prot).elim
    dsimp only
    rw [hpa, e, e']
    cases ok with
    | true => exact ⟨rfl, rfl, hpa2⟩
    | false =>
      have hfree := freePage_congr hpa2 p
      dsimp only
      generalize k2.freePage p = k3 at hfree ⊢
      generalize k2'.freePage p = k3' at hfree ⊢
      exact ⟨rfl, rfl, hfree⟩

/-- How many of the pages memory gives. -/
def pagesGiven (prot : BitVec 64) : List Nat → Kmem → L1 → Nat
  | [], _, _ => 0
  | va :: vas, k, pgd =>
    match newPage k pgd va prot with
    | (none, _, _) => 0
    | (some _, pgd, k) => pagesGiven prot vas k pgd + 1

theorem pagesGiven_congr (prot : BitVec 64) : ∀ (vas : List Nat) {k k' : Kmem} (_ : k.pa = k'.pa) (t : L1),
    pagesGiven prot vas k t = pagesGiven prot vas k' t
  | [], _, _, _, _ => rfl
  | va :: vas, k, k', h, t => by
    obtain ⟨o, t1, k1, k1', e, e', hpa⟩ := (newPage_congr h t va prot).elim
    unfold pagesGiven
    rw [e, e']
    cases o with
    | none => rfl
    | some p => exact congrArg (· + 1) (pagesGiven_congr prot vas hpa t1)

/-! ## Reads -/

namespace ElfFile

variable {f : ElfFile} {off n : Nat}

theorem len_lt (f : ElfFile) : f.len < 2 ^ 63 := by
  have h := f.fits
  unfold physMemSize at h
  unfold len
  omega

/-- The bytes from `off` on are bytes of the file. -/
def Inside (f : ElfFile) (off n : Nat) : Prop := n = 0 ∨ off + n ≤ f.len

theorem read_succ (f : ElfFile) (off n : Nat) :
    f.read off (n + 1) = (f.bytes[off % 2 ^ 64]?).bind fun b => (f.read (off + 1) n).bind fun bs =>
      some (b :: bs) := rfl

theorem read_isSome_iff : ∀ {n off : Nat}, (f.read off n).isSome ↔ ∀ i, i < n → (off + i) % 2 ^ 64 < f.len
  | 0, off => by simp [read]
  | n + 1, off => by
    have ih : (f.read (off + 1) n).isSome ↔ ∀ i, i < n → (off + 1 + i) % 2 ^ 64 < f.len := read_isSome_iff
    have hsplit : (∀ i, i < n + 1 → (off + i) % 2 ^ 64 < f.len) ↔
        off % 2 ^ 64 < f.len ∧ ∀ i, i < n → (off + 1 + i) % 2 ^ 64 < f.len := by
      constructor
      · intro h
        refine ⟨h 0 (by omega), fun i hi => ?_⟩
        rw [Nat.add_assoc, Nat.add_comm 1 i]
        exact h (i + 1) (by omega)
      · rintro ⟨hzero, hsucc⟩ i hi
        cases i with
        | zero => exact hzero
        | succ i =>
          rw [Nat.add_comm i 1, ← Nat.add_assoc]
          exact hsucc i (by omega)
    rw [hsplit, ← ih, read_succ]
    by_cases hlt : off % 2 ^ 64 < f.len
    · rw [List.getElem?_eq_getElem hlt, Option.bind_some, and_iff_right hlt]
      cases f.read (off + 1) n <;> rfl
    · rw [List.getElem?_eq_none (Nat.le_of_not_lt hlt)]
      exact iff_of_false (by simp) fun h => hlt h.1

/-- An offset that does not wrap by itself can be read from when the bytes end inside the file. -/
theorem forall_mod_lt_iff (hoff : off < 2 ^ 64) : (∀ i, i < n → (off + i) % 2 ^ 64 < f.len) ↔ f.Inside off n := by
  have hlen := f.len_lt
  constructor
  · intro h
    by_contra hout
    unfold Inside at hout
    have hfirst := h 0 (by omega)
    -- the first byte is in the file, so the run reaches its end before it can wrap
    have hend := h (f.len - off) (by omega)
    omega
  · rintro (rfl | hle) i hi
    · omega
    · omega

theorem inside_iff (hoff : off < 2 ^ 64) : (f.read off n).isSome ↔ f.Inside off n := by
  rw [read_isSome_iff, forall_mod_lt_iff hoff]

theorem length_read : ∀ {n off : Nat} {bs : List UInt8}, f.read off n = some bs → bs.length = n
  | 0, off, bs, h => by
    cases h
    rfl
  | n + 1, off, bs, h => by
    rw [read_succ] at h
    obtain ⟨b, -, h⟩ := Option.bind_eq_some_iff.1 h
    obtain ⟨rest, hrest, h⟩ := Option.bind_eq_some_iff.1 h
    cases h
    rw [List.length_cons, length_read hrest]

theorem word_lt {w : Nat} (h : f.word off n = some w) : w < 256 ^ n := by
  obtain ⟨bs, hbs, rfl⟩ := Option.map_eq_some_iff.1 h
  rw [← length_read hbs]
  exact ofUInt8s_lt bs

theorem word_inside (f : ElfFile) (off n : Nat) (h : off + n ≤ f.len) : ∃ w, f.word off n = some w := by
  have hlen := f.len_lt
  have hread : (f.read off n).isSome := (inside_iff (by omega)).2 (Or.inr h)
  unfold word
  rwa [← Option.isSome_iff_exists, Option.isSome_map]

theorem ehdr_inside (h : ehdrSize ≤ f.len) : ∃ e, f.ehdr = some e := by
  unfold ehdrSize at h
  have hread : (f.read 0 6).isSome := (inside_iff (by omega)).2 (Or.inr (by omega))
  obtain ⟨ident, hident⟩ := Option.isSome_iff_exists.1 hread
  obtain ⟨type, htype⟩ := f.word_inside 16 2 (by omega)
  obtain ⟨machine, hmachine⟩ := f.word_inside 18 2 (by omega)
  obtain ⟨entry, hentry⟩ := f.word_inside 24 8 (by omega)
  obtain ⟨phoff, hphoff⟩ := f.word_inside 32 8 (by omega)
  obtain ⟨phnum, hphnum⟩ := f.word_inside 56 2 (by omega)
  refine ⟨⟨ident, type, machine, entry, phoff, phnum⟩, ?_⟩
  simp [ehdr, hident, htype, hmachine, hentry, hphoff, hphnum]

/-- A header of the table is read when it ends inside the file. -/
theorem phdr_inside (h : off + phdrSize ≤ f.len) : ∃ o, f.phdr off = some o := by
  unfold phdrSize at h
  obtain ⟨type, htype⟩ := f.word_inside off 4 (by omega)
  obtain ⟨flags, hflags⟩ := f.word_inside (off + 4) 4 (by omega)
  obtain ⟨offset, hoffset⟩ := f.word_inside (off + 8) 8 (by omega)
  obtain ⟨vaddr, hvaddr⟩ := f.word_inside (off + 16) 8 (by omega)
  obtain ⟨filesz, hfilesz⟩ := f.word_inside (off + 32) 8 (by omega)
  obtain ⟨memsz, hmemsz⟩ := f.word_inside (off + 40) 8 (by omega)
  by_cases hload : type = ptLoad
  · refine ⟨some ⟨flags, offset, vaddr, filesz, memsz⟩, ?_⟩
    simp [phdr, htype, hload, hflags, hoffset, hvaddr, hfilesz, hmemsz]
  · refine ⟨none, ?_⟩
    simp [phdr, htype, hload]

/-- The type of a header behind the end of the file cannot be read. -/
theorem phdr_outside (hlt : off < 2 ^ 64) (h : f.len ≤ off) : f.phdr off = none := by
  have hread : ¬ (f.read off 4).isSome := by
    rw [inside_iff hlt]
    unfold Inside
    omega
  have hword : f.word off 4 = none := by
    unfold word
    rw [Option.not_isSome_iff_eq_none.1 hread, Option.map_none]
  simp [phdr, hword]

theorem phdr_bounds {ph : Phdr} (h : f.phdr off = some (some ph)) :
    ph.offset < 2 ^ 64 ∧ ph.vaddr < 2 ^ 64 ∧ ph.filesz < 2 ^ 64 ∧ ph.memsz < 2 ^ 64 := by
  obtain ⟨type, -, h⟩ := Option.bind_eq_some_iff.1 h
  by_cases hload : type = ptLoad
  · rw [if_neg (not_not.2 hload)] at h
    obtain ⟨flags, -, h⟩ := Option.bind_eq_some_iff.1 h
    obtain ⟨offset, hoffset, h⟩ := Option.bind_eq_some_iff.1 h
    obtain ⟨vaddr, hvaddr, h⟩ := Option.bind_eq_some_iff.1 h
    obtain ⟨filesz, hfilesz, h⟩ := Option.bind_eq_some_iff.1 h
    obtain ⟨memsz, hmemsz, h⟩ := Option.bind_eq_some_iff.1 h
    cases h
    exact ⟨word_lt hoffset, word_lt hvaddr, word_lt hfilesz, word_lt hmemsz⟩
  · rw [if_pos hload] at h
    cases h

theorem ehdr_bounds {e : Ehdr} (h : f.ehdr = some e) : e.phoff < 2 ^ 64 ∧ e.phnum < 2 ^ 16 := by
  obtain ⟨ident, -, h⟩ := Option.bind_eq_some_iff.1 h
  obtain ⟨type, -, h⟩ := Option.bind_eq_some_iff.1 h
  obtain ⟨machine, -, h⟩ := Option.bind_eq_some_iff.1 h
  obtain ⟨entry, -, h⟩ := Option.bind_eq_some_iff.1 h
  obtain ⟨phoff, hphoff, h⟩ := Option.bind_eq_some_iff.1 h
  obtain ⟨phnum, hphnum, h⟩ := Option.bind_eq_some_iff.1 h
  cases h
  exact ⟨word_lt hphoff, word_lt hphnum⟩

end ElfFile

/-! ## Segments -/

variable {f : ElfFile} {ph : Phdr} {k : Kmem} {mm : MmStruct}

/-- The bytes of a segment that have a page, when memory gives `pages` of its pages. -/
def Phdr.copied (ph : Phdr) (pages : Nat) : Nat := min ph.filesz (pages * pageSize - ph.vaddr % pageSize)

/-- A page with some room takes the first bytes of those that are left. -/
theorem forall_between {Q : Nat → Prop} {size pos pages room : Nat} (hpos : pos ≤ size) :
    (∀ i, pos ≤ i → i < min size (pos + (room + pages * pageSize)) → Q i) ↔
      (∀ i, i < min (size - pos) room → Q (pos + i)) ∧
        ∀ i, pos + min (size - pos) room ≤ i → i < min size (pos + min (size - pos) room + pages * pageSize) → Q i := by
  constructor
  · intro h
    exact ⟨fun i hi => h (pos + i) (by omega) (by omega), fun i hle hlt => h i (by omega) (by omega)⟩
  · rintro ⟨hpage, hrest⟩ i hle hlt
    by_cases hi : i < pos + min (size - pos) room
    · obtain ⟨j, rfl⟩ := Nat.exists_eq_add_of_le hle
      exact hpage j (by omega)
    · exact hrest i (by omega) (by omega)

theorem isSome_read_bind {α : Type} {off pos n : Nat} {go : List UInt8 → Option α} {P : Prop}
    (h : ∀ bytes, (go bytes).isSome ↔ P) :
    ((f.read (off + pos) n).bind go).isSome ↔ (∀ i, i < n → (off + (pos + i)) % 2 ^ 64 < f.len) ∧ P := by
  have hread : (f.read (off + pos) n).isSome ↔ ∀ i, i < n → (off + pos + i) % 2 ^ 64 < f.len := ElfFile.read_isSome_iff
  simp only [← Nat.add_assoc]
  rw [← hread]
  cases f.read (off + pos) n with
  | none => exact iff_of_false (by simp) fun h => by simp at h
  | some bytes => simpa using h bytes

/-- Pages behind the first one are filled from their start. -/
theorem loadSegmentLoop_isSome_tail : ∀ {vas : List Nat} {pos : Nat} {k : Kmem} {t : L1}, ph.mapStart ∉ vas →
    pos ≤ ph.filesz → ((loadSegmentLoop f ph vas pos k t).isSome ↔
      ∀ i, pos ≤ i → i < min ph.filesz (pos + pagesGiven (elfProt ph.flags) vas k t * pageSize) →
        (ph.offset + i) % 2 ^ 64 < f.len)
  | [], pos, k, t, _, _ => by
    simp only [loadSegmentLoop, pagesGiven]
    exact iff_of_true rfl fun i hpos hlt => by omega
  | va :: vas, pos, k, t, hmem, hpos => by
    rw [List.mem_cons, not_or] at hmem
    have hskip : ph.pageSkip va = 0 := if_neg (Ne.symm hmem.1)
    have hcopy : ph.copyLen va pos = min (ph.filesz - pos) pageSize := by
      unfold Phdr.copyLen
      rw [hskip]
      split_ifs <;> omega
    unfold loadSegmentLoop pagesGiven
    generalize newPage k t va (elfProt ph.flags) = r
    obtain ⟨o, t1, k1⟩ := r
    cases o with
    | none =>
      dsimp only
      exact iff_of_true rfl fun i hpos hlt => by omega
    | some p =>
      dsimp only
      rw [Nat.succ_mul, Nat.add_comm _ pageSize, forall_between hpos, ← hcopy]
      exact isSome_read_bind fun bytes => by
        rw [loadSegmentLoop_isSome_tail hmem.2 (by omega), pagesGiven_congr _ vas (Kmem.storeBytes_pa k1 p _ bytes) t1]

theorem pageRange_cases (start «end» : Nat) :
    pageRange start «end» = [] ∨ ∃ vas, pageRange start «end» = start :: vas ∧ start ∉ vas := by
  unfold pageRange
  cases («end» - start + (pageSize - 1)) / pageSize with
  | zero => exact Or.inl rfl
  | succ n =>
    refine Or.inr ⟨(List.range n).map fun i => start + (i + 1) * pageSize, ?_, ?_⟩
    · rw [List.range_succ_eq_map, List.map_cons, List.map_map, Nat.zero_mul, Nat.add_zero]
      rfl
    · intro hmem
      obtain ⟨i, -, hi⟩ := List.mem_map.1 hmem
      have hpos : 0 < (i + 1) * pageSize := Nat.mul_pos i.succ_pos (by decide)
      omega

/-- The pages of a segment are filled one after another, the first one from the offset of its address on. -/
theorem loadSegmentLoop_isSome_iff {t : L1} : (loadSegmentLoop f ph (pageRange ph.mapStart ph.mapEnd) 0 k t).isSome ↔
    ∀ i, i < ph.copied (pagesGiven (elfProt ph.flags) (pageRange ph.mapStart ph.mapEnd) k t) →
      (ph.offset + i) % 2 ^ 64 < f.len := by
  unfold Phdr.copied
  rcases pageRange_cases ph.mapStart ph.mapEnd with hnil | ⟨vas, hcons, hmem⟩
  · rw [hnil]
    simp only [loadSegmentLoop, pagesGiven]
    exact iff_of_true rfl fun i hi => by omega
  · have hskip : ph.pageSkip ph.mapStart = ph.vaddr % pageSize := by
      have hdiv := Nat.div_add_mod' ph.vaddr pageSize
      rw [Phdr.pageSkip, if_pos rfl, Phdr.mapStart, pageTrunc]
      omega
    have hlt := Nat.mod_lt ph.vaddr (show 0 < pageSize by decide)
    have hcopy : ph.copyLen ph.mapStart 0 = min ph.filesz (pageSize - ph.vaddr % pageSize) := by
      rw [Phdr.copyLen, hskip]
      split_ifs <;> omega
    rw [hcons]
    unfold loadSegmentLoop pagesGiven
    generalize newPage k t ph.mapStart (elfProt ph.flags) = r
    obtain ⟨o, t1, k1⟩ := r
    cases o with
    | none =>
      dsimp only
      exact iff_of_true rfl fun i hi => by omega
    | some p =>
      dsimp only
      have hroom : (∀ i, i < min ph.filesz
        ((pagesGiven (elfProt ph.flags) vas k1 t1 + 1) * pageSize - ph.vaddr % pageSize) →
          (ph.offset + i) % 2 ^ 64 < f.len) ↔ ∀ i, 0 ≤ i → i < min ph.filesz (0 + (pageSize - ph.vaddr % pageSize +
            pagesGiven (elfProt ph.flags) vas k1 t1 * pageSize)) → (ph.offset + i) % 2 ^ 64 < f.len := by
        rw [Nat.succ_mul, Nat.zero_add, ← Nat.sub_add_comm hlt.le, Nat.add_comm pageSize]
        exact forall_congr' fun i => ⟨fun h _ => h, fun h => h i.zero_le⟩
      rw [hroom, forall_between ph.filesz.zero_le, Nat.sub_zero, ← hcopy]
      exact isSome_read_bind fun bytes => by
        rw [loadSegmentLoop_isSome_tail hmem (by omega), pagesGiven_congr _ vas (Kmem.storeBytes_pa k1 p _ bytes) t1]

/-- What `load_segment` reads of a segment that it accepts are bytes of the file. -/
def SegmentInside (f : ElfFile) (k : Kmem) (mm : MmStruct) (ph : Phdr) : Prop :=
  (ph.offset + ph.filesz) % 2 ^ 64 ≤ f.len →
    f.Inside ph.offset (ph.copied (pagesGiven (elfProt ph.flags) (pageRange ph.mapStart ph.mapEnd) k mm.pgd))

theorem loadSegment_isSome_iff (hoff : ph.offset < 2 ^ 64) : (loadSegment f k mm ph).isSome ↔
    SegmentInside f k mm ph := by
  unfold loadSegment SegmentInside
  by_cases hcheck : ph.filesz ≠ 0 ∧ (ph.offset + ph.filesz) % 2 ^ 64 > f.len
  · rw [if_pos hcheck]
    exact iff_of_true rfl fun hle => absurd hle (Nat.not_le_of_lt hcheck.2)
  · rw [if_neg hcheck]
    have hbytes : (loadSegmentLoop f ph (pageRange ph.mapStart ph.mapEnd) 0 k mm.pgd).isSome ↔
        f.Inside ph.offset (ph.copied (pagesGiven (elfProt ph.flags) (pageRange ph.mapStart ph.mapEnd) k mm.pgd)) := by
      rw [loadSegmentLoop_isSome_iff, ElfFile.forall_mod_lt_iff hoff]
    have hzero : ph.filesz = 0 → f.Inside ph.offset
        (ph.copied (pagesGiven (elfProt ph.flags) (pageRange ph.mapStart ph.mapEnd) k mm.pgd)) := fun hz =>
      Or.inl (by rw [Phdr.copied, hz, Nat.zero_min])
    have haccept : (ph.offset + ph.filesz) % 2 ^ 64 ≤ f.len ∨ ph.filesz = 0 := by omega
    generalize f.Inside ph.offset (ph.copied _) = inside at hbytes hzero ⊢
    have himp : ((ph.offset + ph.filesz) % 2 ^ 64 ≤ f.len → inside) ↔ inside := by tauto
    rw [himp, ← hbytes]
    generalize loadSegmentLoop f ph (pageRange ph.mapStart ph.mapEnd) 0 k mm.pgd = r
    obtain _ | ⟨res, t, k1⟩ := r
    · rfl
    · rw [Option.bind_eq_bind, Option.bind_some]
      cases res with
      | error err => rfl
      | ok u =>
        dsimp only
        generalize vmaRecord k1 mm.mmap ph.mapStart ph.mapEnd (elfProt ph.flags) = v
        obtain ⟨ok, vmas, k2⟩ := v
        cases ok <;> rfl

/-! ## The table of program headers -/

/-- The table of program headers is in the file. -/
def TableInside (f : ElfFile) (e : Ehdr) : Prop := f.Inside e.phoff (e.phnum * phdrSize)

variable {e : Ehdr} {is : List Nat}

theorem TableInside.phdr (h : TableInside f e) {i : Nat} (hi : i < e.phnum) : ∃ o, f.phdr (e.phoff + i * phdrSize) =
    some o := by
  apply ElfFile.phdr_inside
  have hmul : (i + 1) * phdrSize ≤ e.phnum * phdrSize := Nat.mul_le_mul_right _ hi
  rw [Nat.succ_mul] at hmul
  rcases h with hzero | hle
  · have : 0 < phdrSize := by decide
    omega
  · omega

/-- A table that passes the check and is not in the file has wrapped around, and starts behind the end of the file. -/
theorem phdr_of_not_tableInside (he : f.ehdr = some e) (hcheck : (e.phoff + e.phnum * phdrSize) % 2 ^ 64 ≤ f.len)
    (h : ¬ TableInside f e) : 0 < e.phnum ∧ f.phdr e.phoff = none := by
  have hbounds := ElfFile.ehdr_bounds he
  have hlen := f.len_lt
  unfold TableInside ElfFile.Inside phdrSize at h
  unfold phdrSize at hcheck
  refine ⟨by omega, ElfFile.phdr_outside hbounds.1 ?_⟩
  omega

/-- The headers that the loop comes to, and the address space it has then. -/
inductive Reached (f : ElfFile) (e : Ehdr) : List Nat → Kmem → MmStruct → Nat → Kmem → MmStruct → Prop
  | here (i : Nat) (is : List Nat) (k : Kmem) (mm : MmStruct) : Reached f e (i :: is) k mm i k mm
  | skip {i j : Nat} {is : List Nat} {k k' : Kmem} {mm mm' : MmStruct}
    (hphdr : f.phdr (e.phoff + i * phdrSize) = some none)
      (h : Reached f e is k mm j k' mm') : Reached f e (i :: is) k mm j k' mm'
  | load {i j : Nat} {is : List Nat} {k k1 k' : Kmem} {mm mm1 mm' : MmStruct} {ph : Phdr}
      (hphdr : f.phdr (e.phoff + i * phdrSize) = some (some ph))
        (hload : loadSegment f k mm ph = some (.ok (), mm1, k1))
      (h : Reached f e is k1 (growBrk mm1 ph) j k' mm') : Reached f e (i :: is) k mm j k' mm'

/-- All segments that the loop comes to are read inside the file. -/
def SegmentsInside (f : ElfFile) (e : Ehdr) (is : List Nat) (k : Kmem) (mm : MmStruct) : Prop :=
  ∀ i k' mm' ph, Reached f e is k mm i k' mm' → f.phdr (e.phoff + i * phdrSize) = some (some ph) →
    SegmentInside f k' mm' ph

theorem segmentsInside_nil : SegmentsInside f e [] k mm := by
  intro i k' mm' ph hreach
  cases hreach

theorem segmentsInside_skip {i : Nat} (hphdr : f.phdr (e.phoff + i * phdrSize) = some none) :
    SegmentsInside f e (i :: is) k mm ↔ SegmentsInside f e is k mm := by
  constructor
  · intro h j k' mm' ph hreach
    exact h j k' mm' ph (.skip hphdr hreach)
  · intro h j k' mm' ph hreach hj
    cases hreach with
    | here =>
      rw [hphdr] at hj
      cases hj
    | skip _ hreach => exact h j k' mm' ph hreach hj
    | load hphdr' =>
      rw [hphdr] at hphdr'
      cases hphdr'

theorem segmentsInside_load {i : Nat} {ph : Phdr} (hphdr : f.phdr (e.phoff + i * phdrSize) = some (some ph)) :
    SegmentsInside f e (i :: is) k mm ↔ SegmentInside f k mm ph ∧
      ∀ k1 mm1, loadSegment f k mm ph = some (.ok (), mm1, k1) → SegmentsInside f e is k1 (growBrk mm1 ph) := by
  constructor
  · intro h
    exact ⟨h i k mm ph (.here i is k mm) hphdr, fun k1 mm1 hload j k' mm' x hreach =>
      h j k' mm' x (.load hphdr hload hreach)⟩
  · rintro ⟨hfirst, hrest⟩ j k' mm' x hreach hj
    cases hreach with
    | here =>
      rw [hphdr] at hj
      cases hj
      exact hfirst
    | skip hphdr' =>
      rw [hphdr] at hphdr'
      cases hphdr'
    | load hphdr' hload hreach =>
      rw [hphdr] at hphdr'
      cases hphdr'
      exact hrest _ _ hload j k' mm' x hreach hj

theorem loadSegments_isSome_iff (htable : TableInside f e) : ∀ {is : List Nat} {k : Kmem} {mm : MmStruct},
    (∀ i ∈ is, i < e.phnum) → ((loadSegments f e is k mm).isSome ↔ SegmentsInside f e is k mm)
  | [], k, mm, _ => iff_of_true rfl segmentsInside_nil
  | i :: is, k, mm, his => by
    obtain ⟨hi, his⟩ := List.forall_mem_cons.1 his
    obtain ⟨o, hphdr⟩ := htable.phdr hi
    unfold loadSegments
    rw [hphdr, Option.bind_eq_bind, Option.bind_some]
    cases o with
    | none =>
      rw [segmentsInside_skip hphdr]
      exact loadSegments_isSome_iff htable his
    | some ph =>
      rw [segmentsInside_load hphdr, ← loadSegment_isSome_iff (ElfFile.phdr_bounds hphdr).1]
      dsimp only
      cases hload : loadSegment f k mm ph with
      | none => simp
      | some r =>
        obtain ⟨res, mm1, k1⟩ := r
        rw [Option.bind_eq_bind, Option.bind_some]
        cases res with
        | error err => simp
        | ok u =>
          dsimp only
          rw [loadSegments_isSome_iff htable his]
          simp

theorem phdrAddr_isSome (htable : TableInside f e) : ∀ {is : List Nat}, (∀ i ∈ is, i < e.phnum) →
    (phdrAddr f e is).isSome
  | [], _ => rfl
  | i :: is, his => by
    obtain ⟨hi, his⟩ := List.forall_mem_cons.1 his
    obtain ⟨o, hphdr⟩ := htable.phdr hi
    have ih := phdrAddr_isSome htable his
    unfold phdrAddr
    rw [hphdr, Option.bind_eq_bind, Option.bind_some]
    cases o with
    | none => exact ih
    | some ph =>
      dsimp only
      split_ifs
      · rfl
      · exact ih

/-- The second time that the table is read it is where it was. -/
theorem createElfTables_isSome (htable : TableInside f e) (b : ExecStrings) (k : Kmem) (p mapBase stackTop : Nat) :
    (createElfTables f e b k p mapBase stackTop).isSome := by
  obtain ⟨phdrs, hphdrs⟩ := Option.isSome_iff_exists.1 (phdrAddr_isSome htable fun i hi => List.mem_range.1 hi)
  unfold createElfTables
  rw [hphdrs, Option.bind_eq_bind, Option.bind_some]
  generalize stackPutString k p mapBase stackTop b.filename = r
  obtain ⟨_ | execfn, k1⟩ := r
  · rfl
  · dsimp only
    generalize stackPutStrings p mapBase b.envp k1 execfn = r
    obtain ⟨_ | ⟨sp, envp⟩, k2⟩ := r
    · rfl
    · dsimp only
      generalize stackPutStrings p mapBase b.argv k2 sp = r
      obtain ⟨_ | ⟨sp, argv⟩, k3⟩ := r
      · rfl
      · dsimp only
        split_ifs <;> rfl

/-! ## The loader -/

/-- In a file whose header passes the checks, when there is memory for a new address space: the table of program headers
is in the file, and of every segment that the loop comes to all bytes that have a page. -/
def ReadsInside (f : ElfFile) (k : Kmem) : Prop :=
  ∀ e mm k', ehdrSize ≤ f.len → f.ehdr = some e → e.accepted f.len = true → mmAlloc k = (some mm, k') →
    TableInside f e ∧ SegmentsInside f e (List.range e.phnum) k' mm

theorem loadSegments_of_not_tableInside (he : f.ehdr = some e)
    (hcheck : (e.phoff + e.phnum * phdrSize) % 2 ^ 64 ≤ f.len)
    (h : ¬ TableInside f e) : loadSegments f e (List.range e.phnum) k mm = none := by
  obtain ⟨hpos, hphdr⟩ := phdr_of_not_tableInside he hcheck h
  obtain ⟨n, hn⟩ := Nat.exists_eq_succ_of_ne_zero hpos.ne'
  rw [hn, List.range_succ_eq_map]
  unfold loadSegments
  rw [Nat.zero_mul, Nat.add_zero, hphdr]
  rfl

/-- The loader reads inside the file exactly when the table and the segments it comes to are in the file. -/
theorem loadElfBinary_isSome_iff (f : ElfFile) (b : ExecStrings) (k : Kmem) : (loadElfBinary f b k).isSome ↔
    ReadsInside f k := by
  unfold loadElfBinary ReadsInside
  by_cases hlen : f.len < ehdrSize
  · rw [if_pos hlen]
    exact iff_of_true rfl fun e mm k' hle => absurd hlen (Nat.not_lt_of_le hle)
  obtain ⟨e, he⟩ := ElfFile.ehdr_inside (Nat.le_of_not_lt hlen)
  rw [if_neg hlen, he, Option.bind_eq_bind, Option.bind_some]
  by_cases hcheck : e.accepted f.len = true
  swap
  · rw [if_pos hcheck]
    refine iff_of_true rfl fun e' mm k' _ he' hcheck' => ?_
    cases he'
    exact absurd hcheck' hcheck
  rw [if_neg (not_not.2 hcheck)]
  cases hmm : mmAlloc k with
  | mk o k1 =>
    cases o with
    | none => exact iff_of_true rfl fun e' mm k' _ _ _ hmm' => by cases hmm'
    | some mm =>
      have honly : (∀ e' mm' k', ehdrSize ≤ f.len → some e = some e' → e'.accepted f.len = true →
        (some mm, k1) = (some mm', k') →
          TableInside f e' ∧ SegmentsInside f e' (List.range e'.phnum) k' mm') ↔
          TableInside f e ∧ SegmentsInside f e (List.range e.phnum) k1 mm := by
        constructor
        · intro h
          exact h e mm k1 (Nat.le_of_not_lt hlen) rfl hcheck rfl
        · intro h e' mm' k' _ he' _ hmm'
          cases he'
          cases hmm'
          exact h
      rw [honly]
      dsimp only
      by_cases htable : TableInside f e
      · rw [and_iff_right htable, ← loadSegments_isSome_iff htable fun i hi => List.mem_range.1 hi]
        generalize loadSegments f e (List.range e.phnum) k1 mm = r
        obtain _ | ⟨_ | mm1, k2⟩ := r
        · rfl
        · rfl
        · rw [Option.bind_eq_bind, Option.bind_some]
          dsimp only
          generalize setupStack k2 _ = r
          obtain ⟨_ | top, mm2, k3⟩ := r
          · rfl
          · have htables := createElfTables_isSome htable b k3 (top.getD 0) (userStackTop - pageSize) userStackTop
            dsimp only
            generalize createElfTables f e b k3 (top.getD 0) (userStackTop - pageSize) userStackTop = r at htables ⊢
            obtain _ | ⟨_ | sp, k4⟩ := r
            · cases htables
            · rfl
            · rfl
      · have hwrap : (e.phoff + e.phnum * phdrSize) % 2 ^ 64 ≤ f.len := by
          simp only [Ehdr.accepted, Bool.and_eq_true, decide_eq_true_eq] at hcheck
          exact hcheck.2
        rw [loadSegments_of_not_tableInside he hwrap htable]
        exact iff_of_false (by simp) fun h => htable h.1

/-- An ELF header with one program header at `phoff`, and what comes behind it. -/
def elfFile (phoff rest : List UInt8) : List UInt8 :=
  [0x7f, 69, 76, 70, 2, 1] ++ List.replicate 10 0 ++ [2, 0, 183, 0] ++ List.replicate 12 0 ++ phoff ++
    List.replicate 16 0 ++ [1, 0] ++ List.replicate 6 0 ++ rest

/-- The program header is at `2 ^ 64 - 56`, so that the table ends at 0. -/
def wrappedTable : ElfFile where
  bytes := elfFile ([200] ++ List.replicate 7 255) []
  fits := by decide

/-- The table is in the file. It names a segment of 16 bytes from `2 ^ 64 - 16` on, for address 0x400000. -/
def wrappedSegment : ElfFile where
  bytes := elfFile ([64] ++ List.replicate 7 0)
    ([1, 0, 0, 0, 5, 0, 0, 0] ++ [240] ++ List.replicate 7 255 ++ [0, 0, 64, 0] ++
    List.replicate 12 0 ++ [16] ++ List.replicate 7 0 ++ [16] ++ List.replicate 15 0)
  fits := by decide

/-- Memory in which an address space can be made. -/
def oneObjectLeft : Kmem := { (MmSys.init PageSys.oddStart).k with script := [([], true)] }

/-- A wrapped table and a wrapped segment pass the checks, and are read. -/
theorem loadElfBinary_wrapped :
    loadElfBinary wrappedTable ⟨[], [], []⟩ oneObjectLeft = none ∧
      loadElfBinary wrappedSegment ⟨[], [], []⟩ oneObjectLeft = none := by
  have htable : (loadElfBinary wrappedTable ⟨[], [], []⟩ oneObjectLeft).isNone = true := by decide +kernel
  have hsegment : (loadElfBinary wrappedSegment ⟨[], [], []⟩ oneObjectLeft).isNone = true := by decide +kernel
  exact ⟨Option.isNone_iff_eq_none.1 htable, Option.isNone_iff_eq_none.1 hsegment⟩

end MiniOs.Fs
