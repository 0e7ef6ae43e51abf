/-
When the kernel's copies to and from user memory complete. There is no fault handler behind them: an
access at EL1 that the page table refuses ends in `exc_hang`. So a copy completes exactly when every page
of the range is already there, and for a store also writable; a page that the VMAs promise but that no
fault has filled yet stops the machine.
-/
import MiniOs.Mm.Uaccess
import MiniOs.Proofs.Mm.MmRun

namespace MiniOs.Mm

open Library PageAlloc Usage

namespace MmSys

/-- The entry of `va` is present, open to user mode and not read-only. -/
def userWritable (pgd : L1) (va : Nat) : Bool :=
  (pgd.slot va).any fun pte => ptePresent pte && hasBits pte pteUser && !hasBits pte pteRdonly

variable {va : Nat}

theorem userWritable_iff {pgd : L1} : userWritable pgd va = true ↔
    ∃ pte, pgd.slot va = some pte ∧ ptePresent pte = true ∧ hasBits pte pteUser = true ∧
      hasBits pte pteRdonly = false := by
  unfold userWritable
  cases pgd.slot va with
  | none => simp
  | some pte => simp [and_assoc]

section Copies

variable {P : PageAlloc} {s : MmSys} {i : Nat} {mm : MmStruct} {base : Usage}

theorem kernelFrame_some {pa : PageAlloc} {t : L1} {p : Nat} {write : Bool}
    (h : kernelFrame pa t va write = some p) :
    ∃ pte, t.slot va = some pte ∧ ptePresent pte = true ∧ pa.pteFrame pte = some p ∧
      (write = true → hasBits pte pteRdonly = false) := by
  unfold kernelFrame at h
  split at h
  · split at h
    · cases h
    · rename_i pte hs
      split at h
      · rename_i hok
        obtain ⟨hpres, hro⟩ : ptePresent pte = true ∧ (write = false ∨ hasBits pte pteRdonly = false) := by
          simpa using hok
        refine ⟨pte, hs, hpres, h, ?_⟩
        rintro rfl
        exact hro.resolve_left (by decide)
      · cases h
  · cases h

variable {pte : BitVec 64}

theorem kernelFrame_of_entry (hI : MmInv P s) (hi : s.mms[i]? = some (some mm)) {write : Bool}
    (hva : va < userVaLimit) (hs : mm.pgd.slot va = some pte) (hpres : ptePresent pte = true)
    (hro : write = true → hasBits pte pteRdonly = false) : ∃ p, kernelFrame s.k.pa mm.pgd va write = some p := by
  obtain ⟨p, hp⟩ := Option.isSome_iff_exists.1 (hI.backed i mm hi va pte hs hpres)
  have hok : (ptePresent pte && !(write && hasBits pte pteRdonly)) = true := by
    cases write with
    | false => simp [hpres]
    | true => simp [hpres, hro rfl]
  refine ⟨p, ?_⟩
  unfold kernelFrame
  rw [if_pos hva, hs]
  simp only [hok, if_true]
  rw [hI.acct.pteFrame_eq, hp]

/-- The state after a kernel store through a writable entry. -/
theorem MmInv.writeByte (hI : MmInv P s) (p offset : Nat) (byte : UInt8) :
    MmInv P ⟨MmSys.writeByte s.k p offset byte, s.mms⟩ := ⟨hI.acct.congr rfl rfl, hI.backed⟩

theorem Focus.writeByte (hf : Focus P s i mm base) (p offset : Nat) (byte : UInt8) :
    Focus P ⟨MmSys.writeByte s.k p offset byte, s.mms⟩ i mm base := ⟨hf.here, hf.small, hf.usage, hf.set⟩

/-- The byte of the range at `a`, or what was there before. -/
def patched (dst : Nat) (src : List UInt8) (m : Nat → UInt8) (a : Nat) : UInt8 :=
  if dst ≤ a then (src[a - dst]?).getD (m a) else m a

theorem patched_cons (dst : Nat) (byte : UInt8) (src : List UInt8) (m : Nat → UInt8) (a : Nat) :
    patched (dst + 1) src (fun a => if a = dst then byte else m a) a = patched dst (byte :: src) m a := by
  unfold patched
  dsimp only
  by_cases h : dst + 1 ≤ a
  · have e : a - dst = (a - (dst + 1)) + 1 := by omega
    have hne : ¬a = dst := by omega
    have hle : dst ≤ a := by omega
    rw [if_pos h, if_neg hne, if_pos hle, e, List.getElem?_cons_succ]
  · rw [if_neg h]
    by_cases e : a = dst
    · subst e
      simp
    · rw [if_neg e, if_neg (by omega)]

/-- Every address of the range writable: the copy completes and leaves the bytes. -/
theorem copyToUser_done : ∀ (src : List UInt8) (dst : Nat) {s : MmSys}, MmInv P s → Focus P s i mm base →
    dst + src.length ≤ userVaLimit → (∀ t < src.length, ∃ p, kernelFrame s.k.pa mm.pgd (dst + t) true = some p) →
    ∃ k', copyToUser s.k mm.pgd dst src = .done k' ∧ MmInv P ⟨k', s.mms⟩ ∧ k'.pa = s.k.pa ∧
      ∀ a < userVaLimit, Mm.view P k'.data mm.pgd a = patched dst src (Mm.view P s.k.data mm.pgd) a
  | [], dst, s, hI, _, _, _ => ⟨s.k, rfl, hI, rfl, fun a _ => by simp [patched]⟩
  | byte :: src, dst, s, hI, hf, hle, hall => by
    rw [List.length_cons] at hle hall
    obtain ⟨p, hp⟩ := hall 0 (by omega)
    rw [Nat.add_zero] at hp
    obtain ⟨pte, hs, hpres, hframe, hro⟩ := kernelFrame_some hp
    rw [hI.acct.pteFrame_eq] at hframe
    obtain ⟨k', hcopy, hI', hpa, hview⟩ := copyToUser_done src (dst + 1)
      (hI.writeByte p (dst % pageSize) byte) (hf.writeByte p (dst % pageSize) byte) (by omega) fun t ht => by
        rw [Nat.add_assoc, Nat.add_comm 1 t]
        exact hall (t + 1) (by omega)
    refine ⟨k', ?_, hI', hpa, fun a ha => ?_⟩
    · unfold copyToUser
      rw [hp]
      exact hcopy
    · rw [hview a ha, ← patched_cons]
      unfold patched
      have hone := hf.view_write hI (by omega) hs hpres hframe (hro rfl) byte
      rw [hone a ha]

/-- A copy that completes found every address of the range writable. -/
theorem copyToUser_frames : ∀ (src : List UInt8) (dst : Nat) (k k' : Kmem) (pgd : L1),
    copyToUser k pgd dst src = .done k' → ∀ t < src.length, ∃ p, kernelFrame k.pa pgd (dst + t) true = some p
  | [], _, _, _, _, _, t, ht => absurd ht (Nat.not_lt_zero t)
  | byte :: src, dst, k, k', pgd, h, t, ht => by
    unfold copyToUser at h
    cases hp : kernelFrame k.pa pgd dst true with
    | none => rw [hp] at h; cases h
    | some p =>
      rw [hp] at h
      cases t with
      | zero => exact ⟨p, hp⟩
      | succ t =>
        have := copyToUser_frames src (dst + 1) _ k' pgd h t (by rw [List.length_cons] at ht; omega)
        rwa [Nat.add_assoc, Nat.add_comm 1 t] at this

theorem copyFromUser_done (hI : MmInv P s) : ∀ (len src : Nat),
    (∀ t < len, ∃ p, kernelFrame s.k.pa mm.pgd (src + t) false = some p) →
    copyFromUser s.k mm.pgd src len = .done ((List.range len).map fun t => Mm.view P s.k.data mm.pgd (src + t))
  | 0, _, _ => rfl
  | len + 1, src, hall => by
    obtain ⟨p, hp⟩ := hall 0 (by omega)
    rw [Nat.add_zero] at hp
    obtain ⟨pte, hs, hpres, hframe, -⟩ := kernelFrame_some hp
    rw [hI.acct.pteFrame_eq] at hframe
    have hrest := copyFromUser_done hI len (src + 1) fun t ht => by
      rw [Nat.add_assoc, Nat.add_comm 1 t]
      exact hall (t + 1) (by omega)
    have hbyte : Mm.view P s.k.data mm.pgd (src + 0) = s.k.data p (src % pageSize) := by
      unfold Mm.view
      rw [Nat.add_zero, frameOf_of_slot hs, if_pos hpres, hframe]
    unfold copyFromUser
    simp only [hp, hrest]
    rw [List.range_succ_eq_map, List.map_cons, List.map_map, hbyte]
    congr 2
    apply List.map_congr_left
    intro t _
    simp only [Function.comp_apply]
    congr 1
    omega

theorem copyFromUser_frames {k : Kmem} {pgd : L1} : ∀ (len src : Nat) (bytes : List UInt8),
    copyFromUser k pgd src len = .done bytes → ∀ t < len, ∃ p, kernelFrame k.pa pgd (src + t) false = some p
  | 0, _, _, _, t, ht => absurd ht (Nat.not_lt_zero t)
  | len + 1, src, bytes, h, t, ht => by
    unfold copyFromUser at h
    cases hp : kernelFrame k.pa pgd src false with
    | none => rw [hp] at h; cases h
    | some p =>
      simp only [hp] at h
      cases hrest : copyFromUser k pgd (src + 1) len with
      | trapped handler => rw [hrest] at h; cases h
      | done rest =>
        cases t with
        | zero => exact ⟨p, hp⟩
        | succ t =>
          have := copyFromUser_frames len (src + 1) rest hrest t (by omega)
          rwa [Nat.add_assoc, Nat.add_comm 1 t] at this

theorem copyToUser_trapped {handler : Handler} : ∀ (src : List UInt8) (dst : Nat) (k : Kmem) (pgd : L1),
    copyToUser k pgd dst src = .trapped handler → handler = .excHang
  | [], _, _, _, h => by cases h
  | byte :: src, dst, k, pgd, h => by
    unfold copyToUser at h
    split at h
    · cases h; rfl
    · exact copyToUser_trapped src _ _ pgd h

theorem copyFromUser_trapped {handler : Handler} {k : Kmem} {pgd : L1} : ∀ (len src : Nat),
    copyFromUser k pgd src len = .trapped handler → handler = .excHang
  | 0, _, h => by cases h
  | len + 1, src, h => by
    unfold copyFromUser at h
    split at h
    · cases h; rfl
    · split at h
      · cases h
      · rename_i handler' hrest
        cases h
        exact copyFromUser_trapped len _ hrest

/-- What user mode reads through a present entry it may use. -/
theorem userRead_view (hI : MmInv P s) (hi : s.mms[i]? = some (some mm))
    (hva : va < userVaLimit) (hs : mm.pgd.slot va = some pte) (hpres : ptePresent pte = true)
    (huser : hasBits pte pteUser = true) :
    (s.userRead i mm va).2 = .read i va (Mm.view P s.k.data mm.pgd va) := by
  obtain ⟨p, hp⟩ := Option.isSome_iff_exists.1 (hI.backed i mm hi va pte hs hpres)
  have hframe : userFrame s.k.pa mm.pgd va false = some p := by
    unfold userFrame
    rw [if_pos hva, hs]
    simp only [hpres, huser, Bool.false_and, Bool.not_false, Bool.and_true, if_true]
    rw [hI.acct.pteFrame_eq, hp]
  unfold userRead Mm.view
  rw [hframe, frameOf_of_slot hs, if_pos hpres, hp]

/-- A user read that got a byte went through an entry for user mode. -/
theorem user_of_userRead {byte : UInt8} (hs : mm.pgd.slot va = some pte)
    (h : (s.userRead i mm va).2 = .read i va byte) : hasBits pte pteUser = true := by
  unfold userRead at h
  split at h
  · rename_i p hp
    unfold userFrame at hp
    split at hp
    · rw [hs] at hp
      by_contra hu
      simp [hu] at hp
    · cases hp
  · cases h

theorem copyToUser_iff (hI : MmInv P s) (hf : Focus P s i mm base) (dst : Nat) (src : List UInt8)
    (hle : dst + src.length ≤ userVaLimit) :
    (∃ k', copyToUser s.k mm.pgd dst src = .done k' ∧ ∀ t (ht : t < src.length),
        (userRead ⟨k', s.mms⟩ i mm (dst + t)).2 = .read i (dst + t) (src[t])) ↔
      ∀ t < src.length, userWritable mm.pgd (dst + t) = true := by
  constructor
  · rintro ⟨k', hcopy, hread⟩ t ht
    obtain ⟨p, hp⟩ := copyToUser_frames src dst s.k k' mm.pgd hcopy t ht
    obtain ⟨pte, hs, hpres, -, hro⟩ := kernelFrame_some hp
    exact userWritable_iff.2 ⟨pte, hs, hpres, user_of_userRead hs (hread t ht), hro rfl⟩
  · intro hall
    obtain ⟨k', hcopy, hI', -, hview⟩ := copyToUser_done src dst hI hf hle fun t ht => by
      obtain ⟨pte, hs, hpres, -, hro⟩ := userWritable_iff.1 (hall t ht)
      exact kernelFrame_of_entry hI hf.here (by omega) hs hpres fun _ => hro
    refine ⟨k', hcopy, fun t ht => ?_⟩
    obtain ⟨pte, hs, hpres, huser, -⟩ := userWritable_iff.1 (hall t ht)
    rw [userRead_view hI' hf.here (by omega) hs hpres huser, hview (dst + t) (by omega)]
    unfold patched
    rw [if_pos (by omega), Nat.add_sub_cancel_left, List.getElem?_eq_getElem ht, Option.getD_some]

theorem copyFromUser_iff (hI : MmInv P s) (hi : s.mms[i]? = some (some mm)) (src len : Nat)
    (hle : src + len ≤ userVaLimit) :
    copyFromUser s.k mm.pgd src len = .done ((List.range len).map fun t => Mm.view P s.k.data mm.pgd (src + t)) ↔
      ∀ t < len, mm.pgd.vaMapped (src + t) = true := by
  constructor
  · intro hcopy t ht
    obtain ⟨p, hp⟩ := copyFromUser_frames len src _ hcopy t ht
    obtain ⟨pte, hs, hpres, -⟩ := kernelFrame_some hp
    unfold L1.vaMapped
    rw [hs]
    exact hpres
  · intro hall
    apply copyFromUser_done hI
    intro t ht
    have hmapped := hall t ht
    unfold L1.vaMapped at hmapped
    cases hs : mm.pgd.slot (src + t) with
    | none => rw [hs] at hmapped; cases hmapped
    | some pte =>
      rw [hs] at hmapped
      exact kernelFrame_of_entry hI hi (by omega) hs hmapped (by rintro ⟨⟩)

end Copies

/-- In every reachable state, for every user range: `copy_to_user` completes with the source bytes there
for user mode to read exactly when every address of the range has a present entry that user mode can
read and that is not read-only; `copy_from_user` completes, with the bytes that are there, exactly when
every address is present. Otherwise the copy ends in `exc_hang`. -/
theorem copy_completes_iff (start : AllocStart) (ops : List MmOp) (s : MmSys) (es : List Event)
    (h : runTrace step (init start) ops = some (s, es)) (i : Nat) (mm : MmStruct) (hi : s.mms[i]? = some (some mm))
    (addr : Nat) (src : List UInt8) (hsrc : addr + src.length ≤ userVaLimit) (len : Nat)
    (hlen : addr + len ≤ userVaLimit) :
    ((∃ k', copyToUser s.k mm.pgd addr src = .done k' ∧ ∀ t (ht : t < src.length),
        (userRead ⟨k', s.mms⟩ i mm (addr + t)).2 = .read i (addr + t) (src[t])) ↔
      ∀ t < src.length, userWritable mm.pgd (addr + t) = true) ∧
    (copyFromUser s.k mm.pgd addr len =
        .done ((List.range len).map fun t => Mm.view s.k.pa s.k.data mm.pgd (addr + t)) ↔
      ∀ t < len, mm.pgd.vaMapped (addr + t) = true) ∧
    (∀ handler, copyToUser s.k mm.pgd addr src = .trapped handler → handler = .excHang) ∧
      ∀ handler, copyFromUser s.k mm.pgd addr len = .trapped handler → handler = .excHang := by
  obtain ⟨r, -, hI, -⟩ := run_matched h
  obtain ⟨base, hf⟩ := exists_focus (P := (init start).k.pa) hi
  refine ⟨copyToUser_iff hI hf addr src hsrc, ?_, fun _ => copyToUser_trapped src addr s.k mm.pgd,
    fun _ => copyFromUser_trapped len addr⟩
  have hview : ∀ va, Mm.view s.k.pa s.k.data mm.pgd va = Mm.view (init start).k.pa s.k.data mm.pgd va := by
    intro va
    unfold Mm.view L1.frameOf
    simp only [hI.acct.pteFrame_eq]
  simp only [hview]
  exact copyFromUser_iff hI hi addr len hlen

/-- A data page that the program has written to. -/
def touchedPage : List MmOp :=
  [.create ⟨[⟨0x400000, 0x402000, protRead ||| protWrite⟩], 0, 0, 0, 0⟩ [([], true)], .write 0 0x400010 7]

theorem copy_completes_of_touchedPage : ∃ s es mm, runTrace step (init PageSys.oddStart) touchedPage = some (s, es) ∧
    s.mms[0]? = some (some mm) ∧ ∃ k', copyToUser s.k mm.pgd 0x400010 [1, 2] = .done k' := by
  have h : (runTrace step (init PageSys.oddStart) touchedPage).map (fun x => x.1.mms.map fun o => o.map fun mm =>
      userWritable mm.pgd 0x400010 && userWritable mm.pgd 0x400011) = some [some true] := by decide +kernel
  obtain ⟨⟨s, es⟩, hs, hmms⟩ := Option.map_eq_some_iff.1 h
  obtain ⟨o, hmms', ho⟩ := List.map_eq_singleton_iff.1 hmms
  obtain ⟨mm, rfl, hmm⟩ := Option.map_eq_some_iff.1 ho
  rw [Bool.and_eq_true] at hmm
  have hi : s.mms[0]? = some (some mm) := by rw [hmms']; rfl
  have hiff := (copy_completes_iff PageSys.oddStart touchedPage s es hs 0 mm hi 0x400010 [1, 2] (by decide) 0
    (by decide)).1
  obtain ⟨k', hk, -⟩ := hiff.2 fun t ht => by
    match t, ht with
    | 0, _ => exact hmm.1
    | 1, _ => exact hmm.2
  exact ⟨s, es, mm, hs, hi, k', hk⟩

/-- A mapping that the program has just made. -/
def freshMapping : List MmOp :=
  [.create ⟨[], 0, 0, 0, 0x2000000⟩ [([], true)], .mmap 0 0 4096 (protRead ||| protWrite) mapAnonymous [([], true)]]

def CopyResult.hangs {α : Type} : CopyResult α → Bool
  | .trapped .excHang => true
  | _ => false

/-- The mapping covers the address, for reading and writing, and both copies hang. -/
theorem copy_hangs_on_freshMapping : ∃ s es mm, runTrace step (init PageSys.oddStart) freshMapping = some (s, es) ∧
    s.mms[0]? = some (some mm) ∧
    (∃ v ∈ mm.mmap, v.vmStart ≤ 0x2000000 ∧ 0x2000000 < v.vmEnd ∧ v.vmFlags = protRead ||| protWrite) ∧
    CopyResult.hangs (copyToUser s.k mm.pgd 0x2000000 [7]) = true ∧
    CopyResult.hangs (copyFromUser s.k mm.pgd 0x2000000 1) = true := by
  have h : (runTrace step (init PageSys.oddStart) freshMapping).map (fun x => x.1.mms.map fun o => o.map fun mm =>
      (mm.mmap.any fun v => v.vmStart ≤ 0x2000000 && 0x2000000 < v.vmEnd && v.vmFlags == (protRead ||| protWrite)) &&
        (CopyResult.hangs (copyToUser x.1.k mm.pgd 0x2000000 [7]) &&
          CopyResult.hangs (copyFromUser x.1.k mm.pgd 0x2000000 1))) = some [some true] := by decide +kernel
  obtain ⟨⟨s, es⟩, hs, hmms⟩ := Option.map_eq_some_iff.1 h
  obtain ⟨o, hmms', ho⟩ := List.map_eq_singleton_iff.1 hmms
  obtain ⟨mm, rfl, hmm⟩ := Option.map_eq_some_iff.1 ho
  simp only [Bool.and_eq_true, List.any_eq_true, decide_eq_true_eq, beq_iff_eq] at hmm
  obtain ⟨⟨v, hv, ⟨h1, h2⟩, h3⟩, h4, h5⟩ := hmm
  exact ⟨s, es, mm, hs, by rw [hmms']; rfl, ⟨v, hv, h1, h2, h3⟩, h4, h5⟩

end MmSys

end MiniOs.Mm
