/-
What a fault handler is for: after a fault that was resolved the entry lets the access through, and a
fault is resolved whenever the VMA permits the access and there are pages enough. The entries are taken
to agree with the VMAs, up to the write protection of copy-on-write.
-/
import MiniOs.Proofs.Mm.MmRun
import MiniOs.Proofs.Mm.VmaList

namespace MiniOs.Mm

open Library PageAlloc Usage MmSys

/-! ## Accesses -/

inductive Access
  | read
  | write
  | exec
  deriving DecidableEq

namespace Access

/-- The syndrome of the abort from user mode that a refused access raises. -/
def Raises (esr : BitVec 64) : Access → Prop
  | read => esrGetEc esr = esrEcDabtLow ∧ hasBits esr esrWnr = false
  | write => esrGetEc esr = esrEcDabtLow ∧ hasBits esr esrWnr = true
  | exec => esrGetEc esr = esrEcIabtLow ∧ hasBits esr esrWnr = false

/-- The VMA flags that permit the access. Each of the three permissions implies that to read: they all
get `PTE_USER`. -/
def allowed (flags : BitVec 64) : Access → Bool
  | read => hasBits flags (protRead ||| protWrite ||| protExec)
  | write => hasBits flags protWrite
  | exec => hasBits flags protExec

/-- The translation lets the access from user mode through. -/
def permits (pte : BitVec 64) : Access → Bool
  | read => ptePresent pte && hasBits pte pteAf && hasBits pte pteUser
  | write => ptePresent pte && hasBits pte pteAf && hasBits pte pteUser && !hasBits pte pteRdonly
  | exec => ptePresent pte && hasBits pte pteAf && !hasBits pte pteUxn

end Access

/-- The entry has the permissions of the VMA, except that it may be write protected. -/
structure PteAgrees (pte flags : BitVec 64) : Prop where
  af : hasBits pte pteAf = true
  user : hasBits pte pteUser = hasBits flags (protRead ||| protWrite ||| protExec)
  uxn : hasBits pte pteUxn = !hasBits flags protExec
  rdonly : hasBits flags protWrite = false → hasBits pte pteRdonly = true

/-- Every present entry agrees with the VMA of its address. -/
def Agreeing (mm : MmStruct) : Prop :=
  ∀ a pte, a < userVaLimit → mm.pgd.slot a = some pte → ptePresent pte = true →
    ∃ flags, flagsAt mm.mmap a = some flags ∧ PteAgrees pte flags

/-- The next `n` pages can be allocated. -/
def PageAlloc.allocates : Nat → PageAlloc → Bool
  | 0, _ => true
  | n + 1, st =>
    match st.allocPages 0 with
    | (none, _) => false
    | (some _, st) => st.allocates n

/-- The tables on the way to an address that do not exist yet. -/
def L1.missing (t : L1) (va : Nat) : Nat :=
  match t.ent (l1Idx va) with
  | none => 2
  | some l2 => if (l2.ent (l2Idx va)).isNone then 1 else 0

/-- The pages a fault at an address takes: a copy of a shared frame, or a page and its tables. -/
def pagesNeeded (k : Kmem) (t : L1) (va : Nat) : Nat :=
  if t.vaMapped va then if ((t.slot va).bind k.pa.pteFrame).any (k.pa.pageCount · = 1) then 0 else 1
  else 1 + t.missing va

/-- The fault is resolved: the VMA permits the access, the entry lets it through, and nothing else about
memory has changed, in this address space or in another. -/
structure Resolved (P : PageAlloc) (s : MmSys) (i : Nat) (mm mm' : MmStruct) (k' : Kmem) (addr : Nat)
    (access : Access) : Prop where
  allowed : ∃ flags, flagsAt mm.mmap addr = some flags ∧ access.allowed flags = true
  permits : (mm'.pgd.slot addr).any access.permits = true
  bytes : ∀ a, view P k'.data mm'.pgd a = view P s.k.data mm.pgd a
  pages : ∀ a, samePage addr a = false → mm'.pgd.slot a = mm.pgd.slot a ∨
    (mm.pgd.slot a = none ∧ mm'.pgd.slot a = some 0)
  rest : mm' = { mm with pgd := mm'.pgd }
  others : ∀ j mm₁, j ≠ i → s.mms[j]? = some (some mm₁) → ∀ a, view P k'.data mm₁.pgd a = view P s.k.data mm₁.pgd a

section Bits

variable {pte flags esr : BitVec 64} {access : Access} {vma : Vma}

theorem faultAllowed_eq (h : access.Raises esr) : faultAllowed vma esr = access.allowed vma.vmFlags := by
  unfold faultAllowed
  cases access with
  | read =>
    obtain ⟨hec, hw⟩ := h
    rw [hec, if_neg (by decide), hw]
    rfl
  | write =>
    obtain ⟨hec, hw⟩ := h
    rw [hec, if_neg (by decide), hw]
    rfl
  | exec => exact if_pos h.1

theorem hasWnr_eq (h : access.Raises esr) : hasBits esr esrWnr = decide (access = .write) := by
  cases access with
  | read => exact h.2
  | write => exact h.2
  | exec => exact h.2

theorem hasBits_mono {x f m : BitVec 64} (h : m &&& f = f) (hf : hasBits x f = true) : hasBits x m = true := by
  unfold hasBits at hf ⊢
  rw [bne_iff_ne] at hf ⊢
  intro hm
  apply hf
  rw [← h, ← BitVec.and_assoc, hm]
  simp

/-- An access right that the VMA gives is in the entry, but for a write to a protected page. -/
theorem PteAgrees.permits (h : PteAgrees pte flags) (hp : ptePresent pte = true) (ha : access.allowed flags = true)
    (hw : access = .write → hasBits pte pteRdonly = false) : access.permits pte = true := by
  have huser : hasBits flags (protRead ||| protWrite ||| protExec) = true → hasBits pte pteUser = true := by
    rw [h.user]
    exact id
  cases access with
  | read =>
    unfold Access.permits
    rw [hp, h.af, huser ha]
    rfl
  | write =>
    have hany : hasBits flags (protRead ||| protWrite ||| protExec) = true := hasBits_mono (by decide) ha
    unfold Access.permits
    rw [hp, h.af, huser hany, hw rfl]
    rfl
  | exec =>
    have hx : hasBits pte pteUxn = false := by
      rw [h.uxn, show hasBits flags protExec = true from ha]
      rfl
    unfold Access.permits
    rw [hp, h.af, hx]
    rfl

theorem pteAgrees_mkPte (kva : Nat) (flags : BitVec 64) : PteAgrees (mkPte kva (protToPte flags)) flags := by
  have hflag : ∀ {f}, pteAddrMask &&& f = 0 → hasBits (mkPte kva (protToPte flags)) f =
    hasBits (protToPte flags) f := by
    intro f hf
    unfold mkPte
    rw [hasBits_or, hasBits_and_of_disjoint hf, Bool.false_or]
  refine ⟨?_, ?_, ?_, fun hw => ?_⟩
  · rw [hflag (by decide), af_protToPte]
  · rw [hflag (by decide), user_protToPte]
  · rw [hflag (by decide), uxn_protToPte]
  · rw [hflag (by decide), rdonly_protToPte, hw]
    rfl

/-- The entry of a private copy, and the one that was write protected for no other reason. -/
theorem PteAgrees.mkwrite (h : PteAgrees pte flags) (hw : hasBits flags protWrite = true) :
    PteAgrees (pteMkwrite pte) flags := by
  refine ⟨?_, ?_, ?_, fun hn => ?_⟩
  · exact (hasBits_and_of_sub (by decide)).trans h.af
  · rw [user_mkwrite, h.user]
  · exact (hasBits_and_of_sub (by decide)).trans h.uxn
  · rw [hw] at hn
    cases hn

theorem PteAgrees.copy (h : PteAgrees pte flags) (kva : Nat) : PteAgrees (mkPte kva (pte &&& pteFlagsMask)) flags := by
  have hflag : ∀ {f}, pteAddrMask &&& f = 0 → pteFlagsMask &&& f = f →
      hasBits (mkPte kva (pte &&& pteFlagsMask)) f = hasBits pte f := by
    intro f hf hsub
    unfold mkPte
    rw [hasBits_or, hasBits_and_of_disjoint hf, Bool.false_or, hasBits_and_of_sub hsub]
  refine ⟨?_, ?_, ?_, fun hn => ?_⟩
  · rw [hflag (by decide) (by decide), h.af]
  · rw [hflag (by decide) (by decide), h.user]
  · rw [hflag (by decide) (by decide), h.uxn]
  · rw [hflag (by decide) (by decide), h.rdonly hn]

end Bits

/-! ## The VMA of the fault -/

section Lookup

variable {vmas : List Vma} {v : Vma} {addr : Nat} {flags : BitVec 64}

theorem flagsAt_of_findVma (h : findVma vmas addr = some v) (hle : v.vmStart ≤ addr) :
    flagsAt vmas addr = some v.vmFlags := by
  induction vmas with
  | nil => cases h
  | cons w vmas ih =>
    unfold findVma at h ih
    rw [List.find?_cons] at h
    rw [flagsAt_cons]
    split at h
    · rename_i hend
      cases h
      exact if_pos ⟨hle, by simpa using hend⟩
    · rename_i hend
      have hout : ¬ w.Covers addr := fun hc => absurd hc.2 (by simpa using hend)
      rw [if_neg hout]
      exact ih h

theorem findVma_of_flagsAt (hok : VmasOk vmas) (h : flagsAt vmas addr = some flags) :
    ∃ v, findVma vmas addr = some v ∧ v.vmStart ≤ addr ∧ v.vmFlags = flags := by
  induction vmas with
  | nil => cases h
  | cons w vmas ih =>
    unfold findVma at ih ⊢
    rw [List.find?_cons]
    rw [flagsAt_cons] at h
    by_cases hc : w.Covers addr
    · rw [if_pos hc] at h
      cases h
      refine ⟨w, ?_, hc.1, rfl⟩
      simp [hc.2]
    · rw [if_neg hc] at h
      obtain ⟨v, hv, hle, hflags⟩ := ih hok.tail h
      -- the VMAs behind `w` start behind its end
      have hend : ¬ addr < w.vmEnd := by
        have hnext := (List.pairwise_cons.1 hok.sorted).1 v (List.mem_of_find?_eq_some hv)
        omega
      refine ⟨v, ?_, hle, hflags⟩
      simp only [gt_iff_lt, hend, decide_false]
      exact hv

end Lookup

/-! ## Allocation -/

section Alloc

variable {k : Kmem} {n : Nat} {t : L1} {va : Nat} {pte : BitVec 64}

theorem allocPage_of_allocates (h : k.pa.allocates (n + 1) = true) :
    ∃ p k', k.allocPage = (some p, k') ∧ k'.pa.allocates n = true := by
  unfold PageAlloc.allocates at h
  unfold Kmem.allocPage
  generalize k.pa.allocPages 0 = r at h ⊢
  obtain ⟨_ | kva, pa⟩ := r
  · cases h
  · exact ⟨_, _, rfl, h⟩

theorem getOrCreateTable_of_allocates {α : Type} (empty : Nat → α) {parent : Node α} {i : Fin 512}
    (h : k.pa.allocates (n + if (parent.ent i).isNone then 1 else 0) = true) :
    ∃ c parent' k', getOrCreateTable empty k parent i = (some c, parent', k') ∧ k'.pa.allocates n = true ∧
      (parent.ent i = some c ∨ parent.ent i = none ∧ ∃ p, c = empty p) := by
  unfold getOrCreateTable
  cases hc : parent.ent i with
  | some c =>
    rw [hc] at h
    exact ⟨c, parent, k, rfl, h, Or.inl rfl⟩
  | none =>
    rw [hc] at h
    obtain ⟨p, k', ha, hn⟩ := allocPage_of_allocates h
    rw [ha]
    exact ⟨empty p, _, k', rfl, hn, Or.inr ⟨rfl, p, rfl⟩⟩

theorem mapPage_of_allocates (h : k.pa.allocates (t.missing va) = true) : (mapPage k t va pte).1 = true := by
  have hl1 : ∃ n, t.missing va = n + (if (t.ent (l1Idx va)).isNone then 1 else 0) ∧
      ∀ l2, (t.ent (l1Idx va) = some l2 ∨ t.ent (l1Idx va) = none ∧ ∃ p, l2 = Node.empty p) →
        n = 0 + if (l2.ent (l2Idx va)).isNone then 1 else 0 := by
    unfold L1.missing
    cases hc : t.ent (l1Idx va) with
    | none =>
      refine ⟨1, rfl, ?_⟩
      rintro l2 (h | ⟨-, p, rfl⟩)
      · cases h
      · rfl
    | some l2 =>
      refine ⟨if (l2.ent (l2Idx va)).isNone then 1 else 0, rfl, ?_⟩
      rintro l2' (h | ⟨h, -⟩)
      · cases h
        exact (Nat.zero_add _).symm
      · cases h
  obtain ⟨n, hn, hnext⟩ := hl1
  rw [hn] at h
  obtain ⟨l2, t', k₁, h1, ha, hl2⟩ := getOrCreateTable_of_allocates Node.empty h
  rw [hnext l2 hl2] at ha
  obtain ⟨l3, l2', k₂, h2, -, -⟩ := getOrCreateTable_of_allocates L3.empty ha
  unfold mapPage
  rw [h1]
  dsimp only
  rw [h2]

end Alloc

/-! ## The two ways to resolve a fault -/

section Handlers

variable {P : PageAlloc} {base : Usage} {k : Kmem} {t : L1} {va : Nat} {vma : Vma}

theorem doAnonFault_slots (h : Acct P k (base + L1.usage P t)) (h0 : (doAnonFault k t va vma).1 = 0) :
    ∃ t₁ old kva, Grown t t₁ ∧ t₁.slot va = some old ∧
      (doAnonFault k t va vma).2.1 = t₁.setSlot va (mkPte kva (protToPte vma.vmFlags)) := by
  unfold doAnonFault at h0 ⊢
  cases ha : k.allocPage with
  | mk o k₁ =>
    rw [ha] at h0
    cases o with
    | none => exact absurd h0 (show -enomem ≠ 0 by decide)
    | some p =>
      dsimp only at h0 ⊢
      obtain ⟨-, hacct, -⟩ := allocPage_some h ha
      have hacct₁ : Acct P (k₁.pageZero p) (base + table p + L1.usage P t) := by
        rw [add_right_comm]
        exact hacct.congr rfl rfl
      rcases hm : mapPage (k₁.pageZero p) t va (mkPte ((k₁.pageZero p).pa.pfnToAddr p) (protToPte vma.vmFlags)) with
        ⟨ok, t', k₂⟩
      rw [hm] at h0
      obtain ⟨t₁, -, -, -, -, hgrown, -, hok⟩ := mapPage_spec hacct₁ hm
      cases ok with
      | false => exact absurd h0 (show -enomem ≠ 0 by decide)
      | true =>
        obtain ⟨old, hs, rfl⟩ := hok rfl
        exact ⟨t₁, old, _, hgrown, hs, rfl⟩

theorem doAnonFault_of_allocates (h : k.pa.allocates (1 + t.missing va) = true) : (doAnonFault k t va vma).1 = 0 := by
  rw [Nat.add_comm] at h
  obtain ⟨p, k₁, ha, hn⟩ := allocPage_of_allocates h
  unfold doAnonFault
  rw [ha]
  have hmap : ∀ pte, (mapPage (k₁.pageZero p) t va pte).1 = true := fun pte => mapPage_of_allocates hn
  dsimp only
  split
  · rfl
  · rename_i heq
    have := hmap (mkPte ((k₁.pageZero p).pa.pfnToAddr p) (protToPte vma.vmFlags))
    rw [heq] at this
    cases this

theorem doCowFault_slots (h0 : (doCowFault k t va vma).1 = 0) :
    ∃ old, t.slot va = some old ∧ pteCowCandidate old vma.vmFlags = true ∧
      ((doCowFault k t va vma).2.1 = t.setSlot va (pteMkwrite old) ∨
        ∃ kva, (doCowFault k t va vma).2.1 = t.setSlot va (pteMkwrite (mkPte kva (old &&& pteFlagsMask)))) := by
  unfold doCowFault at h0 ⊢
  cases hs : t.slot va with
  | none =>
    rw [hs] at h0
    exact absurd h0 (show -efault ≠ 0 by decide)
  | some old =>
    rw [hs] at h0
    dsimp only at h0 ⊢
    by_cases hcow : pteCowCandidate old vma.vmFlags = true
    · rw [if_pos hcow] at h0 ⊢
      refine ⟨old, rfl, hcow, ?_⟩
      cases hp : k.pa.pteFrame old with
      | none =>
        rw [hp] at h0
        exact absurd h0 (show -efault ≠ 0 by decide)
      | some p =>
        rw [hp] at h0
        dsimp only at h0 ⊢
        by_cases hone : k.pa.pageCount p = 1
        · rw [if_pos hone]
          exact Or.inl rfl
        · rw [if_neg hone] at h0 ⊢
          cases ha : k.allocPage with
          | mk o k₁ =>
            rw [ha] at h0
            cases o with
            | none => exact absurd h0 (show -enomem ≠ 0 by decide)
            | some q => exact Or.inr ⟨_, rfl⟩
    · rw [if_neg hcow] at h0
      exact absurd h0 (show -efault ≠ 0 by decide)

theorem doCowFault_of_allocates {old : BitVec 64} {p : Nat} (hs : t.slot va = some old)
    (hcow : pteCowCandidate old vma.vmFlags = true) (hp : k.pa.pteFrame old = some p)
    (h : k.pa.pageCount p ≠ 1 → k.pa.allocates 1 = true) : (doCowFault k t va vma).1 = 0 := by
  unfold doCowFault
  rw [hs]
  dsimp only
  rw [if_pos hcow, hp]
  dsimp only
  by_cases hone : k.pa.pageCount p = 1
  · rw [if_pos hone]
  · obtain ⟨q, k₁, ha, -⟩ := allocPage_of_allocates (h hone)
    rw [if_neg hone, ha]

end Handlers

/-! ## Faults -/

section Faults

variable {P : PageAlloc} {base : Usage} {k : Kmem} {mm : MmStruct} {addr : Nat} {access : Access}
    {esr : BitVec 64} {v : Vma}

/-- A fault the VMA does not permit, or outside of every VMA. -/
theorem doPageFault_refused (hr : access.Raises esr)
    (h : ∀ v, findVma mm.mmap addr = some v → v.vmStart ≤ addr → access.allowed v.vmFlags = false) :
    (doPageFault k mm addr esr).1 ≠ 0 := by
  unfold doPageFault
  dsimp only
  cases hf : findVma mm.mmap addr with
  | none => exact show -efault ≠ 0 by decide
  | some v =>
    dsimp only
    by_cases hlt : addr < v.vmStart
    · rw [if_pos hlt]
      exact show -efault ≠ 0 by decide
    · rw [if_neg hlt, faultAllowed_eq hr, h v hf (Nat.le_of_not_lt hlt)]
      exact show -efault ≠ 0 by decide

theorem doPageFault_unmapped (hr : access.Raises esr) (hf : findVma mm.mmap addr = some v) (hle : v.vmStart ≤ addr)
    (ha : access.allowed v.vmFlags = true) (hun : mm.pgd.vaMapped (pageTrunc addr) = false) :
    (doPageFault k mm addr esr).1 = (doAnonFault k mm.pgd (pageTrunc addr) v).1 ∧
      (doPageFault k mm addr esr).2.1 = { mm with pgd := (doAnonFault k mm.pgd (pageTrunc addr) v).2.1 } := by
  unfold doPageFault
  rw [hf]
  dsimp only
  rw [if_neg (Nat.not_lt.2 hle), faultAllowed_eq hr, ha, hun]
  exact ⟨rfl, rfl⟩

theorem doPageFault_mapped (hr : access.Raises esr) (hf : findVma mm.mmap addr = some v) (hle : v.vmStart ≤ addr)
    (ha : access.allowed v.vmFlags = true) (hmap : mm.pgd.vaMapped (pageTrunc addr) = true) :
    (access = .write ∧ (doPageFault k mm addr esr).1 = (doCowFault k mm.pgd (pageTrunc addr) v).1 ∧
      (doPageFault k mm addr esr).2.1 = { mm with pgd := (doCowFault k mm.pgd (pageTrunc addr) v).2.1 }) ∨
    (access ≠ .write ∧ (doPageFault k mm addr esr).1 ≠ 0) := by
  unfold doPageFault
  rw [hf]
  dsimp only
  rw [if_neg (Nat.not_lt.2 hle), faultAllowed_eq hr, ha, hmap, hasWnr_eq hr]
  by_cases hw : access = .write
  · rw [hw]
    exact Or.inl ⟨rfl, rfl, rfl⟩
  · rw [decide_eq_false hw]
    exact Or.inr ⟨hw, show -efault ≠ 0 by decide⟩

theorem samePage_self (a : Nat) : samePage a a = true := decide_eq_true rfl

theorem samePage_trunc (addr a : Nat) : samePage (pageTrunc addr) a = samePage addr a := by
  have hpage : pageTrunc addr % userVaLimit / pageSize = addr % userVaLimit / pageSize := by
    simp only [pageTrunc, pageSize, userVaLimit]
    omega
  unfold samePage
  rw [hpage]

theorem slot_trunc (t : L1) (addr : Nat) : t.slot (pageTrunc addr) = t.slot addr := by
  refine slot_congr t ((sameSlot_iff _ _).2 ?_)
  rw [samePage_trunc]
  exact samePage_self addr

theorem missing_trunc (t : L1) (addr : Nat) : t.missing (pageTrunc addr) = t.missing addr := by
  obtain ⟨h1, h2, -⟩ : SameSlot (pageTrunc addr) addr := by
    rw [sameSlot_iff, samePage_trunc]
    exact samePage_self addr
  unfold L1.missing
  rw [h1, h2]

theorem permits_setSlot {t t₁ : L1} {old pte : BitVec 64} (hs : t₁.slot (pageTrunc addr) = some old)
    (ht : t = t₁.setSlot (pageTrunc addr) pte) (hp : access.permits pte = true) :
    (t.slot addr).any access.permits = true ∧ ∀ a, samePage addr a = false → t.slot a = t₁.slot a := by
  rw [ht]
  constructor
  · rw [slot_setSlot hs, samePage_trunc, if_pos (samePage_self addr)]
    exact hp
  · intro a hother
    rw [slot_setSlot hs, samePage_trunc, hother]
    rfl

theorem anon_permits (hr : access.Raises esr) (hacct : Acct P k (base + L1.usage P mm.pgd))
    (hf : findVma mm.mmap addr = some v)
    (hle : v.vmStart ≤ addr) (ha : access.allowed v.vmFlags = true) (hun : mm.pgd.vaMapped (pageTrunc addr) = false)
    (h0 : (doPageFault k mm addr esr).1 = 0) :
    ((doPageFault k mm addr esr).2.1.pgd.slot addr).any access.permits = true ∧
      ∀ a, samePage addr a = false → (doPageFault k mm addr esr).2.1.pgd.slot a = mm.pgd.slot a ∨
        (mm.pgd.slot a = none ∧ (doPageFault k mm addr esr).2.1.pgd.slot a = some 0) := by
  obtain ⟨hret, hmm⟩ := doPageFault_unmapped (k := k) hr hf hle ha hun
  obtain ⟨t₁, old, kva, hgrown, hs, hslots⟩ := doAnonFault_slots hacct (hret.symm.trans h0)
  have hpres : ptePresent (mkPte kva (protToPte v.vmFlags)) = true := by
    have := present_protToPte v.vmFlags
    unfold ptePresent mkPte at *
    rw [hasBits_or, this, Bool.or_true]
  have hwrite : access = .write → hasBits (mkPte kva (protToPte v.vmFlags)) pteRdonly = false := by
    rintro rfl
    unfold mkPte
    rw [hasBits_or, hasBits_and_of_disjoint (by decide), rdonly_protToPte,
      show hasBits v.vmFlags protWrite = true from ha]
    rfl
  rw [hmm]
  obtain ⟨hperm, hother⟩ := permits_setSlot hs hslots ((pteAgrees_mkPte kva v.vmFlags).permits hpres ha hwrite)
  refine ⟨hperm, fun a hpage => ?_⟩
  dsimp only
  rw [hother a hpage]
  exact hgrown a

theorem cow_permits (hr : access.Raises esr) (hag : Agreeing mm) (haddr : addr < userVaLimit)
    (hf : findVma mm.mmap addr = some v)
    (hle : v.vmStart ≤ addr) (ha : access.allowed v.vmFlags = true) (hmap : mm.pgd.vaMapped (pageTrunc addr) = true)
    (h0 : (doPageFault k mm addr esr).1 = 0) :
    ((doPageFault k mm addr esr).2.1.pgd.slot addr).any access.permits = true ∧
      ∀ a, samePage addr a = false → (doPageFault k mm addr esr).2.1.pgd.slot a = mm.pgd.slot a := by
  obtain ⟨rfl, hret, hmm⟩ | ⟨-, hne⟩ := doPageFault_mapped (k := k) hr hf hle ha hmap
  swap
  · exact absurd h0 hne
  obtain ⟨old, hs, hcow, hslots⟩ := doCowFault_slots (hret.symm.trans h0)
  obtain ⟨⟨hold, -⟩, -⟩ : (ptePresent old = true ∧ hasBits old pteRdonly = true) ∧ _ := by
    simpa [pteCowCandidate] using hcow
  obtain ⟨flags, hflags, hagree⟩ := hag addr old haddr ((slot_trunc _ _).symm.trans hs) hold
  obtain rfl := Option.mem_unique (flagsAt_of_findVma hf hle) hflags
  rw [hmm]
  rcases hslots with ht | ⟨kva, ht⟩
  · refine permits_setSlot hs ht ((hagree.mkwrite ha).permits ?_ ha fun _ => rdonly_mkwrite old)
    rw [present_mkwrite, hold]
  · refine permits_setSlot hs ht (((hagree.copy kva).mkwrite ha).permits ?_ ha fun _ => rdonly_mkwrite _)
    rw [present_mkwrite]
    have hkeep : hasBits (old &&& pteFlagsMask) 1 = hasBits old 1 := hasBits_and_of_sub (by decide)
    unfold ptePresent at hold
    unfold ptePresent mkPte
    rw [hasBits_or, hkeep, hold, Bool.or_true]

theorem doPageFault_rest (k : Kmem) (mm : MmStruct) (addr : Nat) (esr : BitVec 64) :
    (doPageFault k mm addr esr).2.1 = { mm with pgd := (doPageFault k mm addr esr).2.1.pgd } := by
  unfold doPageFault
  dsimp only
  split
  · rfl
  · split_ifs <;> rfl

end Faults

/-- A user fault below 2 ^ 39, in an address space whose entries agree with its VMAs: a result of 0 means
that the fault is resolved, and a fault on an access that the VMA permits and the entry refused has the
result 0 when the pages it takes can be allocated. -/
theorem doPageFault_resolves (P : PageAlloc) (s : MmSys) (i : Nat) (mm : MmStruct) (hI : MmInv P s)
    (hi : s.mms[i]? = some (some mm)) (hok : VmasOk mm.mmap) (hag : Agreeing mm) (addr : Nat)
      (haddr : addr < userVaLimit) (access : Access) (esr : BitVec 64) (hr : access.Raises esr) :
    ((doPageFault s.k mm addr esr).1 = 0 →
      Resolved P s i mm (doPageFault s.k mm addr esr).2.1 (doPageFault s.k mm addr esr).2.2 addr access) ∧
    ((∃ flags, flagsAt mm.mmap addr = some flags ∧ access.allowed flags = true) →
      (mm.pgd.slot addr).any access.permits = false → s.k.pa.allocates (pagesNeeded s.k mm.pgd addr) = true →
      (doPageFault s.k mm addr esr).1 = 0) := by
  obtain ⟨base, hfocus⟩ := exists_focus (P := P) hi
  have hacct := hfocus.acct hI rfl rfl
  have htrans := doPageFault_trans mm hfocus.small hacct addr esr
  constructor
  · intro h0
    obtain ⟨v, hf, hle, ha⟩ : ∃ v, findVma mm.mmap addr = some v ∧ v.vmStart ≤ addr ∧
      access.allowed v.vmFlags = true := by
      by_contra hnone
      push Not at hnone
      exact doPageFault_refused hr (fun v hf hle => by simpa using hnone v hf hle) h0
    have hothers : ∀ j mm₁, j ≠ i → s.mms[j]? = some (some mm₁) → ∀ a, _ :=
      fun j mm₁ hne hj a => hfocus.view_others htrans.data hne hj a
    have hrest := doPageFault_rest s.k mm addr esr
    cases hmap : mm.pgd.vaMapped (pageTrunc addr) with
    | false =>
      obtain ⟨hperm, hpages⟩ := anon_permits hr hacct hf hle ha hmap h0
      exact ⟨⟨_, flagsAt_of_findVma hf hle, ha⟩, hperm, htrans.view, hpages, hrest, hothers⟩
    | true =>
      obtain ⟨hperm, hpages⟩ := cow_permits hr hag haddr hf hle ha hmap h0
      exact ⟨⟨_, flagsAt_of_findVma hf hle, ha⟩, hperm, htrans.view, fun a hp => Or.inl (hpages a hp), hrest, hothers⟩
  · rintro ⟨flags, hflags, ha⟩ hdenied halloc
    obtain ⟨v, hf, hle, rfl⟩ := findVma_of_flagsAt hok hflags
    unfold pagesNeeded at halloc
    have hmapped : mm.pgd.vaMapped (pageTrunc addr) = mm.pgd.vaMapped addr := by
      unfold L1.vaMapped
      rw [slot_trunc]
    cases hmap : mm.pgd.vaMapped addr with
    | false =>
      rw [hmap, if_neg (by decide), ← missing_trunc] at halloc
      rw [(doPageFault_unmapped hr hf hle ha (hmapped.trans hmap)).1]
      exact doAnonFault_of_allocates halloc
    | true =>
      rw [hmap, if_pos rfl] at halloc
      obtain ⟨old, hs, hold⟩ : ∃ old, mm.pgd.slot addr = some old ∧ ptePresent old = true := by
        unfold L1.vaMapped at hmap
        split at hmap
        · cases hmap
        · rename_i old hs
          exact ⟨old, hs, hmap⟩
      obtain ⟨flags, hflags', hagree⟩ := hag addr old haddr hs hold
      obtain rfl := Option.mem_unique hflags hflags'
      -- an access that a present entry refuses is a write to a protected page
      have hrefused : access = .write ∧ hasBits old pteRdonly = true := by
        rw [hs] at hdenied
        by_contra hno
        refine absurd (hagree.permits hold ha fun hw => ?_)
          (by rw [show access.permits old = false from hdenied]; decide)
        simpa [hw] using hno
      obtain ⟨rfl, hro⟩ := hrefused
      obtain ⟨-, hret, -⟩ | ⟨hne, -⟩ := doPageFault_mapped (k := s.k) hr hf hle ha (hmapped.trans hmap)
      · rw [hret]
        obtain ⟨p, hp⟩ := Option.isSome_iff_exists.1 (hI.backed i mm hi addr old hs hold)
        rw [← hacct.pteFrame_eq] at hp
        refine doCowFault_of_allocates ((slot_trunc ..).trans hs) ?_ hp fun hmany => ?_
        · unfold pteCowCandidate
          rw [hold, hro, show hasBits v.vmFlags protWrite = true from ha]
          rfl
        · simpa [hs, hp, hmany] using halloc
      · exact absurd rfl hne

/-- The first write to a fresh address space. -/
theorem doPageFault_resolves_of_first : ∃ s mm, MmInv (init PageSys.oddStart).k.pa s ∧ s.mms[0]? = some (some mm) ∧
    (doPageFault s.k mm 0x400010 (dabtEsr true)).1 = 0 ∧
    Resolved (init PageSys.oddStart).k.pa s 0 mm (doPageFault s.k mm 0x400010 (dabtEsr true)).2.1
      (doPageFault s.k mm 0x400010 (dabtEsr true)).2.2 0x400010 .write := by
  have hsome : (mmAlloc ((init PageSys.oddStart).withScript [([], true)])).1.isSome = true := by decide +kernel
  have hpages : (mmAlloc ((init PageSys.oddStart).withScript [([], true)])).2.pa.allocates 3 = true := by decide +kernel
  rcases hm : mmAlloc ((init PageSys.oddStart).withScript [([], true)]) with ⟨o, k⟩
  rw [hm] at hsome hpages
  obtain ⟨mm, rfl⟩ := Option.isSome_iff_exists.1 hsome
  obtain ⟨p, hpgd⟩ := (mmAlloc_spec ((init_mmInv PageSys.oddStart).acct_withScript [([], true)]) hm).2.2.2 mm rfl
  have hcreate : (init PageSys.oddStart).create
      ⟨[⟨0x400000, 0x402000, protRead ||| protWrite⟩], 0, 0, 0, 0⟩ [([], true)] =
      some (⟨k, [some { mm with
        mmap := [⟨0x400000, 0x402000, protRead ||| protWrite⟩], stackTop := 0, startBrk := 0, brk := 0, mmapBase :=
          0 }]⟩, .created) := by
    unfold create
    rw [if_pos (by decide), hm]
    rfl
  have hI := (create_ok (init_mmInv PageSys.oddStart) hcreate).inv
  have hslot : ∀ a, mm.pgd.slot a = none := by
    rw [hpgd]
    exact fun a => rfl
  have hok : VmasOk [⟨0x400000, 0x402000, protRead ||| protWrite⟩] := by
    refine ⟨fun v hv => ?_, List.pairwise_singleton ..⟩
    obtain rfl := List.mem_singleton.1 hv
    exact ⟨by decide, by decide, by decide, by decide⟩
  have hneeded : pagesNeeded k mm.pgd 0x400010 = 3 := by
    rw [hpgd]
    rfl
  have hag : Agreeing { mm with
      mmap := [⟨0x400000, 0x402000, protRead ||| protWrite⟩], stackTop := 0, startBrk := 0, brk := 0,
        mmapBase := 0 } := by
    intro a pte _ hs
    rw [show _ = none from hslot a] at hs
    cases hs
  have hraises : Access.write.Raises (dabtEsr true) := ⟨by decide, by decide⟩
  obtain ⟨hsound, hprogress⟩ := doPageFault_resolves _ _ 0 _ hI rfl hok hag 0x400010 (by decide) .write
    (dabtEsr true) hraises
  have hdenied : (mm.pgd.slot 0x400010).any Access.write.permits = false := by
    rw [hslot]
    rfl
  have h0 := hprogress ⟨_, rfl, by decide⟩ hdenied ((congrArg (fun n => k.pa.allocates n) hneeded).trans hpages)
  exact ⟨_, _, hI, rfl, h0, hsound h0⟩

end MiniOs.Mm
