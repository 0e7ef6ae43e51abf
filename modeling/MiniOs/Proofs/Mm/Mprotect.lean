/-
`mprotect`: the two splits put VMA boundaries at the ends of the range without changing the protection of
an address, so that the loop changes whole VMAs, and the entries of exactly the pages of the range.
-/
import MiniOs.Proofs.Mm.Munmap

namespace MiniOs.Mm

open MmSys

/-! ## Splits -/

/-- No VMA has addresses on both sides of `x`. -/
def Parted (vmas : List Vma) (x : Nat) : Prop := ∀ v ∈ vmas, v.vmEnd ≤ x ∨ x ≤ v.vmStart

section Splits

variable {k : Kmem} {v : Vma} {vmas : List Vma} {key addr start stop x a : Nat}

/-- A split leaves the list as it is, or cuts one VMA in two. -/
theorem vmaSplit_cases (k : Kmem) (key addr : Nat) (vmas : List Vma) :
    (vmaSplit key addr k vmas).2.1 = vmas ∨
      ∃ pre v post, vmas = pre ++ v :: post ∧ v.vmStart < addr ∧ addr < v.vmEnd ∧
        (vmaSplit key addr k vmas).2.1 = pre ++ { v with vmEnd := addr } :: { v with vmStart := addr } :: post := by
  induction vmas with
  | nil => exact Or.inl rfl
  | cons v vmas ih =>
    unfold vmaSplit
    split_ifs with hkey hout
    · exact Or.inl rfl
    · rcases k.objCall with ⟨ok, k'⟩
      cases ok with
      | false => exact Or.inl rfl
      | true => exact Or.inr ⟨[], v, vmas, rfl, by omega, by omega, rfl⟩
    · rcases ih with heq | ⟨pre, w, post, hsplit, h1, h2, heq⟩
      · exact Or.inl (congrArg (v :: ·) heq)
      · exact Or.inr ⟨v :: pre, w, post, by rw [hsplit]; rfl, h1, h2, congrArg (v :: ·) heq⟩

theorem vmaSplit_flags (k : Kmem) (key addr : Nat) (vmas : List Vma) (a : Nat) :
    flagsAt (vmaSplit key addr k vmas).2.1 a = flagsAt vmas a := by
  obtain heq | ⟨pre, v, post, hsplit, h1, h2, heq⟩ := vmaSplit_cases k key addr vmas
  · rw [heq]
  · rw [heq, hsplit, flagsAt_append, flagsAt_append]
    congr 1
    simp only [flagsAt_cons, Vma.Covers]
    split_ifs <;> first | rfl | omega

/-- What holds of every VMA holds after a split if it holds of the two parts. -/
theorem vmaSplit_forall {p : Vma → Prop} (h : ∀ v ∈ vmas, p v) (k : Kmem) (key : Nat)
    (hcut : ∀ v, p v → v.vmStart < addr →
    addr < v.vmEnd → p { v with vmEnd := addr } ∧ p { v with vmStart := addr }) : ∀ v ∈ (vmaSplit key addr k vmas).2.1,
      p v := by
  obtain heq | ⟨pre, v, post, rfl, h1, h2, heq⟩ := vmaSplit_cases k key addr vmas
  · rw [heq]
    exact h
  rw [heq]
  obtain ⟨hlow, hhigh⟩ := hcut v (h v (by simp)) h1 h2
  intro w hw
  rcases List.mem_append.1 hw with hw | hw
  · exact h w (List.mem_append_left _ hw)
  · rcases List.mem_cons.1 hw with rfl | hw
    · exact hlow
    · rcases List.mem_cons.1 hw with rfl | hw
      · exact hhigh
      · exact h w (by simp [hw])

theorem VmasOk.vmaSplit (h : VmasOk vmas) (ha : pageSize ∣ addr) (k : Kmem) (key : Nat) :
    VmasOk (vmaSplit key addr k vmas).2.1 := by
  constructor
  · refine vmaSplit_forall h.1 k key fun v hok h1 h2 => ⟨⟨h1.le, hok.start, ha, ?_⟩, ⟨h2.le, ha, hok.stop, hok.word⟩⟩
    have := hok.word
    dsimp only
    omega
  obtain heq | ⟨pre, v, post, rfl, h1, h2, heq⟩ := vmaSplit_cases k key addr vmas
  · rw [heq]
    exact h.2
  · rw [heq]
    obtain ⟨hpre, hpost, hcross⟩ := List.pairwise_append.1 h.2
    obtain ⟨hv, hpost⟩ := List.pairwise_cons.1 hpost
    refine List.pairwise_append.2 ⟨hpre, ?_, ?_⟩
    · refine List.pairwise_cons.2 ⟨?_, List.pairwise_cons.2 ⟨hv, hpost⟩⟩
      intro w hw
      rcases List.mem_cons.1 hw with rfl | hw
      · exact Nat.le_refl addr
      · have := hv w hw
        dsimp only
        omega
    · intro w hw x hx
      have hwv := hcross w hw v (by simp)
      rcases List.mem_cons.1 hx with rfl | hx
      · exact hwv
      · rcases List.mem_cons.1 hx with rfl | hx
        · dsimp only
          omega
        · exact hcross w hw x (List.mem_cons_of_mem v hx)

theorem Parted.vmaSplit (h : Parted vmas x) (k : Kmem) (key addr : Nat) : Parted (vmaSplit key addr k vmas).2.1 x := by
  refine vmaSplit_forall h k key fun v hv h1 h2 => ?_
  dsimp only
  omega

/-- After a split at `addr` of the VMA around it, no VMA reaches over `addr`. The two calls look for it from
`addr` and from the byte before. -/
theorem vmaSplit_parted (h : VmasOk vmas) (hle : key ≤ addr) (hnear : addr ≤ key + 1)
    (ht : (vmaSplit key addr k vmas).1 = true) : Parted (vmaSplit key addr k vmas).2.1 addr := by
  induction vmas with
  | nil => exact fun w hw => absurd hw List.not_mem_nil
  | cons v vmas ih =>
    have hlater := (List.pairwise_cons.1 h.sorted).1
    unfold vmaSplit at ht ⊢
    split_ifs at ht ⊢ with hkey hout
    · intro w hw
      rcases List.mem_cons.1 hw with rfl | hw
      · omega
      · have := hlater w hw
        omega
    · rcases hobj : k.objCall with ⟨ok, k'⟩
      rw [hobj] at ht
      cases ok with
      | false => cases ht
      | true =>
        intro w hw
        rcases List.mem_cons.1 hw with rfl | hw
        · exact Or.inl (Nat.le_refl addr)
        · rcases List.mem_cons.1 hw with rfl | hw
          · exact Or.inr (Nat.le_refl addr)
          · have := hlater w hw
            omega
    · intro w hw
      rcases List.mem_cons.1 hw with rfl | hw
      · omega
      · exact ih h.tail ht w hw

/-! ## Coverage -/

theorem findVma_some (h : findVma vmas x = some v) : v ∈ vmas ∧ x < v.vmEnd :=
  ⟨List.mem_of_find?_eq_some h, by simpa using List.find?_some h⟩

/-- The walk of `mprotect_covered` ends behind the range only when it met no gap. -/
theorem mprotectCovered_flags {fuel : Nat} (h : mprotectCovered vmas stop fuel start = true) (h1 : start ≤ a)
    (h2 : a < stop) : (flagsAt vmas a).isSome = true := by
  induction fuel generalizing start with
  | zero =>
    unfold mprotectCovered at h
    have : stop ≤ start := by simpa using h
    omega
  | succ fuel ih =>
    unfold mprotectCovered at h
    rw [if_pos (by omega)] at h
    cases hfind : findVma vmas start with
    | none => simp [hfind] at h
    | some v =>
      obtain ⟨hv, hend⟩ := findVma_some hfind
      simp only [hfind] at h
      split_ifs at h with hgap
      by_cases hin : a < v.vmEnd
      · rw [Option.isSome_iff_ne_none]
        intro hnone
        exact flagsAt_eq_none.1 hnone v hv ⟨by omega, hin⟩
      · exact ih h (by omega)

end Splits

/-! ## The VMAs of the range -/

/-- What the loop of `mm_mprotect` does to a VMA that starts before `stop`. -/
def Vma.reprotect (start stop : Nat) (mapProt : BitVec 64) (v : Vma) : Vma :=
  if start < v.vmEnd ∧ v.vmStart < stop then { v with vmFlags := vmReplaceProt v.vmFlags mapProt } else v

variable {old : BitVec 64}

section Range

variable {k : Kmem} {t : L1} {v : Vma} {vmas : List Vma} {start stop a va : Nat} {mapProt : BitVec 64}

@[simp] theorem reprotect_vmStart : (v.reprotect start stop mapProt).vmStart = v.vmStart := by
  unfold Vma.reprotect
  split <;> rfl

@[simp] theorem reprotect_vmEnd : (v.reprotect start stop mapProt).vmEnd = v.vmEnd := by
  unfold Vma.reprotect
  split <;> rfl

theorem VmasOk.reprotect (h : VmasOk vmas) : VmasOk (vmas.map (Vma.reprotect start stop mapProt)) := by
  constructor
  · intro w hw
    obtain ⟨v, hv, rfl⟩ := List.mem_map.1 hw
    obtain ⟨h1, h2, h3, h4⟩ := h.each v hv
    exact ⟨by simpa using h1, by simpa using h2, by simpa using h3, by simpa using h4⟩
  · rw [List.pairwise_map]
    simpa using h.sorted

theorem flagsAt_reprotect (hstart : Parted vmas start) (hstop : Parted vmas stop) :
    flagsAt (vmas.map (Vma.reprotect start stop mapProt)) a =
      if start ≤ a ∧ a < stop then (flagsAt vmas a).map (vmReplaceProt · mapProt) else flagsAt vmas a := by
  induction vmas with
  | nil => simp [flagsAt_nil]
  | cons v vmas ih =>
    have hrest := ih (fun w hw => hstart w (List.mem_cons_of_mem v hw)) fun w hw => hstop w (List.mem_cons_of_mem v hw)
    have h1 := hstart v (List.mem_cons_self ..)
    have h2 := hstop v (List.mem_cons_self ..)
    rw [List.map_cons, flagsAt_cons, flagsAt_cons, hrest]
    simp only [Vma.Covers, reprotect_vmStart, reprotect_vmEnd]
    by_cases hc : v.vmStart ≤ a ∧ a < v.vmEnd
    · rw [if_pos hc, if_pos hc]
      unfold Vma.reprotect
      by_cases hin : start ≤ a ∧ a < stop
      · rw [if_pos hin, if_pos (by omega)]
        rfl
      · rw [if_neg hin, if_neg (by omega)]
    · rw [if_neg hc, if_neg hc]

theorem reprotect_of_le (h : stop ≤ v.vmStart) : v.reprotect start stop mapProt = v := if_neg (by omega)

theorem reprotect_of_before (h : v.vmEnd ≤ start) : v.reprotect start stop mapProt = v := if_neg (by omega)

/-- The loop from a VMA on that ends behind `start`. It stops at the first VMA behind the range, as all the
later ones are. -/
theorem mprotectLoop_vmas (h : VmasOk vmas) (hlate : ∀ v ∈ vmas, start < v.vmEnd) (t : L1) :
    (mprotectLoop k stop mapProt t vmas).2 = vmas.map (Vma.reprotect start stop mapProt) := by
  induction vmas generalizing t with
  | nil => rfl
  | cons v vmas ih =>
    unfold mprotectLoop
    split_ifs with hlt
    · have hv : v.reprotect start stop mapProt = { v with vmFlags := vmReplaceProt v.vmFlags mapProt } :=
        if_pos ⟨hlate v (List.mem_cons_self ..), hlt⟩
      rw [List.map_cons, hv, ← ih h.tail (fun w hw => hlate w (List.mem_cons_of_mem v hw))]
    · have hkept : ∀ w ∈ v :: vmas, w.reprotect start stop mapProt = id w := by
        intro w hw
        apply reprotect_of_le
        rcases List.mem_cons.1 hw with rfl | hw
        · omega
        · have hle := (List.pairwise_cons.1 h.sorted).1 w hw
          have horder := (h.each v (List.mem_cons_self ..)).order
          omega
      rw [List.map_congr_left hkept, List.map_id]

/-- The part of a sorted list from the first VMA on that ends behind `start`. -/
theorem lt_of_mem_dropWhile (h : VmasOk vmas) : ∀ v ∈ vmas.dropWhile fun v => v.vmEnd ≤ start, start < v.vmEnd := by
  induction vmas with
  | nil => exact fun v hv => absurd hv List.not_mem_nil
  | cons v vmas ih =>
    rw [List.dropWhile_cons]
    split_ifs with hle
    · exact ih h.tail
    · have hv : start < v.vmEnd := by simpa using hle
      intro w hw
      rcases List.mem_cons.1 hw with rfl | hw
      · exact hv
      · have hnext := (List.pairwise_cons.1 h.sorted).1 w hw
        have horder := (h.each w (List.mem_cons_of_mem v hw)).order
        omega

theorem mprotect_vmas (h : VmasOk vmas) (t : L1) :
    (vmas.takeWhile fun v => v.vmEnd ≤ start) ++
      (mprotectLoop k stop mapProt t (vmas.dropWhile fun v => v.vmEnd ≤ start)).2 =
      vmas.map (Vma.reprotect start stop mapProt) := by
  have hbefore : ∀ v ∈ vmas.takeWhile fun v => v.vmEnd ≤ start, v.reprotect start stop mapProt = id v := by
    intro v hv
    exact reprotect_of_before (by simpa using List.mem_takeWhile_imp hv)
  rw [mprotectLoop_vmas (h.sublist (List.dropWhile_sublist _)) (lt_of_mem_dropWhile h)]
  conv_rhs => rw [← List.takeWhile_append_dropWhile (p := fun v => v.vmEnd ≤ start) (l := vmas)]
  rw [List.map_append, List.map_congr_left hbefore, List.map_id]

/-! ## The entries of the range -/

/-- What `change_pte_prot` makes of an entry. -/
def reprot (k : Kmem) (mapProt old : BitVec 64) : BitVec 64 :=
  if ptePresent old then
    let pte := (old &&& pteAddrMask) ||| protToPte mapProt
    if hasBits mapProt protWrite && (k.pa.pteFrame old).any (k.pa.pageCount · > 1) then pteWrprotect pte else pte
  else old

theorem changePteProt_slot (k : Kmem) (t : L1) (va : Nat) (mapProt : BitVec 64) (a : Nat) :
    (changePteProt k t va mapProt).slot a = if samePage va a then (t.slot a).map (reprot k mapProt) else t.slot a := by
  unfold changePteProt
  cases hs : t.slot va with
  | none =>
    split_ifs with hsame
    · rw [← slot_samePage t hsame, hs]
      rfl
    · rfl
  | some old =>
    by_cases hp : ptePresent old = true
    · simp only [if_pos hp]
      rw [slot_setSlot hs]
      by_cases hsame : samePage va a = true
      · rw [if_pos hsame, if_pos hsame, ← slot_samePage t hsame, hs, Option.map_some]
        unfold reprot
        rw [if_pos hp]
        cases k.pa.pteFrame old <;> rfl
      · rw [if_neg hsame, if_neg hsame]
    · simp only [if_neg hp]
      split_ifs with hsame
      · rw [← slot_samePage t hsame, hs, Option.map_some]
        unfold reprot
        rw [if_neg hp]
      · rfl

theorem present_reprot : ptePresent (reprot k mapProt old) = ptePresent old := by
  unfold reprot
  by_cases hp : ptePresent old = true
  · have hnew : ptePresent ((old &&& pteAddrMask) ||| protToPte mapProt) = true := by
      have := present_protToPte mapProt
      unfold ptePresent at this ⊢
      rw [hasBits_or, this, Bool.or_true]
    rw [if_pos hp]
    dsimp only
    split_ifs
    · rw [present_wrprotect, hnew, hp]
    · rw [hnew, hp]
  · rw [if_neg hp]

theorem addr_reprot : reprot k mapProt old &&& pteAddrMask = old &&& pteAddrMask := by
  have hnew : ((old &&& pteAddrMask) ||| protToPte mapProt) &&& pteAddrMask = old &&& pteAddrMask :=
    (addr_or (addr_protToPte mapProt)).trans (addr_and_mask old)
  unfold reprot
  dsimp only
  split_ifs
  · rw [addr_wrprotect, hnew]
  · exact hnew
  · rfl

/-- A page that is met twice is changed once. -/
theorem reprot_reprot (old : BitVec 64) : reprot k mapProt (reprot k mapProt old) = reprot k mapProt old := by
  by_cases hp : ptePresent old = true
  · have hframe : k.pa.pteFrame (reprot k mapProt old) = k.pa.pteFrame old := pteFrame_of_kva (pteKva_congr addr_reprot)
    have hequation : ∀ {old}, ptePresent old = true → reprot k mapProt old = _ := fun hp => if_pos hp
    rw [hequation (present_reprot.trans hp), hframe, addr_reprot, hequation hp]
  · have hsame : reprot k mapProt old = old := if_neg hp
    rw [hsame, hsame]

/-- The entries a part of the loop changes are those of the pages it meets. -/
def Reprotects (k : Kmem) (mapProt : BitVec 64) (met : Nat → Prop) (t t' : L1) : Prop :=
  ∀ a, (met a → t'.slot a = (t.slot a).map (reprot k mapProt)) ∧ (¬ met a → t'.slot a = t.slot a)

theorem Reprotects.congr {met met' : Nat → Prop} {t' : L1} (h : Reprotects k mapProt met t t')
    (hiff : ∀ a, met' a ↔ met a) : Reprotects k mapProt met' t t' := fun a =>
  ⟨fun hm => (h a).1 ((hiff a).1 hm), fun hm => (h a).2 fun hn => hm ((hiff a).2 hn)⟩

theorem Reprotects.trans {met met' : Nat → Prop} {t' t'' : L1} (h : Reprotects k mapProt met t t')
    (h' : Reprotects k mapProt met' t' t'') : Reprotects k mapProt (fun a => met a ∨ met' a) t t'' := by
  intro a
  by_cases hm : met a
  · refine ⟨fun _ => ?_, fun hn => absurd (Or.inl hm) hn⟩
    by_cases hm' : met' a
    · rw [(h' a).1 hm', (h a).1 hm, Option.map_map]
      congr 1
      exact funext reprot_reprot
    · rw [(h' a).2 hm', (h a).1 hm]
  · constructor
    · intro hor
      rw [(h' a).1 (hor.resolve_left hm), (h a).2 hm]
    · intro hn
      rw [(h' a).2 fun hm' => hn (Or.inr hm'), (h a).2 hm]

theorem changePteProt_reprotects (va : Nat) :
    Reprotects k mapProt (fun a => samePage va a = true) t (changePteProt k t va mapProt) := by
  intro a
  rw [changePteProt_slot]
  exact ⟨fun hs => if_pos hs, fun hs => if_neg hs⟩

theorem changeProtRange_reprotects (t : L1) (vas : List Nat) :
    Reprotects k mapProt (fun a => ∃ va ∈ vas, samePage va a = true) t (changeProtRange k mapProt t vas) := by
  induction vas generalizing t with
  | nil => exact fun a => ⟨fun hm => absurd hm (by simp), fun _ => rfl⟩
  | cons va vas ih =>
    have hboth := (changePteProt_reprotects va).trans (ih (changePteProt k t va mapProt))
    exact hboth.congr fun a => by simp

theorem mprotectLoop_reprotects (h : VmasOk vmas) (t : L1) :
    Reprotects k mapProt (fun a => ∃ v ∈ vmas, v.vmStart < stop ∧ ∃ va ∈ pageRange v.vmStart v.vmEnd,
      samePage va a = true) t (mprotectLoop k stop mapProt t vmas).1 := by
  induction vmas generalizing t with
  | nil => exact fun a => ⟨fun hm => absurd hm (by simp), fun _ => rfl⟩
  | cons v vmas ih =>
    unfold mprotectLoop
    split_ifs with hlt
    · have hboth := (changeProtRange_reprotects t (pageRange v.vmStart v.vmEnd)).trans (ih h.tail _)
      refine hboth.congr fun a => ?_
      simp only [List.mem_cons, exists_eq_or_imp, hlt, true_and]
    · refine fun a => ⟨?_, fun _ => rfl⟩
      rintro ⟨w, hw, hbefore, -⟩
      rcases List.mem_cons.1 hw with rfl | hw
      · exact absurd hbefore hlt
      · have hle := (List.pairwise_cons.1 h.sorted).1 w hw
        have horder := (h.each v (List.mem_cons_self ..)).order
        omega

/-- Below 2 ^ 39 the pages of a VMA are those of its addresses. -/
theorem exists_pageRange_iff_covers (hv : v.Ok) (hlimit : v.vmEnd ≤ userVaLimit) (ha : a < userVaLimit) :
    (∃ va ∈ pageRange v.vmStart v.vmEnd, samePage va a = true) ↔ v.Covers a := by
  rw [exists_pageRange_iff hv.start hv.stop]
  obtain ⟨-, hstart, hstop, -⟩ := hv
  constructor
  · rintro ⟨va, h1, h2, hsame⟩
    rw [samePage_iff, Nat.mod_eq_of_lt (by omega), Nat.mod_eq_of_lt ha] at hsame
    simp only [pageSize] at hstart hstop hsame
    constructor <;> omega
  · rintro ⟨h1, h2⟩
    exact ⟨a, h1, h2, samePage_iff.2 rfl⟩

end Range

/-! ## `mprotect` -/

/-- The entry allows what `prot` asks for, except that a frame with more than one user stays read-only; it
leads to the frame it led to. -/
structure HasProt (pa : PageAlloc) (old pte prot : BitVec 64) : Prop where
  present : ptePresent pte = true
  addr : pte &&& pteAddrMask = old &&& pteAddrMask
  user : hasBits pte pteUser = hasBits prot (protRead ||| protWrite ||| protExec)
  rdonly : hasBits pte pteRdonly = (!hasBits prot protWrite || (pa.pteFrame old).any (pa.pageCount · > 1))
  uxn : hasBits pte pteUxn = !hasBits prot protExec

/-- Exactly the range has the new protection. -/
structure Protected (k' : Kmem) (mm mm' : MmStruct) (addr len : Nat) (prot : BitVec 64) : Prop where
  vmas : VmasOk mm'.mmap
  covered : ∀ a, InRange addr len a → (flagsAt mm.mmap a).isSome = true
  flags : ∀ a, flagsAt mm'.mmap a = if InRange addr len a
    then (flagsAt mm.mmap a).map fun flags => (flags &&& ~~~(protRead ||| protWrite ||| protExec)) ||| prot
    else flagsAt mm.mmap a
  entries : ∀ a pte, a < userVaLimit → InRange addr len a → mm.pgd.slot a = some pte → ptePresent pte = true →
    ∃ pte', mm'.pgd.slot a = some pte' ∧ HasProt k'.pa pte pte' prot
  absent : ∀ a, a < userVaLimit → InRange addr len a → mm.pgd.vaMapped a = false → mm'.pgd.slot a = mm.pgd.slot a
  outside : ∀ a, a < userVaLimit → ¬ InRange addr len a → mm'.pgd.slot a = mm.pgd.slot a
  rest : mm' = { mm with mmap := mm'.mmap, pgd := mm'.pgd }

section Calls

variable {k : Kmem} {mm : MmStruct} {vmas : List Vma} {start stop addr len a : Nat} {prot mapProt : BitVec 64}

theorem vmaSplit_data (key addr : Nat) (k : Kmem) (vmas : List Vma) : (vmaSplit key addr k vmas).2.2.data = k.data := by
  induction vmas with
  | nil => rfl
  | cons v vmas ih =>
    have hobj := objCall_data k
    unfold vmaSplit
    split_ifs
    · rfl
    · split
      · rename_i heq
        exact (congrArg (fun r => r.2.data) heq).symm.trans hobj
      · rename_i heq
        exact (congrArg (fun r => r.2.data) heq).symm.trans hobj
    · exact ih

theorem vmaSplit_limit {limit : Nat} (h : ∀ v ∈ vmas, v.vmEnd ≤ limit) (k : Kmem) (key addr : Nat) :
    ∀ v ∈ (vmaSplit key addr k vmas).2.1, v.vmEnd ≤ limit :=
  vmaSplit_forall h k key fun _ hv _ h2 => ⟨h2.le.trans hv, hv⟩

theorem exists_prot (h : hasBits prot (~~~(protRead ||| protWrite ||| protExec)) = false) :
    ∃ p : BitVec 3, prot = p.setWidth 64 := by
  have hnone : prot &&& ~~~(7#64) = 0#64 := by simpa [hasBits, protRead, protWrite, protExec] using h
  refine ⟨prot.setWidth 3, BitVec.eq_of_toNat_eq ?_⟩
  have hlow : prot = prot &&& 7#64 := by
    calc prot = prot &&& (7#64 ||| ~~~(7#64)) := by rw [BitVec.or_not_self, BitVec.and_allOnes]
      _ = prot &&& 7#64 := by rw [BitVec.and_or_distrib_left, hnone, BitVec.or_zero]
  have hmod : prot.toNat = prot.toNat % 8 := by
    conv_lhs => rw [hlow, BitVec.toNat_and]
    exact Nat.and_two_pow_sub_one_eq_mod prot.toNat 3
  rw [BitVec.toNat_setWidth, BitVec.toNat_setWidth]
  omega

theorem linuxProtToMap_eq (h : hasBits prot (~~~(protRead ||| protWrite ||| protExec)) = false) :
    linuxProtToMap prot = prot := by
  obtain ⟨p, rfl⟩ := exists_prot h
  revert p
  decide

theorem hasProt_reprot (hp : ptePresent old = true) : HasProt k.pa old (reprot k prot old) prot := by
  have hentry : ∀ {flag}, pteAddrMask &&& flag = 0 → hasBits ((old &&& pteAddrMask) ||| protToPte prot) flag =
      hasBits (protToPte prot) flag := by
    intro flag hflag
    rw [hasBits_or, hasBits_and_of_disjoint hflag, Bool.false_or]
  have hlocked : ∀ {pte flag}, pteRdonly &&& flag = 0 → hasBits (pteWrprotect pte) flag = hasBits pte flag := by
    intro pte flag hflag
    unfold pteWrprotect
    rw [hasBits_or, show hasBits pteRdonly flag = false by simp [hasBits, hflag], Bool.or_false]
  refine ⟨present_reprot.trans hp, addr_reprot, ?_, ?_, ?_⟩ <;> unfold reprot <;> rw [if_pos hp] <;> dsimp only
  · split_ifs
    · rw [hlocked (by decide), hentry (by decide), user_protToPte]
    · rw [hentry (by decide), user_protToPte]
  · split_ifs with hshared
    · rw [Bool.and_eq_true] at hshared
      rw [hshared.2, Bool.or_true]
      exact rdonly_wrprotect _
    · rw [hentry (by decide), rdonly_protToPte]
      cases hw : hasBits prot protWrite
      · rfl
      · simpa [hw] using hshared
  · split_ifs
    · rw [hlocked (by decide), hentry (by decide), uxn_protToPte]
    · rw [hentry (by decide), uxn_protToPte]

/-- Once the list is cut at both ends and covers the range, the loop meets the pages of the range. -/
theorem mprotect_meets (h : VmasOk vmas) (hlimit : ∀ v ∈ vmas, v.vmEnd ≤ userVaLimit) (hstart : Parted vmas start)
    (hstop : Parted vmas stop) (hcovered : ∀ a, start ≤ a → a < stop → (flagsAt vmas a).isSome = true)
      (ha : a < userVaLimit) :
    (∃ v ∈ vmas.dropWhile fun v => v.vmEnd ≤ start, v.vmStart < stop ∧ ∃ va ∈ pageRange v.vmStart v.vmEnd,
      samePage va a = true) ↔
      start ≤ a ∧ a < stop := by
  constructor
  · rintro ⟨v, hv, hlt, hpage⟩
    have hmem := (List.dropWhile_sublist _).subset hv
    obtain ⟨h1, h2⟩ := (exists_pageRange_iff_covers (h.each v hmem) (hlimit v hmem) ha).1 hpage
    have hlate := lt_of_mem_dropWhile h v hv
    rcases hstart v hmem with hs | hs <;> rcases hstop v hmem with ht | ht <;> omega
  · rintro ⟨h1, h2⟩
    obtain ⟨v, hv, hcov⟩ : ∃ v ∈ vmas, v.Covers a := by
      by_contra hnone
      push Not at hnone
      simpa [flagsAt_eq_none.2 hnone] using hcovered a h1 h2
    have hlate : v ∈ vmas.dropWhile fun v => v.vmEnd ≤ start := by
      rw [← List.takeWhile_append_dropWhile (p := fun v => decide (v.vmEnd ≤ start)) (l := vmas)] at hv
      refine (List.mem_append.1 hv).resolve_left fun hearly => ?_
      have hle : v.vmEnd ≤ start := by simpa using List.mem_takeWhile_imp hearly
      have := hcov.2
      omega
    have := hcov.1
    exact ⟨v, hlate, by omega, (exists_pageRange_iff_covers (h.each v hv) (hlimit v hv) ha).2 hcov⟩

/-- A call that fails has at most cut VMAs. -/
structure Refused (k k' : Kmem) (mm mm' : MmStruct) : Prop where
  vmas : VmasOk mm'.mmap
  flags : ∀ a, flagsAt mm'.mmap a = flagsAt mm.mmap a
  rest : mm' = { mm with mmap := mm'.mmap }
  data : k'.data = k.data

theorem Refused.refl (h : VmasOk mm.mmap) : Refused k k mm mm := ⟨h, fun _ => rfl, rfl, rfl⟩

/-- The call on an aligned range: it is refused, or the loop runs over a list that is cut at both ends. -/
theorem mmMprotect_cases (k : Kmem) (prot : BitVec 64) (h : VmasOk mm.mmap)
    (hlimit : ∀ v ∈ mm.mmap, v.vmEnd ≤ userVaLimit) (hstart : pageSize ∣ start) (hstop : pageSize ∣ stop) :
    (∃ mm' k', mmMprotect k mm start stop prot = (-enomem, mm', k') ∧ Refused k k' mm mm') ∨
    (stop ≤ start ∧ mmMprotect k mm start stop prot = (-einval, mm, k)) ∨
    ∃ vmas k' pgd, mmMprotect k mm start stop prot =
        (0, { mm with mmap := vmas.map (Vma.reprotect start stop (linuxProtToMap prot)), pgd := pgd }, k') ∧
      VmasOk vmas ∧ (∀ v ∈ vmas, v.vmEnd ≤ userVaLimit) ∧ Parted vmas start ∧ Parted vmas stop ∧
      (∀ a, flagsAt vmas a = flagsAt mm.mmap a) ∧ (∀ a, start ≤ a → a < stop → (flagsAt mm.mmap a).isSome = true) ∧
      k'.data = k.data ∧ pgd = (mprotectLoop k' stop (linuxProtToMap prot) mm.pgd
        (vmas.dropWhile fun v => v.vmEnd ≤ start)).1 := by
  unfold mmMprotect
  by_cases hle : start ≥ stop
  · exact Or.inr (Or.inl ⟨hle, if_pos hle⟩)
  rw [if_neg hle]
  by_cases hcovered : mprotectCovered mm.mmap stop mm.mmap.length start = true
  swap
  · rw [if_pos (by simpa using hcovered)]
    exact Or.inl ⟨mm, k, rfl, Refused.refl h⟩
  rw [if_neg (by simpa using hcovered)]
  have hflags := vmaSplit_flags k start start mm.mmap
  have hvmas := h.vmaSplit hstart k start
  have hdata := vmaSplit_data start start k mm.mmap
  have hbound := vmaSplit_limit hlimit k start start
  have hcut := vmaSplit_parted (k := k) h (Nat.le_refl start) (Nat.le_succ start)
  generalize vmaSplit start start k mm.mmap = result at hflags hvmas hdata hbound hcut ⊢
  obtain ⟨ok, vmas, k₁⟩ := result
  dsimp only at hflags hvmas hdata hbound hcut ⊢
  cases ok with
  | false => exact Or.inl ⟨_, k₁, rfl, hvmas, hflags, rfl, hdata⟩
  | true =>
    have hcut' := (hcut rfl).vmaSplit k₁ (stop - 1) stop
    have hflags' := vmaSplit_flags k₁ (stop - 1) stop vmas
    have hvmas' := hvmas.vmaSplit hstop k₁ (stop - 1)
    have hdata' := vmaSplit_data (stop - 1) stop k₁ vmas
    have hbound' := vmaSplit_limit hbound k₁ (stop - 1) stop
    have hparted := vmaSplit_parted (k := k₁) hvmas (Nat.sub_le stop 1) (show stop ≤ stop - 1 + 1 by omega)
    dsimp only
    generalize vmaSplit (stop - 1) stop k₁ vmas = result at hflags' hvmas' hdata' hbound' hcut' hparted ⊢
    obtain ⟨ok, vmas', k₂⟩ := result
    dsimp only at hflags' hvmas' hdata' hbound' hcut' hparted ⊢
    have hsame : ∀ a, flagsAt vmas' a = flagsAt mm.mmap a := fun a => (hflags' a).trans (hflags a)
    cases ok with
    | false => exact Or.inl ⟨{ mm with mmap := vmas' }, k₂, rfl, hvmas', hsame, rfl, hdata'.trans hdata⟩
    | true =>
      refine Or.inr (Or.inr ⟨vmas', k₂, _, ?_, hvmas', hbound', hcut', hparted rfl, hsame, ?_, hdata'.trans hdata, rfl⟩)
      · dsimp only
        rw [mprotect_vmas hvmas']
      · exact fun a h1 h2 => mprotectCovered_flags hcovered h1 h2

theorem mprotectLoop_protected {k' : Kmem} {pgd : L1} (h : VmasOk vmas) (hlimit : ∀ v ∈ vmas, v.vmEnd ≤ userVaLimit)
    (hstart : Parted vmas addr) (hstop : Parted vmas (addr + roundUp len))
      (hflags : ∀ a, flagsAt vmas a = flagsAt mm.mmap a)
    (hcovered : ∀ a, addr ≤ a → a < addr + roundUp len → (flagsAt mm.mmap a).isSome = true)
    (hpgd : pgd = (mprotectLoop k' (addr + roundUp len) prot mm.pgd (vmas.dropWhile fun v => v.vmEnd ≤ addr)).1) :
    Protected k' mm { mm with mmap := vmas.map (Vma.reprotect addr (addr + roundUp len) prot), pgd := pgd }
      addr len prot := by
  subst hpgd
  have hmet : Reprotects k' prot _ mm.pgd (mprotectLoop k' (addr + roundUp len) prot mm.pgd _).1 :=
    mprotectLoop_reprotects (h.sublist (List.dropWhile_sublist fun v => v.vmEnd ≤ addr)) mm.pgd
  have hmeets := fun {a} => mprotect_meets (a := a) h hlimit hstart hstop fun a h1 h2 => by
    rw [hflags]; exact hcovered a h1 h2
  refine ⟨h.reprotect, fun a ha => hcovered a ha.1 ha.2, ?_, ?_, ?_, ?_, rfl⟩
  · intro a
    rw [flagsAt_reprotect hstart hstop, hflags]
    rfl
  · intro a pte hlt hin hslot hp
    have hnew := (hmet a).1 ((hmeets hlt).2 hin)
    rw [hslot] at hnew
    exact ⟨_, hnew, hasProt_reprot hp⟩
  · intro a hlt hin hgone
    rw [(hmet a).1 ((hmeets hlt).2 hin)]
    cases hslot : mm.pgd.slot a with
    | none => rfl
    | some pte =>
      have hp : ¬ ptePresent pte = true := by simpa [L1.vaMapped, hslot] using hgone
      exact congrArg some (if_neg hp)
  · exact fun a hlt hout => (hmet a).2 fun hm => hout ((hmeets hlt).1 hm)

end Calls

/-- `mprotect` of a page-aligned address: a call that returns 0 has given the whole range the protection it
was asked for, and a call that fails has changed no protection and no entry. -/
theorem ksysMprotect_spec (k : Kmem) (mm : MmStruct) (addr len : Nat) (prot : BitVec 64) (h : VmasOk mm.mmap)
    (hlimit : ∀ v ∈ mm.mmap, v.vmEnd ≤ userVaLimit) (ha : pageSize ∣ addr) (hlen : len < 2 ^ 64) :
    let result := ksysMprotect k mm addr len prot
    (result.1 = 0 → Protected result.2.2 mm result.2.1 addr len prot) ∧
      (result.1 ≠ 0 → Refused k result.2.2 mm result.2.1) ∧ result.2.2.data = k.data := by
  unfold ksysMprotect
  have herrno : ∀ {e : Int}, e ≠ 0 → (-e = 0 → Protected k mm mm addr len prot) ∧ (-e ≠ 0 → Refused k k mm mm) ∧
    k.data = k.data :=
    fun he => ⟨fun h0 => absurd h0 (by omega), fun _ => Refused.refl h, rfl⟩
  rw [if_neg (by simp [Nat.mod_eq_zero_of_dvd ha])]
  by_cases hprot : hasBits prot (~~~(protRead ||| protWrite ||| protExec)) = true
  · rw [if_pos hprot]
    exact herrno (by decide)
  rw [if_neg hprot]
  by_cases hzero : len = 0
  · rw [if_pos hzero]
    have hempty : ∀ a, ¬ InRange addr len a := by
      rw [hzero]
      intro a hin
      have := hin.2
      simp only [roundUp, pageSize] at this
      omega
    refine ⟨fun _ => ⟨h, fun a ha => absurd ha (hempty a), fun a => (if_neg (hempty a)).symm, ?_, ?_, fun _ _ _ => rfl,
      rfl⟩, ?_, rfl⟩
    · exact fun a _ _ hin => absurd hin (hempty a)
    · exact fun a _ hin => absurd hin (hempty a)
    · exact fun hne => absurd rfl hne
  rw [if_neg hzero]
  by_cases hlong : len > 2 ^ 64 - 1 - (pageSize - 1)
  · rw [if_pos hlong]
    exact herrno (by decide)
  rw [if_neg hlong]
  have hround : pageAlignUp len = roundUp len := by
    simp only [pageAlignUp, roundUp, pageSize] at hlong ⊢
    omega
  dsimp only
  by_cases hhigh : addr > 2 ^ 64 - 1 - pageAlignUp len
  · rw [if_pos hhigh]
    exact herrno (by decide)
  rw [if_neg hhigh, hround]
  have hstop : pageSize ∣ addr + roundUp len := Nat.dvd_add ha (pageSize_dvd_roundUp len)
  obtain ⟨mm', k', heq, href⟩ | ⟨-, heq⟩ | ⟨vmas, k', pgd, heq, hvmas, hbound, hcut, hcut', hflags, hcovered,
    hdata, hpgd⟩ :=
    mmMprotect_cases k prot h hlimit ha hstop
  · rw [heq]
    exact ⟨fun h0 => absurd h0 (show -enomem ≠ 0 by decide), fun _ => href, href.data⟩
  · rw [heq]
    exact herrno (by decide)
  · rw [heq]
    rw [linuxProtToMap_eq (by simpa using hprot)] at hpgd ⊢
    exact ⟨fun _ => mprotectLoop_protected hvmas hbound hcut hcut' hflags hcovered hpgd, fun hne =>
      absurd rfl hne, hdata⟩

/-- The middle page of three becomes writable. -/
theorem ksysMprotect_spec_of_middle :
    (ksysMprotect { (init PageSys.oddStart).k with script := [([], true), ([], true)] } threePages 0x401000 1
      (protRead ||| protWrite)).1 = 0 ∧
      flagsAt (ksysMprotect { (init PageSys.oddStart).k with script := [([], true), ([], true)] } threePages 0x401000 1
        (protRead ||| protWrite)).2.1.mmap 0x401fff = some (protRead ||| protWrite) := by
  have hlimit : ∀ v ∈ threePages.mmap, v.vmEnd ≤ userVaLimit := by
    intro v hv
    obtain rfl := List.mem_singleton.1 hv
    decide
  have hspec := ksysMprotect_spec { (init PageSys.oddStart).k with script := [([], true), ([], true)] }
    threePages 0x401000 1 (protRead ||| protWrite) threePages_ok hlimit (by decide) (by decide)
  have h0 : (ksysMprotect { (init PageSys.oddStart).k with script := [([], true), ([], true)] } threePages 0x401000 1
      (protRead ||| protWrite)).1 = 0 := by decide
  exact ⟨h0, ((hspec.1 h0).flags 0x401fff).trans (by decide)⟩

end MiniOs.Mm
