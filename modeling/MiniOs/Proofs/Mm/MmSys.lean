/-
The set of address spaces as a whole. `MmInv` says that the page allocator agrees with the usage of all
page tables together; every step keeps it, hands back exactly the frames that lost their last entry,
and is matched by the reference machine on the event it emits.
-/
import MiniOs.Proofs.Mm.Fault
import MiniOs.Proofs.Mm.Fork

namespace MiniOs.Mm

open Library PageAlloc Usage Function

namespace MmSys

/-! ## All address spaces together -/

/-- What an address space uses; none when it is gone. -/
def mmUsage (P : PageAlloc) : Option MmStruct → Usage := optUsage fun mm => L1.usage P mm.pgd

def mmsUsage (P : PageAlloc) (mms : List (Option MmStruct)) : Usage := (mms.map (mmUsage P)).sum

structure MmInv (P : PageAlloc) (s : MmSys) : Prop where
  acct : Acct P s.k (mmsUsage P s.mms)
  backed : ∀ (i : Nat) (mm : MmStruct), s.mms[i]? = some (some mm) → Backed P mm.pgd

/-- Of the frames in use before, the step hands back those that no entry refers to any more. -/
def HandsBack (P : PageAlloc) (s s' : MmSys) : Prop :=
  ∃ new, s'.k.returned = new ++ s.k.returned ∧
    ∀ p ∈ (mmsUsage P s.mms).refs, (p ∈ new ↔ p ∉ (mmsUsage P s'.mms).refs)

/-- The memories of the reference machine are what the page tables show. -/
structure Shows (P : PageAlloc) (s : MmSys) (r : Ref) : Prop where
  length : r.length = s.mms.length
  view : ∀ (i : Nat) (mm : MmStruct), s.mms[i]? = some (some mm) →
    ∃ m : Nat → UInt8, r[i]? = some (some m) ∧ ∀ va < userVaLimit, m va = view P s.k.data mm.pgd va

/-- What every step is shown to do. -/
structure StepOk (P : PageAlloc) (s s' : MmSys) (e : Event) : Prop where
  inv : MmInv P s'
  back : HandsBack P s s'
  shows : ∀ r, Shows P s r → ∃ r', refStep r e = some r' ∧ Shows P s' r'

variable {i j p va : Nat}

section Lists

variable {P : PageAlloc}

theorem mmsUsage_small : ∀ mms : List (Option MmStruct), (mmsUsage P mms).Small
  | [] => small_zero
  | o :: mms => by
    have hone : (mmUsage P o).Small := optUsage_small (fun mm : MmStruct => L1.usage_small mm.pgd) o
    exact hone.add (mmsUsage_small mms)

theorem mmsUsage_split : ∀ {mms : List (Option MmStruct)} {i : Nat} {o : Option MmStruct}, mms[i]? = some o →
    ∃ base, mmsUsage P mms = base + mmUsage P o ∧ ∀ o', mmsUsage P (mms.set i o') = base + mmUsage P o'
  | [], _, _, h => by simp at h
  | a :: mms, 0, o, h => by
    cases h
    refine ⟨mmsUsage P mms, ?_, fun o' => ?_⟩
    · exact add_comm _ _
    · exact add_comm _ _
  | a :: mms, i + 1, o, h => by
    obtain ⟨base, e, hset⟩ := mmsUsage_split (i := i) h
    have hcons : ∀ l : List (Option MmStruct), mmsUsage P (a :: l) = mmUsage P a + mmsUsage P l := fun l => rfl
    refine ⟨mmUsage P a + base, ?_, fun o' => ?_⟩
    · rw [hcons, e, add_assoc]
    · rw [List.set_cons_succ, hcons, hset, add_assoc]

theorem mmsUsage_append (l : List (Option MmStruct)) (o : Option MmStruct) :
    mmsUsage P (l ++ [o]) = mmsUsage P l + mmUsage P o := by
  unfold mmsUsage
  rw [List.map_append, List.sum_append]
  simp

/-- One address space of the system, with the usage of the others. -/
structure Focus (P : PageAlloc) (s : MmSys) (i : Nat) (mm : MmStruct) (base : Usage) : Prop where
  here : s.mms[i]? = some (some mm)
  small : base.Small
  usage : mmsUsage P s.mms = base + L1.usage P mm.pgd
  set : ∀ o', mmsUsage P (s.mms.set i o') = base + mmUsage P o'

variable {s : MmSys} {i : Nat} {mm : MmStruct} {base : Usage}

theorem exists_focus (h : s.mms[i]? = some (some mm)) : ∃ base, Focus P s i mm base := by
  obtain ⟨base, e, hset⟩ := mmsUsage_split (P := P) h
  refine ⟨base, h, ?_, e, hset⟩
  have := hset none
  unfold mmUsage at this
  rw [optUsage_none, add_zero] at this
  rw [← this]
  exact mmsUsage_small _

/-- The frames another address space shows belong to the others. -/
theorem Focus.others (hf : Focus P s i mm base) {mm' : MmStruct} (hne : j ≠ i)
    (hj : s.mms[j]? = some (some mm')) (hp : mm'.pgd.frameOf P va = some p) : p ∈ base.refs := by
  have hj' : (s.mms.set i none)[j]? = some (some mm') := by rw [List.getElem?_set_ne (Ne.symm hne), hj]
  obtain ⟨base', e, -⟩ := mmsUsage_split (P := P) hj'
  have hbase := hf.set none
  unfold mmUsage at hbase e
  rw [optUsage_none, add_zero, e, optUsage_some] at hbase
  rw [← hbase, refs_add]
  exact Multiset.mem_add.2 (.inr (frameOf_mem_refs hp))

end Lists

/-! ## A step on one address space -/

section One

variable {P : PageAlloc} {s : MmSys} {i : Nat} {mm mm' : MmStruct} {base : Usage} {k k' : Kmem} {gone : Nat → Bool}

theorem get_set {α : Type} {l : List α} {a b : α} (h : (l.set i a)[j]? = some b) :
    (j = i ∧ b = a) ∨ (j ≠ i ∧ l[j]? = some b) := by
  rw [List.getElem?_set] at h
  by_cases e : i = j
  · rw [if_pos e] at h
    split at h
    · exact .inl ⟨e.symm, (Option.some.inj h).symm⟩
    · cases h
  · rw [if_neg e] at h
    exact .inr ⟨Ne.symm e, h⟩

/-- The other address spaces show what they showed, as long as the bytes of their frames stay. -/
theorem Focus.view_others (hf : Focus P s i mm base) {data : Nat → Nat → UInt8}
    (hd : ∀ p ∈ base.all, data p = s.k.data p) {mm1 : MmStruct} (hne : j ≠ i)
    (hj : s.mms[j]? = some (some mm1)) (va : Nat) : view P data mm1.pgd va = view P s.k.data mm1.pgd va := by
  apply view_of_frameOf rfl
  intro p hp
  exact hd p (Multiset.mem_of_le (refs_le_all base) (hf.others hne hj hp))

theorem Focus.acct (hf : Focus P s i mm base) (hI : MmInv P s) (hpa : k.pa = s.k.pa) (henv : k.env = s.k.env) :
    Acct P k (base + L1.usage P mm.pgd) := by
  have := hI.acct
  rw [hf.usage] at this
  exact this.congr hpa henv

/-- The memory of address space `i` in the reference machine, and all the others. -/
theorem Shows.set {r : Ref} {m : Nat → UInt8} (hs : Shows P s r) (hf : Focus P s i mm base)
    (hd : ∀ p ∈ base.all, k'.data p = s.k.data p) (hm : ∀ va < userVaLimit, m va = Mm.view P k'.data mm'.pgd va) :
    Shows P (s.setMm i mm' k') (r.set i (some m)) := by
  refine ⟨?_, fun j mm1 hj => ?_⟩
  · rw [List.length_set, hs.length]
    exact (List.length_set ..).symm
  · rcases get_set hj with ⟨rfl, e⟩ | ⟨hne, hj'⟩
    · cases e
      obtain ⟨hlt, -⟩ := List.getElem?_eq_some_iff.1 hf.here
      exact ⟨m, by rw [List.getElem?_set_self (by rw [hs.length]; exact hlt)], hm⟩
    · obtain ⟨m1, hr, hv⟩ := hs.view j mm1 hj'
      refine ⟨m1, by rw [List.getElem?_set_ne (Ne.symm hne), hr], fun va hva => ?_⟩
      rw [hv va hva]
      exact (hf.view_others hd hne hj' va).symm

variable (hf : Focus P s i mm base)
include hf

theorem Focus.setMm_inv (hI : MmInv P s)
    (hacct : Acct P k' (base + L1.usage P mm'.pgd)) (hb : Backed P mm'.pgd) : MmInv P (s.setMm i mm' k') := by
  refine ⟨?_, fun j mm1 hj => ?_⟩
  · show Acct P k' (mmsUsage P (s.mms.set i (some mm')))
    rw [hf.set]
    exact hacct
  · rcases get_set hj with ⟨rfl, e⟩ | ⟨-, hj'⟩
    · cases e
      exact hb
    · exact hI.backed j mm1 hj'

theorem Focus.handsBack (hr : k.returned = s.k.returned)
    (htr : Trans P base k mm.pgd k' mm'.pgd gone) : HandsBack P s (s.setMm i mm' k') := by
  obtain ⟨new, hnew, hiff⟩ := htr.returned
  refine ⟨new, by rw [← hr]; exact hnew, ?_⟩
  show ∀ p ∈ _, (p ∈ new ↔ p ∉ (mmsUsage P (s.mms.set i (some mm'))).refs)
  rw [hf.usage, hf.set]
  exact hiff

/-- A call that drops the pages `gone`, for an event that says so. -/
theorem Focus.stepOk {e : Event} (hI : MmInv P s) (hd : k.data = s.k.data)
    (hr : k.returned = s.k.returned) (htr : Trans P base k mm.pgd k' mm'.pgd gone)
    (he : ∀ r m, r[i]? = some (some m) → refStep r e = some (r.set i (some fun a => if gone a then 0 else m a))) :
    StepOk P s (s.setMm i mm' k') e := by
  refine ⟨hf.setMm_inv hI htr.acct (htr.backed (hI.backed i mm hf.here)), hf.handsBack hr htr, fun r hs => ?_⟩
  obtain ⟨m, hm, hv⟩ := hs.view i mm hf.here
  refine ⟨_, he r m hm, hs.set hf (fun p hp => by rw [htr.data p hp, hd]) fun va hva => ?_⟩
  rw [htr.view va, hd, hv va hva]

theorem Focus.stepOk_quiet (hI : MmInv P s) (hd : k.data = s.k.data)
    (hr : k.returned = s.k.returned) (htr : Trans P base k mm.pgd k' mm'.pgd fun _ => false) :
    StepOk P s (s.setMm i mm' k') .quiet := by
  refine hf.stepOk hI hd hr htr fun r m hm => ?_
  have hself : r.set i (some m) = r := by
    obtain ⟨hlt, hget⟩ := List.getElem?_eq_some_iff.1 hm
    rw [← hget, List.set_getElem_self]
  simp [refStep, hself]

theorem Focus.stepOk_unmapped (hI : MmInv P s) (hd : k.data = s.k.data)
    (hr : k.returned = s.k.returned) (htr : Trans P base k mm.pgd k' mm'.pgd gone) :
    StepOk P s (s.setMm i mm' k') (.unmapped i gone) := by
  refine hf.stepOk hI hd hr htr fun r m hm => ?_
  simp only [refStep, refUpdate, hm]

end One

/-! ## Steps beside the page tables -/

section Idle

variable {P : PageAlloc} {s : MmSys} {k' : Kmem}

theorem MmInv.frame_mem {mm : MmStruct} (hi : s.mms[i]? = some (some mm))
    (hp : mm.pgd.frameOf P va = some p) : p ∈ (mmsUsage P s.mms).refs := by
  obtain ⟨base, hf⟩ := exists_focus (P := P) hi
  rw [hf.usage, refs_add]
  exact Multiset.mem_add.2 (.inr (frameOf_mem_refs hp))

theorem Shows.data {r : Ref} (hs : Shows P s r) (hd : ∀ p ∈ (mmsUsage P s.mms).refs, k'.data p = s.k.data p) :
    Shows P ⟨k', s.mms⟩ r := by
  refine ⟨hs.length, fun i mm hi => ?_⟩
  obtain ⟨m, hr, hv⟩ := hs.view i mm hi
  refine ⟨m, hr, fun va hva => ?_⟩
  rw [hv va hva]
  exact (view_of_frameOf rfl fun p hp => hd p (MmInv.frame_mem hi hp)).symm

/-- The page tables stay, and so do the bytes of all frames. -/
theorem MmInv.stepOk_idle (hI : MmInv P s) (hacct : Acct P k' (mmsUsage P s.mms))
    (hd : ∀ p ∈ (mmsUsage P s.mms).refs, k'.data p = s.k.data p) (hr : k'.returned = s.k.returned) :
    StepOk P s ⟨k', s.mms⟩ .quiet := by
  refine ⟨⟨hacct, hI.backed⟩, ⟨[], hr, fun p hp => ?_⟩, fun r hs => ⟨r, rfl, hs.data hd⟩⟩
  exact ⟨fun h => absurd h List.not_mem_nil, fun h => absurd hp h⟩

theorem store_ne {u : Usage} {k : Kmem} {pfn order : Nat} (h : Acct P k u) (hheld : k.env pfn = some order)
    (hj : j < 2 ^ order) (hp : p ∈ u.all) : p ≠ pfn + j := by
  rintro rfl
  have h1 : k.pa.Blk (joinHeld k.env (heldBy u)) pfn order := .inr (by simp [joinHeld, hheld])
  have h2 : k.pa.Blk (joinHeld k.env (heldBy u)) (pfn + j) 0 := .inr (h.held hp)
  have heq := h.inv.eq_of_mem h1 h2 (x := pfn + j) (Dyadic.mem_block.2 (by omega)) (Dyadic.mem_block.2 (by omega))
  have hnone := h.env_none hp
  rw [← heq, hheld] at hnone
  cases hnone

theorem Shows.append {r : Ref} {mm : MmStruct} {m : Nat → UInt8} (hs : Shows P s r)
    (hm : ∀ va < userVaLimit, m va = Mm.view P s.k.data mm.pgd va) :
    Shows P ⟨s.k, s.mms ++ [some mm]⟩ (r ++ [some m]) := by
  refine ⟨by simp [hs.length], fun i mm1 hi => ?_⟩
  by_cases hlt : i < s.mms.length
  · rw [List.getElem?_append_left hlt] at hi
    obtain ⟨m1, hr, hv⟩ := hs.view i mm1 hi
    exact ⟨m1, by rw [List.getElem?_append_left (by rw [hs.length]; exact hlt), hr], hv⟩
  · rw [List.getElem?_append_right (by omega)] at hi
    have hz : i - s.mms.length = 0 := by
      obtain ⟨hlt', -⟩ := List.getElem?_eq_some_iff.1 hi
      rw [List.length_singleton] at hlt'
      omega
    rw [hz] at hi
    cases hi
    refine ⟨m, ?_, hm⟩
    rw [List.getElem?_append_right (by rw [hs.length]; omega), hs.length, hz]
    rfl

theorem get_append {l : List (Option MmStruct)} {mm mm1 : MmStruct}
    (h : (l ++ [some mm])[i]? = some (some mm1)) : l[i]? = some (some mm1) ∨ mm1 = mm := by
  by_cases hlt : i < l.length
  · rw [List.getElem?_append_left hlt] at h
    exact .inl h
  · rw [List.getElem?_append_right (by omega)] at h
    have hmem := List.mem_of_getElem? h
    rw [List.mem_singleton] at hmem
    exact .inr (Option.some.inj hmem)

end Idle

/-! ## The steps -/

section Steps

variable {P : PageAlloc} {s s' : MmSys} {e : Event} {i : Nat} {mm : MmStruct} {base : Usage}

theorem MmInv.acct_withScript (hI : MmInv P s) (script : Script) : Acct P (s.withScript script) (mmsUsage P s.mms) :=
  hI.acct.congr rfl rfl

theorem create_ok (hI : MmInv P s) {start : MmStart} {script : Script} (h : s.create start script = some (s', e)) :
    StepOk P s s' e := by
  unfold create at h
  split at h
  · rcases hm : mmAlloc (s.withScript script) with ⟨o, k'⟩
    obtain ⟨ha, hd, hr, hpgd⟩ := mmAlloc_spec (hI.acct_withScript script) hm
    rw [hm] at h
    cases o with
    | none =>
      cases h
      rw [optUsage_none, add_zero] at ha
      exact hI.stepOk_idle ha (fun p _ => by rw [hd]; rfl) hr
    | some mm =>
      cases h
      obtain ⟨p, hp⟩ := hpgd mm rfl
      have hempty : ∀ va pte, mm.pgd.slot va ≠ some pte := by
        intro va pte hs
        rw [hp] at hs
        cases hs
      refine ⟨⟨?_, fun j mm1 hj => ?_⟩, ⟨[], hr, fun q hq => ?_⟩, fun r hs => ⟨_, rfl, ?_⟩⟩
      · rw [mmsUsage_append]
        exact ha
      · rcases get_append hj with hj | rfl
        · exact hI.backed j mm1 hj
        · intro va pte hs
          exact absurd hs (hempty va pte)
      · rw [mmsUsage_append, refs_add]
        exact ⟨fun h => absurd h List.not_mem_nil, fun h => absurd (Multiset.mem_add.2 (.inl hq)) h⟩
      · have hs' : Shows P ⟨k', s.mms⟩ r := hs.data fun q _ => by rw [hd]; rfl
        apply hs'.append
        intro va _
        have hnone : mm.pgd.slot va = none := Option.eq_none_iff_forall_ne_some.2 (hempty va)
        unfold Mm.view L1.frameOf
        rw [hnone]
  · cases h

theorem fork_ok (hI : MmInv P s) (hi : s.mms[i]? = some (some mm)) (script : Script) :
    StepOk P s (s.fork i mm script).1 (s.fork i mm script).2 := by
  obtain ⟨base, hf⟩ := exists_focus (P := P) hi
  have hacct : Acct P (s.withScript script) (base + L1.usage P mm.pgd) := hf.acct hI rfl rfl
  unfold fork
  rcases hd : dupMm (s.withScript script) mm with ⟨o, mm', k'⟩
  obtain ⟨ha, hrefs, ⟨hdata, new, hnew, hkeep⟩, hsource, hcopy⟩ := dupMm_spec hf.small hacct hd
  cases o with
  | none =>
    rw [optUsage_none, add_zero] at ha
    have htr : Trans P base (s.withScript script) mm.pgd k' mm'.pgd fun _ => false := by
      refine ⟨ha, ⟨new, hnew, fun p hp => ?_⟩, fun p _ => by rw [hdata], fun va => ?_, hsource.backed⟩
      · rw [refs_add, hrefs, ← refs_add]
        exact ⟨fun h => absurd h (hkeep p hp), fun h => absurd hp h⟩
      · rw [hdata]
        exact view_of_frameOf (hsource.frame va) fun _ _ => rfl
    exact hf.stepOk_quiet (k := s.withScript script) hI rfl rfl htr
  | some mm2 =>
    dsimp only
    have hframes := hcopy mm2 rfl
    have hdata' : k'.data = s.k.data := hdata
    have hbacked := hI.backed i mm hi
    refine ⟨⟨?_, fun j mm1 hj => ?_⟩, ⟨new, hnew, fun p hp => ?_⟩, fun r hs => ?_⟩
    · rw [mmsUsage_append, hf.set]
      exact ha
    · rcases get_append hj with hj | rfl
      · rcases get_set hj with ⟨-, e1⟩ | ⟨-, hj⟩
        · cases e1
          exact hsource.backed hbacked
        · exact hI.backed j mm1 hj
      · exact hframes.backed hbacked
    · rw [hf.usage] at hp
      have hp' : p ∈ (mmsUsage P (s.mms.set i (some mm') ++ [some mm2])).refs := by
        rw [mmsUsage_append, hf.set, refs_add, refs_add]
        unfold mmUsage
        rw [optUsage_some, hrefs, ← refs_add]
        exact Multiset.mem_add.2 (.inl hp)
      exact ⟨fun h => absurd h (hkeep p hp), fun h => absurd hp' h⟩
    · obtain ⟨m, hm, hv⟩ := hs.view i mm hi
      have hself : r.set i (some m) = r := by
        obtain ⟨hlt, hget⟩ := List.getElem?_eq_some_iff.1 hm
        rw [← hget, List.set_getElem_self]
      have hview : ∀ t : L1, SameFrames P mm.pgd t → ∀ va < userVaLimit, m va = Mm.view P k'.data t va := by
        intro t ht va hva
        rw [hv va hva, hdata']
        exact (view_of_frameOf (ht.frame va) fun _ _ => rfl).symm
      have hs' : Shows P (s.setMm i mm' k') (r.set i (some m)) :=
        hs.set hf (fun p _ => by rw [hdata']) (hview mm'.pgd hsource)
      rw [hself] at hs'
      exact ⟨r ++ [some m], by simp only [refStep, hm], hs'.append (hview mm2.pgd hframes)⟩

/-- What the walk found when it let an access through. -/
theorem userFrame_some {pa : PageAlloc} {t : L1} {write : Bool}
    (hpa : ∀ pte, pa.pteFrame pte = P.pteFrame pte) (h : userFrame pa t va write = some p) :
    va < userVaLimit ∧ t.frameOf P va = some p ∧ ∃ pte, t.slot va = some pte ∧ ptePresent pte = true ∧
      P.pteFrame pte = some p ∧ (write = true → hasBits pte pteRdonly = false) := by
  unfold userFrame at h
  split at h
  · rename_i hva
    split at h
    · cases h
    · rename_i pte hs
      split at h
      · rename_i hok
        obtain ⟨⟨hpres, -⟩, hro⟩ : (ptePresent pte = true ∧ hasBits pte pteUser = true) ∧
            (write = false ∨ hasBits pte pteRdonly = false) := by simpa using hok
        rw [hpa] at h
        refine ⟨hva, by rw [frameOf_of_slot hs, if_pos hpres, h], pte, hs, hpres, h, ?_⟩
        rintro rfl
        exact hro.resolve_left (by decide)
      · cases h
  · cases h

theorem fault_ok (hI : MmInv P s) (hi : s.mms[i]? = some (some mm)) (addr : Nat) (esr : BitVec 64) :
    StepOk P s (s.setMm i (doPageFault s.k mm addr esr).2.1 (doPageFault s.k mm addr esr).2.2) .quiet := by
  obtain ⟨base, hf⟩ := exists_focus (P := P) hi
  exact hf.stepOk_quiet hI rfl rfl (doPageFault_trans mm hf.small (hf.acct hI rfl rfl) addr esr)

theorem userRead_ok (hI : MmInv P s) (hi : s.mms[i]? = some (some mm)) (va : Nat) :
    StepOk P s (s.userRead i mm va).1 (s.userRead i mm va).2 := by
  unfold userRead
  split
  · rename_i p hp
    obtain ⟨hva, hframe, -⟩ := userFrame_some hI.acct.pteFrame_eq hp
    refine ⟨hI, ⟨[], rfl, fun q hq => ?_⟩, fun r hs => ⟨r, ?_, hs⟩⟩
    · exact ⟨fun h => absurd h List.not_mem_nil, fun h => absurd hq h⟩
    · obtain ⟨m, hm, hv⟩ := hs.view i mm hi
      have hbyte : m va = s.k.data p (va % pageSize) := by
        rw [hv va hva]
        unfold Mm.view
        rw [hframe]
      simp only [refStep, hm, hbyte, if_true]
  · exact fault_ok hI hi va (dabtEsr false)

/-- A writable entry is the only use of its frame: neither another address space nor another page of
this one shows it. -/
theorem Focus.sole_frame (hf : Focus P s i mm base) (hI : MmInv P s) {pte : BitVec 64}
    (hs : mm.pgd.slot va = some pte) (hpres : ptePresent pte = true) (hp : P.pteFrame pte = some p)
    (hw : hasBits pte pteRdonly = false) :
    p ∉ base.all ∧ ∀ a, mm.pgd.frameOf P a = some p → samePage va a = true := by
  obtain ⟨rest, eu, su⟩ := L1.slot_split (P := P) hs
  have hacct : Acct P s.k (base + (rest + writable p)) := by
    have := hf.acct hI rfl rfl
    rwa [eu, pteUsage_present hpres hp, hw] at this
  have hone := hacct.sole p (by simp)
  simp only [all_add, all_writable, Multiset.count_add, Multiset.count_singleton_self] at hone
  refine ⟨Multiset.count_eq_zero.1 (by omega), fun a ha => ?_⟩
  by_contra hne
  -- clear the entry at `va`: the other page still shows the frame
  have ha' : (mm.pgd.setSlot va 0).frameOf P a = some p := by rw [frameOf_setSlot hs, if_neg hne, ha]
  have hmem := Multiset.mem_of_le (refs_le_all _) (frameOf_mem_refs ha')
  rw [su, pteUsage_zero, add_zero, ← Multiset.one_le_count_iff_mem] at hmem
  omega

/-- A store through a writable entry changes one byte of what this address space shows. -/
theorem Focus.view_write (hf : Focus P s i mm base) (hI : MmInv P s) {pte : BitVec 64}
    (hva : va < userVaLimit) (hs : mm.pgd.slot va = some pte) (hpres : ptePresent pte = true)
    (hp : P.pteFrame pte = some p) (hw : hasBits pte pteRdonly = false) (byte : UInt8) (a : Nat)
    (ha : a < userVaLimit) : Mm.view P (writeByte s.k p (va % pageSize) byte).data mm.pgd a =
      if a = va then byte else Mm.view P s.k.data mm.pgd a := by
  have hown := (hf.sole_frame hI hs hpres hp hw).2
  have hframe : mm.pgd.frameOf P va = some p := by rw [frameOf_of_slot hs, if_pos hpres, hp]
  unfold Mm.view writeByte
  cases hq : mm.pgd.frameOf P a with
  | none =>
    have hne : a ≠ va := by
      rintro rfl
      rw [hframe] at hq
      cases hq
    simp [hne]
  | some q =>
    dsimp only
    by_cases hqp : q = p
    · -- the written frame: its addresses lie in the page of `va`
      subst hqp
      have hpage := hown a hq
      rw [update_self, update_apply]
      have hoff : a = va ↔ a % pageSize = va % pageSize := by
        unfold samePage at hpage
        rw [decide_eq_true_eq, Nat.mod_eq_of_lt hva, Nat.mod_eq_of_lt ha] at hpage
        unfold pageSize at hpage ⊢
        omega
      simp only [hoff]
    · have hne : a ≠ va := by
        rintro rfl
        rw [hframe] at hq
        exact hqp (Option.some.inj hq).symm
      rw [if_neg hne, update_of_ne hqp]

variable (hI : MmInv P s)
include hI

section

variable (hi : s.mms[i]? = some (some mm))
include hi

theorem userWrite_ok (va : Nat) (byte : UInt8) :
    StepOk P s (s.userWrite i mm va byte).1 (s.userWrite i mm va byte).2 := by
  unfold userWrite
  split
  · rename_i p hp
    obtain ⟨base, hf⟩ := exists_focus (P := P) hi
    obtain ⟨hva, -, pte, hs, hpres, hpf, hro⟩ := userFrame_some hI.acct.pteFrame_eq hp
    obtain ⟨hbase, -⟩ := hf.sole_frame hI hs hpres hpf (hro rfl)
    refine ⟨⟨hI.acct.congr rfl rfl, hI.backed⟩, ⟨[], rfl, fun q hq => ?_⟩, fun r hr => ?_⟩
    · exact ⟨fun h => absurd h List.not_mem_nil, fun h => absurd hq h⟩
    · obtain ⟨m, hm, hv⟩ := hr.view i mm hi
      have hself : s.setMm i mm (writeByte s.k p (va % pageSize) byte) =
          ⟨writeByte s.k p (va % pageSize) byte, s.mms⟩ := by
        obtain ⟨hlt, hget⟩ := List.getElem?_eq_some_iff.1 hi
        unfold setMm
        rw [← hget, List.set_getElem_self]
      rw [← hself]
      refine ⟨r.set i (some fun a => if a = va then byte else m a), by simp only [refStep, refUpdate, hm],
        hr.set hf (fun q hq => ?_) fun a ha => ?_⟩
      · exact update_of_ne (ne_of_mem_of_not_mem hq hbase) _ _
      · rw [hv a ha]
        exact (hf.view_write hI hva hs hpres hpf (hro rfl) byte a ha).symm
  · exact fault_ok hI hi va (dabtEsr true)

theorem remap_ok (script : Script) (r : Int × MmStruct × Kmem)
    (hr : ∀ base : Usage, base.Small → Acct P (s.withScript script) (base + L1.usage P mm.pgd) →
      Unmaps P base (s.withScript script) mm.pgd r.2.2 r.2.1.pgd) :
    StepOk P s (s.remap i mm r).1 (s.remap i mm r).2 := by
  obtain ⟨base, hf⟩ := exists_focus (P := P) hi
  have hun := hr base hf.small (hf.acct hI rfl rfl)
  exact hf.stepOk_unmapped (k := s.withScript script) hI rfl rfl (Trans.of_drops hun.shrinks hun.drops)

theorem unmap_ok (va : Nat) :
    StepOk P s (s.setMm i { mm with pgd := (unmapPage s.k mm.pgd va).1 } (unmapPage s.k mm.pgd va).2)
      (.unmapped i (samePage va)) := by
  obtain ⟨base, hf⟩ := exists_focus (P := P) hi
  obtain ⟨⟨hshr, hdrops⟩, hframe⟩ := unmapPage_spec hf.small (hf.acct hI rfl rfl) va
  refine hf.stepOk_unmapped hI rfl rfl ⟨hshr.acct, hshr.returned, fun p _ => by rw [hshr.data], fun a => ?_,
    hdrops.backed⟩
  unfold Mm.view
  rw [hframe a, hshr.data]
  by_cases ha : samePage va a = true
  · simp [ha]
  · simp [ha]

theorem drop_ok (script : Script) :
    StepOk P s (s.drop i mm script).1 (s.drop i mm script).2 := by
  obtain ⟨base, hf⟩ := exists_focus (P := P) hi
  have hacct : Acct P (s.withScript script) (base + L1.usage P mm.pgd) := hf.acct hI rfl rfl
  unfold drop
  rcases mmPut_spec hf.small hacct with ⟨mm', hput, hpgd⟩ | ⟨k', hput, hshr⟩
  · rw [hput]
    refine hf.stepOk_quiet (k := s.withScript script) hI rfl rfl ?_
    rw [hpgd]
    exact Trans.of_sameFrames hacct rfl rfl rfl SameFrames.refl
  · rw [hput]
    dsimp only
    have hset : mmsUsage P (s.mms.set i none) = base := by
      rw [hf.set]
      unfold mmUsage
      rw [optUsage_none, add_zero]
    have hdata : k'.data = s.k.data := hshr.data
    have hother : ∀ j mm1, (s.mms.set i none)[j]? = some (some mm1) → j ≠ i ∧ s.mms[j]? = some (some mm1) := by
      intro j mm1 hj
      rcases get_set hj with ⟨-, h⟩ | h
      · cases h
      · exact h
    refine ⟨⟨by rw [hset]; exact hshr.acct, fun j mm1 hj => hI.backed j mm1 (hother j mm1 hj).2⟩, ?_, fun r hs => ?_⟩
    · obtain ⟨new, hnew, hiff⟩ := hshr.returned
      refine ⟨new, hnew, ?_⟩
      rw [hset, hf.usage]
      exact hiff
    · obtain ⟨hlt, -⟩ := List.getElem?_eq_some_iff.1 hi
      refine ⟨r.set i none, by simp only [refStep, hs.length, hlt, if_true], ⟨?_, fun j mm1 hj => ?_⟩⟩
      · rw [List.length_set, List.length_set, hs.length]
      · obtain ⟨hne, hj'⟩ := hother j mm1 hj
        obtain ⟨m, hm, hv⟩ := hs.view j mm1 hj'
        refine ⟨m, by rw [List.getElem?_set_ne (Ne.symm hne), hm], fun va hva => ?_⟩
        rw [hv va hva, hdata]

theorem mmStep_ok {op : MmOp}
    (h : s.mmStep i mm op = some (s', e)) : StepOk P s s' e := by
  have hof : ∀ x : MmSys × Event, StepOk P s x.1 x.2 → some x = some (s', e) → StepOk P s s' e := by
    intro x hx heq
    rw [Option.some.inj heq] at hx
    exact hx
  cases op with
  | fork _ script => exact hof _ (fork_ok hI hi script) h
  | read _ va => exact hof _ (userRead_ok hI hi va.toNat) h
  | write _ va byte => exact hof _ (userWrite_ok hI hi va.toNat byte) h
  | fault _ addr esr => cases h; exact fault_ok hI hi addr.toNat esr
  | mmap _ addr len prot flags script =>
    cases h
    exact remap_ok hI hi script _ fun base hb ha => doMmap_spec mm hb ha addr.toNat len.toNat prot flags
  | munmap _ addr len script =>
    cases h
    exact remap_ok hI hi script _ fun base hb ha => doMunmap_spec mm hb ha addr.toNat len.toNat
  | brk _ newbrk script =>
    cases h
    exact remap_ok hI hi script _ fun base hb ha => doBrk_spec mm hb ha newbrk.toNat
  | mprotect _ start «end» prot script =>
    cases h
    obtain ⟨base, hf⟩ := exists_focus (P := P) hi
    have hacct : Acct P (s.withScript script) (base + L1.usage P mm.pgd) := hf.acct hI rfl rfl
    obtain ⟨hidle, hre⟩ := mmMprotect_spec mm hf.small hacct start.toNat «end».toNat prot
    obtain ⟨-, hd, hr⟩ := hidle P _ hacct
    exact hf.stepOk_quiet (k := s.withScript script) hI rfl rfl
      (Trans.of_sameFrames hre.acct hre.refs hr hd hre.frames)
  | unmap _ va => cases h; exact unmap_ok hI hi va.toNat
  | put _ script => exact hof _ (drop_ok hI hi script) h
  | create _ _ => cases h
  | env _ => cases h
  | store _ _ _ _ _ => cases h

end

theorem step_ok {op : MmOp} (h : s.step op = some (s', e)) : StepOk P s s' e := by
  cases op with
  | create start script => exact create_ok hI h
  | env ops =>
    cases h
    obtain ⟨ha, hd, hr⟩ := runEnv_acct ops s.k hI.acct
    exact hI.stepOk_idle ha (fun p _ => by rw [hd]) hr
  | store pfn order j offset byte =>
    simp only [step] at h
    split at h
    · rename_i hheld
      cases h
      refine hI.stepOk_idle (hI.acct.congr rfl rfl) (fun p hp => ?_) rfl
      exact update_of_ne (store_ne hI.acct hheld.1 hheld.2 (Multiset.mem_of_le (refs_le_all _) hp)) _ _
    · cases h
  | _ =>
    -- the other operations act on one address space
    simp only [step, MmOp.target] at h
    split at h
    · rename_i mm hmm
      exact mmStep_ok hI hmm h
    · cases h

end Steps

end MmSys

end MiniOs.Mm
