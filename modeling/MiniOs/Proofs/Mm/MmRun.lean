/-
What holds in every run of the address spaces. The reference counts are the numbers of page-table
entries, entry by entry over all address spaces; a writable entry is alone on its frame; a frame goes
back to the page allocator in the step that clears its last entry. And user code cannot tell the
machine from one in which every address space has a private memory, copied at once at each fork.
-/
import MiniOs.Proofs.Mm.MmSys

namespace MiniOs.Mm

open Library PageAlloc Usage

/-! ## Counting entries -/

def L3.entries (t : L3) : List (BitVec 64) := (List.finRange 512).map t.pte

def Node.entries {α : Type} (f : α → List (BitVec 64)) (t : Node α) : List (BitVec 64) :=
  (List.finRange 512).flatMap fun i => (t.ent i).elim [] f

/-- All last-level entries of a page table. -/
def L1.entries : L1 → List (BitVec 64) := Node.entries (Node.entries L3.entries)

/-- The entry is present and points to frame `p`. -/
def refersTo (pa : PageAlloc) (p : Nat) (pte : BitVec 64) : Bool := ptePresent pte && pa.pteFrame pte == some p

namespace MmSys

/-- The user entries of all address spaces. -/
def userPtes (s : MmSys) : List (BitVec 64) := s.mms.flatMap fun o => o.elim [] fun mm => mm.pgd.entries

/-- How many user entries refer to a frame. -/
def pteCount (s : MmSys) (p : Nat) : Nat := s.userPtes.countP (refersTo s.k.pa p)

/-- The frames handed back to the buddy lists between two states of a run. -/
def newlyReturned (s s' : MmSys) : List Nat := s'.k.returned.take (s'.k.returned.length - s.k.returned.length)

end MmSys

variable {pte : BitVec 64}

section Counting

variable {P : PageAlloc} {p : Nat}

theorem count_pteUsage (pte : BitVec 64) :
    (pteUsage P pte).refs.count p = if refersTo P p pte then 1 else 0 := by
  unfold refersTo
  by_cases hpres : ptePresent pte = true
  · cases hf : P.pteFrame pte with
    | none =>
      have hz : pteUsage P pte = 0 := by unfold pteUsage; simp [hf]
      simp [hz]
    | some q =>
      rw [refs_pteUsage hpres hf, Multiset.count_singleton, hpres]
      by_cases e : p = q
      · simp [e]
      · simp [e, Ne.symm e]
  · rw [Bool.not_eq_true] at hpres
    rw [pteUsage_absent hpres, hpres]
    simp

/-- A usage and a list of entries agree on the references to `p`. -/
def Agrees (P : PageAlloc) (p : Nat) (u : Usage) (l : List (BitVec 64)) : Prop :=
  u.refs.count p = l.countP (refersTo P p)

theorem agrees_flatMap {ι : Type} {g : ι → Usage} {f : ι → List (BitVec 64)} (h : ∀ i, Agrees P p (g i) (f i)) :
    ∀ l : List ι, Agrees P p (l.map g).sum (l.flatMap f)
  | [] => rfl
  | i :: l => by
    have hi := h i
    have hl := agrees_flatMap h l
    unfold Agrees at *
    rw [List.map_cons, List.sum_cons, refs_add, Multiset.count_add, List.flatMap_cons, List.countP_append, hi, hl]

theorem agrees_l3 (t : L3) : Agrees P p (t.usage P) t.entries := by
  have hmap : t.entries = (List.finRange 512).flatMap fun i => [t.pte i] := by
    unfold L3.entries
    exact List.map_eq_flatMap
  have hone : ∀ i, Agrees P p (pteUsage P (t.pte i)) [t.pte i] := by
    intro i
    unfold Agrees
    rw [count_pteUsage, List.countP_singleton]
  have := agrees_flatMap hone (List.finRange 512)
  unfold Agrees L3.usage at *
  rw [hmap, refs_add, refs_table, zero_add, sum_entries]
  exact this

theorem agrees_node {α : Type} {f : α → Usage} {g : α → List (BitVec 64)} (h : ∀ c, Agrees P p (f c) (g c))
    (t : Node α) : Agrees P p (t.usage f) (t.entries g) := by
  have hone : ∀ i, Agrees P p (optUsage f (t.ent i)) ((t.ent i).elim [] g) := by
    intro i
    cases t.ent i with
    | none => rfl
    | some c => exact h c
  have := agrees_flatMap hone (List.finRange 512)
  unfold Agrees Node.usage Node.entries at *
  rw [refs_add, refs_table, zero_add, sum_entries]
  exact this

theorem agrees_l1 (t : L1) : Agrees P p (L1.usage P t) t.entries := by
  rw [L1.usage_eq, L2.usage_eq]
  exact agrees_node (agrees_node agrees_l3) t

theorem mem_l3_entries {t : L3} : pte ∈ t.entries ↔ ∃ i, t.pte i = pte := by
  unfold L3.entries
  simp [List.mem_map]

theorem mem_node_entries {α : Type} {f : α → List (BitVec 64)} {t : Node α} :
    pte ∈ t.entries f ↔ ∃ i c, t.ent i = some c ∧ pte ∈ f c := by
  unfold Node.entries
  rw [List.mem_flatMap]
  constructor
  · rintro ⟨i, -, h⟩
    cases hc : t.ent i with
    | none => rw [hc] at h; cases h
    | some c => exact ⟨i, c, hc, by rwa [hc] at h⟩
  · rintro ⟨i, c, hc, h⟩
    exact ⟨i, List.mem_finRange i, by rw [hc]; exact h⟩

theorem exists_slot {t : L1} (h : pte ∈ t.entries) : ∃ va, t.slot va = some pte := by
  unfold L1.entries at h
  simp only [mem_node_entries, mem_l3_entries] at h
  obtain ⟨i1, l2, e1, i2, l3, e2, i3, rfl⟩ := h
  refine ⟨i1.val * 2 ^ 30 + i2.val * 2 ^ 21 + i3.val * 2 ^ 12, ?_⟩
  have hidx : ∀ (i : Fin 512) (n s : Nat), n / 2 ^ s % 512 = i.val → Fin.ofNat 512 (n >>> s) = i := by
    intro i n s hn
    apply Fin.ext
    rw [Nat.shiftRight_eq_div_pow]
    exact hn
  unfold L1.slot l1Idx l2Idx l3Idx
  rw [hidx i1 _ 30 (by omega)]
  simp only [e1]
  rw [hidx i2 _ 21 (by omega)]
  simp only [e2]
  rw [hidx i3 _ 12 (by omega)]

end Counting

attribute [irreducible] L1.entries

namespace MmSys

section Run

variable {P : PageAlloc} {s s' : MmSys} {p : Nat}

theorem agrees_userPtes (s : MmSys) : Agrees P p (mmsUsage P s.mms) s.userPtes := by
  refine agrees_flatMap (fun o => ?_) s.mms
  cases o with
  | none => rfl
  | some mm => exact agrees_l1 mm.pgd

theorem MmInv.pteCount_eq (h : MmInv P s) (p : Nat) : s.pteCount p = (mmsUsage P s.mms).refs.count p := by
  have hrefers : refersTo s.k.pa p = refersTo P p := by
    funext pte
    unfold refersTo
    rw [h.acct.pteFrame_eq]
  unfold pteCount
  rw [hrefers]
  exact (agrees_userPtes s).symm

theorem MmInv.pageCount_eq (h : MmInv P s) (hp : 0 < s.pteCount p) : s.k.pa.pageCount p = s.pteCount p := by
  rw [h.pteCount_eq] at hp ⊢
  have hmem : p ∈ (mmsUsage P s.mms).refs := Multiset.count_pos.1 hp
  rw [h.acct.pageCount (mmsUsage_small s.mms) (Multiset.mem_of_le (refs_le_all _) hmem)]
  -- an entry's frame is not a table, so all its uses are entries
  have htab := Multiset.count_eq_zero.2 (h.acct.notTable hmem)
  have hall : (mmsUsage P s.mms).all = (mmsUsage P s.mms).1 + (mmsUsage P s.mms).refs := by
    unfold Usage.all Usage.refs
    rw [add_assoc]
  rw [hall, Multiset.count_add, htab, Nat.zero_add]

theorem exists_entry (h : pte ∈ s.userPtes) :
    ∃ (i : Nat) (mm : MmStruct) (va : Nat), s.mms[i]? = some (some mm) ∧ mm.pgd.slot va = some pte := by
  obtain ⟨o, ho, hmem⟩ := List.mem_flatMap.1 h
  obtain ⟨i, hi⟩ := List.mem_iff_getElem?.1 ho
  cases o with
  | none => cases hmem
  | some mm =>
    obtain ⟨va, hva⟩ := exists_slot hmem
    exact ⟨i, mm, va, hi, hva⟩

theorem MmInv.frame_of_entry (h : MmInv P s) (hmem : pte ∈ s.userPtes) (hpres : ptePresent pte = true) :
    ∃ p, s.k.pa.pteFrame pte = some p := by
  obtain ⟨i, mm, va, hi, hs⟩ := exists_entry hmem
  rw [h.acct.pteFrame_eq]
  exact Option.isSome_iff_exists.1 (h.backed i mm hi va pte hs hpres)

theorem MmInv.writable_alone (h : MmInv P s) (hmem : pte ∈ s.userPtes) (hpres : ptePresent pte = true)
    (hw : hasBits pte pteRdonly = false) (hp : s.k.pa.pteFrame pte = some p) : s.pteCount p = 1 := by
  obtain ⟨i, mm, va, hi, hs⟩ := exists_entry hmem
  rw [h.acct.pteFrame_eq] at hp
  obtain ⟨base, hf⟩ := exists_focus (P := P) hi
  obtain ⟨rest, eu, -⟩ := L1.slot_split (P := P) hs
  have hsum : mmsUsage P s.mms = base + (rest + writable p) := by
    rw [hf.usage, eu, pteUsage_present hpres hp, hw]
    rfl
  have hone := h.acct.sole p (by rw [hsum]; simp)
  rw [h.pteCount_eq]
  have hle := Multiset.count_le_of_le p (refs_le_all (mmsUsage P s.mms))
  have hge : 1 ≤ (mmsUsage P s.mms).refs.count p := by
    rw [hsum]
    simp only [refs_add, refs_writable, Multiset.count_add, Multiset.count_singleton_self]
    omega
  omega

theorem StepOk.returned_iff {e : Event} (h : MmInv P s) (hs : StepOk P s s' e) (hp : 0 < s.pteCount p) :
    p ∈ newlyReturned s s' ↔ s'.pteCount p = 0 := by
  obtain ⟨new, hnew, hiff⟩ := hs.back
  have htake : newlyReturned s s' = new := by
    unfold newlyReturned
    rw [hnew, List.length_append, Nat.add_sub_cancel, List.take_left']
    rfl
  rw [h.pteCount_eq] at hp
  rw [htake, hs.inv.pteCount_eq, Multiset.count_eq_zero]
  exact hiff p (Multiset.count_pos.1 hp)

end Run

/-! ## Runs -/

theorem init_mmInv (start : AllocStart) : MmInv (init start).k.pa (init start) := by
  refine ⟨⟨?_, fun p => .inl rfl, fun p hp => by simp [mmsUsage, init] at hp, fun p hp => ?_, rfl, rfl, rfl⟩,
    fun i mm hi => by simp [init] at hi⟩
  · have hheld : joinHeld (init start).k.env (heldBy (mmsUsage (init start).k.pa (init start).mms)) =
        fun _ => none := by
      funext p
      simp [joinHeld, heldBy, mmsUsage, init]
    rw [hheld]
    exact pageAllocInit_inv start
  · simp [mmsUsage, init] at hp

/-- The invariant, and the reference machine beside it, in every run. -/
theorem run_matched {start : AllocStart} {ops : List MmOp} {s : MmSys} {es : List Event}
    (h : runTrace step (init start) ops = some (s, es)) :
    ∃ r, run refStep [] es = some r ∧ MmInv (init start).k.pa s ∧ Shows (init start).k.pa s r := by
  refine runTrace_simulates (R := fun s r => MmInv (init start).k.pa s ∧ Shows (init start).k.pa s r)
    (fun s r op s' e hR hstep => ?_) ⟨init_mmInv start, rfl, fun i mm hi => by simp [init] at hi⟩ h
  have hok := step_ok hR.1 hstep
  obtain ⟨r', hr', hs'⟩ := hok.shows r hR.2
  exact ⟨r', hr', hok.inv, hs'⟩

/-- In every run: `page_count` of a frame with user entries is the number of these entries, a present
entry points into the pool, a writable one is alone on its frame, and whatever the next step is, it
hands a frame with user entries back exactly when it leaves none of them. -/
theorem run_accounted (start : AllocStart) (ops : List MmOp) (s : MmSys) (es : List Event)
    (h : runTrace step (init start) ops = some (s, es)) :
    (∀ p, 0 < s.pteCount p → s.k.pa.pageCount p = s.pteCount p) ∧
      (∀ pte ∈ s.userPtes, ptePresent pte = true → ∃ p, s.k.pa.pteFrame pte = some p ∧
        (hasBits pte pteRdonly = false → s.pteCount p = 1)) ∧
      ∀ op s' e, s.step op = some (s', e) → ∀ p, 0 < s.pteCount p →
        (p ∈ newlyReturned s s' ↔ s'.pteCount p = 0) := by
  obtain ⟨r, -, hI, -⟩ := run_matched h
  refine ⟨fun p hp => hI.pageCount_eq hp, fun pte hmem hpres => ?_, fun op s' e hstep p hp => ?_⟩
  · obtain ⟨p, hp⟩ := hI.frame_of_entry hmem hpres
    exact ⟨p, hp, fun hw => hI.writable_alone hmem hpres hw hp⟩
  · exact (step_ok hI hstep).returned_iff hI hp

/-- A page of data, written before a fork and by the child after it, then read by both. -/
def forkedWrites : List MmOp :=
  [.create ⟨[⟨0x400000, 0x402000, protRead ||| protWrite⟩], 0, 0, 0, 0⟩ [([], true)],
    .write 0 0x400010 7, .write 0 0x400010 7, .fork 0 [([], true), ([], true)], .write 1 0x400010 9,
    .write 1 0x400010 9, .read 0 0x400010, .read 1 0x400010]

def Event.readByte : Event → Option UInt8
  | .read _ _ byte => some byte
  | _ => none

theorem run_accounted_of_forkedWrites : ∃ s es, runTrace step (init PageSys.oddStart) forkedWrites = some (s, es) ∧
    (∀ p, 0 < s.pteCount p → s.k.pa.pageCount p = s.pteCount p) := by
  have h : (runTrace step (init PageSys.oddStart) forkedWrites).isSome = true := by decide +kernel
  obtain ⟨⟨s, es⟩, hs⟩ := Option.isSome_iff_exists.1 h
  exact ⟨s, es, hs, (run_accounted PageSys.oddStart forkedWrites s es hs).1⟩

/-- A write that got through shows in no other address space. -/
theorem MmInv.write_private {P : PageAlloc} {s s' : MmSys} {i j : Nat} {va a : Nat} {byte : UInt8} {mm mmj : MmStruct}
    (hI : MmInv P s) (hi : s.mms[i]? = some (some mm)) (hw : s.userWrite i mm va byte = (s', .wrote i va byte))
    (hj : s.mms[j]? = some (some mmj)) (hne : j ≠ i) : (s'.userRead j mmj a).2 = (s.userRead j mmj a).2 := by
  unfold userWrite at hw
  split at hw
  · rename_i p hp
    cases hw
    obtain ⟨base, hf⟩ := exists_focus (P := P) hi
    obtain ⟨-, -, pte, hs, hpres, hpf, hro⟩ := userFrame_some hI.acct.pteFrame_eq hp
    obtain ⟨hbase, -⟩ := hf.sole_frame hI hs hpres hpf (hro rfl)
    have hsame : userFrame (writeByte s.k p (va % pageSize) byte).pa mmj.pgd a false =
      userFrame s.k.pa mmj.pgd a false := rfl
    unfold userRead
    simp only [hsame]
    cases hq : userFrame s.k.pa mmj.pgd a false with
    | none => rfl
    | some q =>
      obtain ⟨-, hframe, -⟩ := userFrame_some hI.acct.pteFrame_eq hq
      have hqp : q ≠ p := by
        rintro rfl
        exact hbase (Multiset.mem_of_le (refs_le_all _) (hf.others hne hj hframe))
      have hdata : (writeByte s.k p (va % pageSize) byte).data q = s.k.data q := Function.update_of_ne hqp _ _
      simp only [hdata]
  · cases hw

/-- In every run the reference machine, in which a fork copies the whole memory, agrees with every byte
user code has read; and a write that got through changes what is read in no other address space. -/
theorem run_isolated (start : AllocStart) (ops : List MmOp) (s : MmSys) (es : List Event)
    (h : runTrace step (init start) ops = some (s, es)) :
    (∃ r, run refStep [] es = some r) ∧
      ∀ (i : Nat) (mm : MmStruct) (va : Nat) (byte : UInt8) (s' : MmSys), s.mms[i]? = some (some mm) →
        s.userWrite i mm va byte = (s', .wrote i va byte) → ∀ (j : Nat) (mmj : MmStruct) (a : Nat), j ≠ i →
          s.mms[j]? = some (some mmj) → (s'.userRead j mmj a).2 = (s.userRead j mmj a).2 := by
  obtain ⟨r, hr, hI, -⟩ := run_matched h
  refine ⟨⟨r, hr⟩, fun i mm va byte s' hi hw j mmj a hne hj => ?_⟩
  exact hI.write_private hi hw hj hne

theorem run_isolated_of_forkedWrites : ∃ s es, runTrace step (init PageSys.oddStart) forkedWrites = some (s, es) ∧
    es.filterMap Event.readByte = [7, 9] ∧ ∃ r, run refStep [] es = some r := by
  have h : (runTrace step (init PageSys.oddStart) forkedWrites).map (fun x => x.2.filterMap Event.readByte) =
      some [7, 9] := by decide +kernel
  obtain ⟨⟨s, es⟩, hs, hread⟩ := Option.map_eq_some_iff.1 h
  exact ⟨s, es, hs, hread, (run_isolated PageSys.oddStart forkedWrites s es hs).1⟩

end MmSys

end MiniOs.Mm
