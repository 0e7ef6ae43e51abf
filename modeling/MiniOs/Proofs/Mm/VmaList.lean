/-
The VMA list as a map from addresses to protections: what lookups, insertions and erasures of ranges do
to it, address by address.
-/
import MiniOs.Mm.Mmap

namespace MiniOs.Mm

/-- The addresses of a VMA. -/
abbrev Vma.Covers (v : Vma) (a : Nat) : Prop := v.vmStart ≤ a ∧ a < v.vmEnd

/-- The flags of the VMA an address lies in. -/
def flagsAt (vmas : List Vma) (a : Nat) : Option (BitVec 64) := (vmas.find? fun v => v.Covers a).map Vma.vmFlags

/-- The bounds of a VMA are page aligned 64-bit addresses. -/
structure Vma.Ok (v : Vma) : Prop where
  order : v.vmStart ≤ v.vmEnd
  start : pageSize ∣ v.vmStart
  stop : pageSize ∣ v.vmEnd
  word : v.vmEnd < 2 ^ 64

/-- A list that is page aligned, sorted and without overlaps. -/
structure VmasOk (vmas : List Vma) : Prop where
  each : ∀ v ∈ vmas, v.Ok
  sorted : vmas.Pairwise fun v w => v.vmEnd ≤ w.vmStart

/-- A list that is sorted and without overlaps, whatever its bounds are. -/
structure VmasSorted (vmas : List Vma) : Prop where
  order : ∀ v ∈ vmas, v.vmStart ≤ v.vmEnd
  sorted : vmas.Pairwise fun v w => v.vmEnd ≤ w.vmStart

theorem VmasOk.inOrder {vmas : List Vma} (h : VmasOk vmas) : VmasSorted vmas :=
    ⟨fun v hv => (h.each v hv).order, h.sorted⟩

section Lists

variable {v new : Vma} {vmas l : List Vma} {a start stop : Nat} {k : Kmem}

/-! ## Object calls -/

/-- What the `n`-th object call from here on answers. -/
def Kmem.objAt (k : Kmem) (n : Nat) : Bool := k.script[n]?.any Prod.snd

theorem runEnv_frame (ops : List PageSys.Op) (k : Kmem) : (k.runEnv ops).data = k.data ∧
    (k.runEnv ops).script = k.script := by
  induction ops generalizing k with
  | nil => exact ⟨rfl, rfl⟩
  | cons op ops ih =>
    unfold Kmem.runEnv
    split
    · exact ih k
    · exact ih _

theorem objCall_data (k : Kmem) : k.objCall.2.data = k.data := by
  unfold Kmem.objCall
  split
  · rfl
  · exact (runEnv_frame ..).1

theorem objCall_script (k : Kmem) : k.objCall.2.script = k.script.drop 1 := by
  unfold Kmem.objCall
  split
  · rename_i h
    rw [h]
    rfl
  · rename_i h
    rw [h]
    exact (runEnv_frame ..).2

theorem objCall_eq_objAt (k : Kmem) : k.objCall.1 = k.objAt 0 := by
  unfold Kmem.objCall Kmem.objAt
  split <;> rename_i h <;> rw [h] <;> rfl

/-! ## Addresses -/

theorem flagsAt_nil (a : Nat) : flagsAt [] a = none := rfl

theorem flagsAt_cons (v : Vma) (vmas : List Vma) (a : Nat) :
    flagsAt (v :: vmas) a = if v.Covers a then some v.vmFlags else flagsAt vmas a := by
  unfold flagsAt
  by_cases h : v.Covers a
  · simp [h]
  · simp [h]

theorem flagsAt_append (l vmas : List Vma) (a : Nat) : flagsAt (l ++ vmas) a = (flagsAt l a).or (flagsAt vmas a) := by
  induction l with
  | nil => rfl
  | cons v l ih =>
    rw [List.cons_append, flagsAt_cons, flagsAt_cons, ih]
    split <;> rfl

theorem flagsAt_eq_none : flagsAt vmas a = none ↔ ∀ v ∈ vmas, ¬ v.Covers a := by
  simp [flagsAt]

theorem VmasOk.tail (h : VmasOk (v :: vmas)) : VmasOk vmas :=
  ⟨fun w hw => h.each w (List.mem_cons_of_mem v hw), (List.pairwise_cons.1 h.sorted).2⟩

/-! ## Insertion -/

/-- What `insert_vma` found free is free, and the rest of the list stays. -/
structure Inserts (vmas : List Vma) (new : Vma) (vmas' : List Vma) : Prop where
  ok : VmasOk vmas'
  mem : new ∈ vmas'
  nonempty : new.vmStart < new.vmEnd
  free : ∀ a, new.Covers a → flagsAt vmas a = none
  flags : ∀ a, flagsAt vmas' a = if new.Covers a then some new.vmFlags else flagsAt vmas a

theorem le_of_getLast? (h : VmasSorted l) (hlast : ∀ w, l.getLast? = some w → w.vmEnd ≤ a) : ∀ v ∈ l, v.vmEnd ≤ a := by
  induction l with
  | nil => simp
  | cons v l ih =>
    have hrest : ∀ w ∈ l, w.vmEnd ≤ a := by
      refine ih ⟨fun w hw => h.order w (List.mem_cons_of_mem v hw), (List.pairwise_cons.1 h.sorted).2⟩ fun w hw =>
        hlast w ?_
      rw [List.getLast?_cons, hw]
      rfl
    intro w hw
    rcases List.mem_cons.1 hw with rfl | hw
    · cases l with
      | nil => exact hlast w rfl
      | cons x l =>
        have hle := (List.pairwise_cons.1 h.sorted).1 x (List.mem_cons_self ..)
        have hx := hrest x (List.mem_cons_self ..)
        have horder := h.order x (by simp)
        omega
    · exact hrest w hw

theorem le_of_head? (h : VmasSorted l) (hhead : ∀ w, l.head? = some w → a ≤ w.vmStart) : ∀ v ∈ l, a ≤ v.vmStart := by
  cases l with
  | nil => simp
  | cons x l =>
    have hx := hhead x rfl
    intro w hw
    rcases List.mem_cons.1 hw with rfl | hw
    · exact hx
    · have hle := (List.pairwise_cons.1 h.sorted).1 w hw
      have horder := h.order x (List.mem_cons_self ..)
      omega

theorem VmasOk.sublist (h : VmasOk vmas) (hl : l.Sublist vmas) : VmasOk l :=
  ⟨fun v hv => h.each v (hl.subset hv), h.sorted.sublist hl⟩

theorem VmasSorted.sublist (h : VmasSorted vmas) (hl : l.Sublist vmas) : VmasSorted l :=
  ⟨fun v hv => h.order v (hl.subset hv), h.sorted.sublist hl⟩

variable {after before : List Vma}

/-- A VMA stands behind those before it and in front of those after it. -/
theorem vmasSorted_middle : VmasSorted (before ++ v :: after) ↔
    VmasSorted (before ++ after) ∧ v.vmStart ≤ v.vmEnd ∧ (∀ w ∈ before, w.vmEnd ≤ v.vmStart) ∧ ∀ w ∈ after,
      v.vmEnd ≤ w.vmStart := by
  constructor
  · intro h
    have hsub : (before ++ after).Sublist (before ++ v :: after) := by simp
    have hsorted := h.sorted
    rw [List.pairwise_append, List.pairwise_cons] at hsorted
    exact ⟨h.sublist hsub, h.order v (by simp), fun w hw => hsorted.2.2 w hw v (List.mem_cons_self ..), hsorted.2.1.1⟩
  · rintro ⟨h, horder, hb, ha⟩
    have hsorted := h.sorted
    rw [List.pairwise_append] at hsorted
    refine ⟨?_, List.pairwise_append.2 ⟨hsorted.1, List.pairwise_cons.2 ⟨ha, hsorted.2.1⟩, ?_⟩⟩
    · intro w hw
      rcases List.mem_append.1 hw with hw | hw
      · exact h.order w (List.mem_append_left _ hw)
      · rcases List.mem_cons.1 hw with rfl | hw
        · exact horder
        · exact h.order w (List.mem_append_right _ hw)
    · intro w hw x hx
      rcases List.mem_cons.1 hx with rfl | hx
      · exact hb w hw
      · exact hsorted.2.2 w hw x hx

/-- Where one VMA of a sorted list lies no other one does. -/
theorem VmasSorted.flagsAt_rest (h : VmasSorted (before ++ v :: after)) (hc : v.Covers a) :
    flagsAt (before ++ after) a = none := by
  obtain ⟨-, -, hb, ha⟩ := vmasSorted_middle.1 h
  refine flagsAt_eq_none.2 fun w hw hcw => ?_
  rcases List.mem_append.1 hw with hw | hw
  · have hend := hb w hw
    exact absurd hcw.2 (by omega)
  · have hstart := ha w hw
    exact absurd hcw.1 (by omega)

theorem VmasSorted.flagsAt_middle (h : VmasSorted (before ++ v :: after)) (a : Nat) :
    flagsAt (before ++ v :: after) a = if v.Covers a then some v.vmFlags else flagsAt (before ++ after) a := by
  by_cases hc : v.Covers a
  · have hrest := h.flagsAt_rest hc
    rw [flagsAt_append] at hrest
    rw [if_pos hc, flagsAt_append, flagsAt_cons, if_pos hc, (Option.or_eq_none_iff.1 hrest).1]
    rfl
  · rw [if_neg hc, flagsAt_append, flagsAt_append, flagsAt_cons, if_neg hc]

theorem insertVma_split {vmas' : List Vma} (h : VmasSorted vmas) (hi : insertVma vmas new = some vmas') :
    ∃ before after, vmas = before ++ after ∧ vmas' = before ++ new :: after ∧ new.vmStart < new.vmEnd ∧
      VmasSorted (before ++ new :: after) := by
  unfold insertVma at hi
  dsimp only at hi
  generalize hbefore : vmas.takeWhile (fun v => decide (v.vmStart < new.vmStart)) = before at hi
  generalize hafter : vmas.dropWhile (fun v => decide (v.vmStart < new.vmStart)) = after at hi
  have hsplit : vmas = before ++ after := by
    rw [← hbefore, ← hafter]
    exact (List.takeWhile_append_dropWhile ..).symm
  split_ifs at hi with hempty hnext hprev
  cases hi
  refine ⟨before, after, hsplit, rfl, by omega, vmasSorted_middle.2 ⟨hsplit ▸ h, by omega, ?_, ?_⟩⟩
  · refine le_of_getLast? (h.sublist (hsplit ▸ List.sublist_append_left ..)) fun w hw => ?_
    simpa [hw] using hprev
  · refine le_of_head? (h.sublist (hsplit ▸ List.sublist_append_right ..)) fun w hw => ?_
    simpa [hw] using hnext

theorem insertVma_inserts {vmas' : List Vma} (h : VmasOk vmas) (hnew : new.Ok) (hi : insertVma vmas new = some vmas') :
    Inserts vmas new vmas' := by
  obtain ⟨before, after, rfl, rfl, hlt, hsorted⟩ := insertVma_split h.inOrder hi
  refine ⟨⟨?_, hsorted.sorted⟩, by simp, hlt, fun a => hsorted.flagsAt_rest, hsorted.flagsAt_middle⟩
  intro w hw
  rcases List.mem_append.1 hw with hw | hw
  · exact h.each w (List.mem_append_left _ hw)
  · rcases List.mem_cons.1 hw with rfl | hw
    · exact hnew
    · exact h.each w (List.mem_append_right _ hw)

/-! ## Erasing a range -/

/-- What `vma_erase_range` leaves of one VMA. -/
def Vma.erase (start stop : Nat) (v : Vma) : List Vma :=
  if v.vmEnd ≤ start ∨ v.vmStart ≥ stop then [v]
  else if start ≤ v.vmStart ∧ stop ≥ v.vmEnd then []
  else if start ≤ v.vmStart ∧ stop < v.vmEnd then [{ v with vmStart := stop }]
  else if start > v.vmStart ∧ stop ≥ v.vmEnd then [{ v with vmEnd := start }]
  else [{ v with vmEnd := start }, { v with vmStart := stop }]

/-- The VMA whose tail needs an object of its own. -/
theorem vmaEraseRange_of_false (hf : (vmaEraseRange start stop k vmas).1 = false) :
    ∃ v ∈ vmas, v.vmStart < start ∧ start < v.vmEnd := by
  induction vmas generalizing k with
  | nil => simp [vmaEraseRange] at hf
  | cons v vmas ih =>
    have hrest : ∀ {k}, (vmaEraseRange start stop k vmas).1 = false → ∃ w ∈ v :: vmas, w.vmStart < start ∧
      start < w.vmEnd := by
      intro k hk
      obtain ⟨w, hw, hlt⟩ := ih hk
      exact ⟨w, List.mem_cons_of_mem v hw, hlt⟩
    unfold vmaEraseRange at hf
    split_ifs at hf with h1 h2 h3 h4
    · exact hrest hf
    · exact hrest hf
    · exact hrest hf
    · exact hrest hf
    · exact ⟨v, List.mem_cons_self .., by omega, by omega⟩

/-- A failing `vma_erase_range` has changed nothing. -/
theorem vmaEraseRange_unchanged (h : VmasOk vmas) (hf : (vmaEraseRange start stop k vmas).1 = false) :
    (vmaEraseRange start stop k vmas).2.1 = vmas := by
  induction vmas generalizing k with
  | nil => rfl
  | cons v vmas ih =>
    -- a VMA that was trimmed or removed has none behind it that starts before the range
    have hlate : ∀ {k}, start < v.vmEnd → (vmaEraseRange start stop k vmas).1 ≠ false := by
      intro k hlt hk
      obtain ⟨w, hw, hw1, -⟩ := vmaEraseRange_of_false hk
      have hle := (List.pairwise_cons.1 h.sorted).1 w hw
      omega
    unfold vmaEraseRange at hf ⊢
    split_ifs at hf ⊢ with h1 h2 h3 h4
    · have hrest := ih h.tail hf
      simp only [hrest]
    · exact absurd hf (hlate (by omega))
    · exact absurd hf (hlate (by omega))
    · exact absurd hf (hlate (by omega))
    · cases hk : k.objCall with
      | mk ok k' =>
        cases ok with
        | false => rfl
        | true =>
          rw [hk] at hf
          exact absurd hf (hlate (by omega))

theorem vmaEraseRange_of_true (ht : (vmaEraseRange start stop k vmas).1 = true) :
    (vmaEraseRange start stop k vmas).2.1 = vmas.flatMap (Vma.erase start stop) := by
  induction vmas generalizing k with
  | nil => rfl
  | cons v vmas ih =>
    rw [List.flatMap_cons]
    unfold vmaEraseRange at ht ⊢
    unfold Vma.erase
    split_ifs at ht ⊢ with h1 h2 h3 h4
    · exact congrArg _ (ih ht)
    · exact ih ht
    · exact congrArg _ (ih ht)
    · exact congrArg _ (ih ht)
    · cases hk : k.objCall with
      | mk ok k' =>
        rw [hk] at ht
        cases ok with
        | false => cases ht
        | true => exact congrArg _ (congrArg _ (ih ht))

theorem flagsAt_flatMap_congr {f g : Vma → List Vma} (hfg : ∀ v ∈ vmas, flagsAt (f v) a = flagsAt (g v) a) :
    flagsAt (vmas.flatMap f) a = flagsAt (vmas.flatMap g) a := by
  induction vmas with
  | nil => rfl
  | cons v vmas ih =>
    have hv := hfg v (List.mem_cons_self ..)
    have hrest := ih fun w hw => hfg w (List.mem_cons_of_mem v hw)
    rw [List.flatMap_cons, flagsAt_append, hv, hrest, ← flagsAt_append, List.flatMap_cons]

theorem flagsAt_flatMap {f : Vma → List Vma} (hf : ∀ v ∈ vmas, flagsAt (f v) a = flagsAt [v] a) :
    flagsAt (vmas.flatMap f) a = flagsAt vmas a := by simpa using flagsAt_flatMap_congr hf

theorem flagsAt_flatMap_none {f : Vma → List Vma} (hf : ∀ v ∈ vmas, flagsAt (f v) a = none) :
    flagsAt (vmas.flatMap f) a = none := by
  have hcongr := flagsAt_flatMap_congr (g := fun _ => []) hf
  rwa [List.flatMap_eq_nil_iff.2 fun _ _ => rfl] at hcongr

/-- One VMA loses the addresses of the range and keeps the others. -/
theorem flagsAt_erase (v : Vma) (a : Nat) :
    flagsAt (v.erase start stop) a = if start ≤ a ∧ a < stop then none else flagsAt [v] a := by
  unfold Vma.erase
  split_ifs <;> simp only [flagsAt_cons, flagsAt_nil, Vma.Covers] <;> split_ifs <;> first | rfl | omega

theorem flagsAt_eraseAll :
    flagsAt (vmas.flatMap (Vma.erase start stop)) a = if start ≤ a ∧ a < stop then none else flagsAt vmas a := by
  split_ifs with hin
  · refine flagsAt_flatMap_none fun v _ => ?_
    rw [flagsAt_erase, if_pos hin]
  · refine flagsAt_flatMap fun v _ => ?_
    rw [flagsAt_erase, if_neg hin]

theorem mem_erase {w : Vma} (hv : v.Ok) (hs : pageSize ∣ start) (he : pageSize ∣ stop)
    (hw : w ∈ v.erase start stop) : w.Ok ∧ v.vmStart ≤ w.vmStart ∧ w.vmEnd ≤ v.vmEnd := by
  obtain ⟨horder, hstart, hstop, hword⟩ := hv
  unfold Vma.erase at hw
  split_ifs at hw with h1 h2 h3 h4
  · obtain rfl := List.mem_singleton.1 hw
    exact ⟨⟨horder, hstart, hstop, hword⟩, Nat.le_refl _, Nat.le_refl _⟩
  · cases hw
  · obtain rfl := List.mem_singleton.1 hw
    exact ⟨⟨by dsimp only; omega, he, hstop, hword⟩, by dsimp only; omega, Nat.le_refl _⟩
  · obtain rfl := List.mem_singleton.1 hw
    exact ⟨⟨by dsimp only; omega, hstart, hs, by dsimp only; omega⟩, Nat.le_refl _, by dsimp only; omega⟩
  · rcases List.mem_cons.1 hw with rfl | hw
    · exact ⟨⟨by dsimp only; omega, hstart, hs, by dsimp only; omega⟩, Nat.le_refl _, by dsimp only; omega⟩
    · obtain rfl := List.mem_singleton.1 hw
      exact ⟨⟨by dsimp only; omega, he, hstop, hword⟩, by dsimp only; omega, Nat.le_refl _⟩

theorem VmasOk.erase (h : VmasOk vmas) (hle : start ≤ stop) (hs : pageSize ∣ start) (he : pageSize ∣ stop) :
    VmasOk (vmas.flatMap (Vma.erase start stop)) := by
  constructor
  · intro w hw
    obtain ⟨v, hv, hw⟩ := List.mem_flatMap.1 hw
    exact (mem_erase (h.each v hv) hs he hw).1
  · rw [List.pairwise_flatMap]
    constructor
    · intro v hv
      unfold Vma.erase
      split_ifs
      · exact List.pairwise_singleton ..
      · exact List.Pairwise.nil
      · exact List.pairwise_singleton ..
      · exact List.pairwise_singleton ..
      · simpa using hle
    · refine h.sorted.imp_of_mem fun {v w} hv hw hvw x hx y hy => ?_
      have h1 := (mem_erase (h.each v hv) hs he hx).2.2
      have h2 := (mem_erase (h.each w hw) hs he hy).2.1
      omega

/-! ## A range whose end has wrapped -/

/-- An empty or backward range takes no address from a VMA. -/
theorem exists_mem_erase_of_covers (hle : stop ≤ start) (hv : v.Covers a) : ∃ w ∈ v.erase start stop, w.Covers a := by
  obtain ⟨h1, h2⟩ := hv
  unfold Vma.erase
  split_ifs with hout hin hhead htail
  · exact ⟨v, List.mem_singleton_self v, h1, h2⟩
  · omega
  · omega
  · omega
  · -- the two pieces overlap
    by_cases ha : a < start
    · exact ⟨{ v with vmEnd := start }, List.mem_cons_self .., h1, ha⟩
    · exact ⟨{ v with vmStart := stop }, List.mem_cons_of_mem _ (List.mem_singleton_self _), by dsimp only; omega, h2⟩

theorem flagsAt_wrapped (hle : stop ≤ start) (hnone : flagsAt (vmas.flatMap (Vma.erase start stop)) a = none) :
    flagsAt vmas a = none := by
  refine flagsAt_eq_none.2 fun v hv hc => ?_
  obtain ⟨w, hw, hcw⟩ := exists_mem_erase_of_covers hle hc
  exact flagsAt_eq_none.1 hnone w (List.mem_flatMap.2 ⟨v, hv, hw⟩) hcw

/-- It leaves a list alone that covers nothing above its start. -/
theorem erase_wrapped (hle : stop ≤ start) (hok : v.Ok) (hv : ∀ a, start ≤ a → ¬ v.Covers a) :
    v.erase start stop = [v] := by
  have horder := hok.order
  have hfree := hv (max start v.vmStart) (Nat.le_max_left ..)
  unfold Vma.erase
  rw [if_pos (by simp only [Vma.Covers] at hfree; omega)]

end Lists

end MiniOs.Mm
