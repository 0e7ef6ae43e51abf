/-
How far the wall clock is off. Setting the clock turns nanoseconds into ticks and reading it turns ticks
into nanoseconds, each time rounding down, so a reading is late by less than a tick and a nanosecond. The
seconds are kept in 32 bits though, and a clock set to a time beyond them goes back by 2^32 seconds.
-/
import Mathlib.Algebra.Order.Field.Rat
import Mathlib.Data.Nat.Cast.Order.Field
import Mathlib.Tactic.FieldSimp
import Mathlib.Tactic.Linarith
import Mathlib.Tactic.Positivity
import Mathlib.Tactic.Ring
import MiniOs.Time.Timekeeping

namespace MiniOs.Time

/-- The instant a timespec names, in seconds. -/
def Timespec.seconds (t : Timespec) : ℚ := t.tvSec.toInt + t.tvNsec.toInt / (nsecPerSec : ℚ)

/-! ## Rounding -/

section Rounding

variable {n h d e : Nat}

theorem div_bounds (a : Nat) {b : Nat} (hb : 0 < b) :
    ((a / b : Nat) : ℚ) ≤ (a : ℚ) / b ∧ (a : ℚ) / b < ((a / b : Nat) : ℚ) + 1 := by
  have hq : (0 : ℚ) < b := by exact_mod_cast hb
  constructor
  · exact Nat.cast_div_le
  · rw [div_lt_iff₀ hq]
    have := Nat.lt_mul_div_succ a hb
    rw [Nat.mul_comm] at this
    exact_mod_cast this

theorem ticks_bounds (hh : 0 < h) :
    (d : ℚ) / h + n / (nsecPerSec : ℚ) - 1 / h < ((d + n * h / nsecPerSec : Nat) : ℚ) / h ∧
      ((d + n * h / nsecPerSec : Nat) : ℚ) / h ≤ (d : ℚ) / h + n / (nsecPerSec : ℚ) := by
  have hq : (0 : ℚ) < h := by exact_mod_cast hh
  obtain ⟨hle, hlt⟩ := div_bounds (n * h) (b := nsecPerSec) (by decide)
  have hsplit : (n : ℚ) / nsecPerSec = ((n * h : Nat) : ℚ) / nsecPerSec / h := by
    push_cast
    field_simp
  rw [hsplit, ← add_div, ← sub_div, Nat.cast_add]
  constructor
  · apply div_lt_div_of_pos_right _ hq
    linarith
  · apply div_le_div_of_nonneg_right _ hq.le
    linarith

theorem reading_eq (hh : 0 < h) :
    ((e / h : Nat) : ℚ) + ((e % h * nsecPerSec / h : Nat) : ℚ) / nsecPerSec =
      ((e * nsecPerSec / h : Nat) : ℚ) / nsecPerSec := by
  have hN : (nsecPerSec : ℚ) ≠ 0 := by norm_num [nsecPerSec]
  have hsplit : e * nsecPerSec / h = e / h * nsecPerSec + e % h * nsecPerSec / h := by
    conv_lhs => rw [← Nat.div_add_mod e h, Nat.add_mul, Nat.mul_assoc]
    rw [Nat.mul_add_div hh]
  rw [hsplit]
  push_cast
  field_simp

theorem reading_bounds (hh : 0 < h) :
    (e : ℚ) / h - 1 / (nsecPerSec : ℚ) < ((e / h : Nat) : ℚ) + ((e % h * nsecPerSec / h : Nat) : ℚ) / nsecPerSec ∧
      ((e / h : Nat) : ℚ) + ((e % h * nsecPerSec / h : Nat) : ℚ) / nsecPerSec ≤ (e : ℚ) / h := by
  have hN : (0 : ℚ) < (nsecPerSec : ℚ) := by norm_num [nsecPerSec]
  obtain ⟨hle, hlt⟩ := div_bounds (e * nsecPerSec) hh
  have hexact : (e : ℚ) / h = ((e * nsecPerSec : Nat) : ℚ) / h / nsecPerSec := by
    push_cast
    field_simp
  rw [reading_eq hh, hexact, ← sub_div]
  constructor
  · apply div_lt_div_of_pos_right _ hN
    linarith
  · exact div_le_div_of_nonneg_right hle hN.le

end Rounding

/-! ## What setting and reading compute -/

theorem toInt_eq_toNat_of_nonneg {x : BitVec 64} (hx : 0 ≤ x.toInt) : x.toInt = x.toNat ∧ x.toNat < 2 ^ 63 := by
  have hlt := x.isLt
  have hcond := BitVec.toInt_eq_toNat_cond x
  split at hcond <;> omega

namespace Clock

variable {s s' : Clock} {t : Timespec} {c0 c : BitVec 64} (dr : BitVec 32)

/-- What `set_real_time` leaves, in numbers. -/
structure SetTo (s' : Clock) (t : Timespec) (c0 : BitVec 64) : Prop where
  sec : 0 ≤ t.tvSec.toInt
  nsec : 0 ≤ t.tvNsec.toInt ∧ t.tvNsec.toInt < nsecPerSec
  base : s'.rtcBaseSec.toNat = t.tvSec.toNat % 2 ^ 32
  start : s'.csBase = c0 - t.tvNsec * s'.csHz / BitVec.ofNat 64 nsecPerSec

theorem setTo_of_setRealTime (hset : s.setRealTime t c0 = .ok s') (hpos : 0 < s.csHz.toNat) :
    s'.SetTo t c0 ∧ s'.csHz = s.csHz := by
  have hz : s.csHz ≠ 0 := by
    intro h0
    simp [h0] at hpos
  unfold setRealTime at hset
  split_ifs at hset with h1 h2
  simp only [ne_eq, hz, not_false_eq_true, if_true, Except.ok.injEq] at hset
  subst hset
  push Not at h1 h2
  refine ⟨⟨h1, h2, ?_, rfl⟩, rfl⟩
  simp [BitVec.toNat_setWidth]

section Set

variable (hs : s.SetTo t c0) (hpos : 0 < s.csHz.toNat) (hlt : s.csHz.toNat < 2 ^ 32)
include hs

theorem SetTo.nsec_toNat : t.tvNsec.toInt = t.tvNsec.toNat ∧ t.tvNsec.toNat < nsecPerSec := by
  obtain ⟨heq, -⟩ := toInt_eq_toNat_of_nonneg hs.nsec.1
  have := hs.nsec.2
  omega

include hlt

theorem SetTo.set_fits : t.tvNsec.toNat * s.csHz.toNat < 2 ^ 64 := by
  have hn := hs.nsec_toNat.2
  calc t.tvNsec.toNat * s.csHz.toNat ≤ nsecPerSec * 2 ^ 32 := Nat.mul_le_mul hn.le hlt.le
    _ < 2 ^ 64 := by decide

/-- The ticks since the instant the clock counts from. -/
theorem SetTo.delta_toNat (hc : c0 ≤ c) :
    (c - s.csBase).toNat = (c.toNat - c0.toNat + t.tvNsec.toNat * s.csHz.toNat / nsecPerSec) % 2 ^ 64 := by
  have hfit := hs.set_fits hlt
  have hticks : (t.tvNsec * s.csHz / BitVec.ofNat 64 nsecPerSec).toNat =
    t.tvNsec.toNat * s.csHz.toNat / nsecPerSec := by
    rw [BitVec.toNat_udiv, BitVec.toNat_mul, Nat.mod_eq_of_lt hfit]
    rfl
  have hsmall : t.tvNsec.toNat * s.csHz.toNat / nsecPerSec < 2 ^ 64 := (Nat.div_le_self _ _).trans_lt hfit
  rw [BitVec.le_def] at hc
  have h0 := c0.isLt
  have h1 := c.isLt
  rw [hs.start, BitVec.toNat_sub, BitVec.toNat_sub, hticks]
  generalize t.tvNsec.toNat * s.csHz.toNat / nsecPerSec = k at *
  omega

end Set

section Reading

variable (hpos : 0 < s.csHz.toNat)
include hpos

theorem csHz_ne_zero : s.csHz ≠ 0 := by
  intro h0
  simp [h0] at hpos

theorem get_fits (hlt : s.csHz.toNat < 2 ^ 32) : ((c - s.csBase) % s.csHz).toNat * nsecPerSec < 2 ^ 64 := by
  rw [BitVec.toNat_umod]
  have := Nat.mod_lt (c - s.csBase).toNat hpos
  calc (c - s.csBase).toNat % s.csHz.toNat * nsecPerSec ≤ 2 ^ 32 * nsecPerSec := Nat.mul_le_mul_right _ (by omega)
    _ < 2 ^ 64 := by decide

theorem getRealTime_tvSec :
    (s.getRealTime dr c).tvSec.toNat = (s.rtcBaseSec.toNat + (c - s.csBase).toNat / s.csHz.toNat) % 2 ^ 64 := by
  have hb := s.rtcBaseSec.isLt
  unfold getRealTime
  rw [if_neg (csHz_ne_zero hpos)]
  dsimp only
  rw [BitVec.toNat_add, BitVec.toNat_udiv, BitVec.toNat_setWidth, Nat.mod_eq_of_lt (a := s.rtcBaseSec.toNat) (by omega)]

theorem getRealTime_tvNsec (hlt : s.csHz.toNat < 2 ^ 32) :
    (s.getRealTime dr c).tvNsec.toNat = (c - s.csBase).toNat % s.csHz.toNat * nsecPerSec / s.csHz.toNat := by
  have hfit := get_fits (c := c) hpos hlt
  unfold getRealTime
  rw [if_neg (csHz_ne_zero hpos)]
  dsimp only
  rw [BitVec.toNat_udiv, BitVec.toNat_mul]
  rw [BitVec.toNat_umod] at hfit ⊢
  rw [BitVec.toNat_ofNat, Nat.mod_eq_of_lt (a := nsecPerSec) (by decide), Nat.mod_eq_of_lt hfit]

theorem getRealTime_tvNsec_lt (hlt : s.csHz.toNat < 2 ^ 32) : (s.getRealTime dr c).tvNsec.toNat < nsecPerSec := by
  rw [getRealTime_tvNsec dr hpos hlt, Nat.div_lt_iff_lt_mul hpos, Nat.mul_comm nsecPerSec]
  exact Nat.mul_lt_mul_of_pos_right (Nat.mod_lt _ hpos) (by decide)

end Reading

/-! ## Accuracy -/

/-- The clock, set to `t` when the counter stood at `c0`, is right at `c`: its reading is normalised, late by less
than a tick and a nanosecond and never early, no earlier reading was later, and no product on the way to it overflows.
-/
structure Accurate (s : Clock) (t : Timespec) (dr : BitVec 32) (c0 c : BitVec 64) : Prop where
  normalised : 0 ≤ (s.getRealTime dr c).tvNsec.toInt ∧ (s.getRealTime dr c).tvNsec.toInt < nsecPerSec
  late : t.seconds + ((c.toNat : ℚ) - c0.toNat) / s.csHz.toNat - 1 / s.csHz.toNat - 1 / (nsecPerSec : ℚ)
    < (s.getRealTime dr c).seconds
  not_early : (s.getRealTime dr c).seconds ≤ t.seconds + ((c.toNat : ℚ) - c0.toNat) / s.csHz.toNat
  mono : ∀ dr' c', c0 ≤ c' → c' ≤ c → (s.getRealTime dr' c').seconds ≤ (s.getRealTime dr c).seconds
  set_fits : t.tvNsec.toNat * s.csHz.toNat < 2 ^ 64
  get_fits : ((c - s.csBase) % s.csHz).toNat * nsecPerSec < 2 ^ 64

/-- The ticks a clock set to `t` at `c0` counts until `c`, those of the nanoseconds it was set to included. -/
def ticksUntil (hz : Nat) (t : Timespec) (c0 c : BitVec 64) : Nat :=
  c.toNat - c0.toNat + t.tvNsec.toNat * hz / nsecPerSec

/-- The seconds fit into the 32 bits they are kept in, the ticks into the counter, and the reading into a long. -/
structure InRange (hz : Nat) (t : Timespec) (c0 c : BitVec 64) : Prop where
  sec : t.tvSec.toNat < 2 ^ 32
  ticks : ticksUntil hz t c0 c < 2 ^ 64
  reading : t.tvSec.toNat + ticksUntil hz t c0 c / hz < 2 ^ 63

theorem InRange.mono {hz : Nat} {c' : BitVec 64} (hr : InRange hz t c0 c) (hc : c' ≤ c) : InRange hz t c0 c' := by
  rw [BitVec.le_def] at hc
  have hle : ticksUntil hz t c0 c' ≤ ticksUntil hz t c0 c := by
    unfold ticksUntil
    omega
  have := Nat.div_le_div_right (c := hz) hle
  exact ⟨hr.sec, hle.trans_lt hr.ticks, by have := hr.reading; omega⟩

/-- A number kept in a long that it may not fit into. -/
theorem toInt_le_of_toNat_mod {x : BitVec 64} {m : Nat} (hx : x.toNat = m % 2 ^ 64) :
    x.toInt ≤ m ∧ (2 ^ 63 ≤ m → x.toInt ≤ (m : Int) - 2 ^ 64) := by
  have hcond := BitVec.toInt_eq_toNat_cond x
  rw [hx] at hcond
  split at hcond <;> omega

section Readings

variable (hpos : 0 < s.csHz.toNat) (hlt : s.csHz.toNat < 2 ^ 32)
include hpos hlt

theorem getRealTime_tvNsec_toInt : (s.getRealTime dr c).tvNsec.toInt = (s.getRealTime dr c).tvNsec.toNat := by
  have hn := getRealTime_tvNsec_lt dr (c := c) hpos hlt
  apply BitVec.toInt_eq_toNat_of_lt
  unfold nsecPerSec at hn
  omega

theorem getRealTime_seconds :
    (s.getRealTime dr c).seconds = (s.getRealTime dr c).tvSec.toInt
      + (((c - s.csBase).toNat % s.csHz.toNat * nsecPerSec / s.csHz.toNat : Nat) : ℚ) / nsecPerSec := by
  unfold Timespec.seconds
  rw [getRealTime_tvNsec_toInt dr hpos hlt, getRealTime_tvNsec dr hpos hlt]
  push_cast
  rfl

variable (hs : s.SetTo t c0) (hc : c0 ≤ c)
include hs hc

theorem SetTo.seconds_of_inRange (hr : InRange s.csHz.toNat t c0 c) :
    (s.getRealTime dr c).seconds
      = t.tvSec.toNat + ((ticksUntil s.csHz.toNat t c0 c * nsecPerSec / s.csHz.toNat : Nat) : ℚ) / nsecPerSec := by
  have hdelta : (c - s.csBase).toNat = ticksUntil s.csHz.toNat t c0 c := by
    rw [hs.delta_toNat hlt hc]
    exact Nat.mod_eq_of_lt hr.ticks
  have hsec : (s.getRealTime dr c).tvSec.toNat = t.tvSec.toNat + ticksUntil s.csHz.toNat t c0 c / s.csHz.toNat := by
    have := hr.reading
    rw [getRealTime_tvSec dr hpos, hs.base, hdelta, Nat.mod_eq_of_lt hr.sec, Nat.mod_eq_of_lt (by omega)]
  have hint : (s.getRealTime dr c).tvSec.toInt = (s.getRealTime dr c).tvSec.toNat := by
    have := hr.reading
    exact BitVec.toInt_eq_toNat_of_lt (by omega)
  rw [getRealTime_seconds dr hpos hlt, hint, hsec, hdelta, ← reading_eq (e := ticksUntil s.csHz.toNat t c0 c) hpos,
    Int.cast_natCast, Nat.cast_add]
  ring

/-- Where something is out of range, the clock has gone back by 2^32 seconds at least: each of the three reductions
takes that much off, and none adds anything. -/
theorem SetTo.seconds_le_of_not_inRange (hr : ¬ InRange s.csHz.toNat t c0 c) :
    (s.getRealTime dr c).seconds ≤ t.tvSec.toNat + (ticksUntil s.csHz.toNat t c0 c : ℚ) / s.csHz.toNat - 2 ^ 32 := by
  have hq : (0 : ℚ) < s.csHz.toNat := by exact_mod_cast hpos
  have hdelta : (c - s.csBase).toNat = ticksUntil s.csHz.toNat t c0 c % 2 ^ 64 := hs.delta_toNat hlt hc
  have hsec := getRealTime_tvSec dr (c := c) hpos
  rw [hs.base, hdelta] at hsec
  rw [getRealTime_seconds dr hpos hlt, hdelta]
  obtain ⟨-, hread⟩ := reading_bounds (e := ticksUntil s.csHz.toNat t c0 c % 2 ^ 64) hpos
  obtain ⟨hint, hwrap⟩ := toInt_le_of_toNat_mod hsec
  have hfits : ¬ (t.tvSec.toNat < 2 ^ 32 ∧ ticksUntil s.csHz.toNat t c0 c < 2 ^ 64
      ∧ t.tvSec.toNat + ticksUntil s.csHz.toNat t c0 c / s.csHz.toNat < 2 ^ 63) := fun h => hr ⟨h.1, h.2.1, h.2.2⟩
  generalize (s.getRealTime dr c).tvSec.toInt = x at hint hwrap ⊢
  generalize ticksUntil s.csHz.toNat t c0 c = k at hint hwrap hread hfits ⊢
  generalize hm : k % 2 ^ 64 = m at hint hwrap hread ⊢
  generalize hb : t.tvSec.toNat % 2 ^ 32 = base at hint hwrap ⊢
  have hmq : (m : ℚ) / s.csHz.toNat ≤ (k : ℚ) / s.csHz.toNat := by
    apply div_le_div_of_nonneg_right _ hq.le
    have : m ≤ k := by omega
    exact_mod_cast this
  have hxq : (x : ℚ) ≤ (base : ℚ) + ((m / s.csHz.toNat : Nat) : ℚ) := by
    have := (Int.cast_le (R := ℚ)).2 hint
    rwa [Int.cast_natCast, Nat.cast_add] at this
  by_cases h32 : t.tvSec.toNat < 2 ^ 32
  · have hbq : (base : ℚ) = t.tvSec.toNat := by
      have : base = t.tvSec.toNat := by omega
      exact_mod_cast this
    by_cases h64 : k < 2 ^ 64
    · -- the reading does not fit into a long
      obtain rfl : m = k := by omega
      have h63 : 2 ^ 63 ≤ base + m / s.csHz.toNat := by omega
      have hxq : (x : ℚ) ≤ (base : ℚ) + ((m / s.csHz.toNat : Nat) : ℚ) - 2 ^ 64 := by exact_mod_cast hwrap h63
      linarith
    · -- the ticks have gone round
      have hdiv : (m : ℚ) / s.csHz.toNat + 2 ^ 64 / s.csHz.toNat ≤ (k : ℚ) / s.csHz.toNat := by
        rw [← add_div]
        apply div_le_div_of_nonneg_right _ hq.le
        have : m + 2 ^ 64 ≤ k := by omega
        exact_mod_cast this
      have hfar : (2 : ℚ) ^ 32 ≤ 2 ^ 64 / s.csHz.toNat := by
        rw [le_div_iff₀ hq]
        have : 2 ^ 32 * s.csHz.toNat ≤ 2 ^ 64 := by omega
        exact_mod_cast this
      linarith
  · -- the seconds were cut
    have hbq : (base : ℚ) + 2 ^ 32 ≤ t.tvSec.toNat := by
      have : base + 2 ^ 32 ≤ t.tvSec.toNat := by omega
      exact_mod_cast this
    linarith

end Readings

/-- A clock of a frequency below 2^32, set to a time it accepts, is right at a later counter value exactly if the
seconds it was set to, the ticks since and the reading fit into their words. -/
theorem getRealTime_accurate_iff (hset : s.setRealTime t c0 = .ok s') (hpos : 0 < s.csHz.toNat)
    (hlt : s.csHz.toNat < 2 ^ 32) (hc : c0 ≤ c) :
    Accurate s' t dr c0 c ↔ InRange s.csHz.toNat t c0 c := by
  obtain ⟨hs, hhz⟩ := setTo_of_setRealTime hset hpos
  rw [← hhz] at hpos hlt ⊢
  have hcast : ((c.toNat - c0.toNat : Nat) : ℚ) = (c.toNat : ℚ) - c0.toNat :=
    Nat.cast_sub (by rwa [BitVec.le_def] at hc)
  have hsec : t.seconds = t.tvSec.toNat + (t.tvNsec.toNat : ℚ) / nsecPerSec := by
    unfold Timespec.seconds
    rw [(toInt_eq_toNat_of_nonneg hs.sec).1, hs.nsec_toNat.1, Int.cast_natCast, Int.cast_natCast]
  obtain ⟨hticks, hticks'⟩ := ticks_bounds (n := t.tvNsec.toNat) (d := c.toNat - c0.toNat) hpos
  change _ < ((ticksUntil s'.csHz.toNat t c0 c : Nat) : ℚ) / s'.csHz.toNat at hticks
  change ((ticksUntil s'.csHz.toNat t c0 c : Nat) : ℚ) / s'.csHz.toNat ≤ _ at hticks'
  rw [hcast] at hticks hticks'
  constructor
  · intro ha
    by_contra hr
    have hback := hs.seconds_le_of_not_inRange dr hpos hlt hc hr
    have hlate := ha.late
    rw [hsec] at hlate
    have h1 : (1 : ℚ) / s'.csHz.toNat ≤ 1 := by
      rw [div_le_one (by exact_mod_cast hpos)]
      exact_mod_cast hpos
    have h2 : (1 : ℚ) / nsecPerSec ≤ 1 := by norm_num [nsecPerSec]
    linarith
  · intro hr
    obtain ⟨hread, hread'⟩ := reading_bounds (e := ticksUntil s'.csHz.toNat t c0 c) hpos
    rw [reading_eq hpos] at hread hread'
    have hsecs := hs.seconds_of_inRange dr hpos hlt hc hr
    refine ⟨?_, ?_, ?_, ?_, hs.set_fits hlt, get_fits hpos hlt⟩
    · rw [getRealTime_tvNsec_toInt dr hpos hlt]
      have := getRealTime_tvNsec_lt dr (c := c) hpos hlt
      omega
    · rw [hsecs, hsec]
      linarith
    · rw [hsecs, hsec]
      linarith
    · intro dr' c' h0 h1
      rw [hsecs, hs.seconds_of_inRange dr' hpos hlt h0 (hr.mono h1)]
      apply add_le_add_right
      apply div_le_div_of_nonneg_right _ (by norm_num [nsecPerSec])
      have hle : ticksUntil s'.csHz.toNat t c0 c' ≤ ticksUntil s'.csHz.toNat t c0 c := by
        rw [BitVec.le_def] at h1
        unfold ticksUntil
        omega
      exact_mod_cast Nat.div_le_div_right (Nat.mul_le_mul_right _ hle)

/-- The clock as it boots, at the frequency of QEMU's timer. -/
def atBoot : Clock := init 0 0 62500000 0

/-- Set to half past one second, read a second later. -/
theorem getRealTime_accurate_iff_atBoot : ∃ s', atBoot.setRealTime ⟨1, 500000000⟩ 0 = .ok s'
    ∧ InRange 62500000 ⟨1, 500000000⟩ 0 62500000 ∧ Accurate s' ⟨1, 500000000⟩ 0 0 62500000 := by
  have hr : InRange 62500000 ⟨1, 500000000⟩ 0 62500000 := ⟨by decide, by decide, by decide⟩
  exact ⟨_, rfl, hr, (getRealTime_accurate_iff (s := atBoot) 0 rfl (by decide) (by decide) (by decide)).2 hr⟩

/-- The first second that does not fit into 32 bits: the clock, set to it, shows 1970 at once. -/
theorem not_accurate_of_sec : ∃ s', atBoot.setRealTime ⟨4294967296, 0⟩ 0 = .ok s' ∧ s'.getRealTime 0 0 = ⟨0, 0⟩
    ∧ ¬ Accurate s' ⟨4294967296, 0⟩ 0 0 0 := by
  refine ⟨⟨62500000, 0, 0, 0⟩, by rfl, by decide, fun ha => ?_⟩
  have hlate := ha.late
  have hsec : (4294967296 : BitVec 64).toInt = 4294967296 := by decide
  have hzero : (0 : BitVec 64).toInt = 0 := by decide
  have hhz : (62500000 : BitVec 64).toNat = 62500000 := by decide
  rw [show getRealTime _ 0 0 = ⟨0, 0⟩ by decide] at hlate
  simp only [Timespec.seconds, hsec, hzero, hhz] at hlate
  norm_num [nsecPerSec] at hlate

end Clock

end MiniOs.Time
