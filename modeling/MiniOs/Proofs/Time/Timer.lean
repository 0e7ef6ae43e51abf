/-
When `nanosleep` may return. The tick wakes the sleeper at its deadline and not before, unless the deadline has
wrapped around; but any other wake-up ends the sleep just as well, and the call still returns 0.
-/
import MiniOs.Time.Timer

namespace MiniOs.Time

open Sched Sched.Thread

/-- The ticks a timespec asks for, rounded up: `⌈(tv_sec + tv_nsec / 10^9) * HZ⌉`. -/
def Timespec.jiffies (t : Timespec) : Nat :=
    t.tvSec.toNat * 100 + (t.tvNsec.toNat * 100 + (nsecPerSec - 1)) / nsecPerSec

namespace Sleeper

variable {s s' : Sleeper} {t : Timespec} {jiffies pending blocked : BitVec 64} {events : List Event} {k : Nat}

theorem nsec_lt_of_valid (hv : timespecValid t.tvSec t.tvNsec = true) : t.tvNsec.toNat < nsecPerSec := by
  simp only [timespecValid, Bool.and_eq_true, Bool.not_eq_true', BitVec.slt, decide_eq_false_iff_not,
    decide_eq_true_eq, Int.not_lt] at hv
  obtain ⟨⟨-, h1⟩, h2⟩ := hv
  have h3 : (1000000000 : BitVec 64).toInt = nsecPerSec := by decide
  have h4 : (0 : BitVec 64).toInt = 0 := by decide
  have hcond := BitVec.toInt_eq_toNat_cond t.tvNsec
  rw [h3] at h2
  rw [h4] at h1
  split at hcond <;> omega

/-- Without overflow, `timespec_to_jiffies` is what was asked for. -/
theorem timespecToJiffies_toNat (hv : timespecValid t.tvSec t.tvNsec = true) (hfit : t.jiffies < 2 ^ 64) :
    (timespecToJiffies t.tvSec t.tvNsec).toNat = t.jiffies := by
  have hn := nsec_lt_of_valid hv
  unfold nsecPerSec at hn
  unfold Timespec.jiffies nsecPerSec at *
  unfold timespecToJiffies
  have h100 : (100 : BitVec 64).toNat = 100 := rfl
  have hmore : ((1000000000 : BitVec 64) - 1).toNat = 999999999 := by decide
  have hsum : (t.tvNsec * 100 + (1000000000 - 1)).toNat = t.tvNsec.toNat * 100 + (1000000000 - 1) := by
    rw [BitVec.toNat_add, BitVec.toNat_mul, h100, hmore]
    omega
  rw [BitVec.toNat_add, BitVec.toNat_mul, BitVec.toNat_udiv, hsum, h100]
  have hN : (1000000000 : BitVec 64).toNat = 1000000000 := by decide
  rw [hN]
  omega

/-- The event wakes the sleeper, and is not the tick of its deadline. -/
def disturbs (s : Sleeper) (e : Event) : Bool :=
  match e with
  | .tick => false
  | e => s.asleep && !(s.step e).asleep

/-- No event of the list disturbs the sleep. -/
def quiet (s : Sleeper) : List Event → Bool
  | [] => true
  | e :: events => !s.disturbs e && (s.step e).quiet events

/-- What holds as long as nothing disturbs a sleep of `n` ticks from `j` on. -/
structure Waits (j : BitVec 64) (n : Nat) (s : Sleeper) : Prop where
  wake : s.wakeJiffies.toNat = j.toNat + n
  time : s.asleep = true → s.jiffies.toNat = j.toNat + s.ticks ∧ s.ticks < n
  due : s.asleep = false → n ≤ s.ticks

theorem jiffies_pos (h : ¬ (t.tvSec = 0 ∧ t.tvNsec = 0)) : 0 < t.jiffies := by
  unfold Timespec.jiffies nsecPerSec
  by_contra hz
  refine h ⟨BitVec.eq_of_toNat_eq ?_, BitVec.eq_of_toNat_eq ?_⟩
  · show t.tvSec.toNat = 0
    omega
  · show t.tvNsec.toNat = 0
    omega

theorem waits_blockedAt (hv : timespecValid t.tvSec t.tvNsec = true) (hne : ¬ (t.tvSec = 0 ∧ t.tvNsec = 0))
    (hfit : jiffies.toNat + t.jiffies < 2 ^ 64) :
    (blockedAt t jiffies pending blocked).Waits jiffies t.jiffies := by
  have hpos := jiffies_pos hne
  have hdelta := timespecToJiffies_toNat hv (by omega)
  have hnz : timespecToJiffies t.tvSec t.tvNsec ≠ 0 := by
    intro h0
    rw [h0] at hdelta
    exact hpos.ne hdelta
  refine ⟨?_, fun _ => ⟨rfl, hpos⟩, fun h => by cases h⟩
  show (deadline t jiffies).toNat = _
  unfold deadline
  dsimp only
  rw [if_neg hnz, BitVec.toNat_add, hdelta, Nat.mod_eq_of_lt hfit]

/-- An event that is not a tick and does not disturb leaves the time and the sleep as they are. -/
theorem same_of_not_disturbs {e : Event} (he : e ≠ .tick) (hd : s.disturbs e = false) :
    (s.step e).jiffies = s.jiffies ∧ (s.step e).ticks = s.ticks ∧ (s.step e).wakeJiffies = s.wakeJiffies
      ∧ (s.step e).asleep = s.asleep := by
  have hsame : (s.step e).jiffies = s.jiffies ∧ (s.step e).ticks = s.ticks ∧ (s.step e).wakeJiffies = s.wakeJiffies
      ∧ (s.asleep = false → (s.step e).asleep = false) := by
    cases e with
    | tick => exact absurd rfl he
    | signal sig =>
      unfold step signalQueue wakeUpProcess
      dsimp only
      split_ifs <;> simp
    | child =>
      unfold step notified signalQueue wakeUpProcess
      dsimp only
      split_ifs <;> simp_all
    | wakeUp => simp [step, wakeUpProcess]
  obtain ⟨h1, h2, h3, h4⟩ := hsame
  refine ⟨h1, h2, h3, ?_⟩
  cases ha : s.asleep with
  | false => exact h4 ha
  | true =>
    cases e with
    | tick => exact absurd rfl he
    | _ => simpa [disturbs, ha] using hd

theorem Waits.step {j : BitVec 64} {n : Nat} (hfit : j.toNat + n < 2 ^ 64) {e : Event} (hw : s.Waits j n)
    (hd : s.disturbs e = false) : (s.step e).Waits j n := by
  by_cases he : e = .tick
  · subst he
    unfold Sleeper.step tick wakeUpProcess
    dsimp only
    have hwake := hw.wake
    cases ha : s.asleep with
    | false =>
      have := hw.due ha
      simp only [Bool.false_eq_true, false_and, if_false]
      exact ⟨hwake, fun h => (by simp at h), fun _ => (by dsimp only; omega)⟩
    | true =>
      obtain ⟨htime, hlt⟩ := hw.time ha
      have hnext : (s.jiffies + 1).toNat = j.toNat + (s.ticks + 1) := by
        rw [BitVec.toNat_add, htime]
        show (j.toNat + s.ticks + 1) % 2 ^ 64 = _
        omega
      have hnz : s.wakeJiffies ≠ 0 := by
        intro h0
        rw [h0] at hwake
        change 0 = _ at hwake
        omega
      -- the tick wakes at the deadline
      have hiff : s.wakeJiffies ≤ s.jiffies + 1 ↔ n ≤ s.ticks + 1 := by
        rw [BitVec.le_def, hwake, hnext]
        omega
      simp only [true_and, hnz, ne_eq, not_false_eq_true, hiff]
      split_ifs with hdue
      · exact ⟨hwake, fun h => (by simp at h), fun _ => hdue⟩
      · exact ⟨hwake, fun _ => ⟨hnext, (by dsimp only; omega)⟩, fun h => (by simp at h)⟩
  · obtain ⟨h1, h2, h3, h4⟩ := same_of_not_disturbs he hd
    refine ⟨by rw [h3, hw.wake], ?_, ?_⟩
    · rw [h4, h1, h2]
      exact hw.time
    · rw [h4, h2]
      exact hw.due

theorem Waits.foldl {j : BitVec 64} {n : Nat} (hfit : j.toNat + n < 2 ^ 64) (hw : s.Waits j n)
    (hq : s.quiet events = true) : (events.foldl Sleeper.step s).Waits j n := by
  induction events generalizing s with
  | nil => exact hw
  | cons e events ih =>
    simp only [quiet, Bool.and_eq_true, Bool.not_eq_true'] at hq
    exact ih (hw.step hfit hq.1) hq.2

/-- A sleep that nothing but the tick ends, and whose deadline does not wrap around, is not shorter than asked for. -/
theorem nanosleep_not_early (hv : timespecValid t.tvSec t.tvNsec = true) (hfit : jiffies.toNat + t.jiffies < 2 ^ 64)
    (hquiet : (blockedAt t jiffies pending blocked).quiet events = true)
    (hret : nanosleep t jiffies pending blocked events = some (.ok k)) : t.jiffies ≤ k := by
  unfold nanosleep at hret
  rw [if_neg (by simp [hv])] at hret
  dsimp only at hret
  split_ifs at hret with hzero hawake
  · cases hret
    simp [Timespec.jiffies, hzero, nsecPerSec]
  · cases hret
    exact ((waits_blockedAt hv hzero hfit).foldl hfit hquiet).due (by simpa using hawake)

/-- Thirty milliseconds are three ticks, also when a signal that is blocked arrives. -/
theorem nanosleep_not_early_three :
    nanosleep ⟨0, 30000000⟩ 5 0 (sigBit 10) [.tick, .signal 10, .tick, .tick] = some (.ok 3) ∧
      Timespec.jiffies ⟨0, 30000000⟩ ≤ 3 := by
  have hret : nanosleep ⟨0, 30000000⟩ 5 0 (sigBit 10) [.tick, .signal 10, .tick, .tick] = some (.ok 3) := by decide
  exact ⟨hret, nanosleep_not_early (by decide) (by decide) (by decide) hret⟩

/-- A child that exits ends a sleep of a second at once, also with `SIGCHLD` blocked; a timespec that is too long for
the jiffies ends with the next tick. -/
theorem nanosleep_early :
    nanosleep ⟨1, 0⟩ 5 0 (sigBit sigchld) [.child] = some (.ok 0) ∧ Timespec.jiffies ⟨1, 0⟩ = 100
      ∧ nanosleep ⟨4611686018427387904, 0⟩ 5 0 0 [.tick] = some (.ok 1)
      ∧ Timespec.jiffies ⟨4611686018427387904, 0⟩ = 461168601842738790400 := by
  decide

end Sleeper

end MiniOs.Time
