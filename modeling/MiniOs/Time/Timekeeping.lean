/-
Wall-clock timekeeping: kernel/time/time.c over kernel/time/clocksource.c. The generic timer's counter is
an argument of the functions that read it, and so are the seconds the PL031 shows, which are read only at
boot and where the counter has no frequency.
-/
import Mathlib.Algebra.Order.Ring.Nat
import MiniOs.Sched.Signal

namespace MiniOs.Time

open Sched (Errno)

/-- `NSEC_PER_SEC`. -/
def nsecPerSec : Nat := 1000000000

/-- `struct timespec`: two longs. -/
structure Timespec where
  tvSec : BitVec 64
  tvNsec : BitVec 64
  deriving DecidableEq

/-- What the clock is made of: `cs_hz`, `rtc_base_sec`, `cs_base` and the load register of the PL031. -/
structure Clock where
  csHz : BitVec 64
  rtcBaseSec : BitVec 32
  csBase : BitVec 64
  pl031Lr : BitVec 32
  deriving DecidableEq

namespace Clock

/-- `timekeeping_init`: the PL031 shows `dr` seconds, the timer runs at `frq` and stands at `now`. -/
def init (dr lr : BitVec 32) (frq now : BitVec 64) : Clock :=
  { csHz := if frq = 0 then 62500000 else frq
    rtcBaseSec := dr
    csBase := now
    pl031Lr := lr }

/-- `get_real_time`. -/
def getRealTime (s : Clock) (dr : BitVec 32) (now : BitVec 64) : Timespec :=
  let hz := s.csHz
  if hz = 0 then
    ⟨dr.setWidth 64, 0⟩
  else
    let delta := now - s.csBase
    let sec := s.rtcBaseSec.setWidth 64 + delta / hz
    let nsec := delta % hz * BitVec.ofNat 64 nsecPerSec / hz
    ⟨sec, nsec⟩

/-- `set_real_time`. -/
def setRealTime (s : Clock) (ts : Timespec) (now : BitVec 64) : Except Errno Clock :=
  if ts.tvSec.toInt < 0 then
    .error .inval
  else if ts.tvNsec.toInt < 0 ∨ ts.tvNsec.toInt ≥ nsecPerSec then
    .error .inval
  else
    let sec : BitVec 32 := ts.tvSec.setWidth 32
    let hz := s.csHz
    let sub := if hz ≠ 0 then ts.tvNsec * hz / BitVec.ofNat 64 nsecPerSec else 0
    .ok { s with rtcBaseSec := sec, csBase := now - sub, pl031Lr := sec }

end Clock

end MiniOs.Time
