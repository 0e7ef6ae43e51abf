/-
The exception level a thread returns to. Everything on the way back to user mode leaves the saved `spsr_el1` as it
is, with one exception: `rt_sigreturn` takes it from user memory.
-/
import MiniOs.Proofs.Sched.Restart

namespace MiniOs.Sched

open Library.Bytes

/-- `M[3:0]` of the saved PSTATE is EL0t. -/
def PtRegs.El0t (regs : PtRegs) : Prop := regs.spsrEl1 &&& 0xf = 0

instance (regs : PtRegs) : Decidable regs.El0t := inferInstanceAs (Decidable (_ = _))

namespace Thread

variable {t t' u : Thread} {w : World}

theorem applySyscallRestart_spsrEl1 (t : Thread) (restart : Bool) : (t.applySyscallRestart restart).regs.spsrEl1 =
    t.regs.spsrEl1 := by
  unfold applySyscallRestart
  split_ifs <;> rfl

theorem Delivered.spsrEl1 {sig : Nat} {ka : Sigaction} (h : Delivered t sig ka t') :
    t'.regs.spsrEl1 = t.regs.spsrEl1 := by
  rw [h.regs]
  rfl

theorem doSignal_spsrEl1 {arrivals : List (List Nat)} (h : (doSignal arrivals t).2 = .ok t') :
    t'.regs.spsrEl1 = t.regs.spsrEl1 := by
  have hsignal := signalled_doSignal arrivals t
  rw [h] at hsignal
  rcases hsignal with ⟨-, ⟨pending, heq⟩ | ⟨stop, hstop⟩⟩ | ⟨k, pending, actions, -, -, hdfl, hign, hhandle⟩
  · cases heq
    rfl
  · cases hstop
  · rw [(delivered_of_handleSignal hdfl hign hhandle.symm).spsrEl1, applySyscallRestart_spsrEl1]

theorem rtSigreturn_regs (h : t.rtSigreturn = .ok (some u)) : u.regs = t.frame.regs := by
  unfold rtSigreturn at h
  split_ifs at h
  · obtain ⟨bytes, hbytes, h⟩ := map_ok h
    cases h
    unfold UserMm.copyFromUser at hbytes
    split_ifs at hbytes
    cases hbytes
    rfl
  · cases h

theorem syscallHandler_spsrEl1 (hback : (t.syscallHandler w).2 = .ok t') :
    t'.regs.spsrEl1 = if t.regs.x 8 = nrRtSigreturn then t.frame.regs.spsrEl1 else t.regs.spsrEl1 := by
  unfold syscallHandler syscallHandlerAt at hback
  split_ifs with hnr
  · rw [if_pos hnr] at hback
    split at hback
    · cases hback
    · cases hback
    · next u hu =>
      obtain ⟨v, hv, rfl⟩ := map_ok hback
      rw [restoreSaved_regs, doSignal_spsrEl1 hv, rtSigreturn_regs hu]
  · rw [if_neg hnr] at hback
    split at hback
    · cases hback
    · next ret u hu =>
      obtain ⟨v, hv, rfl⟩ := map_ok hback
      have hregs := (handleSyscall_keeps hu).1
      rw [restoreSaved_regs]
      dsimp only
      rw [syscallExitRestart, applySyscallRestart_spsrEl1, doSignal_spsrEl1 hv]
      show u.regs.spsrEl1 = t.regs.spsrEl1
      rw [hregs]
      rfl

/-- A thread at EL0t that calls `rt_sigreturn` with EL1h in the frame it has written itself. -/
def forger : Thread :=
  { Nest.sample with
    regs := Nest.sample.regs.setX 8 nrRtSigreturn
    userSp := 0x403f000
    mm := { Nest.sample.mm with byte := fun a => if a = 0x403f000 + 256 then 5 else 0 } }

end Thread

end MiniOs.Sched
