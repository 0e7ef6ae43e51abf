/-
Temporary signal masks. `rt_sigsuspend` and `ppoll` put the thread's own mask aside, and it comes back on one of
three ways: in `ppoll` itself, into the frame of a handler, or at the end of `syscall_handler`. Whichever it is, the
thread is in user mode with no mask set aside, and `do_signal` has taken no signal that was blocked. A program that
lets a system call write to the address of its own `blocked` word gets round all of this.
-/
import MiniOs.Proofs.Sched.Restart

namespace MiniOs.Sched

open Library Library.Bytes

namespace Thread

variable {t t' u : Thread} {w : World} {ret : BitVec 64}

/-- Neither `SIGKILL` nor `SIGSTOP`. -/
def Blockable (mask : BitVec 64) : Prop := mask &&& sigUnblockable = 0#64

theorem blockable_and_not (mask : BitVec 64) : Blockable (mask &&& ~~~sigUnblockable) := and_not_and_self _ _

theorem Blockable.and_not {mask : BitVec 64} (h : Blockable mask) : mask &&& ~~~sigUnblockable = mask := by
  have hsum := Bits.and_add_and_not mask sigUnblockable
  rw [h, BitVec.zero_add] at hsum
  exact hsum

/-! ## Blocked signals stay pending -/

theorem not_blocked_of_ready {pending blocked : BitVec 64} {sig : Nat} (hblocked : Blockable blocked)
    (hready : readySet pending blocked &&& sigBit sig ≠ 0#64) : blocked &&& sigBit sig = 0#64 := by
  have hbit : ∀ x, x &&& sigBit sig = if x.getLsbD (sig - 1) then sigBit sig else 0#64 := fun x =>
    BitVec.and_twoPow x (sig - 1)
  rw [hbit] at hready ⊢
  unfold readySet at hready
  rw [hblocked.and_not] at hready
  by_cases hget : blocked.getLsbD (sig - 1) = true
  · exact absurd (by simp [hget]) hready
  · rw [if_neg hget]

/-- Every signal `do_signal` takes is one that the mask in force lets through. -/
theorem doSignal_unblocked (arrivals : List (List Nat)) (hblocked : Blockable t.blocked) :
    ∀ k ∈ (doSignal arrivals t).1, k.blocked = t.blocked ∧ t.blocked &&& sigBit k.sig = 0#64 := by
  induction arrivals generalizing t with
  | nil => exact fun _ hk => absurd hk List.not_mem_nil
  | cons sigs rest ih =>
    simp only [doSignal]
    generalize hsig : nextPendingSignal (t.arrive sigs).pending (t.arrive sigs).blocked = sig
    by_cases hzero : sig = 0
    · rw [if_pos hzero]
      exact fun _ hk => absurd hk List.not_mem_nil
    rw [if_neg hzero]
    have hfree : t.blocked &&& sigBit sig = 0#64 := by
      have hne : nextPendingSignal (t.arrive sigs).pending (t.arrive sigs).blocked ≠ 0 := hsig ▸ hzero
      rw [← hsig]
      exact not_blocked_of_ready hblocked (nextPendingSignal_ready hne).2
    have hlast : ∀ v, ∀ k ∈ [(⟨sig, t.blocked, v⟩ : Taken)], k.blocked = t.blocked ∧
      t.blocked &&& sigBit k.sig = 0#64 := by
      intro v k hk
      rw [List.mem_singleton] at hk
      subst hk
      exact ⟨rfl, hfree⟩
    have hmore : ∀ v pending, ∀ k ∈ (⟨sig, t.blocked, v⟩ : Taken) :: (doSignal rest { t with pending := pending }).1,
        k.blocked = t.blocked ∧ t.blocked &&& sigBit k.sig = 0#64 := by
      intro v pending k hk
      rcases List.mem_cons.1 hk with rfl | hk
      · exact ⟨rfl, hfree⟩
      · exact ih (t := { t with pending := pending }) hblocked k hk
    split
    · exact hlast _
    · exact hmore _ _
    · exact hmore _ _
    · exact hlast _
    · exact hlast _

/-! ## The mask on the way out -/

/-- As a thread is in user mode. -/
structure Clean (t : Thread) : Prop where
  restored : t.restoreSigmask = false
  blockable : Blockable t.blocked

theorem restoreSaved_blocked (h : Blockable t.oldBlocked) : t.restoreSaved.blocked = t.oldBlocked := by
  unfold restoreSaved
  unfold oldBlocked at h ⊢
  split_ifs at h ⊢
  · exact h.and_not
  · rfl

theorem clean_restoreSaved (h : Blockable t.blocked) : t.restoreSaved.Clean := by
  unfold restoreSaved
  split_ifs with hrestore
  · exact ⟨rfl, blockable_and_not _⟩
  · exact ⟨by simpa using hrestore, h⟩

/-- The mask during a call, and the one that counts as the thread's own. -/
theorem handleSyscall_masks (hclean : t.Clean) (h : t.handleSyscall w = .ok (ret, u)) :
    Blockable u.blocked ∧ (t.regs.x 8 = nrRtSigsuspend ∨ t.regs.x 8 = nrPpoll → u.oldBlocked = t.blocked) := by
  have hown : t.oldBlocked = t.blocked := by rw [oldBlocked, hclean.restored]; rfl
  rcases handleSyscall_cases h with ⟨_, _, _, rfl⟩ | ⟨_, _, rfl, hnr, hmask⟩ | ⟨_, _, _, rfl | rfl⟩
  · exact ⟨hclean.blockable, fun _ => hown⟩
  · refine ⟨hmask hclean.blockable, fun hnr' => ?_⟩
    rw [hnr] at hnr'
    exact absurd hnr' (by decide)
  · exact ⟨blockable_and_not _, fun _ => rfl⟩
  · exact ⟨blockable_and_not _, fun _ => hclean.blockable.and_not⟩

theorem rtSigreturn_some (h : t.rtSigreturn = .ok (some u)) : Blockable u.blocked := by
  unfold rtSigreturn at h
  split_ifs at h
  · obtain ⟨bytes, -, h⟩ := map_ok h
    cases h
    exact blockable_and_not _
  · cases h

/-- No signal is taken that the mask in force blocks. -/
theorem syscallHandler_unblocked (hclean : t.Clean) :
    ∀ k ∈ (t.syscallHandler w).1, k.blocked &&& sigBit k.sig = 0#64 := by
  have htaken : ∀ u : Thread, Blockable u.blocked → ∀ k ∈ (doSignal w.arrivals u).1,
    k.blocked &&& sigBit k.sig = 0#64 := by
    intro u hu k hk
    obtain ⟨hmask, hfree⟩ := doSignal_unblocked w.arrivals hu k hk
    rwa [hmask]
  unfold syscallHandler syscallHandlerAt
  by_cases hnr : t.regs.x 8 = nrRtSigreturn
  · rw [if_pos hnr]
    split
    · exact fun _ hk => absurd hk List.not_mem_nil
    · exact fun _ hk => absurd hk List.not_mem_nil
    · next u hu => exact htaken u (rtSigreturn_some hu)
  · rw [if_neg hnr]
    split
    · exact fun _ hk => absurd hk List.not_mem_nil
    · next ret u hu =>
      exact htaken { u with regs := u.regs.setX 0 ret }
        (handleSyscall_masks (t := t.enter) ⟨hclean.1, hclean.2⟩ hu).1

theorem exists_handleSyscall (hnr : t.regs.x 8 ≠ nrRtSigreturn) (hback : (t.syscallHandler w).2 = .ok t') :
    ∃ ret u, t.enter.handleSyscall w = .ok (ret, u) := by
  unfold syscallHandler syscallHandlerAt at hback
  rw [if_neg hnr] at hback
  split at hback
  · cases hback
  · next ret u hu => exact ⟨ret, u, hu⟩

theorem syscallHandler_clean (hclean : t.Clean) (hback : (t.syscallHandler w).2 = .ok t') : t'.Clean := by
  by_cases hnr : t.regs.x 8 = nrRtSigreturn
  · unfold syscallHandler syscallHandlerAt at hback
    rw [if_pos hnr] at hback
    split at hback
    · cases hback
    · cases hback
    · next u hu =>
      obtain ⟨t₁, ht₁, rfl⟩ := map_ok hback
      have hsignal := signalled_doSignal w.arrivals u
      rw [ht₁] at hsignal
      rcases hsignal with ⟨-, ⟨pending, heq⟩ | ⟨stop, hstop⟩⟩ | ⟨k, pending, actions, -, -, hdfl, hign, hhandle⟩
      · cases heq
        have hmask : Blockable u.blocked := rtSigreturn_some hu
        exact clean_restoreSaved (t := { u with pending := pending }) hmask
      · cases hstop
      · exact clean_restoreSaved (delivered_of_handleSignal hdfl hign hhandle.symm).blocked
  · obtain ⟨ret, u, hcall⟩ := exists_handleSyscall hnr hback
    have hmask := (handleSyscall_masks (t := t.enter) ⟨hclean.1, hclean.2⟩ hcall).1
    rcases syscallHandler_cases hnr hcall (Prod.ext rfl hback) with ⟨-, -, -, pending, regs, rfl⟩ |
      ⟨k, -, -, pending, actions, v, hd, rfl⟩
    · exact clean_restoreSaved (t := { u with pending := pending, regs := regs, inSyscall := false }) hmask
    · exact clean_restoreSaved (t := { v with inSyscall := false }) hd.blocked

/-- A mask that `rt_sigsuspend` or `ppoll` has replaced is back in force, or in the frame of the handler. -/
theorem syscallHandler_restores (hclean : t.Clean) (hnr : t.regs.x 8 = nrRtSigsuspend ∨ t.regs.x 8 = nrPpoll)
    (hback : (t.syscallHandler w).2 = .ok t') :
    Quiet (t.syscallHandler w).1 ∧ t'.blocked = t.blocked ∨
      (∃ k, Enters (t.syscallHandler w).1 k) ∧ t'.frame.blocked = t.blocked := by
  have hnr' : t.regs.x 8 ≠ nrRtSigreturn := by
    rcases hnr with h | h <;> rw [h] <;> decide
  obtain ⟨ret, u, hcall⟩ := exists_handleSyscall hnr' hback
  have hown : u.oldBlocked = t.blocked := (handleSyscall_masks (t := t.enter) ⟨hclean.1, hclean.2⟩ hcall).2 hnr
  rcases syscallHandler_cases hnr' hcall (Prod.ext rfl hback) with ⟨hquiet, -, -, pending, regs, rfl⟩ |
    ⟨k, henters, -, pending, actions, v, hd, rfl⟩
  · refine Or.inl ⟨hquiet, ?_⟩
    have hown' : oldBlocked { u with pending := pending, regs := regs, inSyscall := false } = t.blocked := hown
    rw [restoreSaved_blocked (by rw [hown']; exact hclean.blockable), hown']
  · refine Or.inr ⟨⟨k, henters⟩, ?_⟩
    rw [frame_congr (t := v) (by simp) (by simp), hd.frame_eq]
    exact hown

/-! ## Calls that copy to the user only -/

variable (va : Option (BitVec 64))
include va

theorem copyOut_of_fits {dst : BitVec 64} (bytes : List Byte)
    (h : dst = 0 ∨ dst.toNat + bytes.length ≤ Mm.MmSys.userVaLimit) :
    t.copyOut va dst bytes = t.copyOut none dst bytes := by
  unfold copyOut
  rcases h with h | h
  · rw [if_pos h, if_pos h]
  · rw [if_pos h, if_pos h]

theorem rtSigaction_of_fits
    (h : t.regs.x 2 = 0 ∨ (t.regs.x 2).toNat + 32 ≤ Mm.MmSys.userVaLimit) : t.rtSigaction va = t.rtSigaction none := by
  unfold rtSigaction
  simp only [copyOut_of_fits va (t.actions _).bytes h]

theorem rtSigprocmask_of_fits
    (h : t.regs.x 2 = 0 ∨ (t.regs.x 2).toNat + 8 ≤ Mm.MmSys.userVaLimit) :
    t.rtSigprocmask va = t.rtSigprocmask none := by
  unfold rtSigprocmask
  simp only [copyOut_of_fits va (encode [t.blocked]) h]

theorem rtSigpending_of_fits
    (h : t.regs.x 0 = 0 ∨ (t.regs.x 0).toNat + 8 ≤ Mm.MmSys.userVaLimit) : t.rtSigpending va = t.rtSigpending none := by
  unfold rtSigpending
  rw [copyOut_of_fits va (encode [t.pending &&& t.blocked]) h]

theorem pollWith_of_fits {nfds : Nat} (timed : Bool) (deadline : BitVec 64) (applied : Bool)
    (h : nfds = 0 ∨ t.regs.x 0 = 0 ∨ (t.regs.x 0).toNat + 8 * nfds ≤ Mm.MmSys.userVaLimit) :
    t.pollWith va w nfds timed deadline applied = t.pollWith none w nfds timed deadline applied := by
  unfold pollWith
  cases hloop : pollLoop timed deadline w.rounds t with
  | error stop => rfl
  | ok p =>
    obtain ⟨nready, u⟩ := p
    obtain ⟨pending, rfl⟩ := pollLoop_ok hloop
    cases nready with
    | none => rfl
    | some nready =>
      simp only [Except.bind]
      rcases h with h | h
      · rw [if_pos h, if_pos h]
      · rw [copyOut_of_fits va _ (by rw [length_load]; exact h)]

theorem ppoll_of_fits
    (h : ((t.regs.x 1).setWidth 32).toNat = 0 ∨ t.regs.x 0 = 0 ∨
      (t.regs.x 0).toNat + 8 * ((t.regs.x 1).setWidth 32).toNat ≤ Mm.MmSys.userVaLimit) :
    t.ppoll va w = t.ppoll none w := by
  unfold ppoll
  have hmask : ∀ newset timed deadline,
      (t.replaceMask newset).pollWith va w ((t.regs.x 1).setWidth 32).toNat timed deadline true =
      (t.replaceMask newset).pollWith none w ((t.regs.x 1).setWidth 32).toNat timed deadline true :=
    fun newset timed deadline => pollWith_of_fits va timed deadline true h
  simp only [pollWith_of_fits va _ _ _ h, hmask]

theorem handleSyscallAt_of_tame (h : t.tame w = true) :
    t.handleSyscallAt va w = t.handleSyscallAt none w := by
  simp only [tame] at h
  simp only [handleSyscallAt]
  split_ifs at h ⊢
  · exact ppoll_of_fits va (by simpa using h)
  · exact rtSigaction_of_fits va (by simpa using h)
  · exact rtSigprocmask_of_fits va (by simpa using h)
  · exact rtSigpending_of_fits va (by simpa using h)
  all_goals rfl

theorem syscallHandlerAt_of_tame (h : t.tame w = true) :
    t.syscallHandlerAt va w = t.syscallHandler w := by
  have hcall : t.enter.handleSyscallAt va w = t.enter.handleSyscallAt none w := handleSyscallAt_of_tame va h
  unfold syscallHandler syscallHandlerAt
  rw [hcall]

end Thread

/-! ## Runs -/

namespace Threads

variable {s s' : Threads} {a : Act} {va : Pid → BitVec 64}

def Clean (s : Threads) : Prop := ∀ pid t, s.thread pid = some t → t.Clean

theorem Clean.put (h : s.Clean) (pid : Pid) {t : Option Thread} (ht : ∀ u, t = some u → u.Clean) :
    (s.put pid t).Clean := by
  intro q u hq
  by_cases hpid : q = pid
  · subst hpid
    exact ht u (by simpa [Threads.put] using hq)
  · exact h q u (by simpa [Threads.put, hpid] using hq)

theorem Clean.back (h : s.Clean) (pid : Pid) {res : Except Stop Thread} (hres : ∀ t, res = .ok t → t.Clean) :
    (s.back pid res).Clean := by
  cases res with
  | error stop => exact h.put pid (by simp)
  | ok t =>
    refine h.put pid fun u hu => ?_
    cases hu
    exact hres t rfl

theorem Clean.stepTame (h : s.Clean) (hstep : s.stepTame va a = some s') : s'.Clean := by
  unfold Threads.stepTame at hstep
  split_ifs at hstep with htame
  cases a with
  | boot entry sp mm =>
    cases hstep
    refine h.put s.nextPid fun u hu => ?_
    cases hu
    exact ⟨rfl, BitVec.zero_and⟩
  | user pid regs sp mm =>
    obtain ⟨t, ht, rfl⟩ := Option.map_eq_some_iff.1 hstep
    refine h.put pid fun u hu => ?_
    cases hu
    exact ⟨(h pid t ht).restored, (h pid t ht).blockable⟩
  | signal pid sig =>
    obtain ⟨t, ht, rfl⟩ := Option.map_eq_some_iff.1 hstep
    refine h.put pid fun u hu => ?_
    cases hu
    exact ⟨(h pid t ht).restored, (h pid t ht).blockable⟩
  | syscall pid w =>
    obtain ⟨t, ht, rfl⟩ := Option.map_eq_some_iff.1 hstep
    have htame : t.tame w = true := by simpa [tame, ht] using htame
    rw [Thread.syscallHandlerAt_of_tame _ htame]
    exact h.back pid fun _ => Thread.syscallHandler_clean (h pid t ht)
  | fork pid w mm =>
    obtain ⟨t, ht, hstep⟩ := Option.bind_eq_some_iff.1 hstep
    split_ifs at hstep
    cases hstep
    have htame : t.tame w = true := by simpa [tame, ht] using htame
    rw [Thread.syscallHandlerAt_of_tame (w := { w with ret := BitVec.ofNat 64 s.nextPid }) _ htame]
    refine Clean.back ?_ pid fun _ => Thread.syscallHandler_clean (h pid t ht)
    refine h.put s.nextPid fun u hu => ?_
    cases hu
    exact ⟨rfl, (h pid t ht).blockable⟩
  | execve pid entry sp mm =>
    obtain ⟨t, ht, hstep⟩ := Option.bind_eq_some_iff.1 hstep
    split_ifs at hstep
    cases hstep
    refine h.put pid fun u hu => ?_
    cases hu
    exact ⟨(h pid t ht).restored, (h pid t ht).blockable⟩

theorem run_clean {acts : List Act} (hrun : run (stepTame va) init acts = some s) : s.Clean :=
  run_invariant (fun _ _ _ hs hstep => hs.stepTame hstep) (fun _ _ h => by cases h) hrun

/-- Memory with the set of `SIGINT` at `0x1000` and the empty set at `0x2000`. -/
def sampleMm : UserMm := ⟨[], 0x4040000, fun a => if a = 0x1000 then 2 else 0, fun _ => true, fun _ => false⟩

/-- The registers of a system call with up to four arguments. -/
def callRegs (nr a0 a1 a2 a3 : BitVec 64) : PtRegs :=
  ⟨fun i => if i = 8 then nr else [a0, a1, a2, a3].getD i.val 0, 0x400004, 0⟩

/-- `SIGCHLD` comes while the call is asleep. -/
def sampleWorld : World := ⟨[[], [sigchld]], [], 0, fun _ => 0, none, 0, 0, sampleMm, [[], []]⟩

/-- A program blocks `SIGINT` and is about to wait with an empty mask. -/
def sampleActs : List Act :=
  [.boot 0x400000 0x403fff0 sampleMm, .user 1 (callRegs nrRtSigprocmask 0 0x1000 0 8) 0x403fff0 sampleMm,
    .syscall 1 sampleWorld, .user 1 (callRegs nrRtSigsuspend 0x2000 8 0 0) 0x403fff0 sampleMm]

/-- Where the slab puts the signal words of every task here. -/
def sampleVa : Pid → BitVec 64 := fun _ => 0xffff800080100200

/-- Memory with a handler at `0x100` for `rt_sigaction`, at `0x1000`. -/
def forgedMm : UserMm := { sampleMm with byte := fun a => if a = 0x1001 then 1 else 0 }

/-- `rt_sigaction` sets the action, and a second one asks for it at the address of the task's `blocked` word. -/
def forgedActs : List Act :=
  [.boot 0x400000 0x403fff0 forgedMm, .user 1 (callRegs nrRtSigaction 10 0x1000 0 8) 0x403fff0 forgedMm,
    .syscall 1 sampleWorld,
    .user 1 (callRegs nrRtSigaction 10 0 (sampleVa 1 + 8) 8) 0x403fff0 forgedMm, .syscall 1 sampleWorld]

end Threads

end MiniOs.Sched
