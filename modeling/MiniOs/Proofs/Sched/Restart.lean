/-
System calls that a signal interrupts: `do_signal` runs through any number of signals that are ignored or stop the
thread, and delivers at most one; only then is `-ERESTARTSYS` turned into a second go at the call or into `-EINTR`,
once, either in the registers or in the frame of the handler.
-/
import MiniOs.Library.Bits
import MiniOs.Sched.Syscall
import MiniOs.Proofs.Sched.SignalFrame

namespace MiniOs.Sched

open Library Library.Bytes

/-! ## The next signal -/

theorem nextPendingSignal_ready {pending blocked : BitVec 64} (h : nextPendingSignal pending blocked ≠ 0) :
    nextPendingSignal pending blocked < nsig ∧
      readySet pending blocked &&& sigBit (nextPendingSignal pending blocked) ≠ 0#64 := by
  unfold nextPendingSignal at h ⊢
  dsimp only at h ⊢
  split_ifs with hkill hstop
  · exact ⟨by decide, hkill⟩
  · exact ⟨by decide, hstop⟩
  · rw [if_neg hkill, if_neg hstop] at h
    cases hfind : (List.range' 1 63).find? fun sig => readySet pending blocked &&& sigBit sig != 0#64 with
    | none => simp [hfind] at h
    | some sig =>
      have hmem := List.mem_of_find?_eq_some hfind
      have hready := List.find?_some hfind
      rw [List.mem_range'_1] at hmem
      refine ⟨?_, by simpa using hready⟩
      show sig < 64
      omega

theorem verdict_handle {pid : Pid} {sig : Nat} {ka : Sigaction} (h : verdict pid sig ka = .handle) :
    ka.saHandler ≠ sigDfl ∧ ka.saHandler ≠ sigIgn := by
  unfold verdict at h
  split_ifs at h with h1 h2 hign hdfl
  exact ⟨hdfl, hign⟩

variable {log : List Taken}

namespace Thread

variable {t t' u : Thread} {w : World}

/-! ## `do_signal` -/

/-- No handler is entered. -/
def Quiet (log : List Taken) : Prop := ∀ k ∈ log, k.verdict ≠ .handle

theorem quiet_nil : Quiet [] := fun _ hk => absurd hk List.not_mem_nil

theorem Quiet.cons {k : Taken} (hk : k.verdict ≠ .handle) (h : Quiet log) : Quiet (k :: log) := by
  intro k' hk'
  rcases List.mem_cons.1 hk' with rfl | hk'
  · exact hk
  · exact h k' hk'

/-- Exactly one handler is entered, for the last signal taken. -/
def Enters (log : List Taken) (k : Taken) : Prop := ∃ pre, log = pre ++ [k] ∧ Quiet pre ∧ k.verdict = .handle

/-- The ways `do_signal` can go: without a handler it changes nothing but the pending set. -/
def Signalled (t : Thread) (log : List Taken) (res : Except Stop Thread) : Prop :=
  (Quiet log ∧ ((∃ pending, res = .ok { t with pending := pending }) ∨ ∃ stop, res = .error stop)) ∨
    ∃ k pending actions, Enters log k ∧ k.sig < nsig ∧
      (t.actions k.sig).saHandler ≠ sigDfl ∧ (t.actions k.sig).saHandler ≠ sigIgn ∧
      res = (applySyscallRestart { t with pending := pending, actions := actions }
        ((t.actions k.sig).has saRestart)).handleSignal
        k.sig (t.actions k.sig)

/-- A round that goes on leaves the rest to the rounds after it. -/
theorem Signalled.cons {pending : BitVec 64} {k : Taken} {res : Except Stop Thread} (hk : k.verdict ≠ .handle)
    (h : Signalled { t with pending := pending } log res) : Signalled t (k :: log) res := by
  rcases h with ⟨hquiet, hres⟩ | ⟨k', pending', actions, ⟨pre, rfl, hquiet, hv⟩, hrest⟩
  · exact Or.inl ⟨hquiet.cons hk, hres⟩
  · exact Or.inr ⟨k', pending', actions, ⟨k :: pre, rfl, hquiet.cons hk, hv⟩, hrest⟩

theorem signalled_doSignal (arrivals : List (List Nat)) (t : Thread) :
    Signalled t (doSignal arrivals t).1 (doSignal arrivals t).2 := by
  induction arrivals generalizing t with
  | nil => exact Or.inl ⟨quiet_nil, Or.inr ⟨_, rfl⟩⟩
  | cons sigs rest ih =>
    simp only [doSignal]
    generalize hsig : nextPendingSignal (t.arrive sigs).pending (t.arrive sigs).blocked = sig
    by_cases hzero : sig = 0
    · rw [if_pos hzero]
      exact Or.inl ⟨quiet_nil, Or.inl ⟨_, rfl⟩⟩
    rw [if_neg hzero]
    have hlt : sig < nsig := hsig ▸ (nextPendingSignal_ready (by rw [hsig]; exact hzero)).1
    split
    · next code hv => exact Or.inl ⟨quiet_nil.cons (by rw [hv]; simp), Or.inr ⟨_, rfl⟩⟩
    · next hv => exact (ih _).cons (by rw [hv]; simp)
    · next hv => exact (ih _).cons (by rw [hv]; simp)
    · next hv => exact Or.inl ⟨quiet_nil.cons (by rw [hv]; simp), Or.inl ⟨_, rfl⟩⟩
    · next hv =>
      obtain ⟨hdfl, hign⟩ := verdict_handle hv
      let actions := if (t.actions sig).has saResethand then
        Function.update t.actions sig { t.actions sig with saHandler := sigDfl } else t.actions
      refine Or.inr ⟨_, (t.arrive sigs).pending &&& ~~~sigBit sig, actions, ⟨[], rfl, quiet_nil, hv⟩, hlt,
        hdfl, hign, ?_⟩
      by_cases hreset : (t.actions sig).has saResethand = true
      · simp [arrive, actions, hreset]
      · simp [arrive, actions, hreset]

end Thread

/-! ## The system calls -/

theorem bind_ok {α β : Type} {x : Except Stop α} {f : α → Except Stop β} {b : β} (h : x.bind f = .ok b) :
    ∃ a, x = .ok a ∧ f a = .ok b := by
  cases x with
  | error stop => cases h
  | ok a => exact ⟨a, rfl, h⟩

theorem map_ok {α β : Type} {x : Except Stop α} {f : α → β} {b : β} (h : x.map f = .ok b) : ∃ a, x = .ok a ∧
    f a = b := by
  cases x with
  | error stop => cases h
  | ok a => exact ⟨a, rfl, Except.ok.inj h⟩

namespace Thread

variable {t t' u : Thread} {w : World} {ret : BitVec 64}

theorem copyOut_ok {dst : BitVec 64} {bytes : List Byte} (h : t.copyOut none dst bytes = .ok u) : ∃ mm,
    u = { t with mm := mm } := by
  unfold copyOut at h
  split_ifs at h
  · cases h
    exact ⟨t.mm, rfl⟩
  · obtain ⟨mm, -, rfl⟩ := map_ok h
    exact ⟨mm, rfl⟩

theorem rtSigaction_ok (h : t.rtSigaction none = .ok (ret, u)) : ∃ mm actions,
    u = { t with mm := mm, actions := actions } := by
  unfold rtSigaction at h
  dsimp only at h
  split_ifs at h
  · cases h
    exact ⟨t.mm, t.actions, rfl⟩
  · cases h
    exact ⟨t.mm, t.actions, rfl⟩
  · cases h
    exact ⟨t.mm, t.actions, rfl⟩
  · obtain ⟨v, hv, h⟩ := bind_ok h
    obtain ⟨mm, rfl⟩ := copyOut_ok hv
    split_ifs at h
    · cases h
      exact ⟨mm, t.actions, rfl⟩
    · obtain ⟨bytes, -, h⟩ := map_ok h
      cases h
      exact ⟨mm, _, rfl⟩

theorem newMask_clean {how : BitVec 32} {old newset mask : BitVec 64}
    (h : newMask how old (newset &&& ~~~sigUnblockable) = some mask)
    (hold : old &&& sigUnblockable = 0#64) : mask &&& sigUnblockable = 0#64 := by
  have hnew := and_not_and_self newset sigUnblockable
  unfold newMask at h
  split_ifs at h
  · cases h
    rw [Bits.or_and_distrib, hold, hnew]
    rfl
  · cases h
    rw [BitVec.and_assoc, BitVec.and_comm _ sigUnblockable, ← BitVec.and_assoc, hold, BitVec.zero_and]
  · cases h
    exact hnew

theorem rtSigprocmask_ok (h : t.rtSigprocmask none = .ok (ret, u)) :
    ∃ mm mask, u = { t with mm := mm, blocked := mask } ∧
      (t.blocked &&& sigUnblockable = 0#64 → mask &&& sigUnblockable = 0#64) := by
  unfold rtSigprocmask at h
  dsimp only at h
  split_ifs at h
  · cases h
    exact ⟨t.mm, t.blocked, rfl, id⟩
  · obtain ⟨v, hv, h⟩ := map_ok h
    obtain ⟨mm, rfl⟩ := copyOut_ok hv
    cases h
    exact ⟨mm, t.blocked, rfl, id⟩
  · obtain ⟨bytes, -, h⟩ := bind_ok h
    split at h
    · cases h
      exact ⟨t.mm, t.blocked, rfl, id⟩
    · next mask hmask =>
      obtain ⟨v, hv, h⟩ := map_ok h
      obtain ⟨mm, rfl⟩ := copyOut_ok hv
      cases h
      exact ⟨mm, mask, rfl, newMask_clean hmask⟩

theorem rtSigpending_ok (h : t.rtSigpending none = .ok (ret, u)) : ∃ mm, u = { t with mm := mm } := by
  unfold rtSigpending at h
  split_ifs at h
  · cases h
    exact ⟨t.mm, rfl⟩
  · cases h
    exact ⟨t.mm, rfl⟩
  · obtain ⟨v, hv, h⟩ := map_ok h
    cases h
    exact copyOut_ok hv

theorem suspendLoop_ok {wakes : List (List Nat)} (h : suspendLoop wakes t = .ok u) : ∃ pending,
    u = { t with pending := pending } := by
  induction wakes generalizing t with
  | nil => cases h
  | cons sigs rest ih =>
    simp only [suspendLoop] at h
    split_ifs at h
    · cases h
      exact ⟨_, rfl⟩
    · obtain ⟨pending, rfl⟩ := ih h
      exact ⟨pending, rfl⟩

theorem rtSigsuspend_ok {wakes : List (List Nat)} (h : t.rtSigsuspend wakes = .ok (ret, u)) :
    u = t ∨ ∃ newset pending, u = { t.replaceMask newset with pending := pending } := by
  unfold rtSigsuspend at h
  split_ifs at h
  · cases h
    exact Or.inl rfl
  · cases h
    exact Or.inl rfl
  · obtain ⟨bytes, -, h⟩ := bind_ok h
    obtain ⟨v, hv, h⟩ := map_ok h
    obtain ⟨pending, rfl⟩ := suspendLoop_ok hv
    cases h
    exact Or.inr ⟨_, pending, rfl⟩

theorem pollLoop_ok {timed : Bool} {deadline : BitVec 64} {rounds : List (Look × Look × Look)}
    {nready : Option (Fin (nrOpen + 1))}
    (h : pollLoop timed deadline rounds t = .ok (nready, u)) : ∃ pending, u = { t with pending := pending } := by
  induction rounds generalizing t with
  | nil => cases h
  | cons round rest ih =>
    obtain ⟨first, blocked, woken⟩ := round
    simp only [pollLoop] at h
    split_ifs at h
    on_goal 9 =>
      obtain ⟨pending, rfl⟩ := ih h
      exact ⟨pending, rfl⟩
    all_goals
      cases h
      exact ⟨_, rfl⟩

/-- The mask is as it was, or still the call's own when a signal interrupts it. -/
theorem pollWith_ok {nfds : Nat} {timed applied : Bool} {deadline : BitVec 64}
    (h : t.pollWith none w nfds timed deadline applied = .ok (ret, u)) :
    ∃ pending mm, u = { t with pending := pending, mm := mm } ∨ applied = true ∧
      u = restoreMask { t with pending := pending, mm := mm } := by
  unfold pollWith at h
  obtain ⟨⟨nready, v⟩, hv, h⟩ := bind_ok h
  obtain ⟨pending, rfl⟩ := pollLoop_ok hv
  cases nready with
  | none =>
    cases h
    exact ⟨pending, t.mm, Or.inl rfl⟩
  | some nready =>
    obtain ⟨v, hv, h⟩ := map_ok h
    obtain ⟨mm, rfl⟩ : ∃ mm, v = { t with pending := pending, mm := mm } := by
      split_ifs at hv
      · cases hv
        exact ⟨t.mm, rfl⟩
      · exact copyOut_ok hv
    cases h
    refine ⟨pending, mm, ?_⟩
    cases applied with
    | false => exact Or.inl rfl
    | true => exact Or.inr ⟨rfl, rfl⟩

theorem ppoll_ok (h : t.ppoll none w = .ok (ret, u)) :
    ∃ pending mm, u = { t with pending := pending, mm := mm } ∨
      ∃ newset, u = { t.replaceMask newset with pending := pending, mm := mm } ∨
        u = restoreMask { t.replaceMask newset with pending := pending, mm := mm } := by
  have hsame : ∃ pending mm, t = { t with pending := pending, mm := mm } ∨
      ∃ newset, t = { t.replaceMask newset with pending := pending, mm := mm } ∨
        t = restoreMask { t.replaceMask newset with pending := pending, mm := mm } := ⟨t.pending, t.mm, Or.inl rfl⟩
  unfold ppoll at h
  dsimp only at h
  by_cases hnfds : nrOpen < ((t.regs.x 1).setWidth 32).toNat
  · rw [if_pos hnfds] at h
    cases h
    exact hsame
  by_cases hufds : ((t.regs.x 1).setWidth 32).toNat ≠ 0 ∧ t.regs.x 0 = 0
  · rw [if_neg hnfds, if_pos hufds] at h
    cases h
    exact hsame
  rw [if_neg hnfds, if_neg hufds] at h
  obtain ⟨-, -, h⟩ := bind_ok h
  obtain ⟨deadline, -, h⟩ := bind_ok h
  split at h
  · cases h
    exact hsame
  · split_ifs at h
    · obtain ⟨pending, mm, hu | ⟨hfalse, -⟩⟩ := pollWith_ok h
      · exact ⟨pending, mm, Or.inl hu⟩
      · cases hfalse
    · cases h
      exact hsame
    · obtain ⟨bytes, -, h⟩ := bind_ok h
      obtain ⟨pending, mm, hu | ⟨-, hu⟩⟩ := pollWith_ok h
      · exact ⟨pending, mm, Or.inr ⟨_, Or.inl hu⟩⟩
      · exact ⟨pending, mm, Or.inr ⟨_, Or.inr hu⟩⟩

/-- What a system call does to the thread. Only `rt_sigprocmask` changes the mask for good; `rt_sigsuspend` and `ppoll`
replace it until the way out. -/
theorem handleSyscall_cases (h : t.handleSyscall w = .ok (ret, u)) :
    (∃ pending mm actions, u = { t with pending := pending, mm := mm, actions := actions }) ∨
    (∃ mm mask, u = { t with mm := mm, blocked := mask } ∧ t.regs.x 8 = nrRtSigprocmask ∧
      (t.blocked &&& sigUnblockable = 0#64 → mask &&& sigUnblockable = 0#64)) ∨
    ∃ newset pending mm, u = { t.replaceMask newset with pending := pending, mm := mm } ∨
      u = restoreMask { t.replaceMask newset with pending := pending, mm := mm } := by
  unfold handleSyscall handleSyscallAt at h
  dsimp only at h
  split_ifs at h with hpoll haction hmask hpending hsuspend
  · obtain ⟨pending, mm, rfl | ⟨newset, hu⟩⟩ := ppoll_ok h
    · exact Or.inl ⟨pending, mm, t.actions, rfl⟩
    · exact Or.inr (Or.inr ⟨newset, pending, mm, hu⟩)
  · obtain ⟨mm, actions, rfl⟩ := rtSigaction_ok h
    exact Or.inl ⟨t.pending, mm, actions, rfl⟩
  · obtain ⟨mm, mask, rfl, hclean⟩ := rtSigprocmask_ok h
    exact Or.inr (Or.inl ⟨mm, mask, rfl, hmask, hclean⟩)
  · obtain ⟨mm, rfl⟩ := rtSigpending_ok h
    exact Or.inl ⟨t.pending, mm, t.actions, rfl⟩
  · obtain rfl | ⟨newset, pending, rfl⟩ := rtSigsuspend_ok h
    · exact Or.inl ⟨u.pending, u.mm, u.actions, rfl⟩
    · exact Or.inr (Or.inr ⟨newset, pending, t.mm, Or.inl rfl⟩)
  · split at h
    · cases h
    · cases h
      exact Or.inl ⟨w.pending, w.mm, t.actions, rfl⟩

theorem handleSyscall_keeps (h : t.handleSyscall w = .ok (ret, u)) :
    u.regs = t.regs ∧ u.userSp = t.userSp ∧ u.inSyscall = t.inSyscall ∧ u.origX0 = t.origX0 := by
  rcases handleSyscall_cases h with ⟨_, _, _, rfl⟩ | ⟨_, _, rfl, -⟩ |
    ⟨_, _, _, rfl | rfl⟩ <;> exact ⟨rfl, rfl, rfl, rfl⟩

/-! ## The restart -/

/-- The registers with which the same `svc` is executed again. -/
def rewound (regs : PtRegs) : PtRegs := { regs with elrEl1 := regs.elrEl1 - 4 }

/-- The registers after a call that was entered with `regs` and returns `ret`. -/
def resumed (regs : PtRegs) (ret : BitVec 64) (restart : Bool) : PtRegs :=
  if ret = restartsys then (if restart then rewound regs else regs.setX 0 eintr) else regs.setX 0 ret

theorem setX_setX (regs : PtRegs) (i : Fin 31) (v v' : BitVec 64) : (regs.setX i v).setX i v' = regs.setX i v' := by
  simp [PtRegs.setX]

theorem setX_self (regs : PtRegs) (i : Fin 31) : regs.setX i (regs.x i) = regs := by
  simp [PtRegs.setX]

theorem applySyscallRestart_eq (t : Thread) {regs : PtRegs} (hin : t.inSyscall = true)
    (hregs : t.regs = regs.setX 0 ret) (horig : t.origX0 = regs.x 0) (restart : Bool) :
    t.applySyscallRestart restart = { t with regs := resumed regs ret restart } := by
  have hx0 : t.regs.x 0 = ret := by simp [hregs, PtRegs.setX]
  unfold applySyscallRestart resumed
  rw [if_neg (by simp [hin]), hx0]
  by_cases hret : ret = restartsys
  · rw [if_neg (not_not.2 hret), if_pos hret]
    cases restart
    · simp [hregs, setX_setX]
    · have helr : t.regs.elrEl1 = regs.elrEl1 := by rw [hregs, PtRegs.setX]
      simp only [if_true, helr, horig, rewound]
      rw [hregs, setX_setX, setX_self]
  · rw [if_pos hret, if_neg hret, ← hregs]

theorem ofNat_ne_restartsys {sig : Nat} (h : sig < nsig) : BitVec.ofNat 64 sig ≠ restartsys := by
  intro heq
  have hnat := congrArg BitVec.toNat heq
  rw [BitVec.toNat_ofNat, Nat.mod_eq_of_lt (h.trans (by decide))] at hnat
  have hval : restartsys.toNat = 2 ^ 64 - 512 := rfl
  unfold nsig at h
  omega

theorem rewound_elrEl1_ne (regs : PtRegs) : (rewound regs).elrEl1 ≠ regs.elrEl1 := by
  intro h
  have hne : regs.elrEl1 - 4 ≠ regs.elrEl1 := by bv_omega
  exact hne h

@[simp] theorem restoreSaved_regs (t : Thread) : t.restoreSaved.regs = t.regs := by
  unfold restoreSaved
  split_ifs <;> rfl

@[simp] theorem restoreSaved_userSp (t : Thread) : t.restoreSaved.userSp = t.userSp := by
  unfold restoreSaved
  split_ifs <;> rfl

@[simp] theorem restoreSaved_mm (t : Thread) : t.restoreSaved.mm = t.mm := by
  unfold restoreSaved
  split_ifs <;> rfl

theorem frame_congr (hmm : u.mm = t.mm) (hsp : u.userSp = t.userSp) : u.frame = t.frame := by
  unfold frame
  rw [hmm, hsp]

/-- The way back to user mode after a call: no handler, or one with the interrupted registers in its frame. -/
theorem syscallHandler_cases (hnr : t.regs.x 8 ≠ nrRtSigreturn) (hcall : t.enter.handleSyscall w = .ok (ret, u))
    (hback : t.syscallHandler w = (log, .ok t')) :
    (Quiet log ∧ t'.regs = resumed t.regs ret true ∧ t'.userSp = t.userSp ∧ ∃ pending regs,
      t' = restoreSaved { u with pending := pending, regs := regs, inSyscall := false }) ∨
    ∃ k, Enters log k ∧ k.sig < nsig ∧ ∃ pending actions v, Delivered { u with
        pending := pending, actions := actions, regs := resumed t.regs ret ((u.actions k.sig).has saRestart) }
          k.sig (u.actions k.sig) v ∧
      t' = restoreSaved { v with inSyscall := false } := by
  obtain ⟨hregs, hsp, hin, horig⟩ := handleSyscall_keeps hcall
  have hin : u.inSyscall = true := hin
  have horig : u.origX0 = t.regs.x 0 := horig
  unfold syscallHandler syscallHandlerAt at hback
  unfold handleSyscall at hcall
  rw [if_neg hnr, hcall] at hback
  dsimp only at hback
  have hsignal := signalled_doSignal w.arrivals { u with regs := u.regs.setX 0 ret }
  obtain ⟨hlog, hres⟩ := Prod.mk.inj hback
  rw [hlog] at hsignal
  obtain ⟨t₁, ht₁, rfl⟩ := map_ok hres
  rw [ht₁] at hsignal
  rcases hsignal with ⟨hquiet, ⟨pending, heq⟩ | ⟨stop, hstop⟩⟩ |
    ⟨k, pending, actions, henters, hlt, hdfl, hign, hhandle⟩
  · cases heq
    have hexit : syscallExitRestart { u with pending := pending, regs := u.regs.setX 0 ret } =
        { u with pending := pending, regs := resumed t.regs ret true } :=
      applySyscallRestart_eq { u with pending := pending, regs := u.regs.setX 0 ret } hin
        (congrArg (PtRegs.setX · 0 ret) hregs) horig true
    refine Or.inl ⟨hquiet, ?_, ?_, pending, resumed t.regs ret true, ?_⟩
    · rw [hexit, restoreSaved_regs]
    · rw [hexit, restoreSaved_userSp]
      exact hsp
    · rw [hexit]
  · cases hstop
  · have happly := applySyscallRestart_eq
      { u with pending := pending, actions := actions, regs := u.regs.setX 0 ret } hin
      (congrArg (PtRegs.setX · 0 ret) hregs) horig ((u.actions k.sig).has saRestart)
    dsimp only at hhandle happly
    rw [happly] at hhandle
    have hd := delivered_of_handleSignal hdfl hign hhandle.symm
    -- the handler's own `x0` is the signal, which the catch-all leaves alone
    have hx0 : t₁.regs.x 0 ≠ restartsys := by
      rw [hd.regs]
      simpa [PtRegs.setX] using ofNat_ne_restartsys hlt
    have hexit : t₁.syscallExitRestart = t₁ := by
      unfold syscallExitRestart applySyscallRestart
      simp [hx0]
    refine Or.inr ⟨k, henters, hlt, pending, actions, t₁, hd, ?_⟩
    rw [hexit]

/-- Only a repeated call may have `-ERESTARTSYS` in `x0`, as its argument. -/
theorem resumed_x0_ne {regs : PtRegs} {restart : Bool} (h : (resumed regs ret restart).elrEl1 = regs.elrEl1) :
    (resumed regs ret restart).x 0 ≠ restartsys := by
  unfold resumed at h ⊢
  split_ifs at h ⊢ with hret hrestart
  · exact absurd h (rewound_elrEl1_ne regs)
  · simp [PtRegs.setX, eintr, restartsys]
  · simpa [PtRegs.setX] using hret

theorem not_quiet_of_enters {k : Taken} (h : Enters log k) : ¬ Quiet log := by
  obtain ⟨pre, rfl, -, hv⟩ := h
  exact fun hquiet => hquiet k (by simp) hv

/-- A thread in `read`, which has a handler for `SIGUSR1` and its whole stack mapped. -/
def reader (flags : BitVec 64) : Thread :=
  { Nest.sample with
    regs := { Nest.sample.regs.setX 8 63 with elrEl1 := 0x400004 }
    actions := fun sig => if sig = sigusr1 then { Nest.sampleAction with saFlags := flags } else .zero }

/-- The call returns `-ERESTARTSYS`, and a signal has come. -/
def interruption (sig : Nat) : World := ⟨[], [], 0, fun _ => 0, none, restartsys, 0, Nest.sample.mm, [[sig]]⟩

theorem exists_of_toOption {α β : Type} {x : α × Except Stop β} {p : β → Bool} (h : x.2.toOption.any p = true) :
    ∃ b, x = (x.1, .ok b) ∧ p b = true := by
  obtain ⟨a, stop | b⟩ := x
  · cases h
  · exact ⟨b, rfl, h⟩

end Thread

end MiniOs.Sched
