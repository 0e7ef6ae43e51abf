/-
A signal frame is what was interrupted: `handle_signal` writes the registers, the stack pointer and the mask
below the interrupted stack pointer, and `rt_sigreturn` reads the same values back from there, to any depth of
handlers inside handlers.
-/
import MiniOs.Sched.SignalFrame
import MiniOs.Library.Run
import Mathlib.Data.List.Chain
import Mathlib.Data.List.GetD
import Mathlib.Data.List.OfFn
import Mathlib.Logic.Relation

namespace MiniOs.Sched

open Library Library.Bytes

/-! ## The frame in memory -/

namespace SignalFrame

@[simp] theorem length_words (f : SignalFrame) : f.words.length = 35 := by simp [words]

@[simp] theorem length_bytes (f : SignalFrame) : f.bytes.length = frameSize := by simp [bytes, frameSize]

theorem ofWords_words (f : SignalFrame) : ofWords f.words = f := by
  obtain ⟨⟨x, elr, spsr⟩, sp, blocked⟩ := f
  have hx : (fun i : Fin 31 => (List.ofFn x ++ [elr, spsr, sp, blocked]).getD i 0) = x := by
    funext i
    rw [List.getD_append _ _ _ _ (by simp), List.getD_eq_getElem _ _ (by simp), List.getElem_ofFn]
  have hrest : ∀ k, (List.ofFn x ++ [elr, spsr, sp, blocked]).getD (31 + k) 0 = [elr, spsr, sp, blocked].getD k 0 := by
    intro k
    rw [List.getD_append_right _ _ _ _ (by simp)]
    simp
  have h31 := hrest 0
  have h32 := hrest 1
  have h33 := hrest 2
  have h34 := hrest 3
  simp only [ofWords, words, hx]
  simp_all

theorem ofBytes_bytes (f : SignalFrame) : ofBytes f.bytes = f := by
  have hdecode : decode 35 (encode f.words) = f.words := by
    rw [← length_words f]
    exact decode_encode f.words
  rw [ofBytes, bytes, hdecode, ofWords_words]

end SignalFrame

namespace UserMm

variable {mm mm' : UserMm} {dst src : BitVec 64} {bytes : List Byte}

theorem copyToUser_ok (h : mm.copyToUser dst bytes = .ok mm') :
    mm' = { mm with byte := store mm.byte dst.toNat bytes } ∧
      ∀ i < bytes.length, mm.present (dst.toNat + i) = true := by
  unfold copyToUser at h
  split_ifs at h with hall
  cases h
  refine ⟨rfl, fun i hi => ?_⟩
  have hi := List.all_eq_true.1 hall i (List.mem_range.2 hi)
  exact (Bool.and_eq_true_iff.1 hi).1

theorem copyFromUser_of_present {len : Nat} (h : ∀ i < len, mm.present (src.toNat + i) = true) :
    mm.copyFromUser src len = .ok (load mm.byte src.toNat len) := by
  unfold copyFromUser
  rw [if_pos]
  exact List.all_eq_true.2 fun i hi => h i (List.mem_range.1 hi)

end UserMm

/-- The test of a frame looks at the mappings and not at the contents. -/
theorem signalFrameOk_congr {mm mm' : UserMm} (hvmas : mm'.vmas = mm.vmas) (htop : mm'.stackTop = mm.stackTop)
    (sp : BitVec 64) : signalFrameOk mm' sp = signalFrameOk mm sp := by
  unfold signalFrameOk
  rw [hvmas, htop]

/-! ## Delivery -/

namespace Thread

variable {t t' : Thread} {sig : Nat} {ka : Sigaction}

/-- The frame at the stack pointer, where a handler and `rt_sigreturn` find it. -/
def frame (t : Thread) : SignalFrame := SignalFrame.ofBytes (load t.mm.byte t.userSp.toNat frameSize)

/-- The frame lies wholly below the stack pointer it is made for. -/
theorem frameSp_add_le {sp : BitVec 64} (hsp : frameSize ≤ sp.toNat) : (frameSp sp).toNat + frameSize ≤ sp.toNat := by
  have hsub : (sp - BitVec.ofNat 64 frameSize).toNat = sp.toNat - frameSize := by
    rw [BitVec.toNat_sub_of_le]
    · rfl
    · exact hsp
  have hand : (frameSp sp).toNat ≤ sp.toNat - frameSize := by
    rw [frameSp, BitVec.toNat_and, hsub]
    exact Nat.and_le_left
  omega

/-- What a delivery does to the thread. -/
structure Delivered (t : Thread) (sig : Nat) (ka : Sigaction) (t' : Thread) : Prop where
  room : frameSize ≤ t.userSp.toNat
  ok : signalFrameOk t.mm (frameSp t.userSp) = true
  written : t.mm.copyToUser (frameSp t.userSp) (SignalFrame.bytes ⟨t.regs, t.userSp, t.oldBlocked⟩) = .ok t'.mm
  userSp : t'.userSp = frameSp t.userSp
  regs : t'.regs = { (t.regs.setX 0 (BitVec.ofNat 64 sig)).setX 30 ka.saRestorer with elrEl1 := ka.saHandler }
  restored : t'.restoreSigmask = false
  blocked : t'.blocked &&& sigUnblockable = 0#64
  rest : t' = { t with
    mm := t'.mm, userSp := t'.userSp, regs := t'.regs, restoreSigmask := t'.restoreSigmask, blocked := t'.blocked }

theorem and_not_and_self (x m : BitVec 64) : x &&& ~~~m &&& m = 0#64 := by
  rw [BitVec.and_assoc, BitVec.and_comm (~~~m), BitVec.and_not_self]
  exact BitVec.and_zero

theorem setupSignalFrame_some {handler restorer old : BitVec 64}
    (h : t.setupSignalFrame sig handler restorer old = .ok (some t')) :
    frameSize ≤ t.userSp.toNat ∧ signalFrameOk t.mm (frameSp t.userSp) = true ∧
      ∃ mm, t.mm.copyToUser (frameSp t.userSp) (SignalFrame.bytes ⟨t.regs, t.userSp, old⟩) = .ok mm ∧
        t' = { t with
          mm := mm
          userSp := frameSp t.userSp
          regs := { (t.regs.setX 0 (BitVec.ofNat 64 sig)).setX 30 restorer with elrEl1 := handler } } := by
  unfold setupSignalFrame at h
  by_cases hrestorer : restorer = 0
  · simp [hrestorer] at h
  by_cases hroom : t.userSp.toNat < frameSize ∨ t.userSp &&& 15 ≠ 0
  · rw [if_neg hrestorer, if_pos hroom] at h
    cases h
  rw [if_neg hrestorer, if_neg hroom] at h
  dsimp only at h
  split_ifs at h with hok
  · cases hcopy : t.mm.copyToUser (frameSp t.userSp) (SignalFrame.bytes ⟨t.regs, t.userSp, old⟩) with
    | error stop => simp [hcopy, Except.map] at h
    | ok mm =>
      simp only [hcopy, Except.map, Except.ok.injEq, Option.some.injEq] at h
      exact ⟨not_lt.1 (not_or.1 hroom).1, hok, mm, rfl, h.symm⟩
  · cases h

theorem delivered_of_handleSignal (hdfl : ka.saHandler ≠ sigDfl) (hign : ka.saHandler ≠ sigIgn)
    (h : t.handleSignal sig ka = .ok t') : Delivered t sig ka t' := by
  unfold handleSignal at h
  rw [if_neg (by simp [hdfl, hign])] at h
  dsimp only at h
  split at h
  · cases h
  · cases h
  · next u hu =>
    cases h
    obtain ⟨hroom, hok, mm, hcopy, rfl⟩ := setupSignalFrame_some hu
    exact ⟨hroom, hok, hcopy, rfl, rfl, rfl, and_not_and_self _ _, rfl⟩

/-- An aligned stack with a writable frame's room below is all a delivery needs. -/
theorem exists_delivered (hdfl : ka.saHandler ≠ sigDfl) (hign : ka.saHandler ≠ sigIgn) (hrestorer : ka.saRestorer ≠ 0)
    (hroom : frameSize ≤ t.userSp.toNat) (haligned : t.userSp &&& 15 = 0)
      (hok : signalFrameOk t.mm (frameSp t.userSp) = true)
    (hwritable : ∀ a, t.mm.present a = true ∧ t.mm.rdonly a = false) :
    ∃ t', t.handleSignal sig ka = .ok t' ∧ Delivered t sig ka t' := by
  have hcopy : ∀ f : SignalFrame, t.mm.copyToUser (frameSp t.userSp) f.bytes =
      .ok { t.mm with byte := store t.mm.byte (frameSp t.userSp).toNat f.bytes } := by
    intro f
    unfold UserMm.copyToUser
    rw [if_pos]
    exact List.all_eq_true.2 fun i _ => by simp [hwritable]
  obtain ⟨t', ht'⟩ : ∃ t', t.handleSignal sig ka = .ok t' := by
    unfold handleSignal setupSignalFrame
    rw [if_neg (by simp [hdfl, hign]), if_neg hrestorer, if_neg (not_or.2 ⟨not_lt.2 hroom, not_not.2 haligned⟩)]
    simp only [hok, hcopy, Except.map, if_true]
    exact ⟨_, rfl⟩
  exact ⟨t', ht', delivered_of_handleSignal hdfl hign ht'⟩

namespace Delivered

variable (h : Delivered t sig ka t')

include h

/-- The handler finds the interrupted state in its frame. -/
theorem frame_eq : t'.frame = ⟨t.regs, t.userSp, t.oldBlocked⟩ := by
  obtain ⟨hmm, -⟩ := UserMm.copyToUser_ok h.written
  have hload := load_store_same t.mm.byte (frameSp t.userSp).toNat (SignalFrame.bytes ⟨t.regs, t.userSp, t.oldBlocked⟩)
  rw [SignalFrame.length_bytes] at hload
  rw [frame, h.userSp, hmm, hload, SignalFrame.ofBytes_bytes]

/-- Nothing at or above the interrupted stack pointer is written. -/
theorem byte_eq {a : Nat} (ha : t.userSp.toNat ≤ a) : t'.mm.byte a = t.mm.byte a := by
  obtain ⟨hmm, -⟩ := UserMm.copyToUser_ok h.written
  have hbelow := frameSp_add_le h.room
  rw [hmm]
  exact store_outside (Or.inr (by rw [SignalFrame.length_bytes]; omega))

end Delivered

end Thread

/-! ## Handlers inside handlers -/

/-- A handler that has been entered and not yet returned: the thread as `handle_signal` found it and left it. -/
structure Entry where
  before : Thread
  entered : Thread

/-- A thread and the handlers it is in, innermost first. -/
structure Nest where
  thread : Thread
  live : List Entry

namespace Nest

/-- The thread has the stack pointer and the frame the handler was entered with, and the frame is mapped as it was;
everything else may have changed. -/
structure Intact (entered t : Thread) : Prop where
  userSp : t.userSp = entered.userSp
  frame : load t.mm.byte t.userSp.toNat frameSize = load entered.mm.byte entered.userSp.toNat frameSize
  mapped : signalFrameOk t.mm t.userSp = signalFrameOk entered.mm entered.userSp
  present : ∀ i, i < frameSize → t.mm.present (t.userSp.toNat + i) = entered.mm.present (entered.userSp.toNat + i)

/-- Deliveries and returns, and in between whatever the handlers do with the thread. -/
inductive Step : Nest → Nest → Prop
  | work (t t' : Thread) (live : List Entry) : Step ⟨t, live⟩ ⟨t', live⟩
  | deliver (t t' : Thread) (live : List Entry) (sig : Nat) (ka : Sigaction) (hdfl : ka.saHandler ≠ sigDfl)
      (hign : ka.saHandler ≠ sigIgn) (h : t.handleSignal sig ka = .ok t') : Step ⟨t, live⟩ ⟨t', ⟨t, t'⟩ :: live⟩
  | sigreturn (t t' : Thread) (e : Entry) (live : List Entry) (hintact : Intact e.entered t)
      (h : t.rtSigreturn = .ok (some t')) : Step ⟨t, e :: live⟩ ⟨t', live⟩

/-- Every live handler was entered by a delivery. -/
def Entered (s : Nest) : Prop := ∀ e ∈ s.live, ∃ sig ka, Thread.Delivered e.before sig ka e.entered

theorem Step.entered {s s' : Nest} (hstep : Step s s') (h : s.Entered) : s'.Entered := by
  cases hstep with
  | work t t' live => exact h
  | deliver t t' live sig ka hdfl hign hok =>
    intro e he
    rcases List.mem_cons.1 he with rfl | he
    · exact ⟨sig, ka, Thread.delivered_of_handleSignal hdfl hign hok⟩
    · exact h e he
  | sigreturn t t' e live hintact hok => exact fun e' he' => h e' (List.mem_cons_of_mem e he')

theorem entered_of_reachable {t : Thread} {s : Nest} (h : Relation.ReflTransGen Step ⟨t, []⟩ s) : s.Entered := by
  induction h with
  | refl => exact fun e he => absurd he List.not_mem_nil
  | tail _ hstep ih => exact hstep.entered ih

/-- `rt_sigreturn` from an intact frame takes the thread back to where the delivery found it. -/
theorem rtSigreturn_of_intact {e : Entry} {sig : Nat} {ka : Sigaction} {t : Thread}
    (h : Thread.Delivered e.before sig ka e.entered) (hintact : Intact e.entered t) :
    t.rtSigreturn = .ok (some { t with
      regs := e.before.regs, userSp := e.before.userSp, blocked := e.before.oldBlocked &&& ~~~sigUnblockable }) := by
  obtain ⟨hmm, hpresent⟩ := UserMm.copyToUser_ok h.written
  have hok : signalFrameOk t.mm t.userSp = true := by
    rw [hintact.mapped, h.userSp, signalFrameOk_congr (congrArg UserMm.vmas hmm) (congrArg UserMm.stackTop hmm)]
    exact h.ok
  have hread : t.mm.copyFromUser t.userSp frameSize = .ok (load t.mm.byte t.userSp.toNat frameSize) := by
    apply UserMm.copyFromUser_of_present
    intro i hi
    rw [hintact.present i hi, h.userSp, hmm]
    exact hpresent i (by rwa [SignalFrame.length_bytes])
  have hframe : SignalFrame.ofBytes (load t.mm.byte t.userSp.toNat frameSize) =
      ⟨e.before.regs, e.before.userSp, e.before.oldBlocked⟩ := by
    rw [hintact.frame]
    exact h.frame_eq
  unfold Thread.rtSigreturn
  rw [if_pos hok, hread, Except.map, hframe]

/-- The stack of each handler starts at its frame. -/
def Stacked (live : List Entry) : Prop :=
  live.IsChain fun inner outer => inner.before.userSp.toNat ≤ outer.entered.userSp.toNat

/-- Whole frames, one above the other. -/
def FramesApart (live : List Entry) : Prop :=
  live.Pairwise fun inner outer => inner.entered.userSp.toNat + frameSize ≤ outer.entered.userSp.toNat

theorem framesApart_of_stacked {live : List Entry}
    (hbelow : ∀ e ∈ live, e.entered.userSp.toNat + frameSize ≤ e.before.userSp.toNat) (hstacked : Stacked live) :
    FramesApart live := by
  induction live with
  | nil => exact .nil
  | cons e live ih =>
    have hrest := ih (fun e' he' => hbelow e' (List.mem_cons_of_mem e he')) hstacked.tail
    refine List.pairwise_cons.2 ⟨?_, hrest⟩
    -- the frame is below the next one out, and that one below all the others
    cases live with
    | nil => exact fun _ he' => absurd he' List.not_mem_nil
    | cons outer rest =>
      have hnext : e.entered.userSp.toNat + frameSize ≤ outer.entered.userSp.toNat :=
        (hbelow e List.mem_cons_self).trans (List.isChain_cons_cons.1 hstacked).1
      intro e' he'
      rcases List.mem_cons.1 he' with rfl | he'
      · exact hnext
      · have hfar := (List.pairwise_cons.1 hrest).1 e' he'
        omega

/-- Delivery and `rt_sigreturn` are inverse to each other, at any depth: an innermost handler that comes back with its
frame returns to the registers, the stack pointer and the mask its delivery found. No frame reaches up to the
interrupted stack pointer or changes anything from there on, and the frames of handlers that use the stack below
their own frame lie apart. -/
theorem reachable_restores {t : Thread} {s : Nest} (hreach : Relation.ReflTransGen Step ⟨t, []⟩ s) :
    (∀ e live, s.live = e :: live → Intact e.entered s.thread → ∃ t', s.thread.rtSigreturn = .ok (some t') ∧
      t'.regs = e.before.regs ∧ t'.userSp = e.before.userSp ∧ t'.blocked = e.before.oldBlocked &&& ~~~sigUnblockable) ∧
    (∀ e ∈ s.live, e.entered.userSp.toNat + frameSize ≤ e.before.userSp.toNat ∧
      ∀ a, e.before.userSp.toNat ≤ a → e.entered.mm.byte a = e.before.mm.byte a) ∧
    (Stacked s.live → FramesApart s.live) := by
  have hentered := entered_of_reachable hreach
  have hbelow : ∀ e ∈ s.live, e.entered.userSp.toNat + frameSize ≤ e.before.userSp.toNat := by
    intro e he
    obtain ⟨sig, ka, hd⟩ := hentered e he
    rw [hd.userSp]
    exact Thread.frameSp_add_le hd.room
  refine ⟨?_, ?_, framesApart_of_stacked hbelow⟩
  · intro e live hlive hintact
    obtain ⟨sig, ka, hd⟩ := hentered e (hlive ▸ List.mem_cons_self)
    exact ⟨_, rtSigreturn_of_intact hd hintact, rfl, rfl, rfl⟩
  · intro e he
    obtain ⟨sig, ka, hd⟩ := hentered e he
    exact ⟨hbelow e he, fun a ha => hd.byte_eq ha⟩

/-- A thread with all of its stack mapped, which has `SIGINT` blocked. -/
def sample : Thread :=
  ⟨5, 0, sigBit 2, 0, false, false, 0, fun _ => .zero, ⟨fun i => BitVec.ofNat 64 i.val, 0x400000, 0⟩, 0x403fff0,
    ⟨[], 0x4040000, fun _ => 0, fun _ => true, fun _ => false⟩⟩

def sampleAction : Sigaction := ⟨0x401000, 0, 0x402000, 0⟩

/-- `SIGUSR2` interrupts the handler of `SIGUSR1`; the first return is to that handler. -/
theorem reachable_restores_of_two : ∃ t₁ t₂ t', sample.handleSignal sigusr1 sampleAction = .ok t₁ ∧
    t₁.handleSignal sigusr2 sampleAction = .ok t₂ ∧ t₂.rtSigreturn = .ok (some t') ∧
    t'.regs = t₁.regs ∧ t'.userSp = t₁.userSp ∧ t'.blocked = t₁.oldBlocked &&& ~~~sigUnblockable := by
  obtain ⟨t₁, h₁, hd⟩ : ∃ t₁, sample.handleSignal sigusr1 sampleAction = .ok t₁ ∧
    Thread.Delivered sample sigusr1 sampleAction t₁ :=
    Thread.exists_delivered (by decide) (by decide) (by decide) (by decide) (by decide) (by decide) fun _ => ⟨rfl, rfl⟩
  obtain ⟨hmm, -⟩ := UserMm.copyToUser_ok hd.written
  obtain ⟨t₂, h₂, -⟩ : ∃ t₂, t₁.handleSignal sigusr2 sampleAction = .ok t₂ ∧
    Thread.Delivered t₁ sigusr2 sampleAction t₂ := by
    refine Thread.exists_delivered (by decide) (by decide) (by decide) ?_ ?_ ?_ fun a => by rw [hmm]; exact ⟨rfl, rfl⟩
    · rw [hd.userSp]
      decide
    · rw [hd.userSp]
      decide
    · rw [hd.userSp, signalFrameOk_congr (congrArg UserMm.vmas hmm) (congrArg UserMm.stackTop hmm)]
      decide
  have hreach : Relation.ReflTransGen Step ⟨sample, []⟩ ⟨t₂, [⟨t₁, t₂⟩, ⟨sample, t₁⟩]⟩ :=
    (Relation.ReflTransGen.single (.deliver sample t₁ [] sigusr1 sampleAction (by decide) (by decide) h₁)).tail
      (.deliver t₁ t₂ _ sigusr2 sampleAction (by decide) (by decide) h₂)
  obtain ⟨t', hret, hregs, hsp, hblocked⟩ := (reachable_restores hreach).1 _ _ rfl ⟨rfl, rfl, rfl, fun _ _ => rfl⟩
  exact ⟨t₁, t₂, t', h₁, h₂, hret, hregs, hsp, hblocked⟩

end Nest

end MiniOs.Sched
