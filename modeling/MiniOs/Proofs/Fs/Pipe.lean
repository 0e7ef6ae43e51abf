/-
Pipes are lossless queues: whatever sections of reads, writes and releases are run in whatever order,
the bytes handed out are a prefix of the bytes taken in and the rest stands in the ring.
-/
import MiniOs.Fs.Pipe
import MiniOs.Library.Ring
import MiniOs.Library.Run

namespace MiniOs.Fs

open Library

namespace Pipe

variable {p q : Pipe}

/-- The bytes in the ring, oldest first. -/
def contents (p : Pipe) : List UInt8 := queued pipeSize p.buf p.tail p.len

/-- The indices are in the ring and agree. -/
structure Consistent (p : Pipe) : Prop where
  tail : p.tail < pipeSize
  len : p.len ≤ pipeSize
  head : p.head = (p.tail + p.len) % pipeSize

theorem pipeSize_pos : 0 < pipeSize := by decide

/-! ## The copy loops -/

theorem readLoop_eq : ∀ (n : Nat) (p : Pipe), p.tail < pipeSize →
    readLoop n p = (queued pipeSize p.buf p.tail n, { p with tail := (p.tail + n) % pipeSize })
  | 0, p, h => by
    simp only [readLoop, queued_zero, Nat.add_zero, Nat.mod_eq_of_lt h]
  | n + 1, p, h => by
    unfold readLoop
    rw [wrap_eq h, readLoop_eq n _ (Nat.mod_lt _ pipeSize_pos), queued_succ h]
    simp only [Nat.mod_add_mod, Nat.add_assoc, Nat.add_comm 1 n]

/-- After the write loop the bytes stand behind the `k` bytes that were queued. -/
theorem writeLoop_spec : ∀ (bytes : List UInt8) (p : Pipe) (k : Nat), p.head = (p.tail + k) % pipeSize →
    k + bytes.length ≤ pipeSize →
    ∃ buf, writeLoop bytes p = { p with buf := buf, head := (p.tail + (k + bytes.length)) % pipeSize } ∧
      queued pipeSize buf p.tail (k + bytes.length) = queued pipeSize p.buf p.tail k ++ bytes
  | [], p, k, hh, _ => by
    refine ⟨p.buf, ?_, by simp⟩
    rw [List.length_nil, Nat.add_zero, ← hh]
    rfl
  | b :: bs, p, k, hh, hk => by
    rw [List.length_cons] at hk
    have hlt : p.head < pipeSize := hh ▸ Nat.mod_lt _ pipeSize_pos
    have hnext : (if p.head + 1 = pipeSize then 0 else p.head + 1) = (p.tail + (k + 1)) % pipeSize := by
      rw [wrap_eq hlt, hh, Nat.mod_add_mod, Nat.add_assoc]
    obtain ⟨buf, heq, hq⟩ := writeLoop_spec bs
      { p with buf := Function.update p.buf p.head b, head := if p.head + 1 = pipeSize then 0 else p.head + 1 } (k + 1)
      hnext (by omega)
    refine ⟨buf, ?_, ?_⟩
    · unfold writeLoop
      rw [heq, List.length_cons, Nat.add_assoc k 1, Nat.add_comm 1]
    · rw [List.length_cons, Nat.add_comm bs.length 1, ← Nat.add_assoc, hq, hh, queued_append (by omega)]
      simp

/-! ## The sections -/

theorem readSection_of_pos (h : p.tail < pipeSize) (hlen : p.len ≠ 0) (count : Nat) (nonblock signal : Bool) :
    p.readSection count nonblock signal = (.got (queued pipeSize p.buf p.tail (min count p.len)),
      { p with tail := (p.tail + min count p.len) % pipeSize, len := p.len - min count p.len }) := by
  have hmin : (if count > p.len then p.len else count) = min count p.len := by split <;> omega
  unfold readSection
  rw [if_neg hlen]
  dsimp only
  rw [hmin, readLoop_eq _ p h]

/-- A section of `pipe_read` hands out the oldest bytes and keeps the others. -/
theorem readSection_spec (h : p.Consistent) (count : Nat) (nonblock signal : Bool) :
    ∃ bytes, (p.readSection count nonblock signal).2.Consistent ∧
      p.contents = bytes ++ (p.readSection count nonblock signal).2.contents ∧
      (∀ l, (p.readSection count nonblock signal).1 = .got l → l = bytes) ∧
      ((∀ l, (p.readSection count nonblock signal).1 ≠ .got l) → bytes = []) ∧
      (count ≠ 0 → (p.readSection count nonblock signal).1 = .got [] → p.len = 0 ∧ p.writers = 0) := by
  by_cases hlen : p.len = 0
  · unfold readSection
    rw [if_pos hlen]
    split_ifs with hw hn hs
    · exact ⟨[], h, rfl, by simp, by simp, fun _ _ => ⟨hlen, hw⟩⟩
    · exact ⟨[], h, rfl, by simp, by simp, by simp⟩
    · exact ⟨[], h, rfl, by simp, by simp, by simp⟩
    · exact ⟨[], h, rfl, by simp, by simp, by simp⟩
  · rw [readSection_of_pos h.tail hlen]
    have hle : min count p.len ≤ p.len := Nat.min_le_right ..
    refine ⟨queued pipeSize p.buf p.tail (min count p.len), ?_, ?_, by simp, by simp, ?_⟩
    · refine ⟨Nat.mod_lt _ pipeSize_pos, Nat.le_trans (Nat.sub_le ..) h.len, ?_⟩
      rw [Nat.mod_add_mod, Nat.add_assoc, Nat.add_sub_cancel' hle]
      exact h.head
    · have hadd : queued pipeSize p.buf p.tail (min count p.len + (p.len - min count p.len)) = _ := queued_add _ _
      rw [Nat.add_sub_cancel' hle] at hadd
      exact hadd
    · intro hc he
      have hnil : queued pipeSize p.buf p.tail (min count p.len) = [] := by simpa using he
      have hzero := congrArg List.length hnil
      rw [queued_length, List.length_nil] at hzero
      omega

theorem writeSection_of_room (h : p.Consistent) (hr : p.readers ≠ 0) (hlen : p.len ≠ pipeSize) (bytes : List UInt8)
    (nonblock signal : Bool) :
    ∃ n buf, p.writeSection bytes nonblock signal = (.took n,
        { p with buf := buf, head := (p.tail + (p.len + n)) % pipeSize, len := p.len + n }) ∧ p.len + n ≤ pipeSize ∧
      queued pipeSize buf p.tail (p.len + n) = p.contents ++ bytes.take n := by
  have hmin : (if bytes.length > pipeSize - p.len then pipeSize - p.len else bytes.length) =
      min bytes.length (pipeSize - p.len) := by split <;> omega
  generalize hn : min bytes.length (pipeSize - p.len) = n at hmin
  have hroom := h.len
  have htake : (bytes.take n).length = n := by
    rw [List.length_take]
    omega
  obtain ⟨buf, heq, hq⟩ := writeLoop_spec (bytes.take n) p p.len h.head (by omega)
  rw [htake] at heq hq
  refine ⟨n, buf, ?_, by omega, hq⟩
  unfold writeSection
  rw [if_neg hr, if_neg hlen]
  dsimp only
  rw [hmin, heq]

/-- A section of `pipe_write` puts the bytes it takes behind the others. -/
theorem writeSection_spec (h : p.Consistent) (bytes : List UInt8) (nonblock signal : Bool) :
    ∃ n, (p.writeSection bytes nonblock signal).2.Consistent ∧
      (p.writeSection bytes nonblock signal).2.contents = p.contents ++ bytes.take n ∧
      (∀ m, (p.writeSection bytes nonblock signal).1 = .took m → m = n) ∧
      ((∀ m, (p.writeSection bytes nonblock signal).1 ≠ .took m) → n = 0) ∧
      ((p.writeSection bytes nonblock signal).1 = .error .pipe → p.readers = 0) := by
  by_cases hr : p.readers = 0
  · unfold writeSection
    rw [if_pos hr]
    exact ⟨0, h, by simp, by simp, by simp, fun _ => hr⟩
  by_cases hlen : p.len = pipeSize
  · unfold writeSection
    rw [if_neg hr, if_pos hlen]
    split_ifs with hn hs
    · exact ⟨0, h, by simp, by simp, by simp, by simp⟩
    · exact ⟨0, h, by simp, by simp, by simp, by simp⟩
    · exact ⟨0, h, by simp, by simp, by simp, by simp⟩
  · obtain ⟨n, buf, heq, hle, hq⟩ := writeSection_of_room h hr hlen bytes nonblock signal
    rw [heq]
    exact ⟨n, ⟨h.tail, hle, rfl⟩, hq, by simp, by simp, by simp⟩

theorem release_contents (p : Pipe) (readEnd : Bool) : (p.release readEnd).contents = p.contents := by
  unfold release
  split <;> rfl

theorem release_consistent (h : p.Consistent) (readEnd : Bool) : (p.release readEnd).Consistent := by
  unfold release
  split <;> exact ⟨h.tail, h.len, h.head⟩

end Pipe

namespace PipeSys

variable {s s' : PipeSys} {c : Call}

/-- The bytes taken in are the bytes handed out and those in the ring. -/
def Inv (s : PipeSys) : Prop := s.pipe.Consistent ∧ s.taken = s.got ++ s.pipe.contents

theorem step_inv (h : s.Inv) (hs : s.step c = some s') : s'.Inv := by
  obtain ⟨hc, hq⟩ := h
  cases c with
  | read count nonblock signal =>
    obtain ⟨bytes, h1, h2, h3, h4, -⟩ := Pipe.readSection_spec hc count nonblock signal
    simp only [step] at hs
    split_ifs at hs
    generalize s.pipe.readSection count nonblock signal = r at hs h1 h2 h3 h4
    obtain ⟨res, p⟩ := r
    cases res with
    | got l =>
      cases hs
      refine ⟨h1, ?_⟩
      rw [h3 l rfl, List.append_assoc, ← h2]
      exact hq
    | error e =>
      cases hs
      rw [h4 (by simp)] at h2
      exact ⟨h1, by rw [hq, h2]; rfl⟩
    | wait =>
      cases hs
      rw [h4 (by simp)] at h2
      exact ⟨h1, by rw [hq, h2]; rfl⟩
  | write bytes nonblock signal =>
    obtain ⟨n, h1, h2, h3, h4, -⟩ := Pipe.writeSection_spec hc bytes nonblock signal
    simp only [step] at hs
    split_ifs at hs
    generalize s.pipe.writeSection bytes nonblock signal = r at hs h1 h2 h3 h4
    obtain ⟨res, p⟩ := r
    cases res with
    | took m =>
      cases hs
      refine ⟨h1, ?_⟩
      rw [h3 m rfl, h2, ← List.append_assoc, ← hq]
    | error e =>
      cases hs
      rw [h4 (by simp), List.take_zero, List.append_nil] at h2
      exact ⟨h1, by rw [h2]; exact hq⟩
    | wait =>
      cases hs
      rw [h4 (by simp), List.take_zero, List.append_nil] at h2
      exact ⟨h1, by rw [h2]; exact hq⟩
  | release readEnd =>
    simp only [step] at hs
    split_ifs at hs
    cases hs
    exact ⟨Pipe.release_consistent hc readEnd, by rw [Pipe.release_contents]; exact hq⟩

theorem init_inv (readers writers : Nat) (buf : Nat → UInt8) : (init readers writers buf).Inv :=
  ⟨⟨Pipe.pipeSize_pos, Nat.zero_le _, rfl⟩, rfl⟩

/-- Pipes are lossless queues: after any sections of reads, writes and releases, what was handed out
followed by the ring is what was taken in, and the indices agree. A read then returns nothing only at
the end of file, and a write breaks only without readers. -/
theorem run_lossless {readers writers : Nat} {buf : Nat → UInt8} {calls : List Call} {s : PipeSys}
    (hrun : run step (init readers writers buf) calls = some s) :
    s.taken = s.got ++ s.pipe.contents ∧ s.pipe.contents.length = s.pipe.len ∧ s.pipe.Consistent ∧
      (∀ count nonblock signal, count ≠ 0 → (s.pipe.readSection count nonblock signal).1 = .got [] →
        s.pipe.len = 0 ∧ s.pipe.writers = 0) ∧
      ∀ bytes nonblock signal, (s.pipe.writeSection bytes nonblock signal).1 = .error .pipe → s.pipe.readers = 0 := by
  obtain ⟨hc, hq⟩ := run_invariant (fun _ _ _ hi hs => step_inv hi hs) (init_inv readers writers buf) hrun
  refine ⟨hq, queued_length, hc, ?_, ?_⟩
  · intro count nonblock signal hne he
    obtain ⟨bytes, -, -, -, -, hz⟩ := Pipe.readSection_spec hc count nonblock signal
    exact hz hne he
  · intro bytes nonblock signal he
    obtain ⟨n, -, -, -, -, hz⟩ := Pipe.writeSection_spec hc bytes nonblock signal
    exact hz he

theorem run_lossless_of_partialRead : ∃ s, run step (init 1 1 fun _ => 0)
      [.write [1, 2, 3] false false, .read 2 false false, .release false] = some s ∧
    s.got = [1, 2] ∧ s.taken = [1, 2, 3] ∧ s.taken = s.got ++ s.pipe.contents := by
  obtain ⟨s, hrun, hgot, htaken⟩ : ∃ s, run step (init 1 1 fun _ => 0)
      [.write [1, 2, 3] false false, .read 2 false false, .release false] = some s ∧
      s.got = [1, 2] ∧ s.taken = [1, 2, 3] := ⟨_, rfl, by decide, by decide⟩
  exact ⟨s, hrun, hgot, htaken, (run_lossless hrun).1⟩

end PipeSys

end MiniOs.Fs
