/-
The contents of a file over whole runs. A file is the sequence of bytes written to it as long as no call
brings bytes into the file that nobody wrote: those of a gap below a write and those of a truncation to
a larger size are what the buffer happens to hold. And a write returns exactly when the capacity it needs
fits into the doubling loop.
-/
import MiniOs.Fs.RamfsFile
import MiniOs.Library.Run

namespace MiniOs.Fs

open Library

namespace FileData

variable {f f' : FileData} {need fuel : Nat} {mem : Option Buffer}

/-- What every file keeps: its capacity is a power of two, and its bytes have a place. -/
structure Sound (f : FileData) : Prop where
  type : f.type = .reg
  capacity : f.capacity = 0 ∨ ∃ j, 12 ≤ j ∧ j < 64 ∧ f.capacity = 2 ^ j
  size : f.size ≤ f.capacity
  data : f.capacity ≠ 0 → f.data.isSome = true

theorem sound_new : new.Sound := ⟨rfl, .inl rfl, Nat.le_refl _, fun h => absurd rfl h⟩

/-! ## The capacity -/

theorem Sound.start (h : f.Sound) : ∃ j, 12 ≤ j ∧ j < 64 ∧
    (if f.capacity ≠ 0 then f.capacity else filePage) = 2 ^ j := by
  rcases h.capacity with hc | ⟨j, h1, h2, hc⟩
  · exact ⟨12, by omega, by omega, by rw [hc]; rfl⟩
  · have hpos := Nat.two_pow_pos j
    exact ⟨j, h1, h2, by rw [if_pos (by omega), hc]⟩

theorem Sound.capacity_le (h : f.Sound) : f.capacity ≤ 2 ^ 63 := by
  rcases h.capacity with hc | ⟨j, -, h2, hc⟩
  · omega
  · rw [hc]
    exact Nat.pow_le_pow_right (by omega) (by omega)

theorem ensureCapacity_returns_iff (h : f.Sound) :
    (∃ fuel r, f.ensureCapacity fuel need mem = some r) ↔ need ≤ 2 ^ 63 := by
  obtain ⟨j, h1, h2, hstart⟩ := h.start
  have hcap := h.capacity_le
  simp only [ensureCapacity, h.type, ne_eq, not_true, if_false, hstart]
  by_cases hfits : need ≤ f.capacity
  · simp only [hfits, if_true]
    exact ⟨fun _ => by omega, fun _ => ⟨0, _, rfl⟩⟩
  · simp only [hfits, if_false]
    constructor
    · rintro ⟨fuel, r, hrun⟩
      by_contra hbig
      rw [doubleUntil_pow_none (by omega) h2] at hrun
      cases hrun
    · intro hneed
      obtain ⟨fuel, i, -, -, hloop⟩ := doubleUntil_pow (63 - j) (w := 64) (j := j) (by omega) hneed
      refine ⟨fuel, ?_⟩
      rw [hloop]
      cases mem with
      | none => exact ⟨_, rfl⟩
      | some m => exact ⟨_, rfl⟩

/-- The buffer that a call needing this capacity works on. -/
def usedBuffer (f : FileData) (need : Nat) (mem : Option Buffer) : Option Buffer :=
  if need ≤ f.capacity then f.data else mem.map f.recapacitated

/-- `ramfs_ensure_capacity` fails and changes nothing, or the file gets the buffer it needs. -/
theorem ensureCapacity_spec (h : f.Sound) {r : Except Errno Unit}
    (hrun : f.ensureCapacity fuel need mem = some (r, f')) :
    (∃ e, r = .error e ∧ f' = f ∧ f.usedBuffer need mem = none) ∨
      r = .ok () ∧ f'.Sound ∧ need ≤ f'.capacity ∧ f'.size = f.size ∧ f'.data = f.usedBuffer need mem := by
  obtain ⟨j, h1, h2, hstart⟩ := h.start
  simp only [ensureCapacity, h.type, ne_eq, not_true, if_false, hstart] at hrun
  unfold usedBuffer
  by_cases hfits : need ≤ f.capacity
  · simp only [hfits, if_true, Option.some.injEq, Prod.mk.injEq] at hrun ⊢
    obtain ⟨rfl, rfl⟩ := hrun
    exact .inr ⟨rfl, h, hfits, rfl, rfl⟩
  · simp only [hfits, if_false] at hrun ⊢
    cases hloop : doubleUntil 64 fuel (2 ^ j) need with
    | none =>
      rw [hloop] at hrun
      cases hrun
    | some c =>
      rw [hloop] at hrun
      have hle := doubleUntil_le hloop
      obtain ⟨i, h3, h4, rfl⟩ := doubleUntil_pow_eq h2 hloop
      cases mem with
      | none =>
        cases hrun
        exact .inl ⟨_, rfl, rfl, rfl⟩
      | some m =>
        cases hrun
        have hsize := h.size
        exact .inr ⟨rfl, ⟨rfl, .inr ⟨i, by omega, h4, rfl⟩, by simp only; omega, fun _ => rfl⟩, hle, rfl, rfl⟩

/-! ## Writing -/

variable {buf : List UInt8} {i offset : Nat}

/-- `ramfs_write` fails and changes nothing, or the bytes are in the file. -/
theorem write_spec (h : f.Sound) (hbuf : buf.length < 2 ^ 64) {r : Except Errno Nat}
    (hrun : f.write fuel buf offset mem = some (r, f')) :
    (∃ e, r = .error e ∧ f' = f ∧ (offset + buf.length < 2 ^ 64 → f.usedBuffer (offset + buf.length) mem = none)) ∨
      r = .ok buf.length ∧ offset + buf.length < 2 ^ 64 ∧ f'.Sound ∧ offset + buf.length ≤ f'.capacity ∧
        f'.size = max f.size (offset + buf.length) ∧
        f'.data = (f.usedBuffer (offset + buf.length) mem).map fun b => overwrite b offset buf := by
  simp only [write, h.type, ne_eq, not_true, if_false] at hrun
  by_cases hwrap : (offset + buf.length) % 2 ^ 64 < offset
  · rw [if_pos hwrap] at hrun
    cases hrun
    exact .inl ⟨_, rfl, rfl, by omega⟩
  have hsum : offset + buf.length < 2 ^ 64 := by omega
  rw [if_neg hwrap, Nat.mod_eq_of_lt hsum] at hrun
  cases hens : f.ensureCapacity fuel (offset + buf.length) mem with
  | none =>
    rw [hens] at hrun
    cases hrun
  | some q =>
    obtain ⟨r', f1⟩ := q
    rw [hens] at hrun
    rcases ensureCapacity_spec h hens with ⟨e, rfl, rfl, hnone⟩ | ⟨rfl, hs, hcap, hsize, hdata⟩
    · cases hrun
      exact .inl ⟨e, rfl, rfl, fun _ => hnone⟩
    · right
      have hroom : max f.size (offset + buf.length) ≤ f1.capacity := by
        have := hs.size
        omega
      simp only [Option.some.injEq, Prod.mk.injEq] at hrun
      obtain ⟨rfl, rfl⟩ := hrun
      rw [← hdata, ← hsize]
      split_ifs with hgrow
      · refine ⟨rfl, hsum, ⟨hs.type, hs.capacity, hcap, ?_⟩, hcap, ?_, rfl⟩
        · intro hne
          simpa using hs.data hne
        · exact (Nat.max_eq_right (Nat.le_of_lt hgrow)).symm
      · refine ⟨rfl, hsum, ⟨hs.type, hs.capacity, hs.size, ?_⟩, hcap, ?_, rfl⟩
        · intro hne
          simpa using hs.data hne
        · exact (Nat.max_eq_left (Nat.le_of_not_lt hgrow)).symm

theorem write_returns_iff (h : f.Sound) (hsum : offset + buf.length < 2 ^ 64)
    (mem : Option Buffer) : (∃ fuel r, f.write fuel buf offset mem = some r) ↔ offset + buf.length ≤ 2 ^ 63 := by
  simp only [write, h.type, ne_eq, not_true, if_false, Nat.mod_eq_of_lt hsum, Nat.not_lt.2 (Nat.le_add_right ..)]
  constructor
  · rintro ⟨fuel, r, hrun⟩
    cases hens : f.ensureCapacity fuel (offset + buf.length) mem with
    | none =>
      rw [hens] at hrun
      cases hrun
    | some q => exact (ensureCapacity_returns_iff h).1 ⟨fuel, q, hens⟩
  · intro hle
    obtain ⟨fuel, ⟨r, f1⟩, hens⟩ : ∃ fuel q, f.ensureCapacity fuel (offset + buf.length) mem = some q :=
      (ensureCapacity_returns_iff h).2 hle
    refine ⟨fuel, ?_⟩
    rw [hens]
    cases r with
    | error e => exact ⟨_, rfl⟩
    | ok u => exact ⟨_, rfl⟩

theorem llseek_lt {pos₀ pos : Nat} {whence : Whence} (h : f.llseek pos₀ offset whence = .ok pos) : pos < 2 ^ 63 := by
  cases whence <;> simp only [llseek] at h
  case other => cases h
  all_goals
    split_ifs at h with hlt
    cases h
    exact Nat.lt_of_not_le hlt

/-- `vfs_write` returns, and with an error or enough room in the file. -/
def Returns (f : FileData) (pos count : Nat) (user : Buffer) (mem : Option Buffer) : Prop :=
  ∃ fuel r, f.vfsWrite fuel pos count user mem = some r ∧
    ((∃ e, r.1 = .error e) ∨ pos + min count 128 ≤ r.2.1.capacity)

/-- From a position that `lseek` gives, `vfs_write` returns exactly when the end of the write is no larger
than the largest power of two in a word. -/
theorem vfsWrite_returns_iff (h : f.Sound) {pos₀ offset pos : Nat} {whence : Whence}
    (hseek : f.llseek pos₀ offset whence = .ok pos) (count : Nat) (user : Buffer) (mem : Option Buffer) :
    f.Returns pos count user mem ↔ pos + min count 128 ≤ 2 ^ 63 := by
  have hpos := llseek_lt hseek
  have hn : (if count > 128 then 128 else count) = min count 128 := by
    split_ifs <;> omega
  have hlen : (user.bytes (min count 128)).length = min count 128 := by simp [Buffer.bytes]
  have hsum : pos + (user.bytes (min count 128)).length < 2 ^ 64 := by omega
  have hiff := write_returns_iff h hsum mem
  rw [hlen] at hiff
  simp only [Returns, vfsWrite, hn]
  rw [← hiff]
  constructor
  · rintro ⟨fuel, r, hrun, -⟩
    obtain ⟨q, hq, -⟩ := Option.map_eq_some_iff.1 hrun
    exact ⟨fuel, q, hq⟩
  · rintro ⟨fuel, ⟨r, f'⟩, hrun⟩
    refine ⟨fuel, ?_⟩
    rw [hrun]
    rcases write_spec h (by omega) hrun with ⟨e, rfl, -⟩ | ⟨rfl, -, -, hcap, -⟩
    · exact ⟨_, rfl, .inl ⟨e, rfl⟩⟩
    · exact ⟨_, rfl, .inr (by rwa [hlen] at hcap)⟩

/-- One byte at position zero of a new file. -/
theorem vfsWrite_returns_at_start : new.Returns 0 1 (fun _ => 0) none :=
  (vfsWrite_returns_iff sound_new (show new.llseek 0 0 .set = .ok 0 from rfl) 1 (fun _ => 0) none).2 (by decide)

/-- Two bytes at the largest position that `lseek` gives: the capacity doubles to zero and stays there. -/
theorem not_returns_at_largest_position :
    new.llseek 0 (2 ^ 63 - 1) .set = .ok (2 ^ 63 - 1) ∧
      ∀ fuel, new.vfsWrite fuel (2 ^ 63 - 1) 2 (fun _ => 0) none = none := by
  constructor
  · rfl
  · intro fuel
    refine Option.eq_none_iff_forall_ne_some.2 fun r hrun => ?_
    obtain ⟨q, hq, -⟩ := Option.map_eq_some_iff.1 hrun
    have hq : new.write fuel (Buffer.bytes (fun _ => 0) 2) (2 ^ 63 - 1) none = some q := hq
    have hlen : (Buffer.bytes (fun _ => 0) 2).length = 2 := rfl
    have hle := (write_returns_iff sound_new (by rw [hlen]; decide) none).1 ⟨fuel, q, hq⟩
    exact absurd hle (by rw [hlen]; decide)

/-! ## Runs -/

/-- A call that has changed the file. -/
inductive Event
  | write (offset : Nat) (buf : List UInt8)
  | truncate (size : Nat)

/-- The size after some calls, the latest first. -/
def sizeAfter : List Event → Nat
  | [] => 0
  | .write offset buf :: h => max (sizeAfter h) (offset + buf.length)
  | .truncate size :: _ => size

/-- The byte that a call puts at a position. -/
def Event.byteAt : Event → Nat → Option UInt8
  | .write offset buf, i => if offset ≤ i then buf[i - offset]? else none
  | .truncate _, _ => none

/-- The last byte written at a position since the file had a size that does not exceed it, or zero. -/
def lastByte : List Event → Nat → UInt8
  | [], _ => 0
  | e :: h, i =>
    if sizeAfter (e :: h) ≤ i then 0
    else
      match e.byteAt i with
      | some x => x
      | none => if sizeAfter h ≤ i then 0 else lastByte h i

inductive Call
  | write (fuel offset : Nat) (buf : List UInt8) (small : buf.length < 2 ^ 64) (mem : Option Buffer)
  | truncate (size : Nat)
  | read (offset len : Nat)

/-- A file, and the calls that have changed it. -/
structure Tracked where
  file : FileData
  history : List Event

/-- A call; a write that does not return has no successor. -/
def step (s : Tracked) : Call → Option Tracked
  | .write fuel offset buf _ mem =>
    match s.file.write fuel buf offset mem with
    | none => none
    | some (.error _, f) => some { s with file := f }
    | some (.ok _, f) => some ⟨f, .write offset buf :: s.history⟩
  | .truncate size =>
    match s.file.truncate size with
    | (.error _, f) => some { s with file := f }
    | (.ok (), f) => some ⟨f, .truncate size :: s.history⟩
  | .read _ _ => some s

/-- The bytes that a call brings into the file without writing them are zero. -/
def Call.Clean (f : FileData) : Call → Prop
  | .write _ offset buf _ mem => offset + buf.length < 2 ^ 64 → ∀ b, f.usedBuffer (offset + buf.length) mem = some b →
      ∀ i, f.size ≤ i → i < offset → b i = 0
  | .truncate size => size ≤ f.capacity → ∀ b, f.data = some b → ∀ i, f.size ≤ i → i < size → b i = 0
  | .read _ _ => True

/-- A run whose calls are all clean. -/
def CleanRun : Tracked → List Call → Prop
  | _, [] => True
  | s, c :: cs => c.Clean s.file ∧ ∀ s', step s c = some s' → CleanRun s' cs

/-- The file is what its history says. -/
structure Matches (s : Tracked) : Prop where
  sound : s.file.Sound
  size : s.file.size = sizeAfter s.history
  bytes : ∀ b, s.file.data = some b → ∀ i, i < s.file.size → b i = lastByte s.history i

theorem matches_new : Matches ⟨new, []⟩ := ⟨sound_new, rfl, fun b h => by cases h⟩

variable {b : Buffer}

theorem usedBuffer_of_lt (h : f.Sound) (hb : f.usedBuffer need mem = some b) (hi : i < f.size) :
    ∃ old, f.data = some old ∧ b i = old i := by
  have hne : f.capacity ≠ 0 := by
    have := h.size
    omega
  obtain ⟨old, hold⟩ := Option.isSome_iff_exists.1 (h.data hne)
  refine ⟨old, hold, ?_⟩
  unfold usedBuffer at hb
  split_ifs at hb with hfits
  · rw [hold] at hb
    cases hb
    rfl
  · obtain ⟨m, -, rfl⟩ := Option.map_eq_some_iff.1 hb
    simp [recapacitated, hold, hi, Nat.ne_of_gt (Nat.zero_lt_of_lt hi)]

theorem overwrite_of_written {x : UInt8}
    (h : (Event.write offset buf).byteAt i = some x) : overwrite b offset buf i = x := by
  simp only [Event.byteAt] at h
  split_ifs at h with hle
  simp [overwrite, hle, h]

theorem overwrite_of_not_written
    (h : (Event.write offset buf).byteAt i = none) : overwrite b offset buf i = b i := by
  simp only [Event.byteAt] at h
  unfold overwrite
  split_ifs at h ⊢ with hle
  · rw [h, Option.getD_none]
  · rfl

/-- A position in the file that a write leaves alone is below it, or below the old size. -/
theorem not_written_iff :
    (Event.write offset buf).byteAt i = none ↔ i < offset ∨ offset + buf.length ≤ i := by
  simp only [Event.byteAt]
  split_ifs with hle
  · rw [List.getElem?_eq_none_iff]
    omega
  · simp
    omega

variable {s s' : Tracked}

theorem lastByte_of_not_written {e : Event} {h : List Event} (hi : i < sizeAfter (e :: h)) (he : e.byteAt i = none) :
    lastByte (e :: h) i = if sizeAfter h ≤ i then 0 else lastByte h i := by
  rw [lastByte, if_neg (Nat.not_le_of_lt hi), he]

theorem lastByte_of_written {e : Event} {h : List Event} {x : UInt8} (hi : i < sizeAfter (e :: h))
    (he : e.byteAt i = some x) : lastByte (e :: h) i = x := by
  rw [lastByte, if_neg (Nat.not_le_of_lt hi), he]

/-- A write that is done keeps the file in step with its history exactly when it is clean. -/
theorem Matches.write_iff (h : Matches s) {n : Nat} (hbuf : buf.length < 2 ^ 64)
    (hrun : s.file.write fuel buf offset mem = some (.ok n, f')) :
    Matches ⟨f', .write offset buf :: s.history⟩ ↔
      ∀ b, s.file.usedBuffer (offset + buf.length) mem = some b → ∀ i, s.file.size ≤ i → i < offset → b i = 0 := by
  obtain ⟨e, he, -⟩ | ⟨-, hsum, hs, hcap, hsize, hdata⟩ := write_spec h.sound hbuf hrun
  · cases he
  have hsize' : f'.size = sizeAfter (.write offset buf :: s.history) := by rw [hsize, h.size]; rfl
  constructor
  · intro hm b hb i hle hlt
    have hnot := not_written_iff.2 (.inl hlt : i < offset ∨ offset + buf.length ≤ i)
    have hi : i < f'.size := by omega
    have hbyte := hm.bytes (overwrite b offset buf) (by rw [hdata, hb]; rfl) i hi
    simp only at hbyte
    rwa [overwrite_of_not_written hnot, lastByte_of_not_written (hsize' ▸ hi) hnot, if_pos (h.size ▸ hle)] at hbyte
  · intro hclean
    refine ⟨hs, hsize', fun b' hb' i hi => ?_⟩
    simp only at hb' hi ⊢
    obtain ⟨b, hb, rfl⟩ := Option.map_eq_some_iff.1 (hdata.symm.trans hb')
    have hi' : i < sizeAfter (.write offset buf :: s.history) := hsize' ▸ hi
    cases hbyte : (Event.write offset buf).byteAt i with
    | some x => rw [overwrite_of_written hbyte, lastByte_of_written hi' hbyte]
    | none =>
      rw [overwrite_of_not_written hbyte, lastByte_of_not_written hi' hbyte, ← h.size]
      split_ifs with hle
      · -- The position is in the gap below the write.
        refine hclean b hb i hle ?_
        have := not_written_iff.1 hbyte
        omega
      · obtain ⟨old, hold, heq⟩ := usedBuffer_of_lt h.sound hb (Nat.lt_of_not_le hle)
        rw [heq, h.bytes old hold i (Nat.lt_of_not_le hle)]

theorem Matches.truncate_iff (h : Matches s) {size : Nat} (hsize : size ≤ s.file.capacity) :
    Matches ⟨{ s.file with size := size }, .truncate size :: s.history⟩ ↔
      ∀ b, s.file.data = some b → ∀ i, s.file.size ≤ i → i < size → b i = 0 := by
  have hs := h.sound
  constructor
  · intro hm b hb i hle hlt
    have hbyte := hm.bytes b hb i hlt
    simp only at hbyte
    rwa [lastByte_of_not_written hlt rfl, if_pos (h.size ▸ hle)] at hbyte
  · intro hclean
    refine ⟨⟨hs.type, hs.capacity, hsize, hs.data⟩, rfl, fun b hb i hi => ?_⟩
    simp only at hb hi ⊢
    rw [lastByte_of_not_written hi rfl, ← h.size]
    split_ifs with hle
    · exact hclean b hb i hle hi
    · exact h.bytes b hb i (Nat.lt_of_not_le hle)

/-- What a call can do: nothing, a write, or a change of the size. -/
theorem step_cases (h : s.file.Sound) {c : Call} (hstep : step s c = some s') :
    (s' = s ∧ c.Clean s.file) ∨
      (∃ fuel offset buf small mem f', c = .write fuel offset buf small mem ∧ offset + buf.length < 2 ^ 64 ∧
        s.file.write fuel buf offset mem = some (.ok buf.length, f') ∧ s' = ⟨f', .write offset buf :: s.history⟩) ∨
      ∃ size, c = .truncate size ∧ size ≤ s.file.capacity ∧
        s' = ⟨{ s.file with size := size }, .truncate size :: s.history⟩ := by
  cases c with
  | read offset len =>
    cases hstep
    exact .inl ⟨rfl, trivial⟩
  | truncate size =>
    simp only [step, truncate, if_neg (not_not.2 h.type)] at hstep
    by_cases hbig : size > s.file.capacity
    · rw [if_pos hbig] at hstep
      cases hstep
      exact .inl ⟨rfl, fun hle => absurd hbig (Nat.not_lt.2 hle)⟩
    · rw [if_neg hbig] at hstep
      cases hstep
      exact .inr (.inr ⟨size, rfl, Nat.le_of_not_lt hbig, rfl⟩)
  | write fuel offset buf small mem =>
    simp only [step] at hstep
    cases hwrite : s.file.write fuel buf offset mem with
    | none =>
      rw [hwrite] at hstep
      cases hstep
    | some q =>
      obtain ⟨r, f'⟩ := q
      rw [hwrite] at hstep
      rcases write_spec h small hwrite with ⟨e, rfl, rfl, hnone⟩ | ⟨rfl, hsum, -⟩
      · cases hstep
        refine .inl ⟨rfl, fun hsum b hb => ?_⟩
        rw [hnone hsum] at hb
        cases hb
      · cases hstep
        exact .inr (.inl ⟨fuel, offset, buf, small, mem, f', rfl, hsum, hwrite, rfl⟩)

/-- Whatever a call leaves in the file, its size is that of the history. -/
theorem step_size {c : Call} (h : s.file.Sound ∧ s.file.size = sizeAfter s.history) (hstep : step s c = some s') :
    s'.file.Sound ∧ s'.file.size = sizeAfter s'.history := by
  obtain ⟨hs, hsize⟩ := h
  rcases step_cases hs hstep with ⟨rfl, -⟩ | ⟨fuel, offset, buf, small, mem, f', -, -, hrun, rfl⟩ | ⟨size, -, hle, rfl⟩
  · exact ⟨hs, hsize⟩
  · obtain ⟨e, he, -⟩ | ⟨-, -, hs', -, hsize', -⟩ := write_spec hs small hrun
    · cases he
    · exact ⟨hs', by rw [hsize', hsize]; rfl⟩
  · exact ⟨⟨hs.type, hs.capacity, hle, hs.data⟩, rfl⟩

/-- A call keeps the file in step with its history exactly when it is clean. -/
theorem Matches.step_iff (h : Matches s) {c : Call} (hstep : step s c = some s') : Matches s' ↔ c.Clean s.file := by
  rcases step_cases h.sound hstep with
    ⟨rfl, hclean⟩ | ⟨fuel, offset, buf, small, mem, f', rfl, hsum, hrun, rfl⟩ | ⟨size, rfl, hle, rfl⟩
  · exact ⟨fun _ => hclean, fun _ => h⟩
  · rw [h.write_iff small hrun]
    exact ⟨fun hc _ => hc, fun hc => hc hsum⟩
  · rw [h.truncate_iff hle]
    exact ⟨fun hc _ => hc, fun hc => hc hle⟩

theorem matches_of_cleanRun : ∀ {calls : List Call} {s s' : Tracked}, Matches s → run step s calls = some s' →
    CleanRun s calls → Matches s'
  | [], _, _, h, hrun, _ => by
    cases hrun
    exact h
  | c :: cs, s, s', h, hrun, hclean => by
    obtain ⟨s₁, h1, h2⟩ := run_cons.1 hrun
    exact matches_of_cleanRun ((h.step_iff h1).2 hclean.1) h2 (hclean.2 s₁ h1)

/-- What a read must give. -/
def ReadsBack (s : Tracked) (len offset : Nat) : Prop :=
  s.file.read len offset = .ok (min len (sizeAfter s.history - offset),
    (List.range (min len (sizeAfter s.history - offset))).map fun i => lastByte s.history (offset + i))

theorem read_eq (hs : s.file.Sound) (len offset : Nat) :
    s.file.read len offset = .ok (min len (s.file.size - offset),
      (List.range (min len (s.file.size - offset))).map fun i => (s.file.data.getD fun _ => 0) (offset + i)) := by
  rw [read, if_neg (not_not.2 hs.type)]
  by_cases hend : offset ≥ s.file.size
  · have hzero : min len (s.file.size - offset) = 0 := by omega
    rw [if_pos hend, hzero]
    rfl
  · have hlen : (if len > s.file.size - offset then s.file.size - offset else len) =
        min len (s.file.size - offset) := by
      split_ifs <;> omega
    obtain ⟨b, hb⟩ := Option.isSome_iff_exists.1 (hs.data (by have := hs.size; omega))
    rw [if_neg hend]
    simp only [hlen, hb, Option.getD_some]

/-- Reads decide whether the file matches its history. -/
theorem matches_iff_reads (hs : s.file.Sound) (hsize : s.file.size = sizeAfter s.history) :
    Matches s ↔ ∀ len offset, ReadsBack s len offset := by
  unfold ReadsBack
  simp only [read_eq hs, hsize]
  constructor
  · intro h len offset
    congr 2
    refine List.map_congr_left fun i hi => ?_
    rw [List.mem_range] at hi
    have hlt : offset + i < s.file.size := by omega
    obtain ⟨b, hb⟩ := Option.isSome_iff_exists.1 (hs.data (by have := hs.size; omega))
    rw [hb, Option.getD_some]
    exact h.bytes b hb _ hlt
  · intro h
    refine ⟨hs, hsize, fun b hb i hi => ?_⟩
    have hone : min 1 (sizeAfter s.history - i) = 1 := by omega
    have hread := h 1 i
    rw [hone, hb] at hread
    simpa using hread

/-- In a run whose calls are clean every read gives back what was written; and the first call that is not
clean is followed by a read that does not. -/
theorem reads_of_cleanRun {calls : List Call} (hrun : run step ⟨new, []⟩ calls = some s)
    (hclean : CleanRun ⟨new, []⟩ calls) : (∀ len offset, ReadsBack s len offset) ∧
      ∀ c s', step s c = some s' → ((∀ len offset, ReadsBack s' len offset) ↔ c.Clean s.file) := by
  have h := matches_of_cleanRun matches_new hrun hclean
  constructor
  · exact (matches_iff_reads h.sound h.size).1 h
  · intro c s' hstep
    obtain ⟨hs, hsize⟩ := step_size ⟨h.sound, h.size⟩ hstep
    rw [← matches_iff_reads hs hsize]
    exact h.step_iff hstep

/-- Two bytes at the start of a new file. -/
theorem reads_of_write_at_start :
    ∃ s, run step ⟨new, []⟩ [.write 1 0 [97, 98] (by decide) (some fun _ => 7)] = some s ∧ ReadsBack s 2 0 := by
  obtain ⟨s, hrun⟩ : ∃ s, run step ⟨new, []⟩ [.write 1 0 [97, 98] (by decide) (some fun _ => 7)] = some s := ⟨_, rfl⟩
  have hclean : CleanRun ⟨new, []⟩ [.write 1 0 [97, 98] (by decide) (some fun _ => 7)] :=
    ⟨fun _ _ _ i _ hlt => absurd hlt (Nat.not_lt_zero i), fun _ _ => trivial⟩
  exact ⟨s, hrun, (reads_of_cleanRun hrun hclean).1 2 0⟩

/-- A byte at position one of a new file, in memory that held sevens: the skipped byte reads as seven. And
a file of one byte, truncated to nothing and then to one byte again: the old byte is back. -/
theorem reads_stale_bytes :
    (∃ s, run step ⟨new, []⟩ [.write 1 1 [97] (by decide) (some fun _ => 7)] = some s ∧
        s.file.read 1 0 = .ok (1, [7]) ∧ lastByte s.history 0 = 0) ∧
      ∃ s, run step ⟨new, []⟩ [.write 1 0 [97] (by decide) (some fun _ => 0), .truncate 0, .truncate 1] = some s ∧
        s.file.read 1 0 = .ok (1, [97]) ∧ lastByte s.history 0 = 0 := by
  constructor
  · exact ⟨_, rfl, rfl, rfl⟩
  · exact ⟨_, rfl, rfl, rfl⟩

end FileData

end MiniOs.Fs
