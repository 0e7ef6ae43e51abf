/-
`writev` delivers a prefix of what it gathers. The loop is followed for any write operation that keeps a
record of what it delivered; regular files and pipes have such operations.
-/
import MiniOs.Fs.ReadWrite
import MiniOs.Proofs.Fs.Pipe
import MiniOs.Proofs.Fs.RamfsFile

namespace MiniOs.Fs

open Library

/-- The bytes of the vector, one buffer after the other. -/
def gathered (iov : List Iovec) : List UInt8 :=
  iov.flatMap fun vec => (vec.base.map fun user => user.bytes vec.len).getD []

/-! ## The loop -/

section

variable {σ : Type} {write : σ → List UInt8 → Option (Except Errno Nat × σ)} {I : σ → List UInt8 → Prop}

/-- A write that delivers some of the bytes, or fails and delivers none; `I` is the record. -/
def Delivers (write : σ → List UInt8 → Option (Except Errno Nat × σ)) (I : σ → List UInt8 → Prop) : Prop :=
  ∀ {s t buf out r}, I s out → buf ≠ [] → buf.length ≤ 128 → write s buf = some (r, t) →
    (∃ e, r = .error e ∧ I t out) ∨ ∃ n, r = .ok n ∧ n ≤ buf.length ∧ I t (out ++ buf.take n)

theorem Delivers.vfsWrite (hw : Delivers write I) {s t : σ} {out : List UInt8} {user : Buffer} {len : Nat}
    {r : Except Errno Nat} (h : I s out) (hlen : len ≠ 0) (hrun : vfsWrite write s user len = some (r, t)) :
    (∃ e, r = .error e ∧ I t out) ∨ ∃ n, r = .ok n ∧ n ≤ len ∧ I t (out ++ (user.bytes len).take n) := by
  unfold Fs.vfsWrite at hrun
  dsimp only at hrun
  generalize hm : (if len > 128 then 128 else len) = m at hrun
  have hle : m ≤ len ∧ m ≤ 128 ∧ m ≠ 0 := by split_ifs at hm <;> omega
  have hbytes : (user.bytes m).length = m := by simp [Buffer.bytes]
  have hne : user.bytes m ≠ [] := fun he => hle.2.2 (by rw [← hbytes, he]; rfl)
  obtain herr | ⟨n, rfl, hn, ht⟩ := hw h hne (hbytes.trans_le hle.2.1) hrun
  · exact .inl herr
  · rw [hbytes] at hn
    refine .inr ⟨n, rfl, hn.trans hle.1, ?_⟩
    have htake : (user.bytes len).take n = (user.bytes m).take n := by
      simp only [Buffer.bytes, ← List.map_take, List.take_range]
      congr 2
      omega
    rwa [htake]

/-- A return after `total` bytes: a prefix of `g` was delivered and counted, or it fails and nothing was delivered at
all. -/
def Returns (I : σ → List UInt8 → Prop) (g out : List UInt8) (total : Nat) (r : Except Errno Nat) (t : σ) : Prop :=
  (∃ n, r = .ok (total + n) ∧ n ≤ g.length ∧ I t (out ++ g.take n)) ∨ ∃ e, r = .error e ∧ total = 0 ∧ I t out

theorem returns_totalOr {t : σ} {out : List UInt8} (h : I t out) (g : List UInt8) (total : Nat) (e : Errno) :
    Returns I g out total (totalOr total e) t := by
  unfold totalOr
  split_ifs with hz
  · exact .inl ⟨0, rfl, Nat.zero_le _, by simpa using h⟩
  · exact .inr ⟨e, rfl, not_not.1 hz, h⟩

theorem Delivers.writevLoop (hw : Delivers write I) {r : Except Errno Nat} {t : σ} : ∀ {iov : List Iovec} {total : Nat}
    {s : σ} {out : List UInt8}, I s out → writevLoop write iov total s = some (r, t) →
      Returns I (gathered iov) out total r t
  | [], _, _, _, h, hrun => by
    cases hrun
    exact .inl ⟨0, rfl, Nat.le_refl _, by simpa using h⟩
  | ⟨base, len⟩ :: iov, total, s, out, h, hrun => by
    unfold Fs.writevLoop at hrun
    dsimp only at hrun
    split_ifs at hrun with hlen
    · subst hlen
      have hrest := hw.writevLoop h hrun
      cases base <;> exact hrest
    cases base with
    | none =>
      cases hrun
      exact returns_totalOr h ..
    | some user =>
      have hcons : gathered (⟨some user, len⟩ :: iov) = user.bytes len ++ gathered iov := rfl
      have hbytes : (user.bytes len).length = len := by simp [Buffer.bytes]
      dsimp only at hrun
      cases hwr : Fs.vfsWrite write s user len with
      | none =>
        rw [hwr] at hrun
        cases hrun
      | some q =>
        obtain ⟨res, s1⟩ := q
        rw [hwr] at hrun
        obtain ⟨e, rfl, h1⟩ | ⟨n, rfl, hn, h1⟩ := hw.vfsWrite h hlen hwr
        · cases hrun
          exact returns_totalOr h1 ..
        · dsimp only at hrun
          split_ifs at hrun with hshort
          · cases hrun
            refine .inl ⟨n, rfl, ?_, ?_⟩
            · rw [hcons, List.length_append]
              omega
            · rwa [hcons, List.take_append_of_le_length (by omega)]
          · -- all of the element was taken, so the count is not zero any more
            obtain rfl : n = len := by omega
            rw [List.take_of_length_le hbytes.le] at h1
            obtain ⟨m, rfl, hm, ht⟩ | ⟨e, -, hz, -⟩ := hw.writevLoop h1 hrun
            · refine .inl ⟨n + m, by rw [Nat.add_assoc], ?_, ?_⟩
              · rw [hcons, List.length_append, hbytes]
                omega
              · rwa [hcons, List.take_append, hbytes, Nat.add_sub_cancel_left, List.take_of_length_le (by omega),
                  ← List.append_assoc]
            · omega

end

/-! ## Regular files -/

/-- The byte at a position. -/
def FileData.byteAt (f : FileData) (i : Nat) : Option UInt8 := f.data.map fun b => b i

theorem FileData.byteAt_write {f f' : FileData} {fuel offset n : Nat} {buf : List UInt8} {mem : Option Buffer}
    (h : f.Sound)
    (hbuf : buf.length < 2 ^ 64) (hne : buf ≠ []) (hrun : f.write fuel buf offset mem = some (.ok n, f')) :
    (∀ i x, buf[i]? = some x → f'.byteAt (offset + i) = some x) ∧
      ∀ i, i < f.size → i < offset ∨ offset + buf.length ≤ i → f'.byteAt i = f.byteAt i := by
  obtain ⟨e, he, -⟩ | ⟨-, -, hs, hcap, -, hdata⟩ := write_spec h hbuf hrun
  · cases he
  have hpos := List.length_pos_iff.2 hne
  obtain ⟨b', hb'⟩ := Option.isSome_iff_exists.1 (hs.data (by omega))
  rw [hb'] at hdata
  obtain ⟨b, hb, rfl⟩ := Option.map_eq_some_iff.1 hdata.symm
  constructor
  · intro i x hx
    have hwritten : (Event.write offset buf).byteAt (offset + i) = some x := by simp [Event.byteAt, hx]
    rw [FileData.byteAt, hb', Option.map_some, overwrite_of_written hwritten]
  · intro i hi hout
    obtain ⟨old, hold, heq⟩ := usedBuffer_of_lt h hb hi
    rw [FileData.byteAt, hb', Option.map_some, overwrite_of_not_written (not_written_iff.2 hout), heq,
      FileData.byteAt, hold]
    rfl

/-- `out` was written to the file `f₀` from position `pos₀` on, and nothing else has changed. -/
structure Wrote (f₀ : FileData) (pos₀ : Nat) (o : OpenFile) (out : List UInt8) : Prop where
  sound : o.file.Sound
  pos : o.pos = pos₀ + out.length
  size : o.file.size = if out = [] then f₀.size else max f₀.size o.pos
  bytes : ∀ i x, out[i]? = some x → o.file.byteAt (pos₀ + i) = some x
  others : ∀ i, i < f₀.size → i < pos₀ ∨ o.pos ≤ i → o.file.byteAt i = f₀.byteAt i

theorem Wrote.delivers (f₀ : FileData) (pos₀ fuel : Nat) : Delivers (OpenFile.write fuel) (Wrote f₀ pos₀) := by
  intro o t buf out r h hne hbuf hrun
  have hlt : buf.length < 2 ^ 64 := by omega
  obtain ⟨⟨res, f'⟩, hwr, heq⟩ := Option.map_eq_some_iff.1 hrun
  obtain ⟨e, rfl, rfl, -⟩ | ⟨rfl, hsum, hs, -, hsize, -⟩ := FileData.write_spec h.sound hlt hwr
  · cases heq
    exact .inl ⟨e, rfl, h.sound, h.pos, h.size, h.bytes, h.others⟩
  · obtain ⟨hnew, hold⟩ := FileData.byteAt_write h.sound hlt hne hwr
    cases heq
    have hpos : (o.pos + buf.length) % 2 ^ 64 = o.pos + buf.length := Nat.mod_eq_of_lt hsum
    have hstart := h.pos
    -- what was written before lies below the size
    have hbelow : ∀ i x, out[i]? = some x → pos₀ + i < o.pos ∧ pos₀ + i < o.file.size := by
      intro i x hx
      obtain ⟨hi, -⟩ := List.getElem?_eq_some_iff.1 hx
      have hsz := h.size
      rw [if_neg (by rintro rfl; simp at hi)] at hsz
      omega
    refine .inr ⟨buf.length, rfl, Nat.le_refl _, ?_⟩
    rw [List.take_length]
    have hsz := h.size
    refine ⟨hs, ?_, ?_, ?_, ?_⟩ <;> dsimp only
    · rw [hpos, List.length_append]
      omega
    · rw [if_neg (by simp [hne]), hsize, hpos]
      split_ifs at hsz <;> omega
    · intro i x hx
      rw [List.getElem?_append] at hx
      split_ifs at hx with hi
      · obtain ⟨h1, h2⟩ := hbelow i x hx
        rw [hold _ h2 (.inl h1), h.bytes i x hx]
      · have hi' : pos₀ + i = o.pos + (i - out.length) := by omega
        rw [hi', hnew _ x hx]
    · intro i hi hout
      rw [hpos] at hout
      have hlow : i < o.file.size := by split_ifs at hsz <;> omega
      rw [hold i hlow (by omega), h.others i hi (by omega)]

/-! ## Pipes -/

/-- Since `w₀` the sections of the task have put `out` into the ring, each behind what was there. -/
structure Added (w₀ w : PipeWriter) (out : List UInt8) : Prop where
  consistent : w.pipe.Consistent
  turns : ∀ turn ∈ w.turns, ∀ p : Pipe, p.Consistent → (turn.others p).Consistent
  sections : ∃ l, w.sections = w₀.sections ++ l ∧ (∀ x ∈ l, x.1.contents <+: x.2.contents) ∧
    l.flatMap (fun x => x.2.contents.drop x.1.contents.length) = out

theorem took_le {p q : Pipe} {bytes : List UInt8} {nonblock signal : Bool} {n : Nat}
    (h : p.writeSection bytes nonblock signal = (.took n, q)) : n ≤ bytes.length := by
  unfold Pipe.writeSection at h
  split_ifs at h <;> cases h
  · omega
  · exact Nat.le_refl _

theorem Added.turn {w₀ : PipeWriter} {turn : PipeTurn} {turns : List PipeTurn} {p q : Pipe}
    {sections : List (Pipe × Pipe)}
    {buf out : List UInt8} {nonblock : Bool} {res : WriteRes} (h : Added w₀ ⟨p, turn :: turns, sections⟩ out)
    (hq : (turn.others p).writeSection buf nonblock turn.signal = (res, q)) :
    ∃ n, Added w₀ ⟨q, turns, sections ++ [(turn.others p, q)]⟩ (out ++ buf.take n) ∧ (∀ m, res = .took m → m = n) ∧
      ((∀ m, res ≠ .took m) → n = 0) := by
  obtain ⟨hp, hturns, l, rfl, hl, rfl⟩ := h
  obtain ⟨n, hc, hcont, htook, hnone, -⟩ :=
    Pipe.writeSection_spec (hturns turn (List.mem_cons_self ..) p hp) buf nonblock turn.signal
  rw [hq] at hc hcont htook hnone
  refine ⟨n, ⟨hc, fun x hx => hturns x (List.mem_cons_of_mem _ hx), l ++ [(turn.others p, q)], by simp, ?_, ?_⟩,
    htook, hnone⟩
  · intro x hx
    rcases List.mem_append.1 hx with hx | hx
    · exact hl x hx
    · rw [List.mem_singleton.1 hx, hcont]
      exact List.prefix_append ..
  · simp [hcont]

theorem Added.delivers (w₀ : PipeWriter) (nonblock : Bool) : Delivers (PipeWriter.write nonblock) (Added w₀) := by
  rintro ⟨p, turns, sections⟩ t buf out r h - - hrun
  change pipeWrite nonblock buf turns p sections = some (r, t) at hrun
  induction turns generalizing p sections with
  | nil => cases hrun
  | cons turn turns ih =>
    unfold pipeWrite at hrun
    dsimp only at hrun
    cases hq : (turn.others p).writeSection buf nonblock turn.signal with
    | mk res q =>
      obtain ⟨n, h1, htook, hnone⟩ := h.turn hq
      rw [hq] at hrun
      cases res with
      | took m =>
        cases hrun
        exact .inr ⟨m, rfl, took_le hq, htook m rfl ▸ h1⟩
      | error e =>
        cases hrun
        obtain rfl := hnone fun m he => by cases he
        exact .inl ⟨e, rfl, by simpa using h1⟩
      | wait =>
        obtain rfl := hnone fun m he => by cases he
        rw [List.take_zero, List.append_nil] at h1
        dsimp only at hrun
        split_ifs at hrun
        · cases hrun
          exact .inl ⟨_, rfl, h1⟩
        · exact ih q _ h1 hrun

/-- `writev` writes a prefix of the gathered data, to a regular file and to a pipe: when it returns a count, so many
bytes of the gathered data were delivered, in order and once, and the position has advanced by it; when it fails, no
byte was delivered. -/
theorem ksysWritev_firstBytes {iov : List Iovec} (hne : iov ≠ []) (hmax : iov.length ≤ uioMaxiov)
    {r : Except Errno Nat} :
    (∀ {fuel : Nat} {o t : OpenFile}, o.file.Sound → ksysWritev (OpenFile.write fuel) iov o = some (r, t) →
      (∃ n, r = .ok n ∧ n ≤ (gathered iov).length ∧ Wrote o.file o.pos t ((gathered iov).take n)) ∨
        ∃ e, r = .error e ∧ Wrote o.file o.pos t []) ∧
    ∀ {nonblock : Bool} {w t : PipeWriter}, w.pipe.Consistent →
      (∀ turn ∈ w.turns, ∀ p : Pipe, p.Consistent → (turn.others p).Consistent) →
      ksysWritev (PipeWriter.write nonblock) iov w = some (r, t) →
        (∃ n, r = .ok n ∧ n ≤ (gathered iov).length ∧ Added w t ((gathered iov).take n)) ∨ ∃ e, r = .error e ∧
          Added w t [] := by
  have hloop : ∀ {σ : Type} {write : σ → List UInt8 → Option (Except Errno Nat × σ)}
      {I : σ → List UInt8 → Prop} {s t : σ},
      Delivers write I → I s [] → ksysWritev write iov s = some (r, t) →
      (∃ n, r = .ok n ∧ n ≤ (gathered iov).length ∧ I t ((gathered iov).take n)) ∨ ∃ e, r = .error e ∧ I t [] := by
    intro σ write I s t hw h hrun
    rw [ksysWritev, if_neg hne, if_neg (Nat.not_lt.2 hmax)] at hrun
    obtain ⟨n, rfl, hn, ht⟩ | ⟨e, rfl, -, ht⟩ := hw.writevLoop h hrun
    · exact .inl ⟨n, by rw [Nat.zero_add], hn, ht⟩
    · exact .inr ⟨e, rfl, ht⟩
  constructor
  · intro fuel o t hs hrun
    exact hloop (Wrote.delivers o.file o.pos fuel) ⟨hs, rfl, by simp, by simp, fun _ _ _ => rfl⟩ hrun
  · intro nonblock w t hw hturns hrun
    exact hloop (Added.delivers w nonblock) ⟨hw, hturns, [], by simp, by simp, rfl⟩ hrun

/-- Two bytes, nothing, and one byte more. -/
def threeBytes : List Iovec := [⟨some fun i => 65 + .ofNat i, 2⟩, ⟨none, 0⟩, ⟨some fun _ => 90, 1⟩]

def newFile : OpenFile := ⟨.new, 0, [some fun _ => 0]⟩

def newPipe : PipeWriter := ⟨.create fun _ => 0, [⟨id, false, false⟩, ⟨id, true, false⟩], []⟩

/-- All of them arrive in a new file, and in a new pipe. -/
theorem ksysWritev_firstBytes_three :
    (∃ t, ksysWritev (OpenFile.write 1) threeBytes newFile = some (.ok 3, t) ∧ Wrote .new 0 t [65, 66, 90]) ∧
      ∃ t, ksysWritev (PipeWriter.write false) threeBytes newPipe = some (.ok 3, t) ∧ Added newPipe t [65, 66, 90] := by
  have hp := @ksysWritev_firstBytes threeBytes nofun (by decide) (.ok 3)
  constructor
  · obtain ⟨t, ht⟩ : ∃ t, ksysWritev (OpenFile.write 1) threeBytes newFile = some (.ok 3, t) := ⟨_, rfl⟩
    obtain ⟨n, hn, -, h⟩ | ⟨e, he, -⟩ := hp.1 FileData.sound_new ht
    · cases hn
      exact ⟨t, ht, h⟩
    · cases he
  · obtain ⟨t, ht⟩ : ∃ t, ksysWritev (PipeWriter.write false) threeBytes newPipe = some (.ok 3, t) := ⟨_, rfl⟩
    obtain ⟨n, hn, -, h⟩ | ⟨e, he, -⟩ := hp.2 ⟨by decide, by decide, by decide⟩ (by simp [newPipe]) ht
    · cases hn
      exact ⟨t, ht, h⟩
    · cases he

end MiniOs.Fs
