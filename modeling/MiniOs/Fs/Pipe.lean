/-
Anonymous pipes of fs/pipe.c: the ring buffer and the interrupt-disabled sections of `pipe_read`,
`pipe_write` and `pipe_release`. The bytes of a caller's buffer are a list, so its `count` is the
length. A section that finds nothing to do and has to sleep says so; the caller retries it later.
-/
import MiniOs.Fs.Errno
import Mathlib.Logic.Function.Basic

namespace MiniOs.Fs

/-- `PIPE_SIZE`. -/
def pipeSize : Nat := 1024

structure Pipe where
  head : Nat
  tail : Nat
  len : Nat
  readers : Nat
  writers : Nat
  buf : Nat → UInt8

/-- How a section of `pipe_read` ends: it returns the bytes read, fails, or waits and retries. -/
inductive ReadRes
  | got (bytes : List UInt8)
  | error (e : Errno)
  | wait
  deriving DecidableEq

/-- How a section of `pipe_write` ends: it returns how many bytes it took, fails, or waits and retries. -/
inductive WriteRes
  | took (n : Nat)
  | error (e : Errno)
  | wait
  deriving DecidableEq

namespace Pipe

/-- The pipe of `ksys_pipe2`; the buffer holds what kmalloc left in it. -/
def create (buf : Nat → UInt8) : Pipe := ⟨0, 0, 0, 1, 1, buf⟩

/-- The loop that copies bytes out. -/
def readLoop : Nat → Pipe → List UInt8 × Pipe
  | 0, p => ([], p)
  | n + 1, p =>
    let (bytes, q) := readLoop n { p with tail := if p.tail + 1 = pipeSize then 0 else p.tail + 1 }
    (p.buf p.tail :: bytes, q)

/-- The loop that copies bytes in. -/
def writeLoop : List UInt8 → Pipe → Pipe
  | [], p => p
  | b :: bs, p =>
    writeLoop bs
      { p with
        buf := Function.update p.buf p.head b
        head := if p.head + 1 = pipeSize then 0 else p.head + 1 }

/-- The section of `pipe_read`, for a file with or without `O_NONBLOCK` and a caller with or without a
pending signal. -/
def readSection (p : Pipe) (count : Nat) (nonblock signal : Bool) : ReadRes × Pipe :=
  if p.len = 0 then
    if p.writers = 0 then (.got [], p)
    else if nonblock then (.error .again, p)
    else if signal then (.error .restartsys, p)
    else (.wait, p)
  else
    let n := if count > p.len then p.len else count
    let (bytes, q) := readLoop n p
    (.got bytes, { q with len := q.len - n })

/-- The section of `pipe_write`. -/
def writeSection (p : Pipe) (bytes : List UInt8) (nonblock signal : Bool) : WriteRes × Pipe :=
  if p.readers = 0 then (.error .pipe, p)
  else if p.len = pipeSize then
    if nonblock then (.error .again, p)
    else if signal then (.error .restartsys, p)
    else (.wait, p)
  else
    let n := if bytes.length > pipeSize - p.len then pipeSize - p.len else bytes.length
    let q := writeLoop (bytes.take n) p
    (.took n, { q with len := q.len + n })

/-- The counters of `pipe_release`, for the read end (`O_RDONLY`) or the write end. -/
def release (p : Pipe) (readEnd : Bool) : Pipe :=
  if readEnd then { p with readers := p.readers - 1 } else { p with writers := p.writers - 1 }

end Pipe

/-- A pipe with what its users have seen: all bytes reads returned and all bytes writes took. -/
structure PipeSys where
  pipe : Pipe
  freed : Bool
  got : List UInt8
  taken : List UInt8

namespace PipeSys

inductive Call
  | read (count : Nat) (nonblock signal : Bool)
  | write (bytes : List UInt8) (nonblock signal : Bool)
  | release (readEnd : Bool)

/-- A pipe with any number of open ends. -/
def init (readers writers : Nat) (buf : Nat → UInt8) : PipeSys :=
  ⟨{ Pipe.create buf with readers := readers, writers := writers }, false, [], []⟩

/-- One section; none once the pipe has been freed. -/
def step (s : PipeSys) : Call → Option PipeSys
  | .read count nonblock signal =>
    if s.freed then none
    else
      match s.pipe.readSection count nonblock signal with
      | (.got bytes, p) => some { s with pipe := p, got := s.got ++ bytes }
      | (_, p) => some { s with pipe := p }
  | .write bytes nonblock signal =>
    if s.freed then none
    else
      match s.pipe.writeSection bytes nonblock signal with
      | (.took n, p) => some { s with pipe := p, taken := s.taken ++ bytes.take n }
      | (_, p) => some { s with pipe := p }
  | .release readEnd =>
    if s.freed then none
    else
      let p := s.pipe.release readEnd
      some { s with pipe := p, freed := p.readers = 0 && p.writers = 0 }

end PipeSys

end MiniOs.Fs
