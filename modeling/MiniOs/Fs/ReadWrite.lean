/-
`ksys_writev` of fs/read_write.c, over the write operation of the file: `ramfs_file_write` of fs/ramfs.c
and `pipe_write` of fs/pipe.c. A call that does not return is `none`; user copies cannot fail.
-/
import MiniOs.Fs.Pipe
import MiniOs.Fs.RamfsFile

namespace MiniOs.Fs

open Library

variable {σ : Type}

/-- `UIO_MAXIOV`. -/
def uioMaxiov : Nat := 1024

/-- An element of the user's vector. `base` is what stands at `iov_base`, `none` for NULL. -/
structure Iovec where
  base : Option Buffer
  len : Nat

/-- `vfs_write` on a file with this operation. -/
def vfsWrite (write : σ → List UInt8 → Option (Except Errno Nat × σ)) (s : σ) (user : Buffer) (count : Nat) :
    Option (Except Errno Nat × σ) :=
  let n := if count > 128 then 128 else count
  write s (user.bytes n)

/-- `total ? total : err`. -/
def totalOr (total : Nat) (e : Errno) : Except Errno Nat := if total ≠ 0 then .ok total else .error e

/-- The loop of `ksys_writev`. -/
def writevLoop (write : σ → List UInt8 → Option (Except Errno Nat × σ)) :
    List Iovec → Nat → σ → Option (Except Errno Nat × σ)
  | [], total, s => some (.ok total, s)
  | vec :: iov, total, s =>
    if vec.len = 0 then writevLoop write iov total s
    else
      match vec.base with
      | none => some (totalOr total .fault, s)
      | some user =>
        match vfsWrite write s user vec.len with
        | none => none
        | some (.error e, s) => some (totalOr total e, s)
        | some (.ok n, s) => if n < vec.len then some (.ok (total + n), s) else writevLoop write iov (total + n) s

/-- `ksys_writev` on an open file. -/
def ksysWritev (write : σ → List UInt8 → Option (Except Errno Nat × σ)) (iov : List Iovec) (s : σ) :
    Option (Except Errno Nat × σ) :=
  if iov = [] then some (.ok 0, s)
  else if uioMaxiov < iov.length then some (.error .inval, s)
  else writevLoop write iov 0 s

/-- An open regular file; `mems` is what `kmalloc` returns to the coming writes. -/
structure OpenFile where
  file : FileData
  pos : Nat
  mems : List (Option Buffer)

/-- `ramfs_file_write`. -/
def OpenFile.write (fuel : Nat) (o : OpenFile) (buf : List UInt8) : Option (Except Errno Nat × OpenFile) :=
  (o.file.write fuel buf o.pos o.mems.head?.join).map fun r =>
    match r with
    | (.error e, f) => (.error e, { o with file := f, mems := o.mems.tail })
    | (.ok n, f) => (.ok n, ⟨f, (o.pos + n) % 2 ^ 64, o.mems.tail⟩)

/-- What happens before a section of `pipe_write`: what other tasks do to the pipe, whether a signal is pending
when the section runs, and whether one is after the sleep that follows it. -/
structure PipeTurn where
  others : Pipe → Pipe
  signal : Bool
  woken : Bool

/-- A pipe with a task that writes to it; `sections` are the pipe before and after each section of the task. -/
structure PipeWriter where
  pipe : Pipe
  turns : List PipeTurn
  sections : List (Pipe × Pipe)

/-- `pipe_write`, with its retries. -/
def pipeWrite (nonblock : Bool) (bytes : List UInt8) : List PipeTurn → Pipe → List (Pipe × Pipe) →
    Option (Except Errno Nat × PipeWriter)
  | [], _, _ => none
  | turn :: turns, p, sections =>
    let p := turn.others p
    let (res, q) := p.writeSection bytes nonblock turn.signal
    let w : PipeWriter := ⟨q, turns, sections ++ [(p, q)]⟩
    match res with
    | .took n => some (.ok n, w)
    | .error e => some (.error e, w)
    | .wait => if turn.woken then some (.error .restartsys, w) else pipeWrite nonblock bytes turns q w.sections

def PipeWriter.write (nonblock : Bool) (w : PipeWriter) (bytes : List UInt8) : Option (Except Errno Nat × PipeWriter) :=
  pipeWrite nonblock bytes w.turns w.pipe w.sections

end MiniOs.Fs
