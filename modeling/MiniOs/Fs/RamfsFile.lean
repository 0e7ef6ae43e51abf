/-
The contents of a regular file of ramfs: `ramfs_ensure_capacity`, `ramfs_read`, `ramfs_write` and
`ramfs_truncate` of fs/ramfs.c, and `vfs_write` and `generic_file_llseek` of fs/read_write.c above them.

A buffer comes from `kmalloc` with whatever the memory held before. A loop that has not ended after the
given number of rounds is `none`.
-/
import MiniOs.Fs.Ramfs
import MiniOs.Library.Buffer
import MiniOs.Library.Doubling

namespace MiniOs.Fs

open Library

/-- `PAGE_SIZE`, the first capacity of a file. -/
def filePage : Nat := 4096

/-- What reading and writing use of a `struct ramfs_inode`. -/
structure FileData where
  type : FileType
  size : Nat
  data : Option Buffer
  capacity : Nat

namespace FileData

/-- A file as `ramfs_inode_init` leaves it. -/
def new : FileData := ⟨.reg, 0, none, 0⟩

/-- The new buffer of `ramfs_ensure_capacity`: the first `size` bytes are copied. -/
def recapacitated (f : FileData) (mem : Buffer) : Buffer :=
  match f.data with
  | none => mem
  | some old => if f.size = 0 then mem else fun i => if i < f.size then old i else mem i

/-- `ramfs_ensure_capacity`; `mem` is what `ramfs_kmalloc` returns. -/
def ensureCapacity (fuel : Nat) (f : FileData) (need : Nat) (mem : Option Buffer) :
    Option (Except Errno Unit × FileData) :=
  if f.type ≠ .reg then some (.error .isdir, f)
  else if need ≤ f.capacity then some (.ok (), f)
  else
    match doubleUntil 64 fuel (if f.capacity ≠ 0 then f.capacity else filePage) need with
    | none => none
    | some newCap =>
      match mem with
      | none => some (.error .nomem, f)
      | some mem => some (.ok (), { f with data := some (f.recapacitated mem), capacity := newCap })

/-- `ramfs_read`: the value returned, and the bytes stored in the caller's buffer. -/
def read (f : FileData) (len offset : Nat) : Except Errno (Nat × List UInt8) :=
  if f.type ≠ .reg then .error .isdir
  else if offset ≥ f.size then .ok (0, [])
  else
    let avail := f.size - offset
    let len := if len > avail then avail else len
    .ok (len, match f.data with
      | none => []
      | some b => (List.range len).map fun i => b (offset + i))

/-- `ramfs_memcpy(data + offset, buf, len)`. -/
def overwrite (b : Buffer) (offset : Nat) (buf : List UInt8) : Buffer :=
  fun i => if offset ≤ i then (buf[i - offset]?).getD (b i) else b i

/-- `ramfs_write`. -/
def write (fuel : Nat) (f : FileData) (buf : List UInt8) (offset : Nat) (mem : Option Buffer) :
    Option (Except Errno Nat × FileData) :=
  if f.type ≠ .reg then some (.error .isdir, f)
  else
    let fin := (offset + buf.length) % 2 ^ 64
    if fin < offset then some (.error .inval, f)
    else
      match f.ensureCapacity fuel fin mem with
      | none => none
      | some (.error e, f) => some (.error e, f)
      | some (.ok (), f) =>
        let f := { f with data := f.data.map fun b => overwrite b offset buf }
        some (.ok buf.length, if fin > f.size then { f with size := fin } else f)

/-- `ramfs_truncate`. -/
def truncate (f : FileData) (size : Nat) : Except Errno Unit × FileData :=
  if f.type ≠ .reg then (.error .isdir, f)
  else if size > f.capacity then (.error .inval, f)
  else (.ok (), { f with size := size })

/-! ## fs/read_write.c -/

/-- `vfs_write` on such a file, through `ramfs_file_write`; `user` is what the user's buffer holds, which
`copy_from_user` cannot fail to copy. The file position comes back with the result. -/
def vfsWrite (fuel : Nat) (f : FileData) (pos count : Nat) (user : Buffer) (mem : Option Buffer) :
    Option (Except Errno Nat × FileData × Nat) :=
  let n := if count > 128 then 128 else count
  (f.write fuel (user.bytes n) pos mem).map fun r =>
    match r with
    | (.error e, f) => (.error e, f, pos)
    | (.ok n, f) => (.ok n, f, (pos + n) % 2 ^ 64)

inductive Whence
  | set | cur | fin | other
  deriving DecidableEq

/-- `generic_file_llseek`; positions and offsets are words in two's complement. -/
def llseek (f : FileData) (pos offset : Nat) (whence : Whence) : Except Errno Nat :=
  let store (pos : Nat) : Except Errno Nat := if pos ≥ 2 ^ 63 then .error .inval else .ok pos
  match whence with
  | .set => store (offset % 2 ^ 64)
  | .cur => store ((pos + offset) % 2 ^ 64)
  | .fin => store ((f.size + offset) % 2 ^ 64)
  | .other => .error .inval

end FileData

end MiniOs.Fs
