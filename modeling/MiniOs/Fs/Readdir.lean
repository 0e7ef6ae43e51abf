/-
`ramfs_dir_readdir` of fs/ramfs.c, which `ksys_getdents64` calls, and scans of a directory: the calls on
one open file among everything else that happens to ramfs.
-/
import MiniOs.Fs.RamfsSys
import MiniOs.Library.Bytes

namespace MiniOs.Fs

open Library.Bytes (toUInt8s)

/-- `ramfs_dtype`. -/
def ramfsDtype : FileType → UInt8
  | .reg => 8
  | .dir => 4
  | .chr => 2
  | .fifo => 1
  | .lnk => 10

/-- `struct linux_dirent64`. -/
structure Dirent where
  ino : Nat
  off : Nat
  reclen : Nat
  type : UInt8
  name : List UInt8
  deriving DecidableEq, Repr

/-- `offsetof(struct linux_dirent64, d_name)`. -/
def nameOffset : Nat := 19

/-- The length of a record: with the NUL of the name, up to the next multiple of eight. -/
def direntReclen (namelen : Nat) : Nat := (nameOffset + namelen + 1 + 7) / 8 * 8

/-- The bytes of a record in `kbuf`, which is cleared first. -/
def Dirent.encode (d : Dirent) : List UInt8 :=
  toUInt8s 8 d.ino ++ toUInt8s 8 d.off ++ toUInt8s 2 d.reclen ++ [d.type] ++ d.name ++
    List.replicate (d.reclen - nameOffset - d.name.length) 0

/-- A buffer of the caller: its address and the length it is said to have. `copy_to_user` cannot fail. -/
structure UserBuf where
  addr : Nat
  count : Nat

namespace Ramfs

/-- The record for the entry at a position of the list. -/
def direntOf (fs : Ramfs) (pos : Nat) (e : Name × Nat) : Dirent where
  ino := ((fs.memory e.2).map RamfsInode.ino).getD 0
  off := pos + 1
  reclen := direntReclen e.1.bytes.length
  type := ((fs.memory e.2).map fun ri => ramfsDtype ri.type).getD 0
  name := e.1.bytes

/-- The loop of `ramfs_dir_readdir`, at an entry of the list and its position; with what has been written
and `file->f_pos`. -/
def readdirLoop (fs : Ramfs) (buf : UserBuf) (index : Nat) :
    Nat → List (Name × Nat) → List UInt8 → Nat → Except Errno (List UInt8) × Nat
  | _, [], written, fPos => (.ok written, fPos)
  | pos, e :: es, written, fPos =>
    if pos < index then fs.readdirLoop buf index (pos + 1) es written fPos
    else
      let d := fs.direntOf pos e
      if d.reclen > 24 + nameMax + 8 then (.error .inval, fPos)
      else if written.length + d.reclen > buf.count then
        if written.length = 0 then (.error .inval, fPos) else (.ok written, fPos)
      else fs.readdirLoop buf index (pos + 1) es (written ++ d.encode) (pos + 1)

/-- `ramfs_dir_readdir`: what it returns, with the bytes in the buffer for their number, and `file->f_pos`
after it. -/
def dirReaddir (fs : Ramfs) (dir : Nat) (fPos : Nat) (buf : UserBuf) : Except Errno (List UInt8) × Nat :=
  if ¬ fs.isDir dir then (.error .notdir, fPos)
  else if buf.addr = 0 then (.error .fault, fPos)
  else if buf.count = 0 then (.ok [], fPos)
  else fs.readdirLoop buf fPos 0 (fs.childrenOf dir) [] fPos

end Ramfs

/-! ## Scans -/

/-- The strings that a call is given. -/
def RamfsOp.strings : RamfsOp → List (List UInt8)
  | mkdir _ name _ => [name.bytes]
  | mknod _ name _ _ => [name.bytes]
  | create path _ => [path]
  | symlink _ name _ => [name.bytes]
  | link _ _ name => [name.bytes]
  | unlink _ name => [name.bytes]
  | rmdir _ name => [name.bytes]
  | rename _ oldName _ newName => [oldName.bytes, newName.bytes]

def HeldRamfs.Act.strings : HeldRamfs.Act → List (List UInt8)
  | .op o => o.strings
  | _ => []

/-- The steps of the users of ramfs; no string has a NUL in it. -/
def HeldRamfs.stepStrings (s : HeldRamfs) (a : Act) : Option HeldRamfs :=
  if a.strings.all fun str => !str.contains 0 then s.step a else none

/-- A call of `ksys_getdents64`: what ramfs was, the buffer, and the result. -/
structure Getdents where
  fs : Ramfs
  buf : UserBuf
  result : Except Errno (List UInt8)

/-- A directory opened once: its inode, `file->f_pos`, the calls of `ksys_getdents64` so far, and the
entries that have been there all the time. -/
structure Scan where
  held : HeldRamfs
  dir : Nat
  fPos : Nat
  log : List Getdents
  kept : List (Name × Nat)

namespace Scan

/-- A directory that was just opened. -/
def opened (held : HeldRamfs) (dir : Nat) : Scan := ⟨held, dir, 0, [], held.fs.childrenOf dir⟩

inductive Act
  | user (a : HeldRamfs.Act)
  | getdents (buf : UserBuf)

def step (s : Scan) : Act → Option Scan
  | .user a =>
    (s.held.stepStrings a).map fun held =>
      { s with held := held, kept := s.kept.filter fun e => e ∈ held.fs.childrenOf s.dir }
  | .getdents buf =>
    let r := s.held.fs.dirReaddir s.dir s.fPos buf
    some { s with fPos := r.2, log := s.log ++ [⟨s.held.fs, buf, r.1⟩] }

/-- The entries of the directory. -/
def entries (s : Scan) : List (Name × Nat) := s.held.fs.childrenOf s.dir

end Scan

end MiniOs.Fs
