/-
`dentry_path` of fs/dcache.c and `dirfd_base` of fs/namei.c, which print the directory that a relative
path starts from.
-/
import MiniOs.Fs.Namei

namespace MiniOs.Fs.Vfs

/-- The loop of `dentry_path`; `tmp` is what stands at the end of its buffer of `PATH_MAX`, from `pos` on.
A round takes at least the byte of the slash, so `PATH_MAX` bounds the rounds. -/
def dentryPathLoop (s : Vfs) : Nat → Nat → List UInt8 → Except Errno (List UInt8)
  | 0, _, _ => .error .nametoolong
  | n + 1, d, tmp =>
    match s.dentries d with
    | none => .ok tmp
    | some x =>
      match x.parent with
      | none => .ok tmp
      | some q =>
        let pos := pathMax - 1 - tmp.length
        if pos < x.name.bytes.length + 1 then .error .nametoolong
        else s.dentryPathLoop n q (slash :: (x.name.bytes ++ tmp))

/-- `dentry_path` into a buffer of `PATH_MAX`. -/
def dentryPath (s : Vfs) (d : Nat) : Except Errno (List UInt8) :=
  match s.parentOf d with
  | none => .ok [slash]
  | some _ => s.dentryPathLoop pathMax d []

/-- `pwd_dentry`. -/
def pwdDentry (s : Vfs) (p : Nat) : Nat := (s.cwd p).getD rootDentry

/-- What `ksys_getcwd` copies out when the buffer has room for it. -/
def getcwd (s : Vfs) (p : Nat) : Except Errno (List UInt8) := s.dentryPath (s.pwdDentry p)

/-- `dirfd_base`, with nothing for `AT_FDCWD`; nothing when `ramfs_inode_path` reads what was never an
inode. -/
def dirfdBase (s : Vfs) (p : Nat) : Option Nat → Option (Except Errno (List UInt8))
  | none => some (s.dentryPath (s.pwdDentry p))
  | some fd =>
    match s.inodeOfFd p fd with
    | .error e => some (.error e)
    | .ok (.proc _) => none
    | .ok (.ramfs i) => s.fs.inodePath i

end MiniOs.Fs.Vfs
