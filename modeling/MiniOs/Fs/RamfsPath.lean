/-
The operations of fs/ramfs.c that take a path, for the kernel's own use at boot, and the way back from
a directory to its path.
-/
import MiniOs.Fs.Path

namespace MiniOs.Fs.Ramfs

/-- `ramfs_mkdir`. -/
def mkdir (fs : Ramfs) (path : List UInt8) : Except Errno (Option Nat) × Ramfs :=
  if path.head? ≠ some slash then (.error .inval, fs)
  else
    match fs.lookupParent path with
    | none => (.error .noent, fs)
    | some (dir, name) => fs.inodeMkdir dir name 0o755

/-- `ramfs_mknod`. -/
def mknod (fs : Ramfs) (path : List UInt8) (mode : UInt16) (rdev : Nat) : Except Errno (Option Nat) × Ramfs :=
  if path.head? ≠ some slash then (.error .inval, fs)
  else
    match fs.lookupParent path with
    | none => (.error .noent, fs)
    | some (dir, name) => fs.inodeMknod dir name mode rdev

/-- `ramfs_symlink`. -/
def symlink (fs : Ramfs) (path target : List UInt8) : Except Errno (Option Nat) × Ramfs :=
  if path.head? ≠ some slash then (.error .inval, fs)
  else
    match fs.lookupParent path with
    | none => (.error .noent, fs)
    | some (dir, name) =>
      if (fs.findChild dir name).isSome then (.error .exist, fs) else fs.inodeSymlink dir name target

/-- `ramfs_readlink`: the target as a string, which ends at its first NUL. -/
def readlink (fs : Ramfs) (i : Nat) (bufsiz : Nat) : Except Errno (List UInt8) :=
  if bufsiz = 0 then .error .inval
  else
    match fs.inodes i with
    | none => .error .fault
    | some ri =>
      if ri.type ≠ .lnk then .error .inval
      else .ok (((ri.data.getD []).take (min ri.size bufsiz)).takeWhile (· ≠ 0))

/-- `ramfs_truncate`. -/
def truncate (fs : Ramfs) (i : Nat) (size : Nat) : Except Errno Unit × Ramfs :=
  match fs.inodes i with
  | none => (.error .inval, fs)
  | some ri =>
    if ri.type ≠ .reg then (.error .isdir, fs)
    else if size > ri.capacity then (.error .inval, fs)
    else (.ok (), fs.set i { ri with size := size })

/-- The rounds of `vfs_lookup` that follow symbolic links. -/
def follow (fs : Ramfs) : Nat → List UInt8 → Option Nat
  | 0, _ => none
  | depth + 1, curpath =>
    match fs.lookup curpath with
    | none => none
    | some i =>
      if ¬ fs.hasType i .lnk then some i
      else
        match fs.readlink i (pathMax - 1) with
        | .error _ => none
        | .ok target =>
          if target.head? = some slash then fs.follow depth (strCopy target)
          else
            match pathParentName curpath with
            | .error _ => none
            | .ok (parent, _) =>
              match pathResolve parent target with
              | .error _ => none
              | .ok resolved => fs.follow depth (strCopy resolved)

/-! ## From a directory to its path -/

/-- `ramfs_name_in_parent`. -/
def nameInParent (fs : Ramfs) (parent child : Nat) : Option Name :=
  (((fs.memory parent).map RamfsInode.children).getD [] |>.find? fun e => e.2 = child).map Prod.fst

/-- The first loop of `ramfs_inode_path`, for the rounds that are left before `chain` is full: the
directories below the root on the way up, innermost first, as their memory says. Nothing when the walk
comes to what was never an inode. -/
def chain (fs : Ramfs) : Nat → Option Nat → Option (Except Errno (List Nat))
  | _, none => some (.error .notdir)
  | n, some p =>
    if p = rootIno then some (.ok [])
    else
      match n with
      | 0 => some (.error .nametoolong)
      | n + 1 =>
        match fs.memory p with
        | none => none
        | some rp => (fs.chain n rp.parent).map fun r => r.map (p :: ·)

/-- The second loop: the names, outermost first. -/
def chainNames (fs : Ramfs) : List Nat → Except Errno (List (List UInt8))
  | [] => .ok []
  | p :: rest =>
    match fs.chainNames rest with
    | .error e => .error e
    | .ok names =>
      match fs.nameInParent (((fs.memory p).bind RamfsInode.parent).getD rootIno) p with
      | none => .error .noent
      | some n =>
        if (renderPath (names ++ [n.bytes])).length ≥ pathMax then .error .nametoolong else .ok (names ++ [n.bytes])

/-- `ramfs_inode_path` into a buffer of `PATH_MAX`; nothing when it reads what was never an inode. -/
def inodePath (fs : Ramfs) (i : Nat) : Option (Except Errno (List UInt8)) :=
  if (fs.memory i).map RamfsInode.type ≠ some .dir then some (.error .notdir)
  else
    match fs.chain 64 (some i) with
    | none => none
    | some (.error e) => some (.error e)
    | some (.ok l) =>
      match fs.chainNames l with
      | .error e => some (.error e)
      | .ok names => some (.ok (renderPath names))

end MiniOs.Fs.Ramfs
