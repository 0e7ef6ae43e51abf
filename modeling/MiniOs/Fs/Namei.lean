/-
The system calls of fs/namei.c, fs/open.c and fs/stat.c that take paths, over ramfs, procfs and the
dentry cache, and the runs of all calls on files together. A call starts where `getname_from_user_at`
has returned a path; calls for which it fails change nothing.
-/
import MiniOs.Fs.Vfs

namespace MiniOs.Fs

open Function

def oCreat : BitVec 32 := 0x40
def oTrunc : BitVec 32 := 0x200
def oDirectory : BitVec 32 := 0x10000

namespace Vfs

/-! ## Making names -/

/-- `do_mkdir` and `do_mknod`: a dentry for the name, the inode operation, and the dentry goes into the
cache when it succeeded. -/
def doMake (s : Vfs) (path : List UInt8) (op : Ramfs → Nat → Name → Except Errno (Option Nat) × Ramfs) :
    Except Errno Unit × Vfs :=
  match pathParentName path with
  | .error e => (.error e, s)
  | .ok (parentPath, name) =>
    match s.dLookupPath parentPath with
    | (none, s) => (.error .noent, s)
    | (some parent, s) =>
      match s.dLookupPath path with
      | (some _, s) => (.error .exist, s)
      | (none, s) =>
        match s.kmalloc with
        | (false, s) => (.error .nomem, s)
        | (true, s) =>
          match op s.fs (s.inodeOf parent) name with
          | (.error e, fs) => (.error e, { s with fs := fs })
          | (.ok none, fs) => (.ok (), { s with fs := fs })
          | (.ok (some i), fs) => (.ok (), { s with fs := fs }.dAdd parent name i)

def doMkdir (s : Vfs) (path : List UInt8) (mode : UInt16) : Except Errno Unit × Vfs :=
  s.doMake path fun fs dir name => fs.inodeMkdir dir name mode

def doMknod (s : Vfs) (path : List UInt8) (mode : UInt16) (rdev : Nat) : Except Errno Unit × Vfs :=
  if mode &&& sIfmt ≠ FileType.chr.bits then (.error .inval, s)
  else s.doMake path fun fs dir name => fs.inodeMknod dir name mode rdev

/-- `do_symlink`: the cache learns of the new name at a later lookup. -/
def doSymlink (s : Vfs) (current : Nat) (target path : List UInt8) : Except Errno Unit × Vfs :=
  match s.vfsLookup current path with
  | (some exist, s) => (.error .exist, s.iput exist)
  | (none, s) =>
    match pathParentName path with
    | .error e => (.error e, s)
    | .ok (parentPath, name) =>
      match s.dLookupPath parentPath with
      | (none, s) => (.error .noent, s)
      | (some parent, s) =>
        match s.fs.inodeSymlink (s.inodeOf parent) name target with
        | (.error e, fs) => (.error e, { s with fs := fs })
        | (.ok _, fs) => (.ok (), { s with fs := fs })

/-- `ksys_symlinkat` once both strings are copied. -/
def symlinkat (s : Vfs) (current : Nat) (target path : List UInt8) : Except Errno Unit × Vfs :=
  if path.take 6 = procDir ++ [slash] then (.error .access, s) else s.doSymlink current target path

/-- `ramfs_inode_link` of an inode that is not one of ramfs: ramfs reads its memory as an inode of its
own, here under a new number and with the one name that is entered. -/
def linkForeign (fs : Ramfs) (dir : Nat) (name : Name) : Except Errno (Option Nat) × Ramfs :=
  if name.bytes = [] then (.error .inval, fs)
  else if ¬ fs.isDir dir then (.error .notdir, fs)
  else if (fs.findChild dir name).isSome then (.error .exist, fs)
  else
    let i := fs.nextIno
    match ({ fs.set i (ramfsInodeInit i .reg) with nextIno := i + 1 } : Ramfs).addChild dir name i with
    | (.error e, fs') => (.error e, { fs with allocs := fs'.allocs })
    | (.ok (), fs') => (.ok (some i), fs')

/-- `vfs_link` of an inode that is not a directory. -/
def vfsLink (s : Vfs) (old : InodeRef) (dir : Nat) (name : Name) : Except Errno Unit × Vfs :=
  match old with
  | .ramfs i =>
    match s.fs.inodeLink i dir name with
    | (.error e, fs) => (.error e, { s with fs := fs })
    | (.ok _, fs) => (.ok (), { s with fs := fs })
  | .proc _ =>
    match linkForeign s.fs dir name with
    | (.error e, fs) => (.error e, { s with fs := fs })
    | (.ok _, fs) => (.ok (), { s with fs := fs, stale := s.fs.nextIno :: s.stale })

/-- The part of `do_link` that holds a reference on the old inode. -/
def linkHeld (s : Vfs) (current : Nat) (old : InodeRef) (newpath : List UInt8) : Except Errno Unit × Vfs :=
  if s.isDir old then (.error .perm, s)
  else
    match s.vfsLookup current newpath with
    | (some exist, s) => (.error .exist, s.iput exist)
    | (none, s) =>
      match pathParentName newpath with
      | .error e => (.error e, s)
      | .ok (parentPath, name) =>
        match s.dLookupPath parentPath with
        | (none, s) => (.error .noent, s)
        | (some parent, s) => s.vfsLink old (s.inodeOf parent) name

def doLink (s : Vfs) (current : Nat) (oldpath newpath : List UInt8) : Except Errno Unit × Vfs :=
  match s.vfsLookup current oldpath with
  | (none, s) => (.error .noent, s)
  | (some old, s) =>
    let (res, s) := s.linkHeld current old newpath
    (res, s.iput old)

/-! ## Removing and moving names -/

def vfsUnlink (s : Vfs) (dir : Nat) (name : Name) (inode : InodeRef) : Except Errno Unit × Vfs :=
  if ¬ s.fs.isDir dir then (.error .notdir, s)
  else if s.isDir inode then (.error .isdir, s)
  else
    match s.fs.inodeUnlink dir name with
    | (.error e, fs) => (.error e, { s with fs := fs })
    | (.ok _, fs) => (.ok (), { s with fs := fs })

/-- `do_unlink`. When `ramfs_inode_unlink` succeeds it has cleared `tmp.inode`, and the `iput` at the end
drops nothing. -/
def doUnlink (s : Vfs) (current : Nat) (path : List UInt8) : Except Errno Unit × Vfs :=
  match pathParentName path with
  | .error e => (.error e, s)
  | .ok (parentPath, name) =>
    match s.dLookupPath parentPath with
    | (none, s) => (.error .noent, s)
    | (some parent, s) =>
      match s.vfsLookup current path with
      | (none, s) => (.error .noent, s)
      | (some inode, s) =>
        match s.vfsUnlink (s.inodeOf parent) name inode with
        | (.error e, s) => (.error e, s.iput inode)
        | (.ok (), s) =>
          match s.dLookupPath path with
          | (none, s) => (.ok (), s)
          | (some d, s) => (.ok (), if d = parent then s else s.dDrop d)

def vfsRmdir (s : Vfs) (dir : Nat) (name : Name) (inode : Nat) : Except Errno Unit × Vfs :=
  if ¬ s.fs.isDir dir then (.error .notdir, s)
  else if ¬ s.fs.isDir inode then (.error .notdir, s)
  else
    match s.fs.inodeRmdir dir name with
    | (.error e, fs) => (.error e, { s with fs := fs })
    | (.ok _, fs) => (.ok (), { s with fs := fs })

def doRmdir (s : Vfs) (path : List UInt8) : Except Errno Unit × Vfs :=
  match s.dLookupPath path with
  | (none, s) => (.error .noent, s)
  | (some d, s) =>
    match s.dentries d with
    | none => (.error .noent, s)
    | some x =>
      match x.parent with
      | none => (.error .noent, s)
      | some parent =>
        match s.vfsRmdir (s.inodeOf parent) x.name x.inode with
        | (.error e, s) => (.error e, s)
        | (.ok (), s) => (.ok (), s.dDrop d)

/-- The part of `do_rename` after its four lookups; nothing when the walk of ramfs up the tree does not
end. -/
def renameFound (s : Vfs) (oldParent : Nat) (oldName : Name) (newParent : Nat) (newName : Name) (oldD : Nat)
    (newD : Option Nat) : Option (Except Errno Unit × Vfs) :=
  if newD.any fun d => s.inodeOf d = s.inodeOf oldD then some (.ok (), s)
  else
    match s.fs.inodeRename (s.inodeOf oldParent) oldName (s.inodeOf newParent) newName with
    | none => none
    | some (.error e, fs) => some (.error e, { s with fs := fs })
    | some (.ok (), fs) =>
      let s : Vfs := { s with fs := fs }
      let s := match newD with
        | none => s
        | some d => s.dDrop d
      some (.ok (), s.dMove oldD newParent newName)

def doRename (s : Vfs) (oldpath newpath : List UInt8) : Option (Except Errno Unit × Vfs) :=
  match pathParentName oldpath with
  | .error e => some (.error e, s)
  | .ok (oldParentPath, oldName) =>
    match pathParentName newpath with
    | .error e => some (.error e, s)
    | .ok (newParentPath, newName) =>
      if oldName.isDotname || newName.isDotname then some (.error .busy, s)
      else
        match s.dLookupPath oldParentPath with
        | (none, s) => some (.error .noent, s)
        | (some oldParent, s) =>
          match s.dLookupPath newParentPath with
          | (none, s) => some (.error .noent, s)
          | (some newParent, s) =>
            match s.dLookupPath oldpath with
            | (none, s) => some (.error .noent, s)
            | (some oldD, s) =>
              match s.dLookupPath newpath with
              | (newD, s) => s.renameFound oldParent oldName newParent newName oldD newD

/-! ## Looking -/

/-- `newfstatat`, `readlinkat` and `utimensat`: a lookup whose reference is dropped again. -/
def doStat (s : Vfs) (current : Nat) (path : List UInt8) : Vfs :=
  match s.vfsLookup current path with
  | (none, s) => s
  | (some inode, s) => s.iput inode

/-- `ramfs_readlink` of what a lookup found; procfs has directories and regular files only. -/
def inodeReadlink (s : Vfs) (inode : InodeRef) (bufsiz : Nat) : Except Errno (List UInt8) :=
  if s.typeOf inode ≠ some .lnk then .error .inval
  else
    match inode with
    | .ramfs i => s.fs.readlink i bufsiz
    | .proc _ => .error .inval

/-- `ksys_readlinkat` once the path is copied, with the bytes it stores at `buf`. -/
def readlinkat (s : Vfs) (current : Nat) (path : List UInt8) (bufsiz : Nat) : Except Errno (List UInt8) × Vfs :=
  if bufsiz = 0 then (.error .inval, s)
  else
    match s.vfsLookup current path with
    | (none, s) => (.error .noent, s)
    | (some inode, s) => (s.inodeReadlink inode (min bufsiz pathMax), s.iput inode)

/-- `ksys_faccessat2`. -/
def faccessat (s : Vfs) (current : Nat) (path : List UInt8) (nofollow : Bool) : Vfs :=
  if nofollow then
    match s.fs.lookup path with
    | none => s
    | some i => (s.iget (.ramfs i)).iput (.ramfs i)
  else s.doStat current path

def inodeChmod (s : Vfs) (inode : InodeRef) (mode : UInt16) : Vfs :=
  match inode with
  | .ramfs i => { s with fs := s.fs.modify i fun ri => { ri with iMode := ri.iMode &&& sIfmt ||| mode &&& 0o777 } }
  | .proc _ => s

def fchmodat (s : Vfs) (current : Nat) (path : List UInt8) (mode : UInt16) : Vfs :=
  match s.vfsLookup current path with
  | (none, s) => s
  | (some inode, s) => (s.inodeChmod inode mode).iput inode

/-- The end of `ksys_chdir` and `ksys_fchdir`. -/
def setCwd (s : Vfs) (p : Nat) (path : List UInt8) : Except Errno Unit × Vfs :=
  match s.dLookupPath path with
  | (none, s) => (.error .noent, s)
  | (some d, s) =>
    if ¬ s.fs.isDir (s.inodeOf d) then (.error .notdir, s)
    else (.ok (), { s with cwd := update s.cwd p (some d) })

def chdir (s : Vfs) (p : Nat) (path : List UInt8) : Except Errno Unit × Vfs := s.setCwd p path

/-- The inode of an open descriptor. -/
def inodeOfFd (s : Vfs) (p fd : Nat) : Except Errno InodeRef :=
  match s.files.lookupFd p fd with
  | none => .error .badf
  | some (_, f) =>
    match (s.files.file f).bind File.inode with
    | none => .error .notdir
    | some inode => if s.isDir inode then .ok inode else .error .notdir

/-- `ksys_fchdir`; nothing when `ramfs_inode_path` reads what was never an inode. What it takes for the
parent of a procfs directory is the word `PROC_MAGIC`. -/
def fchdir (s : Vfs) (p fd : Nat) : Option (Except Errno Unit × Vfs) :=
  match s.inodeOfFd p fd with
  | .error e => some (.error e, s)
  | .ok (.proc _) => none
  | .ok (.ramfs i) =>
    match s.fs.inodePath i with
    | none => none
    | some (.error e) => some (.error e, s)
    | some (.ok path) => some (s.setCwd p path)

/-! ## Open files -/

/-- The references that closed files held are dropped. -/
def settle (s : Vfs) : Vfs := s.files.iputs.foldl iput { s with files := { s.files with iputs := [] } }

/-- The majors and minors that `chrdev_open` knows, with the error for a failing allocation; `tty` says
that the session of the task has the terminal. -/
def chrdevOpen (rdev : Nat) (tty : Bool) : Except Errno Errno :=
  if rdev = 1 * 256 + 3 then .ok .nomem
  else if rdev = 5 * 256 then if tty then .ok .nxio else .error .nxio
  else if rdev = 5 * 256 + 1 then .ok .nomem
  else .error .nodev

/-- The checks of `ksys_openat` on the inode it found; with the error for a failing `alloc_file`. -/
def openChecks (s : Vfs) (inode : InodeRef) (flags : BitVec 32) (tty : Bool) : Except Errno Errno × Vfs :=
  let write := flags &&& oAccmode ≠ 0#32
  match s.typeOf inode with
  | some .dir => if write then (.error .isdir, s) else (.ok .nomem, s)
  | some .chr =>
    if flags &&& oDirectory ≠ 0#32 then (.error .notdir, s)
    else
      match inode with
      | .ramfs i => (chrdevOpen (((s.fs.memory i).map RamfsInode.iRdev).getD 0) tty, s)
      | .proc _ => (.error .nodev, s)
  | some .reg =>
    if flags &&& oDirectory ≠ 0#32 then (.error .notdir, s)
    else if flags &&& oTrunc ≠ 0#32 ∧ write then
      match inode with
      | .proc _ => (.error .access, s)
      | .ramfs i =>
        match s.fs.truncate i 0 with
        | (.error e, fs) => (.error e, { s with fs := fs })
        | (.ok (), fs) => (.ok .nomem, { s with fs := fs })
    else (.ok .nomem, s)
  | _ => if flags &&& oDirectory ≠ 0#32 then (.error .notdir, s) else (.error .noent, s)

/-- The lookup of `ksys_openat`, which creates the file when it is asked to. -/
def openLookup (s : Vfs) (current : Nat) (path : List UInt8) (flags : BitVec 32) (mode : UInt16) :
    Except Errno InodeRef × Vfs :=
  match s.vfsLookup current path with
  | (some inode, s) => (.ok inode, s)
  | (none, s) =>
    if flags &&& oCreat = 0#32 then (.error .noent, s)
    else
      match s.fs.create path mode with
      | (.error e, fs) => (.error e, { s with fs := fs })
      | (.ok _, fs) =>
        match ({ s with fs := fs } : Vfs).vfsLookup current path with
        | (none, s) => (.error .noent, s)
        | (some inode, s) => (.ok inode, s)

/-- `ksys_openat`. -/
def openat (s : Vfs) (p : Nat) (path : List UInt8) (flags : BitVec 32) (mode : UInt16) (tty : Bool) :
    Except Errno Nat × Vfs :=
  if path.take 6 = procDir ++ [slash] ∧ flags &&& oCreat ≠ 0#32 then (.error .access, s)
  else
    match s.openLookup p path flags mode with
    | (.error e, s) => (.error e, s)
    | (.ok inode, s) =>
      match s.openChecks inode flags tty with
      | (.error e, s) => (.error e, s.iput inode)
      | (.ok onFail, s) =>
        let (res, files) := s.files.openFile p inode flags onFail
        (res, { s with files := files }.settle)

/-! ## Runs -/

/-- A call of task `p`. The calls on descriptors are those of `Files` that come without a path; `reap`
is the release of a task that has exited. -/
inductive Act
  | openat (p : Nat) (path : AbsPath) (flags : BitVec 32) (mode : UInt16) (tty : Bool)
  | close (p fd : Nat)
  | dup (p oldfd : Nat)
  | dup3 (p oldfd newfd : Nat) (flags : BitVec 32)
  | fcntl (p fd : Nat) (cmd : Files.FcntlCmd)
  | fork (p : Nat)
  | exit (p : Nat)
  | reap (p q : Nat)
  | mkdirat (p : Nat) (path : AbsPath) (mode : UInt16)
  | mknodat (p : Nat) (path : AbsPath) (mode : UInt16) (rdev : Nat)
  | symlinkat (p : Nat) (target : List UInt8) (path : AbsPath)
  | linkat (p : Nat) (oldpath newpath : AbsPath)
  | unlinkat (p : Nat) (path : AbsPath)
  | rmdir (p : Nat) (path : AbsPath)
  | renameat (p : Nat) (oldpath newpath : AbsPath)
  | stat (p : Nat) (path : AbsPath)
  | faccessat (p : Nat) (path : AbsPath) (nofollow : Bool)
  | fchmodat (p : Nat) (path : AbsPath) (mode : UInt16)
  | chdir (p : Nat) (path : AbsPath)
  | fchdir (p fd : Nat)

def Act.pid : Act → Nat
  | openat p .. | close p _ | dup p _ | dup3 p .. | fcntl p .. | fork p | exit p | reap p _ | mkdirat p .. |
    mknodat p ..
  | symlinkat p .. | linkat p .. | unlinkat p _ | rmdir p _ | renameat p .. | stat p _ | faccessat p .. | fchmodat p ..
  | chdir p _ | fchdir p _ => p

/-- A call that only touches descriptors. -/
def onFiles (s : Vfs) (call : Files.Call InodeRef) : Vfs := { s with files := s.files.exec call }.settle

/-- The state after a call; nothing when it does not return. -/
def exec (s : Vfs) : Act → Option Vfs
  | .openat p path flags mode tty => some (s.openat p path.bytes flags mode tty).2
  | .close p fd => some (s.onFiles (.close p fd))
  | .dup p oldfd => some (s.onFiles (.dup p oldfd))
  | .dup3 p oldfd newfd flags => some (s.onFiles (.dup3 p oldfd newfd flags))
  | .fcntl p fd cmd => some (s.onFiles (.fcntl p fd cmd))
  | .fork p =>
    let child := s.files.nextPid
    let s := s.onFiles (.fork p true)
    some { s with cwd := update s.cwd child (s.cwd p), tasks := update s.tasks child true }
  | .exit p => some (s.onFiles (.exit p))
  | .reap _ q => some (if (s.files.table q).isSome then s else { s with tasks := update s.tasks q false })
  | .mkdirat _ path mode => some (s.doMkdir path.bytes mode).2
  | .mknodat _ path mode rdev => some (s.doMknod path.bytes mode rdev).2
  | .symlinkat p target path => some (s.symlinkat p target path.bytes).2
  | .linkat p oldpath newpath => some (s.doLink p oldpath.bytes newpath.bytes).2
  | .unlinkat p path => some (s.doUnlink p path.bytes).2
  | .rmdir _ path => some (s.doRmdir path.bytes).2
  | .renameat _ oldpath newpath => (s.doRename oldpath.bytes newpath.bytes).map Prod.snd
  | .stat p path => some (s.doStat p path.bytes)
  | .faccessat p path nofollow => some (s.faccessat p path.bytes nofollow)
  | .fchmodat p path mode => some (s.fchmodat p path.bytes mode)
  | .chdir p path => some (s.chdir p path.bytes).2
  | .fchdir p fd => (s.fchdir p fd).map Prod.snd

/-- `proc_root_inode` or a dentry points to the inode. -/
def pointsTo (s : Vfs) (i : Nat) : Bool :=
  s.procRoot = some i || (List.range s.nextDentry).any fun d => (s.dentries d).any fun x => x.inode = i

/-- The memory that a call from `s` to `s'` has put on the free list although something points to it: what it has
freed, and what was free before. No call allocates an inode after it has dropped one. -/
def reclaim (s s' : Vfs) : Vfs :=
  let lost := (List.range s.fs.nextIno).filter fun i =>
    (s.fs.inodes i).isSome && (s'.fs.inodes i).isNone && s'.pointsTo i
  { s' with
    fs := { s'.fs with again := lost ++ s'.stray.freed ++ s'.fs.again }
    stray := ⟨fun i => if i ∈ lost then 0 else s'.stray.count i, []⟩ }

/-- One call of a task that has not exited. -/
def step (s : Vfs) (a : Act) : Option Vfs :=
  if (s.files.table a.pid).isSome then (s.exec a).map s.reclaim else none

/-! ## Boot -/

/-- `proc_init`. -/
def procInit (s : Vfs) : Vfs :=
  let fs := (s.fs.mkdir procDir).2
  { s with fs := fs, procRoot := fs.lookup procDir }

def devDir : List UInt8 := [47, 100, 101, 118]

/-- `dev_init`: `/dev` with `null`, `tty` and `console`. -/
def devInit (s : Vfs) : Vfs :=
  match s.fs.mkdir devDir with
  | (.error _, fs) => { s with fs := fs }
  | (.ok _, fs) =>
    let fs := (fs.mknod (devDir ++ [47, 110, 117, 108, 108]) 0o020666 (1 * 256 + 3)).2
    let fs := (fs.mknod (devDir ++ [47, 116, 116, 121]) 0o020666 (5 * 256)).2
    let fs := (fs.mknod (devDir ++ [47, 99, 111, 110, 115, 111, 108, 101]) 0o020600 (5 * 256 + 1)).2
    { s with fs := fs }

/-- Ramfs and the dentry cache with their roots, the files of init, and the outcomes of the allocations
to come. -/
def start (ramfsAllocs fileAllocs allocs : List Bool) : Vfs where
  fs := Ramfs.init ramfsAllocs
  files := Files.init InodeRef fileAllocs
  dentries := update (fun _ => none) rootDentry (some ⟨Name.clip [], rootIno, none, []⟩)
  nextDentry := rootDentry + 1
  cwd := fun _ => none
  tasks := fun p => p = 1
  procRoot := none
  procs := fun _ => none
  nextProc := 0
  stale := []
  allocs := allocs
  stray := ⟨fun _ => 0, []⟩

/-- The state when init starts. -/
def init (ramfsAllocs fileAllocs allocs : List Bool) : Vfs := (start ramfsAllocs fileAllocs allocs).procInit.devInit

end Vfs

end MiniOs.Fs
