/-
The in-memory file system: the inode counters of fs/inode.c and the tree of fs/ramfs.c with its
inode operations and its path walks. A ramfs inode is named by its number; memory that was freed is another
inode when it is taken again, unless something still points to it. Strings are the bytes before the terminating NUL, so
that `ramfs_streq` is equality.
-/
import MiniOs.Fs.Errno
import Mathlib.Logic.Function.Basic
import Mathlib.Data.List.Basic

namespace MiniOs.Fs

/-- The `S_IF` types. -/
inductive FileType
  | fifo | chr | dir | lnk | reg
  deriving DecidableEq, Repr

def FileType.bits : FileType → UInt16
  | .fifo => 0o010000
  | .chr => 0o020000
  | .dir => 0o040000
  | .lnk => 0o120000
  | .reg => 0o100000

def sIfmt : UInt16 := 0o170000

/-- `RAMFS_NAME_MAX`. -/
def nameMax : Nat := 255

/-- `PATH_MAX`. -/
def pathMax : Nat := 256

def slash : UInt8 := 47
def dot : UInt8 := 46

/-- A string that fits a `char[RAMFS_NAME_MAX + 1]`. -/
structure Name where
  bytes : List UInt8
  short : bytes.length ≤ nameMax
  deriving DecidableEq

/-- The copy loops that stop at `RAMFS_NAME_MAX` characters. -/
def Name.clip (s : List UInt8) : Name := ⟨s.take nameMax, List.length_take_le nameMax s⟩

/-- `ramfs_is_dotname`. -/
def Name.isDotname (n : Name) : Bool := n.bytes = [dot] || n.bytes = [dot, dot]

/-- `struct ramfs_inode` with its embedded `struct inode`; `I_PERSISTENT` is set on all of them. -/
structure RamfsInode where
  ino : Nat
  size : Nat
  type : FileType
  iMode : UInt16
  iRdev : Nat
  nlink : Nat
  iCount : Nat
  parent : Option Nat
  children : List (Name × Nat)
  data : Option (List UInt8)
  capacity : Nat
  deriving DecidableEq

/-- The state of ramfs. `allocs` are the outcomes of the coming calls of kmalloc (past its end they
succeed), `freed` the inodes handed to kfree, latest first, with what they held at that moment, and `again`
the memory on the free list that something still points to, which the next inodes get. -/
structure Ramfs where
  inodes : Nat → Option RamfsInode
  nextIno : Nat
  allocs : List Bool
  freed : List (Nat × Option RamfsInode)
  again : List Nat

/-- The inode number of `root_inode`. -/
def rootIno : Nat := 1

def ramfsDefaultPerm : FileType → UInt16
  | .dir => 0o755
  | .reg => 0o755
  | .lnk => 0o777
  | .chr => 0o666
  | .fifo => 0o644

/-- `ramfs_inode_init`. -/
def ramfsInodeInit (ino : Nat) (type : FileType) : RamfsInode where
  ino := ino
  size := 0
  type := type
  iMode := type.bits ||| ramfsDefaultPerm type
  iRdev := 0
  nlink := if type = .dir then 2 else 1
  iCount := 0
  parent := none
  children := []
  data := none
  capacity := 0

/-- `ramfs_apply_mode`. -/
def RamfsInode.applyMode (ri : RamfsInode) (mode : UInt16) : RamfsInode :=
  { ri with iMode := ri.type.bits ||| (mode &&& 0o777) }

namespace Ramfs

/-- `ramfs_init`, with the outcomes of the allocations to come. -/
def init (allocs : List Bool) : Ramfs where
  inodes := Function.update (fun _ => none) rootIno (some (ramfsInodeInit rootIno .dir))
  nextIno := rootIno + 1
  allocs := allocs
  freed := []
  again := []

def set (fs : Ramfs) (i : Nat) (ri : RamfsInode) : Ramfs :=
  { fs with inodes := Function.update fs.inodes i (some ri) }

/-- A write through a pointer to an inode. -/
def modify (fs : Ramfs) (i : Nat) (f : RamfsInode → RamfsInode) : Ramfs :=
  match fs.inodes i with
  | none => fs
  | some ri => fs.set i (f ri)

/-- `ramfs_kmalloc`. -/
def kmalloc (fs : Ramfs) : Bool × Ramfs :=
  match fs.allocs with
  | [] => (true, fs)
  | ok :: rest => (ok, { fs with allocs := rest })

/-- `ramfs_kfree` of an inode. -/
def kfree (fs : Ramfs) (i : Nat) : Ramfs :=
  { fs with inodes := Function.update fs.inodes i none, freed := (i, fs.inodes i) :: fs.freed }

/-- What a pointer to an inode reads: the inode, or what it held when it was freed. -/
def memory (fs : Ramfs) (i : Nat) : Option RamfsInode :=
  match fs.inodes i with
  | some ri => some ri
  | none => (fs.freed.find? fun e => e.1 = i).bind Prod.snd

/-- `inode->type == type`. -/
def hasType (fs : Ramfs) (i : Nat) (type : FileType) : Bool :=
  match fs.inodes i with
  | none => false
  | some ri => ri.type = type

/-- `inode_is_dir`. -/
def isDir (fs : Ramfs) (i : Nat) : Bool := fs.hasType i .dir

def parentOf (fs : Ramfs) (i : Nat) : Option Nat := (fs.inodes i).bind RamfsInode.parent

def childrenOf (fs : Ramfs) (i : Nat) : List (Name × Nat) :=
  match fs.inodes i with
  | none => []
  | some ri => ri.children

/-- `ramfs_free_inode`. The depth argument stands for the depth of the recursion: the children of a
directory are freed with it, whatever their counters say. -/
def freeInode : Nat → Ramfs → Nat → Ramfs
  | 0, fs, _ => fs
  | depth + 1, fs, i =>
    let fs := if fs.isDir i then (fs.childrenOf i).foldl (fun fs e => freeInode depth fs e.2) fs else fs
    if i = rootIno then fs else fs.kfree i

/-! ## fs/inode.c -/

def iget (fs : Ramfs) (i : Nat) : Ramfs := fs.modify i fun ri => { ri with iCount := ri.iCount + 1 }

def inodeMaybeEvict (fs : Ramfs) (i : Nat) : Ramfs :=
  match fs.inodes i with
  | none => fs
  | some ri => if ri.iCount ≠ 0 then fs else if ri.nlink ≠ 0 then fs else freeInode fs.nextIno fs i

def dropNlink (fs : Ramfs) (i : Nat) : Ramfs :=
  (fs.modify i fun ri => { ri with nlink := ri.nlink - 1 }).inodeMaybeEvict i

def clearNlink (fs : Ramfs) (i : Nat) : Ramfs :=
  (fs.modify i fun ri => { ri with nlink := 0 }).inodeMaybeEvict i

def iput (fs : Ramfs) (i : Nat) : Ramfs :=
  match fs.inodes i with
  | none => fs
  | some ri => if ri.iCount = 0 then fs else (fs.set i { ri with iCount := ri.iCount - 1 }).inodeMaybeEvict i

/-! ## Directory entries -/

/-- `ramfs_find_child`: the inode of the entry. -/
def findChild (fs : Ramfs) (dir : Nat) (name : Name) : Option Nat :=
  if fs.isDir dir then ((fs.childrenOf dir).find? fun e => e.1 = name).map Prod.snd else none

/-- `ramfs_alloc_inode`. -/
def allocInode (fs : Ramfs) (type : FileType) : Option Nat × Ramfs :=
  match fs.kmalloc with
  | (false, fs) => (none, fs)
  | (true, fs) =>
    let i := fs.again.headD fs.nextIno
    (some i, { fs.set i (ramfsInodeInit fs.nextIno type) with nextIno := fs.nextIno + 1, again := fs.again.tail })

/-- The stores of `ramfs_add_child` once its entry is allocated: a directory gets its parent, and the
entry becomes the first of the list. -/
def pushChild (fs : Ramfs) (dir : Nat) (name : Name) (i : Nat) : Ramfs :=
  let fs := if fs.isDir i then fs.modify i fun ri => { ri with parent := some dir } else fs
  fs.modify dir fun rd => { rd with children := (name, i) :: rd.children }

def addChild (fs : Ramfs) (dir : Nat) (name : Name) (i : Nat) : Except Errno Unit × Ramfs :=
  if ¬ fs.isDir dir then (.error .notdir, fs)
  else if (fs.findChild dir name).isSome then (.error .exist, fs)
  else
    match fs.kmalloc with
    | (false, fs) => (.error .nomem, fs)
    | (true, fs) => (.ok (), fs.pushChild dir name i)

/-- The unlinking of the first entry with a name. -/
def dropChild (fs : Ramfs) (dir : Nat) (name : Name) : Ramfs :=
  fs.modify dir fun rd => { rd with children := rd.children.eraseP fun e => e.1 = name }

def removeChild (fs : Ramfs) (dir : Nat) (name : Name) : Except Errno Nat × Ramfs :=
  if ¬ fs.isDir dir then (.error .notdir, fs)
  else
    match fs.findChild dir name with
    | none => (.error .noent, fs)
    | some i => (.ok i, fs.dropChild dir name)

/-! ## Inode operations

An operation that stores into `dentry->inode` returns the stored pointer. -/

/-- The end of the creating operations: enter the new inode, or free it again. -/
def enterNew (fs : Ramfs) (dir : Nat) (name : Name) (i : Nat) : Except Errno (Option Nat) × Ramfs :=
  match fs.addChild dir name i with
  | (.error e, fs) => (.error e, fs.kfree i)
  | (.ok (), fs) => (.ok (some i), fs)

/-- Allocate an inode of a type, set it up and enter it. -/
def makeNode (fs : Ramfs) (dir : Nat) (name : Name) (type : FileType) (setup : RamfsInode → RamfsInode) :
    Except Errno (Option Nat) × Ramfs :=
  if (fs.findChild dir name).isSome then (.error .exist, fs)
  else
    match fs.allocInode type with
    | (none, fs) => (.error .nomem, fs)
    | (some i, fs) => (fs.modify i setup).enterNew dir name i

/-- `ramfs_inode_mkdir`. -/
def inodeMkdir (fs : Ramfs) (dir : Nat) (name : Name) (mode : UInt16) : Except Errno (Option Nat) × Ramfs :=
  if name.bytes = [] then (.error .inval, fs)
  else if ¬ fs.isDir dir then (.error .notdir, fs)
  else fs.makeNode dir name .dir fun ri => ri.applyMode mode

/-- `ramfs_inode_mknod`. -/
def inodeMknod (fs : Ramfs) (dir : Nat) (name : Name) (mode : UInt16) (rdev : Nat) :
    Except Errno (Option Nat) × Ramfs :=
  if name.bytes = [] then (.error .inval, fs)
  else if ¬ fs.isDir dir then (.error .notdir, fs)
  else if mode &&& sIfmt ≠ FileType.chr.bits then (.error .perm, fs)
  else fs.makeNode dir name .chr fun ri => { ri.applyMode mode with iRdev := rdev }

/-- `ramfs_inode_symlink`. -/
def inodeSymlink (fs : Ramfs) (dir : Nat) (name : Name) (target : List UInt8) : Except Errno (Option Nat) × Ramfs :=
  if name.bytes = [] then (.error .inval, fs)
  else if ¬ fs.isDir dir then (.error .notdir, fs)
  else if target.length ≥ pathMax then (.error .nametoolong, fs)
  else if target = [] then fs.makeNode dir name .lnk id
  else if (fs.findChild dir name).isSome then (.error .exist, fs)
  else
    match fs.allocInode .lnk with
    | (none, fs) => (.error .nomem, fs)
    | (some i, fs) =>
      match fs.kmalloc with
      | (false, fs) => (.error .nomem, fs.kfree i)
      | (true, fs) =>
        (fs.modify i fun ri =>
          { ri with data := some (target ++ [0]), capacity := target.length + 1, size := target.length }).enterNew
          dir name i

/-- `ramfs_inode_link`. -/
def inodeLink (fs : Ramfs) (old : Nat) (dir : Nat) (name : Name) : Except Errno (Option Nat) × Ramfs :=
  if name.bytes = [] then (.error .inval, fs)
  else if ¬ fs.isDir dir then (.error .notdir, fs)
  else if fs.isDir old then (.error .perm, fs)
  else if (fs.findChild dir name).isSome then (.error .exist, fs)
  else
    match fs.addChild dir name old with
    | (.error e, fs) => (.error e, fs)
    | (.ok (), fs) => (.ok (some old), fs.modify old fun ri => { ri with nlink := ri.nlink + 1 })

/-- `ramfs_inode_unlink`: a directory is put back, whatever that gives. -/
def inodeUnlink (fs : Ramfs) (dir : Nat) (name : Name) : Except Errno (Option Nat) × Ramfs :=
  if name.bytes = [] then (.error .inval, fs)
  else if ¬ fs.isDir dir then (.error .notdir, fs)
  else
    match fs.removeChild dir name with
    | (.error e, fs) => (.error e, fs)
    | (.ok i, fs) =>
      if fs.isDir i then (.error .isdir, (fs.addChild dir name i).2)
      else (.ok none, fs.dropNlink i)

/-- `ramfs_inode_rmdir`. -/
def inodeRmdir (fs : Ramfs) (dir : Nat) (name : Name) : Except Errno (Option Nat) × Ramfs :=
  if name.bytes = [] then (.error .inval, fs)
  else if ¬ fs.isDir dir then (.error .notdir, fs)
  else
    match fs.removeChild dir name with
    | (.error e, fs) => (.error e, fs)
    | (.ok i, fs) =>
      if ¬ fs.isDir i then (.error .notdir, (fs.addChild dir name i).2)
      else if fs.childrenOf i ≠ [] then (.error .notempty, (fs.addChild dir name i).2)
      else (.ok none, fs.clearNlink i)

/-! ## Rename -/

/-- The loop `for (p = new_parent; p; p = p->parent)` of rename, for so many rounds: whether it meets
`src`, or nothing when it is still running. -/
def meets (fs : Ramfs) (src : Nat) : Nat → Option Nat → Option Bool
  | _, none => some false
  | 0, some _ => none
  | n + 1, some p => if p = src then some true else fs.meets src n (fs.parentOf p)

/-- Whether a directory to be moved lies on the way up from the new parent. -/
def movesBelow (fs : Ramfs) (src newDir : Nat) : Option Bool :=
  if fs.isDir src then fs.meets src fs.nextIno (some newDir) else some false

/-- The removal of the entry that rename replaces. -/
def replaceTarget (fs : Ramfs) (src : Nat) (newDir : Nat) (newName : Name) (dst : Nat) : Except Errno Unit × Ramfs :=
  if fs.isDir src ∧ ¬ fs.isDir dst then (.error .notdir, fs)
  else if fs.isDir src ∧ fs.childrenOf dst ≠ [] then (.error .notempty, fs)
  else if ¬ fs.isDir src ∧ fs.isDir dst then (.error .isdir, fs)
  else
    match fs.removeChild newDir newName with
    | (.error e, fs) => (.error e, fs)
    | (.ok dst, fs) => (.ok (), if fs.isDir dst then fs.clearNlink dst else fs.dropNlink dst)

/-- `ramfs_set_name` on the first entry with the old name. -/
def setName (oldName newName : Name) : List (Name × Nat) → List (Name × Nat)
  | [] => []
  | e :: es => if e.1 = oldName then (newName, e.2) :: es else e :: setName oldName newName es

/-- The last part of rename: the entry is renamed in place, or taken out and entered elsewhere. -/
def moveEntry (fs : Ramfs) (oldDir : Nat) (oldName : Name) (newDir : Nat) (newName : Name) :
    Except Errno Unit × Ramfs :=
  if oldDir = newDir then
    (.ok (), fs.modify oldDir fun rd => { rd with children := setName oldName newName rd.children })
  else
    match fs.removeChild oldDir oldName with
    | (.error e, fs) => (.error e, fs)
    | (.ok src, fs) =>
      match fs.addChild newDir newName src with
      | (.error e, fs) => (.error e, (fs.addChild oldDir oldName src).2)
      | (.ok (), fs) => (.ok (), fs)

/-- `ramfs_inode_rename`; nothing when its walk up the tree does not end. -/
def inodeRename (fs : Ramfs) (oldDir : Nat) (oldName : Name) (newDir : Nat) (newName : Name) :
    Option (Except Errno Unit × Ramfs) :=
  if ¬ fs.isDir oldDir ∨ ¬ fs.isDir newDir then some (.error .notdir, fs)
  else if oldName.bytes = [] ∨ newName.bytes = [] then some (.error .noent, fs)
  else if oldName.isDotname || newName.isDotname then some (.error .busy, fs)
  else
    match fs.findChild oldDir oldName with
    | none => some (.error .noent, fs)
    | some src =>
      if fs.findChild newDir newName = some src then some (.ok (), fs)
      else
        match fs.movesBelow src newDir with
        | none => none
        | some true => some (.error .inval, fs)
        | some false =>
          match fs.findChild newDir newName with
          | none => some (fs.moveEntry oldDir oldName newDir newName)
          | some dst =>
            match fs.replaceTarget src newDir newName dst with
            | (.error e, fs) => some (.error e, fs)
            | (.ok (), fs) => some (fs.moveEntry oldDir oldName newDir newName)

/-! ## Paths -/

def skipSlash (path : List UInt8) : List UInt8 := path.dropWhile (· = slash)

/-- The bytes up to the next slash. -/
def component (path : List UInt8) : List UInt8 := path.takeWhile (· ≠ slash)

/-- The loop of `ramfs_lookup_at`; a component longer than a name is looked up in pieces. Every round
takes a byte of the path, so its length bounds the rounds. -/
def lookupAtLoop (fs : Ramfs) : Nat → Nat → List UInt8 → Option Nat
  | 0, _, _ => none
  | n + 1, dir, path =>
    let name := Name.clip (component path)
    if name.bytes = [] then none
    else
      let path := skipSlash (path.drop name.bytes.length)
      if name.bytes = [dot] then if path = [] then some dir else lookupAtLoop fs n dir path
      else if name.bytes = [dot, dot] then
        let dir := (fs.parentOf dir).getD dir
        if path = [] then some dir else lookupAtLoop fs n dir path
      else
        match fs.findChild dir name with
        | none => none
        | some i => if path = [] then some i else if fs.isDir i then lookupAtLoop fs n i path else none

def lookupAt (fs : Ramfs) (dir : Nat) (path : List UInt8) : Option Nat :=
  if skipSlash path = [] then some dir else fs.lookupAtLoop path.length dir (skipSlash path)

/-- `ramfs_lookup`. -/
def lookup (fs : Ramfs) (path : List UInt8) : Option Nat :=
  if path.head? = some slash then fs.lookupAt rootIno path else none

/-- The loop of `ramfs_lookup_parent`: the directory reached, and the last component seen. A path that
ends in a slash is walked down to its last component. -/
def lookupParentLoop (fs : Ramfs) : Nat → Nat → Option (List UInt8) → List UInt8 → Option (Nat × Option (List UInt8))
  | 0, _, _, _ => none
  | n + 1, dir, last, path =>
    let path := skipSlash path
    if path = [] then some (dir, last)
    else
      let last := component path
      let rest := path.drop last.length
      if rest = [] then some (dir, some last)
      else
        let name := Name.clip last
        if name.bytes = [dot] then lookupParentLoop fs n dir (some last) rest
        else if name.bytes = [dot, dot] then lookupParentLoop fs n ((fs.parentOf dir).getD dir) (some last) rest
        else
          match fs.findChild dir name with
          | none => none
          | some i => if fs.isDir i then lookupParentLoop fs n i (some last) rest else none

/-- `ramfs_lookup_parent`. -/
def lookupParent (fs : Ramfs) (path : List UInt8) : Option (Nat × Name) :=
  match fs.lookupParentLoop (path.length + 1) rootIno none path with
  | none => none
  | some (_, none) => none
  | some (dir, some last) => if h : last ≠ [] ∧ last.length ≤ nameMax then some (dir, ⟨last, h.2⟩) else none

/-- `ramfs_create`. -/
def create (fs : Ramfs) (path : List UInt8) (mode : UInt16) : Except Errno (Option Nat) × Ramfs :=
  if path.head? ≠ some slash then (.error .inval, fs)
  else
    match fs.lookupParent path with
    | none => (.error .noent, fs)
    | some (dir, name) => fs.makeNode dir name .reg fun ri => ri.applyMode mode

end Ramfs

end MiniOs.Fs
