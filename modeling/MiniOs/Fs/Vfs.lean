/-
The layer over ramfs: the inodes of fs/procfs.c, the dentry cache of fs/dcache.c with the working
directories of the tasks, and `vfs_lookup`. A dentry and a procfs inode are named by numbers in the
order of their allocation; dentry 0 is the root.
-/
import MiniOs.Fs.Files
import MiniOs.Fs.RamfsPath

namespace MiniOs.Fs

open Function

/-- A pointer to a `struct inode`, of ramfs or of procfs. -/
inductive InodeRef
  | ramfs (i : Nat)
  | proc (j : Nat)
  deriving DecidableEq, Repr

/-- `PROC_KIND_*`. -/
inductive ProcKind
  | dir | stat | cmdline
  deriving DecidableEq, Repr

/-- `struct proc_inode`. It is not `I_PERSISTENT`, so its links do not count. -/
structure ProcInode where
  pid : Nat
  kind : ProcKind
  iCount : Nat

/-- `struct dentry` in the cache; `children` is the list that starts at `child`. -/
structure Dentry where
  name : Name
  inode : Nat
  parent : Option Nat
  children : List Nat

/-- What happens to inodes of ramfs that are freed: the references that `iget` counts in their memory, and those that
`iput` has handed to kfree once more. -/
structure Stray where
  count : Nat → Nat
  freed : List Nat

def Stray.iget (x : Stray) (i : Nat) : Stray := { x with count := update x.count i (x.count i + 1) }

/-- The link counter of a freed inode is 0. -/
def Stray.iput (x : Stray) (i : Nat) : Stray :=
  if x.count i = 0 then x
  else ⟨update x.count i (x.count i - 1), if x.count i = 1 then i :: x.freed else x.freed⟩

/-- `tasks` are those `proc_find_task` finds. `stale` are the numbers under which ramfs sees procfs
inodes that its entries lead to, and `allocs` the outcomes of the coming calls of kmalloc (past its end
they succeed). -/
structure Vfs where
  fs : Ramfs
  files : Files InodeRef
  dentries : Nat → Option Dentry
  nextDentry : Nat
  cwd : Nat → Option Nat
  tasks : Nat → Bool
  procRoot : Option Nat
  procs : Nat → Option ProcInode
  nextProc : Nat
  stale : List Nat
  allocs : List Bool
  stray : Stray

/-- The number of `root_dentry`. -/
def rootDentry : Nat := 0

namespace Vfs

def kmalloc (s : Vfs) : Bool × Vfs :=
  match s.allocs with
  | [] => (true, s)
  | ok :: rest => (ok, { s with allocs := rest })

/-! ## Inodes -/

def iget (s : Vfs) : InodeRef → Vfs
  | .ramfs i => { s with fs := s.fs.iget i, stray := if (s.fs.inodes i).isSome then s.stray else s.stray.iget i }
  | .proc j =>
    { s with procs := update s.procs j ((s.procs j).map fun pi => { pi with iCount := pi.iCount + 1 }) }

/-- `iput`; the last one of a procfs inode runs `proc_i_free`. -/
def iput (s : Vfs) : InodeRef → Vfs
  | .ramfs i => { s with fs := s.fs.iput i, stray := if (s.fs.inodes i).isSome then s.stray else s.stray.iput i }
  | .proc j =>
    match s.procs j with
    | none => s
    | some pi =>
      if pi.iCount = 0 then s
      else
        { s with
          procs := update s.procs j
            (if pi.iCount = 1 then none else some { pi with iCount := pi.iCount - 1 }) }

/-- `inode->type`. -/
def typeOf (s : Vfs) : InodeRef → Option FileType
  | .ramfs i => (s.fs.memory i).map RamfsInode.type
  | .proc j => (s.procs j).map fun pi => if pi.kind = .dir then .dir else .reg

/-- `inode_is_dir`. -/
def isDir (s : Vfs) (inode : InodeRef) : Bool := s.typeOf inode = some .dir

/-! ## procfs -/

def procDir : List UInt8 := [47, 112, 114, 111, 99]
def selfName : List UInt8 := [115, 101, 108, 102]
def statName : List UInt8 := [115, 116, 97, 116]
def cmdlineName : List UInt8 := [99, 109, 100, 108, 105, 110, 101]

/-- The digits of `parse_pid`. -/
def parseDigits : Nat → List UInt8 → Option Nat
  | v, [] => if v = 0 then none else some v
  | v, c :: cs =>
    if c < 48 ∨ c > 57 then none
    else
      let v := v * 10 + (c.toNat - 48)
      if v > 0x7fffffff then none else parseDigits v cs

def parsePid (current : Nat) (name : List UInt8) : Option Nat :=
  if name = selfName then some current else parseDigits 0 name

/-- What the end of a path under `/proc/<pid>` asks for. -/
def procKind (rest : List UInt8) : Option ProcKind :=
  if rest = [] ∨ rest = [slash] then some .dir
  else if rest = slash :: statName ∨ rest = slash :: statName ++ [slash] then some .stat
  else if rest = slash :: cmdlineName ∨ rest = slash :: cmdlineName ++ [slash] then some .cmdline
  else none

def procAlloc (s : Vfs) (pid : Nat) (kind : ProcKind) : Option InodeRef × Vfs :=
  if ¬ s.tasks pid then (none, s)
  else
    match s.kmalloc with
    | (false, s) => (none, s)
    | (true, s) =>
      (some (.proc s.nextProc),
        { s with procs := update s.procs s.nextProc (some ⟨pid, kind, 0⟩), nextProc := s.nextProc + 1 })

/-- `proc_lookup` for the task `current`. -/
def procLookup (s : Vfs) (current : Nat) (path : List UInt8) : Option InodeRef × Vfs :=
  if path = procDir ∨ path = procDir ++ [slash] then (s.procRoot.map .ramfs, s)
  else if path.take 6 ≠ procDir ++ [slash] then (none, s)
  else
    let name := (Ramfs.component (path.drop 6)).take 31
    if name = [] then (s.procRoot.map .ramfs, s)
    else
      match parsePid current name with
      | none => (none, s)
      | some pid =>
        match procKind (path.drop (6 + name.length)) with
        | none => (none, s)
        | some kind => s.procAlloc pid kind

/-- The path is `/proc` or starts with `/proc/`. -/
def underProc (path : List UInt8) : Bool :=
    path.take 5 = procDir && (path.length = 5 || path.take 6 = procDir ++ [slash])

/-- The part of `vfs_lookup` before the links are followed. -/
def procPart (s : Vfs) (current : Nat) (path : List UInt8) : Option InodeRef × Vfs :=
  if underProc path then s.procLookup current path else (none, s)

def vfsLookup (s : Vfs) (current : Nat) (path : List UInt8) : Option InodeRef × Vfs :=
  match s.procPart current path with
  | (some inode, s) => (some inode, s.iget inode)
  | (none, s) =>
    match s.fs.follow 8 (strCopy path) with
    | none => (none, s)
    | some i => (some (.ramfs i), s.iget (.ramfs i))

/-! ## Dentries -/

def modifyDentry (s : Vfs) (d : Nat) (f : Dentry → Dentry) : Vfs :=
  { s with dentries := update s.dentries d ((s.dentries d).map f) }

/-- `d->inode`; no inode has the number 0. -/
def inodeOf (s : Vfs) (d : Nat) : Nat := ((s.dentries d).map Dentry.inode).getD 0

def parentOf (s : Vfs) (d : Nat) : Option Nat := (s.dentries d).bind Dentry.parent

def childrenOf (s : Vfs) (d : Nat) : List Nat := ((s.dentries d).map Dentry.children).getD []

def hasName (s : Vfs) (name : Name) (d : Nat) : Bool := (s.dentries d).any fun x => x.name = name

def dFindChild (s : Vfs) (parent : Nat) (name : Name) : Option Nat := (s.childrenOf parent).find? (s.hasName name)

/-- The stores of `d_alloc` once it has its memory, and `d_add`: a new first child. -/
def dAdd (s : Vfs) (parent : Nat) (name : Name) (inode : Nat) : Vfs :=
  { s with
    dentries := update s.dentries s.nextDentry (some ⟨name, inode, some parent, []⟩)
    nextDentry := s.nextDentry + 1 }.modifyDentry parent fun x => { x with children := s.nextDentry :: x.children }

def dUnlink (s : Vfs) (d : Nat) : Vfs :=
  match s.parentOf d with
  | none => s
  | some q => s.modifyDentry q fun x => { x with children := x.children.erase d }

def cwdFix (s : Vfs) (old neu : Nat) : Vfs :=
  { s with cwd := fun p => if s.cwd p = some old then some neu else s.cwd p }

def dMove (s : Vfs) (d newParent : Nat) (name : Name) : Vfs :=
  if d = rootDentry then s
  else
    ((s.dUnlink d).modifyDentry d fun x => { x with name := name, parent := some newParent }).modifyDentry newParent
      fun x => { x with children := d :: x.children }

def dDrop (s : Vfs) (d : Nat) : Vfs :=
  if d = rootDentry then s
  else
    let s := (s.cwdFix d ((s.parentOf d).getD rootDentry)).dUnlink d
    { s with dentries := update s.dentries d none }

/-- The child of a dentry with a name, entered into the cache when ramfs has it. -/
def dStep (s : Vfs) (d : Nat) (name : Name) : Option Nat × Vfs :=
  match s.dFindChild d name with
  | some c => (some c, s)
  | none =>
    match s.fs.findChild (s.inodeOf d) name with
    | none => (none, s)
    | some i =>
      match s.kmalloc with
      | (false, s) => (none, s)
      | (true, s) => (some s.nextDentry, s.dAdd d name i)

/-- The loop of `d_lookup_path`. Every round takes a byte of the path, so its length bounds the rounds. -/
def dLookupLoop : Nat → Vfs → Nat → List UInt8 → Option Nat × Vfs
  | 0, s, _, _ => (none, s)
  | n + 1, s, d, path =>
    let path := Ramfs.skipSlash path
    if path = [] then (some d, s)
    else
      let comp := Ramfs.component path
      let path := path.drop comp.length
      if h : comp.length ≤ nameMax then
        if comp = [dot] then dLookupLoop n s d path
        else if comp = [dot, dot] then dLookupLoop n s ((s.parentOf d).getD d) path
        else
          match s.dStep d ⟨comp, h⟩ with
          | (none, s) => (none, s)
          | (some c, s) => dLookupLoop n s c path
      else (none, s)

def dLookupPath (s : Vfs) (path : List UInt8) : Option Nat × Vfs :=
  if path.head? ≠ some slash then (none, s) else dLookupLoop (path.length + 1) s rootDentry path

end Vfs

end MiniOs.Fs
