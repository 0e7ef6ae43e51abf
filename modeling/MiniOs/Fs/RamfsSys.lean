/-
Runs of ramfs: its inode operations called in any order on live inodes, alone or among users who
take and drop references to inodes.
-/
import MiniOs.Fs.Ramfs

namespace MiniOs.Fs

/-- A call of one of the inode operations of ramfs, or of `ramfs_create`. -/
inductive RamfsOp
  | mkdir (dir : Nat) (name : Name) (mode : UInt16)
  | mknod (dir : Nat) (name : Name) (mode : UInt16) (rdev : Nat)
  | create (path : List UInt8) (mode : UInt16)
  | symlink (dir : Nat) (name : Name) (target : List UInt8)
  | link (old : Nat) (dir : Nat) (name : Name)
  | unlink (dir : Nat) (name : Name)
  | rmdir (dir : Nat) (name : Name)
  | rename (oldDir : Nat) (oldName : Name) (newDir : Nat) (newName : Name)

/-- The inodes a call is given pointers to. -/
def RamfsOp.args : RamfsOp → List Nat
  | mkdir dir _ _ => [dir]
  | mknod dir _ _ _ => [dir]
  | create _ _ => []
  | symlink dir _ _ => [dir]
  | link old dir _ => [old, dir]
  | unlink dir _ => [dir]
  | rmdir dir _ => [dir]
  | rename oldDir _ newDir _ => [oldDir, newDir]

/-- The directory a call would enter a name into. -/
def RamfsOp.enters : RamfsOp → Option Nat
  | mkdir dir _ _ => some dir
  | mknod dir _ _ _ => some dir
  | create _ _ => none
  | symlink dir _ _ => some dir
  | link _ dir _ => some dir
  | unlink _ _ => none
  | rmdir _ _ => none
  | rename _ _ newDir _ => some newDir

namespace Ramfs

/-- The result of a call, without the inode it stores, and the state after it; nothing when it does not
return. -/
def call (fs : Ramfs) : RamfsOp → Option (Except Errno Unit × Ramfs)
  | .mkdir dir name mode => some ((fs.inodeMkdir dir name mode).map (Except.map fun _ => ()) id)
  | .mknod dir name mode rdev => some ((fs.inodeMknod dir name mode rdev).map (Except.map fun _ => ()) id)
  | .create path mode => some ((fs.create path mode).map (Except.map fun _ => ()) id)
  | .symlink dir name target => some ((fs.inodeSymlink dir name target).map (Except.map fun _ => ()) id)
  | .link old dir name => some ((fs.inodeLink old dir name).map (Except.map fun _ => ()) id)
  | .unlink dir name => some ((fs.inodeUnlink dir name).map (Except.map fun _ => ()) id)
  | .rmdir dir name => some ((fs.inodeRmdir dir name).map (Except.map fun _ => ()) id)
  | .rename oldDir oldName newDir newName => fs.inodeRename oldDir oldName newDir newName

/-- The state after a call. -/
def exec (fs : Ramfs) (op : RamfsOp) : Option Ramfs := (fs.call op).map Prod.snd

/-- The pointers of a call lead to live inodes. -/
def ready (fs : Ramfs) (op : RamfsOp) : Bool := op.args.all fun i => (fs.inodes i).isSome

def step (fs : Ramfs) (op : RamfsOp) : Option Ramfs := if fs.ready op then fs.exec op else none

/-- A directory that was removed and is still held by a user. -/
def removed (fs : Ramfs) (i : Nat) : Bool :=
  match fs.inodes i with
  | none => false
  | some ri => ri.nlink = 0

end Ramfs

/-- Ramfs with its users: `refs` counts the references they hold on each inode. -/
structure HeldRamfs where
  fs : Ramfs
  refs : Nat → Nat

namespace HeldRamfs

def init (allocs : List Bool) : HeldRamfs := ⟨Ramfs.init allocs, fun _ => 0⟩

inductive Act
  | op (op : RamfsOp)
  | iget (i : Nat)
  | iput (i : Nat)

/-- A user takes a reference to a live inode, drops one that it holds, or calls an operation. -/
def step (s : HeldRamfs) : Act → Option HeldRamfs
  | .op op => (s.fs.step op).map fun fs => { s with fs := fs }
  | .iget i =>
    if (s.fs.inodes i).isSome then some ⟨s.fs.iget i, Function.update s.refs i (s.refs i + 1)⟩ else none
  | .iput i => if s.refs i ≠ 0 then some ⟨s.fs.iput i, Function.update s.refs i (s.refs i - 1)⟩ else none

/-- An operation that would enter a name into a removed directory. -/
def revives (s : HeldRamfs) : Act → Bool
  | .op op => op.enters.any s.fs.removed
  | _ => false

/-- The steps that enter no name into a removed directory. -/
def stepLinked (s : HeldRamfs) (a : Act) : Option HeldRamfs := if s.revives a then none else s.step a

end HeldRamfs

end MiniOs.Fs
