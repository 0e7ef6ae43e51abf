/-
Open files of fs/open.c and fs/pipe.c: descriptor tables, reference counts of `struct file`, and the
two ends of a pipe; with what fork, exec and exit of kernel/fork.c, fs/binfmt.c and kernel/exit.c do to
them. A `struct file` and a pipe are named by numbers in the order of their allocation. The inode type
is a parameter; a file only carries its inode and hands it to `iput` in the end.
-/
import MiniOs.Fs.Pipe
import Mathlib.Algebra.Ring.Nat
import Mathlib.Data.Fintype.Basic
import Mathlib.Data.List.FinRange

namespace MiniOs.Fs

open Function (update)

/-- `NR_OPEN`. -/
def nrOpen : Nat := 32

instance : NeZero nrOpen := ⟨by decide⟩

abbrev Fd := Fin nrOpen

def oWronly : BitVec 32 := 1
def oAccmode : BitVec 32 := 3
def oAppend : BitVec 32 := 0x400
def oNonblock : BitVec 32 := 0x800
def oAsync : BitVec 32 := 0x2000
def oCloexec : BitVec 32 := 0x80000

/-- `pipe` is `private_data` of a file whose operations are `pipe_read_ops` or `pipe_write_ops`. -/
structure File (ι : Type) where
  refcount : Int
  inode : Option ι
  pipe : Option Nat
  flags : BitVec 32

/-- `(f_flags & O_ACCMODE) == O_RDONLY`. -/
def File.isRdonly {ι : Type} (file : File ι) : Bool := file.flags &&& oAccmode == 0#32

/-- `files` and `close_on_exec` of a task. -/
structure FdTable where
  slots : Fd → Option Nat
  closeOnExec : Fd → Bool

/-- All open files. `table` has the tasks that have not exited; `allocs` are the outcomes of the coming
calls of kmalloc (past its end they succeed); `freedFiles` and `freedPipes` are what was handed to kfree
and `iputs` what was handed to `iput`, in order. -/
structure Files (ι : Type) where
  file : Nat → Option (File ι)
  nextFile : Nat
  pipe : Nat → Option Pipe
  nextPipe : Nat
  table : Nat → Option FdTable
  nextPid : Nat
  allocs : List Bool
  freedFiles : List Nat
  freedPipes : List Nat
  iputs : List ι

namespace Files

variable {ι : Type}

/-- The number of `uart_file`, which is static. -/
def uartFile : Nat := 0

def setFile (s : Files ι) (f : Nat) (file : File ι) : Files ι := { s with file := update s.file f (some file) }

def modifyFile (s : Files ι) (f : Nat) (g : File ι → File ι) : Files ι :=
  { s with file := update s.file f ((s.file f).map g) }

def slot (s : Files ι) (p : Nat) (fd : Fd) : Option Nat := (s.table p).bind fun t => t.slots fd

def setSlot (s : Files ι) (p : Nat) (fd : Fd) (v : Option Nat) : Files ι :=
  { s with table := update s.table p ((s.table p).map fun t => { t with slots := update t.slots fd v }) }

def setCloseOnExec (s : Files ι) (p : Nat) (fd : Fd) (on : Bool) : Files ι :=
  { s with
    table := update s.table p
      ((s.table p).map fun t => { t with closeOnExec := update t.closeOnExec fd on }) }

def kmalloc (s : Files ι) : Bool × Files ι :=
  match s.allocs with
  | [] => (true, s)
  | ok :: rest => (ok, { s with allocs := rest })

def kfreeFile (s : Files ι) (f : Nat) : Files ι :=
  { s with file := update s.file f none, freedFiles := s.freedFiles ++ [f] }

def kfreePipe (s : Files ι) (p : Nat) : Files ι :=
  { s with pipe := update s.pipe p none, freedPipes := s.freedPipes ++ [p] }

/-! ## References -/

def getFile (s : Files ι) (f : Nat) : Files ι := s.modifyFile f fun file => { file with refcount := file.refcount + 1 }

/-- The counters and the kfree of `pipe_release`. -/
def pipeRelease (s : Files ι) (file : File ι) : Files ι :=
  match file.pipe with
  | none => s
  | some p =>
    match s.pipe p with
    | none => s
    | some pipe =>
      let pipe := pipe.release file.isRdonly
      if pipe.readers = 0 ∧ pipe.writers = 0 then s.kfreePipe p
      else { s with pipe := update s.pipe p (some pipe) }

def fput (s : Files ι) (f : Nat) : Files ι :=
  match s.file f with
  | none => s
  | some file =>
    let file := { file with refcount := file.refcount - 1 }
    if file.refcount > 0 then s.setFile f file
    else
      let s := s.pipeRelease file
      let s := { s with iputs := s.iputs ++ file.inode.toList }
      if f = uartFile then s.setFile f { file with inode := none } else s.kfreeFile f

def allocFile (s : Files ι) : Option Nat × Files ι :=
  match s.kmalloc with
  | (false, s) => (none, s)
  | (true, s) => (some s.nextFile, { s.setFile s.nextFile ⟨1, none, none, 0⟩ with nextFile := s.nextFile + 1 })

/-! ## Descriptors -/

/-- The loop of `install_fd`, which starts at 0, and of `install_fd_min`; `none` is `-EMFILE`. -/
def installFdFrom (s : Files ι) (p f minfd : Nat) : Option Fd × Files ι :=
  match (List.finRange nrOpen).find? fun fd : Fd => decide (minfd ≤ fd.val) && (s.slot p fd).isNone with
  | none => (none, s)
  | some fd => (some fd, (s.setSlot p fd (some f)).setCloseOnExec p fd false)

def installFd (s : Files ι) (p f : Nat) : Option Fd × Files ι := s.installFdFrom p f 0

def installFdFlags (s : Files ι) (p f : Nat) (flags : BitVec 32) : Option Fd × Files ι :=
  match s.installFd p f with
  | (none, s) => (none, s)
  | (some fd, s) => (some fd, if flags &&& oCloexec ≠ 0 then s.setCloseOnExec p fd true else s)

/-- The file in a slot the user names. -/
def lookupFd (s : Files ι) (p fd : Nat) : Option (Fd × Nat) :=
  if h : fd < nrOpen then (s.slot p ⟨fd, h⟩).map (⟨fd, h⟩, ·) else none

def closeFd (s : Files ι) (p fd : Nat) : Except Errno Nat × Files ι :=
  match s.lookupFd p fd with
  | none => (.error .badf, s)
  | some (fd, f) => (.ok 0, (s.setSlot p fd none).fput f)

/-- The end of `ksys_openat`: a file for the inode that was found, in the first free slot. `onFail` is
what a failing `alloc_file` is reported as, `-ENOMEM` but for some devices. -/
def openFile (s : Files ι) (p : Nat) (inode : ι) (flags : BitVec 32) (onFail : Errno) : Except Errno Nat × Files ι :=
  match s.allocFile with
  | (none, s) => (.error onFail, { s with iputs := s.iputs ++ [inode] })
  | (some f, s) =>
    let s := s.modifyFile f fun file => { file with inode := some inode, flags := flags }
    match s.installFdFlags p f flags with
    | (none, s) => (.error .mfile, s.fput f)
    | (some fd, s) => (.ok fd, s)

def dup (s : Files ι) (p oldfd : Nat) : Except Errno Nat × Files ι :=
  match s.lookupFd p oldfd with
  | none => (.error .badf, s)
  | some (_, f) =>
    match (s.getFile f).installFd p f with
    | (none, s) => (.error .mfile, s.fput f)
    | (some fd, s) => (.ok fd, s)

def dup3 (s : Files ι) (p oldfd newfd : Nat) (flags : BitVec 32) : Except Errno Nat × Files ι :=
  if flags &&& ~~~oCloexec ≠ 0 then (.error .inval, s)
  else if oldfd = newfd then (.error .inval, s)
  else if h : newfd < nrOpen then
    match s.lookupFd p oldfd with
    | none => (.error .badf, s)
    | some (_, f) =>
      let s := s.getFile f
      let oldNew := s.slot p ⟨newfd, h⟩
      let s := s.setSlot p ⟨newfd, h⟩ (some f)
      let s := match oldNew with
        | none => s
        | some g => s.fput g
      (.ok newfd, s.setCloseOnExec p ⟨newfd, h⟩ (flags &&& oCloexec ≠ 0))
  else (.error .badf, s)

inductive FcntlCmd
  | dupfd (minfd : Nat)
  | dupfdCloexec (minfd : Nat)
  | getfd
  | setfd (arg : BitVec 64)
  | getfl
  | setfl (arg : BitVec 32)
  | other

/-- `F_DUPFD` and `F_DUPFD_CLOEXEC`. -/
def dupfd (s : Files ι) (p f minfd : Nat) (cloexec : Bool) : Except Errno Nat × Files ι :=
  if nrOpen ≤ minfd then (.error .inval, s)
  else
    match (s.getFile f).installFdFrom p f minfd with
    | (none, s) => (.error .mfile, s.fput f)
    | (some fd, s) => (.ok fd, s.setCloseOnExec p fd cloexec)

def fcntl (s : Files ι) (p fd : Nat) (cmd : FcntlCmd) : Except Errno Nat × Files ι :=
  match s.lookupFd p fd with
  | none => (.error .badf, s)
  | some (fd, f) =>
    match cmd with
    | .dupfd minfd => s.dupfd p f minfd false
    | .dupfdCloexec minfd => s.dupfd p f minfd true
    | .getfd => (.ok (if (s.table p).any fun t => t.closeOnExec fd then 1 else 0), s)
    | .setfd arg =>
      if arg &&& ~~~1#64 ≠ 0 then (.error .inval, s) else (.ok 0, s.setCloseOnExec p fd (arg &&& 1#64 ≠ 0))
    | .getfl => (.ok (((s.file f).map fun file => file.flags.toNat).getD 0), s)
    | .setfl arg =>
      let mask := oAppend ||| oNonblock ||| oAsync
      (.ok 0, s.modifyFile f fun file => { file with flags := file.flags &&& ~~~mask ||| arg &&& mask })
    | .other => (.error .inval, s)

/-! ## Pipes -/

/-- Clearing slots and dropping both ends, on the ways out of `ksys_pipe2`. -/
def dropEnds (s : Files ι) (p r w : Nat) (fds : List Fd) : Files ι :=
  ((fds.foldl (fun s fd => s.setSlot p fd none) s).fput r).fput w

/-- The part of `ksys_pipe2` after both files have been set up; `copy_to_user` cannot fail. -/
def installPipe (s : Files ι) (p r w : Nat) (flags : BitVec 32) : Except Errno Nat × Files ι :=
  match s.installFd p r with
  | (none, s) => (.error .mfile, s.dropEnds p r w [])
  | (some fd0, s) =>
    match s.installFd p w with
    | (none, s) => (.error .mfile, s.dropEnds p r w [fd0])
    | (some fd1, s) =>
      (.ok 0, if flags &&& oCloexec ≠ 0 then (s.setCloseOnExec p fd0 true).setCloseOnExec p fd1 true else s)

/-- The two files become the ends of pipe `q`. -/
def attachEnds (s : Files ι) (q r w : Nat) (flags : BitVec 32) : Files ι :=
  (s.modifyFile r fun file => { file with pipe := some q, flags := flags &&& oNonblock }).modifyFile w
    fun file => { file with pipe := some q, flags := oWronly ||| flags &&& oNonblock }

def allocPipe (s : Files ι) (buf : Nat → UInt8) : Option Nat × Files ι :=
  match s.kmalloc with
  | (false, s) => (none, s)
  | (true, s) =>
    (some s.nextPipe, { s with pipe := update s.pipe s.nextPipe (some (.create buf)), nextPipe := s.nextPipe + 1 })

/-- `ksys_pipe2`; `null` says that the user gave no array, `buf` is what the pipe's memory held before. -/
def pipe2 (s : Files ι) (p : Nat) (flags : BitVec 32) (buf : Nat → UInt8) (null : Bool) :
    Except Errno Nat × Files ι :=
  if null then (.error .fault, s)
  else if flags &&& ~~~(oCloexec ||| oNonblock) ≠ 0 then (.error .inval, s)
  else
    match s.allocPipe buf with
    | (none, s) => (.error .nomem, s)
    | (some q, s) =>
      match s.allocFile with
      | (none, s) => (.error .nomem, s.kfreePipe q)
      | (some r, s) =>
        match s.allocFile with
        | (none, s) => (.error .nomem, (s.fput r).kfreePipe q)
        | (some w, s) => (s.attachEnds q r w flags).installPipe p r w flags

/-! ## Tasks -/

/-- One round of the loop of `copy_task_files`. -/
def copySlot (child parent : Nat) (s : Files ι) (fd : Fd) : Files ι :=
  match s.slot parent fd with
  | none => s.setSlot child fd none
  | some f => (s.setSlot child fd (some f)).getFile f

/-- `copy_task_files`, for a child whose slots `task_zero` has cleared. -/
def copyTaskFiles (s : Files ι) (child parent : Nat) : Files ι :=
  let cloexec := ((s.table parent).map FdTable.closeOnExec).getD fun _ => false
  let s := { s with table := update s.table child (some ⟨fun _ => none, cloexec⟩) }
  (List.finRange nrOpen).foldl (copySlot child parent) s

def fork (s : Files ι) (parent : Nat) : Files ι :=
  { s with nextPid := s.nextPid + 1 }.copyTaskFiles s.nextPid parent

/-- One round of the loop of `exit_files`. -/
def exitSlot (p : Nat) (s : Files ι) (fd : Fd) : Files ι :=
  match s.slot p fd with
  | none => s
  | some f => (s.fput f).setSlot p fd none

def exitFiles (s : Files ι) (p : Nat) : Files ι := (List.finRange nrOpen).foldl (exitSlot p) s

/-- `do_exit`: the task has no descriptors any more. -/
def exit (s : Files ι) (p : Nat) : Files ι :=
  let s := s.exitFiles p
  { s with table := update s.table p none }

/-- One round of the loop of `close_on_exec_fds`. -/
def execSlot (p : Nat) (s : Files ι) (fd : Fd) : Files ι :=
  if (s.table p).any fun t => t.closeOnExec fd then (s.exitSlot p fd).setCloseOnExec p fd false else s

def closeOnExecFds (s : Files ι) (p : Nat) : Files ι := (List.finRange nrOpen).foldl (execSlot p) s

/-! ## Runs -/

/-- Init, after `init_stdio`. -/
def init (ι : Type) (allocs : List Bool) : Files ι :=
  let uart : File ι := ⟨0, none, none, 0⟩
  let s : Files ι :=
    ⟨update (fun _ => none) uartFile (some uart), 1, fun _ => none, 0,
      update (fun _ => none) 1 (some ⟨fun _ => none, fun _ => false⟩), 2, allocs, [], [], []⟩
  ((((((s.getFile uartFile).setSlot 1 0 (some uartFile)).getFile uartFile).setSlot 1 1 (some uartFile)).getFile
    uartFile).setSlot 1 2 (some uartFile))

/-- A system call of task `p`. `openat` comes with what its lookup found: nothing, or an inode. -/
inductive Call (ι : Type)
  | openat (p : Nat) (found : Option ι) (flags : BitVec 32) (onFail : Errno)
  | pipe2 (p : Nat) (flags : BitVec 32) (buf : Nat → UInt8) (null : Bool)
  | close (p fd : Nat)
  | dup (p oldfd : Nat)
  | dup3 (p oldfd newfd : Nat) (flags : BitVec 32)
  | fcntl (p fd : Nat) (cmd : FcntlCmd)
  | fork (p : Nat) (ok : Bool)
  | execve (p : Nat) (ok : Bool)
  | exit (p : Nat)

def Call.pid : Call ι → Nat
  | openat p _ _ _ | pipe2 p _ _ _ | close p _ | dup p _ | dup3 p _ _ _ | fcntl p _ _ | fork p _ | execve p _ |
    exit p => p

/-- What a call does to the open files; `ok` is false for a fork or exec that fails before it touches them. -/
def exec (s : Files ι) : Call ι → Files ι
  | .openat _ none _ _ => s
  | .openat p (some inode) flags onFail => (s.openFile p inode flags onFail).2
  | .pipe2 p flags buf null => (s.pipe2 p flags buf null).2
  | .close p fd => (s.closeFd p fd).2
  | .dup p oldfd => (s.dup p oldfd).2
  | .dup3 p oldfd newfd flags => (s.dup3 p oldfd newfd flags).2
  | .fcntl p fd cmd => (s.fcntl p fd cmd).2
  | .fork p ok => if ok then s.fork p else s
  | .execve p ok => if ok then s.closeOnExecFds p else s
  | .exit p => s.exit p

/-- One call of a task that has not exited. -/
def step (s : Files ι) (c : Call ι) : Option (Files ι) := if (s.table c.pid).isSome then some (s.exec c) else none

end Files

end MiniOs.Fs
