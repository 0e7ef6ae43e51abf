/-
`do_execve` of fs/exec.c, and what `load_elf_binary` of fs/binfmt.c does to files once the new image
stands. A call starts where the path is in kernel memory; whether the image can be loaded is a parameter.
-/
import MiniOs.Fs.Namei

namespace MiniOs.Fs

def maxExecArgs : Nat := 32
def maxExecArgLen : Nat := 256

/-! ## Strings of the caller -/

/-- The bytes of user memory. `copy_from_user` cannot fail; it does not return where the page tables refuse. -/
abbrev UserBytes := BitVec 64 → UInt8

/-- A little-endian word of `n` bytes. -/
def loadBytes (mem : UserBytes) (addr : BitVec 64) : Nat → Nat
  | 0 => 0
  | n + 1 => (mem addr).toNat + 256 * loadBytes mem (addr + 1#64) n

def copyOneUserPtr (mem : UserBytes) (list : BitVec 64) (i : Nat) : BitVec 64 :=
  BitVec.ofNat 64 (loadBytes mem (list + BitVec.ofNat 64 (i * 8)) 8)

/-- The loop of `strncpy_from_user`; no string when there was no end in `count` bytes. -/
def strncpyFromUser (mem : UserBytes) (src : BitVec 64) : Nat → Option (List UInt8)
  | 0 => none
  | count + 1 => if mem src = 0 then some [] else (strncpyFromUser mem (src + 1#64) count).map (mem src :: ·)

/-- `argv` or `envp`: a list in user memory, or one of the kernel. -/
inductive StrList
  | user (mem : UserBytes) (list : BitVec 64)
  | kernel (strs : List (List UInt8))

/-- The string of slot `i`; no string at the NULL that ends the list. -/
def StrList.fetch : StrList → Nat → Except Errno (Option (List UInt8))
  | .user mem list, i =>
    let ptr := copyOneUserPtr mem list i
    if ptr = 0#64 then .ok none
    else
      match strncpyFromUser mem ptr maxExecArgLen with
      | none => .error .toobig
      | some str => .ok (some str)
  | .kernel strs, i =>
    match strs[i]? with
    | none => .ok none
    | some str => if str.length < maxExecArgLen then .ok (some str) else .error .toobig

/-- The slot after the last string that is allowed holds NULL. -/
def StrList.ends : StrList → Nat → Except Errno Unit
  | .user mem list, i => if copyOneUserPtr mem list i = 0#64 then .ok () else .error .toobig
  | .kernel strs, i => if strs[i]?.isSome then .error .toobig else .ok ()

def StrList.copyLoop (list : StrList) : Nat → Nat → Except Errno (List (List UInt8))
  | 0, i => (list.ends i).map fun _ => []
  | n + 1, i =>
    match list.fetch i with
    | .error e => .error e
    | .ok none => .ok []
    | .ok (some str) => (list.copyLoop n (i + 1)).map (str :: ·)

def copyStrList (list : StrList) : Except Errno (List (List UInt8)) :=
  match list with
  | .user _ 0#64 => .ok []
  | list => list.copyLoop maxExecArgs 0

/-! ## The call -/

/-- Where `bprm->buf` points: to the bytes of a ramfs file, or to an address. -/
inductive Image
  | bytes (data : List UInt8)
  | addr (a : Nat)

/-- `struct linux_binprm`, as `do_execve` hands it on. -/
structure Binprm where
  buf : Image
  len : Nat
  filename : List UInt8
  argv : List (List UInt8)
  envp : List (List UInt8)

/-- What a call brings: the strings of the caller, how long the text of a procfs file is that the path may
name, and the outcome of `load_elf_binary` up to the point where the new image takes the place of the old
one. -/
structure ExecArgs where
  filename : List UInt8
  argv : StrList
  envp : StrList
  procLen : Nat
  load : Binprm → Except Errno Unit

namespace Vfs

/-- `ramfs_data` and the size of a regular file. In a procfs inode `ramfs_data` takes the length of the
text, which is also its size, for the pointer. -/
def imageOf (s : Vfs) (procLen : Nat) : InodeRef → Option Image × Nat
  | .ramfs i => (((s.fs.memory i).bind RamfsInode.data).map .bytes, ((s.fs.memory i).map RamfsInode.size).getD 0)
  | .proc _ => (if procLen = 0 then none else some (.addr procLen), procLen)

/-- The part of `do_execve` that fills in `bprm`. -/
def fillBinprm (s : Vfs) (inode : InodeRef) (a : ExecArgs) : Except Errno Binprm :=
  match s.imageOf a.procLen inode with
  | (none, _) => .error .noexec
  | (some buf, len) =>
    if len = 0 then .error .noexec
    else
      match copyStrList a.argv with
      | .error e => .error e
      | .ok argv =>
        match copyStrList a.envp with
        | .error e => .error e
        | .ok envp =>
          if argv ≠ [] then .ok ⟨buf, len, a.filename, argv, envp⟩
          else if a.filename.length < maxExecArgLen then .ok ⟨buf, len, a.filename, [a.filename], envp⟩
          else .error .toobig

/-- `do_execve` of task `p`. It does not return when the result is `.ok ()`: `load_elf_binary` has closed
the descriptors that are flagged, freed `bprm` and entered the new program. -/
def doExecve (s : Vfs) (p : Nat) (a : ExecArgs) : Except Errno Unit × Vfs :=
  if a.filename = [] then (.error .inval, s)
  else
    match s.vfsLookup p a.filename with
    | (none, s) => (.error .noent, s)
    | (some inode, s) =>
      if s.typeOf inode ≠ some .reg then (.error .noexec, s.iput inode)
      else
        match s.kmalloc with
        | (false, s) => (.error .nomem, s.iput inode)
        | (true, s) =>
          match s.fillBinprm inode a with
          | .error e => (.error e, s.iput inode)
          | .ok bprm =>
            match a.load bprm with
            | .error e => (.error e, s.iput inode)
            | .ok () => (.ok (), { s with files := s.files.closeOnExecFds p }.settle)

end Vfs

end MiniOs.Fs
