/-
fs/initramfs.c: the unpacking of a cpio archive ("newc") into ramfs. What a pointer into the archive sees
are the bytes from it to the end of the archive. A read behind the end, a store outside of a local buffer
and a loop that does not end are `none`.
-/
import MiniOs.Fs.RamfsFile
import MiniOs.Fs.RamfsPath
import MiniOs.Mm.PageAlloc
import Mathlib.Data.List.DropRight

namespace MiniOs.Fs

open Library
open Mm (kernelVirtBase virtMemEnd)

/-! ## Files -/

/-- The file that an inode is. -/
def RamfsInode.file (ri : RamfsInode) : FileData :=
  ⟨ri.type, ri.size, ri.data.map fun l i => (l[i]?).getD 0, ri.capacity⟩

def RamfsInode.setFile (ri : RamfsInode) (f : FileData) : RamfsInode :=
  { ri with size := f.size, data := f.data.map fun b => b.bytes f.capacity, capacity := f.capacity }

/-- `ramfs_write`; `mem` is what a buffer of `ramfs_kmalloc` holds. Its loop takes at most 64 rounds, or does
not end. -/
def Ramfs.write (fs : Ramfs) (i : Nat) (buf : List UInt8) (offset : Nat) (mem : Buffer) :
    Option (Except Errno Nat × Ramfs) :=
  match fs.inodes i with
  | none => some (.error .inval, fs)
  | some ri =>
    let fin := (offset + buf.length) % 2 ^ 64
    -- `ramfs_kmalloc` is called when the file has to grow
    let grows : Bool := ri.type = .reg && offset ≤ fin && ri.capacity < fin
    let (ok, fs) := if grows then fs.kmalloc else (true, fs)
    (ri.file.write 64 buf offset (if ok then some mem else none)).map fun r => (r.1, fs.set i (ri.setFile r.2))

/-! ## The archive -/

/-- The bytes that `data` and `size` describe, in the memory of the kernel. -/
structure Archive where
  base : Nat
  bytes : List UInt8
  mapped : kernelVirtBase ≤ base
  fits : base + bytes.length ≤ virtMemEnd

/-- `p + n` for a pointer. -/
def advance (p n : Nat) : Nat := (p + n) % 2 ^ 64

/-- `cpio_align_up_ptr`. -/
def cpioAlignUpPtr (p : Nat) : Nat := (p + 3) % 2 ^ 64 / 4 * 4

/-- `CPIO_HDR_SIZE`. -/
def cpioHdrSize : Nat := 110

def cpioDigit (c : UInt8) : Nat :=
  if 48 ≤ c ∧ c ≤ 57 then c.toNat - 48
  else if 97 ≤ c ∧ c ≤ 102 then c.toNat - 97 + 10
  else if 65 ≤ c ∧ c ≤ 70 then c.toNat - 65 + 10
  else 0

/-- `cpio_hex`, with what it has so far. -/
def cpioHex : Nat → List UInt8 → Nat → Option Nat
  | 0, _, v => some v
  | _ + 1, [], _ => none
  | n + 1, c :: s, v => cpioHex n s (v * 16 + cpioDigit c)

/-- `cpio_streq` with a literal. -/
def cpioStreq : List UInt8 → List UInt8 → Option Bool
  | [], _ => none
  | c :: _, [] => some (c = 0)
  | c :: a, x :: b => if c ≠ 0 ∧ c = x then cpioStreq a b else some (c = x)

/-- The test of the magic number. -/
def cpioMagic : List UInt8 → Option Bool
  | h0 :: h1 :: h2 :: h3 :: h4 :: h5 :: _ => some (h0 = 48 ∧ h1 = 55 ∧ h2 = 48 ∧ h3 = 55 ∧ h4 = 48 ∧
    (h5 = 49 ∨ h5 = 50))
  | _ => none

/-- An entry whose header has been read: pointers to its name, its payload and the next header. -/
structure CpioEntry where
  name : Nat
  filesize : Nat
  mode : Nat
  payload : Nat
  next : Nat

/-- What stands at a pointer: no more headers, none that is valid, or one. -/
inductive Header
  | done
  | bad
  | entry (e : CpioEntry)

namespace Archive

/-- `end`. -/
def fin (a : Archive) : Nat := a.base + a.bytes.length

/-- The bytes from a pointer on. -/
def rest (a : Archive) (p : Nat) : List UInt8 := a.bytes.drop (p - a.base)

/-- The first part of a round of `unpack_to_rootfs`. -/
def header (a : Archive) (p : Nat) : Option Header :=
  if ¬ advance p cpioHdrSize ≤ a.fin then some .done
  else do
    let hdr := a.rest p
    if ¬ (← cpioMagic hdr) then return .bad
    let namesize ← cpioHex 8 (hdr.drop 94) 0
    let filesize ← cpioHex 8 (hdr.drop 54) 0
    let mode ← cpioHex 8 (hdr.drop 14) 0
    let name := advance p cpioHdrSize
    if advance name namesize > a.fin then return .bad
    if namesize = 0 then return .bad
    let payload := cpioAlignUpPtr (advance name namesize)
    if payload > a.fin then return .bad
    let next := cpioAlignUpPtr (advance payload filesize)
    if next > a.fin then return .bad
    return .entry ⟨name, filesize, mode, payload, next⟩

end Archive

/-! ## Strings in local buffers -/

/-- One more byte of a string in a buffer of `cap` bytes. -/
def put (cap : Nat) (out : List UInt8) (c : UInt8) : Option (List UInt8) :=
  if out.length < cap then some (out ++ [c]) else none

/-- The NUL behind the string. -/
def terminate (cap : Nat) (out : List UInt8) : Option (List UInt8) := if out.length < cap then some out else none

/-- The size of `path`, `pdir` and `partial`. -/
def pathCap : Nat := nameMax + 2

def normalizeLoop (cap : Nat) : List UInt8 → List UInt8 → Option (Except Errno (List UInt8))
  | [], _ => none
  | c :: name, out =>
    if c = 0 then (terminate cap out).map .ok
    else if out.length + 1 ≥ cap then some (.error .inval)
    else (put cap out c).bind (normalizeLoop cap name)

def pathNormalize (name : List UInt8) (cap : Nat) : Option (Except Errno (List UInt8)) := do
  let out ← put cap [] slash
  match name with
  | [] => none
  | c :: name =>
    if c ≠ dot then normalizeLoop cap (c :: name) out
    else
      match name with
      | [] => none
      | d :: rest => normalizeLoop cap (if d = slash then rest else d :: rest) out

/-- The loop of `parent_dir` that looks for the last slash. -/
def lastSlash (path : List UInt8) : Nat → Nat
  | 0 => 0
  | i + 1 => if i + 1 > 1 ∧ path[i]? ≠ some slash then lastSlash path i else i + 1

def parentDir (path : List UInt8) : Option (Except Errno (List UInt8)) :=
  if path.head? ≠ some slash then some (.error .inval)
  else
    let i := lastSlash path path.length
    if i ≤ 1 then some (.ok [slash])
    else if i ≥ nameMax + 1 then some (.error .inval)
    else (((path.take i).foldlM (put pathCap) []).bind (terminate pathCap)).map .ok

namespace Ramfs

/-- The loop of `ramfs_mkdir_p`: every component is made in the root, since `partial` starts anew for each.
A round takes a byte of the path, so its length bounds the rounds. -/
def mkdirPLoop : Nat → Ramfs → List UInt8 → Option (Except Errno Unit × Ramfs)
  | 0, _, _ => none
  | n + 1, fs, path =>
    if path = [] then some (.ok (), fs)
    else do
      let path := if path.head? = some slash then path.drop 1 else path
      let comp := component path
      let part ← terminate pathCap (← comp.foldlM (put pathCap) [slash])
      let path := path.drop comp.length
      if comp = [] then mkdirPLoop n fs path
      else
        match fs.mkdir part with
        | (.error e, fs) => if e ≠ .exist then some (.error e, fs) else mkdirPLoop n fs path
        | (.ok _, fs) => mkdirPLoop n fs path

/-- `ramfs_mkdir_p`. -/
def mkdirP (fs : Ramfs) (path : List UInt8) : Option (Except Errno Unit × Ramfs) :=
  if path.head? ≠ some slash then some (.error .inval, fs)
  else if path = [slash] then some (.ok (), fs)
  else mkdirPLoop path.length fs (path.drop 1)

/-! ## Unpacking -/

/-- What follows an entry: the next one, or the end with a value to return. -/
inductive Verdict
  | next
  | stop (r : Except Errno Nat)

/-- `if (err && err != -EEXIST) return err;` and the code behind it. -/
def unlessFails (r : Except Errno (Option Nat) × Ramfs) (go : Ramfs → Option (Verdict × Ramfs)) :
    Option (Verdict × Ramfs) :=
  match r with
  | (.error e, fs) => if e ≠ .exist then some (.stop (.error e), fs) else go fs
  | (.ok _, fs) => go fs

/-- The directory of the path, and the code behind it. -/
def inParent (fs : Ramfs) (path : List UInt8) (go : Ramfs → Option (Verdict × Ramfs)) : Option (Verdict × Ramfs) := do
  match ← parentDir path with
  | .error _ => some (.stop (.error .inval), fs)
  | .ok pdir =>
    match ← fs.mkdirP pdir with
    | (.error e, fs) => some (.stop (.error e), fs)
    | (.ok (), fs) => go fs

/-- The bytes of a payload. -/
def readBytes (n : Nat) (s : List UInt8) : Option (List UInt8) := if n ≤ s.length then some (s.take n) else none

def unpackFile (fs : Ramfs) (a : Archive) (e : CpioEntry) (path : List UInt8) (mem : Buffer) :
    Option (Verdict × Ramfs) :=
  fs.inParent path fun fs =>
    unlessFails (fs.create path (UInt16.ofNat e.mode)) fun fs =>
      match fs.lookup path with
      | none => some (.stop (.error .noent), fs)
      | some i =>
        if e.filesize = 0 then some (.next, fs)
        else do
          let data ← readBytes e.filesize (a.rest e.payload)
          match ← fs.write i data 0 mem with
          | (.error err, fs) => some (.stop (.error err), fs)
          | (.ok w, fs) => some (if w ≠ e.filesize then .stop (.ok w) else .next, fs)

def unpackLink (fs : Ramfs) (a : Archive) (e : CpioEntry) (path : List UInt8) : Option (Verdict × Ramfs) :=
  if e.filesize ≥ nameMax + 1 then some (.stop (.error .inval), fs)
  else
    fs.inParent path fun fs => do
      let target ← (← readBytes e.filesize (a.rest e.payload)).foldlM (put (nameMax + 1)) []
      let target ← terminate (nameMax + 1) (target.rdropWhile (· = 0))
      unlessFails (fs.symlink path (target.takeWhile (· ≠ 0))) fun fs => some (.next, fs)

def trailer : List UInt8 := [84, 82, 65, 73, 76, 69, 82, 33, 33, 33]

/-- The rest of a round, for an entry. -/
def unpackEntry (fs : Ramfs) (a : Archive) (e : CpioEntry) (mem : Buffer) : Option (Verdict × Ramfs) := do
  let name := a.rest e.name
  if ← cpioStreq name trailer then return (.stop (.ok 0), fs)
  if ← cpioStreq name [dot] then return (.next, fs)
  if ← cpioStreq name [dot, dot] then return (.next, fs)
  match ← pathNormalize name pathCap with
  | .error _ => return (.stop (.error .inval), fs)
  | .ok path =>
    let type := e.mode &&& 0o170000
    if type = 0o040000 then unlessFails (fs.mkdir path) fun fs => some (.next, fs)
    else if type = 0o100000 then fs.unpackFile a e path mem
    else if type = 0o120000 then fs.unpackLink a e path
    else return (.next, fs)

/-- The loop of `unpack_to_rootfs`; `mem` is what the memory for the payload at an address holds before. -/
def unpackLoop (a : Archive) (mem : Nat → Buffer) : Nat → Ramfs → Nat → Option (Except Errno Nat × Ramfs)
  | 0, _, _ => none
  | n + 1, fs, p => do
    match ← a.header p with
    | .done => some (.ok 0, fs)
    | .bad => some (.error .inval, fs)
    | .entry e =>
      match ← fs.unpackEntry a e (mem e.payload) with
      | (.stop r, fs) => some (r, fs)
      | (.next, fs) => unpackLoop a mem n fs e.next

/-- `unpack_to_rootfs`. A round takes a header, so the size bounds the rounds. -/
def unpackToRootfs (fs : Ramfs) (a : Archive) (mem : Nat → Buffer) : Option (Except Errno Nat × Ramfs) :=
  if a.base = 0 then some (.error .inval, fs) else unpackLoop a mem (a.bytes.length + 1) fs a.base

end Ramfs

end MiniOs.Fs
