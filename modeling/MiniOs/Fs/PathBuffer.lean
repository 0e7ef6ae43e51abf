/-
`path_resolve` of fs/namei.c over its character buffers: `stack` and `comp` on the kernel stack and the
caller's `out`, `PATH_MAX` bytes each, whatever they hold at the start. `none` is a store outside of a
buffer.
-/
import MiniOs.Fs.Path
import MiniOs.Library.Buffer

namespace MiniOs.Fs

open Ramfs (skipSlash component)
open Library

/-- `str_copy(dst, src, PATH_MAX)`. -/
def strCopyTo (dst : Buffer) (src : List UInt8) : Option Buffer :=
  (dst.storeAll pathMax 0 (strCopy src)).bind fun dst => dst.store pathMax (strCopy src).length 0

/-- `while (sp > 0 && stack[sp - 1] != '/') sp--;` -/
def popIndex (stack : Buffer) : Nat → Nat
  | 0 => 0
  | sp + 1 => if stack sp ≠ slash then popIndex stack sp else sp + 1

/-- `..` takes the last component off the stack. -/
def popBuffer (stack : Buffer) (sp : Nat) : Option (Buffer × Nat) :=
  let sp := popIndex stack sp - 1
  (stack.store pathMax sp 0).map fun stack => (stack, sp)

/-- A component goes onto the stack, behind a slash. -/
def pushBuffer (stack : Buffer) (sp : Nat) (comp : List UInt8) : Option (Buffer × Nat) :=
  let slashed :=
    if sp = 0 ∨ stack (sp - 1) ≠ slash then (stack.store pathMax sp slash).map fun stack => (stack, sp + 1)
    else some (stack, sp)
  slashed.bind fun st =>
    (st.1.storeAll pathMax st.2 comp).bind fun stack =>
      (stack.store pathMax (st.2 + comp.length) 0).map fun stack => (stack, st.2 + comp.length)

/-- The loop of `path_resolve`; `comp` is the buffer of the round as it is found. -/
def resolveBufferLoop (comp : Buffer) : Nat → Buffer → Nat → List UInt8 → Option (Except Errno (Buffer × Nat))
  | 0, stack, sp, _ => some (.ok (stack, sp))
  | n + 1, stack, sp, p =>
    let p := skipSlash p
    if p = [] then some (.ok (stack, sp))
    else
      let clen := (component p).length
      if clen ≥ pathMax then some (.error .nametoolong)
      else
        (comp.storeAll pathMax 0 (p.take clen)).bind fun comp =>
        (comp.store pathMax clen 0).bind fun comp =>
        let p := p.drop clen
        if comp 0 = dot ∧ comp 1 = 0 then resolveBufferLoop comp n stack sp p
        else if comp 0 = dot ∧ comp 1 = dot ∧ comp 2 = 0 then
          (popBuffer stack sp).bind fun st => resolveBufferLoop comp n st.1 st.2 p
        else if sp + 1 + clen ≥ pathMax then some (.error .nametoolong)
        else (pushBuffer stack sp (comp.bytes clen)).bind fun st => resolveBufferLoop comp n st.1 st.2 p

/-- What the stack of `path_resolve` has before the loop. -/
def startBuffer (stack : Buffer) (base path : List UInt8) : Option (Buffer × Nat) :=
  if path.head? = some slash then (stack.store pathMax 0 0).map fun stack => (stack, 0)
  else (strCopyTo stack base).map fun stack => (stack, (stack.string pathMax).length)

/-- The end of `path_resolve`. -/
def copyOut (stack : Buffer) (sp : Nat) (out : Buffer) : Option Buffer :=
  if sp = 0 then (out.store pathMax 0 slash).bind fun out => out.store pathMax 1 0
  else strCopyTo out (stack.string pathMax)

/-- `path_resolve(base, path, out)`. -/
def resolveBuffer (stack comp : Buffer) (base path : CString) (out : Buffer) : Option (Except Errno Buffer) :=
  if path.bytes = [] then some (.error .noent)
  else if path.bytes.head? ≠ some slash ∧ base.bytes.head? ≠ some slash then some (.error .inval)
  else
    (startBuffer stack base.bytes path.bytes).bind fun st =>
      (resolveBufferLoop comp path.bytes.length st.1 st.2 path.bytes).bind fun r =>
        match r with
        | .error e => some (.error e)
        | .ok st => (copyOut st.1 st.2 out).map .ok

end MiniOs.Fs
