/-
Path strings of fs/namei.c: resolving a path against a base, splitting off the last component, and
the normalised absolute paths that `getname_from_user_at` hands to the system calls.
-/
import MiniOs.Fs.Ramfs

namespace MiniOs.Fs

open Ramfs (skipSlash component)

/-- `str_copy` into a `char[PATH_MAX]`. -/
def strCopy (s : List UInt8) : List UInt8 := s.take (pathMax - 1)

/-! ## Normalised paths -/

/-- A component of a normalised path: not empty, without slashes, and not a dot name. -/
def Name.isComponent (n : Name) : Bool := n.bytes ≠ [] && !n.bytes.contains slash && !n.isDotname

/-- The string of a list of components. -/
def renderPath (comps : List (List UInt8)) : List UInt8 :=
  if comps = [] then [slash] else comps.flatMap fun c => slash :: c

/-- A path as `getname_from_user_at` returns it. -/
structure AbsPath where
  comps : List Name
  valid : ∀ n ∈ comps, n.isComponent = true
  short : (renderPath (comps.map Name.bytes)).length < pathMax

def AbsPath.bytes (p : AbsPath) : List UInt8 := renderPath (p.comps.map Name.bytes)

/-! ## Resolving -/

/-- The two loops that take the last component off the stack of `path_resolve`. -/
def popComponent (stack : List UInt8) : List UInt8 := ((stack.reverse.dropWhile (· ≠ slash)).drop 1).reverse

def pushComponent (stack comp : List UInt8) : List UInt8 :=
  (if stack = [] ∨ stack.getLast? ≠ some slash then stack ++ [slash] else stack) ++ comp

/-- The loop of `path_resolve`; every round takes a byte of the path. -/
def pathResolveLoop : Nat → List UInt8 → List UInt8 → Except Errno (List UInt8)
  | 0, stack, _ => .ok stack
  | n + 1, stack, path =>
    let path := skipSlash path
    if path = [] then .ok stack
    else
      let comp := component path
      let path := path.drop comp.length
      if comp.length ≥ pathMax then .error .nametoolong
      else if comp = [dot] then pathResolveLoop n stack path
      else if comp = [dot, dot] then pathResolveLoop n (popComponent stack) path
      else if stack.length + 1 + comp.length ≥ pathMax then .error .nametoolong
      else pathResolveLoop n (pushComponent stack comp) path

def pathResolve (base path : List UInt8) : Except Errno (List UInt8) :=
  if path = [] then .error .noent
  else if path.head? ≠ some slash ∧ base.head? ≠ some slash then .error .inval
  else
    match pathResolveLoop path.length (if path.head? = some slash then [] else strCopy base) path with
    | .error e => .error e
    | .ok stack => .ok (if stack = [] then [slash] else strCopy stack)

/-! ## The parent and the last component -/

/-- The path without its slashes at the end. -/
def stripSlashes (path : List UInt8) : List UInt8 := (path.reverse.dropWhile (· = slash)).reverse

/-- The bytes after the last slash. -/
def lastComponent (path : List UInt8) : List UInt8 := (path.reverse.takeWhile (· ≠ slash)).reverse

def pathParentName (path : List UInt8) : Except Errno (List UInt8 × Name) :=
  if path.head? ≠ some slash then .error .inval
  else
    let path := stripSlashes path
    if path = [] then .error .noent
    else
      let name := lastComponent path
      let parent := path.take (path.length - name.length - 1)
      if parent.length ≥ pathMax then .error .nametoolong
      else .ok (if parent = [] then [slash] else parent, Name.clip name)

end MiniOs.Fs
