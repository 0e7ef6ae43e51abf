/-
The error numbers the file code returns; a function that returns `-E...` in the source returns the
error itself here. `toobig` is `-E2BIG` and `restartsys` the kernel's own `-ERESTARTSYS`.
-/
import Mathlib.Init

namespace MiniOs.Fs

inductive Errno
  | perm | noent | again | nomem | access | fault | busy | exist | notdir | isdir | inval | nfile | mfile | badf
  | pipe | nametoolong | notempty | nxio | nodev | noexec | toobig | restartsys
  deriving DecidableEq, Repr

end MiniOs.Fs
