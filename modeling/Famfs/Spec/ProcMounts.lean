import Famfs.Lib.Paths
import Famfs.Spec.Yaml

/-! `shadow_path_in_use` of `famfs_mount.c`. A line of `/proc/mounts` is its four fields,
none of which has a blank in it, and two numbers. The extended attribute that holds the
shadow path of a mount is a parameter. -/

namespace Famfs

open Paths

def XLEN : ℕ := 256

structure ProcMount where
  dev : CStr
  mpt : CStr
  fstype : CStr
  opts : CStr
deriving DecidableEq

def ProcMount.line (e : ProcMount) : CStr :=
  e.dev ++ lit " " ++ e.mpt ++ lit " " ++ e.fstype ++ lit " " ++ e.opts ++ lit " 0 0\n"

/-- `strstr(text, "famfs")`. -/
def namesFamfs (text : CStr) : Bool := lit "famfs" <:+: text

/-- The four fields fit into the arrays that `sscanf` stores them in. -/
def ProcMount.fits (e : ProcMount) : Bool :=
  e.dev.length < XLEN ∧ e.mpt.length < XLEN ∧ e.fstype.length < XLEN ∧ e.opts.length < XLEN

/-- `strlen(s) - 1`, a `size_t`. -/
def strlenPred (s : CStr) : ℕ := if s = [] then 2 ^ 64 - 1 else s.length - 1

/-- `strncmp(a, b, n) != 0` on C strings. -/
def strncmpDiffers (a b : CStr) (n : ℕ) : Bool := a.take n ≠ b.take n

/-- The body of the loop: whether the function returns 1 there. -/
def entryInUse (xattr : CStr → Option CStr) (shadowpath : CStr) (e : ProcMount) : Except Trap Bool :=
  if namesFamfs e.line = false then .ok false
  else if e.fits = false then .error .outOfBounds
  else if namesFamfs e.fstype = false then .ok false
  else
    match xattr e.mpt with
    | none => .ok false
    | some entryShadow =>
      let n := strlenPred shadowpath
      let m := strlenPred entryShadow
      .ok (strncmpDiffers shadowpath entryShadow (min m n))

def shadowLoop (xattr : CStr → Option CStr) (shadowpath : CStr) : List ProcMount → Except Trap ℤ
  | [] => .ok 0
  | e :: table => do
    if ← entryInUse xattr shadowpath e then .ok 1 else shadowLoop xattr shadowpath table

/-- There is no table if `/proc/mounts` cannot be opened. -/
def shadowPathInUse (xattr : CStr → Option CStr) (mounts : Option (List ProcMount)) (shadowpath : CStr) : Except Trap ℤ :=
  match mounts with
  | none => .ok 0
  | some table => shadowLoop xattr shadowpath table

end Famfs
