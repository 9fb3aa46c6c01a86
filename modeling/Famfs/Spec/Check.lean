import Famfs.Lib.Paths
import Famfs.Spec.Meta

/-! `famfs_recursive_check` and `famfs_check` of `famfs_lib.c`. A tree is what the calls of
the check find in it: for each name what `stat` says, for a regular file what `open` and
the ioctl return, for a directory whether it can be listed. -/

namespace Famfs

open Machine Paths

mutual

/-- What one name of a directory leads to. -/
inductive CheckNode where
  | noStat
  | reg (fd mapGet : ℤ)
  | dir (d : CheckDir)
  | special

/-- A directory, and whether `opendir` succeeds. -/
inductive CheckDir where
  | mk (opendir : Bool) (entries : CheckEntries)

inductive CheckEntries where
  | nil
  | cons (name : Name) (node : CheckNode) (rest : CheckEntries)

end

/-- The counters of one call; `nerrs` is an `int`, kept as its 32 bits. -/
structure CheckSums where
  nfiles : ℕ
  ndirs : ℕ
  nerrs : ℕ
deriving DecidableEq

def CheckSums.zero : CheckSums := ⟨0, 0, 0⟩

mutual

/-- One turn of the loop, for a name that is not skipped. The result of the recursion is
not looked at. -/
def checkNode (s : CheckSums) : CheckNode → CheckSums
  | .noStat => { s with nerrs := u32 (s.nerrs + 1) }
  | .reg fd mapGet =>
    let s := { s with nfiles := u64 (s.nfiles + 1) }
    if fd ≤ 0 then s
    else if mapGet ≠ 0 then { s with nerrs := u32 (s.nerrs + 1) }
    else s
  | .dir d =>
    let s := { s with ndirs := u64 (s.ndirs + 1) }
    let r := famfsRecursiveCheck d
    ⟨u64 (s.nfiles + r.2.nfiles), u64 (s.ndirs + r.2.ndirs), u32 (s.nerrs + r.2.nerrs)⟩
  | .special => s

/-- The result and the counters it hands out. -/
def famfsRecursiveCheck : CheckDir → ℤ × CheckSums
  | .mk opendir entries =>
    if opendir = false then (-1, .zero)
    else
      let s := checkEntries .zero entries
      (if s.nerrs ≠ 0 then 1 else 0, s)

/-- The loop over the entries. -/
def checkEntries (s : CheckSums) : CheckEntries → CheckSums
  | .nil => s
  | .cons name node rest =>
    if name = dot ∨ name = dotdot then checkEntries s rest else checkEntries (checkNode s node) rest

end

/-- What `famfs_check` finds before it goes into the tree. -/
structure CheckCalls where
  absolute : Bool
  mounted : Bool
  statMeta : Bool
  statSuperblock : Bool
  statLog : Bool

/-- The result, and the counters it prints. -/
def famfsCheck (calls : CheckCalls) (tree : CheckDir) : ℤ × CheckSums :=
  if calls.absolute = false then (-1, .zero)
  else if calls.mounted = false then (-1, .zero)
  else if calls.statMeta = false then (-1, .zero)
  else
    let nerrs := if calls.statSuperblock then 0 else 1
    let nerrs := if calls.statLog then nerrs else nerrs + 1
    let r := famfsRecursiveCheck tree
    (r.1, { r.2 with nerrs := u64 (nerrs + (s32 r.2.nerrs % 2 ^ 64).toNat) })

end Famfs
