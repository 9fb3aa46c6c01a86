import Famfs.Spec.Copy
import Famfs.Spec.Create

/-! `famfs cp`: `famfs_cp_multi`, `famfs_cp_dir`, `famfs_cp` and `__famfs_cp`. The sources
are trees as `readdir` and `stat` show them, with what the calls on each item answer; the
destination is the node and the session that holds the log. With a thread pool the tasks of
a file run while the calls go on, and at the end the pool is waited for. `items` records the
result for every item that was tried and `jobs` the copies that were started. -/

namespace Famfs

open Paths Machine

/-- One source file. `reopen` and `readOk` are what the tasks of its copy meet: the `open`
of the source and the `pread` at each offset. `fin` is the state in which they end. -/
structure FileIo where
  size : ℕ
  sizeLt : size < 2 ^ 63
  mode : ℕ
  statSrc : Bool
  srcfd : ℤ
  statDest : Bool
  realDest : Bool
  sys : Sys
  alloc : AllocHost
  reopen : ℤ
  readOk : ℕ → Bool
  fin : CopyState

structure DirIo where
  mode : ℕ
  statDest : Bool
  sys : Sys
  opendir : Bool

/-- A source as its first `stat` shows it. -/
inductive Src where
  | file (name : CStr) (io : FileIo)
  | dir (name : CStr) (io : DirIo) (entries : List Src)
  | special (name : CStr)
  | gone (name : CStr)

/-- A copy that was started. `into` is the destination directory that the file was put in
under its own name, or none when the destination is the file. -/
structure CopyJob where
  srcname : CStr
  destfile : CStr
  into : Option CStr
  threaded : Bool
  destfd : ℤ
  io : FileIo

structure CpState where
  host : Host
  lp : FamfsLockedLog
  items : List ℤ
  jobs : List CopyJob

structure CpConfig where
  kabi : ℕ
  cred : Cred
  threaded : Bool
  recursive : Bool
  mode : ℕ
  uid : ℕ
  gid : ℕ

def CpState.record (st : CpState) (rc : ℤ) : CpState := { st with items := st.items ++ [rc] }

/-- `famfs_copy_file_data`: with a pool the tasks are only queued; without one the result
is that of the one task. -/
def CopyJob.status (j : CopyJob) : ℤ :=
  if j.threaded then 0
  else
    match j.io.fin.tasks[0]?.map CopyTask.pc with
    | some (.done rc) => rc
    | _ => 0

section

variable (crc32 : Crc32) (cfg : CpConfig)

/-- `__famfs_cp`. -/
def famfsCpInner (st : CpState) (srcfile : CStr) (io : FileIo) (destfile : CStr) (into : Option CStr) (mode : ℕ) :
    Except Trap (ℤ × CpState) :=
  if io.statSrc = false then .ok (1, st)
  else if io.size = 0 then .ok (1, st)
  else if io.srcfd < 0 then .ok (1, st)
  else do
    let (destfd, h, lp) ← famfsMkfile crc32 cfg.kabi cfg.cred io.sys io.alloc st.host st.lp
      ⟨destfile, if mode = 0 then io.mode else mode, cfg.uid, cfg.gid, io.size, true⟩
    if destfd ≤ 0 then .ok (destfd, { st with host := h, lp := lp })
    else
      let job : CopyJob := ⟨srcfile, destfile, into, cfg.threaded, destfd, io⟩
      .ok (job.status, { st with host := h, lp := lp, jobs := st.jobs ++ [job] })

def famfsCp (st : CpState) (srcfile : CStr) (io : FileIo) (destfile : CStr) (mode : ℕ) :
    Except Trap (ℤ × CpState) :=
  match if io.statDest then st.host.stat destfile else none with
  | some (.dir _) =>
    match if io.realDest then (st.host.realpath destfile).1 else none with
    | none => .ok (1, st)
    | some realdest => famfsCpInner crc32 cfg st srcfile io (pathIn realdest (basename srcfile)) (some destfile) mode
  | _ => famfsCpInner crc32 cfg st srcfile io destfile none mode

/-- The first half of `famfs_cp_dir`: the destination directory is made unless something is
there, and the source directory is opened. -/
def cpDirOpen (st : CpState) (dest : CStr) (io : DirIo) : Except Trap (ℤ × CpState) :=
  match if io.statDest then st.host.stat dest else none with
  | some _ => .ok (if io.opendir then 0 else 1, st)
  | none => do
    let (rc, h, lp) ← famfsMkdir crc32 cfg.cred io.sys st.host st.lp ⟨dest, io.mode, cfg.uid, cfg.gid⟩
    .ok (if rc ≠ 0 then rc else if io.opendir then 0 else 1, { st with host := h, lp := lp })

mutual

/-- One round of the loop of `famfs_cp_dir`: whether the loop is left, and `err`. The
result for a directory is not looked at. -/
def cpEntry (src dest : CStr) (mode : ℕ) : Src → ℤ → CpState → Except Trap (Bool × ℤ × CpState)
  | .gone _, _, st => .ok (false, 1, st.record 1)
  | .file name io, err, st => do
    let (rc, st) ← famfsCp crc32 cfg st (pathIn src name) io dest mode
    if rc < 0 then .ok (true, rc, st.record rc) else .ok (false, if rc ≠ 0 then 1 else err, st.record rc)
  | .dir name io entries, err, st => do
    let newdir := pathIn dest (basename (pathIn src name))
    let (rc, st) ← cpDirOpen crc32 cfg st newdir io
    if rc ≠ 0 then .ok (false, err, st.record rc)
    else do
      let (_, _, st) ← cpEntries (pathIn src name) newdir io.mode entries 0 (st.record rc)
      .ok (false, err, st)
  | .special _, _, st => .ok (true, -EINVAL, st.record (-EINVAL))

def cpEntries (src dest : CStr) (mode : ℕ) : List Src → ℤ → CpState → Except Trap (Bool × ℤ × CpState)
  | [], err, st => .ok (false, err, st)
  | e :: es, err, st => do
    let (stop, err, st) ← cpEntry src dest mode e err st
    if stop then .ok (true, err, st) else cpEntries src dest mode es err st

end

/-- The call for an argument; inside the loop `cpEntry` is the same code. -/
def famfsCpDir (st : CpState) (src dest : CStr) (io : DirIo) (entries : List Src) : Except Trap (ℤ × CpState) := do
  let (rc, st) ← cpDirOpen crc32 cfg st dest io
  if rc ≠ 0 then .ok (rc, st.record rc)
  else do
    let (_, err, st) ← cpEntries crc32 cfg src dest io.mode entries 0 (st.record rc)
    .ok (err, st)

/-- One round of the loop of `famfs_cp_multi`. -/
def cpArg (dest : CStr) (err : ℤ) (st : CpState) : Src → Except Trap (Bool × ℤ × CpState)
  | .gone _ => .ok (true, 1, st.record 1)
  | .file name io => do
    let (rc, st) ← famfsCp crc32 cfg st name io dest cfg.mode
    if rc < 0 then .ok (true, rc, st.record rc) else .ok (false, if rc ≠ 0 then 1 else err, st.record rc)
  | .dir name io entries =>
    if cfg.recursive then do
      let (rc, st) ← famfsCpDir crc32 cfg st name dest io entries
      if rc < 0 then .ok (true, rc, st) else .ok (false, if rc ≠ 0 then 1 else err, st)
    else .ok (false, 1, st.record 1)
  | .special _ => .ok (true, -EINVAL, st.record (-EINVAL))

def cpArgs (dest : CStr) : List Src → ℤ → CpState → Except Trap (ℤ × CpState)
  | [], err, st => .ok (err, st)
  | a :: as, err, st => do
    let (stop, err, st) ← cpArg crc32 cfg dest err st a
    if stop then .ok (err, st) else cpArgs dest as err st

end

/-- What the calls before the loop of `famfs_cp_multi` answer; `init` is the result of
`famfs_init_locked_log`. -/
structure MultiIo where
  statDest : Bool
  realParent : Bool
  statParent : Bool
  statAgain : Bool
  init : ℤ

/-- The checks before the loop: the result if one of them ends the call. -/
def cpMultiCheck (cfg : CpConfig) (io : MultiIo) (h : Host) (dest : CStr) (nsrcs : ℕ) : Option ℤ :=
  let parent := if io.realParent then (h.realpath (dirname dest)).1 else none
  let start := if io.init ≠ 0 then some io.init else none
  let again :=
    if cfg.recursive ∨ 1 < nsrcs then
      match if io.statAgain then h.stat dest else none with
      | some (.dir _) => start
      | some _ => some (-1)
      | none => start
    else start
  match if io.statDest then h.stat dest else none with
  | some (.dir _) => again
  | some _ => if nsrcs = 1 ∧ parent ≠ none then again else some (-1)
  | none =>
    match parent with
    | none => some (-1)
    | some p =>
      match if io.statParent then h.stat p else none with
      | some (.dir _) => again
      | some _ => some (-1)
      | none => again

/-- `famfs_cp_multi`; `st` holds the session that `famfs_init_locked_log` opens. -/
def famfsCpMulti (crc32 : Crc32) (cfg : CpConfig) (io : MultiIo) (st : CpState) (srcs : List Src) (dest : CStr) :
    Except Trap (ℤ × CpState) :=
  match cpMultiCheck cfg io st.host dest srcs.length with
  | some rc => .ok (rc, st)
  | none => cpArgs crc32 cfg dest srcs 0 st

end Famfs
