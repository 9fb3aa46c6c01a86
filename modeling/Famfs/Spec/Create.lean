import Famfs.Spec.Alloc
import Famfs.Spec.Namespace

/-! Creating files and directories on the master: `__famfs_mkfile` and `__famfs_mkdir`
with what they call. Both work on the node's namespace and then append to the log. -/

namespace Famfs

open Paths

def FAMFS_MAX_INTERLEAVED_EXTENTS : ℕ := 1

/-- The extents of a map in the older ioctl. -/
def FAMFS_MAX_EXTENTS : ℕ := 2

/-- `snprintf(buf, PATH_MAX - 1, "%s/%s", dir, path)`. -/
def pathIn (dir path : CStr) : CStr := dir ++ slash :: path

/-- The map of `famfs_v1_set_file_map`. -/
def v1Map (fmap : FamfsLogFmap) (nextents : ℕ) : IocMap :=
  .v1 ((List.range nextents).map fun j => ((fmap.se j).seOffset, (fmap.se j).seLen))

/-- The map that `famfs_v2_set_file_map` builds, or the error it returns before the
ioctl. All interleaved extents share one array of strips; an error in the first is
returned before there is a second. -/
def v2Map (fm : FamfsLogFmap) (size : ℕ) : Except Trap (Except ℤ IocMap) :=
  if fm.fmapExtType = FAMFS_EXT_SIMPLE then
    if FAMFS_MAX_SIMPLE_EXTENTS < fm.fmapNextents then .ok (.error (-EINVAL))
    else .ok (.ok (.v2Simple ((List.range fm.fmapNextents).map fm.se)))
  else if fm.fmapExtType = FAMFS_EXT_INTERLEAVE then
    if 0 < fm.fmapNextents ∧ FAMFS_MAX_SIMPLE_EXTENTS < fm.ieNstrips 0 then .ok (.error (-EINVAL))
    else if FAMFS_MAX_INTERLEAVED_EXTENTS < fm.fmapNextents then .error .outOfBounds
    else .ok (.ok (.v2Interleaved ((List.range fm.fmapNextents).map fun i =>
      ⟨fm.ieNstrips i, fm.ieChunkSize i, size, (List.range (fm.ieNstrips i)).map (fm.ieStrips i)⟩)))
  else .ok (.error (-EINVAL))

/-- The ioctl that attaches a map to the open file `p`. -/
def mapIoctl (sys : Sys) (h : Host) (p : Path) (size : ℕ) (map : IocMap) : ℤ × Host :=
  if sys.mapCreate = 0 then (0, h.modify p (Node.write (.mapped size map))) else (sys.mapCreate, h)

def famfsV2SetFileMap (sys : Sys) (h : Host) (fd : ℤ) (p : Path) (size : ℕ) (fm : FamfsLogFmap) :
    Except Trap (ℤ × Host) :=
  if fd ≤ 0 then .error .assertion
  else
    match v2Map fm size with
    | .error t => .error t
    | .ok (.error rc) => .ok (rc, h)
    | .ok (.ok map) => .ok (mapIoctl sys h p size map)

def famfsV1SetFileMap (sys : Sys) (h : Host) (fd : ℤ) (p : Path) (size : ℕ) (fm : FamfsLogFmap)
    (nextents : ℕ) : Except Trap (ℤ × Host) :=
  if fd ≤ 0 then .error .assertion
  else if FAMFS_MAX_EXTENTS < nextents then .error .outOfBounds
  else .ok (mapIoctl sys h p size (v1Map fm nextents))

def S_IWALL : ℕ := 0o222

/-- The result, the file it opened, and the host after. -/
def famfsFileCreateStub (cred : Cred) (sys : Sys) (h : Host) (path : CStr) (mode uid gid : ℕ)
    (disableWrite : Bool) : ℤ × Path × Host :=
  if sys.stat ∧ (h.stat path).isSome then (-1, [], h)
  else
    let mode := if disableWrite then mode.ldiff S_IWALL else mode
    match if sys.openCreat then h.openCreat cred path mode (.plain 0) else none with
    | none => (-1, [], h)
    | some (p, h) =>
      if ¬ (h.isFamfsV1 p ∧ sys.ioctlNop) then (-EBADF, [], h.set p none)
      else if uid ≠ 0 ∧ gid ≠ 0 ∧ sys.fchown then (sys.fd, p, h.modify p (Node.chown uid gid))
      else (sys.fd, p, h)

/-- What `famfs_shadow_file_create` adds to the caller's counters. -/
structure ShadowStats where
  fErrs : ℕ
  fExisted : ℕ
  fCreated : ℕ
deriving DecidableEq

def famfsShadowFileCreate (cred : Cred) (sys : Sys) (h : Host) (path : CStr) (fc : FamfsLogFileMeta)
    (dryRun : Bool) : ℤ × ShadowStats × Host :=
  if dryRun then (0, ⟨0, 0, 0⟩, h)
  else
    match if sys.stat then h.stat path else none with
    | some (.dir _) => (-1, ⟨1, 0, 0⟩, h)
    | some (.reg _ _) => (0, ⟨0, 1, 0⟩, h)
    | some (.special _) => (-1, ⟨1, 0, 0⟩, h)
    | none =>
      match if sys.openCreat then h.openCreat cred path 0o644 (.shadow none) else none with
      | none => (-1, ⟨1, 0, 0⟩, h)
      | some (p, h) =>
        if sys.fdopen = false then (-1, ⟨0, 0, 0⟩, h)
        else if sys.emitYaml then (0, ⟨0, 0, 1⟩, h.modify p (Node.write (.shadow (some fc))))
        else (-1, ⟨0, 0, 1⟩, h.modify p (Node.write (.shadow none)))

def famfsDirCreate (cred : Cred) (sys : Sys) (h : Host) (mpt rpath : CStr) (mode uid gid : ℕ) :
    ℤ × Host :=
  match if sys.mkdir then h.mkdir cred (pathIn mpt rpath) mode else none with
  | none => (-1, h)
  | some (p, h) =>
    if uid ≠ 0 ∧ gid ≠ 0 then
      if sys.chown then (0, h.modify p (Node.chown uid gid)) else (-1, h)
    else (0, h)

/-- `none` is the null pointer; a path that is the mount point itself gives a pointer
past its end. -/
def famfsRelpathFromFullpath (mpt fullpath : CStr) : Except Trap (Option CStr) :=
  if ¬ mpt <+: fullpath then .ok none
  else if fullpath = mpt then .error .outOfBounds
  else .ok (some (fullpath.drop (mpt.length + 1)))

structure MkfileArgs where
  filename : CStr
  mode : ℕ
  uid : ℕ
  gid : ℕ
  size : ℕ
  openExisting : Bool
deriving DecidableEq

def targetFullpath (h : Host) (filename : CStr) : CStr :=
  if filename.head? = some slash then filename else pathIn (render h.cwd) filename

section

variable (crc32 : Crc32) (kabi : ℕ) (cred : Cred) (sys : Sys)

/-- The end of the call: log the creation and return the descriptor. -/
def mkfileLog (h : Host) (lp : FamfsLockedLog) (a : MkfileArgs) (fmap : FamfsLogFmap) (relpath : CStr)
    (fd : ℤ) : Except Trap (ℤ × Host × FamfsLockedLog) := do
  let (rc, logp) ← famfsLogFileCreation crc32 lp.logp fmap relpath a.mode a.uid a.gid a.size
  if rc ≠ 0 then .ok (rc, h, { lp with logp := logp }) else .ok (fd, h, { lp with logp := logp })

def mkfileShadow (h : Host) (lp : FamfsLockedLog) (a : MkfileArgs) (fmap : FamfsLogFmap)
    (relpath shadowRoot : CStr) : Except Trap (ℤ × Host × FamfsLockedLog) :=
  if FAMFS_MAX_PATHLEN - 1 ≤ relpath.length then .error .assertion
  else
    let fmeta := logFileMeta fmap relpath a.mode a.uid a.gid a.size
    let (rc, _, h) := famfsShadowFileCreate cred sys h (pathIn shadowRoot relpath) fmeta false
    if rc ≠ 0 then .ok (-1, h, lp)
    else
      let fd := if sys.openFile ∧ (h.openRdwr (pathIn lp.mpt relpath)).isSome then sys.fd else -1
      mkfileLog crc32 h lp a fmap relpath fd

/-- With the newer interface a map that cannot be set only replaces the descriptor
that is returned; with the older one the call ends there. -/
def mkfileStub (h : Host) (lp : FamfsLockedLog) (a : MkfileArgs) (fmap : FamfsLogFmap)
    (relpath : CStr) : Except Trap (ℤ × Host × FamfsLockedLog) :=
  let (fd, p, h) := famfsFileCreateStub cred sys h a.filename a.mode a.uid a.gid false
  if fd ≤ 0 then .ok (fd, h, lp)
  else if 42 < kabi then do
    let (rc, h) ← famfsV2SetFileMap sys h fd p a.size fmap
    mkfileLog crc32 h lp a fmap relpath (if rc ≠ 0 then rc else fd)
  else do
    let (rc, h) ← famfsV1SetFileMap sys h fd p a.size fmap 1
    if rc ≠ 0 then .ok (rc, h, lp) else mkfileLog crc32 h lp a fmap relpath fd

def mkfileCreate (h : Host) (lp : FamfsLockedLog) (a : MkfileArgs) (fmap : FamfsLogFmap)
    (relpath : CStr) : Except Trap (ℤ × Host × FamfsLockedLog) :=
  match lp.shadowRoot with
  | some root => mkfileShadow crc32 cred sys h lp a fmap relpath root
  | none => mkfileStub crc32 kabi cred sys h lp a fmap relpath

def mkfileAlloc (host : AllocHost) (h : Host) (lp : FamfsLockedLog) (a : MkfileArgs) :
    Except Trap (ℤ × Host × FamfsLockedLog) := do
  let (rc, fmap, lp) ← famfsFileAlloc crc32 kabi host lp a.size
  if rc ≠ 0 then .ok (-1, h, lp)
  else
    match fmap with
    | none => .error .nullPointer
    | some fmap =>
      if fmap.fmapNextents ≠ 1 then .error .assertion
      else
        match famfsRelpathFromFullpath lp.mpt (targetFullpath h a.filename) with
        | .error t => .error t
        | .ok none => .ok (-1, h, lp)
        | .ok (some relpath) => mkfileCreate crc32 kabi cred sys h lp a fmap relpath

/-- The descriptor or a result that is not positive, the host and the session. -/
def famfsMkfile (host : AllocHost) (h : Host) (lp : FamfsLockedLog) (a : MkfileArgs) :
    Except Trap (ℤ × Host × FamfsLockedLog) :=
  if a.size = 0 then .error .assertion
  else
    match if sys.statTarget then h.stat (targetFullpath h a.filename) else none with
    | some n =>
      if a.openExisting ∧ n.isRegOfSize a.size then
        .ok (if sys.openExisting then sys.fd else -1, h, lp)
      else .ok (-1, h, lp)
    | none =>
      match if sys.statParent then h.stat (dirname (targetFullpath h a.filename)) else none with
      | some (.dir _) => mkfileAlloc crc32 kabi cred sys host h lp a
      | _ => .ok (-1, h, lp)

structure MkdirArgs where
  dirpath : CStr
  mode : ℕ
  uid : ℕ
  gid : ℕ
deriving DecidableEq

/-- In a session of the FUSE kind the shadow root is set. -/
def mkdirCreate (h : Host) (lp : FamfsLockedLog) (a : MkdirArgs) (relpath : CStr) :
    Except Trap (ℤ × Host × FamfsLockedLog) :=
  match (match lp.famfsType with | .fuse => lp.shadowRoot | .v1 => some lp.mpt) with
  | none => .error .nullPointer
  | some root =>
    let (rc, h) := famfsDirCreate cred sys h root relpath a.mode a.uid a.gid
    if rc ≠ 0 then .ok (-1, h, lp)
    else do
      let (rc, logp) ← famfsLogDirCreation crc32 lp.logp relpath a.mode a.uid a.gid
      .ok (rc, h, { lp with logp := logp })

/-- A parent that `stat` does not find is only reported; the `realpath` after it ends
the call. Outside the mount the relative path is the null pointer, and printing it into the
name of the directory has no defined result (glibc goes on with the name `(null)` and fails
at the log). -/
def famfsMkdir (h : Host) (lp : FamfsLockedLog) (a : MkdirArgs) :
    Except Trap (ℤ × Host × FamfsLockedLog) :=
  if sys.realpath ∧ (h.realpath a.dirpath).1.isSome then .ok (-1, h, lp)
  else
    match if sys.statParent then h.stat (dirname a.dirpath) else none with
    | some (.reg _ _) => .ok (-1, h, lp)
    | some (.special _) => .ok (-1, h, lp)
    | _ =>
      match if sys.realParent then (h.realpath (dirname a.dirpath)).1 else none with
      | none => .ok (-1, h, lp)
      | some realparent =>
        let fullpath := pathIn realparent (basename a.dirpath)
        match famfsRelpathFromFullpath lp.mpt fullpath with
        | .error _ => .ok (-1, h, lp)
        | .ok none => .error .nullPointer
        | .ok (some relpath) => mkdirCreate crc32 cred sys h lp a relpath

end

section

variable (crc32 : Crc32) (cred : Cred) (sys : ℕ → Sys)

/-- The call at each depth has its own system calls; `none` if the recursion goes deeper than
`fuel`. It has no end where even the `stat` of the root directory fails. -/
def famfsMakeParentDir (h : Host) (lp : FamfsLockedLog) (mode uid gid : ℕ) :
    ℕ → ℕ → CStr → Option (Except Trap (ℤ × Host × FamfsLockedLog))
  | 0, _, _ => none
  | fuel + 1, depth, path =>
    match if (sys depth).statTarget then h.stat path else none with
    | some n => if n.isDir then some (.ok (0, h, lp)) else some (.ok (-1, h, lp))
    | none =>
      match famfsMakeParentDir h lp mode uid gid fuel (depth + 1) (dirname path) with
      | none => none
      | some (.error t) => some (.error t)
      | some (.ok (rc, h, lp)) =>
        if rc ≠ 0 then some (.ok (-1, h, lp))
        else some (famfsMkdir crc32 cred (sys depth) h lp ⟨path, mode, uid, gid⟩)

end

end Famfs
