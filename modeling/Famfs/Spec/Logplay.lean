import Famfs.Spec.Create

/-! Replaying the log on a node: `__famfs_logplay`. The log may change while it is
played, so the loop is given as its parts: the test against `famfs_log_next_index`, the
validation of the entry that was copied out of its slot, and the effect of an entry. -/

namespace Famfs

open Paths Machine

inductive FamfsSystemRole where
  | master
  | client
  | nosuper
deriving DecidableEq, Repr

/-- The counters of a `famfs_log_stats` that a replay keeps. -/
structure PlayStats extends FamfsLogStats where
  fExisted : ℕ
  fCreated : ℕ
  fErrs : ℕ
  dExisted : ℕ
  dCreated : ℕ
  dErrs : ℕ
deriving DecidableEq, Repr

def PlayStats.zero : PlayStats := ⟨⟨0, 0, 0, 0⟩, 0, 0, 0, 0, 0, 0⟩

structure PlayState where
  host : Host
  ls : PlayStats

/-- How one replay is run. `root` is the mount point, or the shadow root of a shadow
replay. -/
structure PlayConfig where
  kabi : ℕ
  cred : Cred
  role : FamfsSystemRole
  shadow : Bool
  dryRun : Bool
  root : CStr

/-- The string at the start of a fixed array. -/
def cstr (s : List UInt8) : CStr := s.takeWhile (· ≠ 0)

def pathIsRelative (relpath : CStr) : Bool := decide (1 ≤ relpath.length ∧ relpath.head? ≠ some slash)

/-- Extents that start at offset 0, by the reading of the map as simple extents. The array ends after 16
of them; the offset of the next one is still in the union, the others are in the memory behind the copy
of the entry. -/
def zeroOffsets (past : ℕ → ℕ) (fmap : FamfsLogFmap) : ℕ :=
  (List.range fmap.fmapNextents).countP fun j => fmap.wordIn past (3 * j + 1) = 0

/-- The map of a replayed file. A failure is only reported; the older interface frees
an array that it never allocated when the map is not simple. -/
def playMap (cfg : PlayConfig) (sys : Sys) (h : Host) (fd : ℤ) (p : Path) (fm : FamfsLogFileMeta) :
    Except Trap (ℤ × Host) :=
  if 42 < cfg.kabi then famfsV2SetFileMap sys h fd p fm.fmSize fm.fmFmap
  else if fm.fmFmap.fmapExtType ≠ FAMFS_EXT_SIMPLE then .error .nullPointer
  else famfsV1SetFileMap sys h fd p fm.fmSize fm.fmFmap fm.fmFmap.fmapNextents

/-- A file in standalone mode; `rpath` is what `realpath` left in its buffer. -/
def playStub (cfg : PlayConfig) (sys : Sys) (st : PlayState) (rpath : CStr) (fm : FamfsLogFileMeta) :
    Except Trap PlayState :=
  if sys.statPlay ∧ (st.host.stat rpath).isSome then
    .ok { st with ls := { st.ls with fExisted := st.ls.fExisted + 1 } }
  else
    let (fd, p, h) := famfsFileCreateStub cfg.cred sys st.host rpath fm.fmMode fm.fmUid fm.fmGid
      (cfg.role = .client)
    if fd < 0 then .ok ⟨h.unlink rpath, { st.ls with fErrs := st.ls.fErrs + 1 }⟩
    else do
      let (_, h) ← playMap cfg sys h fd p fm
      .ok ⟨h, { st.ls with fCreated := st.ls.fCreated + 1 }⟩

def playShadow (cfg : PlayConfig) (sys : Sys) (st : PlayState) (rpath : CStr) (fm : FamfsLogFileMeta) :
    PlayState :=
  let (_, d, h) := famfsShadowFileCreate cfg.cred sys st.host rpath fm cfg.dryRun
  ⟨h, { st.ls with
    fErrs := st.ls.fErrs + d.fErrs
    fExisted := st.ls.fExisted + d.fExisted
    fCreated := st.ls.fCreated + d.fCreated }⟩

/-- `FAMFS_LOG_FILE`. -/
def playFile (cfg : PlayConfig) (sys : Sys) (st : PlayState) (fm : FamfsLogFileMeta) :
    Except Trap PlayState :=
  let relpath := cstr fm.fmRelpath
  let errs := (if pathIsRelative relpath then 0 else 1) + zeroOffsets sys.past fm.fmFmap
  let st := { st with ls := { st.ls with fLogged := st.ls.fLogged + 1, fErrs := st.ls.fErrs + errs } }
  if errs ≠ 0 then .ok st
  else
    match (st.host.realpath (pathIn cfg.root relpath)).2 with
    | none => .error .outOfBounds
    | some rpath =>
      if cfg.shadow then .ok (playShadow cfg sys st rpath fm)
      else if cfg.dryRun then .ok st
      else playStub cfg sys st rpath fm

/-- `FAMFS_LOG_MKDIR`. -/
def playDir (cfg : PlayConfig) (sys : Sys) (st : PlayState) (md : FamfsLogMkdir) :
    Except Trap PlayState :=
  let relpath := cstr md.mdRelpath
  let ls := { st.ls with dLogged := st.ls.dLogged + 1 }
  if pathIsRelative relpath = false then .ok { st with ls := { ls with dErrs := ls.dErrs + 1 } }
  else if cfg.dryRun then .ok { st with ls := ls }
  else
    match (st.host.realpath (pathIn cfg.root relpath)).2 with
    | none => .error .outOfBounds
    | some rpath =>
      match if sys.statPlay then st.host.stat rpath else none with
      | some (.dir _) => .ok { st with ls := { ls with dExisted := ls.dExisted + 1 } }
      | some _ => .ok { st with ls := { ls with dErrs := ls.dErrs + 1 } }
      | none =>
        let (rc, h) := famfsDirCreate cfg.cred sys st.host cfg.root relpath md.mdMode md.mdUid md.mdGid
        if rc ≠ 0 then .ok ⟨h, { ls with dErrs := ls.dErrs + 1 }⟩
        else .ok ⟨h, { ls with dCreated := ls.dCreated + 1 }⟩

/-- The `switch` on the type of a validated entry. -/
def playEntry (cfg : PlayConfig) (sys : Sys) (st : PlayState) (body : FamfsLogEntryBody) :
    Except Trap PlayState :=
  let st := { st with ls := { st.ls with nEntries := st.ls.nEntries + 1 } }
  match body with
  | .fm fm => playFile cfg sys st fm
  | .md md => playDir cfg sys st md
  | _ => .ok st

/-- The value returned at the end of the loop, an `int`. -/
def playErrors (ls : PlayStats) : ℤ := s32 (ls.fErrs + ls.dErrs)

section

variable (crc32 : Crc32)

/-- The loop over the `n` entries from `i` on of a log that does not change. -/
def playLoop (cfg : PlayConfig) (sys : ℕ → Sys) (logp : FamfsLog) : ℕ → ℕ → PlayState →
    Except Trap (ℤ × PlayState)
  | 0, _, st => .ok (playErrors st.ls, st)
  | n + 1, i, st =>
    if famfsValidateLogEntry crc32 (fun _ => logp.entries i) i ≠ 0 then .ok (-1, st)
    else do
      let st ← playEntry cfg (sys i) st (logp.entries i).body
      playLoop cfg sys logp n (i + 1) st

/-- The directory below which a shadow replay works. -/
def famfsGetShadowRoot (h : Host) (shadowPath : CStr) : Option CStr :=
  let suffix : CStr := [47, 114, 111, 111, 116]
  if (h.stat shadowPath).any Node.isDir = false then none
  else if suffix <:+ shadowPath then some shadowPath
  else
    let rootPath := shadowPath ++ if shadowPath.getLast? = some slash then suffix.tail else suffix
    if (h.stat rootPath).any Node.isDir then some rootPath else none

/-- `__famfs_logplay`: the number of errors, or -1, and the state of the node. -/
def famfsLogplay (cfg : PlayConfig) (sys : ℕ → Sys) (h : Host) (logp : FamfsLog) :
    Except Trap (ℤ × PlayState) :=
  let st : PlayState := ⟨h, .zero⟩
  if cfg.role = .nosuper then .ok (-1, st)
  else if famfsValidateLogHeader crc32 logp ≠ 0 then .ok (-1, st)
  else if cfg.shadow then
    match famfsGetShadowRoot h cfg.root with
    | none => .ok (-1, st)
    | some root => playLoop crc32 { cfg with root := root } sys logp logp.famfsLogNextIndex 0 st
  else playLoop crc32 cfg sys logp logp.famfsLogNextIndex 0 st

end

end Famfs
