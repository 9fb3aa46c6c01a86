import Famfs.Spec.Alloc
import Famfs.Spec.Mkfs

/-! Processes on many hosts over one device. A process that is to append reads the superblock, asks
for its role, takes the lock of the log file and works on the log, store by store. The lock is the
kernel's `flock` on a standalone mount, which only processes of the same host see; hosts are told
apart by the role alone. The names of files are left out: creating one locally succeeds or not. -/

namespace Famfs

/-- What a session is asked to create. The stripe parameters are those in force for the call. -/
inductive CreateCall where
  | file (host : AllocHost) (size : ℕ) (param : FamfsInterleaveParam) (relpath : CStr) (mode uid gid : ℕ)
  | dir (relpath : CStr) (mode uid gid : ℕ)

/-- `famfs_log_file_creation` and `famfs_log_dir_creation` before `famfs_append_log`: the entry to
append, or the result when the log is full. -/
def CreateCall.entry (logp : FamfsLog) (fmap : FamfsLogFmap) : CreateCall → Except Trap (Except ℤ FamfsLogEntryBody)
  | .file _ size _ relpath mode uid gid =>
    if fmap.fmapNextents < 1 then .error .assertion
    else if relpath.head? = some 47 then .error .assertion
    else if famfsLogFull logp then .ok (.error (-ENOMEM))
    else .ok (.ok (.fm (logFileMeta fmap relpath mode uid gid size)))
  | .dir relpath mode uid gid =>
    if relpath.head? = some 47 then .error .assertion
    else if famfsLogFull logp then .ok (.error (-ENOMEM))
    else .ok (.ok (.md ⟨uid, gid, mode, copyRelpath relpath⟩))

/-- Where a process is. The `logp` of a session is a pointer to the device and what this field holds
is not looked at. -/
inductive MasterPc where
  | idle
  | validated (sb : FamfsSuperblock)
  | isMaster (sb : FamfsSuperblock)
  | locked (sb : FamfsSuperblock)
  | session (lp : FamfsLockedLog)
  | placed (lp : FamfsLockedLog) (c : CreateCall) (fmap : FamfsLogFmap)
  | append (lp : FamfsLockedLog) (body : FamfsLogEntryBody)
  | stamped (lp : FamfsLockedLog) (e : FamfsLogEntry)
  | copied (lp : FamfsLockedLog) (e : FamfsLogEntry)
  | counted (lp : FamfsLockedLog) (e : FamfsLogEntry)
  | mkfs (devsize : ℕ)

/-- Between the two stores that count an entry. -/
def MasterPc.torn : MasterPc → Bool
  | .counted _ _ => true
  | _ => false

/-- The device, the locks of the hosts and the processes. `logged` and `torn` are not state of the
program: `logged` records every append that was completed, with the number of processes that had
ended between the two counter stores by then, and `torn` is that number now. -/
structure Cluster (H P : Type) where
  sb : FamfsSuperblock
  logp : FamfsLog
  lock : H → Option P
  pc : P → MasterPc
  logged : List (FamfsLogEntryBody × ℕ)
  torn : ℕ

section

variable {H P : Type} [DecidableEq H] [DecidableEq P]

def Cluster.goto (s : Cluster H P) (p : P) (pc : MasterPc) : Cluster H P :=
  { s with pc := Function.update s.pc p pc }

def Cluster.store (s : Cluster H P) (st : LogStore) : Cluster H P := { s with logp := s.logp.apply st }

/-- The process closes what it has open. Closing the log file gives the lock back. -/
def Cluster.exit (s : Cluster H P) (p : P) : Cluster H P :=
  { s.goto p .idle with
    lock := fun h => if s.lock h = some p then none else s.lock h
    torn := if (s.pc p).torn then s.torn + 1 else s.torn }

/-- What `famfs_file_alloc` leaves the process with. -/
def afterAlloc (c : CreateCall) : ℤ × Option FamfsLogFmap × FamfsLockedLog → MasterPc
  | (0, some fmap, lp) => .placed lp c fmap
  | (_, _, lp) => .session lp

def afterEntry (lp : FamfsLockedLog) : Except ℤ FamfsLogEntryBody → MasterPc
  | .error _ => .session lp
  | .ok body => .append lp body

variable (crc32 : Crc32) (kabi : ℕ) (hostOf : P → H) (uuid : H → List UInt8) (asked : CreateCall → Prop)

/-- One step of one process; `asked` restricts what sessions are asked for. -/
inductive ClusterStep : Cluster H P → Cluster H P → Prop
  /-- `famfs_validate_superblock_by_path` keeps the size and the unit that it finds. -/
  | validate {s : Cluster H P} {p : P} (hpc : s.pc p = .idle) (hsuper : famfsCheckSuper crc32 s.sb = 0) :
      ClusterStep s (s.goto p (.validated s.sb))
  /-- `famfs_get_role_by_path`. -/
  | getRole {s : Cluster H P} {p : P} {sb : FamfsSuperblock} (hpc : s.pc p = .validated sb)
      (hrole : famfsGetRole crc32 (some (uuid (hostOf p))) s.sb = .master) : ClusterStep s (s.goto p (.isMaster sb))
  /-- `open_log_file_writable` with `BLOCKING_LOCK`. -/
  | flock {s : Cluster H P} {p : P} {sb : FamfsSuperblock} (hpc : s.pc p = .isMaster sb)
      (hfree : s.lock (hostOf p) = none) :
      ClusterStep s { s.goto p (.locked sb) with lock := Function.update s.lock (hostOf p) (some p) }
  /-- The rest of `famfs_init_locked_log`. -/
  | openSession {s : Cluster H P} {p : P} {sb : FamfsSuperblock} (mpt : CStr) (cfg : Option FamfsInterleaveParam)
      (hpc : s.pc p = .locked sb) :
      ClusterStep s (s.goto p (.session (famfsInitLockedLog kabi sb s.logp .v1 mpt none cfg)))
  | alloc {s : Cluster H P} {p : P} {lp : FamfsLockedLog} {host : AllocHost} {size : ℕ} {param : FamfsInterleaveParam}
      {relpath : CStr} {mode uid gid : ℕ} {r : ℤ × Option FamfsLogFmap × FamfsLockedLog} (hpc : s.pc p = .session lp)
      (hasked : asked (.file host size param relpath mode uid gid))
      (halloc : famfsFileAlloc crc32 kabi host { lp with logp := s.logp, interleaveParam := param } size = .ok r) :
      ClusterStep s (s.goto p (afterAlloc (.file host size param relpath mode uid gid) r))
  | mkdir {s : Cluster H P} {p : P} {lp : FamfsLockedLog} {relpath : CStr} {mode uid gid : ℕ} (hpc : s.pc p = .session lp)
      (hasked : asked (.dir relpath mode uid gid)) :
      ClusterStep s (s.goto p (.placed lp (.dir relpath mode uid gid) .zero))
  /-- The object could not be created locally: what was placed for it stays marked. -/
  | notCreated {s : Cluster H P} {p : P} {lp : FamfsLockedLog} {c : CreateCall} {fmap : FamfsLogFmap}
      (hpc : s.pc p = .placed lp c fmap) : ClusterStep s (s.goto p (.session lp))
  | logEntry {s : Cluster H P} {p : P} {lp : FamfsLockedLog} {c : CreateCall} {fmap : FamfsLogFmap}
      {r : Except ℤ FamfsLogEntryBody} (hpc : s.pc p = .placed lp c fmap) (hentry : c.entry s.logp fmap = .ok r) :
      ClusterStep s (s.goto p (afterEntry lp r))
  /-- `famfs_append_log`: the entry is completed, copied and counted twice. -/
  | stamp {s : Cluster H P} {p : P} {lp : FamfsLockedLog} {body : FamfsLogEntryBody} (hpc : s.pc p = .append lp body) :
      ClusterStep s (s.goto p (.stamped lp (stampLogEntry crc32 s.logp (newLogEntry body))))
  | copy {s : Cluster H P} {p : P} {lp : FamfsLockedLog} {e : FamfsLogEntry} (hpc : s.pc p = .stamped lp e) :
      ClusterStep s ((s.store (.entry s.logp.famfsLogNextIndex e)).goto p (.copied lp e))
  | countSeqnum {s : Cluster H P} {p : P} {lp : FamfsLockedLog} {e : FamfsLogEntry} (hpc : s.pc p = .copied lp e) :
      ClusterStep s ((s.store (.nextSeqnum (s.logp.famfsLogNextSeqnum + 1))).goto p (.counted lp e))
  | countIndex {s : Cluster H P} {p : P} {lp : FamfsLockedLog} {e : FamfsLogEntry} (hpc : s.pc p = .counted lp e) :
      ClusterStep s { (s.store (.nextIndex (s.logp.famfsLogNextIndex + 1))).goto p (.session lp) with
        logged := s.logged ++ [(e.body, s.torn)] }
  /-- `famfs_release_locked_log`, a call that fails, a failed assertion, a kill. -/
  | exit {s : Cluster H P} {p : P} : ClusterStep s (s.exit p)
  /-- `famfs_mkfs` without force: the role is asked for first, the superblock checked again later. -/
  | mkfsAllowed {s : Cluster H P} {p : P} {devsize : Option ℕ} {n : ℕ} {myUuid : Option (List UInt8)}
      (hpc : s.pc p = .idle) (hallow : famfsMkfsAllowed (some (famfsGetRole crc32 myUuid s.sb)) false devsize = some n) :
      ClusterStep s (s.goto p (.mkfs n))
  | mkfs {s : Cluster H P} {p : P} {n logLen : ℕ} {host : MkfsHost} {writable kill : Bool}
      (hpc : s.pc p = .mkfs n) :
      ClusterStep s { s.goto p .idle with
        sb := (famfsMkfs crc32 host writable s.sb s.logp logLen n false kill).2.1
        logp := (famfsMkfs crc32 host writable s.sb s.logp logLen n false kill).2.2 }

end

end Famfs
