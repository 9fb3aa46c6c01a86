import Famfs.Spec.Meta

/-! Lock requests of the FUSE daemon (`famfs_fused.c`, `famfs_fused_icache.c`). The
daemon serves requests on several threads; a thread runs from one access to shared
state to the next, and a step below is one such access. `granted` is not state of
the daemon: it records which handles hold a success reply to an exclusive request
that they have not given up since. -/

namespace Famfs

inductive LockKind where
  | sh
  | ex
  | un
deriving DecidableEq, Repr

/-- `LOCK_SH`, `LOCK_EX` or `LOCK_UN`, with or without `LOCK_NB`. -/
structure FlockOp where
  kind : LockKind
  lockNb : Bool
deriving DecidableEq, Repr

/-- An open of the file with this `nodeid`. A handle is not used again once released. -/
structure FileHandle where
  fh : ℕ
  nodeid : ℕ
deriving DecidableEq, Repr

inductive HandleStatus where
  | unused
  | opened
  | released
deriving DecidableEq, Repr

/-- Where the thread of a request is. `ofRelease` tells the two callers of
`famfs_icache_unflock` apart. -/
inductive FlockPc where
  | famfsFlock (h : FileHandle) (op : FlockOp)
  | famfsRelease (h : FileHandle)
  | icacheFlock (h : FileHandle)
  | setFlockHeld (h : FileHandle)
  | icacheUnflock (h : FileHandle) (ofRelease : Bool)
  | clearFlockHeld (h : FileHandle) (ofRelease : Bool)
  | unlockFlockMutex (h : FileHandle) (ofRelease : Bool)
  | putref (h : FileHandle)
deriving DecidableEq, Repr

/-- `flockMutex` is one mutex for the file system; it remembers whose request took it. -/
structure Daemon where
  status : FileHandle → HandleStatus
  flockHeld : ℕ → Bool
  flockMutex : Option FileHandle
  threads : ℕ → Option FlockPc
  granted : FileHandle → Bool

def Daemon.init : Daemon where
  status := fun _ => .unused
  flockHeld := fun _ => false
  flockMutex := none
  threads := fun _ => none
  granted := fun _ => false

def Daemon.thread (d : Daemon) (t : ℕ) (pc : Option FlockPc) : Daemon :=
  { d with threads := Function.update d.threads t pc }

def Daemon.grant (d : Daemon) (h : FileHandle) (b : Bool) : Daemon :=
  { d with granted := Function.update d.granted h b }

/-- The end of `famfs_flock`: reply and record what a success means to the caller. -/
def Daemon.replyErr (d : Daemon) (t : ℕ) (h : FileHandle) (kind : LockKind) (rc : ℤ) : Daemon :=
  let d := d.thread t none
  if rc = 0 then
    match kind with
    | .ex => d.grant h true
    | .un => d.grant h false
    | .sh => d
  else d

/-- The `switch` of `famfs_flock`. An `op` with `LOCK_NB` has no case in it. An unlock
that finds the lock held gives it up here, whatever order the rest is seen in. -/
def famfsFlock (d : Daemon) (t : ℕ) (h : FileHandle) (op : FlockOp) : Daemon :=
  match op.kind, op.lockNb with
  | .ex, false =>
      if d.flockHeld h.nodeid then d.replyErr t h .ex EINVAL
      else d.thread t (some (.icacheFlock h))
  | .un, false =>
      if d.flockHeld h.nodeid = false then d.replyErr t h .un EINVAL
      else (d.thread t (some (.icacheUnflock h false))).grant h false
  | .sh, false => d.replyErr t h .sh EINVAL
  | kind, true => d.replyErr t h kind 0

/-- `famfs_icache_unflock` back in its caller. -/
def Daemon.unflocked (d : Daemon) (t : ℕ) (h : FileHandle) (ofRelease : Bool) : Daemon :=
  if ofRelease then d.thread t (some (.putref h)) else d.replyErr t h .un 0

/-- One access to shared state; `none` when the thread is idle or waits for the mutex. -/
def runThread (d : Daemon) (t : ℕ) : Option Daemon :=
  match d.threads t with
  | none => none
  | some (.famfsFlock h op) => some (famfsFlock d t h op)
  | some (.famfsRelease h) =>
      some (if d.flockHeld h.nodeid then d.thread t (some (.icacheUnflock h true))
        else d.thread t (some (.putref h)))
  | some (.icacheFlock h) =>
      if d.flockMutex = none then
        some { d.thread t (some (.setFlockHeld h)) with flockMutex := some h }
      else none
  | some (.setFlockHeld h) =>
      some ({ d with flockHeld := Function.update d.flockHeld h.nodeid true }.replyErr t h .ex 0)
  | some (.icacheUnflock h ofRelease) =>
      some (if d.flockHeld h.nodeid = false then d.unflocked t h ofRelease
        else d.thread t (some (.clearFlockHeld h ofRelease)))
  | some (.clearFlockHeld h ofRelease) =>
      some { d.thread t (some (.unlockFlockMutex h ofRelease)) with
        flockHeld := Function.update d.flockHeld h.nodeid false }
  | some (.unlockFlockMutex h ofRelease) =>
      some ({ d with flockMutex := none }.unflocked t h ofRelease)
  | some (.putref _) => some (d.thread t none)

def FlockPc.handle : FlockPc → FileHandle
  | .famfsFlock h _ => h
  | .famfsRelease h => h
  | .icacheFlock h => h
  | .setFlockHeld h => h
  | .icacheUnflock h _ => h
  | .clearFlockHeld h _ => h
  | .unlockFlockMutex h _ => h
  | .putref h => h

/-- Steps of the daemon and its callers, with `may d t` restricting when thread `t`
may run. The kernel sends a release when the last use of the handle is over, so none
of its requests is in progress then. -/
inductive DaemonStep (may : Daemon → ℕ → Prop) : Daemon → Daemon → Prop
  | famfsOpen {d : Daemon} {h : FileHandle} (hnew : d.status h = .unused) :
      DaemonStep may d { d with status := Function.update d.status h .opened }
  | flock {d : Daemon} {h : FileHandle} (op : FlockOp) {t : ℕ} (hopen : d.status h = .opened)
      (hidle : d.threads t = none) : DaemonStep may d (d.thread t (some (.famfsFlock h op)))
  | release {d : Daemon} {h : FileHandle} {t : ℕ} (hopen : d.status h = .opened)
      (hidle : d.threads t = none) (hquiet : ∀ t' pc, d.threads t' = some pc → pc.handle ≠ h) :
      DaemonStep may d { (d.thread t (some (.famfsRelease h))).grant h false with
        status := Function.update d.status h .released }
  | run {d d' : Daemon} {t : ℕ} (hmay : may d t) (hrun : runThread d t = some d') : DaemonStep may d d'

end Famfs
