import Famfs.Spec.Icache

/-! The FUSE daemon with many threads over one inode cache. What a handler has still to do to the
cache is a list of operations. Each of them runs alone, under the mutex of the cache or as one access
without it, and the handlers of the threads interleave between them. The kernel sends requests to
inodes that it knows, and forgets the rest of its lookups only when it neither has the inode open nor
waits for a reply. `readdir` without attributes, `getxattr` and `get_daxdev` leave the cache alone. -/

namespace Famfs.Fused

/-- What a reply gives to the kernel, or keeps for nobody. -/
inductive Gain where
  | nothing
  | entries (granted : List ℕ)
  | opened
  | locked
deriving DecidableEq

inductive Op where
  /-- `famfs_get_inode_from_nodeid`. Handlers that are `checked` reply when there is no inode. -/
  | get (nodeid : ℕ) (checked : Bool)
  | getref (a : ℕ)
  | putref (a : ℕ)
  | putrefLocked (a count : ℕ)
  | unref (a n : ℕ)
  | pin (a : ℕ)
  | dump (a : ℕ)
  /-- `LOCK_EX` looks at `flock_held`, takes the mutex and sets it. -/
  | flock (a : ℕ)
  | lockMutex (a : ℕ)
  | setHeld (a : ℕ) (held : Bool)
  /-- The callers of `famfs_icache_unflock` look at `flock_held`, and it looks again. -/
  | tryUnflock (a : ℕ)
  | unflock (a : ℕ)
  | unlockMutex
  /-- `famfs_do_lookup` with its reference to the parent; `plus` are the entries that `readdirplus`
  has in its buffer. -/
  | search (parent : ℕ) (plus : Option (List ℕ))
  /-- `fuse_add_direntry_plus`. -/
  | fit (parent a : ℕ) (granted : List ℕ)
  /-- The head of the loop of `famfs_do_readdir`. -/
  | dirplus (parent : ℕ) (granted : List ℕ)
  | reply (nodeid : ℕ) (gain : Gain)
deriving DecidableEq

/-- What `readdir` finds. An entry that is `.` or `..` is not looked up. -/
inductive DirNext where
  | stop
  | dots
  | name

/-- What the system answers to one operation. -/
structure Answer where
  sys : LookupSys
  fits : Bool
  next : DirNext

def famfsForgetOneOps (nodeid nlookup : ℕ) : List Op := [.get nodeid false, .unref nodeid (nlookup + 1)]

def famfsForgetMultiOps (forgets : List (ℕ × ℕ)) : List Op :=
  forgets.flatMap fun f => famfsForgetOneOps f.1 f.2

def famfsLookupOps (parent : ℕ) (plus : Option (List ℕ)) : List Op := [.get parent false, .search parent plus]

def famfsReaddirplusOps (nodeid : ℕ) : List Op := [.dirplus nodeid []]

/-- Of `famfs_statfs` too. -/
def famfsGetattrOps (nodeid : ℕ) : List Op := [.get nodeid false, .putref nodeid, .reply nodeid .nothing]

def famfsSetattrOps (nodeid : ℕ) (size : Bool) : List Op :=
  if size then [.get nodeid false, .reply nodeid .nothing, .putref nodeid]
  else [.get nodeid false, .pin nodeid, .reply nodeid .nothing, .putref nodeid]

/-- The reference is dropped after the reply of an `opendir` that succeeds. -/
def famfsOpendirOps (nodeid : ℕ) (opened : Bool) : List Op :=
  if opened then [.get nodeid false, .reply nodeid .nothing, .putref nodeid]
  else [.get nodeid false, .putref nodeid, .reply nodeid .nothing]

/-- `some` if there is memory for the message, and whether the map could be put into it. -/
def famfsGetFmapOps (nodeid : ℕ) : Option Bool → List Op
  | none => [.reply nodeid .nothing]
  | some true => [.get nodeid true, .reply nodeid .nothing, .putref nodeid]
  | some false => [.get nodeid true, .putref nodeid, .reply nodeid .nothing]

def famfsOpenOps (nodeid : ℕ) : List Op := [.get nodeid false, .getref nodeid, .reply nodeid .opened]

def famfsReleaseOps (nodeid : ℕ) : List Op :=
  [.get nodeid false, .reply nodeid .nothing, .tryUnflock nodeid, .putrefLocked nodeid 2]

def famfsFlockOps (nodeid : ℕ) (op : FlockOp) : List Op :=
  match op.kind, op.lockNb with
  | _, true | .sh, false => [.get nodeid true, .reply nodeid .locked]
  | .ex, false => [.get nodeid false, .flock nodeid, .reply nodeid .locked]
  | .un, false => [.get nodeid false, .tryUnflock nodeid, .reply nodeid .locked]

/-- Requests that take nothing from the kernel's counts. -/
inductive KernelCall where
  | lookup (parent : ℕ)
  | readdirplus (nodeid : ℕ)
  | getattr (nodeid : ℕ)
  | setattr (nodeid : ℕ) (size : Bool)
  | opendir (nodeid : ℕ) (opened : Bool)
  | getFmap (nodeid : ℕ) (message : Option Bool)
  | openFile (nodeid : ℕ)
  | flock (nodeid : ℕ) (op : FlockOp)

def KernelCall.nodeid : KernelCall → ℕ
  | .lookup nodeid | .readdirplus nodeid | .getattr nodeid | .setattr nodeid _ | .opendir nodeid _
  | .getFmap nodeid _ | .openFile nodeid | .flock nodeid _ => nodeid

def KernelCall.ops : KernelCall → List Op
  | .lookup parent => famfsLookupOps parent none
  | .readdirplus nodeid => famfsReaddirplusOps nodeid
  | .getattr nodeid => famfsGetattrOps nodeid
  | .setattr nodeid size => famfsSetattrOps nodeid size
  | .opendir nodeid opened => famfsOpendirOps nodeid opened
  | .getFmap nodeid message => famfsGetFmapOps nodeid message
  | .openFile nodeid => famfsOpenOps nodeid
  | .flock nodeid op => famfsFlockOps nodeid op

/-- What follows a lookup that found or made `a`. -/
def lookupDone (parent a : ℕ) (plus : Option (List ℕ)) : List Op :=
  [.dump a, .putref parent, .putref a,
    match plus with
    | none => .reply parent (.entries [a])
    | some granted => .fit parent a granted]

/-- The exit `out_err`. An error of `readdirplus` is a reply with what it has. Where the exit
returns 0 it is none: the entry stays without a nodeid, and if it fits the loop goes on. -/
def lookupFailed (ans : Answer) (parent : ℕ) (plus : Option (List ℕ)) : List Op :=
  [.putref parent,
    match plus with
    | none => .reply parent (.entries [])
    | some granted =>
      if ans.sys.errno = 0 ∧ ans.fits then .dirplus parent granted else .reply parent (.entries granted)]

/-- One operation: what the handler has to do after it, and the cache. -/
def Op.run (fuel : ℕ) (ans : Answer) (c : FamfsIcache) (rest : List Op) : Op → Except Halt (List Op × FamfsIcache)
  | .get nodeid checked => do
    match ← famfsGetInodeFromNodeid c nodeid with
    | (some _, c) => .ok (rest, c)
    | (none, c) => if checked then .ok ([.reply nodeid .nothing], c) else .error (.trap .nullPointer)
  | .getref a => do
    let c ← famfsInodeGetrefLocked c a
    .ok (rest, c)
  | .putref a => do
    let c ← famfsInodePutref fuel c a
    .ok (rest, c)
  | .putrefLocked a count => do
    let c ← famfsInodePutrefLocked fuel c a count
    .ok (rest, c)
  | .unref a n => do
    let c ← famfsIcacheUnrefInode fuel c a n
    .ok (rest, c)
  | .pin a => do
    let c ← c.modify a fun inode => { inode with pinned := true }
    .ok (rest, c)
  | .dump a => do
    dumpInode c a
    .ok (rest, c)
  | .flock a => do
    let inode ← c.deref a
    .ok (if inode.flockHeld then rest else .lockMutex a :: rest, c)
  | .lockMutex a => if c.flockMutex then .error .blocked else .ok (.setHeld a true :: rest, { c with flockMutex := true })
  | .setHeld a held => do
    let c ← c.modify a fun inode => { inode with flockHeld := held }
    .ok (rest, c)
  | .tryUnflock a => do
    let inode ← c.deref a
    .ok (if inode.flockHeld then .unflock a :: rest else rest, c)
  | .unflock a => do
    let inode ← c.deref a
    .ok (if inode.flockHeld then .setHeld a false :: .unlockMutex :: rest else rest, c)
  | .unlockMutex => .ok (rest, { c with flockMutex := false })
  | .search parent plus => do
    let parentInode ← c.deref parent
    if ans.sys.searches parentInode.fd then do
      match ← famfsIcacheFindGetFromInoLocked fuel c ans.sys.ino with
      | (some a, c) => do
        let c ← famfsInodeGetrefLocked c a
        .ok (lookupDone parent a plus, c)
      | (none, c) =>
        match ans.sys.inodeMem with
        | some a => do
          let c ← famfsIcacheInsertLocked (famfsInodeAlloc c a ans.sys parent) a
          .ok (lookupDone parent a plus, c)
        | none => .ok (lookupFailed ans parent plus, c)
    else .ok (lookupFailed ans parent plus, c)
  | .fit parent a granted =>
    if ans.fits then .ok ([.dirplus parent (granted ++ [a])], c)
    else .ok (famfsForgetOneOps a 1 ++ [.reply parent (.entries granted)], c)
  | .dirplus parent granted =>
    match ans.next with
    | .stop => .ok ([.reply parent (.entries granted)], c)
    | .dots => .ok ([.dirplus parent granted], c)
    | .name => .ok (famfsLookupOps parent (some granted), c)
  | .reply _ _ => .ok (rest, c)

/-- Inodes that the kernel waits for a reply about. -/
def Op.awaits : Op → Option ℕ
  | .reply nodeid _ => some nodeid
  | .search parent _ | .fit parent _ _ | .dirplus parent _ => some parent
  | _ => none

def Awaits (ops : List Op) (a : ℕ) : Prop := ∃ op ∈ ops, op.awaits = some a

/-- The cache, what each thread has still to do, and what the kernel counts. `leaked` is no state of
the program: the opens and lock requests answered so far. -/
structure Daemon (T : Type) where
  icache : FamfsIcache
  todo : T → List Op
  lookups : ℕ → ℕ
  opens : ℕ → ℕ
  leaked : ℕ → ℕ

section

variable {T : Type} [DecidableEq T]

def Daemon.init (T : Type) (rootFd : ℤ) : Daemon T :=
  ⟨famfsIcacheInit rootFd, fun _ => [], fun _ => 0, fun _ => 0, fun _ => 0⟩

def Daemon.goto (s : Daemon T) (t : T) (ops : List Op) : Daemon T :=
  { s with todo := Function.update s.todo t ops }

/-- Inodes that the kernel knows. -/
def Daemon.Named (s : Daemon T) (a : ℕ) : Prop := a = FUSE_ROOT_ID ∨ 0 < s.lookups a

/-- Inodes that the kernel does not forget. -/
def Daemon.Kept (s : Daemon T) (a : ℕ) : Prop := 0 < s.opens a ∨ ∃ t, Awaits (s.todo t) a

def Daemon.fuel (s : Daemon T) : ℕ := s.icache.count + 2

/-- The kernel's counts after a reply. -/
def Daemon.account (s : Daemon T) : Op → Daemon T
  | .reply _ (.entries granted) => { s with lookups := fun a => s.lookups a + granted.count a }
  | .reply nodeid .opened =>
    { s with
      opens := Function.update s.opens nodeid (s.opens nodeid + 1)
      leaked := Function.update s.leaked nodeid (s.leaked nodeid + 1) }
  | .reply nodeid .locked => { s with leaked := Function.update s.leaked nodeid (s.leaked nodeid + 1) }
  | _ => s

/-- The lookups of `a` that a list of forgets gives back. -/
def forgotten (forgets : List (ℕ × ℕ)) (a : ℕ) : ℕ :=
  (forgets.map fun f => if f.1 = a then f.2 else 0).sum

inductive DaemonStep : Daemon T → Daemon T → Prop
  | send {s : Daemon T} {t : T} (call : KernelCall) (hidle : s.todo t = []) (hnamed : s.Named call.nodeid) :
      DaemonStep s (s.goto t call.ops)
  | forget {s : Daemon T} {t : T} {forgets : List (ℕ × ℕ)} (hidle : s.todo t = []) (hpos : ∀ f ∈ forgets, 0 < f.2)
      (hle : ∀ a, forgotten forgets a ≤ s.lookups a)
      (hkept : ∀ a, 0 < forgotten forgets a → s.Kept a → forgotten forgets a < s.lookups a) :
      DaemonStep s { s.goto t (famfsForgetMultiOps forgets) with
        lookups := fun a => s.lookups a - forgotten forgets a }
  | release {s : Daemon T} {t : T} {nodeid : ℕ} (hidle : s.todo t = []) (hopen : 0 < s.opens nodeid) :
      DaemonStep s { s.goto t (famfsReleaseOps nodeid) with
        opens := Function.update s.opens nodeid (s.opens nodeid - 1) }
  /-- New memory is not in use. -/
  | run {s : Daemon T} {t : T} {op : Op} {rest ops : List Op} {ans : Answer} {c : FamfsIcache}
      (htodo : s.todo t = op :: rest) (hmem : ∀ a, ans.sys.inodeMem = some a → s.icache.heap a = none)
      (hrun : op.run s.fuel ans s.icache rest = .ok (ops, c)) :
      DaemonStep s { (s.account op).goto t ops with icache := c }

end

end Famfs.Fused
