import Famfs.Spec.Flock

/-! The inode cache of the FUSE daemon: `famfs_fused_icache.c`, and what the requests of
`famfs_fused.c` do to it. Inodes lie in a heap; the address of one is its nodeid, and
`FUSE_ROOT_ID` stands for the address of the root, which is part of the cache. A load or
store through an address that is not allocated is a trap. Requests run one after the
other. The loop and the recursion take fuel. -/

namespace Famfs

open Machine

def FUSE_ROOT_ID : ℕ := 1

@[ext]
structure FamfsInode where
  next : ℕ := 0
  prev : ℕ := 0
  fd : ℤ := 0
  ino : ℕ := 0
  refcount : ℕ := 0
  /-- The pointer to the cache, or `NULL`. -/
  icache : Bool := false
  pinned : Bool := false
  parent : Option ℕ := none
  flockHeld : Bool := false
deriving DecidableEq

structure FamfsIcache where
  heap : ℕ → Option FamfsInode
  count : ℕ
  /-- Whether `flock_mutex` is held. -/
  flockMutex : Bool

/-- Why a function does not return. -/
inductive Halt where
  | trap (t : Trap)
  | blocked
  | fuel
deriving DecidableEq

def famfsIcacheInit (rootFd : ℤ) : FamfsIcache :=
  ⟨fun a => if a = FUSE_ROOT_ID then
      some { next := FUSE_ROOT_ID, prev := FUSE_ROOT_ID, fd := rootFd, ino := FUSE_ROOT_ID, refcount := 2, icache := true }
    else none, 0, false⟩

namespace FamfsIcache

def deref (c : FamfsIcache) (a : ℕ) : Except Halt FamfsInode :=
  match c.heap a with
  | some inode => .ok inode
  | none => .error (.trap .useAfterFree)

def store (c : FamfsIcache) (a : ℕ) (inode : FamfsInode) : FamfsIcache :=
  { c with heap := Function.update c.heap a (some inode) }

def modify (c : FamfsIcache) (a : ℕ) (f : FamfsInode → FamfsInode) : Except Halt FamfsIcache := do
  let inode ← c.deref a
  .ok (c.store a (f inode))

end FamfsIcache

/-- The loop of `dump_icache`. -/
def dumpLoop (c : FamfsIcache) : ℕ → ℕ → List ℕ
  | 0, _ => []
  | fuel + 1, p =>
    if p = FUSE_ROOT_ID then []
    else p :: dumpLoop c fuel ((c.heap p).elim 0 (·.next))

/-- The cached inodes, as `dump_icache` finds them. -/
def FamfsIcache.cached (c : FamfsIcache) : List ℕ := dumpLoop c (c.count + 1) ((c.heap FUSE_ROOT_ID).elim 0 (·.next))

def famfsInodeGetrefLocked (c : FamfsIcache) (a : ℕ) : Except Halt FamfsIcache :=
  c.modify a fun inode => { inode with refcount := inode.refcount + 1 }

/-- The `for` loop of `famfs_icache_find_get_from_ino_locked`. -/
def findLoop (ino : ℕ) : ℕ → FamfsIcache → ℕ → Except Halt (Option ℕ × FamfsIcache)
  | 0, _, _ => .error .fuel
  | fuel + 1, c, p =>
    if p = FUSE_ROOT_ID then .ok (none, c)
    else do
      let inode ← c.deref p
      if inode.ino = ino then
        if inode.refcount = 0 ∧ inode.pinned = false then .error (.trap .assertion)
        else do
          let c ← famfsInodeGetrefLocked c p
          .ok (some p, c)
      else findLoop ino fuel c inode.next

def famfsIcacheFindGetFromInoLocked (fuel : ℕ) (c : FamfsIcache) (ino : ℕ) : Except Halt (Option ℕ × FamfsIcache) :=
  if ino = FUSE_ROOT_ID then do
    let c ← famfsInodeGetrefLocked c FUSE_ROOT_ID
    .ok (some FUSE_ROOT_ID, c)
  else do
    let root ← c.deref FUSE_ROOT_ID
    findLoop ino fuel c root.next

def famfsIcacheInsertLocked (c : FamfsIcache) (a : ℕ) : Except Halt FamfsIcache := do
  let c ← c.modify a fun inode => { inode with refcount := 2 }
  let root ← c.deref FUSE_ROOT_ID
  let c ← c.modify root.next fun inode => { inode with prev := a }
  let c ← c.modify a fun inode => { inode with next := root.next, prev := FUSE_ROOT_ID }
  let c ← c.modify FUSE_ROOT_ID fun inode => { inode with next := a }
  let c ← c.modify a fun inode => { inode with icache := true }
  let inode ← c.deref a
  let c ← match inode.parent with
    | some p => famfsInodeGetrefLocked c p
    | none => .ok c
  .ok { c with count := c.count + 1 }

def famfsInodeFree (c : FamfsIcache) (a : ℕ) : Except Halt FamfsIcache := do
  let inode ← c.deref a
  if inode.ino = FUSE_ROOT_ID then .ok c else .ok { c with heap := Function.update c.heap a none }

/-- Frees the inode with its last reference, and then drops one on its parent. -/
def famfsInodePutrefLocked : ℕ → FamfsIcache → ℕ → ℕ → Except Halt FamfsIcache
  | 0, _, _, _ => .error .fuel
  | fuel + 1, c, a, count => do
    let inode ← c.deref a
    if inode.refcount < count then .error (.trap .assertion)
    else
      let c := c.store a { inode with refcount := inode.refcount - count }
      if inode.refcount - count = 0 ∧ inode.pinned = false ∧ inode.ino ≠ FUSE_ROOT_ID then do
        let c ← c.modify inode.next fun next => { next with prev := inode.prev }
        let c ← c.modify inode.prev fun prev => { prev with next := inode.next }
        if inode.icache = false then .error (.trap .nullPointer)
        else do
          let c := { c with count := c.count - 1 }
          let c ← c.modify a fun inode => { inode with icache := false }
          let c ← match inode.parent with
            | some p => famfsInodePutrefLocked fuel c p 1
            | none => .ok c
          let c ← c.modify a fun inode => { inode with parent := none }
          famfsInodeFree c a
      else .ok c

/-- The mutex is unlocked through the inode, after the reference was dropped. -/
def famfsInodePutref (fuel : ℕ) (c : FamfsIcache) (a : ℕ) : Except Halt FamfsIcache := do
  let inode ← c.deref a
  if inode.icache = false then .error (.trap .assertion)
  else do
    let c ← famfsInodePutrefLocked fuel c a 1
    let inode ← c.deref a
    if inode.icache = false then .error (.trap .nullPointer) else .ok c

def famfsIcacheUnrefInode (fuel : ℕ) (c : FamfsIcache) (a n : ℕ) : Except Halt FamfsIcache := do
  let inode ← c.deref a
  if inode.refcount < n ∨ inode.icache = false then .error (.trap .assertion)
  else famfsInodePutrefLocked fuel c a n

def famfsGetInodeFromNodeid (c : FamfsIcache) (nodeid : ℕ) : Except Halt (Option ℕ × FamfsIcache) := do
  let inode ← c.deref nodeid
  if inode.icache = false ∨ inode.refcount < 1 then .ok (none, c)
  else do
    let c ← famfsInodeGetrefLocked c nodeid
    .ok (some nodeid, c)

/-- What `dump_inode` reads. -/
def dumpInode (c : FamfsIcache) (a : ℕ) : Except Halt Unit := do
  let inode ← c.deref a
  match inode.parent with
  | some p => do
    let _ ← c.deref p
    .ok ()
  | none => .ok ()

/-- The start of a handler that goes on to use the inode it got. -/
def getNode (c : FamfsIcache) (nodeid : ℕ) : Except Halt FamfsIcache := do
  match ← famfsGetInodeFromNodeid c nodeid with
  | (some _, c) => .ok c
  | (none, _) => .error (.trap .nullPointer)

/-- What `famfs_inode_free` closes. -/
def FamfsInode.openFd (inode : FamfsInode) : List ℤ :=
  if inode.ino ≠ FUSE_ROOT_ID ∧ 0 < inode.fd then [inode.fd] else []

/-- The loop of `famfs_icache_destroy`, with the file descriptors that it closes. -/
def destroyLoop : ℕ → FamfsIcache → Except Halt (List ℤ × FamfsIcache)
  | 0, _ => .error .fuel
  | fuel + 1, c => do
    let root ← c.deref FUSE_ROOT_ID
    if root.next = FUSE_ROOT_ID then .ok ([], c)
    else do
      let next ← c.deref root.next
      let c := c.store FUSE_ROOT_ID { root with next := next.next }
      let c ← famfsInodeFree c root.next
      let (closed, c) ← destroyLoop fuel c
      .ok (next.openFd ++ closed, c)

def famfsIcacheDestroy (fuel : ℕ) (c : FamfsIcache) : Except Halt (List ℤ × FamfsIcache) := do
  let (closed, c) ← destroyLoop fuel c
  let root ← c.deref FUSE_ROOT_ID
  .ok (closed ++ if 0 ≤ root.fd then [root.fd] else [], c)

namespace Fused

inductive ShadowKind where
  | dir
  | reg
  | other
deriving DecidableEq

/-- What the system calls and allocations of a lookup return. -/
structure LookupSys where
  opened : Bool
  stated : Bool
  kind : ShadowKind
  reopened : Bool
  fmetaMem : Bool
  yamlRead : Bool
  yamlGood : Bool
  ino : ℕ
  newfd : ℤ
  inodeMem : Option ℕ
  /-- What `errno` holds at the error exit. -/
  errno : ℤ

/-- Whether a lookup comes to the search in the cache. -/
def LookupSys.searches (sys : LookupSys) (parentfd : ℤ) : Bool :=
  0 ≤ parentfd && sys.opened && sys.stated &&
    match sys.kind with
    | .dir => true
    | .reg => sys.reopened && sys.fmetaMem && sys.yamlRead && sys.yamlGood
    | .other => false

/-- The inode that a lookup makes. Regular files are not kept open. -/
def newInode (sys : LookupSys) (parent : ℕ) : FamfsInode :=
  { fd := if sys.kind = .dir then sys.newfd else -1, ino := sys.ino, refcount := 1, icache := true, parent := some parent }

def famfsInodeAlloc (c : FamfsIcache) (a : ℕ) (sys : LookupSys) (parent : ℕ) : FamfsIcache :=
  c.store a (newInode sys parent)

/-- The code `famfs_do_lookup` returns, the nodeid it puts into the entry, and the cache. -/
structure LookupOut where
  rc : ℤ
  ino : Option ℕ
  icache : FamfsIcache

/-- The exit with an inode. -/
def lookupFound (fuel : ℕ) (c : FamfsIcache) (parent a : ℕ) : Except Halt LookupOut := do
  dumpInode c a
  let c ← famfsInodePutref fuel c parent
  let c ← famfsInodePutref fuel c a
  .ok ⟨0, some a, c⟩

/-- The exit `out_err`. -/
def lookupErr (fuel : ℕ) (c : FamfsIcache) (parent : ℕ) (errno : ℤ) : Except Halt LookupOut := do
  let c ← famfsInodePutref fuel c parent
  .ok ⟨errno, none, c⟩

def famfsDoLookup (fuel : ℕ) (c : FamfsIcache) (parent : ℕ) (sys : LookupSys) : Except Halt LookupOut := do
  let c ← getNode c parent
  let parentInode ← c.deref parent
  if sys.searches parentInode.fd then do
    match ← famfsIcacheFindGetFromInoLocked fuel c sys.ino with
    | (some a, c) => do
      let c ← famfsInodeGetrefLocked c a
      lookupFound fuel c parent a
    | (none, c) =>
      match sys.inodeMem with
      | some a => do
        let c ← famfsIcacheInsertLocked (famfsInodeAlloc c a sys parent) a
        lookupFound fuel c parent a
      | none => lookupErr fuel c parent sys.errno
  else lookupErr fuel c parent sys.errno

def famfsForgetOne (fuel : ℕ) (c : FamfsIcache) (nodeid nlookup : ℕ) : Except Halt FamfsIcache := do
  let c ← getNode c nodeid
  famfsIcacheUnrefInode fuel c nodeid (nlookup + 1)

/-- Both ways out of it drop the reference. -/
def famfsGetattr (fuel : ℕ) (c : FamfsIcache) (nodeid : ℕ) : Except Halt FamfsIcache := do
  let c ← getNode c nodeid
  famfsInodePutref fuel c nodeid

/-- A change of the size is refused; any other change pins the inode. -/
def famfsSetattr (fuel : ℕ) (c : FamfsIcache) (nodeid : ℕ) (size : Bool) : Except Halt FamfsIcache := do
  let c ← getNode c nodeid
  let c ← c.modify nodeid fun inode => if size then inode else { inode with pinned := true }
  famfsInodePutref fuel c nodeid

def famfsOpen (c : FamfsIcache) (nodeid : ℕ) : Except Halt FamfsIcache := do
  let c ← getNode c nodeid
  famfsInodeGetrefLocked c nodeid

def famfsIcacheUnflock (c : FamfsIcache) (a : ℕ) : Except Halt FamfsIcache := do
  let inode ← c.deref a
  if inode.flockHeld then .ok { c.store a { inode with flockHeld := false } with flockMutex := false } else .ok c

def famfsIcacheFlock (c : FamfsIcache) (a : ℕ) : Except Halt FamfsIcache :=
  if c.flockMutex then .error .blocked
  else
    let c := { c with flockMutex := true }
    c.modify a fun inode => { inode with flockHeld := true }

def famfsRelease (fuel : ℕ) (c : FamfsIcache) (nodeid : ℕ) : Except Halt FamfsIcache := do
  let c ← getNode c nodeid
  let c ← famfsIcacheUnflock c nodeid
  famfsInodePutrefLocked fuel c nodeid 2

/-- An `op` with `LOCK_NB` has no case in the `switch`. No way out drops the reference. -/
def famfsFlock (c : FamfsIcache) (nodeid : ℕ) (op : FlockOp) : Except Halt FamfsIcache := do
  let (inode?, c) ← famfsGetInodeFromNodeid c nodeid
  match op.kind, op.lockNb, inode? with
  | _, true, _ => .ok c
  | .sh, false, _ => .ok c
  | _, false, none => .error (.trap .nullPointer)
  | .ex, false, some a => do
    let inode ← c.deref a
    if inode.flockHeld then .ok c else famfsIcacheFlock c a
  | .un, false, some a => famfsIcacheUnflock c a

inductive Request where
  | lookup (parent : ℕ) (sys : LookupSys)
  | forget (nodeid nlookup : ℕ)
  | getattr (nodeid : ℕ)
  | setattr (nodeid : ℕ) (size : Bool)
  | openFile (nodeid : ℕ)
  | release (nodeid : ℕ)
  | flock (nodeid : ℕ) (op : FlockOp)

/-- The nodeid a reply grants a lookup on, and the cache after it. -/
def handle (fuel : ℕ) (c : FamfsIcache) : Request → Except Halt (Option ℕ × FamfsIcache)
  | .lookup parent sys => do
    let out ← famfsDoLookup fuel c parent sys
    .ok (out.ino, out.icache)
  | .forget nodeid nlookup => do .ok (none, ← famfsForgetOne fuel c nodeid nlookup)
  | .getattr nodeid => do .ok (none, ← famfsGetattr fuel c nodeid)
  | .setattr nodeid size => do .ok (none, ← famfsSetattr fuel c nodeid size)
  | .openFile nodeid => do .ok (none, ← famfsOpen c nodeid)
  | .release nodeid => do .ok (none, ← famfsRelease fuel c nodeid)
  | .flock nodeid op => do .ok (none, ← famfsFlock c nodeid op)

/-- The cache, with the lookups granted and not yet forgotten and the opens not yet
released of each nodeid, as the kernel counts them. -/
structure FuseState where
  icache : FamfsIcache
  lookups : ℕ → ℕ
  opens : ℕ → ℕ

def FuseState.init (rootFd : ℤ) : FuseState := ⟨famfsIcacheInit rootFd, fun _ => 0, fun _ => 0⟩

/-- Nodeids in the cache, and the root. -/
def FuseState.Named (s : FuseState) (nodeid : ℕ) : Prop := (s.icache.heap nodeid).isSome

/-- Requests the kernel may send. New memory is not in use. -/
def FuseState.Allowed (s : FuseState) : Request → Prop
  | .lookup parent sys => s.Named parent ∧ ∀ a, sys.inodeMem = some a → s.icache.heap a = none
  | .forget nodeid nlookup => s.Named nodeid ∧ nlookup ≤ s.lookups nodeid
  | .release nodeid => s.Named nodeid ∧ 1 ≤ s.opens nodeid
  | .getattr nodeid | .setattr nodeid _ | .openFile nodeid | .flock nodeid _ => s.Named nodeid

instance (s : FuseState) (req : Request) : Decidable (s.Allowed req) := by
  unfold FuseState.Allowed FuseState.Named
  cases req with
  | lookup parent sys =>
    cases h : sys.inodeMem with
    | none => exact decidable_of_iff (s.icache.heap parent).isSome (by simp [h])
    | some a => exact decidable_of_iff ((s.icache.heap parent).isSome ∧ (s.icache.heap a).isNone) (by simp [h])
  | _ => exact inferInstance

/-- The kernel's counts after the reply. -/
def FuseState.account (s : FuseState) (granted : Option ℕ) (c : FamfsIcache) : Request → FuseState
  | .lookup _ _ =>
    match granted with
    | some a => ⟨c, Function.update s.lookups a (s.lookups a + 1), s.opens⟩
    | none => ⟨c, s.lookups, s.opens⟩
  | .forget nodeid nlookup => ⟨c, Function.update s.lookups nodeid (s.lookups nodeid - nlookup), s.opens⟩
  | .openFile nodeid => ⟨c, s.lookups, Function.update s.opens nodeid (s.opens nodeid + 1)⟩
  | .release nodeid => ⟨c, s.lookups, Function.update s.opens nodeid (s.opens nodeid - 1)⟩
  | .getattr _ | .setattr _ _ | .flock _ _ => ⟨c, s.lookups, s.opens⟩

/-- More than the cascade of any request takes. -/
def FuseState.fuel (s : FuseState) : ℕ := s.icache.count + 2

/-- The state after a request that completes. -/
def FuseState.serve (s : FuseState) (req : Request) : Option FuseState :=
  match handle s.fuel s.icache req with
  | .ok (granted, c) => some (s.account granted c req)
  | .error _ => none

/-- One complete request. -/
def FuseStep (s : FuseState) (req : Request) (t : FuseState) : Prop := s.Allowed req ∧ s.serve req = some t

/-- The requests with the state after each, if the kernel may send them and they complete. -/
def FuseState.trace : FuseState → List Request → Option (List (Request × FuseState))
  | _, [] => some []
  | s, req :: reqs =>
    if s.Allowed req then do
      let t ← s.serve req
      let rest ← t.trace reqs
      some ((req, t) :: rest)
    else none

end Fused

end Famfs
