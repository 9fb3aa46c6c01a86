import Famfs.Spec.Icache

/-! `famfs_do_lookup` call by call, with `errno`, and `famfs_inode_putref` with the mutex
of the cache. A call that fails leaves its reason in `errno`; an exit that no failed call
led to finds there what some earlier call left. -/

namespace Famfs.Fused

/-- What a failed call stores in `errno`. -/
abbrev Errno := { e : ℤ // e ≠ 0 }

/-- What the calls and allocations of a lookup return. -/
structure LookupCalls where
  /-- What `errno` holds when the lookup starts. -/
  earlier : ℤ
  openat : Except Errno ℤ
  /-- The kind and the inode number. -/
  fstatat : Except Errno (ShadowKind × ℕ)
  reopen : Except Errno ℤ
  fmeta : Except Errno Unit
  /-- `famfs_read_fd_to_buf`: an allocation and a `pread`. -/
  readBuf : Except Errno Unit
  fmemopen : Except Errno Unit
  /-- Whether `famfs_parse_shadow_yaml` returns zero. -/
  parsed : Bool
  /-- The memory of a new inode. -/
  inode : Except Errno ℕ

/-- What is known of the object when the cache is searched. -/
structure LookedUp where
  kind : ShadowKind
  ino : ℕ
  newfd : ℤ

/-- The value of a call, or the jump to `out_err` with what the call left in `errno`. -/
def call {α : Type} (r : Except Errno α) : Except ℤ α := r.mapError Subtype.val

/-- `famfs_shadow_to_stat`. A text that does not parse sets no `errno`. -/
def famfsShadowToStat (calls : LookupCalls) : Except ℤ Unit := do
  call calls.fmemopen
  if calls.parsed then .ok () else .error calls.earlier

/-- The lookup up to the search in the cache, or `errno` at the error exit. -/
def lookupFile (calls : LookupCalls) (parentfd : ℤ) : Except ℤ LookedUp :=
  if parentfd < 0 then .error calls.earlier
  else do
    let newfd ← call calls.openat
    let st ← call calls.fstatat
    match st.1 with
    | .dir => .ok ⟨.dir, st.2, newfd⟩
    | .reg => do
      let _ ← call calls.reopen
      call calls.fmeta
      call calls.readBuf
      famfsShadowToStat calls
      .ok ⟨.reg, st.2, -1⟩
    | .other =>
      -- `saverr = ENOENT` does not survive the exit
      .error calls.earlier

def famfsDoLookupCalls (fuel : ℕ) (c : FamfsIcache) (parent : ℕ) (calls : LookupCalls) : Except Halt LookupOut := do
  let c ← getNode c parent
  let parentInode ← c.deref parent
  match lookupFile calls parentInode.fd with
  | .error errno => lookupErr fuel c parent errno
  | .ok file =>
    match ← famfsIcacheFindGetFromInoLocked fuel c file.ino with
    | (some a, c) => do
      let c ← famfsInodeGetrefLocked c a
      lookupFound fuel c parent a
    | (none, c) =>
      match calls.inode with
      | .ok a => do
        let inode : FamfsInode := { fd := file.newfd, ino := file.ino, refcount := 1, icache := true, parent := some parent }
        let c ← famfsIcacheInsertLocked (c.store a inode) a
        lookupFound fuel c parent a
      | .error errno => lookupErr fuel c parent errno.1

/-- The same calls without their order: `errno` is what the error exit finds. -/
def LookupCalls.sys (calls : LookupCalls) (parentfd : ℤ) : LookupSys where
  opened := calls.openat.toOption.isSome
  stated := calls.fstatat.toOption.isSome
  kind := (calls.fstatat.toOption.map (·.1)).getD .other
  reopened := calls.reopen.toOption.isSome
  fmetaMem := calls.fmeta.toOption.isSome
  yamlRead := calls.readBuf.toOption.isSome
  yamlGood := calls.fmemopen.toOption.isSome && calls.parsed
  ino := (calls.fstatat.toOption.map (·.2)).getD 0
  newfd := calls.openat.toOption.getD (-1)
  inodeMem := calls.inode.toOption
  errno :=
    match lookupFile calls parentfd, calls.inode with
    | .error errno, _ => errno
    | .ok _, .error errno => errno.1
    | .ok _, .ok _ => calls.earlier

end Famfs.Fused

namespace Famfs

/-- The cache, and whether its mutex is held. -/
structure MutexIcache where
  icache : FamfsIcache
  mutex : Bool

/-- `famfs_inode_putref`; the mutex is found through the inode both times. -/
def famfsInodePutrefMutex (fuel : ℕ) (s : MutexIcache) (a : ℕ) : Except Halt MutexIcache := do
  let inode ← s.icache.deref a
  if inode.icache = false then .error (.trap .assertion)
  else if s.mutex then .error .blocked
  else do
    let s := { s with mutex := true }
    let c ← famfsInodePutrefLocked fuel s.icache a 1
    let s := { s with icache := c }
    let inode ← s.icache.deref a
    if inode.icache = false then .error (.trap .nullPointer) else .ok { s with mutex := false }

end Famfs
