import Famfs.Lib.Machine
import Famfs.Spec.Meta

/-! The copy of a file's data into its destination mapping (`__famfs_copy_file_data`,
`famfs_copy_file_data`). With a thread pool the file is cut into tasks that run in any
interleaving while later ones are still being queued. A step of a task is one mutex
operation, one access to the shared `copy_files`, or one round of the read loop.
`events` records the calls that touch the data: offsets into the mapping count from
`destp`. -/

namespace Famfs

open Machine

def CP_CHUNKSIZE : ℕ := 128 * 0x100000

/-- The unit of the read loop inside a task. -/
def chunksize : ℕ := 0x100000

structure CopyFiles where
  srcfd : ℤ
  destfd : ℤ
  refcount : ℤ
  compare : Bool
deriving DecidableEq, Repr

structure CopyData where
  offset : ℕ
  size : ℕ
deriving DecidableEq, Repr

/-- Where a task is. `destp` is the local of that name once it is set: the way out of
a failed open jumps over its assignment. -/
inductive CopyPc where
  | start
  | lockOpen
  | openSrc
  | unlockOpen
  | copy (offset remainder : ℕ)
  | lockOut (rc : ℤ)
  | dropRef (rc : ℤ) (destp : Option ℕ)
  | unlockOut (rc : ℤ) (destp : Option ℕ) (cleanup : Bool)
  | report (rc : ℤ) (destp : Option ℕ) (cleanup : Bool)
  | cleanup (rc : ℤ) (destp : Option ℕ)
  | done (rc : ℤ)
deriving DecidableEq, Repr

structure CopyTask where
  cp : CopyData
  pc : CopyPc
deriving DecidableEq, Repr

/-- `buf` of a `pread` is the place in the mapping, or none for the private buffer. -/
inductive CopyEvent where
  | pread (offset len : ℕ) (buf : Option ℕ)
  | flushProcessorCache (offset len : ℕ)
  | munmap (destp : Option ℕ) (len : ℕ)
  | freeCf
deriving DecidableEq, Repr

/-- What `open`, `pread` and `memcmp` answer at a step. -/
structure CopyIo where
  openFd : ℤ
  bytes : ℤ
  differs : Bool
deriving DecidableEq, Repr

/-- `offset` and `remainder` belong to the loop that queues the tasks. -/
structure CopyState where
  cf : CopyFiles
  mutex : Option ℕ
  freed : Bool
  offset : ℕ
  remainder : ℕ
  tasks : List CopyTask
  events : List CopyEvent
deriving DecidableEq, Repr

def CopyState.jump (s : CopyState) (k : ℕ) (t : CopyTask) (pc : CopyPc) : CopyState :=
  { s with tasks := s.tasks.set k { t with pc := pc } }

def CopyState.emit (s : CopyState) (es : List CopyEvent) : CopyState :=
  { s with events := s.events ++ es }

/-- Every step reads the shared structure except the plain way out after the mutex. -/
def CopyPc.touchesCf : CopyPc → Bool
  | .report rc _ _ => rc ≠ 0
  | .done _ => false
  | _ => true

/-- One round of the read loop, or the flush that follows it. The flush starts at
`destp`, wherever in the file the task was. -/
def copyChunk (s : CopyState) (k : ℕ) (t : CopyTask) (offset remainder : ℕ) (io : CopyIo) :
    Except Trap CopyState :=
  if remainder = 0 then
    if s.cf.compare then .ok (s.jump k t (.lockOut 0))
    else .ok ((s.jump k t (.lockOut 0)).emit [.flushProcessorCache 0 t.cp.size])
  else
    let curChunksize := min chunksize remainder
    let buf := if s.cf.compare then none else some offset
    let s := s.emit [.pread offset curChunksize buf]
    if io.bytes < 0 then .ok (s.jump k t (.lockOut (-1)))
    else if io.bytes < curChunksize then .error .assertion
    else if s.cf.compare ∧ io.differs then .ok (s.jump k t (.lockOut (-1)))
    else .ok (s.jump k t (.copy (u64 (offset + io.bytes.toNat)) (sub64 remainder io.bytes.toNat)))

/-- The code of a task between two points where others can run; `none` when it waits
for the mutex or has returned. -/
def copyFileData (s : CopyState) (k : ℕ) (t : CopyTask) (io : CopyIo) :
    Option (Except Trap CopyState) :=
  match t.pc with
  | .start =>
      some (.ok (if 0 < s.cf.srcfd ∧ 0 < s.cf.destfd then s.jump k t (.copy t.cp.offset t.cp.size)
        else s.jump k t .lockOpen))
  | .lockOpen =>
      if s.mutex = none then some (.ok { s.jump k t .openSrc with mutex := some k }) else none
  | .openSrc =>
      if s.cf.srcfd = 0 then
        let s := { s with cf := { s.cf with srcfd := io.openFd } }
        some (.ok (if io.openFd < 0 then s.jump k t (.dropRef 0 none) else s.jump k t .unlockOpen))
      else some (.ok (s.jump k t .unlockOpen))
  | .unlockOpen =>
      some (.ok { s.jump k t (.copy t.cp.offset t.cp.size) with mutex := none })
  | .copy offset remainder => some (copyChunk s k t offset remainder io)
  | .lockOut rc =>
      if s.mutex = none then some (.ok { s.jump k t (.dropRef rc (some 0)) with mutex := some k })
      else none
  | .dropRef rc destp =>
      let refcount := s.cf.refcount - 1
      some (.ok { s.jump k t (.unlockOut rc destp (refcount = 0)) with
        cf := { s.cf with refcount := refcount } })
  | .unlockOut rc destp cleanup =>
      some (.ok { s.jump k t (.report rc destp cleanup) with mutex := none })
  | .report rc destp cleanup =>
      some (.ok (s.jump k t (if cleanup then .cleanup rc destp else .done rc)))
  | .cleanup rc destp =>
      some (.ok { (s.jump k t (.done rc)).emit [.munmap destp t.cp.size, .freeCf] with freed := true })
  | .done _ => none

def stepTask (s : CopyState) (k : ℕ) (io : CopyIo) : Option (Except Trap CopyState) :=
  match s.tasks[k]? with
  | none => none
  | some t =>
    if s.freed ∧ t.pc.touchesCf then some (.error .useAfterFree) else copyFileData s k t io

/-- One round of the loop that hands tasks to the thread pool. -/
def queueChunk (s : CopyState) : CopyState :=
  let thisChunk := min s.remainder CP_CHUNKSIZE
  { s with
    tasks := s.tasks ++ [⟨⟨s.offset, thisChunk⟩, .start⟩]
    remainder := s.remainder - thisChunk
    offset := s.offset + thisChunk }

/-- `famfs_copy_file_data` up to its loop, or up to its one call without a pool. -/
def famfsCopyFileData (threaded compare : Bool) (srcfd destfd : ℤ) (size : ℕ) : CopyState :=
  let nchunks := u64 (size + CP_CHUNKSIZE - 1) / CP_CHUNKSIZE
  if threaded then
    { cf := ⟨0, 0, s32 nchunks, compare⟩, mutex := none, freed := false, offset := 0,
      remainder := size, tasks := [], events := [] }
  else
    { cf := ⟨srcfd, destfd, 1, compare⟩, mutex := none, freed := false, offset := size,
      remainder := 0, tasks := [⟨⟨0, size⟩, .start⟩], events := [] }

/-- Steps of the copy, with `may s k io` restricting what task `k` meets. -/
inductive CopyStep (may : CopyState → ℕ → CopyIo → Prop) : CopyState → CopyState → Prop
  | queue {s : CopyState} (hrem : 0 < s.remainder) : CopyStep may s (queueChunk s)
  | task {s s' : CopyState} {k : ℕ} {io : CopyIo} (hmay : may s k io)
      (hstep : stepTask s k io = some (.ok s')) : CopyStep may s s'

def CopyState.Complete (s : CopyState) : Prop :=
  s.remainder = 0 ∧ ∀ t ∈ s.tasks, ∃ rc, t.pc = .done rc

end Famfs
