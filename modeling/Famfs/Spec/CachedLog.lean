import Famfs.Lib.Cache
import Famfs.Spec.Alloc
import Famfs.Spec.Logplay

/-! The two scans of a log that other nodes append to, on a node whose cache may hold old contents
of its slots. The scan of the allocator works on the slot itself; the replay works on a copy that
it has made of the slot. -/

namespace Famfs

open Cache Machine

/-- Where an entry is read: in the log, or in the variable `le` of `__famfs_logplay`. -/
inductive EntryAddr where
  | slot (i : ℕ)
  | le
deriving DecidableEq

abbrev LogMemory := Memory EntryAddr FamfsLogEntry

section

variable (crc32 : Crc32)

/-- `famfs_validate_log_entry` by address: what fails is invalidated and looked at once more. -/
def validateEntryAt (a : EntryAddr) (index : ℕ) (m : LogMemory) : ℕ × LogMemory :=
  let (le, m) := m.load a
  if logEntryErrors crc32 le index ≠ 0 then
    let (le, m) := (m.invalidate a).load a
    (logEntryErrors crc32 le index, m)
  else (0, m)

/-- The entry that `famfs_build_bitmap` takes from a slot, if it accepts one. -/
def scanSlot (i : ℕ) (m : LogMemory) : Option FamfsLogEntry × LogMemory :=
  let (errors, m) := validateEntryAt crc32 (.slot i) i m
  if errors ≠ 0 then (none, m)
  else
    let (le, m) := m.load (.slot i)
    (some le, m)

/-- The entry that `__famfs_logplay` takes from a slot, if it accepts one. -/
def replaySlot (i : ℕ) (m : LogMemory) : Option FamfsLogEntry × LogMemory :=
  let (le, m) := m.load (.slot i)
  let (errors, m) := validateEntryAt crc32 .le i (m.store .le le)
  if errors ≠ 0 then (none, m)
  else
    let (le, m) := m.load .le
    (some le, m)

/-- What the scan does with an entry that it has accepted. -/
def buildBody (allocUnit : ℕ) (past : ℕ → ℕ) (b : BuiltBitmap) : FamfsLogEntryBody → Except Trap BuiltBitmap
  | .fm m => (m.fmFmap.scannedExtents past).foldlM (markExtent allocUnit)
      { b with
        fsizeSum := u64 (b.fsizeSum + m.fmSize)
        stats := { b.stats with fLogged := b.stats.fLogged + 1 } }
  | .md _ => .ok { b with stats := { b.stats with dLogged := b.stats.dLogged + 1 } }
  | .dd _ => .ok b
  | .other _ _ => .ok b

/-- The words behind the map in slot `i` as the node has them. -/
def pastSlot (m : LogMemory) (i k : ℕ) : ℕ := (m.seen (.slot (i + (67 + k) / 68))).word ((67 + k) % 68)

def cachedBuildEntry (allocUnit : ℕ) (s : BuiltBitmap × LogMemory) (i : ℕ) : Except Trap (BuiltBitmap × LogMemory) :=
  let b := { s.1 with stats := { s.1.stats with nEntries := s.1.stats.nEntries + 1 } }
  match scanSlot crc32 i s.2 with
  | (none, m) => .ok ({ b with stats := { b.stats with badEntries := b.stats.badEntries + 1 } }, m)
  | (some le, m) => do
    let b ← buildBody allocUnit (pastSlot m i) b le.body
    return (b, m)

/-- `famfs_build_bitmap` where only the header is taken from `logp`. -/
def cachedBuildBitmap (logp : FamfsLog) (m : LogMemory) (allocUnit devSize : ℕ) :
    Except Trap (BuiltBitmap × LogMemory) :=
  if allocUnit = 0 then .error .assertion
  else if allocUnit &&& (allocUnit - 1) ≠ 0 then .error .assertion
  else do
    let marks ← setExtentInBitmap (emptyBitmap (bitmapNbits devSize allocUnit)) allocUnit 0
      (u64 (FAMFS_SUPERBLOCK_SIZE + logp.famfsLogLen)) 0
    (List.range logp.famfsLogNextIndex).foldlM (cachedBuildEntry crc32 allocUnit)
      (⟨marks.bitmap, 0, 0, marks.allocSum, ⟨0, 0, 0, 0⟩⟩, m)

/-- The loop of `__famfs_logplay` over `n` slots from `i` on. -/
def cachedPlayLoop (cfg : PlayConfig) (sys : ℕ → Sys) : ℕ → ℕ → PlayState → LogMemory → Except Trap (ℤ × PlayState)
  | 0, _, st, _ => .ok (playErrors st.ls, st)
  | n + 1, i, st, m =>
    match replaySlot crc32 i m with
    | (none, _) => .ok (-1, st)
    | (some le, m) => do
      let st ← playEntry cfg (sys i) st le.body
      cachedPlayLoop cfg sys n (i + 1) st m

end

end Famfs
