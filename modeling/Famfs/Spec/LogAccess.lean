import Famfs.Lib.Traced
import Famfs.Spec.Alloc
import Famfs.Spec.Logplay

/-! The two scans of a log with what they touch: the slots of the log, the elements of the maps
in them and the bits of the bitmap. Without their traces they are the scan of the allocator and
the replay. The first is also what `famfs_fsck_scan` takes its verdict from. -/

namespace Famfs

open Machine Traced

inductive LogAccess where
  /-- All bytes of `entries[i]`. -/
  | slot (i : ℕ)
  | se (j : ℕ)
  | ie (m : ℕ)
  | ieStrip (k : ℕ)
  | bit (k : ℕ)
deriving DecidableEq

/-- The bits that `set_extent_in_bitmap` sets. -/
def extentBits (allocUnit offset len : ℕ) : List LogAccess :=
  (List.range (u64 (len + allocUnit - 1) / allocUnit)).map fun k => .bit (offset / allocUnit + k)

/-- An extent is read and then marked. -/
def tracedExtent (allocUnit : ℕ) (a : LogAccess) (b : BuiltBitmap) (e : FamfsSimpleExtent) :
    Traced LogAccess Trap BuiltBitmap := do
  touch [a]
  let b ← lift (markExtent allocUnit b e)
  touch (extentBits allocUnit e.seOffset e.seLen)
  return b

/-- One pass of the loop over interleaved extents, which takes strips from `(&fmap->ie[j])[j]`. -/
def tracedStrips (allocUnit : ℕ) (fmap : FamfsLogFmap) (past : ℕ → ℕ) (b : BuiltBitmap) (j : ℕ) :
    Traced LogAccess Trap BuiltBitmap := do
  touch [.ie (j + j)]
  (List.range (fmap.wordIn past (50 * (j + j)))).foldlM
    (fun b k => tracedExtent allocUnit (.ieStrip k) b (fmap.extentIn past (50 * (j + j) + 2 + 3 * k))) b

/-- The loops over a map. The number of interleaved extents is kept in an `int`. -/
def tracedMap (allocUnit : ℕ) (fmap : FamfsLogFmap) (past : ℕ → ℕ) (b : BuiltBitmap) :
    Traced LogAccess Trap BuiltBitmap :=
  if fmap.fmapExtType = FAMFS_EXT_SIMPLE then
    (List.range fmap.fmapNextents).foldlM (fun b j => tracedExtent allocUnit (.se j) b (fmap.extentIn past (3 * j))) b
  else if fmap.fmapExtType = FAMFS_EXT_INTERLEAVE then
    (List.range (s32 fmap.fmapNextents).toNat).foldlM (tracedStrips allocUnit fmap past) b
  else pure b

section

variable (crc32 : Crc32)

def tracedEntry (allocUnit : ℕ) (logp : FamfsLog) (b : BuiltBitmap) (i : ℕ) :
    Traced LogAccess Trap BuiltBitmap :=
  let b := { b with stats := { b.stats with nEntries := b.stats.nEntries + 1 } }
  touch [.slot i] >>= fun _ =>
    if famfsValidateLogEntry crc32 (fun _ => logp.entries i) i ≠ 0 then
      pure { b with stats := { b.stats with badEntries := b.stats.badEntries + 1 } }
    else match (logp.entries i).body with
      | .fm m => tracedMap allocUnit m.fmFmap (logp.past i)
          { b with
            fsizeSum := u64 (b.fsizeSum + m.fmSize)
            stats := { b.stats with fLogged := b.stats.fLogged + 1 } }
      | .md _ => pure { b with stats := { b.stats with dLogged := b.stats.dLogged + 1 } }
      | .dd _ => pure b
      | .other _ _ => pure b

/-- `famfs_build_bitmap`. -/
def tracedBuildBitmap (logp : FamfsLog) (allocUnit devSize : ℕ) : Traced LogAccess Trap BuiltBitmap :=
  if allocUnit = 0 then lift (.error .assertion)
  else if allocUnit &&& (allocUnit - 1) ≠ 0 then lift (.error .assertion)
  else do
    let m ← lift (setExtentInBitmap (emptyBitmap (bitmapNbits devSize allocUnit)) allocUnit 0
      (u64 (FAMFS_SUPERBLOCK_SIZE + logp.famfsLogLen)) 0)
    touch (extentBits allocUnit 0 (u64 (FAMFS_SUPERBLOCK_SIZE + logp.famfsLogLen)))
    (List.range logp.famfsLogNextIndex).foldlM (tracedEntry crc32 allocUnit logp)
      ⟨m.bitmap, 0, 0, m.allocSum, ⟨0, 0, 0, 0⟩⟩

/-- The check for offset 0 reads the extents of any map as simple ones. -/
def playReads : FamfsLogEntryBody → List LogAccess
  | .fm m => (List.range m.fmFmap.fmapNextents).map .se
  | _ => []

def tracedPlayLoop (cfg : PlayConfig) (sys : ℕ → Sys) (logp : FamfsLog) : ℕ → ℕ → PlayState →
    Traced LogAccess Trap (ℤ × PlayState)
  | 0, _, st => pure (playErrors st.ls, st)
  | n + 1, i, st => do
    touch [.slot i]
    if famfsValidateLogEntry crc32 (fun _ => logp.entries i) i ≠ 0 then return (-1, st)
    else
      touch (playReads (logp.entries i).body)
      let st ← lift (playEntry cfg (sys i) st (logp.entries i).body)
      tracedPlayLoop cfg sys logp n (i + 1) st

/-- `__famfs_logplay` without the reads of its verbose dump of an entry. -/
def tracedLogplay (cfg : PlayConfig) (sys : ℕ → Sys) (h : Host) (logp : FamfsLog) :
    Traced LogAccess Trap (ℤ × PlayState) :=
  let st : PlayState := ⟨h, .zero⟩
  if cfg.role = .nosuper then pure (-1, st)
  else if famfsValidateLogHeader crc32 logp ≠ 0 then pure (-1, st)
  else if cfg.shadow then
    match famfsGetShadowRoot h cfg.root with
    | none => pure (-1, st)
    | some root => tracedPlayLoop crc32 { cfg with root := root } sys logp logp.famfsLogNextIndex 0 st
  else tracedPlayLoop crc32 cfg sys logp logp.famfsLogNextIndex 0 st

end

/-- `famfs_fsck_scan`. Without memory for the bitmap there is no scan, and `errors` keeps its first
value; the count is returned as an `int`. The statistics of the log are only printed. -/
def famfsFsckScan (crc32 : Crc32) (mem : Bool) (sb : FamfsSuperblock) (logp : FamfsLog) (nbuckets : ℤ) :
    Except Trap ℤ :=
  if sb.tsAllocUnit ≠ 4096 ∧ sb.tsAllocUnit ≠ 0x200000 then .error .assertion
  else if mem = false then
    if nbuckets = 0 then .ok 0 else if nbuckets < 0 then .error .assertion else .error .nullPointer
  else do
    let b ← famfsBuildBitmap crc32 logp sb.tsAllocUnit sb.tsDaxdevSize
    if nbuckets < 0 then .error .assertion else .ok (s32 b.errors)

theorem tracedExtent_result (au : ℕ) (a : LogAccess) (b : BuiltBitmap) (e : FamfsSimpleExtent) :
    (tracedExtent au a b e).result = markExtent au b e := by
  simp only [tracedExtent, result_bind, result_touch, result_lift, result_pure, Runs.ok_bind]
  exact bind_pure _

theorem tracedMap_result (au : ℕ) (fmap : FamfsLogFmap) (past : ℕ → ℕ) (b : BuiltBitmap) :
    (tracedMap au fmap past b).result = (fmap.scannedExtents past).foldlM (markExtent au) b := by
  unfold tracedMap FamfsLogFmap.scannedExtents
  split_ifs
  · simp only [result_foldlM, tracedExtent_result, List.foldlM_map]
  · simp only [result_foldlM, tracedStrips, result_bind, result_touch, Runs.ok_bind, tracedExtent_result, Runs.foldlM_flatMap, List.foldlM_map]
  · rfl

section

variable {crc32 : Crc32}

theorem tracedEntry_result (au : ℕ) (logp : FamfsLog) (b : BuiltBitmap) (i : ℕ) :
    (tracedEntry crc32 au logp b i).result = buildEntry crc32 au logp b i := by
  simp only [tracedEntry, result_bind, result_touch, Runs.ok_bind, buildEntry]
  split_ifs
  · rfl
  · cases (logp.entries i).body with
    | fm m => exact tracedMap_result au m.fmFmap _ _
    | md m => rfl
    | dd m => rfl
    | other t raw => rfl

theorem tracedBuildBitmap_result (logp : FamfsLog) (au devSize : ℕ) :
    (tracedBuildBitmap crc32 logp au devSize).result = famfsBuildBitmap crc32 logp au devSize := by
  unfold tracedBuildBitmap famfsBuildBitmap
  split_ifs
  · rfl
  · rfl
  · simp only [result_bind, result_lift, result_touch, Runs.ok_bind, result_foldlM, tracedEntry_result]

theorem tracedPlayLoop_result (cfg : PlayConfig) (sys : ℕ → Sys) (logp : FamfsLog) (n i : ℕ) (st : PlayState) :
    (tracedPlayLoop crc32 cfg sys logp n i st).result = playLoop crc32 cfg sys logp n i st := by
  induction n generalizing i st with
  | zero => rfl
  | succ n ih =>
    simp only [tracedPlayLoop, playLoop, result_bind, result_touch, Runs.ok_bind]
    split_ifs
    · rfl
    · simp only [result_bind, result_touch, result_lift, Runs.ok_bind, ih]

theorem tracedLogplay_result (cfg : PlayConfig) (sys : ℕ → Sys) (h : Host) (logp : FamfsLog) :
    (tracedLogplay crc32 cfg sys h logp).result = famfsLogplay crc32 cfg sys h logp := by
  simp only [tracedLogplay, famfsLogplay]
  split_ifs
  · rfl
  · rfl
  · cases famfsGetShadowRoot h cfg.root with
    | none => rfl
    | some root => exact tracedPlayLoop_result _ _ _ _ _ _
  · exact tracedPlayLoop_result _ _ _ _ _ _

end

end Famfs
