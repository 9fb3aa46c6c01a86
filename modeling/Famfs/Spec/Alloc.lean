import Famfs.Spec.Bitmap
import Famfs.Spec.Log

/-! The allocator of `famfs_alloc.c`. Functions pass the locked log along, return
the C result code, and stop with a `Trap` where an assertion fails, a division is
by zero or an array is left. The test hooks of the unit tests are off. -/

namespace Famfs

open Machine

structure FamfsInterleaveParam where
  nbuckets : ℕ
  nstrips : ℕ
  chunkSize : ℕ
deriving DecidableEq, Repr

inductive FamfsType where
  | v1
  | fuse
deriving DecidableEq, Repr

/-- A session that holds the log lock. The device size comes from a validated
superblock and is positive. -/
structure FamfsLockedLog where
  devsize : ℕ
  logp : FamfsLog
  famfsType : FamfsType
  bitmap : Option Bitmap
  nbits : ℕ
  allocUnit : ℕ
  curPos : ℕ
  interleaveParam : FamfsInterleaveParam
  mpt : CStr
  shadowRoot : Option CStr

/-- What the C library returns during an allocation: whether each `calloc`
succeeds and the values of `rand` by the index that the shuffle is at. -/
structure AllocHost where
  bitmapMem : Bool
  fmapMem : Bool
  rand : ℕ → ℕ

structure ExtentMarks where
  errors : ℕ
  bitmap : Bitmap
  allocSum : ℕ

def setExtentLoop (allocUnit : ℕ) : ℕ → ℕ → ExtentMarks → ExtentMarks
  | 0, _, m => m
  | np + 1, k, m =>
      let r := muBitmapTestAndSet m.bitmap k
      setExtentLoop allocUnit np (k + 1)
        (if r.1 then { m with bitmap := r.2, allocSum := u64 (m.allocSum + allocUnit) }
        else { m with bitmap := r.2, errors := m.errors + 1 })

def setExtentInBitmap (bitmap : Bitmap) (allocUnit offset len allocSum : ℕ) :
    Except Trap ExtentMarks :=
  if offset &&& (allocUnit - 1) ≠ 0 then .error .assertion
  else .ok (setExtentLoop allocUnit (u64 (len + allocUnit - 1) / allocUnit) (offset / allocUnit)
    ⟨0, bitmap, allocSum⟩)

structure FamfsLogStats where
  nEntries : ℕ
  badEntries : ℕ
  fLogged : ℕ
  dLogged : ℕ
deriving DecidableEq, Repr

structure BuiltBitmap where
  bitmap : Bitmap
  errors : ℕ
  fsizeSum : ℕ
  allocSum : ℕ
  stats : FamfsLogStats

/-- `errors += rc` where `rc` is the marking result kept in an `int`. -/
def addErrors (errors rc : ℕ) : ℕ := (((errors : ℤ) + s32 rc) % 2 ^ 64).toNat

def markExtent (allocUnit : ℕ) (b : BuiltBitmap) (e : FamfsSimpleExtent) : Except Trap BuiltBitmap := do
  let m ← setExtentInBitmap b.bitmap allocUnit e.seOffset e.seLen b.allocSum
  return { b with bitmap := m.bitmap, errors := addErrors b.errors m.errors, allocSum := m.allocSum }

/-- The extents that the log scan takes from a file's map in its slot, also past the end of the
arrays. The strips are taken from `(&fmap->ie[j])[j]`, which is `ie[0]` for the one extent there is. -/
def FamfsLogFmap.scannedExtents (fmap : FamfsLogFmap) (past : ℕ → ℕ) : List FamfsSimpleExtent :=
  if fmap.fmapExtType = FAMFS_EXT_SIMPLE then (List.range fmap.fmapNextents).map fun j => fmap.extentIn past (3 * j)
  else if fmap.fmapExtType = FAMFS_EXT_INTERLEAVE then
    (List.range (s32 fmap.fmapNextents).toNat).flatMap fun j =>
      (List.range (fmap.wordIn past (50 * (j + j)))).map fun k => fmap.extentIn past (50 * (j + j) + 2 + 3 * k)
  else []

def buildEntry (crc32 : Crc32) (allocUnit : ℕ) (logp : FamfsLog) (b : BuiltBitmap) (i : ℕ) :
    Except Trap BuiltBitmap :=
  let b := { b with stats := { b.stats with nEntries := b.stats.nEntries + 1 } }
  if famfsValidateLogEntry crc32 (fun _ => logp.entries i) i ≠ 0 then
    .ok { b with stats := { b.stats with badEntries := b.stats.badEntries + 1 } }
  else match (logp.entries i).body with
    | .fm m => (m.fmFmap.scannedExtents (logp.past i)).foldlM (markExtent allocUnit)
        { b with
          fsizeSum := u64 (b.fsizeSum + m.fmSize)
          stats := { b.stats with fLogged := b.stats.fLogged + 1 } }
    | .md _ => .ok { b with stats := { b.stats with dLogged := b.stats.dLogged + 1 } }
    | .dd _ => .ok b
    | .other _ _ => .ok b

def bitmapNbits (devSize allocUnit : ℕ) : ℕ := u64 (devSize + allocUnit - 1) / allocUnit

/-- `calloc(1, mu_bitmap_size(nbits) + 1)`. -/
def emptyBitmap (nbits : ℕ) : Bitmap :=
  List.replicate (u64 ((muBitmapSize nbits % 2 ^ 64).toNat + 1)) 0

def famfsBuildBitmap (crc32 : Crc32) (logp : FamfsLog) (allocUnit devSize : ℕ) :
    Except Trap BuiltBitmap :=
  if allocUnit = 0 then .error .assertion
  else if allocUnit &&& (allocUnit - 1) ≠ 0 then .error .assertion
  else do
    let m ← setExtentInBitmap (emptyBitmap (bitmapNbits devSize allocUnit)) allocUnit 0
      (u64 (FAMFS_SUPERBLOCK_SIZE + logp.famfsLogLen)) 0
    (List.range logp.famfsLogNextIndex).foldlM (buildEntry crc32 allocUnit logp)
      ⟨m.bitmap, 0, 0, m.allocSum, ⟨0, 0, 0, 0⟩⟩

def allClear (bitmap : Bitmap) : ℕ → ℕ → Bool
  | 0, _ => true
  | n + 1, j => !muBitmapTest bitmap j && allClear bitmap n (j + 1)

def setRun (bitmap : Bitmap) : ℕ → ℕ → Bitmap
  | 0, _ => bitmap
  | n + 1, j => setRun (mseBitmapSet32 bitmap j) n (j + 1)

/-- The search loop from bit `i`, with `fuel` bits left before `nbits`. The room
that is left in the range is an unsigned difference. -/
def bitmapScan (bitmap : Bitmap) (allocBits startIdx rangeNbits : ℕ) : ℕ → ℕ → Option ℕ
  | 0, _ => none
  | fuel + 1, i =>
      if muBitmapTest bitmap i then bitmapScan bitmap allocBits startIdx rangeNbits fuel (i + 1)
      else if sub64 (startIdx + rangeNbits) i < allocBits then none
      else if allClear bitmap allocBits i then some i
      else bitmapScan bitmap allocBits startIdx rangeNbits fuel (i + 1)

/-- The offset found (or -1), the bitmap and the cursor. -/
def bitmapAllocContiguous (bitmap : Bitmap) (nbits allocUnit allocSize curPos rangeSize : ℕ) :
    ℤ × Bitmap × ℕ :=
  let allocBits := u64 (allocSize + allocUnit - 1) / allocUnit
  let startIdx := curPos / allocUnit
  let rangeNbits := if rangeSize ≠ 0 then u64 (rangeSize + allocUnit - 1) / allocUnit else nbits
  match bitmapScan bitmap allocBits startIdx rangeNbits (nbits - startIdx) startIdx with
  | none => (-1, bitmap, curPos)
  | some i => (s64 (i * allocUnit), setRun bitmap allocBits i, u64 ((i + allocBits) * allocUnit))

def freeRun (bitmap : Bitmap) : ℕ → ℕ → Except Trap Bitmap
  | 0, _ => .ok bitmap
  | n + 1, i =>
      let r := muBitmapTestAndClear bitmap i
      if r.1 then freeRun r.2 n (i + 1) else .error .assertion

def bitmapFreeContiguous (bitmap : Bitmap) (nbits allocUnit offset len : ℕ) : Except Trap Bitmap :=
  let startBitnum := offset / allocUnit
  let nbitsFree := u64 (len + allocUnit - 1) / allocUnit
  if nbits < startBitnum + nbitsFree then .error .assertion
  else if offset % allocUnit ≠ 0 then .error .assertion
  else freeRun bitmap nbitsFree startBitnum

/-- A session's bitmap once it is built. -/
def FamfsLockedLog.bits (lp : FamfsLockedLog) : Bitmap := lp.bitmap.getD []

/-- The map of a contiguous allocation. -/
def contiguousFmap (offset size : ℕ) : FamfsLogFmap :=
  { FamfsLogFmap.zero.setExtentAt 0 ⟨0, offset, roundSizeToAllocUnit size⟩ with
    fmapExtType := FAMFS_EXT_SIMPLE
    fmapNextents := 1 }

def famfsFileAllocContiguous (host : AllocHost) (lp : FamfsLockedLog) (size : ℕ) :
    Except Trap (ℤ × Option FamfsLogFmap × FamfsLockedLog) :=
  if host.fmapMem = false then .error .assertion
  else
    let r := bitmapAllocContiguous lp.bits lp.nbits lp.allocUnit size lp.curPos 0
    let lp' := { lp with bitmap := some r.2.1, curPos := r.2.2 }
    if r.1 < 0 then .ok (-ENOMEM, none, lp')
    else if r.1 = 0 then .error .assertion
    else .ok (0, some (contiguousFmap r.1.toNat size), lp')

structure BucketSeries where
  nbuckets : ℕ
  current : ℕ
  buckets : List ℕ
deriving DecidableEq, Repr

/-- `tmp` is an `int`, and its sign is spread over the `u64` that it is put back into. -/
def swapBuckets (b : List ℕ) (i j : ℕ) : List ℕ :=
  (b.set i (b.getD j 0)).set j (s32 (b.getD i 0) % 2 ^ 64).toNat

def shuffleBuckets (rand : ℕ → ℕ) : ℕ → List ℕ → List ℕ
  | 0, b => b
  | i + 1, b => shuffleBuckets rand i (swapBuckets b (i + 1) (rand (i + 1) % (i + 2)))

/-- The index of the shuffle is an `int`: where `nbuckets - 1` is read as a negative one, there is
no shuffle, and without buckets there is none either. -/
def bucketSeriesAlloc (rand : ℕ → ℕ) (nbuckets start : ℕ) : BucketSeries where
  nbuckets := nbuckets
  current := 0
  buckets := shuffleBuckets rand (s32 (nbuckets - 1)).toNat ((List.range nbuckets).map fun i => u64 (i + start))

def bucketSeriesNext (bs : BucketSeries) : ℤ × BucketSeries :=
  if bs.nbuckets ≤ bs.current then (-1, bs)
  else (s64 (bs.buckets.getD bs.current 0), { bs with current := bs.current + 1 })

def bucketSeriesRewind (bs : BucketSeries) : BucketSeries := { bs with current := 0 }

def famfsValidateInterleaveParam (p : FamfsInterleaveParam) (allocUnit devsize : ℕ) : ℤ :=
  if p.nbuckets = 0 ∧ p.nstrips = 0 ∧ p.chunkSize = 0 then 0
  else if p.chunkSize &&& (p.chunkSize - 1) ≠ 0 then -EINVAL
  else if p.chunkSize % allocUnit ≠ 0 then -EINVAL
  else
    (if p.chunkSize = 0 then 1 else 0) + (if p.nbuckets < p.nstrips then 1 else 0) +
      (if p.nbuckets = 0 then 1 else 0) + (if FAMFS_MAX_NBUCKETS < p.nbuckets then 1 else 0) +
      (if (if p.nbuckets ≠ 0 then devsize / p.nbuckets else 0) < 1024 * 1024 * 1024 then 1 else 0)

/-- Sizes of a stripe set in allocation units. -/
structure StripeGeometry where
  nbits : ℕ
  allocUnit : ℕ
  nstrips : ℕ
  bucketSizeAu : ℕ
  stripSizeAu : ℕ

structure StripState where
  bs : BucketSeries
  bitmap : Bitmap
  fmap : FamfsLogFmap
  nstripsAllocated : ℕ
  i : ℕ

/-- Where the next bucket starts. A bucket number is an `int` that the product
turns into a `u64`. -/
def bucketPos (g : StripeGeometry) (bs : BucketSeries) : ℕ :=
  u64 (u64 (((bucketSeriesNext bs).1 % 2 ^ 64).toNat * g.bucketSizeAu) * g.allocUnit)

/-- The search for a strip in the next bucket. -/
def stripSearch (g : StripeGeometry) (st : StripState) : ℤ × Bitmap × ℕ :=
  bitmapAllocContiguous st.bitmap g.nbits g.allocUnit (u64 (g.stripSizeAu * g.allocUnit))
    (bucketPos g st.bs) (u64 (g.bucketSizeAu * g.allocUnit))

/-- One pass of the loop over buckets: whether it leaves the loop, and the state. -/
def stripStep (g : StripeGeometry) (st : StripState) : Except Trap (Bool × StripState) :=
  let bs := (bucketSeriesNext st.bs).2
  let r := stripSearch g st
  if 0 < r.1 then
    if FAMFS_MAX_SIMPLE_EXTENTS ≤ st.nstripsAllocated then .error .outOfBounds
    else
      let fmap := st.fmap.setIeStrip st.nstripsAllocated
        ⟨0, r.1.toNat, u64 (g.stripSizeAu * g.allocUnit)⟩
      if g.nstrips ≤ st.nstripsAllocated + 1 then
        .ok (true, ⟨bs, r.2.1, fmap, st.nstripsAllocated + 1, st.i⟩)
      else .ok (false, ⟨bs, r.2.1, fmap, st.nstripsAllocated + 1, st.i + 1⟩)
  else .ok (false, { st with bs := bs, bitmap := r.2.1, i := st.i + 1 })

/-- The loop, with `fuel` buckets left. -/
def stripLoop (g : StripeGeometry) : ℕ → StripState → Except Trap StripState
  | 0, st => .ok st
  | fuel + 1, st => do
      let r ← stripStep g st
      if r.1 then .ok r.2 else stripLoop g fuel r.2

/-- Give back what the first `i` slots name. There may be more passes than slots, and what lies
past the array is read as zeroes. -/
def freeStrips (g : StripeGeometry) (bitmap : Bitmap) (fmap : FamfsLogFmap) (i : ℕ) :
    Except Trap Bitmap :=
  (List.range i).foldlM (fun bm j =>
    bitmapFreeContiguous bm g.nbits g.allocUnit (fmap.ieStrips 0 j).seOffset (fmap.ieStrips 0 j).seLen) bitmap

def stripedFmap (p : FamfsInterleaveParam) : FamfsLogFmap :=
  { (FamfsLogFmap.zero.setWord 0 p.nstrips).setWord 1 p.chunkSize with
    fmapExtType := FAMFS_EXT_INTERLEAVE }

/-- The number of stripes is kept in an `int`. -/
def stripeGeometry (lp : FamfsLockedLog) (size : ℕ) : StripeGeometry :=
  let p := lp.interleaveParam
  let allocSizeAu := u64 (size + lp.allocUnit - 1) / lp.allocUnit
  let chunkSizeAu := p.chunkSize / lp.allocUnit
  let stripeSizeAu := u64 (p.nstrips * chunkSizeAu)
  let nstripes := s32 (u64 (allocSizeAu + stripeSizeAu - 1) / stripeSizeAu)
  { nbits := lp.nbits
    allocUnit := lp.allocUnit
    nstrips := p.nstrips
    bucketSizeAu := lp.devsize / lp.allocUnit / p.nbuckets
    stripSizeAu := ((nstripes * chunkSizeAu) % 2 ^ 64).toNat }

/-- After the loop: all strips were found, or those that were are given back. -/
def finishStrips (lp : FamfsLockedLog) (g : StripeGeometry) (st : StripState) :
    Except Trap (ℤ × Option FamfsLogFmap × FamfsLockedLog) :=
  if st.nstripsAllocated < g.nstrips then do
    let bitmap ← freeStrips g st.bitmap st.fmap st.i
    return (-ENOMEM, none, { lp with bitmap := some bitmap })
  else .ok (0, some { st.fmap with fmapNextents := 1 }, { lp with bitmap := some st.bitmap })

def famfsFileStridedAlloc (host : AllocHost) (lp : FamfsLockedLog) (size : ℕ) :
    Except Trap (ℤ × Option FamfsLogFmap × FamfsLockedLog) :=
  let p := lp.interleaveParam
  let rc := famfsValidateInterleaveParam p lp.allocUnit lp.devsize
  let g := stripeGeometry lp size
  if rc ≠ 0 then .ok (rc, none, lp)
  else if p.nbuckets < p.nstrips then .error .assertion
  else if size < p.chunkSize then famfsFileAllocContiguous host { lp with curPos := 0 } size
  else if p.nbuckets = 0 ∨ p.nstrips = 0 ∨ u64 (p.nstrips * (p.chunkSize / lp.allocUnit)) = 0 then
    .error .divZero
  else if u64 (p.nstrips * (p.chunkSize / lp.allocUnit)) % p.nstrips ≠ 0 then .error .assertion
  else if (lp.devsize : ℤ) < s64 (g.bucketSizeAu * lp.allocUnit * p.nbuckets) then .error .assertion
  else if host.fmapMem = false then .ok (-ENOMEM, none, lp)
  else do
    let st ← stripLoop g p.nbuckets
      ⟨bucketSeriesAlloc host.rand p.nbuckets 0, lp.bits, stripedFmap p, 0, 0⟩
    finishStrips lp g st

/-- The session that `famfs_init_locked_log` sets up once the superblock and the
role are checked: no bitmap yet, and the stripe parameters of the `.alloc.cfg` file
if there is one and they are accepted. -/
def famfsInitLockedLog (kabi : ℕ) (sb : FamfsSuperblock) (logp : FamfsLog) (famfsType : FamfsType)
    (mpt : CStr) (shadowRoot : Option CStr) (cfg : Option FamfsInterleaveParam) : FamfsLockedLog where
  devsize := sb.tsDaxdevSize
  logp := logp
  famfsType := famfsType
  bitmap := none
  nbits := 0
  allocUnit := sb.tsAllocUnit
  curPos := 0
  interleaveParam := match cfg with
    | some p =>
        if 42 < kabi ∧ famfsValidateInterleaveParam p sb.tsAllocUnit sb.tsDaxdevSize = 0 then p
        else ⟨0, 0, 0⟩
    | none => ⟨0, 0, 0⟩
  mpt := mpt
  shadowRoot := shadowRoot

def allocIsInterleaved (lp : FamfsLockedLog) : Bool :=
  decide (lp.interleaveParam.nbuckets ≠ 0 ∨ lp.interleaveParam.nstrips ≠ 0 ∨
    lp.interleaveParam.chunkSize ≠ 0)

/-- The session with its bitmap: the one it has, or a new one from the log. -/
def ensureBitmap (crc32 : Crc32) (lp : FamfsLockedLog) : Except Trap FamfsLockedLog :=
  match lp.bitmap with
  | some _ => .ok lp
  | none => do
      let b ← famfsBuildBitmap crc32 lp.logp lp.allocUnit lp.devsize
      return { lp with
        bitmap := some b.bitmap
        nbits := bitmapNbits lp.devsize lp.allocUnit
        curPos := 0 }

/-- `kabi` is the kernel interface version that the library was compiled for. -/
def famfsFileAlloc (crc32 : Crc32) (kabi : ℕ) (host : AllocHost) (lp : FamfsLockedLog) (size : ℕ) :
    Except Trap (ℤ × Option FamfsLogFmap × FamfsLockedLog) :=
  if lp.bitmap = none ∧ host.bitmapMem = false then .ok (-1, none, lp)
  else do
    let lp ← ensureBitmap crc32 lp
    if kabi ≤ 42 ∧ allocIsInterleaved lp = true then .ok (-1, none, lp)
    else if allocIsInterleaved lp = false then famfsFileAllocContiguous host lp size
    else famfsFileStridedAlloc host lp size

end Famfs
