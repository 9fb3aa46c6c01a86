import Famfs.Lib.Traced
import Famfs.Spec.Create
import Famfs.Spec.Fmap

/-! The two functions that hand the map of a file to the kernel, with what they touch: the elements
of the map in the log's form, the arrays on the stack that `famfs_v2_set_file_map` fills for its
ioctl, and the bytes of the message that `famfs_log_file_meta_to_msg` fills for the FUSE module. -/

namespace Famfs

open Machine Buffer Traced

inductive MapAccess where
  | se (j : ℕ)
  | ie (m : ℕ)
  | ieStrip (m k : ℕ)
  | kse (j : ℕ)
  | kie (i : ℕ)
  /-- A store to `msg[off..off + len)`. -/
  | msg (off len : ℕ)
deriving DecidableEq

/-- `famfs_ioc_fmap`; the numbers of extents are the lengths of the lists. -/
structure FamfsIocFmap where
  fiocFileSize : ℕ
  fiocFileType : ℕ
  fiocExtType : ℕ
  map : IocMap
deriving DecidableEq

/-- The loop over interleaved extents, with `left` of them to go. -/
def tracedKie (fm : FamfsLogFmap) (size : ℕ) : ℕ → ℕ → List IocInterleavedExt →
    Traced MapAccess Trap (Except ℤ (List IocInterleavedExt))
  | 0, _, kie => pure (.ok kie)
  | left + 1, i, kie => do
    touch [.ie i, .kie i]
    if FAMFS_MAX_INTERLEAVED_EXTENTS ≤ i then lift (.error .outOfBounds)
    else if FAMFS_MAX_SIMPLE_EXTENTS < fm.ieNstrips i then pure (.error (-EINVAL))
    else
      touch ((List.range (fm.ieNstrips i)).flatMap fun j => [.kse j, .ieStrip i j])
      tracedKie fm size left (i + 1)
        (kie ++ [⟨fm.ieNstrips i, fm.ieChunkSize i, size, (List.range (fm.ieNstrips i)).map (fm.ieStrips i)⟩])

/-- `famfs_v2_set_file_map` up to its ioctl: what it issues, or the error that it returns. -/
def tracedV2SetFileMap (fd : ℤ) (size fileType : ℕ) (fm : FamfsLogFmap) : Traced MapAccess Trap (Except ℤ FamfsIocFmap) :=
  if fd ≤ 0 then lift (.error .assertion)
  else if fm.fmapExtType = FAMFS_EXT_SIMPLE then
    if FAMFS_MAX_SIMPLE_EXTENTS < fm.fmapNextents then pure (.error (-EINVAL))
    else do
      touch ((List.range fm.fmapNextents).flatMap fun i => [.kse i, .se i])
      return .ok ⟨size, fileType, fm.fmapExtType, .v2Simple ((List.range fm.fmapNextents).map fm.se)⟩
  else if fm.fmapExtType = FAMFS_EXT_INTERLEAVE then do
    let kie ← tracedKie fm size fm.fmapNextents 0 []
    return kie.map fun kie => ⟨size, fileType, fm.fmapExtType, .v2Interleaved kie⟩
  else pure (.error (-EINVAL))

/-- What `famfs_emit_file_yaml` reads of a map when it prints it. The numbers of extents and of
strips go through an `int`, that of interleaved extents does not. -/
def emitReads (fmap : FamfsLogFmap) : List MapAccess :=
  if fmap.fmapExtType = FAMFS_EXT_SIMPLE then (List.range (s32 fmap.fmapNextents).toNat).map .se
  else if fmap.fmapExtType = FAMFS_EXT_INTERLEAVE then
    (List.range fmap.fmapNextents).flatMap fun i =>
      .ie i :: (List.range (s32 (fmap.ieNstrips i)).toNat).map (.ieStrip i)
  else []

def tracedSimpleToMsg (abi : FuseAbi) (msgSize : ℕ) (msg : Buf) (fmap : FamfsLogFmap) : Traced MapAccess Trap (ℤ × Buf) :=
  let extListSize := fmap.fmapNextents * abi.simpleExt
  if msgSize < u32 (abi.header + extListSize) then pure (-EINVAL, msg)
  else do
    touch (.msg abi.header extListSize :: (List.range fmap.fmapNextents).flatMap fun i =>
      [.msg (abi.header + abi.simpleExt * i) abi.simpleExt, .se i])
    lift (simpleToMsg abi msgSize msg fmap)

/-- The `memset` of a header is always that of the first, the other stores are to `ie[i]`. -/
def tracedInterleavedToMsg (abi : FuseAbi) (msgSize : ℕ) (fmap : FamfsLogFmap) (fileSize : ℕ) :
    ℕ → ℕ → ℕ → Buf → Traced MapAccess Trap (ℤ × Buf)
  | 0, _, cursor, msg => pure (cursor, msg)
  | left + 1, i, cursor, msg =>
    let cursor := u32 (cursor + abi.iext)
    if msgSize < cursor then pure (-EINVAL, msg)
    else do
      touch [.msg abi.header abi.iext, .msg (abi.header + abi.iext * i) abi.iext, .ie i]
      if 1 ≤ i then lift (.error .outOfBounds)
      else
        let msg := putFuseIext (store msg abi.header abi.iext 0) (abi.header + abi.iext * i) (fmap.ieNstrips i)
          (fmap.ieChunkSize i) fileSize
        let nstrips := u32 (fmap.ieNstrips i)
        let next := u32 (cursor + nstrips * 24)
        if msgSize < next then pure (-EINVAL, msg)
        else
          touch (.msg cursor (nstrips * 24) :: (List.range nstrips).flatMap fun j => [.msg (cursor + 24 * j) 24, .ieStrip i j])
          if msgSize < cursor + nstrips * 24 ∨ FAMFS_MAX_SIMPLE_EXTENTS < nstrips then lift (.error .outOfBounds)
          else
            tracedInterleavedToMsg abi msgSize fmap fileSize left (i + 1) next
              (putRow putFmapSimpleExt 24 (store msg cursor (nstrips * 24) 0) cursor (fmap.extentRow (50 * i + 2) nstrips))

/-- `famfs_log_file_meta_to_msg`. The yaml is printed once the type of the map is known. -/
def tracedFileMetaToMsg (abi : FuseAbi) (msg : Buf) (msgSize fileType : ℕ) (fmeta : FamfsLogFileMeta) :
    Traced MapAccess Trap (ℤ × Buf) :=
  let fmap := fmeta.fmFmap
  if msgSize < abi.header then pure (-EINVAL, msg)
  else do
    let msg := putFmapHeader abi msg fileType fmap.fmapExtType fmeta.fmSize
    touch (.msg 0 abi.header :: emitReads fmap)
    if fmap.fmapExtType = FAMFS_EXT_SIMPLE then tracedSimpleToMsg abi msgSize (putNextents msg fmap.fmapNextents) fmap
    else if fmap.fmapExtType = FAMFS_EXT_INTERLEAVE then
      tracedInterleavedToMsg abi msgSize fmap fmeta.fmSize fmap.fmapNextents 0 abi.header
        (putNextents msg fmap.fmapNextents)
    else pure (-EINVAL, msg)

theorem tracedV2SetFileMap_result (fd : ℤ) (size fileType : ℕ) (fm : FamfsLogFmap) :
    (tracedV2SetFileMap fd size fileType fm).result =
      if fd ≤ 0 then .error .assertion
      else (v2Map fm size).map fun r => r.map fun map => ⟨size, fileType, fm.fmapExtType, map⟩ := by
  unfold tracedV2SetFileMap v2Map
  split_ifs with hfd hs hmax hi hover hone
  · rfl
  · rfl
  · rfl
  · obtain ⟨left, hleft⟩ := Nat.exists_eq_succ_of_ne_zero hover.1.ne'
    rw [hleft, tracedKie, if_neg (by decide), if_pos hover.2]
    rfl
  · obtain ⟨left, hleft⟩ : ∃ left, fm.fmapNextents = left + 2 := ⟨fm.fmapNextents - 2, by
      unfold FAMFS_MAX_INTERLEAVED_EXTENTS at hone
      omega⟩
    have hstrips : ¬ FAMFS_MAX_SIMPLE_EXTENTS < fm.ieNstrips 0 := fun h => hover ⟨by omega, h⟩
    rw [hleft, tracedKie, if_neg (by decide), if_neg hstrips, tracedKie, if_pos (by decide)]
    rfl
  · rcases Nat.le_one_iff_eq_zero_or_eq_one.1 (not_lt.1 hone) with h0 | h1
    · rw [h0]
      rfl
    · have hstrips : ¬ FAMFS_MAX_SIMPLE_EXTENTS < fm.ieNstrips 0 := fun h => hover ⟨by omega, h⟩
      rw [h1, tracedKie, if_neg (by decide), if_neg hstrips]
      rfl
  · rfl

theorem famfsV2SetFileMap_issues (sys : Sys) (h : Host) (fd : ℤ) (p : Paths.Path) (size fileType : ℕ) (fm : FamfsLogFmap) :
    famfsV2SetFileMap sys h fd p size fm = (tracedV2SetFileMap fd size fileType fm).result >>= fun
      | .error rc => .ok (rc, h)
      | .ok ioc => .ok (mapIoctl sys h p ioc.fiocFileSize ioc.map) := by
  rw [tracedV2SetFileMap_result, famfsV2SetFileMap]
  split_ifs
  · rfl
  · rcases v2Map fm size with t | rc | map
    · rfl
    · rfl
    · rfl

theorem tracedSimpleToMsg_result (abi : FuseAbi) (msgSize : ℕ) (msg : Buf) (fmap : FamfsLogFmap) :
    (tracedSimpleToMsg abi msgSize msg fmap).result = simpleToMsg abi msgSize msg fmap := by
  unfold tracedSimpleToMsg
  simp only
  by_cases h : msgSize < u32 (abi.header + fmap.fmapNextents * abi.simpleExt)
  · rw [if_pos h, simpleToMsg, if_pos h]
    rfl
  · rw [if_neg h]
    simp

theorem tracedInterleavedToMsg_result (abi : FuseAbi) (msgSize : ℕ) (fmap : FamfsLogFmap) (fileSize left i cursor : ℕ)
    (msg : Buf) :
    (tracedInterleavedToMsg abi msgSize fmap fileSize left i cursor msg).result =
      interleavedToMsg abi msgSize fmap fileSize left i cursor msg := by
  induction left generalizing i cursor msg with
  | zero => rfl
  | succ left ih =>
    simp only [tracedInterleavedToMsg, interleavedToMsg]
    split_ifs
    · rfl
    · simp
    · simp
    · simp
    · simp [ih]

theorem tracedFileMetaToMsg_result (abi : FuseAbi) (msg : Buf) (msgSize fileType : ℕ) (fmeta : FamfsLogFileMeta) :
    (tracedFileMetaToMsg abi msg msgSize fileType fmeta).result = famfsLogFileMetaToMsg abi msg msgSize fileType fmeta := by
  simp only [tracedFileMetaToMsg, famfsLogFileMetaToMsg]
  split_ifs
  · rfl
  · simp [tracedSimpleToMsg_result]
  · simp [tracedInterleavedToMsg_result]
  · simp

end Famfs
