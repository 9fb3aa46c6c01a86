import Famfs.Lib.Buffer
import Famfs.Spec.Yaml

/-! What a fuse client makes of a shadow file. A lookup parses its text with
`famfs_shadow_to_stat` and keeps the metadata with the inode; `famfs_get_fmap` answers the
kernel from there, with the message of `famfs_log_file_meta_to_msg`. The structures of the
message are those of `fuse_kernel.h`, but for `fmap_simple_ext`, which is the one of
`famfs_fmap.h`. -/

namespace Famfs

open Machine Buffer

def ENOENT : ℤ := 2
def FMAP_MSG_MAX : ℕ := 4096

/-- What `fuse_kernel.h` says: the sizes of `fuse_famfs_fmap_header`, `fuse_famfs_iext` and
`fuse_famfs_simple_ext`, and `FAMFS_FMAP_VERSION`. -/
structure FuseAbi where
  header : ℕ
  iext : ℕ
  simpleExt : ℕ
  fmapVersion : ℕ

/-- The structures without gaps. -/
structure FuseAbi.Packed (abi : FuseAbi) : Prop where
  header : abi.header = 32
  iext : abi.iext = 24
  simpleExt : abi.simpleExt = 24

def packedAbi : FuseAbi := ⟨32, 24, 24, 1⟩

theorem packedAbi_packed : packedAbi.Packed := ⟨rfl, rfl, rfl⟩

/-- `u8 file_type`, `u8 reserved`, `u16 fmap_version`, `u32 ext_type`, `u32 nextents`,
`u32 reserved0`, `u64 file_size`, `u64 reserved1`. -/
def putFmapHeader (abi : FuseAbi) (msg : Buf) (fileType extType fileSize : ℕ) : Buf :=
  store (store (store (store msg 2 2 abi.fmapVersion) 0 1 fileType) 4 4 extType) 16 8 fileSize

def putNextents (msg : Buf) (nextents : ℕ) : Buf := store msg 8 4 nextents

/-- `u32 se_devindex`, `u32 reserved`, `u64 se_offset`, `u64 se_len`. -/
def putFuseSimpleExt (abi : FuseAbi) (msg : Buf) (off : ℕ) (e : FamfsSimpleExtent) : Buf :=
  store (store (store (store msg off abi.simpleExt 0) off 4 e.seDevindex) (off + 8) 8 e.seOffset) (off + 16) 8 e.seLen

/-- `u16 struct_tag`, `u16 se_devindex`, `u32 reserved`, `u64 se_offset`, `u64 se_len`. -/
def putFmapSimpleExt (msg : Buf) (off : ℕ) (e : FamfsSimpleExtent) : Buf :=
  store (store (store msg (off + 2) 2 e.seDevindex) (off + 8) 8 e.seOffset) (off + 16) 8 e.seLen

/-- `u32 ie_nstrips`, `u32 ie_chunk_size`, `u64 ie_nbytes`, `u64 reserved`. -/
def putFuseIext (msg : Buf) (off nstrips chunkSize nbytes : ℕ) : Buf :=
  store (store (store msg off 4 nstrips) (off + 4) 4 chunkSize) (off + 8) 8 nbytes

/-- The extents `se[0..n)` or strips at word `base` of the map. -/
def FamfsLogFmap.extentRow (fmap : FamfsLogFmap) (base n : ℕ) : List FamfsSimpleExtent :=
  (List.range n).map fun i => fmap.extentAt (base + 3 * i)

section

variable (abi : FuseAbi) (msgSize : ℕ)

/-- The simple branch. `memset` covers all later stores; an element past the array of the
map is a trap. -/
def simpleToMsg (msg : Buf) (fmap : FamfsLogFmap) : Except Trap (ℤ × Buf) :=
  let extListSize := fmap.fmapNextents * abi.simpleExt
  let cursor := u32 (abi.header + extListSize)
  if msgSize < cursor then .ok (-EINVAL, msg)
  else if msgSize < abi.header + extListSize ∨ FAMFS_MAX_SIMPLE_EXTENTS < fmap.fmapNextents then .error .outOfBounds
  else
    .ok (cursor, putRow (putFuseSimpleExt abi) abi.simpleExt (store msg abi.header extListSize 0) abi.header
      (fmap.extentRow 0 fmap.fmapNextents))

/-- The loop over interleaved extents, of which the map has one. The header of each is put
at `ie[i]`, and the strips at the cursor. -/
def interleavedToMsg (fmap : FamfsLogFmap) (fileSize : ℕ) : ℕ → ℕ → ℕ → Buf → Except Trap (ℤ × Buf)
  | 0, _, cursor, msg => .ok (cursor, msg)
  | left + 1, i, cursor, msg =>
    let cursor := u32 (cursor + abi.iext)
    if msgSize < cursor then .ok (-EINVAL, msg)
    else if 1 ≤ i then .error .outOfBounds
    else
      let msg := putFuseIext (store msg abi.header abi.iext 0) (abi.header + abi.iext * i) (fmap.ieNstrips i)
        (fmap.ieChunkSize i) fileSize
      let nstrips := u32 (fmap.ieNstrips i)
      let next := u32 (cursor + nstrips * 24)
      if msgSize < next then .ok (-EINVAL, msg)
      else if msgSize < cursor + nstrips * 24 ∨ FAMFS_MAX_SIMPLE_EXTENTS < nstrips then .error .outOfBounds
      else
        interleavedToMsg fmap fileSize left (i + 1) next
          (putRow putFmapSimpleExt 24 (store msg cursor (nstrips * 24) 0) cursor (fmap.extentRow (50 * i + 2) nstrips))

end

def famfsLogFileMetaToMsg (abi : FuseAbi) (msg : Buf) (msgSize fileType : ℕ) (fmeta : FamfsLogFileMeta) :
    Except Trap (ℤ × Buf) :=
  let fmap := fmeta.fmFmap
  if msgSize < abi.header then .ok (-EINVAL, msg)
  else
    let msg := putFmapHeader abi msg fileType fmap.fmapExtType fmeta.fmSize
    if fmap.fmapExtType = FAMFS_EXT_SIMPLE then simpleToMsg abi msgSize (putNextents msg fmap.fmapNextents) fmap
    else if fmap.fmapExtType = FAMFS_EXT_INTERLEAVE then
      interleavedToMsg abi msgSize fmap fmeta.fmSize fmap.fmapNextents 0 abi.header (putNextents msg fmap.fmapNextents)
    else .ok (-EINVAL, msg)

/-- What a map says: of the chunk size only if it is interleaved. -/
structure FileMap where
  fileSize : ℕ
  extType : ℕ
  extents : List FamfsSimpleExtent
  chunkSize : Option ℕ
deriving DecidableEq

def kernelSimpleExt (msg : Buf) (off : ℕ) : FamfsSimpleExtent :=
  ⟨load msg off 4, load msg (off + 8) 8, load msg (off + 16) 8⟩

def kernelFmap (abi : FuseAbi) (msg : Buf) : FileMap :=
  let fileSize := load msg 16 8
  let extType := load msg 4 4
  if extType = FAMFS_EXT_INTERLEAVE then
    ⟨fileSize, extType,
      (List.range (load msg abi.header 4)).map fun j => kernelSimpleExt msg (abi.header + abi.iext + abi.simpleExt * j),
      some (load msg (abi.header + 4) 4)⟩
  else
    ⟨fileSize, extType, (List.range (load msg 8 4)).map fun j => kernelSimpleExt msg (abi.header + abi.simpleExt * j),
      none⟩

/-- The map as the log has it. -/
def FamfsLogFileMeta.fileMap (fmeta : FamfsLogFileMeta) : FileMap :=
  let fmap := fmeta.fmFmap
  if fmap.fmapExtType = FAMFS_EXT_INTERLEAVE then
    ⟨fmeta.fmSize, fmap.fmapExtType, fmap.extentRow 2 (fmap.ieNstrips 0), some (fmap.ieChunkSize 0)⟩
  else ⟨fmeta.fmSize, fmap.fmapExtType, fmap.extentRow 0 fmap.fmapNextents, none⟩

/-- The fields of `struct stat` that come from the text and not from the shadow file itself. -/
structure ShadowStat where
  stMode : ℕ
  stUid : ℕ
  stGid : ℕ
  stSize : ℕ
deriving DecidableEq

/-- A regular file, whatever the mode in the text says. -/
def FamfsLogFileMeta.shadowStat (fmeta : FamfsLogFileMeta) : ShadowStat :=
  ⟨fmeta.fmMode ||| 0o100000, fmeta.fmUid, fmeta.fmGid, fmeta.fmSize⟩

/-- `famfs_shadow_to_stat` on a text that could be opened as a stream; `past` is what lies behind the
structure that it allocates. -/
def famfsShadowToStat (fuel : ℕ) (yaml : YamlParser) (past : ℕ → ℕ) :
    Option (Except ℤ (ShadowStat × FamfsLogFileMeta)) :=
  (famfsParseShadowYaml fuel yaml ⟨0, 0, 0, 0, 0, [], .zero⟩ past FAMFS_MAX_SIMPLE_EXTENTS FAMFS_MAX_SIMPLE_EXTENTS).map
    fun st => if st.rc ≠ 0 then .error st.rc else .ok (st.fm.shadowStat, st.fm)

/-- `famfs_get_fmap` for an inode of the cache: the length of the reply and the buffer that it is
taken from, or the error. -/
def famfsGetFmap (abi : FuseAbi) (mem : Bool) (fileType : ℕ) (fmeta : Option FamfsLogFileMeta) :
    Except Trap (Except ℤ (ℕ × Buf)) :=
  if mem = false then .ok (.error ENOMEM)
  else match fmeta with
    | none => .ok (.error ENOENT)
    | some fmeta => do
      let (fmapSize, msg) ← famfsLogFileMetaToMsg abi (fun _ => 0) FMAP_MSG_MAX fileType fmeta
      if fmapSize ≤ 0 then .ok (.error EINVAL) else .ok (.ok (fmapSize.toNat, msg))

end Famfs
