import Famfs.Lib.Machine
import Famfs.Lib.Intervals

/-! The on-media structures of `famfs_meta.h`. Unsigned fields are natural
numbers, byte strings are lists of bytes, and the file map keeps its union: one
block of 64-bit words that is read either as simple extents or as an interleaved
extent. -/

namespace Famfs

open Machine

def FAMFS_SUPER_MAGIC : ℕ := 0x87b282ff
def FAMFS_CURRENT_VERSION : ℕ := 48
def FAMFS_LOG_OFFSET : ℕ := 0x200000
def FAMFS_LOG_LEN : ℕ := 0x800000
def FAMFS_SUPERBLOCK_SIZE : ℕ := FAMFS_LOG_OFFSET
def FAMFS_ALLOC_UNIT : ℕ := 0x200000
def FAMFS_OMF_VER_MAJOR : ℕ := 2
def FAMFS_OMF_VER_MINOR : ℕ := 2
def FAMFS_LOG_MAGIC : ℕ := 0xbadcafef00d
def FAMFS_EXT_SIMPLE : ℕ := 0
def FAMFS_EXT_INTERLEAVE : ℕ := 1
def FAMFS_MAX_SIMPLE_EXTENTS : ℕ := 16
def FAMFS_MAX_NBUCKETS : ℕ := 64
def FAMFS_MAX_PATHLEN : ℕ := 80
def FAMFS_LOG_FILE : ℕ := 0
def FAMFS_LOG_MKDIR : ℕ := 1
def FAMFS_LOG_ADD_DAXDEV : ℕ := 3
def FAMFS_FM_ALL_HOSTS_RW : ℕ := 2
def ENOMEM : ℤ := 12
def EINVAL : ℤ := 22
def EBADF : ℤ := 9

def roundSizeToAllocUnit (size : ℕ) : ℕ :=
  u64 (u64 (size + FAMFS_ALLOC_UNIT - 1) / FAMFS_ALLOC_UNIT * FAMFS_ALLOC_UNIT)

/-- A C string without its terminating zero. -/
abbrev CStr := List UInt8

/-- How a C function stops the process instead of returning. `overread` is a load past the
end of an array whose stores stay inside. -/
inductive Trap where
  | assertion
  | divZero
  | outOfBounds
  | overread
  | nullPointer
  | useAfterFree
deriving DecidableEq, Repr

structure FamfsSimpleExtent where
  seDevindex : ℕ := 0
  seOffset : ℕ := 0
  seLen : ℕ := 0
deriving DecidableEq, Repr

/-- Bytes of the device that an extent names. -/
def FamfsSimpleExtent.bytes (e : FamfsSimpleExtent) : Set ℕ := Set.Ico e.seOffset (e.seOffset + e.seLen)

/-- `fmap_nextents` and `fmap_niext` are the same storage, and `words` is the
storage of both `se[16]` (48 words) and `ie[1]` (2 words and 16 strips). -/
structure FamfsLogFmap where
  fmapExtType : ℕ
  fmapNextents : ℕ
  words : Fin 50 → ℕ
deriving DecidableEq

/-- The structure `calloc` returns. -/
def FamfsLogFmap.zero : FamfsLogFmap := ⟨0, 0, fun _ => 0⟩

/-- A word of the union; past its end there is nothing but zeroes. -/
def FamfsLogFmap.word (f : FamfsLogFmap) (k : ℕ) : ℕ := if h : k < 50 then f.words ⟨k, h⟩ else 0

/-- A word of the union for a reader that does not stop at its end, with the words that lie behind the
map. -/
def FamfsLogFmap.wordIn (f : FamfsLogFmap) (past : ℕ → ℕ) (k : ℕ) : ℕ :=
  if h : k < 50 then f.words ⟨k, h⟩ else past (k - 50)

def FamfsLogFmap.extentIn (f : FamfsLogFmap) (past : ℕ → ℕ) (k : ℕ) : FamfsSimpleExtent :=
  ⟨f.wordIn past k, f.wordIn past (k + 1), f.wordIn past (k + 2)⟩

def FamfsLogFmap.setWord (f : FamfsLogFmap) (k v : ℕ) : FamfsLogFmap :=
  { f with words := fun i => if i.val = k then v else f.words i }

def FamfsLogFmap.extentAt (f : FamfsLogFmap) (k : ℕ) : FamfsSimpleExtent :=
  ⟨f.word k, f.word (k + 1), f.word (k + 2)⟩

def FamfsLogFmap.setExtentAt (f : FamfsLogFmap) (k : ℕ) (e : FamfsSimpleExtent) : FamfsLogFmap :=
  ((f.setWord k e.seDevindex).setWord (k + 1) e.seOffset).setWord (k + 2) e.seLen

/-- `se[j]`. -/
def FamfsLogFmap.se (f : FamfsLogFmap) (j : ℕ) : FamfsSimpleExtent := f.extentAt (3 * j)

/-- `ie[m].ie_nstrips`. -/
def FamfsLogFmap.ieNstrips (f : FamfsLogFmap) (m : ℕ) : ℕ := f.word (50 * m)

/-- `ie[m].ie_chunk_size`. -/
def FamfsLogFmap.ieChunkSize (f : FamfsLogFmap) (m : ℕ) : ℕ := f.word (50 * m + 1)

/-- `ie[m].ie_strips[k]`; a slot past the array reads as the zero extent. -/
def FamfsLogFmap.ieStrips (f : FamfsLogFmap) (m k : ℕ) : FamfsSimpleExtent :=
  f.extentAt (50 * m + 2 + 3 * k)

def FamfsLogFmap.setIeStrip (f : FamfsLogFmap) (k : ℕ) (e : FamfsSimpleExtent) : FamfsLogFmap :=
  f.setExtentAt (2 + 3 * k) e

structure FamfsLogFileMeta where
  fmSize : ℕ
  fmFlags : ℕ
  fmUid : ℕ
  fmGid : ℕ
  fmMode : ℕ
  fmRelpath : CStr
  fmFmap : FamfsLogFmap
deriving DecidableEq

structure FamfsLogMkdir where
  mdUid : ℕ
  mdGid : ℕ
  mdMode : ℕ
  mdRelpath : CStr
deriving DecidableEq

structure FamfsLogAddDaxdev where
  ddSize : ℕ
  ddUuid : List UInt8
  ddIndex : ℕ
deriving DecidableEq

/-- The entry type selects the member of the entry's union that is read. -/
inductive FamfsLogEntryBody where
  | fm (m : FamfsLogFileMeta)
  | md (m : FamfsLogMkdir)
  | dd (m : FamfsLogAddDaxdev)
  | other (entryType : ℕ) (raw : List UInt8)
deriving DecidableEq

structure FamfsLogEntry where
  famfsLogEntrySeqnum : ℕ
  body : FamfsLogEntryBody
  famfsLogEntryCrc : ℕ
deriving DecidableEq

def FamfsLogEntryBody.entryType : FamfsLogEntryBody → ℕ
  | .fm _ => FAMFS_LOG_FILE
  | .md _ => FAMFS_LOG_MKDIR
  | .dd _ => FAMFS_LOG_ADD_DAXDEV
  | .other t _ => t

/-- The slot `memset` leaves. Type zero is `FAMFS_LOG_FILE`. -/
def FamfsLogEntry.zero : FamfsLogEntry := ⟨0, .fm ⟨0, 0, 0, 0, 0, [], .zero⟩, 0⟩

structure FamfsLog where
  famfsLogMagic : ℕ
  famfsLogLen : ℕ
  famfsLogLastIndex : ℕ
  famfsLogCrc : ℕ
  famfsLogNextSeqnum : ℕ
  famfsLogNextIndex : ℕ
  entries : ℕ → FamfsLogEntry

structure FamfsSuperblock where
  tsMagic : ℕ
  tsVersion : ℕ
  tsLogOffset : ℕ
  tsLogLen : ℕ
  tsAllocUnit : ℕ
  tsOmfVerMajor : ℕ
  tsOmfVerMinor : ℕ
  tsUuid : List UInt8
  tsDevUuid : List UInt8
  tsSystemUuid : List UInt8
  tsCrc : ℕ
  tsDaxdevSize : ℕ
deriving DecidableEq

/-! Byte images, little endian and with the padding the compiler inserts. -/

def leBytes (k n : ℕ) : List UInt8 := (List.range k).map fun i => UInt8.ofNat (n / 256 ^ i)

/-- A fixed array of `k` bytes that starts with `s`. -/
def pad (k : ℕ) (s : List UInt8) : List UInt8 := s.take k ++ List.replicate (k - s.length) 0

def FamfsLogFmap.image (f : FamfsLogFmap) : List UInt8 :=
  leBytes 4 f.fmapExtType ++ leBytes 4 0 ++ leBytes 4 f.fmapNextents ++ leBytes 4 0 ++
    (List.ofFn f.words).flatMap (leBytes 8)

def FamfsLogEntryBody.image : FamfsLogEntryBody → List UInt8
  | .fm m => leBytes 8 m.fmSize ++ leBytes 4 m.fmFlags ++ leBytes 4 m.fmUid ++ leBytes 4 m.fmGid ++ leBytes 4 m.fmMode ++
      pad 80 m.fmRelpath ++ m.fmFmap.image
  | .md m => pad 520 (leBytes 4 m.mdUid ++ leBytes 4 m.mdGid ++ leBytes 4 m.mdMode ++ pad 80 m.mdRelpath)
  | .dd m => pad 520 (leBytes 8 m.ddSize ++ pad 16 m.ddUuid ++ leBytes 4 m.ddIndex)
  | .other _ raw => pad 520 raw

/-- The part of an entry that its checksum covers. -/
def FamfsLogEntry.image (e : FamfsLogEntry) : List UInt8 :=
  leBytes 8 e.famfsLogEntrySeqnum ++ leBytes 4 e.body.entryType ++ leBytes 4 0 ++ e.body.image

def leValue (bs : List UInt8) : ℕ := bs.foldr (fun b n => b.toNat + 256 * n) 0

/-- The 68 words of an entry, the last of them its checksum. -/
def FamfsLogEntry.word (e : FamfsLogEntry) (w : ℕ) : ℕ :=
  if w = 67 then e.famfsLogEntryCrc else leValue ((e.image.drop (8 * w)).take 8)

/-- The words behind the map of entry `i`: its checksum, and then the next slots. -/
def FamfsLog.past (logp : FamfsLog) (i k : ℕ) : ℕ := (logp.entries (i + (67 + k) / 68)).word ((67 + k) % 68)

/-- `offsetof(struct famfs_log, entries)`. -/
def LOG_ENTRIES_OFFSET : ℕ := 48

/-- `sizeof(struct famfs_log_entry)`. -/
def LOG_ENTRY_SIZE : ℕ := 544

@[simp] theorem leBytes_length (k n : ℕ) : (leBytes k n).length = k := by simp [leBytes]

@[simp] theorem pad_length (k : ℕ) (s : List UInt8) : (pad k s).length = k := by
  simp only [pad, List.length_append, List.length_take, List.length_replicate]
  omega

theorem image_length (e : FamfsLogEntry) : e.image.length + 8 = LOG_ENTRY_SIZE := by
  cases hb : e.body <;>
    simp [FamfsLogEntry.image, FamfsLogEntryBody.image, FamfsLogFmap.image, hb,
      LOG_ENTRY_SIZE]

theorem FamfsLogFmap.word_setWord (f : FamfsLogFmap) {k : ℕ} (hk : k < 50) (v i : ℕ) :
    (f.setWord k v).word i = if i = k then v else f.word i := by
  unfold word setWord
  by_cases hi : i < 50
  · simp [hi]
  · have : i ≠ k := by omega
    simp [hi, this]

theorem FamfsLogFmap.wordIn_eq (f : FamfsLogFmap) (past : ℕ → ℕ) {k : ℕ} (hk : k < 50) : f.wordIn past k = f.word k := by
  rw [wordIn, word, dif_pos hk, dif_pos hk]

theorem FamfsLogFmap.extentIn_eq (f : FamfsLogFmap) (past : ℕ → ℕ) {k : ℕ} (hk : k + 2 < 50) :
    f.extentIn past k = f.extentAt k := by
  rw [extentIn, extentAt, wordIn_eq f past (by omega), wordIn_eq f past (by omega), wordIn_eq f past hk]

theorem FamfsLogFmap.extentAt_setExtentAt_self (f : FamfsLogFmap) {k : ℕ} (hk : k + 2 < 50)
    (e : FamfsSimpleExtent) : (f.setExtentAt k e).extentAt k = e := by
  simp [extentAt, setExtentAt, word_setWord _ (show k < 50 by omega),
    word_setWord _ (show k + 1 < 50 by omega), word_setWord _ hk]

theorem FamfsLogFmap.extentAt_setExtentAt_ne (f : FamfsLogFmap) {k l : ℕ} (hk : k + 2 < 50)
    (hne : l + 2 < k ∨ k + 2 < l) (e : FamfsSimpleExtent) :
    (f.setExtentAt k e).extentAt l = f.extentAt l := by
  have h1 := word_setWord f (show k < 50 by omega) e.seDevindex
  have h2 := word_setWord (f.setWord k e.seDevindex) (show k + 1 < 50 by omega) e.seOffset
  have h3 := word_setWord ((f.setWord k e.seDevindex).setWord (k + 1) e.seOffset) hk e.seLen
  unfold extentAt setExtentAt
  congr 1 <;> rw [h3, if_neg (by omega), h2, if_neg (by omega), h1, if_neg (by omega)]

end Famfs
