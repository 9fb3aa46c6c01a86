import Famfs.Spec.Meta

/-! The metadata log: its checksums and validators, the append operations of the
master, the log that `__famfs_mkfs` writes, and the table of `famfs_dax.c` that entries are
added to. The checksum function is zlib's `crc32`, a parameter here. -/

namespace Famfs

open Machine

/-- zlib's `crc32(crc, buf, len)`. -/
abbrev Crc32 := ℕ → List UInt8 → ℕ

section

variable (crc32 : Crc32)

def famfsGenSuperblockCrc (sb : FamfsSuperblock) : ℕ :=
  [leBytes 8 sb.tsMagic, leBytes 8 sb.tsVersion, leBytes 8 sb.tsLogOffset, leBytes 8 sb.tsLogLen,
    leBytes 8 sb.tsAllocUnit, leBytes 4 sb.tsOmfVerMajor, leBytes 4 sb.tsOmfVerMinor,
    pad 16 sb.tsUuid, pad 16 sb.tsDevUuid, pad 16 sb.tsSystemUuid].foldl crc32 0

def famfsGenLogHeaderCrc (logp : FamfsLog) : ℕ :=
  [leBytes 8 logp.famfsLogMagic, leBytes 8 logp.famfsLogLen,
    leBytes 8 logp.famfsLogLastIndex].foldl crc32 0

def famfsGenLogEntryCrc (le : FamfsLogEntry) : ℕ := crc32 0 le.image

def famfsCheckSuper (sb : FamfsSuperblock) : ℤ :=
  if sb.tsMagic ≠ FAMFS_SUPER_MAGIC then -1
  else if sb.tsVersion ≠ FAMFS_CURRENT_VERSION then 1
  else if sb.tsCrc ≠ famfsGenSuperblockCrc crc32 sb then -1
  else if sb.tsAllocUnit ≠ 4096 ∧ sb.tsAllocUnit ≠ 0x200000 then -1
  else 0

def famfsLogFull (logp : FamfsLog) : Bool := decide (logp.famfsLogLastIndex < logp.famfsLogNextIndex)

def famfsValidateLogHeader (logp : FamfsLog) : ℤ :=
  if logp.famfsLogMagic ≠ FAMFS_LOG_MAGIC then -1
  else if logp.famfsLogCrc ≠ famfsGenLogHeaderCrc crc32 logp then -1
  else 0

/-- One pass over an entry: a bad sequence number and a bad checksum are counted. -/
def logEntryErrors (le : FamfsLogEntry) (index : ℕ) : ℕ :=
  (if le.famfsLogEntrySeqnum ≠ index then 1 else 0) +
    (if le.famfsLogEntryCrc ≠ famfsGenLogEntryCrc crc32 le then 1 else 0)

/-- `view k` is what pass `k` over the entry's memory sees: the second pass runs
after `invalidate_processor_cache`. -/
def famfsValidateLogEntry (view : ℕ → FamfsLogEntry) (index : ℕ) : ℕ :=
  if logEntryErrors crc32 (view 0) index ≠ 0 then logEntryErrors crc32 (view 1) index else 0

/-- Stores of the master to the log. -/
inductive LogStore where
  | entry (index : ℕ) (le : FamfsLogEntry)
  | nextSeqnum (n : ℕ)
  | nextIndex (n : ℕ)

def FamfsLog.apply (logp : FamfsLog) : LogStore → FamfsLog
  | .entry i e => { logp with entries := Function.update logp.entries i e }
  | .nextSeqnum n => { logp with famfsLogNextSeqnum := n }
  | .nextIndex n => { logp with famfsLogNextIndex := n }

/-- The bytes of the log, counted from its start, that a store writes. -/
def LogStore.bytes : LogStore → Intervals.Seg
  | .entry i _ => (LOG_ENTRIES_OFFSET + i * LOG_ENTRY_SIZE, LOG_ENTRY_SIZE)
  | .nextSeqnum _ => (32, 8)
  | .nextIndex _ => (40, 8)

/-- The entry as `famfs_append_log` completes it. -/
def stampLogEntry (logp : FamfsLog) (e : FamfsLogEntry) : FamfsLogEntry :=
  let e := { e with famfsLogEntrySeqnum := logp.famfsLogNextSeqnum }
  { e with famfsLogEntryCrc := famfsGenLogEntryCrc crc32 e }

def famfsAppendLogStores (logp : FamfsLog) (e : FamfsLogEntry) : List LogStore :=
  [.entry logp.famfsLogNextIndex (stampLogEntry crc32 logp e),
    .nextSeqnum (logp.famfsLogNextSeqnum + 1), .nextIndex (logp.famfsLogNextIndex + 1)]

/-- The counters stay at most one past `famfs_log_last_index` and cannot wrap. -/
def famfsAppendLog (logp : FamfsLog) (e : FamfsLogEntry) : FamfsLog :=
  (famfsAppendLogStores crc32 logp e).foldl FamfsLog.apply logp

/-- `le = {0}` with a type and a union member filled in. -/
def newLogEntry (body : FamfsLogEntryBody) : FamfsLogEntry := ⟨0, body, 0⟩

/-- `strncpy(dst, relpath, FAMFS_MAX_PATHLEN - 1)` into a zeroed array. -/
def copyRelpath (relpath : CStr) : CStr := relpath.take (FAMFS_MAX_PATHLEN - 1)

/-- The `famfs_log_file_meta` that a file creation logs. -/
def logFileMeta (fmap : FamfsLogFmap) (relpath : CStr) (mode uid gid size : ℕ) : FamfsLogFileMeta where
  fmSize := size
  fmFlags := FAMFS_FM_ALL_HOSTS_RW
  fmUid := uid
  fmGid := gid
  fmMode := mode
  fmRelpath := copyRelpath relpath
  fmFmap := fmap

def famfsLogFileCreation (logp : FamfsLog) (fmap : FamfsLogFmap) (relpath : CStr)
    (mode uid gid size : ℕ) : Except Trap (ℤ × FamfsLog) :=
  if fmap.fmapNextents < 1 then .error .assertion
  else if relpath.head? = some 47 then .error .assertion
  else if famfsLogFull logp then .ok (-ENOMEM, logp)
  else .ok (0, famfsAppendLog crc32 logp
    (newLogEntry (.fm (logFileMeta fmap relpath mode uid gid size))))

def famfsLogDirCreation (logp : FamfsLog) (relpath : CStr) (mode uid gid : ℕ) :
    Except Trap (ℤ × FamfsLog) :=
  if relpath.head? = some 47 then .error .assertion
  else if famfsLogFull logp then .ok (-ENOMEM, logp)
  else .ok (0, famfsAppendLog crc32 logp (newLogEntry (.md ⟨uid, gid, mode, copyRelpath relpath⟩)))

def famfsAddDaxdev (logp : FamfsLog) (ddSize : ℕ) (ddUuid : List UInt8) (ddIndex : ℕ) :
    Except Trap (ℤ × FamfsLog) :=
  if famfsLogFull logp then .ok (-ENOMEM, logp)
  else .ok (0, famfsAppendLog crc32 logp (newLogEntry (.dd ⟨ddSize, ddUuid, ddIndex⟩)))

/-- `log_len` as `famfs_mkfs` accepts it: a power of two, at least the default. -/
def mkfsLogLenValid (logLen : ℕ) : Prop :=
  logLen &&& (logLen - 1) = 0 ∧ FAMFS_LOG_LEN ≤ logLen

instance (logLen : ℕ) : Decidable (mkfsLogLenValid logLen) := inferInstanceAs (Decidable (_ ∧ _))

/-- The log part of `__famfs_mkfs`. -/
def mkfsLog (logLen : ℕ) : FamfsLog :=
  let logp : FamfsLog :=
    { famfsLogMagic := FAMFS_LOG_MAGIC
      famfsLogLen := logLen
      famfsLogNextSeqnum := 0
      famfsLogNextIndex := 0
      famfsLogLastIndex := sub64 (sub64 logLen LOG_ENTRIES_OFFSET / LOG_ENTRY_SIZE) 1
      famfsLogCrc := 0
      entries := fun _ => .zero }
  { logp with famfsLogCrc := famfsGenLogHeaderCrc crc32 logp }

/-- What `__famfs_mkfs` asks of its host: the system uuid, if it can be read, and
the two uuids it generates. -/
structure MkfsHost where
  systemUuid : Option (List UInt8)
  fsUuid : List UInt8
  devUuid : List UInt8

/-- The superblock `__famfs_mkfs` writes. -/
def mkfsSuperblock (host : MkfsHost) (systemUuid : List UInt8) (logLen deviceSize : ℕ) :
    FamfsSuperblock :=
  let sb : FamfsSuperblock :=
    { tsMagic := FAMFS_SUPER_MAGIC
      tsVersion := FAMFS_CURRENT_VERSION
      tsLogOffset := FAMFS_LOG_OFFSET
      tsLogLen := logLen
      tsAllocUnit := FAMFS_ALLOC_UNIT
      tsOmfVerMajor := FAMFS_OMF_VER_MAJOR
      tsOmfVerMinor := FAMFS_OMF_VER_MINOR
      tsUuid := host.fsUuid
      tsDevUuid := host.devUuid
      tsSystemUuid := systemUuid
      tsCrc := 0
      tsDaxdevSize := deviceSize }
  { sb with tsCrc := famfsGenSuperblockCrc crc32 sb }

/-- `famfs_kill_superblock`. A device that is not `writable` drops what is stored to it. -/
def famfsKillSuperblock (writable : Bool) (sb : FamfsSuperblock) : FamfsSuperblock :=
  if writable then { sb with tsMagic := 0 } else sb

/-- Result code, superblock and log after the call. -/
def famfsMkfs (host : MkfsHost) (writable : Bool) (sb : FamfsSuperblock) (logp : FamfsLog) (logLen deviceSize : ℕ)
    (force kill : Bool) : ℤ × FamfsSuperblock × FamfsLog :=
  if kill && force then (0, famfsKillSuperblock writable sb, logp)
  else if (famfsCheckSuper crc32 sb = 0 ∨ famfsCheckSuper crc32 sb = 1) ∧ force = false then
    (-1, sb, logp)
  else match host.systemUuid with
    | none => (-1, sb, logp)
    | some u =>
      let stored := if writable then mkfsSuperblock crc32 host u logLen deviceSize else sb
      -- the magic number is read back before the rest is stored
      if stored.tsMagic ≠ FAMFS_SUPER_MAGIC then (-1, stored, logp)
      else (0, stored, if writable then mkfsLog crc32 logLen else logp)

theorem famfsMkfs_writable {host : MkfsHost} {u : List UInt8} {sb : FamfsSuperblock} {logp : FamfsLog}
    {logLen deviceSize : ℕ} {force kill : Bool} (hkill : (kill && force) = false)
    (hsuper : ¬ ((famfsCheckSuper crc32 sb = 0 ∨ famfsCheckSuper crc32 sb = 1) ∧ force = false))
    (hu : host.systemUuid = some u) : famfsMkfs crc32 host true sb logp logLen deviceSize force kill =
      (0, mkfsSuperblock crc32 host u logLen deviceSize, mkfsLog crc32 logLen) := by
  rw [famfsMkfs, if_neg (by simp [hkill]), if_neg hsuper, hu]
  rfl

end

/-! The table of dax devices: the caller has seeded the array with the primary, and
`famfs_daxdev_table_add` appends the device of an entry. -/

def EEXIST : ℤ := 17
def ENOSPC : ℤ := 28
def ERANGE : ℤ := 34

structure FamfsDaxdev where
  ddSize : ℕ
  ddUuid : List UInt8
  ddDaxdev : CStr
deriving DecidableEq

/-- The array, and the `int` that counts its valid slots. -/
structure DaxdevTable where
  table : ℕ → FamfsDaxdev
  ndevs : ℤ

/-- The loop over the slots in use. -/
def uuidInTable (t : DaxdevTable) (uuid : List UInt8) : Bool :=
  (List.range t.ndevs.toNat).any fun i => (t.table i).ddUuid = uuid

/-- The result and the table after. -/
def famfsDaxdevTableAdd (max : ℤ) (t : DaxdevTable) (le : FamfsLogEntry) : ℤ × DaxdevTable :=
  if t.ndevs < 0 then (-EINVAL, t)
  else
    match le.body with
    | .dd dd =>
      if max ≤ t.ndevs then (-ENOSPC, t)
      else if dd.ddIndex ≠ u32 t.ndevs.toNat then (-ERANGE, t)
      else if uuidInTable t dd.ddUuid then (-EEXIST, t)
      else (0, ⟨Function.update t.table t.ndevs.toNat ⟨dd.ddSize, dd.ddUuid, []⟩, t.ndevs + 1⟩)
    | .fm _ => (-EINVAL, t)
    | .md _ => (-EINVAL, t)
    | .other _ _ => (-EINVAL, t)

/-- A replay that adds every entry it meets. -/
def daxdevTableFold (max : ℤ) (t : DaxdevTable) (entries : List FamfsLogEntry) : DaxdevTable :=
  entries.foldl (fun t le => (famfsDaxdevTableAdd max t le).2) t

end Famfs
