import Famfs.Lib.Records
import Famfs.Spec.Logplay

/-! `__famfs_logplay` on a node that shares the log with the master. There is no lock:
the master appends while the reader's loop runs, and what the reader loads of a slot is
made of bytes of the slot before the master's store and of bytes after it. -/

namespace Famfs

open Records

/-- The bytes of an entry. -/
def FamfsLogEntry.slot (e : FamfsLogEntry) : List UInt8 := e.image ++ leBytes 8 e.famfsLogEntryCrc

/-! An entry as the loop reads it from the bytes of its local copy. -/

def slotSeqnum (b : List UInt8) : ℕ := leNat (cut b 0 8)

def slotCrc (b : List UInt8) : ℕ := leNat (cut b 536 8)

def slotFmap (b : List UInt8) : FamfsLogFmap where
  fmapExtType := leNat (cut b 120 4)
  fmapNextents := leNat (cut b 128 4)
  words k := leNat (cut b (136 + 8 * k) 8)

def slotFile (b : List UInt8) : FamfsLogFileMeta where
  fmSize := leNat (cut b 16 8)
  fmFlags := leNat (cut b 24 4)
  fmUid := leNat (cut b 28 4)
  fmGid := leNat (cut b 32 4)
  fmMode := leNat (cut b 36 4)
  fmRelpath := trim (cut b 40 80)
  fmFmap := slotFmap b

def slotMkdir (b : List UInt8) : FamfsLogMkdir where
  mdUid := leNat (cut b 16 4)
  mdGid := leNat (cut b 20 4)
  mdMode := leNat (cut b 24 4)
  mdRelpath := trim (cut b 28 80)

def slotAddDaxdev (b : List UInt8) : FamfsLogAddDaxdev where
  ddSize := leNat (cut b 16 8)
  ddUuid := cut b 24 16
  ddIndex := leNat (cut b 40 4)

def slotBody (b : List UInt8) : FamfsLogEntryBody :=
  let entryType := leNat (cut b 8 4)
  if entryType = FAMFS_LOG_FILE then .fm (slotFile b)
  else if entryType = FAMFS_LOG_MKDIR then .md (slotMkdir b)
  else if entryType = FAMFS_LOG_ADD_DAXDEV then .dd (slotAddDaxdev b)
  else .other entryType (cut b 16 520)

section

variable (crc32 : Crc32)

def slotErrors (b : List UInt8) (index : ℕ) : ℕ :=
  (if slotSeqnum b ≠ index then 1 else 0) + (if slotCrc b ≠ crc32 0 (cut b 0 536) then 1 else 0)

/-- `famfs_validate_log_entry` on the local copy, whose bytes are the same in both
passes. -/
def validateSlot (b : List UInt8) (index : ℕ) : ℕ :=
  if slotErrors crc32 b index ≠ 0 then slotErrors crc32 b index else 0

end

/-- What one load of a slot can give: each byte as it was, zero, or as it was stored. -/
def Torn (slot b : List UInt8) : Prop := List.Forall₂ (fun x y => y = 0 ∨ y = x) slot b

/-- Where the loop of the reader is: before the test of its bound, before the copy of a
slot, or at the end with the value it returned. -/
inductive ReaderPc where
  | test
  | load
  | done (rc : ℤ)
deriving DecidableEq

structure Reader where
  pc : ReaderPc
  i : ℕ
  /-- The `famfs_log_next_index` of the last test. -/
  bound : ℕ
  st : PlayState
  /-- The entries that were applied. -/
  applied : List FamfsLogEntryBody

def Reader.start (st : PlayState) : Reader := ⟨.test, 0, 0, st, []⟩

structure SharedLog where
  logp : FamfsLog
  reader : Reader

/-- Fields of an entry are within the types that hold them. -/
structure FamfsLogFmap.Fits (f : FamfsLogFmap) : Prop where
  extType : f.fmapExtType < 2 ^ 32
  nextents : f.fmapNextents < 2 ^ 32
  words : ∀ k, f.words k < 2 ^ 64

inductive FamfsLogEntryBody.Fits : FamfsLogEntryBody → Prop
  | fm {m : FamfsLogFileMeta} (hsize : m.fmSize < 2 ^ 64) (hflags : m.fmFlags < 2 ^ 32) (huid : m.fmUid < 2 ^ 32)
      (hgid : m.fmGid < 2 ^ 32) (hmode : m.fmMode < 2 ^ 32) (hpath : m.fmRelpath.length ≤ 80)
      (hnul : (0 : UInt8) ∉ m.fmRelpath) (hfmap : m.fmFmap.Fits) : FamfsLogEntryBody.Fits (.fm m)
  | md {m : FamfsLogMkdir} (huid : m.mdUid < 2 ^ 32) (hgid : m.mdGid < 2 ^ 32) (hmode : m.mdMode < 2 ^ 32)
      (hpath : m.mdRelpath.length ≤ 80) (hnul : (0 : UInt8) ∉ m.mdRelpath) : FamfsLogEntryBody.Fits (.md m)
  | dd {m : FamfsLogAddDaxdev} (hsize : m.ddSize < 2 ^ 64) (huuid : m.ddUuid.length = 16)
      (hindex : m.ddIndex < 2 ^ 32) : FamfsLogEntryBody.Fits (.dd m)
  | other {t : ℕ} {raw : List UInt8} (ht : t < 2 ^ 32) (hfm : t ≠ FAMFS_LOG_FILE) (hmd : t ≠ FAMFS_LOG_MKDIR)
      (hdd : t ≠ FAMFS_LOG_ADD_DAXDEV) (hraw : raw.length = 520) : FamfsLogEntryBody.Fits (.other t raw)

/-- Steps of the master and of the reader. A test may load any value that
`famfs_log_next_index` has had, and the copy of a slot any mixture; the system calls of
a local creation may return anything. -/
inductive ReadStep (crc32 : Crc32) (cfg : PlayConfig) : SharedLog → SharedLog → Prop
  | append {logp : FamfsLog} {r : Reader} (e : FamfsLogEntry) (hfits : e.body.Fits) :
      ReadStep crc32 cfg ⟨logp, r⟩ ⟨famfsAppendLog crc32 logp e, r⟩
  | more {logp : FamfsLog} {r : Reader} (hpc : r.pc = .test) (n : ℕ) (hn : n ≤ logp.famfsLogNextIndex)
      (hlt : r.i < n) : ReadStep crc32 cfg ⟨logp, r⟩ ⟨logp, { r with pc := .load, bound := n }⟩
  | finish {logp : FamfsLog} {r : Reader} (hpc : r.pc = .test) (n : ℕ) (hn : n ≤ logp.famfsLogNextIndex)
      (hge : ¬ r.i < n) :
      ReadStep crc32 cfg ⟨logp, r⟩ ⟨logp, { r with pc := .done (playErrors r.st.ls), bound := n }⟩
  | reject {logp : FamfsLog} {r : Reader} (hpc : r.pc = .load) (b : List UInt8)
      (htorn : Torn (logp.entries r.i).slot b) (hbad : validateSlot crc32 b r.i ≠ 0) :
      ReadStep crc32 cfg ⟨logp, r⟩ ⟨logp, { r with pc := .done (-1) }⟩
  | play {logp : FamfsLog} {r : Reader} (hpc : r.pc = .load) (b : List UInt8)
      (htorn : Torn (logp.entries r.i).slot b) (hgood : validateSlot crc32 b r.i = 0) (sys : Sys) (st : PlayState)
      (hplay : playEntry cfg sys r.st (slotBody b) = .ok st) :
      ReadStep crc32 cfg ⟨logp, r⟩
        ⟨logp, { r with pc := .test, i := r.i + 1, st := st, applied := r.applied ++ [slotBody b] }⟩

end Famfs
