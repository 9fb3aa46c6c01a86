import Famfs.Lib.Crc32
import Famfs.Lib.Runs
import Famfs.Spec.Log

/-! The log of a master over whole runs. Every call that reaches the log either
finds it full and leaves it alone or appends one entry, and an append keeps a log
that its readers accept. -/

namespace Famfs

open Machine Relation

variable {logp logp' : FamfsLog}

inductive LogCall where
  | file (fmap : FamfsLogFmap) (relpath : CStr) (mode uid gid size : ℕ)
  | dir (relpath : CStr) (mode uid gid : ℕ)
  | daxdev (ddSize : ℕ) (ddUuid : List UInt8) (ddIndex : ℕ)

section

variable (crc32 : Crc32)

def logCall (logp : FamfsLog) : LogCall → Except Trap (ℤ × FamfsLog)
  | .file fmap relpath mode uid gid size =>
      famfsLogFileCreation crc32 logp fmap relpath mode uid gid size
  | .dir relpath mode uid gid => famfsLogDirCreation crc32 logp relpath mode uid gid
  | .daxdev ddSize ddUuid ddIndex => famfsAddDaxdev crc32 logp ddSize ddUuid ddIndex

def LogStep (logp logp' : FamfsLog) : Prop := ∃ call rc, logCall crc32 logp call = .ok (rc, logp')

/-- Readers accept the log and there is room for every slot up to the last. -/
structure LogOk (logp : FamfsLog) : Prop where
  seqnum : logp.famfsLogNextSeqnum = logp.famfsLogNextIndex
  index : logp.famfsLogNextIndex ≤ logp.famfsLogLastIndex + 1
  header : famfsValidateLogHeader crc32 logp = 0
  entry : ∀ i < logp.famfsLogNextIndex, famfsValidateLogEntry crc32 (fun _ => logp.entries i) i = 0
  room : LOG_ENTRIES_OFFSET + (logp.famfsLogLastIndex + 1) * LOG_ENTRY_SIZE ≤ logp.famfsLogLen

@[simp] theorem append_nextIndex (logp : FamfsLog) (e : FamfsLogEntry) :
    (famfsAppendLog crc32 logp e).famfsLogNextIndex = logp.famfsLogNextIndex + 1 := rfl

@[simp] theorem append_nextSeqnum (logp : FamfsLog) (e : FamfsLogEntry) :
    (famfsAppendLog crc32 logp e).famfsLogNextSeqnum = logp.famfsLogNextSeqnum + 1 := rfl

@[simp] theorem append_lastIndex (logp : FamfsLog) (e : FamfsLogEntry) :
    (famfsAppendLog crc32 logp e).famfsLogLastIndex = logp.famfsLogLastIndex := rfl

theorem append_entries (logp : FamfsLog) (e : FamfsLogEntry) :
    (famfsAppendLog crc32 logp e).entries =
      Function.update logp.entries logp.famfsLogNextIndex (stampLogEntry crc32 logp e) := rfl

theorem append_entries_old (logp : FamfsLog) (e : FamfsLogEntry) {i : ℕ}
    (hi : i < logp.famfsLogNextIndex) : (famfsAppendLog crc32 logp e).entries i = logp.entries i := by
  rw [append_entries, Function.update_of_ne (by omega)]

theorem append_entries_new (logp : FamfsLog) (e : FamfsLogEntry) :
    (famfsAppendLog crc32 logp e).entries logp.famfsLogNextIndex = stampLogEntry crc32 logp e := by
  rw [append_entries, Function.update_self]

@[simp] theorem stampLogEntry_body (logp : FamfsLog) (e : FamfsLogEntry) :
    (stampLogEntry crc32 logp e).body = e.body := rfl

theorem stampLogEntry_valid (logp : FamfsLog) (e : FamfsLogEntry) :
    famfsValidateLogEntry crc32 (fun _ => stampLogEntry crc32 logp e) logp.famfsLogNextSeqnum = 0 := by
  have h0 : logEntryErrors crc32 (stampLogEntry crc32 logp e) logp.famfsLogNextSeqnum = 0 := by
    simp [logEntryErrors, stampLogEntry, famfsGenLogEntryCrc, FamfsLogEntry.image]
  simp [famfsValidateLogEntry, h0]

theorem logCall_cases {call : LogCall} {rc : ℤ}
    (h : logCall crc32 logp call = .ok (rc, logp')) :
    (famfsLogFull logp = true ∧ rc = -ENOMEM ∧ logp' = logp) ∨
      (famfsLogFull logp = false ∧ rc = 0 ∧
        ∃ body, logp' = famfsAppendLog crc32 logp (newLogEntry body)) := by
  cases call with
  | file fmap relpath mode uid gid size =>
    simp only [logCall, famfsLogFileCreation] at h
    split_ifs at h with h1 h2 h3
    · cases h; exact Or.inl ⟨h3, rfl, rfl⟩
    · cases h; exact Or.inr ⟨by simpa using h3, rfl, _, rfl⟩
  | dir relpath mode uid gid =>
    simp only [logCall, famfsLogDirCreation] at h
    split_ifs at h with h1 h2
    · cases h; exact Or.inl ⟨h2, rfl, rfl⟩
    · cases h; exact Or.inr ⟨by simpa using h2, rfl, _, rfl⟩
  | daxdev ddSize ddUuid ddIndex =>
    simp only [logCall, famfsAddDaxdev] at h
    split_ifs at h with h1
    · cases h; exact Or.inl ⟨h1, rfl, rfl⟩
    · cases h; exact Or.inr ⟨by simpa using h1, rfl, _, rfl⟩

theorem logOk_append {logp : FamfsLog} (hok : LogOk crc32 logp) (hroom : famfsLogFull logp = false)
    (e : FamfsLogEntry) : LogOk crc32 (famfsAppendLog crc32 logp e) where
  seqnum := by simp [hok.seqnum]
  index := by
    have : logp.famfsLogNextIndex ≤ logp.famfsLogLastIndex := by simpa [famfsLogFull] using hroom
    simpa using this
  header := hok.header
  entry := by
    intro i hi
    rcases Nat.lt_succ_iff_lt_or_eq.mp hi with hlt | rfl
    · rw [append_entries_old crc32 logp e hlt]
      exact hok.entry i hlt
    · rw [append_entries_new, ← hok.seqnum]
      exact stampLogEntry_valid crc32 logp e
  room := hok.room

theorem logOk_step (hok : LogOk crc32 logp) (h : LogStep crc32 logp logp') :
    LogOk crc32 logp' := by
  obtain ⟨call, rc, h⟩ := h
  rcases logCall_cases crc32 h with ⟨-, -, rfl⟩ | ⟨hroom, -, body, rfl⟩
  · exact hok
  · exact logOk_append crc32 hok hroom _

theorem logOk_mkfs {logLen : ℕ} (hlen : FAMFS_LOG_LEN ≤ logLen) (h64 : logLen < 2 ^ 64) :
    LogOk crc32 (mkfsLog crc32 logLen) where
  seqnum := rfl
  index := Nat.zero_le _
  header := by simp [famfsValidateLogHeader, mkfsLog, famfsGenLogHeaderCrc]
  entry := by intro i hi; exact absurd hi (Nat.not_lt_zero i)
  room := by
    change LOG_ENTRIES_OFFSET +
      (sub64 (sub64 logLen LOG_ENTRIES_OFFSET / LOG_ENTRY_SIZE) 1 + 1) * LOG_ENTRY_SIZE ≤ logLen
    simp only [FAMFS_LOG_LEN, LOG_ENTRIES_OFFSET, LOG_ENTRY_SIZE] at *
    rw [sub64_of_le h64 (by omega), sub64_of_le (by omega) (by omega)]
    omega

structure LogGrows (logp logp' : FamfsLog) : Prop where
  index : logp.famfsLogNextIndex ≤ logp'.famfsLogNextIndex
  entries : ∀ i < logp.famfsLogNextIndex, logp'.entries i = logp.entries i
  lastIndex : logp'.famfsLogLastIndex = logp.famfsLogLastIndex
  len : logp'.famfsLogLen = logp.famfsLogLen

theorem LogGrows.refl (logp : FamfsLog) : LogGrows logp logp := ⟨le_rfl, fun _ _ => rfl, rfl, rfl⟩

theorem LogGrows.trans {a b c : FamfsLog} (h1 : LogGrows a b) (h2 : LogGrows b c) : LogGrows a c :=
  ⟨h1.index.trans h2.index,
    fun i hi => (h2.entries i (lt_of_lt_of_le hi h1.index)).trans (h1.entries i hi),
    h2.lastIndex.trans h1.lastIndex, h2.len.trans h1.len⟩

theorem logGrows_append (logp : FamfsLog) (e : FamfsLogEntry) :
    LogGrows logp (famfsAppendLog crc32 logp e) :=
  ⟨Nat.le_succ _, fun _ hi => append_entries_old crc32 logp e hi, rfl, rfl⟩

theorem logGrows_step (h : LogStep crc32 logp logp') : LogGrows logp logp' := by
  obtain ⟨call, rc, h⟩ := h
  rcases logCall_cases crc32 h with ⟨-, -, rfl⟩ | ⟨-, -, body, rfl⟩
  · exact LogGrows.refl _
  · exact logGrows_append crc32 logp _

theorem logGrows_run (h : ReflTransGen (LogStep crc32) logp logp') :
    LogGrows logp logp' :=
  Runs.monotone (P := fun _ => True) LogGrows.refl LogGrows.trans
    (fun _ _ _ hs => ⟨trivial, logGrows_step crc32 hs⟩) h trivial

theorem append_stores_inside {logp : FamfsLog} (hok : LogOk crc32 logp)
    (hroom : famfsLogFull logp = false) (e : FamfsLogEntry) :
    ∀ st ∈ famfsAppendLogStores crc32 logp e, st.bytes.1 + st.bytes.2 ≤ logp.famfsLogLen := by
  have hi : logp.famfsLogNextIndex ≤ logp.famfsLogLastIndex := by simpa [famfsLogFull] using hroom
  have hlen := hok.room
  intro st hst
  simp only [famfsAppendLogStores, List.mem_cons, List.not_mem_nil, or_false] at hst
  rcases hst with rfl | rfl | rfl <;> simp only [LogStore.bytes, LOG_ENTRIES_OFFSET, LOG_ENTRY_SIZE] at * <;> omega

theorem logCall_refused_iff (hok : LogOk crc32 logp) {call : LogCall} {rc : ℤ}
    (h : logCall crc32 logp call = .ok (rc, logp')) :
    (rc ≠ 0 ↔ logp.famfsLogNextIndex = logp.famfsLogLastIndex + 1) ∧ (rc ≠ 0 → logp' = logp) := by
  have hle := hok.index
  rcases logCall_cases crc32 h with ⟨hfull, rfl, rfl⟩ | ⟨hroom, rfl, -⟩
  · have : logp'.famfsLogLastIndex < logp'.famfsLogNextIndex := by simpa [famfsLogFull] using hfull
    refine ⟨⟨fun _ => by omega, fun _ => by decide⟩, fun _ => rfl⟩
  · have : logp.famfsLogNextIndex ≤ logp.famfsLogLastIndex := by simpa [famfsLogFull] using hroom
    refine ⟨⟨fun h0 => absurd rfl h0, fun h0 => by omega⟩, fun h0 => absurd rfl h0⟩

/-- Every log that calls can produce from a fresh one is well formed, is written
only inside its first `log_len` bytes, keeps its entries for good and refuses a
call exactly when it is full. -/
theorem log_wellformed {logLen : ℕ} (hlen : mkfsLogLenValid logLen) (h64 : logLen < 2 ^ 64)
    {logp : FamfsLog} (hrun : ReflTransGen (LogStep crc32) (mkfsLog crc32 logLen) logp) :
    logp.famfsLogNextSeqnum = logp.famfsLogNextIndex ∧
    logp.famfsLogNextIndex ≤ logp.famfsLogLastIndex + 1 ∧
    famfsValidateLogHeader crc32 logp = 0 ∧
    (∀ i < logp.famfsLogNextIndex,
      famfsValidateLogEntry crc32 (fun _ => logp.entries i) i = 0) ∧
    (famfsLogFull logp = false → ∀ e, ∀ st ∈ famfsAppendLogStores crc32 logp e,
      st.bytes.1 + st.bytes.2 ≤ logLen) ∧
    (∀ logp', ReflTransGen (LogStep crc32) logp logp' →
      ∀ i < logp.famfsLogNextIndex, logp'.entries i = logp.entries i) ∧
    (∀ call rc logp', logCall crc32 logp call = .ok (rc, logp') →
      (rc ≠ 0 ↔ logp.famfsLogNextIndex = logp.famfsLogLastIndex + 1) ∧ (rc ≠ 0 → logp' = logp)) := by
  have hok : LogOk crc32 logp :=
    Runs.invariant (P := LogOk crc32) (fun _ _ hok hs => logOk_step crc32 hok hs) hrun
      (logOk_mkfs crc32 hlen.2 h64)
  have hlog : logp.famfsLogLen = logLen := (logGrows_run crc32 hrun).len
  refine ⟨hok.seqnum, hok.index, hok.header, hok.entry, ?_, ?_, ?_⟩
  · intro hroom e st hst
    rw [← hlog]
    exact append_stores_inside crc32 hok hroom e st hst
  · intro logp' hrun'
    exact (logGrows_run crc32 hrun').entries
  · intro call rc logp' h
    exact logCall_refused_iff crc32 hok h

end

/-- The shortest admitted log after one directory: two counters at one. -/
theorem log_wellformed_one_dir :
    ∃ logp, ReflTransGen (LogStep Crc32.update) (mkfsLog Crc32.update 0x800000) logp ∧
      logp.famfsLogNextIndex = 1 ∧ logp.famfsLogNextSeqnum = logp.famfsLogNextIndex := by
  have hstep : LogStep Crc32.update (mkfsLog Crc32.update 0x800000)
      (famfsAppendLog Crc32.update (mkfsLog Crc32.update 0x800000)
        (newLogEntry (.md ⟨0, 0, 0o755, [97]⟩))) :=
    ⟨.dir [97] 0o755 0 0, 0, rfl⟩
  have hrun := ReflTransGen.single hstep
  exact ⟨_, hrun, rfl, (log_wellformed Crc32.update (by decide) (by norm_num) hrun).1⟩

end Famfs
