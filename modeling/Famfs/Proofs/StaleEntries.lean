import Famfs.Proofs.LogBounds
import Famfs.Proofs.ReplayStatus
import Famfs.Spec.CachedLog

/-! Slots of the log that a node has in its cache from before they were written. The validation
drops what it was given and looks again. In the allocator's scan that is the slot, so the scan is
the one of the log in memory, whatever was stale. In a replay it is the copy, so a stale slot ends
the replay. -/

namespace Famfs

open Cache Machine

inductive LogScanner where
  | buildBitmap
  | logplay
deriving DecidableEq

/-- The entry in slot `i` that the function acts on, if it accepts one. -/
def LogScanner.takes (crc32 : Crc32) : LogScanner → ℕ → LogMemory → Option FamfsLogEntry
  | .buildBitmap, i, m => (scanSlot crc32 i m).1
  | .logplay, i, m => (replaySlot crc32 i m).1

/-- A slot that the node has as it is, or in a state that does not pass. -/
structure SlotBacked (crc32 : Crc32) (logp : FamfsLog) (m : LogMemory) (i : ℕ) : Prop where
  mem : m.mem (.slot i) = logp.entries i
  seen : m.seen (.slot i) = logp.entries i ∨ logEntryErrors crc32 (m.seen (.slot i)) i ≠ 0

section

variable {crc32 : Crc32} {m : LogMemory} {i : ℕ}

theorem validateEntryAt_pass {a : EntryAddr} (h : logEntryErrors crc32 (m.seen a) i = 0) :
    validateEntryAt crc32 a i m = (0, (m.load a).2) := if_neg (not_not.2 h)

theorem validateEntryAt_retry {a : EntryAddr} (h : logEntryErrors crc32 (m.seen a) i ≠ 0) :
    validateEntryAt crc32 a i m = (logEntryErrors crc32 (m.mem a) i, (((m.load a).2.invalidate a).load a).2) := by
  have hsecond : (((m.load a).2.invalidate a).load a).1 = m.mem a := by simp
  rw [← hsecond]
  exact if_pos h

theorem validateEntryAt_mem (a : EntryAddr) (m : LogMemory) : (validateEntryAt crc32 a i m).2.mem = m.mem := by
  by_cases h : logEntryErrors crc32 (m.seen a) i = 0
  · rw [validateEntryAt_pass h, Memory.load_mem]
  · rw [validateEntryAt_retry h]
    rfl

theorem validateEntryAt_seen_of_ne {a b : EntryAddr} (hne : b ≠ a) (m : LogMemory) :
    (validateEntryAt crc32 a i m).2.seen b = m.seen b := by
  by_cases h : logEntryErrors crc32 (m.seen a) i = 0
  · rw [validateEntryAt_pass h, Memory.load_seen]
  · rw [validateEntryAt_retry h, Memory.load_seen, Memory.invalidate_seen_of_ne _ hne, Memory.load_seen]

theorem scanSlot_takes (i : ℕ) (m : LogMemory) :
    (scanSlot crc32 i m).1 =
      if logEntryErrors crc32 (m.seen (.slot i)) i = 0 then some (m.seen (.slot i))
      else if logEntryErrors crc32 (m.mem (.slot i)) i = 0 then some (m.mem (.slot i)) else none := by
  unfold scanSlot
  by_cases h0 : logEntryErrors crc32 (m.seen (.slot i)) i = 0
  · rw [validateEntryAt_pass h0]
    simp [h0]
  · rw [validateEntryAt_retry h0]
    by_cases h1 : logEntryErrors crc32 (m.mem (.slot i)) i = 0
    · simp [h0, h1]
    · simp [h0, h1]

theorem replaySlot_copy (i : ℕ) (m : LogMemory) :
    replaySlot crc32 i m =
      match validateEntryAt crc32 .le i ((m.load (.slot i)).2.store .le (m.seen (.slot i))) with
      | (errors, m) => if errors ≠ 0 then (none, m) else (some (m.load .le).1, (m.load .le).2) := rfl

theorem replaySlot_takes (i : ℕ) (m : LogMemory) :
    (replaySlot crc32 i m).1 =
      if logEntryErrors crc32 (m.seen (.slot i)) i = 0 then some (m.seen (.slot i)) else none := by
  have hcopy : ((m.load (.slot i)).2.store .le (m.seen (.slot i))).seen .le = m.seen (.slot i) := Memory.store_seen _ _ _
  have hmem : ((m.load (.slot i)).2.store .le (m.seen (.slot i))).mem .le = m.seen (.slot i) := Memory.store_mem _ _ _
  rw [replaySlot_copy]
  by_cases h0 : logEntryErrors crc32 (m.seen (.slot i)) i = 0
  · rw [validateEntryAt_pass (by rwa [hcopy])]
    simp [h0]
  · rw [validateEntryAt_retry (by rwa [hcopy]), hmem]
    simp [h0]

theorem scanSlot_mem (i : ℕ) (m : LogMemory) : (scanSlot crc32 i m).2.mem = m.mem := by
  unfold scanSlot
  simp only
  split_ifs
  · exact validateEntryAt_mem _ _
  · exact validateEntryAt_mem _ _

theorem scanSlot_seen {i j : ℕ} (h : j ≠ i) (m : LogMemory) : (scanSlot crc32 i m).2.seen (.slot j) = m.seen (.slot j) := by
  have hne : EntryAddr.slot j ≠ .slot i := fun heq => h (EntryAddr.slot.inj heq)
  unfold scanSlot
  simp only
  split_ifs
  · exact validateEntryAt_seen_of_ne hne m
  · rw [Memory.load_seen]
    exact validateEntryAt_seen_of_ne hne m

end

section

variable {crc32 : Crc32} {logp : FamfsLog} {m : LogMemory} {i : ℕ}

theorem buildEntry_body (au : ℕ) (past : ℕ → ℕ) (b : BuiltBitmap)
    (hmap : ∀ fm, (logp.entries i).body = .fm fm → fm.fmFmap.Bounded) :
    buildEntry crc32 au logp b i =
      if logEntryErrors crc32 (logp.entries i) i = 0 then
        buildBody au past { b with stats := { b.stats with nEntries := b.stats.nEntries + 1 } } (logp.entries i).body
      else .ok { b with stats := { b.stats with nEntries := b.stats.nEntries + 1, badEntries := b.stats.badEntries + 1 } } := by
  unfold buildEntry famfsValidateLogEntry
  by_cases h : logEntryErrors crc32 (logp.entries i) i = 0
  · rw [if_pos h, if_neg (not_not.2 h), if_neg (not_not.2 rfl)]
    cases hb : (logp.entries i).body with
    | fm fm => simp only [buildBody, (hmap fm hb).scannedExtents]
    | md m => rfl
    | dd m => rfl
    | other t raw => rfl
  · rw [if_neg h, if_pos h, if_pos h]

theorem cachedBuildEntry_eq (au : ℕ) (b : BuiltBitmap) (hs : SlotBacked crc32 logp m i)
    (hmap : ∀ fm, (logp.entries i).body = .fm fm → fm.fmFmap.Bounded) :
    ∃ m', cachedBuildEntry crc32 au (b, m) i = (do let b ← buildEntry crc32 au logp b i; return (b, m')) ∧
      ∀ j ≠ i, SlotBacked crc32 logp m j → SlotBacked crc32 logp m' j := by
  refine ⟨(scanSlot crc32 i m).2, ?_, fun j hj h => ⟨?_, ?_⟩⟩
  · have htakes : (scanSlot crc32 i m).1 =
        if logEntryErrors crc32 (logp.entries i) i = 0 then some (logp.entries i) else none := by
      rw [scanSlot_takes, hs.mem]
      rcases hs.seen with heq | hstale
      · rw [heq]
        split_ifs <;> rfl
      · rw [if_neg hstale]
    rw [cachedBuildEntry, buildEntry_body au (pastSlot (scanSlot crc32 i m).2 i) b hmap]
    rcases hscan : scanSlot crc32 i m with ⟨r, m'⟩
    rw [hscan] at htakes
    subst htakes
    split_ifs with h
    · rfl
    · rfl
  · rw [scanSlot_mem, h.mem]
  · rw [scanSlot_seen hj]
    exact h.seen

/-- On a log whose maps fit their arrays the scan is that of the log in memory. -/
theorem cachedBuildBitmap_eq (au devSize : ℕ) (hs : ∀ i < logp.famfsLogNextIndex, SlotBacked crc32 logp m i)
    (hmaps : ∀ i < logp.famfsLogNextIndex, ∀ fm, (logp.entries i).body = .fm fm → fm.fmFmap.Bounded) :
    ∃ m', cachedBuildBitmap crc32 logp m au devSize =
      (do let b ← famfsBuildBitmap crc32 logp au devSize; return (b, m')) := by
  have hfold : ∀ (l : List ℕ) (b : BuiltBitmap) (m : LogMemory), l.Nodup → (∀ i ∈ l, SlotBacked crc32 logp m i) →
      (∀ i ∈ l, i < logp.famfsLogNextIndex) → ∃ m', l.foldlM (cachedBuildEntry crc32 au) (b, m) =
        (do let b ← l.foldlM (buildEntry crc32 au logp) b; return (b, m')) := by
    intro l
    induction l with
    | nil => exact fun b m _ _ _ => ⟨m, rfl⟩
    | cons i l ih =>
      intro b m hnd hl hin
      obtain ⟨hi, hnd⟩ := List.nodup_cons.1 hnd
      obtain ⟨m1, hstep, hkeep⟩ := cachedBuildEntry_eq au b (hl i List.mem_cons_self)
        (hmaps i (hin i List.mem_cons_self))
      have hl' : ∀ j ∈ l, SlotBacked crc32 logp m1 j := fun j hj =>
        hkeep j (fun h => hi (h ▸ hj)) (hl j (List.mem_cons_of_mem i hj))
      rw [List.foldlM_cons, List.foldlM_cons, hstep]
      cases buildEntry crc32 au logp b i with
      | error t => exact ⟨m, rfl⟩
      | ok b1 => exact ih b1 m1 hnd hl' fun j hj => hin j (List.mem_cons_of_mem i hj)
  unfold cachedBuildBitmap famfsBuildBitmap
  split_ifs
  · exact ⟨m, rfl⟩
  · exact ⟨m, rfl⟩
  · rcases setExtentInBitmap (emptyBitmap (bitmapNbits devSize au)) au 0 (u64 (FAMFS_SUPERBLOCK_SIZE + logp.famfsLogLen)) 0
      with t | marks
    · exact ⟨m, rfl⟩
    · exact hfold _ _ m List.nodup_range (fun i hi => hs i (List.mem_range.1 hi)) fun i hi => List.mem_range.1 hi

theorem cachedPlayLoop_stale (cfg : PlayConfig) (sys : ℕ → Sys) (n : ℕ) (st : PlayState)
    (h : logEntryErrors crc32 (m.seen (.slot i)) i ≠ 0) : cachedPlayLoop crc32 cfg sys (n + 1) i st m = .ok (-1, st) := by
  have htakes := @replaySlot_takes crc32 i m
  rw [if_neg h] at htakes
  rw [cachedPlayLoop]
  rcases hslot : replaySlot crc32 i m with ⟨r, m'⟩
  rw [hslot] at htakes
  subst htakes
  rfl

end

/-- Suppose a slot holds a valid entry and is loaded as it is or as something that does not pass.
Then a function acts on the valid entry exactly when it is the scan of the allocator or nothing is
stale. -/
theorem stale_entry_recovered_iff {crc32 : Crc32} {m : LogMemory} {i : ℕ} {e : FamfsLogEntry} (s : LogScanner)
    (hmem : m.mem (.slot i) = e) (hvalid : logEntryErrors crc32 e i = 0)
    (hseen : m.seen (.slot i) = e ∨ logEntryErrors crc32 (m.seen (.slot i)) i ≠ 0) :
    s.takes crc32 i m = some e ↔ s = .buildBitmap ∨ m.seen (.slot i) = e := by
  cases s with
  | buildBitmap =>
    refine iff_of_true ?_ (Or.inl rfl)
    rw [LogScanner.takes, scanSlot_takes, hmem, if_pos hvalid]
    rcases hseen with heq | hstale
    · rw [heq, ite_self]
    · rw [if_neg hstale]
  | logplay =>
    rw [LogScanner.takes, replaySlot_takes]
    rcases hseen with heq | hstale
    · rw [heq, if_pos hvalid]
      exact iff_of_true rfl (Or.inr rfl)
    · rw [if_neg hstale]
      refine iff_of_false (by simp) ?_
      rintro (h | h)
      · cases h
      · exact hstale (h ▸ hvalid)

/-! A node read the second slot of a log ahead, and then the master wrote it. -/

def twoFileLog : FamfsLog :=
  famfsAppendLog Crc32.update (oneFileLog 1)
    (newLogEntry (.fm (logFileMeta (contiguousFmap (6 * FAMFS_ALLOC_UNIT) 1) [103] 0o644 0 0 1)))

def readAhead : LogMemory where
  mem
    | .slot i => twoFileLog.entries i
    | .le => newLogEntry (.other 0 [])
  cache a := if a = .slot 1 then some (newLogEntry (.other 0 [])) else none

theorem twoFileLog_errors : logEntryErrors Crc32.update (twoFileLog.entries 1) 1 = 0 := by
  have hlog : LogOk Crc32.update twoFileLog :=
    logOk_append _ (logOk_append _ (logOk_mkfs _ le_rfl (by decide)) rfl _) rfl _
  have hvalid := hlog.entry 1 Nat.one_lt_two
  unfold famfsValidateLogEntry at hvalid
  split_ifs at hvalid with h
  · exact hvalid
  · exact not_not.1 h

theorem readAhead_mem : readAhead.mem (.slot 1) = twoFileLog.entries 1 := rfl

theorem readAhead_stale : logEntryErrors Crc32.update (readAhead.seen (.slot 1)) 1 ≠ 0 := by
  have hnum : (readAhead.seen (.slot 1)).famfsLogEntrySeqnum ≠ 1 := by decide
  rw [logEntryErrors, if_pos hnum]
  omega

theorem stale_entry_recovered_iff_read_ahead :
    logEntryErrors Crc32.update (readAhead.seen (.slot 1)) 1 ≠ 0 ∧
      LogScanner.buildBitmap.takes Crc32.update 1 readAhead = some (twoFileLog.entries 1) :=
  ⟨readAhead_stale, (stale_entry_recovered_iff .buildBitmap readAhead_mem twoFileLog_errors (Or.inr readAhead_stale)).2 (Or.inl rfl)⟩

/-- Once the slot is invalidated the entry is there, but the replay takes none and returns -1. -/
theorem stale_entry_not_replayed :
    readAhead.mem (.slot 1) = twoFileLog.entries 1 ∧ logEntryErrors Crc32.update (twoFileLog.entries 1) 1 = 0 ∧
    logEntryErrors Crc32.update (readAhead.seen (.slot 1)) 1 ≠ 0 ∧
    (readAhead.invalidate (.slot 1)).seen (.slot 1) = twoFileLog.entries 1 ∧
    LogScanner.logplay.takes Crc32.update 1 readAhead = none ∧
    ∀ cfg sys st, cachedPlayLoop Crc32.update cfg sys 1 1 st readAhead = .ok (-1, st) := by
  refine ⟨readAhead_mem, twoFileLog_errors, readAhead_stale, Memory.invalidate_seen _ _, ?_, fun cfg sys st => ?_⟩
  · rw [LogScanner.takes, replaySlot_takes, if_neg readAhead_stale]
  · exact cachedPlayLoop_stale cfg sys 0 st readAhead_stale

end Famfs
