import Famfs.Spec.LogReader

/-! The bytes of an entry give the entry back. -/

namespace Famfs

open Records

theorem leNat_u64 {n : ℕ} (h : n < 2 ^ 64) : leNat (leBytes 8 n) = n := by
  rw [leBytes, leNat_digits]
  exact Nat.mod_eq_of_lt h

theorem leNat_u32 {n : ℕ} (h : n < 2 ^ 32) : leNat (leBytes 4 n) = n := by
  rw [leBytes, leNat_digits]
  exact Nat.mod_eq_of_lt h

theorem pad_of_le {k : ℕ} {s : List UInt8} (h : s.length ≤ k) : pad k s = s ++ List.replicate (k - s.length) 0 := by
  rw [pad, List.take_of_length_le h]

theorem trim_pad {k : ℕ} {s : List UInt8} (h : s.length ≤ k) (hs : (0 : UInt8) ∉ s) : trim (pad k s) = s := by
  rw [pad_of_le h, trim_append_zeroes hs]

theorem slot_eq (e : FamfsLogEntry) :
    e.slot = leBytes 8 e.famfsLogEntrySeqnum ++ (leBytes 4 e.body.entryType ++
      (leBytes 4 0 ++ (e.body.image ++ leBytes 8 e.famfsLogEntryCrc))) := by
  simp only [FamfsLogEntry.slot, FamfsLogEntry.image, List.append_assoc]

theorem slotType_slot {e : FamfsLogEntry} (h : e.body.entryType < 2 ^ 32) :
    leNat (cut e.slot 8 4) = e.body.entryType := by
  rw [slot_eq, cut_skip (by simp), leBytes_length, cut_here (by simp), leNat_u32 h]

section

variable {e : FamfsLogEntry}

theorem slot_file {m : FamfsLogFileMeta} (hb : e.body = .fm m) :
    e.slot = (leBytes 8 e.famfsLogEntrySeqnum ++ (leBytes 4 FAMFS_LOG_FILE ++ (leBytes 4 0 ++ (leBytes 8 m.fmSize ++
      (leBytes 4 m.fmFlags ++ (leBytes 4 m.fmUid ++ (leBytes 4 m.fmGid ++ (leBytes 4 m.fmMode ++
      (pad 80 m.fmRelpath ++ (leBytes 4 m.fmFmap.fmapExtType ++ (leBytes 4 0 ++ (leBytes 4 m.fmFmap.fmapNextents ++
      leBytes 4 0)))))))))))) ++ ((List.ofFn m.fmFmap.words).flatMap (leBytes 8) ++ leBytes 8 e.famfsLogEntryCrc) := by
  rw [slot_eq, hb]
  simp only [FamfsLogEntryBody.image, FamfsLogEntryBody.entryType, FamfsLogFmap.image, List.append_assoc]

theorem slot_mkdir {m : FamfsLogMkdir} (hb : e.body = .md m) :
    ∃ r, e.slot = leBytes 8 e.famfsLogEntrySeqnum ++ (leBytes 4 FAMFS_LOG_MKDIR ++ (leBytes 4 0 ++ (leBytes 4 m.mdUid ++
      (leBytes 4 m.mdGid ++ (leBytes 4 m.mdMode ++ (pad 80 m.mdRelpath ++ r)))))) := by
  refine ⟨List.replicate 428 0 ++ leBytes 8 e.famfsLogEntryCrc, ?_⟩
  rw [slot_eq, hb, FamfsLogEntryBody.image, pad_of_le (by simp)]
  simp only [FamfsLogEntryBody.entryType, List.length_append, leBytes_length, pad_length, Nat.reduceAdd, Nat.reduceSub,
    List.append_assoc]

theorem slot_addDaxdev {m : FamfsLogAddDaxdev} (hb : e.body = .dd m) :
    ∃ r, e.slot = leBytes 8 e.famfsLogEntrySeqnum ++ (leBytes 4 FAMFS_LOG_ADD_DAXDEV ++ (leBytes 4 0 ++
      (leBytes 8 m.ddSize ++ (pad 16 m.ddUuid ++ (leBytes 4 m.ddIndex ++ r))))) := by
  refine ⟨List.replicate 492 0 ++ leBytes 8 e.famfsLogEntryCrc, ?_⟩
  rw [slot_eq, hb, FamfsLogEntryBody.image, pad_of_le (by simp)]
  simp only [FamfsLogEntryBody.entryType, List.length_append, leBytes_length, pad_length, Nat.reduceAdd, Nat.reduceSub,
    List.append_assoc]

theorem slotFmap_slot {m : FamfsLogFileMeta} (hb : e.body = .fm m) (hfits : m.fmFmap.Fits) :
    slotFmap e.slot = m.fmFmap := by
  have hext : cut e.slot 120 4 = leBytes 4 m.fmFmap.fmapExtType := by
    rw [slot_file hb]
    simp (disch := simp) only [List.append_assoc, cut_skip, cut_here, leBytes_length, pad_length, Nat.reduceSub]
  have hnext : cut e.slot 128 4 = leBytes 4 m.fmFmap.fmapNextents := by
    rw [slot_file hb]
    simp (disch := simp) only [List.append_assoc, cut_skip, cut_here, leBytes_length, pad_length, Nat.reduceSub]
  have hword : ∀ k : Fin 50, cut e.slot (136 + 8 * k) 8 = leBytes 8 (m.fmFmap.words k) := by
    intro k
    rw [slot_file hb, cut_skip (by simp)]
    simp only [List.length_append, leBytes_length, pad_length, Nat.reduceAdd, Nat.add_sub_cancel_left]
    rw [cut_flatMap (fun x => leBytes_length 8 x) _ (by simp), List.getElem_ofFn]
  simp only [slotFmap, hext, hnext, hword, leNat_u32 hfits.extType, leNat_u32 hfits.nextents,
    leNat_u64 (hfits.words _)]

theorem slotFile_slot {m : FamfsLogFileMeta} (hb : e.body = .fm m) (hfits : e.body.Fits) :
    slotFile e.slot = m := by
  rw [hb] at hfits
  cases hfits with
  | fm hsize hflags huid hgid hmode hpath hnul hfmap =>
    simp only [slotFile, slotFmap_slot hb hfmap]
    rw [slot_file hb]
    simp (disch := simp) only [List.append_assoc, cut_skip, cut_here, leBytes_length, Nat.reduceSub,
      leNat_u64 hsize, leNat_u32 hflags, leNat_u32 huid, leNat_u32 hgid, leNat_u32 hmode,
      trim_pad hpath hnul]

theorem slotMkdir_slot {m : FamfsLogMkdir} (hb : e.body = .md m) (hfits : e.body.Fits) :
    slotMkdir e.slot = m := by
  rw [hb] at hfits
  cases hfits with
  | md huid hgid hmode hpath hnul =>
    obtain ⟨r, hr⟩ := slot_mkdir hb
    rw [slotMkdir, hr]
    simp (disch := simp) only [cut_skip, cut_here, leBytes_length, Nat.reduceSub, leNat_u32 huid, leNat_u32 hgid,
      leNat_u32 hmode, trim_pad hpath hnul]

theorem slotAddDaxdev_slot {m : FamfsLogAddDaxdev} (hb : e.body = .dd m) (hfits : e.body.Fits) :
    slotAddDaxdev e.slot = m := by
  rw [hb] at hfits
  cases hfits with
  | dd hsize huuid hindex =>
    obtain ⟨r, hr⟩ := slot_addDaxdev hb
    have hpad : pad 16 m.ddUuid = m.ddUuid := by rw [pad_of_le huuid.le, huuid, Nat.sub_self]; simp
    rw [slotAddDaxdev, hr]
    rw [hpad]
    simp (disch := simp [huuid]) only [cut_skip, cut_here, leBytes_length, huuid, Nat.reduceSub, leNat_u64 hsize,
      leNat_u32 hindex]

theorem slotBody_slot (hfits : e.body.Fits) : slotBody e.slot = e.body := by
  have htype : e.body.entryType < 2 ^ 32 := by
    cases hb : e.body with
    | fm m => exact (by decide : FAMFS_LOG_FILE < 2 ^ 32)
    | md m => exact (by decide : FAMFS_LOG_MKDIR < 2 ^ 32)
    | dd m => exact (by decide : FAMFS_LOG_ADD_DAXDEV < 2 ^ 32)
    | other t raw =>
      rw [hb] at hfits
      cases hfits with
      | other ht hfm hmd hdd hraw => exact ht
  rw [slotBody, slotType_slot htype]
  cases hb : e.body with
  | fm m =>
    rw [FamfsLogEntryBody.entryType, if_pos rfl, slotFile_slot hb hfits]
  | md m =>
    rw [FamfsLogEntryBody.entryType, if_neg (by decide), if_pos rfl, slotMkdir_slot hb hfits]
  | dd m =>
    rw [FamfsLogEntryBody.entryType, if_neg (by decide), if_neg (by decide), if_pos rfl, slotAddDaxdev_slot hb hfits]
  | other t raw =>
    rw [hb] at hfits
    cases hfits with
    | other ht hfm hmd hdd hraw =>
      have hcut : cut e.slot 16 520 = raw := by
        rw [slot_eq, hb]
        simp (disch := simp) only [cut_skip, cut_here, leBytes_length, Nat.reduceSub, FamfsLogEntryBody.image]
        rw [pad_of_le hraw.le, hraw, Nat.sub_self]
        simp
      rw [FamfsLogEntryBody.entryType, if_neg hfm, if_neg hmd, if_neg hdd, hcut]

theorem slotErrors_slot (crc32 : Crc32) (hseq : e.famfsLogEntrySeqnum < 2 ^ 64) (hcrc : e.famfsLogEntryCrc < 2 ^ 64)
    (index : ℕ) : slotErrors crc32 e.slot index = logEntryErrors crc32 e index := by
  have himage : e.image.length = 536 := by
    have := image_length e
    rw [LOG_ENTRY_SIZE] at this
    omega
  have h1 : slotSeqnum e.slot = e.famfsLogEntrySeqnum := by
    rw [slotSeqnum, slot_eq, cut_here (by simp), leNat_u64 hseq]
  have h2 : cut e.slot 0 536 = e.image := by rw [FamfsLogEntry.slot, cut_here himage]
  have h3 : slotCrc e.slot = e.famfsLogEntryCrc := by
    rw [slotCrc, FamfsLogEntry.slot, cut_skip himage.le, himage, Nat.sub_self, cut_all (by simp), leNat_u64 hcrc]
  rw [slotErrors, logEntryErrors, h1, h2, h3, famfsGenLogEntryCrc]

theorem validateSlot_slot {crc32 : Crc32} (hseq : e.famfsLogEntrySeqnum < 2 ^ 64)
    (hcrc : e.famfsLogEntryCrc < 2 ^ 64) (index : ℕ) :
    validateSlot crc32 e.slot index = famfsValidateLogEntry crc32 (fun _ => e) index := by
  rw [validateSlot, famfsValidateLogEntry, slotErrors_slot crc32 hseq hcrc]

end

end Famfs
