import Famfs.Proofs.AllocRuns
import Famfs.Proofs.SingleWriter

/-! What a torn counter costs. Once a process has ended between the two stores that count an entry, the
numbers of all later entries are ahead of their indices. The scan that builds a bitmap passes over them,
so every new session starts from the space as it was at the tear and gives it out again. A replay stops at
the first of them. -/

namespace Famfs

open Machine Relation

/-- What the scan adds for an entry that does not validate. -/
def BuiltBitmap.passed (b : BuiltBitmap) (k : ℕ) : BuiltBitmap :=
  { b with stats := { b.stats with nEntries := b.stats.nEntries + k, badEntries := b.stats.badEntries + k } }

theorem buildEntry_invalid {crc32 : Crc32} {au : ℕ} {logp : FamfsLog} {i : ℕ} (h : ¬ entryValid crc32 logp i)
    (b : BuiltBitmap) : buildEntry crc32 au logp b i = .ok (b.passed 1) := by
  rw [buildEntry, if_pos (entry_rejected h)]
  rfl

theorem buildEntries_invalid {crc32 : Crc32} {au : ℕ} {logp : FamfsLog} (is : List ℕ)
    (h : ∀ i ∈ is, ¬ entryValid crc32 logp i) (b : BuiltBitmap) :
    is.foldlM (buildEntry crc32 au logp) b = .ok (b.passed is.length) := by
  induction is generalizing b with
  | nil => rfl
  | cons i is ih =>
    rw [List.forall_mem_cons] at h
    rw [List.foldlM_cons, buildEntry_invalid h.1, Runs.ok_bind, ih h.2, List.length_cons]
    simp only [BuiltBitmap.passed, Nat.add_assoc, Nat.add_comm 1]

theorem buildEntry_congr {crc32 : Crc32} {au : ℕ} {logp logp' : FamfsLog} {i : ℕ} (h : logp'.entries i = logp.entries i)
    (hmap : entryValid crc32 logp i → ∀ m, (logp.entries i).body = .fm m → m.fmFmap.Bounded) (b : BuiltBitmap) :
    buildEntry crc32 au logp' b i = buildEntry crc32 au logp b i := by
  simp only [buildEntry, h]
  by_cases hv : entryValid crc32 logp i
  · rw [if_neg hv.accepted, if_neg hv.accepted]
    cases hb : (logp.entries i).body with
    | fm m =>
      have hm := hmap hv m hb
      simp only [hm.scannedExtents]
    | md m => rfl
    | dd m => rfl
    | other t raw => rfl
  · rw [if_pos (entry_rejected hv), if_pos (entry_rejected hv)]

theorem famfsBuildBitmap_passed {crc32 : Crc32} (au devSize : ℕ) {logp logp' : FamfsLog}
    (hlen : logp'.famfsLogLen = logp.famfsLogLen) (hindex : logp.famfsLogNextIndex ≤ logp'.famfsLogNextIndex)
    (hold : ∀ i < logp.famfsLogNextIndex, logp'.entries i = logp.entries i)
    (hmaps : ∀ i < logp.famfsLogNextIndex, entryValid crc32 logp i → ∀ m, (logp.entries i).body = .fm m → m.fmFmap.Bounded)
    (hnew : ∀ i, logp.famfsLogNextIndex ≤ i → i < logp'.famfsLogNextIndex → ¬ entryValid crc32 logp' i) :
    famfsBuildBitmap crc32 logp' au devSize = (famfsBuildBitmap crc32 logp au devSize).map
      fun b => b.passed (logp'.famfsLogNextIndex - logp.famfsLogNextIndex) := by
  have hscan : ∀ b, (List.range logp'.famfsLogNextIndex).foldlM (buildEntry crc32 au logp') b =
      ((List.range logp.famfsLogNextIndex).foldlM (buildEntry crc32 au logp) b).map
        fun b => b.passed (logp'.famfsLogNextIndex - logp.famfsLogNextIndex) := by
    intro b
    obtain ⟨k, hk⟩ : ∃ k, logp'.famfsLogNextIndex = logp.famfsLogNextIndex + k := Nat.exists_eq_add_of_le hindex
    have hfirst : ∀ i ∈ List.range logp.famfsLogNextIndex, ∀ b, buildEntry crc32 au logp' b i = buildEntry crc32 au logp b i :=
      fun i hi b => buildEntry_congr (hold i (List.mem_range.1 hi)) (hmaps i (List.mem_range.1 hi)) b
    have hrest : ∀ i ∈ (List.range k).map (logp.famfsLogNextIndex + ·), ¬ entryValid crc32 logp' i := by
      intro i hi
      obtain ⟨j, hj, rfl⟩ := List.mem_map.1 hi
      have := List.mem_range.1 hj
      exact hnew _ (Nat.le_add_right ..) (by omega)
    rw [hk, List.range_add, List.foldlM_append, Runs.foldlM_congr hfirst, Nat.add_sub_cancel_left]
    cases (List.range logp.famfsLogNextIndex).foldlM (buildEntry crc32 au logp) b with
    | error t => rfl
    | ok b' =>
      rw [Runs.ok_bind, buildEntries_invalid _ hrest, List.length_map, List.length_range]
      rfl
  simp only [famfsBuildBitmap, hlen, hscan]
  split_ifs
  · rfl
  · rfl
  · cases setExtentInBitmap (emptyBitmap (bitmapNbits devSize au)) au 0 (u64 (FAMFS_SUPERBLOCK_SIZE + logp.famfsLogLen)) 0 with
    | error t => rfl
    | ok m => rfl

def FamfsLockedLog.over (lp : FamfsLockedLog) (logp : FamfsLog) : FamfsLockedLog := { lp with logp := logp }

/-- The result of an allocation in a session over another log. -/
def resultOver (logp : FamfsLog) (r : ℤ × Option FamfsLogFmap × FamfsLockedLog) : ℤ × Option FamfsLogFmap × FamfsLockedLog :=
  (r.1, r.2.1, r.2.2.over logp)

section

variable (host : AllocHost) (lp : FamfsLockedLog) (size : ℕ) (logp : FamfsLog)

theorem famfsFileAllocContiguous_over :
    famfsFileAllocContiguous host (lp.over logp) size = (famfsFileAllocContiguous host lp size).map (resultOver logp) := by
  have hcall : bitmapAllocContiguous (lp.over logp).bits (lp.over logp).nbits (lp.over logp).allocUnit size (lp.over logp).curPos 0 =
      bitmapAllocContiguous lp.bits lp.nbits lp.allocUnit size lp.curPos 0 := rfl
  simp only [famfsFileAllocContiguous, hcall]
  split_ifs <;> rfl

theorem finishStrips_over (g : StripeGeometry) (st : StripState) :
    finishStrips (lp.over logp) g st = (finishStrips lp g st).map (resultOver logp) := by
  simp only [finishStrips]
  split_ifs
  · cases freeStrips g st.bitmap st.fmap st.i with
    | error t => rfl
    | ok bitmap => rfl
  · rfl

theorem famfsFileStridedAlloc_over :
    famfsFileStridedAlloc host (lp.over logp) size = (famfsFileStridedAlloc host lp size).map (resultOver logp) := by
  have hsmall : famfsFileAllocContiguous host { lp.over logp with curPos := 0 } size =
      (famfsFileAllocContiguous host { lp with curPos := 0 } size).map (resultOver logp) :=
    famfsFileAllocContiguous_over host { lp with curPos := 0 } size logp
  have hgeometry : stripeGeometry (lp.over logp) size = stripeGeometry lp size := rfl
  have hbits : (lp.over logp).bits = lp.bits := rfl
  have hparam : (lp.over logp).interleaveParam = lp.interleaveParam := rfl
  have hunit : (lp.over logp).allocUnit = lp.allocUnit := rfl
  have hdev : (lp.over logp).devsize = lp.devsize := rfl
  simp only [famfsFileStridedAlloc, hgeometry, hbits, hparam, hunit, hdev, finishStrips_over]
  split_ifs
  · rfl
  · rfl
  · exact hsmall
  · rfl
  · rfl
  · rfl
  · rfl
  · cases stripLoop (stripeGeometry lp size) lp.interleaveParam.nbuckets
        ⟨bucketSeriesAlloc host.rand lp.interleaveParam.nbuckets 0, lp.bits, stripedFmap lp.interleaveParam, 0, 0⟩ with
    | error t => rfl
    | ok st => rfl

end

theorem famfsFileAlloc_passed {crc32 : Crc32} (kabi : ℕ) (host : AllocHost) {lp : FamfsLockedLog} (size : ℕ)
    {logp logp' : FamfsLog} (hnew : lp.bitmap = none) {k : ℕ}
    (hbuild : famfsBuildBitmap crc32 logp' lp.allocUnit lp.devsize =
      (famfsBuildBitmap crc32 logp lp.allocUnit lp.devsize).map fun b => b.passed k) :
    famfsFileAlloc crc32 kabi host (lp.over logp') size =
      (famfsFileAlloc crc32 kabi host (lp.over logp) size).map (resultOver logp') := by
  have hensure : ensureBitmap crc32 (lp.over logp') = (ensureBitmap crc32 (lp.over logp)).map fun lp => lp.over logp' := by
    have hnone : ∀ l, (lp.over l).bitmap = none := fun _ => hnew
    simp only [ensureBitmap, hnone]
    change (famfsBuildBitmap crc32 logp' lp.allocUnit lp.devsize >>= _) = Except.map _ (famfsBuildBitmap crc32 logp lp.allocUnit lp.devsize >>= _)
    rw [hbuild]
    cases famfsBuildBitmap crc32 logp lp.allocUnit lp.devsize with
    | error t => rfl
    | ok b => rfl
  have hnone : ∀ l, (lp.over l).bitmap = none := fun _ => hnew
  rw [famfsFileAlloc, famfsFileAlloc, hensure, hnone, hnone]
  split_ifs
  · rfl
  · cases ensureBitmap crc32 (lp.over logp) with
    | error t => rfl
    | ok lp1 =>
      have hinterleaved : allocIsInterleaved (lp1.over logp') = allocIsInterleaved lp1 := rfl
      change (if kabi ≤ 42 ∧ allocIsInterleaved (lp1.over logp') = true then _ else _) = _
      simp only [hinterleaved, famfsFileAllocContiguous_over, famfsFileStridedAlloc_over, Runs.ok_bind]
      split_ifs <;> rfl

section

variable {H P : Type} {crc32 : Crc32} {logp0 : FamfsLog} {s s' : Cluster H P}

/-- After a tear: what is counted later never validates, and what was counted stays. -/
theorem later_entries (ht : Told crc32 logp0 s) (ht' : Told crc32 logp0 s') (hl : Later s s') (htorn : 0 < s.torn) :
    s.logp.famfsLogNextIndex ≤ s'.logp.famfsLogNextIndex ∧
    (∀ i < s.logp.famfsLogNextIndex, s'.logp.entries i = s.logp.entries i) ∧
    ∀ i, s.logp.famfsLogNextIndex ≤ i → i < s'.logp.famfsLogNextIndex → ¬ entryValid crc32 s'.logp i := by
  obtain ⟨l, hlogged, hk⟩ := hl.logged
  have hindex := ht.index
  have hindex' := ht'.index
  rw [hlogged, List.length_append] at hindex'
  refine ⟨by omega, fun i hi => ?_, fun i hi hi' => ?_⟩
  · by_cases hold : i < logp0.famfsLogNextIndex
    · rw [ht.old i hold, ht'.old i hold]
    · obtain ⟨j, rfl⟩ := Nat.exists_eq_add_of_le (not_lt.1 hold)
      have hj : j < s.logged.length := by omega
      obtain ⟨⟨b, k⟩, hget⟩ : ∃ x, s.logged[j]? = some x := ⟨_, List.getElem?_eq_getElem hj⟩
      have hget' : s'.logged[j]? = some (b, k) := by rw [hlogged, List.getElem?_append_left hj, hget]
      rw [ht.new j b k hget, ht'.new j b k hget']
  · obtain ⟨j, rfl⟩ := Nat.exists_eq_add_of_le (show logp0.famfsLogNextIndex ≤ i by omega)
    obtain ⟨m, rfl⟩ := Nat.exists_eq_add_of_le (show s.logged.length ≤ j by omega)
    obtain ⟨⟨b, k⟩, hget⟩ : ∃ x, l[m]? = some x := ⟨_, List.getElem?_eq_getElem (show m < l.length by omega)⟩
    have hget' : s'.logged[s.logged.length + m]? = some (b, k) := by
      rw [hlogged, List.getElem?_append_right (Nat.le_add_right ..), Nat.add_sub_cancel_left, hget]
    have hpos : s.torn ≤ k := hk (b, k) (List.mem_of_getElem? hget)
    rw [entryValid, ht'.new _ b k hget', numberedEntry_valid]
    omega

end

/-- From the first torn counter on nothing that is appended validates, and the allocator does not see it:
whatever was logged between two states of the run, a new session in the later one gives a request the
very space that a new session in the earlier one gives it. The maps of the earlier log fit their arrays, so
that its scan does not run into the slots after them. -/
theorem torn_counter_space_reused {H P : Type} [DecidableEq H] [DecidableEq P] {crc32 : Crc32} {kabi : ℕ} {hostOf : P → H}
    {uuid : H → List UInt8} {asked : CreateCall → Prop} {s0 s s' : Cluster H P}
    (huuid : ∀ h h', pad 16 (uuid h) = pad 16 (uuid h') → h = h') (hf : Formatted crc32 s0)
    (hrun : ReflTransGen (ClusterStep crc32 kabi hostOf uuid asked) s0 s) (htorn : 0 < s.torn)
    (hmaps : ∀ i < s.logp.famfsLogNextIndex, entryValid crc32 s.logp i → ∀ m, (s.logp.entries i).body = .fm m →
      m.fmFmap.Bounded)
    (hrun' : ReflTransGen (ClusterStep crc32 kabi hostOf uuid asked) s s') :
    (∀ i, s.logp.famfsLogNextIndex ≤ i → i < s'.logp.famfsLogNextIndex → ¬ entryValid crc32 s'.logp i) ∧
    ∀ (host : AllocHost) (lp : FamfsLockedLog) (size : ℕ), lp.bitmap = none →
      ∀ rc fmap lp1, famfsFileAlloc crc32 kabi host { lp with logp := s.logp } size = .ok (rc, fmap, lp1) →
        famfsFileAlloc crc32 kabi host { lp with logp := s'.logp } size = .ok (rc, fmap, { lp1 with logp := s'.logp }) := by
  obtain ⟨-, ht⟩ := told_run huuid hf hrun
  obtain ⟨-, ht'⟩ := told_run huuid hf (hrun.trans hrun')
  obtain ⟨hindex, hold, hnew⟩ := later_entries ht ht' (later_run hrun') htorn
  refine ⟨hnew, fun host lp size hbm rc fmap lp1 halloc => ?_⟩
  have hbuild := famfsBuildBitmap_passed lp.allocUnit lp.devsize (ht'.len.trans ht.len.symm) hindex hold hmaps hnew
  have hsame := famfsFileAlloc_passed kabi host size hbm hbuild
  exact hsame.trans (congrArg (Except.map (resultOver s'.logp)) halloc)

section

variable {crc32 : Crc32} {cfg : PlayConfig} {sys : ℕ → Sys} {logp logp' : FamfsLog}

theorem playLoop_stops (k : ℕ) {n i : ℕ} (hold : ∀ j < i + n, logp'.entries j = logp.entries j)
    (hnew : 0 < k → ¬ entryValid crc32 logp' (i + n)) (st : PlayState) :
    playLoop crc32 cfg sys logp' (n + k) i st =
      (playLoop crc32 cfg sys logp n i st).map fun r => (if 0 < k then -1 else r.1, r.2) := by
  induction n generalizing i st with
  | zero =>
    cases k with
    | zero => rfl
    | succ k =>
      -- the shorter log is done here, the longer one fails on its next entry
      have hbad : famfsValidateLogEntry crc32 (fun _ => logp'.entries i) i ≠ 0 := hnew (Nat.succ_pos k)
      rw [Nat.zero_add, playLoop, playLoop, if_pos hbad]
      rfl
  | succ n ih =>
    rw [Nat.add_right_comm, playLoop, playLoop, hold i (by omega)]
    by_cases hvalid : famfsValidateLogEntry crc32 (fun _ => logp.entries i) i = 0
    · rw [if_neg (not_not.2 hvalid), if_neg (not_not.2 hvalid)]
      cases playEntry cfg (sys i) st (logp.entries i).body with
      | error t => rfl
      | ok st' =>
        rw [Runs.ok_bind, Runs.ok_bind]
        exact ih (fun j hj => hold j (by omega)) (fun hk => by rw [Nat.add_right_comm]; exact hnew hk) st'
    · rw [if_pos hvalid, if_pos hvalid]
      simp only [Except.map, ite_self]

theorem famfsLogplay_stops (hheader : famfsValidateLogHeader crc32 logp = 0) (hheader' : famfsValidateLogHeader crc32 logp' = 0)
    (hindex : logp.famfsLogNextIndex ≤ logp'.famfsLogNextIndex)
    (hold : ∀ i < logp.famfsLogNextIndex, logp'.entries i = logp.entries i)
    (hnew : ∀ i, logp.famfsLogNextIndex ≤ i → i < logp'.famfsLogNextIndex → ¬ entryValid crc32 logp' i) (h : Host) :
    famfsLogplay crc32 cfg sys h logp' = (famfsLogplay crc32 cfg sys h logp).map fun r =>
      (if logp.famfsLogNextIndex < logp'.famfsLogNextIndex then -1 else r.1, r.2) := by
  obtain ⟨k, hk⟩ := Nat.exists_eq_add_of_le hindex
  have hmore : logp.famfsLogNextIndex < logp'.famfsLogNextIndex ↔ 0 < k := by omega
  have hloop : ∀ (cfg : PlayConfig) (st : PlayState), playLoop crc32 cfg sys logp' logp'.famfsLogNextIndex 0 st =
      (playLoop crc32 cfg sys logp logp.famfsLogNextIndex 0 st).map fun r => (if 0 < k then -1 else r.1, r.2) := by
    intro cfg st
    rw [hk]
    refine playLoop_stops k (fun j hj => hold j (by omega)) (fun hpos => ?_) st
    rw [Nat.zero_add]
    exact hnew _ le_rfl (by omega)
  simp only [famfsLogplay, hmore, hheader, hheader']
  by_cases hrole : cfg.role = .nosuper
  · rw [if_pos hrole, if_pos hrole]
    simp only [Except.map, ite_self]
  · rw [if_neg hrole, if_neg hrole, if_neg (not_not.2 rfl), if_neg (not_not.2 rfl)]
    by_cases hshadow : cfg.shadow = true
    · rw [if_pos hshadow, if_pos hshadow]
      cases famfsGetShadowRoot h cfg.root with
      | none => simp only [Except.map, ite_self]
      | some root => exact hloop _ _
    · rw [if_neg hshadow, if_neg hshadow]
      exact hloop _ _

end

/-- From the first torn counter on no node gets any further: whatever was logged between two states of the
run, a replay in the later one leaves the node as a replay in the earlier one leaves it, and fails. -/
theorem torn_counter_stops_replay {H P : Type} [DecidableEq H] [DecidableEq P] {crc32 : Crc32} {kabi : ℕ} {hostOf : P → H}
    {uuid : H → List UInt8} {asked : CreateCall → Prop} {s0 s s' : Cluster H P}
    (huuid : ∀ h h', pad 16 (uuid h) = pad 16 (uuid h') → h = h') (hf : Formatted crc32 s0)
    (hrun : ReflTransGen (ClusterStep crc32 kabi hostOf uuid asked) s0 s) (htorn : 0 < s.torn)
    (hrun' : ReflTransGen (ClusterStep crc32 kabi hostOf uuid asked) s s') (cfg : PlayConfig) (sys : ℕ → Sys) (h : Host) :
    famfsLogplay crc32 cfg sys h s'.logp = (famfsLogplay crc32 cfg sys h s.logp).map fun r =>
      (if s.logp.famfsLogNextIndex < s'.logp.famfsLogNextIndex then -1 else r.1, r.2) := by
  obtain ⟨-, ht⟩ := told_run huuid hf hrun
  obtain ⟨-, ht'⟩ := told_run huuid hf (hrun.trans hrun')
  obtain ⟨hindex, hold, hnew⟩ := later_entries ht ht' (later_run hrun') htorn
  exact famfsLogplay_stops ht.header ht'.header hindex hold hnew h

/-! The first host again: one process ends between the counters, the next makes a directory. -/

def boxTorn : Cluster Bool Bool :=
  { ((boxPlaced twoBoxes).halfway Crc32.update boxEntry).goto true .idle with
    lock := fun h => if (boxPlaced twoBoxes).lock h = some true then none else (boxPlaced twoBoxes).lock h
    torn := 1 }

theorem boxTorn_run (asked : CreateCall → Prop) (hasked : asked (.dir [100] 0o755 0 0)) :
    ReflTransGen (ClusterStep Crc32.update 43 id boxUuid asked) twoBoxes boxTorn := by
  have hentry : (CreateCall.dir [100] 0o755 0 0).entry twoBoxes.logp .zero = .ok (.ok boxEntry) := rfl
  exact (boxPlaced_run (s := twoBoxes) rfl rfl rfl asked hasked).trans (tear_alone (boxPlaced_pc twoBoxes) hentry)

theorem boxLater_run (asked : CreateCall → Prop) (hasked : asked (.dir [100] 0o755 0 0)) :
    ∃ s, ReflTransGen (ClusterStep Crc32.update 43 id boxUuid asked) boxTorn s ∧
      s.logp.famfsLogNextIndex = boxTorn.logp.famfsLogNextIndex + 1 := by
  have hentry : (CreateCall.dir [100] 0o755 0 0).entry boxTorn.logp .zero = .ok (.ok boxEntry) := rfl
  exact ⟨_, (boxPlaced_run (s := boxTorn) rfl rfl rfl asked hasked).trans (append_alone (boxPlaced_pc boxTorn) hentry), rfl⟩

/-- The entry of the directory is counted and no reader accepts it, and a file gets the unit that it got
at the tear. -/
theorem torn_counter_space_reused_two_boxes :
    ∃ s s', ReflTransGen (ClusterStep Crc32.update 43 id boxUuid fun _ => True) twoBoxes s ∧ 0 < s.torn ∧
      ReflTransGen (ClusterStep Crc32.update 43 id boxUuid fun _ => True) s s' ∧
      s'.logp.famfsLogNextIndex = s.logp.famfsLogNextIndex + 1 ∧
      ¬ entryValid Crc32.update s'.logp s.logp.famfsLogNextIndex ∧
      ∃ fmap lp, fmap.extents = [unitExtent (5, 1)] ∧
        famfsFileAlloc Crc32.update 43 ⟨true, true, id⟩ { boxSession boxTorn with logp := s'.logp } 1 = .ok (0, some fmap, lp) := by
  have hrun := boxTorn_run (fun _ => True) trivial
  obtain ⟨s', hrun', hindex⟩ := boxLater_run (fun _ => True) trivial
  have hmaps : ∀ i < boxTorn.logp.famfsLogNextIndex, entryValid Crc32.update boxTorn.logp i → ∀ m,
      (boxTorn.logp.entries i).body = .fm m → m.fmFmap.Bounded := fun i hi => absurd hi (Nat.not_lt_zero i)
  obtain ⟨hnew, hspace⟩ := torn_counter_space_reused boxUuid_distinct twoBoxes_formatted hrun Nat.one_pos hmaps hrun'
  obtain ⟨fmap, lp, hok, hes⟩ := ok_of_map (f := FamfsLogFmap.extents) [unitExtent (5, 1)]
    (r := famfsFileAlloc Crc32.update 43 ⟨true, true, id⟩ (boxSession boxTorn) 1) (by decide +kernel)
  refine ⟨boxTorn, s', hrun, Nat.one_pos, hrun', hindex, hnew _ le_rfl (by rw [hindex]; exact Nat.lt_succ_self _), fmap, _, hes,
    hspace ⟨true, true, id⟩ (boxSession boxTorn) 1 rfl 0 (some fmap) lp hok⟩

/-- No node ever sees the directory. -/
theorem torn_counter_stops_replay_two_boxes :
    ∃ s s', ReflTransGen (ClusterStep Crc32.update 43 id boxUuid fun _ => True) twoBoxes s ∧ 0 < s.torn ∧
      ReflTransGen (ClusterStep Crc32.update 43 id boxUuid fun _ => True) s s' ∧
      s'.logp.famfsLogNextIndex = s.logp.famfsLogNextIndex + 1 ∧
      ∀ (cfg : PlayConfig) (sys : ℕ → Sys) (h : Host), famfsLogplay Crc32.update cfg sys h s'.logp =
        (famfsLogplay Crc32.update cfg sys h s.logp).map fun r => (-1, r.2) := by
  have hrun := boxTorn_run (fun _ => True) trivial
  obtain ⟨s', hrun', hindex⟩ := boxLater_run (fun _ => True) trivial
  refine ⟨boxTorn, s', hrun, Nat.one_pos, hrun', hindex, fun cfg sys h => ?_⟩
  have hmore : boxTorn.logp.famfsLogNextIndex < s'.logp.famfsLogNextIndex := by rw [hindex]; exact Nat.lt_succ_self _
  rw [torn_counter_stops_replay boxUuid_distinct twoBoxes_formatted hrun Nat.one_pos hrun' cfg sys h]
  simp only [if_pos hmore]

end Famfs
