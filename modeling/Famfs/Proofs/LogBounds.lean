import Famfs.Spec.LogAccess
import Famfs.Sanity.LogScan
import Famfs.Proofs.LogRuns

/-! What a scan of the log may touch. The header's checksum does not cover the number of entries,
and that of an entry says nothing of the counts in its map, so both scans follow whatever they
find. They stay inside the log, the maps and the bitmap exactly when these numbers do, up to the
entry where a scan stops. -/

namespace Famfs

open Machine Traced Paths

/-- Inside the log, the arrays of a map or the bitmap. -/
def LogAccess.InBounds (logp : FamfsLog) (nbits : ℕ) : LogAccess → Prop
  | .slot i => LOG_ENTRIES_OFFSET + (i + 1) * LOG_ENTRY_SIZE ≤ logp.famfsLogLen
  | .se j => j < FAMFS_MAX_SIMPLE_EXTENTS
  | .ie m => m < 1
  | .ieStrip k => k < FAMFS_MAX_SIMPLE_EXTENTS
  | .bit k => k < nbits

/-- Both scans stay in bounds, the replay in every mode, on every node and whatever its system
calls return. -/
def ScansInBounds (crc32 : Crc32) (au devSize : ℕ) (logp : FamfsLog) : Prop :=
  Within (LogAccess.InBounds logp (bitmapNbits devSize au)) (tracedBuildBitmap crc32 logp au devSize) ∧
    ∀ cfg sys h, Within (LogAccess.InBounds logp (bitmapNbits devSize au)) (tracedLogplay crc32 cfg sys h logp)

def SlotInside (logp : FamfsLog) (i : ℕ) : Prop := LOG_ENTRIES_OFFSET + (i + 1) * LOG_ENTRY_SIZE ≤ logp.famfsLogLen

instance (logp : FamfsLog) (i : ℕ) : Decidable (SlotInside logp i) := inferInstanceAs (Decidable (_ ≤ _))

/-- An extent that does not start at a unit stops the scan. Any other has its units in the
bitmap. -/
def ExtentInside (au nbits : ℕ) (e : FamfsSimpleExtent) : Prop :=
  e.seOffset % au = 0 →
    u64 (e.seLen + au - 1) / au = 0 ∨ e.seOffset / au + u64 (e.seLen + au - 1) / au ≤ nbits

/-- The map fits its arrays and its extents the bitmap, up to the first extent that does not start
at a unit. -/
def MapInside (au nbits : ℕ) (fmap : FamfsLogFmap) : Prop :=
  if fmap.fmapExtType = FAMFS_EXT_SIMPLE then
    ∀ j < fmap.fmapNextents, (∀ l < j, (fmap.se l).seOffset % au = 0) →
      j < FAMFS_MAX_SIMPLE_EXTENTS ∧ ExtentInside au nbits (fmap.se j)
  else if fmap.fmapExtType = FAMFS_EXT_INTERLEAVE then
    (0 < s32 fmap.fmapNextents → ∀ k < fmap.ieNstrips 0, (∀ l < k, (fmap.ieStrips 0 l).seOffset % au = 0) →
      k < FAMFS_MAX_SIMPLE_EXTENTS ∧ ExtentInside au nbits (fmap.ieStrips 0 k)) ∧
    (1 < s32 fmap.fmapNextents → ∃ k < fmap.ieNstrips 0, (fmap.ieStrips 0 k).seOffset % au ≠ 0)
  else True

theorem mapInside_simple {au nbits : ℕ} {fmap : FamfsLogFmap} (h : fmap.fmapExtType = FAMFS_EXT_SIMPLE) :
    MapInside au nbits fmap ↔ ∀ j < fmap.fmapNextents, (∀ l < j, (fmap.se l).seOffset % au = 0) →
      j < FAMFS_MAX_SIMPLE_EXTENTS ∧ ExtentInside au nbits (fmap.se j) := by
  rw [MapInside, if_pos h]

/-- The scan for the bitmap goes on after entry `k`. -/
def ScanPasses (crc32 : Crc32) (au : ℕ) (logp : FamfsLog) (k : ℕ) : Prop :=
  entryValid crc32 logp k → ∀ m, (logp.entries k).body = .fm m → ∀ e ∈ m.fmFmap.scannedExtents (logp.past k),
    e.seOffset % au = 0

def ScanInside (crc32 : Crc32) (au nbits : ℕ) (logp : FamfsLog) (i : ℕ) : Prop :=
  SlotInside logp i ∧
    (entryValid crc32 logp i → ∀ m, (logp.entries i).body = .fm m → MapInside au nbits m.fmFmap)

def PlayInside (crc32 : Crc32) (logp : FamfsLog) (i : ℕ) : Prop :=
  SlotInside logp i ∧
    (entryValid crc32 logp i → ∀ m, (logp.entries i).body = .fm m → m.fmFmap.fmapNextents ≤ FAMFS_MAX_SIMPLE_EXTENTS)

/-- What the scans follow lies inside: for the bitmap up to an extent that does not start at a
unit, and for the replay up to an entry that does not validate. -/
structure LogInside (crc32 : Crc32) (au devSize : ℕ) (logp : FamfsLog) : Prop where
  super : u64 (u64 (FAMFS_SUPERBLOCK_SIZE + logp.famfsLogLen) + au - 1) / au ≤ bitmapNbits devSize au
  scan : ∀ i < logp.famfsLogNextIndex, (∀ k < i, ScanPasses crc32 au logp k) →
    ScanInside crc32 au (bitmapNbits devSize au) logp i
  replay : ∀ i < logp.famfsLogNextIndex, (∀ k < i, entryValid crc32 logp k) → PlayInside crc32 logp i

section

variable {crc32 : Crc32} {au nbits devSize : ℕ} {logp : FamfsLog}

theorem markExtent_returns (hunit : UnitAdmitted au) (b : BuiltBitmap) (e : FamfsSimpleExtent) :
    (∃ b', markExtent au b e = .ok b') ↔ e.seOffset % au = 0 := by
  simp only [markExtent, setExtentInBitmap, hunit.mask]
  split_ifs with h
  · simp [h]
  · rw [not_not] at h
    exact iff_of_true ⟨_, rfl⟩ h

theorem extentBits_inBounds (offset len : ℕ) :
    (∀ a ∈ extentBits au offset len, LogAccess.InBounds logp nbits a) ↔
      u64 (len + au - 1) / au = 0 ∨ offset / au + u64 (len + au - 1) / au ≤ nbits := by
  simp only [extentBits, List.forall_mem_map, List.mem_range, LogAccess.InBounds]
  generalize u64 (len + au - 1) / au = np
  constructor
  · intro h
    rcases Nat.eq_zero_or_pos np with h0 | hpos
    · exact Or.inl h0
    · have := h (np - 1) (by omega)
      exact Or.inr (by omega)
  · intro h k hk
    omega

theorem tracedExtent_returns (hunit : UnitAdmitted au) (a : LogAccess) (b : BuiltBitmap) (e : FamfsSimpleExtent) :
    (tracedExtent au a b e).Returns ↔ e.seOffset % au = 0 := by
  rw [Returns, tracedExtent_result, markExtent_returns hunit]

theorem tracedExtent_within (hunit : UnitAdmitted au) (a : LogAccess) (b : BuiltBitmap) (e : FamfsSimpleExtent) :
    Within (LogAccess.InBounds logp nbits) (tracedExtent au a b e) ↔
      LogAccess.InBounds logp nbits a ∧ ExtentInside au nbits e := by
  unfold ExtentInside
  simp only [tracedExtent, within_touch_bind, within_lift_bind, within_pure, and_true, List.forall_mem_singleton,
    extentBits_inBounds, ← markExtent_returns hunit b e, forall_exists_index]

theorem tracedStrips_returns (hunit : UnitAdmitted au) (fmap : FamfsLogFmap) (past : ℕ → ℕ) (m : ℕ) (b : BuiltBitmap) :
    (tracedStrips au fmap past b m).Returns ↔
      ∀ k < fmap.wordIn past (50 * (m + m)), (fmap.extentIn past (50 * (m + m) + 2 + 3 * k)).seOffset % au = 0 := by
  have hstrips := returns_foldlM (l := List.range (fmap.wordIn past (50 * (m + m))))
    (fun k _ b => tracedExtent_returns hunit (.ieStrip k) b (fmap.extentIn past (50 * (m + m) + 2 + 3 * k))) b
  simp only [List.mem_range] at hstrips
  rw [← hstrips]
  simp only [tracedStrips, Returns, result_bind, result_touch, Runs.ok_bind]

theorem tracedStrips_within (hunit : UnitAdmitted au) (fmap : FamfsLogFmap) (past : ℕ → ℕ) (m : ℕ) (b : BuiltBitmap) :
    Within (LogAccess.InBounds logp nbits) (tracedStrips au fmap past b m) ↔
      m + m < 1 ∧ ∀ k < fmap.wordIn past (50 * (m + m)),
        (∀ l < k, (fmap.extentIn past (50 * (m + m) + 2 + 3 * l)).seOffset % au = 0) →
        k < FAMFS_MAX_SIMPLE_EXTENTS ∧ ExtentInside au nbits (fmap.extentIn past (50 * (m + m) + 2 + 3 * k)) := by
  rw [tracedStrips, within_touch_bind, List.forall_mem_singleton,
    within_foldlM (fun k _ b => tracedExtent_returns hunit (.ieStrip k) b (fmap.extentIn past (50 * (m + m) + 2 + 3 * k)))
      (fun k _ b => tracedExtent_within hunit (.ieStrip k) b (fmap.extentIn past (50 * (m + m) + 2 + 3 * k))), upTo_range]
  rfl

theorem tracedMap_returns (hunit : UnitAdmitted au) (fmap : FamfsLogFmap) (past : ℕ → ℕ) (b : BuiltBitmap) :
    (tracedMap au fmap past b).Returns ↔ ∀ e ∈ fmap.scannedExtents past, e.seOffset % au = 0 := by
  unfold tracedMap FamfsLogFmap.scannedExtents
  split_ifs with hs hi
  · rw [returns_foldlM (fun j _ b => tracedExtent_returns hunit (.se j) b (fmap.extentIn past (3 * j))), List.forall_mem_map]
  · rw [returns_foldlM fun m _ b => tracedStrips_returns hunit fmap past m b]
    simp only [List.forall_mem_flatMap, List.forall_mem_map, List.mem_range]
  · exact iff_of_true ⟨b, rfl⟩ (by simp)

theorem inside_congr {n max : ℕ} {A A' I I' : ℕ → Prop} (hA : ∀ l < max, A l ↔ A' l) (hI : ∀ j < max, I j ↔ I' j) :
    (∀ j < n, (∀ l < j, A l) → j < max ∧ I j) ↔ ∀ j < n, (∀ l < j, A' l) → j < max ∧ I' j := by
  have hdir : ∀ {A A' I I' : ℕ → Prop}, (∀ l < max, A l ↔ A' l) → (∀ j < max, I j ↔ I' j) →
      (∀ j < n, (∀ l < j, A l) → j < max ∧ I j) → ∀ j < n, (∀ l < j, A' l) → j < max ∧ I' j := by
    intro A A' I I' hA hI h j hj hall
    by_cases hle : j ≤ max
    · obtain ⟨hlt, hin⟩ := h j hj fun l hl => (hA l (by omega)).2 (hall l hl)
      exact ⟨hlt, (hI j hlt).1 hin⟩
    · have hmax := h max (by omega) fun l hl => (hA l hl).2 (hall l (by omega))
      exact absurd hmax.1 (lt_irrefl _)
  exact ⟨hdir hA hI, hdir (fun l hl => (hA l hl).symm) fun j hj => (hI j hj).symm⟩

theorem few_of_inside {n max : ℕ} {A I : ℕ → Prop} (h : ∀ j < n, (∀ l < j, A l) → j < max ∧ I j)
    (hall : ∀ l < max, l < n → A l) : n ≤ max := by
  by_contra hmore
  exact absurd (h max (not_le.1 hmore) fun l hl => hall l hl (by omega)).1 (lt_irrefl _)

theorem tracedMap_within (hunit : UnitAdmitted au) (fmap : FamfsLogFmap) (past : ℕ → ℕ) (b : BuiltBitmap) :
    Within (LogAccess.InBounds logp nbits) (tracedMap au fmap past b) ↔ MapInside au nbits fmap := by
  unfold tracedMap MapInside
  split_ifs with hs hi
  · rw [within_foldlM (fun j _ b => tracedExtent_returns hunit (.se j) b (fmap.extentIn past (3 * j)))
      (fun j _ b => tracedExtent_within hunit (.se j) b (fmap.extentIn past (3 * j))), upTo_range]
    have hse : ∀ j < FAMFS_MAX_SIMPLE_EXTENTS, fmap.extentIn past (3 * j) = fmap.se j := fun j hj =>
      fmap.extentIn_eq past (by simp only [FAMFS_MAX_SIMPLE_EXTENTS] at hj; omega)
    exact inside_congr (fun l hl => by rw [hse l hl]) fun j hj => by rw [hse j hj]
  · rw [within_foldlM (fun m _ b => tracedStrips_returns hunit fmap past m b)
      (fun m _ b => tracedStrips_within hunit fmap past m b), upTo_range]
    have hstrip : ∀ k < FAMFS_MAX_SIMPLE_EXTENTS, fmap.extentIn past (50 * (0 + 0) + 2 + 3 * k) = fmap.ieStrips 0 k :=
      fun k hk => fmap.extentIn_eq past (by simp only [FAMFS_MAX_SIMPLE_EXTENTS] at hk; omega)
    have hcount : fmap.wordIn past (50 * (0 + 0)) = fmap.ieNstrips 0 := fmap.wordIn_eq past (by norm_num)
    have hfirst : (∀ k < fmap.wordIn past (50 * (0 + 0)),
        (∀ l < k, (fmap.extentIn past (50 * (0 + 0) + 2 + 3 * l)).seOffset % au = 0) →
        k < FAMFS_MAX_SIMPLE_EXTENTS ∧ ExtentInside au nbits (fmap.extentIn past (50 * (0 + 0) + 2 + 3 * k))) ↔
        ∀ k < fmap.ieNstrips 0, (∀ l < k, (fmap.ieStrips 0 l).seOffset % au = 0) →
          k < FAMFS_MAX_SIMPLE_EXTENTS ∧ ExtentInside au nbits (fmap.ieStrips 0 k) := by
      rw [hcount]
      exact inside_congr (fun l hl => by rw [hstrip l hl]) fun k hk => by rw [hstrip k hk]
    -- the second pass is out of bounds, so the first one has to stop
    constructor
    · intro h
      have hone : 0 < s32 fmap.fmapNextents → _ := fun hpos =>
        hfirst.1 (h 0 (by omega) fun l hl => absurd hl (Nat.not_lt_zero l)).2
      refine ⟨hone, fun hmore => ?_⟩
      by_contra hnone
      push Not at hnone
      have hfew := few_of_inside (hone (by omega)) fun l _ hl => hnone l hl
      have htwo := (h 1 (by omega) fun l hl => by
        obtain rfl := Nat.lt_one_iff.1 hl
        intro k hk
        rw [hcount] at hk
        rw [hstrip k (hk.trans_le hfew)]
        exact hnone k hk).1
      omega
    · rintro ⟨hone, hstop⟩ m hm hall
      rcases Nat.eq_zero_or_pos m with rfl | hpos
      · exact ⟨Nat.zero_lt_one, hfirst.2 (hone (by omega))⟩
      · obtain ⟨k, hk, hne⟩ := hstop (by omega)
        have hzero := hall 0 hpos
        rw [hcount] at hzero
        have hfew := few_of_inside (hone (by omega)) fun l hl hlt => by
          rw [← hstrip l hl]
          exact hzero l hlt
        refine absurd (hzero k hk) ?_
        rwa [hstrip k (hk.trans_le hfew)]
  · exact iff_of_true (within_pure b) trivial

theorem tracedEntry_returns (hunit : UnitAdmitted au) (b : BuiltBitmap) (i : ℕ) :
    (tracedEntry crc32 au logp b i).Returns ↔ ScanPasses crc32 au logp i := by
  unfold ScanPasses
  simp only [tracedEntry, Returns, result_bind, result_touch, Runs.ok_bind]
  by_cases hv : entryValid crc32 logp i
  · rw [if_neg hv.accepted]
    cases hb : (logp.entries i).body with
    | fm m => simpa [hv, Returns] using tracedMap_returns hunit m.fmFmap (logp.past i) _
    | md m => simp
    | dd m => simp
    | other t raw => simp
  · rw [if_pos (entry_rejected hv)]
    exact iff_of_true ⟨_, rfl⟩ fun h => absurd h hv

theorem tracedEntry_within (hunit : UnitAdmitted au) (b : BuiltBitmap) (i : ℕ) :
    Within (LogAccess.InBounds logp nbits) (tracedEntry crc32 au logp b i) ↔ ScanInside crc32 au nbits logp i := by
  simp only [tracedEntry, within_touch_bind, List.forall_mem_singleton]
  refine and_congr Iff.rfl ?_
  by_cases hv : entryValid crc32 logp i
  · rw [if_neg hv.accepted]
    cases hb : (logp.entries i).body with
    | fm m => simpa [hv] using tracedMap_within hunit m.fmFmap (logp.past i) _
    | md m => simp
    | dd m => simp
    | other t raw => simp
  · rw [if_pos (entry_rejected hv)]
    exact iff_of_true (within_pure _) fun h => absurd h hv

theorem tracedBuildBitmap_within (hunit : UnitAdmitted au) :
    Within (LogAccess.InBounds logp (bitmapNbits devSize au)) (tracedBuildBitmap crc32 logp au devSize) ↔
      u64 (u64 (FAMFS_SUPERBLOCK_SIZE + logp.famfsLogLen) + au - 1) / au ≤ bitmapNbits devSize au ∧
      ∀ i < logp.famfsLogNextIndex, (∀ k < i, ScanPasses crc32 au logp k) →
        ScanInside crc32 au (bitmapNbits devSize au) logp i := by
  have hau := hunit.bounds.1
  have hstart : ∀ len, setExtentInBitmap (emptyBitmap (bitmapNbits devSize au)) au 0 len 0 = .ok _ := fun len => by
    rw [setExtentInBitmap, if_neg (by simp)]
  rw [tracedBuildBitmap, if_neg hau.ne', if_neg (hunit.not_misaligned (Nat.mod_self au)), hstart]
  simp only [within_lift_bind, Except.ok.injEq, forall_eq', within_touch_bind, extentBits_inBounds, Nat.zero_div]
  refine and_congr (by omega) ?_
  rw [within_foldlM (fun i _ b => tracedEntry_returns hunit b i) (fun i _ b => tracedEntry_within hunit b i), upTo_range]

end

section

variable {crc32 : Crc32} {nbits : ℕ} {logp : FamfsLog}

theorem playReads_inBounds (body : FamfsLogEntryBody) :
    (∀ a ∈ playReads body, LogAccess.InBounds logp nbits a) ↔
      ∀ m, body = .fm m → m.fmFmap.fmapNextents ≤ FAMFS_MAX_SIMPLE_EXTENTS := by
  cases body with
  | fm m =>
    simp only [playReads, List.forall_mem_map, List.mem_range, LogAccess.InBounds, FamfsLogEntryBody.fm.injEq, forall_eq']
    constructor
    · intro h
      by_contra hlt
      exact lt_irrefl _ (h _ (not_le.1 hlt))
    · intro h j hj
      omega
  | md m => simp [playReads]
  | dd m => simp [playReads]
  | other t raw => simp [playReads]

theorem tracedPlayLoop_within (cfg : PlayConfig) (sys : ℕ → Sys) {n i : ℕ} (st : PlayState)
    (h : ∀ k, i ≤ k → k < i + n → (∀ l, i ≤ l → l < k → entryValid crc32 logp l) → PlayInside crc32 logp k) :
    Within (LogAccess.InBounds logp nbits) (tracedPlayLoop crc32 cfg sys logp n i st) := by
  induction n generalizing i st with
  | zero => exact within_pure _
  | succ n ih =>
    have hi := h i le_rfl (by omega) fun l hl hlt => absurd hl (not_le.2 hlt)
    rw [tracedPlayLoop, within_touch_bind, List.forall_mem_singleton]
    refine ⟨hi.1, ?_⟩
    by_cases hv : entryValid crc32 logp i
    · rw [if_neg hv.accepted, within_touch_bind, within_lift_bind]
      refine ⟨(playReads_inBounds _).2 (hi.2 hv), fun st' _ => ih st' fun k hk hlt hall => h k (by omega) (by omega) ?_⟩
      intro l hl hlk
      rcases Nat.eq_or_lt_of_le hl with rfl | hl
      · exact hv
      · exact hall l hl hlk
    · rw [if_pos (entry_rejected hv)]
      exact within_pure _

/-- A dry run on a node where every path is a directory. -/
def dryConfig : PlayConfig := ⟨43, ⟨0, 0, 0⟩, .client, false, true, [47]⟩

def dirHost : Host := ⟨fun _ => some (.dir ⟨0, 0, 0⟩), [], .v1 []⟩

theorem dirHost_walk (p : Path) (cs : List Name) : ∃ q, walk Node.isDir dirHost.look p cs = .found q := by
  induction cs generalizing p with
  | nil => exact ⟨p, rfl⟩
  | cons c cs ih =>
    unfold walk
    split_ifs with h1 h2 h3 h4
    · exact ih p
    · exact ih _
    · exact ih _
    · exact absurd rfl h4
    · exact absurd rfl h1

theorem dirHost_realpath (root s : CStr) : ∃ rpath, (dirHost.realpath (pathIn root s)).2 = some rpath := by
  obtain ⟨q, hq⟩ : ∃ q, dirHost.resolve (pathIn root s) = .found q := by
    rw [Host.resolve, if_neg (by simp [pathIn])]
    exact dirHost_walk _ _
  exact ⟨render q, by rw [Host.realpath, hq]⟩

section

variable {cfg : PlayConfig} (hdry : cfg.dryRun = true) (sys : Sys) {st : PlayState} (hst : st.host = dirHost)

include hdry hst

theorem dry_file (m : FamfsLogFileMeta) :
    ∃ st', playFile cfg sys st m = .ok st' ∧ st'.host = dirHost ∧
      st'.ls.fErrs = st.ls.fErrs + ((if pathIsRelative (cstr m.fmRelpath) then 0 else 1) + zeroOffsets sys.past m.fmFmap) := by
  obtain ⟨rpath, hreal⟩ := dirHost_realpath cfg.root (cstr m.fmRelpath)
  simp only [playFile, hst, hreal]
  generalize (if pathIsRelative (cstr m.fmRelpath) then 0 else 1) + zeroOffsets sys.past m.fmFmap = errs
  by_cases herrs : errs ≠ 0
  · rw [if_pos herrs]
    exact ⟨_, rfl, rfl, rfl⟩
  · rw [if_neg herrs]
    by_cases hshadow : cfg.shadow = true
    · rw [if_pos hshadow, playShadow, hdry]
      exact ⟨_, rfl, rfl, rfl⟩
    · rw [if_neg hshadow, if_pos hdry]
      exact ⟨_, rfl, rfl, rfl⟩

theorem dry_entry (body : FamfsLogEntryBody) :
    ∃ st', playEntry cfg sys st body = .ok st' ∧ st'.host = dirHost := by
  cases body with
  | fm m =>
    obtain ⟨st', hok, hst', -⟩ := dry_file hdry sys
      (show ({ st with ls := { st.ls with nEntries := st.ls.nEntries + 1 } } : PlayState).host = dirHost from hst) m
    exact ⟨st', hok, hst'⟩
  | md m =>
    simp only [playEntry, playDir]
    by_cases hrel : pathIsRelative (cstr m.mdRelpath) = false
    · rw [if_pos hrel]
      exact ⟨_, rfl, hst⟩
    · rw [if_neg hrel, if_pos hdry]
      exact ⟨_, rfl, hst⟩
  | dd m => exact ⟨_, rfl, hst⟩
  | other t raw => exact ⟨_, rfl, hst⟩

end

theorem dry_inside (sys : ℕ → Sys) {n i : ℕ} {st : PlayState} (hst : st.host = dirHost)
    (hw : Within (LogAccess.InBounds logp nbits) (tracedPlayLoop crc32 dryConfig sys logp n i st)) :
    ∀ k, i ≤ k → k < i + n → (∀ l, i ≤ l → l < k → entryValid crc32 logp l) → PlayInside crc32 logp k := by
  induction n generalizing i st with
  | zero =>
    intro k hk hlt
    omega
  | succ n ih =>
    rw [tracedPlayLoop, within_touch_bind, List.forall_mem_singleton] at hw
    intro k hk hlt hall
    by_cases hv : entryValid crc32 logp i
    · rw [if_neg hv.accepted, within_touch_bind, within_lift_bind, playReads_inBounds] at hw
      obtain ⟨hslot, hfit, hrest⟩ := hw
      rcases Nat.eq_or_lt_of_le hk with rfl | hk
      · exact ⟨hslot, fun _ => hfit⟩
      · obtain ⟨st', hplay, hst'⟩ := dry_entry (show dryConfig.dryRun = true from rfl) (sys i) hst _
        exact ih hst' (hrest st' hplay) k hk (by omega) fun l hl => hall l (by omega)
    · rcases Nat.eq_or_lt_of_le hk with rfl | hk
      · exact ⟨hw.1, fun h => absurd h hv⟩
      · exact absurd (hall i le_rfl hk) hv

end

/-- On a log whose header is accepted the scans stay in bounds exactly when what they follow lies
inside. -/
theorem scans_in_bounds_iff {crc32 : Crc32} {au devSize : ℕ} {logp : FamfsLog} (hunit : UnitAdmitted au)
    (hheader : famfsValidateLogHeader crc32 logp = 0) :
    ScansInBounds crc32 au devSize logp ↔ LogInside crc32 au devSize logp := by
  unfold ScansInBounds
  rw [tracedBuildBitmap_within hunit]
  constructor
  · rintro ⟨⟨hsuper, hscan⟩, hplay⟩
    refine ⟨hsuper, hscan, fun i hi hall => ?_⟩
    have hdry := hplay dryConfig (fun _ => Sys.healthy) dirHost
    rw [tracedLogplay, if_neg (by decide), if_neg (not_not.2 hheader), if_neg (by decide)] at hdry
    exact dry_inside _ rfl hdry i (Nat.zero_le i) (by omega) fun l _ hl => hall l hl
  · rintro ⟨hsuper, hscan, hreplay⟩
    refine ⟨⟨hsuper, hscan⟩, fun cfg sys h => ?_⟩
    have hloop : ∀ cfg, Within (LogAccess.InBounds logp (bitmapNbits devSize au))
        (tracedPlayLoop crc32 cfg sys logp logp.famfsLogNextIndex 0 ⟨h, .zero⟩) := fun cfg =>
      tracedPlayLoop_within cfg sys _ fun k _ hk hall => hreplay k (by omega) fun l hl => hall l (Nat.zero_le l) hl
    simp only [tracedLogplay]
    split_ifs
    · exact within_pure _
    · exact within_pure _
    · cases famfsGetShadowRoot h cfg.root with
      | none => exact within_pure _
      | some root => exact hloop _
    · exact hloop cfg

/-- A fresh log with one file, of `n` extents of which the first has a unit. -/
def oneFileLog (n : ℕ) : FamfsLog :=
  famfsAppendLog Crc32.update (mkfsLog Crc32.update FAMFS_LOG_LEN)
    (newLogEntry (.fm (logFileMeta { contiguousFmap (5 * FAMFS_ALLOC_UNIT) 1 with fmapNextents := n } [102] 0o644 0 0 1)))

theorem oneFileLog_valid (n : ℕ) : entryValid Crc32.update (oneFileLog n) 0 := stampLogEntry_valid _ _ _

theorem oneFileLog_header (n : ℕ) : famfsValidateLogHeader Crc32.update (oneFileLog n) = 0 := by
  change famfsValidateLogHeader Crc32.update (mkfsLog Crc32.update FAMFS_LOG_LEN) = 0
  decide +kernel

theorem scans_in_bounds_iff_one_file :
    famfsValidateLogHeader Crc32.update (oneFileLog 1) = 0 ∧ entryValid Crc32.update (oneFileLog 1) 0 ∧
      ScansInBounds Crc32.update FAMFS_ALLOC_UNIT (2 ^ 32) (oneFileLog 1) := by
  refine ⟨oneFileLog_header 1, oneFileLog_valid 1, (scans_in_bounds_iff (Or.inr rfl) (oneFileLog_header 1)).mpr ?_⟩
  refine ⟨by decide, fun i hi _ => ?_, fun i hi _ => ?_⟩
  · obtain rfl : i = 0 := Nat.lt_one_iff.1 hi
    refine ⟨by decide, fun _ m hm => ?_⟩
    cases hm
    refine (mapInside_simple rfl).2 fun j hj _ => ?_
    obtain rfl : j = 0 := Nat.lt_one_iff.1 hj
    exact ⟨by decide, fun _ => Or.inr (by decide)⟩
  · obtain rfl : i = 0 := Nat.lt_one_iff.1 hi
    refine ⟨by decide, fun _ m hm => ?_⟩
    cases hm
    decide

/-- With one entry more than there are slots the scan reads past the log. A map that claims 17
extents is read past its array by both scans. -/
theorem scans_out_of_bounds :
    (famfsValidateLogHeader Crc32.update { mkfsLog Crc32.update FAMFS_LOG_LEN with famfsLogNextIndex := 15421 } = 0 ∧
      ¬ Within (LogAccess.InBounds { mkfsLog Crc32.update FAMFS_LOG_LEN with famfsLogNextIndex := 15421 }
        (bitmapNbits (2 ^ 32) FAMFS_ALLOC_UNIT)) (tracedBuildBitmap Crc32.update
          { mkfsLog Crc32.update FAMFS_LOG_LEN with famfsLogNextIndex := 15421 } FAMFS_ALLOC_UNIT (2 ^ 32))) ∧
    famfsValidateLogHeader Crc32.update (oneFileLog 17) = 0 ∧ entryValid Crc32.update (oneFileLog 17) 0 ∧
      ¬ Within (LogAccess.InBounds (oneFileLog 17) (bitmapNbits (2 ^ 32) FAMFS_ALLOC_UNIT))
        (tracedBuildBitmap Crc32.update (oneFileLog 17) FAMFS_ALLOC_UNIT (2 ^ 32)) ∧
      ¬ Within (LogAccess.InBounds (oneFileLog 17) (bitmapNbits (2 ^ 32) FAMFS_ALLOC_UNIT))
        (tracedLogplay Crc32.update dryConfig (fun _ => Sys.healthy) dirHost (oneFileLog 17)) := by
  refine ⟨⟨by decide +kernel, fun hw => ?_⟩, oneFileLog_header 17, oneFileLog_valid 17, fun hw => ?_, fun hw => ?_⟩
  · have hlast := ((tracedBuildBitmap_within (Or.inr rfl)).1 hw).2 15420 (by decide) fun k _ _ m hm => by
      cases hm
      exact fun e he => absurd he List.not_mem_nil
    exact absurd hlast.1 (by decide)
  · have hfirst := ((tracedBuildBitmap_within (Or.inr rfl)).1 hw).2 0 (Nat.zero_lt_one) fun k hk => absurd hk (Nat.not_lt_zero k)
    have hmap := hfirst.2 (oneFileLog_valid 17) _ rfl
    exact absurd ((mapInside_simple rfl).1 hmap 16 (by decide) (by decide)).1 (by decide)
  · rw [tracedLogplay, if_neg (by decide), if_neg (not_not.2 (oneFileLog_header 17)), if_neg (by decide)] at hw
    have hfirst := dry_inside (fun _ => Sys.healthy) rfl hw 0 le_rfl (by decide) fun l _ hl => absurd hl (Nat.not_lt_zero l)
    exact absurd (hfirst.2 (oneFileLog_valid 17) _ rfl) (by decide)

end Famfs
