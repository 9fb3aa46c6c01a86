import Famfs.Proofs.LogRuns
import Famfs.Sanity.AllocStrips

/-! The allocator over whole histories: sessions one after another on one device,
each with its own bitmap, and a log that outlives them. A session refines a layout
of disjoint segments, and every call refines the placing of segments in it. -/

namespace Famfs

open Machine Intervals Relation

variable {size : ℕ} {fmap : Option FamfsLogFmap}

/-- One call of `famfs_file_alloc` and the logging of its result. The stripe
parameters are those in force for the call. -/
structure AllocCall where
  host : AllocHost
  size : ℕ
  param : FamfsInterleaveParam
  relpath : CStr
  mode : ℕ
  uid : ℕ
  gid : ℕ

/-- From one byte to the whole device, contiguous or with one to sixteen strips. -/
def AllocCall.Admitted (c : AllocCall) (devsize : ℕ) : Prop :=
  1 ≤ c.size ∧ c.size ≤ devsize ∧
    (c.param = ⟨0, 0, 0⟩ ∨ 1 ≤ c.param.nstrips ∧ c.param.nstrips ≤ 16)

/-- Steps of the master. A call that traps ends the process before it reaches the
log, so what follows it is a new session over the log as it was. -/
inductive AllocStep (crc32 : Crc32) (kabi : ℕ) (sb : FamfsSuperblock) :
    FamfsLockedLog → FamfsLockedLog → Prop
  | session (lp : FamfsLockedLog) (cfg : Option FamfsInterleaveParam) :
      AllocStep crc32 kabi sb lp
        (famfsInitLockedLog kabi sb lp.logp lp.famfsType lp.mpt lp.shadowRoot cfg)
  | logged {lp lp1 : FamfsLockedLog} {c : AllocCall} {fmap : FamfsLogFmap} {logp : FamfsLog}
      (hc : c.Admitted lp.devsize)
      (halloc : famfsFileAlloc crc32 kabi c.host { lp with interleaveParam := c.param } c.size =
        .ok (0, some fmap, lp1))
      (hlog : famfsLogFileCreation crc32 lp1.logp fmap c.relpath c.mode c.uid c.gid c.size =
        .ok (0, logp)) :
      AllocStep crc32 kabi sb lp { lp1 with logp := logp }
  | failed {lp lp1 : FamfsLockedLog} {c : AllocCall} {rc : ℤ} {fmap : Option FamfsLogFmap}
      (hc : c.Admitted lp.devsize) (hrc : rc ≠ 0)
      (halloc : famfsFileAlloc crc32 kabi c.host { lp with interleaveParam := c.param } c.size =
        .ok (rc, fmap, lp1)) :
      AllocStep crc32 kabi sb lp lp1

/-- What one allocation does to a layout: nothing, or a file map whose extents are
the segments placed. -/
inductive AllocOutcome {N : ℕ} (L : Layout N) (bitmap : Bitmap) : ℤ → Option FamfsLogFmap → Prop
  | failed {rc : ℤ} (hrc : rc ≠ 0) (hs : Shows L bitmap) : AllocOutcome L bitmap rc none
  | placed {fmap : FamfsLogFmap} {cs : List Seg} {L' : Layout N} (hL : L'.segs = L.segs ++ cs)
      (hs : Shows L' bitmap) (hmap : fmap.Bounded)
      (hext : fmap.extents = cs.map unitExtent) (hsize : ∀ c ∈ cs, 0 < c.2 ∧ c.2 < 2 ^ 32) :
      AllocOutcome L bitmap 0 (some fmap)

section

variable {N : ℕ} {L : Layout N}

theorem allocBits_size (h1 : 1 ≤ size) (h2 : size < 2 ^ 63) :
    0 < allocBits FAMFS_ALLOC_UNIT size ∧ allocBits FAMFS_ALLOC_UNIT size ≤ size / FAMFS_ALLOC_UNIT + 1 ∧
      roundSizeToAllocUnit size = allocBits FAMFS_ALLOC_UNIT size * FAMFS_ALLOC_UNIT := by
  simp only [roundSizeToAllocUnit, allocBits, FAMFS_ALLOC_UNIT]
  rw [u64_of_lt (n := size + 2097152 - 1) (by omega), u64_of_lt (by omega)]
  omega

/-- Sessions of a device of at most `2 ^ 30` units whose bitmap, once there is one, shows `L`. -/
structure Placing (lp : FamfsLockedLog) (L : Layout N) : Prop where
  unit : lp.allocUnit = FAMFS_ALLOC_UNIT
  dev : lp.devsize < 2 ^ 51
  nbits : bitmapNbits lp.devsize FAMFS_ALLOC_UNIT = N
  first : Covers L.segs 0
  bitmap : ∀ bm, lp.bitmap = some bm → lp.nbits = N ∧ Shows L bm

/-- Sessions of a device of at most `2 ^ 30` units over a log. -/
structure Refines (crc32 : Crc32) (sb : FamfsSuperblock) (lp : FamfsLockedLog) (L : Layout N) : Prop where
  super : sb.tsAllocUnit = FAMFS_ALLOC_UNIT ∧ sb.tsDaxdevSize = lp.devsize
  unit : lp.allocUnit = FAMFS_ALLOC_UNIT
  dev : lp.devsize < 2 ^ 51
  nbits : bitmapNbits lp.devsize FAMFS_ALLOC_UNIT = N
  mapped : Mapped crc32 lp.logp
  log : LogOk crc32 lp.logp
  segs : L.segs = logSegs lp.logp
  bitmap : ∀ bm, lp.bitmap = some bm → lp.nbits = N ∧ Shows L bm

variable {crc32 : Crc32} {sb : FamfsSuperblock} {lp lp' : FamfsLockedLog}

theorem Refines.same (h : Refines crc32 sb lp L) (hdev : lp'.devsize = lp.devsize)
    (hunit : lp'.allocUnit = lp.allocUnit) (hlog : lp'.logp = lp.logp)
    (hbm : ∀ bm, lp'.bitmap = some bm → lp'.nbits = N ∧ Shows L bm) : Refines crc32 sb lp' L := by
  refine ⟨?_, ?_, ?_, ?_, ?_, ?_, ?_, hbm⟩
  all_goals simp only [hdev, hunit, hlog]
  exacts [h.super, h.unit, h.dev, h.nbits, h.mapped, h.log, h.segs]

theorem Refines.placing (h : Refines crc32 sb lp L) : Placing lp L := by
  refine ⟨h.unit, h.dev, h.nbits, ?_, h.bitmap⟩
  rw [h.segs, logSegs, covers_cons]
  exact Or.inl ⟨le_rfl, by simpa using metaUnits_pos lp.logp⟩

theorem Placing.bits_le (h : Placing lp L) : N ≤ 2 ^ 30 := by
  have h1 := h.nbits
  have h2 := h.dev
  simp only [bitmapNbits, FAMFS_ALLOC_UNIT] at h1
  rw [u64_of_lt (by omega)] at h1
  omega

theorem Refines.bits_le (h : Refines crc32 sb lp L) : N ≤ 2 ^ 30 := h.placing.bits_le

theorem ensureBitmap_placing (h : Placing lp L)
    (hbuild : lp.bitmap = none → Mapped crc32 lp.logp ∧ ∀ x, Covers (logSegs lp.logp) x ↔ Covers L.segs x) :
    ∃ bm pos, ensureBitmap crc32 lp = .ok { lp with bitmap := some bm, nbits := N, curPos := pos } ∧ Shows L bm := by
  cases hb : lp.bitmap with
  | some bm =>
    obtain ⟨hnb, hs⟩ := h.bitmap bm hb
    have hsame : lp = { lp with bitmap := some bm, nbits := N, curPos := lp.curPos } := by rw [← hb, ← hnb]
    exact ⟨bm, lp.curPos, by simp only [ensureBitmap, hb]; exact congrArg _ hsame, hs⟩
  | none =>
    obtain ⟨hmapped, hcovers⟩ := hbuild hb
    have hN := h.bits_le
    rw [← h.nbits] at hN
    obtain ⟨b, hok, hbits, htest, -⟩ := famfsBuildBitmap_mapped hmapped lp.devsize hN
    rw [h.nbits] at hbits htest
    refine ⟨b.bitmap, 0, ?_, hbits, fun x hx => (htest x hx).trans (hcovers x)⟩
    simp only [ensureBitmap, hb, h.unit, hok, Runs.ok_bind, h.nbits]
    rfl

theorem famfsFileAllocContiguous_outcome (h : Placing lp L) {bm : Bitmap}
    (hbm : lp.bitmap = some bm) {host : AllocHost} (h1 : 1 ≤ size) (h2 : size ≤ lp.devsize)
    {rc : ℤ}
    (hok : famfsFileAllocContiguous host lp size = .ok (rc, fmap, lp')) :
    ∃ bm' pos, lp' = { lp with bitmap := some bm', curPos := pos } ∧ AllocOutcome L bm' rc fmap := by
  obtain ⟨hnb, hs⟩ := h.bitmap bm hbm
  have hdev := h.dev
  obtain ⟨hpos, hle, hround⟩ := allocBits_size h1 (show size < 2 ^ 63 by omega)
  have hle : allocBits FAMFS_ALLOC_UNIT size ≤ 2 ^ 30 := by
    simp only [FAMFS_ALLOC_UNIT] at hle ⊢
    omega
  have hbits : lp.bits = bm := by rw [FamfsLockedLog.bits, hbm, Option.getD_some]
  have hcall : bitmapAllocContiguous lp.bits lp.nbits lp.allocUnit size lp.curPos 0 =
      bitmapAllocContiguous bm N FAMFS_ALLOC_UNIT size lp.curPos 0 := by rw [hbits, hnb, h.unit]
  rcases bitmapAllocContiguous_shows h.bits_le hs h.first rfl hpos (by omega) lp.curPos 0 with
    heq | ⟨i, pos, bm', L', hi, heq, hL, hs'⟩
  · simp only [famfsFileAllocContiguous, hcall, heq] at hok
    split_ifs at hok with hmem hneg
    · cases hok
      exact ⟨bm, lp.curPos, rfl, .failed (by decide) hs⟩
    · exact absurd (by norm_num : (-1 : ℤ) < 0) hneg
  · simp only [famfsFileAllocContiguous, hcall, heq] at hok
    split_ifs at hok with hmem hneg hzero
    · exact absurd hneg (by omega)
    · cases hok
      refine ⟨bm', pos, rfl, .placed hL hs' (contiguousFmap_bounded _ _) ?_ ?_⟩
      · rw [contiguousFmap_extents, hround, Int.toNat_natCast]
        rfl
      · intro c hc
        rw [List.mem_singleton.mp hc]
        exact ⟨hpos, by simp only; omega⟩

theorem stripeGeometry_sane (h : Placing lp L) (hnb : lp.nbits = N)
    (hn1 : 1 ≤ lp.interleaveParam.nstrips) (hn2 : lp.interleaveParam.nstrips ≤ 16)
    (hmul : lp.interleaveParam.chunkSize % FAMFS_ALLOC_UNIT = 0)
    (hpos : 0 < lp.interleaveParam.chunkSize) (hchunk : lp.interleaveParam.chunkSize ≤ size)
    (hsize : size < 2 ^ 51) : (stripeGeometry lp size).Sane N := by
  set c := lp.interleaveParam.chunkSize / FAMFS_ALLOC_UNIT with hc
  set k := lp.interleaveParam.nstrips
  have hc1 : 1 ≤ c ∧ c ≤ 2 ^ 30 := by
    simp only [hc, FAMFS_ALLOC_UNIT] at *
    omega
  have ha : u64 (size + FAMFS_ALLOC_UNIT - 1) / FAMFS_ALLOC_UNIT = divUp size FAMFS_ALLOC_UNIT := by
    rw [u64_of_lt (by simp only [FAMFS_ALLOC_UNIT]; omega)]
    rfl
  set a := divUp size FAMFS_ALLOC_UNIT with hadef
  have ha1 : 0 < a := divUp_pos (by decide) (by omega)
  have ha2 : a ≤ 2 ^ 30 := (divUp_le (by decide)).mpr (by simp only [FAMFS_ALLOC_UNIT]; omega)
  have hks : c ≤ k * c := Nat.le_mul_of_pos_left c hn1
  have hks2 : k * c ≤ 16 * 2 ^ 30 := Nat.mul_le_mul hn2 hc1.2
  have hs : u64 (k * c) = k * c := u64_of_lt (by omega)
  set q := divUp a (k * c) with hq
  have hq1 : 0 < q := divUp_pos (by omega) ha1
  have hq2 : q ≤ a := (divUp_le (by omega)).mpr (Nat.le_mul_of_pos_right a (by omega))
  -- the last stripe is begun, the ones before it are filled
  have hlast : (q - 1) * (k * c) < a := by
    by_contra hno
    have := (divUp_le (n := a) (m := q - 1) (show 0 < k * c by omega)).mpr (by omega)
    omega
  have hstrip : q * c ≤ 2 ^ 31 := by
    have h1 : (q - 1) * c ≤ (q - 1) * (k * c) := Nat.mul_le_mul_left _ hks
    have h2 : q * c = (q - 1) * c + c := by
      obtain ⟨r, hr⟩ : ∃ r, q = r + 1 := ⟨q - 1, by omega⟩
      rw [hr, Nat.add_sub_cancel, Nat.add_mul, Nat.one_mul]
    omega
  have hau : (stripeGeometry lp size).stripSizeAu = q * c := by
    simp only [stripeGeometry]
    rw [h.unit, ha, hs, u64_of_lt (by omega), show (a + k * c - 1) / (k * c) = q from rfl,
      s32_of_lt (by omega)]
    have hcast : ((q : ℤ) * (c : ℤ)) % 2 ^ 64 = ((q * c : ℕ) : ℤ) := by
      rw [← Nat.cast_mul]
      omega
    rw [hcast, Int.toNat_natCast]
  refine ⟨hnb, h.unit, h.bits_le, ?_, ?_⟩
  · rw [hau]
    exact Nat.mul_pos hq1 hc1.1
  · rw [hau]
    exact hstrip

theorem strips_extents {st : StripState} {n k : ℕ} {cs : List Seg} (hp : StripsPlaced L n st cs)
    {p : FamfsInterleaveParam} (hhead : st.fmap.head = (stripedFmap p).head) (hk : p.nstrips = k)
    (hlen : cs.length = k) :
    FamfsLogFmap.extents { st.fmap with fmapNextents := 1 } = cs.map unitExtent := by
  rw [stripedFmap_head] at hhead
  simp only [FamfsLogFmap.head, Prod.mk.injEq] at hhead
  obtain ⟨htype, -, hstrips, -⟩ := hhead
  refine (extents_interleave (f := { st.fmap with fmapNextents := 1 }) htype rfl).trans ?_
  change (List.range (st.fmap.ieNstrips 0)).map (st.fmap.ieStrips 0) = _
  rw [hstrips, hk, ← hlen]
  refine List.ext_getElem (by simp) fun j h1 h2 => ?_
  simp only [List.length_map, List.length_range] at h1
  simp [hp.slots, List.getD_eq_getElem?_getD, h1]

theorem strips_bounded {st : StripState} {p : FamfsInterleaveParam} (hhead : st.fmap.head = (stripedFmap p).head)
    (hmax : p.nstrips ≤ 16) : FamfsLogFmap.Bounded { st.fmap with fmapNextents := 1 } := by
  rw [stripedFmap_head] at hhead
  simp only [FamfsLogFmap.head, Prod.mk.injEq] at hhead
  obtain ⟨htype, -, hstrips, -⟩ := hhead
  exact .inr ⟨htype, rfl, hstrips.trans_le hmax⟩

theorem famfsFileStridedAlloc_outcome (h : Placing lp L) {bm : Bitmap}
    (hbm : lp.bitmap = some bm) {host : AllocHost} (h1 : 1 ≤ size) (h2 : size ≤ lp.devsize)
    (hn1 : 1 ≤ lp.interleaveParam.nstrips) (hn2 : lp.interleaveParam.nstrips ≤ 16)
    {rc : ℤ}
    (hok : famfsFileStridedAlloc host lp size = .ok (rc, fmap, lp')) :
    ∃ bm' pos, lp' = { lp with bitmap := some bm', curPos := pos } ∧ AllocOutcome L bm' rc fmap := by
  obtain ⟨hnb, hs⟩ := h.bitmap bm hbm
  have hdev := h.dev
  have hsame : lp = { lp with bitmap := some bm, curPos := lp.curPos } := by rw [← hbm]
  simp only [famfsFileStridedAlloc] at hok
  split_ifs at hok with hval hnn hsmall hzero hmod htmp hmem
  · cases hok
    exact ⟨bm, lp.curPos, hsame, .failed hval hs⟩
  · -- a file smaller than a chunk is contiguous, searched for from the start
    have h0 : Placing { lp with curPos := 0 } L := ⟨h.unit, h.dev, h.nbits, h.first, h.bitmap⟩
    exact famfsFileAllocContiguous_outcome h0 hbm h1 h2 hok
  · cases hok
    exact ⟨bm, lp.curPos, hsame, .failed (by decide) hs⟩
  · obtain ⟨hmul, hpos, -, -⟩ := famfsValidateInterleaveParam_zero (not_not.mp hval) hn1
    rw [h.unit] at hmul
    have hg := stripeGeometry_sane h hnb hn1 hn2 hmul hpos (not_lt.mp hsmall) (by omega)
    rw [Runs.bind_eq_ok] at hok
    obtain ⟨st, hloop, hfin⟩ := hok
    have hbits : lp.bits = bm := by rw [FamfsLockedLog.bits, hbm, Option.getD_some]
    have hstart : StripsPlaced L (stripeGeometry lp size).stripSizeAu
        ⟨bucketSeriesAlloc host.rand lp.interleaveParam.nbuckets 0, lp.bits,
          stripedFmap lp.interleaveParam, 0, 0⟩ [] :=
      ⟨⟨L, by simp, hbits ▸ hs⟩, rfl, stripedFmap_slots _, by simp⟩
    obtain ⟨cs, hp, hhead, hend⟩ := stripLoop_placed hg h.first hstart hn1 (Nat.zero_le _) hloop
    obtain ⟨L', hL', hs'⟩ := hp.shows
    have hk : (stripeGeometry lp size).nstrips = lp.interleaveParam.nstrips := rfl
    simp only [finishStrips, hp.count] at hfin
    rcases hend with hall | ⟨hfew, hi⟩
    · rw [if_neg (by omega)] at hfin
      cases hfin
      refine ⟨st.bitmap, lp.curPos, rfl, .placed hL' hs' (strips_bounded hhead hn2) (strips_extents hp hhead rfl hall) ?_⟩
      intro c hc
      have hg1 := hg.pos
      have hg2 := hg.bound
      rw [hp.sizes c hc]
      omega
    · rw [if_pos hfew, Runs.bind_eq_ok] at hfin
      obtain ⟨bm', hfree, hret⟩ := hfin
      cases hret
      exact ⟨bm', lp.curPos, rfl, .failed (by decide) (freeStrips_shows hg hp hi hfree)⟩

theorem famfsFileAlloc_placing (h : Placing lp L)
    (hbuild : lp.bitmap = none → Mapped crc32 lp.logp ∧ ∀ x, Covers (logSegs lp.logp) x ↔ Covers L.segs x)
    {kabi : ℕ} {c : AllocCall} (hc : c.Admitted lp.devsize) {rc : ℤ}
    (hok : famfsFileAlloc crc32 kabi c.host { lp with interleaveParam := c.param } c.size =
      .ok (rc, fmap, lp')) :
    (rc ≠ 0 ∧ lp' = { lp with interleaveParam := c.param }) ∨
    ∃ bm bm' pos, lp' = { lp with interleaveParam := c.param, bitmap := some bm', nbits := N, curPos := pos } ∧
      Shows L bm ∧ AllocOutcome L bm' rc fmap := by
  obtain ⟨h1, h2, hparam⟩ := hc
  have h' : Placing { lp with interleaveParam := c.param } L := ⟨h.unit, h.dev, h.nbits, h.first, h.bitmap⟩
  obtain ⟨bm, pos, hens, hs⟩ := ensureBitmap_placing h' hbuild
  rw [famfsFileAlloc] at hok
  split_ifs at hok with hmem
  · cases hok
    exact Or.inl ⟨by decide, rfl⟩
  · rw [hens, Runs.ok_bind] at hok
    -- the session with its bitmap
    set lp1 : FamfsLockedLog :=
      { lp with interleaveParam := c.param, bitmap := some bm, nbits := N, curPos := pos } with hlp1
    have hp1 : Placing lp1 L :=
      ⟨h.unit, h.dev, h.nbits, h.first, fun bm' hbm' => by cases hbm'; exact ⟨rfl, hs⟩⟩
    right
    split_ifs at hok with hkabi hcont
    · obtain ⟨rfl, rfl, rfl⟩ : -1 = rc ∧ none = fmap ∧ lp1 = lp' := by simpa using hok
      exact ⟨bm, bm, pos, rfl, hs, .failed (by decide) hs⟩
    · obtain ⟨bm', pos', heq, hout⟩ := famfsFileAllocContiguous_outcome hp1 rfl h1 h2 hok
      exact ⟨bm, bm', pos', heq, hs, hout⟩
    · have hstr : 1 ≤ lp1.interleaveParam.nstrips ∧ lp1.interleaveParam.nstrips ≤ 16 := by
        rcases hparam with hz | hp
        · refine absurd ?_ hcont
          simp only [allocIsInterleaved, hlp1, hz]
          rfl
        · exact hp
      obtain ⟨bm', pos', heq, hout⟩ := famfsFileStridedAlloc_outcome hp1 rfl h1 h2 hstr.1 hstr.2 hok
      exact ⟨bm, bm', pos', heq, hs, hout⟩

theorem famfsFileAlloc_outcome (h : Refines crc32 sb lp L) {kabi : ℕ} {c : AllocCall}
    (hc : c.Admitted lp.devsize) {rc : ℤ}
    (hok : famfsFileAlloc crc32 kabi c.host { lp with interleaveParam := c.param } c.size =
      .ok (rc, fmap, lp')) :
    (rc ≠ 0 ∧ lp' = { lp with interleaveParam := c.param }) ∨
    ∃ lp1 bm' pos, Refines crc32 sb lp1 L ∧ lp1.logp = lp.logp ∧ lp1.bitmap ≠ none ∧
      lp' = { lp1 with bitmap := some bm', curPos := pos } ∧ AllocOutcome L bm' rc fmap := by
  rcases famfsFileAlloc_placing h.placing (fun _ => ⟨h.mapped, fun x => by rw [h.segs]⟩) hc hok with
    hsame | ⟨bm, bm', pos, rfl, hs, hout⟩
  · exact Or.inl hsame
  · refine Or.inr ⟨{ lp with interleaveParam := c.param, bitmap := some bm, nbits := N, curPos := pos }, bm', pos,
      h.same rfl rfl rfl fun bm0 hbm0 => ?_, rfl, Option.some_ne_none bm, rfl, hout⟩
    cases hbm0
    exact ⟨rfl, hs⟩

theorem logExtents_append (logp : FamfsLog) (e : FamfsLogEntry) :
    logExtents (famfsAppendLog crc32 logp e) = logExtents logp ++ e.body.extents := by
  rw [logExtents, append_nextIndex, extentsBelow_succ, append_entries_new, stampLogEntry_body]
  congr 1
  simp only [logExtents, extentsBelow]
  refine List.flatMap_congr fun i hi => ?_
  rw [append_entries_old crc32 logp e (List.mem_range.mp hi)]

theorem mapped_append {logp : FamfsLog} (hm : Mapped crc32 logp) (hok : LogOk crc32 logp)
    (hroom : famfsLogFull logp = false) {m : FamfsLogFileMeta} (hmap : m.fmFmap.Bounded)
    (hwhole : ∀ e ∈ m.fmFmap.extents, e.Whole) :
    Mapped crc32 (famfsAppendLog crc32 logp (newLogEntry (.fm m))) where
  entry := (logOk_append crc32 hok hroom _).entry
  maps := by
    intro i hi m' hm'
    rcases Nat.lt_succ_iff_lt_or_eq.mp hi with hlt | rfl
    · rw [append_entries_old crc32 logp _ hlt] at hm'
      exact hm.maps i hlt m' hm'
    · rw [append_entries_new, stampLogEntry_body] at hm'
      cases hm'
      exact hmap
  whole := by
    intro e he
    rw [logExtents_append] at he
    rcases List.mem_append.mp he with he | he
    · exact hm.whole e he
    · exact hwhole e he
  len := hm.len

theorem refines_logged (h : Refines crc32 sb lp L) {bm : Bitmap} {pos : ℕ} (hbm : lp.bitmap ≠ none)
    {fmap : FamfsLogFmap} (hout : AllocOutcome L bm 0 (some fmap)) {c : AllocCall} {logp : FamfsLog}
    (hlog : famfsLogFileCreation crc32 lp.logp fmap c.relpath c.mode c.uid c.gid c.size = .ok (0, logp)) :
    ∃ L' : Layout N, Refines crc32 sb { lp with bitmap := some bm, curPos := pos, logp := logp } L' := by
  cases hout with
  | placed hL hs hmap hext hsize =>
    rename_i cs L'
    obtain ⟨hroom, hlogp⟩ : famfsLogFull lp.logp = false ∧ logp = famfsAppendLog crc32 lp.logp
        (newLogEntry (.fm (logFileMeta fmap c.relpath c.mode c.uid c.gid c.size))) := by
      simp only [famfsLogFileCreation] at hlog
      split_ifs at hlog with h1 h2 h3
      · cases hlog
      · cases hlog
        exact ⟨by simpa using h3, rfl⟩
    have hwhole : ∀ e ∈ fmap.extents, e.Whole := by
      intro e he
      rw [hext] at he
      obtain ⟨s, hs, rfl⟩ := List.mem_map.mp he
      exact unitExtent_whole (hsize s hs).1 (hsize s hs).2
    have hunits : fmap.extents.map FamfsSimpleExtent.units = cs := by
      rw [hext, List.map_map]
      simp [Function.comp_def]
    subst hlogp
    refine ⟨L', h.super, h.unit, h.dev, h.nbits, mapped_append h.mapped h.log hroom hmap hwhole,
      logOk_append crc32 h.log hroom _, ?_, ?_⟩
    · rw [hL, h.segs, logSegs, logSegs, logExtents_append, List.map_append]
      change _ = (0, metaUnits lp.logp) :: (_ ++ fmap.extents.map FamfsSimpleExtent.units)
      rw [hunits]
      rfl
    · intro bm' hbm'
      cases hbm'
      obtain ⟨bm0, hbm0⟩ := Option.ne_none_iff_exists'.mp hbm
      exact ⟨(h.bitmap bm0 hbm0).1, hs⟩

theorem refines_step {kabi : ℕ} (h : Refines crc32 sb lp L) (hstep : AllocStep crc32 kabi sb lp lp') :
    ∃ L' : Layout N, Refines crc32 sb lp' L' := by
  cases hstep with
  | session cfg => exact ⟨L, h.same h.super.2 (h.super.1.trans h.unit.symm) rfl fun bm hbm => nomatch hbm⟩
  | logged hc halloc hlog =>
    rcases famfsFileAlloc_outcome h hc halloc with ⟨hrc, -⟩ | ⟨lp1, bm, pos, href, -, hne, rfl, hout⟩
    · exact absurd rfl hrc
    · exact refines_logged href hne hout hlog
  | failed hc hrc halloc =>
    rcases famfsFileAlloc_outcome h hc halloc with ⟨-, rfl⟩ | ⟨lp1, bm, pos, href, -, hne, rfl, hout⟩
    · exact ⟨L, h.same rfl rfl rfl h.bitmap⟩
    · cases hout with
      | failed _ hs =>
        obtain ⟨bm0, hbm0⟩ := Option.ne_none_iff_exists'.mp hne
        refine ⟨L, href.same rfl rfl rfl fun bm' hbm' => ?_⟩
        cases hbm'
        exact ⟨(href.bitmap bm0 hbm0).1, hs⟩
      | placed => exact absurd rfl hrc

end

theorem refines_mkfs {crc32 : Crc32} {kabi logLen devsize : ℕ} {sb : FamfsSuperblock}
    (hsb : sb.tsAllocUnit = FAMFS_ALLOC_UNIT ∧ sb.tsDaxdevSize = devsize)
    (hdev : 0 < devsize ∧ devsize < 2 ^ 51) (hlen : mkfsLogLenValid logLen) (h64 : logLen < 2 ^ 64)
    (famfsType : FamfsType) (mpt : CStr) (shadowRoot : Option CStr) (cfg : Option FamfsInterleaveParam) :
    ∃ L : Layout (bitmapNbits devsize FAMFS_ALLOC_UNIT),
      Refines crc32 sb
        (famfsInitLockedLog kabi sb (mkfsLog crc32 logLen) famfsType mpt shadowRoot cfg) L := by
  obtain ⟨hau, rfl⟩ := hsb
  have hpos : 0 < bitmapNbits sb.tsDaxdevSize FAMFS_ALLOC_UNIT := by
    simp only [bitmapNbits, FAMFS_ALLOC_UNIT]
    rw [u64_of_lt (by omega)]
    omega
  have hfree : ∀ b < bitmapNbits sb.tsDaxdevSize FAMFS_ALLOC_UNIT,
      Seg.Has (0, metaUnits (mkfsLog crc32 logLen)) b →
        ¬ Covers (Layout.empty (bitmapNbits sb.tsDaxdevSize FAMFS_ALLOC_UNIT)).segs b :=
    fun b _ _ => covers_nil b
  refine ⟨(Layout.empty _).place _ hpos hfree, ⟨hau, rfl⟩, hau, hdev.2, rfl, ?_, logOk_mkfs crc32 hlen.2 h64,
    rfl, fun bm hbm => by cases hbm⟩
  refine ⟨fun i hi => absurd hi (Nat.not_lt_zero i), fun i hi => absurd hi (Nat.not_lt_zero i),
    fun e he => absurd he (List.not_mem_nil), ?_⟩
  exact le_of_and_pred hlen.1 h64

theorem famfsMkfs_zero {crc32 : Crc32} {logLen devsize : ℕ} {host : MkfsHost}
    {sb0 sb : FamfsSuperblock} {logp0 logp : FamfsLog} {force : Bool}
    (h : famfsMkfs crc32 host true sb0 logp0 logLen devsize force false = (0, sb, logp)) :
    (sb.tsAllocUnit = FAMFS_ALLOC_UNIT ∧ sb.tsDaxdevSize = devsize) ∧ logp = mkfsLog crc32 logLen := by
  by_cases hsuper : (famfsCheckSuper crc32 sb0 = 0 ∨ famfsCheckSuper crc32 sb0 = 1) ∧ force = false
  · rw [famfsMkfs, if_neg (by simp), if_pos hsuper] at h
    cases h
  · cases hu : host.systemUuid with
    | none =>
      rw [famfsMkfs, if_neg (by simp), if_neg hsuper, hu] at h
      cases h
    | some u =>
      rw [famfsMkfs_writable crc32 (Bool.false_and force) hsuper hu] at h
      cases h
      exact ⟨⟨rfl, rfl⟩, rfl⟩

theorem unchanged_without_device {crc32 : Crc32} {kabi : ℕ} {sb : FamfsSuperblock}
    (hsb : sb.tsDaxdevSize = 0) {lp lp' : FamfsLockedLog}
    (hrun : ReflTransGen (AllocStep crc32 kabi sb) lp lp') (hdev : lp.devsize = 0)
    (hbm : lp.bitmap = none) : lp'.devsize = 0 ∧ lp'.logp = lp.logp ∧ lp'.bitmap = none := by
  refine Runs.invariant (P := fun q => q.devsize = 0 ∧ q.logp = lp.logp ∧ q.bitmap = none) ?_ hrun
    ⟨hdev, rfl, hbm⟩
  rintro s t ⟨h0, hlog, -⟩ hstep
  cases hstep with
  | session cfg => exact ⟨hsb, hlog, rfl⟩
  | logged hc => have := hc.1; have := hc.2.1; omega
  | failed hc => have := hc.1; have := hc.2.1; omega

section

variable {crc32 : Crc32} {kabi logLen devsize : ℕ} {mkfsHost : MkfsHost} {sb0 sb : FamfsSuperblock}
variable {logp0 logp : FamfsLog} {force : Bool} {famfsType : FamfsType} {mpt : CStr}
variable {shadowRoot : Option CStr} {cfg : Option FamfsInterleaveParam} {lp : FamfsLockedLog}

theorem refines_run
    (hmkfs : famfsMkfs crc32 mkfsHost true sb0 logp0 logLen devsize force false = (0, sb, logp))
    (hpos : 0 < devsize) (hdev : devsize < 2 ^ 30 * FAMFS_ALLOC_UNIT) (hlen : mkfsLogLenValid logLen)
    (h64 : logLen < 2 ^ 64)
    (hrun : ReflTransGen (AllocStep crc32 kabi sb)
      (famfsInitLockedLog kabi sb logp famfsType mpt shadowRoot cfg) lp) :
    ∃ L : Layout (bitmapNbits devsize FAMFS_ALLOC_UNIT), Refines crc32 sb lp L := by
  obtain ⟨hsb, rfl⟩ := famfsMkfs_zero hmkfs
  have hdev' : devsize < 2 ^ 51 := by
    simp only [FAMFS_ALLOC_UNIT] at hdev
    omega
  refine Runs.invariant (P := fun q => ∃ L : Layout _, Refines crc32 sb q L) ?_ hrun
    (refines_mkfs hsb ⟨hpos, hdev'⟩ hlen h64 famfsType mpt shadowRoot cfg)
  rintro s t ⟨L, h⟩ hstep
  exact refines_step h hstep

/-- In every log the master can reach, no byte belongs to two extents, and none to
an extent and to the superblock or the log. -/
theorem no_double_allocation
    (hmkfs : famfsMkfs crc32 mkfsHost true sb0 logp0 logLen devsize force false = (0, sb, logp))
    (hdev : devsize < 2 ^ 30 * FAMFS_ALLOC_UNIT) (hlen : mkfsLogLenValid logLen)
    (h64 : logLen < 2 ^ 64)
    (hrun : ReflTransGen (AllocStep crc32 kabi sb)
      (famfsInitLockedLog kabi sb logp famfsType mpt shadowRoot cfg) lp) :
    (logExtents lp.logp).Pairwise (fun a b => Disjoint a.bytes b.bytes) ∧
    ∀ e ∈ logExtents lp.logp,
      Disjoint e.bytes (Set.Ico 0 (FAMFS_SUPERBLOCK_SIZE + lp.logp.famfsLogLen)) := by
  rcases Nat.eq_zero_or_pos devsize with rfl | hpos
  · obtain ⟨hsb, rfl⟩ := famfsMkfs_zero hmkfs
    have hnone : logExtents lp.logp = [] := by
      rw [(unchanged_without_device hsb.2 hrun hsb.2 rfl).2.1]
      rfl
    rw [hnone]
    exact ⟨List.Pairwise.nil, fun e he => absurd he List.not_mem_nil⟩
  · obtain ⟨L, h⟩ := refines_run hmkfs hpos hdev hlen h64 hrun
    have hap := L.apart
    rw [h.segs, logSegs, List.pairwise_cons, List.pairwise_map] at hap
    refine ⟨?_, fun e he => ?_⟩
    · exact hap.2.imp_of_mem fun ha hb hab =>
        disjoint_of_apart (h.mapped.whole _ ha) (h.mapped.whole _ hb) hab
    · have hw := h.mapped.whole e he
      have hmeta := hap.1 e.units (List.mem_map_of_mem he)
      have hcover := divUp_mul_ge (FAMFS_SUPERBLOCK_SIZE + lp.logp.famfsLogLen)
        (show 0 < FAMFS_ALLOC_UNIT by decide)
      have h1 := hw.offset
      have h2 := units_pos hw
      refine Set.disjoint_left.mpr fun x hx hy => ?_
      rcases (apart_iff (metaUnits_pos lp.logp) h2).mp hmeta with hle | hle
      · simp only [FamfsSimpleExtent.bytes, FamfsSimpleExtent.units, Set.mem_Ico, metaUnits,
          FAMFS_ALLOC_UNIT] at *
        omega
      · simp only at hle
        omega

/-- The bitmap of every session is the one that its log gives, unit by unit. -/
theorem bitmap_refines_log
    (hmkfs : famfsMkfs crc32 mkfsHost true sb0 logp0 logLen devsize force false = (0, sb, logp))
    (hdev : devsize < 2 ^ 30 * FAMFS_ALLOC_UNIT) (hlen : mkfsLogLenValid logLen)
    (h64 : logLen < 2 ^ 64)
    (hrun : ReflTransGen (AllocStep crc32 kabi sb)
      (famfsInitLockedLog kabi sb logp famfsType mpt shadowRoot cfg) lp)
    {bm : Bitmap} (hbm : lp.bitmap = some bm) :
    lp.nbits = bitmapNbits lp.devsize lp.allocUnit ∧
    ∃ b, famfsBuildBitmap crc32 lp.logp lp.allocUnit lp.devsize = .ok b ∧ b.errors = 0 ∧
      ∀ i < lp.nbits, muBitmapTest b.bitmap i = muBitmapTest bm i := by
  rcases Nat.eq_zero_or_pos devsize with rfl | hpos
  · obtain ⟨hsb, rfl⟩ := famfsMkfs_zero hmkfs
    rw [(unchanged_without_device hsb.2 hrun hsb.2 rfl).2.2] at hbm
    cases hbm
  · obtain ⟨L, h⟩ := refines_run hmkfs hpos hdev hlen h64 hrun
    obtain ⟨hnb, hs⟩ := h.bitmap bm hbm
    have hN := h.bits_le
    rw [← h.nbits] at hN
    obtain ⟨b, hok, -, htest, herr⟩ := famfsBuildBitmap_mapped h.mapped lp.devsize hN
    rw [h.unit]
    refine ⟨hnb.trans h.nbits.symm, b, hok, herr (h.segs ▸ L.apart), fun i hi => ?_⟩
    rw [Bool.eq_iff_iff, htest i (by rw [h.nbits, ← hnb]; exact hi), hs.shown i (hnb ▸ hi), h.segs]

end

/-! A master at work: a fresh device of 4 GiB and files of given sizes, all logged. -/

/-- The session after a contiguous file of `size` bytes, if it is placed and logged. -/
def addFile (lp : FamfsLockedLog) (size : ℕ) : FamfsLockedLog :=
  match famfsFileAlloc Crc32.update 43 ⟨true, true, id⟩ { lp with interleaveParam := ⟨0, 0, 0⟩ } size with
  | .ok (rc, some fmap, lp1) =>
      match famfsLogFileCreation Crc32.update lp1.logp fmap [102] 0o644 0 0 size with
      | .ok (rc', logp) => if rc = 0 ∧ rc' = 0 then { lp1 with logp := logp } else lp
      | .error _ => lp
  | _ => lp

def resultFmap : Except Trap (ℤ × Option FamfsLogFmap × FamfsLockedLog) → Option FamfsLogFmap
  | .ok (rc, fmap, _) => if rc = 0 then fmap else none
  | .error _ => none

theorem ok_of_resultFmap {r : Except Trap (ℤ × Option FamfsLogFmap × FamfsLockedLog)}
    {f : FamfsLogFmap} (h : resultFmap r = some f) : ∃ lp', r = .ok (0, some f, lp') := by
  rcases r with t | ⟨rc, fmap', lp'⟩
  · cases h
  · simp only [resultFmap] at h
    split_ifs at h with hrc
    exact ⟨lp', by rw [hrc, h]⟩

theorem ok_of_map {r : Except Trap (ℤ × Option FamfsLogFmap × FamfsLockedLog)} {α : Type} {f : FamfsLogFmap → α} (x : α)
    (h : (resultFmap r).map f = some x) : ∃ fmap lp', r = .ok (0, some fmap, lp') ∧ f fmap = x := by
  obtain ⟨fmap, hf, hx⟩ := Option.map_eq_some_iff.1 h
  obtain ⟨lp', hok⟩ := ok_of_resultFmap hf
  exact ⟨fmap, lp', hok, hx⟩

def freshSuper : FamfsSuperblock := mkfsSuperblock Crc32.update ⟨some [], [], []⟩ [] FAMFS_LOG_LEN (2 ^ 32)

def freshSession : FamfsLockedLog :=
  famfsInitLockedLog 43 freshSuper (mkfsLog Crc32.update FAMFS_LOG_LEN) .v1 [47, 109] none none

/-- The session after a file of `size` bytes with stripes of its own, if it is placed and logged. -/
def addFileWith (host : AllocHost) (param : FamfsInterleaveParam) (lp : FamfsLockedLog) (size : ℕ) : FamfsLockedLog :=
  match famfsFileAlloc Crc32.update 43 host { lp with interleaveParam := param } size with
  | .ok (rc, some fmap, lp1) =>
      match famfsLogFileCreation Crc32.update lp1.logp fmap [102] 0o644 0 0 size with
      | .ok (rc', logp) => if rc = 0 ∧ rc' = 0 then { lp1 with logp := logp } else lp
      | .error _ => lp
  | _ => lp

theorem addFileWith_step {host : AllocHost} {param : FamfsInterleaveParam} {lp : FamfsLockedLog}
    (hc : AllocCall.Admitted ⟨host, size, param, [102], 0o644, 0, 0⟩ lp.devsize)
    (hadd : lp.logp.famfsLogNextIndex < (addFileWith host param lp size).logp.famfsLogNextIndex) :
    AllocStep Crc32.update 43 freshSuper lp (addFileWith host param lp size) := by
  unfold addFileWith at hadd ⊢
  split at hadd
  · rename_i rc fmap lp1 halloc
    split at hadd
    · rename_i rc' logp hlog
      split_ifs at hadd with hrc
      · obtain ⟨rfl, rfl⟩ := hrc
        simp only [and_self, ↓reduceIte]
        exact AllocStep.logged hc halloc hlog
      · exact absurd hadd (lt_irrefl _)
    · exact absurd hadd (lt_irrefl _)
  · exact absurd hadd (lt_irrefl _)

theorem addFile_step {lp : FamfsLockedLog} (h1 : 1 ≤ size) (h2 : size ≤ lp.devsize)
    (hadd : lp.logp.famfsLogNextIndex < (addFile lp size).logp.famfsLogNextIndex) :
    AllocStep Crc32.update 43 freshSuper lp (addFile lp size) :=
  @addFileWith_step size ⟨true, true, id⟩ ⟨0, 0, 0⟩ lp ⟨h1, h2, Or.inl rfl⟩ hadd

theorem freshSession_mkfs :
    famfsMkfs Crc32.update ⟨some [], [], []⟩ true { freshSuper with tsMagic := 0 } (mkfsLog Crc32.update 0)
      FAMFS_LOG_LEN (2 ^ 32) true false = (0, freshSuper, mkfsLog Crc32.update FAMFS_LOG_LEN) := by
  rw [famfsMkfs_writable Crc32.update rfl (by simp) rfl]
  rfl

theorem freshSession_run :
    ReflTransGen (AllocStep Crc32.update 43 freshSuper) freshSession
      (addFile (addFile freshSession 1) (FAMFS_ALLOC_UNIT + 1)) :=
  (ReflTransGen.single (addFile_step (by decide) (by decide) (by decide +kernel))).tail
    (addFile_step (by decide) (by decide +kernel) (by decide +kernel))

/-- Two files take units 5 to 7, after the superblock and the log. -/
theorem no_double_allocation_two_files :
    logExtents (addFile (addFile freshSession 1) (FAMFS_ALLOC_UNIT + 1)).logp =
      [unitExtent (5, 1), unitExtent (6, 2)] ∧
    (logExtents (addFile (addFile freshSession 1) (FAMFS_ALLOC_UNIT + 1)).logp).Pairwise
      (fun a b => Disjoint a.bytes b.bytes) :=
  ⟨by decide +kernel, (no_double_allocation freshSession_mkfs (by decide) (by decide) (by decide)
    freshSession_run).1⟩

theorem bitmap_refines_log_two_files :
    ∃ bm b, (addFile (addFile freshSession 1) (FAMFS_ALLOC_UNIT + 1)).bitmap = some bm ∧
      famfsBuildBitmap Crc32.update (addFile (addFile freshSession 1) (FAMFS_ALLOC_UNIT + 1)).logp
        (addFile (addFile freshSession 1) (FAMFS_ALLOC_UNIT + 1)).allocUnit
        (addFile (addFile freshSession 1) (FAMFS_ALLOC_UNIT + 1)).devsize = .ok b ∧
      muBitmapTest b.bitmap 7 = true := by
  obtain ⟨bm, hbm⟩ : ∃ bm, (addFile (addFile freshSession 1) (FAMFS_ALLOC_UNIT + 1)).bitmap = some bm :=
    Option.isSome_iff_exists.mp (by decide +kernel)
  obtain ⟨hnb, b, hok, -, hbits⟩ := bitmap_refines_log freshSession_mkfs (by decide) (by decide)
    (by decide) freshSession_run hbm
  refine ⟨bm, b, hbm, hok, ?_⟩
  rw [hbits 7 (by decide +kernel)]
  have h7 : (addFile (addFile freshSession 1) (FAMFS_ALLOC_UNIT + 1)).bitmap.map
      (fun bm => muBitmapTest bm 7) = some true := by decide +kernel
  rw [hbm] at h7
  simpa using h7

end Famfs
