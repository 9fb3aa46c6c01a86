import Famfs.Proofs.LogRuns
import Famfs.Sanity.LogScan

/-! What the scan of a log reports. Its error count is the number of units claimed more than once
or from the superblock and the log, as long as that fits in 64 bits, and its allocation sum is the
space of the bits it has set. -/

namespace Famfs

open Machine Intervals

/-- The units that the log claims, one segment for each extent or strip. -/
def claimedUnits (crc32 : Crc32) (au : ℕ) (logp : FamfsLog) : List Seg :=
  (claimedExtents crc32 logp).map (FamfsSimpleExtent.unitsAt au)

/-- The claimed units outside the superblock and the log, each counted once. -/
noncomputable def distinctUnits (crc32 : Crc32) (au : ℕ) (logp : FamfsLog) : ℕ :=
  (outside {x | Seg.Has (0, superUnits au logp) x} (claimedUnits crc32 au logp)).ncard

section

variable {au : ℕ} {e f : FamfsSimpleExtent}

theorem unitsAt_has (hau : 0 < au) (hofs : e.seOffset % au = 0) (x : ℕ) : (e.unitsAt au).Has x ↔ x * au ∈ e.bytes := by
  obtain ⟨k, hk⟩ := Nat.dvd_of_mod_eq_zero hofs
  have hstart : e.seOffset / au = k := by rw [hk, Nat.mul_div_cancel_left _ hau]
  unfold Seg.Has FamfsSimpleExtent.unitsAt FamfsSimpleExtent.bytes
  rw [Set.mem_Ico, hstart, hk, Nat.mul_comm au k]
  simp only
  rw [Nat.mul_le_mul_right_iff hau]
  refine and_congr_right fun hle => ?_
  obtain ⟨t, rfl⟩ := Nat.exists_eq_add_of_le hle
  rw [Nat.add_lt_add_iff_left, Nat.add_mul, Nat.add_lt_add_iff_left, ← not_le, divUp_le hau, not_le]

theorem unit_mem_bytes (hau : 0 < au) (hofs : e.seOffset % au = 0) {y : ℕ} (hy : y ∈ e.bytes) : y / au * au ∈ e.bytes := by
  obtain ⟨k, hk⟩ := Nat.dvd_of_mod_eq_zero hofs
  obtain ⟨hge, hlt⟩ := Set.mem_Ico.1 hy
  rw [hk] at hge
  refine Set.mem_Ico.2 ⟨?_, lt_of_le_of_lt (Nat.div_mul_le_self y au) hlt⟩
  rw [hk, Nat.mul_comm]
  exact Nat.mul_le_mul_right au ((Nat.le_div_iff_mul_le hau).2 (by rwa [Nat.mul_comm]))

theorem apart_iff_disjoint (hau : 0 < au) (he : e.seOffset % au = 0) (hf : f.seOffset % au = 0) :
    (e.unitsAt au).Apart (f.unitsAt au) ↔ Disjoint e.bytes f.bytes := by
  rw [Set.disjoint_left]
  constructor
  · intro hapart y hy hy'
    exact hapart (y / au) ((unitsAt_has hau he _).2 (unit_mem_bytes hau he hy))
      ((unitsAt_has hau hf _).2 (unit_mem_bytes hau hf hy'))
  · intro hdisj x hx hx'
    exact hdisj ((unitsAt_has hau he x).1 hx) ((unitsAt_has hau hf x).1 hx')

theorem unitsAt_end {devSize : ℕ} (hau : 0 < au) (hofs : e.seOffset % au = 0) (hin : e.seOffset + e.seLen ≤ devSize) :
    (e.unitsAt au).1 + (e.unitsAt au).2 ≤ divUp devSize au := by
  obtain ⟨k, hk⟩ := Nat.dvd_of_mod_eq_zero hofs
  have hstart : e.seOffset / au = k := by rw [hk, Nat.mul_div_cancel_left _ hau]
  have hge := divUp_mul_ge devSize hau
  have hk' : k ≤ divUp devSize au := by
    rw [← Nat.mul_le_mul_right_iff hau]
    rw [hk, Nat.mul_comm au k] at hin
    omega
  have hlen : divUp e.seLen au ≤ divUp devSize au - k := by
    rw [divUp_le hau, Nat.sub_mul]
    rw [hk, Nat.mul_comm au k] at hin
    omega
  unfold FamfsSimpleExtent.unitsAt
  rw [hstart]
  simp only
  omega

end

section

variable {crc32 : Crc32} {au devSize : ℕ} {logp : FamfsLog}

theorem superUnits_le (hau : 0 < au) (hlog : FAMFS_SUPERBLOCK_SIZE + logp.famfsLogLen ≤ devSize) :
    superUnits au logp ≤ divUp devSize au := by
  have hin : (superExtent logp).seOffset + (superExtent logp).seLen ≤ devSize := by simpa [superExtent] using hlog
  have hend := unitsAt_end hau (Nat.zero_mod au) hin
  simp only [FamfsSimpleExtent.unitsAt, superExtent, Nat.zero_div, Nat.zero_add] at hend
  exact hend

theorem claimedUnits_end (hau : 0 < au) (hs : Scannable crc32 au devSize logp) {c : Seg}
    (hc : c ∈ claimedUnits crc32 au logp) : c.1 + c.2 ≤ divUp devSize au := by
  obtain ⟨e, he, rfl⟩ := List.mem_map.1 hc
  exact unitsAt_end hau (hs.aligned e he) (hs.inside e he)

theorem distinctUnits_le (hau : 0 < au) (hs : Scannable crc32 au devSize logp) :
    distinctUnits crc32 au logp ≤ divUp devSize au := by
  have hsub : outside {x | Seg.Has (0, superUnits au logp) x} (claimedUnits crc32 au logp) ⊆ Set.Iio (divUp devSize au) := by
    rintro x ⟨⟨c, hc, hx⟩, -⟩
    exact lt_of_lt_of_le hx.2 (claimedUnits_end hau hs hc)
  calc distinctUnits crc32 au logp ≤ (Set.Iio (divUp devSize au)).ncard := Set.ncard_le_ncard hsub (Set.finite_Iio _)
    _ = divUp devSize au := by rw [Set.ncard_eq_toFinset_card', Set.toFinset_Iio, Nat.card_Iio]

/-- What the scan leaves, unit by unit, and what it has counted. -/
structure Scanned (crc32 : Crc32) (au : ℕ) (logp : FamfsLog) (b : BuiltBitmap) : Prop where
  test : ∀ x, muBitmapTest b.bitmap x = true ↔ Seg.Has (0, superUnits au logp) x ∨ Covers (claimedUnits crc32 au logp) x
  small : b.errors < 2 ^ 64 ∧ b.allocSum < 2 ^ 64
  errors : Nat.ModEq (2 ^ 64) (b.errors + distinctUnits crc32 au logp) (total (claimedUnits crc32 au logp))
  sum : Nat.ModEq (2 ^ 64) b.allocSum (au * setBits b.bitmap)

theorem famfsBuildBitmap_scanned (hunit : UnitAdmitted au) (hdev : divUp devSize au < 2 ^ 31)
    (hlog : FAMFS_SUPERBLOCK_SIZE + logp.famfsLogLen ≤ devSize) (hs : Scannable crc32 au devSize logp) :
    ∃ b, famfsBuildBitmap crc32 logp au devSize = .ok b ∧ Scanned crc32 au logp b := by
  obtain ⟨hau, hle⟩ := hunit.bounds
  have hbytes : devSize ≤ 2 ^ 31 * 2 ^ 21 := (divUp_mul_ge devSize hau).trans (Nat.mul_le_mul hdev.le hle)
  have hnbits : bitmapNbits devSize au = divUp devSize au := by rw [bitmapNbits, u64_of_lt (by omega), divUp]
  have hroom := emptyBitmap_bits hdev
  have hsuper := superUnits_le hau hlog
  obtain ⟨b, hok, ht⟩ := famfsBuildBitmap_tallied hunit hs (by omega) (by omega)
  rw [hnbits] at ht
  have hmarked : ∀ x, muBitmapTest (superMarks au (divUp devSize au) logp).bitmap x = true ↔
      Seg.Has (0, superUnits au logp) x := by
    intro x
    rw [superMarks_test]
    refine and_iff_left_of_imp fun hx => ?_
    have := hx.2
    simp only at this
    omega
  have hin : ∀ c ∈ claimedUnits crc32 au logp,
      c.1 + c.2 ≤ (superMarks au (divUp devSize au) logp).bitmap.bits ∧ c.2 < 2 ^ 31 := by
    intro c hc
    have := claimedUnits_end hau hs hc
    rw [superMarks_bits]
    omega
  have htest : ∀ x, muBitmapTest b.bitmap x = true ↔
      Seg.Has (0, superUnits au logp) x ∨ Covers (claimedUnits crc32 au logp) x := by
    intro x
    rw [ht.test, hmarked]
    refine or_congr_right (and_iff_left_of_imp ?_)
    rintro ⟨c, hc, hx⟩
    exact lt_of_lt_of_le hx.2 (hin c hc).1
  have hnew : newBits (superMarks au (divUp devSize au) logp).bitmap b.bitmap = distinctUnits crc32 au logp := by
    unfold newBits distinctUnits outside
    congr 1
    ext x
    rw [Set.mem_ofPred_eq, Set.mem_ofPred_eq, htest, ← Bool.not_eq_true, hmarked, Set.mem_ofPred_eq]
    tauto
  have hset : setBits b.bitmap = newBits (emptyBitmap (divUp devSize au)) b.bitmap := by
    simp only [setBits, newBits, muBitmapTest_empty, true_and]
  have hgrow : ∀ x, muBitmapTest (emptyBitmap (divUp devSize au)) x = true →
      muBitmapTest (superMarks au (divUp devSize au) logp).bitmap x = true := fun x hx => by
    rw [muBitmapTest_empty] at hx
    exact Bool.noConfusion hx
  obtain ⟨-, hsum0⟩ := setExtentLoop_tally au (superUnits au logp) 0 ⟨0, emptyBitmap (divUp devSize au), 0⟩
    (by simp only; omega)
  refine ⟨b, hok, htest, ht.small ⟨by norm_num, setExtentLoop_allocSum_lt (by norm_num)⟩, ?_, ?_⟩
  · have herr := ht.errors hin
    rwa [hnew, Nat.zero_add] at herr
  · rw [hset, newBits_trans hgrow ht.grows, Nat.mul_add]
    simp only [Nat.zero_add] at hsum0
    exact (ht.sum hin).trans (hsum0.add_right _)

theorem Scanned.errors_eq {b : BuiltBitmap} (hb : Scanned crc32 au logp b)
    (hfit : total (claimedUnits crc32 au logp) < 2 ^ 64) :
    b.errors = total (claimedUnits crc32 au logp) - distinctUnits crc32 au logp := by
  have hle : distinctUnits crc32 au logp ≤ total (claimedUnits crc32 au logp) := outside_ncard_le _ _
  have hmod := hb.errors
  have hsmall := hb.small.1
  unfold Nat.ModEq at hmod
  omega

theorem Scanned.errors_zero_iff {b : BuiltBitmap} (hb : Scanned crc32 au logp b)
    (hfit : total (claimedUnits crc32 au logp) < 2 ^ 64) :
    b.errors = 0 ↔ (claimedExtents crc32 logp).Pairwise (fun e f => (e.unitsAt au).Apart (f.unitsAt au)) ∧
      ∀ e ∈ claimedExtents crc32 logp, (e.unitsAt au).Apart ((superExtent logp).unitsAt au) := by
  have hle : distinctUnits crc32 au logp ≤ total (claimedUnits crc32 au logp) := outside_ncard_le _ _
  have hzero : b.errors = 0 ↔ distinctUnits crc32 au logp = total (claimedUnits crc32 au logp) := by
    rw [hb.errors_eq hfit]
    omega
  rw [hzero, distinctUnits, outside_ncard_eq_iff, claimedUnits, List.pairwise_map, List.forall_mem_map]
  refine and_congr_right fun _ => forall₂_congr fun e he => ?_
  simp only [FamfsSimpleExtent.unitsAt, superExtent, Nat.zero_div]
  rfl

/-- The error count is the number of collisions, the sum the space of the bits, and no error means
that the extents are apart from each other, the superblock and the log. -/
theorem scan_counts (hunit : UnitAdmitted au) (hdev : divUp devSize au < 2 ^ 31)
    (hlog : FAMFS_SUPERBLOCK_SIZE + logp.famfsLogLen ≤ devSize) (hs : Scannable crc32 au devSize logp)
    (hfit : total (claimedUnits crc32 au logp) < 2 ^ 64) :
    ∃ b, famfsBuildBitmap crc32 logp au devSize = .ok b ∧
      b.errors = total (claimedUnits crc32 au logp) - distinctUnits crc32 au logp ∧
      b.allocSum = au * setBits b.bitmap ∧
      (b.errors = 0 ↔ (claimedExtents crc32 logp).Pairwise (fun e f => Disjoint e.bytes f.bytes) ∧
        ∀ e ∈ claimedExtents crc32 logp, Disjoint e.bytes (superExtent logp).bytes) := by
  obtain ⟨b, hok, hb⟩ := famfsBuildBitmap_scanned hunit hdev hlog hs
  have hau := hunit.bounds.1
  have hsum : b.allocSum = au * setBits b.bitmap := by
    have hmod := hb.sum
    have hsmall := hb.small.2
    have hset : setBits b.bitmap ≤ 2 ^ 31 := by
      refine setBits_le _ fun x hx => ?_
      have hsuper := superUnits_le hau hlog
      rcases (hb.test x).1 hx with hx | ⟨c, hc, hx⟩
      · have := hx.2
        simp only at this
        omega
      · have := claimedUnits_end hau hs hc
        have := hx.2
        omega
    have hbytes := Nat.mul_le_mul hunit.bounds.2 hset
    unfold Nat.ModEq at hmod
    rwa [Nat.mod_eq_of_lt hsmall, Nat.mod_eq_of_lt (by omega)] at hmod
  refine ⟨b, hok, hb.errors_eq hfit, hsum, ?_⟩
  rw [hb.errors_zero_iff hfit]
  refine and_congr ?_ (forall₂_congr fun e he => apart_iff_disjoint hau (hs.aligned e he) (Nat.zero_mod au))
  exact List.Pairwise.iff_of_mem fun {e f} he hf => apart_iff_disjoint hau (hs.aligned e he) (hs.aligned f hf)

end

/-! A log of `n` entries that all name the whole device, of 2^30 units. -/

def crossLinked (n : ℕ) : FamfsLog :=
  { mkfsLog Crc32.update (2 ^ 44) with
    famfsLogNextSeqnum := n
    famfsLogNextIndex := n
    entries := fun i => stampLogEntry Crc32.update { mkfsLog Crc32.update (2 ^ 44) with famfsLogNextSeqnum := i }
      (newLogEntry (.fm (logFileMeta (contiguousFmap 0 (2 ^ 51)) [102] 0o644 0 0 (2 ^ 51)))) }

theorem crossLinked_extents (n i : ℕ) : validExtents Crc32.update (crossLinked n) i = [⟨0, 0, 2 ^ 51⟩] := by
  have hvalid : entryValid Crc32.update (crossLinked n) i := stampLogEntry_valid _ _ _
  rw [validExtents, if_pos hvalid]
  change (contiguousFmap 0 (2 ^ 51)).extents = _
  rw [contiguousFmap_extents]
  rfl

theorem crossLinked_claimed (n : ℕ) : claimedExtents Crc32.update (crossLinked n) = List.replicate n ⟨0, 0, 2 ^ 51⟩ := by
  have hall : validExtents Crc32.update (crossLinked n) = fun _ => [⟨0, 0, 2 ^ 51⟩] := funext (crossLinked_extents n)
  rw [claimedExtents, hall, ← List.map_eq_flatMap, List.map_const', List.length_range]
  rfl

theorem crossLinked_scannable (n : ℕ) : Scannable Crc32.update FAMFS_ALLOC_UNIT (2 ^ 51) (crossLinked n) where
  maps := by
    intro i _ _ m hm
    cases hm
    exact Or.inl ⟨rfl, by decide⟩
  aligned := by
    intro e he
    rw [crossLinked_claimed] at he
    rw [List.eq_of_mem_replicate he]
    rfl
  inside := by
    intro e he
    rw [crossLinked_claimed] at he
    rw [List.eq_of_mem_replicate he]
    exact (Nat.zero_add _).le

theorem crossLinked_total (n : ℕ) : total (claimedUnits Crc32.update FAMFS_ALLOC_UNIT (crossLinked n)) = n * 2 ^ 30 := by
  rw [claimedUnits, crossLinked_claimed, total, List.map_replicate, List.map_replicate, List.sum_replicate, smul_eq_mul]
  rfl

/-- Two files that both have the whole device: every unit of the second is counted, and the
units of the superblock and the log in the first. -/
theorem scan_counts_two_files :
    ∃ b, famfsBuildBitmap Crc32.update (crossLinked 2) FAMFS_ALLOC_UNIT (2 ^ 51) = .ok b ∧
      b.errors = 2 * 2 ^ 30 - distinctUnits Crc32.update FAMFS_ALLOC_UNIT (crossLinked 2) ∧ b.errors ≠ 0 := by
  obtain ⟨b, hok, herr, -, hzero⟩ := scan_counts (Or.inr rfl) (by decide) (by decide) (crossLinked_scannable 2)
    (by rw [crossLinked_total]; norm_num)
  rw [crossLinked_total] at herr
  refine ⟨b, hok, herr, fun h0 => ?_⟩
  have hpair := (hzero.1 h0).1
  rw [crossLinked_claimed] at hpair
  have hdisj : Disjoint (⟨0, 0, 2 ^ 51⟩ : FamfsSimpleExtent).bytes (⟨0, 0, 2 ^ 51⟩ : FamfsSimpleExtent).bytes := by
    simpa [List.replicate] using hpair
  exact Set.disjoint_left.1 hdisj (Set.mem_Ico.2 ⟨le_rfl, by norm_num⟩) (Set.mem_Ico.2 ⟨le_rfl, by norm_num⟩)

/-- The count of a log of 2^34 + 1 entries does not fit in 64 bits. A log that is longer than
its device has space counted for units that have no bit. -/
theorem scan_counts_limits :
    (∃ b, famfsBuildBitmap Crc32.update (crossLinked (2 ^ 34 + 1)) FAMFS_ALLOC_UNIT (2 ^ 51) = .ok b ∧
      Scannable Crc32.update FAMFS_ALLOC_UNIT (2 ^ 51) (crossLinked (2 ^ 34 + 1)) ∧
      b.errors < total (claimedUnits Crc32.update FAMFS_ALLOC_UNIT (crossLinked (2 ^ 34 + 1))) -
        distinctUnits Crc32.update FAMFS_ALLOC_UNIT (crossLinked (2 ^ 34 + 1))) ∧
    ∃ b, famfsBuildBitmap Crc32.update (mkfsLog Crc32.update (2 ^ 26)) FAMFS_ALLOC_UNIT (8 * FAMFS_ALLOC_UNIT) = .ok b ∧
      Scannable Crc32.update FAMFS_ALLOC_UNIT (8 * FAMFS_ALLOC_UNIT) (mkfsLog Crc32.update (2 ^ 26)) ∧
      FAMFS_ALLOC_UNIT * setBits b.bitmap < b.allocSum := by
  constructor
  · obtain ⟨b, hok, hb⟩ := famfsBuildBitmap_scanned (Or.inr rfl) (by decide) (by decide) (crossLinked_scannable (2 ^ 34 + 1))
    refine ⟨b, hok, crossLinked_scannable _, lt_of_lt_of_le hb.small.1 ?_⟩
    have hle := distinctUnits_le (by decide) (crossLinked_scannable (2 ^ 34 + 1))
    have hdev : divUp (2 ^ 51) FAMFS_ALLOC_UNIT = 2 ^ 30 := by decide
    rw [crossLinked_total]
    omega
  · have hscan : (famfsBuildBitmap Crc32.update (mkfsLog Crc32.update (2 ^ 26)) FAMFS_ALLOC_UNIT (8 * FAMFS_ALLOC_UNIT)).map
        (fun b => (b.bitmap.bits, b.allocSum)) = .ok (16, 33 * FAMFS_ALLOC_UNIT) := by decide +kernel
    have hempty : claimedExtents Crc32.update (mkfsLog Crc32.update (2 ^ 26)) = [] := rfl
    cases hb : famfsBuildBitmap Crc32.update (mkfsLog Crc32.update (2 ^ 26)) FAMFS_ALLOC_UNIT (8 * FAMFS_ALLOC_UNIT) with
    | error t =>
      rw [hb] at hscan
      cases hscan
    | ok b =>
      rw [hb] at hscan
      simp only [Except.map, Except.ok.injEq, Prod.mk.injEq] at hscan
      refine ⟨b, rfl, ⟨fun i hi => absurd hi (Nat.not_lt_zero i), by rw [hempty]; simp, by rw [hempty]; simp⟩, ?_⟩
      have hset : setBits b.bitmap ≤ 16 := setBits_le 16 fun x hx => by
        by_contra hge
        rw [muBitmapTest_past (by omega)] at hx
        exact Bool.noConfusion hx
      rw [hscan.2]
      simp only [FAMFS_ALLOC_UNIT]
      omega

end Famfs
