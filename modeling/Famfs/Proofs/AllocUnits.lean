import Famfs.Proofs.AllocCapacity
import Famfs.Proofs.AllocFirstFit
import Famfs.Sanity.LogScan

/-! The two units of a contiguous call. The bitmap is counted in the unit of the superblock, which
may be 4096 bytes, and the length of the extent in units of 2 MiB. They agree only for sizes that
both round up to the same length. -/

namespace Famfs

open Machine Intervals

/-- The length says how many bits were set, and the next file of the session is placed apart. -/
def UnitsConsistent (lp lp' : FamfsLockedLog) (fmap : FamfsLogFmap) : Prop :=
  (∀ e ∈ fmap.extents, e.seLen = newBits lp.bits lp'.bits * lp.allocUnit) ∧
    ∀ host size next lp'', famfsFileAllocContiguous host lp' size = .ok (0, some next, lp'') →
      ∀ e ∈ fmap.extents, ∀ e' ∈ next.extents, Disjoint e.bytes e'.bytes

/-- Rounded up to the unit of the bitmap the size is a whole number of the other units, and its run
ends inside the buffer and below the limit of the index. A size so large that it rounds up to no unit
agrees as well. -/
def UnitsAgree (lp : FamfsLockedLog) (size : ℕ) : Prop :=
  2 ^ 64 < size + lp.allocUnit ∨
    (size + FAMFS_ALLOC_UNIT ≤ 2 ^ 64 ∧ divUp size lp.allocUnit * lp.allocUnit % FAMFS_ALLOC_UNIT = 0 ∧
      ∀ p, FirstPlace lp size p → EndsInside lp.bits (divUp size lp.allocUnit) p)

theorem freshMarks_le_index (bitmap : Bitmap) (n p : ℕ) : (freshMarks bitmap n p).ncard ≤ 2 ^ 32 := by
  rw [← newBits_setRun]
  refine newBits_le _ fun b hclear hset => ?_
  rcases (setRun_test _ _ _ _).1 hset with hold | ⟨htouch, -⟩
  · rw [hold] at hclear
    exact Bool.noConfusion hclear
  · exact htouch.lt

theorem round_eq_iff {au size k : ℕ} (hunit : UnitAdmitted au) (hsize : size + FAMFS_ALLOC_UNIT ≤ 2 ^ 64)
    (hk : k ≤ divUp size au) :
    roundSizeToAllocUnit size = k * au ↔ divUp size au * au % FAMFS_ALLOC_UNIT = 0 ∧ k = divUp size au := by
  rcases hunit with rfl | rfl <;>
  · simp only [roundSizeToAllocUnit, divUp, u64, FAMFS_ALLOC_UNIT] at *
    omega

section

variable {host : AllocHost} {lp lp' : FamfsLockedLog} {size next p : ℕ} {fmap : FamfsLogFmap}

theorem next_after (hunit : UnitAdmitted lp.allocUnit) (hnb : lp.nbits = bitmapNbits lp.devsize lp.allocUnit)
    (hp : FirstPlace lp size p) (hpos : 0 < s64 (p * lp.allocUnit)) (hn : allocBits lp.allocUnit size ≤ 2 ^ 32)
    (h : famfsFileAllocContiguous host (lp.taking size p) next = .ok (0, some fmap, lp')) {e : FamfsSimpleExtent}
    (he : e ∈ fmap.extents) :
    (s64 (p * lp.allocUnit)).toNat + allocBits lp.allocUnit size * lp.allocUnit ≤ e.seOffset := by
  obtain ⟨q, hq, hqpos, rfl, -⟩ := famfsFileAllocContiguous_success h
  rw [contiguousFmap_extents, List.mem_singleton] at he
  subst he
  have hau := hunit.bounds
  have hplt := lt_of_s64_pos (offset_lt (hnb ▸ hp.1.1)) hpos
  have hqlt : q * lp.allocUnit < 2 ^ 63 := lt_of_s64_pos (offset_lt (hnb ▸ hq.1.1)) hqpos
  have hbytes : allocBits lp.allocUnit size * lp.allocUnit ≤ 2 ^ 32 * 2 ^ 21 := Nat.mul_le_mul hn hau.2
  have hcursor : (lp.taking size p).curPos / lp.allocUnit = p + allocBits lp.allocUnit size := by
    change u64 ((p + allocBits lp.allocUnit size) * lp.allocUnit) / lp.allocUnit = _
    rw [u64_of_lt (by rw [Nat.add_mul]; omega), Nat.mul_div_cancel _ hau.1]
  have hle : p + allocBits lp.allocUnit size ≤ q := hcursor.symm.le.trans hq.1.2.from_le
  change _ ≤ (s64 (q * lp.allocUnit)).toNat
  rw [s64_of_lt hplt, s64_of_lt hqlt, Int.toNat_natCast, Int.toNat_natCast, ← Nat.add_mul]
  exact Nat.mul_le_mul_right _ hle

theorem consistent_iff_marks (hunit : UnitAdmitted lp.allocUnit) (hnb : lp.nbits = bitmapNbits lp.devsize lp.allocUnit)
    (hsize : size < 2 ^ 64) (hp : FirstPlace lp size p) (hpos : 0 < s64 (p * lp.allocUnit)) :
    UnitsConsistent lp (lp.taking size p) (contiguousFmap (s64 (p * lp.allocUnit)).toNat size) ↔
      roundSizeToAllocUnit size = (freshMarks lp.bits (allocBits lp.allocUnit size) p).ncard * lp.allocUnit := by
  have hau := hunit.bounds
  unfold UnitsConsistent
  simp only [contiguousFmap_extents, List.forall_mem_singleton]
  rw [show (lp.taking size p).bits = setRun lp.bits (allocBits lp.allocUnit size) p from rfl, newBits_setRun]
  apply and_iff_left_of_imp
  intro hround host' next fmap' lp'' hnext e he
  unfold FamfsSimpleExtent.bytes
  rw [Set.disjoint_left]
  intro x hx hx'
  rw [Set.mem_Ico] at hx hx'
  dsimp only at hx
  by_cases hwrap : size + FAMFS_ALLOC_UNIT ≤ 2 ^ 64
  · have hbits : allocBits lp.allocUnit size = divUp size lp.allocUnit :=
      allocBits_eq (by simp only [FAMFS_ALLOC_UNIT] at hwrap; omega)
    have hall := ((round_eq_iff hunit hwrap ((freshMarks_le _ _ _).trans hbits.le)).1 hround).2
    have hfew := freshMarks_le_index lp.bits (allocBits lp.allocUnit size) p
    rw [hall, ← hbits] at hfew hround
    have := next_after hunit hnb hp hpos hfew hnext he
    omega
  · have := roundSizeToAllocUnit_wrapped hsize hwrap
    omega

/-- A contiguous call keeps the units consistent if they agree on its size, on any bitmap. On a device
of at most 2^32 units, the first of which is taken, it does so only then. -/
theorem units_consistent (hunit : UnitAdmitted lp.allocUnit)
    (hnb : lp.nbits = bitmapNbits lp.devsize lp.allocUnit) (hsize : size < 2 ^ 64)
    (h : famfsFileAllocContiguous host lp size = .ok (0, some fmap, lp')) :
    (UnitsAgree lp size → UnitsConsistent lp lp' fmap) ∧
      (lp.nbits ≤ 2 ^ 32 → lp.nbits ≤ lp.bits.bits → muBitmapTest lp.bits 0 = true → UnitsConsistent lp lp' fmap →
        UnitsAgree lp size) := by
  obtain ⟨p, hp, hpos, rfl, rfl⟩ := famfsFileAllocContiguous_success h
  have hau := hunit.bounds
  rw [consistent_iff_marks hunit hnb hsize hp hpos]
  have hbits : size + FAMFS_ALLOC_UNIT ≤ 2 ^ 64 → allocBits lp.allocUnit size = divUp size lp.allocUnit := fun hwrap =>
    allocBits_eq (by simp only [FAMFS_ALLOC_UNIT] at hwrap; omega)
  constructor
  · rintro (hhuge | ⟨hwrap, hwhole, hends⟩)
    · -- no unit is marked, and the length wraps to nothing
      have hnone : allocBits lp.allocUnit size = 0 := by
        rw [allocBits, u64, Nat.div_eq_zero_iff]
        omega
      rw [hnone, Nat.le_zero.1 (freshMarks_le lp.bits 0 p), Nat.zero_mul]
      exact roundSizeToAllocUnit_wrapped hsize (by simp only [FAMFS_ALLOC_UNIT]; omega)
    · rw [hbits hwrap, round_eq_iff hunit hwrap (freshMarks_le _ _ _)]
      refine ⟨hwhole, freshMarks_inside (fun b hb => ?_) (hends p hp)⟩
      rw [← hbits hwrap] at hb
      exact hp.1.2.run b hb
  · intro h32 hbuf hzero hround
    by_cases hwrap : size + FAMFS_ALLOC_UNIT ≤ 2 ^ 64
    · rw [hbits hwrap, round_eq_iff hunit hwrap (freshMarks_le _ _ _)] at hround
      obtain ⟨hwhole, hall⟩ := hround
      refine .inr ⟨hwrap, hwhole, fun q hq => ?_⟩
      rw [← IsLeast.unique hp hq]
      exact endsInside_of_marks (hp.1.1.trans_le h32) hzero hall
    · -- the length is nothing, so not even the first unit may be marked
      refine .inl (not_le.1 fun hfits => ?_)
      rw [roundSizeToAllocUnit_wrapped hsize hwrap, eq_comm, Nat.mul_eq_zero, or_iff_left hau.1.ne',
        Set.ncard_eq_zero (freshMarks_finite _ _ _)] at hround
      have hunits : allocBits lp.allocUnit size = divUp size lp.allocUnit := allocBits_eq (by omega)
      have hsome : 0 < allocBits lp.allocUnit size := by
        rw [hunits, divUp]
        exact Nat.div_pos (by simp only [FAMFS_ALLOC_UNIT] at hwrap; omega) hau.1
      have hmem : p ∈ freshMarks lp.bits (allocBits lp.allocUnit size) p :=
        ⟨hp.1.2.clear, hp.1.1.trans_le hbuf, 0, hsome, Nat.mod_eq_of_lt (hp.1.1.trans_le h32)⟩
      rw [hround] at hmem
      exact hmem

end

/-- On the device of 2 MiB units a second file of one byte gets one bit and one unit. -/
theorem units_consistent_second_file :
    ∃ fmap lp', famfsFileAllocContiguous ⟨true, true, id⟩ (addFile freshSession 1) 1 = .ok (0, some fmap, lp') ∧
      fmap.extents = [unitExtent (6, 1)] ∧ UnitsConsistent (addFile freshSession 1) lp' fmap := by
  obtain ⟨f, lp', hok, hes⟩ := ok_of_map (f := FamfsLogFmap.extents) [unitExtent (6, 1)]
    (r := famfsFileAllocContiguous ⟨true, true, id⟩ (addFile freshSession 1) 1) (by decide +kernel)
  have hunit : (addFile freshSession 1).allocUnit = FAMFS_ALLOC_UNIT := by decide +kernel
  refine ⟨f, lp', hok, hes, (units_consistent (Or.inr hunit) (by decide +kernel) (by decide) hok).1 (.inr ?_)⟩
  have hone : divUp 1 FAMFS_ALLOC_UNIT = 1 := by decide
  rw [hunit, hone]
  refine ⟨by decide, by decide, fun p hp => .inr ?_⟩
  have hnbits : (addFile freshSession 1).nbits = 2048 := by decide +kernel
  have hbits : 2048 ≤ (addFile freshSession 1).bits.bits := by decide +kernel
  have hlt : p < 2048 := hnbits ▸ hp.1.1
  omega

def pageSuper : FamfsSuperblock :=
  { freshSuper with tsAllocUnit := 4096, tsCrc := famfsGenSuperblockCrc Crc32.update { freshSuper with tsAllocUnit := 4096 } }

def pageSession : FamfsLockedLog :=
  famfsInitLockedLog 43 pageSuper (mkfsLog Crc32.update FAMFS_LOG_LEN) .v1 [47, 109] none none

/-- The bitmap of a session on 2^20 pages, with the pages below `n` taken. -/
structure TakenTo (n : ℕ) (lp : FamfsLockedLog) : Prop where
  unit : lp.allocUnit = 4096
  nbits : lp.nbits = 2 ^ 20
  room : 2 ^ 20 ≤ lp.bits.bits
  cursor : lp.curPos / 4096 ≤ n
  taken : ∀ x < 2 ^ 20, muBitmapTest lp.bits x = true ↔ x < n

theorem pageSession_built : ∃ lp, ensureBitmap Crc32.update pageSession = .ok lp ∧ TakenTo 2560 lp := by
  have hlen : superUnits 4096 (mkfsLog Crc32.update FAMFS_LOG_LEN) = 2560 := by decide
  have hnb : bitmapNbits (2 ^ 32) 4096 = 2 ^ 20 := by decide
  obtain ⟨b, hok, hb⟩ : ∃ b, famfsBuildBitmap Crc32.update (mkfsLog Crc32.update FAMFS_LOG_LEN) 4096 (2 ^ 32) = .ok b ∧
      b.bitmap = _ := famfsBuildBitmap_empty (Or.inl rfl) (by decide) rfl
  have hbits : 2 ^ 20 ≤ (emptyBitmap (2 ^ 20)).bits := emptyBitmap_bits (by norm_num)
  rw [hnb] at hb
  refine ⟨_, @ensureBitmap_scanned _ pageSession _ rfl hok, rfl, hnb, ?_, ?_, fun x hx => ?_⟩
  · change 2 ^ 20 ≤ b.bitmap.bits
    rw [hb, superMarks_bits]
    exact hbits
  · exact (Nat.zero_div 4096).le.trans (Nat.zero_le 2560)
  · change muBitmapTest b.bitmap x = true ↔ _
    rw [hb, superMarks_test, hlen, Seg.Has, Nat.zero_add]
    constructor
    · rintro ⟨⟨-, hlt⟩, -⟩
      exact hlt
    · intro hlt
      exact ⟨⟨Nat.zero_le _, hlt⟩, by omega⟩

theorem TakenTo.one_more {n : ℕ} {lp : FamfsLockedLog} (h : TakenTo n lp) (hpos : 0 < n) (hn : n < 2 ^ 20) :
    ∃ fmap lp', famfsFileAllocContiguous ⟨true, true, id⟩ lp 1 = .ok (0, some fmap, lp') ∧
      fmap.extents = [⟨0, n * 4096, FAMFS_ALLOC_UNIT⟩] ∧ TakenTo (n + 1) lp' := by
  have hone : allocBits 4096 1 = 1 := by decide
  have hclear : muBitmapTest lp.bits n = false := by
    rw [← Bool.not_eq_true, h.taken n hn]
    exact lt_irrefl n
  have hfirst : FirstPlace lp 1 n := by
    apply firstPlace_of_run (by rw [h.nbits]; norm_num) (by rw [h.unit, hone]; norm_num)
    · intro b _ hb
      exact (h.taken b (hb.trans hn)).2 hb
    · rw [h.unit, hone, h.nbits]
      refine ⟨h.cursor, hn, fun b hb => ?_⟩
      rw [show b = n from le_antisymm (Nat.lt_succ_iff.mp hb.2) hb.1, hclear]
  have hofs : s64 (n * lp.allocUnit) = (n * 4096 : ℕ) := by rw [h.unit, s64_of_lt (by omega)]
  refine ⟨_, _, famfsFileAllocContiguous_first rfl hfirst (by rw [hofs]; omega), ?_, h.unit, h.nbits, ?_, ?_, fun x hx => ?_⟩
  · rw [contiguousFmap_extents, hofs, Int.toNat_natCast]
    rfl
  · exact h.room.trans (setRun_bits _ _ _).symm.le
  · change u64 ((n + allocBits lp.allocUnit 1) * lp.allocUnit) / 4096 ≤ n + 1
    rw [h.unit, hone, u64_of_lt (by omega), Nat.mul_div_cancel _ (by norm_num)]
  · change muBitmapTest (setRun lp.bits (allocBits lp.allocUnit 1) n) x = true ↔ x < n + 1
    have hroom := h.room
    rw [h.unit, hone, setRun_test, h.taken x hx, touches_iff (by omega), Seg.Has]
    omega

/-- With units of 4096 bytes two files of one byte are one page apart, and each has 2 MiB. -/
theorem files_share_bytes :
    famfsCheckSuper Crc32.update pageSuper = 0 ∧
    ∃ lp lp1 lp2 fmap1 fmap2, ensureBitmap Crc32.update pageSession = .ok lp ∧
      famfsFileAllocContiguous ⟨true, true, id⟩ lp 1 = .ok (0, some fmap1, lp1) ∧
      famfsFileAllocContiguous ⟨true, true, id⟩ lp1 1 = .ok (0, some fmap2, lp2) ∧
      fmap1.extents = [⟨0, 2560 * 4096, FAMFS_ALLOC_UNIT⟩] ∧ fmap2.extents = [⟨0, 2561 * 4096, FAMFS_ALLOC_UNIT⟩] ∧
      ¬ UnitsConsistent lp lp1 fmap1 := by
  obtain ⟨lp, hsession, h⟩ := pageSession_built
  obtain ⟨fmap1, lp1, hfirst, hes1, h1⟩ := h.one_more (by decide) (by decide)
  obtain ⟨fmap2, lp2, hsecond, hes2, -⟩ := h1.one_more (by decide) (by decide)
  refine ⟨by decide +kernel, lp, lp1, lp2, fmap1, fmap2, hsession, hfirst, hsecond, hes1, hes2, ?_⟩
  rintro ⟨-, hnext⟩
  have hdis := hnext _ _ _ _ hsecond ⟨0, 2560 * 4096, FAMFS_ALLOC_UNIT⟩ (by simp [hes1]) ⟨0, 2561 * 4096, FAMFS_ALLOC_UNIT⟩
    (by simp [hes2])
  rw [Set.disjoint_left] at hdis
  refine hdis (a := 2561 * 4096) ?_ ?_ <;> simp [FamfsSimpleExtent.bytes, FAMFS_ALLOC_UNIT]

end Famfs
